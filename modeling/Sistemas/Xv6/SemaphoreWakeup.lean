import Sistemas.Xv6.SemaphoreLocks

/-! # No wakeup is lost

A process counts as waiting on `s` from the moment it has given the semaphore's lock away
in `sleep` until somebody makes it runnable.  `WakeInv` says that while somebody waits
the value is 0, except during a `wakeup` whose scan of the process table has not passed
the waiting process yet.
-/

namespace Sistemas.Xv6

variable {n : Nat}

/-- The semaphore and the table index of a `wakeup` in progress. -/
def Pc.scan : Pc n → Option (SemId × Nat)
  | .wakeup s _ i => some (s, i)
  | .wakeupLocked s _ i => some (s, i.val)
  | _ => none

theorem Pc.holdsSem_of_scan {pc : Pc n} {s : SemId} {i : Nat} (h : pc.scan = some (s, i)) :
    pc.holdsSem = some s := by
  cases pc <;> simp_all [Pc.scan, Pc.holdsSem]

namespace Kernel

variable {k k' : Kernel n} {p q : Fin n} {s : SemId} {a : Act n}

/-- `p` has released the lock of `s` inside `sleep` and has not been made runnable. -/
def WaitsOn (k : Kernel n) (s : SemId) (p : Fin n) : Prop :=
  (k.proc p).pc = .sleepMark s ∨ (k.proc p).pc = .sched s ∧ (k.proc p).state = .sleeping

structure WakeInv (k : Kernel n) : Prop where
  -- between the test and the release of the lock, the value is the 0 that was read
  tested : ∀ s p, (k.proc p).pc = .sleepAcquire s ∨ (k.proc p).pc = .sleepRelease s →
    (k.sem s).value = 0
  -- a waiting process is covered by a value of 0 or by a scan that will reach it
  waits : ∀ s p, WaitsOn k s p → (k.sem s).value = 0 ∨
    ∃ q i, (k.proc q).pc.scan = some (s, i) ∧ i ≤ p.val

theorem Step.tested (h : Step k p a k') (locks : LockInv k) (inv : WakeInv k) (t : SemId)
    (q : Fin n) (pc : (k'.proc q).pc = .sleepAcquire t ∨ (k'.proc q).pc = .sleepRelease t) :
    (k'.sem t).value = 0 := by
  have old := inv.tested t q
  have unique := locks.holder_unique (p := p) (q := q) (s := t)
  cases h <;> simp [wakeProc, killProc] at pc ⊢ <;> grind [Pc.holdsSem]

/-- Only its own release of the lock inside `sleep` makes a process wait. -/
theorem Step.waitsOn_old (h : Step k p a k') (locks : LockInv k) {t : SemId}
    (waits : WaitsOn k' t q) : WaitsOn k t q ∨ q = p ∧ (k.proc p).pc = .sleepRelease t := by
  have unused := locks.unused (p := q)
  unfold WaitsOn at *
  cases h <;> simp [wakeProc, killProc] at waits ⊢ <;> grind

theorem WaitsOn.not_woken {op : SemOp} {i : Fin n} (locks : LockInv k)
    (pc : (k.proc p).pc = .wakeupLocked s op i) (waits : WaitsOn k s i) :
    (k.proc i).state = .sleeping ∧ (k.proc i).chan = some s := by
  have held : (k.proc i).lock = some (.proc p) := (locks.proc i p).mpr (by simp [pc, Pc.holdsProc])
  rcases waits with mark | ⟨sched, asleep⟩
  · -- a process still in `sleepMark` holds its own lock
    have own := (locks.proc i i).mpr (by rw [mark]; rfl)
    rw [held] at own
    obtain rfl : p = i := by simpa using own
    rw [pc] at mark
    cases mark
  · have fits := locks.fits i
    rw [sched] at fits
    exact ⟨asleep, fits.2⟩

/-- A scan that has not reached a waiting process has not after the step either. -/
theorem Step.scan_keeps (h : Step k p a k') (locks : LockInv k) {i : Nat}
    (waits : WaitsOn k s q) (waits' : WaitsOn k' s q)
    (scan : (k.proc p).pc.scan = some (s, i)) (le : i ≤ q.val) :
    ∃ j, (k'.proc p).pc.scan = some (s, j) ∧ j ≤ q.val := by
  have apart : q ≠ p := by
    rintro rfl
    rcases waits with pc | ⟨pc, -⟩ <;> simp [pc, Pc.scan] at scan
  cases h with
  | wakeupSelf t op running pc =>
    simp only [pc, Pc.scan, Option.some.injEq, Prod.mk.injEq] at scan
    obtain ⟨rfl, rfl⟩ := scan
    exact ⟨p.val + 1, by simp [Pc.scan], by have := Fin.val_ne_of_ne apart; omega⟩
  | wakeupLock t op j running pc other free =>
    simp only [pc, Pc.scan, Option.some.injEq, Prod.mk.injEq] at scan
    obtain ⟨rfl, rfl⟩ := scan
    exact ⟨j.val, by simp [Pc.scan], le⟩
  | wakeupEnd t op j running pc past =>
    simp only [pc, Pc.scan, Option.some.injEq, Prod.mk.injEq] at scan
    have := q.isLt
    omega
  | wake t op j running pc =>
    simp only [pc, Pc.scan, Option.some.injEq, Prod.mk.injEq] at scan
    obtain ⟨rfl, rfl⟩ := scan
    by_cases here : q = j
    · -- the process just visited was waiting, and is runnable now
      subst here
      obtain ⟨asleep, chan⟩ := waits.not_woken locks pc
      have := locks.sleeping asleep
      simp [WaitsOn, apart, wakeProc, asleep, chan] at waits'
      grind
    · exact ⟨j.val + 1, by simp [Pc.scan], by have := Fin.val_ne_of_ne here; omega⟩
  | _ => simp_all [Pc.scan]

theorem Step.waits (h : Step k p a k') (locks : LockInv k) (inv : WakeInv k) (t : SemId)
    (q : Fin n) (waits' : WaitsOn k' t q) :
    (k'.sem t).value = 0 ∨ ∃ r i, (k'.proc r).pc.scan = some (t, i) ∧ i ≤ q.val := by
  rcases h.waitsOn_old locks waits' with waits | ⟨rfl, pc⟩
  · rcases inv.waits t q waits with zero | ⟨r, i, scan, le⟩
    · -- only a store can change the 0, and the ones that do are followed by a scan
      cases h with
      | up s running pc =>
        by_cases same : t = s
        · exact .inr ⟨p, 0, by simp [Pc.scan, same], Nat.zero_le _⟩
        · exact .inl (by simpa [same] using zero)
      | openFree s v running pc free => left; simp; grind
      | close s running pc => left; simp; grind
      | down s running pc pos => left; simp; grind
      | _ => exact .inl (by simpa using zero)
    · by_cases self : r = p
      · subst self
        obtain ⟨j, hj⟩ := h.scan_keeps locks waits waits' scan le
        exact .inr ⟨r, j, hj⟩
      · rcases h.pc_other locks self with same | ⟨off, -⟩
        · exact .inr ⟨r, i, by rw [same]; exact scan, le⟩
        · simp [off, Pc.scan] at scan
  · left
    have zero := inv.tested t q (.inr pc)
    cases h <;> simp_all

theorem step_wakeInv (locks : LockInv k) (inv : WakeInv k) (h : k.step (p, a) = some k') :
    WakeInv k' :=
  ⟨(step_inv h).tested locks inv, (step_inv h).waits locks inv⟩

theorem Idle.wakeInv (idle : Idle k) : WakeInv k where
  tested s p := by rcases idle.pc p with h | h | h <;> simp [h]
  waits s p := by rcases idle.pc p with h | h | h <;> simp [h, WaitsOn]

theorem exec_wakeInv {ls : List (Label n)} (idle : Idle k) (run : k.exec ls = some k') :
    LockInv k' ∧ WakeInv k' :=
  Transition.exec_invariant (P := fun k => LockInv k ∧ WakeInv k)
    (fun _ _ _ inv h => ⟨step_lockInv inv.1 h, step_wakeInv inv.1 inv.2 h⟩)
    ⟨idle.lockInv, idle.wakeInv⟩ run

/-- **No lost wakeup.**  Wherever a run from boot leads, if the lock of `s` is free and a
    process sleeps on the channel `&sem_t[s]`, the value of `s` is 0. -/
theorem sleeping_value_zero {start : Kernel n} {ls : List (Label n)} (booted : Booted start)
    (run : start.exec ls = some k) (s : SemId) (free : (k.sem s).lock = none) (p : Fin n)
    (asleep : (k.proc p).state = .sleeping) (chan : (k.proc p).chan = some s) :
    (k.sem s).value = 0 := by
  obtain ⟨locks, inv⟩ := exec_wakeInv booted.toIdle run
  obtain ⟨t, pc, chan'⟩ := locks.sleeping asleep
  obtain rfl : s = t := Option.some.inj (chan.symm.trans chan')
  rcases inv.waits s p (.inr ⟨pc, asleep⟩) with zero | ⟨q, i, scan, -⟩
  · exact zero
  · -- a scan in progress holds the lock
    rw [(locks.sem s q).mpr (Pc.holdsSem_of_scan scan)] at free
    cases free

/-- One process calls `sem_down(0)` after boot and goes to sleep. -/
def downRun : List (Label 1) :=
  turn first [.dispatch, .run, .call (.semDown 0), .run, .run, .run, .run, .run, .park]

theorem sleeping_value_zero_downRun :
    ∃ k, (boot 1).exec downRun = some k ∧ (k.sem 0).lock = none ∧ (k.proc 0).state = .sleeping ∧
      (k.proc 0).chan = some 0 ∧ (k.sem 0).value = 0 :=
  ⟨_, rfl, rfl, rfl, rfl, sleeping_value_zero (boot_booted 1)
    (show (boot 1).exec downRun = some _ from rfl) 0 rfl 0 rfl rfl⟩

end Kernel

end Sistemas.Xv6
