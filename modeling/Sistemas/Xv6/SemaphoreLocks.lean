import Mathlib.Algebra.Order.BigOperators.Group.Finset
import Sistemas.Xv6.SemaphoreStep

/-! # Who holds which lock

`LockInv` ties the locks to the program counters: the holder recorded in a lock is
exactly the thread that is between that lock's acquire and its release, a lock held by
the scheduler is that of a process switched out in `sched()`, and the state and the
channel of a process fit the place of its thread.  It holds of an idle kernel and every
step keeps it (`step_lockInv`).

The second half uses it twice.  A quiescent kernel holds no lock, so every process in
it is off or asleep (`quiescent_asleep`); and a semaphore's lock can always be released
without the help of a thread that holds nothing (`exists_run_unlock`).
-/

namespace Sistemas.Xv6

variable {n : Nat}

def Pc.holdsSem : Pc n → Option SemId
  | .body s _ | .wakeup s _ _ | .wakeupLocked s _ _ | .sleepAcquire s | .sleepRelease s
  | .release s _ _ => some s
  | _ => none

def Pc.holdsProc (p : Fin n) : Pc n → Option (Fin n)
  | .forkret | .sleepRelease _ | .sleepMark _ | .sleepTidy _ => some p
  | .wakeupLocked _ _ i | .killLocked _ i => some i
  | _ => none

/-- The states and channels of a process whose thread is at a program counter. -/
def Pc.Fits : Pc n → ProcState → Option SemId → Prop
  | .off, st, _ => st = .unused ∨ st = .zombie
  | .embryo, st, _ => st = .runnable
  | .sched s, st, ch => (st = .sleeping ∨ st = .runnable) ∧ ch = some s
  | _, st, _ => st = .running

theorem Pc.Fits.woken {pc : Pc n} {ch : Option SemId} (h : pc.Fits .sleeping ch) :
    pc.Fits .runnable ch := by
  cases pc <;> simp_all [Pc.Fits]

theorem Pc.Fits.off {pc : Pc n} {ch : Option SemId} (h : pc.Fits .unused ch) : pc = .off := by
  cases pc <;> simp_all [Pc.Fits]

theorem Pc.Fits.sched {pc : Pc n} {ch : Option SemId} (h : pc.Fits .sleeping ch) :
    ∃ s, pc = .sched s ∧ ch = some s := by
  cases pc <;> simp_all [Pc.Fits]

namespace Kernel

variable {k k' : Kernel n} {p q : Fin n} {s t : SemId}

structure LockInv (k : Kernel n) : Prop where
  sem : ∀ s p, (k.sem s).lock = some p ↔ (k.proc p).pc.holdsSem = some s
  proc : ∀ i p, (k.proc i).lock = some (.proc p) ↔ (k.proc p).pc.holdsProc p = some i
  scheduler : ∀ i, (k.proc i).lock = some .scheduler → ∃ s, (k.proc i).pc = .sched s
  fits : ∀ p, (k.proc p).pc.Fits (k.proc p).state (k.proc p).chan

theorem LockInv.unused (inv : LockInv k) (h : (k.proc p).state = .unused) :
    (k.proc p).pc = .off := (h ▸ inv.fits p : (k.proc p).pc.Fits .unused _).off

theorem LockInv.sleeping (inv : LockInv k) (h : (k.proc p).state = .sleeping) :
    ∃ s, (k.proc p).pc = .sched s ∧ (k.proc p).chan = some s :=
  (h ▸ inv.fits p : (k.proc p).pc.Fits .sleeping _).sched

theorem LockInv.holder_unique (inv : LockInv k) (hp : (k.proc p).pc.holdsSem = some s)
    (hq : (k.proc q).pc.holdsSem = some s) : p = q :=
  Option.some.inj (((inv.sem s p).mpr hp).symm.trans ((inv.sem s q).mpr hq))

/-! ## Every step keeps the invariant -/

variable {a : Act n}

theorem Step.lock_sem (h : Step k p a k') (inv : LockInv k) (t : SemId) (q : Fin n) :
    (k'.sem t).lock = some q ↔ (k'.proc q).pc.holdsSem = some t := by
  have hq := inv.sem t q
  have hp := inv.sem t p
  have unused := inv.unused (p := q)
  cases h <;> simp [wakeProc, killProc] <;> grind [Pc.holdsSem]

theorem Step.lock_proc (h : Step k p a k') (inv : LockInv k) (i q : Fin n) :
    (k'.proc i).lock = some (.proc q) ↔ (k'.proc q).pc.holdsProc q = some i := by
  have hq := inv.proc i q
  have hp := inv.proc i p
  have unused := inv.unused (p := q)
  have sched := inv.scheduler i
  cases h <;> simp [wakeProc, killProc] <;> grind [Pc.holdsProc]

theorem Step.lock_scheduler (h : Step k p a k') (inv : LockInv k) (i : Fin n) :
    (k'.proc i).lock = some .scheduler → ∃ s, (k'.proc i).pc = .sched s := by
  intro held
  have hi := inv.scheduler i
  by_cases self : i = p
  · subst self
    cases h <;> simp_all [wakeProc, killProc] <;> grind
  · cases h <;> simp [wakeProc, killProc, self] at held ⊢ <;> grind

theorem Step.fits (h : Step k p a k') (inv : LockInv k) (i : Fin n) :
    (k'.proc i).pc.Fits (k'.proc i).state (k'.proc i).chan := by
  have hi := inv.fits i
  have woken : (k.proc i).pc.Fits .sleeping (k.proc i).chan →
      (k.proc i).pc.Fits .runnable (k.proc i).chan := Pc.Fits.woken
  cases h <;> simp [wakeProc, killProc] <;> grind [Pc.Fits]

theorem step_lockInv (inv : LockInv k) (h : k.step (p, a) = some k') : LockInv k' :=
  have move := step_inv h
  ⟨move.lock_sem inv, move.lock_proc inv, move.lock_scheduler inv, move.fits inv⟩

theorem exec_lockInv {ls : List (Label n)} (inv : LockInv k) (run : k.exec ls = some k') :
    LockInv k' :=
  Transition.exec_invariant (fun _ _ _ inv h => step_lockInv inv h) inv run

/-- A step moves no thread but its own, except that `fork` creates one. -/
theorem Step.pc_other (h : Step k p a k') (inv : LockInv k) (other : q ≠ p) :
    (k'.proc q).pc = (k.proc q).pc ∨ (k.proc q).pc = .off ∧ (k'.proc q).pc = .embryo := by
  have unused := inv.unused (p := q)
  cases h <;> simp [wakeProc, killProc, other]
  all_goals grind

/-! ## Idle kernels -/

/-- No process is inside the kernel. -/
structure Idle (k : Kernel n) : Prop where
  sem : ∀ s, (k.sem s).lock = none
  lock : ∀ p, (k.proc p).lock = none
  pc : ∀ p, (k.proc p).pc = .off ∨ (k.proc p).pc = .user ∨ (k.proc p).pc = .embryo
  fits : ∀ p, (k.proc p).pc.Fits (k.proc p).state (k.proc p).chan

theorem Idle.lockInv (idle : Idle k) : LockInv k where
  sem s p := by rcases idle.pc p with h | h | h <;> simp [idle.sem s, h, Pc.holdsSem]
  proc i p := by rcases idle.pc p with h | h | h <;> simp [idle.lock i, h, Pc.holdsProc]
  scheduler i := by simp [idle.lock i]
  fits := idle.fits

/-- The semaphores as `main` leaves them, with any processes in user space. -/
structure Booted (k : Kernel n) : Prop extends Idle k where
  sem_eq : k.sem = (boot n).sem

theorem Booted.value (booted : Booted k) (s : SemId) : (k.sem s).value = 0 := by
  rw [booted.sem_eq]; rfl

theorem boot_proc (p : Fin n) : (boot n).proc p =
    if p.val = 0 then
      { lock := none, state := .runnable, chan := none, killed := false, pid := 1, pc := .embryo }
    else { lock := none, state := .unused, chan := none, killed := false, pid := 0, pc := .off } :=
  rfl

theorem boot_booted (n : Nat) : Booted (boot n) where
  sem _ := rfl
  lock p := by rw [boot_proc]; split <;> rfl
  pc p := by rw [boot_proc]; split <;> simp
  fits p := by rw [boot_proc]; split <;> simp [Pc.Fits]
  sem_eq := rfl

/-! ## Quiescence -/

/-- No process, and no scheduler on behalf of one, can take a further step. -/
def Quiescent (k : Kernel n) : Prop := ∀ p a, a ≠ .spurious → k.step (p, a) = none

/-- No kernel thread, and no scheduler, can take a further step. -/
structure Halted (k : Kernel n) : Prop where
  run : ∀ p, k.step (p, .run) = none
  dispatch : ∀ p, k.step (p, .dispatch) = none
  park : ∀ p, k.step (p, .park) = none

theorem Quiescent.halted (quiet : Quiescent k) : Halted k where
  run p := quiet p .run (by simp)
  dispatch p := quiet p .dispatch (by simp)
  park p := quiet p .park (by simp)

theorem quiescent_of_idle (idle : ∀ p, (k.proc p).lock = none ∧ (k.proc p).state ≠ .running ∧
    (k.proc p).state ≠ .runnable) : Quiescent k := by
  intro p a notSpurious
  obtain ⟨free, notRunning, notRunnable⟩ := idle p
  cases a <;> simp_all [step, Kernel.dispatch]

/-- A thread that holds a `p->lock` is never blocked. -/
theorem LockInv.holdsProc_steps (inv : LockInv k) {i : Fin n}
    (h : (k.proc p).pc.holdsProc p = some i) : ∃ k', k.step (p, .run) = some k' := by
  have fits := inv.fits p
  cases pc : (k.proc p).pc <;> simp_all [Pc.holdsProc, Pc.Fits, step, runThread]
  split <;> simp

theorem Halted.lock_proc (halted : Halted k) (inv : LockInv k) (i : Fin n) :
    (k.proc i).lock = none := by
  cases held : (k.proc i).lock with
  | none => rfl
  | some holder =>
    exfalso
    cases holder with
    | proc p =>
      obtain ⟨k', h⟩ := inv.holdsProc_steps ((inv.proc i p).mp held)
      rw [halted.run p] at h
      cases h
    | scheduler =>
      have := halted.park i
      simp [step, held] at this

/-- With every `p->lock` free, a thread that holds a semaphore's lock is not blocked. -/
theorem LockInv.holdsSem_steps (inv : LockInv k) (free : ∀ i, (k.proc i).lock = none)
    (h : (k.proc p).pc.holdsSem = some s) : ∃ k', k.step (p, .run) = some k' := by
  have fits := inv.fits p
  cases pc : (k.proc p).pc <;> simp_all [Pc.holdsSem, Pc.Fits, step, runThread]
  split
  · split <;> simp
  · simp

theorem Halted.lock_sem (halted : Halted k) (inv : LockInv k) (s : SemId) :
    (k.sem s).lock = none := by
  cases held : (k.sem s).lock with
  | none => rfl
  | some p =>
    obtain ⟨k', h⟩ := inv.holdsSem_steps (halted.lock_proc inv) ((inv.sem s p).mp held)
    rw [halted.run p] at h
    cases h

/-- In a halted kernel every process is off, in user space or asleep on a semaphore. -/
theorem Halted.asleep (halted : Halted k) (inv : LockInv k) (p : Fin n) :
    (k.proc p).pc = .off ∨ (k.proc p).pc = .user ∨
      ∃ s, (k.proc p).pc = .sched s ∧ (k.proc p).state = .sleeping := by
  have fits := inv.fits p
  have free := halted.lock_proc inv
  have freeSem := halted.lock_sem inv
  have noRun := halted.run p
  have noDispatch := halted.dispatch p
  cases pc : (k.proc p).pc <;> simp_all [Pc.Fits, step, runThread, Kernel.dispatch]
  all_goals grind

/-- In a quiescent kernel every process is off or asleep on a semaphore. -/
theorem quiescent_asleep (inv : LockInv k) (quiet : Quiescent k) (p : Fin n) :
    (k.proc p).pc = .off ∨ ∃ s, (k.proc p).pc = .sched s ∧ (k.proc p).state = .sleeping := by
  rcases quiet.halted.asleep inv p with off | user | asleep
  · exact .inl off
  · -- a process in user space can exit
    have fits := inv.fits p
    have noCall := quiet p (.call .exit) (by simp)
    simp_all [Pc.Fits, step, usertrap, syscall, quiet.halted.lock_proc inv]
  · exact .inr asleep

/-! ## Locks are released

`work` bounds the steps a thread still takes before it holds nothing, not counting the
waits for a lock.  Whoever blocks the holder of a semaphore's lock holds a `p->lock`, and
never waits itself, so some thread can always bring the total down. -/

end Kernel

def Pc.work : Pc n → Nat
  | .body _ _ => 2 * n + 7
  | .wakeup _ _ i => 2 * (n - i) + 4
  | .wakeupLocked _ _ i => 2 * (n - i) + 3
  | .sleepAcquire _ => 6
  | .sleepRelease _ => 5
  | .sleepMark _ => 4
  | .release _ _ _ => 3
  | .sleepTidy _ | .forkret | .killLocked _ _ => 2
  | .reacquire _ | .kill _ _ | .ret _ => 1
  | _ => 0

/-- The work left for one slot: its thread's, and the scheduler's release of its lock. -/
def Proc.work (x : Proc n) : Nat := x.pc.work + if x.lock = some .scheduler then 1 else 0

namespace Kernel

variable {k k' : Kernel n} {p q : Fin n} {s : SemId}

def work (k : Kernel n) : Nat := ∑ p, (k.proc p).work

def Holds (k : Kernel n) (p : Fin n) : Prop :=
  (k.proc p).pc.holdsSem ≠ none ∨ (k.proc p).pc.holdsProc p ≠ none

theorem work_lt (other : ∀ q, q ≠ p → (k'.proc q).work ≤ (k.proc q).work)
    (self : (k'.proc p).work < (k.proc p).work) : k'.work < k.work := by
  refine Finset.sum_lt_sum (fun q _ => ?_) ⟨p, Finset.mem_univ p, self⟩
  by_cases hq : q = p
  · subst hq; exact Nat.le_of_lt self
  · exact other q hq

theorem Step.work_lt (h : Step k p .run k') (holds : Holds k p) : k'.work < k.work := by
  refine Kernel.work_lt (p := p) (fun q hq => ?_) ?_
  · cases h <;> simp [Proc.work, wakeProc, killProc, hq] <;> grind
  · cases h <;>
      simp_all [Proc.work, Pc.work, Holds, Pc.holdsSem, Pc.holdsProc, wakeProc, killProc] <;> grind

theorem Step.work_lt_park (h : Step k p .park k') : k'.work < k.work := by
  refine Kernel.work_lt (p := p) (fun q hq => ?_) ?_ <;> cases h <;> simp_all [Proc.work]

/-- While a semaphore's lock is held, a thread that holds a lock, or the scheduler, can
    bring the work down. -/
theorem LockInv.exists_step (inv : LockInv k) (held : (k.sem s).lock = some q) :
    ∃ r a k', k.step (r, a) = some k' ∧ k'.work < k.work ∧
      (a = .park ∨ a = .run ∧ Holds k r) := by
  by_cases free : ∀ i, (k.proc i).lock = none
  · have holds := (inv.sem s q).mp held
    obtain ⟨k', h⟩ := inv.holdsSem_steps free holds
    have hq : Holds k q := .inl (by simp [holds])
    exact ⟨q, .run, k', h, (step_inv h).work_lt hq, .inr ⟨rfl, hq⟩⟩
  · obtain ⟨i, hi⟩ := not_forall.mp free
    cases lock : (k.proc i).lock with
    | none => exact absurd lock hi
    | some holder =>
      cases holder with
      | scheduler =>
        have h : k.step (i, .park) = some (k.modifyProc i fun x => { x with lock := none }) := by
          simp [step, lock]
        exact ⟨i, .park, _, h, (step_inv h).work_lt_park, .inl rfl⟩
      | proc r =>
        have holds := (inv.proc i r).mp lock
        obtain ⟨k', h⟩ := inv.holdsProc_steps holds
        have hr : Holds k r := .inr (by simp [holds])
        exact ⟨r, .run, k', h, (step_inv h).work_lt hr, .inr ⟨rfl, hr⟩⟩

/-- A thread waiting for a semaphore's lock can be given it: the others run until the
    lock is free. -/
theorem LockInv.exists_run_unlock {op : SemOp} (inv : LockInv k)
    (waits : (k.proc p).pc = .acquire s op) :
    ∃ ls k', k.exec ls = some k' ∧ (∀ l ∈ ls, l.1 ≠ p) ∧ (k'.sem s).lock = none ∧
      (k'.proc p).pc = .acquire s op := by
  induction hw : k.work using Nat.strongRecOn generalizing k with
  | _ w ih =>
    subst hw
    cases held : (k.sem s).lock with
    | none => exact ⟨[], k, rfl, by simp, held, waits⟩
    | some q =>
      obtain ⟨r, a, k₁, h, less, why⟩ := inv.exists_step held
      have other : r ≠ p := by
        rintro rfl
        rcases why with rfl | ⟨-, holds⟩
        · obtain ⟨t, ht⟩ := inv.scheduler r (by cases step_inv h; assumption)
          rw [waits] at ht
          cases ht
        · simp [Holds, waits, Pc.holdsSem, Pc.holdsProc] at holds
      have waits₁ : (k₁.proc p).pc = .acquire s op := by
        rcases (step_inv h).pc_other inv other.symm with same | ⟨off, -⟩
        · rw [same, waits]
        · rw [waits] at off; cases off
      obtain ⟨ls, k', run, apart, free, pc⟩ := ih _ less (step_lockInv inv h) waits₁ rfl
      exact ⟨(r, a) :: ls, k', Transition.exec_cons_eq_some.mpr ⟨k₁, h, run⟩,
        by simpa [other] using apart, free, pc⟩

end Kernel

end Sistemas.Xv6
