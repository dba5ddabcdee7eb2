import Sistemas.Xv6.PipeLocks

/-! # Nobody sleeps on a pipe that is ready

A process waits on a channel from the moment it has given the lock of the pipe away in `sleep`
until somebody makes it runnable.  `WakeInv` says that whoever waits has a reason to
(`Blocked`), or that a process with the lock still owes it a wakeup (`Owes`).

A writer owes the readers one from its first byte on.  It pays on every way out of
`pipewrite` but one: when it finds that it has been killed it leaves with the bytes it has put
into the pipe, and the readers sleep on (`Answered` leaves this out).
-/

namespace Sistemas.Xv6.Pipes

variable {n : Nat}

/-- The channel and the table index of a `wakeup` in progress. -/
def Pc.scan : Pc n → Option (Chan × Nat)
  | .wakeup c _ i => some (c, i)
  | .wakeupLocked c _ i => some (c, i.val)
  | _ => none

/-- In the loop of `pipewrite`. -/
def Pc.Writes : Pc n → Prop
  | .body (.write _) | .writeKilled _ | .writeMore _ => True
  | _ => False

/-- In the second loop of `piperead`. -/
def Pc.Copies : Pc n → Prop
  | .copy _ => True
  | _ => False

/-- Between a test that sends the process to sleep on `c` and the release of the lock. -/
def Pc.tested : Pc n → Option Chan
  | .readKilled _ => some .nread
  | .wakeup _ (.sleep _) _ | .wakeupLocked _ (.sleep _) _ => some .nwrite
  | .sleepAcquire c _ | .sleepRelease c _ => some c
  | _ => none

/-- Behind the test of `readopen` in the loop of `pipewrite`. -/
def Pc.SawOpen : Pc n → Prop
  | .writeKilled _ | .writeMore _ | .wakeup _ (.sleep _) _ | .wakeupLocked _ (.sleep _) _ => True
  | _ => False

namespace Kernel

variable {k k' start : Kernel n} {p q : Fin n} {a : Act} {c : Chan}

/-- The condition to sleep on a channel. -/
def Blocked (k : Kernel n) : Chan → Prop
  | .nread => k.empty ∧ k.pipe.writeopen = true
  | .nwrite => k.full ∧ k.pipe.readopen = true

/-- `p` has released the lock of the pipe inside `sleep` and has not been made runnable. -/
def WaitsOn (k : Kernel n) (c : Chan) (p : Fin n) : Prop :=
  (∃ op, (k.proc p).pc = .sleepMark c op) ∨
    (∃ op, (k.proc p).pc = .sched c op) ∧ (k.proc p).state = .sleeping

/-- `q` will still wake those who wait on `c`, `p` among them. -/
def Owes (k : Kernel n) (c : Chan) (p q : Fin n) : Prop :=
  (∃ i, (k.proc q).pc.scan = some (c, i) ∧ i ≤ p.val) ∨
    match c with
    | .nread => (k.proc q).pc.Writes ∧ k.pipe.readopen = true ∧ k.pipe.writeopen = true
    | .nwrite => (k.proc q).pc.Copies

structure WakeInv (k : Kernel n) : Prop where
  sawOpen : ∀ p, (k.proc p).pc.SawOpen → k.pipe.readopen = true
  tested : ∀ c p, (k.proc p).pc.tested = some c → Blocked k c
  waits : ∀ c p, WaitsOn k c p → Blocked k c ∨ ∃ q, Owes k c p q

/-- A `pipewrite` that finds itself killed with bytes in the pipe leaves no reader waiting. -/
def Answered (k : Kernel n) : Label n → Prop
  | (p, .run) =>
    ∀ w, (k.proc p).pc = .writeKilled w → (k.proc p).killed = true → ¬ k.empty →
      ∀ q, ¬ WaitsOn k .nread q
  | _ => True

/-! ## What the lock protects -/

theorem Pc.holdsPipe_of_scan {pc : Pc n} {i : Nat} (scan : pc.scan = some (c, i)) :
    pc.HoldsPipe := by
  cases pc <;> simp_all [Pc.scan, Pc.HoldsPipe]

theorem Owes.holdsPipe (owes : Owes k c p q) : (k.proc q).pc.HoldsPipe := by
  obtain ⟨i, scan, -⟩ | owes := owes
  · exact Pc.holdsPipe_of_scan scan
  · cases c with
    | nread =>
      have writes := owes.1
      revert writes
      cases (k.proc q).pc <;> simp [Pc.Writes, Pc.HoldsPipe]
    | nwrite =>
      revert owes
      cases (k.proc q).pc <;> simp [Pc.Copies, Pc.HoldsPipe]

/-- The counters and the flags change only under the lock. -/
theorem Step.pipe_same (move : Step k p a k') (out : ¬ (k.proc p).pc.HoldsPipe) :
    (k'.empty ↔ k.empty) ∧ (k'.full ↔ k.full) ∧ k'.pipe.readopen = k.pipe.readopen ∧
      k'.pipe.writeopen = k.pipe.writeopen := by
  cases move <;> simp_all [Pc.HoldsPipe, Kernel.empty, full]

theorem Pc.holdsPipe_of_sawOpen {pc : Pc n} (saw : pc.SawOpen) : pc.HoldsPipe := by
  cases pc <;> simp_all [Pc.SawOpen, Pc.HoldsPipe]

theorem Pc.holdsPipe_of_tested {pc : Pc n} (tested : pc.tested = some c) : pc.HoldsPipe := by
  cases pc <;> simp_all [Pc.tested, Pc.HoldsPipe]

/-- While `q` has the lock, nobody else changes what it protects. -/
theorem Step.same_of_other (move : Step k p a k') (locks : LockInv k) (other : q ≠ p)
    (holds : (k.proc q).pc.HoldsPipe) :
    (∀ c, Blocked k' c ↔ Blocked k c) ∧ k'.pipe.readopen = k.pipe.readopen ∧
      k'.pipe.writeopen = k.pipe.writeopen := by
  have out : ¬ (k.proc p).pc.HoldsPipe := fun also => other (locks.holder_unique holds also)
  obtain ⟨empty, full, readopen, writeopen⟩ := move.pipe_same out
  refine ⟨fun c => ?_, readopen, writeopen⟩
  cases c with
  | nread => rw [Blocked, Blocked, empty, writeopen]
  | nwrite => rw [Blocked, Blocked, full, readopen]

/-! ## Every step keeps the invariant -/

theorem Step.sawOpen (move : Step k p a k') (locks : LockInv k) (inv : WakeInv k) (q : Fin n)
    (pc : (k'.proc q).pc.SawOpen) : k'.pipe.readopen = true := by
  by_cases self : q = p
  · subst self
    have old := inv.sawOpen q
    cases move <;> simp_all [Pc.SawOpen] <;> grind [Pc.SawOpen]
  · rw [move.pc_other self] at pc
    rw [(move.same_of_other locks self (Pc.holdsPipe_of_sawOpen pc)).2.1]
    exact inv.sawOpen q pc

theorem Step.tested_self (move : Step k p a k') (inv : WakeInv k)
    (pc : (k'.proc p).pc.tested = some c) :
    Blocked k c ∧ k'.pipe.nread = k.pipe.nread ∧ k'.pipe.nwrite = k.pipe.nwrite ∧
      k'.pipe.readopen = k.pipe.readopen ∧ k'.pipe.writeopen = k.pipe.writeopen := by
  have old := inv.tested c p
  have saw := inv.sawOpen p
  cases move with
  | readLoop r here empty isOpen =>
    obtain rfl : Chan.nread = c := by simpa [Pc.tested] using pc
    exact ⟨⟨empty, isOpen⟩, rfl, rfl, rfl, rfl⟩
  | writeFull w here full =>
    obtain rfl : Chan.nwrite = c := by simpa [Pc.tested] using pc
    exact ⟨⟨full, saw (by rw [here]; trivial)⟩, rfl, rfl, rfl, rfl⟩
  | readAlive r here =>
    refine ⟨old ?_, rfl, rfl, rfl, rfl⟩
    rw [here]
    simpa [Pc.tested] using pc
  | wakeupSelf d next here | wakeupLock d next i here | wake d next i here =>
    refine ⟨old ?_, rfl, rfl, rfl, rfl⟩
    rw [here]
    cases next <;> simp_all [Pc.tested]
  | wokenSleep d w i here past | sleepAcquire d op here free =>
    refine ⟨old ?_, rfl, rfl, rfl, rfl⟩
    rw [here]
    simpa [Pc.tested] using pc
  | killHit pid i here | killMiss pid i here => simp [Pc.tested] at pc
  | park held => exact ⟨old (by simpa using pc), rfl, rfl, rfl, rfl⟩
  | _ => simp [Pc.tested] at pc

theorem Step.tested (move : Step k p a k') (locks : LockInv k) (inv : WakeInv k) (c : Chan)
    (q : Fin n) (pc : (k'.proc q).pc.tested = some c) : Blocked k' c := by
  by_cases self : q = p
  · subst self
    obtain ⟨blocked, nread, nwrite, readopen, writeopen⟩ := move.tested_self inv pc
    cases c with
    | nread =>
      rw [Blocked, Kernel.empty, nread, nwrite, writeopen]
      exact blocked
    | nwrite =>
      rw [Blocked, full, nread, nwrite, readopen]
      exact blocked
  · rw [move.pc_other self] at pc
    rw [(move.same_of_other locks self (Pc.holdsPipe_of_tested pc)).1]
    exact inv.tested c q pc

/-- Only its own release of the lock inside `sleep` makes a process wait. -/
theorem Step.waitsOn_old (move : Step k p a k') (locks : LockInv k) (waits : WaitsOn k' c q) :
    WaitsOn k c q ∨ q = p ∧ ∃ op, (k.proc p).pc = .sleepRelease c op := by
  have fits := locks.fits q
  unfold WaitsOn at *
  cases move <;> simp [wakeProc, killProc] at waits ⊢ <;> grind [Pc.Fits]

/-- A `wakeup` that begins will get to everyone. -/
theorem Owes.begins {r : Fin n} (scan : (k.proc q).pc.scan = some (c, 0)) : Owes k c r q :=
  .inl ⟨0, scan, Nat.zero_le _⟩

theorem WaitsOn.ne {r : Fin n} (waits : WaitsOn k c r) (holds : (k.proc p).pc.HoldsPipe) :
    r ≠ p := by
  rintro rfl
  obtain ⟨op, pc⟩ | ⟨⟨op, pc⟩, -⟩ := waits <;> simp [pc, Pc.HoldsPipe] at holds

/-- A wakeup owed by another process is still owed. -/
theorem Step.owes_other (move : Step k p a k') (locks : LockInv k) {r : Fin n} (other : q ≠ p)
    (owes : Owes k c r q) : Owes k' c r q := by
  obtain ⟨-, readopen, writeopen⟩ := move.same_of_other locks other owes.holdsPipe
  unfold Owes at owes ⊢
  rw [move.pc_other other, readopen, writeopen]
  exact owes

theorem WaitsOn.not_woken {next : Next} {i : Fin n} (locks : LockInv k)
    (pc : (k.proc p).pc = .wakeupLocked c next i) (waits : WaitsOn k c i) :
    (k.proc i).state = .sleeping ∧ (k.proc i).chan = some c := by
  have held : (k.proc i).lock = some (.proc p) :=
    (locks.proc i p).mpr (by simp [pc, Pc.holdsProc])
  obtain ⟨op, mark⟩ | ⟨⟨op, sched⟩, asleep⟩ := waits
  · -- a process still in `sleepMark` holds its own lock
    have mine := (locks.proc i i).mpr (by rw [mark]; rfl)
    rw [held] at mine
    obtain rfl : p = i := by simpa using mine
    rw [pc] at mark
    cases mark
  · have fits := locks.fits i
    rw [sched] at fits
    exact ⟨asleep, fits.2⟩

/-- A scan that has not reached a waiting process has not after the step either. -/
theorem Step.scan_keeps (move : Step k p a k') (locks : LockInv k) {i : Nat} {r : Fin n}
    (waits : WaitsOn k c r) (waits' : WaitsOn k' c r)
    (scan : (k.proc p).pc.scan = some (c, i)) (le : i ≤ r.val) :
    ∃ j, (k'.proc p).pc.scan = some (c, j) ∧ j ≤ r.val := by
  have apart := waits.ne (Pc.holdsPipe_of_scan scan)
  have below := r.isLt
  cases move with
  | wakeupSelf d next pc =>
    simp only [pc, Pc.scan, Option.some.injEq, Prod.mk.injEq] at scan
    obtain ⟨rfl, rfl⟩ := scan
    exact ⟨p.val + 1, by simp [Pc.scan], by have := Fin.val_ne_of_ne apart; omega⟩
  | wakeupLock d next j pc other free =>
    simp only [pc, Pc.scan, Option.some.injEq, Prod.mk.injEq] at scan
    obtain ⟨rfl, rfl⟩ := scan
    exact ⟨j.val, by simp [Pc.scan], le⟩
  | wake d next j pc =>
    simp only [pc, Pc.scan, Option.some.injEq, Prod.mk.injEq] at scan
    obtain ⟨rfl, rfl⟩ := scan
    by_cases here : r = j
    · -- the process just visited was waiting, and is runnable now
      subst here
      obtain ⟨asleep, chan⟩ := waits.not_woken locks pc
      have fits := locks.fits r
      simp [WaitsOn, apart, wakeProc, asleep, chan] at waits'
      grind [Pc.Fits]
    · exact ⟨j.val + 1, by simp [Pc.scan], by have := Fin.val_ne_of_ne here; omega⟩
  | wokenRelease d r j pc past | wokenSleep d w j pc past | wokenClose d j pc past =>
    simp only [pc, Pc.scan, Option.some.injEq, Prod.mk.injEq] at scan
    omega
  | acquire op pc free => obtain pc | pc := pc <;> simp [pc, Pc.scan] at scan
  | park held => exact ⟨i, by simpa using scan, le⟩
  | _ => simp_all [Pc.scan]

/-- What the writer with the lock owes the readers is paid, or still owed. -/
theorem Step.writes_keeps (move : Step k p a k') (answered : Answered k (p, a)) {r : Fin n}
    (waits : WaitsOn k .nread r) (writes : (k.proc p).pc.Writes)
    (readopen : k.pipe.readopen = true) (writeopen : k.pipe.writeopen = true) :
    Blocked k' .nread ∨ Owes k' .nread r p := by
  cases move with
  | writeClosed w pc closed =>
    rw [readopen] at closed
    cases closed
  | writeLoop w pc | writeAlive w pc | writeByte w ch pc =>
    exact .inr (.inr ⟨by simp [Pc.Writes], readopen, writeopen⟩)
  | writeDone w pc | writeFull w pc | writeFault w pc => exact .inr (Owes.begins (by simp [Pc.scan]))
  | writeKilled w pc hit =>
    -- there is nothing to read
    have empty : k.empty := by
      by_contra some_left
      exact answered w pc hit some_left r waits
    exact .inl ⟨empty, writeopen⟩
  | acquire op pc free => obtain pc | pc := pc <;> simp [pc, Pc.Writes] at writes
  | park held => exact .inr (.inr ⟨by simpa using writes, readopen, writeopen⟩)
  | _ => simp_all [Pc.Writes]

/-- What the reader with the lock owes the writers. -/
theorem Step.copies_keeps (move : Step k p a k') {r : Fin n} (copies : (k.proc p).pc.Copies) :
    Owes k' .nwrite r p := by
  cases move with
  | readDone r pc | readFault r pc => exact Owes.begins (by simp [Pc.scan])
  | readByte r pc => exact .inr (by simp [Pc.Copies])
  | acquire op pc free => obtain pc | pc := pc <;> simp [pc, Pc.Copies] at copies
  | park held => exact .inr (by simpa using copies)
  | _ => simp_all [Pc.Copies]

/-- A reason to wait stays one, unless the process that ends it owes a wakeup. -/
theorem Step.blocked_keeps (move : Step k p a k') (inv : WakeInv k) {r : Fin n}
    (blocked : Blocked k c) : Blocked k' c ∨ Owes k' c r p := by
  cases move with
  | writeByte w ch pc more byte =>
    cases c with
    | nread =>
      exact .inr (.inr ⟨by simp [Pc.Writes], inv.sawOpen p (by rw [pc]; trivial), blocked.2⟩)
    | nwrite => exact absurd blocked.1 more
  | readByte s pc more some_left copied =>
    cases c with
    | nread => exact absurd blocked.1 some_left
    | nwrite => exact .inr (.inr (by simp [Pc.Copies]))
  | readFault s pc more some_left fault =>
    cases c with
    | nread => exact absurd blocked.1 some_left
    | nwrite => exact .inr (Owes.begins (by simp [Pc.scan]))
  | closeWrite pc =>
    cases c with
    | nread => exact .inr (Owes.begins (by simp [Pc.scan]))
    | nwrite => exact .inl blocked
  | closeRead pc =>
    cases c with
    | nread => exact .inl blocked
    | nwrite => exact .inr (Owes.begins (by simp [Pc.scan]))
  | _ => exact .inl (by cases c <;> exact blocked)

theorem Step.waits (move : Step k p a k') (locks : LockInv k) (inv : WakeInv k)
    (answered : Answered k (p, a)) (c : Chan) (r : Fin n) (waits' : WaitsOn k' c r) :
    Blocked k' c ∨ ∃ q, Owes k' c r q := by
  have keeps : Blocked k c → Blocked k' c ∨ ∃ q, Owes k' c r q := fun blocked =>
    (move.blocked_keeps inv blocked).imp_right fun owes => ⟨p, owes⟩
  obtain waits | ⟨rfl, op, pc⟩ := move.waitsOn_old locks waits'
  · obtain blocked | ⟨q, owes⟩ := inv.waits c r waits
    · exact keeps blocked
    · by_cases self : q = p
      · subst self
        obtain ⟨i, scan, le⟩ | owes := owes
        · exact .inr ⟨q, .inl (move.scan_keeps locks waits waits' scan le)⟩
        · cases c with
          | nread =>
            obtain ⟨writes, readopen, writeopen⟩ := owes
            exact (move.writes_keeps answered waits writes readopen writeopen).imp_right
              fun owes => ⟨q, owes⟩
          | nwrite => exact .inr ⟨q, move.copies_keeps owes⟩
      · exact .inr ⟨q, move.owes_other locks self owes⟩
  · exact keeps (inv.tested c r (by rw [pc]; rfl))

theorem Step.wakeInv (move : Step k p a k') (locks : LockInv k) (inv : WakeInv k)
    (answered : Answered k (p, a)) : WakeInv k' :=
  ⟨move.sawOpen locks inv, move.tested locks inv, move.waits locks inv answered⟩

theorem Start.wakeInv (begin : Start start) : WakeInv start := by
  refine ⟨?_, ?_, ?_⟩
  · intro p saw
    obtain ⟨pc, -⟩ | ⟨pc, -⟩ := begin.pc p <;> simp [pc, Pc.SawOpen] at saw
  · intro c p tested
    obtain ⟨pc, -⟩ | ⟨pc, -⟩ := begin.pc p <;> simp [pc, Pc.tested] at tested
  · intro c p waits
    obtain ⟨pc, -⟩ | ⟨pc, -⟩ := begin.pc p <;> simp [WaitsOn, pc] at waits

/-! ## Runs -/

/-- Whoever sleeps on a channel of the pipe has a reason to. -/
def Awake (k : Kernel n) : Prop :=
  k.pipe.lock = none → ∀ p c, (k.proc p).state = .sleeping → (k.proc p).chan = some c → Blocked k c

theorem WakeInv.awake (locks : LockInv k) (inv : WakeInv k) : Awake k := by
  intro free p c asleep chan
  obtain ⟨d, op, pc, chan'⟩ := locks.sleeping asleep
  obtain rfl : c = d := Option.some.inj (chan.symm.trans chan')
  obtain blocked | ⟨q, owes⟩ := inv.waits c p (.inr ⟨⟨op, pc⟩, asleep⟩)
  · exact blocked
  · exact absurd owes.holdsPipe (locks.free free)

/-- **Nobody sleeps on a ready pipe**, in any state that a run leads to in which no `pipewrite`
    leaves bytes behind, as it has been killed, for a reader that waits. -/
theorem awake_of_answered {ls : List (Label n)} (begin : Start start)
    (run : start.exec ls = some k) (answered : Transition.Along step Answered start ls) :
    Awake k := by
  have inv := Transition.exec_invariant_along (P := fun k => LockInv k ∧ WakeInv k)
    (fun k l k' inv answered move =>
      ⟨(step_inv move).lockInv inv.1, (step_inv move).wakeInv inv.1 inv.2 answered⟩)
    ⟨Start.lockInv begin, Start.wakeInv begin⟩ run answered
  exact inv.2.awake inv.1

/-- What `Answered` leaves out does go wrong: two steps later the lock is free and the reader
sleeps on. -/
theorem not_awake_of_killed {w : Write} (running : (k.proc p).state = .running)
    (pc : (k.proc p).pc = .writeKilled w) (hit : (k.proc p).killed = true)
    (free : (k.proc p).lock = none) (some_left : ¬ k.empty)
    (asleep : (k.proc q).state = .sleeping) (chan : (k.proc q).chan = some .nread) :
    ∃ k', k.exec [(p, .run), (p, .run)] = some k' ∧ ¬ Awake k' := by
  have leaves : step k (p, .run) = some (k.jump p (.release (-1))) := by
    simp [step, runThread, running, pc, hit, free]
  have unlocks : step (k.jump p (.release (-1))) (p, .run) =
      some ((k.jump p (.release (-1))).unlockPipe.jump p (.ret (-1))) := by
    simp [step, runThread, running]
  refine ⟨_, Transition.exec_cons_eq_some.mpr ⟨_, leaves,
    Transition.exec_cons_eq_some.mpr ⟨_, unlocks, rfl⟩⟩, fun awake => ?_⟩
  exact some_left (awake rfl q .nread (by simpa using asleep) (by simpa using chan)).1

/-- Nobody has been killed, or is about to be. -/
def Unkilled (k : Kernel n) : Prop :=
  ∀ p, (k.proc p).killed = false ∧ (∀ pid i, (k.proc p).pc ≠ .kill pid i) ∧
    ∀ pid i, (k.proc p).pc ≠ .killLocked pid i

theorem Step.unkilled (move : Step k p a k') (unkilled : Unkilled k)
    (spared : ∀ pid, a ≠ .kill pid) : Unkilled k' := by
  obtain ⟨-, loop, locked⟩ := unkilled p
  intro q
  obtain ⟨alive, others⟩ := unkilled q
  have alive' : (k'.proc q).killed = false := by
    cases move with
    | killHit pid i pc => exact absurd pc (locked pid i)
    | wake c next i pc =>
      rw [jump_killed, modifyProc_killed]
      split <;> exact alive
    | _ => simpa using alive
  refine ⟨alive', ?_⟩
  by_cases self : q = p
  · subst self
    cases move with
    | kill pid => exact absurd rfl (spared pid)
    | killLock pid i pc | killEnd pid i pc => exact absurd pc (loop pid i)
    | killHit pid i pc | killMiss pid i pc => exact absurd pc (locked pid i)
    | park held => simpa using others
    | _ => simp
  · rw [move.pc_other self]
    exact others

/-- Without `kill` every wakeup is paid. -/
theorem along_of_unkilled {ls : List (Label n)} (unkilled : Unkilled start)
    (spared : ∀ l ∈ ls, ∀ pid, l.2 ≠ .kill pid) (run : start.exec ls = some k) :
    Transition.Along step Answered start ls := by
  refine (Transition.along_of_invariant (P := Unkilled) (D := fun l => ∀ pid, l.2 ≠ .kill pid)
    (fun k l k' unkilled spared move => (step_inv move).unkilled unkilled spared) ?_ unkilled
    spared run).1
  rintro k ⟨p, a⟩ unkilled -
  cases a with
  | run =>
    intro w _ hit
    rw [(unkilled p).1] at hit
    cases hit
  | _ => trivial

/-- A process reads the empty pipe and goes to sleep. -/
def readerRun (n : Nat) [NeZero n] : List (Label n) :=
  turn 0 (.call (.piperead (fun _ => true) 1) :: List.replicate 6 .run ++ [.park])

theorem awake_of_answered_reader : ∃ k, (fresh 2).exec (readerRun 2) = some k ∧
    (k.proc 0).state = .sleeping ∧ Awake k := by
  refine ⟨_, rfl, rfl, awake_of_answered (fresh_start 2)
    (show (fresh 2).exec (readerRun 2) = some _ from rfl) (along_of_unkilled ?_ ?_ rfl)⟩
  · intro p
    simp [fresh]
  · simp [readerRun, turn, List.replicate]

/-- A process sleeps on the empty pipe; another one is killed between the two bytes that it
writes. -/
def killedRun : List (Label 3) :=
  readerRun 3 ++
    turn 1 (.call (.pipewrite (fun _ => some 97) 2) :: List.replicate 5 .run) ++
    turn 2 (.kill 1 :: List.replicate 4 .run) ++ turn 1 [.run, .run]

theorem killed_writer_not_awake : ¬ ∀ (n : Nat) (start k : Kernel n) (ls : List (Label n)),
    Start start → start.exec ls = some k → Awake k := by
  intro all
  have awake := all 3 (fresh 3) _ killedRun (fresh_start 3) rfl
  have blocked := awake rfl 0 .nread rfl rfl
  exact absurd blocked.1 (by decide)

end Kernel

end Sistemas.Xv6.Pipes
