import Sistemas.Xv6.PipeFifo

/-! # Who holds which lock

`LockInv` ties the locks of the pipe and of the processes to the program counters, and the
state and the channel of a process to the place of its thread.
-/

namespace Sistemas.Xv6.Pipes

variable {n : Nat}

def Pc.HoldsPipe : Pc n → Prop
  | .body _ | .writeKilled _ | .writeMore _ | .readKilled _ | .copy _ | .wakeup _ _ _
  | .wakeupLocked _ _ _ | .sleepAcquire _ _ | .sleepRelease _ _ | .release _ | .closeEnd => True
  | _ => False

def Pc.holdsProc (p : Fin n) : Pc n → Option (Fin n)
  | .sleepRelease _ _ | .sleepMark _ _ | .sleepTidy _ => some p
  | .wakeupLocked _ _ i | .killLocked _ i => some i
  | _ => none

/-- The states and channels of a process whose thread is at a program counter. -/
def Pc.Fits : Pc n → ProcState → Option Chan → Prop
  | .off, state, _ => state = .unused ∨ state = .zombie
  | .sched c _, state, chan => (state = .sleeping ∨ state = .runnable) ∧ chan = some c
  | _, state, _ => state = .running

theorem Pc.Fits.woken {pc : Pc n} {chan : Option Chan} (fits : pc.Fits .sleeping chan) :
    pc.Fits .runnable chan := by
  cases pc <;> simp_all [Pc.Fits]

theorem Pc.Fits.sched {pc : Pc n} {chan : Option Chan} (fits : pc.Fits .sleeping chan) :
    ∃ c op, pc = .sched c op ∧ chan = some c := by
  cases pc <;> simp_all [Pc.Fits]

namespace Kernel

variable {k k' : Kernel n} {p q : Fin n} {a : Act}

structure LockInv (k : Kernel n) : Prop where
  pipe : ∀ p, k.pipe.lock = some p ↔ (k.proc p).pc.HoldsPipe
  proc : ∀ i p, (k.proc i).lock = some (.proc p) ↔ (k.proc p).pc.holdsProc p = some i
  scheduler : ∀ i, (k.proc i).lock = some .scheduler → ∃ c op, (k.proc i).pc = .sched c op
  fits : ∀ p, (k.proc p).pc.Fits (k.proc p).state (k.proc p).chan

theorem LockInv.sleeping (inv : LockInv k) (asleep : (k.proc p).state = .sleeping) :
    ∃ c op, (k.proc p).pc = .sched c op ∧ (k.proc p).chan = some c :=
  (asleep ▸ inv.fits p : (k.proc p).pc.Fits .sleeping _).sched

theorem LockInv.holder_unique (inv : LockInv k) (left : (k.proc p).pc.HoldsPipe)
    (right : (k.proc q).pc.HoldsPipe) : p = q :=
  Option.some.inj (((inv.pipe p).mpr left).symm.trans ((inv.pipe q).mpr right))

theorem LockInv.free (inv : LockInv k) (free : k.pipe.lock = none) :
    ¬ (k.proc p).pc.HoldsPipe := by
  intro holds
  rw [← inv.pipe p, free] at holds
  cases holds

/-! ## Every step keeps the invariant -/

theorem Step.lock_pipe (move : Step k p a k') (inv : LockInv k) (q : Fin n) :
    k'.pipe.lock = some q ↔ (k'.proc q).pc.HoldsPipe := by
  have atQ := inv.pipe q
  have atP := inv.pipe p
  cases move <;> simp [wakeProc, killProc] <;> grind [Pc.HoldsPipe]

theorem Step.lock_proc (move : Step k p a k') (inv : LockInv k) (i q : Fin n) :
    (k'.proc i).lock = some (.proc q) ↔ (k'.proc q).pc.holdsProc q = some i := by
  have atQ := inv.proc i q
  have atP := inv.proc i p
  have sched := inv.scheduler i
  cases move <;> simp [wakeProc, killProc] <;> grind [Pc.holdsProc]

theorem Step.lock_scheduler (move : Step k p a k') (inv : LockInv k) (i : Fin n) :
    (k'.proc i).lock = some .scheduler → ∃ c op, (k'.proc i).pc = .sched c op := by
  intro held
  have old := inv.scheduler i
  by_cases self : i = p
  · subst self
    cases move <;> simp_all [wakeProc, killProc] <;> grind
  · cases move <;> simp [wakeProc, killProc, self] at held ⊢ <;> grind

theorem Step.fits (move : Step k p a k') (inv : LockInv k) (i : Fin n) :
    (k'.proc i).pc.Fits (k'.proc i).state (k'.proc i).chan := by
  have old := inv.fits i
  have woken : (k.proc i).pc.Fits .sleeping (k.proc i).chan →
      (k.proc i).pc.Fits .runnable (k.proc i).chan := Pc.Fits.woken
  cases move <;> simp [wakeProc, killProc] <;> grind [Pc.Fits]

theorem Step.lockInv (move : Step k p a k') (inv : LockInv k) : LockInv k' :=
  ⟨move.lock_pipe inv, move.lock_proc inv, move.lock_scheduler inv, move.fits inv⟩

theorem Start.lockInv (begin : Start k) : LockInv k := by
  obtain ⟨data, pipe⟩ := begin.pipe
  refine ⟨?_, ?_, ?_, ?_⟩
  · intro p
    obtain ⟨pc, -⟩ | ⟨pc, -⟩ := begin.pc p <;> simp [pc, pipe, pipealloc, Pc.HoldsPipe]
  · intro i p
    obtain ⟨pc, -⟩ | ⟨pc, -⟩ := begin.pc p <;> simp [pc, begin.lock i, Pc.holdsProc]
  · intro i held
    rw [begin.lock i] at held
    cases held
  · intro p
    obtain ⟨pc, state⟩ | ⟨pc, state⟩ := begin.pc p <;> simp [pc, state, Pc.Fits]

end Kernel

end Sistemas.Xv6.Pipes
