import Sistemas.Xv6.SemaphoreBlocking

/-! # A kernel in which nobody waits

As long as nobody calls `sem_down` or `kill`, nothing blocks and nobody is killed.  `Calm` is
kept by every step that is not a call (`Calm.step`) and by the opens and closes
(`Calm.trap`).
-/

namespace Sistemas.Xv6

variable {n : Nat}

/-- Neither inside `sem_down` nor inside `kill`. -/
def Pc.Calm : Pc n → Prop
  | .kill _ _ | .killLocked _ _ => False
  | pc => pc.inside.map Prod.snd ≠ some .semDown

namespace Kernel

variable {k k' : Kernel n} {p : Fin n} {a : Act n}

structure Calm (k : Kernel n) : Prop where
  locks : LockInv k
  alive : ∀ q, (k.proc q).killed = false
  pc : ∀ q, (k.proc q).pc.Calm

/-- A step of a calm kernel that is not a call ends no process and starts none. -/
structure Routine (k k' : Kernel n) : Prop where
  calm : Calm k'
  off : ∀ q, (k'.proc q).pc = .off ↔ (k.proc q).pc = .off
  unused : ∀ q, (k.proc q).state = .unused → (k'.proc q).state = .unused
  nextpid : k'.nextpid = k.nextpid

theorem Calm.step (calm : Calm k) (act : ∀ c, a ≠ .call c) (h : k.step (p, a) = some k') :
    Routine k k' where
  calm :=
    { locks := step_lockInv calm.locks h
      alive := fun q => by
        have := calm.alive q
        have := calm.pc p
        cases step_inv h <;> simp [wakeProc, killProc] <;> grind [Pc.Calm]
      pc := fun q => by
        have := calm.pc q
        have := calm.alive q
        have := calm.pc p
        cases step_inv h <;> simp [wakeProc, killProc] <;> grind [Pc.Calm, Pc.inside] }
  off q := by
    have := calm.alive q
    cases step_inv h <;> simp [wakeProc, killProc] <;> grind
  unused q unused := by
    have := calm.locks.unused unused
    have := calm.alive q
    cases step_inv h <;> simp [wakeProc, killProc] <;> grind
  nextpid := by cases step_inv h <;> first | rfl | exact absurd rfl (act _)

theorem step_call_exit (h : k.step (p, .call .exit) = some k') : k' = k.exit p := by
  simp only [step, usertrap, syscall, ite_self, Option.ite_none_right_eq_some,
    Option.some.injEq] at h
  exact h.2.symm

theorem step_call_fork {child : Fin n} (alive : (k.proc p).killed = false)
    (h : k.step (p, .call (.fork (some child))) = some k') :
    (k.proc p).pc = .user ∧ (k.proc p).state = .running ∧ (k.proc child).state = .unused ∧
    k' = ({ k with nextpid := wrapInt (k.nextpid + 1) }.modifyProc child fun x =>
        { x with state := .runnable, pid := k.nextpid, pc := .embryo }).goto p (.ret k.nextpid) := by
  simp only [step, usertrap, syscall, sysFork, alive, Bool.false_eq_true, if_false,
    Option.ite_none_right_eq_some, Option.some.injEq] at h
  obtain ⟨⟨running, user, -⟩, ⟨unused, -⟩, rfl⟩ := h
  exact ⟨user, running, unused, rfl⟩

/-- A call that neither blocks nor ends or starts a process. -/
structure Trapped (p : Fin n) (k k' : Kernel n) : Prop where
  calm : Calm k'
  others : ∀ q, q ≠ p → k'.proc q = k.proc q
  nextpid : k'.nextpid = k.nextpid
  pc : (k'.proc p).pc ≠ .off

theorem goto_proc_other {q : Fin n} (k : Kernel n) (pc : Pc n) (other : q ≠ p) :
    (k.goto p pc).proc q = k.proc q := if_neg other

theorem Calm.goto {pc : Pc n} (calm : Calm k) (locks : LockInv (k.goto p pc)) (calmPc : pc.Calm)
    (notOff : pc ≠ .off) : Trapped p k (k.goto p pc) where
  calm :=
    { locks := locks
      alive := by simpa using calm.alive
      pc := fun q => by
        rw [goto_pc]
        split
        · exact calmPc
        · exact calm.pc q }
  others q other := goto_proc_other k pc other
  nextpid := rfl
  pc := by simpa using notOff

theorem Calm.trap {c : Syscall n} (calm : Calm k)
    (gentle : (∃ sem v, c = .semOpen sem v) ∨ ∃ sem, c = .semClose sem)
    (h : k.step (p, .call c) = some k') : Trapped p k k' := by
  have locks := step_lockInv calm.locks h
  cases step_inv h with
  | exit c running pc free why =>
    rcases why with killed | rfl
    · rw [calm.alive p] at killed
      cases killed
    · simp at gentle
  | enter c s op running pc free alive entered =>
    refine calm.goto locks ?_ (by simp)
    rcases gentle with ⟨sem, v, rfl⟩ | ⟨sem, rfl⟩ <;>
      simp only [obsCall, Option.map_eq_some_iff, Event.entered.injEq] at entered <;>
      obtain ⟨t, -, -, rfl, rfl⟩ := entered <;> simp [Pc.Calm, Pc.inside]
  | reject c out r running pc free alive silent =>
    have same : Calm { k with console := out } :=
      ⟨⟨calm.locks.sem, calm.locks.proc, calm.locks.scheduler, calm.locks.fits⟩, calm.alive, calm.pc⟩
    obtain ⟨calm', others, nextpid, notOff⟩ :=
      same.goto locks (by simp [Pc.Calm, Pc.inside]) (by simp)
    exact ⟨calm', others, nextpid, notOff⟩
  | kill | fork => simp at gentle

end Kernel

end Sistemas.Xv6
