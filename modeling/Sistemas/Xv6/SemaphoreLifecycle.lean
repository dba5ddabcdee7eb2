import Sistemas.Xv6.SemaphoreValue

/-! # Opening, closing and the sentinel

`sem_open` takes the value -1 for "not open", but `main` never calls `sem_init`, so
after boot every value is 0, and `sem_close` stores 0 as well.  `NeverOpen` is what follows:
as long as the value does not overflow, no open succeeds.  A semaphore that is not open
is then used like any other, so only an index out of range is refused.
-/

namespace Sistemas.Xv6

variable {n : Nat}

theorem isOpen_eq_false {s : SemId} {es : List (Event n)}
    (h : ∀ p v r, .completed p s (.semOpen v) r ∈ es → r ≠ 1) : isOpen s es = false := by
  unfold isOpen
  induction es using List.reverseRecOn with
  | nil => rfl
  | append_singleton es e ih =>
    have old := ih fun p v r mem => h p v r (List.mem_append_left _ mem)
    rw [List.foldl_append, old]
    cases e with
    | completed p t op r =>
      have new := h p
      cases op <;> simp only [List.foldl_cons, List.foldl_nil, openStep] <;> grind
    | _ => rfl

namespace Kernel

variable {k k' : Kernel n} {p : Fin n} {s : SemId} {a : Act n}

/-- What the lifecycle asks of a state in which the lock of `s` is free. -/
def LifecycleAt (s : SemId) (es : List (Event n)) (k : Kernel n) : Prop :=
  -1 ≤ (k.sem s).value ∧ ((k.sem s).value = -1 ↔ isOpen s es = false)

/-- The lifecycle of `s` along a run: the sentinel marks the states in which `s` is not
    open, and an open succeeds in exactly these. -/
structure Lifecycle (start : Kernel n) (ls : List (Label n)) (s : SemId) : Prop where
  state : ∀ pre post k, ls = pre ++ post → start.exec pre = some k → (k.sem s).lock = none →
    LifecycleAt s (start.trace pre) k
  opens : ∀ es p v r fs, start.trace ls = es ++ .completed p s (.semOpen v) r :: fs →
    (r = 1 ↔ isOpen s es = false)

/-- Without overflow the value stays in range and every open fails. -/
def NeverOpen (s : SemId) (es : List (Event n)) (k : Kernel n) : Prop :=
  (effects s .semUp es : Int) ≤ intMax →
    0 ≤ (k.sem s).value ∧ (k.sem s).value ≤ effects s .semUp es ∧
      ∀ p v r, .effect p s (.semOpen v) r ∈ es → r = 0

theorem step_neverOpen {es : List (Event n)} (inv : NeverOpen s es k)
    (h : k.step (p, a) = some k') : NeverOpen s (es ++ (k.obs (p, a)).toList) k' := by
  intro few
  simp only [effects_append] at few ⊢
  obtain ⟨low, high, opens⟩ := inv (by omega)
  have value := (step_inv h).value s
  generalize k.obs (p, a) = o at *
  generalize (k.sem s).value = v at *
  generalize (k'.sem s).value = v' at *
  cases value with
  | quiet o silent =>
    refine ⟨low, by omega, fun q w r mem => ?_⟩
    rcases List.mem_append.mp mem with old | new
    · exact opens q w r old
    · exact absurd (by simpa using new) (silent q (.semOpen w) r)
  | openFree w free => omega
  | openBusy w busy =>
    refine ⟨low, by omega, fun q u r mem => ?_⟩
    simp only [Option.toList_some, List.mem_append, List.mem_singleton, Event.effect.injEq] at mem
    rcases mem with old | ⟨-, -, -, rfl⟩
    · exact opens q u r old
    · rfl
  | close => exact ⟨Int.le_refl 0, by omega, by simpa using opens⟩
  | up =>
    simp only [Option.toList_some, effects_singleton, and_self, if_true] at few ⊢
    rw [wrapInt_eq (by omega) (by push_cast at few; omega)]
    exact ⟨by omega, by push_cast; omega, by simpa using opens⟩
  | down pos =>
    have : v ≤ intMax := by omega
    rw [wrapInt_eq (by omega) (by omega)]
    exact ⟨by omega, by omega, by simpa using opens⟩

theorem exec_neverOpen {start : Kernel n} {ls : List (Label n)} (booted : Booted start)
    (run : start.exec ls = some k) (s : SemId) : NeverOpen s (start.trace ls) k :=
  Transition.trace_invariant (P := NeverOpen s)
    (fun _ _ _ _ inv h => step_neverOpen inv h)
    (fun _ => ⟨by simp [booted.value], by simp [booted.value, effects], by simp⟩) run

/-- **No run from boot follows the lifecycle.**  The sentinel is missing in the boot state
    already; and until the value overflows, it is missing wherever the lock is free, and
    every open returns 0 although the semaphore is not open. -/
theorem lifecycle_fails {start : Kernel n} {ls : List (Label n)} (booted : Booted start)
    (run : start.exec ls = some k) (s : SemId) :
    ¬ Lifecycle start ls s ∧
    ((effects s .semUp (start.trace ls) : Int) ≤ intMax →
      ¬ LifecycleAt s (start.trace ls) k ∧ isOpen s (start.trace ls) = false ∧
      ∀ p v r, .completed p s (.semOpen v) r ∈ start.trace ls → r = 0) := by
  constructor
  · intro cycle
    have sentinel := (cycle.state [] ls start rfl rfl (booted.sem s)).2.mpr rfl
    rw [booted.value] at sentinel
    omega
  · intro few
    obtain ⟨low, -, opens⟩ := exec_neverOpen booted run s few
    have fails : ∀ p v r, .completed p s (.semOpen v) r ∈ start.trace ls → r = 0 := fun p v r mem =>
      opens p v r ((exec_effectInv booted.toIdle run).completed _ _ _ _ mem)
    have closed := isOpen_eq_false fun p v r mem => by rw [fails p v r mem]; decide
    refine ⟨fun cycle => ?_, closed, fails⟩
    have := cycle.2.mpr closed
    omega

/-- The first process calls `sem_open(0, 1)` after boot. -/
def openRun : List (Label 1) := turn first [.dispatch, .run, .call (.semOpen 0 1), .run, .run, .run]

theorem lifecycle_fails_openRun : ∃ k, (boot 1).exec openRun = some k ∧
    ¬ Lifecycle (boot 1) openRun 0 ∧ ¬ LifecycleAt 0 ((boot 1).trace openRun) k := by
  have run : (boot 1).exec openRun = some _ := rfl
  exact ⟨_, rfl, (lifecycle_fails (boot_booted 1) run 0).1,
    ((lifecycle_fails (boot_booted 1) run 0).2 (by decide)).1⟩

/-- The first open after boot: semaphore 0 is not open, has value 0, and `sem_open(0, 1)`
    returns 0. -/
theorem openRun_refused : ∃ k, (boot 1).exec openRun = some k ∧
    (boot 1).trace openRun =
      [.entered 0 0 (.semOpen 1), .effect 0 0 (.semOpen 1) 0, .completed 0 0 (.semOpen 1) 0] ∧
    (k.sem 0).lock = none ∧ (k.sem 0).value = 0 ∧ isOpen 0 ((boot 1).trace openRun) = false ∧
    ¬ Lifecycle (boot 1) openRun 0 := by
  refine ⟨_, rfl, rfl, rfl, rfl, rfl, fun cycle => ?_⟩
  have first := cycle.opens [.entered 0 0 (.semOpen 1), .effect 0 0 (.semOpen 1) 0] 0 1 0 [] rfl
  exact absurd (first.mpr rfl) (by decide)

/-! ## Calls on a semaphore that is not open -/

theorem semIndex_eq_none {sem : Int} : semIndex sem = none ↔ sem < 0 ∨ sem ≥ maxSemaphores := by
  unfold semIndex
  split
  next out => exact ⟨fun _ => out, fun _ => rfl⟩
  next inside => exact ⟨nofun, fun out => absurd out inside⟩

/-- `p` can make a system call, and is not killed on the way in. -/
structure CanCall (k : Kernel n) (p : Fin n) : Prop where
  running : (k.proc p).state = .running
  user : (k.proc p).pc = .user
  free : (k.proc p).lock = none
  alive : (k.proc p).killed = false

/-- The call `c` of `p` is refused: it can return 0; and whatever the others do until `p`
    calls again, no step of `p` changes a value, `p` does not sleep, and the result is 0. -/
structure Refused (k : Kernel n) (p : Fin n) (c : Syscall n) : Prop where
  returns : ∃ k₁ ls k₂, k.step (p, .call c) = some k₁ ∧ k₁.exec ls = some k₂ ∧
    (k₂.proc p).pc = .ret 0
  harmless : ∀ k₁ ls k₂, k.step (p, .call c) = some k₁ → (∀ l ∈ ls, ∀ c', l ≠ (p, .call c')) →
    k₁.exec ls = some k₂ →
    Transition.Along step (fun k l => l.1 = p → ∀ k' s, k.step l = some k' →
      (k'.sem s).value = (k.sem s).value) k₁ ls ∧
    (k₂.proc p).state ≠ .sleeping ∧ ∀ r, (k₂.proc p).pc = .ret r → r = 0

/-- On its way out with result 0, or out. -/
def Leaving (p : Fin n) (k : Kernel n) : Prop :=
  (k.proc p).pc = .ret 0 ∧ (k.proc p).state = .running ∨
  (k.proc p).pc = .user ∧ (k.proc p).state = .running ∨
  (k.proc p).pc = .off ∧ (k.proc p).state = .zombie

theorem step_leaving {l : Label n} (leaving : Leaving p k) (call : ∀ c, l ≠ (p, .call c))
    (h : k.step l = some k') : Leaving p k' := by
  obtain ⟨q, a⟩ := l
  unfold Leaving at *
  have move := step_inv h
  by_cases self : q = p
  · subst self
    cases move <;> simp_all
  · cases move <;> simp [wakeProc, killProc, Ne.symm self] <;> grind

theorem value_of_leaving {l : Label n} (leaving : Leaving p k) (self : l.1 = p)
    (h : k.step l = some k') (s : SemId) : (k'.sem s).value = (k.sem s).value := by
  obtain ⟨q, a⟩ := l
  obtain rfl : q = p := self
  unfold Leaving at leaving
  cases step_inv h <;> simp_all

theorem refused_of_leaving {c : Syscall n} (h : k.step (p, .call c) = some k')
    (out : (k'.proc p).pc = .ret 0) (running : (k'.proc p).state = .running) :
    Refused k p c where
  returns := ⟨k', [], k', h, rfl, out⟩
  harmless k₁ ls k₂ h₁ calls run := by
    cases h.symm.trans h₁
    obtain ⟨along, leaving⟩ := Transition.along_of_invariant (P := Leaving p)
      (D := fun l => ∀ c, l ≠ (p, .call c))
      (C := fun k l => l.1 = p → ∀ k' s, k.step l = some k' → (k'.sem s).value = (k.sem s).value)
      (fun _ _ _ => step_leaving)
      (fun _ _ leaving _ self _ s h => value_of_leaving leaving self h s)
      (.inl ⟨out, running⟩) calls run
    refine ⟨along, ?_⟩
    rcases leaving with ⟨pc, st⟩ | ⟨pc, st⟩ | ⟨pc, st⟩ <;> simp [pc, st]

theorem sysSem_refused {sem : Int} {op : SemOp} {c : Syscall n} (can : CanCall k p)
    (range : semIndex sem = none) (call : k.syscall p c = some (k.sysSem p sem op)) :
    Refused k p c := by
  have h : k.step (p, .call c) = some (k.goto p (.ret 0)) := by
    simp [step, can.running, can.user, can.free, usertrap, can.alive, call, sysSem, range]
  exact refused_of_leaving h (by simp) (by simp [can.running])

theorem wrapInt_succ_ne (v : Int) : wrapInt (v + 1) ≠ v := by
  unfold wrapInt
  omega

/-- In range, `sem_up` is never refused: once it has the lock, it changes the value. -/
theorem not_refused_semUp {sem : Int} (inv : LockInv k) (can : CanCall k p)
    (range : semIndex sem = some s) : ¬ Refused k p (.semUp sem) := by
  intro refused
  have h : k.step (p, .call (.semUp sem)) = some (k.goto p (.acquire s .semUp)) := by
    simp [step, can.running, can.user, can.free, usertrap, can.alive, syscall, sysSemUp, sysSem,
      range]
  have waits : ((k.goto p (.acquire s .semUp)).proc p).pc = .acquire s .semUp := by simp
  obtain ⟨ls, k₂, run, apart, free, pc⟩ := (step_lockInv inv h).exists_run_unlock waits
  have running : (k₂.proc p).state = .running := by
    have fits := (exec_lockInv (step_lockInv inv h) run).fits p
    rwa [pc] at fits
  -- `p` takes the free lock and runs its critical section
  obtain ⟨k₃, lock⟩ : ∃ k₃, k₂.step (p, .run) = some k₃ ∧ (k₃.proc p).pc = .body s .semUp ∧
      (k₃.proc p).state = .running :=
    ⟨(k₂.lockSem s p).goto p (.body s .semUp), by simp [step, runThread, running, pc, free],
      by simp, by simp [running]⟩
  have body : k₃.step (p, .run) =
      some ((k₃.store s (wrapInt ((k₃.sem s).value + 1))).goto p (.wakeup s .semUp 0)) := by
    simp [step, runThread, lock.2, runBody]
  have run₄ : (k.goto p (.acquire s .semUp)).exec (ls ++ [(p, .run), (p, .run)]) = some _ :=
    Transition.exec_append_eq_some.mpr
      ⟨k₂, run, Transition.exec_cons_eq_some.mpr
        ⟨k₃, lock.1, Transition.exec_cons_eq_some.mpr ⟨_, body, rfl⟩⟩⟩
  obtain ⟨along, -⟩ := refused.harmless _ _ _ h (fun l mem c' => by
    rintro rfl
    simp only [List.mem_append, List.mem_cons] at mem
    rcases mem with mem | mem | mem | mem
    · exact apart _ mem rfl
    all_goals cases mem) run₄
  have last := ((Transition.along_append run).mp along).2.2 k₃ lock.1
  have := last.1 rfl _ s body
  simp only [goto_sem, store_value, if_true] at this
  exact wrapInt_succ_ne _ this

/-- **Exactly the indices out of range are refused.**  In every state reached from boot in
    which `p` can make the call, `sem_up`, `sem_down` and `sem_close` return 0, do not
    block and leave every value alone if and only if the index is out of range. -/
theorem refused_iff_out_of_range {start : Kernel n} {ls : List (Label n)} (booted : Booted start)
    (run : start.exec ls = some k) (p : Fin n) (can : CanCall k p) (sem : Int) :
    (Refused k p (.semUp sem) ∧ Refused k p (.semDown sem) ∧ Refused k p (.semClose sem)) ↔
      sem < 0 ∨ sem ≥ maxSemaphores := by
  rw [← semIndex_eq_none]
  constructor
  · rintro ⟨up, -, -⟩
    cases range : semIndex sem with
    | none => rfl
    | some s => exact absurd up (not_refused_semUp (exec_lockInv booted.lockInv run) can range)
  · intro range
    exact ⟨sysSem_refused can range rfl, sysSem_refused can range rfl, sysSem_refused can range rfl⟩

def userRun : List (Label 1) := turn first [.dispatch, .run]

theorem refused_iff_out_of_range_userRun : ∃ k, (boot 1).exec userRun = some k ∧ CanCall k 0 ∧
    Refused k 0 (.semUp 256) ∧ Refused k 0 (.semDown 256) ∧ Refused k 0 (.semClose 256) := by
  have can : CanCall ((boot 1).exec userRun |>.get rfl) 0 := ⟨rfl, rfl, rfl, rfl⟩
  exact ⟨_, rfl, can,
    (refused_iff_out_of_range (boot_booted 1) (show (boot 1).exec userRun = some _ from rfl) 0 can
      256).mpr (by decide)⟩

/-- After boot semaphore 0 is not open, but `sem_up(0)` returns 1 and makes its value 1. -/
theorem semUp_not_refused_userRun : ∃ k k₁ k₂, (boot 1).exec userRun = some k ∧ CanCall k 0 ∧
    isOpen 0 ((boot 1).trace userRun) = false ∧ k.step (0, .call (.semUp 0)) = some k₁ ∧
    k₁.exec [(0, .run), (0, .run), (0, .run), (0, .run), (0, .run)] = some k₂ ∧
    (k₂.proc 0).pc = .ret 1 ∧ (k.sem 0).value = 0 ∧ (k₂.sem 0).value = 1 ∧
    ¬ Refused k 0 (.semUp 0) := by
  refine ⟨_, _, _, rfl, ⟨rfl, rfl, rfl, rfl⟩, rfl, rfl, rfl, rfl, rfl, rfl, fun refused => ?_⟩
  have := (refused.harmless _ [(0, .run), (0, .run), (0, .run), (0, .run), (0, .run)] _ rfl
    (by simp) rfl).2.2 1 rfl
  cases this

end Kernel

end Sistemas.Xv6
