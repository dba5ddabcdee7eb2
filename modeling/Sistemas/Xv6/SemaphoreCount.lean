import Mathlib.Algebra.BigOperators.Fin
import Sistemas.Xv6.SemaphoreValue

/-! # Conservation

The value of a semaphore that nobody closes is its first value plus the ups minus the
downs that took effect (`CountInv`).  Each process counts its own calls: an effect that is
not completed yet is the one its thread is in (`CallInv`), so with the lock free the
effects are the completed calls.  A semaphore that starts at 1 then excludes: a process
that is between its down and its up has taken the only unit.
-/

namespace Sistemas.Xv6

variable {n : Nat}

/-- 1 for a thread past the critical section of `op` on `s` and not yet returned. -/
def Pc.inFlight (s : SemId) (op : SemOp) (pc : Pc n) : Nat :=
  match pc.result with
  | some (t, o, _) => if t = s ∧ o = op then 1 else 0
  | none => 0

theorem Pc.holdsSem_of_inFlight {pc : Pc n} {s : SemId} {op : SemOp} (h : pc.inFlight s op ≠ 0) :
    pc.holdsSem = some s := by
  cases pc <;> simp_all [Pc.inFlight, Pc.result, Pc.holdsSem]

/-! ## Counting by process -/

@[simp] theorem effectsBy_append (p : Fin n) (s : SemId) (op : SemOp) (es fs : List (Event n)) :
    effectsBy p s op (es ++ fs) = effectsBy p s op es + effectsBy p s op fs := List.countP_append

@[simp] theorem completionsBy_append (p : Fin n) (s : SemId) (op : SemOp)
    (es fs : List (Event n)) :
    completionsBy p s op (es ++ fs) = completionsBy p s op es + completionsBy p s op fs :=
  List.countP_append

theorem effects_eq_sum (s : SemId) (op : SemOp) (es : List (Event n)) :
    effects s op es = ∑ p, effectsBy p s op es := by
  induction es with
  | nil => simp [effects, effectsBy]
  | cons e es ih =>
    rw [← List.singleton_append, effects_append, ih]
    simp only [effectsBy_append, Finset.sum_add_distrib, Nat.add_right_cancel_iff]
    cases e with
    | effect p t o r => simp [effectsBy, List.countP_singleton, ite_and]
    | _ => simp [effects, effectsBy]

theorem completions_eq_sum (s : SemId) (op : SemOp) (es : List (Event n)) :
    completions s op es = ∑ p, completionsBy p s op es := by
  induction es with
  | nil => simp [completions, completionsBy]
  | cons e es ih =>
    rw [← List.singleton_append, completions, List.countP_append, ← completions, ← completions, ih]
    simp only [completionsBy_append, Finset.sum_add_distrib, Nat.add_right_cancel_iff]
    cases e with
    | completed p t o r => simp [completions, completionsBy, List.countP_singleton, ite_and]
    | _ => simp [completions, completionsBy]

theorem CallStep.inFlight {p : Fin n} {pc pc' : Pc n} {o : Option (Event n)}
    (h : CallStep p pc.result o pc'.result) (s : SemId) (op : SemOp) :
    effectsBy p s op o.toList + pc.inFlight s op =
      completionsBy p s op o.toList + pc'.inFlight s op := by
  unfold Pc.inFlight
  generalize pc.result = result at *
  generalize pc'.result = result' at *
  cases h <;> simp [effectsBy, completionsBy, List.countP_singleton]

theorem CallStep.other {p q : Fin n} {result result' : Option (SemId × SemOp × Int)}
    {o : Option (Event n)} (h : CallStep p result o result') (other : q ≠ p) (s : SemId)
    (op : SemOp) : effectsBy q s op o.toList = 0 ∧ completionsBy q s op o.toList = 0 := by
  cases h <;> simp [effectsBy, completionsBy, Ne.symm other]

namespace Kernel

variable {k k' : Kernel n} {p q : Fin n} {s : SemId} {a : Act n} {es : List (Event n)}

theorem Step.inFlight (h : Step k p a k') (locks : LockInv k) (q : Fin n) (s : SemId) (op : SemOp) :
    effectsBy q s op (k.obs (p, a)).toList + (k.proc q).pc.inFlight s op =
      completionsBy q s op (k.obs (p, a)).toList + (k'.proc q).pc.inFlight s op := by
  by_cases self : q = p
  · subst self
    exact h.call.inFlight s op
  · obtain ⟨noEffect, noCompletion⟩ := h.call.other self s op
    rw [noEffect, noCompletion]
    rcases h.pc_other locks self with same | ⟨off, embryo⟩
    · rw [same]
    · simp [off, embryo, Pc.inFlight, Pc.result]

/-- The effects of a process are its completed calls and the one it is in. -/
structure CallInv (s : SemId) (es : List (Event n)) (k : Kernel n) : Prop where
  locks : LockInv k
  calls : ∀ q op, effectsBy q s op es = completionsBy q s op es + (k.proc q).pc.inFlight s op

theorem step_callInv (inv : CallInv s es k) (h : k.step (p, a) = some k') :
    CallInv s (es ++ (k.obs (p, a)).toList) k' where
  locks := step_lockInv inv.locks h
  calls q op := by
    have old := inv.calls q op
    have new := (step_inv h).inFlight inv.locks q s op
    rw [effectsBy_append, completionsBy_append]
    omega

theorem inFlight_of_free (locks : LockInv k) (free : (k.sem s).lock = none) (q : Fin n)
    (op : SemOp) : (k.proc q).pc.inFlight s op = 0 := by
  by_contra flies
  have held := (locks.sem s q).mpr (Pc.holdsSem_of_inFlight flies)
  rw [free] at held
  cases held

theorem CallInv.completionsBy_le (inv : CallInv s es k) (q : Fin n) (op : SemOp) :
    completionsBy q s op es ≤ effectsBy q s op es := by
  rw [inv.calls]
  exact Nat.le_add_right _ _

theorem CallInv.effects_eq (inv : CallInv s es k) (free : (k.sem s).lock = none) (op : SemOp) :
    effects s op es = completions s op es := by
  rw [effects_eq_sum, completions_eq_sum]
  refine Finset.sum_congr rfl fun q _ => ?_
  rw [inv.calls, inFlight_of_free inv.locks free, Nat.add_zero]

/-! ## The value -/

/-- Without a close or an overflow, the value is what the effects make of `v`. -/
def CountInv (s : SemId) (v : Int) (es : List (Event n)) (k : Kernel n) : Prop :=
  (∀ p r, .effect p s .semClose r ∉ es) → v + effects s .semUp es ≤ intMax →
    (k.sem s).value = v + effects s .semUp es - effects s .semDown es ∧ 0 ≤ (k.sem s).value

theorem step_countInv {v : Int} (inv : CountInv s v es k) (h : k.step (p, a) = some k') :
    CountInv s v (es ++ (k.obs (p, a)).toList) k' := by
  intro unclosed few
  simp only [effects_append, List.mem_append, not_or] at unclosed few ⊢
  obtain ⟨value, low⟩ := inv (fun p r => (unclosed p r).1) (by omega)
  have step := (step_inv h).value s
  generalize k.obs (p, a) = o at *
  generalize (k.sem s).value = x at *
  generalize (k'.sem s).value = y at *
  cases step with
  | quiet o silent =>
    rw [effects_quiet _ silent, effects_quiet _ silent]
    exact ⟨by simpa using value, low⟩
  | openFree w free => omega
  | openBusy w busy => exact ⟨by simpa using value, low⟩
  | close => exact absurd (by simp) (unclosed p 1).2
  | up =>
    simp only [Option.toList_some, effects_singleton, and_self, if_true, reduceCtorEq, and_false,
      if_false] at few ⊢
    rw [wrapInt_eq (by omega) (by push_cast at few; omega)]
    exact ⟨by push_cast; omega, by omega⟩
  | down pos =>
    simp only [Option.toList_some, effects_singleton, and_self, if_true, reduceCtorEq, and_false,
      if_false] at few ⊢
    have : x ≤ intMax := by omega
    rw [wrapInt_eq (by omega) (by omega)]
    exact ⟨by push_cast; omega, by omega⟩

/-- `p` has completed a down on `s` that it has not undone by an up. -/
def Between (s : SemId) (es : List (Event n)) (p : Fin n) : Prop :=
  effectsBy p s .semUp es < completionsBy p s .semDown es

instance (s : SemId) (es : List (Event n)) (p : Fin n) : Decidable (Between s es p) :=
  inferInstanceAs (Decidable (_ < _))

/-- Two processes between their downs and their ups have taken two units. -/
theorem two_le_of_between (pair : p ≠ q) (hp : Between s es p) (hq : Between s es q)
    (paired : ∀ q, effectsBy q s .semUp es ≤ completionsBy q s .semDown es) :
    effects s .semUp es + 2 ≤ completions s .semDown es := by
  rw [effects_eq_sum, completions_eq_sum]
  calc ∑ r, effectsBy r s .semUp es + 2
      = ∑ r, (effectsBy r s .semUp es + ((if r = p then 1 else 0) + if r = q then 1 else 0)) := by
        simp [Finset.sum_add_distrib]
    _ ≤ ∑ r, completionsBy r s .semDown es := by
        refine Finset.sum_le_sum fun r _ => ?_
        have := paired r
        unfold Between at hp hq
        split <;> split <;> grind

theorem exec_countInv {start : Kernel n} {ls : List (Label n)} (locks : LockInv start)
    (free : (start.sem s).lock = none) (low : 0 ≤ (start.sem s).value)
    (run : start.exec ls = some k) :
    CallInv s (start.trace ls) k ∧ CountInv s (start.sem s).value (start.trace ls) k :=
  Transition.trace_invariant
    (P := fun es k => CallInv s es k ∧ CountInv s (start.sem s).value es k)
    (fun _ _ _ _ inv h => ⟨step_callInv inv.1 h, step_countInv inv.2 h⟩)
    ⟨⟨locks, fun q op => by simp [effectsBy, completionsBy, inFlight_of_free locks free]⟩,
      fun _ _ => by simpa [effects] using low⟩ run

/-- **Conservation.**  From any state with the lock of `s` free and a value of at least 0,
    without a close and as long as the ups do not overflow: wherever the lock is free, the
    value is the first one plus the completed ups minus the completed downs, and at least
    0.  If the first value is 1 and every process makes its ups after downs of its own, at
    most one process at a time is between its down and its up. -/
theorem value_conserved {start : Kernel n} {ls : List (Label n)} (locks : LockInv start)
    (s : SemId) (freeStart : (start.sem s).lock = none) (low : 0 ≤ (start.sem s).value)
    (run : start.exec ls = some k) (unclosed : ∀ p r, .effect p s .semClose r ∉ start.trace ls)
    (few : (start.sem s).value + effects s .semUp (start.trace ls) ≤ intMax) :
    ((k.sem s).lock = none →
      (k.sem s).value = (start.sem s).value + completions s .semUp (start.trace ls) -
        completions s .semDown (start.trace ls) ∧ 0 ≤ (k.sem s).value) ∧
    ((start.sem s).value = 1 →
      (∀ q, effectsBy q s .semUp (start.trace ls) ≤ completionsBy q s .semDown (start.trace ls)) →
      ∀ p q, Between s (start.trace ls) p → Between s (start.trace ls) q → p = q) := by
  obtain ⟨calls, count⟩ := exec_countInv locks freeStart low run
  obtain ⟨value, nonneg⟩ := count unclosed few
  constructor
  · intro free
    rw [← calls.effects_eq free, ← calls.effects_eq free]
    exact ⟨value, nonneg⟩
  · intro one paired p q hp hq
    by_contra pair
    have two := two_le_of_between pair hp hq paired
    have le : completions s .semDown (start.trace ls) ≤ effects s .semDown (start.trace ls) := by
      rw [effects_eq_sum, completions_eq_sum]
      exact Finset.sum_le_sum fun r _ => calls.completionsBy_le r .semDown
    omega

/-- After boot, the first process forks and makes the value of semaphore 0 one. -/
def upRun : List (Label 2) :=
  turn first [.dispatch, .run, .call (.fork (some second)), .run, .call (.semUp 0), .run, .run,
    .run, .run, .run, .run, .run, .run]

def upState : Kernel 2 := ((boot 2).exec upRun).get rfl

def takeRun : List (Label 2) := turn first [.call (.semDown 0), .run, .run, .run]

theorem upState_lockInv : LockInv upState :=
  exec_lockInv (boot_booted 2).lockInv (show (boot 2).exec upRun = some upState from rfl)

theorem value_conserved_takeRun : ∃ k, (upState.sem 0).value = 1 ∧
    upState.exec takeRun = some k ∧ (k.sem 0).lock = none ∧ (k.sem 0).value = 0 ∧
    Between 0 (upState.trace takeRun) 0 ∧ ∀ q, Between 0 (upState.trace takeRun) q → 0 = q := by
  have trace : upState.trace takeRun =
    [.entered 0 0 .semDown, .effect 0 0 .semDown 1, .completed 0 0 .semDown 1] := rfl
  have between : Between 0 (upState.trace takeRun) 0 := by rw [trace]; decide
  obtain ⟨count, alone⟩ := value_conserved upState_lockInv 0 rfl (by decide)
    (show upState.exec takeRun = some _ from rfl) (by simp [trace]) (by rw [trace]; decide)
  exact ⟨_, rfl, rfl, rfl, (count rfl).1.trans rfl, between,
    fun q hq => alone rfl (by rw [trace]; decide) 0 q between hq⟩

end Kernel

end Sistemas.Xv6
