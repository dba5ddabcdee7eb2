import Sistemas.Xv6.SemaphoreLocks

/-! # The value of a semaphore

Seen from one semaphore, a step of the kernel is one of the atomic effects of
`ValueStep` and carries the event that announces it, or it leaves the value alone.
Seen from the process that takes it, it is a move of `CallStep`: calls enter, take
effect and complete, in this order.  The rest of the development reasons about values
and events from these two specifications and never looks into the steps again.
-/

namespace Sistemas.Xv6

variable {n : Nat}

/-- The semaphore, the call and the result of a thread past its critical section. -/
def Pc.result : Pc n → Option (SemId × SemOp × Int)
  | .wakeup s op _ | .wakeupLocked s op _ => some (s, op, 1)
  | .release s op r => some (s, op, r)
  | _ => none

theorem Pc.holdsSem_of_result {pc : Pc n} {s : SemId} {op : SemOp} {r : Int}
    (h : pc.result = some (s, op, r)) : pc.holdsSem = some s := by
  cases pc <;> simp_all [Pc.result, Pc.holdsSem]

/-- What a step of `p` observed as the second argument does to its pending result. -/
inductive CallStep (p : Fin n) : Option (SemId × SemOp × Int) → Option (Event n) →
    Option (SemId × SemOp × Int) → Prop where
  | silent (result : Option (SemId × SemOp × Int)) : CallStep p result none result
  | entered (s : SemId) (op : SemOp) : CallStep p none (some (.entered p s op)) none
  | effect (s : SemId) (op : SemOp) (r : Int) :
      CallStep p none (some (.effect p s op r)) (some (s, op, r))
  | completed (s : SemId) (op : SemOp) (r : Int) :
      CallStep p (some (s, op, r)) (some (.completed p s op r)) none

/-- What a step of `p` observed as the third argument does to the value `v` of `s`. -/
inductive ValueStep (p : Fin n) (s : SemId) (v : Int) : Option (Event n) → Int → Prop where
  | quiet (o : Option (Event n)) : (∀ q op r, o ≠ some (.effect q s op r)) → ValueStep p s v o v
  | openFree (w : Int) : v = -1 → ValueStep p s v (some (.effect p s (.semOpen w) 1)) w
  | openBusy (w : Int) : v ≠ -1 → ValueStep p s v (some (.effect p s (.semOpen w) 0)) v
  | close : ValueStep p s v (some (.effect p s .semClose 1)) 0
  | up : ValueStep p s v (some (.effect p s .semUp 1)) (wrapInt (v + 1))
  | down : v ≠ 0 → ValueStep p s v (some (.effect p s .semDown 1)) (wrapInt (v - 1))

namespace Kernel

variable {k k' : Kernel n} {p q : Fin n} {s : SemId} {op : SemOp} {r : Int} {a : Act n}

theorem obsCall_eq (p : Fin n) (c : Syscall n) :
    obsCall p c = none ∨ ∃ s op, obsCall p c = some (.entered p s op) := by
  cases c with
  | kill | fork | exit => exact .inl rfl
  | semOpen sem | semClose sem | semUp sem | semDown sem =>
    cases h : semIndex sem <;> simp [obsCall, h]

theorem callStep_call (k : Kernel n) (p : Fin n) (c : Syscall n) :
    CallStep p none (k.obs (p, .call c)) none := by
  simp only [obs]
  split
  · exact .silent none
  · rcases obsCall_eq p c with o | ⟨s, op, o⟩ <;> rw [o] <;> constructor

/-- Every step is a move of its own process's calls. -/
theorem Step.call (h : Step k p a k') :
    CallStep p (k.proc p).pc.result (k.obs (p, a)) (k'.proc p).pc.result := by
  cases h with
  | exit c running pc | enter c t o running pc | reject c out r running pc =>
    simpa [pc, Pc.result] using callStep_call k p c
  | kill pid running pc | fork c running pc =>
    simpa [pc, Pc.result] using callStep_call k p _
  | openFree s v running pc free => simpa [pc, Pc.result, obs, obsBody, free] using .effect s _ _
  | openBusy s v running pc busy => simpa [pc, Pc.result, obs, obsBody, busy] using .effect s _ _
  | close s running pc => simpa [pc, Pc.result, obs, obsBody] using .effect s _ _
  | up s running pc => simpa [pc, Pc.result, obs, obsBody] using .effect s _ _
  | down s running pc pos => simpa [pc, Pc.result, obs, obsBody, pos] using .effect s _ _
  | release s op r running pc => simpa [pc, Pc.result, obs] using .completed s op r
  | downWait s running pc zero => simpa [pc, Pc.result, obs, obsBody, zero] using .silent none
  | _ => simpa [*, Pc.result, obs] using .silent _

theorem obs_call_ne_effect (c : Syscall n) (q : Fin n) (s : SemId) (op : SemOp) (r : Int) :
    k.obs (p, .call c) ≠ some (.effect q s op r) := by
  intro o
  have call := callStep_call k p c
  rw [o] at call
  cases call

theorem valueStep_at (s : SemId) {t : SemId} {v : Int}
    (step : ValueStep p t (k.sem t).value (some (.effect p t op r)) v) :
    ValueStep p s (k.sem s).value (some (.effect p t op r)) (if s = t then v else (k.sem s).value) := by
  by_cases same : s = t
  · subst same
    rwa [if_pos rfl]
  · rw [if_neg same]
    exact .quiet _ (by simp [Ne.symm same])

/-- Every step is one of the effects, for every semaphore. -/
theorem Step.value (h : Step k p a k') (s : SemId) :
    ValueStep p s (k.sem s).value (k.obs (p, a)) (k'.sem s).value := by
  cases h with
  | openFree t v running pc free =>
    simpa [obs, pc, obsBody, free] using valueStep_at s (.openFree (s := t) v free)
  | openBusy t v running pc busy =>
    have same : (if s = t then (k.sem t).value else (k.sem s).value) = (k.sem s).value := by grind
    simpa [obs, pc, obsBody, busy, same] using valueStep_at s (.openBusy (s := t) v busy)
  | close t running pc => simpa [obs, pc, obsBody] using valueStep_at s (.close (s := t))
  | up t running pc => simpa [obs, pc, obsBody] using valueStep_at s (.up (s := t))
  | down t running pc pos =>
    simpa [obs, pc, obsBody, pos] using valueStep_at s (.down (s := t) pos)
  | exit c | enter c | reject c | kill | fork => exact .quiet _ (obs_call_ne_effect _ · s)
  | _ => simpa using ValueStep.quiet _ (by simp [obs, *, obsBody])

/-! ## Completed calls took effect -/

/-- A thread gets a result from the effect of its own critical section. -/
theorem Step.result (h : Step k p a k') (locks : LockInv k)
    (result : (k'.proc q).pc.result = some (s, op, r)) :
    (k.proc q).pc.result = some (s, op, r) ∨ k.obs (p, a) = some (.effect q s op r) := by
  by_cases self : q = p
  · subst self
    have call := h.call
    rw [result] at call
    generalize k.obs (q, a) = o at *
    generalize (k.proc q).pc.result = old at *
    cases call with
    | silent => exact .inl rfl
    | effect => exact .inr rfl
  · rcases h.pc_other locks self with same | ⟨-, embryo⟩
    · exact .inl (same ▸ result)
    · simp [embryo, Pc.result] at result

theorem Step.completed (h : Step k p a k') (o : k.obs (p, a) = some (.completed q s op r)) :
    (k.proc q).pc.result = some (s, op, r) := by
  have call := h.call
  rw [o] at call
  generalize old : (k.proc p).pc.result = result at call
  generalize (k'.proc p).pc.result = result' at call
  cases call
  exact old

/-- Every thread past its critical section, and every call that completed, is preceded
    by its effect. -/
structure EffectInv (es : List (Event n)) (k : Kernel n) : Prop where
  locks : LockInv k
  result : ∀ p s op r, (k.proc p).pc.result = some (s, op, r) → .effect p s op r ∈ es
  completed : ∀ p s op r, .completed p s op r ∈ es → .effect p s op r ∈ es

theorem step_effectInv {es : List (Event n)} (inv : EffectInv es k)
    (h : k.step (p, a) = some k') : EffectInv (es ++ (k.obs (p, a)).toList) k' where
  locks := step_lockInv inv.locks h
  result q s op r result := by
    rcases (step_inv h).result inv.locks result with old | new
    · exact List.mem_append_left _ (inv.result q s op r old)
    · simp [new]
  completed q s op r mem := by
    rcases List.mem_append.mp mem with old | new
    · exact List.mem_append_left _ (inv.completed q s op r old)
    · have carried := (step_inv h).completed (by simpa using new)
      exact List.mem_append_left _ (inv.result q s op r carried)

theorem exec_effectInv {start : Kernel n} {ls : List (Label n)} (idle : Idle start)
    (run : start.exec ls = some k) : EffectInv (start.trace ls) k :=
  Transition.trace_invariant (P := EffectInv)
    (fun _ _ _ _ inv h => step_effectInv inv h)
    { locks := idle.lockInv
      result := fun p s op r h => by
        rcases idle.pc p with pc | pc | pc <;> simp [pc, Pc.result] at h
      completed := by simp } run

end Kernel

/-! ## Counting events -/

@[simp] theorem effects_append (s : SemId) (op : SemOp) (es fs : List (Event n)) :
    effects s op (es ++ fs) = effects s op es + effects s op fs := List.countP_append

@[simp] theorem effects_singleton (s t : SemId) (op o : SemOp) (p : Fin n) (r : Int) :
    effects s op [.effect p t o r] = if t = s ∧ o = op then 1 else 0 := by
  simp [effects, List.countP_singleton]

theorem effects_quiet {s : SemId} {o : Option (Event n)} (op : SemOp)
    (quiet : ∀ q op r, o ≠ some (.effect q s op r)) : effects s op o.toList = 0 := by
  rw [effects, List.countP_eq_zero]
  intro e mem counted
  have seen : o = some e := by simpa using mem
  subst seen
  cases e with
  | effect q t o r =>
    simp only [decide_eq_true_eq] at counted
    exact quiet q o r (by rw [counted.1])
  | _ => cases counted

end Sistemas.Xv6
