import Mathlib.Data.List.Nodup
import Mathlib.Logic.Function.Basic

/-! # Writes and crashes

A store maps places to values and is changed by single writes, one after the other.  A crash
cuts a list of writes off at any point; what has been written stays.  Recovery is itself a
list of writes, found by looking at the store, and can be cut off like any other.

* `apply` — the store after some writes.
* `interrupted` — the store after any number of recoveries that were cut off.
-/

namespace Sistemas.Crash

variable {ι β : Type*} [DecidableEq ι]

/-- The store after the writes. -/
def apply (d : ι → β) (ws : List (ι × β)) : ι → β :=
  ws.foldl (fun d w => Function.update d w.1 w.2) d

@[simp] theorem apply_nil (d : ι → β) : apply d [] = d := rfl

@[simp] theorem apply_cons (d : ι → β) (w : ι × β) (ws : List (ι × β)) :
    apply d (w :: ws) = apply (Function.update d w.1 w.2) ws := rfl

theorem apply_append (d : ι → β) (ws vs : List (ι × β)) :
    apply d (ws ++ vs) = apply (apply d ws) vs := List.foldl_append

theorem apply_of_notMem {x : ι} {ws : List (ι × β)} (d : ι → β) (out : x ∉ ws.map Prod.fst) :
    apply d ws x = d x := by
  induction ws generalizing d with
  | nil => rfl
  | cons w ws ih =>
    simp only [List.map_cons, List.mem_cons, not_or] at out
    rw [apply_cons, ih _ out.2, Function.update_of_ne out.1]

theorem apply_of_mem {w : ι × β} {ws : List (ι × β)} (d : ι → β) (mem : w ∈ ws)
    (nodup : (ws.map Prod.fst).Nodup) : apply d ws w.1 = w.2 := by
  induction ws generalizing d with
  | nil => cases mem
  | cons v ws ih =>
    obtain ⟨fresh, nodup⟩ := List.nodup_cons.mp nodup
    obtain rfl | mem := List.mem_cons.mp mem
    · rw [apply_cons, apply_of_notMem _ fresh, Function.update_self]
    · exact ih _ mem nodup

/-- The writes hide what was there before. -/
theorem apply_congr {x : ι} {ws : List (ι × β)} {d d' : ι → β}
    (h : x ∈ ws.map Prod.fst ∨ d x = d' x) : apply d ws x = apply d' ws x := by
  induction ws generalizing d d' with
  | nil => exact h.resolve_left (by simp)
  | cons w ws ih =>
    rw [apply_cons, apply_cons]
    apply ih
    by_cases here : x = w.1
    · subst here
      right
      rw [Function.update_self, Function.update_self]
    · rw [Function.update_of_ne here, Function.update_of_ne here]
      exact h.imp_left fun mem => (List.mem_cons.mp mem).resolve_left here

/-! ## Prefixes -/

/-- What every write keeps holds wherever the writes are cut off. -/
theorem apply_take_invariant {P : (ι → β) → Prop} {ws : List (ι × β)}
    (keep : ∀ d, ∀ w ∈ ws, P d → P (Function.update d w.1 w.2)) {d : ι → β} (start : P d)
    (k : Nat) : P (apply d (ws.take k)) := by
  induction ws generalizing d k with
  | nil => simpa using start
  | cons w ws ih =>
    cases k with
    | zero => exact start
    | succ k =>
      exact ih (fun d v mem => keep d v (.tail _ mem)) (keep d w List.mem_cons_self start) k

/-- Two lists of writes are cut off in the first, or in the second. -/
theorem apply_take_append (d : ι → β) (ws vs : List (ι × β)) (k : Nat) :
    apply d ((ws ++ vs).take k) =
      if k ≤ ws.length then apply d (ws.take k)
      else apply (apply d ws) (vs.take (k - ws.length)) := by
  rw [List.take_append]
  split
  next le => rw [Nat.sub_eq_zero_of_le le, List.take_zero, List.append_nil]
  next more => rw [List.take_of_length_le (by omega), apply_append]

/-! ## Recovery -/

/-- The store after recoveries that were cut off, each after so many writes. -/
def interrupted (recovery : (ι → β) → Option (List (ι × β))) (d : ι → β) (cuts : List Nat) :
    Option (ι → β) :=
  cuts.foldlM (fun d k => (recovery d).map fun ws => apply d (ws.take k)) d

theorem interrupted_invariant (recovery : (ι → β) → Option (List (ι × β)))
    {P : (ι → β) → Prop}
    (keep : ∀ d, P d → ∃ ws, recovery d = some ws ∧ ∀ k, P (apply d (ws.take k)))
    {d : ι → β} (start : P d) (cuts : List Nat) :
    ∃ d', interrupted recovery d cuts = some d' ∧ P d' := by
  induction cuts generalizing d with
  | nil => exact ⟨d, rfl, start⟩
  | cons k cuts ih =>
    obtain ⟨ws, found, prefixes⟩ := keep d start
    obtain ⟨d', run, last⟩ := ih (prefixes k)
    refine ⟨d', ?_, last⟩
    rw [← run]
    simp [interrupted, found]

end Sistemas.Crash
