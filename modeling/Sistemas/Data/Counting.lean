import Mathlib.Algebra.BigOperators.Group.Finset.Basic
import Mathlib.Algebra.BigOperators.Group.Finset.Piecewise

/-! # Sums over a map that changes in one place -/

namespace Sistemas

variable {ι α : Type*} [DecidableEq ι]

/-- The sum changes by what the place contributed and what it contributes now. -/
theorem sum_update {places : Finset ι} {a : ι} (mem : a ∈ places) (f : ι → α) (v : α)
    (g : ι → α → Nat) :
    (∑ x ∈ places, g x (Function.update f a v x)) + g a (f a) =
      (∑ x ∈ places, g x (f x)) + g a v := by
  have others : ∑ x ∈ places.erase a, g x (Function.update f a v x) =
      ∑ x ∈ places.erase a, g x (f x) := by
    apply Finset.sum_congr rfl
    intro x mem
    rw [Function.update_of_ne (Finset.ne_of_mem_erase mem)]
  have after := Finset.add_sum_erase places (fun x => g x (Function.update f a v x)) mem
  have before := Finset.add_sum_erase places (fun x => g x (f x)) mem
  simp only [Function.update_self] at after
  omega

end Sistemas
