import Sistemas.Data.Bytes

/-! # A memory of pages

A sequence of bytes in pages of `size` bytes.  `Keeps size P` says that a change leaves the pages
with `P` as they are.
-/

namespace Sistemas.Bytes

variable {b b' b'' part : Bytes} {size f off len i width v : Nat} {P Q : Nat → Prop}

def Keeps (size : Nat) (P : Nat → Prop) (b b' : Bytes) : Prop := ∀ i, P (i / size) → b' i = b i

theorem Keeps.refl (size : Nat) (P : Nat → Prop) (b : Bytes) : Keeps size P b b := fun _ _ => rfl

theorem Keeps.trans (first : Keeps size P b b') (second : Keeps size P b' b'') :
    Keeps size P b b'' :=
  fun i here => (second i here).trans (first i here)

theorem Keeps.mono (keeps : Keeps size P b b') (imp : ∀ f, Q f → P f) : Keeps size Q b b' :=
  fun i here => keeps i (imp _ here)

/-- A part of one page is replaced. -/
theorem keeps_splice (low : f * size ≤ off) (high : off + len ≤ (f + 1) * size) :
    Keeps size (· ≠ f) b (b.splice off len part) := by
  intro i other
  apply splice_outside
  by_contra inside
  have here : i / size = f := by
    apply Nat.div_eq_of_lt_le
    · omega
    · omega
  exact other here

theorem keeps_store (low : f * size ≤ off) (high : off + width ≤ (f + 1) * size) :
    Keeps size (· ≠ f) b (b.store width off v) :=
  keeps_splice low high

theorem page_of (lt : i < size) : (f * size + i) / size = f := by
  rw [Nat.mul_comm, Nat.mul_add_div (by omega), Nat.div_eq_of_lt lt, Nat.add_zero]

theorem Keeps.byte (keeps : Keeps size P b b') (here : P f) (lt : i < size) :
    b' (f * size + i) = b (f * size + i) :=
  keeps _ (by rwa [page_of lt])

theorem Keeps.load (keeps : Keeps size P b b') (here : P f) (le : i + width ≤ size) :
    b'.load width (f * size + i) = b.load width (f * size + i) := by
  apply load_congr
  intro k ge lt
  obtain ⟨j, rfl⟩ : ∃ j, k = f * size + j := ⟨k - f * size, by omega⟩
  exact keeps.byte here (by omega)

end Sistemas.Bytes
