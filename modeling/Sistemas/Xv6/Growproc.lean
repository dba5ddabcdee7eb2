import Sistemas.Xv6.Riscv

/-! # The size of a process

What `sys_sbrk` does to `p->sz`.  Whether there are pages is left open but for this: each page is
in memory of its own, of which there are 128 megabytes.
-/

namespace Sistemas.Xv6.Vm

/-- `PHYSTOP - KERNBASE` -/
def physical : Nat := 134217728

/-- `sz + n` of a `uint64` and an `int` -/
def addInt (sz : Nat) (n : Int) : Nat := ((sz + n) % 2 ^ 64).toNat

/-- The size; `grants` says whether `kalloc` has the pages. -/
def uvmallocSize (grants : Bool) (oldsz newsz : Nat) : Nat :=
  if newsz < oldsz then oldsz
  else if grants ∧ newsz ≤ physical then newsz
  else 0

def uvmdeallocSize (oldsz newsz : Nat) : Nat := if newsz ≥ oldsz then oldsz else newsz

/-- The new size; `none` is `-1`. -/
def growproc (grants : Bool) (n : Int) (sz : Nat) : Option Nat :=
  if n > 0 then
    if uvmallocSize grants sz (addInt sz n) = 0 then none
    else some (uvmallocSize grants sz (addInt sz n))
  else if n < 0 then some (uvmdeallocSize sz (addInt sz n))
  else some sz

/-- The result and the new size. -/
def sysSbrk (grants : Bool) (n : Int) (sz : Nat) : Option (Nat × Nat) :=
  (growproc grants n sz).map fun newsz => (sz, newsz)

variable {grants : Bool} {n sz : Nat}

theorem addInt_natCast (lt : sz + n < 2 ^ 64) : addInt sz n = sz + n := by
  unfold addInt
  omega

/-- A process that asks for more gets what it asks for, or nothing. -/
theorem sysSbrk_pos (pos : 0 < n) (low : sz ≤ physical) (lt : n < 2 ^ 31) :
    sysSbrk grants n sz =
      if grants ∧ sz + n ≤ physical then some (sz, sz + n) else none := by
  have small : sz + n < 2 ^ 64 := by
    unfold physical at low
    omega
  have up : (n : Int) > 0 := by omega
  have size : uvmallocSize grants sz (sz + n) =
      if grants ∧ sz + n ≤ physical then sz + n else 0 := by
    rw [uvmallocSize, if_neg (by omega)]
  rw [sysSbrk, growproc, if_pos up, addInt_natCast small, size]
  by_cases gives : grants ∧ sz + n ≤ physical
  · rw [if_pos gives, if_pos gives, if_neg (by omega)]
    rfl
  · rw [if_neg gives, if_neg gives, if_pos rfl]
    rfl

theorem growproc_low {n : Int} {newsz : Nat} (low : sz ≤ physical)
    (grown : growproc grants n sz = some newsz) : newsz ≤ physical := by
  unfold growproc at grown
  split at grown
  next =>
    split at grown
    next => cases grown
    next =>
      cases grown
      unfold uvmallocSize
      split
      next => exact low
      next =>
        split
        next gives => exact gives.2
        next => exact Nat.zero_le _
  next =>
    split at grown
    next =>
      cases grown
      unfold uvmdeallocSize
      split
      next => exact low
      next less => exact Nat.le_trans (Nat.le_of_lt (Nat.lt_of_not_le less)) low
    next =>
      cases grown
      exact low

/-- No process is larger than the memory. -/
theorem sysSbrk_low {n : Int} {r : Nat × Nat} (low : sz ≤ physical)
    (got : sysSbrk grants n sz = some r) : r.2 ≤ physical := by
  obtain ⟨newsz, grown, rfl⟩ := Option.map_eq_some_iff.mp got
  exact growproc_low low grown

end Sistemas.Xv6.Vm
