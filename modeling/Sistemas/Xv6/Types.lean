import Mathlib.Algebra.BigOperators.Fin
import Mathlib.Algebra.Order.BigOperators.Group.Finset

/-! # Machine integers and parameters of the kernel

`int` is 32 bits wide.  Values are kept as integers and brought back into range by
`wrapInt` where the C code adds to or subtracts from an `int`.
-/

namespace Sistemas.Xv6

def intMax : Int := 2 ^ 31 - 1

/-- The `int` with the low 32 bits of `x`. -/
def wrapInt (x : Int) : Int := (x + 2 ^ 31) % 2 ^ 32 - 2 ^ 31

theorem wrapInt_eq {x : Int} (low : -(2 ^ 31) ≤ x) (high : x ≤ intMax) : wrapInt x = x := by
  simp only [wrapInt, intMax] at *
  omega

theorem wrapInt_succ (x : Int) : wrapInt (wrapInt x + 1) = wrapInt (x + 1) := by
  unfold wrapInt
  omega

def nproc : Nat := 64

instance : NeZero nproc := ⟨by decide⟩

/-- `MAX_SEMAPHORES` of `sysproc.c`. -/
abbrev maxSemaphores : Nat := 256

/-! ## Processes and CPUs of an example -/

def procA {n : Nat} : Fin (n + 1) := 0

def procB {n : Nat} : Fin (n + 2) := 1

end Sistemas.Xv6
