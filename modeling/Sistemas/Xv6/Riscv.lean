import Mathlib.Algebra.Group.Nat.Defs
import Mathlib.Data.Nat.Bitwise

/-! # Addresses and page table entries

The macros of `riscv.h` and `memlayout.h`.  An address is a number below 2^64.
-/

namespace Sistemas.Xv6.Vm

/-! ## Pages -/

def pgsize : Nat := 4096

/-- `PGROUNDUP(sz)`, which wraps -/
def pgRoundUp (sz : Nat) : Nat := (sz + (pgsize - 1)) % 2 ^ 64 / pgsize * pgsize

/-- `PGROUNDDOWN(a)` -/
def pgRoundDown (a : Nat) : Nat := a / pgsize * pgsize

/-- `MAXVA` -/
def maxva : Nat := 2 ^ 38

/-- `TRAMPOLINE` -/
def trampoline : Nat := maxva - pgsize

/-- `TRAPFRAME` -/
def trapframe : Nat := trampoline - pgsize

/-- `KERNBASE` -/
def kernbase : Nat := 0x80000000

theorem le_pgRoundUp {sz : Nat} (lt : sz + pgsize ≤ 2 ^ 64) : sz ≤ pgRoundUp sz := by
  unfold pgRoundUp pgsize at *
  omega

/-! ## Entries -/

/-- `PX(level, va)` -/
def px (level va : Nat) : Nat := va / 2 ^ (12 + 9 * level) % 512

def pteV : Nat := 1
def pteR : Nat := 2
def pteW : Nat := 4
def pteX : Nat := 8
def pteU : Nat := 16

/-- `pte & PTE_V` -/
def valid (pte : Nat) : Bool := pte.testBit 0

/-- `pte & PTE_W` -/
def writable (pte : Nat) : Bool := pte.testBit 2

/-- `pte & PTE_U` -/
def user (pte : Nat) : Bool := pte.testBit 4

/-- `pte & (PTE_R|PTE_W|PTE_X)` -/
def isLeaf (pte : Nat) : Bool := pte.testBit 1 || pte.testBit 2 || pte.testBit 3

/-- `PTE_FLAGS(pte)` -/
def pteFlags (pte : Nat) : Nat := pte % 1024

/-- `PA2PTE(pa)` -/
def pa2pte (pa : Nat) : Nat := pa / 4096 * 1024

/-- `PTE2PA(pte)` -/
def pte2pa (pte : Nat) : Nat := pte / 1024 * 4096 % 2 ^ 64

/-- `pte & ~PTE_U` -/
def clearUser (pte : Nat) : Nat := pte ^^^ (pte &&& pteU)

/-! ## Frames

The page of physical memory at address `f * PGSIZE` is frame `f`. -/

/-- The frame that an entry points to. -/
def pteFrame (pte : Nat) : Nat := pte / 1024

variable {pte f perm k va level : Nat}

theorem pte2pa_eq (small : pteFrame pte < 2 ^ 52) : pte2pa pte = pteFrame pte * pgsize := by
  have eq : pgsize = 4096 := rfl
  rw [pte2pa, ← pteFrame, eq, Nat.mod_eq_of_lt (by omega)]

theorem pa2pte_frame : pa2pte (f * pgsize) = f * 1024 := by
  simp [pa2pte, pgsize]

/-- An entry as `mappages` makes it. -/
def mkPte (f perm : Nat) : Nat := pa2pte (f * pgsize) ||| perm ||| pteV

theorem mkPte_frame (small : perm < 1024) : pteFrame (mkPte f perm) = f := by
  have zero : perm / 1024 = 0 := Nat.div_eq_of_lt small
  have shift : ∀ n, n / 1024 = n >>> 10 := fun n => (Nat.shiftRight_eq_div_pow n 10).symm
  have low : perm >>> 10 = 0 := by rw [← shift, zero]
  have whole : (f * 1024) >>> 10 = f := by rw [← shift, Nat.mul_div_cancel _ (by decide)]
  rw [pteFrame, mkPte, pa2pte_frame, shift, Nat.shiftRight_or_distrib, Nat.shiftRight_or_distrib,
    low, whole]
  simp [pteV]

theorem mkPte_testBit (lt : k < 10) :
    (mkPte f perm).testBit k = (perm.testBit k || decide (k = 0)) := by
  have one : Nat.testBit 1 k = decide (k = 0) := by
    rw [show 1 = 2 ^ 0 from rfl, Nat.testBit_two_pow]
    simp [eq_comm]
  have high : (f * 1024).testBit k = false := by
    rw [show f * 1024 = f * 2 ^ 10 from rfl, Nat.testBit_mul_two_pow]
    simp [Nat.not_le_of_lt lt]
  rw [mkPte, pa2pte_frame, Nat.testBit_or, Nat.testBit_or, high, pteV, one, Bool.false_or]

@[simp] theorem mkPte_valid : valid (mkPte f perm) = true := by
  rw [valid, mkPte_testBit (by decide)]
  simp

theorem mkPte_lt (small : perm < 1024) (frame : f < 2 ^ 52) : mkPte f perm < 2 ^ 64 := by
  have here : mkPte f perm / 1024 = f := mkPte_frame small
  omega

theorem mkPte_flags (small : perm < 1024) : pteFlags (mkPte f perm) = perm ||| pteV := by
  have ten : 1024 = 2 ^ 10 := rfl
  have high : f * 2 ^ 10 % 2 ^ 10 = 0 := Nat.mul_mod_left _ _
  have one : pteV % 2 ^ 10 = pteV := rfl
  rw [pteFlags, mkPte, pa2pte_frame, ten, Nat.or_mod_two_pow, Nat.or_mod_two_pow, high, one,
    Nat.mod_eq_of_lt small, Nat.zero_or]

theorem flags_testBit (lt : k < 10) : (pteFlags pte).testBit k = pte.testBit k := by
  rw [pteFlags, show 1024 = 2 ^ 10 from rfl, Nat.testBit_mod_two_pow]
  simp [lt]

theorem clearUser_testBit : (clearUser pte).testBit k = (pte.testBit k && decide (k ≠ 4)) := by
  have bit : Nat.testBit 16 k = decide (4 = k) := by
    rw [show 16 = 2 ^ 4 from rfl, Nat.testBit_two_pow]
  rw [clearUser, Nat.testBit_xor, Nat.testBit_and, pteU, bit]
  by_cases here : k = 4
  · subst here
    simp
  · have ne : ¬ 4 = k := fun same => here same.symm
    simp [here, ne]

theorem clearUser_frame : pteFrame (clearUser pte) = pteFrame pte := by
  apply Nat.eq_of_testBit_eq
  intro k
  have shift : ∀ n, n / 1024 = n >>> 10 := fun n => (Nat.shiftRight_eq_div_pow n 10).symm
  rw [pteFrame, pteFrame, shift, shift, Nat.testBit_shiftRight, Nat.testBit_shiftRight,
    clearUser_testBit]
  have ne : 10 + k ≠ 4 := by omega
  simp [ne]

theorem clearUser_flags : pteFlags (clearUser pte) = clearUser (pteFlags pte) := by
  apply Nat.eq_of_testBit_eq
  intro k
  have mod : ∀ n, (pteFlags n).testBit k = (decide (k < 10) && n.testBit k) := by
    intro n
    rw [pteFlags, show 1024 = 2 ^ 10 from rfl, Nat.testBit_mod_two_pow]
  rw [mod, clearUser_testBit, clearUser_testBit, mod, Bool.and_assoc]

theorem clearUser_lt (lt : pte < 2 ^ 64) : clearUser pte < 2 ^ 64 :=
  Nat.xor_lt_two_pow lt (Nat.and_le_left.trans_lt lt)

/-! ## Indices

The entry of level `level` for `va` is number `vpn level va` of that level. -/

def vpn (level va : Nat) : Nat := va / 2 ^ (12 + 9 * level)

theorem vpn_zero : vpn 0 va = va / pgsize := rfl

theorem vpn_succ : vpn (level + 1) va = vpn level va / 512 := by
  rw [vpn, vpn, Nat.div_div_eq_div_mul, show 512 = 2 ^ 9 from rfl, ← Nat.pow_add]
  rfl

theorem px_eq : px level va = vpn level va % 512 := rfl

theorem vpn_page (v : Nat) : vpn 0 (v * pgsize) = v := by
  simp [vpn, pgsize]

end Sistemas.Xv6.Vm
