import Mathlib.Data.Nat.Bitwise
import Mathlib.Tactic.Ring

/-! # Numbers and bits in a sequence of bytes

* `load` — the number that is stored in some bytes, the lowest byte first.
* `digit` — a byte of a number.
* `splice` — the bytes with a part of them replaced.
* `store` — `splice` with the digits of a number.
* `bit`, `setBit`, `clearBit` — the bytes as a bitmap.
-/

namespace Sistemas

abbrev Bytes := Nat → UInt8

namespace Bytes

variable {bytes part : Bytes} {width off len i v b c : Nat}

def load (bytes : Bytes) : (width off : Nat) → Nat
  | 0, _ => 0
  | width + 1, off => (bytes off).toNat + 256 * load bytes width (off + 1)

def digit (v i : Nat) : UInt8 := UInt8.ofNat (v / 256 ^ i)

def splice (bytes : Bytes) (off len : Nat) (part : Bytes) : Bytes :=
  fun i => if off ≤ i ∧ i < off + len then part (i - off) else bytes i

def store (bytes : Bytes) (width off v : Nat) : Bytes := bytes.splice off width (digit v)

/-! ## Numbers -/

@[simp] theorem digit_zero_left : digit 0 i = 0 := by
  simp [digit]

theorem splice_inside (lt : i < len) : bytes.splice off len part (off + i) = part i := by
  simp [splice, lt]

theorem splice_outside (outside : i < off ∨ off + len ≤ i) :
    bytes.splice off len part i = bytes i := by
  have not : ¬ (off ≤ i ∧ i < off + len) := by omega
  simp [splice, not]

theorem load_congr {other : Bytes}
    (same : ∀ i, off ≤ i → i < off + width → bytes i = other i) :
    bytes.load width off = other.load width off := by
  induction width generalizing off with
  | zero => rfl
  | succ width ih =>
    rw [load, load, same off (by omega) (by omega), ih]
    intro i ge lt
    exact same i (by omega) (by omega)

theorem load_lt : bytes.load width off < 256 ^ width := by
  induction width generalizing off with
  | zero => simp [load]
  | succ width ih =>
    have byte : (bytes off).toNat < 256 := UInt8.toNat_lt _
    have rest : bytes.load width (off + 1) < 256 ^ width := ih
    rw [load, Nat.pow_succ]
    omega

/-- The digits of `v` are `v`, as far as they go. -/
theorem load_digits (digits : ∀ i < width, bytes (off + i) = digit v i) :
    bytes.load width off = v % 256 ^ width := by
  induction width generalizing off v with
  | zero => simp [load, Nat.mod_one]
  | succ width ih =>
    have first : bytes off = digit v 0 := by simpa using digits 0 (by omega)
    have rest : bytes.load width (off + 1) = v / 256 % 256 ^ width := by
      apply ih
      intro i lt
      rw [Nat.add_assoc, Nat.add_comm 1 i, digits (i + 1) (by omega), digit, digit,
        Nat.div_div_eq_div_mul, Nat.pow_succ, Nat.mul_comm]
    rw [load, first, rest, Nat.pow_succ, Nat.mul_comm (256 ^ width), Nat.mod_mul]
    simp [digit]

theorem load_splice_disjoint (disjoint : off + len ≤ i ∨ i + width ≤ off) :
    (bytes.splice off len part).load width i = bytes.load width i := by
  apply load_congr
  intro k ge lt
  exact splice_outside (by omega)

@[simp] theorem load_store : (bytes.store width off v).load width off = v % 256 ^ width := by
  apply load_digits
  intro i lt
  exact splice_inside lt

theorem load_store_disjoint {width' : Nat} (disjoint : off + width ≤ i ∨ i + width' ≤ off) :
    (bytes.store width off v).load width' i = bytes.load width' i :=
  load_splice_disjoint disjoint

@[simp] theorem load_zero : load (fun _ => 0) width off = 0 := by
  induction width generalizing off with
  | zero => rfl
  | succ width ih => simp [load, ih]

/-! ## Bits -/

/-- `1 << (b % 8)` -/
def mask (b : Nat) : UInt8 := UInt8.ofNat (2 ^ (b % 8))

def bit (bytes : Bytes) (b : Nat) : Bool := bytes (b / 8) &&& mask b != 0

def setBit (bytes : Bytes) (b : Nat) : Bytes :=
  Function.update bytes (b / 8) (bytes (b / 8) ||| mask b)

def clearBit (bytes : Bytes) (b : Nat) : Bytes :=
  Function.update bytes (b / 8) (bytes (b / 8) &&& ~~~ mask b)

theorem mask_toNat : (mask b).toNat = 2 ^ (b % 8) := by
  have lt : 2 ^ (b % 8) < 2 ^ 8 := Nat.pow_lt_pow_right (by decide) (Nat.mod_lt _ (by decide))
  simpa [mask] using Nat.mod_eq_of_lt lt

theorem bit_eq_testBit : bytes.bit b = (bytes (b / 8)).toNat.testBit (b % 8) := by
  have zero : bytes (b / 8) &&& mask b = 0 ↔ (bytes (b / 8)).toNat.testBit (b % 8) = false := by
    rw [← UInt8.toNat_inj, UInt8.toNat_and, mask_toNat, UInt8.toNat_zero, Nat.and_two_pow]
    simp
  cases set : (bytes (b / 8)).toNat.testBit (b % 8) with
  | false => simpa [bit] using zero.mpr set
  | true =>
    have nonzero : bytes (b / 8) &&& mask b ≠ 0 := by
      rw [ne_eq, zero, set]
      decide
    simpa [bit] using nonzero

@[simp] theorem bit_zero : bit (fun _ => 0) b = false := by
  simp [bit]

/-- Bits of one byte with the same place in it are the same bit. -/
theorem place_eq (byte : b / 8 = c / 8) : b % 8 = c % 8 ↔ c = b := by
  omega

theorem bit_setBit : (bytes.setBit b).bit c = (decide (c = b) || bytes.bit c) := by
  simp only [bit_eq_testBit, setBit]
  by_cases byte : b / 8 = c / 8
  · rw [← byte, Function.update_self, UInt8.toNat_or, Nat.testBit_or, mask_toNat,
      Nat.testBit_two_pow, Bool.or_comm]
    simp only [place_eq byte]
  · have ne : c ≠ b := by
      rintro rfl
      exact byte rfl
    rw [Function.update_of_ne (Ne.symm byte)]
    simp [ne]

theorem bit_clearBit : (bytes.clearBit b).bit c = (decide (c ≠ b) && bytes.bit c) := by
  simp only [bit_eq_testBit, clearBit]
  by_cases byte : b / 8 = c / 8
  · have inside : c % 8 < 8 := Nat.mod_lt _ (by decide)
    rw [← byte, Function.update_self, UInt8.toNat_and, Nat.testBit_and, UInt8.toNat_not,
      Bool.and_comm]
    have complement : (2 ^ 8 - ((mask b).toNat + 1)).testBit (c % 8) = decide (c ≠ b) := by
      rw [Nat.testBit_two_pow_sub_succ (UInt8.toNat_lt _), mask_toNat, Nat.testBit_two_pow]
      simp [inside, place_eq byte]
    have size : UInt8.size - 1 - (mask b).toNat = 2 ^ 8 - ((mask b).toNat + 1) := by
      simp only [UInt8.size]
      omega
    rw [size, complement]
  · have ne : c ≠ b := by
      rintro rfl
      exact byte rfl
    rw [Function.update_of_ne (Ne.symm byte)]
    simp [ne]

end Bytes

end Sistemas
