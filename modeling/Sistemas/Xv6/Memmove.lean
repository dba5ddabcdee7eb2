import Sistemas.Data.Bytes

/-! # The two memmoves

`kernel/string.c` and `user/ulib.c` copy a range of bytes in place, upwards or downwards.  An
address is below `2 ^ 64` and the pointers wrap around there.

* `copyUp`, `copyDown` — the two loops.
* `Kstring.memmove`, `Ulib.memmove` — the copy, each with its own test of the direction.
* `Moved` — what the copy is for.
-/

namespace Sistemas.Xv6

/-- The number of addresses. -/
def addresses : Nat := 18446744073709551616

/-- `p + n` for a pointer `p`. -/
def ptrAdd (p n : Nat) : Nat := (p + n) % addresses

/-- `--p` for a pointer `p`. -/
def ptrPred (p : Nat) : Nat := (p + (addresses - 1)) % addresses

/-- `while(n-- > 0) *d++ = *s++` -/
def copyUp (mem : Bytes) (d s : Nat) : (n : Nat) → Bytes
  | 0 => mem
  | n + 1 => copyUp (Function.update mem d (mem s)) (ptrAdd d 1) (ptrAdd s 1) n

/-- `while(n-- > 0) *--d = *--s` -/
def copyDown (mem : Bytes) (d s : Nat) : (n : Nat) → Bytes
  | 0 => mem
  | n + 1 =>
    copyDown (Function.update mem (ptrPred d) (mem (ptrPred s))) (ptrPred d) (ptrPred s) n

def Kstring.memmove (mem : Bytes) (dst src n : Nat) : Bytes :=
  if n = 0 then mem
  else if src < dst ∧ ptrAdd src n > dst then copyDown mem (ptrAdd dst n) (ptrAdd src n) n
  else copyUp mem dst src n

/-- The loops do nothing for a negative `n`. -/
def Ulib.memmove (mem : Bytes) (vdst vsrc : Nat) (n : Int) : Bytes :=
  if vsrc > vdst then copyUp mem vdst vsrc n.toNat
  else copyDown mem (ptrAdd vdst n.toNat) (ptrAdd vsrc n.toNat) n.toNat

/-- `mem'` is `mem` with the `n` bytes from `dst` on as those from `src` on were. -/
structure Moved (mem mem' : Bytes) (dst src n : Nat) : Prop where
  copied : ∀ i < n, mem' (dst + i) = mem (src + i)
  outside : ∀ a, a < dst ∨ dst + n ≤ a → mem' a = mem a

variable {mem mem' : Bytes} {d s n : Nat}

/-! ## Pointers -/

theorem ptrPred_ptrAdd : ptrPred (ptrAdd d (n + 1)) = ptrAdd d n := by
  have turn : d + (n + 1) + (addresses - 1) = d + n + addresses := by
    unfold addresses
    omega
  rw [ptrPred, ptrAdd, Nat.mod_add_mod, turn, Nat.add_mod_right, ptrAdd]

theorem ptrAdd_eq (lt : d + n < addresses) : ptrAdd d n = d + n := Nat.mod_eq_of_lt lt

/-! ## The loops -/

theorem Moved.none (mem : Bytes) (d s : Nat) : Moved mem mem d s 0 where
  copied i lt := absurd lt (Nat.not_lt_zero i)
  outside _ _ := rfl

/-- The first byte is copied before the others: it is none of those that are still read. -/
theorem Moved.first (rest : Moved (Function.update mem d (mem s)) mem' (d + 1) (s + 1) n)
    (apart : d ≤ s ∨ s + n < d) : Moved mem mem' d s (n + 1) where
  copied i lt := by
    cases i with
    | zero =>
      rw [Nat.add_zero, rest.outside d (by omega), Function.update_self, Nat.add_zero]
    | succ i =>
      have read := rest.copied i (by omega)
      rw [Function.update_of_ne (by omega)] at read
      rw [← Nat.add_assoc, Nat.add_right_comm d, Nat.add_comm i, ← Nat.add_assoc]
      exact read
  outside a away := by
    rw [rest.outside a (by omega), Function.update_of_ne (by omega)]

/-- The last byte is copied before the others. -/
theorem Moved.last (rest : Moved (Function.update mem (d + n) (mem (s + n))) mem' d s n)
    (apart : s ≤ d ∨ d + n < s) : Moved mem mem' d s (n + 1) where
  copied i lt := by
    by_cases top : i = n
    · subst i
      rw [rest.outside (d + n) (by omega), Function.update_self]
    · rw [rest.copied i (by omega), Function.update_of_ne (by omega)]
  outside a away := by
    rw [rest.outside a (by omega), Function.update_of_ne (by omega)]

theorem copyUp_moved (dstFits : d + n ≤ addresses) (srcFits : s + n ≤ addresses)
    (apart : d ≤ s ∨ s + n ≤ d) : Moved mem (copyUp mem (ptrAdd d 0) (ptrAdd s 0) n) d s n := by
  induction n generalizing mem d s with
  | zero => exact Moved.none mem d s
  | succ n ih =>
    have dst : ptrAdd d 0 = d := ptrAdd_eq (by omega)
    have src : ptrAdd s 0 = s := ptrAdd_eq (by omega)
    have rest : Moved (Function.update mem d (mem s)) _ (d + 1) (s + 1) n :=
      ih (by omega) (by omega) (by omega)
    rw [dst, src, copyUp]
    exact rest.first (by omega)

theorem copyDown_moved (dstFits : d + n ≤ addresses) (srcFits : s + n ≤ addresses)
    (apart : s ≤ d ∨ d + n ≤ s) : Moved mem (copyDown mem (ptrAdd d n) (ptrAdd s n) n) d s n := by
  induction n generalizing mem with
  | zero => exact Moved.none mem d s
  | succ n ih =>
    have dst : ptrAdd d n = d + n := ptrAdd_eq (by omega)
    have src : ptrAdd s n = s + n := ptrAdd_eq (by omega)
    have rest : Moved (Function.update mem (d + n) (mem (s + n))) _ d s n :=
      ih (by omega) (by omega) (by omega)
    rw [copyDown, ptrPred_ptrAdd, ptrPred_ptrAdd]
    rw [dst, src] at rest ⊢
    exact rest.last (by omega)

/-! ## The functions -/

theorem Kstring.memmove_moved (dstFits : d + n ≤ addresses) (srcFits : s + n ≤ addresses) :
    Moved mem (Kstring.memmove mem d s n) d s n := by
  unfold Kstring.memmove
  by_cases none : n = 0
  · subst n
    rw [if_pos rfl]
    exact Moved.none mem d s
  rw [if_neg none]
  by_cases down : s < d ∧ ptrAdd s n > d
  · rw [if_pos down]
    exact copyDown_moved dstFits srcFits (.inl (Nat.le_of_lt down.1))
  · -- a source below the destination ends below it, and so does not wrap
    have apart : d ≤ s ∨ s + n ≤ d := by
      by_cases above : d ≤ s
      · exact .inl above
      · have add : ptrAdd s n = s + n := ptrAdd_eq (by omega)
        omega
    have up : Moved mem _ d s n := copyUp_moved dstFits srcFits apart
    rw [ptrAdd_eq (by omega), ptrAdd_eq (by omega)] at up
    rw [if_neg down]
    exact up

theorem Ulib.memmove_moved (dstFits : d + n ≤ addresses) (srcFits : s + n ≤ addresses) :
    Moved mem (Ulib.memmove mem d s n) d s n := by
  rw [Ulib.memmove, Int.toNat_natCast]
  by_cases up : s > d
  · rw [if_pos up]
    cases n with
    | zero => exact Moved.none mem d s
    | succ n =>
      have moved : Moved mem _ d s (n + 1) :=
        copyUp_moved dstFits srcFits (.inl (Nat.le_of_lt up))
      rw [ptrAdd_eq (by omega), ptrAdd_eq (by omega)] at moved
      exact moved
  · rw [if_neg up]
    exact copyDown_moved dstFits srcFits (.inl (by omega))

/-- Either function copies any range onto any other. -/
theorem memmove_copies (mem : Bytes) (dst src n : Nat) (dstFits : dst + n ≤ addresses)
    (srcFits : src + n ≤ addresses) :
    Moved mem (Kstring.memmove mem dst src n) dst src n ∧
      Moved mem (Ulib.memmove mem dst src n) dst src n :=
  ⟨Kstring.memmove_moved dstFits srcFits, Ulib.memmove_moved dstFits srcFits⟩

/-- Three bytes are moved up by one. -/
theorem memmove_copies_three :
    Moved UInt8.ofNat (Kstring.memmove UInt8.ofNat 5 4 3) 5 4 3 ∧
      Moved UInt8.ofNat (Ulib.memmove UInt8.ofNat 5 4 (3 : Nat)) 5 4 3 :=
  memmove_copies UInt8.ofNat 5 4 3 (by decide) (by decide)

end Sistemas.Xv6
