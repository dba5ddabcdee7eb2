import Sistemas.Xv6.NamexResolution

/-! # A directory is a finite map

`dirlookup` and `dirlink` of `fs.c`, and the removal of an entry in `sys_unlink`, on the bytes of a
directory.  An entry has 16 bytes, the inode number and the name; number 0 says that it is empty.
-/

namespace Sistemas.Xv6.Dirlink

open Namex (Dirent namecmp textOf textFrom)

/-! ## The bytes -/

/-- The content of a directory. -/
structure Dir where
  bytes : Bytes
  size : Nat

inductive Panic
  | dirlookupRead
  | dirlinkRead
  | unlinkWritei
deriving DecidableEq

/-- `sizeof(struct dirent)` -/
def direntSize : Nat := 16

/-- `readi(dp, 0, (uint64)&de, off, sizeof(de))`, if it reads all of it. -/
def Dir.readi (d : Dir) (off : Nat) : Option Dirent :=
  if off + direntSize ≤ d.size then
    some { inum := d.bytes.load 2 off, name := fun i => d.bytes (off + 2 + i) }
  else none

/-- `writei(dp, 0, (uint64)&de, off, sizeof(de))`, if it writes all of it.  The entry is in one
block; one behind the end may need a new one, and `space` says whether there is one. -/
def Dir.writei (d : Dir) (de : Bytes) (off : Nat) (space : Bool) : Option Dir :=
  if off + direntSize ≤ d.size ∨
      (off + direntSize ≤ maxfile * bsize ∧ (off % bsize ≠ 0 ∨ space = true)) then
    some { bytes := d.bytes.splice off direntSize de, size := max d.size (off + direntSize) }
  else none

/-- `while(n-- > 0) *s++ = 0;` -/
def padLoop : Nat → Nat → Bytes → Bytes
  | 0, _, s => s
  | n + 1, i, s => padLoop n (i + 1) (Function.update s i 0)

/-- `while(n-- > 0 && (*s++ = *t++) != 0)`, with `s` and `t` moved by `j`, and what is behind it. -/
def strncpy (t : Bytes) (pos : Nat) : Nat → Nat → Bytes → Bytes
  | 0, _, s => s
  | n + 1, j, s =>
    let s := Function.update s (pos + j) (t j)
    if t j ≠ 0 then strncpy t pos n (j + 1) s else padLoop n (pos + j + 1) s

/-- `de`, which is filled whatever it held. -/
def dirent (name : Bytes) (inum : Nat) (de : Bytes) : Bytes :=
  -- de.inum is a ushort
  (strncpy name 2 dirsiz 0 de).store 2 0 (inum % 2 ^ 16)

/-! ## The functions -/

/-- `for(off = 0; off < dp->size; off += sizeof(de))`: the inode number and `*poff`. -/
def lookupLoop (d : Dir) (name : Bytes) (off : Nat) : Except Panic (Option (Nat × Nat)) :=
  if _more : off < d.size then
    match d.readi off with
    | none => .error .dirlookupRead
    | some de =>
      if de.inum = 0 then lookupLoop d name (off + direntSize)
      else if namecmp name de.name = 0 then .ok (some (de.inum, off))
      else lookupLoop d name (off + direntSize)
  else .ok none
termination_by d.size - off
decreasing_by all_goals (unfold direntSize; omega)

def dirlookup (d : Dir) (name : Bytes) : Except Panic (Option (Nat × Nat)) := lookupLoop d name 0

/-- Look for an empty dirent. -/
def emptyLoop (d : Dir) (off : Nat) : Except Panic Nat :=
  if _more : off < d.size then
    match d.readi off with
    | none => .error .dirlinkRead
    | some de => if de.inum = 0 then .ok off else emptyLoop d (off + direntSize)
  else .ok off
termination_by d.size - off
decreasing_by all_goals (unfold direntSize; omega)

/-- `none` stands for -1, `some off` for 0, where `off` is the local variable.  `de` is what the
stack holds. -/
def dirlink (d : Dir) (name : Bytes) (inum : Nat) (space : Bool) (de : Bytes) :
    Except Panic (Option Nat × Dir) := do
  match ← dirlookup d name with
  | some _ => .ok (none, d)
  | none =>
    let off ← emptyLoop d 0
    match d.writei (dirent name inum de) off space with
    | some d => .ok (some off, d)
    | none => .ok (none, d)

def dot : Bytes := ([46, 0].getD · 0)
def dotdot : Bytes := ([46, 46, 0].getD · 0)

/-- From the lock of the directory on; `busy` says that the entry is a directory with entries. -/
def unlink (d : Dir) (name : Bytes) (busy : Bool) : Except Panic (Option Nat × Dir) :=
  if namecmp name dot = 0 ∨ namecmp name dotdot = 0 then .ok (none, d)
  else do
    match ← dirlookup d name with
    | none => .ok (none, d)
    | some (_, off) =>
      if busy then .ok (none, d)
      else
        match d.writei (fun _ => 0) off false with
        | some d => .ok (some off, d)
        | none => .error .unlinkWritei

/-! ## Entries -/

/-- The entry at `off` has number `inum` and the name `text`. -/
structure Entry (d : Dir) (text : List UInt8) (inum off : Nat) : Prop where
  aligned : off % direntSize = 0
  inside : off + direntSize ≤ d.size
  number : d.bytes.load 2 off = inum
  nonzero : inum ≠ 0
  name : textOf (fun i => d.bytes (off + 2 + i)) = text

structure Sound (d : Dir) : Prop where
  whole : d.size % direntSize = 0
  distinct : ∀ text inum off inum' off', Entry d text inum off → Entry d text inum' off' →
    off = off'

variable {d d' : Dir} {text : List UInt8} {inum off : Nat}

/-- In a whole directory an entry is read where one may begin. -/
theorem readi_eq (sound : Sound d) (aligned : off % direntSize = 0) (more : off < d.size) :
    off + direntSize ≤ d.size ∧ d.readi off =
      some { inum := d.bytes.load 2 off, name := fun i => d.bytes (off + 2 + i) } := by
  have whole := sound.whole
  have inside : off + direntSize ≤ d.size := by
    unfold direntSize at *
    omega
  exact ⟨inside, if_pos inside⟩

theorem lookupLoop_spec (sound : Sound d) (name : Bytes) (aligned : off % direntSize = 0) :
    ∃ r, lookupLoop d name off = .ok r ∧
      ∀ inum o, r = some (inum, o) ↔ off ≤ o ∧ Entry d (textOf name) inum o := by
  induction left : d.size - off using Nat.strong_induction_on generalizing off with
  | h n ih =>
  rw [lookupLoop]
  by_cases more : off < d.size
  · obtain ⟨inside, read⟩ := readi_eq sound aligned more
    have next : (off + direntSize) % direntSize = 0 := by rw [Nat.add_mod_right, aligned]
    have less : d.size - (off + direntSize) < n := by
      unfold direntSize at *
      omega
    obtain ⟨r, ran, found⟩ := ih _ less next rfl
    -- an entry that is not the one asked for is passed
    have pass : (∀ inum, ¬ Entry d (textOf name) inum off) →
        ∀ inum o, r = some (inum, o) ↔ off ≤ o ∧ Entry d (textOf name) inum o := by
      intro other inum o
      rw [found]
      constructor
      · rintro ⟨le, entry⟩
        exact ⟨by omega, entry⟩
      · rintro ⟨le, entry⟩
        refine ⟨?_, entry⟩
        have ne : o ≠ off := by
          rintro rfl
          exact other inum entry
        have := entry.aligned
        unfold direntSize at *
        omega
    rw [dif_pos more, read]
    dsimp only
    split
    next empty =>
      refine ⟨r, ran, pass fun inum entry => entry.nonzero ?_⟩
      rw [← entry.number, empty]
    next full =>
      split
      next same =>
        have entry : Entry d (textOf name) (d.bytes.load 2 off) off :=
          ⟨aligned, inside, rfl, full, (Namex.namecmp_eq_zero.mp same).symm⟩
        refine ⟨_, rfl, fun inum o => ?_⟩
        constructor
        · intro eq
          cases eq
          exact ⟨le_rfl, entry⟩
        · rintro ⟨-, other⟩
          obtain rfl : off = o := sound.distinct _ _ _ _ _ entry other
          rw [other.number]
      next differs =>
        refine ⟨r, ran, pass fun inum entry => differs ?_⟩
        exact Namex.namecmp_eq_zero.mpr entry.name.symm
  · rw [dif_neg more]
    refine ⟨none, rfl, fun inum o => ?_⟩
    constructor
    · intro no
      cases no
    · rintro ⟨le, entry⟩
      have := entry.inside
      unfold direntSize at this
      omega

/-- `dirlookup` finds what is there. -/
theorem dirlookup_spec (sound : Sound d) (name : Bytes) : ∃ r, dirlookup d name = .ok r ∧
    ∀ inum off, r = some (inum, off) ↔ Entry d (textOf name) inum off := by
  obtain ⟨r, ran, found⟩ := @lookupLoop_spec d 0 sound name rfl
  exact ⟨r, ran, fun inum off => (found inum off).trans (and_iff_right (Nat.zero_le off))⟩

theorem emptyLoop_spec (sound : Sound d) (aligned : off % direntSize = 0) (le : off ≤ d.size) :
    ∃ o, emptyLoop d off = .ok o ∧ o % direntSize = 0 ∧ o ≤ d.size ∧
      (o < d.size → d.bytes.load 2 o = 0) := by
  induction left : d.size - off using Nat.strong_induction_on generalizing off with
  | h n ih =>
  rw [emptyLoop]
  by_cases more : off < d.size
  · obtain ⟨inside, read⟩ := readi_eq sound aligned more
    rw [dif_pos more, read]
    dsimp only
    split
    next empty => exact ⟨off, rfl, aligned, le, fun _ => empty⟩
    next full =>
      have less : d.size - (off + direntSize) < n := by
        unfold direntSize at *
        omega
      exact ih _ less (by rw [Nat.add_mod_right, aligned]) inside rfl
  · rw [dif_neg more]
    exact ⟨off, rfl, aligned, le, fun lt => absurd lt more⟩

/-! ## Names -/

theorem padLoop_at (n i : Nat) (s : Bytes) (j : Nat) :
    padLoop n i s j = if i ≤ j ∧ j < i + n then 0 else s j := by
  induction n generalizing i s with
  | zero => rw [padLoop, if_neg (by omega)]
  | succ n ih =>
    rw [padLoop, ih]
    by_cases first : j = i
    · rw [if_neg (by omega), if_pos (by omega), first, Function.update_self]
    · rw [Function.update_of_ne first]
      exact if_congr (by omega) rfl rfl

theorem strncpy_before {t : Bytes} {pos n i k : Nat} (s : Bytes) (lt : k < pos + i) :
    strncpy t pos n i s k = s k := by
  induction n generalizing i s with
  | zero => rfl
  | succ n ih =>
    rw [strncpy]
    split
    · rw [ih _ (by omega), Function.update_of_ne (by omega)]
    · rw [padLoop_at, if_neg (by omega), Function.update_of_ne (by omega)]

/-- The name that is read back is the one that was copied, cut to `n` bytes. -/
theorem strncpy_text (t : Bytes) (pos n i : Nat) (s : Bytes) :
    textFrom (fun j => strncpy t pos n i s (pos + j)) n i = textFrom t n i := by
  induction n generalizing i s with
  | zero => rfl
  | succ n ih =>
    have here : strncpy t pos (n + 1) i s (pos + i) = t i := by
      rw [strncpy]
      split
      · rw [strncpy_before _ (by omega), Function.update_self]
      · rw [padLoop_at, if_neg (by omega), Function.update_self]
    rw [textFrom, textFrom, here]
    by_cases nul : t i = 0
    · rw [if_pos nul, if_pos nul]
    · rw [if_neg nul, if_neg nul, ← ih (i + 1) (Function.update s (pos + i) (t i))]
      congr 2
      funext j
      rw [strncpy, if_pos nul]

theorem load_congr_two {b b' : Bytes} {o o' : Nat} (same : ∀ i < 2, b (o + i) = b' (o' + i)) :
    b.load 2 o = b'.load 2 o' := by
  have first := same 0 (by decide)
  have second := same 1 (by decide)
  rw [Nat.add_zero, Nat.add_zero] at first
  simp only [Bytes.load, first, second]

/-- What `dirlink` writes. -/
theorem dirent_spec (name : Bytes) (inum : Nat) (de : Bytes) :
    (dirent name inum de).load 2 0 = inum % 2 ^ 16 ∧
      textOf (fun i => dirent name inum de (2 + i)) = textOf name := by
  constructor
  · rw [dirent, Bytes.load_store]
    exact Nat.mod_mod _ _
  · have eq : textOf (fun i => dirent name inum de (2 + i)) =
        textOf fun i => strncpy name 2 dirsiz 0 de (2 + i) := by
      apply Namex.textFrom_congr
      intro j _ _
      exact Bytes.splice_outside (by omega)
    rw [eq]
    exact strncpy_text name 2 dirsiz 0 de

/-! ## Writing an entry -/

/-- The entry at `off` is written, and the others stay. -/
theorem writei_spec {de : Bytes} {space : Bool} (sound : Sound d)
    (aligned : off % direntSize = 0) (le : off ≤ d.size)
    (wrote : d.writei de off space = some d') :
    d'.size % direntSize = 0 ∧ ∀ text inum o, Entry d' text inum o ↔
      if o = off then inum ≠ 0 ∧ de.load 2 0 = inum ∧ textOf (fun i => de (2 + i)) = text
      else Entry d text inum o := by
  have whole := sound.whole
  rw [Dir.writei] at wrote
  split at wrote
  · cases wrote
    dsimp only
    refine ⟨by unfold direntSize at *; omega, fun text inum o => ?_⟩
    have written : (d.bytes.splice off direntSize de).load 2 off = de.load 2 0 := by
      apply load_congr_two
      intro i lt
      rw [Nat.zero_add]
      exact Bytes.splice_inside (lt.trans (by decide))
    have named : textOf (fun i => d.bytes.splice off direntSize de (off + 2 + i)) =
        textOf fun i => de (2 + i) := by
      apply Namex.textFrom_congr
      intro j _ lt
      have inside : 2 + j < direntSize := by
        unfold dirsiz direntSize at *
        omega
      rw [Nat.add_assoc]
      exact Bytes.splice_inside inside
    by_cases same : o = off
    · subst same
      rw [if_pos rfl]
      constructor
      · intro entry
        exact ⟨entry.nonzero, written.symm.trans entry.number, named.symm.trans entry.name⟩
      · rintro ⟨nonzero, number, name⟩
        exact ⟨aligned, Nat.le_max_right _ _, written.trans number, nonzero, named.trans name⟩
    · rw [if_neg same]
      have apart : o % direntSize = 0 → ∀ k, o ≤ k → k < o + direntSize →
          d.bytes.splice off direntSize de k = d.bytes k := by
        intro aligned' k ge lt
        apply Bytes.splice_outside
        unfold direntSize at *
        omega
      have number : o % direntSize = 0 →
          (d.bytes.splice off direntSize de).load 2 o = d.bytes.load 2 o := by
        intro aligned'
        apply load_congr_two
        intro i lt
        exact apart aligned' _ (by omega) (by unfold direntSize; omega)
      have name : o % direntSize = 0 →
          textOf (fun i => d.bytes.splice off direntSize de (o + 2 + i)) =
            textOf fun i => d.bytes (o + 2 + i) := by
        intro aligned'
        apply Namex.textFrom_congr
        intro j _ lt
        exact apart aligned' _ (by omega) (by unfold dirsiz at lt; unfold direntSize; omega)
      constructor
      · intro entry
        have aligned' := entry.aligned
        refine ⟨aligned', ?_, (number aligned').symm.trans entry.number, entry.nonzero,
          (name aligned').symm.trans entry.name⟩
        have inside : o + direntSize ≤ max d.size (off + direntSize) := entry.inside
        unfold direntSize at *
        omega
      · intro entry
        have aligned' := entry.aligned
        exact ⟨aligned', le_max_of_le_left entry.inside, (number aligned').trans entry.number,
          entry.nonzero, (name aligned').trans entry.name⟩
  · cases wrote

/-- Nothing of the same name is there, so that the new entry is the only one. -/
theorem dirlink_spec {space : Bool} (sound : Sound d) (name : Bytes) (de : Bytes)
    (small : inum % 2 ^ 16 ≠ 0) : ∃ r d', dirlink d name inum space de = .ok (r, d') ∧ Sound d' ∧
      (r = none → d' = d) ∧ ((∃ i o, Entry d (textOf name) i o) → r = none) ∧
      ∀ off, r = some off → (∀ text i, ¬ Entry d text i off) ∧ ∀ text i o, Entry d' text i o ↔
        if o = off then i = inum % 2 ^ 16 ∧ text = textOf name else Entry d text i o := by
  obtain ⟨found, looked, iff⟩ := dirlookup_spec sound name
  rw [dirlink, looked]
  dsimp only [bind, Except.bind]
  cases found with
  | some entry =>
    exact ⟨none, d, rfl, sound, fun _ => rfl, fun _ => rfl, fun off no => by cases no⟩
  | none =>
    have new : ¬ ∃ i o, Entry d (textOf name) i o := by
      rintro ⟨i, o, entry⟩
      cases (iff i o).mpr entry
    obtain ⟨off, ran, aligned, le, unset⟩ := @emptyLoop_spec d 0 sound rfl (Nat.zero_le _)
    rw [ran]
    dsimp only
    cases wrote : d.writei (dirent name inum de) off space with
    | none => exact ⟨none, d, rfl, sound, fun _ => rfl, fun _ => rfl, fun off no => by cases no⟩
    | some d' =>
      obtain ⟨whole, entries⟩ := writei_spec sound aligned le wrote
      obtain ⟨number, text⟩ := dirent_spec name inum de
      rw [number, text] at entries
      have exact : ∀ t i o, Entry d' t i o ↔
          if o = off then i = inum % 2 ^ 16 ∧ t = textOf name else Entry d t i o := by
        intro t i o
        rw [entries]
        split
        · constructor
          · rintro ⟨-, eq, eq'⟩
            exact ⟨eq.symm, eq'.symm⟩
          · rintro ⟨rfl, rfl⟩
            exact ⟨small, rfl, rfl⟩
        · rfl
      have unused : ∀ t i, ¬ Entry d t i off := by
        intro t i entry
        have inside := entry.inside
        apply entry.nonzero
        rw [← entry.number]
        exact unset (by unfold direntSize at inside; omega)
      refine ⟨some off, d', rfl, ⟨whole, ?_⟩, (fun no => by cases no),
        (fun there => absurd there new), ?_⟩
      · intro t i o i' o' entry entry'
        rw [exact] at entry entry'
        split at entry
        next here =>
          split at entry'
          next here' => rw [here, here']
          next =>
            rw [entry.2] at entry'
            exact absurd ⟨i', o', entry'⟩ new
        next =>
          split at entry'
          next =>
            rw [entry'.2] at entry
            exact absurd ⟨i, o, entry⟩ new
          next => exact sound.distinct _ _ _ _ _ entry entry'
      · intro off' eq
        cases eq
        exact ⟨unused, exact⟩

theorem zero_load : Bytes.load (fun _ => 0) 2 0 = 0 := Bytes.load_zero

/-- The entry that was found is empty now. -/
theorem unlink_spec (sound : Sound d) (name : Bytes) (busy : Bool) :
    ∃ r d', unlink d name busy = .ok (r, d') ∧ Sound d' ∧ (r = none → d' = d) ∧
      ∀ off, r = some off → (∃ i, Entry d (textOf name) i off) ∧
        ∀ text i o, Entry d' text i o ↔ o ≠ off ∧ Entry d text i o := by
  obtain ⟨found, looked, iff⟩ := dirlookup_spec sound name
  rw [unlink]
  split
  · exact ⟨none, d, rfl, sound, fun _ => rfl, fun off no => by cases no⟩
  rw [looked]
  dsimp only [bind, Except.bind]
  cases found with
  | none => exact ⟨none, d, rfl, sound, fun _ => rfl, fun off no => by cases no⟩
  | some entry =>
    obtain ⟨inum, off⟩ := entry
    have here : Entry d (textOf name) inum off := (iff inum off).mp rfl
    dsimp only
    split
    · exact ⟨none, d, rfl, sound, fun _ => rfl, fun off no => by cases no⟩
    cases wrote : d.writei (fun _ => 0) off false with
    | none =>
      rw [Dir.writei, if_pos (.inl here.inside)] at wrote
      cases wrote
    | some d' =>
      obtain ⟨whole, entries⟩ := writei_spec sound here.aligned
        (Nat.le_of_add_right_le here.inside) wrote
      have exact : ∀ t i o, Entry d' t i o ↔ o ≠ off ∧ Entry d t i o := by
        intro t i o
        rw [entries]
        split
        next same =>
          constructor
          · rintro ⟨nonzero, eq, -⟩
            exact absurd (eq.symm.trans zero_load) nonzero
          · rintro ⟨ne, -⟩
            exact absurd same ne
        next other => exact (and_iff_right other).symm
      refine ⟨some off, d', rfl, ⟨whole, ?_⟩, (fun no => by cases no), ?_⟩
      · intro t i o i' o' entry entry'
        exact sound.distinct _ _ _ _ _ ((exact t i o).mp entry).2 ((exact t i' o').mp entry').2
      · intro off' eq
        cases eq
        exact ⟨⟨inum, here⟩, exact⟩

/-! ## Any sequence of calls -/

inductive Op
  | dirlink (name : Bytes) (inum : Nat) (space : Bool) (de : Bytes)
  | unlink (name : Bytes) (busy : Bool)

def Op.perform (d : Dir) : Op → Except Panic (Option Nat × Dir)
  | .dirlink name inum space de => Dirlink.dirlink d name inum space de
  | .unlink name busy => Dirlink.unlink d name busy

def run : Dir → List Op → Except Panic (List (Option Nat) × Dir)
  | d, [] => .ok ([], d)
  | d, op :: ops => do
    let (r, d) ← op.perform d
    let (rs, d) ← run d ops
    .ok (r :: rs, d)

/-- The inode number and the offset of each name. -/
abbrev Bindings := List UInt8 → Option (Nat × Nat)

/-- What a call that returned `r` does to the names. -/
def Op.bind (bindings : Bindings) (r : Option Nat) : Op → Bindings
  | .dirlink name inum _ _ =>
    match r with
    | some off => Function.update bindings (textOf name) (some (inum, off))
    | none => bindings
  | .unlink name _ =>
    match r with
    | some _ => Function.update bindings (textOf name) none
    | none => bindings

/-- Of each name the last `dirlink` that succeeded and was not undone. -/
def surviving : Bindings → List Op → List (Option Nat) → Bindings
  | bindings, op :: ops, r :: rs => surviving (op.bind bindings r) ops rs
  | bindings, _, _ => bindings

def Op.name : Op → Bytes
  | .dirlink name _ _ _ => name
  | .unlink name _ => name

/-- An inode number fits into an entry. -/
def Op.Fits : Op → Prop
  | .dirlink _ inum _ _ => 0 < inum ∧ inum < 2 ^ 16
  | .unlink _ _ => True

/-- The names and numbers in the directory are these. -/
structure Holds (d : Dir) (bindings : Bindings) : Prop where
  sound : Sound d
  entry : ∀ text inum off, bindings text = some (inum, off) ↔ Entry d text inum off

theorem Holds.dirlookup {bindings : Bindings} (holds : Holds d bindings) (name : Bytes) :
    dirlookup d name = .ok (bindings (textOf name)) := by
  obtain ⟨r, ran, found⟩ := dirlookup_spec holds.sound name
  rw [ran]
  congr 1
  apply Option.ext
  rintro ⟨inum, off⟩
  rw [found, holds.entry]

/-- One call. -/
theorem Holds.perform {bindings : Bindings} (holds : Holds d bindings) {op : Op}
    (fits : op.Fits) : ∃ r d', op.perform d = .ok (r, d') ∧ Holds d' (op.bind bindings r) ∧
      (r = none → d' = d) := by
  cases op with
  | dirlink name inum space de =>
    have small : inum % 2 ^ 16 = inum := Nat.mod_eq_of_lt fits.2
    have nonzero : inum % 2 ^ 16 ≠ 0 := by
      have pos := fits.1
      omega
    obtain ⟨r, d', ran, sound, same, taken, entries⟩ :=
      @dirlink_spec d inum space holds.sound name de nonzero
    refine ⟨r, d', ran, ⟨sound, ?_⟩, same⟩
    intro text i o
    cases r with
    | none => rw [same rfl, Op.bind, holds.entry]
    | some off =>
      obtain ⟨unused, exact⟩ := entries off rfl
      rw [Op.bind, exact]
      have new : ∀ i o, ¬ Entry d (textOf name) i o := fun i o entry => by
        cases taken ⟨i, o, entry⟩
      by_cases here : text = textOf name
      · rw [here, Function.update_self]
        split
        next same =>
          rw [same, small]
          simp [eq_comm]
        next other =>
          refine ⟨fun eq => ?_, fun entry => absurd entry (new i o)⟩
          cases eq
          exact absurd rfl other
      · rw [Function.update_of_ne here, holds.entry]
        split
        next same =>
          refine ⟨fun entry => ?_, fun both => absurd both.2 here⟩
          exact absurd (same ▸ entry) (unused text i)
        next => rfl
  | unlink name busy =>
    obtain ⟨r, d', ran, sound, same, entries⟩ := unlink_spec holds.sound name busy
    refine ⟨r, d', ran, ⟨sound, ?_⟩, same⟩
    intro text i o
    cases r with
    | none => rw [same rfl, Op.bind, holds.entry]
    | some off =>
      obtain ⟨⟨inum, here⟩, exact⟩ := entries off rfl
      rw [Op.bind, exact]
      by_cases named : text = textOf name
      · rw [named, Function.update_self]
        refine ⟨(fun no => by cases no), fun both => ?_⟩
        exact absurd (holds.sound.distinct _ _ _ _ _ both.2 here) both.1
      · rw [Function.update_of_ne named, holds.entry]
        refine ⟨fun entry => ⟨?_, entry⟩, fun both => both.2⟩
        rintro rfl
        exact named (entry.name.symm.trans here.name)

/-- What a call leaves alone: everything if it fails, and the other names in any case. -/
theorem Holds.others {bindings : Bindings} (holds : Holds d bindings) {op : Op} (fits : op.Fits)
    {r : Option Nat} (ran : op.perform d = .ok (r, d')) {name : Bytes}
    (other : textOf name ≠ textOf op.name) :
    Dirlink.dirlookup d' name = Dirlink.dirlookup d name := by
  obtain ⟨r', d'', ran', holds', -⟩ := holds.perform fits
  rw [ran] at ran'
  cases ran'
  rw [holds'.dirlookup, holds.dirlookup]
  congr 1
  cases op <;> cases r <;> first | rfl | exact Function.update_of_ne other _ _

/-- The write of a new entry fails. -/
def WriteFails (d : Dir) (name : Bytes) (inum : Nat) (space : Bool) (de : Bytes) : Prop :=
  ∀ off, emptyLoop d 0 = .ok off → d.writei (dirent name inum de) off space = none

theorem dirlink_none_iff {bindings : Bindings} (holds : Holds d bindings) {name de : Bytes}
    {space : Bool} {r : Option Nat} (ran : dirlink d name inum space de = .ok (r, d')) :
    r = none ↔ bindings (textOf name) ≠ none ∨ WriteFails d name inum space de := by
  rw [dirlink, holds.dirlookup] at ran
  dsimp only [bind, Except.bind] at ran
  cases there : bindings (textOf name) with
  | some entry =>
    rw [there] at ran
    cases ran
    exact ⟨fun _ => .inl (Option.some_ne_none entry), fun _ => rfl⟩
  | none =>
    rw [there] at ran
    dsimp only at ran
    obtain ⟨off, found, -⟩ := @emptyLoop_spec d 0 holds.sound rfl (Nat.zero_le _)
    rw [found] at ran
    dsimp only at ran
    have fails : WriteFails d name inum space de ↔
        d.writei (dirent name inum de) off space = none := by
      constructor
      · exact fun all => all off found
      · intro fails off' found'
        rw [found] at found'
        cases found'
        exact fails
    rw [fails]
    cases wrote : d.writei (dirent name inum de) off space with
    | none =>
      rw [wrote] at ran
      cases ran
      exact ⟨fun _ => .inr rfl, fun _ => rfl⟩
    | some d₁ =>
      rw [wrote] at ran
      cases ran
      simp

theorem Holds.run {bindings : Bindings} (holds : Holds d bindings) {ops : List Op}
    (fits : ∀ op ∈ ops, op.Fits) : ∃ rs d', run d ops = .ok (rs, d') ∧
      Holds d' (surviving bindings ops rs) := by
  induction ops generalizing d bindings with
  | nil => exact ⟨[], d, rfl, holds⟩
  | cons op ops ih =>
    obtain ⟨r, d₁, ran, holds₁, -⟩ := holds.perform (fits op List.mem_cons_self)
    obtain ⟨rs, d', later, holds'⟩ := ih holds₁ fun o mem => fits o (List.mem_cons_of_mem op mem)
    refine ⟨r :: rs, d', ?_, holds'⟩
    rw [Dirlink.run, ran]
    dsimp only [bind, Except.bind]
    rw [later]

/-- A directory with the bindings that survive, and what the next call does to it. -/
structure FiniteMap (d : Dir) (bindings : Bindings) : Prop where
  distinct : ∀ text inum off inum' off', Entry d text inum off → Entry d text inum' off' →
    off = off'
  lookup : ∀ name, dirlookup d name = .ok (bindings (textOf name))
  refused : ∀ name inum space de r d', dirlink d name inum space de = .ok (r, d') →
    0 < inum → inum < 2 ^ 16 →
    (r = none ↔ bindings (textOf name) ≠ none ∨ WriteFails d name inum space de) ∧
      (r = none → d' = d)
  others : ∀ (op : Op) r d', op.Fits → op.perform d = .ok (r, d') → ∀ name,
    textOf name ≠ textOf op.name → dirlookup d' name = dirlookup d name

theorem directory_is_map {bindings : Bindings} (holds : Holds d bindings) {ops : List Op}
    (fits : ∀ op ∈ ops, op.Fits) : ∃ rs d', run d ops = .ok (rs, d') ∧
      FiniteMap d' (surviving bindings ops rs) := by
  obtain ⟨rs, d', ran, holds'⟩ := holds.run fits
  refine ⟨rs, d', ran, holds'.sound.distinct, holds'.dirlookup, ?_, ?_⟩
  · intro name inum space de r d'' linked pos small
    refine ⟨dirlink_none_iff holds' linked, fun failed => ?_⟩
    obtain ⟨r', d₁, linked', -, same⟩ :=
      @Holds.perform d' _ holds' (.dirlink name inum space de) ⟨pos, small⟩
    rw [Op.perform, linked] at linked'
    cases linked'
    exact same failed
  · exact fun op r d'' fits ran name other => holds'.others fits ran other

/-- `mkfs` and `create` begin with it. -/
def emptyDir : Dir := ⟨fun _ => 0, 0⟩

theorem emptyDir_holds : Holds emptyDir fun _ => none := by
  have none : ∀ text inum off, ¬ Entry emptyDir text inum off := fun text inum off entry => by
    have inside : off + direntSize ≤ 0 := entry.inside
    unfold direntSize at inside
    omega
  refine ⟨⟨rfl, fun text inum off _ _ entry => absurd entry (none text inum off)⟩, ?_⟩
  intro text inum off
  exact ⟨(fun no => by cases no), fun entry => absurd entry (none text inum off)⟩

def letter : Bytes := ([97, 0].getD · 0)

theorem directory_is_map_letter : ∃ rs d',
    run emptyDir [.dirlink letter 7 true letter, .unlink letter false] = .ok (rs, d') ∧
      FiniteMap d' (surviving (fun _ => none)
        [.dirlink letter 7 true letter, .unlink letter false] rs) := by
  apply directory_is_map emptyDir_holds
  intro op mem
  simp only [List.mem_cons, List.not_mem_nil, or_false] at mem
  cases mem with
  | inl eq =>
    rw [eq]
    exact ⟨by decide, by decide⟩
  | inr eq =>
    rw [eq]
    trivial

/-- The number 65536 does not fit, and the entry stays empty. -/
theorem dirlink_wraps : ∃ d', dirlink emptyDir letter 65536 true letter = .ok (some 0, d') ∧
    dirlookup d' letter = .ok none := by
  have looked : dirlookup emptyDir letter = .ok none := by
    rw [dirlookup, lookupLoop]
    rfl
  have empty : emptyLoop emptyDir 0 = .ok 0 := by
    rw [emptyLoop]
    rfl
  obtain ⟨d', wrote⟩ : ∃ d', emptyDir.writei (dirent letter 65536 letter) 0 true = some d' :=
    ⟨_, rfl⟩
  obtain ⟨whole, entries⟩ := writei_spec emptyDir_holds.sound rfl le_rfl wrote
  obtain ⟨number, -⟩ := dirent_spec letter 65536 letter
  have none : ∀ text inum off, ¬ Entry d' text inum off := by
    intro text inum off
    rw [entries]
    split
    · rintro ⟨nonzero, eq, -⟩
      exact nonzero (eq.symm.trans number)
    · exact fun entry => by cases (emptyDir_holds.entry text inum off).mpr entry
  refine ⟨d', ?_, ?_⟩
  · rw [dirlink, looked]
    dsimp only [bind, Except.bind]
    rw [empty]
    dsimp only
    rw [wrote]
  · obtain ⟨r, ran, found⟩ := @dirlookup_spec d'
      ⟨whole, fun text inum off _ _ entry => absurd entry (none text inum off)⟩ letter
    cases r with
    | none => exact ran
    | some entry => exact absurd ((found entry.1 entry.2).mp rfl) (none _ _ _)

end Sistemas.Xv6.Dirlink
