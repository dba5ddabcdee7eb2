import Mathlib.Algebra.BigOperators.Group.Finset.Piecewise
import Mathlib.Algebra.Order.BigOperators.Group.Finset
import Sistemas.Xv6.Sysfile

/-! # Links between inodes

What link counts are about: which directory has how many entries for which inode.  The
entries `.` and `..` of a directory are not counted in `count`; what its `..` names is `up`.

* `Sound` — every entry names an allocated inode, a directory has one entry, in its parent,
  and its link count is the number of its names and subdirectories.  The count of a file
  is at least the number of its names, up to a wrap of the 16-bit field.
* `Anchored` — what `..` names is a directory.
* `Exact` — the count of a file is exact, a directory without links is empty, and the ones
  with links are reachable from the root.

`Created`, `Linked`, `Unlinked` and `Freed` are the changes.
-/

namespace Sistemas.Xv6.Sysfile

structure LinkGraph where
  type : Nat → FileType
  nlink : Nat → Int
  up : Nat → Nat
  count : Nat → Nat → Nat

namespace LinkGraph

variable {v w : LinkGraph} {dp ip i : Nat}

/-- The entries for inode `i`, in all directories. -/
def names (v : LinkGraph) (i : Nat) : Nat := ∑ d ∈ Finset.range Mkfs.ninodes, v.count d i

/-- The entries of directory `d` for directories. -/
def subdirs (v : LinkGraph) (d : Nat) : Nat :=
  ∑ c ∈ Finset.range Mkfs.ninodes, if v.type c = .dir then v.count d c else 0

structure Sound (v : LinkGraph) : Prop where
  range : ∀ i, v.type i ≠ .free → 0 < i ∧ i < Mkfs.ninodes
  named : ∀ d c, 0 < v.count d c → v.type d = .dir ∧ v.type c ≠ .free
  parent : ∀ d c, 0 < v.count d c → v.type c = .dir → v.up c = d ∧ c ≠ rootino
  single : ∀ c, v.type c = .dir → v.names c ≤ 1
  root : v.type rootino = .dir
  root_up : v.up rootino = rootino
  dirs : ∀ d, v.type d = .dir →
    v.nlink d = v.names d + v.subdirs d + if d = rootino then 1 else 0
  files : ∀ i, v.type i ≠ .free → v.type i ≠ .dir → (v.names i : Int) ≤ v.nlink i % 2 ^ 16
  short : ∀ i, v.type i ≠ .free → -2 ^ 15 ≤ v.nlink i ∧ v.nlink i < 2 ^ 15

def Anchored (v : LinkGraph) : Prop := ∀ d, v.type d = .dir → v.type (v.up d) = .dir

inductive Reach (v : LinkGraph) : Nat → Prop
  | root : Reach v rootino
  | entry {d c : Nat} : Reach v d → 0 < v.count d c → Reach v c

structure Exact (v : LinkGraph) : Prop where
  files : ∀ i, v.type i ≠ .free → v.type i ≠ .dir → v.nlink i = v.names i
  bare : ∀ d, v.type d = .dir → v.nlink d = 0 → ∀ c, v.count d c = 0
  reach : ∀ d, v.type d = .dir → v.nlink d ≠ 0 → Reach v d

/-! ## Counting -/

/-- There is one more entry for `ip` in `dp`. -/
def Added (v w : LinkGraph) (dp ip : Nat) : Prop :=
  ∀ d c, w.count d c = v.count d c + if d = dp ∧ c = ip then 1 else 0

theorem Added.names (added : Added v w dp ip) (range : dp < Mkfs.ninodes) (i : Nat) :
    w.names i = v.names i + if i = ip then 1 else 0 := by
  simp only [LinkGraph.names, added _ i, Finset.sum_add_distrib]
  by_cases here : i = ip
  · simp [here, range]
  · simp [here]

theorem Added.subdirs (added : Added v w dp ip) (range : ip < Mkfs.ninodes)
    (others : ∀ c, c ≠ ip → w.type c = v.type c)
    (type : w.type ip = v.type ip ∨ ∀ d, v.count d ip = 0) (d : Nat) :
    w.subdirs d = v.subdirs d + if d = dp ∧ w.type ip = .dir then 1 else 0 := by
  have each : ∀ c, (if w.type c = .dir then w.count d c else 0) =
      (if v.type c = .dir then v.count d c else 0) +
        if c = ip then (if d = dp ∧ w.type ip = .dir then 1 else 0) else 0 := by
    intro c
    rw [added d c]
    by_cases here : c = ip
    · subst here
      rcases type with same | fresh
      · by_cases dir : w.type c = .dir
        · simp [dir, ← same]
        · simp [dir, ← same]
      · by_cases dir : w.type c = .dir
        · simp [dir, fresh d]
        · simp [dir, fresh d]
    · simp [here, others c here]
  simp only [LinkGraph.subdirs, each, Finset.sum_add_distrib]
  simp [range]

theorem count_le_names (range : dp < Mkfs.ninodes) : v.count dp i ≤ v.names i :=
  Finset.single_le_sum (f := fun d => v.count d i) (fun _ _ => Nat.zero_le _)
    (Finset.mem_range.mpr range)

theorem names_pos (named : 0 < v.names i) : ∃ d, 0 < v.count d i := by
  by_contra none
  simp only [not_exists, Nat.not_lt, Nat.le_zero] at none
  simp [names, none] at named

theorem subdirs_pos (range : ip < Mkfs.ninodes) (dir : v.type ip = .dir)
    (entry : 0 < v.count dp ip) : 0 < v.subdirs dp := by
  have le := Finset.single_le_sum (f := fun c => if v.type c = .dir then v.count dp c else 0)
    (fun _ _ => Nat.zero_le _) (Finset.mem_range.mpr range)
  simp only [dir, if_true] at le
  exact lt_of_lt_of_le entry le

theorem subdirs_zero (empty : ∀ c, v.count dp c = 0) : v.subdirs dp = 0 := by
  simp [subdirs, empty]

namespace Sound

theorem unnamed (sound : Sound v) (free : v.type i = .free) (d : Nat) : v.count d i = 0 := by
  by_contra some
  exact (sound.named d i (by omega)).2 free

theorem entries_dir (sound : Sound v) (notDir : v.type dp ≠ .dir) (c : Nat) :
    v.count dp c = 0 := by
  by_contra some
  exact notDir (sound.named dp c (by omega)).1

theorem dir_range (sound : Sound v) (dir : v.type dp = .dir) : 0 < dp ∧ dp < Mkfs.ninodes :=
  sound.range dp (by rw [dir]; exact nofun)

theorem named_range (sound : Sound v) (entry : 0 < v.count dp ip) :
    dp < Mkfs.ninodes ∧ ip < Mkfs.ninodes := by
  obtain ⟨dir, typed⟩ := sound.named dp ip entry
  exact ⟨(sound.dir_range dir).2, (sound.range ip typed).2⟩

theorem names_free (sound : Sound v) (free : v.type i = .free) : v.names i = 0 := by
  simp [names, sound.unnamed free]

/-- A directory is named once, so there are not more subdirectories than inodes. -/
theorem subdirs_le (sound : Sound v) (dir : v.type dp = .dir) : v.subdirs dp ≤ Mkfs.ninodes := by
  have each : ∀ c ∈ Finset.range Mkfs.ninodes,
      (if v.type c = .dir then v.count dp c else 0) ≤ 1 := by
    intro c _
    split
    · next isDir =>
      exact le_trans (count_le_names (sound.dir_range dir).2) (sound.single c isDir)
    · exact Nat.zero_le _
  simpa [subdirs] using Finset.sum_le_card_nsmul _ _ 1 each

theorem nlink_dir (sound : Sound v) (dir : v.type dp = .dir) :
    0 ≤ v.nlink dp ∧ v.nlink dp ≤ 202 := by
  have count := sound.dirs dp dir
  have names := sound.single dp dir
  have subdirs : v.subdirs dp ≤ 200 := sound.subdirs_le dir
  split at count
  · omega
  · omega

theorem root_linked (sound : Sound v) : 0 < v.nlink rootino := by
  have count := sound.dirs rootino sound.root
  rw [if_pos rfl] at count
  omega

/-- Who has no links has no names. -/
theorem names_zero (sound : Sound v) (typed : v.type i ≠ .free) (nlink : v.nlink i = 0) :
    v.names i = 0 := by
  by_cases dir : v.type i = .dir
  · have := sound.dirs i dir
    split at this
    · omega
    · omega
  · have := sound.files i typed dir
    rw [nlink] at this
    omega

end Sound

/-! ## Changes -/

/-- Inode `ip` is allocated, with an entry in `dp`. -/
structure Created (v w : LinkGraph) (type : FileType) (ip dp : Nat) : Prop where
  fresh : v.type ip = .free
  range : 0 < ip ∧ ip < Mkfs.ninodes
  typed : type ≠ .free
  dir : v.type dp = .dir
  new : w.type ip = type ∧ w.nlink ip = 1 ∧ (type = .dir → w.up ip = dp)
  others : ∀ i, i ≠ ip → w.type i = v.type i ∧ w.up i = v.up i ∧
    (i ≠ dp → w.nlink i = v.nlink i)
  counted : w.nlink dp = if type = .dir then (v.nlink dp + 1).bmod (2 ^ 16) else v.nlink dp
  added : Added v w dp ip

/-- A file gets another entry. -/
structure Linked (v w : LinkGraph) (ip dp : Nat) : Prop where
  typed : v.type ip ≠ .free
  notDir : v.type ip ≠ .dir
  dir : v.type dp = .dir
  others : ∀ i, w.type i = v.type i ∧ w.up i = v.up i ∧ (i ≠ ip → w.nlink i = v.nlink i)
  counted : w.nlink ip = (v.nlink ip + 1).bmod (2 ^ 16)
  added : Added v w dp ip

/-- The entry for `ip` in `dp` is cleared; if it is a directory, it is empty. -/
structure Unlinked (v w : LinkGraph) (ip dp : Nat) : Prop where
  ne : dp ≠ ip
  linked : 1 ≤ v.nlink ip
  empty : v.type ip = .dir → ∀ c, v.count ip c = 0
  others : ∀ i, w.type i = v.type i ∧ w.up i = v.up i ∧
    (i ≠ ip → i ≠ dp → w.nlink i = v.nlink i)
  counted : w.nlink ip = (v.nlink ip + -1).bmod (2 ^ 16)
  counted_dp : w.nlink dp =
    if v.type ip = .dir then (v.nlink dp + -1).bmod (2 ^ 16) else v.nlink dp
  added : Added w v dp ip

/-- Inode `ip`, which has no links, becomes free. -/
structure Freed (v w : LinkGraph) (ip : Nat) : Prop where
  typed : v.type ip ≠ .free
  nlink : v.nlink ip = 0
  free : w.type ip = .free
  others : ∀ i, i ≠ ip → w.type i = v.type i ∧ w.up i = v.up i ∧ w.nlink i = v.nlink i
  count : ∀ d c, w.count d c = if d = ip then 0 else v.count d c

/-- The allocated inodes stay as they are. -/
structure Unchanged (v w : LinkGraph) : Prop where
  type : ∀ i, w.type i = v.type i
  same : ∀ i, v.type i ≠ .free → w.up i = v.up i ∧ w.nlink i = v.nlink i
  count : ∀ d c, w.count d c = v.count d c

namespace Sound

theorem unchanged (sound : Sound v) (change : Unchanged v w) : Sound w := by
  have names : ∀ i, w.names i = v.names i := by
    intro i
    simp only [LinkGraph.names, change.count]
  have subdirs : ∀ d, w.subdirs d = v.subdirs d := by
    intro d
    simp only [LinkGraph.subdirs, change.count, change.type]
  constructor
  · intro i typed
    rw [change.type] at typed
    exact sound.range i typed
  · intro d c entry
    rw [change.count] at entry
    rw [change.type, change.type]
    exact sound.named d c entry
  · intro d c entry dir
    rw [change.count] at entry
    rw [change.type] at dir
    rw [(change.same c (sound.named d c entry).2).1]
    exact sound.parent d c entry dir
  · intro c dir
    rw [change.type] at dir
    rw [names]
    exact sound.single c dir
  · rw [change.type]
    exact sound.root
  · rw [(change.same rootino (by rw [sound.root]; exact nofun)).1]
    exact sound.root_up
  · intro d dir
    rw [change.type] at dir
    rw [(change.same d (by rw [dir]; exact nofun)).2, names, subdirs]
    exact sound.dirs d dir
  · intro i typed notDir
    rw [change.type] at typed notDir
    rw [(change.same i typed).2, names]
    exact sound.files i typed notDir
  · intro i typed
    rw [change.type] at typed
    rw [(change.same i typed).2]
    exact sound.short i typed

theorem created {type : FileType} (sound : Sound v) (change : Created v w type ip dp) :
    Sound w := by
  obtain ⟨fresh, range, typed, dir, ⟨type_ip, nlink_ip, up_ip⟩, others, counted, added⟩ := change
  have unnamed := sound.unnamed fresh
  have bare : ∀ c, v.count ip c = 0 := sound.entries_dir (by rw [fresh]; exact nofun)
  have range_dp := (sound.dir_range dir).2
  have ne : dp ≠ ip := by
    rintro rfl
    rw [fresh] at dir
    cases dir
  have root : ip ≠ rootino := by
    rintro rfl
    rw [sound.root] at fresh
    cases fresh
  have names := added.names range_dp
  have subdirs := added.subdirs range.2 (fun c other => (others c other).1) (.inr unnamed)
  have type_of : ∀ i, i ≠ ip → w.type i = v.type i := fun i other => (others i other).1
  -- an entry is the new one, or an old one between other inodes
  have old : ∀ d c, 0 < w.count d c → (d = dp ∧ c = ip) ∨
      (0 < v.count d c ∧ d ≠ ip ∧ c ≠ ip) := by
    intro d c entry
    by_cases new : d = dp ∧ c = ip
    · exact .inl new
    · rw [added, if_neg new, Nat.add_zero] at entry
      refine .inr ⟨entry, ?_, ?_⟩
      · rintro rfl
        rw [bare] at entry
        cases entry
      · rintro rfl
        rw [unnamed] at entry
        cases entry
  have nlink_dp : w.nlink dp = v.nlink dp + if type = .dir then 1 else 0 := by
    have bound := sound.nlink_dir dir
    rw [counted]
    split
    · rw [Int.bmod_eq_of_le (by omega) (by omega)]
    · rw [Int.add_zero]
  constructor
  · intro i typedI
    by_cases here : i = ip
    · rwa [here]
    · rw [type_of i here] at typedI
      exact sound.range i typedI
  · intro d c entry
    rcases old d c entry with ⟨rfl, rfl⟩ | ⟨entry, d_ne, c_ne⟩
    · rw [type_of d ne, type_ip]
      exact ⟨dir, typed⟩
    · rw [type_of d d_ne, type_of c c_ne]
      exact sound.named d c entry
  · intro d c entry isDir
    rcases old d c entry with ⟨rfl, rfl⟩ | ⟨entry, d_ne, c_ne⟩
    · rw [type_ip] at isDir
      exact ⟨up_ip isDir, root⟩
    · rw [type_of c c_ne] at isDir
      rw [(others c c_ne).2.1]
      exact sound.parent d c entry isDir
  · intro c isDir
    rw [names c]
    by_cases here : c = ip
    · rw [here, if_pos rfl, sound.names_free fresh]
    · rw [type_of c here] at isDir
      rw [if_neg here, Nat.add_zero]
      exact sound.single c isDir
  · rw [type_of _ root.symm]
    exact sound.root
  · rw [(others _ root.symm).2.1]
    exact sound.root_up
  · intro d isDir
    by_cases here : d = ip
    · subst here
      rw [nlink_ip, names, subdirs, if_pos rfl, sound.names_free fresh, subdirs_zero bare,
        if_neg (fun both => ne both.1.symm), if_neg root]
      rfl
    · rw [type_of d here] at isDir
      rw [names, subdirs, if_neg here, type_ip]
      have count := sound.dirs d isDir
      by_cases parent : d = dp
      · subst parent
        rw [nlink_dp, count]
        simp only [true_and]
        push_cast
        omega
      · have elsewhere : ¬ (d = dp ∧ type = .dir) := fun both => parent both.1
        rw [(others d here).2.2 parent, if_neg elsewhere, Nat.add_zero, Nat.add_zero]
        exact count
  · intro i typedI notDir
    by_cases here : i = ip
    · subst here
      rw [nlink_ip, names, if_pos rfl, sound.names_free fresh]
      decide
    · rw [type_of i here] at typedI notDir
      have other : i ≠ dp := by
        rintro rfl
        exact notDir dir
      rw [(others i here).2.2 other, names, if_neg here, Nat.add_zero]
      exact sound.files i typedI notDir
  · intro i typedI
    by_cases here : i = ip
    · rw [here, nlink_ip]
      decide
    · rw [type_of i here] at typedI
      by_cases parent : i = dp
      · have bound := sound.nlink_dir dir
        rw [parent, nlink_dp]
        split
        · omega
        · omega
      · rw [(others i here).2.2 parent]
        exact sound.short i typedI

theorem linked (sound : Sound v) (change : Linked v w ip dp) (below : v.nlink ip ≠ -1) :
    Sound w := by
  obtain ⟨typed, notDir, dir, others, counted, added⟩ := change
  have range_dp := (sound.dir_range dir).2
  have names := added.names range_dp
  have type_of : ∀ i, w.type i = v.type i := fun i => (others i).1
  have subdirs := added.subdirs (sound.range ip typed).2 (fun c _ => type_of c) (.inl (type_of ip))
  have old : ∀ d c, 0 < w.count d c → (d = dp ∧ c = ip) ∨ 0 < v.count d c := by
    intro d c entry
    by_cases new : d = dp ∧ c = ip
    · exact .inl new
    · rw [added, if_neg new, Nat.add_zero] at entry
      exact .inr entry
  constructor
  · intro i typedI
    rw [type_of] at typedI
    exact sound.range i typedI
  · intro d c entry
    rw [type_of, type_of]
    rcases old d c entry with ⟨rfl, rfl⟩ | entry
    · exact ⟨dir, typed⟩
    · exact sound.named d c entry
  · intro d c entry isDir
    rw [type_of] at isDir
    rcases old d c entry with ⟨rfl, rfl⟩ | entry
    · exact absurd isDir notDir
    · rw [(others c).2.1]
      exact sound.parent d c entry isDir
  · intro c isDir
    rw [type_of] at isDir
    have other : c ≠ ip := by
      rintro rfl
      exact notDir isDir
    rw [names, if_neg other, Nat.add_zero]
    exact sound.single c isDir
  · rw [type_of]
    exact sound.root
  · rw [(others rootino).2.1]
    exact sound.root_up
  · intro d isDir
    rw [type_of] at isDir
    have other : d ≠ ip := by
      rintro rfl
      exact notDir isDir
    have same : ¬ (d = dp ∧ w.type ip = .dir) := by
      rw [type_of]
      exact fun both => notDir both.2
    rw [(others d).2.2 other, names, subdirs, if_neg other, if_neg same, Nat.add_zero, Nat.add_zero]
    exact sound.dirs d isDir
  · intro i typedI notDirI
    rw [type_of] at typedI notDirI
    have files := sound.files i typedI notDirI
    rw [names]
    by_cases here : i = ip
    · have short := sound.short ip typed
      subst here
      have wrap : (v.nlink i + 1).bmod (2 ^ 16) % 2 ^ 16 = (v.nlink i + 1) % 2 ^ 16 := Int.bmod_emod
      rw [counted, if_pos rfl, wrap]
      push_cast
      omega
    · rw [(others i).2.2 here, if_neg here, Nat.add_zero]
      exact files
  · intro i typedI
    rw [type_of] at typedI
    by_cases here : i = ip
    · rw [here, counted]
      exact ⟨Int.le_bmod (by decide), Int.bmod_lt (by decide)⟩
    · rw [(others i).2.2 here]
      exact sound.short i typedI

theorem unlinked (sound : Sound v) (change : Unlinked v w ip dp) : Sound w := by
  obtain ⟨ne, linked, empty, others, counted, counted_dp, added⟩ := change
  have entry : 0 < v.count dp ip := by
    rw [added, if_pos ⟨rfl, rfl⟩]
    exact Nat.succ_pos _
  obtain ⟨dir, typed⟩ := sound.named dp ip entry
  have range_dp := (sound.dir_range dir).2
  have range_ip := (sound.range ip typed).2
  have names := added.names range_dp
  have type_of : ∀ i, w.type i = v.type i := fun i => (others i).1
  have subdirs := added.subdirs range_ip (fun c _ => (type_of c).symm) (.inl (type_of ip).symm)
  have nlink_ip : w.nlink ip = v.nlink ip - 1 := by
    have short := sound.short ip typed
    rw [counted, Int.bmod_eq_of_le (by omega) (by omega)]
    rfl
  have nlink_dp : w.nlink dp = v.nlink dp - if v.type ip = .dir then 1 else 0 := by
    rw [counted_dp]
    split
    · next isDir =>
      have bound := sound.nlink_dir dir
      rw [Int.bmod_eq_of_le (by omega) (by omega)]
      rfl
    · rw [Int.sub_zero]
  have old : ∀ d c, 0 < w.count d c → 0 < v.count d c := by
    intro d c entry
    rw [added]
    exact Nat.add_pos_left entry _
  constructor
  · intro i typedI
    rw [type_of] at typedI
    exact sound.range i typedI
  · intro d c entry
    rw [type_of, type_of]
    exact sound.named d c (old d c entry)
  · intro d c entry isDir
    rw [type_of] at isDir
    rw [(others c).2.1]
    exact sound.parent d c (old d c entry) isDir
  · intro c isDir
    rw [type_of] at isDir
    have := sound.single c isDir
    rw [names] at this
    omega
  · rw [type_of]
    exact sound.root
  · rw [(others rootino).2.1]
    exact sound.root_up
  · intro d isDir
    rw [type_of] at isDir
    have count := sound.dirs d isDir
    rw [names, subdirs] at count
    by_cases here : d = ip
    · subst here
      rw [if_pos rfl, if_neg (fun both => ne both.1.symm)] at count
      rw [nlink_ip, count]
      push_cast
      omega
    · rw [if_neg here] at count
      by_cases parent : d = dp
      · subst parent
        simp only [true_and] at count
        rw [nlink_dp, count]
        push_cast
        omega
      · have elsewhere : ¬ (d = dp ∧ v.type ip = .dir) := fun both => parent both.1
        rw [if_neg elsewhere, Nat.add_zero, Nat.add_zero] at count
        rw [(others d).2.2 here parent, count]
  · intro i typedI notDirI
    rw [type_of] at typedI notDirI
    have files := sound.files i typedI notDirI
    have other : i ≠ dp := by
      rintro rfl
      exact notDirI dir
    rw [names] at files
    by_cases here : i = ip
    · have short := sound.short ip typed
      subst here
      rw [if_pos rfl] at files
      rw [nlink_ip]
      push_cast at files
      omega
    · rw [if_neg here, Nat.add_zero] at files
      rw [(others i).2.2 here other]
      exact files
  · intro i typedI
    rw [type_of] at typedI
    have short := sound.short i typedI
    by_cases here : i = ip
    · subst here
      rw [nlink_ip]
      omega
    · by_cases parent : i = dp
      · have bound := sound.nlink_dir dir
        rw [parent, nlink_dp]
        split
        · omega
        · omega
      · rw [(others i).2.2 here parent]
        exact short

/-- A directory without links was there before, without links. -/
theorem created_zero {type : FileType} (sound : Sound v) (change : Created v w type ip dp)
    (isDir : w.type i = .dir) (nlink : w.nlink i = 0) : v.type i = .dir ∧ v.nlink i = 0 := by
  obtain ⟨-, -, -, -, ⟨-, one, -⟩, others, counted, -⟩ := change
  have other : i ≠ ip := by
    rintro rfl
    rw [one] at nlink
    cases nlink
  have dir : v.type i = .dir := (others i other).1.symm.trans isDir
  refine ⟨dir, ?_⟩
  by_cases parent : i = dp
  · have bound := sound.nlink_dir dir
    rw [parent] at nlink bound ⊢
    rw [counted] at nlink
    split at nlink
    · rw [Int.bmod_eq_of_le (by omega) (by omega)] at nlink
      omega
    · exact nlink
  · exact ((others i other).2.2 parent).symm.trans nlink

theorem linked_zero (change : Linked v w ip dp) (isDir : w.type i = .dir)
    (nlink : w.nlink i = 0) : v.type i = .dir ∧ v.nlink i = 0 := by
  have dir : v.type i = .dir := (change.others i).1.symm.trans isDir
  exact ⟨dir, ((change.others i).2.2 fun eq => change.notDir (eq ▸ dir)).symm.trans nlink⟩

/-- A directory is left without links if it had no others. -/
theorem unlinked_zero_iff (sound : Sound v) (change : Unlinked v w ip dp) (isDir : v.type i = .dir) :
    w.nlink i = 0 ↔
      v.nlink i = ((if i = ip then 1 else 0) + if i = dp ∧ v.type ip = .dir then 1 else 0 : Nat) := by
  obtain ⟨ne, -, -, others, counted, counted_dp, -⟩ := change
  have bound := sound.nlink_dir isDir
  by_cases here : i = ip
  · have away : ¬ (i = dp ∧ v.type ip = .dir) := fun both => ne (both.1.symm.trans here)
    rw [if_pos here, if_neg away, here, counted, ← here, Int.bmod_eq_of_le (by omega) (by omega)]
    omega
  · rw [if_neg here]
    by_cases parent : i = dp
    · rw [parent] at bound ⊢
      rw [counted_dp]
      by_cases removed : v.type ip = .dir
      · rw [if_pos removed, if_pos ⟨rfl, removed⟩, Int.bmod_eq_of_le (by omega) (by omega)]
        omega
      · rw [if_neg removed, if_neg fun both => removed both.2]
        omega
    · rw [if_neg fun both => parent both.1, (others i).2.2 here parent]
      omega

/-- A directory that loses its entry has no links left. -/
theorem unlinked_dir (sound : Sound v) (change : Unlinked v w ip dp) (isDir : v.type ip = .dir) :
    w.nlink ip = 0 := by
  have sound' := sound.unlinked change
  obtain ⟨ne, -, empty, others, -, -, added⟩ := change
  have entry : 0 < v.count dp ip := by
    rw [added, if_pos ⟨rfl, rfl⟩]
    exact Nat.succ_pos _
  have count := sound'.dirs ip ((others ip).1.trans isDir)
  have single := sound.single ip isDir
  have root := (sound.parent dp ip entry isDir).2
  have childless : w.subdirs ip = 0 := by
    refine subdirs_zero fun c => ?_
    have := added ip c
    rw [empty isDir] at this
    omega
  rw [added.names (sound.named_range entry).1, if_pos rfl] at single
  rw [childless, if_neg root] at count
  omega

theorem freed (sound : Sound v) (change : Freed v w ip) : Sound w := by
  obtain ⟨typed, nlink, free, others, count⟩ := change
  have range_ip := (sound.range ip typed).2
  have unnamed : ∀ d, v.count d ip = 0 := by
    intro d
    by_contra some
    have le := count_le_names (v := v) (i := ip) (sound.named_range (Nat.pos_of_ne_zero some)).1
    have := sound.names_zero typed nlink
    omega
  -- a directory without links has no subdirectory
  have childless : ∀ c, v.type c = .dir → v.count ip c = 0 := by
    intro c isDir
    by_contra some
    have entry := Nat.pos_of_ne_zero some
    have dir := (sound.named ip c entry).1
    have subdir := subdirs_pos (sound.named_range entry).2 isDir entry
    have := sound.dirs ip dir
    split at this
    · omega
    · omega
  have root : ip ≠ rootino := by
    rintro rfl
    have := sound.root_linked
    omega
  have type_of : ∀ i, w.type i ≠ .free → i ≠ ip ∧ w.type i = v.type i := by
    intro i typedI
    have other : i ≠ ip := by
      rintro rfl
      exact typedI free
    exact ⟨other, (others i other).1⟩
  have dir_of : ∀ i, w.type i = .dir → i ≠ ip ∧ v.type i = .dir := by
    intro i isDir
    obtain ⟨other, same⟩ := type_of i (by rw [isDir]; exact nofun)
    exact ⟨other, same ▸ isDir⟩
  have old : ∀ d c, 0 < w.count d c → 0 < v.count d c ∧ d ≠ ip ∧ c ≠ ip := by
    intro d c entry
    rw [count] at entry
    split at entry
    · cases entry
    · next other =>
      refine ⟨entry, other, ?_⟩
      rintro rfl
      rw [unnamed] at entry
      cases entry
  have names_le : ∀ i, w.names i ≤ v.names i := by
    intro i
    apply Finset.sum_le_sum
    intro d _
    rw [count]
    split
    · exact Nat.zero_le _
    · exact Nat.le_refl _
  have names : ∀ i, v.type i = .dir → w.names i = v.names i := by
    intro i isDir
    apply Finset.sum_congr rfl
    intro d _
    rw [count]
    split
    · next here => rw [here, childless i isDir]
    · rfl
  have subdirs : ∀ d, d ≠ ip → w.subdirs d = v.subdirs d := by
    intro d other
    apply Finset.sum_congr rfl
    intro c _
    rw [count, if_neg other]
    by_cases here : c = ip
    · simp [here, unnamed]
    · rw [(others c here).1]
  constructor
  · intro i typedI
    obtain ⟨-, same⟩ := type_of i typedI
    rw [same] at typedI
    exact sound.range i typedI
  · intro d c entry
    obtain ⟨entry, d_ne, c_ne⟩ := old d c entry
    rw [(others d d_ne).1, (others c c_ne).1]
    exact sound.named d c entry
  · intro d c entry isDir
    obtain ⟨entry, -, c_ne⟩ := old d c entry
    rw [(others c c_ne).2.1]
    exact sound.parent d c entry (dir_of c isDir).2
  · intro c isDir
    exact le_trans (names_le c) (sound.single c (dir_of c isDir).2)
  · rw [(others _ root.symm).1]
    exact sound.root
  · rw [(others _ root.symm).2.1]
    exact sound.root_up
  · intro d isDir
    obtain ⟨other, dir⟩ := dir_of d isDir
    rw [(others d other).2.2, names d dir, subdirs d other]
    exact sound.dirs d dir
  · intro i typedI notDir
    obtain ⟨other, same⟩ := type_of i typedI
    rw [same] at typedI notDir
    rw [(others i other).2.2]
    have := names_le i
    have := sound.files i typedI notDir
    omega
  · intro i typedI
    obtain ⟨other, same⟩ := type_of i typedI
    rw [same] at typedI
    rw [(others i other).2.2]
    exact sound.short i typedI

end Sound

/-! ## What `..` names -/

namespace Anchored

theorem unchanged (anchored : Anchored v) (change : Unchanged v w) : Anchored w := by
  intro d dir
  rw [change.type] at dir
  rw [(change.same d (by rw [dir]; exact nofun)).1, change.type]
  exact anchored d dir

theorem created {type : FileType} (anchored : Anchored v) (change : Created v w type ip dp) :
    Anchored w := by
  obtain ⟨fresh, -, -, dir, ⟨type_ip, -, up_ip⟩, others, -, -⟩ := change
  have elsewhere : ∀ i, v.type i = .dir → i ≠ ip := by
    rintro i isDir rfl
    rw [fresh] at isDir
    cases isDir
  intro d isDir
  by_cases here : d = ip
  · subst here
    rw [type_ip] at isDir
    rw [up_ip isDir, (others dp (elsewhere dp dir)).1]
    exact dir
  · rw [(others d here).1] at isDir
    have parent := anchored d isDir
    rw [(others d here).2.1, (others _ (elsewhere _ parent)).1]
    exact parent

/-- The types and what `..` names stay. -/
theorem kept (anchored : Anchored v) (others : ∀ i, w.type i = v.type i ∧ w.up i = v.up i) :
    Anchored w := by
  intro d isDir
  rw [(others d).1] at isDir
  rw [(others d).2, (others _).1]
  exact anchored d isDir

theorem linked (anchored : Anchored v) (change : Linked v w ip dp) : Anchored w :=
  anchored.kept fun i => ⟨(change.others i).1, (change.others i).2.1⟩

theorem unlinked (anchored : Anchored v) (change : Unlinked v w ip dp) : Anchored w :=
  anchored.kept fun i => ⟨(change.others i).1, (change.others i).2.1⟩

end Anchored

/-! ## Reachability and exact counts -/

theorem Reach.mono (more : ∀ d c, v.count d c ≤ w.count d c) (reach : Reach v i) : Reach w i := by
  induction reach with
  | root => exact .root
  | @entry d c _ entry ih => exact .entry ih (lt_of_lt_of_le entry (more d c))

/-- Paths do not go through an inode without entries. -/
theorem Reach.avoid (bare : ∀ c, v.count ip c = 0)
    (others : ∀ d c, d ≠ ip → c ≠ ip → v.count d c ≤ w.count d c) (reach : Reach v i)
    (ne : i ≠ ip) : Reach w i := by
  induction reach with
  | root => exact .root
  | @entry d c _ entry ih =>
    have d_ne : d ≠ ip := by
      rintro rfl
      rw [bare] at entry
      cases entry
    exact .entry (ih d_ne) (lt_of_lt_of_le entry (others d c d_ne ne))

theorem Reach.named (reach : Reach v i) : i = rootino ∨ ∃ d, 0 < v.count d i := by
  cases reach with
  | root => exact .inl rfl
  | @entry d _ _ entry => exact .inr ⟨d, entry⟩

theorem Added.le (added : Added v w dp ip) (d c : Nat) : v.count d c ≤ w.count d c := by
  rw [added]
  exact Nat.le_add_right _ _

namespace Exact

theorem unchanged (exact' : Exact v) (change : Unchanged v w) : Exact w := by
  have names : ∀ i, w.names i = v.names i := by
    intro i
    simp only [LinkGraph.names, change.count]
  have typed : ∀ d, w.type d = .dir → v.type d = .dir ∧ w.nlink d = v.nlink d := by
    intro d dir
    rw [change.type] at dir
    exact ⟨dir, (change.same d (by rw [dir]; exact nofun)).2⟩
  constructor
  · intro i typedI notDir
    rw [change.type] at typedI notDir
    rw [(change.same i typedI).2, names]
    exact exact'.files i typedI notDir
  · intro d dir nlink c
    obtain ⟨dir, same⟩ := typed d dir
    rw [change.count]
    exact exact'.bare d dir (same ▸ nlink) c
  · intro d dir nlink
    obtain ⟨dir, same⟩ := typed d dir
    refine (exact'.reach d dir (same ▸ nlink)).mono fun d c => ?_
    rw [change.count]

theorem created {type : FileType} (exact' : Exact v) (sound : Sound v)
    (change : Created v w type ip dp) (alive : 0 < v.nlink dp) : Exact w := by
  have sound' := sound.created change
  obtain ⟨fresh, range, typed, dir, ⟨type_ip, nlink_ip, up_ip⟩, others, counted, added⟩ := change
  have ne : dp ≠ ip := by
    rintro rfl
    rw [fresh] at dir
    cases dir
  have names := added.names (sound.dir_range dir).2
  have reach_dp : Reach w dp := (exact'.reach dp dir (by omega)).mono added.le
  constructor
  · intro i typedI notDir
    by_cases here : i = ip
    · rw [here, nlink_ip, names, if_pos rfl, sound.names_free fresh]
      rfl
    · rw [(others i here).1] at typedI notDir
      have other : i ≠ dp := by
        rintro rfl
        exact notDir dir
      rw [(others i here).2.2 other, names, if_neg here, Nat.add_zero]
      exact exact'.files i typedI notDir
  · intro d isDir nlink c
    have d_ne : d ≠ ip := by
      rintro rfl
      rw [nlink_ip] at nlink
      cases nlink
    have d_parent : d ≠ dp := by
      rintro rfl
      have bound := sound.nlink_dir dir
      rw [counted] at nlink
      split at nlink
      · rw [Int.bmod_eq_of_le (by omega) (by omega)] at nlink
        omega
      · omega
    rw [(others d d_ne).1] at isDir
    rw [(others d d_ne).2.2 d_parent] at nlink
    rw [added, if_neg (fun both => d_parent both.1), Nat.add_zero]
    exact exact'.bare d isDir nlink c
  · intro d isDir nlink
    by_cases here : d = ip
    · rw [here]
      refine .entry reach_dp ?_
      rw [added, if_pos ⟨rfl, rfl⟩]
      exact Nat.succ_pos _
    · by_cases parent : d = dp
      · rw [parent]
        exact reach_dp
      · rw [(others d here).1] at isDir
        rw [(others d here).2.2 parent] at nlink
        exact (exact'.reach d isDir nlink).mono added.le

theorem linked (exact' : Exact v) (sound : Sound v) (change : Linked v w ip dp)
    (alive : 0 < v.nlink dp) (below : v.nlink ip < 2 ^ 15 - 1) : Exact w := by
  obtain ⟨typed, notDir, dir, others, counted, added⟩ := change
  have names := added.names (sound.dir_range dir).2
  have type_of : ∀ i, w.type i = v.type i := fun i => (others i).1
  have dir_of : ∀ d, w.type d = .dir → v.type d = .dir ∧ w.nlink d = v.nlink d := by
    intro d isDir
    rw [type_of] at isDir
    refine ⟨isDir, (others d).2.2 ?_⟩
    rintro rfl
    exact notDir isDir
  constructor
  · intro i typedI notDirI
    rw [type_of] at typedI notDirI
    have files := exact'.files i typedI notDirI
    rw [names]
    by_cases here : i = ip
    · subst here
      rw [counted, if_pos rfl, Int.bmod_eq_of_le (by omega) (by omega), files]
      rfl
    · rw [(others i).2.2 here, if_neg here, Nat.add_zero]
      exact files
  · intro d isDir nlink c
    obtain ⟨isDir, same⟩ := dir_of d isDir
    have d_parent : d ≠ dp := by
      rintro rfl
      omega
    rw [added, if_neg (fun both => d_parent both.1), Nat.add_zero]
    exact exact'.bare d isDir (same ▸ nlink) c
  · intro d isDir nlink
    obtain ⟨isDir, same⟩ := dir_of d isDir
    exact (exact'.reach d isDir (same ▸ nlink)).mono added.le

theorem unlinked (exact' : Exact v) (sound : Sound v) (change : Unlinked v w ip dp) : Exact w := by
  have sound' := sound.unlinked change
  have nlink_ip := sound.unlinked_dir change
  obtain ⟨ne, linked, empty, others, counted, counted_dp, added⟩ := change
  have entry : 0 < v.count dp ip := by
    rw [added, if_pos ⟨rfl, rfl⟩]
    exact Nat.succ_pos _
  obtain ⟨dir, typed⟩ := sound.named dp ip entry
  have range_dp := (sound.dir_range dir).2
  have names := added.names range_dp
  have type_of : ∀ i, w.type i = v.type i := fun i => (others i).1
  have bare : ∀ c, v.count ip c = 0 := by
    by_cases isDir : v.type ip = .dir
    · exact empty isDir
    · exact sound.entries_dir isDir
  have kept : ∀ d c, d ≠ ip → c ≠ ip → v.count d c ≤ w.count d c := by
    intro d c _ c_ne
    rw [added, if_neg (fun both => c_ne both.2), Nat.add_zero]
  have linked_dp : v.nlink dp ≠ 0 := by
    intro nlink
    rw [exact'.bare dp dir nlink ip] at entry
    cases entry
  -- a directory in the tree keeps its own name
  have alive_dp : w.nlink dp ≠ 0 := by
    have count := sound'.dirs dp (by rw [type_of, dir])
    rcases (exact'.reach dp dir linked_dp).named with root | ⟨d, named⟩
    · rw [if_pos root] at count
      omega
    · have named' := lt_of_lt_of_le named (count_le_names (sound.named_range named).1)
      rw [names, if_neg ne] at named'
      split at count
      · omega
      · omega
  constructor
  · intro i typedI notDirI
    rw [type_of] at typedI notDirI
    have files := exact'.files i typedI notDirI
    have other : i ≠ dp := by
      rintro rfl
      exact notDirI dir
    rw [names] at files
    by_cases here : i = ip
    · have short := sound.short ip typed
      subst here
      rw [if_pos rfl] at files
      rw [counted, Int.bmod_eq_of_le (by omega) (by omega)]
      push_cast at files
      omega
    · rw [if_neg here, Nat.add_zero] at files
      rw [(others i).2.2 here other]
      exact files
  · intro d isDir nlink c
    rw [type_of] at isDir
    have fewer := added.le d c
    by_cases here : d = ip
    · rw [here, bare] at fewer
      rw [here]
      omega
    · have other : d ≠ dp := by
        rintro rfl
        exact alive_dp nlink
      rw [(others d).2.2 here other] at nlink
      rw [exact'.bare d isDir nlink] at fewer
      omega
  · intro d isDir nlink
    rw [type_of] at isDir
    have here : d ≠ ip := by
      rintro rfl
      exact nlink (nlink_ip isDir)
    have old : v.nlink d ≠ 0 := by
      by_cases parent : d = dp
      · rw [parent]
        exact linked_dp
      · rw [(others d).2.2 here parent] at nlink
        exact nlink
    exact (exact'.reach d isDir old).avoid bare kept here

theorem freed (exact' : Exact v) (sound : Sound v) (change : Freed v w ip) : Exact w := by
  obtain ⟨typed, nlink, free, others, count⟩ := change
  have bare : ∀ c, v.count ip c = 0 := by
    by_cases isDir : v.type ip = .dir
    · exact exact'.bare ip isDir nlink
    · exact sound.entries_dir isDir
  have count_eq : ∀ d c, w.count d c = v.count d c := by
    intro d c
    rw [count]
    split
    · next here => rw [here, bare]
    · rfl
  have type_of : ∀ i, w.type i ≠ .free → i ≠ ip ∧ w.type i = v.type i := by
    intro i typedI
    have other : i ≠ ip := by
      rintro rfl
      exact typedI free
    exact ⟨other, (others i other).1⟩
  have dir_of : ∀ i, w.type i = .dir → i ≠ ip ∧ v.type i = .dir := by
    intro i isDir
    obtain ⟨other, same⟩ := type_of i (by rw [isDir]; exact nofun)
    exact ⟨other, same ▸ isDir⟩
  constructor
  · intro i typedI notDir
    obtain ⟨other, same⟩ := type_of i typedI
    rw [same] at typedI notDir
    rw [(others i other).2.2, exact'.files i typedI notDir]
    simp only [LinkGraph.names, count_eq]
  · intro d isDir nlinkD c
    obtain ⟨other, isDir⟩ := dir_of d isDir
    rw [(others d other).2.2] at nlinkD
    rw [count_eq]
    exact exact'.bare d isDir nlinkD c
  · intro d isDir nlinkD
    obtain ⟨other, isDir⟩ := dir_of d isDir
    rw [(others d other).2.2] at nlinkD
    refine (exact'.reach d isDir nlinkD).mono fun d c => ?_
    rw [count_eq]

theorem named (exact' : Exact v) (dir : v.type i = .dir) (nlink : v.nlink i ≠ 0)
    (root : i ≠ rootino) : ∃ d, 0 < v.count d i :=
  (exact'.reach i dir nlink).named.resolve_left root

/-- The directories of the tree whose `..` is `i` are the subdirectories of `i`, and the root
    is one of its own. -/
theorem sum_up (exact' : Exact v) (sound : Sound v) (i : Nat) :
    (∑ d ∈ Finset.range Mkfs.ninodes, if v.type d = .dir ∧ 0 < v.nlink d then
        (if v.up d = i then 1 else 0) else 0) =
      v.subdirs i + if i = rootino then 1 else 0 := by
  have each : ∀ d, (if v.type d = .dir ∧ 0 < v.nlink d then
        (if v.up d = i then 1 else 0) else 0) =
      (if v.type d = .dir then v.count i d else 0) +
        if d = rootino then (if i = rootino then 1 else 0) else 0 := by
    intro d
    by_cases dir : v.type d = .dir
    swap
    · have other : d ≠ rootino := by
        rintro rfl
        exact dir sound.root
      rw [if_neg (fun both => dir both.1), if_neg dir, if_neg other]
    rw [if_pos dir]
    have range := (sound.dir_range dir).2
    by_cases root : d = rootino
    · subst root
      have unnamed : v.count i rootino = 0 := by
        by_contra some
        exact (sound.parent i rootino (Nat.pos_of_ne_zero some) dir).2 rfl
      rw [if_pos ⟨dir, sound.root_linked⟩, sound.root_up, unnamed, if_pos rfl, Nat.zero_add]
      simp only [eq_comm]
    rw [if_neg root, Nat.add_zero]
    have single := sound.single d dir
    have below : v.count i d ≤ v.names d := by
      by_cases entry : 0 < v.count i d
      · exact count_le_names (sound.named_range entry).1
      · omega
    by_cases linked : 0 < v.nlink d
    · rw [if_pos ⟨dir, linked⟩]
      obtain ⟨e, entry⟩ := exact'.named dir (by omega) root
      have up := (sound.parent e d entry dir).1
      split
      · next here =>
        rw [← here, up] at below ⊢
        omega
      · next other =>
        by_contra some
        have entry' : 0 < v.count i d := by omega
        exact other (sound.parent i d entry' dir).1
    · have typed : v.type d ≠ .free := by
        rw [dir]
        exact nofun
      have zero : v.nlink d = 0 := by
        have := sound.nlink_dir dir
        omega
      rw [sound.names_zero typed zero] at below
      rw [if_neg (fun both => linked both.2)]
      omega
  simp only [each, Finset.sum_add_distrib, subdirs]
  have root : rootino < Mkfs.ninodes := (sound.dir_range sound.root).2
  simp [root]

/-- A link count is the number of entries that name the inode, in directories with links. -/
theorem total (exact' : Exact v) (sound : Sound v) (typed : v.type i ≠ .free) :
    v.nlink i = ∑ d ∈ Finset.range Mkfs.ninodes, if v.type d = .dir ∧ 0 < v.nlink d then
      v.count d i + (if v.up d = i then 1 else 0) else 0 := by
  have split : ∀ d, (if v.type d = .dir ∧ 0 < v.nlink d then
      v.count d i + (if v.up d = i then 1 else 0) else 0) = v.count d i +
        if v.type d = .dir ∧ 0 < v.nlink d then (if v.up d = i then 1 else 0) else 0 := by
    intro d
    split
    · rfl
    · next dead =>
      by_contra some
      have entry : 0 < v.count d i := by omega
      have dir := (sound.named d i entry).1
      have zero : v.nlink d = 0 := by
        have := sound.nlink_dir dir
        have := not_and.mp dead dir
        omega
      rw [exact'.bare d dir zero i] at entry
      cases entry
  simp only [split, Finset.sum_add_distrib, exact'.sum_up sound]
  by_cases dir : v.type i = .dir
  · rw [sound.dirs i dir, names]
    push_cast
    split
    · omega
    · omega
  · have root : i ≠ rootino := by
      rintro rfl
      exact dir sound.root
    rw [exact'.files i typed dir, subdirs_zero (sound.entries_dir dir), if_neg root]
    simp only [names, Nat.add_zero]

end Exact

end LinkGraph

end Sistemas.Xv6.Sysfile
