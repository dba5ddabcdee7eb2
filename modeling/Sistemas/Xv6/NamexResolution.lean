import Mathlib.Algebra.BigOperators.Fin
import Sistemas.Xv6.Namex

/-! # What a path name names -/

namespace Sistemas.Xv6.Namex

open Sysfile (FileType slash)

variable {name name' p q : Bytes} {path rest : List UInt8} {n i : Nat}

/-! ## Names -/

/-- The string in at most `n` bytes from offset `i`. -/
def textFrom (name : Bytes) : Nat → Nat → List UInt8
  | 0, _ => []
  | n + 1, i => if name i = 0 then [] else name i :: textFrom name n (i + 1)

def textOf (name : Bytes) : List UInt8 := textFrom name dirsiz 0

theorem strncmp_eq_zero : strncmp p q n i = 0 ↔ textFrom p n i = textFrom q n i := by
  induction n generalizing i with
  | zero => simp [strncmp, textFrom]
  | succ n ih =>
    rw [strncmp, textFrom, textFrom]
    by_cases stop : p i ≠ 0 ∧ p i = q i
    · obtain ⟨nonzero, same⟩ := stop
      rw [if_pos ⟨nonzero, same⟩, ← same, if_neg nonzero, if_neg nonzero, ih]
      simp
    have difference : ((p i).toNat : Int) - (q i).toNat = 0 ↔ p i = q i := by
      rw [Int.sub_eq_zero, Int.natCast_inj, UInt8.toNat_inj]
    rw [if_neg stop, difference]
    constructor
    · intro same
      have zero : p i = 0 := by
        by_contra nonzero
        exact stop ⟨nonzero, same⟩
      rw [if_pos zero, if_pos (same ▸ zero)]
    · intro same
      split at same
      · next zero =>
        split at same
        · next zero' => rw [zero, zero']
        · cases same
      · split at same
        · cases same
        · exact (List.cons.inj same).1

theorem namecmp_eq_zero : namecmp p q = 0 ↔ textOf p = textOf q := strncmp_eq_zero

theorem textFrom_congr (same : ∀ j, i ≤ j → j < i + n → p j = q j) :
    textFrom p n i = textFrom q n i := by
  induction n generalizing i with
  | zero => rfl
  | succ n ih =>
    rw [textFrom, textFrom, same i (by omega) (by omega)]
    rw [ih fun j ge lt => same j (by omega) (by omega)]

/-- Bytes without NUL are read back, up to a NUL or the end of the buffer. -/
theorem textFrom_eq {text : List UInt8} (noNul : 0 ∉ text) (fits : text.length ≤ n)
    (copied : ∀ j (lt : j < text.length), p (i + j) = text[j])
    (ends : text.length < n → p (i + text.length) = 0) : textFrom p n i = text := by
  induction text generalizing n i with
  | nil =>
    cases n with
    | zero => rfl
    | succ n => rw [textFrom, if_pos (by simpa using ends)]
  | cons c text ih =>
    obtain ⟨n, rfl⟩ : ∃ m, n = m + 1 := ⟨n - 1, by simp only [List.length_cons] at fits; omega⟩
    have first : p i = c := copied 0 (by simp)
    have nonzero : ¬ c = 0 := fun zero => noNul (zero ▸ List.mem_cons_self)
    rw [textFrom, first, if_neg nonzero, ih]
    · exact fun mem => noNul (List.mem_cons_of_mem _ mem)
    · simpa using fits
    · intro j lt
      have := copied (j + 1) (by simpa using lt)
      rw [← Nat.add_assoc, Nat.add_right_comm] at this
      simpa using this
    · intro lt
      have := ends (by simpa using lt)
      rwa [List.length_cons, ← Nat.add_assoc, Nat.add_right_comm] at this

/-- The names of a path: its maximal runs without slash, cut to `DIRSIZ` bytes. -/
def namesOf (path : List UInt8) : List (List UInt8) :=
  (components slash path).map (·.take dirsiz)

/-- What `skipelem` leaves in the buffer, whatever was there. -/
theorem textOf_put {run behind : List UInt8} (noNul : 0 ∉ run) :
    textOf (if dirsiz ≤ run.length then name.splice 0 dirsiz ((run ++ behind).getD · 0)
      else (name.splice 0 run.length ((run ++ behind).getD · 0)).splice run.length 1
        fun _ => 0) = run.take dirsiz := by
  have copied : ∀ j (lt : j < run.length), (run ++ behind).getD j 0 = run[j] := by
    intro j lt
    rw [List.getD_append _ _ _ _ lt, List.getD_eq_getElem _ _ lt]
  split
  · next long =>
    have length : (run.take dirsiz).length = dirsiz := List.length_take_of_le long
    refine textFrom_eq (fun mem => noNul (List.mem_of_mem_take mem)) length.le ?_ ?_
    · intro j lt
      rw [Bytes.splice_inside (length ▸ lt), copied j (by omega), List.getElem_take]
    · intro short
      omega
  · next short =>
    rw [List.take_of_length_le (by omega)]
    refine textFrom_eq noNul (by omega) ?_ ?_
    · intro j lt
      rw [Bytes.splice_outside (by omega), Bytes.splice_inside lt, copied j lt]
    · intro _
      rw [Nat.zero_add]
      exact @Bytes.splice_inside _ _ run.length 1 0 Nat.one_pos

/-- The functions on system calls take the names off a path without a buffer. -/
theorem skipelem_text (name : Bytes) (noNul : 0 ∉ path) :
    (skipelem path name).map (fun r => (textOf r.2, r.1)) = Sysfile.skipelem path := by
  rw [skipelem, Sysfile.skipelem]
  have sub := (List.dropWhile_sublist (l := path) (p := (· == slash))).subset
  cases front : path.dropWhile (· == slash) with
  | nil => rfl
  | cons c behind =>
    rw [front] at sub
    have whole := List.takeWhile_append_dropWhile (p := (· != slash)) (l := c :: behind)
    have lengths := congrArg List.length whole
    generalize (c :: behind).takeWhile (· != slash) = run at whole lengths ⊢
    generalize (c :: behind).dropWhile (· != slash) = behindRun at whole lengths ⊢
    rw [List.length_append] at lengths
    have len : (c :: behind).length - behindRun.length = run.length := by omega
    have noNulRun : 0 ∉ run := by
      intro mem
      exact noNul (sub (whole ▸ List.mem_append_left _ mem))
    simp only [List.cons_ne_nil, if_false, len, Option.map_some]
    rw [← whole, textOf_put noNulRun]

theorem skipelem_none : skipelem path name = none ↔ namesOf path = [] := by
  rw [namesOf, List.map_eq_nil_iff, ← components_dropWhile, skipelem]
  cases front : path.dropWhile (· == slash) with
  | nil => simp
  | cons c behind =>
    rw [components_cons (ne_of_dropWhile front)]
    simp

/-- `skipelem` takes the first name off the path, and the slashes behind it. -/
theorem skipelem_some (noNul : 0 ∉ path) (more : skipelem path name = some (rest, name')) :
    namesOf path = textOf name' :: namesOf rest ∧ 0 ∉ rest ∧ (namesOf rest = [] → rest = []) := by
  have text := skipelem_text name noNul
  rw [more, Option.map_some, Sysfile.skipelem] at text
  have sub := (List.dropWhile_sublist (l := path) (p := (· == slash))).subset
  rw [namesOf, ← components_dropWhile]
  cases front : path.dropWhile (· == slash) with
  | nil =>
    rw [front] at text
    cases text
  | cons c behind =>
    rw [front] at text sub
    have left := List.dropWhile_sublist (l := c :: behind) (p := (· != slash))
    rw [components_cons (ne_of_dropWhile front)]
    generalize (c :: behind).takeWhile (· != slash) = run at text ⊢
    generalize (c :: behind).dropWhile (· != slash) = behindRun at text left ⊢
    obtain ⟨name_eq, rest_eq⟩ := Prod.mk.inj (Option.some.inj text)
    dsimp only at name_eq rest_eq
    rw [name_eq, rest_eq]
    refine ⟨?_, ?_, ?_⟩
    · rw [List.map_cons, namesOf, components_dropWhile]
    · intro mem
      exact noNul (sub (left.subset ((List.dropWhile_sublist _).subset mem)))
    · intro empty
      cases last : behindRun.dropWhile (· == slash) with
      | nil => rfl
      | cons d behind' =>
        rw [last, namesOf, components_cons (ne_of_dropWhile last)] at empty
        cases empty

/-- The elements that the system calls follow are the names of the path. -/
theorem elements_eq (noNul : 0 ∉ path) : Sysfile.elements path = namesOf path := by
  rw [Sysfile.elements]
  generalize fits : path.length = fuel
  replace fits : path.length ≤ fuel := fits.le
  induction fuel generalizing path with
  | zero =>
    rw [List.length_eq_zero_iff.mp (Nat.le_zero.mp fits)]
    rfl
  | succ fuel ih =>
    rw [Sysfile.elementsLoop, ← skipelem_text (fun _ => 0) noNul]
    cases more : skipelem path fun _ => 0 with
    | none => exact (skipelem_none.mp more).symm
    | some r =>
      obtain ⟨names, noNul', -⟩ := skipelem_some noNul more
      have shorter := skipelem_shorter more
      rw [names, ← ih noNul' (by omega)]
      rfl

/-! ## The directory tree -/

/-- The inode number of the first entry with the name. -/
def entryOf (entries : List Dirent) (name : List UInt8) : Option Nat :=
  (entries.find? fun de => de.inum ≠ 0 ∧ textOf de.name = name).map Dirent.inum

def dirsOf (disk : Nat → Dinode) : Names Nat (List UInt8) where
  entry i := if (disk i).type = .dir then some (entryOf (disk i).entries) else none

theorem isDir_iff {disk : Nat → Dinode} : (dirsOf disk).IsDir i ↔ (disk i).type = .dir := by
  simp only [Names.IsDir, dirsOf]
  split
  · next dir => simp [dir]
  · next notDir => simp [notDir]

theorem lookup_dir {disk : Nat → Dinode} {name : List UInt8} (dir : (disk i).type = .dir) :
    (dirsOf disk).lookup i name = entryOf (disk i).entries name := by
  have entry : (dirsOf disk).entry i = some (entryOf (disk i).entries) := if_pos dir
  rw [Names.lookup, entry]
  rfl

/-- The inode exists, and stays while somebody else puts a reference to it. -/
def Stays (s : State) (i : Nat) : Prop :=
  (s.disk i).type ≠ .free ∧
    ((s.disk i).nlink ≠ 0 ∨ ∃ ip, 0 < (s.inode ip).ref ∧ (s.inode ip).inum = i)

/-- From `start` on there are only inodes that exist. -/
def Tree (s : State) (start : Nat) : Prop :=
  ∀ path i, (dirsOf s.disk).follow start path = some i → Stays s i

/-! ## The inode table -/

/-- An inode is in the table once, as on the disk; just `locks` are locked. -/
structure Table (s : State) (locks : List (Fin ninode)) : Prop where
  distinct : ∀ a b, 0 < (s.inode a).ref → 0 < (s.inode b).ref →
    (s.inode a).inum = (s.inode b).inum → a = b
  copied : ∀ ip, 0 < (s.inode ip).ref → (s.inode ip).valid = true →
    (s.inode ip).node = s.disk (s.inode ip).inum
  locked : ∀ ip, (s.inode ip).locked = true ↔ ip ∈ locks

/-- Since `s₀` the references `held` were taken, and nothing else has changed. -/
structure Holding (s₀ s : State) (held locks : List (Fin ninode)) : Prop
    extends Table s locks where
  ref : ∀ ip, (s.inode ip).ref = (s₀.inode ip).ref + held.count ip
  inum : ∀ ip, 0 < (s₀.inode ip).ref → (s.inode ip).inum = (s₀.inode ip).inum
  disk : s.disk = s₀.disk
  cwd : s.cwd = s₀.cwd

variable {s₀ s s' : State} {held held' locks locks' : List (Fin ninode)} {ip dp : Fin ninode}

theorem Holding.refl (table : Table s locks) : Holding s s [] locks :=
  ⟨table, fun _ => rfl, fun _ _ => rfl, rfl, rfl⟩

theorem Holding.perm (holding : Holding s₀ s held locks) (perm : held.Perm held') :
    Holding s₀ s held' locks :=
  { holding with ref := fun ip => by rw [holding.ref ip, perm.count_eq] }

theorem Holding.referred (holding : Holding s₀ s held locks) (mem : ip ∈ held) :
    0 < (s.inode ip).ref := by
  have ref := holding.ref ip
  have := List.count_pos_iff.mpr mem
  omega

@[simp] theorem setInode_self (new : Inode) : (s.setInode ip new).inode ip = new :=
  Function.update_self _ _ _

theorem setInode_of_ne {t : Fin ninode} (new : Inode) (ne : t ≠ ip) :
    (s.setInode ip new).inode t = s.inode t :=
  Function.update_of_ne ne _ _

/-- One entry of the table changes. -/
theorem Holding.setInode (holding : Holding s₀ s held locks) (new : Inode)
    (ref : new.ref = (s₀.inode ip).ref + held'.count ip)
    (refs : ∀ t, t ≠ ip → held'.count t = held.count t)
    (inum : 0 < (s₀.inode ip).ref → new.inum = (s₀.inode ip).inum)
    (alone : ∀ t, t ≠ ip → 0 < (s.inode t).ref → (s.inode t).inum ≠ new.inum)
    (copied : 0 < new.ref → new.valid = true → new.node = s.disk new.inum)
    (locked : new.locked = true ↔ ip ∈ locks')
    (others : ∀ t, t ≠ ip → (t ∈ locks' ↔ t ∈ locks)) :
    Holding s₀ (s.setInode ip new) held' locks' where
  distinct a b posA posB same := by
    by_cases isA : a = ip
    · by_cases isB : b = ip
      · rw [isA, isB]
      · subst isA
        rw [setInode_of_ne _ isB] at posB same
        rw [setInode_self] at same
        exact absurd same.symm (alone b isB posB)
    · by_cases isB : b = ip
      · subst isB
        rw [setInode_of_ne _ isA] at posA same
        rw [setInode_self] at same
        exact absurd same (alone a isA posA)
      · rw [setInode_of_ne _ isA] at posA same
        rw [setInode_of_ne _ isB] at posB same
        exact holding.distinct a b posA posB same
  copied t pos valid := by
    by_cases is : t = ip
    · subst is
      rw [setInode_self] at pos valid ⊢
      exact copied pos valid
    · rw [setInode_of_ne _ is] at pos valid ⊢
      exact holding.copied t pos valid
  locked t := by
    by_cases is : t = ip
    · subst is
      rw [setInode_self, locked]
    · rw [setInode_of_ne _ is, holding.locked t, others t is]
  ref t := by
    by_cases is : t = ip
    · subst is
      rw [setInode_self, ref]
    · rw [setInode_of_ne _ is, holding.ref t, refs t is]
  inum t pos := by
    by_cases is : t = ip
    · subst is
      rw [setInode_self, inum pos]
    · rw [setInode_of_ne _ is, holding.inum t pos]
  disk := holding.disk
  cwd := holding.cwd

/-- The entry that changes is in use, and stays the same inode. -/
theorem Holding.setUsed (holding : Holding s₀ s held locks) (used : 0 < (s.inode ip).ref)
    (new : Inode) (same : new.inum = (s.inode ip).inum)
    (ref : new.ref = (s₀.inode ip).ref + held'.count ip)
    (refs : ∀ t, t ≠ ip → held'.count t = held.count t)
    (copied : 0 < new.ref → new.valid = true → new.node = s.disk new.inum)
    (locked : new.locked = true ↔ ip ∈ locks')
    (others : ∀ t, t ≠ ip → (t ∈ locks' ↔ t ∈ locks)) :
    Holding s₀ (s.setInode ip new) held' locks' := by
  refine holding.setInode new ref refs ?_ ?_ copied locked others
  · intro pos
    rw [same, holding.inum ip pos]
  · intro t ne pos eq
    exact ne (holding.distinct t ip pos used (eq.trans same))

/-! ## The functions on inodes -/

/-- The table may be full if fewer than two of its entries are free. -/
def Full (s₀ : State) (panic : Panic) : Prop :=
  panic = .igetNoInodes ∧
    ∀ a b, (s₀.inode a).ref = 0 → (s₀.inode b).ref = 0 → a = b

theorem iget_spec (inum : Nat) (holding : Holding s₀ s held locks) (one : held.length ≤ 1) :
    Ends (Full s₀) (iget inum s) fun r => Holding s₀ r.2 (r.1 :: held) locks ∧
      (r.2.inode r.1).inum = inum ∧
      ∀ t, 0 < (s.inode t).ref → (r.2.inode t).inum = (s.inode t).inum := by
  have count : ∀ ip t, t ≠ ip → (ip :: held).count t = held.count t :=
    fun ip t ne => List.count_cons_of_ne (Ne.symm ne)
  rw [iget]
  split
  · next ip found =>
    have here := List.find?_some found
    simp only [decide_eq_true_eq] at here
    refine ⟨holding.setUsed here.1 _ rfl ?_ (count ip) ?_ ?_ fun _ _ => .rfl, ?_, ?_⟩
    · rw [holding.ref ip, List.count_cons_self, Nat.add_assoc]
    · intro _ valid
      exact holding.copied ip here.1 valid
    · exact holding.locked ip
    · rw [setInode_self]
      exact here.2
    · intro t _
      by_cases is : t = ip
      · rw [is, setInode_self]
      · rw [setInode_of_ne _ is]
  · next absent =>
    have alone : ∀ t, 0 < (s.inode t).ref → (s.inode t).inum ≠ inum := by
      intro t pos same
      have not := List.find?_eq_none.mp absent t (List.mem_finRange t)
      simp [pos, same] at not
    split
    · next empty found =>
      have free := List.find?_some found
      simp only [decide_eq_true_eq] at free
      have ref := holding.ref empty
      refine ⟨holding.setInode _ ?_ (count empty) ?_ ?_ ?_ ?_ fun _ _ => .rfl, ?_, ?_⟩
      · rw [List.count_cons_self]
        show 1 = _
        omega
      · intro pos
        omega
      · intro t _
        exact alone t
      · intro _ valid
        cases valid
      · exact holding.locked empty
      · rw [setInode_self]
      · intro t pos
        rw [setInode_of_ne _ fun is => by rw [is] at pos; omega]
    · next full =>
      refine ⟨rfl, ?_⟩
      have taken : ∀ t, (s₀.inode t).ref = 0 → t ∈ held := by
        intro t free
        have not := List.find?_eq_none.mp full t (List.mem_finRange t)
        have ref := holding.ref t
        simp only [decide_eq_true_eq] at not
        exact List.count_pos_iff.mp (by omega)
      intro a b freeA freeB
      have memA := taken a freeA
      have memB := taken b freeB
      cases held with
      | nil => cases memA
      | cons ip rest =>
        obtain rfl : rest = [] := List.length_eq_zero_iff.mp (by simpa using one)
        rw [List.mem_singleton.mp memA, List.mem_singleton.mp memB]

theorem idup_spec (holding : Holding s₀ s held locks) (used : 0 < (s.inode ip).ref) :
    Holding s₀ (idup ip s) (ip :: held) locks := by
  refine holding.setUsed used _ rfl ?_ ?_ ?_ ?_ fun _ _ => .rfl
  · rw [holding.ref ip, List.count_cons_self, Nat.add_assoc]
  · intro t ne
    exact List.count_cons_of_ne (Ne.symm ne)
  · intro _ valid
    exact holding.copied ip used valid
  · exact holding.locked ip

theorem ilock_spec (holding : Holding s₀ s held []) (mem : ip ∈ held)
    (typed : (s.disk (s.inode ip).inum).type ≠ .free) :
    Ends (Full s₀) (ilock ip s) fun s' => Holding s₀ s' held [ip] ∧
      (s'.inode ip).inum = (s.inode ip).inum ∧
      (s'.inode ip).node = s.disk (s.inode ip).inum := by
  have used := holding.referred mem
  have unlocked : ¬ (s.inode ip).locked = true := by
    rw [holding.locked ip]
    exact List.not_mem_nil
  have others : ∀ t, t ≠ ip → (t ∈ [ip] ↔ t ∈ ([] : List (Fin ninode))) := by
    intro t ne
    simp [ne]
  simp only [ilock]
  rw [if_neg (by omega), if_neg unlocked]
  by_cases valid : (s.inode ip).valid = true
  · rw [if_pos valid]
    have copied := holding.copied ip used valid
    refine ⟨holding.setUsed used _ rfl (holding.ref ip) (fun _ _ => rfl) ?_ ?_ others, ?_, ?_⟩
    · intro _ _
      exact copied
    · simp
    · rw [setInode_self]
    · rw [setInode_self]
      exact copied
  · rw [if_neg valid, if_neg typed]
    refine ⟨holding.setUsed used _ rfl (holding.ref ip) (fun _ _ => rfl) ?_ ?_ others, ?_, ?_⟩
    · intro _ _
      rfl
    · simp
    · rw [setInode_self]
    · rw [setInode_self]

theorem iunlock_spec (holding : Holding s₀ s held [ip]) (mem : ip ∈ held) :
    Ends (Full s₀) (iunlock ip s) fun s' => Holding s₀ s' held [] ∧
      ∀ t, (s'.inode t).inum = (s.inode t).inum := by
  have used := holding.referred mem
  have locked : (s.inode ip).locked = true := (holding.locked ip).mpr List.mem_cons_self
  simp only [iunlock]
  rw [if_neg (by simp [locked]; omega)]
  refine ⟨holding.setUsed used _ rfl (holding.ref ip) (fun _ _ => rfl) ?_ ?_ ?_, ?_⟩
  · intro _ valid
    exact holding.copied ip used valid
  · simp
  · intro t ne
    simp [ne]
  · intro t
    by_cases is : t = ip
    · rw [is, setInode_self]
    · rw [setInode_of_ne _ is]

/-- Who puts a reference does not have the last one to an inode without links. -/
theorem iput_spec (holding : Holding s₀ s (ip :: held) []) (stays : Stays s₀ (s.inode ip).inum) :
    Ends (Full s₀) (iput ip s) fun s' => Holding s₀ s' held [] ∧
      ∀ t, (s'.inode t).inum = (s.inode t).inum := by
  have used : 0 < (s.inode ip).ref := holding.referred List.mem_cons_self
  have ref := holding.ref ip
  rw [List.count_cons_self] at ref
  have kept : ¬ ((s.inode ip).ref = 1 ∧ (s.inode ip).valid = true ∧
      (s.inode ip).node.nlink = 0) := by
    rintro ⟨last, valid, unlinked⟩
    rw [holding.copied ip used valid, holding.disk] at unlinked
    cases stays.2 with
    | inl linked => exact linked unlinked
    | inr other =>
      obtain ⟨t, pos, same⟩ := other
      have refT := holding.ref t
      have is := holding.distinct t ip (by omega) used ((holding.inum t pos).trans same)
      rw [is] at pos
      omega
  simp only [iput]
  rw [if_neg kept]
  refine ⟨holding.setUsed used _ rfl ?_ ?_ ?_ ?_ fun _ _ => .rfl, ?_⟩
  · show (s.inode ip).ref - 1 = _
    omega
  · intro t ne
    exact (List.count_cons_of_ne (Ne.symm ne)).symm
  · intro _ valid
    exact holding.copied ip used valid
  · exact holding.locked ip
  · intro t
    by_cases is : t = ip
    · rw [is, setInode_self]
    · rw [setInode_of_ne _ is]

theorem iunlockput_spec (holding : Holding s₀ s (ip :: held) [ip])
    (stays : Stays s₀ (s.inode ip).inum) :
    Ends (Full s₀) (iunlockput ip s) fun s' => Holding s₀ s' held [] ∧
      ∀ t, (s'.inode t).inum = (s.inode t).inum := by
  rw [iunlockput]
  refine (iunlock_spec holding List.mem_cons_self).bind ?_
  rintro s₁ ⟨holding₁, same₁⟩
  rw [← same₁ ip] at stays
  refine (iput_spec holding₁ stays).imp ?_
  rintro s₂ ⟨holding₂, same₂⟩
  exact ⟨holding₂, fun t => (same₂ t).trans (same₁ t)⟩

/-! ## Directories and paths -/

theorem dirlookup_spec {name : Bytes} (holding : Holding s₀ s [dp] locks)
    (dir : (s₀.disk i).type = .dir) (node : (s.inode dp).node = s₀.disk i) :
    Ends (Full s₀) (dirlookup dp name s) fun r =>
      (r.1.map fun ip => (r.2.inode ip).inum) = (dirsOf s₀.disk).lookup i (textOf name) ∧
      Holding s₀ r.2 (dp :: r.1.toList) locks ∧ (r.2.inode dp).inum = (s.inode dp).inum := by
  rw [lookup_dir dir, dirlookup, node, if_neg (not_not.mpr dir)]
  have same : (fun de : Dirent => decide (de.inum ≠ 0 ∧ namecmp name de.name = 0)) =
      fun de => decide (de.inum ≠ 0 ∧ textOf de.name = textOf name) := by
    funext de
    exact decide_eq_decide.mpr (and_congr_right fun _ => namecmp_eq_zero.trans eq_comm)
  rw [entryOf, same]
  cases (s₀.disk i).entries.find? fun de => de.inum ≠ 0 ∧ textOf de.name = textOf name with
  | none => exact ⟨rfl, holding, rfl⟩
  | some de =>
    refine (iget_spec de.inum holding le_rfl).bind ?_
    rintro ⟨ip, s₁⟩ ⟨holding₁, inum, others⟩
    rw [ends_ok]
    refine ⟨congrArg some inum, holding₁.perm (.swap _ _ _), ?_⟩
    exact others dp (holding.referred List.mem_cons_self)

/-- Each turn puts the inode of the last turn; the next one is its child. -/
theorem namexLoop_spec (parent : Bool) (path : List UInt8) (name : Bytes)
    (noNul : 0 ∉ path) (tree : Tree s₀ (s.inode ip).inum) (holding : Holding s₀ s [ip] []) :
    Ends (Full s₀) (namexLoop parent ip path name s) fun r =>
      (dirsOf s₀.disk).Finds parent (s.inode ip).inum (namesOf path)
        (r.1.map fun ip => (r.2.2.inode ip).inum) (textOf r.2.1) ∧
      Holding s₀ r.2.2 r.1.toList [] := by
  induction length : path.length using Nat.strong_induction_on generalizing s ip path name with
  | h n ih =>
  have stays : Stays s₀ (s.inode ip).inum := tree [] _ rfl
  rw [namexLoop]
  split
  · next atEnd =>
    rw [skipelem_none.mp atEnd]
    cases parent with
    | false => exact ⟨Names.finds_nil, holding⟩
    | true =>
      refine (iput_spec holding stays).bind ?_
      rintro s₁ ⟨holding₁, -⟩
      exact ⟨Names.finds_nil, holding₁⟩
  · next rest name' more =>
    obtain ⟨names, noNul', noEmpty⟩ := skipelem_some noNul more
    rw [names]
    have typed := stays.1
    rw [← holding.disk] at typed
    refine (ilock_spec holding List.mem_cons_self typed).bind ?_
    rintro s₁ ⟨holding₁, inum₁, node⟩
    rw [holding.disk, ← inum₁] at node
    rw [← inum₁] at tree stays ⊢
    clear inum₁
    rw [node]
    by_cases dir : (s₀.disk (s₁.inode ip).inum).type = .dir
    · rw [if_neg (not_not.mpr dir)]
      have isDir : (dirsOf s₀.disk).IsDir (s₁.inode ip).inum := isDir_iff.mpr dir
      split
      · next last =>
        obtain ⟨rfl, empty⟩ : parent = true ∧ rest = [] := by simpa using last
        refine (iunlock_spec holding₁ List.mem_cons_self).bind ?_
        rintro s₂ ⟨holding₂, inum₂⟩
        rw [ends_ok, Option.map_some, inum₂ ip, empty]
        exact ⟨Names.finds_last isDir, holding₂⟩
      · next notLast =>
        have more' : parent = true → namesOf rest ≠ [] := by
          intro isParent empty
          exact notLast (by rw [isParent, noEmpty empty]; rfl)
        refine (dirlookup_spec holding₁ dir node).bind ?_
        rintro ⟨next, s₂⟩ ⟨found, holding₂, inum₂⟩
        rw [← inum₂] at stays
        cases next with
        | none =>
          refine (iunlockput_spec holding₂ stays).bind ?_
          rintro s₃ ⟨holding₃, -⟩
          exact ⟨Names.finds_none found.symm fun isParent empty => absurd empty (more' isParent),
            holding₃⟩
        | some next =>
          refine (iunlockput_spec holding₂ stays).bind ?_
          rintro s₃ ⟨holding₃, inum₃⟩
          have step : (dirsOf s₀.disk).lookup (s₁.inode ip).inum (textOf name') =
              some (s₃.inode next).inum := by
            rw [← found, inum₃ next]
            rfl
          have tree₃ : Tree s₀ (s₃.inode next).inum := by
            intro path i reached
            refine tree (textOf name' :: path) i ?_
            rw [Names.follow_cons, step]
            exact reached
          have shorter : rest.length < n := length ▸ skipelem_shorter more
          refine (ih _ shorter rest name' noNul' tree₃ holding₃ rfl).imp ?_
          rintro r ⟨finds, holding₄⟩
          exact ⟨finds.lookup step more', holding₄⟩
    · rw [if_pos dir]
      refine (iunlockput_spec holding₁ stays).bind ?_
      rintro s₂ ⟨holding₂, -⟩
      have notDir : ¬ (dirsOf s₀.disk).IsDir (s₁.inode ip).inum := by rwa [isDir_iff]
      exact ⟨Names.finds_none (Names.lookup_notDir notDir) fun _ _ => notDir, holding₂⟩

/-- The inode in which the first name of the path is looked up. -/
def startOf (s : State) (path : List UInt8) : Nat :=
  if path.head? = some slash then rootino else (s.inode s.cwd).inum

theorem namex_spec (parent : Bool) (name : Bytes) (noNul : 0 ∉ path) (table : Table s [])
    (cwd : 0 < (s.inode s.cwd).ref) (tree : Tree s (startOf s path)) :
    Ends (Full s) (namex path parent name s) fun r =>
      (dirsOf s.disk).Finds parent (startOf s path) (namesOf path)
        (r.1.map fun ip => (r.2.2.inode ip).inum) (textOf r.2.1) ∧
      Holding s r.2.2 r.1.toList [] := by
  rw [namex]
  by_cases rooted : path.head? = some slash
  · rw [if_pos rooted]
    rw [startOf, if_pos rooted] at tree ⊢
    refine (iget_spec rootino (.refl table) (Nat.zero_le 1)).bind ?_
    rintro ⟨ip, s₁⟩ ⟨holding, inum, -⟩
    rw [← inum] at tree ⊢
    exact namexLoop_spec parent path name noNul tree holding
  · rw [if_neg rooted]
    rw [startOf, if_neg rooted] at tree ⊢
    have inum : ((idup s.cwd s).inode s.cwd).inum = (s.inode s.cwd).inum := by
      rw [idup, setInode_self]
    rw [← inum] at tree ⊢
    exact namexLoop_spec parent path name noNul tree (idup_spec (.refl table) cwd)

/-! ## References -/

/-- The references to an inode, whichever entry of the table it has. -/
def State.refs (s : State) (inum : Nat) : Nat :=
  ∑ ip, if (s.inode ip).inum = inum then (s.inode ip).ref else 0

/-- A sum over the entries in which only the one that was found counts. -/
theorem sum_found {found : Option (Fin ninode)} {inumOf : Fin ninode → Nat} {inum : Nat} :
    (∑ ip, if found = some ip ∧ inumOf ip = inum then 1 else 0) =
      if found.map inumOf = some inum then 1 else 0 := by
  cases found with
  | none => simp
  | some ip =>
    rw [Finset.sum_eq_single_of_mem ip (Finset.mem_univ ip)]
    · simp
    · intro t _ ne
      rw [if_neg fun both => ne (Option.some.inj both.1).symm]

theorem Holding.refs {found : Option (Fin ninode)} (holding : Holding s₀ s found.toList locks)
    (inum : Nat) : s.refs inum = s₀.refs inum +
      if found.map (fun ip => (s.inode ip).inum) = some inum then 1 else 0 := by
  have entry : ∀ ip, (if (s.inode ip).inum = inum then (s.inode ip).ref else 0) =
      (if (s₀.inode ip).inum = inum then (s₀.inode ip).ref else 0) +
        if found = some ip ∧ (s.inode ip).inum = inum then 1 else 0 := by
    intro ip
    have ref := holding.ref ip
    have same := holding.inum ip
    have count : found.toList.count ip = if found = some ip then 1 else 0 := by
      cases found <;> simp [List.count_singleton]
    rw [count] at ref
    by_cases free : (s₀.inode ip).ref = 0
    · rw [ref, free, ite_self]
      by_cases this : (s.inode ip).inum = inum <;> simp [this]
    · rw [ref, same (by omega)]
      by_cases this : (s₀.inode ip).inum = inum <;> simp [this]
  rw [State.refs, Finset.sum_congr rfl fun ip _ => entry ip, Finset.sum_add_distrib, sum_found,
    ← State.refs]

/-! ## The calls -/

/-- One reference was taken, to the inode that was found. -/
structure Took (s s' : State) (found : Option (Fin ninode)) : Prop where
  refs : ∀ inum, s'.refs inum = s.refs inum +
    if found.map (fun ip => (s'.inode ip).inum) = some inum then 1 else 0
  unlocked : ∀ ip, (s'.inode ip).locked = false
  disk : s'.disk = s.disk

end Sistemas.Xv6.Namex
