import Sistemas.Xv6.SysfileTable

/-! # Path names and directories

`walk` follows a path on the inodes alone; `namex_spec` says that `namex` finds the same
inode and adds one reference to it.  `dirlink_spec` and `ialloc_spec` are about the two
steps of `create`.
-/

namespace Sistemas.Xv6.Sysfile

variable {s s₁ : State} {transit final : List Nat} {ip dp : Nat} {bad : Panic → Prop}

/-! ## Path names -/

/-- The loop of `namex`, on the inodes alone. -/
def walk (parent : Bool) (inode : Nat → Inode) : Nat → List Name →
    Except Panic (Option (Nat × Name))
  | ip, [] => .ok (if parent then none else some (ip, []))
  | ip, name :: rest =>
    if (inode ip).type = .free then .error .ilockNoType
    else if (inode ip).type ≠ .dir then .ok none
    else if parent && rest.isEmpty then .ok (some (ip, name))
    else
      match lookup (inode ip).entries name with
      | some (_, next) => walk parent inode next rest
      | none => .ok none

theorem dirlookup_spec (name : Name) (table : Table s transit final)
    (dir : (s.inode dp).type = .dir) : Ends bad (dirlookup dp name s) fun r =>
      r.1 = (lookup (s.inode dp).entries name).map Prod.swap ∧ Same transit s r.2 ∧
      Table r.2 ((r.1.map Prod.fst).toList ++ transit) final := by
  rw [dirlookup, if_neg (by rw [dir]; exact fun ne => ne rfl)]
  cases lookup (s.inode dp).entries name with
  | none => exact ⟨rfl, .refl, table⟩
  | some entry => exact ⟨rfl, iget_same table, iget_table table⟩

theorem namexLoop_spec (parent : Bool) (names : List Name) (table : Table s (ip :: transit) final)
    (sub : final ⊆ transit)
    (safe : walk parent s.inode ip names = .error .ilockNoType → bad .ilockNoType) :
    Ends bad (namexLoop parent ip names s) fun r => walk parent s.inode ip names = .ok r.1 ∧
      Same transit s r.2 ∧ Table r.2 ((r.1.map Prod.fst).toList ++ transit) final := by
  induction names generalizing s ip with
  | nil =>
    cases parent with
    | false =>
      rw [namexLoop, ends_ok]
      exact ⟨rfl, .refl, table⟩
    | true =>
      rw [namexLoop, ends_ok]
      exact ⟨rfl, iput_same table sub, iput_table table sub⟩
  | cons name rest ih =>
    rw [walk] at safe ⊢
    rw [namexLoop]
    refine (ilock_spec table List.mem_cons_self fun free => safe (if_pos free)).bind ?_
    rintro s₁ ⟨same₁, table₁, typed, -⟩
    rw [if_neg typed] at safe ⊢
    rw [same₁.inode]
    by_cases notDir : (s.inode ip).type ≠ .dir
    · rw [if_pos notDir, if_pos notDir, ends_ok]
      exact ⟨rfl, same₁.tail.trans (iput_same table₁ sub), iput_table table₁ sub⟩
    rw [if_neg notDir] at safe ⊢
    rw [if_neg notDir]
    have dir : (s₁.inode ip).type = .dir := by
      rw [same₁.inode]
      exact not_not.mp notDir
    split
    · next last =>
      rw [ends_ok]
      exact ⟨rfl, same₁.tail, table₁⟩
    · next more =>
      rw [if_neg more] at safe
      refine (dirlookup_spec name table₁ dir).bind ?_
      rintro ⟨found, s₂⟩ ⟨found_eq, same₂, table₂⟩
      rw [same₁.inode] at found_eq
      cases here : lookup (s.inode ip).entries name with
      | none =>
        rw [here] at found_eq
        subst found_eq
        show Ends bad (.ok (none, iput ip s₂)) _
        have same₃ := iput_same table₂ sub
        exact ⟨rfl, same₁.tail.trans (same₂.tail.trans same₃), iput_table table₂ sub⟩
      | some entry =>
        obtain ⟨off, next⟩ := entry
        rw [here] at found_eq safe
        subst found_eq
        show Ends bad (namexLoop parent next rest (iput ip s₂)) _
        have table₃ : Table s₂ (ip :: next :: transit) final := table₂.perm (.swap _ _ _)
        have sub₃ : final ⊆ next :: transit := fun i mem => .tail _ (sub mem)
        have same₃ : Same transit s (iput ip s₂) :=
          same₁.tail.trans (same₂.tail.trans (iput_same table₃ sub₃).tail)
        have later := ih (iput_table table₃ sub₃)
        rw [same₃.inode] at later
        refine (later safe).imp ?_
        rintro r ⟨walked, same₄, table₄⟩
        exact ⟨walked, same₃.trans same₄, table₄⟩

theorem namex_spec (parent : Bool) {cwd : Nat} (path : List UInt8) (table : Table s transit final)
    (held : 0 < holders s cwd)
    (safe : walk parent s.inode (startOf cwd path) (elements path) = .error .ilockNoType →
      bad .ilockNoType) :
    Ends bad (namex parent cwd path s) fun r =>
      walk parent s.inode (startOf cwd path) (elements path) = .ok r.1 ∧
      Same transit s r.2 ∧ Table r.2 ((r.1.map Prod.fst).toList ++ transit) final := by
  rw [namex]
  by_cases rooted : path.head? = some slash
  · have start : startOf cwd path = rootino := if_pos rooted
    rw [if_pos rooted]
    rw [start] at safe ⊢
    refine (namexLoop_spec parent _ (iget_table table) table.final_sub safe).imp ?_
    rintro r ⟨walked, same, table'⟩
    exact ⟨walked, (iget_same table).trans same, table'⟩
  · have start : startOf cwd path = cwd := if_neg rooted
    rw [if_neg rooted]
    rw [start] at safe ⊢
    refine (namexLoop_spec parent _ (idup_table table held) table.final_sub safe).imp ?_
    rintro r ⟨walked, same, table'⟩
    exact ⟨walked, idup_same.trans same, table'⟩

/-- The directory of a path that `walk` finds is one. -/
theorem walk_parent {inode : Nat → Inode} {names : List Name} {name : Name}
    (walked : walk true inode ip names = .ok (some (dp, name))) : (inode dp).type = .dir := by
  induction names generalizing ip with
  | nil => cases walked
  | cons first rest ih =>
    rw [walk] at walked
    split at walked
    · cases walked
    split at walked
    · cases walked
    · next dir =>
      split at walked
      · cases walked
        exact not_not.mp dir
      · split at walked
        · exact ih walked
        · cases walked

/-! ## Directories -/

theorem dirlink_spec (name : Name) (inum : Nat) (space : Bool) (table : Table s transit final)
    (dir : (s.inode dp).type = .dir) : Ends bad (dirlink dp name inum space s) fun r =>
      Kept transit s r.2 ∧ Table r.2 transit final ∧
      if r.1 then lookup (s.inode dp).entries name = none ∧ ∃ entries,
        writeDirent (s.inode dp).entries { inum := inum, name := name } space = some entries ∧
        r.2.inode = Function.update s.inode dp { s.inode dp with entries := entries }
      else r.2.inode = s.inode := by
  rw [dirlink]
  refine (dirlookup_spec name table dir).bind ?_
  rintro ⟨found, s₁⟩ ⟨found_eq, same, table₁⟩
  cases here : lookup (s.inode dp).entries name with
  | some entry =>
    rw [here] at found_eq
    subst found_eq
    show Ends bad (.ok (false, iput entry.2 s₁)) _
    have same' := same.trans (iput_same table₁ table.final_sub)
    exact ⟨same'.toKept, iput_table table₁ table.final_sub, same'.inode⟩
  | none =>
    rw [here] at found_eq
    obtain rfl : found = none := found_eq
    have inode : s₁.inode = s.inode := same.inode
    cases written : writeDirent (s.inode dp).entries { inum := inum, name := name } space with
    | none =>
      simp only [inode, written, ends_ok]
      exact ⟨same.toKept, table₁, trivial⟩
    | some entries =>
      simp only [inode, written, ends_ok]
      have typed : (s₁.inode dp).type ≠ .free := by
        rw [inode, dir]
        simp
      refine ⟨⟨same.file, same.proc, same.valid⟩, table₁.setInode typed typed .inl, ?_⟩
      exact ⟨trivial, entries, rfl, by simp only [State.setEntries, State.setInode, inode]⟩

variable (bad) in
/-- The new inode is locked and gets its link. -/
theorem ialloc_spec {type : FileType} (typed : type ≠ .free) (major : Int)
    (table : Table s transit final) (found : ialloc type s = some (ip, s₁)) :
    0 < ip ∧ ip < Mkfs.ninodes ∧ (s.inode ip).type = .free ∧ Ends bad (ilock ip s₁) fun s₂ =>
      Kept transit s s₂ ∧
      s₂.inode = Function.update s.inode ip
        { type := type, major := 0, nlink := 0, entries := [] } ∧
      Table (s₂.setInode ip { s₂.inode ip with major := major, nlink := 1 }) (ip :: transit)
        (ip :: final) := by
  rw [ialloc, Option.map_eq_some_iff] at found
  obtain ⟨inum, first, pair⟩ := found
  obtain ⟨rfl, rfl⟩ := Prod.mk.inj pair
  have mem := List.mem_of_find?_eq_some first
  have free : (s.inode inum).type = .free := by simpa using List.find?_some first
  rw [List.mem_range'_1] at mem
  refine ⟨by omega, by simp only [Mkfs.ninodes] at mem ⊢; omega, free, ?_⟩
  generalize node_eq : Inode.mk type 0 0 [] = node
  have node_type : node.type = type := by rw [← node_eq]
  -- a free inode is not valid, also when the call refers to it
  have notValid : ¬ (iget inum (s.setInode inum node)).valid inum = true := by
    intro valid
    by_cases fresh : s.ref inum = 0
    · simp [iget, State.setInode, fresh] at valid
    · have old : s.valid inum = true := by simpa [iget, State.setInode, fresh] using valid
      exact table.valid inum old (by omega) free
  have some_ref : ¬ (iget inum (s.setInode inum node)).ref inum < 1 := by
    simp [iget]
  have typed' : ¬ ((iget inum (s.setInode inum node)).inode inum).type = .free := by
    simpa [iget, State.setInode, node_type] using typed
  rw [ilock, if_neg some_ref, if_neg notValid, if_neg typed', ends_ok]
  refine ⟨⟨rfl, rfl, fun j memJ valid => ?_⟩, rfl, ?_⟩
  · have kept : (iget inum (s.setInode inum node)).valid j = true :=
      iget_valid valid (table.referred memJ)
    exact setValid_valid kept
  · -- the same state as if the inode had its link from the start
    have linked : Table (s.setInode inum { node with major := major, nlink := 1 }) transit final :=
      table.take free (by rwa [node_type]) one_ne_zero
    have typed'' : (Function.update s.inode inum { node with major := major, nlink := 1 }
        inum).type ≠ .free := by
      rwa [Function.update_self, node_type]
    have locked := (setValid_table (iget_table linked) typed'').loosen List.mem_cons_self
      (Function.update_self _ _ _)
    simp only [State.setInode, State.setValid, iget, Function.update_idem,
      Function.update_self] at locked ⊢
    exact locked

end Sistemas.Xv6.Sysfile
