import Sistemas.Xv6.SysfilePaths

/-! # What system calls change

A completed call makes at most one `Change` to the directories, and then frees inodes whose
link count is 0.  `perform_spec` says so for every call, from the paths of the call and the
inodes before it, and that the references are in order again after it.
-/

namespace Sistemas.Xv6.Sysfile

variable {s s₁ : State} {transit final : List Nat} {i ip dp : Nat} {bad : Panic → Prop}

/-! ## Changes -/

/-- The path and type of the inode that the call is to create, and the blocks it gets. -/
def creates : Call → Option (List UInt8 × FileType × (Nat → Bool))
  | .open path omode space => if omode &&& oCreate ≠ 0 then some (path, .file, space) else none
  | .mkdir path space => some (path, .dir, space)
  | .mknod path _ space => some (path, .device, space)
  | _ => none

/-- The directory of the path and its last element. -/
def parentOf (inode : Nat → Inode) (cwd : Nat) (path : List UInt8) :
    Except Panic (Option (Nat × Name)) :=
  walk true inode (startOf cwd path) (elements path)

/-- The inode of the path. -/
def targetOf (inode : Nat → Inode) (cwd : Nat) (path : List UInt8) :
    Except Panic (Option (Nat × Name)) :=
  walk false inode (startOf cwd path) (elements path)

/-- `nlink` is a `short`. -/
def Inode.addNlink (ip : Inode) (n : Int) : Inode :=
  { ip with nlink := (ip.nlink + n).bmod (2 ^ 16) }

/-- The `..` of a directory counts as a link. -/
def Inode.addDotdot (dp : Inode) (type : FileType) (n : Int) : Inode :=
  if type = .dir then dp.addNlink n else dp

def newInode (type : FileType) (major : Int) (ip dp : Nat) : Inode where
  type := type
  major := major
  nlink := 1
  entries := if type = .dir then [{ inum := ip, name := dot }, { inum := dp, name := dotdot }] else []

inductive Change (inode : Nat → Inode) (cwd : Nat) : Call → (Nat → Inode) → Prop
  /-- No inode that is allocated changes. -/
  | none {call : Call} {inode' : Nat → Inode} (type : ∀ i, (inode' i).type = (inode i).type)
    (same : ∀ i, (inode i).type ≠ .free → inode' i = inode i) : Change inode cwd call inode'
  | create {call : Call} {path : List UInt8} {type : FileType} {dp ip : Nat} {name : Name}
    {space : Nat → Bool} {entries : List Dirent} (major : Int)
    (asked : creates call = some (path, type, space))
    (parent : parentOf inode cwd path = .ok (some (dp, name)))
    (new : lookup (inode dp).entries name = .none) (range : 0 < ip ∧ ip < Mkfs.ninodes)
    (free : (inode ip).type = .free) (dots : type = .dir → space 0 = true)
    (written : writeDirent (inode dp).entries { inum := ip, name := name } (space 2) =
      some entries) :
    Change inode cwd call (Function.update (Function.update inode ip (newInode type major ip dp)) dp
      (Inode.addDotdot { inode dp with entries := entries } type 1))
  | link {old path : List UInt8} {dp ip : Nat} {name last : Name} {space : Bool}
    {entries : List Dirent} (target : targetOf inode cwd old = .ok (some (ip, last)))
    (typed : (inode ip).type ≠ .free) (notDir : (inode ip).type ≠ .dir)
    (parent : parentOf inode cwd path = .ok (some (dp, name)))
    (new : lookup (inode dp).entries name = .none)
    (written : writeDirent (inode dp).entries { inum := ip, name := name } space = some entries) :
    Change inode cwd (.link old path space)
      (Function.update (Function.update inode ip ((inode ip).addNlink 1)) dp
        { inode dp with entries := entries })
  | unlink {path : List UInt8} {dp ip off : Nat} {name : Name}
    (parent : parentOf inode cwd path = .ok (some (dp, name)))
    (proper : name ≠ dot ∧ name ≠ dotdot)
    (found : lookup (inode dp).entries name = some (off, ip))
    (typed : (inode ip).type ≠ .free) (linked : 1 ≤ (inode ip).nlink)
    (empty : (inode ip).type = .dir → isdirempty (inode ip).entries = true) :
    Change inode cwd (.unlink path) (Function.update (Function.update inode dp
      (Inode.addDotdot { inode dp with
        entries := (inode dp).entries.set off { inum := 0, name := [] } } (inode ip).type (-1)))
      ip ((inode ip).addNlink (-1)))

/-- A directory starts with its own entry and that of its parent. -/
def Shaped (d : Nat) (dp : Inode) : Prop :=
  dp.type = .dir → ∃ up rest, dp.entries =
    { inum := d, name := dot } :: { inum := up, name := dotdot } :: rest ∧ up ≠ 0 ∧
    ∀ de ∈ rest, de.inum ≠ 0 → de.name ≠ dot ∧ de.name ≠ dotdot

/-- Every entry of a directory names an allocated inode. -/
structure Closed (inode : Nat → Inode) : Prop where
  root : (inode rootino).type ≠ .free
  entries : ∀ d, (inode d).type = .dir → ∀ de ∈ (inode d).entries, de.inum ≠ 0 →
    (inode de.inum).type ≠ .free

theorem lookup_some {entries : List Dirent} {name : Name} {off inum : Nat}
    (found : lookup entries name = some (off, inum)) :
    ∃ de, entries[off]? = some de ∧ de.inum = inum ∧ de.inum ≠ 0 ∧ de.name = name := by
  rw [lookup, Option.bind_eq_some_iff] at found
  obtain ⟨off', first, at_off⟩ := found
  rw [Option.map_eq_some_iff] at at_off
  obtain ⟨de, here, pair⟩ := at_off
  obtain ⟨rfl, rfl⟩ := Prod.mk.inj pair
  rw [List.findIdx?_eq_some_iff_getElem] at first
  obtain ⟨below, matched, -⟩ := first
  have value := here
  rw [List.getElem?_eq_getElem below, Option.some_inj] at value
  rw [value] at matched
  have occupied : de.inum ≠ 0 ∧ de.name = name := by simpa using matched
  exact ⟨de, here, rfl, occupied⟩

theorem lookup_mem {entries : List Dirent} {name : Name} {off inum : Nat}
    (found : lookup entries name = some (off, inum)) :
    ∃ de ∈ entries, de.inum = inum ∧ de.inum ≠ 0 := by
  obtain ⟨de, here, inum_eq, occupied, -⟩ := lookup_some found
  exact ⟨de, List.mem_of_getElem? here, inum_eq, occupied⟩

/-- Other names stand behind the first two entries. -/
theorem lookup_rest {first second : Dirent} {rest : List Dirent} {name : Name} {off inum : Nat}
    (first_ne : first.name ≠ name) (second_ne : second.name ≠ name)
    (found : lookup (first :: second :: rest) name = some (off, inum)) :
    ∃ k de, off = k + 2 ∧ rest[k]? = some de ∧ de.inum = inum ∧ de.inum ≠ 0 := by
  obtain ⟨de, here, inum_eq, occupied, name_eq⟩ := lookup_some found
  match off with
  | 0 =>
    cases here
    exact absurd name_eq first_ne
  | 1 =>
    cases here
    exact absurd name_eq second_ne
  | k + 2 => exact ⟨k, de, rfl, here, inum_eq, occupied⟩

theorem Shaped.not_empty {d off inum : Nat} {dp : Inode} {name : Name} (shaped : Shaped d dp)
    (dir : dp.type = .dir) (proper : name ≠ dot ∧ name ≠ dotdot)
    (found : lookup dp.entries name = some (off, inum)) : ¬ isdirempty dp.entries = true := by
  obtain ⟨up, rest, entries, -, -⟩ := shaped dir
  rw [entries] at found ⊢
  obtain ⟨k, de, -, here, -, occupied⟩ := lookup_rest proper.1.symm proper.2.symm found
  intro empty
  simp only [isdirempty, List.drop_succ_cons, List.drop_zero, List.all_eq_true,
    decide_eq_true_eq] at empty
  exact occupied (empty de (List.mem_of_getElem? here))

/-- `walk` panics only at an inode that is free. -/
theorem walk_error {parent : Bool} {inode : Nat → Inode} {names : List Name} {e : Panic}
    (closed : Closed inode) (typed : (inode ip).type ≠ .free) :
    walk parent inode ip names ≠ .error e := by
  induction names generalizing ip with
  | nil =>
    intro failed
    cases failed
  | cons name rest ih =>
    rw [walk, if_neg typed]
    split
    · simp
    · next dir =>
      split
      · simp
      · split
        · next off next found =>
          obtain ⟨de, mem, rfl, occupied⟩ := lookup_mem found
          exact ih (closed.entries ip (not_not.mp dir) de mem occupied)
        · simp

theorem walk_typed {parent : Bool} {inode : Nat → Inode} {names : List Name} {name : Name}
    (closed : Closed inode) (typed : (inode i).type ≠ .free)
    (walked : walk parent inode i names = .ok (some (ip, name))) : (inode ip).type ≠ .free := by
  induction names generalizing i with
  | nil =>
    cases parent with
    | true => cases walked
    | false =>
      cases walked
      exact typed
  | cons first rest ih =>
    rw [walk, if_neg typed] at walked
    split at walked
    · cases walked
    · next dir =>
      split at walked
      · cases walked
        exact typed
      · split at walked
        · next off next found =>
          obtain ⟨de, mem, rfl, occupied⟩ := lookup_mem found
          exact ih (closed.entries i (not_not.mp dir) de mem occupied) walked
        · cases walked

/-- A walk looks at types and entries only. -/
theorem walk_congr {parent : Bool} {inode inode' : Nat → Inode} (names : List Name)
    (type : ∀ i, (inode' i).type = (inode i).type)
    (entries : ∀ i, (inode' i).entries = (inode i).entries) :
    walk parent inode' ip names = walk parent inode ip names := by
  induction names generalizing ip with
  | nil => rfl
  | cons name rest ih =>
    simp only [walk, type, entries]
    split
    · rfl
    split
    · rfl
    split
    · rfl
    · split
      · exact ih
      · rfl

/-! ## `create` -/

/-- The first two entries of a new directory. -/
theorem makeDots_spec (space : Nat → Bool) (table : Table s transit final)
    (dir : (s.inode ip).type = .dir) (new : (s.inode ip).entries = []) (inum : ip ≠ 0) :
    Ends bad (makeDots ip dp space s) fun r => Kept transit s r.2 ∧ Table r.2 transit final ∧
      ∃ entries, r.2.inode = Function.update s.inode ip { s.inode ip with entries := entries } ∧
        (r.1 = true → space 0 = true ∧
          entries = [{ inum := ip, name := dot }, { inum := dp, name := dotdot }]) := by
  rw [makeDots]
  refine (dirlink_spec dot ip (space 0) table dir).bind ?_
  rintro ⟨made, s₁⟩ ⟨kept₁, table₁, result₁⟩
  cases made with
  | false =>
    show Ends bad (.ok (false, s₁)) _
    refine ⟨kept₁, table₁, (s.inode ip).entries, ?_, nofun⟩
    rw [Function.update_eq_self]
    exact result₁
  | true =>
    obtain ⟨-, entries₁, written₁, inode₁⟩ := result₁
    obtain ⟨room, rfl⟩ : space 0 = true ∧ entries₁ = [{ inum := ip, name := dot }] := by
      rw [new] at written₁
      simp only [writeDirent, List.findIdx?_nil] at written₁
      split at written₁
      next room => exact ⟨by simpa using room.2, (Option.some.inj written₁).symm⟩
      next => cases written₁
    have here : s₁.inode ip = { s.inode ip with entries := [{ inum := ip, name := dot }] } := by
      rw [inode₁, Function.update_self]
    show Ends bad (dirlink ip dotdot dp (space 1) s₁) _
    have dir₁ : (s₁.inode ip).type = .dir := by rw [here, dir]
    refine (dirlink_spec dotdot dp (space 1) table₁ dir₁).imp ?_
    rintro ⟨made, s₂⟩ ⟨kept₂, table₂, result₂⟩
    refine ⟨kept₁.trans kept₂, table₂, ?_⟩
    cases made with
    | false => exact ⟨_, result₂.trans inode₁, nofun⟩
    | true =>
      obtain ⟨-, entries₂, written₂, inode₂⟩ := result₂
      refine ⟨entries₂, ?_, fun _ => ⟨room, ?_⟩⟩
      · rw [inode₂, inode₁, Function.update_idem, Function.update_self]
      · rw [here] at written₂
        simp only [writeDirent, List.findIdx?_singleton, decide_eq_true_eq, if_neg inum] at written₂
        split at written₂
        · exact (Option.some.inj written₂).symm
        · cases written₂

theorem enter_spec {type : FileType} {major : Int} {name : Name} {space : Nat → Bool}
    {inode : Nat → Inode} (table : Table s transit final)
    (dir : (inode dp).type = .dir) (free : (inode ip).type = .free) (inum : ip ≠ 0)
    (taken : s.inode = Function.update inode ip
      { type := type, major := major, nlink := 1, entries := [] }) :
    Ends bad (enter type ip dp name space s) fun r => Kept transit s r.2 ∧ Table r.2 transit final ∧
      if r.1 then (type = .dir → space 0 = true) ∧ lookup (inode dp).entries name = none ∧ ∃ entries,
        writeDirent (inode dp).entries { inum := ip, name := name } (space 2) = some entries ∧
        r.2.inode = Function.update (Function.update inode ip (newInode type major ip dp)) dp
          { inode dp with entries := entries }
      else ∃ entries, r.2.inode = Function.update inode ip
        { type := type, major := major, nlink := 1, entries := entries } := by
  have ne : dp ≠ ip := by
    rintro rfl
    rw [free] at dir
    cases dir
  have joined : enter type ip dp name space s =
      (if type = .dir then makeDots ip dp space s else .ok (true, s)) >>= fun r =>
        if r.1 = true then dirlink dp name ip (space 2) r.2 else .ok (false, r.2) := by
    rw [enter]
    split <;> rfl
  rw [joined]
  have dots : Ends bad (if type = .dir then makeDots ip dp space s else .ok (true, s)) fun r =>
      Kept transit s r.2 ∧ Table r.2 transit final ∧ ∃ entries,
        r.2.inode = Function.update inode ip
          { type := type, major := major, nlink := 1, entries := entries } ∧
        (r.1 = true → (type = .dir → space 0 = true) ∧
          r.2.inode = Function.update inode ip (newInode type major ip dp)) := by
    split
    · next isDir =>
      have here : s.inode ip = { type := type, major := major, nlink := 1, entries := [] } := by
        rw [taken, Function.update_self]
      refine (makeDots_spec space table (by rw [here, isDir]) (by rw [here]) inum).imp ?_
      rintro r ⟨kept, table', entries, inode', done⟩
      rw [here, taken, Function.update_idem] at inode'
      refine ⟨kept, table', entries, inode', fun made => ?_⟩
      obtain ⟨room, rfl⟩ := done made
      refine ⟨fun _ => room, ?_⟩
      rw [inode', newInode, if_pos isDir]
    · next notDir =>
      refine ⟨.refl, table, [], taken, fun _ => ⟨fun isDir => absurd isDir notDir, ?_⟩⟩
      rw [taken, newInode, if_neg notDir]
  refine dots.bind ?_
  rintro ⟨made, s₁⟩ ⟨kept₁, table₁, entries₁, inode₁, done⟩
  cases made with
  | false => exact ⟨kept₁, table₁, entries₁, inode₁⟩
  | true =>
    obtain ⟨room, inode₂⟩ := done rfl
    have there : s₁.inode dp = inode dp := by
      rw [inode₂, Function.update_of_ne ne]
    show Ends bad (dirlink dp name ip (space 2) s₁) _
    refine (dirlink_spec name ip (space 2) table₁ (by rw [there, dir])).imp ?_
    rintro ⟨linked, s₂⟩ ⟨kept₂, table₂, result⟩
    refine ⟨kept₁.trans kept₂, table₂, ?_⟩
    cases linked with
    | false => exact ⟨entries₁, result.trans inode₁⟩
    | true =>
      obtain ⟨new, entries, written, inode₃⟩ := result
      rw [there] at new written
      refine ⟨room, new, entries, written, ?_⟩
      rw [inode₃, there, inode₂]

/-- The directory of the new inode is put. -/
theorem created_spec {inode : Nat → Inode} {type : FileType} {major : Int} {entries : List Dirent}
    (table : Table s [ip, dp] [ip, dp]) (typed : type ≠ .free) (dir : (inode dp).type = .dir)
    (ne : dp ≠ ip)
    (entered : s.inode = Function.update (Function.update inode ip (newInode type major ip dp)) dp
      { inode dp with entries := entries })
    (s₁ : State) (counted : s₁ = if type = .dir then s.addNlink dp 1 else s) :
    Kept [] s (iput dp s₁) ∧ Table (iput dp s₁) [ip] [] ∧
      ((iput dp s₁).inode ip).type ≠ .free ∧
      Frees (Function.update (Function.update inode ip (newInode type major ip dp)) dp
        (Inode.addDotdot { inode dp with entries := entries } type 1)) (iput dp s₁).inode := by
  have here : s.inode dp = { inode dp with entries := entries } := by
    rw [entered, Function.update_self]
  have inode₁ : s₁.inode = Function.update (Function.update inode ip (newInode type major ip dp))
      dp (Inode.addDotdot { inode dp with entries := entries } type 1) := by
    rw [counted, Inode.addDotdot]
    split
    · simp only [State.addNlink, State.setInode, here, entered, Function.update_idem,
        Inode.addNlink]
    · exact entered
  have kept₁ : Kept [ip, dp] s s₁ := by
    rw [counted]
    split
    · exact ⟨rfl, rfl, fun _ _ valid => valid⟩
    · exact .refl
  have table₁ : Table s₁ [ip, dp] [ip, dp] := by
    rw [counted]
    split
    · have typedDp : (s.inode dp).type ≠ .free := by
        rw [here, dir]
        simp
      exact table.setInode typedDp typedDp fun _ => .inr (by simp)
    · exact table
  have inode_ip : s₁.inode ip = newInode type major ip dp := by
    rw [inode₁, Function.update_of_ne ne.symm, Function.update_self]
  -- the new inode has its link, so only the directory may have lost its last one
  have table₂ : Table s₁ [dp, ip] [dp] := by
    refine (table₁.tighten (by simp) ?_).perm (.swap _ _ _)
    intro j mem out nlink
    have eq : j = ip := by simpa [out] using mem
    rw [eq, inode_ip] at nlink
    cases nlink
  have last : dp ∉ [ip] := by simpa using ne
  obtain ⟨table₃, kept₃, inode₃⟩ := iput_last table₂ last (List.nil_subset _)
  refine ⟨(kept₁.mono (List.nil_subset _)).trans (kept₃.mono (List.nil_subset _)), table₃, ?_, ?_⟩
  · rw [inode₃]
    split
    · rw [Function.update_of_ne ne.symm, inode_ip]
      exact typed
    · rw [inode_ip]
      exact typed
  · rw [← inode₁]
    exact iput_last_frees table₂ last (List.nil_subset _)

/-- `something went wrong. de-allocate ip.` -/
theorem scrapped_spec {inode : Nat → Inode} {type : FileType} {major : Int}
    {entries : List Dirent} (table : Table s [ip, dp] [ip, dp]) (typed : type ≠ .free)
    (ne : dp ≠ ip) (unheld : holders s ip = 0)
    (stays : (inode dp).nlink = 0 → 0 < holders s dp)
    (entered : s.inode = Function.update inode ip
      { type := type, major := major, nlink := 1, entries := entries })
    (s₁ : State) (counted : s₁ = s.setInode ip { s.inode ip with nlink := 0 }) :
    Kept [] s (iput dp (iput ip s₁)) ∧ Table (iput dp (iput ip s₁)) [] [] ∧
      ∀ i, if i = ip then ((iput dp (iput ip s₁)).inode i).type = .free
        else (iput dp (iput ip s₁)).inode i = inode i := by
  have here : s.inode ip = { type := type, major := major, nlink := 1, entries := entries } := by
    rw [entered, Function.update_self]
  have inode₁ : s₁.inode = Function.update inode ip
      { type := type, major := major, nlink := 0, entries := entries } := by
    simp only [counted, State.setInode, here, entered, Function.update_idem]
  have kept₁ : Kept [ip, dp] s s₁ := by
    rw [counted]
    exact ⟨rfl, rfl, fun _ _ valid => valid⟩
  have table₁ : Table s₁ [ip, dp] [ip, dp] := by
    rw [counted]
    refine table.setInode ?_ ?_ fun _ => .inr (by simp)
    · rw [here]
      exact typed
    · rw [here]
      exact typed
  have table₂ : Table s₁ [ip, dp] [ip] := by
    refine table₁.tighten (by simp) ?_
    intro j mem out nlink
    have out' : j ≠ ip := by simpa using out
    have eq : j = dp := by simpa [out'] using mem
    rw [eq, inode₁, Function.update_of_ne ne] at nlink
    rw [eq, kept₁.holders]
    exact stays nlink
  have last : ip ∉ [dp] := by simpa using ne.symm
  obtain ⟨table₃, kept₃, inode₃⟩ := iput_last table₂ last (List.nil_subset _)
  have gone : holders s₁ ip = 0 ∧ (s₁.inode ip).nlink = 0 := by
    rw [kept₁.holders, inode₁, Function.update_self]
    exact ⟨unheld, rfl⟩
  rw [if_pos gone, inode₁, Function.update_idem] at inode₃
  have same₄ := iput_same table₃ (List.nil_subset _)
  have kept : Kept [] s (iput dp (iput ip s₁)) :=
    (kept₁.mono (List.nil_subset _)).trans ((kept₃.mono (List.nil_subset _)).trans same₄.toKept)
  refine ⟨kept, iput_table table₃ (List.nil_subset _), fun i => ?_⟩
  rw [same₄.inode, inode₃]
  split
  · next eq =>
    rw [eq, Function.update_self]
    rfl
  · next other => rw [Function.update_of_ne other]

/-- The only panic in question is `ilock: no type`, and it needs an entry that names a free
    inode. -/
def Unclosed (inode : Nat → Inode) (e : Panic) : Prop := Closed inode → e ≠ .ilockNoType

theorem namex_unclosed {parent : Bool} {cwd : Nat} (path : List UInt8)
    (table : Table s transit final) (held : 0 < holders s cwd) :
    walk parent s.inode (startOf cwd path) (elements path) = .error .ilockNoType →
      Unclosed s.inode .ilockNoType := by
  intro walked closed
  refine absurd walked (walk_error closed ?_)
  rw [startOf]
  split
  · exact closed.root
  · exact table.typed held

theorem namex_typed {parent : Bool} {cwd : Nat} {path : List UInt8} {name : Name}
    (table : Table s transit final) (held : 0 < holders s cwd) (closed : Closed s.inode)
    (walked : walk parent s.inode (startOf cwd path) (elements path) = .ok (some (ip, name))) :
    (s.inode ip).type ≠ .free := by
  refine walk_typed closed ?_ walked
  rw [startOf]
  split
  · exact closed.root
  · exact table.typed held

theorem create_spec {cwd : Nat} {path : List UInt8} {type : FileType} {call : Call} (major : Int)
    (space : Nat → Bool) (asked : creates call = some (path, type, space)) (typed : type ≠ .free)
    (table : Table s [] []) (held : 0 < holders s cwd) :
    Ends (Unclosed s.inode) (create cwd path type major space s) fun r => Kept [] s r.2 ∧
      Table r.2 r.1.toList [] ∧ (∀ ip ∈ r.1, (r.2.inode ip).type ≠ .free) ∧
      ∃ mid, Change s.inode cwd call mid ∧ Frees mid r.2.inode := by
  have unchanged : Change s.inode cwd call s.inode := .none (fun _ => rfl) (fun _ _ => rfl)
  rw [create]
  refine (namex_spec true path table held (namex_unclosed path table held)).bind ?_
  rintro ⟨found, s₁⟩ ⟨walked, same₁, table₁⟩
  cases found with
  | none =>
    show Ends _ (.ok (none, s₁)) _
    refine ⟨same₁.toKept, table₁, by simp, s.inode, unchanged, ?_⟩
    rw [same₁.inode]
    exact .refl
  | some pair =>
  obtain ⟨dp, name⟩ := pair
  have dir : (s.inode dp).type = .dir := walk_parent walked
  have mem_dp : dp ∈ [dp] := List.mem_singleton_self dp
  refine (ilock_spec table₁ mem_dp ?_).bind ?_
  · rw [same₁.inode, dir]
    simp
  rintro s₂ ⟨same₂, table₂, -, valid₂⟩
  have same₂' : Same [] s s₂ := same₁.trans same₂.tail
  refine (dirlookup_spec name table₂ (by rw [same₂'.inode, dir])).bind ?_
  rintro ⟨found, s₃⟩ ⟨found_eq, same₃, table₃⟩
  have same₃' : Same [] s s₃ := same₂'.trans same₃.tail
  rw [same₂'.inode] at found_eq
  cases here : lookup (s.inode dp).entries name with
  | some entry =>
    obtain ⟨off, ip⟩ := entry
    rw [here] at found_eq
    obtain rfl : found = some (ip, off) := found_eq
    have table₃' : Table s₃ [dp, ip] [] := table₃.perm (.swap _ _ _)
    have same₄ : Same [] s (iput dp s₃) :=
      same₃'.trans (iput_same table₃' (List.nil_subset _)).tail
    refine (ilock_spec (iput_table table₃' (List.nil_subset _)) (List.mem_singleton_self ip) ?_).bind
      ?_
    · rw [same₄.inode]
      intro free closed
      obtain ⟨de, mem, rfl, occupied⟩ := lookup_mem here
      exact absurd free (closed.entries dp dir de mem occupied)
    · rintro s₅ ⟨same₅, table₅, typed₅, -⟩
      have same₅' : Same [] s s₅ := same₄.trans same₅.tail
      split
      · refine ⟨same₅'.toKept, table₅, ?_, s.inode, unchanged, ?_⟩
        · rintro i ⟨⟩
          rw [same₅.inode]
          exact typed₅
        · rw [same₅'.inode]
          exact .refl
      · have same₆ := same₅'.trans (iput_same table₅ (List.nil_subset _))
        refine ⟨same₆.toKept, iput_table table₅ (List.nil_subset _), by simp, s.inode, unchanged, ?_⟩
        rw [same₆.inode]
        exact .refl
  | none =>
  rw [here] at found_eq
  obtain rfl : found = none := found_eq
  cases allocated : ialloc type s₃ with
  | none =>
    simp only [allocated, ends_ok]
    have same₄ := same₃'.trans (iput_same table₃ (List.nil_subset _))
    refine ⟨same₄.toKept, iput_table table₃ (List.nil_subset _), by simp, s.inode, unchanged, ?_⟩
    rw [same₄.inode]
    exact .refl
  | some pair =>
  obtain ⟨ip, s₄⟩ := pair
  have loose : Table s₃ [dp] [dp] := table₃.loosen mem_dp (same₃.valid dp mem_dp valid₂)
  obtain ⟨positive, range, free, locked⟩ :=
    ialloc_spec (Unclosed s.inode) typed major loose allocated
  rw [same₃'.inode] at free
  have ne : dp ≠ ip := by
    rintro rfl
    rw [free] at dir
    cases dir
  simp only [allocated]
  refine locked.bind ?_
  rintro s₅ ⟨kept₅, inode₅, table₅⟩
  have kept₅' : Kept [] s s₅ := same₃'.toKept.trans (kept₅.mono (List.nil_subset _))
  rw [same₃'.inode] at inode₅
  have taken : (s₅.setInode ip { s₅.inode ip with major := major, nlink := 1 }).inode =
      Function.update s.inode ip { type := type, major := major, nlink := 1, entries := [] } := by
    simp only [State.setInode, inode₅, Function.update_idem, Function.update_self]
  refine (enter_spec table₅ dir free (by omega) taken).bind ?_
  rintro ⟨linked, s₇⟩ ⟨kept₇, table₇, result⟩
  have kept₇' : Kept [] s s₇ :=
    kept₅'.trans ⟨kept₇.file, kept₇.proc, by simp⟩
  cases linked with
  | true =>
    obtain ⟨room, -, entries, written, inode₇⟩ := result
    obtain ⟨kept₈, table₈, typed₈, frees⟩ := created_spec table₇ typed dir ne inode₇ _ rfl
    refine ⟨kept₇'.trans kept₈, table₈, ?_, _, ?_, frees⟩
    · rintro i ⟨⟩
      exact typed₈
    · exact .create major asked walked here ⟨positive, range⟩ free room written
  | false =>
    obtain ⟨entries, inode₇⟩ := result
    have unheld : holders s₇ ip = 0 := by
      rw [kept₇'.holders]
      exact table.unheld ip free
    have stays : (s.inode dp).nlink = 0 → 0 < holders s₇ dp := by
      intro nlink
      rw [kept₇'.holders]
      have typedDp : (s.inode dp).type ≠ .free := by
        rw [dir]
        simp
      exact (table.removed dp typedDp nlink).2.resolve_right List.not_mem_nil
    obtain ⟨kept₈, table₈, rest⟩ := scrapped_spec table₇ typed ne unheld stays inode₇ _ rfl
    refine ⟨kept₇'.trans kept₈, table₈, by simp, _, .none ?_ ?_, .refl⟩
    · intro i
      have := rest i
      split at this
      · next eq => exact this.trans (by rw [eq, free])
      · exact congrArg Inode.type this
    · intro i typedI
      have := rest i
      split at this
      · next eq => exact absurd (eq ▸ free) typedI
      · exact this

/-! ## `link` and `unlink` -/

theorem namei_spec {cwd : Nat} (path : List UInt8) (table : Table s transit final)
    (held : 0 < holders s cwd)
    (safe : targetOf s.inode cwd path = .error .ilockNoType → bad .ilockNoType) :
    Ends bad (namei cwd path s) fun r => (∀ ip ∈ r.1, ∃ name,
        targetOf s.inode cwd path = .ok (some (ip, name))) ∧
      Same transit s r.2 ∧ Table r.2 (r.1.toList ++ transit) final := by
  rw [namei]
  refine (namex_spec false path table held safe).bind ?_
  rintro ⟨found, s₁⟩ ⟨walked, same, table₁⟩
  refine ⟨?_, same, table₁⟩
  intro ip mem
  obtain ⟨⟨ip', name⟩, rfl, rfl⟩ := Option.map_eq_some_iff.mp mem
  exact ⟨name, walked⟩

theorem linkName_spec {cwd : Nat} (path : List UInt8) (space : Bool)
    (table : Table s transit final) (held : 0 < holders s cwd)
    (safe : parentOf s.inode cwd path = .error .ilockNoType → bad .ilockNoType) :
    Ends bad (linkName cwd ip path space s) fun r => Kept transit s r.2 ∧
      Table r.2 transit final ∧
      if r.1 then ∃ dp name entries, parentOf s.inode cwd path = .ok (some (dp, name)) ∧
        lookup (s.inode dp).entries name = none ∧
        writeDirent (s.inode dp).entries { inum := ip, name := name } space = some entries ∧
        r.2.inode = Function.update s.inode dp { s.inode dp with entries := entries }
      else r.2.inode = s.inode := by
  rw [linkName]
  refine (namex_spec true path table held safe).bind ?_
  rintro ⟨found, s₁⟩ ⟨walked, same₁, table₁⟩
  cases found with
  | none => exact ⟨same₁.toKept, table₁, same₁.inode⟩
  | some pair =>
    obtain ⟨dp, name⟩ := pair
    have dir : (s.inode dp).type = .dir := walk_parent walked
    refine (ilock_spec table₁ List.mem_cons_self ?_).bind ?_
    · rw [same₁.inode, dir]
      exact nofun
    rintro s₂ ⟨same₂, table₂, -, -⟩
    have same₂' := same₁.trans same₂.tail
    refine (dirlink_spec name ip space table₂ (by rw [same₂'.inode, dir])).bind ?_
    rintro ⟨linked, s₃⟩ ⟨kept₃, table₃, result⟩
    have sub := table.final_sub
    have same₄ := iput_same table₃ sub
    have kept : Kept transit s (iput dp s₃) :=
      same₂'.toKept.trans ((kept₃.mono (List.subset_cons_self _ _)).trans same₄.toKept)
    refine ⟨kept, iput_table table₃ sub, ?_⟩
    cases linked with
    | false => exact same₄.inode.trans (result.trans same₂'.inode)
    | true =>
      obtain ⟨new, entries, written, inode₃⟩ := result
      rw [same₂'.inode] at new written inode₃
      exact ⟨dp, name, entries, walked, new, written, same₄.inode.trans inode₃⟩

theorem sysLink_spec {q : Proc} (old path : List UInt8) (space : Bool) (table : Table s [] [])
    (held : 0 < holders s q.cwd)
    (short : ∀ i, (s.inode i).type ≠ .free → (s.inode i).nlink.bmod (2 ^ 16) = (s.inode i).nlink) :
    Ends (Unclosed s.inode) (sysLink q old path space s) fun r => Kept [] s r.2 ∧
      Table r.2 [] [] ∧ ∃ mid, Change s.inode q.cwd (.link old path space) mid ∧
        Frees mid r.2.inode := by
  have unchanged : Change s.inode q.cwd (.link old path space) s.inode :=
    .none (fun _ => rfl) (fun _ _ => rfl)
  rw [sysLink]
  refine (namei_spec old table held (namex_unclosed old table held)).bind ?_
  rintro ⟨found, s₁⟩ ⟨walked, same₁, table₁⟩
  cases found with
  | none =>
    refine ⟨same₁.toKept, table₁, s.inode, unchanged, ?_⟩
    rw [same₁.inode]
    exact .refl
  | some ip =>
  obtain ⟨last, target⟩ := walked ip rfl
  refine (ilock_spec table₁ (List.mem_singleton_self ip) ?_).bind ?_
  · rw [same₁.inode]
    intro free closed
    exact absurd free (namex_typed table held closed target)
  rintro s₂ ⟨same₂, table₂, typed, valid₂⟩
  have same₂' : Same [] s s₂ := same₁.trans same₂.tail
  rw [same₁.inode] at typed
  by_cases dir : (s₂.inode ip).type = .dir
  · rw [if_pos dir]
    have same₃ := same₂'.trans (iput_same table₂ (List.nil_subset _))
    refine ⟨same₃.toKept, iput_table table₂ (List.nil_subset _), s.inode, unchanged, ?_⟩
    rw [same₃.inode]
    exact .refl
  rw [if_neg dir]
  rw [same₂'.inode] at dir
  have typed₂ : (s₂.inode ip).type ≠ .free := by rwa [same₂'.inode]
  -- the count may become 0 by overflow
  have table₃ : Table (s₂.addNlink ip 1) [ip] [ip] :=
    (table₂.loosen (List.mem_singleton_self ip) valid₂).setInode typed₂ typed₂
      fun _ => .inr (List.mem_singleton_self ip)
  have inode₃ : (s₂.addNlink ip 1).inode =
      Function.update s.inode ip ((s.inode ip).addNlink 1) := by
    simp only [State.addNlink, State.setInode, Inode.addNlink, same₂'.inode]
  have kept₃ : Kept [] s (s₂.addNlink ip 1) := same₂'.toKept.trans ⟨rfl, rfl, by simp⟩
  have parent : parentOf (s₂.addNlink ip 1).inode q.cwd path = parentOf s.inode q.cwd path := by
    rw [inode₃]
    apply walk_congr
    · intro i
      by_cases here : i = ip
      · rw [here, Function.update_self]
        rfl
      · rw [Function.update_of_ne here]
    · intro i
      by_cases here : i = ip
      · rw [here, Function.update_self]
        rfl
      · rw [Function.update_of_ne here]
  have held₃ : 0 < holders (s₂.addNlink ip 1) q.cwd := by rwa [kept₃.holders]
  have safe : parentOf (s₂.addNlink ip 1).inode q.cwd path = .error .ilockNoType →
      Unclosed s.inode .ilockNoType := by
    rw [parent]
    exact namex_unclosed path table held
  refine (linkName_spec path space table₃ held₃ safe).bind ?_
  rintro ⟨linked, s₄⟩ ⟨kept₄, table₄, result⟩
  have kept₄' : Kept [] s s₄ := kept₃.trans (kept₄.mono (List.nil_subset _))
  cases linked with
  | true =>
    obtain ⟨dp, name, entries, walked', new, written, inode₄⟩ := result
    rw [parent] at walked'
    have ne : dp ≠ ip := by
      rintro rfl
      exact dir (walk_parent walked')
    rw [inode₃, Function.update_of_ne ne] at new written inode₄
    obtain ⟨table₅, kept₅, -⟩ := iput_last table₄ List.not_mem_nil (List.nil_subset _)
    refine ⟨kept₄'.trans kept₅, table₅, s₄.inode, ?_,
      iput_last_frees table₄ List.not_mem_nil (List.nil_subset _)⟩
    rw [inode₄]
    exact .link target typed dir walked' new written
  | false =>
    have inode₄ : s₄.inode = Function.update s.inode ip ((s.inode ip).addNlink 1) :=
      Eq.trans result inode₃
    have typed₄ : (s₄.inode ip).type ≠ .free := by
      rw [inode₄, Function.update_self]
      exact typed
    refine (ilock_spec table₄ (List.mem_singleton_self ip) fun free => absurd free typed₄).bind ?_
    rintro s₅ ⟨same₅, table₅, -, -⟩
    have typed₅ : (s₅.inode ip).type ≠ .free := by rwa [same₅.inode]
    have table₆ : Table (s₅.addNlink ip (-1)) [ip] [ip] :=
      table₅.setInode typed₅ typed₅ fun _ => .inr (List.mem_singleton_self ip)
    have inode₆ : (s₅.addNlink ip (-1)).inode = s.inode := by
      simp only [State.addNlink, State.setInode, same₅.inode, inode₄, Function.update_self,
        Function.update_idem, Inode.addNlink]
      rw [Int.bmod_add_bmod, Int.add_neg_cancel_right, short ip typed]
      exact Function.update_eq_self ip s.inode
    have kept₆ : Kept [] s (s₅.addNlink ip (-1)) :=
      kept₄'.trans (same₅.tail.toKept.trans ⟨rfl, rfl, by simp⟩)
    obtain ⟨table₇, kept₇, -⟩ := iput_last table₆ List.not_mem_nil (List.nil_subset _)
    refine ⟨kept₆.trans kept₇, table₇, s.inode, unchanged, ?_⟩
    rw [← inode₆]
    exact iput_last_frees table₆ List.not_mem_nil (List.nil_subset _)

theorem removeEntry_spec (off : Nat) (table : Table s [ip, dp] []) (valid_dp : s.valid dp = true)
    (valid_ip : s.valid ip = true) (ne : dp ≠ ip) (typed_dp : (s.inode dp).type ≠ .free)
    (typed_ip : (s.inode ip).type ≠ .free) :
    Kept [] s (removeEntry dp ip off s) ∧ Table (removeEntry dp ip off s) [] [] ∧
      Frees (Function.update (Function.update s.inode dp (Inode.addDotdot { s.inode dp with
        entries := (s.inode dp).entries.set off { inum := 0, name := [] } } (s.inode ip).type (-1)))
        ip ((s.inode ip).addNlink (-1))) (removeEntry dp ip off s).inode := by
  generalize cleared : { s.inode dp with
    entries := (s.inode dp).entries.set off { inum := 0, name := [] } } = node
  obtain ⟨s₁, counted⟩ : ∃ s₁, s₁ = if (s.inode ip).type = .dir then
      (s.setInode dp node).addNlink dp (-1) else s.setInode dp node := ⟨_, rfl⟩
  have result : removeEntry dp ip off s = iput ip ((iput dp s₁).addNlink ip (-1)) := by
    rw [counted, ← cleared]
    rfl
  have inode₁ : s₁.inode =
      Function.update s.inode dp (Inode.addDotdot node (s.inode ip).type (-1)) := by
    rw [counted, Inode.addDotdot]
    split
    · simp only [State.addNlink, State.setInode, Function.update_idem, Function.update_self,
        Inode.addNlink]
    · rfl
  have typed_node : node.type ≠ .free := by
    rw [← cleared]
    exact typed_dp
  -- both counts may have become 0
  have loose : Table s [dp, ip] [dp, ip] :=
    ((table.loosen (by simp) valid_ip).loosen (by simp) valid_dp).perm (.swap _ _ _)
  have table₁ : Table s₁ [dp, ip] [dp, ip] := by
    have first : Table (s.setInode dp node) [dp, ip] [dp, ip] :=
      loose.setInode typed_dp typed_node fun _ => .inr List.mem_cons_self
    rw [counted]
    split
    · have typed : ((s.setInode dp node).inode dp).type ≠ .free := by
        simpa only [State.setInode, Function.update_self] using typed_node
      exact first.setInode typed typed fun _ => .inr List.mem_cons_self
    · exact first
  have kept₁ : Kept [] s s₁ := by
    rw [counted]
    split
    · exact ⟨rfl, rfl, by simp⟩
    · exact ⟨rfl, rfl, by simp⟩
  have last : dp ∉ [ip] := by simpa using ne
  obtain ⟨table₂, kept₂, inode₂⟩ := iput_last table₁ last (List.Subset.refl _)
  have ip_same : (iput dp s₁).inode ip = s.inode ip := by
    rw [inode₂]
    split
    · rw [Function.update_of_ne ne.symm, inode₁, Function.update_of_ne ne.symm]
    · rw [inode₁, Function.update_of_ne ne.symm]
  have table₃ : Table ((iput dp s₁).addNlink ip (-1)) [ip] [ip] := by
    have typed : ((iput dp s₁).inode ip).type ≠ .free := by rwa [ip_same]
    exact table₂.setInode typed typed fun _ => .inr (List.mem_singleton_self ip)
  have kept₃ : Kept [] s ((iput dp s₁).addNlink ip (-1)) :=
    kept₁.trans ((kept₂.mono (List.nil_subset _)).trans ⟨rfl, rfl, by simp⟩)
  have inode₃ : ((iput dp s₁).addNlink ip (-1)).inode =
      Function.update (iput dp s₁).inode ip ((s.inode ip).addNlink (-1)) := by
    simp only [State.addNlink, State.setInode, ip_same, Inode.addNlink]
  obtain ⟨table₄, kept₄, -⟩ := iput_last table₃ List.not_mem_nil (List.nil_subset _)
  rw [result]
  refine ⟨kept₃.trans kept₄, table₄, Frees.trans ?_
    (iput_last_frees table₃ List.not_mem_nil (List.nil_subset _))⟩
  -- the directory is put first, but it makes no difference
  rw [inode₃, ← inode₁, inode₂]
  split
  · next gone =>
    have typed : (s₁.inode dp).type ≠ .free :=
      table₁.valid dp (table₁.final dp List.mem_cons_self).2 (table₁.referred List.mem_cons_self)
    refine .step dp ?_ ?_ ?_
    · rwa [Function.update_of_ne ne]
    · rw [Function.update_of_ne ne]
      exact gone.2
    · rw [Function.update_of_ne ne, Function.update_comm ne]
      exact .refl
  · exact .refl

theorem sysUnlink_spec {q : Proc} (path : List UInt8) (table : Table s [] [])
    (held : 0 < holders s q.cwd) (shaped : ∀ d, Shaped d (s.inode d)) :
    Ends (Unclosed s.inode) (sysUnlink q path s) fun r => Kept [] s r.2 ∧
      Table r.2 [] [] ∧ ∃ mid, Change s.inode q.cwd (.unlink path) mid ∧
        Frees mid r.2.inode := by
  have unchanged : Change s.inode q.cwd (.unlink path) s.inode :=
    .none (fun _ => rfl) (fun _ _ => rfl)
  rw [sysUnlink]
  refine (namex_spec true path table held (namex_unclosed path table held)).bind ?_
  rintro ⟨found, s₁⟩ ⟨walked, same₁, table₁⟩
  cases found with
  | none =>
    refine ⟨same₁.toKept, table₁, s.inode, unchanged, ?_⟩
    rw [same₁.inode]
    exact .refl
  | some pair =>
  obtain ⟨dp, name⟩ := pair
  have dir : (s.inode dp).type = .dir := walk_parent walked
  have mem_dp : dp ∈ [dp] := List.mem_singleton_self dp
  refine (ilock_spec table₁ mem_dp ?_).bind ?_
  · rw [same₁.inode, dir]
    exact nofun
  rintro s₂ ⟨same₂, table₂, -, valid₂⟩
  have same₂' : Same [] s s₂ := same₁.trans same₂.tail
  by_cases dots : name = dot ∨ name = dotdot
  · rw [if_pos dots]
    have same₃ := same₂'.trans (iput_same table₂ (List.nil_subset _))
    refine ⟨same₃.toKept, iput_table table₂ (List.nil_subset _), s.inode, unchanged, ?_⟩
    rw [same₃.inode]
    exact .refl
  rw [if_neg dots]
  rw [not_or] at dots
  refine (dirlookup_spec name table₂ (by rw [same₂'.inode, dir])).bind ?_
  rintro ⟨found, s₃⟩ ⟨found_eq, same₃, table₃⟩
  have same₃' : Same [] s s₃ := same₂'.trans same₃.tail
  rw [same₂'.inode] at found_eq
  cases here : lookup (s.inode dp).entries name with
  | none =>
    rw [here] at found_eq
    obtain rfl : found = none := found_eq
    have same₄ := same₃'.trans (iput_same table₃ (List.nil_subset _))
    refine ⟨same₄.toKept, iput_table table₃ (List.nil_subset _), s.inode, unchanged, ?_⟩
    rw [same₄.inode]
    exact .refl
  | some entry =>
  obtain ⟨off, ip⟩ := entry
  rw [here] at found_eq
  obtain rfl : found = some (ip, off) := found_eq
  refine (ilock_spec table₃ List.mem_cons_self ?_).bind ?_
  · rw [same₃'.inode]
    intro free closed
    obtain ⟨de, mem, rfl, occupied⟩ := lookup_mem here
    exact absurd free (closed.entries dp dir de mem occupied)
  rintro s₄ ⟨same₄, table₄, typed, valid₄⟩
  have same₄' : Same [] s s₄ := same₃'.trans (same₄.mono (List.nil_subset _))
  rw [same₃'.inode] at typed
  rw [same₄'.inode]
  split
  · exact fun _ => nofun
  next linked =>
  split
  · have table₅ := iput_table table₄ (List.nil_subset _)
    have same₅ := iput_same table₄ (List.nil_subset _)
    have same₆ : Same [] s (iput dp (iput ip s₄)) :=
      same₄'.trans (same₅.tail.trans (iput_same table₅ (List.nil_subset _)))
    refine ⟨same₆.toKept, iput_table table₅ (List.nil_subset _), s.inode, unchanged, ?_⟩
    rw [same₆.inode]
    exact .refl
  next empty =>
  have empty' : (s.inode ip).type = .dir → isdirempty (s.inode ip).entries = true := by
    intro isDir
    by_contra full
    exact empty ⟨isDir, by simpa using full⟩
  have ne : dp ≠ ip := by
    rintro rfl
    exact (shaped dp).not_empty dir dots here (empty' dir)
  have valid_dp : s₄.valid dp = true :=
    same₄.valid dp (by simp) (same₃.valid dp mem_dp valid₂)
  obtain ⟨kept₅, table₅, frees⟩ := removeEntry_spec off table₄ valid_dp valid₄ ne
    (by rw [same₄'.inode, dir]; exact nofun) (by rwa [same₄'.inode])
  rw [same₄'.inode] at frees
  exact ⟨same₄'.toKept.trans kept₅, table₅, _,
    .unlink walked dots here typed (by omega) empty', frees⟩

/-! ## Open files and processes -/

variable {p : Fin nproc} {q : Proc}

/-- A reference becomes an open file. -/
theorem openFile_spec {f : Fin nfile} (fd : Fin nofile) (table : Table s [ip] [])
    (proc : s.proc p = some q) (unused : (s.file f).ref = 0)
    (typed : (s.inode ip).type ≠ .free) :
    Table ((s.setFile f { ref := 1, ip := ip }).setProc p
      (some { q with ofile := Function.update q.ofile fd (some f) })) [] [] := by
  have moved : ∀ i, holders ((s.setFile f { ref := 1, ip := ip }).setProc p
      (some { q with ofile := Function.update q.ofile fd (some f) })) i =
        holders s i + [ip].count i := by
    intro i
    have files := holders_setFile s f { ref := 1, ip := ip } i
    have procs := holders_setProc (s.setFile f { ref := 1, ip := ip }) p
      (some { q with ofile := Function.update q.ofile fd (some f) }) i
    have same : procHolds ((s.setFile f { ref := 1, ip := ip }).proc p) i =
        procHolds (some { q with ofile := Function.update q.ofile fd (some f) }) i := by
      simp only [State.setFile, proc, procHolds]
    have none : fileHolds (s.file f) i = 0 := by simp [fileHolds, unused]
    have one : fileHolds { ref := 1, ip := ip } i = [ip].count i := by
      simp [fileHolds, List.count_singleton]
    omega
  refine table.move _ rfl rfl rfl ?_ ?_ ?_ (by simp)
  · intro i
    rw [moved i, List.count_nil, Nat.add_zero]
  · intro i _ _ held
    rw [moved i]
    exact .inl (Nat.add_pos_left (held.resolve_right List.not_mem_nil) _)
  · intro i held
    rw [moved i] at held
    by_cases here : i = ip
    · rwa [here]
    · rw [List.count_singleton, if_neg (by simpa using Ne.symm here), Nat.add_zero] at held
      exact table.typed held

theorem openInode_spec {omode : Nat} (path : List UInt8) (space : Nat → Bool)
    (table : Table s [] []) (held : 0 < holders s q.cwd) :
    Ends (Unclosed s.inode) (openInode q.cwd path omode space s) fun r => Kept [] s r.2 ∧
      Table r.2 r.1.toList [] ∧ (∀ ip ∈ r.1, (r.2.inode ip).type ≠ .free) ∧
      ∃ mid, Change s.inode q.cwd (.open path omode space) mid ∧ Frees mid r.2.inode := by
  have unchanged : Change s.inode q.cwd (.open path omode space) s.inode :=
    .none (fun _ => rfl) (fun _ _ => rfl)
  rw [openInode]
  split
  · next creating =>
    exact create_spec 0 space (by rw [creates, if_pos creating]) nofun table held
  refine (namei_spec path table held (namex_unclosed path table held)).bind ?_
  rintro ⟨found, s₁⟩ ⟨walked, same₁, table₁⟩
  cases found with
  | none =>
    refine ⟨same₁.toKept, table₁, nofun, s.inode, unchanged, ?_⟩
    rw [same₁.inode]
    exact .refl
  | some ip =>
  obtain ⟨last, target⟩ := walked ip rfl
  refine (ilock_spec table₁ (List.mem_singleton_self ip) ?_).bind ?_
  · rw [same₁.inode]
    intro free closed
    exact absurd free (namex_typed table held closed target)
  rintro s₂ ⟨same₂, table₂, typed, -⟩
  have same₂' : Same [] s s₂ := same₁.trans same₂.tail
  split
  · have same₃ := same₂'.trans (iput_same table₂ (List.nil_subset _))
    refine ⟨same₃.toKept, iput_table table₂ (List.nil_subset _), nofun, s.inode, unchanged, ?_⟩
    rw [same₃.inode]
    exact .refl
  · refine ⟨same₂'.toKept, table₂, ?_, s.inode, unchanged, ?_⟩
    · rintro i ⟨⟩
      rwa [same₂.inode]
    · rw [same₂'.inode]
      exact .refl

theorem sysOpen_spec {omode : Nat} (path : List UInt8) (space : Nat → Bool)
    (table : Table s [] []) (proc : s.proc p = some q) :
    Ends (Unclosed s.inode) (sysOpen p q path omode space s) fun r => Table r.2 [] [] ∧
      ∃ mid, Change s.inode q.cwd (.open path omode space) mid ∧ Frees mid r.2.inode := by
  rw [sysOpen]
  refine (openInode_spec path space table (holders_cwd proc)).bind ?_
  rintro ⟨found, s₁⟩ ⟨kept₁, table₁, typed, mid, change, frees⟩
  cases found with
  | none => exact ⟨table₁, mid, change, frees⟩
  | some ip =>
    have left : Table (iput ip s₁) [] [] ∧
        ∃ mid, Change s.inode q.cwd (.open path omode space) mid ∧
          Frees mid (iput ip s₁).inode := by
      refine ⟨iput_table table₁ (List.nil_subset _), mid, change, ?_⟩
      rw [(iput_same table₁ (List.nil_subset _)).inode]
      exact frees
    dsimp only
    split
    · exact left
    · split
      · next f fd unused _ =>
        have free : (s₁.file f).ref = 0 := by simpa using List.find?_some unused
        have table₂ := openFile_spec fd table₁ (by rw [kept₁.proc, proc]) free (typed ip rfl)
        exact ⟨table₂, mid, change, frees⟩
      · exact left

theorem sysMake_spec {path : List UInt8} {type : FileType} {call : Call} (major : Int)
    (space : Nat → Bool) (asked : creates call = some (path, type, space)) (typed : type ≠ .free)
    (table : Table s [] []) (proc : s.proc p = some q) :
    Ends (Unclosed s.inode) (sysMake q path type major space s) fun r => Table r.2 [] [] ∧
      ∃ mid, Change s.inode q.cwd call mid ∧ Frees mid r.2.inode := by
  rw [sysMake]
  refine (create_spec major space asked typed table (holders_cwd proc)).bind ?_
  rintro ⟨made, s₁⟩ ⟨kept₁, table₁, -, mid, change, frees⟩
  cases made with
  | none => exact ⟨table₁, mid, change, frees⟩
  | some ip =>
    refine ⟨iput_table table₁ (List.nil_subset _), mid, change, ?_⟩
    show Frees mid (iput ip s₁).inode
    rw [(iput_same table₁ (List.nil_subset _)).inode]
    exact frees

/-- The holders stay as many, so the references are still in order. -/
theorem Table.holders (s' : State) (table : Table s [] []) (inode : s'.inode = s.inode)
    (ref : s'.ref = s.ref) (valid : s'.valid = s.valid)
    (same : ∀ i, Sysfile.holders s' i = Sysfile.holders s i) : Table s' [] [] := by
  refine table.move s' inode ref valid ?_ ?_ ?_ nofun
  · intro i
    rw [same i]
  · intro i _ _ held
    rw [same i]
    exact held
  · intro i held
    rw [same i] at held
    exact table.typed held

theorem iput_setProc {c : Nat} {q : Option Proc} :
    (iput c s).setProc p q = iput c (s.setProc p q) := by
  simp only [iput]
  by_cases gone : s.ref c = 1 ∧ s.valid c = true ∧ (s.inode c).nlink = 0
  · have gone' : (s.setProc p q).ref c = 1 ∧ (s.setProc p q).valid c = true ∧
        ((s.setProc p q).inode c).nlink = 0 := gone
    rw [if_pos gone, if_pos gone']
    rfl
  · have gone' : ¬ ((s.setProc p q).ref c = 1 ∧ (s.setProc p q).valid c = true ∧
        ((s.setProc p q).inode c).nlink = 0) := gone
    rw [if_neg gone, if_neg gone']
    rfl

theorem sysChdir_spec (path : List UInt8) (table : Table s [] []) (proc : s.proc p = some q) :
    Ends (Unclosed s.inode) (sysChdir p q path s) fun r => Table r.2 [] [] ∧
      Frees s.inode r.2.inode := by
  have held := holders_cwd proc
  rw [sysChdir]
  refine (namei_spec path table held (namex_unclosed path table held)).bind ?_
  rintro ⟨found, s₁⟩ ⟨walked, same₁, table₁⟩
  cases found with
  | none =>
    refine ⟨table₁, ?_⟩
    rw [same₁.inode]
    exact .refl
  | some ip =>
  obtain ⟨last, target⟩ := walked ip rfl
  refine (ilock_spec table₁ (List.mem_singleton_self ip) ?_).bind ?_
  · rw [same₁.inode]
    intro free closed
    exact absurd free (namex_typed table held closed target)
  rintro s₂ ⟨same₂, table₂, typed, -⟩
  have same₂' : Same [] s s₂ := same₁.trans same₂.tail
  split
  · refine ⟨iput_table table₂ (List.nil_subset _), ?_⟩
    rw [(same₂'.trans (iput_same table₂ (List.nil_subset _))).inode]
    exact .refl
  · rw [iput_setProc]
    have typed₂ : ∀ i ∈ [ip], (s₂.inode i).type ≠ .free := by
      intro i mem
      rw [List.mem_singleton.mp mem, same₂.inode]
      exact typed
    have moved : ∀ i, holders (s₂.setProc p (some { q with cwd := ip })) i +
        (if i = q.cwd then 1 else 0) = holders s₂ i + [ip].count i := by
      intro i
      have procs := holders_setProc s₂ p (some { q with cwd := ip }) i
      rw [same₂'.proc, proc] at procs
      simp only [procHolds, eq_comm (a := q.cwd)] at procs
      simpa [List.count_singleton] using procs
    obtain ⟨table₃, -, frees⟩ := iput_released (s₂.setProc p (some { q with cwd := ip })) table₂
      rfl rfl rfl typed₂ moved
    rw [same₂'.inode] at frees
    exact ⟨table₃, frees⟩

theorem fileclose_spec {inode : Nat → Inode} (f : Fin nfile) (table : Table s [] []) :
    Ends (Unclosed inode) (fileclose f s) fun s' => Table s' [] [] ∧ s'.proc = s.proc ∧
      Frees s.inode s'.inode := by
  rw [fileclose]
  split
  · exact fun _ => nofun
  split
  · next more =>
    refine ⟨table.holders _ rfl rfl rfl fun i => ?_, rfl, .refl⟩
    have files := holders_setFile s f { s.file f with ref := (s.file f).ref - 1 } i
    have before : 0 < (s.file f).ref := by omega
    have after : 0 < (s.file f).ref - 1 := by omega
    simp only [fileHolds, before, after, true_and] at files
    omega
  · next used last =>
    have moved : ∀ i, holders (s.setFile f { s.file f with ref := 0 }) i +
        (if i = (s.file f).ip then 1 else 0) = holders s i + [].count i := by
      intro i
      have files := holders_setFile s f { s.file f with ref := 0 } i
      have before : 0 < (s.file f).ref := by omega
      simp only [fileHolds, before, true_and, lt_irrefl, false_and, if_false, eq_comm] at files
      simpa only [List.count_nil, eq_comm] using files
    obtain ⟨table', kept, frees⟩ := iput_released (s.setFile f { s.file f with ref := 0 }) table
      rfl rfl rfl nofun moved
    exact ⟨table', kept.proc, frees⟩

theorem closeFiles_spec {inode : Nat → Inode} (fds : List (Fin nofile)) (table : Table s [] []) :
    Ends (Unclosed inode) (eachFile fileclose q fds s) fun s' => Table s' [] [] ∧
      s'.proc = s.proc ∧ Frees s.inode s'.inode := by
  induction fds generalizing s with
  | nil => exact ⟨table, rfl, .refl⟩
  | cons fd rest ih =>
    rw [eachFile]
    split
    · exact ih table
    · next file _ =>
      refine (fileclose_spec file table).bind ?_
      rintro s₁ ⟨table₁, proc₁, frees₁⟩
      refine (ih table₁).imp ?_
      rintro s₂ ⟨table₂, proc₂, frees₂⟩
      exact ⟨table₂, proc₂.trans proc₁, frees₁.trans frees₂⟩

theorem dupFiles_spec {inode : Nat → Inode} (fds : List (Fin nofile)) (table : Table s [] []) :
    Ends (Unclosed inode) (eachFile filedup q fds s) fun s' => Table s' [] [] ∧
      s'.proc = s.proc ∧ s'.inode = s.inode := by
  induction fds generalizing s with
  | nil => exact ⟨table, rfl, rfl⟩
  | cons fd rest ih =>
    rw [eachFile]
    split
    · exact ih table
    · next file _ =>
      rw [filedup]
      split
      · exact fun _ => nofun
      · next used =>
        have table₁ : Table (s.setFile file { s.file file with ref := (s.file file).ref + 1 }) [] [] := by
          refine table.holders _ rfl rfl rfl fun i => ?_
          have files := holders_setFile s file { s.file file with ref := (s.file file).ref + 1 } i
          have before : 0 < (s.file file).ref := by omega
          have after : 0 < (s.file file).ref + 1 := by omega
          simp only [fileHolds, before, after, true_and] at files
          exact Nat.add_right_cancel files
        exact ih table₁

theorem sysClose_spec {inode : Nat → Inode} (fd : Fin nofile) (table : Table s [] [])
    (proc : s.proc p = some q) :
    Ends (Unclosed inode) (sysClose p q fd s) fun r => Table r.2 [] [] ∧
      Frees s.inode r.2.inode := by
  rw [sysClose]
  split
  · exact ⟨table, .refl⟩
  · next f _ =>
    have table₁ : Table (s.setProc p (some { q with ofile := Function.update q.ofile fd none }))
        [] [] := by
      refine table.holders _ rfl rfl rfl fun i => ?_
      have procs := holders_setProc s p
        (some { q with ofile := Function.update q.ofile fd none }) i
      rw [proc] at procs
      simp only [procHolds] at procs
      omega
    refine (fileclose_spec f table₁).bind ?_
    rintro s₂ ⟨table₂, -, frees⟩
    exact ⟨table₂, frees⟩

theorem fork_spec {inode : Nat → Inode} (child : Fin nproc) (table : Table s [] [])
    (proc : s.proc p = some q) :
    Ends (Unclosed inode) (fork q child s) fun r => Table r.2 [] [] ∧ r.2.inode = s.inode := by
  rw [fork]
  split
  · exact ⟨table, rfl⟩
  · next unused =>
    refine (dupFiles_spec _ table).bind ?_
    rintro s₁ ⟨table₁, proc₁, inode₁⟩
    have held : 0 < holders s₁ q.cwd := holders_cwd (by rw [proc₁, proc])
    have moved : ∀ i, holders ((idup q.cwd s₁).setProc child (some q)) i =
        holders s₁ i + [q.cwd].count i := by
      intro i
      have procs := holders_setProc (idup q.cwd s₁) child (some q) i
      have same : Same [] s₁ (idup q.cwd s₁) := idup_same
      have empty : (idup q.cwd s₁).proc child = none := by
        rw [same.proc, proc₁]
        simpa using unused
      rw [empty, same.holders] at procs
      simpa [procHolds, List.count_singleton] using procs
    refine ⟨?_, inode₁⟩
    have before := idup_table table₁ held
    have same : Same [] s₁ (idup q.cwd s₁) := idup_same
    refine before.move ((idup q.cwd s₁).setProc child (some q)) rfl rfl rfl ?_ ?_ ?_ (by simp)
    · intro i
      rw [moved i, same.holders, List.count_nil, Nat.add_zero]
    · intro i _ _ heldI
      rw [same.holders] at heldI
      rw [moved i]
      exact .inl (Nat.add_pos_left (heldI.resolve_right List.not_mem_nil) _)
    · intro i heldI
      rw [moved i] at heldI
      rw [same.inode]
      by_cases here : i = q.cwd
      · rw [here]
        exact table₁.typed held
      · rw [List.count_singleton, if_neg (by simpa using Ne.symm here), Nat.add_zero] at heldI
        exact table₁.typed heldI

theorem exit_spec {inode : Nat → Inode} (table : Table s [] []) (proc : s.proc p = some q) :
    Ends (Unclosed inode) (exit p q s) fun r => Table r.2 [] [] ∧ Frees s.inode r.2.inode := by
  rw [exit]
  refine (closeFiles_spec _ table).bind ?_
  rintro s₁ ⟨table₁, proc₁, frees₁⟩
  have moved : ∀ i, holders (s₁.setProc p none) i + (if i = q.cwd then 1 else 0) =
      holders s₁ i + [].count i := by
    intro i
    have procs := holders_setProc s₁ p none i
    rw [proc₁, proc] at procs
    simpa only [procHolds, List.count_nil, eq_comm] using procs
  rw [iput_setProc]
  obtain ⟨table₂, -, frees₂⟩ := iput_released (s₁.setProc p none) table₁ rfl rfl rfl (by simp) moved
  exact ⟨table₂, frees₁.trans frees₂⟩

/-! ## Every call -/

theorem perform_spec (call : Call) (table : Table s [] []) (proc : s.proc p = some q)
    (short : ∀ i, (s.inode i).type ≠ .free → (s.inode i).nlink.bmod (2 ^ 16) = (s.inode i).nlink)
    (shaped : ∀ d, Shaped d (s.inode d)) :
    Ends (Unclosed s.inode) (perform s p q call) fun r => Table r.2 [] [] ∧
      ∃ mid, Change s.inode q.cwd call mid ∧ Frees mid r.2.inode := by
  have held := holders_cwd proc
  have unchanged : Change s.inode q.cwd call s.inode := .none (fun _ => rfl) (fun _ _ => rfl)
  cases call with
  | «open» path omode space => exact sysOpen_spec path space table proc
  | mkdir path space => exact sysMake_spec 0 space rfl nofun table proc
  | mknod path major space => exact sysMake_spec major space rfl nofun table proc
  | link old path space =>
    refine (sysLink_spec old path space table held short).imp ?_
    exact fun r spec => spec.2
  | unlink path =>
    refine (sysUnlink_spec path table held shaped).imp ?_
    exact fun r spec => spec.2
  | chdir path =>
    refine (sysChdir_spec path table proc).imp ?_
    exact fun r spec => ⟨spec.1, s.inode, unchanged, spec.2⟩
  | close fd =>
    refine (sysClose_spec fd table proc).imp ?_
    exact fun r spec => ⟨spec.1, s.inode, unchanged, spec.2⟩
  | fork child =>
    refine (fork_spec child table proc).imp ?_
    exact fun r spec => ⟨spec.1, s.inode, unchanged, spec.2 ▸ .refl⟩
  | exit =>
    refine (exit_spec table proc).imp ?_
    exact fun r spec => ⟨spec.1, s.inode, unchanged, spec.2⟩

end Sistemas.Xv6.Sysfile
