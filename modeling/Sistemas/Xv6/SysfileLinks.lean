import Sistemas.Xv6.LinkGraph
import Sistemas.Xv6.SysfileCalls

/-! # The links of the inodes

`linkGraph` reads the links off the entries of the directories.  The changes that a call
makes are changes of the graph, so `Sound` and `Exact` are kept.
-/

namespace Sistemas.Xv6.Sysfile

open LinkGraph (Sound Exact Anchored)

variable {inode inode' : Nat → Inode} {i ip dp d c : Nat}

/-- The entries for `c`, except `.` and `..`. -/
def entriesFor (entries : List Dirent) (c : Nat) : Nat :=
  entries.countP fun de => de.inum ≠ 0 ∧ de.inum = c

def countIn (ip : Inode) (c : Nat) : Nat :=
  if ip.type = .dir then entriesFor (ip.entries.drop 2) c else 0

def upOf (ip : Inode) : Nat :=
  match ip.entries with
  | _ :: de :: _ => de.inum
  | _ => 0

def linkGraph (inode : Nat → Inode) : LinkGraph where
  type i := (inode i).type
  nlink i := (inode i).nlink
  up i := upOf (inode i)
  count d c := countIn (inode d) c

theorem countIn_dir {up : Nat} {node : Inode} {rest : List Dirent} (dir : node.type = .dir)
    (entries : node.entries = { inum := d, name := dot } :: { inum := up, name := dotdot } :: rest)
    (c : Nat) : countIn node c = entriesFor rest c := by
  rw [countIn, if_pos dir, entries]
  rfl

theorem countIn_notDir {node : Inode} (notDir : node.type ≠ .dir) (c : Nat) :
    countIn node c = 0 := if_neg notDir

/-! ## Writing entries -/

theorem entriesFor_set {entries : List Dirent} {off : Nat} {old : Dirent} (de : Dirent)
    (here : entries[off]? = some old) (c : Nat) :
    entriesFor (entries.set off de) c + (if old.inum ≠ 0 ∧ old.inum = c then 1 else 0) =
      entriesFor entries c + if de.inum ≠ 0 ∧ de.inum = c then 1 else 0 := by
  obtain ⟨below, value⟩ := List.getElem?_eq_some_iff.mp here
  have set := List.countP_set (p := fun de : Dirent => decide (de.inum ≠ 0 ∧ de.inum = c))
    (a := de) below
  rw [value] at set
  have counted : old.inum ≠ 0 ∧ old.inum = c → 0 < entriesFor entries c := by
    intro named
    refine List.countP_pos_iff.mpr ⟨old, List.mem_of_getElem? here, ?_⟩
    simpa using named
  simp only [decide_eq_true_eq] at set
  unfold entriesFor at counted ⊢
  rw [set]
  split
  · next named =>
    have := counted named
    omega
  · omega

/-- A new entry goes behind the first two. -/
theorem writeDirent_rest {up : Nat} {rest entries : List Dirent} {de : Dirent} {space : Bool}
    (own : d ≠ 0) (parent : up ≠ 0) (occupied : de.inum ≠ 0)
    (written : writeDirent ({ inum := d, name := dot } :: { inum := up, name := dotdot } :: rest) de
      space = some entries) :
    ∃ rest', entries = { inum := d, name := dot } :: { inum := up, name := dotdot } :: rest' ∧
      (∀ c, entriesFor rest' c = entriesFor rest c + if c = de.inum then 1 else 0) ∧
      ∀ e ∈ rest', e ∈ rest ∨ e = de := by
  have one : ∀ c, (if de.inum ≠ 0 ∧ de.inum = c then 1 else 0) =
      if c = de.inum then 1 else 0 := by
    intro c
    simp only [occupied, ne_eq, not_false_eq_true, true_and, eq_comm]
  rw [writeDirent] at written
  split at written
  · next off found =>
    rw [List.findIdx?_eq_some_iff_getElem] at found
    obtain ⟨below, empty, -⟩ := found
    obtain _ | _ | k := off
    · simp [own] at empty
    · simp [parent] at empty
    · simp only [List.getElem_cons_succ, decide_eq_true_eq] at empty
      simp only [List.length_cons, Nat.add_lt_add_iff_right] at below
      cases written
      refine ⟨rest.set k de, rfl, fun c => ?_, fun e mem => ?_⟩
      · have set := entriesFor_set de (List.getElem?_eq_getElem below) c
        rw [if_neg (fun both => both.1 empty), one] at set
        exact set
      · exact List.mem_or_eq_of_mem_set mem
  · split at written
    · cases written
      refine ⟨rest ++ [de], rfl, fun c => ?_, fun e mem => ?_⟩
      · rw [← one c, entriesFor, List.countP_append, List.countP_singleton]
        simp only [entriesFor, decide_eq_true_eq]
      · simpa using mem
    · cases written

theorem lookup_none {entries : List Dirent} {name : Name} (new : lookup entries name = none)
    (de : Dirent) (mem : de ∈ entries) (occupied : de.inum ≠ 0) : de.name ≠ name := by
  intro same
  cases first : entries.findIdx? fun de => de.inum ≠ 0 ∧ de.name = name with
  | none =>
    have := List.findIdx?_eq_none_iff.mp first de mem
    simp [occupied, same] at this
  | some off =>
    obtain ⟨below, -, -⟩ := List.findIdx?_eq_some_iff_getElem.mp first
    rw [lookup, first, Option.bind_some, List.getElem?_eq_getElem below] at new
    cases new

/-- The directory with the new entry. -/
theorem written_links {node : Inode} {entries : List Dirent} {name : Name} {space : Bool}
    (shaped : Shaped d node) (dir : node.type = .dir) (own : d ≠ 0) (occupied : ip ≠ 0)
    (new : lookup node.entries name = none)
    (written : writeDirent node.entries { inum := ip, name := name } space = some entries) :
    Shaped d { node with entries := entries } ∧
      upOf { node with entries := entries } = upOf node ∧
      ∀ c, countIn { node with entries := entries } c =
        countIn node c + if c = ip then 1 else 0 := by
  obtain ⟨up, rest, entries_eq, parent, names⟩ := shaped dir
  have absent := lookup_none new
  rw [entries_eq] at written absent
  have not_dot : dot ≠ name := absent _ List.mem_cons_self own
  have not_dotdot : dotdot ≠ name := absent _ (.tail _ List.mem_cons_self) parent
  obtain ⟨rest', rfl, counted, members⟩ := writeDirent_rest own parent occupied written
  refine ⟨fun _ => ⟨up, rest', rfl, parent, fun de mem occupied => ?_⟩, ?_, fun c => ?_⟩
  · rcases members de mem with old | rfl
    · exact names de old occupied
    · exact ⟨not_dot.symm, not_dotdot.symm⟩
  · simp only [upOf, entries_eq]
  · rw [countIn_dir dir entries_eq, ← counted c]
    exact if_pos dir

/-- The directory without the entry. -/
theorem cleared_links {node : Inode} {name : Name} {off : Nat} (shaped : Shaped d node)
    (dir : node.type = .dir) (proper : name ≠ dot ∧ name ≠ dotdot)
    (found : lookup node.entries name = some (off, ip)) :
    Shaped d { node with entries := node.entries.set off { inum := 0, name := [] } } ∧
      upOf { node with entries := node.entries.set off { inum := 0, name := [] } } = upOf node ∧
      ∀ c, countIn node c =
        countIn { node with entries := node.entries.set off { inum := 0, name := [] } } c +
          if c = ip then 1 else 0 := by
  obtain ⟨up, rest, entries_eq, parent, names⟩ := shaped dir
  rw [entries_eq] at found ⊢
  obtain ⟨k, de, rfl, here, inum_eq, occupied⟩ :=
    lookup_rest proper.1.symm proper.2.symm found
  refine ⟨fun _ => ⟨up, rest.set k { inum := 0, name := [] }, rfl, parent, ?_⟩, ?_, fun c => ?_⟩
  · intro e mem used
    rcases List.mem_or_eq_of_mem_set mem with old | rfl
    · exact names e old used
    · exact absurd rfl used
  · simp only [upOf, entries_eq, List.set_cons_succ]
  · have set := entriesFor_set { inum := 0, name := [] } here c
    have none : ¬ ((0 : Nat) ≠ 0 ∧ 0 = c) := fun both => both.1 rfl
    rw [if_neg none, Nat.add_zero] at set
    have after : countIn { node with entries := { inum := d, name := dot } ::
        { inum := up, name := dotdot } :: rest.set k { inum := 0, name := [] } } c =
          entriesFor (rest.set k { inum := 0, name := [] }) c := if_pos dir
    rw [countIn_dir dir entries_eq]
    refine Eq.trans ?_ (congrArg (· + _) after.symm)
    rw [← inum_eq]
    simp only [occupied, ne_eq, not_false_eq_true, true_and, eq_comm (a := de.inum)] at set
    exact set.symm

theorem newInode_links {type : FileType} {major : Int} (parent : dp ≠ 0) :
    Shaped ip (newInode type major ip dp) ∧ (type = .dir → upOf (newInode type major ip dp) = dp) ∧
      ∀ c, countIn (newInode type major ip dp) c = 0 := by
  refine ⟨fun dir => ⟨dp, [], ?_, parent, nofun⟩, fun dir => ?_, fun c => ?_⟩
  · have dir : type = .dir := dir
    rw [newInode, if_pos dir]
  · simp only [upOf, newInode, if_pos dir]
  · simp only [countIn, newInode]
    split
    · rfl
    · rfl

theorem addNlink_links (node : Inode) (n : Int) :
    (Shaped d node → Shaped d (node.addNlink n)) ∧ upOf (node.addNlink n) = upOf node ∧
      (∀ c, countIn (node.addNlink n) c = countIn node c) :=
  ⟨fun shaped => shaped, rfl, fun _ => rfl⟩

theorem addDotdot_links (node : Inode) (type : FileType) (n : Int) :
    (Shaped d node → Shaped d (node.addDotdot type n)) ∧
      (node.addDotdot type n).type = node.type ∧ upOf (node.addDotdot type n) = upOf node ∧
      (∀ c, countIn (node.addDotdot type n) c = countIn node c) ∧
      (node.addDotdot type n).nlink =
        if type = .dir then (node.nlink + n).bmod (2 ^ 16) else node.nlink := by
  rw [Inode.addDotdot]
  split
  · exact ⟨fun shaped => shaped, rfl, rfl, fun _ => rfl, rfl⟩
  · exact ⟨fun shaped => shaped, rfl, rfl, fun _ => rfl, rfl⟩

/-! ## Changes -/

theorem create_links {type : FileType} {major : Int} {name : Name} {space : Bool}
    {entries : List Dirent} (shaped : ∀ d, Shaped d (inode d)) (sound : Sound (linkGraph inode))
    (typed : type ≠ .free) (dir : (inode dp).type = .dir) (range : 0 < ip ∧ ip < Mkfs.ninodes)
    (free : (inode ip).type = .free) (new : lookup (inode dp).entries name = none)
    (written : writeDirent (inode dp).entries { inum := ip, name := name } space = some entries)
    (changed : inode' = Function.update (Function.update inode ip (newInode type major ip dp)) dp
      (Inode.addDotdot { inode dp with entries := entries } type 1)) :
    (∀ d, Shaped d (inode' d)) ∧
      LinkGraph.Created (linkGraph inode) (linkGraph inode') type ip dp := by
  have ne : ip ≠ dp := by
    rintro rfl
    rw [free] at dir
    cases dir
  have own : dp ≠ 0 := (Nat.pos_iff_ne_zero.mp (sound.dir_range dir).1)
  have at_dp : inode' dp = Inode.addDotdot { inode dp with entries := entries } type 1 := by
    rw [changed, Function.update_self]
  have at_ip : inode' ip = newInode type major ip dp := by
    rw [changed, Function.update_of_ne ne, Function.update_self]
  have elsewhere : ∀ i, i ≠ ip → i ≠ dp → inode' i = inode i := by
    intro i not_ip not_dp
    rw [changed, Function.update_of_ne not_dp, Function.update_of_ne not_ip]
  obtain ⟨shaped_dp, up_dp, count_dp⟩ :=
    written_links (shaped dp) dir own (Nat.pos_iff_ne_zero.mp range.1) new written
  obtain ⟨shaped_dp', type_dp, up_dp', count_dp', nlink_dp⟩ :=
    addDotdot_links (d := dp) { inode dp with entries := entries } type 1
  have new_links : Shaped ip (newInode type major ip dp) ∧
      (type = .dir → upOf (newInode type major ip dp) = dp) ∧
        ∀ c, countIn (newInode type major ip dp) c = 0 := newInode_links own
  obtain ⟨shaped_ip, up_ip, count_ip⟩ := new_links
  constructor
  · intro i
    by_cases here : i = ip
    · rw [here, at_ip]
      exact shaped_ip
    · by_cases parent : i = dp
      · rw [parent, at_dp]
        exact shaped_dp' shaped_dp
      · rw [elsewhere i here parent]
        exact shaped i
  constructor
  · exact free
  · exact range
  · exact typed
  · exact dir
  · show (inode' ip).type = type ∧ (inode' ip).nlink = 1 ∧ (type = .dir → upOf (inode' ip) = dp)
    rw [at_ip]
    exact ⟨rfl, rfl, up_ip⟩
  · intro i not_ip
    show (inode' i).type = (inode i).type ∧ upOf (inode' i) = upOf (inode i) ∧
      (i ≠ dp → (inode' i).nlink = (inode i).nlink)
    by_cases parent : i = dp
    · subst parent
      rw [at_dp, type_dp, up_dp', up_dp]
      exact ⟨rfl, rfl, fun other => absurd rfl other⟩
    · rw [elsewhere i not_ip parent]
      exact ⟨rfl, rfl, fun _ => rfl⟩
  · show (inode' dp).nlink = _
    rw [at_dp, nlink_dp]
    rfl
  · intro d c
    show countIn (inode' d) c = countIn (inode d) c + _
    by_cases parent : d = dp
    · subst parent
      rw [at_dp, count_dp', count_dp]
      simp only [true_and]
    · have none : ¬ (d = dp ∧ c = ip) := fun both => parent both.1
      rw [if_neg none, Nat.add_zero]
      by_cases here : d = ip
      · have notDir : (inode ip).type ≠ .dir := by
          rw [free]
          exact nofun
        rw [here, at_ip, count_ip, countIn_notDir notDir]
      · rw [elsewhere d here parent]

theorem link_links {name : Name} {space : Bool} {entries : List Dirent}
    (shaped : ∀ d, Shaped d (inode d)) (sound : Sound (linkGraph inode))
    (typed : (inode ip).type ≠ .free) (notDir : (inode ip).type ≠ .dir)
    (dir : (inode dp).type = .dir) (new : lookup (inode dp).entries name = none)
    (written : writeDirent (inode dp).entries { inum := ip, name := name } space = some entries)
    (changed : inode' = Function.update (Function.update inode ip ((inode ip).addNlink 1)) dp
      { inode dp with entries := entries }) :
    (∀ d, Shaped d (inode' d)) ∧
      LinkGraph.Linked (linkGraph inode) (linkGraph inode') ip dp := by
  have ne : ip ≠ dp := by
    rintro rfl
    exact notDir dir
  have own : dp ≠ 0 := Nat.pos_iff_ne_zero.mp (sound.dir_range dir).1
  have occupied : ip ≠ 0 := Nat.pos_iff_ne_zero.mp (sound.range ip typed).1
  have at_dp : inode' dp = { inode dp with entries := entries } := by
    rw [changed, Function.update_self]
  have at_ip : inode' ip = (inode ip).addNlink 1 := by
    rw [changed, Function.update_of_ne ne, Function.update_self]
  have elsewhere : ∀ i, i ≠ ip → i ≠ dp → inode' i = inode i := by
    intro i not_ip not_dp
    rw [changed, Function.update_of_ne not_dp, Function.update_of_ne not_ip]
  obtain ⟨shaped_dp, up_dp, count_dp⟩ := written_links (shaped dp) dir own occupied new written
  obtain ⟨shaped_ip, up_ip, count_ip⟩ := addNlink_links (d := ip) (inode ip) 1
  constructor
  · intro i
    by_cases here : i = ip
    · rw [here, at_ip]
      exact shaped_ip (shaped ip)
    · by_cases parent : i = dp
      · rw [parent, at_dp]
        exact shaped_dp
      · rw [elsewhere i here parent]
        exact shaped i
  constructor
  · exact typed
  · exact notDir
  · exact dir
  · intro i
    show (inode' i).type = (inode i).type ∧ upOf (inode' i) = upOf (inode i) ∧
      (i ≠ ip → (inode' i).nlink = (inode i).nlink)
    by_cases parent : i = dp
    · subst parent
      rw [at_dp, up_dp]
      exact ⟨rfl, rfl, fun _ => rfl⟩
    · by_cases here : i = ip
      · subst here
        rw [at_ip]
        exact ⟨rfl, up_ip, fun other => absurd rfl other⟩
      · rw [elsewhere i here parent]
        exact ⟨rfl, rfl, fun _ => rfl⟩
  · show (inode' ip).nlink = _
    rw [at_ip]
    rfl
  · intro d c
    show countIn (inode' d) c = countIn (inode d) c + _
    by_cases parent : d = dp
    · subst parent
      rw [at_dp, count_dp]
      simp only [true_and]
    · have none : ¬ (d = dp ∧ c = ip) := fun both => parent both.1
      rw [if_neg none, Nat.add_zero]
      by_cases here : d = ip
      · rw [here, at_ip, count_ip]
      · rw [elsewhere d here parent]

theorem empty_links {node : Inode} (empty : isdirempty node.entries = true) (c : Nat) :
    countIn node c = 0 := by
  rw [countIn]
  split
  · refine List.countP_eq_zero.mpr fun de mem => ?_
    have unused := List.all_eq_true.mp empty de mem
    simp only [decide_eq_true_eq] at unused
    simp [unused]
  · rfl

theorem unlink_links {name : Name} {off : Nat} (shaped : ∀ d, Shaped d (inode d))
    (dir : (inode dp).type = .dir) (proper : name ≠ dot ∧ name ≠ dotdot)
    (found : lookup (inode dp).entries name = some (off, ip)) (linked : 1 ≤ (inode ip).nlink)
    (empty : (inode ip).type = .dir → isdirempty (inode ip).entries = true)
    (changed : inode' = Function.update (Function.update inode dp (Inode.addDotdot { inode dp with
      entries := (inode dp).entries.set off { inum := 0, name := [] } } (inode ip).type (-1)))
      ip ((inode ip).addNlink (-1))) :
    (∀ d, Shaped d (inode' d)) ∧
      LinkGraph.Unlinked (linkGraph inode) (linkGraph inode') ip dp := by
  have ne : dp ≠ ip := by
    rintro rfl
    exact (shaped dp).not_empty dir proper found (empty dir)
  have at_ip : inode' ip = (inode ip).addNlink (-1) := by
    rw [changed, Function.update_self]
  have at_dp : inode' dp = Inode.addDotdot { inode dp with
      entries := (inode dp).entries.set off { inum := 0, name := [] } } (inode ip).type (-1) := by
    rw [changed, Function.update_of_ne ne, Function.update_self]
  have elsewhere : ∀ i, i ≠ ip → i ≠ dp → inode' i = inode i := by
    intro i not_ip not_dp
    rw [changed, Function.update_of_ne not_ip, Function.update_of_ne not_dp]
  obtain ⟨shaped_dp, up_dp, count_dp⟩ := cleared_links (shaped dp) dir proper found
  obtain ⟨shaped_dp', type_dp, up_dp', count_dp', nlink_dp⟩ := addDotdot_links (d := dp)
    { inode dp with entries := (inode dp).entries.set off { inum := 0, name := [] } }
    (inode ip).type (-1)
  obtain ⟨shaped_ip, up_ip, count_ip⟩ := addNlink_links (d := ip) (inode ip) (-1)
  constructor
  · intro i
    by_cases here : i = ip
    · rw [here, at_ip]
      exact shaped_ip (shaped ip)
    · by_cases parent : i = dp
      · rw [parent, at_dp]
        exact shaped_dp' shaped_dp
      · rw [elsewhere i here parent]
        exact shaped i
  constructor
  · exact ne
  · exact linked
  · exact fun isDir => empty_links (empty isDir)
  · intro i
    show (inode' i).type = (inode i).type ∧ upOf (inode' i) = upOf (inode i) ∧
      (i ≠ ip → i ≠ dp → (inode' i).nlink = (inode i).nlink)
    by_cases here : i = ip
    · subst here
      rw [at_ip]
      exact ⟨rfl, up_ip, fun other => absurd rfl other⟩
    · by_cases parent : i = dp
      · subst parent
        rw [at_dp, type_dp, up_dp', up_dp]
        exact ⟨rfl, rfl, fun _ other => absurd rfl other⟩
      · rw [elsewhere i here parent]
        exact ⟨rfl, rfl, fun _ _ => rfl⟩
  · show (inode' ip).nlink = _
    rw [at_ip]
    rfl
  · show (inode' dp).nlink = _
    rw [at_dp, nlink_dp]
    rfl
  · intro d c
    show countIn (inode d) c = countIn (inode' d) c + _
    by_cases parent : d = dp
    · subst parent
      rw [at_dp, count_dp', count_dp]
      simp only [true_and]
    · have none : ¬ (d = dp ∧ c = ip) := fun both => parent both.1
      rw [if_neg none, Nat.add_zero]
      by_cases here : d = ip
      · rw [here, at_ip, count_ip]
      · rw [elsewhere d here parent]

theorem none_links (shaped : ∀ d, Shaped d (inode d))
    (type : ∀ i, (inode' i).type = (inode i).type)
    (same : ∀ i, (inode i).type ≠ .free → inode' i = inode i) :
    (∀ d, Shaped d (inode' d)) ∧ LinkGraph.Unchanged (linkGraph inode) (linkGraph inode') := by
  have dir_same : ∀ d, (inode' d).type = .dir → inode' d = inode d := by
    intro d dir
    rw [type] at dir
    exact same d (by rw [dir]; exact nofun)
  constructor
  · intro d dir
    have eq := dir_same d dir
    rw [eq] at dir ⊢
    exact shaped d dir
  constructor
  · exact type
  · intro i typed
    show upOf (inode' i) = upOf (inode i) ∧ (inode' i).nlink = (inode i).nlink
    rw [same i typed]
    exact ⟨rfl, rfl⟩
  · intro d c
    show countIn (inode' d) c = countIn (inode d) c
    by_cases dir : (inode' d).type = .dir
    · rw [dir_same d dir]
    · rw [countIn_notDir dir, countIn_notDir (type d ▸ dir)]

theorem free_links (shaped : ∀ d, Shaped d (inode d)) (typed : (inode ip).type ≠ .free)
    (nlink : (inode ip).nlink = 0)
    (changed : inode' = Function.update inode ip (freed (inode ip))) :
    (∀ d, Shaped d (inode' d)) ∧ LinkGraph.Freed (linkGraph inode) (linkGraph inode') ip := by
  have at_ip : inode' ip = freed (inode ip) := by
    rw [changed, Function.update_self]
  have elsewhere : ∀ i, i ≠ ip → inode' i = inode i := by
    intro i other
    rw [changed, Function.update_of_ne other]
  constructor
  · intro d
    by_cases here : d = ip
    · rw [here, at_ip]
      exact nofun
    · rw [elsewhere d here]
      exact shaped d
  constructor
  · exact typed
  · exact nlink
  · show (inode' ip).type = .free
    rw [at_ip]
    rfl
  · intro i other
    show (inode' i).type = (inode i).type ∧ upOf (inode' i) = upOf (inode i) ∧
      (inode' i).nlink = (inode i).nlink
    rw [elsewhere i other]
    exact ⟨rfl, rfl, rfl⟩
  · intro d c
    show countIn (inode' d) c = if d = ip then 0 else countIn (inode d) c
    split
    · next here =>
      have notDir : FileType.free ≠ .dir := nofun
      rw [here, at_ip]
      exact countIn_notDir notDir c
    · next other => rw [elsewhere d other]

end Sistemas.Xv6.Sysfile
