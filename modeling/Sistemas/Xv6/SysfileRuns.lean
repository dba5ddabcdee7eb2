import Sistemas.Xv6.SysfileReleases
import Sistemas.Transition.Run

/-! # Runs of system calls

A call from a consistent file system leaves a consistent one, if no link count wraps to 0
(`step_consistent`).

* `Moored` is the condition under which no entry is left dangling: a directory is not
  freed while a directory that stays names it by `..`.
* `Careful` is the condition under which link counts are exact: entries are made in
  directories that have links, and no count passes the end of the field.
-/

namespace Sistemas.Xv6.Sysfile

open LinkGraph (Sound Exact Anchored)

variable {s s' t : State} {inode inode' : Nat → Inode} {p : Fin nproc} {q : Proc} {call : Call}

/-- A file system with its inode table, between two calls. -/
structure Consistent (s : State) : Prop where
  table : Table s [] []
  shaped : ∀ d, Shaped d (s.inode d)
  sound : Sound (linkGraph s.inode)

/-! ## Changes and frees -/

theorem Frees.same (frees : Frees inode inode') (i : Nat) :
    inode' i = inode i ∨ ((inode i).nlink = 0 ∧ (inode' i).type = .free) := by
  induction frees with
  | refl => exact .inl rfl
  | @step inode inode' ip typed nlink rest ih =>
    by_cases here : i = ip
    · subst here
      rw [Function.update_self] at ih
      refine .inr ⟨nlink, ?_⟩
      rcases ih with same | ⟨-, free⟩
      · rw [same]
        rfl
      · exact free
    · rwa [Function.update_of_ne here] at ih

theorem Frees.sound (frees : Frees inode inode') (shaped : ∀ d, Shaped d (inode d))
    (sound : Sound (linkGraph inode)) :
    (∀ d, Shaped d (inode' d)) ∧ Sound (linkGraph inode') := by
  induction frees with
  | refl => exact ⟨shaped, sound⟩
  | step ip typed nlink _ ih =>
    obtain ⟨shaped', freed⟩ := free_links shaped typed nlink rfl
    exact ih shaped' (sound.freed freed)

theorem Frees.exact (frees : Frees inode inode') (shaped : ∀ d, Shaped d (inode d))
    (sound : Sound (linkGraph inode)) (exact' : Exact (linkGraph inode)) :
    Exact (linkGraph inode') := by
  induction frees with
  | refl => exact exact'
  | step ip typed nlink _ ih =>
    obtain ⟨shaped', freed⟩ := free_links shaped typed nlink rfl
    exact ih shaped' (sound.freed freed) (exact'.freed sound freed)

theorem creates_typed {path : List UInt8} {type : FileType} {space : Nat → Bool}
    (asked : creates call = some (path, type, space)) : type ≠ .free := by
  cases call with
  | «open» path' omode space =>
    simp only [creates] at asked
    split at asked
    · cases asked
      simp
    · cases asked
  | mkdir path' space =>
    cases asked
    simp
  | mknod path' major space =>
    cases asked
    simp
  | _ => cases asked

/-- The old path and the new one, and whether there is a block for the entry. -/
def links : Call → Option (List UInt8 × List UInt8 × Bool)
  | .link old new space => some (old, new, space)
  | _ => none

/-- The count of the file that a call links does not wrap to 0. -/
def Wrapless (inode : Nat → Inode) (cwd : Nat) (call : Call) : Prop :=
  ∀ x ∈ links call, ∀ y ∈ found (targetOf inode cwd x.1), (inode y.1).type ≠ .free →
    (inode y.1).type ≠ .dir → (inode y.1).nlink ≠ -1

theorem Change.sound {cwd : Nat} (change : Change inode cwd call inode')
    (wrapless : Wrapless inode cwd call) (shaped : ∀ d, Shaped d (inode d))
    (sound : Sound (linkGraph inode)) :
    (∀ d, Shaped d (inode' d)) ∧ Sound (linkGraph inode') := by
  cases change with
  | none type same =>
    obtain ⟨shaped', unchanged⟩ := none_links shaped type same
    exact ⟨shaped', sound.unchanged unchanged⟩
  | create major asked parent new range free dots written =>
    obtain ⟨shaped', created⟩ := create_links shaped sound (creates_typed asked)
      (walk_parent parent) range free new written rfl
    exact ⟨shaped', sound.created created⟩
  | @link old path dp ip name last space entries target typed notDir parent new written =>
    obtain ⟨shaped', linked⟩ :=
      link_links shaped sound typed notDir (walk_parent parent) new written rfl
    have below : (inode ip).nlink ≠ -1 :=
      wrapless (old, path, space) rfl (ip, last) (by rw [target]; rfl) typed notDir
    exact ⟨shaped', sound.linked linked below⟩
  | unlink parent proper found typed linked empty =>
    obtain ⟨shaped', unlinked⟩ :=
      unlink_links shaped (walk_parent parent) proper found linked empty rfl
    exact ⟨shaped', sound.unlinked unlinked⟩

theorem Consistent.short (consistent : Consistent s) (i : Nat)
    (typed : (s.inode i).type ≠ .free) : (s.inode i).nlink.bmod (2 ^ 16) = (s.inode i).nlink := by
  have short := consistent.sound.short i typed
  simp only [linkGraph] at short
  exact Int.bmod_eq_of_le (by omega) (by omega)

/-- What a completed call does to a consistent file system. -/
theorem Consistent.effect (consistent : Consistent s) {l : Fin nproc × Call}
    (stepped : step s l = some s') : ∃ q r, s.proc l.1 = some q ∧
      perform s l.1 q l.2 = .ok (r, s') ∧ Table s' [] [] ∧
      ∃ mid, Change s.inode q.cwd l.2 mid ∧ Frees mid s'.inode := by
  rw [step] at stepped
  split at stepped
  · cases stepped
  next q proc =>
  have spec := perform_spec l.2 consistent.table proc consistent.short consistent.shaped
  split at stepped
  · next r s₁ performed =>
    cases stepped
    rw [performed, ends_ok] at spec
    exact ⟨q, r, proc, performed, spec⟩
  · cases stepped

theorem Consistent.kept (consistent : Consistent s) {l : Fin nproc × Call}
    (wrapless : ∀ q ∈ s.proc l.1, Wrapless s.inode q.cwd l.2) (stepped : step s l = some s') :
    Consistent s' := by
  obtain ⟨q, r, proc, -, table, mid, change, frees⟩ := consistent.effect stepped
  obtain ⟨shaped, sound⟩ :=
    change.sound (wrapless q proc) consistent.shaped consistent.sound
  obtain ⟨shaped', sound'⟩ := frees.sound shaped sound
  exact ⟨table, shaped', sound'⟩

/-! ## Dangling entries -/

/-- Only directories that no directory that stays names by `..` are given up, and no link count
    wraps to 0. -/
def Moored (s : State) (l : Fin nproc × Call) : Prop :=
  ∀ q ∈ s.proc l.1, Wrapless s.inode q.cwd l.2 ∧
    ∀ d < Mkfs.ninodes, (s.inode d).type = .dir →
      Gone s q l.2 (upOf (s.inode d)) → Gone s q l.2 d

/-- Every entry of a directory that is linked or held names an allocated inode. -/
def NoDangling (s : State) : Prop :=
  ∀ d, (s.inode d).type = .dir → 0 < (s.inode d).nlink ∨ 0 < holders s d →
    ∀ de ∈ (s.inode d).entries, de.inum ≠ 0 → (s.inode de.inum).type ≠ .free

theorem Consistent.closed (consistent : Consistent s) (anchored : Anchored (linkGraph s.inode)) :
    Closed s.inode where
  root := by
    have root : (s.inode rootino).type = .dir := consistent.sound.root
    rw [root]
    exact nofun
  entries d dir de mem occupied := by
    obtain ⟨up, rest, entries, -, -⟩ := consistent.shaped d dir
    have up_eq : upOf (s.inode d) = up := by simp only [upOf, entries]
    have parent : (s.inode (upOf (s.inode d))).type = .dir := anchored d dir
    rw [up_eq] at parent
    rw [entries] at mem
    rcases List.mem_cons.mp mem with rfl | mem
    · rw [dir]
      exact nofun
    rcases List.mem_cons.mp mem with rfl | mem
    · rw [parent]
      exact nofun
    · have entry : 0 < (linkGraph s.inode).count d de.inum := by
        show 0 < countIn (s.inode d) de.inum
        rw [countIn_dir dir entries]
        exact List.countP_pos_iff.mpr ⟨de, mem, by simpa using occupied⟩
      exact (consistent.sound.named d de.inum entry).2

/-- Directories that stay keep their parent. -/
theorem Frees.anchored (frees : Frees inode inode') (anchored : Anchored (linkGraph inode))
    (stays : ∀ d, (inode d).type = .dir → inode' d = inode d →
      (inode (upOf (inode d))).nlink = 0 → (inode' (upOf (inode d))).type ≠ .free) :
    Anchored (linkGraph inode') := by
  intro d dir
  change (inode' d).type = .dir at dir
  show (inode' (upOf (inode' d))).type = .dir
  rcases frees.same d with same | ⟨-, free⟩
  · rw [same] at dir ⊢
    have parent : (inode (upOf (inode d))).type = .dir := anchored d dir
    rcases frees.same (upOf (inode d)) with kept | ⟨zero, freed⟩
    · rw [kept]
      exact parent
    · exact absurd freed (stays d dir same zero)
  · rw [free] at dir
    cases dir

/-- A directory without links stays because it is held. -/
theorem Consistent.held (consistent : Consistent s) (dir : (s.inode i).type = .dir)
    (nlink : (s.inode i).nlink = 0) : 0 < holders s i :=
  (consistent.table.removed i (by rw [dir]; exact nofun) nlink).2.resolve_right List.not_mem_nil

theorem Consistent.ref_eq (consistent : Consistent s) (i : Nat) : s.ref i = holders s i := by
  rw [consistent.table.ref_eq i, List.count_nil, Nat.add_zero]

/-- A directory without links that is not given up stays. -/
theorem Consistent.stays (consistent : Consistent s) (dir : (s.inode i).type = .dir)
    (nlink : (s.inode i).nlink = 0) {lost : Nat → Nat} (released : Released s s' lost)
    (table : Table s' [] []) (freed : (s'.inode i).type = .free) : 0 < lost i := by
  have held := consistent.held dir nlink
  have le := released.le i
  rw [table.unheld i freed] at le
  omega

/-- A directory that is freed was given up. -/
theorem Consistent.gone (consistent : Consistent s) (dir : (s.inode i).type = .dir)
    (links : (s.inode i).nlink = unlinked s.inode q.cwd call i)
    (released : Released s s' (drops s q call)) (table : Table s' [] [])
    (freed : (s'.inode i).type = .free) : Gone s q call i := by
  have le := released.le i
  rw [table.unheld i freed, Nat.zero_add] at le
  exact ⟨dir, links, consistent.ref_eq i ▸ le⟩

theorem unlink_holders {path : List UInt8} {r : Int} (consistent : Consistent s)
    (proc : s.proc p = some q) (performed : perform s p q (.unlink path) = .ok (r, s')) :
    holders s' = holders s := by
  have spec := sysUnlink_spec path consistent.table (holders_cwd proc) consistent.shaped
  change sysUnlink q path s = .ok (r, s') at performed
  rw [performed, ends_ok] at spec
  exact spec.1.holders

theorem Consistent.anchored_kept (consistent : Consistent s)
    (anchored : Anchored (linkGraph s.inode)) {l : Fin nproc × Call} (moored : Moored s l)
    (stepped : step s l = some s') : Anchored (linkGraph s'.inode) := by
  obtain ⟨p, call⟩ := l
  obtain ⟨q, r, proc, performed, table, mid, change, frees⟩ := consistent.effect stepped
  have sound := consistent.sound
  have shaped := consistent.shaped
  have released : Released s s' (drops s q call) :=
    perform_released consistent.table proc consistent.short consistent.shaped performed
  have gone_up : ∀ d, (s.inode d).type = .dir → Gone s q call (upOf (s.inode d)) →
      Gone s q call d := fun d dir => (moored q proc).2 d (sound.dir_range dir).2 dir
  have held' : ∀ d, (s'.inode d).type = .dir → (s'.inode d).nlink = 0 → 0 < holders s' d :=
    fun d dir nlink =>
      (table.removed d (by rw [dir]; exact nofun) nlink).2.resolve_right List.not_mem_nil
  cases change with
  | none type same =>
    obtain ⟨-, unchanged⟩ := none_links shaped type same
    refine frees.anchored (anchored.unchanged unchanged) fun d dir kept nlink freed => ?_
    have dir₀ : (s.inode d).type = .dir := (type d).symm.trans dir
    have parent : (s.inode (upOf (s.inode d))).type = .dir := anchored d dir₀
    rw [same d (by rw [dir₀]; exact nofun)] at kept nlink freed
    rw [same _ (by rw [parent]; exact nofun)] at nlink
    -- the parent was without links before, so its last reference is given up
    have given := consistent.stays parent nlink released table freed
    have other : ∀ path, call ≠ .unlink path := by
      rintro path rfl
      rw [drops_zero rfl rfl] at given
      cases given
    have links : (s.inode (upOf (s.inode d))).nlink =
        unlinked s.inode q.cwd call (upOf (s.inode d)) := by
      rw [unlinked_of_ne other, nlink]
      rfl
    obtain ⟨-, links, ref⟩ := gone_up d dir₀ (consistent.gone parent links released table freed)
    rw [unlinked_of_ne other] at links
    have before := consistent.held dir₀ links
    rw [consistent.ref_eq] at ref
    have lost := released.eq d (by omega)
    have := held' d (kept ▸ dir₀) (kept ▸ links)
    omega
  | @create _ path type dp ip name space entries major asked parent new range free dots written =>
    obtain ⟨-, created⟩ := create_links shaped sound (creates_typed asked)
      (walk_parent parent) range free new written rfl
    have anchored' := anchored.created created
    refine frees.anchored anchored' fun d dir kept nlink freed => ?_
    obtain ⟨dir₀, nlink₀⟩ := sound.created_zero created (anchored' d dir) nlink
    have given := consistent.stays dir₀ nlink₀ released table freed
    rw [drops_of_creates asked] at given
    cases given
  | link target typed notDir parent new written =>
    obtain ⟨-, linked⟩ :=
      link_links shaped sound typed notDir (walk_parent parent) new written rfl
    have anchored' := anchored.linked linked
    refine frees.anchored anchored' fun d dir kept nlink freed => ?_
    obtain ⟨dir₀, nlink₀⟩ := LinkGraph.Sound.linked_zero linked (anchored' d dir) nlink
    have given := consistent.stays dir₀ nlink₀ released table freed
    rw [drops_zero rfl rfl] at given
    cases given
  | @unlink path dp ip off name parent proper looked typed linked empty =>
    obtain ⟨-, change⟩ :=
      unlink_links shaped (walk_parent parent) proper looked linked empty rfl
    refine frees.anchored (anchored.unlinked change) fun d dir kept nlink freed => ?_
    have dir₀ : (s.inode d).type = .dir := (change.others d).1.symm.trans dir
    have parent₀ : (s.inode (upOf (s.inode d))).type = .dir := anchored d dir₀
    have up : upOf _ = upOf (s.inode d) := (change.others d).2.1
    rw [up] at nlink freed
    have taken := unlinked_eq parent proper looked empty
    have links : (s.inode (upOf (s.inode d))).nlink =
        unlinked s.inode q.cwd (.unlink path) (upOf (s.inode d)) := by
      rw [taken]
      exact (sound.unlinked_zero_iff change parent₀).mp nlink
    obtain ⟨-, links, ref⟩ := gone_up d dir₀ (consistent.gone parent₀ links released table freed)
    rw [taken] at links
    have zero := (sound.unlinked_zero_iff change dir₀).mpr links
    have := held' d (kept ▸ dir) (kept ▸ zero)
    rw [unlink_holders consistent proc performed] at this
    rw [drops_zero rfl rfl, consistent.ref_eq] at ref
    omega

/-- In a run that is moored no entry is left dangling, and `ilock` never finds a free inode. -/
theorem run_no_dangling {run : List (Fin nproc × Call)} (consistent : Consistent s)
    (anchored : Anchored (linkGraph s.inode)) (moored : Transition.Along step Moored s run)
    (reached : Transition.exec step s run = some t) :
    NoDangling t ∧
      ∀ p q call, t.proc p = some q → perform t p q call ≠ .error .ilockNoType := by
  have kept : Consistent t ∧ Anchored (linkGraph t.inode) := by
    refine Transition.exec_invariant_along (P := fun s => Consistent s ∧
      Anchored (linkGraph s.inode)) ?_ ⟨consistent, anchored⟩ reached moored
    rintro s l s' ⟨consistent, anchored⟩ moored stepped
    exact ⟨consistent.kept (fun q proc => (moored q proc).1) stepped,
      consistent.anchored_kept anchored moored stepped⟩
  obtain ⟨consistent', anchored'⟩ := kept
  have closed := consistent'.closed anchored'
  refine ⟨fun d dir _ => closed.entries d dir, fun p q call proc panic => ?_⟩
  have spec := perform_spec call consistent'.table proc consistent'.short consistent'.shaped
  rw [panic, ends_error] at spec
  exact spec closed rfl

/-! ## Link counts -/

/-- The directory takes one more entry: it has an empty one, or can grow. -/
def Fits (dp : Inode) (space : Bool) : Prop :=
  (writeDirent dp.entries { inum := 0, name := [] } space).isSome = true

instance (dp : Inode) (space : Bool) : Decidable (Fits dp space) :=
  inferInstanceAs (Decidable (_ = _))

theorem fits_of_written {dp : Inode} {de : Dirent} {space : Bool} {entries : List Dirent}
    (written : writeDirent dp.entries de space = some entries) : Fits dp space := by
  rw [writeDirent] at written
  rw [Fits, writeDirent]
  split at written
  · rfl
  · split at written
    next room => rw [if_pos room]; rfl
    next => cases written

/-- Where a new entry is made at the path, its directory meets the condition. -/
def Enters (inode : Nat → Inode) (cwd : Nat) (path : List UInt8) (space : Bool) (C : Nat → Prop) :
    Prop :=
  ∀ x ∈ found (parentOf inode cwd path), lookup (inode x.1).entries x.2 = none →
    Fits (inode x.1) space → C x.1

/-- A call that makes an entry makes it in a directory that has links, and a link that is made
    does not pass the end of the count. -/
def Careful (s : State) (l : Fin nproc × Call) : Prop :=
  ∀ q ∈ s.proc l.1,
    (∀ x ∈ creates l.2, (∃ ip < Mkfs.ninodes, 0 < ip ∧ (s.inode ip).type = .free) →
      (x.2.1 = .dir → x.2.2 0 = true) →
        Enters s.inode q.cwd x.1 (x.2.2 2) fun dp => 0 < (s.inode dp).nlink) ∧
    ∀ x ∈ links l.2, ∀ y ∈ found (targetOf s.inode q.cwd x.1), (s.inode y.1).type ≠ .free →
      (s.inode y.1).type ≠ .dir → Enters s.inode q.cwd x.2.1 x.2.2 fun dp =>
        0 < (s.inode dp).nlink ∧ (s.inode y.1).nlink < 2 ^ 15 - 1

inductive Reachable (inode : Nat → Inode) : Nat → Prop
  | root : Reachable inode rootino
  | entry {d : Nat} {de : Dirent} : Reachable inode d → (inode d).type = .dir →
    de ∈ (inode d).entries → de.inum ≠ 0 → de.name ≠ dot → de.name ≠ dotdot →
    Reachable inode de.inum

/-- The entries other than `.` that name inode `i`, in directories that have links. -/
def linksTo (inode : Nat → Inode) (i : Nat) : Nat :=
  ∑ d ∈ Finset.range Mkfs.ninodes, if (inode d).type = .dir ∧ 0 < (inode d).nlink then
    (inode d).entries.countP fun de => de.inum = i ∧ de.name ≠ dot else 0

structure LinksExact (inode : Nat → Inode) : Prop where
  count : ∀ i, (inode i).type ≠ .free → (inode i).nlink = linksTo inode i
  nonneg : ∀ i, (inode i).type ≠ .free → 0 ≤ (inode i).nlink
  reachable : ∀ i, (inode i).type ≠ .free → 0 < (inode i).nlink → Reachable inode i

/-- Where counts are exact they are not negative. -/
theorem wrapless_of_exact (exact' : Exact (linkGraph inode)) (cwd : Nat) (call : Call) :
    Wrapless inode cwd call := by
  intro x _ y _ typed notDir
  have count : (inode y.1).nlink = (linkGraph inode).names y.1 := exact'.files y.1 typed notDir
  omega

theorem Consistent.exact_kept (consistent : Consistent s) (exact' : Exact (linkGraph s.inode))
    {l : Fin nproc × Call} (careful : Careful s l) (stepped : step s l = some s') :
    Exact (linkGraph s'.inode) := by
  obtain ⟨p, call⟩ := l
  obtain ⟨q, r, proc, -, -, mid, change, frees⟩ := consistent.effect stepped
  have sound := consistent.sound
  have shaped := consistent.shaped
  obtain ⟨creating, linking⟩ := careful q proc
  cases change with
  | none type same =>
    obtain ⟨shaped', unchanged⟩ := none_links shaped type same
    exact frees.exact shaped' (sound.unchanged unchanged) (exact'.unchanged unchanged)
  | @create _ path type dp ip name space entries major asked parent new range free dots written =>
    obtain ⟨shaped', created⟩ := create_links shaped sound (creates_typed asked)
      (walk_parent parent) range free new written rfl
    have alive : 0 < (s.inode dp).nlink :=
      creating (path, type, space) asked ⟨ip, range.2, range.1, free⟩ dots (dp, name)
        (by rw [parent]; rfl) new (fits_of_written written)
    exact frees.exact shaped' (sound.created created) (exact'.created sound created alive)
  | @link old path dp ip name last space entries target typed notDir parent new written =>
    obtain ⟨shaped', linked⟩ :=
      link_links shaped sound typed notDir (walk_parent parent) new written rfl
    obtain ⟨alive, below⟩ : 0 < (s.inode dp).nlink ∧ (s.inode ip).nlink < 2 ^ 15 - 1 :=
      linking (old, path, space) rfl (ip, last) (by rw [target]; rfl) typed notDir (dp, name)
        (by rw [parent]; rfl) new (fits_of_written written)
    have count : (s.inode ip).nlink = (linkGraph s.inode).names ip := exact'.files ip typed notDir
    have below' : (s.inode ip).nlink ≠ -1 := by omega
    exact frees.exact shaped' (sound.linked linked below')
      (exact'.linked sound linked alive below)
  | unlink parent proper looked typed linked empty =>
    obtain ⟨shaped', unlinked⟩ :=
      unlink_links shaped (walk_parent parent) proper looked linked empty rfl
    exact frees.exact shaped' (sound.unlinked unlinked) (exact'.unlinked sound unlinked)

/-- The entries of a directory that name `i`, in its own terms. -/
theorem entries_count {node : Inode} {d i : Nat} (shaped : Shaped d node) (dir : node.type = .dir)
    (inum : i ≠ 0) :
    (node.entries.countP fun de => de.inum = i ∧ de.name ≠ dot) =
      countIn node i + if upOf node = i then 1 else 0 := by
  obtain ⟨up, rest, entries, -, names⟩ := shaped dir
  have up_eq : upOf node = up := by simp only [upOf, entries]
  have dots : dotdot ≠ dot := by decide
  have rest_eq : (rest.countP fun de => de.inum = i ∧ de.name ≠ dot) = entriesFor rest i := by
    refine List.countP_congr fun de mem => ?_
    simp only [decide_eq_true_eq]
    constructor
    · rintro ⟨rfl, -⟩
      exact ⟨inum, rfl⟩
    · rintro ⟨occupied, here⟩
      exact ⟨here, (names de mem occupied).1⟩
  rw [countIn_dir dir entries, up_eq, entries, List.countP_cons, List.countP_cons, rest_eq]
  simp [dots]

theorem LinksExact.of_exact (consistent : Consistent s) (exact' : Exact (linkGraph s.inode)) :
    LinksExact s.inode := by
  have sound := consistent.sound
  have nonneg : ∀ i, (s.inode i).type ≠ .free → 0 ≤ (s.inode i).nlink := by
    intro i typed
    have total : (s.inode i).nlink = _ := exact'.total sound typed
    omega
  constructor
  · intro i typed
    have inum : i ≠ 0 := Nat.pos_iff_ne_zero.mp (sound.range i typed).1
    have total : (s.inode i).nlink = _ := exact'.total sound typed
    rw [total, linksTo]
    refine congrArg Nat.cast (Finset.sum_congr rfl fun d _ => ?_)
    by_cases linked : (s.inode d).type = .dir ∧ 0 < (s.inode d).nlink
    · rw [if_pos linked, entries_count (consistent.shaped d) linked.1 inum]
      exact if_pos linked
    · rw [if_neg linked]
      exact if_neg linked
  · exact nonneg
  · have entry : ∀ d c, Reachable s.inode d → 0 < (linkGraph s.inode).count d c →
        Reachable s.inode c := by
      intro d c reach some
      have dir : (s.inode d).type = .dir := (sound.named d c some).1
      obtain ⟨up, rest, entries, -, names⟩ := consistent.shaped d dir
      change 0 < countIn (s.inode d) c at some
      rw [countIn_dir dir entries, entriesFor, List.countP_pos_iff] at some
      obtain ⟨de, mem, here⟩ := some
      simp only [decide_eq_true_eq] at here
      obtain ⟨occupied, rfl⟩ := here
      obtain ⟨not_dot, not_dotdot⟩ := names de mem occupied
      refine .entry reach dir ?_ occupied not_dot not_dotdot
      rw [entries]
      exact .tail _ (.tail _ mem)
    have dirs : ∀ i, LinkGraph.Reach (linkGraph s.inode) i → Reachable s.inode i := by
      intro i reach
      induction reach with
      | root => exact .root
      | entry _ some ih => exact entry _ _ ih some
    intro i typed linked
    by_cases dir : (s.inode i).type = .dir
    · exact dirs i (exact'.reach i dir (Int.ne_of_gt linked))
    · have count : (s.inode i).nlink = (linkGraph s.inode).names i := exact'.files i typed dir
      obtain ⟨d, some⟩ := LinkGraph.names_pos (v := linkGraph s.inode) (i := i) (by omega)
      have dir_d : (s.inode d).type = .dir := (sound.named d i some).1
      have alive : (s.inode d).nlink ≠ 0 := by
        intro zero
        rw [exact'.bare d dir_d zero i] at some
        cases some
      exact entry d i (dirs d (exact'.reach d dir_d alive)) some

/-- In a careful run the link counts stay exact. -/
theorem run_links_exact {run : List (Fin nproc × Call)} (consistent : Consistent s)
    (exact' : Exact (linkGraph s.inode)) (careful : Transition.Along step Careful s run)
    (reached : Transition.exec step s run = some t) : LinksExact t.inode := by
  have kept : Consistent t ∧ Exact (linkGraph t.inode) := by
    refine Transition.exec_invariant_along (P := fun s => Consistent s ∧
      Exact (linkGraph s.inode)) ?_ ⟨consistent, exact'⟩ reached careful
    rintro s l s' ⟨consistent, exact'⟩ careful stepped
    exact ⟨consistent.kept (fun q _ => wrapless_of_exact exact' q.cwd l.2) stepped,
      consistent.exact_kept exact' careful stepped⟩
  exact .of_exact kept.1 kept.2

/-! ## The first process -/

instance (inode : Nat → Inode) (cwd : Nat) (call : Call) : Decidable (Wrapless inode cwd call) :=
  inferInstanceAs (Decidable (∀ x ∈ links call, ∀ y ∈ found (targetOf inode cwd x.1),
    (inode y.1).type ≠ .free → (inode y.1).type ≠ .dir → (inode y.1).nlink ≠ -1))

instance (s : State) (l : Fin nproc × Call) : Decidable (Moored s l) :=
  inferInstanceAs (Decidable (∀ q ∈ s.proc l.1, Wrapless s.inode q.cwd l.2 ∧
    ∀ d < Mkfs.ninodes, (s.inode d).type = .dir →
      Gone s q l.2 (upOf (s.inode d)) → Gone s q l.2 d))

instance (inode : Nat → Inode) (cwd : Nat) (path : List UInt8) (space : Bool) (C : Nat → Prop)
    [DecidablePred C] : Decidable (Enters inode cwd path space C) :=
  inferInstanceAs (Decidable (∀ x ∈ found (parentOf inode cwd path),
    lookup (inode x.1).entries x.2 = none → Fits (inode x.1) space → C x.1))

instance (s : State) (l : Fin nproc × Call) : Decidable (Careful s l) :=
  inferInstanceAs (Decidable (∀ q ∈ s.proc l.1,
    (∀ x ∈ creates l.2, (∃ ip < Mkfs.ninodes, 0 < ip ∧ (s.inode ip).type = .free) →
      (x.2.1 = .dir → x.2.2 0 = true) →
        Enters s.inode q.cwd x.1 (x.2.2 2) fun dp => 0 < (s.inode dp).nlink) ∧
    ∀ x ∈ links l.2, ∀ y ∈ found (targetOf s.inode q.cwd x.1), (s.inode y.1).type ≠ .free →
      (s.inode y.1).type ≠ .dir → Enters s.inode q.cwd x.2.1 x.2.2 fun dp =>
        0 < (s.inode dp).nlink ∧ (s.inode y.1).nlink < 2 ^ 15 - 1))

/-- After boot: an empty root directory, which is the directory of the only process. -/
def booted : State where
  inode i := if i = rootino then
      { type := .dir, major := 0, nlink := 1,
        entries := [{ inum := rootino, name := dot }, { inum := rootino, name := dotdot }] }
    else { type := .free, major := 0, nlink := 0, entries := [] }
  ref i := if i = rootino then 1 else 0
  valid _ := false
  file _ := { ref := 0, ip := 0 }
  proc p := if p.val = 0 then some { cwd := rootino, ofile := fun _ => none } else none

theorem nproc_pos : 0 < nproc := by decide

def initproc : Fin nproc := ⟨0, nproc_pos⟩

theorem booted_dir {i : Nat} (dir : (booted.inode i).type ≠ .free) : i = rootino := by
  by_contra other
  simp only [booted, if_neg other] at dir
  exact dir rfl

theorem booted_holders (i : Nat) : holders booted i = if i = rootino then 1 else 0 := by
  have procs : ∀ p, procHolds (booted.proc p) i =
      if p = initproc then (if i = rootino then 1 else 0) else 0 := by
    intro p
    by_cases first : p.val = 0
    · rw [if_pos (Fin.ext first)]
      simp only [booted, if_pos first, procHolds, eq_comm]
    · have ne : p ≠ initproc := fun eq => first (congrArg Fin.val eq)
      simp only [booted, if_neg first, procHolds, if_neg ne]
  have files : ∀ f, fileHolds (booted.file f) i = 0 := fun f => rfl
  simp only [holders, procs, files]
  simp

theorem booted_count (d c : Nat) : (linkGraph booted.inode).count d c = 0 := by
  show countIn (booted.inode d) c = 0
  by_cases root : d = rootino
  · subst root
    rfl
  · exact countIn_notDir (fun dir => root (booted_dir (by rw [dir]; exact nofun))) c

theorem booted_consistent : Consistent booted where
  table := by
    constructor
    · intro i
      rw [booted_holders]
      rfl
    · intro i typed nlink
      rw [booted_dir typed] at nlink
      cases nlink
    · intro i free
      rw [booted_holders, if_neg]
      rintro rfl
      cases free
    · exact fun i valid => by cases valid
    · exact nofun
  shaped := by
    intro d dir
    obtain rfl := booted_dir (by rw [dir]; exact nofun)
    exact ⟨rootino, [], rfl, by decide, nofun⟩
  sound := by
    have names : ∀ i, (linkGraph booted.inode).names i = 0 := by
      intro i
      simp only [LinkGraph.names, booted_count, Finset.sum_const_zero]
    constructor
    · intro i typed
      rw [booted_dir typed]
      decide
    · intro d c entry
      rw [booted_count] at entry
      cases entry
    · intro d c entry
      rw [booted_count] at entry
      cases entry
    · intro c _
      rw [names]
      exact Nat.zero_le 1
    · rfl
    · rfl
    · intro d dir
      have typed : (booted.inode d).type ≠ .free := fun free => by cases dir.symm.trans free
      obtain rfl := booted_dir typed
      rw [names, LinkGraph.subdirs_zero (booted_count rootino)]
      rfl
    · intro i typed notDir
      obtain rfl := booted_dir typed
      exact absurd rfl notDir
    · intro i typed
      obtain rfl := booted_dir typed
      decide

theorem booted_anchored : Anchored (linkGraph booted.inode) := by
  intro d dir
  have typed : (booted.inode d).type ≠ .free := fun free => by cases dir.symm.trans free
  obtain rfl := booted_dir typed
  rfl

theorem booted_exact : Exact (linkGraph booted.inode) := by
  constructor
  · intro i typed notDir
    obtain rfl := booted_dir typed
    exact absurd rfl notDir
  · intro d _ _ c
    exact booted_count d c
  · intro d dir _
    have typed : (booted.inode d).type ≠ .free := fun free => by cases dir.symm.trans free
    obtain rfl := booted_dir typed
    exact .root

theorem one_lt_nproc : 1 < nproc := by decide

def secondproc : Fin nproc := ⟨1, one_lt_nproc⟩

/-- A file in a directory gets a second name; the first one is removed, and the directory.  Then
    two directories are removed that are in use, one in the other, and the inner one is left. -/
def moving : List (Fin nproc × Call) :=
  [(initproc, .mkdir (Mkfs.ascii "a") fun _ => true),
    (initproc, .chdir (Mkfs.ascii "a")),
    (initproc, .open (Mkfs.ascii "x") oCreate fun _ => true),
    (initproc, .link (Mkfs.ascii "x") (Mkfs.ascii "../y") true),
    (initproc, .unlink (Mkfs.ascii "x")),
    (initproc, .chdir (Mkfs.ascii "..")),
    (initproc, .unlink (Mkfs.ascii "a")),
    (initproc, .mkdir (Mkfs.ascii "a") fun _ => true),
    (initproc, .mkdir (Mkfs.ascii "a/b") fun _ => true),
    (initproc, .chdir (Mkfs.ascii "a")),
    (initproc, .fork secondproc),
    (initproc, .chdir (Mkfs.ascii "b")),
    (initproc, .unlink (Mkfs.ascii "/a/b")),
    (initproc, .unlink (Mkfs.ascii "/a")),
    (initproc, .chdir (Mkfs.ascii ".."))]

/-- The directory of the process is removed, and then the one it was in. -/
def stranding : List (Fin nproc × Call) :=
  [(initproc, .mkdir (Mkfs.ascii "a") fun _ => true),
    (initproc, .mkdir (Mkfs.ascii "a/b") fun _ => true),
    (initproc, .chdir (Mkfs.ascii "a/b")),
    (initproc, .unlink (Mkfs.ascii "/a/b")),
    (initproc, .unlink (Mkfs.ascii "/a"))]

def panicOf : Except Panic (Int × State) → Option Panic
  | .ok _ => none
  | .error e => some e

/-- A file is created in a directory that is removed. -/
def orphaning : List (Fin nproc × Call) :=
  [(initproc, .mkdir (Mkfs.ascii "a") fun _ => true),
    (initproc, .chdir (Mkfs.ascii "a")),
    (initproc, .unlink (Mkfs.ascii "/a")),
    (initproc, .open (Mkfs.ascii "x") oCreate fun _ => true)]

/-- What the three runs compute. -/
theorem runs_computed :
    ((Transition.exec step booted moving).isSome = true ∧
      Transition.Along step Moored booted moving ∧ Transition.Along step Careful booted moving) ∧
    ((Transition.exec step booted stranding).isSome = true ∧
      (∀ t ∈ Transition.exec step booted stranding, (t.inode 3).type = .dir ∧
        0 < holders t 3 ∧ { inum := 2, name := dotdot } ∈ (t.inode 3).entries ∧
        (t.inode 2).type = .free) ∧
      ∀ t ∈ Transition.exec step booted stranding, (t.proc initproc).isSome = true ∧
        ∀ q ∈ t.proc initproc,
          panicOf (perform t initproc q (.chdir (Mkfs.ascii ".."))) = some .ilockNoType) ∧
    (Transition.exec step booted orphaning).isSome = true ∧
      ∀ t ∈ Transition.exec step booted orphaning, (t.inode 3).type = .file ∧
        (t.inode 3).nlink = 1 ∧ linksTo t.inode 3 = 0 := by
  decide +kernel

theorem moving_no_dangling : ∃ t, Transition.exec step booted moving = some t ∧ NoDangling t ∧
    ∀ p q call, t.proc p = some q → perform t p q call ≠ .error .ilockNoType := by
  obtain ⟨⟨done, moored, -⟩, -⟩ := runs_computed
  obtain ⟨t, reached⟩ := Option.isSome_iff_exists.mp done
  exact ⟨t, reached, run_no_dangling booted_consistent booted_anchored moored reached⟩

theorem moving_links_exact :
    ∃ t, Transition.exec step booted moving = some t ∧ LinksExact t.inode := by
  obtain ⟨⟨done, -, careful⟩, -⟩ := runs_computed
  obtain ⟨t, reached⟩ := Option.isSome_iff_exists.mp done
  exact ⟨t, reached, run_links_exact booted_consistent booted_exact careful reached⟩

theorem stranding_dangles : ∃ t, Consistent booted ∧ Anchored (linkGraph booted.inode) ∧
    Transition.exec step booted stranding = some t ∧ ¬ NoDangling t ∧
    ∃ q, t.proc initproc = some q ∧
      panicOf (perform t initproc q (.chdir (Mkfs.ascii ".."))) = some .ilockNoType := by
  obtain ⟨-, ⟨done, left, panics⟩, -⟩ := runs_computed
  obtain ⟨t, reached⟩ := Option.isSome_iff_exists.mp done
  obtain ⟨dir, held, entry, free⟩ := left t reached
  obtain ⟨runs, panics⟩ := panics t reached
  obtain ⟨q, proc⟩ := Option.isSome_iff_exists.mp runs
  refine ⟨t, booted_consistent, booted_anchored, reached, fun named => ?_, q, proc, panics q proc⟩
  exact named 3 dir (.inr held) _ entry (by decide) free

theorem orphaning_unlinked : ∃ t, Consistent booted ∧ Exact (linkGraph booted.inode) ∧
    Transition.exec step booted orphaning = some t ∧ (t.inode 3).type = .file ∧
    (t.inode 3).nlink = 1 ∧ linksTo t.inode 3 = 0 ∧ ¬ LinksExact t.inode := by
  obtain ⟨-, -, done, left⟩ := runs_computed
  obtain ⟨t, reached⟩ := Option.isSome_iff_exists.mp done
  obtain ⟨file, nlink, links⟩ := left t reached
  refine ⟨t, booted_consistent, booted_exact, reached, file, nlink, links, fun exact' => ?_⟩
  have count := exact'.count 3 (by rw [file]; exact nofun)
  rw [nlink, links] at count
  cases count

end Sistemas.Xv6.Sysfile
