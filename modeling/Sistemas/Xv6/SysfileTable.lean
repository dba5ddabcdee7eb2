import Mathlib.Algebra.Order.BigOperators.Group.Finset
import Mathlib.Data.Fintype.Basic
import Sistemas.Xv6.Sysfile
import Sistemas.Data.Counting
import Sistemas.Transition.Ends

/-! # References to inodes

Between two calls the reference count of an inode is the number of its holders, the current
directories and open files.  Within a call there are also the references in transit, which
the call has taken and not yet put.  An inode without links stays only while it is held, so
putting a reference in transit frees nothing.

The inodes of `final` are the exception: their link count may have become 0 within the call.
The call has locked them, and frees them with its last reference (`iput_last`).
-/

namespace Sistemas.Xv6.Sysfile

/-! ## Holders -/

def procHolds : Option Proc → Nat → Nat
  | some q, i => if q.cwd = i then 1 else 0
  | none, _ => 0

def fileHolds (f : File) (i : Nat) : Nat := if 0 < f.ref ∧ f.ip = i then 1 else 0

/-- The current directories and open files that are inode `i`. -/
def holders (s : State) (i : Nat) : Nat :=
  ∑ p, procHolds (s.proc p) i + ∑ f, fileHolds (s.file f) i

theorem holders_setProc (s : State) (p : Fin nproc) (q : Option Proc) (i : Nat) :
    holders (s.setProc p q) i + procHolds (s.proc p) i = holders s i + procHolds q i := by
  have sum := sum_update (Finset.mem_univ p) s.proc q fun _ q => procHolds q i
  simp only [holders, State.setProc]
  omega

theorem holders_setFile (s : State) (f : Fin nfile) (file : File) (i : Nat) :
    holders (s.setFile f file) i + fileHolds (s.file f) i = holders s i + fileHolds file i := by
  have sum := sum_update (Finset.mem_univ f) s.file file fun _ file => fileHolds file i
  simp only [holders, State.setFile]
  omega

theorem holders_cwd {s : State} {p : Fin nproc} {q : Proc} (proc : s.proc p = some q) :
    0 < holders s q.cwd := by
  have one : procHolds (s.proc p) q.cwd = 1 := by rw [proc, procHolds, if_pos rfl]
  have le := Finset.single_le_sum (f := fun p => procHolds (s.proc p) q.cwd)
    (fun _ _ => Nat.zero_le _) (Finset.mem_univ p)
  rw [holders]
  omega

structure Table (s : State) (transit final : List Nat) : Prop where
  ref_eq : ∀ i, s.ref i = holders s i + transit.count i
  removed : ∀ i, (s.inode i).type ≠ .free → (s.inode i).nlink = 0 →
    s.valid i = true ∧ (0 < holders s i ∨ i ∈ final)
  unheld : ∀ i, (s.inode i).type = .free → holders s i = 0
  valid : ∀ i, s.valid i = true → 0 < s.ref i → (s.inode i).type ≠ .free
  final : ∀ i ∈ final, i ∈ transit ∧ s.valid i = true

/-- The holders stay, and what is in transit and valid stays valid. -/
structure Kept (transit : List Nat) (s s' : State) : Prop where
  file : s'.file = s.file
  proc : s'.proc = s.proc
  valid : ∀ i ∈ transit, s.valid i = true → s'.valid i = true

/-- Only the inode table differs. -/
structure Same (transit : List Nat) (s s' : State) : Prop extends Kept transit s s' where
  inode : s'.inode = s.inode

variable {s s' s₁ s₂ : State} {transit final : List Nat} {i ip : Nat} {bad : Panic → Prop}

theorem Kept.refl : Kept transit s s := ⟨rfl, rfl, fun _ _ valid => valid⟩

theorem Kept.trans (first : Kept transit s s₁) (second : Kept transit s₁ s₂) :
    Kept transit s s₂ where
  file := second.file.trans first.file
  proc := second.proc.trans first.proc
  valid i mem valid := second.valid i mem (first.valid i mem valid)

theorem Kept.mono {fewer : List Nat} (kept : Kept transit s s') (sub : fewer ⊆ transit) :
    Kept fewer s s' :=
  ⟨kept.file, kept.proc, fun i mem => kept.valid i (sub mem)⟩

theorem Kept.holders (kept : Kept transit s s') : holders s' = holders s := by
  funext i
  simp only [Sysfile.holders, kept.file, kept.proc]

theorem Same.refl : Same transit s s := ⟨.refl, rfl⟩

theorem Same.trans (first : Same transit s s₁) (second : Same transit s₁ s₂) :
    Same transit s s₂ :=
  ⟨first.toKept.trans second.toKept, second.inode.trans first.inode⟩

theorem Same.mono {fewer : List Nat} (same : Same transit s s') (sub : fewer ⊆ transit) :
    Same fewer s s' :=
  ⟨same.toKept.mono sub, same.inode⟩

theorem Same.tail (same : Same (ip :: transit) s s') : Same transit s s' :=
  same.mono (List.subset_cons_self _ _)

theorem Table.perm {transit' : List Nat} (table : Table s transit final)
    (perm : transit.Perm transit') : Table s transit' final where
  ref_eq i := by rw [table.ref_eq i, perm.count_eq]
  removed := table.removed
  unheld := table.unheld
  valid := table.valid
  final i mem := ⟨perm.subset (table.final i mem).1, (table.final i mem).2⟩

/-- Every reference in transit counts. -/
theorem Table.referred (table : Table s transit final) (mem : i ∈ transit) : 0 < s.ref i := by
  have ref := table.ref_eq i
  have := List.count_pos_iff.mpr mem
  omega

theorem Table.typed (table : Table s transit final) (held : 0 < holders s i) :
    (s.inode i).type ≠ .free := by
  intro free
  have := table.unheld i free
  omega

/-- A locked inode may become one of `final`. -/
theorem Table.loosen (table : Table s transit final) (mem : ip ∈ transit)
    (valid : s.valid ip = true) : Table s transit (ip :: final) where
  ref_eq := table.ref_eq
  removed i typed nlink := by
    obtain ⟨valid, held⟩ := table.removed i typed nlink
    exact ⟨valid, held.imp_right (List.mem_cons_of_mem _)⟩
  unheld := table.unheld
  valid := table.valid
  final i memFinal := by
    cases memFinal with
    | head => exact ⟨mem, valid⟩
    | tail _ later => exact table.final i later

/-- An inode that has links, or is held, need not be one of `final`. -/
theorem Table.tighten {final' : List Nat} (table : Table s transit final) (sub : final' ⊆ final)
    (stays : ∀ i ∈ final, i ∉ final' → (s.inode i).nlink = 0 → 0 < holders s i) :
    Table s transit final' where
  ref_eq := table.ref_eq
  removed i typed nlink := by
    obtain ⟨valid, held⟩ := table.removed i typed nlink
    refine ⟨valid, ?_⟩
    rcases held with held | mem
    · exact .inl held
    · by_cases still : i ∈ final'
      · exact .inr still
      · exact .inl (stays i mem still nlink)
  unheld := table.unheld
  valid := table.valid
  final i mem := table.final i (sub mem)

/-- The references change, and with them only what is in transit. -/
theorem Table.same {transit' : List Nat} (table : Table s transit final)
    (same : Same transit s s') (ref : ∀ i, s'.ref i = holders s i + transit'.count i)
    (sub : final ⊆ transit')
    (kept : ∀ i, s.valid i = true → 0 < holders s i → s'.valid i = true)
    (valid : ∀ i, s'.valid i = true → 0 < s'.ref i → (s.inode i).type ≠ .free) :
    Table s' transit' final where
  ref_eq i := by rw [same.holders, ref i]
  removed i := by
    rw [same.inode, same.holders]
    intro typed nlink
    obtain ⟨valid, held⟩ := table.removed i typed nlink
    refine ⟨?_, held⟩
    rcases held with held | mem
    · exact kept i valid held
    · exact same.valid i (table.final i mem).1 valid
  unheld i := by
    rw [same.inode, same.holders]
    exact table.unheld i
  valid i := by
    rw [same.inode]
    exact valid i
  final i mem := ⟨sub mem, same.valid i (table.final i mem).1 (table.final i mem).2⟩

theorem Table.final_sub (table : Table s transit final) : final ⊆ transit :=
  fun i mem => (table.final i mem).1

/-! ## `iget`, `ilock`, `iput` -/

theorem iget_valid (valid : s.valid i = true) (referred : 0 < s.ref i) :
    (iget ip s).valid i = true := by
  simp only [iget]
  split
  · next zero =>
    have ne : i ≠ ip := by
      rintro rfl
      omega
    rwa [Function.update_of_ne ne]
  · exact valid

theorem iget_same (table : Table s transit final) : Same transit s (iget ip s) :=
  ⟨⟨rfl, rfl, fun _ mem valid => iget_valid valid (table.referred mem)⟩, rfl⟩

theorem iget_table (table : Table s transit final) :
    Table (iget ip s) (ip :: transit) final := by
  apply table.same (iget_same table)
  · intro j
    by_cases here : j = ip
    · subst here
      simp [iget, table.ref_eq j]
      omega
    · simp [iget, here, table.ref_eq j, Ne.symm here]
  · exact fun j mem => .tail _ (table.final_sub mem)
  · intro j valid held
    have ref := table.ref_eq j
    exact iget_valid valid (by omega)
  · intro j valid referred
    by_cases here : j = ip
    · subst here
      by_cases fresh : s.ref j = 0
      · simp [iget, fresh] at valid
      · simp only [iget, if_neg fresh] at valid
        exact table.valid j valid (by omega)
    · have same : s.valid j = true := by
        simp only [iget] at valid
        split at valid
        · rwa [Function.update_of_ne here] at valid
        · exact valid
      simp only [iget, Function.update_of_ne here] at referred
      exact table.valid j same referred

theorem idup_same : Same transit s (idup ip s) := ⟨⟨rfl, rfl, fun _ _ valid => valid⟩, rfl⟩

theorem idup_table (table : Table s transit final) (held : 0 < holders s ip) :
    Table (idup ip s) (ip :: transit) final := by
  have ref := table.ref_eq ip
  apply table.same idup_same
  · intro j
    by_cases here : j = ip
    · subst here
      simp [idup, table.ref_eq j]
      omega
    · simp [idup, here, table.ref_eq j, Ne.symm here]
  · exact fun j mem => .tail _ (table.final_sub mem)
  · intro j valid _
    exact valid
  · intro j valid referred
    apply table.valid j valid
    by_cases here : j = ip
    · subst here
      omega
    · simpa [idup, here] using referred

def State.setValid (s : State) (ip : Nat) : State :=
  { s with valid := Function.update s.valid ip true }

theorem setValid_valid (valid : s.valid i = true) : (s.setValid ip).valid i = true := by
  simp only [State.setValid]
  by_cases here : i = ip
  · rw [here, Function.update_self]
  · rwa [Function.update_of_ne here]

theorem setValid_same : Same transit s (s.setValid ip) :=
  ⟨⟨rfl, rfl, fun _ _ => setValid_valid⟩, rfl⟩

theorem setValid_table (table : Table s transit final) (typed : (s.inode ip).type ≠ .free) :
    Table (s.setValid ip) transit final := by
  refine table.same setValid_same table.ref_eq table.final_sub
    (fun i valid _ => setValid_valid valid) ?_
  intro i valid referred
  by_cases here : i = ip
  · rwa [here]
  · simp only [State.setValid, Function.update_of_ne here] at valid
    exact table.valid i valid referred

/-- `ilock` panics if the inode is free. -/
theorem ilock_spec (table : Table s transit final) (mem : ip ∈ transit)
    (safe : (s.inode ip).type = .free → bad .ilockNoType) :
    Ends bad (ilock ip s) fun s' => Same transit s s' ∧ Table s' transit final ∧
      (s.inode ip).type ≠ .free ∧ s'.valid ip = true := by
  have some_ref : ¬ s.ref ip < 1 := by
    have := table.referred mem
    omega
  rw [ilock, if_neg some_ref]
  by_cases valid : s.valid ip = true
  · rw [if_pos valid, ends_ok]
    exact ⟨.refl, table, table.valid ip valid (table.referred mem), valid⟩
  rw [if_neg valid]
  by_cases free : (s.inode ip).type = .free
  · rw [if_pos free]
    exact safe free
  rw [if_neg free, ends_ok]
  exact ⟨setValid_same, setValid_table table free, free, Function.update_self _ _ _⟩

/-- What is in transit is not the last reference of an inode without links. -/
theorem iput_kept (table : Table s (ip :: transit) final) (sub : final ⊆ transit) :
    ¬ (s.ref ip = 1 ∧ s.valid ip = true ∧ (s.inode ip).nlink = 0) := by
  rintro ⟨one, valid, nlink⟩
  have typed := table.valid ip valid (by omega)
  have ref := table.ref_eq ip
  rw [List.count_cons_self] at ref
  rcases (table.removed ip typed nlink).2 with held | mem
  · omega
  · have := List.count_pos_iff.mpr (sub mem)
    omega

theorem iput_same (table : Table s (ip :: transit) final) (sub : final ⊆ transit) :
    Same transit s (iput ip s) := by
  simp only [iput, if_neg (iput_kept table sub)]
  exact ⟨⟨rfl, rfl, fun _ _ valid => valid⟩, rfl⟩

theorem iput_table (table : Table s (ip :: transit) final) (sub : final ⊆ transit) :
    Table (iput ip s) transit final := by
  have valid_eq : (iput ip s).valid = s.valid := by simp only [iput, if_neg (iput_kept table sub)]
  have ref_eq : (iput ip s).ref = Function.update s.ref ip (s.ref ip - 1) := by
    simp only [iput, if_neg (iput_kept table sub)]
  have same : Same (ip :: transit) s (iput ip s) :=
    ⟨⟨(iput_same table sub).file, (iput_same table sub).proc, fun _ _ valid => by rwa [valid_eq]⟩,
      (iput_same table sub).inode⟩
  refine table.same same ?_ sub ?_ ?_
  · intro j
    rw [ref_eq]
    by_cases here : j = ip
    · subst here
      rw [Function.update_self, table.ref_eq j, List.count_cons_self]
      omega
    · rw [Function.update_of_ne here, table.ref_eq j, List.count_cons_of_ne (Ne.symm here)]
  · intro j valid _
    rwa [valid_eq]
  · intro j valid referred
    rw [valid_eq] at valid
    rw [ref_eq] at referred
    apply table.valid j valid
    by_cases here : j = ip
    · subst here
      rw [Function.update_self] at referred
      omega
    · rwa [Function.update_of_ne here] at referred

/-! ## The last reference -/

/-- What `iput` leaves of an inode without links. -/
def freed (ip : Inode) : Inode := { ip with type := .free, entries := [] }

theorem iput_last (table : Table s (ip :: transit) (ip :: final)) (last : ip ∉ transit)
    (sub : final ⊆ transit) :
    Table (iput ip s) transit final ∧ Kept transit s (iput ip s) ∧ (iput ip s).inode =
      if holders s ip = 0 ∧ (s.inode ip).nlink = 0 then
        Function.update s.inode ip (freed (s.inode ip))
      else s.inode := by
  by_cases gone : holders s ip = 0 ∧ (s.inode ip).nlink = 0
  · obtain ⟨unheld, nlink⟩ := gone
    have valid := (table.final ip List.mem_cons_self).2
    have ref : s.ref ip = 1 := by
      rw [table.ref_eq ip, unheld, List.count_cons_self, List.count_eq_zero_of_not_mem last]
    have result : iput ip s = { ifree ip s with ref := Function.update s.ref ip 0 } := by
      rw [iput, if_pos ⟨ref, valid, nlink⟩]
      simp only [ifree, ref]
    have elsewhere : ∀ j ∈ transit, j ≠ ip := by
      rintro j mem rfl
      exact last mem
    have kept : Kept transit s (iput ip s) := by
      rw [result]
      refine ⟨rfl, rfl, fun j mem valid => ?_⟩
      simpa only [ifree, Function.update_of_ne (elsewhere j mem)] using valid
    have inode : (iput ip s).inode = Function.update s.inode ip (freed (s.inode ip)) := by
      rw [result]
      rfl
    refine ⟨⟨?_, ?_, ?_, ?_, ?_⟩, kept, by rw [if_pos ⟨unheld, nlink⟩, inode]⟩
    · intro j
      rw [kept.holders, result]
      by_cases here : j = ip
      · subst here
        simp [unheld, List.count_eq_zero_of_not_mem last]
      · simp [here, table.ref_eq j, Ne.symm here]
    · intro j typed nlinkJ
      rw [inode] at typed nlinkJ
      have here : j ≠ ip := by
        rintro rfl
        simp [freed] at typed
      rw [Function.update_of_ne here] at typed nlinkJ
      obtain ⟨validJ, held⟩ := table.removed j typed nlinkJ
      rw [kept.holders, result]
      refine ⟨by simpa [ifree, here] using validJ, held.imp_right fun mem => ?_⟩
      exact (List.mem_cons.mp mem).resolve_left here
    · intro j free
      rw [kept.holders]
      rw [inode] at free
      by_cases here : j = ip
      · rw [here, unheld]
      · rw [Function.update_of_ne here] at free
        exact table.unheld j free
    · intro j validJ referred
      rw [result] at validJ referred
      have here : j ≠ ip := by
        rintro rfl
        simp at referred
      rw [inode, Function.update_of_ne here]
      simp only [ifree, Function.update_of_ne here] at validJ referred
      exact table.valid j validJ referred
    · intro j mem
      exact ⟨sub mem, kept.valid j (sub mem) (table.final j (.tail _ mem)).2⟩
  · have tight : Table s (ip :: transit) final := by
      refine table.tighten (List.subset_cons_self _ _) fun i mem gone' nlink => ?_
      have here : i = ip := (List.mem_cons.mp mem).resolve_right gone'
      rw [here] at nlink ⊢
      omega
    have same := iput_same tight sub
    exact ⟨iput_table tight sub, same.toKept, by rw [if_neg gone, same.inode]⟩

/-- Inodes without links become free, one after the other. -/
inductive Frees : (Nat → Inode) → (Nat → Inode) → Prop
  | refl {inode : Nat → Inode} : Frees inode inode
  | step {inode inode' : Nat → Inode} (ip : Nat) : (inode ip).type ≠ .free →
    (inode ip).nlink = 0 → Frees (Function.update inode ip (freed (inode ip))) inode' →
    Frees inode inode'

theorem Frees.trans {inode inode₁ inode₂ : Nat → Inode} (first : Frees inode inode₁)
    (second : Frees inode₁ inode₂) : Frees inode inode₂ := by
  induction first with
  | refl => exact second
  | step ip typed nlink _ ih => exact .step ip typed nlink (ih second)

theorem iput_last_frees (table : Table s (ip :: transit) (ip :: final)) (last : ip ∉ transit)
    (sub : final ⊆ transit) : Frees s.inode (iput ip s).inode := by
  rw [(iput_last table last sub).2.2]
  split
  · next gone =>
    have valid := (table.final ip List.mem_cons_self).2
    exact .step ip (table.valid ip valid (table.referred List.mem_cons_self)) gone.2 .refl
  · exact .refl

/-! ## Inodes and holders that change -/

theorem Table.setInode {node : Inode} (table : Table s transit final)
    (typed : (s.inode ip).type ≠ .free) (typed' : node.type ≠ .free)
    (zero : node.nlink = 0 → (s.inode ip).nlink = 0 ∨ ip ∈ final) :
    Table (s.setInode ip node) transit final where
  ref_eq := table.ref_eq
  removed i := by
    intro typedI nlink
    by_cases here : i = ip
    · subst here
      simp only [State.setInode, Function.update_self] at nlink
      rcases zero nlink with old | mem
      · exact table.removed i typed old
      · exact ⟨(table.final i mem).2, .inr mem⟩
    · simp only [State.setInode, Function.update_of_ne here] at typedI nlink
      exact table.removed i typedI nlink
  unheld i := by
    intro free
    by_cases here : i = ip
    · subst here
      simp only [State.setInode, Function.update_self] at free
      exact absurd free typed'
    · simp only [State.setInode, Function.update_of_ne here] at free
      exact table.unheld i free
  valid i := by
    intro valid referred
    by_cases here : i = ip
    · subst here
      simpa only [State.setInode, Function.update_self] using typed'
    · simpa only [State.setInode, Function.update_of_ne here] using table.valid i valid referred
  final := table.final

/-- A free inode is taken. -/
theorem Table.take {node : Inode} (table : Table s transit final)
    (free : (s.inode ip).type = .free) (typed : node.type ≠ .free) (linked : node.nlink ≠ 0) :
    Table (s.setInode ip node) transit final where
  ref_eq := table.ref_eq
  removed i := by
    intro typedI nlink
    have here : i ≠ ip := by
      rintro rfl
      simp only [State.setInode, Function.update_self] at nlink
      exact linked nlink
    simp only [State.setInode, Function.update_of_ne here] at typedI nlink
    exact table.removed i typedI nlink
  unheld i := by
    intro freeI
    by_cases here : i = ip
    · rw [here]
      exact table.unheld ip free
    · simp only [State.setInode, Function.update_of_ne here] at freeI
      exact table.unheld i freeI
  valid i := by
    intro valid referred
    by_cases here : i = ip
    · subst here
      simpa only [State.setInode, Function.update_self] using typed
    · simpa only [State.setInode, Function.update_of_ne here] using table.valid i valid referred
  final := table.final

/-- References move between holders and the call. -/
theorem Table.move (s' : State) {transit' final' : List Nat} (table : Table s transit final)
    (inode : s'.inode = s.inode) (ref : s'.ref = s.ref) (valid : s'.valid = s.valid)
    (moved : ∀ i, holders s' i + transit'.count i = holders s i + transit.count i)
    (stays : ∀ i, s.valid i = true → (s.inode i).nlink = 0 → 0 < holders s i ∨ i ∈ final →
      0 < holders s' i ∨ i ∈ final')
    (typed : ∀ i, 0 < holders s' i → (s.inode i).type ≠ .free)
    (locked : ∀ i ∈ final', i ∈ transit' ∧ s.valid i = true) : Table s' transit' final' where
  ref_eq i := by rw [ref, table.ref_eq i, moved i]
  removed i := by
    rw [inode, valid]
    intro typedI nlink
    obtain ⟨validI, held⟩ := table.removed i typedI nlink
    exact ⟨validI, stays i validI nlink held⟩
  unheld i := by
    rw [inode]
    intro free
    by_contra held
    exact typed i (by omega) free
  valid i := by
    rw [inode, ref, valid]
    exact table.valid i
  final i := by
    rw [valid]
    exact locked i

/-- What is in transit becomes held, and `c` is held no more and is put. -/
theorem iput_released (s' : State) {c : Nat} (table : Table s transit [])
    (inode : s'.inode = s.inode) (ref : s'.ref = s.ref) (valid : s'.valid = s.valid)
    (typed : ∀ i ∈ transit, (s.inode i).type ≠ .free)
    (moved : ∀ i, holders s' i + (if i = c then 1 else 0) = holders s i + transit.count i) :
    Table (iput c s') [] [] ∧ Kept [] s' (iput c s') ∧ Frees s.inode (iput c s').inode := by
  have count : ∀ i, holders s' i + [c].count i = holders s i + transit.count i := by
    intro i
    rw [← moved i]
    by_cases here : i = c
    · rw [here, if_pos rfl, List.count_singleton_self]
    · rw [if_neg here, List.count_singleton, if_neg (by simpa using Ne.symm here)]
  have typed' : ∀ i, 0 < holders s' i → (s.inode i).type ≠ .free := by
    intro i held
    have := moved i
    by_cases mem : i ∈ transit
    · exact typed i mem
    · rw [List.count_eq_zero_of_not_mem mem] at this
      exact table.typed (by omega)
  -- a current directory need not be valid, but then it has links
  by_cases locked : s.valid c = true
  · have table' : Table s' [c] [c] := by
      apply table.move s' inode ref valid count ?_ typed'
      · intro i mem
        rw [List.mem_singleton] at mem
        rw [mem]
        exact ⟨List.mem_singleton_self c, locked⟩
      · intro i _ _ held
        have here := moved i
        rw [List.mem_singleton]
        by_cases eq : i = c
        · exact .inr eq
        · rw [if_neg eq] at here
          rcases held with held | none
          · omega
          · cases none
    have last := List.not_mem_nil (a := c)
    obtain ⟨table'', kept, -⟩ := iput_last table' last (List.nil_subset _)
    rw [← inode]
    exact ⟨table'', kept, iput_last_frees table' last (List.nil_subset _)⟩
  · have table' : Table s' [c] [] := by
      apply table.move s' inode ref valid count ?_ typed' (by simp)
      intro i validI _ held
      have here := moved i
      have eq : i ≠ c := by
        rintro rfl
        exact locked validI
      rw [if_neg eq] at here
      rcases held with held | none
      · omega
      · cases none
    have same := iput_same table' (List.nil_subset _)
    rw [same.inode, inode]
    exact ⟨iput_table table' (List.nil_subset _), same.toKept, .refl⟩

end Sistemas.Xv6.Sysfile
