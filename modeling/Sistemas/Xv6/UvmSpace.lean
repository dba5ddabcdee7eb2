import Mathlib.Data.Finset.Card
import Sistemas.Xv6.Uvm

/-! # The pages of a process

`Space` says that a page table maps the first pages of the user memory, each to a page of its own.
`Change` is what a call does to the pages at hand: it loses none, and writes to no others.
-/

namespace Sistemas.Xv6.Uvm

open Vm

/-- The number of pages below `TRAPFRAME`. -/
def userPages : Nat := trapframe / pgsize

/-- A page of the table, or one that it maps for the process. -/
def Held (m : Mem) (root : Nat) (M : Map) (f : Nat) : Prop :=
  IsTable m root f ∨ ∃ v page, v < userPages ∧ M v = some page ∧ page.1 = f

/-- The user memory has `n` pages. -/
structure Space (kend : Nat) (m : Mem) (root : Nat) (M : Map) (n : Nat) (fs : List Nat) : Prop where
  linked : kernbase ≤ kend
  rep : Represents kend m root M fs
  dense : ∀ v, v < userPages → ((∃ page, M v = some page) ↔ v < n)
  le : n ≤ userPages
  ram : ∀ v page, v < n → M v = some page → InRam kend page.1
  -- also not as `TRAPFRAME` or `TRAMPOLINE`
  once : ∀ v v' page page', v < n → M v = some page → M v' = some page' →
    page.1 = page'.1 → v = v'
  leaf : ∀ v page, M v = some page → page.2 ≠ pteV

/-- The pages at hand were `fs`, and they are `gs` now. -/
structure Change (m m' : Mem) (root : Nat) (M M' : Map) (fs gs : List Nat) : Prop where
  pages : ∀ f, f ∈ gs ∨ Held m' root M' f ↔ f ∈ fs ∨ Held m root M f
  keeps : m.bytes.Keeps pgsize (fun f => f ∉ fs ∧ ¬ Held m root M f) m'.bytes
  data : ∀ v page, v < userPages → M v = some page → M' v = some page →
    m.bytes.Keeps pgsize (· = page.1) m'.bytes
  -- a page of the table stays one
  table : ∀ d i f, d ≤ 2 → tableAt m root d i = some f → tableAt m' root d i = some f

variable {kend root f v w k n perm : Nat} {fs gs hs : List Nat} {m m' m'' : Mem}
  {M M' M'' : Map}

theorem Change.refl (m : Mem) (root : Nat) (M : Map) (fs : List Nat) :
    Change m m root M M fs fs where
  pages _ := .rfl
  keeps := .refl _ _ _
  data _ _ _ _ _ := .refl _ _ _
  table _ _ _ _ here := here

theorem Change.trans (first : Change m m' root M M' fs gs)
    (second : Change m' m'' root M' M'' gs hs)
    (between : ∀ v page, v < userPages → M v = some page → M'' v = some page →
      M' v = some page) : Change m m'' root M M'' fs hs where
  pages f := (second.pages f).trans (first.pages f)
  keeps := by
    apply first.keeps.trans
    apply second.keeps.mono
    intro f outside
    exact not_or.mp fun inside => not_or.mpr outside ((first.pages f).mp inside)
  data v page low mapped mapped'' := by
    have mapped' := between v page low mapped mapped''
    exact (first.data v page low mapped mapped').trans (second.data v page low mapped' mapped'')
  table d i f le here := second.table d i f le (first.table d i f le here)

theorem Held.of_map (low : v < userPages) {page : Nat × Nat} (mapped : M v = some page) :
    Held m root M page.1 :=
  .inr ⟨v, page, low, mapped, rfl⟩

namespace Space

theorem pos (space : Space kend m root M n fs) : 0 < kend := by
  have linked := space.linked
  unfold kernbase at linked
  omega

theorem free (space : Space kend m root M n fs) : FreeList kend m fs := space.rep.tree.free

theorem frame_bounds (space : Space kend m root M n fs) {page : Nat × Nat} (lt : v < n)
    (mapped : M v = some page) : 0x80000 ≤ page.1 ∧ page.1 < 0x88000 := by
  obtain ⟨low, high⟩ := space.ram v page lt mapped
  have linked := space.linked
  unfold kernbase phystop kernbase pgsize at *
  omega

/-- There is not more user memory than memory. -/
theorem small (space : Space kend m root M n fs) : n ≤ 32768 := by
  have maps : ∀ v ∈ Finset.range n,
      ((M v).map fun page => page.1 - 0x80000).getD 0 ∈ Finset.range 32768 := by
    intro v mem
    have lt := Finset.mem_range.mp mem
    obtain ⟨page, mapped⟩ := (space.dense v (lt.trans_le space.le)).mpr lt
    have bounds := space.frame_bounds lt mapped
    rw [mapped, Option.map_some, Option.getD_some, Finset.mem_range]
    omega
  have injective : ∀ v ∈ Finset.range n, ∀ v' ∈ Finset.range n,
      ((M v).map fun page => page.1 - 0x80000).getD 0 =
        ((M v').map fun page => page.1 - 0x80000).getD 0 → v = v' := by
    intro v mem v' mem' same
    have lt := Finset.mem_range.mp mem
    have lt' := Finset.mem_range.mp mem'
    obtain ⟨page, mapped⟩ := (space.dense v (lt.trans_le space.le)).mpr lt
    obtain ⟨page', mapped'⟩ := (space.dense v' (lt'.trans_le space.le)).mpr lt'
    have bounds := space.frame_bounds lt mapped
    have bounds' := space.frame_bounds lt' mapped'
    rw [mapped, mapped', Option.map_some, Option.map_some, Option.getD_some,
      Option.getD_some] at same
    exact space.once v v' page page' lt mapped mapped' (by omega)
  have card := Finset.card_le_card_of_injOn _ maps injective
  rwa [Finset.card_range, Finset.card_range] at card

theorem lt_userPages (space : Space kend m root M n fs) : n < userPages :=
  space.small.trans_lt (by decide)

theorem not_free (space : Space kend m root M n fs) (held : Held m root M f) : f ∉ fs := by
  cases held with
  | inl isTable => exact space.rep.tree.notFree f isTable
  | inr mapped =>
    obtain ⟨v, page, -, mapped, rfl⟩ := mapped
    exact (space.rep.page v page mapped).2.1

/-- What the rest of the kernel does to other pages. -/
theorem elsewhere (space : Space kend m root M n fs) (free : FreeList kend m' gs)
    (keeps : m.bytes.Keeps pgsize (IsTable m root) m'.bytes)
    (tables : ∀ f, IsTable m root f → f ∉ gs)
    (mapped : ∀ v page, M v = some page → page.1 ∉ gs) :
    Space kend m' root M n gs ∧ (∀ f, IsTable m' root f ↔ IsTable m root f) ∧
      ∀ d i, d ≤ 2 → tableAt m' root d i = tableAt m root d i := by
  obtain ⟨tree, nodes, ptes⟩ := space.rep.tree.congr free keeps tables
  have same : ∀ f, IsTable m' root f ↔ IsTable m root f := by
    intro f
    constructor
    · rintro ⟨d, i, le, there⟩
      exact isTable le ((nodes d i le).symm.trans there)
    · rintro ⟨d, i, le, there⟩
      exact isTable le ((nodes d i le).trans there)
  refine ⟨⟨space.linked, ⟨tree, ?_, ?_, ?_, space.rep.user⟩, space.dense, space.le, space.ram,
    space.once, space.leaf⟩, same, nodes⟩
  · rw [funext ptes, space.rep.map]
  · intro v none
    rw [ptes v] at none ⊢
    exact space.rep.unset v none
  · intro v page here
    exact ⟨(space.rep.page v page here).1, mapped v page here,
      fun isTable => (space.rep.page v page here).2.2 ((same _).mp isTable)⟩

/-- A page that is neither free nor held is written. -/
theorem write (space : Space kend m root M n fs) (loose : f ∉ fs) (notHeld : ¬ Held m root M f)
    (same : m'.freelist = m.freelist) (keeps : m.bytes.Keeps pgsize (· ≠ f) m'.bytes) :
    Space kend m' root M n fs ∧ (∀ g, Held m' root M g ↔ Held m root M g) ∧
      Change m m' root M M (f :: fs) (f :: fs) := by
  have apart : ∀ g, IsTable m root g → g ≠ f := by
    rintro g isTable rfl
    exact notHeld (.inl isTable)
  obtain ⟨space', tables, nodes⟩ := space.elsewhere (space.free.write loose same keeps)
    (keeps.mono apart) space.rep.tree.notFree fun v page mapped => (space.rep.page v page mapped).2.1
  have held : ∀ g, Held m' root M g ↔ Held m root M g := fun g => or_congr_left (tables g)
  refine ⟨space', held, fun g => ?_, keeps.mono fun g outside same => ?_,
    fun v page low mapped _ => ?_, ?_⟩
  · rw [held]
  · exact outside.1 (same ▸ List.mem_cons_self)
  · apply keeps.mono
    rintro g rfl same
    exact notHeld (same ▸ .of_map low mapped)
  · exact fun d i g le there => (nodes d i le).trans there

/-- The first of the free pages is taken. -/
theorem alloc (space : Space kend m root M n (f :: fs)) : ∃ m', kalloc m = some (f * pgsize, m') ∧
    Space kend m' root M n fs ∧ (∀ g, Held m' root M g ↔ Held m root M g) ∧
      m.bytes.Keeps pgsize (· ≠ f) m'.bytes ∧ Change m m' root M M (f :: fs) (f :: fs) := by
  obtain ⟨m', found, free, keeps⟩ := kalloc_cons space.pos space.free
  have notHeld : ¬ Held m root M f := fun held => space.not_free held List.mem_cons_self
  have apart : ∀ g, IsTable m root g → g ≠ f := by
    rintro g isTable rfl
    exact notHeld (.inl isTable)
  obtain ⟨space', tables, nodes⟩ := space.elsewhere free (keeps.mono apart)
    (fun g isTable mem => space.rep.tree.notFree g isTable (List.mem_cons_of_mem f mem))
    fun v page mapped mem => (space.rep.page v page mapped).2.1 (List.mem_cons_of_mem f mem)
  have held : ∀ g, Held m' root M g ↔ Held m root M g := fun g => or_congr_left (tables g)
  refine ⟨m', found, space', held, keeps, fun g => ?_, keeps.mono fun g outside same => ?_,
    fun v page low mapped _ => ?_, ?_⟩
  · rw [held]
  · exact outside.1 (same ▸ List.mem_cons_self)
  · apply keeps.mono
    rintro g rfl same
    exact notHeld (same ▸ .of_map low mapped)
  · exact fun d i g le there => (nodes d i le).trans there

/-- A page that is neither free nor held is given back. -/
theorem giveBack (space : Space kend m root M n fs) (ram : InRam kend f) (loose : f ∉ fs)
    (notHeld : ¬ Held m root M f) (unmapped : ∀ v page, M v = some page → page.1 ≠ f) :
    ∃ m', kfree kend (f * pgsize) m = .ok m' ∧ Space kend m' root M n (f :: fs) ∧
      Change m m' root M M (f :: fs) (f :: fs) := by
  obtain ⟨m', freed, free, keeps⟩ := kfree_ok space.free ram loose
  have apart : ∀ g, IsTable m root g → g ≠ f := by
    rintro g isTable rfl
    exact notHeld (.inl isTable)
  obtain ⟨space', tables, nodes⟩ := space.elsewhere free (keeps.mono apart)
    (fun g isTable mem => by
      cases mem with
      | head => exact notHeld (.inl isTable)
      | tail _ mem => exact space.rep.tree.notFree g isTable mem)
    fun v page mapped mem => by
      cases mem with
      | head => exact unmapped v page mapped rfl
      | tail _ mem => exact (space.rep.page v page mapped).2.1 mem
  refine ⟨m', freed, space', fun g => ?_, keeps.mono fun g outside same => ?_,
    fun v page low mapped _ => ?_, ?_⟩
  · rw [Held, Held, tables]
  · exact outside.1 (same ▸ List.mem_cons_self)
  · apply keeps.mono
    rintro g rfl
    exact unmapped v page mapped
  · exact fun d i g le there => (nodes d i le).trans there

/-! ## One page is mapped -/

/-- What `mappages` does to the pages of the table. -/
structure Mapped (kend : Nat) (m m' : Mem) (root : Nat) (M' : Map) (fs gs : List Nat) : Prop where
  rep : Represents kend m' root M' gs
  sub : gs ⊆ fs
  pages : ∀ f, f ∈ gs ∨ IsTable m' root f ↔ f ∈ fs ∨ IsTable m root f
  keeps : m.bytes.Keeps pgsize (fun f => f ∉ fs ∧ ¬ IsTable m root f) m'.bytes
  table : ∀ d i f, d ≤ 2 → tableAt m root d i = some f → tableAt m' root d i = some f
  few : fs.length ≤ gs.length + 2

theorem mapAt (space : Space kend m root M n fs) (lt : v < maxva / pgsize) (unset : M v = none)
    (frame : f < 2 ^ 52) (loose : f ∉ fs) (notTable : ¬ IsTable m root f) (flags : perm < 1024) :
    ∃ done m' gs, mappages (root * pgsize) (v * pgsize) pgsize (f * pgsize) perm m =
        .ok (done, m') ∧ (done = false → gs = []) ∧
      Mapped kend m m' root
        (if done then Function.update M v (some (f, perm ||| pteV)) else M) fs gs := by
  have none : valid (pteOf m root v) = false := by
    by_contra isValid
    have mapped := space.rep.mapOf (Bool.not_eq_false _ ▸ isValid)
    rw [unset] at mapped
    cases mapped
  have paLt : f * pgsize < 2 ^ 64 := by
    unfold pgsize
    omega
  have whole : f * pgsize / pgsize = f := Nat.mul_div_cancel f (by decide)
  obtain ⟨done, m', gs, ran, edited, kept, stuck, few⟩ :=
    mappages_page space.pos space.rep.tree (user_page lt) none paLt flags
  rw [whole] at edited
  refine ⟨done, m', gs, ran, stuck, ?_, edited.sub, fun g => ⟨?_, ?_⟩, edited.keeps, edited.table,
    few⟩
  · apply edited.represents
    · funext w
      cases done with
      | false =>
        rw [if_neg Bool.false_ne_true, ← space.rep.map]
        exact mapOf_congr (if_neg fun both => Bool.false_ne_true both.1)
      | true =>
        rw [if_pos rfl]
        by_cases same : w = v
        · rw [same, Function.update_self, Vm.mapOf]
          simp only [and_self, if_true, mkPte_valid, mkPte_frame flags, mkPte_flags flags]
        · rw [Function.update_of_ne same, ← space.rep.map]
          exact mapOf_congr (if_neg fun both => same both.2)
    · intro w isNone
      split at isNone
      · rw [mkPte_valid] at isNone
        cases isNone
      next other =>
        rw [if_neg other]
        exact space.rep.unset w isNone
    · intro w page mapped
      have old : M w = some page → w < maxva / pgsize ∧ page.1 < 2 ^ 52 ∧ page.1 ∉ fs ∧
          ¬ IsTable m root page.1 :=
        fun mapped => ⟨space.rep.user w page mapped, space.rep.page w page mapped⟩
      cases done with
      | false => exact old mapped
      | true =>
        rw [if_pos rfl] at mapped
        by_cases same : w = v
        · rw [same, Function.update_self] at mapped
          cases mapped
          exact ⟨same ▸ lt, frame, loose, notTable⟩
        · rw [Function.update_of_ne same] at mapped
          exact old mapped
  · intro here
    cases here with
    | inl mem => exact .inl (edited.sub mem)
    | inr isTable => exact (edited.new g isTable).symm
  · intro here
    cases here with
    | inl mem => exact kept g mem
    | inr isTable =>
      obtain ⟨d, i, le, there⟩ := isTable
      exact .inr (Vm.isTable le (edited.table d i g le there))

/-- The pages that are not at hand, and those that are mapped, stay as they are. -/
theorem Mapped.frame {M₁ : Map} (space : Space kend m root M n fs)
    (mapped : Mapped kend m m' root M₁ fs gs) :
    m.bytes.Keeps pgsize (fun g => g ∉ f :: fs ∧ ¬ Held m root M g) m'.bytes ∧
      ∀ v page, M v = some page → m.bytes.Keeps pgsize (· = page.1) m'.bytes := by
  constructor
  · apply mapped.keeps.mono
    intro g out
    exact ⟨fun mem => out.1 (List.mem_cons_of_mem f mem), fun isTable => out.2 (.inl isTable)⟩
  · intro v page here
    apply mapped.keeps.mono
    rintro g rfl
    exact (space.rep.page v page here).2

theorem update_cases {page new : Nat × Nat} (eq : Function.update M n (some new) v = some page) :
    (v = n ∧ page = new) ∨ (v ≠ n ∧ M v = some page) := by
  by_cases same : v = n
  · rw [same, Function.update_self] at eq
    exact .inl ⟨same, (Option.some.inj eq).symm⟩
  · rw [Function.update_of_ne same] at eq
    exact .inr ⟨same, eq⟩

theorem unset_next (space : Space kend m root M n fs) : M n = none := by
  cases mapped : M n with
  | none => rfl
  | some page => exact absurd ((space.dense n space.lt_userPages).mp ⟨page, mapped⟩) (lt_irrefl n)

theorem map_space (space : Space kend m root M n fs) (ram : InRam kend f)
    (unmapped : ∀ v page, M v = some page → page.1 ≠ f) (leaf : perm ||| pteV ≠ pteV)
    (rep : Represents kend m' root (Function.update M n (some (f, perm ||| pteV))) gs) :
    Space kend m' root (Function.update M n (some (f, perm ||| pteV))) (n + 1) gs := by
  have low := space.lt_userPages
  refine ⟨space.linked, rep, ?_, low, ?_, ?_, ?_⟩
  · intro v lt
    by_cases same : v = n
    · rw [same, Function.update_self]
      exact ⟨fun _ => Nat.lt_succ_self n, fun _ => ⟨_, rfl⟩⟩
    · rw [Function.update_of_ne same, space.dense v lt]
      omega
  · intro v page lt eq
    cases update_cases eq with
    | inl new => exact new.2 ▸ ram
    | inr old => exact space.ram v page (by have := old.1; omega) old.2
  · intro v v' page page' lt eq eq' same
    cases update_cases eq with
    | inl new =>
      cases update_cases eq' with
      | inl new' => rw [new.1, new'.1]
      | inr old' =>
        rw [new.2] at same
        exact absurd same.symm (unmapped v' page' old'.2)
    | inr old =>
      cases update_cases eq' with
      | inl new' =>
        rw [new'.2] at same
        exact absurd same (unmapped v page old.2)
      | inr old' =>
        exact space.once v v' page page' (by have := old.1; omega) old.2 old'.2 same
  · intro v page eq
    cases update_cases eq with
    | inl new => exact new.2 ▸ leaf
    | inr old => exact space.leaf v page old.2

theorem user_update (space : Space kend m root M n fs) (new : Nat × Nat) (g : Nat) :
    (∃ v page, v < userPages ∧ Function.update M n (some new) v = some page ∧ page.1 = g) ↔
      g = new.1 ∨ ∃ v page, v < userPages ∧ M v = some page ∧ page.1 = g := by
  constructor
  · rintro ⟨v, page, lt, eq, rfl⟩
    cases update_cases eq with
    | inl here => exact .inl (by rw [here.2])
    | inr old => exact .inr ⟨v, page, lt, old.2, rfl⟩
  · rintro (rfl | ⟨v, page, lt, eq, rfl⟩)
    · exact ⟨n, new, space.lt_userPages, Function.update_self .., rfl⟩
    · have ne : v ≠ n := by
        rintro rfl
        rw [space.unset_next] at eq
        cases eq
      exact ⟨v, page, lt, by rw [Function.update_of_ne ne, eq], rfl⟩

/-- A page moves from the front of the pages at hand to those that are held. -/
theorem or_move {A B C D E U : Prop} (iff : A ∨ B ↔ C ∨ D) :
    A ∨ B ∨ E ∨ U ↔ (E ∨ C) ∨ D ∨ U := by
  rw [← or_assoc, iff]
  tauto

theorem or_stay {A B C D E U : Prop} (iff : A ∨ B ↔ C ∨ D) :
    (E ∨ A) ∨ B ∨ U ↔ (E ∨ C) ∨ D ∨ U := by
  rw [or_assoc, ← @or_assoc A, iff]
  tauto

/-- The next page of the user memory, which is at hand, is mapped if there are pages for the
table. -/
theorem map (space : Space kend m root M n fs) (ram : InRam kend f) (loose : f ∉ fs)
    (notHeld : ¬ Held m root M f) (unmapped : ∀ v page, M v = some page → page.1 ≠ f) (flags : perm < 1024) (leaf : perm ||| pteV ≠ pteV) :
    ∃ done m' gs, mappages (root * pgsize) (n * pgsize) pgsize (f * pgsize) perm m =
        .ok (done, m') ∧ f ∉ gs ∧ m.bytes.Keeps pgsize (· = f) m'.bytes ∧
      fs.length ≤ gs.length + 2 ∧
      (done = true → Space kend m' root (Function.update M n (some (f, perm ||| pteV))) (n + 1) gs ∧
        Change m m' root M (Function.update M n (some (f, perm ||| pteV))) (f :: fs) gs) ∧
      (done = false → gs = [] ∧ Space kend m' root M n gs ∧ ¬ Held m' root M f ∧
        Change m m' root M M (f :: fs) (f :: gs)) := by
  have ramLt := ram.lt
  have notTable : ¬ IsTable m root f := fun isTable => notHeld (.inl isTable)
  obtain ⟨done, m', gs, ran, stuck, mapped⟩ := space.mapAt
    (space.lt_userPages.trans (by decide)) space.unset_next (by omega) loose notTable flags
  obtain ⟨outside, held⟩ := mapped.frame space (f := f)
  refine ⟨done, m', gs, ran, fun mem => loose (mapped.sub mem), mapped.keeps.mono ?_, mapped.few,
    ?_, ?_⟩
  · rintro g rfl
    exact ⟨loose, notTable⟩
  · rintro rfl
    rw [if_pos rfl] at mapped
    refine ⟨space.map_space ram unmapped leaf mapped.rep, fun g => ?_, outside,
      fun v page _ here _ => held v page here, mapped.table⟩
    rw [Held, Held, space.user_update, List.mem_cons]
    exact or_move (mapped.pages g)
  · rintro rfl
    rw [if_neg Bool.false_ne_true] at mapped
    refine ⟨stuck rfl, ⟨space.linked, mapped.rep, space.dense, space.le, space.ram, space.once,
      space.leaf⟩, ?_, fun g => ?_, outside, fun v page _ here _ => held v page here,
      mapped.table⟩
    · intro here
      cases here with
      | inl isTable => exact ((mapped.pages f).mp (.inr isTable)).elim loose notTable
      | inr there => exact notHeld (.inr there)
    · rw [Held, Held, List.mem_cons, List.mem_cons]
      exact or_stay (mapped.pages g)

end Space

end Sistemas.Xv6.Uvm
