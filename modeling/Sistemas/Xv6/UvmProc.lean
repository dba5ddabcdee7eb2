import Sistemas.Xv6.UvmFree

/-! # The page table of a process

Above the user memory a process has its trapframe and the trampoline.  `procPagetable` makes such a
table or gives back what it took, and `procFreepagetable` gives back all of it but these two pages.
-/

namespace Sistemas.Xv6.Uvm

open Vm

variable {kend root f g v k n perm tramp frame : Nat} {fs gs hs : List Nat} {m m' m'' : Mem}
  {M M' : Map}

theorem trapframe_page : trapframe = userPages * pgsize := by decide

theorem trampoline_page : trampoline = (userPages + 1) * pgsize := by decide

theorem upper_pages : maxva / pgsize = userPages + 2 := by decide

/-! ## Pages above the user memory -/

/-- What is mapped above is not among the pages of the process. -/
theorem held_upper (high : userPages ≤ v) (same : ∀ w, w ≠ v → M' w = M w) :
    Held m root M' f ↔ Held m root M f := by
  have low : ∀ w, w < userPages → M' w = M w := fun w lt => same w (by omega)
  rw [Held, Held]
  refine or_congr_right ⟨?_, ?_⟩
  · rintro ⟨w, page, lt, mapped, rfl⟩
    exact ⟨w, page, lt, by rw [← low w lt, mapped], rfl⟩
  · rintro ⟨w, page, lt, mapped, rfl⟩
    exact ⟨w, page, lt, by rw [low w lt, mapped], rfl⟩

namespace Space

/-- The pages of the user memory do not depend on what is above. -/
theorem ofLow (space : Space kend m root M n fs) (low : ∀ w, w < userPages → M' w = M w)
    (rep : Represents kend m' root M' gs)
    (upper : ∀ w page, userPages ≤ w → M' w = some page → page.2 ≠ pteV ∧
      ∀ u old, u < n → M u = some old → old.1 ≠ page.1) : Space kend m' root M' n gs := by
  have le := space.le
  refine ⟨space.linked, rep, ?_, le, ?_, ?_, ?_⟩
  · intro w lt
    rw [low w lt]
    exact space.dense w lt
  · intro w page lt mapped
    rw [low w (by omega)] at mapped
    exact space.ram w page lt mapped
  · intro w w' page page' lt mapped mapped' eq
    rw [low w (by omega)] at mapped
    by_cases lt' : w' < userPages
    · rw [low w' lt'] at mapped'
      exact space.once w w' page page' lt mapped mapped' eq
    · exact absurd eq ((upper w' page' (by omega) mapped').2 w page lt mapped)
  · intro w page mapped
    by_cases lt : w < userPages
    · rw [low w lt] at mapped
      exact space.leaf w page mapped
    · exact (upper w page (by omega) mapped).1

/-- One page above the user memory is another one. -/
theorem upper (space : Space kend m root M n fs) (high : userPages ≤ v)
    (same : ∀ w, w ≠ v → M' w = M w) (rep : Represents kend m' root M' gs)
    (new : ∀ w page page', w < n → M w = some page → M' v = some page' → page.1 ≠ page'.1)
    (leaf : ∀ page, M' v = some page → page.2 ≠ pteV) : Space kend m' root M' n gs := by
  apply space.ofLow (fun w lt => same w (by omega)) rep
  intro w page _ mapped
  by_cases here : w = v
  · rw [here] at mapped
    exact ⟨leaf page mapped, fun u old lt there => new u old page lt there mapped⟩
  · have old := mapped
    rw [same w here] at old
    refine ⟨space.leaf w page old, fun u page' lt there eq => ?_⟩
    have := space.once u w page' page lt there old eq
    have := space.le
    omega

/-- One page above the user memory is mapped, if there are pages for the table. -/
theorem mapUpper (space : Space kend m root M 0 fs) (high : userPages ≤ v)
    (lt : v < maxva / pgsize) (unset : M v = none) (frame : f < 2 ^ 52) (loose : f ∉ fs)
    (notTable : ¬ IsTable m root f) (flags : perm < 1024) (leaf : perm ||| pteV ≠ pteV) :
    ∃ done m' gs, mappages (root * pgsize) (v * pgsize) pgsize (f * pgsize) perm m =
        .ok (done, m') ∧ fs.length ≤ gs.length + 2 ∧ (done = false → gs = []) ∧ ∃ M',
      M' = (if done then Function.update M v (some (f, perm ||| pteV)) else M) ∧
      Space kend m' root M' 0 gs ∧ Change m m' root M M' fs gs := by
  obtain ⟨done, m', gs, ran, stuck, mapped⟩ := space.mapAt lt unset frame loose notTable flags
  refine ⟨done, m', gs, ran, mapped.few, stuck, _, rfl, ?_⟩
  generalize new : (if done then Function.update M v (some (f, perm ||| pteV)) else M) = M' at mapped
  have same : ∀ w, w ≠ v → M' w = M w := by
    intro w ne
    cases done with
    | false => rw [← new, if_neg Bool.false_ne_true]
    | true => rw [← new, if_pos rfl, Function.update_of_ne ne]
  have here : ∀ page, M' v = some page → page = (f, perm ||| pteV) := by
    intro page eq
    cases done with
    | false =>
      rw [← new, if_neg Bool.false_ne_true, unset] at eq
      cases eq
    | true =>
      rw [← new, if_pos rfl, Function.update_self] at eq
      exact (Option.some.inj eq).symm
  refine ⟨space.upper high same mapped.rep (fun w _ _ no => absurd no (Nat.not_lt_zero w))
    fun page eq => here page eq ▸ leaf, fun g => ?_, mapped.keeps.mono fun g out => ?_, ?_,
    mapped.table⟩
  · rw [held_upper high same, Held, Held, ← or_assoc, mapped.pages g, or_assoc]
  · exact ⟨out.1, fun isTable => out.2 (.inl isTable)⟩
  · intro w page low there _
    exact absurd ((space.dense w low).mp ⟨page, there⟩) (Nat.not_lt_zero w)

/-- One page above the user memory is unmapped. -/
theorem unmapUpper (space : Space kend m root M n fs) (high : userPages ≤ v)
    {page : Nat × Nat} (mapped : M v = some page) :
    ∃ m', uvmunmap kend (root * pgsize) (v * pgsize) 1 false m = .ok m' ∧
      Space kend m' root (M.unmap v 1) n fs ∧ Change m m' root M (M.unmap v 1) fs fs := by
  obtain ⟨isValid, -, flags⟩ := space.pte mapped
  have lt := space.rep.user v page mapped
  have fits : (v + 1) * pgsize ≤ maxva := by
    unfold maxva pgsize at *
    omega
  have leaves : Leaves kend m root v 1 false := by
    refine ⟨fun u ge small => ?_, fun no => by cases no⟩
    obtain rfl : u = v := by omega
    exact ⟨isValid, flags ▸ space.leaf u page mapped⟩
  obtain ⟨m', ran, unmapped⟩ := uvmunmap_ok space.rep.tree fits leaves (fun no => by cases no)
  have allowed : (Call.uvmunmap v 1 false).Allowed kend m root M :=
    ⟨fits, fun no => by cases no⟩
  obtain ⟨gs, rep⟩ := space.rep.uvmunmap allowed ran
  obtain rfl : gs = fs := rep.tree.free.unique space.pos unmapped.tree.free
  have tables : ∀ g, IsTable m' root g ↔ IsTable m root g := by
    intro g
    constructor
    · rintro ⟨d, i, small, there⟩
      exact isTable small ((unmapped.table d i small).symm.trans there)
    · rintro ⟨d, i, small, there⟩
      exact isTable small ((unmapped.table d i small).trans there)
  have same : ∀ w, w ≠ v → M.unmap v 1 w = M w := fun w ne => if_neg (by omega)
  have gone : M.unmap v 1 v = none := if_pos (by omega)
  refine ⟨m', ran, space.upper high same rep ?_ ?_, fun g => ?_, ?_, ?_,
    fun d i g le there => (unmapped.table d i le).trans there⟩
  · intro w page page' _ _ no
    rw [gone] at no
    cases no
  · intro page no
    rw [gone] at no
    cases no
  · rw [held_upper high same, Held, Held, tables]
  · exact unmapped.keeps.mono fun g out => ⟨fun there => out.2 (.inl there), fun no => by cases no⟩
  · intro w page _ there _
    apply unmapped.keeps.mono
    rintro g rfl
    exact ⟨(space.rep.page w page there).2.2, fun no => by cases no⟩

end Space

/-! ## From the free pages -/

/-- All pages of the table were free. -/
structure Fresh (m m' : Mem) (root : Nat) (M : Map) (fs gs : List Nat) : Prop where
  pages : ∀ f, f ∈ gs ∨ Held m' root M f ↔ f ∈ fs
  keeps : m.bytes.Keeps pgsize (· ∉ fs) m'.bytes

/-- The free pages are the same again, in some order. -/
structure Undone (kend : Nat) (m m' : Mem) (fs gs : List Nat) : Prop where
  free : FreeList kend m' gs
  pages : ∀ f, f ∈ gs ↔ f ∈ fs
  keeps : m.bytes.Keeps pgsize (· ∉ fs) m'.bytes

theorem Fresh.step (fresh : Fresh m m' root M fs gs) (change : Change m' m'' root M M' gs hs) :
    Fresh m m'' root M' fs hs where
  pages f := (change.pages f).trans (fresh.pages f)
  keeps := by
    apply fresh.keeps.trans
    apply change.keeps.mono
    intro f out
    exact not_or.mp fun inside => out ((fresh.pages f).mp inside)

theorem Fresh.freed (fresh : Fresh m m' root M fs gs)
    (freed : AllFreed kend m' m'' (Held m' root M) gs hs) : Undone kend m m'' fs hs where
  free := freed.free
  pages f := (freed.pages f).trans (fresh.pages f)
  keeps := by
    apply fresh.keeps.trans
    apply freed.keeps.mono
    intro f out
    exact not_or.mp fun inside => out ((fresh.pages f).mp inside)

/-- The first of the free pages is an empty page table. -/
theorem uvmcreate_space (linked : kernbase ≤ kend) (free : FreeList kend m (f :: fs)) :
    ∃ m', uvmcreate m = some (f * pgsize, m') ∧ Space kend m' f .empty 0 fs ∧
      Fresh m m' f .empty (f :: fs) fs := by
  have pos : 0 < kend := by
    unfold kernbase at linked
    omega
  obtain ⟨m₁, found, tree, ptes, only, keeps⟩ := kalloc_table pos free
  have created : uvmcreate m = some (f * pgsize, m₁.memset (f * pgsize) 0) := by
    rw [uvmcreate, found]
    rfl
  generalize m₁.memset (f * pgsize) 0 = m' at created tree ptes only keeps
  have none : ∀ v page, Map.empty v = some page → False := fun v page no => by cases no
  have rep : Represents kend m' f .empty fs := by
    refine ⟨tree, ?_, fun v _ => ptes v, fun v page no => (none v page no).elim,
      fun v page no => (none v page no).elim⟩
    funext v
    rw [Vm.mapOf, ptes v]
    rfl
  refine ⟨m', created, ⟨linked, rep, ?_, Nat.zero_le _, fun v page no => absurd no (by omega),
    fun v v' page page' no => absurd no (by omega), fun v page no => (none v page no).elim⟩, ?_,
    keeps.mono fun g out same => out (same ▸ List.mem_cons_self)⟩
  · intro v _
    constructor
    · rintro ⟨page, no⟩
      exact (none v page no).elim
    · exact fun no => absurd no (Nat.not_lt_zero v)
  · intro g
    rw [List.mem_cons]
    constructor
    · rintro (mem | table | ⟨v, page, -, no, -⟩)
      · exact .inr mem
      · exact .inl ((only g).mp table)
      · exact (none v page no).elim
    · rintro (rfl | mem)
      · exact .inr (.inl ((only _).mpr rfl))
      · exact .inl mem

/-! ## `proc_pagetable` -/

/-- The user memory has `n` pages, and `frame` and `tramp` are mapped above. -/
structure ProcSpace (kend tramp frame : Nat) (m : Mem) (root : Nat) (M : Map) (n : Nat)
    (fs : List Nat) : Prop where
  space : Space kend m root M n fs
  trapframe : M userPages = some (frame, pteR ||| pteW ||| pteV)
  trampoline : M (userPages + 1) = some (tramp, pteR ||| pteX ||| pteV)

/-- What `procPagetable` returns. -/
inductive Made (kend tramp frame : Nat) (m m' : Mem) (fs : List Nat) : Option Nat → Prop
  | table {root : Nat} {M : Map} {gs : List Nat}
      (space : ProcSpace kend tramp frame m' root M 0 gs) (fresh : Fresh m m' root M fs gs)
      (few : fs.length ≤ gs.length + 5) : Made kend tramp frame m m' fs (some (root * pgsize))
  | failed {gs : List Nat} (undone : Undone kend m m' fs gs) (few : fs.length ≤ 5) :
      Made kend tramp frame m m' fs none

theorem procPagetable_spec (linked : kernbase ≤ kend) (free : FreeList kend m fs)
    (trampLt : tramp < 2 ^ 52) (trampOut : tramp ∉ fs) (frameLt : frame < 2 ^ 52)
    (frameOut : frame ∉ fs) :
    ∃ r m', procPagetable kend (tramp * pgsize) (frame * pgsize) m = .ok (r, m') ∧
      Made kend tramp frame m m' fs r := by
  have zero : pagesOf 0 = 0 := rfl
  rw [procPagetable, trampoline_page, trapframe_page]
  cases fs with
  | nil =>
    have none : uvmcreate m = none := by
      rw [uvmcreate, kalloc_nil free]
      rfl
    rw [none]
    exact ⟨_, m, rfl, .failed ⟨free, fun _ => .rfl, .refl _ _ _⟩ (Nat.zero_le _)⟩
  | cons root fs =>
    obtain ⟨m₁, created, space₁, fresh₁⟩ := uvmcreate_space linked free
    have outside : ∀ {g m' M gs}, Fresh m m' root M (root :: fs) gs → g ∉ root :: fs →
        g ∉ gs ∧ ¬ IsTable m' root g := fun fresh out =>
      ⟨fun mem => out ((fresh.pages _).mp (.inl mem)),
        fun table => out ((fresh.pages _).mp (.inr (.inl table)))⟩
    obtain ⟨loose, notTable⟩ := outside fresh₁ trampOut
    obtain ⟨done, m₂, gs, ran, few, stuck, M₂, eq, space₂, change₂⟩ := space₁.mapUpper
      (Nat.le_succ userPages) (by decide) rfl trampLt loose notTable
      (show pteR ||| pteX < 1024 by decide) (by decide)
    have fresh₂ := fresh₁.step change₂
    rw [created]
    dsimp only
    rw [ran]
    dsimp only [lift, Except.mapError, bind, Except.bind]
    cases done with
    | false =>
      rw [if_neg Bool.false_ne_true] at eq
      have empty : ∀ v, userPages ≤ v → M₂ v = none := fun v _ => by
        rw [eq]
        rfl
      obtain ⟨m', hs, gone, freed⟩ := space₂.uvmfree zero empty
      rw [if_pos rfl, gone]
      rw [stuck rfl, List.length_nil] at few
      exact ⟨_, m', rfl, .failed (fresh₂.freed freed) (by rw [List.length_cons]; omega)⟩
    | true =>
      rw [if_pos rfl] at eq
      obtain ⟨loose', notTable'⟩ := outside fresh₂ frameOut
      have unset : M₂ userPages = none := by
        rw [eq, Function.update_of_ne (Nat.ne_of_lt (Nat.lt_succ_self userPages))]
        rfl
      have set : M₂ (userPages + 1) = some (tramp, pteR ||| pteX ||| pteV) := by
        rw [eq, Function.update_self]
      obtain ⟨done, m₃, gs', ran', few', stuck', M₃, eq', space₃, change₃⟩ :=
        space₂.mapUpper le_rfl (by decide) unset frameLt loose' notTable'
          (show pteR ||| pteW < 1024 by decide) (by decide)
      have fresh₃ := fresh₂.step change₃
      rw [if_neg (by decide), ran']
      dsimp only
      cases done with
      | false =>
        rw [if_neg Bool.false_ne_true] at eq'
        have set' : M₃ (userPages + 1) = some (tramp, pteR ||| pteX ||| pteV) := by rw [eq', set]
        obtain ⟨m₄, unmapped, space₄, change₄⟩ := space₃.unmapUpper (Nat.le_succ userPages) set'
        have empty : ∀ v, userPages ≤ v → Map.unmap M₃ (userPages + 1) 1 v = none := by
          intro v high
          by_cases last : v = userPages + 1
          · exact if_pos (by omega)
          · rw [Map.unmap, if_neg (by omega), eq', eq, Function.update_of_ne last]
            rfl
        obtain ⟨m', hs, gone, freed⟩ := space₄.uvmfree zero empty
        rw [if_pos rfl, unmapped]
        dsimp only
        rw [gone]
        rw [stuck' rfl, List.length_nil] at few'
        refine ⟨_, m', rfl, .failed ((fresh₃.step change₄).freed freed) ?_⟩
        rw [List.length_cons]
        omega
      | true =>
        rw [if_pos rfl] at eq'
        rw [if_neg (by decide)]
        refine ⟨_, m₃, rfl, .table ⟨space₃, ?_, ?_⟩ fresh₃ (by rw [List.length_cons]; omega)⟩
        · rw [eq', Function.update_self]
        · rw [eq', Function.update_of_ne (Nat.ne_of_gt (Nat.lt_succ_self userPages)), set]

/-! ## `proc_freepagetable` -/

/-- The process has no other pages mapped above its memory. -/
theorem ProcSpace.above (space : ProcSpace kend tramp frame m root M n fs) {page : Nat × Nat}
    (high : userPages ≤ v) (mapped : M v = some page) : v = userPages ∨ v = userPages + 1 := by
  have := space.space.rep.user v page mapped
  rw [upper_pages] at this
  omega

theorem ProcSpace.upper_leaf (space : ProcSpace kend tramp frame m root M n fs)
    (either : v = userPages ∨ v = userPages + 1) :
    valid (pteOf m root v) = true ∧ pteFlags (pteOf m root v) ≠ pteV := by
  have mapped : ∃ page, M v = some page := by
    cases either with
    | inl eq => exact ⟨_, eq ▸ space.trapframe⟩
    | inr eq => exact ⟨_, eq ▸ space.trampoline⟩
  obtain ⟨page, mapped⟩ := mapped
  obtain ⟨isValid, -, flags⟩ := space.space.pte mapped
  exact ⟨isValid, flags ▸ space.space.leaf v page mapped⟩

/-- One page above is unmapped, whether it is free or not. -/
theorem unmapOne (tree : Tree kend m root fs) (small : v < userPages + 2)
    (leaf : valid (pteOf m root v) = true ∧ pteFlags (pteOf m root v) ≠ pteV) :
    ∃ m', uvmunmap kend (root * pgsize) (v * pgsize) 1 false m = .ok m' ∧
      Tree kend m' root fs ∧ (∀ w, pteOf m' root w = if w = v then 0 else pteOf m root w) ∧
      (∀ f, IsTable m' root f ↔ IsTable m root f) ∧
      m.bytes.Keeps pgsize (fun f => ¬ IsTable m root f) m'.bytes := by
  have fits : (v + 1) * pgsize ≤ maxva := by
    have top : maxva = (userPages + 2) * pgsize := by decide
    rw [top]
    exact Nat.mul_le_mul_right pgsize small
  have leaves : Leaves kend m root v 1 false := by
    refine ⟨fun u ge lt => ?_, fun no => by cases no⟩
    obtain rfl : u = v := by omega
    exact leaf
  obtain ⟨m', ran, unmapped⟩ := uvmunmap_ok tree fits leaves (fun no => by cases no)
  refine ⟨m', ran, unmapped.tree, fun w => ?_, fun f => ?_,
    unmapped.keeps.mono fun f out => ⟨out, fun no => by cases no⟩⟩
  · rw [unmapped.pte w]
    exact if_congr (by omega) rfl rfl
  · constructor
    · rintro ⟨d, i, le, there⟩
      exact isTable le ((unmapped.table d i le).symm.trans there)
    · rintro ⟨d, i, le, there⟩
      exact isTable le ((unmapped.table d i le).trans there)

/-- The two pages above are unmapped; `freeproc` has freed one of them before. -/
theorem ProcSpace.strip (space : ProcSpace kend tramp frame m root M n fs)
    (free : FreeList kend m' gs) (keeps : m.bytes.Keeps pgsize (IsTable m root) m'.bytes)
    (tables : ∀ f, IsTable m root f → f ∉ gs)
    (user : ∀ v page, v < n → M v = some page → page.1 ∉ gs) :
    ∃ m₁ m₂, uvmunmap kend (root * pgsize) ((userPages + 1) * pgsize) 1 false m' = .ok m₁ ∧
      uvmunmap kend (root * pgsize) (userPages * pgsize) 1 false m₁ = .ok m₂ ∧ ∃ M',
      Space kend m₂ root M' n gs ∧ (∀ v, userPages ≤ v → M' v = none) ∧
      (∀ f, Held m₂ root M' f ↔ Held m root M f) ∧
      m'.bytes.Keeps pgsize (fun f => ¬ IsTable m root f) m₂.bytes := by
  obtain ⟨tree, nodes, ptes⟩ := space.space.rep.tree.congr free keeps tables
  have same : ∀ f, IsTable m' root f ↔ IsTable m root f := by
    intro f
    constructor
    · rintro ⟨d, i, le, there⟩
      exact isTable le ((nodes d i le).symm.trans there)
    · rintro ⟨d, i, le, there⟩
      exact isTable le ((nodes d i le).trans there)
  obtain ⟨m₁, ran₁, tree₁, ptes₁, same₁, keeps₁⟩ := unmapOne tree (Nat.lt_succ_self _)
    ((ptes _).symm ▸ space.upper_leaf (.inr rfl))
  have leaf₁ : valid (pteOf m₁ root userPages) = true ∧
      pteFlags (pteOf m₁ root userPages) ≠ pteV := by
    rw [ptes₁, if_neg (Nat.ne_of_lt (Nat.lt_succ_self userPages)), ptes]
    exact space.upper_leaf (.inl rfl)
  obtain ⟨m₂, ran₂, tree₂, ptes₂, same₂, keeps₂⟩ := unmapOne tree₁ (by omega) leaf₁
  have low : ∀ v, v < userPages → mapOf (pteOf m₂ root) v = M v := by
    intro v lt
    rw [← space.space.rep.map]
    apply mapOf_congr
    rw [ptes₂, if_neg (by omega), ptes₁, if_neg (by omega), ptes]
  have high : ∀ v, userPages ≤ v → mapOf (pteOf m₂ root) v = none := by
    intro v ge
    by_cases first : v = userPages
    · rw [mapOf, ptes₂, if_pos first]
      rfl
    by_cases second : v = userPages + 1
    · rw [mapOf, ptes₂, if_neg first, ptes₁, if_pos second]
      rfl
    · have old : mapOf (pteOf m₂ root) v = M v := by
        rw [← space.space.rep.map]
        apply mapOf_congr
        rw [ptes₂, if_neg first, ptes₁, if_neg second, ptes]
      cases mapped : M v with
      | none => rw [old, mapped]
      | some page => exact ((space.above ge mapped).elim first second).elim
  have tables₂ : ∀ f, IsTable m₂ root f ↔ IsTable m root f := fun f =>
    (same₂ f).trans ((same₁ f).trans (same f))
  have below : ∀ v page, mapOf (pteOf m₂ root) v = some page → v < n ∧ M v = some page := by
    intro v page mapped
    by_cases lt : v < userPages
    · rw [low v lt] at mapped
      exact ⟨(space.space.dense v lt).mp ⟨page, mapped⟩, mapped⟩
    · rw [high v (by omega)] at mapped
      cases mapped
  have rep : Represents kend m₂ root (mapOf (pteOf m₂ root)) gs := by
    refine ⟨tree₂, rfl, fun v isNone => ?_, fun v page mapped => ?_, fun v page mapped => ?_⟩
    · rw [ptes₂] at isNone ⊢
      split at isNone
      next here => rw [if_pos here]
      next other =>
        rw [if_neg other]
        rw [ptes₁] at isNone ⊢
        split at isNone
        next here => rw [if_pos here]
        next other' =>
          rw [if_neg other', ptes]
          rw [ptes] at isNone
          exact space.space.rep.unset v isNone
    · obtain ⟨lt, old⟩ := below v page mapped
      obtain ⟨bound, -, notTable⟩ := space.space.rep.page v page old
      exact ⟨bound, user v page lt old, fun table => notTable ((tables₂ _).mp table)⟩
    · exact space.space.rep.user v page (below v page mapped).2
  refine ⟨m₁, m₂, ran₁, ran₂, _, space.space.ofLow low rep fun v page ge no => ?_, high,
    fun f => ?_, ?_⟩
  · rw [high v ge] at no
    cases no
  · rw [Held, Held, tables₂]
    refine or_congr_right ⟨?_, ?_⟩
    · rintro ⟨v, page, lt, mapped, rfl⟩
      exact ⟨v, page, lt, (below v page mapped).2, rfl⟩
    · rintro ⟨v, page, lt, mapped, rfl⟩
      exact ⟨v, page, lt, by rw [low v lt, mapped], rfl⟩
  · refine (keeps₁.mono fun f out table => out ((same f).mp table)).trans
      (keeps₂.mono fun f out table => out ((same f).mp ((same₁ f).mp table)))

/-- The table and the user memory are given back. -/
theorem ProcSpace.freed (space : ProcSpace kend tramp frame m root M n fs) {sz : Nat}
    (size : pagesOf sz = n) (free : FreeList kend m' gs)
    (keeps : m.bytes.Keeps pgsize (IsTable m root) m'.bytes)
    (tables : ∀ f, IsTable m root f → f ∉ gs)
    (user : ∀ v page, v < n → M v = some page → page.1 ∉ gs) :
    ∃ m'' hs, procFreepagetable kend (root * pgsize) sz m' = .ok m'' ∧
      AllFreed kend m' m'' (Held m root M) gs hs := by
  obtain ⟨m₁, m₂, ran₁, ran₂, M', space₂, upper, held, keeps₂⟩ :=
    space.strip free keeps tables user
  obtain ⟨m'', hs, gone, freed⟩ := space₂.uvmfree size upper
  rw [procFreepagetable, trampoline_page, trapframe_page, ran₁]
  dsimp only [lift, Except.mapError, bind, Except.bind]
  rw [ran₂]
  refine ⟨m'', hs, gone, freed.free, fun f => (freed.pages f).trans (or_congr_right (held f)), ?_⟩
  refine (keeps₂.mono fun f out table => out.2 (.inl table)).trans
    (freed.keeps.mono fun f out => ⟨out.1, fun there => out.2 ((held f).mp there)⟩)

theorem ProcSpace.procFreepagetable (space : ProcSpace kend tramp frame m root M n fs) {sz : Nat}
    (size : pagesOf sz = n) :
    ∃ m' gs, Uvm.procFreepagetable kend (root * pgsize) sz m = .ok m' ∧
      AllFreed kend m m' (Held m root M) fs gs :=
  space.freed size space.space.free (.refl _ _ _) space.space.rep.tree.notFree
    fun v page _ mapped => (space.space.rep.page v page mapped).2.1

end Sistemas.Xv6.Uvm
