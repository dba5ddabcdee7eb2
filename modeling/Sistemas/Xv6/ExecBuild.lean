import Sistemas.Xv6.ExecStack

/-! # The new image

`build` ends in an image, or in nothing; then the pages that were free are free again.
-/

namespace Sistemas.Xv6.Calls.Exec

open Vm
open Uvm

variable {kend tramp frame root f v n k sz entry flags : Nat} {fs gs hs : List Nat} {m m' m₀ : Mem}
  {M : Map} {argv : List Arg}

/-! ## The guard page -/

theorem clear_cases {page : Nat × Nat} (mapped : M.clear v k = some page) :
    ∃ old, M k = some old ∧ page.1 = old.1 ∧ (k ≠ v → page = old) ∧
      (k = v → page.2 = clearUser old.2) := by
  rw [Map.clear] at mapped
  by_cases here : k = v
  · rw [here, Function.update_self] at mapped
    obtain ⟨old, eq, rfl⟩ := Option.map_eq_some_iff.mp mapped
    exact ⟨old, here ▸ eq, rfl, fun ne => absurd here ne, fun _ => rfl⟩
  · rw [Function.update_of_ne here] at mapped
    exact ⟨page, mapped, rfl, fun _ => rfl, fun eq => absurd eq here⟩

theorem clear_some {page : Nat × Nat} (mapped : M k = some page) :
    ∃ page', M.clear v k = some page' ∧ page'.1 = page.1 := by
  rw [Map.clear]
  by_cases here : k = v
  · subst here
    rw [Function.update_self, mapped]
    exact ⟨_, rfl, rfl⟩
  · rw [Function.update_of_ne here]
    exact ⟨page, mapped, rfl⟩

theorem clear_space (space : Space kend m root M n fs) (mapped : M v = some (f, flags))
    (leaf : clearUser flags ≠ pteV) (rep : Represents kend m' root (M.clear v) fs) :
    Space kend m' root (M.clear v) n fs := by
  refine ⟨space.linked, rep, ?_, space.le, ?_, ?_, ?_⟩
  · intro k low
    rw [← space.dense k low]
    constructor
    · rintro ⟨page, here⟩
      obtain ⟨old, there, -⟩ := clear_cases here
      exact ⟨old, there⟩
    · rintro ⟨page, here⟩
      obtain ⟨page', there, -⟩ := clear_some (v := v) here
      exact ⟨page', there⟩
  · intro k page lt here
    obtain ⟨old, there, eq, -⟩ := clear_cases here
    exact eq ▸ space.ram k old lt there
  · intro k k' page page' lt here here' same
    obtain ⟨old, there, eq, -⟩ := clear_cases here
    obtain ⟨old', there', eq', -⟩ := clear_cases here'
    exact space.once k k' old old' lt there there' (by rw [← eq, ← eq', same])
  · intro k page here
    obtain ⟨old, there, -, other, same⟩ := clear_cases here
    by_cases eq : k = v
    · rw [eq, mapped] at there
      cases there
      rw [same eq]
      exact leaf
    · rw [other eq]
      exact space.leaf k old there

/-- One page is made inaccessible. -/
theorem Building.clear (building : Building kend tramp frame m₀ m root M sz fs gs)
    (lt : v < pagesOf sz) (mapped : M v = some (f, flags)) (leaf : clearUser flags ≠ pteV) :
    ∃ m', uvmclear (root * pgsize) (v * pgsize) m = .ok m' ∧
      Building kend tramp frame m₀ m' root (M.clear v) sz fs gs := by
  have space := building.space.space
  obtain ⟨pte, -, -, walked, -⟩ := space.walk lt
  have ran : uvmclear (root * pgsize) (v * pgsize) m =
      .ok (m.store pte (clearUser (m.load pte))) := by
    rw [uvmclear, walked]
    rfl
  generalize m.store pte (clearUser (m.load pte)) = m' at ran
  have edited := uvmclear_spec space.rep.tree ran
  have space' := clear_space space mapped leaf (space.rep.uvmclear ran)
  have tables : ∀ g, IsTable m' root g ↔ IsTable m root g := by
    intro g
    constructor
    · intro table
      exact (edited.new g table).resolve_right (edited.tree.notFree g table)
    · rintro ⟨d, i, le, there⟩
      exact isTable le (edited.table d i g le there)
  have pages : ∀ g, g ∈ gs ∨ Held m' root (M.clear v) g ↔ g ∈ gs ∨ Held m root M g := by
    intro g
    rw [Held, Held, tables]
    refine or_congr_right (or_congr_right ⟨?_, ?_⟩)
    · rintro ⟨k, page, low, here, rfl⟩
      obtain ⟨old, there, eq, -⟩ := clear_cases here
      exact ⟨k, old, low, there, eq.symm⟩
    · rintro ⟨k, page, low, here, rfl⟩
      obtain ⟨page', there, eq⟩ := clear_some (v := v) here
      exact ⟨k, page', low, there, eq⟩
  have change : Change m m' root M (M.clear v) gs gs := by
    refine ⟨pages, edited.keeps.mono fun g out => ⟨out.1, fun table => out.2 (.inl table)⟩, ?_,
      edited.table⟩
    intro k page low here _
    apply edited.keeps.mono
    rintro g rfl
    exact (space.rep.page k page here).2
  have low := lt.trans space.lt_userPages
  refine ⟨m', ran, ⟨space', ?_, ?_⟩, building.fresh.step change⟩
  · rw [Map.clear, Function.update_of_ne (by omega), building.space.trapframe]
  · rw [Map.clear, Function.update_of_ne (by omega), building.space.trampoline]

/-! ## Both pages -/

/-- `bad:` -/
theorem Building.bad (building : Building kend tramp frame m₀ m root M sz fs gs) :
    ∃ m' hs, Exec.bad kend (root * pgsize) sz m = .ok (none, m') ∧ Undone kend m₀ m' fs hs := by
  obtain ⟨m', hs, gone, freed⟩ := building.space.procFreepagetable rfl
  refine ⟨m', hs, ?_, building.fresh.freed freed⟩
  rw [Exec.bad, gone]
  rfl

/-- What becomes of the new page table. -/
inductive Prepared (kend tramp frame : Nat) (m₀ m' : Mem) (fs : List Nat) (entry : Nat)
    (argv : List Arg) : Option Image → Prop
  | image {root k sp argc : Nat} {M : Map} {gs : List Nat}
      (building : Building kend tramp frame m₀ m' root M ((k + 1) * pgsize) fs gs)
      (stacked : Stacked M m' ((k + 1) * pgsize) argv (some (sp, argc)))
      (stack : StackPage M k) (pos : 0 < k)
      (guard : ∃ page, M (k - 1) = some page ∧ page.2.testBit 4 = false) :
      Prepared kend tramp frame m₀ m' fs entry argv
        (some ⟨root * pgsize, (k + 1) * pgsize, sp, argc, entry⟩)
  | none {gs : List Nat} (undone : Undone kend m₀ m' fs gs) :
      Prepared kend tramp frame m₀ m' fs entry argv none

/-- The stack page and the guard page are the last two. -/
theorem Building.guard (size : pagesOf sz = n + 1 + 1)
    (building : Building kend tramp frame m₀ m root M sz fs gs)
    (new : ∀ v, n ≤ v → v < n + 1 + 1 → ∃ f, M v = some (f, pteR ||| pteU ||| pteW ||| pteV)) :
    ∃ m' M', uvmclear (root * pgsize) (n * pgsize) m = .ok m' ∧
      Building kend tramp frame m₀ m' root M' sz fs gs ∧ StackPage M' (n + 1) ∧
      ∃ page, M' n = some page ∧ page.2.testBit 4 = false := by
  have cleared : (clearUser (pteR ||| pteU ||| pteW ||| pteV)).testBit 4 = false := by decide
  obtain ⟨f, mapped⟩ := new n le_rfl (by omega)
  obtain ⟨g, next⟩ := new (n + 1) (by omega) (by omega)
  obtain ⟨m', ran, building'⟩ := building.clear (by omega) mapped (by decide)
  refine ⟨m', M.clear n, ran, building', ⟨g, ?_⟩,
    (f, clearUser (pteR ||| pteU ||| pteW ||| pteV)), ?_, cleared⟩
  · rw [Map.clear, Function.update_of_ne (by omega), next]
  · rw [Map.clear, Function.update_self, mapped]
    rfl

theorem buildStack_spec (stage : Stage kend tramp frame m₀ root fs sz m)
    (few : argv.length < maxarg) :
    ∃ r m', buildStack kend (root * pgsize) entry sz argv m = .ok (r, m') ∧
      Prepared kend tramp frame m₀ m' fs entry argv r := by
  obtain ⟨M, gs, building, -⟩ := stage
  have small := building.space.space.small
  have cover := @le_pagesOf sz
  have up : pgRoundUp sz = pagesOf sz * pgsize := pgRoundUp_eq (by unfold pgsize at *; omega)
  have same := pagesOf_page (pagesOf sz)
  have top : (pagesOf sz * pgsize + 2 * pgsize) % 2 ^ 64 = (pagesOf sz + 1 + 1) * pgsize := by
    unfold pgsize
    omega
  have rounded : Building kend tramp frame m₀ m root M (pagesOf sz * pgsize) fs gs :=
    ⟨by rw [same]; exact building.space, building.fresh⟩
  have space₀ := building.space
  generalize pagesOf sz = n at *
  have flags : pteR ||| pteU ||| pteW < 1024 := by decide
  obtain ⟨r, m₁, ran, allocated, -⟩ := space₀.space.uvmalloc_spec same
    (Nat.mul_le_mul_right pgsize (by omega : n ≤ n + 1 + 1)) flags
  rw [buildStack, up]
  dsimp only
  rw [top, ran]
  dsimp only [bind, Except.bind]
  cases allocated with
  | failed space change =>
    have kept : Building kend tramp frame m₀ m₁ root M (n * pgsize) fs _ :=
      ⟨by rw [same]; exact ⟨space, space₀.trapframe, space₀.trampoline⟩,
        building.fresh.step change⟩
    obtain ⟨m', hs, gone, undone⟩ := kept.bad
    rw [if_pos rfl, gone]
    exact ⟨none, m', rfl, .none undone⟩
  | @grown hs M' space change new =>
    have more : max n (pagesOf ((n + 1 + 1) * pgsize)) = n + 1 + 1 := by
      rw [pagesOf_page]
      omega
    rw [more] at space new
    have grown : Building kend tramp frame m₀ m₁ root M' ((n + 1 + 1) * pgsize) fs hs :=
      ⟨by rw [pagesOf_page]; exact ProcSpace.grown space₀ space new,
        building.fresh.step change⟩
    have low := space.small
    obtain ⟨m₂, M₂, cleared, building₂, stack, guard⟩ := grown.guard (pagesOf_page _) fun v ge lt => by
      obtain ⟨f, here, -⟩ := new.new v ge lt
      exact ⟨f, here⟩
    have bottom : minus ((n + 1 + 1) * pgsize) (2 * pgsize) = n * pgsize := by
      unfold minus pgsize
      omega
    have base : minus ((n + 1 + 1) * pgsize) pgsize = (n + 1) * pgsize := by
      unfold minus pgsize
      omega
    obtain ⟨pushed, m', ran', building', stacked⟩ := pushArgs_spec building₂ stack
      (Nat.succ_pos n) (by have := space.lt_userPages; omega) few
    rw [if_neg (by unfold pgsize; omega), bottom, cleared]
    dsimp only [lift, Except.mapError]
    rw [base, ran']
    cases pushed with
    | none =>
      obtain ⟨m'', hs', gone, undone⟩ := building'.bad
      dsimp only
      rw [gone]
      exact ⟨none, m'', rfl, .none undone⟩
    | some both => exact ⟨_, m', rfl, .image building' stacked stack (Nat.succ_pos n) guard⟩

/-! ## From the inode on -/

theorem build_spec {l : Layout} (linked : kernbase ≤ l.kend) (free : FreeList l.kend m fs)
    (tramp : l.tramp = n * pgsize) (trampLt : n < 2 ^ 52) (trampOut : n ∉ fs)
    (frameLt : frame < 2 ^ 52) (frameOut : frame ∉ fs) (ip : Inode)
    (few : argv.length < maxarg) :
    ∃ r m', build l (frame * pgsize) ip argv m = .ok (r, m') ∧
      Prepared l.kend n frame m m' fs (Elfhdr.read ip.bytes).entry argv r := by
  have unchanged : Undone l.kend m m fs fs := ⟨free, fun _ => .rfl, .refl _ _ _⟩
  rw [build]
  split
  · exact ⟨none, m, rfl, .none unchanged⟩
  dsimp only
  split
  · exact ⟨none, m, rfl, .none unchanged⟩
  obtain ⟨r, m₁, ran, made⟩ := procPagetable_spec linked free trampLt trampOut frameLt frameOut
  rw [tramp, ran]
  dsimp only [bind, Except.bind]
  cases made with
  | failed undone => exact ⟨none, m₁, rfl, .none undone⟩
  | @table root M gs space fresh =>
    have stage : Stage l.kend n frame m root fs 0 m₁ :=
      ⟨M, gs, ⟨space, fresh⟩, fun v _ no => absurd no (Nat.not_lt_zero v)⟩
    obtain ⟨loaded, sz, m₂, ran', stage'⟩ := segLoop_spec (Elfhdr.read ip.bytes).phnum
      ((Elfhdr.read ip.bytes).phoff % 2 ^ 32) stage ip
    dsimp only
    rw [ran']
    cases loaded with
    | false =>
      obtain ⟨M', gs', building, -⟩ := stage'
      obtain ⟨m', hs, gone, undone⟩ := building.bad
      dsimp only
      rw [if_pos rfl, gone]
      exact ⟨none, m', rfl, .none undone⟩
    | true =>
      obtain ⟨r, m', built, prepared⟩ :=
        @buildStack_spec l.kend n frame root sz (Elfhdr.read ip.bytes).entry fs m₂ m argv stage' few
      exact ⟨r, m', built, prepared⟩

end Sistemas.Xv6.Calls.Exec
