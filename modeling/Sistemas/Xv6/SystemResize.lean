import Sistemas.Xv6.SystemPages

/-! # What `sbrk` leaves behind

A process that grows and shrinks again has the memory that it had, but a page that its page table
got in between stays there.
-/

namespace Sistemas.Xv6.Calls.System

open Vm
open Uvm

variable {l : Layout} {tramp f n v newsz : Nat} {fs gs : List Nat} {m : Mem} {s s' : State}
  {T : Fin nproc → Option Table} {t : Table} {p q : Fin nproc} {boot : Nat → Prop} {k r : Int}

/-! ## One call -/

theorem sbrk_grows (sound : Sound l tramp boot s [] T fs) (here : T p = some t)
    (running : (s.proc p).state = .RUNNABLE) (pos : 0 < n) (fits : (s.proc p).sz + n ≤ physical)
    (enough : 3 * (pagesOf ((s.proc p).sz + n) - pagesOf (s.proc p).sz) < fs.length) :
    ∃ r s₁ T₁ gs, Calls.sysSbrk l p n s = .ok (r, s₁) ∧ Outcome l tramp boot T s p s₁ T₁ gs ∧
      Sbrked l tramp s p t fs n r (some ((s.proc p).sz + n)) s₁ := by
  have sum : addInt (s.proc p).sz n = (s.proc p).sz + n := by
    apply addInt_natCast
    unfold physical at fits
    omega
  obtain ⟨r, s₁, T₁, gs, newsz, ran, outcome, sbrked⟩ := sysSbrk_spec sound here running n
  obtain ⟨grants, eq, all⟩ := sbrked.sizes
  obtain rfl : grants = true := all ⟨by omega, sum ▸ enough⟩
  have size : uvmallocSize true (s.proc p).sz ((s.proc p).sz + n) = (s.proc p).sz + n := by
    rw [uvmallocSize, if_neg (by omega)]
    exact if_pos ⟨rfl, fits⟩
  have grown : newsz = some ((s.proc p).sz + n) := by
    rw [eq, Vm.growproc, if_pos (by omega), sum, size, if_neg (by omega)]
  exact ⟨r, s₁, T₁, gs, ran, outcome, grown ▸ sbrked⟩

theorem sbrk_shrinks (sound : Sound l tramp boot s [] T fs) (here : T p = some t)
    (running : (s.proc p).state = .RUNNABLE) (pos : 0 < n) (fits : n ≤ (s.proc p).sz) :
    ∃ r s₁ T₁ gs, Calls.sysSbrk l p (-n) s = .ok (r, s₁) ∧ Outcome l tramp boot T s p s₁ T₁ gs ∧
      Sbrked l tramp s p t fs (-n) r (some ((s.proc p).sz - n)) s₁ := by
  have low : (s.proc p).sz ≤ physical := by
    have ok := sound.ok here
    have size := (sound.holds here).size
    exact size_le (size ▸ ok.space)
  have sum : addInt (s.proc p).sz (-n) = (s.proc p).sz - n := by
    unfold physical at low
    unfold addInt
    omega
  obtain ⟨r, s₁, T₁, gs, newsz, ran, outcome, sbrked⟩ := sysSbrk_spec sound here running (-n)
  obtain ⟨grants, eq, -⟩ := sbrked.sizes
  have shrunk : newsz = some ((s.proc p).sz - n) := by
    rw [eq, Vm.growproc, if_neg (by omega), if_pos (by omega), sum, uvmdeallocSize,
      if_neg (by omega)]
  exact ⟨r, s₁, T₁, gs, ran, outcome, shrunk ▸ sbrked⟩

/-! ## The pages afterwards -/

/-- What the process still has: its pages below the new size, and all pages of its table. -/
theorem Sbrked.owns (sound : Sound l tramp boot s [] T fs) (here : T p = some t)
    (sbrked : Sbrked l tramp s p t fs k r (some newsz) s') {o : Owner} (mine : o.process = some p)
    (below : ∀ v, o = .user p v → v < pagesOf newsz) (own : Owns l m s o f) : Owns l m s' o f := by
  have holds := sound.holds here
  have state : (s'.proc p).state = (s.proc p).state := by rw [sbrked.proc]
  have pagetable : (s'.proc p).pagetable = (s.proc p).pagetable := by rw [sbrked.proc]
  have root : (s.proc p).pagetable / pgsize = t.root := by
    rw [holds.pagetable, Nat.mul_div_cancel _ (by decide)]
  have grew := sbrked.grew
  cases grew with
  | @done newsz M' gs space change old new =>
    rcases Owner.process_cases mine with rfl | ⟨d, i, rfl⟩ | ⟨v, rfl⟩
    · exact ⟨by rw [state]; exact own.1, by rw [sbrked.proc]; exact own.2⟩
    · obtain ⟨live, le, there⟩ := own
      refine ⟨by rw [state]; exact live, le, ?_⟩
      rw [pagetable, root]
      exact change.table d i f le (root ▸ there)
    · obtain ⟨live, low, page, mapped, rfl⟩ := own
      refine ⟨by rw [state]; exact live, low, page, ?_, rfl⟩
      rw [mapping_eq sound here] at mapped
      have inside : v < t.size := ((sound.ok here).space.dense v low).mp ⟨page, mapped⟩
      rw [mapping, pagetable, root, space.space.rep.map,
        old v (holds.size ▸ inside) (below v rfl), mapped]

/-- A page that is new has a page of the table. -/
theorem Sbrked.table (sound : Sound l tramp boot s [] T fs) (here : T p = some t)
    (sbrked : Sbrked l tramp s p t fs k r (some newsz) s') (lt : v < pagesOf newsz) :
    ∃ g, tableAt s'.mem ((s'.proc p).pagetable / pgsize) 2 (v / 512) = some g := by
  have root : (s'.proc p).pagetable / pgsize = t.root := by
    rw [sbrked.proc]
    dsimp only
    rw [(sound.holds here).pagetable, Nat.mul_div_cancel _ (by decide)]
  have grew := sbrked.grew
  cases grew with
  | done space change old new =>
    obtain ⟨page, mapped⟩ := space.space.mapped lt
    rw [root]
    cases there : tableAt s'.mem t.root 2 (v / 512) with
    | some g => exact ⟨g, rfl⟩
    | none =>
      have isValid := (space.space.pte mapped).1
      rw [pteOf_missing there] at isValid
      cases isValid

theorem Sound.processPages_finite (sound : Sound l tramp boot s [] T fs) (p : Fin nproc) :
    (processPages l m s p).Finite := by
  refine (ram_finite l).subset fun f own => ?_
  have mine := (processPages_iff sound).mp own
  cases here : T p with
  | none =>
    rw [here] at mine
    exact mine.elim
  | some t =>
    rw [here] at mine
    exact sound.ram here mine

/-! ## Growing and shrinking again -/

/-- The page that the table gets for page `v` is not given back. -/
theorem regrown_fewer (reach : Reachable l m s) (running : (s.proc p).state = .RUNNABLE)
    (pos : 0 < n) (fits : (s.proc p).sz + n ≤ physical)
    (enough : ∀ fs, FreeList l.kend s.mem fs →
      3 * (pagesOf ((s.proc p).sz + n) - pagesOf (s.proc p).sz) < fs.length)
    (new : v < pagesOf ((s.proc p).sz + n))
    (missing : tableAt s.mem ((s.proc p).pagetable / pgsize) 2 (v / 512) = none) :
    ∃ s', Transition.exec (step l) s [(p, .sbrk n), (p, .sbrk (-n))] = some s' ∧
      s'.proc = s.proc ∧ s'.file = s.file ∧
      {f | Owns l m s' .free f}.ncard < {f | Owns l m s .free f}.ncard := by
  obtain ⟨T, fs, sound⟩ := reach.between
  obtain ⟨t, here, -⟩ := sound.live (p := p) (by rw [running]; decide)
  obtain ⟨r₁, s₁, T₁, gs, ran₁, outcome₁, sbrked₁⟩ :=
    sbrk_grows sound here running pos fits (enough fs sound.spaces.free)
  have proc₁ : s₁.proc p = { s.proc p with sz := (s.proc p).sz + n } := sbrked₁.proc
  have running₁ : (s₁.proc p).state = .RUNNABLE := by rw [proc₁, running]
  have sound₁ := outcome₁.sound
  obtain ⟨t₁, here₁, -⟩ := sound₁.live (p := p) (by rw [running₁]; decide)
  obtain ⟨r₂, s₂, T₂, hs, ran₂, outcome₂, sbrked₂⟩ :=
    sbrk_shrinks sound₁ here₁ running₁ pos (by rw [proc₁]; exact Nat.le_add_left _ _)
  have back : (s₁.proc p).sz - n = (s.proc p).sz := by
    rw [proc₁]
    exact Nat.add_sub_cancel _ _
  rw [back] at sbrked₂
  have sound₂ := outcome₂.sound
  have stepped₁ : step l s (p, .sbrk n) = some s₁ := by
    rw [step, if_pos running, call, ran₁]
    rfl
  have stepped₂ : step l s₁ (p, .sbrk (-n)) = some s₂ := by
    rw [step, if_pos running₁, call, ran₂]
    rfl
  have run : Transition.exec (step l) s [(p, .sbrk n), (p, .sbrk (-n))] = some s₂ := by
    rw [Transition.exec, stepped₁, Option.bind_some, Transition.exec, stepped₂]
    rfl
  have proc₂ : s₂.proc = s.proc := by
    funext q
    by_cases same : q = p
    · rw [same, sbrked₂.proc, proc₁]
      rfl
    · rw [sbrked₂.others q same, sbrked₁.others q same]
  have file : s₂.file = s.file := sbrked₂.file.trans sbrked₁.file
  refine ⟨s₂, run, proc₂, file, ?_⟩
  -- the other processes have the pages that they had
  have others : ∀ q, q ≠ p → processPages l m s₂ q = processPages l m s q := by
    intro q ne
    by_cases unused : (s.proc q).state = .UNUSED
    · rw [processPages_unused unused, processPages_unused (by rw [proc₂, unused])]
    · have stays₁ : (s₁.proc q).state ≠ .UNUSED := by rwa [sbrked₁.others q ne]
      have stays₂ : (s₂.proc q).state ≠ .UNUSED := by rwa [proc₂]
      rw [step_processPages ⟨T₁, gs, sound₁⟩ stepped₂ stays₁ stays₂ fun eq => absurd eq.symm ne,
        step_processPages ⟨T, fs, sound⟩ stepped₁ unused stays₁ fun eq => absurd eq.symm ne]
  -- and the process has these and one more
  have size : pagesOf (s.proc p).sz = t.size := (sound.holds here).size
  have kept : ∀ o f, o.process = some p → Owns l m s o f → Owns l m s₂ o f := by
    intro o f mine own
    have below : ∀ v, o = .user p v → v < pagesOf (s.proc p).sz := by
      rintro v rfl
      obtain ⟨-, low, page, mapped, -⟩ := own
      rw [mapping_eq sound here] at mapped
      exact size ▸ ((sound.ok here).space.dense v low).mp ⟨page, mapped⟩
    have grown := pagesOf_mono (Nat.le_add_right (s.proc p).sz n)
    exact Sbrked.owns sound₁ here₁ sbrked₂ mine below
      (Sbrked.owns sound here sbrked₁ mine (fun v eq => (below v eq).trans_le grown) own)
  obtain ⟨g, there⟩ := Sbrked.table sound here sbrked₁ new
  have notUnused : ∀ {s' : State}, (s'.proc p).state = .RUNNABLE → (s'.proc p).state ≠ .UNUSED := by
    intro s' runs
    rw [runs]
    decide
  have table₁ : Owns l m s₁ (.table p 2 (v / 512)) g := ⟨notUnused running₁, le_rfl, there⟩
  have table₂ : Owns l m s₂ (.table p 2 (v / 512)) g :=
    Sbrked.owns sound₁ here₁ sbrked₂ rfl (fun _ no => by cases no) table₁
  have more : processPages l m s p ⊂ processPages l m s₂ p := by
    refine ⟨?_, fun all => ?_⟩
    · rintro f (own | ⟨d, i, own⟩ | ⟨v, own⟩)
      · exact .inl (kept _ f rfl own)
      · exact .inr (.inl ⟨d, i, kept _ f rfl own⟩)
      · exact .inr (.inr ⟨v, kept _ f rfl own⟩)
    · -- its place in the table is the one that was missing
      have only : ∀ o, o.process = some p → Owns l m s o g → False := by
        intro o mine own
        obtain rfl : o = .table p 2 (v / 512) :=
          once_process sound₂ mine rfl (kept o g mine own) table₂
        rw [Owns, missing] at own
        cases own.2.2
      rcases all (.inr (.inl ⟨2, v / 512, table₂⟩)) with own | ⟨d, i, own⟩ | ⟨v, own⟩
      · exact only _ rfl own
      · exact only _ rfl own
      · exact only _ rfl own
  have sum : ∑ q, (processPages l m s q).ncard < ∑ q, (processPages l m s₂ q).ncard := by
    refine Finset.sum_lt_sum (fun q _ => ?_) ⟨p, Finset.mem_univ p,
      Set.ncard_lt_ncard more (Sound.processPages_finite sound₂ p)⟩
    by_cases same : q = p
    · exact same ▸ Set.ncard_le_ncard more.1 (Sound.processPages_finite sound₂ p)
    · rw [others q same]
  have pipes : {f | IsPipe s₂ f} = {f | IsPipe s f} := Set.ext fun f => isPipe_congr file
  have total := free_taken reach run
  rw [takenPages, takenPages, pipes] at total
  omega

/-! A memory of two thousand free pages, each linked to the next one -/

def linked (top : Nat) : Bytes := fun a =>
  if a / pgsize + 1 < top then Bytes.digit ((a / pgsize + 1) * pgsize) (a % pgsize) else 0

theorem linked_load {top f : Nat} (low : top < 2 ^ 52) :
    (linked top).load 8 (f * pgsize) = if f + 1 < top then (f + 1) * pgsize else 0 := by
  have digits : ∀ i < 8, linked top (f * pgsize + i) =
      Bytes.digit (if f + 1 < top then (f + 1) * pgsize else 0) i := by
    intro i lt
    have inside : i < pgsize := lt.trans (by decide)
    have offset : (f * pgsize + i) % pgsize = i := by
      rw [Nat.mul_comm, Nat.mul_add_mod, Nat.mod_eq_of_lt inside]
    rw [linked, Bytes.page_of inside, offset]
    split
    · rfl
    · exact Bytes.digit_zero_left.symm
  rw [Bytes.load_digits digits, Nat.mod_eq_of_lt]
  unfold pgsize
  split <;> omega

theorem linked_chain {top : Nat} (low : top < 2 ^ 52) (n : Nat) (le : n ≤ top) :
    Chain (linked top) (if n = 0 then 0 else (top - n) * pgsize) (List.range' (top - n) n) := by
  induction n with
  | zero => exact rfl
  | succ n ih =>
    have next : top - (n + 1) + 1 = top - n := by omega
    rw [if_neg (Nat.succ_ne_zero n), List.range'_succ, next]
    refine ⟨rfl, ?_⟩
    rw [linked_load low, next]
    have rest := ih (by omega)
    by_cases last : n = 0
    · rw [if_pos last] at rest
      rwa [if_neg (by omega)]
    · rw [if_neg last] at rest
      rwa [if_pos (by omega)]

def manyPages : Mem where
  bytes := linked 0x807d1
  freelist := 0x80001 * pgsize

theorem manyPages_free : FreeList onePageKernel.kend manyPages (List.range' 0x80001 2000) where
  chain := linked_chain (by decide) 2000 (by decide)
  nodup := List.nodup_range'
  inRam f mem := by
    have bounds := List.mem_range'_1.mp mem
    show 0x80001000 ≤ f * pgsize ∧ f * pgsize < phystop
    unfold phystop kernbase pgsize
    omega

/-- The first process asks for two megabytes and gives them back. -/
theorem regrown_fewer_pages : ∃ (s s' : State), Reachable onePageKernel manyPages s ∧
    Transition.exec (step onePageKernel) s
      [(firstSlot, .sbrk 0x200000), (firstSlot, .sbrk (-0x200000))] = some s' ∧
    s'.proc = s.proc ∧ s'.file = s.file ∧
    {f | Owns onePageKernel manyPages s' .free f}.ncard <
      {f | Owns onePageKernel manyPages s .free f}.ncard := by
  have ready : ((userinit onePageKernel ⟨0, ninode_pos⟩
      (System.boot manyPages)).toOption.bind id).any (fun s =>
        (s.proc firstSlot).state = .RUNNABLE ∧ (s.proc firstSlot).sz = pgsize ∧
        tableAt s.mem ((s.proc firstSlot).pagetable / pgsize) 2 1 = none) = true := by
    decide +kernel
  obtain ⟨r, init, -, spec⟩ := userinit_spec manyPages_free ⟨0, ninode_pos⟩
  rw [init] at ready
  cases r with
  | none => cases ready
  | some s =>
    obtain ⟨running, size, missing⟩ := of_decide_eq_true ready
    have reach : Reachable onePageKernel manyPages s :=
      ⟨_, _, s, [], manyPages_free, init, rfl⟩
    obtain ⟨T, gs, sound, few⟩ := spec s rfl
    have pages : pagesOf (pgsize + 0x200000) = 513 ∧ pagesOf pgsize = 1 := by decide
    have enough : ∀ fs, FreeList onePageKernel.kend s.mem fs →
        3 * (pagesOf ((s.proc firstSlot).sz + 0x200000) - pagesOf (s.proc firstSlot).sz) <
          fs.length := by
      intro fs free
      rw [List.length_range'] at few
      rw [free.unique (by decide) sound.spaces.free, size, pages.1, pages.2]
      omega
    obtain ⟨s', run, proc, file, fewer⟩ := @regrown_fewer onePageKernel 0x200000 512 _ s firstSlot
      reach running (by decide) (by rw [size]; decide) enough (by rw [size, pages.1]; decide) missing
    exact ⟨s, s', reach, run, proc, file, fewer⟩

end Sistemas.Xv6.Calls.System
