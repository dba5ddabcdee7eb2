import Sistemas.Xv6.ExecBuild

/-! # What `exec` does

The old page table is given back when the new one is complete, and before nothing of the process is
written.
-/

namespace Sistemas.Xv6.Calls.Exec

open Vm
open Vm.Copy (address address_page)
open Uvm

variable {kend tramp frame root other f n k sp argc sz entry : Nat} {fs gs hs : List Nat}
  {m m' m₀ : Mem} {M N : Map} {argv : List Arg}

/-! ## Two tables of one process -/

theorem ProcSpace.uses_cases (space : ProcSpace kend tramp frame m root M n fs)
    (uses : Uses m root M f) : Held m root M f ∨ f = frame ∨ f = tramp := by
  cases uses with
  | inl table => exact .inl (.inl table)
  | inr mapped =>
    obtain ⟨v, page, mapped, rfl⟩ := mapped
    by_cases low : v < userPages
    · exact .inl (.of_map low mapped)
    · cases space.above (by omega) mapped with
      | inl here =>
        rw [here, space.trapframe] at mapped
        cases mapped
        exact .inr (.inl rfl)
      | inr here =>
        rw [here, space.trampoline] at mapped
        cases mapped
        exact .inr (.inr rfl)

theorem ProcSpace.not_held_upper (space : ProcSpace kend tramp frame m root M n fs) {v : Nat}
    {page : Nat × Nat} (high : userPages ≤ v) (mapped : M v = some page) :
    ¬ Held m root M page.1 := by
  rintro (table | ⟨u, page', low, there, same⟩)
  · exact (space.space.rep.page v page mapped).2.2 table
  · have lt := (space.space.dense u low).mp ⟨page', there⟩
    have := space.space.once u v page' page lt there mapped same
    omega

theorem ProcSpace.not_held_frame (space : ProcSpace kend tramp frame m root M n fs) :
    ¬ Held m root M frame :=
  ProcSpace.not_held_upper space le_rfl space.trapframe

theorem ProcSpace.not_held_tramp (space : ProcSpace kend tramp frame m root M n fs) :
    ¬ Held m root M tramp :=
  ProcSpace.not_held_upper space (Nat.le_succ userPages) space.trampoline

theorem ProcSpace.uses_frame (space : ProcSpace kend tramp frame m root M n fs) :
    Uses m root M frame :=
  .inr ⟨_, _, space.trapframe, rfl⟩

theorem ProcSpace.uses_tramp (space : ProcSpace kend tramp frame m root M n fs) :
    Uses m root M tramp :=
  .inr ⟨_, _, space.trampoline, rfl⟩

theorem ProcSpace.unchanged (space : ProcSpace kend tramp frame m root M n fs)
    (free : FreeList kend m' gs) (keeps : m.bytes.Keeps pgsize (Uses m root M) m'.bytes)
    (notFree : ∀ f, Uses m root M f → f ∉ gs) :
    ProcSpace kend tramp frame m' root M n gs ∧ Unchanged m m' root M := by
  obtain ⟨space', unchanged⟩ := space.space.unchanged free keeps notFree
  exact ⟨⟨space', space.trapframe, space.trampoline⟩, unchanged⟩

/-- A page that is not held is written. -/
theorem ProcSpace.writeOther (space : ProcSpace kend tramp frame m root M n fs)
    (out : ¬ Held m root M f) (loose : f ∉ fs) (same : m'.freelist = m.freelist)
    (keeps : m.bytes.Keeps pgsize (· ≠ f) m'.bytes) :
    ProcSpace kend tramp frame m' root M n fs ∧ ∀ g, Held m' root M g ↔ Held m root M g := by
  obtain ⟨space', held, -⟩ := space.space.write loose out same keeps
  exact ⟨⟨space', space.trapframe, space.trampoline⟩, held⟩

/-- The pages of a new table were free, so the old one holds none of them. -/
theorem apart_of_fresh (space : ProcSpace kend tramp frame m₀ root M n fs)
    (space' : ProcSpace kend tramp frame m other N k gs) (fresh : Fresh m₀ m other N fs gs)
    (uses : Uses m other N f) : ¬ Held m₀ root M f := by
  cases ProcSpace.uses_cases space' uses with
  | inl held => exact fun there => space.space.not_free there ((fresh.pages f).mp (.inr held))
  | inr upper =>
    cases upper with
    | inl eq => exact eq ▸ ProcSpace.not_held_frame space
    | inr eq => exact eq ▸ ProcSpace.not_held_tramp space

/-! ## What is read stays -/

theorem Reads.page {va len : Nat} {bytes : Bytes} (reads : Reads m M va len bytes)
    (space : ProcSpace kend tramp frame m root M n fs)
    (keeps : m.bytes.Keeps pgsize (UserPage M n) m'.bytes) : Reads m' M va len bytes := by
  intro i lt
  obtain ⟨a, isSome, eq⟩ := reads i lt
  obtain ⟨page, mapped, isUser, same⟩ := address_page isSome
  refine ⟨a, isSome, (keeps a ?_).trans eq⟩
  exact ⟨_, page, ProcSpace.user_low space mapped isUser, mapped, same.symm⟩

theorem Stacked.page {top : Nat} {r : Option (Nat × Nat)} (stacked : Stacked M m top argv r)
    (space : ProcSpace kend tramp frame m root M n fs)
    (keeps : m.bytes.Keeps pgsize (UserPage M n) m'.bytes) : Stacked M m' top argv r := by
  cases stacked with
  | full tooLong => exact .full tooLong
  | done fits placed below array =>
    obtain ⟨-, placed'⟩ := placed.keep fun va len bytes _ reads => Reads.page reads space keeps
    exact .done fits placed' below (Reads.page array space keeps)

/-! ## The registers -/

theorem keeps_setRegisters (m : Mem) (frame : Nat) (image : Image) :
    m.bytes.Keeps pgsize (· ≠ frame) (setRegisters (frame * pgsize) image m).bytes := by
  have first := keeps_store_word m (f := frame) (i := 15) (by decide) image.sp
  have second := keeps_store_word (m.store (frame * pgsize + 120) image.sp) (f := frame) (i := 3)
    (by decide) image.entry
  have third := keeps_store_word ((m.store (frame * pgsize + 120) image.sp).store
    (frame * pgsize + 24) image.entry) (f := frame) (i := 6) (by decide) image.sp
  exact first.trans (second.trans third)

theorem load_store (m : Mem) (a v : Nat) (lt : v < 2 ^ 64) : (m.store a v).load a = v := by
  rw [Mem.load, Mem.store, Bytes.load_store]
  exact Nat.mod_eq_of_lt lt

theorem load_store_other (m : Mem) {a b : Nat} (v : Nat) (apart : a + 8 ≤ b ∨ b + 8 ≤ a) :
    (m.store a v).load b = m.load b := by
  rw [Mem.load, Mem.store, Bytes.load_store_disjoint apart]
  rfl

/-- `a1` and `sp` are the stack pointer, `epc` is the entry. -/
structure Registers (m : Mem) (trapframe sp entry : Nat) : Prop where
  a1 : m.load (trapframe + 120) = sp
  sp : m.load (trapframe + 48) = sp
  epc : m.load (trapframe + 24) = entry

theorem registers_set (m : Mem) (trapframe : Nat) (image : Image) (sp : image.sp < 2 ^ 64)
    (entry : image.entry < 2 ^ 64) :
    Registers (setRegisters trapframe image m) trapframe image.sp image.entry where
  a1 := by
    rw [setRegisters, load_store_other _ _ (by omega), load_store_other _ _ (by omega),
      load_store _ _ _ sp]
  sp := by rw [setRegisters, load_store _ _ _ sp]
  epc := by rw [setRegisters, load_store_other _ _ (by omega), load_store _ _ _ entry]

theorem Registers.keep {trapframe : Nat} (registers : Registers m (trapframe * pgsize) sp entry)
    (keeps : m.bytes.Keeps pgsize (· = trapframe) m'.bytes) :
    Registers m' (trapframe * pgsize) sp entry where
  a1 := by
    rw [← registers.a1]
    exact keeps.load rfl (by decide)
  sp := by
    rw [← registers.sp]
    exact keeps.load rfl (by decide)
  epc := by
    rw [← registers.epc]
    exact keeps.load rfl (by decide)

/-! ## The call -/

/-- The memory of the program that now runs. -/
structure Loaded (kend tramp frame : Nat) (m m' : Mem) (root : Nat) (M : Map) (fs gs : List Nat)
    (other : Nat) (N : Map) (k sp argc entry : Nat) (argv : List Arg) : Prop where
  space : ProcSpace kend tramp frame m' other N (k + 1) gs
  pages : ∀ f, f ∈ gs ∨ Held m' other N f ↔ f ∈ fs ∨ Held m root M f
  keeps : m.bytes.Keeps pgsize (fun f => f ∉ fs ∧ ¬ Held m root M f ∧ f ≠ frame) m'.bytes
  pos : 0 < k
  stack : StackPage N k
  guard : ∃ page, N (k - 1) = some page ∧ page.2.testBit 4 = false
  stacked : Stacked N m' ((k + 1) * pgsize) argv (some (sp, argc))
  registers : Registers m' (frame * pgsize) sp entry

/-- What `exec` returns, with the process and the memory then. -/
inductive Executed (kend tramp frame : Nat) (path : List UInt8) (p : Proc) (m m' : Mem) (root : Nat)
    (M : Map) (fs : List Nat) (argv : List Arg) : Option Nat → Proc → Prop
  | failed {gs : List Nat} (undone : Undone kend m m' fs gs) :
      Executed kend tramp frame path p m m' root M fs argv none p
  | done {other k sp argc entry : Nat} {N : Map} {gs : List Nat}
      (loaded : Loaded kend tramp frame m m' root M fs gs other N k sp argc entry argv) :
      Executed kend tramp frame path p m m' root M fs argv (some argc) { p with
        name := Calls.safestrcpy (lastLoop path path) 16, pagetable := other * pgsize,
        sz := (k + 1) * pgsize }

/-- The new image takes the place of the old one. -/
theorem commit (image : Image) (old : ProcSpace kend tramp frame m root M n fs)
    (size : pagesOf sz = n) (building : Building kend tramp frame m m' other N
      ((k + 1) * pgsize) fs gs)
    (stacked : Stacked N m' ((k + 1) * pgsize) argv (some (sp, argc))) (stack : StackPage N k)
    (pos : 0 < k) (guard : ∃ page, N (k - 1) = some page ∧ page.2.testBit 4 = false)
    (spEq : image.sp = sp) (entryEq : image.entry = entry) (spLt : sp < 2 ^ 64)
    (entryLt : entry < 2 ^ 64) :
    ∃ m'' hs, procFreepagetable kend (root * pgsize) sz
        (setRegisters (frame * pgsize) image m') = .ok m'' ∧
      Loaded kend tramp frame m m'' root M fs hs other N k sp argc entry argv := by
  subst spEq entryEq
  have same := pagesOf_page (k + 1)
  have new := building.space
  rw [same] at new
  have fresh := building.fresh
  have gone : ∀ f, f ∈ gs → f ∈ fs := fun f mem => (fresh.pages f).mp (.inl mem)
  have outside : ∀ f, Uses m root M f → f ∉ fs := fun f uses => old.space.not_free_uses uses
  obtain ⟨old₁, unchanged₁⟩ := ProcSpace.unchanged old new.space.free
    (fresh.keeps.mono outside) fun f uses mem => outside f uses (gone f mem)
  have frameOut : frame ∉ gs := fun mem =>
    outside frame (ProcSpace.uses_frame old) (gone frame mem)
  have wrote := keeps_setRegisters m' frame image
  have registers := registers_set m' (frame * pgsize) image spLt entryLt
  have list : (setRegisters (frame * pgsize) image m').freelist = m'.freelist := rfl
  generalize setRegisters (frame * pgsize) image m' = m₂ at wrote registers list
  obtain ⟨old₂, held₂⟩ :=
    ProcSpace.writeOther old₁ (ProcSpace.not_held_frame old₁) frameOut list wrote
  obtain ⟨new₂, held₂'⟩ :=
    ProcSpace.writeOther new (ProcSpace.not_held_frame new) frameOut list wrote
  obtain ⟨m'', hs, ran, freed⟩ := old₂.procFreepagetable size
  have oldHeld : ∀ f, Held m₂ root M f ↔ Held m root M f := fun f =>
    (held₂ f).trans (unchanged₁.held f)
  have apart : ∀ f, Uses m₂ other N f → f ∉ gs ∧ ¬ Held m₂ root M f := by
    intro f uses
    refine ⟨new₂.space.not_free_uses uses, fun held => ?_⟩
    have uses' : Uses m' other N f := by
      cases ProcSpace.uses_cases new₂ uses with
      | inl there => exact ((held₂' f).mp there).uses
      | inr upper =>
        cases upper with
        | inl eq => exact eq ▸ ProcSpace.uses_frame new
        | inr eq => exact eq ▸ ProcSpace.uses_tramp new
    exact apart_of_fresh old new fresh uses' ((oldHeld f).mp held)
  obtain ⟨new₃, unchanged₃⟩ := ProcSpace.unchanged new₂ freed.free
    (freed.keeps.mono apart) fun f uses mem =>
      not_or.mpr (apart f uses) ((freed.pages f).mp mem)
  have newHeld : ∀ f, Held m'' other N f ↔ Held m' other N f := fun f =>
    (unchanged₃.held f).trans (held₂' f)
  have user : ∀ f, UserPage N (k + 1) f → f ≠ frame ∧ Uses m₂ other N f := by
    intro f page
    have held := ProcSpace.held_user new page
    refine ⟨?_, ((held₂' f).mpr held).uses⟩
    rintro rfl
    exact ProcSpace.not_held_frame new held
  refine ⟨m'', hs, ran, ⟨new₃, fun f => ?_, ?_, pos, stack, guard, ?_, ?_⟩⟩
  · rw [freed.pages, newHeld, oldHeld, or_right_comm, fresh.pages]
  · refine (fresh.keeps.mono fun f out => out.1).trans
      ((wrote.mono fun f out => out.2.2).trans (freed.keeps.mono fun f out => ?_))
    exact ⟨fun mem => out.1 (gone f mem), fun held => out.2.1 ((oldHeld f).mp held)⟩
  · apply Stacked.page stacked new
    refine (wrote.mono fun f page => (user f page).1).trans ?_
    exact freed.keeps.mono fun f page => apart f (user f page).2
  · apply registers.keep
    apply freed.keeps.mono
    rintro f rfl
    exact ⟨frameOut, ProcSpace.not_held_frame old₂⟩

theorem exec_spec {l : Layout} {p : Proc} (space : ProcSpace l.kend tramp frame m root M n fs)
    (trampEq : l.tramp = tramp * pgsize) (trapframeEq : p.trapframe = frame * pgsize)
    (pagetableEq : p.pagetable = root * pgsize) (size : pagesOf p.sz = n) (path : List UInt8)
    (ip : Option Inode) (few : argv.length < maxarg) :
    ∃ r p' m', exec l path ip argv p m = .ok (r, p', m') ∧
      Executed l.kend tramp frame path p m m' root M fs argv r p' := by
  cases ip with
  | none => exact ⟨none, p, m, rfl, .failed ⟨space.space.free, fun _ => .rfl, .refl _ _ _⟩⟩
  | some ip =>
    have outside : ∀ f, Uses m root M f → f ∉ fs := fun f uses => space.space.not_free_uses uses
    obtain ⟨r, m₁, built, prepared⟩ := build_spec space.space.linked space.space.free trampEq
      (space.space.rep.page _ _ space.trampoline).1
      (outside _ (ProcSpace.uses_tramp space))
      (space.space.rep.page _ _ space.trapframe).1
      (outside _ (ProcSpace.uses_frame space)) ip few
    rw [← trapframeEq] at built
    rw [exec, built]
    dsimp only [bind, Except.bind]
    cases prepared with
    | none undone => exact ⟨none, p, m₁, rfl, .failed undone⟩
    | @image other k sp argc N gs building stacked stack pos guard =>
      have low := building.space.space.lt_userPages
      rw [pagesOf_page] at low
      have limit : userPages = 67108862 := by decide
      have spLt : sp < 2 ^ 64 := by
        cases stacked
        unfold pgsize
        omega
      obtain ⟨m', hs, ran, loaded⟩ := commit
        ⟨other * pgsize, (k + 1) * pgsize, sp, argc, (Elfhdr.read ip.bytes).entry⟩ space size building stacked stack pos guard rfl rfl spLt
        (Bytes.load_lt.trans_eq (by decide))
      dsimp only
      rw [← trapframeEq, ← pagetableEq] at ran
      rw [ran]
      exact ⟨some argc, _, m', rfl, .done loaded⟩

end Sistemas.Xv6.Calls.Exec
