import Sistemas.Xv6.Exec
import Sistemas.Xv6.UvmCopy

/-! # Loading a program

The new page table is made of pages that were free, and whatever the file says, the size is that of
the pages that are mapped: `Stage` holds after each program header, also if loading stops there.
-/

namespace Sistemas.Xv6.Calls.Exec

open Vm
open Vm.Copy (address walkaddr walkaddr_some address_of)
open Uvm

variable {kend tramp frame root f v n sz newsz perm : Nat} {fs gs hs : List Nat} {m m' m₀ : Mem}
  {M : Map}

theorem readi_le (ip : Inode) (off n : Nat) : readi ip off n ≤ n := by
  have le := Nat.mod_le (off + n) (2 ^ 32)
  rw [readi]
  split
  · exact Nat.zero_le n
  split <;> omega

/-! ## The memory of the new process -/

/-- The pages that the process may use. -/
def AllUser (M : Map) (n : Nat) : Prop :=
  ∀ v page, v < n → M v = some page → page.2.testBit 4 = true

/-- The pages above are not for the process. -/
theorem ProcSpace.user_low (space : ProcSpace kend tramp frame m root M n fs) {page : Nat × Nat}
    (mapped : M v = some page) (isUser : page.2.testBit 4 = true) : v < n := by
  by_cases low : v < userPages
  · exact (space.space.dense v low).mp ⟨page, mapped⟩
  · cases space.above (by omega) mapped with
    | inl here =>
      rw [here, space.trapframe] at mapped
      cases mapped
      have bit : (pteR ||| pteW ||| pteV).testBit 4 = false := rfl
      exact absurd (bit.symm.trans isUser) Bool.false_ne_true
    | inr here =>
      rw [here, space.trampoline] at mapped
      cases mapped
      have bit : (pteR ||| pteX ||| pteV).testBit 4 = false := rfl
      exact absurd (bit.symm.trans isUser) Bool.false_ne_true

theorem ProcSpace.copy (space : ProcSpace kend tramp frame m root M n fs) :
    Copy.Space kend m root M fs where
  table := space.space.rep
  linked := space.space.linked
  ram v page mapped isUser :=
    space.space.ram v page (ProcSpace.user_low space mapped isUser) mapped
  once v v' page page' mapped mapped' isUser _ same :=
    space.space.once v v' page page' (ProcSpace.user_low space mapped isUser) mapped mapped' same

/-- A page of the user memory. -/
def UserPage (M : Map) (n f : Nat) : Prop := ∃ v page, v < n ∧ M v = some page ∧ page.1 = f

theorem ProcSpace.held_user (space : ProcSpace kend tramp frame m root M n fs)
    (page : UserPage M n f) : Held m root M f := by
  obtain ⟨v, page, lt, mapped, rfl⟩ := page
  exact .of_map (lt.trans_le space.space.le) mapped

theorem ProcSpace.not_user (space : ProcSpace kend tramp frame m root M n fs) :
    (∀ f, f ∈ fs → ¬ UserPage M n f) ∧ ∀ f, IsTable m root f → ¬ UserPage M n f := by
  constructor
  · intro f mem page
    exact space.space.not_free (ProcSpace.held_user space page) mem
  · rintro f table ⟨v, page, -, mapped, rfl⟩
    exact (space.space.rep.page v page mapped).2.2 table

/-- Bytes of the user memory are written. -/
theorem ProcSpace.write (space : ProcSpace kend tramp frame m root M n fs)
    (free : FreeList kend m' fs)
    (keeps : m.bytes.Keeps pgsize (fun f => ¬ UserPage M n f) m'.bytes) :
    ProcSpace kend tramp frame m' root M n fs ∧ ∀ f, Held m' root M f ↔ Held m root M f := by
  obtain ⟨space', tables, -⟩ := space.space.elsewhere free
    (keeps.mono (ProcSpace.not_user space).2) space.space.rep.tree.notFree fun v page mapped => (space.space.rep.page v page mapped).2.1
  exact ⟨⟨space', space.trapframe, space.trampoline⟩, fun f => or_congr_left (tables f)⟩

theorem Fresh.write (fresh : Fresh m₀ m root M fs gs)
    (held : ∀ f, Held m' root M f ↔ Held m root M f)
    (keeps : m.bytes.Keeps pgsize (fun f => ¬ Held m root M f) m'.bytes) :
    Fresh m₀ m' root M fs gs where
  pages f := by rw [held, fresh.pages]
  keeps := by
    apply fresh.keeps.trans
    apply keeps.mono
    exact fun f out there => out ((fresh.pages f).mp (.inr there))

/-! ## The pages of a segment -/

theorem loadLoop_spec (ip : Inode) (offset j : Nat)
    (space : ProcSpace kend tramp frame m root M n gs) (user : AllUser M n)
    (fits : v * pgsize + sz ≤ n * pgsize) :
    ∃ loaded m', loadLoop (root * pgsize) (v * pgsize) ip offset sz (j * pgsize) m =
        .ok (loaded, m') ∧ FreeList kend m' gs ∧
      m.bytes.Keeps pgsize (fun f => ¬ UserPage M n f) m'.bytes := by
  induction left : pagesOf sz - j generalizing j m with
  | zero =>
    refine ⟨true, m, ?_, space.space.free, .refl _ _ _⟩
    rw [loadLoop, dif_neg]
    rw [lt_page_iff]
    omega
  | succ left ih =>
    have more : j * pgsize < sz := lt_page_iff.mpr (by omega)
    have small := space.space.small
    have inside : v + j < n := by
      unfold pgsize at *
      omega
    obtain ⟨page, mapped⟩ := space.space.mapped inside
    have whole : (v + j) * pgsize / pgsize = v + j := Nat.mul_div_cancel _ (by decide)
    have isSome := @address_of ((v + j) * pgsize) M page (by rwa [whole])
      (user _ page inside mapped)
    obtain ⟨pa, found, nonzero, start⟩ := walkaddr_some (ProcSpace.copy space) isSome
    have down : pgRoundDown ((v + j) * pgsize) = (v + j) * pgsize := by rw [pgRoundDown, whole]
    rw [down] at found start
    rw [Nat.sub_self, Nat.mul_mod_left, Nat.add_zero, Nat.add_zero] at start
    subst start
    have address : (v * pgsize + j * pgsize) % 2 ^ 64 = (v + j) * pgsize := by
      rw [← Nat.add_mul]
      apply Nat.mod_eq_of_lt
      unfold pgsize
      omega
    generalize count : (if sz - j * pgsize < pgsize then sz - j * pgsize else pgsize) = k
    have le : k ≤ pgsize := by
      rw [← count]
      split <;> omega
    have bound := readi_le ip ((offset + j * pgsize) % 2 ^ 32) k
    have wrote : m.bytes.Keeps pgsize (fun f => ¬ UserPage M n f)
        (readTo ip (page.1 * pgsize) ((offset + j * pgsize) % 2 ^ 32) k m).bytes := by
      have one := @Bytes.keeps_splice m.bytes
        (fun i => ip.bytes ((offset + j * pgsize) % 2 ^ 32 + i)) pgsize page.1 (page.1 * pgsize)
        (readi ip ((offset + j * pgsize) % 2 ^ 32) k) le_rfl (by rw [Nat.succ_mul]; omega)
      apply one.mono
      rintro f out rfl
      exact out ⟨v + j, page, inside, mapped, rfl⟩
    generalize stored : readTo ip (page.1 * pgsize) ((offset + j * pgsize) % 2 ^ 32) k m = m₁ at wrote
    have kept : m₁.freelist = m.freelist := by
      rw [← stored]
      rfl
    have free : FreeList kend m₁ gs :=
      space.space.free.congr kept (wrote.mono (ProcSpace.not_user space).1)
    rw [loadLoop, dif_pos more, address, found]
    dsimp only [lift, Except.mapError, bind, Except.bind]
    rw [if_neg nonzero, count, stored]
    split
    · exact ⟨false, m₁, rfl, free, wrote⟩
    · have notWrapped : ¬ 2 ^ 32 ≤ j * pgsize + pgsize := by
        unfold pgsize at *
        omega
      obtain ⟨space', -⟩ := ProcSpace.write space free wrote
      obtain ⟨loaded, m', ran, free', keeps⟩ := ih (j + 1) space' (by omega)
      rw [if_neg notWrapped, ← Nat.succ_mul]
      exact ⟨loaded, m', ran, free', wrote.trans keeps⟩

/-! ## The program headers -/

/-- A new page table with `sz` bytes of user memory. -/
structure Building (kend tramp frame : Nat) (m₀ m : Mem) (root : Nat) (M : Map) (sz : Nat)
    (fs gs : List Nat) : Prop where
  space : ProcSpace kend tramp frame m root M (pagesOf sz) gs
  fresh : Fresh m₀ m root M fs gs

/-- What there is between two program headers. -/
def Stage (kend tramp frame : Nat) (m₀ : Mem) (root : Nat) (fs : List Nat) (sz : Nat)
    (m : Mem) : Prop :=
  ∃ M gs, Building kend tramp frame m₀ m root M sz fs gs ∧ AllUser M (pagesOf sz)

theorem Building.write (building : Building kend tramp frame m₀ m root M sz fs gs)
    (free : FreeList kend m' gs)
    (keeps : m.bytes.Keeps pgsize (fun f => ¬ UserPage M (pagesOf sz) f) m'.bytes) :
    Building kend tramp frame m₀ m' root M sz fs gs := by
  obtain ⟨space, held⟩ := ProcSpace.write building.space free keeps
  refine ⟨space, Fresh.write building.fresh held (keeps.mono fun f out page => out ?_)⟩
  exact ProcSpace.held_user building.space page

/-- More user memory does not change what is above. -/
theorem ProcSpace.grown {M' : Map} (space : ProcSpace kend tramp frame m root M n fs) {k : Nat}
    (space' : Space kend m' root M' k gs) (new : Space.Grown m' M M' n k perm) :
    ProcSpace kend tramp frame m' root M' k gs := by
  have le := space'.le
  refine ⟨space', ?_, ?_⟩
  · rw [new.old _ (by omega), space.trapframe]
  · rw [new.old _ (by omega), space.trampoline]

theorem AllUser.grown {M' : Map} {k : Nat} (user : AllUser M n)
    (new : Space.Grown m' M M' n k (pteR ||| pteU ||| perm)) : AllUser M' k := by
  intro v page lt mapped
  by_cases old : v < n
  · rw [new.old v (by omega)] at mapped
    exact user v page old mapped
  · obtain ⟨f, here, -⟩ := new.new v (by omega) lt
    rw [here] at mapped
    cases mapped
    have bit : (pteR ||| pteU).testBit 4 = true := rfl
    rw [Nat.testBit_or, Nat.testBit_or, bit, Bool.true_or, Bool.true_or]

theorem Stage.uvmalloc (stage : Stage kend tramp frame m₀ root fs sz m)
    (flags : pteR ||| pteU ||| perm < 1024) :
    ∃ r m', Uvm.uvmalloc kend (root * pgsize) sz newsz perm m = .ok (r, m') ∧
      (r = 0 → Stage kend tramp frame m₀ root fs sz m') ∧
      (r ≠ 0 → Stage kend tramp frame m₀ root fs r m' ∧ newsz ≤ r) := by
  by_cases less : newsz < sz
  · refine ⟨sz, m, ?_, fun _ => stage, fun _ => ⟨stage, Nat.le_of_lt less⟩⟩
    rw [Uvm.uvmalloc, if_pos less]
  · obtain ⟨M, gs, building, user⟩ := stage
    obtain ⟨r, m', ran, allocated, -⟩ := building.space.space.uvmalloc_spec rfl
      (Nat.not_lt.mp less) flags
    refine ⟨r, m', ran, ?_⟩
    cases allocated with
    | @grown hs M' space change new =>
      have top : max (pagesOf sz) (pagesOf newsz) = pagesOf newsz :=
        Nat.max_eq_right (pagesOf_mono (Nat.not_lt.mp less))
      rw [top] at space new
      have grown : Stage kend tramp frame m₀ root fs newsz m' :=
        ⟨M', hs, ⟨ProcSpace.grown building.space space new, building.fresh.step change⟩,
          user.grown new⟩
      refine ⟨fun zero => ?_, fun _ => ⟨grown, le_rfl⟩⟩
      obtain rfl : sz = newsz := by omega
      exact grown
    | failed space change =>
      refine ⟨fun _ => ?_, fun no => absurd rfl no⟩
      exact ⟨M, _, ⟨⟨space, building.space.trapframe, building.space.trampoline⟩,
        building.fresh.step change⟩, user⟩

theorem flags2perm_lt (flags : Nat) : pteR ||| pteU ||| flags2perm flags < 1024 := by
  rw [flags2perm]
  split <;> split <;> decide

theorem segment_spec (stage : Stage kend tramp frame m₀ root fs sz m) (ip : Inode)
    (ph : Proghdr) (memsz : ph.memsz < 2 ^ 64) :
    ∃ loaded sz' m', segment kend (root * pgsize) ip ph sz m = .ok (loaded, sz', m') ∧
      Stage kend tramp frame m₀ root fs sz' m' := by
  rw [segment]
  generalize top : (ph.vaddr + ph.memsz) % 2 ^ 64 = newsz
  by_cases load : ph.type ≠ elfProgLoad
  · exact ⟨true, sz, m, if_pos load, stage⟩
  by_cases less : ph.memsz < ph.filesz
  · exact ⟨false, sz, m, by rw [if_neg load, if_pos less], stage⟩
  by_cases wraps : newsz < ph.vaddr
  · exact ⟨false, sz, m, by rw [if_neg load, if_neg less, if_pos wraps], stage⟩
  by_cases odd : ph.vaddr % pgsize ≠ 0
  · exact ⟨false, sz, m, by rw [if_neg load, if_neg less, if_neg wraps, if_pos odd], stage⟩
  obtain ⟨r, m₁, ran, failed, grown⟩ := stage.uvmalloc (flags2perm_lt ph.flags)
  rw [if_neg load, if_neg less, if_neg wraps, if_neg odd, ran]
  dsimp only [bind, Except.bind]
  by_cases zero : r = 0
  · rw [if_pos zero]
    exact ⟨false, sz, m₁, rfl, failed zero⟩
  · obtain ⟨stage₁, le⟩ := grown zero
    obtain ⟨M, gs, building, user⟩ := stage₁
    have page : ph.vaddr = ph.vaddr / pgsize * pgsize := by
      unfold pgsize at *
      omega
    have fits : ph.vaddr / pgsize * pgsize + ph.filesz % 2 ^ 32 ≤ pagesOf r * pgsize := by
      have cover := @le_pagesOf r
      have small := Nat.mod_le ph.filesz (2 ^ 32)
      have whole : ph.vaddr + ph.memsz = newsz := by omega
      rw [← page]
      omega
    obtain ⟨loaded, m', ran', free, keeps⟩ := loadLoop_spec ip (ph.off % 2 ^ 32) 0
      building.space user fits
    rw [Nat.zero_mul, ← page] at ran'
    rw [if_neg zero, loadseg, ran']
    exact ⟨loaded, r, m', rfl, M, gs, building.write free keeps, user⟩

theorem segLoop_spec (k off : Nat) (stage : Stage kend tramp frame m₀ root fs sz m) (ip : Inode) :
    ∃ loaded sz' m', segLoop kend (root * pgsize) ip k off sz m = .ok (loaded, sz', m') ∧
      Stage kend tramp frame m₀ root fs sz' m' := by
  induction k generalizing off sz m with
  | zero => exact ⟨true, sz, m, rfl, stage⟩
  | succ k ih =>
    rw [segLoop]
    split
    · exact ⟨false, sz, m, rfl, stage⟩
    · have memsz : (Proghdr.read ip.bytes off).memsz < 256 ^ 8 := Bytes.load_lt
      obtain ⟨loaded, sz₁, m₁, ran, stage₁⟩ :=
        segment_spec stage ip (Proghdr.read ip.bytes off) memsz
      rw [ran]
      cases loaded with
      | false => exact ⟨false, sz₁, m₁, rfl, stage₁⟩
      | true => exact ih _ stage₁

end Sistemas.Xv6.Calls.Exec
