import Sistemas.Xv6.Calls
import Sistemas.Xv6.UvmTables

/-! # Making and freeing a process

`freeproc` gives back all pages of a process, and `allocproc` makes one without user memory or
leaves the free pages as they were.
-/

namespace Sistemas.Xv6.Calls

open Vm (Mem pgsize kalloc kfree InRam FreeList kernbase)
open Uvm

variable {l : Layout} {tramp f n sz : Nat} {fs gs hs : List Nat} {m m' : Mem} {s s' : State}
  {t : Table} {T : Fin nproc → Option Table} {p q np : Fin nproc} {rest : Nat → Prop}

/-- No pages. -/
def Nothing : Nat → Prop := fun _ => False

/-! ## Freeing -/

theorem page_ne_zero (linked : kernbase ≤ l.kend) (ram : InRam l.kend f) : f * pgsize ≠ 0 := by
  have low := ram.1
  unfold kernbase at linked
  omega

theorem Table.Ok.frame_out (ok : t.Ok l.kend tramp m fs) : t.frame ∉ fs :=
  (ok.space.rep.page _ _ ok.trapframe).2.1

/-- `freeproc` gives back the trapframe first. -/
theorem Table.Ok.freeAll (ok : t.Ok l.kend tramp m fs) (ram : InRam l.kend t.frame)
    (size : pagesOf sz = t.size) : ∃ m₁ m' gs, kfree l.kend (t.frame * pgsize) m = .ok m₁ ∧
      procFreepagetable l.kend (t.root * pgsize) sz m₁ = .ok m' ∧
      Step l.kend m m' fs gs (t.Pages m) Nothing := by
  obtain ⟨m₁, freed, free, keeps⟩ := Vm.kfree_ok ok.space.free ram (Table.Ok.frame_out ok)
  have notTable : ∀ f, Vm.IsTable m t.root f → f ≠ t.frame := by
    rintro f table rfl
    exact (ok.space.rep.page _ _ ok.trapframe).2.2 table
  have tables : ∀ f, Vm.IsTable m t.root f → f ∉ t.frame :: fs := by
    intro f table mem
    cases mem with
    | head => exact notTable _ table rfl
    | tail _ mem => exact ok.space.rep.tree.notFree f table mem
  have user : ∀ v page, v < t.size → t.map v = some page → page.1 ∉ t.frame :: fs := by
    intro v page lt mapped mem
    rw [List.mem_cons] at mem
    cases mem with
    | inl eq =>
      have := ok.space.once v userPages page _ lt mapped ok.trapframe eq
      have := ok.space.le
      omega
    | inr mem => exact (ok.space.rep.page v page mapped).2.1 mem
  obtain ⟨m', gs, gone, all⟩ := ok.freed size free (keeps.mono notTable) tables user
  refine ⟨m₁, m', gs, freed, gone, all.free, fun f => ?_, fun _ no => no.elim, ?_⟩
  · have pages := all.pages f
    rw [List.mem_cons] at pages
    rw [Nothing, or_false, pages, Table.Pages, or_assoc, or_left_comm]
  · refine (keeps.mono fun f out eq => out.2 (.inl eq)).trans (all.keeps.mono fun f out => ?_)
    refine ⟨fun mem => ?_, fun held => out.2 (.inr held)⟩
    cases mem with
    | head => exact out.2 (.inl rfl)
    | tail _ mem => exact out.1 mem

theorem freeproc_table (linked : kernbase ≤ l.kend) (ok : t.Ok l.kend tramp s.mem fs)
    (ram : InRam l.kend t.frame) (rootRam : InRam l.kend t.root)
    (trapframe : (s.proc p).trapframe = t.frame * pgsize)
    (pagetable : (s.proc p).pagetable = t.root * pgsize)
    (size : pagesOf (s.proc p).sz = t.size) :
    ∃ m' gs, freeproc l p s = .ok ((s.setMem m').setProc p (s.proc p).reset) ∧
      Step l.kend s.mem m' fs gs (t.Pages s.mem) Nothing := by
  obtain ⟨m₁, m', gs, freed, gone, step⟩ := Table.Ok.freeAll ok ram size
  refine ⟨m', gs, ?_, step⟩
  rw [freeproc, freeTrapframe, trapframe, if_pos (page_ne_zero linked ram), freed]
  dsimp only [liftVm, Except.mapError, bind, Except.bind]
  rw [freePagetable, pagetable, if_pos (page_ne_zero linked rootRam), gone]
  rfl

/-- Only the trapframe has been allocated. -/
theorem freeproc_frame (linked : kernbase ≤ l.kend) (free : FreeList l.kend s.mem fs)
    (ram : InRam l.kend f) (new : f ∉ fs) (trapframe : (s.proc p).trapframe = f * pgsize)
    (pagetable : (s.proc p).pagetable = 0) :
    ∃ m', freeproc l p s = .ok ((s.setMem m').setProc p (s.proc p).reset) ∧
      FreeList l.kend m' (f :: fs) ∧ s.mem.bytes.Keeps pgsize (· ≠ f) m'.bytes := by
  obtain ⟨m', freed, free', keeps⟩ := Vm.kfree_ok free ram new
  refine ⟨m', ?_, free', keeps⟩
  rw [freeproc, freeTrapframe, trapframe, if_pos (page_ne_zero linked ram), freed]
  dsimp only [liftVm, Except.mapError, bind, Except.bind]
  rw [freePagetable, pagetable, if_neg (not_not.mpr rfl)]

theorem freeproc_empty (trapframe : (s.proc p).trapframe = 0)
    (pagetable : (s.proc p).pagetable = 0) :
    freeproc l p s = .ok (s.setProc p (s.proc p).reset) := by
  rw [freeproc, freeTrapframe, trapframe, if_neg (not_not.mpr rfl)]
  dsimp only [bind, Except.bind]
  rw [freePagetable, pagetable, if_neg (not_not.mpr rfl)]
  rfl

/-! ## Making -/

/-- What `allocFound` returns. -/
inductive Alloced (l : Layout) (tramp : Nat) (s : State) (p : Fin nproc) (fs : List Nat) :
    Option (Fin nproc) → State → Prop
  | made {t : Table} {m' : Mem} {gs : List Nat} (ok : t.Ok l.kend tramp m' gs) (size : t.size = 0)
      (step : Step l.kend s.mem m' fs gs Nothing (t.Pages m')) (few : fs.length ≤ gs.length + 6) :
      Alloced l tramp s p fs (some p) ((s.setMem m').setProc p { s.proc p with
        trapframe := t.frame * pgsize, pagetable := t.root * pgsize })
  | failed {m' : Mem} {gs : List Nat} (step : Step l.kend s.mem m' fs gs Nothing Nothing)
      (few : fs.length ≤ 6) :
      Alloced l tramp s p fs none ((s.setMem m').setProc p (s.proc p).reset)

theorem allocFound_spec (linked : kernbase ≤ l.kend) (free : FreeList l.kend s.mem fs)
    (trampEq : l.tramp = tramp * pgsize) (trampLt : tramp < 2 ^ 52)
    (trampText : ¬ InRam l.kend tramp) (pagetable : (s.proc p).pagetable = 0) :
    ∃ r s', allocFound l p s = .ok (r, s') ∧ Alloced l tramp s p fs r s' := by
  have pos : 0 < l.kend := by
    unfold kernbase at linked
    omega
  rw [allocFound]
  cases fs with
  | nil =>
    rw [Vm.kalloc_nil free]
    dsimp only
    rw [freeproc_empty (by rw [State.setProc_self]) (by rw [State.setProc_self]; exact pagetable)]
    rw [State.setProc_self, State.setProc_setProc]
    refine ⟨none, _, rfl, ?_⟩
    exact .failed (.refl free fun _ no => no.elim) (Nat.zero_le _)
  | cons f fs =>
    have ram := free.inRam f List.mem_cons_self
    have loose : f ∉ fs := (List.nodup_cons.mp free.nodup).1
    obtain ⟨m₁, found, free₁, keeps₁⟩ := Vm.kalloc_cons pos free
    have trampOut : tramp ∉ fs := fun mem => trampText (free₁.inRam tramp mem)
    obtain ⟨r, m₂, ran, made⟩ := procPagetable_spec linked free₁ trampLt trampOut
      (ram.lt.trans (by decide)) loose
    have kept : s.mem.bytes.Keeps pgsize (· ∉ f :: fs) m₁.bytes := by
      apply keeps₁.mono
      rintro g out rfl
      exact out List.mem_cons_self
    rw [found]
    simp only [State.setProc_mem, State.setMem_mem, State.setProc_self, State.setProc_setMem,
      State.setMem_setMem, State.setProc_setProc]
    rw [trampEq, ran]
    dsimp only [liftUvm, Except.mapError, bind, Except.bind]
    cases made with
    | @table root M gs space fresh few =>
      have ok : Table.Ok l.kend tramp m₂ gs ⟨root, f, 0, M⟩ := space
      rw [if_neg (Option.some_ne_none _), Option.getD_some]
      have step : Step l.kend s.mem m₂ (f :: fs) gs Nothing (Table.Pages m₂ ⟨root, f, 0, M⟩) := by
        refine ⟨space.space.free, fun g => ?_, fun g mine => ?_, ?_⟩
        · rw [Table.Pages, or_left_comm, fresh.pages, Nothing, or_false, List.mem_cons]
        · cases mine with
          | inl eq => exact eq ▸ Table.Ok.frame_out ok
          | inr held => exact space.space.not_free held
        · refine (kept.mono fun g out => out.1).trans (fresh.keeps.mono fun g out mem => ?_)
          exact out.1 (List.mem_cons_of_mem f mem)
      exact ⟨some p, _, rfl, @Alloced.made l tramp s p (f :: fs) ⟨root, f, 0, M⟩ m₂ gs ok rfl step
        (by rw [List.length_cons]; omega)⟩
    | @failed gs undone few =>
      have new : f ∉ gs := fun mem => loose ((undone.pages f).mp mem)
      obtain ⟨m₃, freed, free₃, keeps₃⟩ := @freeproc_frame l f gs ((s.setMem m₂).setProc p
        { s.proc p with trapframe := f * pgsize, pagetable := 0 }) p linked undone.free ram new
        (by rw [State.setProc_self]) (by rw [State.setProc_self])
      rw [if_pos rfl, Option.getD_none, freed]
      simp only [State.setProc_setMem, State.setProc_setProc, State.setProc_self,
        State.setMem_setMem]
      have step : Step l.kend s.mem m₃ (f :: fs) (f :: gs) Nothing Nothing := by
        refine ⟨free₃, fun g => ?_, fun _ no => no.elim, ?_⟩
        · rw [Nothing, or_false, or_false, List.mem_cons, List.mem_cons, undone.pages]
        · refine (kept.mono fun g out => out.1).trans ((undone.keeps.mono fun g out mem => ?_).trans
            (keeps₃.mono fun g out => ?_))
          · exact out.1 (List.mem_cons_of_mem f mem)
          · rintro rfl
            exact out.1 List.mem_cons_self
      exact ⟨none, _, rfl, .failed step (by rw [List.length_cons]; omega)⟩

end Sistemas.Xv6.Calls
