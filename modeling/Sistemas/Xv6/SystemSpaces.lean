import Sistemas.Xv6.SystemRuns

/-! # The address spaces of all processes

In every state that is reached, the page table of a process maps its memory up to `p->sz`, its
trapframe and the trampoline, and nothing else.
-/

namespace Sistemas.Xv6.Calls.System

open Vm
open Uvm

variable {l : Layout} {tramp : Nat} {fs gs : List Nat} {m m' : Mem} {s s' : State}
  {T T' : Fin nproc → Option Table} {t : Table} {p q : Fin nproc} {boot : Nat → Prop}
  {loose : List (Fin Sysfile.nfile)}

/-- What the page table of a process maps. -/
def mapping (s : State) (p : Fin nproc) : Map :=
  mapOf (pteOf s.mem ((s.proc p).pagetable / pgsize))

theorem mapping_eq (sound : Sound l tramp boot s loose T fs) (here : T p = some t) :
    mapping s p = t.map := by
  rw [mapping, (sound.holds here).pagetable, Nat.mul_div_cancel _ (by decide)]
  exact (sound.ok here).space.rep.map

/-- The pages below `PGROUNDUP(p->sz)`, the trapframe and the trampoline. -/
structure Shaped (l : Layout) (s : State) (p : Fin nproc) : Prop where
  user : ∀ v, v < trapframe / pgsize →
    ((∃ page, mapping s p v = some page) ↔ v < pgRoundUp (s.proc p).sz / pgsize)
  frame : mapping s p (trapframe / pgsize) =
    some ((s.proc p).trapframe / pgsize, pteR ||| pteW ||| pteV)
  tramp : mapping s p (trampoline / pgsize) = some (l.tramp / pgsize, pteR ||| pteX ||| pteV)
  above : ∀ v, trampoline / pgsize < v → mapping s p v = none

theorem pgRoundUp_pages {sz : Nat} (small : pagesOf sz ≤ 32768) :
    pgRoundUp sz / pgsize = pagesOf sz := by
  have le := @le_pagesOf sz
  rw [pgRoundUp_eq, Nat.mul_div_cancel _ (by decide)]
  unfold pgsize at *
  omega

theorem Sound.size_eq (sound : Sound l tramp boot s loose T fs) (here : T p = some t) :
    pgRoundUp (s.proc p).sz / pgsize = t.size := by
  have size := (sound.holds here).size
  rw [pgRoundUp_pages, size]
  rw [size]
  exact (sound.ok here).space.small

theorem Sound.shaped (sound : Sound l tramp boot s loose T fs)
    (live : (s.proc p).state ≠ .UNUSED) : Shaped l s p := by
  obtain ⟨t, here, holds⟩ := sound.live live
  have ok := sound.ok here
  have same := mapping_eq sound here
  have top : trampoline / pgsize = userPages + 1 := by decide
  have size := Sound.size_eq sound here
  refine ⟨fun v low => ?_, ?_, ?_, fun v high => ?_⟩
  · rw [same, size]
    exact ok.space.dense v low
  · rw [same, holds.trapframe, Nat.mul_div_cancel _ (by decide)]
    exact ok.trapframe
  · rw [same, sound.trampEq, Nat.mul_div_cancel _ (by decide), top]
    exact ok.trampoline
  · rw [same]
    cases mapped : t.map v with
    | none => rfl
    | some page =>
      rw [top] at high
      have := ok.above (by omega) mapped
      omega

/-- A call to `sbrk` that fails changes nothing of the process. -/
theorem sbrk_fails (sound : Sound l tramp boot s [] T fs)
    (running : (s.proc p).state = .RUNNABLE) (n : Int) :
    ∃ r s', Calls.sysSbrk l p n s = .ok (r, s') ∧
      (r = -1 → (s'.proc p).sz = (s.proc p).sz ∧ mapping s' p = mapping s p) := by
  obtain ⟨t, here, -⟩ := sound.live (p := p) (by rw [running]; decide)
  obtain ⟨r, s', T', gs, newsz, ran, outcome, sbrked⟩ := sysSbrk_spec sound here running n
  refine ⟨r, s', ran, fun failed => ?_⟩
  have grew := sbrked.grew
  cases grew with
  | @done newsz =>
    rw [sbrked.result, if_neg (Option.some_ne_none _)] at failed
    omega
  | @failed gs space change =>
    have pagetable : (s'.proc p).pagetable = (s.proc p).pagetable := by rw [sbrked.proc]
    refine ⟨by rw [sbrked.proc]; rfl, ?_⟩
    rw [mapping_eq sound here, mapping, pagetable, (sound.holds here).pagetable,
      Nat.mul_div_cancel _ (by decide)]
    exact space.space.rep.map

theorem address_spaces_shaped (reach : Reachable l m s) :
    (∀ p, (s.proc p).state ≠ .UNUSED → Shaped l s p) ∧
    (∀ p, (s.proc p).state = .RUNNABLE → ∀ n, ∃ r s', Calls.sysSbrk l p n s = .ok (r, s') ∧
      (r = -1 → (s'.proc p).sz = (s.proc p).sz ∧ mapping s' p = mapping s p)) ∧
    ∀ p, (s.proc p).state = .RUNNABLE → ∀ c e, call l p s c = .error e → e = .initExiting := by
  obtain ⟨T, fs, sound⟩ := reach.between
  exact ⟨fun p live => Sound.shaped sound live, fun p running n => sbrk_fails sound running n,
    fun p running c e panics => (call_panic sound running c panics).1⟩

theorem address_spaces_shaped_first : Shaped onePageKernel firstState firstSlot :=
  (address_spaces_shaped firstState_reachable).1 firstSlot (by rw [firstState_running]; decide)

end Sistemas.Xv6.Calls.System
