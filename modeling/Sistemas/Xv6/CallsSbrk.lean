import Sistemas.Xv6.CallsUser
import Sistemas.Xv6.Growproc

/-! # `sbrk`

The memory grows by pages that are zero or it stays as it is, and it shrinks down to any size; what
becomes of `p->sz` is what `Vm.growproc` says of sizes alone.
-/

namespace Sistemas.Xv6.Calls

open Vm
open Uvm
open Sysfile (nfile)

variable {l : Layout} {tramp frame root n sz newsz : Nat} {fs gs : List Nat} {m m' : Mem} {M : Map}
  {s s' : State} {T : Fin nproc → Option Table} {p : Fin nproc} {boot : Nat → Prop} {k : Int}

/-! ## `growproc` -/

/-- Page `v` is new, and zero. -/
def Zero (m' : Mem) (M' : Map) (v : Nat) : Prop :=
  ∃ f, M' v = some (f, pteR ||| pteU ||| pteW ||| pteV) ∧ ∀ i < pgsize, m'.bytes (f * pgsize + i) = 0

/-- What `growproc` returns; `none` is -1. -/
inductive Grew (kend tramp frame : Nat) (m m' : Mem) (root : Nat) (M : Map) (sz : Nat)
    (fs : List Nat) : Option Nat → Prop
  | failed {gs : List Nat} (space : ProcSpace kend tramp frame m' root M (pagesOf sz) gs)
      (change : Change m m' root M M fs gs) : Grew kend tramp frame m m' root M sz fs none
  | done {newsz : Nat} {M' : Map} {gs : List Nat}
      (space : ProcSpace kend tramp frame m' root M' (pagesOf newsz) gs)
      (change : Change m m' root M M' fs gs)
      (old : ∀ v, v < pagesOf sz → v < pagesOf newsz → M' v = M v)
      (new : ∀ v, pagesOf sz ≤ v → v < pagesOf newsz → Zero m' M' v) :
      Grew kend tramp frame m m' root M sz fs (some newsz)

theorem ProcSpace.unmapUser (space : ProcSpace kend tramp frame m root M n fs) {v : Nat}
    (le : v ≤ n) (space' : Space kend m' root (M.unmap v (n - v)) v gs) :
    ProcSpace kend tramp frame m' root (M.unmap v (n - v)) v gs := by
  have top := space.space.le
  refine ⟨space', ?_, ?_⟩
  · rw [Map.unmap, if_neg (by omega), space.trapframe]
  · rw [Map.unmap, if_neg (by omega), space.trampoline]

/-- A size that is mapped is not larger than the memory. -/
theorem size_le (space : Space kend m root M (pagesOf sz) fs) : sz ≤ physical := by
  have small := space.small
  have le := @le_pagesOf sz
  unfold physical
  unfold pgsize at le
  omega

theorem growproc_same (space : ProcSpace kend tramp frame m root M (pagesOf sz) fs) :
    Grew kend tramp frame m m root M sz fs (some sz) :=
  .done space (.refl _ _ _ _) (fun _ _ _ => rfl) fun _ ge lt => absurd lt (Nat.not_lt.mpr ge)

/-- Whether there are enough free pages for `n` more bytes; a page may need two for the table. -/
def Enough (fs : List Nat) (sz : Nat) (n : Int) : Prop :=
  0 < addInt sz n ∧ 3 * (pagesOf (addInt sz n) - pagesOf sz) < fs.length

theorem growproc_spec (space : ProcSpace kend tramp frame m root M (pagesOf sz) fs) (k : Int) :
    ∃ r m', Uvm.growproc kend (root * pgsize) sz k m = .ok (r, m') ∧
      Grew kend tramp frame m m' root M sz fs r ∧
      ∃ grants, r = Vm.growproc grants k sz ∧ (Enough fs sz k → grants = true) := by
  rw [Uvm.growproc]
  by_cases up : k > 0
  · have model : ∀ grants, Vm.growproc grants k sz =
        if uvmallocSize grants sz (addInt sz k) = 0 then none
        else some (uvmallocSize grants sz (addInt sz k)) := fun grants => by
      rw [Vm.growproc, if_pos up]
    rw [if_pos up]
    by_cases less : addInt sz k < sz
    · rw [uvmalloc, if_pos less]
      refine ⟨some sz, m, ?_, growproc_same space, true, ?_, fun _ => rfl⟩
      · dsimp only [bind, Except.bind]
        rw [if_neg (by omega)]
      · rw [model, uvmallocSize, if_pos less, if_neg (by omega)]
    · obtain ⟨r, m', ran, allocated, all⟩ := space.space.uvmalloc_spec rfl
        (Nat.not_lt.mp less) (show pteR ||| pteU ||| pteW < 1024 by decide)
      rw [ran]
      dsimp only [bind, Except.bind]
      cases allocated with
      | failed space' change =>
        have nothing : uvmallocSize false sz (addInt sz k) = 0 := by
          rw [uvmallocSize, if_neg less, if_neg fun no => Bool.false_ne_true no.1]
        refine ⟨none, m', ?_, .failed ⟨space', space.trapframe, space.trampoline⟩ change, false, ?_,
          fun enough => absurd (all enough.2) (Nat.ne_of_lt enough.1)⟩
        · rw [if_pos rfl]
        · rw [model, nothing, if_pos rfl]
      | @grown gs M' space' change new =>
        have le := pagesOf_mono (Nat.not_lt.mp less)
        rw [Nat.max_eq_right le] at space' new
        have proc := Exec.ProcSpace.grown space space' new
        have all : uvmallocSize true sz (addInt sz k) = addInt sz k := by
          rw [uvmallocSize, if_neg less]
          exact if_pos ⟨rfl, size_le space'⟩
        by_cases zero : addInt sz k = 0
        · have empty : sz = 0 := by omega
          have same : M' = M := by
            funext v
            apply new.old v
            rw [zero, empty]
            omega
          rw [zero, ← empty, same] at proc
          rw [same] at change
          refine ⟨none, m', ?_, .failed proc change, true, ?_, fun _ => rfl⟩
          · rw [if_pos zero]
          · rw [model, all, if_pos zero]
        · refine ⟨some (addInt sz k), m', ?_, .done proc change (fun v lt _ => new.old v (by omega))
            (fun v ge lt => new.new v ge lt), true, ?_, fun _ => rfl⟩
          · rw [if_neg zero]
          · rw [model, all, if_neg zero]
  · rw [if_neg up]
    by_cases down : k < 0
    · rw [if_pos down]
      have model : ∀ grants, Vm.growproc grants k sz = some (uvmdeallocSize sz (addInt sz k)) :=
        fun grants => by rw [Vm.growproc, if_neg up, if_pos down]
      by_cases less : addInt sz k < sz
      · obtain ⟨m', gs, ran, space', change⟩ := space.space.dealloc rfl less
        have le := pagesOf_mono (Nat.le_of_lt less)
        rw [ran]
        refine ⟨_, m', rfl, .done (ProcSpace.unmapUser space le space') change (fun v lt lt' => ?_)
          (fun v ge lt => ?_), true, ?_, fun _ => rfl⟩
        · rw [Map.unmap, if_neg (by omega)]
        · omega
        · rw [model, uvmdeallocSize, if_neg (by omega)]
      · rw [uvmdealloc, if_pos (by omega)]
        refine ⟨some sz, m, rfl, growproc_same space, true, ?_, fun _ => rfl⟩
        rw [model, uvmdeallocSize, if_pos (by omega)]
    · rw [if_neg down]
      refine ⟨some sz, m, rfl, growproc_same space, true, ?_, fun _ => rfl⟩
      rw [Vm.growproc, if_neg up, if_neg down]

/-! ## The call -/

/-- What `sbrk` makes of the memory of the process. -/
structure Sbrked (l : Layout) (tramp : Nat) (s : State) (p : Fin nproc) (t : Table) (fs : List Nat)
    (k r : Int) (newsz : Option Nat) (s' : State) : Prop where
  grew : Grew l.kend tramp t.frame s.mem s'.mem t.root t.map (s.proc p).sz fs newsz
  sizes : ∃ grants, newsz = Vm.growproc grants k (s.proc p).sz ∧
    (Enough fs (s.proc p).sz k → grants = true)
  others : ∀ q, q ≠ p → s'.proc q = s.proc q
  file : s'.file = s.file
  proc : s'.proc p = { s.proc p with sz := newsz.getD (s.proc p).sz }
  result : r = if newsz = none then -1 else ((s.proc p).sz : Int)

/-- The table of a process is another one. -/
theorem Sound.change {t : Table} {M' : Map} (sound : Sound l tramp boot s [] T fs)
    (here : T p = some t) (live : (s.proc p).state ≠ .UNUSED)
    (zombie : (s.proc p).state ≠ .ZOMBIE)
    (space : ProcSpace l.kend tramp t.frame m' t.root M' (pagesOf sz) gs)
    (change : Change s.mem m' t.root t.map M' fs gs) :
    Outcome l tramp boot T s p ((s.setMem m').setProc p { s.proc p with sz := sz })
      (Function.update T p (some ⟨t.root, t.frame, pagesOf sz, M'⟩)) gs := by
  have holds := sound.holds here
  have step : Step l.kend s.mem m' fs gs (Pages s.mem (T p))
      (Pages m' (some ⟨t.root, t.frame, pagesOf sz, M'⟩)) := by
    rw [here]
    exact ProcSpace.step space change
  refine ⟨sound.step step (fun t' eq => ?_) ?_ (fun q ne => State.setProc_other _ _ ne) rfl ?_, rfl,
    fun q ne _ => .inl ⟨?_, Function.update_of_ne ne .., ?_⟩⟩
  · cases eq
    exact space
  · rw [State.setProc_self]
    exact .used live holds.trapframe holds.pagetable rfl fun no => absurd no zombie
  · rw [State.setProc_self]
  · rw [State.setProc_other _ _ ne]
    rfl
  · exact sound.spaces.kept (o := some p) step fun eq => ne (Option.some.inj eq)

theorem sysSbrk_spec (sound : Sound l tramp boot s [] T fs) {t : Table} (here : T p = some t)
    (live : (s.proc p).state = .RUNNABLE) (k : Int) :
    ∃ r s' T' gs newsz, sysSbrk l p k s = .ok (r, s') ∧ Outcome l tramp boot T s p s' T' gs ∧
      Sbrked l tramp s p t fs k r newsz s' := by
  have holds := sound.holds here
  have space : ProcSpace l.kend tramp t.frame s.mem t.root t.map (pagesOf (s.proc p).sz) fs := by
    rw [holds.size]
    exact sound.ok here
  have notUnused : (s.proc p).state ≠ .UNUSED := by rw [live]; decide
  have notZombie : (s.proc p).state ≠ .ZOMBIE := by rw [live]; decide
  obtain ⟨newsz, m', ran, grew, sizes⟩ := growproc_spec space k
  rw [sysSbrk, growproc, holds.pagetable, ran]
  dsimp only [liftUvm, Except.mapError, bind, Except.bind]
  have grew' := grew
  cases grew with
  | failed space' change =>
    have same : s.setMem m' = (s.setMem m').setProc p { s.proc p with sz := (s.proc p).sz } := by
      rw [State.setProc, show { s.proc p with sz := (s.proc p).sz } = (s.setMem m').proc p from rfl,
        Function.update_eq_self]
    have outcome := sound.change here notUnused notZombie space' change
    rw [← same] at outcome
    exact ⟨_, _, _, _, none, rfl, outcome, grew', sizes, fun _ _ => rfl, rfl, rfl, rfl⟩
  | @done newsz M' gs space' change old new =>
    exact ⟨_, _, _, _, some newsz, rfl, sound.change here notUnused notZombie space' change, grew',
      sizes, fun q ne => State.setProc_other _ _ ne, rfl, State.setProc_self .., rfl⟩

end Sistemas.Xv6.Calls
