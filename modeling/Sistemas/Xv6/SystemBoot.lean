import Sistemas.Xv6.CallsFork
import Sistemas.Xv6.SystemMemory

/-! # The first process

Before the first process all slots are unused and all files closed; whatever is not free then is
what the kernel has taken while it booted.
-/

namespace Sistemas.Xv6.Calls.System

open Vm
open Uvm
open Exec (UserPage)
open Sysfile (nfile nofile)
open Namex (ninode)

variable {l : Layout} {tramp root va f n : Nat} {fs gs hs : List Nat} {m m' m₀ : Mem} {M : Map}
  {s s' : State} {T T' : Fin nproc → Option Table} {t t' : Table} {p q np : Fin nproc}
  {loose : List (Fin nfile)}

/-- The pages that are not free. -/
def Booted (l : Layout) (fs : List Nat) (f : Nat) : Prop := InRam l.kend f ∧ f ∉ fs

/-- The page of the trampoline. -/
def trampPage (l : Layout) : Nat := l.tramp / pgsize

theorem trampPage_eq (l : Layout) : l.tramp = trampPage l * pgsize :=
  (Nat.div_mul_cancel (Nat.dvd_of_mod_eq_zero l.aligned)).symm

theorem trampPage_lt (l : Layout) : trampPage l < 2 ^ 52 := by
  have text := l.text
  have high := l.high
  rw [trampPage_eq] at text
  unfold phystop kernbase at high
  unfold pgsize at text
  omega

theorem trampPage_text (l : Layout) : ¬ InRam l.kend (trampPage l) := by
  intro ram
  have text := l.text
  rw [trampPage_eq] at text
  exact absurd ram.1 (Nat.not_le.mpr text)

theorem not_isEnd_boot {g : Nat} {w : Bool} {i : Fin nfile} : ¬ IsEnd (boot m) g w i := by
  rintro ⟨type, -⟩
  cases type

theorem not_isPipe_boot {g : Nat} : ¬ IsPipe (boot m) g := by
  rintro ⟨w, i, here⟩
  exact not_isEnd_boot here

theorem sound_boot (free : FreeList l.kend m fs) :
    Sound l (trampPage l) (Booted l fs) (boot m) [] (fun _ => none) fs where
  trampEq := trampPage_eq l
  spaces := by
    refine ⟨l.low, trampPage_lt l, trampPage_text l, free, fun _ _ no => (by cases no), ?_⟩
    have only : ∀ o f, owns m (fun _ => none) (Rest (Booted l fs) (boot m)) o f →
        o = none ∧ Booted l fs f := by
      intro o f mine
      cases o with
      | none => exact ⟨rfl, mine.resolve_right not_isPipe_boot⟩
      | some p => exact mine.elim
    refine ⟨fun f => ⟨fun ram => ?_, ?_⟩, fun o f mine => (only o f mine).2.2, ?_⟩
    · by_cases mem : f ∈ fs
      · exact .inl mem
      · exact .inr ⟨none, .inl ⟨ram, mem⟩⟩
    · rintro (mem | ⟨o, mine⟩)
      · exact free.inRam f mem
      · exact (only o f mine).2.1
    · intro o o' f mine mine'
      rw [(only o f mine).1, (only o' f mine').1]
  slot p := .unused rfl rfl rfl rfl fun _ => rfl
  files := by
    refine ⟨fun i => ?_, fun _ _ => rfl, fun i type => (by cases type), fun g w i j here => ?_,
      fun g w pipe => absurd pipe not_isPipe_boot⟩
    · have zero : holders (boot m) i = 0 :=
        Finset.sum_eq_zero fun p _ => Finset.sum_eq_zero fun fd _ => if_neg fun no => by cases no
      rw [zero]
      rfl
    · exact absurd here not_isEnd_boot
  apart g _ pipe := not_isPipe_boot pipe

/-! ## `userinit` -/

/-- Data of the process is written. -/
theorem Table.Ok.writeStep (ok : t.Ok l.kend tramp m fs) (free : FreeList l.kend m' fs)
    (keeps : m.bytes.Keeps pgsize (fun f => ¬ Table.Data t f) m'.bytes) :
    t.Ok l.kend tramp m' fs ∧ Step l.kend m m' fs fs (t.Pages m) (t.Pages m') := by
  obtain ⟨ok', pages⟩ := Table.Ok.write ok free keeps
  refine ⟨ok', ok'.space.free, fun f => or_congr_right (pages f), fun f mine => ?_,
    keeps.mono fun f out data => out.2 (Table.Ok.data ok data)⟩
  cases mine with
  | inl eq => exact eq ▸ Table.Ok.frame_out ok'
  | inr held => exact ok'.space.not_free held

/-- The memory of the first process. -/
theorem uvmfirst_spec (ok : t.Ok l.kend tramp m fs) (size : t.size = 0) (src : List UInt8)
    (short : src.length ≤ pgsize) :
    ∃ r, uvmfirst (t.root * pgsize) src m = .ok r ∧ (r = none → fs.length ≤ 3) ∧ ∀ m', r = some m' →
      ∃ (t' : Table) (gs : List Nat), t'.root = t.root ∧ t'.frame = t.frame ∧ t'.size = 1 ∧
        t'.Ok l.kend tramp m' gs ∧ Step l.kend m m' fs gs (t.Pages m) (t'.Pages m') ∧
        fs.length ≤ gs.length + 3 := by
  have space := ok.space
  rw [size] at space
  rw [uvmfirst]
  cases fs with
  | nil =>
    rw [kalloc_nil space.free]
    exact ⟨none, rfl, fun _ => Nat.zero_le _, fun _ no => by cases no⟩
  | cons f fs =>
    have flags : pteW ||| pteR ||| pteX ||| pteU < 1024 := by decide
    have leaf : pteW ||| pteR ||| pteX ||| pteU ||| pteV ≠ pteV := by decide
    obtain ⟨m₁, found, -, mapping⟩ := space.allocPage flags leaf
    obtain ⟨done, m₂, gs, ran, isDone, notDone⟩ := mapping (m₁.memset (f * pgsize) 0) rfl
      (keeps_memset m₁ f 0)
    rw [Nat.zero_mul] at ran
    rw [found]
    dsimp only
    rw [ran]
    dsimp only [liftVm, Except.mapError, bind, Except.bind]
    cases done with
    | false =>
      refine ⟨none, rfl, fun _ => ?_, fun _ no => by cases no⟩
      exact Nat.succ_le_succ (notDone rfl).1
    | true =>
      obtain ⟨space₂, change, -, few⟩ := isDone rfl
      have here : Function.update t.map 0
          (some (f, pteW ||| pteR ||| pteX ||| pteU ||| pteV)) 0 = some (f, _) :=
        Function.update_self ..
      have rest : ∀ v, v ≠ 0 → Function.update t.map 0
          (some (f, pteW ||| pteR ||| pteX ||| pteU ||| pteV)) v = t.map v := fun v ne =>
        Function.update_of_ne ne ..
      generalize Function.update t.map 0 (some (f, pteW ||| pteR ||| pteX ||| pteU ||| pteV)) = M'
        at here rest space₂ change
      have ok₂ : Table.Ok l.kend tramp m₂ gs ⟨t.root, t.frame, 1, M'⟩ :=
        ⟨space₂, (rest _ (by decide)).trans ok.trapframe, (rest _ (by decide)).trans ok.trampoline⟩
      have wrote := @Bytes.keeps_splice m₂.bytes (fun i => src.getD i 0) pgsize f (f * pgsize)
        src.length le_rfl (by rw [Nat.succ_mul]; omega)
      have page : Table.Data ⟨t.root, t.frame, 1, M'⟩ f := .inl ⟨0, _, Nat.one_pos, here, rfl⟩
      have notFree : f ∉ gs := space₂.not_free (.of_map (v := 0) (by decide) here)
      obtain ⟨ok', step⟩ := @Table.Ok.writeStep l tramp gs m₂
        { m₂ with bytes := m₂.bytes.splice (f * pgsize) src.length fun i => src.getD i 0 } _ ok₂
        (space₂.free.write notFree rfl wrote) (wrote.mono fun g out eq => out (eq ▸ page))
      refine ⟨_, rfl, fun no => (by cases no), fun m' eq => ?_⟩
      cases eq
      exact ⟨⟨t.root, t.frame, 1, M'⟩, gs, rfl, rfl, rfl, ok',
        (ProcSpace.step (t := t) ok₂ change).trans step, by rw [List.length_cons]; omega⟩

theorem firstProc_other {root : Fin ninode} (ne : q ≠ p) :
    (firstProc root p s m).proc q = s.proc q := by
  rw [firstProc]
  dsimp only
  rw [idup_proc, State.setProc_other _ _ ne]
  rfl

theorem firstProc_self {root : Fin ninode} : (firstProc root p s m).proc p = { s.proc p with
    sz := pgsize, name := safestrcpy initname 16, cwd := some root, state := .RUNNABLE } := by
  rw [firstProc]
  dsimp only
  rw [idup_proc, State.setProc_self]
  rfl

theorem keeps_firstRegisters (m : Mem) (f : Nat) :
    m.bytes.Keeps pgsize (· ≠ f) (firstRegisters (f * pgsize) m).bytes := by
  have first := keeps_store_word m (f := f) (i := 3) (by decide) 0
  have second := keeps_store_word (m.store (f * pgsize + 24) 0) (f := f) (i := 6) (by decide) pgsize
  exact first.trans second

theorem userinit_spec (free : FreeList l.kend m fs) (root : Fin ninode) :
    ∃ r, userinit l root (boot m) = .ok r ∧ (r = none → fs.length ≤ 9) ∧ ∀ s, r = some s →
      ∃ T gs, Sound l (trampPage l) (Booted l fs) s [] T gs ∧ fs.length ≤ gs.length + 9 := by
  have sound := sound_boot free
  obtain ⟨np, s₁, ran, made⟩ := allocproc_spec sound
  rw [userinit, ran]
  dsimp only [bind, Except.bind]
  cases made with
  | full all => exact absurd rfl (all ⟨0, by decide⟩)
  | failed _ _ few => exact ⟨none, rfl, fun _ => few.trans (by decide), fun _ no => by cases no⟩
  | @made np t m₁ gs unused ok size step few =>
    obtain ⟨r, first, stuck, spec⟩ := uvmfirst_spec ok size initcode (by decide)
    dsimp only
    rw [State.setProc_self]
    dsimp only [State.setProc_mem, State.setMem_mem]
    rw [first]
    dsimp only
    refine ⟨_, rfl, fun none => ?_, fun s eq => ?_⟩
    · have := stuck (Option.map_eq_none_iff.mp none)
      omega
    cases r with
    | none => cases eq
    | some m₂ =>
      obtain ⟨t', hs, rootEq, frameEq, one, ok', step', few'⟩ := spec m₂ rfl
      have whole : pagesOf pgsize = t'.size := by
        rw [one]
        rfl
      obtain ⟨sound₁, -⟩ := @sound_sized _ _ _ _ _ _ _ _ np _ _ sound unused ok' (step.trans step') whole
      have mine : Function.update (fun _ => none) np (some t') np = some t' :=
        Function.update_self ..
      have wrote := keeps_firstRegisters m₂ t'.frame
      obtain ⟨sound₂, -, -⟩ := @Sound.write l (trampPage l) hs (firstRegisters (t'.frame * pgsize) m₂)
        _ _ t' np _ [] sound₁ mine (ok'.space.free.write (Table.Ok.frame_out ok') rfl wrote)
        (wrote.mono fun f out eq => out (.inr eq))
      have other : ∀ q, q ≠ np → s.proc q = (boot m).proc q := by
        intro q ne
        cases eq
        rw [firstProc_other ne, State.setProc_other _ _ ne, State.setMem_proc, State.allocpid,
          State.setProc_other _ _ ne]
      have self : s.proc np = { ((boot m).allocpid np).proc np with
          trapframe := t'.frame * pgsize, pagetable := t'.root * pgsize, sz := pgsize,
          name := safestrcpy initname 16, cwd := some root, state := .RUNNABLE } := by
        cases eq
        rw [firstProc_self, State.setProc_self, rootEq, frameEq]
      have mem : s.mem = firstRegisters (t'.frame * pgsize) m₂ := by
        cases eq
        rw [frameEq, firstProc, idup_mem]
        dsimp only
        rw [State.setProc_mem, State.setMem_mem, State.setProc_self]
      have file : s.file = (boot m).file := by
        cases eq
        exact idup_file _ _
      refine ⟨_, hs, sound₂.congr mem (fun q => ?_) file fun q => ?_, by omega⟩
      · by_cases same : q = np
        · rw [same, mine, self]
          exact .used (fun no => by cases no) rfl rfl whole fun no => by cases no
        · rw [other q same]
          have slot := sound₂.slot q
          rwa [State.setMem_proc, sized_other same] at slot
      · by_cases same : q = np
        · rw [same, self, State.setMem_proc, sized_self, State.allocpid, State.setProc_self]
        · rw [other q same, State.setMem_proc, sized_other same]

end Sistemas.Xv6.Calls.System
