import Sistemas.Data.Partition
import Sistemas.Xv6.UvmCopy

/-! # The pages of all processes

Each page is free, or it is held by one process, or the kernel has it for itself.  What a process
does moves pages between it and the free ones, and leaves the memory of the others as it is
(`Spaces.step`).
-/

namespace Sistemas.Xv6.Uvm

open Vm

/-- A process with its memory: the page table, the trapframe and the pages of the user memory. -/
structure Table where
  root : Nat
  frame : Nat
  size : Nat
  map : Map

variable {kend tramp f n : Nat} {fs gs hs : List Nat} {m m' m'' : Mem} {t : Table}
  {P Q R : Nat → Prop} {T : Fin nproc → Option Table} {p q : Fin nproc}

def Table.Ok (kend tramp : Nat) (m : Mem) (fs : List Nat) (t : Table) : Prop :=
  ProcSpace kend tramp t.frame m t.root t.map t.size fs

/-- The pages of a process. -/
def Table.Pages (m : Mem) (t : Table) (f : Nat) : Prop := f = t.frame ∨ Held m t.root t.map f

def Pages (m : Mem) : Option Table → Nat → Prop
  | none, _ => False
  | some t, f => t.Pages m f

/-! ## Steps -/

/-- Pages move between the free ones and one owner, who has `P` before and `Q` afterwards. -/
structure Step (kend : Nat) (m m' : Mem) (fs gs : List Nat) (P Q : Nat → Prop) : Prop where
  free : FreeList kend m' gs
  pages : ∀ f, f ∈ gs ∨ Q f ↔ f ∈ fs ∨ P f
  apart : ∀ f, Q f → f ∉ gs
  keeps : m.bytes.Keeps pgsize (fun f => f ∉ fs ∧ ¬ P f) m'.bytes

theorem Step.refl (free : FreeList kend m fs) (apart : ∀ f, P f → f ∉ fs) :
    Step kend m m fs fs P P where
  free := free
  pages _ := .rfl
  apart := apart
  keeps := .refl _ _ _

theorem Step.trans (first : Step kend m m' fs gs P Q) (second : Step kend m' m'' gs hs Q R) :
    Step kend m m'' fs hs P R where
  free := second.free
  pages f := (second.pages f).trans (first.pages f)
  apart := second.apart
  keeps := by
    apply first.keeps.trans
    apply second.keeps.mono
    intro f out
    exact not_or.mp fun inside => not_or.mpr out ((first.pages f).mp inside)

/-- A change of the table, where the trapframe stays. -/
theorem ProcSpace.step {M : Map} (space : ProcSpace kend tramp t.frame m' t.root M n gs)
    (change : Change m m' t.root t.map M fs gs) :
    Step kend m m' fs gs (t.Pages m) (Table.Pages m' ⟨t.root, t.frame, n, M⟩) where
  free := space.space.free
  pages f := by rw [Table.Pages, Table.Pages, or_left_comm, change.pages, or_left_comm]
  apart f mine := by
    cases mine with
    | inl eq => exact eq ▸ (space.space.rep.page _ _ space.trapframe).2.1
    | inr held => exact space.space.not_free held
  keeps := change.keeps.mono fun f out => ⟨out.1, fun held => out.2 (.inr held)⟩

/-- The pages of a process stay as they are, with all that is in them. -/
structure Kept (m m' : Mem) (r : Option Table) : Prop where
  pages : ∀ f, Pages m' r f ↔ Pages m r f
  keeps : m.bytes.Keeps pgsize (Pages m r) m'.bytes

theorem Kept.refl (m : Mem) (r : Option Table) : Kept m m r where
  pages _ := .rfl
  keeps := .refl _ _ _

theorem Kept.trans {r : Option Table} (first : Kept m m' r) (second : Kept m' m'' r) :
    Kept m m'' r where
  pages f := (second.pages f).trans (first.pages f)
  keeps := first.keeps.trans (second.keeps.mono fun f mine => (first.pages f).mpr mine)

/-! ## All processes -/

/-- Who owns a page; nobody stands for the kernel. -/
def owns (m : Mem) (T : Fin nproc → Option Table) (rest : Nat → Prop) :
    Option (Fin nproc) → Nat → Prop
  | none, f => rest f
  | some p, f => Pages m (T p) f

structure Spaces (kend tramp : Nat) (m : Mem) (T : Fin nproc → Option Table) (rest : Nat → Prop)
    (fs : List Nat) : Prop where
  linked : kernbase ≤ kend
  trampLt : tramp < 2 ^ 52
  -- the page of the trampoline belongs to the text of the kernel
  trampText : ¬ InRam kend tramp
  free : FreeList kend m fs
  table : ∀ p t, T p = some t → t.Ok kend tramp m fs
  part : Partition (InRam kend) (· ∈ fs) (owns m T rest)

theorem owns_some {rest : Nat → Prop} (here : T p = some t) (mine : t.Pages m f) :
    owns m T rest (some p) f := by
  rw [owns, here]
  exact mine

namespace Spaces

/-- What a process uses is neither free nor another one's. -/
theorem uses_out {rest : Nat → Prop} {o : Option (Fin nproc)}
    (spaces : Spaces kend tramp m T rest fs) (here : T q = some t)
    (uses : Uses m t.root t.map f) (ne : some q ≠ o) : ¬ (f ∈ fs ∨ owns m T rest o f) := by
  have ok := spaces.table q t here
  have outside : ∀ f, t.Pages m f → ¬ (f ∈ fs ∨ owns m T rest o f) := by
    intro f mine both
    obtain ⟨notFree, notTheirs⟩ := spaces.part.untouched ne (owns_some here mine)
    exact both.elim notFree notTheirs
  intro both
  have ram : InRam kend f := both.elim spaces.part.of_pool spaces.part.of_owner
  cases uses with
  | inl table => exact outside f (.inr (.inl table)) both
  | inr mapped =>
    obtain ⟨v, page, mapped, rfl⟩ := mapped
    by_cases low : v < userPages
    · exact outside _ (.inr (.of_map low mapped)) both
    · cases ok.above (by omega) mapped with
      | inl eq =>
        rw [eq, ok.trapframe] at mapped
        cases mapped
        exact outside _ (.inl rfl) both
      | inr eq =>
        rw [eq, ok.trampoline] at mapped
        cases mapped
        exact spaces.trampText ram

/-- A table of an owner does not see what another one does. -/
theorem elsewhere {rest : Nat → Prop} {o : Option (Fin nproc)}
    (spaces : Spaces kend tramp m T rest fs) (step : Step kend m m' fs gs (owns m T rest o) Q)
    (ne : some q ≠ o) (here : T q = some t) :
    t.Ok kend tramp m' gs ∧ Unchanged m m' t.root t.map ∧
      m.bytes.Keeps pgsize (t.Pages m) m'.bytes := by
  have ok := spaces.table q t here
  have uses : ∀ f, Uses m t.root t.map f → ¬ (f ∈ fs ∨ owns m T rest o f) := fun f uses =>
    spaces.uses_out here uses ne
  have outside : ∀ f, t.Pages m f → ¬ (f ∈ fs ∨ owns m T rest o f) := by
    intro f mine both
    obtain ⟨notFree, notTheirs⟩ := spaces.part.untouched ne (owns_some here mine)
    exact both.elim notFree notTheirs
  obtain ⟨space, unchanged⟩ := ok.space.unchanged step.free
    (step.keeps.mono fun f there => not_or.mp (uses f there))
    fun f there mem => uses f there ((step.pages f).mp (.inl mem))
  exact ⟨⟨space, ok.trapframe, ok.trampoline⟩, unchanged,
    step.keeps.mono fun f mine => not_or.mp (outside f mine)⟩

theorem pages_elsewhere {rest : Nat → Prop} {o : Option (Fin nproc)}
    (spaces : Spaces kend tramp m T rest fs) (step : Step kend m m' fs gs (owns m T rest o) Q)
    (ne : some q ≠ o) (f : Nat) : Pages m' (T q) f ↔ Pages m (T q) f := by
  cases here : T q with
  | none => exact .rfl
  | some t =>
    obtain ⟨-, unchanged, -⟩ := spaces.elsewhere step ne here
    exact or_congr_right (unchanged.held f)

/-- What one owner does to its pages, another one does not see. -/
theorem kept {rest : Nat → Prop} {o : Option (Fin nproc)} (spaces : Spaces kend tramp m T rest fs)
    (step : Step kend m m' fs gs (owns m T rest o) Q) (ne : some q ≠ o) : Kept m m' (T q) := by
  refine ⟨spaces.pages_elsewhere step ne, ?_⟩
  cases here : T q with
  | none => exact fun _ no => no.elim
  | some t => exact (spaces.elsewhere step ne here).2.2

/-- A step of one process, which has `t` afterwards. -/
theorem step {rest : Nat → Prop} {r : Option Table} (spaces : Spaces kend tramp m T rest fs)
    (step : Step kend m m' fs gs (Pages m (T p)) (Pages m' r))
    (ok : ∀ t, r = some t → t.Ok kend tramp m' gs) :
    Spaces kend tramp m' (Function.update T p r) rest gs where
  linked := spaces.linked
  trampLt := spaces.trampLt
  trampText := spaces.trampText
  free := step.free
  table q t here := by
    by_cases same : q = p
    · rw [same, Function.update_self] at here
      exact ok t here
    · rw [Function.update_of_ne same] at here
      exact (spaces.elsewhere (o := some p) step (fun eq => same (Option.some.inj eq)) here).1
  part := by
    refine spaces.part.move (i := some p) (fun o ne f => ?_) (fun f => ?_) fun f mine => ?_
    · cases o with
      | none => exact .rfl
      | some q =>
        have other : q ≠ p := fun eq => ne (congrArg some eq)
        rw [owns, owns, Function.update_of_ne other]
        exact spaces.pages_elsewhere (o := some p) step ne f
    · rw [owns, owns, Function.update_self]
      exact step.pages f
    · rw [owns, Function.update_self] at mine
      exact step.apart f mine

/-- A step of the kernel. -/
theorem stepRest {rest rest' : Nat → Prop} (spaces : Spaces kend tramp m T rest fs)
    (step : Step kend m m' fs gs rest rest') : Spaces kend tramp m' T rest' gs where
  linked := spaces.linked
  trampLt := spaces.trampLt
  trampText := spaces.trampText
  free := step.free
  table q t here := (spaces.elsewhere (o := none) step (fun no => by cases no) here).1
  part := by
    refine spaces.part.move (i := none) (fun o ne f => ?_) step.pages step.apart
    cases o with
    | none => exact absurd rfl ne
    | some q => exact spaces.pages_elsewhere (o := none) step ne f

theorem congr {rest rest' : Nat → Prop} (spaces : Spaces kend tramp m T rest fs)
    (same : ∀ f, rest' f ↔ rest f) : Spaces kend tramp m T rest' fs := by
  refine ⟨spaces.linked, spaces.trampLt, spaces.trampText, spaces.free, spaces.table,
    spaces.part.congr (fun o f => ?_) fun _ => .rfl⟩
  cases o with
  | none => exact same f
  | some q => exact .rfl

end Spaces

end Sistemas.Xv6.Uvm
