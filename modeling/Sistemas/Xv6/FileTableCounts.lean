import Mathlib.Algebra.Order.BigOperators.Group.Finset
import Mathlib.Data.Fintype.BigOperators
import Sistemas.Data.Counting
import Sistemas.Xv6.FileTable

/-! # The counts of the file table

Inside a call a process may have references that no slot shows (`Pc.loose`), or a slot that has
no reference yet or no longer (`Pc.unbacked`).  With these the count of an entry is always the
number of its references, and the flags of a pipe and its page follow the entries in the same
way (`Inv`).
-/

namespace Sistemas.Xv6.FileTable

open Sysfile (nfile nofile nproc)

/-! ## What is counted -/

def Next.loose : Next → List (Fin nfile)
  | .close fs => fs
  | .exit _ => []

/-- References without a slot. -/
def Pc.loose : Pc → List (Fin nfile)
  | .openFd f _ | .pipeSecond f _ => [f]
  | .pipePage f0 f1 _ | .pipeFds f0 f1 _ => [f0, f1]
  | .fileclose f (.close fs) => f :: fs
  | .pipeclose _ _ next | .kfree _ next => next.loose
  | _ => []

/-- A slot without a reference. -/
def Pc.unbacked : Pc → Option (Fin nofile)
  | .dup fd _ | .pipeclose _ _ (.exit fd) | .kfree _ (.exit fd) => some fd
  | _ => none

/-- The slots with a reference. -/
def Proc.backed (proc : Proc) : Fin nofile → Option (Fin nfile) :=
  match proc.pc.unbacked with
  | none => proc.ofile
  | some fd => Function.update proc.ofile fd none

def slots (ofile : Fin nofile → Option (Fin nfile)) (f : Fin nfile) : Nat :=
  ∑ fd, if ofile fd = some f then 1 else 0

/-- The references of a process. -/
def Proc.holds (proc : Proc) (f : Fin nfile) : Nat := slots proc.backed f + proc.pc.loose.count f

/-- The entry is the end of a pipe. -/
def File.isEnd (file : File) (pi : Nat) (writable : Bool) : Nat :=
  if file.type = .pipe ∧ file.pipe = pi ∧ file.writable = writable then 1 else 0

/-- The process is to close the end, whose entry is gone. -/
def Pc.closing (pc : Pc) (pi : Nat) (writable : Bool) : Nat :=
  match pc with
  | .pipeclose pi' writable' _ => if pi' = pi ∧ writable' = writable then 1 else 0
  | _ => 0

/-- The process is to give the page back. -/
def Pc.freeing (pc : Pc) (pi : Nat) : Nat :=
  match pc with
  | .kfree pi' _ => if pi' = pi then 1 else 0
  | _ => 0

def holders (s : State) (f : Fin nfile) : Nat := ∑ p, (s.proc p).holds f

def ends (s : State) (pi : Nat) (writable : Bool) : Nat :=
  ∑ f, (s.file f).isEnd pi writable + ∑ p, (s.proc p).pc.closing pi writable

def freeing (s : State) (pi : Nat) : Nat := ∑ p, (s.proc p).pc.freeing pi

def Pipe.isOpen (pipe : Pipe) (writable : Bool) : Bool :=
  if writable then pipe.writeopen else pipe.readopen

/-- The ends that the flags show. -/
def opens (page : Option Pipe) (writable : Bool) : Nat :=
  match page with
  | none => 0
  | some pipe => (pipe.isOpen writable).toNat

/-- Both ends are closed, and the page is still there. -/
def dead (page : Option Pipe) : Nat :=
  if page = some { readopen := false, writeopen := false } then 1 else 0

/-! ## The sums after a change -/

section Changes

variable (s : State) (p : Fin nproc) (proc : Proc) (f : Fin nfile) (file : File) (pi : Nat)
  (pipe : Option Pipe) (g : Fin nfile) (a : Nat) (w : Bool)

theorem holders_setProc :
    holders (s.setProc p proc) g + (s.proc p).holds g = holders s g + proc.holds g :=
  sum_update (Finset.mem_univ p) s.proc proc fun _ proc => proc.holds g

@[simp] theorem setFile_proc : (s.setFile f file).proc = s.proc := rfl

@[simp] theorem setPage_proc : (s.setPage pi pipe).proc = s.proc := rfl

@[simp] theorem holders_setFile : holders (s.setFile f file) = holders s := rfl

@[simp] theorem freeing_setFile : freeing (s.setFile f file) = freeing s := rfl

@[simp] theorem holders_setPage : holders (s.setPage pi pipe) = holders s := rfl

@[simp] theorem ends_setPage : ends (s.setPage pi pipe) = ends s := rfl

@[simp] theorem freeing_setPage : freeing (s.setPage pi pipe) = freeing s := rfl

theorem slots_update (ofile : Fin nofile → Option (Fin nfile)) (fd : Fin nofile)
    (new : Option (Fin nfile)) : slots (Function.update ofile fd new) g +
      (if ofile fd = some g then 1 else 0) = slots ofile g + if new = some g then 1 else 0 :=
  sum_update (Finset.mem_univ fd) ofile new fun _ slot => if slot = some g then 1 else 0

end Changes

variable {s s' : State} {p q : Fin nproc} {f g : Fin nfile} {fd : Fin nofile}

theorem slots_pos {ofile : Fin nofile → Option (Fin nfile)} (slot : ofile fd = some f) :
    0 < slots ofile f := by
  refine Finset.sum_pos' (fun _ _ => Nat.zero_le _) ⟨fd, Finset.mem_univ fd, ?_⟩
  rw [if_pos slot]
  exact Nat.one_pos

/-! ## The invariant -/

/-- The slots before `i` are clear. -/
def Cleared (ofile : Fin nofile → Option (Fin nfile)) (i : Nat) : Prop :=
  ∀ fd : Fin nofile, fd.val < i → ofile fd = none

def Next.Ok (ofile : Fin nofile → Option (Fin nfile)) : Next → Prop
  | .close _ => True
  | .exit fd => Cleared ofile fd.val

/-- The slots of a process fit the place where it is. -/
def Proc.Ok (proc : Proc) : Prop :=
  match proc.pc with
  | .unused | .zombie => Cleared proc.ofile nofile
  | .dup fd f => proc.ofile fd = some f ∧ ∃ fd' ≠ fd, proc.ofile fd' = some f
  | .fileclose f (.exit fd) => proc.ofile fd = some f ∧ Cleared proc.ofile fd.val
  | .pipeclose _ _ next | .kfree _ next => next.Ok proc.ofile
  | .exitLoop i => Cleared proc.ofile i
  | _ => True

/-- The entries that the process has just allocated. -/
def Pc.made : Pc → List (Fin nfile)
  | .openFd f _ | .pipeSecond f _ => [f]
  | .pipePage f0 f1 _ => [f0, f1]
  | _ => []

structure Inv (s : State) : Prop where
  quiet : s.panic = none
  ref_eq : ∀ f, (s.file f).ref = holders s f
  ends_eq : ∀ pi writable, ends s pi writable = opens (s.page pi) writable
  freeing_eq : ∀ pi, freeing s pi = dead (s.page pi)
  unused : ∀ f, (s.file f).ref = 0 → (s.file f).type = .none
  made : ∀ p, ∀ f ∈ (s.proc p).pc.made, (s.file f).ref = 1 ∧ (s.file f).type = .none
  ok : ∀ p, (s.proc p).Ok
  child : ∀ p np i, (s.proc p).pc = .forkLoop np i → (s.proc np).pc = .used p ∧
    ∀ fd : Fin nofile, i ≤ fd.val → (s.proc np).ofile fd = none

theorem holds_le (p : Fin nproc) : (s.proc p).holds f ≤ holders s f :=
  Finset.single_le_sum (f := fun p => (s.proc p).holds f) (fun _ _ => Nat.zero_le _)
    (Finset.mem_univ p)

theorem holds_add_le (other : p ≠ q) : (s.proc p).holds f + (s.proc q).holds f ≤ holders s f := by
  have pair : ∑ r ∈ {p, q}, (s.proc r).holds f ≤ holders s f :=
    Finset.sum_le_sum_of_subset (Finset.subset_univ _)
  rwa [Finset.sum_pair other] at pair

/-- What a process has just allocated nobody else refers to. -/
theorem Inv.apart (inv : Inv s) (other : q ≠ p) (mem : f ∈ (s.proc q).pc.made) :
    (s.proc p).holds f = 0 ∧ 0 < (s.file f).ref := by
  have one := (inv.made q f mem).1
  have both := holds_add_le (s := s) (f := f) other
  have mine : 0 < (s.proc q).holds f := by
    have loose : f ∈ (s.proc q).pc.loose := by
      revert mem
      cases (s.proc q).pc <;> simp [Pc.made, Pc.loose]
    have count := List.count_pos_iff.mpr loose
    rw [Proc.holds]
    omega
  rw [← inv.ref_eq f, one] at both
  omega

/-! ## One process moves -/

/-- What has to be shown of a move of one process. -/
theorem Inv.move {proc : Proc} (inv : Inv s) (quiet : s'.panic = none)
    (moved : s'.proc = Function.update s.proc p proc)
    (ref : ∀ g, (s'.file g).ref + (s.proc p).holds g = (s.file g).ref + proc.holds g)
    (ends' : ∀ a w, ∑ f, (s'.file f).isEnd a w + proc.pc.closing a w + opens (s.page a) w =
      ∑ f, (s.file f).isEnd a w + (s.proc p).pc.closing a w + opens (s'.page a) w)
    (freeing' : ∀ a, proc.pc.freeing a + dead (s.page a) =
      (s.proc p).pc.freeing a + dead (s'.page a))
    (unused : ∀ f, (s'.file f).ref = 0 → (s'.file f).type = .none)
    (others : ∀ q ≠ p, ∀ g ∈ (s.proc q).pc.made, s'.file g = s.file g)
    (made : ∀ f ∈ proc.pc.made, (s'.file f).ref = 1 ∧ (s'.file f).type = .none)
    (ok : proc.Ok)
    (child : ∀ q np i, (s'.proc q).pc = .forkLoop np i → (s'.proc np).pc = .used q ∧
      ∀ fd : Fin nofile, i ≤ fd.val → (s'.proc np).ofile fd = none) : Inv s' := by
  refine ⟨quiet, ?_, ?_, ?_, unused, ?_, ?_, child⟩
  · intro g
    have sum := sum_update (Finset.mem_univ p) s.proc proc fun _ proc => proc.holds g
    have old := inv.ref_eq g
    have new := ref g
    simp only [holders] at old ⊢
    rw [moved]
    omega
  · intro a w
    have sum := sum_update (Finset.mem_univ p) s.proc proc fun _ proc => proc.pc.closing a w
    have old := inv.ends_eq a w
    have new := ends' a w
    simp only [ends] at old ⊢
    rw [moved]
    omega
  · intro a
    have sum := sum_update (Finset.mem_univ p) s.proc proc fun _ proc => proc.pc.freeing a
    have old := inv.freeing_eq a
    have new := freeing' a
    simp only [freeing] at old ⊢
    rw [moved]
    omega
  · intro q f mem
    rw [moved] at mem
    by_cases same : q = p
    · subst same
      rw [Function.update_self] at mem
      exact made f mem
    · rw [Function.update_of_ne same] at mem
      rw [others q same f mem]
      exact inv.made q f mem
  · intro q
    rw [moved]
    by_cases same : q = p
    · subst same
      rwa [Function.update_self]
    · rw [Function.update_of_ne same]
      exact inv.ok q

/-- The children of the others stay as they are. -/
theorem Inv.children {proc : Proc} (inv : Inv s) (moved : s'.proc = Function.update s.proc p proc)
    (grown : ∀ q, (s.proc p).pc ≠ .used q) (childless : ∀ np i, proc.pc ≠ .forkLoop np i)
    (q np : Fin nproc) (i : Nat) (pc : (s'.proc q).pc = .forkLoop np i) :
    (s'.proc np).pc = .used q ∧
      ∀ fd : Fin nofile, i ≤ fd.val → (s'.proc np).ofile fd = none := by
  rw [moved] at pc ⊢
  by_cases same : q = p
  · subst same
    rw [Function.update_self] at pc
    exact absurd pc (childless np i)
  · rw [Function.update_of_ne same] at pc
    obtain ⟨used, clear⟩ := inv.child q np i pc
    have apart : np ≠ p := by
      rintro rfl
      exact grown q used
    rw [Function.update_of_ne apart]
    exact ⟨used, clear⟩

/-- A move that leaves the files and the pages alone. -/
theorem Inv.setProc {proc : Proc} (inv : Inv s) (grown : ∀ q, (s.proc p).pc ≠ .used q)
    (childless : ∀ np i, proc.pc ≠ .forkLoop np i)
    (holds : ∀ g, proc.holds g = (s.proc p).holds g)
    (closing : ∀ a w, proc.pc.closing a w = (s.proc p).pc.closing a w)
    (freeing : ∀ a, proc.pc.freeing a = (s.proc p).pc.freeing a)
    (made : proc.pc.made = []) (ok : proc.Ok) : Inv (s.setProc p proc) := by
  refine inv.move inv.quiet rfl ?_ ?_ ?_ inv.unused (fun _ _ _ _ => rfl) ?_ ok
    (inv.children rfl grown childless)
  · intro g
    rw [holds]
    rfl
  · intro a w
    rw [closing]
    rfl
  · intro a
    rw [freeing]
    rfl
  · intro f mem
    rw [made] at mem
    cases mem

/-- A move that changes an entry which the process refers to, or which is free. -/
theorem Inv.setFile {proc : Proc} {file : File} (inv : Inv s) (grown : ∀ q, (s.proc p).pc ≠ .used q)
    (childless : ∀ np i, proc.pc ≠ .forkLoop np i)
    (touched : 0 < (s.proc p).holds f ∨ (s.file f).ref = 0)
    (ref : file.ref + (s.proc p).holds f = (s.file f).ref + proc.holds f)
    (refs : ∀ g ≠ f, proc.holds g = (s.proc p).holds g)
    (ends : ∀ a w, file.isEnd a w + proc.pc.closing a w =
      (s.file f).isEnd a w + (s.proc p).pc.closing a w)
    (freeing : ∀ a, proc.pc.freeing a = (s.proc p).pc.freeing a)
    (unused : file.ref = 0 → file.type = .none)
    (made : ∀ g ∈ proc.pc.made, g = f ∧ file.ref = 1 ∧ file.type = .none ∨
      g ≠ f ∧ g ∈ (s.proc p).pc.made)
    (ok : proc.Ok) : Inv ((s.setFile f file).setProc p proc) := by
  have here : ((s.setFile f file).setProc p proc).file f = file := Function.update_self ..
  have there : ∀ g ≠ f, ((s.setFile f file).setProc p proc).file g = s.file g := fun g ne =>
    Function.update_of_ne ne ..
  refine inv.move inv.quiet rfl ?_ ?_ ?_ ?_ ?_ ?_ ok (inv.children rfl grown childless)
  · intro g
    by_cases same : g = f
    · rw [same, here]
      exact ref
    · rw [there g same, refs g same]
  · intro a w
    have sum := sum_update (Finset.mem_univ f) s.file file fun _ file => file.isEnd a w
    have change := ends a w
    simp only [State.setProc, State.setFile]
    omega
  · intro a
    rw [freeing]
    rfl
  · intro g
    by_cases same : g = f
    · rw [same, here]
      exact unused
    · rw [there g same]
      exact inv.unused g
  · intro q other g mem
    obtain ⟨nothing, pos⟩ := inv.apart other mem
    refine there g ?_
    rintro rfl
    omega
  · intro g mem
    obtain ⟨rfl, one, none⟩ | ⟨ne, old⟩ := made g mem
    · rw [here]
      exact ⟨one, none⟩
    · rw [there g ne]
      exact inv.made p g old

end Sistemas.Xv6.FileTable
