import Sistemas.Xv6.CallsPipe

/-! # `exit` and `wait`

A process that exits closes its files and keeps its memory; its parent gives back the memory when it
waits for it.
-/

namespace Sistemas.Xv6.Calls

open Vm (Mem pgsize InRam FreeList)
open Vm.Copy (copyout)
open Uvm
open Sysfile (nfile nofile)

variable {l : Layout} {tramp f g n : Nat} {fs gs hs : List Nat} {m m' : Mem} {s s' : State}
  {T : Fin nproc → Option Table} {t : Table} {p q pp : Fin nproc} {boot : Nat → Prop}
  {i j : Fin nfile} {loose : List (Fin nfile)} {fd : Fin nofile} {proc proc' : Proc}
  {r : Option Table}

/-! ## Fields that do not concern the memory -/

theorem Slot.same (slot : Slot proc r) (state : proc'.state = proc.state)
    (trapframe : proc'.trapframe = proc.trapframe) (pagetable : proc'.pagetable = proc.pagetable)
    (sz : proc'.sz = proc.sz) (ofile : proc'.ofile = proc.ofile) : Slot proc' r := by
  cases slot with
  | unused isUnused noFrame noTable zero closed =>
    exact .unused (state.trans isUnused) (trapframe.trans noFrame) (pagetable.trans noTable)
      (sz.trans zero) (ofile ▸ closed)
  | used notUnused frame root size zombie =>
    exact .used (state ▸ notUnused) (trapframe.trans frame) (pagetable.trans root) (sz ▸ size)
      (state ▸ ofile ▸ zombie)

/-! ## Closing all files -/

theorem pipeclose_setOfile (a : Nat) (w : Bool) (s : State) (p : Fin nproc) (fd : Fin nofile)
    (new : Option (Fin nfile)) : pipeclose l a w (s.setOfile p fd new) =
      (pipeclose l a w s).map fun s' => s'.setOfile p fd new := by
  rw [pipeclose, pipeclose, State.setOfile_mem]
  generalize storeInt s.mem (a + if w = true then writeopen else readopen) 0 = m
  split
  · cases liftVm (Vm.kfree l.kend a m) with
    | error e => rfl
    | ok m' => rfl
  · rfl

/-- The descriptor may as well be cleared before its file is closed. -/
theorem fileclose_setOfile (i : Fin nfile) (s : State) (p : Fin nproc) (fd : Fin nofile)
    (new : Option (Fin nfile)) : fileclose l i (s.setOfile p fd new) =
      (fileclose l i s).map fun s' => s'.setOfile p fd new := by
  rw [fileclose, fileclose, State.setOfile_file]
  dsimp only
  split
  · rfl
  split
  · rfl
  cases (s.file i).type with
  | none => rfl
  | inode => rfl
  | device => rfl
  | pipe => exact pipeclose_setOfile _ _ (s.setFile i _) p fd new

/-- A file is closed first, and its descriptor is cleared then. -/
theorem fileclose_clear (sound : Sound l tramp boot s [] T fs)
    (here : (s.proc p).ofile fd = some i) :
    ∃ s₁ gs, fileclose l i s = .ok s₁ ∧
      SameProcs T (s.setOfile p fd none) (s₁.setOfile p fd none) ∧
      Sound l tramp boot (s₁.setOfile p fd none) [] T gs := by
  obtain ⟨s₂, gs, ran, procs, sound₂⟩ := fileclose_spec (sound.take here)
  rw [fileclose_setOfile] at ran
  cases first : fileclose l i s with
  | error e =>
    rw [first] at ran
    cases ran
  | ok s₁ =>
    rw [first] at ran
    obtain rfl : s₁.setOfile p fd none = s₂ := Except.ok.inj ran
    exact ⟨s₁, gs, rfl, procs, sound₂⟩

/-- What is left of the descriptors. -/
structure Closed (p : Fin nproc) (fds : List (Fin nofile)) (s s' : State) : Prop where
  closed : ∀ fd, fd ∈ fds ∨ (s.proc p).ofile fd = none → (s'.proc p).ofile fd = none
  proc : s'.proc p = { s.proc p with ofile := (s'.proc p).ofile }

theorem closeLoop_spec (fds : List (Fin nofile)) (sound : Sound l tramp boot s [] T fs) :
    ∃ s' gs, closeLoop l p fds s = .ok s' ∧ Sound l tramp boot s' [] T gs ∧
      OwnFiles T s p s' ∧ Closed p fds s s' := by
  induction fds generalizing s fs with
  | nil =>
    refine ⟨s, fs, rfl, sound, (SameProcs.of_mem rfl rfl rfl).own p, ⟨fun fd here => ?_, rfl⟩⟩
    exact here.resolve_left List.not_mem_nil
  | cons fd fds ih =>
    rw [closeLoop]
    cases here : (s.proc p).ofile fd with
    | none =>
      obtain ⟨s', gs, ran, sound', own, rest⟩ := ih sound
      refine ⟨s', gs, ran, sound', own, ⟨fun fd' closed => rest.closed fd' ?_, rest.proc⟩⟩
      rw [List.mem_cons, or_assoc] at closed
      cases closed with
      | inl eq => exact .inr (eq ▸ here)
      | inr closed => exact closed
    | some i =>
      obtain ⟨s₁, gs, ran, procs, sound₂⟩ := fileclose_clear sound here
      dsimp only [bind, Except.bind]
      rw [ran]
      dsimp only
      obtain ⟨s', hs, ran', sound', own, rest⟩ := ih sound₂
      generalize s₁.setOfile p fd none = s₂ at procs sound₂ ran' own rest ⊢
      have same : s₂.proc p = { s.proc p with
          ofile := Function.update (s.proc p).ofile fd none } := by
        rw [procs.proc, State.setOfile, State.setProc_self]
      refine ⟨s', hs, ran', sound', (ownFiles_setOfile.trans (procs.own p)).trans own,
        ⟨fun fd' closed => rest.closed fd' ?_, ?_⟩⟩
      · rw [same]
        dsimp only
        by_cases eq : fd' = fd
        · exact .inr (by rw [eq, Function.update_self])
        · rw [List.mem_cons, or_assoc] at closed
          rw [Function.update_of_ne eq]
          exact closed.resolve_left eq
      · rw [rest.proc, same]

/-! ## `exit` -/

theorem leaveCwd_mem (s : State) (p : Fin nproc) : (s.leaveCwd p).mem = s.mem := by
  rw [State.leaveCwd]
  cases (s.proc p).cwd <;> rfl

theorem leaveCwd_file (s : State) (p : Fin nproc) : (s.leaveCwd p).file = s.file := by
  rw [State.leaveCwd]
  cases (s.proc p).cwd <;> rfl

theorem leaveCwd_init (s : State) (p : Fin nproc) : (s.leaveCwd p).initproc = s.initproc := by
  rw [State.leaveCwd]
  cases (s.proc p).cwd <;> rfl

theorem leaveCwd_proc (s : State) (p : Fin nproc) :
    (s.leaveCwd p).proc = Function.update s.proc p { s.proc p with cwd := none } := by
  rw [State.leaveCwd]
  cases (s.proc p).cwd <;> rfl

/-- What `exit` does when the files are closed. -/
def State.zombie (s : State) (p : Fin nproc) (status : Int) : State :=
  let s := (s.leaveCwd p).reparent p
  s.setProc p { s.proc p with xstate := status, state := .ZOMBIE }

theorem zombie_other {status : Int} (ne : q ≠ p) :
    (s.zombie p status).proc q = { s.proc q with parent := ((s.zombie p status).proc q).parent } := by
  rw [State.zombie]
  dsimp only
  rw [State.setProc_other _ _ ne, State.reparent]
  dsimp only
  rw [leaveCwd_proc, Function.update_of_ne ne]
  split <;> rfl

theorem zombie_self {status : Int} : (s.zombie p status).proc p = { s.proc p with
    parent := ((s.zombie p status).proc p).parent, cwd := none, xstate := status,
    state := .ZOMBIE } := by
  rw [State.zombie]
  dsimp only
  rw [State.setProc_self, State.reparent]
  dsimp only
  rw [leaveCwd_proc, Function.update_self]
  split <;> rfl

theorem exit_spec (sound : Sound l tramp boot s [] T fs) (live : (s.proc p).state ≠ .UNUSED)
    (notInit : p ≠ s.initproc) (status : Int) :
    ∃ s' gs, exit l p status s = .ok s' ∧ Outcome l tramp boot T s p s' T gs ∧
      SamePages T T s s' p := by
  obtain ⟨s₁, gs, ran, sound₁, own, rest⟩ := closeLoop_spec (p := p) (List.finRange nofile) sound
  have closed : ∀ fd, (s₁.proc p).ofile fd = none := fun fd =>
    rest.closed fd (.inl (List.mem_finRange fd))
  have state : (s₁.proc p).state ≠ .UNUSED := by
    rw [rest.proc]
    exact live
  rw [exit, if_neg notInit, ran]
  have mem : (s₁.zombie p status).mem = s₁.mem := leaveCwd_mem s₁ p
  have file : (s₁.zombie p status).file = s₁.file := leaveCwd_file s₁ p
  have init : (s₁.zombie p status).initproc = s₁.initproc := leaveCwd_init s₁ p
  refine ⟨s₁.zombie p status, gs, rfl, ⟨?_, init.trans own.init, fun q ne _ => .inl ⟨?_, rfl, ?_⟩⟩,
    rfl, mem ▸ own.pages⟩
  · refine sound₁.congr mem (fun q => ?_) file fun q => ?_
    · by_cases same : q = p
      · subst same
        have here := sound₁.slot q
        rw [zombie_self]
        generalize T q = r at here ⊢
        cases here with
        | unused isUnused => exact absurd isUnused state
        | used _ frame root size =>
          exact .used (fun no => by cases no) frame root size fun _ => closed
      · rw [zombie_other same]
        exact (sound₁.slot q).same rfl rfl rfl rfl rfl
    · by_cases same : q = p
      · rw [same, zombie_self]
      · rw [zombie_other same]
  · rw [zombie_other ne, own.proc q ne]
  · rw [mem]
    exact own.kept q ne

/-! ## `wait` -/

theorem copyStatus_spec (sound : Sound l tramp boot s [] T fs) (live : (s.proc p).state ≠ .UNUSED)
    (pp : Fin nproc) (addr : Nat) :
    ∃ ok m', copyStatus p pp addr s = .ok (ok, m') ∧ Sound l tramp boot (s.setMem m') [] T fs ∧
      (∀ q, q ≠ p → Kept s.mem m' (T q)) ∧ ∀ f, Pages m' (T p) f ↔ Pages s.mem (T p) f := by
  rw [copyStatus]
  split
  · obtain ⟨t, here, -⟩ := sound.live live
    obtain ⟨ok, m', ran, sound', kept, -, pages⟩ :=
      sound.copyout here addr 0 4 (intBytes (s.proc pp).xstate)
    rw [ran]
    exact ⟨ok, m', rfl, sound', kept, pages⟩
  · exact ⟨true, s.mem, rfl, sound, fun _ _ => .refl _ _, fun _ => .rfl⟩

/-- The memory of a process that has exited is given back. -/
theorem reap (sound : Sound l tramp boot s [] T fs) (zombie : (s.proc pp).state = .ZOMBIE) :
    ∃ m' gs, freeproc l pp s = .ok ((s.setMem m').setProc pp (s.proc pp).reset) ∧
      Sound l tramp boot ((s.setMem m').setProc pp (s.proc pp).reset) []
        (Function.update T pp none) gs ∧ ∀ q, q ≠ pp → Kept s.mem m' (T q) := by
  obtain ⟨t, here, holds⟩ := @Sound.live l tramp fs s T pp boot [] sound (by rw [zombie]; decide)
  have closed : ∀ fd, (s.proc pp).ofile fd = none := by
    have slot := sound.slot pp
    rw [here] at slot
    cases slot with
    | used _ _ _ _ none => exact none zombie
  obtain ⟨m', gs, freed, step⟩ := freeproc_table sound.linked (sound.ok here)
    (sound.ram_frame here) (sound.ram_root here) holds.trapframe holds.pagetable holds.size
  have step' : Step l.kend s.mem m' fs gs (Pages s.mem (T pp)) (Pages m' none) := by
    rw [here]
    exact step
  refine ⟨m', gs, freed, sound.step step' (fun _ no => by cases no) ?_
    (fun q ne => State.setProc_other _ _ ne) rfl ?_, fun q ne => ?_⟩
  · rw [State.setProc_self]
    exact .unused rfl rfl rfl rfl closed
  · rw [State.setProc_self]
    rfl
  · exact sound.spaces.kept (o := some pp) step' fun eq => ne (Option.some.inj eq)

theorem wait_spec (sound : Sound l tramp boot s [] T fs) (live : (s.proc p).state = .RUNNABLE)
    (addr : Nat) :
    ∃ r s' T' gs, wait l p addr s = .ok (r, s') ∧ Outcome l tramp boot T s p s' T' gs ∧
      SamePages T T' s s' p := by
  rw [wait]
  dsimp only
  split
  next pp found =>
    have zombie := List.find?_some found
    rw [decide_eq_true_eq] at zombie
    have notMe : p ≠ pp := by
      rintro rfl
      rw [zombie] at live
      cases live
    obtain ⟨ok, m₁, ran, sound₁, kept₁, pages₁⟩ :=
      copyStatus_spec sound (by rw [live]; decide) pp addr
    rw [ran]
    dsimp only [bind, Except.bind]
    cases ok with
    | false =>
      exact ⟨_, _, T, fs, rfl, ⟨sound₁, rfl, fun q ne _ => .inl ⟨rfl, rfl, kept₁ q ne⟩⟩, rfl, pages₁⟩
    | true =>
      obtain ⟨m', gs, freed, sound', kept⟩ := reap (s := s.setMem m₁) sound₁ zombie
      rw [if_neg (by decide), freed]
      refine ⟨_, _, _, gs, rfl, ⟨sound', rfl, fun q ne _ => ?_⟩, Function.update_of_ne notMe ..,
        fun f => ((kept p notMe).pages f).trans (pages₁ f)⟩
      by_cases reaped : q = pp
      · subst reaped
        exact .inr ⟨zombie, by rw [State.setProc_self]; rfl⟩
      · refine .inl ⟨?_, Function.update_of_ne reaped .., (kept₁ q ne).trans (kept q reaped)⟩
        rw [State.setProc_other _ _ reaped]
        rfl
  next => exact ⟨_, s, T, fs, rfl, .refl sound p, .refl T s p⟩

end Sistemas.Xv6.Calls
