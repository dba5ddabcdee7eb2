import Sistemas.Xv6.CallsExec
import Sistemas.Xv6.SystemBoot

/-! # Runs

Each call of a process that may run ends, and what holds between two calls holds again; so it holds
in all states that are reached from the first process on.
-/

namespace Sistemas.Xv6.Calls.System

open Vm
open Uvm
open Exec (Inode)
open Sysfile (nfile nofile)
open Namex (ninode)

variable {l : Layout} {tramp : Nat} {fs gs : List Nat} {m m' : Mem} {s s' : State}
  {T T' : Fin nproc → Option Table} {t : Table} {p q : Fin nproc} {boot : Nat → Prop}
  {moves : List (Fin nproc × Call)}

/-! ## One call -/

theorem setProc_same (s : State) (m : Mem) (p : Fin nproc) :
    (s.setMem m).setProc p (s.proc p) = s.setMem m := by
  rw [State.setProc, show s.proc p = (s.setMem m).proc p from rfl, Function.update_eq_self]

/-- What `sys_exec` makes of the state of the kernel. -/
theorem sysExec_sound (sound : Sound l tramp boot s [] T fs) (here : T p = some t)
    (running : (s.proc p).state = .RUNNABLE) (namei : List UInt8 → Option Inode)
    (upath uargv : Nat) :
    ∃ r p' m', Exec.sysExec l namei upath uargv (s.proc p) s.mem = .ok (r, p', m') ∧
      sysExec l p namei upath uargv s = .ok (r, (s.setMem m').setProc p p') ∧
      Replaced l tramp boot T s p m' r p' := by
  obtain ⟨r, p', m', ran, replaced⟩ := sysExec_spec sound here running namei upath uargv
  refine ⟨r, p', m', ran, ?_, replaced⟩
  rw [sysExec, ran]
  rfl

theorem Replaced.outcome {r : Option Nat} {p' : Proc}
    (replaced : Replaced l tramp boot T s p m' r p') :
    ∃ T' gs, Outcome l tramp boot T s p ((s.setMem m').setProc p p') T' gs := by
  cases replaced with
  | @failed gs sound kept =>
    rw [setProc_same]
    exact ⟨T, gs, sound, rfl, fun q _ _ => .inl ⟨rfl, rfl, kept q⟩⟩
  | @done p' argc t' gs sound kept state =>
    refine ⟨_, gs, sound, rfl, fun q ne _ => .inl ⟨?_, Function.update_of_ne ne .., kept q ne⟩⟩
    rw [State.setProc_other _ _ ne]
    rfl

/-- The calls that give a process another memory. -/
def Call.resizes : Call → Bool
  | .exec .. | .sbrk _ => true
  | .fork | .exit _ | .wait _ | .pipe _ | .close _ | .store .. => false

/-- A call ends, if it is not `init` that exits. -/
theorem call_spec (sound : Sound l tramp boot s [] T fs) (running : (s.proc p).state = .RUNNABLE)
    (c : Call) (stays : ∀ status, c = .exit status → p ≠ s.initproc) :
    ∃ s' T' gs, call l p s c = .ok s' ∧ Outcome l tramp boot T s p s' T' gs ∧
      (c.resizes = false → SamePages T T' s s' p) := by
  have live : (s.proc p).state ≠ .UNUSED := by
    rw [running]
    decide
  obtain ⟨t, here, -⟩ := sound.live live
  cases c with
  | fork =>
    obtain ⟨r, s', ran, forked⟩ := fork_spec sound here running
    rw [call, ran]
    cases forked with
    | @failed s' gs outcome same => exact ⟨s', T, gs, rfl, outcome, fun _ => same⟩
    | @child s' np t' gs child =>
      have ne : p ≠ np := by
        rintro rfl
        exact live child.unused
      exact ⟨s', _, gs, rfl, child.outcome, fun _ => ⟨Function.update_of_ne ne .., child.kept.pages⟩⟩
  | exec namei upath uargv =>
    obtain ⟨r, p', m', -, ran, replaced⟩ := sysExec_sound sound here running namei upath uargv
    obtain ⟨T', gs, outcome⟩ := Replaced.outcome replaced
    rw [call, ran]
    exact ⟨_, T', gs, rfl, outcome, fun no => by cases no⟩
  | sbrk n =>
    obtain ⟨r, s', T', gs, newsz, ran, outcome, -⟩ := sysSbrk_spec sound here running n
    rw [call, ran]
    exact ⟨s', T', gs, rfl, outcome, fun no => by cases no⟩
  | exit status =>
    obtain ⟨s', gs, ran, outcome, same⟩ := exit_spec sound live (stays status rfl) status
    exact ⟨s', T, gs, ran, outcome, fun _ => same⟩
  | wait addr =>
    obtain ⟨r, s', T', gs, ran, outcome, same⟩ := wait_spec sound running addr
    rw [call, ran]
    exact ⟨s', T', gs, rfl, outcome, fun _ => same⟩
  | pipe fdarray =>
    obtain ⟨r, s', gs, ran, outcome, same⟩ := sysPipe_spec sound running fdarray
    rw [call, ran]
    exact ⟨s', T, gs, rfl, outcome, fun _ => same⟩
  | close fd =>
    obtain ⟨r, s', gs, ran, outcome, same⟩ := sysClose_spec sound p fd
    rw [call, ran]
    exact ⟨s', T, gs, rfl, outcome, fun _ => same⟩
  | store va b =>
    obtain ⟨outcome, same⟩ := userStore_spec sound live va b
    exact ⟨_, T, fs, rfl, outcome, fun _ => same⟩

/-- The only panic is that `init` exits. -/
theorem call_panic (sound : Sound l tramp boot s [] T fs) (running : (s.proc p).state = .RUNNABLE)
    (c : Call) {e : Calls.Panic} (panics : call l p s c = .error e) :
    e = .initExiting ∧ p = s.initproc ∧ ∃ status, c = .exit status := by
  by_cases leaves : p = s.initproc ∧ ∃ status, c = .exit status
  · obtain ⟨isInit, status, eq⟩ := leaves
    subst eq
    rw [call, exit, if_pos isInit] at panics
    cases panics
    exact ⟨rfl, isInit, status, rfl⟩
  · obtain ⟨s', T', gs, ran, -, -⟩ := call_spec sound running c fun status eq isInit =>
      leaves ⟨isInit, status, eq⟩
    rw [ran] at panics
    cases panics

/-! ## Runs -/

theorem step_sound {move : Fin nproc × Call} (sound : Sound l tramp boot s [] T fs)
    (stepped : step l s move = some s') :
    (s.proc move.1).state = .RUNNABLE ∧
      ∃ T' gs, Outcome l tramp boot T s move.1 s' T' gs ∧
        (move.2.resizes = false → SamePages T T' s s' move.1) := by
  rw [step] at stepped
  split at stepped
  next running =>
    refine ⟨running, ?_⟩
    by_cases leaves : ∃ status, move.2 = .exit status ∧ move.1 = s.initproc
    · obtain ⟨status, eq, isInit⟩ := leaves
      rw [eq, call, exit, if_pos isInit] at stepped
      cases stepped
    · obtain ⟨s₁, T', gs, ran, outcome, same⟩ := call_spec sound running move.2 fun status eq isInit =>
        leaves ⟨status, eq, isInit⟩
      rw [ran] at stepped
      cases stepped
      exact ⟨T', gs, outcome, same⟩
  next => cases stepped

/-- What holds between two calls. -/
def Between (l : Layout) (tramp : Nat) (boot : Nat → Prop) (s : State) : Prop :=
  ∃ T fs, Sound l tramp boot s [] T fs

theorem step_between {move : Fin nproc × Call} (between : Between l tramp boot s)
    (stepped : step l s move = some s') : Between l tramp boot s' := by
  obtain ⟨T, fs, sound⟩ := between
  obtain ⟨-, T', gs, outcome, -⟩ := step_sound sound stepped
  exact ⟨T', gs, outcome.sound⟩

theorem run_sound (between : Between l tramp boot s)
    (run : Transition.exec (step l) s moves = some s') : Between l tramp boot s' :=
  Transition.exec_invariant (fun _ _ _ between stepped => step_between between stepped) between run

/-- The pages that the kernel took before the first process. -/
def BootPage (l : Layout) (m : Mem) (f : Nat) : Prop :=
  InRam l.kend f ∧ ∃ fs, FreeList l.kend m fs ∧ f ∉ fs

theorem booted_iff (free : FreeList l.kend m fs) (f : Nat) :
    BootPage l m f ↔ Booted l fs f := by
  have pos : 0 < l.kend := (Nat.succ_pos _).trans_le l.low
  constructor
  · rintro ⟨ram, gs, free', new⟩
    obtain rfl := free.unique pos free'
    exact ⟨ram, new⟩
  · exact fun booted => ⟨booted.1, fs, free, booted.2⟩

theorem Reachable.between (reach : Reachable l m s) :
    Between l (trampPage l) (BootPage l m) s := by
  obtain ⟨fs, root, s₀, moves, free, init, run⟩ := reach
  obtain ⟨r, ran, -, spec⟩ := userinit_spec free root
  rw [ran] at init
  obtain ⟨T, gs, sound, -⟩ := spec s₀ (Except.ok.inj init)
  exact run_sound ⟨T, gs, sound.sameBoot (booted_iff free)⟩ run

theorem Reachable.run (reach : Reachable l m s)
    (run : Transition.exec (step l) s moves = some s') : Reachable l m s' := by
  obtain ⟨fs, root, s₀, before, free, init, run₀⟩ := reach
  exact ⟨fs, root, s₀, before ++ moves, free, init,
    Transition.exec_append_eq_some.mpr ⟨s, run₀, run⟩⟩

/-! A small memory: sixteen free pages, of which the first process takes seven -/

def sixteenPages : Mem where
  bytes := (List.range 15).foldl
    (fun b i => b.store 8 ((0x80001 + i) * pgsize) ((0x80002 + i) * pgsize)) fun _ => 0
  freelist := 0x80001 * pgsize

def onePageKernel : Layout where
  kend := 0x80001000
  tramp := 0x80000000
  low := Nat.le_of_ble_eq_true rfl
  high := Nat.le_of_ble_eq_true rfl
  aligned := rfl
  text := Nat.le_of_ble_eq_true rfl

theorem sixteenPages_free : FreeList onePageKernel.kend sixteenPages
    ((List.range 16).map (0x80001 + ·)) where
  chain := by
    simp only [List.range, List.range.loop, List.map_cons, List.map_nil, Chain]
    decide +kernel
  nodup := by decide
  inRam := by
    unfold InRam
    decide

def firstSlot : Fin nproc := ⟨0, nproc_pos⟩

theorem one_lt_nproc : 1 < nproc := Nat.le_of_ble_eq_true rfl

def secondSlot : Fin nproc := ⟨1, one_lt_nproc⟩

/-- The state when the first process may run. -/
def firstState : State :=
  ((userinit onePageKernel ⟨0, ninode_pos⟩ (System.boot sixteenPages)).toOption.bind id).getD
    (System.boot sixteenPages)

theorem firstState_running : (firstState.proc firstSlot).state = .RUNNABLE := by
  decide +kernel

theorem firstState_reachable : Reachable onePageKernel sixteenPages firstState := by
  have running := firstState_running
  rw [firstState] at running ⊢
  cases init : userinit onePageKernel ⟨0, ninode_pos⟩ (System.boot sixteenPages) with
  | error e =>
    rw [init] at running
    cases running
  | ok r =>
    cases r with
    | none =>
      rw [init] at running
      cases running
    | some s => exact ⟨_, _, s, [], sixteenPages_free, init, rfl⟩

end Sistemas.Xv6.Calls.System
