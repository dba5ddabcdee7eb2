import Sistemas.Xv6.ProcessSched
import Sistemas.Xv6.ProcessLives

/-! # What a step is to one slot of the process table

`Slot` lists what can happen to a slot between `allocproc()` and `freeproc()`: it is filled in,
handed to its parent, started, orphaned, marked `ZOMBIE` and reaped, with the event that tells of
it; or it is left as it was, and the event tells of another process (`slot_step`).
-/

namespace Sistemas.Xv6.Process

variable {n m : Nat} {L K : Type}

/-- The states of a process that is there to be run count as one. -/
def Procstate.stage : Procstate → Procstate
  | .SLEEPING | .RUNNING => .RUNNABLE
  | state => state

/-- The status passed to the `exit()` that a thread is in. -/
def Point.exiting : Point n L K → Option Int
  | .exitFiles status _ | .exitReparent status _ | .exitLock status | .exitZombie status =>
    some status
  | .handler _ next | .wakeup _ _ next | .wakeupLocked _ _ next | .yield next | .yieldLocked next
  | .yieldRelease next | .sched next | .schedReturn _ next | .sleep _ _ next
  | .sleepRelease _ _ next | .sleepMark _ _ next | .sleepTidy _ _ next
  | .sleepReacquire _ _ next => next.exiting
  | _ => none

/-- The status of a process that has called `exit()`. -/
def Proc.exit (q : Proc n L K) : Option Int :=
  if q.state = .ZOMBIE then some q.xstate else q.context.exiting

theorem Proc.exit_congr {old new : Proc n L K} (stage : new.state.stage = old.state.stage)
    (xstate : new.xstate = old.xstate) (exiting : new.context.exiting = old.context.exiting) :
    new.exit = old.exit := by
  have zombie : new.state = .ZOMBIE ↔ old.state = .ZOMBIE := by
    revert stage
    cases new.state <;> cases old.state <;> decide
  unfold Proc.exit
  simp only [zombie, xstate, exiting]

/-- What a process is known by stays. -/
structure Proc.Alike (old new : Proc n L K) : Prop where
  stage : new.state.stage = old.state.stage
  pid : new.pid = old.pid
  parent : new.parent = old.parent
  xstate : new.xstate = old.xstate

theorem Proc.Alike.refl (old : Proc n L K) : old.Alike old := ⟨rfl, rfl, rfl, rfl⟩

theorem Table.set_alike {t : Table n L K} {r q : Fin n} {f : Proc n L K → Proc n L K}
    (alike : q = r → (t.proc r).Alike (f (t.proc r))) :
    (t.proc q).Alike ((t.set r f).proc q) := by
  by_cases same : q = r
  · have alike := alike same
    subst same
    rwa [Table.set_self]
  · rw [Table.set_of_ne _ same]
    exact .refl _

/-- What a step of `c` with the event `e` makes of slot `q`. -/
inductive State.Slot (s : State n m L K) (c : Fin m) (q : Fin n) (e : Option Event)
    (new : Proc n L K) : Prop where
  | kept (stage : new.state.stage = (s.proc q).state.stage) (pid : new.pid = (s.proc q).pid)
      (parent : new.parent = (s.proc q).parent) (exit : new.exit = (s.proc q).exit)
      (other : ∀ event subject, e = some event → event.subject = some subject →
        ∃ r, r ≠ q ∧ (s.proc r).state ≠ .UNUSED ∧ subject = (s.proc r).pid)
  | used (p : Fin n) (named : Int) (on : (s.cpu c).thread = some p)
      (here : s.point c = .allocUsed q named)
      (free : (s.proc q).state = .UNUSED) (state : new.state = .USED) (pid : new.pid = named)
      (parent : new.parent = (s.proc q).parent) (quiet : e = none)
  | forked (p : Fin n) (on : (s.cpu c).thread = some p) (here : s.point c = .forkParentLocked q)
      (state : new.state = (s.proc q).state) (pid : new.pid = (s.proc q).pid)
      (parent : new.parent = some p) (exit : new.exit = (s.proc q).exit)
      (told : e = some (.forked (s.proc p).pid (s.proc q).pid))
  | started (p : Fin n) (on : (s.cpu c).thread = some p)
      (here : s.point c = .forkRunnableLocked q)
      (state : new.state = .RUNNABLE) (pid : new.pid = (s.proc q).pid)
      (parent : new.parent = (s.proc q).parent) (exit : new.exit = (s.proc q).exit)
      (quiet : e = none)
  | exits (status : Int) (on : (s.cpu c).thread = some q) (here : s.point c = .kernel [])
      (ordinary : q ≠ s.initproc) (state : new.state = (s.proc q).state)
      (pid : new.pid = (s.proc q).pid) (parent : new.parent = (s.proc q).parent)
      (exit : new.exit = some status) (told : e = some (.exited (s.proc q).pid status))
  | orphaned (p : Fin n) (status : Int) (on : (s.cpu c).thread = some p)
      (here : s.point c = .exitReparent status q) (child : (s.proc q).parent = some p)
      (state : new.state = (s.proc q).state) (pid : new.pid = (s.proc q).pid)
      (parent : new.parent = some s.initproc) (exit : new.exit = (s.proc q).exit)
      (quiet : e = none)
  | zombie (status : Int) (on : (s.cpu c).thread = some q)
      (here : s.point c = .exitZombie status) (state : new.state = .ZOMBIE)
      (pid : new.pid = (s.proc q).pid) (parent : new.parent = (s.proc q).parent)
      (exit : new.exit = (s.proc q).exit) (quiet : e = none)
  | failed (p : Fin n) (on : (s.cpu c).thread = some p)
      (here : s.point c = .allocInit q ∨ s.point c = .forkCopy q)
      (state : new.state = .UNUSED) (parent : new.parent = none)
      (told : e = some (.forkFailed (s.proc q).pid))
  | reaped (p : Fin n) (addr : Nat) (on : (s.cpu c).thread = some p)
      (here : s.point c = .waitChild addr q) (zombie : (s.proc q).state = .ZOMBIE)
      (state : new.state = .UNUSED) (parent : new.parent = none)
      (told : e = some (.reaped (s.proc p).pid (s.proc q).pid (s.proc q).xstate))

namespace State

variable [DecidableEq K] {s s' : State n m L K} {c : Fin m} {p q : Fin n} {dest : Point n L K}
  {t : Table n L K} {e : Option Event}

theorem exiting_step (coh : s.Coherent) (stepped : s.Stepped c dest t e s')
    (keeps : (s.cpu c).thread = some q → dest.exiting = (s.point c).exiting) :
    (s'.proc q).context.exiting = (s.proc q).context.exiting := by
  by_cases on : (s.cpu c).thread = some q
  · rw [stepped.context_self on, keeps on, point_of_thread on]
  · rcases stepped.context_of_ne coh on with same | ⟨new, old | ⟨b, old⟩⟩
    · rw [same]
    · rw [new, old]
    · rw [new, old]
      rfl

theorem slot_step (coh : s.Coherent) (stepped : s.Stepped c dest t e s') (q : Fin n) :
    s.Slot c q e (s'.proc q) := by
  have flow := stepped.flow
  have fields := stepped.fields q
  have exiting := exiting_step (q := q) coh stepped
  have claimed := coh.claimed c
  have used := fun {r} busy ready child => (coh.filled_point (c := c) (q := r) busy ready child).1
  have runs := fun on => coh.running c q on
  have mine := fun on : (s.cpu c).thread = some q => point_of_thread on
  generalize on : (s.cpu c).thread = me at flow
  generalize here : s.point c = point at flow exiting
  have kept : ∀ {u : Table n L K}, t = u → (s.proc q).Alike (u.proc q) →
      (me = some q → dest.exiting = point.exiting) →
      (∀ event subject, e = some event → event.subject = some subject →
        ∃ r, r ≠ q ∧ (s.proc r).state ≠ .UNUSED ∧ subject = (s.proc r).pid) →
      s.Slot c q e (s'.proc q) := by
    rintro u rfl alike keeps other
    rw [fields]
    exact .kept alike.stage alike.pid alike.parent
      (Proc.exit_congr alike.stage alike.xstate (exiting (on ▸ keeps))) other
  cases flow with
  | wakeupRelease me ch r nx =>
    refine kept rfl ?_ (fun _ => rfl) nofun
    unfold Table.wake
    split
    · rename_i asleep
      exact Table.set_alike fun _ => ⟨by rw [asleep.1]; rfl, rfl, rfl, rfl⟩
    · exact .refl _
  | yieldMark p nx =>
    refine kept rfl (Table.set_alike fun same => ⟨?_, rfl, rfl, rfl⟩) (fun _ => rfl) nofun
    subst same
    rw [runs on, ← mine on, here]
    rfl
  | sleepMark p ch lk nx =>
    refine kept rfl (Table.set_alike fun same => ⟨?_, rfl, rfl, rfl⟩) (fun _ => rfl) nofun
    subst same
    rw [runs on, ← mine on, here]
    rfl
  | sleepTidy | setkilledRelease | allocInit =>
    exact kept rfl (Table.set_alike fun _ => ⟨rfl, rfl, rfl, rfl⟩) (fun _ => rfl) nofun
  | killFound p pid r =>
    refine kept rfl (Table.set_alike fun _ => ⟨?_, rfl, rfl, rfl⟩) (fun _ => rfl) nofun
    by_cases asleep : (s.proc r).state = .SLEEPING
    · simp [asleep, Procstate.stage]
    · simp [asleep]
  | schedulerRun r runnable =>
    refine kept rfl (Table.set_alike fun _ => ⟨?_, rfl, rfl, rfl⟩) (fun _ => rfl) nofun
    rw [runnable]
    rfl
  | allocpidRelease => exact kept rfl (.refl _) (fun _ => rfl) nofun
  | allocUsed p r pid =>
    by_cases same : q = r
    · subst same
      rw [fields, Table.set_self]
      exact .used p pid on here (claimed q (by rw [here]; rfl)) rfl rfl rfl rfl
    · exact kept rfl (Table.set_alike fun also => absurd also same) (fun _ => rfl) nofun
  | allocFail p r | forkFail p r =>
    by_cases same : q = r
    · subst same
      rw [fields, Table.freeproc, Table.set_self]
      exact .failed p on (by simp [here]) rfl rfl rfl
    · refine kept rfl (Table.set_alike fun also => absurd also same) (fun _ => rfl) ?_
      rintro - - ⟨⟩ ⟨⟩
      exact ⟨r, Ne.symm same, by simp [used (by simp [on]) _ (by rw [here]; rfl)], rfl⟩
  | forkPublish p r =>
    by_cases same : q = r
    · subst same
      rw [fields, Table.set_self]
      exact .forked p on here rfl rfl rfl (Proc.exit_congr rfl rfl (exiting (on ▸ fun _ => rfl))) rfl
    · refine kept rfl (Table.set_alike fun also => absurd also same) (fun _ => rfl) ?_
      rintro - - ⟨⟩ ⟨⟩
      exact ⟨r, Ne.symm same, by simp [used (by simp [on]) _ (by rw [here]; rfl)], rfl⟩
  | forkDone p r =>
    by_cases same : q = r
    · subst same
      have before := used (r := q) (by simp [on]) _ (by rw [here]; rfl)
      rw [fields, Table.set_self]
      refine .started p on here rfl rfl rfl ?_ rfl
      simp only [Proc.exit, before, reduceCtorEq, if_false]
      exact exiting (on ▸ fun _ => rfl)
    · exact kept rfl (Table.set_alike fun also => absurd also same) (fun _ => rfl) nofun
  | exit p status ordinary =>
    by_cases same : q = p
    · subst same
      rw [fields]
      refine .exits status on here ordinary rfl rfl rfl ?_ rfl
      have running := runs on
      rw [← mine on, here] at running
      simp only [Proc.exit, running, stepped.context_self on]
      rfl
    · refine kept rfl (.refl _) (fun also => absurd (Option.some.inj also).symm same) ?_
      rintro - - ⟨⟩ ⟨⟩
      refine ⟨p, Ne.symm same, ?_, rfl⟩
      rw [coh.running c p on]
      exact (Point.state_busy _).1
  | reparentChild p status r child =>
    by_cases same : q = r
    · subst same
      rw [fields, Table.set_self]
      exact .orphaned p status on here child rfl rfl rfl
        (Proc.exit_congr rfl rfl (exiting (on ▸ fun _ => rfl))) rfl
    · exact kept rfl (Table.set_alike fun also => absurd also same) (fun _ => rfl) nofun
  | exitZombie p status =>
    by_cases same : q = p
    · subst same
      have running := runs on
      rw [← mine on, here] at running
      rw [fields, Table.set_self]
      refine .zombie status on here rfl rfl rfl ?_ rfl
      simp only [Proc.exit, running, ← mine on, here]
      rfl
    · exact kept rfl (Table.set_alike fun also => absurd also same)
        (fun also => absurd (Option.some.inj also).symm same) nofun
  | waitReap p addr r zombie =>
    by_cases same : q = r
    · subst same
      rw [fields, Table.freeproc, Table.set_self]
      exact .reaped p addr on here zombie rfl rfl rfl
    · refine kept rfl (Table.set_alike fun also => absurd also same) (fun _ => rfl) ?_
      rintro - - ⟨⟩ ⟨⟩
      exact ⟨r, Ne.symm same, by simp [zombie], rfl⟩
  | fork => exact kept rfl (.refl _) (fun _ => rfl) (by rintro - - ⟨⟩ ⟨⟩)
  | _ => exact kept rfl (.refl _) (fun _ => rfl) nofun

end State

end Sistemas.Xv6.Process
