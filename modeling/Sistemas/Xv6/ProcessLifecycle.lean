import Sistemas.Xv6.ProcessNumbers

/-! # Every exit is reaped once

The events of a run are those of lives that `Lives.step` accepts: what a slot of the process table
holds is the life of its pid (`Recorded`), and each step keeps it so (`recorded_step`).
-/

namespace Sistemas.Xv6.Process

open Sistemas.Transition

variable {n m : Nat} {L K : Type}

/-- A process that has a creator, and has called `exit()` with a status or not. -/
def Life.of (creator : Option Int) : Option Int → Life
  | none => .alive creator
  | some status => .exited creator status

namespace State

/-- The table holds the lives of the pids drawn. -/
structure Recorded (a : Nat) (lives : Lives) (s : State n m L K) : Prop where
  beyond : ∀ pid, (a : Int) + 1 < pid → lives pid = .unborn
  pending : ∀ p q pid, (s.proc p).context = .allocUsed q pid → lives pid = .unborn
  first : lives initpid = .alive none
  unborn : ∀ q, (s.proc q).state ≠ .UNUSED → (s.proc q).parent = none → q ≠ s.initproc →
    lives (s.proc q).pid = .unborn
  child : ∀ q r, (s.proc q).parent = some r → ∃ creator,
    (creator = (s.proc r).pid ∨ (r = s.initproc ∧ (lives creator).Gone)) ∧
      lives (s.proc q).pid = .of (some creator) (s.proc q).exit

end State

def Lives.after (lives : Lives) : Option Event → Option Lives
  | none => some lives
  | some event => lives.step event

theorem Lives.after_of_ne {lives lives' : Lives} {e : Option Event} {pid : Int}
    (after : lives.after e = some lives')
    (other : ∀ event, e = some event → event.subject ≠ some pid) : lives' pid = lives pid := by
  cases e with
  | none =>
    cases after
    rfl
  | some event => exact step_of_ne after (other event rfl)

theorem Lives.after_gone {lives lives' : Lives} {e : Option Event} {pid : Int}
    (after : lives.after e = some lives') (gone : (lives pid).Gone) : (lives' pid).Gone := by
  cases e with
  | none =>
    cases after
    exact gone
  | some event => exact step_gone after gone

section Flows

variable [DecidableEq K] {t t' : Table n L K} {c : Cpu n L K} {me : Option (Fin n)} {p q : Fin n}
  {point next : Point n L K} {event : Event}

/-- What each event tells of. -/
theorem Flow.told (flow : Flow t c me point next t' (some event)) :
    ∃ p, me = some p ∧ ((event = .fork (t.proc p).pid) ∨
      (∃ q, point = .forkParentLocked q ∧ event = .forked (t.proc p).pid (t.proc q).pid) ∨
      (∃ q, (point = .allocInit q ∨ point = .forkCopy q) ∧
        event = .forkFailed (t.proc q).pid) ∨
      (∃ status, point = .kernel [] ∧ p ≠ t.initproc ∧ event = .exited (t.proc p).pid status) ∨
      ∃ addr q, point = .waitChild addr q ∧ (t.proc q).state = .ZOMBIE ∧
        event = .reaped (t.proc p).pid (t.proc q).pid (t.proc q).xstate) := by
  cases flow with
  | fork p => exact ⟨p, rfl, .inl rfl⟩
  | forkPublish p q => exact ⟨p, rfl, .inr (.inl ⟨q, rfl, rfl⟩)⟩
  | allocFail p q => exact ⟨p, rfl, .inr (.inr (.inl ⟨q, .inl rfl, rfl⟩))⟩
  | forkFail p q => exact ⟨p, rfl, .inr (.inr (.inl ⟨q, .inr rfl, rfl⟩))⟩
  | exit p status ordinary =>
    exact ⟨p, rfl, .inr (.inr (.inr (.inl ⟨status, rfl, ordinary, rfl⟩)))⟩
  | waitReap p addr q zombie =>
    exact ⟨p, rfl, .inr (.inr (.inr (.inr ⟨addr, q, rfl, zombie, rfl⟩)))⟩

end Flows

namespace State

variable [DecidableEq K] {s s' : State n m L K} {c : Fin m} {p q r : Fin n} {dest : Point n L K}
  {t : Table n L K} {e : Option Event} {event : Event} {a : Nat} {lives lives' : Lives}

omit [DecidableEq K] in
theorem exit_of_kernel (coh : s.Coherent) (on : (s.cpu c).thread = some p) {point : Point n L K}
    (here : s.point c = point) (outside : point.exiting = none)
    (running : point.state = .RUNNING) : (s.proc p).exit = none := by
  have state := coh.running c p on
  rw [← point_of_thread on, here, running] at state
  rw [Proc.exit, state, ← point_of_thread on, here, outside]
  rfl

omit [DecidableEq K] in
/-- A process that has not called `exit()` and is not being made is alive. -/
theorem alive (lineage : s.Lineage) (recorded : s.Recorded a lives)
    (used : (s.proc p).state ≠ .UNUSED ∧ (s.proc p).state ≠ .USED) (exit : (s.proc p).exit = none) :
    ∃ creator, lives (s.proc p).pid = .alive creator := by
  cases parent : (s.proc p).parent with
  | none =>
    obtain rfl := lineage.settled p used.1 used.2 parent
    rw [lineage.first.2.1]
    exact ⟨none, recorded.first⟩
  | some r =>
    obtain ⟨creator, -, life⟩ := recorded.child p r parent
    rw [exit] at life
    exact ⟨some creator, life⟩

omit [DecidableEq K] in
theorem newborn_unborn (coh : s.Coherent) (lineage : s.Lineage) (recorded : s.Recorded a lives)
    (on : (s.cpu c).thread = some p) (newborn : (s.point c).newborn = some (q, false)) :
    lives (s.proc q).pid = .unborn := by
  have used := newborn_used coh on newborn
  rw [point_of_thread on] at newborn
  have parent := lineage.newborn p q false newborn
  refine recorded.unborn q (by simp [used]) (by simpa using parent) ?_
  rintro rfl
  have first := lineage.first.1
  rw [used] at first
  cases first

/-- Every event is one that the lives allow. -/
theorem told_step (coh : s.Coherent) (lineage : s.Lineage) (recorded : s.Recorded a lives)
    (stepped : s.Stepped c dest t (some event) s') : ∃ lives', lives.step event = some lives' := by
  obtain ⟨p, on, told⟩ := stepped.flow.told
  rcases told with rfl | ⟨q, here, rfl⟩ | ⟨q, here, rfl⟩ | ⟨status, here, ordinary, rfl⟩ |
    ⟨addr, q, here, zombie, rfl⟩
  · exact ⟨_, rfl⟩
  · have life := newborn_unborn (q := q) coh lineage recorded on (by rw [here]; rfl)
    simp [Lives.step, life]
  · have newborn : (s.point c).newborn = some (q, false) := by
      rcases here with here | here <;> rw [here] <;> rfl
    simp [Lives.step, newborn_unborn coh lineage recorded on newborn]
  · obtain ⟨creator, life⟩ := alive lineage recorded (mover_runnable coh on)
      (exit_of_kernel coh on here rfl rfl)
    simp [Lives.step, life]
  · have parent := lineage.scanned p addr q (by rw [← point_of_thread on, here])
    obtain ⟨creator, whose, life⟩ := recorded.child q p parent
    have guardian : (s.proc p).pid = lives.guardian creator := by
      unfold Lives.guardian
      rcases whose with rfl | ⟨rfl, gone⟩
      · obtain ⟨creator, life⟩ := alive lineage recorded (mover_runnable coh on)
          (exit_of_kernel coh on here rfl rfl)
        simp [life, Life.Gone]
      · rw [if_pos gone, lineage.first.2.1]
    simp only [Proc.exit, zombie, if_true, Life.of] at life
    simp [Lives.step, life, guardian]

theorem subject_live (coh : s.Coherent) (stepped : s.Stepped c dest t (some event) s')
    {subject : Int} (about : event.subject = some subject) :
    ∃ r, (s.proc r).state ≠ .UNUSED ∧ subject = (s.proc r).pid := by
  obtain ⟨p, on, told⟩ := stepped.flow.told
  rcases told with rfl | ⟨q, here, rfl⟩ | ⟨q, here, rfl⟩ | ⟨status, here, ordinary, rfl⟩ |
    ⟨addr, q, here, zombie, rfl⟩
  · cases about
  · cases about
    exact ⟨q, by simp [newborn_used (q := q) coh on (by rw [here]; rfl)], rfl⟩
  · cases about
    have newborn : (s.point c).newborn = some (q, false) := by
      rcases here with here | here <;> rw [here] <;> rfl
    exact ⟨q, by simp [newborn_used coh on newborn], rfl⟩
  · cases about
    exact ⟨p, (mover_runnable coh on).1, rfl⟩
  · cases about
    exact ⟨q, by simp [zombie], rfl⟩

/-- The parent of a process stays what it is known by. -/
theorem parent_pid (coh : s.Coherent) (lineage : s.Lineage) (stepped : s.Stepped c dest t e s')
    (child : (s.proc q).parent = some r) : (s'.proc r).pid = (s.proc r).pid := by
  have ready : (s.proc r).state.stage = .RUNNABLE := by
    by_contra other
    exact lineage.childless r q (.inl other) child
  have live : (s'.proc r).state ≠ .UNUSED := by
    cases slot_step coh stepped r with
    | kept stage =>
      intro unused
      rw [← stage, unused] at ready
      cases ready
    | used p pid on here free state => simp [state]
    | forked p on here state | orphaned p status on here child state | exits status on here _ state =>
      rw [state]
      intro unused
      rw [unused] at ready
      cases ready
    | started p on here state => simp [state]
    | zombie status on here state => simp [state]
    | failed p on here =>
      have newborn : (s.point c).newborn = some (r, false) := by
        rcases here with here | here <;> rw [here] <;> rfl
      rw [newborn_used coh on newborn] at ready
      cases ready
    | reaped p addr on here zombie =>
      rw [zombie] at ready
      cases ready
  rcases live_step coh stepped live with ⟨-, pid⟩ | ⟨p, on, here⟩
  · exact pid
  · rw [coh.claimed c r (by rw [here]; rfl)] at ready
    cases ready

theorem mover_pid (coh : s.Coherent) (stepped : s.Stepped c dest t e s')
    (on : (s.cpu c).thread = some p) : (s'.proc p).pid = (s.proc p).pid := by
  obtain ⟨used, filled⟩ := mover_runnable coh on
  cases slot_step coh stepped p with
  | kept stage pid => exact pid
  | used r named on here free => exact absurd free used
  | forked r on here state pid => exact pid
  | started r on here state pid => exact pid
  | exits status on here ordinary state pid => exact pid
  | orphaned r status on here child state pid => exact pid
  | zombie status on here state pid => exact pid
  | failed r mover here =>
    have newborn : (s.point c).newborn = some (p, false) := by
      rcases here with here | here <;> rw [here] <;> rfl
    exact absurd (newborn_used coh mover newborn) filled
  | reaped r addr mover here zombie =>
    have running := coh.running c p on
    rw [← point_of_thread on, here, zombie] at running
    cases running

omit [DecidableEq K] in
theorem exiting_gone (coh : s.Coherent) (lineage : s.Lineage) (recorded : s.Recorded a lives)
    {status : Int} (on : (s.cpu c).thread = some p) (here : s.point c = .exitReparent status q) :
    (lives (s.proc p).pid).Gone := by
  have exit : (s.proc p).exit = some status := by
    have running := coh.running c p on
    rw [← point_of_thread on, here] at running
    rw [Proc.exit, running, ← point_of_thread on, here]
    rfl
  obtain ⟨used, filled⟩ := mover_runnable coh on
  cases parent : (s.proc p).parent with
  | none => exact absurd (lineage.settled p used filled parent) (lineage.exits p status exit)
  | some r =>
    obtain ⟨creator, -, life⟩ := recorded.child p r parent
    rw [life, exit]
    trivial

section Record

variable (coh : s.Coherent) (lineage : s.Lineage) (numbered : s.Numbered a)
  (recorded : s.Recorded a lives) (stepped : s.Stepped c dest t e s')
  (after : lives.after e = some lives')
include coh numbered recorded stepped after

theorem record_beyond {pid : Int} (beyond : (a : Int) + 1 < pid) : lives' pid = .unborn := by
  rw [Lives.after_of_ne after, recorded.beyond pid beyond]
  rintro event rfl about
  obtain ⟨r, live, rfl⟩ := subject_live coh stepped about
  have := (numbered.range r live).2
  omega

theorem record_pending {pid : Int} (pending : (s'.proc p).context = .allocUsed q pid)
    (room : a + (s.point c).draws + 1 ≤ intMax) : lives' pid = .unborn := by
  by_cases on : (s.cpu c).thread = some p
  · have flow := stepped.flow
    rw [stepped.context_self on] at pending
    subst pending
    obtain ⟨here, rfl, rfl⟩ := flow.to_used (coh.sound_point c)
    cases after
    refine recorded.beyond _ ?_
    rw [here] at room
    simp only [Point.draws, Nat.cast_one] at room
    rw [numbered.counter, wrapInt_eq (by omega) (by omega)]
    omega
  · rcases stepped.context_of_ne coh on with same | ⟨new, -⟩
    · rw [same] at pending
      rw [Lives.after_of_ne after, recorded.pending p q pid pending]
      rintro event rfl about
      obtain ⟨r, live, rfl⟩ := subject_live coh stepped about
      exact (numbered.pending p q _ pending).2 r live rfl
    · rw [new] at pending
      cases pending

omit [DecidableEq K] coh recorded stepped in
/-- A slot that an event is not about keeps its life. -/
theorem record_kept (live : (s.proc q).state ≠ .UNUSED)
    (other : ∀ event subject, e = some event → event.subject = some subject →
      ∃ r, r ≠ q ∧ (s.proc r).state ≠ .UNUSED ∧ subject = (s.proc r).pid) :
    lives' (s.proc q).pid = lives (s.proc q).pid := by
  refine Lives.after_of_ne after ?_
  rintro event told about
  obtain ⟨r, ne, alive, same⟩ := other event _ told about
  exact ne (numbered.distinct r q alive live same.symm)

include lineage

theorem record_first : lives' initpid = .alive none := by
  rw [Lives.after_of_ne after, recorded.first]
  rintro event rfl about
  have turn := after
  rcases Lives.step_cases turn with ⟨⟨caller, rfl⟩, -⟩ | ⟨pid, life, subject, turns, -⟩
  · cases about
  · obtain rfl := Option.some.inj (about.symm.trans subject)
    rw [recorded.first] at turns
    cases turns with
    | exited _ status creator =>
      cases about
      obtain ⟨p, on, told⟩ := stepped.flow.told
      simp only [reduceCtorEq, and_false, exists_false, false_or, or_false, Event.exited.injEq]
        at told
      obtain ⟨-, -, ordinary, same, -⟩ := told
      rw [← lineage.first.2.1] at same
      have live : (s.proc s.initproc).state ≠ .UNUSED := by
        intro unused
        have ready := lineage.first.1
        rw [unused] at ready
        cases ready
      exact ordinary (numbered.distinct _ _ live (mover_runnable coh on).1 same).symm

theorem record_unborn (live : (s'.proc q).state ≠ .UNUSED) (orphan : (s'.proc q).parent = none)
    (other : q ≠ s.initproc) : lives' (s'.proc q).pid = .unborn := by
  cases slot_step coh stepped q with
  | kept stage pid parent exit told =>
    have before : (s.proc q).state ≠ .UNUSED := by
      rcases live_step coh stepped live with ⟨before, -⟩ | ⟨p, on, here⟩
      · exact before
      · intro unused
        rw [unused] at stage
        revert stage
        cases state : (s'.proc q).state with
        | UNUSED => exact absurd state live
        | _ => decide
    rw [pid, record_kept numbered after before told]
    exact recorded.unborn q before (parent ▸ orphan) other
  | used p named on here free state pid parent quiet =>
    subst quiet
    cases after
    rw [pid]
    exact recorded.pending p q named (by rw [← point_of_thread on, here])
  | forked p on here state pid parent =>
    rw [parent] at orphan
    cases orphan
  | started p on here state pid parent exit quiet =>
    subst quiet
    cases after
    have used := newborn_used (q := q) coh on (by rw [here]; rfl)
    rw [pid]
    exact recorded.unborn q (by simp [used]) (parent ▸ orphan) other
  | exits status on here ordinary state pid parent =>
    obtain ⟨used, filled⟩ := mover_runnable coh on
    exact absurd (lineage.settled q used filled (parent ▸ orphan)) other
  | orphaned p status on here child state pid parent =>
    rw [parent] at orphan
    cases orphan
  | zombie status on here state pid parent =>
    obtain ⟨used, filled⟩ := mover_runnable coh on
    exact absurd (lineage.settled q used filled (parent ▸ orphan)) other
  | failed p on here state => exact absurd state live
  | reaped p addr on here zombie state => exact absurd state live

omit numbered recorded in
/-- The creator of a child stays its parent, or one that has exited. -/
theorem record_creator {creator : Int} (child : (s.proc q).parent = some r)
    (whose : creator = (s.proc r).pid ∨ (r = s.initproc ∧ (lives creator).Gone)) :
    creator = (s'.proc r).pid ∨ (r = s.initproc ∧ (lives' creator).Gone) := by
  rcases whose with rfl | ⟨rfl, gone⟩
  · exact .inl (parent_pid coh lineage stepped child).symm
  · exact .inr ⟨rfl, Lives.after_gone after gone⟩

theorem record_child (child : (s'.proc q).parent = some r) : ∃ creator,
    (creator = (s'.proc r).pid ∨ (r = s.initproc ∧ (lives' creator).Gone)) ∧
      lives' (s'.proc q).pid = .of (some creator) (s'.proc q).exit := by
  have creator_kept : ∀ creator, (s.proc q).parent = some r →
      (creator = (s.proc r).pid ∨ (r = s.initproc ∧ (lives creator).Gone)) →
        creator = (s'.proc r).pid ∨ (r = s.initproc ∧ (lives' creator).Gone) := fun creator =>
    record_creator coh lineage stepped after
  have live : ∀ {r}, (s.proc q).parent = some r → (s.proc q).state ≠ .UNUSED := by
    intro r before unused
    rw [lineage.free q unused] at before
    cases before
  cases slot_step coh stepped q with
  | kept stage pid parent exit told =>
    rw [parent] at child
    obtain ⟨creator, whose, life⟩ := recorded.child q r child
    refine ⟨creator, creator_kept creator child whose, ?_⟩
    rw [pid, record_kept numbered after (live child) told, life, exit]
  | used p named on here free state pid parent =>
    rw [parent, lineage.free q free] at child
    cases child
  | forked p on here state pid parent exit told =>
    rw [parent, Option.some.injEq] at child
    subst child
    subst told
    have filled := coh.filled_point (c := c) (q := q) (by simp [on]) true (by rw [here]; rfl)
    have new : (s.proc q).exit = none := by
      rw [Proc.exit, filled.1, filled.2 rfl]
      rfl
    have life := newborn_unborn (q := q) coh lineage recorded on (by rw [here]; rfl)
    simp only [Lives.after, Lives.step, life, Option.some.injEq] at after
    refine ⟨(s.proc p).pid, .inl (mover_pid coh stepped on).symm, ?_⟩
    rw [pid, exit, new, ← after, Function.update_self]
    rfl
  | started p on here state pid parent exit quiet =>
    subst quiet
    cases after
    rw [parent] at child
    obtain ⟨creator, whose, life⟩ := recorded.child q r child
    exact ⟨creator, creator_kept creator child whose, by rw [pid, life, exit]⟩
  | exits status on here ordinary state pid parent exit told =>
    rw [parent] at child
    obtain ⟨creator, whose, life⟩ := recorded.child q r child
    refine ⟨creator, creator_kept creator child whose, ?_⟩
    subst told
    rw [exit_of_kernel coh on here rfl rfl] at life
    simp only [Lives.after, Lives.step, life, Life.of, Option.some.injEq] at after
    rw [pid, exit, ← after, Function.update_self]
    rfl
  | orphaned p status on here before state pid parent exit quiet =>
    subst quiet
    cases after
    rw [parent, Option.some.injEq] at child
    subst child
    obtain ⟨creator, whose, life⟩ := recorded.child q p before
    refine ⟨creator, .inr ⟨rfl, ?_⟩, by rw [pid, life, exit]⟩
    rcases whose with rfl | ⟨-, gone⟩
    · exact exiting_gone coh lineage recorded on here
    · exact gone
  | zombie status on here state pid parent exit quiet =>
    subst quiet
    cases after
    rw [parent] at child
    obtain ⟨creator, whose, life⟩ := recorded.child q r child
    exact ⟨creator, creator_kept creator child whose, by rw [pid, life, exit]⟩
  | failed p on here state parent =>
    rw [parent] at child
    cases child
  | reaped p addr on here zombie state parent =>
    rw [parent] at child
    cases child

theorem recorded_step (room : a + (s.point c).draws + 1 ≤ intMax) :
    s'.Recorded (a + (s.point c).draws) lives' where
  beyond pid beyond := by
    refine record_beyond coh numbered recorded stepped after ?_
    push_cast at beyond
    omega
  pending p q pid pending := record_pending coh numbered recorded stepped after pending room
  first := record_first coh lineage numbered recorded stepped after
  unborn q live orphan other := by
    rw [initproc_step stepped] at other
    exact record_unborn coh lineage numbered recorded stepped after live orphan other
  child q r child := by
    rw [initproc_step stepped]
    exact record_child coh lineage numbered recorded stepped after child

end Record

/-- What the move of a CPU from `s` to `s'` with the event `e` may do about zombies and freed slots.
    A slot is freed by its parent's `wait()`, which returns the pid, or by a `fork()` that fails; a
    `wait()` that has found a zombie and does not reap it returns -1 and leaves it. -/
structure FreesRight (s : State n m L K) (c : Fin m) (e : Option Event) (s' : State n m L K) :
    Prop where
  freed : ∀ q, (s.proc q).state ≠ .UNUSED → (s'.proc q).state = .UNUSED →
    (∃ caller, e = some (.reaped caller (s.proc q).pid (s.proc q).xstate)) ∨
      ((s.proc q).state = .USED ∧ e = some (.forkFailed (s.proc q).pid))
  reaped : ∀ caller pid status, e = some (.reaped caller pid status) →
    ∃ p q, (s.cpu c).thread = some p ∧ (s.proc p).pid = caller ∧ (s.proc q).parent = some p ∧
      (s.proc q).state = .ZOMBIE ∧ (s.proc q).pid = pid ∧ (s.proc q).xstate = status ∧
      s'.point c = .waitReturn pid ∧ (s'.proc q).state = .UNUSED
  refused : ∀ addr q, s.point c = .waitChild addr q → (s.proc q).state = .ZOMBIE → e = none →
    s'.point c = .waitReturn (-1) ∧ s'.proc q = s.proc q

theorem step_frees_right (coh : s.Coherent) (lineage : s.Lineage)
    (stepped : s.Stepped c dest t e s') : s.FreesRight c e s' := by
  constructor
  case freed =>
    intro q live free
    have never : ∀ {state : Procstate}, (s'.proc q).state = state → state ≠ .UNUSED → False :=
      fun state busy => busy (state ▸ free)
    cases slot_step coh stepped q with
    | kept stage =>
      rw [free] at stage
      revert stage
      cases state : (s.proc q).state with
      | UNUSED => exact absurd state live
      | _ => exact fun stage => by cases stage
    | used p named on here free state => exact (never state (by decide)).elim
    | forked p on here state => exact (never state live).elim
    | started p on here state => exact (never state (by decide)).elim
    | exits status on here ordinary state => exact (never state live).elim
    | orphaned p status on here child state => exact (never state live).elim
    | zombie status on here state => exact (never state (by decide)).elim
    | failed p on here state parent told =>
      have newborn : (s.point c).newborn = some (q, false) := by
        rcases here with here | here <;> rw [here] <;> rfl
      exact .inr ⟨newborn_used coh on newborn, told⟩
    | reaped p addr on here zombie state parent told => exact .inl ⟨_, told⟩
  case reaped =>
    rintro caller pid status rfl
    obtain ⟨p, on, told⟩ := stepped.flow.told
    simp only [reduceCtorEq, and_false, exists_false, false_or, Event.reaped.injEq] at told
    obtain ⟨addr, q, here, zombie, rfl, rfl, rfl⟩ := told
    have parent := lineage.scanned p addr q (by rw [← point_of_thread on, here])
    have flow := stepped.flow
    rw [here, on] at flow
    refine ⟨p, q, on, rfl, parent, zombie, rfl, rfl, ?_, ?_⟩
    · rw [stepped.here.resolve_right (by simp [here])]
      cases flow
      rfl
    · rw [stepped.state_eq]
      cases flow
      rw [Table.freeproc, Table.set_self]
  case refused =>
    rintro addr q here zombie rfl
    have flow := stepped.flow
    have still : t = s.toTable → s'.proc q = s.proc q := by
      rintro rfl
      refine stepped.rest q fun on => ?_
      have running := coh.running c q on
      rw [← point_of_thread on, here, zombie] at running
      cases running
    rw [stepped.here.resolve_right (by simp [here])]
    rw [here] at flow
    generalize (s.cpu c).thread = me at flow
    cases flow with
    | waitFail => exact ⟨rfl, still rfl⟩
    | waitAlive p addr q alive => exact absurd zombie alive
    | trap me point free => cases free
    | wakeup me ch point code => cases code
    | yield p point code => cases code
    | sleep p ch l point code => cases code

/-- A panic is none of these moves. -/
theorem panic_frees_right [DecidableEq L] {choice : Choice n L K} {o : Outcome n L K} (why : Panic)
    (coh : s.Coherent) (found : s.next c choice = some o)
    (may : o.instr.MayPanic (s.cpu c).thread (s.point c)) : s.FreesRight c none (s.panic why) where
  freed q live free := absurd free live
  reaped caller pid status told := by cases told
  refused addr q here zombie quiet := by
    rcases next_cases coh found with ⟨-, free, -⟩ | ⟨p, on, act⟩ | ⟨idle, act⟩
    · rw [held, here] at free
      cases free
    · rw [here] at act may
      rw [on] at may
      simp only [Process.act, zombie, if_true] at act
      repeat' split at act
      all_goals cases act
      all_goals simp [Outcome.quiet, Instr.MayPanic, Point.holds] at may
    · rw [here] at act
      cases act

omit [DecidableEq K] in
theorem boot_numbered (init : Fin n) : (boot (L := L) (K := K) m init).Numbered 0 := by
  have live : ∀ {q}, ((boot (L := L) (K := K) m init).proc q).state ≠ .UNUSED → q = init := by
    intro q live
    by_contra ne
    simp [boot, userinit, ne, unused] at live
  constructor
  case counter => rfl
  case range =>
    intro q used
    rw [live used]
    simp [boot, userinit, unused]
  case distinct => exact fun q r used used' _ => (live used).trans (live used').symm
  case pending =>
    intro p q pid context
    rw [boot_context] at context
    cases context
  case pending_once =>
    intro p p' q q' pid context
    rw [boot_context] at context
    cases context

omit [DecidableEq K] in
theorem boot_recorded (init : Fin n) : (boot (L := L) (K := K) m init).Recorded 0 firstLives := by
  constructor
  case beyond =>
    intro pid beyond
    have ne : pid ≠ initpid := by
      rintro rfl
      simp [initpid] at beyond
    simp [firstLives, ne]
  case pending =>
    intro p q pid context
    rw [boot_context] at context
    cases context
  case first => simp [firstLives]
  case unborn =>
    intro q used _ other
    have ne : q ≠ init := other
    simp [boot, userinit, ne, unused] at used
  case child =>
    intro q r child
    by_cases same : q = init <;> simp [boot, userinit, same, unused] at child

end State

section Runs

variable [DecidableEq L] [DecidableEq K] {s s' : State n m L K} {c : Fin m}
  {choice : Choice n L K} {es : List Event}

/-- What the events so far have led to. -/
structure Chronicle (es : List Event) (s : State n m L K) : Prop where
  coherent : s.Coherent
  lineage : s.Lineage
  orderly : Orderly es
  lives : ∃ a lives, s.Numbered a ∧ s.Recorded a lives ∧ lives.Recall es ∧
    a + s.drawing ≤ es.countP Event.isFork

omit [DecidableEq L] [DecidableEq K] in
theorem boot_chronicle (init : Fin n) : Chronicle [] (boot (L := L) (K := K) m init) where
  coherent := State.boot_coherent init
  lineage := State.boot_lineage init
  orderly := orderly_nil
  lives := by
    refine ⟨0, firstLives, State.boot_numbered init, State.boot_recorded init,
      firstLives_recall, ?_⟩
    simp [State.drawing, State.boot_context, Point.drawing]

omit [DecidableEq L] in
theorem after_step {lives : Lives} {a : Nat} {t : Table n L K} {dest : Point n L K}
    {e : Option Event} (coh : s.Coherent) (lineage : s.Lineage) (recorded : s.Recorded a lives)
    (memory : lives.Recall es) (orderly : Orderly es) (stepped : s.Stepped c dest t e s') :
    ∃ lives', lives.after e = some lives' ∧ lives'.Recall (es ++ e.toList) ∧
      Orderly (es ++ e.toList) := by
  cases e with
  | none => exact ⟨lives, rfl, by simpa using memory, by simpa using orderly⟩
  | some event =>
    obtain ⟨lives', after⟩ := State.told_step coh lineage recorded stepped
    exact ⟨lives', after, memory.step after, orderly.concat (memory.allowed after)⟩

theorem chronicle_step (chronicle : Chronicle es s) (h : step s (c, choice) = some s')
    (few : (es ++ (observe s (c, choice)).toList).countP Event.isFork < 2 ^ 31 - 1) :
    Chronicle (es ++ (observe s (c, choice)).toList) s' ∧
      s.FreesRight c (observe s (c, choice)) s' := by
  obtain ⟨coh, lineage, orderly, a, lives, numbered, recorded, memory, drawn⟩ := chronicle
  rcases State.step_stepped coh h with ⟨why, -, rfl, quiet, o, found, may⟩ | ⟨dest, t, stepped⟩
  · rw [quiet, Option.toList_none, List.append_nil]
    refine ⟨⟨State.panic_coherent coh why, ?_, orderly, a, lives, ?_, ?_, memory, drawn⟩,
      State.panic_frees_right why coh found may⟩
    · exact ⟨lineage.exits, lineage.first, lineage.childless, lineage.free, lineage.newborn,
        lineage.settled, lineage.scanned⟩
    · exact ⟨numbered.counter, numbered.range, numbered.distinct, numbered.pending,
        numbered.pending_once⟩
    · exact ⟨recorded.beyond, recorded.pending, recorded.first, recorded.unborn, recorded.child⟩
  · have counted := State.drawn_step coh stepped
    obtain ⟨lives', after, memory', orderly'⟩ :=
      after_step coh lineage recorded memory orderly stepped
    rw [List.countP_append] at few
    have room : (a : Int) + (s.point c).draws + 1 ≤ intMax := by
      simp only [intMax]
      omega
    refine ⟨⟨stepped.coherent, State.lineage_step coh lineage stepped, orderly', _, lives',
      State.numbered_step coh numbered room stepped,
      State.recorded_step coh lineage numbered recorded stepped after room, memory', ?_⟩,
      State.step_frees_right coh lineage stepped⟩
    rw [List.countP_append]
    omega

theorem run_reaps_once (init : Fin n) (ls : List (Label n m L K)) (s : State n m L K)
    (run : exec step (boot m init) ls = some s)
    (few : (trace step observe (boot m init) ls).countP Event.isFork < 2 ^ 31 - 1) :
    (∀ q, (s.proc q).state ≠ .UNUSED → 0 < (s.proc q).pid) ∧
      (∀ q r, (s.proc q).state ≠ .UNUSED → (s.proc r).state ≠ .UNUSED →
        (s.proc q).pid = (s.proc r).pid → q = r) ∧
      (s.proc s.initproc).pid = initpid ∧ Orderly (trace step observe (boot m init) ls) ∧
      Along step (fun s l => ∀ s', step s l = some s' → s.FreesRight l.1 (observe s l) s')
        (boot m init) ls := by
  obtain ⟨along, chronicle⟩ := along_of_trace (P := Chronicle)
    (Q := fun es => es.countP Event.isFork < 2 ^ 31 - 1)
    (D := fun (s : State n m L K) l => ∀ s', step s l = some s' → s.FreesRight l.1 (observe s l) s')
    (fun es es' few => by rw [List.countP_append] at few; omega)
    (fun es s l s' chronicle h few => by
      obtain ⟨next, right⟩ := chronicle_step chronicle h few
      refine ⟨next, fun s'' also => ?_⟩
      cases h.symm.trans also
      exact right)
    (boot_chronicle init) run few
  obtain ⟨-, lineage, orderly, a, lives, numbered, -⟩ := chronicle
  exact ⟨fun q live => (numbered.range q live).1, numbered.distinct, lineage.first.2.1, orderly,
    along⟩

/-- The first process forks and waits; its child exits with status 7 and is reaped. -/
def reapRun : List (Label 2 1 Unit Unit) := alone <|
  [.go, .go, .go, .go, .fork] ++ List.replicate 13 .go ++ [.wait 0] ++ List.replicate 15 .go ++
    [.exit 7] ++ List.replicate 22 .go

theorem reapRun_runs : (exec step (boot 1 0) reapRun).isSome := by decide

theorem reapRun_trace : trace step observe (boot 1 0) reapRun =
    [.fork 1, .forked 1 2, .exited 2 7, .reaped 1 2 7] := by decide

theorem child_is_reaped : Orderly [.fork 1, .forked 1 2, .exited 2 7, .reaped 1 2 7] := by
  have right := run_reaps_once 0 reapRun _ (Option.some_get reapRun_runs).symm
    (by rw [reapRun_trace]; decide)
  rw [reapRun_trace] at right
  exact right.2.2.2.1

end Runs

/-! ## One fork too many -/

/-- The first process at a point of `fork()` with what it holds, and the slot it fills in. -/
def forking (x : Int) (point : Point 2 Unit Unit) (holds : List (Lock 2 Unit))
    (child : Proc 2 Unit Unit) : State 2 1 Unit Unit where
  proc p :=
    if p = procA then
      { unused (n := 2) (L := Unit) (K := Unit) with
        pid := 1, state := .RUNNING, context := point }
    else child
  nextpid := x
  initproc := procA
  lock l := if l ∈ holds then some procA else none
  cpu _ :=
    { proc := some procA, context := .schedulerBack procA, thread := some procA, noff := holds.length,
      intena := true, intr := holds.isEmpty }
  panicked := none

/-- A run from `s` to `u` that calls `fork()` `k` times. -/
def Forks (s : State 2 1 Unit Unit) (ls : List (Label 2 1 Unit Unit)) (u : State 2 1 Unit Unit)
    (k : Nat) : Prop :=
  exec step s ls = some u ∧ (trace step observe s ls).countP Event.isFork = k

theorem Forks.nil (s : State 2 1 Unit Unit) : Forks s [] s 0 := ⟨rfl, rfl⟩

theorem Forks.append {s t u : State 2 1 Unit Unit} {ls ms : List (Label 2 1 Unit Unit)}
    {j k : Nat} (left : Forks s ls t j) (right : Forks t ms u k) :
    Forks s (ls ++ ms) u (j + k) := by
  refine ⟨exec_append_eq_some.mpr ⟨t, left.1, right.1⟩, ?_⟩
  rw [trace_append _ left.1, List.countP_append, left.2, right.2]

theorem forall_lock {P : Lock 2 Unit → Prop} (wait : P .wait) (pid : P .pid) (first : P (.proc 0))
    (second : P (.proc 1)) (other : P (.other ())) (l : Lock 2 Unit) : P l := by
  match l with
  | .wait => exact wait
  | .pid => exact pid
  | .proc 0 => exact first
  | .proc 1 => exact second
  | .other () => exact other

/-- A move that leads to such a state, told by its fields. -/
theorem Forks.move {s t u : State 2 1 Unit Unit} {l : Label 2 1 Unit Unit}
    {ls : List (Label 2 1 Unit Unit)} {k : Nat} (calls : Nat) (x : Int) (point : Point 2 Unit Unit)
    (holds : List (Lock 2 Unit)) (child : Proc 2 Unit Unit) (h : step s l = some t)
    (told : t.proc 0 = (forking x point holds child).proc 0 ∧ t.proc 1 = child ∧
      t.nextpid = x ∧ t.initproc = 0 ∧ (∀ l, t.lock l = if l ∈ holds then some 0 else none) ∧
      t.cpu 0 = (forking x point holds child).cpu 0 ∧ t.panicked = none)
    (count : (observe s l).toList.countP Event.isFork = calls)
    (rest : Forks (forking x point holds child) ls u k) : Forks s (l :: ls) u (k + calls) := by
  obtain ⟨first, second, nextpid, initproc, lock, cpu, panicked⟩ := told
  have same : t = forking x point holds child := by
    obtain ⟨⟨proc, nextpid, init⟩, owner, cpus, panic⟩ := t
    simp only at first second nextpid initproc lock cpu panicked
    subst nextpid initproc panicked second
    obtain rfl : owner = _ := funext lock
    have procs : proc = (forking nextpid point holds (proc 1)).proc := by
      funext p
      match p with
      | 0 => exact first
      | 1 => rfl
    have cpus : cpus = (forking nextpid point holds (proc 1)).cpu := by
      funext c
      match c with
      | 0 => exact cpu
    rw [cpus]
    unfold forking at *
    congr
  rw [same] at h
  constructor
  · rw [exec, h]
    exact rest.1
  · rw [trace_cons _ h, List.countP_append, rest.2, count, Nat.add_comm]

/-- A call of `fork()` up to where it has named its child. -/
def beginFork : List (Label 2 1 Unit Unit) := alone (.fork :: List.replicate 7 .go)

theorem forks_begin (x : Int) :
    Forks (forking x (.kernel []) [] unused) beginFork
      (forking (wrapInt (x + 1)) (.allocInit 1) [.proc 1] { unused with pid := x, state := .USED })
      1 := by
  have all : ∀ {P : Lock 2 Unit → Prop}, P .wait → P .pid → P (.proc 0) → P (.proc 1) →
      P (.other ()) → ∀ l, P l := forall_lock
  refine .move 1 x (.alloc 0) [] unused rfl
    ⟨rfl, rfl, rfl, rfl, all rfl rfl rfl rfl rfl, rfl, rfl⟩ rfl ?_
  refine .move 0 x (.allocLocked 0) [.proc 0] unused rfl
    ⟨rfl, rfl, rfl, rfl, all rfl rfl rfl rfl rfl, rfl, rfl⟩ rfl ?_
  refine .move 0 x (.alloc 1) [] unused rfl
    ⟨rfl, rfl, rfl, rfl, all rfl rfl rfl rfl rfl, rfl, rfl⟩ rfl ?_
  refine .move 0 x (.allocLocked 1) [.proc 1] unused rfl
    ⟨rfl, rfl, rfl, rfl, all rfl rfl rfl rfl rfl, rfl, rfl⟩ rfl ?_
  refine .move 0 x (.allocpid 1) [.proc 1] unused rfl
    ⟨rfl, rfl, rfl, rfl, all rfl rfl rfl rfl rfl, rfl, rfl⟩ rfl ?_
  refine .move 0 x (.allocpidLocked 1) [.pid, .proc 1] unused rfl
    ⟨rfl, rfl, rfl, rfl, all rfl rfl rfl rfl rfl, rfl, rfl⟩ rfl ?_
  refine .move 0 (wrapInt (x + 1)) (.allocUsed 1 x) [.proc 1] unused rfl
    ⟨rfl, rfl, rfl, rfl, all rfl rfl rfl rfl rfl, rfl, rfl⟩ rfl ?_
  refine .move 0 (wrapInt (x + 1)) (.allocInit 1) [.proc 1] { unused with pid := x, state := .USED }
    rfl ⟨rfl, rfl, rfl, rfl, all rfl rfl rfl rfl rfl, rfl, rfl⟩ rfl ?_
  exact .nil _

/-- A call of `fork()` that finds no memory for the child. -/
def failFork : List (Label 2 1 Unit Unit) := beginFork ++ alone [.fail]

theorem forks_fail (x : Int) :
    Forks (forking x (.kernel []) [] unused) failFork
      (forking (wrapInt (x + 1)) (.kernel []) [] unused) 1 := by
  refine (forks_begin x).append (k := 0) (.move 0 _ (.kernel []) [] unused rfl
    ⟨rfl, rfl, rfl, rfl, forall_lock rfl rfl rfl rfl rfl, rfl, rfl⟩ rfl ?_)
  exact .nil _

theorem forks_many (x : Int) (k : Nat) :
    Forks (forking (wrapInt x) (.kernel []) [] unused) (List.replicate k failFork).flatten
      (forking (wrapInt (x + k)) (.kernel []) [] unused) k := by
  induction k with
  | zero =>
    rw [Nat.cast_zero, add_zero]
    exact .nil _
  | succ k ih =>
    have last := ih.append (forks_fail (wrapInt (x + k)))
    rwa [wrapInt_succ, add_assoc, ← Nat.cast_succ, ← List.flatten_concat,
      ← List.replicate_succ'] at last

theorem forks_boot :
    Forks (boot 1 0) (alone (List.replicate 4 .go)) (forking 2 (.kernel []) [] unused) 0 := by
  obtain ⟨u, run, here⟩ : ∃ u, exec step (boot 1 0) (alone (List.replicate 3 .go)) = some u ∧
      Forks u (alone [.go]) (forking 2 (.kernel []) [] unused) 0 := by
    refine ⟨_, rfl, .move 0 2 (.kernel []) [] unused rfl
      ⟨rfl, rfl, rfl, rfl, forall_lock rfl rfl rfl rfl rfl, rfl, rfl⟩ rfl (.nil _)⟩
  have start : Forks (boot 1 0) (alone (List.replicate 3 .go)) u 0 := ⟨run, rfl⟩
  exact start.append here

/-- With `k + 1` calls, the last child has the pid `k + 2`, as an `int`. -/
theorem forks_named (k : Nat) : ∃ ls s, Forks (boot 1 0) ls s (k + 1) ∧
    (s.proc 1).state = .USED ∧ (s.proc 1).pid = wrapInt (2 + k) := by
  have many := (forks_boot.append (forks_many 2 k)).append (forks_begin (wrapInt (2 + k)))
  rw [Nat.zero_add] at many
  exact ⟨_, _, many, rfl, rfl⟩

theorem last_pid_wraps : ∃ (ls : List (Label 2 1 Unit Unit)) (s : State 2 1 Unit Unit),
    exec step (boot 1 0) ls = some s ∧
      (trace step observe (boot 1 0) ls).countP Event.isFork < 2 ^ 31 ∧
      ∃ q, (s.proc q).state ≠ .UNUSED ∧ ¬ 0 < (s.proc q).pid := by
  obtain ⟨ls, s, ⟨run, calls⟩, used, named⟩ := forks_named (2 ^ 31 - 2)
  refine ⟨ls, s, run, by omega, 1, by simp [used], ?_⟩
  rw [named]
  decide

end Sistemas.Xv6.Process
