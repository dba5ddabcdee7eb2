import Sistemas.Xv6.ProcessSlots
import Sistemas.Xv6.ProcessWait

/-! # Parents

A new process gets its parent in `fork()` before it can run, and keeps one until it is freed
(`Lineage`).  When `reparent()` has passed a slot, the process in it is no child of the one that
exits any more, so a parent is always there to call `wait()`.
-/

namespace Sistemas.Xv6.Process

open Sistemas.Transition

variable {n m : Nat} {L K : Type}

/-- The process that a `fork()` is making, and whether it has its parent yet. -/
def Point.newborn : Point n L K → Option (Fin n × Bool)
  | .allocInit q | .forkCopy q | .forkParent q | .forkParentLocked q => some (q, false)
  | .forkRunnable q | .forkRunnableLocked q => some (q, true)
  | .handler _ next | .wakeup _ _ next | .wakeupLocked _ _ next | .yield next | .yieldLocked next
  | .yieldRelease next | .sched next | .schedReturn _ next | .sleep _ _ next
  | .sleepRelease _ _ next | .sleepMark _ _ next | .sleepTidy _ _ next
  | .sleepReacquire _ _ next => next.newborn
  | _ => none

/-- `reparent()` has passed `q`. -/
def Point.Passed (q : Fin n) : Point n L K → Prop
  | .exitReparent _ i => q.val < i
  | .exitLock _ | .exitZombie _ => True
  | .handler _ next | .wakeup _ _ next | .wakeupLocked _ _ next | .yield next | .yieldLocked next
  | .yieldRelease next | .sched next | .schedReturn _ next | .sleep _ _ next
  | .sleepRelease _ _ next | .sleepMark _ _ next | .sleepTidy _ _ next
  | .sleepReacquire _ _ next => next.Passed q
  | _ => False

/-- Not a process that `q` can be a child of. -/
def Proc.Childless (q : Fin n) (p : Proc n L K) : Prop :=
  p.state.stage ≠ .RUNNABLE ∨ p.context.Passed q

theorem Point.newborn_child {point : Point n L K} {q : Fin n} {published : Bool}
    (newborn : point.newborn = some (q, published)) :
    ∃ ready, point.child = some (q, ready) := by
  induction point with
  | allocInit | forkCopy | forkParent | forkParentLocked | forkRunnable | forkRunnableLocked =>
    cases newborn
    exact ⟨_, rfl⟩
  | handler _ _ ih | wakeup _ _ _ ih | wakeupLocked _ _ _ ih | yield _ ih | yieldLocked _ ih
  | yieldRelease _ ih | sched _ ih | schedReturn _ _ ih | sleep _ _ _ ih | sleepRelease _ _ _ ih
  | sleepMark _ _ _ ih | sleepTidy _ _ _ ih | sleepReacquire _ _ _ ih => exact ih newborn
  | _ => cases newborn

theorem Point.Passed.exiting {point : Point n L K} {q : Fin n} (passed : point.Passed q) :
    point.exiting ≠ none := by
  induction point with
  | exitReparent | exitLock | exitZombie => simp [Point.exiting]
  | handler _ _ ih | wakeup _ _ _ ih | wakeupLocked _ _ _ ih | yield _ ih | yieldLocked _ ih
  | yieldRelease _ ih | sched _ ih | schedReturn _ _ ih | sleep _ _ _ ih | sleepRelease _ _ _ ih
  | sleepMark _ _ _ ih | sleepTidy _ _ _ ih | sleepReacquire _ _ _ ih => exact ih passed
  | _ => exact passed.elim

section Flows

variable [DecidableEq K] {t t' : Table n L K} {c : Cpu n L K} {me : Option (Fin n)} {p q : Fin n}
  {point next : Point n L K} {e : Option Event}

theorem Flow.newborn {published : Bool} (flow : Flow t c me point next t' e)
    (newborn : next.newborn = some (q, published)) :
    (point.newborn = some (q, published) ∧ point ≠ .forkParentLocked q) ∨
      (∃ pid, point = .allocUsed q pid ∧ published = false) ∨
        (point = .forkParentLocked q ∧ published = true) := by
  cases flow with
  | allocUsed p r pid =>
    cases newborn
    exact .inr (.inl ⟨pid, rfl, rfl⟩)
  | forkPublish p r =>
    cases newborn
    exact .inr (.inr ⟨rfl, rfl⟩)
  | trap me point free => exact .inl ⟨newborn, by rintro rfl; cases free⟩
  | wakeup me ch point code => exact .inl ⟨newborn, by rintro rfl; cases code⟩
  | yield p point code => exact .inl ⟨newborn, by rintro rfl; cases code⟩
  | sleep p ch l point code => exact .inl ⟨newborn, by rintro rfl; cases code⟩
  | _ => first | exact .inl ⟨newborn, nofun⟩ | cases newborn

/-- `reparent()` passes a slot that holds no child, or hands the child over. -/
theorem Flow.passed (flow : Flow t c (some p) point next t' e) (passed : next.Passed q) :
    point.Passed q ∨ (t'.proc q).parent ≠ some p ∨ (t'.proc q).parent = some t.initproc := by
  have below : ∀ {r : Fin n}, q.val < r + 1 → q = r ∨ q.val < r := fun less => by
    rcases Nat.lt_succ_iff_lt_or_eq.mp less with less | same
    · exact .inr less
    · exact .inl (Fin.ext same)
  cases flow with
  | reparentNext p status r other =>
    rcases below passed with rfl | less
    · exact .inr (.inl other)
    · exact .inl less
  | reparentChild p status r child =>
    rcases below passed with rfl | less
    · exact .inr (.inr (by rw [Table.set_self]))
    · exact .inl less
  | reparentDone p status i r done | reparentOrphan p status i done =>
    exact .inl (Nat.lt_of_lt_of_le q.isLt done)
  | exitAcquire => exact absurd passed (Nat.not_lt_zero _)
  | _ => first | exact .inl passed | exact passed.elim

theorem Flow.scans {addr : Nat} (flow : Flow t c (some p) point (.waitChild addr q) t' e)
    (sound : point.Sound (some p)) : t' = t ∧ (t.proc q).parent = some p := by
  cases flow with
  | waitChild p addr havekids q child => exact ⟨rfl, child⟩
  | resume => cases sound.1
  | wakeupDone | yieldRelease | sleepReacquire => exact sound.1.elim
  | schedReturn => exact sound.2.1.elim

theorem Change.initproc (change : Change t me point t') : t'.initproc = t.initproc := by
  cases change with
  | wake =>
    unfold Table.wake
    split <;> rfl
  | _ => rfl

end Flows

namespace State

structure Lineage (s : State n m L K) : Prop where
  exits : ∀ p status, (s.proc p).exit = some status → p ≠ s.initproc
  first : (s.proc s.initproc).state.stage = .RUNNABLE ∧ (s.proc s.initproc).pid = initpid ∧
    (s.proc s.initproc).parent = none
  childless : ∀ p q, (s.proc p).Childless q → (s.proc q).parent ≠ some p
  free : ∀ q, (s.proc q).state = .UNUSED → (s.proc q).parent = none
  newborn : ∀ p q published, (s.proc p).context.newborn = some (q, published) →
    (s.proc q).parent.isSome = published
  settled : ∀ q, (s.proc q).state ≠ .UNUSED → (s.proc q).state ≠ .USED →
    (s.proc q).parent = none → q = s.initproc
  scanned : ∀ p addr q, (s.proc p).context = .waitChild addr q → (s.proc q).parent = some p

variable [DecidableEq K] {s s' : State n m L K} {c : Fin m} {p q : Fin n} {dest : Point n L K}
  {t : Table n L K} {e : Option Event}

omit [DecidableEq K] in
theorem newborn_used (coh : s.Coherent) {published : Bool} (on : (s.cpu c).thread = some p)
    (newborn : (s.point c).newborn = some (q, published)) : (s.proc q).state = .USED := by
  obtain ⟨ready, child⟩ := Point.newborn_child newborn
  exact (coh.filled_point (by simp [on]) ready child).1

omit [DecidableEq K] in
/-- Only one `fork()` makes a process. -/
theorem newborn_once (coh : s.Coherent) {published published' : Bool} {p' : Fin n}
    (left : (s.proc p).context.newborn = some (q, published))
    (right : (s.proc p').context.newborn = some (q, published')) : p = p' := by
  obtain ⟨ready, child⟩ := Point.newborn_child left
  obtain ⟨ready', child'⟩ := Point.newborn_child right
  exact coh.filled_once p p' q ready ready' child child'

omit [DecidableEq K] in
theorem mover_runnable (coh : s.Coherent) (on : (s.cpu c).thread = some p) :
    (s.proc p).state ≠ .UNUSED ∧ (s.proc p).state ≠ .USED := by
  rw [coh.running c p on]
  exact Point.state_busy _

theorem initproc_step (stepped : s.Stepped c dest t e s') : s'.initproc = s.initproc :=
  stepped.initproc.trans stepped.change.initproc

theorem first_step (coh : s.Coherent) (lineage : s.Lineage) (stepped : s.Stepped c dest t e s') :
    (s'.proc s'.initproc).state.stage = .RUNNABLE ∧ (s'.proc s'.initproc).pid = initpid ∧
      (s'.proc s'.initproc).parent = none := by
  obtain ⟨stage, pid, parent⟩ := lineage.first
  rw [initproc_step stepped]
  have notnew : ∀ {p published}, (s.cpu c).thread = some p →
      (s.point c).newborn ≠ some (s.initproc, published) := by
    intro p published on newborn
    rw [newborn_used coh on newborn] at stage
    cases stage
  cases slot_step coh stepped s.initproc with
  | kept stage' pid' parent' => exact ⟨stage' ▸ stage, pid' ▸ pid, parent' ▸ parent⟩
  | exits status on here ordinary => exact absurd rfl ordinary
  | used r pid mover here free =>
    rw [free] at stage
    cases stage
  | forked p on here => exact absurd (by rw [here]; rfl) (notnew on)
  | started p on here => exact absurd (by rw [here]; rfl) (notnew on)
  | failed p on here =>
    rcases here with here | here
    · exact absurd (by rw [here]; rfl) (notnew on)
    · exact absurd (by rw [here]; rfl) (notnew on)
  | orphaned p status on here child =>
    rw [parent] at child
    cases child
  | zombie status on here =>
    have exit : (s.proc s.initproc).exit = some status := by
      have running := coh.running c _ on
      rw [← point_of_thread on, here] at running
      simp only [Proc.exit, running, ← point_of_thread on, here]
      rfl
    exact absurd rfl (lineage.exits _ status exit)
  | reaped p addr on here zombie =>
    rw [zombie] at stage
    cases stage

theorem exits_step (coh : s.Coherent) (lineage : s.Lineage) (stepped : s.Stepped c dest t e s')
    {status : Int} (exit : (s'.proc p).exit = some status) : p ≠ s'.initproc := by
  rw [initproc_step stepped]
  have ne_of_state : ∀ {state : Procstate}, (s.proc p).state = state → state.stage ≠ .RUNNABLE →
      p ≠ s.initproc := by
    rintro state is early rfl
    exact early (is ▸ lineage.first.1)
  cases slot_step coh stepped p with
  | kept stage' pid' parent' exit' => exact lineage.exits p status (exit' ▸ exit)
  | exits status on here ordinary => exact ordinary
  | used r pid mover here free => exact ne_of_state free (by decide)
  | forked q on here state pid parent exit' => exact lineage.exits p status (exit' ▸ exit)
  | started q on here state pid parent exit' => exact lineage.exits p status (exit' ▸ exit)
  | orphaned q st on here child state pid parent exit' =>
    exact lineage.exits p status (exit' ▸ exit)
  | zombie st on here state pid parent exit' => exact lineage.exits p status (exit' ▸ exit)
  | failed q on here =>
    have newborn : (s.point c).newborn = some (p, false) := by
      rcases here with here | here <;> rw [here] <;> rfl
    exact ne_of_state (newborn_used coh on newborn) (by decide)
  | reaped q addr on here zombie => exact ne_of_state zombie (by decide)

theorem orphan_step (coh : s.Coherent) (lineage : s.Lineage) (stepped : s.Stepped c dest t e s')
    (free : (s'.proc q).state = .UNUSED) : (s'.proc q).parent = none := by
  have unused : ∀ {state : Procstate}, state.stage = (Procstate.UNUSED).stage → state = .UNUSED := by
    intro state
    cases state <;> decide
  cases slot_step coh stepped q with
  | kept stage pid parent =>
    rw [parent]
    exact lineage.free q (unused (by rw [← stage, free]))
  | used r pid mover here before state => simp [state] at free
  | forked p on here state =>
    rw [state, newborn_used coh on (by rw [here]; rfl)] at free
    cases free
  | started p on here state => simp [state] at free
  | exits status on here ordinary state pid parent =>
    rw [parent]
    exact lineage.free q (state ▸ free)
  | orphaned p status on here child state =>
    rw [lineage.free q (state ▸ free)] at child
    cases child
  | zombie status on here state => simp [state] at free
  | failed p on here state parent => exact parent
  | reaped p addr on here zombie state parent => exact parent

theorem settled_step (coh : s.Coherent) (lineage : s.Lineage) (stepped : s.Stepped c dest t e s')
    (used : (s'.proc q).state ≠ .UNUSED) (filled : (s'.proc q).state ≠ .USED)
    (orphan : (s'.proc q).parent = none) : q = s'.initproc := by
  rw [initproc_step stepped]
  have settled : ∀ {state : Procstate}, state ≠ .UNUSED → state ≠ .USED →
      state.stage = (s.proc q).state.stage → (s.proc q).parent = none → q = s.initproc := by
    intro state used filled stage
    apply lineage.settled q
    · intro before
      rw [before] at stage
      cases state <;> simp_all [Procstate.stage]
    · intro before
      rw [before] at stage
      cases state <;> simp_all [Procstate.stage]
  cases slot_step coh stepped q with
  | kept stage pid parent => exact settled used filled stage (parent ▸ orphan)
  | used r pid mover here before state => exact absurd state filled
  | forked p on here state pid parent => simp [parent] at orphan
  | started p on here state pid parent =>
    have published := lineage.newborn p q true (by rw [← point_of_thread on, here]; rfl)
    rw [← parent, orphan] at published
    cases published
  | exits status on here ordinary state pid parent =>
    exact settled used filled (by rw [state]) (parent ▸ orphan)
  | orphaned p status on here child state pid parent => simp [parent] at orphan
  | zombie status on here state pid parent =>
    obtain ⟨used, filled⟩ := mover_runnable coh on
    exact lineage.settled q used filled (parent ▸ orphan)
  | failed p on here state => exact absurd state used
  | reaped p addr on here zombie state => exact absurd state used

/-- A process that can have children stays one as long as another process moves. -/
theorem childless_of_ne (coh : s.Coherent) (stepped : s.Stepped c dest t e s')
    (off : (s.cpu c).thread ≠ some p) (childless : (s'.proc p).Childless q) :
    (s.proc p).Childless q := by
  rcases childless with stage | passed
  · left
    cases slot_step coh stepped p with
    | kept stage' => rwa [← stage']
    | used r pid mover here free =>
      rw [free]
      decide
    | forked r on here state =>
      rwa [← state]
    | started r on here state =>
      rw [state] at stage
      exact absurd rfl stage
    | exits status on => exact absurd on off
    | orphaned r status on here child state => rwa [← state]
    | zombie status on => exact absurd on off
    | failed r on here =>
      have newborn : (s.point c).newborn = some (p, false) := by
        rcases here with here | here <;> rw [here] <;> rfl
      rw [newborn_used coh on newborn]
      decide
    | reaped r addr on here zombie =>
      rw [zombie]
      decide
  · right
    rcases stepped.context_of_ne coh off with same | ⟨new, -⟩
    · rwa [same] at passed
    · rw [new] at passed
      exact passed.elim

/-- A process that moves comes to have no children by passing them all in `reparent()`. -/
theorem childless_self (coh : s.Coherent) (stepped : s.Stepped c dest t e s')
    (on : (s.cpu c).thread = some p) (childless : (s'.proc p).Childless q) :
    (s.proc p).Childless q ∨ (t.proc q).parent ≠ some p ∨
      (t.proc q).parent = some s.initproc := by
  have flow := stepped.flow
  rw [on, point_of_thread on] at flow
  rcases childless with stage | passed
  · left
    obtain ⟨used, filled⟩ := mover_runnable coh on
    cases slot_step coh stepped p with
    | kept stage' => exact .inl (by rwa [← stage'])
    | used r pid mover here free => exact absurd free used
    | forked r on here state => exact .inl (by rwa [← state])
    | started r on here state =>
      rw [state] at stage
      exact absurd rfl stage
    | exits status on here ordinary state => exact .inl (by rwa [← state])
    | orphaned r status on here child state => exact .inl (by rwa [← state])
    | zombie status on here =>
      right
      rw [← point_of_thread on, here]
      trivial
    | failed r on here =>
      have newborn : (s.point c).newborn = some (p, false) := by
        rcases here with here | here <;> rw [here] <;> rfl
      exact absurd (newborn_used coh on newborn) filled
    | reaped r addr on here zombie => exact .inl (by rw [zombie]; decide)
  · rw [stepped.context_self on] at passed
    rcases flow.passed passed with before | gone
    · exact .inl (.inr before)
    · exact .inr gone

theorem childless_step (coh : s.Coherent) (lineage : s.Lineage) (stepped : s.Stepped c dest t e s')
    (childless : (s'.proc p).Childless q) : (s'.proc q).parent ≠ some p := by
  intro child
  -- init stays a process that has not exited
  have ordinary : p ≠ s.initproc := by
    rintro rfl
    rw [← initproc_step stepped] at childless
    rcases childless with stage | passed
    · exact stage (first_step coh lineage stepped).1
    · obtain ⟨status, exiting⟩ := Option.ne_none_iff_exists'.mp passed.exiting
      have exit : ∃ status, (s'.proc s'.initproc).exit = some status := by
        unfold Proc.exit
        split
        · exact ⟨_, rfl⟩
        · exact ⟨status, exiting⟩
      obtain ⟨status, exit⟩ := exit
      exact exits_step coh lineage stepped exit rfl
  by_cases on : (s.cpu c).thread = some p
  · rw [stepped.fields q] at child
    rcases childless_self coh stepped on childless with before | other | init
    · rcases stepped.change.parent_of child with was | ⟨here, -⟩ | ⟨status, -, -, rfl⟩
      · exact lineage.childless p q before was
      · rw [point_of_thread on] at here
        rcases before with stage | passed
        · have running := coh.running c p on
          rw [here] at running
          rw [running] at stage
          exact stage rfl
        · rw [here] at passed
          exact passed
      · exact ordinary rfl
    · exact other child
    · rw [init] at child
      exact ordinary (Option.some.inj child).symm
  · have before := childless_of_ne coh stepped on childless
    rw [stepped.fields q] at child
    rcases stepped.change.parent_of child with was | ⟨-, me⟩ | ⟨status, -, -, rfl⟩
    · exact lineage.childless p q before was
    · exact on me
    · exact ordinary rfl

theorem newborn_step (coh : s.Coherent) (lineage : s.Lineage) (stepped : s.Stepped c dest t e s')
    {published : Bool} (newborn : (s'.proc p).context.newborn = some (q, published)) :
    (s'.proc q).parent.isSome = published := by
  by_cases on : (s.cpu c).thread = some p
  · have flow := stepped.flow
    rw [on] at flow
    rw [stepped.context_self on] at newborn
    rcases flow.newborn newborn with ⟨before, unpublished⟩ | ⟨pid, here, rfl⟩ | ⟨here, rfl⟩
    · have was := lineage.newborn p q published (point_of_thread on ▸ before)
      cases slot_step coh stepped q with
      | kept stage pid parent => rwa [parent]
      | used r pid mover here free state pid' parent => rwa [parent]
      | forked r on here => exact absurd here unpublished
      | started r on here state pid parent => rwa [parent]
      | exits status on here ordinary state pid parent => rwa [parent]
      | orphaned r status on here =>
        rw [here] at before
        cases before
      | zombie status on here state pid parent => rwa [parent]
      | failed r on here state parent told =>
        subst told
        generalize s.point c = point at flow here
        rcases here with rfl | rfl
        · cases flow
          cases newborn
        · cases flow
          cases newborn
      | reaped r addr on here =>
        rw [here] at before
        cases before
    · have free := lineage.free q (coh.claimed c q (by rw [here]; rfl))
      cases slot_step coh stepped q with
      | kept stage pid parent => rw [parent, free]; rfl
      | used r pid mover here free state pid' parent => rw [parent, lineage.free q free]; rfl
      | exits status on here ordinary state pid parent => rw [parent, free]; rfl
      | zombie status on here state pid parent => rw [parent, free]; rfl
      | failed r on also state parent => rw [parent]; rfl
      | reaped r addr on also zombie state parent => rw [parent]; rfl
      | forked r on also => cases here.symm.trans also
      | started r on also => cases here.symm.trans also
      | orphaned r status on also => cases here.symm.trans also
    · rw [here] at flow
      rw [stepped.fields q]
      cases flow with
      | forkPublish => rw [Table.set_self]; rfl
      | trap p point free => cases free
      | wakeup p ch point code => cases code
      | yield p point code => cases code
      | sleep p ch l point code => cases code
  · rcases stepped.context_of_ne coh on with same | ⟨new, -⟩
    · rw [same] at newborn
      have was := lineage.newborn p q published newborn
      -- the process that is being made belongs to the thread that makes it
      have mine : ∀ {r published}, (s.cpu c).thread = some r →
          (s.point c).newborn ≠ some (q, published) := by
        intro r published mover also
        rw [point_of_thread mover] at also
        exact on (newborn_once coh newborn also ▸ mover)
      cases slot_step coh stepped q with
      | kept stage pid parent => rwa [parent]
      | used r pid mover here free state pid' parent => rwa [parent]
      | forked r on here => exact absurd (by rw [here]; rfl) (mine on)
      | started r on here state pid parent => rwa [parent]
      | exits status on here ordinary state pid parent => rwa [parent]
      | orphaned r status on here child state pid parent =>
        rw [child] at was
        rw [parent]
        exact was
      | zombie status on here state pid parent => rwa [parent]
      | failed r on here =>
        rcases here with here | here
        · exact absurd (by rw [here]; rfl) (mine on)
        · exact absurd (by rw [here]; rfl) (mine on)
      | reaped r addr on here zombie =>
        obtain ⟨ready, child⟩ := Point.newborn_child newborn
        rw [(coh.filled p q ready child).1] at zombie
        cases zombie
    · rw [new] at newborn
      cases newborn

theorem scanned_child_step (coh : s.Coherent) (lineage : s.Lineage)
    (stepped : s.Stepped c dest t e s') {addr : Nat}
    (scanning : (s'.proc p).context = .waitChild addr q) : (s'.proc q).parent = some p := by
  by_cases on : (s.cpu c).thread = some p
  · have flow := stepped.flow
    have sound := coh.sound_point c
    rw [on] at flow sound
    rw [stepped.context_self on] at scanning
    subst scanning
    obtain ⟨rfl, child⟩ := flow.scans sound
    rw [stepped.fields q]
    exact child
  · obtain ⟨same, unheld⟩ := waits_elsewhere coh stepped on (by simp [scanning, Point.holds])
    rw [same] at scanning
    have was := lineage.scanned p addr q scanning
    have settled : ∀ {r}, (s.cpu c).thread = some r → (s.point c).newborn ≠ some (q, false) := by
      intro r mover newborn
      rw [point_of_thread mover] at newborn
      have unpublished := lineage.newborn r q false newborn
      rw [was] at unpublished
      cases unpublished
    cases slot_step coh stepped q with
    | kept stage pid parent => rwa [parent]
    | used r pid mover here free state pid' parent => rwa [parent]
    | forked r on here => exact absurd (by rw [here]; rfl) (settled on)
    | started r on here state pid parent => rwa [parent]
    | exits status on here ordinary state pid parent => rwa [parent]
    | orphaned r status on here => exact absurd (by simp [held, here, Point.holds]) unheld
    | zombie status on here state pid parent => rwa [parent]
    | failed r on here =>
      rcases here with here | here
      · exact absurd (by rw [here]; rfl) (settled on)
      · exact absurd (by rw [here]; rfl) (settled on)
    | reaped r addr on here => exact absurd (by simp [held, here, Point.holds]) unheld

theorem lineage_step (coh : s.Coherent) (lineage : s.Lineage)
    (stepped : s.Stepped c dest t e s') : s'.Lineage where
  exits _ _ := exits_step coh lineage stepped
  first := first_step coh lineage stepped
  childless _ _ := childless_step coh lineage stepped
  free _ := orphan_step coh lineage stepped
  newborn _ _ _ := newborn_step coh lineage stepped
  settled _ := settled_step coh lineage stepped
  scanned _ _ _ := scanned_child_step coh lineage stepped

omit [DecidableEq K] in
theorem boot_lineage (init : Fin n) : (boot (L := L) (K := K) m init).Lineage := by
  have parent : ∀ q, ((boot (L := L) (K := K) m init).proc q).parent = none := by
    intro q
    by_cases same : q = init <;> simp [boot, userinit, same, unused]
  have exit : ∀ q, ((boot (L := L) (K := K) m init).proc q).exit = none := by
    intro q
    by_cases same : q = init <;> simp [boot, userinit, same, unused, Proc.exit, Point.exiting]
  constructor
  case exits =>
    intro p status exits
    rw [exit] at exits
    cases exits
  case first => simp [boot, userinit, Procstate.stage, initpid, unused]
  case childless => simp [parent]
  case free => exact fun q _ => parent q
  case newborn =>
    intro p q published newborn
    rw [boot_context] at newborn
    cases newborn
  case settled =>
    intro q used _ _
    by_contra other
    have ne : q ≠ init := other
    simp [boot, userinit, ne, unused] at used
  case scanned =>
    intro p addr q scanning
    rw [boot_context] at scanning
    cases scanning

end State

end Sistemas.Xv6.Process
