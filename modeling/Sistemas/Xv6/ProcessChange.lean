import Sistemas.Xv6.ProcessFlow

/-! # What a step does to one process

Lemmas about `Change` and `Flow` that name one slot of the process table: its fields change under
its lock, and a thread that another one is not meant to touch (on a CPU, off the CPUs, being filled
in by `fork()`) is left as it is.
-/

namespace Sistemas.Xv6.Process

variable {n m : Nat} {L K : Type}

/-- The slot that a thread in `fork()` is filling in, and whether its context is set. -/
def Point.child : Point n L K → Option (Fin n × Bool)
  | .allocInit q => some (q, false)
  | .forkCopy q | .forkParent q | .forkParentLocked q | .forkRunnable q
  | .forkRunnableLocked q => some (q, true)
  | .handler _ below => below.child
  | .wakeup _ _ next | .wakeupLocked _ _ next | .yield next | .yieldLocked next
  | .yieldRelease next | .sched next | .schedReturn _ next | .sleep _ _ next
  | .sleepRelease _ _ next | .sleepMark _ _ next | .sleepTidy _ _ next
  | .sleepReacquire _ _ next => next.child
  | _ => none

/-- The free slot whose lock a thread in `allocproc()` holds. -/
def Point.claim : Point n L K → Option (Fin n)
  | .allocpid q | .allocpidLocked q | .allocUsed q _ => some q
  | _ => none

/-- A process off the CPUs that can be run again waits in `sched()` or starts in `forkret()`. -/
inductive Proc.Parked (q : Proc n L K) : Prop where
  | off (state : q.state = .UNUSED ∨ q.state = .USED ∨ q.state = .ZOMBIE)
      (context : q.context = .forkret ∨ ∃ intena, q.context = .schedReturn intena .zombieExit)
  | new (state : q.state = .RUNNABLE) (context : q.context = .forkret)
  | yielded (state : q.state = .RUNNABLE) (intena : Bool) (next : Point n L K)
      (context : q.context = .schedReturn intena (.yieldRelease next))
  | asleep (state : q.state = .RUNNABLE ∨ q.state = .SLEEPING) (intena : Bool) (lk : Lock n L)
      (next : Point n L K) (context : q.context = .schedReturn intena (.sleepTidy q.chan lk next))

/-- A slot that is not to be run keeps the context of the process that left it. -/
theorem Proc.Parked.left {q : Proc n L K} (parked : q.Parked)
    (state : q.state = .UNUSED ∨ q.state = .USED ∨ q.state = .ZOMBIE) :
    q.context = .forkret ∨ ∃ intena, q.context = .schedReturn intena .zombieExit := by
  cases parked with
  | off state context => exact context
  | new runnable | yielded runnable => simp [runnable] at state
  | asleep asleep => rcases asleep with asleep | asleep <;> simp [asleep] at state

/-! ## The fields of a process change under its lock -/

section Changes

variable {t t' : Table n L K} {me : Option (Fin n)} {point : Point n L K} {p q : Fin n}

namespace Table

theorem set_self (f : Proc n L K → Proc n L K) : (t.set p f).proc p = f (t.proc p) := by
  simp [set]

theorem set_of_ne (f : Proc n L K → Proc n L K) (ne : q ≠ p) : (t.set p f).proc q = t.proc q := by
  simp [set, ne]

variable [DecidableEq K]

theorem wake_of_ne (chan : Chan n K) (ne : q ≠ p) : (t.wake chan p).proc q = t.proc q := by
  unfold wake
  split
  · exact set_of_ne _ ne
  · rfl

end Table

variable [DecidableEq K]

/-- `p->lock must be held when using these`, with the parent left out. -/
theorem Change.unlocked (change : Change t me point t') (free : Lock.proc q ∉ point.holds me) :
    t'.proc q = { t.proc q with parent := (t'.proc q).parent } := by
  cases change with
  | same => rfl
  | allocpid => rfl
  | wake me chan r next =>
    have ne : q ≠ r := by rintro rfl; simp [Point.holds] at free
    rw [Table.wake_of_ne _ ne]
  | fail p r point here =>
    have ne : q ≠ r := by rintro rfl; rcases here with rfl | rfl <;> simp [Point.holds] at free
    rw [Table.freeproc, Table.set_of_ne _ ne]
  | parent p r =>
    by_cases same : q = r
    · subst same; rw [Table.set_self]
    · rw [Table.set_of_ne _ same]
  | reparent p status r =>
    by_cases same : q = r
    · subst same; rw [Table.set_self]
    · rw [Table.set_of_ne _ same]
  | yield r | sleep r | tidy r | kill p pid r | fault r | used p r | init p r | runnable p r
  | zombie r | reap p addr r | run r =>
    have ne : q ≠ r := by rintro rfl; simp [Point.holds, own] at free
    first
      | rw [Table.set_of_ne _ ne]
      | rw [Table.kill, Table.set_of_ne _ ne]
      | rw [Table.freeproc, Table.set_of_ne _ ne]

/-- A process on a CPU stays there until it changes its own state. -/
theorem Change.running (change : Change t me point t') (stays : me = some q → ¬ point.Leaving)
    (runs : (t.proc q).state = .RUNNING)
    (claimed : ∀ r, point.claim = some r → (t.proc r).state = .UNUSED)
    (filled : me ≠ none → ∀ r ready, point.child = some (r, ready) → (t.proc r).state = .USED) :
    (t'.proc q).state = .RUNNING ∧ (t'.proc q).context = (t.proc q).context := by
  have ne_of_state : ∀ {r} {st : Procstate}, (t.proc r).state = st → st ≠ .RUNNING → q ≠ r := by
    rintro r st state ne rfl
    exact ne (state ▸ runs)
  cases change with
  | same => exact ⟨runs, rfl⟩
  | allocpid => exact ⟨runs, rfl⟩
  | wake me chan r next =>
    unfold Table.wake
    split
    · rename_i asleep
      rw [Table.set_of_ne _ (ne_of_state asleep.1 (by decide))]
      exact ⟨runs, rfl⟩
    · exact ⟨runs, rfl⟩
  | kill p pid r =>
    by_cases same : q = r
    · subst same
      simp [Table.kill, Table.set_self, runs]
    · rw [Table.kill, Table.set_of_ne _ same]
      exact ⟨runs, rfl⟩
  | used p r =>
    rw [Table.set_of_ne _ (ne_of_state (claimed r rfl) (by decide))]
    exact ⟨runs, rfl⟩
  | init p r =>
    rw [Table.set_of_ne _ (ne_of_state (filled nofun r _ rfl) (by decide))]
    exact ⟨runs, rfl⟩
  | runnable p r =>
    rw [Table.set_of_ne _ (ne_of_state (filled nofun r _ rfl) (by decide))]
    exact ⟨runs, rfl⟩
  | fail p r point here =>
    have used : (t.proc r).state = .USED := by
      rcases here with rfl | rfl
      · exact filled nofun r _ rfl
      · exact filled nofun r _ rfl
    rw [Table.freeproc, Table.set_of_ne _ (ne_of_state used (by decide))]
    exact ⟨runs, rfl⟩
  | reap p addr r zombie =>
    rw [Table.freeproc, Table.set_of_ne _ (ne_of_state zombie (by decide))]
    exact ⟨runs, rfl⟩
  | run r runnable =>
    rw [Table.set_of_ne _ (ne_of_state runnable (by decide))]
    exact ⟨runs, rfl⟩
  | parent p r | reparent p status r =>
    by_cases same : q = r
    · subst same
      rw [Table.set_self]
      exact ⟨runs, rfl⟩
    · rw [Table.set_of_ne _ same]
      exact ⟨runs, rfl⟩
  | tidy r | fault r =>
    by_cases same : q = r
    · subst same
      rw [Table.set_self]
      exact ⟨runs, rfl⟩
    · rw [Table.set_of_ne _ same]
      exact ⟨runs, rfl⟩
  | yield r | sleep r | zombie r =>
    rw [Table.set_of_ne _ (fun same => stays (congrArg some same.symm) trivial)]
    exact ⟨runs, rfl⟩

/-- A slot being filled in is left to the thread that does it. -/
theorem Change.stays_used (change : Change t me point t') (used : (t.proc q).state = .USED)
    (self : me ≠ some q) (claimed : point.claim ≠ some q)
    (filled : me ≠ none → ∀ ready, point.child ≠ some (q, ready)) :
    (t'.proc q).state = .USED ∧ (t'.proc q).context = (t.proc q).context := by
  cases change with
  | same => exact ⟨used, rfl⟩
  | allocpid => exact ⟨used, rfl⟩
  | wake me chan r next =>
    unfold Table.wake
    split
    · rename_i asleep
      have ne : q ≠ r := by
        rintro rfl
        simp [asleep.1] at used
      rw [Table.set_of_ne _ ne]
      exact ⟨used, rfl⟩
    · exact ⟨used, rfl⟩
  | kill p pid r =>
    by_cases same : q = r
    · subst same
      simp [Table.kill, Table.set_self, used]
    · rw [Table.kill, Table.set_of_ne _ same]
      exact ⟨used, rfl⟩
  | used p r =>
    have ne : q ≠ r := fun same => claimed (congrArg some same.symm)
    rw [Table.set_of_ne _ ne]
    exact ⟨used, rfl⟩
  | init p r | runnable p r =>
    have ne : q ≠ r := fun same => filled nofun _ (by rw [same]; rfl)
    rw [Table.set_of_ne _ ne]
    exact ⟨used, rfl⟩
  | fail p r point here =>
    have ne : q ≠ r := by
      rintro rfl
      rcases here with rfl | rfl
      · exact filled nofun _ rfl
      · exact filled nofun _ rfl
    rw [Table.freeproc, Table.set_of_ne _ ne]
    exact ⟨used, rfl⟩
  | reap p addr r zombie =>
    have ne : q ≠ r := by
      rintro rfl
      simp [zombie] at used
    rw [Table.freeproc, Table.set_of_ne _ ne]
    exact ⟨used, rfl⟩
  | run r runnable =>
    have ne : q ≠ r := by
      rintro rfl
      simp [runnable] at used
    rw [Table.set_of_ne _ ne]
    exact ⟨used, rfl⟩
  | parent p r | reparent p status r =>
    by_cases same : q = r
    · subst same
      rw [Table.set_self]
      exact ⟨used, rfl⟩
    · rw [Table.set_of_ne _ same]
      exact ⟨used, rfl⟩
  | tidy r | fault r | yield r | sleep r | zombie r =>
    rw [Table.set_of_ne _ (fun same => self (congrArg some same.symm))]
    exact ⟨used, rfl⟩

/-- `allocproc()` sets up the context of a new process; no other context changes. -/
theorem Change.context (change : Change t me point t') :
    (t'.proc q).context = (t.proc q).context ∨
      (point = .allocInit q ∧ me ≠ none ∧ (t'.proc q).context = .forkret) := by
  have set_context : ∀ {r : Fin n} {f : Proc n L K → Proc n L K},
      (f (t.proc r)).context = (t.proc r).context →
        ((t.set r f).proc q).context = (t.proc q).context := by
    intro r f keeps
    by_cases same : q = r
    · subst same
      rw [Table.set_self, keeps]
    · rw [Table.set_of_ne _ same]
  cases change with
  | same => exact .inl rfl
  | allocpid => exact .inl rfl
  | wake me chan r next =>
    unfold Table.wake
    split
    · exact .inl (set_context rfl)
    · exact .inl rfl
  | init p r =>
    by_cases same : q = r
    · subst same
      exact .inr ⟨rfl, nofun, by rw [Table.set_self]⟩
    · rw [Table.set_of_ne _ same]
      exact .inl rfl
  | _ => exact .inl (set_context rfl)

/-- A process off the CPUs stays ready to be run, whatever others do to it. -/
theorem Change.parked (change : Change t me point t') (other : me ≠ some q)
    (parked : (t.proc q).Parked) (norun : ∀ r, point ≠ .schedulerLocked r)
    (claimed : ∀ r, point.claim = some r → (t.proc r).state = .UNUSED)
    (filled : me ≠ none → ∀ r ready, point.child = some (r, ready) →
      (t.proc r).state = .USED ∧ (ready = true → (t.proc r).context = .forkret)) :
    (t'.proc q).Parked := by
  cases change with
  | same => exact parked
  | allocpid => exact parked
  | wake me chan r next =>
    unfold Table.wake
    split
    · by_cases same : q = r
      · subst same
        rename_i asleep
        rw [Table.set_self]
        cases parked with
        | off state => simp [asleep.1] at state
        | new state => simp [asleep.1] at state
        | yielded state => simp [asleep.1] at state
        | asleep state intena lk next context => exact .asleep (.inl rfl) intena lk next context
      · rwa [Table.set_of_ne _ same]
    · exact parked
  | kill p pid r =>
    by_cases same : q = r
    · subst same
      rw [Table.kill, Table.set_self]
      cases parked with
      | off state context =>
        rcases state with state | state | state <;> exact .off (by simp [state]) context
      | new state context => exact .new (by simp [state]) context
      | yielded state intena next context => exact .yielded (by simp [state]) intena next context
      | asleep state intena lk next context =>
        rcases state with state | state <;>
          exact .asleep (.inl (by simp [state])) intena lk next context
    · rwa [Table.kill, Table.set_of_ne _ same]
  | used p r =>
    by_cases same : q = r
    · subst same
      have left := parked.left (.inl (claimed q rfl))
      rw [Table.set_self]
      exact .off (.inr (.inl rfl)) left
    · rwa [Table.set_of_ne _ same]
  | init p r =>
    by_cases same : q = r
    · subst same
      rw [Table.set_self]
      exact .off (.inr (.inl (filled nofun q _ rfl).1)) (.inl rfl)
    · rwa [Table.set_of_ne _ same]
  | runnable p r =>
    by_cases same : q = r
    · subst same
      rw [Table.set_self]
      exact .new rfl ((filled nofun q _ rfl).2 rfl)
    · rwa [Table.set_of_ne _ same]
  | fail p r point here =>
    by_cases same : q = r
    · subst same
      have used : (t.proc q).state = .USED := by
        rcases here with rfl | rfl
        · exact (filled nofun q _ rfl).1
        · exact (filled nofun q _ rfl).1
      have left := parked.left (.inr (.inl used))
      rw [Table.freeproc, Table.set_self]
      exact .off (.inl rfl) left
    · rwa [Table.freeproc, Table.set_of_ne _ same]
  | reap p addr r zombie =>
    by_cases same : q = r
    · subst same
      have left := parked.left (.inr (.inr zombie))
      rw [Table.freeproc, Table.set_self]
      exact .off (.inl rfl) left
    · rwa [Table.freeproc, Table.set_of_ne _ same]
  | run r => exact absurd rfl (norun r)
  | parent p r | reparent p status r =>
    by_cases same : q = r
    · subst same
      rw [Table.set_self]
      cases parked with
      | off state context => exact .off state context
      | new state context => exact .new state context
      | yielded state intena next context => exact .yielded state intena next context
      | asleep state intena lk next context => exact .asleep state intena lk next context
    · rwa [Table.set_of_ne _ same]
  | tidy r | fault r | yield r | sleep r | zombie r =>
    rw [Table.set_of_ne _ (fun same => other (congrArg some same.symm))]
    exact parked

/-- `wait_lock must be held when using this`: how a process comes to have a parent. -/
theorem Change.parent_of {r : Fin n} (change : Change t me point t')
    (after : (t'.proc q).parent = some r) :
    (t.proc q).parent = some r ∨ (point = .forkParentLocked q ∧ me = some r) ∨
      ∃ status, point = .exitReparent status q ∧ me ≠ none ∧ r = t.initproc := by
  have keeps : ∀ {r' : Fin n} {f : Proc n L K → Proc n L K},
      ((f (t.proc r')).parent = some r → (t.proc r').parent = some r) →
        ((t.set r' f).proc q).parent = some r → (t.proc q).parent = some r := by
    intro r' f keeps after
    by_cases same : q = r'
    · subst same
      rw [Table.set_self] at after
      exact keeps after
    · rwa [Table.set_of_ne _ same] at after
  cases change with
  | same => exact .inl after
  | allocpid => exact .inl after
  | wake me chan r' next =>
    unfold Table.wake at after
    split at after
    · exact .inl (keeps id after)
    · exact .inl after
  | parent p r' =>
    by_cases same : q = r'
    · subst same
      rw [Table.set_self] at after
      exact .inr (.inl ⟨rfl, after⟩)
    · rw [Table.set_of_ne _ same] at after
      exact .inl after
  | reparent p status r' =>
    by_cases same : q = r'
    · subst same
      rw [Table.set_self] at after
      exact .inr (.inr ⟨status, rfl, nofun, (Option.some.inj after).symm⟩)
    · rw [Table.set_of_ne _ same] at after
      exact .inl after
  | fail | reap => exact .inl (keeps (fun freed => by cases freed) after)
  | _ => exact .inl (keeps id after)

/-- How a process comes to be a zombie. -/
theorem Change.zombie_of (change : Change t me point t') (after : (t'.proc q).state = .ZOMBIE) :
    (t.proc q).state = .ZOMBIE ∨ (me = some q ∧ ∃ status, point = .exitZombie status) := by
  have keeps : ∀ {r : Fin n} {f : Proc n L K → Proc n L K},
      ((f (t.proc r)).state = .ZOMBIE → (t.proc r).state = .ZOMBIE) →
        ((t.set r f).proc q).state = .ZOMBIE → (t.proc q).state = .ZOMBIE := by
    intro r f keeps after
    by_cases same : q = r
    · subst same
      rw [Table.set_self] at after
      exact keeps after
    · rwa [Table.set_of_ne _ same] at after
  cases change with
  | same => exact .inl after
  | allocpid => exact .inl after
  | wake me chan r next =>
    unfold Table.wake at after
    split at after
    · exact .inl (keeps (by simp) after)
    · exact .inl after
  | kill p pid r =>
    refine .inl (keeps (fun killed => ?_) after)
    simp only at killed
    split at killed
    · cases killed
    · exact killed
  | zombie p status =>
    by_cases same : q = p
    · subst same
      exact .inr ⟨rfl, status, rfl⟩
    · rw [Table.set_of_ne _ same] at after
      exact .inl after
  | tidy | fault | init | parent | reparent => exact .inl (keeps id after)
  | _ => exact .inl (keeps (by simp) after)

end Changes

/-! ## Slots being filled in -/

section Flows

variable {t t' : Table n L K} {c : Cpu n L K} {me : Option (Fin n)} {point next : Point n L K}
  {e : Option Event} {q : Fin n}

theorem Point.Caller.claim (caller : point.Caller) : point.claim = none := by
  cases point <;> first | rfl | exact caller.elim

theorem Point.holds_of_claim (claim : point.claim = some q) : Lock.proc q ∈ point.holds me := by
  cases point <;> cases claim <;> simp [Point.holds]

theorem Point.Resumes.claim (resumes : point.Resumes) : point.claim = none := by
  cases point <;> first | rfl | exact resumes.elim

theorem Point.claim_of_free (free : point.holds me = []) : point.claim = none := by
  cases point <;> first | rfl | cases free

theorem Point.state_busy (point : Point n L K) : point.state ≠ .UNUSED ∧ point.state ≠ .USED := by
  unfold Point.state
  split <;> decide

variable [DecidableEq K]

/-- A thread claims a slot that it has found free, until it has filled in its pid. -/
theorem Flow.claim (flow : Flow t c me point next t' e) (sound : point.Sound me)
    (claim : next.claim = some q) :
    (point.claim = some q ∨ (t.proc q).state = .UNUSED) ∧ t'.proc = t.proc := by
  cases flow with
  | allocFound p r free =>
    cases claim
    exact ⟨.inr free, rfl⟩
  | allocpid | allocpidRelease => exact ⟨.inl claim, rfl⟩
  | resume me below =>
    rw [Point.claim_of_free sound.1] at claim
    cases claim
  | wakeupDone | yieldRelease | sleepReacquire =>
    rw [sound.1.claim] at claim
    cases claim
  | schedReturn =>
    rw [sound.2.1.claim] at claim
    cases claim
  | _ => cases claim

/-- How a thread comes to fill in a slot. -/
theorem Flow.child {ready : Bool} (flow : Flow t c me point next t' e)
    (child : next.child = some (q, ready)) :
    point.child = some (q, ready) ∨ (∃ pid, point = .allocUsed q pid ∧ ready = false) ∨
      (point = .allocInit q ∧ ready = true) := by
  cases flow with
  | allocUsed p r pid =>
    cases child
    exact .inr (.inl ⟨pid, rfl, rfl⟩)
  | allocInit p r =>
    cases child
    exact .inr (.inr ⟨rfl, rfl⟩)
  | _ => first | exact .inl child | cases child

theorem Flow.filled {ready : Bool} (flow : Flow t c me point next t' e)
    (child : next.child = some (q, ready)) (self : me ≠ some q)
    (filled : ∀ ready, point.child = some (q, ready) →
      (t.proc q).state = .USED ∧ (ready = true → (t.proc q).context = .forkret)) :
    (t'.proc q).state = .USED ∧ (ready = true → (t'.proc q).context = .forkret) := by
  have ne : ∀ {p}, some p ≠ some q → q ≠ p := fun off same => off (congrArg some same.symm)
  cases flow with
  | allocUsed p r pid =>
    cases child
    exact ⟨by rw [Table.set_self], nofun⟩
  | allocInit p r =>
    cases child
    rw [Table.set_self]
    exact ⟨(filled _ rfl).1, fun _ => rfl⟩
  | wakeupRelease me chan r next =>
    obtain ⟨used, context⟩ := filled _ child
    unfold Table.wake
    split
    · rename_i asleep
      have ne : q ≠ r := by
        rintro rfl
        simp [asleep.1] at used
      rw [Table.set_of_ne _ ne]
      exact ⟨used, context⟩
    · exact ⟨used, context⟩
  | yieldMark | sleepMark | sleepTidy =>
    rw [Table.set_of_ne _ (ne self)]
    exact filled _ child
  | forkPublish p r =>
    cases child
    rw [Table.set_self]
    exact filled _ rfl
  | _ => first | exact filled _ child | cases child

omit [DecidableEq K] in
theorem Point.Caller.ne_sched {after : Point n L K} (caller : point.Caller) :
    point ≠ .sched after := by
  rintro rfl
  exact caller

/-- A process is marked before it comes to `sched()`. -/
theorem Flow.leaving {p : Fin n} (flow : Flow t c (some p) point next t' e)
    (leaving : point.Leaving) : (t'.proc p).state = next.state := by
  cases flow with
  | yieldMark | sleepMark | exitZombie =>
    rw [Table.set_self]
    rfl
  | trap p point free => cases point <;> first | exact leaving.elim | cases free
  | wakeup p chan point code => cases code <;> exact leaving.elim
  | yield p point code => cases code <;> exact leaving.elim
  | sleep p chan l point code => cases code <;> exact leaving.elim
  | _ => exact leaving.elim

theorem Flow.marked {p : Fin n} {chan : Chan n K} {lk : Lock n L} {after : Point n L K}
    (flow : Flow t c (some p) point (.sched (.sleepTidy chan lk after)) t' e)
    (sound : point.Sound (some p)) : (t'.proc p).chan = chan := by
  cases flow with
  | sleepMark => rw [Table.set_self]
  | resume => cases sound.1
  | wakeupDone | yieldRelease | sleepReacquire => exact absurd rfl (sound.1.ne_sched)
  | schedReturn => exact sound.2.1.elim

/-- Only `swtch()` comes back to the scheduler with a process on the CPU. -/
theorem Flow.back (flow : Flow t c me point (.schedulerBack q) t' e) (sound : point.Sound me) :
    me = none ∧ point = .schedulerLocked q ∧ (t.proc q).state = .RUNNABLE := by
  cases flow with
  | schedulerRun q runnable => exact ⟨rfl, rfl, runnable⟩
  | resume => cases sound.1
  | wakeupDone | yieldRelease | sleepReacquire => exact sound.1.elim
  | schedReturn => exact sound.2.1.elim

theorem Flow.sched_table {b : Bool} {after : Point n L K}
    (flow : Flow t c me (.sched after) (.schedReturn b after) t' e) : t' = t ∧ e = none := by
  cases flow with
  | sched => exact ⟨rfl, rfl⟩

theorem Flow.back_idle (flow : Flow t c me (.schedulerBack q) (.schedulerRelease q) t' e) :
    me = none := by
  cases flow with
  | schedulerBack => rfl

theorem Flow.run_table (flow : Flow t c me (.schedulerLocked q) (.schedulerBack q) t' e) :
    t' = t.set q fun r => { r with state := .RUNNING } := by
  cases flow with
  | schedulerRun => rfl

theorem Flow.norun (flow : Flow t c me (.schedulerLocked q) next t' e)
    (norun : ∀ q, next ≠ .schedulerBack q) : t' = t := by
  cases flow with
  | schedulerRun => exact absurd rfl (norun q)
  | _ => rfl

end Flows

end Sistemas.Xv6.Process
