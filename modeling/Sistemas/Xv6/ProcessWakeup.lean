import Sistemas.Xv6.ProcessSched

/-! # No wakeup is lost

A process in `sleep(chan, lk)` that has given up `lk` is `Asleep` until it is woken.  While a
process holds `lk`, nobody comes to be asleep with `lk`, and a `wakeup(chan)` that it makes leaves
nobody so below its index (`Swept`): it takes the lock of each process, and a process on its way to
`SLEEPING` gives that up only once it is there.
-/

namespace Sistemas.Xv6.Process

open Sistemas.Transition

variable {n m : Nat} {L K : Type}

/-- In `sleep(chan, lk)`, between its `release(lk)` and its `acquire(lk)`. -/
def Point.Slept (chan : Chan n K) (lk : Lock n L) : Point n L K → Prop
  | .sleepMark ch l _ | .sleepTidy ch l _ | .sleepReacquire ch l _ => ch = chan ∧ l = lk
  | .handler _ next | .wakeup _ _ next | .wakeupLocked _ _ next | .yield next | .yieldLocked next
  | .yieldRelease next | .sched next | .schedReturn _ next => next.Slept chan lk
  | _ => False

/-- `SLEEPING` in `sleep(chan, lk)`, or about to be. -/
def Point.Asleep (chan : Chan n K) (lk : Lock n L) (state : Procstate) : Point n L K → Prop
  | .sleepMark ch l _ | .sched (.sleepTidy ch l _) => ch = chan ∧ l = lk
  | .schedReturn _ (.sleepTidy ch l _) => ch = chan ∧ l = lk ∧ state = .SLEEPING
  | _ => False

def Proc.Asleep (chan : Chan n K) (lk : Lock n L) (q : Proc n L K) : Prop :=
  q.context.Asleep chan lk q.state

/-- `wakeup(chan)` under way at process `i`, to go on at `next`. -/
inductive Point.Waking (chan : Chan n K) : Point n L K → Nat → Point n L K → Prop where
  | wakeup (i : Nat) (next : Point n L K) : Waking chan (.wakeup chan i next) i next
  | locked (q : Fin n) (next : Point n L K) : Waking chan (.wakeupLocked chan q next) q next

/-- The channel of a `wakeup()` under way, and where it returns to. -/
def Point.wakes : Point n L K → Option (Chan n K × Point n L K)
  | .wakeup chan _ next | .wakeupLocked chan _ next => some (chan, next)
  | _ => none

theorem Point.waking_of_wakes {point next : Point n L K} {chan : Chan n K}
    (wakes : point.wakes = some (chan, next)) : ∃ i, point.Waking chan i next := by
  cases point with
  | wakeup ch i nx =>
    cases wakes
    exact ⟨i, .wakeup i next⟩
  | wakeupLocked ch q nx =>
    cases wakes
    exact ⟨q, .locked q next⟩
  | _ => cases wakes

namespace State

variable {s s' : State n m L K} {c d : Fin m} {p q : Fin n} {chan : Chan n K} {lk : Lock n L}
  {next dest : Point n L K}

/-- A wakeup made with `lk` held has left nobody asleep with `lk` below its index. -/
def Swept (s : State n m L K) : Prop :=
  ∀ p chan next i lk (q : Fin n), (s.proc p).context.Waking chan i next →
    lk ∈ next.holds (some p) → q.val < i → ¬ (s.proc q).Asleep chan lk

theorem waking_on_cpu (coh : s.Coherent) {i : Nat} (waking : (s.proc p).context.Waking chan i next) :
    ∃ c, (s.cpu c).thread = some p := by
  cases context : (s.proc p).context with
  | wakeup | wakeupLocked => exact coh.on_cpu (by simp [context]) (by simp [context])
  | _ =>
    rw [context] at waking
    cases waking

theorem waking_holds {i : Nat} {point : Point n L K} {me : Option (Fin n)}
    (waking : point.Waking chan i next) (held : lk ∈ next.holds me) : lk ∈ point.holds me := by
  cases waking with
  | wakeup => exact held
  | locked => exact .tail _ held

/-- A process whose lock another one holds is not on its way to sleep; if it sleeps, it is on no
    CPU and its channel is the one it gave. -/
theorem asleep_elsewhere (coh : s.Coherent) (asleep : (s.proc q).Asleep chan lk)
    (mine : Lock.proc q ∈ s.held c) (other : (s.cpu c).thread ≠ some q) :
    (s.proc q).state = .SLEEPING ∧ (s.proc q).chan = chan ∧
      ∃ b after, (s.proc q).context = .schedReturn b (.sleepTidy chan lk after) := by
  have busy : ∀ {point : Point n L K}, (s.proc q).context = point → point ≠ .forkret →
      (∀ b next, point ≠ .schedReturn b next) → Lock.proc q ∈ point.holds (some q) → False := by
    rintro point rfl started inside held
    obtain ⟨d, on⟩ := coh.on_cpu started inside
    rw [← held_of_thread on] at held
    rw [coh.locked.exclusive mine held] at other
    exact other on
  unfold Proc.Asleep Point.Asleep at asleep
  split at asleep
  · rename_i context
    exact (busy context nofun nofun (List.mem_singleton_self _)).elim
  · rename_i context
    exact (busy context nofun nofun (List.mem_singleton_self _)).elim
  · rename_i b ch l after context
    obtain ⟨rfl, rfl, sleeping⟩ := asleep
    refine ⟨sleeping, ?_, b, after, context⟩
    have off : ∀ d, (s.cpu d).thread ≠ some q := by
      intro d on
      have runs := coh.running d q on
      rw [sleeping, context] at runs
      cases runs
    cases coh.parked q off with
    | off state => simp [sleeping] at state
    | new state => simp [sleeping] at state
    | yielded state => simp [sleeping] at state
    | asleep state b lk next context' =>
      rw [context] at context'
      cases context'
      rfl
  · exact asleep.elim

end State

theorem Point.Asleep.holds {p : Fin n} {point : Point n L K} {chan : Chan n K} {lk : Lock n L}
    {state : Procstate} (asleep : point.Asleep chan lk state) : point.holds (some p) ≠ [] := by
  cases point with
  | sleepMark | sched | schedReturn => exact nofun
  | _ => exact asleep.elim

theorem Point.Asleep.imp {point : Point n L K} {chan : Chan n K} {lk : Lock n L}
    {state before : Procstate} (asleep : point.Asleep chan lk state)
    (sleeping : state = .SLEEPING → before = .SLEEPING) : point.Asleep chan lk before := by
  unfold Point.Asleep at asleep ⊢
  split at asleep
  · exact asleep
  · exact asleep
  · exact ⟨asleep.1, asleep.2.1, sleeping asleep.2.2⟩
  · exact asleep.elim

theorem Point.Caller.awake {point : Point n L K} {chan : Chan n K} {lk : Lock n L}
    {state : Procstate} (caller : point.Caller) : ¬ point.Asleep chan lk state := by
  cases point <;> first | exact id | exact caller.elim

theorem Point.Resumes.awake {point : Point n L K} {chan : Chan n K} {lk : Lock n L}
    {state : Procstate} (resumes : point.Resumes) : ¬ point.Asleep chan lk state := by
  cases point <;> first | exact id | exact resumes.elim

theorem Point.Caller.not_waking {point next : Point n L K} {chan : Chan n K} {i : Nat}
    (caller : point.Caller) : ¬ point.Waking chan i next := by
  intro waking
  cases waking <;> exact caller

section Flows

variable [DecidableEq K] {t t' : Table n L K} {c : Cpu n L K} {me : Option (Fin n)}
  {point next : Point n L K} {e : Option Event} {p q : Fin n} {chan : Chan n K} {lk : Lock n L}

/-- Only a process itself goes to sleep. -/
theorem Change.sleeping (change : Change t me point t') (other : me ≠ some q)
    (sleeping : (t'.proc q).state = .SLEEPING) : (t.proc q).state = .SLEEPING := by
  have set_state : ∀ {r : Fin n} {f : Proc n L K → Proc n L K},
      ((f (t.proc r)).state = .SLEEPING → (t.proc r).state = .SLEEPING) →
        ((t.set r f).proc q).state = .SLEEPING → (t.proc q).state = .SLEEPING := by
    intro r f keeps sleeping
    by_cases same : q = r
    · subst same
      rw [Table.set_self] at sleeping
      exact keeps sleeping
    · rwa [Table.set_of_ne _ same] at sleeping
  cases change with
  | same => exact sleeping
  | allocpid => exact sleeping
  | wake me chan r next =>
    unfold Table.wake at sleeping
    split at sleeping
    · exact set_state (by simp) sleeping
    · exact sleeping
  | kill p pid r =>
    refine set_state (fun killed => ?_) sleeping
    by_contra awake
    simp [awake] at killed
  | sleep p =>
    rw [Table.set_of_ne _ (fun same => other (congrArg some same.symm))] at sleeping
    exact sleeping
  | tidy | fault | init | parent | reparent => exact set_state id sleeping
  | yield | used | fail | runnable | zombie | reap | run => exact set_state (by simp) sleeping

/-- A process comes to be asleep from where it holds the lock it passes. -/
theorem Flow.asleep {state : Procstate} (flow : Flow t c (some p) point next t' e)
    (sound : point.Sound (some p)) (asleep : next.Asleep chan lk state) :
    (∃ after, point = .sleepRelease chan lk after) ∨ ∀ before, point.Asleep chan lk before := by
  cases flow with
  | sleepRelease p ch l after =>
    obtain ⟨rfl, rfl⟩ := asleep
    exact .inl ⟨_, rfl⟩
  | sleepMark => exact .inr fun _ => asleep
  | sched p b after =>
    cases after with
    | sleepTidy ch l nx => exact .inr fun _ => ⟨asleep.1, asleep.2.1⟩
    | _ => exact asleep.elim
  | resume => exact absurd sound.1 asleep.holds
  | wakeupDone | yieldRelease | sleepReacquire => exact (sound.1.awake asleep).elim
  | schedReturn => exact (sound.2.1.awake asleep).elim
  | _ => exact asleep.elim

/-- A `wakeup()` passes itself by; it takes the lock of any other process, and wakes it. -/
theorem Flow.waking {i : Nat} {after : Point n L K} (flow : Flow t c me point next t' e)
    (sound : point.Sound me) (waking : next.Waking chan i after) (held : lk ∈ after.holds me) :
    i = 0 ∨ (point.Waking chan i after ∧ t' = t) ∨
      ∃ q : Fin n, i = q + 1 ∧
        ((point = .wakeup chan q after ∧ c.proc = some q ∧ t' = t) ∨
          (point = .wakeupLocked chan q after ∧ t' = t.wake chan q)) := by
  cases flow with
  | wakeup | reparentChild | reparentDone | reparentOrphan =>
    cases waking
    exact .inl rfl
  | wakeupSelf me ch nx q self =>
    cases waking
    exact .inr (.inr ⟨q, rfl, .inl ⟨rfl, self, rfl⟩⟩)
  | wakeupRelease me ch q nx =>
    cases waking
    exact .inr (.inr ⟨q, rfl, .inr ⟨rfl, rfl⟩⟩)
  | wakeupAcquire me ch nx q =>
    cases waking
    exact .inr (.inl ⟨.wakeup _ _, rfl⟩)
  | resume me below =>
    have free := sound.1
    cases waking with
    | wakeup i after =>
      rw [Point.holds] at free
      simp [free] at held
    | locked q after => simp [Point.holds] at free
  | wakeupDone | yieldRelease | sleepReacquire =>
    have caller := sound.1
    cases waking <;> exact caller.elim
  | schedReturn =>
    have resumes := sound.2.1
    cases waking <;> exact resumes.elim
  | _ => cases waking

/-- A process leaves `sleep(chan, lk)` only with `lk`. -/
theorem Flow.slept (flow : Flow t c me point next t' e) (slept : point.Slept chan lk) :
    next.Slept chan lk ∨ point = .sleepReacquire chan lk next := by
  cases flow with
  | sleepReacquire p ch l nx =>
    obtain ⟨rfl, rfl⟩ := slept
    exact .inr rfl
  | sleep p ch l point code process =>
    cases code with
    | handler held below => exact absurd rfl (process held below)
    | _ => exact slept.elim
  | _ => first | exact .inl slept | exact slept.elim

end Flows

namespace State

variable [DecidableEq K] {s s' : State n m L K} {c d : Fin m} {p q : Fin n} {chan : Chan n K}
  {lk : Lock n L} {next dest : Point n L K} {t : Table n L K} {e : Option Event}

/-- A process comes to be asleep by its own move. -/
theorem asleep_from (coh : s.Coherent) (stepped : s.Stepped c dest t e s')
    (asleep : (s'.proc q).Asleep chan lk) :
    (s.proc q).Asleep chan lk ∨
      ((s.cpu c).thread = some q ∧ ∃ after, s.point c = .sleepRelease chan lk after) := by
  by_cases on : (s.cpu c).thread = some q
  · have flow := stepped.flow
    have sound := coh.sound_point c
    rw [Proc.Asleep, stepped.context_self on] at asleep
    rw [on] at flow sound
    rcases flow.asleep sound asleep with here | before
    · exact .inr ⟨on, here⟩
    · rw [Proc.Asleep, ← point_of_thread on]
      exact .inl (before _)
  · rw [Proc.Asleep, stepped.state_eq] at asleep
    rcases stepped.context_of_ne coh on with same | ⟨new, -⟩
    · rw [same] at asleep
      exact .inl (asleep.imp (stepped.change.sleeping on))
    · rw [new] at asleep
      exact asleep.elim

/-- Nobody comes to be asleep with a lock that another CPU holds. -/
theorem asleep_step (coh : s.Coherent) (stepped : s.Stepped c dest t e s')
    (asleep : (s'.proc q).Asleep chan lk) :
    (s.proc q).Asleep chan lk ∨ ((s.cpu c).thread = some q ∧ lk ∈ s.held c) := by
  rcases asleep_from coh stepped asleep with before | ⟨on, after, here⟩
  · exact .inl before
  · refine .inr ⟨on, ?_⟩
    rw [held, here, Point.holds]
    simp

theorem swept_step (coh : s.Coherent) (swept : s.Swept) (stepped : s.Stepped c dest t e s') :
    s'.Swept := by
  intro p chan next i lk q waking holds below asleep
  by_cases on : (s.cpu c).thread = some p
  · have sound := coh.sound_point c
    have flow := stepped.flow
    rw [stepped.context_self on] at waking
    rw [on] at flow sound
    -- whoever is asleep now was asleep before, and is not the one that makes the wakeup
    have ne : q ≠ p := by
      rintro rfl
      rw [Proc.Asleep, stepped.context_self on] at asleep
      cases waking <;> exact asleep
    have before := (asleep_step coh stepped asleep).resolve_right fun ⟨also, _⟩ =>
      ne (Option.some.inj (also.symm.trans on))
    rcases flow.waking sound waking holds with rfl | ⟨same, -⟩ | ⟨r, rfl, passed⟩
    · exact Nat.not_lt_zero _ below
    · rw [point_of_thread on] at same
      exact swept p chan next i lk q same holds below before
    · have earlier : ∀ point, (s.proc p).context = point → point.Waking chan r next → q ≠ r →
          False := by
        rintro point rfl same apart
        refine swept p chan next r lk q same holds ?_ before
        have := Fin.val_ne_of_ne apart
        omega
      rcases passed with ⟨here, self, -⟩ | ⟨here, table⟩
      · -- the process itself
        rw [coh.thread_proc c p on, Option.some.injEq] at self
        rw [point_of_thread on] at here
        exact earlier _ here (.wakeup _ _) (self ▸ ne)
      · rw [point_of_thread on] at here
        refine earlier _ here (.locked _ _) ?_
        rintro rfl
        have mine : Lock.proc q ∈ s.held c := by
          rw [held_of_thread on, here]
          exact List.mem_cons_self
        have off : (s.cpu c).thread ≠ some q := fun also =>
          ne (Option.some.inj (also.symm.trans on))
        obtain ⟨sleeping, on_chan, b, after, context⟩ := asleep_elsewhere coh before mine off
        have woken : (s'.proc q).state = .RUNNABLE := by
          rw [stepped.state_eq, table, Table.wake, if_pos ⟨sleeping, on_chan⟩, Table.set_self]
        rcases stepped.context_of_ne coh off with same | ⟨new, -⟩
        · rw [Proc.Asleep, same, context, woken] at asleep
          exact absurd asleep.2.2 (by decide)
        · rw [Proc.Asleep, new] at asleep
          exact asleep
  · have same : (s'.proc p).context = (s.proc p).context := by
      rcases stepped.context_of_ne coh on with same | ⟨new, -⟩
      · exact same
      · rw [new] at waking
        cases waking
    rw [same] at waking
    rcases asleep_step coh stepped asleep with before | ⟨mover, also⟩
    · exact swept p chan next i lk q waking holds below before
    · -- it gives up the lock that the waker holds on another CPU
      obtain ⟨d, there⟩ := waking_on_cpu coh waking
      have mine : lk ∈ s.held d := by
        rw [held_of_thread there]
        exact waking_holds waking holds
      rw [coh.locked.exclusive also mine] at on
      exact on there

/-- While a process makes a wakeup with the lock held, nobody that sleeps with the lock leaves its
    `sleep()`. -/
theorem slept_step {i : Nat} (coh : s.Coherent) (stepped : s.Stepped c dest t e s')
    (waking : (s.proc p).context.Waking chan i next) (holds : lk ∈ next.holds (some p))
    (slept : (s.proc q).context.Slept chan lk) : (s'.proc q).context.Slept chan lk := by
  by_cases on : (s.cpu c).thread = some q
  · have flow := stepped.flow
    rw [on, point_of_thread on] at flow
    rcases flow.slept slept with slept | here
    · rw [stepped.context_self on]
      exact slept
    · -- it has taken the lock, but so has the waker
      have ne : p ≠ q := by
        rintro rfl
        rw [here] at waking
        cases waking
      have sound := coh.sound q
      rw [here] at sound
      have context := stepped.context_self on
      obtain ⟨c', on'⟩ := stepped.coherent.on_cpu (p := q)
        (fun new => by rw [← context, new] at sound; exact sound.1)
        (fun b next back => by rw [← context, back] at sound; exact sound.1)
      have mine : lk ∈ s'.held c' := by
        rw [held_of_thread on', context, sound.2.1]
        exact List.mem_singleton_self _
      have off : (s.cpu c).thread ≠ some p := fun also =>
        ne (Option.some.inj (also.symm.trans on))
      have same : (s'.proc p).context = (s.proc p).context := by
        rcases stepped.context_of_ne coh off with same | ⟨-, old | ⟨b, old⟩⟩
        · exact same
        · rw [old] at waking
          cases waking
        · rw [old] at waking
          cases waking
      rw [← same] at waking
      obtain ⟨d', there⟩ := waking_on_cpu stepped.coherent waking
      have also : lk ∈ s'.held d' := by
        rw [held_of_thread there]
        exact waking_holds waking holds
      rw [stepped.coherent.locked.exclusive mine also, there] at on'
      exact absurd (Option.some.inj on') ne
  · rcases stepped.context_of_ne coh on with same | ⟨-, old | ⟨b, old⟩⟩
    · rwa [same]
    · rw [old] at slept
      exact slept.elim
    · rw [old] at slept
      exact slept.elim

omit [DecidableEq K] in
/-- A process that is still in its `sleep()` and not asleep has been made runnable. -/
theorem awake_of_slept (coh : s.Coherent) (slept : (s.proc q).context.Slept chan lk)
    (awake : ¬ (s.proc q).Asleep chan lk) :
    (s.proc q).state = .RUNNABLE ∨ (s.proc q).state = .RUNNING := by
  by_cases on : ∃ c, (s.cpu c).thread = some q
  · obtain ⟨c, on⟩ := on
    rw [coh.running c q on]
    cases context : (s.proc q).context with
    | sched after =>
      rw [context] at slept
      cases after with
      | yieldRelease => exact .inl rfl
      | sleepTidy =>
        refine absurd ?_ awake
        rw [Proc.Asleep, context]
        exact slept
      | zombieExit => exact slept.elim
      | _ => exact .inr rfl
    | _ => exact .inr rfl
  · have parked := coh.parked q (fun c here => on ⟨c, here⟩)
    cases parked with
    | off state context =>
      rcases context with context | ⟨b, context⟩
      · rw [context] at slept
        exact slept.elim
      · rw [context] at slept
        exact slept.elim
    | new state => exact .inl state
    | yielded state => exact .inl state
    | asleep state b l after context =>
      rcases state with state | sleeping
      · exact .inl state
      · refine absurd ?_ awake
        rw [context] at slept
        rw [Proc.Asleep, context, sleeping]
        exact ⟨slept.1, slept.2, rfl⟩

/-- What a step of `wakeup(chan)` does to the states of processes. -/
theorem waking_states {i : Nat} (stepped : s.Stepped c dest t e s')
    (on : (s.cpu c).thread = some p) (waking : (s.proc p).context.Waking chan i next)
    (changed : (s'.proc q).state ≠ (s.proc q).state) :
    (s.proc q).state = .SLEEPING ∧ (s.proc q).chan = chan ∧ (s'.proc q).state = .RUNNABLE := by
  have change := stepped.change
  rw [on, point_of_thread on] at change
  rw [stepped.state_eq] at changed ⊢
  generalize (s.proc p).context = point at change waking
  cases waking with
  | wakeup i next =>
    cases change with
    | same => exact absurd rfl changed
    | fail p q point here => simp at here
  | locked r next =>
    cases change with
    | same => exact absurd rfl changed
    | fail p q point here => simp at here
    | wake =>
      unfold Table.wake at changed ⊢
      split at changed
      · rename_i asleep
        by_cases same : q = r
        · subst same
          rw [if_pos asleep, Table.set_self]
          exact ⟨asleep.1, asleep.2, rfl⟩
        · rw [Table.set_of_ne _ same] at changed
          exact absurd rfl changed
      · exact absurd rfl changed

/-- A `wakeup()` comes to its end past the last process. -/
theorem waking_returns {i : Nat} (coh : s.Coherent) (stepped : s.Stepped c dest t e s')
    (waking : (s.proc p).context.Waking chan i next) (returned : (s'.proc p).context = next) :
    (s.cpu c).thread = some p ∧ n ≤ i := by
  have sound := coh.sound p
  have caller : next.Caller := by
    generalize (s.proc p).context = point at waking sound
    cases waking <;> exact sound.1
  have apart : ∀ {j}, ¬ next.Waking chan j next := fun waking => caller.not_waking waking
  by_cases on : (s.cpu c).thread = some p
  · refine ⟨on, ?_⟩
    have flow := stepped.flow
    rw [on, point_of_thread on, ← stepped.context_self on, returned] at flow
    generalize (s.proc p).context = point at flow waking
    cases waking with
    | wakeup i next =>
      cases flow with
      | wakeupDone p chan i next done => exact done
    | locked q next => cases flow
  · rcases stepped.context_of_ne coh on with same | ⟨-, old | ⟨b, old⟩⟩
    · rw [← same, returned] at waking
      exact absurd waking apart
    · rw [old] at waking
      cases waking
    · rw [old] at waking
      cases waking

end State

/-! ## Every wakeup -/

section Wakeup

variable [DecidableEq L] [DecidableEq K]

theorem run_swept {init : Fin n} {ls : List (Label n m L K)} {s : State n m L K}
    (run : exec step (boot m init) ls = some s) : s.Swept := by
  refine (exec_invariant (P := fun s : State n m L K => s.Coherent ∧ s.Swept) ?_
    ⟨State.boot_coherent init, ?_⟩ run).2
  · rintro s ⟨c, choice⟩ s' ⟨coh, swept⟩ h
    refine ⟨State.step_coherent coh h, ?_⟩
    rcases State.step_stepped coh h with ⟨why, -, rfl, -⟩ | ⟨dest, t, stepped⟩
    · exact swept
    · exact State.swept_step coh swept stepped
  · intro p chan next i lk q waking
    rw [State.boot_context] at waking
    cases waking

theorem wakeup_loses_none (init : Fin n) (ls ms : List (Label n m L K)) (s₁ s₂ : State n m L K)
    (start : exec step (boot m init) ls = some s₁) (p : Fin n) (chan : Chan n K) (lk : Lock n L)
    (next : Point n L K) (called : (s₁.proc p).context = .wakeup chan 0 next)
    (holds : lk ∈ next.holds (some p)) (run : exec step s₁ ms = some s₂)
    (inside : Along step (fun s _ => (s.proc p).context.wakes = some (chan, next)) s₁ ms)
    (returned : (s₂.proc p).context = next) :
    (∀ q, (s₁.proc q).context.Slept chan lk → (s₂.proc q).context.Slept chan lk) ∧
      (∀ q, (s₂.proc q).context.Slept chan lk → ¬ (s₂.proc q).Asleep chan lk ∧
        ((s₂.proc q).state = .RUNNABLE ∨ (s₂.proc q).state = .RUNNING)) ∧
      Along step (fun s (c, choice) => (s.cpu c).thread = some p →
        ∀ s', step s (c, choice) = some s' → ∀ q, (s'.proc q).state ≠ (s.proc q).state →
          (s.proc q).state = .SLEEPING ∧ (s.proc q).chan = chan ∧
            (s'.proc q).state = .RUNNABLE) s₁ ms := by
  have coh₁ := State.run_coherent start
  replace inside := inside.imp fun s l wakes => Point.waking_of_wakes wakes
  have kept : ∀ (s : State n m L K) l s', (s.Coherent ∧ ∀ q, (s₁.proc q).context.Slept chan lk →
      (s.proc q).context.Slept chan lk) → (∃ i, (s.proc p).context.Waking chan i next) →
      step s l = some s' → s'.Coherent ∧ ∀ q, (s₁.proc q).context.Slept chan lk →
        (s'.proc q).context.Slept chan lk := by
    rintro s ⟨c, choice⟩ s' ⟨coh, still⟩ ⟨i, waking⟩ h
    refine ⟨State.step_coherent coh h, fun q slept => ?_⟩
    rcases State.step_stepped coh h with ⟨why, -, rfl, -⟩ | ⟨dest, t, stepped⟩
    · exact still q slept
    · exact State.slept_step coh stepped waking holds (still q slept)
  refine ⟨?_, fun q slept => ?_, ?_⟩
  · exact (exec_invariant_along kept ⟨coh₁, fun _ slept => slept⟩ run inside).2
  · -- the last step returns from the wakeup, which has passed every process
    have caller : next.Caller := by
      have sound := coh₁.sound p
      rw [called] at sound
      exact sound.1
    have coh₂ : s₂.Coherent := State.run_coherent (exec_append_eq_some.mpr ⟨s₁, start, run⟩)
    have awake : ¬ (s₂.proc q).Asleep chan lk := by
      intro asleep
      obtain rfl | ⟨body, ⟨c, choice⟩, rfl⟩ := List.eq_nil_or_concat ms
      · cases run
        rw [called] at returned
        rw [← returned] at caller
        exact caller
      · rw [List.concat_eq_append] at run inside
        obtain ⟨u, before, last⟩ := exec_append_eq_some.mp run
        obtain ⟨v, last, final⟩ := exec_cons_eq_some.mp last
        cases final
        obtain ⟨i, waking⟩ := ((along_append before).mp inside).2.1
        have reach := exec_append_eq_some.mpr ⟨s₁, start, before⟩
        have coh := State.run_coherent reach
        rcases State.step_stepped coh last with ⟨why, -, rfl, -⟩ | ⟨dest, t, stepped⟩
        · exact caller.not_waking (returned ▸ waking)
        · obtain ⟨on, done⟩ := State.waking_returns coh stepped waking returned
          rcases State.asleep_step coh stepped asleep with before | ⟨mover, -⟩
          · exact run_swept reach p chan next i lk q waking holds (by omega) before
          · rw [on, Option.some.injEq] at mover
            rw [Proc.Asleep, ← mover, returned] at asleep
            exact caller.awake asleep
    exact ⟨awake, State.awake_of_slept coh₂ slept awake⟩
  · refine inside.of_invariant kept ?_ run ⟨coh₁, fun _ slept => slept⟩
    rintro s ⟨c, choice⟩ - ⟨coh, -⟩ ⟨i, waking⟩ - on s' h q changed
    rcases State.step_stepped coh h with ⟨why, -, rfl, -⟩ | ⟨dest, t, stepped⟩
    · exact absurd rfl changed
    · exact State.waking_states stepped on waking changed

/-- The first process forks, and sleeps on a channel; its child wakes it, up to the call. -/
def wakeRun : List (Label 2 1 Unit Unit) := alone <|
  [.go, .go, .go, .go, .fork] ++ List.replicate 13 .go ++ [.acquire (), .sleep (.other ()) ()] ++
    List.replicate 9 .go ++ [.acquire (), .wakeup (.other ())]

theorem wakeRun_runs : (exec step (boot 1 0) wakeRun).isSome := by decide

/-- The state in which the child calls `wakeup()`. -/
def wakeCall : State 2 1 Unit Unit := (exec step (boot 1 procA) wakeRun).get wakeRun_runs

/-- The moves of the `wakeup()`. -/
def wakeBody : List (Label 2 1 Unit Unit) := alone (List.replicate 4 .go)

theorem wakeBody_runs : (exec step wakeCall wakeBody).isSome := by decide

theorem sleeper_is_woken :
    ((((exec step wakeCall wakeBody).get wakeBody_runs).proc 0).state = .RUNNABLE ∨
      (((exec step wakeCall wakeBody).get wakeBody_runs).proc 0).state = .RUNNING) := by
  have woken := wakeup_loses_none 0 wakeRun wakeBody wakeCall
    ((exec step wakeCall wakeBody).get wakeBody_runs) (Option.some_get wakeRun_runs).symm 1
    (.other ()) (.other ()) (.kernel [()]) (by decide) (by decide)
    (Option.some_get wakeBody_runs).symm (by decide) (by decide)
  exact (woken.2.1 0 (woken.1 0 ⟨by decide, by decide⟩)).2

end Wakeup

end Sistemas.Xv6.Process
