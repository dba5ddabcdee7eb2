import Sistemas.Xv6.ProcessWakeup

/-! # `wait()` never sleeps past a zombie

`wait_lock` is held from the scan of `wait()` to its sleep, and in `exit()` from the reparenting
to the mark `ZOMBIE`, so a scan stays true until the sleep (`Scanned`) and the wakeup of the parent
until the mark (`Warned`).  An orphan that has already exited is handed to `init` together with a
wakeup, under way as long as `init` is asleep (`Promised`).
-/

namespace Sistemas.Xv6.Process

open Sistemas.Transition

variable {n m : Nat} {L K : Type}

/-- A process `p` in `wait()` has found that `q` is no zombie child of its own. -/
def Point.Scanned (p q : Fin n) : Point n L K → Prop
  | .waitScan _ i _ => q.val < i
  | .waitChild _ r => q < r
  | .waitKilled _ => True
  | .sleep chan lk _ | .sleepRelease chan lk _ => chan = .proc p ∧ lk = .wait
  | _ => False

/-- In `exit()`, after the wakeup of the parent and before the mark. -/
def Point.Warned : Point n L K → Prop
  | .exitLock _ | .exitZombie _ => True
  | _ => False

/-- Only `wait()` sleeps with `wait_lock`. -/
def Point.Awaits (p : Fin n) : Point n L K → Prop
  | .handler _ next | .wakeup _ _ next | .wakeupLocked _ _ next | .yield next | .yieldLocked next
  | .yieldRelease next | .sched next | .schedReturn _ next => next.Awaits p
  | .sleep chan lk next | .sleepRelease chan lk next | .sleepMark chan lk next
  | .sleepTidy chan lk next | .sleepReacquire chan lk next =>
    (lk = .wait → chan = .proc p ∧ ∃ addr, next = .waitScan addr 0 false) ∧ next.Awaits p
  | _ => True

theorem Point.Scanned.holds {p q : Fin n} {point : Point n L K} (scanned : point.Scanned p q) :
    Lock.wait ∈ point.holds (some p) := by
  cases point with
  | waitScan | waitChild | waitKilled => simp [Point.holds]
  | sleep chan lk | sleepRelease chan lk =>
    obtain ⟨-, rfl⟩ := scanned
    simp [Point.holds]
  | _ => exact scanned.elim

theorem Point.Warned.holds {p : Fin n} {point : Point n L K} (warned : point.Warned) :
    Lock.wait ∈ point.holds (some p) := by
  cases point with
  | exitLock | exitZombie => simp [Point.holds]
  | _ => exact warned.elim

/-- A process that sleeps with `wait_lock` does so in `wait()`, on its own address. -/
theorem Point.Awaits.chan {p : Fin n} {point : Point n L K} {chan : Chan n K}
    (awaits : point.Awaits p) (slept : point.Slept chan .wait) : chan = .proc p := by
  induction point with
  | sleepMark | sleepTidy | sleepReacquire =>
    obtain ⟨rfl, rfl⟩ := slept
    exact (awaits.1 rfl).1
  | handler _ _ ih | wakeup _ _ _ ih | wakeupLocked _ _ _ ih | yield _ ih | yieldLocked _ ih
  | yieldRelease _ ih | sched _ ih | schedReturn _ _ ih => exact ih awaits slept
  | _ => exact slept.elim

theorem Point.Caller.not_scanned {p q : Fin n} {point : Point n L K} (caller : point.Caller) :
    ¬ point.Scanned p q := by
  cases point with
  | waitScan addr i havekids =>
    obtain rfl : i = 0 := caller
    exact Nat.not_lt_zero _
  | kernel | handler | exitFiles | exitReparent | exitLock => exact id
  | _ => exact caller.elim

section Flows

variable [DecidableEq K] {t t' : Table n L K} {c : Cpu n L K} {point next : Point n L K}
  {e : Option Event} {p q : Fin n}

/-- A scan passes a process that is no zombie child. -/
theorem Flow.scanned (flow : Flow t c (some p) point next t' e) (sound : point.Sound (some p))
    (scanned : next.Scanned p q) :
    t' = t ∧ (point.Scanned p q ∨ (t.proc q).parent ≠ some p ∨ (t.proc q).state ≠ .ZOMBIE) := by
  have passed : ∀ {r : Fin n}, q.val < r + 1 → q = r ∨ q.val < r := fun below => by
    rcases Nat.lt_succ_iff_lt_or_eq.mp below with below | same
    · exact .inr below
    · exact .inl (Fin.ext same)
  cases flow with
  | waitNext p addr havekids r other =>
    rcases passed scanned with rfl | below
    · exact ⟨rfl, .inr (.inl other)⟩
    · exact ⟨rfl, .inl below⟩
  | waitAlive p addr r alive =>
    rcases passed scanned with rfl | below
    · exact ⟨rfl, .inr (.inr alive)⟩
    · exact ⟨rfl, .inl below⟩
  | waitChild => exact ⟨rfl, .inl scanned⟩
  | waitScanned p addr i done => exact ⟨rfl, .inl (Nat.lt_of_lt_of_le q.isLt done)⟩
  | waitSleep => exact ⟨rfl, .inl trivial⟩
  | sleepAcquire => exact ⟨rfl, .inl scanned⟩
  | waitAcquire => exact absurd scanned (Nat.not_lt_zero _)
  | sleep => exact absurd scanned.2 nofun
  | resume =>
    have held := scanned.holds
    rw [sound.1] at held
    cases held
  | wakeupDone | yieldRelease | sleepReacquire => exact (sound.1.not_scanned scanned).elim
  | schedReturn =>
    obtain ⟨-, resumes, -⟩ := sound
    cases next <;> first | exact scanned.elim | exact resumes.elim
  | _ => exact scanned.elim

/-- `exit()` calls `wakeup()` for the parent that it finds. -/
theorem Flow.aimed {chan : Chan n K} {i : Nat} {status : Int}
    (flow : Flow t c (some p) point next t' e) (sound : point.Sound (some p))
    (waking : next.Waking chan i (.exitLock status)) :
    (∃ j, point.Waking chan j (.exitLock status)) ∨
      (t' = t ∧ ∀ r, (t.proc p).parent = some r → chan = .proc r) := by
  cases flow with
  | reparentDone p st i r done parent =>
    cases waking
    exact .inr ⟨rfl, fun r' also => by rw [parent, Option.some.injEq] at also; rw [also]⟩
  | reparentOrphan p st i done parent =>
    cases waking
    exact .inr ⟨rfl, fun r also => by rw [parent] at also; cases also⟩
  | wakeup p ch point code =>
    cases waking
    cases code
  | reparentChild => cases waking
  | wakeupSelf p ch nx q =>
    cases waking
    exact .inl ⟨_, .wakeup _ _⟩
  | wakeupAcquire p ch nx q =>
    cases waking
    exact .inl ⟨_, .wakeup _ _⟩
  | wakeupRelease p ch q nx =>
    cases waking
    exact .inl ⟨_, .locked _ _⟩
  | resume p below =>
    have free := sound.1
    cases waking <;> simp [Point.holds] at free
  | wakeupDone | yieldRelease | sleepReacquire => exact (sound.1.not_waking waking).elim
  | schedReturn =>
    have resumes := sound.2.1
    cases waking <;> exact resumes.elim
  | _ => cases waking

theorem Flow.awaits (flow : Flow t c (some p) point next t' e) (awaits : point.Awaits p) :
    next.Awaits p := by
  cases flow with
  | sleep => exact ⟨nofun, awaits⟩
  | sleepReacquire => exact awaits.2
  | waitSleep p addr => exact ⟨fun _ => ⟨rfl, addr, rfl⟩, trivial⟩
  | _ => exact awaits

/-- `exit()` comes to its mark from a `wakeup()` that has passed every process. -/
theorem Flow.warned (flow : Flow t c (some p) point next t' e) (sound : point.Sound (some p))
    (awaits : point.Awaits p) (warned : next.Warned) :
    t' = t ∧ (point.Warned ∨
      ∃ chan i status, point.Waking chan i (.exitLock status) ∧ n ≤ i) := by
  cases flow with
  | wakeupDone p chan i next done =>
    have caller := sound.1
    cases next with
    | exitLock status => exact ⟨rfl, .inr ⟨chan, i, status, .wakeup _ _, done⟩⟩
    | exitZombie => exact caller.elim
    | _ => exact warned.elim
  | exitLock => exact ⟨rfl, .inl trivial⟩
  | resume =>
    have held := warned.holds (p := p)
    rw [sound.1] at held
    cases held
  | yieldRelease =>
    have held := warned.holds (p := p)
    rw [sound.2.1] at held
    cases held
  | sleepReacquire p chan lk next =>
    -- it would hold wait_lock again, and be back in wait()
    have held := warned.holds (p := p)
    rw [sound.2.1, List.mem_singleton] at held
    obtain ⟨-, addr, rfl⟩ := awaits.1 held.symm
    exact warned.elim
  | schedReturn =>
    obtain ⟨-, resumes, -⟩ := sound
    cases next <;> first | exact warned.elim | exact resumes.elim
  | _ => exact warned.elim

/-- A `wakeup()` made with a lock goes on to its end. -/
theorem Flow.waking_on {chan : Chan n K} {i : Nat} {after : Point n L K} {lk : Lock n L}
    (flow : Flow t c (some p) point next t' e) (waking : point.Waking chan i after)
    (held : lk ∈ after.holds (some p)) :
    next.Waking chan i after ∨ (i < n ∧ next.Waking chan (i + 1) after) ∨ n ≤ i := by
  cases waking with
  | wakeup i after =>
    cases flow with
    | wakeupSelf p ch nx q => exact .inr (.inl ⟨q.isLt, .wakeup _ _⟩)
    | wakeupAcquire p ch nx q => exact .inl (.locked _ _)
    | wakeupDone p ch i nx done => exact .inr (.inr done)
    | trap p point free =>
      rw [Point.holds] at free
      simp [free] at held
    | wakeup p ch point code => cases code
    | yield p point code => cases code
    | sleep p ch l point code => cases code
  | locked q after =>
    cases flow with
    | wakeupRelease p ch q nx => exact .inr (.inl ⟨q.isLt, .wakeup _ _⟩)
    | trap p point free => simp [Point.holds] at free
    | wakeup p ch point code => cases code
    | yield p point code => cases code
    | sleep p ch l point code => cases code

end Flows

namespace State

variable {s s' : State n m L K} {c d : Fin m} {p q r : Fin n} {dest : Point n L K}
  {t : Table n L K} {e : Option Event}

def ZombieChild (s : State n m L K) (p q : Fin n) : Prop :=
  (s.proc q).parent = some p ∧ (s.proc q).state = .ZOMBIE

structure Attentive (s : State n m L K) : Prop where
  awaits : ∀ p, (s.proc p).context.Awaits p
  scanned : ∀ p q, (s.proc p).context.Scanned p q → ¬ s.ZombieChild p q
  -- the wakeup in exit() is for the parent
  aimed : ∀ q r chan i status, (s.proc q).context.Waking chan i (.exitLock status) →
    (s.proc q).parent = some r → chan = .proc r
  warned : ∀ q r, (s.proc q).context.Warned → (s.proc q).parent = some r →
    ¬ (s.proc r).Asleep (.proc r) .wait
  promised : ∀ p q, (s.proc p).Asleep (.proc p) .wait → s.ZombieChild p q →
    ∃ r i next, (s.proc r).context.Waking (.proc p) i next ∧ i ≤ p.val ∧
      Lock.wait ∈ next.holds (some r)

variable [DecidableEq K]

/-- Only a thread with `wait_lock` changes who is whose parent. -/
theorem parent_step (stepped : s.Stepped c dest t e s') (after : (s'.proc q).parent = some r) :
    (s.proc q).parent = some r ∨ Lock.wait ∈ s.held c := by
  rw [stepped.fields q] at after
  rcases stepped.change.parent_of after with before | ⟨here, -⟩ | ⟨status, here, -⟩
  · exact .inl before
  · exact .inr (by simp [held, here, Point.holds])
  · exact .inr (by simp [held, here, Point.holds])

theorem zombieChild_step (stepped : s.Stepped c dest t e s') (after : s'.ZombieChild p q) :
    s.ZombieChild p q ∨
      ((s.cpu c).thread = some q ∧ (s.proc q).parent = some p ∧
        ∃ status, s.point c = .exitZombie status) ∨
      (s.cpu c).thread = some p ∧ s.point c = .forkParentLocked q ∨
      ((s.cpu c).thread ≠ none ∧ p = s.initproc ∧ ∃ status, s.point c = .exitReparent status q) := by
  obtain ⟨parent, zombie⟩ := after
  rw [stepped.fields q] at parent zombie
  rcases stepped.change.parent_of parent with before | ⟨here, on⟩ | ⟨status, here, busy, init⟩
  · rcases stepped.change.zombie_of zombie with was | ⟨on, here⟩
    · exact .inl ⟨before, was⟩
    · exact .inr (.inl ⟨on, before, here⟩)
  · exact .inr (.inr (.inl ⟨on, here⟩))
  · exact .inr (.inr (.inr ⟨busy, init, status, here⟩))

theorem zombieChild_held (stepped : s.Stepped c dest t e s') (after : s'.ZombieChild p q) :
    s.ZombieChild p q ∨ Lock.wait ∈ s.held c := by
  rcases zombieChild_step stepped after with before | ⟨-, -, _, here⟩ | ⟨-, here⟩ |
    ⟨-, -, _, here⟩
  · exact .inl before
  all_goals exact .inr (by simp [held, here, Point.holds])

omit [DecidableEq K] in
theorem waiting_on_cpu (coh : s.Coherent) (holds : Lock.wait ∈ (s.proc p).context.holds (some p)) :
    ∃ d, (s.cpu d).thread = some p ∧ Lock.wait ∈ s.held d := by
  obtain ⟨d, on⟩ := coh.on_cpu (p := p)
    (fun new => by simp [new, Point.holds, own] at holds)
    (fun b next back => by simp [back, Point.holds, own] at holds)
  exact ⟨d, on, held_of_thread on ▸ holds⟩

/-- A process at a point with `wait_lock` that does not move was there before, and keeps the lock
    from the one that moves. -/
theorem waits_elsewhere (coh : s.Coherent) (stepped : s.Stepped c dest t e s')
    (off : (s.cpu c).thread ≠ some p)
    (holds : Lock.wait ∈ (s'.proc p).context.holds (some p)) :
    (s'.proc p).context = (s.proc p).context ∧ Lock.wait ∉ s.held c := by
  have same : (s'.proc p).context = (s.proc p).context := by
    rcases stepped.context_of_ne coh off with same | ⟨new, -⟩
    · exact same
    · simp [new, Point.holds, own] at holds
  refine ⟨same, fun mine => off ?_⟩
  obtain ⟨d, on, also⟩ := waiting_on_cpu coh (same ▸ holds)
  rw [coh.locked.exclusive mine also]
  exact on

theorem awaits_step (coh : s.Coherent) (attentive : s.Attentive)
    (stepped : s.Stepped c dest t e s') : (s'.proc p).context.Awaits p := by
  by_cases on : (s.cpu c).thread = some p
  · have flow := stepped.flow
    rw [on, point_of_thread on] at flow
    rw [stepped.context_self on]
    exact flow.awaits (attentive.awaits p)
  · rcases stepped.context_of_ne coh on with same | ⟨new, -⟩
    · rw [same]
      exact attentive.awaits p
    · rw [new]
      trivial

theorem scanned_step (coh : s.Coherent) (attentive : s.Attentive)
    (stepped : s.Stepped c dest t e s') (scanned : (s'.proc p).context.Scanned p q) :
    ¬ s'.ZombieChild p q := by
  intro child
  by_cases on : (s.cpu c).thread = some p
  · have flow := stepped.flow
    have sound := coh.sound_point c
    rw [stepped.context_self on] at scanned
    rw [on, point_of_thread on] at flow sound
    obtain ⟨rfl, passed⟩ := flow.scanned sound scanned
    rw [ZombieChild, stepped.fields q] at child
    rcases passed with before | stranger | alive
    · exact attentive.scanned p q before child
    · exact stranger child.1
    · exact alive child.2
  · obtain ⟨same, unheld⟩ := waits_elsewhere coh stepped on scanned.holds
    rw [same] at scanned
    exact attentive.scanned p q scanned ((zombieChild_held stepped child).resolve_right unheld)

theorem aimed_step (coh : s.Coherent) (attentive : s.Attentive)
    (stepped : s.Stepped c dest t e s') {chan : Chan n K} {i : Nat} {status : Int}
    (waking : (s'.proc q).context.Waking chan i (.exitLock status))
    (parent : (s'.proc q).parent = some r) : chan = .proc r := by
  by_cases on : (s.cpu c).thread = some q
  · have flow := stepped.flow
    have sound := coh.sound_point c
    rw [stepped.context_self on] at waking
    rw [on, point_of_thread on] at flow sound
    rcases flow.aimed sound waking with ⟨j, before⟩ | ⟨rfl, aimed⟩
    · refine attentive.aimed q r chan j status before ?_
      rw [stepped.fields q] at parent
      rcases stepped.change.parent_of parent with was | ⟨here, -⟩ | ⟨st, here, -⟩
      · exact was
      · rw [point_of_thread on] at here
        rw [here] at before
        cases before
      · rw [point_of_thread on] at here
        rw [here] at before
        cases before
    · rw [stepped.fields q] at parent
      exact aimed r parent
  · have held : Lock.wait ∈ (s'.proc q).context.holds (some q) :=
      waking_holds waking (by simp [Point.holds])
    obtain ⟨same, unheld⟩ := waits_elsewhere coh stepped on held
    rw [same] at waking
    exact attentive.aimed q r chan i status waking
      ((parent_step stepped parent).resolve_right unheld)

theorem warned_step (coh : s.Coherent) (swept : s.Swept) (attentive : s.Attentive)
    (stepped : s.Stepped c dest t e s') (warned : (s'.proc q).context.Warned)
    (parent : (s'.proc q).parent = some r) : ¬ (s'.proc r).Asleep (.proc r) .wait := by
  intro asleep
  by_cases on : (s.cpu c).thread = some q
  · have flow := stepped.flow
    have sound := coh.sound_point c
    rw [stepped.context_self on] at warned
    rw [on, point_of_thread on] at flow sound
    obtain ⟨rfl, before⟩ := flow.warned sound (attentive.awaits q) warned
    rw [stepped.fields q] at parent
    have here : ∀ after, (s.proc q).context ≠ .sleepRelease (.proc r) .wait after := by
      intro after here
      rw [here] at before
      rcases before with before | ⟨chan, i, status, before, -⟩
      · exact before
      · cases before
    rcases asleep_from coh stepped asleep with was | ⟨-, after, there⟩
    · rcases before with before | ⟨chan, i, status, before, done⟩
      · exact attentive.warned q r before parent was
      · obtain rfl := attentive.aimed q r chan i status before parent
        exact swept q (.proc r) _ i .wait r before (by simp [Point.holds])
          (Nat.lt_of_lt_of_le r.isLt done) was
    · rw [point_of_thread on] at there
      exact here after there
  · obtain ⟨same, unheld⟩ := waits_elsewhere coh stepped on warned.holds
    rw [same] at warned
    have was := (asleep_step coh stepped asleep).resolve_right fun both => unheld both.2
    exact attentive.warned q r warned ((parent_step stepped parent).resolve_right unheld) was

/-- A wakeup under way for a zombie's parent stays under way, or has just passed the parent. -/
theorem promise_kept (coh : s.Coherent) (swept' : s'.Swept) (stepped : s.Stepped c dest t e s')
    {i : Nat} {next : Point n L K} (waking : (s.proc r).context.Waking (.proc p) i next)
    (ahead : i ≤ p.val) (holds : Lock.wait ∈ next.holds (some r))
    (asleep : (s'.proc p).Asleep (.proc p) .wait) :
    ∃ j, (s'.proc r).context.Waking (.proc p) j next ∧ j ≤ p.val := by
  by_cases on : (s.cpu c).thread = some r
  · have flow := stepped.flow
    rw [on, point_of_thread on, ← stepped.context_self on] at flow
    rcases flow.waking_on waking holds with same | ⟨-, passed⟩ | done
    · exact ⟨i, same, ahead⟩
    · refine ⟨i + 1, passed, ?_⟩
      by_contra beyond
      exact swept' r (.proc p) next (i + 1) .wait p passed holds (by omega) asleep
    · have := p.isLt
      omega
  · rcases stepped.context_of_ne coh on with same | ⟨-, old | ⟨b, old⟩⟩
    · exact ⟨i, same ▸ waking, ahead⟩
    · rw [old] at waking
      cases waking
    · rw [old] at waking
      cases waking

theorem promised_step (coh : s.Coherent) (swept' : s'.Swept) (attentive : s.Attentive)
    (stepped : s.Stepped c dest t e s') (asleep : (s'.proc p).Asleep (.proc p) .wait)
    (child : s'.ZombieChild p q) :
    ∃ r i next, (s'.proc r).context.Waking (.proc p) i next ∧ i ≤ p.val ∧
      Lock.wait ∈ next.holds (some r) := by
  by_cases before : s.ZombieChild p q
  · rcases asleep_from coh stepped asleep with was | ⟨on, after, here⟩
    · obtain ⟨r, i, next, waking, ahead, holds⟩ := attentive.promised p q was before
      obtain ⟨j, still, ahead⟩ := promise_kept coh swept' stepped waking ahead holds asleep
      exact ⟨r, j, next, still, ahead, holds⟩
    · -- a scan has passed every child
      rw [point_of_thread on] at here
      exact absurd before (attentive.scanned p q (by rw [here]; exact ⟨rfl, rfl⟩))
  rcases (zombieChild_step stepped child).resolve_left before with ⟨on, parent, status, here⟩ |
    ⟨on, here⟩ | ⟨busy, rfl, status, here⟩
  · -- the parent was woken before the mark
    have was : (s.proc p).Asleep (.proc p) .wait := by
      rcases asleep_from coh stepped asleep with was | ⟨-, after, there⟩
      · exact was
      · rw [here] at there
        cases there
    rw [point_of_thread on] at here
    exact absurd was (attentive.warned q p (by rw [here]; trivial) parent)
  · have flow := stepped.flow
    rw [Proc.Asleep, stepped.context_self on] at asleep
    rw [here, on] at flow
    cases flow with
    | forkPublish => exact asleep.elim
    | trap p point free => cases free
    | wakeup p ch point code => cases code
    | yield p point code => cases code
    | sleep p ch l point code => cases code
  · -- the orphan comes with a wakeup for init
    obtain ⟨r, on⟩ := Option.ne_none_iff_exists'.mp busy
    have flow := stepped.flow
    have context := stepped.context_self on
    rw [ZombieChild, stepped.fields q] at child
    rw [here, on] at flow
    generalize index : q.val = i at flow
    cases flow with
    | reparentChild =>
      refine ⟨r, 0, .exitReparent status (q + 1), ?_, Nat.zero_le _, by simp [Point.holds]⟩
      rw [context, index]
      exact .wakeup _ _
    | reparentNext => exact absurd child before
    | reparentDone p st i r done | reparentOrphan p st i done =>
      have := q.isLt
      omega
    | trap p point free => cases free
    | wakeup p ch point code => cases code
    | yield p point code => cases code
    | sleep p ch l point code => cases code

theorem attentive_step (coh : s.Coherent) (swept : s.Swept) (swept' : s'.Swept)
    (attentive : s.Attentive) (stepped : s.Stepped c dest t e s') : s'.Attentive where
  awaits _ := awaits_step coh attentive stepped
  scanned _ _ := scanned_step coh attentive stepped
  aimed _ _ _ _ _ := aimed_step coh attentive stepped
  warned _ _ := warned_step coh swept attentive stepped
  promised _ _ := promised_step coh swept' attentive stepped

omit [DecidableEq K] in
theorem boot_attentive (init : Fin n) : (boot (L := L) (K := K) m init).Attentive := by
  constructor <;> intro p
  · rw [boot_context]
    trivial
  · intro q scanned
    rw [boot_context] at scanned
    exact scanned.elim
  · intro r chan i status waking
    rw [boot_context] at waking
    cases waking
  · intro r warned
    rw [boot_context] at warned
    exact warned.elim
  · intro q asleep
    rw [Proc.Asleep, boot_context] at asleep
    exact asleep.elim

end State

section Runs

variable [DecidableEq L] [DecidableEq K]

theorem run_attentive {init : Fin n} {ls : List (Label n m L K)} {s : State n m L K}
    (run : exec step (boot m init) ls = some s) : s.Attentive := by
  refine (exec_invariant
    (P := fun s : State n m L K => s.Coherent ∧ s.Swept ∧ s.Attentive) ?_
    ⟨State.boot_coherent init, run_swept (exec_nil _), State.boot_attentive init⟩ run).2.2
  rintro s ⟨c, choice⟩ s' ⟨coh, swept, attentive⟩ h
  refine ⟨State.step_coherent coh h, ?_⟩
  rcases State.step_stepped coh h with ⟨why, -, rfl, -⟩ | ⟨dest, t, stepped⟩
  · exact ⟨swept, attentive.awaits, attentive.scanned, attentive.aimed, attentive.warned,
      attentive.promised⟩
  · have swept' := State.swept_step coh swept stepped
    exact ⟨swept', State.attentive_step coh swept swept' attentive stepped⟩

theorem run_wait_awake (init : Fin n) (ls : List (Label n m L K)) (s : State n m L K)
    (run : exec step (boot m init) ls = some s) (free : s.lock .wait = none) (p : Fin n)
    (chan : Chan n K) (inside : (s.proc p).context.Slept chan .wait)
    (sleeping : (s.proc p).state = .SLEEPING) (q : Fin n) (child : (s.proc q).parent = some p) :
    (s.proc q).state ≠ .ZOMBIE := by
  intro zombie
  have coh := State.run_coherent run
  have attentive := run_attentive run
  obtain rfl := (attentive.awaits p).chan inside
  have asleep : (s.proc p).Asleep (.proc p) .wait := by
    by_contra awake
    rcases State.awake_of_slept coh inside awake with state | state <;> simp [sleeping] at state
  obtain ⟨r, i, next, waking, -, holds⟩ := attentive.promised p q asleep ⟨child, zombie⟩
  obtain ⟨c, on⟩ := State.waking_on_cpu coh waking
  have locked : s.lock .wait = some c := by
    rw [coh.locked.owner_iff, State.held_of_thread on]
    exact State.waking_holds waking holds
  rw [free] at locked
  cases locked

/-- The first process forks, and waits for its child until it sleeps. -/
def waitRun : List (Label 2 1 Unit Unit) := alone <|
  [.go, .go, .go, .go, .fork] ++ List.replicate 13 .go ++ [.wait 0] ++ List.replicate 11 .go

theorem waitRun_runs : (exec step (boot 1 0) waitRun).isSome := by decide

theorem waited_child_alive :
    (((exec step (boot 1 0) waitRun).get waitRun_runs).proc 1).state ≠ .ZOMBIE :=
  run_wait_awake 0 waitRun _ (Option.some_get waitRun_runs).symm (by decide) 0 (.proc 0)
    ⟨by decide, by decide⟩ (by decide) 1 (by decide)

end Runs

end Sistemas.Xv6.Process
