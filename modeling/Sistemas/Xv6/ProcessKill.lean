import Sistemas.Xv6.ProcessSched

/-! # Who is killed

`freeproc()` clears the pid and the killed flag of a slot, and `allocproc()` relies on it.  A
`kill()` looks for its pid in every slot, the free ones included, whose pid is 0: as long as none
tests a free slot for the pid 0, free slots stay unmarked and only processes are killed.
-/

namespace Sistemas.Xv6.Process

open Sistemas.Transition

variable {n m : Nat} {L K : Type}

theorem Flow.from_used [DecidableEq K] {t t' : Table n L K} {c : Cpu n L K} {me : Option (Fin n)}
    {point : Point n L K} {q : Fin n} {e : Option Event}
    (flow : Flow t c me point (.allocInit q) t' e) (sound : point.Sound me) :
    ∃ pid, point = .allocUsed q pid ∧
      t' = t.set q fun r => { r with pid := pid, state := .USED } := by
  cases flow with
  | allocUsed p q pid => exact ⟨pid, rfl, rfl⟩
  | resume => cases sound.1
  | wakeupDone | yieldRelease | sleepReacquire => exact sound.1.elim
  | schedReturn => exact sound.2.1.elim

namespace State

variable {s s' : State n m L K} {c : Fin m} {p q : Fin n} {dest : Point n L K}
  {t : Table n L K} {e : Option Event}

/-- Every free slot has `killed = 0`. -/
def Unmarked (s : State n m L K) : Prop :=
  ∀ q, (s.proc q).state = .UNUSED → (s.proc q).killed = false

/-- The move is not the test of a free slot for the pid 0 by `kill()`. -/
def NotStray (s : State n m L K) (c : Fin m) : Prop :=
  ∀ q, s.point c = .killLocked 0 q → (s.proc q).state ≠ .UNUSED

/-- What a CPU's move from `s` to `s'` may mark: the process that a `kill()` names, which then
    returns 0, or the process itself; one that `allocproc()` returns is not marked. -/
structure MarksRight (s : State n m L K) (c : Fin m) (s' : State n m L K) : Prop where
  named : ∀ q, (s.proc q).killed = false → (s'.proc q).killed = true →
    (s.point c = .killLocked (s.proc q).pid q ∧ (s.proc q).state ≠ .UNUSED) ∨
      (s.point c = .setkilledLocked ∧ (s.cpu c).thread = some q)
  found : ∀ pid q, s.point c = .killLocked pid q → s'.point c = .kernel [] →
    (s.proc q).state ≠ .UNUSED ∧ (s'.proc q).killed = true
  born : ∀ q, s.point c = .allocInit q → s'.point c = .forkCopy q → (s'.proc q).killed = false

instance [DecidableEq L] [DecidableEq K] (s : State n m L K) (c : Fin m) :
    Decidable (s.NotStray c) :=
  inferInstanceAs
    (Decidable (∀ q, s.point c = .killLocked 0 q → (s.proc q).state ≠ .UNUSED))

/-- A free slot has no pid. -/
def Nameless (s : State n m L K) : Prop :=
  ∀ q, (s.proc q).state = .UNUSED → (s.proc q).pid = 0

/-- The slot that `allocproc()` is about to return is not marked. -/
def Fresh (s : State n m L K) : Prop :=
  ∀ p q, (s.proc p).context = .allocInit q → (s.proc q).killed = false

variable [DecidableEq K]

/-- A step that leaves a slot free found it free, without a change, or frees it. -/
theorem free_step (coh : s.Coherent) (stepped : s.Stepped c dest t e s')
    (free : (s'.proc q).state = .UNUSED) :
    ((s.proc q).state = .UNUSED ∧ (s'.proc q).pid = (s.proc q).pid ∧
        ((s'.proc q).killed = (s.proc q).killed ∨ s.point c = .killLocked (s.proc q).pid q)) ∨
      ((s'.proc q).pid = 0 ∧ (s'.proc q).killed = false) := by
  have change := stepped.change
  rw [stepped.fields q] at free ⊢
  have set_of : ∀ {r : Fin n} {f : Proc n L K → Proc n L K},
      ((f (s.proc r)).state = .UNUSED → (s.proc r).state = .UNUSED ∧
        (f (s.proc r)).pid = (s.proc r).pid ∧ (f (s.proc r)).killed = (s.proc r).killed) →
        ((s.toTable.set r f).proc q).state = .UNUSED →
          (s.proc q).state = .UNUSED ∧ ((s.toTable.set r f).proc q).pid = (s.proc q).pid ∧
            ((s.toTable.set r f).proc q).killed = (s.proc q).killed := by
    intro r f keeps free
    by_cases same : q = r
    · subst same
      rw [Table.set_self] at free ⊢
      exact keeps free
    · rw [Table.set_of_ne _ same] at free ⊢
      exact ⟨free, rfl, rfl⟩
  have quiet : ∀ {t : Table n L K}, ((s.proc q).state = .UNUSED ∧
      (t.proc q).pid = (s.proc q).pid ∧ (t.proc q).killed = (s.proc q).killed) →
      ((s.proc q).state = .UNUSED ∧ (t.proc q).pid = (s.proc q).pid ∧
        ((t.proc q).killed = (s.proc q).killed ∨ s.point c = .killLocked (s.proc q).pid q)) ∨
      ((t.proc q).pid = 0 ∧ (t.proc q).killed = false) :=
    fun ⟨before, pid, killed⟩ => .inl ⟨before, pid, .inl killed⟩
  generalize here : s.point c = point at change quiet
  generalize thread : (s.cpu c).thread = me at change
  cases change with
  | same => exact quiet ⟨free, rfl, rfl⟩
  | allocpid => exact quiet ⟨free, rfl, rfl⟩
  | wake me chan r next =>
    unfold Table.wake at free ⊢
    split at free
    · rw [if_pos ‹_›]
      exact quiet (set_of (by simp) free)
    · rw [if_neg ‹_›]
      exact quiet ⟨free, rfl, rfl⟩
  | kill p pid r named =>
    by_cases same : q = r
    · subst same
      rw [Table.kill, Table.set_self] at free ⊢
      have before : (s.proc q).state = .UNUSED := by
        by_contra busy
        simp only at free
        split at free
        · cases free
        · exact busy free
      exact .inl ⟨before, rfl, .inr (by rw [named])⟩
    · rw [Table.kill, Table.set_of_ne _ same] at free ⊢
      exact quiet ⟨free, rfl, rfl⟩
  | fault p =>
    have ne : q ≠ p := by
      rintro rfl
      rw [Table.set_self, coh.running c q thread] at free
      exact (Point.state_busy _).1 free
    rw [Table.set_of_ne _ ne] at free ⊢
    exact quiet ⟨free, rfl, rfl⟩
  | fail p r | reap p addr r =>
    by_cases same : q = r
    · subst same
      rw [Table.freeproc, Table.set_self]
      exact .inr ⟨rfl, rfl⟩
    · rw [Table.freeproc, Table.set_of_ne _ same] at free ⊢
      exact quiet ⟨free, rfl, rfl⟩
  | tidy | init | parent | reparent => exact quiet (set_of (fun free => ⟨free, rfl, rfl⟩) free)
  | yield | sleep | used | runnable | zombie | run => exact quiet (set_of (by simp) free)

theorem nameless_step (coh : s.Coherent) (nameless : s.Nameless)
    (stepped : s.Stepped c dest t e s') : s'.Nameless := by
  intro q free
  rcases free_step coh stepped free with ⟨before, pid, -⟩ | ⟨pid, -⟩
  · rw [pid, nameless q before]
  · exact pid

theorem unmarked_step (coh : s.Coherent) (nameless : s.Nameless) (unmarked : s.Unmarked)
    (right : s.NotStray c) (stepped : s.Stepped c dest t e s') : s'.Unmarked := by
  intro q free
  rcases free_step coh stepped free with ⟨before, -, killed | here⟩ | ⟨-, killed⟩
  · rw [killed, unmarked q before]
  · rw [nameless q before] at here
    exact absurd before (right q here)
  · exact killed

/-- The flag is set by `kill()` and by `setkilled()`. -/
theorem killed_step (stepped : s.Stepped c dest t e s') (before : (s.proc q).killed = false)
    (after : (s'.proc q).killed = true) :
    s.point c = .killLocked (s.proc q).pid q ∨
      (s.point c = .setkilledLocked ∧ (s.cpu c).thread = some q) := by
  have change := stepped.change
  rw [stepped.fields q] at after
  have contra : (s.proc q).killed ≠ true := by simp [before]
  have keeps : ∀ {r : Fin n} {f : Proc n L K → Proc n L K},
      ((f (s.proc r)).killed = true → (s.proc r).killed = true) →
        ((s.toTable.set r f).proc q).killed = true → False := by
    intro r f keeps after
    by_cases same : q = r
    · subst same
      rw [Table.set_self] at after
      exact contra (keeps after)
    · rw [Table.set_of_ne _ same] at after
      exact contra after
  generalize (s.point c) = point at change ⊢
  generalize (s.cpu c).thread = me at change ⊢
  cases change with
  | same => exact absurd after contra
  | allocpid => exact absurd after contra
  | wake me chan r next =>
    unfold Table.wake at after
    split at after
    · exact (keeps id after).elim
    · exact absurd after contra
  | kill p pid r named =>
    by_cases same : q = r
    · subst same
      exact .inl (by rw [named])
    · rw [Table.kill, Table.set_of_ne _ same] at after
      exact absurd after contra
  | fault p =>
    by_cases same : q = p
    · subst same
      exact .inr ⟨rfl, rfl⟩
    · rw [Table.set_of_ne _ same] at after
      exact absurd after contra
  | fail | reap => exact (keeps (fun marked => by cases marked) after).elim
  | _ => exact (keeps id after).elim

theorem fresh_step (coh : s.Coherent) (unmarked : s.Unmarked) (fresh : s.Fresh)
    (stepped : s.Stepped c dest t e s') : s'.Fresh := by
  intro p q context
  by_cases on : (s.cpu c).thread = some p
  · have flow := stepped.flow
    have sound := coh.sound_point c
    rw [stepped.context_self on] at context
    rw [on, context] at flow
    rw [on] at sound
    obtain ⟨pid, here, table⟩ := flow.from_used sound
    have free := coh.claimed c q (by rw [here]; rfl)
    rw [stepped.fields q, table, Table.set_self]
    exact unmarked q free
  · rcases stepped.context_of_ne coh on with same | ⟨new, -⟩
    · rw [same] at context
      have before := fresh p q context
      -- the slot is locked by the thread that fills it in, and is no process yet
      by_contra marked
      rw [Bool.not_eq_false] at marked
      obtain ⟨d, there⟩ := coh.on_cpu (p := p) (by simp [context]) (by simp [context])
      rcases killed_step stepped before marked with here | ⟨-, mover⟩
      · have mine : Lock.proc q ∈ s.held c := by
          rw [held, here]
          exact List.mem_singleton_self _
        have also : Lock.proc q ∈ s.held d := by
          rw [held_of_thread there, context]
          exact List.mem_singleton_self _
        rw [coh.locked.exclusive mine also] at on
        exact on there
      · have used := (coh.filled p q false (by rw [context]; rfl)).1
        rw [coh.running c q mover] at used
        exact (Point.state_busy _).2 used
    · rw [new] at context
      cases context

theorem step_marks_right (nameless : s.Nameless) (fresh : s.Fresh)
    (right : s.NotStray c) (stepped : s.Stepped c dest t e s') : s.MarksRight c s' := by
  constructor
  case named =>
    intro q before after
    rcases killed_step stepped before after with here | fault
    · refine .inl ⟨here, fun free => ?_⟩
      rw [nameless q free] at here
      exact right q here free
    · exact .inr fault
  case found =>
    intro pid q here returned
    have flow := stepped.flow
    rw [← stepped.here.resolve_right (by simp [here]), returned, here] at flow
    generalize (s.cpu c).thread = me at flow
    cases flow with
    | killFound p pid q named =>
      refine ⟨fun free => ?_, ?_⟩
      · rw [nameless q free] at named
        exact right q (named ▸ here) free
      · rw [stepped.fields q, Table.kill, Table.set_self]
  case born =>
    intro q here returned
    have flow := stepped.flow
    rw [← stepped.here.resolve_right (by simp [here]), returned, here] at flow
    generalize on : (s.cpu c).thread = me at flow
    cases flow with
    | allocInit p q =>
      rw [point_of_thread on] at here
      rw [stepped.fields q, Table.set_self]
      exact fresh p q here

omit [DecidableEq K] in
theorem panic_marks_right (why : Panic) : s.MarksRight c (s.panic why) where
  named q before after := by
    cases before.symm.trans after
  found pid q here returned := by
    cases here.symm.trans returned
  born q here returned := by
    cases here.symm.trans returned

/-- `kill(0)` returns 0 from a free slot that it tests. -/
theorem stray_returns [DecidableEq L] {choice : Choice n L K} (coh : s.Coherent)
    (nameless : s.Nameless) (here : s.point c = .killLocked 0 q)
    (free : (s.proc q).state = .UNUSED) (h : step s (c, choice) = some s') :
    s'.point c = .kernel [] := by
  rcases step_stepped coh h with ⟨why, -, -, -, o, found, may⟩ | ⟨dest, t, stepped⟩
  · rcases next_cases coh found with ⟨-, unheld, -⟩ | ⟨p, on, act⟩ | ⟨-, act⟩
    · rw [held, here] at unheld
      cases unheld
    · simp only [here, Process.act, nameless q free, if_true, Option.some.injEq] at act
      rw [← act, here] at may
      exact absurd (List.mem_singleton_self _) may
    · rw [here] at act
      cases act
  · rw [stepped.here.resolve_right (by simp [here])]
    have flow := stepped.flow
    rw [here] at flow
    generalize (s.cpu c).thread = me, observe s (c, choice) = e at flow
    cases flow with
    | killFound => rfl
    | killNext p pid q other => exact absurd (nameless q free) other
    | trap me point unheld => cases unheld
    | wakeup me chan point code | yield me point code | sleep me chan l point code => cases code

omit [DecidableEq K] in
theorem boot_nameless (init : Fin n) : (boot (L := L) (K := K) m init).Nameless := by
  intro q free
  by_cases same : q = init
  · subst same
    simp [boot, userinit] at free
  · simp [boot, userinit, same, unused]

omit [DecidableEq K] in
theorem boot_unmarked (init : Fin n) : (boot (L := L) (K := K) m init).Unmarked := by
  intro q free
  by_cases same : q = init
  · subst same
    simp [boot, userinit, unused]
  · simp [boot, userinit, same, unused]

end State

section Runs

variable [DecidableEq L] [DecidableEq K]

/-- What holds along every run in which no `kill()` tests a free slot for the pid 0, and in no
    other: free slots are not marked, and every move marks as it should. -/
theorem run_born_unmarked (init : Fin n) (ls : List (Label n m L K)) (s : State n m L K)
    (run : exec step (boot m init) ls = some s) :
    (Along step (fun s l => s.Unmarked ∧
        ∀ s', step s l = some s' → s.MarksRight l.1 s') (boot m init) ls ∧ s.Unmarked) ↔
      Along step (fun s l => s.NotStray l.1) (boot m init) ls := by
  constructor
  · rintro ⟨right, -⟩
    refine right.of_invariant (P := fun s => s.Coherent ∧ s.Nameless) ?_ ?_ run
      ⟨State.boot_coherent init, State.boot_nameless init⟩
    · rintro s ⟨c, choice⟩ s' ⟨coh, nameless⟩ - h
      refine ⟨State.step_coherent coh h, ?_⟩
      rcases State.step_stepped coh h with ⟨why, -, rfl, -⟩ | ⟨dest, t, stepped⟩
      · exact nameless
      · exact State.nameless_step coh nameless stepped
    · rintro s ⟨c, choice⟩ s' ⟨coh, nameless⟩ ⟨-, right⟩ h q here free
      have returns := State.stray_returns coh nameless here free h
      exact ((right s' h).found 0 q here returns).1 free
  · intro right
    have kept : ∀ (s : State n m L K) l s', (s.Coherent ∧ s.Nameless ∧ s.Unmarked ∧ s.Fresh) →
        s.NotStray l.1 → step s l = some s' →
          s'.Coherent ∧ s'.Nameless ∧ s'.Unmarked ∧ s'.Fresh := by
      rintro s ⟨c, choice⟩ s' ⟨coh, nameless, unmarked, fresh⟩ right h
      refine ⟨State.step_coherent coh h, ?_⟩
      rcases State.step_stepped coh h with ⟨why, -, rfl, -⟩ | ⟨dest, t, stepped⟩
      · exact ⟨nameless, unmarked, fresh⟩
      · exact ⟨State.nameless_step coh nameless stepped,
          State.unmarked_step coh nameless unmarked right stepped,
          State.fresh_step coh unmarked fresh stepped⟩
    have start : (boot (L := L) (K := K) m init).Fresh := by
      intro p q context
      rw [State.boot_context] at context
      cases context
    have begin : (fun s : State n m L K => s.Coherent ∧ s.Nameless ∧ s.Unmarked ∧ s.Fresh)
        (boot m init) :=
      ⟨State.boot_coherent init, State.boot_nameless init, State.boot_unmarked init, start⟩
    refine ⟨right.of_invariant kept ?_ run begin, ?_⟩
    · rintro s ⟨c, choice⟩ - ⟨coh, nameless, unmarked, fresh⟩ right -
      refine ⟨unmarked, fun s' h => ?_⟩
      rcases State.step_stepped coh h with ⟨why, -, rfl, -⟩ | ⟨dest, t, stepped⟩
      · exact State.panic_marks_right why
      · exact State.step_marks_right nameless fresh right stepped
    · exact (exec_invariant_along kept begin run right).2.2.1

/-- The first process calls `kill(pid)`. -/
def killRun (pid : Int) (moves : Nat) : List (Label 2 1 Unit Unit) :=
  alone ([.go, .go, .go, .go, .kill pid] ++ List.replicate moves .go)

theorem killRun_runs : (exec step (boot 1 0) (killRun 1 2)).isSome := by decide

/-- It may kill itself. -/
theorem own_kill_unmarked : ((exec step (boot 1 0) (killRun 1 2)).get killRun_runs).Unmarked :=
  ((run_born_unmarked 0 (killRun 1 2) _ (Option.some_get killRun_runs).symm).mpr
    (by decide)).2

theorem killRun_zero_runs : (exec step (boot 1 0) (killRun 0 4)).isSome := by decide

/-- After `kill(0)`, the free slot is marked and the call has returned 0. -/
theorem kill_zero_marks : ∃ s : State 2 1 Unit Unit,
    exec step (boot 1 0) (killRun 0 4) = some s ∧ s.point 0 = .kernel [] ∧ ¬ s.Unmarked :=
  ⟨_, (Option.some_get killRun_zero_runs).symm, by decide, fun unmarked =>
    absurd (unmarked 1 (by decide)) (by decide)⟩

end Runs

end Sistemas.Xv6.Process
