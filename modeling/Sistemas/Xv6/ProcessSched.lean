import Sistemas.Xv6.ProcessCoherent

/-! # Who runs where

Every move keeps the system coherent, so a process is on one CPU at most and `sched()` never
panics.  `Stepped` is what the modules after this one know of a move.
-/

namespace Sistemas.Xv6.Process

open Sistemas.Transition

variable {n m : Nat} {L K : Type}

namespace State

variable {s : State n m L K} {c d : Fin m} {p q : Fin n}

section Next

variable [DecidableEq L] [DecidableEq K] {choice : Choice n L K} {o : Outcome n L K}
  {dest : Point n L K} (coh : s.Coherent) (h : s.next c choice = some o)
include coh h

theorem next_cases : (choice = .interrupt ∧ s.held c = [] ∧
      o = .quiet s.toTable (.intr false (.handler [] (s.point c)))) ∨
    (∃ p, (s.cpu c).thread = some p ∧ act s.toTable (s.cpu c) p (s.point c) choice = some o) ∨
    ((s.cpu c).thread = none ∧ actScheduler s.toTable (s.cpu c) (s.point c) choice = some o) := by
  cases choice with
  | interrupt =>
    simp only [next, Option.ite_none_right_eq_some, Option.some.injEq] at h
    exact .inl ⟨rfl, coh.intr c h.1, h.2.symm⟩
  | _ =>
    simp only [next] at h
    split at h
    · rename_i p on
      exact .inr (.inl ⟨p, on, h⟩)
    · rename_i idle
      exact .inr (.inr ⟨idle, h⟩)

theorem next_fits : o.instr.Fits (s.cpu c).thread (s.point c) := by
  have sound := coh.sound_point c
  rcases next_cases coh h with ⟨-, free, rfl⟩ | ⟨p, on, act⟩ | ⟨idle, act⟩
  · exact ⟨free, rfl, ⟨free, sound⟩, .inl rfl⟩
  · rw [on] at sound ⊢
    exact act_fits sound act
  · rw [idle] at sound ⊢
    exact actScheduler_fits sound act

theorem next_flow (leads : o.instr.Leads dest) :
    Flow s.toTable (s.cpu c) (s.cpu c).thread (s.point c) dest o.table o.event := by
  rcases next_cases coh h with ⟨-, free, rfl⟩ | ⟨p, on, act⟩ | ⟨idle, act⟩
  · cases leads
    exact .trap _ _ free
  · rw [on]
    exact act_flow act leads
  · rw [idle]
    refine actScheduler_flow (fun busy => ?_) act leads
    obtain ⟨q, proc⟩ := Option.ne_none_iff_exists'.mp busy
    exact ⟨q, (point_of_idle idle).trans ((coh.proc_iff c q).mp proc)⟩

theorem next_unsched (plain : ∀ f, o.instr ≠ .sched f) (after : Point n L K) :
    s.point c ≠ .sched after := by
  intro here
  have sound := coh.sound_point c
  rw [here] at sound
  rcases next_cases coh h with ⟨-, free, -⟩ | ⟨p, on, act⟩ | ⟨idle, -⟩
  · obtain ⟨p, on⟩ := Option.ne_none_iff_exists'.mp sound.1
    rw [held, here, on] at free
    cases free
  · rw [here] at act
    cases act
    exact plain _ rfl
  · exact sound.1 idle

/-- The scheduler comes to `schedulerBack` and leaves it in a step of its own. -/
theorem next_plain (leads : o.instr.Leads dest)
    (noswitch : ∀ q dest, o.instr ≠ .swtch q dest) :
    (∀ q, dest ≠ .schedulerBack q) ∧
      ((s.cpu c).thread = none → (∀ dest, o.instr ≠ .idle dest) →
        ∀ q, s.point c ≠ .schedulerBack q) := by
  have flow := next_flow coh h leads
  constructor
  · rintro q rfl
    obtain ⟨idle, here, runnable⟩ := flow.back (coh.sound_point c)
    rcases next_cases coh h with ⟨-, free, -⟩ | ⟨p, on, -⟩ | ⟨-, act⟩
    · rw [held, here] at free
      cases free
    · rw [idle] at on
      cases on
    · simp only [here, actScheduler, runnable, if_true, Option.some.injEq] at act
      exact noswitch q _ (by rw [← act]; rfl)
  · intro idle noidle q here
    rcases next_cases coh h with ⟨-, free, -⟩ | ⟨p, on, -⟩ | ⟨-, act⟩
    · rw [held, here] at free
      cases free
    · rw [idle] at on
      cases on
    · simp only [here, actScheduler, Option.some.injEq] at act
      exact noidle _ (by rw [← act]; rfl)

theorem next_running (leads : o.instr.Leads dest)
    (follows : (s.point c).Follows (s.cpu c).thread dest) (unsched : ∀ after, s.point c ≠ .sched after) (on : (s.cpu c).thread = some p) :
    (o.table.proc p).state = dest.state := by
  have flow := next_flow coh h leads
  rw [on] at flow
  by_cases leaving : (s.point c).Leaving
  · exact flow.leaving leaving
  · have runs : (s.proc p).state = .RUNNING := by
      rw [coh.running c p on, ← point_of_thread on]
      cases here : s.point c with
      | sched after => exact absurd here (unsched after)
      | _ => rfl
    rw [(follows.running.resolve_right leaving)]
    exact (flow.change.running (fun _ => leaving) runs (fun r => coh.claimed c r)
      (fun busy r ready child => (coh.filled_point (on ▸ busy) ready child).1)).1

/-- What remains to be shown of an instruction that does not switch. -/
theorem plain_lands (lock : Lock n L → Option (Fin m)) (k : Cpu n L K) (leads : o.instr.Leads dest)
    (noswitch : ∀ q dest, o.instr ≠ .swtch q dest) (noidle : ∀ dest, o.instr ≠ .idle dest)
    (unsched : ∀ after, s.point c ≠ .sched after)
    (follows : (s.point c).Follows (s.cpu c).thread dest)
    (thread : k.thread = (s.cpu c).thread) (context : k.context = (s.cpu c).context)
    (proc : k.proc = (s.cpu c).proc)
    (locked : Locked lock (Function.update s.held c (dest.holds (s.cpu c).thread)))
    (noff : k.noff = (dest.holds (s.cpu c).thread).length)
    (intr : k.intr = true → dest.holds (s.cpu c).thread = []) :
    s.Lands c o.table lock k dest where
  thread := thread
  context := context
  follows := follows
  flow := ⟨_, next_flow coh h leads⟩
  locked := locked
  noff := noff
  intr := intr
  norun := (next_plain coh h leads noswitch).1
  proc p here := proc ▸ here
  proc_iff p := by
    rw [proc]
    cases on : (s.cpu c).thread with
    | some q =>
      rw [Cpu.jump, thread, on, context]
      exact coh.proc_iff c p
    | none =>
      obtain ⟨norun, noback⟩ := next_plain coh h leads noswitch
      simp only [Cpu.jump, thread, on, norun p, iff_false]
      intro here
      exact noback on noidle p ((point_of_idle on).trans ((coh.proc_iff c p).mp here))
  thread_proc p on := by
    rw [proc]
    exact coh.thread_proc c p (thread ▸ on)
  running p on := next_running coh h leads follows unsched on
  marked p chan lk after on here := by
    have flow := next_flow coh h leads
    rw [on, here] at flow
    exact flow.marked (on ▸ coh.sound_point c)

end Next

section Step

/-- What a step is to the processes: the thread of the CPU goes from its point to `next`, with the
    change of the process table that the code makes on the way. -/
structure Stepped [DecidableEq K] (s : State n m L K) (c : Fin m) (next : Point n L K)
    (t : Table n L K) (e : Option Event) (s' : State n m L K) : Prop where
  flow : Flow s.toTable (s.cpu c) (s.cpu c).thread (s.point c) next t e
  coherent : s'.Coherent
  moved : ∀ p, (s.cpu c).thread = some p → s'.proc p = { t.proc p with context := next }
  rest : ∀ q, (s.cpu c).thread ≠ some q → s'.proc q = t.proc q
  here : s'.point c = next ∨ (∃ after, s.point c = .sched after) ∨
    ∃ q, s.point c = .schedulerLocked q
  nextpid : s'.nextpid = t.nextpid
  initproc : s'.initproc = t.initproc
  panicked : s'.panicked = s.panicked

variable [DecidableEq L] [DecidableEq K] {choice : Choice n L K} {o : Outcome n L K}
  {s' : State n m L K} {dest : Point n L K}

omit [DecidableEq L] in
theorem land_stepped {lock : Lock n L → Option (Fin m)} {k : Cpu n L K} (coh : s.Coherent)
    (lands : s.Lands c o.table lock k dest)
    (flow : Flow s.toTable (s.cpu c) (s.cpu c).thread (s.point c) dest o.table o.event) :
    s.Stepped c dest o.table o.event (s.land c o.table lock k dest) where
  flow := flow
  coherent := land_coherent coh lands
  moved p on := land_proc_self (lands.thread ▸ on)
  rest q off := land_proc_of_ne (lands.thread ▸ off)
  here := .inl land_point_self
  nextpid := by
    simp only [land, goto, setCpu, Table.jump]
    split <;> rfl
  initproc := by
    simp only [land, goto, setCpu, Table.jump]
    split <;> rfl
  panicked := rfl

omit [DecidableEq L] in
theorem leave_stepped {after : Point n L K} {t : Table n L K} {e : Option Event} (coh : s.Coherent)
    (on : (s.cpu c).thread = some p) (here : s.point c = .sched after) {b : Bool}
    (flow : Flow s.toTable (s.cpu c) (s.cpu c).thread (s.point c) (.schedReturn b after) t e)
    (same : t = s.toTable) :
    s.Stepped c (.schedReturn b after) t e (s.leave c p (.schedReturn b after)) where
  flow := flow
  coherent := leave_coherent coh on here b
  moved q thread := by
    rw [on, Option.some.injEq] at thread
    subst thread same
    simp [leave, Table.set]
  rest q off := by
    have ne : q ≠ p := by
      rintro rfl
      exact off on
    subst same
    simp [leave, Table.set, ne]
  here := .inr (.inl ⟨after, here⟩)
  nextpid := by rw [same]; rfl
  initproc := by rw [same]; rfl
  panicked := rfl

omit [DecidableEq L] in
theorem enter_stepped {t : Table n L K} {e : Option Event} (coh : s.Coherent)
    (here : s.point c = .schedulerLocked q)
    (flow : Flow s.toTable (s.cpu c) (s.cpu c).thread (s.point c) (.schedulerBack q) t e) :
    s.Stepped c (.schedulerBack q) t e (s.enter c q) := by
  obtain ⟨idle, -, runnable⟩ := flow.back (coh.sound_point c)
  have table := (here ▸ flow).run_table
  refine ⟨flow, enter_coherent coh idle here runnable, ?_, ?_, .inr (.inr ⟨q, here⟩), ?_, ?_, rfl⟩
  · intro p on
    rw [idle] at on
    cases on
  · intro r off
    rw [table]
    rfl
  · rw [table]
    rfl
  · rw [table]
    rfl

omit [DecidableEq L] in
theorem idle_lands {t : Table n L K} {e : Option Event} (coh : s.Coherent)
    (here : s.point c = .schedulerBack q)
    (flow : Flow s.toTable (s.cpu c) (s.cpu c).thread (s.point c) (.schedulerRelease q) t e) :
    s.Lands c t s.lock { s.cpu c with proc := none } (.schedulerRelease q) := by
  have idle := (here ▸ flow).back_idle
  have held : s.held c = [.proc q] := by
    rw [held, here]
    rfl
  have keeps : Function.update s.held c
      ((Point.schedulerRelease q : Point n L K).holds (s.cpu c).thread) = s.held := by
    funext d
    by_cases same : d = c
    · subst same
      rw [Function.update_self, held]
      rfl
    · rw [Function.update_of_ne same]
  constructor
  case thread => rfl
  case context => rfl
  case follows => exact ⟨trivial, .inl rfl⟩
  case flow => exact ⟨e, flow⟩
  case locked =>
    rw [keeps]
    exact coh.locked
  case noff =>
    rw [coh.noff, held]
    rfl
  case intr =>
    intro enabled
    rw [coh.intr c enabled] at held
    cases held
  case norun => simp
  case proc => simp
  case proc_iff => simp [Cpu.jump, idle]
  case thread_proc =>
    intro p on
    rw [idle] at on
    cases on
  case running =>
    intro p on
    rw [idle] at on
    cases on
  case marked =>
    intro p chan lk after on
    rw [idle] at on
    cases on

/-- The panics that are left: a lock taken twice or given up by a thread that does not hold it, and
    the two of `exit()`. -/
def Panic.Outside (why : Panic) : Prop :=
  why = .acquire ∨ why = .release ∨ why = .initExiting ∨ why = .zombieExit

theorem next_quiet (coh : s.Coherent) (h : s.next c choice = some o)
    (may : o.instr.MayPanic (s.cpu c).thread (s.point c)) :
    o.table = s.toTable ∧ o.event = none := by
  rcases next_cases coh h with ⟨-, -, rfl⟩ | ⟨p, on, act⟩ | ⟨idle, act⟩
  · exact ⟨rfl, rfl⟩
  · exact act_quiet act (on ▸ may)
  · exact actScheduler_quiet act (idle ▸ may)

omit [DecidableEq L] [DecidableEq K] in
theorem popOff_ok {l : Lock n L} {rest : List (Lock n L)} (coh : s.Coherent)
    (perm : (s.held c).Perm (l :: rest)) :
    ∃ k, (s.cpu c).popOff = .ok k ∧ k.thread = (s.cpu c).thread ∧ k.context = (s.cpu c).context ∧
      k.proc = (s.cpu c).proc ∧ k.noff = rest.length ∧ (k.intr = true → rest = []) := by
  have length := perm.length_eq
  rw [List.length_cons, ← coh.noff] at length
  have off : (s.cpu c).intr = false := by
    rw [← Bool.not_eq_true]
    intro enabled
    rw [coh.intr c enabled] at perm
    simpa using perm.length_eq
  refine ⟨{ s.cpu c with
    noff := (s.cpu c).noff - 1, intr := (s.cpu c).noff - 1 = 0 ∧ (s.cpu c).intena },
    ?_, rfl, rfl, rfl, ?_, ?_⟩
  · rw [Cpu.popOff, if_neg (by simp [off]), if_neg (by omega)]
  · simp [length]
  · intro enabled
    have last := (of_decide_eq_true enabled).1
    exact List.length_eq_zero_iff.mp (by omega)

theorem perform_stepped (coh : s.Coherent) (h : s.next c choice = some o)
    (perf : ({ s with toTable := o.table } : State n m L K).perform c o.instr = some s') :
    (∃ why, Panic.Outside why ∧ s' = s.panic why ∧ o.event = none ∧
        o.instr.MayPanic (s.cpu c).thread (s.point c)) ∨
      ∃ dest, s.Stepped c dest o.table o.event s' := by
  have fits := next_fits coh h
  have held_update : ∀ {held : List (Lock n L)}, held = s.held c →
      Function.update s.held c held = s.held := by
    rintro held rfl
    exact Function.update_eq_self c s.held
  -- an instruction that leaves the locks alone
  have keeps : ∀ {next : Point n L K} (k : Cpu n L K), o.instr.Leads next →
      (∀ q dest, o.instr ≠ .swtch q dest) → (∀ dest, o.instr ≠ .idle dest) →
      (∀ f, o.instr ≠ .sched f) → (s.point c).Follows (s.cpu c).thread next →
      k.thread = (s.cpu c).thread → k.context = (s.cpu c).context → k.proc = (s.cpu c).proc →
      next.holds (s.cpu c).thread = s.held c → k.noff = (s.cpu c).noff →
      (k.intr = true → s.held c = []) →
      s.Stepped c next o.table o.event (s.land c o.table s.lock k next) := by
    intro next k leads noswitch noidle nosched follows thread context proc same noff intr
    refine land_stepped coh ?_ (next_flow coh h leads)
    refine plain_lands coh h _ _ leads noswitch noidle (next_unsched coh h nosched) follows thread
      context proc ?_ ?_ ?_
    · rw [held_update same]
      exact coh.locked
    · rw [noff, coh.noff, same]
    · rw [same]
      exact intr
  cases instr : o.instr with
  | go next =>
    rw [instr] at fits perf keeps
    obtain ⟨same, follows⟩ := fits
    have stepped := keeps (s.cpu c) rfl nofun nofun nofun follows rfl rfl rfl same rfl (coh.intr c)
    rw [land_same] at stepped
    exact .inr ⟨next, Option.some.inj perf ▸ stepped⟩
  | intr on next =>
    rw [instr] at fits perf keeps
    obtain ⟨free, same, follows⟩ := fits
    have held : s.held c = [] := free
    have stepped := keeps { s.cpu c with intr := on } rfl nofun nofun nofun follows rfl rfl rfl
      (same.trans held.symm) rfl (fun _ => held)
    exact .inr ⟨next, Option.some.inj perf ▸ stepped⟩
  | restore intena next =>
    rw [instr] at fits perf keeps
    obtain ⟨same, follows⟩ := fits
    have stepped := keeps { s.cpu c with intena := intena } rfl nofun nofun nofun follows rfl rfl
      rfl same rfl (coh.intr c)
    exact .inr ⟨next, Option.some.inj perf ▸ stepped⟩
  | acquire l next =>
    have quiet := next_quiet coh h (by rw [instr]; trivial)
    have leads : o.instr.Leads next := by rw [instr]; rfl
    have plain := fun lock k => plain_lands coh h lock k leads
      (by rw [instr]; nofun) (by rw [instr]; nofun) (next_unsched coh h (by rw [instr]; nofun))
    rw [instr] at fits perf
    obtain ⟨here, follows⟩ := fits
    have held : next.holds (s.cpu c).thread = l :: s.held c := here
    simp only [perform, acquire] at perf
    split at perf
    · obtain rfl := Option.some.inj perf
      exact .inl ⟨.acquire, .inl rfl, by rw [quiet.1], quiet.2, trivial⟩
    · split at perf
      · rename_i free
        have lands := plain (Function.update s.lock l (some c)) (s.cpu c).pushOff follows rfl rfl rfl
          (coh.locked.acquire free (fun d ne => Function.update_of_ne ne _ _)
            (by rw [Function.update_self, held]))
          (by rw [held, List.length_cons, ← coh.noff]; rfl) nofun
        exact .inr ⟨next, Option.some.inj perf ▸ land_stepped coh lands
          (next_flow coh h leads)⟩
      · cases perf
  | release l next =>
    have leads : o.instr.Leads next := by rw [instr]; rfl
    have plain := fun lock k => plain_lands coh h lock k leads
      (by rw [instr]; nofun) (by rw [instr]; nofun) (next_unsched coh h (by rw [instr]; nofun))
    have flow := next_flow coh h leads
    by_cases mine : l ∈ s.held c
    · rw [instr] at fits perf
      obtain ⟨follows, perm⟩ := fits
      have perm : (s.held c).Perm (l :: next.holds (s.cpu c).thread) := perm mine
      have lock : s.lock l = some c := (coh.locked.owner_iff l c).mpr mine
      obtain ⟨k, pop, thread, context, proc, noff, intr⟩ := popOff_ok coh perm
      simp only [perform, release, lock, if_true, pop] at perf
      have lands := plain (Function.update s.lock l none) k follows thread context proc
        (coh.locked.release (fun d ne => Function.update_of_ne ne _ _)
          (by rwa [Function.update_self])) noff intr
      exact .inr ⟨next, Option.some.inj perf ▸ land_stepped coh lands flow⟩
    · have quiet := next_quiet coh h (by rw [instr]; exact mine)
      have lock : s.lock l ≠ some c := fun owner => mine ((coh.locked.owner_iff l c).mp owner)
      rw [instr] at perf
      simp only [perform, release, lock, if_false] at perf
      obtain rfl := Option.some.inj perf
      exact .inl ⟨.release, .inr (.inl rfl), by rw [quiet.1], quiet.2, mine⟩
  | sched f =>
    have leads : o.instr.Leads (f (s.cpu c).intena) := by rw [instr]; exact ⟨_, rfl⟩
    have flow := next_flow coh h leads
    rw [instr] at fits perf
    obtain ⟨after, here, rfl⟩ := fits
    have sound := coh.sound_point c
    rw [here] at sound
    obtain ⟨p, on⟩ := Option.ne_none_iff_exists'.mp sound.1
    have same := (here ▸ flow).sched_table
    rw [same.1] at perf
    have left := sched_eq coh on here
    obtain rfl := Option.some.inj (perf.symm.trans left)
    exact .inr ⟨_, leave_stepped coh on here flow same.1⟩
  | swtch q next =>
    have leads : o.instr.Leads next := by rw [instr]; rfl
    have flow := next_flow coh h leads
    rw [instr] at fits perf
    obtain ⟨here, rfl⟩ := fits
    obtain ⟨idle, -, -⟩ := flow.back (coh.sound_point c)
    have entered : s' = s.enter c q := by
      simp only [perform, Option.some.injEq, (here ▸ flow).run_table] at perf
      rw [← perf]
      simp [goto, setCpu, enter, idle, Table.jump, Cpu.jump]
    exact .inr ⟨_, entered ▸ enter_stepped coh here flow⟩
  | idle next =>
    have leads : o.instr.Leads next := by rw [instr]; rfl
    have flow := next_flow coh h leads
    rw [instr] at fits perf
    obtain ⟨q, here, rfl⟩ := fits
    have landed : s' = s.land c o.table s.lock { s.cpu c with proc := none }
        (.schedulerRelease q) := (Option.some.inj perf).symm
    exact .inr ⟨_, landed ▸ land_stepped coh (idle_lands coh here flow) flow⟩
  | panic why =>
    have quiet := next_quiet coh h (by rw [instr]; trivial)
    rw [instr] at fits perf
    obtain rfl := Option.some.inj perf
    exact .inl ⟨why, .inr (.inr fits), by rw [quiet.1], quiet.2, trivial⟩

theorem step_stepped (coh : s.Coherent) (h : step s (c, choice) = some s') :
    (∃ why, Panic.Outside why ∧ s' = s.panic why ∧ observe s (c, choice) = none ∧
        ∃ o, s.next c choice = some o ∧ o.instr.MayPanic (s.cpu c).thread (s.point c)) ∨
      ∃ dest t, s.Stepped c dest t (observe s (c, choice)) s' := by
  simp only [step, ne_eq, ite_not] at h
  split at h
  · obtain ⟨o, found, perf⟩ := Option.bind_eq_some_iff.mp h
    have event : observe s (c, choice) = o.event := by simp [observe, found]
    rw [event]
    rcases perform_stepped coh found perf with ⟨why, outside, same, none, may⟩ | ⟨dest, stepped⟩
    · exact .inl ⟨why, outside, same, none, o, found, may⟩
    · exact .inr ⟨dest, o.table, stepped⟩
  · cases h

omit [DecidableEq L] [DecidableEq K] in
theorem panic_coherent (coh : s.Coherent) (why : Panic) : (s.panic why).Coherent where
  locked := coh.locked
  noff := coh.noff
  intr := coh.intr
  sound := coh.sound
  soundCpu := coh.soundCpu
  proc_iff := coh.proc_iff
  thread_proc := coh.thread_proc
  proc_inj := coh.proc_inj
  running := coh.running
  marked := coh.marked
  parked := coh.parked
  claimed := coh.claimed
  filled := coh.filled
  filled_once := coh.filled_once

theorem step_coherent (coh : s.Coherent) (h : step s (c, choice) = some s') : s'.Coherent := by
  rcases step_stepped coh h with ⟨why, -, rfl, -⟩ | ⟨dest, t, stepped⟩
  · exact panic_coherent coh why
  · exact stepped.coherent

end Step

/-! ## What a step leaves alone -/

section Stepped

variable [DecidableEq K] {dest : Point n L K} {t : Table n L K} {e : Option Event}
  {s' : State n m L K}

theorem Stepped.change (stepped : s.Stepped c dest t e s') :
    Change s.toTable (s.cpu c).thread (s.point c) t :=
  stepped.flow.change

theorem Stepped.fields (stepped : s.Stepped c dest t e s') (q : Fin n) :
    s'.proc q = { t.proc q with context := (s'.proc q).context } := by
  by_cases on : (s.cpu c).thread = some q
  · rw [stepped.moved q on]
  · rw [stepped.rest q on]

theorem Stepped.state_eq (stepped : s.Stepped c dest t e s') (q : Fin n) :
    (s'.proc q).state = (t.proc q).state := by
  rw [stepped.fields q]

theorem Stepped.context_self (stepped : s.Stepped c dest t e s') (on : (s.cpu c).thread = some p) :
    (s'.proc p).context = dest := by
  rw [stepped.moved p on]

/-- A process moves on by itself; only a new one is put at the start of `forkret()`. -/
theorem Stepped.context_of_ne (coh : s.Coherent) (stepped : s.Stepped c dest t e s')
    (off : (s.cpu c).thread ≠ some q) :
    (s'.proc q).context = (s.proc q).context ∨
      ((s'.proc q).context = .forkret ∧ ((s.proc q).context = .forkret ∨
        ∃ b, (s.proc q).context = .schedReturn b .zombieExit)) := by
  rw [stepped.rest q off]
  rcases stepped.change.context (q := q) with same | ⟨here, busy, new⟩
  · exact .inl same
  · have used := (coh.filled_point (c := c) (q := q) busy false (by rw [here]; rfl)).1
    have idle : ∀ d, (s.cpu d).thread ≠ some q := by
      intro d on
      rw [coh.running d q on] at used
      exact (Point.state_busy _).2 used
    exact .inr ⟨new, (coh.parked q idle).left (.inr (.inl used))⟩

end Stepped

/-! ## Every run -/

theorem boot_parked (init p : Fin n) : ((boot (L := L) (K := K) m init).proc p).Parked := by
  by_cases same : p = init
  · subst same
    exact .new (by simp [boot, userinit]) (by simp [boot, userinit, unused])
  · exact .off (.inl (by simp [boot, userinit, same, unused]))
      (.inl (by simp [boot, userinit, same, unused]))

theorem boot_context (init p : Fin n) :
    ((boot (L := L) (K := K) m init).proc p).context = .forkret := by
  by_cases same : p = init
  · subst same
    simp [boot, userinit, unused]
  · simp [boot, userinit, same, unused]

theorem boot_coherent (init : Fin n) : (boot (L := L) (K := K) m init).Coherent := by
  have held : ∀ c, (boot (L := L) (K := K) m init).held c = [] := fun _ => rfl
  constructor
  case locked => exact ⟨fun l c => by simp [held]; simp [boot], fun c => by rw [held]; exact .nil⟩
  case noff => exact fun c => rfl
  case intr => exact fun c _ => held c
  case sound =>
    intro p
    rw [boot_context]
    trivial
  case soundCpu => exact fun c => trivial
  case proc_iff => simp [boot]
  case thread_proc => exact fun c p => nofun
  case proc_inj => exact fun c d p => nofun
  case running => exact fun c p => nofun
  case marked => exact fun c p chan lk next => nofun
  case parked => exact fun p _ => boot_parked init p
  case claimed => exact fun c q => nofun
  case filled =>
    intro p q ready child
    rw [boot_context] at child
    cases child
  case filled_once =>
    intro p p' q ready ready' child
    rw [boot_context] at child
    cases child

section Runs

variable [DecidableEq L] [DecidableEq K] {init : Fin n} {ls : List (Label n m L K)}

theorem run_coherent (run : exec step (boot m init) ls = some s) : s.Coherent :=
  exec_invariant (fun _ _ _ coh h => step_coherent coh h) (boot_coherent init) run

theorem run_panics (run : exec step (boot m init) ls = some s) :
    s.panicked = none ∨ ∃ why, Panic.Outside why ∧ s.panicked = some why := by
  refine (exec_invariant (P := fun s : State n m L K => s.Coherent ∧
    (s.panicked = none ∨ ∃ why, Panic.Outside why ∧ s.panicked = some why)) ?_
    ⟨boot_coherent init, .inl rfl⟩ run).2
  rintro s ⟨c, choice⟩ s' ⟨coh, before⟩ h
  refine ⟨step_coherent coh h, ?_⟩
  rcases step_stepped coh h with ⟨why, outside, rfl, -⟩ | ⟨dest, t, stepped⟩
  · exact .inr ⟨why, outside, rfl⟩
  · rw [stepped.panicked]
    exact before

end Runs

end State

/-! ## One CPU at most -/

section OneCpu

variable [DecidableEq L] [DecidableEq K]

theorem run_one_cpu (init : Fin n) (ls : List (Label n m L K)) (s : State n m L K)
    (run : exec step (boot m init) ls = some s) :
    (∀ c d p, (s.cpu c).proc = some p → (s.cpu d).proc = some p → c = d) ∧
      (∀ p, (s.proc p).state = .RUNNING → s.lock (.proc p) = none →
        ∃! c, (s.cpu c).proc = some p) ∧
      s.panicked ≠ some .schedLock ∧ s.panicked ≠ some .schedLocks ∧
      s.panicked ≠ some .schedRunning ∧ s.panicked ≠ some .schedInterruptible := by
  have coh := State.run_coherent run
  refine ⟨coh.proc_inj, fun p running _ => ?_, ?_⟩
  · by_cases on : ∃ c, (s.cpu c).thread = some p
    · obtain ⟨c, on⟩ := on
      have here := coh.thread_proc c p on
      exact ⟨c, here, fun d there => coh.proc_inj d c p there here⟩
    · -- off the CPUs a process is not RUNNING
      have parked := coh.parked p (fun c here => on ⟨c, here⟩)
      cases parked with
      | off state => simp [running] at state
      | new state => simp [running] at state
      | yielded state => simp [running] at state
      | asleep state => simp [running] at state
  · rcases State.run_panics run with none | ⟨why, outside, some⟩
    · simp [none]
    · rw [some]
      rcases outside with rfl | rfl | rfl | rfl <;> simp

def firstCpu : Fin 2 := ⟨0, Nat.two_pos⟩

def secondCpu : Fin 2 := ⟨1, Nat.one_lt_two⟩

/-- One CPU runs the first process, which forks, and then the other one runs the child. -/
def pairRun : List (Label 2 2 Unit Unit) :=
  List.replicate 4 (firstCpu, .go) ++ (firstCpu, .fork) :: List.replicate 13 (firstCpu, .go) ++
    List.replicate 7 (secondCpu, .go)

theorem pairRun_runs : (exec step (boot 2 0) pairRun).isSome := by decide

theorem pair_one_cpu :
    (∃! c, (((exec step (boot 2 0) pairRun).get pairRun_runs).cpu c).proc = some 0) ∧
      ∃! c, (((exec step (boot 2 0) pairRun).get pairRun_runs).cpu c).proc = some 1 :=
  have ⟨_, running, _⟩ := run_one_cpu 0 pairRun _ (Option.some_get pairRun_runs).symm
  ⟨running 0 (by decide) (by decide), running 1 (by decide) (by decide)⟩

end OneCpu

end Sistemas.Xv6.Process
