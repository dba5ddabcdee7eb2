import Sistemas.Xv6.ProcessLocks

/-! # The control flow of `proc.c`

`Flow` lists from which point a thread comes to which, with the tests it made on the way; every
move follows it (`next_flow`).  The invariants of the modules below are about the points of
threads, and look up here how a thread can have come to one.
-/

namespace Sistemas.Xv6.Process

variable {n m : Nat} {L K : Type}

def Instr.Leads : Instr n L K → Point n L K → Prop
  | .go next, dest | .acquire _ next, dest | .release _ next, dest | .intr _ next, dest
  | .restore _ next, dest | .swtch _ next, dest | .idle next, dest => dest = next
  | .sched next, dest => ∃ intena, dest = next intena
  | .panic _, _ => False

/-- Code outside `proc.c`, which calls `wakeup()`, `yield()` and `sleep()`. -/
inductive Point.Code : Point n L K → Prop where
  | kernel (held : List L) : Code (.kernel held)
  | handler (held : List L) (below : Point n L K) : Code (.handler held below)
  | exitFiles (status : Int) (held : List L) : Code (.exitFiles status held)

inductive Flow [DecidableEq K] (t : Table n L K) (c : Cpu n L K) :
    Option (Fin n) → Point n L K → Point n L K → Table n L K → Option Event → Prop where
  | kernel (p) (held held') : Flow t c (some p) (.kernel held) (.kernel held') t none
  | handler (me) (held held' below) :
      Flow t c me (.handler held below) (.handler held' below) t none
  | exitFiles (p) (status held held') :
      Flow t c (some p) (.exitFiles status held) (.exitFiles status held') t none
  | trap (me) (point) (free : point.holds me = []) :
      Flow t c me point (.handler [] point) t none
  | resume (me) (below) : Flow t c me (.handler [] below) below t none
  -- wakeup
  | wakeup (me) (chan) (point) (code : point.Code) : Flow t c me point (.wakeup chan 0 point) t none
  | wakeupSelf (me) (chan next) (q : Fin n) (self : c.proc = some q) :
      Flow t c me (.wakeup chan q next) (.wakeup chan (q + 1) next) t none
  | wakeupAcquire (me) (chan next) (q : Fin n) (other : c.proc ≠ some q) :
      Flow t c me (.wakeup chan q next) (.wakeupLocked chan q next) t none
  | wakeupRelease (me) (chan q next) :
      Flow t c me (.wakeupLocked chan q next) (.wakeup chan (q + 1) next) (t.wake chan q) none
  | wakeupDone (me) (chan i next) (done : n ≤ i) : Flow t c me (.wakeup chan i next) next t none
  -- sched
  | sched (p) (intena next) : Flow t c (some p) (.sched next) (.schedReturn intena next) t none
  | schedReturn (p) (intena next) : Flow t c (some p) (.schedReturn intena next) next t none
  -- yield
  | yield (p) (point) (code : point.Code) : Flow t c (some p) point (.yield point) t none
  | yieldAcquire (p) (next) : Flow t c (some p) (.yield next) (.yieldLocked next) t none
  | yieldMark (p) (next) :
      Flow t c (some p) (.yieldLocked next) (.sched (.yieldRelease next))
        (t.set p fun q => { q with state := .RUNNABLE }) none
  | yieldRelease (p) (next) : Flow t c (some p) (.yieldRelease next) next t none
  -- sleep
  | sleep (p) (chan) (l : L) (point) (code : point.Code)
      (process : ∀ held below, point ≠ .handler held below) :
      Flow t c (some p) point (.sleep chan (.other l) point) t none
  | sleepAcquire (p) (chan lk next) :
      Flow t c (some p) (.sleep chan lk next) (.sleepRelease chan lk next) t none
  | sleepRelease (p) (chan lk next) :
      Flow t c (some p) (.sleepRelease chan lk next) (.sleepMark chan lk next) t none
  | sleepMark (p) (chan lk next) :
      Flow t c (some p) (.sleepMark chan lk next) (.sched (.sleepTidy chan lk next))
        (t.set p fun q => { q with chan := chan, state := .SLEEPING }) none
  | sleepTidy (p) (chan lk next) :
      Flow t c (some p) (.sleepTidy chan lk next) (.sleepReacquire chan lk next)
        (t.set p fun q => { q with chan := .null }) none
  | sleepReacquire (p) (chan lk next) : Flow t c (some p) (.sleepReacquire chan lk next) next t none
  -- kill and setkilled
  | kill (p) (pid) : Flow t c (some p) (.kernel []) (.kill pid 0) t none
  | killAcquire (p) (pid q) : Flow t c (some p) (.kill pid (q : Fin n)) (.killLocked pid q) t none
  | killNext (p) (pid q) (other : (t.proc q).pid ≠ pid) :
      Flow t c (some p) (.killLocked pid q) (.kill pid (q + 1)) t none
  | killFound (p) (pid q) (named : (t.proc q).pid = pid) :
      Flow t c (some p) (.killLocked pid q) (.kernel []) (t.kill q) none
  | killDone (p) (pid i) (done : n ≤ i) : Flow t c (some p) (.kill pid i) (.kernel []) t none
  | setkilled (p) : Flow t c (some p) (.kernel []) .setkilled t none
  | setkilledAcquire (p) : Flow t c (some p) .setkilled .setkilledLocked t none
  | setkilledRelease (p) :
      Flow t c (some p) .setkilledLocked (.kernel [])
        (t.set p fun q => { q with killed := true }) none
  -- fork
  | fork (p) : Flow t c (some p) (.kernel []) (.alloc 0) t (some (.fork (t.proc p).pid))
  | allocAcquire (p) (q) : Flow t c (some p) (.alloc (q : Fin n)) (.allocLocked q) t none
  | allocNext (p) (q) (busy : (t.proc q).state ≠ .UNUSED) :
      Flow t c (some p) (.allocLocked q) (.alloc (q + 1)) t none
  | allocDone (p) (i) (done : n ≤ i) : Flow t c (some p) (.alloc i) (.kernel []) t none
  | allocFound (p) (q) (free : (t.proc q).state = .UNUSED) :
      Flow t c (some p) (.allocLocked q) (.allocpid q) t none
  | allocpid (p) (q) : Flow t c (some p) (.allocpid q) (.allocpidLocked q) t none
  | allocpidRelease (p) (q) :
      Flow t c (some p) (.allocpidLocked q) (.allocUsed q t.nextpid)
        { t with nextpid := wrapInt (t.nextpid + 1) } none
  | allocUsed (p) (q pid) :
      Flow t c (some p) (.allocUsed q pid) (.allocInit q)
        (t.set q fun r => { r with pid := pid, state := .USED }) none
  | allocInit (p) (q) :
      Flow t c (some p) (.allocInit q) (.forkCopy q)
        (t.set q fun r => { r with context := .forkret }) none
  | allocFail (p) (q) :
      Flow t c (some p) (.allocInit q) (.kernel [])
        (t.freeproc q) (some (.forkFailed (t.proc q).pid))
  | forkFail (p) (q) :
      Flow t c (some p) (.forkCopy q) (.kernel [])
        (t.freeproc q) (some (.forkFailed (t.proc q).pid))
  | forkCopy (p) (q) : Flow t c (some p) (.forkCopy q) (.forkParent q) t none
  | forkParent (p) (q) : Flow t c (some p) (.forkParent q) (.forkParentLocked q) t none
  | forkPublish (p) (q) :
      Flow t c (some p) (.forkParentLocked q) (.forkRunnable q)
        (t.set q fun r => { r with parent := some p })
        (some (.forked (t.proc p).pid (t.proc q).pid))
  | forkRunnable (p) (q) : Flow t c (some p) (.forkRunnable q) (.forkRunnableLocked q) t none
  | forkDone (p) (q) :
      Flow t c (some p) (.forkRunnableLocked q) (.kernel [])
        (t.set q fun r => { r with state := .RUNNABLE }) none
  -- exit
  | exit (p) (status) (ordinary : p ≠ t.initproc) :
      Flow t c (some p) (.kernel []) (.exitFiles status []) t (some (.exited (t.proc p).pid status))
  | exitAcquire (p) (status) :
      Flow t c (some p) (.exitFiles status []) (.exitReparent status 0) t none
  | reparentNext (p) (status) (q) (other : (t.proc q).parent ≠ some p) :
      Flow t c (some p) (.exitReparent status (q : Fin n)) (.exitReparent status (q + 1)) t none
  | reparentChild (p) (status) (q) (child : (t.proc q).parent = some p) :
      Flow t c (some p) (.exitReparent status (q : Fin n))
        (.wakeup (.proc t.initproc) 0 (.exitReparent status (q + 1)))
        (t.set q fun r => { r with parent := some t.initproc }) none
  | reparentDone (p) (status i r) (done : n ≤ i) (parent : (t.proc p).parent = some r) :
      Flow t c (some p) (.exitReparent status i) (.wakeup (.proc r) 0 (.exitLock status)) t none
  | reparentOrphan (p) (status i) (done : n ≤ i) (parent : (t.proc p).parent = none) :
      Flow t c (some p) (.exitReparent status i) (.wakeup .null 0 (.exitLock status)) t none
  | exitLock (p) (status) : Flow t c (some p) (.exitLock status) (.exitZombie status) t none
  | exitZombie (p) (status) :
      Flow t c (some p) (.exitZombie status) (.sched .zombieExit)
        (t.set p fun q => { q with xstate := status, state := .ZOMBIE }) none
  -- wait
  | wait (p) (addr) : Flow t c (some p) (.kernel []) (.wait addr) t none
  | waitAcquire (p) (addr) : Flow t c (some p) (.wait addr) (.waitScan addr 0 false) t none
  | waitNext (p) (addr havekids) (q) (other : (t.proc q).parent ≠ some p) :
      Flow t c (some p) (.waitScan addr (q : Fin n) havekids) (.waitScan addr (q + 1) havekids)
        t none
  | waitChild (p) (addr havekids) (q) (child : (t.proc q).parent = some p) :
      Flow t c (some p) (.waitScan addr (q : Fin n) havekids) (.waitChild addr q) t none
  | waitAlive (p) (addr q) (alive : (t.proc q).state ≠ .ZOMBIE) :
      Flow t c (some p) (.waitChild addr q) (.waitScan addr (q + 1) true) t none
  | waitReap (p) (addr q) (zombie : (t.proc q).state = .ZOMBIE) :
      Flow t c (some p) (.waitChild addr q) (.waitReturn (t.proc q).pid) (t.freeproc q)
        (some (.reaped (t.proc p).pid (t.proc q).pid (t.proc q).xstate))
  | waitFail (p) (addr q) (zombie : (t.proc q).state = .ZOMBIE) (status : addr ≠ 0) :
      Flow t c (some p) (.waitChild addr q) (.waitReturn (-1)) t none
  | waitNone (p) (addr i) (done : n ≤ i) :
      Flow t c (some p) (.waitScan addr i false) (.waitReturn (-1)) t none
  | waitScanned (p) (addr i) (done : n ≤ i) :
      Flow t c (some p) (.waitScan addr i true) (.waitKilled addr) t none
  | waitKilled (p) (addr) (killed : (t.proc p).killed = true) :
      Flow t c (some p) (.waitKilled addr) (.waitReturn (-1)) t none
  | waitSleep (p) (addr) (killed : (t.proc p).killed = false) :
      Flow t c (some p) (.waitKilled addr) (.sleep (.proc p) .wait (.waitScan addr 0 false)) t none
  | waitReturn (p) (result) : Flow t c (some p) (.waitReturn result) (.kernel []) t none
  | forkret (p) : Flow t c (some p) .forkret (.kernel []) t none
  -- scheduler
  | schedulerAcquire (q) : Flow t c none (.scheduler (q : Fin n)) (.schedulerLocked q) t none
  | schedulerLoop (i) : Flow t c none (.scheduler i) (.scheduler 0) t none
  | schedulerSkip (q) : Flow t c none (.schedulerLocked q) (.schedulerRelease q) t none
  | schedulerRun (q) (runnable : (t.proc q).state = .RUNNABLE) :
      Flow t c none (.schedulerLocked q) (.schedulerBack q)
        (t.set q fun r => { r with state := .RUNNING }) none
  | schedulerBack (q) : Flow t c none (.schedulerBack q) (.schedulerRelease q) t none
  | schedulerRelease (q) : Flow t c none (.schedulerRelease q) (.scheduler (q + 1)) t none

theorem Flow.change [DecidableEq K] {t t' : Table n L K} {c : Cpu n L K} {me : Option (Fin n)}
    {point next : Point n L K} {e : Option Event} (flow : Flow t c me point next t' e) :
    Change t me point t' := by
  cases flow with
  | allocFail p q => exact .fail p q _ (.inl rfl)
  | forkFail p q => exact .fail p q _ (.inr rfl)
  | waitReap p addr q zombie => exact .reap p addr q zombie
  | _ => first | exact .same _ _ | constructor <;> assumption

section

variable [DecidableEq K] {t : Table n L K} {c : Cpu n L K} {me : Option (Fin n)} {held : List L}
  {choice : Choice n L K} {dest : Point n L K}

theorem wakeupCode_flow {chan : Chan n K} {i : Nat} {next : Point n L K}
    (leads : (wakeupCode c chan i next).Leads dest) :
    Flow t c me (.wakeup chan i next) dest t none := by
  unfold wakeupCode at leads
  split at leads
  · split at leads
    · cases leads
      exact .wakeupSelf me chan next ⟨i, _⟩ ‹_›
    · cases leads
      exact .wakeupAcquire me chan next ⟨i, _⟩ ‹_›
  · cases leads
    exact .wakeupDone me chan i dest (by omega)

variable [DecidableEq L]

theorem lockCode_flow (back : List L → Point n L K) {instr : Instr n L K}
    (same : ∀ held held', Flow t c me (back held) (back held') t none)
    (code : ∀ held, (back held).Code) (h : lockCode back held choice = some instr)
    (leads : instr.Leads dest) : Flow t c me (back held) dest t none := by
  cases choice with
  | acquire | release =>
    cases h
    cases leads
    exact same _ _
  | wakeup chan =>
    cases h
    cases leads
    exact .wakeup _ chan _ (code _)
  | _ => cases h

theorem sleepCode_flow (back : List L → Point n L K) {p : Fin n} {instr : Instr n L K}
    (same : ∀ held held', Flow t c (some p) (back held) (back held') t none)
    (code : ∀ held, (back held).Code)
    (process : ∀ held held' below, back held ≠ .handler held' below)
    (h : sleepCode back held choice = some instr)
    (leads : instr.Leads dest) : Flow t c (some p) (back held) dest t none := by
  cases choice with
  | sleep chan l =>
    simp only [sleepCode, Option.ite_none_right_eq_some, Option.some.injEq] at h
    obtain ⟨rfl, rfl⟩ := h
    cases leads
    exact .sleep p chan l _ (code _) (process _)
  | _ =>
    simp only [sleepCode] at h
    exact lockCode_flow back same code h leads

theorem kernelCode_flow {p : Fin n} {o : Outcome n L K}
    (h : kernelCode t p held choice = some o) (leads : o.instr.Leads dest) :
    Flow t c (some p) (.kernel held) dest o.table o.event := by
  cases choice with
  | intr | yield | kill | setkilled | fork | wait =>
    simp only [kernelCode, Option.ite_none_right_eq_some, Option.some.injEq] at h
    obtain ⟨rfl, rfl⟩ := h
    cases leads
    first
      | exact .yield p _ (.kernel _)
      | constructor
  | exit status =>
    simp only [kernelCode, Option.ite_none_right_eq_some] at h
    obtain ⟨rfl, h⟩ := h
    split at h
    · cases h
      exact leads.elim
    · cases h
      cases leads
      exact .exit p status ‹_›
  | _ =>
    simp only [kernelCode, Option.map_eq_some_iff] at h
    obtain ⟨instr, h, rfl⟩ := h
    exact sleepCode_flow .kernel (.kernel p) .kernel (by simp) h leads

/-- The handler of a scheduler's thread finds no process to yield. -/
theorem handlerCode_flow {below : Point n L K} {instr : Instr n L K}
    (mine : c.proc ≠ none → me ≠ none)
    (h : handlerCode t c held below choice = some instr) (leads : instr.Leads dest) :
    Flow t c me (.handler held below) dest t none := by
  cases choice with
  | go =>
    simp only [handlerCode, Option.ite_none_right_eq_some, Option.some.injEq] at h
    obtain ⟨rfl, rfl⟩ := h
    cases leads
    exact .resume me dest
  | yield =>
    simp only [handlerCode] at h
    split at h
    · rename_i p proc
      simp only [Option.ite_none_right_eq_some, Option.some.injEq] at h
      obtain ⟨⟨rfl, -⟩, rfl⟩ := h
      cases leads
      cases me with
      | none => exact absurd rfl (mine (by simp [proc]))
      | some p => exact .yield p _ (.handler _ _)
    · cases h
  | _ =>
    simp only [handlerCode] at h
    exact lockCode_flow (fun held => .handler held below) (fun _ _ => .handler me _ _ _)
      (fun _ => .handler _ _) h leads

theorem act_flow {p : Fin n} {point : Point n L K} {o : Outcome n L K}
    (h : act t c p point choice = some o) (leads : o.instr.Leads dest) :
    Flow t c (some p) point dest o.table o.event := by
  cases point with
  | kernel held => exact kernelCode_flow h leads
  | handler held below =>
    obtain ⟨instr, code, rfl⟩ := Option.map_eq_some_iff.mp h
    exact handlerCode_flow (by simp) code leads
  | wakeup chan i next =>
    cases h
    exact wakeupCode_flow leads
  | exitFiles status held =>
    cases choice with
    | go =>
      simp only [act, Option.ite_none_right_eq_some, Option.some.injEq] at h
      obtain ⟨rfl, rfl⟩ := h
      cases leads
      exact .exitAcquire p status
    | _ =>
      simp only [act, Option.map_eq_some_iff] at h
      obtain ⟨instr, h, rfl⟩ := h
      exact sleepCode_flow (.exitFiles status) (.exitFiles p status) (.exitFiles status)
        (by simp) h leads
  | sched next =>
    cases h
    obtain ⟨intena, rfl⟩ := leads
    exact .sched p intena next
  | kill pid i =>
    simp only [act] at h
    split at h
    · cases h
      cases leads
      exact .killAcquire p pid ⟨i, _⟩
    · cases h
      cases leads
      exact .killDone p pid i (by omega)
  | alloc i =>
    simp only [act] at h
    split at h
    · cases h
      cases leads
      exact .allocAcquire p ⟨i, _⟩
    · cases h
      cases leads
      exact .allocDone p i (by omega)
  | exitReparent status i =>
    simp only [act] at h
    split at h
    · split at h
      · cases h
        cases leads
        exact .reparentChild p status ⟨i, _⟩ ‹_›
      · cases h
        cases leads
        exact .reparentNext p status ⟨i, _⟩ ‹_›
    · split at h
      · cases h
        cases leads
        exact .reparentDone p status i _ (by omega) ‹_›
      · cases h
        cases leads
        exact .reparentOrphan p status i (by omega) ‹_›
  | waitScan addr i havekids =>
    simp only [act] at h
    split at h
    · split at h
      · cases h
        cases leads
        exact .waitChild p addr havekids ⟨i, _⟩ ‹_›
      · cases h
        cases leads
        exact .waitNext p addr havekids ⟨i, _⟩ ‹_›
    · split at h
      · rename_i havekids
        cases h
        cases leads
        subst havekids
        exact .waitScanned p addr i (by omega)
      · rename_i nokids
        cases h
        cases leads
        rw [Bool.not_eq_true] at nokids
        subst nokids
        exact .waitNone p addr i (by omega)
  | waitKilled addr =>
    simp only [act] at h
    split at h
    · cases h
      cases leads
      exact .waitKilled p addr ‹_›
    · rename_i alive
      cases h
      cases leads
      rw [Bool.not_eq_true] at alive
      exact .waitSleep p addr alive
  | _ =>
    simp only [act, reduceCtorEq] at h
    repeat' split at h
    all_goals cases h
    all_goals cases leads
    all_goals constructor <;> assumption

theorem actScheduler_flow {point : Point n L K} {o : Outcome n L K}
    (idle : c.proc ≠ none → ∃ q, point = .schedulerBack q)
    (h : actScheduler t c point choice = some o) (leads : o.instr.Leads dest) :
    Flow t c none point dest o.table o.event := by
  cases point with
  | handler held below =>
    obtain ⟨instr, code, rfl⟩ := Option.map_eq_some_iff.mp h
    refine handlerCode_flow (fun busy => ?_) code leads
    obtain ⟨q, back⟩ := idle busy
    cases back
  | wakeup chan i next =>
    cases h
    exact wakeupCode_flow leads
  | scheduler i =>
    simp only [actScheduler] at h
    split at h
    · cases h
      cases leads
      exact .schedulerAcquire ⟨i, _⟩
    · cases h
      cases leads
      exact .schedulerLoop i
  | schedulerLocked | schedulerBack | schedulerRelease | wakeupLocked =>
    simp only [actScheduler] at h
    repeat' split at h
    all_goals cases h
    all_goals cases leads
    all_goals constructor <;> assumption
  | _ => cases h

end

end Sistemas.Xv6.Process
