import Mathlib.Logic.Function.Basic
import Sistemas.Transition.Run
import Sistemas.Xv6.Process

/-! # The code of `proc.c`, step by step

`act` and `actScheduler` give what a thread does next at each point: its change to the process
table, and one instruction of the machine below it, with the point that follows.  `perform`
carries the instruction out on the CPU: the spinlocks of `spinlock.c`, `swtch`, and the checks of
`sched()`.  A `step` is one CPU's move, or an interrupt it takes.

A `Choice` settles what the model leaves open: what code outside `proc.c` does next, and whether
an allocation or a copy fails.
-/

namespace Sistemas.Xv6.Process

variable {n m : Nat} {L K : Type} [DecidableEq L] [DecidableEq K]

inductive Choice (n : Nat) (L K : Type) where
  | go
  | fail
  | interrupt
  | intr (on : Bool)
  | acquire (l : L)
  | release (l : L)
  | sleep (chan : Chan n K) (l : L)
  | wakeup (chan : Chan n K)
  | yield
  | kill (pid : Int)
  | setkilled
  | fork
  | exit (status : Int)
  | wait (addr : Nat)
  deriving DecidableEq

inductive Event where
  | fork (caller : Int)
  | forked (creator child : Int)
  | forkFailed (child : Int)
  | exited (pid status : Int)
  | reaped (caller pid status : Int)
  deriving DecidableEq

inductive Instr (n : Nat) (L K : Type) where
  | go (next : Point n L K)
  | acquire (l : Lock n L) (next : Point n L K)
  | release (l : Lock n L) (next : Point n L K)
  | intr (on : Bool) (next : Point n L K)
  -- the checks of sched(), then swtch() to the scheduler
  | sched (next : Bool → Point n L K)
  -- mycpu()->intena = intena
  | restore (intena : Bool) (next : Point n L K)
  -- c->proc = p, then swtch() to it
  | swtch (p : Fin n) (next : Point n L K)
  -- c->proc = 0
  | idle (next : Point n L K)
  | panic (why : Panic)

structure Outcome (n : Nat) (L K : Type) where
  table : Table n L K
  instr : Instr n L K
  event : Option Event

/-! ## The process table -/

namespace Table

variable (t : Table n L K)

def set (p : Fin n) (f : Proc n L K → Proc n L K) : Table n L K :=
  { t with proc := Function.update t.proc p (f (t.proc p)) }

/-- The slot that `freeproc()` leaves. -/
def freeproc (p : Fin n) : Table n L K :=
  t.set p fun q =>
    { q with pid := 0, parent := none, chan := .null, killed := false, xstate := 0,
             state := .UNUSED }

def wake (chan : Chan n K) (p : Fin n) : Table n L K :=
  if (t.proc p).state = .SLEEPING ∧ (t.proc p).chan = chan then
    t.set p fun q => { q with state := .RUNNABLE }
  else t

/-- What `kill()` does to the process it names. -/
def kill (p : Fin n) : Table n L K :=
  t.set p fun q =>
    { q with killed := true, state := if q.state = .SLEEPING then .RUNNABLE else q.state }

end Table

/-! ## What a thread does next -/

section Act

variable (t : Table n L K) (c : Cpu n L K)

def Outcome.quiet (instr : Instr n L K) : Outcome n L K := ⟨t, instr, none⟩

/-- Code that takes and gives up spinlocks of its own and calls `wakeup()`. -/
def lockCode (back : List L → Point n L K) (held : List L) :
    Choice n L K → Option (Instr n L K)
  | .acquire l => some (.acquire (.other l) (back (l :: held)))
  | .release l => some (.release (.other l) (back (held.erase l)))
  | .wakeup chan => some (.go (.wakeup chan 0 (back held)))
  | _ => none

/-- Code that also calls `sleep()`, holding no spinlock but the one it passes. -/
def sleepCode (back : List L → Point n L K) (held : List L) :
    Choice n L K → Option (Instr n L K)
  | .sleep chan l =>
    if held = [l] then some (.go (.sleep chan (.other l) (back [l]))) else none
  | choice => lockCode back held choice

/-- The system calls and traps modelled here start with no spinlock held. -/
def kernelCode (p : Fin n) (held : List L) : Choice n L K → Option (Outcome n L K)
  | .intr on => if held = [] then some (.quiet t (.intr on (.kernel []))) else none
  | .yield => if held = [] then some (.quiet t (.go (.yield (.kernel [])))) else none
  | .kill pid => if held = [] then some (.quiet t (.go (.kill pid 0))) else none
  | .setkilled => if held = [] then some (.quiet t (.go .setkilled)) else none
  | .fork => if held = [] then some ⟨t, .go (.alloc 0), some (.fork (t.proc p).pid)⟩ else none
  | .exit status =>
    if held = [] then
      if p = t.initproc then some (.quiet t (.panic .initExiting))
      else some ⟨t, .go (.exitFiles status []), some (.exited (t.proc p).pid status)⟩
    else none
  | .wait addr => if held = [] then some (.quiet t (.go (.wait addr))) else none
  | choice => (sleepCode .kernel held choice).map (.quiet t)

/-- A handler that has given up its locks returns, or gives up the CPU on a timer interrupt. -/
def handlerCode (held : List L) (below : Point n L K) : Choice n L K → Option (Instr n L K)
  | .go => if held = [] then some (.intr true below) else none
  | .yield =>
    match c.proc with
    | some p =>
      if held = [] ∧ (t.proc p).state = .RUNNING then
        some (.go (.yield (.handler [] below)))
      else none
    | none => none
  | choice => lockCode (fun held => .handler held below) held choice

def wakeupCode (chan : Chan n K) (i : Nat) (next : Point n L K) : Instr n L K :=
  if h : i < n then
    if c.proc = some ⟨i, h⟩ then .go (.wakeup chan (i + 1) next)
    else .acquire (.proc ⟨i, h⟩) (.wakeupLocked chan ⟨i, h⟩ next)
  else .go next

def wakeupLockedCode (chan : Chan n K) (q : Fin n) (next : Point n L K) : Outcome n L K :=
  .quiet (t.wake chan q) (.release (.proc q) (.wakeup chan (q + 1) next))

/-- The process `p` at a point of its code. -/
def act (p : Fin n) (point : Point n L K) (choice : Choice n L K) : Option (Outcome n L K) :=
  match point with
  | .kernel held => kernelCode t p held choice
  | .handler held below => (handlerCode t c held below choice).map (.quiet t)
  | .wakeup chan i next => some (.quiet t (wakeupCode c chan i next))
  | .wakeupLocked chan q next => some (wakeupLockedCode t chan q next)
  | .sched next => some (.quiet t (.sched fun intena => .schedReturn intena next))
  | .schedReturn intena next => some (.quiet t (.restore intena next))
  -- yield
  | .yield next => some (.quiet t (.acquire (.proc p) (.yieldLocked next)))
  | .yieldLocked next =>
    some (.quiet (t.set p fun q => { q with state := .RUNNABLE })
      (.go (.sched (.yieldRelease next))))
  | .yieldRelease next => some (.quiet t (.release (.proc p) next))
  -- sleep
  | .sleep chan lk next => some (.quiet t (.acquire (.proc p) (.sleepRelease chan lk next)))
  | .sleepRelease chan lk next => some (.quiet t (.release lk (.sleepMark chan lk next)))
  | .sleepMark chan lk next =>
    some (.quiet (t.set p fun q => { q with chan := chan, state := .SLEEPING })
      (.go (.sched (.sleepTidy chan lk next))))
  | .sleepTidy chan lk next =>
    some (.quiet (t.set p fun q => { q with chan := .null })
      (.release (.proc p) (.sleepReacquire chan lk next)))
  | .sleepReacquire _ lk next => some (.quiet t (.acquire lk next))
  -- kill
  | .kill pid i =>
    if h : i < n then some (.quiet t (.acquire (.proc ⟨i, h⟩) (.killLocked pid ⟨i, h⟩)))
    else some (.quiet t (.go (.kernel [])))
  | .killLocked pid q =>
    if (t.proc q).pid = pid then some (.quiet (t.kill q) (.release (.proc q) (.kernel [])))
    else some (.quiet t (.release (.proc q) (.kill pid (q + 1))))
  | .setkilled => some (.quiet t (.acquire (.proc p) .setkilledLocked))
  | .setkilledLocked =>
    some (.quiet (t.set p fun q => { q with killed := true }) (.release (.proc p) (.kernel [])))
  -- allocproc
  | .alloc i =>
    if h : i < n then some (.quiet t (.acquire (.proc ⟨i, h⟩) (.allocLocked ⟨i, h⟩)))
    else some (.quiet t (.go (.kernel [])))
  | .allocLocked q =>
    if (t.proc q).state = .UNUSED then some (.quiet t (.go (.allocpid q)))
    else some (.quiet t (.release (.proc q) (.alloc (q + 1))))
  | .allocpid q => some (.quiet t (.acquire .pid (.allocpidLocked q)))
  | .allocpidLocked q =>
    some (.quiet { t with nextpid := wrapInt (t.nextpid + 1) }
      (.release .pid (.allocUsed q t.nextpid)))
  | .allocUsed q pid =>
    some (.quiet (t.set q fun r => { r with pid := pid, state := .USED }) (.go (.allocInit q)))
  | .allocInit q =>
    match choice with
    | .go =>
      some (.quiet (t.set q fun r => { r with context := .forkret }) (.go (.forkCopy q)))
    | .fail =>
      some ⟨t.freeproc q, .release (.proc q) (.kernel []),
        some (.forkFailed (t.proc q).pid)⟩
    | _ => none
  -- fork
  | .forkCopy q =>
    match choice with
    | .go => some (.quiet t (.release (.proc q) (.forkParent q)))
    | .fail =>
      some ⟨t.freeproc q, .release (.proc q) (.kernel []),
        some (.forkFailed (t.proc q).pid)⟩
    | _ => none
  | .forkParent q => some (.quiet t (.acquire .wait (.forkParentLocked q)))
  | .forkParentLocked q =>
    some ⟨t.set q fun r => { r with parent := some p }, .release .wait (.forkRunnable q),
      some (.forked (t.proc p).pid (t.proc q).pid)⟩
  | .forkRunnable q => some (.quiet t (.acquire (.proc q) (.forkRunnableLocked q)))
  | .forkRunnableLocked q =>
    some (.quiet (t.set q fun r => { r with state := .RUNNABLE })
      (.release (.proc q) (.kernel [])))
  -- exit
  | .exitFiles status held =>
    match choice with
    | .go => if held = [] then some (.quiet t (.acquire .wait (.exitReparent status 0))) else none
    | choice => (sleepCode (.exitFiles status) held choice).map (.quiet t)
  | .exitReparent status i =>
    if h : i < n then
      if (t.proc ⟨i, h⟩).parent = some p then
        some (.quiet (t.set ⟨i, h⟩ fun r => { r with parent := some t.initproc })
          (.go (.wakeup (.proc t.initproc) 0 (.exitReparent status (i + 1)))))
      else some (.quiet t (.go (.exitReparent status (i + 1))))
    else
      match (t.proc p).parent with
      | some r => some (.quiet t (.go (.wakeup (.proc r) 0 (.exitLock status))))
      | none => some (.quiet t (.go (.wakeup .null 0 (.exitLock status))))
  | .exitLock status => some (.quiet t (.acquire (.proc p) (.exitZombie status)))
  | .exitZombie status =>
    some (.quiet (t.set p fun q => { q with xstate := status, state := .ZOMBIE })
      (.release .wait (.sched .zombieExit)))
  | .zombieExit => some (.quiet t (.panic .zombieExit))
  -- wait
  | .wait addr => some (.quiet t (.acquire .wait (.waitScan addr 0 false)))
  | .waitScan addr i havekids =>
    if h : i < n then
      if (t.proc ⟨i, h⟩).parent = some p then
        some (.quiet t (.acquire (.proc ⟨i, h⟩) (.waitChild addr ⟨i, h⟩)))
      else some (.quiet t (.go (.waitScan addr (i + 1) havekids)))
    else if havekids then some (.quiet t (.acquire (.proc p) (.waitKilled addr)))
    else some (.quiet t (.go (.waitReturn (-1))))
  | .waitChild addr q =>
    if (t.proc q).state = .ZOMBIE then
      match choice with
      | .go =>
        some ⟨t.freeproc q, .release (.proc q) (.waitReturn (t.proc q).pid),
          some (.reaped (t.proc p).pid (t.proc q).pid (t.proc q).xstate)⟩
      | .fail =>
        -- copyout() of the status
        if addr = 0 then none
        else some (.quiet t (.release (.proc q) (.waitReturn (-1))))
      | _ => none
    else some (.quiet t (.release (.proc q) (.waitScan addr (q + 1) true)))
  | .waitKilled addr =>
    if (t.proc p).killed then some (.quiet t (.release (.proc p) (.waitReturn (-1))))
    else
      some (.quiet t (.release (.proc p) (.sleep (.proc p) .wait (.waitScan addr 0 false))))
  | .waitReturn _ => some (.quiet t (.release .wait (.kernel [])))
  | .forkret => some (.quiet t (.release (.proc p) (.kernel [])))
  | .scheduler _ | .schedulerLocked _ | .schedulerBack _ | .schedulerRelease _ => none

/-- The scheduler's thread of a CPU at a point of its code. -/
def actScheduler (point : Point n L K) (choice : Choice n L K) : Option (Outcome n L K) :=
  match point with
  | .scheduler i =>
    if h : i < n then
      some (.quiet t (.acquire (.proc ⟨i, h⟩) (.schedulerLocked ⟨i, h⟩)))
    else some (.quiet t (.intr true (.scheduler 0)))
  | .schedulerLocked q =>
    if (t.proc q).state = .RUNNABLE then
      some (.quiet (t.set q fun r => { r with state := .RUNNING }) (.swtch q (.schedulerBack q)))
    else some (.quiet t (.go (.schedulerRelease q)))
  | .schedulerBack q => some (.quiet t (.idle (.schedulerRelease q)))
  | .schedulerRelease q => some (.quiet t (.release (.proc q) (.scheduler (q + 1))))
  | .handler held below => (handlerCode t c held below choice).map (.quiet t)
  | .wakeup chan i next => some (.quiet t (wakeupCode c chan i next))
  | .wakeupLocked chan q next => some (wakeupLockedCode t chan q next)
  | _ => none

end Act

/-! ## The machine -/

/-- The noff and the interrupts of a CPU after `push_off()`. -/
def Cpu.pushOff (c : Cpu n L K) : Cpu n L K :=
  { c with intr := false, intena := if c.noff = 0 then c.intr else c.intena, noff := c.noff + 1 }

def Cpu.popOff (c : Cpu n L K) : Except Panic (Cpu n L K) :=
  if c.intr then .error .popOffInterruptible
  else if c.noff < 1 then .error .popOff
  else .ok { c with noff := c.noff - 1, intr := c.noff - 1 = 0 ∧ c.intena }

def Table.jump (t : Table n L K) (thread : Option (Fin n)) (next : Point n L K) : Table n L K :=
  match thread with
  | some p => t.set p fun q => { q with context := next }
  | none => t

def Cpu.jump (c : Cpu n L K) (next : Point n L K) : Cpu n L K :=
  match c.thread with
  | some _ => c
  | none => { c with context := next }

namespace State

variable (s : State n m L K) (c : Fin m)

def setCpu (f : Cpu n L K → Cpu n L K) : State n m L K :=
  { s with cpu := Function.update s.cpu c (f (s.cpu c)) }

/-- The point of the thread that the CPU executes. -/
def point : Point n L K :=
  match (s.cpu c).thread with
  | some p => (s.proc p).context
  | none => (s.cpu c).context

/-- The thread that the CPU executes goes on at `next`. -/
def goto (next : Point n L K) : State n m L K :=
  { s with
    toTable := s.toTable.jump (s.cpu c).thread next
    cpu := Function.update s.cpu c ((s.cpu c).jump next) }

def panic (why : Panic) : State n m L K := { s with panicked := some why }

def acquire (l : Lock n L) (next : Point n L K) : Option (State n m L K) :=
  if s.lock l = some c then some (s.panic .acquire)
  else if s.lock l = none then
    some ((({ s with lock := Function.update s.lock l (some c) }).setCpu c Cpu.pushOff).goto c next)
  else none

def release (l : Lock n L) (next : Point n L K) : State n m L K :=
  if s.lock l = some c then
    match (s.cpu c).popOff with
    | .ok k =>
      (({ s with lock := Function.update s.lock l none }).setCpu c fun _ => k).goto c next
    | .error why => s.panic why
  else s.panic .release

/-- `sched()`, where `p` is `myproc()`. -/
def sched (next : Bool → Point n L K) : Option (State n m L K) :=
  match (s.cpu c).proc with
  | none => none
  | some p =>
    if s.lock (.proc p) ≠ some c then some (s.panic .schedLock)
    else if (s.cpu c).noff ≠ 1 then some (s.panic .schedLocks)
    else if (s.proc p).state = .RUNNING then some (s.panic .schedRunning)
    else if (s.cpu c).intr then some (s.panic .schedInterruptible)
    else some ((s.goto c (next (s.cpu c).intena)).setCpu c fun k => { k with thread := none })

def perform : Instr n L K → Option (State n m L K)
  | .go next => some (s.goto c next)
  | .acquire l next => s.acquire c l next
  | .release l next => some (s.release c l next)
  | .intr on next => some ((s.setCpu c fun k => { k with intr := on }).goto c next)
  | .sched next => s.sched c next
  | .restore intena next => some ((s.setCpu c fun k => { k with intena := intena }).goto c next)
  | .swtch p next =>
    some ((s.goto c next).setCpu c fun k => { k with proc := some p, thread := some p })
  | .idle next => some ((s.setCpu c fun k => { k with proc := none }).goto c next)
  | .panic why => some (s.panic why)

/-- What the thread that a CPU executes does next; it takes an interrupt only while they are
    enabled. -/
def next : Choice n L K → Option (Outcome n L K)
  | .interrupt =>
    if (s.cpu c).intr then some (.quiet s.toTable (.intr false (.handler [] (s.point c))))
    else none
  | choice =>
    match (s.cpu c).thread with
    | some p => act s.toTable (s.cpu c) p (s.point c) choice
    | none => actScheduler s.toTable (s.cpu c) (s.point c) choice

end State

/-- A move of a system: the CPU that makes it, and its choice. -/
abbrev Label (n m : Nat) (L K : Type) := Fin m × Choice n L K

def step (s : State n m L K) : Label n m L K → Option (State n m L K)
  | (c, choice) =>
    if s.panicked ≠ none then none
    else (s.next c choice).bind fun o => ({ s with toTable := o.table }).perform c o.instr

def observe (s : State n m L K) : Label n m L K → Option Event
  | (c, choice) => (s.next c choice).bind Outcome.event

/-- The moves of a machine with one CPU. -/
def alone (choices : List (Choice n L K)) : List (Label n 1 L K) :=
  choices.map fun choice => (0, choice)

/-! ## Boot -/

def unused : Proc n L K :=
  { state := .UNUSED, chan := .null, killed := false, xstate := 0, pid := 0, parent := none,
    context := .forkret }

/-- The table after `userinit()`, whose `allocproc()` took slot `p`. -/
def userinit (p : Fin n) : Table n L K where
  proc := Function.update (fun _ => unused) p { unused with pid := 1, state := .RUNNABLE }
  nextpid := 2
  initproc := p

/-- Every CPU is about to enter the loop of `scheduler()`. -/
def boot (m : Nat) (p : Fin n) : State n m L K where
  toTable := userinit p
  lock := fun _ => none
  cpu := fun _ =>
    { proc := none, context := .scheduler n, thread := none, noff := 0, intena := false,
      intr := false }
  panicked := none

end Sistemas.Xv6.Process
