import Sistemas.Data.RingBuffer
import Sistemas.Transition.Run
import Sistemas.Xv6.FsBuffers
import Sistemas.Xv6.Semaphore

/-! # Pipes

`pipewrite`, `piperead` and `pipeclose` of `pipe.c` on one pipe, with what they run on: the
spinlock of the pipe, the `p->lock` of each process, `sleep`, `wakeup`, `kill` and `killed` of
`proc.c`, and the part of `scheduler` that switches a process in and out.

As for the semaphores, a kernel thread is cut at the acquire and release of every lock; here
also between any two bytes.  Any thread that is `RUNNING` may take the next step, and a process
may call anything at any time, also after it has been killed: `usertrap` only looks before the
call and after it.
-/

namespace Sistemas.Xv6.Pipes

open Fs (Source)
open Fs.Buffers (Sink)

def pipesize : Nat := 512

/-- `&pi->nread` and `&pi->nwrite`. -/
inductive Chan
  | nread
  | nwrite
  deriving DecidableEq

/-- The arguments of `pipewrite`, and `i`. -/
structure Write where
  addr : Source
  n : Int
  i : Nat

/-- The arguments of `piperead`, and `i`. -/
structure Read where
  addr : Sink
  n : Int
  i : Nat

/-- The call that a process is inside. -/
inductive Op
  | write (w : Write)
  | read (r : Read)
  | close (writable : Bool)

/-- A call as it is made. -/
inductive Call
  | pipewrite (addr : Source) (n : Int)
  | piperead (addr : Sink) (n : Int)
  | pipeclose (writable : Bool)

def Call.op : Call → Op
  | pipewrite addr n => .write { addr := addr, n := n, i := 0 }
  | piperead addr n => .read { addr := addr, n := n, i := 0 }
  | pipeclose writable => .close writable

/-- What follows a `wakeup`. -/
inductive Next
  -- the call returns `r`
  | release (r : Int)
  -- `sleep(&pi->nwrite, &pi->lock)`
  | sleep (w : Write)
  -- the end of `pipeclose`
  | close

/-- Where the kernel thread of a process is, named by the next thing it does. -/
inductive Pc (n : Nat)
  -- no thread: the slot is unused or the process has exited
  | off
  -- not in the code of the pipe
  | user
  -- `acquire(&pi->lock)`
  | acquire (op : Op)
  -- holding the lock: the head of the loop, or the store of `pipeclose`
  | body (op : Op)
  -- `killed(pr)` in `pipewrite`
  | writeKilled (w : Write)
  -- `pipewrite` behind its first test
  | writeMore (w : Write)
  -- `killed(pr)` in `piperead`
  | readKilled (r : Read)
  -- the second loop of `piperead`
  | copy (r : Read)
  -- `wakeup(c)` at table index `i`, holding no `p->lock`
  | wakeup (c : Chan) (next : Next) (i : Nat)
  -- `wakeup(c)` holding the `p->lock` of process `i`
  | wakeupLocked (c : Chan) (next : Next) (i : Fin n)
  -- `sleep(c, &pi->lock)`: `acquire(&p->lock)`
  | sleepAcquire (c : Chan) (op : Op)
  -- in `sleep`, holding both locks: `release(lk)`
  | sleepRelease (c : Chan) (op : Op)
  -- in `sleep`, holding `p->lock`: set `chan` and `SLEEPING`, then `sched()`
  | sleepMark (c : Chan) (op : Op)
  -- switched out inside `sched()`
  | sched (c : Chan) (op : Op)
  -- back from `sched()` with `p->lock` held: `p->chan = 0; release(&p->lock)`
  | sleepTidy (op : Op)
  -- last line of `sleep`: `acquire(lk)`
  | reacquire (op : Op)
  -- `release(&pi->lock)`, then return `r`
  | release (r : Int)
  -- `pipeclose` behind its `wakeup`
  | closeEnd
  -- `kfree((char*)pi)`
  | kfree
  -- `kill(pid)` at table index `i`, holding no `p->lock`
  | kill (pid : Int) (i : Nat)
  -- `kill(pid)` holding the `p->lock` of process `i`
  | killLocked (pid : Int) (i : Fin n)
  -- back in the caller with the result of the call
  | ret (r : Int)

structure Pipe (n : Nat) where
  lock : Option (Fin n)
  data : Nat → UInt8
  nread : Nat
  nwrite : Nat
  readopen : Bool
  writeopen : Bool

/-- The fields of `struct proc` that `p->lock` guards, and the kernel thread. -/
structure Proc (n : Nat) where
  lock : Option (Holder n)
  state : ProcState
  chan : Option Chan
  killed : Bool
  pid : Int
  pc : Pc n

structure Kernel (n : Nat) where
  pipe : Pipe n
  -- the page of the pipe has been given back
  freed : Bool
  proc : Fin n → Proc n

/-- What may happen next to process `p`. -/
inductive Act
  -- a call; with the page of the pipe all its descriptors are gone
  | call (c : Call)
  | kill (pid : Int)
  | exit
  -- the kernel thread of `p` takes its next step
  | run
  -- `scheduler` finds `p` `RUNNABLE` and switches to it
  | dispatch
  -- `scheduler`, switched to from `p`, releases `p->lock`
  | park

abbrev Label (n : Nat) := Fin n × Act

/-- A byte that goes through the pipe. -/
inductive Event
  -- `pipewrite` puts a byte into the buffer
  | accepted (ch : UInt8)
  -- `piperead` hands one to its caller
  | delivered (ch : UInt8)

namespace Kernel

variable {n : Nat}

def modifyProc (k : Kernel n) (p : Fin n) (f : Proc n → Proc n) : Kernel n :=
  { k with proc := fun q => if q = p then f (k.proc q) else k.proc q }

def jump (k : Kernel n) (p : Fin n) (pc : Pc n) : Kernel n :=
  k.modifyProc p fun x => { x with pc := pc }

def modifyPipe (k : Kernel n) (f : Pipe n → Pipe n) : Kernel n := { k with pipe := f k.pipe }

def lockPipe (k : Kernel n) (p : Fin n) : Kernel n :=
  k.modifyPipe fun x => { x with lock := some p }

def unlockPipe (k : Kernel n) : Kernel n := k.modifyPipe fun x => { x with lock := none }

def lockProc (k : Kernel n) (i p : Fin n) : Kernel n :=
  k.modifyProc i fun x => { x with lock := some (.proc p) }

/-- `pi->data[pi->nwrite++ % PIPESIZE] = ch` -/
def push (k : Kernel n) (ch : UInt8) : Kernel n :=
  k.modifyPipe fun x =>
    { x with
      data := Function.update x.data (x.nwrite % pipesize) ch
      nwrite := (x.nwrite + 1) % 2 ^ 32 }

/-- `pi->nread++` -/
def pop (k : Kernel n) : Kernel n :=
  k.modifyPipe fun x => { x with nread := (x.nread + 1) % 2 ^ 32 }

/-- `pi->data[pi->nread % PIPESIZE]` -/
def front (k : Kernel n) : UInt8 := k.pipe.data (k.pipe.nread % pipesize)

def empty (k : Kernel n) : Prop := k.pipe.nread = k.pipe.nwrite

instance (k : Kernel n) : Decidable k.empty := inferInstanceAs (Decidable (_ = _))

/-- `pi->nwrite == pi->nread + PIPESIZE` -/
def full (k : Kernel n) : Prop := k.pipe.nwrite = (k.pipe.nread + pipesize) % 2 ^ 32

instance (k : Kernel n) : Decidable k.full := inferInstanceAs (Decidable (_ = _))

/-! ## The code of the pipe -/

def runBody (k : Kernel n) (p : Fin n) : Op → Kernel n
  | .write w =>
    if (w.i : Int) < w.n then
      if k.pipe.readopen = false then k.jump p (.release (-1)) else k.jump p (.writeKilled w)
    else k.jump p (.wakeup .nread (.release w.i) 0)
  | .read r =>
    if k.empty ∧ k.pipe.writeopen = true then k.jump p (.readKilled r) else k.jump p (.copy r)
  | .close true =>
    (k.modifyPipe fun x => { x with writeopen := false }).jump p (.wakeup .nread .close 0)
  | .close false =>
    (k.modifyPipe fun x => { x with readopen := false }).jump p (.wakeup .nwrite .close 0)

def runWriteMore (k : Kernel n) (p : Fin n) (w : Write) : Kernel n :=
  if k.full then k.jump p (.wakeup .nread (.sleep w) 0)
  else
    match w.addr w.i with
    -- `copyin` fails
    | none => k.jump p (.wakeup .nread (.release w.i) 0)
    | some ch => (k.push ch).jump p (.body (.write { w with i := w.i + 1 }))

def runCopy (k : Kernel n) (p : Fin n) (r : Read) : Kernel n :=
  if (r.i : Int) < r.n then
    if k.empty then k.jump p (.wakeup .nwrite (.release r.i) 0)
    else if r.addr r.i then k.pop.jump p (.copy { r with i := r.i + 1 })
    -- `copyout` fails, and the byte is gone
    else k.pop.jump p (.wakeup .nwrite (.release r.i) 0)
  else k.jump p (.wakeup .nwrite (.release r.i) 0)

def runNext (k : Kernel n) (p : Fin n) : Next → Kernel n
  | .release r => k.jump p (.release r)
  | .sleep w => k.jump p (.sleepAcquire .nwrite (.write w))
  | .close => k.jump p .closeEnd

/-- `wakeup` on one process, `p->lock` held: wake it if it sleeps on `c`, release. -/
def wakeProc (c : Chan) (x : Proc n) : Proc n :=
  { x with
    state := if x.state = .sleeping ∧ x.chan = some c then .runnable else x.state
    lock := none }

def killProc (x : Proc n) : Proc n :=
  { x with
    killed := true
    state := if x.state = .sleeping then .runnable else x.state
    lock := none }

/-- The next step of the kernel thread of `p`; `none` while it spins on a lock. -/
def runThread (k : Kernel n) (p : Fin n) : Option (Kernel n) :=
  match (k.proc p).pc with
  | .off | .user | .sched _ _ => none
  | .acquire op | .reacquire op =>
    if k.pipe.lock = none then some ((k.lockPipe p).jump p (.body op)) else none
  | .body op => some (k.runBody p op)
  | .writeKilled w =>
    if (k.proc p).lock = none then
      if (k.proc p).killed then some (k.jump p (.release (-1))) else some (k.jump p (.writeMore w))
    else none
  | .writeMore w => some (k.runWriteMore p w)
  | .readKilled r =>
    if (k.proc p).lock = none then
      if (k.proc p).killed then some (k.jump p (.release (-1)))
      else some (k.jump p (.sleepAcquire .nread (.read r)))
    else none
  | .copy r => some (k.runCopy p r)
  | .wakeup c next i =>
    if h : i < n then
      if i = p.val then some (k.jump p (.wakeup c next (i + 1)))
      else if (k.proc ⟨i, h⟩).lock = none then
        some ((k.lockProc ⟨i, h⟩ p).jump p (.wakeupLocked c next ⟨i, h⟩))
      else none
    else some (k.runNext p next)
  | .wakeupLocked c next i =>
    some ((k.modifyProc i (wakeProc c)).jump p (.wakeup c next (i.val + 1)))
  | .sleepAcquire c op =>
    if (k.proc p).lock = none then some ((k.lockProc p p).jump p (.sleepRelease c op)) else none
  | .sleepRelease c op => some (k.unlockPipe.jump p (.sleepMark c op))
  | .sleepMark c op =>
    -- `sched()` hands `p->lock` to the scheduler
    some (k.modifyProc p fun x =>
      { x with chan := some c, state := .sleeping, lock := some .scheduler, pc := .sched c op })
  | .sleepTidy op =>
    some (k.modifyProc p fun x => { x with chan := none, lock := none, pc := .reacquire op })
  | .release r => some (k.unlockPipe.jump p (.ret r))
  | .closeEnd =>
    if k.pipe.readopen = false ∧ k.pipe.writeopen = false then some (k.unlockPipe.jump p .kfree)
    else some (k.unlockPipe.jump p (.ret 0))
  | .kfree => some ({ k with freed := true }.jump p (.ret 0))
  | .kill pid i =>
    if h : i < n then
      if (k.proc ⟨i, h⟩).lock = none then
        some ((k.lockProc ⟨i, h⟩ p).jump p (.killLocked pid ⟨i, h⟩))
      else none
    else some (k.jump p (.ret (-1)))
  | .killLocked pid i =>
    if (k.proc i).pid = pid then some ((k.modifyProc i killProc).jump p (.ret 0))
    else
      some ((k.modifyProc i fun x => { x with lock := none }).jump p (.kill pid (i.val + 1)))
  | .ret _ => some (k.jump p .user)

def step (k : Kernel n) : Label n → Option (Kernel n)
  | (p, .call c) =>
    match (k.proc p).pc with
    | .user => if k.freed then none else some (k.jump p (.acquire c.op))
    | _ => none
  | (p, .kill pid) =>
    match (k.proc p).pc with
    | .user => some (k.jump p (.kill pid 0))
    | _ => none
  | (p, .exit) =>
    match (k.proc p).pc with
    | .user =>
      if (k.proc p).lock = none then
        some (k.modifyProc p fun x => { x with state := .zombie, pc := .off })
      else none
    | _ => none
  | (p, .run) => if (k.proc p).state = .running then k.runThread p else none
  | (p, .dispatch) =>
    if (k.proc p).state = .runnable ∧ (k.proc p).lock = none then
      match (k.proc p).pc with
      | .sched _ op => some (k.modifyProc p fun x =>
          { x with state := .running, lock := some (.proc p), pc := .sleepTidy op })
      | _ => none
    else none
  | (p, .park) =>
    if (k.proc p).lock = some .scheduler then
      some (k.modifyProc p fun x => { x with lock := none })
    else none

abbrev exec (k : Kernel n) (ls : List (Label n)) : Option (Kernel n) := Transition.exec step k ls

def obs (k : Kernel n) : Label n → Option Event
  | (p, .run) =>
    match (k.proc p).pc with
    | .writeMore w => if k.full then none else (w.addr w.i).map .accepted
    | .copy r =>
      if (r.i : Int) < r.n ∧ ¬ k.empty ∧ r.addr r.i then some (.delivered k.front) else none
    | _ => none
  | _ => none

abbrev trace (k : Kernel n) (ls : List (Label n)) : List Event := Transition.trace step obs k ls

end Kernel

/-- As `pipealloc` makes it. -/
def pipealloc (n : Nat) (data : Nat → UInt8) : Pipe n where
  lock := none
  data := data
  nread := 0
  nwrite := 0
  readopen := true
  writeopen := true

/-- A new pipe, and no process in its code. -/
structure Start {n : Nat} (k : Kernel n) : Prop where
  pipe : ∃ data, k.pipe = pipealloc n data
  used : k.freed = false
  lock : ∀ p, (k.proc p).lock = none
  pc : ∀ p, (k.proc p).pc = .off ∧ ((k.proc p).state = .unused ∨ (k.proc p).state = .zombie) ∨
    (k.proc p).pc = .user ∧ (k.proc p).state = .running

/-- A new pipe and `n` processes that have it, whose pids are their places in the table. -/
def fresh (n : Nat) : Kernel n where
  pipe := pipealloc n fun _ => 0
  freed := false
  proc p :=
    { lock := none, state := .running, chan := none, killed := false, pid := p.val, pc := .user }

theorem fresh_start (n : Nat) : Start (fresh n) :=
  ⟨⟨_, rfl⟩, rfl, fun _ => rfl, fun _ => .inr ⟨rfl, rfl⟩⟩

/-- The moves of one process. -/
def turn {n : Nat} (p : Fin n) (acts : List Act) : List (Label n) := acts.map (p, ·)

end Sistemas.Xv6.Pipes
