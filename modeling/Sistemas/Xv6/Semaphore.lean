import Sistemas.Transition.Run
import Sistemas.Xv6.Types

/-! # The kernel's semaphores

The system calls `sem_open`, `sem_close`, `sem_up` and `sem_down` of `sysproc.c`
together with what they run on: the spinlock of each semaphore, the `p->lock` of each
process, `sleep`, `wakeup` and `kill` of `proc.c`, the `killed` checks of `usertrap`
in `trap.c`, and the part of `scheduler` that switches a process in and out.

A kernel thread is cut at the acquire and release of every lock, so one step is what
happens between two of them.  What the threads do between is guarded by the lock
they hold, so nothing finer is visible to another thread.  The number of slots of the
process table is a parameter `n` (`NPROC` in the source); any thread that is
`RUNNING` may take the next step, so every assignment of processes to CPUs and every
preemption is one of the interleavings.

Spinning in `acquire` is a step that is not enabled while the lock is held.
-/

namespace Sistemas.Xv6

abbrev SemId := Fin maxSemaphores

/-- `enum procstate` of `proc.h`. -/
inductive ProcState where
  | unused | used | sleeping | runnable | running | zombie
  deriving DecidableEq

/-- The semaphore call that a process is inside; `semOpen` carries its initial value. -/
inductive SemOp where
  | semOpen (value : Int)
  | semClose
  | semUp
  | semDown
  deriving DecidableEq

/-- Where the kernel thread of a process is, named by the next thing it does. -/
inductive Pc (n : Nat) where
  -- no thread: the slot is unused or the process has exited
  | off
  -- in user space
  | user
  -- created by `fork` and never switched to
  | embryo
  -- first switched to, holding its own `p->lock`: `release(&myproc()->lock)`
  | forkret
  -- `acquire(&sem_t[s].lock)`
  | acquire (s : SemId) (op : SemOp)
  -- holding the semaphore's lock: the test and the store of the call
  | body (s : SemId) (op : SemOp)
  -- `wakeup(&sem_t[s])` at table index `i`, holding no `p->lock`
  | wakeup (s : SemId) (op : SemOp) (i : Nat)
  -- `wakeup(&sem_t[s])` holding the `p->lock` of process `i`
  | wakeupLocked (s : SemId) (op : SemOp) (i : Fin n)
  -- `sleep(&sem_t[s], &sem_t[s].lock)`: `acquire(&p->lock)`
  | sleepAcquire (s : SemId)
  -- in `sleep`, holding both locks: `release(lk)`
  | sleepRelease (s : SemId)
  -- in `sleep`, holding `p->lock`: set `chan` and `SLEEPING`, then `sched()`
  | sleepMark (s : SemId)
  -- switched out inside `sched()`
  | sched (s : SemId)
  -- back from `sched()` with `p->lock` held: `p->chan = 0; release(&p->lock)`
  | sleepTidy (s : SemId)
  -- last line of `sleep`: `acquire(lk)`
  | reacquire (s : SemId)
  -- `release(&sem_t[s].lock)`, then return `ret`
  | release (s : SemId) (op : SemOp) (ret : Int)
  -- `kill(pid)` at table index `i`, holding no `p->lock`
  | kill (pid : Int) (i : Nat)
  -- `kill(pid)` holding the `p->lock` of process `i`
  | killLocked (pid : Int) (i : Fin n)
  -- back in `usertrap` with the result of the call
  | ret (value : Int)
  deriving DecidableEq

/-- Who holds a `p->lock`: a kernel thread, or the scheduler that has just switched
    the process out and has not yet released the lock it was handed. -/
inductive Holder (n : Nat) where
  | proc (p : Fin n)
  | scheduler
  deriving DecidableEq

/-- `struct semaphore`: the value, and the process that holds the spinlock. -/
structure Semaphore (n : Nat) where
  value : Int
  lock : Option (Fin n)
  deriving DecidableEq

/-- The fields of `struct proc` that `p->lock` guards, and the kernel thread.
    The only channels slept on here are the semaphores. -/
structure Proc (n : Nat) where
  lock : Option (Holder n)
  state : ProcState
  chan : Option SemId
  killed : Bool
  pid : Int
  pc : Pc n
  deriving DecidableEq

structure Kernel (n : Nat) where
  -- `sem_t`
  sem : SemId → Semaphore n
  -- `proc`
  proc : Fin n → Proc n
  nextpid : Int
  -- what the kernel has printed
  console : List String

/-- The system calls a process can make; the child of a `fork` is the slot that
    `allocproc` finds, `none` when it or a later allocation fails. -/
inductive Syscall (n : Nat) where
  | semOpen (sem value : Int)
  | semClose (sem : Int)
  | semUp (sem : Int)
  | semDown (sem : Int)
  | kill (pid : Int)
  | fork (child : Option (Fin n))
  | exit

/-- What may happen next to process `p`. -/
inductive Act (n : Nat) where
  -- `p` traps into the kernel with a system call
  | call (c : Syscall n)
  -- the kernel thread of `p` takes its next step
  | run
  -- `scheduler` finds `p` `RUNNABLE` and switches to it
  | dispatch
  -- `scheduler`, switched to from `p`, releases `p->lock`
  | park
  -- `p` is woken for no reason of its own
  | spurious

abbrev Label (n : Nat) := Fin n × Act n

namespace Kernel

variable {n : Nat}

def modifyProc (k : Kernel n) (p : Fin n) (f : Proc n → Proc n) : Kernel n :=
  { k with proc := fun q => if q = p then f (k.proc q) else k.proc q }

def modifySem (k : Kernel n) (s : SemId) (f : Semaphore n → Semaphore n) : Kernel n :=
  { k with sem := fun t => if t = s then f (k.sem t) else k.sem t }

def goto (k : Kernel n) (p : Fin n) (pc : Pc n) : Kernel n :=
  k.modifyProc p fun x => { x with pc := pc }

def lockSem (k : Kernel n) (s : SemId) (p : Fin n) : Kernel n :=
  k.modifySem s fun x => { x with lock := some p }

def unlockSem (k : Kernel n) (s : SemId) : Kernel n :=
  k.modifySem s fun x => { x with lock := none }

def store (k : Kernel n) (s : SemId) (v : Int) : Kernel n :=
  k.modifySem s fun x => { x with value := v }

def lockProc (k : Kernel n) (i p : Fin n) : Kernel n :=
  k.modifyProc i fun x => { x with lock := some (.proc p) }

/-! ## The system calls -/

/-- The range check at the head of every semaphore call. -/
def semIndex (sem : Int) : Option SemId :=
  if h : sem < 0 ∨ sem ≥ maxSemaphores then none
  else some ⟨sem.toNat, by simp only [not_or] at h; omega⟩

/-- A semaphore call that returns 0 for an index out of range. -/
def sysSem (k : Kernel n) (p : Fin n) (sem : Int) (op : SemOp) : Kernel n :=
  match semIndex sem with
  | none => k.goto p (.ret 0)
  | some s => k.goto p (.acquire s op)

/-- `sys_sem_open`; the only one of the four that reports an index out of range. -/
def sysSemOpen (k : Kernel n) (p : Fin n) (sem value : Int) : Kernel n :=
  match semIndex sem with
  | none => { k with console := k.console ++ ["ERROR: invalid sem ID.\n"] }.goto p (.ret 0)
  | some s => k.goto p (.acquire s (.semOpen value))

def sysSemClose (k : Kernel n) (p : Fin n) (sem : Int) : Kernel n := k.sysSem p sem .semClose

def sysSemUp (k : Kernel n) (p : Fin n) (sem : Int) : Kernel n := k.sysSem p sem .semUp

def sysSemDown (k : Kernel n) (p : Fin n) (sem : Int) : Kernel n := k.sysSem p sem .semDown

def sysKill (k : Kernel n) (p : Fin n) (pid : Int) : Kernel n := k.goto p (.kill pid 0)

/-- `exit`, from taking `p->lock` to the scheduler's release of it. -/
def exit (k : Kernel n) (p : Fin n) : Kernel n :=
  k.modifyProc p fun x => { x with state := .zombie, pc := .off }

/-- `fork`: the child is `RUNNABLE` in its new slot and the parent returns its pid.
    `allocproc` leaves `chan` and `killed` of the slot as it finds them. -/
def sysFork (k : Kernel n) (p : Fin n) : Option (Fin n) → Option (Kernel n)
  | none => some (k.goto p (.ret (-1)))
  | some c =>
    if (k.proc c).state = .unused ∧ (k.proc c).lock = none then
      some (({ k with nextpid := wrapInt (k.nextpid + 1) }.modifyProc c fun x =>
        { x with state := .runnable, pid := k.nextpid, pc := .embryo }).goto p (.ret k.nextpid))
    else none

def syscall (k : Kernel n) (p : Fin n) : Syscall n → Option (Kernel n)
  | .semOpen sem value => some (k.sysSemOpen p sem value)
  | .semClose sem => some (k.sysSemClose p sem)
  | .semUp sem => some (k.sysSemUp p sem)
  | .semDown sem => some (k.sysSemDown p sem)
  | .kill pid => some (k.sysKill p pid)
  | .fork child => k.sysFork p child
  | .exit => some (k.exit p)

/-- `usertrap` on a system call: a killed process exits instead of making it. -/
def usertrap (k : Kernel n) (p : Fin n) (c : Syscall n) : Option (Kernel n) :=
  if (k.proc p).killed then some (k.exit p) else k.syscall p c

/-! ## The kernel thread of a process -/

/-- The critical section of a semaphore call, up to its next lock operation. -/
def runBody (k : Kernel n) (p : Fin n) (s : SemId) : SemOp → Kernel n
  | .semOpen v =>
    if (k.sem s).value = -1 then (k.store s v).goto p (.release s (.semOpen v) 1)
    else k.goto p (.release s (.semOpen v) 0)
  | .semClose => (k.store s 0).goto p (.wakeup s .semClose 0)
  | .semUp => (k.store s (wrapInt ((k.sem s).value + 1))).goto p (.wakeup s .semUp 0)
  | .semDown =>
    if (k.sem s).value = 0 then k.goto p (.sleepAcquire s)
    else (k.store s (wrapInt ((k.sem s).value - 1))).goto p (.release s .semDown 1)

/-- `wakeup` on one process, `p->lock` held: wake it if it sleeps on `s`, release. -/
def wakeProc (s : SemId) (x : Proc n) : Proc n :=
  { x with
    state := if x.state = .sleeping ∧ x.chan = some s then .runnable else x.state
    lock := none }

def killProc (x : Proc n) : Proc n :=
  { x with
    killed := true
    state := if x.state = .sleeping then .runnable else x.state
    lock := none }

/-- The next step of the kernel thread of `p`; `none` while it spins on a lock. -/
def runThread (k : Kernel n) (p : Fin n) : Option (Kernel n) :=
  match (k.proc p).pc with
  | .off | .user | .embryo | .sched _ => none
  | .forkret => some (k.modifyProc p fun x => { x with lock := none, pc := .user })
  | .acquire s op =>
    if (k.sem s).lock = none then some ((k.lockSem s p).goto p (.body s op)) else none
  | .body s op => some (k.runBody p s op)
  | .wakeup s op i =>
    if h : i < n then
      if i = p.val then some (k.goto p (.wakeup s op (i + 1)))
      else if (k.proc ⟨i, h⟩).lock = none then
        some ((k.lockProc ⟨i, h⟩ p).goto p (.wakeupLocked s op ⟨i, h⟩))
      else none
    else some (k.goto p (.release s op 1))
  | .wakeupLocked s op i =>
    some ((k.modifyProc i (wakeProc s)).goto p (.wakeup s op (i.val + 1)))
  | .sleepAcquire s =>
    if (k.proc p).lock = none then some ((k.lockProc p p).goto p (.sleepRelease s)) else none
  | .sleepRelease s => some ((k.unlockSem s).goto p (.sleepMark s))
  | .sleepMark s =>
    -- `sched()` hands `p->lock` to the scheduler
    some (k.modifyProc p fun x =>
      { x with chan := some s, state := .sleeping, lock := some .scheduler, pc := .sched s })
  | .sleepTidy s =>
    some (k.modifyProc p fun x => { x with chan := none, lock := none, pc := .reacquire s })
  | .reacquire s =>
    if (k.sem s).lock = none then some ((k.lockSem s p).goto p (.body s .semDown)) else none
  | .release s _ r => some ((k.unlockSem s).goto p (.ret r))
  | .kill pid i =>
    if h : i < n then
      if (k.proc ⟨i, h⟩).lock = none then
        some ((k.lockProc ⟨i, h⟩ p).goto p (.killLocked pid ⟨i, h⟩))
      else none
    else some (k.goto p (.ret (-1)))
  | .killLocked pid i =>
    if (k.proc i).pid = pid then some ((k.modifyProc i killProc).goto p (.ret 0))
    else
      some ((k.modifyProc i fun x => { x with lock := none }).goto p (.kill pid (i.val + 1)))
  | .ret _ =>
    if (k.proc p).lock = none then
      if (k.proc p).killed then some (k.exit p) else some (k.goto p .user)
    else none

/-- `scheduler` switches to `p`, which comes back holding its own lock: in `forkret`
    the first time, else after the `sched()` of `sleep`. -/
def dispatch (k : Kernel n) (p : Fin n) : Option (Kernel n) :=
  if (k.proc p).state = .runnable ∧ (k.proc p).lock = none then
    match (k.proc p).pc with
    | .embryo => some (k.modifyProc p fun x =>
        { x with state := .running, lock := some (.proc p), pc := .forkret })
    | .sched s => some (k.modifyProc p fun x =>
        { x with state := .running, lock := some (.proc p), pc := .sleepTidy s })
    | _ => none
  else none

def step (k : Kernel n) : Label n → Option (Kernel n)
  | (p, .call c) =>
    if (k.proc p).state = .running ∧ (k.proc p).pc = .user ∧ (k.proc p).lock = none then
      k.usertrap p c
    else none
  | (p, .run) => if (k.proc p).state = .running then k.runThread p else none
  | (p, .dispatch) => k.dispatch p
  | (p, .park) =>
    if (k.proc p).lock = some .scheduler then
      some (k.modifyProc p fun x => { x with lock := none })
    else none
  | (p, .spurious) =>
    if (k.proc p).state = .sleeping ∧ (k.proc p).lock = none then
      some (k.modifyProc p fun x => { x with state := .runnable })
    else none

end Kernel

/-! ## Events

A semaphore call on an index in range is seen three times: when it enters the
kernel, when its critical section reads or changes the value, and when it has released
the lock and returns. -/

inductive Event (n : Nat) where
  | entered (p : Fin n) (s : SemId) (op : SemOp)
  | effect (p : Fin n) (s : SemId) (op : SemOp) (ret : Int)
  | completed (p : Fin n) (s : SemId) (op : SemOp) (ret : Int)
  deriving DecidableEq

/-- How often the critical section of `op` on `s` took effect. -/
def effects {n : Nat} (s : SemId) (op : SemOp) (es : List (Event n)) : Nat :=
  es.countP fun
    | .effect _ t o _ => t = s ∧ o = op
    | _ => false

def effectsBy {n : Nat} (p : Fin n) (s : SemId) (op : SemOp) (es : List (Event n)) : Nat :=
  es.countP fun
    | .effect q t o _ => q = p ∧ t = s ∧ o = op
    | _ => false

/-- How many calls of `op` on `s` completed. -/
def completions {n : Nat} (s : SemId) (op : SemOp) (es : List (Event n)) : Nat :=
  es.countP fun
    | .completed _ t o _ => t = s ∧ o = op
    | _ => false

def completionsBy {n : Nat} (p : Fin n) (s : SemId) (op : SemOp) (es : List (Event n)) : Nat :=
  es.countP fun
    | .completed q t o _ => q = p ∧ t = s ∧ o = op
    | _ => false

/-- A completed open that returned 1 opens `s`, a completed close closes it. -/
def openStep {n : Nat} (s : SemId) (isOpen : Bool) : Event n → Bool
  | .completed _ t (.semOpen _) r => if t = s ∧ r = 1 then true else isOpen
  | .completed _ t .semClose _ => if t = s then false else isOpen
  | _ => isOpen

/-- `s` was successfully opened, and not closed since. -/
def isOpen {n : Nat} (s : SemId) (es : List (Event n)) : Bool := es.foldl (openStep s) false

namespace Kernel

variable {n : Nat}

def obsCall (p : Fin n) : Syscall n → Option (Event n)
  | .semOpen sem value => (semIndex sem).map (.entered p · (.semOpen value))
  | .semClose sem => (semIndex sem).map (.entered p · .semClose)
  | .semUp sem => (semIndex sem).map (.entered p · .semUp)
  | .semDown sem => (semIndex sem).map (.entered p · .semDown)
  | .kill _ | .fork _ | .exit => none

/-- A `semDown` that finds 0 goes to sleep without effect. -/
def obsBody (k : Kernel n) (p : Fin n) (s : SemId) : SemOp → Option (Event n)
  | .semOpen v => some (.effect p s (.semOpen v) (if (k.sem s).value = -1 then 1 else 0))
  | .semClose => some (.effect p s .semClose 1)
  | .semUp => some (.effect p s .semUp 1)
  | .semDown => if (k.sem s).value = 0 then none else some (.effect p s .semDown 1)

def obs (k : Kernel n) : Label n → Option (Event n)
  | (p, .call c) => if (k.proc p).killed then none else obsCall p c
  | (p, .run) =>
    match (k.proc p).pc with
    | .body s op => k.obsBody p s op
    | .release s op r => some (.completed p s op r)
    | _ => none
  | (_, .dispatch) | (_, .park) | (_, .spurious) => none

abbrev exec (k : Kernel n) (ls : List (Label n)) : Option (Kernel n) := Transition.exec step k ls

abbrev trace (k : Kernel n) (ls : List (Label n)) : List (Event n) :=
  Transition.trace step obs k ls

end Kernel

/-! ## Boot -/

/-- The initialisation calls that `main` can make on the first CPU. -/
inductive BootCall where
  | consoleinit | printfinit | kinit | kvminit | kvminithart | procinit | trapinit
  | trapinithart | plicinit | plicinithart | binit | iinit | fileinit | virtioDiskInit
  | userinit | semInit
  deriving DecidableEq

namespace Kernel

variable {n : Nat}

/-- Memory as the loader leaves it: `sem_t` and `proc` are zero. -/
def zeroed (n : Nat) : Kernel n where
  sem _ := { value := 0, lock := none }
  proc _ := { lock := none, state := .unused, chan := none, killed := false, pid := 0, pc := .off }
  nextpid := 1
  console := []

def semInit (k : Kernel n) : Kernel n :=
  { k with sem := fun _ => { value := -1, lock := none } }

/-- `procinit`: every lock free, every slot unused. -/
def procinit (k : Kernel n) : Kernel n :=
  { k with proc := fun p => { k.proc p with lock := none, state := .unused } }

/-- `userinit`: the first process in the first slot. -/
def userinit (k : Kernel n) : Kernel n :=
  { k with
    nextpid := wrapInt (k.nextpid + 1)
    proc := fun p =>
      if p.val = 0 then { k.proc p with state := .runnable, pid := k.nextpid, pc := .embryo }
      else k.proc p }

def bootCall (k : Kernel n) : BootCall → Kernel n
  | .procinit => k.procinit
  | .userinit => k.userinit
  | .semInit => k.semInit
  | _ => k

def mainCalls : List BootCall :=
  [.consoleinit, .printfinit, .kinit, .kvminit, .kvminithart, .procinit, .trapinit, .trapinithart,
   .plicinit, .plicinithart, .binit, .iinit, .fileinit, .virtioDiskInit, .userinit]

/-- The kernel when `main` enters `scheduler()`. -/
def boot (n : Nat) : Kernel n := mainCalls.foldl bootCall (zeroed n)

theorem one_lt (n : Nat) : 1 < n + 2 := Nat.lt_add_left n Nat.one_lt_two

def first : Fin (n + 1) := ⟨0, Nat.zero_lt_succ n⟩

def second : Fin (n + 2) := ⟨1, one_lt n⟩

def turn (p : Fin n) (acts : List (Act n)) : List (Label n) := acts.map (p, ·)

end Kernel

end Sistemas.Xv6
