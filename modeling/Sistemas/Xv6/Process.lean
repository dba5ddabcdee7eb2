import Sistemas.Xv6.Types

/-! # Processes, CPUs and where their code is

The process table of `proc.c`, the CPUs, and the points of the kernel code a thread can be at.
A thread is a process's kernel stack or a CPU's `scheduler()`; its `context` is the point it has
reached, from one `acquire`, `release` or `swtch` to the next.

* `Lock` — `wait_lock`, `pid_lock`, the lock of each process, and the other spinlocks of the
  kernel, any of which may be passed to `sleep`.
* `Chan` — what a process can sleep on: the address of a process, or of anything else.
* `Point` — where a thread is.  `kernel held` is any code outside `proc.c` (user mode included),
  `handler held below` a device or timer interrupt taken at `below`.
-/

namespace Sistemas.Xv6.Process

variable {n m : Nat} {L K : Type}

inductive Lock (n : Nat) (L : Type) where
  | wait
  | pid
  | proc (p : Fin n)
  | other (l : L)
  deriving DecidableEq

inductive Chan (n : Nat) (K : Type) where
  | null
  | proc (p : Fin n)
  | other (k : K)
  deriving DecidableEq

inductive Procstate where
  | UNUSED | USED | SLEEPING | RUNNABLE | RUNNING | ZOMBIE
  deriving DecidableEq

inductive Panic where
  | acquire | release | popOffInterruptible | popOff
  | schedLock | schedLocks | schedRunning | schedInterruptible
  | initExiting | zombieExit
  deriving DecidableEq

/-- Indices count through the process table; `next` is where a call returns to. -/
inductive Point (n : Nat) (L K : Type) where
  | kernel (held : List L)
  | handler (held : List L) (below : Point n L K)
  -- wakeup()
  | wakeup (chan : Chan n K) (i : Nat) (next : Point n L K)
  | wakeupLocked (chan : Chan n K) (q : Fin n) (next : Point n L K)
  -- sched(), before and after its swtch()
  | sched (next : Point n L K)
  | schedReturn (intena : Bool) (next : Point n L K)
  -- yield()
  | yield (next : Point n L K)
  | yieldLocked (next : Point n L K)
  | yieldRelease (next : Point n L K)
  -- sleep()
  | sleep (chan : Chan n K) (lk : Lock n L) (next : Point n L K)
  | sleepRelease (chan : Chan n K) (lk : Lock n L) (next : Point n L K)
  | sleepMark (chan : Chan n K) (lk : Lock n L) (next : Point n L K)
  | sleepTidy (chan : Chan n K) (lk : Lock n L) (next : Point n L K)
  | sleepReacquire (chan : Chan n K) (lk : Lock n L) (next : Point n L K)
  -- kill() and setkilled()
  | kill (pid : Int) (i : Nat)
  | killLocked (pid : Int) (q : Fin n)
  | setkilled
  | setkilledLocked
  -- allocproc(), with allocpid()
  | alloc (i : Nat)
  | allocLocked (q : Fin n)
  | allocpid (q : Fin n)
  | allocpidLocked (q : Fin n)
  | allocUsed (q : Fin n) (pid : Int)
  | allocInit (q : Fin n)
  -- fork(), once it has a child
  | forkCopy (q : Fin n)
  | forkParent (q : Fin n)
  | forkParentLocked (q : Fin n)
  | forkRunnable (q : Fin n)
  | forkRunnableLocked (q : Fin n)
  -- exit(), with reparent()
  | exitFiles (status : Int) (held : List L)
  | exitReparent (status : Int) (i : Nat)
  | exitLock (status : Int)
  | exitZombie (status : Int)
  | zombieExit
  -- wait()
  | wait (addr : Nat)
  | waitScan (addr : Nat) (i : Nat) (havekids : Bool)
  | waitChild (addr : Nat) (q : Fin n)
  | waitKilled (addr : Nat)
  | waitReturn (result : Int)
  | forkret
  -- scheduler()
  | scheduler (i : Nat)
  | schedulerLocked (q : Fin n)
  | schedulerBack (q : Fin n)
  | schedulerRelease (q : Fin n)
  deriving DecidableEq

/-- `struct proc`, with what belongs to the memory and the files of the process left out. -/
structure Proc (n : Nat) (L K : Type) where
  state : Procstate
  chan : Chan n K
  killed : Bool
  xstate : Int
  pid : Int
  parent : Option (Fin n)
  context : Point n L K

structure Cpu (n : Nat) (L K : Type) where
  proc : Option (Fin n)
  context : Point n L K
  -- the process on whose kernel stack the CPU executes; `none` in scheduler()
  thread : Option (Fin n)
  noff : Nat
  intena : Bool
  -- whether device interrupts are enabled
  intr : Bool

structure Table (n : Nat) (L K : Type) where
  proc : Fin n → Proc n L K
  nextpid : Int
  initproc : Fin n

structure State (n m : Nat) (L K : Type) extends Table n L K where
  lock : Lock n L → Option (Fin m)
  cpu : Fin m → Cpu n L K
  panicked : Option Panic

/-! ## Locks held at a point -/

/-- `p->lock` of the thread's process. -/
def own : Option (Fin n) → List (Lock n L)
  | some p => [.proc p]
  | none => []

/-- The spinlocks that the thread of `me` holds at a point. -/
def Point.holds (me : Option (Fin n)) : Point n L K → List (Lock n L)
  | .kernel held | .exitFiles _ held => held.map .other
  | .handler held _ => held.map .other
  | .wakeup _ _ next => next.holds me
  | .wakeupLocked _ q next => .proc q :: next.holds me
  | .sched _ | .schedReturn _ _ | .yieldLocked _ | .yieldRelease _ | .sleepMark _ _ _
  | .sleepTidy _ _ _ | .setkilledLocked | .zombieExit | .forkret => own me
  | .yield _ | .sleepReacquire _ _ _ | .kill _ _ | .setkilled | .alloc _ | .forkParent _
  | .forkRunnable _ | .wait _ | .scheduler _ => []
  | .sleep _ lk _ => [lk]
  | .sleepRelease _ lk _ => own me ++ [lk]
  | .killLocked _ q | .allocLocked q | .allocpid q | .allocUsed q _ | .allocInit q | .forkCopy q
  | .forkRunnableLocked q | .schedulerLocked q | .schedulerBack q | .schedulerRelease q =>
    [.proc q]
  | .allocpidLocked q => [.pid, .proc q]
  | .forkParentLocked _ | .exitReparent _ _ | .exitLock _ | .waitScan _ _ _ | .waitReturn _ =>
    [.wait]
  | .exitZombie _ | .waitKilled _ => own me ++ [.wait]
  | .waitChild _ q => [.proc q, .wait]

/-- The code that calls `wakeup()`, `yield()` and `sleep()`. -/
def Point.Caller : Point n L K → Prop
  | .kernel _ | .handler _ _ | .exitFiles _ _ | .exitReparent _ _ | .exitLock _ => True
  -- wait() scans again from the start
  | .waitScan _ i _ => i = 0
  | _ => False

/-- Where `sched()` returns to. -/
def Point.Resumes : Point n L K → Prop
  | .yieldRelease _ | .sleepTidy _ _ _ | .zombieExit => True
  | _ => False

/-- Where a call returns to, the caller holds what it held before it. -/
def Point.Sound (me : Option (Fin n)) : Point n L K → Prop
  | .handler _ below => below.holds me = [] ∧ below.Sound me
  | .wakeup _ _ next | .wakeupLocked _ _ next => next.Caller ∧ next.Sound me
  | .yield next | .yieldLocked next | .yieldRelease next =>
    next.Caller ∧ next.holds me = [] ∧ next.Sound me
  | .sleep _ lk next | .sleepRelease _ lk next | .sleepMark _ lk next | .sleepTidy _ lk next
  | .sleepReacquire _ lk next =>
    next.Caller ∧ next.holds me = [lk] ∧ next.Sound me
  | .sched next | .schedReturn _ next => me ≠ none ∧ next.Resumes ∧ next.Sound me
  | _ => True

/-- The state that a process has while a CPU executes it at a point. -/
def Point.state : Point n L K → Procstate
  | .sched (.yieldRelease _) => .RUNNABLE
  | .sched (.sleepTidy _ _ _) => .SLEEPING
  | .sched .zombieExit => .ZOMBIE
  | _ => .RUNNING

/-- Where a process changes its own state, on its way to `sched()`. -/
def Point.Leaving : Point n L K → Prop
  | .yieldLocked _ | .sleepMark _ _ _ | .exitZombie _ => True
  | _ => False

theorem Point.Caller.running {point : Point n L K} (caller : point.Caller) :
    point.state = .RUNNING := by
  cases point <;> first | rfl | exact caller.elim

theorem Point.Sound.running {me : Option (Fin n)} {point : Point n L K} (sound : point.Sound me)
    (free : point.holds me = []) : point.state = .RUNNING := by
  cases point with
  | sched next =>
    cases me with
    | none => exact absurd rfl sound.1
    | some p => cases free
  | _ => rfl

end Sistemas.Xv6.Process
