import Mathlib.Logic.Function.Basic
import Sistemas.Transition.Run
import Sistemas.Xv6.Log

/-! # Operations on the log

`begin_op`, `log_write` and `end_op` of `log.c`, called by any number of processes.  One move
of a process takes it to its next point: to acquire `log.lock` is a move of its own, the code
under the lock is one move, and a commit, which does not hold the lock, is a move for each
block that it copies.

A process that sleeps in `begin_op` is woken by `wakeup` or by a `kill`, and then takes the
lock again.  A panic stops everything.
-/

namespace Sistemas.Xv6.LogOps

variable {n : Nat}

/-- An operation, from the return of `begin_op` on. -/
structure Op where
  -- the operations are numbered in the order in which they begin
  id : Nat
  -- the block numbers it has logged
  logged : List Nat
  deriving DecidableEq

inductive Pc where
  | idle
  -- begin_op
  | beginAcquire
  | beginLocked
  | sleeping
  | inOp (op : Op)
  -- log_write
  | writeAcquire (op : Op) (b : Nat)
  | writeLocked (op : Op) (b : Nat)
  -- end_op
  | endAcquire (op : Op)
  | endLocked (op : Op)
  -- commit
  | commit
  | writeLog (tail : Nat)
  | writeHead
  | installTrans (tail : Nat)
  | clearHead
  -- end_op after commit
  | doneAcquire
  | doneLocked
  deriving DecidableEq

inductive Panic where
  -- "log.committing"
  | committing
  -- "too big a transaction"
  | tooBig
  -- "log_write outside of trans"
  | outsideOfTrans
  deriving DecidableEq

structure State (n : Nat) where
  lock : Option (Fin n)
  outstanding : Int
  committing : Bool
  -- the block numbers in `log.lh`
  block : List Nat
  panicked : Option Panic
  pcs : Fin n → Pc
  -- how many operations have begun, and how many commits are done
  ops : Nat
  commits : Nat

inductive Act where
  -- the calls of a process
  | beginOp
  | logWrite (b : Nat)
  | endOp
  -- the next move of the call it is in
  | run
  -- somebody kills it
  | kill

namespace State

def goto (s : State n) (p : Fin n) (pc : Pc) : State n :=
  { s with pcs := Function.update s.pcs p pc }

/-- `acquire (&log.lock)`: it spins while the lock is held. -/
def acquire (s : State n) (p : Fin n) (pc : Pc) : Option (State n) :=
  if s.lock = none then some { s.goto p pc with lock := some p } else none

def release (s : State n) : State n := { s with lock := none }

/-- `wakeup (&log)` -/
def wakeup (s : State n) : State n :=
  { s with pcs := fun q => if s.pcs q = .sleeping then .beginAcquire else s.pcs q }

def panic (s : State n) (message : Panic) : State n := { s with panicked := some message }

/-- `begin_op`, at the head of its loop. -/
def beginOp (s : State n) (p : Fin n) : State n :=
  if s.committing || s.block.length + (s.outstanding + 1) * maxOpBlocks > logSize then
    (s.goto p .sleeping).release
  else
    { s.goto p (.inOp { id := s.ops, logged := [] }) with
      outstanding := s.outstanding + 1
      ops := s.ops + 1 }.release

/-- `log_write` -/
def logWrite (s : State n) (size : Nat) (p : Fin n) (op : Op) (b : Nat) : State n :=
  if s.block.length ≥ logSize ∨ (s.block.length : Int) ≥ size - 1 then s.panic .tooBig
  else if s.outstanding < 1 then s.panic .outsideOfTrans
  else
    { s.goto p (.inOp { op with logged := op.logged.insert b }) with
      -- a block that is there already is absorbed
      block := if b ∈ s.block then s.block else s.block ++ [b] }.release

/-- `end_op`, up to the release of the lock. -/
def endOp (s : State n) (p : Fin n) : State n :=
  let s := { s with outstanding := s.outstanding - 1 }
  if s.committing then s.panic .committing
  else if s.outstanding = 0 then { s.goto p .commit with committing := true }.release
  else (s.goto p .idle).wakeup.release

/-- The next move of a process that is in a call. -/
def run (s : State n) (size : Nat) (p : Fin n) : Option (State n) :=
  match s.pcs p with
  | .idle => none
  | .beginAcquire => s.acquire p .beginLocked
  | .beginLocked => some (s.beginOp p)
  | .sleeping => none
  | .inOp _ => none
  | .writeAcquire op b => s.acquire p (.writeLocked op b)
  | .writeLocked op b => some (s.logWrite size p op b)
  | .endAcquire op => s.acquire p (.endLocked op)
  | .endLocked _ => some (s.endOp p)
  | .commit => some (s.goto p (if 0 < s.block.length then .writeLog 0 else .doneAcquire))
  | .writeLog tail => some (s.goto p (if tail < s.block.length then .writeLog (tail + 1) else .writeHead))
  | .writeHead => some (s.goto p (.installTrans 0))
  | .installTrans tail =>
    some (s.goto p (if tail < s.block.length then .installTrans (tail + 1) else .clearHead))
  | .clearHead => some { s.goto p .doneAcquire with block := [] }
  | .doneAcquire => s.acquire p .doneLocked
  | .doneLocked =>
    some ({ s.goto p .idle with committing := false, commits := s.commits + 1 }.wakeup.release)

def act (s : State n) (size : Nat) (p : Fin n) : Act → Option (State n)
  | .beginOp => if s.pcs p = .idle then some (s.goto p .beginAcquire) else none
  | .logWrite b =>
    match s.pcs p with
    | .inOp op => some (s.goto p (.writeAcquire op b))
    | _ => none
  | .endOp =>
    match s.pcs p with
    | .inOp op => some (s.goto p (.endAcquire op))
    | _ => none
  | .run => s.run size p
  | .kill => if s.pcs p = .sleeping then some (s.goto p .beginAcquire) else none

end State

/-- `size` is `log.size`. -/
def step (size : Nat) (s : State n) (l : Fin n × Act) : Option (State n) :=
  if s.panicked = none then s.act size l.1 l.2 else none

/-- After `initlog`. -/
def init (n : Nat) : State n where
  lock := none
  outstanding := 0
  committing := false
  block := []
  panicked := none
  pcs := fun _ => .idle
  ops := 0
  commits := 0

/-! ## Events -/

inductive Event where
  -- the operation has logged a block, for the commit of this number
  | wrote (op b commit : Nat)
  -- `end_op` is called
  | ended (op : Nat)
  -- the commit has copied a block to its place
  | installed (b commit : Nat)
  deriving DecidableEq

def obs (size : Nat) (s : State n) (l : Fin n × Act) : Option Event :=
  match s.pcs l.1, l.2 with
  | .inOp op, .endOp => some (.ended op.id)
  | .writeLocked op b, .run =>
    if (s.logWrite size l.1 op b).panicked = none then some (.wrote op.id b s.commits) else none
  | .installTrans tail, .run => (s.block[tail]?).map fun b => .installed b s.commits
  | _, _ => none

end Sistemas.Xv6.LogOps
