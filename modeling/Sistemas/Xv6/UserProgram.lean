import Mathlib.Logic.Function.Basic
import Sistemas.Xv6.SemaphoreLocks

/-! # User programs on the kernel

A user program is given by its locations and what it does at each of them: a system call
or a printed line.  `Machine` runs processes of one program on the kernel: a call waits
until the kernel thread returns to user space, and the child of a `fork` goes on with 0
from the same location.
-/

namespace Sistemas.Xv6

variable {n : Nat} {Loc : Type}

structure Program (n : Nat) (Loc : Type) where
  -- the system call made next; `child` is the slot a `fork` gets
  call : (child : Fin n) → Loc → Option (Syscall n)
  -- the line printed next
  line : Loc → Option String
  -- where a call that returns a value goes on
  returned : Int → Loc → Loc
  -- where the program goes on after a line
  printed : Loc → Loc

/-- The kernel, the location of each process that runs the program, and the lines
    printed. -/
structure Machine (n : Nat) (Loc : Type) where
  kernel : Kernel n
  loc : Fin n → Option Loc
  out : List String

inductive Move (n : Nat) where
  | call (child : Fin n)
  | print
  | run | dispatch | park | spurious

namespace Machine

/-- A `fork` puts its child where it returns 0. -/
def afterCall (P : Program n Loc) (M : Machine n Loc) (u : Loc) : Syscall n → Fin n → Option Loc
  | .fork (some child) => Function.update M.loc child (some (P.returned 0 u))
  | _ => M.loc

/-- The program goes on when the kernel thread returns to user space. -/
def afterRun (P : Program n Loc) (M : Machine n Loc) (p : Fin n) : Fin n → Option Loc :=
  match (M.kernel.proc p).pc with
  | .ret r => Function.update M.loc p ((M.loc p).map (P.returned r))
  | _ => M.loc

def step (P : Program n Loc) (M : Machine n Loc) : Fin n × Move n → Option (Machine n Loc)
  | (p, .call child) =>
    (M.loc p).bind fun u => (P.call child u).bind fun c => (M.kernel.step (p, .call c)).map fun k =>
      { M with kernel := k, loc := M.afterCall P u c }
  | (p, .print) =>
    if (M.kernel.proc p).state = .running ∧ (M.kernel.proc p).pc = .user then
      (M.loc p).bind fun u => (P.line u).map fun text =>
        { M with loc := Function.update M.loc p (some (P.printed u)), out := M.out ++ [text] }
    else none
  | (p, .run) =>
    (M.kernel.step (p, .run)).map fun k => { M with kernel := k, loc := M.afterRun P p }
  | (p, .dispatch) => (M.kernel.step (p, .dispatch)).map fun k => { M with kernel := k }
  | (p, .park) => (M.kernel.step (p, .park)).map fun k => { M with kernel := k }
  | (p, .spurious) => (M.kernel.step (p, .spurious)).map fun k => { M with kernel := k }

def Quiescent (P : Program n Loc) (M : Machine n Loc) : Prop :=
  ∀ p m, m ≠ .spurious → M.step P (p, m) = none

variable {P : Program n Loc} {M : Machine n Loc}

theorem Quiescent.halted (quiet : M.Quiescent P) : M.kernel.Halted where
  run p := by simpa [step] using quiet p .run (by simp)
  dispatch p := by simpa [step] using quiet p .dispatch (by simp)
  park p := by simpa [step] using quiet p .park (by simp)

theorem quiescent_of_kernel (quiet : M.kernel.Quiescent)
    (idle : ∀ p, (M.kernel.proc p).state ≠ .running) : M.Quiescent P := by
  intro p m notSpurious
  cases m with
  | call child => simp [step, quiet p (.call _) (by simp)]
  | print => simp [step, idle p]
  | run => simp [step, quiet p .run (by simp)]
  | dispatch => simp [step, quiet p .dispatch (by simp)]
  | park => simp [step, quiet p .park (by simp)]
  | spurious => cases notSpurious rfl

end Machine

end Sistemas.Xv6
