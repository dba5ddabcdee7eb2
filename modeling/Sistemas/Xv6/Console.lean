import Sistemas.Data.RingBuffer
import Sistemas.Transition.Run

/-! # The console

`consoleintr` and `consoleread` of `console.c`.  Each holds `cons.lock` except where
`consoleread` sleeps, so a call of `consoleintr` is one step and a call of `consoleread` is one
for each part between two sleeps.  The readers have buffers that `either_copyout` can write, and
nobody kills them.

* `Cons`, `consoleintr`, `consoleread` — the buffer and the two functions.
* `Device` — anything that takes characters and gives them to readers, and the system of its
  readers.  The console is one; the line discipline, which has no indices, is another.
-/

namespace Sistemas.Xv6.Console

/-- The number of values of a `uint`. -/
def uints : Nat := 4294967296

def inputBufSize : Nat := 128

/-! ## Characters -/

/-- `C('D')` -/
def ctrlD : UInt8 := 4

/-- `C('P')` -/
def ctrlP : UInt8 := 16

/-- `C('U')` -/
def ctrlU : UInt8 := 21

/-- `C('H')` -/
def ctrlH : UInt8 := 8

/-- `'\x7f'` -/
def delete : UInt8 := 127

/-- `'\n'` -/
def newline : UInt8 := 10

/-- `'\r'` -/
def carriageReturn : UInt8 := 13

/-! ## Devices and their readers -/

/-- What a reader does between two sleeps. -/
structure Piece (σ : Type) where
  state : σ
  -- `n` at the end
  n : Nat
  -- what `either_copyout` gets
  bytes : List UInt8
  -- false: it sleeps
  returned : Bool

structure Device (σ : Type) where
  -- a character arrives; whether readers are woken
  intr : UInt8 → σ → σ × Bool
  read : (target n : Nat) → σ → Piece σ
  -- how many characters it has room for
  room : σ → Nat

/-- A process inside `consoleread`, with what its buffer has. -/
structure Reader where
  target : Nat
  n : Nat
  dst : List UInt8
  sleeping : Bool

structure Tty (σ P : Type) where
  device : σ
  reader : P → Option Reader

inductive Label (P : Type)
  | intr (c : UInt8)
  | call (p : P) (n : Nat)
  -- a reader that has been woken gets the lock
  | resume (p : P)

/-- What a returning reader asked for and what it got. -/
structure Result where
  target : Nat
  dst : List UInt8

inductive Event
  -- `c` arrives when there is room for `room` characters
  | key (c : UInt8) (room : Nat)
  | read (bytes : List UInt8) (result : Option Result)

namespace Tty

variable {σ P : Type} [DecidableEq P]

def start (x : σ) : Tty σ P := { device := x, reader := fun _ => none }

def wakeup (t : Tty σ P) : Tty σ P :=
  { t with reader := fun p => (t.reader p).map fun x => { x with sleeping := false } }

/-- What becomes of a reader. -/
def Reader.after (x : Reader) (piece : Piece σ) : Option Reader :=
  if piece.returned then none
  else some { x with n := piece.n, dst := x.dst ++ piece.bytes, sleeping := true }

/-- `x` is process `p`, and goes on. -/
def enter (D : Device σ) (t : Tty σ P) (p : P) (x : Reader) : Tty σ P where
  device := (D.read x.target x.n t.device).state
  reader := Function.update t.reader p (Reader.after x (D.read x.target x.n t.device))

/-- A reader as it calls. -/
def caller (n : Nat) : Reader := { target := n, n := n, dst := [], sleeping := false }

/-- The reader that gets the lock. -/
def entering (t : Tty σ P) : Label P → Option (P × Reader)
  | .intr _ => none
  | .call p n => if t.reader p = none ∧ 0 < n then some (p, caller n) else none
  | .resume p => ((t.reader p).filter fun x => !x.sleeping).map fun x => (p, x)

def step (D : Device σ) (t : Tty σ P) : Label P → Option (Tty σ P)
  | .intr c =>
    if (D.intr c t.device).2 then some { t with device := (D.intr c t.device).1 }.wakeup
    else some { t with device := (D.intr c t.device).1 }
  | .call p n => (t.entering (.call p n)).map fun px => t.enter D px.1 px.2
  | .resume p => (t.entering (.resume p)).map fun px => t.enter D px.1 px.2

/-- The result of a reader that returns. -/
def result (x : Reader) (piece : Piece σ) : Option Result :=
  if piece.returned then some { target := x.target, dst := x.dst ++ piece.bytes } else none

def reads (D : Device σ) (t : Tty σ P) (x : Reader) : Event :=
  .read (D.read x.target x.n t.device).bytes (result x (D.read x.target x.n t.device))

def obs (D : Device σ) (t : Tty σ P) : Label P → Option Event
  | .intr c => some (.key c (D.room t.device))
  | .call p n => (t.entering (.call p n)).map fun px => t.reads D px.2
  | .resume p => (t.entering (.resume p)).map fun px => t.reads D px.2

def exec (D : Device σ) : Tty σ P → List (Label P) → Option (Tty σ P) :=
  Transition.exec (step D)

def trace (D : Device σ) : Tty σ P → List (Label P) → List Event :=
  Transition.trace (step D) (obs D)

end Tty

/-! ## The console -/

structure Cons where
  buf : Nat → UInt8
  r : Nat
  w : Nat
  e : Nat

/-- `i++` -/
def incr (i : Nat) : Nat := (i + 1) % uints

/-- `i--` -/
def decr (i : Nat) : Nat := (i + (uints - 1)) % uints

theorem decr_incr {i : Nat} (lt : i < uints) : decr (incr i) = i := by
  unfold decr incr uints at *
  omega

/-- `i - j` -/
def minus (i j : Nat) : Nat := (i + uints - j) % uints

namespace Cons

def init : Cons := { buf := fun _ => 0, r := 0, w := 0, e := 0 }

/-- `cons.buf[i % INPUT_BUF_SIZE]` -/
def get (s : Cons) (i : Nat) : UInt8 := s.buf (i % inputBufSize)

/-- The loop that kills a line; it ends at `cons.w`. -/
def killLine : (fuel : Nat) → Cons → Cons
  | 0, s => s
  | fuel + 1, s =>
    if s.e ≠ s.w ∧ s.get (decr s.e) ≠ newline then killLine fuel { s with e := decr s.e } else s

/-- `cons.buf[cons.e++ % INPUT_BUF_SIZE] = c` -/
def store (c : UInt8) (s : Cons) : Cons :=
  { s with buf := Function.update s.buf (s.e % inputBufSize) c, e := incr s.e }

/-- The last line of the default case, and whether it calls `wakeup`. -/
def commit (c : UInt8) (s : Cons) : Cons × Bool :=
  if c = newline ∨ c = ctrlD ∨ minus s.e s.r = inputBufSize then ({ s with w := s.e }, true)
  else (s, false)

def consoleintr (c : UInt8) (s : Cons) : Cons × Bool :=
  if c = ctrlP then (s, false)
  else if c = ctrlU then (s.killLine (minus s.e s.w), false)
  else if c = ctrlH ∨ c = delete then
    (if s.e ≠ s.w then { s with e := decr s.e } else s, false)
  else if c ≠ 0 ∧ minus s.e s.r < inputBufSize then
    let c := if c = carriageReturn then newline else c
    (s.store c).commit c
  else (s, false)

/-- `consoleread` from the head of its loop to the next sleep or the end. -/
def consoleread (target : Nat) : (n : Nat) → Cons → Piece Cons
  | 0, s => { state := s, n := 0, bytes := [], returned := true }
  | n + 1, s =>
    if s.r = s.w then { state := s, n := n + 1, bytes := [], returned := false }
    else
      let c := s.get s.r
      let s := { s with r := incr s.r }
      if c = ctrlD then
        { state := if n + 1 < target then { s with r := decr s.r } else s
          n := n + 1
          bytes := []
          returned := true }
      else if c = newline then { state := s, n := n, bytes := [c], returned := true }
      else
        let rest := consoleread target n s
        { rest with bytes := c :: rest.bytes }

end Cons

def device : Device Cons where
  intr := Cons.consoleintr
  read := Cons.consoleread
  room s := inputBufSize - minus s.e s.r

end Sistemas.Xv6.Console
