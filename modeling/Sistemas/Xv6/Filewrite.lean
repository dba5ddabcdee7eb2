import Sistemas.Data.Interleaving
import Sistemas.Transition.Run
import Sistemas.Xv6.FsSpace
import Sistemas.Xv6.Log

/-! # Writes through a shared file

`filewrite` of `file.c` on a regular file, called by several processes with the same
`struct file`.  A call is a loop of transactions; in each of them the process locks the inode,
writes a few blocks at the offset of the file, advances the offset and unlocks the inode.
-/

namespace Sistemas.Xv6.Filewrite

open Sistemas.Transition Fs

/-! ## The code -/

/-- `max` -/
def maxBytes : Nat := (maxOpBlocks - 1 - 1 - 2) / 2 * bsize

/-- The arguments of a call, and `i`. -/
structure Call where
  addr : Source
  n : Int
  i : Int

inductive Pc
  | idle
  -- `while(i < n)`
  | loop (c : Call)
  -- `begin_op` has returned
  | begun (c : Call) (n1 : Int)
  -- the inode is locked
  | locked (c : Call) (n1 : Int)
  -- `writei` has returned
  | wrote (c : Call) (n1 r : Int)
  -- `f->off` has been advanced
  | advanced (c : Call) (n1 r : Int)
  -- the inode is unlocked
  | unlocked (c : Call) (n1 r : Int)

structure State (m : Nat) where
  -- `f->off`
  off : Nat
  -- `f->ip`
  ip : Dinode
  bufs : Buffers
  -- the owner of `ip->lock`
  lock : Option (Fin m)
  pc : Fin m → Pc
  panic : Option Panic

inductive Move (m : Nat)
  -- a call with a buffer that can be read
  | call (p : Fin m) (addr : Source) (n : Int) (valid : ∀ k < n.toNat, (addr k).isSome)
  | run (p : Fin m)

variable {m : Nat}

def State.jump (s : State m) (p : Fin m) (pc : Pc) : State m :=
  { s with pc := Function.update s.pc p pc }

/-- The result of `writei`. -/
def returned (r : Option Nat) : Int :=
  match r with
  | none => -1
  | some r => r

section

variable (sb : Layout) (inum : Nat)

/-- The next step of a process in `filewrite`. -/
def runPc (s : State m) (p : Fin m) : Pc → Option (State m)
  | .idle => none
  | .loop c =>
    if c.i < c.n then some (s.jump p (.begun c (min (c.n - c.i) maxBytes)))
    else some (s.jump p .idle)
  | .begun c n1 =>
    if s.lock = none then some ({ s with lock := some p }.jump p (.locked c n1)) else none
  | .locked c n1 =>
    match Buffers.writei sb inum s.ip (fun k => c.addr (c.i.toNat + k)) s.off n1.toNat s.bufs with
    | .ok (r, ip, bufs) => some ({ s with ip := ip, bufs := bufs }.jump p (.wrote c n1 (returned r)))
    | .error panic => some { s with panic := some panic }
  | .wrote c n1 r =>
    let off := if 0 < r then (s.off + r.toNat) % 2 ^ 32 else s.off
    some ({ s with off := off }.jump p (.advanced c n1 r))
  | .advanced c n1 r => some ({ s with lock := none }.jump p (.unlocked c n1 r))
  | .unlocked c n1 r =>
    if r ≠ n1 then some (s.jump p .idle) else some (s.jump p (.loop { c with i := c.i + r }))

def step (s : State m) : Move m → Option (State m)
  | .call p addr n _ =>
    match s.panic, s.pc p with
    | none, .idle => some (s.jump p (.loop { addr := addr, n := n, i := 0 }))
    | _, _ => none
  | .run p =>
    match s.panic with
    | none => runPc sb inum s p (s.pc p)
    | some _ => none

end

/-! ## What can be seen of it -/

/-- The bytes of a buffer from `i` on. -/
def bytesAt (addr : Source) (i n : Int) : List UInt8 :=
  (List.range n.toNat).map fun k => (addr (i.toNat + k)).getD 0

inductive Event (m : Nat)
  -- a call, with the bytes it is to write
  | called (p : Fin m) (bytes : List UInt8)
  -- a call of `writei`, with the bytes it gets
  | wrote (p : Fin m) (off : Nat) (bytes : List UInt8)
  | returned (p : Fin m) (n result : Int)

namespace Event

def proc : Event m → Fin m
  | called p _ | wrote p _ _ | returned p _ _ => p

def asked : Event m → List UInt8
  | called _ bytes => bytes
  | _ => []

def written : Event m → List UInt8
  | wrote _ _ bytes => bytes
  | _ => []

end Event

/-- `ret = (i == n ? n : -1)` -/
def Call.result (c : Call) : Int := if c.i = c.n then c.n else -1

def obs (s : State m) : Move m → Option (Event m)
  | .call p addr n _ => some (.called p (bytesAt addr 0 n))
  | .run p =>
    match s.pc p with
    | .loop c => if c.i < c.n then none else some (.returned p c.n c.result)
    | .locked c n1 => some (.wrote p s.off (bytesAt c.addr c.i n1))
    | .unlocked c n1 r => if r ≠ n1 then some (.returned p c.n c.result) else none
    | _ => none

end Sistemas.Xv6.Filewrite
