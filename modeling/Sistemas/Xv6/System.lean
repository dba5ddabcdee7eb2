import Sistemas.Transition.Run
import Sistemas.Xv6.Exec

/-! # The kernel and its processes

From the first process on: a process that may run makes a call, which runs to its end, or writes to
its own memory.
-/

namespace Sistemas.Xv6.Calls.System

open Vm (Mem pgsize maxva walk valid user pte2pa pteR pteW pteX pteU kalloc mappages)
open Exec (Inode)
open Sysfile (nfile nofile)
open Namex (ninode)

/-! ## The memory of a process -/

/-- The physical address of a byte, if the process may use the page as the flag `perm` says. -/
def translate (pagetable va perm : Nat) (m : Mem) : Option Nat :=
  if va ≥ maxva then none
  else
    match walk pagetable va false m with
    | .ok (some pte, _) =>
      if valid (m.load pte) = true ∧ user (m.load pte) = true ∧ (m.load pte).testBit perm = true then
        some (pte2pa (m.load pte) + va % pgsize)
      else none
    | _ => none

/-- What is read at an address; nothing if that is a page fault. -/
def loadByte (pagetable va : Nat) (m : Mem) : Option UInt8 :=
  (translate pagetable va 1 m).map m.bytes

def userLoad (s : State) (p : Fin nproc) (va : Nat) : Option UInt8 :=
  loadByte (s.proc p).pagetable va s.mem

/-- A process writes a byte; nothing if that is a page fault. -/
def userStore (s : State) (p : Fin nproc) (va : Nat) (b : UInt8) : Option State :=
  (translate (s.proc p).pagetable va 2 s.mem).map fun a =>
    s.setMem { s.mem with bytes := Function.update s.mem.bytes a b }

/-! ## The first process -/

/-- A user program that calls `exec("/init")`. -/
def initcode : List UInt8 := [
  0x17, 0x05, 0x00, 0x00, 0x13, 0x05, 0x45, 0x02,
  0x97, 0x05, 0x00, 0x00, 0x93, 0x85, 0x35, 0x02,
  0x93, 0x08, 0x70, 0x00, 0x73, 0x00, 0x00, 0x00,
  0x93, 0x08, 0x20, 0x00, 0x73, 0x00, 0x00, 0x00,
  0xef, 0xf0, 0x9f, 0xff, 0x2f, 0x69, 0x6e, 0x69,
  0x74, 0x00, 0x00, 0x24, 0x00, 0x00, 0x00, 0x00,
  0x00, 0x00, 0x00, 0x00]

/-- Nothing if there is not enough memory, which the source takes for granted here; `src` is
shorter than a page. -/
def uvmfirst (pagetable : Nat) (src : List UInt8) (m : Mem) : Except Panic (Option Mem) :=
  match kalloc m with
  | none => .ok none
  | some (mem, m) => do
    let (mapped, m) ←
      liftVm (mappages pagetable 0 pgsize mem (pteW ||| pteR ||| pteX ||| pteU) (m.memset mem 0))
    .ok (if mapped then
      some { m with bytes := m.bytes.splice mem src.length fun i => src.getD i 0 } else none)

/-- `p->trapframe->epc = 0; p->trapframe->sp = PGSIZE;` -/
def firstRegisters (trapframe : Nat) (m : Mem) : Mem :=
  (m.store (trapframe + 24) 0).store (trapframe + 48) pgsize

/-- `"initcode"` -/
def initname : List UInt8 := [105, 110, 105, 116, 99, 111, 100, 101]

/-- `p->sz = PGSIZE`, and what follows in `userinit`; `root` is the inode that `namei("/")` finds. -/
def firstProc (root : Fin ninode) (p : Fin nproc) (s : State) (m : Mem) : State :=
  let s := { s with initproc := p }.setMem (firstRegisters (s.proc p).trapframe m)
  (s.setProc p { s.proc p with
    sz := pgsize, name := safestrcpy initname 16, cwd := some root, state := .RUNNABLE }).idup
    (some root)

def userinit (l : Layout) (root : Fin ninode) (s : State) : Except Panic (Option State) := do
  let (p, s) ← allocproc l s
  match p with
  | none => .ok none
  | some p => do
    let m ← uvmfirst (s.proc p).pagetable initcode s.mem
    .ok (m.map (firstProc root p s))

theorem nproc_pos : 0 < nproc := Nat.succ_pos 63

theorem ninode_pos : 0 < ninode := Nat.succ_pos 49

/-- The tables before the first process. -/
def boot (m : Mem) : State where
  mem := m
  proc _ := {
    state := .UNUSED, pid := 0, parent := none, killed := false, xstate := 0, trapframe := 0,
    pagetable := 0, sz := 0, ofile := fun _ => none, cwd := none, name := [] }
  nextpid := 1
  initproc := ⟨0, nproc_pos⟩
  file _ := {
    type := .none, ref := 0, readable := false, writable := false, pipe := 0,
    ip := ⟨0, ninode_pos⟩ }
  iref _ := 0

/-! ## Runs -/

inductive Call
  | fork
  | exec (namei : List UInt8 → Option Inode) (upath uargv : Nat)
  | sbrk (n : Int)
  | exit (status : Int)
  | wait (addr : Nat)
  | pipe (fdarray : Nat)
  | close (fd : Int)
  -- no call: the process writes a byte
  | store (va : Nat) (b : UInt8)

/-- `sys_exec` of process `p`. -/
def sysExec (l : Layout) (p : Fin nproc) (namei : List UInt8 → Option Inode) (upath uargv : Nat)
    (s : State) : Except Panic (Option Nat × State) := do
  let (r, proc, m) ← liftUvm (Exec.sysExec l namei upath uargv (s.proc p) s.mem)
  .ok (r, (s.setMem m).setProc p proc)

def call (l : Layout) (p : Fin nproc) (s : State) : Call → Except Panic State
  | .fork => (Calls.fork l p s).map Prod.snd
  | .exec namei upath uargv => (sysExec l p namei upath uargv s).map Prod.snd
  | .sbrk n => (Calls.sysSbrk l p n s).map Prod.snd
  | .exit status => Calls.exit l p status s
  | .wait addr => (Calls.wait l p addr s).map Prod.snd
  | .pipe fdarray => (Calls.sysPipe l p fdarray s).map Prod.snd
  | .close fd => (Calls.sysClose l p fd s).map Prod.snd
  | .store va b => .ok ((userStore s p va b).getD s)

/-- A process that may run makes a call. -/
def step (l : Layout) (s : State) (move : Fin nproc × Call) : Option State :=
  if (s.proc move.1).state = .RUNNABLE then (call l move.1 s move.2).toOption else none

/-- The states from the first process on; `m` is the memory before. -/
def Reachable (l : Layout) (m : Mem) (s : State) : Prop :=
  ∃ fs root s₀ moves, Vm.FreeList l.kend m fs ∧ userinit l root (boot m) = .ok (some s₀) ∧
    Transition.exec (step l) s₀ moves = some s

end Sistemas.Xv6.Calls.System
