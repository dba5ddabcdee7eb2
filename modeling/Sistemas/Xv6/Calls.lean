import Sistemas.Xv6.FileTable
import Sistemas.Xv6.Namex
import Sistemas.Xv6.Process
import Sistemas.Xv6.Uvm
import Sistemas.Xv6.VmCopy

/-! # The calls that take and give up memory

`fork`, `exit`, `wait`, `sbrk`, `pipe` and `close`, with `allocproc` and `freeproc`; each call runs
to its end.  A process that may run is `RUNNABLE` between the calls.  The locks, and what `iput` and
`wakeup` do besides, are left out, and so is the data in a pipe.
-/

namespace Sistemas.Xv6.Calls

open Vm (Mem pgsize kalloc kfree)
open Vm.Copy (copyout)
open Uvm (procPagetable procFreepagetable uvmcopy)
open Sysfile (nfile nofile)
open Process (Procstate)
open FileTable (FileType argfd fdalloc)
open Namex (ninode)

/-! ## The state -/

structure File where
  type : FileType
  ref : Nat
  readable : Bool
  writable : Bool
  -- the page of the pipe
  pipe : Nat
  ip : Fin ninode

structure Proc where
  state : Procstate
  pid : Int
  parent : Option (Fin nproc)
  killed : Bool
  xstate : Int
  -- 0 if there is none
  trapframe : Nat
  pagetable : Nat
  sz : Nat
  ofile : Fin nofile → Option (Fin nfile)
  cwd : Option (Fin ninode)
  name : List UInt8

structure State where
  mem : Mem
  proc : Fin nproc → Proc
  nextpid : Int
  initproc : Fin nproc
  file : Fin nfile → File
  -- `ref` of each inode of `itable`
  iref : Fin ninode → Nat

inductive Panic
  | uvm (e : Uvm.Panic)
  | filedup
  | fileclose
  | initExiting
deriving DecidableEq

def liftUvm {α : Type} (r : Except Uvm.Panic α) : Except Panic α := r.mapError .uvm

def liftVm {α : Type} (r : Except Vm.Panic α) : Except Panic α := r.mapError fun e => .uvm (.vm e)

def State.setMem (s : State) (m : Mem) : State := { s with mem := m }

def State.setProc (s : State) (p : Fin nproc) (proc : Proc) : State :=
  { s with proc := Function.update s.proc p proc }

def State.setFile (s : State) (f : Fin nfile) (file : File) : State :=
  { s with file := Function.update s.file f file }

def State.setOfile (s : State) (p : Fin nproc) (fd : Fin nofile) (f : Option (Fin nfile)) : State :=
  s.setProc p { s.proc p with ofile := Function.update (s.proc p).ofile fd f }

/-! ### Access after a change -/

@[simp] theorem State.setMem_mem (s : State) (m : Mem) : (s.setMem m).mem = m := rfl

@[simp] theorem State.setMem_proc (s : State) (m : Mem) : (s.setMem m).proc = s.proc := rfl

@[simp] theorem State.setMem_file (s : State) (m : Mem) : (s.setMem m).file = s.file := rfl

@[simp] theorem State.setProc_mem (s : State) (p : Fin nproc) (proc : Proc) :
    (s.setProc p proc).mem = s.mem := rfl

@[simp] theorem State.setProc_file (s : State) (p : Fin nproc) (proc : Proc) :
    (s.setProc p proc).file = s.file := rfl

@[simp] theorem State.setProc_self (s : State) (p : Fin nproc) (proc : Proc) :
    (s.setProc p proc).proc p = proc := Function.update_self ..

theorem State.setProc_other (s : State) {p q : Fin nproc} (proc : Proc) (ne : q ≠ p) :
    (s.setProc p proc).proc q = s.proc q := Function.update_of_ne ne ..

@[simp] theorem State.setProc_setProc (s : State) (p : Fin nproc) (proc proc' : Proc) :
    (s.setProc p proc).setProc p proc' = s.setProc p proc' := by
  rw [State.setProc, State.setProc, State.setProc, Function.update_idem]

@[simp] theorem State.setProc_setMem (s : State) (p : Fin nproc) (proc : Proc) (m : Mem) :
    (s.setProc p proc).setMem m = (s.setMem m).setProc p proc := rfl

@[simp] theorem State.setMem_setMem (s : State) (m m' : Mem) :
    (s.setMem m).setMem m' = s.setMem m' := rfl

@[simp] theorem State.setFile_mem (s : State) (f : Fin nfile) (file : File) :
    (s.setFile f file).mem = s.mem := rfl

@[simp] theorem State.setFile_proc (s : State) (f : Fin nfile) (file : File) :
    (s.setFile f file).proc = s.proc := rfl

@[simp] theorem State.setOfile_mem (s : State) (p : Fin nproc) (fd : Fin nofile)
    (f : Option (Fin nfile)) : (s.setOfile p fd f).mem = s.mem := rfl

@[simp] theorem State.setOfile_file (s : State) (p : Fin nproc) (fd : Fin nofile)
    (f : Option (Fin nfile)) : (s.setOfile p fd f).file = s.file := rfl

/-- The constants of the kernel: the end of its own memory, and the page `trampoline` there. -/
structure Layout where
  kend : Nat
  tramp : Nat
  low : Vm.kernbase ≤ kend
  high : kend ≤ Vm.phystop
  aligned : tramp % pgsize = 0
  text : tramp < kend

variable (l : Layout)

/-! ## `proc.c` -/

/-- `kfree((void*)p->trapframe)` -/
def freeTrapframe (proc : Proc) (m : Mem) : Except Panic Mem :=
  if proc.trapframe ≠ 0 then liftVm (kfree l.kend proc.trapframe m) else .ok m

/-- `proc_freepagetable(p->pagetable, p->sz)` -/
def freePagetable (proc : Proc) (m : Mem) : Except Panic Mem :=
  if proc.pagetable ≠ 0 then liftUvm (procFreepagetable l.kend proc.pagetable proc.sz m)
  else .ok m

/-- The fields that `freeproc` sets. -/
def Proc.reset (proc : Proc) : Proc :=
  { proc with
    trapframe := 0, pagetable := 0, sz := 0, pid := 0, parent := none, name := [],
    killed := false, xstate := 0, state := .UNUSED }

def freeproc (p : Fin nproc) (s : State) : Except Panic State := do
  let m ← freeTrapframe l (s.proc p) s.mem
  let m ← freePagetable l (s.proc p) m
  .ok ((s.setMem m).setProc p (s.proc p).reset)

/-- `found:`, from the allocation of the trapframe on. -/
def allocFound (p : Fin nproc) (s : State) : Except Panic (Option (Fin nproc) × State) :=
  match kalloc s.mem with
  | none => do
    let s ← freeproc l p (s.setProc p { s.proc p with trapframe := 0 })
    .ok (none, s)
  | some (frame, m) => do
    let s := (s.setMem m).setProc p { s.proc p with trapframe := frame }
    let (pagetable, m) ← liftUvm (procPagetable l.kend l.tramp frame s.mem)
    let s := (s.setMem m).setProc p { s.proc p with pagetable := pagetable.getD 0 }
    if pagetable = none then do
      let s ← freeproc l p s
      .ok (none, s)
    else .ok (some p, s)

/-- `allocpid` -/
def State.allocpid (s : State) (p : Fin nproc) : State :=
  { s with nextpid := wrapInt (s.nextpid + 1) }.setProc p
    { s.proc p with pid := s.nextpid, state := .USED }

def allocproc (s : State) : Except Panic (Option (Fin nproc) × State) :=
  match (List.finRange nproc).find? fun p => (s.proc p).state = .UNUSED with
  | none => .ok (none, s)
  | some p => allocFound l p (s.allocpid p)

/-- `*(np->trapframe) = *(p->trapframe); np->trapframe->a0 = 0;` -/
def copyTrapframe (np p : Nat) (m : Mem) : Mem :=
  { m with bytes := m.bytes.splice np 288 fun i => m.bytes (p + i) }.store (np + 112) 0

def filedup (f : Fin nfile) (s : State) : Except Panic State :=
  if (s.file f).ref < 1 then .error .filedup
  else .ok (s.setFile f { s.file f with ref := (s.file f).ref + 1 })

/-- `for(i = 0; i < NOFILE; i++)` in `fork` -/
def dupLoop (p np : Fin nproc) : List (Fin nofile) → State → Except Panic State
  | [], s => .ok s
  | fd :: fds, s =>
    match (s.proc p).ofile fd with
    | none => dupLoop p np fds s
    | some f => do
      let s ← filedup f s
      dupLoop p np fds (s.setOfile np fd (some f))

/-- `idup(p->cwd)`; the inode of a process is never 0. -/
def State.idup (s : State) (ip : Option (Fin ninode)) : State :=
  match ip with
  | none => s
  | some ip => { s with iref := Function.update s.iref ip (s.iref ip + 1) }

/-- `iput` -/
def State.iput (s : State) (ip : Fin ninode) : State :=
  { s with iref := Function.update s.iref ip (s.iref ip - 1) }

/-- `safestrcpy`, of strings without their NUL -/
def safestrcpy (t : List UInt8) (n : Nat) : List UInt8 := t.take (n - 1)

/-- `np->sz = p->sz`, and what follows in `fork` -/
def forkRest (p np : Fin nproc) (s : State) : Except Panic (Int × State) := do
  let s := s.setProc np { s.proc np with sz := (s.proc p).sz }
  let s := s.setMem (copyTrapframe (s.proc np).trapframe (s.proc p).trapframe s.mem)
  let s ← dupLoop p np (List.finRange nofile) s
  let s := (s.setProc np { s.proc np with cwd := (s.proc p).cwd }).idup (s.proc p).cwd
  let s := s.setProc np { s.proc np with
    name := safestrcpy (s.proc p).name 16, parent := some p, state := .RUNNABLE }
  .ok ((s.proc np).pid, s)

def fork (p : Fin nproc) (s : State) : Except Panic (Int × State) := do
  let (np, s) ← allocproc l s
  match np with
  | none => .ok (-1, s)
  | some np => do
    let (copied, m) ←
      liftUvm (uvmcopy l.kend (s.proc p).pagetable (s.proc np).pagetable (s.proc p).sz s.mem)
    if copied = false then do
      let s ← freeproc l np (s.setMem m)
      .ok (-1, s)
    else forkRest p np (s.setMem m)

def growproc (p : Fin nproc) (n : Int) (s : State) : Except Panic (Int × State) := do
  let (sz, m) ← liftUvm (Uvm.growproc l.kend (s.proc p).pagetable (s.proc p).sz n s.mem)
  match sz with
  | none => .ok (-1, s.setMem m)
  | some sz => .ok (0, (s.setMem m).setProc p { s.proc p with sz := sz })

/-- The old size, -1 if there is not enough memory. -/
def sysSbrk (p : Fin nproc) (n : Int) (s : State) : Except Panic (Int × State) := do
  let (r, s') ← growproc l p n s
  .ok (if r < 0 then -1 else (s.proc p).sz, s')

/-! ## `file.c` and `pipe.c` -/

/-- Where `readopen` and `writeopen` are in a pipe. -/
def readopen : Nat := 544

def writeopen : Nat := 548

def loadInt (m : Mem) (a : Nat) : Nat := m.bytes.load 4 a

def storeInt (m : Mem) (a v : Nat) : Mem := { m with bytes := m.bytes.store 4 a v }

def pipeclose (pi : Nat) (writable : Bool) (s : State) : Except Panic State :=
  let m := storeInt s.mem (pi + if writable then writeopen else readopen) 0
  if loadInt m (pi + readopen) = 0 ∧ loadInt m (pi + writeopen) = 0 then do
    let m ← liftVm (kfree l.kend pi m)
    .ok (s.setMem m)
  else .ok (s.setMem m)

def fileclose (f : Fin nfile) (s : State) : Except Panic State :=
  let ff := s.file f
  if ff.ref < 1 then .error .fileclose
  else if 0 < ff.ref - 1 then .ok (s.setFile f { ff with ref := ff.ref - 1 })
  else
    let s := s.setFile f { ff with ref := 0, type := .none }
    match ff.type with
    | .none => .ok s
    | .pipe => pipeclose l ff.pipe ff.writable s
    | .inode | .device => .ok (s.iput ff.ip)

def filealloc (s : State) : Option (Fin nfile × State) :=
  ((List.finRange nfile).find? fun f => (s.file f).ref = 0).map fun f =>
    (f, s.setFile f { s.file f with ref := 1 })

/-- The fields of a new pipe; those of its lock are left out. -/
def initPipe (pi : Nat) (m : Mem) : Mem :=
  storeInt (storeInt (storeInt (storeInt m (pi + readopen) 1) (pi + writeopen) 1) (pi + 540) 0)
    (pi + 536) 0

/-- At `bad:` there is no page of a pipe. -/
def pipealloc (s : State) : Except Panic (Option (Fin nfile × Fin nfile) × State) :=
  match filealloc s with
  | none => .ok (none, s)
  | some (f0, s) =>
    match filealloc s with
    | none => do
      let s ← fileclose l f0 s
      .ok (none, s)
    | some (f1, s) =>
      match kalloc s.mem with
      | none => do
        let s ← fileclose l f0 s
        let s ← fileclose l f1 s
        .ok (none, s)
      | some (pi, m) =>
        let s := s.setMem (initPipe pi m)
        let s := s.setFile f0 { s.file f0 with
          type := .pipe, readable := true, writable := false, pipe := pi }
        let s := s.setFile f1 { s.file f1 with
          type := .pipe, readable := false, writable := true, pipe := pi }
        .ok (some (f0, f1), s)

/-! ## `sysfile.c` -/

def sysClose (p : Fin nproc) (fd : Int) (s : State) : Except Panic (Int × State) :=
  match argfd (s.proc p).ofile fd with
  | none => .ok (-1, s)
  | some (fd, f) => do
    let s ← fileclose l f (s.setOfile p fd none)
    .ok (0, s)

/-- The bytes of an `int`. -/
def intBytes (v : Int) : Bytes := Bytes.store (fun _ => 0) 4 0 (v % 2 ^ 32).toNat

/-- The two ends are given up again. -/
def closeBoth (rf wf : Fin nfile) (s : State) : Except Panic (Int × State) := do
  let s ← fileclose l rf s
  let s ← fileclose l wf s
  .ok (-1, s)

/-- The descriptors are written to `fdarray`. -/
def pipeFds (p : Fin nproc) (fdarray : Nat) (fd0 fd1 : Fin nofile) (s : State) :
    Except Panic (Bool × State) := do
  let (ok, m) ← liftVm (copyout (s.proc p).pagetable fdarray 0 4 (intBytes fd0) s.mem)
  if ok = false then .ok (false, s.setMem m)
  else do
    let (ok, m) ←
      liftVm (copyout (s.proc p).pagetable ((fdarray + 4) % 2 ^ 64) 0 4 (intBytes fd1) m)
    .ok (ok, s.setMem m)

def sysPipe (p : Fin nproc) (fdarray : Nat) (s : State) : Except Panic (Int × State) := do
  let (files, s) ← pipealloc l s
  match files with
  | none => .ok (-1, s)
  | some (rf, wf) =>
    match fdalloc (s.proc p).ofile with
    | none => closeBoth l rf wf s
    | some fd0 =>
      let s := s.setOfile p fd0 (some rf)
      match fdalloc (s.proc p).ofile with
      | none => closeBoth l rf wf (s.setOfile p fd0 none)
      | some fd1 => do
        let (ok, s) ← pipeFds p fdarray fd0 fd1 (s.setOfile p fd1 (some wf))
        if ok = false then closeBoth l rf wf ((s.setOfile p fd0 none).setOfile p fd1 none)
        else .ok (0, s)

/-! ## `exit` and `wait` -/

/-- `for(int fd = 0; fd < NOFILE; fd++)` in `exit` -/
def closeLoop (p : Fin nproc) : List (Fin nofile) → State → Except Panic State
  | [], s => .ok s
  | fd :: fds, s =>
    match (s.proc p).ofile fd with
    | none => closeLoop p fds s
    | some f => do
      let s ← fileclose l f s
      closeLoop p fds (s.setOfile p fd none)

/-- `iput(p->cwd); p->cwd = 0;` -/
def State.leaveCwd (s : State) (p : Fin nproc) : State :=
  let s' := match (s.proc p).cwd with
    | none => s
    | some ip => s.iput ip
  s'.setProc p { s.proc p with cwd := none }

/-- `reparent` -/
def State.reparent (s : State) (p : Fin nproc) : State :=
  { s with proc := fun pp =>
      if (s.proc pp).parent = some p then { s.proc pp with parent := some s.initproc }
      else s.proc pp }

def exit (p : Fin nproc) (status : Int) (s : State) : Except Panic State :=
  if p = s.initproc then .error .initExiting
  else do
    let s ← closeLoop l p (List.finRange nofile) s
    let s := (s.leaveCwd p).reparent p
    .ok (s.setProc p { s.proc p with xstate := status, state := .ZOMBIE })

/-- The status is copied out if `addr` is not 0. -/
def copyStatus (p pp : Fin nproc) (addr : Nat) (s : State) : Except Panic (Bool × Mem) :=
  if addr ≠ 0 then
    liftVm (copyout (s.proc p).pagetable addr 0 4 (intBytes (s.proc pp).xstate) s.mem)
  else .ok (true, s.mem)

/-- One turn of `for(;;)`: the result, nothing if the process sleeps. -/
def wait (p : Fin nproc) (addr : Nat) (s : State) : Except Panic (Option Int × State) :=
  let kids := (List.finRange nproc).filter fun pp => (s.proc pp).parent = some p
  match kids.find? fun pp => (s.proc pp).state = .ZOMBIE with
  | some pp => do
    let (copied, m) ← copyStatus p pp addr s
    if copied = false then .ok (some (-1), s.setMem m)
    else do
      let s' ← freeproc l pp (s.setMem m)
      .ok (some (s.proc pp).pid, s')
  | none => .ok (if kids = [] ∨ (s.proc p).killed then some (-1) else none, s)

end Sistemas.Xv6.Calls
