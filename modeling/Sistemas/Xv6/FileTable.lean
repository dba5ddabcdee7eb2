import Sistemas.Transition.Run
import Sistemas.Xv6.Sysfile

/-! # The file table

The system calls of `sysfile.c` that take and give up open files, with `filealloc`, `filedup`
and `fileclose` of `file.c`, `pipealloc` and `pipeclose` of `pipe.c`, and what `fork` and `exit`
do to `ofile`.  A call is cut at every lock, so the calls of several processes run into one
another.  What a path leads to, which slot `allocproc` finds, which page `kalloc` gives and
whether `copyout` succeeds is left open; inodes are left out, and of a pipe there is what
`pipealloc` and `pipeclose` change.
-/

namespace Sistemas.Xv6.FileTable

open Sysfile (nfile nofile nproc)

/-! ## The state -/

/-- `FD_NONE`, `FD_PIPE`, `FD_INODE` and `FD_DEVICE` -/
inductive FileType
  | none
  | pipe
  | inode
  | device
deriving DecidableEq

structure File where
  type : FileType
  ref : Nat
  readable : Bool
  writable : Bool
  -- the page of the pipe
  pipe : Nat

structure Pipe where
  readopen : Bool
  writeopen : Bool
deriving DecidableEq

/-- The inode that `open` has found and the way it is opened. -/
structure Opened where
  device : Bool
  readable : Bool
  writable : Bool

/-- What follows a `fileclose`. -/
inductive Next
  -- closing some more files, and the return from the call
  | close (fs : List (Fin nfile))
  -- the loop of `exit`, which clears the slot
  | exit (fd : Fin nofile)

/-- Where a process is, named by the next thing it does. -/
inductive Pc
  | unused
  -- being made by `fork`, whose caller has its lock
  | used (parent : Fin nproc)
  | zombie
  -- between two system calls
  | user
  -- `filealloc` in `sys_open`
  | openAlloc (ip : Opened)
  -- `fdalloc` in `sys_open`
  | openFd (f : Fin nfile) (ip : Opened)
  -- `filedup` in `sys_dup`, the slot `fd` taken
  | dup (fd : Fin nofile) (f : Fin nfile)
  -- the first `filealloc` of `pipealloc`
  | pipeFirst (valid : Bool)
  -- the second one
  | pipeSecond (f0 : Fin nfile) (valid : Bool)
  -- `kalloc`
  | pipePage (f0 f1 : Fin nfile) (valid : Bool)
  -- `sys_pipe` behind `pipealloc`
  | pipeFds (f0 f1 : Fin nfile) (valid : Bool)
  | fileclose (f : Fin nfile) (next : Next)
  | pipeclose (pi : Nat) (writable : Bool) (next : Next)
  -- `kfree((char*)pi)`
  | kfree (pi : Nat) (next : Next)
  -- the loop of `fork` over the descriptors
  | forkLoop (np : Fin nproc) (i : Nat)
  -- that of `exit`
  | exitLoop (i : Nat)

structure Proc where
  pc : Pc
  ofile : Fin nofile → Option (Fin nfile)

inductive Panic
  | filedup
  | fileclose
  -- a pipe is used whose page has been given back
  | pipe
deriving DecidableEq

structure State where
  file : Fin nfile → File
  -- the pages with a pipe
  page : Nat → Option Pipe
  proc : Fin nproc → Proc
  panic : Option Panic

/-! ## Changes of the state -/

def State.setFile (s : State) (f : Fin nfile) (file : File) : State :=
  { s with file := Function.update s.file f file }

def State.setPage (s : State) (pi : Nat) (pipe : Option Pipe) : State :=
  { s with page := Function.update s.page pi pipe }

def State.setProc (s : State) (p : Fin nproc) (proc : Proc) : State :=
  { s with proc := Function.update s.proc p proc }

def State.jump (s : State) (p : Fin nproc) (pc : Pc) : State :=
  s.setProc p { s.proc p with pc := pc }

/-- The process goes on at `pc` with a slot changed. -/
def State.jumpSlot (s : State) (p : Fin nproc) (fd : Fin nofile) (f : Option (Fin nfile))
    (pc : Pc) : State :=
  s.setProc p { pc := pc, ofile := Function.update (s.proc p).ofile fd f }

/-! ## The functions -/

def filealloc (s : State) : Option (Fin nfile) :=
  (List.finRange nfile).find? fun f => (s.file f).ref = 0

def fdalloc (ofile : Fin nofile → Option (Fin nfile)) : Option (Fin nofile) :=
  (List.finRange nofile).find? fun fd => (ofile fd).isNone

def argfd (ofile : Fin nofile → Option (Fin nfile)) (fd : Int) :
    Option (Fin nofile × Fin nfile) :=
  if h : fd < 0 ∨ (nofile : Int) ≤ fd then none
  else
    let fd : Fin nofile := ⟨fd.toNat, by omega⟩
    (ofile fd).map fun f => (fd, f)

/-- What `filealloc` does to the entry it finds. -/
def File.alloc (file : File) : File := { file with ref := 1 }

/-- The end of a call, or the next file to close. -/
def runNext (s : State) (p : Fin nproc) : Next → State
  | .close [] => s.jump p .user
  | .close (f :: fs) => s.jump p (.fileclose f (.close fs))
  | .exit fd => s.jumpSlot p fd none (.exitLoop (fd.val + 1))

def runFiledup (s : State) (f : Fin nfile) : Except Panic State :=
  let file := s.file f
  if file.ref < 1 then .error .filedup else .ok (s.setFile f { file with ref := file.ref + 1 })

def runFileclose (s : State) (p : Fin nproc) (f : Fin nfile) (next : Next) : Except Panic State :=
  let ff := s.file f
  if ff.ref < 1 then .error .fileclose
  else if 1 < ff.ref then .ok (runNext (s.setFile f { ff with ref := ff.ref - 1 }) p next)
  else
    let s := s.setFile f { ff with ref := 0, type := .none }
    match ff.type with
    | .pipe => .ok (s.jump p (.pipeclose ff.pipe ff.writable next))
    -- `iput`
    | _ => .ok (runNext s p next)

def Pipe.close (pipe : Pipe) (writable : Bool) : Pipe :=
  if writable then { pipe with writeopen := false } else { pipe with readopen := false }

def runPipeclose (s : State) (p : Fin nproc) (pi : Nat) (writable : Bool) (next : Next) :
    Except Panic State :=
  match s.page pi with
  | none => .error .pipe
  | some pipe =>
    let pipe := pipe.close writable
    let s := s.setPage pi (some pipe)
    if pipe.readopen = false ∧ pipe.writeopen = false then .ok (s.jump p (.kfree pi next))
    else .ok (runNext s p next)

def runKfree (s : State) (p : Fin nproc) (pi : Nat) (next : Next) : Except Panic State :=
  match s.page pi with
  | none => .error .pipe
  | some _ => .ok (runNext (s.setPage pi none) p next)

/-- The end of `sys_open`. -/
def runOpenFd (s : State) (p : Fin nproc) (f : Fin nfile) (ip : Opened) : State :=
  match fdalloc (s.proc p).ofile with
  | none => s.jump p (.fileclose f (.close []))
  | some fd =>
    (s.setFile f { s.file f with
      type := if ip.device then .device else .inode
      readable := ip.readable
      writable := ip.writable }).jumpSlot p fd (some f) .user

/-- The end of `pipealloc`. -/
def runPipePage (s : State) (p : Fin nproc) (f0 f1 : Fin nfile) (valid : Bool) :
    Option Nat → State
  | none => s.jump p (.fileclose f0 (.close [f1]))
  | some pi =>
    (((s.setPage pi (some { readopen := true, writeopen := true })).setFile f0
      { s.file f0 with type := .pipe, readable := true, writable := false, pipe := pi }).setFile f1
        { s.file f1 with type := .pipe, readable := false, writable := true, pipe := pi }).jump p
          (.pipeFds f0 f1 valid)

/-- The descriptors of `sys_pipe`. -/
def runPipeFds (s : State) (p : Fin nproc) (f0 f1 : Fin nfile) (valid : Bool) : State :=
  let ofile := (s.proc p).ofile
  match fdalloc ofile with
  | none => s.jump p (.fileclose f0 (.close [f1]))
  | some fd0 =>
    match fdalloc (Function.update ofile fd0 (some f0)) with
    | none => s.jumpSlot p fd0 none (.fileclose f0 (.close [f1]))
    | some fd1 =>
      if valid then
        s.setProc p
          { pc := .user
            ofile := Function.update (Function.update ofile fd0 (some f0)) fd1 (some f1) }
      else
        s.setProc p
          { pc := .fileclose f0 (.close [f1])
            ofile := Function.update (Function.update ofile fd0 none) fd1 none }

/-- One round of the loop of `fork`, or its end. -/
def runForkLoop (s : State) (p np : Fin nproc) (i : Nat) : Except Panic State :=
  if h : i < nofile then
    match (s.proc p).ofile ⟨i, h⟩ with
    | none => .ok (s.jump p (.forkLoop np (i + 1)))
    | some f => do
      let s ← runFiledup s f
      .ok ((s.jumpSlot np ⟨i, h⟩ (some f) (s.proc np).pc).jump p (.forkLoop np (i + 1)))
  else .ok ((s.jump np .user).jump p .user)

def runExitLoop (s : State) (p : Fin nproc) (i : Nat) : State :=
  if h : i < nofile then
    match (s.proc p).ofile ⟨i, h⟩ with
    | none => s.jump p (.exitLoop (i + 1))
    | some f => s.jump p (.fileclose f (.exit ⟨i, h⟩))
  else s.jump p .zombie

/-- The next step of a process inside a call; `page` is what `kalloc` gives. -/
def runPc (s : State) (p : Fin nproc) (page : Option Nat) : Pc → Except Panic State
  | .unused | .used _ | .zombie | .user => .ok s
  | .openAlloc ip =>
    match filealloc s with
    | none => .ok (s.jump p .user)
    | some f => .ok ((s.setFile f (s.file f).alloc).jump p (.openFd f ip))
  | .openFd f ip => .ok (runOpenFd s p f ip)
  | .dup _ f => do
    let s ← runFiledup s f
    .ok (s.jump p .user)
  | .pipeFirst valid =>
    match filealloc s with
    | none => .ok (s.jump p .user)
    | some f0 => .ok ((s.setFile f0 (s.file f0).alloc).jump p (.pipeSecond f0 valid))
  | .pipeSecond f0 valid =>
    match filealloc s with
    | none => .ok (s.jump p (.fileclose f0 (.close [])))
    | some f1 => .ok ((s.setFile f1 (s.file f1).alloc).jump p (.pipePage f0 f1 valid))
  | .pipePage f0 f1 valid => .ok (runPipePage s p f0 f1 valid page)
  | .pipeFds f0 f1 valid => .ok (runPipeFds s p f0 f1 valid)
  | .fileclose f next => runFileclose s p f next
  | .pipeclose pi writable next => runPipeclose s p pi writable next
  | .kfree pi next => runKfree s p pi next
  | .forkLoop np i => runForkLoop s p np i
  | .exitLoop i => .ok (runExitLoop s p i)

/-! ## System calls -/

inductive Call
  -- with the inode that the path leads to, if any
  | open (found : Option Opened)
  | dup (fd : Int)
  | close (fd : Int)
  -- whether the two descriptors can be copied out
  | pipe (valid : Bool)
  -- with the slot of the new process, if there is one and its memory can be copied
  | fork (np : Option (Fin nproc))
  | exit

/-- What a call does before its first lock. -/
def enter (s : State) (p : Fin nproc) : Call → Option State
  | .open none => some s
  | .open (some ip) => some (s.jump p (.openAlloc ip))
  | .dup fd =>
    match argfd (s.proc p).ofile fd with
    | none => some s
    | some (_, f) =>
      match fdalloc (s.proc p).ofile with
      | none => some s
      | some fd => some (s.jumpSlot p fd (some f) (.dup fd f))
  | .close fd =>
    match argfd (s.proc p).ofile fd with
    | none => some s
    | some (fd, f) => some (s.jumpSlot p fd none (.fileclose f (.close [])))
  | .pipe valid => some (s.jump p (.pipeFirst valid))
  | .fork none => some s
  | .fork (some np) =>
    match (s.proc np).pc with
    | .unused => some ((s.jump np (.used p)).jump p (.forkLoop np 0))
    | _ => none
  | .exit => some (s.jump p (.exitLoop 0))

inductive Move
  | call (p : Fin nproc) (c : Call)
  -- the process goes on with its call; `kalloc` gives a page that is not in use
  | run (p : Fin nproc) (page : Option Nat)
  -- `wait` frees the slot
  | reap (p : Fin nproc)

def step (s : State) : Move → Option State
  | .call p c =>
    match s.panic, (s.proc p).pc with
    | none, .user => enter s p c
    | _, _ => none
  | .run p page =>
    if s.panic = none ∧ page.all (fun pi => (s.page pi).isNone) then
      match runPc s p page (s.proc p).pc with
      | .ok s => some s
      | .error panic => some { s with panic := some panic }
    else none
  | .reap p =>
    match s.panic, (s.proc p).pc with
    | none, .zombie => some (s.jump p .unused)
    | _, _ => none

inductive Event
  | kalloc (pi : Nat)
  | kfree (pi : Nat)
deriving DecidableEq

/-- The pages that a step takes and gives back. -/
def obs (s : State) : Move → Option Event
  | .run p page =>
    match (s.proc p).pc with
    | .pipePage _ _ _ => page.map .kalloc
    | .kfree pi _ => some (.kfree pi)
    | _ => none
  | _ => none

/-- No file is open, and the first process runs. -/
def booted : State where
  file _ := { type := .none, ref := 0, readable := false, writable := false, pipe := 0 }
  page _ := none
  proc p := { pc := if p.val = 0 then .user else .unused, ofile := fun _ => none }
  panic := none

end Sistemas.Xv6.FileTable
