import Sistemas.Posix.FdTable
import Sistemas.Mybash.Printing

/-! # Execution of a pipeline

`execute_scommand` and `execute_pipeline` of `execute.c`, with the internal commands of
`builtin.c`.  A function of the source is a `Run`: it changes the process it runs in, and it
goes on with a value or ends the process.  A process has its descriptor table and the calls it
has made; `fork` runs the code of the child on a copy and keeps what became of it.

Which system calls fail is up to the environment (`Os`).  Calls on descriptors that are not
open fail whatever the environment says.
-/

namespace Sistemas.Mybash.Execute

open Sistemas.Posix

/-! ## Processes -/

inductive OpenFlags where
  -- `O_RDONLY`
  | rdonly
  -- `O_WRONLY | O_CREAT | O_TRUNC`, with `S_IRUSR | S_IWUSR`
  | wronlyCreatTrunc
  deriving DecidableEq

inductive Source where
  -- what the shell has been started with
  | inherited (name : Nat)
  | opened (path : Text) (flags : OpenFlags)
  deriving DecidableEq

inductive Syscall where
  | pipe
  | fork
  | close
  | dup2
  | openFile
  | execvp
  | waitpid
  | chdir
  deriving DecidableEq

inductive Call where
  -- the two descriptors and the pipe they belong to
  | pipe (readFd writeFd : Int) (pipe : Nat)
  | fork (pid : Int)
  -- the descriptor and what it referred to
  | close (fd : Int) (file : OpenFile Source)
  | dup2 (old new : Int)
  | openFile (path : Text) (flags : OpenFlags)
  | execvp (file : Option Text) (argv : List (Option Text))
  | waitpid (pid : Int)
  -- `signal (SIGCHLD, SIG_IGN)`
  | ignoreSigchld
  | chdir (path : Text)
  | perror (text : String)
  | printf (text : Text)
  | failed (call : Syscall)
  deriving DecidableEq

inductive Ending where
  | execed
  | exited (status : Nat)
  -- a failed assertion
  | aborted
  deriving DecidableEq

structure Child where
  ending : Ending
  fds : FdTable Source
  calls : List Call

structure Process where
  fds : FdTable Source
  calls : List Call
  children : List Child

structure Os where
  -- whether the shell's call after so many calls fails
  shellFails : Nat → Bool
  -- the same for each child
  childFails : Nat → Nat → Bool
  -- the children's process ids, less one
  pid : Nat → Nat
  -- `getenv ("HOME")`
  home : Option Text

/-! ## The monad -/

def Run (α : Type) := Process → Except Ending α × Process

instance : Monad Run where
  pure a := fun p => (.ok a, p)
  bind x f := fun p =>
    match x p with
    | (.ok a, p') => f a p'
    | (.error e, p') => (.error e, p')

variable {α β : Type}

def exit (status : Nat) : Run α := fun p => (.error (.exited status), p)

def assert (condition : Bool) : Run Unit := fun p =>
  if condition then (.ok (), p) else (.error .aborted, p)

def emit (call : Call) : Run Unit := fun p => (.ok (), { p with calls := p.calls ++ [call] })

def perror (text : String) : Run Unit := emit (.perror text)

def Run.when (condition : Bool) (x : Run Unit) : Run Unit := if condition then x else pure ()

/-- A system call: what it returns, records and does to the table, if it does not fail. -/
def syscall (fails : Nat → Bool) (call : Syscall)
    (effect : FdTable Source → Option (α × Call × FdTable Source)) : Run (Option α) := fun p =>
  match if fails p.calls.length then none else effect p.fds with
  | some (a, event, fds) => (.ok (some a), { p with fds := fds, calls := p.calls ++ [event] })
  | none => (.ok none, { p with calls := p.calls ++ [.failed call] })

section Calls

variable (fails : Nat → Bool)

def close (fd : Int) : Run Unit := do
  let _ ← syscall fails .close fun t =>
    (t.get fd).map fun file => ((), .close fd file, t.close fd)
  pure ()

def dup2 (old : Int) (new : Nat) : Run (Option Unit) :=
  syscall fails .dup2 fun t => (t.get old).map fun _ => ((), .dup2 old new, t.dup2 old new)

def openFile (path : Text) (flags : OpenFlags) : Run (Option Int) :=
  syscall fails .openFile fun t =>
    let (fd, t') := t.openFile (.opened path flags)
    some (fd, .openFile path flags, t')

def pipe : Run (Option (Int × Int)) :=
  syscall fails .pipe fun t =>
    let (readFd, writeFd, t') := t.pipe
    some ((readFd, writeFd), .pipe readFd writeFd t.pipes, t')

def waitpid (pid : Int) : Run Unit := do
  let _ ← syscall fails .waitpid fun t => some ((), .waitpid pid, t)
  pure ()

/-- `chdir (NULL)` fails. -/
def chdir (path : Option Text) : Run (Option Unit) :=
  syscall fails .chdir fun t => path.map fun path => ((), .chdir path, t)

def execvp (file : Option Text) (argv : List (Option Text)) : Run Unit := fun p =>
  if fails p.calls.length then (.ok (), { p with calls := p.calls ++ [.failed .execvp] })
  else (.error .execed, { p with calls := p.calls ++ [.execvp file argv] })

end Calls

/-- A call whose failure ends the process. -/
def orFail (message : String) (call : Run (Option α)) : Run α := do
  match ← call with
  | none =>
    perror message
    exit 1
  | some a => pure a

/-- The end of a process that runs `code`, which does not return. -/
def spawn (code : Run Empty) (fds : FdTable Source) : Child :=
  match code { fds := fds, calls := [], children := [] } with
  | (.error ending, p) => { ending := ending, fds := p.fds, calls := p.calls }

/-- The child runs on a copy of the process. -/
def fork (os : Os) (child : (Nat → Bool) → Run Empty) : Run (Option Int) := fun p =>
  if os.shellFails p.calls.length then
    (.ok none, { p with calls := p.calls ++ [.failed .fork] })
  else
    let number := p.children.length
    let pid : Int := os.pid number + 1
    (.ok (some pid), { p with
      calls := p.calls ++ [.fork pid]
      children := p.children ++ [spawn (child (os.childFails number)) p.fds] })

/-! ## execute_scommand -/

/-- `for (unsigned int i = 0; i < length; i++)`, for the arguments that are left. -/
def copyArguments : Nat → Scommand → List Text × Scommand
  | 0, cmd => ([], cmd)
  | left + 1, cmd =>
    match cmd.cmd with
    | [] => copyArguments left cmd
    | front :: words =>
      let (arguments, cmd) := copyArguments left { cmd with cmd := words }
      (front :: arguments, cmd)

section Child

variable (fails : Nat → Bool)

/-- A descriptor takes the place of a standard one. -/
def dupStandard (fd : Int) (standard : Nat) (message : String) : Run Unit :=
  orFail message (dup2 fails fd standard)

def redirect (file : Option Text) (flags : OpenFlags) (standard : Nat)
    (openMessage dupMessage : String) : Run Unit := do
  match file with
  | none => pure ()
  | some path =>
    let fd ← orFail openMessage (openFile fails path flags)
    dupStandard fails fd standard dupMessage
    close fails fd

def executeScommand (cmd : Scommand) : Run Unit := do
  assert (!cmd.isEmpty)
  let (arguments, cmd) := copyArguments cmd.cmd.length cmd
  redirect fails cmd.redirIn .rdonly 0 "open redir_in" "dup2 redir_in"
  redirect fails cmd.redirOut .wronlyCreatTrunc 1 "open redir_out" "dup2 redir_out"
  let arg := arguments.map some ++ [none]
  execvp fails arg.head?.join arg
  perror "execvp"

/-! ## The child's part of execute_pipeline -/

/-- One end of a pipe is closed and the other takes the place of a standard descriptor. -/
def attach (unused used : Int) (standard : Nat) (message : String) : Run Unit := do
  close fails unused
  dupStandard fails used standard message
  close fails used

/-- `else if (pid1 == 0)` -/
def runChild (i length : Nat) (pipefdTmp pipefd : Int × Int) (apipe : Pipeline Scommand) :
    Run Empty := do
  Run.when (i != 0) (attach fails pipefdTmp.2 pipefdTmp.1 0 "dup2 pipefd_tmp[0]")
  Run.when (i != length - 1) (attach fails pipefd.1 pipefd.2 1 "dup2 pipefd[1]")
  match apipe.pipe with
  | [] => fun p => (.error .aborted, p)
  | front :: _ =>
    match front.toString with
    | none => fun p => (.error .aborted, p)
    | some commandStr =>
      executeScommand fails front
      emit (.printf ("Error executing: ".toList ++ commandStr ++ ['\n']))
      exit 1

end Child

/-! ## builtin.c -/

def internalCmd : List Text := ["cd".toList, "help".toList, "exit".toList]

def builtinIsInternal (cmd : Scommand) : Run Bool := do
  assert (!cmd.isEmpty)
  pure (cmd.cmd.head?.any (· ∈ internalCmd))

def builtinAlone (p : Pipeline Scommand) : Run Bool := do
  match p.pipe with
  | [front] => builtinIsInternal front
  | _ => pure false

/-- The directory to go to, `NULL` if there is none. -/
def cdPath (os : Os) (cmd : Scommand) : Run (Option Text) :=
  match cmd.cmd with
  | [] => do
    Run.when os.home.isNone (perror "cd")
    pure os.home
  | front :: _ => pure (some front)

def builtinCd (os : Os) (cmd : Scommand) : Run Scommand := do
  assert (!cmd.isEmpty)
  let cmd := { cmd with cmd := cmd.cmd.tail }
  let path ← cdPath os cmd
  let result ← chdir os.shellFails path
  Run.when result.isNone (perror "cd")
  pure cmd

def help : Text :=
  ("Mybash by 'ADB'\n" ++
   "Authors: Salman Mauro, Sosa Kiara, Flores Lionel\n" ++
   "Internal commands:\n" ++
   "- cd: chdir() Changes the current directory\n" ++
   "- help: Shows this help message (Mybash information)\n" ++
   "- exit: exit() Exits the shell\n" ++
   "\n").toList

def builtinRun (os : Os) (cmd : Scommand) : Run Scommand := do
  assert (← builtinIsInternal cmd)
  if cmd.cmd.head? = some "cd".toList then builtinCd os cmd
  else if cmd.cmd.head? = some "help".toList then
    emit (.printf help)
    pure cmd
  else if cmd.cmd.head? = some "exit".toList then exit 0
  else pure cmd

/-! ## execute_pipeline -/

/-- The variables of the loop. -/
structure Forking where
  i : Nat
  apipe : Pipeline Scommand
  pipefd : Int × Int
  -- not read before it is set
  pipefdTmp : Int × Int
  childrenPids : List Int

def Forking.start (apipe : Pipeline Scommand) : Forking :=
  { i := 0, apipe := apipe, pipefd := (-1, -1), pipefdTmp := (-1, -1), childrenPids := [] }

section Shell

variable (os : Os)

/-- `if (i != length - 1)` -/
def createPipe (more : Bool) (pipefd : Int × Int) : Run (Int × Int) :=
  if more then orFail "ERROR OPENING THE PIPE" (pipe os.shellFails) else pure pipefd

def closePipe (pipefdTmp : Int × Int) : Run Unit := do
  close os.shellFails pipefdTmp.1
  close os.shellFails pipefdTmp.2

/-- One round of the loop that forks. -/
def forkBody (length : Nat) (st : Forking) : Run Forking := do
  let pipefdTmp := if st.i != 0 then st.pipefd else st.pipefdTmp
  let pipefd ← createPipe os (st.i != length - 1) st.pipefd
  let pid1 ← orFail "ERROR EXECUTING FORK"
    (fork os fun fails => runChild fails st.i length pipefdTmp pipefd st.apipe)
  Run.when (st.i != 0) (closePipe os pipefdTmp)
  assert (!st.apipe.pipe.isEmpty)
  pure { i := st.i + 1
         apipe := { st.apipe with pipe := st.apipe.pipe.tail }
         pipefd := pipefd
         pipefdTmp := pipefdTmp
         childrenPids := st.childrenPids ++ [pid1] }

/-- `for (unsigned int i = 0; i < length; i++)`, for the rounds that are left. -/
def forkLoop (length : Nat) : Nat → Forking → Run Forking
  | 0, st => pure st
  | left + 1, st => do
    let st ← forkBody os length st
    forkLoop length left st

def waitLoop : List Int → Run Unit
  | [] => pure ()
  | pid :: pids => do
    waitpid os.shellFails pid
    waitLoop pids

/-- The part after the internal commands. -/
def forkPipeline (apipe : Pipeline Scommand) : Run (Pipeline Scommand) := do
  Run.when (!apipe.wait) (emit .ignoreSigchld)
  let st ← forkLoop os apipe.length apipe.length (Forking.start apipe)
  Run.when st.apipe.wait (waitLoop os st.childrenPids)
  pure st.apipe

/-- From the second test of `pipeline_is_empty` on. -/
def runPipeline (apipe : Pipeline Scommand) : Run (Pipeline Scommand) :=
  match apipe.pipe with
  | [] => pure apipe
  | front :: rest => do
    if ← builtinAlone apipe then
      let front ← builtinRun os front
      pure { apipe with pipe := front :: rest }
    else forkPipeline os apipe

/-- What is left of the pipeline. -/
def executePipeline (apipe : Pipeline Scommand) : Run (Pipeline Scommand) :=
  match apipe.pipe with
  | [] => pure apipe
  | first :: rest =>
    runPipeline os (if first.isEmpty then { apipe with pipe := rest } else apipe)

/-- A round of `main` with a pipeline to execute: the process at the next prompt, if there is
    one. -/
def promptStep (p : Process) (apipe : Pipeline Scommand) : Option Process :=
  match executePipeline os apipe p with
  | (.ok _, p') => some p'
  | (.error _, _) => none

end Shell

end Sistemas.Mybash.Execute
