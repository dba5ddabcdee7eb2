import Mathlib.Data.List.Nodup
import Sistemas.Mybash.ExecuteChild
import Sistemas.Transition.Run

/-! # The descriptors of the shell

What the loop of `execute_pipeline` does when no system call fails.  At the head of each round
the shell has, beyond what it had before the pipeline, the two ends of the pipe between the
previous command and the next one (`held`).  The round adds the pipe to the command after it,
forks, and closes the old pipe.
-/

namespace Sistemas.Mybash.Execute

open Sistemas.Posix Sistemas.Posix.FdTable Sistemas.Transition

variable {p p' : Process}

/-! ## The calls of the shell -/

def forks (calls : List Call) : List Int :=
  calls.filterMap fun
    | .fork pid => some pid
    | _ => none

def piped (calls : List Call) : List ((Int × Int) × Nat) :=
  calls.filterMap fun
    | .pipe readFd writeFd pipe => some ((readFd, writeFd), pipe)
    | _ => none

def closed (calls : List Call) : List (Int × OpenFile Source) :=
  calls.filterMap fun
    | .close fd file => some (fd, file)
    | _ => none

def waited (calls : List Call) : List Int :=
  calls.filterMap fun
    | .waitpid pid => some pid
    | _ => none

section Append

variable (calls calls' : List Call)

theorem forks_append : forks (calls ++ calls') = forks calls ++ forks calls' :=
  List.filterMap_append

theorem piped_append : piped (calls ++ calls') = piped calls ++ piped calls' :=
  List.filterMap_append

theorem closed_append : closed (calls ++ calls') = closed calls ++ closed calls' :=
  List.filterMap_append

theorem waited_append : waited (calls ++ calls') = waited calls ++ waited calls' :=
  List.filterMap_append

end Append

/-- A call that the shell makes for a pipeline. -/
def Call.OfShell : Call → Prop
  | .pipe _ _ _ | .fork _ | .close _ _ | .waitpid _ | .ignoreSigchld => True
  | _ => False

/-- The descriptors that the calls of `pipe` have given. -/
def created (calls : List Call) : List (Int × OpenFile Source) :=
  (piped calls).flatMap fun (pipefd, pipe) => ends pipefd pipe

/-! ## A round -/

/-- The pipe that is open at the head of round `i`. -/
def held (i pipes : Nat) (pipefd : Int × Int) : List (Int × OpenFile Source) :=
  if i != 0 then ends pipefd (pipes + i - 1) else []

/-- The child of round `i` of `length`. -/
def Spawned (os : Os) (base : Int → Option (OpenFile Source)) (pipes number i length : Nat)
    (apipe : Pipeline Scommand) (child : Child) : Prop :=
  ∃ pipefdTmp pipefd fds,
    child = spawn (runChild (os.childFails number) i length pipefdTmp pipefd apipe) fds ∧
    Extends base fds (held i pipes pipefdTmp ++
      if i != length - 1 then ends pipefd (pipes + i) else [])

structure Head (base : Int → Option (OpenFile Source)) (pipes length : Nat) (st : Forking)
    (p : Process) : Prop where
  length_eq : length = st.i + st.apipe.pipe.length
  pipes_eq : p.fds.pipes = pipes + st.i
  extends_held : Extends base p.fds (held st.i pipes st.pipefd)

section Shell

variable {os : Os} (ok : os.Succeeds) {base : Int → Option (OpenFile Source)} {pipes length : Nat}
  {extra : List (Int × OpenFile Source)}

include ok

/-- The process id of a child. -/
def Os.pidOf (os : Os) (number : Nat) : Int := os.pid number + 1

theorem createPipe_ok (more : Bool) (pipefd : Int × Int) (h : Extends base p.fds extra) :
    ∃ pipefd' p', createPipe os more pipefd p = (.ok pipefd', p') ∧
      p'.children = p.children ∧
      Extends base p'.fds (extra ++ if more then ends pipefd' p.fds.pipes else []) ∧
      p'.fds.pipes = p.fds.pipes + (if more then 1 else 0) ∧
      p'.calls = p.calls ++
        (if more then [.pipe pipefd'.1 pipefd'.2 p.fds.pipes] else []) := by
  cases more with
  | false => exact ⟨pipefd, p, rfl, rfl, by simpa using h, rfl, by simp⟩
  | true =>
    let pipefd' := (p.fds.pipe.1, p.fds.pipe.2.1)
    refine ⟨pipefd', _, orFail_ok (syscall_ok ok.shell rfl), rfl, ?_, rfl, rfl⟩
    have swapped := h.pipe.perm (List.Perm.swap _ _ _)
    have last : (ends pipefd' p.fds.pipes ++ extra).Perm (extra ++ ends pipefd' p.fds.pipes) :=
      List.perm_append_comm
    exact swapped.perm last

theorem closePipe_ok {pipefd : Int × Int} {pipe : Nat}
    (h : Extends base p.fds (ends pipefd pipe ++ extra)) :
    ∃ p', closePipe os pipefd p = (.ok (), p') ∧ p'.children = p.children ∧
      Extends base p'.fds extra ∧ p'.fds.pipes = p.fds.pipes ∧
      p'.calls = p.calls ++ (ends pipefd pipe).map fun e => .close e.1 e.2 := by
  have first := close_ok ok.shell (h.held _ List.mem_cons_self).1
  have second := close_ok ok.shell
    (p := { p with
      fds := p.fds.close pipefd.1
      calls := p.calls ++ [.close pipefd.1 (.readEnd pipe)] })
    (h.close.held _ List.mem_cons_self).1
  refine ⟨_, (Run.bind_ok first).trans second, rfl, h.close.close, ?_, ?_⟩
  · simp
  · simp [ends]

theorem whenClose_ok (condition : Bool) {pipefd : Int × Int} {pipe : Nat}
    (h : Extends base p.fds ((if condition then ends pipefd pipe else []) ++ extra)) :
    ∃ p', Run.when condition (closePipe os pipefd) p = (.ok (), p') ∧ p'.children = p.children ∧
      Extends base p'.fds extra ∧ p'.fds.pipes = p.fds.pipes ∧
      p'.calls = p.calls ++
        (if condition then ends pipefd pipe else []).map fun e => .close e.1 e.2 := by
  cases condition with
  | false => exact ⟨p, rfl, rfl, h, rfl, by simp⟩
  | true => exact closePipe_ok ok h

theorem fork_ok (child : (Nat → Bool) → Run Empty) :
    fork os child p = (.ok (some (os.pidOf p.children.length)), { p with
      calls := p.calls ++ [.fork (os.pidOf p.children.length)]
      children := p.children ++ [spawn (child (os.childFails p.children.length)) p.fds] }) := by
  simp only [fork, ok.shell _, Bool.false_eq_true, if_false, Os.pidOf]

/-- The calls of a round, with the pipe it adds and the one it closes. -/
def roundCalls (new : List ((Int × Int) × Nat)) (pid : Int) (old : List (Int × OpenFile Source)) :
    List Call :=
  new.map (fun (pipefd, pipe) => .pipe pipefd.1 pipefd.2 pipe) ++
    .fork pid :: old.map fun e => .close e.1 e.2

theorem forkBody_ok {st : Forking} {sc : Scommand} {rest : List Scommand}
    (head : Head base pipes length st p) (pipeEq : st.apipe.pipe = sc :: rest) :
    ∃ st' p' child, forkBody os length st p = (.ok st', p') ∧
      st'.apipe = { st.apipe with pipe := rest } ∧
      st'.childrenPids = st.childrenPids ++ [os.pidOf p.children.length] ∧
      p'.children = p.children ++ [child] ∧
      Spawned os base pipes p.children.length st.i length st.apipe child ∧
      Extends base p'.fds (if st.i != length - 1 then ends st'.pipefd (pipes + st.i) else []) ∧
      (rest ≠ [] → Head base pipes length st' p') ∧
      p'.calls = p.calls ++ roundCalls
        (if st.i != length - 1 then [(st'.pipefd, pipes + st.i)] else [])
        (os.pidOf p.children.length) (held st.i pipes st.pipefd) := by
  let pipefdTmp := if st.i != 0 then st.pipefd else st.pipefdTmp
  have sameHeld : held st.i pipes st.pipefd = held st.i pipes pipefdTmp := by
    simp only [held, pipefdTmp]
    split <;> rfl
  have before := head.extends_held
  rw [sameHeld] at before
  obtain ⟨pipefd, p₁, create, children₁, extends₁, pipes₁, calls₁⟩ :=
    createPipe_ok ok (st.i != length - 1) st.pipefd before
  rw [head.pipes_eq] at extends₁ pipes₁ calls₁
  have forked := fork_ok ok (p := p₁) fun fails =>
    runChild fails st.i length pipefdTmp pipefd st.apipe
  rw [children₁] at forked
  obtain ⟨p₃, closing, children₃, extends₃, pipes₃, calls₃⟩ := whenClose_ok ok (st.i != 0)
    (p := { p₁ with
      calls := p₁.calls ++ [.fork (os.pidOf p.children.length)]
      children := p.children ++ [spawn (runChild (os.childFails p.children.length) st.i length
        pipefdTmp pipefd st.apipe) p₁.fds] }) extends₁
  have holds : assert (!st.apipe.pipe.isEmpty) p₃ = (.ok (), p₃) := assert_ok (by simp [pipeEq])
  refine ⟨{ i := st.i + 1, apipe := { st.apipe with pipe := rest }, pipefd := pipefd,
            pipefdTmp := pipefdTmp,
            childrenPids := st.childrenPids ++ [os.pidOf p.children.length] }, p₃, _, ?_, rfl, rfl,
    children₃, ⟨_, _, _, rfl, extends₁⟩, extends₃, ?_, ?_⟩
  · rw [forkBody]
    simp only
    rw [Run.bind_ok create, Run.bind_ok (orFail_ok forked), Run.bind_ok closing,
      Run.bind_ok holds, pipeEq]
    rfl
  · intro more
    have lengthEq := head.length_eq
    have positive := List.length_pos_iff.mpr more
    rw [pipeEq, List.length_cons] at lengthEq
    have notLast : (st.i != length - 1) = true := by
      simp only [bne_iff_ne]
      omega
    rw [notLast] at extends₃ pipes₁
    refine ⟨?_, ?_, ?_⟩
    · simp only
      omega
    · rw [pipes₃, pipes₁]
      rfl
    · simpa [held] using extends₃
  · rw [calls₃, sameHeld]
    simp only [calls₁, roundCalls, held, List.append_assoc, List.cons_append, List.nil_append]
    cases st.i != length - 1 <;> simp

omit ok

theorem forks_roundCalls (new : List ((Int × Int) × Nat)) (pid : Int)
    (old : List (Int × OpenFile Source)) : forks (roundCalls new pid old) = [pid] := by
  simp [forks, roundCalls, List.filterMap_append, List.filterMap_map]

theorem piped_roundCalls (new : List ((Int × Int) × Nat)) (pid : Int)
    (old : List (Int × OpenFile Source)) : piped (roundCalls new pid old) = new := by
  simp [piped, roundCalls, List.filterMap_append, List.filterMap_map]

theorem closed_roundCalls (new : List ((Int × Int) × Nat)) (pid : Int)
    (old : List (Int × OpenFile Source)) : closed (roundCalls new pid old) = old := by
  simp [closed, roundCalls, List.filterMap_append, List.filterMap_map]

theorem waited_roundCalls (new : List ((Int × Int) × Nat)) (pid : Int)
    (old : List (Int × OpenFile Source)) : waited (roundCalls new pid old) = [] := by
  simp [waited, roundCalls, List.filterMap_append, List.filterMap_map]

theorem ofShell_roundCalls {new : List ((Int × Int) × Nat)} {pid : Int}
    {old : List (Int × OpenFile Source)} : ∀ c ∈ roundCalls new pid old, c.OfShell := by
  intro c mem
  simp only [roundCalls, List.mem_append, List.mem_map, List.mem_cons] at mem
  obtain ⟨_, _, rfl⟩ | rfl | ⟨_, _, rfl⟩ := mem <;> trivial

/-- The calls of the shell for `n` commands, the first of which is its child `number`. -/
structure LoopCalls (os : Os) (number pipe n : Nat) (old : List (Int × OpenFile Source))
    (calls : List Call) : Prop where
  forks_eq : forks calls = (List.range' number n).map os.pidOf
  piped_eq : (piped calls).map (·.2) = List.range' pipe (n - 1)
  closed_eq : closed calls = old ++ created calls
  waited_eq : waited calls = []
  ofShell : ∀ c ∈ calls, c.OfShell

theorem LoopCalls.last (number pipe : Nat) (old : List (Int × OpenFile Source)) :
    LoopCalls os number pipe 1 old (roundCalls [] (os.pidOf number) old) where
  forks_eq := by simp [forks_roundCalls]
  piped_eq := by simp [piped_roundCalls]
  closed_eq := by simp [closed_roundCalls, created, piped_roundCalls]
  waited_eq := waited_roundCalls _ _ _
  ofShell := ofShell_roundCalls

theorem LoopCalls.round {number pipe n : Nat} {old : List (Int × OpenFile Source)}
    {pipefd : Int × Int} {calls : List Call}
    (later : LoopCalls os (number + 1) (pipe + 1) (n + 1) (ends pipefd pipe) calls) :
    LoopCalls os number pipe (n + 2) old
      (roundCalls [(pipefd, pipe)] (os.pidOf number) old ++ calls) where
  forks_eq := by
    rw [forks_append, forks_roundCalls, later.forks_eq]
    rfl
  piped_eq := by
    rw [piped_append, piped_roundCalls, List.map_append,
      later.piped_eq]
    rfl
  closed_eq := by
    rw [closed_append, closed_roundCalls, later.closed_eq, created, created,
      piped_append, piped_roundCalls]
    simp
  waited_eq := by
    rw [waited_append, waited_roundCalls, later.waited_eq]
    rfl
  ofShell c mem := (List.mem_append.mp mem).elim (ofShell_roundCalls c) (later.ofShell c)

include ok

theorem forkLoop_ok {st : Forking} (head : Head base pipes length st p)
    (nonempty : st.apipe.pipe ≠ []) :
    ∃ st' p' kids calls, forkLoop os length st.apipe.pipe.length st p = (.ok st', p') ∧
      st'.apipe = { st.apipe with pipe := [] } ∧
      st'.childrenPids = st.childrenPids ++ forks calls ∧
      p'.children = p.children ++ kids ∧ kids.length = st.apipe.pipe.length ∧
      (∀ j child, kids[j]? = some child →
        Spawned os base pipes (p.children.length + j) (st.i + j) length
          { st.apipe with pipe := st.apipe.pipe.drop j } child) ∧
      Extends base p'.fds [] ∧
      p'.calls = p.calls ++ calls ∧
      LoopCalls os p.children.length (pipes + st.i) st.apipe.pipe.length
        (held st.i pipes st.pipefd) calls := by
  generalize pipeEq : st.apipe.pipe = commands at nonempty
  -- one round, then the rounds that are left
  induction commands generalizing st p with
  | nil => exact absurd rfl nonempty
  | cons sc rest ih =>
    obtain ⟨st₁, p₁, child, body, apipe₁, pids₁, children₁, spawned, extends₁, head₁, calls₁⟩ :=
      forkBody_ok ok head pipeEq
    have lengthEq := head.length_eq
    rw [pipeEq, List.length_cons] at lengthEq
    cases rest with
    | nil =>
      have isLast : (st.i != length - 1) = false := by simp at lengthEq ⊢; omega
      rw [isLast] at calls₁ extends₁
      refine ⟨st₁, p₁, [child], _, ?_, apipe₁, ?_, children₁, rfl, ?_, extends₁, calls₁,
        .last _ _ _⟩
      · simp only [List.length_cons, List.length_nil, forkLoop]
        rw [Run.bind_ok body]
        rfl
      · rw [pids₁, forks_roundCalls]
      · intro j child' found
        cases j with
        | zero =>
          cases found
          simpa [← pipeEq] using spawned
        | succ j => simp at found
    | cons next rest =>
      have notLast : (st.i != length - 1) = true := by simp at lengthEq ⊢; omega
      rw [notLast] at calls₁
      have here : st₁.apipe.pipe = next :: rest := by rw [apipe₁]
      have later := head₁ (List.cons_ne_nil _ _)
      obtain ⟨st', p', kids, calls, loop, apipe', pids', children', kidsLength, spawned', extends',
        calls', loopCalls⟩ := ih later here (List.cons_ne_nil _ _)
      have iEq : st₁.i = st.i + 1 := by
        have := later.length_eq
        simp [here] at this lengthEq
        omega
      have held₁ : held st₁.i pipes st₁.pipefd = ends st₁.pipefd (pipes + st.i) := by
        simp [held, iEq]
      rw [held₁, iEq, children₁, List.length_append] at loopCalls
      refine ⟨st', p', child :: kids, _, ?_, ?_, ?_, ?_, ?_, ?_, extends', ?_, loopCalls.round⟩
      · simp only [List.length_cons, forkLoop] at loop ⊢
        rw [Run.bind_ok body]
        exact loop
      · rw [apipe', apipe₁]
      · rw [pids', pids₁, forks_append, forks_roundCalls, List.append_assoc]
      · rw [children', children₁, List.append_assoc]
        rfl
      · simp [kidsLength]
      · intro j child' found
        cases j with
        | zero =>
          cases found
          simpa [← pipeEq] using spawned
        | succ j =>
          have := spawned' j child' found
          rw [children₁, List.length_append, iEq, apipe₁] at this
          simpa [Nat.add_assoc, Nat.add_comm 1] using this
      · rw [calls', calls₁, List.append_assoc]
        rfl

theorem waitLoop_ok (pids : List Int) :
    waitLoop os pids p = (.ok (), { p with calls := p.calls ++ pids.map .waitpid }) := by
  induction pids generalizing p with
  | nil => simp [waitLoop, pure]
  | cons pid pids ih =>
    rw [waitLoop, Run.bind_ok (waitpid_ok ok.shell pid), ih]
    simp

omit ok in
theorem waited_map (pids : List Int) :
    forks (pids.map .waitpid) = [] ∧ piped (pids.map .waitpid) = [] ∧
      closed (pids.map .waitpid) = [] ∧ waited (pids.map .waitpid) = pids := by
  simp [forks, piped, closed, waited, List.filterMap_map]

/-- The calls of the shell for a pipeline of `n` commands. -/
structure PipelineCalls (os : Os) (number pipe n : Nat) (wait : Bool) (calls : List Call) :
    Prop where
  forks_eq : forks calls = (List.range' number n).map os.pidOf
  piped_eq : (piped calls).map (·.2) = List.range' pipe (n - 1)
  closed_eq : closed calls = created calls
  waited_eq : waited calls = if wait then forks calls else []
  ofShell : ∀ c ∈ calls, c.OfShell

omit ok in
theorem LoopCalls.pipeline {number pipe n : Nat} {calls : List Call}
    (loop : LoopCalls os number pipe n [] calls) (wait : Bool) :
    PipelineCalls os number pipe n wait ((if wait then [] else [.ignoreSigchld]) ++ (calls ++
      if wait then (forks calls).map .waitpid else [])) := by
  obtain ⟨noForks, noPipes, noCloses, waits⟩ := waited_map (forks calls)
  cases wait with
  | false =>
    have shell : ∀ c ∈ Call.ignoreSigchld :: calls, c.OfShell := by
      intro c mem
      obtain rfl | mem := List.mem_cons.mp mem
      · trivial
      · exact loop.ofShell c mem
    simpa using
      (⟨loop.forks_eq, loop.piped_eq, loop.closed_eq, loop.waited_eq, shell⟩ :
        PipelineCalls os number pipe n false (.ignoreSigchld :: calls))
  | true =>
    refine ⟨?_, ?_, ?_, ?_, ?_⟩
    · simp only [if_true, List.nil_append]
      rw [forks_append, noForks, List.append_nil, loop.forks_eq]
    · simp [piped_append, noPipes, loop.piped_eq]
    · simp [closed_append, noCloses, loop.closed_eq, created, piped_append, noPipes]
    · simp [waited_append, loop.waited_eq, waits, forks_append, noForks]
    · intro c mem
      simp only [if_true, List.nil_append, List.mem_append, List.mem_map] at mem
      obtain mem | ⟨_, _, rfl⟩ := mem
      · exact loop.ofShell c mem
      · trivial

theorem forkPipeline_ok {apipe : Pipeline Scommand} (nonempty : apipe.pipe ≠ []) :
    ∃ p' kids calls, forkPipeline os apipe p = (.ok { apipe with pipe := [] }, p') ∧
      p'.children = p.children ++ kids ∧ kids.length = apipe.length ∧
      (∀ j child, kids[j]? = some child →
        Spawned os p.fds.get p.fds.pipes (p.children.length + j) j apipe.length
          { apipe with pipe := apipe.pipe.drop j } child) ∧
      p'.fds.Same p.fds ∧ p'.calls = p.calls ++ calls ∧
      PipelineCalls os p.children.length p.fds.pipes apipe.length apipe.wait calls := by
  let before : List Call := if apipe.wait then [] else [.ignoreSigchld]
  have signalled : Run.when (!apipe.wait) (emit .ignoreSigchld) p =
      (.ok (), { p with calls := p.calls ++ before }) := by
    cases wait : apipe.wait <;> simp [Run.when, emit, before, wait, pure]
  have head : Head p.fds.get p.fds.pipes apipe.length (Forking.start apipe)
      { p with calls := p.calls ++ before } := ⟨(Nat.zero_add _).symm, rfl, .refl p.fds⟩
  obtain ⟨st, p₁, kids, calls, loop, apipe₁, pids, children, kidsLength, spawned, extends₁, calls₁,
      loopCalls⟩ := forkLoop_ok ok head nonempty
  let after : List Call := if apipe.wait then (forks calls).map .waitpid else []
  have waiting : Run.when st.apipe.wait (waitLoop os st.childrenPids) p₁ =
      (.ok (), { p₁ with calls := p₁.calls ++ after }) := by
    rw [apipe₁, pids]
    cases wait : apipe.wait with
    | false => simp [Run.when, Forking.start, wait, after, pure]
    | true => simp [Run.when, Forking.start, wait, after, waitLoop_ok ok]
  refine ⟨{ p₁ with calls := p₁.calls ++ after }, kids, before ++ (calls ++ after), ?_, children,
    kidsLength, ?_, extends₁.get_eq, ?_, loopCalls.pipeline apipe.wait⟩
  · rw [forkPipeline, Run.bind_ok signalled]
    refine (Run.bind_ok loop).trans ((Run.bind_ok waiting).trans ?_)
    rw [apipe₁]
    rfl
  · intro j child found
    simpa [Forking.start, Pipeline.length] using spawned j child found
  · simp [calls₁]

omit ok in
/-- The pipeline is one internal command. -/
def LoneBuiltin (apipe : Pipeline Scommand) : Prop :=
  ∃ sc word, apipe.pipe = [sc] ∧ sc.cmd.head? = some word ∧ word ∈ internalCmd

omit ok in
theorem executePipeline_eq {apipe : Pipeline Scommand} (nonempty : apipe.pipe ≠ [])
    (words : ∀ sc ∈ apipe.pipe, sc.cmd ≠ []) (notLone : ¬ LoneBuiltin apipe) :
    executePipeline os apipe p = forkPipeline os apipe p := by
  obtain ⟨pipe, wait⟩ := apipe
  obtain ⟨first, rest, rfl⟩ := List.exists_cons_of_ne_nil nonempty
  obtain ⟨word, args, cmdEq⟩ := List.exists_cons_of_ne_nil (words first List.mem_cons_self)
  have notEmpty : first.isEmpty = false := by simp [Scommand.isEmpty, cmdEq]
  have alone : builtinAlone { pipe := first :: rest, wait := wait } p = (.ok false, p) := by
    cases rest with
    | cons second rest => rfl
    | nil =>
      have external : word ∉ internalCmd := fun mem =>
        notLone ⟨first, word, rfl, by simp [cmdEq], mem⟩
      have holds : assert (!first.isEmpty) p = (.ok (), p) := assert_ok (by simp [notEmpty])
      simp only [builtinAlone, builtinIsInternal]
      rw [Run.bind_ok holds]
      simp [pure, cmdEq, external]
  simp only [executePipeline, runPipeline, notEmpty, Bool.false_eq_true, if_false]
  rw [Run.bind_ok alone]
  rfl

/-! ## What each child gets -/

/-- A child as the pipeline wires it: command `i` of `n`, in a shell that had the table `fds`. -/
structure Wired (fds : FdTable Source) (n i : Nat) (sc : Scommand) (child : Child) : Prop where
  ending : child.ending = .execed
  execs_eq : execs child.calls = [(sc.cmd.head?, sc.cmd.map some ++ [none])]
  stdin : child.fds.get 0 =
    match sc.redirIn with
    | some path => some (.file (.opened path .rdonly))
    | none => if i = 0 then fds.get 0 else some (.readEnd (fds.pipes + i - 1))
  stdout : child.fds.get 1 =
    match sc.redirOut with
    | some path => some (.file (.opened path .wronlyCreatTrunc))
    | none => if i = n - 1 then fds.get 1 else some (.writeEnd (fds.pipes + i))
  others : ∀ fd, fd ≠ 0 → fd ≠ 1 → child.fds.get fd = fds.get fd

theorem Spawned.wired {fds : FdTable Source} {number i n : Nat} {apipe : Pipeline Scommand}
    {sc : Scommand} {child : Child}
    (spawned : Spawned os fds.get fds.pipes number i n apipe child) (std : fds.Standard)
    (front : apipe.pipe.head? = some sc) (nonempty : sc.cmd ≠ []) : Wired fds n i sc child := by
  obtain ⟨pipefdTmp, pipefd, t, childEq, extended⟩ := spawned
  obtain ⟨p', run, final, execsEq⟩ := runChild_ok (ok.child number)
    (p := { fds := t, calls := [], children := [] }) front nonempty extended std.stdin std.stdout
  have outcome : child = { ending := .execed, fds := p'.fds, calls := p'.calls } := by
    rw [childEq, spawn, run]
  subst outcome
  refine ⟨rfl, execsEq, ?_, ?_, ?_⟩
  · rw [final.get_eq]
    simp only [redirected_apply, attached_apply]
    cases sc.redirIn <;> simp
  · rw [final.get_eq]
    simp only [redirected_apply, attached_apply]
    cases sc.redirOut <;> simp
  · intro fd notIn notOut
    rw [final.get_eq]
    simp [redirected_apply, attached_apply, notIn, notOut]

omit ok in
/-- A descriptor of the shell is no end of a pipe that is created later. -/
theorem not_end {fds : FdTable Source} {fd : Int} {pipe : Nat} (later : fds.pipes ≤ pipe) :
    fds.get fd ≠ some (.readEnd pipe) ∧ fds.get fd ≠ some (.writeEnd pipe) := by
  constructor
  · intro h
    have known : pipe < fds.pipes := known_get h
    omega
  · intro h
    have known : pipe < fds.pipes := known_get h
    omega

end Shell

/-- The pipeline is wired as it is written: command `i` becomes its program with its files, or
    with the pipes that are created in rounds `i - 1` and `i`, and with nothing else of the
    pipes. -/
theorem executePipeline_wires {os : Os} (ok : os.Succeeds) (apipe : Pipeline Scommand)
    (p : Process) (std : p.fds.Standard) (nonempty : apipe.pipe ≠ [])
    (words : ∀ sc ∈ apipe.pipe, sc.cmd ≠ []) (notLone : ¬ LoneBuiltin apipe) :
    ∃ left p' calls, executePipeline os apipe p = (.ok left, p') ∧
      p'.calls = p.calls ++ calls ∧
      (piped calls).map (·.2) = List.range' p.fds.pipes (apipe.length - 1) ∧
      p'.children.length = p.children.length + apipe.length ∧
      ∀ i sc, apipe.pipe[i]? = some sc → ∃ child,
        p'.children[p.children.length + i]? = some child ∧
        Wired p.fds apipe.length i sc child ∧
        ∀ fd pipe, fd ≠ 0 → fd ≠ 1 → p.fds.pipes ≤ pipe →
          child.fds.get fd ≠ some (.readEnd pipe) ∧ child.fds.get fd ≠ some (.writeEnd pipe) := by
  obtain ⟨p', kids, calls, run, children, kidsLength, spawned, -, callsEq, shell⟩ :=
    forkPipeline_ok ok (p := p) nonempty
  rw [← executePipeline_eq nonempty words notLone] at run
  refine ⟨_, p', calls, run, callsEq, shell.piped_eq, by simp [children, kidsLength], ?_⟩
  intro i sc here
  obtain ⟨inside, -⟩ := List.getElem?_eq_some_iff.mp here
  obtain ⟨child, found⟩ : ∃ child, kids[i]? = some child :=
    ⟨_, List.getElem?_eq_getElem (kidsLength ▸ inside)⟩
  have wired := (spawned i child found).wired ok std (by simpa using here)
    (words sc (List.mem_of_getElem? here))
  refine ⟨child, ?_, wired, ?_⟩
  · rw [children, List.getElem?_append_right (Nat.le_add_right _ _), Nat.add_sub_cancel_left, found]
  · intro fd pipe notIn notOut later
    rw [wired.others fd notIn notOut]
    exact not_end later

def quietOs : Os :=
  { shellFails := fun _ => false, childFails := fun _ _ => false, pid := (100 + ·), home := none }

theorem quietOs_succeeds : quietOs.Succeeds := ⟨fun _ => rfl, fun _ _ => rfl⟩

/-- A shell on a terminal. -/
def terminal : Process where
  fds :=
    { cells := [some (.file (.inherited 0)), some (.file (.inherited 1)),
        some (.file (.inherited 2))]
      pipes := 0
      known := by
        intro f mem
        simp only [List.mem_cons, Option.some.injEq, List.not_mem_nil, or_false] at mem
        obtain rfl | rfl | rfl := mem <;> trivial }
  calls := []
  children := []

/-- `ls -l < dir | sort | wc > out` -/
def sorted : Pipeline Scommand :=
  { pipe :=
      [{ cmd := [['l', 's'], ['-', 'l']], redirOut := none, redirIn := some ['d', 'i', 'r'] },
       { cmd := [['s', 'o', 'r', 't']], redirOut := none, redirIn := none },
       { cmd := [['w', 'c']], redirOut := some ['o', 'u', 't'], redirIn := none }]
    wait := true }

theorem sorted_words : ∀ sc ∈ sorted.pipe, sc.cmd ≠ [] := by simp [sorted]

theorem sorted_notLone : ¬ LoneBuiltin sorted := by
  rintro ⟨sc, word, one, _⟩
  simp [sorted] at one

theorem executePipeline_wires_sorted : terminal.fds.Standard ∧
    ∃ (p' : Process) (calls : List Call), (piped calls).map (·.2) = [0, 1] ∧ p'.calls = terminal.calls ++ calls ∧
      ∃ child, p'.children[1]? = some child ∧
        Wired terminal.fds 3 1 { cmd := [['s', 'o', 'r', 't']], redirOut := none, redirIn := none }
          child := by
  have std : terminal.fds.Standard := ⟨by decide, by decide, by decide⟩
  obtain ⟨_, p', calls, _, callsEq, pipedEq, _, wired⟩ := executePipeline_wires quietOs_succeeds
    sorted terminal std (by simp [sorted]) sorted_words sorted_notLone
  obtain ⟨child, found, here, _⟩ := wired 1 _ rfl
  exact ⟨std, p', calls, pipedEq, callsEq, child, found, here⟩

/-! ## From prompt to prompt -/

/-- The descriptors stay as they are. -/
def KeepsFds {α : Type} (x : Run α) : Prop := ∀ p, (x p).2.fds = p.fds

namespace KeepsFds

variable {α β : Type}

theorem bind {x : Run α} {f : α → Run β} (first : KeepsFds x) (then_ : ∀ a, KeepsFds (f a)) :
    KeepsFds (x >>= f) := by
  intro p
  cases result : x p with
  | mk r p' =>
    have keeps : p'.fds = p.fds := by simpa [result] using first p
    cases r with
    | ok a => rw [Run.bind_ok result, then_ a p', keeps]
    | error e => rw [Run.bind_error result, keeps]

theorem pure (a : α) : KeepsFds (pure a) := fun _ => rfl

theorem emit (call : Call) : KeepsFds (emit call) := fun _ => rfl

theorem exit (status : Nat) : KeepsFds (exit status : Run α) := fun _ => rfl

theorem assert (condition : Bool) : KeepsFds (assert condition) := by
  cases condition <;> exact fun _ => rfl

theorem when (condition : Bool) {x : Run Unit} (keeps : KeepsFds x) :
    KeepsFds (Run.when condition x) := by
  cases condition with
  | false => exact .pure ()
  | true => exact keeps

theorem chdir (fails : Nat → Bool) (path : Option Text) : KeepsFds (chdir fails path) := by
  intro p
  simp only [Execute.chdir, syscall]
  cases path <;> split <;> simp_all

theorem builtinIsInternal (cmd : Scommand) : KeepsFds (builtinIsInternal cmd) :=
  .bind (.assert _) fun _ => .pure _

theorem builtinAlone (apipe : Pipeline Scommand) : KeepsFds (builtinAlone apipe) := by
  rw [Execute.builtinAlone]
  split
  · exact .builtinIsInternal _
  · exact .pure _

theorem builtinCd (os : Os) (cmd : Scommand) : KeepsFds (builtinCd os cmd) := by
  refine .bind (.assert _) fun _ => .bind ?_ fun path => .bind (.chdir _ _) fun result =>
    .bind (.when _ (.emit _)) fun _ => .pure _
  rw [cdPath]
  split
  · exact .bind (.when _ (.emit _)) fun _ => .pure _
  · exact .pure _

theorem builtinRun (os : Os) (cmd : Scommand) : KeepsFds (builtinRun os cmd) := by
  refine .bind (.builtinIsInternal _) fun internal => .bind (.assert _) fun _ => ?_
  split
  · exact .builtinCd _ _
  · split
    · exact .bind (.emit _) fun _ => .pure _
    · split
      · exact .exit _
      · exact .pure _

end KeepsFds

theorem runPipeline_same {os : Os} (ok : os.Succeeds) (apipe : Pipeline Scommand)
    (p : Process) : (runPipeline os apipe p).2.fds.Same p.fds := by
  cases pipeEq : apipe.pipe with
  | nil =>
    simp only [runPipeline, pipeEq]
    exact .refl _
  | cons front rest =>
    simp only [runPipeline, pipeEq]
    cases alone : builtinAlone apipe p with
    | mk r p₁ =>
      have keeps : p₁.fds = p.fds := by simpa [alone] using KeepsFds.builtinAlone apipe p
      cases r with
      | error e =>
        rw [Run.bind_error alone, keeps]
        exact .refl _
      | ok isAlone =>
        rw [Run.bind_ok alone, ← keeps]
        cases isAlone with
        | true =>
          have run : KeepsFds (do
              let front ← builtinRun os front
              pure { apipe with pipe := front :: rest }) :=
            .bind (.builtinRun _ _) fun _ => .pure _
          intro fd
          exact congrArg (FdTable.get · fd) (run p₁)
        | false =>
          obtain ⟨p', _, _, run, _, _, _, same, _⟩ :=
            forkPipeline_ok ok (p := p₁) (pipeEq ▸ List.cons_ne_nil _ _)
          simp only [Bool.false_eq_true, if_false, run]
          exact same

theorem executePipeline_same {os : Os} (ok : os.Succeeds) (apipe : Pipeline Scommand)
    (p : Process) : (executePipeline os apipe p).2.fds.Same p.fds := by
  cases pipeEq : apipe.pipe with
  | nil =>
    simp only [executePipeline, pipeEq]
    exact .refl _
  | cons first rest =>
    simp only [executePipeline, pipeEq]
    exact runPipeline_same ok _ p

theorem promptStep_same {os : Os} (ok : os.Succeeds) {p p' : Process} {apipe : Pipeline Scommand}
    (step : promptStep os p apipe = some p') : p'.fds.Same p.fds := by
  have same := executePipeline_same ok apipe p
  rw [promptStep] at step
  split at step
  next h =>
    rw [h] at same
    exact Option.some.inj step ▸ same
  next => cases step

/-- The descriptors that the pipes of a pipeline have are all different. -/
theorem created_nodup {calls : List Call} (distinct : ((piped calls).map (·.2)).Nodup) :
    (created calls).Nodup := by
  refine List.nodup_flatMap.mpr ⟨?_, ?_⟩
  · intro e _
    simp [ends]
  · refine (List.pairwise_map.mp distinct).imp ?_
    intro e e' differ
    simp [Function.onFun, ends, Ne.symm differ]

/-- For a pipeline the shell forks its commands and creates the pipes between them, closes
    what it has created, and waits for its children if it has to.  So its table is the same at
    every prompt. -/
theorem executePipeline_frame {os : Os} (ok : os.Succeeds) (p : Process) :
    (∀ apipe : Pipeline Scommand, apipe.pipe ≠ [] → (∀ sc ∈ apipe.pipe, sc.cmd ≠ []) →
      ¬ LoneBuiltin apipe → ∃ p' calls,
        executePipeline os apipe p = (.ok { apipe with pipe := [] }, p') ∧
        p'.calls = p.calls ++ calls ∧
        forks calls = (List.range' p.children.length apipe.length).map os.pidOf ∧
        (piped calls).length = apipe.length - 1 ∧
        closed calls = created calls ∧ (created calls).Nodup ∧
        (∀ c ∈ calls, c.OfShell) ∧
        waited calls = (if apipe.wait then forks calls else []) ∧
        p'.fds.Same p.fds) ∧
    ∀ pipelines p', exec (promptStep os) p pipelines = some p' → p'.fds.Same p.fds := by
  refine ⟨?_, ?_⟩
  · intro apipe nonempty words notLone
    obtain ⟨p', kids, calls, run, _, _, _, same, callsEq, shell⟩ :=
      forkPipeline_ok ok (p := p) nonempty
    rw [← executePipeline_eq nonempty words notLone] at run
    have distinct : ((piped calls).map (·.2)).Nodup := shell.piped_eq ▸ List.nodup_range'
    have count : (piped calls).length = apipe.length - 1 := by
      simpa using congrArg List.length shell.piped_eq
    exact ⟨p', calls, run, callsEq, shell.forks_eq, count, shell.closed_eq,
      created_nodup distinct, shell.ofShell, shell.waited_eq, same⟩
  · intro pipelines p' run
    refine exec_invariant (P := fun q => q.fds.Same p.fds) ?_ (.refl _) run
    intro q apipe q' same step
    exact (promptStep_same ok step).trans same

theorem executePipeline_frame_sorted : ∃ p' calls,
    executePipeline quietOs sorted terminal = (.ok { pipe := [], wait := true }, p') ∧
      forks calls = [101, 102, 103] ∧ waited calls = forks calls ∧
      p'.fds.Same terminal.fds := by
  obtain ⟨p', calls, run, _, forksEq, _, _, _, _, waitedEq, same⟩ :=
    (executePipeline_frame quietOs_succeeds terminal).1 sorted (by simp [sorted]) sorted_words
      sorted_notLone
  exact ⟨p', calls, run, forksEq, waitedEq, same⟩

end Sistemas.Mybash.Execute
