import Sistemas.Mybash.ExecuteShell

/-! # The assertions of execute_pipeline

`execute_pipeline` asks only for a pipeline, and takes an empty command off the front.  The
commands after it go to `builtin_is_internal` and to `execute_scommand` as they are, and both
assert that there is a word.  So whatever the system calls do, no assertion fails when every
command after the first has words (`words_safe`); and one that has none makes the shell or its
child fail when the calls succeed (`not_safe_of_empty`).
-/

namespace Sistemas.Mybash.Execute

open Sistemas.Posix Sistemas.Posix.FdTable

variable {α β : Type} {p p' : Process}

/-! ## What a run promises

`ended` is about the endings of the process, `born` about the children it has. -/

def Meets (born : List Child → Prop) (ended : Ending → Process → Prop) (value : α → Prop)
    (x : Run α) : Prop :=
  ∀ p, born p.children →
    match x p with
    | (.ok a, p') => value a ∧ born p'.children
    | (.error e, p') => ended e p'

namespace Meets

variable {born : List Child → Prop} {ended : Ending → Process → Prop}

theorem pure {value : α → Prop} {a : α} (holds : value a) : Meets born ended value (pure a) :=
  fun _ before => ⟨holds, before⟩

theorem bind {between : α → Prop} {value : β → Prop} {x : Run α} {f : α → Run β}
    (first : Meets born ended between x) (next : ∀ a, between a → Meets born ended value (f a)) :
    Meets born ended value (x >>= f) := by
  intro p before
  have here := first p before
  cases result : x p with
  | mk r p' =>
    rw [result] at here
    cases r with
    | ok a =>
      rw [Run.bind_ok result]
      exact next a here.1 p' here.2
    | error e =>
      rw [Run.bind_error result]
      exact here

theorem imp {value value' : α → Prop} {x : Run α} (meets : Meets born ended value x)
    (weaker : ∀ a, value a → value' a) : Meets born ended value' x := by
  intro p before
  have here := meets p before
  cases result : x p with
  | mk r p' =>
    rw [result] at here
    cases r with
    | ok a => exact ⟨weaker a here.1, here.2⟩
    | error e => exact here

theorem emit (call : Call) : Meets born ended (fun _ => True) (emit call) :=
  fun _ before => ⟨trivial, before⟩

theorem exit {value : α → Prop} {status : Nat}
    (allowed : ∀ p, born p.children → ended (.exited status) p) :
    Meets born ended value (exit status) :=
  fun p before => allowed p before

theorem assert {condition : Bool} (holds : condition = true) :
    Meets born ended (fun _ => True) (assert condition) := by
  intro p before
  rw [assert_ok holds]
  exact ⟨trivial, before⟩

theorem when (condition : Bool) {x : Run Unit} (meets : Meets born ended (fun _ => True) x) :
    Meets born ended (fun _ => True) (Run.when condition x) := by
  cases condition with
  | false => exact .pure trivial
  | true => exact meets

theorem syscall (fails : Nat → Bool) (call : Syscall)
    (effect : FdTable Source → Option (α × Call × FdTable Source)) :
    Meets born ended (fun _ => True) (syscall fails call effect) := by
  intro p before
  rw [Execute.syscall]
  cases (if fails p.calls.length then none else effect p.fds) with
  | none => exact ⟨trivial, before⟩
  | some result => exact ⟨trivial, before⟩

theorem close (fails : Nat → Bool) (fd : Int) :
    Meets born ended (fun _ => True) (close fails fd) :=
  .bind (.syscall _ _ _) fun _ _ => .pure trivial

theorem orFail (allowed : ∀ p, born p.children → ended (.exited 1) p) (message : String)
    {call : Run (Option α)} (meets : Meets born ended (fun _ => True) call) :
    Meets born ended (fun _ => True) (orFail message call) := by
  refine .bind meets fun result _ => ?_
  cases result with
  | none => exact .bind (.emit _) fun _ _ => .exit allowed
  | some a => exact .pure trivial

end Meets

/-! ## The child -/

/-- The process has become a program with arguments, or it has ended with `EXIT_FAILURE`. -/
def Proper : Ending → List Call → Prop
  | .execed, calls => ∃ word args, calls.getLast? = some (.execvp (some word) (some word :: args))
  | .exited status, _ => status = 1
  | .aborted, _ => False

def Child.Sound (child : Child) : Prop := Proper child.ending child.calls

section Child

variable (fails : Nat → Bool)

/-- What a child promises: its end is a proper one. -/
abbrev ChildMeets (value : α → Prop) (x : Run α) : Prop :=
  Meets (fun _ => True) (fun e p => Proper e p.calls) value x

theorem dupStandard_meets (fd : Int) (standard : Nat) (message : String) :
    ChildMeets (fun _ => True) (dupStandard fails fd standard message) :=
  .orFail (fun _ _ => rfl) _ (.syscall _ _ _)

theorem attach_meets (unused used : Int) (standard : Nat) (message : String) :
    ChildMeets (fun _ => True) (attach fails unused used standard message) :=
  .bind (.close _ _) fun _ _ => .bind (dupStandard_meets _ _ _ _) fun _ _ => .close _ _

theorem redirect_meets (file : Option Text) (flags : OpenFlags) (standard : Nat)
    (openMessage dupMessage : String) :
    ChildMeets (fun _ => True) (redirect fails file flags standard openMessage dupMessage) := by
  cases file with
  | none => exact .pure trivial
  | some path =>
    exact .bind (.orFail (fun _ _ => rfl) _ (.syscall _ _ _)) fun _ _ =>
      .bind (dupStandard_meets _ _ _ _) fun _ _ => .close _ _

theorem execvp_meets (word : Text) (args : List (Option Text)) :
    ChildMeets (fun _ => True) (execvp fails (some word) (some word :: args)) := by
  intro p _
  rw [execvp]
  cases fails p.calls.length with
  | true => exact ⟨trivial, trivial⟩
  | false => exact ⟨word, args, List.getLast?_concat⟩

theorem executeScommand_meets {sc : Scommand} (nonempty : sc.cmd ≠ []) :
    ChildMeets (fun _ => True) (executeScommand fails sc) := by
  obtain ⟨words, redirOut, redirIn⟩ := sc
  obtain ⟨word, args, rfl⟩ := List.exists_cons_of_ne_nil nonempty
  refine .bind (.assert rfl) fun _ _ => ?_
  rw [copyArguments_eq]
  exact .bind (redirect_meets _ _ _ _ _ _) fun _ _ => .bind (redirect_meets _ _ _ _ _ _)
    fun _ _ => .bind (execvp_meets _ _ _) fun _ _ => .emit _

theorem runChild_meets (i length : Nat) (pipefdTmp pipefd : Int × Int) {apipe : Pipeline Scommand}
    {sc : Scommand} {rest : List Scommand} (pipeEq : apipe.pipe = sc :: rest)
    (nonempty : sc.cmd ≠ []) :
    ChildMeets (fun _ => True) (runChild fails i length pipefdTmp pipefd apipe) := by
  obtain ⟨text, printed⟩ := toString_of_words nonempty
  refine .bind (.when _ (attach_meets _ _ _ _ _)) fun _ _ =>
    .bind (.when _ (attach_meets _ _ _ _ _)) fun _ _ => ?_
  simp only [pipeEq, printed]
  exact .bind (executeScommand_meets fails nonempty) fun _ _ => .bind (.emit _) fun _ _ =>
    .exit fun _ _ => rfl

theorem spawn_sound {code : Run Empty} (meets : ChildMeets (fun _ => True) code)
    (fds : FdTable Source) : (spawn code fds).Sound := by
  have ends := meets { fds := fds, calls := [], children := [] } trivial
  rw [spawn]
  split
  next ending p run =>
    rw [run] at ends
    exact ends

end Child

/-! ## The shell -/

/-- The children are those of before and sound ones. -/
def Sired (before : List Child) (children : List Child) : Prop :=
  ∃ kids, children = before ++ kids ∧ ∀ kid ∈ kids, kid.Sound

theorem Sired.fork {before children : List Child} {child : Child} (sired : Sired before children)
    (sound : child.Sound) : Sired before (children ++ [child]) := by
  obtain ⟨kids, rfl, all⟩ := sired
  refine ⟨kids ++ [child], List.append_assoc _ _ _, ?_⟩
  intro kid mem
  obtain mem | mem := List.mem_append.mp mem
  · exact all kid mem
  · obtain rfl := List.mem_singleton.mp mem
    exact sound

section Shell

variable (os : Os) {before : List Child}

/-- What the shell promises: no assertion fails, and its new children are sound. -/
abbrev ShellMeets (before : List Child) (value : α → Prop) (x : Run α) : Prop :=
  Meets (Sired before) (fun e p => e ≠ .aborted ∧ Sired before p.children) value x

theorem exit_allowed (status : Nat) (p : Process) (sired : Sired before p.children) :
    Ending.exited status ≠ .aborted ∧ Sired before p.children :=
  ⟨by simp, sired⟩

theorem fork_meets {child : (Nat → Bool) → Run Empty}
    (meets : ∀ fails, ChildMeets (fun _ => True) (child fails)) :
    ShellMeets before (fun _ => True) (fork os child) := by
  intro p sired
  rw [fork]
  cases os.shellFails p.calls.length with
  | true => exact ⟨trivial, sired⟩
  | false => exact ⟨trivial, sired.fork (spawn_sound (meets _) _)⟩

theorem createPipe_meets (more : Bool) (pipefd : Int × Int) :
    ShellMeets before (fun _ => True) (createPipe os more pipefd) := by
  cases more with
  | false => exact .pure trivial
  | true => exact .orFail (exit_allowed 1) _ (.syscall _ _ _)

theorem forkBody_meets (length : Nat) {st : Forking} {sc : Scommand} {rest : List Scommand}
    (pipeEq : st.apipe.pipe = sc :: rest) (nonempty : sc.cmd ≠ []) :
    ShellMeets before (fun st' : Forking => st'.apipe.pipe = rest) (forkBody os length st) := by
  refine .bind (createPipe_meets os _ _) fun pipefd _ => ?_
  refine .bind (.orFail (exit_allowed 1) _ (fork_meets os fun fails =>
    runChild_meets fails _ _ _ _ pipeEq nonempty)) fun pid1 _ => ?_
  refine .bind (.when _ (.bind (.close _ _) fun _ _ => .close _ _)) fun _ _ => ?_
  exact .bind (.assert (by rw [pipeEq]; rfl)) fun _ _ => .pure (by rw [pipeEq]; rfl)

theorem forkLoop_meets (length : Nat) (st : Forking)
    (words : ∀ sc ∈ st.apipe.pipe, sc.cmd ≠ []) :
    ShellMeets before (fun _ => True) (forkLoop os length st.apipe.pipe.length st) := by
  generalize pipeEq : st.apipe.pipe = commands at words
  -- each round takes one command off
  induction commands generalizing st with
  | nil => exact .pure trivial
  | cons sc rest ih =>
    exact .bind (forkBody_meets os length pipeEq (words sc List.mem_cons_self)) fun st' pipeEq' =>
      ih st' pipeEq' fun sc mem => words sc (List.mem_cons_of_mem _ mem)

theorem waitLoop_meets (pids : List Int) :
    ShellMeets before (fun _ => True) (waitLoop os pids) := by
  induction pids with
  | nil => exact .pure trivial
  | cons pid pids ih =>
    have waits : ShellMeets before (fun _ => True) (waitpid os.shellFails pid) :=
      .bind (.syscall _ _ _) fun _ _ => .pure trivial
    exact .bind waits fun _ _ => ih

theorem forkPipeline_meets {apipe : Pipeline Scommand} (words : ∀ sc ∈ apipe.pipe, sc.cmd ≠ []) :
    ShellMeets before (fun _ => True) (forkPipeline os apipe) :=
  .bind (.when _ (.emit _)) fun _ _ =>
    .bind (forkLoop_meets os apipe.length (Forking.start apipe) words) fun _ _ =>
      .bind (.when _ (waitLoop_meets os _)) fun _ _ => .pure trivial

/-! ### The internal commands -/

theorem builtinIsInternal_meets {sc : Scommand} (nonempty : sc.cmd ≠ []) :
    ShellMeets before (fun internal => internal = sc.cmd.head?.any (· ∈ internalCmd))
      (builtinIsInternal sc) :=
  .bind (.assert (by simpa [Scommand.isEmpty] using nonempty)) fun _ _ => .pure rfl

theorem builtinAlone_meets {apipe : Pipeline Scommand} {sc : Scommand} {rest : List Scommand}
    (pipeEq : apipe.pipe = sc :: rest) (nonempty : sc.cmd ≠ []) :
    ShellMeets before (fun alone => alone = true → sc.cmd.head?.any (· ∈ internalCmd) = true)
      (builtinAlone apipe) := by
  cases rest with
  | nil =>
    simp only [builtinAlone, pipeEq]
    exact (builtinIsInternal_meets nonempty).imp fun internal eq holds => eq ▸ holds
  | cons next rest =>
    simp only [builtinAlone, pipeEq]
    exact .pure fun holds => absurd holds (by decide)

theorem builtinCd_meets {sc : Scommand} (nonempty : sc.cmd ≠ []) :
    ShellMeets before (fun _ => True) (builtinCd os sc) := by
  have path : ∀ sc, ShellMeets before (fun _ => True) (cdPath os sc) := by
    intro sc
    rw [cdPath]
    split
    next => exact .bind (.when _ (.emit _)) fun _ _ => .pure trivial
    next => exact .pure trivial
  exact .bind (.assert (by simpa [Scommand.isEmpty] using nonempty)) fun _ _ =>
    .bind (path _) fun _ _ => .bind (.syscall _ _ _) fun _ _ =>
      .bind (.when _ (.emit _)) fun _ _ => .pure trivial

theorem builtinRun_meets {sc : Scommand} (nonempty : sc.cmd ≠ [])
    (internal : sc.cmd.head?.any (· ∈ internalCmd) = true) :
    ShellMeets before (fun _ => True) (builtinRun os sc) := by
  refine .bind (builtinIsInternal_meets nonempty) fun result eq =>
    .bind (.assert (eq.trans internal)) fun _ _ => ?_
  split
  next => exact builtinCd_meets os nonempty
  next =>
    split
    next => exact .bind (.emit _) fun _ _ => .pure trivial
    next =>
      split
      next => exact .exit (exit_allowed 0)
      next => exact .pure trivial

/-! ### The whole function -/

theorem runPipeline_meets {apipe : Pipeline Scommand} (words : ∀ sc ∈ apipe.pipe, sc.cmd ≠ []) :
    ShellMeets before (fun _ => True) (runPipeline os apipe) := by
  cases pipeEq : apipe.pipe with
  | nil =>
    simp only [runPipeline, pipeEq]
    exact .pure trivial
  | cons front rest =>
    have nonempty : front.cmd ≠ [] := words front (pipeEq ▸ List.mem_cons_self)
    simp only [runPipeline, pipeEq]
    refine .bind (builtinAlone_meets pipeEq nonempty) fun alone internal => ?_
    cases alone with
    | true => exact .bind (builtinRun_meets os nonempty (internal rfl)) fun _ _ => .pure trivial
    | false => exact forkPipeline_meets os words

/-- Every command after the first has words. -/
def Pipeline.LaterWords (apipe : Pipeline Scommand) : Prop :=
  ∀ sc ∈ apipe.pipe.tail, sc.cmd ≠ []

theorem executePipeline_meets {apipe : Pipeline Scommand} (words : Pipeline.LaterWords apipe) :
    ShellMeets before (fun _ => True) (executePipeline os apipe) := by
  obtain ⟨pipe, wait⟩ := apipe
  cases pipe with
  | nil => exact .pure trivial
  | cons first rest =>
    simp only [executePipeline]
    cases empty : first.isEmpty with
    | true => exact runPipeline_meets os words
    | false =>
      refine runPipeline_meets os fun sc mem => ?_
      obtain rfl | later := List.mem_cons.mp mem
      · simpa [Scommand.isEmpty] using empty
      · exact words sc later

end Shell

/-- No assertion fails in the shell, and every child that is forked has a proper end. -/
def Safe (os : Os) (p : Process) (apipe : Pipeline Scommand) : Prop :=
  (executePipeline os apipe p).1 ≠ .error .aborted ∧
    Sired p.children (executePipeline os apipe p).2.children

theorem words_safe {apipe : Pipeline Scommand} (words : Pipeline.LaterWords apipe) (os : Os)
    (p : Process) : Safe os p apipe := by
  have start : Sired p.children p.children := ⟨[], by simp, by simp⟩
  have meets := executePipeline_meets os words p start
  cases run : executePipeline os apipe p with
  | mk r p' =>
    rw [run] at meets
    rw [Safe, run]
    cases r with
    | ok left => exact ⟨by simp, meets.2⟩
    | error e => exact ⟨by simpa using meets.1, meets.2⟩

/-! ## A command without words -/

section Empty

variable {sc : Scommand} (empty : sc.cmd = [])

include empty

theorem executeScommand_aborts (fails : Nat → Bool) :
    executeScommand fails sc p = (.error .aborted, p) := by
  rw [executeScommand, Scommand.isEmpty, empty]
  exact Run.bind_error rfl

/-- The child of a command without words comes to the command, and fails there. -/
theorem runChild_aborts {fails : Nat → Bool} (quiet : Quiet fails)
    {base : Int → Option (OpenFile Source)} {i length pipe : Nat} {pipefdTmp pipefd : Int × Int}
    {apipe : Pipeline Scommand} (front : apipe.pipe.head? = some sc)
    (h : Extends base p.fds ((if i != 0 then ends pipefdTmp (pipe - 1) else []) ++
      (if i != length - 1 then ends pipefd pipe else [])))
    (stdin : base (0 : Nat) ≠ none) (stdout : base (1 : Nat) ≠ none) :
    ∃ p', runChild fails i length pipefdTmp pipefd apipe p = (.error .aborted, p') := by
  obtain ⟨p₂, attaches, -, -⟩ := attaches_ok quiet h stdin stdout
  refine ⟨p₂, ?_⟩
  obtain ⟨rest, pipeEq⟩ := List.head?_eq_some_iff.mp front
  rw [runChild, attaches, pipeEq]
  -- with redirections it cannot even be printed
  cases printed : sc.toString with
  | none => simp only [printed]
  | some text =>
    simp only [printed]
    exact Run.bind_error (executeScommand_aborts empty fails)

theorem Spawned.aborted {os : Os} (ok : os.Succeeds) {fds : FdTable Source}
    {number i length : Nat} {apipe : Pipeline Scommand} {child : Child}
    (spawned : Spawned os fds.get fds.pipes number i length apipe child) (std : fds.Standard)
    (front : apipe.pipe.head? = some sc) : child.ending = .aborted := by
  obtain ⟨pipefdTmp, pipefd, t, rfl, extended⟩ := spawned
  obtain ⟨p', run⟩ := runChild_aborts empty (ok.child number)
    (p := { fds := t, calls := [], children := [] }) front extended std.stdin std.stdout
  rw [spawn, run]

end Empty

/-- Of two commands or more, one without words has a child that fails. -/
theorem not_safe_of_fork {os : Os} (ok : os.Succeeds) {p : Process} (std : p.fds.Standard)
    {apipe : Pipeline Scommand} {sc : Scommand} (mem : sc ∈ apipe.pipe) (empty : sc.cmd = []) :
    ¬ Sired p.children (forkPipeline os apipe p).2.children := by
  obtain ⟨p', kids, calls, run, children, kidsLength, spawned, -⟩ :=
    forkPipeline_ok ok (p := p) (List.ne_nil_of_mem mem)
  obtain ⟨j, inside, rfl⟩ := List.getElem_of_mem mem
  obtain ⟨child, found⟩ : ∃ child, kids[j]? = some child :=
    ⟨_, List.getElem?_eq_getElem (kidsLength ▸ inside)⟩
  have aborted := (spawned j child found).aborted empty ok std (by simp [inside])
  rintro ⟨kids', same, sound⟩
  rw [run, children] at same
  obtain rfl := List.append_cancel_left same
  have proper := sound child (List.mem_of_getElem? found)
  rw [Child.Sound, aborted] at proper
  exact proper

theorem not_safe_of_empty {os : Os} (ok : os.Succeeds) {p : Process} (std : p.fds.Standard)
    {apipe : Pipeline Scommand} {sc : Scommand} (mem : sc ∈ apipe.pipe.tail)
    (empty : sc.cmd = []) : ¬ Safe os p apipe := by
  obtain ⟨pipe, wait⟩ := apipe
  obtain ⟨first, second, rest, rfl⟩ : ∃ first second rest, pipe = first :: second :: rest := by
    match pipe, mem with
    | first :: second :: rest, _ => exact ⟨first, second, rest, rfl⟩
  intro safe
  cases front : first.isEmpty with
  | false =>
    -- two commands are left, so they are forked
    have run : executePipeline os ⟨first :: second :: rest, wait⟩ p =
        forkPipeline os ⟨first :: second :: rest, wait⟩ p := by
      simp only [executePipeline, front, Bool.false_eq_true, if_false, runPipeline]
      exact Run.bind_ok rfl
    rw [Safe, run] at safe
    exact not_safe_of_fork ok std (List.mem_cons_of_mem _ mem) empty safe.2
  | true =>
    cases rest with
    | nil =>
      -- the command that is left is taken for an internal one
      obtain rfl := List.mem_singleton.mp mem
      have fails : builtinAlone ⟨[sc], wait⟩ p = (.error .aborted, p) := by
        simp only [builtinAlone, builtinIsInternal, Scommand.isEmpty, empty]
        exact Run.bind_error rfl
      have run : executePipeline os ⟨[first, sc], wait⟩ p = (.error .aborted, p) := by
        simp only [executePipeline, front, if_true, runPipeline]
        exact Run.bind_error fails
      rw [Safe, run] at safe
      exact safe.1 rfl
    | cons third rest =>
      have run : executePipeline os ⟨first :: second :: third :: rest, wait⟩ p =
          forkPipeline os ⟨second :: third :: rest, wait⟩ p := by
        simp only [executePipeline, front, if_true, runPipeline]
        exact Run.bind_ok rfl
      rw [Safe, run] at safe
      exact not_safe_of_fork ok std mem empty safe.2

/-- Two commands without words: one is taken off, the other is not. -/
theorem two_empty_not_safe :
    ¬ Safe quietOs terminal { pipe := [Scommand.new, Scommand.new], wait := true } :=
  not_safe_of_empty quietOs_succeeds ⟨by decide, by decide, by decide⟩
    (List.mem_singleton_self _) rfl

/-- **The assertions.**  A pipeline is safe to execute, whatever the system calls do, when every
    command after the first has words, and only then. -/
theorem safe_iff_laterWords (apipe : Pipeline Scommand) :
    (∀ os p, Safe os p apipe) ↔ Pipeline.LaterWords apipe := by
  constructor
  · intro safe sc mem empty
    have std : terminal.fds.Standard := ⟨by decide, by decide, by decide⟩
    exact not_safe_of_empty quietOs_succeeds std mem empty (safe _ _)
  · exact words_safe

end Sistemas.Mybash.Execute
