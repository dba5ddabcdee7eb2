import Sistemas.Mybash.Execute

/-! # The descriptors of a child

What `execute_scommand` and the child's part of `execute_pipeline` do when no system call
fails.  The child starts with the shell's descriptors and the pipes to its neighbours; each
step puts something in the place of a standard descriptor and closes what it has used for it,
so that in the end nothing is left beyond the shell's descriptors (`runChild_ok`).
-/

namespace Sistemas.Mybash.Execute

open Sistemas.Posix Sistemas.Posix.FdTable

variable {α β : Type} {p p' : Process}

/-! ## Calls that succeed -/

theorem Run.bind_ok {x : Run α} {f : α → Run β} {a : α} (h : x p = (.ok a, p')) :
    (x >>= f) p = f a p' := by
  simp only [Bind.bind, h]

theorem Run.bind_error {x : Run α} {f : α → Run β} {e : Ending} (h : x p = (.error e, p')) :
    (x >>= f) p = (.error e, p') := by
  simp only [Bind.bind, h]

/-- No call fails. -/
def Quiet (fails : Nat → Bool) : Prop := ∀ k, fails k = false

structure Os.Succeeds (os : Os) : Prop where
  shell : Quiet os.shellFails
  child : ∀ number, Quiet (os.childFails number)

section Quiet

variable {fails : Nat → Bool} (quiet : Quiet fails)

include quiet

theorem syscall_ok {call : Syscall} {effect : FdTable Source → Option (α × Call × FdTable Source)}
    {a : α} {event : Call} {fds : FdTable Source} (h : effect p.fds = some (a, event, fds)) :
    syscall fails call effect p =
      (.ok (some a), { p with fds := fds, calls := p.calls ++ [event] }) := by
  simp only [syscall, quiet _, Bool.false_eq_true, if_false, h]

theorem close_ok {fd : Int} {file : OpenFile Source} (h : p.fds.get fd = some file) :
    close fails fd p =
      (.ok (), { p with fds := p.fds.close fd, calls := p.calls ++ [.close fd file] }) := by
  rw [close, Run.bind_ok (syscall_ok quiet (by rw [h]; rfl))]
  rfl

theorem waitpid_ok (pid : Int) :
    waitpid fails pid p = (.ok (), { p with calls := p.calls ++ [.waitpid pid] }) := by
  rw [waitpid, Run.bind_ok (syscall_ok quiet rfl)]
  rfl

omit quiet in
theorem orFail_ok {message : String} {call : Run (Option α)} {a : α}
    (h : call p = (.ok (some a), p')) : orFail message call p = (.ok a, p') := by
  rw [orFail, Run.bind_ok h]
  rfl

theorem dupStandard_ok {fd : Int} {standard : Nat} (message : String) {file : OpenFile Source}
    (h : p.fds.get fd = some file) :
    dupStandard fails fd standard message p =
      (.ok (), { p with
        fds := p.fds.dup2 fd standard
        calls := p.calls ++ [.dup2 fd standard] }) :=
  orFail_ok (syscall_ok quiet (by rw [h]; rfl))

theorem openFile_ok (path : Text) (flags : OpenFlags) :
    openFile fails path flags p =
      (.ok (some (p.fds.openFile (.opened path flags)).1), { p with
        fds := (p.fds.openFile (.opened path flags)).2
        calls := p.calls ++ [.openFile path flags] }) :=
  syscall_ok quiet rfl

end Quiet

/-! ## The child -/

/-- The programs a process has turned into. -/
def execs (calls : List Call) : List (Option Text × List (Option Text)) :=
  calls.filterMap fun
    | .execvp file argv => some (file, argv)
    | _ => none

theorem execs_append (calls calls' : List Call) :
    execs (calls ++ calls') = execs calls ++ execs calls' :=
  List.filterMap_append

theorem copyArguments_eq (words : List Text) (redirOut redirIn : Option Text) :
    copyArguments words.length { cmd := words, redirOut := redirOut, redirIn := redirIn } =
      (words, { cmd := [], redirOut := redirOut, redirIn := redirIn }) := by
  induction words with
  | nil => rfl
  | cons front words ih => simp [copyArguments, ih]

section Child

variable {fails : Nat → Bool} (quiet : Quiet fails) {base : Int → Option (OpenFile Source)}
  {extra : List (Int × OpenFile Source)}

include quiet

theorem dupClose_ok {fd : Int} {standard : Nat} (message : String) {f : OpenFile Source}
    (h : Extends base p.fds ((fd, f) :: extra)) (std : base standard ≠ none) :
    ∃ p', (do dupStandard fails fd standard message; close fails fd) p = (.ok (), p') ∧
      Extends (Function.update base standard (some f)) p'.fds extra ∧
      execs p'.calls = execs p.calls := by
  have held : p.fds.get fd = some f := (h.held _ List.mem_cons_self).1
  have duped := h.dup2 held std
  have closed := close_ok quiet
    (p := { p with fds := p.fds.dup2 fd standard, calls := p.calls ++ [.dup2 fd standard] })
    (duped.held _ List.mem_cons_self).1
  exact ⟨_, (Run.bind_ok (dupStandard_ok quiet message held)).trans closed, duped.close,
    by simp [execs]⟩

theorem attach_ok {unused used : Int} {standard : Nat} (message : String)
    {f g : OpenFile Source} (h : Extends base p.fds ((unused, g) :: (used, f) :: extra))
    (std : base standard ≠ none) :
    ∃ p', attach fails unused used standard message p = (.ok (), p') ∧
      Extends (Function.update base standard (some f)) p'.fds extra ∧
      execs p'.calls = execs p.calls := by
  have first := close_ok quiet (h.held _ List.mem_cons_self).1
  obtain ⟨p', run, h', none'⟩ := dupClose_ok quiet
    (p := { p with fds := p.fds.close unused, calls := p.calls ++ [.close unused g] })
    message h.close std
  refine ⟨p', ?_, h', ?_⟩
  · rw [attach, Run.bind_ok first]
    exact run
  · rw [none']
    simp [execs]

/-- The table below a process with a redirection. -/
def redirected (base : Int → Option (OpenFile Source)) (standard : Nat) (flags : OpenFlags)
    (file : Option Text) : Int → Option (OpenFile Source) :=
  match file with
  | none => base
  | some path => Function.update base standard (some (.file (.opened path flags)))

theorem redirect_ok (file : Option Text) (flags : OpenFlags) {standard : Nat}
    (openMessage dupMessage : String) (h : Extends base p.fds []) (std : base standard ≠ none) :
    ∃ p', redirect fails file flags standard openMessage dupMessage p = (.ok (), p') ∧
      Extends (redirected base standard flags file) p'.fds [] ∧
      execs p'.calls = execs p.calls := by
  cases file with
  | none => exact ⟨p, rfl, h, rfl⟩
  | some path =>
    obtain ⟨p', run, h', none'⟩ := dupClose_ok quiet
      (p := { p with
        fds := (p.fds.openFile (.opened path flags)).2
        calls := p.calls ++ [.openFile path flags] })
      dupMessage (h.openFile (.opened path flags)) std
    refine ⟨p', ?_, h', ?_⟩
    · simp only [redirect]
      rw [Run.bind_ok (orFail_ok (openFile_ok quiet path flags))]
      exact run
    · rw [none']
      simp [execs]

omit quiet in
theorem redirected_apply (standard : Nat) (flags : OpenFlags) (file : Option Text) (fd : Int) :
    redirected base standard flags file fd =
      if fd = standard then (file.map fun path => .file (.opened path flags)).or (base fd)
      else base fd := by
  cases file with
  | none => simp [redirected]
  | some path => simp [redirected, Function.update_apply]

omit quiet in
theorem redirected_ne_none {standard fd : Nat} {flags : OpenFlags} {file : Option Text}
    (std : base fd ≠ none) : redirected base standard flags file fd ≠ none := by
  rw [redirected_apply]
  split
  · cases file <;> simp [std]
  · exact std

/-- The words of a command, as `execvp` gets them. -/
def argv (sc : Scommand) : List (Option Text) := sc.cmd.map some ++ [none]

theorem executeScommand_ok {sc : Scommand} (nonempty : sc.cmd ≠ [])
    (h : Extends base p.fds []) (stdin : base (0 : Nat) ≠ none) (stdout : base (1 : Nat) ≠ none) :
    ∃ p', executeScommand fails sc p = (.error .execed, p') ∧
      Extends (redirected (redirected base 0 .rdonly sc.redirIn) 1 .wronlyCreatTrunc sc.redirOut)
        p'.fds [] ∧
      execs p'.calls = execs p.calls ++ [(sc.cmd.head?, argv sc)] := by
  obtain ⟨words, redirOut, redirIn⟩ := sc
  have holds : assert (!Scommand.isEmpty ⟨words, redirOut, redirIn⟩) p = (.ok (), p) := by
    cases words with
    | nil => exact absurd rfl nonempty
    | cons word words => rfl
  obtain ⟨p₁, input, h₁, none₁⟩ := redirect_ok quiet redirIn .rdonly "open redir_in"
    "dup2 redir_in" h stdin
  obtain ⟨p₂, output, h₂, none₂⟩ := redirect_ok quiet redirOut .wronlyCreatTrunc
    "open redir_out" "dup2 redir_out" h₁ (redirected_ne_none stdout)
  have executed : ∀ file argv, execvp fails file argv p₂ =
      (.error .execed, { p₂ with calls := p₂.calls ++ [.execvp file argv] }) := by
    intro file argv
    simp only [execvp, quiet _, Bool.false_eq_true, if_false]
  let file := (argv ⟨words, redirOut, redirIn⟩).head?.join
  refine ⟨{ p₂ with calls := p₂.calls ++ [.execvp file (argv ⟨words, redirOut, redirIn⟩)] },
    ?_, h₂, ?_⟩
  · rw [executeScommand, Run.bind_ok holds, copyArguments_eq]
    simp only
    rw [Run.bind_ok input, Run.bind_ok output]
    exact Run.bind_error (executed _ _)
  · cases words with
    | nil => exact absurd rfl nonempty
    | cons word words =>
      rw [execs_append, none₂, none₁]
      rfl

omit quiet in
theorem assert_ok {condition : Bool} (h : condition = true) : assert condition p = (.ok (), p) := by
  rw [assert, if_pos h]

omit quiet in
/-- A command with words can be printed. -/
theorem toString_of_words {sc : Scommand} (nonempty : sc.cmd ≠ []) :
    ∃ text, sc.toString = some text := by
  obtain ⟨words, redirOut, redirIn⟩ := sc
  cases words with
  | nil => exact absurd rfl nonempty
  | cons word words =>
    simp [Scommand.toString, mergeWords, mergeWords_some, mergeRedirection_some]

/-- The two descriptors of a pipe. -/
def ends (pipefd : Int × Int) (pipe : Nat) : List (Int × OpenFile Source) :=
  [(pipefd.1, .readEnd pipe), (pipefd.2, .writeEnd pipe)]

/-- The table below a process whose standard descriptor is an end of a pipe. -/
def attached (base : Int → Option (OpenFile Source)) (standard : Nat) (attach : Bool)
    (f : OpenFile Source) : Int → Option (OpenFile Source) :=
  if attach then Function.update base standard (some f) else base

omit quiet in
theorem attached_apply (standard : Nat) (attach : Bool) (f : OpenFile Source) (fd : Int) :
    attached base standard attach f fd =
      if attach = true ∧ fd = standard then some f else base fd := by
  cases attach <;> simp [attached, Function.update_apply]

omit quiet in
theorem attached_ne_none {standard fd : Nat} {attach : Bool} {f : OpenFile Source}
    (std : base fd ≠ none) : attached base standard attach f fd ≠ none := by
  rw [attached_apply]
  split <;> simp [std]

theorem whenAttach_ok (condition : Bool) {unused used : Int} {standard : Nat} (message : String)
    {f g : OpenFile Source}
    (h : Extends base p.fds ((if condition then [(unused, g), (used, f)] else []) ++ extra))
    (std : base standard ≠ none) :
    ∃ p', Run.when condition (attach fails unused used standard message) p = (.ok (), p') ∧
      Extends (attached base standard condition f) p'.fds extra ∧
      execs p'.calls = execs p.calls := by
  cases condition with
  | false => exact ⟨p, rfl, h, rfl⟩
  | true => exact attach_ok quiet message h std

/-- The child between the pipe before it and the pipe after it. -/
theorem attaches_ok {i length pipe : Nat} {pipefdTmp pipefd : Int × Int}
    (h : Extends base p.fds ((if i != 0 then ends pipefdTmp (pipe - 1) else []) ++
      (if i != length - 1 then ends pipefd pipe else [])))
    (stdin : base (0 : Nat) ≠ none) (stdout : base (1 : Nat) ≠ none) :
    ∃ p', (∀ code : Run Empty, (do
        Run.when (i != 0) (attach fails pipefdTmp.2 pipefdTmp.1 0 "dup2 pipefd_tmp[0]")
        Run.when (i != length - 1) (attach fails pipefd.1 pipefd.2 1 "dup2 pipefd[1]")
        code) p = code p') ∧
      Extends (attached (attached base 0 (i != 0) (.readEnd (pipe - 1)))
        1 (i != length - 1) (.writeEnd pipe)) p'.fds [] ∧
      execs p'.calls = execs p.calls := by
  have swapped := h.perm (List.Perm.append_right _
    (show (if i != 0 then ends pipefdTmp (pipe - 1) else []).Perm
        (if i != 0 then [(pipefdTmp.2, .writeEnd (pipe - 1)), (pipefdTmp.1, .readEnd (pipe - 1))]
          else []) by
      split
      · exact .swap _ _ _
      · exact .nil))
  obtain ⟨p₁, input, h₁, none₁⟩ := whenAttach_ok quiet _ "dup2 pipefd_tmp[0]" swapped stdin
  rw [← List.append_nil (if i != length - 1 then ends pipefd pipe else [])] at h₁
  obtain ⟨p₂, output, h₂, none₂⟩ :=
    whenAttach_ok quiet (i != length - 1) "dup2 pipefd[1]" h₁ (attached_ne_none stdout)
  refine ⟨p₂, fun code => ?_, h₂, none₂.trans none₁⟩
  rw [Run.bind_ok input, Run.bind_ok output]

theorem runChild_ok {i length pipe : Nat} {pipefdTmp pipefd : Int × Int} {sc : Scommand}
    {apipe : Pipeline Scommand} (front : apipe.pipe.head? = some sc) (nonempty : sc.cmd ≠ [])
    (h : Extends base p.fds ((if i != 0 then ends pipefdTmp (pipe - 1) else []) ++
      (if i != length - 1 then ends pipefd pipe else [])))
    (stdin : base (0 : Nat) ≠ none) (stdout : base (1 : Nat) ≠ none) :
    ∃ p', runChild fails i length pipefdTmp pipefd apipe p = (.error .execed, p') ∧
      Extends (redirected (redirected (attached (attached base 0 (i != 0) (.readEnd (pipe - 1)))
        1 (i != length - 1) (.writeEnd pipe)) 0 .rdonly sc.redirIn) 1 .wronlyCreatTrunc
        sc.redirOut) p'.fds [] ∧
      execs p'.calls = execs p.calls ++ [(sc.cmd.head?, argv sc)] := by
  obtain ⟨p₂, attaches, h₂, none₂⟩ := attaches_ok quiet h stdin stdout
  obtain ⟨p₃, executed, h₃, execs₃⟩ := executeScommand_ok quiet nonempty h₂
    (attached_ne_none (attached_ne_none stdin)) (attached_ne_none (attached_ne_none stdout))
  refine ⟨p₃, ?_, h₃, by rw [execs₃, none₂]⟩
  rw [runChild, attaches]
  obtain ⟨rest, pipeEq⟩ : ∃ rest, apipe.pipe = sc :: rest := by
    cases pipeEq : apipe.pipe with
    | nil => simp [pipeEq] at front
    | cons first rest => simp_all
  obtain ⟨text, printed⟩ := toString_of_words nonempty
  simp only [pipeEq, printed]
  exact Run.bind_error executed

end Child

end Sistemas.Mybash.Execute
