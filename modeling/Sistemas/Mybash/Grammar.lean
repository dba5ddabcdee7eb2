import Mathlib.Data.List.Induction
import Sistemas.Mybash.Parsing

/-! # The grammar of a line

What a line means, as relations on its text and independent of how it is read:
`Items` are the words and redirections of one command, `Cmds` is one command or more with `|`
between them, and `Line` adds the `&` at the end.  `Broken` is a text that stops short:
complete commands, each with its `|`, and then one that has no word or ends in a
redirection without a file.

`Segments`, what the loops of `parse_pipeline` read, is the same thing seen from the left
(`Cmds.segments`, `Broken.segments` and, the other way, `Segments.split`).
-/

namespace Sistemas.Mybash

open Sistemas.Mybash.Parser

def ofKind (kind : ArgKind) (args : List (ArgKind × Text)) : List Text :=
  (args.filter (·.1 = kind)).map Prod.snd

/-- The command with these arguments: its words in order, and the last file given for each
    redirection. -/
def Scommand.describe (args : List (ArgKind × Text)) : Scommand where
  cmd := ofKind .normal args
  redirOut := (ofKind .output args).getLast?
  redirIn := (ofKind .input args).getLast?

/-- The words and redirections of a command.  Two words in a row have a blank between
    them. -/
inductive Items : Text → List (ArgKind × Text) → Prop where
  | nil {b : Text} : Blanks b → Items b []
  | word {b w t : Text} {args : List (ArgKind × Text)} : Blanks b → Word w →
      starts isWord t = false → Items t args → Items (b ++ (w ++ t)) ((.normal, w) :: args)
  | file {b b' w t : Text} {c : Char} {kind : ArgKind} {args : List (ArgKind × Text)} : Blanks b →
      redirection c = some kind → Blanks b' → Word w → starts isWord t = false → Items t args →
      Items (b ++ c :: (b' ++ (w ++ t))) ((kind, w) :: args)

/-- A command has at least one word. -/
structure Cmd (t : Text) (args : List (ArgKind × Text)) : Prop where
  items : Items t args
  word : ofKind .normal args ≠ []

inductive Cmds : Text → List (List (ArgKind × Text)) → Prop where
  | one {t : Text} {args : List (ArgKind × Text)} : Cmd t args → Cmds t [args]
  | cons {t u : Text} {args : List (ArgKind × Text)} {segs : List (List (ArgKind × Text))} :
      Cmd t args → Cmds u segs → Cmds (t ++ '|' :: u) (args :: segs)

/-- Complete commands, then one that is not. -/
inductive Broken : Text → List (List (ArgKind × Text)) → List (ArgKind × Text) → Prop where
  | empty {t : Text} {args : List (ArgKind × Text)} : Items t args → ofKind .normal args = [] →
      Broken t [] args
  | dangling {t b : Text} {c : Char} {kind : ArgKind} {args : List (ArgKind × Text)} :
      Items t args → redirection c = some kind → Blanks b → Broken (t ++ c :: b) [] args
  | cons {t u : Text} {args last : List (ArgKind × Text)} {segs : List (List (ArgKind × Text))} :
      Cmd t args → Broken u segs last → Broken (t ++ '|' :: u) (args :: segs) last

inductive Line : Text → Pipeline Scommand → Prop where
  | foreground {t : Text} {segs : List (List (ArgKind × Text))} : Cmds t segs →
      Line t { pipe := segs.map Scommand.describe, wait := true }
  | background {t b : Text} {segs : List (List (ArgKind × Text))} : Cmds t segs → Blanks b →
      Line (t ++ '&' :: b) { pipe := segs.map Scommand.describe, wait := false }

/-- The input ends in the middle of a pipeline. -/
def Truncated (t : Text) : Prop := ∃ segs args, Broken t segs args

/-- A line with nothing after its commands, complete or broken, but a `&` and blanks. -/
def CleanLine (l : Text) : Prop :=
  ∃ t, ((∃ segs, Cmds t segs) ∨ Truncated t) ∧ (l = t ∨ ∃ b, Blanks b ∧ l = t ++ '&' :: b)

/-! ## The command of the arguments -/

theorem ofArguments_eq (args : List (ArgKind × Text)) :
    Scommand.ofArguments args = .describe args := by
  induction args using List.reverseRecOn with
  | nil => rfl
  | append_singleton args arg ih =>
    obtain ⟨kind, w⟩ := arg
    rw [Scommand.ofArguments, List.foldl_append, ← Scommand.ofArguments, ih]
    cases kind <;>
      simp [Scommand.add, Scommand.pushBack, Scommand.setRedirIn, Scommand.setRedirOut,
        Scommand.describe, ofKind]

theorem fails_iff {args : List (ArgKind × Text)} {kind : ArgKind} :
    Fails args kind ↔ kind ≠ .normal ∨ ofKind .normal args = [] := by
  simp [Fails, ofArguments_eq, Scommand.isEmpty, Scommand.describe]

/-! ## No ends of line -/

theorem Items.no_newline {t : Text} {args : List (ArgKind × Text)} (items : Items t args) :
    '\n' ∉ t := by
  induction items with
  | nil blanks => exact blanks.no_newline
  | word blanks word _ _ ih => simp [blanks.no_newline, word.no_newline, ih]
  | file blanks redir blanks' word _ _ ih =>
    simp [blanks.no_newline, redirection_ne_newline redir, blanks'.no_newline, word.no_newline, ih]

theorem Cmds.no_newline {t : Text} {segs : List (List (ArgKind × Text))} (cmds : Cmds t segs) :
    '\n' ∉ t := by
  induction cmds with
  | one cmd => exact cmd.items.no_newline
  | cons cmd _ ih => simp [cmd.items.no_newline, ih]

theorem Broken.no_newline {t : Text} {segs : List (List (ArgKind × Text))}
    {args : List (ArgKind × Text)} (broken : Broken t segs args) : '\n' ∉ t := by
  induction broken with
  | empty items => exact items.no_newline
  | dangling items redir blanks =>
    simp [items.no_newline, redirection_ne_newline redir, blanks.no_newline]
  | cons cmd _ ih => simp [cmd.items.no_newline, ih]

/-! ## Arguments -/

/-- Where the last, empty, lexeme of a command begins: at an end, or at a redirection
    without a file. -/
inductive Tail : Text → ArgKind → Text → Prop where
  | stop {t : Text} : Stops t → Tail t .normal t
  | dangling {b t : Text} {c : Char} {kind : ArgKind} : redirection c = some kind → Blanks b →
      starts isBlank t = false → starts isWord t = false → Tail (c :: (b ++ t)) kind t

theorem Tail.not_word {u rest : Text} {kind : ArgKind} (tail : Tail u kind rest) :
    starts isWord u = false := by
  cases tail with
  | stop stops => exact stops.2.1
  | dangling redir => exact redirection_not_word redir

theorem Tail.lexeme {b u rest : Text} {kind : ArgKind} (tail : Tail u kind rest) (blanks : Blanks b) :
    Lexeme (b ++ u) none kind rest := by
  cases tail with
  | stop stops => exact .stop blanks stops
  | dangling redir blanks' solid stop => exact .dangling blanks redir blanks' solid stop

theorem tail_of_lexeme {t rest : Text} {kind : ArgKind} (h : Lexeme t none kind rest) :
    ∃ b u, Blanks b ∧ t = b ++ u ∧ Tail u kind rest := by
  cases h with
  | dangling blanks redir blanks' solid stop =>
    exact ⟨_, _, blanks, rfl, .dangling redir blanks' solid stop⟩
  | stop blanks stops => exact ⟨_, _, blanks, rfl, .stop stops⟩

theorem Items.arguments {t u rest : Text} {args : List (ArgKind × Text)} {kind : ArgKind}
    (items : Items t args) (tail : Tail u kind rest) : Arguments (t ++ u) args kind rest := by
  induction items with
  | nil blanks => exact .stop (tail.lexeme blanks)
  | word blanks word stop _ ih =>
    simp only [List.append_assoc]
    exact .cons (.word blanks word (starts_append stop tail.not_word)) ih
  | file blanks redir blanks' word stop _ ih =>
    simp only [List.append_assoc, List.cons_append]
    exact .cons (.file blanks redir blanks' word (starts_append stop tail.not_word)) ih

theorem starts_of_append {p : Char → Bool} {t u : Text} (h : starts p (t ++ u) = false) :
    starts p t = false := by
  cases t with
  | nil => rfl
  | cons c t => exact h

theorem Arguments.items {t rest : Text} {args : List (ArgKind × Text)} {kind : ArgKind}
    (h : Arguments t args kind rest) : ∃ t' u, t = t' ++ u ∧ Items t' args ∧ Tail u kind rest := by
  induction h with
  | stop lexeme =>
    obtain ⟨b, u, blanks, rfl, tail⟩ := tail_of_lexeme lexeme
    exact ⟨b, u, rfl, .nil blanks, tail⟩
  | @cons _ w _ _ _ _ _ lexeme _ ih =>
    obtain ⟨t', u, rfl, items, tail⟩ := ih
    cases lexeme with
    | @word b _ _ blanks word stop =>
      exact ⟨b ++ (w ++ t'), u, by simp, .word blanks word (starts_of_append stop) items, tail⟩
    | @file b b' _ _ c _ blanks redir blanks' word stop =>
      exact ⟨b ++ c :: (b' ++ (w ++ t')), u, by simp,
        .file blanks redir blanks' word (starts_of_append stop) items, tail⟩

theorem Arguments.unique {t rest rest' : Text} {args args' : List (ArgKind × Text)}
    {kind kind' : ArgKind} (h : Arguments t args kind rest) (h' : Arguments t args' kind' rest') :
    args = args' ∧ kind = kind' ∧ rest = rest' := by
  induction h generalizing args' with
  | stop lexeme =>
    cases h' with
    | stop lexeme' =>
      have := lexeme.nextArgument_eq.symm.trans lexeme'.nextArgument_eq
      grind
    | cons lexeme' _ =>
      have := lexeme.nextArgument_eq.symm.trans lexeme'.nextArgument_eq
      grind
  | cons lexeme _ ih =>
    cases h' with
    | stop lexeme' =>
      have := lexeme.nextArgument_eq.symm.trans lexeme'.nextArgument_eq
      grind
    | cons lexeme' more' =>
      have same := lexeme.nextArgument_eq.symm.trans lexeme'.nextArgument_eq
      simp only [Prod.mk.injEq, Option.some.injEq] at same
      obtain ⟨rfl, rfl, rfl⟩ := same
      obtain ⟨rfl, rfl, rfl⟩ := ih more'
      exact ⟨rfl, rfl, rfl⟩

/-! ## Segments -/

/-- Where the commands of a line end: at the end of the text, of the line, or at `&`. -/
def Ends (t : Text) : Prop := Stops t ∧ starts (· = '|') t = false

theorem opPipe_ends {t : Text} (ends : Ends t) : opPipe t = (false, t) := by
  cases t with
  | nil => rfl
  | cons c t =>
    have : c ≠ '|' := by simpa using ends.2
    simp [opPipe, op, this]

theorem skipBlanks_stops {t : Text} (stops : Stops t) : skipBlanks t = t :=
  dropWhile_of_starts stops.1

theorem stops_pipe (t : Text) : Stops ('|' :: t) := ⟨rfl, rfl, rfl⟩

theorem Cmd.not_fails {t : Text} {args : List (ArgKind × Text)} (cmd : Cmd t args) :
    ¬ Fails args .normal := by
  rw [fails_iff]
  simpa using cmd.word

theorem Cmd.segments {t u rest : Text} {args : List (ArgKind × Text)}
    {segs : List (List (ArgKind × Text))} {failed : Option (List (ArgKind × Text))}
    (cmd : Cmd t args) (more : Segments u segs failed rest) :
    Segments (t ++ '|' :: u) (args :: segs) failed rest := by
  refine .more (cmd.items.arguments (.stop (stops_pipe u))) cmd.not_fails ?_ more
  rw [skipBlanks_stops (stops_pipe u)]
  rfl

theorem Cmds.segments {t rest : Text} {segs : List (List (ArgKind × Text))} (cmds : Cmds t segs)
    (ends : Ends rest) : Segments (t ++ rest) segs none rest := by
  induction cmds with
  | one cmd =>
    have last := Segments.last (cmd.items.arguments (.stop ends.1)) cmd.not_fails
      (by rw [skipBlanks_stops ends.1, opPipe_ends ends])
    rwa [skipBlanks_stops ends.1] at last
  | cons cmd _ ih =>
    rw [List.append_assoc]
    exact cmd.segments ih

theorem Broken.segments {t rest : Text} {segs : List (List (ArgKind × Text))}
    {args : List (ArgKind × Text)} (broken : Broken t segs args) (ends : Ends rest) :
    Segments (t ++ rest) segs (some args) rest := by
  induction broken with
  | empty items none =>
    exact .fail (items.arguments (.stop ends.1)) (fails_iff.mpr (.inr none))
  | dangling items redir blanks =>
    rw [List.append_assoc]
    exact .fail (items.arguments (.dangling redir blanks ends.1.1 ends.1.2.1))
      (fails_iff.mpr (.inl (redirection_not_normal redir)))
  | cons cmd _ ih =>
    rw [List.append_assoc]
    exact cmd.segments ih

/-- What a round of the loop that does not fail has read: a command, up to a stop. -/
theorem Arguments.cmd {t rest : Text} {args : List (ArgKind × Text)} {kind : ArgKind}
    (h : Arguments t args kind rest) (ok : ¬ Fails args kind) :
    ∃ t', t = t' ++ rest ∧ Cmd t' args ∧ Stops rest := by
  rw [fails_iff, not_or, not_not] at ok
  obtain ⟨rfl, word⟩ := ok
  obtain ⟨t', u, rfl, items, tail⟩ := h.items
  cases tail with
  | stop stops => exact ⟨t', rfl, ⟨items, word⟩, stops⟩
  | dangling redir => exact absurd rfl (redirection_not_normal redir)

theorem opPipe_hit {t next : Text} (h : opPipe t = (true, next)) : t = '|' :: next := by
  cases t with
  | nil => cases h
  | cons c t =>
    by_cases same : c = '|'
    · subst same
      simpa [opPipe, op] using h
    · simp [opPipe, op, same] at h

theorem opPipe_miss {t : Text} (h : (opPipe t).1 = false) : starts (· = '|') t = false := by
  cases t with
  | nil => rfl
  | cons c t =>
    by_cases same : c = '|'
    · simp [opPipe, op, same] at h
    · simpa using same

def ReadBy (t : Text) (segs : List (List (ArgKind × Text))) (rest : Text) :
    Option (List (ArgKind × Text)) → Prop
  | none => Cmds t segs ∧ Ends rest
  | some args => Broken t segs args

/-- The loop reads commands and leaves no blank. -/
theorem Segments.split {t rest : Text} {segs : List (List (ArgKind × Text))}
    {failed : Option (List (ArgKind × Text))} (h : Segments t segs failed rest) :
    starts isBlank rest = false ∧ ∃ t', t = t' ++ rest ∧ ReadBy t' segs rest failed := by
  induction h with
  | fail arguments fails =>
    obtain ⟨t', u, rfl, items, tail⟩ := arguments.items
    cases tail with
    | stop stops =>
      refine ⟨stops.1, t', rfl, .empty items ?_⟩
      simpa [fails_iff] using fails
    | @dangling b _ c _ redir blanks solid _ =>
      exact ⟨solid, t' ++ c :: b, by simp, .dangling items redir blanks⟩
  | last arguments ok miss =>
    obtain ⟨t', rfl, cmd, stops⟩ := arguments.cmd ok
    rw [skipBlanks_stops stops] at miss ⊢
    exact ⟨stops.1, t', rfl, .one cmd, stops, opPipe_miss miss⟩
  | @more _ _ _ _ _ _ _ failed arguments ok hit _ ih =>
    obtain ⟨t', rfl, cmd, stops⟩ := arguments.cmd ok
    rw [skipBlanks_stops stops] at hit
    obtain rfl := opPipe_hit hit
    obtain ⟨solid, u, rfl, read⟩ := ih
    refine ⟨solid, t' ++ '|' :: u, by simp, ?_⟩
    cases failed with
    | none => exact ⟨.cons cmd read.1, read.2⟩
    | some args => exact .cons cmd read

theorem Segments.unique {t rest rest' : Text} {segs segs' : List (List (ArgKind × Text))}
    {failed failed' : Option (List (ArgKind × Text))} (h : Segments t segs failed rest)
    (h' : Segments t segs' failed' rest') : segs = segs' ∧ failed = failed' ∧ rest = rest' := by
  induction h generalizing segs' failed' rest' with
  | fail arguments fails =>
    cases h' with
    | fail arguments' fails' =>
      obtain ⟨rfl, rfl, rfl⟩ := arguments.unique arguments'
      exact ⟨rfl, rfl, rfl⟩
    | last arguments' ok' _ | more arguments' ok' _ _ =>
      obtain ⟨rfl, rfl, rfl⟩ := arguments.unique arguments'
      exact absurd fails ok'
  | last arguments ok miss =>
    cases h' with
    | fail arguments' fails' =>
      obtain ⟨rfl, rfl, rfl⟩ := arguments.unique arguments'
      exact absurd fails' ok
    | last arguments' ok' _ =>
      obtain ⟨rfl, rfl, rfl⟩ := arguments.unique arguments'
      exact ⟨rfl, rfl, rfl⟩
    | more arguments' ok' hit' _ =>
      obtain ⟨rfl, rfl, rfl⟩ := arguments.unique arguments'
      simp [hit'] at miss
  | more arguments ok hit _ ih =>
    cases h' with
    | fail arguments' fails' =>
      obtain ⟨rfl, rfl, rfl⟩ := arguments.unique arguments'
      exact absurd fails' ok
    | last arguments' ok' miss' =>
      obtain ⟨rfl, rfl, rfl⟩ := arguments.unique arguments'
      simp [hit] at miss'
    | more arguments' ok' hit' more' =>
      obtain ⟨rfl, rfl, rfl⟩ := arguments.unique arguments'
      obtain rfl : _ = _ := congrArg Prod.snd (hit.symm.trans hit')
      obtain ⟨rfl, rfl, rfl⟩ := ih more'
      exact ⟨rfl, rfl, rfl⟩

end Sistemas.Mybash
