import Sistemas.Mybash.LineParsing

/-! # Printing

`scommand_to_string` and `pipeline_to_string` of `command.c`, over `strmerge` of
`strextra.c`.  A `char *` is `none` where it is `NULL`, and a call that `strmerge` does not
survive makes the whole function `none`.

A command is printed as its words, then its output file, then its input file.  As long as
the words and the files are words of the grammar, what is printed is a line of the grammar
that stands for the pipeline (`line_of_printable`), so the parser reads it back.
-/

namespace Sistemas.Mybash

open Sistemas.Mybash.Parser

def strmerge : Option Text → Option Text → Option Text
  | some s1, some s2 => some (s1 ++ s2)
  | _, _ => none

/-! ## scommand_to_string -/

/-- `while (!g_queue_is_empty (scmd_before_string))` -/
def mergeWords (toString : Option Text) : List Text → Option (Option Text)
  | [] => some toString
  | copyHead :: words =>
    match toString with
    | none => mergeWords (some copyHead) words
    | some _ => do
      let space ← strmerge toString (some [' '])
      let merged ← strmerge (some space) (some copyHead)
      mergeWords (some merged) words

/-- One redirection of a command, if it has it. -/
def mergeRedirection (toString : Option Text) (arrow : Text) : Option Text → Option (Option Text)
  | none => some toString
  | some file => do
    let space ← strmerge toString (some arrow)
    let merged ← strmerge (some space) (some file)
    some (some merged)

/-- A blank at the end is cut off. -/
def trimBlank (text : Text) : Text := if text.getLast? = some ' ' then text.dropLast else text

def Scommand.toString (self : Scommand) : Option Text := do
  let text ← mergeWords none self.cmd
  let text ← mergeRedirection text [' ', ' ', '>', ' ', ' '] self.redirOut
  let text ← mergeRedirection text [' ', ' ', '<', ' ', ' '] self.redirIn
  match text with
  | none => some []
  | some text => some (trimBlank text)

/-! ## pipeline_to_string -/

/-- `for (size_t i = 0; i < length; i++)`, from the commands that are left. -/
def mergeCommands (result : Text) : List Scommand → Option Text
  | [] => some result
  | sc :: rest => do
    let scommandString ← sc.toString
    let result ← strmerge (some result) (some scommandString)
    -- `i < length - 1`
    if rest.isEmpty then mergeCommands result rest
    else do
      let result ← strmerge (some result) (some [' ', '|', ' '])
      mergeCommands result rest

def Pipeline.toString (self : Pipeline Scommand) : Option Text := do
  let result ← mergeCommands [] self.pipe
  let result ← if !self.wait then strmerge (some result) (some [' ', '&']) else some result
  -- the assertion at the end
  if self.pipe.isEmpty || self.wait || decide (0 < result.length) then some result else none

/-! ## The text of a command -/

/-- Words, each after a blank. -/
def spaced (words : List Text) : Text := words.flatMap (' ' :: ·)

/-- A redirection after its arrow. -/
def arrowed (arrow : Char) (file : Option Text) : Text :=
  match file with
  | none => []
  | some file => ' ' :: ' ' :: arrow :: ' ' :: ' ' :: file

theorem mergeWords_some (text : Text) (words : List Text) :
    mergeWords (some text) words = some (some (text ++ spaced words)) := by
  induction words generalizing text with
  | nil => simp [mergeWords, spaced]
  | cons word words ih => simp [mergeWords, strmerge, ih, spaced]

theorem mergeRedirection_some (text : Text) (arrow : Char) (file : Option Text) :
    mergeRedirection (some text) [' ', ' ', arrow, ' ', ' '] file =
      some (some (text ++ arrowed arrow file)) := by
  cases file <;> simp [mergeRedirection, strmerge, arrowed]

/-- The words and the files of a command can be read back. -/
structure Scommand.Printable (sc : Scommand) : Prop where
  nonempty : sc.cmd ≠ []
  words : ∀ w ∈ sc.cmd, Word w
  redirOut : ∀ file, sc.redirOut = some file → Word file
  redirIn : ∀ file, sc.redirIn = some file → Word file

structure Pipeline.Printable (pl : Pipeline Scommand) : Prop where
  nonempty : pl.pipe ≠ []
  commands : ∀ sc ∈ pl.pipe, sc.Printable

/-- The text ends in a character of a word. -/
def EndsInWord (t : Text) : Prop := ∃ c, t.getLast? = some c ∧ isWord c = true

theorem Parser.Word.endsInWord {w : Text} (word : Word w) (t : Text) : EndsInWord (t ++ w) := by
  obtain ⟨c, last⟩ := Option.ne_none_iff_exists'.mp (mt List.getLast?_eq_none_iff.mp word.1)
  refine ⟨c, ?_, word.2 c (List.mem_of_getLast? last)⟩
  rw [List.getLast?_append, last]
  rfl

theorem trimBlank_of_endsInWord {t : Text} (ends : EndsInWord t) : trimBlank t = t := by
  obtain ⟨c, last, word⟩ := ends
  rw [trimBlank, if_neg]
  intro blank
  obtain rfl : c = ' ' := Option.some.inj (last.symm.trans blank)
  cases word

theorem EndsInWord.spaced {t : Text} {words : List Text} (ends : EndsInWord t)
    (all : ∀ w ∈ words, Word w) : EndsInWord (t ++ spaced words) := by
  induction words generalizing t with
  | nil => simpa [Mybash.spaced] using ends
  | cons word words ih =>
    have next := (all word List.mem_cons_self).endsInWord (t ++ [' '])
    simpa [Mybash.spaced] using ih next fun w mem => all w (List.mem_cons_of_mem _ mem)

theorem EndsInWord.arrowed {t : Text} {file : Option Text} (ends : EndsInWord t) (arrow : Char)
    (word : ∀ f, file = some f → Word f) : EndsInWord (t ++ arrowed arrow file) := by
  cases file with
  | none => simpa [Mybash.arrowed] using ends
  | some f => simpa [Mybash.arrowed] using (word f rfl).endsInWord (t ++ [' ', ' ', arrow, ' ', ' '])

/-- What is printed for a command: its words, the output file and the input file. -/
theorem toString_of_printable {sc : Scommand} (printable : sc.Printable) :
    ∃ word words, sc.cmd = word :: words ∧ sc.toString =
      some (word ++ spaced words ++ arrowed '>' sc.redirOut ++ arrowed '<' sc.redirIn) := by
  obtain ⟨word, words, cmd⟩ := List.exists_cons_of_ne_nil printable.nonempty
  have first : EndsInWord word := (printable.words word (by simp [cmd])).endsInWord []
  have others : ∀ w ∈ words, Word w := fun w mem => printable.words w (by simp [cmd, mem])
  have ends := ((first.spaced others).arrowed '>' printable.redirOut).arrowed '<' printable.redirIn
  refine ⟨word, words, cmd, ?_⟩
  simp only [Scommand.toString, cmd, mergeWords, mergeWords_some, mergeRedirection_some,
    Option.bind_eq_bind, Option.bind_some, trimBlank_of_endsInWord ends]

/-! ## The items of a command -/

/-- The arguments that the text of a command gives. -/
def Scommand.arguments (sc : Scommand) : List (ArgKind × Text) :=
  sc.cmd.map (ArgKind.normal, ·) ++
    (sc.redirOut.toList.map (ArgKind.output, ·) ++ sc.redirIn.toList.map (ArgKind.input, ·))

theorem describe_arguments (sc : Scommand) : Scommand.describe sc.arguments = sc := by
  obtain ⟨cmd, redirOut, redirIn⟩ := sc
  cases redirOut <;> cases redirIn <;>
    simp [Scommand.describe, Scommand.arguments, ofKind, List.filter_map, Function.comp_def]

section Items

variable {t : Text} {args : List (ArgKind × Text)}

theorem Items.spaced {words : List Text} (items : Items t args) (stop : starts isWord t = false)
    (all : ∀ w ∈ words, Word w) :
    Items (spaced words ++ t) (words.map (ArgKind.normal, ·) ++ args) ∧
      starts isWord (Mybash.spaced words ++ t) = false := by
  induction words with
  | nil => exact ⟨items, stop⟩
  | cons word words ih =>
    obtain ⟨more, stop'⟩ := ih fun w mem => all w (List.mem_cons_of_mem _ mem)
    have here := Items.word (b := [' ']) (by decide) (all word List.mem_cons_self) stop' more
    exact ⟨by simpa [Mybash.spaced] using here, rfl⟩

theorem Items.arrowed {kind : ArgKind} {file : Option Text} (items : Items t args)
    (stop : starts isWord t = false) (arrow : Char) (redir : redirection arrow = some kind)
    (word : ∀ f, file = some f → Word f) :
    Items (arrowed arrow file ++ t) (file.toList.map (kind, ·) ++ args) ∧
      starts isWord (Mybash.arrowed arrow file ++ t) = false := by
  cases file with
  | none => exact ⟨items, stop⟩
  | some f =>
    have here := Items.file (b := [' ', ' ']) (c := arrow) (by decide) redir
      (show Blanks [' ', ' '] by decide) (word f rfl) stop items
    exact ⟨by simpa [Mybash.arrowed] using here, rfl⟩

end Items

/-- What is printed for a command is the text of the command, whatever blanks are around
    it. -/
theorem cmd_of_printable {sc : Scommand} (printable : sc.Printable) :
    ∃ t, sc.toString = some t ∧
      ∀ b b', Blanks b → Blanks b' → Cmd (b ++ (t ++ b')) sc.arguments := by
  obtain ⟨word, words, cmd, text⟩ := toString_of_printable printable
  refine ⟨_, text, fun b b' blanks blanks' => ?_⟩
  have stop : starts isWord b' = false := by
    cases b' with
    | nil => rfl
    | cons c b' =>
      have blank := blanks' c List.mem_cons_self
      simp_all [isBlank, isWord]
      grind
  have others : ∀ w ∈ words, Word w := fun w mem => printable.words w (by simp [cmd, mem])
  obtain ⟨ins, stop₁⟩ := (Items.nil blanks').arrowed stop '<' rfl printable.redirIn
  obtain ⟨outs, stop₂⟩ := ins.arrowed stop₁ '>' rfl printable.redirOut
  obtain ⟨more, stop₃⟩ := outs.spaced stop₂ others
  have items := Items.word blanks (printable.words word (by simp [cmd])) stop₃ more
  constructor
  · simpa [Scommand.arguments, cmd] using items
  · simp [Scommand.arguments, ofKind, cmd]

/-! ## The line of a pipeline -/

/-- What the loop of `pipeline_to_string` appends is the text of the commands. -/
theorem cmds_of_printable {pipe : List Scommand} (nonempty : pipe ≠ [])
    (printable : ∀ sc ∈ pipe, sc.Printable) :
    ∃ t, (∀ result, mergeCommands result pipe = some (result ++ t)) ∧
      ∀ b b', Blanks b → Blanks b' → Cmds (b ++ (t ++ b')) (pipe.map Scommand.arguments) := by
  induction pipe with
  | nil => cases nonempty rfl
  | cons sc rest ih =>
    obtain ⟨s, text, cmd⟩ := cmd_of_printable (printable sc List.mem_cons_self)
    cases rest with
    | nil =>
      refine ⟨s, fun result => ?_, fun b b' blanks blanks' => .one (cmd b b' blanks blanks')⟩
      simp [mergeCommands, text, strmerge]
    | cons next rest =>
      obtain ⟨t, merged, cmds⟩ := ih (by simp) fun sc mem => printable sc (List.mem_cons_of_mem _ mem)
      refine ⟨s ++ ([' ', '|', ' '] ++ t), fun result => ?_, fun b b' blanks blanks' => ?_⟩
      · rw [mergeCommands, text]
        simp [strmerge, merged]
      · -- the blanks around `|` go to the commands on both sides
        have here := Cmds.cons (cmd b [' '] blanks (by decide)) (cmds [' '] b' (by decide) blanks')
        simpa using here

/-- What is printed for a pipeline is a line that stands for it. -/
theorem line_of_printable {pl : Pipeline Scommand} (printable : pl.Printable) :
    ∃ t, pl.toString = some t ∧ '\n' ∉ t ∧ Line t pl := by
  obtain ⟨t, merged, cmds⟩ := cmds_of_printable printable.nonempty printable.commands
  have described : (pl.pipe.map Scommand.arguments).map Scommand.describe = pl.pipe := by
    simp [Function.comp_def, describe_arguments]
  obtain ⟨pipe, wait⟩ := pl
  cases wait with
  | true =>
    have here : Cmds t (pipe.map Scommand.arguments) := by
      simpa using cmds [] [] (by decide) (by decide)
    refine ⟨t, by simp [Pipeline.toString, merged], here.no_newline, ?_⟩
    have line := Line.foreground here
    rwa [described] at line
  | false =>
    have here : Cmds (t ++ [' ']) (pipe.map Scommand.arguments) := by
      simpa using cmds [] [' '] (by decide) (by decide)
    refine ⟨t ++ [' ', '&'], by simp [Pipeline.toString, merged, strmerge], ?_, ?_⟩
    · have inside := here.no_newline
      simp_all
    · have line := Line.background (b := []) here (by decide)
      rw [described] at line
      simpa using line

/-- **Printing and parsing.**  A pipeline whose words and files are words of the grammar is
    printed, and `parse_pipeline` reads it back from what is printed and a newline. -/
theorem parse_toString (pl : Pipeline Scommand) (printable : pl.Printable) :
    ∃ t, pl.toString = some t ∧
      ∀ w : World, w.rest = t ++ ['\n'] → accepted w = some pl := by
  obtain ⟨t, text, inside, line⟩ := line_of_printable printable
  refine ⟨t, text, fun w here => accepted_of_line ?_⟩
  rw [here, firstLine_append _ inside]
  simpa [firstLine] using line

/-- `ls -l  >  out | wc  <  in &` -/
def lsPipeline : Pipeline Scommand where
  pipe :=
    [{ cmd := [['l', 's'], ['-', 'l']], redirOut := some ['o', 'u', 't'], redirIn := none },
     { cmd := [['w', 'c']], redirOut := none, redirIn := some ['i', 'n'] }]
  wait := false

theorem parse_toString_lsPipeline : lsPipeline.Printable ∧ ∃ t, lsPipeline.toString = some t ∧
    ∀ w : World, w.rest = t ++ ['\n'] → accepted w = some lsPipeline := by
  have printable : lsPipeline.Printable := by
    constructor
    · decide
    · intro sc mem
      simp only [lsPipeline, List.mem_cons, List.not_mem_nil, or_false] at mem
      obtain rfl | rfl := mem
      · exact ⟨by decide, by decide, by simp; decide, by simp⟩
      · exact ⟨by decide, by decide, by simp, by simp; decide⟩
  exact ⟨printable, parse_toString lsPipeline printable⟩

end Sistemas.Mybash
