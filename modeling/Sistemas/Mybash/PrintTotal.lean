import Sistemas.Mybash.Printing

/-! # Which commands can be printed

`scommand_to_string` over every command that the interface of `command.h` can build, those
without words included.  Its accumulator is `NULL` until there is a word, so a redirection
of a command without words is handed to `strmerge` together with a `NULL`.
-/

namespace Sistemas.Mybash

/-! ## The commands of the interface -/

inductive ScommandCall where
  | pushBack (argument : Text)
  | popFront
  | setRedirIn (filename : Option Text)
  | setRedirOut (filename : Option Text)

/-- `none` when the call's precondition does not hold. -/
def ScommandCall.apply (self : Scommand) : ScommandCall → Option Scommand
  | .pushBack argument => some (self.pushBack argument)
  | .popFront => self.popFront
  | .setRedirIn filename => some (self.setRedirIn filename)
  | .setRedirOut filename => some (self.setRedirOut filename)

/-- `scommand_new` and then the calls. -/
def Scommand.build (calls : List ScommandCall) : Option Scommand :=
  calls.foldlM ScommandCall.apply Scommand.new

/-! ## What is to be printed -/

/-- The words joined by blanks, then the redirections. -/
def Scommand.text (self : Scommand) : Text :=
  [' '].intercalate self.cmd ++ arrowed '>' self.redirOut ++ arrowed '<' self.redirIn

def Scommand.printed (self : Scommand) : Text := trimBlank self.text

def Pipeline.printed (self : Pipeline Scommand) : Text :=
  [' ', '|', ' '].intercalate (self.pipe.map Scommand.printed) ++
    if self.wait then [] else [' ', '&']

/-- A redirection comes after a word. -/
def Scommand.Anchored (self : Scommand) : Prop :=
  self.cmd ≠ [] ∨ self.redirOut = none ∧ self.redirIn = none

instance (sc : Scommand) : Decidable sc.Anchored :=
  inferInstanceAs (Decidable (_ ∨ _))

/-! ## One command -/

theorem intercalate_blank (word : Text) (words : List Text) :
    [' '].intercalate (word :: words) = word ++ spaced words := by
  induction words generalizing word with
  | nil => simp [spaced, List.intercalate]
  | cons next words ih =>
    rw [List.intercalate_cons_cons, ih]
    simp [spaced]

theorem Scommand.Anchored.toString_eq {sc : Scommand} (anchored : sc.Anchored) :
    sc.toString = some sc.printed := by
  obtain ⟨cmd, redirOut, redirIn⟩ := sc
  cases cmd with
  | nil =>
    obtain nonempty | ⟨rfl, rfl⟩ := anchored
    · cases nonempty rfl
    · rfl
  | cons word words =>
    simp only [Scommand.toString, mergeWords, mergeWords_some, mergeRedirection_some,
      Option.bind_eq_bind, Option.bind_some, printed, text, intercalate_blank]

/-- The first redirection finds no text to go after. -/
theorem Scommand.toString_of_not_anchored {sc : Scommand} (bare : ¬ sc.Anchored) :
    sc.toString = none := by
  obtain ⟨cmd, redirOut, redirIn⟩ := sc
  obtain ⟨rfl, redirected⟩ : cmd = [] ∧ ¬ (redirOut = none ∧ redirIn = none) := by
    simpa only [Anchored, not_or, ne_eq, not_not] using bare
  cases redirOut with
  | some file => rfl
  | none =>
    cases redirIn with
    | some file => rfl
    | none => exact absurd ⟨rfl, rfl⟩ redirected

theorem Scommand.toString_eq_some_iff (sc : Scommand) :
    sc.toString = some sc.printed ↔ sc.Anchored := by
  constructor
  · intro here
    by_contra bare
    rw [toString_of_not_anchored bare] at here
    cases here
  · exact Anchored.toString_eq

/-! ## A pipeline -/

theorem mergeCommands_of_anchored {pipe : List Scommand} (result : Text)
    (anchored : ∀ sc ∈ pipe, sc.Anchored) :
    mergeCommands result pipe =
      some (result ++ [' ', '|', ' '].intercalate (pipe.map Scommand.printed)) := by
  induction pipe generalizing result with
  | nil => simp [mergeCommands, List.intercalate]
  | cons sc rest ih =>
    have first := (anchored sc List.mem_cons_self).toString_eq
    have others : ∀ sc ∈ rest, sc.Anchored := fun sc mem => anchored sc (List.mem_cons_of_mem _ mem)
    cases rest with
    | nil => simp [mergeCommands, first, strmerge, List.intercalate]
    | cons next rest =>
      rw [mergeCommands, first]
      simp only [strmerge, List.isEmpty_cons, Option.bind_eq_bind, Option.bind_some,
        Bool.false_eq_true, if_false, ih _ others, List.map_cons]
      rw [List.intercalate_cons_cons]
      simp

theorem mergeCommands_of_bare {pipe : List Scommand} {sc : Scommand} (result : Text)
    (mem : sc ∈ pipe) (bare : ¬ sc.Anchored) : mergeCommands result pipe = none := by
  induction pipe generalizing result with
  | nil => cases mem
  | cons first rest ih =>
    obtain rfl | later := List.mem_cons.mp mem
    · rw [mergeCommands, Scommand.toString_of_not_anchored bare]
      rfl
    · have more : ∀ result, mergeCommands result rest = none := fun result => ih result later
      cases first.toString with
      | none => simp [mergeCommands, *]
      | some text => simp [mergeCommands, strmerge, *]

theorem Pipeline.toString_eq_some_iff (pl : Pipeline Scommand) :
    pl.toString = some pl.printed ↔ ∀ sc ∈ pl.pipe, sc.Anchored := by
  obtain ⟨pipe, wait⟩ := pl
  constructor
  · intro here sc mem
    by_contra bare
    rw [Pipeline.toString, mergeCommands_of_bare [] mem bare] at here
    cases here
  · intro anchored
    -- the assertion at the end holds: `&` alone makes the text nonempty
    cases wait <;>
      simp [Pipeline.toString, mergeCommands_of_anchored [] anchored, Pipeline.printed, strmerge]

/-! ## Every command of the interface -/

/-- A file for the output, and no word: it can be built, and it cannot be printed. -/
theorem redirection_alone_not_printed :
    ∃ sc, Scommand.build [.setRedirOut (some ['o', 'u', 't'])] = some sc ∧
      sc.toString ≠ some sc.printed :=
  ⟨_, rfl, by decide⟩

/-- **What is printed.**  Of the commands that the interface can build, those are printed as
    they should be that have a word or no redirection; and a pipeline of such commands is
    printed as it should be when all of them are of that kind. -/
theorem build_printed_iff {calls : List ScommandCall} {sc : Scommand} {pl : Pipeline Scommand}
    (_built : Scommand.build calls = some sc)
    (_pipe : ∀ sc ∈ pl.pipe, ∃ calls, Scommand.build calls = some sc) :
    (sc.toString = some sc.printed ↔ sc.Anchored) ∧
      (pl.toString = some pl.printed ↔ ∀ sc ∈ pl.pipe, sc.Anchored) :=
  ⟨sc.toString_eq_some_iff, pl.toString_eq_some_iff⟩

/-- `push_back ("ls")`, `set_redir_in ("in")`, `pop_front` and `set_redir_in (NULL)`. -/
theorem build_printed_iff_ls :
    ∃ calls sc, Scommand.build calls = some sc ∧ sc.toString = some [] ∧
      (Pipeline.mk [sc] false).toString = some [' ', '&'] := by
  let calls : List ScommandCall :=
    [.pushBack ['l', 's'], .setRedirIn (some ['i', 'n']), .popFront, .setRedirIn none]
  have built : Scommand.build calls = some Scommand.new := rfl
  have pipe : ∀ sc ∈ (Pipeline.mk [Scommand.new] false).pipe,
      ∃ calls, Scommand.build calls = some sc := by
    intro sc mem
    rw [List.mem_singleton.mp mem]
    exact ⟨calls, built⟩
  obtain ⟨one, all⟩ := build_printed_iff built pipe
  exact ⟨calls, _, built, one.mpr (by decide), all.mpr (by decide)⟩

end Sistemas.Mybash
