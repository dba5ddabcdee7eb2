import Sistemas.Mybash.Grammar

/-! # What parse_pipeline accepts

`parse_pipeline` returns the pipeline of a line, and `NULL` for a text that is not one, with
one exception: its test for an error is inside the branch for "not at the end of the file".
An input that ends in the middle of a pipeline (`Truncated`) is accepted with the commands
read so far.
-/

namespace Sistemas.Mybash

open Sistemas.Mybash.Parser

/-- At the end of a line or of the text. -/
def AtLineEnd (t : Text) : Prop := starts (· ≠ '\n') t = false

theorem firstLine_lineEnd {t : Text} (h : AtLineEnd t) : firstLine t = [] := takeWhile_of_starts h

theorem atLineEnd_iff {t : Text} : AtLineEnd t ↔ t = [] ∨ ∃ u, t = '\n' :: u := by
  cases t with
  | nil => simp [AtLineEnd]
  | cons c t => simp [AtLineEnd]

theorem AtLineEnd.ends {t : Text} (h : AtLineEnd t) : Ends t := by
  rcases atLineEnd_iff.mp h with rfl | ⟨u, rfl⟩ <;> exact ⟨⟨rfl, rfl, rfl⟩, rfl⟩

theorem ends_background (t : Text) : Ends ('&' :: t) := ⟨⟨rfl, rfl, rfl⟩, rfl⟩

theorem Ends.cases {t : Text} (ends : Ends t) : AtLineEnd t ∨ ∃ u, t = '&' :: u := by
  cases t with
  | nil => exact .inl rfl
  | cons c t =>
    obtain ⟨⟨notBlank, notWord, notRedirection⟩, notPipe⟩ := ends
    by_cases newline : c = '\n'
    · exact .inl (by simp [AtLineEnd, newline])
    · by_cases amp : c = '&'
      · exact .inr ⟨t, by rw [amp]⟩
      · simp_all [isBlank, isWord, redirection]
        grind

theorem firstLine_split (t : Text) : ∃ r, t = firstLine t ++ r ∧ AtLineEnd r := by
  rcases line_split t with ⟨h, -⟩ | h
  · exact ⟨[], by simpa using h, rfl⟩
  · exact ⟨_, h, by simp [AtLineEnd]⟩

/-! ## The result, by what the loop has read -/

section Result

variable {w : World} {rest : Text} {segs : List (List (ArgKind × Text))}
  {failed : Option (List (ArgKind × Text))}

/-- The value of what `parse_pipeline` returns. -/
def accepted (w : World) : Option (Pipeline Scommand) := (parsePipeline w).1.map PipelineRef.erase

theorem erase_segmentPipeline (fresh : Nat) (segs : List (List (ArgKind × Text))) (wait : Bool) :
    (segmentPipeline fresh segs wait).erase = { pipe := segs.map Scommand.describe, wait := wait } := by
  have values : ∀ fresh, (segmentRefs fresh segs).map Ref.value = segs.map Scommand.describe := by
    induction segs with
    | nil => exact fun _ => rfl
    | cons args segs ih => exact fun fresh => by simp [segmentRefs, ih, ofArguments_eq]
  simp [PipelineRef.erase, segmentPipeline, Pipeline.map, values]

theorem accepted_eof (h : Segments w.rest segs failed []) :
    accepted w = some { pipe := segs.map Scommand.describe, wait := true } := by
  rw [accepted, parsePipeline_eq h]
  simp [erase_segmentPipeline]

theorem accepted_failed {args : List (ArgKind × Text)} (h : Segments w.rest segs (some args) rest)
    (more : rest ≠ []) : accepted w = none := by
  rw [accepted, parsePipeline_eq h, if_neg more]
  split <;> simp

theorem Cmds.ne_nil {t : Text} (cmds : Cmds t segs) : segs ≠ [] := by
  cases cmds <;> simp

theorem Segments.ne_nil (h : Segments w.rest segs none rest) : segs ≠ [] := by
  obtain ⟨-, t, -, cmds, -⟩ := h.split
  exact cmds.ne_nil

theorem accepted_foreground (h : Segments w.rest segs none rest) (stop : AtLineEnd rest) :
    accepted w = some { pipe := segs.map Scommand.describe, wait := true } := by
  rcases atLineEnd_iff.mp stop with rfl | ⟨u, rfl⟩
  · exact accepted_eof h
  · rw [accepted, parsePipeline_eq h]
    simp [opBackground, op, garbage, firstLine, h.ne_nil, erase_segmentPipeline]

theorem garbage_iff (t : Text) : (garbage t).1 = false ↔ Blanks (firstLine t) := by
  simp [garbage, Blanks]

theorem accepted_background {u : Text} (h : Segments w.rest segs none ('&' :: u)) :
    accepted w = if (garbage u).1 then none
      else some { pipe := segs.map Scommand.describe, wait := false } := by
  have hit : opBackground ('&' :: u) = (true, u) := rfl
  rw [accepted, parsePipeline_eq h, if_neg (by simp), hit]
  by_cases found : (garbage u).1 = true
  · simp only [if_pos found, Option.map_none]
  · simp only [if_neg found]
    simp [h.ne_nil, erase_segmentPipeline]

end Result

/-! ## Lines -/

theorem Line.segments {t : Text} {pl : Pipeline Scommand} (line : Line (firstLine t) pl) :
    ∃ segs rest, Segments t segs none rest ∧
      (AtLineEnd rest ∧ pl = { pipe := segs.map Scommand.describe, wait := true } ∨
       ∃ u, rest = '&' :: u ∧ Blanks (firstLine u) ∧
        pl = { pipe := segs.map Scommand.describe, wait := false }) := by
  obtain ⟨r, split, stop⟩ := firstLine_split t
  generalize firstLine t = l at line split
  subst split
  cases line with
  | foreground cmds => exact ⟨_, r, cmds.segments stop.ends, .inl ⟨stop, rfl⟩⟩
  | @background t b _ cmds blanks =>
    refine ⟨_, '&' :: (b ++ r), ?_, .inr ⟨b ++ r, rfl, ?_, rfl⟩⟩
    · rw [List.append_assoc]
      exact cmds.segments (ends_background _)
    · rw [firstLine_append r blanks.no_newline, firstLine_lineEnd stop, List.append_nil]
      exact blanks

theorem Broken.read {t : Text} {segs : List (List (ArgKind × Text))} {args : List (ArgKind × Text)}
    (broken : Broken t segs args) : Segments t segs (some args) [] := by
  have read : Segments (t ++ []) segs (some args) [] := broken.segments (AtLineEnd.ends rfl)
  rwa [List.append_nil] at read

theorem accepted_of_line {w : World} {pl : Pipeline Scommand} (line : Line (firstLine w.rest) pl) :
    accepted w = some pl := by
  obtain ⟨segs, rest, read, ⟨stop, rfl⟩ | ⟨u, rfl, blanks, rfl⟩⟩ := line.segments
  · exact accepted_foreground read stop
  · rw [accepted_background read, if_neg]
    simp [(garbage_iff u).mpr blanks]

theorem line_of_accepted {w : World} {pl : Pipeline Scommand} (whole : ¬ Truncated w.rest)
    (h : accepted w = some pl) : Line (firstLine w.rest) pl := by
  obtain ⟨segs, failed, rest, read⟩ := segments_exist w.rest
  obtain ⟨-, t, split, text⟩ := read.split
  cases failed with
  | some args =>
    exfalso
    cases rest with
    | nil => exact whole ⟨segs, args, by rw [split, List.append_nil]; exact text⟩
    | cons c rest =>
      rw [accepted_failed read (by simp)] at h
      cases h
  | none =>
    obtain ⟨cmds, ends⟩ := text
    rw [split, firstLine_append rest cmds.no_newline]
    rcases ends.cases with stop | ⟨u, rfl⟩
    · obtain rfl : _ = pl := Option.some.inj ((accepted_foreground read stop).symm.trans h)
      rw [firstLine_lineEnd stop, List.append_nil]
      exact .foreground cmds
    · rw [accepted_background read] at h
      split at h
      next => cases h
      next clean =>
        cases h
        have blanks := (garbage_iff u).mp (by simpa using clean)
        exact .background cmds blanks

theorem Truncated.not_accepts {w : World} (truncated : Truncated w.rest) :
    ¬ ∀ pl, accepted w = some pl ↔ Line (firstLine w.rest) pl := by
  intro accepts
  obtain ⟨segs, args, broken⟩ := truncated
  have line := (accepts _).mp (accepted_eof broken.read)
  obtain ⟨segs', rest', read', -⟩ := line.segments
  obtain ⟨-, same, -⟩ := broken.read.unique read'
  cases same

/-- **What `parse_pipeline` accepts.**  It returns exactly the pipelines of lines, and `NULL`
    otherwise, if and only if the input does not end in the middle of a pipeline. -/
theorem accepts_iff (w : World) :
    (∀ pl, accepted w = some pl ↔ Line (firstLine w.rest) pl) ↔ ¬ Truncated w.rest := by
  constructor
  · intro accepts truncated
    exact truncated.not_accepts accepts
  · intro whole pl
    exact ⟨line_of_accepted whole, accepted_of_line⟩

/-- The pipeline at the beginning of a text: that of the first line, or the complete commands
    of a text that ends in the middle of a pipeline. -/
inductive Opens : Text → Pipeline Scommand → Prop where
  | line {t : Text} {pl : Pipeline Scommand} : Line (firstLine t) pl → Opens t pl
  | truncated {t : Text} {segs : List (List (ArgKind × Text))} {args : List (ArgKind × Text)} :
      Broken t segs args → Opens t { pipe := segs.map Scommand.describe, wait := true }

/-- `parse_pipeline` returns the pipeline at the beginning of what is left, if there is one. -/
theorem accepted_iff_opens {w : World} {pl : Pipeline Scommand} :
    accepted w = some pl ↔ Opens w.rest pl := by
  constructor
  · intro result
    by_cases whole : Truncated w.rest
    · obtain ⟨segs, args, broken⟩ := whole
      obtain rfl := Option.some.inj ((accepted_eof broken.read).symm.trans result)
      exact .truncated broken
    · exact .line (line_of_accepted whole result)
  · intro opens
    cases opens with
    | line line => exact accepted_of_line line
    | truncated broken => exact accepted_eof broken.read

def World.ofText (t : Text) : World := { rest := t, live := true, fresh := 0, trace := [] }

/-- The input `ls |` without an end of line is accepted with one command; it is not a
    line. -/
theorem truncated_accepted :
    accepted (.ofText ['l', 's', ' ', '|']) =
      some { pipe := [{ cmd := [['l', 's']], redirOut := none, redirIn := none }], wait := true } ∧
    ¬ ∀ pl, accepted (.ofText ['l', 's', ' ', '|']) = some pl ↔
      Line (firstLine ['l', 's', ' ', '|']) pl := by
  have items : Items ['l', 's', ' '] [(.normal, ['l', 's'])] :=
    .word (b := []) (w := ['l', 's']) (t := [' ']) (by decide) (by decide) rfl (.nil (by decide))
  have truncated : Truncated ['l', 's', ' ', '|'] :=
    ⟨_, _, .cons (u := []) ⟨items, by decide⟩ (.empty (.nil (by decide)) rfl)⟩
  exact ⟨by decide, Truncated.not_accepts (w := .ofText _) truncated⟩

end Sistemas.Mybash
