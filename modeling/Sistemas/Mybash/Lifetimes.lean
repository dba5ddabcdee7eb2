import Mathlib.Data.List.Count
import Mathlib.Data.List.Nodup
import Mathlib.Data.List.Range
import Sistemas.Mybash.LineParsing

/-! # One call of parse_pipeline

What a call does beyond its result: how far it reads, what becomes of the parser and
of the objects it makes.

It always consumes exactly the first line (`parsePipeline_rest`), and does so without
looking past it (`parsePipeline_line`).  When there is garbage after the commands it
destroys the parser of its caller and forgets the pipeline it has built; a call leaves the
parser alive (`live_iff`) and its objects accounted for (`tidy_iff`) exactly on a
`CleanLine`.
-/

namespace Sistemas.Mybash

open Sistemas.Mybash.Parser

/-! ## The cursor -/

theorem afterLine_opBackground (t : Text) : afterLine (opBackground t).2 = afterLine t := by
  cases t with
  | nil => rfl
  | cons c t =>
    by_cases amp : c = '&'
    · subst amp
      rfl
    · simp [opBackground, op, amp]

theorem opBackground_amp (t : Text) : opBackground ('&' :: t) = (true, t) := rfl

theorem opBackground_lineEnd {t : Text} (h : AtLineEnd t) : opBackground t = (false, t) := by
  rcases atLineEnd_iff.mp h with rfl | ⟨u, rfl⟩ <;> rfl

theorem Segments.no_newline {t rest : Text} {segs : List (List (ArgKind × Text))}
    {failed : Option (List (ArgKind × Text))} (h : Segments t segs failed rest) :
    ∃ t', t = t' ++ rest ∧ '\n' ∉ t' := by
  obtain ⟨-, t', split, read⟩ := h.split
  refine ⟨t', split, ?_⟩
  cases failed with
  | none => exact read.1.no_newline
  | some args => exact Broken.no_newline read

/-- A call consumes the first line and its end, and nothing else. -/
theorem parsePipeline_rest (w : World) : (parsePipeline w).2.rest = afterLine w.rest := by
  obtain ⟨segs, failed, rest, read⟩ := segments_exist w.rest
  obtain ⟨t, split, inside⟩ := read.no_newline
  rw [split, afterLine_append rest inside, parsePipeline_eq read]
  by_cases eof : rest = []
  · subst eof
    rfl
  · rw [if_neg eof, ← afterLine_opBackground rest]
    split
    · rfl
    · split <;> rfl

theorem afterLine_length_lt {t : Text} (more : t ≠ []) : (afterLine t).length < t.length := by
  rcases line_split t with ⟨-, last⟩ | split
  · rw [last]
    exact List.length_pos_iff.mpr more
  · have length := congrArg List.length split
    simp only [List.length_append, List.length_cons] at length
    omega

/-! ## Not past the end of the line

What follows an end of line in the text plays no role in what is read before it. -/

section Line

variable {x y l r t rest : Text} {p : Char → Bool} (u v : Text)

theorem split_before {u : Text} (split : x ++ y = l ++ '\n' :: u) (inside : '\n' ∉ x) :
    ∃ r, l = x ++ r ∧ y = r ++ '\n' :: u := by
  rcases List.append_eq_append_iff.mp split with ⟨r, before, after⟩ | ⟨r, before, after⟩
  · exact ⟨r, before, after⟩
  · cases r with
    | nil => exact ⟨[], by simpa using before.symm, by simpa using after.symm⟩
    | cons c r =>
      obtain rfl : '\n' = c := (List.cons.inj after).1
      simp [before] at inside

theorem starts_line : starts p (r ++ '\n' :: u) = starts p (r ++ '\n' :: v) := by
  cases r <;> rfl

theorem skipBlanks_line (r : Text) : skipBlanks (r ++ '\n' :: u) = skipBlanks r ++ '\n' :: u := by
  rw [skipBlanks, List.dropWhile_append]
  cases h : r.dropWhile isBlank <;> simp [skipBlanks, h, isBlank]

theorem op_line {c : Char} (other : '\n' ≠ c) (r : Text) :
    op c (r ++ '\n' :: u) = ((op c r).1, (op c r).2 ++ '\n' :: u) := by
  cases r with
  | nil => simp [op, other]
  | cons d r => by_cases same : d = c <;> simp [op, same]

theorem firstLine_line (r : Text) : firstLine (r ++ '\n' :: u) = firstLine r := by
  induction r with
  | nil => rfl
  | cons c r ih =>
    by_cases newline : c = '\n'
    · simp [firstLine, newline]
    · simpa [firstLine, newline] using ih

variable {u}

theorem Parser.Lexeme.line {arg : Option Text} {kind : ArgKind} (h : Lexeme t arg kind rest)
    (split : t = l ++ '\n' :: u) :
    ∃ r, rest = r ++ '\n' :: u ∧ Lexeme (l ++ '\n' :: v) arg kind (r ++ '\n' :: v) := by
  cases h with
  | word blanks word stop =>
    obtain ⟨r₁, rfl, split₁⟩ := split_before split blanks.no_newline
    obtain ⟨r, rfl, rfl⟩ := split_before split₁ word.no_newline
    refine ⟨r, rfl, ?_⟩
    simp only [List.append_assoc]
    exact .word blanks word ((starts_line v u).trans stop)
  | @file _ _ _ _ c _ blanks redir blanks' word stop =>
    have operator : '\n' ∉ [c] := by simpa using redirection_ne_newline redir
    obtain ⟨r₁, rfl, split₁⟩ := split_before split blanks.no_newline
    obtain ⟨r₂, rfl, split₂⟩ := split_before (x := [c]) split₁ operator
    obtain ⟨r₃, rfl, split₃⟩ := split_before split₂ blanks'.no_newline
    obtain ⟨r, rfl, rfl⟩ := split_before split₃ word.no_newline
    refine ⟨r, rfl, ?_⟩
    simp only [List.append_assoc, List.cons_append, List.nil_append]
    exact .file blanks redir blanks' word ((starts_line v u).trans stop)
  | @dangling _ _ _ c _ blanks redir blanks' solid stop =>
    have operator : '\n' ∉ [c] := by simpa using redirection_ne_newline redir
    obtain ⟨r₁, rfl, split₁⟩ := split_before split blanks.no_newline
    obtain ⟨r₂, rfl, split₂⟩ := split_before (x := [c]) split₁ operator
    obtain ⟨r, rfl, rfl⟩ := split_before split₂ blanks'.no_newline
    refine ⟨r, rfl, ?_⟩
    simp only [List.append_assoc, List.cons_append, List.nil_append]
    exact .dangling blanks redir blanks' ((starts_line v u).trans solid)
      ((starts_line v u).trans stop)
  | stop blanks stops =>
    obtain ⟨r, rfl, rfl⟩ := split_before split blanks.no_newline
    refine ⟨r, rfl, ?_⟩
    rw [List.append_assoc]
    exact .stop blanks ⟨(starts_line v u).trans stops.1, (starts_line v u).trans stops.2.1,
      (starts_line v u).trans stops.2.2⟩

theorem Arguments.line {args : List (ArgKind × Text)} {kind : ArgKind}
    (h : Arguments t args kind rest) (split : t = l ++ '\n' :: u) :
    ∃ r, rest = r ++ '\n' :: u ∧ Arguments (l ++ '\n' :: v) args kind (r ++ '\n' :: v) := by
  induction h generalizing l with
  | stop lexeme =>
    obtain ⟨r, rfl, lexeme'⟩ := lexeme.line v split
    exact ⟨r, rfl, .stop lexeme'⟩
  | cons lexeme _ ih =>
    obtain ⟨r, here, lexeme'⟩ := lexeme.line v split
    obtain ⟨r', rfl, more⟩ := ih here
    exact ⟨r', rfl, .cons lexeme' more⟩

theorem Segments.line {segs : List (List (ArgKind × Text))}
    {failed : Option (List (ArgKind × Text))} (h : Segments t segs failed rest)
    (split : t = l ++ '\n' :: u) :
    ∃ r, rest = r ++ '\n' :: u ∧ Segments (l ++ '\n' :: v) segs failed (r ++ '\n' :: v) := by
  have other : '\n' ≠ '|' := by decide
  induction h generalizing l with
  | fail arguments fails =>
    obtain ⟨r, rfl, arguments'⟩ := arguments.line v split
    exact ⟨r, rfl, .fail arguments' fails⟩
  | last arguments ok miss =>
    obtain ⟨r, rfl, arguments'⟩ := arguments.line v split
    rw [skipBlanks_line, opPipe, op_line u other] at miss
    refine ⟨skipBlanks r, skipBlanks_line u r, ?_⟩
    rw [← skipBlanks_line]
    refine .last arguments' ok ?_
    rw [skipBlanks_line, opPipe, op_line v other]
    exact miss
  | more arguments ok hit _ ih =>
    obtain ⟨r, rfl, arguments'⟩ := arguments.line v split
    rw [skipBlanks_line, opPipe, op_line u other] at hit
    obtain ⟨found, next⟩ := Prod.mk.inj hit
    obtain ⟨r', rfl, more⟩ := ih next.symm
    refine ⟨r', rfl, .more arguments' ok ?_ more⟩
    rw [skipBlanks_line, opPipe, op_line v other, found]

end Line

/-- A call does not look past the end of the line: its result, its objects and its trace are
    the same whatever comes after it. -/
theorem parsePipeline_line (w : World) {l : Text} (inside : '\n' ∉ l) (u v : Text) :
    parsePipeline { w with rest := l ++ '\n' :: v } =
      ((parsePipeline { w with rest := l ++ '\n' :: u }).1,
        { (parsePipeline { w with rest := l ++ '\n' :: u }).2 with rest := v }) := by
  obtain ⟨segs, failed, rest, read⟩ := segments_exist (l ++ '\n' :: u)
  obtain ⟨r, rfl, read'⟩ := read.line v rfl
  obtain ⟨t, split, outside⟩ := read.no_newline
  obtain ⟨r', rfl, same⟩ := split_before split.symm outside
  obtain rfl : r = r' := List.append_cancel_right same
  have left : ∀ u, afterLine (opBackground (r ++ '\n' :: u)).2 = u := fun u => by
    rw [afterLine_opBackground, afterLine_append _ (fun mem => inside (List.mem_append_right t mem))]
    rfl
  have other : '\n' ≠ '&' := by decide
  rw [parsePipeline_eq (w := { w with rest := _ }) read',
    parsePipeline_eq (w := { w with rest := _ }) read]
  -- the conditions are the same on both sides
  simp only [left]
  simp only [opBackground, op_line _ other, garbage, firstLine_line, List.append_eq_nil_iff,
    reduceCtorEq, and_false, if_false]
  split
  · rfl
  · split <;> rfl

/-! ## The parser -/

theorem cleanLine_iff {t rest : Text} {segs : List (List (ArgKind × Text))}
    {failed : Option (List (ArgKind × Text))} (h : Segments t segs failed rest) :
    CleanLine (firstLine t) ↔ (garbage (opBackground rest).2).1 = false := by
  rw [garbage_iff]
  constructor
  · rintro ⟨t', read, text⟩
    obtain ⟨r, split, stop⟩ := firstLine_split t
    -- what the loop leaves after the text of the commands
    have left : ∀ u, Ends u → t = t' ++ u → rest = u := fun u ends split' => by
      subst split'
      rcases read with ⟨segs', cmds⟩ | ⟨segs', args, broken⟩
      · exact (h.unique (cmds.segments ends)).2.2
      · exact (h.unique (broken.segments ends)).2.2
    rcases text with same | ⟨b, blanks, same⟩
    · obtain rfl := left r stop.ends (by rw [← same]; exact split)
      rw [opBackground_lineEnd stop, firstLine_lineEnd stop]
      exact fun _ mem => absurd mem List.not_mem_nil
    · obtain rfl := left ('&' :: (b ++ r)) (ends_background _) (by
        rw [split, same, List.append_assoc, List.cons_append])
      rw [opBackground_amp, firstLine_append r blanks.no_newline, firstLine_lineEnd stop,
        List.append_nil]
      exact blanks
  · intro blanks
    obtain ⟨t', split, inside⟩ := h.no_newline
    obtain ⟨solid, t'', split', read⟩ := h.split
    obtain rfl : t' = t'' := List.append_cancel_right (split.symm.trans split')
    have text : (∃ segs, Cmds t' segs) ∨ Truncated t' := by
      cases failed with
      | none => exact .inl ⟨segs, read.1⟩
      | some args => exact .inr ⟨segs, args, read⟩
    rw [split, firstLine_append rest inside]
    refine ⟨t', text, ?_⟩
    cases rest with
    | nil => exact .inl (List.append_nil t')
    | cons c u =>
      by_cases amp : c = '&'
      · subst amp
        exact .inr ⟨firstLine u, blanks, rfl⟩
      · -- the text left does not start with a blank, so the line ends here
        have miss : opBackground (c :: u) = (false, c :: u) := by simp [opBackground, op, amp]
        rw [miss] at blanks
        by_cases newline : c = '\n'
        · subst newline
          exact .inl (List.append_nil t')
        · have first : c ∈ firstLine (c :: u) := by simp [firstLine, newline]
          rw [starts_cons, blanks c first] at solid
          cases solid

/-- A call leaves the parser alive exactly on a clean line. -/
theorem live_iff {w : World} (live : w.live = true) :
    (parsePipeline w).2.live = true ↔ CleanLine (firstLine w.rest) := by
  obtain ⟨segs, failed, rest, read⟩ := segments_exist w.rest
  rw [cleanLine_iff read, parsePipeline_eq read]
  by_cases eof : rest = []
  · subst eof
    simpa [opBackground, op, garbage, firstLine] using live
  · rw [if_neg eof]
    by_cases found : (garbage (opBackground rest).2).1 = true
    · rw [if_pos found]
      simp [found]
    · rw [if_neg found]
      simp only [found]
      split <;> simpa using live

theorem null_of_garbage {w : World} (garbage : ¬ CleanLine (firstLine w.rest)) :
    (parsePipeline w).1 = none := by
  obtain ⟨segs, failed, rest, read⟩ := segments_exist w.rest
  rw [cleanLine_iff read, Bool.not_eq_false] at garbage
  rw [parsePipeline_eq read, if_pos garbage]
  by_cases eof : rest = []
  · subst eof
    cases garbage
  · rw [if_neg eof]

/-! ## The trace -/

def callEvents (w : World) : List Event := (parsePipeline w).2.trace.drop w.trace.length

theorem parsePipeline_trace (w : World) :
    (parsePipeline w).2.trace = w.trace ++ callEvents w := by
  obtain ⟨segs, failed, rest, read⟩ := segments_exist w.rest
  have grows : ∃ events, (parsePipeline w).2.trace = w.trace ++ events := by
    rw [parsePipeline_eq read]
    split
    · exact ⟨_, rfl⟩
    · split
      · exact ⟨_, rfl⟩
      · split <;> exact ⟨_, rfl⟩
  obtain ⟨events, grows⟩ := grows
  rw [callEvents, grows, List.drop_left]

theorem parserDestroy_pipelineEvents (fresh : Nat) (segs : List (List (ArgKind × Text)))
    (failed : Option (List (ArgKind × Text))) :
    Event.parserDestroy ∉ pipelineEvents fresh segs failed := by
  have loop : ∀ fresh, Event.parserDestroy ∉ segmentEvents fresh segs failed := by
    induction segs with
    | nil =>
      intro fresh
      cases failed <;> simp [segmentEvents, scommandEvents]
    | cons args segs ih =>
      intro fresh
      simp [segmentEvents, scommandEvents, ih]
  simp [pipelineEvents, loop]

theorem CleanLine.not_destroyed {w : World} (clean : CleanLine (firstLine w.rest)) :
    Event.parserDestroy ∉ callEvents w := by
  obtain ⟨segs, failed, rest, read⟩ := segments_exist w.rest
  have quiet := parserDestroy_pipelineEvents w.fresh segs failed
  rw [cleanLine_iff read] at clean
  unfold callEvents
  rw [parsePipeline_eq read]
  by_cases eof : rest = []
  · simpa [eof] using quiet
  · rw [if_neg eof, clean]
    simp only [Bool.false_eq_true, if_false]
    split <;> simpa using quiet

/-! ## The objects -/

def returnedObjects (w : World) : List Object :=
  match (parsePipeline w).1 with
  | some pl => pl.objects
  | none => []

/-- Every object made is kept, or has been destroyed exactly once. -/
def Accounted (events : List Event) (kept : List Object) : Prop :=
  ∀ o, .new o ∈ events →
    o ∈ kept ∧ events.count (.destroy o) = 0 ∨ o ∉ kept ∧ events.count (.destroy o) = 1

/-- Every object that a call has made is part of the result, or has been destroyed exactly
    once. -/
def Tidy (w : World) : Prop := Accounted (callEvents w) (returnedObjects w)

theorem segmentRefs_handles (fresh : Nat) (segs : List (List (ArgKind × Text))) :
    (segmentRefs fresh segs).map Ref.handle = List.range' fresh segs.length := by
  induction segs generalizing fresh with
  | nil => rfl
  | cons args segs ih => simp [segmentRefs, ih, List.range'_succ]

theorem new_segmentEvents {o : Object} (fresh : Nat) (segs : List (List (ArgKind × Text)))
    (failed : Option (List (ArgKind × Text))) : .new o ∈ segmentEvents fresh segs failed ↔
      ∃ i, o = .scommand i ∧ fresh ≤ i ∧ i < fresh + segs.length + failed.toList.length := by
  induction segs generalizing fresh with
  | nil =>
    cases failed with
    | none => simp [segmentEvents]
    | some args =>
      simp [segmentEvents, scommandEvents, List.mem_replicate]
      grind
  | cons args segs ih =>
    simp [segmentEvents, scommandEvents, List.mem_replicate, ih]
    grind

theorem count_segmentEvents (o : Object) (fresh : Nat) (segs : List (List (ArgKind × Text)))
    (failed : Option (List (ArgKind × Text))) :
    (segmentEvents fresh segs failed).count (.destroy o) =
      if failed.isSome ∧ o = .scommand (fresh + segs.length) then 1 else 0 := by
  induction segs generalizing fresh with
  | nil =>
    cases failed with
    | none => simp [segmentEvents]
    | some args =>
      simp [segmentEvents, scommandEvents, List.count_cons, List.count_replicate]
      grind
  | cons args segs ih =>
    simp [segmentEvents, scommandEvents, List.count_replicate, ih]
    grind

section Account

variable (fresh : Nat) (segs : List (List (ArgKind × Text))) (failed : Option (List (ArgKind × Text)))
  (o : Object)

theorem new_pipelineEvents : .new o ∈ pipelineEvents fresh segs failed ↔
    o = .pipeline fresh ∨
      ∃ i, o = .scommand i ∧ fresh + 1 ≤ i ∧ i < fresh + 1 + segs.length + failed.toList.length := by
  simp [pipelineEvents, new_segmentEvents]

theorem count_pipelineEvents : (pipelineEvents fresh segs failed).count (.destroy o) =
    if failed.isSome ∧ o = .scommand (fresh + 1 + segs.length) then 1 else 0 := by
  simp [pipelineEvents, count_segmentEvents]

theorem segmentPipeline_objects (wait : Bool) : (segmentPipeline fresh segs wait).objects =
    .pipeline fresh :: (List.range' (fresh + 1) segs.length).map .scommand := by
  rw [← segmentRefs_handles, List.map_map]
  rfl

theorem mem_objects (wait : Bool) : o ∈ (segmentPipeline fresh segs wait).objects ↔
    o = .pipeline fresh ∨
      ∃ i, o = .scommand i ∧ fresh + 1 ≤ i ∧ i < fresh + 1 + segs.length := by
  rw [segmentPipeline_objects]
  simp only [List.mem_cons, List.mem_map, List.mem_range'_1]
  grind

theorem objects_nodup (wait : Bool) : (segmentPipeline fresh segs wait).objects.Nodup := by
  rw [segmentPipeline_objects]
  have scommands : ((List.range' (fresh + 1) segs.length).map Object.scommand).Nodup :=
    List.Nodup.map (fun _ _ => Object.scommand.inj) List.nodup_range'
  exact List.nodup_cons.mpr ⟨by simp, scommands⟩

theorem count_destroyed (wait : Bool) :
    ((segmentPipeline fresh segs wait).objects.reverse.map Event.destroy).count (.destroy o) =
      if o ∈ (segmentPipeline fresh segs wait).objects then 1 else 0 := by
  rw [List.count_map_of_injective _ _ (fun _ _ => Event.destroy.inj), List.count_reverse]
  exact (objects_nodup fresh segs wait).count

variable {fresh segs failed} {tail : List Event} (wait : Bool)

theorem accounted_returned (quiet : ∀ o, .new o ∉ tail ∧ .destroy o ∉ tail) :
    Accounted (pipelineEvents fresh segs failed ++ tail)
      (segmentPipeline fresh segs wait).objects := by
  intro o new
  have new := (List.mem_append.mp new).resolve_right (quiet o).1
  rw [new_pipelineEvents] at new
  rw [List.count_append, List.count_eq_zero_of_not_mem (quiet o).2, count_pipelineEvents, mem_objects]
  cases failed <;> grind

theorem accounted_destroyed (quiet : ∀ o, .new o ∉ tail ∧ .destroy o ∉ tail) :
    Accounted (pipelineEvents fresh segs failed ++
      (tail ++ (segmentPipeline fresh segs wait).objects.reverse.map .destroy)) [] := by
  intro o new
  have new : .new o ∈ pipelineEvents fresh segs failed := by
    simpa [(quiet o).1] using new
  rw [new_pipelineEvents] at new
  refine .inr ⟨List.not_mem_nil, ?_⟩
  rw [List.count_append, List.count_append, List.count_eq_zero_of_not_mem (quiet o).2,
    count_pipelineEvents, count_destroyed, Nat.zero_add]
  have objects := mem_objects fresh segs o wait
  cases failed <;> grind

theorem not_accounted_leak (quiet : ∀ o, .new o ∉ tail ∧ .destroy o ∉ tail) :
    ¬ Accounted (pipelineEvents fresh segs failed ++ tail) [] := by
  intro accounted
  have made : .new (.pipeline fresh) ∈ pipelineEvents fresh segs failed ++ tail :=
    List.mem_append_left _ ((new_pipelineEvents _ _ _ _).mpr (.inl rfl))
  rcases accounted _ made with ⟨kept, -⟩ | ⟨-, once⟩
  · cases kept
  · rw [List.count_append, List.count_eq_zero_of_not_mem (quiet _).2, count_pipelineEvents] at once
    simp at once

end Account

/-- A call is tidy exactly on a clean line. -/
theorem tidy_iff (w : World) : Tidy w ↔ CleanLine (firstLine w.rest) := by
  obtain ⟨segs, failed, rest, read⟩ := segments_exist w.rest
  rw [cleanLine_iff read]
  unfold Tidy callEvents returnedObjects
  rw [parsePipeline_eq read]
  by_cases eof : rest = []
  · subst eof
    simp only [if_true, World.afterSegments_trace, List.drop_left]
    exact iff_of_true (accounted_returned true (by simp)) rfl
  · rw [if_neg eof]
    by_cases found : (garbage (opBackground rest).2).1 = true
    · rw [if_pos found]
      simp only [World.afterSegments_trace, List.drop_left, found]
      exact iff_of_false (not_accounted_leak (by simp)) (by simp)
    · rw [if_neg found]
      have quiet : ∀ o, Event.new o ∉ [.parser .opBackground, .parser .garbage] ∧
          Event.destroy o ∉ [.parser .opBackground, .parser .garbage] := by simp
      refine iff_of_true ?_ (by simpa using found)
      split
      next => simpa using accounted_destroyed true quiet
      next => simpa using accounted_returned _ quiet

end Sistemas.Mybash
