import Mathlib.Logic.Function.Iterate
import Sistemas.Mybash.Lifetimes

/-! # The loop of main

`main` of `mybash.c`: ask for the end of file, parse a line, execute it, destroy the
pipeline, and destroy the parser after the loop.  Each round consumes a line, so the loop
ends (`mainLoop`).

A line with garbage breaks the loop: `parse_pipeline` destroys the parser, and the next round
asks the destroyed parser for the end of file (`faults`).  When all lines read are clean,
`main` goes through the input line by line and every object has its end (`completes`).
-/

namespace Sistemas.Mybash

open Sistemas.Mybash.Parser

inductive Outcome where
  -- it returns
  | returned
  -- `execute_pipeline` does not come back: the process ends there
  | exited
  -- an operation has been applied to a parser that was destroyed
  | fault
  deriving DecidableEq

structure Shell where
  world : World
  -- the states in which `parse_pipeline` has been called
  calls : List World

/-- What is left of a pipeline when `execute_pipeline` comes back is destroyed; the commands
    that it has taken off the pipeline are destroyed before. -/
def World.executed (w : World) (pipe : PipelineRef) (popped : Nat) : World :=
  ((pipe.value.pipe.take popped).foldl World.scommandDestroy w).pipelineDestroy
    { pipe with value := { pipe.value with pipe := pipe.value.pipe.drop popped } }

section Main

-- what `execute_pipeline` does with a pipeline in each round: the number of commands that it
-- takes off, `none` if it does not come back
variable (execute : Nat → Pipeline Scommand → Option Nat)

/-- `while (!parser_at_eof (input))` -/
def mainBody (sh : Shell) : Shell ⊕ Outcome × Shell :=
  let (eof, w) := sh.world.atEof
  if !sh.world.live then .inr (.fault, { sh with world := w })
  else if eof then .inr (.returned, { sh with world := w.parserDestroy })
  else
    let calls := sh.calls ++ [w]
    match parsePipeline w with
    | (none, w) => .inl { world := w, calls := calls }
    | (some pipe, w) =>
      match execute sh.calls.length pipe.erase with
      | none => .inr (.exited, { world := w, calls := calls })
      | some popped => .inl { world := w.executed pipe popped, calls := calls }

variable {execute}

/-! ## One round -/

def Shell.call (sh : Shell) : World := sh.world.emit (.parser .atEof)

/-- What is executed in a round comes back. -/
def ComesBack (execute : Nat → Pipeline Scommand → Option Nat) (sh : Shell) : Prop :=
  ∀ pl, accepted sh.call = some pl → (execute sh.calls.length pl).isSome = true

structure Round (sh sh' : Shell) : Prop where
  calls : sh'.calls = sh.calls ++ [sh.call]
  rest : sh'.world.rest = afterLine sh.world.rest
  live : sh'.world.live = true ↔ CleanLine (firstLine sh.world.rest)
  trace : ∃ events, sh'.world.trace = sh.world.trace ++ events ∧
    (CleanLine (firstLine sh.world.rest) → Event.parserDestroy ∉ events)

theorem World.executed_eq (w : World) (pipe : PipelineRef) (popped : Nat) :
    ∃ objects : List Object, w.executed pipe popped =
      { w with trace := w.trace ++ objects.map .destroy } := by
  rw [executed, foldl_scommandDestroy, pipelineDestroy_eq, List.append_assoc,
    show (Event.destroy <| .scommand ·.handle : Ref Scommand → Event) =
      Event.destroy ∘ (.scommand ·.handle) from rfl, ← List.map_map, ← List.map_append]
  exact ⟨_, rfl⟩

theorem round_of_call {sh : Shell} (live : sh.world.live = true) (objects : List Object) :
    Round sh
      { world :=
          { (parsePipeline sh.call).2 with
            trace := (parsePipeline sh.call).2.trace ++ objects.map .destroy }
        calls := sh.calls ++ [sh.call] } where
  calls := rfl
  rest := parsePipeline_rest sh.call
  live := live_iff (w := sh.call) live
  trace := by
    refine ⟨.parser .atEof :: (callEvents sh.call ++ objects.map .destroy), ?_, ?_⟩
    · rw [parsePipeline_trace]
      simp [Shell.call, World.emit]
    · intro clean
      have quiet := CleanLine.not_destroyed (w := sh.call) clean
      simp [quiet]

theorem mainBody_dead {sh : Shell} (dead : sh.world.live = false) :
    mainBody execute sh = .inr (.fault, { sh with world := sh.call }) := by
  simp [mainBody, dead, World.atEof, Shell.call]

theorem mainBody_eof {sh : Shell} (live : sh.world.live = true) (eof : sh.world.rest = []) :
    mainBody execute sh = .inr (.returned, { sh with world := sh.call.parserDestroy }) := by
  simp [mainBody, live, eof, World.atEof, Parser.atEof, Shell.call]

variable (execute)

/-- A round parses a line, and goes on if and only if what it executes comes back. -/
theorem mainBody_round {sh : Shell} (live : sh.world.live = true) (more : sh.world.rest ≠ []) :
    ∃ sh', Round sh sh' ∧
      (mainBody execute sh = .inl sh' ∧ ComesBack execute sh ∨
        mainBody execute sh = .inr (.exited, sh') ∧ ¬ ComesBack execute sh) := by
  have notEof : Parser.atEof sh.world.rest = false := by simpa [Parser.atEof] using more
  have plain := round_of_call live []
  simp only [List.map_nil, List.append_nil] at plain
  unfold mainBody ComesBack accepted
  simp only [World.atEof, notEof, live, Bool.not_true, Bool.false_eq_true, if_false]
  rw [← Shell.call]
  cases result : parsePipeline sh.call with
  | mk pipe w =>
    rw [result] at plain
    cases pipe with
    | none => exact ⟨_, plain, .inl ⟨rfl, by simp⟩⟩
    | some pipe =>
      cases execution : execute sh.calls.length pipe.erase with
      | none => exact ⟨_, plain, .inr ⟨by simp only [execution], by simp [execution]⟩⟩
      | some popped =>
        obtain ⟨objects, executed⟩ := w.executed_eq pipe popped
        have round := round_of_call live objects
        rw [result, ← executed] at round
        exact ⟨_, round, .inl ⟨by simp only [execution], by simp [execution]⟩⟩

theorem mainBody_decreases (sh sh' : Shell) (h : mainBody execute sh = .inl sh') :
    sh'.world.rest.length < sh.world.rest.length := by
  cases live : sh.world.live with
  | false =>
    rw [mainBody_dead live] at h
    cases h
  | true =>
    by_cases eof : sh.world.rest = []
    · rw [mainBody_eof live eof] at h
      cases h
    · obtain ⟨sh'', round, ⟨next, -⟩ | ⟨leave, -⟩⟩ := mainBody_round execute live eof
      · obtain rfl := Sum.inl.inj (next.symm.trans h)
        rw [round.rest]
        exact afterLine_length_lt eof
      · rw [leave] at h
        cases h

def mainFrom (sh : Shell) : Outcome × Shell :=
  Loop.result (·.world.rest.length) (mainBody_decreases execute) sh

def Shell.start (input : Text) : Shell := { world := .ofText input, calls := [] }

def mainLoop (input : Text) : Outcome × Shell := mainFrom execute (.start input)

theorem mainFrom_next {sh sh' : Shell} (h : mainBody execute sh = .inl sh') :
    mainFrom execute sh = mainFrom execute sh' := by
  rw [mainFrom, Loop.result_eq, h, mainFrom]

theorem mainFrom_leave {sh : Shell} {r : Outcome × Shell} (h : mainBody execute sh = .inr r) :
    mainFrom execute sh = r := by
  rw [mainFrom, Loop.result_eq, h]

variable {execute}

/-! ## Whole runs -/

/-- The lines that the shell reads from a text: the first, and those after it as long as what
    is executed comes back. -/
inductive Reads (execute : Nat → Pipeline Scommand → Option Nat) : Nat → Text → Text → Prop where
  | first {round : Nat} {t : Text} : t ≠ [] → Reads execute round t (firstLine t)
  | later {round : Nat} {t l : Text} : (∀ pl, Line (firstLine t) pl → (execute round pl).isSome) →
      Reads execute (round + 1) (afterLine t) l → Reads execute round t l

theorem Reads.ne_nil {round : Nat} {t l : Text} (reads : Reads execute round t l) : t ≠ [] := by
  induction reads with
  | first more => exact more
  | later _ _ ih =>
    rintro rfl
    exact ih rfl

/-- The loop ends well: the parser is destroyed at the end and not before, and the calls of
    `parse_pipeline` are at the beginnings of the lines. -/
structure Completes (sh : Shell) (r : Outcome × Shell) : Prop where
  outcome : r.1 ≠ .fault
  trace : ∃ events, Event.parserDestroy ∉ events ∧ r.2.world.trace =
    sh.world.trace ++ (events ++ if r.1 = .returned then [Event.parserDestroy] else [])
  calls : ∃ ws, r.2.calls = sh.calls ++ ws ∧
    (∀ w ∈ ws, CleanLine (firstLine w.rest)) ∧
    (∀ k w, ws[k]? = some w → w.live = true ∧ w.rest = afterLine^[k] sh.world.rest) ∧
    (r.1 = .returned → afterLine^[ws.length] sh.world.rest = [])

theorem completes_eof {sh : Shell} (eof : sh.world.rest = []) :
    Completes sh (.returned, { sh with world := sh.call.parserDestroy }) where
  outcome := by simp
  trace := ⟨[.parser .atEof], by simp, by simp [Shell.call, World.emit, World.parserDestroy]⟩
  calls := ⟨[], by simp, by simp, by simp, by simpa using eof⟩

theorem completes_exited {sh sh' : Shell} (live : sh.world.live = true)
    (clean : CleanLine (firstLine sh.world.rest)) (round : Round sh sh') :
    Completes sh (.exited, sh') where
  outcome := by simp
  trace := by
    obtain ⟨events, trace, quiet⟩ := round.trace
    exact ⟨events, quiet clean, by simpa using trace⟩
  calls := by
    refine ⟨[sh.call], round.calls, List.forall_mem_singleton.mpr clean, fun k w here => ?_, by simp⟩
    obtain ⟨rfl, rfl⟩ : k = 0 ∧ w = sh.call := by
      cases k <;> simp_all
    exact ⟨live, rfl⟩

theorem completes_next {sh sh' : Shell} {r : Outcome × Shell} (live : sh.world.live = true)
    (clean : CleanLine (firstLine sh.world.rest)) (round : Round sh sh') (h : Completes sh' r) :
    Completes sh r where
  outcome := h.outcome
  trace := by
    obtain ⟨events, trace, quiet⟩ := round.trace
    obtain ⟨events', quiet', trace'⟩ := h.trace
    refine ⟨events ++ events', by simp [quiet clean, quiet'], ?_⟩
    rw [trace', trace, List.append_assoc, List.append_assoc]
  calls := by
    obtain ⟨ws, calls, cleans, starts, all⟩ := h.calls
    rw [round.rest] at starts all
    refine ⟨sh.call :: ws, by simp [calls, round.calls], ?_, fun k w here => ?_, all⟩
    · exact List.forall_mem_cons.mpr ⟨clean, cleans⟩
    · cases k with
      | zero =>
        obtain rfl : sh.call = w := by simpa using here
        exact ⟨live, rfl⟩
      | succ k => exact starts k w (by simpa using here)

/-- The loop ends well if all the lines read are clean. -/
theorem completes (sh : Shell) (live : sh.world.live = true)
    (clean : ∀ l, Reads execute sh.calls.length sh.world.rest l → CleanLine l) :
    Completes sh (mainFrom execute sh) := by
  induction size : sh.world.rest.length using Nat.strongRecOn generalizing sh with
  | _ n ih =>
    subst size
    by_cases eof : sh.world.rest = []
    · rw [mainFrom_leave execute (mainBody_eof live eof)]
      exact completes_eof eof
    · have here := clean _ (.first eof)
      obtain ⟨sh', round, ⟨next, back⟩ | ⟨leave, -⟩⟩ := mainBody_round execute live eof
      · rw [mainFrom_next execute next]
        have shorter := mainBody_decreases execute sh sh' next
        refine completes_next live here round (ih _ shorter sh' (round.live.mpr here) ?_ rfl)
        rw [round.calls, round.rest, List.length_append, List.length_singleton]
        intro l later
        exact clean l (.later (fun pl line => back pl (accepted_of_line line)) later)
      · rw [mainFrom_leave execute leave]
        exact completes_exited live here round

theorem fault_of_garbage (sh : Shell) (live : sh.world.live = true) (more : sh.world.rest ≠ [])
    (garbage : ¬ CleanLine (firstLine sh.world.rest)) :
    ∃ sh' : Shell, mainFrom execute sh = (.fault, { sh' with world := sh'.call }) := by
  have null : accepted sh.call = none := by
    rw [accepted, null_of_garbage (w := sh.call) garbage, Option.map_none]
  obtain ⟨sh', round, ⟨next, -⟩ | ⟨-, stuck⟩⟩ := mainBody_round execute live more
  · have dead : sh'.world.live = false := Bool.not_eq_true _ ▸ mt round.live.mp garbage
    exact ⟨sh', by rw [mainFrom_next execute next, mainFrom_leave execute (mainBody_dead dead)]⟩
  · exact absurd (fun pl some => by rw [null] at some; cases some) stuck

theorem comesBack_of_line {sh : Shell} {l : Text}
    (back : ∀ pl, Line (firstLine sh.world.rest) pl → (execute sh.calls.length pl).isSome)
    (later : Reads execute (sh.calls.length + 1) (afterLine sh.world.rest) l) :
    ComesBack execute sh := by
  intro pl result
  refine back pl (line_of_accepted (w := sh.call) ?_ result)
  -- a truncated text has no end of line
  rintro ⟨segs, args, broken⟩
  have last := afterLine_append [] (Broken.no_newline broken)
  rw [List.append_nil] at last
  exact later.ne_nil last

/-- The loop uses a destroyed parser if it reads a line with garbage. -/
theorem faults {round : Nat} {t l : Text} (reads : Reads execute round t l) (garbage : ¬ CleanLine l)
    (sh : Shell) (live : sh.world.live = true) (here : sh.world.rest = t)
    (count : sh.calls.length = round) :
    ∃ sh' : Shell, mainFrom execute sh = (.fault, { sh' with world := sh'.call }) := by
  induction reads generalizing sh with
  | first more =>
    subst here
    exact fault_of_garbage sh live more garbage
  | later back later ih =>
    subst here count
    have more := (Reads.later back later).ne_nil
    by_cases clean : CleanLine (firstLine sh.world.rest)
    · obtain ⟨sh', round, ⟨next, -⟩ | ⟨-, stuck⟩⟩ := mainBody_round execute live more
      · rw [mainFrom_next execute next]
        exact ih garbage sh' (round.live.mpr clean) round.rest (by simp [round.calls])
      · exact absurd (comesBack_of_line back later) stuck
    · exact fault_of_garbage sh live more clean

/-- The shell executes `pl` in round `k`. -/
inductive Executes (execute : Nat → Pipeline Scommand → Option Nat) :
    Nat → Text → Nat → Pipeline Scommand → Prop where
  | first {round : Nat} {t : Text} {pl : Pipeline Scommand} : t ≠ [] → Opens t pl →
      Executes execute round t round pl
  | later {round k : Nat} {t : Text} {pl : Pipeline Scommand} :
      (∀ pl, Opens t pl → (execute round pl).isSome) →
      Executes execute (round + 1) (afterLine t) k pl → Executes execute round t k pl

theorem Executes.ne_nil {round k : Nat} {t : Text} {pl : Pipeline Scommand}
    (executes : Executes execute round t k pl) : t ≠ [] := by
  induction executes with
  | first more => exact more
  | later _ _ ih =>
    rintro rfl
    exact ih rfl

theorem comesBack_iff {sh : Shell} : ComesBack execute sh ↔
    ∀ pl, Opens sh.world.rest pl → (execute sh.calls.length pl).isSome = true :=
  forall_congr' fun _ => imp_congr_left (accepted_iff_opens (w := sh.call))

/-- The loop is not left from inside if all that is executed comes back. -/
theorem not_exited (sh : Shell)
    (back : ∀ k pl, Executes execute sh.calls.length sh.world.rest k pl → (execute k pl).isSome) :
    (mainFrom execute sh).1 ≠ .exited := by
  induction size : sh.world.rest.length using Nat.strongRecOn generalizing sh with
  | _ n ih =>
    subst size
    cases live : sh.world.live with
    | false =>
      rw [mainFrom_leave execute (mainBody_dead live)]
      exact nofun
    | true =>
      by_cases eof : sh.world.rest = []
      · rw [mainFrom_leave execute (mainBody_eof live eof)]
        exact nofun
      · have here : ∀ pl, Opens sh.world.rest pl → (execute sh.calls.length pl).isSome :=
          fun pl opens => back _ pl (.first eof opens)
        obtain ⟨sh', round, ⟨next, -⟩ | ⟨-, stuck⟩⟩ := mainBody_round execute live eof
        · rw [mainFrom_next execute next]
          refine ih _ (mainBody_decreases execute sh sh' next) sh' ?_ rfl
          rw [round.calls, round.rest, List.length_append, List.length_singleton]
          exact fun k pl later => back k pl (.later here later)
        · exact absurd (comesBack_iff.mpr here) stuck

theorem round_of_returned {sh : Shell} (more : sh.world.rest ≠ [])
    (returned : (mainFrom execute sh).1 = .returned) :
    ∃ sh', Round sh sh' ∧ (mainFrom execute sh').1 = .returned ∧ ComesBack execute sh := by
  have live : sh.world.live = true := by
    by_contra dead
    rw [mainFrom_leave execute (mainBody_dead (Bool.not_eq_true _ ▸ dead))] at returned
    cases returned
  obtain ⟨sh', round, ⟨next, back⟩ | ⟨leave, -⟩⟩ := mainBody_round execute live more
  · rw [mainFrom_next execute next] at returned
    exact ⟨sh', round, returned, back⟩
  · rw [mainFrom_leave execute leave] at returned
    cases returned

/-- All that is executed comes back if the loop returns. -/
theorem back_of_returned {round k : Nat} {t : Text} {pl : Pipeline Scommand}
    (executes : Executes execute round t k pl) (sh : Shell) (here : sh.world.rest = t)
    (count : sh.calls.length = round) (returned : (mainFrom execute sh).1 = .returned) :
    (execute k pl).isSome = true := by
  induction executes generalizing sh with
  | first more opens =>
    subst here count
    obtain ⟨-, -, -, back⟩ := round_of_returned more returned
    exact comesBack_iff.mp back _ opens
  | later here' later ih =>
    subst here count
    obtain ⟨sh', round, returned', -⟩ :=
      round_of_returned (Executes.later here' later).ne_nil returned
    exact ih sh' round.rest (by simp [round.calls]) returned'

variable (execute)

/-! ## Lifetimes -/

def Event.onParser : Event → Bool
  | .parser _ | .parserDestroy => true
  | .new _ | .destroy _ => false

/-- The lifetimes of the parser and of the objects in a run of `main`. -/
structure Lifetimes (input : Text) : Prop where
  -- the parser is destroyed once, after the loop
  once : ∃ events, Event.parserDestroy ∉ events ∧
    (mainLoop execute input).2.world.trace = events ++ [.parserDestroy]
  -- nothing is done with a parser that was destroyed
  alive : (mainLoop execute input).2.world.trace.Pairwise fun earlier later =>
    earlier = .parserDestroy → later.onParser = false
  tidy : ∀ w ∈ (mainLoop execute input).2.calls, Tidy w

/-- The lines read are clean, and what is executed comes back. -/
structure Orderly (input : Text) : Prop where
  clean : ∀ l, Reads execute 0 input l → CleanLine l
  back : ∀ k pl, Executes execute 0 input k pl → (execute k pl).isSome = true

variable {execute}

theorem alive_of_not_mem {events : List Event} (quiet : Event.parserDestroy ∉ events) :
    events.Pairwise fun earlier later => earlier = .parserDestroy → later.onParser = false :=
  List.pairwise_of_forall_mem_list fun _ mem _ _ destroyed => absurd (destroyed ▸ mem) quiet

theorem lifetimes_of_completes {input : Text}
    (h : Completes (.start input) (mainLoop execute input))
    (returned : (mainLoop execute input).1 = .returned) : Lifetimes execute input := by
  obtain ⟨events, quiet, trace⟩ := h.trace
  obtain ⟨ws, calls, clean, -, -⟩ := h.calls
  rw [returned, if_pos rfl] at trace
  simp only [Shell.start, World.ofText, List.nil_append] at trace calls
  refine ⟨⟨events, quiet, trace⟩, ?_, ?_⟩
  · rw [trace]
    refine List.pairwise_append.mpr ⟨alive_of_not_mem quiet, List.pairwise_singleton _ _, ?_⟩
    exact fun _ mem _ _ destroyed => absurd (destroyed ▸ mem) quiet
  · rw [calls]
    exact fun w mem => (tidy_iff w).mpr (clean w mem)

theorem Lifetimes.not_fault {input : Text} (h : Lifetimes execute input) (sh : Shell) :
    mainLoop execute input ≠ (.fault, { sh with world := sh.call }) := by
  intro fault
  obtain ⟨events, -, trace⟩ := h.once
  rw [fault] at trace
  simp [Shell.call, World.emit] at trace

/-- If the process ends inside the loop, the parser is not destroyed. -/
theorem returned_of_completes {input : Text} (lifetimes : Lifetimes execute input)
    (h : Completes (.start input) (mainLoop execute input)) :
    (mainLoop execute input).1 = .returned := by
  obtain ⟨events, quiet, trace⟩ := h.trace
  obtain ⟨events', -, last⟩ := lifetimes.once
  by_contra left
  rw [if_neg left, List.append_nil] at trace
  have mem : Event.parserDestroy ∈ (mainLoop execute input).2.world.trace :=
    last ▸ List.mem_append_right events' List.mem_cons_self
  rw [trace] at mem
  exact quiet mem

variable (execute)

/-- **Lifetimes in `main`.**  The parser is destroyed once, after the loop, is not used
    afterwards, and every object that `parse_pipeline` makes is returned or destroyed, if and
    only if no line read has garbage after its commands and `execute_pipeline` comes back in
    every round. -/
theorem lifetimes_iff (input : Text) : Lifetimes execute input ↔ Orderly execute input := by
  constructor
  · intro lifetimes
    have clean : ∀ l, Reads execute 0 input l → CleanLine l := by
      intro l reads
      by_contra garbage
      obtain ⟨sh, fault⟩ := faults reads garbage (.start input) rfl rfl rfl
      exact lifetimes.not_fault sh fault
    have returned := returned_of_completes lifetimes (completes (.start input) rfl clean)
    exact ⟨clean, fun k pl executes => back_of_returned executes (.start input) rfl rfl returned⟩
  · intro orderly
    have ends := completes (.start input) rfl orderly.clean
    refine lifetimes_of_completes ends ?_
    cases outcome : (mainLoop execute input).1 with
    | returned => rfl
    | fault => exact absurd outcome ends.outcome
    | exited => exact absurd outcome (not_exited (.start input) orderly.back)

theorem garbage_not_clean : ¬ CleanLine (firstLine ['a', '&', 'b', '\n']) := by
  have live := live_iff (w := .ofText ['a', '&', 'b', '\n']) rfl
  exact mt live.mpr (by decide)

/-- On the line `a&b` the pipeline and its command are never destroyed, and after
    `parse_pipeline` has destroyed the parser `main` asks it for the end of file. -/
theorem lifetimes_garbage :
    ¬ Lifetimes (fun _ _ => some 0) ['a', '&', 'b', '\n'] ∧
    (mainLoop (fun _ _ => some 0) ['a', '&', 'b', '\n']).2.world.trace =
      [.parser .atEof, .parser .atEof, .new (.pipeline 0), .new (.scommand 1), .parser .skipBlanks,
        .parser .nextArgument, .parser .nextArgument, .parser .skipBlanks, .parser .opPipe,
        .parser .atEof, .parser .opBackground, .parser .garbage, .parser .lastGarbage,
        .parserDestroy, .parser .atEof] := by
  refine ⟨?_, by decide⟩
  intro lifetimes
  obtain ⟨sh, fault⟩ := fault_of_garbage (.start ['a', '&', 'b', '\n']) rfl (by decide)
    garbage_not_clean
  exact lifetimes.not_fault sh fault

/-! ## Line by line -/

/-- A call of `parse_pipeline` reads one line: the parser is there afterwards, just after the
    first end of line or at the end of the text, something has been consumed, and what comes
    after the end of line has played no role. -/
structure CallExact (w : World) : Prop where
  live : (parsePipeline w).2.live = true
  cursor : (parsePipeline w).2.rest = afterLine w.rest
  progress : (parsePipeline w).2.rest.length < w.rest.length
  lineOnly : ∀ l u v, w.rest = l ++ '\n' :: u → '\n' ∉ l →
    parsePipeline { w with rest := l ++ '\n' :: v } =
      ((parsePipeline w).1, { (parsePipeline w).2 with rest := v })

theorem callExact_iff {w : World} (live : w.live = true) (more : w.rest ≠ []) :
    CallExact w ↔ CleanLine (firstLine w.rest) := by
  rw [← live_iff live]
  refine ⟨CallExact.live, fun alive => ⟨alive, parsePipeline_rest w, ?_, ?_⟩⟩
  · rw [parsePipeline_rest]
    exact afterLine_length_lt more
  · intro l u v here inside
    have same : w = { w with rest := l ++ '\n' :: u } := by rw [← here]
    rw [parsePipeline_line w inside u v, ← same]

/-- `main` goes through the input line by line: its loop ends, with at most one round for each
    character, and the `k`-th round calls `parse_pipeline` at the beginning of the `k`-th line,
    up to the last line unless the process ends before. -/
structure LineByLine (input : Text) : Prop where
  ends : Loop.run (mainBody execute) (input.length + 1) (.start input) =
    some (mainLoop execute input)
  outcome : (mainLoop execute input).1 ≠ .fault
  line : ∀ k w, (mainLoop execute input).2.calls[k]? = some w →
    w.live = true ∧ w.rest = afterLine^[k] input
  all : (mainLoop execute input).1 = .returned →
    afterLine^[(mainLoop execute input).2.calls.length] input = []

variable {execute}

theorem lineByLine_of_completes {input : Text}
    (h : Completes (.start input) (mainLoop execute input)) : LineByLine execute input := by
  obtain ⟨ws, calls, -, starts, all⟩ := h.calls
  simp only [Shell.start, List.nil_append] at calls
  refine ⟨?_, h.outcome, ?_, ?_⟩
  · exact Loop.run_eq_result (fun sh : Shell => sh.world.rest.length) (mainBody_decreases execute)
      (Nat.lt_succ_self _)
  · rw [calls]
    exact starts
  · rw [calls]
    exact all

variable (execute)

/-- **Lines.**  A call of `parse_pipeline` reads exactly one line if and only if the line is
    clean, and `main` goes through its input line by line if and only if all the lines read
    are. -/
theorem line_by_line_iff (input : Text) (w : World) (live : w.live = true) (more : w.rest ≠ []) :
    (CallExact w ↔ CleanLine (firstLine w.rest)) ∧
    (LineByLine execute input ↔ ∀ l, Reads execute 0 input l → CleanLine l) := by
  refine ⟨callExact_iff live more, ?_⟩
  constructor
  · intro lines l reads
    by_contra garbage
    obtain ⟨sh, fault⟩ := faults reads garbage (.start input) rfl rfl rfl
    exact lines.outcome (congrArg Prod.fst fault)
  · intro clean
    exact lineByLine_of_completes (completes (.start input) rfl clean)

theorem ls_clean : CleanLine ['l', 's'] :=
  ⟨['l', 's'], .inl ⟨_, .one ⟨.word (b := []) (w := ['l', 's']) (by decide) (by decide) rfl
    (.nil (by decide)), by decide⟩⟩, .inl rfl⟩

theorem line_by_line_iff_ls : CallExact (.ofText ['l', 's', '\n']) ∧
    LineByLine (fun _ _ => some 1) ['l', 's', '\n'] := by
  have lines := line_by_line_iff (fun _ _ => some 1) ['l', 's', '\n'] (.ofText ['l', 's', '\n']) rfl
    (by decide)
  refine ⟨lines.1.mpr ls_clean, lines.2.mpr fun l reads => ?_⟩
  cases reads with
  | first => exact ls_clean
  | later _ later => exact absurd rfl later.ne_nil

/-- The line `a&b` is consumed, but no parser is left to go on with the next line. -/
theorem line_by_line_garbage :
    (parsePipeline (.ofText ['a', '&', 'b', '\n'])).2.live = false ∧
    ¬ CallExact (.ofText ['a', '&', 'b', '\n']) ∧
    ¬ LineByLine (fun _ _ => some 0) ['a', '&', 'b', '\n'] := by
  refine ⟨by decide, ?_, ?_⟩
  · intro call
    exact absurd call.live (by decide)
  · intro lines
    exact lines.outcome (by decide)

end Main

end Sistemas.Mybash
