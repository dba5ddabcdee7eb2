import Sistemas.Transition.Loop
import Sistemas.Mybash.Parser

/-! # parse_pipeline

`parse_scommand` and `parse_pipeline` of `parsing.c`.  The state they work on is the text
the `Parser` has left and a trace: every operation of the parser, and every call that
makes or destroys an object, is recorded with the handle of the object.

What the two loops read is said without the objects and the trace by `Arguments` and
`Segments`; `parseScommand_eq` and `parsePipeline_eq` give the functions in these terms.
-/

namespace Sistemas.Mybash

inductive ParserOp where
  | nextArgument | opBackground | skipBlanks | opPipe | garbage | lastGarbage | atEof
  deriving DecidableEq

inductive Object where
  | scommand (handle : Nat)
  | pipeline (handle : Nat)
  deriving DecidableEq

inductive Event where
  | parser (op : ParserOp)
  | parserDestroy
  | new (o : Object)
  | destroy (o : Object)
  deriving DecidableEq

/-- A value with the handle of the object it lives in. -/
structure Ref (α : Type) where
  handle : Nat
  value : α
  deriving DecidableEq

structure World where
  -- what the parser has left
  rest : Text
  -- the parser has not been destroyed
  live : Bool
  -- the next handle
  fresh : Nat
  trace : List Event
  deriving DecidableEq

abbrev PipelineRef := Ref (Pipeline (Ref Scommand))

namespace PipelineRef

def erase (pl : PipelineRef) : Pipeline Scommand := pl.value.map Ref.value

def objects (pl : PipelineRef) : List Object :=
  .pipeline pl.handle :: pl.value.pipe.map (.scommand ·.handle)

end PipelineRef

namespace World

def emit (w : World) (e : Event) : World := { w with trace := w.trace ++ [e] }

/-! ## The parser -/

def skipBlanks (w : World) : World :=
  { w with rest := Parser.skipBlanks w.rest }.emit (.parser .skipBlanks)

def nextArgument (w : World) : Option Text × ArgKind × World :=
  ((Parser.nextArgument w.rest).1, (Parser.nextArgument w.rest).2.1,
    { w with rest := (Parser.nextArgument w.rest).2.2 }.emit (.parser .nextArgument))

def opPipe (w : World) : Bool × World :=
  ((Parser.opPipe w.rest).1, { w with rest := (Parser.opPipe w.rest).2 }.emit (.parser .opPipe))

def opBackground (w : World) : Bool × World :=
  ((Parser.opBackground w.rest).1,
    { w with rest := (Parser.opBackground w.rest).2 }.emit (.parser .opBackground))

def garbage (w : World) : Bool × World :=
  ((Parser.garbage w.rest).1, { w with rest := (Parser.garbage w.rest).2 }.emit (.parser .garbage))

/-- `parser_last_garbage`; the text it returns is not used. -/
def lastGarbage (w : World) : World := w.emit (.parser .lastGarbage)

def atEof (w : World) : Bool × World := (Parser.atEof w.rest, w.emit (.parser .atEof))

def parserDestroy (w : World) : World := { w with live := false }.emit .parserDestroy

/-! ## Objects -/

def scommandNew (w : World) : Ref Scommand × World :=
  ({ handle := w.fresh, value := .new },
    { w with fresh := w.fresh + 1 }.emit (.new (.scommand w.fresh)))

def scommandDestroy (w : World) (self : Ref Scommand) : World :=
  w.emit (.destroy (.scommand self.handle))

def pipelineNew (w : World) : PipelineRef × World :=
  ({ handle := w.fresh, value := .new },
    { w with fresh := w.fresh + 1 }.emit (.new (.pipeline w.fresh)))

/-- `pipeline_destroy`: the commands from the tail of the queue, then the pipeline. -/
def pipelineDestroy (w : World) (self : PipelineRef) : World :=
  (self.value.pipe.reverse.foldl scommandDestroy w).emit (.destroy (.pipeline self.handle))

end World

/-! ## parse_scommand -/

def Scommand.add (self : Scommand) (kind : ArgKind) (text : Text) : Scommand :=
  match kind with
  | .normal => self.pushBack text
  | .input => self.setRedirIn (some text)
  | .output => self.setRedirOut (some text)

/-- The variables of `parse_scommand` at the head of its loop. -/
structure ScommandLoop where
  nuevo : Ref Scommand
  stringAux : Option Text
  argAux : ArgKind
  world : World

namespace ScommandLoop

/-- `while (string_aux != NULL)` -/
def body (s : ScommandLoop) : ScommandLoop ⊕ ScommandLoop :=
  match s.stringAux with
  | none => .inr s
  | some text =>
    .inl
      { nuevo := { s.nuevo with value := s.nuevo.value.add s.argAux text }
        stringAux := s.world.nextArgument.1
        argAux := s.world.nextArgument.2.1
        world := s.world.nextArgument.2.2 }

def measure (s : ScommandLoop) : Nat :=
  s.world.rest.length + if s.stringAux.isSome then 1 else 0

theorem body_next {s s' : ScommandLoop} (h : s.body = .inl s') :
    ∃ text, s.stringAux = some text ∧ s' =
      { nuevo := { s.nuevo with value := s.nuevo.value.add s.argAux text }
        stringAux := s.world.nextArgument.1
        argAux := s.world.nextArgument.2.1
        world := s.world.nextArgument.2.2 } := by
  unfold body at h
  cases aux : s.stringAux with
  | none => simp [aux] at h
  | some text => exact ⟨text, rfl, by simpa [aux] using h.symm⟩

theorem decreases (s s' : ScommandLoop) (h : s.body = .inl s') : s'.measure < s.measure := by
  obtain ⟨text, aux, rfl⟩ := body_next h
  obtain ⟨arg, kind, rest, lexeme⟩ := Parser.lexeme_exists s.world.rest
  simp only [measure, World.nextArgument, World.emit, aux, lexeme.nextArgument_eq]
  cases arg with
  | none =>
    have := lexeme.length_le
    simp only [Option.isSome_none, Option.isSome_some, Bool.false_eq_true, if_false, if_true]
    omega
  | some w =>
    have := lexeme.length_lt
    simp only [Option.isSome_some, if_true]
    omega

def final (s : ScommandLoop) : ScommandLoop := Loop.result measure decreases s

end ScommandLoop

def parseScommand (w : World) : Option (Ref Scommand) × World :=
  let (nuevo, w) := w.scommandNew
  let w := w.skipBlanks
  let (stringAux, argAux, w) := w.nextArgument
  let s := ScommandLoop.final { nuevo, stringAux, argAux, world := w }
  if s.argAux = .input ∨ s.argAux = .output ∨ s.nuevo.value.isEmpty then
    (none, s.world.scommandDestroy s.nuevo)
  else (some s.nuevo, s.world)

/-- What the loop of `parse_scommand` reads: the arguments, the kind it ends with and the
    text it leaves. -/
inductive Arguments : Text → List (ArgKind × Text) → ArgKind → Text → Prop where
  | stop {t rest : Text} {kind : ArgKind} : Parser.Lexeme t none kind rest →
      Arguments t [] kind rest
  | cons {t w rest rest' : Text} {kind kind' : ArgKind} {args : List (ArgKind × Text)} :
      Parser.Lexeme t (some w) kind rest → Arguments rest args kind' rest' →
      Arguments t ((kind, w) :: args) kind' rest'

def Scommand.ofArguments (args : List (ArgKind × Text)) : Scommand :=
  args.foldl (fun sc arg => sc.add arg.1 arg.2) .new

theorem Arguments.length_le {t rest : Text} {args : List (ArgKind × Text)} {kind : ArgKind}
    (h : Arguments t args kind rest) : rest.length ≤ t.length := by
  induction h with
  | stop lexeme => exact lexeme.length_le
  | cons lexeme _ ih =>
    have := lexeme.length_lt
    omega

theorem arguments_exist (t : Text) : ∃ args kind rest, Arguments t args kind rest := by
  induction h : t.length using Nat.strongRecOn generalizing t with
  | _ m ih =>
    subst h
    obtain ⟨arg, kind, rest, lexeme⟩ := Parser.lexeme_exists t
    cases arg with
    | none => exact ⟨[], kind, rest, .stop lexeme⟩
    | some w =>
      obtain ⟨args, kind', rest', more⟩ := ih _ lexeme.length_lt rest rfl
      exact ⟨(kind, w) :: args, kind', rest', .cons lexeme more⟩

theorem ScommandLoop.final_of_arguments {t rest : Text} {args : List (ArgKind × Text)} {kind : ArgKind}
    (h : Arguments t args kind rest) (nuevo : Ref Scommand) (w : World) :
    let first := Parser.nextArgument t
    ScommandLoop.final
      { nuevo, stringAux := first.1, argAux := first.2.1, world := { w with rest := first.2.2 } } =
      { nuevo :=
          { nuevo with value := args.foldl (fun sc arg => sc.add arg.1 arg.2) nuevo.value }
        stringAux := none
        argAux := kind
        world :=
          { w with
            rest := rest
            trace := w.trace ++ List.replicate args.length (.parser .nextArgument) } } := by
  induction h generalizing nuevo w with
  | stop lexeme =>
    simp only [lexeme.nextArgument_eq]
    rw [final, Loop.result_eq]
    simp [body]
  | cons lexeme more ih =>
    simp only [lexeme.nextArgument_eq]
    rw [final, Loop.result_eq]
    simp only [body, World.nextArgument, World.emit]
    rw [← final, ih _ { w with trace := w.trace ++ [.parser .nextArgument] }]
    simp [List.replicate_succ]

theorem Parser.nextArgument_skipBlanks (t : Text) :
    Parser.nextArgument (Parser.skipBlanks t) = Parser.nextArgument t := by
  have same : Parser.skipBlanks (Parser.skipBlanks t) = Parser.skipBlanks t :=
    Parser.dropWhile_of_starts (Parser.starts_dropWhile Parser.isBlank t)
  unfold Parser.nextArgument
  rw [same]

/-- The arguments do not make a command. -/
def Fails (args : List (ArgKind × Text)) (kind : ArgKind) : Prop :=
  kind ≠ .normal ∨ (Scommand.ofArguments args).isEmpty = true

instance (args : List (ArgKind × Text)) (kind : ArgKind) : Decidable (Fails args kind) :=
  inferInstanceAs (Decidable (_ ∨ _))

/-- What a call of `parse_scommand` traces before it knows whether it succeeds. -/
def scommandEvents (handle : Nat) (args : List (ArgKind × Text)) : List Event :=
  .new (.scommand handle) :: .parser .skipBlanks ::
    List.replicate (args.length + 1) (.parser .nextArgument)

theorem parseScommand_eq {w : World} {rest : Text} {args : List (ArgKind × Text)} {kind : ArgKind}
    (h : Arguments w.rest args kind rest) :
    parseScommand w =
      if Fails args kind then
        (none,
          { w with
            rest := rest
            fresh := w.fresh + 1
            trace := w.trace ++ (scommandEvents w.fresh args ++ [.destroy (.scommand w.fresh)]) })
      else
        (some { handle := w.fresh, value := .ofArguments args },
          { w with
            rest := rest
            fresh := w.fresh + 1
            trace := w.trace ++ scommandEvents w.fresh args }) := by
  have loop := ScommandLoop.final_of_arguments h { handle := w.fresh, value := .new }
    { w with
      fresh := w.fresh + 1
      trace := w.trace ++ [.new (.scommand w.fresh), .parser .skipBlanks, .parser .nextArgument] }
  have fails : (kind = .input ∨ kind = .output ∨ (Scommand.ofArguments args).isEmpty = true) ↔
      Fails args kind := by
    unfold Fails
    cases kind <;> simp
  simp only at loop
  rw [← Scommand.ofArguments] at loop
  simp only [parseScommand, World.scommandNew, World.skipBlanks, World.nextArgument, World.emit,
    Parser.nextArgument_skipBlanks, List.append_assoc, List.cons_append, List.nil_append, loop]
  by_cases fail : Fails args kind
  · rw [if_pos fail, if_pos (fails.mpr fail)]
    simp [World.scommandDestroy, World.emit, scommandEvents, List.replicate_succ]
  · rw [if_neg fail, if_neg (mt fails.mp fail)]
    simp [scommandEvents, List.replicate_succ]

theorem parseScommand_length_le (w : World) : (parseScommand w).2.rest.length ≤ w.rest.length := by
  obtain ⟨args, kind, rest, h⟩ := arguments_exist w.rest
  rw [parseScommand_eq h]
  have := h.length_le
  split <;> exact this

/-! ## parse_pipeline -/

/-- The variables of `parse_pipeline` at the head of its loop. -/
structure PipelineLoop where
  result : PipelineRef
  error : Bool
  anotherPipe : Bool
  world : World

namespace PipelineLoop

/-- `while (another_pipe && !error)` -/
def body (s : PipelineLoop) : PipelineLoop ⊕ PipelineLoop :=
  if s.anotherPipe && !s.error then
    match parseScommand s.world with
    | (none, w) => .inl { s with error := true, world := w }
    | (some cmd, w) =>
      .inl
        { result := { s.result with value := s.result.value.pushBack cmd }
          error := false
          anotherPipe := w.skipBlanks.opPipe.1
          world := w.skipBlanks.opPipe.2 }
  else .inr s

def measure (s : PipelineLoop) : Nat :=
  2 * s.world.rest.length + if s.anotherPipe && !s.error then 1 else 0

theorem decreases (s s' : PipelineLoop) (h : s.body = .inl s') : s'.measure < s.measure := by
  unfold body at h
  split at h
  next again =>
    have parsed := parseScommand_length_le s.world
    simp only [measure, again, if_true]
    split at h
    next w call =>
      obtain rfl := Sum.inl.inj h
      simp only [call] at parsed
      simp only [Bool.not_true, Bool.and_false, Bool.false_eq_true, if_false]
      omega
    next cmd w call =>
      obtain rfl := Sum.inl.inj h
      simp only [call] at parsed
      have skipped := Parser.skipBlanks_length_le w.rest
      have piped := Parser.op_length '|' (Parser.skipBlanks w.rest)
      simp only [World.skipBlanks, World.emit, World.opPipe, Parser.opPipe, Bool.not_false, Bool.and_true]
      split
      next hit => simp only [hit, if_true] at piped; omega
      next miss => simp only [miss] at piped; omega
  next => cases h

def final (s : PipelineLoop) : PipelineLoop := Loop.result measure decreases s

end PipelineLoop

def parsePipeline (w : World) : Option PipelineRef × World :=
  -- the assertion on entry asks for the end of file
  let (_, w) := w.atEof
  let (result, w) := w.pipelineNew
  let s := PipelineLoop.final { result, error := false, anotherPipe := true, world := w }
  let (eof, w) := s.world.atEof
  if !eof then
    let (isBackground, w) := w.opBackground
    let result : PipelineRef := { s.result with value := s.result.value.setWait (!isBackground) }
    let (garbage, w) := w.garbage
    if garbage then (none, w.lastGarbage.parserDestroy)
    else if s.error || result.value.length == 0 then (none, w.pipelineDestroy result)
    else (some result, w)
  else (some s.result, w)

/-! ## What the loop reads -/

/-- What the loop of `parse_pipeline` reads: the arguments of each command, those of a last
    one that fails if there is one, and the text left. -/
inductive Segments : Text → List (List (ArgKind × Text)) → Option (List (ArgKind × Text)) → Text →
    Prop where
  | fail {t rest : Text} {args : List (ArgKind × Text)} {kind : ArgKind} :
      Arguments t args kind rest → Fails args kind → Segments t [] (some args) rest
  | last {t rest : Text} {args : List (ArgKind × Text)} {kind : ArgKind} :
      Arguments t args kind rest → ¬ Fails args kind →
      (Parser.opPipe (Parser.skipBlanks rest)).1 = false →
      Segments t [args] none (Parser.skipBlanks rest)
  | more {t rest next rest' : Text} {args : List (ArgKind × Text)} {kind : ArgKind}
      {segs : List (List (ArgKind × Text))} {failed : Option (List (ArgKind × Text))} :
      Arguments t args kind rest → ¬ Fails args kind →
      Parser.opPipe (Parser.skipBlanks rest) = (true, next) → Segments next segs failed rest' →
      Segments t (args :: segs) failed rest'

theorem segments_exist (t : Text) : ∃ segs failed rest, Segments t segs failed rest := by
  induction h : t.length using Nat.strongRecOn generalizing t with
  | _ m ih =>
    subst h
    obtain ⟨args, kind, rest, arguments⟩ := arguments_exist t
    by_cases fails : Fails args kind
    · exact ⟨[], some args, rest, .fail arguments fails⟩
    · have read := arguments.length_le
      have skipped := Parser.skipBlanks_length_le rest
      have piped := Parser.op_length '|' (Parser.skipBlanks rest)
      cases hit : Parser.opPipe (Parser.skipBlanks rest) with
      | mk another next =>
        rw [Parser.opPipe] at hit
        simp only [hit] at piped
        cases another with
        | false => exact ⟨[args], none, _, .last arguments fails (by rw [Parser.opPipe, hit])⟩
        | true =>
          simp only [if_true] at piped
          obtain ⟨segs, failed, rest', more⟩ := ih next.length (by omega) next rfl
          exact ⟨args :: segs, failed, rest', .more arguments fails hit more⟩

/-- The objects of the commands read, from the handle `fresh` on. -/
def segmentRefs (fresh : Nat) : List (List (ArgKind × Text)) → List (Ref Scommand)
  | [] => []
  | args :: segs =>
    { handle := fresh, value := .ofArguments args } :: segmentRefs (fresh + 1) segs

def segmentEvents (fresh : Nat) :
    List (List (ArgKind × Text)) → Option (List (ArgKind × Text)) → List Event
  | [], none => []
  | [], some args => scommandEvents fresh args ++ [.destroy (.scommand fresh)]
  | args :: segs, failed =>
    scommandEvents fresh args ++
      .parser .skipBlanks :: .parser .opPipe :: segmentEvents (fresh + 1) segs failed

theorem Parser.op_miss {c : Char} {t : Text} (h : (Parser.op c t).1 = false) :
    Parser.op c t = (false, t) := by
  cases t with
  | nil => rfl
  | cons d t =>
    by_cases same : d = c
    · simp [Parser.op, same] at h
    · simp [Parser.op, same]

theorem PipelineLoop.final_of_segments {t rest : Text} {segs : List (List (ArgKind × Text))}
    {failed : Option (List (ArgKind × Text))} (h : Segments t segs failed rest)
    (result : PipelineRef) (w : World) (here : w.rest = t) :
    PipelineLoop.final { result, error := false, anotherPipe := true, world := w } =
      { result :=
          { result with
            value := { result.value with pipe := result.value.pipe ++ segmentRefs w.fresh segs } }
        error := failed.isSome
        anotherPipe := failed.isSome
        world :=
          { w with
            rest := rest
            fresh := w.fresh + segs.length + failed.toList.length
            trace := w.trace ++ segmentEvents w.fresh segs failed } } := by
  induction h generalizing result w with
  | fail arguments fails =>
    rw [← here] at arguments
    rw [final, Loop.result_eq]
    simp only [body, Bool.not_false, Bool.and_self, if_true, parseScommand_eq arguments, if_pos fails]
    rw [Loop.result_eq]
    simp [body, segmentRefs, segmentEvents]
  | last arguments fails miss =>
    rw [← here] at arguments
    rw [final, Loop.result_eq]
    simp only [body, Bool.not_false, Bool.and_self, if_true, parseScommand_eq arguments, if_neg fails]
    rw [Loop.result_eq]
    simp [body, World.skipBlanks, World.opPipe, World.emit, miss, segmentRefs, segmentEvents,
      Pipeline.pushBack]
    exact congrArg Prod.snd (Parser.op_miss miss)
  | more arguments fails hit more ih =>
    rw [← here] at arguments
    rw [final, Loop.result_eq]
    simp only [body, Bool.not_false, Bool.and_self, if_true, parseScommand_eq arguments, if_neg fails,
      World.skipBlanks, World.opPipe, World.emit, hit]
    rw [← final, ih _ _ rfl]
    simp [segmentRefs, segmentEvents, Pipeline.pushBack]
    omega

/-- What a call of `parse_pipeline` traces up to the test for the end of file after its
    loop. -/
def pipelineEvents (fresh : Nat) (segs : List (List (ArgKind × Text)))
    (failed : Option (List (ArgKind × Text))) : List Event :=
  .parser .atEof :: .new (.pipeline fresh) ::
    (segmentEvents (fresh + 1) segs failed ++ [.parser .atEof])

/-- The pipeline a call has built when its loop is left. -/
def segmentPipeline (fresh : Nat) (segs : List (List (ArgKind × Text))) (wait : Bool) : PipelineRef :=
  { handle := fresh, value := { pipe := segmentRefs (fresh + 1) segs, wait := wait } }

def World.afterSegments (w : World) (segs : List (List (ArgKind × Text)))
    (failed : Option (List (ArgKind × Text))) (rest : Text) (events : List Event) : World :=
  { w with
    rest := rest
    fresh := w.fresh + 1 + segs.length + failed.toList.length
    trace := w.trace ++ (pipelineEvents w.fresh segs failed ++ events) }

@[simp] theorem World.afterSegments_live (w : World) (segs : List (List (ArgKind × Text)))
    (failed : Option (List (ArgKind × Text))) (rest : Text) (events : List Event) :
    (w.afterSegments segs failed rest events).live = w.live := rfl

@[simp] theorem World.afterSegments_trace (w : World) (segs : List (List (ArgKind × Text)))
    (failed : Option (List (ArgKind × Text))) (rest : Text) (events : List Event) :
    (w.afterSegments segs failed rest events).trace =
      w.trace ++ (pipelineEvents w.fresh segs failed ++ events) := rfl

theorem World.foldl_scommandDestroy (scs : List (Ref Scommand)) (w : World) :
    scs.foldl World.scommandDestroy w =
      { w with trace := w.trace ++ scs.map (.destroy <| .scommand ·.handle) } := by
  induction scs generalizing w with
  | nil => simp
  | cons sc scs ih =>
    rw [List.foldl_cons, ih]
    simp [World.scommandDestroy, World.emit]

theorem World.pipelineDestroy_eq (w : World) (pl : PipelineRef) :
    w.pipelineDestroy pl = { w with trace := w.trace ++ pl.objects.reverse.map .destroy } := by
  rw [World.pipelineDestroy, foldl_scommandDestroy]
  simp [World.emit, PipelineRef.objects, Function.comp_def]

@[simp] theorem segmentRefs_length (fresh : Nat) (segs : List (List (ArgKind × Text))) :
    (segmentRefs fresh segs).length = segs.length := by
  induction segs generalizing fresh with
  | nil => rfl
  | cons args segs ih => simp [segmentRefs, ih]

/-- `parse_pipeline` from what its loop reads. -/
theorem parsePipeline_eq {w : World} {rest : Text} {segs : List (List (ArgKind × Text))}
    {failed : Option (List (ArgKind × Text))} (h : Segments w.rest segs failed rest) :
    parsePipeline w =
      if rest = [] then
        (some (segmentPipeline w.fresh segs true), w.afterSegments segs failed [] [])
      else if (Parser.garbage (Parser.opBackground rest).2).1 then
        (none,
          { w.afterSegments segs failed (Parser.afterLine (Parser.opBackground rest).2)
              [.parser .opBackground, .parser .garbage, .parser .lastGarbage, .parserDestroy] with
            live := false })
      else if failed.isSome ∨ segs = [] then
        (none, w.afterSegments segs failed (Parser.afterLine (Parser.opBackground rest).2)
          ([.parser .opBackground, .parser .garbage] ++
            (segmentPipeline w.fresh segs true).objects.reverse.map .destroy))
      else
        (some (segmentPipeline w.fresh segs (!(Parser.opBackground rest).1)),
          w.afterSegments segs failed (Parser.afterLine (Parser.opBackground rest).2)
            [.parser .opBackground, .parser .garbage]) := by
  have loop := PipelineLoop.final_of_segments h { handle := w.fresh, value := .new }
    { w with
      fresh := w.fresh + 1
      trace := w.trace ++ [.parser .atEof, .new (.pipeline w.fresh)] } rfl
  simp only [parsePipeline, World.atEof, World.pipelineNew, World.emit, List.append_assoc,
    List.cons_append, List.nil_append, loop]
  by_cases eof : rest = []
  · simp [eof, Parser.atEof, segmentPipeline, World.afterSegments, pipelineEvents, Pipeline.new]
  · have more : Parser.atEof rest = false := by simpa [Parser.atEof] using eof
    simp only [eof, more, Bool.not_false, if_true, if_false, World.opBackground, World.garbage,
      World.emit]
    by_cases garbage : (Parser.garbage (Parser.opBackground rest).2).1 = true
    · rw [if_pos garbage]
      refine (if_pos garbage).trans ?_
      simp [World.lastGarbage, World.parserDestroy, World.emit, World.afterSegments, pipelineEvents,
        Parser.garbage]
    · have again : (failed.isSome || (segmentRefs (w.fresh + 1) segs).length == 0) = true ↔
          failed.isSome = true ∨ segs = [] := by simp
      rw [if_neg garbage]
      refine (if_neg garbage).trans ?_
      simp only [Pipeline.setWait, Pipeline.length, Pipeline.new, List.nil_append, again]
      split
      · rw [World.pipelineDestroy_eq]
        simp [World.afterSegments, pipelineEvents, Parser.garbage, segmentPipeline, PipelineRef.objects]
      · simp [segmentPipeline, World.afterSegments, pipelineEvents, Parser.garbage]

end Sistemas.Mybash
