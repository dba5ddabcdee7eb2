import Sistemas.Xv6.Console

/-! # The line discipline

What the console is for, without indices: a queue of committed characters and the line that is
being typed.

* `edit` — what a key does to the line.
* `typed` — the committed characters and the line after some keys, whoever reads.
* `line` — the device.
* `Kept` — what the readers have got and what is in the queue is what has been committed.
-/

namespace Sistemas.Xv6.Console

structure Line where
  queue : List UInt8
  line : List UInt8

/-- What is committed by a key, and the line it leaves. -/
def edit (room : Nat) (c : UInt8) (line : List UInt8) : List UInt8 × List UInt8 :=
  if c = ctrlP then ([], line)
  else if c = ctrlU then ([], [])
  else if c = ctrlH ∨ c = delete then ([], line.dropLast)
  else if c ≠ 0 ∧ 0 < room then
    let c := if c = carriageReturn then newline else c
    if c = newline ∨ c = ctrlD ∨ room = 1 then (line ++ [c], []) else ([], line ++ [c])
  else ([], line)

namespace Line

def init : Line := { queue := [], line := [] }

def room (t : Line) : Nat := inputBufSize - (t.queue ++ t.line).length

def intr (c : UInt8) (t : Line) : Line × Bool :=
  ({ queue := t.queue ++ (edit t.room c t.line).1, line := (edit t.room c t.line).2 },
    !(edit t.room c t.line).1.isEmpty)

def read (target : Nat) : (n : Nat) → Line → Piece Line
  | 0, t => { state := t, n := 0, bytes := [], returned := true }
  | n + 1, { queue := [], line := line } =>
    { state := { queue := [], line := line }, n := n + 1, bytes := [], returned := false }
  | n + 1, { queue := c :: queue, line := line } =>
    if c = ctrlD then
      { state := { queue := if n + 1 < target then c :: queue else queue, line := line }
        n := n + 1
        bytes := []
        returned := true }
    else if c = newline then
      { state := { queue := queue, line := line }, n := n, bytes := [c], returned := true }
    else
      let rest := read target n { queue := queue, line := line }
      { rest with bytes := c :: rest.bytes }

end Line

def line : Device Line where
  intr := Line.intr
  read := Line.read
  room := Line.room

/-! ## What happened -/

/-- The characters committed so far, and the line. -/
structure Typed where
  committed : List UInt8
  line : List UInt8

def Typed.event (t : Typed) : Event → Typed
  | .key c room =>
    { committed := t.committed ++ (edit room c t.line).1, line := (edit room c t.line).2 }
  | .read _ _ => t

def typed (es : List Event) : Typed := es.foldl Typed.event { committed := [], line := [] }

def Event.bytes : Event → List UInt8
  | .key _ _ => []
  | .read bytes _ => bytes

/-- The bytes handed to readers. -/
def handed (es : List Event) : List UInt8 := es.flatMap Event.bytes

def Result.isEmpty (r : Result) : Bool := r.dst.isEmpty

def Event.result : Event → Option Result
  | .key _ _ => none
  | .read _ result => result

/-- A read that returns 0 bytes. -/
def Event.empty (e : Event) : Nat := if e.result.any Result.isEmpty then 1 else 0

/-- The reads that return 0 bytes. -/
def empties (es : List Event) : Nat := (es.map Event.empty).sum

/-- Without the `^D`s. -/
def data (cs : List UInt8) : List UInt8 := cs.filter (· ≠ ctrlD)

variable {cs ds : List UInt8} {c : UInt8} {es : List Event} {e : Event} {target n room : Nat} {t : Line}

@[simp] theorem typed_append : typed (es ++ [e]) = (typed es).event e := by
  simp [typed]

@[simp] theorem handed_append : handed (es ++ [e]) = handed es ++ e.bytes := by
  simp [handed]

@[simp] theorem empties_append : empties (es ++ [e]) = empties es + e.empty := by
  simp [empties]

@[simp] theorem data_nil : data [] = [] := rfl

@[simp] theorem data_append : data (cs ++ ds) = data cs ++ data ds := List.filter_append ..

theorem data_plain (plain : ctrlD ∉ cs) : data cs = cs := by
  apply List.filter_eq_self.mpr
  intro c mem
  have other : c ≠ ctrlD := fun eq => plain (eq ▸ mem)
  simpa using other

@[simp] theorem data_ctrlD : data (ctrlD :: cs) = data cs := by
  simp [data]

/-! ## Keys -/

/-- No newline stays in the line. -/
theorem edit_plain (plain : newline ∉ cs) : newline ∉ (edit room c cs).2 := by
  unfold edit
  split
  · exact plain
  split
  · simp
  split
  · exact fun mem => plain (List.dropLast_subset cs mem)
  split
  · generalize (if c = carriageReturn then newline else c) = c
    by_cases commits : c = newline ∨ c = ctrlD ∨ room = 1
    · simp [commits]
    · have other : newline ≠ c := fun eq => commits (.inl eq.symm)
      simp [commits, plain, other]
  · exact plain

/-- The queue and the line grow by one character at most, and only when there is room. -/
theorem edit_length (room : Nat) (c : UInt8) (cs : List UInt8) : (edit room c cs).1.length + (edit room c cs).2.length ≤
    cs.length + if 0 < room then 1 else 0 := by
  unfold edit
  split
  · simp
  split
  · simp
  split
  · simp
    omega
  split
  next stored =>
    rw [if_pos stored.2]
    generalize (if c = carriageReturn then newline else c) = c
    by_cases commits : c = newline ∨ c = ctrlD ∨ room = 1
    · simp [commits]
    · simp [commits]
  · simp

/-! ## Reads -/

/-- Where a reader stops. -/
def Stops (target : Nat) (piece : Piece Line) : Prop :=
  piece.n = 0 ∨ piece.bytes.getLast? = some newline ∨
    piece.n < target ∧ piece.state.queue.head? = some ctrlD

/-- What a piece of a read takes from the queue. -/
structure Took (target n : Nat) (t : Line) (piece : Piece Line) : Prop where
  line : piece.state.line = t.line
  count : piece.n + piece.bytes.length = n
  plain : ctrlD ∉ piece.bytes
  queue : t.queue = piece.bytes ++ piece.state.queue ∧
      (if piece.returned then Stops target piece else 0 < piece.n) ∨
    t.queue = ctrlD :: piece.state.queue ∧ piece.bytes = [] ∧ piece.returned = true ∧
      piece.n = target

theorem read_took (le : n ≤ target) : Took target n t (Line.read target n t) := by
  fun_induction Line.read target n t with
  | case1 t =>
    refine ⟨rfl, rfl, by simp, .inl ⟨rfl, ?_⟩⟩
    exact .inl rfl
  | case2 n line => exact ⟨rfl, rfl, by simp, .inl ⟨rfl, Nat.succ_pos n⟩⟩
  | case3 n queue line =>
    by_cases more : n + 1 < target
    · refine ⟨rfl, rfl, by simp, .inl ⟨by simp [more], ?_⟩⟩
      exact .inr (.inr ⟨more, by simp [more]⟩)
    · exact ⟨rfl, rfl, by simp, .inr ⟨by simp [more], rfl, rfl, by simp; omega⟩⟩
  | case4 n queue line other =>
    refine ⟨rfl, rfl, by simpa using Ne.symm other, .inl ⟨rfl, ?_⟩⟩
    exact .inr (.inl rfl)
  | case5 n c queue line other more rest ih =>
    have took : Took target n { queue := queue, line := line } rest := ih (by omega)
    obtain ⟨same, count, plain, took⟩ := took
    refine ⟨same, ?_, ?_, .inl ?_⟩
    · rw [← count, List.length_cons, ← Nat.add_assoc]
    · simpa [plain] using Ne.symm other
    · rcases took with ⟨split, ends⟩ | ⟨-, -, -, whole⟩
      · refine ⟨congrArg (c :: ·) split, ?_⟩
        by_cases back : rest.returned = true
        · rw [if_pos back] at ends
          rw [if_pos back]
          rcases ends with done | last | front
          · exact .inl done
          · exact .inr (.inl (by simp [List.getLast?_cons, last]))
          · exact .inr (.inr front)
        · rw [if_neg back] at ends
          rwa [if_neg back]
      · omega

/-! ## The whole history -/

/-- A reader that waits. -/
structure Reader.Valid (x : Reader) : Prop where
  more : 0 < x.n
  count : x.n + x.dst.length = x.target

variable {P : Type} [DecidableEq P] {u u' : Tty Line P}

structure Kept (es : List Event) (u : Tty Line P) : Prop where
  line : (typed es).line = u.device.line
  bytes : data (typed es).committed = handed es ++ data u.device.queue
  ends : (typed es).committed.count ctrlD = empties es + u.device.queue.count ctrlD
  plain : newline ∉ u.device.line
  fits : (u.device.queue ++ u.device.line).length ≤ inputBufSize
  readers : ∀ p x, u.reader p = some x → x.Valid

omit [DecidableEq P] in
theorem Tty.entering_valid {l : Label P} {p : P} {x : Reader}
    (readers : ∀ p x, u.reader p = some x → x.Valid) (entering : u.entering l = some (p, x)) :
    x.Valid := by
  cases l with
  | intr c => cases entering
  | call q n =>
    simp only [Tty.entering] at entering
    split at entering
    next free =>
      cases entering
      exact ⟨free.2, Nat.add_zero n⟩
    next => cases entering
  | resume q =>
    simp only [Tty.entering, Option.map_eq_some_iff, Option.filter_eq_some_iff] at entering
    obtain ⟨y, ⟨found, -⟩, same⟩ := entering
    cases same
    exact readers p x found

/-- What a returning reader has got. -/
structure Result.Ends (r : Result) (before after : List UInt8) : Prop where
  le : r.dst.length ≤ r.target
  stops : r.dst.length = r.target ∨ r.dst.getLast? = some newline ∨
    r.dst ≠ [] ∧ after.head? = some ctrlD ∨ r.dst = [] ∧ before = ctrlD :: after

theorem Took.result {x : Reader} {piece : Piece Line} {r : Result} (valid : x.Valid)
    (took : Took x.target x.n t piece) (result : Tty.result x piece = some r) :
    r.Ends t.queue piece.state.queue := by
  unfold Tty.result at result
  split at result
  next back =>
    cases result
    have total := valid.count
    have count := took.count
    refine ⟨by simp; omega, ?_⟩
    rcases took.queue with ⟨-, ends⟩ | ⟨split, none, -, whole⟩
    · rw [if_pos back] at ends
      rcases ends with done | last | ⟨less, front⟩
      · exact .inl (by simp; omega)
      · exact .inr (.inl (by simp [List.getLast?_append, last]))
      · have got : x.dst ++ piece.bytes ≠ [] := by
          intro empty
          obtain ⟨first, none⟩ := List.append_eq_nil_iff.mp empty
          rw [first, List.length_nil] at total
          rw [none, List.length_nil] at count
          omega
        exact .inr (.inr (.inl ⟨got, front⟩))
    · have first : x.dst = [] := by
        apply List.eq_nil_of_length_eq_zero
        rw [none, List.length_nil] at count
        omega
      exact .inr (.inr (.inr ⟨by simp [first, none], split⟩))
  next => cases result

/-- The reader returns nothing just when it takes a `^D`. -/
theorem Took.empties {x : Reader} {piece : Piece Line} (valid : x.Valid)
    (took : Took x.target x.n t piece) :
    t.queue.count ctrlD = (Event.read piece.bytes (Tty.result x piece)).empty +
      piece.state.queue.count ctrlD := by
  have total := valid.count
  have more := valid.more
  have count := took.count
  rcases took.queue with ⟨split, ends⟩ | ⟨split, none, back, whole⟩
  · have rest : (Tty.result x piece).any Result.isEmpty = false := by
      unfold Tty.result
      split
      next back =>
        rw [if_pos back] at ends
        have got : x.dst ++ piece.bytes ≠ [] := by
          intro empty
          obtain ⟨first, none⟩ := List.append_eq_nil_iff.mp empty
          rw [first, List.length_nil] at total
          rw [none, List.length_nil] at count
          rcases ends with done | last | ⟨less, -⟩
          · omega
          · simp [none] at last
          · omega
        simpa [Result.isEmpty] using got
      next => rfl
    rw [split, List.count_append, List.count_eq_zero_of_not_mem took.plain]
    simp [Event.empty, Event.result, rest]
  · have first : x.dst = [] := by
      apply List.eq_nil_of_length_eq_zero
      rw [none, List.length_nil] at count
      omega
    have zero : (Tty.result x piece).any Result.isEmpty = true := by
      simp [Tty.result, back, first, none, Result.isEmpty]
    rw [split, List.count_cons_self, Event.empty, Event.result, if_pos zero, Nat.add_comm]

theorem Took.data {piece : Piece Line} (took : Took target n t piece) :
    data t.queue = piece.bytes ++ data piece.state.queue := by
  rcases took.queue with ⟨split, -⟩ | ⟨split, none, -⟩
  · rw [split, data_append, data_plain took.plain]
  · rw [split, none, data_ctrlD, List.nil_append]

theorem Took.after {x y : Reader} {piece : Piece Line} (valid : x.Valid)
    (took : Took x.target x.n t piece) (stays : Tty.Reader.after x piece = some y) : y.Valid := by
  unfold Tty.Reader.after at stays
  split at stays
  next => cases stays
  next waits =>
    cases stays
    have total := valid.count
    have count := took.count
    rcases took.queue with ⟨-, ends⟩ | ⟨-, -, back, -⟩
    · rw [if_neg waits] at ends
      exact ⟨ends, by simp; omega⟩
    · exact absurd back waits

omit [DecidableEq P] in
theorem Kept.intr (kept : Kept es u) (c : UInt8) (reader : P → Option Reader)
    (readers : ∀ p x, reader p = some x → x.Valid) :
    Kept (es ++ [.key c u.device.room]) { device := (Line.intr c u.device).1, reader := reader } where
  line := by simp [Typed.event, Line.intr, kept.line]
  bytes := by simp [Typed.event, Line.intr, kept.line, kept.bytes, Event.bytes]
  ends := by
    simp [Typed.event, Line.intr, kept.line, kept.ends, Event.empty, Event.result]
    omega
  plain := edit_plain kept.plain
  fits := by
    have fits := kept.fits
    have length := edit_length u.device.room c u.device.line
    simp only [Line.intr, List.length_append] at fits length ⊢
    by_cases more : 0 < u.device.room
    · rw [if_pos more] at length
      rw [Line.room, List.length_append] at more
      omega
    · rw [if_neg more] at length
      omega
  readers := readers

theorem Kept.read (kept : Kept es u) (p : P) {x : Reader} (valid : x.Valid) :
    Kept (es ++ [u.reads Console.line x]) (u.enter Console.line p x) := by
  have le : x.n ≤ x.target := by
    have count := valid.count
    omega
  have took := read_took (t := u.device) le
  have fits : ((Line.read x.target x.n u.device).state.queue).length ≤ u.device.queue.length := by
    rcases took.queue with ⟨split, -⟩ | ⟨split, -⟩ <;>
    · rw [split]
      simp
  have event : u.reads Console.line x = .read (Line.read x.target x.n u.device).bytes
      (Tty.result x (Line.read x.target x.n u.device)) := rfl
  rw [event]
  refine ⟨?_, ?_, ?_, ?_, ?_, ?_⟩
  · simp [Typed.event, kept.line, Tty.enter, Console.line, took.line]
  · simp [Typed.event, kept.bytes, Event.bytes, Tty.enter, Console.line, took.data]
  · have empties := took.empties valid
    have committed := kept.ends
    rw [empties] at committed
    simpa [Typed.event, Tty.enter, Console.line, Nat.add_assoc] using committed
  · simpa [Tty.enter, Console.line, took.line] using kept.plain
  · have before := kept.fits
    simp [Tty.enter, Console.line, took.line] at before ⊢
    omega
  · intro q y found
    by_cases here : q = p
    · subst q
      simp only [Tty.enter, Function.update_self] at found
      exact took.after valid found
    · simp only [Tty.enter, Function.update_of_ne here] at found
      exact kept.readers q y found

omit [DecidableEq P] in
theorem kept_start : Kept [] (Tty.start Line.init : Tty Line P) where
  line := rfl
  bytes := rfl
  ends := rfl
  plain := List.not_mem_nil
  fits := Nat.zero_le _
  readers _ _ found := by cases found

theorem Kept.step {l : Label P} (kept : Kept es u) (step : u.step Console.line l = some u') :
    Kept (es ++ (u.obs Console.line l).toList) u' := by
  cases l with
  | intr c =>
    have woken : ∀ p x, u.wakeup.reader p = some x → x.Valid := by
      intro p x found
      obtain ⟨y, before, rfl⟩ := Option.map_eq_some_iff.mp found
      have valid := kept.readers p y before
      exact ⟨valid.more, valid.count⟩
    simp only [Tty.step] at step
    split at step
    next =>
      cases step
      exact kept.intr c _ woken
    next =>
      cases step
      exact kept.intr c _ kept.readers
  | call p n =>
    obtain ⟨⟨q, x⟩, entering, rfl⟩ := Option.map_eq_some_iff.mp step
    simp only [Tty.obs, entering, Option.map_some, Option.toList_some]
    exact kept.read q (Tty.entering_valid kept.readers entering)
  | resume p =>
    obtain ⟨⟨q, x⟩, entering, rfl⟩ := Option.map_eq_some_iff.mp step
    simp only [Tty.obs, entering, Option.map_some, Option.toList_some]
    exact kept.read q (Tty.entering_valid kept.readers entering)

theorem Kept.run {ls : List (Label P)}
    (run : (Tty.start Line.init : Tty Line P).exec Console.line ls = some u) :
    Kept ((Tty.start Line.init : Tty Line P).trace Console.line ls) u :=
  Transition.trace_invariant (fun _ _ _ _ kept step => Kept.step kept step) kept_start run

end Sistemas.Xv6.Console
