import Mathlib.Data.List.TakeWhile
import Sistemas.Mybash.Command

/-! # The parser as a cursor

What `parser.h` says of the operations of `Parser`, as functions on the characters that
remain.  Blanks are spaces and tabs; a word is a longest run of characters that are
neither blanks nor one of `|`, `&`, `<`, `>` and the end of line.  `parser_at_eof` is the
documented one too, true when nothing remains; the one in the object files tells the end
only after a read has gone past it.

`Lexeme` gives the four shapes in which `parser_next_argument` can find the input; every
input has one of them (`lexeme_exists`), and each determines the answer
(`Lexeme.nextArgument_eq`).
-/

namespace Sistemas.Mybash

inductive ArgKind where
  | normal | input | output
  deriving DecidableEq

namespace Parser

def isBlank (c : Char) : Bool := c = ' ' ∨ c = '\t'

def isWord (c : Char) : Bool :=
  c ≠ ' ' ∧ c ≠ '\t' ∧ c ≠ '\n' ∧ c ≠ '|' ∧ c ≠ '&' ∧ c ≠ '<' ∧ c ≠ '>'

/-- The kind that a redirection operator announces. -/
def redirection (c : Char) : Option ArgKind :=
  if c = '<' then some .input else if c = '>' then some .output else none

def skipBlanks (t : Text) : Text := t.dropWhile isBlank

def nextWord (t : Text) : Option Text × Text :=
  if t.takeWhile isWord = [] then (none, t) else (some (t.takeWhile isWord), t.dropWhile isWord)

def nextArgument (t : Text) : Option Text × ArgKind × Text :=
  match skipBlanks t with
  | [] => (none, .normal, [])
  | c :: rest =>
    match redirection c with
    | some kind => ((nextWord (skipBlanks rest)).1, kind, (nextWord (skipBlanks rest)).2)
    | none => ((nextWord (c :: rest)).1, .normal, (nextWord (c :: rest)).2)

def op (c : Char) : Text → Bool × Text
  | d :: rest => if d = c then (true, rest) else (false, d :: rest)
  | [] => (false, [])

def opPipe : Text → Bool × Text := op '|'

def opBackground : Text → Bool × Text := op '&'

def firstLine (t : Text) : Text := t.takeWhile (· ≠ '\n')

/-- The characters after the end of the line. -/
def afterLine (t : Text) : Text := (t.dropWhile (· ≠ '\n')).tail

def garbage (t : Text) : Bool × Text := ((firstLine t).any (!isBlank ·), afterLine t)

def atEof (t : Text) : Bool := t.isEmpty

/-! ## Runs of characters -/

/-- The first character, if there is one, has the property. -/
def starts (p : Char → Bool) : Text → Bool
  | [] => false
  | c :: _ => p c

@[simp] theorem starts_nil (p : Char → Bool) : starts p [] = false := rfl

@[simp] theorem starts_cons (p : Char → Bool) (c : Char) (t : Text) : starts p (c :: t) = p c := rfl

def Blanks (t : Text) : Prop := ∀ c ∈ t, isBlank c = true

def Word (t : Text) : Prop := t ≠ [] ∧ ∀ c ∈ t, isWord c = true

instance (t : Text) : Decidable (Blanks t) := List.decidableBAll (isBlank · = true) t

instance (t : Text) : Decidable (Word t) :=
  have := List.decidableBAll (isWord · = true) t
  inferInstanceAs (Decidable (t ≠ [] ∧ ∀ c ∈ t, isWord c = true))

section Runs

variable {p : Char → Bool} {t u : Text}

theorem starts_dropWhile (p : Char → Bool) (t : Text) : starts p (t.dropWhile p) = false := by
  induction t with
  | nil => rfl
  | cons c t ih =>
    cases h : p c <;> simp [h, ih]

theorem dropWhile_of_starts (h : starts p t = false) : t.dropWhile p = t := by
  cases t with
  | nil => rfl
  | cons c t => simp_all

theorem takeWhile_of_starts (h : starts p t = false) : t.takeWhile p = [] := by
  cases t with
  | nil => rfl
  | cons c t => simp_all

theorem dropWhile_run (run : ∀ c ∈ t, p c = true) (stop : starts p u = false) :
    (t ++ u).dropWhile p = u := by
  rw [List.dropWhile_append_of_pos run, dropWhile_of_starts stop]

theorem takeWhile_run (run : ∀ c ∈ t, p c = true) (stop : starts p u = false) :
    (t ++ u).takeWhile p = t := by
  rw [List.takeWhile_append_of_pos run, takeWhile_of_starts stop, List.append_nil]

theorem starts_append (ht : starts p t = false) (hu : starts p u = false) :
    starts p (t ++ u) = false := by
  cases t with
  | nil => exact hu
  | cons c t => exact ht

end Runs

theorem skipBlanks_append {b t : Text} (blanks : Blanks b) (stop : starts isBlank t = false) :
    skipBlanks (b ++ t) = t := dropWhile_run blanks stop

theorem skipBlanks_split (t : Text) :
    ∃ b, Blanks b ∧ t = b ++ skipBlanks t ∧ starts isBlank (skipBlanks t) = false :=
  ⟨t.takeWhile isBlank, fun _ => List.mem_takeWhile_imp, List.takeWhile_append_dropWhile.symm,
    starts_dropWhile isBlank t⟩

theorem skipBlanks_length_le (t : Text) : (skipBlanks t).length ≤ t.length :=
  List.length_dropWhile_le isBlank t

theorem op_length (c : Char) (t : Text) :
    (op c t).2.length + (if (op c t).1 then 1 else 0) = t.length := by
  cases t with
  | nil => rfl
  | cons d t => by_cases h : d = c <;> simp [op, h]

theorem nextWord_word {w t : Text} (word : Word w) (stop : starts isWord t = false) :
    nextWord (w ++ t) = (some w, t) := by
  rw [nextWord, takeWhile_run word.2 stop, dropWhile_run word.2 stop, if_neg word.1]

theorem nextWord_none {t : Text} (stop : starts isWord t = false) : nextWord t = (none, t) := by
  rw [nextWord, takeWhile_of_starts stop, if_pos rfl]

theorem word_split {t : Text} (h : starts isWord t = true) :
    ∃ w u, Word w ∧ t = w ++ u ∧ starts isWord u = false := by
  refine ⟨t.takeWhile isWord, t.dropWhile isWord, ⟨?_, fun _ => List.mem_takeWhile_imp⟩,
    List.takeWhile_append_dropWhile.symm, starts_dropWhile isWord t⟩
  cases t with
  | nil => cases h
  | cons c t => simp_all

/-! ## The next argument -/

/-- Nothing that `parser_next_argument` would consume starts here. -/
def Stops (t : Text) : Prop :=
  starts isBlank t = false ∧ starts isWord t = false ∧ starts (redirection · |>.isSome) t = false

/-- What `parser_next_argument` finds: the text, the argument with its kind, and the text
    it leaves. -/
inductive Lexeme : Text → Option Text → ArgKind → Text → Prop where
  | word {b w t : Text} : Blanks b → Word w → starts isWord t = false →
      Lexeme (b ++ (w ++ t)) (some w) .normal t
  | file {b b' w t : Text} {c : Char} {kind : ArgKind} : Blanks b → redirection c = some kind →
      Blanks b' → Word w → starts isWord t = false →
      Lexeme (b ++ c :: (b' ++ (w ++ t))) (some w) kind t
  | dangling {b b' t : Text} {c : Char} {kind : ArgKind} : Blanks b → redirection c = some kind →
      Blanks b' → starts isBlank t = false → starts isWord t = false →
      Lexeme (b ++ c :: (b' ++ t)) none kind t
  | stop {b t : Text} : Blanks b → Stops t → Lexeme (b ++ t) none .normal t

theorem redirection_eq {c : Char} {kind : ArgKind} (h : redirection c = some kind) :
    (c = '<' ∧ kind = .input) ∨ (c = '>' ∧ kind = .output) := by
  unfold redirection at h
  split at h
  next lt => exact .inl ⟨lt, by simpa using h.symm⟩
  next =>
    split at h
    next gt => exact .inr ⟨gt, by simpa using h.symm⟩
    next => cases h

theorem redirection_not_blank {c : Char} {kind : ArgKind} (h : redirection c = some kind) :
    isBlank c = false := by
  rcases redirection_eq h with ⟨rfl, -⟩ | ⟨rfl, -⟩ <;> rfl

theorem redirection_not_word {c : Char} {kind : ArgKind} (h : redirection c = some kind) :
    isWord c = false := by
  rcases redirection_eq h with ⟨rfl, -⟩ | ⟨rfl, -⟩ <;> rfl

theorem redirection_not_normal {c : Char} {kind : ArgKind} (h : redirection c = some kind) :
    kind ≠ .normal := by
  rcases redirection_eq h with ⟨-, rfl⟩ | ⟨-, rfl⟩ <;> simp

theorem word_not_blank {c : Char} (h : isWord c = true) : isBlank c = false := by
  simp_all [isWord, isBlank]

theorem word_not_redirection {c : Char} (h : isWord c = true) : redirection c = none := by
  simp_all [isWord, redirection]

theorem Word.not_blank {w : Text} (word : Word w) (t : Text) : starts isBlank (w ++ t) = false := by
  cases w with
  | nil => cases word.1 rfl
  | cons c w => exact word_not_blank (word.2 c List.mem_cons_self)

/-- The shape determines the answer. -/
theorem Lexeme.nextArgument_eq {t : Text} {arg : Option Text} {kind : ArgKind} {rest : Text}
    (h : Lexeme t arg kind rest) : nextArgument t = (arg, kind, rest) := by
  unfold nextArgument
  cases h with
  | @word b w _ blanks word stop =>
    rw [skipBlanks_append blanks (word.not_blank _)]
    obtain ⟨c, w, rfl⟩ := List.exists_cons_of_ne_nil word.1
    have plain := word_not_redirection (word.2 c List.mem_cons_self)
    have next := nextWord_word word stop
    simp only [List.cons_append] at next ⊢
    simp only [plain, next]
  | file blanks redir blanks' word stop =>
    rw [skipBlanks_append blanks ((starts_cons ..).trans (redirection_not_blank redir))]
    simp only [redir, skipBlanks_append blanks' (word.not_blank _), nextWord_word word stop]
  | dangling blanks redir blanks' solid stop =>
    rw [skipBlanks_append blanks ((starts_cons ..).trans (redirection_not_blank redir))]
    simp only [redir, skipBlanks_append blanks' solid, nextWord_none stop]
  | stop blanks stops =>
    rw [skipBlanks_append blanks stops.1]
    cases rest with
    | nil => rfl
    | cons c rest =>
      have plain : redirection c = none := by simpa using stops.2.2
      simp only [plain, nextWord_none stops.2.1]

theorem lexeme_exists (t : Text) : ∃ arg kind rest, Lexeme t arg kind rest := by
  obtain ⟨b, blanks, split, solid⟩ := skipBlanks_split t
  rw [split]
  generalize skipBlanks t = u at solid
  cases u with
  | nil => exact ⟨none, .normal, [], .stop blanks ⟨rfl, rfl, rfl⟩⟩
  | cons c u =>
    cases redir : redirection c with
    | some kind =>
      obtain ⟨b', blanks', split', solid'⟩ := skipBlanks_split u
      rw [split']
      generalize skipBlanks u = v at solid'
      cases h : starts isWord v with
      | true =>
        obtain ⟨w, r, word, rfl, stop⟩ := word_split h
        exact ⟨some w, kind, r, .file blanks redir blanks' word stop⟩
      | false => exact ⟨none, kind, v, .dangling blanks redir blanks' solid' h⟩
    | none =>
      cases h : isWord c with
      | true =>
        obtain ⟨w, r, word, split', stop⟩ := word_split (t := c :: u) h
        rw [split']
        exact ⟨some w, .normal, r, .word blanks word stop⟩
      | false => exact ⟨none, .normal, c :: u, .stop blanks ⟨solid, h, by simp [redir]⟩⟩

theorem Lexeme.length_lt {t w rest : Text} {kind : ArgKind} (h : Lexeme t (some w) kind rest) :
    rest.length < t.length := by
  cases h with
  | word _ word _ =>
    have := List.length_pos_iff.mpr word.1
    simp only [List.length_append]
    omega
  | file _ _ _ _ _ =>
    simp only [List.length_append, List.length_cons]
    omega

theorem Lexeme.length_le {t rest : Text} {arg : Option Text} {kind : ArgKind}
    (h : Lexeme t arg kind rest) : rest.length ≤ t.length := by
  cases h <;> simp only [List.length_append, List.length_cons] <;> omega

/-! ## Ends of line -/

theorem Blanks.no_newline {b : Text} (blanks : Blanks b) : '\n' ∉ b := fun mem => by
  cases blanks _ mem

theorem Word.no_newline {w : Text} (word : Word w) : '\n' ∉ w := fun mem => by
  cases word.2 _ mem

theorem redirection_ne_newline {c : Char} {kind : ArgKind} (h : redirection c = some kind) :
    '\n' ≠ c := by
  rcases redirection_eq h with ⟨rfl, -⟩ | ⟨rfl, -⟩ <;> decide

theorem firstLine_append {t : Text} (u : Text) (inside : '\n' ∉ t) :
    firstLine (t ++ u) = t ++ firstLine u :=
  List.takeWhile_append_of_pos fun c mem => by simpa using ne_of_mem_of_not_mem mem inside

theorem afterLine_append {t : Text} (u : Text) (inside : '\n' ∉ t) :
    afterLine (t ++ u) = afterLine u := by
  rw [afterLine, List.dropWhile_append_of_pos fun c mem => by
    simpa using ne_of_mem_of_not_mem mem inside]
  rfl

/-- A text is its first line and, unless it ends there, an end of line and the rest. -/
theorem line_split (t : Text) : t = firstLine t ∧ afterLine t = [] ∨
    t = firstLine t ++ '\n' :: afterLine t := by
  have split : t = firstLine t ++ t.dropWhile (· ≠ '\n') := List.takeWhile_append_dropWhile.symm
  have stop := starts_dropWhile (· ≠ '\n') t
  unfold afterLine
  cases h : t.dropWhile (· ≠ '\n') with
  | nil => exact .inl ⟨by rw [h, List.append_nil] at split; exact split, rfl⟩
  | cons c u =>
    rw [h, starts_cons] at stop
    obtain rfl : c = '\n' := by simpa using stop
    exact .inr (by rw [h] at split; exact split)

end Parser

end Sistemas.Mybash
