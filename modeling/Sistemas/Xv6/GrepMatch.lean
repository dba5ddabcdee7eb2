import Mathlib.Computability.Language

/-! # The matcher of grep

A string is the list of its characters in front of the NUL, and a pointer into it is the list of
those from there on.

* `matchhere`, `matchstar`, `matchText` — the functions of `grep.c`; `matchText` is `match`.
* `Regex` — what a pattern says, with the languages of its items.
* `matchText_iff` — the functions find what the pattern says.
-/

namespace Sistemas.Xv6.Grep

open scoped Computability

/-- `*` -/
def asterisk : UInt8 := 42

/-- `.` -/
def dot : UInt8 := 46

/-- `$` -/
def dollar : UInt8 := 36

/-- `^` -/
def caret : UInt8 := 94

mutual

def matchhere : (re text : List UInt8) → Bool
  | [], _ => true
  | c :: re, text =>
    if re.head? = some asterisk then matchstar c re.tail text
    else if c = dollar ∧ re = [] then text.isEmpty
    else
      match text with
      | [] => false
      | t :: text => if c = dot ∨ c = t then matchhere re text else false
termination_by re text => (re.length, text.length, 0)
decreasing_by
  · apply Prod.Lex.left
    simp only [List.length_tail, List.length_cons]
    omega
  · apply Prod.Lex.left
    simp

def matchstar (c : UInt8) (re text : List UInt8) : Bool :=
  if matchhere re text then true
  else
    match text with
    | [] => false
    | t :: text => if t = c ∨ c = dot then matchstar c re text else false
termination_by (re.length, text.length, 1)
decreasing_by
  · apply Prod.Lex.right
    apply Prod.Lex.right
    decide
  · apply Prod.Lex.right
    apply Prod.Lex.left
    simp

end

/-- The loop of `match`, which also looks at the empty string. -/
def matchFrom (re : List UInt8) : (text : List UInt8) → Bool
  | [] => matchhere re []
  | t :: text => if matchhere re (t :: text) then true else matchFrom re text

def matchText (re text : List UInt8) : Bool :=
  if re.head? = some caret then matchhere re.tail text else matchFrom re text

/-! ## What a pattern says -/

inductive Item where
  | one (c : UInt8)
  | star (c : UInt8)
  deriving DecidableEq

/-- The characters that `c` matches. -/
def Accepts (c t : UInt8) : Prop := c = dot ∨ c = t

def chars (c : UInt8) : Language UInt8 := {w | ∃ t, w = [t] ∧ Accepts c t}

def Item.language : Item → Language UInt8
  | .one c => chars c
  | .star c => (chars c)∗

/-- The items of a pattern, from left to right. -/
def readItems : List UInt8 → List Item
  | [] => []
  | [c] => [.one c]
  | c :: d :: re => if d = asterisk then .star c :: readItems re else .one c :: readItems (d :: re)

structure Regex where
  atStart : Bool
  items : List Item
  atEnd : Bool

/-- A final unstarred `$` is no item. -/
def Regex.ofItems (atStart : Bool) (items : List Item) : Regex :=
  if items.getLast? = some (.one dollar) then ⟨atStart, items.dropLast, true⟩
  else ⟨atStart, items, false⟩

def Regex.read (re : List UInt8) : Regex :=
  if re.head? = some caret then .ofItems true (readItems re.tail) else .ofItems false (readItems re)

def Regex.language (r : Regex) : Language UInt8 := (r.items.map Item.language).prod

/-- The part between `before` and `after` is one that `r` matches. -/
structure Regex.Matches (r : Regex) (before part after : List UInt8) : Prop where
  mem : part ∈ r.language
  start : r.atStart = true → before = []
  finish : r.atEnd = true → after = []

/-! ## Languages of characters -/

variable {c t : UInt8} {re text w : List UInt8} {items : List Item} {L : Language UInt8}

theorem mem_chars_mul : w ∈ chars c * L ↔ ∃ t v, w = t :: v ∧ Accepts c t ∧ v ∈ L := by
  rw [Language.mem_mul]
  constructor
  · rintro ⟨_, ⟨t, rfl, accepts⟩, v, mem, rfl⟩
    exact ⟨t, v, rfl, accepts, mem⟩
  · rintro ⟨t, v, rfl, accepts, mem⟩
    exact ⟨[t], ⟨t, rfl, accepts⟩, v, mem, rfl⟩

theorem mem_kstar_mul :
    w ∈ (chars c)∗ * L ↔ w ∈ L ∨ ∃ t v, w = t :: v ∧ Accepts c t ∧ v ∈ (chars c)∗ * L := by
  have unfold : (chars c)∗ * L = L + chars c * ((chars c)∗ * L) := by
    rw [← mul_assoc]
    nth_rewrite 1 [← Language.one_add_self_mul_kstar_eq_kstar]
    rw [add_mul, one_mul]
  rw [unfold, Language.mem_add, ← unfold, mem_chars_mul]

/-! ## Matches at the beginning of a text -/

/-- The items match at the beginning of `text`. -/
def Starts (items : List Item) (text : List UInt8) : Prop :=
  ∃ part after, text = part ++ after ∧ (Regex.ofItems false items).Matches [] part after

theorem ofItems_cons {i : Item} {b : Bool} (more : i = .one dollar → items ≠ []) :
    Regex.ofItems b (i :: items) =
      ⟨b, i :: (Regex.ofItems b items).items, (Regex.ofItems b items).atEnd⟩ := by
  cases items with
  | nil =>
    have other : i ≠ .one dollar := fun eq => more eq rfl
    simp [Regex.ofItems, other]
  | cons j items =>
    simp only [Regex.ofItems, List.getLast?_cons_cons, List.dropLast_cons_cons]
    split <;> rfl

theorem starts_nil : Starts [] text :=
  ⟨[], text, rfl, rfl, by simp, by simp [Regex.ofItems]⟩

theorem starts_dollar : Starts [.one dollar] text ↔ text = [] := by
  constructor
  · rintro ⟨part, after, rfl, found⟩
    have none : part = [] := found.mem
    have last : after = [] := found.finish rfl
    rw [none, last, List.append_nil]
  · rintro rfl
    exact ⟨[], [], rfl, rfl, fun _ => rfl, fun _ => rfl⟩

/-- An item in front of others matches a part, and the others match after it. -/
theorem starts_cons {i : Item} (more : i = .one dollar → items ≠ []) :
    Starts (i :: items) text ↔ ∃ part after, text = part ++ after ∧
      part ∈ i.language * (Regex.ofItems false items).language ∧
      ((Regex.ofItems false items).atEnd = true → after = []) := by
  unfold Starts
  rw [ofItems_cons more]
  constructor
  · rintro ⟨part, after, split, found⟩
    exact ⟨part, after, split, by simpa [Regex.language] using found.mem, found.finish⟩
  · rintro ⟨part, after, split, mem, finish⟩
    exact ⟨part, after, split, by simpa [Regex.language] using mem, fun _ => rfl, finish⟩

theorem starts_iff : Starts items text ↔ ∃ part after, text = part ++ after ∧
    part ∈ (Regex.ofItems false items).language ∧
      ((Regex.ofItems false items).atEnd = true → after = []) := by
  constructor
  · rintro ⟨part, after, split, found⟩
    exact ⟨part, after, split, found.mem, found.finish⟩
  · rintro ⟨part, after, split, mem, finish⟩
    exact ⟨part, after, split, mem, fun _ => rfl, finish⟩

theorem starts_one (more : c = dollar → items ≠ []) :
    Starts (.one c :: items) text ↔ ∃ t rest, text = t :: rest ∧ Accepts c t ∧ Starts items rest := by
  rw [starts_cons fun eq => more (Item.one.inj eq)]
  constructor
  · rintro ⟨_, after, rfl, mem, finish⟩
    obtain ⟨t, part, rfl, accepts, mem⟩ := mem_chars_mul.mp mem
    exact ⟨t, part ++ after, rfl, accepts, starts_iff.mpr ⟨part, after, rfl, mem, finish⟩⟩
  · rintro ⟨t, rest, rfl, accepts, starts⟩
    obtain ⟨part, after, rfl, mem, finish⟩ := starts_iff.mp starts
    exact ⟨t :: part, after, rfl, mem_chars_mul.mpr ⟨t, part, rfl, accepts, mem⟩, finish⟩

theorem starts_star :
    Starts (.star c :: items) text ↔ Starts items text ∨
      ∃ t rest, text = t :: rest ∧ Accepts c t ∧ Starts (.star c :: items) rest := by
  simp only [@starts_cons _ _ (.star c) (by simp), @starts_iff _ items]
  constructor
  · rintro ⟨part, after, rfl, mem, finish⟩
    rcases mem_kstar_mul.mp mem with none | ⟨t, part, rfl, accepts, mem⟩
    · exact .inl ⟨part, after, rfl, none, finish⟩
    · exact .inr ⟨t, part ++ after, rfl, accepts, part, after, rfl, mem, finish⟩
  · rintro (⟨part, after, rfl, mem, finish⟩ | ⟨t, _, rfl, accepts, part, after, rfl, mem, finish⟩)
    · exact ⟨part, after, rfl, mem_kstar_mul.mpr (.inl mem), finish⟩
    · exact ⟨t :: part, after, rfl, mem_kstar_mul.mpr (.inr ⟨t, part, rfl, accepts, mem⟩), finish⟩

/-! ## The functions -/

theorem matchhere_cons : matchhere (c :: re) text =
    if re.head? = some asterisk then matchstar c re.tail text
    else if c = dollar ∧ re = [] then text.isEmpty
    else
      match text with
      | [] => false
      | t :: text => if c = dot ∨ c = t then matchhere re text else false := by
  rw [matchhere.eq_def]

theorem matchstar_eq : matchstar c re text =
    if matchhere re text then true
    else
      match text with
      | [] => false
      | t :: text => if t = c ∨ c = dot then matchstar c re text else false := by
  rw [matchstar.eq_def]

theorem readItems_star (next : re.head? = some asterisk) :
    readItems (c :: re) = .star c :: readItems re.tail := by
  cases re with
  | nil => simp at next
  | cons d re =>
    have star : d = asterisk := by simpa using next
    rw [readItems, if_pos star, List.tail_cons]

theorem readItems_one (next : re.head? ≠ some asterisk) :
    readItems (c :: re) = .one c :: readItems re := by
  cases re with
  | nil => rfl
  | cons d re =>
    have other : d ≠ asterisk := by simpa using next
    rw [readItems, if_neg other]

theorem readItems_eq_nil : readItems re = [] ↔ re = [] := by
  fun_cases readItems re <;> simp

mutual

theorem matchhere_iff (re text : List UInt8) :
    matchhere re text = true ↔ Starts (readItems re) text := by
  cases re with
  | nil =>
    rw [matchhere]
    exact ⟨fun _ => starts_nil, fun _ => rfl⟩
  | cons c re =>
    rw [matchhere_cons]
    by_cases star : re.head? = some asterisk
    · rw [if_pos star, readItems_star star]
      exact matchstar_iff c re.tail text
    rw [if_neg star, readItems_one star]
    by_cases last : c = dollar ∧ re = []
    · obtain ⟨rfl, rfl⟩ := last
      rw [if_pos ⟨rfl, rfl⟩, List.isEmpty_iff]
      exact starts_dollar.symm
    have more : c = dollar → readItems re ≠ [] := fun eq none =>
      last ⟨eq, readItems_eq_nil.mp none⟩
    rw [if_neg last, starts_one more]
    cases text with
    | nil => simp
    | cons t text =>
      have ih := matchhere_iff re text
      by_cases accepts : c = dot ∨ c = t
      · simp [accepts, Accepts, ih]
      · simp [accepts, Accepts]
termination_by (re.length, text.length, 0)
decreasing_by
  · apply Prod.Lex.left
    simp only [List.length_tail, List.length_cons]
    omega
  · apply Prod.Lex.left
    simp

theorem matchstar_iff (c : UInt8) (re text : List UInt8) :
    matchstar c re text = true ↔ Starts (.star c :: readItems re) text := by
  have here := matchhere_iff re text
  rw [matchstar_eq, starts_star]
  by_cases none : matchhere re text = true
  · rw [if_pos none]
    exact ⟨fun _ => .inl (here.mp none), fun _ => rfl⟩
  rw [if_neg none, or_iff_right (fun starts => none (here.mpr starts))]
  cases text with
  | nil => simp
  | cons t text =>
    have ih := matchstar_iff c re text
    by_cases accepts : t = c ∨ c = dot
    · have accepts' : Accepts c t := accepts.symm.imp id Eq.symm
      simp [accepts, accepts', ih]
    · have rejects : ¬ Accepts c t := fun or => accepts (or.symm.imp Eq.symm id)
      simp [accepts, rejects]
termination_by (re.length, text.length, 1)
decreasing_by
  · apply Prod.Lex.right
    apply Prod.Lex.right
    decide
  · apply Prod.Lex.right
    apply Prod.Lex.left
    simp

end

theorem matchFrom_iff :
    matchFrom re text = true ↔
      ∃ before rest, text = before ++ rest ∧ Starts (readItems re) rest := by
  induction text with
  | nil =>
    rw [matchFrom, matchhere_iff]
    constructor
    · intro starts
      exact ⟨[], [], rfl, starts⟩
    · rintro ⟨before, rest, split, starts⟩
      obtain ⟨rfl, rfl⟩ := List.append_eq_nil_iff.mp split.symm
      exact starts
  | cons t text ih =>
    have here := matchhere_iff re (t :: text)
    rw [matchFrom]
    by_cases found : matchhere re (t :: text) = true
    · rw [if_pos found]
      exact ⟨fun _ => ⟨[], t :: text, rfl, here.mp found⟩, fun _ => rfl⟩
    rw [if_neg found, ih]
    constructor
    · rintro ⟨before, rest, rfl, starts⟩
      exact ⟨t :: before, rest, rfl, starts⟩
    · rintro ⟨before, rest, split, starts⟩
      cases before with
      | nil =>
        rw [List.nil_append] at split
        exact absurd (here.mpr (split ▸ starts)) found
      | cons b before =>
        obtain ⟨rfl, rfl⟩ := List.cons.inj split
        exact ⟨before, rest, rfl, starts⟩

theorem ofItems_items (items : List Item) (b : Bool) :
    (Regex.ofItems b items).items = (Regex.ofItems false items).items ∧
      (Regex.ofItems b items).atEnd = (Regex.ofItems false items).atEnd ∧
      (Regex.ofItems b items).atStart = b := by
  unfold Regex.ofItems
  split <;> exact ⟨rfl, rfl, rfl⟩

/-- The text has a part that the pattern matches just when `match` finds one. -/
theorem matchText_iff (re text : List UInt8) :
    matchText re text = true ↔
      ∃ before part after, text = before ++ part ++ after ∧
        (Regex.read re).Matches before part after := by
  unfold matchText Regex.read
  by_cases start : re.head? = some caret
  · rw [if_pos start, if_pos start, matchhere_iff, starts_iff]
    obtain ⟨same, last, first⟩ := ofItems_items (readItems re.tail) true
    constructor
    · rintro ⟨part, after, rfl, mem, finish⟩
      refine ⟨[], part, after, rfl, ?_, fun _ => rfl, ?_⟩
      · rwa [Regex.language, same]
      · rwa [last]
    · rintro ⟨before, part, after, rfl, mem, only, finish⟩
      rw [only first, List.nil_append]
      refine ⟨part, after, rfl, ?_, ?_⟩
      · rwa [Regex.language, ← same]
      · rwa [← last]
  · rw [if_neg start, if_neg start, matchFrom_iff]
    have first := (ofItems_items (readItems re) false).2.2
    constructor
    · rintro ⟨before, rest, rfl, starts⟩
      obtain ⟨part, after, rfl, mem, finish⟩ := starts_iff.mp starts
      refine ⟨before, part, after, (List.append_assoc ..).symm, mem, ?_, finish⟩
      rw [first]
      intro absurd
      cases absurd
    · rintro ⟨before, part, after, rfl, mem, -, finish⟩
      exact ⟨before, part ++ after, List.append_assoc .., starts_iff.mpr
        ⟨part, after, rfl, mem, finish⟩⟩

end Sistemas.Xv6.Grep
