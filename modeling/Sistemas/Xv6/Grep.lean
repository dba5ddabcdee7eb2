import Sistemas.Xv6.GrepMatch
import Sistemas.Xv6.Memmove

/-! # The lines grep writes

`grep` reads into a buffer of 1024 bytes, writes the lines that match, and moves what is left of a
line to the front.  `read` gives what it likes of what there is: `choice k` bytes more than one in
the `k`th call, as far as the room and the input go.

* `strchr`, `cstring` — the library's search, and the string at a pointer.
* `grepLines` — the inner loop.
* `grepLoop`, `grep` — the outer loop.
* `Spells` — a part of the buffer as a list.
-/

namespace Sistemas.Xv6.Grep

/-- `sizeof(buf)` -/
def bufSize : Nat := 1024

/-- `\n` -/
def newline : UInt8 := 10

/-- The string at `p`, or none when it does not end in the `room` bytes there. -/
def cstring (buf : Bytes) : (room p : Nat) → Option (List UInt8)
  | 0, _ => none
  | room + 1, p => if buf p = 0 then some [] else (cstring buf room (p + 1)).map (buf p :: ·)

/-- `some none` is the null pointer. -/
def strchr (buf : Bytes) (c : UInt8) : (room p : Nat) → Option (Option Nat)
  | 0, _ => none
  | room + 1, p =>
    if buf p = 0 then some none
    else if buf p = c then some (some p)
    else strchr buf c room (p + 1)

/-- The `n` bytes that `write` gets. -/
def bytesFrom (buf : Bytes) : (p n : Nat) → List UInt8
  | _, 0 => []
  | p, n + 1 => buf p :: bytesFrom buf (p + 1) n

/-- The loop over the lines in the buffer: the buffer, where the last piece starts, and what is
    written. -/
def grepLines (pattern : List UInt8) :
    (fuel : Nat) → Bytes → Nat → List UInt8 → Option (Bytes × Nat × List UInt8)
  | 0, _, _, _ => none
  | fuel + 1, buf, p, out =>
    (strchr buf newline (bufSize - p) p).bind fun
      | none => some (buf, p, out)
      | some q =>
        (cstring (Function.update buf q 0) (bufSize - p) p).bind fun line =>
          if matchText pattern line then
            grepLines pattern fuel (Function.update buf q newline) (q + 1)
              (out ++ bytesFrom (Function.update buf q newline) p (q + 1 - p))
          else grepLines pattern fuel (Function.update buf q 0) (q + 1) out

/-- What the `k`th call of `read` gives of `input`, when `room` bytes are asked for. -/
def read (choice : Nat → Nat) (k room : Nat) (input : List UInt8) : List UInt8 :=
  input.take (min room (choice k + 1))

theorem read_append_drop (choice : Nat → Nat) (k room : Nat) (input : List UInt8) :
    read choice k room input ++ input.drop (read choice k room input).length = input := by
  have whole : input.drop (read choice k room input).length =
      input.drop (min room (choice k + 1)) := by
    rw [read, List.length_take]
    by_cases le : min room (choice k + 1) ≤ input.length
    · rw [Nat.min_eq_left le]
    · rw [Nat.min_eq_right (by omega), List.drop_length, List.drop_eq_nil_of_le (by omega)]
  rw [whole, read, List.take_append_drop]

theorem read_eq_nil {choice : Nat → Nat} {k room : Nat} {input : List UInt8} (pos : 0 < room) :
    read choice k room input = [] ↔ input = [] := by
  have asked : min room (choice k + 1) ≠ 0 := by omega
  rw [read, List.take_eq_nil_iff, or_iff_right asked]

theorem drop_read_lt {choice : Nat → Nat} {k room : Nat} {input : List UInt8}
    (more : read choice k room input ≠ []) :
    (input.drop (read choice k room input).length).length < input.length := by
  have pos : 0 < (read choice k room input).length := List.length_pos_iff.mpr more
  have le : (read choice k room input).length ≤ input.length := List.length_take_le' ..
  rw [List.length_drop]
  omega

/-- The buffer with what is read behind the `m` bytes there, and a NUL. -/
def fill (buf : Bytes) (m : Nat) (chunk : List UInt8) : Bytes :=
  Function.update (buf.splice m chunk.length fun i => chunk.getD i 0) (m + chunk.length) 0

/-- The rest of the run when `m` bytes are in the buffer. -/
def grepLoop (pattern : List UInt8) (choice : Nat → Nat) (k : Nat) (buf : Bytes) (m : Nat)
    (out input : List UInt8) : Option (List UInt8) :=
  if _more : read choice k (bufSize - m - 1) input ≠ [] then
    (grepLines pattern bufSize (fill buf m (read choice k (bufSize - m - 1) input)) 0 out).bind
      fun (buf, p, out) =>
        if m + (read choice k (bufSize - m - 1) input).length > 0 then
          grepLoop pattern choice (k + 1)
            (Ulib.memmove buf 0 p
              ((m + (read choice k (bufSize - m - 1) input).length - p : Nat) : Int))
            (m + (read choice k (bufSize - m - 1) input).length - p) out
            (input.drop (read choice k (bufSize - m - 1) input).length)
        else
          grepLoop pattern choice (k + 1) buf 0 out
            (input.drop (read choice k (bufSize - m - 1) input).length)
  else some out
termination_by input.length
decreasing_by
  · exact drop_read_lt _more
  · exact drop_read_lt _more

def grep (pattern : List UInt8) (choice : Nat → Nat) (buf : Bytes) (input : List UInt8) :
    Option (List UInt8) :=
  grepLoop pattern choice 0 buf 0 [] input

/-- The lines, each with its newline. -/
def joinLines (lines : List (List UInt8)) : List UInt8 := lines.flatMap (· ++ [newline])

/-- A line that fits into the buffer. -/
structure Fits (line : List UInt8) : Prop where
  newline : newline ∉ line
  nul : 0 ∉ line
  length : line.length + 1 < bufSize

variable {buf buf' : Bytes} {p q room fuel m k : Nat} {c : UInt8} {s s' line out input : List UInt8}
  {lines : List (List UInt8)} {pattern tail chunk : List UInt8} {choice : Nat → Nat}

@[simp] theorem joinLines_nil : joinLines [] = [] := rfl

@[simp] theorem joinLines_cons : joinLines (line :: lines) = line ++ newline :: joinLines lines := by
  simp [joinLines]

/-! ## Parts of the buffer -/

/-- The bytes from `p` on are those of `s`. -/
def Spells (buf : Bytes) (p : Nat) (s : List UInt8) : Prop :=
  ∀ i (lt : i < s.length), buf (p + i) = s[i]

theorem Spells.congr (spells : Spells buf p s)
    (same : ∀ i, p ≤ i → i < p + s.length → buf' i = buf i) : Spells buf' p s := by
  intro i lt
  rw [same (p + i) (by omega) (by omega)]
  exact spells i lt

theorem spells_nil : Spells buf p [] := fun i lt => absurd lt (Nat.not_lt_zero i)

theorem spells_cons : Spells buf p (c :: s) ↔ buf p = c ∧ Spells buf (p + 1) s := by
  constructor
  · intro spells
    refine ⟨spells 0 (by simp), ?_⟩
    intro i lt
    have next := spells (i + 1) (by simpa using lt)
    rwa [← Nat.add_assoc, Nat.add_right_comm] at next
  · rintro ⟨first, rest⟩ i lt
    cases i with
    | zero => exact first
    | succ i =>
      have next := rest i (by simpa using lt)
      rwa [Nat.add_right_comm, Nat.add_assoc] at next

theorem spells_append : Spells buf p (s ++ s') ↔ Spells buf p s ∧ Spells buf (p + s.length) s' := by
  induction s generalizing p with
  | nil => simp [spells_nil]
  | cons c s ih =>
    rw [List.cons_append, spells_cons, spells_cons, ih, List.length_cons, Nat.add_right_comm p,
      Nat.add_assoc, and_assoc]

theorem bytesFrom_eq (spells : Spells buf p s) : bytesFrom buf p s.length = s := by
  induction s generalizing p with
  | nil => rfl
  | cons c s ih =>
    obtain ⟨first, rest⟩ := (spells_cons).mp spells
    rw [List.length_cons, bytesFrom, first, ih rest]

theorem cstring_eq (spells : Spells buf p (s ++ [0])) (nul : 0 ∉ s) (lt : s.length < room) :
    cstring buf room p = some s := by
  induction s generalizing p room with
  | nil =>
    obtain ⟨room, rfl⟩ : ∃ r, room = r + 1 := ⟨room - 1, by simp at lt; omega⟩
    have last : buf p = 0 := ((spells_cons).mp spells).1
    rw [cstring, if_pos last]
  | cons c s ih =>
    obtain ⟨room, rfl⟩ : ∃ r, room = r + 1 := ⟨room - 1, by simp at lt; omega⟩
    obtain ⟨first, rest⟩ := (spells_cons).mp spells
    have other : buf p ≠ 0 := by
      intro eq
      simp [← first, eq] at nul
    have ih := ih rest (by simp_all) (by simpa using lt)
    rw [cstring, if_neg other, ih, first, Option.map_some]

theorem strchr_found (room : Nat) (spells : Spells buf p (s ++ c :: s')) (nul : 0 ∉ s) (none : c ∉ s)
    (nonzero : c ≠ 0) (lt : s.length < room) :
    strchr buf c room p = some (some (p + s.length)) := by
  induction s generalizing p room with
  | nil =>
    obtain ⟨room, rfl⟩ : ∃ r, room = r + 1 := ⟨room - 1, by simp at lt; omega⟩
    have here : buf p = c := ((spells_cons).mp spells).1
    rw [strchr, here, if_neg nonzero, if_pos rfl, List.length_nil, Nat.add_zero]
  | cons d s ih =>
    obtain ⟨room, rfl⟩ : ∃ r, room = r + 1 := ⟨room - 1, by simp at lt; omega⟩
    obtain ⟨first, rest⟩ := (spells_cons).mp spells
    have more : d ≠ 0 := by
      rintro rfl
      simp at nul
    have other : d ≠ c := by
      rintro rfl
      simp at none
    have ih := ih _ rest (by simp_all) (by simp_all) (by simpa using lt)
    rw [strchr, first, if_neg more, if_neg other, ih, List.length_cons, Nat.add_assoc,
      Nat.add_comm 1]

theorem strchr_none (room : Nat) (spells : Spells buf p (s ++ [0])) (nul : 0 ∉ s) (none : c ∉ s)
    (lt : s.length < room) : strchr buf c room p = some .none := by
  induction s generalizing p room with
  | nil =>
    obtain ⟨room, rfl⟩ : ∃ r, room = r + 1 := ⟨room - 1, by simp at lt; omega⟩
    have last : buf p = 0 := ((spells_cons).mp spells).1
    rw [strchr, if_pos last]
  | cons d s ih =>
    obtain ⟨room, rfl⟩ : ∃ r, room = r + 1 := ⟨room - 1, by simp at lt; omega⟩
    obtain ⟨first, rest⟩ := (spells_cons).mp spells
    have more : d ≠ 0 := by
      rintro rfl
      simp at nul
    have other : d ≠ c := by
      rintro rfl
      simp at none
    rw [strchr, first, if_neg more, if_neg other]
    exact ih _ rest (by simp_all) (by simp_all) (by simpa using lt)

theorem spells_fill (chunk : List UInt8) (spells : Spells buf 0 s) :
    Spells (fill buf s.length chunk) 0 (s ++ chunk ++ [0]) := by
  rw [spells_append, spells_append, Nat.zero_add, Nat.zero_add]
  refine ⟨⟨?_, ?_⟩, ?_⟩
  · apply spells.congr
    intro i low high
    rw [fill, Function.update_of_ne (by omega), Bytes.splice_outside (by omega)]
  · intro i lt
    rw [fill, Function.update_of_ne (by omega), Bytes.splice_inside lt]
    simp [lt]
  · rw [spells_cons, List.length_append, fill, Function.update_self]
    exact ⟨rfl, spells_nil⟩

/-! ## The inner loop -/

/-- Every complete line is passed, and written when it matches. -/
theorem grepLines_eq (pattern out : List UInt8) (complete : ∀ line ∈ lines, Fits line)
    (rest : newline ∉ tail) (nul : 0 ∉ tail) (enough : lines.length < fuel)
    (room : p + (joinLines lines ++ tail).length < bufSize)
    (spells : Spells buf p (joinLines lines ++ tail ++ [0])) :
    ∃ buf', grepLines pattern fuel buf p out =
        some (buf', p + (joinLines lines).length,
          out ++ joinLines (lines.filter (matchText pattern))) ∧
      Spells buf' (p + (joinLines lines).length) tail := by
  induction lines generalizing buf p out fuel with
  | nil =>
    obtain ⟨fuel, rfl⟩ : ∃ f, fuel = f + 1 := ⟨fuel - 1, by simp at enough; omega⟩
    rw [joinLines_nil, List.nil_append] at room spells
    have ends := strchr_none (bufSize - p) spells nul rest (by omega)
    refine ⟨buf, ?_, (spells_append.mp spells).1⟩
    simp [grepLines, ends]
  | cons line lines ih =>
    obtain ⟨fuel, rfl⟩ : ∃ f, fuel = f + 1 := ⟨fuel - 1, by simp at enough; omega⟩
    have here : Fits line := complete line (by simp)
    have later : ∀ line ∈ lines, Fits line := fun line mem => complete line (by simp [mem])
    rw [joinLines_cons, List.append_assoc, List.append_assoc, List.cons_append,
      ← List.append_assoc] at spells
    obtain ⟨first, behind⟩ := spells_append.mp spells
    obtain ⟨atEnd, behind⟩ := (spells_cons).mp behind
    have length : (joinLines (line :: lines)).length = line.length + 1 + (joinLines lines).length := by
      rw [joinLines_cons, List.length_append, List.length_cons]
      omega
    rw [List.length_append, length] at room
    have found := strchr_found (bufSize - p) spells here.nul here.newline (by decide)
      (by omega)
    have string : cstring (Function.update buf (p + line.length) 0) (bufSize - p) p = some line := by
      apply cstring_eq _ here.nul (by omega)
      rw [spells_append, spells_cons]
      refine ⟨?_, Function.update_self .., spells_nil⟩
      apply first.congr
      intro i low high
      exact Function.update_of_ne (by omega) ..
    -- the byte at the end of this line is not read again
    have next : ∀ v out, ∃ buf', grepLines pattern fuel (Function.update buf (p + line.length) v)
          (p + line.length + 1) out =
        some (buf', p + (joinLines (line :: lines)).length,
          out ++ joinLines (lines.filter (matchText pattern))) ∧
      Spells buf' (p + (joinLines (line :: lines)).length) tail := by
      intro v out
      have behind' : Spells (Function.update buf (p + line.length) v) (p + line.length + 1)
          (joinLines lines ++ tail ++ [0]) := by
        apply behind.congr
        intro i low high
        exact Function.update_of_ne (by omega) ..
      have ih := ih out later (by simp at enough; omega)
        (by rw [List.length_append]; omega) behind'
      have sum : p + line.length + 1 + (joinLines lines).length =
          p + (joinLines (line :: lines)).length := by omega
      rwa [sum] at ih
    simp only [grepLines, found, string, Option.bind_some]
    by_cases hit : matchText pattern line = true
    · have whole : Spells (Function.update buf (p + line.length) newline) p (line ++ [newline]) := by
        rw [Function.update_eq_self_iff.mpr atEnd.symm, spells_append, spells_cons]
        exact ⟨first, atEnd, spells_nil⟩
      have written := bytesFrom_eq whole
      rw [List.length_append, List.length_singleton] at written
      have count : p + line.length + 1 - p = line.length + 1 := by omega
      rw [if_pos hit, count, written, List.filter_cons_of_pos hit, joinLines_cons]
      have next := next newline (out ++ (line ++ [newline]))
      simpa using next
    · rw [if_neg hit, List.filter_cons_of_neg hit]
      exact next 0 out

/-! ## The outer loop -/

/-- The complete lines at the beginning of a text. -/
theorem split_lines {next : List UInt8} (complete : ∀ line ∈ lines, Fits line)
    (eq : joinLines lines = s ++ next) :
    ∃ done rest tail, lines = done ++ rest ∧ s = joinLines done ++ tail ∧
      tail ++ next = joinLines rest ∧ newline ∉ tail := by
  induction lines generalizing s with
  | nil =>
    obtain ⟨rfl, rfl⟩ := List.append_eq_nil_iff.mp eq.symm
    exact ⟨[], [], [], rfl, rfl, rfl, by simp⟩
  | cons line lines ih =>
    rw [joinLines_cons] at eq
    rcases List.append_eq_append_iff.mp eq with ⟨more, rfl, split⟩ | ⟨more, rfl, -⟩
    · cases more with
      | nil =>
        refine ⟨[], line :: lines, line, rfl, by simp, ?_, (complete line (by simp)).newline⟩
        rw [joinLines_cons]
        simpa using split.symm
      | cons d more =>
        have same : newline = d := (List.cons.inj split).1
        have behind : joinLines lines = more ++ next := (List.cons.inj split).2
        obtain ⟨done, rest, tail, rfl, rfl, after, none⟩ :=
          ih (fun line mem => complete line (by simp [mem])) behind
        exact ⟨line :: done, rest, tail, rfl, by simp [same], after, none⟩
    · refine ⟨[], (s ++ more) :: lines, s, rfl, by simp, ?_, ?_⟩
      · rw [joinLines_cons, eq]
      · intro mem
        have here : Fits (s ++ more) := complete _ (by simp)
        exact here.newline (List.mem_append_left _ mem)

/-- A piece without a newline is shorter than a line. -/
theorem piece_lt {next : List UInt8} (complete : ∀ line ∈ lines, Fits line)
    (eq : s ++ next = joinLines lines) (none : newline ∉ s) : s.length + 1 < bufSize := by
  cases lines with
  | nil =>
    obtain ⟨rfl, rfl⟩ := List.append_eq_nil_iff.mp eq
    decide
  | cons line lines =>
    rw [joinLines_cons] at eq
    have fits := complete line (by simp)
    rcases List.append_eq_append_iff.mp eq with ⟨more, rfl, -⟩ | ⟨more, rfl, split⟩
    · have length := fits.length
      rw [List.length_append] at length
      omega
    · cases more with
      | nil => simpa using fits.length
      | cons d more =>
        obtain ⟨rfl, -⟩ := List.cons.inj split
        simp at none

theorem nul_not_mem (complete : ∀ line ∈ lines, Fits line) : 0 ∉ joinLines lines := by
  induction lines with
  | nil => simp
  | cons line lines ih =>
    have first := (complete line (by simp)).nul
    have others := ih fun line mem => complete line (by simp [mem])
    simp [first, others, newline]

theorem length_le_joinLines (lines : List (List UInt8)) : lines.length ≤ (joinLines lines).length := by
  induction lines with
  | nil => simp
  | cons line lines ih =>
    simp
    omega

theorem grepLoop_eq (pattern : List UInt8) (choice : Nat → Nat) (k : Nat) (out : List UInt8)
    (complete : ∀ line ∈ lines, Fits line) (eq : s ++ input = joinLines lines)
    (none : newline ∉ s) (spells : Spells buf 0 s) :
    grepLoop pattern choice k buf s.length out input =
      some (out ++ joinLines (lines.filter (matchText pattern))) := by
  induction n : input.length using Nat.strong_induction_on
    generalizing lines s buf k out input with
  | _ n ih =>
  subst n
  have space : s.length + 1 < bufSize := piece_lt complete eq none
  rw [grepLoop]
  by_cases more : read choice k (bufSize - s.length - 1) input ≠ []
  · rw [dif_pos more]
    have shorter := drop_read_lt more
    have capped : (read choice k (bufSize - s.length - 1) input).length ≤ bufSize - s.length - 1 :=
      (List.length_take_le ..).trans (Nat.min_le_left ..)
    have split : input = read choice k (bufSize - s.length - 1) input ++
        input.drop (read choice k (bufSize - s.length - 1) input).length := by
      exact (read_append_drop ..).symm
    generalize read choice k (bufSize - s.length - 1) input = chunk at more shorter capped split ⊢
    generalize input.drop chunk.length = later at shorter split ⊢
    rw [split, ← List.append_assoc] at eq
    obtain ⟨done, rest, tail, rfl, content, after, piece⟩ := split_lines complete eq.symm
    have nul : 0 ∉ s ++ chunk := by
      have whole := nul_not_mem complete
      rw [← eq] at whole
      exact fun mem => whole (List.mem_append_left _ mem)
    have filled := spells_fill chunk spells
    have length : (joinLines done ++ tail).length = s.length + chunk.length := by
      rw [← content, List.length_append]
    rw [content] at filled nul
    have few : done.length < bufSize := by
      have le := length_le_joinLines done
      rw [List.length_append] at length
      omega
    have small : (joinLines done).length + tail.length < bufSize := by
      rw [List.length_append] at length
      omega
    obtain ⟨buf', run, last⟩ := grepLines_eq pattern out
      (fun line mem => complete line (List.mem_append_left _ mem)) piece
      (fun mem => nul (List.mem_append_right _ mem)) few (by omega) filled
    have nonempty : s.length + chunk.length > 0 := by
      have pos := List.length_pos_iff.mpr more
      omega
    have left : s.length + chunk.length - (0 + (joinLines done).length) = tail.length := by
      rw [List.length_append] at length
      omega
    rw [run, Option.bind_some]
    simp only
    rw [if_pos nonempty, left]
    have moved : Moved buf' _ 0 (0 + (joinLines done).length) tail.length :=
      Ulib.memmove_moved (by unfold addresses; unfold bufSize at small; omega)
        (by unfold addresses; unfold bufSize at small; omega)
    have complete' : ∀ line ∈ rest, Fits line :=
      fun line mem => complete line (List.mem_append_right _ mem)
    rw [ih later.length shorter _ _ complete' after piece _ rfl]
    · simp [joinLines]
    · intro i lt
      rw [moved.copied i lt]
      exact last i lt
  · have ended : input = [] := (read_eq_nil (by omega)).mp (not_not.mp more)
    rw [ended, List.append_nil] at eq
    rw [dif_neg more]
    cases lines with
    | nil => simp
    | cons line lines =>
      rw [eq, joinLines_cons] at none
      simp at none

theorem grep_filters (pattern : List UInt8) (choice : Nat → Nat) (buf : Bytes)
    (lines : List (List UInt8)) (fits : ∀ line ∈ lines, Fits line) :
    grep pattern choice buf (joinLines lines) =
      some (joinLines (lines.filter (matchText pattern))) := by
  have nothing : Spells buf 0 [] := spells_nil
  have run := grepLoop_eq pattern choice 0 [] fits (List.nil_append _) List.not_mem_nil nothing
  simpa [grep] using run

theorem fits_letters : ∀ line ∈ [[97], [98]], Fits line := by
  intro line mem
  rcases List.mem_pair.mp mem with rfl | rfl
  · exact ⟨by decide, by decide, by decide⟩
  · exact ⟨by decide, by decide, by decide⟩

/-- Two lines of one letter, read a byte at a time. -/
theorem grep_filters_letters :
    grep [97] (fun _ => 0) (fun _ => 0) (joinLines [[97], [98]]) =
      some (joinLines ([[97], [98]].filter (matchText [97]))) :=
  grep_filters [97] (fun _ => 0) (fun _ => 0) [[97], [98]] fits_letters

end Sistemas.Xv6.Grep
