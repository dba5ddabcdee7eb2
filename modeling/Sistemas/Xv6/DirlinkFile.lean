import Sistemas.Xv6.Dirlink
import Sistemas.Xv6.FileBytes

/-! # A directory is a file

`Dir.readi` and `Dir.writei` are what `readi` and `writei` do with one entry of a file in the
buffers.
-/

namespace Sistemas.Xv6.Dirlink

open Fs (Whole Ready Room address contents missing)
open Fs.File (Refused call map_splice possible_successful readi_ends source writei_accepted
  writei_refused)

variable {sb : Layout} {inum off n size : Nat} {ip : Dinode} {block : Nat → Bytes} {f : Fs.File}
  {data : List UInt8}

/-- A file as the functions on directories see it. -/
def Dir.ofFile (f : Fs.File) : Dir where
  bytes := contents f.ip f.bufs.cached
  size := f.ip.size

theorem getD_bytes {i : Nat} (lt : i < f.ip.size) :
    f.bytes.getD i 0 = contents f.ip f.bufs.cached i := by
  simp [Fs.File.bytes, lt]

/-! ## `readi` -/

/-- An entry is what `readi` copies to `de`, if it copies all of it. -/
theorem readi_file (sb : Layout) (inum : Nat) (whole : Whole f.ip f.bufs.cached f.ip.size)
    (fits : off < 2 ^ 32) : ∃ copied,
      call sb inum f (.readi off direntSize fun _ => true) =
        .ok (some (.read (some copied.length) copied), f) ∧
      ((Dir.ofFile f).readi off = none ↔ copied.length ≠ direntSize) ∧
      ∀ de, (Dir.ofFile f).readi off = some de →
        de.inum = Bytes.load (copied.getD · 0) 2 0 ∧
          ∀ i < dirsiz, de.name i = copied.getD (2 + i) 0 := by
  have size_le := Fs.whole_size whole
  have bound : maxfile * bsize = 274432 := rfl
  have sizeof : direntSize = 16 := rfl
  obtain ⟨r, copied, ran, spec, complete⟩ :=
    readi_ends sb inum whole fits (by decide : direntSize < 2 ^ 32) fun _ => true
  have eq := spec (complete fun _ _ => rfl)
  simp only [Fs.File.Call.spec, Fs.File.length_bytes] at eq
  refine ⟨copied, ?_⟩
  by_cases inside : off + direntSize ≤ f.ip.size
  · rw [if_neg (by omega), min_eq_left (by omega)] at eq
    have read : (Dir.ofFile f).readi off = _ := if_pos inside
    obtain ⟨rfl, rfl⟩ : some direntSize = r ∧ (f.bytes.drop off).take direntSize = copied := by
      simpa using eq
    have length : ((f.bytes.drop off).take direntSize).length = direntSize := by
      rw [List.length_take, List.length_drop, Fs.File.length_bytes]
      omega
    -- byte `i` of the entry
    have byte : ∀ i < direntSize, ((f.bytes.drop off).take direntSize).getD i 0 =
        contents f.ip f.bufs.cached (off + i) := by
      intro i lt
      rw [← getD_bytes (by omega), List.getD_eq_getElem?_getD, List.getElem?_take_of_lt lt,
        List.getElem?_drop, List.getD_eq_getElem?_getD]
    refine ⟨by rw [length]; exact ran, by simp [read, length], fun de eq => ?_⟩
    rw [read] at eq
    cases eq
    refine ⟨load_congr_two fun i lt => ?_, fun i lt => ?_⟩
    · rw [Nat.zero_add, byte i (by omega)]
      rfl
    · have dirsiz_eq : dirsiz = 14 := rfl
      rw [byte (2 + i) (by omega), ← Nat.add_assoc]
      rfl
  · have read : (Dir.ofFile f).readi off = none := if_neg inside
    have short : copied.length < direntSize ∧ r = some copied.length := by
      split at eq <;> cases eq
      · exact ⟨by decide, rfl⟩
      · rw [List.length_take, List.length_drop, Fs.File.length_bytes]
        exact ⟨by omega, rfl⟩
    obtain ⟨short, rfl⟩ := short
    refine ⟨ran, by simp [read, short.ne], fun de eq => ?_⟩
    rw [read] at eq
    cases eq

/-! ## `writei` -/

/-- There is space where no block is added. -/
theorem room_of_whole (whole : Whole ip block n) (within : blocks size ≤ blocks n) :
    Room sb ip block size := by
  have none_missing : missing ip block size = ∅ := by
    rw [missing, Finset.filter_eq_empty_iff]
    intro fbn mem
    exact (whole fbn (lt_of_lt_of_le (Finset.mem_range.mp mem) within)).2
  have direct : ¬ (ip.indirect = 0 ∧ ndirect < blocks size) := by
    rintro ⟨zero, more⟩
    obtain ⟨-, nonzero⟩ := whole ndirect (lt_of_lt_of_le more within)
    refine nonzero ?_
    rw [address, Slot.data_entry (show 12 ≤ ndirect from le_refl _)]
    exact held_entry_empty zero _
  rw [Room, none_missing, Finset.card_empty, if_neg direct]
  exact Nat.zero_le _

/-- An entry that does not begin a block is in the blocks that are there. -/
theorem blocks_within (aligned : off % direntSize = 0) (start : off ≤ size)
    (known : off + direntSize ≤ size ∨ off % bsize ≠ 0) :
    blocks (off + direntSize) ≤ blocks size := by
  have bsize_eq : bsize = 1024 := rfl
  have sizeof : direntSize = 16 := rfl
  simp only [blocks, bsize_eq, sizeof] at *
  omega

/-- What is in the file after all of an entry has been written. -/
theorem contents_written {g : Fs.File} (start : off ≤ f.ip.size)
    (eq : g.bytes = f.bytes.take off ++ data ++ f.bytes.drop (off + data.length)) :
    g.ip.size = max f.ip.size (off + data.length) ∧ ∀ i < g.ip.size,
      contents g.ip g.bufs.cached i =
        (contents f.ip f.bufs.cached).splice off data.length (data.getD · 0) i := by
  rw [Fs.File.bytes, Fs.File.bytes, ← map_splice _ start] at eq
  have size_eq : g.ip.size = max f.ip.size (off + data.length) := by
    simpa using congrArg List.length eq
  refine ⟨size_eq, fun i lt => ?_⟩
  have there : i < max f.ip.size (off + data.length) := size_eq ▸ lt
  have here := congrArg (·[i]?) eq
  simp only [List.getElem?_map, List.getElem?_range lt, List.getElem?_range there, Option.map_some,
    Option.some.injEq] at here
  rw [here]
  rfl

/-- An entry is written to its place, where `space` says that a block that is needed for it is
found. -/
theorem writei_file (ready : Ready sb inum f.ip f.bufs) (entry : data.length = direntSize)
    (aligned : off % direntSize = 0) (start : off ≤ f.ip.size) : ∃ r g space,
      call sb inum f (.writei off data) = .ok (some (.wrote r), g) ∧
      ((Dir.ofFile f).writei (data.getD · 0) off space = none ↔ r ≠ some direntSize) ∧
      ∀ d, (Dir.ofFile f).writei (data.getD · 0) off space = some d →
        Ready sb inum g.ip g.bufs ∧ g.ip.size = d.size ∧
          ∀ i < d.size, contents g.ip g.bufs.cached i = d.bytes i := by
  have whole := ready.whole
  have size_le := Fs.whole_size whole
  have bound : maxfile * bsize = 274432 := rfl
  have sizeof : direntSize = 16 := rfl
  by_cases refused : Refused f.bytes off data.length
  · have ran := writei_refused sb inum f (by omega) (by omega) refused
    rw [Refused, Fs.File.length_bytes, entry] at refused
    have refuses : (Dir.ofFile f).writei (data.getD · 0) off false = none := by
      refine if_neg ?_
      rintro (inside | ⟨fits, -⟩)
      · have inside : off + direntSize ≤ f.ip.size := inside
        omega
      · omega
    refine ⟨none, f, false, ran, ?_, fun d eq => ?_⟩
    · exact iff_of_true refuses fun eq => by cases eq
    · rw [refuses] at eq
      cases eq
  obtain ⟨tot, g, ran, complete⟩ := writei_accepted ready refused
  rw [Refused, Fs.File.length_bytes, entry] at refused
  refine ⟨some tot, g, decide (tot = direntSize), ran, ?_⟩
  by_cases all : tot = direntSize
  · -- all of the entry is written
    obtain ⟨ready', eq⟩ := complete (all.trans entry.symm)
    obtain ⟨size_eq, bytes_eq⟩ := contents_written start eq
    rw [entry] at size_eq bytes_eq
    have writes : (Dir.ofFile f).writei (data.getD · 0) off (decide (tot = direntSize)) =
        some { bytes := (contents f.ip f.bufs.cached).splice off direntSize (data.getD · 0),
               size := max f.ip.size (off + direntSize) } :=
      if_pos (.inr ⟨by omega, .inr (decide_eq_true all)⟩)
    rw [writes]
    refine ⟨iff_of_false (fun eq => by cases eq) (not_not_intro (congrArg some all)), fun d same => ?_⟩
    cases same
    exact ⟨ready', size_eq, fun i lt => bytes_eq i (size_eq ▸ lt)⟩
  · -- a block is needed, and there is none
    have refuses : (Dir.ofFile f).writei (data.getD · 0) off (decide (tot = direntSize)) = none := by
      refine if_neg fun known => all ?_
      have within : blocks (off + direntSize) ≤ blocks f.ip.size :=
        blocks_within aligned start (known.imp id fun both =>
          both.2.resolve_right fun yes => all (of_decide_eq_true yes))
      have room : Room sb f.ip f.bufs.cached (off + data.length) :=
        room_of_whole whole (entry ▸ within)
      have fits : (Fs.File.Call.writei off data).Fits := ⟨by omega, by omega⟩
      exact (possible_successful ready fits room tot g ran).trans entry
    rw [refuses]
    refine ⟨iff_of_true rfl fun eq => all (Option.some.inj eq), fun d eq => ?_⟩
    cases eq

end Sistemas.Xv6.Dirlink
