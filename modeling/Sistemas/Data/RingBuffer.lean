import Mathlib.Algebra.Order.Group.Nat
import Mathlib.Data.Int.ModEq
import Mathlib.Data.List.Range
import Mathlib.Logic.Function.Basic
import Mathlib.Tactic.Cases

/-! # Ring buffers with counters that wrap

A buffer of `size` cells is filled at `write % size` and emptied at `read % size`.  The two
counters run freely modulo `wrap`, a multiple of `size`.

* `count` — how many cells are in use.
* `contents` — what is in them, the oldest first.
* `cells` — any number of cells from a place on.

Filling a cell of a buffer that is not full adds its value at the end (`contents_push`), and
emptying one takes the first value away (`contents_pop`).
-/

namespace Sistemas.RingBuffer

variable {α : Type*} {data : Nat → α} {size wrap read write i k : Nat} {x : α}

def count (wrap read write : Nat) : Nat := (write + wrap - read) % wrap

def contents (data : Nat → α) (size wrap read write : Nat) : List α :=
  (List.range (count wrap read write)).map fun i => data ((read + i) % size)

@[simp] theorem length_contents :
    (contents data size wrap read write).length = count wrap read write := by
  simp [contents]

theorem count_self : count wrap read read = 0 := by
  rw [count, Nat.add_sub_cancel_left, Nat.mod_self]

theorem count_eq_zero (readLt : read < wrap) (writeLt : write < wrap)
    (empty : count wrap read write = 0) : read = write := by
  unfold count at empty
  obtain lt | le := Nat.lt_or_ge write read
  · rw [Nat.mod_eq_of_lt (by omega)] at empty
    omega
  · rw [show write + wrap - read = write - read + wrap by omega, Nat.add_mod_right,
      Nat.mod_eq_of_lt (by omega)] at empty
    omega

/-- The writer is where the cells in use end. -/
theorem write_eq (readLt : read < wrap) (writeLt : write < wrap) :
    write = (read + count wrap read write) % wrap := by
  unfold count
  rw [Nat.add_mod_mod, show read + (write + wrap - read) = write + wrap by omega,
    Nat.add_mod_right, Nat.mod_eq_of_lt writeLt]

/-- Counters that are `k` apart. -/
theorem count_add (readLt : read < wrap) (lt : k < wrap) :
    count wrap read ((read + k) % wrap) = k := by
  unfold count
  obtain below | past := Nat.lt_or_ge (read + k) wrap
  · rw [Nat.mod_eq_of_lt below, show read + k + wrap - read = k + wrap by omega,
      Nat.add_mod_right, Nat.mod_eq_of_lt lt]
  · rw [Nat.mod_eq_sub_mod past, Nat.mod_eq_of_lt (by omega : read + k - wrap < wrap),
      show read + k - wrap + wrap - read = k by omega, Nat.mod_eq_of_lt lt]

theorem count_push (readLt : read < wrap) (writeLt : write < wrap)
    (more : count wrap read write + 1 < wrap) :
    count wrap read ((write + 1) % wrap) = count wrap read write + 1 := by
  have place := write_eq readLt writeLt
  generalize count wrap read write = c at place more ⊢
  subst place
  rw [Nat.mod_add_mod, Nat.add_assoc]
  exact count_add readLt more

theorem count_pop (readLt : read < wrap) (writeLt : write < wrap)
    (some_used : count wrap read write ≠ 0) :
    count wrap ((read + 1) % wrap) write + 1 = count wrap read write := by
  have place := write_eq readLt writeLt
  have small : count wrap read write < wrap := Nat.mod_lt _ (by omega)
  generalize count wrap read write = c at place some_used small ⊢
  subst place
  unfold count
  obtain ⟨c, rfl⟩ := Nat.exists_eq_succ_of_ne_zero some_used
  have after : (read + (c + 1)) % wrap = ((read + 1) % wrap + c) % wrap := by
    rw [Nat.mod_add_mod]
    congr 1
    omega
  have lt : (read + 1) % wrap < wrap := Nat.mod_lt _ (by omega)
  rw [after]
  generalize (read + 1) % wrap = r at lt ⊢
  obtain below | past := Nat.lt_or_ge (r + c) wrap
  · rw [Nat.mod_eq_of_lt below, show r + c + wrap - r = c + wrap by omega, Nat.add_mod_right,
      Nat.mod_eq_of_lt (by omega)]
  · rw [Nat.mod_eq_sub_mod past, Nat.mod_eq_of_lt (by omega : r + c - wrap < wrap),
      show r + c - wrap + wrap - r = c by omega, Nat.mod_eq_of_lt (by omega)]

/-- The buffer is full exactly if the writer has lapped the reader. -/
theorem full_iff (readLt : read < wrap) (writeLt : write < wrap) (sizeLt : size < wrap) :
    write = (read + size) % wrap ↔ count wrap read write = size := by
  constructor
  · rintro rfl
    exact count_add readLt sizeLt
  · intro full
    rw [← full]
    exact write_eq readLt writeLt

theorem contents_push (readLt : read < wrap) (writeLt : write < wrap) (sizeLt : size < wrap)
    (dvd : size ∣ wrap) (room : count wrap read write < size) :
    contents (Function.update data (write % size) x) size wrap read ((write + 1) % wrap) =
      contents data size wrap read write ++ [x] := by
  have place : write % size = (read + count wrap read write) % size := by
    rw [← Nat.mod_mod_of_dvd (read + count wrap read write) dvd, ← write_eq readLt writeLt]
  rw [contents, count_push readLt writeLt (by omega), List.range_succ, List.map_append, contents]
  congr 1
  · -- the cells in use are not the one that is filled
    refine List.map_congr_left fun i mem => ?_
    have lt := List.mem_range.mp mem
    have ne : (read + i) % size ≠ write % size := by
      rw [place]
      intro same
      have eq : Nat.ModEq size i (count wrap read write) := Nat.ModEq.add_left_cancel' read same
      exact Nat.ne_of_lt lt (eq.eq_of_lt_of_lt (lt.trans room) room)
    rw [Function.update_of_ne ne]
  · rw [List.map_singleton, ← place, Function.update_self]

theorem contents_pop (readLt : read < wrap) (writeLt : write < wrap) (dvd : size ∣ wrap)
    (some_used : count wrap read write ≠ 0) :
    contents data size wrap read write =
      data (read % size) :: contents data size wrap ((read + 1) % wrap) write := by
  rw [contents, ← count_pop readLt writeLt some_used, List.range_succ_eq_map, List.map_cons,
    List.map_map, contents]
  refine congrArg₂ List.cons rfl (List.map_congr_left fun i _ => ?_)
  have next : ((read + 1) % wrap + i) % size = (read + 1 + i) % size := by
    rw [Nat.add_mod, Nat.mod_mod_of_dvd _ dvd, ← Nat.add_mod]
  rw [Function.comp_apply, next, Nat.succ_eq_add_one]
  congr 2
  omega

/-! ## Any number of cells -/

def cells (data : Nat → α) (size place k : Nat) : List α :=
  (List.range k).map fun i => data ((place + i) % size)

variable {place j : Nat}

theorem cells_add : cells data size place (j + k) =
    cells data size place j ++ cells data size (place + j) k := by
  simp [cells, List.range_add, Nat.add_assoc, Function.comp_def]

theorem cells_one : cells data size place 1 = [data (place % size)] := rfl

theorem cells_mod (dvd : size ∣ wrap) :
    cells data size (place % wrap) k = cells data size place k := by
  apply List.map_congr_left
  intro i _
  rw [Nat.add_mod, Nat.mod_mod_of_dvd _ dvd, ← Nat.add_mod]

/-- The cell that is filled is behind the `k` cells. -/
theorem cells_update (lt : k < size) :
    cells (Function.update data ((place + k) % size) x) size place k = cells data size place k := by
  apply List.map_congr_left
  intro i mem
  have less := List.mem_range.mp mem
  apply Function.update_of_ne
  intro same
  have eq : Nat.ModEq size i k := Nat.ModEq.add_left_cancel' place same
  exact Nat.ne_of_lt less (eq.eq_of_lt_of_lt (less.trans lt) lt)

/-- A counter goes back by one. -/
theorem pred_add (pos : 0 < wrap) :
    ((place + (k + 1)) % wrap + (wrap - 1)) % wrap = (place + k) % wrap := by
  have turn : place + (k + 1) + (wrap - 1) = place + k + wrap := by omega
  rw [Nat.mod_add_mod, turn, Nat.add_mod_right]

end Sistemas.RingBuffer
