import Mathlib.Data.List.Basic

/-! # Descriptor tables

The table that maps the file descriptors of a process to open files.  New descriptors are
the lowest ones that are not in use.

A table counts the pipes created so far, and no descriptor refers to a pipe that does not
exist yet.  So the ends of a new pipe differ from everything that is in the table.
-/

namespace Sistemas.Posix

variable {α φ : Type}

/-! ## Cells -/

namespace Cells

def lookup : List (Option α) → Nat → Option α
  | [], _ => none
  | cell :: _, 0 => cell
  | _ :: cells, n + 1 => lookup cells n

def put : List (Option α) → Nat → Option α → List (Option α)
  | [], 0, x => [x]
  | [], n + 1, x => none :: put [] n x
  | _ :: cells, 0, x => x :: cells
  | cell :: cells, n + 1, x => cell :: put cells n x

/-- The first cell that is free. -/
def lowest : List (Option α) → Nat
  | [] => 0
  | none :: _ => 0
  | some _ :: cells => lowest cells + 1

@[simp] theorem lookup_put (cells : List (Option α)) (n m : Nat) (x : Option α) :
    lookup (put cells n x) m = if m = n then x else lookup cells m := by
  induction cells, n, x using put.induct generalizing m with
  | case1 x => cases m <;> simp [put, lookup]
  | case2 n x ih => cases m <;> simp [put, lookup, ih]
  | case3 cell cells x => cases m <;> simp [put, lookup]
  | case4 cell cells n x ih => cases m <;> simp [put, lookup, ih]

@[simp] theorem lookup_lowest (cells : List (Option α)) : lookup cells (lowest cells) = none := by
  induction cells with
  | nil => rfl
  | cons cell cells ih => cases cell <;> simp [lowest, lookup, ih]

theorem mem_of_lookup {cells : List (Option α)} {n : Nat} {f : α} (h : lookup cells n = some f) :
    some f ∈ cells := by
  induction cells generalizing n with
  | nil => cases h
  | cons cell cells ih =>
    cases n with
    | zero => exact List.mem_cons.mpr (.inl h.symm)
    | succ n => exact .tail _ (ih h)

theorem mem_put {cells : List (Option α)} {n : Nat} {x : Option α} {f : α}
    (h : some f ∈ put cells n x) : x = some f ∨ some f ∈ cells := by
  induction cells, n, x using put.induct with
  | case1 x => simpa [put, eq_comm] using h
  | case2 n x ih => simpa using ih (by simpa [put] using h)
  | case3 cell cells x =>
    simp only [put, List.mem_cons] at h
    exact h.imp Eq.symm (List.mem_cons_of_mem _)
  | case4 cell cells n x ih =>
    simp only [put, List.mem_cons] at h
    obtain here | later := h
    · exact .inr (List.mem_cons.mpr (.inl here))
    · exact (ih later).imp_right (List.mem_cons_of_mem _)

end Cells

/-! ## Open files -/

inductive OpenFile (φ : Type) where
  | file (f : φ)
  | readEnd (pipe : Nat)
  | writeEnd (pipe : Nat)
  deriving DecidableEq

/-- An end of a pipe is one of the first `pipes`. -/
def OpenFile.Known (pipes : Nat) : OpenFile φ → Prop
  | .file _ => True
  | .readEnd pipe => pipe < pipes
  | .writeEnd pipe => pipe < pipes

theorem OpenFile.Known.mono {pipes : Nat} {f : OpenFile φ} (h : f.Known pipes) :
    f.Known (pipes + 1) := by
  cases f with
  | file f => trivial
  | readEnd pipe => exact Nat.lt_succ_of_lt h
  | writeEnd pipe => exact Nat.lt_succ_of_lt h

structure FdTable (φ : Type) where
  cells : List (Option (OpenFile φ))
  -- the pipes created so far
  pipes : Nat
  known : ∀ f, some f ∈ cells → f.Known pipes

namespace FdTable

/-- What a descriptor refers to. -/
def get (t : FdTable φ) : Int → Option (OpenFile φ)
  | .ofNat n => Cells.lookup t.cells n
  | .negSucc _ => none

/-- A table with a cell of its own replaced. -/
def set (t : FdTable φ) (n : Nat) (x : Option (OpenFile φ))
    (known : ∀ f, x = some f → f.Known t.pipes) : FdTable φ where
  cells := Cells.put t.cells n x
  pipes := t.pipes
  known f mem := (Cells.mem_put mem).elim (known f) (t.known f)

def close (t : FdTable φ) : Int → FdTable φ
  | .ofNat n => t.set n none (by simp)
  | .negSucc _ => t

theorem known_get {t : FdTable φ} {fd : Int} {f : OpenFile φ} (h : t.get fd = some f) :
    f.Known t.pipes := by
  cases fd with
  | ofNat n => exact t.known f (Cells.mem_of_lookup h)
  | negSucc n => cases h

/-- The descriptor `new` refers to what `old` refers to. -/
def dup2 (t : FdTable φ) (old : Int) : Int → FdTable φ
  | .ofNat new => t.set new (t.get old) (fun _ h => known_get h)
  | .negSucc _ => t

def openFile (t : FdTable φ) (f : φ) : Int × FdTable φ :=
  (.ofNat (Cells.lowest t.cells),
    t.set (Cells.lowest t.cells) (some (.file f)) (by rintro _ ⟨⟩; trivial))

/-- A new pipe, with no descriptor for it yet. -/
def newPipe (t : FdTable φ) : FdTable φ where
  cells := t.cells
  pipes := t.pipes + 1
  known f mem := (t.known f mem).mono

def pipe (t : FdTable φ) : Int × Int × FdTable φ :=
  let readFd := Cells.lowest t.cells
  let reading := t.newPipe.set readFd (some (.readEnd t.pipes))
    (by rintro _ ⟨⟩; exact Nat.lt_succ_self _)
  let writeFd := Cells.lowest reading.cells
  (.ofNat readFd, .ofNat writeFd,
    reading.set writeFd (some (.writeEnd t.pipes)) (by rintro _ ⟨⟩; exact Nat.lt_succ_self _))

/-- The descriptors refer to the same files. -/
def Same (t t' : FdTable φ) : Prop := ∀ fd, t.get fd = t'.get fd

/-- Descriptors 0, 1 and 2 are open. -/
structure Standard (t : FdTable φ) : Prop where
  stdin : t.get 0 ≠ none
  stdout : t.get 1 ≠ none
  stderr : t.get 2 ≠ none

/-! ## What the operations do -/

theorem get_set (t : FdTable φ) (n : Nat) (x : Option (OpenFile φ)) (known) (fd : Int) :
    (t.set n x known).get fd = if fd = n then x else t.get fd := by
  cases fd with
  | ofNat m =>
    have cast : (Int.ofNat m = (n : Int)) ↔ m = n := Int.ofNat_inj
    simp only [get, set, Cells.lookup_put, cast]
  | negSucc m =>
    rw [if_neg (by simp)]
    rfl

@[simp] theorem get_close (t : FdTable φ) (closed fd : Int) :
    (t.close closed).get fd = if fd = closed then none else t.get fd := by
  cases closed with
  | ofNat n => exact get_set t n none (by simp) fd
  | negSucc n =>
    simp only [close]
    split
    next h => subst h; rfl
    next => rfl

@[simp] theorem get_dup2 (t : FdTable φ) (old fd : Int) (new : Nat) :
    (t.dup2 old new).get fd = if fd = new then t.get old else t.get fd :=
  get_set t new (t.get old) (fun _ h => known_get h) fd

@[simp] theorem get_newPipe (t : FdTable φ) (fd : Int) : t.newPipe.get fd = t.get fd := by
  cases fd <;> rfl

theorem get_openFile (t : FdTable φ) (f : φ) (fd : Int) :
    (t.openFile f).2.get fd = if fd = (t.openFile f).1 then some (.file f) else t.get fd :=
  get_set t _ _ (by rintro _ ⟨⟩; trivial) fd

@[simp] theorem get_pipe (t : FdTable φ) (fd : Int) :
    t.pipe.2.2.get fd = if fd = t.pipe.2.1 then some (.writeEnd t.pipes)
      else if fd = t.pipe.1 then some (.readEnd t.pipes) else t.get fd := by
  simp only [pipe]
  rw [get_set, get_set, get_newPipe]
  rfl

@[simp] theorem pipes_close (t : FdTable φ) (fd : Int) : (t.close fd).pipes = t.pipes := by
  cases fd <;> rfl

@[simp] theorem pipes_pipe (t : FdTable φ) : t.pipe.2.2.pipes = t.pipes + 1 := rfl

/-! ## New descriptors -/

theorem get_openFile_fd (t : FdTable φ) (f : φ) : t.get (t.openFile f).1 = none :=
  Cells.lookup_lowest t.cells

theorem get_pipe_readFd (t : FdTable φ) : t.get t.pipe.1 = none := Cells.lookup_lowest t.cells

theorem pipe_writeFd (t : FdTable φ) : t.pipe.2.1 ≠ t.pipe.1 ∧ t.get t.pipe.2.1 = none := by
  let reading := t.newPipe.set (Cells.lowest t.cells) (some (.readEnd t.pipes))
    (by rintro _ ⟨⟩; exact Nat.lt_succ_self _)
  have free : reading.get t.pipe.2.1 = none := Cells.lookup_lowest reading.cells
  rw [get_set, get_newPipe] at free
  split at free
  next => cases free
  next h => exact ⟨h, free⟩

/-! ## Descriptors beyond a table

A process that opens descriptors for a while and closes them again has, in between, what it
had before and the descriptors `extra`. -/

structure Extends (base : Int → Option (OpenFile φ)) (t : FdTable φ)
    (extra : List (Int × OpenFile φ)) : Prop where
  held : ∀ e ∈ extra, t.get e.1 = some e.2 ∧ base e.1 = none
  nodup : (extra.map Prod.fst).Nodup
  rest : ∀ fd, fd ∉ extra.map Prod.fst → t.get fd = base fd

namespace Extends

variable {base : Int → Option (OpenFile φ)} {t t' : FdTable φ} {extra : List (Int × OpenFile φ)}

theorem refl (t : FdTable φ) : Extends t.get t [] where
  held := by simp
  nodup := List.nodup_nil
  rest _ _ := rfl

theorem get_eq (h : Extends base t []) (fd : Int) : t.get fd = base fd := h.rest fd (by simp)

theorem perm {extra' : List (Int × OpenFile φ)} (h : Extends base t extra)
    (p : extra.Perm extra') : Extends base t extra' where
  held e mem := h.held e (p.mem_iff.mpr mem)
  nodup := (p.map Prod.fst).nodup_iff.mp h.nodup
  rest fd out := h.rest fd (mt (p.map Prod.fst).mem_iff.mp out)

/-- A descriptor that was not in use. -/
theorem insert {fd : Int} {f : OpenFile φ} (h : Extends base t extra) (free : t.get fd = none)
    (new : ∀ x, t'.get x = if x = fd then some f else t.get x) :
    Extends base t' ((fd, f) :: extra) := by
  have out : fd ∉ extra.map Prod.fst := by
    intro mem
    obtain ⟨e, inside, rfl⟩ := List.mem_map.mp mem
    rw [(h.held e inside).1] at free
    cases free
  refine ⟨?_, List.nodup_cons.mpr ⟨out, h.nodup⟩, ?_⟩
  · intro e mem
    obtain rfl | mem := List.mem_cons.mp mem
    · exact ⟨by rw [new, if_pos rfl], by rw [← h.rest fd out, free]⟩
    · have other : e.1 ≠ fd := fun eq => out (List.mem_map.mpr ⟨e, mem, eq⟩)
      exact ⟨by rw [new, if_neg other]; exact (h.held e mem).1, (h.held e mem).2⟩
  · intro x outside
    simp only [List.map_cons, List.mem_cons, not_or] at outside
    rw [new, if_neg outside.1]
    exact h.rest x outside.2

theorem openFile (h : Extends base t extra) (f : φ) :
    Extends base (t.openFile f).2 (((t.openFile f).1, .file f) :: extra) :=
  h.insert (get_openFile_fd t f) (get_openFile t f)

theorem pipe (h : Extends base t extra) :
    Extends base t.pipe.2.2
      ((t.pipe.2.1, .writeEnd t.pipes) :: (t.pipe.1, .readEnd t.pipes) :: extra) := by
  obtain ⟨ne, free⟩ := pipe_writeFd t
  let reading := t.newPipe.set (Cells.lowest t.cells) (some (.readEnd t.pipes))
    (by rintro _ ⟨⟩; exact Nat.lt_succ_self _)
  have reads : ∀ x, reading.get x = if x = t.pipe.1 then some (.readEnd t.pipes) else t.get x := by
    intro x
    rw [get_set, get_newPipe]
    rfl
  have first := h.insert (get_pipe_readFd t) reads
  refine first.insert ?_ ?_
  · rw [reads, if_neg ne, free]
  · intro x
    rw [get_pipe, reads]

theorem close {fd : Int} {f : OpenFile φ} (h : Extends base t ((fd, f) :: extra)) :
    Extends base (t.close fd) extra := by
  obtain ⟨out, nodup⟩ := List.nodup_cons.mp h.nodup
  refine ⟨?_, nodup, ?_⟩
  · intro e mem
    have other : e.1 ≠ fd := fun eq => out (List.mem_map.mpr ⟨e, mem, eq⟩)
    rw [get_close, if_neg other]
    exact h.held e (.tail _ mem)
  · intro x outside
    rw [get_close]
    split
    next here => subst here; exact (h.held _ List.mem_cons_self).2.symm
    next other => exact h.rest x (by simp [other, outside])

/-- A descriptor in use below is replaced. -/
theorem dup2 {old : Int} {new : Nat} {f : OpenFile φ} (h : Extends base t extra)
    (source : t.get old = some f) (used : base new ≠ none) :
    Extends (Function.update base new (some f)) (t.dup2 old new) extra := by
  refine ⟨?_, h.nodup, ?_⟩
  · intro e mem
    have other : e.1 ≠ new := fun eq => used (eq ▸ (h.held e mem).2)
    rw [get_dup2, if_neg other, Function.update_of_ne other]
    exact h.held e mem
  · intro x outside
    rw [get_dup2, Function.update_apply, source, h.rest x outside]

end Extends

theorem Same.refl (t : FdTable φ) : t.Same t := fun _ => rfl

theorem Same.trans {t t' t'' : FdTable φ} (h : t.Same t') (h' : t'.Same t'') : t.Same t'' :=
  fun fd => (h fd).trans (h' fd)

end FdTable

end Sistemas.Posix
