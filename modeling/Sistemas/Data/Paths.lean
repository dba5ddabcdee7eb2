import Mathlib.Data.List.Basic

/-! # Path names and what they name

* `components` — the maximal runs of a path without its separator.
* `Names` — which of some nodes are directories, and the node that each has under a name.
* `follow` — the node at the end of a list of names.
* `parentOf` — the directory in which the last name is looked up, with that name.
* `Finds` — one of the two, with a rule for each turn of a loop that looks up name after name.
-/

namespace Sistemas

/-! ## The components of a path -/

section Components

variable {α : Type*} [DecidableEq α] {sep c : α} {path run : List α}

def components (sep : α) (path : List α) : List (List α) := (path.splitOn sep).filter (· ≠ [])

@[simp] theorem components_nil : components sep [] = [] := by
  simp [components]

theorem components_sep : components sep (sep :: path) = components sep path := by
  simp [components, List.splitOn, List.splitOnP_cons_eq_if_modifyHead]

theorem components_run_sep (nonempty : run ≠ []) (notMem : sep ∉ run) :
    components sep (run ++ sep :: path) = run :: components sep path := by
  have none : ∀ x ∈ run, (x == sep) = false := by
    intro x mem
    exact beq_false_of_ne fun eq => notMem (eq ▸ mem)
  simp only [components, List.splitOn]
  rw [List.splitOnP_append_cons_of_forall_mem none sep (beq_self_eq_true sep)]
  simp [nonempty]

theorem components_run_nil (nonempty : run ≠ []) (notMem : sep ∉ run) :
    components sep run = [run] := by
  have none : ∀ x ∈ run, (x == sep) = false := by
    intro x mem
    exact beq_false_of_ne fun eq => notMem (eq ▸ mem)
  simp only [components, List.splitOn]
  rw [List.splitOnP_eq_singleton none]
  simp [nonempty]

theorem components_dropWhile :
    components sep (path.dropWhile (· == sep)) = components sep path := by
  induction path with
  | nil => rfl
  | cons c path ih =>
    by_cases same : c = sep
    · rw [same, components_sep, List.dropWhile_cons_of_pos (by simp), ih]
    · rw [List.dropWhile_cons_of_neg (by simpa using same)]

/-- Behind the separators there is no further one. -/
theorem ne_of_dropWhile (front : path.dropWhile (· == sep) = c :: run) : c ≠ sep := by
  have head := List.head?_dropWhile_not (· == sep) path
  rw [front] at head
  simpa using head

/-- The first run ends at the first separator. -/
theorem components_cons (ne : c ≠ sep) :
    components sep (c :: path) = (c :: path).takeWhile (· != sep) ::
      components sep ((c :: path).dropWhile (· != sep)) := by
  have notMem : sep ∉ (c :: path).takeWhile (· != sep) := by
    intro mem
    have := List.all_eq_true.mp List.all_takeWhile sep mem
    simp at this
  have nonempty : (c :: path).takeWhile (· != sep) ≠ [] := by
    rw [List.takeWhile_cons_of_pos (by simpa using ne)]
    exact List.cons_ne_nil _ _
  have whole := List.takeWhile_append_dropWhile (p := (· != sep)) (l := c :: path)
  cases rest : (c :: path).dropWhile (· != sep) with
  | nil =>
    rw [rest, List.append_nil] at whole
    rw [components_nil, whole]
    rw [whole] at notMem nonempty
    exact components_run_nil nonempty notMem
  | cons d rest' =>
    have first : d = sep := by
      have head := List.head?_dropWhile_not (· != sep) (c :: path)
      rw [rest] at head
      simpa using head
    rw [rest, first] at whole
    rw [first, components_sep]
    conv_lhs => rw [← whole]
    exact components_run_sep nonempty notMem

end Components

/-! ## Following names -/

/-- `none` for a node that is not a directory. -/
structure Names (ι ν : Type*) where
  entry : ι → Option (ν → Option ι)

namespace Names

variable {ι ν : Type*} (names : Names ι ν)

def IsDir (i : ι) : Prop := (names.entry i).isSome

instance : DecidablePred names.IsDir := fun i =>
  inferInstanceAs (Decidable ((names.entry i).isSome = true))

def lookup (i : ι) (name : ν) : Option ι := (names.entry i).bind (· name)

def follow : ι → List ν → Option ι
  | i, [] => some i
  | i, name :: rest => (names.lookup i name).bind (follow · rest)

def parentOf (i : ι) (path : List ν) : Option (ι × ν) :=
  path.getLast?.bind fun last =>
    ((names.follow i path.dropLast).filter fun d => names.IsDir d).map (·, last)

variable {names} {i : ι} {name next : ν} {rest path : List ν}

@[simp] theorem follow_nil : names.follow i [] = some i := rfl

theorem follow_cons :
    names.follow i (name :: rest) = (names.lookup i name).bind (names.follow · rest) := rfl

@[simp] theorem parentOf_nil : names.parentOf i [] = none := rfl

theorem parentOf_single :
    names.parentOf i [name] = if names.IsDir i then some (i, name) else none := by
  by_cases dir : names.IsDir i <;> simp [parentOf, dir]

theorem parentOf_cons_cons :
    names.parentOf i (name :: next :: rest) =
      (names.lookup i name).bind (names.parentOf · (next :: rest)) := by
  have last := List.getLast?_cons_cons (a := name) (b := next) (l := rest)
  simp only [parentOf, last, List.dropLast_cons_cons, follow_cons]
  cases names.lookup i name with
  | none => cases (next :: rest).getLast? <;> rfl
  | some j => rfl

theorem lookup_notDir (notDir : ¬ names.IsDir i) : names.lookup i name = none := by
  simp only [IsDir, Option.not_isSome_iff_eq_none] at notDir
  rw [lookup, notDir]
  rfl

/-- For the parent also the `last` name counts. -/
def Finds (names : Names ι ν) (parent : Bool) (i : ι) (path : List ν) (found : Option ι)
    (last : ν) : Prop :=
  if parent then found.map (·, last) = names.parentOf i path else found = names.follow i path

section Finds

variable {parent : Bool} {found : Option ι} {last : ν} {j : ι}

theorem finds_nil : names.Finds parent i [] (if parent then none else some i) last := by
  cases parent <;> rfl

theorem finds_last (dir : names.IsDir i) : names.Finds true i [name] (some i) name := by
  rw [Finds, if_pos rfl, parentOf_single, if_pos dir]
  rfl

theorem Finds.lookup (step : names.lookup i name = some j) (more : parent = true → rest ≠ [])
    (finds : names.Finds parent j rest found last) :
    names.Finds parent i (name :: rest) found last := by
  cases parent with
  | false =>
    rw [Finds, if_neg Bool.false_ne_true] at finds ⊢
    rw [finds, follow_cons, step]
    rfl
  | true =>
    rw [Finds, if_pos rfl] at finds ⊢
    obtain ⟨next, rest', rfl⟩ := List.exists_cons_of_ne_nil (more rfl)
    rw [finds, parentOf_cons_cons, step]
    rfl

theorem finds_none (stuck : names.lookup i name = none)
    (more : parent = true → rest = [] → ¬ names.IsDir i) :
    names.Finds parent i (name :: rest) none last := by
  cases parent with
  | false =>
    rw [Finds, if_neg Bool.false_ne_true, follow_cons, stuck]
    rfl
  | true =>
    rw [Finds, if_pos rfl]
    cases rest with
    | nil => rw [parentOf_single, if_neg (more rfl rfl), Option.map_none]
    | cons next rest =>
      rw [parentOf_cons_cons, stuck]
      rfl

end Finds

end Names

end Sistemas
