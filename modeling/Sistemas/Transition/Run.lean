import Mathlib.Data.List.Basic

/-! # Runs of a labelled transition system

A system is a partial step function `step : σ → ℓ → Option σ`: the label picks
the next move (which party acts, and with which choice) and `none` says that the
move is not enabled.  A run is a list of labels.

* `exec` — the state a run ends in.
* `trace` — the events a run emits, where `obs s l` is what the move `l` emits
  when it is made in `s`.
* `Along` — every move of the run meets a condition on its label and the state
  it is made in.

The induction rules at the end are the only inductions over runs that clients
need: `exec_invariant` for an invariant of states, `exec_invariant_along` for one
that needs a condition on the moves, and `trace_invariant` for one that relates the
state to the events emitted so far.
-/

namespace Sistemas.Transition

variable {σ ℓ ε : Type*}

/-- The state reached from `s` by the moves `ls`, if all of them are enabled. -/
def exec (step : σ → ℓ → Option σ) : σ → List ℓ → Option σ
  | s, [] => some s
  | s, l :: ls => (step s l).bind (fun s' => exec step s' ls)

/-- The events emitted along the run `ls` from `s`. -/
def trace (step : σ → ℓ → Option σ) (obs : σ → ℓ → Option ε) : σ → List ℓ → List ε
  | _, [] => []
  | s, l :: ls =>
    (obs s l).toList ++
      match step s l with
      | some s' => trace step obs s' ls
      | none => []

def Along (step : σ → ℓ → Option σ) (C : σ → ℓ → Prop) : σ → List ℓ → Prop
  | _, [] => True
  | s, l :: ls => C s l ∧ ∀ s', step s l = some s' → Along step C s' ls

variable {step : σ → ℓ → Option σ} {obs : σ → ℓ → Option ε} {C : σ → ℓ → Prop}

instance decidableAlong [∀ s l, Decidable (C s l)] :
    (s : σ) → (ls : List ℓ) → Decidable (Along step C s ls)
  | _, [] => isTrue trivial
  | s, l :: ls =>
    match h : step s l with
    | some s' =>
      have := decidableAlong s' ls
      decidable_of_iff (C s l ∧ Along step C s' ls) (by simp [Along, h])
    | none => decidable_of_iff (C s l) (by simp [Along, h])

@[simp] theorem exec_nil (s : σ) : exec step s [] = some s := rfl

theorem exec_cons_eq_some {s t : σ} {l : ℓ} {ls : List ℓ} :
    exec step s (l :: ls) = some t ↔ ∃ u, step s l = some u ∧ exec step u ls = some t := by
  rw [exec, Option.bind_eq_some_iff]

theorem exec_append (s : σ) (ls ms : List ℓ) :
    exec step s (ls ++ ms) = (exec step s ls).bind (fun u => exec step u ms) := by
  induction ls generalizing s with
  | nil => rfl
  | cons l ls ih =>
    simp only [List.cons_append, exec]
    cases step s l with
    | none => rfl
    | some u => exact ih u

theorem exec_append_eq_some {s t : σ} {ls ms : List ℓ} :
    exec step s (ls ++ ms) = some t ↔ ∃ u, exec step s ls = some u ∧ exec step u ms = some t := by
  rw [exec_append, Option.bind_eq_some_iff]

theorem trace_cons {s s' : σ} {l : ℓ} (ls : List ℓ) (h : step s l = some s') :
    trace step obs s (l :: ls) = (obs s l).toList ++ trace step obs s' ls := by
  simp [trace, h]

theorem trace_append {s t : σ} {ls : List ℓ} (ms : List ℓ) (h : exec step s ls = some t) :
    trace step obs s (ls ++ ms) = trace step obs s ls ++ trace step obs t ms := by
  induction ls generalizing s with
  | nil =>
    cases h
    rfl
  | cons l ls ih =>
    obtain ⟨u, hu, ht⟩ := (exec_cons_eq_some).mp h
    rw [List.cons_append, trace_cons _ hu, trace_cons _ hu, ih ht, List.append_assoc]

theorem along_append {s t : σ} {ls ms : List ℓ} (h : exec step s ls = some t) :
    Along step C s (ls ++ ms) ↔ Along step C s ls ∧ Along step C t ms := by
  induction ls generalizing s with
  | nil => cases h; simp [Along]
  | cons l ls ih =>
    obtain ⟨u, hu, ht⟩ := (exec_cons_eq_some).mp h
    simp [Along, hu, ih ht, and_assoc]

theorem Along.imp {D : σ → ℓ → Prop} (weaker : ∀ s l, C s l → D s l) {s : σ} {ls : List ℓ}
    (along : Along step C s ls) : Along step D s ls := by
  induction ls generalizing s with
  | nil => trivial
  | cons l ls ih => exact ⟨weaker s l along.1, fun t ht => ih (along.2 t ht)⟩

/-! ## Induction over a run -/

/-- A property kept by every move holds wherever a run ends. -/
theorem exec_invariant {P : σ → Prop} (keep : ∀ s l s', P s → step s l = some s' → P s')
    {s t : σ} {ls : List ℓ} (start : P s) (run : exec step s ls = some t) : P t := by
  induction ls generalizing s with
  | nil => cases run; exact start
  | cons l ls ih =>
    obtain ⟨u, hu, ht⟩ := (exec_cons_eq_some).mp run
    exact ih (keep s l u start hu) ht

/-- A property kept by every move that meets `C` holds at the end of a run all of
    whose moves meet `C`. -/
theorem exec_invariant_along {P : σ → Prop}
    (keep : ∀ s l s', P s → C s l → step s l = some s' → P s')
    {s t : σ} {ls : List ℓ} (start : P s) (run : exec step s ls = some t)
    (along : Along step C s ls) : P t := by
  induction ls generalizing s with
  | nil => cases run; exact start
  | cons l ls ih =>
    obtain ⟨u, hu, ht⟩ := (exec_cons_eq_some).mp run
    exact ih (keep s l u start along.1 hu) ht (along.2 u hu)

/-- What an invariant guarantees of every move that meets `C` holds along a run that meets `C`. -/
theorem Along.of_invariant {P : σ → Prop} {D : σ → ℓ → Prop}
    (keep : ∀ s l s', P s → C s l → step s l = some s' → P s')
    (cond : ∀ s l s', P s → C s l → step s l = some s' → D s l) {s t : σ} {ls : List ℓ}
    (along : Along step C s ls) (run : exec step s ls = some t) (start : P s) :
    Along step D s ls := by
  induction ls generalizing s with
  | nil => trivial
  | cons l ls ih =>
    obtain ⟨u, hu, ht⟩ := (exec_cons_eq_some).mp run
    refine ⟨cond s l u start along.1 hu, fun u' hu' => ?_⟩
    cases hu.symm.trans hu'
    exact ih (along.2 u hu) ht (keep s l u start along.1 hu)

/-- A condition that an invariant guarantees for every move that may occur in the run
    holds along it, and the invariant at its end. -/
theorem along_of_invariant {P : σ → Prop} {D : ℓ → Prop}
    (keep : ∀ s l s', P s → D l → step s l = some s' → P s') (cond : ∀ s l, P s → D l → C s l)
    {s t : σ} {ls : List ℓ} (start : P s) (labels : ∀ l ∈ ls, D l)
    (run : exec step s ls = some t) : Along step C s ls ∧ P t := by
  induction ls generalizing s with
  | nil => cases run; exact ⟨trivial, start⟩
  | cons l ls ih =>
    obtain ⟨u, hu, ht⟩ := (exec_cons_eq_some).mp run
    have hl := labels l List.mem_cons_self
    obtain ⟨along, last⟩ := ih (keep s l u start hl hu) (fun m hm => labels m (.tail _ hm)) ht
    refine ⟨⟨cond s l start hl, fun u' hu' => ?_⟩, last⟩
    cases hu.symm.trans hu'
    exact along

/-- A relation between the events so far and the state that every move that meets `C` keeps
    relates the trace of a run that meets `C` to the state it ends in. -/
theorem trace_invariant_along {P : List ε → σ → Prop}
    (keep : ∀ es s l s', P es s → C s l → step s l = some s' → P (es ++ (obs s l).toList) s')
    {s t : σ} {ls : List ℓ} (start : P [] s) (run : exec step s ls = some t)
    (along : Along step C s ls) : P (trace step obs s ls) t := by
  -- by induction on the moves left, with any events before them
  suffices later : ∀ (es : List ε) (s : σ), P es s → exec step s ls = some t →
      Along step C s ls → P (es ++ trace step obs s ls) t from later [] s start run along
  clear start run along
  induction ls with
  | nil =>
    intro es s start run _
    cases run
    simpa [trace] using start
  | cons l ls ih =>
    intro es s start run along
    obtain ⟨u, hu, ht⟩ := (exec_cons_eq_some).mp run
    rw [trace_cons _ hu, ← List.append_assoc]
    exact ih (es ++ (obs s l).toList) u (keep es s l u start along.1 hu) ht (along.2 u hu)

theorem along_of_labels {D : ℓ → Prop} {ls : List ℓ} (labels : ∀ l ∈ ls, D l) (s : σ) :
    Along step (fun _ l => D l) s ls := by
  induction ls generalizing s with
  | nil => trivial
  | cons l ls ih =>
    exact ⟨labels l List.mem_cons_self, fun t _ => ih (fun m mem => labels m (.tail _ mem)) t⟩

/-- The same for a relation that every move keeps. -/
theorem trace_invariant {P : List ε → σ → Prop}
    (keep : ∀ es s l s', P es s → step s l = some s' → P (es ++ (obs s l).toList) s')
    {s t : σ} {ls : List ℓ} (start : P [] s) (run : exec step s ls = some t) :
    P (trace step obs s ls) t :=
  trace_invariant_along (fun es s l s' holds _ => keep es s l s' holds) start run
    (along_of_labels (fun _ _ => trivial) s)

/-- As long as the events meet a condition that their beginnings meet as well, what every move
    keeps relates the events so far to the state, and guarantees what it does of each move. -/
theorem along_of_trace {P : List ε → σ → Prop} {Q : List ε → Prop} {D : σ → ℓ → Prop}
    (begins : ∀ es es', Q (es ++ es') → Q es)
    (keep : ∀ es s l s', P es s → step s l = some s' → Q (es ++ (obs s l).toList) →
      P (es ++ (obs s l).toList) s' ∧ D s l)
    {s t : σ} {ls : List ℓ} (start : P [] s) (run : exec step s ls = some t)
    (few : Q (trace step obs s ls)) : Along step D s ls ∧ P (trace step obs s ls) t := by
  suffices later : ∀ (es : List ε) (s : σ), P es s → exec step s ls = some t →
      Q (es ++ trace step obs s ls) →
      Along step D s ls ∧ P (es ++ trace step obs s ls) t from later [] s start run few
  clear start run few
  induction ls with
  | nil =>
    intro es s start run few
    cases run
    simpa [trace, Along] using start
  | cons l ls ih =>
    intro es s start run few
    obtain ⟨u, hu, ht⟩ := (exec_cons_eq_some).mp run
    rw [trace_cons _ hu, ← List.append_assoc] at few ⊢
    obtain ⟨kept, cond⟩ := keep es s l u start hu (begins _ _ few)
    obtain ⟨along, last⟩ := ih _ u kept ht few
    refine ⟨⟨cond, fun u' hu' => ?_⟩, last⟩
    cases hu.symm.trans hu'
    exact along

/-! ## Simulation -/

/-- Two systems of which each move of the one that meets `C` is one of the other with the same
    event go through the same runs. -/
theorem simulation {τ : Type*} {step' : τ → ℓ → Option τ} {obs' : τ → ℓ → Option ε}
    {R : σ → τ → Prop}
    (move : ∀ s t l, R s t → C s l → ∃ s' t', step s l = some s' ∧ step' t l = some t' ∧
      R s' t' ∧ obs s l = obs' t l)
    {s : σ} {t : τ} {ls : List ℓ} (start : R s t) (along : Along step C s ls) :
    ∃ s' t', exec step s ls = some s' ∧ exec step' t ls = some t' ∧ R s' t' ∧
      trace step obs s ls = trace step' obs' t ls := by
  induction ls generalizing s t with
  | nil => exact ⟨s, t, rfl, rfl, start, rfl⟩
  | cons l ls ih =>
    obtain ⟨u, v, stepped, stepped', related, event⟩ := move s t l start along.1
    obtain ⟨s', t', run, run', last, events⟩ := ih related (along.2 u stepped)
    refine ⟨s', t', (exec_cons_eq_some).mpr ⟨u, stepped, run⟩,
      (exec_cons_eq_some).mpr ⟨v, stepped', run'⟩, last, ?_⟩
    rw [trace_cons _ stepped, trace_cons _ stepped', event, events]

/-- A system each of whose moves is one of the other, with the same event, has no other runs. -/
theorem refinement {τ : Type*} {step' : τ → ℓ → Option τ} {obs' : τ → ℓ → Option ε}
    {R : σ → τ → Prop}
    (move : ∀ s t l s', R s t → step s l = some s' → ∃ t', step' t l = some t' ∧ R s' t' ∧
      obs s l = obs' t l)
    {s s' : σ} {t : τ} {ls : List ℓ} (start : R s t) (run : exec step s ls = some s') :
    ∃ t', exec step' t ls = some t' ∧ R s' t' ∧ trace step obs s ls = trace step' obs' t ls := by
  induction ls generalizing s t with
  | nil =>
    cases run
    exact ⟨t, rfl, start, rfl⟩
  | cons l ls ih =>
    obtain ⟨u, stepped, later⟩ := (exec_cons_eq_some).mp run
    obtain ⟨v, stepped', related, event⟩ := move s t l u start stepped
    obtain ⟨t', run', last, events⟩ := ih related later
    refine ⟨t', (exec_cons_eq_some).mpr ⟨v, stepped', run'⟩, last, ?_⟩
    rw [trace_cons _ stepped, trace_cons _ stepped', event, events]

end Sistemas.Transition
