import Mathlib.Order.Basic
import Mathlib.Logic.Function.Iterate

/-! # While loops

The body of a loop maps the state at the head of the loop to the next one, or to the
result with which the loop is left.

* `run` — the result after at most so many rounds, `none` if they do not suffice.
* `result` — the result of a loop with a measure that every round brings down.

`result_eq` unrolls one round; `run_eq_result` says how many rounds suffice.  `run_search` is
about a loop that only looks for something.
-/

namespace Sistemas.Loop

variable {σ ρ : Type*} {body : σ → σ ⊕ ρ}

/-- The result of at most `fuel` rounds from `s`. -/
def run (body : σ → σ ⊕ ρ) : Nat → σ → Option ρ
  | 0, _ => none
  | fuel + 1, s =>
    match body s with
    | .inl s' => run body fuel s'
    | .inr r => some r

theorem run_next {s s' : σ} (fuel : Nat) (h : body s = .inl s') :
    run body (fuel + 1) s = run body fuel s' := by
  simp [run, h]

theorem run_leave {s : σ} {r : ρ} (fuel : Nat) (h : body s = .inr r) :
    run body (fuel + 1) s = some r := by
  simp [run, h]

theorem run_mono {fuel more : Nat} {s : σ} {r : ρ} (h : run body fuel s = some r)
    (le : fuel ≤ more) : run body more s = some r := by
  induction fuel generalizing s more with
  | zero => cases h
  | succ fuel ih =>
    obtain ⟨more, rfl⟩ : ∃ m, more = m + 1 := ⟨more - 1, by omega⟩
    cases next : body s with
    | inl s' =>
      rw [run_next _ next] at h ⊢
      exact ih h (by omega)
    | inr r' =>
      rw [run_leave _ next] at h ⊢
      exact h

/-- A loop that looks at `next s` after `s` until it finds what it looks for. -/
theorem run_search {body : σ → σ ⊕ σ} {next : σ → σ}
    (goes : ∀ s, body s = .inr s ∨ body s = .inl (next s)) {s : σ} {k : Nat}
    (there : body (next^[k] s) = .inr (next^[k] s)) :
    ∃ fuel j, j ≤ k ∧ body (next^[j] s) = .inr (next^[j] s) ∧
      ∀ more, fuel ≤ more → run body more s = some (next^[j] s) := by
  induction k generalizing s with
  | zero => exact ⟨1, 0, Nat.le_refl 0, there, fun more le => run_mono (run_leave 0 there) le⟩
  | succ k ih =>
    obtain found | goesOn := goes s
    · exact ⟨1, 0, Nat.zero_le _, found, fun more le => run_mono (run_leave 0 found) le⟩
    · obtain ⟨fuel, j, le, found, runs⟩ := ih (s := next s) there
      refine ⟨fuel + 1, j + 1, Nat.succ_le_succ le, found, fun more enough => ?_⟩
      obtain ⟨more, rfl⟩ : ∃ m, more = m + 1 := ⟨more - 1, by omega⟩
      rw [run_next _ goesOn]
      exact runs more (by omega)

section Measure

variable (measure : σ → Nat) (dec : ∀ s s', body s = .inl s' → measure s' < measure s)

include dec in
theorem run_isSome {fuel : Nat} {s : σ} (enough : measure s < fuel) :
    (run body fuel s).isSome := by
  induction fuel generalizing s with
  | zero => omega
  | succ fuel ih =>
    cases next : body s with
    | inl s' =>
      rw [run_next _ next]
      have := dec s s' next
      exact ih (by omega)
    | inr r =>
      rw [run_leave _ next]
      rfl

/-- The result of a loop whose rounds bring `measure` down. -/
def result (s : σ) : ρ :=
  (run body (measure s + 1) s).get (run_isSome measure dec (Nat.lt_succ_self _))

theorem result_of_run {fuel : Nat} {s : σ} {r : ρ} (h : run body fuel s = some r) :
    result measure dec s = r := by
  have enough := run_isSome measure dec (Nat.lt_succ_self (measure s))
  have here : run body (measure s + 1) s = some (result measure dec s) :=
    (Option.some_get enough).symm
  rcases Nat.le_total fuel (measure s + 1) with le | le
  · exact Option.some.inj (here.symm.trans (run_mono h le))
  · exact Option.some.inj ((run_mono here le).symm.trans h)

theorem run_eq_result {fuel : Nat} {s : σ} (enough : measure s < fuel) :
    run body fuel s = some (result measure dec s) := by
  obtain ⟨r, h⟩ := Option.isSome_iff_exists.mp (run_isSome measure dec enough)
  rw [h, result_of_run measure dec h]

theorem result_eq (s : σ) : result measure dec s =
    match body s with
    | .inl s' => result measure dec s'
    | .inr r => r := by
  cases next : body s with
  | inl s' =>
    have h := run_isSome measure dec (Nat.lt_succ_self (measure s'))
    have run : run body (measure s' + 2) s = some (result measure dec s') := by
      rw [run_next _ next]
      exact (Option.some_get h).symm
    exact result_of_run measure dec run
  | inr r => exact result_of_run measure dec (run_leave 0 next)

end Measure

end Sistemas.Loop
