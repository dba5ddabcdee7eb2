import Mathlib.Algebra.BigOperators.Group.Finset.Piecewise

/-! # Sequences that several parties put together

Each event has a party (`who`) and adds a part to a common sequence.

* `joined` — the parts in the order of the events.
* `own` — the parts of one party alone.

The common sequence is an interleaving of the sequences of the parties, and together they are
all of it (`length_joined`).
-/

namespace Sistemas

variable {ε ι α : Type*} (who : ε → ι) (part : ε → List α)

def joined (events : List ε) : List α := events.flatMap part

@[simp] theorem joined_nil : joined part [] = [] := rfl

@[simp] theorem joined_append (events events' : List ε) :
    joined part (events ++ events') = joined part events ++ joined part events' :=
  List.flatMap_append

@[simp] theorem joined_singleton (e : ε) : joined part [e] = part e := by
  simp [joined]

variable [DecidableEq ι]

def own (i : ι) (events : List ε) : List α := (events.filter fun e => who e = i).flatMap part

@[simp] theorem own_nil (i : ι) : own who part i [] = [] := rfl

@[simp] theorem own_append (i : ι) (events events' : List ε) :
    own who part i (events ++ events') = own who part i events ++ own who part i events' := by
  simp [own]

theorem own_singleton (i : ι) (e : ε) :
    own who part i [e] = if who e = i then part e else [] := by
  unfold own
  split <;> simp_all

theorem own_singleton_self {i : ι} {e : ε} (mine : who e = i) : own who part i [e] = part e := by
  rw [own_singleton, if_pos mine]

theorem own_singleton_other {i : ι} {e : ε} (other : who e ≠ i) : own who part i [e] = [] := by
  rw [own_singleton, if_neg other]

theorem length_joined [Fintype ι] (events : List ε) :
    (joined part events).length = ∑ i, (own who part i events).length := by
  induction events with
  | nil => simp
  | cons e events ih =>
    have first : ∀ i, (own who part i (e :: events)).length =
        (if who e = i then (part e).length else 0) + (own who part i events).length := by
      intro i
      have split := own_append who part i [e] events
      rw [List.singleton_append] at split
      rw [split, List.length_append, own_singleton]
      split <;> rfl
    have whole := joined_append part [e] events
    rw [List.singleton_append] at whole
    rw [whole, List.length_append, joined_singleton, ih]
    simp only [first, Finset.sum_add_distrib, Finset.sum_ite_eq, Finset.mem_univ, if_true]

end Sistemas
