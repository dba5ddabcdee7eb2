import Mathlib.Data.Nat.Basic
import Mathlib.Data.Option.Basic

/-! # Trees of pages

A page has `fan` entries, some of which lead to a page one level deeper.  The entries of one depth
are numbered from left to right, and a page has the number of the entry that leads to it.

* `node` — the page with a number, at some depth.
* `lookup` — the entry with a number.
* `Apart` — no page is in the tree twice.
* `node_set`, `lookup_set` — an entry of the lowest pages is written.
* `node_graft`, `lookup_graft` — an empty page is put in where there was none.
-/

namespace Sistemas.Radix

variable {ι E : Type*}

section Definitions

variable (child : E → Option ι) (fan : Nat) (content : ι → Nat → E) (root : ι)

def node : Nat → Nat → Option ι
  | 0, n => if n = 0 then some root else none
  | d + 1, n => (node d (n / fan)).bind fun p => child (content p (n % fan))

def lookup (d n : Nat) : Option E :=
  (node child fan content root d (n / fan)).map fun p => content p (n % fan)

def Apart (depth : Nat) : Prop :=
  ∀ d n d' n' p, d ≤ depth → d' ≤ depth → node child fan content root d n = some p →
    node child fan content root d' n' = some p → d = d' ∧ n = n'

end Definitions

variable {child : E → Option ι} {fan : Nat} {content content' : ι → Nat → E} {root p q : ι}
  {d n v depth : Nat} {e : E}

theorem node_succ : node child fan content root (d + 1) n =
    (lookup child fan content root d n).bind child := by
  rw [node, lookup]
  cases node child fan content root d (n / fan) <;> rfl

theorem lookup_of_node (here : node child fan content root d (n / fan) = some p) :
    lookup child fan content root d n = some (content p (n % fan)) := by
  rw [lookup, here]
  rfl

/-- Only the pages above count. -/
theorem node_congr (pos : 0 < fan)
    (same : ∀ d' < d, ∀ m r, node child fan content root d' m = some r →
      ∀ i < fan, content' r i = content r i) :
    node child fan content' root d n = node child fan content root d n := by
  induction d generalizing n with
  | zero => rfl
  | succ d ih =>
    rw [node, node, ih fun d' lt => same d' (Nat.lt_succ_of_lt lt)]
    cases above : node child fan content root d (n / fan) with
    | none => rfl
    | some r =>
      show child _ = child _
      rw [same d (Nat.lt_succ_self d) _ r above _ (Nat.mod_lt _ pos)]

theorem lookup_congr (pos : 0 < fan)
    (same : ∀ d' ≤ d, ∀ m r, node child fan content root d' m = some r →
      ∀ i < fan, content' r i = content r i) :
    lookup child fan content' root d n = lookup child fan content root d n := by
  rw [lookup, lookup, node_congr pos fun d' lt => same d' (Nat.le_of_lt lt)]
  cases here : node child fan content root d (n / fan) with
  | none => rfl
  | some r =>
    rw [Option.map_some, Option.map_some, same d le_rfl _ r here _ (Nat.mod_lt _ pos)]

/-! ## Writing an entry -/

section Write

variable (pos : 0 < fan) (apart : Apart child fan content root depth)
  (here : node child fan content root depth (v / fan) = some p)
  (elsewhere : ∀ r, r ≠ p → ∀ i < fan, content' r i = content r i)

include pos apart here elsewhere

theorem node_set (le : d ≤ depth) :
    node child fan content' root d n = node child fan content root d n := by
  apply node_congr pos
  intro d' lt m r above
  apply elsewhere
  rintro rfl
  have := (apart d' m depth (v / fan) r (by omega) le_rfl above here).1
  omega

theorem lookup_above (lt : d < depth) :
    lookup child fan content' root d n = lookup child fan content root d n := by
  apply lookup_congr pos
  intro d' le m r above
  apply elsewhere
  rintro rfl
  have := (apart d' m depth (v / fan) r (by omega) le_rfl above here).1
  omega

theorem lookup_set (others : ∀ i < fan, i ≠ v % fan → content' p i = content p i)
    (new : content' p (v % fan) = e) (w : Nat) : lookup child fan content' root depth w =
      if w = v then some e else lookup child fan content root depth w := by
  rw [lookup, lookup, node_set pos apart here elsewhere le_rfl]
  by_cases same : w = v
  · rw [if_pos same, same, here, Option.map_some, new]
  rw [if_neg same]
  cases there : node child fan content root depth (w / fan) with
  | none => rfl
  | some r =>
    rw [Option.map_some, Option.map_some]
    by_cases samePage : r = p
    · subst samePage
      have number := (apart depth _ depth _ r le_rfl le_rfl there here).2
      rw [others _ (Nat.mod_lt _ pos)]
      intro index
      apply same
      rw [← Nat.div_add_mod w fan, ← Nat.div_add_mod v fan, number, index]
    · rw [elsewhere r samePage _ (Nat.mod_lt _ pos)]

end Write

/-! ## Putting in a page -/

section Graft

variable (pos : 0 < fan) (apart : Apart child fan content root depth) (lt : d < depth)
  (here : node child fan content root d (n / fan) = some p)
  (unset : child (content p (n % fan)) = none)
  (fresh : ∀ d ≤ depth, ∀ n, node child fan content root d n ≠ some q)
  (elsewhere : ∀ r, r ≠ p → r ≠ q → ∀ i < fan, content' r i = content r i)
  (others : ∀ i < fan, i ≠ n % fan → content' p i = content p i)
  (linked : child (content' p (n % fan)) = some q)
  (empty : ∀ i < fan, child (content' q i) = none)

include pos apart lt here unset fresh elsewhere others linked empty

theorem node_graft {d' : Nat} (le : d' ≤ depth) (n' : Nat) :
    node child fan content' root d' n' =
      if d' = d + 1 ∧ n' = n then some q else node child fan content root d' n' := by
  induction d' generalizing n' with
  | zero =>
    rw [if_neg fun both => by omega]
    rfl
  | succ d' ih =>
    rw [node, ih (by omega), node]
    by_cases below : d' = d + 1 ∧ n' / fan = n
    · -- the new page is empty, and nothing was below it before
      have nothing : node child fan content root d' (n' / fan) = none := by
        rw [below.1, below.2, node, here, Option.bind_some, unset]
      rw [if_pos below, Option.bind_some, empty _ (Nat.mod_lt _ pos), if_neg fun both => by omega,
        nothing]
      rfl
    rw [if_neg below]
    cases above : node child fan content root d' (n' / fan) with
    | none =>
      rw [if_neg]
      · rfl
      rintro ⟨depth_eq, rfl⟩
      obtain rfl : d' = d := by omega
      rw [here] at above
      cases above
    | some r =>
      rw [Option.bind_some, Option.bind_some]
      by_cases isP : r = p
      · subst isP
        obtain ⟨rfl, number⟩ := apart d' _ d _ r (by omega) (by omega) above here
        by_cases same : n' = n
        · rw [if_pos ⟨rfl, same⟩, same, linked]
        · rw [if_neg fun both => same both.2, others _ (Nat.mod_lt _ pos)]
          intro index
          apply same
          rw [← Nat.div_add_mod n' fan, ← Nat.div_add_mod n fan, number, index]
      · have isNotQ : r ≠ q := by
          rintro rfl
          exact fresh d' (by omega) _ above
        rw [if_neg, elsewhere r isP isNotQ _ (Nat.mod_lt _ pos)]
        rintro ⟨depth_eq, rfl⟩
        obtain rfl : d' = d := by omega
        rw [here] at above
        exact isP (Option.some.inj above).symm

theorem apart_graft : Apart child fan content' root depth := by
  intro d₁ n₁ d₂ n₂ r le₁ le₂ first second
  rw [node_graft pos apart lt here unset fresh elsewhere others linked empty le₁] at first
  rw [node_graft pos apart lt here unset fresh elsewhere others linked empty le₂] at second
  by_cases new₁ : d₁ = d + 1 ∧ n₁ = n <;> by_cases new₂ : d₂ = d + 1 ∧ n₂ = n
  · exact ⟨new₁.1.trans new₂.1.symm, new₁.2.trans new₂.2.symm⟩
  · rw [if_pos new₁] at first
    rw [if_neg new₂, ← first] at second
    exact absurd second (fresh d₂ le₂ n₂)
  · rw [if_pos new₂] at second
    rw [if_neg new₁, ← second] at first
    exact absurd first (fresh d₁ le₁ n₁)
  · rw [if_neg new₁] at first
    rw [if_neg new₂] at second
    exact apart d₁ n₁ d₂ n₂ r le₁ le₂ first second

/-- The entries that there were stay, but for the one that now leads to the page. -/
theorem lookup_graft {d' : Nat} (le : d' ≤ depth) (w : Nat) :
    lookup child fan content' root d' w =
      if d' = d + 1 ∧ w / fan = n then some (content' q (w % fan))
      else if d' = d ∧ w = n then some (content' p (n % fan))
      else lookup child fan content root d' w := by
  rw [lookup, node_graft pos apart lt here unset fresh elsewhere others linked empty le, lookup]
  by_cases below : d' = d + 1 ∧ w / fan = n
  · rw [if_pos below, if_pos below, Option.map_some]
  rw [if_neg below, if_neg below]
  by_cases entry : d' = d ∧ w = n
  · rw [if_pos entry, entry.1, entry.2, here, Option.map_some]
  rw [if_neg entry]
  cases there : node child fan content root d' (w / fan) with
  | none => rfl
  | some r =>
    rw [Option.map_some, Option.map_some]
    by_cases isP : r = p
    · subst isP
      obtain ⟨rfl, number⟩ := apart d' _ d _ r le (by omega) there here
      rw [others _ (Nat.mod_lt _ pos)]
      intro index
      apply entry
      refine ⟨rfl, ?_⟩
      rw [← Nat.div_add_mod w fan, ← Nat.div_add_mod n fan, number, index]
    · have isNotQ : r ≠ q := by
        rintro rfl
        exact fresh d' le _ there
      rw [elsewhere r isP isNotQ _ (Nat.mod_lt _ pos)]

end Graft

end Sistemas.Radix
