import Mathlib.Logic.Function.Basic
import Mathlib.Algebra.Notation.Defs

/-! # Exclusive ownership of blocks

Slots hold blocks; a slot that holds `0` is empty.  Some blocks are reserved.  `Exclusive`
says that no block is held twice, and that the blocks in use are those that are held and
those that are reserved.  `take` puts a block that is not in use into an empty slot, `drop`
empties a slot and gives its block back.  Each of them goes in two steps, between which the block
is reserved: `reserve` and `hand`, `giveUp` and `unreserve`.  `swap` changes the side from which
two owners are seen.

`Shared` says the same of owners that hold lists: `takeAll` gives a list of free blocks to an owner
that holds none, and `giveAll` takes it back.
-/

namespace Sistemas.Ownership

variable {σ β : Type*} [Zero β]

structure Exclusive (reserved used : β → Prop) (holds : σ → β) : Prop where
  once : ∀ s t, holds s ≠ 0 → holds s = holds t → s = t
  used_iff : ∀ b, used b ↔ reserved b ∨ ∃ s, holds s ≠ 0 ∧ holds s = b
  apart : ∀ s, holds s ≠ 0 → ¬ reserved (holds s)

namespace Exclusive

variable {reserved used : β → Prop} {holds : σ → β} {s t : σ} {b : β}

theorem used_of_holds (own : Exclusive reserved used holds) (held : holds s ≠ 0) :
    used (holds s) :=
  (own.used_iff _).mpr (.inr ⟨s, held, rfl⟩)

theorem congr {used' : β → Prop} {holds' : σ → β} (own : Exclusive reserved used holds)
    (sameUsed : ∀ b, used' b ↔ used b) (same : holds' = holds) :
    Exclusive reserved used' holds' := by
  subst same
  exact ⟨own.once, fun b => (sameUsed b).trans (own.used_iff b), own.apart⟩

theorem reserve (own : Exclusive reserved used holds) (fresh : ¬ used b) :
    Exclusive (fun c => reserved c ∨ c = b) (fun c => used c ∨ c = b) holds where
  once := own.once
  used_iff := by
    intro c
    rw [own.used_iff c]
    constructor
    · rintro ((isReserved | held) | eq)
      · exact .inl (.inl isReserved)
      · exact .inr held
      · exact .inl (.inr eq)
    · rintro ((isReserved | eq) | held)
      · exact .inl (.inl isReserved)
      · exact .inr eq
      · exact .inl (.inr held)
  apart := by
    intro s held isReserved
    cases isReserved with
    | inl isReserved => exact own.apart s held isReserved
    | inr eq => exact fresh (eq ▸ own.used_of_holds held)

theorem unreserve (own : Exclusive (fun c => reserved c ∨ c = b) used holds)
    (not : ¬ reserved b) : Exclusive reserved (fun c => used c ∧ c ≠ b) holds where
  once := own.once
  used_iff := by
    intro c
    rw [own.used_iff c]
    constructor
    · rintro ⟨(isReserved | eq) | held, ne⟩
      · exact .inl isReserved
      · exact absurd eq ne
      · exact .inr held
    · rintro (isReserved | ⟨s, held, eq⟩)
      · refine ⟨.inl (.inl isReserved), fun same => ?_⟩
        exact not (same ▸ isReserved)
      · refine ⟨.inr ⟨s, held, eq⟩, fun same => ?_⟩
        exact own.apart s held (.inr (eq.trans same))
  apart s held isReserved := own.apart s held (.inl isReserved)

variable [DecidableEq σ]

theorem hand (own : Exclusive (fun c => reserved c ∨ c = b) used holds) (not : ¬ reserved b)
    (empty : holds s = 0) (nonzero : b ≠ 0) :
    Exclusive reserved used (Function.update holds s b) where
  once := by
    intro t u held same
    have notHeld : ∀ v, v ≠ s → holds v ≠ b := by
      intro v _ eq
      exact own.apart v (eq ▸ nonzero) (.inr eq)
    by_cases left : t = s
    · by_cases right : u = s
      · rw [left, right]
      · rw [left, Function.update_self, Function.update_of_ne right] at same
        exact absurd same.symm (notHeld u right)
    · rw [Function.update_of_ne left] at held same
      by_cases right : u = s
      · rw [right, Function.update_self] at same
        exact absurd same (notHeld t left)
      · rw [Function.update_of_ne right] at same
        exact own.once t u held same
  used_iff := by
    intro c
    rw [own.used_iff c]
    constructor
    · rintro ((isReserved | eq) | ⟨t, held, eq⟩)
      · exact .inl isReserved
      · exact .inr ⟨s, by rwa [Function.update_self], by rw [Function.update_self, eq]⟩
      · have other : t ≠ s := by
          rintro rfl
          exact held empty
        exact .inr ⟨t, by rwa [Function.update_of_ne other], by rwa [Function.update_of_ne other]⟩
    · rintro (isReserved | ⟨t, held, eq⟩)
      · exact .inl (.inl isReserved)
      · by_cases here : t = s
        · rw [here, Function.update_self] at eq
          exact .inl (.inr eq.symm)
        · rw [Function.update_of_ne here] at held eq
          exact .inr ⟨t, held, eq⟩
  apart := by
    intro t held
    by_cases here : t = s
    · rw [here, Function.update_self]
      exact not
    · rw [Function.update_of_ne here] at held ⊢
      exact fun isReserved => own.apart t held (.inl isReserved)

theorem giveUp (own : Exclusive reserved used holds) (held : holds s ≠ 0) :
    Exclusive (fun c => reserved c ∨ c = holds s) used (Function.update holds s 0) where
  once := by
    intro t u notEmpty same
    have left : t ≠ s := by
      rintro rfl
      simp at notEmpty
    rw [Function.update_of_ne left] at notEmpty same
    have right : u ≠ s := by
      rintro rfl
      rw [Function.update_self] at same
      exact notEmpty same
    rw [Function.update_of_ne right] at same
    exact own.once t u notEmpty same
  used_iff := by
    intro c
    rw [own.used_iff c]
    constructor
    · rintro (isReserved | ⟨t, notEmpty, eq⟩)
      · exact .inl (.inl isReserved)
      · by_cases here : t = s
        · exact .inl (.inr (here ▸ eq.symm))
        · exact .inr ⟨t, by rwa [Function.update_of_ne here], by rwa [Function.update_of_ne here]⟩
    · rintro ((isReserved | eq) | ⟨t, notEmpty, eq⟩)
      · exact .inl isReserved
      · exact .inr ⟨s, held, eq.symm⟩
      · have other : t ≠ s := by
          rintro rfl
          simp at notEmpty
        rw [Function.update_of_ne other] at notEmpty eq
        exact .inr ⟨t, notEmpty, eq⟩
  apart := by
    intro t notEmpty
    have other : t ≠ s := by
      rintro rfl
      simp at notEmpty
    rw [Function.update_of_ne other] at notEmpty ⊢
    rintro (isReserved | same)
    · exact own.apart t notEmpty isReserved
    · exact other (own.once t s notEmpty same)

theorem take (own : Exclusive reserved used holds) (empty : holds s = 0) (nonzero : b ≠ 0)
    (fresh : ¬ used b) :
    Exclusive reserved (fun c => used c ∨ c = b) (Function.update holds s b) :=
  (own.reserve fresh).hand (fun isReserved => fresh ((own.used_iff b).mpr (.inl isReserved)))
    empty nonzero

theorem drop (own : Exclusive reserved used holds) (held : holds s ≠ 0) :
    Exclusive reserved (fun c => used c ∧ c ≠ holds s) (Function.update holds s 0) :=
  (own.giveUp held).unreserve (own.apart s held)

end Exclusive

/-! ## Lists of blocks -/

structure Shared {σ β : Type*} (all free : β → Prop) (holds : σ → List β) : Prop where
  nodup : ∀ s, (holds s).Nodup
  apart : ∀ s t b, b ∈ holds s → b ∈ holds t → s = t
  inside : ∀ s, ∀ b ∈ holds s, all b
  free_iff : ∀ b, free b ↔ all b ∧ ∀ s, b ∉ holds s

namespace Shared

variable {σ β : Type*} {all free free' : β → Prop} {holds holds' : σ → List β} {s : σ} {bs : List β}

theorem congr (shared : Shared all free holds) (sameFree : ∀ b, free' b ↔ free b)
    (same : ∀ s, holds' s = holds s) : Shared all free' holds' := by
  obtain rfl : holds' = holds := funext same
  exact ⟨shared.nodup, shared.apart, shared.inside, fun b => (sameFree b).trans (shared.free_iff b)⟩

variable [DecidableEq σ]

theorem takeAll (shared : Shared all free holds) (none : holds s = []) (nodup : bs.Nodup)
    (fresh : ∀ b ∈ bs, free b) :
    Shared all (fun b => free b ∧ b ∉ bs) (Function.update holds s bs) where
  nodup t := by
    by_cases here : t = s
    · rw [here, Function.update_self]
      exact nodup
    · rw [Function.update_of_ne here]
      exact shared.nodup t
  apart t u b left right := by
    have notHeld : ∀ v, b ∈ bs → b ∉ holds v := fun v mem =>
      ((shared.free_iff b).mp (fresh b mem)).2 v
    by_cases leftHere : t = s <;> by_cases rightHere : u = s
    · rw [leftHere, rightHere]
    · rw [leftHere, Function.update_self] at left
      rw [Function.update_of_ne rightHere] at right
      exact absurd right (notHeld u left)
    · rw [rightHere, Function.update_self] at right
      rw [Function.update_of_ne leftHere] at left
      exact absurd left (notHeld t right)
    · rw [Function.update_of_ne leftHere] at left
      rw [Function.update_of_ne rightHere] at right
      exact shared.apart t u b left right
  inside t b mem := by
    by_cases here : t = s
    · rw [here, Function.update_self] at mem
      exact ((shared.free_iff b).mp (fresh b mem)).1
    · rw [Function.update_of_ne here] at mem
      exact shared.inside t b mem
  free_iff b := by
    rw [shared.free_iff b]
    constructor
    · rintro ⟨⟨inAll, notHeld⟩, notNew⟩
      refine ⟨inAll, fun t => ?_⟩
      by_cases here : t = s
      · rwa [here, Function.update_self]
      · rw [Function.update_of_ne here]
        exact notHeld t
    · rintro ⟨inAll, notHeld⟩
      have notNew := notHeld s
      rw [Function.update_self] at notNew
      refine ⟨⟨inAll, fun t => ?_⟩, notNew⟩
      by_cases here : t = s
      · rw [here, none]
        exact List.not_mem_nil
      · have other := notHeld t
        rwa [Function.update_of_ne here] at other

theorem giveAll (shared : Shared all free holds) (s : σ) :
    Shared all (fun b => free b ∨ b ∈ holds s) (Function.update holds s []) where
  nodup t := by
    by_cases here : t = s
    · rw [here, Function.update_self]
      exact List.nodup_nil
    · rw [Function.update_of_ne here]
      exact shared.nodup t
  apart t u b left right := by
    by_cases leftHere : t = s
    · simp [leftHere] at left
    by_cases rightHere : u = s
    · simp [rightHere] at right
    rw [Function.update_of_ne leftHere] at left
    rw [Function.update_of_ne rightHere] at right
    exact shared.apart t u b left right
  inside t b mem := by
    by_cases here : t = s
    · simp [here] at mem
    · rw [Function.update_of_ne here] at mem
      exact shared.inside t b mem
  free_iff b := by
    rw [shared.free_iff b]
    constructor
    · rintro (⟨inAll, notHeld⟩ | mem)
      · refine ⟨inAll, fun t => ?_⟩
        by_cases here : t = s
        · simp [here]
        · rw [Function.update_of_ne here]
          exact notHeld t
      · refine ⟨shared.inside s b mem, fun t held => ?_⟩
        by_cases here : t = s
        · simp [here] at held
        · rw [Function.update_of_ne here] at held
          exact here (shared.apart t s b held mem)
    · rintro ⟨inAll, notHeld⟩
      by_cases mem : b ∈ holds s
      · exact .inr mem
      · refine .inl ⟨inAll, fun t => ?_⟩
        by_cases here : t = s
        · rwa [here]
        · have other := notHeld t
          rwa [Function.update_of_ne here] at other

end Shared

end Sistemas.Ownership
