import Mathlib.Init

/-! # How fallible code ends

`Ends bad m post` says that `m` gives a result with `post`, or an error of those that `bad`
allows.  The rules take a computation apart at its binds.
-/

namespace Sistemas

universe u v

variable {ε : Type u} {α β : Type v} {bad : ε → Prop}

def Ends (bad : ε → Prop) (m : Except ε α) (post : α → Prop) : Prop :=
  match m with
  | .ok a => post a
  | .error e => bad e

@[simp] theorem ends_ok {a : α} {post : α → Prop} : Ends bad (.ok a) post ↔ post a := .rfl

@[simp] theorem ends_error {e : ε} {post : α → Prop} : Ends bad (.error e) post ↔ bad e := .rfl

theorem Ends.bind {m : Except ε α} {f : α → Except ε β} {mid : α → Prop} {post : β → Prop}
    (first : Ends bad m mid) (second : ∀ a, mid a → Ends bad (f a) post) :
    Ends bad (m >>= f) post := by
  cases m with
  | ok a => exact second a first
  | error e => exact first

theorem Ends.imp {m : Except ε α} {post weaker : α → Prop} (ends : Ends bad m post)
    (imp : ∀ a, post a → weaker a) : Ends bad m weaker := by
  cases m with
  | ok a => exact imp a ends
  | error e => exact ends

/-- A computation that gives a result did so at each of its binds. -/
theorem bind_eq_ok {m : Except ε α} {f : α → Except ε β} {b : β} :
    m >>= f = .ok b ↔ ∃ a, m = .ok a ∧ f a = .ok b := by
  cases m with
  | ok a =>
    constructor
    · exact fun ran => ⟨a, rfl, ran⟩
    · rintro ⟨_, same, ran⟩
      cases same
      exact ran
  | error e =>
    constructor
    · intro ran
      cases ran
    · rintro ⟨_, stopped, -⟩
      cases stopped

theorem eq_ok_of_toOption {m : Except ε α} {a : α} (found : m.toOption = some a) : m = .ok a := by
  cases m with
  | ok b => exact congrArg Except.ok (Option.some.inj found)
  | error e => cases found

end Sistemas
