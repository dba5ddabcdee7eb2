import Mathlib.Data.List.Perm.Basic
import Mathlib.Logic.Function.Basic

/-! # Test-and-set locks

`lock l` is the owner a lock stores and `held c` the list of what `c` holds according to the
code it is in.  The two agree (`Locked`), which is what makes a lock exclusive; they still agree
after an owner takes a free lock, gives one up, or moves on with the same locks.
-/

namespace Sistemas

variable {κ ω : Type*}

structure Locked (lock : κ → Option ω) (held : ω → List κ) : Prop where
  owner_iff : ∀ l c, lock l = some c ↔ l ∈ held c
  nodup : ∀ c, (held c).Nodup

namespace Locked

variable {lock : κ → Option ω} {held held' : ω → List κ} {c d : ω} {l : κ}

theorem exclusive (locked : Locked lock held) (left : l ∈ held c) (right : l ∈ held d) : c = d := by
  have stored := (locked.owner_iff l c).mpr left
  rw [(locked.owner_iff l d).mpr right] at stored
  exact (Option.some.inj stored).symm

theorem keep (locked : Locked lock held) (same : ∀ d, held' d = held d) : Locked lock held' := by
  obtain rfl : held' = held := funext same
  exact locked

variable [DecidableEq κ]

theorem acquire (locked : Locked lock held) (free : lock l = none)
    (other : ∀ d, d ≠ c → held' d = held d) (here : held' c = l :: held c) :
    Locked (Function.update lock l (some c)) held' := by
  have unheld : ∀ d, l ∉ held d := fun d mem => by
    rw [(locked.owner_iff l d).mpr mem] at free
    cases free
  constructor
  · intro k d
    by_cases taken : k = l
    · subst taken
      by_cases same : d = c
      · subst same
        simp [here]
      · simp [other d same, unheld d, Ne.symm same]
    · rw [Function.update_of_ne taken, locked.owner_iff k d]
      by_cases same : d = c
      · subst same
        simp [here, taken]
      · rw [other d same]
  · intro d
    by_cases same : d = c
    · subst same
      rw [here, List.nodup_cons]
      exact ⟨unheld d, locked.nodup d⟩
    · rw [other d same]
      exact locked.nodup d

theorem release (locked : Locked lock held) (other : ∀ d, d ≠ c → held' d = held d)
    (here : (held c).Perm (l :: held' c)) : Locked (Function.update lock l none) held' := by
  have distinct := here.nodup_iff.mp (locked.nodup c)
  rw [List.nodup_cons] at distinct
  have mem : l ∈ held c := here.mem_iff.mpr List.mem_cons_self
  constructor
  · intro k d
    by_cases given : k = l
    · subst given
      simp only [Function.update_self, reduceCtorEq, false_iff]
      by_cases same : d = c
      · subst same
        exact distinct.1
      · rw [other d same]
        exact fun also => same (locked.exclusive also mem)
    · rw [Function.update_of_ne given, locked.owner_iff k d]
      by_cases same : d = c
      · subst same
        simp [here.mem_iff, given]
      · rw [other d same]
  · intro d
    by_cases same : d = c
    · subst same
      exact distinct.2
    · rw [other d same]
      exact locked.nodup d

end Locked

end Sistemas
