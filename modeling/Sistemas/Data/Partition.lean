import Mathlib.Data.Set.Card.Arithmetic
import Mathlib.Logic.Function.Basic

/-! # A pool and its owners

Every item is in the pool, or one owner has it.  A step moves items between the pool and one owner
(`Partition.move`), and the items are counted owner by owner (`Partition.ncard`).
-/

namespace Sistemas

structure Partition {ι β : Type*} (all pool : β → Prop) (owns : ι → β → Prop) : Prop where
  all_iff : ∀ b, all b ↔ pool b ∨ ∃ i, owns i b
  apart : ∀ i b, owns i b → ¬ pool b
  once : ∀ i j b, owns i b → owns j b → i = j

namespace Partition

variable {ι β : Type*} {all pool pool' : β → Prop} {owns owns' : ι → β → Prop} {i j : ι} {b : β}

theorem of_pool (part : Partition all pool owns) (free : pool b) : all b :=
  (part.all_iff b).mpr (.inl free)

theorem of_owner (part : Partition all pool owns) (mine : owns i b) : all b :=
  (part.all_iff b).mpr (.inr ⟨i, mine⟩)

/-- What the step of one owner does not touch. -/
theorem untouched (part : Partition all pool owns) (ne : j ≠ i) (theirs : owns j b) :
    ¬ pool b ∧ ¬ owns i b :=
  ⟨part.apart j b theirs, fun mine => ne (part.once j i b theirs mine)⟩

theorem move (part : Partition all pool owns)
    (others : ∀ j, j ≠ i → ∀ b, owns' j b ↔ owns j b)
    (total : ∀ b, pool' b ∨ owns' i b ↔ pool b ∨ owns i b)
    (apart : ∀ b, owns' i b → ¬ pool' b) : Partition all pool' owns' where
  all_iff b := by
    rw [part.all_iff b]
    constructor
    · rintro (free | ⟨j, mine⟩)
      · exact ((total b).mpr (.inl free)).imp_right fun mine => ⟨i, mine⟩
      · by_cases same : j = i
        · subst same
          exact ((total b).mpr (.inr mine)).imp_right fun mine => ⟨j, mine⟩
        · exact .inr ⟨j, (others j same b).mpr mine⟩
    · rintro (free | ⟨j, mine⟩)
      · exact ((total b).mp (.inl free)).imp_right fun mine => ⟨i, mine⟩
      · by_cases same : j = i
        · subst same
          exact ((total b).mp (.inr mine)).imp_right fun mine => ⟨j, mine⟩
        · exact .inr ⟨j, (others j same b).mp mine⟩
  apart j b mine free := by
    by_cases same : j = i
    · subst same
      exact apart b mine free
    · have theirs := (others j same b).mp mine
      obtain ⟨notFree, notMine⟩ := part.untouched same theirs
      exact ((total b).mp (.inl free)).elim notFree notMine
  once j k b mine mine' := by
    have clash : ∀ {j}, j ≠ i → owns' j b → ¬ owns' i b := by
      intro j ne theirs mine
      obtain ⟨notFree, notMine⟩ := part.untouched ne ((others j ne b).mp theirs)
      exact ((total b).mp (.inr mine)).elim notFree notMine
    by_cases first : j = i
    · by_cases second : k = i
      · rw [first, second]
      · exact absurd (first ▸ mine) (clash second mine')
    · by_cases second : k = i
      · exact absurd (second ▸ mine') (clash first mine)
      · exact part.once j k b ((others j first b).mp mine) ((others k second b).mp mine')

theorem congr (part : Partition all pool owns) (same : ∀ i b, owns' i b ↔ owns i b)
    (samePool : ∀ b, pool' b ↔ pool b) : Partition all pool' owns' where
  all_iff b := by
    rw [part.all_iff b, samePool]
    exact or_congr_right (exists_congr fun i => (same i b).symm)
  apart i b mine free := part.apart i b ((same i b).mp mine) ((samePool b).mp free)
  once i j b mine mine' := part.once i j b ((same i b).mp mine) ((same j b).mp mine')

theorem pool_iff (part : Partition all pool owns) : pool b ↔ all b ∧ ∀ i, ¬ owns i b := by
  constructor
  · exact fun free => ⟨part.of_pool free, fun i mine => part.apart i b mine free⟩
  · rintro ⟨item, nobody⟩
    exact ((part.all_iff b).mp item).resolve_right (not_exists.mpr nobody)

/-- All items, and those of each owner. -/
theorem ncard [Fintype ι] (part : Partition all pool owns) (finite : {b | all b}.Finite) :
    {b | all b}.ncard = {b | pool b}.ncard + ∑ i, {b | owns i b}.ncard := by
  have split : {b | all b} = {b | pool b} ∪ ⋃ i, {b | owns i b} := by
    ext b
    rw [Set.mem_union, Set.mem_iUnion]
    exact part.all_iff b
  have owned : ∀ i, {b | owns i b}.Finite := fun i => finite.subset fun b mine => part.of_owner mine
  have disjoint : Disjoint {b | pool b} (⋃ i, {b | owns i b}) := by
    rw [Set.disjoint_iUnion_right]
    exact fun i => Set.disjoint_left.mpr fun b free mine => part.apart i b mine free
  have pairwise : Pairwise (Function.onFun Disjoint fun i => {b | owns i b}) := fun i j ne =>
    Set.disjoint_left.mpr fun b mine theirs => ne (part.once i j b mine theirs)
  rw [split, Set.ncard_union_eq disjoint (finite.subset fun b free => part.of_pool free)
    (Set.finite_iUnion owned), Set.ncard_iUnion_of_finite owned pairwise, finsum_eq_sum_of_fintype]

end Partition

end Sistemas
