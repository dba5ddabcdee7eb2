import Mathlib.Data.List.Nodup
import Sistemas.Xv6.UvmGrow

/-! # Freeing a page table

`freewalk` goes through the table from the root and gives back each page after those below it.
`Sub` lists the pages of a part of the table in that order.
-/

namespace Sistemas.Xv6.Uvm

open Vm

variable {kend root f g n d level : Nat} {fs ps : List Nat} {m m' : Mem} {M : Map}

/-- The part of a table that begins at page `f`, with `level` levels below, consists of the
pages `ps`, and no entry is a leaf. -/
def Sub (m : Mem) : Nat → Nat → List Nat → Prop
  | 0, f, ps => (∀ i < 512, valid (entries m.bytes f i) = false) ∧ ps = [f]
  | level + 1, f, ps => ∃ below : Nat → List Nat,
    (∀ i < 512, (valid (entries m.bytes f i) = false ∧ below i = []) ∨
      (valid (entries m.bytes f i) = true ∧ isLeaf (entries m.bytes f i) = false ∧
        pte2pa (entries m.bytes f i) = pteFrame (entries m.bytes f i) * pgsize ∧
        Sub m level (pteFrame (entries m.bytes f i)) (below i))) ∧
    ps = (List.range' 0 512).flatMap below ++ [f]

theorem Sub.mem_self (sub : Sub m level f ps) : f ∈ ps := by
  cases level with
  | zero =>
    rw [sub.2]
    exact List.mem_singleton_self f
  | succ level =>
    obtain ⟨below, -, rfl⟩ := sub
    exact List.mem_append_right _ (List.mem_singleton_self f)

theorem Sub.congr (sub : Sub m level f ps) (keeps : m.bytes.Keeps pgsize (· ∈ ps) m'.bytes) :
    Sub m' level f ps := by
  induction level generalizing f ps with
  | zero =>
    refine ⟨fun i lt => ?_, sub.2⟩
    rw [keeps_entries keeps sub.mem_self lt]
    exact sub.1 i lt
  | succ level ih =>
    have here : ∀ i < 512, entries m'.bytes f i = entries m.bytes f i :=
      fun i lt => keeps_entries keeps sub.mem_self lt
    obtain ⟨below, children, rfl⟩ := sub
    refine ⟨below, fun i lt => ?_, rfl⟩
    rw [here i lt]
    cases children i lt with
    | inl none => exact .inl none
    | inr child =>
      obtain ⟨isValid, inner, pa, sub⟩ := child
      refine .inr ⟨isValid, inner, pa, ih sub (keeps.mono fun g mem => ?_)⟩
      apply List.mem_append_left
      exact List.mem_flatMap.mpr ⟨i, List.mem_range'_1.mpr ⟨Nat.zero_le i, by omega⟩, mem⟩

/-- The pages that are given back. -/
structure Freed (kend : Nat) (m m' : Mem) (ps fs : List Nat) : Prop where
  free : FreeList kend m' (ps.reverse ++ fs)
  keeps : m.bytes.Keeps pgsize (fun g => g ∉ ps) m'.bytes

/-- Pages that may be given back. -/
structure Loose (kend : Nat) (ps fs : List Nat) : Prop where
  nodup : ps.Nodup
  inRam : ∀ p ∈ ps, InRam kend p
  notFree : ∀ p ∈ ps, p ∉ fs

theorem load_entries {i : Nat} : m.load (f * pgsize + 8 * i) = entries m.bytes f i := rfl

/-- The entries from `i` on, where `Below` is what is known of the parts that they lead to. -/
theorem freeLoop_spec {walkChild : Nat → Mem → Except Panic Mem} {below : Nat → List Nat}
    {i : Nat} {Below : Mem → Nat → List Nat → Prop}
    (congr : ∀ m m' g ps, Below m g ps → m.bytes.Keeps pgsize (· ∈ ps) m'.bytes → Below m' g ps)
    (child : ∀ m g ps fs, Below m g ps → FreeList kend m fs → Loose kend ps fs →
      ∃ m', walkChild (g * pgsize) m = .ok m' ∧ Freed kend m m' ps fs)
    (children : ∀ j, i ≤ j → j < i + n → (valid (entries m.bytes f j) = false ∧ below j = []) ∨
      (valid (entries m.bytes f j) = true ∧ isLeaf (entries m.bytes f j) = false ∧
        pte2pa (entries m.bytes f j) = pteFrame (entries m.bytes f j) * pgsize ∧
        Below m (pteFrame (entries m.bytes f j)) (below j)))
    (within : i + n ≤ 512) (free : FreeList kend m fs)
    (loose : Loose kend ((List.range' i n).flatMap below ++ [f]) fs) :
    ∃ m', freeLoop walkChild (f * pgsize) n i m = .ok m' ∧
      FreeList kend m' (((List.range' i n).flatMap below).reverse ++ fs) ∧
      m.bytes.Keeps pgsize (fun g => g ∉ (List.range' i n).flatMap below ∧ g ≠ f) m'.bytes := by
  induction n generalizing i m fs with
  | zero => exact ⟨m, rfl, free, .refl _ _ _⟩
  | succ n ih =>
    have split : (List.range' i (n + 1)).flatMap below =
        below i ++ (List.range' (i + 1) n).flatMap below := by
      rw [List.range'_succ, List.flatMap_cons]
    rw [split] at loose ⊢
    rw [freeLoop, load_entries]
    cases children i le_rfl (by omega) with
    | inl none =>
      obtain ⟨isValid, empty⟩ := none
      rw [empty, List.nil_append] at loose ⊢
      rw [isValid, if_neg (fun both => Bool.false_ne_true both.1), if_neg Bool.false_ne_true]
      exact ih (fun j ge lt => children j (by omega) (by omega)) (by omega) free loose
    | inr here =>
      obtain ⟨isValid, inner, pa, sub⟩ := here
      have nodup := loose.nodup
      rw [List.append_assoc] at nodup
      have apart := List.disjoint_of_nodup_append nodup
      have first : Loose kend (below i) fs := by
        refine ⟨nodup.of_append_left, fun p mem => loose.inRam p ?_, fun p mem => loose.notFree p ?_⟩
        · rw [List.append_assoc]
          exact List.mem_append_left _ mem
        · rw [List.append_assoc]
          exact List.mem_append_left _ mem
      obtain ⟨m₁, walked, freed⟩ := child m _ _ fs sub free first
      have notF : f ∉ below i := fun mem => apart mem (by simp)
      generalize stored : m₁.store (f * pgsize + 8 * i) 0 = m₂
      have wrote : m₁.bytes.Keeps pgsize (· ≠ f) m₂.bytes :=
        stored ▸ keeps_store_word m₁ (by omega) 0
      have fNotFree : f ∉ (below i).reverse ++ fs := by
        rw [List.mem_append, List.mem_reverse, not_or]
        exact ⟨notF, loose.notFree f (by simp)⟩
      have free₂ : FreeList kend m₂ ((below i).reverse ++ fs) :=
        freed.free.write fNotFree (stored ▸ rfl) wrote
      have others : ∀ j, i + 1 ≤ j → j < i + 1 + n → entries m₂.bytes f j = entries m.bytes f j := by
        intro j ge lt
        rw [← stored, entries_store _ _ _ (by decide), if_neg (by omega)]
        exact keeps_entries freed.keeps notF (by omega)
      have rest : Loose kend ((List.range' (i + 1) n).flatMap below ++ [f])
          ((below i).reverse ++ fs) := by
        refine ⟨nodup.of_append_right, fun p mem => loose.inRam p ?_, fun p mem => ?_⟩
        · rw [List.append_assoc]
          exact List.mem_append_right _ mem
        · rw [List.mem_append, List.mem_reverse, not_or]
          refine ⟨fun mem' => apart mem' mem, loose.notFree p ?_⟩
          rw [List.append_assoc]
          exact List.mem_append_right _ mem
      have kept : ∀ j, i + 1 ≤ j → j < i + 1 + n →
          m.bytes.Keeps pgsize (· ∈ below j) m₂.bytes := by
        intro j ge lt
        have inRest : ∀ g ∈ below j, g ∈ (List.range' (i + 1) n).flatMap below :=
          fun g mem => List.mem_flatMap.mpr ⟨j, List.mem_range'_1.mpr ⟨ge, lt⟩, mem⟩
        refine (freed.keeps.mono ?_).trans (wrote.mono ?_)
        · exact fun g mem mem' => apart mem' (List.mem_append_left _ (inRest g mem))
        · rintro g mem rfl
          exact List.disjoint_of_nodup_append nodup.of_append_right (inRest g mem) (by simp)
      have next : ∀ j, i + 1 ≤ j → j < i + 1 + n →
          (valid (entries m₂.bytes f j) = false ∧ below j = []) ∨
            (valid (entries m₂.bytes f j) = true ∧ isLeaf (entries m₂.bytes f j) = false ∧
              pte2pa (entries m₂.bytes f j) = pteFrame (entries m₂.bytes f j) * pgsize ∧
              Below m₂ (pteFrame (entries m₂.bytes f j)) (below j)) := by
        intro j ge lt
        rw [others j ge lt]
        refine (children j (by omega) (by omega)).imp_right fun here => ?_
        obtain ⟨isValid, inner, pa, sub⟩ := here
        exact ⟨isValid, inner, pa, congr _ _ _ _ sub (kept j ge lt)⟩
      obtain ⟨m', ran, free', keeps⟩ := ih next (by omega) free₂ rest
      refine ⟨m', ?_, ?_, ?_⟩
      · rw [isValid, inner, if_pos ⟨rfl, rfl⟩, pa, walked]
        dsimp only [bind, Except.bind]
        rw [stored, ran]
      · rwa [List.reverse_append, List.append_assoc]
      · refine (freed.keeps.mono ?_).trans ((wrote.mono ?_).trans (keeps.mono ?_))
        · exact fun g out mem => out.1 (List.mem_append_left _ mem)
        · exact fun g out => out.2
        · exact fun g out => ⟨fun mem => out.1 (List.mem_append_right _ mem), out.2⟩

/-- The root of the part is given back last. -/
theorem freewalk_last {depth : Nat} {below : List Nat} {m₁ : Mem}
    (ran : freeLoop (freewalk kend depth) (f * pgsize) 512 0 m = .ok m₁)
    (free : FreeList kend m₁ (below.reverse ++ fs))
    (keeps : m.bytes.Keeps pgsize (fun g => g ∉ below ∧ g ≠ f) m₁.bytes)
    (loose : Loose kend (below ++ [f]) fs) :
    ∃ m', freewalk kend (depth + 1) (f * pgsize) m = .ok m' ∧
      Freed kend m m' (below ++ [f]) fs := by
  have new : f ∉ below.reverse ++ fs := by
    rw [List.mem_append, List.mem_reverse, not_or]
    refine ⟨fun mem => ?_, loose.notFree f (by simp)⟩
    exact List.disjoint_of_nodup_append loose.nodup mem (List.mem_singleton_self f)
  obtain ⟨m', freed, free', keeps'⟩ := kfree_ok free (loose.inRam f (by simp)) new
  refine ⟨m', ?_, ⟨?_, ?_⟩⟩
  · rw [freewalk, ran]
    dsimp only [bind, Except.bind]
    rw [freed]
    rfl
  · rwa [List.reverse_append, List.reverse_singleton, List.singleton_append, List.cons_append]
  · refine (keeps.mono fun g out => ?_).trans (keeps'.mono fun g out => ?_)
    · rw [List.mem_append, List.mem_singleton, not_or] at out
      exact out
    · rintro rfl
      exact out (by simp)

/-- All pages of the part are given back. -/
theorem freewalk_spec {depth : Nat} (sub : Sub m level f ps) (deep : level < depth)
    (free : FreeList kend m fs) (loose : Loose kend ps fs) :
    ∃ m', freewalk kend depth (f * pgsize) m = .ok m' ∧ Freed kend m m' ps fs := by
  induction level generalizing depth f m ps fs with
  | zero =>
    obtain ⟨depth, rfl⟩ : ∃ d, depth = d + 1 := ⟨depth - 1, by omega⟩
    obtain ⟨none, rfl⟩ := sub
    have empty : (List.range' 0 512).flatMap (fun _ => ([] : List Nat)) = [] := by simp
    obtain ⟨m₁, ran, free₁, keeps⟩ := @freeLoop_spec kend f 512 fs m (freewalk kend depth)
      (fun _ => []) 0 (fun _ _ _ => False) (fun _ _ _ _ no _ => no) (fun _ _ _ _ no => no.elim)
      (fun j _ lt => .inl ⟨none j (by omega), rfl⟩) le_rfl free (by rwa [empty])
    rw [empty] at free₁ keeps
    exact freewalk_last ran free₁ keeps loose
  | succ level ih =>
    obtain ⟨depth, rfl⟩ : ∃ d, depth = d + 1 := ⟨depth - 1, by omega⟩
    obtain ⟨below, children, rfl⟩ := sub
    obtain ⟨m₁, ran, free₁, keeps⟩ := @freeLoop_spec kend f 512 fs m (freewalk kend depth)
      below 0 (fun m g ps => Sub m level g ps) (fun _ _ _ _ sub keeps => sub.congr keeps)
      (fun m g ps fs sub free loose => ih sub (by omega) free loose)
      (fun j _ lt => children j (by omega)) le_rfl free loose
    exact freewalk_last ran free₁ keeps loose

/-! ## The whole table -/

/-- A page at or below the one with number `n` at depth `d`. -/
def Below (m : Mem) (root d n g : Nat) : Prop :=
  ∃ k n', d + k ≤ 2 ∧ n' / 512 ^ k = n ∧ tableAt m root (d + k) n' = some g

theorem below_iff {here : tableAt m root d n = some f} (lt : d < 2) :
    Below m root d n g ↔ g = f ∨ ∃ i < 512, Below m root (d + 1) (n * 512 + i) g := by
  constructor
  · rintro ⟨k, n', le, rfl, there⟩
    cases k with
    | zero =>
      rw [Nat.pow_zero, Nat.div_one] at here
      rw [Nat.add_zero, here] at there
      exact .inl (Option.some.inj there).symm
    | succ k =>
      refine .inr ⟨n' / 512 ^ k % 512, Nat.mod_lt _ (by decide), k, n', by omega, ?_, ?_⟩
      · rw [Nat.pow_succ, ← Nat.div_div_eq_div_mul, Nat.mul_comm, Nat.div_add_mod]
      · rwa [Nat.add_assoc, Nat.add_comm 1]
  · rintro (rfl | ⟨i, small, k, n', le, eq, there⟩)
    · exact ⟨0, n, by omega, Nat.div_one n, here⟩
    · refine ⟨k + 1, n', by omega, ?_, ?_⟩
      · rw [Nat.pow_succ, ← Nat.div_div_eq_div_mul, eq]
        omega
      · rwa [Nat.add_assoc, Nat.add_comm 1] at there

theorem not_below (missing : tableAt m root d n = none) : ¬ Below m root d n g := by
  rintro ⟨k, n', -, rfl, there⟩
  induction k generalizing n' g with
  | zero =>
    rw [Nat.pow_zero, Nat.div_one] at missing
    rw [Nat.add_zero, missing] at there
    cases there
  | succ k ih =>
    rw [← Nat.add_assoc, tableAt, Radix.node] at there
    obtain ⟨p, above, -⟩ := Option.bind_eq_some_iff.mp there
    rw [Nat.pow_succ, Nat.mul_comm, ← Nat.div_div_eq_div_mul] at missing
    exact ih _ above missing

theorem not_leaf {pte : Nat} (flags : pteFlags pte = pteV) : isLeaf pte = false := by
  have bit : ∀ k < 10, pte.testBit k = pteV.testBit k := fun k lt => by
    rw [← flags, flags_testBit lt]
  rw [isLeaf, bit 1 (by decide), bit 2 (by decide), bit 3 (by decide)]
  rfl

/-- A table without leaves, from page `n` at depth `d` on. -/
theorem sub_of_tree (tree : Tree kend m root fs) (none : ∀ v, valid (pteOf m root v) = false)
    (sum : level + d = 2) (here : tableAt m root d n = some f) :
    ∃ ps, Sub m level f ps ∧ ps.Nodup ∧ ∀ g, g ∈ ps ↔ Below m root d n g := by
  induction level generalizing d n f with
  | zero =>
    obtain rfl : d = 2 := by omega
    refine ⟨[f], ⟨fun i lt => ?_, rfl⟩, List.nodup_singleton f, fun g => ?_⟩
    · have number : (n * 512 + i) / 512 = n := by omega
      have pte := @load_pte root f (n * 512 + i) m (by rwa [number])
      rw [show (n * 512 + i) % 512 = i by omega] at pte
      have unset := none (n * 512 + i)
      rwa [← pte] at unset
    · rw [List.mem_singleton]
      constructor
      · rintro rfl
        exact ⟨0, n, le_rfl, Nat.div_one n, here⟩
      · rintro ⟨k, n', le, eq, there⟩
        obtain rfl : k = 0 := by omega
        rw [Nat.pow_zero, Nat.div_one] at eq
        rw [Nat.add_zero, eq, here] at there
        exact (Option.some.inj there).symm
  | succ level ih =>
    have entry : ∀ i < 512, entryAt m root d (n * 512 + i) = some (entries m.bytes f i) := by
      intro i lt
      have number : (n * 512 + i) / 512 = n := by omega
      have found : entryAt m root d (n * 512 + i) =
          some (entries m.bytes f ((n * 512 + i) % 512)) :=
        Radix.lookup_of_node (by rw [number]; exact here)
      rwa [show (n * 512 + i) % 512 = i by omega] at found
    have parts : ∀ i < 512, ∃ ps, ((valid (entries m.bytes f i) = false ∧ ps = []) ∨
        (valid (entries m.bytes f i) = true ∧ isLeaf (entries m.bytes f i) = false ∧
          pte2pa (entries m.bytes f i) = pteFrame (entries m.bytes f i) * pgsize ∧
          Sub m level (pteFrame (entries m.bytes f i)) ps)) ∧ ps.Nodup ∧
        ∀ g, g ∈ ps ↔ Below m root (d + 1) (n * 512 + i) g := by
      intro i lt
      have next : tableAt m root (d + 1) (n * 512 + i) = child (entries m.bytes f i) := by
        rw [tableAt_succ, entry i lt, Option.bind_some]
      cases isValid : valid (entries m.bytes f i) with
      | false =>
        refine ⟨[], .inl ⟨rfl, rfl⟩, List.nodup_nil, fun g => ?_⟩
        rw [child_none.mpr isValid] at next
        refine ⟨(fun mem => by cases mem), fun below => ?_⟩
        exact absurd below (not_below next)
      | true =>
        rw [child_eq isValid] at next
        obtain ⟨ps, sub, nodup, mem⟩ := ih (by omega) next
        have flags := tree.upper d _ _ (by omega) (entry i lt) isValid
        exact ⟨ps, .inr ⟨rfl, not_leaf flags, tree.pte2pa (isTable (by omega) next), sub⟩, nodup,
          mem⟩
    have chosen : ∀ i, ∃ ps : List Nat, ∀ lt : i < 512, _ := fun i => by
      by_cases lt : i < 512
      · obtain ⟨ps, both⟩ := parts i lt
        exact ⟨ps, fun _ => both⟩
      · exact ⟨[], fun lt' => absurd lt' lt⟩
    choose below part using chosen
    have inRange : ∀ i, i ∈ List.range' 0 512 ↔ i < 512 := fun i => by
      rw [List.mem_range'_1]
      omega
    have inBelow : ∀ g, g ∈ (List.range' 0 512).flatMap below ↔
        ∃ i < 512, Below m root (d + 1) (n * 512 + i) g := by
      intro g
      rw [List.mem_flatMap]
      constructor
      · rintro ⟨i, mem, there⟩
        have lt := (inRange i).mp mem
        exact ⟨i, lt, ((part i lt).2.2 g).mp there⟩
      · rintro ⟨i, lt, there⟩
        exact ⟨i, (inRange i).mpr lt, ((part i lt).2.2 g).mpr there⟩
    refine ⟨(List.range' 0 512).flatMap below ++ [f], ⟨below, fun i lt => (part i lt).1, rfl⟩,
      ?_, fun g => ?_⟩
    · rw [List.nodup_append]
      refine ⟨List.nodup_flatMap.mpr ⟨fun i mem => (part i ((inRange i).mp mem)).2.1, ?_⟩,
        List.nodup_singleton f, ?_⟩
      · apply List.Nodup.pairwise_of_forall_ne List.nodup_range'
        intro i mem j mem' ne g there there'
        have lt := (inRange i).mp mem
        have lt' := (inRange j).mp mem'
        obtain ⟨k, n₁, le, eq, here₁⟩ := ((part i lt).2.2 g).mp there
        obtain ⟨k', n₂, le', eq', here₂⟩ := ((part j lt').2.2 g).mp there'
        obtain ⟨depth, rfl⟩ := tree.apart _ _ _ _ g le le' here₁ here₂
        obtain rfl : k = k' := by omega
        omega
      · intro g there g' mem same
        rw [List.mem_singleton] at mem
        obtain ⟨i, lt, k, n', le, -, here'⟩ := (inBelow g).mp there
        rw [same, mem] at here'
        have := (tree.apart _ _ _ _ f le (by omega) here' here).1
        omega
    · rw [List.mem_append, List.mem_singleton, inBelow, @below_iff root f g n d m here (by omega)]
      exact or_comm

theorem table_number {d n g : Nat} (here : tableAt m root d n = some g) : n / 512 ^ d = 0 := by
  induction d generalizing n g with
  | zero =>
    rw [tableAt, Radix.node] at here
    split at here
    next zero => rw [zero, Nat.zero_div]
    next => cases here
  | succ d ih =>
    rw [tableAt, Radix.node] at here
    obtain ⟨p, above, -⟩ := Option.bind_eq_some_iff.mp here
    rw [Nat.pow_succ, Nat.mul_comm, ← Nat.div_div_eq_div_mul]
    exact ih above

theorem below_root : Below m root 0 0 g ↔ IsTable m root g := by
  constructor
  · rintro ⟨k, n, le, -, there⟩
    exact isTable (by omega) (by rwa [Nat.zero_add] at there)
  · rintro ⟨d, n, le, there⟩
    exact ⟨d, n, by omega, table_number there, by rwa [Nat.zero_add]⟩

/-- What is given back, and nothing else is written. -/
structure AllFreed (kend : Nat) (m m' : Mem) (Gone : Nat → Prop) (fs gs : List Nat) : Prop where
  free : FreeList kend m' gs
  pages : ∀ f, f ∈ gs ↔ f ∈ fs ∨ Gone f
  keeps : m.bytes.Keeps pgsize (fun f => f ∉ fs ∧ ¬ Gone f) m'.bytes

namespace Space

/-- A table that maps nothing. -/
theorem freewalk (space : Space kend m root M n fs) (none : ∀ v, M v = none) :
    ∃ m' gs, Uvm.freewalk kend levels (root * pgsize) m = .ok m' ∧
      AllFreed kend m m' (Held m root M) fs gs := by
  have unset : ∀ v, valid (pteOf m root v) = false := by
    intro v
    by_contra isValid
    have mapped := space.rep.mapOf (Bool.not_eq_false _ ▸ isValid)
    rw [none v] at mapped
    cases mapped
  obtain ⟨ps, sub, nodup, mem⟩ := @sub_of_tree kend root root 0 0 2 fs m space.rep.tree unset rfl rfl
  have held : ∀ g, g ∈ ps ↔ Held m root M g := by
    intro g
    rw [mem, below_root, Held]
    refine ⟨.inl, fun either => either.resolve_right ?_⟩
    rintro ⟨v, page, -, mapped, -⟩
    rw [none v] at mapped
    cases mapped
  have table : ∀ g ∈ ps, IsTable m root g := fun g there => below_root.mp ((mem g).mp there)
  have loose : Loose kend ps fs := ⟨nodup, fun g there => space.rep.tree.inRam g (table g there),
    fun g there => space.rep.tree.notFree g (table g there)⟩
  obtain ⟨m', ran, freed⟩ := freewalk_spec sub (show 2 < levels by decide) space.free loose
  refine ⟨m', _, ran, freed.free, fun f => ?_, freed.keeps.mono fun g out there => ?_⟩
  · rw [List.mem_append, List.mem_reverse, held]
    exact or_comm
  · exact out.2 ((held g).mp there)

/-- All of the user memory, and the table itself. -/
theorem uvmfree (space : Space kend m root M n fs) {sz : Nat} (size : pagesOf sz = n)
    (upper : ∀ v, userPages ≤ v → M v = none) :
    ∃ m' gs, Uvm.uvmfree kend (root * pgsize) sz m = .ok m' ∧
      AllFreed kend m m' (Held m root M) fs gs := by
  have small := space.small
  have bound : sz + pgsize ≤ 2 ^ 64 := by
    have := @le_pagesOf sz
    unfold pgsize at *
    omega
  rw [Uvm.uvmfree]
  by_cases pos : sz > 0
  · obtain ⟨m₁, hs, ran, space₁, change⟩ := space.unmap (Nat.zero_le n)
    have empty : ∀ v, M.unmap 0 (n - 0) v = none := by
      intro v
      rw [Map.unmap]
      split
      · rfl
      next outside =>
        by_cases low : v < userPages
        · cases mapped : M v with
          | none => rfl
          | some page =>
            have := (space.dense v low).mp ⟨page, mapped⟩
            omega
        · exact upper v (by omega)
    obtain ⟨m', gs, walked, freed⟩ := space₁.freewalk empty
    have number : pgRoundUp sz / pgsize = n := by
      rw [pgRoundUp_eq bound, size, Nat.mul_div_cancel _ (by decide)]
    rw [Nat.zero_mul, Nat.sub_zero] at ran
    rw [if_pos pos, number, ran]
    refine ⟨m', gs, walked, freed.free, fun f => ?_, ?_⟩
    · rw [freed.pages, change.pages]
    · refine change.keeps.trans (freed.keeps.mono fun f out => ?_)
      exact not_or.mp fun either => not_or.mpr out ((change.pages f).mp either)
  · obtain rfl : sz = 0 := by omega
    have zero : n = 0 := size ▸ rfl
    rw [if_neg pos]
    apply space.freewalk
    intro v
    by_cases low : v < userPages
    · cases mapped : M v with
      | none => rfl
      | some page =>
        have := (space.dense v low).mp ⟨page, mapped⟩
        omega
    · exact upper v (by omega)

end Space

end Sistemas.Xv6.Uvm
