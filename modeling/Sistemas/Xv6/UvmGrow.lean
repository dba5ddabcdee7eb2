import Sistemas.Xv6.UvmSpace

/-! # Growing and shrinking a process

`uvmalloc` maps new pages that are zero, or undoes what it did.
-/

namespace Sistemas.Xv6.Uvm

open Vm

variable {kend root f v w k n perm sz oldsz newsz : Nat} {fs gs hs : List Nat} {m m' : Mem}
  {M M' : Map}

/-- The pages that `sz` bytes need. -/
def pagesOf (sz : Nat) : Nat := (sz + (pgsize - 1)) / pgsize

theorem pgRoundUp_eq (lt : sz + pgsize ≤ 2 ^ 64) : pgRoundUp sz = pagesOf sz * pgsize := by
  have small : sz + (pgsize - 1) < 2 ^ 64 := by
    unfold pgsize at *
    omega
  rw [pgRoundUp, Nat.mod_eq_of_lt small, pagesOf]

theorem pagesOf_page (n : Nat) : pagesOf (n * pgsize) = n := by
  unfold pagesOf pgsize
  omega

theorem pagesOf_mono (le : oldsz ≤ newsz) : pagesOf oldsz ≤ pagesOf newsz :=
  Nat.div_le_div_right (Nat.add_le_add_right le _)

theorem lt_page_iff : k * pgsize < sz ↔ k < pagesOf sz := by
  unfold pagesOf pgsize
  omega

theorem le_pagesOf : sz ≤ pagesOf sz * pgsize := by
  unfold pagesOf pgsize
  omega

/-! ## Unmapping the last pages -/

theorem unmap_zero (M : Map) (v : Nat) : M.unmap v 0 = M := by
  funext w
  exact if_neg (by omega)

theorem mem_framesOf {ptes : Nat → Nat} :
    f ∈ framesOf ptes v n ↔ ∃ w, (v ≤ w ∧ w < v + n) ∧ pteFrame (ptes w) = f := by
  simp only [framesOf, List.mem_map, List.mem_reverse, List.mem_range'_1]

namespace Space

/-- The entry of a page that is mapped. -/
theorem pte (space : Space kend m root M n fs) {page : Nat × Nat} (mapped : M v = some page) :
    valid (pteOf m root v) = true ∧ pteFrame (pteOf m root v) = page.1 ∧
      pteFlags (pteOf m root v) = page.2 := by
  rw [← space.rep.map] at mapped
  obtain ⟨isValid, rfl⟩ := mapOf_some mapped
  exact ⟨isValid, rfl, rfl⟩

theorem mapped (space : Space kend m root M n fs) (lt : v < n) : ∃ page, M v = some page :=
  (space.dense v (lt.trans_le space.le)).mpr lt

theorem frame_of (space : Space kend m root M n fs) (lt : v < n) :
    ∃ page, M v = some page ∧ page.1 = pteFrame (pteOf m root v) := by
  obtain ⟨page, mapped⟩ := space.mapped lt
  exact ⟨page, mapped, (space.pte mapped).2.1.symm⟩

theorem owned (space : Space kend m root M n fs) (le : v + w ≤ n) : Owned m root fs v w := by
  constructor
  · intro u _ lt _
    obtain ⟨page, mapped, eq⟩ := space.frame_of (show u < n by omega)
    rw [← eq]
    exact space.rep.page u page mapped
  · intro u u' _ lt _ lt' _ _ same
    obtain ⟨page, mapped, eq⟩ := space.frame_of (show u < n by omega)
    obtain ⟨page', mapped', eq'⟩ := space.frame_of (show u' < n by omega)
    exact space.once u u' page page' (by omega) mapped mapped' (by rw [eq, eq', same])

theorem leaves (space : Space kend m root M n fs) (le : v + w ≤ n) (doFree : Bool) :
    Leaves kend m root v w doFree := by
  constructor
  · intro u _ lt
    obtain ⟨page, mapped⟩ := space.mapped (show u < n by omega)
    obtain ⟨isValid, -, flags⟩ := space.pte mapped
    exact ⟨isValid, flags ▸ space.leaf u page mapped⟩
  · intro _ u _ lt
    obtain ⟨page, mapped, eq⟩ := space.frame_of (show u < n by omega)
    exact eq ▸ space.ram u page (by omega) mapped

theorem user_unmap (space : Space kend m root M n fs) (le : v ≤ n) (g : Nat) :
    (g ∈ framesOf (pteOf m root) v (n - v) ∨
        ∃ u page, u < userPages ∧ M.unmap v (n - v) u = some page ∧ page.1 = g) ↔
      ∃ u page, u < userPages ∧ M u = some page ∧ page.1 = g := by
  constructor
  · rintro (mem | ⟨u, page, lt, eq, rfl⟩)
    · obtain ⟨u, ⟨-, lt⟩, rfl⟩ := mem_framesOf.mp mem
      obtain ⟨page, mapped, eq⟩ := space.frame_of (show u < n by omega)
      exact ⟨u, page, by have := space.le; omega, mapped, eq⟩
    · rw [Map.unmap] at eq
      split at eq
      · cases eq
      · exact ⟨u, page, lt, eq, rfl⟩
  · rintro ⟨u, page, lt, mapped, rfl⟩
    have inside := (space.dense u lt).mp ⟨page, mapped⟩
    by_cases gone : v ≤ u
    · refine .inl (mem_framesOf.mpr ⟨u, by omega, ?_⟩)
      exact (space.pte mapped).2.1
    · refine .inr ⟨u, page, lt, ?_, rfl⟩
      rw [Map.unmap, if_neg (by omega), mapped]

/-- The pages from `v` on are given back. -/
theorem unmap (space : Space kend m root M n fs) (le : v ≤ n) :
    ∃ m' gs, uvmunmap kend (root * pgsize) (v * pgsize) (n - v) true m = .ok m' ∧
      Space kend m' root (M.unmap v (n - v)) v gs ∧
      Change m m' root M (M.unmap v (n - v)) fs gs := by
  have low := space.small
  have sum : v + (n - v) = n := by omega
  have fits : (v + (n - v)) * pgsize ≤ maxva := by
    rw [sum]
    unfold maxva pgsize
    omega
  obtain ⟨m', ran, unmapped⟩ := uvmunmap_ok space.rep.tree fits
    (space.leaves sum.le true) fun _ => space.owned sum.le
  have allowed : (Call.uvmunmap v (n - v) true).Allowed kend m root M := by
    refine ⟨fits, fun _ u _ lt u' page page' here here' same => ?_⟩
    exact space.once u u' page page' (by omega) here here' same
  obtain ⟨gs, rep⟩ := space.rep.uvmunmap allowed ran
  have list : gs = framesOf (pteOf m root) v (n - v) ++ fs :=
    rep.tree.free.unique space.pos unmapped.tree.free
  have tables : ∀ g, IsTable m' root g ↔ IsTable m root g := by
    intro g
    constructor
    · rintro ⟨d, i, small, there⟩
      exact isTable small ((unmapped.table d i small).symm.trans there)
    · rintro ⟨d, i, small, there⟩
      exact isTable small ((unmapped.table d i small).trans there)
  have kept : ∀ u page, M.unmap v (n - v) u = some page → M u = some page ∧ ¬ (v ≤ u ∧ u < n) := by
    intro u page here
    rw [Map.unmap] at here
    split at here
    · cases here
    next outside => exact ⟨here, fun inside => outside (by omega)⟩
  refine ⟨m', gs, ran, ⟨space.linked, rep, ?_, le.trans space.le, ?_, ?_, ?_⟩, ?_, ?_, ?_,
    fun d i g le there => (unmapped.table d i le).trans there⟩
  · intro u lt
    rw [Map.unmap]
    split
    next gone =>
      refine ⟨fun some => ?_, fun small => by omega⟩
      obtain ⟨page, no⟩ := some
      cases no
    next outside =>
      rw [space.dense u lt]
      omega
  · exact fun u page lt here => space.ram u page (by omega) (kept u page here).1
  · intro u u' page page' lt here here' same
    exact space.once u u' page page' (by omega) (kept u page here).1 (kept u' page' here').1 same
  · exact fun u page here => space.leaf u page (kept u page here).1
  · intro g
    rw [list, List.mem_append, Held, Held, tables, ← space.user_unmap le g]
    tauto
  · apply unmapped.keeps.mono
    intro g outside
    refine ⟨fun isTable => outside.2 (.inl isTable), fun _ mem => outside.2 (.inr ?_)⟩
    exact (space.user_unmap le g).mp (.inl mem)
  · intro u page lt here here'
    apply unmapped.keeps.mono
    rintro g rfl
    refine ⟨(space.rep.page u page here).2.2, fun _ mem => ?_⟩
    obtain ⟨u', ⟨ge, lt'⟩, eq⟩ := mem_framesOf.mp mem
    obtain ⟨page', here'', eq'⟩ := space.frame_of (show u' < n by omega)
    have same := space.once u' u page' page (by omega) here'' here (by rw [eq', eq])
    exact (kept u page here').2 ⟨by omega, by omega⟩

/-! ## `uvmdealloc` -/

/-- `npages` is no negative number. -/
theorem ofInt_pages (le : n ≤ 32768) : ofInt (wrapInt (n : Int)) = n := by
  rw [wrapInt_eq (by omega) (by unfold intMax; omega), ofInt]
  omega

theorem dealloc (space : Space kend m root M n fs) (size : pagesOf oldsz = n)
    (lt : newsz < oldsz) :
    ∃ m' gs, uvmdealloc kend (root * pgsize) oldsz newsz m = .ok (newsz, m') ∧
      Space kend m' root (M.unmap (pagesOf newsz) (n - pagesOf newsz)) (pagesOf newsz) gs ∧
      Change m m' root M (M.unmap (pagesOf newsz) (n - pagesOf newsz)) fs gs := by
  have small := space.small
  have le : pagesOf newsz ≤ n := size ▸ pagesOf_mono (Nat.le_of_lt lt)
  have bound : oldsz + pgsize ≤ 2 ^ 64 := by
    have := @le_pagesOf oldsz
    unfold pgsize at *
    omega
  have up : pgRoundUp oldsz = n * pgsize := size ▸ pgRoundUp_eq bound
  have up' : pgRoundUp newsz = pagesOf newsz * pgsize := pgRoundUp_eq (by omega)
  rw [uvmdealloc, if_neg (by omega), up, up']
  by_cases fewer : pagesOf newsz < n
  · obtain ⟨m', gs, ran, space', change⟩ := space.unmap le
    have number : (n * pgsize - pagesOf newsz * pgsize) / pgsize = n - pagesOf newsz := by
      rw [← Nat.sub_mul, Nat.mul_div_cancel _ (by decide)]
    rw [if_pos (Nat.mul_lt_mul_of_pos_right fewer (by decide)), number]
    dsimp only
    rw [ofInt_pages (by omega), ran]
    exact ⟨m', gs, rfl, space', change⟩
  · have same : n - pagesOf newsz = 0 := by omega
    have none : ¬ pagesOf newsz * pgsize < n * pgsize :=
      Nat.not_lt.mpr (Nat.mul_le_mul_right pgsize (Nat.not_lt.mp fewer))
    rw [if_neg none, same, unmap_zero]
    obtain rfl : n = pagesOf newsz := by omega
    exact ⟨m, fs, rfl, space, .refl _ _ _ _⟩

/-! ## A new page -/

/-- The first of the free pages is taken, filled and mapped as the next one, or given back. -/
theorem allocPage (space : Space kend m root M n (f :: fs)) (flags : perm < 1024)
    (leaf : perm ||| pteV ≠ pteV) : ∃ m₁, kalloc m = some (f * pgsize, m₁) ∧
      m.bytes.Keeps pgsize (· ≠ f) m₁.bytes ∧
      ∀ m₂ : Mem, m₂.freelist = m₁.freelist → m₁.bytes.Keeps pgsize (· ≠ f) m₂.bytes →
        ∃ done m₃ gs, mappages (root * pgsize) (n * pgsize) pgsize (f * pgsize) perm m₂ =
            .ok (done, m₃) ∧
          (done = true → Space kend m₃ root (Function.update M n (some (f, perm ||| pteV))) (n + 1)
              gs ∧
            Change m m₃ root M (Function.update M n (some (f, perm ||| pteV))) (f :: fs) gs ∧
            m₂.bytes.Keeps pgsize (· = f) m₃.bytes ∧ fs.length ≤ gs.length + 2) ∧
          (done = false → fs.length ≤ 2 ∧ ∃ m₄, kfree kend (f * pgsize) m₃ = .ok m₄ ∧
            Space kend m₄ root M n (f :: gs) ∧ Change m m₄ root M M (f :: fs) (f :: gs)) := by
  have ram := space.free.inRam f List.mem_cons_self
  have notHeld : ¬ Held m root M f := fun held => space.not_free held List.mem_cons_self
  have unmapped : ∀ v page, M v = some page → page.1 ≠ f := by
    rintro v page mapped rfl
    exact (space.rep.page v page mapped).2.1 List.mem_cons_self
  have loose : f ∉ fs := (List.nodup_cons.mp space.free.nodup).1
  obtain ⟨m₁, found, space₁, held₁, keeps₁, change₁⟩ := space.alloc
  refine ⟨m₁, found, keeps₁, fun m₂ same keeps₂ => ?_⟩
  have notHeld₁ : ¬ Held m₁ root M f := fun held => notHeld ((held₁ f).mp held)
  obtain ⟨space₂, held₂, change₂⟩ := space₁.write loose notHeld₁ same keeps₂
  have notHeld₂ : ¬ Held m₂ root M f := fun held => notHeld₁ ((held₂ f).mp held)
  have change : Change m m₂ root M M (f :: fs) (f :: fs) :=
    change₁.trans change₂ fun _ _ _ mapped _ => mapped
  obtain ⟨done, m₃, gs, ran, loose₃, keeps₃, few, mapped, stuck⟩ :=
    space₂.map ram loose notHeld₂ unmapped flags leaf
  refine ⟨done, m₃, gs, ran, fun isDone => ?_, fun notDone => ?_⟩
  · obtain ⟨space₃, change₃⟩ := mapped isDone
    exact ⟨space₃, change.trans change₃ fun _ _ _ mapped _ => mapped, keeps₃, few⟩
  · obtain ⟨none, space₃, notHeld₃, change₃⟩ := stuck notDone
    rw [none] at few
    obtain ⟨m₄, freed, space₄, change₄⟩ := space₃.giveBack ram loose₃ notHeld₃ unmapped
    refine ⟨few, m₄, freed, space₄, ?_⟩
    exact (change.trans change₃ fun _ _ _ mapped _ => mapped).trans change₄
      fun _ _ _ mapped _ => mapped

/-! ## `uvmalloc` -/

/-- The pages from `n` to `k` are new, and zero. -/
structure Grown (m' : Mem) (M M' : Map) (n k perm : Nat) : Prop where
  old : ∀ v, ¬ (n ≤ v ∧ v < k) → M' v = M v
  new : ∀ v, n ≤ v → v < k → ∃ f, M' v = some (f, perm ||| pteV) ∧
    ∀ i < pgsize, m'.bytes (f * pgsize + i) = 0

/-- What `uvmalloc` returns, and the pages then. -/
inductive Allocated (kend : Nat) (m m' : Mem) (root : Nat) (M : Map) (n newsz perm : Nat)
    (fs : List Nat) : Nat → Prop
  | grown {gs : List Nat} {M' : Map} (space : Space kend m' root M' (max n (pagesOf newsz)) gs)
      (change : Change m m' root M M' fs gs)
      (new : Grown m' M M' n (max n (pagesOf newsz)) perm) :
      Allocated kend m m' root M n newsz perm fs newsz
  | failed {gs : List Nat} (space : Space kend m' root M n gs)
      (change : Change m m' root M M fs gs) : Allocated kend m m' root M n newsz perm fs 0

/-- The pages from `n` on are given back. -/
theorem undo (space : Space kend m root M k fs) (le : n ≤ k) :
    ∃ r m' gs, uvmdealloc kend (root * pgsize) (k * pgsize) (n * pgsize) m = .ok (r, m') ∧
      Space kend m' root (M.unmap n (k - n)) n gs ∧
      Change m m' root M (M.unmap n (k - n)) fs gs := by
  by_cases lt : n < k
  · obtain ⟨m', gs, ran, space', change⟩ := space.dealloc (pagesOf_page k)
      (Nat.mul_lt_mul_of_pos_right lt (show 0 < pgsize by decide))
    rw [pagesOf_page] at space' change
    exact ⟨_, m', gs, ran, space', change⟩
  · obtain rfl : n = k := by omega
    rw [Nat.sub_self, unmap_zero]
    exact ⟨_, m, fs, if_pos le_rfl, space, .refl _ _ _ _⟩

theorem unmap_update {new : Nat × Nat} (unset : M k = none) (le : n ≤ k) :
    Map.unmap (Function.update M k (some new)) n (k + 1 - n) = M.unmap n (k - n) := by
  funext w
  rw [Map.unmap, Map.unmap]
  by_cases last : w = k
  · rw [if_pos (by omega), if_neg (by omega), last, unset]
  · rw [Function.update_of_ne last]
    exact if_congr (by omega) rfl rfl

theorem memset_page (m : Mem) (f : Nat) {i : Nat} (lt : i < pgsize) :
    (m.memset (f * pgsize) 0).bytes (f * pgsize + i) = 0 := by
  rw [Mem.memset]
  dsimp only
  rw [Bytes.splice_inside lt]

/-- What the loop does from page `k` on. -/
inductive Looped (kend : Nat) (m m' : Mem) (root : Nat) (M : Map) (n k newsz perm : Nat)
    (fs : List Nat) : Nat → Prop
  | grown {gs : List Nat} {M' : Map} (space : Space kend m' root M' (max k (pagesOf newsz)) gs)
      (change : Change m m' root M M' fs gs)
      (new : Grown m' M M' k (max k (pagesOf newsz)) perm) :
      Looped kend m m' root M n k newsz perm fs newsz
  | failed {gs : List Nat} (space : Space kend m' root (M.unmap n (k - n)) n gs)
      (change : Change m m' root M (M.unmap n (k - n)) fs gs) :
      Looped kend m m' root M n k newsz perm fs 0

/-- One page more in front of what the loop does. -/
theorem Looped.step {m₁ : Mem} {r : Nat} (le : n ≤ k) (lt : k < pagesOf newsz)
    (unset : M k = none) (low : k < userPages)
    (change : Change m m₁ root M (Function.update M k (some (f, perm ||| pteV))) fs gs)
    (zero : ∀ i < pgsize, m₁.bytes (f * pgsize + i) = 0)
    (rest : Looped kend m₁ m' root (Function.update M k (some (f, perm ||| pteV))) n (k + 1) newsz
      perm gs r) : Looped kend m m' root M n k newsz perm fs r := by
  have old : ∀ v page, M v = some page →
      Function.update M k (some (f, perm ||| pteV)) v = some page := by
    intro v page mapped
    rw [Function.update_of_ne, mapped]
    rintro rfl
    rw [unset] at mapped
    cases mapped
  cases rest with
  | @grown hs M' space change' new =>
    have top : max (k + 1) (pagesOf newsz) = max k (pagesOf newsz) := by omega
    rw [top] at space new
    have here : M' k = some (f, perm ||| pteV) := by
      rw [new.old k (by omega), Function.update_self]
    refine .grown space (change.trans change' fun v page _ mapped _ => old v page mapped)
      ⟨fun v out => ?_, fun v ge small => ?_⟩
    · rw [new.old v (by omega), Function.update_of_ne (by omega)]
    · by_cases first : v = k
      · refine ⟨f, first ▸ here, fun i inside => ?_⟩
        have kept := change'.data k _ low (Function.update_self ..) here
        rw [kept.byte rfl inside, zero i inside]
      · exact new.new v (by omega) small
  | failed space change' =>
    rw [unmap_update unset le] at space change'
    exact .failed space (change.trans change' fun v page _ mapped _ => old v page mapped)

theorem allocLoop_spec (space : Space kend m root M k fs) (le : n ≤ k)
    (flags : pteR ||| pteU ||| perm < 1024) :
    ∃ r m', allocLoop kend (root * pgsize) perm (n * pgsize) newsz (k * pgsize) m = .ok (r, m') ∧
      Looped kend m m' root M n k newsz (pteR ||| pteU ||| perm) fs r ∧
      (3 * (pagesOf newsz - k) < fs.length → r = newsz) := by
  have leaf : pteR ||| pteU ||| perm ||| pteV ≠ pteV := by
    intro same
    have bit := congrArg (Nat.testBit · 1) same
    have readable : (pteR ||| pteU).testBit 1 = true := rfl
    have unset : pteV.testBit 1 = false := rfl
    rw [Nat.testBit_or, Nat.testBit_or, readable, unset] at bit
    simp at bit
  induction left : pagesOf newsz - k generalizing k m M fs with
  | zero =>
    have top : max k (pagesOf newsz) = k := by omega
    refine ⟨newsz, m, ?_, ?_, fun _ => rfl⟩
    · rw [allocLoop, dif_neg]
      rw [lt_page_iff]
      omega
    · have done := @Looped.grown kend m m root M n k newsz (pteR ||| pteU ||| perm) fs fs M
      rw [top] at done
      exact done space (.refl _ _ _ _) ⟨fun _ _ => rfl, fun v ge lt => by omega⟩
  | succ left ih =>
    have lt : k < pagesOf newsz := by omega
    have more : k * pgsize < newsz := lt_page_iff.mpr lt
    rw [allocLoop, dif_pos more]
    cases fs with
    | nil =>
      rw [kalloc_nil space.free]
      obtain ⟨r, m', gs, ran, space', change⟩ := space.undo le
      dsimp only
      rw [ran]
      refine ⟨0, m', rfl, .failed space' change, fun enough => ?_⟩
      rw [List.length_nil] at enough
      omega
    | cons f fs =>
      obtain ⟨m₁, found, -, mapped⟩ := space.allocPage flags leaf
      obtain ⟨done, m₂, gs, ran, isDone, notDone⟩ :=
        mapped (m₁.memset (f * pgsize) 0) rfl (keeps_memset m₁ f 0)
      rw [found]
      dsimp only
      split
      next e stop =>
        rw [ran] at stop
        cases stop
      next m₃ stop =>
        rw [ran] at stop
        cases stop
        obtain ⟨few, m₄, freed, space', change⟩ := notDone rfl
        obtain ⟨r, m', hs, undone, space'', change'⟩ := space'.undo le
        rw [freed]
        dsimp only [lift, Except.mapError, bind, Except.bind]
        rw [undone]
        refine ⟨0, m', rfl, .failed space''
          (change.trans change' fun _ _ _ mapped _ => mapped), fun enough => ?_⟩
        rw [List.length_cons] at enough
        omega
      next m₃ stop =>
        rw [ran] at stop
        cases stop
        obtain ⟨space', change, keeps, few⟩ := isDone rfl
        obtain ⟨r, m', later, looped, all⟩ := ih space' (by omega) (by omega)
        rw [Nat.succ_mul] at later
        refine ⟨r, m', later, looped.step le lt space.unset_next space.lt_userPages change ?_,
          fun enough => all ?_⟩
        · intro i inside
          rw [keeps.byte rfl inside]
          exact memset_page m₁ f inside
        · rw [List.length_cons] at enough
          omega

/-- `uvmalloc` grows the process, or leaves its memory as it is; a page may need two more for the
table. -/
theorem uvmalloc_spec (space : Space kend m root M n fs) (size : pagesOf oldsz = n)
    (le : oldsz ≤ newsz) (flags : pteR ||| pteU ||| perm < 1024) :
    ∃ r m', uvmalloc kend (root * pgsize) oldsz newsz perm m = .ok (r, m') ∧
      Allocated kend m m' root M n newsz (pteR ||| pteU ||| perm) fs r ∧
      (3 * (pagesOf newsz - n) < fs.length → r = newsz) := by
  have small := space.small
  have up : pgRoundUp oldsz = n * pgsize := by
    rw [pgRoundUp_eq, size]
    have := @le_pagesOf oldsz
    unfold pgsize at *
    omega
  obtain ⟨r, m', ran, looped, all⟩ :=
    @allocLoop_spec kend root n n perm newsz fs m M space le_rfl flags
  rw [uvmalloc, if_neg (by omega), up]
  refine ⟨r, m', ran, ?_, all⟩
  cases looped with
  | grown space change new => exact .grown space change new
  | failed space change =>
    rw [Nat.sub_self, unmap_zero] at space change
    exact .failed space change

end Space

end Sistemas.Xv6.Uvm
