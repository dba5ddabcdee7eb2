import Sistemas.Xv6.VmTables

/-! # What the loops over pages do

`mappages` and `uvmunmap` change the entries of the page numbers that they are given, and no
others.
-/

namespace Sistemas.Xv6.Vm

variable {kend root f g pa perm u v va : Nat} {fs gs : List Nat} {m m' : Mem}

theorem vpn_one_page : vpn 1 (v * pgsize) = v / 512 := by
  rw [vpn_succ, vpn_page]

theorem px_page : px 0 (v * pgsize) = v % 512 := by
  rw [px_eq, vpn_page]

theorem load_pte (here : tableAt m root 2 (v / 512) = some g) :
    m.load (g * pgsize + 8 * (v % 512)) = pteOf m root v := by
  rw [pteOf, entryAt, Radix.lookup_of_node here]
  rfl

theorem pteOf_missing (missing : tableAt m root 2 (v / 512) = none) : pteOf m root v = 0 := by
  rw [tableAt] at missing
  rw [pteOf, entryAt, Radix.lookup, missing]
  rfl

/-- `walk` finds the entry for a page, or there is none. -/
theorem walk_page (tree : Tree kend m root fs) (lt : v * pgsize < maxva) :
    walk (root * pgsize) (v * pgsize) false m =
      .ok ((tableAt m root 2 (v / 512)).map fun g => g * pgsize + 8 * (v % 512), m) := by
  rw [walk_find tree lt, vpn_one_page, px_page]

theorem pa2pte_page : pa2pte pa ||| perm ||| pteV = mkPte (pa / pgsize) perm := by
  rw [mkPte, pa2pte_frame]
  rfl

theorem page_lt (lt : pa < 2 ^ 64) : pa / pgsize < 2 ^ 52 := by
  rw [Nat.div_lt_iff_lt_mul (by decide)]
  exact lt.trans_eq (by decide)

/-! ## Mapping -/

/-- The physical page that is mapped as number `j`. -/
def frameAt (pa j : Nat) : Nat := (pa + j * pgsize) % 2 ^ 64 / pgsize

theorem frameAt_zero (lt : pa < 2 ^ 64) : frameAt pa 0 = pa / pgsize := by
  rw [frameAt, Nat.zero_mul, Nat.add_zero, Nat.mod_eq_of_lt lt]

theorem frameAt_succ (j : Nat) : frameAt ((pa + pgsize) % 2 ^ 64) j = frameAt pa (j + 1) := by
  rw [frameAt, frameAt, Nat.mod_add_mod, Nat.succ_mul, Nat.add_assoc, Nat.add_comm pgsize]

theorem frameAt_lt (j : Nat) : frameAt pa j < 2 ^ 52 := page_lt (Nat.mod_lt _ (by decide))

/-- The entries when the pages from `v` to `u` are mapped. -/
def mapped (ptes : Nat → Nat) (v u pa perm : Nat) (w : Nat) : Nat :=
  if v ≤ w ∧ w ≤ u then mkPte (frameAt pa (w - v)) perm else ptes w

theorem mapLoop_spec (tree : Tree kend m root fs) (paLt : pa < 2 ^ 64) (flags : perm < 1024)
    (ran : mapLoop (root * pgsize) (u * pgsize) perm (v * pgsize) pa m = .ok (true, m')) :
    v ≤ u ∧ ∃ gs, Edited kend m m' root fs gs (mapped (pteOf m root) v u pa perm) := by
  induction left : maxva - v * pgsize using Nat.strong_induction_on
    generalizing v pa m fs with
  | h n ih =>
  rw [mapLoop] at ran
  split at ran
  · cases ran
  · cases ran
  next pte m₁ found =>
    obtain ⟨low, gs, edited, result⟩ := walk_alloc tree found
    obtain ⟨g, here, address⟩ := result pte rfl
    rw [px_page] at address
    rw [vpn_one_page] at here
    split at ran
    · cases ran
    rw [address, pa2pte_page] at ran
    generalize stored : m₁.store (g * pgsize + 8 * (v % 512)) (mkPte (pa / pgsize) perm) = m₂ at ran
    have small : mkPte (pa / pgsize) perm < 2 ^ 64 := mkPte_lt flags (page_lt paLt)
    have set := (edited.tree.set here small stored).1
    rw [funext edited.pte] at set
    have both := edited.trans set
    by_cases isLast : v * pgsize = u * pgsize
    · rw [if_pos isLast] at ran
      cases ran
      obtain rfl : v = u := Nat.eq_of_mul_eq_mul_right (by decide) isLast
      refine ⟨le_rfl, gs, ?_⟩
      have eq : mapped (pteOf m root) v v pa perm =
          fun w => if w = v then mkPte (pa / pgsize) perm else pteOf m root w := by
        funext w
        rw [mapped]
        by_cases same : w = v
        · rw [if_pos same, if_pos (by omega), same, Nat.sub_self, frameAt_zero paLt]
        · rw [if_neg same, if_neg (by omega)]
      rw [eq]
      exact both
    · rw [if_neg isLast, ← Nat.succ_mul] at ran
      have shorter : maxva - (v + 1) * pgsize < n := by
        rw [Nat.succ_mul]
        unfold pgsize at *
        omega
      obtain ⟨le, hs, later⟩ := ih _ shorter both.tree (Nat.mod_lt _ (by decide)) ran rfl
      refine ⟨by omega, hs, ?_⟩
      have eq : mapped (pteOf m root) v u pa perm =
          mapped (pteOf m₂ root) (v + 1) u ((pa + pgsize) % 2 ^ 64) perm := by
        funext w
        rw [mapped, mapped]
        by_cases later : v + 1 ≤ w ∧ w ≤ u
        · rw [if_pos later, if_pos (by omega), frameAt_succ]
          congr 2
          omega
        · rw [if_neg later, both.pte w]
          by_cases same : w = v
          · rw [if_pos (by omega), if_pos same, same, Nat.sub_self, frameAt_zero paLt]
          · rw [if_neg (by omega), if_neg same]
      rw [eq]
      exact both.trans later

/-- The number of the last page of a range. -/
def lastPage (v size : Nat) : Nat := v + (size - 1) / pgsize

theorem mappages_eq {size : Nat} (pos : 0 < size) (fits : v * pgsize + size ≤ maxva) :
    mappages (root * pgsize) (v * pgsize) size pa perm m =
      mapLoop (root * pgsize) (lastPage v size * pgsize) perm (v * pgsize) pa m := by
  have whole : v * pgsize + size - 1 = v * pgsize + (size - 1) := by omega
  have small : v * pgsize + (size - 1) < 2 ^ 64 := by
    unfold maxva at fits
    omega
  have start : pgRoundDown (v * pgsize) = v * pgsize := by
    rw [pgRoundDown, Nat.mul_div_cancel _ (by decide)]
  have last : pgRoundDown (v * pgsize + (size - 1)) = lastPage v size * pgsize := by
    rw [pgRoundDown, lastPage, Nat.add_comm, Nat.add_mul_div_right _ _ (by decide), Nat.add_comm]
  rw [mappages, if_neg (Nat.ne_of_gt pos), whole, Nat.mod_eq_of_lt small, start, last]

theorem mappages_spec {size : Nat} (tree : Tree kend m root fs) (paLt : pa < 2 ^ 64)
    (flags : perm < 1024) (fits : v * pgsize + size ≤ maxva)
    (ran : mappages (root * pgsize) (v * pgsize) size pa perm m = .ok (true, m')) :
    ∃ gs, Edited kend m m' root fs gs (mapped (pteOf m root) v (lastPage v size) pa perm) := by
  cases Nat.eq_zero_or_pos size with
  | inl none =>
    rw [mappages, if_pos none] at ran
    cases ran
  | inr pos =>
    rw [mappages_eq pos fits] at ran
    exact (mapLoop_spec tree paLt flags ran).2

/-! ## Unmapping -/

/-- The physical pages of `n` pages from `v` on, the last one first. -/
def framesOf (ptes : Nat → Nat) (v n : Nat) : List Nat :=
  (List.range' v n).reverse.map fun w => pteFrame (ptes w)

theorem framesOf_succ (ptes : Nat → Nat) (v n : Nat) :
    framesOf ptes v (n + 1) = framesOf ptes (v + 1) n ++ [pteFrame (ptes v)] := by
  simp [framesOf, List.range'_succ]

theorem framesOf_congr {ptes ptes' : Nat → Nat} {n : Nat}
    (same : ∀ w, v ≤ w → w < v + n → ptes' w = ptes w) :
    framesOf ptes' v n = framesOf ptes v n := by
  apply List.map_congr_left
  intro w mem
  rw [List.mem_reverse, List.mem_range'_1] at mem
  rw [same w mem.1 mem.2]

/-- The pages from `v` on are unmapped, and given back if `doFree`. -/
structure Unmapped (kend : Nat) (m m' : Mem) (root : Nat) (fs : List Nat) (doFree : Bool)
    (v n : Nat) : Prop where
  tree : Tree kend m' root ((if doFree then framesOf (pteOf m root) v n else []) ++ fs)
  pte : ∀ w, pteOf m' root w = if v ≤ w ∧ w < v + n then 0 else pteOf m root w
  table : ∀ d i, d ≤ 2 → tableAt m' root d i = tableAt m root d i
  keeps : m.bytes.Keeps pgsize (fun f => ¬ IsTable m root f ∧
    (doFree = true → f ∉ framesOf (pteOf m root) v n)) m'.bytes
  leaf : ∀ w, v ≤ w → w < v + n → valid (pteOf m root w) = true

/-- The pages that are mapped from `v` on may be given back. -/
structure Owned (m : Mem) (root : Nat) (fs : List Nat) (v n : Nat) : Prop where
  page : ∀ w, v ≤ w → w < v + n → valid (pteOf m root w) = true →
    pteFrame (pteOf m root w) < 2 ^ 52 ∧ pteFrame (pteOf m root w) ∉ fs ∧
      ¬ IsTable m root (pteFrame (pteOf m root w))
  once : ∀ w w', v ≤ w → w < v + n → v ≤ w' → w' < v + n → valid (pteOf m root w) = true →
    valid (pteOf m root w') = true → pteFrame (pteOf m root w) = pteFrame (pteOf m root w') →
    w = w'

/-- The page of `v` is given back if `doFree`; the table still has its entry. -/
theorem free_page {doFree : Bool} (tree : Tree kend m root fs)
    (owned : doFree = true → pteFrame (pteOf m root v) < 2 ^ 52 ∧
      pteFrame (pteOf m root v) ∉ fs ∧ ¬ IsTable m root (pteFrame (pteOf m root v)))
    (freed : freeIf kend doFree (pte2pa (pteOf m root v)) m = .ok m') :
    Tree kend m' root ((if doFree then [pteFrame (pteOf m root v)] else []) ++ fs) ∧
      (∀ d i, d ≤ 2 → tableAt m' root d i = tableAt m root d i) ∧
      (∀ w, pteOf m' root w = pteOf m root w) ∧
      m.bytes.Keeps pgsize (fun f => doFree = true → f ≠ pteFrame (pteOf m root v)) m'.bytes := by
  cases doFree with
  | false =>
    cases freed
    exact ⟨tree, fun _ _ _ => rfl, fun _ => rfl, .refl _ _ _⟩
  | true =>
    obtain ⟨small, notFree, notTable⟩ := owned rfl
    rw [freeIf, if_pos rfl, pte2pa_eq small] at freed
    obtain ⟨f, address, -, keeps, free⟩ := kfree_spec tree.free freed
    obtain rfl : pteFrame (pteOf m root v) = f := Nat.eq_of_mul_eq_mul_right (by decide) address
    have tables : m.bytes.Keeps pgsize (IsTable m root) m'.bytes := by
      apply keeps.mono
      rintro r isTable rfl
      exact notTable isTable
    have apart : ∀ r, IsTable m root r → r ∉ pteFrame (pteOf m root v) :: fs := by
      intro r isTable mem
      cases mem with
      | head => exact notTable isTable
      | tail _ mem => exact tree.notFree r isTable mem
    obtain ⟨tree', nodes, ptes⟩ := tree.congr (free notFree) tables apart
    exact ⟨tree', nodes, ptes, keeps.mono fun r ne => ne rfl⟩

/-- One turn of the loop. -/
theorem unmapLoop_turn {pagetable limit a : Nat} {doFree : Bool} (more : a < limit)
    (ran : unmapLoop kend pagetable doFree limit a m = .ok m') : ∃ pte m₁ m₂,
      walk pagetable a false m = .ok (some pte, m₁) ∧ valid (m₁.load pte) = true ∧
      freeIf kend doFree (pte2pa (m₁.load pte)) m₁ = .ok m₂ ∧
      unmapLoop kend pagetable doFree limit (a + pgsize) (m₂.store pte 0) = .ok m' := by
  rw [unmapLoop, dif_pos more, bind_eq_ok] at ran
  obtain ⟨⟨found, m₁⟩, walked, ran⟩ := ran
  cases found with
  | none => cases ran
  | some pte =>
    dsimp only at ran
    split at ran
    · cases ran
    next isValid =>
      split at ran
      · cases ran
      next =>
        obtain ⟨m₂, freed, rest⟩ := bind_eq_ok.mp ran
        exact ⟨pte, m₁, m₂, walked, Bool.not_eq_false _ ▸ isValid, freed, rest⟩

theorem unmapLoop_spec {doFree : Bool} {n : Nat} (tree : Tree kend m root fs)
    (fits : (v + n) * pgsize ≤ maxva)
    (owned : doFree = true → Owned m root fs v n)
    (ran : unmapLoop kend (root * pgsize) doFree ((v + n) * pgsize) (v * pgsize) m = .ok m') :
    Unmapped kend m m' root fs doFree v n := by
  induction n generalizing v m fs with
  | zero =>
    rw [Nat.add_zero, unmapLoop, dif_neg (Nat.lt_irrefl _)] at ran
    cases ran
    refine ⟨?_, ?_, fun _ _ _ => rfl, .refl _ _ _, ?_⟩
    · cases doFree <;> exact tree
    · intro w
      rw [if_neg (by omega)]
    · intro w _ _
      omega
  | succ n ih =>
    have more : v * pgsize < (v + (n + 1)) * pgsize :=
      Nat.mul_lt_mul_of_pos_right (by omega) (by decide)
    obtain ⟨pte, m₁, m₂, walked, isValid, freed, rest⟩ := unmapLoop_turn more ran
    rw [walk_page tree (by omega)] at walked
    obtain ⟨result, rfl⟩ := Prod.mk.inj (Except.ok.inj walked)
    obtain ⟨g, here, rfl⟩ := Option.map_eq_some_iff.mp result
    rw [load_pte here] at isValid freed
    obtain ⟨tree₂, nodes₂, ptes₂, keeps₂⟩ := free_page tree
      (fun isFree => (owned isFree).page v le_rfl (by omega) isValid) freed
    generalize stored : m₂.store (g * pgsize + 8 * (v % 512)) 0 = m₃ at rest
    obtain ⟨edited, nodes₃⟩ := tree₂.set ((nodes₂ 2 _ le_rfl).trans here) (by decide) stored
    have ptes₃ : ∀ w, pteOf m₃ root w = if w = v then 0 else pteOf m root w := by
      intro w
      rw [edited.pte w]
      by_cases same : w = v
      · rw [if_pos same, if_pos same]
      · rw [if_neg same, if_neg same, ptes₂ w]
    have same : ∀ w, v + 1 ≤ w → w < v + 1 + n → pteOf m₃ root w = pteOf m root w := by
      intro w ge _
      rw [ptes₃, if_neg (by omega)]
    have nodes : ∀ d i, d ≤ 2 → tableAt m₃ root d i = tableAt m root d i :=
      fun d i le => (nodes₃ d i le).trans (nodes₂ d i le)
    have tables : ∀ r, IsTable m₃ root r → IsTable m root r := by
      rintro r ⟨d, i, le, there⟩
      exact isTable le ((nodes d i le).symm.trans there)
    have frames := framesOf_congr same
    have sum : v + (n + 1) = v + 1 + n := by omega
    rw [← Nat.succ_mul, sum] at rest
    have later := ih edited.tree (sum ▸ fits) ?owned rest
    case owned =>
      intro isFree
      have own := owned isFree
      refine ⟨?_, ?_⟩
      · intro w ge lt isValid'
        rw [same w ge lt] at isValid' ⊢
        obtain ⟨small, notFree, notTable⟩ := own.page w (by omega) (by omega) isValid'
        refine ⟨small, ?_, fun isTable => notTable (tables _ isTable)⟩
        rw [isFree, if_pos rfl, List.singleton_append, List.mem_cons, not_or]
        refine ⟨fun eq => ?_, notFree⟩
        have := own.once w v (by omega) (by omega) le_rfl (by omega) isValid' isValid eq
        omega
      · intro w w' ge lt ge' lt' isValid₁ isValid₂ eq
        rw [same w ge lt] at isValid₁ eq
        rw [same w' ge' lt'] at isValid₂ eq
        exact own.once w w' (by omega) (by omega) (by omega) (by omega) isValid₁ isValid₂ eq
    have keeps := later.keeps
    have tree' := later.tree
    rw [frames] at keeps tree'
    refine ⟨?_, ?_, fun d i le => (later.table d i le).trans (nodes d i le), ?_, ?_⟩
    · cases doFree with
      | false => exact tree'
      | true =>
        rw [if_pos rfl, framesOf_succ, List.append_assoc]
        exact tree'
    · intro w
      rw [later.pte w, ptes₃ w]
      by_cases isFirst : w = v
      · rw [if_neg (by omega), if_pos isFirst, if_pos (by omega)]
      · rw [if_neg isFirst]
        exact if_congr (by omega) rfl rfl
    · have written : m₂.bytes.Keeps pgsize (· ≠ g) m₃.bytes :=
        stored ▸ keeps_store_word m₂ (Nat.mod_lt v (by decide)) 0
      have part : framesOf (pteOf m root) v (n + 1) =
          framesOf (pteOf m root) (v + 1) n ++ [pteFrame (pteOf m root v)] := framesOf_succ ..
      refine (keeps₂.mono ?_).trans ((written.mono ?_).trans (keeps.mono ?_))
      · rintro f ⟨-, notFreed⟩ isFree rfl
        apply notFreed isFree
        rw [part]
        exact List.mem_append_right _ List.mem_cons_self
      · rintro f ⟨notTable, -⟩ rfl
        exact notTable (isTable le_rfl here)
      · rintro f ⟨notTable, notFreed⟩
        refine ⟨fun isTable => notTable (tables f isTable), fun isFree mem => notFreed isFree ?_⟩
        rw [part]
        exact List.mem_append_left _ mem
    · intro w ge lt
      by_cases isFirst : w = v
      · rw [isFirst]
        exact isValid
      · rw [← same w (by omega) (by omega)]
        exact later.leaf w (by omega) (by omega)

theorem uvmunmap_spec {doFree : Bool} {n : Nat} (tree : Tree kend m root fs)
    (fits : (v + n) * pgsize ≤ maxva)
    (owned : doFree = true → Owned m root fs v n)
    (ran : uvmunmap kend (root * pgsize) (v * pgsize) n doFree m = .ok m') :
    Unmapped kend m m' root fs doFree v n := by
  have limit : (v * pgsize + n * pgsize) % 2 ^ 64 = (v + n) * pgsize := by
    rw [← Nat.add_mul]
    apply Nat.mod_eq_of_lt
    unfold maxva at fits
    omega
  rw [uvmunmap, if_neg (not_not.mpr (Nat.mul_mod_left v pgsize)), limit] at ran
  exact unmapLoop_spec tree fits owned ran

/-! ## One page -/

theorem pteOf_lt : pteOf m root v < 2 ^ 64 := by
  rw [pteOf, entryAt, Radix.lookup]
  cases Radix.node child 512 (entries m.bytes) root 2 (v / 512) with
  | none => exact Nat.two_pow_pos 64
  | some g => exact Bytes.load_lt.trans_eq (by decide)

theorem uvmclear_spec (tree : Tree kend m root fs)
    (ran : uvmclear (root * pgsize) (v * pgsize) m = .ok m') :
    Edited kend m m' root fs fs fun w =>
      if w = v then clearUser (pteOf m root v) else pteOf m root w := by
  obtain ⟨⟨found, m₁⟩, walked, ran⟩ := bind_eq_ok.mp ran
  have lt : v * pgsize < maxva := by
    by_contra high
    rw [walk, if_pos (by omega)] at walked
    cases walked
  rw [walk_page tree lt] at walked
  obtain ⟨result, rfl⟩ := Prod.mk.inj (Except.ok.inj walked)
  cases found with
  | none => cases ran
  | some pte =>
    obtain ⟨g, here, rfl⟩ := Option.map_eq_some_iff.mp result
    dsimp only at ran
    rw [load_pte here] at ran
    exact (tree.set here (clearUser_lt pteOf_lt) (Except.ok.inj ran)).1

/-- The new page table is empty. -/
theorem uvmcreate_spec {pagetable : Nat} (free : FreeList kend m fs)
    (created : uvmcreate m = some (pagetable, m')) :
    ∃ g gs, pagetable = g * pgsize ∧ Tree kend m' g gs ∧ gs ⊆ fs ∧ (∀ v, pteOf m' g v = 0) ∧
      ∀ f, IsTable m' g f → f = g := by
  obtain ⟨⟨page, m₁⟩, found, eq⟩ := Option.map_eq_some_iff.mp created
  obtain ⟨rfl, rfl⟩ := Prod.mk.inj eq
  obtain ⟨g, gs, rfl, rfl, free₁, -⟩ := kalloc_some free found
  have zero : ∀ i < 512, entries (m₁.memset (g * pgsize) 0).bytes g i = 0 :=
    fun i lt => entries_memset m₁ g lt
  have keeps := keeps_memset m₁ g 0
  generalize cleared : m₁.memset (g * pgsize) 0 = m₂ at zero keeps
  have below : ∀ d n, tableAt m₂ g (d + 1) n = none := by
    intro d
    induction d with
    | zero =>
      intro n
      rw [tableAt, Radix.node, Radix.node]
      split
      · rw [Option.bind_some, zero _ (Nat.mod_lt _ (by decide))]
        rfl
      · rfl
    | succ d ih =>
      intro n
      have above := ih (n / 512)
      rw [tableAt] at above
      rw [tableAt, Radix.node, above]
      rfl
  have only : ∀ d n f, tableAt m₂ g d n = some f → d = 0 ∧ n = 0 ∧ f = g := by
    intro d n f here
    cases d with
    | succ d =>
      rw [below] at here
      cases here
    | zero =>
      by_cases first : n = 0
      · rw [tableAt, Radix.node, if_pos first] at here
        exact ⟨rfl, first, (Option.some.inj here).symm⟩
      · rw [tableAt, Radix.node, if_neg first] at here
        cases here
  have tables : ∀ f, IsTable m₂ g f → f = g := by
    rintro f ⟨d, n, -, here⟩
    exact (only d n f here).2.2
  refine ⟨g, gs, rfl, ⟨?_, ?_, ?_, ?_, ?_⟩, fun r mem => List.mem_cons_of_mem g mem, ?_, tables⟩
  · have list : m₂.freelist = m₁.freelist := cleared ▸ rfl
    apply free₁.congr list
    apply keeps.mono
    rintro r mem rfl
    exact (List.nodup_cons.mp free.nodup).1 mem
  · intro d n d' n' p _ _ here here'
    obtain ⟨rfl, rfl, -⟩ := only d n p here
    obtain ⟨rfl, rfl, -⟩ := only d' n' p here'
    exact ⟨rfl, rfl⟩
  · intro f isTable
    rw [tables f isTable]
    exact free.inRam g List.mem_cons_self
  · intro f isTable
    rw [tables f isTable]
    exact (List.nodup_cons.mp free.nodup).1
  · intro d n pte lt there isValid
    have missing : child pte = none := by
      have next : tableAt m₂ g (d + 1) n = (some pte).bind child := by
        rw [tableAt_succ, there]
      rw [below] at next
      exact next.symm
    rw [child_none.mp missing] at isValid
    cases isValid
  · intro v
    exact pteOf_missing (below 1 _)

end Sistemas.Xv6.Vm
