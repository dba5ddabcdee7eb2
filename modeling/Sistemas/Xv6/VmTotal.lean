import Sistemas.Xv6.VmMap

/-! # No page is lost

`kalloc` and `kfree` always end, and `walk` and `mappages` on one page do so below `MAXVA`.  Of the
pages that were free, each is still free afterwards or a page of the table.
-/

namespace Sistemas.Xv6.Vm

variable {kend root f g pa perm u v va level d n : Nat} {fs gs : List Nat} {m m' : Mem}

/-! ## One page -/

theorem kalloc_nil (free : FreeList kend m []) : kalloc m = none := by
  have empty : m.freelist = 0 := free.chain
  rw [kalloc, if_pos empty]

theorem kalloc_cons (low : 0 < kend) (free : FreeList kend m (f :: gs)) :
    ∃ m', kalloc m = some (f * pgsize, m') ∧ FreeList kend m' gs ∧
      m.bytes.Keeps pgsize (· ≠ f) m'.bytes := by
  cases found : kalloc m with
  | none => cases kalloc_none low free found
  | some got =>
    obtain ⟨page, m'⟩ := got
    obtain ⟨f', gs', eq, rfl, free', keeps⟩ := kalloc_some free found
    cases eq
    exact ⟨m', rfl, free', keeps⟩

theorem kfree_ok (free : FreeList kend m fs) (ram : InRam kend f) (new : f ∉ fs) :
    ∃ m', kfree kend (f * pgsize) m = .ok m' ∧ FreeList kend m' (f :: fs) ∧
      m.bytes.Keeps pgsize (· ≠ f) m'.bytes := by
  have inside : ¬ (f * pgsize % pgsize ≠ 0 ∨ f * pgsize < kend ∨ phystop ≤ f * pgsize) := by
    rw [Nat.mul_mod_left]
    have low := ram.1
    have high := ram.2
    omega
  have freed : kfree kend (f * pgsize) m =
      .ok { (m.memset (f * pgsize) 1).store (f * pgsize) m.freelist with
        freelist := f * pgsize } := by
    rw [kfree, if_neg inside]
  obtain ⟨g, same, -, keeps, list⟩ := kfree_spec free freed
  obtain rfl : f = g := Nat.eq_of_mul_eq_mul_right (by decide) same
  exact ⟨_, freed, list new, keeps⟩

/-- Something is written to a page that is not free. -/
theorem FreeList.write (free : FreeList kend m fs) (new : f ∉ fs)
    (same : m'.freelist = m.freelist) (keeps : m.bytes.Keeps pgsize (· ≠ f) m'.bytes) :
    FreeList kend m' fs := by
  apply free.congr same
  apply keeps.mono
  rintro g mem rfl
  exact new mem

/-- A page table with nothing in it. -/
theorem kalloc_table (low : 0 < kend) (free : FreeList kend m (f :: fs)) :
    ∃ m', kalloc m = some (f * pgsize, m') ∧ Tree kend (m'.memset (f * pgsize) 0) f fs ∧
      (∀ v, pteOf (m'.memset (f * pgsize) 0) f v = 0) ∧
      (∀ g, IsTable (m'.memset (f * pgsize) 0) f g ↔ g = f) ∧
      m.bytes.Keeps pgsize (· ≠ f) (m'.memset (f * pgsize) 0).bytes := by
  obtain ⟨m₁, found, free₁, keeps⟩ := kalloc_cons low free
  have created : uvmcreate m = some (f * pgsize, m₁.memset (f * pgsize) 0) := by
    rw [uvmcreate, found]
    rfl
  have free' : FreeList kend (m₁.memset (f * pgsize) 0) fs :=
    free₁.write (List.nodup_cons.mp free.nodup).1 rfl (keeps_memset m₁ f 0)
  obtain ⟨g, gs, address, tree, -, ptes, only⟩ := uvmcreate_spec free created
  obtain rfl : f = g := Nat.eq_of_mul_eq_mul_right (by decide) address
  obtain rfl : gs = fs := tree.free.unique low free'
  refine ⟨m₁, found, tree, ptes, fun g => ⟨only g, ?_⟩, keeps.trans (keeps_memset m₁ f 0)⟩
  rintro rfl
  exact isTable (Nat.zero_le 2) (n := 0) rfl

/-! ## Pages of the table -/

/-- The page that is put in is the first of the free ones. -/
theorem Tree.graft_list {page : Nat} {m₁ : Mem} (low : 0 < kend) (tree : Tree kend m root fs)
    (small : d < 2) (here : tableAt m root d (n / 512) = some f)
    (found : kalloc m = some (page, m₁))
    (stored : (m₁.memset page 0).store (f * pgsize + 8 * (n % 512)) (pa2pte page ||| pteV) = m')
    (grown : FreeList kend m' gs) : ∃ g, page = g * pgsize ∧ fs = g :: gs := by
  obtain ⟨g, gs', rfl, rfl, free, -⟩ := kalloc_some tree.free found
  have inTable : IsTable m root f := isTable (Nat.le_of_lt small) here
  have notF : f ∉ gs' := fun mem => tree.notFree f inTable (List.mem_cons_of_mem g mem)
  have cleared := (free.write (List.nodup_cons.mp tree.free.nodup).1 rfl (keeps_memset m₁ g 0) :
    FreeList kend (m₁.memset (g * pgsize) 0) gs')
  have written : FreeList kend m' gs' := by
    apply cleared.write notF (stored ▸ rfl)
    exact stored ▸ keeps_store_word _ (Nat.mod_lt n (by decide)) _
  exact ⟨g, rfl, by rw [grown.unique low written]⟩

/-- What becomes of the pages that were free when `walk` puts in pages. -/
structure Account (m m' : Mem) (root va level : Nat) (fs gs : List Nat) (r : Option Nat) : Prop where
  kept : ∀ g ∈ fs, g ∈ gs ∨ IsTable m' root g
  stuck : r = none → gs = []
  few : fs.length ≤ gs.length + level
  same : tableAt m root 2 (vpn 1 va) ≠ none → gs = fs

theorem walkLoop_account {r : Option Nat} (low : 0 < kend) (tree : Tree kend m root fs)
    (sum : level + d = 2) (here : tableAt m root d (vpn (level + 1) va) = some f)
    (ran : walkLoop true va level (f * pgsize) m = (r, m')) (free : FreeList kend m' gs) :
    Account m m' root va level fs gs r := by
  induction level generalizing d f m fs with
  | zero =>
    rw [walkLoop] at ran
    cases ran
    rw [free.unique low tree.free]
    exact ⟨fun g mem => .inl mem, fun no => (by cases no), Nat.le_add_right _ _, fun _ => rfl⟩
  | succ level ih =>
    have entry := load_entry here
    have below : tableAt m root (d + 1) (vpn (level + 1) va) =
        child (m.load (f * pgsize + 8 * px (level + 1) va)) := by
      rw [tableAt_succ, entry]
      rfl
    rw [walkLoop] at ran
    by_cases isValid : valid (m.load (f * pgsize + 8 * px (level + 1) va)) = true
    · rw [child_eq isValid] at below
      rw [if_pos isValid, tree.pte2pa (isTable (by omega) below)] at ran
      have account := ih tree (by omega) below ran
      exact ⟨account.kept, account.stuck, by have := account.few; omega, account.same⟩
    · rw [child_none.mpr (Bool.not_eq_true _ ▸ isValid)] at below
      have missing := tableAt_none (by omega) below
      rw [if_neg isValid, if_pos rfl] at ran
      cases found : kalloc m with
      | none =>
        rw [found] at ran
        cases ran
        rw [free.unique low tree.free]
        exact ⟨fun g mem => .inl mem, fun _ => kalloc_none low tree.free found,
          Nat.le_add_right _ _, fun _ => rfl⟩
      | some got =>
        rw [found] at ran
        rw [vpn_succ] at here
        have unset : valid (m.load (f * pgsize + 8 * (vpn (level + 1) va % 512))) = false :=
          Bool.not_eq_true _ ▸ isValid
        obtain ⟨g, gs', page, grown, there⟩ := tree.graft (by omega) here unset found rfl
        obtain ⟨g', page', rfl⟩ := tree.graft_list low (by omega) here found rfl grown.tree.free
        obtain rfl : g = g' := Nat.eq_of_mul_eq_mul_right (by decide) (page.symm.trans page')
        simp only [px_eq] at ran
        rw [page] at ran grown there
        have account := ih grown.tree (by omega) there ran
        refine ⟨fun h mem => ?_, account.stuck, ?_, fun no => absurd missing no⟩
        · cases mem with
          | head =>
            -- the new page is a page of the table from now on
            obtain ⟨hs, later, -⟩ := walkLoop_alloc grown.tree (by omega) there ran
            exact .inr (isTable (by omega) (later.table _ _ _ (by omega) there))
          | tail _ mem => exact account.kept h mem
        · have few := account.few
          rw [List.length_cons]
          omega

/-- `walk` with `alloc`: the entry, or nothing if no page is left. -/
theorem walk_grow (low : 0 < kend) (tree : Tree kend m root fs) (lt : va < maxva) :
    ∃ r m' gs, walk (root * pgsize) va true m = .ok (r, m') ∧
      Edited kend m m' root fs gs (pteOf m root) ∧ Account m m' root va 2 fs gs r ∧
      ∀ pte, r = some pte →
        ∃ g, tableAt m' root 2 (vpn 1 va) = some g ∧ pte = g * pgsize + 8 * px 0 va := by
  cases ran : walkLoop true va 2 (root * pgsize) m with
  | mk r m' =>
    obtain ⟨gs, edited, found⟩ := walkLoop_alloc tree rfl (root_table lt) ran
    have account := walkLoop_account low tree rfl (root_table lt) ran edited.tree.free
    refine ⟨r, m', gs, ?_, edited, account, found⟩
    rw [walk, if_neg (by omega), ran]

/-! ## Mapping -/

/-- The entries when the first `n` pages from `v` on are mapped. -/
def mappedFirst (ptes : Nat → Nat) (v n pa perm : Nat) (w : Nat) : Nat :=
  if v ≤ w ∧ w < v + n then mkPte (frameAt pa (w - v)) perm else ptes w

theorem mappedFirst_zero (ptes : Nat → Nat) : mappedFirst ptes v 0 pa perm = ptes := by
  funext w
  rw [mappedFirst, if_neg (by omega)]

theorem mappedFirst_succ (ptes : Nat → Nat) (paLt : pa < 2 ^ 64) :
    mappedFirst ptes v (n + 1) pa perm =
      mappedFirst (fun w => if w = v then mkPte (pa / pgsize) perm else ptes w) (v + 1) n
        ((pa + pgsize) % 2 ^ 64) perm := by
  funext w
  rw [mappedFirst, mappedFirst]
  by_cases later : v + 1 ≤ w ∧ w < v + 1 + n
  · rw [if_pos later, if_pos (by omega), frameAt_succ]
    congr 2
    omega
  · rw [if_neg later]
    by_cases same : w = v
    · rw [if_pos (by omega), if_pos same, same, Nat.sub_self, frameAt_zero paLt]
    · rw [if_neg (by omega), if_neg same]

/-- The pages of the table that may be missing for the page `v`. -/
def missing (m : Mem) (root v : Nat) : Nat := if tableAt m root 2 (v / 512) = none then 2 else 0

/-- One turn of the loop: no page is left for the table, or the page `v` is mapped. -/
structure Turn (kend : Nat) (m m' : Mem) (root : Nat) (fs gs : List Nat) (v last pa perm : Nat) :
    Prop where
  kept : ∀ g ∈ fs, g ∈ gs ∨ IsTable m' root g
  few : fs.length ≤ gs.length + missing m root v
  ran :
    (gs = [] ∧ mapLoop (root * pgsize) last perm (v * pgsize) pa m = .ok (false, m') ∧
      Edited kend m m' root fs gs (pteOf m root)) ∨
    (tableAt m' root 2 (v / 512) ≠ none ∧
      mapLoop (root * pgsize) last perm (v * pgsize) pa m =
        (if v * pgsize = last then .ok (true, m')
        else mapLoop (root * pgsize) last perm ((v + 1) * pgsize) ((pa + pgsize) % 2 ^ 64) m') ∧
      Edited kend m m' root fs gs
        (fun w => if w = v then mkPte (pa / pgsize) perm else pteOf m root w))

theorem mapLoop_turn (low : 0 < kend) (tree : Tree kend m root fs) (lt : v * pgsize < maxva)
    (unset : valid (pteOf m root v) = false) (paLt : pa < 2 ^ 64) (flags : perm < 1024)
    (last : Nat) : ∃ m' gs, Turn kend m m' root fs gs v last pa perm := by
  obtain ⟨r, m₁, gs, walked, edited, ⟨kept, stuck, few, same⟩, found⟩ := walk_grow low tree lt
  rw [vpn_one_page] at same found
  have few' : fs.length ≤ gs.length + missing m root v := by
    rw [missing]
    split
    · exact few
    next there => exact (congrArg List.length (same there)).ge
  cases r with
  | none =>
    refine ⟨m₁, gs, kept, few', .inl ⟨stuck rfl, ?_, edited⟩⟩
    rw [mapLoop]
    split
    next e no =>
      rw [walked] at no
      cases no
    next m₂ none =>
      rw [walked] at none
      cases none
      rfl
    next pte m₂ some =>
      rw [walked] at some
      cases some
  | some pte =>
    obtain ⟨g, here, rfl⟩ := found pte rfl
    rw [px_page] at walked
    generalize stored : m₁.store (g * pgsize + 8 * (v % 512)) (mkPte (pa / pgsize) perm) = m₂
    have small : mkPte (pa / pgsize) perm < 2 ^ 64 := mkPte_lt flags (page_lt paLt)
    obtain ⟨set, nodes⟩ := edited.tree.set here small stored
    rw [funext edited.pte] at set
    refine ⟨m₂, gs, fun h mem => ?_, few', .inr ⟨?_, ?_, edited.trans set⟩⟩
    · cases kept h mem with
      | inl free => exact .inl free
      | inr table =>
        obtain ⟨d, n, le, there⟩ := table
        exact .inr (isTable le ((nodes d n le).trans there))
    · rw [nodes 2 _ le_rfl, here]
      exact Option.some_ne_none g
    · rw [mapLoop]
      split
      next e no =>
        rw [walked] at no
        cases no
      next m₃ none =>
        rw [walked] at none
        cases none
      next pte m₃ some =>
        rw [walked] at some
        cases some
        rw [load_pte here, edited.pte v, unset, if_neg Bool.false_ne_true, pa2pte_page, stored,
          Nat.succ_mul]

/-- What becomes of the table and the pages that were free when the pages from `v` to `u` are
mapped; `done` says whether there was memory for all. -/
structure Mapping (kend : Nat) (m m' : Mem) (root : Nat) (fs gs : List Nat) (v u pa perm : Nat)
    (done : Bool) : Prop where
  edited : ∃ n, v + n ≤ u + 1 ∧ (done = true ↔ v + n = u + 1) ∧
    Edited kend m m' root fs gs (mappedFirst (pteOf m root) v n pa perm)
  kept : ∀ g ∈ fs, g ∈ gs ∨ IsTable m' root g
  stuck : done = false → gs = []
  few : fs.length ≤ gs.length + (2 * (u / 512 - v / 512) + missing m root v)

/-- Pages are mapped where none were, if there are pages for the table. -/
theorem mapLoop_ok (low : 0 < kend) (tree : Tree kend m root fs)
    (lt : (v + n) * pgsize < maxva)
    (unset : ∀ w, v ≤ w → w ≤ v + n → valid (pteOf m root w) = false)
    (paLt : pa < 2 ^ 64) (flags : perm < 1024) :
    ∃ done m' gs,
      mapLoop (root * pgsize) ((v + n) * pgsize) perm (v * pgsize) pa m = .ok (done, m') ∧
      Mapping kend m m' root fs gs v (v + n) pa perm done := by
  induction n generalizing v pa m fs with
  | zero =>
    rw [Nat.add_zero] at lt ⊢
    obtain ⟨m', gs, kept, few, none | ⟨-, ran, edited⟩⟩ :=
      mapLoop_turn low tree lt (unset v le_rfl le_rfl) paLt flags (v * pgsize)
    · obtain ⟨empty, ran, edited⟩ := none
      rw [← mappedFirst_zero (pteOf m root)] at edited
      have notAll : false = true ↔ v + 0 = v + 1 := iff_of_false Bool.false_ne_true (by omega)
      exact ⟨false, m', gs, ran, ⟨0, by omega, notAll, edited⟩, kept, fun _ => empty, by omega⟩
    · rw [if_pos rfl] at ran
      rw [← mappedFirst_zero (fun w => if w = v then _ else _), ← mappedFirst_succ _ paLt] at edited
      exact ⟨true, m', gs, ran, ⟨1, le_rfl, iff_of_true rfl rfl, edited⟩, kept,
        fun no => (by cases no), by omega⟩
  | succ n ih =>
    have le : v * pgsize ≤ (v + (n + 1)) * pgsize := Nat.mul_le_mul_right _ (by omega)
    obtain ⟨m₁, gs, kept, few, none | ⟨there, ran, edited⟩⟩ := mapLoop_turn low tree
      (le.trans_lt lt) (unset v le_rfl (by omega)) paLt flags ((v + (n + 1)) * pgsize)
    · obtain ⟨empty, ran, edited⟩ := none
      rw [← mappedFirst_zero (pteOf m root)] at edited
      have notAll : false = true ↔ v + 0 = v + (n + 1) + 1 :=
        iff_of_false Bool.false_ne_true (by omega)
      exact ⟨false, m₁, gs, ran, ⟨0, by omega, notAll, edited⟩, kept, fun _ => empty, by omega⟩
    · have sum : v + (n + 1) = v + 1 + n := by omega
      have more : v * pgsize ≠ (v + 1 + n) * pgsize := by
        unfold pgsize
        omega
      rw [sum] at ran lt ⊢
      rw [if_neg more] at ran
      have unset₁ : ∀ w, v + 1 ≤ w → w ≤ v + 1 + n → valid (pteOf m₁ root w) = false := by
        intro w ge le
        rw [edited.pte w, if_neg (by omega), unset w (by omega) (by omega)]
      have paLt₁ : (pa + pgsize) % 2 ^ 64 < 2 ^ 64 := Nat.mod_lt _ (by decide)
      obtain ⟨done, m', hs, ran', ⟨k, le', all, edited'⟩, kept', stuck', few'⟩ :=
        ih edited.tree lt unset₁ paLt₁
      rw [funext edited.pte, ← mappedFirst_succ _ paLt] at edited'
      refine ⟨done, m', hs, ran.trans ran', ⟨k + 1, by omega, ?_, edited.trans edited'⟩, ?_,
        stuck', ?_⟩
      · rw [all]
        omega
      · intro g mem
        cases kept g mem with
        | inl free => exact kept' g free
        | inr table =>
          obtain ⟨d, n, le, there⟩ := table
          exact .inr (isTable le (edited'.table d n g le there))
      · -- the next page may be the first one of another page of the table
        have next : missing m₁ root (v + 1) ≤ 2 * ((v + 1) / 512 - v / 512) := by
          by_cases same : (v + 1) / 512 = v / 512
          · rw [missing, same, if_neg there]
            exact Nat.zero_le _
          · rw [missing]
            split <;> omega
        omega

theorem mappages_ok {size : Nat} (low : 0 < kend) (tree : Tree kend m root fs) (pos : 0 < size)
    (fits : v * pgsize + size ≤ maxva)
    (unset : ∀ w, v ≤ w → w ≤ lastPage v size → valid (pteOf m root w) = false)
    (paLt : pa < 2 ^ 64) (flags : perm < 1024) :
    ∃ done m' gs, mappages (root * pgsize) (v * pgsize) size pa perm m = .ok (done, m') ∧
      Mapping kend m m' root fs gs v (lastPage v size) pa perm done := by
  have lt : lastPage v size * pgsize < maxva := by
    have whole := Nat.div_mul_le_self (size - 1) pgsize
    rw [lastPage, Nat.add_mul]
    omega
  rw [mappages_eq pos fits]
  exact mapLoop_ok low tree lt unset paLt flags

/-- One page is mapped where none was, if there are pages for the table. -/
theorem mappages_page (low : 0 < kend) (tree : Tree kend m root fs)
    (lt : v * pgsize < maxva) (unset : valid (pteOf m root v) = false) (paLt : pa < 2 ^ 64)
    (flags : perm < 1024) :
    ∃ done m' gs, mappages (root * pgsize) (v * pgsize) pgsize pa perm m = .ok (done, m') ∧
      Edited kend m m' root fs gs (fun w =>
        if done = true ∧ w = v then mkPte (pa / pgsize) perm else pteOf m root w) ∧
      (∀ g ∈ fs, g ∈ gs ∨ IsTable m' root g) ∧ (done = false → gs = []) ∧
      fs.length ≤ gs.length + 2 := by
  have fits : v * pgsize + pgsize ≤ maxva := by
    unfold maxva pgsize at *
    omega
  have one : ∀ w, v ≤ w → w ≤ lastPage v pgsize → valid (pteOf m root w) = false := by
    intro w ge (le : w ≤ v)
    obtain rfl : w = v := le_antisymm le ge
    exact unset
  obtain ⟨done, m', gs, ran, ⟨n, le, all, edited⟩, kept, stuck, few⟩ :=
    mappages_ok low tree (by decide) fits one paLt flags
  refine ⟨done, m', gs, ran, ?_, kept, stuck, ?_⟩
  · have eq : mappedFirst (pteOf m root) v n pa perm = fun w =>
        if done = true ∧ w = v then mkPte (pa / pgsize) perm else pteOf m root w := by
      funext w
      have last : lastPage v pgsize = v := rfl
      rw [last] at le all
      rw [mappedFirst]
      by_cases here : done = true ∧ w = v
      · have one := all.mp here.1
        rw [if_pos here, if_pos (by omega), here.2, Nat.sub_self, frameAt_zero paLt]
      · rw [if_neg here, if_neg (by rw [all] at here; omega)]
    rw [eq] at edited
    exact edited
  · have cost : missing m root v ≤ 2 := by
      rw [missing]
      split <;> omega
    have last : lastPage v pgsize = v := rfl
    rw [last] at few
    omega

/-! ## Unmapping -/

/-- `uvmunmap` finds a leaf for each page, and gives back pages of the machine. -/
structure Leaves (kend : Nat) (m : Mem) (root v n : Nat) (doFree : Bool) : Prop where
  leaf : ∀ w, v ≤ w → w < v + n → valid (pteOf m root w) = true ∧ pteFlags (pteOf m root w) ≠ pteV
  inRam : doFree = true → ∀ w, v ≤ w → w < v + n → InRam kend (pteFrame (pteOf m root w))

/-- The page that is given back is not free and not mapped again. -/
theorem freeIf_ok {doFree : Bool} {pte : Nat} (tree : Tree kend m root fs)
    (ram : doFree = true → InRam kend (pteFrame pte) ∧ pteFrame pte ∉ fs) :
    ∃ m', freeIf kend doFree (pte2pa pte) m = .ok m' := by
  cases doFree with
  | false => exact ⟨m, rfl⟩
  | true =>
    obtain ⟨inRam, new⟩ := ram rfl
    have small := inRam.lt
    rw [freeIf, if_pos rfl, pte2pa_eq (by omega)]
    obtain ⟨m', freed, -⟩ := kfree_ok tree.free inRam new
    exact ⟨m', freed⟩

theorem unmapLoop_ok {doFree : Bool} (tree : Tree kend m root fs)
    (fits : (v + n) * pgsize ≤ maxva) (leaves : Leaves kend m root v n doFree)
    (owned : doFree = true → Owned m root fs v n) :
    ∃ m', unmapLoop kend (root * pgsize) doFree ((v + n) * pgsize) (v * pgsize) m = .ok m' := by
  induction n generalizing v m fs with
  | zero =>
    refine ⟨m, ?_⟩
    rw [Nat.add_zero, unmapLoop, dif_neg (Nat.lt_irrefl _)]
  | succ n ih =>
    have more : v * pgsize < (v + (n + 1)) * pgsize :=
      Nat.mul_lt_mul_of_pos_right (by omega) (by decide)
    obtain ⟨isValid, isLeaf⟩ := leaves.leaf v le_rfl (by omega)
    have page : doFree = true → pteFrame (pteOf m root v) < 2 ^ 52 ∧
        pteFrame (pteOf m root v) ∉ fs ∧ ¬ IsTable m root (pteFrame (pteOf m root v)) :=
      fun isFree => (owned isFree).page v le_rfl (by omega) isValid
    cases here : tableAt m root 2 (v / 512) with
    | none =>
      rw [pteOf_missing here] at isValid
      cases isValid
    | some g =>
      obtain ⟨m₂, freed⟩ := @freeIf_ok kend root fs m doFree (pteOf m root v) tree
        fun isFree => ⟨leaves.inRam isFree v le_rfl (by omega), (page isFree).2.1⟩
      obtain ⟨tree₂, nodes₂, ptes₂, -⟩ := free_page tree page freed
      generalize stored : m₂.store (g * pgsize + 8 * (v % 512)) 0 = m₃
      obtain ⟨edited, nodes₃⟩ := tree₂.set ((nodes₂ 2 _ le_rfl).trans here) (by decide) stored
      have same : ∀ w, v + 1 ≤ w → pteOf m₃ root w = pteOf m root w := by
        intro w ge
        rw [edited.pte w, if_neg (by omega), ptes₂ w]
      have tables : ∀ r, IsTable m₃ root r → IsTable m root r := by
        rintro r ⟨d, i, le, there⟩
        exact isTable le (((nodes₃ d i le).trans (nodes₂ d i le)).symm.trans there)
      have sum : v + (n + 1) = v + 1 + n := by omega
      have leaves₃ : Leaves kend m₃ root (v + 1) n doFree := by
        refine ⟨fun w ge lt => ?_, fun isFree w ge lt => ?_⟩
        · rw [same w ge]
          exact leaves.leaf w (by omega) (by omega)
        · rw [same w ge]
          exact leaves.inRam isFree w (by omega) (by omega)
      obtain ⟨m', ran⟩ := ih edited.tree (sum ▸ fits) leaves₃ fun isFree => by
        have own := owned isFree
        refine ⟨fun w ge lt isValid' => ?_, fun w w' ge lt ge' lt' valid₁ valid₂ eq => ?_⟩
        · rw [same w ge] at isValid' ⊢
          obtain ⟨small, notFree, notTable⟩ := own.page w (by omega) (by omega) isValid'
          refine ⟨small, ?_, fun isTable => notTable (tables _ isTable)⟩
          rw [isFree, if_pos rfl, List.singleton_append, List.mem_cons, not_or]
          refine ⟨fun eq => ?_, notFree⟩
          have := own.once w v (by omega) (by omega) le_rfl (by omega) isValid' isValid eq
          omega
        · rw [same w ge] at valid₁ eq
          rw [same w' ge'] at valid₂ eq
          exact own.once w w' (by omega) (by omega) (by omega) (by omega) valid₁ valid₂ eq
      refine ⟨m', ?_⟩
      rw [unmapLoop, dif_pos more, walk_page tree (by omega), here]
      dsimp only [Option.map_some, bind, Except.bind]
      rw [load_pte here, isValid, if_neg (by simp), if_neg isLeaf, freed]
      dsimp only
      rw [stored, ← Nat.succ_mul, sum]
      exact ran

theorem uvmunmap_ok {doFree : Bool} (tree : Tree kend m root fs)
    (fits : (v + n) * pgsize ≤ maxva) (leaves : Leaves kend m root v n doFree)
    (owned : doFree = true → Owned m root fs v n) :
    ∃ m', uvmunmap kend (root * pgsize) (v * pgsize) n doFree m = .ok m' ∧
      Unmapped kend m m' root fs doFree v n := by
  obtain ⟨m', ran⟩ := unmapLoop_ok tree fits leaves owned
  have limit : (v * pgsize + n * pgsize) % 2 ^ 64 = (v + n) * pgsize := by
    rw [← Nat.add_mul]
    apply Nat.mod_eq_of_lt
    unfold maxva at fits
    omega
  refine ⟨m', ?_, unmapLoop_spec tree fits owned ran⟩
  rw [uvmunmap, if_neg (not_not.mpr (Nat.mul_mod_left v pgsize)), limit, ran]

end Sistemas.Xv6.Vm
