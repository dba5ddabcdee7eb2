import Sistemas.Xv6.VmLoops

/-! # A page table is a finite map

`Map` says what a page table is for: a map from page numbers to physical pages and flags.  Every
page table that `uvmcreate` made is such a map, and `mappages`, `uvmunmap` and `uvmclear` update it
(`page_table_refines`).

Between the calls the rest of the kernel and the process itself run.  They leave the pages of the
table alone, and free none of the pages that it maps.
-/

namespace Sistemas.Xv6.Vm

/-! ## The map -/

/-- The physical page and the flags of each page that is mapped. -/
abbrev Map := Nat → Option (Nat × Nat)

namespace Map

def empty : Map := fun _ => none

/-- The pages from `v` to `u` are mapped to the memory at `pa`. -/
def map (M : Map) (v u pa perm : Nat) : Map := fun w =>
  if v ≤ w ∧ w ≤ u then some (frameAt pa (w - v), perm ||| pteV) else M w

def unmap (M : Map) (v n : Nat) : Map := fun w => if v ≤ w ∧ w < v + n then none else M w

def clear (M : Map) (v : Nat) : Map :=
  Function.update M v ((M v).map fun page => (page.1, clearUser page.2))

end Map

/-- What `walk` finds for page `v`. -/
def translation (m : Mem) (pagetable v : Nat) : Option (Nat × Nat) :=
  match walk pagetable (v * pgsize) false m with
  | .ok (some pte, m) =>
    if valid (m.load pte) then some (pteFrame (m.load pte), pteFlags (m.load pte)) else none
  | _ => none

/-! ## Calls -/

inductive Call
  | mappages (v size pa perm : Nat)
  | uvmunmap (v npages : Nat) (doFree : Bool)
  | uvmclear (v : Nat)

/-- The call on the page at address `v * PGSIZE`; `false` stands for `-1`. -/
def Call.perform (kend pagetable : Nat) (m : Mem) : Call → Except Panic (Bool × Mem)
  | .mappages v size pa perm => Vm.mappages pagetable (v * pgsize) size pa perm m
  | .uvmunmap v npages doFree =>
    (Vm.uvmunmap kend pagetable (v * pgsize) npages doFree m).map fun m => (true, m)
  | .uvmclear v => (Vm.uvmclear pagetable (v * pgsize) m).map fun m => (true, m)

def Call.apply (M : Map) : Call → Map
  | .mappages v size pa perm => M.map v (lastPage v size) pa perm
  | .uvmunmap v npages _ => M.unmap v npages
  | .uvmclear v => M.clear v

/-- The pages that the call is about. -/
def Call.pages : Call → Nat → Prop
  | .mappages v size _ _, w => v ≤ w ∧ w ≤ lastPage v size
  | .uvmunmap v npages _, w => v ≤ w ∧ w < v + npages
  | .uvmclear v, w => w = v

def Free (kend : Nat) (m : Mem) (f : Nat) : Prop := ∃ fs, FreeList kend m fs ∧ f ∈ fs

/-- What the callers see to: the addresses are user addresses, the memory that is mapped is not
free and no page table, and a page that is given back is not mapped elsewhere. -/
def Call.Allowed (kend : Nat) (m : Mem) (root : Nat) (M : Map) : Call → Prop
  | .mappages v size pa perm => v * pgsize + size ≤ maxva ∧ pa < 2 ^ 64 ∧ perm < 1024 ∧
      ∀ w, v ≤ w → w ≤ lastPage v size →
        ¬ Free kend m (frameAt pa (w - v)) ∧ ¬ IsTable m root (frameAt pa (w - v))
  | .uvmunmap v npages doFree => (v + npages) * pgsize ≤ maxva ∧
      (doFree = true → ∀ w, v ≤ w → w < v + npages → ∀ w' page page', M w = some page →
        M w' = some page' → page.1 = page'.1 → w = w')
  | .uvmclear _ => True

/-- The others leave the table alone. -/
structure Elsewhere (kend : Nat) (m m' : Mem) (root : Nat) (M : Map) : Prop where
  keeps : m.bytes.Keeps pgsize (IsTable m root) m'.bytes
  free : ∃ fs, FreeList kend m' fs
  table : ∀ f, IsTable m root f → ¬ Free kend m' f
  mapped : ∀ v page, M v = some page → ¬ Free kend m' page.1

/-- The page tables with their maps, from `uvmcreate` on. -/
inductive Built (kend : Nat) : Mem → Nat → Map → Prop
  | uvmcreate {m m' : Mem} {fs : List Nat} {root : Nat} (free : FreeList kend m fs)
      (created : uvmcreate m = some (root * pgsize, m')) : Built kend m' root .empty
  | call {m m' : Mem} {root : Nat} {M : Map} (built : Built kend m root M) (c : Call)
      (allowed : c.Allowed kend m root M)
      (done : c.perform kend (root * pgsize) m = .ok (true, m')) : Built kend m' root (c.apply M)
  | others {m m' : Mem} {root : Nat} {M : Map} (built : Built kend m root M)
      (elsewhere : Elsewhere kend m m' root M) : Built kend m' root M

/-! ## The invariant -/

/-- The map that the entries are. -/
def mapOf (ptes : Nat → Nat) : Map := fun v =>
  if valid (ptes v) then some (pteFrame (ptes v), pteFlags (ptes v)) else none

structure Represents (kend : Nat) (m : Mem) (root : Nat) (M : Map) (fs : List Nat) : Prop where
  tree : Tree kend m root fs
  map : mapOf (pteOf m root) = M
  unset : ∀ v, valid (pteOf m root v) = false → pteOf m root v = 0
  page : ∀ v page, M v = some page →
    page.1 < 2 ^ 52 ∧ page.1 ∉ fs ∧ ¬ IsTable m root page.1
  user : ∀ v page, M v = some page → v < maxva / pgsize

variable {kend root f g pa perm u v va : Nat} {fs gs : List Nat} {m m' : Mem} {M : Map}

theorem not_mem_of_not_free (tree : Tree kend m root fs) (notFree : ¬ Free kend m f) : f ∉ fs :=
  fun mem => notFree ⟨fs, tree.free, mem⟩

theorem mapOf_valid {ptes : Nat → Nat} (isValid : valid (ptes v) = true) :
    mapOf ptes v = some (pteFrame (ptes v), pteFlags (ptes v)) := if_pos isValid

theorem mapOf_some {ptes : Nat → Nat} {page : Nat × Nat} (eq : mapOf ptes v = some page) :
    valid (ptes v) = true ∧ page = (pteFrame (ptes v), pteFlags (ptes v)) := by
  rw [mapOf] at eq
  split at eq
  next isValid => exact ⟨isValid, (Option.some.inj eq).symm⟩
  next => cases eq

theorem mapOf_congr {ptes ptes' : Nat → Nat} (same : ptes' v = ptes v) :
    mapOf ptes' v = mapOf ptes v := by
  rw [mapOf, mapOf, same]

/-- The entry of a page, and the map there. -/
theorem Represents.mapOf (rep : Represents kend m root M fs)
    (isValid : valid (pteOf m root v) = true) :
    M v = some (pteFrame (pteOf m root v), pteFlags (pteOf m root v)) := by
  rw [← rep.map, mapOf_valid isValid]

theorem page_user (lt : v * pgsize < maxva) : v < maxva / pgsize :=
  (Nat.lt_div_iff_mul_lt' (by decide) v).mpr (by rwa [Nat.mul_comm])

theorem user_page (lt : v < maxva / pgsize) : v * pgsize < maxva := by
  have := (Nat.lt_div_iff_mul_lt' (by decide) v).mp lt
  rwa [Nat.mul_comm] at this

/-! ## What `walk` finds -/

theorem Represents.translation_eq (rep : Represents kend m root M fs) (lt : v < maxva / pgsize) :
    translation m (root * pgsize) v = M v := by
  rw [translation, walk_page rep.tree (user_page lt), ← rep.map]
  cases here : tableAt m root 2 (v / 512) with
  | none =>
    have missing : Vm.mapOf (pteOf m root) v = none := by
      rw [Vm.mapOf, pteOf_missing here]
      rfl
    rw [missing]
    rfl
  | some g =>
    dsimp only [Option.map_some]
    rw [load_pte here]
    rfl

/-- The page of an address that the process may use. -/
theorem Represents.walkaddr_eq (rep : Represents kend m root M fs) (lt : va < maxva) :
    walkaddr (root * pgsize) va m =
      (M (va / pgsize)).bind fun page =>
        if page.2.testBit 4 then some (page.1 * pgsize) else none := by
  have loop := walkLoop_find rep.tree rfl (root_table lt)
  have first : vpn 1 va = va / pgsize / 512 := by rw [vpn_succ, vpn_zero]
  have index : px 0 va = va / pgsize % 512 := by rw [px_eq, vpn_zero]
  rw [walkaddr, if_neg (by omega), loop, first, index]
  cases here : tableAt m root 2 (va / pgsize / 512) with
  | none =>
    have missing : M (va / pgsize) = none := by
      rw [← rep.map, Vm.mapOf, pteOf_missing here]
      rfl
    rw [missing]
    rfl
  | some g =>
    dsimp only [Option.map_some]
    rw [load_pte here]
    cases isValid : valid (pteOf m root (va / pgsize)) with
    | false =>
      have missing : M (va / pgsize) = none := by
        rw [← rep.map, Vm.mapOf, isValid]
        rfl
      rw [missing]
      rfl
    | true =>
      have mapped := rep.mapOf isValid
      have frame := (rep.page _ _ mapped).1
      rw [mapped, Option.bind_some, flags_testBit (by decide), pte2pa_eq frame]
      rw [if_neg (by simp), Vm.user]
      cases (pteOf m root (va / pgsize)).testBit 4 <;> rfl

/-! ## One call -/

/-- The entries change, and with them the map. -/
theorem Edited.represents {ptes : Nat → Nat} {M' : Map}
    (edited : Edited kend m m' root fs gs ptes) (map : Vm.mapOf ptes = M')
    (unset : ∀ v, valid (ptes v) = false → ptes v = 0)
    (page : ∀ v page, M' v = some page → v < maxva / pgsize ∧
      page.1 < 2 ^ 52 ∧ page.1 ∉ fs ∧ ¬ IsTable m root page.1) : Represents kend m' root M' gs where
  tree := edited.tree
  map := by
    rw [funext edited.pte]
    exact map
  unset v none := by
    rw [edited.pte v] at none ⊢
    exact unset v none
  page v got mapped := by
    obtain ⟨-, small, notFree, notTable⟩ := page v got mapped
    refine ⟨small, fun mem => notFree (edited.sub mem), fun isTable => ?_⟩
    cases edited.new _ isTable with
    | inl old => exact notTable old
    | inr mem => exact notFree mem
  user v got mapped := (page v got mapped).1

theorem Represents.mappages {size : Nat} (rep : Represents kend m root M fs)
    (allowed : (Call.mappages v size pa perm).Allowed kend m root M)
    (done : Vm.mappages (root * pgsize) (v * pgsize) size pa perm m = .ok (true, m')) :
    ∃ gs, Represents kend m' root (M.map v (lastPage v size) pa perm) gs := by
  obtain ⟨fits, paLt, flags, owned⟩ := allowed
  have pos : size ≠ 0 := by
    rintro rfl
    cases done
  obtain ⟨gs, edited⟩ := mappages_spec rep.tree paLt flags fits done
  refine ⟨gs, edited.represents ?_ ?_ ?_⟩
  · funext w
    rw [Vm.mapOf, mapped, Map.map]
    by_cases inside : v ≤ w ∧ w ≤ lastPage v size
    · rw [if_pos inside, if_pos inside, if_pos mkPte_valid, mkPte_frame flags, mkPte_flags flags]
    · rw [if_neg inside, if_neg inside, ← rep.map]
      rfl
  · intro w none
    rw [mapped] at none ⊢
    split at none
    · rw [mkPte_valid] at none
      cases none
    next outside =>
      rw [if_neg outside]
      exact rep.unset w none
  · intro w page eq
    rw [Map.map] at eq
    split at eq
    next inside =>
      cases eq
      obtain ⟨notFree, notTable⟩ := owned w inside.1 inside.2
      refine ⟨page_user ?_, frameAt_lt _, not_mem_of_not_free rep.tree notFree, notTable⟩
      have last := inside.2
      have whole := Nat.div_mul_le_self (size - 1) pgsize
      have le : w * pgsize ≤ lastPage v size * pgsize := Nat.mul_le_mul_right _ last
      rw [lastPage, Nat.add_mul] at le
      omega
    next => exact ⟨rep.user w page eq, rep.page w page eq⟩

theorem Represents.uvmunmap {n : Nat} {doFree : Bool} (rep : Represents kend m root M fs)
    (allowed : (Call.uvmunmap v n doFree).Allowed kend m root M)
    (done : Vm.uvmunmap kend (root * pgsize) (v * pgsize) n doFree m = .ok m') :
    ∃ gs, Represents kend m' root (M.unmap v n) gs := by
  obtain ⟨fits, once⟩ := allowed
  have owned : doFree = true → Owned m root fs v n := by
    intro isFree
    refine ⟨fun w _ _ isValid => rep.page w _ (rep.mapOf isValid), ?_⟩
    intro w w' ge lt _ _ isValid isValid' same
    exact once isFree w ge lt w' _ _ (rep.mapOf isValid) (rep.mapOf isValid') same
  have unmapped := uvmunmap_spec rep.tree fits owned done
  have tables : ∀ f, IsTable m' root f → IsTable m root f := by
    rintro f ⟨d, i, le, there⟩
    exact isTable le ((unmapped.table d i le).symm.trans there)
  refine ⟨_, unmapped.tree, ?_, ?_, ?_, ?_⟩
  · funext w
    rw [Vm.mapOf, unmapped.pte w, Map.unmap]
    by_cases inside : v ≤ w ∧ w < v + n
    · rw [if_pos inside, if_pos inside]
      rfl
    · rw [if_neg inside, if_neg inside, ← rep.map]
      rfl
  · intro w none
    rw [unmapped.pte w] at none ⊢
    split at none
    next inside => rw [if_pos inside]
    next outside =>
      rw [if_neg outside]
      exact rep.unset w none
  · intro w page eq
    rw [Map.unmap] at eq
    split at eq
    · cases eq
    next outside =>
      obtain ⟨small, notFree, notTable⟩ := rep.page w page eq
      refine ⟨small, ?_, fun isTable => notTable (tables _ isTable)⟩
      rw [List.mem_append, not_or]
      refine ⟨?_, notFree⟩
      cases doFree with
      | false => exact List.not_mem_nil
      | true =>
        intro mem
        obtain ⟨w', mem, same⟩ := List.mem_map.mp mem
        rw [List.mem_reverse, List.mem_range'_1] at mem
        have eq' := rep.mapOf (unmapped.leaf w' mem.1 mem.2)
        exact outside (once rfl w' mem.1 mem.2 w _ _ eq' eq same ▸ mem)
  · intro w page eq
    rw [Map.unmap] at eq
    split at eq
    · cases eq
    · exact rep.user w page eq

theorem Represents.uvmclear (rep : Represents kend m root M fs)
    (done : Vm.uvmclear (root * pgsize) (v * pgsize) m = .ok m') :
    Represents kend m' root (M.clear v) fs := by
  have bit : ∀ pte, valid (clearUser pte) = valid pte := by
    intro pte
    rw [valid, clearUser_testBit]
    exact Bool.and_true _
  refine (uvmclear_spec rep.tree done).represents ?_ ?_ ?_
  · funext w
    rw [Vm.mapOf, Map.clear]
    by_cases same : w = v
    · subst same
      rw [if_pos rfl, Function.update_self, bit, clearUser_frame]
      cases isValid : valid (pteOf m root w) with
      | true =>
        rw [rep.mapOf isValid, if_pos rfl, Option.map_some, clearUser_flags]
      | false =>
        rw [← rep.map, Vm.mapOf, isValid]
        rfl
    · rw [if_neg same, Function.update_of_ne same, ← rep.map]
      rfl
  · intro w none
    split at none
    next same =>
      rw [bit] at none
      rw [if_pos same, rep.unset v none]
      rfl
    next other =>
      rw [if_neg other]
      exact rep.unset w none
  · intro w page eq
    rw [Map.clear] at eq
    by_cases same : w = v
    · subst same
      rw [Function.update_self] at eq
      obtain ⟨old, mapped, rfl⟩ := Option.map_eq_some_iff.mp eq
      exact ⟨rep.user w old mapped, rep.page w old mapped⟩
    · rw [Function.update_of_ne same] at eq
      exact ⟨rep.user w page eq, rep.page w page eq⟩

theorem Represents.call (rep : Represents kend m root M fs) (c : Call)
    (allowed : c.Allowed kend m root M)
    (done : c.perform kend (root * pgsize) m = .ok (true, m')) :
    ∃ gs, Represents kend m' root (c.apply M) gs := by
  cases c with
  | mappages v size pa perm => exact rep.mappages allowed done
  | uvmunmap v n doFree =>
    rw [Call.perform] at done
    cases ran : Vm.uvmunmap kend (root * pgsize) (v * pgsize) n doFree m with
    | error e =>
      rw [ran] at done
      cases done
    | ok m₁ =>
      rw [ran] at done
      cases done
      exact rep.uvmunmap allowed ran
  | uvmclear v =>
    rw [Call.perform] at done
    cases ran : Vm.uvmclear (root * pgsize) (v * pgsize) m with
    | error e =>
      rw [ran] at done
      cases done
    | ok m₁ =>
      rw [ran] at done
      cases done
      exact ⟨fs, rep.uvmclear ran⟩

/-! ## All of them -/

theorem Built.represents (built : Built kend m root M) : ∃ fs, Represents kend m root M fs := by
  induction built with
  | @uvmcreate m m' fs root free created =>
    obtain ⟨g, gs, address, tree, -, ptes, -⟩ := uvmcreate_spec free created
    obtain rfl : root = g := Nat.eq_of_mul_eq_mul_right (by decide) address
    refine ⟨gs, tree, ?_, fun v _ => ptes v, ?_, ?_⟩
    · funext v
      rw [Vm.mapOf, ptes v]
      rfl
    · intro v page eq
      cases eq
    · intro v page eq
      cases eq
  | call built c allowed done ih =>
    obtain ⟨fs, rep⟩ := ih
    exact rep.call c allowed done
  | others built elsewhere ih =>
    obtain ⟨fs, rep⟩ := ih
    obtain ⟨gs, free⟩ := elsewhere.free
    have notFree : ∀ f, ¬ Free kend _ f → f ∉ gs := fun f not mem => not ⟨gs, free, mem⟩
    obtain ⟨tree, nodes, ptes⟩ := rep.tree.congr free elsewhere.keeps
      fun f isTable => notFree f (elsewhere.table f isTable)
    refine ⟨gs, tree, ?_, ?_, ?_, rep.user⟩
    · rw [funext ptes, rep.map]
    · intro v none
      rw [ptes v] at none ⊢
      exact rep.unset v none
    · intro v page eq
      refine ⟨(rep.page v page eq).1, notFree _ (elsewhere.mapped v page eq), ?_⟩
      rintro ⟨d, n, le, there⟩
      exact (rep.page v page eq).2.2 (isTable le ((nodes d n le).symm.trans there))

/-- What a page table is, besides a map: its pages are apart, and none is a leaf. -/
structure Refines (kend : Nat) (m : Mem) (root : Nat) (M : Map) : Prop where
  translation : ∀ v, v < maxva / pgsize → translation m (root * pgsize) v = M v
  finite : ∀ v, maxva / pgsize ≤ v → M v = none
  walkaddr : ∀ va, va < maxva → walkaddr (root * pgsize) va m =
    (M (va / pgsize)).bind fun page =>
      if page.2.testBit 4 then some (page.1 * pgsize) else none
  -- a call changes no other page
  others : ∀ (c : Call) m', c.Allowed kend m root M →
    c.perform kend (root * pgsize) m = .ok (true, m') → ∀ v, v < maxva / pgsize → ¬ c.pages v →
      Vm.translation m' (root * pgsize) v = Vm.translation m (root * pgsize) v
  -- a page has one place in the table
  apart : ∀ d n d' n' f, d ≤ 2 → d' ≤ 2 → tableAt m root d n = some f →
    tableAt m root d' n' = some f → d = d' ∧ n = n'
  -- the entries that lead to pages of the table have no permissions, and no page is mapped to one
  interior : ∀ d n pte, d < 2 → entryAt m root d n = some pte → valid pte = true →
    pteFlags pte = pteV
  noLeaf : ∀ v page, M v = some page → ¬ IsTable m root page.1
  walk : ∀ va r m', walk (root * pgsize) va false m = .ok (r, m') → m' = m

theorem Call.apply_others {c : Call} (outside : ¬ c.pages v) : c.apply M v = M v := by
  cases c with
  | mappages v' size pa perm => exact if_neg outside
  | uvmunmap v' n doFree => exact if_neg outside
  | uvmclear v' => exact Function.update_of_ne outside _ _

theorem page_table_refines (built : Built kend m root M) : Refines kend m root M := by
  obtain ⟨fs, rep⟩ := built.represents
  refine ⟨fun v lt => rep.translation_eq lt, ?_, fun va lt => rep.walkaddr_eq lt, ?_,
    rep.tree.apart, rep.tree.upper, fun v page eq => (rep.page v page eq).2.2,
    fun va r m' ran => walk_same ran⟩
  · intro v ge
    cases eq : M v with
    | none => rfl
    | some page => exact absurd (rep.user v page eq) (by omega)
  · intro c m' allowed done v lt outside
    obtain ⟨gs, rep'⟩ := rep.call c allowed done
    rw [rep'.translation_eq lt, rep.translation_eq lt, Call.apply_others outside]

/-! Three free pages, of which two become a page table that maps page 0 -/

def threePages : Mem where
  bytes := ((Bytes.store (fun _ => 0) 8 0x80000000 0x80001000).store 8 0x80001000 0x80002000)
  freelist := 0x80000000

def succeeded : Except Panic (Bool × Mem) → Bool
  | .ok (done, _) => done
  | .error _ => false

theorem threePages_free : FreeList kernbase threePages [0x80000, 0x80001, 0x80002] where
  chain := by
    refine ⟨rfl, by decide +kernel, by decide +kernel, ?_⟩
    show _ = 0
    decide +kernel
  nodup := by decide
  inRam := by
    unfold InRam
    decide

theorem page_table_refines_page : ∃ m,
    Refines kernbase m 0x80000 (Call.apply .empty (.mappages 0 4096 0x10000000 6)) := by
  obtain ⟨m, created, ran⟩ : ∃ m, uvmcreate threePages = some (0x80000 * pgsize, m) ∧
      succeeded (mappages (0x80000 * pgsize) (0 * pgsize) 4096 0x10000000 6 m) = true := by
    refine ⟨_, rfl, ?_⟩
    rw [mappages, mapLoop]
    decide +kernel
  have built : Built kernbase m 0x80000 .empty := .uvmcreate threePages_free created
  obtain ⟨fs, rep⟩ := built.represents
  have low : ¬ InRam kernbase (frameAt 0x10000000 0) := by
    unfold InRam
    decide
  have allowed : (Call.mappages 0 4096 0x10000000 6).Allowed kernbase m 0x80000 .empty := by
    refine ⟨by decide, by decide, by decide, ?_⟩
    intro w _ last
    obtain rfl : w = 0 := Nat.le_zero.mp last
    refine ⟨?_, fun isTable => low (rep.tree.inRam _ isTable)⟩
    rintro ⟨gs, free, mem⟩
    exact low (free.inRam _ mem)
  cases done : mappages (0x80000 * pgsize) (0 * pgsize) 4096 0x10000000 6 m with
  | error e =>
    rw [done] at ran
    cases ran
  | ok r =>
    obtain ⟨flag, m'⟩ := r
    rw [done] at ran
    obtain rfl : flag = true := ran
    exact ⟨m', page_table_refines (built.call _ allowed done)⟩

end Sistemas.Xv6.Vm
