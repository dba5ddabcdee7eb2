import Sistemas.Data.Radix
import Sistemas.Xv6.Vm

/-! # The pages of a page table

A page table is a tree of pages in memory.  `Tree` says that the pages are apart from each other and
from the free ones.  Writing an entry of the lowest level changes the entry of one page number
(`Tree.set`), and `walk` may put in pages but changes none of these entries (`walk_alloc`).
-/

namespace Sistemas.Xv6.Vm

/-- The page that an entry leads to. -/
def child (pte : Nat) : Option Nat := if valid pte then some (pteFrame pte) else none

def entries (b : Bytes) (f i : Nat) : Nat := b.load 8 (f * pgsize + 8 * i)

/-- The page of entries with number `n` at a depth, which is 2 for the lowest level. -/
def tableAt (m : Mem) (root : Nat) : Nat → Nat → Option Nat :=
  Radix.node child 512 (entries m.bytes) root

/-- The entry with number `n` at a depth. -/
def entryAt (m : Mem) (root : Nat) : Nat → Nat → Option Nat :=
  Radix.lookup child 512 (entries m.bytes) root

/-- The entry for page number `v`, 0 if the table has no page for it. -/
def pteOf (m : Mem) (root v : Nat) : Nat := (entryAt m root 2 v).getD 0

def IsTable (m : Mem) (root f : Nat) : Prop := ∃ d n, d ≤ 2 ∧ tableAt m root d n = some f

structure Tree (kend : Nat) (m : Mem) (root : Nat) (fs : List Nat) : Prop where
  free : FreeList kend m fs
  apart : Radix.Apart child 512 (entries m.bytes) root 2
  inRam : ∀ f, IsTable m root f → InRam kend f
  notFree : ∀ f, IsTable m root f → f ∉ fs
  -- no entry above the lowest level is a leaf
  upper : ∀ d n pte, d < 2 → entryAt m root d n = some pte → valid pte = true →
    pteFlags pte = pteV

variable {kend root f g pa v d n va level : Nat} {fs gs : List Nat} {m m' : Mem}

theorem child_eq {pte : Nat} (isValid : valid pte = true) : child pte = some (pteFrame pte) :=
  if_pos isValid

theorem child_none {pte : Nat} : child pte = none ↔ valid pte = false := by
  rw [child]
  cases valid pte <;> simp

theorem isTable (le : d ≤ 2) (here : tableAt m root d n = some f) : IsTable m root f :=
  ⟨d, n, le, here⟩

/-- The entries of the pages that are kept. -/
theorem keeps_entries {b b' : Bytes} {P : Nat → Prop} (keeps : b.Keeps pgsize P b') (here : P f)
    {i : Nat} (lt : i < 512) : entries b' f i = entries b f i :=
  keeps.load here (by unfold pgsize; omega)

/-! ## Writing an entry -/

theorem entries_store (m : Mem) (f e : Nat) {i j : Nat} (lt : e < 2 ^ 64) :
    entries (m.store (f * pgsize + 8 * j) e).bytes f i =
      if i = j then e else entries m.bytes f i := by
  rw [entries, Mem.store]
  by_cases same : i = j
  · rw [if_pos same, same, Bytes.load_store, Nat.mod_eq_of_lt (by omega)]
  · rw [if_neg same, Bytes.load_store_disjoint (by omega), entries]

theorem entries_memset (m : Mem) (f : Nat) {i : Nat} (lt : i < 512) :
    entries (m.memset (f * pgsize) 0).bytes f i = 0 := by
  rw [entries, Mem.memset]
  have zeros : Bytes.load (m.bytes.splice (f * pgsize) pgsize fun _ => 0) 8
      (f * pgsize + 8 * i) = 0 % 256 ^ 8 := by
    apply Bytes.load_digits
    intro k small
    rw [Nat.add_assoc, Bytes.splice_inside (by unfold pgsize; omega), Bytes.digit_zero_left]
  exact zeros

/-! ## Looking up an entry -/

/-- What is not below a page that is missing. -/
theorem tableAt_none (sum : level + d = 2) (missing : tableAt m root d (vpn (level + 1) va) = none) :
    tableAt m root 2 (vpn 1 va) = none := by
  induction level generalizing d with
  | zero =>
    obtain rfl : d = 2 := by omega
    exact missing
  | succ level ih =>
    apply @ih (d + 1) (by omega)
    rw [vpn_succ] at missing
    rw [tableAt, Radix.node]
    rw [tableAt] at missing
    rw [missing]
    rfl

theorem Tree.pte2pa {pte : Nat} (tree : Tree kend m root fs) (isTable : IsTable m root (pteFrame pte)) :
    pte2pa pte = pteFrame pte * pgsize := by
  have small := (tree.inRam _ isTable).lt
  exact pte2pa_eq (by omega)

/-- The entry on the way to `va`. -/
theorem load_entry (here : tableAt m root d (vpn (level + 1) va) = some f) :
    entryAt m root d (vpn level va) = some (m.load (f * pgsize + 8 * px level va)) := by
  rw [vpn_succ] at here
  exact Radix.lookup_of_node here

theorem tableAt_succ : tableAt m root (d + 1) n = (entryAt m root d n).bind child :=
  Radix.node_succ

theorem walkLoop_find (tree : Tree kend m root fs) (sum : level + d = 2)
    (here : tableAt m root d (vpn (level + 1) va) = some f) :
    walkLoop false va level (f * pgsize) m =
      ((tableAt m root 2 (vpn 1 va)).map (fun g => g * pgsize + 8 * px 0 va), m) := by
  induction level generalizing d f with
  | zero =>
    obtain rfl : d = 2 := by omega
    rw [Nat.zero_add] at here
    rw [walkLoop, here]
    rfl
  | succ level ih =>
    have entry := load_entry here
    have below : tableAt m root (d + 1) (vpn (level + 1) va) =
        child (m.load (f * pgsize + 8 * px (level + 1) va)) := by
      rw [tableAt_succ, entry]
      rfl
    rw [walkLoop]
    by_cases isValid : valid (m.load (f * pgsize + 8 * px (level + 1) va)) = true
    · rw [child_eq isValid] at below
      rw [if_pos isValid, tree.pte2pa (isTable (by omega) below)]
      exact ih (by omega) below
    · rw [child_none.mpr (Bool.not_eq_true _ ▸ isValid)] at below
      rw [if_neg isValid, tableAt_none (by omega) below]
      rfl

/-! ## What changes a page table -/

/-- Something else changes. -/
theorem Tree.congr (tree : Tree kend m root fs) (free : FreeList kend m' gs)
    (keeps : m.bytes.Keeps pgsize (IsTable m root) m'.bytes)
    (notFree : ∀ f, IsTable m root f → f ∉ gs) :
    Tree kend m' root gs ∧ (∀ d n, d ≤ 2 → tableAt m' root d n = tableAt m root d n) ∧
      ∀ v, pteOf m' root v = pteOf m root v := by
  have same : ∀ d n r, d ≤ 2 → tableAt m root d n = some r →
      ∀ i < 512, entries m'.bytes r i = entries m.bytes r i :=
    fun d n r le here i lt => keeps_entries keeps (isTable le here) lt
  have nodes : ∀ d n, d ≤ 2 → tableAt m' root d n = tableAt m root d n :=
    fun d n le => Radix.node_congr (by decide) fun d' lt n r here => same d' n r (by omega) here
  have lookups : ∀ d n, d ≤ 2 → entryAt m' root d n = entryAt m root d n :=
    fun d n le => Radix.lookup_congr (by decide) fun d' le' n r here => same d' n r (by omega) here
  have tables : ∀ f, IsTable m' root f → IsTable m root f := by
    rintro f ⟨d, n, le, here⟩
    exact isTable le ((nodes d n le).symm.trans here)
  refine ⟨⟨free, ?_, ?_, ?_, ?_⟩, nodes, ?_⟩
  · intro d n d' n' p le le' here here'
    exact tree.apart d n d' n' p le le' ((nodes d n le).symm.trans here)
      ((nodes d' n' le').symm.trans here')
  · exact fun f isTable => tree.inRam f (tables f isTable)
  · exact fun f isTable => notFree f (tables f isTable)
  · intro d n pte lt entry
    exact tree.upper d n pte lt ((lookups d n (by omega)).symm.trans entry)
  · intro v
    rw [pteOf, lookups 2 v le_rfl, pteOf]

/-- The entries for page numbers are now `ptes`, and some of the free pages are pages of the
table. -/
structure Edited (kend : Nat) (m m' : Mem) (root : Nat) (fs gs : List Nat) (ptes : Nat → Nat) :
    Prop where
  tree : Tree kend m' root gs
  sub : gs ⊆ fs
  pte : ∀ v, pteOf m' root v = ptes v
  table : ∀ d n f, d ≤ 2 → tableAt m root d n = some f → tableAt m' root d n = some f
  new : ∀ f, IsTable m' root f → IsTable m root f ∨ f ∈ fs
  keeps : m.bytes.Keeps pgsize (fun f => f ∉ fs ∧ ¬ IsTable m root f) m'.bytes

theorem Edited.refl (tree : Tree kend m root fs) : Edited kend m m root fs fs (pteOf m root) where
  tree := tree
  sub := fun _ mem => mem
  pte := fun _ => rfl
  table := fun _ _ _ _ here => here
  new := fun _ isTable => .inl isTable
  keeps := .refl _ _ _

theorem Edited.trans {m'' : Mem} {hs : List Nat} {ptes ptes' : Nat → Nat}
    (first : Edited kend m m' root fs gs ptes) (second : Edited kend m' m'' root gs hs ptes') :
    Edited kend m m'' root fs hs ptes' where
  tree := second.tree
  sub := fun _ mem => first.sub (second.sub mem)
  pte := second.pte
  table d n f le here := second.table d n f le (first.table d n f le here)
  new f isTable := by
    cases second.new f isTable with
    | inl old => exact first.new f old
    | inr mem => exact .inr (first.sub mem)
  keeps := by
    apply first.keeps.trans
    apply second.keeps.mono
    rintro f ⟨notFree, notTable⟩
    refine ⟨fun mem => notFree (first.sub mem), fun isTable => ?_⟩
    cases first.new f isTable with
    | inl old => exact notTable old
    | inr mem => exact notFree mem

/-- An entry of the lowest level is written. -/
theorem Tree.set {e : Nat} (tree : Tree kend m root fs)
    (here : tableAt m root 2 (v / 512) = some f) (lt : e < 2 ^ 64)
    (stored : m.store (f * pgsize + 8 * (v % 512)) e = m') :
    Edited kend m m' root fs fs (fun w => if w = v then e else pteOf m root w) ∧
      ∀ d n, d ≤ 2 → tableAt m' root d n = tableAt m root d n := by
  have inTable : IsTable m root f := isTable le_rfl here
  have keeps : m.bytes.Keeps pgsize (· ≠ f) m'.bytes :=
    stored ▸ keeps_store_word m (Nat.mod_lt v (by decide)) e
  have elsewhere : ∀ r, r ≠ f → ∀ i < 512, entries m'.bytes r i = entries m.bytes r i :=
    fun r ne i small => keeps_entries keeps ne small
  have others : ∀ i < 512, i ≠ v % 512 → entries m'.bytes f i = entries m.bytes f i :=
    fun i small ne => stored ▸ (entries_store m f e lt).trans (if_neg ne)
  have new : entries m'.bytes f (v % 512) = e :=
    stored ▸ (entries_store m f e lt).trans (if_pos rfl)
  have nodes : ∀ d n, d ≤ 2 → tableAt m' root d n = tableAt m root d n :=
    fun d n le => Radix.node_set (by decide) tree.apart here elsewhere le
  have tables : ∀ r, IsTable m' root r → IsTable m root r := by
    rintro r ⟨d, n, le, there⟩
    exact isTable le ((nodes d n le).symm.trans there)
  refine ⟨⟨⟨?_, ?_, ?_, ?_, ?_⟩, fun _ mem => mem, ?_, ?_,
    fun r isTable => .inl (tables r isTable), keeps.mono ?_⟩, nodes⟩
  · have list : m'.freelist = m.freelist := stored ▸ rfl
    apply tree.free.congr list
    apply keeps.mono
    rintro g mem rfl
    exact tree.notFree g inTable mem
  · intro d n d' n' p le le' there there'
    exact tree.apart d n d' n' p le le' ((nodes d n le).symm.trans there)
      ((nodes d' n' le').symm.trans there')
  · exact fun r isTable => tree.inRam r (tables r isTable)
  · exact fun r isTable => tree.notFree r (tables r isTable)
  · intro d n pte small entry
    have above := Radix.lookup_above (n := n) (by decide) tree.apart here elsewhere small
    exact tree.upper d n pte small (above.symm.trans entry)
  · intro w
    rw [pteOf, entryAt, Radix.lookup_set (by decide) tree.apart here elsewhere others new]
    by_cases same : w = v
    · rw [if_pos same, if_pos same, Option.getD_some]
    · rw [if_neg same, if_neg same]
      rfl
  · intro d n r le there
    rw [nodes d n le, there]
  · rintro r ⟨-, notTable⟩ rfl
    exact notTable inTable

/-! ## Putting in pages -/

/-- The entry that `walk` makes for a page that is missing. -/
theorem mkPte_interior : pa2pte (g * pgsize) ||| pteV = mkPte g 0 := by
  rw [mkPte, Nat.or_zero]

/-- A free page is put in where there was none. -/
theorem Tree.graft {page : Nat} {m₁ : Mem} (tree : Tree kend m root fs) (small : d < 2)
    (here : tableAt m root d (n / 512) = some f)
    (unset : valid (m.load (f * pgsize + 8 * (n % 512))) = false)
    (found : kalloc m = some (page, m₁))
    (stored : (m₁.memset page 0).store (f * pgsize + 8 * (n % 512)) (pa2pte page ||| pteV) = m') :
    ∃ g gs, page = g * pgsize ∧ Edited kend m m' root fs gs (pteOf m root) ∧
      tableAt m' root (d + 1) n = some g := by
  obtain ⟨g, gs, rfl, rfl, free, keeps₁⟩ := kalloc_some tree.free found
  rw [mkPte_interior] at stored
  have ramG : InRam kend g := tree.free.inRam g List.mem_cons_self
  have inTable : IsTable m root f := isTable (Nat.le_of_lt small) here
  have notG : ∀ r, IsTable m root r → r ≠ g := by
    rintro r isTable rfl
    exact tree.notFree r isTable List.mem_cons_self
  have isF : f ≠ g := notG f inTable
  have index : n % 512 < 512 := Nat.mod_lt n (by decide)
  have lt : mkPte g 0 < 2 ^ 64 := mkPte_lt (by decide) (by have := ramG.lt; omega)
  have cleared : m₁.bytes.Keeps pgsize (· ≠ g) (m₁.memset (g * pgsize) 0).bytes :=
    keeps_memset m₁ g 0
  have linkedIn : (m₁.memset (g * pgsize) 0).bytes.Keeps pgsize (· ≠ f) m'.bytes :=
    stored ▸ keeps_store_word _ index _
  have after : m₁.bytes.Keeps pgsize (fun r => r ≠ g ∧ r ≠ f) m'.bytes :=
    (cleared.mono fun _ both => both.1).trans (linkedIn.mono fun _ both => both.2)
  have keeps : m.bytes.Keeps pgsize (fun r => r ≠ g ∧ r ≠ f) m'.bytes :=
    (keeps₁.mono fun _ both => both.1).trans after
  have elsewhere : ∀ r, r ≠ f → r ≠ g → ∀ i < 512, entries m'.bytes r i = entries m.bytes r i :=
    fun r ne ne' i lt => keeps_entries keeps ⟨ne', ne⟩ lt
  have others : ∀ i < 512, i ≠ n % 512 → entries m'.bytes f i = entries m.bytes f i := by
    intro i lt' ne
    rw [← stored, entries_store _ _ _ lt, if_neg ne, keeps_entries cleared isF lt',
      keeps_entries keeps₁ isF lt']
  have entry : entries m'.bytes f (n % 512) = mkPte g 0 := by
    rw [← stored, entries_store _ _ _ lt, if_pos rfl]
  have linked : child (entries m'.bytes f (n % 512)) = some g := by
    rw [entry, child_eq mkPte_valid, mkPte_frame (by decide)]
  have zero : ∀ i < 512, entries m'.bytes g i = 0 := by
    intro i lt'
    rw [keeps_entries linkedIn isF.symm lt', entries_memset _ _ lt']
  have empty : ∀ i < 512, child (entries m'.bytes g i) = none := by
    intro i lt'
    rw [zero i lt']
    rfl
  have unset' : child (entries m.bytes f (n % 512)) = none := child_none.mpr unset
  have fresh : ∀ d ≤ 2, ∀ n, tableAt m root d n ≠ some g :=
    fun d le n there => notG g (isTable le there) rfl
  have nodes : ∀ d' ≤ 2, ∀ n', tableAt m' root d' n' =
      if d' = d + 1 ∧ n' = n then some g else tableAt m root d' n' :=
    fun d' le n' => Radix.node_graft (by decide) tree.apart small here unset' fresh elsewhere
      others linked empty le n'
  have lookups : ∀ d' ≤ 2, ∀ w, entryAt m' root d' w =
      if d' = d + 1 ∧ w / 512 = n then some (entries m'.bytes g (w % 512))
      else if d' = d ∧ w = n then some (entries m'.bytes f (n % 512))
      else entryAt m root d' w :=
    fun d' le w => Radix.lookup_graft (by decide) tree.apart small here unset' fresh elsewhere
      others linked empty le w
  have tables : ∀ r, IsTable m' root r → IsTable m root r ∨ r = g := by
    rintro r ⟨d', n', le, there⟩
    rw [nodes d' le] at there
    split at there
    · exact .inr (Option.some.inj there).symm
    · exact .inl (isTable le there)
  refine ⟨g, gs, rfl, ⟨⟨?_, ?_, ?_, ?_, ?_⟩, ?_, ?_, ?_, ?_, ?_⟩, ?_⟩
  · have list : m'.freelist = m₁.freelist := stored ▸ rfl
    apply free.congr list
    apply after.mono
    rintro r mem
    refine ⟨?_, ?_⟩
    · rintro rfl
      exact (List.nodup_cons.mp tree.free.nodup).1 mem
    · rintro rfl
      exact tree.notFree r inTable (List.mem_cons_of_mem g mem)
  · exact Radix.apart_graft (by decide) tree.apart small here unset' fresh elsewhere others linked
      empty
  · intro r isTable
    cases tables r isTable with
    | inl old => exact tree.inRam r old
    | inr eq => exact eq ▸ ramG
  · intro r isTable mem
    cases tables r isTable with
    | inl old => exact tree.notFree r old (List.mem_cons_of_mem g mem)
    | inr eq => exact (List.nodup_cons.mp tree.free.nodup).1 (eq ▸ mem)
  · intro d' w pte lt' there isValid
    rw [lookups d' (by omega)] at there
    split at there
    · rw [zero _ (Nat.mod_lt _ (by decide))] at there
      cases there
      cases isValid
    split at there
    · rw [entry] at there
      cases there
      rw [mkPte_flags (by decide), Nat.zero_or]
    · exact tree.upper d' w pte lt' there isValid
  · exact fun r mem => List.mem_cons_of_mem g mem
  · intro v
    rw [pteOf, lookups 2 le_rfl, pteOf]
    by_cases below : 2 = d + 1 ∧ v / 512 = n
    · have missing : entryAt m root 2 v = none := by
        rw [entryAt, Radix.lookup, below.2, below.1, Radix.node]
        rw [tableAt] at here
        rw [here, Option.bind_some, unset']
        rfl
      rw [if_pos below, zero _ (Nat.mod_lt _ (by decide)), missing]
      rfl
    · rw [if_neg below, if_neg fun both => by omega]
  · intro d' n' r le there
    rw [nodes d' le]
    split
    next both =>
      have missing : tableAt m root (d + 1) n = none := by
        rw [tableAt, Radix.node]
        rw [tableAt] at here
        rw [here, Option.bind_some, unset']
      rw [both.1, both.2, missing] at there
      cases there
    next => exact there
  · intro r isTable
    cases tables r isTable with
    | inl old => exact .inl old
    | inr eq => exact .inr (eq ▸ List.mem_cons_self)
  · apply keeps.mono
    rintro r ⟨notFree, notTable⟩
    refine ⟨?_, ?_⟩
    · rintro rfl
      exact notFree List.mem_cons_self
    · rintro rfl
      exact notTable inTable
  · rw [nodes (d + 1) (by omega), if_pos ⟨rfl, rfl⟩]

/-- Each level either has its page, or gets one. -/
theorem walkLoop_alloc {r : Option Nat} (tree : Tree kend m root fs) (sum : level + d = 2)
    (here : tableAt m root d (vpn (level + 1) va) = some f)
    (ran : walkLoop true va level (f * pgsize) m = (r, m')) :
    ∃ gs, Edited kend m m' root fs gs (pteOf m root) ∧ ∀ pte, r = some pte →
      ∃ g, tableAt m' root 2 (vpn 1 va) = some g ∧ pte = g * pgsize + 8 * px 0 va := by
  induction level generalizing d f m fs with
  | zero =>
    obtain rfl : d = 2 := by omega
    rw [walkLoop] at ran
    cases ran
    exact ⟨fs, .refl tree, fun pte eq => ⟨f, here, (Option.some.inj eq).symm⟩⟩
  | succ level ih =>
    have entry := load_entry here
    have below : tableAt m root (d + 1) (vpn (level + 1) va) =
        child (m.load (f * pgsize + 8 * px (level + 1) va)) := by
      rw [tableAt_succ, entry]
      rfl
    rw [walkLoop] at ran
    by_cases isValid : valid (m.load (f * pgsize + 8 * px (level + 1) va)) = true
    · rw [child_eq isValid] at below
      rw [if_pos isValid, tree.pte2pa (isTable (by omega) below)] at ran
      exact ih tree (by omega) below ran
    · rw [if_neg isValid, if_pos rfl] at ran
      cases found : kalloc m with
      | none =>
        rw [found] at ran
        cases ran
        exact ⟨fs, .refl tree, fun pte eq => by cases eq⟩
      | some got =>
        rw [found] at ran
        rw [vpn_succ] at here
        have unset : valid (m.load (f * pgsize + 8 * (vpn (level + 1) va % 512))) = false :=
          Bool.not_eq_true _ ▸ isValid
        obtain ⟨g, gs, page, grown, there⟩ := tree.graft (by omega) here unset found rfl
        simp only [px_eq] at ran
        rw [page] at ran grown there
        obtain ⟨hs, later, result⟩ := ih grown.tree (by omega) there ran
        rw [funext grown.pte] at later
        exact ⟨hs, grown.trans later, result⟩

/-! ## `walk` from the root -/

theorem vpn_two (lt : va < maxva) : vpn 3 va = 0 := by
  unfold vpn
  unfold maxva at lt
  exact Nat.div_eq_of_lt (lt.trans (by decide))

theorem root_table (lt : va < maxva) : tableAt m root 0 (vpn 3 va) = some root := by
  rw [vpn_two lt]
  rfl

theorem walk_find (tree : Tree kend m root fs) (lt : va < maxva) :
    walk (root * pgsize) va false m =
      .ok ((tableAt m root 2 (vpn 1 va)).map (fun g => g * pgsize + 8 * px 0 va), m) := by
  rw [walk, if_neg (by omega), walkLoop_find tree rfl (root_table lt)]

theorem walk_alloc {r : Option Nat} (tree : Tree kend m root fs)
    (ran : walk (root * pgsize) va true m = .ok (r, m')) : va < maxva ∧
    ∃ gs, Edited kend m m' root fs gs (pteOf m root) ∧ ∀ pte, r = some pte →
      ∃ g, tableAt m' root 2 (vpn 1 va) = some g ∧ pte = g * pgsize + 8 * px 0 va := by
  rw [walk] at ran
  split at ran
  · cases ran
  next lt =>
    have lt : va < maxva := by omega
    exact ⟨lt, walkLoop_alloc tree rfl (root_table lt) (Except.ok.inj ran)⟩

/-- Without `alloc` nothing is written, whatever the memory holds. -/
theorem walk_same {pagetable : Nat} {r : Option Nat}
    (ran : walk pagetable va false m = .ok (r, m')) : m' = m := by
  have loop : ∀ level pagetable, (walkLoop false va level pagetable m).2 = m := by
    intro level
    induction level with
    | zero => exact fun _ => rfl
    | succ level ih =>
      intro pagetable
      rw [walkLoop]
      split
      · exact ih _
      · rfl
  rw [walk] at ran
  split at ran
  · cases ran
  · rw [← loop 2 pagetable, Except.ok.inj ran]

end Sistemas.Xv6.Vm
