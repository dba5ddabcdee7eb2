import Mathlib.Data.List.Basic
import Sistemas.Xv6.Umalloc

/-! # The free list

The list goes from `base` through the free blocks in the order of their addresses and back to
`base` (`FreeList`).  `Chain` is a stretch of it.
-/

namespace Sistemas.Xv6.Umalloc

variable {h h' : Heap} {base bp last : Nat} {b c p : Block} {as bs pre post : List Block}

/-! ## Stretches of a list -/

/-- The address that the blocks begin with. -/
def first (last : Nat) : List Block → Nat
  | [] => last
  | b :: _ => b.addr

/-- The headers of some blocks, each of which points to the next one. -/
def Chain (h : Heap) (last : Nat) : List Block → Prop
  | [] => True
  | b :: bs => h.size b.addr = b.units ∧ h.ptr b.addr = first last bs ∧ Chain h last bs

theorem first_append : first last (as ++ bs) = first (first last bs) as := by
  cases as <;> rfl

theorem chain_append :
    Chain h last (as ++ bs) ↔ Chain h (first last bs) as ∧ Chain h last bs := by
  induction as with
  | nil => simp [Chain]
  | cons a as ih => simp only [List.cons_append, Chain, first_append, ih, and_assoc]

theorem Chain.congr (chain : Chain h last bs)
    (same : ∀ b ∈ bs, h'.size b.addr = h.size b.addr ∧ h'.ptr b.addr = h.ptr b.addr) :
    Chain h' last bs := by
  induction bs with
  | nil => trivial
  | cons b bs ih =>
    obtain ⟨size, ptr, rest⟩ := chain
    obtain ⟨here, others⟩ := List.forall_mem_cons.mp same
    exact ⟨here.1.trans size, here.2.trans ptr, ih rest others⟩

/-- Another way on from the end. -/
theorem Chain.size (chain : Chain h last bs) (mem : b ∈ bs) : h.size b.addr = b.units := by
  induction bs with
  | nil => cases mem
  | cons c bs ih =>
    cases mem with
    | head => exact chain.1
    | tail _ mem => exact ih chain.2.2 mem

theorem Chain.ends (chain : Chain h last (b :: bs)) : h.ptr^[bs.length + 1] b.addr = last := by
  induction bs generalizing b with
  | nil => exact chain.2.1
  | cons c bs ih =>
    obtain ⟨-, ptr, rest⟩ := chain
    rw [List.length_cons, Function.iterate_succ_apply, ptr]
    exact ih rest

theorem Chain.reaches (chain : Chain h last (as ++ b :: bs)) :
    h.ptr^[as.length] (first b.addr as) = b.addr := by
  cases as with
  | nil => rfl
  | cons a as => exact (chain_append.mp chain).1.ends

/-! ## Bytes -/

def Block.Mem (b : Block) (x : Nat) : Prop := b.addr ≤ x ∧ x < b.stop

/-- A byte of one of the blocks. -/
def Within (bs : List Block) (x : Nat) : Prop := ∃ b ∈ bs, b.Mem x

/-- The one before the other, and something between them. -/
def Apart (b c : Block) : Prop := b.stop < c.addr

theorem Block.addr_le_stop (b : Block) : b.addr ≤ b.stop := Nat.le_add_right _ _

theorem within_cons {x : Nat} : Within (b :: bs) x ↔ b.Mem x ∨ Within bs x := by
  simp [Within]

theorem within_append {x : Nat} : Within (as ++ bs) x ↔ Within as x ∨ Within bs x := by
  simp [Within, or_and_right, exists_or]

/-- Two blocks that touch are one. -/
theorem mem_join {x : Nat} (touch : b.stop = c.addr) :
    ({ addr := b.addr, units := b.units + c.units } : Block).Mem x ↔ b.Mem x ∨ c.Mem x := by
  have le := b.addr_le_stop
  have le' := c.addr_le_stop
  simp only [Block.Mem, Block.stop, unit] at *
  omega

/-! ## The list -/

/-- `base` as a block. -/
def head (base : Nat) : Block := { addr := base, units := 0 }

structure FreeList (base : Nat) (h : Heap) (bs : List Block) : Prop where
  chain : Chain h base (head base :: bs)
  apart : (head base :: bs).Pairwise Apart
  pos : ∀ b ∈ bs, 0 < b.units
  below : ∀ b ∈ bs, b.stop ≤ maxMemory
  freep : ∃ f ∈ head base :: bs, h.freep = some f.addr

/-- From each block of the list one gets to any other. -/
theorem FreeList.reach (list : FreeList base h bs) (source : b ∈ head base :: bs)
    (dest : c ∈ head base :: bs) : ∃ k, h.ptr^[k] b.addr = c.addr := by
  obtain ⟨as, as', split⟩ := List.append_of_mem source
  obtain ⟨cs, cs', split'⟩ := List.append_of_mem dest
  have chain := list.chain
  have chain' := list.chain
  rw [split] at chain
  rw [split'] at chain'
  have toBase := (chain_append.mp chain).2.ends
  have fromBase := chain'.reaches
  have start : first c.addr cs = base := by
    cases cs with
    | nil =>
      rw [List.nil_append, List.cons.injEq] at split'
      rw [first, ← split'.1]
      rfl
    | cons d cs =>
      rw [List.cons_append, List.cons.injEq] at split'
      rw [first, ← split'.1]
      rfl
  refine ⟨cs.length + (as'.length + 1), ?_⟩
  rw [Function.iterate_add_apply, toBase, ← start]
  exact fromBase

/-- A block of the list points to the one behind it. -/
theorem FreeList.ptr_eq (list : FreeList base h bs) (split : head base :: bs = pre ++ p :: post) :
    h.ptr p.addr = first base post := by
  have chain := list.chain
  rw [split] at chain
  exact (chain_append.mp chain).2.2.1

theorem FreeList.closed (list : FreeList base h bs) (mem : b ∈ head base :: bs) :
    ∃ c ∈ head base :: bs, h.ptr b.addr = c.addr := by
  obtain ⟨pre, post, split⟩ := List.append_of_mem mem
  have ptr := list.ptr_eq split
  cases post with
  | nil => exact ⟨head base, List.mem_cons_self, ptr⟩
  | cons c post =>
    refine ⟨c, ?_, ptr⟩
    rw [split]
    simp

theorem FreeList.iterate (list : FreeList base h bs) (mem : b ∈ head base :: bs) (k : Nat) :
    ∃ c ∈ head base :: bs, h.ptr^[k] b.addr = c.addr := by
  induction k generalizing b with
  | zero => exact ⟨b, mem, rfl⟩
  | succ k ih =>
    obtain ⟨c, mem', ptr⟩ := list.closed mem
    rw [Function.iterate_succ_apply, ptr]
    exact ih mem'

/-! ## The loop of `free` -/

/-- Where a block belongs: behind `p`. -/
structure Place (base bp : Nat) (bs pre : List Block) (p : Block) (post : List Block) : Prop where
  split : head base :: bs = pre ++ p :: post
  before : p.addr < bp
  behind : ∀ c ∈ post, bp < c.addr

theorem place_exists (apart : (head base :: bs).Pairwise Apart) (low : base < bp)
    (new : ∀ b ∈ bs, b.addr ≠ bp) : ∃ pre p post, Place base bp bs pre p post := by
  suffices ∀ (p : Block) (bs : List Block), (p :: bs).Pairwise Apart → p.addr < bp →
      (∀ b ∈ bs, b.addr ≠ bp) →
      ∃ pre q post, p :: bs = pre ++ q :: post ∧ q.addr < bp ∧ ∀ c ∈ post, bp < c.addr by
    obtain ⟨pre, q, post, split, before, behind⟩ := this (head base) bs apart low new
    exact ⟨pre, q, post, split, before, behind⟩
  intro p bs apart low new
  induction bs generalizing p with
  | nil => exact ⟨[], p, [], rfl, low, by simp⟩
  | cons c bs ih =>
    obtain ⟨ne, news⟩ := List.forall_mem_cons.mp new
    obtain ⟨-, rest⟩ := List.pairwise_cons.mp apart
    obtain lt | gt := Nat.lt_or_gt_of_ne ne
    · obtain ⟨pre, q, post, split, place⟩ := ih c rest lt news
      exact ⟨p :: pre, q, post, by rw [split, List.cons_append], place⟩
    · refine ⟨[], p, c :: bs, rfl, low, ?_⟩
      rw [List.forall_mem_cons]
      refine ⟨gt, fun d mem => ?_⟩
      have later := (List.pairwise_cons.mp rest).1 d mem
      have le := c.addr_le_stop
      unfold Apart at later
      omega

theorem findBody_goes (h : Heap) (bp s : Nat) :
    findBody h bp s = .inr s ∨ findBody h bp s = .inl (h.ptr s) := by
  unfold findBody
  split
  · exact .inl rfl
  · split
    · exact .inl rfl
    · exact .inr rfl

theorem findBody_stops (h : Heap) (bp s : Nat) : findBody h bp s = .inr s ↔
    s < bp ∧ bp < h.ptr s ∨ h.ptr s ≤ s ∧ (s < bp ∨ bp < h.ptr s) := by
  unfold findBody
  split
  next test => exact ⟨fun _ => .inl test, fun _ => rfl⟩
  next no =>
    split
    next test => exact ⟨fun _ => .inr test, fun _ => rfl⟩
    next no' => simp [no, no']

/-- `base` is below the other blocks. -/
theorem FreeList.base_le (list : FreeList base h bs) (mem : p ∈ head base :: bs) :
    base ≤ p.addr := by
  cases mem with
  | head => exact Nat.le_refl base
  | tail _ mem =>
    have apart : base < p.addr := (List.pairwise_cons.mp list.apart).1 p mem
    exact Nat.le_of_lt apart

/-- The loop stops at the place of the block ... -/
theorem Place.stops (list : FreeList base h bs) (place : Place base bp bs pre p post) :
    findBody h bp p.addr = .inr p.addr := by
  have before := place.before
  have low := list.base_le (p := p) (by rw [place.split]; simp)
  rw [findBody_stops, list.ptr_eq place.split]
  cases post with
  | nil => exact .inr ⟨low, .inl before⟩
  | cons c post => exact .inl ⟨before, place.behind c List.mem_cons_self⟩

/-- ... and nowhere else. -/
theorem FreeList.place_of_stops (list : FreeList base h bs) (low : base < bp)
    (mem : p ∈ head base :: bs) (stops : findBody h bp p.addr = .inr p.addr) :
    ∃ pre post, Place base bp bs pre p post := by
  obtain ⟨pre, post, split⟩ := List.append_of_mem mem
  have apart := list.apart
  rw [split] at apart
  have later := List.pairwise_cons.mp (List.pairwise_append.mp apart).2.1
  have le := p.addr_le_stop
  rw [findBody_stops, list.ptr_eq split] at stops
  cases post with
  | nil =>
    simp only [first] at stops
    exact ⟨pre, [], split, by omega, by simp⟩
  | cons c post =>
    have next : p.stop < c.addr := later.1 c List.mem_cons_self
    simp only [first] at stops
    refine ⟨pre, c :: post, split, by omega, ?_⟩
    rw [List.forall_mem_cons]
    refine ⟨by omega, fun d memD => ?_⟩
    have far : c.stop < d.addr := (List.pairwise_cons.mp later.2).1 d memD
    have le' := c.addr_le_stop
    omega

/-- The loop of `free` ends, at the place of the block. -/
theorem FreeList.find (list : FreeList base h bs) (low : base < bp)
    (new : ∀ b ∈ bs, b.addr ≠ bp) : ∃ fuel f pre p post, h.freep = some f ∧
      Place base bp bs pre p post ∧
        ∀ more, fuel ≤ more → Loop.run (findBody h bp) more f = some p.addr := by
  obtain ⟨pre, q, post, place⟩ := place_exists list.apart low new
  obtain ⟨f, memF, freep⟩ := list.freep
  obtain ⟨k, reached⟩ := list.reach memF (c := q) (by rw [place.split]; simp)
  obtain ⟨fuel, j, -, found, runs⟩ := Loop.run_search (findBody_goes h bp) (s := f.addr) (k := k)
    (by rw [reached]; exact place.stops list)
  obtain ⟨p, memP, here⟩ := list.iterate memF j
  rw [here] at found runs
  obtain ⟨pre', post', place'⟩ := list.place_of_stops low memP found
  exact ⟨fuel, f.addr, pre', p, post', freep, place', runs⟩

end Sistemas.Xv6.Umalloc
