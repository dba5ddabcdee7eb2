import Sistemas.Data.Pages
import Sistemas.Transition.Ends
import Sistemas.Xv6.Riscv

/-! # Physical pages

`kalloc.c`: the free pages are a list that goes through their first words.  `end` is the first
address after the kernel, which is linked at `KERNBASE`; `kend` stands for it.
-/

namespace Sistemas.Xv6.Vm

/-! ## Memory -/

/-- `PHYSTOP` -/
def phystop : Nat := kernbase + 128 * 1024 * 1024

structure Mem where
  bytes : Bytes
  -- `kmem.freelist`
  freelist : Nat

/-- The panics of `kalloc.c` and `vm.c`. -/
inductive Panic
  | kfree
  | walk
  | mappagesSize
  | mappagesRemap
  | uvmunmapNotAligned
  | uvmunmapWalk
  | uvmunmapNotMapped
  | uvmunmapNotLeaf
  | uvmclear
deriving DecidableEq

def Mem.load (m : Mem) (addr : Nat) : Nat := m.bytes.load 8 addr

def Mem.store (m : Mem) (addr v : Nat) : Mem := { m with bytes := m.bytes.store 8 addr v }

/-- `memset(pa, c, PGSIZE)` -/
def Mem.memset (m : Mem) (pa : Nat) (c : UInt8) : Mem :=
  { m with bytes := m.bytes.splice pa pgsize fun _ => c }

/-- `none` if the memory cannot be allocated. -/
def kalloc (m : Mem) : Option (Nat × Mem) :=
  let r := m.freelist
  if r = 0 then none
  else some (r, { m with freelist := m.load r }.memset r 5)

def kfree (kend pa : Nat) (m : Mem) : Except Panic Mem :=
  if pa % pgsize ≠ 0 ∨ pa < kend ∨ phystop ≤ pa then .error .kfree
  else .ok { (m.memset pa 1).store pa m.freelist with freelist := pa }

/-! ## The free list -/

/-- A page that the allocator manages. -/
def InRam (kend f : Nat) : Prop := kend ≤ f * pgsize ∧ f * pgsize < phystop

/-- From address `p` on the links go through the pages `fs`. -/
def Chain (b : Bytes) : Nat → List Nat → Prop
  | p, [] => p = 0
  | p, f :: fs => p = f * pgsize ∧ Chain b (b.load 8 p) fs

structure FreeList (kend : Nat) (m : Mem) (fs : List Nat) : Prop where
  chain : Chain m.bytes m.freelist fs
  nodup : fs.Nodup
  inRam : ∀ f ∈ fs, InRam kend f

variable {kend f pa p : Nat} {fs gs : List Nat} {b b' : Bytes} {m m' : Mem}

theorem InRam.lt (inRam : InRam kend f) : f < 2 ^ 20 := by
  have top := inRam.2
  unfold pgsize phystop kernbase at top
  omega

/-- The first word of a page that is kept. -/
theorem keeps_word {P : Nat → Prop} (keeps : b.Keeps pgsize P b') (here : P f) :
    b'.load 8 (f * pgsize) = b.load 8 (f * pgsize) := by
  have word := @Bytes.Keeps.load _ _ _ f 0 8 P keeps here (by decide)
  rwa [Nat.add_zero] at word

theorem Chain.congr (chain : Chain b p fs) (keeps : b.Keeps pgsize (· ∈ fs) b') :
    Chain b' p fs := by
  induction fs generalizing p with
  | nil => exact chain
  | cons f fs ih =>
    obtain ⟨rfl, rest⟩ := chain
    refine ⟨rfl, ?_⟩
    rw [keeps_word keeps List.mem_cons_self]
    exact ih rest (keeps.mono fun g mem => List.mem_cons_of_mem f mem)

theorem FreeList.congr (free : FreeList kend m fs) (same : m'.freelist = m.freelist)
    (keeps : m.bytes.Keeps pgsize (· ∈ fs) m'.bytes) : FreeList kend m' fs :=
  ⟨same ▸ free.chain.congr keeps, free.nodup, free.inRam⟩

/-- The memory says which pages are free. -/
theorem FreeList.unique (low : 0 < kend) (free : FreeList kend m fs) (free' : FreeList kend m gs) :
    fs = gs := by
  have pos : ∀ f, InRam kend f → f * pgsize ≠ 0 := fun f inRam => by
    have := inRam.1
    omega
  have chain := free.chain
  have chain' := free'.chain
  have ram := free.inRam
  have ram' := free'.inRam
  generalize m.freelist = p at chain chain'
  clear free free'
  induction fs generalizing p gs with
  | nil =>
    cases gs with
    | nil => rfl
    | cons g gs => exact absurd (chain'.1.symm.trans chain) (pos g (ram' g List.mem_cons_self))
  | cons f fs ih =>
    cases gs with
    | nil => exact absurd (chain.1.symm.trans chain') (pos f (ram f List.mem_cons_self))
    | cons g gs =>
      have same : f = g :=
        Nat.eq_of_mul_eq_mul_right (by decide) (chain.1.symm.trans chain'.1)
      rw [same, ih (fun h mem => ram h (List.mem_cons_of_mem f mem))
        (fun h mem => ram' h (List.mem_cons_of_mem g mem)) _ chain.2 chain'.2]

/-- A link is an address. -/
theorem FreeList.freelist_lt (free : FreeList kend m fs) : m.freelist < 256 ^ 8 := by
  have chain := free.chain
  cases fs with
  | nil =>
    rw [show m.freelist = 0 from chain]
    decide
  | cons f fs =>
    have top := (free.inRam f List.mem_cons_self).2
    rw [chain.1]
    exact top.trans (by decide)

/-! ## The functions -/

theorem keeps_memset (m : Mem) (f : Nat) (c : UInt8) :
    m.bytes.Keeps pgsize (· ≠ f) (m.memset (f * pgsize) c).bytes := by
  have whole : f * pgsize + pgsize ≤ (f + 1) * pgsize := (Nat.succ_mul f pgsize).ge
  exact @Bytes.keeps_splice m.bytes (fun _ => c) pgsize f _ _ le_rfl whole

theorem keeps_store_word (m : Mem) {f i : Nat} (lt : i < 512) (v : Nat) :
    m.bytes.Keeps pgsize (· ≠ f) (m.store (f * pgsize + 8 * i) v).bytes := by
  apply Bytes.keeps_store (Nat.le_add_right _ _)
  rw [Nat.succ_mul]
  unfold pgsize
  omega

theorem keeps_store_first (m : Mem) (f v : Nat) :
    m.bytes.Keeps pgsize (· ≠ f) (m.store (f * pgsize) v).bytes := by
  have keeps := @keeps_store_word m f 0 (Nat.zero_lt_succ 511) v
  rwa [Nat.mul_zero, Nat.add_zero] at keeps

/-- `kalloc` takes the first free page, and writes nowhere else. -/
theorem kalloc_some (free : FreeList kend m fs)
    (found : kalloc m = some (pa, m')) : ∃ f gs, fs = f :: gs ∧ pa = f * pgsize ∧
      FreeList kend m' gs ∧ m.bytes.Keeps pgsize (· ≠ f) m'.bytes := by
  rw [kalloc] at found
  split at found
  · cases found
  next nonempty =>
    cases found
    cases fs with
    | nil => exact absurd free.chain nonempty
    | cons f gs =>
      obtain ⟨head, rest⟩ := free.chain
      have keeps := keeps_memset { m with freelist := m.load m.freelist } f 5
      rw [← head] at keeps
      refine ⟨f, gs, rfl, head, ⟨rest.congr (keeps.mono ?_), free.nodup.of_cons, ?_⟩, keeps⟩
      · rintro g mem rfl
        exact (List.nodup_cons.mp free.nodup).1 mem
      · exact fun g mem => free.inRam g (List.mem_cons_of_mem f mem)

theorem kalloc_none (low : 0 < kend) (free : FreeList kend m fs) (lost : kalloc m = none) :
    fs = [] := by
  cases fs with
  | nil => rfl
  | cons f gs =>
    have pos := (free.inRam f List.mem_cons_self).1
    rw [kalloc, if_neg (by rw [free.chain.1]; omega)] at lost
    cases lost

/-- A page that was not free becomes the first of the free ones. -/
theorem kfree_spec (free : FreeList kend m fs) (freed : kfree kend pa m = .ok m') :
    ∃ f, pa = f * pgsize ∧ InRam kend f ∧ m.bytes.Keeps pgsize (· ≠ f) m'.bytes ∧
      (f ∉ fs → FreeList kend m' (f :: fs)) := by
  rw [kfree] at freed
  split at freed
  · cases freed
  next inside =>
    simp only [not_or, not_not, not_lt, not_le] at inside
    obtain ⟨aligned, ge, lt⟩ := inside
    obtain ⟨f, rfl⟩ : ∃ f, pa = f * pgsize := ⟨pa / pgsize, by unfold pgsize at *; omega⟩
    cases freed
    have keeps : m.bytes.Keeps pgsize (· ≠ f)
        ((m.memset (f * pgsize) 1).store (f * pgsize) m.freelist).bytes :=
      (keeps_memset m f 1).trans (keeps_store_first _ f _)
    refine ⟨f, rfl, ⟨ge, lt⟩, keeps, fun new => ⟨⟨rfl, ?_⟩, ?_, ?_⟩⟩
    · have link : ((m.memset (f * pgsize) 1).store (f * pgsize) m.freelist).bytes.load 8
          (f * pgsize) = m.freelist := by
        rw [Mem.store, Bytes.load_store, Nat.mod_eq_of_lt free.freelist_lt]
      rw [link]
      apply free.chain.congr
      apply keeps.mono
      rintro g mem rfl
      exact new mem
    · exact List.nodup_cons.mpr ⟨new, free.nodup⟩
    · intro g mem
      cases mem with
      | head => exact ⟨ge, lt⟩
      | tail _ mem => exact free.inRam g mem

end Sistemas.Xv6.Vm
