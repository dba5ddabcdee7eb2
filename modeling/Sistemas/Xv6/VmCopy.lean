import Sistemas.Xv6.VmMap

/-! # Copying between the kernel and a process

`copyout`, `copyin` and `copyinstr` of `vm.c`.  Each of them goes through the pages of a range of
user addresses.  The memory of the kernel that they read or write is not in the pages that
processes use; here it is a sequence of bytes of its own.
-/

namespace Sistemas.Xv6.Vm.Copy

/-- The physical address, 0 if the process may not use the page. -/
def walkaddr (pagetable va : Nat) (m : Mem) : Except Panic Nat :=
  if va ≥ maxva then .ok 0
  else do
    let (pte, m) ← walk pagetable va false m
    match pte with
    | none => .ok 0
    | some pte =>
      if valid (m.load pte) = false then .ok 0
      else if user (m.load pte) = false then .ok 0
      else .ok (pte2pa (m.load pte))

/-- `n = PGSIZE - (va - va0); if(n > len) n = len;` -/
def chunk (va len : Nat) : Nat :=
  let n := pgsize - (va - pgRoundDown va)
  if n > len then len else n

/-- `va0 + PGSIZE`, which wraps -/
def nextPage (va : Nat) : Nat := (pgRoundDown va + pgsize) % 2 ^ 64

theorem chunk_pos {va len : Nat} (pos : 0 < len) : 0 < chunk va len := by
  have split := Nat.div_add_mod va pgsize
  have small := Nat.mod_lt va (show pgsize > 0 by decide)
  rw [chunk, pgRoundDown]
  rw [Nat.mul_comm] at split
  split <;> omega

/-- `memmove((void *)pa, src, n)` -/
def memmove (m : Mem) (pa : Nat) (kernel : Bytes) (src n : Nat) : Mem :=
  { m with bytes := m.bytes.splice pa n fun i => kernel (src + i) }

/-- `true` stands for 0, `false` for -1. -/
def copyout (pagetable dstva src len : Nat) (kernel : Bytes) (m : Mem) :
    Except Panic (Bool × Mem) :=
  if _more : 0 < len then do
    let va0 := pgRoundDown dstva
    let pa0 ← walkaddr pagetable va0 m
    if pa0 = 0 then .ok (false, m)
    else
      let n := chunk dstva len
      copyout pagetable (nextPage dstva) (src + n) (len - n) kernel
        (memmove m (pa0 + (dstva - va0)) kernel src n)
  else .ok (true, m)
termination_by len
decreasing_by exact Nat.sub_lt _more (chunk_pos _more)

def copyin (pagetable dst srcva len : Nat) (m : Mem) (kernel : Bytes) :
    Except Panic (Bool × Bytes) :=
  if _more : 0 < len then do
    let va0 := pgRoundDown srcva
    let pa0 ← walkaddr pagetable va0 m
    if pa0 = 0 then .ok (false, kernel)
    else
      let n := chunk srcva len
      copyin pagetable (dst + n) (nextPage srcva) (len - n) m
        (kernel.splice dst n fun i => m.bytes (pa0 + (srcva - va0) + i))
  else .ok (true, kernel)
termination_by len
decreasing_by exact Nat.sub_lt _more (chunk_pos _more)

/-- `while(n > 0)`; the result says whether there was a NUL. -/
def strLoop (b : Bytes) : Nat → Nat → Nat → Bytes → Bool × Bytes
  | 0, _, _, kernel => (false, kernel)
  | n + 1, p, dst, kernel =>
    if b p = 0 then (true, Function.update kernel dst 0)
    else strLoop b n (p + 1) (dst + 1) (Function.update kernel dst (b p))

/-- After `n` turns without a NUL `dst` and `max` have moved by `n`. -/
def copyinstr (pagetable dst srcva max : Nat) (m : Mem) (kernel : Bytes) :
    Except Panic (Bool × Bytes) :=
  if _more : 0 < max then do
    let va0 := pgRoundDown srcva
    let pa0 ← walkaddr pagetable va0 m
    if pa0 = 0 then .ok (false, kernel)
    else
      let n := chunk srcva max
      match strLoop m.bytes n (pa0 + (srcva - va0)) dst kernel with
      | (true, kernel) => .ok (true, kernel)
      | (false, kernel) => copyinstr pagetable (dst + n) (nextPage srcva) (max - n) m kernel
  else .ok (false, kernel)
termination_by max
decreasing_by exact Nat.sub_lt _more (chunk_pos _more)

/-! ## The memory of a process -/

/-- A user address that the process may use. -/
def Usable (m : Mem) (root va : Nat) : Prop :=
  va < maxva ∧ valid (pteOf m root (va / pgsize)) = true ∧ user (pteOf m root (va / pgsize)) = true

def physical (m : Mem) (root va : Nat) : Nat :=
  pteFrame (pteOf m root (va / pgsize)) * pgsize + va % pgsize

/-- The physical address of a byte that the process may use. -/
def address (M : Map) (va : Nat) : Option Nat :=
  (M (va / pgsize)).bind fun page =>
    if page.2.testBit 4 then some (page.1 * pgsize + va % pgsize) else none

/-- The page table of a process: its own pages are in memory, and none of them has two places. -/
structure Space (kend : Nat) (m : Mem) (root : Nat) (M : Map) (fs : List Nat) : Prop where
  table : Represents kend m root M fs
  linked : kernbase ≤ kend
  ram : ∀ v page, M v = some page → page.2.testBit 4 = true → InRam kend page.1
  once : ∀ v v' page page', M v = some page → M v' = some page' → page.2.testBit 4 = true →
    page'.2.testBit 4 = true → page.1 = page'.1 → v = v'

variable {kend root va a len k i : Nat} {fs : List Nat} {m m' : Mem} {M : Map}
  {kernel kernel' kernel'' : Bytes}

theorem address_eq (isSome : address M va = some a) : ∃ page, M (va / pgsize) = some page ∧
    page.2.testBit 4 = true ∧ a = page.1 * pgsize + va % pgsize := by
  obtain ⟨page, mapped, eq⟩ := Option.bind_eq_some_iff.mp isSome
  split at eq
  next isUser => exact ⟨page, mapped, isUser, (Option.some.inj eq).symm⟩
  next => cases eq

theorem address_of {page : Nat × Nat} (mapped : M (va / pgsize) = some page)
    (isUser : page.2.testBit 4 = true) : address M va = some (page.1 * pgsize + va % pgsize) := by
  rw [address, mapped, Option.bind_some, if_pos isUser]

theorem address_page (isSome : address M va = some a) : ∃ page, M (va / pgsize) = some page ∧
    page.2.testBit 4 = true ∧ a / pgsize = page.1 := by
  obtain ⟨page, mapped, isUser, rfl⟩ := address_eq isSome
  exact ⟨page, mapped, isUser, Bytes.page_of (Nat.mod_lt va (by decide))⟩

/-- The addresses of one page go together. -/
theorem address_add (isSome : address M va = some a) (inside : va % pgsize + i < pgsize) :
    address M (va + i) = some (a + i) := by
  obtain ⟨page, mapped, isUser, rfl⟩ := address_eq isSome
  have split := Nat.div_add_mod va pgsize
  have whole : va + i = va / pgsize * pgsize + (va % pgsize + i) := by
    rw [Nat.mul_comm] at split
    omega
  have same : (va + i) / pgsize = va / pgsize := by rw [whole, Bytes.page_of inside]
  have offset : (va + i) % pgsize = va % pgsize + i := by
    rw [whole, Nat.mul_comm, Nat.mul_add_mod, Nat.mod_eq_of_lt inside]
  rw [address_of (same ▸ mapped) isUser, offset, Nat.add_assoc]

namespace Space

theorem lt (space : Space kend m root M fs) (isSome : address M va = some a) : va < maxva := by
  obtain ⟨page, mapped, -⟩ := address_eq isSome
  have low := space.table.user _ page mapped
  unfold maxva pgsize at *
  omega

theorem address_iff (space : Space kend m root M fs) :
    address M va = some a ↔ Usable m root va ∧ a = physical m root va := by
  constructor
  · intro isSome
    obtain ⟨page, mapped, isUser, eq⟩ := address_eq isSome
    have here := mapped
    rw [← space.table.map] at here
    obtain ⟨isValid, rfl⟩ := mapOf_some here
    rw [flags_testBit (by decide)] at isUser
    exact ⟨⟨space.lt isSome, isValid, isUser⟩, eq⟩
  · rintro ⟨⟨-, isValid, isUser⟩, rfl⟩
    have mapped := space.table.mapOf isValid
    rw [address_of mapped (by rwa [flags_testBit (by decide)]), physical]

theorem usable_iff (space : Space kend m root M fs) :
    Usable m root va ↔ ∃ a, address M va = some a :=
  ⟨fun usable => ⟨_, space.address_iff.mpr ⟨usable, rfl⟩⟩,
    fun isSome => isSome.elim fun _ eq => (space.address_iff.mp eq).1⟩

/-- No two addresses are the same byte. -/
theorem injective {va' : Nat} (space : Space kend m root M fs) (isSome : address M va = some a)
    (isSome' : address M va' = some a) : va = va' := by
  obtain ⟨page, mapped, isUser, eq⟩ := address_eq isSome
  obtain ⟨page', mapped', isUser', eq'⟩ := address_eq isSome'
  have small := Nat.mod_lt va (show pgsize > 0 by decide)
  have small' := Nat.mod_lt va' (show pgsize > 0 by decide)
  have frame := Bytes.page_of small (f := page.1)
  have frame' := Bytes.page_of small' (f := page'.1)
  rw [← eq] at frame
  rw [← eq'] at frame'
  have frames : page.1 = page'.1 := frame.symm.trans frame'
  have pages := space.once _ _ page page' mapped mapped' isUser isUser' frames
  have offsets : va % pgsize = va' % pgsize := by
    rw [frames] at eq
    omega
  rw [← Nat.div_add_mod va pgsize, ← Nat.div_add_mod va' pgsize, pages, offsets]

end Space

/-! ## One page -/

/-- The panic of `walk` is out of reach. -/
theorem walkaddr_same (pagetable va : Nat) (m : Mem) :
    walkaddr pagetable va m = .ok ((Vm.walkaddr pagetable va m).getD 0) := by
  rw [walkaddr, Vm.walkaddr]
  by_cases high : va ≥ maxva
  · rw [if_pos high, if_pos high]
    rfl
  · rw [if_neg high, if_neg high, walk, if_neg high]
    cases walkLoop false va 2 pagetable m with
    | mk pte m' =>
      cases pte with
      | none => rfl
      | some pte =>
        dsimp only [bind, Except.bind]
        split
        · rfl
        split
        · rfl
        · rfl

theorem roundDown_div : pgRoundDown va / pgsize = va / pgsize := by
  rw [pgRoundDown, Nat.mul_div_cancel _ (by decide)]

theorem roundDown_mod : va - pgRoundDown va = va % pgsize := by
  have split := Nat.div_add_mod va pgsize
  rw [Nat.mul_comm] at split
  rw [pgRoundDown]
  omega

theorem walkaddr_none (space : Space kend m root M fs) (denied : address M va = none) :
    walkaddr (root * pgsize) (pgRoundDown va) m = .ok 0 := by
  rw [walkaddr_same]
  by_cases low : pgRoundDown va < maxva
  · rw [space.table.walkaddr_eq low, roundDown_div]
    cases mapped : M (va / pgsize) with
    | none => rfl
    | some page =>
      rw [address, mapped, Option.bind_some] at denied
      split at denied
      · cases denied
      next other => rw [Option.bind_some, if_neg other, Option.getD_none]
  · rw [Vm.walkaddr, if_pos (by omega), Option.getD_none]

theorem walkaddr_some (space : Space kend m root M fs) (isSome : address M va = some a) :
    ∃ pa0, walkaddr (root * pgsize) (pgRoundDown va) m = .ok pa0 ∧ pa0 ≠ 0 ∧
      pa0 + (va - pgRoundDown va) = a := by
  obtain ⟨page, mapped, isUser, rfl⟩ := address_eq isSome
  have low : pgRoundDown va < maxva := by
    apply (space.lt isSome).trans_le'
    exact Nat.div_mul_le_self va pgsize
  have ram := (space.ram _ page mapped isUser).1
  refine ⟨page.1 * pgsize, ?_, ?_, ?_⟩
  · rw [walkaddr_same, space.table.walkaddr_eq low, roundDown_div, mapped, Option.bind_some,
      if_pos isUser, Option.getD_some]
  · have linked := space.linked
    unfold kernbase at linked
    omega
  · rw [roundDown_mod]

theorem chunk_le : chunk va len ≤ len := by
  rw [chunk]
  split <;> omega

theorem chunk_inside : va % pgsize + chunk va len ≤ pgsize := by
  have small := Nat.mod_lt va (show pgsize > 0 by decide)
  rw [chunk, roundDown_mod]
  split <;> omega

/-- A part that does not end the range ends its page. -/
theorem nextPage_eq (lt : va < maxva) (part : chunk va len < len) :
    nextPage va = va + chunk va len := by
  have down := @roundDown_mod va
  have le : pgRoundDown va ≤ va := Nat.div_mul_le_self va pgsize
  have small := Nat.mod_lt va (show pgsize > 0 by decide)
  rw [nextPage]
  rw [chunk] at part ⊢
  split at part
  · omega
  next short =>
    rw [if_neg short, Nat.mod_eq_of_lt]
    · omega
    · unfold maxva pgsize at *
      omega

/-- What a turn of each of the loops finds. -/
inductive Turn (m : Mem) (root : Nat) (M : Map) (va len : Nat) : Prop
  | denied (none : address M va = none)
      (zero : walkaddr (root * pgsize) (pgRoundDown va) m = .ok 0)
  | page (a pa0 : Nat) (found : walkaddr (root * pgsize) (pgRoundDown va) m = .ok pa0)
      (nonzero : pa0 ≠ 0) (start : pa0 + (va - pgRoundDown va) = a)
      (bytes : ∀ i < chunk va len, address M (va + i) = some (a + i))
      (next : chunk va len < len → nextPage va = va + chunk va len)

theorem turn (space : Space kend m root M fs) (va len : Nat) : Turn m root M va len := by
  cases here : address M va with
  | none => exact .denied here (walkaddr_none space here)
  | some a =>
    obtain ⟨pa0, found, nonzero, start⟩ := walkaddr_some space here
    refine .page a pa0 found nonzero start ?_ (nextPage_eq (space.lt here))
    intro i lt
    apply address_add here
    have inside := @chunk_inside va len
    omega

/-! ## A range of addresses -/

/-- The first `k` of `len` bytes may be used, and it ends there. -/
structure Reach (M : Map) (va len k : Nat) : Prop where
  le : k ≤ len
  here : ∀ i < k, ∃ a, address M (va + i) = some a
  stop : k < len → address M (va + k) = none

theorem Reach.refused (denied : address M va = none) : Reach M va len 0 where
  le := Nat.zero_le len
  here := fun _ lt => absurd lt (Nat.not_lt_zero _)
  stop := fun _ => denied

theorem Reach.empty : Reach M va 0 0 where
  le := le_rfl
  here := fun _ lt => absurd lt (Nat.not_lt_zero _)
  stop := fun lt => absurd lt (Nat.not_lt_zero _)

/-- A first part of `n` bytes, and the rest. -/
theorem Reach.add {n : Nat} (le : n ≤ len) (first : ∀ i < n, ∃ a, address M (va + i) = some a)
    (rest : Reach M (va + n) (len - n) k) : Reach M va len (n + k) where
  le := by
    have := rest.le
    omega
  here i lt := by
    by_cases inFirst : i < n
    · exact first i inFirst
    · have there := rest.here (i - n) (by omega)
      rwa [show va + n + (i - n) = va + i by omega] at there
  stop lt := by
    rw [← Nat.add_assoc]
    exact rest.stop (by omega)

theorem Reach.all_iff (reach : Reach M va len k) :
    k = len ↔ ∀ i < len, ∃ a, address M (va + i) = some a := by
  constructor
  · rintro rfl
    exact reach.here
  · intro all
    by_contra ne
    have short : k < len := Nat.lt_of_le_of_ne reach.le ne
    obtain ⟨a, isSome⟩ := all k short
    rw [reach.stop short] at isSome
    cases isSome

/-- In a range that may be used no address wraps. -/
theorem usable_range (space : Space kend m root M fs) (small : va < 2 ^ 64) (n : Nat) :
    (∀ i < n, Usable m root ((va + i) % 2 ^ 64)) ↔ ∀ i < n, ∃ a, address M (va + i) = some a := by
  have start : va % 2 ^ 64 = va := Nat.mod_eq_of_lt small
  constructor
  · intro all
    have low : ∀ i < n, va + i < maxva := by
      intro i
      induction i with
      | zero =>
        intro lt
        have := (all 0 lt).1
        rwa [Nat.add_zero, start] at this
      | succ i ih =>
        intro lt
        have before := ih (by omega)
        have here := (all (i + 1) lt).1
        unfold maxva at before here ⊢
        omega
    intro i lt
    have wrapless : (va + i) % 2 ^ 64 = va + i := by
      apply Nat.mod_eq_of_lt
      exact (low i lt).trans (by decide)
    rw [← wrapless]
    exact space.usable_iff.mp (all i lt)
  · intro all i lt
    obtain ⟨a, isSome⟩ := all i lt
    rw [Nat.mod_eq_of_lt ((space.lt isSome).trans (by decide))]
    exact space.usable_iff.mpr ⟨a, isSome⟩

/-! ## A page of a process

The table of `threePages` maps page 0 to a page that is not free. -/

def onePage : Mem := ((uvmcreate threePages).getD (0, threePages)).2

def onePageMap (perm : Nat) : Map := Call.apply .empty (.mappages 0 4096 (0x80005 * pgsize) perm)

theorem onePage_space {perm : Nat} (small : perm < 1024)
    (ran : succeeded
      (mappages (0x80000 * pgsize) (0 * pgsize) 4096 (0x80005 * pgsize) perm onePage) = true) :
    ∃ m fs, Space kernbase m 0x80000 (onePageMap perm) fs := by
  have created : uvmcreate threePages = some (0x80000 * pgsize, onePage) := rfl
  have built : Built kernbase onePage 0x80000 .empty := .uvmcreate threePages_free created
  obtain ⟨g, gs, address, tree, sub, -, only⟩ := uvmcreate_spec threePages_free created
  obtain rfl : 0x80000 = g := Nat.eq_of_mul_eq_mul_right (by decide) address
  have free : ¬ Free kernbase onePage 0x80005 := by
    rintro ⟨hs, free, mem⟩
    rw [free.unique (by decide) tree.free] at mem
    exact absurd (sub mem) (by decide)
  have allowed : (Call.mappages 0 4096 (0x80005 * pgsize) perm).Allowed kernbase onePage 0x80000
      .empty := by
    refine ⟨by decide, by decide, small, ?_⟩
    intro w _ last
    obtain rfl : w = 0 := Nat.le_zero.mp last
    exact ⟨free, fun isTable => absurd (only _ isTable) (by decide)⟩
  cases done : mappages (0x80000 * pgsize) (0 * pgsize) 4096 (0x80005 * pgsize) perm onePage with
  | error e =>
    rw [done] at ran
    cases ran
  | ok r =>
    obtain ⟨flag, m⟩ := r
    rw [done] at ran
    obtain rfl : flag = true := ran
    obtain ⟨fs, rep⟩ := (built.call _ allowed done).represents
    have only : ∀ v page, onePageMap perm v = some page → v = 0 ∧ page.1 = 0x80005 := by
      intro v page mapped
      rw [onePageMap, Call.apply, Map.map] at mapped
      split at mapped
      next inside =>
        obtain rfl : v = 0 := Nat.le_zero.mp inside.2
        cases mapped
        exact ⟨rfl, rfl⟩
      next => cases mapped
    refine ⟨m, fs, rep, le_rfl, ?_, ?_⟩
    · intro v page mapped _
      rw [(only v page mapped).2]
      unfold InRam
      decide
    · intro v v' page page' mapped mapped' _ _ _
      rw [(only v page mapped).1, (only v' page' mapped').1]

end Sistemas.Xv6.Vm.Copy
