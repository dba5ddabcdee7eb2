import Sistemas.Xv6.Types
import Sistemas.Xv6.Growproc
import Sistemas.Xv6.VmTotal

/-! # The memory of a process

The rest of `vm.c`: `uvmalloc`, `uvmdealloc`, `uvmcopy`, `freewalk` and `uvmfree`, and the page
tables of processes from `proc.c`.
-/

namespace Sistemas.Xv6.Uvm

open Vm (Mem pgsize pgRoundUp pgRoundDown maxva trampoline trapframe valid isLeaf pteFlags pte2pa
  pteR pteW pteX pteU kalloc kfree walk mappages uvmunmap uvmcreate addInt)

inductive Panic
  | vm (e : Vm.Panic)
  | uvmcopyPte
  | uvmcopyPage
  | freewalkLeaf
  -- more nested calls of freewalk than a page table has levels
  | freewalkDeep
  | loadseg
  -- the index wraps, and the loop begins again
  | loadsegForever
deriving DecidableEq

def lift {α : Type} (r : Except Vm.Panic α) : Except Panic α := r.mapError .vm

/-! ## Growing and shrinking -/

/-- The `uint64` that an `int` is converted to. -/
def ofInt (n : Int) : Nat := (n % 2 ^ 64).toNat

def uvmdealloc (kend pagetable oldsz newsz : Nat) (m : Mem) : Except Panic (Nat × Mem) :=
  if newsz ≥ oldsz then .ok (oldsz, m)
  else if pgRoundUp newsz < pgRoundUp oldsz then do
    let npages := wrapInt ((pgRoundUp oldsz - pgRoundUp newsz) / pgsize : Nat)
    let m ← lift (uvmunmap kend pagetable (pgRoundUp newsz) (ofInt npages) true m)
    .ok (newsz, m)
  else .ok (newsz, m)

theorem mappages_low {pagetable va size pa perm : Nat} {m : Mem} {r : Bool × Mem}
    (ran : mappages pagetable va size pa perm m = .ok r) : va < maxva + pgsize := by
  have low : pgRoundDown va < maxva := by
    by_contra high
    have panics : ∀ alloc, walk pagetable (pgRoundDown va) alloc m = .error .walk :=
      fun alloc => if_pos (Nat.le_of_not_lt high)
    rw [mappages] at ran
    split at ran
    · cases ran
    rw [Vm.mapLoop] at ran
    split at ran
    · cases ran
    next walked =>
      rw [panics] at walked
      cases walked
    next walked =>
      rw [panics] at walked
      cases walked
  unfold pgRoundDown pgsize at *
  omega

/-- `for(a = oldsz; a < newsz; a += PGSIZE)`; the address cannot wrap, as `mappages` panics
before. -/
def allocLoop (kend pagetable xperm oldsz newsz a : Nat) (m : Mem) : Except Panic (Nat × Mem) :=
  if _more : a < newsz then
    match kalloc m with
    | none => do
      let (_, m) ← uvmdealloc kend pagetable a oldsz m
      .ok (0, m)
    | some (mem, m) =>
      match _mapped : mappages pagetable a pgsize mem (pteR ||| pteU ||| xperm) (m.memset mem 0) with
      | .error e => .error (.vm e)
      | .ok (false, m) => do
        let m ← lift (kfree kend mem m)
        let (_, m) ← uvmdealloc kend pagetable a oldsz m
        .ok (0, m)
      | .ok (true, m) => allocLoop kend pagetable xperm oldsz newsz (a + pgsize) m
  else .ok (newsz, m)
termination_by maxva + pgsize - a
decreasing_by
  have low := mappages_low _mapped
  unfold pgsize at *
  omega

/-- The new size, 0 if out of memory. -/
def uvmalloc (kend pagetable oldsz newsz xperm : Nat) (m : Mem) : Except Panic (Nat × Mem) :=
  if newsz < oldsz then .ok (oldsz, m)
  else allocLoop kend pagetable xperm (pgRoundUp oldsz) newsz (pgRoundUp oldsz) m

/-- The new size; `none` is -1. -/
def growproc (kend pagetable sz : Nat) (n : Int) (m : Mem) : Except Panic (Option Nat × Mem) :=
  if n > 0 then do
    let (newsz, m) ← uvmalloc kend pagetable sz (addInt sz n) pteW m
    .ok (if newsz = 0 then none else some newsz, m)
  else if n < 0 then do
    let (newsz, m) ← uvmdealloc kend pagetable sz (addInt sz n) m
    .ok (some newsz, m)
  else .ok (some sz, m)

/-! ## Freeing -/

/-- `for(int i = 0; i < 512; i++)`, with `n` entries left. -/
def freeLoop (walkChild : Nat → Mem → Except Panic Mem) (pagetable : Nat) :
    Nat → Nat → Mem → Except Panic Mem
  | 0, _, m => .ok m
  | n + 1, i, m =>
    let pte := m.load (pagetable + 8 * i)
    if valid pte = true ∧ isLeaf pte = false then do
      -- this PTE points to a lower-level page table.
      let m ← walkChild (pte2pa pte) m
      freeLoop walkChild pagetable n (i + 1) (m.store (pagetable + 8 * i) 0)
    else if valid pte = true then .error .freewalkLeaf
    else freeLoop walkChild pagetable n (i + 1) m

/-- `depth` is a bound on the calls that are nested. -/
def freewalk (kend : Nat) : (depth pagetable : Nat) → Mem → Except Panic Mem
  | 0, _, _ => .error .freewalkDeep
  | depth + 1, pagetable, m => do
    let m ← freeLoop (freewalk kend depth) pagetable 512 0 m
    lift (kfree kend pagetable m)

/-- The levels of a page table. -/
def levels : Nat := 3

def uvmfree (kend pagetable sz : Nat) (m : Mem) : Except Panic Mem :=
  if sz > 0 then do
    let m ← lift (uvmunmap kend pagetable 0 (pgRoundUp sz / pgsize) true m)
    freewalk kend levels pagetable m
  else freewalk kend levels pagetable m

/-! ## Copying -/

/-- `memmove(dst, src, PGSIZE)` -/
def copyPage (m : Mem) (dst src : Nat) : Mem :=
  { m with bytes := m.bytes.splice dst pgsize fun i => m.bytes (src + i) }

/-- `err:` -/
def copyErr (kend new i : Nat) (m : Mem) : Except Panic (Bool × Mem) := do
  let m ← lift (uvmunmap kend new 0 (i / pgsize) true m)
  .ok (false, m)

/-- `for(i = 0; i < sz; i += PGSIZE)`; the address cannot wrap, as `walk` panics before. -/
def copyLoop (kend old new sz i : Nat) (m : Mem) : Except Panic (Bool × Mem) :=
  if _more : i < sz then do
    let (pte, m) ← lift (walk old i false m)
    match pte with
    | none => .error .uvmcopyPte
    | some pte =>
      let entry := m.load pte
      if valid entry = false then .error .uvmcopyPage
      else
        match kalloc m with
        | none => copyErr kend new i m
        | some (mem, m) =>
          match mappages new i pgsize mem (pteFlags entry) (copyPage m mem (pte2pa entry)) with
          | .error e => .error (.vm e)
          | .ok (false, m) => do
            let m ← lift (kfree kend mem m)
            copyErr kend new i m
          | .ok (true, m) => copyLoop kend old new sz (i + pgsize) m
  else .ok (true, m)
termination_by sz - i
decreasing_by
  unfold pgsize
  omega

/-- `false` stands for -1. -/
def uvmcopy (kend old new sz : Nat) (m : Mem) : Except Panic (Bool × Mem) :=
  copyLoop kend old new sz 0 m

/-! ## The page table of a process -/

/-- `tramp` is the page `trampoline` of the kernel, `frame` is `p->trapframe`; `none` if out of
memory. -/
def procPagetable (kend tramp frame : Nat) (m : Mem) : Except Panic (Option Nat × Mem) :=
  match uvmcreate m with
  | none => .ok (none, m)
  | some (pagetable, m) => do
    let (done, m) ← lift (mappages pagetable trampoline pgsize tramp (pteR ||| pteX) m)
    if done = false then do
      let m ← uvmfree kend pagetable 0 m
      .ok (none, m)
    else do
      let (done, m) ← lift (mappages pagetable trapframe pgsize frame (pteR ||| pteW) m)
      if done = false then do
        let m ← lift (uvmunmap kend pagetable trampoline 1 false m)
        let m ← uvmfree kend pagetable 0 m
        .ok (none, m)
      else .ok (some pagetable, m)

def procFreepagetable (kend pagetable sz : Nat) (m : Mem) : Except Panic Mem := do
  let m ← lift (uvmunmap kend pagetable trampoline 1 false m)
  let m ← lift (uvmunmap kend pagetable trapframe 1 false m)
  uvmfree kend pagetable sz m

end Sistemas.Xv6.Uvm
