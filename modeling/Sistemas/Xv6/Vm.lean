import Sistemas.Xv6.Kalloc

/-! # Page tables

`vm.c`: a page table has three levels of pages with 512 entries each.  `walk` finds the entry for
an address and, with `alloc`, puts in the pages that are missing on the way.
-/

namespace Sistemas.Xv6.Vm

/-- `for(int level = 2; level > 0; level--)`: the address of the entry. -/
def walkLoop (alloc : Bool) (va : Nat) : Nat → Nat → Mem → Option Nat × Mem
  | 0, pagetable, m => (some (pagetable + 8 * px 0 va), m)
  | level + 1, pagetable, m =>
    let pte := pagetable + 8 * px (level + 1) va
    if valid (m.load pte) then walkLoop alloc va level (pte2pa (m.load pte)) m
    else if alloc then
      match kalloc m with
      | none => (none, m)
      | some (page, m) =>
        walkLoop alloc va level page ((m.memset page 0).store pte (pa2pte page ||| pteV))
    else (none, m)

def walk (pagetable va : Nat) (alloc : Bool) (m : Mem) : Except Panic (Option Nat × Mem) :=
  if va ≥ maxva then .error .walk else .ok (walkLoop alloc va 2 pagetable m)

/-- `none` if the address is not mapped. -/
def walkaddr (pagetable va : Nat) (m : Mem) : Option Nat :=
  if va ≥ maxva then none
  else
    match walkLoop false va 2 pagetable m with
    | (none, _) => none
    | (some pte, m) =>
      if valid (m.load pte) = false then none
      else if user (m.load pte) = false then none
      else some (pte2pa (m.load pte))

/-- `for(;;)`; the address cannot wrap, as `walk` panics before. -/
def mapLoop (pagetable last perm a pa : Nat) (m : Mem) : Except Panic (Bool × Mem) :=
  match found : walk pagetable a true m with
  | .error e => .error e
  | .ok (none, m) => .ok (false, m)
  | .ok (some pte, m) =>
    if valid (m.load pte) then .error .mappagesRemap
    else
      let m := m.store pte (pa2pte pa ||| perm ||| pteV)
      if a = last then .ok (true, m)
      else mapLoop pagetable last perm (a + pgsize) ((pa + pgsize) % 2 ^ 64) m
termination_by maxva - a
decreasing_by
  rw [walk] at found
  split at found
  · cases found
  · unfold pgsize
    omega

/-- `false` stands for `-1`. -/
def mappages (pagetable va size pa perm : Nat) (m : Mem) : Except Panic (Bool × Mem) :=
  if size = 0 then .error .mappagesSize
  else mapLoop pagetable (pgRoundDown ((va + size - 1) % 2 ^ 64)) perm (pgRoundDown va) pa m

/-- `if(do_free)` -/
def freeIf (kend : Nat) (doFree : Bool) (pa : Nat) (m : Mem) : Except Panic Mem :=
  if doFree then kfree kend pa m else .ok m

/-- `for(a = va; a < va + npages*PGSIZE; a += PGSIZE)` -/
def unmapLoop (kend pagetable : Nat) (doFree : Bool) (limit a : Nat) (m : Mem) :
    Except Panic Mem :=
  if _more : a < limit then do
    let (pte, m) ← walk pagetable a false m
    match pte with
    | none => .error .uvmunmapWalk
    | some pte =>
      let entry := m.load pte
      if valid entry = false then .error .uvmunmapNotMapped
      else if pteFlags entry = pteV then .error .uvmunmapNotLeaf
      else
        let m ← freeIf kend doFree (pte2pa entry) m
        unmapLoop kend pagetable doFree limit (a + pgsize) (m.store pte 0)
  else .ok m
termination_by limit - a
decreasing_by
  unfold pgsize
  omega

def uvmunmap (kend pagetable va npages : Nat) (doFree : Bool) (m : Mem) : Except Panic Mem :=
  if va % pgsize ≠ 0 then .error .uvmunmapNotAligned
  else unmapLoop kend pagetable doFree ((va + npages * pgsize) % 2 ^ 64) va m

/-- `none` if out of memory. -/
def uvmcreate (m : Mem) : Option (Nat × Mem) :=
  (kalloc m).map fun r => (r.1, r.2.memset r.1 0)

def uvmclear (pagetable va : Nat) (m : Mem) : Except Panic Mem := do
  let (pte, m) ← walk pagetable va false m
  match pte with
  | none => .error .uvmclear
  | some pte => .ok (m.store pte (clearUser (m.load pte)))

end Sistemas.Xv6.Vm
