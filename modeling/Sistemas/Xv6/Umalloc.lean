import Mathlib.Algebra.Group.Nat.Defs
import Mathlib.Logic.Function.Basic
import Sistemas.Transition.Loop
import Sistemas.Transition.Run

/-! # User memory

`malloc` and `free` of `umalloc.c`.  A pointer is a number of bytes, and a header has the two
fields that the code uses.  `base` is the static header, somewhere below the memory that `sbrk`
gives.

What `sbrk` does is left open but for this: it fails, or it gives memory above all that there
was before.  A process never has more than `maxMemory` bytes; the kernel has only 128 megabytes
for all of them.
-/

namespace Sistemas.Xv6.Umalloc

/-! ## The state -/

/-- `sizeof(Header)` -/
def unit : Nat := 16

/-- A part of the memory, in units. -/
structure Block where
  addr : Nat
  units : Nat
deriving DecidableEq

/-- Where it ends. -/
def Block.stop (b : Block) : Nat := b.addr + unit * b.units

def maxMemory : Nat := 2 ^ 36

structure Heap where
  -- `s.ptr` and `s.size` of the header at an address
  ptr : Nat → Nat
  size : Nat → Nat
  freep : Option Nat
  -- the end of the memory, and what `morecore` has got of it
  brk : Nat
  obtained : List Block

/-- What `sbrk` leaves between the memory that there is and the new memory, for the number of
times it has succeeded so far; `none` if it fails. -/
abbrev Sbrk := Nat → Option Nat

def Heap.setPtr (h : Heap) (a v : Nat) : Heap := { h with ptr := Function.update h.ptr a v }

def Heap.setSize (h : Heap) (a v : Nat) : Heap := { h with size := Function.update h.size a v }

/-- `s.size += n` of a `uint` -/
def Heap.addSize (h : Heap) (a n : Nat) : Heap := h.setSize a ((h.size a + n) % 2 ^ 32)

/-! ## free -/

/-- The loop of `free`: the block after which `bp` belongs. -/
def findBody (h : Heap) (bp p : Nat) : Nat ⊕ Nat :=
  if p < bp ∧ bp < h.ptr p then .inr p
  else if h.ptr p ≤ p ∧ (p < bp ∨ bp < h.ptr p) then .inr p
  else .inl (h.ptr p)

/-- `free` behind its loop: first the block is joined to the next one ... -/
def joinNext (h : Heap) (bp p : Nat) : Heap :=
  if bp + unit * h.size bp = h.ptr p then
    (h.addSize bp (h.size (h.ptr p))).setPtr bp (h.ptr (h.ptr p))
  else h.setPtr bp (h.ptr p)

/-- ... and then to the one before it. -/
def joinPrev (h : Heap) (bp p : Nat) : Heap :=
  if p + unit * h.size p = bp then (h.addSize p (h.size bp)).setPtr p (h.ptr bp)
  else h.setPtr p bp

def insert (h : Heap) (bp p : Nat) : Heap := { joinPrev (joinNext h bp p) bp p with freep := some p }

/-- `none` if `fuel` does not suffice for the loop. -/
def free (fuel ap : Nat) (h : Heap) : Option Heap := do
  let bp := ap - unit
  let p ← Loop.run (findBody h bp) fuel (← h.freep)
  some (insert h bp p)

/-! ## malloc -/

def sbrk (gap : Sbrk) (nu : Nat) (h : Heap) : Option (Nat × Heap) := do
  let g ← gap h.obtained.length
  let p := h.brk + g
  if p + unit * nu ≤ maxMemory then
    some (p, { h with brk := p + unit * nu, obtained := h.obtained ++ [{ addr := p, units := nu }] })
  else none

/-- `some none` stands for the result 0. -/
def morecore (gap : Sbrk) (fuel nu : Nat) (h : Heap) : Option (Option (Heap × Nat)) :=
  let nu := max nu 4096
  match sbrk gap nu h with
  | none => some none
  | some (hp, h) => do
    let h ← free fuel (hp + unit) (h.setSize hp nu)
    some (some (h, ← h.freep))

/-- The block that is found, and the heap without it. -/
def take (h : Heap) (prevp p nunits : Nat) : Heap × Nat :=
  if h.size p = nunits then ({ h.setPtr prevp (h.ptr p) with freep := some prevp }, p)
  else
    -- allocate tail end
    let h := h.setSize p (h.size p - nunits)
    let tail := p + unit * h.size p
    ({ h.setSize tail nunits with freep := some prevp }, tail)

/-- The loop of `malloc`: the heap and the header that it finds. -/
def findLoop (gap : Sbrk) (nunits : Nat) : Nat → Heap → Nat → Nat → Option (Heap × Option Nat)
  | 0, _, _, _ => none
  | fuel + 1, h, prevp, p =>
    if nunits ≤ h.size p then
      let (h, p) := take h prevp p nunits
      some (h, some p)
    else if h.freep = some p then do
      match ← morecore gap fuel nunits h with
      | none => some (h, none)
      | some (h, p) => findLoop gap nunits fuel h p (h.ptr p)
    else findLoop gap nunits fuel h p (h.ptr p)

def nunitsFor (nbytes : Nat) : Nat := (nbytes + unit - 1) / unit + 1

/-- The first call makes a list of the static header. -/
def prepare (base : Nat) (h : Heap) : Heap × Nat :=
  match h.freep with
  | some p => (h, p)
  | none => ({ (h.setPtr base base).setSize base 0 with freep := some base }, base)

/-- The pointer behind the header; `none` for 0. -/
def malloc (base : Nat) (gap : Sbrk) (fuel nbytes : Nat) (h : Heap) :
    Option (Heap × Option Nat) := do
  let (h, prevp) := prepare base h
  let (h, p) ← findLoop gap (nunitsFor nbytes) fuel h prevp (h.ptr prevp)
  some (h, p.map (· + unit))

/-! ## The program -/

/-- A block that `malloc` has returned. -/
structure Allocated extends Block where
  -- what was asked for
  nbytes : Nat
deriving DecidableEq

structure State where
  heap : Heap
  alloc : List Allocated

inductive Call
  | malloc (nbytes : Nat) (small : nbytes < 2 ^ 30) (gap : Sbrk)
  -- a block that is allocated
  | free (b : Allocated)
  -- the program writes to its memory, where there may be headers later
  | write (a ptr size : Nat)

/-- One call, with so much fuel for its loops. -/
def step (base : Nat) (s : State) : Call × Nat → Option State
  | (.malloc nbytes _ gap, fuel) => do
    let (h, p) ← malloc base gap fuel nbytes s.heap
    match p with
    | none => some { heap := h, alloc := s.alloc }
    | some ap =>
      let b : Allocated := { addr := ap - unit, units := h.size (ap - unit), nbytes := nbytes }
      some { heap := h, alloc := b :: s.alloc }
  | (.free b, fuel) =>
    if b ∈ s.alloc then do
      let h ← free fuel (b.addr + unit) s.heap
      some { heap := h, alloc := s.alloc.erase b }
    else none
  | (.write a ptr size, _) =>
    if s.alloc.any fun b => b.addr < a ∧ a < b.stop then
      some { s with heap := (s.heap.setPtr a ptr).setSize a size }
    else none

/-- Before the first call. -/
def start (ptr size : Nat → Nat) (brk : Nat) : State where
  heap := { ptr := ptr, size := size, freep := none, brk := brk, obtained := [] }
  alloc := []

end Sistemas.Xv6.Umalloc
