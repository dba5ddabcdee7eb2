import Sistemas.Xv6.FsBlocks
import Sistemas.Transition.Run

/-! # Blocks and inode contents

The block allocator and the inode layer of `fs.c`, on the blocks as the buffer cache shows
them.  `ip` is the inode in memory, from `ilock` until the `iupdate` that writes it back.  A
panic ends the machine.
-/

namespace Sistemas.Xv6

/-- A super block as `mkfs` writes it: the inode blocks, the bitmap and the data blocks come
    one after the other. -/
structure Layout extends Superblock where
  inodes_below : ∀ inum < ninodes, toSuperblock.iblock inum < bmapstart
  bitmap_below : ∀ b < size, toSuperblock.bblock b < toSuperblock.nmeta
  small : size < 256 ^ 4

inductive Panic
  | freeingFreeBlock
  | bmapOutOfRange
  | ilockNoType
deriving DecidableEq

abbrev Blocks := Nat → Bytes

namespace Fs

section

variable (sb : Layout)

/-! ## Blocks -/

def bzero (block : Blocks) (b : Nat) : Blocks := Function.update block b zeroes

/-- The bit of block `b` in the bitmap. -/
def bit (block : Blocks) (b : Nat) : Bool := (block (sb.bblock b)).bit (b % bpb)

/-- `for(bi = 0; bi < BPB && b + bi < sb.size; bi++)`: the first block that is free. -/
def scan (block : Blocks) (b : Nat) : Option Nat :=
  ((List.range bpb).find? fun bi =>
    b + bi < sb.size && !(block (sb.bblock b)).bit bi).map (b + ·)

/-- `0` if there is no free block. -/
def balloc (block : Blocks) : Nat × Blocks :=
  match (List.range ((sb.size + bpb - 1) / bpb)).findSome? fun k => scan sb block (k * bpb) with
  | some b =>
    let bp := sb.bblock b
    (b, bzero (Function.update block bp ((block bp).setBit (b % bpb))) b)
  | none => (0, block)

def bfree (b : Nat) (block : Blocks) : Except Panic Blocks :=
  let bp := sb.bblock b
  if (block bp).bit (b % bpb) then
    .ok (Function.update block bp ((block bp).clearBit (b % bpb)))
  else .error .freeingFreeBlock

/-! ## Inodes -/

def dinode (block : Blocks) (inum : Nat) : Dinode :=
  Dinode.load (block (sb.iblock inum)) (inum % ipb)

def iupdate (inum : Nat) (ip : Dinode) (block : Blocks) : Blocks :=
  Function.update block (sb.iblock inum)
    (ip.store (block (sb.iblock inum)) (inum % ipb))

def ilock (inum : Nat) (block : Blocks) : Except Panic Dinode :=
  let ip := dinode sb block inum
  if ip.type = 0 then .error .ilockNoType else .ok ip

/-- The inode number and the blocks; `none` if there is no free inode. -/
def ialloc (type : Nat) (block : Blocks) : Option (Nat × Blocks) :=
  ((List.range' 1 (sb.ninodes - 1)).find? fun inum => (dinode sb block inum).type = 0).map
    fun inum => (inum, iupdate sb inum { Dinode.zero with type := type } block)

/-! ## Inode contents -/

/-- `bn < NDIRECT` -/
def bmapDirect (ip : Dinode) (i : Fin 12) (block : Blocks) : Nat × Dinode × Blocks :=
  if ip.direct i = 0 then
    let (addr, block) := balloc sb block
    if addr = 0 then (0, ip, block) else (addr, ip.setDirect i addr, block)
  else (ip.direct i, ip, block)

/-- Load the indirect block, allocating if necessary. -/
def bmapIndirect (ip : Dinode) (block : Blocks) : Nat × Dinode × Blocks :=
  if ip.indirect = 0 then
    let (addr, block) := balloc sb block
    if addr = 0 then (0, ip, block) else (addr, ip.setIndirect addr, block)
  else (ip.indirect, ip, block)

/-- The entry `bn` of the indirect block `ind`. -/
def bmapEntry (ind bn : Nat) (block : Blocks) : Nat × Blocks :=
  let a := word (block ind)
  if a bn = 0 then
    let (addr, block) := balloc sb block
    if addr = 0 then (0, block)
    else (addr, Function.update block ind (setWord (block ind) bn addr))
  else (a bn, block)

/-- The address of block `bn`, `0` if there is no space for it. -/
def bmap (ip : Dinode) (bn : Nat) (block : Blocks) : Except Panic (Nat × Dinode × Blocks) :=
  if lt : bn < 12 then .ok (bmapDirect sb ip ⟨bn, lt⟩ block)
  else if bn - ndirect < nindirect then
    let (ind, ip, block) := bmapIndirect sb ip block
    if ind = 0 then .ok (0, ip, block)
    else
      let (addr, block) := bmapEntry sb ind (bn - ndirect) block
      .ok (addr, ip, block)
  else .error .bmapOutOfRange

/-- `for(i = 0; i < NDIRECT; i++)` -/
def freeDirect : List (Fin 12) → Dinode → Blocks → Except Panic (Dinode × Blocks)
  | [], ip, block => .ok (ip, block)
  | i :: rest, ip, block =>
    if ip.direct i = 0 then freeDirect rest ip block
    else do
      let block ← bfree sb (ip.direct i) block
      freeDirect rest (ip.setDirect i 0) block

/-- `for(j = 0; j < NINDIRECT; j++)` -/
def freeEntries (a : Nat → Nat) : List (Fin 256) → Blocks → Except Panic Blocks
  | [], block => .ok block
  | j :: rest, block =>
    if a j = 0 then freeEntries a rest block
    else do
      let block ← bfree sb (a j) block
      freeEntries a rest block

def freeIndirect (ip : Dinode) (block : Blocks) : Except Panic (Dinode × Blocks) :=
  if ip.indirect = 0 then .ok (ip, block)
  else do
    let block ← freeEntries sb (word (block ip.indirect)) (List.finRange 256) block
    let block ← bfree sb ip.indirect block
    .ok (ip.setIndirect 0, block)

def itrunc (inum : Nat) (ip : Dinode) (block : Blocks) : Except Panic (Dinode × Blocks) := do
  let (ip, block) ← freeDirect sb (List.finRange 12) ip block
  let (ip, block) ← freeIndirect sb ip block
  let ip := { ip with size := 0 }
  .ok (ip, iupdate sb inum ip block)

/-- The bytes at `src`; `none` where the page cannot be read. -/
abbrev Source := Nat → Option UInt8

/-- How many of the `m` bytes from `tot` on can be read. -/
def readable (src : Source) (tot m : Nat) : Nat :=
  ((List.range m).takeWhile fun i => (src (tot + i)).isSome).length

/-- `min(n - tot, BSIZE - off%BSIZE)` -/
def chunk (off left : Nat) : Nat := min left (bsize - off % bsize)

theorem chunk_pos (off : Nat) {left : Nat} (pos : 0 < left) : 0 < chunk off left := by
  have : off % bsize < bsize := Nat.mod_lt _ (by decide)
  unfold chunk
  omega

/-- The loop of `writei`: `tot`, `off`, the inode and the blocks at its end. -/
def writeLoop (src : Source) (n tot off : Nat) (ip : Dinode) (block : Blocks) :
    Except Panic (Nat × Nat × Dinode × Blocks) :=
  if tot < n then do
    let (addr, ip, block) ← bmap sb ip (off / bsize) block
    if addr = 0 then .ok (tot, off, ip, block)
    else
      let m := chunk off (n - tot)
      -- `either_copyin`: what can be read goes into the buffer, even if it is not all
      let k := readable src tot m
      let data := (block addr).splice (off % bsize) k fun i => (src (tot + i)).getD 0
      let block := Function.update block addr data
      if k = m then writeLoop src n (tot + m) (off + m) ip block
      else .ok (tot, off, ip, block)
  else .ok (tot, off, ip, block)
termination_by n - tot
decreasing_by
  have := chunk_pos off (Nat.sub_pos_of_lt ‹tot < n›)
  omega

/-- `none` stands for the result `-1`. -/
def writei (inum : Nat) (ip : Dinode) (src : Source) (off n : Nat) (block : Blocks) :
    Except Panic (Option Nat × Dinode × Blocks) :=
  if ip.size < off ∨ (off + n) % 2 ^ 32 < off then .ok (none, ip, block)
  else if maxfile * bsize < (off + n) % 2 ^ 32 then .ok (none, ip, block)
  else do
    let (tot, off, ip, block) ← writeLoop sb src n 0 off ip block
    let ip := if ip.size < off then { ip with size := off } else ip
    .ok (some tot, ip, iupdate sb inum ip block)

end

/-! ## Operations -/

/-- What the system calls do to inodes. -/
inductive Op (sb : Layout)
  -- `writei` under `ilock`
  | write (inum : Fin sb.ninodes) (src : Source) (off n : UInt32)
  -- `open` with `O_TRUNC`
  | trunc (inum : Fin sb.ninodes)
  -- the last `iput` of an inode without links
  | free (inum : Fin sb.ninodes)
  -- `ialloc`
  | alloc (type : UInt16)
  -- `iupdate` after a change of these fields
  | update (inum : Fin sb.ninodes) (major minor nlink : UInt16)

variable (sb : Layout)

def perform (block : Blocks) : Op sb → Except Panic Blocks
  | .write inum src off n => do
    let ip ← ilock sb inum block
    let (_, _, block) ← writei sb inum ip src off.toNat n.toNat block
    .ok block
  | .trunc inum => do
    let ip ← ilock sb inum block
    let (_, block) ← itrunc sb inum ip block
    .ok block
  | .free inum => do
    let ip ← ilock sb inum block
    let (ip, block) ← itrunc sb inum ip block
    .ok (iupdate sb inum { ip with type := 0 } block)
  | .alloc type => .ok (((ialloc sb type.toNat block).map Prod.snd).getD block)
  | .update inum major minor nlink => do
    let ip ← ilock sb inum block
    .ok (iupdate sb inum
      { ip with major := major.toNat, minor := minor.toNat, nlink := nlink.toNat } block)

def step (block : Blocks) (op : Op sb) : Option Blocks :=
  match perform sb block op with
  | .ok block => some block
  | .error _ => none

end Fs

end Sistemas.Xv6
