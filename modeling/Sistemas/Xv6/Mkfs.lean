import Sistemas.Xv6.FsBlocks
import Sistemas.Xv6.Log

/-! # `mkfs`

The program that builds the first image, `mkfs.c`.  `none` is a failed assertion or a call of
`die`.  The image file can be written anywhere; a read behind its end is short, and `rsect`
dies of it.
-/

namespace Sistemas.Xv6.Mkfs

/-! ## The layout -/

/-- `NINODES` -/
def ninodes : Nat := 200

def nbitmap : Nat := fssize / (bsize * 8) + 1

def ninodeblocks : Nat := ninodes / ipb + 1

def nlog : Nat := logSize

def nmeta : Nat := 2 + nlog + ninodeblocks + nbitmap

def nblocks : Nat := fssize - nmeta

def sb : Superblock where
  magic := fsmagic
  size := fssize
  nblocks := nblocks
  ninodes := ninodes
  nlog := nlog
  logstart := 2
  inodestart := 2 + nlog
  bmapstart := 2 + nlog + ninodeblocks

/-! ## Sectors and inodes -/

/-- The global variables, and the file `fsfd`. -/
structure State where
  sector : Nat → Bytes
  -- the size of the file, in sectors
  sectors : Nat
  freeinode : Nat
  freeblock : Nat

namespace State

def wsect (m : State) (sec : Nat) (buf : Bytes) : State :=
  { m with sector := Function.update m.sector sec buf, sectors := max m.sectors (sec + 1) }

def rsect (m : State) (sec : Nat) : Option Bytes :=
  if sec < m.sectors then some (m.sector sec) else none

def winode (m : State) (inum : Nat) (din : Dinode) : Option State := do
  let bn := sb.iblock inum
  let buf ← m.rsect bn
  some (m.wsect bn (din.store buf (inum % ipb)))

def rinode (m : State) (inum : Nat) : Option Dinode := do
  let buf ← m.rsect (sb.iblock inum)
  some (Dinode.load buf (inum % ipb))

def ialloc (m : State) (type : Nat) : Option (Nat × State) := do
  let inum := m.freeinode
  let m ← { m with freeinode := inum + 1 }.winode inum { Dinode.zero with type := type, nlink := 1 }
  some (inum, m)

/-- The bitmap in which the first `used` blocks are taken. -/
def bitmap : Nat → Bytes
  | 0 => zeroes
  | used + 1 => (bitmap used).setBit used

def balloc (m : State) (used : Nat) : Option State :=
  if used < bsize * 8 then some (m.wsect sb.bmapstart (bitmap used)) else none

/-! ## `iappend` -/

/-- `if(xint(din.addrs[fbn]) == 0)`, for `fbn < NDIRECT`. -/
def mapDirect (m : State) (din : Dinode) (i : Fin 12) : Dinode × State :=
  if din.direct i = 0 then
    (din.setDirect i m.freeblock, { m with freeblock := m.freeblock + 1 })
  else (din, m)

/-- `if(xint(din.addrs[NDIRECT]) == 0)` -/
def mapIndirect (m : State) (din : Dinode) : Dinode × State :=
  if din.indirect = 0 then
    (din.setIndirect m.freeblock, { m with freeblock := m.freeblock + 1 })
  else (din, m)

/-- `if(indirect[fbn - NDIRECT] == 0)`, and the address `x`. -/
def mapEntry (m : State) (din : Dinode) (j : Nat) : Option (Nat × State) := do
  let indirect ← m.rsect din.indirect
  if word indirect j = 0 then
    let indirect := setWord indirect j m.freeblock
    some (word indirect j, { m with freeblock := m.freeblock + 1 }.wsect din.indirect indirect)
  else
    some (word indirect j, m)

/-- The address `x` of block `fbn`, which is allocated if it has none. -/
def mapBlock (m : State) (din : Dinode) (fbn : Nat) : Option (Nat × Dinode × State) :=
  if lt : fbn < 12 then
    let (din, m) := m.mapDirect din ⟨fbn, lt⟩
    some (din.direct ⟨fbn, lt⟩, din, m)
  else do
    let (din, m) := m.mapIndirect din
    let (x, m) ← m.mapEntry din (fbn - 12)
    some (x, din, m)

/-- The bytes that go into block `off / BSIZE`. -/
def room (off n : Nat) : Nat := min n ((off / bsize + 1) * bsize - off)

theorem room_pos (off : Nat) {n : Nat} (pos : 0 < n) : 0 < room off n := by
  have : off < (off / bsize + 1) * bsize := Nat.lt_mul_of_div_lt (Nat.lt_succ_self _) (by decide)
  unfold room
  omega

/-- One round of the loop: the inode and the state after `n1` bytes are written at `off`. -/
def appendBlock (m : State) (din : Dinode) (off : Nat) (p : List UInt8) :
    Option (Dinode × State) := do
  let fbn := off / bsize
  if fbn < maxfile then
    let (x, din, m) ← m.mapBlock din fbn
    let n1 := room off p.length
    let buf ← m.rsect x
    some (din, m.wsect x (buf.splice (off - fbn * bsize) n1 fun i => p.getD i 0))
  else none

/-- `while(n > 0)`: the inode, `off` and the state at the end. -/
def appendLoop (m : State) (din : Dinode) (off : Nat) (p : List UInt8) :
    Option (Dinode × Nat × State) :=
  if p = [] then some (din, off, m)
  else do
    let (din, m) ← m.appendBlock din off p
    let n1 := room off p.length
    m.appendLoop din (off + n1) (p.drop n1)
termination_by p.length
decreasing_by
  have pos := List.length_pos_iff.mpr ‹p ≠ []›
  have := room_pos off pos
  rw [List.length_drop]
  omega

def iappend (m : State) (inum : Nat) (p : List UInt8) : Option State := do
  let din ← m.rinode inum
  let (din, off, m) ← m.appendLoop din din.size p
  m.winode inum { din with size := off }

end State

/-! ## `main` -/

/-- A chunk of a file, what one `read` of it gives. -/
structure Chunk where
  bytes : List UInt8
  some_read : 0 < bytes.length
  fits : bytes.length ≤ bsize

/-- An argument. -/
structure Input where
  arg : List UInt8
  -- what the reads give, until one gives nothing; `none` if the file cannot be opened
  contents : Option (List Chunk)

def ascii (s : String) : List UInt8 := s.toList.map fun c => UInt8.ofNat c.toNat

/-- The bytes of a `struct dirent`. -/
def dirent (inum : Nat) (name : List UInt8) : List UInt8 :=
  [Bytes.digit inum 0, Bytes.digit inum 1] ++ (name ++ List.replicate dirsiz 0).take dirsiz

/-- The argument without `user/`. -/
def basename (arg : List UInt8) : List UInt8 :=
  if (ascii "user/").isPrefixOf arg then arg.drop 5 else arg

/-- The name in the directory, without a leading `_`. -/
def shortname (name : List UInt8) : List UInt8 :=
  if name.head? = some 95 then name.tail else name

/-- `while((cc = read(fd, buf, sizeof(buf))) > 0)` -/
def copy (inum : Nat) : List Chunk → State → Option State
  | [], m => some m
  | chunk :: rest, m => do
    let m ← m.iappend inum chunk.bytes
    copy inum rest m

/-- The body of the loop over the arguments. -/
def addFile (rootino : Nat) (input : Input) (m : State) : Option State := do
  let name := basename input.arg
  -- assert(index(shortname, '/') == 0)
  if 47 ∈ name then none
  let contents ← input.contents
  let (inum, m) ← m.ialloc tFile
  let m ← m.iappend rootino (dirent inum (shortname name))
  copy inum contents m

def addFiles (rootino : Nat) : List Input → State → Option State
  | [], m => some m
  | input :: rest, m => do
    let m ← addFile rootino input m
    addFiles rootino rest m

/-- `for(i = 0; i < FSSIZE; i++) wsect(i, zeroes)` -/
def wipe : Nat → State → State
  | 0, m => m
  | n + 1, m => (wipe n m).wsect n zeroes

/-- The image with a super block. -/
def format : State :=
  (wipe fssize { sector := fun _ => zeroes, sectors := 0, freeinode := 1, freeblock := nmeta }).wsect
    1 (sb.store zeroes)

def makeRoot : Option (Nat × State) := do
  let (root, m) ← format.ialloc tDir
  if root = rootino then
    let m ← m.iappend root (dirent root (ascii "."))
    let m ← m.iappend root (dirent root (ascii ".."))
    some (root, m)
  else none

/-- `fix size of root inode dir` -/
def fixRoot (root : Nat) (m : State) : Option State := do
  let din ← m.rinode root
  m.winode root { din with size := (din.size / bsize + 1) * bsize }

/-- The state when `mkfs` exits with status 0. -/
def main (files : List Input) : Option State := do
  let (root, m) ← makeRoot
  let m ← addFiles root files m
  let m ← fixRoot root m
  m.balloc m.freeblock

end Sistemas.Xv6.Mkfs
