import Sistemas.Data.Bytes

/-! # The file system on the disk

The structures of `fs.h`, as the bytes of the blocks they are stored in.  Of a `Bytes` that
stands for a block only the first `BSIZE` bytes mean anything.
-/

namespace Sistemas.Xv6

/-- `BSIZE` -/
def bsize : Nat := 1024

/-- `FSSIZE` -/
def fssize : Nat := 2000

/-- `ROOTINO` -/
def rootino : Nat := 1

/-- `FSMAGIC` -/
def fsmagic : Nat := 0x10203040

/-- `NDIRECT` -/
def ndirect : Nat := 12

/-- `NINDIRECT` -/
def nindirect : Nat := bsize / 4

/-- `MAXFILE` -/
def maxfile : Nat := ndirect + nindirect

/-- `IPB` -/
def ipb : Nat := bsize / 64

/-- `BPB` -/
def bpb : Nat := bsize * 8

/-- `DIRSIZ` -/
def dirsiz : Nat := 14

def tDir : Nat := 1

def tFile : Nat := 2

def zeroes : Bytes := fun _ => 0

/-! ## Words -/

/-- A block as an array of `uint`. -/
def word (block : Bytes) (j : Nat) : Nat := block.load 4 (4 * j)

def setWord (block : Bytes) (j v : Nat) : Bytes := block.store 4 (4 * j) v

@[simp] theorem word_zeroes (j : Nat) : word zeroes j = 0 := Bytes.load_zero

theorem word_setWord {block : Bytes} {j v : Nat} (small : v < 256 ^ 4) :
    word (setWord block j v) = Function.update (word block) j v := by
  funext k
  by_cases here : k = j
  · subst here
    rw [Function.update_self, word, setWord, Bytes.load_store]
    exact Nat.mod_eq_of_lt small
  · rw [Function.update_of_ne here]
    exact Bytes.load_store_disjoint (by omega)

/-! ## The super block -/

structure Superblock where
  magic : Nat
  size : Nat
  nblocks : Nat
  ninodes : Nat
  nlog : Nat
  logstart : Nat
  inodestart : Nat
  bmapstart : Nat
deriving DecidableEq

namespace Superblock

def fields (sb : Superblock) : List Nat :=
  [sb.magic, sb.size, sb.nblocks, sb.ninodes, sb.nlog, sb.logstart, sb.inodestart, sb.bmapstart]

/-- `memmove(buf, &sb, sizeof(sb))` -/
def store (sb : Superblock) (block : Bytes) : Bytes :=
  block.splice 0 32 fun i => Bytes.digit (sb.fields.getD (i / 4) 0) (i % 4)

/-- `readsb` -/
def load (block : Bytes) : Superblock where
  magic := word block 0
  size := word block 1
  nblocks := word block 2
  ninodes := word block 3
  nlog := word block 4
  logstart := word block 5
  inodestart := word block 6
  bmapstart := word block 7

/-- `IBLOCK` -/
def iblock (sb : Superblock) (inum : Nat) : Nat := inum / ipb + sb.inodestart

/-- `BBLOCK` -/
def bblock (sb : Superblock) (b : Nat) : Nat := b / bpb + sb.bmapstart

/-- The number of blocks before the data blocks. -/
def nmeta (sb : Superblock) : Nat := sb.size - sb.nblocks

theorem word_store {sb : Superblock} {block : Bytes} {k : Nat} (lt : k < 8) :
    word (sb.store block) k = sb.fields.getD k 0 % 256 ^ 4 := by
  apply Bytes.load_digits
  intro i small
  have inside : 4 * k + i < 32 := by omega
  have place : (4 * k + i) / 4 = k ∧ (4 * k + i) % 4 = i := by omega
  simp [store, Bytes.splice, inside, place]

theorem load_store {sb : Superblock} {block : Bytes} (small : ∀ v ∈ sb.fields, v < 256 ^ 4) :
    load (sb.store block) = sb := by
  have field : ∀ k < 8, word (sb.store block) k = sb.fields.getD k 0 := by
    intro k lt
    rw [word_store lt, List.getD_eq_getElem _ _ lt]
    exact Nat.mod_eq_of_lt (small _ (List.getElem_mem _))
  rw [load, field 0 (by decide), field 1 (by decide), field 2 (by decide), field 3 (by decide),
    field 4 (by decide), field 5 (by decide), field 6 (by decide), field 7 (by decide)]
  rfl

end Superblock

/-! ## Inodes -/

structure Dinode where
  type : Nat
  major : Nat
  minor : Nat
  nlink : Nat
  size : Nat
  addrs : Vector Nat 13
deriving DecidableEq

namespace Dinode

/-- `addrs[i]` for `i < NDIRECT` -/
def direct (din : Dinode) (i : Fin 12) : Nat := din.addrs[i.val]

/-- `addrs[NDIRECT]` -/
def indirect (din : Dinode) : Nat := din.addrs[12]

def setDirect (din : Dinode) (i : Fin 12) (b : Nat) : Dinode :=
  { din with addrs := din.addrs.set i.val b }

def setIndirect (din : Dinode) (b : Nat) : Dinode :=
  { din with addrs := din.addrs.set 12 b }

def zero : Dinode where
  type := 0
  major := 0
  minor := 0
  nlink := 0
  size := 0
  addrs := Vector.replicate 13 0

def bytes (din : Dinode) : Bytes := fun i =>
  if i < 8 then Bytes.digit ([din.type, din.major, din.minor, din.nlink].getD (i / 2) 0) (i % 2)
  else if i < 12 then Bytes.digit din.size (i - 8)
  else if lt : (i - 12) / 4 < 13 then Bytes.digit din.addrs[(i - 12) / 4] ((i - 12) % 4)
  else 0

/-- `((struct dinode*)block)[slot] = din` -/
def store (din : Dinode) (block : Bytes) (slot : Nat) : Bytes :=
  block.splice (64 * slot) 64 din.bytes

/-- `((struct dinode*)block)[slot]` -/
def load (block : Bytes) (slot : Nat) : Dinode where
  type := block.load 2 (64 * slot)
  major := block.load 2 (64 * slot + 2)
  minor := block.load 2 (64 * slot + 4)
  nlink := block.load 2 (64 * slot + 6)
  size := block.load 4 (64 * slot + 8)
  addrs := Vector.ofFn fun i => block.load 4 (64 * slot + 12 + 4 * i.val)

/-- The values fit into their fields. -/
structure Fits (din : Dinode) : Prop where
  type : din.type < 256 ^ 2
  major : din.major < 256 ^ 2
  minor : din.minor < 256 ^ 2
  nlink : din.nlink < 256 ^ 2
  size : din.size < 256 ^ 4
  addrs : ∀ i (lt : i < 13), din.addrs[i] < 256 ^ 4

theorem load_fits {block : Bytes} {slot : Nat} : (load block slot).Fits where
  type := Bytes.load_lt
  major := Bytes.load_lt
  minor := Bytes.load_lt
  nlink := Bytes.load_lt
  size := Bytes.load_lt
  addrs i lt := by
    rw [load, Vector.getElem_ofFn]
    exact Bytes.load_lt

theorem zero_fits : zero.Fits := by
  constructor <;> decide

theorem Fits.resize {din : Dinode} {size : Nat} (fits : din.Fits) (small : size < 256 ^ 4) :
    { din with size := size }.Fits :=
  ⟨fits.type, fits.major, fits.minor, fits.nlink, small, fits.addrs⟩

theorem Fits.setDirect {din : Dinode} (fits : din.Fits) {i : Fin 12} {b : Nat}
    (small : b < 256 ^ 4) : (din.setDirect i b).Fits := by
  refine ⟨fits.type, fits.major, fits.minor, fits.nlink, fits.size, ?_⟩
  intro k lt
  simp only [Dinode.setDirect, Vector.getElem_set]
  split
  · exact small
  · exact fits.addrs k lt

theorem Fits.setIndirect {din : Dinode} (fits : din.Fits) {b : Nat} (small : b < 256 ^ 4) :
    (din.setIndirect b).Fits := by
  refine ⟨fits.type, fits.major, fits.minor, fits.nlink, fits.size, ?_⟩
  intro k lt
  simp only [Dinode.setIndirect, Vector.getElem_set]
  split
  · exact small
  · exact fits.addrs k lt

@[simp] theorem load_zeroes {slot : Nat} : load zeroes slot = zero := by
  have field : ∀ width off, zeroes.load width off = 0 := fun _ _ => Bytes.load_zero
  simp only [load, field]
  decide

variable {din : Dinode} {block : Bytes} {slot : Nat}

@[simp] theorem setDirect_direct {i : Fin 12} {b : Nat} :
    (din.setDirect i b).direct = Function.update din.direct i b := by
  funext k
  by_cases here : k = i
  · subst here
    simp [setDirect, direct]
  · have ne : i.val ≠ k.val := fun same => here (Fin.ext same.symm)
    simp [setDirect, direct, here, ne]

@[simp] theorem setDirect_indirect {i : Fin 12} {b : Nat} :
    (din.setDirect i b).indirect = din.indirect := by
  simp [setDirect, indirect, i.isLt.ne]

@[simp] theorem setDirect_size {i : Fin 12} {b : Nat} : (din.setDirect i b).size = din.size := rfl

@[simp] theorem setIndirect_direct {b : Nat} : (din.setIndirect b).direct = din.direct := by
  funext k
  simp [setIndirect, direct, k.isLt.ne']

@[simp] theorem setIndirect_indirect {b : Nat} : (din.setIndirect b).indirect = b := by
  simp [setIndirect, indirect]

@[simp] theorem setIndirect_size {b : Nat} : (din.setIndirect b).size = din.size := rfl

@[simp] theorem direct_size {n : Nat} : { din with size := n }.direct = din.direct := rfl

@[simp] theorem indirect_size {n : Nat} : { din with size := n }.indirect = din.indirect := rfl

/-- A field of the stored inode. -/
theorem load_store_field {width off v : Nat} (inside : off + width ≤ 64)
    (digits : ∀ i < width, din.bytes (off + i) = Bytes.digit v i) :
    (din.store block slot).load width (64 * slot + off) = v % 256 ^ width := by
  apply Bytes.load_digits
  intro i lt
  rw [Nat.add_assoc, store, Bytes.splice_inside (by omega)]
  exact digits i lt

theorem load_store (fits : din.Fits) : load (din.store block slot) slot = din := by
  have short : ∀ k < 4, (din.store block slot).load 2 (64 * slot + 2 * k) =
      [din.type, din.major, din.minor, din.nlink].getD k 0 % 256 ^ 2 := by
    intro k lt
    apply load_store_field (by omega)
    intro i small
    have place : (2 * k + i) / 2 = k ∧ (2 * k + i) % 2 = i ∧ 2 * k + i < 8 := by omega
    simp [bytes, place]
  have size : (din.store block slot).load 4 (64 * slot + 8) = din.size % 256 ^ 4 := by
    apply load_store_field (by omega)
    intro i small
    simp [bytes, show 8 + i < 12 by omega]
  have addr : ∀ k (lt : k < 13), (din.store block slot).load 4 (64 * slot + 12 + 4 * k) =
      din.addrs[k] := by
    intro k lt
    rw [Nat.add_assoc]
    refine (load_store_field (by omega) ?_).trans (Nat.mod_eq_of_lt (fits.addrs k lt))
    intro i small
    have place : (12 + 4 * k + i - 12) / 4 = k ∧ (12 + 4 * k + i - 12) % 4 = i := by
      omega
    simp [bytes, place, lt, show ¬ 12 + 4 * k + i < 8 by omega,
      show ¬ 12 + 4 * k + i < 12 by omega]
  have type := short 0 (by decide)
  have major := short 1 (by decide)
  have minor := short 2 (by decide)
  have nlink := short 3 (by decide)
  simp only [Nat.mul_zero, Nat.add_zero, Nat.mul_one] at type major minor nlink
  have addrs : Vector.ofFn (fun i : Fin 13 =>
      (din.store block slot).load 4 (64 * slot + 12 + 4 * i.val)) = din.addrs := by
    apply Vector.ext
    intro i lt
    rw [Vector.getElem_ofFn]
    exact addr i lt
  rw [load, type, major, minor, nlink, size, addrs]
  simp only [List.getD_cons_zero, List.getD_cons_succ]
  rw [Nat.mod_eq_of_lt fits.type, Nat.mod_eq_of_lt fits.major, Nat.mod_eq_of_lt fits.minor,
    Nat.mod_eq_of_lt fits.nlink, Nat.mod_eq_of_lt fits.size]

theorem load_store_ne {slot' : Nat} (ne : slot' ≠ slot) :
    load (din.store block slot) slot' = load block slot' := by
  have field : ∀ width off, off + width ≤ 64 →
      (din.store block slot).load width (64 * slot' + off) =
        block.load width (64 * slot' + off) := by
    intro width off inside
    exact Bytes.load_splice_disjoint (by omega)
  have addr : ∀ i : Fin 13, (din.store block slot).load 4 (64 * slot' + 12 + 4 * i.val) =
      block.load 4 (64 * slot' + 12 + 4 * i.val) := by
    intro i
    rw [Nat.add_assoc]
    exact field 4 (12 + 4 * i.val) (by omega)
  have type := field 2 0 (by decide)
  rw [Nat.add_zero] at type
  simp [load, type, addr, field]

end Dinode

end Sistemas.Xv6
