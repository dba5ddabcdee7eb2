import Mathlib.Data.List.FinRange
import Sistemas.Data.Bytes
import Sistemas.Data.Paths
import Sistemas.Transition.Ends
import Sistemas.Xv6.Sysfile

/-! # Path name resolution

`namex` as in `fs.c`, with the entries of the inode table and the buffer for a name.

A path is the list of its characters in front of the NUL, and a pointer into it is the list of
those from there on.  A name has `DIRSIZ` bytes, and a NUL behind it only if it is shorter.
An inode is locked while somebody holds its sleep lock; nobody else runs, so that a lock which
is held stays so.  There is one device.
-/

namespace Sistemas.Xv6.Namex

open Sysfile (FileType slash)

/-! ## Names -/

/-- `while(n > 0 && *p && *p == *q)`, with `p` and `q` at offset `i`. -/
def strncmp (p q : Bytes) : Nat → Nat → Int
  | 0, _ => 0
  | n + 1, i =>
    if p i ≠ 0 ∧ p i = q i then strncmp p q n (i + 1)
    else (p i).toNat - (q i).toNat

def namecmp (s t : Bytes) : Int := strncmp s t dirsiz 0

/-- The path behind the element and its slashes, and the buffer with the element. -/
def skipelem (path : List UInt8) (name : Bytes) : Option (List UInt8 × Bytes) :=
  let s := path.dropWhile (· == slash)
  if s = [] then none
  else
    let path := s.dropWhile (· != slash)
    let len := s.length - path.length
    let name :=
      if dirsiz ≤ len then name.splice 0 dirsiz (s.getD · 0)
      else (name.splice 0 len (s.getD · 0)).splice len 1 fun _ => 0
    some (path.dropWhile (· == slash), name)

/-! ## The state -/

structure Dirent where
  -- 0 if the entry is empty
  inum : Nat
  name : Bytes

/-- The inode on the disk; `entries` is the content of a directory. -/
structure Dinode where
  type : FileType
  nlink : Int
  entries : List Dirent

/-- `NINODE` -/
def ninode : Nat := 50

/-- An entry of the inode table; `node` is the copy that it has if it is `valid`. -/
structure Inode where
  inum : Nat
  ref : Nat
  valid : Bool
  locked : Bool
  node : Dinode

structure State where
  inode : Fin ninode → Inode
  disk : Nat → Dinode
  -- that of `myproc()`
  cwd : Fin ninode

inductive Panic
  | igetNoInodes
  | ilock
  | ilockNoType
  | iunlock
  | dirlookupNotDir
  -- waiting for a lock that nobody releases
  | acquiresleep
deriving DecidableEq

def State.setInode (s : State) (ip : Fin ninode) (inode : Inode) : State :=
  { s with inode := Function.update s.inode ip inode }

/-! ## Inodes -/

def iget (inum : Nat) (s : State) : Except Panic (Fin ninode × State) :=
  -- Is the inode already in the table?
  match (List.finRange ninode).find? fun ip =>
      0 < (s.inode ip).ref ∧ (s.inode ip).inum = inum with
  | some ip => .ok (ip, s.setInode ip { s.inode ip with ref := (s.inode ip).ref + 1 })
  | none =>
    match (List.finRange ninode).find? fun ip => (s.inode ip).ref = 0 with
    | some empty =>
      .ok (empty, s.setInode empty { s.inode empty with inum := inum, ref := 1, valid := false })
    | none => .error .igetNoInodes

def idup (ip : Fin ninode) (s : State) : State :=
  s.setInode ip { s.inode ip with ref := (s.inode ip).ref + 1 }

def ilock (ip : Fin ninode) (s : State) : Except Panic State :=
  let inode := s.inode ip
  if inode.ref < 1 then .error .ilock
  else if inode.locked then .error .acquiresleep
  else if inode.valid then .ok (s.setInode ip { inode with locked := true })
  else
    let node := s.disk inode.inum
    if node.type = .free then .error .ilockNoType
    else .ok (s.setInode ip { inode with locked := true, valid := true, node := node })

def iunlock (ip : Fin ninode) (s : State) : Except Panic State :=
  let inode := s.inode ip
  if inode.locked = false ∨ inode.ref < 1 then .error .iunlock
  else .ok (s.setInode ip { inode with locked := false })

/-- `itrunc`, and the inode on the disk is free. -/
def ifree (ip : Fin ninode) (s : State) : State :=
  let node := { (s.inode ip).node with type := .free, entries := [] }
  { s.setInode ip { s.inode ip with node := node, valid := false } with
    disk := Function.update s.disk (s.inode ip).inum node }

def iput (ip : Fin ninode) (s : State) : Except Panic State :=
  let inode := s.inode ip
  if inode.ref = 1 ∧ inode.valid = true ∧ inode.node.nlink = 0 then
    if inode.locked then .error .acquiresleep
    else
      let s := ifree ip s
      .ok (s.setInode ip { s.inode ip with ref := (s.inode ip).ref - 1 })
  else .ok (s.setInode ip { inode with ref := inode.ref - 1 })

def iunlockput (ip : Fin ninode) (s : State) : Except Panic State := do
  let s ← iunlock ip s
  iput ip s

/-! ## Directories -/

/-- The offset of the entry is not asked for. -/
def dirlookup (dp : Fin ninode) (name : Bytes) (s : State) :
    Except Panic (Option (Fin ninode) × State) :=
  if (s.inode dp).node.type ≠ .dir then .error .dirlookupNotDir
  else
    match (s.inode dp).node.entries.find? fun de => de.inum ≠ 0 ∧ namecmp name de.name = 0 with
    | some de => do
      let (ip, s) ← iget de.inum s
      .ok (some ip, s)
    | none => .ok (none, s)

/-! ## Paths -/

/-- What is left of a path is shorter. -/
theorem skipelem_shorter {path rest : List UInt8} {name name' : Bytes}
    (more : skipelem path name = some (rest, name')) : rest.length < path.length := by
  rw [skipelem] at more
  split at more
  · cases more
  · next nonempty =>
    cases more
    have h₁ := (List.dropWhile_sublist (l := path) (p := (· == slash))).length_le
    have h₂ := (List.dropWhile_sublist (p := (· == slash))
      (l := (path.dropWhile (· == slash)).dropWhile (· != slash))).length_le
    cases front : path.dropWhile (· == slash) with
    | nil => exact absurd front nonempty
    | cons c behind =>
      have ne : (c != slash) = true := bne_iff_ne.mpr (ne_of_dropWhile front)
      have first := List.dropWhile_cons_of_pos (p := (· != slash)) (l := behind) ne
      have h₃ := (List.dropWhile_sublist (l := behind) (p := (· != slash))).length_le
      rw [front, first] at h₂
      rw [front, List.length_cons] at h₁
      rw [first]
      omega

/-- The loop of `namex`, with the buffer behind `name`. -/
def namexLoop (parent : Bool) (ip : Fin ninode) (path : List UInt8) (name : Bytes) (s : State) :
    Except Panic (Option (Fin ninode) × Bytes × State) :=
  match _more : skipelem path name with
  | none =>
    if parent then do
      let s ← iput ip s
      .ok (none, name, s)
    else .ok (some ip, name, s)
  | some (path, name) => do
    let s ← ilock ip s
    if (s.inode ip).node.type ≠ .dir then
      let s ← iunlockput ip s
      .ok (none, name, s)
    else if parent && path.isEmpty then
      -- Stop one level early.
      let s ← iunlock ip s
      .ok (some ip, name, s)
    else
      let (next, s) ← dirlookup ip name s
      match next with
      | none =>
        let s ← iunlockput ip s
        .ok (none, name, s)
      | some next =>
        let s ← iunlockput ip s
        namexLoop parent next path name s
termination_by path.length
decreasing_by exact skipelem_shorter _more

def namex (path : List UInt8) (parent : Bool) (name : Bytes) (s : State) :
    Except Panic (Option (Fin ninode) × Bytes × State) :=
  if path.head? = some slash then do
    let (ip, s) ← iget rootino s
    namexLoop parent ip path name s
  else namexLoop parent s.cwd path name (idup s.cwd s)

/-- `name` is what the local buffer happens to hold. -/
def namei (path : List UInt8) (name : Bytes) (s : State) :
    Except Panic (Option (Fin ninode) × State) := do
  let (ip, _, s) ← namex path false name s
  .ok (ip, s)

def nameiparent (path : List UInt8) (name : Bytes) (s : State) :
    Except Panic (Option (Fin ninode) × Bytes × State) :=
  namex path true name s

end Sistemas.Xv6.Namex
