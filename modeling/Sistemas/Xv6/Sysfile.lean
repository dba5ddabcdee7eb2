import Sistemas.Xv6.Mkfs
import Sistemas.Transition.Run

/-! # System calls on names

Directories, path names and the system calls of `sysfile.c` that change them, with the
inode references that processes hold.  Of an inode the model has its type and link count,
and the entries if it is a directory; what files contain is left out.  `ref` and `valid` are
those of the inode table.  `space` says whether `balloc` finds a block.
-/

namespace Sistemas.Xv6.Sysfile

/-! ## Paths -/

/-- A path element, cut to `DIRSIZ` bytes. -/
abbrev Name := List UInt8

def slash : UInt8 := 47

/-- The element, and the path behind it. -/
def skipelem (path : List UInt8) : Option (Name × List UInt8) :=
  let s := path.dropWhile (· == slash)
  if s = [] then none
  else some ((s.takeWhile (· != slash)).take dirsiz,
    (s.dropWhile (· != slash)).dropWhile (· == slash))

/-- `while((path = skipelem(path, name)) != 0)`, at most so often. -/
def elementsLoop : Nat → List UInt8 → List Name
  | 0, _ => []
  | fuel + 1, path =>
    match skipelem path with
    | some (name, rest) => name :: elementsLoop fuel rest
    | none => []

/-- The elements that `skipelem` gives. -/
def elements (path : List UInt8) : List Name := elementsLoop path.length path

def dot : Name := Mkfs.ascii "."

def dotdot : Name := Mkfs.ascii ".."

/-! ## The state -/

inductive FileType
  | free
  | dir
  | file
  | device
deriving DecidableEq

structure Dirent where
  -- 0 if the entry is empty
  inum : Nat
  name : Name
deriving DecidableEq

structure Inode where
  type : FileType
  major : Int
  nlink : Int
  entries : List Dirent
deriving DecidableEq

structure File where
  ref : Nat
  ip : Nat
deriving DecidableEq

/-- `NFILE` -/
def nfile : Nat := 100

/-- `NOFILE` -/
def nofile : Nat := 16

/-- `NPROC` -/
def nproc : Nat := 64

/-- `NDEV` -/
def ndev : Int := 10

structure Proc where
  cwd : Nat
  ofile : Fin nofile → Option (Fin nfile)

structure State where
  inode : Nat → Inode
  ref : Nat → Nat
  valid : Nat → Bool
  file : Fin nfile → File
  proc : Fin nproc → Option Proc

inductive Panic
  | ilock
  | ilockNoType
  | dirlookupNotDir
  | unlinkNlink
  | filedup
  | fileclose
deriving DecidableEq

/-! ## Inodes -/

def State.setInode (s : State) (inum : Nat) (ip : Inode) : State :=
  { s with inode := Function.update s.inode inum ip }

def State.setEntries (s : State) (dp : Nat) (entries : List Dirent) : State :=
  s.setInode dp { s.inode dp with entries := entries }

/-- `nlink` is a `short`. -/
def State.addNlink (s : State) (ip : Nat) (n : Int) : State :=
  s.setInode ip { s.inode ip with nlink := ((s.inode ip).nlink + n).bmod (2 ^ 16) }

/-- An entry of the table that nobody refers to is taken for another inode. -/
def iget (inum : Nat) (s : State) : State :=
  { s with
    ref := Function.update s.ref inum (s.ref inum + 1)
    valid := if s.ref inum = 0 then Function.update s.valid inum false else s.valid }

def idup (ip : Nat) (s : State) : State :=
  { s with ref := Function.update s.ref ip (s.ref ip + 1) }

def ilock (ip : Nat) (s : State) : Except Panic State :=
  if s.ref ip < 1 then .error .ilock
  else if s.valid ip then .ok s
  else if (s.inode ip).type = .free then .error .ilockNoType
  else .ok { s with valid := Function.update s.valid ip true }

/-- `itrunc`, and the inode is free. -/
def ifree (ip : Nat) (s : State) : State :=
  { s with
    inode := Function.update s.inode ip { s.inode ip with type := .free, entries := [] }
    valid := Function.update s.valid ip false }

def iput (ip : Nat) (s : State) : State :=
  let s := if s.ref ip = 1 ∧ s.valid ip = true ∧ (s.inode ip).nlink = 0 then ifree ip s else s
  { s with ref := Function.update s.ref ip (s.ref ip - 1) }

def ialloc (type : FileType) (s : State) : Option (Nat × State) :=
  ((List.range' 1 (Mkfs.ninodes - 1)).find? fun inum => (s.inode inum).type = .free).map
    fun inum => (inum, iget inum
      (s.setInode inum { type := type, major := 0, nlink := 0, entries := [] }))

/-! ## Directories -/

/-- The number of the entry with this name, and its inode. -/
def lookup (entries : List Dirent) (name : Name) : Option (Nat × Nat) :=
  (entries.findIdx? fun de => de.inum ≠ 0 ∧ de.name = name).bind fun off =>
    (entries[off]?).map fun de => (off, de.inum)

/-- The inode, and the number of its entry. -/
def dirlookup (dp : Nat) (name : Name) (s : State) : Except Panic (Option (Nat × Nat) × State) :=
  if (s.inode dp).type ≠ .dir then .error .dirlookupNotDir
  else
    match lookup (s.inode dp).entries name with
    | some (off, inum) => .ok (some (inum, off), iget inum s)
    | none => .ok (none, s)

/-- `writei` of the entry, into an empty one or at the end; there a new block may be needed. -/
def writeDirent (entries : List Dirent) (de : Dirent) (space : Bool) : Option (List Dirent) :=
  match entries.findIdx? fun de => de.inum = 0 with
  | some off => some (entries.set off de)
  | none =>
    if (entries.length + 1) * 16 ≤ maxfile * bsize ∧
        (entries.length * 16 % bsize ≠ 0 ∨ space = true) then
      some (entries ++ [de])
    else none

/-- `false` stands for `-1`. -/
def dirlink (dp : Nat) (name : Name) (inum : Nat) (space : Bool) (s : State) :
    Except Panic (Bool × State) := do
  let (found, s) ← dirlookup dp name s
  match found with
  | some (ip, _) => .ok (false, iput ip s)
  | none =>
    match writeDirent (s.inode dp).entries { inum := inum, name := name } space with
    | some entries => .ok (true, s.setEntries dp entries)
    | none => .ok (false, s)

/-! ## Path names -/

/-- The loop of `namex`: the inode, and the last element if its parent is asked for. -/
def namexLoop (parent : Bool) : Nat → List Name → State →
    Except Panic (Option (Nat × Name) × State)
  | ip, [], s => .ok (if parent then (none, iput ip s) else (some (ip, []), s))
  | ip, name :: rest, s => do
    let s ← ilock ip s
    if (s.inode ip).type ≠ .dir then .ok (none, iput ip s)
    else if parent && rest.isEmpty then .ok (some (ip, name), s)
    else
      let (next, s) ← dirlookup ip name s
      match next with
      | some (next, _) => namexLoop parent next rest (iput ip s)
      | none => .ok (none, iput ip s)

/-- Where a path starts. -/
def startOf (cwd : Nat) (path : List UInt8) : Nat :=
  if path.head? = some slash then rootino else cwd

def namex (parent : Bool) (cwd : Nat) (path : List UInt8) (s : State) :
    Except Panic (Option (Nat × Name) × State) :=
  let s := if path.head? = some slash then iget rootino s else idup cwd s
  namexLoop parent (startOf cwd path) (elements path) s

def namei (cwd : Nat) (path : List UInt8) (s : State) : Except Panic (Option Nat × State) := do
  let (found, s) ← namex false cwd path s
  .ok (found.map Prod.fst, s)

def nameiparent (cwd : Nat) (path : List UInt8) (s : State) :
    Except Panic (Option (Nat × Name) × State) :=
  namex true cwd path s

/-! ## System calls -/

/-- `Create . and .. entries.` -/
def makeDots (ip dp : Nat) (space : Nat → Bool) (s : State) : Except Panic (Bool × State) := do
  let (made, s) ← dirlink ip dot ip (space 0) s
  if made then dirlink ip dotdot dp (space 1) s else .ok (false, s)

/-- The entries of the new inode, and the entry for it in its directory. -/
def enter (type : FileType) (ip dp : Nat) (name : Name) (space : Nat → Bool) (s : State) :
    Except Panic (Bool × State) := do
  let (made, s) ← if type = .dir then makeDots ip dp space s else .ok (true, s)
  if made then dirlink dp name ip (space 2) s else .ok (false, s)

/-- The new inode, or an old one that is a file; it is locked. -/
def create (cwd : Nat) (path : List UInt8) (type : FileType) (major : Int) (space : Nat → Bool)
    (s : State) : Except Panic (Option Nat × State) := do
  let (found, s) ← nameiparent cwd path s
  match found with
  | none => .ok (none, s)
  | some (dp, name) =>
    let s ← ilock dp s
    let (found, s) ← dirlookup dp name s
    match found with
    | some (ip, _) =>
      let s ← ilock ip (iput dp s)
      if type = .file ∧ ((s.inode ip).type = .file ∨ (s.inode ip).type = .device) then
        .ok (some ip, s)
      else .ok (none, iput ip s)
    | none =>
      match ialloc type s with
      | none => .ok (none, iput dp s)
      | some (ip, s) =>
        let s ← ilock ip s
        let s := s.setInode ip { s.inode ip with major := major, nlink := 1 }
        let (linked, s) ← enter type ip dp name space s
        if linked then
          let s := if type = .dir then s.addNlink dp 1 else s
          .ok (some ip, iput dp s)
        else
          -- something went wrong. de-allocate ip.
          let s := s.setInode ip { s.inode ip with nlink := 0 }
          .ok (none, iput dp (iput ip s))

def State.setProc (s : State) (p : Fin nproc) (q : Option Proc) : State :=
  { s with proc := Function.update s.proc p q }

def State.setFile (s : State) (f : Fin nfile) (file : File) : State :=
  { s with file := Function.update s.file f file }

def filealloc (s : State) : Option (Fin nfile) :=
  (List.finRange nfile).find? fun f => (s.file f).ref = 0

def fdalloc (q : Proc) : Option (Fin nofile) :=
  (List.finRange nofile).find? fun fd => (q.ofile fd).isNone

def oCreate : Nat := 0x200

/-- The inode that `open` is given, locked. -/
def openInode (cwd : Nat) (path : List UInt8) (omode : Nat) (space : Nat → Bool) (s : State) :
    Except Panic (Option Nat × State) :=
  if omode &&& oCreate ≠ 0 then create cwd path .file 0 space s
  else do
    let (found, s) ← namei cwd path s
    match found with
    | none => .ok (none, s)
    | some ip =>
      let s ← ilock ip s
      if (s.inode ip).type = .dir ∧ omode ≠ 0 then .ok (none, iput ip s) else .ok (some ip, s)

def sysOpen (p : Fin nproc) (q : Proc) (path : List UInt8) (omode : Nat) (space : Nat → Bool)
    (s : State) : Except Panic (Int × State) := do
  let (found, s) ← openInode q.cwd path omode space s
  match found with
  | none => .ok (-1, s)
  | some ip =>
    if (s.inode ip).type = .device ∧ ((s.inode ip).major < 0 ∨ ndev ≤ (s.inode ip).major) then
      .ok (-1, iput ip s)
    else
      match filealloc s, fdalloc q with
      | some f, some fd =>
        .ok (fd.val, (s.setFile f { ref := 1, ip := ip }).setProc p
          (some { q with ofile := Function.update q.ofile fd (some f) }))
      | _, _ => .ok (-1, iput ip s)

/-- `sys_mkdir` and `sys_mknod` -/
def sysMake (q : Proc) (path : List UInt8) (type : FileType) (major : Int) (space : Nat → Bool)
    (s : State) : Except Panic (Int × State) := do
  let (made, s) ← create q.cwd path type major space s
  match made with
  | none => .ok (-1, s)
  | some ip => .ok (0, iput ip s)

/-- The new name, in the directory of the path `new`. -/
def linkName (cwd ip : Nat) (new : List UInt8) (space : Bool) (s : State) :
    Except Panic (Bool × State) := do
  let (found, s) ← nameiparent cwd new s
  match found with
  | none => .ok (false, s)
  | some (dp, name) =>
    let s ← ilock dp s
    let (linked, s) ← dirlink dp name ip space s
    .ok (linked, iput dp s)

def sysLink (q : Proc) (old new : List UInt8) (space : Bool) (s : State) :
    Except Panic (Int × State) := do
  let (found, s) ← namei q.cwd old s
  match found with
  | none => .ok (-1, s)
  | some ip =>
    let s ← ilock ip s
    if (s.inode ip).type = .dir then .ok (-1, iput ip s)
    else
      let s := s.addNlink ip 1
      let (linked, s) ← linkName q.cwd ip new space s
      if linked then .ok (0, iput ip s)
      else
        let s ← ilock ip s
        .ok (-1, iput ip (s.addNlink ip (-1)))

/-- Is the directory empty except for "." and ".." ? -/
def isdirempty (entries : List Dirent) : Bool := (entries.drop 2).all fun de => de.inum = 0

/-- The entry is cleared and the counts go down. -/
def removeEntry (dp ip off : Nat) (s : State) : State :=
  let type := (s.inode ip).type
  let s := s.setEntries dp ((s.inode dp).entries.set off { inum := 0, name := [] })
  let s := if type = .dir then s.addNlink dp (-1) else s
  iput ip ((iput dp s).addNlink ip (-1))

def sysUnlink (q : Proc) (path : List UInt8) (s : State) : Except Panic (Int × State) := do
  let (found, s) ← nameiparent q.cwd path s
  match found with
  | none => .ok (-1, s)
  | some (dp, name) =>
    let s ← ilock dp s
    -- Cannot unlink "." or "..".
    if name = dot ∨ name = dotdot then .ok (-1, iput dp s)
    else
      let (found, s) ← dirlookup dp name s
      match found with
      | none => .ok (-1, iput dp s)
      | some (ip, off) =>
        let s ← ilock ip s
        if (s.inode ip).nlink < 1 then .error .unlinkNlink
        else if (s.inode ip).type = .dir ∧ isdirempty (s.inode ip).entries = false then
          .ok (-1, iput dp (iput ip s))
        else .ok (0, removeEntry dp ip off s)

def sysChdir (p : Fin nproc) (q : Proc) (path : List UInt8) (s : State) :
    Except Panic (Int × State) := do
  let (found, s) ← namei q.cwd path s
  match found with
  | none => .ok (-1, s)
  | some ip =>
    let s ← ilock ip s
    if (s.inode ip).type ≠ .dir then .ok (-1, iput ip s)
    else .ok (0, (iput q.cwd s).setProc p (some { q with cwd := ip }))

def fileclose (f : Fin nfile) (s : State) : Except Panic State :=
  let file := s.file f
  if file.ref < 1 then .error .fileclose
  else if 1 < file.ref then .ok (s.setFile f { file with ref := file.ref - 1 })
  else .ok (iput file.ip (s.setFile f { file with ref := 0 }))

def filedup (f : Fin nfile) (s : State) : Except Panic State :=
  let file := s.file f
  if file.ref < 1 then .error .filedup else .ok (s.setFile f { file with ref := file.ref + 1 })

def sysClose (p : Fin nproc) (q : Proc) (fd : Fin nofile) (s : State) :
    Except Panic (Int × State) :=
  match q.ofile fd with
  | none => .ok (-1, s)
  | some f => do
    let s ← fileclose f
      (s.setProc p (some { q with ofile := Function.update q.ofile fd none }))
    .ok (0, s)

/-- A loop over the descriptors, with `f` for each open file. -/
def eachFile (f : Fin nfile → State → Except Panic State) (q : Proc) :
    List (Fin nofile) → State → Except Panic State
  | [], s => .ok s
  | fd :: rest, s =>
    match q.ofile fd with
    | none => eachFile f q rest s
    | some file => do
      let s ← f file s
      eachFile f q rest s

/-- The files and the directory of the new process; `-1` if there is no slot for it. -/
def fork (q : Proc) (child : Fin nproc) (s : State) : Except Panic (Int × State) :=
  if (s.proc child).isSome then .ok (-1, s)
  else do
    let s ← eachFile filedup q (List.finRange nofile) s
    .ok (0, (idup q.cwd s).setProc child (some q))

def exit (p : Fin nproc) (q : Proc) (s : State) : Except Panic (Int × State) := do
  let s ← eachFile fileclose q (List.finRange nofile) s
  .ok (0, (iput q.cwd s).setProc p none)

inductive Call
  | open (path : List UInt8) (omode : Nat) (space : Nat → Bool)
  | mkdir (path : List UInt8) (space : Nat → Bool)
  | mknod (path : List UInt8) (major : Int) (space : Nat → Bool)
  | link (old new : List UInt8) (space : Bool)
  | unlink (path : List UInt8)
  | chdir (path : List UInt8)
  | close (fd : Fin nofile)
  | fork (child : Fin nproc)
  | exit

/-- What process `p` gets from the call. -/
def perform (s : State) (p : Fin nproc) (q : Proc) : Call → Except Panic (Int × State)
  | .open path omode space => sysOpen p q path omode space s
  | .mkdir path space => sysMake q path .dir 0 space s
  | .mknod path major space => sysMake q path .device major space s
  | .link old new space => sysLink q old new space s
  | .unlink path => sysUnlink q path s
  | .chdir path => sysChdir p q path s
  | .close fd => sysClose p q fd s
  | .fork child => fork q child s
  | .exit => exit p q s

/-- A call of process `p` that is completed. -/
def step (s : State) (l : Fin nproc × Call) : Option State :=
  match s.proc l.1 with
  | none => none
  | some q =>
    match perform s l.1 q l.2 with
    | .ok (_, s) => some s
    | .error _ => none

end Sistemas.Xv6.Sysfile
