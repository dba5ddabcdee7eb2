import Mathlib.Data.List.TakeWhile
import Sistemas.Xv6.Calls

/-! # `exec`

The program is loaded into a page table of its own, which takes the place of the old one when
nothing can fail any more.  Of the file system there is the inode that `namei` finds, with the bytes
that `readi` gives; the arguments are passed as strings.
-/

namespace Sistemas.Xv6.Calls.Exec

open Vm (Mem pgsize pgRoundUp pteW pteX kalloc kfree)
open Vm.Copy (copyout copyin copyinstr walkaddr)
open Uvm (lift uvmalloc procPagetable procFreepagetable)

/-! ## The file -/

structure Inode where
  size : Nat
  bytes : Bytes

/-- The number of bytes that `readi` copies from `off` on. -/
def readi (ip : Inode) (off n : Nat) : Nat :=
  if ip.size < off ∨ (off + n) % 2 ^ 32 < off then 0
  else if ip.size < (off + n) % 2 ^ 32 then ip.size - off
  else n

structure Elfhdr where
  magic : Nat
  entry : Nat
  phoff : Nat
  phnum : Nat

def Elfhdr.read (b : Bytes) : Elfhdr where
  magic := b.load 4 0
  entry := b.load 8 24
  phoff := b.load 8 32
  phnum := b.load 2 56

structure Proghdr where
  type : Nat
  flags : Nat
  off : Nat
  vaddr : Nat
  filesz : Nat
  memsz : Nat

def Proghdr.read (b : Bytes) (off : Nat) : Proghdr where
  type := b.load 4 off
  flags := b.load 4 (off + 4)
  off := b.load 8 (off + 8)
  vaddr := b.load 8 (off + 16)
  filesz := b.load 8 (off + 32)
  memsz := b.load 8 (off + 40)

def elfMagic : Nat := 0x464C457F

def elfProgLoad : Nat := 1

/-- `sizeof(struct elfhdr)` and `sizeof(struct proghdr)` -/
def elfhdrSize : Nat := 64

def proghdrSize : Nat := 56

/-! ## Loading the program -/

def flags2perm (flags : Nat) : Nat :=
  (if flags.testBit 0 then pteX else 0) ||| (if flags.testBit 1 then pteW else 0)

/-- `readi(ip, 0, (uint64)pa, off, n)` -/
def readTo (ip : Inode) (pa off n : Nat) (m : Mem) : Mem :=
  { m with bytes := m.bytes.splice pa (readi ip off n) fun k => ip.bytes (off + k) }

/-- `for(i = 0; i < sz; i += PGSIZE)` -/
def loadLoop (pagetable va : Nat) (ip : Inode) (offset sz i : Nat) (m : Mem) :
    Except Uvm.Panic (Bool × Mem) :=
  if _more : i < sz then do
    let pa ← lift (walkaddr pagetable ((va + i) % 2 ^ 64) m)
    if pa = 0 then .error .loadseg
    else
      let n := if sz - i < pgsize then sz - i else pgsize
      let off := (offset + i) % 2 ^ 32
      if readi ip off n ≠ n then .ok (false, readTo ip pa off n m)
      -- `i` is 32 bits wide
      else if 2 ^ 32 ≤ i + pgsize then .error .loadsegForever
      else loadLoop pagetable va ip offset sz (i + pgsize) (readTo ip pa off n m)
  else .ok (true, m)
termination_by sz - i
decreasing_by
  unfold pgsize
  omega

def loadseg (pagetable va : Nat) (ip : Inode) (offset sz : Nat) (m : Mem) :
    Except Uvm.Panic (Bool × Mem) :=
  loadLoop pagetable va ip offset sz 0 m

/-- One program header; `false` stands for `goto bad`, with the size then. -/
def segment (kend pagetable : Nat) (ip : Inode) (ph : Proghdr) (sz : Nat) (m : Mem) :
    Except Uvm.Panic (Bool × Nat × Mem) :=
  if ph.type ≠ elfProgLoad then .ok (true, sz, m)
  else if ph.memsz < ph.filesz then .ok (false, sz, m)
  else if (ph.vaddr + ph.memsz) % 2 ^ 64 < ph.vaddr then .ok (false, sz, m)
  else if ph.vaddr % pgsize ≠ 0 then .ok (false, sz, m)
  else do
    let (sz1, m) ←
      uvmalloc kend pagetable sz ((ph.vaddr + ph.memsz) % 2 ^ 64) (flags2perm ph.flags) m
    if sz1 = 0 then .ok (false, sz, m)
    else do
      let (loaded, m) ← loadseg pagetable ph.vaddr ip (ph.off % 2 ^ 32) (ph.filesz % 2 ^ 32) m
      .ok (loaded, sz1, m)

/-- `for(i=0, off=elf.phoff; i<elf.phnum; i++, off+=sizeof(ph))`, with `n` headers left. -/
def segLoop (kend pagetable : Nat) (ip : Inode) :
    (n off sz : Nat) → Mem → Except Uvm.Panic (Bool × Nat × Mem)
  | 0, _, sz, m => .ok (true, sz, m)
  | n + 1, off, sz, m =>
    if readi ip off proghdrSize ≠ proghdrSize then .ok (false, sz, m)
    else do
      let (loaded, sz, m) ← segment kend pagetable ip (Proghdr.read ip.bytes off) sz m
      if loaded = false then .ok (false, sz, m)
      else segLoop kend pagetable ip n ((off + proghdrSize) % 2 ^ 32) sz m

/-! ## The stack -/

def maxarg : Nat := 32

/-- An argument as `fetchstr` finds it, without the NUL. -/
structure Arg where
  chars : List UInt8
  clean : (0 : UInt8) ∉ chars
  short : chars.length < pgsize

/-- The buffer of an argument. -/
def Arg.bytes (arg : Arg) : Bytes := fun i => arg.chars.getD i 0

/-- `a - b` of two `uint64` -/
def minus (a b : Nat) : Nat := ((a - b : Int) % 2 ^ 64).toNat

/-- `sp -= n; sp -= sp % 16;` -/
def push (sp n : Nat) : Nat := minus sp n - minus sp n % 16

/-- `for(argc = 0; argv[argc]; argc++)`: the stack pointer and `ustack`, nothing for `goto bad`. -/
def pushLoop (pagetable stackbase : Nat) :
    List Arg → (sp : Nat) → (ustack : List Nat) → Mem →
      Except Uvm.Panic (Option (Nat × List Nat) × Mem)
  | [], sp, ustack, m => .ok (some (sp, ustack), m)
  | arg :: argv, sp, ustack, m =>
    if maxarg ≤ ustack.length then .ok (none, m)
    else
      let sp := push sp (arg.chars.length + 1)
      if sp < stackbase then .ok (none, m)
      else do
        let (copied, m) ← lift (copyout pagetable sp 0 (arg.chars.length + 1) arg.bytes m)
        if copied = false then .ok (none, m)
        else pushLoop pagetable stackbase argv sp (ustack ++ [sp]) m

/-- The bytes of an array of `uint64`. -/
def wordBytes (words : List Nat) : Bytes := fun i => Bytes.digit (words.getD (i / 8) 0) (i % 8)

/-- The arguments and the array of their addresses: the stack pointer and `argc`. -/
def pushArgs (pagetable stackbase : Nat) (argv : List Arg) (sp : Nat) (m : Mem) :
    Except Uvm.Panic (Option (Nat × Nat) × Mem) := do
  let (pushed, m) ← pushLoop pagetable stackbase argv sp [] m
  match pushed with
  | none => .ok (none, m)
  | some (sp, ustack) =>
    let sp := push sp ((ustack.length + 1) * 8)
    if sp < stackbase then .ok (none, m)
    else do
      let (copied, m) ←
        lift (copyout pagetable sp 0 ((ustack.length + 1) * 8) (wordBytes (ustack ++ [0])) m)
      if copied = false then .ok (none, m)
      else .ok (some (sp, ustack.length), m)

/-! ## The call -/

/-- What `exec` changes of a process, and what it makes of it. -/
structure Image where
  pagetable : Nat
  sz : Nat
  sp : Nat
  argc : Nat
  entry : Nat

/-- `bad:` with a page table -/
def bad (kend pagetable sz : Nat) (m : Mem) : Except Uvm.Panic (Option Image × Mem) := do
  let m ← procFreepagetable kend pagetable sz m
  .ok (none, m)

/-- Two pages more, the first of them a guard, and the arguments in the second. -/
def buildStack (kend pagetable entry sz : Nat) (argv : List Arg) (m : Mem) :
    Except Uvm.Panic (Option Image × Mem) := do
  let sz := pgRoundUp sz
  let (sz1, m) ← uvmalloc kend pagetable sz ((sz + 2 * pgsize) % 2 ^ 64) pteW m
  if sz1 = 0 then bad kend pagetable sz m
  else do
    let m ← lift (Vm.uvmclear pagetable (minus sz1 (2 * pgsize)) m)
    let stackbase := minus sz1 pgsize
    let (pushed, m) ← pushArgs pagetable stackbase argv sz1 m
    match pushed with
    | none => bad kend pagetable sz1 m
    | some (sp, argc) => .ok (some ⟨pagetable, sz1, sp, argc, entry⟩, m)

/-- From the inode to the new image. -/
def build (l : Layout) (trapframe : Nat) (ip : Inode) (argv : List Arg) (m : Mem) :
    Except Uvm.Panic (Option Image × Mem) :=
  if readi ip 0 elfhdrSize ≠ elfhdrSize then .ok (none, m)
  else
    let elf := Elfhdr.read ip.bytes
    if elf.magic ≠ elfMagic then .ok (none, m)
    else do
      let (pagetable, m) ← procPagetable l.kend l.tramp trapframe m
      match pagetable with
      | none => .ok (none, m)
      | some pagetable => do
        let (loaded, sz, m) ←
          segLoop l.kend pagetable ip elf.phnum (elf.phoff % 2 ^ 32) 0 m
        if loaded = false then bad l.kend pagetable sz m
        else buildStack l.kend pagetable elf.entry sz argv m

/-- `for(last=s=path; *s; s++)` -/
def lastLoop : (last s : List UInt8) → List UInt8
  | last, [] => last
  | last, c :: s => if c = 47 then lastLoop s s else lastLoop last s

/-- The fields of the trapframe that are set. -/
def setRegisters (trapframe : Nat) (image : Image) (m : Mem) : Mem :=
  ((m.store (trapframe + 120) image.sp).store (trapframe + 24) image.entry).store (trapframe + 48)
    image.sp

/-- `argc`, or nothing for -1. -/
def exec (l : Layout) (path : List UInt8) (ip : Option Inode) (argv : List Arg) (p : Proc)
    (m : Mem) : Except Uvm.Panic (Option Nat × Proc × Mem) :=
  match ip with
  | none => .ok (none, p, m)
  | some ip => do
    let (image, m) ← build l p.trapframe ip argv m
    match image with
    | none => .ok (none, p, m)
    | some image => do
      let m ← procFreepagetable l.kend p.pagetable p.sz (setRegisters p.trapframe image m)
      .ok (some image.argc, { p with
        name := safestrcpy (lastLoop path path) 16, pagetable := image.pagetable,
        sz := image.sz }, m)

/-! ## `sys_exec` -/

def maxpath : Nat := 128

/-- The string in a buffer of `n + 1` bytes. -/
def stringIn (b : Bytes) (n : Nat) : List UInt8 := ((List.range n).map b).takeWhile (· ≠ 0)

theorem zero_notMem_stringIn (b : Bytes) (n : Nat) : (0 : UInt8) ∉ stringIn b n := by
  intro mem
  have holds := List.mem_takeWhile_imp mem
  simp at holds

theorem length_stringIn_le (b : Bytes) (n : Nat) : (stringIn b n).length ≤ n := by
  have le := (List.takeWhile_prefix (· ≠ 0) (l := (List.range n).map b)).length_le
  rwa [List.length_map, List.length_range] at le

/-- The string in a page. -/
def Arg.ofPage (b : Bytes) : Arg where
  chars := stringIn b (pgsize - 1)
  clean := zero_notMem_stringIn b (pgsize - 1)
  short := (length_stringIn_le b (pgsize - 1)).trans_lt (Nat.sub_lt (Nat.succ_pos 4095) Nat.one_pos)

def fetchaddr (p : Proc) (addr : Nat) (m : Mem) : Except Uvm.Panic (Option Nat) :=
  if addr ≥ p.sz ∨ (addr + 8) % 2 ^ 64 > p.sz then .ok none
  else do
    let (copied, kernel) ← lift (copyin p.pagetable 0 addr 8 m fun _ => 0)
    .ok (if copied then some (kernel.load 8 0) else none)

/-- `fetchstr` into a buffer with the bytes `kernel`. -/
def fetchstr (p : Proc) (addr max : Nat) (m : Mem) (kernel : Bytes) :
    Except Uvm.Panic (Option Bytes) := do
  let (copied, kernel) ← lift (copyinstr p.pagetable 0 addr max m kernel)
  .ok (if copied then some kernel else none)

/-- `for(i=0;; i++)`, with `n` turns left: the arguments, nothing for `goto bad`, and the pages
that were taken for them. -/
def argvLoop (p : Proc) (uargv : Nat) : (n i : Nat) → (pages : List Nat) → (args : List Arg) →
    Mem → Except Uvm.Panic (Option (List Arg) × List Nat × Mem)
  | 0, _, pages, _, m => .ok (none, pages, m)
  | n + 1, i, pages, args, m => do
    let uarg ← fetchaddr p ((uargv + 8 * i) % 2 ^ 64) m
    match uarg with
    | none => .ok (none, pages, m)
    | some uarg =>
      if uarg = 0 then .ok (some args, pages, m)
      else
        match kalloc m with
        | none => .ok (none, pages, m)
        | some (page, m) => do
          let kernel ← fetchstr p uarg pgsize m fun i => m.bytes (page + i)
          match kernel with
          | none => .ok (none, pages ++ [page], m)
          | some kernel =>
            argvLoop p uargv n (i + 1) (pages ++ [page]) (args ++ [Arg.ofPage kernel])
              { m with bytes := m.bytes.splice page pgsize kernel }

/-- `for(i = 0; i < NELEM(argv) && argv[i] != 0; i++) kfree(argv[i]);` -/
def freeArgs (kend : Nat) : List Nat → Mem → Except Uvm.Panic Mem
  | [], m => .ok m
  | page :: pages, m => do
    let m ← lift (kfree kend page m)
    freeArgs kend pages m

/-- `namei` finds an inode for a path, or nothing. -/
def sysExec (l : Layout) (namei : List UInt8 → Option Inode) (upath uargv : Nat) (p : Proc)
    (m : Mem) : Except Uvm.Panic (Option Nat × Proc × Mem) := do
  let path ← fetchstr p upath maxpath m fun _ => 0
  match path with
  | none => .ok (none, p, m)
  | some path => do
    let (args, pages, m) ← argvLoop p uargv maxarg 0 [] [] m
    match args with
    | none => do
      let m ← freeArgs l.kend pages m
      .ok (none, p, m)
    | some args => do
      let path := stringIn path (maxpath - 1)
      let (ret, p, m) ← exec l path (namei path) args p m
      let m ← freeArgs l.kend pages m
      .ok (ret, p, m)

end Sistemas.Xv6.Calls.Exec
