import Sistemas.Xv6.Console
import Sistemas.Xv6.FileBytes
import Sistemas.Xv6.FileTable
import Sistemas.Xv6.Filewrite
import Sistemas.Xv6.Piperead

/-! # Reading from a descriptor

`sys_read` with the three functions that `fileread` calls: `piperead`, `consoleread` and
`readi`.  Their `n` is an `int` in the first two and becomes a `uint` in the third, so a negative
count is none in a pipe and at the console, and in a file a large one, unless `off + n` wraps.
-/

namespace Sistemas.Xv6.Fileread

open Fs (Whole)
open Fs.Buffers (Sink)
open FileTable (FileType)
open Pipes (Pipe piperead)
open Sysfile (nofile)

/-- A number of 32 bits as an `int`. -/
def toInt (x : Int) : Int := Int.bmod x (2 ^ 32)

/-! ## The console -/

def inputBufSize : Nat := 128

/-- `cons` -/
structure Console where
  buf : Nat → UInt8
  r : Nat
  w : Nat
  -- only the interrupt handler uses the edit index
  e : Nat

/-- `cons.r == cons.w` -/
def Console.waits (cons : Console) : Bool := cons.r = cons.w

/-- `cons.r++` -/
def Console.take (cons : Console) : Console := { cons with r := (cons.r + 1) % 2 ^ 32 }

inductive Stop
  -- the call has not returned
  | asleep
  -- `panic("fileread")`
  | fileread
  | fs (p : Panic)

/-- The loop of `consoleread`: what it returns, the bytes that it has delivered and `cons`. -/
def consoleLoop (dst : Sink) (target n : Int) (i : Nat) (cons : Console)
    (sleeps : List (Sleep Console)) : Except Stop (Int × List UInt8 × Console) :=
  if 0 < n then
    match waitFor Console.waits cons sleeps with
    | .asleep => .error .asleep
    | .killed cons => .ok (-1, [], cons)
    | .ready cons sleeps =>
      let c := cons.buf (cons.r % inputBufSize)
      let taken := cons.take
      -- `C('D')`
      if c = 4 then
        if n < target then .ok (toInt (target - n), [], cons) else .ok (toInt (target - n), [], taken)
      else if dst i then
        -- '\n'
        if c = 10 then .ok (toInt (target - (n - 1)), [c], taken)
        else do
          let (r, bytes, cons) ← consoleLoop dst target (n - 1) (i + 1) taken sleeps
          .ok (r, c :: bytes, cons)
      else .ok (toInt (target - n), [], taken)
  else .ok (toInt (target - n), [], cons)
termination_by n.toNat

/-- `target` is a `uint`. -/
def consoleread (dst : Sink) (n : Int) (cons : Console) (sleeps : List (Sleep Console)) :
    Except Stop (Int × List UInt8 × Console) :=
  consoleLoop dst (n % 2 ^ 32) n 0 cons sleeps

/-! ### The console with its interrupts -/

/-- `cons`, as the interrupt handler changes it. -/
def Console.shared (cons : Console) : Xv6.Console.Cons where
  buf := cons.buf
  r := cons.r
  w := cons.w
  e := cons.e

def Console.ofShared (cons : Xv6.Console.Cons) : Console where
  buf := cons.buf
  r := cons.r
  w := cons.w
  e := cons.e

theorem waitFor_free {σ : Type} {empty : σ → Bool} {s : σ} (free : empty s = false)
    (sleeps : List (Sleep σ)) : waitFor empty s sleeps = .ready s sleeps := by
  cases sleeps with
  | nil => rw [waitFor, free, if_neg Bool.false_ne_true]
  | cons sleep sleeps => rw [waitFor, free, if_neg Bool.false_ne_true]

/-- With a buffer that can be written the loop does what the part of `consoleread` up to the next
sleep does, and goes on from there. -/
theorem consoleLoop_piece (target n i : Nat) (cons : Console) (small : cons.r < Xv6.Console.uints)
    (sleeps : List (Sleep Console)) {piece : Xv6.Console.Piece Xv6.Console.Cons}
    (part : Xv6.Console.Cons.consoleread target n cons.shared = piece) :
    consoleLoop (fun _ => true) target n i cons sleeps =
      if piece.returned then
        .ok (toInt (target - piece.n), piece.bytes, .ofShared piece.state)
      else
        (consoleLoop (fun _ => true) target piece.n (i + piece.bytes.length)
          (.ofShared piece.state) sleeps).map fun x => (x.1, piece.bytes ++ x.2.1, x.2.2) := by
  subst part
  induction n generalizing i cons with
  | zero =>
    rw [consoleLoop]
    rfl
  | succ n ih =>
    by_cases empty : cons.r = cons.w
    · have same : Xv6.Console.Cons.consoleread target (n + 1) cons.shared =
          { state := cons.shared, n := n + 1, bytes := [], returned := false } := if_pos empty
      rw [same, if_neg Bool.false_ne_true]
      show _ = (consoleLoop (fun _ => true) target (n + 1 : Nat) i cons sleeps).map _
      cases consoleLoop (fun _ => true) target (n + 1 : Nat) i cons sleeps with
      | error e => rfl
      | ok x => rfl
    · have free : cons.waits = false := decide_eq_false empty
      have some : (0 : Int) < (n + 1 : Nat) := by omega
      rw [consoleLoop, if_pos some, waitFor_free free]
      rw [Xv6.Console.Cons.consoleread, if_neg (show ¬ cons.shared.r = cons.shared.w from empty)]
      dsimp only
      by_cases eof : cons.buf (cons.r % inputBufSize) = 4
      · have shown : cons.shared.get cons.shared.r = Xv6.Console.ctrlD := eof
        rw [if_pos eof, if_pos shown, if_pos rfl]
        dsimp only
        by_cases more : n + 1 < target
        · have back : Xv6.Console.decr (Xv6.Console.incr cons.r) = cons.r :=
            Xv6.Console.decr_incr small
          rw [if_pos more, if_pos (by omega)]
          show _ = Except.ok (_, _, { cons with r := Xv6.Console.decr (Xv6.Console.incr cons.r) })
          rw [back]
        · rw [if_neg more, if_neg (by omega)]
          rfl
      · have shown : cons.shared.get cons.shared.r ≠ Xv6.Console.ctrlD := eof
        rw [if_neg eof, if_neg shown, if_pos rfl]
        by_cases line : cons.buf (cons.r % inputBufSize) = 10
        · have ends : cons.shared.get cons.shared.r = Xv6.Console.newline := line
          rw [if_pos line, if_pos ends, if_pos rfl]
          show Except.ok (toInt (target - ((n + 1 : Nat) - 1)), _, _) = _
          rw [show ((n + 1 : Nat) : Int) - 1 = n by omega]
          rfl
        · have goes : cons.shared.get cons.shared.r ≠ Xv6.Console.newline := line
          have wraps : cons.take.r < Xv6.Console.uints := Nat.mod_lt _ (Nat.two_pow_pos 32)
          rw [if_neg line, if_neg goes, show ((n + 1 : Nat) : Int) - 1 = n by omega,
            ih (i + 1) cons.take wraps]
          have same : cons.take.shared =
              { cons.shared with r := Xv6.Console.incr cons.shared.r } := rfl
          rw [same]
          generalize Xv6.Console.Cons.consoleread target n _ = piece
          dsimp only
          cases piece.returned with
          | true => rfl
          | false =>
            rw [if_neg Bool.false_ne_true, if_neg Bool.false_ne_true, List.length_cons,
              show i + 1 + piece.bytes.length = i + (piece.bytes.length + 1) by omega]
            cases consoleLoop (fun _ => true) target piece.n (i + (piece.bytes.length + 1))
              (Console.ofShared piece.state) sleeps with
            | error e => rfl
            | ok x => rfl

/-! ## `fileread` -/

/-- `CONSOLE`, the only device with a `read` in `devsw`. -/
def console : Int := 1

structure File where
  type : FileType
  readable : Bool
  off : Nat
  major : Int

/-- What the pointers of a file lead to, and the console. -/
structure Kernel (n : Nat) where
  pipe : Pipe n
  ip : Dinode
  bufs : Fs.Buffers
  cons : Console

/-- How the sleeps of a call go on. -/
structure Sleeps (n : Nat) where
  pipe : List (Sleep (Pipe n))
  cons : List (Sleep Console)

variable {procs : Nat}

/-- The result, the bytes that have been delivered, `f->off` and the kernel. -/
def fileread (sb : Layout) (f : File) (dst : Sink) (n : Int) (k : Kernel procs)
    (sleeps : Sleeps procs) : Except Stop (Int × List UInt8 × Nat × Kernel procs) :=
  if f.readable = false then .ok (-1, [], f.off, k)
  else
    match f.type with
    | .pipe =>
      match piperead dst n k.pipe sleeps.pipe with
      | none => .error .asleep
      | some (r, bytes, pi) => .ok (r, bytes, f.off, { k with pipe := pi })
    | .device =>
      if f.major = console then do
        let (r, bytes, cons) ← consoleread dst n k.cons sleeps.cons
        .ok (r, bytes, f.off, { k with cons := cons })
      else .ok (-1, [], f.off, k)
    | .inode =>
      match Fs.Buffers.readi sb k.ip dst f.off (n % 2 ^ 32).toNat k.bufs with
      | .error p => .error (.fs p)
      | .ok (r, bytes, ip, bufs) =>
        let r := Filewrite.returned r
        let off := if 0 < r then (f.off + r.toNat) % 2 ^ 32 else f.off
        .ok (r, bytes, off, { k with ip := ip, bufs := bufs })
    | .none => .error .fileread

/-! ## `sys_read` -/

/-- The open files of the process and the addresses that it can write to. -/
structure Proc where
  ofile : Fin nofile → Option File
  writable : Nat → Bool

/-- The registers `a0`, `a1` and `a2` of the call. -/
structure Args where
  a0 : Nat
  a1 : Nat
  a2 : Nat

def Args.n (args : Args) : Int := toInt args.a2

/-- `argfd(0, 0, &f)` -/
def Proc.argfd (p : Proc) (args : Args) : Option File :=
  let fd := toInt args.a0
  if 0 ≤ fd then
    if inside : fd.toNat < nofile then p.ofile ⟨fd.toNat, inside⟩ else none
  else none

/-- The byte `i` of the destination. -/
def Args.address (args : Args) (i : Nat) : Nat := (args.a1 + i) % 2 ^ 64

/-- `sys_read` behind its `argfd`. -/
def readFd (sb : Layout) (f : Option File) (dst : Sink) (n : Int) (k : Kernel procs)
    (sleeps : Sleeps procs) : Except Stop (Int × List UInt8 × Nat × Kernel procs) :=
  match f with
  | none => .ok (-1, [], 0, k)
  | some f => fileread sb f dst n k sleeps

def sysRead (sb : Layout) (p : Proc) (args : Args) (k : Kernel procs) (sleeps : Sleeps procs) :
    Except Stop (Int × List UInt8 × Nat × Kernel procs) :=
  readFd sb (p.argfd args) (fun i => p.writable (args.address i)) args.n k sleeps

/-! ## What the three reads deliver -/

variable {dst : Sink} {n n₀ r target : Int} {i : Nat} {cons cons' : Console}
  {bytes : List UInt8} {sleeps : List (Sleep Console)}

theorem toInt_range (x : Int) : -2 ^ 31 ≤ toInt x ∧ toInt x < 2 ^ 31 := by
  simp only [toInt, Int.bmod_def]
  omega

/-- `target - n` counts the bytes, also when it wraps. -/
theorem toInt_target (j : Nat) (lt : (j : Int) < 2 ^ 31) :
    toInt (n₀ % 2 ^ 32 - (n₀ - j)) = j := by
  simp only [toInt, Int.bmod_def]
  omega

/-- What a call that asks for `n` bytes has delivered when it returns `r`. -/
def Counts (n r : Int) (bytes : List UInt8) : Prop := r ≤ max n 0 ∧ bytes.length = r

theorem consoleLoop_counts (small : n₀ < 2 ^ 31) (left : n = n₀ - i)
    (done : (i : Int) ≤ max n₀ 0)
    (loop : consoleLoop dst (n₀ % 2 ^ 32) n i cons sleeps = .ok (r, bytes, cons')) (ok : 0 ≤ r) :
    r ≤ max n₀ 0 ∧ i + bytes.length = r := by
  -- the calls that stop here, with what there is
  have here : toInt (n₀ % 2 ^ 32 - n) = i := by
    rw [left]
    exact toInt_target i (by omega)
  fun_induction consoleLoop dst (n₀ % 2 ^ 32) n i cons sleeps generalizing r bytes cons' with
  | case1 => cases loop
  | case2 =>
    cases loop
    cases ok
  | case3 | case4 | case7 | case8 =>
    cases loop
    rw [here]
    exact ⟨done, by simp⟩
  | case5 n i cons sleeps pos cons₁ sleeps₁ ready notEof good newline =>
    cases loop
    rw [left, show n₀ - i - 1 = n₀ - (i + 1 : Nat) by omega, toInt_target _ (by omega)]
    exact ⟨by omega, by simp⟩
  | case6 n i cons sleeps pos cons₁ sleeps₁ ready c taken notEof good =>
    rename_i notNewline ih
    cases rest : consoleLoop dst (n₀ % 2 ^ 32) (n - 1) (i + 1) taken sleeps₁ with
    | error stop =>
      rw [rest] at loop
      cases loop
    | ok result =>
      obtain ⟨r', bytes', cons''⟩ := result
      rw [rest] at loop
      cases loop
      obtain ⟨le, eq⟩ := ih (by omega) (by omega) rest ok
        (by rw [left, show n₀ - i - 1 = n₀ - (i + 1 : Nat) by omega, toInt_target _ (by omega)])
      exact ⟨le, by rw [List.length_cons]; omega⟩

theorem consoleread_counts (small : n < 2 ^ 31)
    (call : consoleread dst n cons sleeps = .ok (r, bytes, cons')) (ok : 0 ≤ r) :
    Counts n r bytes := by
  have counts := consoleLoop_counts small (by omega) (by omega) call ok
  rwa [Nat.cast_zero, Int.zero_add] at counts

section Pipe

variable {m : Nat} {pi pi' : Pipe m}

theorem copyLoop_le {r : Nat} (le : (i : Int) ≤ max n 0)
    (loop : Pipes.copyLoop dst n i pi = (r, bytes, pi')) : (r : Int) ≤ max n 0 := by
  fun_induction Pipes.copyLoop dst n i pi generalizing r bytes pi' with
  | case1 | case3 | case4 =>
    cases loop
    exact le
  | case2 i pi less more good r' bytes' pi'' rest ih =>
    cases loop
    exact ih (by omega) rest

theorem piperead_counts {sleeps : List (Sleep (Pipe m))}
    (call : piperead dst n pi sleeps = some (r, bytes, pi')) (ok : 0 ≤ r) : Counts n r bytes := by
  unfold piperead at call
  split at call
  next => cases call
  next =>
    cases call
    cases ok
  next start _ _ =>
    cases loop : Pipes.copyLoop dst n 0 start with
    | mk r₁ result =>
      obtain ⟨bytes₁, pi₁⟩ := result
      have length := Pipes.copyLoop_length loop
      have le := copyLoop_le (by omega) loop
      rw [loop] at call
      cases call
      exact ⟨le, by omega⟩

end Pipe

/-! ## `readi` -/

section Inode

variable {sb : Layout} {ip : Dinode} {bufs : Fs.Buffers} {off : Nat}

/-- A negative count goes as far as the end of the file, when the offset is smaller. -/
theorem readLength_neg {size : Nat} (small : size ≤ maxfile * bsize) (low : -2 ^ 31 ≤ n)
    (neg : n < 0) : Fs.readLength size off (n % 2 ^ 32).toNat =
      if (off : Int) + n < 0 then size - off else 0 := by
  have most : maxfile * bsize = 274432 := by decide
  simp only [Fs.readLength]
  split <;> split <;> omega

theorem readLength_le {size : Nat} (nonneg : 0 ≤ n) (high : n < 2 ^ 31) :
    (Fs.readLength size off (n % 2 ^ 32).toNat : Int) ≤ n := by
  simp only [Fs.readLength]
  split <;> omega

end Inode

/-! ## Every kind of descriptor -/

/-- What the process gets: not more than it asks for, and `r` bytes from the address on. -/
structure Fits (args : Args) (r : Int) (bytes : List UInt8) : Prop where
  le : r ≤ max args.n 0
  stores : (List.range bytes.length).map args.address = (List.range r.toNat).map args.address
  
/-- A file that is read with a negative count, and with an offset from which the count does not
    wrap. -/
def Overshoots (p : Proc) (args : Args) (k : Kernel procs) : Prop :=
  ∃ f, p.argfd args = some f ∧ f.readable = true ∧ f.type = .inode ∧ args.n < 0 ∧
    (f.off : Int) + args.n < 0 ∧ f.off < k.ip.size ∧
    ∀ i < k.ip.size - f.off, p.writable (args.address i) = true

theorem Counts.fits {args : Args} {r : Int} (counts : Counts args.n r bytes) :
    Fits args r bytes := by
  refine ⟨counts.1, ?_⟩
  rw [← counts.2, Int.toNat_natCast]

variable {sb : Layout} {p : Proc} {args : Args} {k k' : Kernel procs} {f : File}
  {sleeps : Sleeps procs} {off : Nat}

theorem sysRead_some (found : p.argfd args = some f) : sysRead sb p args k sleeps =
    fileread sb f (fun i => p.writable (args.address i)) args.n k sleeps := by
  rw [sysRead, found, readFd]

/-- The ways in which `fileread` returns a count. -/
theorem fileread_cases (call : fileread sb f dst n k sleeps = .ok (r, bytes, off, k'))
    (ok : 0 ≤ r) : f.readable = true ∧
      ((∃ pi, piperead dst n k.pipe sleeps.pipe = some (r, bytes, pi)) ∨
        (∃ cons, consoleread dst n k.cons sleeps.cons = .ok (r, bytes, cons)) ∨
        f.type = .inode ∧ ∃ r' ip bufs, r = Filewrite.returned r' ∧
          Fs.Buffers.readi sb k.ip dst f.off (n % 2 ^ 32).toNat k.bufs =
            .ok (r', bytes, ip, bufs)) := by
  unfold fileread at call
  split at call
  next =>
    cases call
    cases ok
  next readable =>
    refine ⟨by simpa using readable, ?_⟩
    split at call
    next =>
      split at call
      next => cases call
      next r₁ bytes₁ pi read =>
        cases call
        exact .inl ⟨pi, read⟩
    next =>
      split at call
      next =>
        cases read : consoleread dst n k.cons sleeps.cons with
        | error stop =>
          rw [read] at call
          cases call
        | ok result =>
          obtain ⟨r₁, bytes₁, cons⟩ := result
          rw [read] at call
          cases call
          exact .inr (.inl ⟨cons, rfl⟩)
      next =>
        cases call
        cases ok
    next type =>
      split at call
      next => cases call
      next r' bytes' ip bufs read =>
        cases call
        exact .inr (.inr ⟨type, r', ip, bufs, rfl, read⟩)
    next => cases call

/-- `fileread` on a file, by what `readi` does. -/
theorem fileread_inode {r : Option Nat} (readable : f.readable = true) (type : f.type = .inode)
    (read : Fs.Buffers.readi sb k.ip dst f.off (n % 2 ^ 32).toNat k.bufs =
      .ok (r, bytes, k.ip, k.bufs)) : ∃ off k',
        fileread sb f dst n k sleeps = .ok (Filewrite.returned r, bytes, off, k') := by
  unfold fileread
  rw [if_neg (by simp [readable])]
  split
  next isPipe => cases type.symm.trans isPipe
  next isDevice => cases type.symm.trans isDevice
  next =>
    rw [read]
    exact ⟨_, _, rfl⟩
  next isNone => cases type.symm.trans isNone

theorem overshoots_exceeds (sb : Layout) (whole : Whole k.ip k.bufs.cached k.ip.size)
    (offFits : ∀ f, p.argfd args = some f → f.off < 2 ^ 32) (overshoots : Overshoots p args k)
    (sleeps : Sleeps procs) : ∃ r bytes off k',
      sysRead sb p args k sleeps = .ok (r, bytes, off, k') ∧ 0 ≤ r ∧ ¬ Fits args r bytes := by
  obtain ⟨f, found, readable, type, neg, below, inside, good⟩ := overshoots
  have low : -2 ^ 31 ≤ args.n := (toInt_range args.a2).1
  have nFits : (args.n % 2 ^ 32).toNat < 2 ^ 32 := by omega
  obtain ⟨r, bytes, read, reads⟩ := Fs.readi_reads sb (fun i => p.writable (args.address i))
    (offFits f found) nFits whole
  obtain ⟨off, k', call⟩ := fileread_inode readable type read
  rw [readLength_neg (Fs.whole_size whole) low neg, if_pos below] at reads
  obtain ⟨rfl, length⟩ | ⟨rfl, short, bad⟩ := reads.ends
  · refine ⟨_, bytes, off, k', (sysRead_some found).trans call, Int.natCast_nonneg _, ?_⟩
    intro fits
    have le := fits.le
    simp only [Filewrite.returned] at le
    omega
  · rw [good _ short] at bad
    cases bad

/-- **A read delivers no more than it is asked for**, unless the count of a regular file
    overshoots. -/
theorem sysRead_fits_iff (sb : Layout) (p : Proc) (args : Args) (k : Kernel procs)
    (whole : Whole k.ip k.bufs.cached k.ip.size)
    (offFits : ∀ f, p.argfd args = some f → f.off < 2 ^ 32) :
    (∀ sleeps r bytes off k', sysRead sb p args k sleeps = .ok (r, bytes, off, k') → 0 ≤ r →
      Fits args r bytes) ↔ ¬ Overshoots p args k := by
  have range : -2 ^ 31 ≤ args.n ∧ args.n < 2 ^ 31 := toInt_range args.a2
  have small := Fs.whole_size whole
  have nFits : (args.n % 2 ^ 32).toNat < 2 ^ 32 := by omega
  constructor
  · intro fits overshoots
    obtain ⟨r, bytes, off, k', call, ok, exceeds⟩ :=
      overshoots_exceeds sb whole offFits overshoots { pipe := [], cons := [] }
    exact exceeds (fits _ r bytes off k' call ok)
  · intro notOver sleeps r bytes off k' call ok
    cases found : p.argfd args with
    | none =>
      rw [sysRead, found, readFd] at call
      cases call
      cases ok
    | some f =>
      rw [sysRead_some found] at call
      obtain ⟨readable, ⟨pi, read⟩ | ⟨cons, read⟩ | ⟨type, r', ip, bufs, rfl, read⟩⟩ :=
        fileread_cases call ok
      · exact (piperead_counts read ok).fits
      · exact (consoleread_counts range.2 read ok).fits
      · obtain ⟨r₁, bytes₁, read₁, reads⟩ := Fs.readi_reads sb
          (fun i => p.writable (args.address i)) (offFits f found) nFits whole
        cases read.symm.trans read₁
        obtain ⟨rfl, length⟩ | ⟨rfl, -, -⟩ := reads.ends
        · refine Counts.fits ⟨?_, by rw [length]; rfl⟩
          simp only [Filewrite.returned]
          by_cases neg : args.n < 0
          · rw [readLength_neg small range.1 neg] at read ⊢
            split
            next below =>
              rw [if_pos below] at read
              by_contra more
              exact notOver ⟨f, found, readable, type, neg, below, by omega,
                Fs.readi_writable read⟩
            next => omega
          · have le := @readLength_le args.n f.off k.ip.size (not_lt.mp neg) range.2
            omega
        · cases ok

def lettersFile : File where
  type := .inode
  readable := true
  off := 0
  major := 0

/-- A process that has opened a file as its descriptor 3. -/
def lettersProc : Proc where
  ofile fd := if fd.val = 3 then some lettersFile else none
  writable _ := true

def lettersKernel : Kernel 1 where
  pipe := Pipes.onePipe
  ip := Fs.letters
  bufs := Fs.lettersBuffers
  cons := { buf := fun _ => 0, r := 0, w := 0, e := 0 }

theorem letters_whole :
    Whole lettersKernel.ip lettersKernel.bufs.cached lettersKernel.ip.size :=
  Fs.letters_ready.whole

theorem letters_offFits (args : Args) :
    ∀ f, lettersProc.argfd args = some f → f.off < 2 ^ 32 := by
  intro f found
  simp only [Proc.argfd] at found
  split at found
  next =>
    split at found
    next =>
      simp only [lettersProc] at found
      split at found
      next =>
        cases found
        decide
      next => cases found
    next => cases found
  next => cases found

/-- `read(3, buf, -1)` -/
def minusOne : Args := { a0 := 3, a1 := 0, a2 := 2 ^ 32 - 1 }

theorem minusOne_exceeds : ∃ r bytes off k', sysRead Mkfs.layout lettersProc minusOne
    lettersKernel { pipe := [], cons := [] } = .ok (r, bytes, off, k') ∧ 0 ≤ r ∧
      ¬ Fits minusOne r bytes := by
  refine overshoots_exceeds Mkfs.layout letters_whole (letters_offFits minusOne) ?_ _
  have fd : toInt minusOne.a0 = 3 := by decide
  have found : lettersProc.argfd minusOne = some lettersFile := by
    unfold Proc.argfd
    rw [fd]
    rfl
  exact ⟨lettersFile, found, rfl, rfl, by decide, by decide, by decide, fun _ _ => rfl⟩

/-- `read(3, buf, 5)` -/
def five : Args := { a0 := 3, a1 := 0, a2 := 5 }

theorem sysRead_fits_iff_five : ¬ Overshoots lettersProc five lettersKernel ∧
    ∀ sleeps r bytes off k', sysRead Mkfs.layout lettersProc five lettersKernel sleeps =
      .ok (r, bytes, off, k') → 0 ≤ r → Fits five r bytes := by
  have notOver : ¬ Overshoots lettersProc five lettersKernel := by
    intro overshoots
    obtain ⟨f, found, readable, type, neg, below⟩ := overshoots
    have nonneg : 0 ≤ five.n := by decide
    exact absurd neg (Int.not_lt.mpr nonneg)
  exact ⟨notOver, (sysRead_fits_iff Mkfs.layout lettersProc five lettersKernel letters_whole
    (letters_offFits five)).mpr notOver⟩

end Sistemas.Xv6.Fileread
