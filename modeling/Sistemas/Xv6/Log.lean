import Sistemas.Crash.Writes

/-! # The log on the disk

`commit` and `recover_from_log` of `log.c`, with the blocks they move.  A block is a sequence
of words.  A `bread` gives what is in the buffer cache, or on the disk if the block is not
cached; a `bwrite` changes both and is recorded.  After a crash the cache is empty and the
disk has the writes made so far.
-/

namespace Sistemas.Xv6

/-- `MAXOPBLOCKS` -/
def maxOpBlocks : Nat := 10

/-- `LOGSIZE` -/
def logSize : Nat := maxOpBlocks * 3

/-- `BSIZE` is 1024; a word is an `int`. -/
abbrev Block := Fin 256 → Nat

abbrev Disk := Nat → Block

/-- Where the log is: a header block and the blocks after it. -/
structure Log where
  start : Nat
  size : Nat
  positive : 0 < size

def Log.Area (log : Log) (b : Nat) : Prop := log.start ≤ b ∧ b < log.start + log.size

/-- `struct logheader`: `n` is the length of the list. -/
structure LogHeader where
  block : List Nat
  fits : block.length ≤ logSize

def LogHeader.empty : LogHeader := { block := [], fits := by decide }

/-! ## Buffers -/

structure Storage where
  disk : Disk
  -- the buffers that are valid
  cache : Nat → Option Block
  -- the disk writes so far
  writes : List (Nat × Block)

namespace Storage

def bread (s : Storage) (b : Nat) : Block := (s.cache b).getD (s.disk b)

def bwrite (s : Storage) (b : Nat) (data : Block) : Storage :=
  { disk := Function.update s.disk b data
    cache := Function.update s.cache b (some data)
    writes := s.writes ++ [(b, data)] }

/-- Blocks that are changed in the cache only; `log_write` keeps them there. -/
def modify (s : Storage) (modified : List (Nat × Block)) : Storage :=
  { s with cache := modified.foldl (fun cache w => Function.update cache w.1 (some w.2)) s.cache }

def reboot (disk : Disk) : Storage := { disk := disk, cache := fun _ => none, writes := [] }

end Storage

/-! ## The header block -/

/-- The words that `write_head` puts into the header block. -/
def LogHeader.store (lh : LogHeader) (data : Block) : Block := fun word =>
  if word.val = 0 then lh.block.length else (lh.block[word.val - 1]?).getD (data word)

theorem LogHeader.word_lt (i : Nat) : i % 256 < 256 := Nat.mod_lt i (by decide)

def LogHeader.word (i : Nat) : Fin 256 := ⟨i % 256, word_lt i⟩

/-- `none` if the block numbers do not fit into `log.lh`. -/
def LogHeader.load (data : Block) : Option LogHeader :=
  if fits : data (word 0) ≤ logSize then
    some { block := (List.range (data (word 0))).map fun i => data (word (i + 1))
           fits := le_of_eq_of_le ((List.length_map _).trans List.length_range) fits }
  else none

section Log

variable (log : Log)

def readHead (s : Storage) : Option LogHeader := LogHeader.load (s.bread log.start)

def writeHead (lh : LogHeader) (s : Storage) : Storage :=
  s.bwrite log.start (lh.store (s.bread log.start))

/-! ## Transactions -/

/-- `for (tail = 0; tail < log.lh.n; tail++)`, from `tail` on. -/
def installTrans (tail : Nat) : List Nat → Storage → Storage
  | [], s => s
  | b :: block, s => installTrans (tail + 1) block (s.bwrite b (s.bread (log.start + tail + 1)))

/-- `for (tail = 0; tail < log.lh.n; tail++)`, from `tail` on. -/
def writeLog (tail : Nat) : List Nat → Storage → Storage
  | [], s => s
  | b :: block, s => writeLog (tail + 1) block (s.bwrite (log.start + tail + 1) (s.bread b))

def recoverFromLog (s : Storage) : Option Storage := do
  let lh ← readHead log s
  some (writeHead log .empty (installTrans log 0 lh.block s))

def commit (lh : LogHeader) (s : Storage) : Storage :=
  if 0 < lh.block.length then
    writeHead log .empty (installTrans log 0 lh.block (writeHead log lh (writeLog log 0 lh.block s)))
  else s

/-- `initlog`, on the disk that the machine finds when it starts. -/
def initlog (disk : Disk) : Option Storage := recoverFromLog log (.reboot disk)

/-- The writes of a recovery. -/
def recovery (disk : Disk) : Option (List (Nat × Block)) :=
  (initlog log disk).map Storage.writes

/-- Blocks changed between two commits: different ones, none of them in the log, and no more
    than there is room for. -/
structure Transaction where
  modified : List (Nat × Block)
  nodup : (modified.map Prod.fst).Nodup
  outside : ∀ w ∈ modified, ¬ log.Area w.1
  room : modified.length ≤ log.size - 1
  fits : modified.length ≤ logSize

variable {log}

def Transaction.header (t : Transaction log) : LogHeader where
  block := t.modified.map Prod.fst
  fits := by simpa using t.fits

/-- The transaction's blocks are in the cache, and it is committed. -/
def Transaction.run (t : Transaction log) (s : Storage) : Storage :=
  commit log t.header (s.modify t.modified)

/-- The writes of its commit. -/
def Transaction.writes (t : Transaction log) (s : Storage) : List (Nat × Block) :=
  (t.run s).writes.drop s.writes.length

end Log

end Sistemas.Xv6
