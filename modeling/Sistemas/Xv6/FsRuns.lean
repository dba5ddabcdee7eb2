import Sistemas.Xv6.FsContents
import Sistemas.Xv6.MkfsTrusted

/-! # Runs of operations on inodes

From an image in which every block has one owner, such as the one that `mkfs` builds, no run
of operations leads to one where this is not so.
-/

namespace Sistemas.Xv6

/-! ## The first image -/

namespace Mkfs

def layout : Layout where
  toSuperblock := sb
  inodes_below := by
    intro inum lt
    have ninodes_eq : sb.ninodes = 200 := rfl
    have bmapstart_eq : sb.bmapstart = 45 := rfl
    rw [iblock_eq, bmapstart_eq]
    omega
  bitmap_below := by
    intro b lt
    have size_eq : sb.size = 2000 := rfl
    have bblock_eq : sb.bblock b = b / 8192 + 45 := rfl
    have nmeta_eq : sb.nmeta = 46 := rfl
    omega
  small := by decide

variable {m m' : State}

/-- The kernel finds the inodes that `mkfs` has given out. -/
theorem Finished.table_eq (finished : Finished m m') : Fs.table layout m'.sector = m'.table := by
  have built := finished.before.built
  funext inum
  unfold Fs.table
  by_cases lt : inum < ninodes
  · have dinode_eq : Fs.dinode layout m'.sector inum = m'.table inum := by
      rw [State.table, if_pos lt]
      rfl
    rw [dinode_eq]
    by_cases type : (m'.table inum).type = 0
    · -- an inode without a type is not in use
      have notUsed : ¬ m.InUse inum := by
        intro use
        apply built.typed inum use lt
        rw [finished.table] at type
        by_cases root : inum = rootino
        · subst root
          rwa [Function.update_self] at type
        · rwa [Function.update_of_ne root] at type
      have ne : inum ≠ rootino := by
        rintro rfl
        exact notUsed ⟨by decide, finished.before.some_inode⟩
      rw [if_neg (fun both => both.2 type), finished.table, Function.update_of_ne ne,
        built.unused inum notUsed]
    · rw [if_pos ⟨lt, type⟩]
  · rw [if_neg (fun both => lt both.1), State.table, if_neg lt]

/-- In an image that can be trusted every block has one owner. -/
theorem Finished.owned (finished : Finished m m') (few : m.freeinode ≤ ninodes)
    (trusted : Trusted m') : Fs.Owned layout m'.sector := by
  have table_eq := finished.table_eq
  have held_eq : held (Fs.table layout m'.sector) m'.sector = held m.table m.sector := by
    rw [table_eq, finished.held_eq]
  have size_eq : layout.size = fssize := rfl
  have nmeta_eq : layout.nmeta = nmeta := rfl
  have own := finished.before.built.owned
  have bit_eq : ∀ b < layout.size, Fs.bit layout m'.sector b = decide (b < m.freeblock) := by
    intro b lt
    have small : b < bpb := lt.trans_le (by decide)
    have block : layout.bblock b = sb.bmapstart := by
      show b / bpb + sb.bmapstart = sb.bmapstart
      rw [Nat.div_eq_of_lt small, Nat.zero_add]
    rw [Fs.bit, block, finished.bitmap, bitmap_bit, Nat.mod_eq_of_lt small]
  apply Fs.Owns.owned
  · rw [held_eq]
    refine own.own.congr ?_ rfl
    intro b
    have top := finished.before.built.room
    constructor
    · rintro ⟨lt, set⟩
      rw [bit_eq b lt] at set
      simpa using set
    · intro lt
      have inside : b < layout.size := by
        rw [size_eq]
        omega
      refine ⟨inside, ?_⟩
      rw [bit_eq b inside]
      simpa using lt
  · intro inum fbn below
    rw [table_eq] at below
    by_cases lt : inum < ninodes
    · have table_dinode : m'.dinode inum = m'.table inum := by
        rw [State.dinode, State.table, if_pos lt]
      by_cases use : m'.InUse inum
      · obtain ⟨inFile, nonzero⟩ := trusted.mapped inum use fbn (by rwa [table_dinode])
        have slotUse : m'.InUse (Slot.data inum fbn).inum := by rwa [Slot.inum_data]
        rw [finished.held_inUse few slotUse] at nonzero
        rw [held_eq]
        exact ⟨inFile, nonzero⟩
      · rw [State.InUse, finished.freeinode] at use
        have ne : inum ≠ rootino := by
          rintro rfl
          exact use ⟨by decide, finished.before.some_inode⟩
        rw [finished.table, Function.update_of_ne ne, finished.before.built.unused inum use] at below
        simp [Dinode.zero, blocks, bsize] at below
    · rw [State.table, if_neg lt] at below
      simp [Dinode.zero, blocks, bsize] at below

end Mkfs

/-! ## Runs -/

namespace Fs

open Sistemas.Transition

variable {sb : Layout} {block block' : Blocks}

theorem step_owned {op : Op sb} (owned : Owned sb block) (move : step sb block op = some block') :
    Owned sb block' := by
  unfold step at move
  obtain failed | ⟨next, done, owned'⟩ := perform_owned owned op
  · rw [failed] at move
    cases move
  · rw [done] at move
    cases move
    exact owned'

theorem run_blocks_owned (sb : Layout) (start block : Blocks) (ops : List (Op sb))
    (owned : Owned sb start) (run : exec (step sb) start ops = some block) :
    Owned sb block ∧ ∀ op, perform sb block op ≠ .error .freeingFreeBlock := by
  have owned' : Owned sb block :=
    exec_invariant (fun _ _ _ before move => step_owned before move) owned run
  refine ⟨owned', ?_⟩
  intro op panic
  obtain failed | ⟨next, done, -⟩ := perform_owned owned' op
  · rw [failed] at panic
    cases panic
  · rw [done] at panic
    cases panic

/-- Three of five bytes can be read. -/
def badBuffer : Source := fun i => if i < 3 then some 120 else none

/-- A write of which the buffer is bad, to the empty file of a new image, and an `ialloc`. -/
def emptyFileOps : List (Op Mkfs.layout) := [.write ⟨2, by decide⟩ badBuffer 0 5, .alloc 2]

theorem run_blocks_owned_emptyFile : ∃ m block, Mkfs.main [Mkfs.emptyFile] = some m ∧
    exec (step Mkfs.layout) m.sector emptyFileOps = some block ∧ Owned Mkfs.layout block ∧
      ∀ op, perform Mkfs.layout block op ≠ .error .freeingFreeBlock := by
  obtain ⟨m, exit⟩ := Mkfs.main_ok (Mkfs.emptyFile_short 1) (by decide)
  obtain ⟨m₀, finished, count⟩ := Mkfs.main_finished (by decide) exit
  have count' : m₀.freeinode = 3 := count
  have few : m₀.freeinode ≤ Mkfs.ninodes := by
    rw [count']
    decide
  have owned := finished.owned few (finished.trusted few (by rw [count']; decide))
  -- inode 2 is the file, so the write is possible
  have lt : 2 < Mkfs.layout.ninodes := by decide
  have typed : (dinode Mkfs.layout m.sector 2).type ≠ 0 := by
    intro free
    have table_eq : m.table 2 = dinode Mkfs.layout m.sector 2 := rfl
    apply finished.before.built.typed 2 ⟨by decide, by omega⟩ (by decide)
    rwa [← table_eq, finished.table, Function.update_of_ne (by decide)] at free
  have lock : ilock Mkfs.layout 2 m.sector = .ok (dinode Mkfs.layout m.sector 2) := by
    simp [ilock, typed]
  obtain ⟨r, ip, block₁, written, -⟩ : ∃ r ip block₁,
      writei Mkfs.layout 2 (dinode Mkfs.layout m.sector 2) badBuffer 0 5 m.sector =
        .ok (r, ip, block₁) ∧ Owned Mkfs.layout block₁ :=
    writei_owned owned badBuffer lt lock (by decide) (by decide)
  have write : step Mkfs.layout m.sector (.write ⟨2, by decide⟩ badBuffer 0 5) = some block₁ := by
    have done : perform Mkfs.layout m.sector (.write ⟨2, by decide⟩ badBuffer 0 5) = .ok block₁ := by
      rw [perform, lock]
      simp only [bind, Except.bind]
      rw [show (0 : UInt32).toNat = 0 from rfl, show (5 : UInt32).toNat = 5 from rfl, written]
    rw [step, done]
  have run : ∃ block, exec (step Mkfs.layout) m.sector emptyFileOps = some block := by
    refine ⟨((ialloc Mkfs.layout 2 block₁).map Prod.snd).getD block₁, ?_⟩
    rw [emptyFileOps, exec, write]
    rfl
  obtain ⟨block, run⟩ := run
  obtain ⟨owned', noPanic⟩ := run_blocks_owned Mkfs.layout m.sector block emptyFileOps owned run
  exact ⟨m, block, exit, run, owned', noPanic⟩

end Fs

end Sistemas.Xv6
