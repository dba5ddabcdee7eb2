import Sistemas.Xv6.FsFormat
import Mathlib.Data.Fin.Basic

/-! # Who holds which block

The places where inodes keep block numbers: the direct addresses, the address of the indirect
block, and the words of the indirect block.  A slot that holds `0` is empty.  The lemmas say
how what is held changes when one of these places is written.
-/

namespace Sistemas.Xv6

inductive Slot
  | direct (inum : Nat) (i : Fin 12)
  | indirect (inum : Nat)
  | entry (inum : Nat) (j : Fin 256)
deriving DecidableEq

def Slot.inum : Slot → Nat
  | .direct inum _ => inum
  | .indirect inum => inum
  | .entry inum _ => inum

/-- Where the address of block `fbn` of a file is kept, `fbn < MAXFILE`. -/
def Slot.data (inum fbn : Nat) : Slot :=
  if lt : fbn < 12 then .direct inum ⟨fbn, lt⟩ else .entry inum (Fin.ofNat 256 (fbn - 12))

def held (inode : Nat → Dinode) (block : Nat → Bytes) : Slot → Nat
  | .direct inum i => (inode inum).direct i
  | .indirect inum => (inode inum).indirect
  | .entry inum j =>
    if (inode inum).indirect = 0 then 0 else word (block (inode inum).indirect) j

/-- The number of blocks of a file of `size` bytes. -/
def blocks (size : Nat) : Nat := (size + bsize - 1) / bsize

section Slots

variable {inode : Nat → Dinode} {block : Nat → Bytes} {inum fbn b : Nat} {din : Dinode}

theorem Slot.data_direct (lt : fbn < 12) : Slot.data inum fbn = .direct inum ⟨fbn, lt⟩ := by
  simp [Slot.data, lt]

theorem Slot.data_entry (ge : 12 ≤ fbn) :
    Slot.data inum fbn = .entry inum (Fin.ofNat 256 (fbn - 12)) := by
  simp [Slot.data, show ¬ fbn < 12 by omega]

@[simp] theorem Slot.inum_data : (Slot.data inum fbn).inum = inum := by
  unfold Slot.data
  split <;> rfl

theorem Slot.data_ne_indirect {inum' : Nat} : Slot.data inum fbn ≠ .indirect inum' := by
  unfold Slot.data
  split <;> simp

theorem Slot.data_inj {inum' fbn' : Nat} (lt : fbn < maxfile) (lt' : fbn' < maxfile)
    (same : Slot.data inum fbn = Slot.data inum' fbn') : inum = inum' ∧ fbn = fbn' := by
  have max : maxfile = 268 := rfl
  unfold Slot.data at same
  split at same <;> split at same
  · simpa using same
  · simp at same
  · simp at same
  · simp only [Slot.entry.injEq, Fin.ext_iff, Fin.val_ofNat] at same
    omega

theorem held_entry (nonzero : (inode inum).indirect ≠ 0) (j : Fin 256) :
    held inode block (.entry inum j) = word (block (inode inum).indirect) j := by
  simp [held, nonzero]

theorem held_entry_empty (zero : (inode inum).indirect = 0) (j : Fin 256) :
    held inode block (.entry inum j) = 0 := by
  simp [held, zero]

/-- Inodes with the same addresses hold the same blocks. -/
theorem held_congr {inode' : Nat → Dinode} (direct : ∀ inum, (inode' inum).direct = (inode inum).direct)
    (indirect : ∀ inum, (inode' inum).indirect = (inode inum).indirect) :
    held inode' block = held inode block := by
  funext slot
  cases slot <;> simp only [held, direct, indirect]

theorem held_size {n : Nat} :
    held (Function.update inode inum { din with size := n }) block =
      held (Function.update inode inum din) block := by
  apply held_congr <;> intro inum' <;> by_cases here : inum' = inum <;> simp [here]

/-- A change of one inode changes what its own slots hold. -/
theorem held_update_ne {din' : Dinode} {slot : Slot} (other : slot.inum ≠ inum) :
    held (Function.update inode inum din') block slot =
      held (Function.update inode inum din) block slot := by
  cases slot <;> simp_all [held, Slot.inum]

theorem held_setDirect {i : Fin 12} :
    held (Function.update inode inum (din.setDirect i b)) block =
      Function.update (held (Function.update inode inum din) block) (.direct inum i) b := by
  funext slot
  by_cases here : slot.inum = inum
  · subst here
    cases slot with
    | direct inum k => by_cases same : k = i <;> simp [held, Slot.inum, same]
    | indirect inum => simp [held, Slot.inum]
    | entry inum j => simp [held, Slot.inum]
  · rw [Function.update_of_ne (by rintro rfl; exact here rfl)]
    exact held_update_ne here

/-- The entries of the old and of the new indirect block are all empty. -/
theorem held_setIndirect
    (before : ∀ j, held (Function.update inode inum din) block (.entry inum j) = 0)
    (after : b ≠ 0 → ∀ j, word (block b) j = 0) :
    held (Function.update inode inum (din.setIndirect b)) block =
      Function.update (held (Function.update inode inum din) block) (.indirect inum) b := by
  funext slot
  by_cases here : slot.inum = inum
  · subst here
    cases slot with
    | direct inum k => simp [held, Slot.inum]
    | indirect inum => simp [held, Slot.inum]
    | entry inum j =>
      rw [Function.update_of_ne (by simp)]
      refine Eq.trans ?_ (before j).symm
      by_cases zero : b = 0
      · simp [held, Slot.inum, zero]
      · simp [held, Slot.inum, zero, after zero]
  · rw [Function.update_of_ne (by rintro rfl; exact here rfl)]
    exact held_update_ne here

/-- Only the indirect blocks matter. -/
theorem held_block_congr {block' : Nat → Bytes}
    (same : ∀ inum, (inode inum).indirect ≠ 0 →
      block' (inode inum).indirect = block (inode inum).indirect) :
    held inode block' = held inode block := by
  funext slot
  cases slot with
  | direct inum i => rfl
  | indirect inum => rfl
  | entry inum j =>
    by_cases zero : (inode inum).indirect = 0
    · rw [held_entry_empty zero, held_entry_empty zero]
    · rw [held_entry zero, held_entry zero, same inum zero]

/-- A write to a block that is no indirect block. -/
theorem held_write {x : Nat} {data : Bytes} (other : ∀ inum, (inode inum).indirect ≠ x) :
    held inode (Function.update block x data) = held inode block := by
  apply held_block_congr
  intro inum _
  exact Function.update_of_ne (other inum) _ _

/-- A write to a word of an indirect block. -/
theorem held_setWord {j : Fin 256} (small : b < 256 ^ 4) (nonzero : (inode inum).indirect ≠ 0)
    (once : ∀ inum', (inode inum').indirect = (inode inum).indirect → inum' = inum) :
    held inode (Function.update block (inode inum).indirect
        (setWord (block (inode inum).indirect) j b)) =
      Function.update (held inode block) (.entry inum j) b := by
  funext slot
  cases slot with
  | direct inum' i => simp [held]
  | indirect inum' => simp [held]
  | entry inum' k =>
    by_cases here : inum' = inum
    · subst here
      rw [held_entry nonzero, Function.update_self, word_setWord small]
      by_cases same : k = j
      · subst same
        simp
      · have ne : k.val ≠ j.val := by simpa [Fin.ext_iff] using same
        simp [same, ne, held_entry nonzero]
    · have ne : (inode inum').indirect ≠ (inode inum).indirect := fun eq => here (once inum' eq)
      simp [held, here, Function.update_of_ne ne]

end Slots

end Sistemas.Xv6
