import Sistemas.Xv6.Fs
import Sistemas.Data.Ownership

/-! # Block ownership

Every data block belongs to one place of one inode or is free, and the bitmap says which.
While an operation runs, the inode that it has in memory stands for the one on the disk.
-/

namespace Sistemas.Xv6.Fs

open Sistemas.Ownership
open Sistemas.Transition

variable (sb : Layout)

/-- The inodes that are allocated. -/
def table (block : Blocks) (inum : Nat) : Dinode :=
  if inum < sb.ninodes ∧ (dinode sb block inum).type ≠ 0 then dinode sb block inum else .zero

/-- A data block is held once or is free, and files have no holes. -/
structure Owned (block : Blocks) : Prop where
  once : ∀ s t, held (table sb block) block s ≠ 0 →
    held (table sb block) block s = held (table sb block) block t → s = t
  data : ∀ s, held (table sb block) block s ≠ 0 →
    sb.nmeta ≤ held (table sb block) block s ∧ held (table sb block) block s < sb.size
  bit_iff : ∀ b, sb.nmeta ≤ b → b < sb.size →
    (bit sb block b = true ↔ ∃ s, held (table sb block) block s = b)
  -- the blocks before the data blocks are never free
  bit_meta : ∀ b < sb.nmeta, bit sb block b = true
  mapped : ∀ inum, ∀ fbn < blocks (table sb block inum).size,
    fbn < maxfile ∧ held (table sb block) block (.data inum fbn) ≠ 0

def used (block : Blocks) (b : Nat) : Prop := b < sb.size ∧ bit sb block b = true

/-- The blocks in use are those that `holds` says, and the ones before the data blocks. -/
abbrev Owns (holds : Slot → Nat) (block : Blocks) : Prop :=
  Exclusive (· < sb.nmeta) (used sb block) holds

variable {sb} {holds : Slot → Nat} {block block' : Blocks} {inode base : Nat → Dinode}
  {inum addr : Nat} {ip ip' : Dinode}

theorem nmeta_le : sb.nmeta ≤ sb.size := Nat.sub_le _ _

theorem nmeta_pos (pos : 0 < sb.size) : 0 < sb.nmeta :=
  (Nat.zero_le _).trans_lt (sb.bitmap_below 0 pos)

theorem Owned.owns (owned : Owned sb block) : Owns sb (held (table sb block) block) block where
  once := owned.once
  used_iff := by
    intro b
    constructor
    · rintro ⟨lt, set⟩
      by_cases low : b < sb.nmeta
      · exact .inl low
      · obtain ⟨s, eq⟩ := (owned.bit_iff b (by omega) lt).mp set
        refine .inr ⟨s, ?_, eq⟩
        rw [eq]
        have := nmeta_pos (Nat.zero_lt_of_lt lt)
        omega
    · rintro (low | ⟨s, nonzero, rfl⟩)
      · exact ⟨low.trans_le nmeta_le, owned.bit_meta b low⟩
      · have range := owned.data s nonzero
        exact ⟨range.2, (owned.bit_iff _ range.1 range.2).mpr ⟨s, rfl⟩⟩
  apart := by
    intro s nonzero
    have := owned.data s nonzero
    omega

theorem Owns.range (owns : Owns sb holds block) {slot : Slot} (nonzero : holds slot ≠ 0) :
    sb.nmeta ≤ holds slot ∧ holds slot < sb.size := by
  have := owns.apart slot nonzero
  exact ⟨by omega, (owns.used_of_holds nonzero).1⟩

theorem Owns.owned (owns : Owns sb (held (table sb block) block) block)
    (mapped : ∀ inum, ∀ fbn < blocks (table sb block inum).size,
      fbn < maxfile ∧ held (table sb block) block (.data inum fbn) ≠ 0) : Owned sb block where
  once := owns.once
  data _ nonzero := owns.range nonzero
  bit_iff := by
    intro b low high
    have iff := owns.used_iff b
    constructor
    · intro set
      obtain low' | ⟨s, -, eq⟩ := iff.mp ⟨high, set⟩
      · omega
      · exact ⟨s, eq⟩
    · rintro ⟨s, eq⟩
      have pos := nmeta_pos (Nat.zero_lt_of_lt high)
      exact (iff.mpr (.inr ⟨s, by omega, eq⟩)).2
  bit_meta b low := ((owns.used_iff b).mpr (.inl low)).2
  mapped := mapped

/-! ## The bitmap -/

theorem bblock_low {b : Nat} (lt : b < sb.size) : sb.bmapstart ≤ sb.bblock b ∧ sb.bblock b < sb.nmeta :=
  ⟨Nat.le_add_left _ _, sb.bitmap_below b lt⟩

theorem iblock_low (lt : inum < sb.ninodes) (pos : 0 < sb.size) : sb.iblock inum < sb.nmeta := by
  have below := sb.inodes_below inum lt
  have start := bblock_low pos
  omega

/-- Two blocks with one place in one bitmap block are the same. -/
theorem place_inj {b c : Nat} (same : sb.bblock b = sb.bblock c) : b % bpb = c % bpb ↔ b = c := by
  have : bpb = 8192 := rfl
  simp only [Superblock.bblock, this] at same ⊢
  omega

theorem scan_some {b k : Nat} (found : scan sb block (k * bpb) = some b) :
    b < sb.size ∧ bit sb block b = false := by
  unfold scan at found
  obtain ⟨bi, first, rfl⟩ := Option.map_eq_some_iff.mp found
  have free := List.find?_some first
  have lt : bi < bpb := List.mem_range.mp (List.mem_of_find?_eq_some first)
  have place : (k * bpb + bi) % bpb = bi := by
    rw [Nat.mul_comm, Nat.mul_add_mod, Nat.mod_eq_of_lt lt]
  have same : sb.bblock (k * bpb + bi) = sb.bblock (k * bpb) := by
    have : bpb = 8192 := rfl
    simp only [Superblock.bblock, this] at lt ⊢
    omega
  simp only [Bool.and_eq_true, decide_eq_true_eq, Bool.not_eq_true'] at free
  rw [bit, place, same]
  exact free

/-- What `balloc` does: it fails, or it takes and clears a free block. -/
theorem balloc_cases (eq : balloc sb block = (addr, block')) :
    (addr = 0 ∧ block' = block) ∨
      (addr < sb.size ∧ bit sb block addr = false ∧
        block' = bzero (Function.update block (sb.bblock addr)
          ((block (sb.bblock addr)).setBit (addr % bpb))) addr) := by
  unfold balloc at eq
  split at eq
  · next b found =>
    obtain ⟨k, -, here⟩ := List.exists_of_findSome?_eq_some found
    obtain ⟨lt, free⟩ := scan_some here
    cases eq
    exact .inr ⟨lt, free, rfl⟩
  · cases eq
    exact .inl ⟨rfl, rfl⟩

/-- The inode blocks are as they were. -/
def SameInodes (sb : Layout) (block block' : Blocks) : Prop :=
  ∀ inum < sb.ninodes, block' (sb.iblock inum) = block (sb.iblock inum)

theorem SameInodes.refl : SameInodes sb block block := fun _ _ => rfl

theorem SameInodes.trans {block₁ block₂ block₃ : Blocks} (first : SameInodes sb block₁ block₂)
    (second : SameInodes sb block₂ block₃) : SameInodes sb block₁ block₃ := by
  intro inum lt
  rw [second inum lt, first inum lt]

theorem SameInodes.table (same : SameInodes sb block block') : table sb block' = table sb block := by
  funext inum
  unfold Fs.table
  by_cases lt : inum < sb.ninodes
  · have eq : dinode sb block' inum = dinode sb block inum := by
      rw [dinode, same inum lt, dinode]
    simp only [eq]
  · simp [lt]

/-- A block that is new. -/
structure Allocated (sb : Layout) (inode : Nat → Dinode) (block : Blocks) (addr : Nat)
    (block' : Blocks) : Prop where
  fresh : ¬ used sb block addr
  zero : block' addr = zeroes
  used_iff : ∀ b, used sb block' b ↔ used sb block b ∨ b = addr
  held_eq : held inode block' = held inode block
  inodes : SameInodes sb block block'

theorem balloc_owns (owns : Owns sb (held inode block) block)
    (eq : balloc sb block = (addr, block')) :
    (addr = 0 ∧ block' = block) ∨ (addr ≠ 0 ∧ addr < 256 ^ 4 ∧ Allocated sb inode block addr block') := by
  obtain failed | ⟨lt, free, rfl⟩ := balloc_cases eq
  · exact .inl failed
  · have fresh : ¬ used sb block addr := by
      rintro ⟨-, set⟩
      rw [free] at set
      cases set
    have high : sb.nmeta ≤ addr := by
      by_contra low
      exact fresh ((owns.used_iff addr).mpr (.inl (by omega)))
    have place := bblock_low lt
    have pos := nmeta_pos (Nat.zero_lt_of_lt lt)
    refine .inr ⟨by omega, lt.trans sb.small, ⟨fresh, Function.update_self _ _ _, ?_, ?_, ?_⟩⟩
    · intro b
      by_cases inside : b < sb.size
      · have low := bblock_low inside
        have bit_eq : bit sb (bzero (Function.update block (sb.bblock addr)
            ((block (sb.bblock addr)).setBit (addr % bpb))) addr) b =
              (decide (b = addr) || bit sb block b) := by
          rw [bit, bzero, Function.update_of_ne (by omega)]
          by_cases here : sb.bblock b = sb.bblock addr
          · rw [here, Function.update_self, Bytes.bit_setBit, bit, here]
            simp only [place_inj here]
          · have ne : b ≠ addr := by
              rintro rfl
              exact here rfl
            rw [Function.update_of_ne here, bit]
            simp [ne]
        simp only [used, inside, true_and, bit_eq, Bool.or_eq_true, decide_eq_true_eq]
        exact or_comm
      · have ne : b ≠ addr := by omega
        simp [used, inside, ne]
    · -- the bitmap is not an indirect block, and the new block is not one yet
      apply held_block_congr
      intro inum nonzero
      have nonzero' : held inode block (.indirect inum) ≠ 0 := nonzero
      have used' := owns.used_of_holds nonzero'
      have range := owns.range nonzero'
      simp only [held] at used' range
      have ne : (inode inum).indirect ≠ addr := by
        intro same
        exact fresh (same ▸ used')
      rw [bzero, Function.update_of_ne ne, Function.update_of_ne (by omega)]
    · intro inum lt'
      have below := sb.inodes_below inum lt'
      rw [bzero, Function.update_of_ne (by omega), Function.update_of_ne (by omega)]

/-- A block that is held can be freed. -/
theorem bfree_owns {slot : Slot} (owns : Owns sb holds block) (nonzero : holds slot ≠ 0) :
    ∃ block', bfree sb (holds slot) block = .ok block' ∧
      Owns sb (Function.update holds slot 0) block' ∧ SameInodes sb block block' ∧
      ∀ b, sb.nmeta ≤ b → block' b = block b := by
  obtain ⟨lt, set⟩ := owns.used_of_holds nonzero
  have place := bblock_low lt
  refine ⟨Function.update block (sb.bblock (holds slot))
    ((block (sb.bblock (holds slot))).clearBit (holds slot % bpb)), ?_, ?_, ?_, ?_⟩
  · rw [bit] at set
    simp [bfree, set]
  · refine (owns.drop nonzero).congr ?_ rfl
    intro b
    have bit_eq : bit sb (Function.update block (sb.bblock (holds slot))
        ((block (sb.bblock (holds slot))).clearBit (holds slot % bpb))) b =
          (decide (b ≠ holds slot) && bit sb block b) := by
      rw [bit]
      by_cases here : sb.bblock b = sb.bblock (holds slot)
      · rw [here, Function.update_self, Bytes.bit_clearBit, bit, here]
        simp only [ne_eq, place_inj here]
      · have ne : b ≠ holds slot := by
          intro same
          exact here (same ▸ rfl)
        rw [Function.update_of_ne here, bit]
        simp [ne]
    simp only [used, bit_eq, Bool.and_eq_true, decide_eq_true_eq]
    exact ⟨fun h => ⟨⟨h.1, h.2.2⟩, h.2.1⟩, fun h => ⟨h.1.1, h.2, h.1.2⟩⟩
  · intro inum lt'
    have below := sb.inodes_below inum lt'
    exact Function.update_of_ne (by omega) _ _
  · intro b high
    exact Function.update_of_ne (by omega) _ _

/-! ## `bmap` -/

/-- What is held while `ip` is in memory. -/
abbrev holding (base : Nat → Dinode) (inum : Nat) (ip : Dinode) (block : Blocks) : Slot → Nat :=
  held (Function.update base inum ip) block

/-- Blocks may be added to the inode, and none is lost. -/
structure Grown (sb : Layout) (base : Nat → Dinode) (inum : Nat) (ip : Dinode) (block : Blocks)
    (ip' : Dinode) (block' : Blocks) : Prop where
  owns : Owns sb (holding base inum ip' block') block'
  keep : ∀ slot, holding base inum ip block slot ≠ 0 →
    holding base inum ip' block' slot = holding base inum ip block slot
  inodes : SameInodes sb block block'
  size : ip'.size = ip.size
  type : ip'.type = ip.type
  fits : ip.Fits → ip'.Fits

namespace Grown

theorem refl (owns : Owns sb (holding base inum ip block) block) :
    Grown sb base inum ip block ip block :=
  ⟨owns, fun _ _ => rfl, .refl, rfl, rfl, id⟩

theorem trans {ip₁ ip₂ ip₃ : Dinode} {block₁ block₂ block₃ : Blocks}
    (first : Grown sb base inum ip₁ block₁ ip₂ block₂)
    (second : Grown sb base inum ip₂ block₂ ip₃ block₃) :
    Grown sb base inum ip₁ block₁ ip₃ block₃ where
  owns := second.owns
  keep := by
    intro slot nonzero
    have middle := first.keep slot nonzero
    rw [← middle] at nonzero
    rw [second.keep slot nonzero, middle]
  inodes := first.inodes.trans second.inodes
  size := second.size.trans first.size
  type := second.type.trans first.type
  fits fits := second.fits (first.fits fits)

/-- A new block goes into an empty slot. -/
theorem take {slot : Slot} (owns : Owns sb (holding base inum ip block) block)
    {block₁ : Blocks} (nonzero : addr ≠ 0)
    (allocated : Allocated sb (Function.update base inum ip) block addr block₁)
    (empty : holding base inum ip block slot = 0)
    (after : holding base inum ip' block' =
      Function.update (holding base inum ip block) slot addr)
    (used_eq : ∀ b, used sb block' b ↔ used sb block₁ b) (inodes : SameInodes sb block₁ block')
    (size : ip'.size = ip.size) (type : ip'.type = ip.type) (fits : ip.Fits → ip'.Fits) :
    Grown sb base inum ip block ip' block' where
  owns := by
    refine (owns.take empty nonzero allocated.fresh).congr ?_ after
    intro b
    exact (used_eq b).trans (allocated.used_iff b)
  keep := by
    intro other held
    have ne : other ≠ slot := by
      rintro rfl
      exact held empty
    rw [after, Function.update_of_ne ne]
  inodes := allocated.inodes.trans inodes
  size := size
  type := type
  fits := fits

end Grown

theorem bmapDirect_grown {i : Fin 12} (owns : Owns sb (holding base inum ip block) block)
    (eq : bmapDirect sb ip i block = (addr, ip', block')) :
    Grown sb base inum ip block ip' block' ∧
      (addr ≠ 0 → holding base inum ip' block' (.direct inum i) = addr) := by
  have here : ∀ ip block, holding base inum ip block (.direct inum i) = ip.direct i := by
    intro ip block
    simp [held]
  unfold bmapDirect at eq
  split at eq
  · next empty =>
    generalize alloc : balloc sb block = result at eq
    obtain ⟨addr₁, block₁⟩ := result
    obtain ⟨rfl, rfl⟩ | ⟨nonzero, small, allocated⟩ := balloc_owns owns alloc
    · simp only [if_true] at eq
      cases eq
      exact ⟨.refl owns, fun absurd => (absurd rfl).elim⟩
    · simp only [if_neg nonzero] at eq
      cases eq
      have after : holding base inum (ip.setDirect i addr) block' =
          Function.update (holding base inum ip block) (.direct inum i) addr := by
        rw [holding, held_setDirect, allocated.held_eq]
      refine ⟨.take owns nonzero allocated ((here ip block).trans empty) after (fun _ => .rfl) .refl
        rfl rfl (fun fits => fits.setDirect small), ?_⟩
      intro _
      rw [after, Function.update_self]
  · cases eq
    exact ⟨.refl owns, fun _ => here ip block⟩

theorem bmapIndirect_grown {ind : Nat} (owns : Owns sb (holding base inum ip block) block)
    (eq : bmapIndirect sb ip block = (ind, ip', block')) :
    Grown sb base inum ip block ip' block' ∧ (ind ≠ 0 → ip'.indirect = ind) := by
  unfold bmapIndirect at eq
  split at eq
  · next empty =>
    generalize alloc : balloc sb block = result at eq
    obtain ⟨addr₁, block₁⟩ := result
    obtain ⟨rfl, rfl⟩ | ⟨nonzero, small, allocated⟩ := balloc_owns owns alloc
    · simp only [if_true] at eq
      cases eq
      exact ⟨.refl owns, fun absurd => (absurd rfl).elim⟩
    · simp only [if_neg nonzero] at eq
      cases eq
      have none : ∀ j, holding base inum ip block (.entry inum j) = 0 := by
        intro j
        exact held_entry_empty (by simpa using empty) j
      have after : holding base inum (ip.setIndirect ind) block' =
          Function.update (holding base inum ip block) (.indirect inum) ind := by
        have none' : ∀ j, held (Function.update base inum ip) block' (.entry inum j) = 0 := by
          intro j
          rw [allocated.held_eq]
          exact none j
        rw [holding, held_setIndirect none' ?_, allocated.held_eq]
        intro _ j
        rw [allocated.zero, word_zeroes]
      refine ⟨.take owns nonzero allocated ?_ after (fun _ => .rfl) .refl rfl rfl
        (fun fits => fits.setIndirect small), ?_⟩
      · simpa [held] using empty
      · intro _
        exact Dinode.setIndirect_indirect
  · cases eq
    exact ⟨.refl owns, fun _ => rfl⟩

theorem bmapEntry_grown {j : Fin 256} (owns : Owns sb (holding base inum ip block) block)
    (indirect : ip.indirect ≠ 0) (eq : bmapEntry sb ip.indirect j block = (addr, block')) :
    Grown sb base inum ip block ip block' ∧
      (addr ≠ 0 → holding base inum ip block' (.entry inum j) = addr) := by
  have indirect_eq : (Function.update base inum ip inum).indirect = ip.indirect := by simp
  have nonzero' : (Function.update base inum ip inum).indirect ≠ 0 := by rwa [indirect_eq]
  have here : ∀ block, holding base inum ip block (.entry inum j) = word (block ip.indirect) j := by
    intro block
    rw [holding, held_entry nonzero', indirect_eq]
  unfold bmapEntry at eq
  simp only at eq
  split at eq
  · next empty =>
    generalize alloc : balloc sb block = result at eq
    obtain ⟨addr₁, block₁⟩ := result
    obtain ⟨rfl, rfl⟩ | ⟨nonzero, small, allocated⟩ := balloc_owns owns alloc
    · simp only [if_true] at eq
      cases eq
      exact ⟨.refl owns, fun absurd => (absurd rfl).elim⟩
    · simp only [if_neg nonzero] at eq
      cases eq
      have once : ∀ inum', (Function.update base inum ip inum').indirect =
          (Function.update base inum ip inum).indirect → inum' = inum := by
        intro inum' same
        have := owns.once (.indirect inum) (.indirect inum') nonzero' same.symm
        cases this
        rfl
      have after : holding base inum ip
          (Function.update block₁ ip.indirect (setWord (block₁ ip.indirect) j addr)) =
            Function.update (holding base inum ip block) (.entry inum j) addr := by
        rw [holding, holding, ← allocated.held_eq, ← held_setWord small nonzero' once, indirect_eq]
      have nonzeroSlot : holding base inum ip block (.indirect inum) ≠ 0 := nonzero'
      have range := owns.range nonzeroSlot
      simp only [held, indirect_eq] at range
      refine ⟨.take owns nonzero allocated ((here block).trans empty) after ?_ ?_ rfl rfl id, ?_⟩
      · -- the indirect block is not part of the bitmap
        intro b
        by_cases inside : b < sb.size
        · have low := bblock_low inside
          simp only [used, bit, Function.update_of_ne (show sb.bblock b ≠ ip.indirect by omega)]
        · simp [used, inside]
      · intro inum' lt
        have low := iblock_low lt (by omega)
        exact Function.update_of_ne (by omega) _ _
      · intro _
        rw [after, Function.update_self]
  · cases eq
    exact ⟨.refl owns, fun _ => here block⟩

/-- `bmap` does not panic within a file, and keeps what there is. -/
theorem bmap_grown {bn : Nat} (owns : Owns sb (holding base inum ip block) block)
    (lt : bn < maxfile) :
    ∃ addr ip' block', bmap sb ip bn block = .ok (addr, ip', block') ∧
      Grown sb base inum ip block ip' block' ∧
      (addr ≠ 0 → holding base inum ip' block' (.data inum bn) = addr) := by
  have maxfile_eq : maxfile = 268 := rfl
  have ndirect_eq : ndirect = 12 := rfl
  have nindirect_eq : nindirect = 256 := rfl
  unfold bmap
  split
  · next direct =>
    generalize mapped : bmapDirect sb ip ⟨bn, direct⟩ block = result
    obtain ⟨addr, ip', block'⟩ := result
    rw [Slot.data_direct direct]
    exact ⟨addr, ip', block', rfl, bmapDirect_grown owns mapped⟩
  · next notDirect =>
    rw [if_pos (by omega)]
    generalize mapped : bmapIndirect sb ip block = result
    obtain ⟨ind, ip₁, block₁⟩ := result
    obtain ⟨grown, indirect⟩ := bmapIndirect_grown owns mapped
    by_cases failed : ind = 0
    · exact ⟨0, ip₁, block₁, by simp [failed], grown, fun absurd => (absurd rfl).elim⟩
    · have index : (Fin.ofNat 256 (bn - 12)).val = bn - ndirect := by
        rw [Fin.val_ofNat]
        omega
      generalize entry : bmapEntry sb ind (bn - ndirect) block₁ = result
      obtain ⟨addr, block₂⟩ := result
      rw [← indirect failed, ← index] at entry
      obtain ⟨grown', here⟩ := bmapEntry_grown grown.owns (by rwa [indirect failed]) entry
      rw [Slot.data_entry (by omega)]
      refine ⟨addr, ip₁, block₂, ?_, grown.trans grown', here⟩
      rw [index, indirect failed] at entry
      simp [failed, entry]

end Sistemas.Xv6.Fs
