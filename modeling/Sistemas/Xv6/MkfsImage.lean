import Sistemas.Xv6.Mkfs
import Sistemas.Data.Ownership

/-! # What `mkfs` allocates

While there are no more inodes than `NINODES`, the blocks from `nmeta` up to `freeblock` are
held by the inodes, each of them once, and a file has exactly the blocks that its size asks
for.  `iappend` keeps this, with the inode that it has in memory in place of the one in the
image.
-/

namespace Sistemas.Xv6.Mkfs

open Sistemas.Ownership

theorem nmeta_eq : nmeta = 46 := rfl

theorem ipb_eq : ipb = 16 := rfl

theorem iblock_eq (inum : Nat) : sb.iblock inum = inum / 16 + 32 := rfl

theorem iblock_lt {inum : Nat} (lt : inum < ninodes) : sb.iblock inum < nmeta := by
  have : ninodes = 200 := rfl
  rw [nmeta_eq, iblock_eq]
  omega

namespace State

variable {m m' : State} {inum : Nat} {din din' : Dinode}

@[simp] theorem wsect_sector {sec : Nat} {buf : Bytes} :
    (m.wsect sec buf).sector = Function.update m.sector sec buf := rfl

theorem wsect_sectors {sec : Nat} {buf : Bytes} :
    (m.wsect sec buf).sectors = max m.sectors (sec + 1) := rfl

/-- The inodes that `sb.ninodes` admits. -/
def table (m : State) (inum : Nat) : Dinode :=
  if inum < ninodes then Dinode.load (m.sector (sb.iblock inum)) (inum % ipb) else .zero

theorem table_fits : (m.table inum).Fits := by
  unfold table
  split
  · exact Dinode.load_fits
  · exact Dinode.zero_fits

theorem rsect_some {sec : Nat} {buf : Bytes} (read : m.rsect sec = some buf) :
    sec < m.sectors ∧ buf = m.sector sec := by
  unfold rsect at read
  split at read
  · next lt => exact ⟨lt, (Option.some.inj read).symm⟩
  · cases read

theorem rinode_some (lt : inum < ninodes) (read : m.rinode inum = some din) :
    din = m.table inum := by
  unfold rinode at read
  obtain ⟨buf, sect, eq⟩ := Option.bind_eq_some_iff.mp read
  obtain ⟨-, rfl⟩ := rsect_some sect
  rw [← Option.some.inj eq, table, if_pos lt]

/-- Sectors behind the inodes do not matter for the inodes. -/
theorem table_congr (same : ∀ b < nmeta, m'.sector b = m.sector b) : m'.table = m.table := by
  funext inum
  unfold table
  split
  · next lt => rw [same _ (iblock_lt lt)]
  · rfl

/-- What `winode` writes. -/
structure Stored (m : State) (inum : Nat) (din : Dinode) (m' : State) : Prop where
  table_eq : m'.table = Function.update m.table inum din
  sector_eq : ∀ b, b ≠ sb.iblock inum → m'.sector b = m.sector b
  sectors_eq : m'.sectors = m.sectors
  freeinode_eq : m'.freeinode = m.freeinode
  freeblock_eq : m'.freeblock = m.freeblock

theorem winode_some (lt : inum < ninodes) (fits : din.Fits)
    (write : m.winode inum din = some m') : Stored m inum din m' := by
  unfold winode at write
  obtain ⟨buf, sect, eq⟩ := Option.bind_eq_some_iff.mp write
  obtain ⟨inside, rfl⟩ := rsect_some sect
  cases Option.some.inj eq
  refine ⟨?_, fun b ne => Function.update_of_ne ne _ _, ?_, rfl, rfl⟩
  · funext other
    by_cases here : other = inum
    · subst here
      simp [table, lt, wsect, Dinode.load_store fits]
    · rw [Function.update_of_ne here]
      unfold table
      split
      · by_cases block : sb.iblock other = sb.iblock inum
        · have slot : other % ipb ≠ inum % ipb := by
            intro same
            rw [iblock_eq, iblock_eq] at block
            rw [ipb_eq] at same
            omega
          rw [wsect_sector, block, Function.update_self, Dinode.load_store_ne slot]
        · rw [wsect_sector, Function.update_of_ne block]
      · rfl
  · rw [wsect_sectors]
    omega

end State

/-! ## The invariant -/

/-- The blocks from `nmeta` to `freeblock` are held, and nothing is written behind them. -/
structure Owned (holds : Slot → Nat) (m : State) : Prop where
  sectors : m.sectors = fssize
  start : nmeta ≤ m.freeblock
  own : Exclusive (· < nmeta) (· < m.freeblock) holds
  fresh : ∀ b, m.freeblock ≤ b → m.sector b = zeroes
  super : m.sector 1 = sb.store zeroes

/-- Files have the blocks that their sizes ask for, and no others. -/
structure Filled (size : Nat → Nat) (holds : Slot → Nat) : Prop where
  data : ∀ inum fbn, fbn < maxfile → (holds (.data inum fbn) ≠ 0 ↔ fbn < blocks (size inum))
  indirect : ∀ inum, holds (.indirect inum) ≠ 0 ↔ 12 < blocks (size inum)
  small : ∀ inum, blocks (size inum) ≤ maxfile

section Append

variable {base : Nat → Dinode} {inum fbn x : Nat} {din din' : Dinode} {m m' : State}

/-- What is held while `iappend` has the inode in memory. -/
abbrev holding (base : Nat → Dinode) (inum : Nat) (din : Dinode) (m : State) : Slot → Nat :=
  held (Function.update base inum din) m.sector

theorem Owned.range {holds : Slot → Nat} (owned : Owned holds m) (slot : Slot)
    (nonzero : holds slot ≠ 0) : nmeta ≤ holds slot ∧ holds slot < m.freeblock := by
  have := owned.own.apart slot nonzero
  exact ⟨by omega, owned.own.used_of_holds nonzero⟩

/-- The next block goes into an empty slot. -/
theorem Owned.take {holds : Slot → Nat} (owned : Owned holds m) (slot : Slot)
    (empty : holds slot = 0) :
    Owned (Function.update holds slot m.freeblock) { m with freeblock := m.freeblock + 1 } where
  sectors := owned.sectors
  start := Nat.le_succ_of_le owned.start
  own := by
    have pos : m.freeblock ≠ 0 := by
      have := owned.start
      rw [nmeta_eq] at this
      omega
    refine (owned.own.take empty pos (Nat.lt_irrefl _)).congr ?_ rfl
    intro b
    exact Nat.lt_succ_iff_lt_or_eq
  fresh b le := owned.fresh b (Nat.le_of_succ_le le)
  super := owned.super

theorem Owned.write {holds : Slot → Nat} {b : Nat} (owned : Owned holds m) (buf : Bytes)
    (low : nmeta ≤ b) (high : b < m.freeblock) (inside : b < fssize) :
    Owned holds (m.wsect b buf) where
  sectors := by
    rw [State.wsect_sectors, owned.sectors]
    omega
  start := owned.start
  own := owned.own
  fresh c le := by
    have high' : m.freeblock ≤ c := le
    rw [State.wsect_sector, Function.update_of_ne (by omega)]
    exact owned.fresh c le
  super := by
    have : nmeta = 46 := nmeta_eq
    rw [State.wsect_sector, Function.update_of_ne (by omega)]
    exact owned.super

theorem Owned.pos {holds : Slot → Nat} (owned : Owned holds m) : m.freeblock ≠ 0 := by
  have := owned.start
  rw [nmeta_eq] at this
  omega

/-- The address of a direct block. -/
theorem mapDirect_owned {i : Fin 12} (owned : Owned (holding base inum din m) m)
    (eq : m.mapDirect din i = (din', m')) :
    Owned (holding base inum din' m') m' ∧ holding base inum din' m' (.direct inum i) ≠ 0 ∧
      (∀ slot, slot ≠ .direct inum i →
        holding base inum din' m' slot = holding base inum din m slot) ∧
      (m' = m ∧ din' = din ∨ m' = { m with freeblock := m.freeblock + 1 } ∧
        din' = din.setDirect i m.freeblock) := by
  have here : holding base inum din m (.direct inum i) = din.direct i := by simp [held]
  unfold State.mapDirect at eq
  split at eq
  · next empty =>
    cases eq
    have after : holding base inum (din.setDirect i m.freeblock)
        { m with freeblock := m.freeblock + 1 } =
          Function.update (holding base inum din m) (.direct inum i) m.freeblock := held_setDirect
    have owned' := owned.take _ (here.trans empty)
    rw [← after] at owned'
    refine ⟨owned', ?_, ?_, .inr ⟨rfl, rfl⟩⟩
    · rw [after, Function.update_self]
      exact owned.pos
    · intro slot ne
      rw [after, Function.update_of_ne ne]
  · next nonzero =>
    cases eq
    exact ⟨owned, here ▸ nonzero, fun _ _ => rfl, .inl ⟨rfl, rfl⟩⟩

/-- The address of the indirect block. -/
theorem mapIndirect_owned (owned : Owned (holding base inum din m) m)
    (eq : m.mapIndirect din = (din', m')) :
    Owned (holding base inum din' m') m' ∧ din'.indirect ≠ 0 ∧
      (∀ slot, slot ≠ .indirect inum →
        holding base inum din' m' slot = holding base inum din m slot) ∧
      (m' = m ∧ din' = din ∨ m' = { m with freeblock := m.freeblock + 1 } ∧
        din' = din.setIndirect m.freeblock ∧
        ∀ j, holding base inum din' m' (.entry inum j) = 0) := by
  unfold State.mapIndirect at eq
  split at eq
  · next empty =>
    cases eq
    have none : ∀ j, holding base inum din m (.entry inum j) = 0 := by
      intro j
      exact held_entry_empty (by simpa using empty) j
    have after : holding base inum (din.setIndirect m.freeblock)
        { m with freeblock := m.freeblock + 1 } =
          Function.update (holding base inum din m) (.indirect inum) m.freeblock := by
      refine held_setIndirect none ?_
      intro _ j
      rw [owned.fresh _ (Nat.le_refl _), word_zeroes]
    have owned' := owned.take (.indirect inum) (by simpa [held] using empty)
    rw [← after] at owned'
    refine ⟨owned', ?_, ?_, .inr ⟨rfl, rfl, ?_⟩⟩
    · rw [Dinode.setIndirect_indirect]
      exact owned.pos
    · intro slot ne
      rw [after, Function.update_of_ne ne]
    · intro j
      rw [after, Function.update_of_ne (by simp), none]
  · next nonzero =>
    cases eq
    exact ⟨owned, nonzero, fun _ _ => rfl, .inl ⟨rfl, rfl⟩⟩

/-- No two inodes have the same indirect block, and no data block is one. -/
theorem Owned.indirect_once {holds : Slot → Nat} {inode : Nat → Dinode}
    (owned : Owned holds m) (eq : holds = held inode m.sector)
    (nonzero : (inode inum).indirect ≠ 0) :
    ∀ inum', (inode inum').indirect = (inode inum).indirect → inum' = inum := by
  subst eq
  intro inum' same
  have := owned.own.once (.indirect inum) (.indirect inum') nonzero same.symm
  cases this
  rfl

/-- The address in the indirect block. -/
theorem mapEntry_owned {j : Fin 256} (owned : Owned (holding base inum din m) m)
    (nonzero : din.indirect ≠ 0) (small : m.freeblock < 256 ^ 4)
    (eq : m.mapEntry din j = some (x, m')) :
    Owned (holding base inum din m') m' ∧ holding base inum din m' (.entry inum j) = x ∧ x ≠ 0 ∧
      (∀ slot, slot ≠ .entry inum j →
        holding base inum din m' slot = holding base inum din m slot) ∧
      (∀ b < nmeta, m'.sector b = m.sector b) ∧ m'.freeinode = m.freeinode ∧
      (m' = m ∨ holding base inum din m (.entry inum j) = 0 ∧ x + 1 = m'.freeblock) := by
  unfold State.mapEntry at eq
  obtain ⟨indirect, sect, eq⟩ := Option.bind_eq_some_iff.mp eq
  obtain ⟨inside, rfl⟩ := State.rsect_some sect
  have indirect_eq : (Function.update base inum din inum).indirect = din.indirect := by simp
  have here : holding base inum din m (.entry inum j) = word (m.sector din.indirect) j := by
    rw [holding, held_entry (by rwa [indirect_eq]), indirect_eq]
  have range : nmeta ≤ din.indirect ∧ din.indirect < m.freeblock := by
    simpa [held] using owned.range (.indirect inum) (by simpa [held] using nonzero)
  split at eq
  · next empty =>
    cases eq
    have after : holding base inum din ({ m with freeblock := m.freeblock + 1 }.wsect din.indirect
        (setWord (m.sector din.indirect) j m.freeblock)) =
          Function.update (holding base inum din m) (.entry inum j) m.freeblock := by
      have once := owned.indirect_once rfl (by rwa [indirect_eq])
      rw [← held_setWord small (by rwa [indirect_eq]) once, indirect_eq]
      rfl
    have entry : word (setWord (m.sector din.indirect) j m.freeblock) j = m.freeblock := by
      rw [word_setWord small, Function.update_self]
    have owned' := (owned.take _ (here.trans empty)).write
      (setWord (m.sector din.indirect) j m.freeblock) range.1
      (Nat.lt_succ_of_lt range.2) (owned.sectors ▸ inside)
    rw [← after] at owned'
    refine ⟨owned', ?_, ?_, ?_, ?_, rfl, .inr ⟨here.trans empty, ?_⟩⟩
    · rw [after, Function.update_self, entry]
    · rw [entry]
      exact owned.pos
    · intro slot ne
      rw [after, Function.update_of_ne ne]
    · intro b lt
      exact Function.update_of_ne (by omega) _ _
    · rw [entry]
      rfl
  · next notEmpty =>
    cases eq
    exact ⟨owned, here, notEmpty, fun _ _ => rfl, fun _ _ => rfl, rfl, .inl rfl⟩

/-- What `mapBlock` does: block `fbn` has the address `x`, other addresses are as they were. -/
structure Mapped (base : Nat → Dinode) (inum fbn : Nat) (din : Dinode) (m : State) (x : Nat)
    (din' : Dinode) (m' : State) : Prop where
  owned : Owned (holding base inum din' m') m'
  here : holding base inum din' m' (.data inum fbn) = x
  nonzero : x ≠ 0
  frame : ∀ slot, slot ≠ .data inum fbn → slot ≠ .indirect inum →
    holding base inum din' m' slot = holding base inum din m slot
  indirect : din'.indirect ≠ 0 ↔ din.indirect ≠ 0 ∨ 12 ≤ fbn
  low : ∀ b < nmeta, m'.sector b = m.sector b
  top : m'.freeblock ≤ max m.freeblock (x + 1)
  freeinode : m'.freeinode = m.freeinode
  type : din'.type = din.type
  fits : din'.Fits

theorem mapBlock_owned (owned : Owned (holding base inum din m) m) (fits : din.Fits)
    (room : m.freeblock ≤ fssize) (lt : fbn < maxfile)
    (eq : m.mapBlock din fbn = some (x, din', m')) :
    Mapped base inum fbn din m x din' m' := by
  have maxfile_eq : maxfile = 268 := rfl
  have fssize_eq : fssize = 2000 := rfl
  have small : m.freeblock < 256 ^ 4 := by omega
  unfold State.mapBlock at eq
  split at eq
  · next direct =>
    generalize mapped : m.mapDirect din ⟨fbn, direct⟩ = result at eq
    obtain ⟨din₁, m₁⟩ := result
    cases eq
    obtain ⟨owned', nonzero, frame, same | ⟨changed, changedDin⟩⟩ := mapDirect_owned owned mapped
    · obtain ⟨rfl, rfl⟩ := same
      refine ⟨owned', ?_, ?_, ?_, ?_, fun _ _ => rfl, le_max_left _ _, rfl, rfl, fits⟩
      · simp [Slot.data_direct direct, held]
      · simpa [held] using nonzero
      · intro slot _ _
        rfl
      · constructor
        · intro left
          exact .inl left
        · rintro (left | right)
          · exact left
          · omega
    · subst changed
      have x_eq : din'.direct ⟨fbn, direct⟩ = m.freeblock := by
        rw [changedDin, Dinode.setDirect_direct, Function.update_self]
      refine ⟨owned', ?_, ?_, ?_, ?_, fun _ _ => rfl, ?_, rfl, ?_, ?_⟩
      · simp [Slot.data_direct direct, held]
      · simpa [held] using nonzero
      · intro slot ne _
        rw [Slot.data_direct direct] at ne
        exact frame slot ne
      · rw [changedDin, Dinode.setDirect_indirect]
        constructor
        · intro left
          exact .inl left
        · rintro (left | right)
          · exact left
          · omega
      · rw [x_eq]
        exact le_max_right _ _
      · rw [changedDin]
        rfl
      · rw [changedDin]
        exact fits.setDirect small
  · next notDirect =>
    generalize mapped : m.mapIndirect din = result at eq
    obtain ⟨din₁, m₁⟩ := result
    obtain ⟨⟨x', m₂⟩, entry, eq⟩ := Option.bind_eq_some_iff.mp eq
    cases eq
    obtain ⟨owned₁, nonzero₁, frame₁, how⟩ := mapIndirect_owned owned mapped
    have small₁ : m₁.freeblock < 256 ^ 4 := by
      obtain ⟨rfl, -⟩ | ⟨rfl, -, -⟩ := how
      · exact small
      · show m.freeblock + 1 < 256 ^ 4
        omega
    have index : (Fin.ofNat 256 (fbn - 12)).val = fbn - 12 := by
      rw [Fin.val_ofNat]
      omega
    rw [← index] at entry
    obtain ⟨owned₂, here, nonzero, frame₂, low, freeinode, howEntry⟩ :=
      mapEntry_owned owned₁ nonzero₁ small₁ entry
    have slot_eq : Slot.data inum fbn = .entry inum (Fin.ofNat 256 (fbn - 12)) :=
      Slot.data_entry (by omega)
    refine ⟨owned₂, ?_, nonzero, ?_, ?_, ?_, ?_, ?_, ?_, ?_⟩
    · rw [slot_eq]
      exact here
    · intro slot ne ne'
      rw [slot_eq] at ne
      rw [frame₂ slot ne, frame₁ slot ne']
    · exact ⟨fun _ => .inr (by omega), fun _ => nonzero₁⟩
    · intro b ltb
      rw [low b ltb]
      obtain ⟨rfl, -⟩ | ⟨rfl, -, -⟩ := how <;> rfl
    · obtain rfl | ⟨-, top⟩ := howEntry
      · -- the entry was there, so the indirect block was
        obtain ⟨rfl, -⟩ | ⟨-, -, empty⟩ := how
        · exact le_max_left _ _
        · rw [empty] at here
          exact absurd here.symm nonzero
      · rw [← top]
        exact le_max_right _ _
    · rw [freeinode]
      obtain ⟨rfl, -⟩ | ⟨rfl, -, -⟩ := how <;> rfl
    · obtain ⟨-, rfl⟩ | ⟨-, rfl, -⟩ := how <;> rfl
    · obtain ⟨-, rfl⟩ | ⟨-, rfl, -⟩ := how
      · exact fits
      · exact fits.setIndirect small

/-! ### The loop -/

/-- The state at the head of the loop of `iappend`. -/
structure Appending (base : Nat → Dinode) (inum : Nat) (din : Dinode) (off : Nat) (m : State) :
    Prop where
  owned : Owned (holding base inum din m) m
  filled : Filled (Function.update (fun i => (base i).size) inum off) (holding base inum din m)
  room : m.freeblock ≤ fssize
  fits : din.Fits

/-- Sizes from the middle of a block on to its end ask for that block. -/
theorem blocks_of_div {off size : Nat} (low : off / bsize * bsize < size)
    (high : size ≤ (off / bsize + 1) * bsize) : blocks size = off / bsize + 1 := by
  have : bsize = 1024 := rfl
  unfold blocks
  simp only [this] at *
  omega

theorem blocks_start (off : Nat) : blocks off = off / bsize ∨ blocks off = off / bsize + 1 := by
  have : bsize = 1024 := rfl
  unfold blocks
  simp only [this]
  omega

theorem room_bounds (off : Nat) {n : Nat} (pos : 0 < n) :
    off / bsize * bsize < off + State.room off n ∧
      off + State.room off n ≤ (off / bsize + 1) * bsize := by
  have : bsize = 1024 := rfl
  have := State.room_pos off pos
  unfold State.room at *
  simp only [bsize] at *
  omega

/-- The file has one more block, or the same. -/
theorem Filled.grow {size : Nat → Nat} {off size' : Nat} {holds holds' : Slot → Nat}
    (filled : Filled (Function.update size inum off) holds) (lt : off / bsize < maxfile)
    (here : holds' (.data inum (off / bsize)) ≠ 0)
    (frame : ∀ slot, slot ≠ .data inum (off / bsize) → slot ≠ .indirect inum →
      holds' slot = holds slot)
    (indirect : holds' (.indirect inum) ≠ 0 ↔ holds (.indirect inum) ≠ 0 ∨ 12 ≤ off / bsize)
    (size_eq : blocks size' = off / bsize + 1) :
    Filled (Function.update size inum size') holds' where
  data := by
    intro inum' fbn ltFbn
    have before := filled.data inum' fbn ltFbn
    by_cases sameInum : inum' = inum
    · subst sameInum
      rw [Function.update_self] at before ⊢
      by_cases sameFbn : fbn = off / bsize
      · subst sameFbn
        simp [here, size_eq]
      · have ne : Slot.data inum' fbn ≠ .data inum' (off / bsize) :=
          fun same => sameFbn (Slot.data_inj ltFbn lt same).2
        rw [frame _ ne Slot.data_ne_indirect, before, size_eq]
        have := blocks_start off
        omega
    · have ne : Slot.data inum' fbn ≠ .data inum (off / bsize) :=
        fun same => sameInum (Slot.data_inj ltFbn lt same).1
      rw [Function.update_of_ne sameInum] at before ⊢
      rw [frame _ ne Slot.data_ne_indirect, before]
  indirect := by
    intro inum'
    have before := filled.indirect inum'
    by_cases sameInum : inum' = inum
    · subst sameInum
      rw [Function.update_self] at before ⊢
      rw [indirect, before, size_eq]
      have := blocks_start off
      omega
    · rw [Function.update_of_ne sameInum] at before ⊢
      rw [frame _ Slot.data_ne_indirect.symm (by simpa using sameInum), before]
  small := by
    intro inum'
    have before := filled.small inum'
    by_cases sameInum : inum' = inum
    · subst sameInum
      rw [Function.update_self, size_eq]
      omega
    · rwa [Function.update_of_ne sameInum] at before ⊢

/-- The inodes in the image and the type of the one in memory are as they were. -/
structure Kept (din : Dinode) (m : State) (din' : Dinode) (m' : State) : Prop where
  low : ∀ b < nmeta, m'.sector b = m.sector b
  freeinode : m'.freeinode = m.freeinode
  type : din'.type = din.type

theorem Kept.trans {din₁ din₂ din₃ : Dinode} {m₁ m₂ m₃ : State} (first : Kept din₁ m₁ din₂ m₂)
    (second : Kept din₂ m₂ din₃ m₃) : Kept din₁ m₁ din₃ m₃ where
  low b lt := (second.low b lt).trans (first.low b lt)
  freeinode := second.freeinode.trans first.freeinode
  type := second.type.trans first.type

theorem appendBlock_appending {off : Nat} {p : List UInt8} (before : Appending base inum din off m)
    (pos : 0 < p.length) (eq : m.appendBlock din off p = some (din', m')) :
    Appending base inum din' (off + State.room off p.length) m' ∧ Kept din m din' m' := by
  simp only [State.appendBlock] at eq
  split at eq
  · next lt =>
    obtain ⟨⟨x, din₁, m₁⟩, mapping, eq⟩ := Option.bind_eq_some_iff.mp eq
    obtain ⟨buf, sect, eq⟩ := Option.bind_eq_some_iff.mp eq
    obtain ⟨inside, rfl⟩ := State.rsect_some sect
    cases eq
    have mapped := mapBlock_owned before.owned before.fits before.room lt mapping
    have inside' : x < fssize := mapped.owned.sectors ▸ inside
    have range : nmeta ≤ x ∧ x < m₁.freeblock := by
      have := mapped.owned.range (.data inum (off / bsize)) (by rw [mapped.here]; exact mapped.nonzero)
      rwa [mapped.here] at this
    -- the block that is written is nobody's indirect block
    have other : ∀ inum', (Function.update base inum din₁ inum').indirect ≠ x := by
      intro inum' same
      have := mapped.owned.own.once (.data inum (off / bsize)) (.indirect inum')
        (by rw [mapped.here]; exact mapped.nonzero) (by rw [mapped.here]; exact same.symm)
      exact Slot.data_ne_indirect this
    have after : ∀ data, holding base inum din₁ (m₁.wsect x data) = holding base inum din₁ m₁ :=
      fun data => held_write other
    refine ⟨⟨?_, ?_, ?_, mapped.fits⟩, ⟨?_, mapped.freeinode, mapped.type⟩⟩
    · rw [after]
      exact mapped.owned.write _ range.1 range.2 inside'
    · rw [after]
      have bounds := room_bounds off pos
      refine before.filled.grow lt ?_ mapped.frame ?_ (blocks_of_div bounds.1 bounds.2)
      · rw [mapped.here]
        exact mapped.nonzero
      · simpa [held] using mapped.indirect
    · have := mapped.top
      have := before.room
      show m₁.freeblock ≤ fssize
      omega
    · intro b ltb
      rw [State.wsect_sector, Function.update_of_ne (by omega)]
      exact mapped.low b ltb
  · cases eq

theorem appendLoop_appending {off off' : Nat} {p : List UInt8}
    (before : Appending base inum din off m)
    (eq : m.appendLoop din off p = some (din', off', m')) :
    Appending base inum din' off' m' ∧ Kept din m din' m' ∧ off' = off + p.length := by
  -- by induction on the bytes that are left
  induction left : p.length using Nat.strong_induction_on generalizing m din off p with
  | _ n ih =>
    rw [State.appendLoop] at eq
    split at eq
    · next empty =>
      cases eq
      subst empty
      exact ⟨before, ⟨fun _ _ => rfl, rfl, rfl⟩, by simp [← left]⟩
    · next nonempty =>
      have pos : 0 < p.length := List.length_pos_iff.mpr nonempty
      obtain ⟨⟨din₁, m₁⟩, block, eq⟩ := Option.bind_eq_some_iff.mp eq
      obtain ⟨before₁, kept₁⟩ := appendBlock_appending before pos block
      have some_written := State.room_pos off pos
      have le : State.room off p.length ≤ p.length := min_le_left _ _
      obtain ⟨after, kept₂, off'_eq⟩ :=
        ih _ (by rw [List.length_drop]; omega) before₁ eq rfl
      refine ⟨after, kept₁.trans kept₂, ?_⟩
      rw [off'_eq, List.length_drop]
      omega

end Append

/-! ## Inodes -/

/-- The inodes that `ialloc` has given out. -/
def State.InUse (m : State) (inum : Nat) : Prop := 1 ≤ inum ∧ inum < m.freeinode

/-- The invariant, when no inode is in memory. -/
structure Built (m : State) : Prop where
  owned : Owned (held m.table m.sector) m
  filled : Filled (fun inum => (m.table inum).size) (held m.table m.sector)
  room : m.freeblock ≤ fssize
  unused : ∀ inum, ¬ m.InUse inum → m.table inum = .zero
  typed : ∀ inum, m.InUse inum → inum < ninodes → (m.table inum).type ≠ 0

variable {m m' : State} {inum : Nat} {din : Dinode}

theorem Owned.stored {holds : Slot → Nat} (owned : Owned holds m) (stored : State.Stored m inum din m')
    (lt : inum < ninodes) : Owned holds m' := by
  have low := iblock_lt lt
  have high := iblock_eq inum
  refine ⟨?_, ?_, ?_, ?_, ?_⟩
  · rw [stored.sectors_eq, owned.sectors]
  · rw [stored.freeblock_eq]
    exact owned.start
  · rw [stored.freeblock_eq]
    exact owned.own
  · intro b le
    have start := owned.start
    rw [stored.freeblock_eq] at le
    rw [stored.sector_eq b (by omega)]
    exact owned.fresh b le
  · rw [stored.sector_eq 1 (by omega)]
    exact owned.super

/-- The inode is stored in the image. -/
theorem held_stored {base : Nat → Dinode} (owned : Owned (holding base inum din m) m)
    (stored : State.Stored m inum din m') (lt : inum < ninodes) (table_eq : m.table = base) :
    held m'.table m'.sector = holding base inum din m := by
  subst table_eq
  rw [stored.table_eq]
  apply held_block_congr
  intro inum' nonzero
  have low := iblock_lt lt
  have range := owned.range (.indirect inum') (by simpa [held] using nonzero)
  simp only [held] at range
  exact stored.sector_eq _ (by omega)

theorem size_update {base : Nat → Dinode} {size : Nat} :
    (fun i => (Function.update base inum { din with size := size } i).size) =
      Function.update (fun i => (base i).size) inum size := by
  funext i
  by_cases here : i = inum
  · subst here
    simp
  · simp [here]

/-- What `iappend` does to the inodes. -/
structure Appended (m : State) (inum n : Nat) (m' : State) : Prop where
  built : Built m'
  freeinode : m'.freeinode = m.freeinode
  size : (m'.table inum).size = (m.table inum).size + n
  type : (m'.table inum).type = (m.table inum).type
  frame : ∀ other, other ≠ inum → m'.table other = m.table other

theorem iappend_built {p : List UInt8} (built : Built m) (use : m.InUse inum)
    (lt : inum < ninodes) (eq : m.iappend inum p = some m') :
    Appended m inum p.length m' := by
  unfold State.iappend at eq
  obtain ⟨din, read, eq⟩ := Option.bind_eq_some_iff.mp eq
  obtain ⟨⟨din', off', m₁⟩, loop, write⟩ := Option.bind_eq_some_iff.mp eq
  have din_eq := State.rinode_some lt read
  subst din_eq
  have same : Function.update m.table inum (m.table inum) = m.table := Function.update_eq_self _ _
  have before : Appending m.table inum (m.table inum) (m.table inum).size m := by
    refine ⟨?_, ?_, built.room, State.table_fits⟩
    · rw [holding, same]
      exact built.owned
    · rw [holding, same]
      have := Function.update_eq_self inum (fun i => (m.table i).size)
      rw [this]
      exact built.filled
  obtain ⟨after, kept, off'_eq⟩ := appendLoop_appending before loop
  have small : off' < 256 ^ 4 := by
    have := after.filled.small inum
    rw [Function.update_self, blocks] at this
    have : bsize = 1024 := rfl
    have : maxfile = 268 := rfl
    simp only [bsize, maxfile, ndirect, nindirect] at *
    omega
  have table₁ : m₁.table = m.table := State.table_congr kept.low
  have stored := State.winode_some lt (after.fits.resize small) write
  have owned : Owned (holding m.table inum { din' with size := off' } m₁) m₁ := by
    rw [holding, held_size]
    exact after.owned
  have held_eq := held_stored owned stored lt table₁
  have table' := stored.table_eq
  rw [table₁] at table'
  have freeinode : m'.freeinode = m.freeinode := by rw [stored.freeinode_eq, kept.freeinode]
  have type : (m'.table inum).type = (m.table inum).type := by
    rw [table', Function.update_self]
    exact kept.type
  have frame : ∀ other, other ≠ inum → m'.table other = m.table other := by
    intro other ne
    rw [table', Function.update_of_ne ne]
  refine ⟨⟨?_, ?_, ?_, ?_, ?_⟩, freeinode, ?_, type, frame⟩
  · rw [held_eq]
    exact owned.stored stored lt
  · rw [held_eq, table', size_update, holding, held_size]
    exact after.filled
  · rw [stored.freeblock_eq]
    exact after.room
  · intro other notUsed
    rw [State.InUse, freeinode] at notUsed
    have ne : other ≠ inum := by
      rintro rfl
      exact notUsed use
    rw [frame other ne]
    exact built.unused other notUsed
  · intro other used' lt'
    rw [State.InUse, freeinode] at used'
    by_cases here : other = inum
    · subst here
      rw [type]
      exact built.typed other used' lt'
    · rw [frame other here]
      exact built.typed other used' lt'
  · rw [table', Function.update_self, off'_eq]

theorem ialloc_built {type : Nat} (built : Built m) (lt : m.freeinode < ninodes)
    (pos : 1 ≤ m.freeinode) (small : type < 256 ^ 2) (nonzero : type ≠ 0)
    (eq : m.ialloc type = some (inum, m')) :
    Built m' ∧ inum = m.freeinode ∧ m'.freeinode = m.freeinode + 1 ∧
      (m'.table inum).size = 0 ∧ ∀ other, other ≠ inum → m'.table other = m.table other := by
  unfold State.ialloc at eq
  obtain ⟨m₁, write, eq⟩ := Option.bind_eq_some_iff.mp eq
  cases eq
  have fits : { Dinode.zero with type := type, nlink := 1 }.Fits := by
    have zero := Dinode.zero_fits
    exact ⟨small, zero.major, zero.minor, show 1 < 256 ^ 2 by decide, zero.size, zero.addrs⟩
  have stored := State.winode_some lt fits write
  have free : m.table m.freeinode = .zero := by
    apply built.unused
    rintro ⟨-, lt'⟩
    exact Nat.lt_irrefl _ lt'
  have before : { m with freeinode := m.freeinode + 1 }.table = m.table := rfl
  -- an inode without addresses comes in place of another
  have holding_eq : holding m.table m.freeinode { Dinode.zero with type := type, nlink := 1 }
      { m with freeinode := m.freeinode + 1 } = held m.table m.sector := by
    apply held_congr <;> intro other <;> by_cases here : other = m.freeinode
    · subst here
      simp [free]
      rfl
    · simp [here]
    · subst here
      simp [free, Dinode.indirect]
    · simp [here]
  have owned : Owned (held m.table m.sector) { m with freeinode := m.freeinode + 1 } :=
    ⟨built.owned.sectors, built.owned.start, built.owned.own, built.owned.fresh, built.owned.super⟩
  rw [← holding_eq] at owned
  have held_eq := held_stored owned stored lt before
  have table' := stored.table_eq
  rw [before] at table'
  have sizes : (fun i => (m'.table i).size) = fun i => (m.table i).size := by
    funext i
    by_cases here : i = m.freeinode
    · subst here
      rw [table', Function.update_self, free]
    · rw [table', Function.update_of_ne here]
  refine ⟨⟨?_, ?_, ?_, ?_, ?_⟩, rfl, ?_, ?_, ?_⟩
  · rw [held_eq]
    exact owned.stored stored lt
  · rw [held_eq, holding_eq, sizes]
    exact built.filled
  · rw [stored.freeblock_eq]
    exact built.room
  · intro other notUsed
    rw [State.InUse, stored.freeinode_eq] at notUsed
    have ne : other ≠ m.freeinode := by
      rintro rfl
      exact notUsed ⟨pos, Nat.lt_succ_self _⟩
    rw [table', Function.update_of_ne ne]
    apply built.unused
    rintro ⟨ge, lt'⟩
    exact notUsed ⟨ge, Nat.lt_succ_of_lt lt'⟩
  · intro other used' lt'
    rw [State.InUse, stored.freeinode_eq] at used'
    by_cases here : other = m.freeinode
    · subst here
      rw [table', Function.update_self]
      exact nonzero
    · rw [table', Function.update_of_ne here]
      obtain ⟨ge, below⟩ := used'
      have below' : other < m.freeinode + 1 := below
      exact built.typed other ⟨ge, by omega⟩ lt'
  · rw [stored.freeinode_eq]
  · rw [table', Function.update_self]
    rfl
  · intro other ne
    rw [table', Function.update_of_ne ne]

end Sistemas.Xv6.Mkfs
