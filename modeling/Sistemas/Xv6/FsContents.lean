import Sistemas.Xv6.FsOwnership

/-! # Inode contents and ownership

`writei`, `itrunc` and the other operations on inodes, also when they are cut short, leave
every block with one owner or free, and never free a free block.
-/

namespace Sistemas.Xv6.Fs

open Sistemas.Ownership

variable {sb : Layout} {block block' : Blocks} {base : Nat → Dinode} {inum : Nat} {ip ip' : Dinode}

/-! ## `iupdate` -/

theorem dinode_iupdate {other : Nat} (fits : ip.Fits) :
    dinode sb (iupdate sb inum ip block) other =
      if other = inum then ip else dinode sb block other := by
  split
  · next same =>
    subst same
    rw [dinode, iupdate, Function.update_self, Dinode.load_store fits]
  · next ne =>
    rw [dinode, iupdate]
    by_cases here : sb.iblock other = sb.iblock inum
    · have slot : other % ipb ≠ inum % ipb := by
        intro same
        have : ipb = 16 := rfl
        simp only [Superblock.iblock, this] at here same
        omega
      rw [here, Function.update_self, Dinode.load_store_ne slot, dinode, here]
    · rw [Function.update_of_ne here, dinode]

/-- An inode of type 0 is free, whatever it holds. -/
def stored (ip : Dinode) : Dinode := if ip.type ≠ 0 then ip else .zero

theorem table_iupdate (lt : inum < sb.ninodes) (fits : ip.Fits) :
    table sb (iupdate sb inum ip block) = Function.update (table sb block) inum (stored ip) := by
  funext other
  by_cases here : other = inum
  · subst here
    simp only [table, dinode_iupdate fits, if_true, lt, true_and, Function.update_self, stored]
  · simp only [table, dinode_iupdate fits, if_neg here, Function.update_of_ne here]

/-- A write to an inode block does not touch the bitmap or an indirect block. -/
theorem iupdate_owns {holds : Slot → Nat} (owns : Owns sb holds block) (lt : inum < sb.ninodes) :
    Owns sb holds (iupdate sb inum ip block) := by
  refine owns.congr ?_ rfl
  intro b
  by_cases inside : b < sb.size
  · have place := bblock_low inside
    have below := sb.inodes_below inum lt
    simp only [used, bit, iupdate, Function.update_of_ne (show sb.bblock b ≠ sb.iblock inum by omega)]
  · simp [used, inside]

theorem held_iupdate {inode : Nat → Dinode} (owns : Owns sb (held inode block) block)
    (lt : inum < sb.ninodes) : held inode (iupdate sb inum ip block) = held inode block := by
  apply held_block_congr
  intro other nonzero
  have nonzero' : held inode block (.indirect other) ≠ 0 := nonzero
  have range := owns.range nonzero'
  simp only [held] at range
  have low := iblock_low lt (by omega)
  exact Function.update_of_ne (by omega) _ _

/-- Files have no holes. -/
def Mapped (inode : Nat → Dinode) (block : Blocks) (inum : Nat) : Prop :=
  ∀ fbn < blocks (inode inum).size, fbn < maxfile ∧ held inode block (.data inum fbn) ≠ 0

theorem iupdate_owned (owns : Owns sb (holding (table sb block) inum (stored ip) block) block)
    (lt : inum < sb.ninodes) (fits : ip.Fits)
    (mapped : ∀ other, Mapped (Function.update (table sb block) inum (stored ip)) block other) :
    Owned sb (iupdate sb inum ip block) := by
  have table_eq : table sb (iupdate sb inum ip block) =
      Function.update (table sb block) inum (stored ip) := table_iupdate lt fits
  have held_eq : held (table sb (iupdate sb inum ip block)) (iupdate sb inum ip block) =
      holding (table sb block) inum (stored ip) block := by
    rw [table_eq, held_iupdate owns lt]
  apply Owns.owned
  · rw [held_eq]
    exact iupdate_owns owns lt
  · intro other fbn below
    rw [held_eq]
    rw [table_eq] at below
    exact mapped other fbn below

/-! ## `writei` -/

/-- The blocks below `n` of the inode, and those that the sizes of the others ask for, are
    mapped. -/
def MappedTo (base : Nat → Dinode) (inum n : Nat) (holds : Slot → Nat) : Prop :=
  ∀ other, ∀ fbn < blocks (if other = inum then n else (base other).size),
    fbn < maxfile ∧ holds (.data other fbn) ≠ 0

/-- The head of the loop of `writei`. -/
structure Writing (sb : Layout) (base : Nat → Dinode) (inum off : Nat) (ip : Dinode)
    (block : Blocks) : Prop where
  owns : Owns sb (holding base inum ip block) block
  mapped : MappedTo base inum (max ip.size off) (holding base inum ip block)

theorem MappedTo.grow {n : Nat} (mapped : MappedTo base inum n (holding base inum ip block))
    (grown : Grown sb base inum ip block ip' block') :
    MappedTo base inum n (holding base inum ip' block') := by
  intro other fbn below
  obtain ⟨inFile, nonzero⟩ := mapped other fbn below
  rw [grown.keep _ nonzero]
  exact ⟨inFile, nonzero⟩

theorem blocks_mono {n m : Nat} (le : n ≤ m) : blocks n ≤ blocks m := by
  unfold blocks
  exact Nat.div_le_div_right (by omega)

theorem blocks_max (n m : Nat) : blocks (max n m) = max (blocks n) (blocks m) := by
  obtain le | le := Nat.le_total n m
  · rw [Nat.max_eq_right le, Nat.max_eq_right (blocks_mono le)]
  · rw [Nat.max_eq_left le, Nat.max_eq_left (blocks_mono le)]

/-- The block that `off` is in is the last one of a chunk from `off` on. -/
theorem blocks_chunk (off : Nat) {left : Nat} (pos : 0 < left) :
    blocks (off + chunk off left) = off / bsize + 1 := by
  have := chunk_pos off pos
  have : bsize = 1024 := rfl
  unfold chunk blocks at *
  simp only [this] at *
  omega

/-- One round of the loop: the block is mapped and written. -/
theorem Writing.next {off left addr : Nat} (writing : Writing sb base inum off ip block)
    (grown : Grown sb base inum ip block ip' block') (nonzero : addr ≠ 0)
    (here : holding base inum ip' block' (.data inum (off / bsize)) = addr)
    (lt : off / bsize < maxfile) (pos : 0 < left) (data : Bytes) :
    Writing sb base inum (off + chunk off left) ip' (Function.update block' addr data) ∧
      Writing sb base inum off ip' (Function.update block' addr data) := by
  have nonzero' : holding base inum ip' block' (.data inum (off / bsize)) ≠ 0 := by rwa [here]
  have range := grown.owns.range nonzero'
  rw [here] at range
  -- the block that is written is nobody's indirect block
  have other : ∀ inum', (Function.update base inum ip' inum').indirect ≠ addr := by
    intro inum' same
    have := grown.owns.once (.data inum (off / bsize)) (.indirect inum') nonzero'
      (by rw [here]; exact same.symm)
    exact Slot.data_ne_indirect this
  have after : holding base inum ip' (Function.update block' addr data) =
      holding base inum ip' block' := held_write other
  have owns : Owns sb (holding base inum ip' (Function.update block' addr data))
      (Function.update block' addr data) := by
    rw [after]
    refine grown.owns.congr ?_ rfl
    intro b
    by_cases inside : b < sb.size
    · have place := bblock_low inside
      simp only [used, bit, Function.update_of_ne (show sb.bblock b ≠ addr by omega)]
    · simp [used, inside]
  have old : MappedTo base inum (max ip'.size off)
      (holding base inum ip' (Function.update block' addr data)) := by
    rw [after, grown.size]
    exact writing.mapped.grow grown
  refine ⟨⟨owns, ?_⟩, ⟨owns, old⟩⟩
  intro other fbn below
  have before := old other fbn
  by_cases same : other = inum
  · subst same
    rw [if_pos rfl, blocks_max] at before below
    rw [blocks_chunk off pos] at below
    by_cases last : fbn = off / bsize
    · subst last
      rw [after]
      exact ⟨lt, nonzero'⟩
    · apply before
      have : blocks off = off / bsize ∨ blocks off = off / bsize + 1 := by
        have : bsize = 1024 := rfl
        unfold blocks
        simp only [this]
        omega
      omega
  · rw [if_neg same] at before below
    exact before below

/-- The inodes on the disk, and the fields of the inode in memory but its addresses, are as
    they were. -/
structure Kept (sb : Layout) (ip : Dinode) (block : Blocks) (ip' : Dinode) (block' : Blocks) :
    Prop where
  inodes : SameInodes sb block block'
  size : ip'.size = ip.size
  type : ip'.type = ip.type
  fits : ip.Fits → ip'.Fits

theorem Kept.trans {ip₁ ip₂ ip₃ : Dinode} {block₁ block₂ block₃ : Blocks}
    (first : Kept sb ip₁ block₁ ip₂ block₂) (second : Kept sb ip₂ block₂ ip₃ block₃) :
    Kept sb ip₁ block₁ ip₃ block₃ where
  inodes := first.inodes.trans second.inodes
  size := second.size.trans first.size
  type := second.type.trans first.type
  fits fits := second.fits (first.fits fits)

theorem Grown.kept (grown : Grown sb base inum ip block ip' block') : Kept sb ip block ip' block' :=
  ⟨grown.inodes, grown.size, grown.type, grown.fits⟩

/-- A data block is not an inode block. -/
theorem SameInodes.write {addr : Nat} {data : Bytes} (low : sb.nmeta ≤ addr)
    (high : addr < sb.size) : SameInodes sb block (Function.update block addr data) := by
  intro inum lt
  have := iblock_low lt (Nat.zero_lt_of_lt high)
  exact Function.update_of_ne (by omega) _ _

theorem writeLoop_writing (src : Source) (n tot : Nat) {off : Nat}
    (writing : Writing sb base inum off ip block) (bound : off + (n - tot) ≤ maxfile * bsize) :
    ∃ tot' off' ip' block', writeLoop sb src n tot off ip block = .ok (tot', off', ip', block') ∧
      Writing sb base inum off' ip' block' ∧ Kept sb ip block ip' block' ∧
      off' ≤ maxfile * bsize := by
  -- by induction on the bytes that are left
  induction left : n - tot using Nat.strong_induction_on generalizing tot off ip block with
  | _ _ ih =>
    rw [writeLoop]
    split
    · next more =>
      have pos : 0 < n - tot := by omega
      have chunk_le : chunk off (n - tot) ≤ n - tot := min_le_left _ _
      have some_bytes := chunk_pos off pos
      have lt : off / bsize < maxfile := by
        rw [Nat.div_lt_iff_lt_mul (by decide)]
        omega
      obtain ⟨addr, ip₁, block₁, mapping, grown, here⟩ := bmap_grown writing.owns lt
      rw [mapping]
      simp only [bind, Except.bind]
      by_cases full : addr = 0
      · -- no space for the block
        refine ⟨tot, off, ip₁, block₁, by rw [if_pos full], ⟨grown.owns, ?_⟩, grown.kept, by omega⟩
        rw [grown.size]
        exact writing.mapped.grow grown
      · have range := grown.owns.range (show holding base inum ip₁ block₁ _ ≠ 0 by
          rw [here full]; exact full)
        rw [here full] at range
        rw [if_neg full]
        obtain ⟨written, cut⟩ := writing.next grown full (here full) lt pos
          ((block₁ addr).splice (off % bsize) (readable src tot (chunk off (n - tot)))
            fun i => (src (tot + i)).getD 0)
        have kept : ∀ data, Kept sb ip block ip₁ (Function.update block₁ addr data) := by
          intro data
          exact grown.kept.trans ⟨.write range.1 range.2, rfl, rfl, id⟩
        split
        · obtain ⟨tot', off', ip', block', loop, writing', kept', bound'⟩ :=
            ih (n - (tot + chunk off (n - tot))) (by omega) _ written (by omega) rfl
          exact ⟨tot', off', ip', block', loop, writing', (kept _).trans kept', bound'⟩
        · -- the user's buffer cannot be read
          exact ⟨tot, off, ip₁, _, rfl, cut, kept _, by omega⟩
    · exact ⟨tot, off, ip, block, rfl, writing, ⟨.refl, rfl, rfl, id⟩, by omega⟩

theorem table_of_ilock (lt : inum < sb.ninodes) (lock : ilock sb inum block = .ok ip) :
    ip.type ≠ 0 ∧ ip = table sb block inum ∧ ip.Fits := by
  unfold ilock at lock
  simp only at lock
  split at lock
  · cases lock
  · next type =>
    cases lock
    refine ⟨type, ?_, Dinode.load_fits⟩
    rw [table, if_pos ⟨lt, type⟩]

/-- The inode that has grown goes back to the disk. -/
theorem Writing.iupdate_owned {off : Nat} {start : Blocks} {ip₀ : Dinode} (lt : inum < sb.ninodes)
    (fits : ip₀.Fits) (type : ip₀.type ≠ 0)
    (writing : Writing sb (table sb start) inum off ip block) (kept : Kept sb ip₀ start ip block)
    (bound : off ≤ maxfile * bsize) :
    Owned sb (iupdate sb inum { ip with size := max ip.size off } block) := by
  have small : max ip.size off < 256 ^ 4 := by
    have : maxfile * bsize < 256 ^ 4 := by decide
    have := (kept.fits fits).size
    omega
  have stored_eq : stored { ip with size := max ip.size off } =
      { ip with size := max ip.size off } := by
    rw [stored, if_pos]
    show ip.type ≠ 0
    rwa [kept.type]
  have table₁ := kept.inodes.table
  apply Fs.iupdate_owned ?_ lt ((kept.fits fits).resize small)
  · intro other fbn below
    rw [stored_eq, table₁] at below ⊢
    rw [held_size]
    apply writing.mapped
    by_cases here : other = inum
    · subst here
      rw [Function.update_self] at below
      rwa [if_pos rfl]
    · rw [Function.update_of_ne here] at below
      rwa [if_neg here]
  · rw [stored_eq, table₁, holding, held_size]
    exact writing.owns

theorem writei_owned {off n : Nat} (owned : Owned sb block) (src : Source) (lt : inum < sb.ninodes)
    (lock : ilock sb inum block = .ok ip) (offFits : off < 2 ^ 32) (nFits : n < 2 ^ 32) :
    ∃ r ip' block', writei sb inum ip src off n block = .ok (r, ip', block') ∧
      Owned sb block' := by
  obtain ⟨type, table_eq, fits⟩ := table_of_ilock lt lock
  have same : Function.update (table sb block) inum ip = table sb block := by
    rw [table_eq, Function.update_eq_self]
  unfold writei
  split
  · exact ⟨none, ip, block, rfl, owned⟩
  · next start =>
    split
    · exact ⟨none, ip, block, rfl, owned⟩
    · next short =>
      have within : off ≤ ip.size ∧ off + n ≤ maxfile * bsize := by omega
      have writing : Writing sb (table sb block) inum off ip block := by
        refine ⟨?_, ?_⟩
        · rw [holding, same]
          exact owned.owns
        · intro other fbn below
          rw [holding, same]
          apply owned.mapped
          by_cases here : other = inum
          · subst here
            rw [if_pos rfl, Nat.max_eq_left within.1] at below
            rwa [← table_eq]
          · rwa [if_neg here] at below
      obtain ⟨tot, off', ip₁, block₁, loop, writing', kept, bound⟩ :=
        writeLoop_writing src n 0 writing (by omega)
      rw [loop]
      simp only [bind, Except.bind]
      -- the size is the larger one, and the inode goes back to the disk
      have resize : (if ip₁.size < off' then { ip₁ with size := off' } else ip₁) =
          { ip₁ with size := max ip₁.size off' } := by
        split
        · next grows => rw [Nat.max_eq_right grows.le]
        · next stays => rw [Nat.max_eq_left (by omega)]
      rw [resize]
      exact ⟨_, _, _, rfl, writing'.iupdate_owned lt fits type kept bound⟩

/-! ## `itrunc` -/

/-- Blocks are given back: the bitmap changes, and the addresses of the inode. -/
structure Shrunk (sb : Layout) (base : Nat → Dinode) (inum : Nat) (ip : Dinode) (block : Blocks)
    (ip' : Dinode) (block' : Blocks) : Prop where
  owns : Owns sb (holding base inum ip' block') block'
  kept : Kept sb ip block ip' block'
  high : ∀ b, sb.nmeta ≤ b → block' b = block b

/-- Only the bitmap changes, so nothing is held in another way. -/
theorem held_bitmap {inode : Nat → Dinode} (owns : Owns sb (held inode block) block)
    (high : ∀ b, sb.nmeta ≤ b → block' b = block b) : held inode block' = held inode block := by
  apply held_block_congr
  intro other nonzero
  have nonzero' : held inode block (.indirect other) ≠ 0 := nonzero
  have range := owns.range nonzero'
  exact high _ range.1

theorem freeDirect_shrunk (slots : List (Fin 12))
    (owns : Owns sb (holding base inum ip block) block) :
    ∃ ip' block', freeDirect sb slots ip block = .ok (ip', block') ∧
      Shrunk sb base inum ip block ip' block' ∧ ip'.indirect = ip.indirect ∧
      (∀ i, ip.direct i = 0 → ip'.direct i = 0) ∧ ∀ i ∈ slots, ip'.direct i = 0 := by
  induction slots generalizing ip block with
  | nil =>
    refine ⟨ip, block, rfl, ⟨owns, ⟨.refl, rfl, rfl, id⟩, fun _ _ => rfl⟩, rfl, fun _ zero => zero, ?_⟩
    intro i mem
    cases mem
  | cons i rest ih =>
    rw [freeDirect]
    split
    · next zero =>
      obtain ⟨ip', block', freed, shrunk, indirect, keep, all⟩ := ih owns
      refine ⟨ip', block', freed, shrunk, indirect, keep, ?_⟩
      intro k mem
      obtain rfl | mem := List.mem_cons.mp mem
      · exact keep k zero
      · exact all k mem
    · next nonzero =>
      have here : holding base inum ip block (.direct inum i) = ip.direct i := by simp [held]
      have nonzero' : holding base inum ip block (.direct inum i) ≠ 0 := by rwa [here]
      obtain ⟨block₁, free, owns₁, inodes, high⟩ := bfree_owns owns nonzero'
      rw [here] at free
      have after : holding base inum (ip.setDirect i 0) block₁ =
          Function.update (holding base inum ip block) (.direct inum i) 0 := by
        rw [holding, held_setDirect, held_bitmap owns high]
      rw [← after] at owns₁
      obtain ⟨ip', block', freed, shrunk, indirect, keep, all⟩ := ih owns₁
      have kept : Kept sb ip block (ip.setDirect i 0) block₁ :=
        ⟨inodes, rfl, rfl, fun fits => fits.setDirect (by decide)⟩
      refine ⟨ip', block', ?_, ⟨shrunk.owns, kept.trans shrunk.kept, ?_⟩, ?_, ?_, ?_⟩
      · rw [free]
        exact freed
      · intro b le
        rw [shrunk.high b le, high b le]
      · rw [indirect, Dinode.setDirect_indirect]
      · intro k zero
        apply keep
        rw [Dinode.setDirect_direct]
        by_cases same : k = i <;> simp [same, zero]
      · intro k mem
        obtain rfl | mem := List.mem_cons.mp mem
        · apply keep
          simp
        · exact all k mem

/-- What is held without some entries of the indirect block. -/
def withoutEntries (holds : Slot → Nat) (inum : Nat) (entries : List (Fin 256)) (slot : Slot) : Nat :=
  if ∃ j ∈ entries, slot = .entry inum j then 0 else holds slot

theorem withoutEntries_cons {holds : Slot → Nat} {j : Fin 256} {rest : List (Fin 256)} :
    withoutEntries holds inum (j :: rest) =
      withoutEntries (Function.update holds (.entry inum j) 0) inum rest := by
  funext slot
  unfold withoutEntries
  by_cases later : ∃ k ∈ rest, slot = .entry inum k
  · obtain ⟨k, mem, eq⟩ := later
    rw [if_pos ⟨k, List.mem_cons_of_mem _ mem, eq⟩, if_pos ⟨k, mem, eq⟩]
  · rw [if_neg later]
    by_cases here : slot = .entry inum j
    · rw [if_pos ⟨j, List.mem_cons_self, here⟩, here, Function.update_self]
    · have none : ¬ ∃ k ∈ j :: rest, slot = .entry inum k := by
        rintro ⟨k, mem, eq⟩
        obtain rfl | mem := List.mem_cons.mp mem
        · exact here eq
        · exact later ⟨k, mem, eq⟩
      rw [if_neg none, Function.update_of_ne here]

/-- The entries are freed, but they stay where they are in the indirect block. -/
theorem freeEntries_owns {holds : Slot → Nat} {a : Nat → Nat} {entries : List (Fin 256)}
    (owns : Owns sb holds block) (nodup : entries.Nodup)
    (values : ∀ j ∈ entries, holds (.entry inum j) = a j) :
    ∃ block', freeEntries sb a entries block = .ok block' ∧
      Owns sb (withoutEntries holds inum entries) block' ∧ SameInodes sb block block' ∧
      ∀ b, sb.nmeta ≤ b → block' b = block b := by
  induction entries generalizing holds block with
  | nil =>
    have same : withoutEntries holds inum [] = holds := by
      funext slot
      simp [withoutEntries]
    refine ⟨block, rfl, ?_, .refl, fun _ _ => rfl⟩
    rwa [same]
  | cons j rest ih =>
    obtain ⟨notMem, nodupRest⟩ := List.nodup_cons.mp nodup
    have here := values j List.mem_cons_self
    have later : ∀ k ∈ rest, Function.update holds (.entry inum j) 0 (.entry inum k) = a k := by
      intro k mem
      have ne : Slot.entry inum k ≠ .entry inum j := by
        intro same
        cases same
        exact notMem mem
      rw [Function.update_of_ne ne]
      exact values k (List.mem_cons_of_mem _ mem)
    rw [freeEntries, withoutEntries_cons]
    split
    · next zero =>
      have same : Function.update holds (.entry inum j) 0 = holds := by
        rw [← here.trans zero, Function.update_eq_self]
      rw [same] at later ⊢
      exact ih owns nodupRest later
    · next nonzero =>
      obtain ⟨block₁, free, owns₁, inodes₁, high₁⟩ := bfree_owns owns (here ▸ nonzero)
      rw [here] at free
      obtain ⟨block', freed, owns', inodes', high'⟩ := ih owns₁ nodupRest later
      refine ⟨block', ?_, owns', inodes₁.trans inodes', ?_⟩
      · rw [free]
        exact freed
      · intro b le
        rw [high' b le, high₁ b le]

theorem freeIndirect_shrunk (owns : Owns sb (holding base inum ip block) block) :
    ∃ ip' block', freeIndirect sb ip block = .ok (ip', block') ∧
      Shrunk sb base inum ip block ip' block' ∧ ip'.indirect = 0 ∧ ip'.direct = ip.direct := by
  unfold freeIndirect
  split
  · next zero =>
    exact ⟨ip, block, rfl, ⟨owns, ⟨.refl, rfl, rfl, id⟩, fun _ _ => rfl⟩, zero, rfl⟩
  · next nonzero =>
    have indirect_eq : (Function.update base inum ip inum).indirect = ip.indirect := by simp
    have nonzero' : (Function.update base inum ip inum).indirect ≠ 0 := by rwa [indirect_eq]
    have values : ∀ j ∈ List.finRange 256,
        holding base inum ip block (.entry inum j) = word (block ip.indirect) j := by
      intro j _
      rw [holding, held_entry nonzero', indirect_eq]
    obtain ⟨block₁, entries, owns₁, inodes₁, high₁⟩ :=
      freeEntries_owns owns (List.nodup_finRange 256) values
    have here : withoutEntries (holding base inum ip block) inum (List.finRange 256)
        (.indirect inum) = ip.indirect := by
      rw [withoutEntries, if_neg (by simp)]
      simp [held]
    obtain ⟨block₂, free, owns₂, inodes₂, high₂⟩ := bfree_owns owns₁ (here ▸ nonzero)
    rw [here] at free
    have high : ∀ b, sb.nmeta ≤ b → block₂ b = block b := by
      intro b le
      rw [high₂ b le, high₁ b le]
    -- the inode without its indirect block holds what is left
    have after : holding base inum (ip.setIndirect 0) block₂ =
        Function.update (withoutEntries (holding base inum ip block) inum (List.finRange 256))
          (.indirect inum) 0 := by
      have before : held (Function.update base inum ip) block₂ = holding base inum ip block :=
        held_bitmap owns high
      funext slot
      by_cases mine : slot.inum = inum
      · subst mine
        cases slot with
        | direct inum i =>
          rw [Function.update_of_ne (by simp), withoutEntries, if_neg (by simp)]
          simp [held, Slot.inum]
        | indirect inum => simp [held, Slot.inum]
        | entry inum j =>
          rw [Function.update_of_ne (by simp), withoutEntries,
            if_pos ⟨j, List.mem_finRange j, rfl⟩]
          simp [held, Slot.inum]
      · have ne : slot ≠ .indirect inum := by
          rintro rfl
          exact mine rfl
        have notEntry : ¬ ∃ j ∈ List.finRange 256, slot = .entry inum j := by
          rintro ⟨j, -, rfl⟩
          exact mine rfl
        rw [Function.update_of_ne ne, withoutEntries, if_neg notEntry, ← before]
        exact held_update_ne mine
    rw [← after] at owns₂
    refine ⟨ip.setIndirect 0, block₂, ?_, ⟨owns₂, ⟨inodes₁.trans inodes₂, rfl, rfl, ?_⟩, high⟩,
      Dinode.setIndirect_indirect, Dinode.setIndirect_direct⟩
    · rw [entries]
      simp only [bind, Except.bind, free]
    · intro fits
      exact fits.setIndirect (by decide)

/-- `itrunc` does not panic; the inode that it writes holds nothing. -/
theorem itrunc_owned (owned : Owned sb block) (lt : inum < sb.ninodes)
    (lock : ilock sb inum block = .ok ip) :
    ∃ ip' block', itrunc sb inum ip block = .ok (ip', block') ∧ Owned sb block' ∧
      ip'.type = ip.type ∧ ip'.Fits ∧ ip'.size = 0 ∧ ip'.indirect = 0 ∧ (∀ i, ip'.direct i = 0) ∧
      table sb block' inum = ip' := by
  obtain ⟨type, table_eq, fits⟩ := table_of_ilock lt lock
  have same : Function.update (table sb block) inum ip = table sb block := by
    rw [table_eq, Function.update_eq_self]
  have owns : Owns sb (holding (table sb block) inum ip block) block := by
    rw [holding, same]
    exact owned.owns
  obtain ⟨ip₁, block₁, direct, shrunk₁, -, -, none₁⟩ := freeDirect_shrunk (List.finRange 12) owns
  obtain ⟨ip₂, block₂, indirect, shrunk₂, zero₂, direct₂⟩ := freeIndirect_shrunk shrunk₁.owns
  have kept := shrunk₁.kept.trans shrunk₂.kept
  have fits₂ : { ip₂ with size := 0 }.Fits := (kept.fits fits).resize (by decide)
  have stored_eq : stored { ip₂ with size := 0 } = { ip₂ with size := 0 } := by
    rw [stored, if_pos]
    show ip₂.type ≠ 0
    rwa [kept.type]
  have table₂ := kept.inodes.table
  refine ⟨{ ip₂ with size := 0 }, iupdate sb inum { ip₂ with size := 0 } block₂, ?_, ?_, kept.type,
    fits₂, rfl, ?_, ?_, ?_⟩
  · rw [itrunc, direct]
    simp only [bind, Except.bind, indirect]
  · apply iupdate_owned ?_ lt fits₂
    · intro other fbn below
      rw [stored_eq, table₂] at below ⊢
      by_cases here : other = inum
      · subst here
        rw [Function.update_self] at below
        simp [blocks, bsize] at below
      · rw [Function.update_of_ne here] at below
        obtain ⟨inFile, nonzero⟩ := owned.mapped other fbn below
        refine ⟨inFile, ?_⟩
        have high : ∀ b, sb.nmeta ≤ b → block₂ b = block b := by
          intro b le
          rw [shrunk₂.high b le, shrunk₁.high b le]
        have mine : (Slot.data other fbn).inum ≠ inum := by rwa [Slot.inum_data]
        have others : held (Function.update (table sb block) inum ip₂) block₂ (.data other fbn) =
            held (Function.update (table sb block) inum ip) block₂ (.data other fbn) :=
          held_update_ne mine
        rw [held_size, others, held_bitmap owns high, same]
        exact nonzero
    · rw [stored_eq, table₂, holding, held_size]
      exact shrunk₂.owns
  · exact zero₂
  · intro i
    show ip₂.direct i = 0
    rw [direct₂]
    exact none₁ i (List.mem_finRange i)
  · rw [table_iupdate lt fits₂, Function.update_self, stored_eq]

/-! ## Operations -/

/-- Inodes that hold the same blocks, with sizes that ask for no more. -/
theorem iupdate_same (owned : Owned sb block) (lt : inum < sb.ninodes) (fits : ip.Fits)
    (direct : (stored ip).direct = (table sb block inum).direct)
    (indirect : (stored ip).indirect = (table sb block inum).indirect)
    (size : (stored ip).size = (table sb block inum).size) : Owned sb (iupdate sb inum ip block) := by
  have same : holding (table sb block) inum (stored ip) block = held (table sb block) block := by
    apply held_congr <;> intro other <;> by_cases here : other = inum
    · subst here
      rw [Function.update_self, direct]
    · rw [Function.update_of_ne here]
    · subst here
      rw [Function.update_self, indirect]
    · rw [Function.update_of_ne here]
  apply iupdate_owned ?_ lt fits
  · intro other fbn below
    have below' : fbn < blocks (table sb block other).size := by
      by_cases here : other = inum
      · subst here
        rwa [Function.update_self, size] at below
      · rwa [Function.update_of_ne here] at below
    have mapped := owned.mapped other fbn below'
    rw [← same] at mapped
    exact mapped
  · rw [same]
    exact owned.owns

theorem zero_direct : Dinode.zero.direct = fun _ => 0 := by
  funext i
  exact Vector.getElem_replicate _

/-- The inode that `ialloc` finds is free, and it holds nothing. -/
theorem ialloc_owned {type : UInt16} (owned : Owned sb block)
    (alloc : ialloc sb type.toNat block = some (inum, block')) : Owned sb block' := by
  unfold ialloc at alloc
  obtain ⟨free, first, eq⟩ := Option.map_eq_some_iff.mp alloc
  cases eq
  have type_eq : (dinode sb block inum).type = 0 := by simpa using List.find?_some first
  have mem := List.mem_of_find?_eq_some first
  have lt : inum < sb.ninodes := by
    rw [List.mem_range'_1] at mem
    omega
  have fits : { Dinode.zero with type := type.toNat }.Fits := by
    have zero := Dinode.zero_fits
    exact ⟨UInt16.toNat_lt type, zero.major, zero.minor, zero.nlink, zero.size, zero.addrs⟩
  have free : table sb block inum = .zero := by simp [table, type_eq]
  have stored_eq : ∀ f : Dinode → Nat, f { Dinode.zero with type := type.toNat } = f .zero →
      f (stored { Dinode.zero with type := type.toNat }) = f .zero := by
    intro f same
    rw [stored]
    split
    · exact same
    · rfl
  apply iupdate_same owned lt fits
  · rw [free]
    funext i
    exact stored_eq (fun ip => ip.direct i) rfl
  · rw [free]
    exact stored_eq (fun ip => ip.indirect) rfl
  · rw [free]
    exact stored_eq (fun ip => ip.size) rfl

theorem ilock_cases (sb : Layout) (inum : Nat) (block : Blocks) : ilock sb inum block = .error .ilockNoType ∨
    ∃ ip, ilock sb inum block = .ok ip := by
  unfold ilock
  simp only
  split
  · exact .inl rfl
  · exact .inr ⟨_, rfl⟩

/-- Every operation on an allocated inode succeeds and keeps the invariant. -/
theorem perform_owned (owned : Owned sb block) (op : Op sb) :
    perform sb block op = .error .ilockNoType ∨
      ∃ block', perform sb block op = .ok block' ∧ Owned sb block' := by
  cases op with
  | write inum src off n =>
    obtain free | ⟨ip, lock⟩ := ilock_cases sb inum block
    · left
      rw [perform, free]
      rfl
    · right
      obtain ⟨r, ip', block', write, owned'⟩ :=
        writei_owned owned src inum.isLt lock off.toNat_lt n.toNat_lt
      refine ⟨block', ?_, owned'⟩
      rw [perform, lock]
      simp only [bind, Except.bind, write]
  | trunc inum =>
    obtain free | ⟨ip, lock⟩ := ilock_cases sb inum block
    · left
      rw [perform, free]
      rfl
    · right
      obtain ⟨ip', block', trunc, owned', -⟩ := itrunc_owned owned inum.isLt lock
      refine ⟨block', ?_, owned'⟩
      rw [perform, lock]
      simp only [bind, Except.bind, trunc]
  | free inum =>
    obtain free | ⟨ip, lock⟩ := ilock_cases sb inum block
    · left
      rw [perform, free]
      rfl
    · right
      obtain ⟨ip', block', trunc, owned', -, fits, size, indirect, direct, table_eq⟩ :=
        itrunc_owned owned inum.isLt lock
      have free : stored { ip' with type := 0 } = .zero := by simp [stored]
      refine ⟨iupdate sb inum { ip' with type := 0 } block', ?_, ?_⟩
      · rw [perform, lock]
        simp only [bind, Except.bind, trunc]
      · apply iupdate_same owned' inum.isLt
        · exact ⟨show 0 < 256 ^ 2 by decide, fits.major, fits.minor, fits.nlink, fits.size,
            fits.addrs⟩
        · rw [free, table_eq, zero_direct]
          funext i
          exact (direct i).symm
        · rw [free, table_eq, indirect]
          rfl
        · rw [free, table_eq, size]
          rfl
  | alloc type =>
    right
    rw [perform]
    cases found : ialloc sb type.toNat block with
    | none => exact ⟨block, rfl, owned⟩
    | some result => exact ⟨result.2, rfl, ialloc_owned owned found⟩
  | update inum major minor nlink =>
    obtain free | ⟨ip, lock⟩ := ilock_cases sb inum block
    · left
      rw [perform, free]
      rfl
    · right
      obtain ⟨type, table_eq, fits⟩ := table_of_ilock inum.isLt lock
      have stored_eq : stored
          { ip with major := major.toNat, minor := minor.toNat, nlink := nlink.toNat } =
          { ip with major := major.toNat, minor := minor.toNat, nlink := nlink.toNat } := by
        rw [stored, if_pos type]
      refine ⟨iupdate sb inum
        { ip with major := major.toNat, minor := minor.toNat, nlink := nlink.toNat } block, ?_, ?_⟩
      · rw [perform, lock]
        rfl
      · apply iupdate_same owned inum.isLt
        · exact ⟨fits.type, major.toNat_lt, minor.toNat_lt, nlink.toNat_lt, fits.size, fits.addrs⟩
        · rw [stored_eq, ← table_eq]
          rfl
        · rw [stored_eq, ← table_eq]
          rfl
        · rw [stored_eq, ← table_eq]

end Sistemas.Xv6.Fs
