import Mathlib.Data.Finset.Card
import Sistemas.Xv6.FsShortWrite

/-! # Writes that fit

As long as there are as many free blocks as a file of `size` bytes still lacks (`Room`), `bmap`
finds a block for each part of it.  So a `writei` with a buffer that can be read writes all of
it (`writei_complete`).
-/

namespace Sistemas.Xv6.Fs

variable {sb : Layout} {block block' : Blocks} {base : Nat → Dinode} {inum addr size : Nat}
  {ip ip' : Dinode}

/-! ## Free blocks -/

def free (sb : Layout) (block : Blocks) : Finset Nat :=
  (Finset.range sb.size).filter fun b => bit sb block b = false

theorem mem_free {b : Nat} : b ∈ free sb block ↔ b < sb.size ∧ ¬ used sb block b := by
  simp only [free, Finset.mem_filter, Finset.mem_range, used]
  constructor
  · rintro ⟨lt, clear⟩
    exact ⟨lt, fun both => by simp [clear] at both⟩
  · rintro ⟨lt, clear⟩
    exact ⟨lt, by simpa [lt] using clear⟩

/-- A free block is found. -/
theorem balloc_finds (some_free : (free sb block).Nonempty) :
    ∃ b block', balloc sb block = (b, block') ∧ b < sb.size ∧ bit sb block b = false := by
  obtain ⟨b, mem⟩ := some_free
  obtain ⟨lt, clear⟩ := Finset.mem_filter.mp mem
  rw [Finset.mem_range] at lt
  have bpb_eq : bpb = 8192 := rfl
  have row : b / bpb ∈ List.range ((sb.size + bpb - 1) / bpb) := by
    rw [List.mem_range, bpb_eq]
    omega
  have place : b / bpb * bpb + b % bpb = b := Nat.div_add_mod' b bpb
  have found : (scan sb block (b / bpb * bpb)).isSome := by
    have same : sb.bblock (b / bpb * bpb) = sb.bblock b := by
      simp only [Superblock.bblock, bpb_eq]
      omega
    rw [scan, Option.isSome_map, List.find?_isSome]
    refine ⟨b % bpb, List.mem_range.mpr (Nat.mod_lt _ (by decide)), ?_⟩
    rw [place, same]
    rw [bit] at clear
    simp [lt, clear]
  have some_found : ((List.range ((sb.size + bpb - 1) / bpb)).findSome?
      fun k => scan sb block (k * bpb)).isSome := by
    rw [List.findSome?_isSome_iff]
    exact ⟨_, row, found⟩
  obtain ⟨b', here⟩ := Option.isSome_iff_exists.mp some_found
  obtain ⟨k, -, scanned⟩ := List.exists_of_findSome?_eq_some here
  obtain ⟨lt', clear'⟩ := scan_some scanned
  refine ⟨b', _, by rw [balloc, here], lt', clear'⟩

/-- `balloc` takes a block that is free. -/
theorem balloc_takes {inode : Nat → Dinode} (owns : Owns sb (held inode block) block)
    (some_free : (free sb block).Nonempty) (eq : balloc sb block = (addr, block')) :
    addr ≠ 0 ∧ Allocated sb inode block addr block' ∧
      (free sb block').card + 1 = (free sb block).card := by
  obtain ⟨b, block₁, found, lt, clear⟩ := balloc_finds some_free
  rw [found] at eq
  cases eq
  obtain ⟨rfl, -⟩ | ⟨nonzero, -, allocated⟩ := balloc_owns owns found
  · -- block 0 is not free
    have low : (0 : Nat) < sb.nmeta := nmeta_pos lt
    have inUse := (owns.used_iff 0).mpr (.inl low)
    have set := inUse.2
    rw [clear] at set
    cases set
  · refine ⟨nonzero, allocated, ?_⟩
    have taken : free sb block' = (free sb block).erase addr := by
      ext b
      rw [Finset.mem_erase, mem_free, mem_free, allocated.used_iff, not_or]
      tauto
    have mem : addr ∈ free sb block := mem_free.mpr ⟨lt, allocated.fresh⟩
    rw [taken]
    exact Finset.card_erase_add_one mem

/-! ## Room for a file -/

/-- The blocks that a file of `size` bytes lacks. -/
def missing (ip : Dinode) (block : Blocks) (size : Nat) : Finset Nat :=
  (Finset.range (blocks size)).filter fun fbn => address ip block fbn = 0

/-- There is space for the file to grow to `size` bytes. -/
def Room (sb : Layout) (ip : Dinode) (block : Blocks) (size : Nat) : Prop :=
  (missing ip block size).card + (if ip.indirect = 0 ∧ ndirect < blocks size then 1 else 0) ≤
    (free sb block).card

theorem missing_subset (keep : ∀ fbn, address ip block fbn ≠ 0 →
    address ip' block' fbn ≠ 0) : missing ip' block' size ⊆ missing ip block size := by
  intro fbn mem
  simp only [missing, Finset.mem_filter] at mem ⊢
  refine ⟨mem.1, ?_⟩
  by_contra there
  exact keep fbn there mem.2

/-- One block less is lacking. -/
theorem missing_card {fbn : Nat} (below : fbn < blocks size) (lacked : address ip block fbn = 0)
    (found : address ip' block' fbn ≠ 0)
    (keep : ∀ fbn, address ip block fbn ≠ 0 → address ip' block' fbn ≠ 0) :
    (missing ip' block' size).card + 1 ≤ (missing ip block size).card := by
  have mem : fbn ∈ missing ip block size := by
    simp [missing, below, lacked]
  have subset : missing ip' block' size ⊆ (missing ip block size).erase fbn := by
    intro other memOther
    refine Finset.mem_erase.mpr ⟨?_, missing_subset keep memOther⟩
    rintro rfl
    exact found (Finset.mem_filter.mp memOther).2
  have card := Finset.card_le_card subset
  have erased := Finset.card_erase_add_one mem
  omega

theorem Grown.keeps (grown : Grown sb base inum ip block ip' block') (fbn : Nat)
    (there : Fs.address ip block fbn ≠ 0) : Fs.address ip' block' fbn ≠ 0 := by
  rwa [grown.address there]

/-- A write that is not to the bitmap. -/
theorem free_write {data : Bytes} (notBitmap : ∀ b < sb.size, sb.bblock b ≠ addr) :
    free sb (Function.update block addr data) = free sb block := by
  ext b
  rw [mem_free, mem_free]
  refine and_congr_right fun lt => ?_
  simp only [used, bit, Function.update_of_ne (notBitmap b lt)]

theorem notBitmap_high (high : sb.nmeta ≤ addr) : ∀ b < sb.size, sb.bblock b ≠ addr := by
  intro b lt
  have low := bblock_low lt
  omega

theorem notBitmap_inode (lt : inum < sb.ninodes) : ∀ b < sb.size, sb.bblock b ≠ sb.iblock inum := by
  intro b inside
  have low := bblock_low inside
  have below := sb.inodes_below inum lt
  omega

/-- A block that is lacking is free. -/
theorem Room.free {fbn : Nat} (room : Room sb ip block size) (below : fbn < blocks size)
    (lacked : address ip block fbn = 0) : (free sb block).Nonempty := by
  have mem : fbn ∈ missing ip block size := by simp [missing, below, lacked]
  have pos := Finset.card_pos.mpr ⟨fbn, mem⟩
  unfold Room at room
  exact Finset.card_pos.mp (by omega)

theorem bmapDirect_room {i : Fin 12} (owns : Owns sb (holding base inum ip block) block)
    (room : Room sb ip block size) (below : i.val < blocks size)
    (eq : bmapDirect sb ip i block = (addr, ip', block')) :
    addr ≠ 0 ∧ Room sb ip' block' size := by
  obtain ⟨grown, here⟩ := bmapDirect_grown owns eq
  have place : ∀ ip block, address ip block i = ip.direct i := by
    intro ip block
    rw [address, Slot.data_direct i.isLt]
    rfl
  unfold bmapDirect at eq
  split at eq
  next empty =>
    have lacked : address ip block i = 0 := (place ip block).trans empty
    generalize alloc : balloc sb block = result at eq
    obtain ⟨addr₁, block₁⟩ := result
    obtain ⟨nonzero, -, card⟩ := balloc_takes owns (room.free below lacked) alloc
    simp only [if_neg nonzero] at eq
    cases eq
    refine ⟨nonzero, ?_⟩
    have found : address (ip.setDirect i addr) block' i ≠ 0 := by
      rw [place, Dinode.setDirect_direct, Function.update_self]
      exact nonzero
    have less := missing_card below lacked found grown.keeps
    unfold Room at room ⊢
    rw [Dinode.setDirect_indirect]
    omega
  next full =>
    cases eq
    exact ⟨full, room⟩

theorem bmapIndirect_room {ind : Nat} (owns : Owns sb (holding base inum ip block) block)
    (room : Room sb ip block size) (below : ndirect < blocks size)
    (eq : bmapIndirect sb ip block = (ind, ip', block')) :
    ind ≠ 0 ∧ Room sb ip' block' size := by
  obtain ⟨grown, here⟩ := bmapIndirect_grown owns eq
  unfold bmapIndirect at eq
  split at eq
  next empty =>
    generalize alloc : balloc sb block = result at eq
    obtain ⟨addr₁, block₁⟩ := result
    have some_free : (free sb block).Nonempty := by
      unfold Room at room
      rw [if_pos ⟨empty, below⟩] at room
      exact Finset.card_pos.mp (by omega)
    obtain ⟨nonzero, -, card⟩ := balloc_takes owns some_free alloc
    simp only [if_neg nonzero] at eq
    cases eq
    refine ⟨nonzero, ?_⟩
    have fewer : missing (ip.setIndirect ind) block' size ⊆ missing ip block size :=
      missing_subset grown.keeps
    have less := Finset.card_le_card fewer
    unfold Room at room ⊢
    rw [if_pos ⟨empty, below⟩] at room
    rw [Dinode.setIndirect_indirect, if_neg (fun both => nonzero both.1)]
    omega
  next full =>
    cases eq
    exact ⟨full, room⟩

theorem bmapEntry_room {j : Fin 256} (owns : Owns sb (holding base inum ip block) block)
    (indirect : ip.indirect ≠ 0) (room : Room sb ip block size)
    (below : ndirect + j.val < blocks size)
    (eq : bmapEntry sb ip.indirect j block = (addr, block')) :
    addr ≠ 0 ∧ Room sb ip block' size := by
  obtain ⟨grown, here⟩ := bmapEntry_grown owns indirect eq
  have slot : ∀ inum, Slot.data inum (ndirect + j) = .entry inum j := by
    intro inum
    have index : Fin.ofNat 256 (ndirect + j - 12) = j := by
      apply Fin.ext
      rw [Fin.val_ofNat, ndirect, Nat.add_sub_cancel_left, Nat.mod_eq_of_lt j.isLt]
    rw [Slot.data_entry (show 12 ≤ ndirect + j from Nat.le_add_right _ _), index]
  unfold bmapEntry at eq
  simp only at eq
  split at eq
  next empty =>
    have lacked : address ip block (ndirect + j) = 0 := by
      rw [address, slot, held_entry indirect]
      exact empty
    generalize alloc : balloc sb block = result at eq
    obtain ⟨addr₁, block₁⟩ := result
    obtain ⟨nonzero, -, card⟩ := balloc_takes owns (room.free below lacked) alloc
    simp only [if_neg nonzero] at eq
    cases eq
    refine ⟨nonzero, ?_⟩
    have found : address ip (Function.update block₁ ip.indirect
        (setWord (block₁ ip.indirect) j addr)) (ndirect + j) ≠ 0 := by
      rw [← holding_data base inum, slot, here nonzero]
      exact nonzero
    have less := missing_card below lacked found grown.keeps
    have same : (free sb (Function.update block₁ ip.indirect
        (setWord (block₁ ip.indirect) j addr))).card = (free sb block₁).card := by
      have held_eq : holding base inum ip block (.indirect inum) = ip.indirect := by simp [held]
      have range := owns.range (held_eq.symm ▸ indirect)
      rw [held_eq] at range
      rw [free_write (notBitmap_high range.1)]
    unfold Room at room ⊢
    omega
  next full =>
    cases eq
    exact ⟨full, room⟩

/-- `bmap` finds a block for every part of the file. -/
theorem bmap_room {bn : Nat} (owns : Owns sb (holding base inum ip block) block)
    (lt : bn < maxfile) (room : Room sb ip block size) (below : bn < blocks size)
    (eq : bmap sb ip bn block = .ok (addr, ip', block')) :
    addr ≠ 0 ∧ Room sb ip' block' size := by
  have maxfile_eq : maxfile = 268 := rfl
  have ndirect_eq : ndirect = 12 := rfl
  unfold bmap at eq
  split at eq
  next direct => exact bmapDirect_room owns room below (Except.ok.inj eq)
  next notDirect =>
    split at eq
    next inside =>
      generalize indirect : bmapIndirect sb ip block = result at eq
      obtain ⟨ind, ip₁, block₁⟩ := result
      obtain ⟨grown, here⟩ := bmapIndirect_grown owns indirect
      obtain ⟨nonzero, room₁⟩ := bmapIndirect_room owns room (by omega) indirect
      simp only [if_neg nonzero] at eq
      generalize entry : bmapEntry sb ind (bn - ndirect) block₁ = result at eq
      obtain ⟨addr₂, block₂⟩ := result
      cases eq
      have index : (Fin.ofNat 256 (bn - 12)).val = bn - ndirect := by
        rw [Fin.val_ofNat]
        omega
      rw [← here nonzero, ← index] at entry
      exact bmapEntry_room grown.owns (by rwa [here nonzero]) room₁ (by omega) entry
    next => cases eq

/-! ## `writei` -/

theorem Room.write {data : Bytes} (room : Room sb ip block size)
    (notBitmap : ∀ b < sb.size, sb.bblock b ≠ addr)
    (address_eq : ∀ fbn, address ip (Function.update block addr data) fbn = address ip block fbn) :
    Room sb ip (Function.update block addr data) size := by
  unfold Room missing at room ⊢
  simp only [address_eq, free_write notBitmap]
  exact room

theorem readable_eq {src : Source} {tot m : Nat} (valid : ∀ i < m, (src (tot + i)).isSome) :
    readable src tot m = m := by
  by_contra cut
  have lt := Nat.lt_of_le_of_ne readable_le cut
  have there := valid _ lt
  rw [src_readable lt] at there
  cases there

theorem writeLoop_complete {bufs : Buffers} (src : Source) (n tot : Nat) {off : Nat}
    (writing : Writing sb base inum off ip bufs.cached) (room : Room sb ip bufs.cached size)
    (valid : ∀ i < n, (src i).isSome) (inside : off + (n - tot) ≤ size) (le : tot ≤ n)
    (fits : size ≤ maxfile * bsize) :
    ∃ off' ip' bufs', Buffers.writeLoop sb src n tot off ip bufs = .ok (n, off', ip', bufs') ∧
      Room sb ip' bufs'.cached size := by
  -- by induction on the bytes that are left
  induction left : n - tot using Nat.strong_induction_on generalizing tot off ip bufs with
  | _ _ ih =>
    rw [Buffers.writeLoop]
    split
    next more =>
      have pos : 0 < n - tot := by omega
      have some_bytes := chunk_pos off pos
      have chunk_le := chunk_le off (n - tot)
      have lt : off / bsize < maxfile := by
        rw [Nat.div_lt_iff_lt_mul (by decide)]
        omega
      obtain ⟨addr, ip₁, block₁, mapping, grown, here⟩ := bmap_grown writing.owns lt
      obtain ⟨bufs₁, mapping', shows₁⟩ := Buffers.bmap_shows mapping
      obtain rfl := shows₁.cached
      obtain ⟨nonzero, room₁⟩ := bmap_room writing.owns lt room (lt_blocks (by omega)) mapping
      have all : readable src tot (chunk off (n - tot)) = chunk off (n - tot) :=
        readable_eq fun i small => valid _ (by omega)
      have held : holding base inum ip₁ bufs₁.cached (.data inum (off / bsize)) ≠ 0 := by
        rwa [here nonzero]
      have range := grown.owns.range held
      rw [here nonzero] at range
      have notIndirect : addr ≠ ip₁.indirect := by
        intro clash
        have both : holding base inum ip₁ bufs₁.cached (.data inum (off / bsize)) =
            holding base inum ip₁ bufs₁.cached (.indirect inum) := by
          rw [here nonzero, clash]
          simp [Xv6.held]
        exact Slot.data_ne_indirect (grown.owns.once _ _ held both)
      let bufs₂ := (bufs₁.copyin src tot off (chunk off (n - tot)) addr).logWrite addr
      have written : Writing sb base inum (off + chunk off (n - tot)) ip₁ bufs₂.cached :=
        (writing.next grown nonzero (here nonzero) lt pos _).1
      have room₂ : Room sb ip₁ bufs₂.cached size :=
        room₁.write (notBitmap_high range.1) fun fbn =>
          address_congr (fun _ => Function.update_of_ne notIndirect.symm _ _) fbn
      obtain ⟨off', ip', bufs', loop, room'⟩ := ih (n - (tot + chunk off (n - tot))) (by omega)
        (tot + chunk off (n - tot)) written room₂ (by omega) (by omega) rfl
      refine ⟨off', ip', bufs', ?_, room'⟩
      rw [mapping']
      simp only [bind, Except.bind, if_neg nonzero, if_pos all]
      exact loop
    next done => exact ⟨off, ip, bufs, by rw [show tot = n by omega], room⟩

/-- A write that is complete leaves a file in which the bytes are in their place. -/
theorem Wrote.complete {bufs bufs₁ bufs' : Buffers} {src : Source} {off n : Nat} {ip₁ : Dinode}
    (ready : Ready sb inum ip bufs) (fits : off + n ≤ maxfile * bsize)
    (wrote : Wrote sb (table sb bufs.cached) inum src n 0 off ip bufs n ip₁ bufs₁ bufs') :
    let ip' : Dinode := { ip₁ with size := max ip.size (off + n) }
    Ready sb inum ip' (Buffers.iupdate sb inum ip' bufs') ∧
      ∀ p < ip'.size, contents ip' (Buffers.iupdate sb inum ip' bufs').cached p =
        (contents ip bufs.cached).splice off n (fun i => (src i).getD 0) p := by
  obtain rfl : bufs' = bufs₁ := by
    obtain ⟨same, -⟩ | ⟨more, -⟩ := wrote.ends
    · exact same
    · omega
  obtain ⟨type, -, ipFits⟩ := table_of_ilock ready.lt ready.lock
  have writing := wrote.writing
  have size_eq := wrote.kept.size
  have sizeFits := ipFits.size
  rw [Nat.sub_zero] at writing
  have small : maxfile * bsize < 256 ^ 4 := by decide
  have owned := writing.iupdate_owned ready.lt ipFits type wrote.kept fits
  rw [size_eq] at owned
  intro ip'
  have dinFits : ip'.Fits := (wrote.kept.fits ipFits).resize (by omega)
  have shows' : Buffers.Shows bufs' (Buffers.iupdate sb inum ip' bufs')
      (Fs.iupdate sb inum ip' bufs'.cached) := Buffers.iupdate_shows inum ip' bufs'
  have lock : ilock sb inum (Fs.iupdate sb inum ip' bufs'.cached) = .ok ip' := by
    have typed : ip'.type ≠ 0 := by
      show ip₁.type ≠ 0
      rwa [wrote.kept.type]
    have stored : dinode sb (Fs.iupdate sb inum ip' bufs'.cached) inum = ip' := by
      rw [dinode_iupdate dinFits, if_pos rfl]
    simp only [ilock, stored, if_neg typed]
  refine ⟨⟨shows'.cached ▸ owned, shows'.coherent wrote.coherent, ready.lt,
    shows'.cached ▸ lock⟩, fun p lt => ?_⟩
  have visible : p < max ip₁.size (off + n) := by rwa [size_eq]
  refine (congrFun (contents_size _ _) p).trans
    ((contents_iupdate writing (fun _ => rfl) ready.lt visible).trans ?_)
  have eq := wrote.contents_eq p (by rwa [size_eq] at visible)
  simpa only [Nat.sub_zero, Nat.zero_add] using eq

/-- A `writei` for which there is space, and whose buffer can be read, writes all of it. -/
theorem writei_complete {bufs : Buffers} {src : Source} {off n : Nat}
    (ready : Ready sb inum ip bufs) (start : off ≤ ip.size) (inside : off + n ≤ size)
    (fits : size ≤ maxfile * bsize) (room : Room sb ip bufs.cached size)
    (valid : ∀ i < n, (src i).isSome) :
    ∃ ip' bufs', Buffers.writei sb inum ip src off n bufs = .ok (some n, ip', bufs') ∧
      Ready sb inum ip' bufs' ∧ ip'.size = max ip.size (off + n) ∧
      Room sb ip' bufs'.cached size ∧
      ∀ p < ip'.size, contents ip' bufs'.cached p =
        (contents ip bufs.cached).splice off n (fun i => (src i).getD 0) p := by
  have within : off + n ≤ maxfile * bsize := inside.trans fits
  obtain ⟨tot, ip₁, bufs₁, bufs', written, loop, wrote⟩ := writei_wrote ready src start within
  obtain ⟨off', ip₂, bufs₂, loop', room'⟩ := writeLoop_complete src n 0 (ready.writing start) room
    valid (by omega) (Nat.zero_le _) fits
  -- both are about the same loop
  rw [loop] at loop'
  cases loop'
  obtain ⟨ready', eq⟩ := wrote.complete ready within
  refine ⟨_, _, written, ready', rfl, ?_, eq⟩
  have writing := wrote.writing
  rw [Nat.sub_zero] at writing
  obtain rfl : bufs' = bufs₁ := by
    obtain ⟨same, -⟩ | ⟨more, -⟩ := wrote.ends
    · exact same
    · omega
  have resized : Room sb { ip₁ with size := max ip.size (off + n) } bufs'.cached size := by
    have same : missing { ip₁ with size := max ip.size (off + n) } bufs'.cached size =
        missing ip₁ bufs'.cached size := by
      ext fbn
      simp [missing, address_size]
    rw [Room, same]
    exact room'
  refine resized.write (notBitmap_inode ready.lt) fun fbn => address_congr (fun nonzero => ?_) fbn
  have indirect := writing.indirect nonzero
  have low := iblock_low ready.lt (Nat.zero_lt_of_lt indirect.2.1)
  exact Function.update_of_ne (by show ip₁.indirect ≠ _; omega) _ _

end Sistemas.Xv6.Fs
