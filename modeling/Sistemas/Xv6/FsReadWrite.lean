import Sistemas.Xv6.FsBuffers

/-! # What readi and writei do to the contents

The contents of a file are the bytes of its blocks in order.  `readi` copies them out
(`readi_reads`), and `writei` puts the bytes it has reported in their place; a copy that fails
leaves its bytes in the buffer all the same, without telling the log (`writeLoop_wrote`).
-/

namespace Sistemas.Xv6.Fs

variable {sb : Layout} {block block' : Blocks} {base : Nat → Dinode} {inum : Nat}
  {ip ip' : Dinode}

/-! ## Contents -/

/-- The block that `bmap` finds, `0` if there is none. -/
def address (ip : Dinode) (block : Blocks) (fbn : Nat) : Nat :=
  held (fun _ => ip) block (.data 0 fbn)

/-- Byte `p` of the file. -/
def contents (ip : Dinode) (block : Blocks) : Bytes :=
  fun p => block (address ip block (p / bsize)) (p % bsize)

theorem holding_data (base : Nat → Dinode) (inum fbn : Nat) :
    holding base inum ip block (.data inum fbn) = address ip block fbn := by
  unfold address Slot.data
  split <;> simp [held]

/-- The blocks of a file of `n` bytes are there. -/
def Whole (ip : Dinode) (block : Blocks) (n : Nat) : Prop :=
  ∀ fbn < blocks n, fbn < maxfile ∧ address ip block fbn ≠ 0

theorem Writing.whole {off : Nat} (writing : Writing sb base inum off ip block) :
    Whole ip block (max ip.size off) := by
  intro fbn below
  have mapped := writing.mapped inum fbn (by rwa [if_pos rfl])
  rwa [holding_data] at mapped

theorem lt_blocks {p n : Nat} (lt : p < n) : p / bsize < blocks n := by
  have : bsize = 1024 := rfl
  simp only [blocks, this]
  omega

/-- `bmap` of a block that is there changes nothing. -/
theorem bmap_address {bufs : Buffers} {bn : Nat} (lt : bn < maxfile)
    (mapped : address ip bufs.cached bn ≠ 0) :
    Buffers.bmap sb ip bn bufs = .ok (address ip bufs.cached bn, ip, bufs) := by
  have maxfile_eq : maxfile = 268 := rfl
  have ndirect_eq : ndirect = 12 := rfl
  have nindirect_eq : nindirect = 256 := rfl
  unfold Buffers.bmap
  split
  next direct =>
    have place : address ip bufs.cached bn = ip.direct ⟨bn, direct⟩ := by
      rw [address, Slot.data_direct direct]
      rfl
    rw [place] at mapped ⊢
    rw [Buffers.bmapDirect, if_neg mapped]
  next notDirect =>
    have index : (Fin.ofNat 256 (bn - 12)).val = bn - ndirect := by
      rw [Fin.val_ofNat]
      omega
    have indirect : ip.indirect ≠ 0 := by
      intro zero
      rw [address, Slot.data_entry (by omega), held_entry_empty zero] at mapped
      exact mapped rfl
    have place : address ip bufs.cached bn = word (bufs.cached ip.indirect) (bn - ndirect) := by
      rw [address, Slot.data_entry (by omega), held_entry indirect, index]
    rw [place] at mapped ⊢
    rw [if_pos (by omega), Buffers.bmapIndirect, if_neg indirect]
    simp only [if_neg indirect, Buffers.bmapEntry, if_neg mapped]

/-! ## Prefixes -/

/-- The longest prefix of `m` numbers that satisfy `p`. -/
theorem takeWhile_range (p : Nat → Bool) (m : Nat) :
    ((List.range m).takeWhile p).length ≤ m ∧
      (∀ i < ((List.range m).takeWhile p).length, p i = true) ∧
      (((List.range m).takeWhile p).length < m →
        p ((List.range m).takeWhile p).length = false) := by
  have le : (List.range m).findIdx (fun i => !p i) ≤ m := by
    have le := @List.findIdx_le_length _ (fun i => !p i) (List.range m)
    rwa [List.length_range] at le
  have eq : ((List.range m).takeWhile p).length = (List.range m).findIdx fun i => !p i := by
    rw [List.takeWhile_eq_take_findIdx_not, List.length_take, List.length_range]
    exact Nat.min_eq_left le
  rw [eq]
  refine ⟨le, ?_, ?_⟩
  · intro i lt
    have here := List.not_of_lt_findIdx lt
    simpa using here
  · intro lt
    have here := List.findIdx_getElem (w := show (List.range m).findIdx (fun i => !p i) <
      (List.range m).length by simpa using lt)
    simpa using here

section Prefixes

variable {src : Source} {dst : Buffers.Sink} {tot m i : Nat}

theorem readable_le : readable src tot m ≤ m := (takeWhile_range _ m).1

theorem isSome_of_lt_readable (lt : i < readable src tot m) : (src (tot + i)).isSome :=
  (takeWhile_range _ m).2.1 i lt

theorem src_readable (lt : readable src tot m < m) : src (tot + readable src tot m) = none := by
  have here : (src (tot + readable src tot m)).isSome = false :=
    (takeWhile_range (fun i => (src (tot + i)).isSome) m).2.2 lt
  simpa using here

theorem writable_le : Buffers.writable dst tot m ≤ m := (takeWhile_range _ m).1

theorem good_of_lt_writable (lt : i < Buffers.writable dst tot m) : dst (tot + i) = true :=
  (takeWhile_range (fun i => dst (tot + i)) m).2.1 i lt

theorem dst_writable (lt : Buffers.writable dst tot m < m) :
    dst (tot + Buffers.writable dst tot m) = false :=
  (takeWhile_range (fun i => dst (tot + i)) m).2.2 lt

end Prefixes

/-! ## `readi` -/

theorem chunk_le (off left : Nat) : chunk off left ≤ left := Nat.min_le_left _ _

/-- A chunk lies in one block. -/
theorem chunk_block {off left i : Nat} (lt : i < chunk off left) :
    (off + i) / bsize = off / bsize ∧ (off + i) % bsize = off % bsize + i := by
  have : bsize = 1024 := rfl
  simp only [chunk, this] at lt ⊢
  omega

theorem chunk_inBlock (off left : Nat) : off % bsize + chunk off left ≤ bsize := by
  have : off % bsize < bsize := Nat.mod_lt _ (by decide)
  simp only [chunk]
  omega

/-- A chunk that is not the last one goes to the end of its block. -/
theorem chunk_end {off left : Nat} (lt : chunk off left < left) :
    (off + chunk off left) % bsize = 0 := by
  have : bsize = 1024 := rfl
  simp only [chunk, this] at lt ⊢
  omega

/-- The bytes of a file that come to `dst`, out of `len` that have been asked for. -/
structure Reads (dst : Buffers.Sink) (len : Nat) (file : Nat → UInt8) (r : Option Nat)
    (bytes : List UInt8) : Prop where
  bytes_eq : ∀ i (lt : i < bytes.length), bytes[i] = file i
  -- all of them, or those before the first that cannot be written
  ends : r = some len ∧ bytes.length = len ∨
    r = none ∧ bytes.length < len ∧ dst bytes.length = false

theorem readLoop_reads (sb : Layout) {bufs : Buffers} (dst : Buffers.Sink) (n tot off : Nat) (le : tot ≤ n)
    (inside : off + (n - tot) ≤ ip.size) (whole : Whole ip bufs.cached ip.size) :
    ∃ r bytes, Buffers.readLoop sb dst n tot off ip bufs = .ok (r, bytes, ip, bufs) ∧
      (∀ i (lt : i < bytes.length), bytes[i] = contents ip bufs.cached (off + i)) ∧
      (r = some n ∧ tot + bytes.length = n ∨
        r = none ∧ tot + bytes.length < n ∧ dst (tot + bytes.length) = false) := by
  -- by induction on the bytes that are left
  induction left : n - tot using Nat.strong_induction_on generalizing tot off with
  | _ _ ih =>
    rw [Buffers.readLoop]
    split
    next more =>
      have mapped := whole (off / bsize) (lt_blocks (by omega))
      rw [bmap_address mapped.1 mapped.2]
      have some_bytes := chunk_pos off (show 0 < n - tot by omega)
      have chunk_le := chunk_le off (n - tot)
      simp only [bind, Except.bind, if_neg mapped.2]
      have copied : ∀ i, i < chunk off (n - tot) →
          bufs.cached (address ip bufs.cached (off / bsize)) (off % bsize + i) =
            contents ip bufs.cached (off + i) := by
        intro i lt
        rw [contents, (chunk_block lt).1, (chunk_block lt).2]
      split
      next all =>
        obtain ⟨r, bytes, loop, eq, ends⟩ := ih (n - (tot + chunk off (n - tot))) (by omega)
          (tot + chunk off (n - tot)) (off + chunk off (n - tot)) (by omega) (by omega) rfl
        rw [loop, all]
        refine ⟨r, _, rfl, ?_, ?_⟩
        · intro i lt
          by_cases first : i < chunk off (n - tot)
          · rw [List.getElem_append_left (by simpa using first)]
            simpa using copied i first
          · rw [List.getElem_append_right (by simpa using first), eq]
            congr 1
            simp only [List.length_map, List.length_range]
            omega
        · simpa only [List.length_append, List.length_map, List.length_range, Nat.add_assoc]
            using ends
      next cut =>
        have lt := Nat.lt_of_le_of_ne writable_le cut
        refine ⟨none, _, rfl, ?_, .inr ⟨rfl, ?_, ?_⟩⟩
        · intro i lt'
          simp only [List.length_map, List.length_range] at lt'
          simpa using copied i (by omega)
        · simp only [List.length_map, List.length_range]
          omega
        · simpa using dst_writable lt
    next done =>
      exact ⟨some tot, [], rfl, by simp, .inl ⟨by rw [show tot = n by omega], by simp; omega⟩⟩

/-- What `readi` reports it has been able to write. -/
theorem readLoop_writable {bufs bufs' : Buffers} {dst : Buffers.Sink} {bytes : List UInt8}
    {len tot off r : Nat}
    (loop : Buffers.readLoop sb dst len tot off ip bufs = .ok (some r, bytes, ip', bufs')) :
    ∀ j, tot ≤ j → j < r → dst j = true := by
  -- by induction on the bytes that are left
  induction left : len - tot using Nat.strong_induction_on
    generalizing tot off ip bufs bytes with
  | _ _ ih =>
    rw [Buffers.readLoop] at loop
    split at loop
    next more =>
      cases mapping : Buffers.bmap sb ip (off / bsize) bufs with
      | error panic =>
        rw [mapping] at loop
        cases loop
      | ok found =>
        obtain ⟨addr, ip₁, bufs₁⟩ := found
        rw [mapping] at loop
        simp only [bind, Except.bind] at loop
        split at loop
        next =>
          cases loop
          intro j ge lt
          omega
        next =>
          split at loop
          next all =>
            have some_bytes := chunk_pos off (show 0 < len - tot by omega)
            cases rest : Buffers.readLoop sb dst len (tot + chunk off (len - tot))
                (off + chunk off (len - tot)) ip₁ bufs₁ with
            | error panic =>
              rw [rest] at loop
              cases loop
            | ok result =>
              obtain ⟨r₁, bytes₁, ip₂, bufs₂⟩ := result
              rw [rest] at loop
              cases loop
              intro j ge lt
              by_cases first : j < tot + chunk off (len - tot)
              · have here : j - tot < Buffers.writable dst tot (chunk off (len - tot)) := by
                  omega
                have good := good_of_lt_writable here
                rwa [Nat.add_sub_cancel' ge] at good
              · exact ih _ (by omega) rest rfl j (by omega) lt
          next => cases loop
    next =>
      cases loop
      intro j ge lt
      omega

theorem readi_writable {bufs bufs' : Buffers} {dst : Buffers.Sink} {bytes : List UInt8}
    {off n r : Nat} (call : Buffers.readi sb ip dst off n bufs = .ok (some r, bytes, ip', bufs')) :
    ∀ j < r, dst j = true := by
  unfold Buffers.readi at call
  split at call
  next =>
    cases call
    intro j lt
    cases lt
  next => exact fun j => readLoop_writable call j (Nat.zero_le j)

/-- How many of `n` bytes from `off` on a file of `size` bytes has. -/
def readLength (size off n : Nat) : Nat :=
  if size < off ∨ 2 ^ 32 ≤ off + n then 0 else min n (size - off)

theorem readi_reads (sb : Layout) {bufs : Buffers} (dst : Buffers.Sink) {off n : Nat} (offFits : off < 2 ^ 32)
    (nFits : n < 2 ^ 32) (whole : Whole ip bufs.cached ip.size) :
    ∃ r bytes, Buffers.readi sb ip dst off n bufs = .ok (r, bytes, ip, bufs) ∧
      Reads dst (readLength ip.size off n) (fun i => contents ip bufs.cached (off + i)) r bytes := by
  unfold Buffers.readi readLength
  by_cases bad : ip.size < off ∨ 2 ^ 32 ≤ off + n
  · rw [if_pos (by omega), if_pos bad]
    exact ⟨some 0, [], rfl, by simp, .inl ⟨rfl, rfl⟩⟩
  · rw [if_neg (by omega), if_neg bad]
    have asked : (if ip.size < (off + n) % 2 ^ 32 then ip.size - off else n) =
        min n (ip.size - off) := by
      rw [Nat.mod_eq_of_lt (by omega)]
      split <;> omega
    obtain ⟨r, bytes, loop, eq, ends⟩ := readLoop_reads sb dst (min n (ip.size - off)) 0 off
      (Nat.zero_le _) (by omega) whole
    simp only [Nat.zero_add] at ends
    rw [asked]
    exact ⟨r, bytes, loop, eq, ends⟩

/-! ## `writei` -/

/-- A block that is in use is not written when another one is allocated. -/
theorem balloc_keeps {addr b : Nat} (eq : balloc sb block = (addr, block')) (high : sb.nmeta ≤ b)
    (inUse : used sb block b) : block' b = block b := by
  obtain ⟨-, rfl⟩ | ⟨lt, free, rfl⟩ := balloc_cases eq
  · rfl
  · have fresh : b ≠ addr := by
      rintro rfl
      rw [inUse.2] at free
      cases free
    have place := bblock_low lt
    rw [bzero, Function.update_of_ne fresh, Function.update_of_ne (by omega)]

theorem bmapDirect_keeps {i : Fin 12} {addr b : Nat}
    (eq : bmapDirect sb ip i block = (addr, ip', block')) (high : sb.nmeta ≤ b)
    (inUse : used sb block b) : block' b = block b := by
  unfold bmapDirect at eq
  split at eq
  next =>
    generalize alloc : balloc sb block = result at eq
    obtain ⟨addr₁, block₁⟩ := result
    have keeps := balloc_keeps alloc high inUse
    simp only at eq
    split at eq <;> cases eq <;> exact keeps
  next =>
    cases eq
    rfl

theorem bmapIndirect_keeps {addr b : Nat} (eq : bmapIndirect sb ip block = (addr, ip', block'))
    (high : sb.nmeta ≤ b) (inUse : used sb block b) : block' b = block b := by
  unfold bmapIndirect at eq
  split at eq
  next =>
    generalize alloc : balloc sb block = result at eq
    obtain ⟨addr₁, block₁⟩ := result
    have keeps := balloc_keeps alloc high inUse
    simp only at eq
    split at eq <;> cases eq <;> exact keeps
  next =>
    cases eq
    rfl

theorem bmapEntry_keeps {ind bn addr b : Nat} (eq : bmapEntry sb ind bn block = (addr, block'))
    (high : sb.nmeta ≤ b) (inUse : used sb block b) (ne : b ≠ ind) : block' b = block b := by
  unfold bmapEntry at eq
  simp only at eq
  split at eq
  next =>
    generalize alloc : balloc sb block = result at eq
    obtain ⟨addr₁, block₁⟩ := result
    have keeps := balloc_keeps alloc high inUse
    simp only at eq
    split at eq
    next =>
      cases eq
      exact keeps
    next =>
      cases eq
      rw [Function.update_of_ne ne, keeps]
  next =>
    cases eq
    rfl

/-- `bmap` does not write to the data of the file. -/
theorem bmap_keeps {bn addr fbn : Nat} (owns : Owns sb (holding base inum ip block) block)
    (eq : bmap sb ip bn block = .ok (addr, ip', block')) (mapped : address ip block fbn ≠ 0) :
    block' (address ip block fbn) = block (address ip block fbn) := by
  have held : holding base inum ip block (.data inum fbn) ≠ 0 := by rwa [holding_data]
  have range := owns.range held
  have inUse := owns.used_of_holds held
  rw [holding_data] at range inUse
  unfold bmap at eq
  split at eq
  next direct => exact bmapDirect_keeps (Except.ok.inj eq) range.1 inUse
  next notDirect =>
    split at eq
    next inside =>
      generalize indirect : bmapIndirect sb ip block = result at eq
      obtain ⟨ind, ip₁, block₁⟩ := result
      obtain ⟨grown, here⟩ := bmapIndirect_grown owns indirect
      have keeps := bmapIndirect_keeps indirect range.1 inUse
      simp only at eq
      split at eq
      next failed =>
        cases eq
        exact keeps
      next found =>
        generalize entry : bmapEntry sb ind (bn - ndirect) block₁ = result at eq
        obtain ⟨addr₂, block₂⟩ := result
        cases eq
        have same := grown.keep _ held
        have held₁ : holding base inum ip' block₁ (.data inum fbn) ≠ 0 := by rwa [same]
        -- the indirect block is not a data block
        have ne : address ip block fbn ≠ ind := by
          intro clash
          have both : holding base inum ip' block₁ (.data inum fbn) =
              holding base inum ip' block₁ (.indirect inum) := by
            rw [same, holding_data, clash, ← here found]
            simp [Xv6.held]
          exact Slot.data_ne_indirect (grown.owns.once _ _ held₁ both)
        have inUse₁ := grown.owns.used_of_holds held₁
        rw [same, holding_data] at inUse₁
        exact (bmapEntry_keeps entry range.1 inUse₁ ne).trans keeps
    next => cases eq

theorem Grown.address {fbn : Nat} (grown : Grown sb base inum ip block ip' block')
    (mapped : address ip block fbn ≠ 0) : address ip' block' fbn = address ip block fbn := by
  have keep := grown.keep (.data inum fbn)
  rw [holding_data, holding_data] at keep
  exact keep mapped

/-- What is written to a block of the file goes to its place in the file. -/
theorem contents_write {off k p : Nat} (part : Bytes)
    (owns : Owns sb (holding base inum ip block) block) (lt : off / bsize < maxfile)
    (mapped : address ip block (off / bsize) ≠ 0) (inBlock : off % bsize + k ≤ bsize)
    (pLt : p / bsize < maxfile) (pMapped : address ip block (p / bsize) ≠ 0) :
    contents ip (Function.update block (address ip block (off / bsize))
        ((block (address ip block (off / bsize))).splice (off % bsize) k part)) p =
      (contents ip block).splice off k part p := by
  have bsize_eq : bsize = 1024 := rfl
  have held : holding base inum ip block (.data inum (off / bsize)) ≠ 0 := by rwa [holding_data]
  have address_eq : ∀ data, address ip
      (Function.update block (address ip block (off / bsize)) data) (p / bsize) =
        address ip block (p / bsize) := by
    intro data
    rw [address, held_write, ← address]
    intro _ clash
    have both : holding base inum ip block (.data inum (off / bsize)) =
        holding base inum ip block (.indirect inum) := by
      rw [holding_data, ← clash]
      simp [Xv6.held]
    exact Slot.data_ne_indirect (owns.once _ _ held both)
  rw [contents, address_eq]
  by_cases same : p / bsize = off / bsize
  · rw [same, Function.update_self]
    simp only [Bytes.splice, contents, same]
    have inside : (off % bsize ≤ p % bsize ∧ p % bsize < off % bsize + k) ↔
        (off ≤ p ∧ p < off + k) := by
      simp only [bsize_eq] at same ⊢
      omega
    have index : p % bsize - off % bsize = p - off := by
      simp only [bsize_eq] at same ⊢
      omega
    simp only [inside, index]
  · have ne : address ip block (p / bsize) ≠ address ip block (off / bsize) := by
      intro clash
      rw [← holding_data base inum, ← holding_data base inum]
        at clash
      have pHeld : holding base inum ip block (.data inum (p / bsize)) ≠ 0 := by
        rwa [holding_data]
      exact same (Slot.data_inj pLt lt (owns.once _ _ pHeld clash)).2
    rw [Function.update_of_ne ne, Bytes.splice_outside]
    · rfl
    · simp only [bsize_eq] at same inBlock ⊢
      omega

/-- What the loop of `writei` has done when it ends at `tot'`.  `bufs₁` are the buffers before
    a copy that fails, if there has been one. -/
structure Wrote (sb : Layout) (base : Nat → Dinode) (inum : Nat) (src : Source) (n tot off : Nat)
    (ip : Dinode) (bufs : Buffers) (tot' : Nat) (ip' : Dinode) (bufs₁ bufs' : Buffers) :
    Prop where
  le : tot ≤ tot'
  le_n : tot' ≤ n
  writing : Writing sb base inum (off + (tot' - tot)) ip' bufs₁.cached
  kept : Kept sb ip bufs.cached ip' bufs₁.cached
  coherent : bufs₁.Coherent
  isSome : ∀ i, tot ≤ i → i < tot' → (src i).isSome
  contents_eq : ∀ p < max ip.size (off + (tot' - tot)), contents ip' bufs₁.cached p =
    (contents ip bufs.cached).splice off (tot' - tot) (fun i => (src (tot + i)).getD 0) p
  -- the loop goes on at the start of a block
  aligned : tot < tot' → tot' < n → (off + (tot' - tot)) % bsize = 0
  ends :
    bufs' = bufs₁ ∧ (tot' < n → ip.size ≤ off + (tot' - tot)) ∨
    tot' < n ∧
      readable src tot' (chunk (off + (tot' - tot)) (n - tot')) <
        chunk (off + (tot' - tot)) (n - tot') ∧
      address ip' bufs₁.cached ((off + (tot' - tot)) / bsize) ≠ 0 ∧
      bufs' = bufs₁.copyin src tot' (off + (tot' - tot)) (chunk (off + (tot' - tot)) (n - tot'))
        (address ip' bufs₁.cached ((off + (tot' - tot)) / bsize))

/-- Two parts that follow one another. -/
theorem splice_splice (part : Bytes) {old : Bytes} {off m len p : Nat} :
    (old.splice off m part).splice (off + m) len (fun i => part (m + i)) p =
      old.splice off (m + len) part p := by
  by_cases second : off + m ≤ p ∧ p < off + m + len
  · have whole : off ≤ p ∧ p < off + (m + len) := by omega
    simp only [Bytes.splice, second, whole, and_self, if_true]
    congr 1
    omega
  · by_cases first : off ≤ p ∧ p < off + m
    · have whole : off ≤ p ∧ p < off + (m + len) := by omega
      simp only [Bytes.splice, if_neg second, first, whole, and_self, if_true]
    · rw [Bytes.splice_outside (by omega), Bytes.splice_outside (by omega),
        Bytes.splice_outside (by omega)]

/-- A chunk that has been copied, and what comes after it. -/
theorem Wrote.round {src : Source} {n tot off m tot' : Nat} {bufs bufs₂ bufs₃ bufs' : Buffers}
    {ip₂ : Dinode} (mLe : tot + m ≤ n) (kept : Kept sb ip bufs.cached ip₂ bufs₂.cached)
    (isSome : ∀ i < m, (src (tot + i)).isSome)
    (eq : ∀ p < max ip.size (off + m), contents ip₂ bufs₂.cached p =
      (contents ip bufs.cached).splice off m (fun i => (src (tot + i)).getD 0) p)
    (blockEnd : tot + m < n → (off + m) % bsize = 0)
    (later : Wrote sb base inum src n (tot + m) (off + m) ip₂ bufs₂ tot' ip' bufs₃ bufs') :
    Wrote sb base inum src n tot off ip bufs tot' ip' bufs₃ bufs' := by
  have le := later.le
  have le_n := later.le_n
  have size := kept.size
  have off_eq : off + m + (tot' - (tot + m)) = off + (tot' - tot) := by omega
  have ends := later.ends
  have contents_eq := later.contents_eq
  rw [off_eq, size] at ends contents_eq
  refine ⟨by omega, le_n, off_eq ▸ later.writing, kept.trans later.kept, later.coherent, ?_, ?_, ?_,
    ends⟩
  · intro i ge lt
    by_cases first : i < tot + m
    · have here := isSome (i - tot) (by omega)
      rwa [Nat.add_sub_cancel' ge] at here
    · exact later.isSome i (by omega) lt
  · intro p inside
    have parts : (fun i => (src (tot + m + i)).getD 0) = fun i => (src (tot + (m + i))).getD 0 := by
      simp only [Nat.add_assoc]
    have old : (contents ip₂ bufs₂.cached).splice (off + m) (tot' - (tot + m))
        (fun i => (src (tot + m + i)).getD 0) p =
      ((contents ip bufs.cached).splice off m fun i => (src (tot + i)).getD 0).splice (off + m)
        (tot' - (tot + m)) (fun i => (src (tot + m + i)).getD 0) p := by
      by_cases second : off + m ≤ p ∧ p < off + m + (tot' - (tot + m))
      · simp only [Bytes.splice, second, and_self, if_true]
      · rw [Bytes.splice_outside (by omega), Bytes.splice_outside (by omega)]
        exact eq p (by omega)
    rw [contents_eq p inside, old, parts,
      splice_splice fun i => (src (tot + i)).getD 0,
      show m + (tot' - (tot + m)) = tot' - tot by omega]
  · intro _ rest
    by_cases last : tot' = tot + m
    · rw [last, Nat.add_sub_cancel_left]
      exact blockEnd (by omega)
    · rw [← off_eq]
      exact later.aligned (by omega) rest

theorem writeLoop_wrote {bufs : Buffers} (src : Source) (n tot : Nat) {off : Nat}
    (writing : Writing sb base inum off ip bufs.cached) (coherent : bufs.Coherent)
    (le : tot ≤ n) (bound : off + (n - tot) ≤ maxfile * bsize) :
    ∃ tot' ip' bufs₁ bufs', Buffers.writeLoop sb src n tot off ip bufs =
        .ok (tot', off + (tot' - tot), ip', bufs') ∧
      Wrote sb base inum src n tot off ip bufs tot' ip' bufs₁ bufs' := by
  -- by induction on the bytes that are left
  induction left : n - tot using Nat.strong_induction_on generalizing tot off ip bufs with
  | _ _ ih =>
    rw [Buffers.writeLoop]
    split
    next more =>
      have pos : 0 < n - tot := by omega
      have some_bytes := chunk_pos off pos
      have chunk_le := chunk_le off (n - tot)
      have lt : off / bsize < maxfile := by
        rw [Nat.div_lt_iff_lt_mul (by decide)]
        omega
      obtain ⟨addr, ip₁, block₁, mapping, grown, here⟩ := bmap_grown writing.owns lt
      obtain ⟨bufs₁, mapping', shows₁⟩ := Buffers.bmap_shows mapping
      obtain rfl := shows₁.cached
      have coherent₁ := shows₁.coherent coherent
      have writing₁ : Writing sb base inum off ip₁ bufs₁.cached := by
        refine ⟨grown.owns, ?_⟩
        rw [grown.size]
        exact writing.mapped.grow grown
      have whole := writing.whole
      -- the part of the file that is there is as before
      have same : ∀ p < max ip.size off, contents ip₁ bufs₁.cached p = contents ip bufs.cached p := by
        intro p inside
        have mapped := (whole _ (lt_blocks inside)).2
        rw [contents, grown.address mapped, bmap_keeps writing.owns mapping mapped, contents]
      rw [mapping']
      simp only [bind, Except.bind]
      by_cases full : addr = 0
      · -- no space for the block, so the file ends before it
        have beyond : ip.size ≤ off := by
          by_contra inside
          have mapped := (whole _ (lt_blocks (p := off) (n := max ip.size off) (by omega))).2
          rw [bmap_address lt mapped] at mapping'
          exact mapped (by rw [← full]; exact (congrArg Prod.fst (Except.ok.inj mapping')))
        refine ⟨tot, ip₁, bufs₁, bufs₁, by rw [if_pos full, Nat.sub_self, Nat.add_zero], le_rfl, le,
          ?_, grown.kept, coherent₁, by omega, ?_, by omega, .inl ⟨rfl, fun _ => by omega⟩⟩
        · rwa [Nat.sub_self, Nat.add_zero]
        · intro p inside
          rw [Nat.sub_self, Nat.add_zero] at inside
          rw [Bytes.splice_outside (by omega), same p inside]
      · rw [if_neg full]
        have address_eq : address ip₁ bufs₁.cached (off / bsize) = addr := by
          rw [← holding_data base inum]
          exact here full
        by_cases all : readable src tot (chunk off (n - tot)) = chunk off (n - tot)
        · rw [if_pos all]
          have next := (writing.next grown full (here full) lt pos
            ((bufs₁.cached addr).splice (off % bsize) (readable src tot (chunk off (n - tot)))
              fun i => (src (tot + i)).getD 0)).1
          have coherent₂ := coherent₁.write addr
            ((bufs₁.cached addr).splice (off % bsize) (readable src tot (chunk off (n - tot)))
              fun i => (src (tot + i)).getD 0)
          obtain ⟨tot', ip', bufs₃, bufs', loop, wrote⟩ := ih (n - (tot + chunk off (n - tot)))
            (by omega) (tot + chunk off (n - tot)) next coherent₂ (by omega) (by omega) rfl
          have le' := wrote.le
          rw [show off + chunk off (n - tot) + (tot' - (tot + chunk off (n - tot))) =
              off + (tot' - tot) by omega] at loop
          refine ⟨tot', ip', bufs₃, bufs', loop, wrote.round (by omega) ?_ ?_ ?_ ?_⟩
          · have range := grown.owns.range (show holding base inum ip₁ bufs₁.cached _ ≠ 0 by
              rw [here full]; exact full)
            rw [here full] at range
            exact grown.kept.trans ⟨.write range.1 range.2, rfl, rfl, id⟩
          · intro i lt
            exact isSome_of_lt_readable (lt_of_lt_of_eq lt all.symm)
          · intro p inside
            have there : p / bsize < maxfile ∧ address ip₁ bufs₁.cached (p / bsize) ≠ 0 := by
              by_cases old : p < max ip.size off
              · exact writing₁.whole _ (lt_blocks (by rwa [grown.size]))
              · have here := (chunk_block (show p - off < chunk off (n - tot) by omega)).1
                rw [Nat.add_sub_cancel' (by omega)] at here
                rw [here, address_eq]
                exact ⟨lt, full⟩
            have inBlock := chunk_inBlock off (n - tot)
            have written := contents_write (fun i => (src (tot + i)).getD 0) grown.owns lt
              (address_eq ▸ full) inBlock there.1 there.2
            rw [address_eq] at written
            simp only [Buffers.logWrite_cached, Buffers.change_cached, all]
            rw [written]
            by_cases new : off ≤ p ∧ p < off + chunk off (n - tot)
            · simp only [Bytes.splice, new, and_self, if_true]
            · rw [Bytes.splice_outside (by omega), Bytes.splice_outside (by omega)]
              exact same p (by omega)
          · intro more'
            exact chunk_end (by omega)
        · -- the user's buffer cannot be read
          rw [if_neg all]
          have lt := Nat.lt_of_le_of_ne readable_le all
          refine ⟨tot, ip₁, bufs₁, _, by rw [Nat.sub_self, Nat.add_zero], le_rfl, le, ?_, grown.kept,
            coherent₁, by omega, ?_, by omega, .inr ⟨more, ?_⟩⟩
          · rwa [Nat.sub_self, Nat.add_zero]
          · intro p inside
            rw [Nat.sub_self, Nat.add_zero] at inside
            rw [Bytes.splice_outside (by omega), same p inside]
          · rw [Nat.sub_self, Nat.add_zero, address_eq]
            exact ⟨lt, full, rfl⟩
    next done =>
      refine ⟨tot, ip, bufs, bufs, by rw [Nat.sub_self, Nat.add_zero], le_rfl, le, ?_,
        ⟨.refl, rfl, rfl, id⟩, coherent, by omega, ?_, by omega, .inl ⟨rfl, by omega⟩⟩
      · rwa [Nat.sub_self, Nat.add_zero]
      · intro p _
        rw [Nat.sub_self, Bytes.splice_outside (by omega)]

end Sistemas.Xv6.Fs
