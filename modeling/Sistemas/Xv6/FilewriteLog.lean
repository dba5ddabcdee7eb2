import Mathlib.Data.Finset.Card
import Sistemas.Xv6.FileBytes
import Sistemas.Xv6.Filewrite

/-! # What a chunk of filewrite puts into the log

`filewrite` makes a transaction of each chunk.  A chunk of three blocks that does not begin at
the start of a block is in four of them, but then the first one is there already; so at most
three blocks and the indirect block are new, each with its bit in a block of the bitmap, and
with the block of the inode there are `MAXOPBLOCKS` blocks at most.
-/

namespace Sistemas.Xv6.Fs

variable {sb : Layout} {inum addr ind bn off off' n tot tot' left : Nat} {ip ip' : Dinode}
  {bufs bufs' : Buffers} {src : Source}

namespace Buffers

/-! ## The same code in another transaction -/

/-- The same buffers in a transaction that has logged other blocks. -/
def relog (bufs : Buffers) (logged : Nat → Bool) : Buffers := { bufs with logged := logged }

/-- Some more blocks in the log. -/
def more (logged : Nat → Bool) (W : Finset Nat) : Nat → Bool := fun b => logged b || decide (b ∈ W)

theorem more_empty (logged : Nat → Bool) : more logged ∅ = logged := by
  funext b
  simp [more]

theorem more_more (logged : Nat → Bool) (W V : Finset Nat) :
    more (more logged W) V = more logged (W ∪ V) := by
  funext b
  simp [more, Bool.or_assoc]

theorem logWrite_relog (b : Nat) (logged : Nat → Bool) :
    (bufs.relog logged).logWrite b = bufs.relog (more logged {b}) := by
  simp only [logWrite, relog, Buffers.mk.injEq, true_and]
  funext c
  by_cases here : c = b
  · subst here
    simp [more]
  · simp [more, here]

/-- The block of an allocation, and that of its bit. -/
def withBit (sb : Layout) (addr : Nat) : Finset Nat := {addr, sb.bblock addr}

theorem withBit_card (sb : Layout) (addr : Nat) : (withBit sb addr).card ≤ 2 := Finset.card_le_two

/-- The indirect block of an inode that has one. -/
def indirectBlocks (sb : Layout) (ip : Dinode) : Finset Nat :=
  if ip.indirect = 0 then ∅ else withBit sb ip.indirect

theorem indirectBlocks_card (sb : Layout) (ip : Dinode) : (indirectBlocks sb ip).card ≤ 2 := by
  unfold indirectBlocks
  split
  · exact Nat.zero_le 2
  · exact withBit_card sb _

theorem balloc_relog (eq : balloc sb bufs = (addr, bufs')) : ∃ W ⊆ withBit sb addr, ∀ logged,
    balloc sb (bufs.relog logged) = (addr, bufs'.relog (more logged W)) := by
  unfold balloc at eq
  cases found : (List.range ((sb.size + bpb - 1) / bpb)).findSome?
      fun k => scan sb bufs.cached (k * bpb) with
  | some b =>
    simp only [found] at eq
    cases eq
    refine ⟨{sb.bblock addr} ∪ {addr}, ?_, fun logged => ?_⟩
    · intro c mem
      simp only [withBit, Finset.mem_union, Finset.mem_singleton, Finset.mem_insert] at mem ⊢
      exact mem.symm
    · have there : (bufs.relog logged).cached = bufs.cached := rfl
      simp only [balloc, there, found]
      rw [← more_more, ← logWrite_relog, ← logWrite_relog]
      rfl
  | none =>
    simp only [found] at eq
    cases eq
    refine ⟨∅, Finset.empty_subset _, fun logged => ?_⟩
    have there : (bufs.relog logged).cached = bufs.cached := rfl
    simp only [balloc, there, found, more_empty]

/-! ## `bmap` -/

theorem bmapDirect_relog {i : Fin 12} (eq : bmapDirect sb ip i bufs = (addr, ip', bufs')) :
    ip'.indirect = ip.indirect ∧ ∃ W ⊆ withBit sb addr, ∀ logged,
      bmapDirect sb ip i (bufs.relog logged) = (addr, ip', bufs'.relog (more logged W)) := by
  unfold bmapDirect at eq
  split at eq
  next empty =>
    cases alloc : balloc sb bufs with
    | mk addr₁ bufs₁ =>
      obtain ⟨W, sub, relogs⟩ := balloc_relog alloc
      rw [alloc] at eq
      simp only at eq
      split at eq
      next failed =>
        cases eq
        refine ⟨rfl, W, failed ▸ sub, fun logged => ?_⟩
        simp only [bmapDirect, if_pos empty, relogs, if_pos failed]
      next got =>
        cases eq
        refine ⟨Dinode.setDirect_indirect .., W, sub, fun logged => ?_⟩
        simp only [bmapDirect, if_pos empty, relogs, if_neg got]
  next full =>
    cases eq
    refine ⟨rfl, ∅, Finset.empty_subset _, fun logged => ?_⟩
    simp only [bmapDirect, if_neg full, more_empty]

theorem bmapIndirect_relog (eq : bmapIndirect sb ip bufs = (ind, ip', bufs')) :
    (ind ≠ 0 → ip'.indirect = ind) ∧ (ip.indirect ≠ 0 → ip'.indirect = ip.indirect) ∧
      ∃ W ⊆ withBit sb ind, ∀ logged,
        bmapIndirect sb ip (bufs.relog logged) = (ind, ip', bufs'.relog (more logged W)) := by
  unfold bmapIndirect at eq
  split at eq
  next empty =>
    cases alloc : balloc sb bufs with
    | mk addr₁ bufs₁ =>
      obtain ⟨W, sub, relogs⟩ := balloc_relog alloc
      rw [alloc] at eq
      simp only at eq
      split at eq
      next failed =>
        cases eq
        refine ⟨fun nonzero => absurd rfl nonzero, fun _ => rfl, W, failed ▸ sub, fun logged => ?_⟩
        simp only [bmapIndirect, if_pos empty, relogs, if_pos failed]
      next got =>
        cases eq
        refine ⟨fun _ => Dinode.setIndirect_indirect .., fun there => absurd empty there, W, sub,
          fun logged => ?_⟩
        simp only [bmapIndirect, if_pos empty, relogs, if_neg got]
  next full =>
    cases eq
    refine ⟨fun _ => rfl, fun _ => rfl, ∅, Finset.empty_subset _, fun logged => ?_⟩
    simp only [bmapIndirect, if_neg full, more_empty]

theorem bmapEntry_relog (eq : bmapEntry sb ind bn bufs = (addr, bufs')) :
    ∃ W ⊆ withBit sb addr ∪ {ind}, ∀ logged,
      bmapEntry sb ind bn (bufs.relog logged) = (addr, bufs'.relog (more logged W)) := by
  unfold bmapEntry at eq
  simp only at eq
  split at eq
  next empty =>
    cases alloc : balloc sb bufs with
    | mk addr₁ bufs₁ =>
      obtain ⟨W, sub, relogs⟩ := balloc_relog alloc
      rw [alloc] at eq
      simp only at eq
      have entry : ∀ logged, word ((bufs.relog logged).cached ind) bn = 0 := fun _ => empty
      split at eq
      next failed =>
        cases eq
        refine ⟨W, fun b mem => Finset.mem_union_left _ (failed ▸ sub mem), fun logged => ?_⟩
        simp only [bmapEntry, if_pos (entry logged), relogs, if_pos failed]
      next got =>
        cases eq
        refine ⟨W ∪ {ind}, Finset.union_subset_union sub (Finset.Subset.refl _), fun logged => ?_⟩
        simp only [bmapEntry, if_pos (entry logged), relogs, if_neg got]
        rw [← more_more, ← logWrite_relog]
        rfl
  next full =>
    cases eq
    refine ⟨∅, Finset.empty_subset _, fun logged => ?_⟩
    have entry : ¬ word ((bufs.relog logged).cached ind) bn = 0 := full
    simp only [bmapEntry, if_neg entry, more_empty]
    rfl

/-- `bmap` logs the block that it finds, if it is new, and what is new of the indirect block. -/
theorem bmap_relog (eq : bmap sb ip bn bufs = .ok (addr, ip', bufs')) :
    (ip.indirect ≠ 0 → ip'.indirect = ip.indirect) ∧
      ∃ W ⊆ withBit sb addr ∪ indirectBlocks sb ip', ∀ logged,
        bmap sb ip bn (bufs.relog logged) = .ok (addr, ip', bufs'.relog (more logged W)) := by
  unfold bmap at eq
  split at eq
  next direct =>
    obtain ⟨same, W, sub, relogs⟩ := bmapDirect_relog (Except.ok.inj eq)
    refine ⟨fun _ => same, W, fun b mem => Finset.mem_union_left _ (sub mem), fun logged => ?_⟩
    rw [bmap, dif_pos direct, relogs]
  next notDirect =>
    split at eq
    next inside =>
      cases indirect : bmapIndirect sb ip bufs with
      | mk ind rest =>
        obtain ⟨ip₁, bufs₁⟩ := rest
        obtain ⟨here, same, W, sub, relogs⟩ := bmapIndirect_relog indirect
        rw [indirect] at eq
        simp only at eq
        split at eq
        next failed =>
          cases eq
          refine ⟨same, W, fun b mem => Finset.mem_union_left _ (failed ▸ sub mem), fun logged => ?_⟩
          simp only [bmap, dif_neg notDirect, if_pos inside, relogs, if_pos failed]
        next found =>
          cases entry : bmapEntry sb ind (bn - ndirect) bufs₁ with
          | mk addr₂ bufs₂ =>
            obtain ⟨V, sub', relogs'⟩ := bmapEntry_relog entry
            rw [entry] at eq
            cases eq
            have blocks : indirectBlocks sb ip' = withBit sb ind := by
              rw [indirectBlocks, here found, if_neg found]
            refine ⟨same, W ∪ V, ?_, fun logged => ?_⟩
            · rw [blocks]
              refine Finset.union_subset (fun b mem => Finset.mem_union_right _ (sub mem))
                fun b mem => ?_
              have place := sub' mem
              simp only [Finset.mem_union, Finset.mem_singleton] at place ⊢
              refine place.imp_right fun here => ?_
              rw [here]
              exact Finset.mem_insert_self _ _
            · simp only [bmap, dif_neg notDirect, if_pos inside, relogs, if_neg found, relogs',
                more_more]
    next => cases eq

/-! ## The loop of `writei` -/

/-- In how many blocks `left` bytes from `off` on are. -/
def rounds (off left : Nat) : Nat :=
  if left = 0 then 0 else (off % bsize + left + (bsize - 1)) / bsize

theorem rounds_chunk (off : Nat) (pos : 0 < left) :
    rounds off left = rounds (off + chunk off left) (left - chunk off left) + 1 := by
  have bsize_eq : bsize = 1024 := rfl
  simp only [rounds, chunk, bsize_eq]
  split <;> split <;> omega

theorem rounds_le (off : Nat) (le : n ≤ 3 * bsize) : rounds off n ≤ 4 ∧ (off % bsize = 0 → rounds off n ≤ 3) := by
  have bsize_eq : bsize = 1024 := rfl
  simp only [rounds, bsize_eq] at le ⊢
  split <;> omega

theorem indirectBlocks_mono (same : ip.indirect ≠ 0 → ip'.indirect = ip.indirect) :
    indirectBlocks sb ip ⊆ indirectBlocks sb ip' := by
  intro b mem
  unfold indirectBlocks at mem ⊢
  split at mem
  next => cases mem
  next there =>
    rw [same there, if_neg there]
    exact mem

/-- A block that is there already is logged without its bit. -/
theorem bmap_round (eq : bmap sb ip (off / bsize) bufs = .ok (addr, ip', bufs'))
    (lt : off / bsize < maxfile) : ∃ W D : Finset Nat, W ∪ {addr} ⊆ D ∪ indirectBlocks sb ip' ∧
      D.card ≤ 2 ∧ (address ip bufs.cached (off / bsize) ≠ 0 → D.card ≤ 1) ∧ ∀ logged,
        bmap sb ip (off / bsize) (bufs.relog logged) =
          .ok (addr, ip', bufs'.relog (more logged W)) := by
  by_cases mapped : address ip bufs.cached (off / bsize) ≠ 0
  · have here : bmap sb ip (off / bsize) bufs =
        .ok (address ip bufs.cached (off / bsize), ip, bufs) := bmap_address lt mapped
    rw [here] at eq
    cases eq
    refine ⟨∅, {address ip bufs.cached (off / bsize)}, ?_, ?_, fun _ => ?_, fun logged => ?_⟩
    · rw [Finset.empty_union]
      exact Finset.subset_union_left
    · simp
    · simp
    · rw [more_empty]
      exact bmap_address lt mapped
  · obtain ⟨-, W, sub, relogs⟩ := bmap_relog eq
    refine ⟨W, withBit sb addr, Finset.union_subset sub ?_, withBit_card sb addr,
      fun there => absurd there mapped, relogs⟩
    rw [Finset.singleton_subset_iff, Finset.mem_union]
    exact .inl (Finset.mem_insert_self _ _)

theorem writeLoop_relog
    (eq : writeLoop sb src n tot off ip bufs = .ok (tot', off', ip', bufs'))
    (fits : off + (n - tot) ≤ maxfile * bsize) :
    (ip.indirect ≠ 0 → ip'.indirect = ip.indirect) ∧
      ∃ W D : Finset Nat, W ⊆ D ∪ indirectBlocks sb ip' ∧ D.card ≤ 2 * rounds off (n - tot) ∧
        (address ip bufs.cached (off / bsize) ≠ 0 → D.card ≤ 2 * rounds off (n - tot) - 1) ∧
          ∀ logged, writeLoop sb src n tot off ip (bufs.relog logged) =
            .ok (tot', off', ip', bufs'.relog (more logged W)) := by
  -- by induction on the bytes that are left
  induction left : n - tot using Nat.strong_induction_on generalizing tot off ip bufs with
  | _ _ ih =>
    subst left
    rw [writeLoop] at eq
    split at eq
    next more_left =>
      have pos : 0 < n - tot := by omega
      have some_bytes := chunk_pos off pos
      have chunk_le := chunk_le off (n - tot)
      have lt : off / bsize < maxfile := by
        rw [Nat.div_lt_iff_lt_mul (by decide)]
        omega
      have next := rounds_chunk off pos
      cases mapping : bmap sb ip (off / bsize) bufs with
      | error panic =>
        rw [mapping] at eq
        cases eq
      | ok found =>
        obtain ⟨addr, ip₁, bufs₁⟩ := found
        obtain ⟨same, -⟩ := bmap_relog mapping
        obtain ⟨W, D, sub, card, card', relogs⟩ := bmap_round mapping lt
        have subW : W ⊆ D ∪ indirectBlocks sb ip₁ := Finset.union_subset_left sub
        rw [mapping] at eq
        simp only [bind, Except.bind] at eq
        split at eq
        next failed =>
          cases eq
          refine ⟨same, W, D, subW, by omega, fun mapped => ?_, fun logged => ?_⟩
          · have := card' mapped
            omega
          · rw [writeLoop, if_pos more_left, relogs]
            simp only [bind, Except.bind, if_pos failed]
        next got =>
          split at eq
          next all =>
            obtain ⟨same', V, E, sub', cardE, -, relogs'⟩ :=
              ih (n - (tot + chunk off (n - tot))) (by omega) eq (by omega) rfl
            have left_eq : n - (tot + chunk off (n - tot)) = n - tot - chunk off (n - tot) := by
              omega
            rw [left_eq] at cardE
            have union := Finset.card_union_le D E
            refine ⟨fun there => ?_, W ∪ {addr} ∪ V, D ∪ E, ?_, by omega, fun mapped => ?_,
              fun logged => ?_⟩
            · rw [same' (by rw [same there]; exact there), same there]
            · have kept : indirectBlocks sb ip₁ ⊆ indirectBlocks sb ip' := indirectBlocks_mono same'
              refine Finset.union_subset (fun b mem => ?_) fun b mem => ?_
              · have place := sub mem
                simp only [Finset.mem_union] at place ⊢
                exact place.imp .inl fun inside => kept inside
              · have place := sub' mem
                simp only [Finset.mem_union] at place ⊢
                exact place.imp_left .inr
            · have := card' mapped
              omega
            · rw [writeLoop, if_pos more_left, relogs]
              simp only [bind, Except.bind, if_neg got, if_pos all]
              rw [← more_more, ← more_more, ← relogs', ← logWrite_relog]
              rfl
          next cut =>
            cases eq
            refine ⟨same, W, D, subW, by omega, fun mapped => ?_, fun logged => ?_⟩
            · have := card' mapped
              omega
            · rw [writeLoop, if_pos more_left, relogs]
              simp only [bind, Except.bind, if_neg got, if_neg cut]
              rfl
    next done =>
      cases eq
      refine ⟨fun _ => rfl, ∅, ∅, Finset.empty_subset _, Nat.zero_le _, fun _ => Nat.zero_le _,
        fun logged => ?_⟩
      rw [writeLoop, if_neg done, more_empty]

/-- A write of three blocks at most. -/
theorem writei_relog {r : Option Nat}
    (eq : writei sb inum ip src off n bufs = .ok (r, ip', bufs')) (few : n ≤ 3 * bsize)
    (whole : Whole ip bufs.cached ip.size) : ∃ W : Finset Nat, W.card ≤ maxOpBlocks ∧
      ∀ logged, writei sb inum ip src off n (bufs.relog logged) =
        .ok (r, ip', bufs'.relog (more logged W)) := by
  have bsize_eq : bsize = 1024 := rfl
  unfold writei at eq
  split at eq
  next bad =>
    cases eq
    refine ⟨∅, Nat.zero_le _, fun logged => ?_⟩
    rw [writei, if_pos bad, more_empty]
  next good =>
    split at eq
    next long =>
      cases eq
      refine ⟨∅, Nat.zero_le _, fun logged => ?_⟩
      rw [writei, if_neg good, if_pos long, more_empty]
    next short =>
      cases loop : writeLoop sb src n 0 off ip bufs with
      | error panic =>
        rw [loop] at eq
        cases eq
      | ok result =>
        obtain ⟨tot, off', ip₁, bufs₁⟩ := result
        have fits : off + (n - 0) ≤ maxfile * bsize := by omega
        obtain ⟨-, W, D, sub, card, card', relogs⟩ := writeLoop_relog loop fits
        rw [Nat.sub_zero] at card card'
        rw [loop] at eq
        cases eq
        obtain ⟨unaligned, aligned⟩ := rounds_le off few
        -- the block of a part of the file is there already
        have seven : D.card ≤ 7 := by
          by_cases start : off % bsize = 0
          · have := aligned start
            omega
          · have below : off / bsize < blocks ip.size := by
              simp only [blocks, bsize_eq] at start ⊢
              omega
            have := card' (whole _ below).2
            omega
        have blocks_le := Finset.card_le_card sub
        have union := Finset.card_union_le D (indirectBlocks sb ip₁)
        have indirect := indirectBlocks_card sb ip₁
        have inode := Finset.card_union_le W {sb.iblock inum}
        rw [Finset.card_singleton] at inode
        refine ⟨W ∪ {sb.iblock inum}, by simp only [maxOpBlocks]; omega, fun logged => ?_⟩
        rw [writei, if_neg good, if_neg short, relogs]
        simp only [bind, Except.bind]
        rw [← more_more, ← logWrite_relog]
        rfl

end Buffers

/-! ## The transactions of a call -/

namespace File

/-- What `filewrite` finds when `begin_op` has returned and the inode is locked. -/
structure Begun where
  i : Int
  off : Nat
  file : File

/-- `writei(f->ip, 1, addr + i, f->off, n1)` -/
def Begun.writei (sb : Layout) (inum : Nat) (addr : Source) (n : Int) (b : Begun)
    (bufs : Buffers) : Except Panic (Option Nat × Dinode × Buffers) :=
  Buffers.writei sb inum b.file.ip (fun k => addr (b.i.toNat + k)) b.off
    (min (n - b.i) Filewrite.maxBytes).toNat bufs

/-- The loop of `filewrite`, as the list of what it finds in each transaction.  Other processes
may change the offset and the file between two of them. -/
def transactions (sb : Layout) (inum : Nat) (addr : Source) (n : Int)
    (others : Int → Nat → File → Nat × File) : Nat → Begun → List Begun
  | 0, _ => []
  | fuel + 1, b =>
    if b.i < n then
      b :: match b.writei sb inum addr n b.file.bufs with
        | .ok (r, ip, bufs) =>
          let r := Filewrite.returned r
          let off := if 0 < r then (b.off + r.toNat) % 2 ^ 32 else b.off
          if r ≠ min (n - b.i) Filewrite.maxBytes then []
          else
            let next := others (b.i + r) off { ip := ip, bufs := bufs }
            transactions sb inum addr n others fuel
              { i := b.i + r, off := next.1, file := next.2 }
        | .error _ => []
    else []

variable {b t : Begun} {n : Int} {others : Int → Nat → File → Nat × File}

theorem maxBytes_le (n : Int) : (min n Filewrite.maxBytes).toNat ≤ 3 * bsize := by
  have bsize_eq : bsize = 1024 := rfl
  have maxBytes_eq : Filewrite.maxBytes = 3 * bsize := rfl
  omega

/-- A call of `writei` returns, and a file that is written as it should be has no holes. -/
theorem writei_ready {ip : Dinode} {bufs : Buffers} {n : Nat} (ready : Ready sb inum ip bufs)
    (src : Source) (off : Nat) (few : n ≤ 3 * bsize) : ∃ r ip' bufs',
      Buffers.writei sb inum ip src off n bufs = .ok (r, ip', bufs') ∧
        (r = some n → Ready sb inum ip' bufs') := by
  have bsize_eq : bsize = 1024 := rfl
  by_cases bad : ip.size < off ∨ (off + n) % 2 ^ 32 < off
  · exact ⟨none, ip, bufs, by rw [Buffers.writei, if_pos bad], by simp⟩
  · by_cases long : maxfile * bsize < (off + n) % 2 ^ 32
    · exact ⟨none, ip, bufs, by rw [Buffers.writei, if_neg bad, if_pos long], by simp⟩
    · have fits : off + n ≤ maxfile * bsize := by omega
      obtain ⟨tot, ip₁, bufs₁, bufs', written, -, wrote⟩ :=
        writei_wrote ready src (by omega) fits
      refine ⟨some tot, _, _, written, fun all => ?_⟩
      obtain rfl := Option.some.inj all
      exact (wrote.complete ready fits).1

/-- **A chunk fits into a transaction.**  Each transaction of a call of `filewrite` calls
    `log_write` on `MAXOPBLOCKS` blocks at most, which are the same whatever else the transaction
    has logged. -/
theorem transaction_fits (addr : Source) (fuel : Nat)
    (keeps : ∀ i off f, Ready sb inum f.ip f.bufs →
      Ready sb inum (others i off f).2.ip (others i off f).2.bufs)
    (ready : Ready sb inum b.file.ip b.file.bufs)
    (mem : t ∈ transactions sb inum addr n others fuel b) :
    ∃ W : Finset Nat, W.card ≤ maxOpBlocks ∧ ∃ r ip', ∃ bufs' : Buffers, ∀ logged,
      t.writei sb inum addr n (t.file.bufs.relog logged) =
        .ok (r, ip', bufs'.relog (Buffers.more logged W)) := by
  induction fuel generalizing b with
  | zero => cases mem
  | succ fuel ih =>
    rw [transactions] at mem
    split at mem
    next less =>
      obtain ⟨r, ip', bufs', written, next⟩ :=
        writei_ready ready (fun k => addr (b.i.toNat + k)) b.off (maxBytes_le (n - b.i))
      have written : b.writei sb inum addr n b.file.bufs = .ok (r, ip', bufs') := written
      rw [written] at mem
      cases mem with
      | head =>
        obtain ⟨W, card, relogs⟩ := Buffers.writei_relog written (maxBytes_le _) ready.whole
        exact ⟨W, card, r, ip', bufs', relogs⟩
      | tail _ mem =>
        simp only at mem
        split at mem
        next => cases mem
        next all =>
          refine ih (keeps _ _ { ip := ip', bufs := bufs' } (next ?_)) mem
          rw [not_not] at all
          cases r with
          | none =>
            simp only [Filewrite.returned] at all
            omega
          | some r =>
            simp only [Filewrite.returned] at all
            rw [← all, Int.toNat_natCast]
    next => cases mem

/-- The transaction of a call that writes behind the five bytes of `letters`. -/
def lettersBegun : Begun where
  i := 0
  off := 5
  file := { ip := letters, bufs := lettersBuffers }

/-- `BSIZE` bytes, for which the file gets another block. -/
theorem letters_grow : (lettersBegun.writei Mkfs.layout 2 (fun _ => some 98) 1024
    (lettersBuffers.relog fun _ => false)).toOption.map (fun done => (done.1, done.2.1.direct 1)) =
      some (some 1024, 48) := by
  decide +kernel

theorem transaction_fits_letters : ∃ W : Finset Nat, W.card ≤ maxOpBlocks ∧
    ∃ ip', ∃ bufs' : Buffers, ip'.direct 1 = 48 ∧ ∀ logged,
      lettersBegun.writei Mkfs.layout 2 (fun _ => some 98) 1024 (lettersBuffers.relog logged) =
        .ok (some 1024, ip', bufs'.relog (Buffers.more logged W)) := by
  have mem : lettersBegun ∈
      transactions Mkfs.layout 2 (fun _ => some 98) 1024 (fun _ off f => (off, f)) 1 lettersBegun := by
    rw [transactions, if_pos (by decide)]
    exact List.mem_cons_self
  obtain ⟨W, card, r, ip', bufs', written⟩ :=
    transaction_fits (fun _ => some 98) 1 (fun _ _ _ ready => ready) letters_ready mem
  have grow := letters_grow
  rw [show lettersBuffers = lettersBegun.file.bufs from rfl, written] at grow
  obtain ⟨result, block⟩ := Prod.mk.inj (Option.some.inj grow)
  refine ⟨W, card, ip', bufs', block, fun logged => ?_⟩
  rw [← result]
  exact written logged

end File

end Sistemas.Xv6.Fs
