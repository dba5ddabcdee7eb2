import Sistemas.Xv6.FsReadWrite
import Sistemas.Xv6.FsRuns

/-! # Writes that are cut short

A `writei` that reports fewer bytes than it was asked for has met the end of the disk or a
page of the user that cannot be read.  In the second case `either_copyin` has already copied
what comes before that page, and the buffer is given back without `log_write`.  So whoever
reads the file sees these bytes until the buffer is evicted, unless they are beyond the end of
the file or the same as those that are there (`Harmless`).
-/

namespace Sistemas.Xv6.Fs

variable {sb : Layout} {base : Nat → Dinode} {inum : Nat} {ip : Dinode} {bufs bufs₁ : Buffers}

/-! ## Buffers that go and come back -/

namespace Buffers

/-- The buffers show `shown`, or for block `b` what has been there before. -/
structure Later (shown : Blocks) (b : Nat) (old : Bytes) (bufs : Buffers) : Prop where
  cached : ∀ c, bufs.cached c = shown c ∨ c = b ∧ bufs.cached c = old
  disk : ∀ c, bufs.logged c = false → bufs.disk c = shown c ∨ c = b ∧ bufs.disk c = old

variable {shown : Blocks} {b : Nat} {old : Bytes}

theorem Later.happen (later : Later shown b old bufs) (event : Event) :
    Later shown b old (bufs.happen event) := by
  cases event with
  | evict c =>
    simp only [Buffers.happen]
    split
    next => exact later
    next free =>
      refine ⟨fun d => ?_, later.disk⟩
      by_cases here : d = c
      · subst here
        simpa using later.disk d (by simpa using free)
      · simpa [Function.update_of_ne here] using later.cached d
  | commit =>
    refine ⟨later.cached, fun d _ => ?_⟩
    simp only [Buffers.happen]
    cases pinned : bufs.logged d with
    | true => simpa using later.cached d
    | false => simpa using later.disk d pinned

theorem Later.run (later : Later shown b old bufs) (events : List Event) :
    Later shown b old (events.foldl Buffers.happen bufs) := by
  induction events generalizing bufs with
  | nil => exact later
  | cons event events ih => exact ih (later.happen event)

/-- One buffer has been changed behind the back of the log, and then another one with it. -/
theorem Later.start (coherent : bufs.Coherent) (b c : Nat) (data data' : Bytes) :
    Later (Function.update (Function.update bufs.cached b data) c data') b (bufs.cached b)
      (((bufs.change b data).change c data').logWrite c) := by
  refine ⟨fun d => .inl rfl, fun d free => ?_⟩
  by_cases last : d = c
  · subst last
    simp [logWrite] at free
  · have free' : bufs.logged d = false := by
      simpa [logWrite, Function.update_of_ne last] using free
    by_cases first : d = b
    · subst first
      exact .inr ⟨rfl, (coherent d free').symm⟩
    · left
      simpa [Function.update_of_ne last, Function.update_of_ne first] using
        (coherent d free').symm

end Buffers

/-! ## The contents afterwards -/

theorem address_size (block : Blocks) (size : Nat) :
    address { ip with size := size } block = address ip block := by
  funext fbn
  exact congrFun (held_congr (fun _ => rfl) (fun _ => rfl)) _

theorem contents_size (block : Blocks) (size : Nat) :
    contents { ip with size := size } block = contents ip block := by
  funext p
  rw [contents, contents, address_size]

/-- The addresses of a file are in its inode and in its indirect block. -/
theorem address_congr {block block' : Blocks}
    (same : ip.indirect ≠ 0 → block' ip.indirect = block ip.indirect) (fbn : Nat) :
    address ip block' fbn = address ip block fbn :=
  congrFun (held_block_congr fun _ nonzero => same nonzero) _

theorem Writing.indirect {off : Nat} {block : Blocks} (writing : Writing sb base inum off ip block)
    (nonzero : ip.indirect ≠ 0) : sb.nmeta ≤ ip.indirect ∧ ip.indirect < sb.size ∧
      ∀ fbn, address ip block fbn ≠ ip.indirect := by
  have held_eq : holding base inum ip block (.indirect inum) = ip.indirect := by simp [held]
  have range := writing.owns.range (held_eq.symm ▸ nonzero)
  rw [held_eq] at range
  refine ⟨range.1, range.2, fun fbn clash => ?_⟩
  rw [← holding_data base inum] at clash
  exact Slot.data_ne_indirect
    (writing.owns.once _ _ (clash ▸ nonzero) (clash.trans held_eq.symm))

/-- A buffer shows one thing or another. -/
def Either (sb : Layout) (block : Blocks) (addr : Nat) (data : Bytes) (later : Blocks) : Prop :=
  ∀ b, sb.nmeta ≤ b → b < sb.size → later b = block b ∨ b = addr ∧ later b = data

section Either

variable {off addr p : Nat} {block later : Blocks} {data : Bytes}
  (writing : Writing sb base inum off ip block)
  (notIndirect : ip.indirect ≠ 0 → addr ≠ ip.indirect) (either : Either sb block addr data later)

include writing notIndirect either

theorem address_either (fbn : Nat) : address ip later fbn = address ip block fbn := by
  apply address_congr
  intro nonzero
  have range := writing.indirect nonzero
  obtain same | ⟨clash, -⟩ := either _ range.1 range.2.1
  · exact same
  · exact absurd clash.symm (notIndirect nonzero)

theorem contents_either (inside : p < max ip.size off) :
    contents ip later p = contents ip block p ∨
      contents ip later p = contents ip (Function.update block addr data) p := by
  have mapped := (writing.whole _ (lt_blocks inside)).2
  have held : holding base inum ip block (.data inum (p / bsize)) ≠ 0 := by rwa [holding_data]
  have range := writing.owns.range held
  rw [holding_data] at range
  rw [contents, contents, contents, address_either writing notIndirect either]
  obtain same | ⟨here, same⟩ := either _ range.1 range.2
  · exact .inl (by rw [same])
  · right
    have updated : ip.indirect ≠ 0 →
        Function.update block addr data ip.indirect = block ip.indirect := by
      intro nonzero
      exact Function.update_of_ne (notIndirect nonzero).symm _ _
    rw [same, address_congr updated, here, Function.update_self]

end Either

theorem either_update (block : Blocks) (addr : Nat) (data : Bytes) :
    Either sb block addr data (Function.update block addr data) := by
  intro b _ _
  by_cases here : b = addr
  · subst here
    exact .inr ⟨rfl, Function.update_self _ _ _⟩
  · exact .inl (Function.update_of_ne here _ _)

/-- An inode block is not part of a file. -/
theorem contents_iupdate {off p : Nat} {block block' : Blocks} {data : Bytes}
    (writing : Writing sb base inum off ip block)
    (same : ∀ fbn, address ip block' fbn = address ip block fbn) (lt : inum < sb.ninodes)
    (inside : p < max ip.size off) :
    contents ip (Function.update block' (sb.iblock inum) data) p = contents ip block' p := by
  have mapped := (writing.whole _ (lt_blocks inside)).2
  have held : holding base inum ip block (.data inum (p / bsize)) ≠ 0 := by rwa [holding_data]
  have range := writing.owns.range held
  rw [holding_data] at range
  have low := iblock_low lt (Nat.zero_lt_of_lt range.2)
  have address_eq : address ip (Function.update block' (sb.iblock inum) data) (p / bsize) =
      address ip block' (p / bsize) := by
    apply address_congr
    intro nonzero
    have indirect := writing.indirect nonzero
    exact Function.update_of_ne (by omega) _ _
  rw [contents, contents, address_eq, same, Function.update_of_ne (by omega)]

/-! ## Short writes -/

/-- What `writei` should have done when it reports `tot` bytes, whatever happens to the buffers
    before the file is read. -/
structure ShortWrite (sb : Layout) (inum : Nat) (src : Source) (ip : Dinode) (bufs : Buffers)
    (off tot : Nat) (ip' : Dinode) (bufs' : Buffers) : Prop where
  size_eq : ip'.size = max ip.size (off + tot)
  -- the inode is on the disk too
  inode : ∀ events : List Buffers.Event,
    dinode sb (events.foldl Buffers.happen bufs').cached inum = ip'
  reads : ∀ (events : List Buffers.Event) (dst : Buffers.Sink) (off' n' : Nat),
    off' < 2 ^ 32 → n' < 2 ^ 32 →
    ∃ r bytes, Buffers.readi sb ip' dst off' n' (events.foldl Buffers.happen bufs') =
        .ok (r, bytes, ip', events.foldl Buffers.happen bufs') ∧
      Reads dst (readLength ip'.size off' n')
        (fun i => (contents ip bufs.cached).splice off tot (fun i => (src i).getD 0) (off' + i))
        r bytes

/-- The bytes before the first one that cannot be read, as far as they go to the same block and
    not beyond the end of the file, are already there. -/
def Harmless (src : Source) (ip : Dinode) (bufs : Buffers) (off n : Nat) : Prop :=
  ∀ f < n, (∀ l < f, (src l).isSome) → src f = none →
    ∀ i < f, (off + i) / bsize = (off + f) / bsize → off + i < ip.size →
      src i = some (contents ip bufs.cached (off + i))

section Write

variable {src : Source} {off n : Nat}

/-- The state in which `writei` is called. -/
structure Ready (sb : Layout) (inum : Nat) (ip : Dinode) (bufs : Buffers) : Prop where
  owned : Owned sb bufs.cached
  coherent : bufs.Coherent
  lt : inum < sb.ninodes
  lock : ilock sb inum bufs.cached = .ok ip

theorem Ready.writing (ready : Ready sb inum ip bufs) (start : off ≤ ip.size) :
    Writing sb (table sb bufs.cached) inum off ip bufs.cached := by
  obtain ⟨-, table_eq, -⟩ := table_of_ilock ready.lt ready.lock
  have same : Function.update (table sb bufs.cached) inum ip = table sb bufs.cached := by
    rw [table_eq, Function.update_eq_self]
  refine ⟨?_, ?_⟩
  · rw [holding, same]
    exact ready.owned.owns
  · intro other fbn below
    rw [holding, same]
    apply ready.owned.mapped
    by_cases here : other = inum
    · subst here
      rw [if_pos rfl, Nat.max_eq_left start] at below
      rwa [← table_eq]
    · rwa [if_neg here] at below

theorem writei_wrote (ready : Ready sb inum ip bufs) (src : Source) (start : off ≤ ip.size)
    (fits : off + n ≤ maxfile * bsize) :
    ∃ tot ip₁ bufs₁ bufs', Buffers.writei sb inum ip src off n bufs =
        .ok (some tot, { ip₁ with size := max ip.size (off + tot) },
          Buffers.iupdate sb inum { ip₁ with size := max ip.size (off + tot) } bufs') ∧
      Buffers.writeLoop sb src n 0 off ip bufs = .ok (tot, off + tot, ip₁, bufs') ∧
      Wrote sb (table sb bufs.cached) inum src n 0 off ip bufs tot ip₁ bufs₁ bufs' := by
  have small : maxfile * bsize < 2 ^ 32 := by decide
  obtain ⟨tot, ip₁, bufs₁, bufs', loop, wrote⟩ :=
    writeLoop_wrote src n 0 (ready.writing start) ready.coherent (Nat.zero_le _) (by omega)
  have size := wrote.kept.size
  rw [Nat.sub_zero] at loop
  have resize : (if ip₁.size < off + tot then { ip₁ with size := off + tot } else ip₁) =
      { ip₁ with size := max ip.size (off + tot) } := by
    split
    next grows => rw [Nat.max_eq_right (by omega)]
    next stays => rw [Nat.max_eq_left (by omega), ← size]
  refine ⟨tot, ip₁, bufs₁, bufs', ?_, loop, wrote⟩
  rw [Buffers.writei, if_neg (by rw [Nat.mod_eq_of_lt (by omega)]; omega),
    if_neg (by rw [Nat.mod_eq_of_lt (by omega)]; omega), loop]
  simp only [bind, Except.bind, resize]

/-- The block that has been written without the log: `k` bytes of it. -/
theorem Wrote.spoiled {tot : Nat} {ip₁ : Dinode} {bufs' : Buffers}
    (wrote : Wrote sb base inum src n 0 off ip bufs tot ip₁ bufs₁ bufs')
    (lt : inum < sb.ninodes) (fits : off + n ≤ maxfile * bsize) :
    ∃ addr data k, bufs' = bufs₁.change addr data ∧ addr ≠ sb.iblock inum ∧
      (ip₁.indirect ≠ 0 → addr ≠ ip₁.indirect) ∧
      (∀ p < max ip.size (off + tot), contents ip₁ (Function.update bufs₁.cached addr data) p =
        (contents ip₁ bufs₁.cached).splice (off + tot) k (fun i => (src (tot + i)).getD 0) p) ∧
      (k = 0 ∧ (tot < n → ip.size ≤ off + tot) ∨ tot < n ∧ k < chunk (off + tot) (n - tot) ∧
        (∀ i < k, (src (tot + i)).isSome) ∧ src (tot + k) = none) := by
  have writing := wrote.writing
  have ends := wrote.ends
  rw [Nat.sub_zero] at writing ends
  obtain ⟨rfl, end_⟩ | ⟨more, cut, mapped, rfl⟩ := ends
  · -- nothing is spoiled, not even a block that is not there
    let spare := sb.iblock inum + sb.size + 1
    refine ⟨spare, bufs'.cached spare, 0, ?_, by omega, ?_, ?_, .inl ⟨rfl, end_⟩⟩
    · simp [Buffers.change]
    · intro nonzero
      have range := writing.indirect nonzero
      omega
    · intro p _
      rw [Function.update_eq_self, Bytes.splice_outside (by omega)]
  · have le : tot ≤ n := more.le
    have inFile : (off + tot) / bsize < maxfile := by
      rw [Nat.div_lt_iff_lt_mul (by decide)]
      omega
    have held : holding base inum ip₁ bufs₁.cached (.data inum ((off + tot) / bsize)) ≠ 0 := by
      rwa [holding_data]
    have range := writing.owns.range held
    rw [holding_data] at range
    have low := iblock_low lt (Nat.zero_lt_of_lt range.2)
    have inBlock := chunk_inBlock (off + tot) (n - tot)
    refine ⟨_, _, readable src tot (chunk (off + tot) (n - tot)), rfl, by omega, ?_, ?_,
      .inr ⟨more, cut, fun i => isSome_of_lt_readable, src_readable cut⟩⟩
    · intro nonzero
      exact (writing.indirect nonzero).2.2 _
    · intro p inside
      have there := writing.whole _ (lt_blocks (by rwa [wrote.kept.size]))
      exact contents_write _ writing.owns inFile mapped (by omega) there.1 there.2

/-- What is there after `writei`, and whatever happens to the buffers after it. -/
theorem later_either (lt : inum < sb.ninodes) (coherent : bufs₁.Coherent)
    {addr : Nat} (data : Bytes) (ne : addr ≠ sb.iblock inum) (din : Dinode) (dinFits : din.Fits)
    (events : List Buffers.Event) :
    Either sb bufs₁.cached addr data
        (events.foldl Buffers.happen (Buffers.iupdate sb inum din (bufs₁.change addr data))).cached ∧
      dinode sb
        (events.foldl Buffers.happen (Buffers.iupdate sb inum din (bufs₁.change addr data))).cached
        inum = din := by
  have later := (Buffers.Later.start coherent addr (sb.iblock inum) data
    (din.store ((bufs₁.change addr data).cached (sb.iblock inum)) (inum % ipb))).run events
  constructor
  · intro b high inside
    have low := iblock_low lt (Nat.zero_lt_of_lt inside)
    obtain new | ⟨rfl, old⟩ := later.cached b
    · rw [Function.update_of_ne (by omega)] at new
      by_cases here : b = addr
      · subst here
        rw [Function.update_self] at new
        exact .inr ⟨rfl, new⟩
      · rw [Function.update_of_ne here] at new
        exact .inl new
    · exact .inl old
  · obtain new | ⟨clash, -⟩ := later.cached (sb.iblock inum)
    · rw [Function.update_self] at new
      rw [dinode]
      refine (congrArg (fun data => Dinode.load data (inum % ipb)) new).trans ?_
      exact Dinode.load_store dinFits
    · exact absurd clash.symm ne

/-- The blocks are there whatever happens. -/
theorem whole_either {addr : Nat} {data : Bytes} {later : Blocks}
    (writing : Writing sb base inum off ip bufs₁.cached)
    (notIndirect : ip.indirect ≠ 0 → addr ≠ ip.indirect)
    (either : Either sb bufs₁.cached addr data later) :
    Whole { ip with size := max ip.size off } later (max ip.size off) := by
  intro fbn below
  rw [address_size, address_either writing notIndirect either]
  exact writing.whole fbn below

theorem Reads.length_le {dst : Buffers.Sink} {len : Nat} {file : Nat → UInt8} {r : Option Nat}
    {bytes : List UInt8} (reads : Reads dst len file r bytes) : bytes.length ≤ len := by
  obtain ⟨-, all⟩ | ⟨-, cut, -⟩ := reads.ends
  · exact all.le
  · exact cut.le

theorem Reads.congr {dst : Buffers.Sink} {len : Nat} {file file' : Nat → UInt8} {r : Option Nat}
    {bytes : List UInt8} (reads : Reads dst len file r bytes)
    (same : ∀ i < len, file' i = file i) : Reads dst len file' r bytes := by
  refine ⟨fun i lt => ?_, reads.ends⟩
  rw [same i (lt.trans_le reads.length_le)]
  exact reads.bytes_eq i lt

theorem readLength_inside {size off n i : Nat} (lt : i < readLength size off n) :
    off + i < size := by
  unfold readLength at lt
  split at lt <;> omega

/-- The spoiled bytes are those that are there, as far as they can be seen. -/
theorem Harmless.spoiled {tot k p : Nat} {ip₁ : Dinode} {bufs' : Buffers}
    (harmless : Harmless src ip bufs off n)
    (wrote : Wrote sb base inum src n 0 off ip bufs tot ip₁ bufs₁ bufs')
    (inside : p < max ip.size (off + tot)) (kLt : k < chunk (off + tot) (n - tot))
    (isSome : ∀ i < k, (src (tot + i)).isSome) (isNone : src (tot + k) = none) :
    (contents ip₁ bufs₁.cached).splice (off + tot) k (fun i => (src (tot + i)).getD 0) p =
      contents ip₁ bufs₁.cached p := by
  by_cases new : off + tot ≤ p ∧ p < off + tot + k
  · have chunk_le := chunk_le (off + tot) (n - tot)
    have all : ∀ l < tot + k, (src l).isSome := by
      intro l lt
      by_cases before : l < tot
      · exact wrote.isSome l (Nat.zero_le _) before
      · rw [← Nat.add_sub_cancel' (show tot ≤ l by omega)]
        exact isSome _ (by omega)
    have first := (chunk_block (show p - (off + tot) < chunk (off + tot) (n - tot) by omega)).1
    have last := (chunk_block kLt).1
    have there := harmless (tot + k) (by omega) all isNone (p - off) (by omega)
      (by rw [show off + (p - off) = off + tot + (p - (off + tot)) by omega, first,
        ← Nat.add_assoc, last]) (by omega)
    rw [show off + (p - off) = p by omega] at there
    have eq := wrote.contents_eq p (by simpa using inside)
    rw [Nat.sub_zero, Bytes.splice_outside (by omega)] at eq
    simp only [Bytes.splice, new, and_self, if_true]
    rw [show tot + (p - (off + tot)) = p - off by omega, there, eq]
    rfl
  · exact Bytes.splice_outside (by omega)

theorem harmless_shortWrite (ready : Ready sb inum ip bufs) (start : off ≤ ip.size)
    (fits : off + n ≤ maxfile * bsize) (harmless : Harmless src ip bufs off n) {tot : Nat}
    {ip' : Dinode} {bufs' : Buffers}
    (result : Buffers.writei sb inum ip src off n bufs = .ok (some tot, ip', bufs')) :
    ShortWrite sb inum src ip bufs off tot ip' bufs' := by
  obtain ⟨tot, ip₁, bufs₁, spoiled, written, -, wrote⟩ := writei_wrote ready src start fits
  rw [written] at result
  cases result
  obtain ⟨addr, data, k, rfl, ne, notIndirect, contents_new, cut⟩ :=
    wrote.spoiled ready.lt fits
  obtain ⟨-, -, ipFits⟩ := table_of_ilock ready.lt ready.lock
  have writing := wrote.writing
  have size := wrote.kept.size
  have le_n := wrote.le_n
  rw [Nat.sub_zero] at writing
  have small : maxfile * bsize < 256 ^ 4 := by decide
  have sizeFits := ipFits.size
  have dinFits : { ip₁ with size := max ip.size (off + tot) }.Fits :=
    (wrote.kept.fits ipFits).resize (by omega)
  -- what is seen of the spoiled block is as it should be
  have agree : ∀ p < max ip.size (off + tot),
      contents ip₁ (Function.update bufs₁.cached addr data) p = contents ip₁ bufs₁.cached p := by
    intro p inside
    rw [contents_new p inside]
    obtain ⟨rfl, -⟩ | ⟨-, kLt, isSome, isNone⟩ := cut
    · exact Bytes.splice_outside (by omega)
    · exact harmless.spoiled wrote inside kLt isSome isNone
  refine ⟨rfl, fun events => (later_either ready.lt wrote.coherent data ne _ dinFits events).2,
    fun events dst off' n' offFits nFits => ?_⟩
  have either := (later_either ready.lt wrote.coherent data ne
    { ip₁ with size := max ip.size (off + tot) } dinFits events).1
  have whole := whole_either writing notIndirect either
  rw [size] at whole
  obtain ⟨r, bytes, read, reads⟩ := readi_reads sb dst offFits nFits whole
  refine ⟨r, bytes, read, reads.congr fun i lt => ?_⟩
  have inside : off' + i < max ip.size (off + tot) := readLength_inside lt
  have eq := wrote.contents_eq (off' + i) (by simpa using inside)
  simp only [Nat.sub_zero, Nat.zero_add] at eq
  refine eq.symm.trans (Eq.trans ?_ (congrFun (contents_size _ _).symm _))
  obtain same | same := contents_either writing notIndirect either (by rwa [size])
  · exact same.symm
  · rw [same, agree _ inside]

/-- A reader that comes right after `writei` sees the spoiled bytes. -/
theorem shortWrite_harmless (ready : Ready sb inum ip bufs) (start : off ≤ ip.size)
    (fits : off + n ≤ maxfile * bsize)
    (short : ∀ tot ip' bufs', Buffers.writei sb inum ip src off n bufs =
      .ok (some tot, ip', bufs') → tot < n → ShortWrite sb inum src ip bufs off tot ip' bufs') :
    Harmless src ip bufs off n := by
  intro f f_lt before isNone i i_lt together inside
  obtain ⟨tot, ip₁, bufs₁, spoiled, written, -, wrote⟩ := writei_wrote ready src start fits
  have bsize_eq : bsize = 1024 := rfl
  have tot_le : tot ≤ f := by
    by_contra beyond
    have some_f := wrote.isSome f (Nat.zero_le _) (by omega)
    rw [isNone] at some_f
    cases some_f
  -- all before `tot` is in blocks before the one of `f`
  have tot_le_i : tot ≤ i := by
    by_contra earlier
    have aligned := wrote.aligned (by omega) (by omega)
    simp only [bsize_eq, Nat.sub_zero] at aligned together
    omega
  obtain ⟨addr, data, k, rfl, ne, notIndirect, contents_new, cut⟩ := wrote.spoiled ready.lt fits
  obtain ⟨-, -, ipFits⟩ := table_of_ilock ready.lt ready.lock
  have writing := wrote.writing
  have size := wrote.kept.size
  rw [Nat.sub_zero] at writing
  obtain ⟨-, whole⟩ | ⟨-, kLt, isSome, isNone'⟩ := cut
  · have := whole (by omega)
    omega
  -- the copy has failed at `f`
  have f_eq : tot + k = f := by
    obtain lt | eq | gt := Nat.lt_trichotomy (tot + k) f
    · have some_k := before _ lt
      rw [isNone'] at some_k
      cases some_k
    · exact eq
    · have some_f := isSome (f - tot) (by omega)
      rw [Nat.add_sub_cancel' tot_le, isNone] at some_f
      cases some_f
  have result := short tot _ _ written (by omega)
  have small : maxfile * bsize < 2 ^ 32 := by decide
  obtain ⟨r, bytes, read, reads⟩ := result.reads [] (fun _ => true) (off + i) 1 (by omega)
    (by decide)
  have one : readLength (max ip.size (off + tot)) (off + i) 1 = 1 := by
    have sizeFits := ipFits.size
    unfold readLength
    rw [if_neg (by omega)]
    omega
  rw [one] at reads
  have length : bytes.length = 1 := by
    obtain ⟨-, all⟩ | ⟨-, -, refused⟩ := reads.ends
    · exact all
    · cases refused
  have dinFits : { ip₁ with size := max ip.size (off + tot) }.Fits := by
    have small : maxfile * bsize < 256 ^ 4 := by decide
    have sizeFits := ipFits.size
    exact (wrote.kept.fits ipFits).resize (by omega)
  have either := (later_either ready.lt wrote.coherent data ne
    { ip₁ with size := max ip.size (off + tot) } dinFits []).1
  have whole := whole_either writing notIndirect either
  rw [size] at whole
  obtain ⟨r', bytes', read', reads'⟩ := readi_reads sb (fun _ => true)
    (show off + i < 2 ^ 32 by omega) (show 1 < 2 ^ 32 by decide) whole
  obtain ⟨rfl, rfl⟩ : r = r' ∧ bytes = bytes' := by
    have both := read.symm.trans read'
    cases both
    exact ⟨rfl, rfl⟩
  -- the byte that is read is the one that has been copied, and it is the old one
  have seen := (reads.bytes_eq 0 (by omega)).symm.trans (reads'.bytes_eq 0 (by omega))
  have visible : off + i < max ip.size (off + tot) := by omega
  have copied : contents ip₁ (Function.update bufs₁.cached addr data) (off + i) =
      (src i).getD 0 := by
    rw [contents_new _ visible]
    simp only [Bytes.splice, show off + tot ≤ off + i ∧ off + i < off + tot + k by omega, and_self,
      if_true]
    rw [show tot + (off + i - (off + tot)) = i by omega]
  have shown : contents { ip₁ with size := max ip.size (off + tot) }
      (List.foldl Buffers.happen (Buffers.iupdate sb inum
        { ip₁ with size := max ip.size (off + tot) } (bufs₁.change addr data)) []).cached
        (off + i) = (src i).getD 0 := by
    refine (congrFun (contents_size _ _) _).trans (Eq.trans ?_ copied)
    exact contents_iupdate writing (address_either writing notIndirect (either_update _ _ _))
      ready.lt (by rwa [size])
  simp only [Nat.add_zero] at seen
  rw [shown, Bytes.splice_outside (by omega)] at seen
  obtain ⟨byte, here⟩ := Option.isSome_iff_exists.mp (before i i_lt)
  rw [here] at seen ⊢
  exact congrArg some seen.symm

/-- **Short writes.**  A `writei` that reports fewer bytes than it was asked for has changed
    nothing else, for whoever reads the file later and whatever happens to the buffers, if what
    it could not report was already there; and only then. -/
theorem shortWrite_iff_harmless (sb : Layout) (inum : Nat) (ip : Dinode) (bufs : Buffers)
    (src : Source) (off n : Nat) (ready : Ready sb inum ip bufs) (start : off ≤ ip.size)
    (nFits : n < 2 ^ 32) :
    (∀ tot ip' bufs', Buffers.writei sb inum ip src off n bufs = .ok (some tot, ip', bufs') →
      tot < n → ShortWrite sb inum src ip bufs off tot ip' bufs') ↔
    (off + n ≤ maxfile * bsize → Harmless src ip bufs off n) := by
  constructor
  · intro short fits
    exact shortWrite_harmless ready start fits short
  · intro harmless tot ip' bufs' written _
    by_cases fits : off + n ≤ maxfile * bsize
    · exact harmless_shortWrite ready start fits (harmless fits) written
    · -- the file would be too long, so nothing is written
      obtain ⟨-, -, ipFits⟩ := table_of_ilock ready.lt ready.lock
      have sizeFits := ipFits.size
      have rejected : Buffers.writei sb inum ip src off n bufs = .ok (none, ip, bufs) := by
        unfold Buffers.writei
        by_cases wraps : (off + n) % 2 ^ 32 < off
        · rw [if_pos (.inr wraps)]
        · rw [if_neg (by omega), if_pos (by omega)]
      rw [rejected] at written
      cases written

end Write

/-! ## A file of five letters -/

def rootDir : Dinode where
  type := tDir
  major := 0
  minor := 0
  nlink := 1
  size := bsize
  addrs := #v[46, 0, 0, 0, 0, 0, 0, 0, 0, 0, 0, 0, 0]

/-- `aaaaa` -/
def letters : Dinode where
  type := tFile
  major := 0
  minor := 0
  nlink := 1
  size := 5
  addrs := #v[47, 0, 0, 0, 0, 0, 0, 0, 0, 0, 0, 0, 0]

def lettersImage : Blocks := fun b =>
  if b = 32 then letters.store (rootDir.store zeroes rootino) 2
  else if b = 45 then Mkfs.State.bitmap 48
  else if b = 47 then fun _ => 97
  else zeroes

def lettersInodes : Nat → Dinode :=
  Function.update (Function.update (fun _ => .zero) rootino rootDir) 2 letters

theorem letters_fits : letters.Fits := by constructor <;> decide

theorem table_letters : table Mkfs.layout lettersImage = lettersInodes := by
  have fits : rootDir.Fits := by constructor <;> decide
  have ninodes_eq : Mkfs.layout.ninodes = 200 := rfl
  funext inum
  unfold table
  by_cases lt : inum < Mkfs.layout.ninodes
  · have iblock_eq : Mkfs.layout.iblock inum = inum / 16 + 32 := rfl
    have dinode_eq : dinode Mkfs.layout lettersImage inum = lettersInodes inum := by
      rw [dinode, iblock_eq, lettersInodes]
      by_cases first : inum / 16 = 0
      · have slot : inum % ipb = inum := Nat.mod_eq_of_lt (show inum < 16 by omega)
        rw [first, slot]
        simp only [lettersImage, Nat.zero_add, if_true]
        by_cases file : inum = 2
        · subst file
          rw [Function.update_self, Dinode.load_store letters_fits]
        · rw [Function.update_of_ne file, Dinode.load_store_ne file]
          by_cases dir : inum = rootino
          · subst dir
            rw [Function.update_self, Dinode.load_store fits]
          · rw [Function.update_of_ne dir, Dinode.load_store_ne dir, Dinode.load_zeroes]
      · have empty : lettersImage (inum / 16 + 32) = zeroes := by
          simp only [lettersImage, show inum / 16 + 32 ≠ 32 by omega,
            show inum / 16 + 32 ≠ 45 by omega, show inum / 16 + 32 ≠ 47 by omega, if_false]
        have notFile : inum ≠ 2 := by omega
        have notDir : inum ≠ rootino := by simp only [rootino]; omega
        rw [empty, Function.update_of_ne notFile, Function.update_of_ne notDir,
          Dinode.load_zeroes]
    by_cases typed : (lettersInodes inum).type = 0
    · rw [dinode_eq, if_neg (by simp [typed])]
      by_cases file : inum = 2
      · subst file
        simp [lettersInodes, letters, tFile] at typed
      · by_cases dir : inum = rootino
        · subst dir
          simp [lettersInodes, rootDir, tDir, rootino] at typed
        · rw [lettersInodes, Function.update_of_ne file, Function.update_of_ne dir]
    · rw [dinode_eq, if_pos ⟨lt, typed⟩]
  · have notFile : inum ≠ 2 := by omega
    have notDir : inum ≠ rootino := by simp only [rootino]; omega
    rw [if_neg (by simp [lt]), lettersInodes, Function.update_of_ne notFile,
      Function.update_of_ne notDir]

theorem held_letters (slot : Slot) : held lettersInodes lettersImage slot =
    if slot = .direct rootino 0 then 46 else if slot = .direct 2 0 then 47 else 0 := by
  have dir : ∀ i, rootDir.direct i = if i = 0 then 46 else 0 := by decide
  have file : ∀ i, letters.direct i = if i = 0 then 47 else 0 := by decide
  have none' : ∀ inum, (lettersInodes inum).indirect = 0 := by
    intro inum
    simp only [lettersInodes, Function.update_apply]
    split
    · rfl
    · split <;> rfl
  cases slot with
  | direct inum i =>
    simp only [held, lettersInodes, Function.update_apply, Slot.direct.injEq]
    by_cases isFile : inum = 2
    · subst isFile
      simp [file, rootino]
    · by_cases isDir : inum = rootino
      · subst isDir
        simp [dir, rootino]
      · simp [isFile, isDir, zero_direct]
  | indirect inum => simp [held, none']
  | entry inum j => simp [held, none']

theorem letters_owned : Owned Mkfs.layout lettersImage := by
  have size_eq : Mkfs.layout.size = 2000 := rfl
  have nmeta_eq : Mkfs.layout.nmeta = 46 := rfl
  have bit_eq : ∀ b < 2000, bit Mkfs.layout lettersImage b = decide (b < 48) := by
    intro b lt
    have bblock_eq : Mkfs.layout.bblock b = b / 8192 + 45 := rfl
    have small : b % bpb = b := Nat.mod_eq_of_lt (show b < 8192 by omega)
    rw [bit, bblock_eq, show b / 8192 + 45 = 45 by omega, small, ← Mkfs.bitmap_bit]
    rfl
  have ne : Slot.direct 2 0 ≠ .direct rootino 0 := by decide
  have held_eq : ∀ slot, held (table Mkfs.layout lettersImage) lettersImage slot =
      if slot = .direct rootino 0 then 46 else if slot = .direct 2 0 then 47 else 0 := by
    rw [table_letters]
    exact held_letters
  constructor
  · intro s t nonzero same
    rw [held_eq] at nonzero
    rw [held_eq, held_eq] at same
    grind
  · intro s nonzero
    rw [held_eq] at nonzero ⊢
    grind
  · intro b high low
    rw [bit_eq b low]
    constructor
    · intro lt
      simp only [decide_eq_true_eq] at lt
      obtain rfl | rfl : b = 46 ∨ b = 47 := by omega
      · exact ⟨.direct rootino 0, by rw [held_eq, if_pos rfl]⟩
      · exact ⟨.direct 2 0, by rw [held_eq, if_neg ne, if_pos rfl]⟩
    · rintro ⟨s, eq⟩
      rw [held_eq] at eq
      simp only [decide_eq_true_eq]
      grind
  · intro b lt
    rw [bit_eq b (by omega)]
    simp only [decide_eq_true_eq]
    omega
  · intro inum fbn below
    rw [held_eq]
    rw [table_letters, lettersInodes] at below
    by_cases file : inum = 2
    · subst file
      rw [Function.update_self] at below
      obtain rfl : fbn = 0 := Nat.lt_one_iff.mp below
      exact ⟨by decide, by decide⟩
    · rw [Function.update_of_ne file] at below
      by_cases dir : inum = rootino
      · subst dir
        rw [Function.update_self] at below
        obtain rfl : fbn = 0 := Nat.lt_one_iff.mp below
        exact ⟨by decide, by decide⟩
      · rw [Function.update_of_ne dir] at below
        exact absurd below (Nat.not_lt_zero _)

/-- The buffers after a start. -/
def lettersBuffers : Buffers where
  cached := lettersImage
  disk := lettersImage
  logged := fun _ => false

theorem letters_ready : Ready Mkfs.layout 2 letters lettersBuffers where
  owned := letters_owned
  coherent := fun _ _ => rfl
  lt := by decide
  lock := by
    have stored : dinode Mkfs.layout lettersImage 2 = letters :=
      @Dinode.load_store letters (rootDir.store zeroes rootino) 2 letters_fits
    simp only [ilock, lettersBuffers, stored]
    rw [if_neg (by decide)]

theorem letters_contents {p : Nat} (lt : p < bsize) :
    contents letters lettersBuffers.cached p = 97 := by
  have block : p / bsize = 0 := Nat.div_eq_of_lt lt
  have address_eq : address letters lettersBuffers.cached 0 = 47 := by decide
  rw [contents, block, address_eq]
  rfl

/-- Three bytes that differ from what is there, and then a page that cannot be read. -/
theorem badBuffer_not_shortWrite : ∃ tot ip' bufs',
    Buffers.writei Mkfs.layout 2 letters badBuffer 0 5 lettersBuffers =
      .ok (some tot, ip', bufs') ∧ tot < 5 ∧
    ¬ ShortWrite Mkfs.layout 2 badBuffer letters lettersBuffers 0 tot ip' bufs' := by
  have start : 0 ≤ letters.size := Nat.zero_le _
  have fits : 0 + 5 ≤ maxfile * bsize := by decide
  have harmful : ¬ Harmless badBuffer letters lettersBuffers 0 5 := by
    intro harmless
    have here := harmless 3 (by decide) (by decide) rfl 0 (by decide) rfl (by decide)
    rw [letters_contents (by decide)] at here
    cases here
  by_contra all
  push Not at all
  exact harmful (shortWrite_harmless letters_ready start fits all)

/-- The same bytes as in the file, and then a page that cannot be read. -/
def goodBuffer : Source := fun i => if i < 3 then some 97 else none

theorem shortWrite_iff_harmless_letters : ∃ tot ip' bufs',
    Buffers.writei Mkfs.layout 2 letters goodBuffer 0 5 lettersBuffers =
      .ok (some tot, ip', bufs') ∧ tot < 5 ∧
    ShortWrite Mkfs.layout 2 goodBuffer letters lettersBuffers 0 tot ip' bufs' := by
  have start : 0 ≤ letters.size := Nat.zero_le _
  have good : ∀ i < 3, goodBuffer i = some 97 := by decide
  have harmless : Harmless goodBuffer letters lettersBuffers 0 5 := by
    intro f f_lt before isNone i i_lt _ _
    have few : f ≤ 3 := by
      by_contra more
      have three := before 3 (by omega)
      cases three
    have inside : 0 + i < bsize := by
      have : bsize = 1024 := rfl
      omega
    rw [good i (by omega), letters_contents inside]
  obtain ⟨tot, ip₁, bufs₁, bufs', written, -, wrote⟩ :=
    writei_wrote letters_ready goodBuffer start (show 0 + 5 ≤ maxfile * bsize by decide)
  have short : tot < 5 := by
    by_contra all
    have there := wrote.isSome 3 (Nat.zero_le _) (by omega)
    cases there
  exact ⟨tot, _, _, written, short, (shortWrite_iff_harmless Mkfs.layout 2 letters lettersBuffers
    goodBuffer 0 5 letters_ready start (by decide)).mpr (fun _ => harmless) tot _ _ written short⟩

end Sistemas.Xv6.Fs
