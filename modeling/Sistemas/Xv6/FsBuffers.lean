import Sistemas.Xv6.FsContents

/-! # Inode contents above the buffer cache

`writei` and `readi` of `fs.c`, with what they call, on the buffers of `bio.c` and the blocks
of the disk under them.  A buffer that is changed stays as it is until it is evicted, and only
what `log_write` is told of gets to the disk.  As long as every change is logged the two say
the same (`Coherent`), and what the buffers show is what the functions of `Fs` compute
(`bmap_shows`).
-/

namespace Sistemas.Xv6.Fs

structure Buffers where
  -- what `bread` shows
  cached : Blocks
  -- the disk, with the committed transactions installed
  disk : Blocks
  -- the blocks in `log.lh`, whose buffers are pinned
  logged : Nat → Bool

namespace Buffers

/-- A change of `bp->data`. -/
def change (b : Nat) (data : Bytes) (bufs : Buffers) : Buffers :=
  { bufs with cached := Function.update bufs.cached b data }

def logWrite (b : Nat) (bufs : Buffers) : Buffers :=
  { bufs with logged := Function.update bufs.logged b true }

/-- What happens to the buffers between two calls. -/
inductive Event
  -- `bget` takes the buffer for another block, and a later `bread` reads the disk
  | evict (b : Nat)
  -- `commit`: the pinned buffers go to the log and from there to their places
  | commit

def happen (bufs : Buffers) : Event → Buffers
  | .evict b => if bufs.logged b then bufs else bufs.change b (bufs.disk b)
  | .commit =>
    { cached := bufs.cached
      disk := fun b => if bufs.logged b then bufs.cached b else bufs.disk b
      logged := fun _ => false }

/-- A buffer that is not pinned can be read again. -/
def Coherent (bufs : Buffers) : Prop := ∀ b, bufs.logged b = false → bufs.cached b = bufs.disk b

/-! ## The functions of fs.c -/

section

variable (sb : Layout)

def bzero (b : Nat) (bufs : Buffers) : Buffers := (bufs.change b zeroes).logWrite b

def balloc (bufs : Buffers) : Nat × Buffers :=
  match (List.range ((sb.size + bpb - 1) / bpb)).findSome?
      fun k => scan sb bufs.cached (k * bpb) with
  | some b =>
    let bp := sb.bblock b
    (b, ((bufs.change bp ((bufs.cached bp).setBit (b % bpb))).logWrite bp).bzero b)
  | none => (0, bufs)

def iupdate (inum : Nat) (ip : Dinode) (bufs : Buffers) : Buffers :=
  let bp := sb.iblock inum
  (bufs.change bp (ip.store (bufs.cached bp) (inum % ipb))).logWrite bp

/-- `bn < NDIRECT` -/
def bmapDirect (ip : Dinode) (i : Fin 12) (bufs : Buffers) : Nat × Dinode × Buffers :=
  if ip.direct i = 0 then
    let (addr, bufs) := balloc sb bufs
    if addr = 0 then (0, ip, bufs) else (addr, ip.setDirect i addr, bufs)
  else (ip.direct i, ip, bufs)

def bmapIndirect (ip : Dinode) (bufs : Buffers) : Nat × Dinode × Buffers :=
  if ip.indirect = 0 then
    let (addr, bufs) := balloc sb bufs
    if addr = 0 then (0, ip, bufs) else (addr, ip.setIndirect addr, bufs)
  else (ip.indirect, ip, bufs)

def bmapEntry (ind bn : Nat) (bufs : Buffers) : Nat × Buffers :=
  let a := word (bufs.cached ind)
  if a bn = 0 then
    let (addr, bufs) := balloc sb bufs
    if addr = 0 then (0, bufs)
    else (addr, (bufs.change ind (setWord (bufs.cached ind) bn addr)).logWrite ind)
  else (a bn, bufs)

def bmap (ip : Dinode) (bn : Nat) (bufs : Buffers) : Except Panic (Nat × Dinode × Buffers) :=
  if lt : bn < 12 then .ok (bmapDirect sb ip ⟨bn, lt⟩ bufs)
  else if bn - ndirect < nindirect then
    let (ind, ip, bufs) := bmapIndirect sb ip bufs
    if ind = 0 then .ok (0, ip, bufs)
    else
      let (addr, bufs) := bmapEntry sb ind (bn - ndirect) bufs
      .ok (addr, ip, bufs)
  else .error .bmapOutOfRange

/-- `either_copyin` to the buffer: as many of the `m` bytes as can be read. -/
def copyin (src : Source) (tot off m addr : Nat) (bufs : Buffers) : Buffers :=
  bufs.change addr ((bufs.cached addr).splice (off % bsize) (readable src tot m)
    fun i => (src (tot + i)).getD 0)

/-- The loop of `writei`: `tot`, `off`, the inode and the buffers at its end. -/
def writeLoop (src : Source) (n tot off : Nat) (ip : Dinode) (bufs : Buffers) :
    Except Panic (Nat × Nat × Dinode × Buffers) :=
  if tot < n then do
    let (addr, ip, bufs) ← bmap sb ip (off / bsize) bufs
    if addr = 0 then .ok (tot, off, ip, bufs)
    else
      let m := chunk off (n - tot)
      let bufs := bufs.copyin src tot off m addr
      -- a failing copy leaves without `log_write`
      if readable src tot m = m then
        writeLoop src n (tot + m) (off + m) ip (bufs.logWrite addr)
      else .ok (tot, off, ip, bufs)
  else .ok (tot, off, ip, bufs)
termination_by n - tot
decreasing_by
  have := chunk_pos off (Nat.sub_pos_of_lt ‹tot < n›)
  omega

/-- `none` stands for the result `-1`. -/
def writei (inum : Nat) (ip : Dinode) (src : Source) (off n : Nat) (bufs : Buffers) :
    Except Panic (Option Nat × Dinode × Buffers) :=
  if ip.size < off ∨ (off + n) % 2 ^ 32 < off then .ok (none, ip, bufs)
  else if maxfile * bsize < (off + n) % 2 ^ 32 then .ok (none, ip, bufs)
  else do
    let (tot, off, ip, bufs) ← writeLoop sb src n 0 off ip bufs
    let ip := if ip.size < off then { ip with size := off } else ip
    .ok (some tot, ip, iupdate sb inum ip bufs)

/-- The addresses that a reader can write to. -/
abbrev Sink := Nat → Bool

/-- How many of the `m` bytes at `tot` can be written. -/
def writable (dst : Sink) (tot m : Nat) : Nat :=
  ((List.range m).takeWhile fun i => dst (tot + i)).length

/-- The loop of `readi`: its result (`none` for `-1`) and the bytes it has copied out. -/
def readLoop (dst : Sink) (n tot off : Nat) (ip : Dinode) (bufs : Buffers) :
    Except Panic (Option Nat × List UInt8 × Dinode × Buffers) :=
  if tot < n then do
    let (addr, ip, bufs) ← bmap sb ip (off / bsize) bufs
    if addr = 0 then .ok (some tot, [], ip, bufs)
    else
      let m := chunk off (n - tot)
      let k := writable dst tot m
      let bytes := (List.range k).map fun i => bufs.cached addr (off % bsize + i)
      if k = m then do
        let (tot, rest, ip, bufs) ← readLoop dst n (tot + m) (off + m) ip bufs
        .ok (tot, bytes ++ rest, ip, bufs)
      else .ok (none, bytes, ip, bufs)
  else .ok (some tot, [], ip, bufs)
termination_by n - tot
decreasing_by
  have := chunk_pos off (Nat.sub_pos_of_lt ‹tot < n›)
  omega

def readi (ip : Dinode) (dst : Sink) (off n : Nat) (bufs : Buffers) :
    Except Panic (Option Nat × List UInt8 × Dinode × Buffers) :=
  if ip.size < off ∨ (off + n) % 2 ^ 32 < off then .ok (some 0, [], ip, bufs)
  else
    let n := if ip.size < (off + n) % 2 ^ 32 then ip.size - off else n
    readLoop sb dst n 0 off ip bufs

end

/-! ## What the buffers show -/

variable {sb : Layout} {bufs bufs' : Buffers} {ip ip' : Dinode} {b addr bn : Nat} {data : Bytes}

@[simp] theorem change_cached :
    (bufs.change b data).cached = Function.update bufs.cached b data := rfl

@[simp] theorem logWrite_cached : (bufs.logWrite b).cached = bufs.cached := rfl

@[simp] theorem change_disk : (bufs.change b data).disk = bufs.disk := rfl

@[simp] theorem logWrite_disk : (bufs.logWrite b).disk = bufs.disk := rfl

@[simp] theorem change_logged : (bufs.change b data).logged = bufs.logged := rfl

/-- A change that is logged. -/
theorem Coherent.write (coherent : bufs.Coherent) (b : Nat) (data : Bytes) :
    ((bufs.change b data).logWrite b).Coherent := by
  intro c free
  by_cases here : c = b
  · subst here
    simp [logWrite] at free
  · have free' : bufs.logged c = false := by
      simpa [logWrite, Function.update_of_ne here] using free
    simpa [Function.update_of_ne here] using coherent c free'

/-- The buffers show `block'`, and they are coherent if they have been before. -/
structure Shows (bufs bufs' : Buffers) (block' : Blocks) : Prop where
  cached : bufs'.cached = block'
  coherent : bufs.Coherent → bufs'.Coherent

theorem Shows.refl : Shows bufs bufs bufs.cached := ⟨rfl, id⟩

theorem Shows.trans {bufs'' : Buffers} {block' block'' : Blocks} (first : Shows bufs bufs' block')
    (second : Shows bufs' bufs'' block'') : Shows bufs bufs'' block'' :=
  ⟨second.cached, second.coherent ∘ first.coherent⟩

theorem Shows.write (b : Nat) (data : Bytes) :
    Shows bufs ((bufs.change b data).logWrite b) (Function.update bufs.cached b data) :=
  ⟨rfl, fun coherent => coherent.write b data⟩

theorem iupdate_shows (inum : Nat) (ip : Dinode) (bufs : Buffers) :
    Shows bufs (iupdate sb inum ip bufs) (Fs.iupdate sb inum ip bufs.cached) :=
  .write _ _

section

variable {block' : Blocks}

theorem balloc_shows (here : Fs.balloc sb bufs.cached = (addr, block')) :
    ∃ bufs', balloc sb bufs = (addr, bufs') ∧ Shows bufs bufs' block' := by
  unfold Fs.balloc at here
  unfold balloc
  cases found : (List.range ((sb.size + bpb - 1) / bpb)).findSome?
      fun k => scan sb bufs.cached (k * bpb) with
  | some b =>
    simp only [found] at here ⊢
    cases here
    exact ⟨_, rfl, (Shows.write _ _).trans (.write addr zeroes)⟩
  | none =>
    simp only [found] at here ⊢
    cases here
    exact ⟨bufs, rfl, .refl⟩

theorem bmapDirect_shows {i : Fin 12}
    (here : Fs.bmapDirect sb ip i bufs.cached = (addr, ip', block')) :
    ∃ bufs', bmapDirect sb ip i bufs = (addr, ip', bufs') ∧ Shows bufs bufs' block' := by
  unfold Fs.bmapDirect at here
  unfold bmapDirect
  split at here
  next empty =>
    generalize alloc : Fs.balloc sb bufs.cached = result at here
    obtain ⟨addr₁, block₁⟩ := result
    obtain ⟨bufs', alloc', shows'⟩ := balloc_shows alloc
    rw [if_pos empty, alloc']
    simp only at here ⊢
    split at here
    next failed =>
      cases here
      exact ⟨bufs', by rw [if_pos failed], shows'⟩
    next found =>
      cases here
      exact ⟨bufs', by rw [if_neg found], shows'⟩
  next full =>
    cases here
    exact ⟨bufs, by rw [if_neg full], .refl⟩

theorem bmapIndirect_shows (here : Fs.bmapIndirect sb ip bufs.cached = (addr, ip', block')) :
    ∃ bufs', bmapIndirect sb ip bufs = (addr, ip', bufs') ∧ Shows bufs bufs' block' := by
  unfold Fs.bmapIndirect at here
  unfold bmapIndirect
  split at here
  next empty =>
    generalize alloc : Fs.balloc sb bufs.cached = result at here
    obtain ⟨addr₁, block₁⟩ := result
    obtain ⟨bufs', alloc', shows'⟩ := balloc_shows alloc
    rw [if_pos empty, alloc']
    simp only at here ⊢
    split at here
    next failed =>
      cases here
      exact ⟨bufs', by rw [if_pos failed], shows'⟩
    next found =>
      cases here
      exact ⟨bufs', by rw [if_neg found], shows'⟩
  next full =>
    cases here
    exact ⟨bufs, by rw [if_neg full], .refl⟩

theorem bmapEntry_shows {ind : Nat} (here : Fs.bmapEntry sb ind bn bufs.cached = (addr, block')) :
    ∃ bufs', bmapEntry sb ind bn bufs = (addr, bufs') ∧ Shows bufs bufs' block' := by
  unfold Fs.bmapEntry at here
  unfold bmapEntry
  simp only at here ⊢
  split at here
  next empty =>
    generalize alloc : Fs.balloc sb bufs.cached = result at here
    obtain ⟨addr₁, block₁⟩ := result
    obtain ⟨bufs', alloc', shows'⟩ := balloc_shows alloc
    rw [if_pos empty, alloc']
    simp only at here ⊢
    split at here
    next failed =>
      cases here
      exact ⟨bufs', by rw [if_pos failed], shows'⟩
    next found =>
      cases here
      refine ⟨_, by rw [if_neg found], ?_⟩
      rw [← shows'.cached]
      exact ⟨rfl, fun coherent => (shows'.coherent coherent).write _ _⟩
  next full =>
    cases here
    exact ⟨bufs, by rw [if_neg full], .refl⟩

/-- The buffers show what `bmap` of `Fs` computes. -/
theorem bmap_shows (here : Fs.bmap sb ip bn bufs.cached = .ok (addr, ip', block')) :
    ∃ bufs', bmap sb ip bn bufs = .ok (addr, ip', bufs') ∧ Shows bufs bufs' block' := by
  unfold Fs.bmap at here
  unfold bmap
  split at here
  next lt =>
    obtain ⟨bufs', direct, shows'⟩ := bmapDirect_shows (Except.ok.inj here)
    exact ⟨bufs', by rw [dif_pos lt, direct], shows'⟩
  next notDirect =>
    rw [dif_neg notDirect]
    split at here
    next inside =>
      rw [if_pos inside]
      generalize indirect : Fs.bmapIndirect sb ip bufs.cached = result at here
      obtain ⟨ind, ip₁, block₁⟩ := result
      obtain ⟨bufs₁, indirect', shows₁⟩ := bmapIndirect_shows indirect
      rw [indirect']
      simp only at here ⊢
      split at here
      next failed =>
        cases here
        exact ⟨bufs₁, by rw [if_pos failed], shows₁⟩
      next found =>
        generalize entry : Fs.bmapEntry sb ind (bn - ndirect) block₁ = result at here
        obtain ⟨addr₂, block₂⟩ := result
        rw [← shows₁.cached] at entry
        obtain ⟨bufs₂, entry', shows₂⟩ := bmapEntry_shows entry
        cases here
        exact ⟨bufs₂, by rw [if_neg found, entry'], shows₁.trans shows₂⟩
    next => cases here

end

end Buffers

end Sistemas.Xv6.Fs
