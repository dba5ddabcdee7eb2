import Sistemas.Transition.Run
import Sistemas.Xv6.FsSpace

/-! # Files as sequences of bytes

What `writei` and `readi` do to a file is what `Call.spec` does to a list of bytes, whatever is
written back or evicted between the calls.
-/

namespace Sistemas.Xv6.Fs

open Sistemas.Transition

variable {sb : Layout} {inum : Nat} {ip : Dinode}

/-! ## Between the calls -/

theorem Buffers.Coherent.happen {bufs : Buffers} (coherent : bufs.Coherent) (e : Buffers.Event) :
    (bufs.happen e).cached = bufs.cached ∧ (bufs.happen e).Coherent := by
  cases e with
  | evict b =>
    simp only [Buffers.happen]
    split
    next => exact ⟨rfl, coherent⟩
    next free =>
      have same : bufs.cached b = bufs.disk b := coherent b (by simpa using free)
      have kept : (bufs.change b (bufs.disk b)).cached = bufs.cached := by
        rw [Buffers.change_cached, ← same, Function.update_eq_self]
      refine ⟨kept, fun c unlogged => ?_⟩
      rw [kept]
      exact coherent c unlogged
  | commit =>
    refine ⟨rfl, fun b _ => ?_⟩
    by_cases logged : bufs.logged b
    · simp [Buffers.happen, logged]
    · simpa [Buffers.happen, logged] using coherent b (by simpa using logged)

theorem Ready.happen {bufs : Buffers} (ready : Ready sb inum ip bufs)
    (e : Buffers.Event) : Ready sb inum ip (bufs.happen e) := by
  obtain ⟨same, coherent⟩ := ready.coherent.happen e
  exact ⟨same ▸ ready.owned, coherent, ready.lt, same ▸ ready.lock⟩

theorem Ready.whole {bufs : Buffers} (ready : Ready sb inum ip bufs) :
    Whole ip bufs.cached ip.size := by
  have whole := (ready.writing (Nat.le_refl ip.size)).whole
  rwa [Nat.max_self] at whole

/-- A file that has all its blocks is not longer than its inode can say. -/
theorem whole_size {block : Blocks} (whole : Whole ip block ip.size) : ip.size ≤ maxfile * bsize := by
  have bsize_eq : bsize = 1024 := rfl
  by_contra longer
  have last := (whole maxfile (by simp only [blocks, bsize_eq] at longer ⊢; omega)).1
  exact absurd last (Nat.lt_irrefl _)

/-- A locked inode, and the buffers. -/
structure File where
  ip : Dinode
  bufs : Buffers

namespace File

def bytes (f : File) : List UInt8 := (List.range f.ip.size).map (contents f.ip f.bufs.cached)

/-! ## The calls -/

inductive Call
  | writei (off : Nat) (data : List UInt8)
  | readi (off n : Nat) (dst : Buffers.Sink)
  -- no call, but something happens to the buffers
  | event (e : Buffers.Event)

inductive Result
  | wrote (r : Option Nat)
  -- with the bytes that have been copied out
  | read (r : Option Nat) (copied : List UInt8)
deriving DecidableEq

def source (data : List UInt8) : Source := fun i => data[i]?

section

variable (sb inum)

def call (f : File) : Call → Except Panic (Option Result × File)
  | .writei off data => do
    let (r, ip, bufs) ← Buffers.writei sb inum f.ip (source data) off data.length f.bufs
    .ok (some (.wrote r), { ip := ip, bufs := bufs })
  | .readi off n dst => do
    let (r, copied, ip, bufs) ← Buffers.readi sb f.ip dst off n f.bufs
    .ok (some (.read r copied), { ip := ip, bufs := bufs })
  | .event e => .ok (none, { f with bufs := f.bufs.happen e })

def step (f : File) (c : Call) : Option File :=
  match call sb inum f c with
  | .ok (_, f) => some f
  | .error _ => none

def obs (f : File) (c : Call) : Option Result :=
  match call sb inum f c with
  | .ok (r, _) => r
  | .error _ => none

/-- A call that is not cut short by a lack of blocks, or by memory that cannot be written. -/
def Successful (f : File) : Call → Prop
  | .writei off data => ∀ tot g,
      call sb inum f (.writei off data) = .ok (some (.wrote (some tot)), g) → tot = data.length
  | .readi off n dst => ∀ r copied g,
      call sb inum f (.readi off n dst) = .ok (some (.read r copied), g) → r ≠ none
  | .event _ => True

end

/-- The arguments are of 32 bits. -/
def Call.Fits : Call → Prop
  | .writei off data => off < 2 ^ 32 ∧ data.length < 2 ^ 32
  | .readi off n _ => off < 2 ^ 32 ∧ n < 2 ^ 32
  | .event _ => True

/-! ## The same calls on a list of bytes -/

/-- `writei` does not accept these. -/
def Refused (bytes : List UInt8) (off n : Nat) : Prop :=
  bytes.length < off ∨ 2 ^ 32 ≤ off + n ∨ maxfile * bsize < off + n

instance (bytes : List UInt8) (off n : Nat) : Decidable (Refused bytes off n) :=
  inferInstanceAs (Decidable (_ ∨ _))

def Call.spec (bytes : List UInt8) : Call → Option Result × List UInt8
  | .writei off data =>
    if Refused bytes off data.length then (some (.wrote none), bytes)
    else (some (.wrote (some data.length)),
      bytes.take off ++ data ++ bytes.drop (off + data.length))
  | .readi off n _ =>
    if bytes.length < off ∨ 2 ^ 32 ≤ off + n then (some (.read (some 0) []), bytes)
    else (some (.read (some (min n (bytes.length - off))) ((bytes.drop off).take n)), bytes)
  | .event _ => (none, bytes)

def specStep (bytes : List UInt8) (c : Call) : Option (List UInt8) := some (c.spec bytes).2

def specObs (bytes : List UInt8) (c : Call) : Option Result := (c.spec bytes).1

variable {off n : Nat} {f g : File} {data : List UInt8} {dst : Buffers.Sink}

@[simp] theorem length_bytes (f : File) : f.bytes.length = f.ip.size := by simp [bytes]

/-! ## `writei` -/

/-- A part of a list that is replaced, with what it goes beyond the end. -/
theorem map_splice (file : Nat → UInt8) {size : Nat} (start : off ≤ size) :
    (List.range (max size (off + data.length))).map
        (Bytes.splice file off data.length fun i => (source data i).getD 0) =
      ((List.range size).map file).take off ++ data ++
        ((List.range size).map file).drop (off + data.length) := by
  refine List.ext_getElem (by simp; omega) fun p left right => ?_
  simp only [List.length_map, List.length_range] at left
  rw [List.getElem_map, List.getElem_range]
  by_cases before : p < off
  · rw [Bytes.splice_outside (.inl before), List.getElem_append_left (by simp; omega),
      List.getElem_append_left (by simp; omega)]
    simp
  · by_cases inside : p < off + data.length
    · rw [List.getElem_append_left (by simp; omega), List.getElem_append_right (by simp; omega)]
      have index : p - (((List.range size).map file).take off).length = p - off := by
        simp
        omega
      obtain ⟨i, rfl⟩ : ∃ i, p = off + i := ⟨p - off, by omega⟩
      have lt : i < data.length := by omega
      rw [Bytes.splice_inside lt, source, List.getElem?_eq_getElem lt, Option.getD_some]
      simp only [index, Nat.add_sub_cancel_left]
    · rw [Bytes.splice_outside (.inr (by omega)), List.getElem_append_right (by simp; omega)]
      simp only [List.length_append, List.length_take, List.length_map, List.length_range,
        List.getElem_drop, List.getElem_map, List.getElem_range]
      congr 1
      omega

/-- What is refused, and that nothing is changed then. -/
theorem writei_refused (sb : Layout) (inum : Nat) (f : File) (offFits : off < 2 ^ 32)
    (fits : data.length < 2 ^ 32) (refused : Refused f.bytes off data.length) :
    call sb inum f (.writei off data) = .ok (some (.wrote none), f) := by
  rw [Refused, length_bytes] at refused
  have none : Buffers.writei sb inum f.ip (source data) off data.length f.bufs =
      .ok (none, f.ip, f.bufs) := by
    unfold Buffers.writei
    by_cases first : f.ip.size < off ∨ (off + data.length) % 2 ^ 32 < off
    · rw [if_pos first]
    · rw [if_neg first, if_pos]
      have small : off + data.length < 2 ^ 32 := by omega
      rw [Nat.mod_eq_of_lt small]
      omega
  simp only [call, none, bind, Except.bind]

/-- The other calls write some of the bytes, and if they write all of them the file has got them
in their place. -/
theorem writei_accepted (ready : Ready sb inum f.ip f.bufs)
    (accepted : ¬ Refused f.bytes off data.length) : ∃ tot g,
      call sb inum f (.writei off data) = .ok (some (.wrote (some tot)), g) ∧
        (tot = data.length → Ready sb inum g.ip g.bufs ∧
          g.bytes = f.bytes.take off ++ data ++ f.bytes.drop (off + data.length)) := by
  simp only [Refused, length_bytes, not_or, Nat.not_lt, Nat.not_le] at accepted
  obtain ⟨start, -, fits⟩ := accepted
  obtain ⟨tot, ip₁, bufs₁, bufs', written, -, wrote⟩ :=
    writei_wrote ready (source data) start fits
  let ip' : Dinode := { ip₁ with size := max f.ip.size (off + tot) }
  refine ⟨tot, { ip := ip', bufs := Buffers.iupdate sb inum ip' bufs' }, ?_, ?_⟩
  · simp only [call, written, bind, Except.bind]
    rfl
  rintro rfl
  obtain ⟨ready', eq⟩ := wrote.complete ready fits
  refine ⟨ready', ?_⟩
  rw [bytes, bytes, ← map_splice _ start]
  refine List.map_congr_left fun p mem => ?_
  exact eq p (List.mem_range.mp mem)

/-! ## `readi` -/

/-- What `readi` returns and copies out if it does not fail. -/
theorem readi_ends (sb : Layout) (inum : Nat) (whole : Whole f.ip f.bufs.cached f.ip.size)
    (offFits : off < 2 ^ 32) (nFits : n < 2 ^ 32) (dst : Buffers.Sink) : ∃ r copied,
      call sb inum f (.readi off n dst) = .ok (some (.read r copied), f) ∧
        (r ≠ none → Call.spec f.bytes (.readi off n dst) = (some (.read r copied), f.bytes)) ∧
        ((∀ i < readLength f.ip.size off n, dst i) → r ≠ none) := by
  obtain ⟨r, copied, ran, reads⟩ := readi_reads sb dst offFits nFits whole
  refine ⟨r, copied, by simp only [call, ran, bind, Except.bind], fun some => ?_,
    fun writable none => ?_⟩
  rotate_left
  · obtain ⟨-, lt, stuck⟩ := reads.ends.resolve_left fun all => by simp [none] at all
    have here := writable _ lt
    rw [stuck] at here
    cases here
  obtain ⟨rfl, length⟩ := reads.ends.resolve_right fun failed => some failed.1
  have same : copied = (f.bytes.drop off).take (readLength f.ip.size off n) := by
    refine List.ext_getElem ?_ fun i lt _ => ?_
    · rw [length, List.length_take, List.length_drop, length_bytes, readLength]
      split <;> omega
    · rw [reads.bytes_eq i lt]
      simp [bytes]
  rw [same]
  simp only [Call.spec, length_bytes, readLength]
  split
  next => simp
  next inside =>
    congr 3
    refine List.take_eq_take_iff.mpr ?_
    simp

/-! ## Any sequence of calls -/

/-- A file as the calls find it, and the list of its bytes. -/
structure Shown (sb : Layout) (inum : Nat) (f : File) (bytes : List UInt8) : Prop where
  ready : Ready sb inum f.ip f.bufs
  bytes_eq : f.bytes = bytes

theorem call_shown {c : Call} {bytes : List UInt8} (shown : Shown sb inum f bytes) (fits : c.Fits)
    (successful : Successful sb inum f c) : ∃ g,
      call sb inum f c = .ok ((c.spec bytes).1, g) ∧ Shown sb inum g (c.spec bytes).2 := by
  obtain ⟨ready, rfl⟩ := shown
  cases c with
  | writei off data =>
    by_cases refused : Refused f.bytes off data.length
    · refine ⟨f, ?_, ?_⟩ <;> simp only [Call.spec, if_pos refused]
      · exact writei_refused sb inum f fits.1 fits.2 refused
      · exact ⟨ready, rfl⟩
    · obtain ⟨tot, g, ran, complete⟩ := writei_accepted ready refused
      have all := successful tot g ran
      obtain ⟨ready', eq⟩ := complete all
      refine ⟨g, ?_, ?_⟩ <;> simp only [Call.spec, if_neg refused]
      · rw [ran, all]
      · exact ⟨ready', eq⟩
  | readi off n dst =>
    obtain ⟨r, copied, ran, spec, -⟩ := readi_ends sb inum ready.whole fits.1 fits.2 dst
    rw [spec (successful r copied f ran)]
    exact ⟨f, ran, ready, rfl⟩
  | event e =>
    obtain ⟨same, -⟩ := ready.coherent.happen e
    refine ⟨_, rfl, ready.happen e, ?_⟩
    simp only [File.bytes, same, Call.spec]

/-- A call for which there are blocks, or memory that can be written, is successful. -/
def Possible (sb : Layout) (f : File) : Call → Prop
  | .writei off data => Room sb f.ip f.bufs.cached (off + data.length)
  | .readi off n dst => ∀ i < min n (f.bytes.length - off), dst i
  | .event _ => True

theorem possible_successful {c : Call} (ready : Ready sb inum f.ip f.bufs) (fits : c.Fits)
    (possible : Possible sb f c) : Successful sb inum f c := by
  cases c with
  | writei off data =>
    intro tot g ran
    by_cases refused : Refused f.bytes off data.length
    · rw [writei_refused sb inum f fits.1 fits.2 refused] at ran
      cases ran
    · simp only [Refused, length_bytes, not_or, Nat.not_lt, Nat.not_le] at refused
      have valid : ∀ i < data.length, (source data i).isSome := fun i lt => by simp [source, lt]
      obtain ⟨ip', bufs', written, -⟩ := writei_complete ready refused.1 (Nat.le_refl _) refused.2.2
        possible valid
      simp only [call, written, bind, Except.bind] at ran
      cases ran
      rfl
  | readi off n dst =>
    intro r copied g ran
    obtain ⟨r', copied', ran', -, complete⟩ := readi_ends sb inum ready.whole fits.1 fits.2 dst
    rw [ran'] at ran
    cases ran
    refine complete fun i lt => possible i ?_
    rw [length_bytes]
    unfold readLength at lt
    split at lt <;> omega
  | event => trivial

/-- What is done to a file and what the calls return is what they do to the list of its bytes
and return for it. -/
theorem refines_bytes {calls : List Call} (ready : Ready sb inum f.ip f.bufs)
    (along : Along (step sb inum) (fun f c => c.Fits ∧ Successful sb inum f c) f calls) :
    ∃ g, exec (step sb inum) f calls = some g ∧ exec specStep f.bytes calls = some g.bytes ∧
      trace (step sb inum) (obs sb inum) f calls = trace specStep specObs f.bytes calls ∧
      (∀ off data, off < 2 ^ 32 → data.length < 2 ^ 32 →
        (call sb inum g (.writei off data) = .ok (some (.wrote none), g) ↔
          Refused g.bytes off data.length)) ∧
      ∀ c : Call, c.Fits → Possible sb g c → Successful sb inum g c := by
  have move : ∀ (f : File) (bytes : List UInt8) (c : Call), Shown sb inum f bytes →
      (c.Fits ∧ Successful sb inum f c) → ∃ g bytes', step sb inum f c = some g ∧
        specStep bytes c = some bytes' ∧ Shown sb inum g bytes' ∧
          obs sb inum f c = specObs bytes c := by
    intro f bytes c shown meets
    obtain ⟨g, ran, shown'⟩ := call_shown shown meets.1 meets.2
    refine ⟨g, _, ?_, rfl, shown', ?_⟩ <;> simp only [step, obs, specObs, ran]
  obtain ⟨g, bytes, run, run', shown, events⟩ := simulation move ⟨ready, rfl⟩ along
  obtain ⟨ready', rfl⟩ := shown
  refine ⟨g, run, run', events, fun off data offFits dataFits => ⟨fun none => ?_, fun refused => ?_⟩,
    fun c fits possible => possible_successful ready' fits possible⟩
  · by_contra accepted
    obtain ⟨tot, g', ran, -⟩ := writei_accepted ready' accepted
    rw [ran] at none
    cases none
  · exact writei_refused sb inum g offFits dataFits refused

/-- Two letters more, and all of them read. -/
def sevenLetters : List Call := [.writei 5 [98, 99], .readi 0 9 fun _ => true]

theorem refines_bytes_seven : ∃ g,
    exec (step Mkfs.layout 2) { ip := letters, bufs := lettersBuffers } sevenLetters = some g ∧
      g.bytes = [97, 97, 97, 97, 97, 98, 99] ∧
      trace (step Mkfs.layout 2) (obs Mkfs.layout 2) { ip := letters, bufs := lettersBuffers }
        sevenLetters =
        [.wrote (some 2), .read (some 7) [97, 97, 97, 97, 97, 98, 99]] := by
  have room : Room Mkfs.layout letters lettersImage 7 := by
    have none_missing : missing letters lettersImage 7 = ∅ := by decide
    have direct : ¬ (letters.indirect = 0 ∧ ndirect < blocks 7) := by decide
    rw [Room, none_missing, Finset.card_empty, if_neg direct]
    exact Nat.zero_le _
  let f : File := { ip := letters, bufs := lettersBuffers }
  have shown : Shown Mkfs.layout 2 f f.bytes := ⟨letters_ready, rfl⟩
  have first : (Call.writei 5 [98, 99]).Fits := ⟨by decide, by decide⟩
  have second : (Call.readi 0 9 fun _ => true).Fits := ⟨by decide, by decide⟩
  have written : Successful Mkfs.layout 2 f (.writei 5 [98, 99]) :=
    possible_successful shown.ready first room
  have along : Along (step Mkfs.layout 2) (fun f c => c.Fits ∧ Successful Mkfs.layout 2 f c) f
      sevenLetters := by
    refine ⟨⟨first, written⟩, fun g moved => ⟨⟨second, ?_⟩, fun _ _ => trivial⟩⟩
    obtain ⟨g', ran, shown'⟩ := call_shown shown first written
    simp only [step, ran] at moved
    cases moved
    exact possible_successful shown'.ready second fun _ _ => rfl
  obtain ⟨g, run, run', events, -⟩ := refines_bytes shown.ready along
  have bytes_eq : f.bytes = [97, 97, 97, 97, 97] := by
    decide +kernel
  rw [bytes_eq] at run' events
  exact ⟨g, run, (Option.some.inj run').symm, events⟩

end File

end Sistemas.Xv6.Fs
