import Sistemas.Xv6.VirtioDisk

/-! # Chains of descriptors

What the functions on descriptors do: `alloc3_desc` gives three free ones or leaves the free ones
as they are, and `free_chain` frees the three of a request.
-/

namespace Sistemas.Xv6.Virtio

def Idx.list (idx : Idx) : List Nat := [idx.first, idx.second, idx.third]

theorem Idx.mem_list {idx : Idx} {i : Nat} :
    i ∈ idx.list ↔ i = idx.first ∨ i = idx.second ∨ i = idx.third := by
  simp [Idx.list]

theorem Idx.ne_of_nodup {idx : Idx} (nodup : idx.list.Nodup) :
    idx.first ≠ idx.second ∧ idx.first ≠ idx.third ∧ idx.second ≠ idx.third := by
  simpa [Idx.list, and_assoc] using nodup

theorem Idx.first_mem (idx : Idx) : idx.first ∈ idx.list := List.mem_cons_self

namespace Disk

variable {B : Type} {d d' : Disk B} {b : B} {i : Nat} {idx : Idx}

/-- The descriptors of `idx` are marked. -/
def mark (d : Disk B) (idx : Idx) (free : Bool) : Nat → Bool :=
  Function.update (Function.update (Function.update d.free idx.first free) idx.second free)
    idx.third free

theorem mark_mem {free : Bool} (mem : i ∈ idx.list) : d.mark idx free i = free := by
  simp only [mark, Function.update_apply]
  rw [Idx.mem_list] at mem
  grind

theorem mark_not_mem {free : Bool} (other : i ∉ idx.list) : d.mark idx free i = d.free i := by
  rw [Idx.mem_list, not_or, not_or] at other
  simp [mark, other]

/-- Three free descriptors. -/
structure Fresh (d : Disk B) (idx : Idx) : Prop where
  nodup : idx.list.Nodup
  lt : ∀ i ∈ idx.list, i < num
  free : ∀ i ∈ idx.list, d.free i = true

/-- What `alloc_desc` leaves. -/
def grab (d : Disk B) (i : Nat) : Disk B := { d with free := Function.update d.free i false }

/-- What `free_desc` leaves. -/
def clear (d : Disk B) (i : Nat) : Disk B :=
  { d with
    desc := Function.update d.desc i .zero
    free := Function.update d.free i true }

/-- Nothing changes but free descriptors. -/
def Same (d d' : Disk B) : Prop :=
  ∃ desc, d' = { d with desc := desc } ∧ ∀ i, d.free i = false → desc i = d.desc i

theorem Same.refl (d : Disk B) : d.Same d := ⟨d.desc, rfl, fun _ _ => rfl⟩

theorem grab_comm {j : Nat} (ne : i ≠ j) : (d.grab i).grab j = (d.grab j).grab i := by
  simp only [grab, Function.update_comm ne]

theorem allocDesc_none (none : d.allocDesc = (none, d')) : d' = d := by
  unfold allocDesc at none
  split at none
  next => cases none
  next =>
    cases none
    rfl

theorem allocDesc_some (found : d.allocDesc = (some i, d')) :
    i < num ∧ d.free i = true ∧ d' = d.grab i := by
  unfold allocDesc at found
  split at found
  next j first =>
    cases found
    exact ⟨List.mem_range.mp (List.mem_of_find?_eq_some first), List.find?_some first, rfl⟩
  next => cases found

theorem freeDesc_ok (lt : i < num) (used : d.free i = false) : d.freeDesc i = .ok (d.clear i) := by
  rw [freeDesc, if_neg (Nat.not_le.mpr lt), used]
  rfl

/-- A descriptor that was taken is given back. -/
theorem Same.undo (same : (d.grab i).Same d') (lt : i < num) (free : d.free i = true) :
    d'.freeDesc i = .ok (d'.clear i) ∧ d.Same (d'.clear i) := by
  obtain ⟨desc, rfl, keeps⟩ := same
  refine ⟨freeDesc_ok lt (Function.update_self ..), Function.update desc i .zero, ?_, ?_⟩
  · simp only [clear, grab, Function.update_idem, ← free, Function.update_eq_self]
  · intro j used
    have other : j ≠ i := by
      rintro rfl
      simp [free] at used
    rw [Function.update_of_ne other]
    exact keeps j (by simpa [grab, Function.update_of_ne other] using used)

/-- Either three descriptors are taken, or those that were free are free again. -/
theorem alloc3Desc_spec (d : Disk B) :
    (∃ d', d.alloc3Desc = .ok (none, d') ∧ d.Same d') ∨
      ∃ idx, d.alloc3Desc = .ok (some idx, { d with free := d.mark idx false }) ∧ d.Fresh idx := by
  unfold alloc3Desc
  cases first : d.allocDesc with
  | mk r d1 =>
  cases r with
  | none =>
    obtain rfl := allocDesc_none first
    exact .inl ⟨d1, rfl, .refl d1⟩
  | some i =>
  obtain ⟨iLt, iFree, rfl⟩ := allocDesc_some first
  simp only
  cases second : (d.grab i).allocDesc with
  | mk r d2 =>
  cases r with
  | none =>
    obtain rfl := allocDesc_none second
    obtain ⟨freed, same⟩ := (Same.refl (d.grab i)).undo iLt iFree
    refine .inl ⟨_, ?_, same⟩
    simp only
    rw [freed]
    rfl
  | some j =>
  obtain ⟨jLt, jFree, rfl⟩ := allocDesc_some second
  have ij : j ≠ i := by
    rintro rfl
    simp [grab] at jFree
  have jFree' : d.free j = true := by simpa [grab, Function.update_of_ne ij] using jFree
  simp only
  cases third : ((d.grab i).grab j).allocDesc with
  | mk r d3 =>
  cases r with
  | none =>
    obtain rfl := allocDesc_none third
    have iFree' : (d.grab j).free i = true := by simpa [grab, Function.update_of_ne ij.symm]
    have start : ((d.grab j).grab i).Same ((d.grab i).grab j) := by
      rw [grab_comm ij]
      exact .refl _
    obtain ⟨freed, same⟩ := start.undo iLt iFree'
    obtain ⟨freed', same'⟩ := same.undo jLt jFree'
    refine .inl ⟨_, ?_, same'⟩
    simp only
    rw [freed]
    simp only [bind, Except.bind]
    rw [freed']
    rfl
  | some k =>
  obtain ⟨kLt, kFree, rfl⟩ := allocDesc_some third
  have jk : k ≠ j := by
    rintro rfl
    simp [grab] at kFree
  have ik : k ≠ i := by
    rintro rfl
    simp [grab, Function.update_of_ne jk] at kFree
  have kFree' : d.free k = true := by
    simpa [grab, Function.update_of_ne ik, Function.update_of_ne jk] using kFree
  refine .inr ⟨{ first := i, second := j, third := k }, rfl, ?_, ?_, ?_⟩
  · simp [Idx.list, ij.symm, ik.symm, jk.symm]
  · simp [Idx.list, iLt, jLt, kLt]
  · simp [Idx.list, iFree, jFree', kFree']

/-! ## Requests -/

theorem flagNext_next : flagNext &&& flagNext ≠ 0 := by decide

theorem flagWrite_last : flagWrite &&& flagNext = 0 := by decide

theorem flags_next (write : Bool) : ((if write then 0 else flagWrite) ||| flagNext) &&& flagNext ≠ 0 := by
  cases write <;> decide

/-- The chain from `idx.first` on. -/
structure Linked (desc : Nat → Desc B) (idx : Idx) : Prop where
  first : (desc idx.first).flags &&& flagNext ≠ 0
  second : (desc idx.second).flags &&& flagNext ≠ 0
  third : (desc idx.third).flags &&& flagNext = 0
  next : (desc idx.first).next = idx.second
  last : (desc idx.second).next = idx.third

/-- The descriptors and the information of a request for `b`. -/
structure Formatted (d : Disk B) (b : B) (idx : Idx) : Prop where
  linked : Linked d.desc idx
  status : (d.desc idx.third).addr = .status idx.first
  info : (d.info idx.first).b = some b

theorem Formatted.congr (formatted : d.Formatted b idx)
    (desc : ∀ i ∈ idx.list, d'.desc i = d.desc i)
    (info : (d'.info idx.first).b = (d.info idx.first).b) : d'.Formatted b idx := by
  have first : d'.desc idx.first = d.desc idx.first := desc _ (by simp [Idx.list])
  have second : d'.desc idx.second = d.desc idx.second := desc _ (by simp [Idx.list])
  have third : d'.desc idx.third = d.desc idx.third := desc _ (by simp [Idx.list])
  obtain ⟨linked, status, oldInfo⟩ := formatted
  refine ⟨⟨?_, ?_, ?_, ?_, ?_⟩, ?_, info.trans oldInfo⟩
  · rw [first]
    exact linked.first
  · rw [second]
    exact linked.second
  · rw [third]
    exact linked.third
  · rw [first]
    exact linked.next
  · rw [second]
    exact linked.last
  · rw [third]
    exact status

theorem submit_formatted (nodup : idx.list.Nodup) (write : Bool) (blockno : Nat) :
    (d.submit b write blockno idx).Formatted b idx := by
  obtain ⟨ij, ik, jk⟩ := Idx.ne_of_nodup nodup
  have first : (d.submit b write blockno idx).desc idx.first =
      { addr := .op idx.first, len := 16, flags := flagNext, next := idx.second } := by
    simp only [submit, Function.update_of_ne ik, Function.update_of_ne ij, Function.update_self]
  have second : (d.submit b write blockno idx).desc idx.second =
      { addr := .data b
        len := bsize
        flags := (if write then 0 else flagWrite) ||| flagNext
        next := idx.third } := by
    simp only [submit, Function.update_of_ne jk, Function.update_self]
  have third : (d.submit b write blockno idx).desc idx.third =
      { addr := .status idx.first, len := 1, flags := flagWrite, next := 0 } := by
    simp only [submit, Function.update_self]
  refine ⟨⟨?_, ?_, ?_, ?_, ?_⟩, ?_, ?_⟩
  · rw [first]
    exact flagNext_next
  · rw [second]
    exact flags_next write
  · rw [third]
    exact flagWrite_last
  · rw [first]
  · rw [second]
  · rw [third]
  · simp [submit]

theorem submit_desc {write : Bool} {blockno : Nat} (other : i ∉ idx.list) :
    (d.submit b write blockno idx).desc i = d.desc i := by
  rw [Idx.mem_list, not_or, not_or] at other
  simp only [submit, Function.update_of_ne other.1, Function.update_of_ne other.2.1,
    Function.update_of_ne other.2.2]

/-- The device finds where the status goes. -/
theorem Formatted.lastAddr (formatted : d.Formatted b idx) :
    d.lastAddr num idx.first = .status idx.first := by
  obtain ⟨linked, status, -⟩ := formatted
  have third : ¬ (d.desc idx.third).flags &&& flagNext ≠ 0 := not_not.mpr linked.third
  rw [num, Disk.lastAddr, if_pos linked.first, linked.next, Disk.lastAddr,
    if_pos linked.second, linked.last, Disk.lastAddr, if_neg third, status]

theorem freeChain_next {fuel : Nat} (lt : i < num) (used : d.free i = false)
    (more : (d.desc i).flags &&& flagNext ≠ 0) :
    d.freeChain (fuel + 1) i = (d.clear i).freeChain fuel (d.desc i).next := by
  rw [freeChain]
  simp only [freeDesc_ok lt used, if_pos more]
  rfl

theorem freeChain_last {fuel : Nat} (lt : i < num) (used : d.free i = false)
    (last : (d.desc i).flags &&& flagNext = 0) : d.freeChain (fuel + 1) i = .ok (d.clear i) := by
  have stop : ¬ (d.desc i).flags &&& flagNext ≠ 0 := not_not.mpr last
  rw [freeChain]
  simp only [freeDesc_ok lt used, if_neg stop]
  rfl

/-- `free_chain` follows the chain to its end. -/
theorem Linked.freeChain {fuel : Nat} (linked : Linked d.desc idx) (nodup : idx.list.Nodup)
    (lt : ∀ i ∈ idx.list, i < num) (used : ∀ i ∈ idx.list, d.free i = false) :
    d.freeChain (fuel + 3) idx.first =
      .ok (((d.clear idx.first).clear idx.second).clear idx.third) := by
  obtain ⟨ij, ik, jk⟩ := Idx.ne_of_nodup nodup
  have iLt := lt idx.first (by simp [Idx.list])
  have jLt := lt idx.second (by simp [Idx.list])
  have kLt := lt idx.third (by simp [Idx.list])
  have iUsed := used idx.first (by simp [Idx.list])
  have jUsed : (d.clear idx.first).free idx.second = false := by
    simpa [clear, Function.update_of_ne ij.symm] using used idx.second (by simp [Idx.list])
  have jDesc : (d.clear idx.first).desc idx.second = d.desc idx.second :=
    Function.update_of_ne ij.symm ..
  have kUsed : ((d.clear idx.first).clear idx.second).free idx.third = false := by
    simpa [clear, Function.update_of_ne ik.symm, Function.update_of_ne jk.symm] using
      used idx.third (by simp [Idx.list])
  have kDesc : ((d.clear idx.first).clear idx.second).desc idx.third = d.desc idx.third :=
    (Function.update_of_ne jk.symm ..).trans (Function.update_of_ne ik.symm ..)
  rw [freeChain_next iLt iUsed linked.first, linked.next,
    freeChain_next jLt jUsed (by rw [jDesc]; exact linked.second), jDesc, linked.last,
    freeChain_last kLt kUsed (by rw [kDesc]; exact linked.third)]

/-- What the end of a request leaves. -/
def done (d : Disk B) (idx : Idx) : Disk B :=
  ((({ d with
    info := Function.update d.info idx.first { d.info idx.first with b := none } }.clear
      idx.first).clear idx.second).clear idx.third)

theorem done_free : (d.done idx).free = d.mark idx true := rfl

theorem done_desc (other : i ∉ idx.list) : (d.done idx).desc i = d.desc i := by
  rw [Idx.mem_list, not_or, not_or] at other
  simp only [done, clear, Function.update_of_ne other.1, Function.update_of_ne other.2.1,
    Function.update_of_ne other.2.2]

theorem Formatted.finish (formatted : d.Formatted b idx) (nodup : idx.list.Nodup)
    (lt : ∀ i ∈ idx.list, i < num) (used : ∀ i ∈ idx.list, d.free i = false) :
    d.finish idx = .ok (d.done idx) :=
  Linked.freeChain formatted.linked nodup lt used

end Disk

end Sistemas.Xv6.Virtio
