import Mathlib.Data.List.Perm.Subperm
import Sistemas.Data.Ownership
import Sistemas.Xv6.VirtioDiskChains

/-! # Requests in flight

In every run the descriptors are free or in the chain of one process that waits, and the heads of
the requests that are not completed are, each once, in the avail ring, with the device or in the
used ring.  So every completion finds the process that waits for it, and nothing panics.
-/

namespace Sistemas.Xv6.Virtio

open Ownership RingBuffer

variable {P B : Type} [DecidableEq P] [DecidableEq B]

/-- The descriptors of a process. -/
def Pc.chain : Pc B → List Nat
  | .wait _ idx => idx.list
  | _ => []

/-- The buffer of a process. -/
def Pc.buf : Pc B → Option B
  | .idle => none
  | .alloc b _ _ => some b
  | .wait b _ => some b

omit [DecidableEq B] in
theorem chain_update (pc : P → Pc B) (p : P) (c : Pc B) :
    (fun q => (Function.update pc p c q).chain) =
      Function.update (fun q => (pc q).chain) p c.chain := by
  funext q
  by_cases here : q = p
  · subst q
    simp
  · simp [Function.update_of_ne here]

/-- `p` waits for a request that is not completed, and its head is `h`. -/
def Requests (pc : P → Pc B) (owned : B → Bool) (p : P) (h : Nat) : Prop :=
  ∃ b idx, pc p = .wait b idx ∧ owned b = true ∧ idx.first = h

section Requests

variable {pc : P → Pc B} {owned : B → Bool} {p q : P} {c : Pc B} {h : Nat}

omit [DecidableEq B] in
theorem requests_update_of_ne (ne : q ≠ p) :
    Requests (Function.update pc p c) owned q h ↔ Requests pc owned q h := by
  simp only [Requests, Function.update_of_ne ne]

omit [DecidableEq P] [DecidableEq B] in
theorem not_requests (none : (pc p).chain = []) : ¬ Requests pc owned p h := by
  rintro ⟨b, idx, waits, -⟩
  rw [waits] at none
  cases none

omit [DecidableEq B] in
/-- A process that has no request, before and after, makes no difference. -/
theorem exists_requests_update (before : ∀ h, ¬ Requests pc owned p h) (after : c.chain = []) :
    (∃ q, Requests (Function.update pc p c) owned q h) ↔ ∃ q, Requests pc owned q h := by
  constructor
  · rintro ⟨q, requests⟩
    by_cases here : q = p
    · subst q
      refine absurd requests (not_requests ?_)
      rw [Function.update_self]
      exact after
    · exact ⟨q, (requests_update_of_ne here).mp requests⟩
  · rintro ⟨q, requests⟩
    by_cases here : q = p
    · subst q
      exact absurd requests (before h)
    · exact ⟨q, (requests_update_of_ne here).mpr requests⟩

end Requests

namespace State

variable {s s' : State P B} {p : P} {b : B} {idx : Idx} {d : Disk B} {h k : Nat}

/-- The heads that the device has not seen. -/
def waiting (s : State P B) : List Nat := contents s.disk.avail num uint16s s.seen s.disk.availIdx

/-- The heads that the device has completed and the driver has not seen. -/
def reported (s : State P B) : List Nat :=
  contents s.disk.used num uint16s s.disk.usedIdx s.disk.deviceIdx

/-- The heads of the requests in flight. -/
def flight (s : State P B) : List Nat := s.waiting ++ s.started.map Prod.fst ++ s.reported

structure Inv (s : State P B) : Prop where
  availIdx_lt : s.disk.availIdx < uint16s
  seen_lt : s.seen < uint16s
  deviceIdx_lt : s.disk.deviceIdx < uint16s
  usedIdx_lt : s.disk.usedIdx < uint16s
  stopped : s.stopped = none
  shared : Shared (· < num) (fun i => s.disk.free i = true) fun p => (s.pc p).chain
  formatted : ∀ p b idx, s.pc p = .wait b idx → s.disk.Formatted b idx
  locked : ∀ p b, (s.pc p).buf = some b → s.lock b = some p
  once : s.flight.Nodup
  flight_iff : ∀ h, h ∈ s.flight ↔ ∃ p, Requests s.pc s.owned p h
  targets : ∀ x ∈ s.started, x.2 = .status x.1
  succeeded : ∀ h ∈ s.reported, (s.disk.info h).status = 0

omit [DecidableEq P] [DecidableEq B] in
theorem inv_init : (init : State P B).Inv := by
  have empty : ∀ data : Nat → Nat, contents data num uint16s 0 0 = [] := fun data => rfl
  refine ⟨?_, ?_, ?_, ?_, rfl, ⟨?_, ?_, ?_, ?_⟩, ?_, ?_, ?_, ?_, ?_, ?_⟩
  any_goals exact Nat.zero_lt_succ _
  all_goals simp [init, Disk.init, Pc.chain, Pc.buf, flight, waiting, reported, empty, Requests]

namespace Inv

omit [DecidableEq P] [DecidableEq B] in
theorem chain_nodup (inv : s.Inv) (waits : s.pc p = .wait b idx) : idx.list.Nodup := by
  have nodup := inv.shared.nodup p
  rwa [waits] at nodup

omit [DecidableEq P] [DecidableEq B] in
theorem chain_lt (inv : s.Inv) (waits : s.pc p = .wait b idx) : ∀ i ∈ idx.list, i < num := by
  have inside := inv.shared.inside p
  rwa [waits] at inside

omit [DecidableEq P] [DecidableEq B] in
theorem chain_used (inv : s.Inv) (waits : s.pc p = .wait b idx) :
    ∀ i ∈ idx.list, s.disk.free i = false := by
  intro i mem
  by_contra free
  have notHeld := ((inv.shared.free_iff i).mp (by simpa using free)).2 p
  rw [waits] at notHeld
  exact notHeld mem

omit [DecidableEq P] [DecidableEq B] in
/-- Different processes have different descriptors. -/
theorem chain_apart {q : P} {c : B} {idx' : Idx} (inv : s.Inv) (waits : s.pc p = .wait b idx)
    (waits' : s.pc q = .wait c idx') {i : Nat} (mem : i ∈ idx.list) (mem' : i ∈ idx'.list) :
    p = q := by
  refine inv.shared.apart p q i ?_ ?_
  · simp only [waits]
    exact mem
  · simp only [waits']
    exact mem'

omit [DecidableEq P] [DecidableEq B] in
theorem flight_lt (inv : s.Inv) (mem : h ∈ s.flight) : h < num := by
  obtain ⟨p, b, idx, waits, -, rfl⟩ := (inv.flight_iff h).mp mem
  exact inv.chain_lt waits _ idx.first_mem

omit [DecidableEq P] [DecidableEq B] in
theorem flight_used (inv : s.Inv) (mem : h ∈ s.flight) : s.disk.free h = false := by
  obtain ⟨p, b, idx, waits, -, rfl⟩ := (inv.flight_iff h).mp mem
  exact inv.chain_used waits _ idx.first_mem

omit [DecidableEq P] [DecidableEq B] in
/-- Two processes with the same buffer are the same. -/
theorem buf_once {q : P} (inv : s.Inv) (left : (s.pc p).buf = some b)
    (right : (s.pc q).buf = some b) : p = q :=
  Option.some_inj.mp ((inv.locked p b left).symm.trans (inv.locked q b right))

omit [DecidableEq P] [DecidableEq B] in
/-- The heads leave room in a ring for another. -/
theorem room (inv : s.Inv) {hs : List Nat} (part : hs.Sublist s.flight) (fresh : h ∉ hs)
    (lt : h < num) : hs.length < num := by
  have nodup : (h :: hs).Nodup := List.nodup_cons.mpr ⟨fresh, inv.once.sublist part⟩
  have within : h :: hs ⊆ List.range num := by
    intro i mem
    rw [List.mem_range]
    rcases List.mem_cons.mp mem with rfl | mem
    · exact lt
    · exact inv.flight_lt (part.subset mem)
  have le := (nodup.subperm within).length_le
  rwa [List.length_cons, List.length_range] at le

omit [DecidableEq B] in
theorem locked_update {c : Pc B} (inv : s.Inv) (mine : ∀ b, c.buf = some b → s.lock b = some p) :
    ∀ q b, (Function.update s.pc p c q).buf = some b → s.lock b = some q := by
  intro q b buf
  by_cases here : q = p
  · subst q
    rw [Function.update_self] at buf
    exact mine b buf
  · rw [Function.update_of_ne here] at buf
    exact inv.locked q b buf

end Inv

/-! ## The driver -/

omit [DecidableEq B] in
/-- `alloc3_desc` has failed. -/
theorem inv_alloc (inv : s.Inv) (none : (s.pc p).chain = []) (mine : s.lock b = some p)
    (same : s.disk.Same d) (write : Bool) (blockno : Nat) :
    ({ s with disk := d }.setPc p (.alloc b write blockno)).Inv := by
  obtain ⟨desc, rfl, keeps⟩ := same
  have chains : (fun q => (Function.update s.pc p (.alloc b write blockno) q).chain) =
      fun q => (s.pc q).chain := by
    rw [chain_update, Function.update_eq_self_iff]
    exact none.symm
  simp only [setPc]
  refine ⟨inv.availIdx_lt, inv.seen_lt, inv.deviceIdx_lt, inv.usedIdx_lt, inv.stopped, ?_, ?_,
    inv.locked_update ?_, inv.once, ?_, inv.targets, inv.succeeded⟩
  · simp only [chains]
    exact inv.shared
  · intro q c idx waits
    by_cases here : q = p
    · subst q
      simp only [Function.update_self] at waits
      cases waits
    · simp only [Function.update_of_ne here] at waits
      refine (inv.formatted q c idx waits).congr (fun i mem => ?_) rfl
      exact keeps i (inv.chain_used waits i mem)
  · intro c buf
    cases buf
    exact mine
  · intro h
    rw [exists_requests_update (fun h => not_requests none) rfl]
    exact inv.flight_iff h

/-- `alloc3_desc` has given `idx`. -/
theorem inv_submit (inv : s.Inv) (none : (s.pc p).chain = []) (mine : s.lock b = some p)
    (fresh : s.disk.Fresh idx) (write : Bool) (blockno : Nat) :
    ({ s with
      disk := { s.disk with free := s.disk.mark idx false }.submit b write blockno idx
      owned := Function.update s.owned b true }.setPc p (.wait b idx)).Inv := by
  have firstFree := fresh.free idx.first idx.first_mem
  have notInFlight : idx.first ∉ s.flight := fun mem =>
    Bool.false_ne_true ((inv.flight_used mem).symm.trans firstFree)
  have others : ∀ q c idx', s.pc q = .wait c idx' → q ≠ p ∧ c ≠ b ∧ ∀ i ∈ idx'.list, i ∉ idx.list := by
    intro q c idx' waits
    have ne : q ≠ p := by
      rintro rfl
      rw [waits] at none
      cases none
    refine ⟨ne, ?_, ?_⟩
    · rintro rfl
      have lock := inv.locked q c (by rw [waits]; rfl)
      exact ne (Option.some_inj.mp (lock.symm.trans mine))
    · intro i mem' mem
      exact Bool.false_ne_true ((inv.chain_used waits i mem').symm.trans (fresh.free i mem))
  have part : s.waiting.Sublist s.flight := by
    rw [flight, List.append_assoc]
    exact List.sublist_append_left ..
  have notWaiting : idx.first ∉ s.waiting := fun mem => notInFlight (part.subset mem)
  have room : count uint16s s.seen s.disk.availIdx < num := by
    have length : (contents s.disk.avail num uint16s s.seen s.disk.availIdx).length =
        count uint16s s.seen s.disk.availIdx := length_contents
    rw [← length]
    exact inv.room part notWaiting (fresh.lt _ idx.first_mem)
  have pushed : contents (Function.update s.disk.avail (s.disk.availIdx % num) idx.first) num
      uint16s s.seen ((s.disk.availIdx + 1) % uint16s) = s.waiting ++ [idx.first] :=
    contents_push inv.seen_lt inv.availIdx_lt (by decide) (by decide) room
  have grown : ({ s with
      disk := { s.disk with free := s.disk.mark idx false }.submit b write blockno idx
      owned := Function.update s.owned b true
      pc := Function.update s.pc p (.wait b idx) } : State P B).flight =
        s.waiting ++ [idx.first] ++ s.started.map Prod.fst ++ s.reported := by
    rw [← pushed]
    rfl
  have perm : (s.waiting ++ [idx.first] ++ s.started.map Prod.fst ++ s.reported).Perm
      (idx.first :: s.flight) := by
    rw [flight, List.append_assoc s.waiting, List.append_assoc s.waiting, List.append_assoc,
      List.append_assoc]
    exact List.perm_middle
  simp only [setPc]
  refine ⟨Nat.mod_lt _ (by decide), inv.seen_lt, inv.deviceIdx_lt, inv.usedIdx_lt, inv.stopped,
    ?_, ?_, inv.locked_update ?_, ?_, ?_, inv.targets, ?_⟩
  · rw [chain_update]
    refine (inv.shared.takeAll none fresh.nodup fresh.free).congr (fun i => ?_) fun _ => rfl
    simp only [Disk.submit]
    by_cases mem : i ∈ idx.list
    · simp [Disk.mark_mem mem, mem]
    · simp [Disk.mark_not_mem mem, mem]
  · intro q c idx' waits
    by_cases here : q = p
    · subst q
      simp only [Function.update_self] at waits
      cases waits
      exact Disk.submit_formatted fresh.nodup write blockno
    · simp only [Function.update_of_ne here] at waits
      have apart := (others q c idx' waits).2.2
      refine (inv.formatted q c idx' waits).congr (fun i mem => ?_) ?_
      · exact Disk.submit_desc (apart i mem)
      · have other : idx'.first ≠ idx.first := fun same =>
          apart idx'.first idx'.first_mem (same ▸ idx.first_mem)
        simp only [Disk.submit, Function.update_of_ne other]
  · intro c buf
    cases buf
    exact mine
  · rw [grown, perm.nodup_iff, List.nodup_cons]
    exact ⟨notInFlight, inv.once⟩
  · intro h
    rw [grown, perm.mem_iff, List.mem_cons, inv.flight_iff]
    constructor
    · rintro (rfl | ⟨q, c, idx', waits, owned, head⟩)
      · exact ⟨p, b, idx, Function.update_self .., Function.update_self .., rfl⟩
      · obtain ⟨ne, other, -⟩ := others q c idx' waits
        exact ⟨q, c, idx', (Function.update_of_ne ne ..).trans waits,
          (Function.update_of_ne other ..).trans owned, head⟩
    · rintro ⟨q, c, idx', waits, owned, head⟩
      by_cases here : q = p
      · subst q
        simp only [Function.update_self] at waits
        cases waits
        exact .inl head.symm
      · simp only [Function.update_of_ne here] at waits
        simp only [Function.update_of_ne (others q c idx' waits).2.1] at owned
        exact .inr ⟨q, c, idx', waits, owned, head⟩
  · intro h mem
    have old : h ∈ s.flight := List.mem_append_right _ mem
    have other : h ≠ idx.first := by
      rintro rfl
      exact notInFlight old
    simp only [Disk.submit, Function.update_of_ne other]
    exact inv.succeeded h mem

omit [DecidableEq B] in
/-- `free_chain` has been called. -/
theorem inv_finish (inv : s.Inv) (waits : s.pc p = .wait b idx) (free : s.owned b = false) :
    ({ s with disk := s.disk.done idx }.setPc p .idle).Inv := by
  simp only [setPc]
  refine ⟨inv.availIdx_lt, inv.seen_lt, inv.deviceIdx_lt, inv.usedIdx_lt, inv.stopped, ?_, ?_,
    inv.locked_update ?_, inv.once, ?_, inv.targets, ?_⟩
  · rw [chain_update]
    refine (inv.shared.giveAll p).congr (fun i => ?_) fun _ => rfl
    simp only [waits, Pc.chain, Disk.done_free]
    by_cases mem : i ∈ idx.list
    · simp [Disk.mark_mem mem, mem]
    · simp [Disk.mark_not_mem mem, mem]
  · intro q c idx' waits'
    by_cases here : q = p
    · subst q
      simp only [Function.update_self] at waits'
      cases waits'
    · simp only [Function.update_of_ne here] at waits'
      have apart : ∀ i ∈ idx'.list, i ∉ idx.list := fun i mem' mem =>
        here (inv.chain_apart waits' waits mem' mem)
      refine (inv.formatted q c idx' waits').congr (fun i mem => Disk.done_desc (apart i mem)) ?_
      have other : idx'.first ≠ idx.first := fun same =>
        apart idx'.first idx'.first_mem (same ▸ idx.first_mem)
      simp [Disk.done, Disk.clear, Function.update_of_ne other]
  · intro c buf
    cases buf
  · intro h
    have before : ∀ h, ¬ Requests s.pc s.owned p h := by
      rintro h ⟨c, idx', waits', owned, -⟩
      cases waits.symm.trans waits'
      exact absurd (free.symm.trans owned) Bool.false_ne_true
    rw [exists_requests_update before rfl]
    exact inv.flight_iff h
  · intro h mem
    have status := inv.succeeded h mem
    by_cases here : h = idx.first
    · subst h
      simpa [Disk.done, Disk.clear] using status
    · simpa [Disk.done, Disk.clear, Function.update_of_ne here] using status

/-! ## The handler -/

omit [DecidableEq P] [DecidableEq B] in
/-- The handler finds the process that waits for the completion it sees. -/
theorem reported_cons (inv : s.Inv) (more : s.disk.usedIdx ≠ s.disk.deviceIdx) :
    s.reported = s.disk.id ::
      contents s.disk.used num uint16s ((s.disk.usedIdx + 1) % uint16s) s.disk.deviceIdx := by
  apply contents_pop inv.usedIdx_lt inv.deviceIdx_lt (by decide)
  intro empty
  exact more (count_eq_zero inv.usedIdx_lt inv.deviceIdx_lt empty)

omit [DecidableEq P] [DecidableEq B] in
theorem id_mem (inv : s.Inv) (more : s.disk.usedIdx ≠ s.disk.deviceIdx) :
    s.disk.id ∈ s.reported := by
  rw [reported_cons inv more]
  exact List.mem_cons_self

omit [DecidableEq P] in
/-- What one turn of the loop does to a completion. -/
theorem intrBody_eq (inv : s.Inv) (more : s.disk.usedIdx ≠ s.disk.deviceIdx) :
    ∃ p b idx, s.pc p = .wait b idx ∧ s.owned b = true ∧ idx.first = s.disk.id ∧
      s.intrBody = .ok { s with
        owned := Function.update s.owned b false
        disk := { s.disk with usedIdx := (s.disk.usedIdx + 1) % uint16s } } := by
  have mem := id_mem inv more
  have status := inv.succeeded _ mem
  obtain ⟨p, b, idx, waits, owned, head⟩ :=
    (inv.flight_iff _).mp (List.mem_append_right _ mem)
  have info := (inv.formatted p b idx waits).info
  rw [head] at info
  refine ⟨p, b, idx, waits, owned, head, ?_⟩
  rw [intrBody, if_neg more, if_neg (not_not.mpr status)]
  simp only [info]
  rfl

omit [DecidableEq P] in
theorem inv_intr (inv : s.Inv) (more : s.disk.usedIdx ≠ s.disk.deviceIdx)
    (waits : s.pc p = .wait b idx) (head : idx.first = s.disk.id) :
    ({ s with
      owned := Function.update s.owned b false
      disk := { s.disk with usedIdx := (s.disk.usedIdx + 1) % uint16s } } : State P B).Inv := by
  have popped := reported_cons inv more
  have perm : s.flight.Perm (s.disk.id :: ({ s with
      owned := Function.update s.owned b false
      disk := { s.disk with usedIdx := (s.disk.usedIdx + 1) % uint16s } } : State P B).flight) := by
    rw [flight, popped]
    exact List.perm_middle
  have once := perm.nodup_iff.mp inv.once
  refine ⟨inv.availIdx_lt, inv.seen_lt, inv.deviceIdx_lt, Nat.mod_lt _ (by decide), inv.stopped,
    inv.shared, ?_, inv.locked, once.of_cons, ?_, inv.targets, ?_⟩
  · intro q c idx' waits'
    exact (inv.formatted q c idx' waits').congr (fun _ _ => rfl) rfl
  · intro h
    have iff := inv.flight_iff h
    rw [perm.mem_iff, List.mem_cons] at iff
    constructor
    · intro mem
      obtain ⟨q, c, idx', waits', owned, head'⟩ := iff.mp (.inr mem)
      have other : c ≠ b := by
        rintro rfl
        obtain rfl := inv.buf_once (p := p) (q := q) (b := c) (by rw [waits]; rfl)
          (by rw [waits']; rfl)
        cases waits.symm.trans waits'
        rw [← head', head] at mem
        exact (List.nodup_cons.mp once).1 mem
      exact ⟨q, c, idx', waits', (Function.update_of_ne other ..).trans owned, head'⟩
    · rintro ⟨q, c, idx', waits', owned, head'⟩
      have other : c ≠ b := by
        rintro rfl
        simp at owned
      simp only [Function.update_of_ne other] at owned
      rcases iff.mpr ⟨q, c, idx', waits', owned, head'⟩ with same | mem
      · -- the head is in the chain of one process only
        have here : idx'.first = idx.first := by rw [head', same, head]
        obtain rfl := inv.chain_apart waits waits' idx.first_mem (here ▸ idx'.first_mem)
        cases waits.symm.trans waits'
        exact absurd rfl other
      · exact mem
  · intro h mem
    apply inv.succeeded h
    rw [popped]
    exact List.mem_cons_of_mem _ mem

/-! ## The device -/

omit [DecidableEq P] [DecidableEq B] in
theorem waiting_cons (inv : s.Inv) (more : s.seen ≠ s.disk.availIdx) :
    s.waiting = s.disk.avail (s.seen % num) ::
      contents s.disk.avail num uint16s ((s.seen + 1) % uint16s) s.disk.availIdx := by
  apply contents_pop inv.seen_lt inv.availIdx_lt (by decide)
  intro empty
  exact more (count_eq_zero inv.seen_lt inv.availIdx_lt empty)

omit [DecidableEq P] [DecidableEq B] in
/-- The device takes a request. -/
theorem inv_begin (inv : s.Inv) (more : s.seen ≠ s.disk.availIdx) : s.begin.Inv := by
  have popped := waiting_cons inv more
  have moved : s.begin.flight =
      contents s.disk.avail num uint16s ((s.seen + 1) % uint16s) s.disk.availIdx ++
        (s.started.map Prod.fst ++ [s.disk.avail (s.seen % num)]) ++ s.reported := by
    simp only [flight, begin, List.map_append, List.map_singleton]
    rfl
  have perm : s.begin.flight.Perm s.flight := by
    rw [moved, flight, popped, List.cons_append, List.cons_append, ← List.append_assoc,
      List.append_assoc _ [_], List.singleton_append]
    exact List.perm_middle
  have mem : s.disk.avail (s.seen % num) ∈ s.flight := by
    rw [flight, popped]
    exact List.mem_cons_self
  obtain ⟨p, b, idx, waits, -, head⟩ := (inv.flight_iff _).mp mem
  refine ⟨inv.availIdx_lt, Nat.mod_lt _ (by decide), inv.deviceIdx_lt, inv.usedIdx_lt, inv.stopped,
    inv.shared, inv.formatted, inv.locked, perm.nodup_iff.mpr inv.once, ?_, ?_, inv.succeeded⟩
  · intro h
    rw [perm.mem_iff]
    exact inv.flight_iff h
  · intro x started
    rcases List.mem_append.mp started with old | new
    · exact inv.targets x old
    · obtain rfl := List.mem_singleton.mp new
      simp only
      rw [← head]
      exact (inv.formatted p b idx waits).lastAddr

omit [DecidableEq P] [DecidableEq B] in
/-- The device completes a request. -/
theorem inv_completed {x : Nat × Addr B} (inv : s.Inv) (found : s.started[k]? = some x) :
    (s.completed k x).Inv := by
  obtain ⟨lt, rfl⟩ := List.getElem?_eq_some_iff.mp found
  have mem : s.started[k] ∈ s.started := List.getElem_mem lt
  have target := inv.targets _ mem
  generalize name : s.started[k] = x at mem target ⊢
  obtain ⟨head, addr⟩ := x
  simp only at target
  subst target
  have inFlight : head ∈ s.flight := by
    rw [flight, List.mem_append, List.mem_append]
    exact .inl (.inr (List.mem_map_of_mem mem))
  have erased : (s.started.map Prod.fst).Perm
      (head :: (s.started.eraseIdx k).map Prod.fst) := by
    have perm := (List.getElem_cons_eraseIdx_perm lt).symm.map Prod.fst
    rwa [name, List.map_cons] at perm
  have notReported : head ∉ s.reported := by
    intro reported
    have once := inv.once
    rw [flight, List.nodup_append] at once
    exact once.2.2 head (List.mem_append_right _ (List.mem_map_of_mem mem)) head reported rfl
  have room : count uint16s s.disk.usedIdx s.disk.deviceIdx < num := by
    have length : (contents s.disk.used num uint16s s.disk.usedIdx s.disk.deviceIdx).length =
        count uint16s s.disk.usedIdx s.disk.deviceIdx := length_contents
    rw [← length]
    exact inv.room (List.sublist_append_right ..) notReported (inv.flight_lt inFlight)
  have pushed : (s.completed k (head, .status head)).reported = s.reported ++ [head] :=
    contents_push inv.usedIdx_lt inv.deviceIdx_lt (by decide) (by decide) room
  have perm : (s.completed k (head, .status head)).flight.Perm s.flight := by
    have before : s.flight.Perm
        (s.waiting ++ (head :: (s.started.eraseIdx k).map Prod.fst) ++ s.reported) :=
      (erased.append_left _).append_right _
    have last : (s.waiting ++ (s.started.eraseIdx k).map Prod.fst ++ (s.reported ++ [head])).Perm
        (head :: (s.waiting ++ (s.started.eraseIdx k).map Prod.fst ++ s.reported)) := by
      rw [← List.append_assoc]
      exact List.perm_append_singleton head _
    have middle : (s.waiting ++ (head :: (s.started.eraseIdx k).map Prod.fst) ++ s.reported).Perm
        (head :: (s.waiting ++ (s.started.eraseIdx k).map Prod.fst ++ s.reported)) :=
      List.perm_middle.append_right s.reported
    rw [flight, pushed]
    exact last.trans (middle.symm.trans before.symm)
  refine ⟨inv.availIdx_lt, inv.seen_lt, Nat.mod_lt _ (by decide), inv.usedIdx_lt, inv.stopped,
    inv.shared, ?_, inv.locked, perm.nodup_iff.mpr inv.once, ?_, ?_, ?_⟩
  · intro q c idx waits
    refine (inv.formatted q c idx waits).congr (fun _ _ => rfl) ?_
    simp only [completed, Disk.report, Disk.succeed]
    by_cases here : idx.first = head
    · rw [here, Function.update_self]
    · rw [Function.update_of_ne here]
  · intro h
    rw [perm.mem_iff]
    exact inv.flight_iff h
  · intro y started
    exact inv.targets y (List.mem_of_mem_eraseIdx started)
  · intro h mem
    rw [pushed] at mem
    simp only [completed, Disk.report, Disk.succeed]
    by_cases here : h = head
    · rw [here, Function.update_self]
    · rw [Function.update_of_ne here]
      rcases List.mem_append.mp mem with old | new
      · exact inv.succeeded h old
      · exact absurd (List.mem_singleton.mp new) here

/-! ## Runs -/

theorem inv_tryRw (inv : s.Inv) (none : (s.pc p).chain = []) (mine : s.lock b = some p)
    (write : Bool) (blockno : Nat) : (s.ended (s.tryRw p b write blockno)).Inv := by
  rw [tryRw]
  rcases s.disk.alloc3Desc_spec with ⟨d, failed, same⟩ | ⟨idx, found, fresh⟩
  · rw [failed]
    exact inv_alloc inv none mine same write blockno
  · rw [found]
    exact inv_submit inv none mine fresh write blockno

theorem inv_wake (inv : s.Inv) : (s.ended (s.wake p (s.pc p))).Inv := by
  cases pc : s.pc p with
  | idle => exact inv
  | alloc b write blockno =>
    exact inv_tryRw inv (by rw [pc]; rfl) (inv.locked p b (by rw [pc]; rfl)) write blockno
  | wait b idx =>
    rw [wake]
    cases owned : s.owned b with
    | true => exact inv
    | false =>
      have finished := (inv.formatted p b idx pc).finish (inv.chain_nodup pc) (inv.chain_lt pc)
        (inv.chain_used pc)
      rw [finished]
      exact inv_finish inv pc owned

omit [DecidableEq P] in
theorem inv_intrLoop (inv : s.Inv) : (s.ended s.intrBody).Inv := by
  by_cases none : s.disk.usedIdx = s.disk.deviceIdx
  · rw [intrBody, if_pos none]
    exact ⟨inv.availIdx_lt, inv.seen_lt, inv.deviceIdx_lt, inv.usedIdx_lt, inv.stopped, inv.shared,
      inv.formatted, inv.locked, inv.once, inv.flight_iff, inv.targets, inv.succeeded⟩
  · obtain ⟨p, b, idx, waits, -, head, body⟩ := intrBody_eq inv none
    rw [body]
    exact inv_intr inv none waits head

omit [DecidableEq P] [DecidableEq B] in
theorem inv_lock {lock : B → Option P} (inv : s.Inv)
    (locked : ∀ p b, (s.pc p).buf = some b → lock b = some p) :
    ({ s with lock := lock } : State P B).Inv :=
  ⟨inv.availIdx_lt, inv.seen_lt, inv.deviceIdx_lt, inv.usedIdx_lt, inv.stopped, inv.shared,
    inv.formatted, locked, inv.once, inv.flight_iff, inv.targets, inv.succeeded⟩

omit [DecidableEq P] [DecidableEq B] in
theorem isIdle_iff : s.isIdle p = true ↔ s.pc p = .idle := by
  unfold isIdle
  split
  next pc => simp [pc]
  next other => simpa using other

theorem inv_step {l : Label P B} (inv : s.Inv) (step : s.step l = some s') : s'.Inv := by
  unfold State.step at step
  split at step
  swap
  · cases step
  next enabled =>
  obtain ⟨-, enabled⟩ := enabled
  cases step
  cases l with
  | acquiresleep p b =>
    obtain ⟨-, free⟩ : s.isIdle p = true ∧ s.lock b = none := by simpa [State.enabled] using enabled
    refine inv_lock inv fun q c buf => ?_
    have lock := inv.locked q c buf
    by_cases here : c = b
    · rw [here, free] at lock
      cases lock
    · rwa [Function.update_of_ne here]
  | releasesleep p b =>
    obtain ⟨idle, mine⟩ : s.isIdle p = true ∧ s.lock b = some p := by
      simpa [State.enabled] using enabled
    refine inv_lock inv fun q c buf => ?_
    have lock := inv.locked q c buf
    by_cases here : c = b
    · rw [here, mine] at lock
      cases lock
      rw [isIdle_iff.mp idle] at buf
      cases buf
    · rwa [Function.update_of_ne here]
  | rw p b write blockno =>
    obtain ⟨idle, mine, -⟩ : s.isIdle p = true ∧ s.lock b = some p ∧ s.handling = false := by
      simpa [State.enabled, and_assoc] using enabled
    exact inv_tryRw inv (by rw [isIdle_iff.mp idle]; rfl) mine write blockno
  | resume p => exact inv_wake inv
  | intr =>
    exact ⟨inv.availIdx_lt, inv.seen_lt, inv.deviceIdx_lt, inv.usedIdx_lt, inv.stopped, inv.shared,
      inv.formatted, inv.locked, inv.once, inv.flight_iff, inv.targets, inv.succeeded⟩
  | intrLoop => exact inv_intrLoop inv
  | start => exact inv_begin inv (by simpa [State.enabled] using enabled)
  | complete k =>
    have lt : k < s.started.length := by simpa [State.enabled] using enabled
    have found : s.started[k]? = some s.started[k] := List.getElem?_eq_getElem lt
    simp only [next, found, Option.elim_some]
    exact inv_completed inv found

theorem inv_run {ls : List (Label P B)} (run : (init : State P B).exec ls = some s) : s.Inv :=
  Transition.exec_invariant (fun _ _ _ inv step => inv_step inv step) inv_init run

theorem owned_tryRw {c : B} {write : Bool} {blockno : Nat} (owned : s.owned c = true) :
    (s.ended (s.tryRw p b write blockno)).owned c = true := by
  rw [tryRw]
  rcases s.disk.alloc3Desc_spec with ⟨d, failed, -⟩ | ⟨idx, found, -⟩
  · rw [failed]
    exact owned
  · rw [found]
    by_cases here : c = b
    · subst c
      exact Function.update_self ..
    · exact (Function.update_of_ne here ..).trans owned

theorem owned_wake {c : B} (owned : s.owned c = true) (pc : Pc B) :
    (s.ended (s.wake p pc)).owned c = true := by
  cases pc with
  | idle => exact owned
  | alloc b write blockno => exact owned_tryRw owned
  | wait b idx =>
    rw [wake]
    split
    next => exact owned
    next =>
      cases s.disk.finish idx with
      | ok d => exact owned
      | error stop => exact owned

theorem owned_kept {l : Label P B} (step : s.step l = some s') (other : l ≠ .intrLoop)
    (owned : s.owned b = true) : s'.owned b = true := by
  unfold State.step at step
  split at step
  swap
  · cases step
  cases step
  cases l with
  | acquiresleep p b => exact owned
  | releasesleep p b => exact owned
  | rw p b write blockno => exact owned_tryRw owned
  | resume p => exact owned_wake owned (s.pc p)
  | intr => exact owned
  | intrLoop => exact absurd rfl other
  | start => exact owned
  | complete k =>
    simp only [next]
    cases s.started[k]? with
    | none => exact owned
    | some x => exact owned

/-- What holds in a state that is reached. -/
structure Managed (s : State P B) : Prop where
  -- no panic
  stopped : s.stopped = none
  -- the chains of the processes that wait, and the free descriptors
  parted : Shared (· < num) (fun i => s.disk.free i = true) fun p => (s.pc p).chain
  linked : ∀ p b idx, s.pc p = .wait b idx → Disk.Linked s.disk.desc idx
  -- without three free descriptors, the free ones stay
  alloc : (∃ d, s.disk.alloc3Desc = .ok (none, d) ∧ d.free = s.disk.free) ∨
    ∃ idx d, s.disk.alloc3Desc = .ok (some idx, d)
  -- a completion is one of a request in flight, and clears `disk` on its buffer
  completion : ∀ s', s.step .intrLoop = some s' → s.disk.usedIdx ≠ s.disk.deviceIdx →
    ∃ p b idx, s.pc p = .wait b idx ∧ idx.first = s.disk.id ∧ s.owned b = true ∧
      s'.owned = Function.update s.owned b false
  -- nothing else does
  others : ∀ l s' b, s.step l = some s' → s.owned b = true → s'.owned b = false → l = .intrLoop

/-- The descriptors of the disk, in every run of the driver with a device that succeeds. -/
theorem descriptors_managed (ls : List (Label P B)) (s : State P B)
    (run : (init : State P B).exec ls = some s) : s.Managed := by
  have inv := inv_run run
  refine ⟨inv.stopped, inv.shared, fun p b idx waits => (inv.formatted p b idx waits).linked,
    ?_, ?_, ?_⟩
  · rcases s.disk.alloc3Desc_spec with ⟨d, failed, desc, rfl, -⟩ | ⟨idx, found, -⟩
    · exact .inl ⟨_, failed, rfl⟩
    · exact .inr ⟨idx, _, found⟩
  · intro s' step more
    obtain ⟨p, b, idx, waits, owned, head, body⟩ := intrBody_eq inv more
    refine ⟨p, b, idx, waits, head, owned, ?_⟩
    unfold State.step at step
    split at step
    next =>
      cases step
      simp only [next, body]
      rfl
    next => cases step
  · intro l s' b step before after
    by_contra other
    exact Bool.false_ne_true (after.symm.trans (owned_kept step other before))

/-- Two processes make a request each; the device has both, and has completed the later one. -/
def twoRequests : List (Label Bool Bool) :=
  [.acquiresleep false false, .rw false false false 3, .acquiresleep true true,
    .rw true true true 5, .start, .start, .complete 1]

theorem descriptors_managed_two : ∃ s, (init : State Bool Bool).exec twoRequests = some s ∧
    s.pc false = .wait false ⟨0, 1, 2⟩ ∧ s.pc true = .wait true ⟨3, 4, 5⟩ ∧
    s.disk.usedIdx ≠ s.disk.deviceIdx ∧ s.Managed :=
  ⟨_, rfl, rfl, rfl, by decide, descriptors_managed twoRequests _ rfl⟩

end State

end Sistemas.Xv6.Virtio
