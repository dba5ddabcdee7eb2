import Mathlib.Algebra.Order.BigOperators.Group.Finset
import Mathlib.Data.Fintype.Basic
import Sistemas.Xv6.Filewrite
import Sistemas.Xv6.Types

/-! # The order of the writes

The inode lock is what keeps the offset and the file together: whoever has it finds the offset
at the end of the bytes that have been written (`Core`), writes there, and moves the offset
before the lock is free again.  Of each call a beginning has been written, and the rest is still
to come (`Progress`).
-/

namespace Sistemas.Xv6.Filewrite

open Sistemas.Transition Fs

variable {m : Nat} {sb : Layout} {inum T : Nat} {s₀ s s' : State m} {p : Fin m}
  {es : List (Event m)}

/-! ## The bytes of a buffer -/

theorem length_bytesAt (addr : Source) (i n : Int) : (bytesAt addr i n).length = n.toNat := by
  simp [bytesAt]

theorem bytesAt_of_nonpos {addr : Source} {i n : Int} (nonpos : n ≤ 0) : bytesAt addr i n = [] := by
  rw [bytesAt, Int.toNat_of_nonpos nonpos]
  rfl

theorem bytesAt_split {addr : Source} {i n k : Int} (iPos : 0 ≤ i) (kPos : 0 ≤ k) (le : k ≤ n) :
    bytesAt addr i n = bytesAt addr i k ++ bytesAt addr (i + k) (n - k) := by
  have length : n.toNat = k.toNat + (n - k).toNat := by omega
  have start : (i + k).toNat = i.toNat + k.toNat := by omega
  rw [bytesAt, bytesAt, bytesAt, length, List.range_add, List.map_append, List.map_map, start]
  simp only [Function.comp_def, Nat.add_assoc]

theorem getD_bytesAt {addr : Source} {i n : Int} {k : Nat} (lt : k < n.toNat) :
    (bytesAt addr i n).getD k 0 = (addr (i.toNat + k)).getD 0 := by
  rw [List.getD_eq_getElem _ _ (by rwa [length_bytesAt])]
  simp [bytesAt]

/-! ## The invariant -/

/-- The process has the inode lock. -/
def Pc.Inside : Pc → Prop
  | .locked _ _ | .wrote _ _ _ | .advanced _ _ _ => True
  | _ => False

/-- By how much the offset is behind. -/
def Pc.pending : Pc → Nat
  | .wrote _ _ r => r.toNat
  | _ => 0

def State.pending (s : State m) : Nat :=
  match s.lock with
  | none => 0
  | some p => (s.pc p).pending

structure Call.Ok (c : Call) : Prop where
  start : 0 ≤ c.i
  le : 0 ≤ c.n → c.i ≤ c.n
  valid : ∀ k < c.n.toNat, (c.addr k).isSome

/-- A chunk of `n1` bytes at `i`. -/
structure Call.Chunk (c : Call) (n1 : Int) : Prop extends c.Ok where
  pos : 0 < n1
  inside : c.i + n1 ≤ c.n

/-- The bytes of the call from `i` on. -/
def Call.left (c : Call) (i : Int) : List UInt8 := bytesAt c.addr i (c.n - i)

/-- What is left of what the process is to write. -/
def Pc.Left : Pc → List UInt8 → Prop
  | .idle, left => left = []
  | .loop c, left => c.Ok ∧ left = c.left c.i
  | .begun c n1, left | .locked c n1, left => c.Chunk n1 ∧ left = c.left c.i
  | .wrote c n1 r, left | .advanced c n1 r, left | .unlocked c n1 r, left =>
    c.Chunk n1 ∧ r = n1 ∧ left = c.left (c.i + n1)

/-- The process has written a beginning of what it is to write. -/
def Progress (pc : Pc) (asked written : List UInt8) : Prop :=
  ∃ left, asked = written ++ left ∧ pc.Left left

/-- The file, of which `w` has been written up to `off`. -/
structure Core (sb : Layout) (inum T : Nat) (s₀ : State m) (w : List UInt8) (off : Nat)
    (ip : Dinode) (bufs : Buffers) : Prop where
  ready : Ready sb inum ip bufs
  offset : off = s₀.off + w.length
  size_eq : ip.size = max s₀.ip.size off
  contents_eq : ∀ q < ip.size, contents ip bufs.cached q =
    (contents s₀.ip s₀.bufs.cached).splice s₀.off w.length (fun i => w.getD i 0) q
  room : Room sb ip bufs.cached T

/-- Every chunk has been written where the one before it ended. -/
def Placed (start : Nat) (es : List (Event m)) : Prop :=
  ∀ pre p off bytes post, es = pre ++ .wrote p off bytes :: post →
    off = start + (joined Event.written pre).length

structure Inv (sb : Layout) (inum T : Nat) (s₀ : State m) (es : List (Event m)) (s : State m) :
    Prop where
  quiet : s.panic = none
  core : Core sb inum T s₀ (joined Event.written es) (s.off + s.pending) s.ip s.bufs
  lock_iff : ∀ p, s.lock = some p ↔ (s.pc p).Inside
  progress : ∀ p, Progress (s.pc p) (own Event.proc Event.asked p es)
    (own Event.proc Event.written p es)
  placed : Placed s₀.off es
  results : ∀ p n r, .returned p n r ∈ es → 0 ≤ n → r = n

/-! ## Moves that do not write -/

theorem pending_jump (pc : Pc) (outside : s.lock ≠ some p) :
    (s.jump p pc).pending = s.pending := by
  unfold State.pending State.jump
  cases lock : s.lock with
  | none => rfl
  | some q =>
    have ne : q ≠ p := by
      rintro rfl
      exact outside lock
    simp only [Function.update_of_ne ne]

theorem Placed.append {start : Nat} {e : Event m} (placed : Placed start es)
    (last : ∀ p off bytes, e = .wrote p off bytes →
      off = start + (joined Event.written es).length) : Placed start (es ++ [e]) := by
  intro pre p off bytes post eq
  cases post using List.reverseRecOn with
  | nil =>
    obtain ⟨rfl, eq'⟩ := List.append_inj' eq rfl
    exact last p off bytes (List.cons.inj eq').1
  | append_singleton post e' =>
    rw [← List.cons_append, ← List.append_assoc] at eq
    exact placed pre p off bytes post (List.append_inj' eq rfl).1

/-- An event that belongs to `p`, and where the others stand. -/
theorem progress_event {e : Event m} {pcs : Fin m → Pc} {pc : Pc}
    (before : ∀ q, Progress (pcs q) (own Event.proc Event.asked q es)
      (own Event.proc Event.written q es))
    (mine : e.proc = p)
    (here : Progress pc (own Event.proc Event.asked p (es ++ [e]))
      (own Event.proc Event.written p (es ++ [e]))) (q : Fin m) :
    Progress (Function.update pcs p pc q) (own Event.proc Event.asked q (es ++ [e]))
      (own Event.proc Event.written q (es ++ [e])) := by
  by_cases same : q = p
  · subst same
    rwa [Function.update_self]
  · have other : e.proc ≠ q := by
      rw [mine]
      exact Ne.symm same
    rw [Function.update_of_ne same, own_append, own_append, own_singleton_other _ _ other,
      own_singleton_other _ _ other, List.append_nil, List.append_nil]
    exact before q

theorem progress_silent {pcs : Fin m → Pc} {pc : Pc}
    (before : ∀ q, Progress (pcs q) (own Event.proc Event.asked q es)
      (own Event.proc Event.written q es))
    (here : Progress pc (own Event.proc Event.asked p es) (own Event.proc Event.written p es))
    (q : Fin m) :
    Progress (Function.update pcs p pc q) (own Event.proc Event.asked q es)
      (own Event.proc Event.written q es) := by
  by_cases same : q = p
  · subst same
    rwa [Function.update_self]
  · rw [Function.update_of_ne same]
    exact before q

theorem lock_jump {pc : Pc} (inv : Inv sb inum T s₀ es s) (outside : s.lock ≠ some p)
    (stays : ¬ pc.Inside) (q : Fin m) :
    s.lock = some q ↔ (Function.update s.pc p pc q).Inside := by
  by_cases same : q = p
  · subst same
    rw [Function.update_self]
    exact ⟨fun has => absurd has outside, fun has => absurd has stays⟩
  · rw [Function.update_of_ne same]
    exact inv.lock_iff q

theorem Inv.outside (inv : Inv sb inum T s₀ es s) (out : ¬ (s.pc p).Inside) :
    s.lock ≠ some p := fun has => out ((inv.lock_iff p).mp has)

/-- A move outside the lock. -/
theorem Inv.jump {pc : Pc} (inv : Inv sb inum T s₀ es s) (out : ¬ (s.pc p).Inside)
    (stays : ¬ pc.Inside)
    (here : Progress pc (own Event.proc Event.asked p es) (own Event.proc Event.written p es)) :
    Inv sb inum T s₀ es (s.jump p pc) := by
  have outside := inv.outside out
  refine ⟨inv.quiet, ?_, lock_jump inv outside stays, progress_silent inv.progress here, inv.placed,
    inv.results⟩
  rw [pending_jump pc outside]
  exact inv.core

/-- The same with an event, by which nothing is written. -/
theorem Inv.jump_event {pc : Pc} {e : Event m} (inv : Inv sb inum T s₀ es s)
    (out : ¬ (s.pc p).Inside) (stays : ¬ pc.Inside) (mine : e.proc = p) (silent : e.written = [])
    (notWrote : ∀ p off bytes, e ≠ .wrote p off bytes)
    (result : ∀ p n r, e = .returned p n r → 0 ≤ n → r = n)
    (here : Progress pc (own Event.proc Event.asked p (es ++ [e]))
      (own Event.proc Event.written p (es ++ [e]))) :
    Inv sb inum T s₀ (es ++ [e]) (s.jump p pc) := by
  have outside := inv.outside out
  refine ⟨inv.quiet, ?_, lock_jump inv outside stays, progress_event inv.progress mine here,
    inv.placed.append fun p off bytes eq => absurd eq (notWrote p off bytes), ?_⟩
  · rw [pending_jump pc outside, joined_append, joined_singleton, silent, List.append_nil]
    exact inv.core
  · intro q n r mem
    obtain old | new := List.mem_append.mp mem
    · exact inv.results q n r old
    · exact result q n r (List.mem_singleton.mp new).symm

/-! ## Under the lock -/

theorem State.pending_of_lock (lock : s.lock = some p) : s.pending = (s.pc p).pending := by
  rw [State.pending, lock]

/-- How far the owner is behind after its move. -/
theorem pending_owner (pc : Pc) (has : s.lock = some p) : (s.jump p pc).pending = pc.pending := by
  unfold State.pending State.jump
  simp only [has, Function.update_self]

theorem State.pending_free (lock : s.lock = none) : s.pending = 0 := by
  rw [State.pending, lock]

/-- What is left of a call is part of what is left of all of them. -/
theorem written_le (inv : Inv sb inum T s₀ es s) {left : List UInt8}
    (mine : own Event.proc Event.asked p es = own Event.proc Event.written p es ++ left) :
    (joined Event.written es).length + left.length ≤ (joined Event.asked es).length := by
  choose lefts split _ using inv.progress
  have here : lefts p = left := List.append_cancel_left ((split p).symm.trans mine)
  have lengths : ∀ q, (own Event.proc Event.asked q es).length =
      (own Event.proc Event.written q es).length + (lefts q).length := by
    intro q
    rw [split q, List.length_append]
  have single : (lefts p).length ≤ ∑ q, (lefts q).length :=
    Finset.single_le_sum (f := fun q => (lefts q).length) (fun _ _ => Nat.zero_le _)
      (Finset.mem_univ p)
  rw [length_joined Event.proc Event.written, length_joined Event.proc Event.asked]
  simp only [lengths, Finset.sum_add_distrib]
  rw [here] at single
  omega

theorem Inv.acquire {c : Call} {n1 : Int} (inv : Inv sb inum T s₀ es s)
    (pc : s.pc p = .begun c n1) (free : s.lock = none) :
    Inv sb inum T s₀ es ({ s with lock := some p }.jump p (.locked c n1)) := by
  have here := inv.progress p
  rw [pc] at here
  refine ⟨inv.quiet, ?_, ?_, progress_silent inv.progress here, inv.placed, inv.results⟩
  · have core := inv.core
    rw [State.pending_free free] at core
    have pending : ({ s with lock := some p }.jump p (.locked c n1)).pending = 0 :=
      pending_owner _ rfl
    rw [pending]
    exact core
  · intro q
    by_cases same : q = p
    · subst same
      simp [State.jump, Pc.Inside]
    · have outside : ¬ (s.pc q).Inside := by
        intro inside
        have has := (inv.lock_iff q).mpr inside
        rw [free] at has
        cases has
      simp [State.jump, Function.update_of_ne same, outside, Ne.symm same]

theorem Inv.release {c : Call} {n1 r : Int} (inv : Inv sb inum T s₀ es s)
    (pc : s.pc p = .advanced c n1 r) :
    Inv sb inum T s₀ es ({ s with lock := none }.jump p (.unlocked c n1 r)) := by
  have here := inv.progress p
  have has : s.lock = some p := (inv.lock_iff p).mpr (by rw [pc]; trivial)
  rw [pc] at here
  refine ⟨inv.quiet, ?_, ?_, progress_silent inv.progress here, inv.placed, inv.results⟩
  · have core := inv.core
    rw [State.pending_of_lock has, pc] at core
    exact core
  · intro q
    by_cases same : q = p
    · subst same
      simp [State.jump, Pc.Inside]
    · have outside : ¬ (s.pc q).Inside := by
        intro inside
        have other := (inv.lock_iff q).mpr inside
        rw [has] at other
        exact same (Option.some.inj other).symm
      simp [State.jump, Function.update_of_ne same, outside]

/-- A move of the owner, who stays the owner. -/
theorem lock_stays {pc : Pc} (inv : Inv sb inum T s₀ es s) (has : s.lock = some p)
    (inside : pc.Inside) (q : Fin m) :
    s.lock = some q ↔ (Function.update s.pc p pc q).Inside := by
  by_cases same : q = p
  · subst same
    rw [Function.update_self]
    exact ⟨fun _ => inside, fun _ => has⟩
  · rw [Function.update_of_ne same]
    exact inv.lock_iff q

theorem Inv.advance {c : Call} {n1 r : Int} (inv : Inv sb inum T s₀ es s)
    (pc : s.pc p = .wrote c n1 r) :
    Inv sb inum T s₀ es ({ s with
      off := if 0 < r then (s.off + r.toNat) % 2 ^ 32 else s.off }.jump p (.advanced c n1 r)) := by
  have here := inv.progress p
  have has : s.lock = some p := (inv.lock_iff p).mpr (by rw [pc]; trivial)
  rw [pc] at here
  obtain ⟨left, split, chunk, rfl, eq⟩ := here
  have core := inv.core
  rw [State.pending_of_lock has, pc] at core
  simp only [Pc.pending] at core
  refine ⟨inv.quiet, ?_, lock_stays inv has trivial,
    progress_silent inv.progress ⟨left, split, chunk, rfl, eq⟩, inv.placed, inv.results⟩
  have pending : ({ s with
      off := if 0 < r then (s.off + r.toNat) % 2 ^ 32 else s.off }.jump p
        (.advanced c r r)).pending = 0 := pending_owner _ has
  -- the offset is within the file, so it does not wrap
  have size := core.size_eq
  have small := (table_of_ilock core.ready.lt core.ready.lock).2.2.size
  have off_eq : (if 0 < r then (s.off + r.toNat) % 2 ^ 32 else s.off) = s.off + r.toNat := by
    rw [if_pos chunk.pos, Nat.mod_eq_of_lt (by omega)]
  rw [pending]
  simp only [State.jump, off_eq, Nat.add_zero]
  exact core

theorem getD_append_of_lt {w w' : List UInt8} {i : Nat} (lt : i < w.length) :
    (w ++ w').getD i 0 = w.getD i 0 := by
  rw [List.getD_append _ _ _ _ lt]

/-- The file after one more chunk. -/
theorem Core.write {w bytes : List UInt8} {off : Nat} {ip ip' : Dinode} {bufs bufs' : Buffers}
    {src : Source} (core : Core sb inum T s₀ w off ip bufs) (ready : Ready sb inum ip' bufs')
    (size : ip'.size = max ip.size (off + bytes.length)) (room : Room sb ip' bufs'.cached T)
    (same : ∀ k < bytes.length, bytes.getD k 0 = (src k).getD 0)
    (eq : ∀ q < ip'.size, contents ip' bufs'.cached q =
      (contents ip bufs.cached).splice off bytes.length (fun i => (src i).getD 0) q) :
    Core sb inum T s₀ (w ++ bytes) (off + bytes.length) ip' bufs' := by
  have offset := core.offset
  have size₀ := core.size_eq
  refine ⟨ready, ?_, ?_, ?_, room⟩
  · rw [List.length_append]
    omega
  · omega
  · intro q lt
    rw [eq q lt, List.length_append]
    by_cases new : off ≤ q ∧ q < off + bytes.length
    · have whole : s₀.off ≤ q ∧ q < s₀.off + (w.length + bytes.length) := by omega
      simp only [Bytes.splice, new, whole, and_self, if_true]
      rw [List.getD_append_right _ _ _ _ (by omega), show q - s₀.off - w.length = q - off by omega,
        same _ (by omega)]
    · rw [Bytes.splice_outside (by omega), core.contents_eq q (by omega)]
      by_cases old : s₀.off ≤ q ∧ q < s₀.off + w.length
      · have whole : s₀.off ≤ q ∧ q < s₀.off + (w.length + bytes.length) := by omega
        simp only [Bytes.splice, old, whole, and_self, if_true]
        rw [getD_append_of_lt (by omega)]
      · rw [Bytes.splice_outside (by omega), Bytes.splice_outside (by omega)]

theorem Inv.write {c : Call} {n1 : Int} (inv : Inv sb inum T s₀ es s) (pc : s.pc p = .locked c n1)
    (fits : T ≤ maxfile * bsize)
    (space : s₀.off + (joined Event.asked es).length ≤ T) :
    ∃ ip bufs, Buffers.writei sb inum s.ip (fun k => c.addr (c.i.toNat + k)) s.off n1.toNat s.bufs =
        .ok (some n1.toNat, ip, bufs) ∧
      Inv sb inum T s₀ (es ++ [.wrote p s.off (bytesAt c.addr c.i n1)])
        ({ s with ip := ip, bufs := bufs }.jump p (.wrote c n1 (returned (some n1.toNat)))) := by
  have here := inv.progress p
  have has : s.lock = some p := (inv.lock_iff p).mpr (by rw [pc]; trivial)
  rw [pc] at here
  obtain ⟨left, split, chunk, rfl⟩ := here
  have core := inv.core
  rw [State.pending_of_lock has, pc] at core
  simp only [Pc.pending, Nat.add_zero] at core
  have pos := chunk.pos
  have inside := chunk.inside
  have start := chunk.start
  have offset := core.offset
  have size := core.size_eq
  have below := written_le inv split
  rw [Call.left, length_bytesAt] at below
  have valid : ∀ k < n1.toNat, (c.addr (c.i.toNat + k)).isSome := fun k lt =>
    chunk.valid _ (by omega)
  obtain ⟨ip, bufs, written, ready, size', room, eq⟩ := writei_complete core.ready
    (show s.off ≤ s.ip.size by omega) (show s.off + n1.toNat ≤ T by omega) fits core.room valid
  refine ⟨ip, bufs, written, inv.quiet, ?_, lock_stays inv has trivial, ?_, ?_, ?_⟩
  · have pending : ({ s with ip := ip, bufs := bufs }.jump p
        (.wrote c n1 (returned (some n1.toNat)))).pending = n1.toNat := pending_owner _ has
    have length := length_bytesAt c.addr c.i n1
    rw [pending, joined_append, joined_singleton]
    have same : ∀ k < (bytesAt c.addr c.i n1).length,
        (bytesAt c.addr c.i n1).getD k 0 = (c.addr (c.i.toNat + k)).getD 0 :=
      fun k lt => getD_bytesAt (by rwa [length] at lt)
    have after := core.write ready (by rw [length]; exact size') room same
      (by rw [length]; exact eq)
    rw [length] at after
    exact after
  · refine progress_event inv.progress rfl ⟨c.left (c.i + n1), ?_, chunk, ?_, rfl⟩
    · have parts : bytesAt c.addr c.i (c.n - c.i) =
          bytesAt c.addr c.i n1 ++ bytesAt c.addr (c.i + n1) (c.n - c.i - n1) :=
        bytesAt_split start pos.le (by omega)
      rw [show c.n - c.i - n1 = c.n - (c.i + n1) by omega] at parts
      let e : Event m := .wrote p s.off (bytesAt c.addr c.i n1)
      have mine : e.proc = p := rfl
      have asked : e.asked = [] := rfl
      have written' : e.written = bytesAt c.addr c.i n1 := rfl
      rw [own_append, own_append, own_singleton_self _ _ mine, own_singleton_self _ _ mine, split,
        asked, written', List.append_nil, List.append_assoc, Call.left, parts]
      rfl
    · simp only [returned]
      omega
  · refine inv.placed.append fun q off bytes eq => ?_
    cases eq
    exact offset
  · intro q n r mem
    obtain old | new := List.mem_append.mp mem
    · exact inv.results q n r old
    · cases List.mem_singleton.mp new

/-! ## Runs -/

theorem Inv.call {addr : Source} {n : Int} (inv : Inv sb inum T s₀ es s)
    (valid : ∀ k < n.toNat, (addr k).isSome) (pc : s.pc p = .idle) :
    Inv sb inum T s₀ (es ++ [.called p (bytesAt addr 0 n)])
      (s.jump p (.loop { addr := addr, n := n, i := 0 })) := by
  have here := inv.progress p
  rw [pc] at here
  obtain ⟨left, split, rfl⟩ := here
  refine inv.jump_event (by rw [pc]; exact id) id rfl rfl (by simp) (by simp) ?_
  refine ⟨bytesAt addr 0 n, ?_, ⟨le_rfl, id, valid⟩, ?_⟩
  · let e : Event m := .called p (bytesAt addr 0 n)
    have mine : e.proc = p := rfl
    have asked : e.asked = bytesAt addr 0 n := rfl
    have written : e.written = [] := rfl
    rw [own_append, own_append, own_singleton_self _ _ mine, own_singleton_self _ _ mine, split,
      asked, written, List.append_nil]
  · rw [Call.left, Int.sub_zero]

theorem Inv.return {c : Call} (inv : Inv sb inum T s₀ es s) (pc : s.pc p = .loop c)
    (done : ¬ c.i < c.n) :
    Inv sb inum T s₀ (es ++ [.returned p c.n c.result]) (s.jump p .idle) := by
  have here := inv.progress p
  rw [pc] at here
  obtain ⟨left, split, ok, rfl⟩ := here
  refine inv.jump_event (by rw [pc]; exact id) id rfl rfl (by simp) ?_ ⟨[], ?_, rfl⟩
  · intro q n r eq nonneg
    cases eq
    have le := ok.le nonneg
    rw [Call.result, if_pos (by omega)]
  · have nothing : c.left c.i = [] := bytesAt_of_nonpos (by omega)
    let e : Event m := .returned p c.n c.result
    have mine : e.proc = p := rfl
    have asked : e.asked = [] := rfl
    have written : e.written = [] := rfl
    rw [own_append, own_append, own_singleton_self _ _ mine, own_singleton_self _ _ mine, split,
      asked, written, nothing, List.append_nil, List.append_nil]

theorem Inv.begin {c : Call} (inv : Inv sb inum T s₀ es s) (pc : s.pc p = .loop c)
    (more : c.i < c.n) :
    Inv sb inum T s₀ es (s.jump p (.begun c (min (c.n - c.i) maxBytes))) := by
  have here := inv.progress p
  rw [pc] at here
  obtain ⟨left, split, ok, rfl⟩ := here
  have max_eq : maxBytes = 3072 := rfl
  refine inv.jump (by rw [pc]; exact id) id ⟨_, split, ⟨ok, ?_, ?_⟩, rfl⟩
  · omega
  · omega

theorem Inv.again {c : Call} {n1 r : Int} (inv : Inv sb inum T s₀ es s)
    (pc : s.pc p = .unlocked c n1 r) :
    r = n1 ∧ Inv sb inum T s₀ es (s.jump p (.loop { c with i := c.i + r })) := by
  have here := inv.progress p
  rw [pc] at here
  obtain ⟨left, split, chunk, rfl, rfl⟩ := here
  have start := chunk.start
  have pos := chunk.pos
  refine ⟨rfl, inv.jump (by rw [pc]; exact id) id ⟨_, split, ⟨?_, ?_, chunk.valid⟩, rfl⟩⟩
  · show 0 ≤ c.i + r
    omega
  · intro _
    exact chunk.inside

/-- Every move keeps the invariant, as long as there is space for what is asked for. -/
theorem Inv.step {l : Move m} (inv : Inv sb inum T s₀ es s) (fits : T ≤ maxfile * bsize)
    (move : step sb inum s l = some s')
    (space : s₀.off + (joined Event.asked (es ++ (obs s l).toList)).length ≤ T) :
    Inv sb inum T s₀ (es ++ (obs s l).toList) s' := by
  have quiet := inv.quiet
  cases l with
  | call p addr n valid =>
    simp only [Filewrite.step, quiet] at move
    cases pc : s.pc p with
    | idle =>
      simp only [pc] at move
      cases move
      exact inv.call valid pc
    | _ => simp [pc] at move
  | run p =>
    simp only [Filewrite.step, quiet] at move
    cases pc : s.pc p with
    | idle => simp [pc, runPc] at move
    | loop c =>
      simp only [pc, runPc] at move
      simp only [obs, pc]
      by_cases more : c.i < c.n
      · rw [if_pos more] at move ⊢
        cases move
        simpa using inv.begin pc more
      · rw [if_neg more] at move ⊢
        cases move
        exact inv.return pc more
    | begun c n1 =>
      simp only [pc, runPc] at move
      simp only [obs, pc, Option.toList_none, List.append_nil]
      split at move
      next free =>
        cases move
        exact inv.acquire pc free
      next => cases move
    | locked c n1 =>
      simp only [obs, pc, Option.toList_some] at space ⊢
      have asked : (joined Event.asked es).length ≤
          (joined Event.asked (es ++ [.wrote p s.off (bytesAt c.addr c.i n1)])).length := by
        rw [joined_append, List.length_append]
        exact Nat.le_add_right _ _
      obtain ⟨ip, bufs, written, inv'⟩ := inv.write pc fits (by omega)
      simp only [pc, runPc, written] at move
      cases move
      exact inv'
    | wrote c n1 r =>
      simp only [pc, runPc] at move
      simp only [obs, pc, Option.toList_none, List.append_nil]
      cases move
      exact inv.advance pc
    | advanced c n1 r =>
      simp only [pc, runPc] at move
      simp only [obs, pc, Option.toList_none, List.append_nil]
      cases move
      exact inv.release pc
    | unlocked c n1 r =>
      obtain ⟨rfl, inv'⟩ := inv.again pc
      simp only [pc, runPc, ne_eq, not_true_eq_false, if_false] at move
      simp only [obs, pc, ne_eq, not_true_eq_false, if_false, Option.toList_none, List.append_nil]
      cases move
      exact inv'

/-- No call has been made, and the offset is inside the file. -/
structure Start (sb : Layout) (inum : Nat) (s₀ : State m) : Prop where
  quiet : s₀.panic = none
  free : s₀.lock = none
  idle : ∀ p, s₀.pc p = .idle
  ready : Ready sb inum s₀.ip s₀.bufs
  inside : s₀.off ≤ s₀.ip.size

/-- There is space for all the bytes that are to be written. -/
def Space (sb : Layout) (s₀ : State m) (es : List (Event m)) : Prop :=
  s₀.off + (joined Event.asked es).length ≤ maxfile * bsize ∧
    Room sb s₀.ip s₀.bufs.cached (s₀.off + (joined Event.asked es).length)

/-- All that the processes were to write is in the file, from where the offset was: what was
written is an interleaving of what each of them was to write. -/
structure Written (s₀ : State m) (es : List (Event m)) (s : State m) : Prop where
  offset : s.off = s₀.off + (joined Event.written es).length
  total : (joined Event.written es).length = (joined Event.asked es).length
  own_eq : ∀ p, own Event.proc Event.written p es = own Event.proc Event.asked p es
  size_eq : s.ip.size = max s₀.ip.size s.off
  contents_eq : ∀ q < s.ip.size, contents s.ip s.bufs.cached q =
    (contents s₀.ip s₀.bufs.cached).splice s₀.off (joined Event.written es).length
      (fun i => (joined Event.written es).getD i 0) q

theorem Start.inv (start : Start sb inum s₀) (room : Room sb s₀.ip s₀.bufs.cached T) :
    Inv sb inum T s₀ [] s₀ := by
  refine ⟨start.quiet, ⟨start.ready, ?_, ?_, ?_, room⟩, ?_, ?_, ?_, ?_⟩
  · rw [State.pending_free start.free]
    rfl
  · rw [State.pending_free start.free, Nat.add_zero]
    exact (Nat.max_eq_left start.inside).symm
  · intro q lt
    simp [Bytes.splice]
  · intro p
    rw [start.free, start.idle p]
    simp [Pc.Inside]
  · intro p
    rw [start.idle p]
    exact ⟨[], rfl, rfl⟩
  · intro pre p off bytes post eq
    simp at eq
  · intro p n r mem
    simp at mem

theorem Inv.written (inv : Inv sb inum T s₀ es s) (idle : ∀ p, s.pc p = .idle) :
    Written s₀ es s := by
  have free : s.lock = none := by
    cases has : s.lock with
    | none => rfl
    | some p =>
      have inside := (inv.lock_iff p).mp has
      rw [idle p] at inside
      exact inside.elim
  have core := inv.core
  rw [State.pending_free free, Nat.add_zero] at core
  have own_eq : ∀ p, own Event.proc Event.written p es = own Event.proc Event.asked p es := by
    intro p
    have here := inv.progress p
    rw [idle p] at here
    obtain ⟨left, split, rfl⟩ := here
    rw [split, List.append_nil]
  refine ⟨core.offset, ?_, own_eq, core.size_eq, core.contents_eq⟩
  rw [length_joined Event.proc Event.written, length_joined Event.proc Event.asked]
  simp only [own_eq]

theorem run_inv {ls : List (Move m)} (start : Start sb inum s₀)
    (run : exec (Filewrite.step sb inum) s₀ ls = some s)
    (space : Space sb s₀ (trace (Filewrite.step sb inum) obs s₀ ls)) :
    Inv sb inum (s₀.off + (joined Event.asked (trace (Filewrite.step sb inum) obs s₀ ls)).length)
      s₀ (trace (Filewrite.step sb inum) obs s₀ ls) s := by
  let T := s₀.off + (joined Event.asked (trace (Filewrite.step sb inum) obs s₀ ls)).length
  refine (along_of_trace (Q := fun es => s₀.off + (joined Event.asked es).length ≤ T)
    (D := fun _ _ => True) ?_ ?_ (start.inv space.2) run (Nat.le_refl _)).2
  · intro es es' le
    rw [joined_append, List.length_append] at le
    omega
  · intro es s l s' inv move le
    exact ⟨inv.step space.1 move le, trivial⟩

/-- Whatever the order of the moves, each chunk is written where the one before it ended, no
call fails, and once all calls have returned the file has got all their bytes. -/
theorem shared_offset_keeps_data {ls : List (Move m)} (start : Start sb inum s₀)
    (run : exec (Filewrite.step sb inum) s₀ ls = some s)
    (space : Space sb s₀ (trace (Filewrite.step sb inum) obs s₀ ls)) :
    s.panic = none ∧ Placed s₀.off (trace (Filewrite.step sb inum) obs s₀ ls) ∧
      (∀ p n r, .returned p n r ∈ trace (Filewrite.step sb inum) obs s₀ ls → 0 ≤ n → r = n) ∧
      ((∀ p, s.pc p = .idle) →
        Written s₀ (trace (Filewrite.step sb inum) obs s₀ ls) s) := by
  have inv := run_inv start run space
  exact ⟨inv.quiet, inv.placed, inv.results, inv.written⟩

/-! ## Two writers -/

/-- The bytes that a move asks to write. -/
def Move.asked : Move m → List UInt8
  | .call _ addr n _ => bytesAt addr 0 n
  | .run _ => []

theorem obs_asked (s : State m) (l : Move m) :
    joined Event.asked (obs s l).toList = l.asked := by
  cases l with
  | call p addr n valid => simp [obs, Move.asked, Event.asked]
  | run p =>
    cases pc : s.pc p with
    | loop c => by_cases more : c.i < c.n <;> simp [obs, pc, more, Move.asked, Event.asked]
    | unlocked c n1 r => by_cases whole : r = n1 <;> simp [obs, pc, whole, Move.asked, Event.asked]
    | _ => simp [obs, pc, Move.asked, Event.asked]

/-- What the processes are to write is what the calls in the run ask for. -/
theorem joined_asked {ls : List (Move m)} (run : exec (Filewrite.step sb inum) s ls = some s') :
    joined Event.asked (trace (Filewrite.step sb inum) obs s ls) = ls.flatMap Move.asked := by
  induction ls generalizing s with
  | nil => rfl
  | cons l ls ih =>
    obtain ⟨u, move, rest⟩ := exec_cons_eq_some.mp run
    rw [trace_cons ls move, joined_append, obs_asked, ih rest, List.flatMap_cons]

/-- Two processes with the same open file, at the end of its five letters. -/
def twoWriters : State 2 where
  off := 5
  ip := letters
  bufs := lettersBuffers
  lock := none
  pc := fun _ => .idle
  panic := none

/-- Two bytes `b` from one process and three bytes `c` from the other, which gets the lock
first. -/
def twoCalls : List (Move 2) :=
  [.call procA (fun _ => some 98) 2 (fun _ _ => rfl), .run procA,
    .call procB (fun _ => some 99) 3 (fun _ _ => rfl), .run procB] ++
    List.replicate 6 (.run procB) ++ List.replicate 6 (.run procA)

def Pc.isIdle : Pc → Bool
  | .idle => true
  | _ => false

theorem Pc.isIdle_iff {pc : Pc} : pc.isIdle ↔ pc = .idle := by
  cases pc <;> simp [Pc.isIdle]

theorem twoWriters_start : Start Mkfs.layout 2 twoWriters where
  quiet := rfl
  free := rfl
  idle := fun _ => rfl
  ready := letters_ready
  inside := Nat.le_refl 5

theorem twoWriters_room : Room Mkfs.layout letters lettersImage 10 := by
  have none_missing : missing letters lettersImage 10 = ∅ := by
    decide
  have direct : ¬ (letters.indirect = 0 ∧ ndirect < blocks 10) := by decide
  rw [Room, none_missing, Finset.card_empty, if_neg direct]
  exact Nat.zero_le _

theorem shared_offset_keeps_data_two : ∃ s,
    exec (Filewrite.step Mkfs.layout 2) twoWriters twoCalls = some s ∧
      Written twoWriters (trace (Filewrite.step Mkfs.layout 2) obs twoWriters twoCalls) s := by
  have ends : (exec (Filewrite.step Mkfs.layout 2) twoWriters twoCalls).any
      fun s => (s.pc 0).isIdle && (s.pc 1).isIdle := by
    decide +kernel
  obtain ⟨s, run, all⟩ := (Option.any_eq_true _ _).mp ends
  have idle : ∀ p, s.pc p = .idle := by
    obtain ⟨first, second⟩ := (Bool.and_eq_true _ _).mp all
    intro p
    match p with
    | 0 => exact Pc.isIdle_iff.mp first
    | 1 => exact Pc.isIdle_iff.mp second
  have asked : (joined Event.asked
      (trace (Filewrite.step Mkfs.layout 2) obs twoWriters twoCalls)).length = 5 := by
    rw [joined_asked run]
    rfl
  refine ⟨s, run, (shared_offset_keeps_data twoWriters_start run ⟨?_, ?_⟩).2.2.2 idle⟩
  · rw [asked]
    decide
  · rw [asked]
    exact twoWriters_room

end Sistemas.Xv6.Filewrite
