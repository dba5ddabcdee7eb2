import Sistemas.Xv6.PipeStep

/-! # A pipe loses no bytes

What `pipewrite` has put into the pipe is what `piperead` has handed on and then what is in
the ring (`Fifo`).  Only a `piperead` whose buffer cannot be written loses a byte, so the
readers' buffers have to be valid; the writers' need not be.
-/

namespace Sistemas.Xv6.Pipes

open Sistemas.Transition

/-! ## Calls with valid buffers -/

def Op.Valid : Op → Prop
  | .read r => ∀ i < r.n.toNat, r.addr i
  | _ => True

def Act.Valid : Act → Prop
  | .call c => c.op.Valid
  | _ => True

/-- The call that the process will go on with. -/
def Pc.op {n : Nat} : Pc n → Option Op
  | .acquire op | .body op | .sleepAcquire _ op | .sleepRelease _ op | .sleepMark _ op
  | .sched _ op | .sleepTidy op | .reacquire op => some op
  | .writeKilled w | .writeMore w | .wakeup _ (.sleep w) _ | .wakeupLocked _ (.sleep w) _ =>
    some (.write w)
  | .readKilled r | .copy r => some (.read r)
  | _ => none

/-! ## The bytes -/

def accepted (es : List Event) : List UInt8 :=
  es.filterMap fun
    | .accepted ch => some ch
    | _ => none

def delivered (es : List Event) : List UInt8 :=
  es.filterMap fun
    | .delivered ch => some ch
    | _ => none

namespace Kernel

variable {n : Nat} {k k' start : Kernel n} {p q : Fin n} {a : Act} {es : List Event}

/-- The bytes in the ring, from `nread` on. -/
def ring (k : Kernel n) : List UInt8 :=
  RingBuffer.contents k.pipe.data pipesize (2 ^ 32) k.pipe.nread k.pipe.nwrite

def ValidOps (k : Kernel n) : Prop := ∀ p op, (k.proc p).pc.op = some op → op.Valid

/-- A step moves no thread but its own. -/
theorem Step.pc_other (move : Step k p a k') (other : q ≠ p) :
    (k'.proc q).pc = (k.proc q).pc := by
  cases move <;> simp [wakeProc, killProc, other]

theorem Step.validOps (move : Step k p a k') (act : a.Valid) (valid : ValidOps k) :
    ValidOps k' := by
  intro q op eq
  by_cases self : q = p
  · subst self
    have old := valid q
    cases move <;> simp_all [Pc.op, Act.Valid] <;> grind [Op.Valid, Pc.op]
  · rw [move.pc_other self] at eq
    exact valid q op eq

structure Fifo (es : List Event) (k : Kernel n) : Prop where
  nread_lt : k.pipe.nread < 2 ^ 32
  nwrite_lt : k.pipe.nwrite < 2 ^ 32
  le : RingBuffer.count (2 ^ 32) k.pipe.nread k.pipe.nwrite ≤ pipesize
  order : accepted es = delivered es ++ k.ring

theorem Fifo.full_iff (fifo : Fifo es k) :
    k.full ↔ RingBuffer.count (2 ^ 32) k.pipe.nread k.pipe.nwrite = pipesize :=
  RingBuffer.full_iff fifo.nread_lt fifo.nwrite_lt (by decide)

theorem Fifo.empty_iff (fifo : Fifo es k) :
    k.empty ↔ RingBuffer.count (2 ^ 32) k.pipe.nread k.pipe.nwrite = 0 := by
  constructor
  · intro empty
    unfold Kernel.empty at empty
    rw [← empty]
    exact RingBuffer.count_self
  · exact RingBuffer.count_eq_zero fifo.nread_lt fifo.nwrite_lt

/-- A step that leaves the counters and the bytes alone. -/
theorem Fifo.silent (fifo : Fifo es k) (data : k'.pipe.data = k.pipe.data)
    (nread : k'.pipe.nread = k.pipe.nread) (nwrite : k'.pipe.nwrite = k.pipe.nwrite) :
    Fifo es k' := by
  refine ⟨?_, ?_, ?_, ?_⟩
  · rw [nread]
    exact fifo.nread_lt
  · rw [nwrite]
    exact fifo.nwrite_lt
  · rw [nread, nwrite]
    exact fifo.le
  · rw [ring, data, nread, nwrite]
    exact fifo.order

theorem Fifo.push (fifo : Fifo es k) (more : ¬ k.full) (ch : UInt8) :
    Fifo (es ++ [.accepted ch]) (k.push ch) := by
  rw [fifo.full_iff] at more
  have le := fifo.le
  have room : RingBuffer.count (2 ^ 32) k.pipe.nread k.pipe.nwrite < pipesize := by omega
  have small : pipesize < 2 ^ 32 := by decide
  refine ⟨fifo.nread_lt, Nat.mod_lt _ (by decide), ?_, ?_⟩
  · have count := RingBuffer.count_push fifo.nread_lt fifo.nwrite_lt (by omega)
    exact (count.trans_le room :)
  · have added : (k.push ch).ring = k.ring ++ [ch] :=
      RingBuffer.contents_push fifo.nread_lt fifo.nwrite_lt small (by decide) room
    have order := fifo.order
    simp only [accepted, delivered] at order
    simp [accepted, delivered, order, added]

theorem Fifo.pop (fifo : Fifo es k) (some_left : ¬ k.empty) :
    Fifo (es ++ [.delivered k.front]) k.pop := by
  rw [fifo.empty_iff] at some_left
  have le := fifo.le
  refine ⟨Nat.mod_lt _ (by decide), fifo.nwrite_lt, ?_, ?_⟩
  · have count := RingBuffer.count_pop fifo.nread_lt fifo.nwrite_lt some_left
    exact ((Nat.le_succ _).trans_eq count).trans le
  · have taken : k.ring = k.front :: k.pop.ring :=
      RingBuffer.contents_pop fifo.nread_lt fifo.nwrite_lt (by decide) some_left
    have order := fifo.order
    rw [taken] at order
    simp only [accepted, delivered] at order
    simp [accepted, delivered, order]

/-- What a move shows, and what it does to the ring. -/
theorem Step.shows (move : Step k p a k') :
    (∃ ch, obs k (p, a) = some (.accepted ch) ∧ ¬ k.full ∧ k'.pipe = (k.push ch).pipe) ∨
    (obs k (p, a) = some (.delivered k.front) ∧ ¬ k.empty ∧ k'.pipe = k.pop.pipe) ∨
    (∃ r, (k.proc p).pc = .copy r ∧ (r.i : Int) < r.n ∧ ¬ r.addr r.i) ∨
    (obs k (p, a) = none ∧ k'.pipe.data = k.pipe.data ∧ k'.pipe.nread = k.pipe.nread ∧
      k'.pipe.nwrite = k.pipe.nwrite) := by
  cases move with
  | writeByte w ch pc more byte => exact .inl ⟨ch, by simp [obs, pc, more, byte], more, rfl⟩
  | readByte r pc more some_left copied =>
    exact .inr (.inl ⟨by simp [obs, pc, more, some_left, copied], some_left, rfl⟩)
  | readFault r pc more some_left fault => exact .inr (.inr (.inl ⟨r, pc, more, fault⟩))
  | readDone r pc all =>
    have shown : obs k (p, .run) = none := by
      simp only [obs, pc, ite_eq_right_iff, reduceCtorEq, imp_false, not_and]
      exact fun more some_left => absurd (all more) some_left
    exact .inr (.inr (.inr ⟨shown, rfl, rfl, rfl⟩))
  | acquire op pc free =>
    obtain pc | pc := pc <;> exact .inr (.inr (.inr ⟨by simp [obs, pc], rfl, rfl, rfl⟩))
  | _ => exact .inr (.inr (.inr ⟨by simp_all [obs], rfl, rfl, rfl⟩))

theorem Step.fifo (move : Step k p a k') (valid : ValidOps k) (fifo : Fifo es k) :
    Fifo (es ++ (obs k (p, a)).toList) k' := by
  obtain ⟨ch, shown, more, pipe⟩ | ⟨shown, some_left, pipe⟩ | ⟨r, pc, more, fault⟩ |
    ⟨shown, data, nread, nwrite⟩ := move.shows
  · rw [shown]
    exact (fifo.push more ch).silent (by rw [pipe]) (by rw [pipe]) (by rw [pipe])
  · rw [shown]
    exact (fifo.pop some_left).silent (by rw [pipe]) (by rw [pipe]) (by rw [pipe])
  · have copied := valid p (.read r) (by rw [pc]; rfl) r.i (by omega)
    exact absurd copied fault
  · rw [shown, Option.toList_none, List.append_nil]
    exact fifo.silent data nread nwrite

/-! ## Runs -/

theorem Start.validOps (begin : Start start) : ValidOps start := by
  intro p op eq
  obtain ⟨pc, -⟩ | ⟨pc, -⟩ := begin.pc p <;> simp [pc, Pc.op] at eq

theorem Start.fifo (begin : Start start) : Fifo [] start := by
  obtain ⟨data, pipe⟩ := begin.pipe
  have zero_lt : 0 < 2 ^ 32 := Nat.two_pow_pos 32
  have unused : RingBuffer.count (2 ^ 32) start.pipe.nread start.pipe.nwrite = 0 := by
    rw [pipe]
    exact RingBuffer.count_self
  refine ⟨?_, ?_, ?_, ?_⟩
  · rw [pipe]
    exact zero_lt
  · rw [pipe]
    exact zero_lt
  · rw [unused]
    exact Nat.zero_le _
  · have nothing : start.ring = [] := by
      rw [← List.length_eq_zero_iff, ring, RingBuffer.length_contents, unused]
    rw [nothing]
    rfl

theorem exec_fifo {ls : List (Label n)} (begin : Start start) (run : start.exec ls = some k)
    (valid : ∀ l ∈ ls, l.2.Valid) : Fifo (start.trace ls) k := by
  have along : Along step (fun _ l => l.2.Valid) start ls := along_of_labels valid start
  refine (trace_invariant_along (P := fun es k => ValidOps k ∧ Fifo es k) ?_
    ⟨Start.validOps begin, Start.fifo begin⟩ run along).2
  intro es k ⟨p, a⟩ k' ⟨validOps, fifo⟩ act move
  exact ⟨(step_inv move).validOps act validOps, (step_inv move).fifo validOps fifo⟩

/-- **The pipe is a queue.**  Wherever a run leads, the bytes that were accepted are those that
    were delivered and then those in the ring. -/
theorem accepted_eq_delivered {ls : List (Label n)} (begin : Start start)
    (run : start.exec ls = some k) (valid : ∀ l ∈ ls, l.2.Valid) :
    accepted (start.trace ls) = delivered (start.trace ls) ++ k.ring ∧
      k.ring.length = (k.pipe.nwrite + 2 ^ 32 - k.pipe.nread) % 2 ^ 32 ∧
      k.ring.length ≤ pipesize := by
  have fifo := exec_fifo begin run valid
  refine ⟨fifo.order, RingBuffer.length_contents, ?_⟩
  rw [ring, RingBuffer.length_contents]
  exact fifo.le

/-- One process writes `ab`, and the other one reads a byte. -/
def twoRun : List (Label 2) :=
  turn procA (.call (.pipewrite (fun i => some (97 + UInt8.ofNat i)) 2) :: List.replicate 14 .run) ++
    turn procB (.call (.piperead (fun _ => true) 1) :: List.replicate 4 .run)

theorem accepted_eq_delivered_two : ∃ k, (fresh 2).exec twoRun = some k ∧
    delivered ((fresh 2).trace twoRun) = [97] ∧
      accepted ((fresh 2).trace twoRun) = delivered ((fresh 2).trace twoRun) ++ k.ring := by
  have valid : ∀ l ∈ twoRun, l.2.Valid := by
    simp [twoRun, turn, List.replicate, Act.Valid, Call.op, Op.Valid]
  exact ⟨_, rfl, rfl, (accepted_eq_delivered (fresh_start 2)
    (show (fresh 2).exec twoRun = some _ from rfl) valid).1⟩

end Kernel

end Sistemas.Xv6.Pipes
