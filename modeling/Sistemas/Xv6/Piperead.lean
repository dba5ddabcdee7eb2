import Sistemas.Xv6.PipeFifo

/-! # What `piperead` takes out of a pipe

`piperead` in one piece.  Only `sleep` gives up the lock between the `acquire` and the `release`,
so from the last `sleep` on nobody else gets to the pipe; `copy_run` connects the loop that copies
with the steps of the kernel thread.  The byte is taken out of the ring before `copyout` is tried,
and it is gone when that fails.
-/

namespace Sistemas.Xv6

/-- One `sleep` in a loop that waits: whether the test of `killed` before it ends the call, and
    what the sleeper finds when it is woken. -/
structure Sleep (σ : Type) where
  killed : Bool
  after : σ

inductive Awake (σ : Type)
  -- not woken yet
  | asleep
  | killed (s : σ)
  -- the loop is left, and this is how the sleeps go on
  | ready (s : σ) (sleeps : List (Sleep σ))

/-- `while(empty){ if(killed(myproc())) return -1; sleep(); }` -/
def waitFor {σ : Type} (empty : σ → Bool) (s : σ) : List (Sleep σ) → Awake σ
  | [] => if empty s then .asleep else .ready s []
  | sleep :: sleeps =>
    if empty s then
      if sleep.killed then .killed s else waitFor empty sleep.after sleeps
    else .ready s (sleep :: sleeps)

theorem waitFor_ready {σ : Type} {empty : σ → Bool} {Q : σ → Prop} {s t : σ}
    {sleeps rest : List (Sleep σ)} (ready : waitFor empty s sleeps = .ready t rest) (here : Q s)
    (later : ∀ sleep ∈ sleeps, Q sleep.after) : Q t := by
  induction sleeps generalizing s with
  | nil =>
    unfold waitFor at ready
    split at ready
    next => cases ready
    next =>
      cases ready
      exact here
  | cons sleep sleeps ih =>
    unfold waitFor at ready
    split at ready
    next =>
      split at ready
      next => cases ready
      next =>
        refine ih ready (later sleep List.mem_cons_self) fun sleep' mem => ?_
        exact later sleep' (List.mem_cons_of_mem _ mem)
    next =>
      cases ready
      exact here

namespace Pipes

open Fs.Buffers (Sink)

variable {n : Nat} {addr : Sink} {m : Int} {i : Nat} {pi pi' : Pipe n} {bytes : List UInt8}

namespace Pipe

/-- The counters are of type `uint`. -/
structure Valid (pi : Pipe n) : Prop where
  nread_lt : pi.nread < 2 ^ 32
  nwrite_lt : pi.nwrite < 2 ^ 32

/-- The bytes in the ring, from `nread` on. -/
def ring (pi : Pipe n) : List UInt8 :=
  RingBuffer.contents pi.data pipesize (2 ^ 32) pi.nread pi.nwrite

/-- `pi->data[pi->nread % PIPESIZE]` -/
def front (pi : Pipe n) : UInt8 := pi.data (pi.nread % pipesize)

/-- `pi->nread++` -/
def pop (pi : Pipe n) : Pipe n := { pi with nread := (pi.nread + 1) % 2 ^ 32 }

theorem Valid.pop (valid : pi.Valid) : pi.pop.Valid :=
  ⟨Nat.mod_lt _ (by decide), valid.nwrite_lt⟩

theorem ring_empty (empty : pi.nread = pi.nwrite) : pi.ring = [] := by
  rw [← List.length_eq_zero_iff, ring, RingBuffer.length_contents, ← empty, RingBuffer.count_self]

theorem Valid.ring_cons (valid : pi.Valid) (more : pi.nread ≠ pi.nwrite) :
    pi.ring = pi.front :: pi.pop.ring := by
  apply RingBuffer.contents_pop valid.nread_lt valid.nwrite_lt (by decide)
  intro none_used
  exact more (RingBuffer.count_eq_zero valid.nread_lt valid.nwrite_lt none_used)

end Pipe

/-- The second loop of `piperead`: `i` at its end, the bytes that `copyout` has delivered, and
    the pipe. -/
def copyLoop (addr : Sink) (m : Int) (i : Nat) (pi : Pipe n) : Nat × List UInt8 × Pipe n :=
  if (i : Int) < m then
    if pi.nread = pi.nwrite then (i, [], pi)
    else if addr i then
      let (r, bytes, pi') := copyLoop addr m (i + 1) pi.pop
      (r, pi.front :: bytes, pi')
    else (i, [], pi.pop)
  else (i, [], pi)
termination_by (m - i).toNat

/-- `pi->nread == pi->nwrite && pi->writeopen` -/
def Pipe.waits (pi : Pipe n) : Bool := pi.nread = pi.nwrite ∧ pi.writeopen = true

/-- The result of the call, the bytes that it has delivered and the pipe; `none` while it has not
    returned. -/
def piperead (addr : Sink) (m : Int) (pi : Pipe n) (sleeps : List (Sleep (Pipe n))) :
    Option (Int × List UInt8 × Pipe n) :=
  match waitFor Pipe.waits pi sleeps with
  | .asleep => none
  | .killed pi => some (-1, [], pi)
  | .ready pi _ =>
    let (i, bytes, pi) := copyLoop addr m 0 pi
    some (i, bytes, pi)

/-! ## The steps of the kernel thread -/

namespace Kernel

variable {k : Kernel n} {p : Fin n}

theorem jump_modifyPipe_jump (f : Pipe n → Pipe n) (pc pc' : Pc n) :
    ((k.jump p pc).modifyPipe f).jump p pc' = (k.modifyPipe f).jump p pc' := by
  simp only [jump, modifyPipe, modifyProc, Kernel.mk.injEq, true_and]
  funext q
  split <;> rfl

theorem step_copy {r : Read} (state : (k.proc p).state = .running)
    (pc : (k.proc p).pc = .copy r) : k.step (p, .run) = some (k.runCopy p r) := by
  simp only [step, if_pos state, runThread, pc]

/-- The loop is what the thread does while it has the lock of the pipe. -/
theorem copy_run (state : (k.proc p).state = .running)
    (pc : (k.proc p).pc = .copy { addr := addr, n := m, i := i }) : ∃ steps,
      k.exec (turn p (List.replicate steps .run)) =
        some ((k.modifyPipe fun _ => (copyLoop addr m i k.pipe).2.2).jump p
          (.wakeup .nwrite (.release (copyLoop addr m i k.pipe).1) 0)) ∧
      delivered (k.trace (turn p (List.replicate steps .run))) =
        (copyLoop addr m i k.pipe).2.1 := by
  have move := step_copy state pc
  have shows : k.obs (p, .run) =
      if (i : Int) < m ∧ ¬ k.empty ∧ addr i then some (.delivered k.front) else none := by
    simp only [obs, pc]
  generalize pipe : k.pipe = pi
  fun_induction copyLoop addr m i pi generalizing k with
  | case1 i pi less empty =>
    have empty : k.empty := by rwa [Kernel.empty, pipe]
    refine ⟨1, ?_, ?_⟩
    · simp only [turn, List.replicate, List.map, Transition.exec, move, runCopy, if_pos less,
        if_pos empty]
      rw [← pipe]
      rfl
    · simp [turn, Transition.trace, shows, empty, move, delivered]
  | case2 i pi less more good r bytes pi' rest ih =>
    have more : ¬ k.empty := by rwa [Kernel.empty, pipe]
    let next : Read := { addr := addr, n := m, i := i + 1 }
    have copied : k.runCopy p { addr := addr, n := m, i := i } = k.pop.jump p (.copy next) := by
      simp only [runCopy, if_pos less, if_neg more, if_pos good, next]
    obtain ⟨steps, run, events⟩ := ih (k := k.pop.jump p (.copy next)) (by simpa using state)
      (by simp [next]) (step_copy (by simpa using state) (by simp [next]))
      (by simp [obs, next]) (by rw [jump_pipe, pop, modifyPipe_pipe, pipe]; rfl)
    have head : turn p (List.replicate (steps + 1) .run) =
        (p, .run) :: turn p (List.replicate steps .run) := by
      simp [turn, List.replicate_succ]
    have popped : ((k.pop.jump p (.copy next)).modifyPipe fun _ => pi').jump p
        (.wakeup .nwrite (.release r) 0) =
          (k.modifyPipe fun _ => pi').jump p (.wakeup .nwrite (.release r) 0) :=
      jump_modifyPipe_jump _ _ _
    rw [rest] at run events
    refine ⟨steps + 1, ?_, ?_⟩
    · rw [head, Transition.exec_cons_eq_some]
      exact ⟨_, move.trans (congrArg some copied), run.trans (congrArg some popped)⟩
    · have front : k.front = pi.front := by rw [front, pipe, Pipe.front]
      simp only [delivered] at events
      simp [head, Transition.trace, shows, less, more, good, move, copied, delivered, events, front]
  | case3 i pi less more bad =>
    have more : ¬ k.empty := by rwa [Kernel.empty, pipe]
    refine ⟨1, ?_, ?_⟩
    · simp only [turn, List.replicate, List.map, Transition.exec, move, runCopy, if_pos less,
        if_neg more, if_neg bad]
      rw [← pipe]
      rfl
    · simp [turn, Transition.trace, shows, bad, move, delivered]
  | case4 i pi done =>
    refine ⟨1, ?_, ?_⟩
    · simp only [turn, List.replicate, List.map, Transition.exec, move, runCopy, if_neg done]
      rw [← pipe]
      rfl
    · simp [turn, Transition.trace, shows, done, move, delivered]

end Kernel

/-! ## What is taken out -/

/-- A read that takes just what it delivers out of the pipe. -/
structure Consumes (pi : Pipe n) (r : Int) (bytes : List UInt8) (pi' : Pipe n) : Prop where
  taken : pi.ring = bytes ++ pi'.ring
  length : (bytes.length : Int) = r
  nread : pi'.nread = (pi.nread + bytes.length) % 2 ^ 32

theorem copyLoop_length {r : Nat} (loop : copyLoop addr m i pi = (r, bytes, pi')) :
    r = i + bytes.length := by
  fun_induction copyLoop addr m i pi generalizing r bytes pi' with
  | case1 => cases loop; rfl
  | case2 i pi less more good r' bytes' pi'' rest ih =>
    have ih := ih rest
    cases loop
    rw [List.length_cons]
    omega
  | case3 => cases loop; rfl
  | case4 => cases loop; rfl

theorem Consumes.stay (valid : pi.Valid) : Consumes pi 0 [] pi := by
  refine ⟨(List.nil_append _).symm, rfl, ?_⟩
  rw [List.length_nil, Nat.add_zero, Nat.mod_eq_of_lt valid.nread_lt]

/-- One byte that is delivered, and the rest. -/
theorem consumes_cons (valid : pi.Valid) (more : pi.nread ≠ pi.nwrite) {r : Int} :
    Consumes pi (r + 1) (pi.front :: bytes) pi' ↔ Consumes pi.pop r bytes pi' := by
  have ring := valid.ring_cons more
  have next : pi.pop.nread = (pi.nread + 1) % 2 ^ 32 := rfl
  have nread : (pi.nread + (bytes.length + 1)) % 2 ^ 32 =
      (pi.pop.nread + bytes.length) % 2 ^ 32 := by
    rw [next, Nat.mod_add_mod, Nat.add_assoc, Nat.add_comm 1]
  constructor
  · intro consumes
    refine ⟨?_, ?_, ?_⟩
    · have taken := consumes.taken
      rw [ring, List.cons_append] at taken
      exact (List.cons.inj taken).2
    · have length := consumes.length
      rw [List.length_cons] at length
      omega
    · rw [consumes.nread, List.length_cons, nread]
  · intro consumes
    refine ⟨?_, ?_, ?_⟩
    · rw [ring, consumes.taken, List.cons_append]
    · have length := consumes.length
      rw [List.length_cons]
      omega
    · rw [consumes.nread, List.length_cons, nread]

theorem copyLoop_consumes_iff {r : Nat} (valid : pi.Valid)
    (loop : copyLoop addr m i pi = (r, bytes, pi')) :
    Consumes pi bytes.length bytes pi' ↔
      ∀ k, i ≤ k → (k : Int) < m → k < i + pi.ring.length → addr k = true := by
  fun_induction copyLoop addr m i pi generalizing r bytes pi' with
  | case1 i pi less empty =>
    cases loop
    refine iff_of_true (.stay valid) fun k ge _ lt => ?_
    rw [Pipe.ring_empty empty] at lt
    exact absurd ge (Nat.not_le_of_lt lt)
  | case2 i pi less more good r' bytes' pi'' rest ih =>
    have next := ih valid.pop rest
    cases loop
    have one : ((pi.front :: bytes').length : Int) = bytes'.length + 1 := by simp
    rw [one, consumes_cons valid more, next, valid.ring_cons more, List.length_cons]
    constructor
    · intro rest_good k ge lt inside
      obtain rfl | gt := Nat.eq_or_lt_of_le ge
      · exact good
      · exact rest_good k gt lt (by omega)
    · intro all_good k ge lt inside
      exact all_good k (by omega) lt (by omega)
  | case3 i pi less more bad =>
    cases loop
    have ring := valid.ring_cons more
    refine iff_of_false (fun consumes => ?_) fun good => ?_
    · have taken := consumes.taken
      rw [ring, List.nil_append] at taken
      exact List.cons_ne_self _ _ taken
    · exact bad (good i (Nat.le_refl i) less (by rw [ring, List.length_cons]; omega))
  | case4 i pi done =>
    cases loop
    refine iff_of_true (.stay valid) fun k ge lt _ => ?_
    omega

/-- **A read consumes what it delivers** just when it can deliver every byte that it asks for and
    finds: the pipe that `start` is when the last `sleep` has returned. -/
theorem piperead_consumes_iff (addr : Sink) (m : Int) {sleeps : List (Sleep (Pipe n))}
    (valid : pi.Valid) (later : ∀ sleep ∈ sleeps, sleep.after.Valid) :
    (∀ r bytes pi', piperead addr m pi sleeps = some (r, bytes, pi') → 0 ≤ r →
      ∃ start rest, waitFor Pipe.waits pi sleeps = .ready start rest ∧
        Consumes start r bytes pi') ↔
    ∀ start rest, waitFor Pipe.waits pi sleeps = .ready start rest →
      ∀ k : Nat, (k : Int) < m → k < start.ring.length → addr k = true := by
  unfold piperead
  cases awake : waitFor Pipe.waits pi sleeps with
  | asleep => simp
  | killed pi =>
    refine iff_of_true (fun r bytes pi' returns nonneg => ?_) (by simp)
    cases returns
    cases nonneg
  | ready start rest =>
    have valid := waitFor_ready awake valid later
    cases loop : copyLoop addr m 0 start with
    | mk r result =>
      obtain ⟨bytes, pi'⟩ := result
      have length := copyLoop_length loop
      subst length
      have consumes := copyLoop_consumes_iff valid loop
      simp only [Nat.zero_le, Nat.zero_add, forall_const] at consumes
      simp only [loop, Nat.zero_add, Option.some.injEq, Prod.mk.injEq, Awake.ready.injEq]
      constructor
      · rintro all _ _ ⟨rfl, rfl⟩
        obtain ⟨_, _, ⟨rfl, rfl⟩, here⟩ := all _ _ _ ⟨rfl, rfl, rfl⟩ (Int.natCast_nonneg _)
        exact consumes.mp here
      · rintro good _ _ _ ⟨rfl, rfl, rfl⟩ -
        exact ⟨start, rest, ⟨rfl, rfl⟩, consumes.mpr (good start rest ⟨rfl, rfl⟩)⟩

/-- One byte in the ring. -/
def onePipe : Pipe 1 := { pipealloc 1 fun _ => 97 with nwrite := 1 }

theorem onePipe_valid : onePipe.Valid := ⟨by decide, by decide⟩

theorem onePipe_ready : waitFor Pipe.waits onePipe [] = .ready onePipe [] := rfl

/-- The byte is gone, and nobody has it. -/
theorem onePipe_not_consumes : ∃ r bytes pi',
    piperead (fun _ => false) 1 onePipe [] = some (r, bytes, pi') ∧ 0 ≤ r ∧
      ¬ ∃ start rest, waitFor Pipe.waits onePipe [] = .ready start rest ∧
        Consumes start r bytes pi' := by
  have loop : copyLoop (fun _ => false) 1 0 onePipe = (0, [], onePipe.pop) := by
    rw [copyLoop, if_pos (by decide), if_neg (by decide), if_neg (by decide)]
  refine ⟨0, [], onePipe.pop, ?_, Int.le_refl 0, ?_⟩
  · simp only [piperead, onePipe_ready, loop, Int.natCast_zero]
  · rintro ⟨start, rest, ready, consumes⟩
    cases onePipe_ready.symm.trans ready
    have nread := consumes.nread
    cases nread

theorem piperead_consumes_iff_one : ∃ pi',
    piperead (fun _ => true) 1 onePipe [] = some (1, [97], pi') ∧
      ∃ start rest, waitFor Pipe.waits onePipe [] = .ready start rest ∧
        Consumes start 1 [97] pi' := by
  have loop : copyLoop (fun _ => true) 1 0 onePipe = (1, [97], onePipe.pop) := by
    rw [copyLoop, if_pos (by decide), if_neg (by decide), if_pos rfl, copyLoop,
      if_neg (by decide)]
    rfl
  have returns : piperead (fun _ => true) 1 onePipe [] = some (1, [97], onePipe.pop) := by
    simp only [piperead, onePipe_ready, loop, Int.natCast_one]
  exact ⟨onePipe.pop, returns, (piperead_consumes_iff (fun _ => true) 1 onePipe_valid
    (by simp)).mpr (fun _ _ _ _ _ _ => rfl) _ _ _ returns (by decide)⟩

end Pipes

end Sistemas.Xv6
