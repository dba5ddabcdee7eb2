import Sistemas.Xv6.Growproc
import Sistemas.Xv6.UmallocRuns

/-! # malloc on the kernel's sbrk

`morecore` passes the number of bytes, a product of 64 bits, to `sbrk(int)`, and the kernel takes
a negative number for a smaller size.  As long as the products are below 2^31 the process gets
what it asks for; with a larger one it gets less, nothing, or loses memory, and does not see it.
-/

namespace Sistemas.Xv6.Umalloc.OnKernel

open Sistemas.Transition

/-- A `uint64` as an `int`. -/
def narrow (x : Nat) : Int := Int.bmod x (2 ^ 32)

inductive Got
  -- 0
  | null (h : Heap)
  -- the store to the new header is to a page that the process does not have
  | killed
  | found (h : Heap) (p : Nat)

/-- `morecore` behind `sbrk`. -/
def addMemory (fuel nu : Nat) (h : Heap) : Option (Nat × Nat) → Option Got
  | none => some (.null h)
  | some (hp, sz) =>
    let h : Heap := { h with brk := sz, obtained := h.obtained ++ [{ addr := hp, units := nu }] }
    if hp + unit ≤ Vm.pgRoundUp sz then do
      let h ← free fuel (hp + unit) (h.setSize hp nu)
      some (.found h (← h.freep))
    else some .killed

def morecore (grants : Nat → Bool) (fuel nu : Nat) (h : Heap) : Option Got :=
  let nu := max nu 4096
  addMemory fuel nu h (Vm.sysSbrk (grants h.obtained.length) (narrow (nu * unit)) h.brk)

/-- The loop of `malloc`. -/
def findLoop (grants : Nat → Bool) (nunits : Nat) : Nat → Heap → Nat → Nat → Option Got
  | 0, _, _, _ => none
  | fuel + 1, h, prevp, p =>
    if nunits ≤ h.size p then some (.found (take h prevp p nunits).1 (take h prevp p nunits).2)
    else if h.freep = some p then do
      match ← morecore grants fuel nunits h with
      | .null h => some (.null h)
      | .killed => some .killed
      | .found h p => findLoop grants nunits fuel h p (h.ptr p)
    else findLoop grants nunits fuel h p (h.ptr p)

/-- The header of the block that is found. -/
def malloc (base : Nat) (grants : Nat → Bool) (fuel nbytes : Nat) (h : Heap) : Option Got :=
  findLoop grants (nunitsFor nbytes) fuel (prepare base h).1 (prepare base h).2
    ((prepare base h).1.ptr (prepare base h).2)

/-! ## The program -/

structure Process extends State where
  killed : Bool

inductive Call
  | malloc (nbytes : Nat) (uint : nbytes < 2 ^ 32) (grants : Nat → Bool)
  | free (b : Allocated)
  | write (a ptr size : Nat)

/-- One call, with so much fuel for its loops. -/
def step (base : Nat) (s : Process) : Call × Nat → Option Process
  | (.malloc nbytes _ grants, fuel) =>
    if s.killed then none
    else do
      match ← malloc base grants fuel nbytes s.heap with
      | .null h => some { s with heap := h }
      | .killed => some { s with killed := true }
      | .found h p =>
        some { s with
          heap := h
          alloc := { addr := p, units := h.size p, nbytes := nbytes } :: s.alloc }
  | (.free b, fuel) =>
    if s.killed then none
    else (Umalloc.step base s.toState (.free b, fuel)).map fun t => { s with toState := t }
  | (.write a ptr size, fuel) =>
    if s.killed then none
    else (Umalloc.step base s.toState (.write a ptr size, fuel)).map fun t => { s with toState := t }

/-- Before the first call, in a process of `brk` bytes. -/
def start (ptr size : Nat → Nat) (brk : Nat) : Process :=
  { Umalloc.start ptr size brk with killed := false }

/-- A call has not been fooled: the process is alive and not smaller, and the blocks that the
    program has are below its end. -/
structure Honest (s s' : Process) : Prop where
  alive : s'.killed = false
  grows : s.heap.brk ≤ s'.heap.brk
  below : ∀ b ∈ s'.alloc, b.addr + unit + b.nbytes ≤ s'.heap.brk

/-- The kernel refuses what `malloc` asks for. -/
def Refused (s : Process) (nbytes : Nat) (grants : Nat → Bool) : Prop :=
  Vm.sysSbrk (grants s.heap.obtained.length) (narrow (max (nunitsFor nbytes) 4096 * unit))
    s.heap.brk = none

/-- The number of bytes that is asked for is one of an `int`, or they are refused. -/
def Sincere (s : Process) : Call → Prop
  | .malloc nbytes _ grants =>
    max (nunitsFor nbytes) 4096 * unit < 2 ^ 31 ∨ Refused s nbytes grants
  | _ => True

/-! ## Without large requests -/

variable {base nunits nu fuel brk k : Nat} {grants : Nat → Bool} {h h' : Heap} {s s' : Process}

theorem narrow_eq {x : Nat} (small : x < 2 ^ 31) : narrow x = x :=
  Int.bmod_eq_of_le (by omega) (by omega)

/-- The kernel gives `nu` units at a time, each behind the others. -/
def gap (grants : Nat → Bool) (nu brk k : Nat) : Sbrk := fun j =>
  if grants j ∧ brk + unit * nu * (j - k) + unit * nu ≤ Vm.physical then some 0 else none

/-- The size of the process after some of these. -/
structure Grown (nu brk k : Nat) (h : Heap) : Prop where
  le : k ≤ h.obtained.length
  brk : h.brk = brk + unit * nu * (h.obtained.length - k)
  low : h.brk ≤ Vm.physical

theorem Grown.congr (grown : Grown nu brk k h) (sameBrk : h'.brk = h.brk)
    (sameObtained : h'.obtained = h.obtained) : Grown nu brk k h' := by
  refine ⟨?_, ?_, ?_⟩
  · rw [sameObtained]
    exact grown.le
  · rw [sameBrk, sameObtained]
    exact grown.brk
  · rw [sameBrk]
    exact grown.low

theorem insert_brk (h : Heap) (bp p : Nat) :
    (Umalloc.insert h bp p).brk = h.brk ∧ (Umalloc.insert h bp p).obtained = h.obtained := by
  unfold Umalloc.insert joinPrev joinNext
  split <;> split <;> exact ⟨rfl, rfl⟩

theorem free_brk {ap : Nat} (freed : Umalloc.free fuel ap h = some h') :
    h'.brk = h.brk ∧ h'.obtained = h.obtained := by
  simp only [Umalloc.free, Option.bind_eq_bind, Option.bind_eq_some_iff] at freed
  obtain ⟨f, -, p, -, done⟩ := freed
  cases done
  exact insert_brk h (ap - unit) p

theorem take_brk (h : Heap) (prevp p nunits : Nat) :
    (take h prevp p nunits).1.brk = h.brk ∧ (take h prevp p nunits).1.obtained = h.obtained := by
  unfold take
  split <;> exact ⟨rfl, rfl⟩

/-- The kernel has what is asked for. -/
def Gives (grants : Nat → Bool) (nu : Nat) (h : Heap) : Prop :=
  grants h.obtained.length ∧ h.brk + unit * nu ≤ Vm.physical

theorem Grown.sbrk (grown : Grown nu brk k h) (gives : Gives grants nu h) :
    Umalloc.sbrk (gap grants nu brk k) nu h =
      some (h.brk, { h with
        brk := h.brk + unit * nu
        obtained := h.obtained ++ [{ addr := h.brk, units := nu }] }) := by
  have here : gap grants nu brk k h.obtained.length = some 0 := by
    rw [gap, ← grown.brk]
    exact if_pos gives
  have fits : h.brk + unit * nu ≤ maxMemory := by
    have high := gives.2
    unfold Vm.physical at high
    unfold maxMemory
    omega
  simp only [Umalloc.sbrk, here, Option.bind_eq_bind, Option.bind_some, Nat.add_zero, if_pos fits]

theorem Grown.sbrk_none (grown : Grown nu brk k h) (not : ¬ Gives grants nu h) :
    Umalloc.sbrk (gap grants nu brk k) nu h = none := by
  have here : gap grants nu brk k h.obtained.length = none := by
    rw [gap, ← grown.brk]
    exact if_neg not
  simp only [Umalloc.sbrk, here, Option.bind_eq_bind, Option.bind_none]

theorem sysSbrk_eq (grants : Nat → Bool) (low : h.brk ≤ Vm.physical) (pos : 0 < nu) (small : nu * unit < 2 ^ 31)
    [Decidable (Gives grants nu h)] :
    Vm.sysSbrk (grants h.obtained.length) (narrow (nu * unit)) h.brk =
      if Gives grants nu h then some (h.brk, h.brk + unit * nu) else none := by
  have positive : 0 < nu * unit := Nat.mul_pos pos (by decide)
  rw [narrow_eq small, Vm.sysSbrk_pos positive low small, Nat.mul_comm nu]
  by_cases gives : Gives grants nu h
  · rw [if_pos gives]
    exact if_pos gives
  · rw [if_neg gives]
    exact if_neg gives

def toGot (h : Heap) : Option (Heap × Nat) → Got
  | none => .null h
  | some r => .found r.1 r.2

theorem morecore_eq (grown : Grown (max nunits 4096) brk k h)
    (small : max nunits 4096 * unit < 2 ^ 31) :
    morecore grants fuel nunits h =
      (Umalloc.morecore (gap grants (max nunits 4096) brk k) fuel nunits h).map (toGot h) := by
  have pos : 0 < max nunits 4096 := by omega
  classical
  have asked := sysSbrk_eq grants grown.low pos small
  rw [morecore, asked]
  unfold Umalloc.morecore
  by_cases gives : Gives grants (max nunits 4096) h
  · have mapped : h.brk + unit ≤ Vm.pgRoundUp (h.brk + unit * max nunits 4096) := by
      have high := gives.2
      have fits : h.brk + unit * max nunits 4096 + Vm.pgsize ≤ 2 ^ 64 := by
        unfold Vm.physical at high
        unfold Vm.pgsize
        omega
      have upper := Vm.le_pgRoundUp fits
      have more : unit * 1 ≤ unit * max nunits 4096 := Nat.mul_le_mul_left unit pos
      omega
    rw [if_pos gives, addMemory]
    simp only [grown.sbrk gives, if_pos mapped]
    cases Umalloc.free fuel (h.brk + unit) _ with
    | none => rfl
    | some h' =>
      simp only [Option.bind_eq_bind, Option.bind_some]
      cases h'.freep <;> rfl
  · rw [if_neg gives, addMemory]
    simp only [grown.sbrk_none gives]
    rfl

/-- More memory comes behind the memory that there is. -/
theorem Grown.morecore {p : Nat} (grown : Grown (max nunits 4096) brk k h)
    (got : Umalloc.morecore (gap grants (max nunits 4096) brk k) fuel nunits h = some (some (h', p))) :
    Grown (max nunits 4096) brk k h' := by
  unfold Umalloc.morecore at got
  by_cases gives : Gives grants (max nunits 4096) h
  · simp only [grown.sbrk gives, Option.bind_eq_bind, Option.bind_eq_some_iff] at got
    obtain ⟨h₁, freed, f, -, done⟩ := got
    cases done
    obtain ⟨sameBrk, sameObtained⟩ := free_brk freed
    have le := grown.le
    refine ⟨?_, ?_, ?_⟩
    · rw [sameObtained]
      exact Nat.le_trans le (by simp [Heap.setSize])
    · rw [sameBrk, sameObtained]
      simp only [Heap.setSize, List.length_append, List.length_singleton]
      rw [grown.brk, Nat.sub_add_comm le, Nat.mul_add, Nat.mul_one, Nat.add_assoc]
    · rw [sameBrk]
      exact gives.2
  · simp only [grown.sbrk_none gives] at got
    cases got

def ofLoop (r : Heap × Option Nat) : Got := r.2.elim (.null r.1) (.found r.1)

/-- The loop does what it does on an `sbrk` that never takes memory away. -/
theorem findLoop_eq {prevp p : Nat} (grown : Grown (max nunits 4096) brk k h)
    (small : max nunits 4096 * unit < 2 ^ 31) :
    findLoop grants nunits fuel h prevp p =
      (Umalloc.findLoop (gap grants (max nunits 4096) brk k) nunits fuel h prevp p).map ofLoop := by
  induction fuel generalizing h prevp p with
  | zero => rfl
  | succ fuel ih =>
    rw [findLoop, Umalloc.findLoop]
    by_cases enough : nunits ≤ h.size p
    · rw [if_pos enough, if_pos enough]
      rfl
    rw [if_neg enough, if_neg enough]
    by_cases around : h.freep = some p
    · rw [if_pos around, if_pos around, morecore_eq grown small]
      cases got : Umalloc.morecore (gap grants (max nunits 4096) brk k) fuel nunits h with
      | none => rfl
      | some r =>
        cases r with
        | none => rfl
        | some r => exact ih (grown.morecore got)
    · rw [if_neg around, if_neg around]
      exact ih grown

theorem Grown.findLoop {prevp p : Nat} {r : Option Nat} (grown : Grown (max nunits 4096) brk k h)
    (ran : Umalloc.findLoop (gap grants (max nunits 4096) brk k) nunits fuel h prevp p =
      some (h', r)) : Grown (max nunits 4096) brk k h' := by
  induction fuel generalizing h prevp p with
  | zero => cases ran
  | succ fuel ih =>
    rw [Umalloc.findLoop] at ran
    split at ran
    next =>
      cases ran
      obtain ⟨sameBrk, sameObtained⟩ := take_brk h prevp p nunits
      exact grown.congr sameBrk sameObtained
    next =>
      split at ran
      next =>
        simp only [Option.bind_eq_bind, Option.bind_eq_some_iff] at ran
        obtain ⟨got, asked, rest⟩ := ran
        cases got with
        | none =>
          cases rest
          exact grown
        | some got => exact ih (grown.morecore asked) rest
      next => exact ih grown ran

/-! ## Refused requests -/

theorem findLoop_refused {prevp p : Nat}
    (refused : Vm.sysSbrk (grants h.obtained.length) (narrow (max nunits 4096 * unit)) h.brk = none) :
    findLoop grants nunits fuel h prevp p =
      (Umalloc.findLoop (fun _ => none) nunits fuel h prevp p).map ofLoop := by
  have null : ∀ fuel, morecore grants fuel nunits h = some (.null h) := by
    intro fuel
    rw [morecore, refused, addMemory]
  have none : ∀ fuel, Umalloc.morecore (fun _ => none) fuel nunits h = some none := fun _ => rfl
  induction fuel generalizing prevp p with
  | zero => rfl
  | succ fuel ih =>
    rw [findLoop, Umalloc.findLoop]
    by_cases enough : nunits ≤ h.size p
    · rw [if_pos enough, if_pos enough]
      rfl
    rw [if_neg enough, if_neg enough]
    by_cases around : h.freep = some p
    · rw [if_pos around, if_pos around, null, none]
      rfl
    · rw [if_neg around, if_neg around]
      exact ih

theorem findLoop_none_brk {prevp p : Nat} {r : Option Nat}
    (ran : Umalloc.findLoop (fun _ => none) nunits fuel h prevp p = some (h', r)) :
    h'.brk = h.brk := by
  induction fuel generalizing prevp p with
  | zero => cases ran
  | succ fuel ih =>
    rw [Umalloc.findLoop] at ran
    split at ran
    next =>
      cases ran
      exact (take_brk h prevp p nunits).1
    next =>
      split at ran
      next =>
        cases ran
        rfl
      next => exact ih ran

/-! ## Runs -/

/-- In each state of a run whose requests are small or refused. -/
structure Sound (base : Nat) (s : Process) : Prop where
  alive : s.killed = false
  sound : Umalloc.Sound base s.toState
  low : s.heap.brk ≤ Vm.physical

theorem below_brk {bs : List Block} {t : State} {b : Allocated} (owned : Owned base t bs)
    (mem : b ∈ t.alloc) : b.addr + unit + b.nbytes ≤ t.heap.brk := by
  have payload := owned.payload b mem
  have pos := owned.pos mem
  have last : b.Mem (b.stop - 1) := by
    simp only [Block.Mem, Block.stop, unit]
    omega
  have high := (owned.bounds mem last).2
  omega

theorem Sound.below (sound : Sound base s) :
    ∀ b ∈ s.alloc, b.addr + unit + b.nbytes ≤ s.heap.brk := by
  intro b mem
  rcases sound.sound with unused | ⟨bs, owned⟩
  · rw [unused.alloc] at mem
    cases mem
  · exact below_brk owned mem

theorem prepare_brk (base : Nat) (h : Heap) :
    (prepare base h).1.brk = h.brk ∧ (prepare base h).1.obtained = h.obtained := by
  unfold prepare
  split <;> exact ⟨rfl, rfl⟩

/-- The loop of `malloc` goes as on an `sbrk` that gives memory behind all that there was. -/
theorem malloc_eq (base fuel : Nat) {nbytes : Nat} {uint : nbytes < 2 ^ 32} (low : s.heap.brk ≤ Vm.physical)
    (sincere : Sincere s (.malloc nbytes uint grants)) : ∃ g : Sbrk,
      malloc base grants fuel nbytes s.heap =
        (Umalloc.findLoop g (nunitsFor nbytes) fuel (prepare base s.heap).1 (prepare base s.heap).2
          ((prepare base s.heap).1.ptr (prepare base s.heap).2)).map ofLoop ∧
      ∀ h' r, Umalloc.findLoop g (nunitsFor nbytes) fuel (prepare base s.heap).1
          (prepare base s.heap).2 ((prepare base s.heap).1.ptr (prepare base s.heap).2) =
        some (h', r) → h'.brk ≤ Vm.physical := by
  obtain ⟨sameBrk, sameObtained⟩ := prepare_brk base s.heap
  rcases sincere with small | refused
  · have grown : Grown (max (nunitsFor nbytes) 4096) s.heap.brk s.heap.obtained.length s.heap := by
      refine ⟨Nat.le_refl _, ?_, low⟩
      rw [Nat.sub_self, Nat.mul_zero, Nat.add_zero]
    have prepared := grown.congr sameBrk sameObtained
    exact ⟨_, findLoop_eq prepared small, fun h' r ran => (prepared.findLoop ran).low⟩
  · refine ⟨fun _ => none, findLoop_refused ?_, fun h' r ran => ?_⟩
    · rw [sameBrk, sameObtained]
      exact refused
    · rw [findLoop_none_brk ran, sameBrk]
      exact low

theorem Sound.malloc {nbytes : Nat} {uint : nbytes < 2 ^ 32} (sound : Sound base s)
    (sincere : Sincere s (.malloc nbytes uint grants))
    (ran : step base s (.malloc nbytes uint grants, fuel) = some s') :
    Sound base s' ∧ s.heap.brk ≤ s'.heap.brk := by
  obtain ⟨bs, owned⟩ := sound.sound.prepare
  obtain ⟨g, same, low⟩ := malloc_eq base fuel sound.low sincere
  have brk := (prepare_brk base s.heap).1
  obtain ⟨enough, ends⟩ :=
    findLoop_spec owned.room (prepare_freep base s.heap) (nunitsFor_pos nbytes) g
  simp only [step, sound.alive, Bool.false_eq_true, if_false, same] at ran
  cases found : Umalloc.findLoop g (nunitsFor nbytes) fuel (prepare base s.heap).1
      (prepare base s.heap).2 ((prepare base s.heap).1.ptr (prepare base s.heap).2) with
  | none =>
    rw [found] at ran
    cases ran
  | some r =>
    have high := low r.1 r.2 found
    have longer := findLoop_mono found (Nat.le_max_left fuel enough)
    rw [found] at ran
    rcases ends with no | ⟨h', bs', a, given, gives⟩
    · obtain rfl := Option.some.inj (longer.symm.trans (no _ (Nat.le_max_right fuel enough)))
      cases ran
      exact ⟨⟨rfl, .inr ⟨bs, owned⟩, high⟩, Nat.le_of_eq brk.symm⟩
    · obtain rfl := Option.some.inj (longer.symm.trans (gives _ (Nat.le_max_right fuel enough)))
      cases ran
      have owned' := owned.given given
      have more := given.kept.brk
      refine ⟨⟨rfl, .inr ⟨bs', ?_⟩, high⟩, by rw [← brk]; exact more⟩
      have units : h'.size a.addr = a.units := given.header.trans given.units.symm
      simp only [units]
      exact owned'

theorem Sound.step {call : Call} (sound : Sound base s) (sincere : Sincere s call)
    (ran : step base s (call, fuel) = some s') : Sound base s' ∧ s.heap.brk ≤ s'.heap.brk := by
  cases call with
  | malloc nbytes uint grants => exact sound.malloc sincere ran
  | free b =>
    simp only [OnKernel.step, sound.alive, Bool.false_eq_true, if_false,
      Option.map_eq_some_iff] at ran
    obtain ⟨t, freed, rfl⟩ := ran
    have after := sound.sound.step freed
    simp only [Umalloc.step] at freed
    split at freed
    next =>
      simp only [Option.bind_eq_bind, Option.bind_eq_some_iff] at freed
      obtain ⟨h, freed, done⟩ := freed
      cases done
      have brk := (free_brk freed).1
      exact ⟨⟨rfl, after, by simp only [brk]; exact sound.low⟩, Nat.le_of_eq brk.symm⟩
    next => cases freed
  | write a ptr size =>
    simp only [OnKernel.step, sound.alive, Bool.false_eq_true, if_false,
      Option.map_eq_some_iff] at ran
    obtain ⟨t, written, rfl⟩ := ran
    have after := sound.sound.step written
    simp only [Umalloc.step] at written
    split at written
    next =>
      cases written
      exact ⟨⟨rfl, after, sound.low⟩, Nat.le_refl _⟩
    next => cases written

/-! ## Large requests -/

theorem findLoop_skip {got : Got} {prevp p : Nat}
    (on : ∀ j < k, h.size (h.ptr^[j] p) < nunits ∧ h.freep ≠ some (h.ptr^[j] p))
    (ran : findLoop grants nunits fuel h prevp p = some got) :
    ∃ fuel prevp, findLoop grants nunits fuel h prevp (h.ptr^[k] p) = some got := by
  induction k generalizing prevp p fuel with
  | zero => exact ⟨fuel, prevp, ran⟩
  | succ k ih =>
    obtain ⟨little, further⟩ : h.size p < nunits ∧ h.freep ≠ some p := on 0 (Nat.succ_pos k)
    cases fuel with
    | zero => cases ran
    | succ fuel =>
      have next : findLoop grants nunits fuel h p (h.ptr p) = some got := by
        rwa [findLoop, if_neg (Nat.not_le.mpr little), if_neg further] at ran
      exact ih (fun j lt => on (j + 1) (Nat.succ_lt_succ lt)) next

/-- The loop takes a block that suffices. -/
theorem findLoop_enough {got : Got} {prevp p : Nat} (enough : nunits ≤ h.size p)
    (ran : findLoop grants nunits fuel h prevp p = some got) :
    got = .found (take h prevp p nunits).1 (take h prevp p nunits).2 := by
  cases fuel with
  | zero => cases ran
  | succ fuel =>
    rw [findLoop, if_pos enough] at ran
    exact (Option.some.inj ran).symm

/-- What is no reason for a call to be honest: the process is killed, or it has a block. -/
def Fooled : Got → Prop
  | .null _ => False
  | _ => True

/-- With more memory, as it believes, the loop finds a block. -/
theorem findLoop_fooled {got : Got} {bs : List Block} {f prevp : Nat} {c : Block}
    (list : FreeList base h bs) (freep : h.freep = some f) (mem : c ∈ bs)
    (enough : nunits ≤ c.units) (ran : findLoop grants nunits fuel h prevp (h.ptr f) = some got) :
    Fooled got := by
  obtain ⟨k, on, found⟩ := list.search freep nunits
  have here : nunits ≤ h.size (h.ptr^[k + 1] f) :=
    found.resolve_right fun none => absurd (none.2 c (.tail _ mem)) (Nat.not_lt.mpr enough)
  obtain ⟨fuel', prevp', ran'⟩ := findLoop_skip
    (fun j lt => ⟨(on j lt).1, fun same => (on j lt).2 (Option.some.inj (same.symm.trans freep))⟩) ran
  rw [findLoop_enough here ran']
  trivial

theorem findLoop_asks {got : Got} {prevp p : Nat} (little : h.size p < nunits)
    (around : h.freep = some p) (ran : findLoop grants nunits (fuel + 1) h prevp p = some got) :
    ∃ m, morecore grants fuel nunits h = some m ∧
      ((∀ h p, m ≠ .found h p) ∧ m = got ∨
        ∃ h' p', m = .found h' p' ∧ findLoop grants nunits fuel h' p' (h'.ptr p') = some got) := by
  rw [findLoop, if_neg (Nat.not_le.mpr little), if_pos around] at ran
  simp only [Option.bind_eq_bind, Option.bind_eq_some_iff] at ran
  obtain ⟨m, asked, rest⟩ := ran
  refine ⟨m, asked, ?_⟩
  cases m with
  | null h' => exact .inl ⟨by simp, Option.some.inj rest⟩
  | killed => exact .inl ⟨by simp, Option.some.inj rest⟩
  | found h' p' => exact .inr ⟨h', p', rfl, rest⟩

/-- `sbrk` has succeeded, whatever the size is now. -/
theorem addMemory_found {bs : List Block} {sz : Nat} {m : Got} (room : Room base h bs)
    (low : h.brk ≤ Vm.physical) (pos : 0 < nu) (bound : nu < 2 ^ 29)
    (ran : addMemory fuel nu h (some (h.brk, sz)) = some m) :
    m = .killed ∨ ∃ h' bs' f c, m = .found h' f ∧ FreeList base h' bs' ∧ h'.freep = some f ∧
      c ∈ bs' ∧ nu ≤ c.units := by
  have fits : h.brk + unit * nu ≤ maxMemory := by
    unfold Vm.physical at low
    unfold maxMemory unit
    omega
  obtain ⟨list, loose⟩ := room.extend (Nat.le_refl h.brk) fits pos
  rw [addMemory] at ran
  split at ran
  swap
  · exact .inl (Option.some.inj ran).symm
  next mapped =>
    simp only [Option.bind_eq_bind, Option.bind_eq_some_iff] at ran
    obtain ⟨h₁, freed, f, freep, done⟩ := ran
    cases done
    -- the list is one of a heap with this size as well
    have list' : FreeList base (({ h with
        brk := sz, obtained := h.obtained ++ [{ addr := h.brk, units := nu }] } : Heap).setSize
          h.brk nu) bs :=
      ⟨list.chain.congr fun _ _ => ⟨rfl, rfl⟩, list.apart, list.pos, list.below, list.freep⟩
    have loose' : Loose base (({ h with
        brk := sz, obtained := h.obtained ++ [{ addr := h.brk, units := nu }] } : Heap).setSize
          h.brk nu) bs { addr := h.brk, units := nu } :=
      ⟨loose.size, loose.pos, loose.low, loose.below, loose.disjoint⟩
    obtain ⟨enough, h₂, bs', result, runs⟩ := free_spec list' loose'
    have longer := free_mono freed (Nat.le_max_left fuel enough)
    obtain rfl := Option.some.inj (longer.symm.trans (runs _ (Nat.le_max_right fuel enough)))
    obtain ⟨c, mem, whole⟩ := result.whole
    exact .inr ⟨h₁, bs', f, c, rfl, result.list, freep, mem, whole⟩

theorem nunitsFor_lt {nbytes : Nat} (uint : nbytes < 2 ^ 32) :
    max (nunitsFor nbytes) 4096 < 2 ^ 29 := by
  have units : (nbytes + 16 - 1) / 16 + 1 < 2 ^ 29 := by omega
  exact Nat.max_lt.mpr ⟨units, by decide⟩

theorem nunitsFor_large {nbytes : Nat} (large : ¬ max (nunitsFor nbytes) 4096 * unit < 2 ^ 31) :
    2 ^ 30 ≤ nbytes := by
  by_contra small
  have units : (nbytes + 16 - 1) / 16 + 1 < 2 ^ 27 := by omega
  have both : max (nunitsFor nbytes) 4096 < 2 ^ 27 := Nat.max_lt.mpr ⟨units, by decide⟩
  have product : max (nunitsFor nbytes) 4096 * unit < 2 ^ 27 * unit :=
    Nat.mul_lt_mul_of_pos_right both (by decide)
  exact large product

/-- A request that is not refused ends with a block, or with the process. -/
theorem malloc_fooled {bs : List Block} {got : Got} {nbytes : Nat} {t : State}
    (owned : Owned base { t with heap := (prepare base t.heap).1 } bs)
    (low : t.heap.brk ≤ Vm.physical) (uint : nbytes < 2 ^ 32)
    (given : Vm.sysSbrk (grants t.heap.obtained.length)
      (narrow (max (nunitsFor nbytes) 4096 * unit)) t.heap.brk ≠ none)
    (ran : malloc base grants fuel nbytes t.heap = some got) : Fooled got := by
  obtain ⟨sameBrk, sameObtained⟩ := prepare_brk base t.heap
  have freep := prepare_freep base t.heap
  rw [malloc] at ran
  rw [← sameBrk, ← sameObtained] at given
  rw [← sameBrk] at low
  generalize (prepare base t.heap).1 = h at owned freep ran low given
  generalize (prepare base t.heap).2 = f at freep ran
  have room := owned.room
  obtain ⟨k, on, here | ⟨around, none⟩⟩ := room.list.search freep (nunitsFor nbytes)
  all_goals
    obtain ⟨fuel', prevp', ran'⟩ := findLoop_skip (fun j lt =>
      ⟨(on j lt).1, fun same => (on j lt).2 (Option.some.inj (same.symm.trans freep))⟩) ran
  · rw [findLoop_enough here ran']
    trivial
  · cases fuel' with
    | zero => cases ran'
    | succ fuel' =>
    obtain ⟨start, memF, freep'⟩ := room.list.freep
    obtain rfl : f = start.addr := Option.some.inj (freep.symm.trans freep')
    have little : h.size (h.ptr^[k] (h.ptr start.addr)) < nunitsFor nbytes := by
      have back : h.ptr^[k] (h.ptr start.addr) = start.addr := around
      rw [back, room.list.chain.size memF]
      exact none start memF
    obtain ⟨m, asked, result⟩ := findLoop_asks little (freep.trans (congrArg some around.symm)) ran'
    obtain ⟨sz, given⟩ : ∃ sz, Vm.sysSbrk (grants h.obtained.length)
        (narrow (max (nunitsFor nbytes) 4096 * unit)) h.brk = some (h.brk, sz) := by
      cases grown : Vm.growproc (grants h.obtained.length)
          (narrow (max (nunitsFor nbytes) 4096 * unit)) h.brk with
      | none =>
        rw [Vm.sysSbrk, grown] at given
        exact absurd rfl given
      | some sz =>
        refine ⟨sz, ?_⟩
        rw [Vm.sysSbrk, grown, Option.map_some]
    rw [morecore, given] at asked
    have pos : 0 < max (nunitsFor nbytes) 4096 := by omega
    have bound := nunitsFor_lt uint
    rcases addMemory_found room low pos bound asked with rfl | ⟨h', bs', f', c, rfl, list, freep', mem, whole⟩
    · rcases result with ⟨-, rfl⟩ | ⟨h', p', same, -⟩
      · trivial
      · cases same
    · rcases result with ⟨other, -⟩ | ⟨h'', p'', same, rest⟩
      · exact absurd rfl (other h' f')
      · cases same
        exact findLoop_fooled list freep' mem (Nat.le_trans (Nat.le_max_left ..) whole) rest

/-! ## Runs with large requests -/

theorem morecore_low {nu' : Nat} {m : Got} (low : h.brk ≤ Vm.physical)
    (ran : morecore grants fuel nu' h = some m) :
    ∀ h' p, m = .found h' p → h'.brk ≤ Vm.physical := by
  rintro h' p rfl
  rw [morecore] at ran
  cases asked : Vm.sysSbrk (grants h.obtained.length) (narrow (max nu' 4096 * unit)) h.brk with
  | none =>
    rw [asked, addMemory] at ran
    cases ran
  | some r =>
    have size := Vm.sysSbrk_low low asked
    rw [asked, addMemory] at ran
    split at ran
    swap
    · cases ran
    · simp only [Option.bind_eq_bind, Option.bind_eq_some_iff] at ran
      obtain ⟨h₁, freed, f, -, done⟩ := ran
      cases done
      rw [(free_brk freed).1]
      exact size

theorem findLoop_low {prevp p p' : Nat} (low : h.brk ≤ Vm.physical)
    (ran : findLoop grants nunits fuel h prevp p = some (.found h' p')) :
    h'.brk ≤ Vm.physical := by
  induction fuel generalizing h prevp p with
  | zero => cases ran
  | succ fuel ih =>
    by_cases enough : nunits ≤ h.size p
    · have same := findLoop_enough enough ran
      cases same
      rw [(take_brk h prevp p nunits).1]
      exact low
    by_cases around : h.freep = some p
    · obtain ⟨m, asked, ⟨other, rfl⟩ | ⟨h₁, p₁, rfl, rest⟩⟩ :=
        findLoop_asks (Nat.lt_of_not_le enough) around ran
      · exact absurd rfl (other h' p')
      · exact ih (morecore_low low asked h₁ p₁ rfl) rest
    · rw [findLoop, if_neg enough, if_neg around] at ran
      exact ih low ran

/-- A large request that is not refused fools `malloc`. -/
theorem Sound.sincere {call : Call} (sound : Sound base s)
    (ran : OnKernel.step base s (call, fuel) = some s') (honest : Honest s s') :
    Sincere s call := by
  cases call with
  | free b => trivial
  | write a ptr size => trivial
  | malloc nbytes uint grants =>
    by_contra large
    obtain ⟨notSmall, given⟩ := not_or.mp large
    obtain ⟨bs, owned⟩ := sound.sound.prepare
    simp only [OnKernel.step, sound.alive, Bool.false_eq_true, if_false, Option.bind_eq_bind,
      Option.bind_eq_some_iff] at ran
    obtain ⟨got, ends, done⟩ := ran
    have fooled := malloc_fooled owned sound.low uint given ends
    cases got with
    | null h => exact fooled
    | killed =>
      cases done
      have alive := honest.alive
      cases alive
    | found h p =>
      cases done
      have below := honest.below _ List.mem_cons_self
      have low : (prepare base s.heap).1.brk ≤ Vm.physical := by
        rw [(prepare_brk base s.heap).1]
        exact sound.low
      have high : h.brk ≤ Vm.physical := findLoop_low low ends
      have many := nunitsFor_large notSmall
      unfold Vm.physical at high
      simp only at below
      omega

/-- `malloc` is not fooled just as long as no request is large. -/
theorem malloc_honest_iff {base brk : Nat} {ptr size : Nat → Nat} {ls : List (Call × Nat)}
    {s : Process} (low : base + unit ≤ brk) (high : brk ≤ Vm.physical)
    (run : exec (step base) (start ptr size brk) ls = some s) :
    Along (step base) (fun s l => ∀ s', step base s l = some s' → Honest s s')
        (start ptr size brk) ls ↔
      Along (step base) (fun s l => Sincere s l.1) (start ptr size brk) ls := by
  have unused : Unused base (Umalloc.start ptr size brk) := ⟨rfl, rfl, rfl, low⟩
  have begin : Sound base (start ptr size brk) := ⟨rfl, .inl unused, high⟩
  constructor
  · intro honest
    refine Along.of_invariant (P := Sound base) (fun s l s' sound honest ran => ?_)
      (fun s l s' sound honest ran => ?_) honest run begin
    · exact (sound.step (sound.sincere ran (honest s' ran)) ran).1
    · exact sound.sincere ran (honest s' ran)
  · intro sincere
    refine Along.of_invariant (P := Sound base) (fun s l s' sound sincere ran => ?_)
      (fun s l s' sound sincere ran t next => ?_) sincere run begin
    · exact (sound.step sincere ran).1
    · obtain ⟨after, grows⟩ := sound.step sincere next
      exact ⟨after.alive, grows, after.below⟩

/-- After 64 kilobytes the size of the process is no multiple of a page, and 2 gigabytes are
    minus 2 gigabytes. -/
def fooled : List (Call × Nat) :=
  [(.malloc 65536 (by decide) fun _ => true, 9), (.malloc 2147483632 (by decide) fun _ => true, 9)]

/-- Two blocks, the first of which is given back and taken again in part. -/
def served : List (Call × Nat) :=
  [(.malloc 65536 (by decide) fun _ => true, 9), (.malloc 24 (by decide) fun _ => true, 9),
    (.free { addr := 12288, units := 4097, nbytes := 65536 }, 9), (.malloc 100 (by decide) fun _ => true, 9)]

instance (s : Process) : (call : Call) → Decidable (Sincere s call)
  | .malloc nbytes _ grants => inferInstanceAs (Decidable (_ < _ ∨
      Vm.sysSbrk (grants s.heap.obtained.length) (narrow (max (nunitsFor nbytes) 4096 * unit))
        s.heap.brk = none))
  | .free _ => isTrue trivial
  | .write _ _ _ => isTrue trivial

theorem malloc_honest_iff_served : ∃ s,
    exec (step 1000) (start (fun _ => 0) (fun _ => 0) 12288) served = some s ∧
      Along (step 1000) (fun s l => ∀ s', step 1000 s l = some s' → Honest s s')
        (start (fun _ => 0) (fun _ => 0) 12288) served := by
  have ends : (exec (step 1000) (start (fun _ => 0) (fun _ => 0) 12288) served).isSome = true := by
    decide +kernel
  obtain ⟨s, run⟩ := Option.isSome_iff_exists.mp ends
  exact ⟨s, run, (malloc_honest_iff (by decide) (by decide) run).mpr (by decide +kernel)⟩

/-- The second block is behind the end of the process. -/
theorem fooled_not_honest :
    ¬ ∀ (base brk : Nat) (ptr size : Nat → Nat) (ls : List (Call × Nat)) (s : Process),
      base + unit ≤ brk → brk ≤ Vm.physical →
      exec (step base) (start ptr size brk) ls = some s →
      Along (step base) (fun s l => ∀ s', step base s l = some s' → Honest s s')
        (start ptr size brk) ls := by
  intro claim
  have result : (exec (step 1000) (start (fun _ => 0) (fun _ => 0) 12288) fooled).map
      (fun s => (s.alloc.head?, s.heap.brk)) =
        some (some { addr := 77840, units := 134217728, nbytes := 2147483632 }, 77840) := by
    decide +kernel
  obtain ⟨s, run, shape⟩ := Option.map_eq_some_iff.mp result
  have along := claim 1000 12288 _ _ fooled s (by decide) (by decide) run
  obtain ⟨t, first, second⟩ := exec_cons_eq_some.mp run
  have last := (along.2 t first).1
  obtain ⟨s', stepped, done⟩ := exec_cons_eq_some.mp second
  cases done
  have honest := last s stepped
  obtain ⟨block, size⟩ := Prod.mk.inj shape
  have below := honest.below _ (List.mem_of_mem_head? (by rw [block]; rfl))
  rw [size] at below
  revert below
  decide

end Sistemas.Xv6.Umalloc.OnKernel
