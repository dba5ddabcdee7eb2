import Sistemas.Xv6.UmallocAlloc

/-! # Runs of malloc and free

A program calls `malloc` and `free` and writes to the memory that it has got.  `Owned` says what
belongs to the list and what to the program.
-/

namespace Sistemas.Xv6.Umalloc

open Sistemas.Transition

variable {base fuel more nbytes : Nat} {s s' : State} {h h' : Heap} {b c : Allocated}
  {bs : List Block} {gap : Sbrk}

/-- The blocks of the list and those that the program has. -/
structure Owned (base : Nat) (s : State) (bs : List Block) : Prop where
  room : Room base s.heap bs
  size : ∀ b ∈ s.alloc, s.heap.size b.addr = b.units
  payload : ∀ b ∈ s.alloc, b.addr + unit + b.nbytes ≤ b.stop
  obtained : ∀ b ∈ s.alloc, ∀ x, b.Mem x → Within s.heap.obtained x
  free : ∀ b ∈ s.alloc, ∀ c ∈ bs, Disjoint b.toBlock c
  alloc : s.alloc.Pairwise fun b c => Disjoint b.toBlock c.toBlock

/-- Before the first call of `malloc`. -/
structure Unused (base : Nat) (s : State) : Prop where
  freep : s.heap.freep = none
  obtained : s.heap.obtained = []
  alloc : s.alloc = []
  low : base + unit ≤ s.heap.brk

/-- The calls that a program may make. -/
def Permitted (s : State) : Call → Prop
  | .malloc .. => True
  | .free b => b ∈ s.alloc
  | .write a _ _ => ∃ b ∈ s.alloc, b.addr < a ∧ a < b.stop

theorem Owned.pos (owned : Owned base s bs) (mem : b ∈ s.alloc) : 0 < b.units := by
  have payload := owned.payload b mem
  by_contra none
  simp only [Block.stop, unit] at payload
  omega

theorem Owned.bounds (owned : Owned base s bs) (mem : b ∈ s.alloc) {x : Nat} (inB : b.Mem x) :
    base < x ∧ x < s.heap.brk := by
  obtain ⟨low, high⟩ := owned.room.bounds (owned.obtained b mem x inB)
  simp only [unit] at low
  exact ⟨by omega, high⟩

theorem Owned.not_within (owned : Owned base s bs) (mem : b ∈ s.alloc) {x : Nat} (inB : b.Mem x) :
    ¬ Within bs x := by
  rintro ⟨c, memC, inC⟩
  exact owned.free b mem c memC x ⟨inB, inC⟩

/-! ## malloc -/

theorem nunitsFor_pos (nbytes : Nat) : 0 < nunitsFor nbytes := Nat.succ_pos _

theorem nunitsFor_room (nbytes : Nat) : unit + nbytes ≤ unit * nunitsFor nbytes := by
  simp only [nunitsFor, unit]
  omega

theorem Unused.prepare (unused : Unused base s) :
    Owned base { s with heap := (prepare base s.heap).1 } [] := by
  have heap : (Umalloc.prepare base s.heap).1 =
      { (s.heap.setPtr base base).setSize base 0 with freep := some base } := by
    simp only [Umalloc.prepare, unused.freep]
  rw [heap]
  refine ⟨⟨⟨⟨Function.update_self _ _ _, Function.update_self _ _ _, trivial⟩, by simp, by simp,
    by simp, head base, by simp, rfl⟩, unused.low, ?_, by simp [Within]⟩, ?_, ?_, ?_, ?_, ?_⟩
  · simp [Heap.setSize, Heap.setPtr, unused.obtained]
  all_goals simp [unused.alloc]

theorem prepare_ready (ready : h.freep ≠ none) : prepare base h = (h, (prepare base h).2) := by
  unfold prepare
  split
  next p freep => rfl
  next none => exact absurd none ready

theorem prepare_freep (base : Nat) (h : Heap) :
    (prepare base h).1.freep = some (prepare base h).2 := by
  unfold prepare
  split
  next p freep => exact freep
  next => rfl

theorem malloc_of_loop {r : Heap × Option Nat}
    (found : findLoop gap (nunitsFor nbytes) fuel (prepare base h).1 (prepare base h).2
      ((prepare base h).1.ptr (prepare base h).2) = some r) :
    malloc base gap fuel nbytes h = some (r.1, r.2.map (· + unit)) := by
  simp only [malloc, found, Option.bind_eq_bind, Option.bind_some]

/-- A program that has got a block. -/
theorem Owned.given {bs' : List Block} {a : Block} (owned : Owned base s bs)
    (given : Given base (nunitsFor nbytes) s.heap bs h' bs' a) :
    Owned base { heap := h', alloc := { toBlock := a, nbytes := nbytes } :: s.alloc } bs' := by
  have kept := given.kept
  have apart : ∀ c ∈ s.alloc, Disjoint a c.toBlock := by
    rintro c mem x ⟨inA, inC⟩
    obtain old | new := given.bytes x inA
    · exact owned.not_within mem inC old
    · have high := (owned.bounds mem inC).2
      omega
  refine ⟨given.room, ?_, ?_, ?_, ?_, List.pairwise_cons.mpr ⟨apart, owned.alloc⟩⟩
  · refine List.forall_mem_cons.mpr ⟨given.header.trans given.units.symm, fun c mem => ?_⟩
    have inC := mem_addr (owned.pos mem)
    obtain ⟨low, high⟩ := owned.bounds mem inC
    exact (kept.size _ low high (owned.not_within mem inC)).trans (owned.size c mem)
  · refine List.forall_mem_cons.mpr ⟨?_, owned.payload⟩
    have enough := nunitsFor_room nbytes
    simp only [Block.stop, given.units]
    omega
  · exact List.forall_mem_cons.mpr ⟨given.obtained,
      fun c mem x inC => kept.obtained x (owned.obtained c mem x inC)⟩
  · refine List.forall_mem_cons.mpr ⟨given.disjoint, fun c mem d memD x both => ?_⟩
    obtain old | new := kept.bytes x ⟨d, memD, both.2⟩
    · exact owned.not_within mem both.1 old
    · have high := (owned.bounds mem both.1).2
      omega

/-- `malloc` ends, and the program has one block more or what it had. -/
theorem Owned.malloc (owned : Owned base { s with heap := (prepare base s.heap).1 } bs)
    (small : nbytes < 2 ^ 30) (gap : Sbrk) : ∃ fuel s' bs', Owned base s' bs' ∧
      ∀ more, fuel ≤ more → step base s (.malloc nbytes small gap, more) = some s' := by
  have freep := prepare_freep base s.heap
  obtain ⟨fuel, no | ⟨h', bs', a, given, found⟩⟩ :=
    findLoop_spec owned.room freep (nunitsFor_pos nbytes) gap
  · refine ⟨fuel, _, bs, owned, fun more le => ?_⟩
    have ran := malloc_of_loop (no more le)
    simp only [step, ran, Option.bind_eq_bind, Option.bind_some, Option.map_none]
  · refine ⟨fuel, _, bs', owned.given given, fun more le => ?_⟩
    have ran := malloc_of_loop (found more le)
    have ap : a.addr + unit - unit = a.addr := Nat.add_sub_cancel _ _
    simp only [step, ran, Option.bind_eq_bind, Option.bind_some, Option.map_some, ap, given.header,
      ← given.units]

/-! ## free -/

/-- `free` ends, and the list has the block. -/
theorem Owned.release (owned : Owned base s bs) (mem : b ∈ s.alloc) :
    ∃ fuel s' bs', Owned base s' bs' ∧
      ∀ more, fuel ≤ more → step base s (.free b, more) = some s' := by
  have room := owned.room
  have others : ∀ c ∈ s.alloc.erase b, Disjoint b.toBlock c.toBlock := by
    have perm := List.perm_cons_erase mem
    have apart := (perm.pairwise_iff fun disjoint => disjoint.symm).mp owned.alloc
    exact (List.pairwise_cons.mp apart).1
  have memErased : ∀ c ∈ s.alloc.erase b, c ∈ s.alloc := fun c memC => List.mem_of_mem_erase memC
  have loose : Loose base s.heap bs b.toBlock := by
    refine ⟨owned.size b mem, owned.pos mem, (owned.bounds mem (mem_addr (owned.pos mem))).1, ?_,
      owned.free b mem⟩
    -- the last byte is in memory that was obtained
    have last : b.Mem (b.stop - 1) := by
      have pos := owned.pos mem
      simp only [Block.Mem, Block.stop, unit]
      omega
    obtain ⟨o, memO, -, under⟩ := owned.obtained b mem _ last
    have small := (room.obtained o memO).2.2
    have stop : b.addr < b.stop := (mem_addr (owned.pos mem)).2
    omega
  obtain ⟨fuel, h', bs', freed, runs⟩ := free_spec room.list loose
  refine ⟨fuel, { heap := h', alloc := s.alloc.erase b }, bs', ⟨⟨freed.list, ?_, ?_, ?_⟩,
    fun c memC => ?_, fun c memC => owned.payload c (memErased c memC), fun c memC x inC => ?_,
    fun c memC d memD x both => ?_, owned.alloc.sublist List.erase_sublist⟩, fun more le => ?_⟩
  · rw [freed.brk]
    exact room.low
  · rw [freed.brk, freed.obtained]
    exact room.obtained
  · intro x within
    rw [freed.obtained]
    obtain old | new := (freed.bytes x).mp within
    · exact room.source x old
    · exact owned.obtained b mem x new
  · -- the other headers stay
    have memC' := memErased c memC
    have inC := mem_addr (owned.pos memC')
    rw [freed.size c.addr ?_]
    · exact owned.size c memC'
    · simp only [List.forall_mem_cons]
      refine ⟨Nat.ne_of_gt (owned.bounds memC' inC).1, fun same => ?_, fun d memD same => ?_⟩
      · exact others c memC b.addr ⟨mem_addr (owned.pos mem), same ▸ inC⟩
      · exact owned.free c memC' d memD c.addr ⟨inC, same ▸ mem_addr (room.list.pos d memD)⟩
  · rw [freed.obtained]
    exact owned.obtained c (memErased c memC) x inC
  · obtain old | new := (freed.bytes x).mp ⟨d, memD, both.2⟩
    · exact owned.not_within (memErased c memC) both.1 old
    · exact others c memC x ⟨new, both.1⟩
  · simp only [step, if_pos mem, runs more le, Option.bind_eq_bind, Option.bind_some]

/-! ## Writes -/

/-- The program does not reach the headers. -/
theorem Owned.write {a ptr size : Nat} (owned : Owned base s bs) (mem : b ∈ s.alloc)
    (above : b.addr < a) (under : a < b.stop) :
    Owned base { s with heap := (s.heap.setPtr a ptr).setSize a size } bs := by
  have inB : b.Mem a := ⟨Nat.le_of_lt above, under⟩
  have outside := owned.not_within mem inB
  have ne : ∀ c ∈ head base :: bs, c.addr ≠ a := by
    refine List.forall_mem_cons.mpr ⟨Nat.ne_of_lt (owned.bounds mem inB).1, ?_⟩
    rintro c memC rfl
    exact outside ⟨c, memC, mem_addr (owned.room.list.pos c memC)⟩
  have room := owned.room
  refine ⟨⟨⟨room.list.chain.congr fun c memC => ⟨Function.update_of_ne (ne c memC) _ _,
      Function.update_of_ne (ne c memC) _ _⟩, room.list.apart, room.list.pos, room.list.below,
      room.list.freep⟩, room.low, room.obtained, room.source⟩, fun c memC => ?_, owned.payload,
    owned.obtained, owned.free, owned.alloc⟩
  refine (Function.update_of_ne (fun same => ?_) _ _).trans (owned.size c memC)
  by_cases this : c = b
  · subst this
    omega
  · have symm : Std.Symm fun b c : Allocated => Disjoint b.toBlock c.toBlock :=
      ⟨fun _ _ disjoint => disjoint.symm⟩
    have apart := owned.alloc.forall memC mem this
    exact apart a ⟨same ▸ mem_addr (owned.pos memC), inB⟩

/-! ## Runs -/

theorem step_mono {call : Call} (ran : step base s (call, fuel) = some s') (le : fuel ≤ more) :
    step base s (call, more) = some s' := by
  cases call with
  | malloc nbytes small gap =>
    simp only [step, Option.bind_eq_bind, Option.bind_eq_some_iff] at ran ⊢
    obtain ⟨r, ends, done⟩ := ran
    exact ⟨r, malloc_mono ends le, done⟩
  | free b =>
    simp only [step] at ran ⊢
    split at ran
    next mem =>
      rw [if_pos mem]
      simp only [Option.bind_eq_bind, Option.bind_eq_some_iff] at ran ⊢
      obtain ⟨h, ends, done⟩ := ran
      exact ⟨h, free_mono ends le, done⟩
    next => cases ran
  | write a ptr size => exact ran

/-- In each state of a run. -/
def Sound (base : Nat) (s : State) : Prop := Unused base s ∨ ∃ bs, Owned base s bs

theorem Sound.prepare (sound : Sound base s) :
    ∃ bs, Owned base { s with heap := (prepare base s.heap).1 } bs := by
  obtain unused | ⟨bs, owned⟩ := sound
  · exact ⟨[], unused.prepare⟩
  · obtain ⟨f, -, freep⟩ := owned.room.list.freep
    refine ⟨bs, ?_⟩
    rw [prepare_ready (by rw [freep]; exact Option.some_ne_none _)]
    exact owned

theorem step_permitted {call : Call} (ran : step base s (call, fuel) = some s') :
    Permitted s call := by
  cases call with
  | malloc => trivial
  | free b =>
    simp only [step] at ran
    split at ran
    next mem => exact mem
    next => cases ran
  | write a ptr size =>
    simp only [step] at ran
    split at ran
    next any => simpa [Permitted] using any
    next => cases ran

/-- Each call that the program may make ends. -/
theorem Sound.ends {call : Call} (sound : Sound base s) (permitted : Permitted s call) :
    ∃ fuel s', Sound base s' ∧ ∀ more, fuel ≤ more → step base s (call, more) = some s' := by
  have ready : ∀ b ∈ s.alloc, ∃ bs, Owned base s bs := fun b mem =>
    sound.resolve_left fun unused => by simp [unused.alloc] at mem
  cases call with
  | malloc nbytes small gap =>
    obtain ⟨bs, owned⟩ := sound.prepare
    obtain ⟨fuel, s', bs', owned', runs⟩ := owned.malloc small gap
    exact ⟨fuel, s', .inr ⟨bs', owned'⟩, runs⟩
  | free b =>
    obtain ⟨bs, owned⟩ := ready b permitted
    obtain ⟨fuel, s', bs', owned', runs⟩ := owned.release permitted
    exact ⟨fuel, s', .inr ⟨bs', owned'⟩, runs⟩
  | write a ptr size =>
    obtain ⟨b, mem, above, under⟩ := permitted
    obtain ⟨bs, owned⟩ := ready b mem
    have after : Owned base { s with heap := (s.heap.setPtr a ptr).setSize a size } bs :=
      owned.write mem above under
    refine ⟨0, _, .inr ⟨bs, after⟩, fun more _ => ?_⟩
    exact if_pos (List.any_eq_true.mpr ⟨b, mem, by simp [above, under]⟩)

theorem Sound.step {call : Call} (sound : Sound base s)
    (ran : step base s (call, fuel) = some s') : Sound base s' := by
  obtain ⟨enough, s₁, sound₁, runs⟩ := sound.ends (step_permitted ran)
  have same := (step_mono ran (Nat.le_max_left fuel enough)).symm.trans
    (runs _ (Nat.le_max_right fuel enough))
  rw [Option.some.inj same]
  exact sound₁

/-- In each state that a program reaches the list and the blocks of the program are what they
should be, and each call that it may make then ends. -/
theorem sound_of_run {ptr size : Nat → Nat} {brk : Nat} {ls : List (Call × Nat)}
    (low : base + unit ≤ brk) (run : exec (step base) (start ptr size brk) ls = some s) :
    (Unused base s ∨ ∃ bs, Owned base s bs) ∧ ∀ call, Permitted s call →
      ∃ fuel s', ∀ more, fuel ≤ more → step base s (call, more) = some s' := by
  have unused : Unused base (start ptr size brk) := ⟨rfl, rfl, rfl, low⟩
  have sound : Sound base s :=
    exec_invariant (P := Sound base) (fun s l s' sound ran => sound.step ran) (.inl unused) run
  refine ⟨sound, fun call permitted => ?_⟩
  obtain ⟨fuel, s', -, runs⟩ := sound.ends permitted
  exact ⟨fuel, s', runs⟩

/-- Two blocks, of which the first is freed again. -/
def twoBlocks : List (Call × Nat) :=
  [(.malloc 10 (by decide) fun _ => some 0, 9), (.malloc 100000 (by decide) fun _ => some 0, 9),
    (.free { addr := 69600, units := 2, nbytes := 10 }, 9)]

theorem sound_of_run_two : ∃ s bs,
    exec (step 1000) (start (fun _ => 0) (fun _ => 0) 4096) twoBlocks = some s ∧
      s.alloc = [{ addr := 69632, units := 6251, nbytes := 100000 }] ∧ Owned 1000 s bs := by
  have left : (exec (step 1000) (start (fun _ => 0) (fun _ => 0) 4096) twoBlocks).map State.alloc =
      some [{ addr := 69632, units := 6251, nbytes := 100000 }] := by
    decide +kernel
  obtain ⟨s, run, left⟩ := Option.map_eq_some_iff.mp left
  obtain unused | ⟨bs, owned⟩ := (sound_of_run (by decide) run).1
  · rw [unused.alloc] at left
    cases left
  · exact ⟨s, bs, run, left, owned⟩

end Sistemas.Xv6.Umalloc
