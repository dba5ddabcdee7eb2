import Mathlib.Dynamics.PeriodicPts.Defs
import Sistemas.Xv6.UmallocFree

/-! # malloc

The loop goes once around the list at most before it asks for memory (`FreeList.search`), and
with more memory there is a block that suffices (`findLoop_spec`).
-/

namespace Sistemas.Xv6.Umalloc

variable {h h' : Heap} {base f nunits fuel more : Nat} {a b c p q : Block}
  {as bs bs' pre post : List Block} {gap : Sbrk}

/-! ## Fuel -/

theorem free_mono {ap : Nat} (ran : free fuel ap h = some h') (le : fuel ≤ more) :
    free more ap h = some h' := by
  simp only [free, Option.bind_eq_bind, Option.bind_eq_some_iff] at ran ⊢
  obtain ⟨f, freep, p, found, done⟩ := ran
  exact ⟨f, freep, p, Loop.run_mono found le, done⟩

theorem morecore_mono {nu : Nat} {r : Option (Heap × Nat)} (ran : morecore gap fuel nu h = some r)
    (le : fuel ≤ more) : morecore gap more nu h = some r := by
  simp only [morecore] at ran ⊢
  cases got : sbrk gap (max nu 4096) h with
  | none =>
    rw [got] at ran
    exact ran
  | some new =>
    simp only [got, Option.bind_eq_bind, Option.bind_eq_some_iff] at ran ⊢
    obtain ⟨h', freed, done⟩ := ran
    exact ⟨h', free_mono freed le, done⟩

theorem findLoop_mono {prevp p : Nat} {r : Heap × Option Nat}
    (ran : findLoop gap nunits fuel h prevp p = some r) (le : fuel ≤ more) :
    findLoop gap nunits more h prevp p = some r := by
  induction fuel generalizing h prevp p more with
  | zero => cases ran
  | succ fuel ih =>
    obtain ⟨more, rfl⟩ : ∃ m, more = m + 1 := ⟨more - 1, by omega⟩
    have le : fuel ≤ more := by omega
    unfold findLoop at ran ⊢
    split at ran
    next enough =>
      rw [if_pos enough]
      exact ran
    next little =>
      rw [if_neg little]
      split at ran
      next around =>
        rw [if_pos around]
        simp only [Option.bind_eq_bind, Option.bind_eq_some_iff] at ran ⊢
        obtain ⟨got, asked, rest⟩ := ran
        refine ⟨got, morecore_mono asked le, ?_⟩
        cases got with
        | none => exact rest
        | some got => exact ih rest le
      next on =>
        rw [if_neg on]
        exact ih ran le

theorem malloc_mono {nbytes : Nat} {r : Heap × Option Nat}
    (ran : malloc base gap fuel nbytes h = some r) (le : fuel ≤ more) :
    malloc base gap more nbytes h = some r := by
  simp only [malloc, Option.bind_eq_bind, Option.bind_eq_some_iff] at ran ⊢
  obtain ⟨r', found, done⟩ := ran
  exact ⟨r', findLoop_mono found le, done⟩

/-! ## Once around the list -/

/-- The loop finds a block that suffices, or it comes back to where it began and there is
none. -/
theorem FreeList.search (list : FreeList base h bs) (freep : h.freep = some f) (nunits : Nat) :
    ∃ k, (∀ j < k, h.size (h.ptr^[j + 1] f) < nunits ∧ h.ptr^[j + 1] f ≠ f) ∧
      (nunits ≤ h.size (h.ptr^[k + 1] f) ∨
        h.ptr^[k + 1] f = f ∧ ∀ b ∈ head base :: bs, b.units < nunits) := by
  obtain ⟨start, memF, freep'⟩ := list.freep
  obtain rfl : f = start.addr := Option.some.inj (freep.symm.trans freep')
  have back : ∃ k, nunits ≤ h.size (h.ptr^[k + 1] start.addr) ∨
      h.ptr^[k + 1] start.addr = start.addr := by
    obtain ⟨next, memNext, ptr⟩ := list.closed memF
    obtain ⟨k, reached⟩ := list.reach memNext memF
    rw [← ptr] at reached
    exact ⟨k, .inr reached⟩
  have before := fun j (lt : j < Nat.find back) => not_or.mp (Nat.find_min back lt)
  refine ⟨Nat.find back, fun j lt => ⟨Nat.lt_of_not_le (before j lt).1, (before j lt).2⟩, ?_⟩
  by_cases enough : nunits ≤ h.size (h.ptr^[Nat.find back + 1] start.addr)
  · exact .inl enough
  · have around := (Nat.find_spec back).resolve_left enough
    refine .inr ⟨around, fun b mem => ?_⟩
    -- each block has been seen since the start
    obtain ⟨k, reached⟩ := list.reach memF mem
    have periodic : Function.IsPeriodicPt h.ptr (Nat.find back + 1) start.addr := around
    have size : ∀ j ≤ Nat.find back, h.size (h.ptr^[j + 1] start.addr) < nunits := by
      intro j le
      obtain lt | eq := Nat.lt_or_eq_of_le le
      · exact Nat.lt_of_not_le (before j lt).1
      · rw [eq]
        exact Nat.lt_of_not_le enough
    rw [← list.chain.size mem, ← reached, ← periodic.iterate_mod_apply]
    cases seen : k % (Nat.find back + 1) with
    | zero =>
      have last := size _ (Nat.le_refl _)
      rw [around] at last
      exact last
    | succ j =>
      have lt : k % (Nat.find back + 1) < Nat.find back + 1 := Nat.mod_lt k (Nat.succ_pos _)
      exact size j (by omega)

/-- Rounds that only go on. -/
theorem findLoop_skip {s k : Nat}
    (on : ∀ j < k, h.size (h.ptr^[j + 1] s) < nunits ∧ h.freep ≠ some (h.ptr^[j + 1] s)) :
    findLoop gap nunits (fuel + k) h s (h.ptr s) =
      findLoop gap nunits fuel h (h.ptr^[k] s) (h.ptr^[k + 1] s) := by
  induction k generalizing s with
  | zero => rfl
  | succ k ih =>
    obtain ⟨(little : h.size (h.ptr s) < nunits), (further : h.freep ≠ some (h.ptr s))⟩ :=
      on 0 (Nat.succ_pos k)
    have here : findLoop gap nunits (fuel + k + 1) h s (h.ptr s) =
        findLoop gap nunits (fuel + k) h (h.ptr s) (h.ptr (h.ptr s)) := by
      rw [findLoop, if_neg (Nat.not_le.mpr little), if_neg further]
    rw [← Nat.add_assoc, here]
    exact ih fun j lt => on (j + 1) (Nat.succ_lt_succ lt)

/-! ## The block that is found -/

/-- The memory that a list is made of. -/
structure Room (base : Nat) (h : Heap) (bs : List Block) : Prop where
  list : FreeList base h bs
  low : base + unit ≤ h.brk
  obtained : ∀ o ∈ h.obtained, base + unit ≤ o.addr ∧ o.stop ≤ h.brk ∧ o.stop ≤ maxMemory
  source : ∀ x, Within bs x → Within h.obtained x

/-- What `malloc` may do to a list that others have memory beside. -/
structure Kept (base : Nat) (h : Heap) (bs : List Block) (h' : Heap) (bs' : List Block) :
    Prop where
  size : ∀ a, base < a → a < h.brk → ¬ Within bs a → h'.size a = h.size a
  brk : h.brk ≤ h'.brk
  bytes : ∀ x, Within bs' x → Within bs x ∨ h.brk ≤ x
  obtained : ∀ x, Within h.obtained x → Within h'.obtained x

theorem Kept.trans {h₁ h₂ h₃ : Heap} {bs₁ bs₂ bs₃ : List Block} (first : Kept base h₁ bs₁ h₂ bs₂)
    (second : Kept base h₂ bs₂ h₃ bs₃) : Kept base h₁ bs₁ h₃ bs₃ where
  size a low high free := by
    have low' : a < h₂.brk := Nat.lt_of_lt_of_le high first.brk
    have free' : ¬ Within bs₂ a := fun within => (first.bytes a within).elim free (by omega)
    exact (second.size a low low' free').trans (first.size a low high free)
  brk := Nat.le_trans first.brk second.brk
  bytes x within := by
    have brk := first.brk
    obtain old | new := second.bytes x within
    · exact first.bytes x old
    · exact .inr (Nat.le_trans brk new)
  obtained x within := second.obtained x (first.obtained x within)

/-- What is taken out of a list. -/
structure Taken (base nunits : Nat) (h : Heap) (bs : List Block) (h' : Heap) (bs' : List Block)
    (a : Block) : Prop where
  list : FreeList base h' bs'
  bytes : ∀ x, Within bs x ↔ Within bs' x ∨ a.Mem x
  disjoint : ∀ c ∈ bs', Disjoint a c
  units : a.units = nunits
  header : h'.size a.addr = nunits
  size : ∀ x, ¬ Within bs x → h'.size x = h.size x
  brk : h'.brk = h.brk
  obtained : h'.obtained = h.obtained

theorem Apart.disjoint (apart : Apart b c) : Disjoint b c := by
  rintro x ⟨⟨-, inB⟩, inC, -⟩
  have lt : b.stop < c.addr := apart
  omega

theorem mem_addr (pos : 0 < b.units) : b.Mem b.addr := by
  refine ⟨Nat.le_refl _, ?_⟩
  simp only [Block.stop, unit]
  omega

/-- The blocks before one that has another in front. -/
theorem split_tail (split : head base :: bs = pre ++ q :: p :: post) :
    ∃ pre', bs = pre' ++ p :: post ∧ head base :: pre' = pre ++ [q] := by
  cases pre with
  | nil =>
    rw [List.nil_append, List.cons.injEq] at split
    exact ⟨[], split.2, by rw [split.1]; rfl⟩
  | cons d pre =>
    rw [List.cons_append, List.cons.injEq] at split
    exact ⟨pre ++ [q], by rw [split.2]; simp, by rw [split.1]; rfl⟩

theorem others_disjoint (apart : (as ++ p :: post).Pairwise Apart) :
    ∀ c ∈ as ++ post, Disjoint p c := by
  obtain ⟨-, here, cross⟩ := List.pairwise_append.mp apart
  intro c mem
  obtain before | behind := List.mem_append.mp mem
  · exact (cross c before p List.mem_cons_self).disjoint.symm
  · exact ((List.pairwise_cons.mp here).1 c behind).disjoint

theorem take_whole (list : FreeList base h bs) (split : head base :: bs = pre ++ q :: p :: post) :
    ∃ bs', Taken base p.units h bs { h.setPtr q.addr (h.ptr p.addr) with freep := some q.addr } bs'
      p := by
  obtain ⟨pre', split', front⟩ := split_tail split
  have chain := list.chain
  have apart := list.apart
  rw [split] at chain apart
  obtain ⟨chainPre, chainQ⟩ := chain_append.mp chain
  obtain ⟨sizeQ, -, sizeP, ptrP, chainPost⟩ := chainQ
  obtain ⟨-, apartQ, cross⟩ := List.pairwise_append.mp apart
  obtain ⟨behindQ, -⟩ := List.pairwise_cons.mp apartQ
  have all : head base :: (pre' ++ post) = pre ++ q :: post := by
    rw [← List.cons_append, front]
    simp
  have sub : (pre' ++ post).Sublist bs := by
    rw [split']
    exact (List.Sublist.refl pre').append (List.sublist_cons_self p post)
  have leQ := q.addr_le_stop
  have others : ∀ c ∈ pre' ++ post, Disjoint p c := by
    have rest := (List.pairwise_cons.mp list.apart).2
    rw [split'] at rest
    exact others_disjoint rest
  refine ⟨pre' ++ post, ⟨?_, ?_, fun c mem => list.pos c (sub.subset mem),
    fun c mem => list.below c (sub.subset mem), q, ?_, rfl⟩, fun x => ?_, others, rfl, sizeP,
    fun x _ => rfl, rfl, rfl⟩
  · rw [all, chain_append]
    refine ⟨chainPre.congr fun c mem => ⟨rfl, ?_⟩, sizeQ, ?_, chainPost.congr fun c mem => ⟨rfl, ?_⟩⟩
    · have near : c.stop < q.addr := cross c mem q List.mem_cons_self
      have le := c.addr_le_stop
      exact Function.update_of_ne (by omega) _ _
    · exact (Function.update_self _ _ _).trans ptrP
    · have far : q.stop < c.addr := behindQ c (.tail _ mem)
      exact Function.update_of_ne (by omega) _ _
  · exact list.apart.sublist (sub.cons_cons _)
  · rw [all]
    simp
  · rw [split', within_append, within_append, within_cons]
    tauto

theorem take_tail (list : FreeList base h bs) (split : head base :: bs = pre ++ q :: p :: post)
    (more : nunits < p.units) (pos : 0 < nunits) :
    ∃ bs' a, a.addr = p.addr + unit * (p.units - nunits) ∧ Taken base nunits h bs
      { (h.setSize p.addr (p.units - nunits)).setSize a.addr nunits with freep := some q.addr }
      bs' a := by
  obtain ⟨pre', split', front⟩ := split_tail split
  let rest : Block := { addr := p.addr, units := p.units - nunits }
  let a : Block := { addr := rest.stop, units := nunits }
  have stop : a.stop = p.stop := by
    simp only [a, rest, Block.stop, unit]
    omega
  have restLt : p.addr < rest.stop := by
    simp only [rest, Block.stop, unit]
    omega
  have aLt : rest.stop < p.stop := by
    simp only [rest, Block.stop, unit]
    omega
  have chain := list.chain
  have apart := list.apart
  have memP : p ∈ bs := by
    rw [split']
    simp
  have all : head base :: bs = (pre ++ [q]) ++ p :: post := by
    rw [split]
    simp
  rw [all] at chain apart
  obtain ⟨chainPre, sizeP, ptrP, chainPost⟩ := chain_append.mp chain
  obtain ⟨-, apartP, cross⟩ := List.pairwise_append.mp apart
  obtain ⟨behind, apartPost⟩ := List.pairwise_cons.mp apartP
  have inside : ∀ x, p.Mem x ↔ rest.Mem x ∨ a.Mem x := by
    intro x
    simp only [Block.Mem, stop, show rest.addr = p.addr from rfl, show a.addr = rest.stop from rfl]
    omega
  have others : ∀ c ∈ pre' ++ post, Disjoint p c := by
    have apart' := (List.pairwise_cons.mp list.apart).2
    rw [split'] at apart'
    exact others_disjoint apart'
  have new : head base :: (pre' ++ rest :: post) = (pre ++ [q]) ++ rest :: post := by
    rw [← List.cons_append, front]
  -- the other headers are outside the block
  have kept : ∀ y, y < p.addr ∨ p.stop < y →
      ((h.setSize p.addr (p.units - nunits)).setSize a.addr nunits).size y = h.size y := by
    intro y out
    rw [setSize_size, setSize_size, Function.update_of_ne, Function.update_of_ne]
    · omega
    · have addr : a.addr = rest.stop := rfl
      omega
  have member : ∀ c ∈ pre' ++ rest :: post, c = rest ∨ c ∈ pre' ++ post := by
    intro c mem
    simp only [List.mem_append, List.mem_cons] at mem ⊢
    tauto
  have old : ∀ c ∈ pre' ++ post, c ∈ bs := by
    intro c mem
    rw [split']
    simp only [List.mem_append, List.mem_cons] at mem ⊢
    tauto
  refine ⟨pre' ++ rest :: post, a, rfl, ⟨?_, ?_, fun c mem => ?_, fun c mem => ?_, q, ?_, rfl⟩,
    fun x => ?_, fun c mem => ?_, rfl, Function.update_self _ _ _, fun x out => ?_, rfl, rfl⟩
  · rw [new, chain_append]
    refine ⟨chainPre.congr fun c mem => ⟨kept _ (.inl ?_), rfl⟩, ?_, ptrP,
      chainPost.congr fun c mem => ⟨kept _ (.inr (behind c mem)), rfl⟩⟩
    · have near : c.stop < p.addr := cross c mem p List.mem_cons_self
      have le := c.addr_le_stop
      omega
    · have ne : p.addr ≠ a.addr := Nat.ne_of_lt restLt
      exact (Function.update_of_ne ne _ _).trans (Function.update_self _ _ _)
  · rw [new]
    refine pairwise_replace apart rfl (List.pairwise_cons.mpr ⟨fun c mem => ?_, apartPost⟩)
    exact Nat.lt_trans aLt (behind c mem)
  · rcases member c mem with rfl | mem
    · exact Nat.sub_pos_of_lt more
    · exact list.pos c (old c mem)
  · rcases member c mem with rfl | mem
    · exact Nat.le_trans (Nat.le_of_lt aLt) (list.below p memP)
    · exact list.below c (old c mem)
  · rw [new]
    simp
  · rw [split', within_append, within_append, within_cons, within_cons, inside]
    tauto
  · rcases member c mem with rfl | mem
    · rintro x ⟨⟨above, -⟩, -, under⟩
      exact absurd above (Nat.not_le.mpr under)
    · exact fun x both => others c mem x ⟨(inside x).mpr (.inr both.1), both.2⟩
  · have outP : ¬ p.Mem x := fun inP => out ⟨p, memP, inP⟩
    have ne : x ≠ a.addr := fun same => outP ((inside x).mpr (.inr (same ▸ mem_addr pos)))
    have ne' : x ≠ p.addr := fun same => outP (same ▸ mem_addr (list.pos p memP))
    rw [setSize_size, setSize_size, Function.update_of_ne ne, Function.update_of_ne ne']

theorem take_taken (list : FreeList base h bs) (split : head base :: bs = pre ++ q :: p :: post)
    (enough : nunits ≤ p.units) (pos : 0 < nunits) :
    ∃ h' bs' a, take h q.addr p.addr nunits = (h', a.addr) ∧ Taken base nunits h bs h' bs' a := by
  have size : h.size p.addr = p.units := list.chain.size (by rw [split]; simp)
  obtain less | same := Nat.lt_or_eq_of_le enough
  · obtain ⟨bs', a, addr, taken⟩ := take_tail list split less pos
    refine ⟨_, bs', a, ?_, taken⟩
    have tail : p.addr + unit * (h.setSize p.addr (p.units - nunits)).size p.addr = a.addr := by
      rw [setSize_size, Function.update_self, addr]
    rw [take, if_neg (by omega)]
    simp only [size, tail]
  · obtain ⟨bs', taken⟩ := take_whole list split
    refine ⟨_, bs', p, ?_, same ▸ taken⟩
    rw [take, if_pos (by omega)]

/-! ## More memory -/

theorem Room.bounds {x : Nat} (room : Room base h bs) (within : Within h.obtained x) :
    base + unit ≤ x ∧ x < h.brk := by
  obtain ⟨o, mem, above, under⟩ := within
  obtain ⟨low, high, -⟩ := room.obtained o mem
  exact ⟨Nat.le_trans low above, Nat.lt_of_lt_of_le under high⟩

/-- Memory that has come to the heap, before `free` gets it. -/
theorem Room.extend {nu hp : Nat} (room : Room base h bs) (above : h.brk ≤ hp)
    (fits : hp + unit * nu ≤ maxMemory) (pos : 0 < nu) :
    let new : Block := { addr := hp, units := nu }
    let h₁ := { h with brk := hp + unit * nu, obtained := h.obtained ++ [new] }.setSize hp nu
    FreeList base h₁ bs ∧ Loose base h₁ bs new := by
  have low := room.low
  have under : ∀ c ∈ head base :: bs, c.addr < hp := by
    rw [List.forall_mem_cons]
    refine ⟨by simp only [head, unit] at low ⊢; omega, fun c mem => ?_⟩
    have inC := room.source _ ⟨c, mem, mem_addr (room.list.pos c mem)⟩
    exact Nat.lt_of_lt_of_le (room.bounds inC).2 above
  refine ⟨⟨room.list.chain.congr fun c mem => ⟨?_, rfl⟩, room.list.apart, room.list.pos,
    room.list.below, room.list.freep⟩, ⟨Function.update_self _ _ _, pos, ?_, fits, ?_⟩⟩
  · exact Function.update_of_ne (Nat.ne_of_lt (under c mem)) _ _
  · exact under _ List.mem_cons_self
  · rintro c mem x ⟨⟨high, -⟩, inC⟩
    have inBrk := (room.bounds (room.source x ⟨c, mem, inC⟩)).2
    simp only at high
    omega

theorem morecore_spec (room : Room base h bs) (gap : Sbrk) (nu : Nat) :
    (∀ fuel, morecore gap fuel nu h = some none) ∨
      ∃ fuel h' bs' f, Room base h' bs' ∧ Kept base h bs h' bs' ∧ h'.freep = some f ∧
        (∃ c ∈ bs', nu ≤ c.units) ∧
          ∀ more, fuel ≤ more → morecore gap more nu h = some (some (h', f)) := by
  cases asked : gap h.obtained.length with
  | none =>
    refine .inl fun fuel => ?_
    simp [morecore, sbrk, asked]
  | some g =>
    by_cases fits : h.brk + g + unit * max nu 4096 ≤ maxMemory
    · have pos : 0 < max nu 4096 := by omega
      have low := room.low
      obtain ⟨list, loose⟩ := room.extend (Nat.le_add_right h.brk g) fits pos
      obtain ⟨fuel, h', bs', freed, runs⟩ := free_spec list loose
      obtain ⟨f, -, freep⟩ := freed.list.freep
      have brk : h'.brk = h.brk + g + unit * max nu 4096 := freed.brk
      have obtained : h'.obtained =
          h.obtained ++ [{ addr := h.brk + g, units := max nu 4096 }] := freed.obtained
      refine .inr ⟨fuel, h', bs', f.addr, ⟨freed.list, by omega, ?_, fun x within => ?_⟩,
        ⟨fun a lowA high free => ?_, by omega, fun x within => ?_, fun x within => ?_⟩, freep, ?_,
        fun more le => ?_⟩
      · rw [obtained, List.forall_mem_append, List.forall_mem_singleton]
        refine ⟨fun o mem => ?_, by simp only; omega, by simp only [Block.stop]; omega, fits⟩
        obtain ⟨lowO, highO, small⟩ := room.obtained o mem
        exact ⟨lowO, by omega, small⟩
      · rw [obtained, within_append]
        obtain old | new := (freed.bytes x).mp within
        · exact .inl (room.source x old)
        · exact .inr ⟨_, List.mem_singleton_self _, new⟩
      · -- a header below the new memory that is not in the list
        rw [freed.size a, setSize_size, Function.update_of_ne (by omega)]
        simp only [List.forall_mem_cons]
        refine ⟨Nat.ne_of_gt lowA, by omega, fun c mem same => free ?_⟩
        exact ⟨c, mem, same ▸ mem_addr (room.list.pos c mem)⟩
      · obtain old | new := (freed.bytes x).mp within
        · exact .inl old
        · have high : h.brk + g ≤ x := new.1
          exact .inr (by omega)
      · rw [obtained, within_append]
        exact .inl within
      · obtain ⟨c, mem, le⟩ := freed.whole
        exact ⟨c, mem, Nat.le_trans (Nat.le_max_left _ _) le⟩
      · have ran := runs more le
        simp only [morecore, sbrk, asked, Option.bind_eq_bind, Option.bind_some, if_pos fits]
        simp only [ran, freep, Option.bind_some]
    · refine .inl fun fuel => ?_
      simp only [morecore, sbrk, asked, Option.bind_eq_bind, Option.bind_some, if_neg fits]

/-! ## The loop of `malloc` -/

/-- What a program gets. -/
structure Given (base nunits : Nat) (h : Heap) (bs : List Block) (h' : Heap) (bs' : List Block)
    (a : Block) : Prop where
  room : Room base h' bs'
  kept : Kept base h bs h' bs'
  units : a.units = nunits
  header : h'.size a.addr = nunits
  disjoint : ∀ c ∈ bs', Disjoint a c
  bytes : ∀ x, a.Mem x → Within bs x ∨ h.brk ≤ x
  obtained : ∀ x, a.Mem x → Within h'.obtained x

theorem Taken.given (taken : Taken base nunits h bs h' bs' a) (room : Room base h bs) :
    Given base nunits h bs h' bs' a where
  room := by
    refine ⟨taken.list, by rw [taken.brk]; exact room.low, ?_, fun x within => ?_⟩
    · rw [taken.brk, taken.obtained]
      exact room.obtained
    · rw [taken.obtained]
      exact room.source x ((taken.bytes x).mpr (.inl within))
  kept := by
    refine ⟨fun x _ _ free => taken.size x free, Nat.le_of_eq taken.brk.symm,
      fun x within => .inl ((taken.bytes x).mpr (.inl within)), fun x within => ?_⟩
    rw [taken.obtained]
    exact within
  units := taken.units
  header := taken.header
  disjoint := taken.disjoint
  bytes x inA := .inl ((taken.bytes x).mpr (.inr inA))
  obtained x inA := by
    rw [taken.obtained]
    exact room.source x ((taken.bytes x).mpr (.inr inA))

theorem Given.after {h₀ : Heap} {bs₀ : List Block} (given : Given base nunits h bs h' bs' a)
    (kept : Kept base h₀ bs₀ h bs) : Given base nunits h₀ bs₀ h' bs' a where
  room := given.room
  kept := kept.trans given.kept
  units := given.units
  header := given.header
  disjoint := given.disjoint
  bytes x inA := by
    obtain old | new := given.bytes x inA
    · exact kept.bytes x old
    · exact .inr (Nat.le_trans kept.brk new)
  obtained := given.obtained

/-- A round at a block that suffices. -/
theorem findLoop_found (room : Room base h bs) (mem : q ∈ head base :: bs) (pos : 0 < nunits)
    (enough : nunits ≤ h.size (h.ptr q.addr)) (gap : Sbrk) :
    ∃ h' bs' a, Given base nunits h bs h' bs' a ∧
      ∀ fuel, findLoop gap nunits (fuel + 1) h q.addr (h.ptr q.addr) = some (h', some a.addr) := by
  obtain ⟨pre, post, split⟩ := List.append_of_mem mem
  have ptr := room.list.ptr_eq split
  cases post with
  | nil =>
    -- the static header has no units
    have none : h.size base = 0 := room.list.chain.1
    rw [ptr, first, none] at enough
    omega
  | cons p post =>
    have size : h.size p.addr = p.units := room.list.chain.size (by rw [split]; simp)
    rw [ptr, first] at enough ⊢
    obtain ⟨h', bs', a, took, taken⟩ := take_taken room.list split (size ▸ enough) pos
    refine ⟨h', bs', a, taken.given room, fun fuel => ?_⟩
    rw [findLoop, if_pos enough, took]

/-- Rounds that go on, up to a block that suffices. -/
theorem findLoop_walk {k : Nat} (room : Room base h bs) (freep : h.freep = some f)
    (pos : 0 < nunits)
    (on : ∀ j < k, h.size (h.ptr^[j + 1] f) < nunits ∧ h.ptr^[j + 1] f ≠ f)
    (here : nunits ≤ h.size (h.ptr^[k + 1] f)) (gap : Sbrk) :
    ∃ fuel h' bs' a, Given base nunits h bs h' bs' a ∧
      ∀ more, fuel ≤ more → findLoop gap nunits more h f (h.ptr f) = some (h', some a.addr) := by
  obtain ⟨start, memF, freep'⟩ := room.list.freep
  obtain rfl : f = start.addr := Option.some.inj (freep.symm.trans freep')
  obtain ⟨q, memQ, reached⟩ := room.list.iterate memF k
  rw [Function.iterate_succ_apply', reached] at here
  obtain ⟨h', bs', a, given, ends⟩ := findLoop_found room memQ pos here gap
  refine ⟨k + 1, h', bs', a, given, fun more le => ?_⟩
  obtain ⟨left, rfl⟩ : ∃ left, more = left + 1 + k := ⟨more - 1 - k, by omega⟩
  rw [findLoop_skip fun j lt => ⟨(on j lt).1, fun same =>
    (on j lt).2 (Option.some.inj (same.symm.trans freep))⟩]
  rw [Function.iterate_succ_apply', reached]
  exact ends left

/-- The loop of `malloc` ends: with a block, or because there is no more memory. -/
theorem findLoop_spec (room : Room base h bs) (freep : h.freep = some f) (pos : 0 < nunits)
    (gap : Sbrk) : ∃ fuel,
    (∀ more, fuel ≤ more → findLoop gap nunits more h f (h.ptr f) = some (h, none)) ∨
      ∃ h' bs' a, Given base nunits h bs h' bs' a ∧
        ∀ more, fuel ≤ more → findLoop gap nunits more h f (h.ptr f) = some (h', some a.addr) := by
  obtain ⟨k, on, here | ⟨around, none⟩⟩ := room.list.search freep nunits
  · obtain ⟨fuel, found⟩ := findLoop_walk room freep pos on here gap
    exact ⟨fuel, .inr found⟩
  · -- at the block where it began the loop asks for memory
    obtain ⟨start, memF, freep'⟩ := room.list.freep
    obtain rfl : f = start.addr := Option.some.inj (freep.symm.trans freep')
    have little : h.size start.addr < nunits := by
      rw [room.list.chain.size memF]
      exact none start memF
    have skip : ∀ fuel, findLoop gap nunits (fuel + 1 + k) h start.addr (h.ptr start.addr) =
        findLoop gap nunits (fuel + 1) h (h.ptr^[k] start.addr) start.addr := by
      intro fuel
      rw [findLoop_skip fun j lt => ⟨(on j lt).1, fun same =>
        (on j lt).2 (Option.some.inj (same.symm.trans freep))⟩, around]
    have asks : ∀ fuel got, morecore gap fuel nunits h = some got →
        findLoop gap nunits (fuel + 1) h (h.ptr^[k] start.addr) start.addr =
          got.elim (some (h, .none)) fun r => findLoop gap nunits fuel r.1 r.2 (r.1.ptr r.2) := by
      intro fuel got asked
      have more : ¬ nunits ≤ h.size start.addr := Nat.not_le.mpr little
      cases got <;>
        simp only [findLoop, if_neg more, if_pos freep, asked, Option.bind_eq_bind,
          Option.bind_some, Option.elim]
    obtain no | ⟨fuel, h₁, bs₁, f₁, room₁, kept, freep₁, ⟨c, memC, enough⟩, runs⟩ :=
      morecore_spec room gap nunits
    · refine ⟨k + 1, .inl fun more le => ?_⟩
      obtain ⟨left, rfl⟩ : ∃ left, more = left + 1 + k := ⟨more - 1 - k, by omega⟩
      rw [skip, asks left _ (no left)]
      rfl
    · obtain ⟨k₁, on₁, found⟩ := room₁.list.search freep₁ nunits
      have here : nunits ≤ h₁.size (h₁.ptr^[k₁ + 1] f₁) :=
        found.resolve_right fun none => absurd (none.2 c (.tail _ memC)) (Nat.not_lt.mpr enough)
      obtain ⟨fuel₁, h', bs', a, given, ends⟩ := findLoop_walk room₁ freep₁ pos on₁ here gap
      refine ⟨max fuel fuel₁ + 1 + k, .inr ⟨h', bs', a, given.after kept, fun more le => ?_⟩⟩
      obtain ⟨left, rfl⟩ : ∃ left, more = left + 1 + k := ⟨more - 1 - k, by omega⟩
      rw [skip, asks left _ (runs left (by omega))]
      exact ends left (by omega)

end Sistemas.Xv6.Umalloc
