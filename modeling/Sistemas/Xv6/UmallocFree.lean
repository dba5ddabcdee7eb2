import Sistemas.Xv6.UmallocList

/-! # free

`insert` puts a block into its place in the list and joins it to its neighbours if it touches
them.  The bytes of the list are then those it had and those of the block (`free_spec`).
-/

namespace Sistemas.Xv6.Umalloc

variable {h h' : Heap} {base bp last : Nat} {b b' c p : Block} {as bs pre post post' : List Block}

/-! ## Reading a changed heap -/

section Read

variable (h : Heap) (a v a' : Nat)

@[simp] theorem setPtr_size : (h.setPtr a v).size = h.size := rfl

@[simp] theorem setPtr_ptr : (h.setPtr a v).ptr = Function.update h.ptr a v := rfl

@[simp] theorem setSize_ptr : (h.setSize a v).ptr = h.ptr := rfl

@[simp] theorem setSize_size : (h.setSize a v).size = Function.update h.size a v := rfl

@[simp] theorem addSize_ptr : (h.addSize a v).ptr = h.ptr := rfl

@[simp] theorem addSize_size :
    (h.addSize a v).size = Function.update h.size a ((h.size a + v) % 2 ^ 32) := rfl

end Read

/-- Only the header at `a` differs. -/
structure OnlyAt (a : Nat) (h h' : Heap) : Prop where
  ptr : ∀ a' ≠ a, h'.ptr a' = h.ptr a'
  size : ∀ a' ≠ a, h'.size a' = h.size a'
  freep : h'.freep = h.freep
  brk : h'.brk = h.brk
  obtained : h'.obtained = h.obtained

/-! ## The joins -/

/-- The sizes of blocks below the end of the memory can be added. -/
theorem units_lt (pos : 0 < b.addr) (below : b.stop ≤ maxMemory) : b.units < 2 ^ 32 := by
  simp only [Block.stop, unit, maxMemory] at below
  omega

theorem joinNext_onlyAt (h : Heap) (bp p : Nat) : OnlyAt bp h (joinNext h bp p) := by
  unfold joinNext
  split
  · exact ⟨fun a ne => by simp [Function.update_of_ne ne],
      fun a ne => by simp [Function.update_of_ne ne], rfl, rfl, rfl⟩
  · exact ⟨fun a ne => by simp [Function.update_of_ne ne], fun a ne => rfl, rfl, rfl, rfl⟩

theorem joinPrev_onlyAt (h : Heap) (bp p : Nat) : OnlyAt p h (joinPrev h bp p) := by
  unfold joinPrev
  split
  · exact ⟨fun a ne => by simp [Function.update_of_ne ne],
      fun a ne => by simp [Function.update_of_ne ne], rfl, rfl, rfl⟩
  · exact ⟨fun a ne => by simp [Function.update_of_ne ne], fun a ne => rfl, rfl, rfl, rfl⟩

/-- A block that takes the place of `b`, maybe together with what follows it. -/
structure Grown (b : Block) (post : List Block) (b' : Block) (post' : List Block) : Prop where
  addr : b'.addr = b.addr
  units : b.units ≤ b'.units
  bytes : ∀ x, Within (b' :: post') x ↔ Within (b :: post) x
  apart : (b' :: post').Pairwise Apart
  tail : ∀ c ∈ post', c ∈ post
  below : b'.stop ≤ maxMemory

/-- The block with the rest of the list behind it. -/
theorem joinNext_grown (chain : Chain h last post) (apart : post.Pairwise Apart)
    (behind : ∀ c ∈ post, b.stop ≤ c.addr) (lastLow : last < b.addr)
    (below : ∀ c ∈ post, c.stop ≤ maxMemory) (belowB : b.stop ≤ maxMemory)
    (size : h.size b.addr = b.units) (pos : ∀ c ∈ post, 0 < c.units)
    (ptr : h.ptr p.addr = first last post) (posB : 0 < b.units) :
    ∃ b' post', Grown b post b' post' ∧ Chain (joinNext h b.addr p.addr) last (b' :: post') := by
  have le := b.addr_le_stop
  have further : b.addr < b.stop := by
    simp only [Block.stop, unit]
    omega
  have addrs : ∀ c ∈ post, c.addr ≠ b.addr := fun c mem => by
    have := behind c mem
    omega
  have kept := joinNext_onlyAt h b.addr p.addr
  have rest : Chain (joinNext h b.addr p.addr) last post :=
    chain.congr fun c mem => ⟨kept.size _ (addrs c mem), kept.ptr _ (addrs c mem)⟩
  have stop : b.addr + unit * h.size b.addr = b.stop := by rw [size, Block.stop]
  cases post with
  | nil =>
    -- `last` is below the block, so they do not touch
    refine ⟨b, [], ⟨rfl, Nat.le_refl _, fun _ => Iff.rfl, by simp, by simp, belowB⟩, ?_, ?_, trivial⟩
    · rw [joinNext, stop, ptr, first, if_neg (by omega)]
      exact size
    · rw [joinNext, stop, ptr, first, if_neg (by omega)]
      simp
  | cons c post =>
    obtain ⟨sizeC, ptrC, -⟩ := chain
    obtain ⟨apartC, apart'⟩ := List.pairwise_cons.mp apart
    by_cases touch : b.stop = c.addr
    · have sum : ({ addr := b.addr, units := b.units + c.units } : Block).stop = c.stop := by
        simp only [Block.stop, unit] at touch ⊢
        omega
      have posC := pos c List.mem_cons_self
      have belowC := below c List.mem_cons_self
      have small : b.units + c.units < 2 ^ 32 :=
        units_lt (b := { addr := b.addr, units := b.units + c.units }) (by simp only; omega)
          (by rw [sum]; exact belowC)
      refine ⟨{ addr := b.addr, units := b.units + c.units }, post,
        ⟨rfl, Nat.le_add_right _ _, ?_, ?_, fun d mem => .tail _ mem, by rw [sum]; exact belowC⟩,
        ?_, ?_, rest.2.2⟩
      · intro x
        rw [within_cons, mem_join touch, within_cons, within_cons, or_assoc]
      · refine List.pairwise_cons.mpr ⟨fun d mem => ?_, apart'⟩
        rw [Apart, sum]
        exact apartC d mem
      · rw [joinNext, stop, ptr, first, if_pos touch]
        simp only [Heap.setPtr, addSize_size, size, sizeC]
        rw [Function.update_self, Nat.mod_eq_of_lt small]
      · rw [joinNext, stop, ptr, first, if_pos touch]
        simp [ptrC]
    · refine ⟨b, c :: post, ⟨rfl, Nat.le_refl _, fun _ => Iff.rfl, ?_, fun _ mem => mem, belowB⟩,
        ?_, ?_, rest⟩
      · refine List.pairwise_cons.mpr ⟨fun d mem => ?_, apart⟩
        have here := behind c List.mem_cons_self
        cases mem with
        | head => exact Nat.lt_of_le_of_ne here touch
        | tail _ mem =>
          have far : c.stop < d.addr := apartC d mem
          have le' := c.addr_le_stop
          exact (show b.stop < d.addr by omega)
      · rw [joinNext, stop, ptr, first, if_neg touch]
        exact size
      · rw [joinNext, stop, ptr, first, if_neg touch]
        simp

/-- The block before it, with what has come behind it. -/
theorem joinPrev_grown (chain : Chain h last (b :: post)) (apart : (b :: post).Pairwise Apart)
    (size : h.size p.addr = p.units) (before : p.stop ≤ b.addr) (lower : p.addr < b.addr)
    (below : ∀ c ∈ b :: post, c.stop ≤ maxMemory) (real : 0 < p.units ∧ 0 < p.addr ∨ p.stop ≠ b.addr) :
    ∃ p' post', Grown p (b :: post) p' post' ∧ Chain (joinPrev h b.addr p.addr) last (p' :: post') ∧
      (p' = p ∨ 0 < p.units) ∧ ∃ c ∈ p' :: post', b.units ≤ c.units := by
  have le := p.addr_le_stop
  have leB := b.addr_le_stop
  have belowB := below b List.mem_cons_self
  obtain ⟨apartB, apart'⟩ := List.pairwise_cons.mp apart
  have addrs : ∀ c ∈ b :: post, c.addr ≠ p.addr := by
    rw [List.forall_mem_cons]
    refine ⟨by omega, fun c mem => ?_⟩
    have far : b.stop < c.addr := apartB c mem
    omega
  have kept := joinPrev_onlyAt h b.addr p.addr
  have rest : Chain (joinPrev h b.addr p.addr) last (b :: post) :=
    chain.congr fun c mem => ⟨kept.size _ (addrs c mem), kept.ptr _ (addrs c mem)⟩
  obtain ⟨sizeB, ptrB, -⟩ := chain
  have stop : p.addr + unit * h.size p.addr = p.stop := by rw [size, Block.stop]
  by_cases touch : p.stop = b.addr
  · have sum : ({ addr := p.addr, units := p.units + b.units } : Block).stop = b.stop := by
      simp only [Block.stop, unit] at touch ⊢
      omega
    have small : p.units + b.units < 2 ^ 32 := by
      have low := (real.resolve_right fun ne => ne touch).2
      simp only [Block.stop, unit, maxMemory] at belowB touch
      omega
    refine ⟨{ addr := p.addr, units := p.units + b.units }, post,
      ⟨rfl, Nat.le_add_right _ _, ?_, ?_, fun d mem => .tail _ mem, by rw [sum]; exact belowB⟩,
      ⟨?_, ?_, rest.2.2⟩, .inr ?_, _, List.mem_cons_self, Nat.le_add_left _ _⟩
    · intro x
      rw [within_cons, mem_join touch, within_cons, within_cons, or_assoc]
    · refine List.pairwise_cons.mpr ⟨fun d mem => ?_, apart'⟩
      rw [Apart, sum]
      exact apartB d mem
    · rw [joinPrev, stop, if_pos touch]
      simp only [Heap.setPtr, addSize_size, size, sizeB]
      rw [Function.update_self, Nat.mod_eq_of_lt small]
    · rw [joinPrev, stop, if_pos touch]
      simp [ptrB]
    · exact (real.resolve_right fun ne => ne touch).1
  · refine ⟨p, b :: post, ⟨rfl, Nat.le_refl _, fun _ => Iff.rfl, ?_, fun _ mem => mem, by omega⟩,
      ⟨?_, ?_, rest⟩, .inl rfl, b, by simp, Nat.le_refl _⟩
    · refine List.pairwise_cons.mpr ⟨fun d mem => ?_, apart⟩
      have near : p.stop < b.addr := Nat.lt_of_le_of_ne before touch
      cases mem with
      | head => exact near
      | tail _ mem =>
        have far : b.stop < d.addr := apartB d mem
        exact (show p.stop < d.addr by omega)
    · rw [joinPrev, stop, if_neg touch]
      exact size
    · rw [joinPrev, stop, if_neg touch]
      simp [first]

/-! ## The list with the block -/

theorem apart_trans {d : Block} (near : Apart b c) (far : c.addr ≤ d.addr) : Apart b d :=
  Nat.lt_of_lt_of_le near far

/-- What precedes a block precedes what has taken its place. -/
theorem pairwise_replace (apart : (pre ++ p :: post).Pairwise Apart) (addr : b'.addr = p.addr)
    (apart' : (b' :: post').Pairwise Apart) : (pre ++ b' :: post').Pairwise Apart := by
  obtain ⟨left, -, cross⟩ := List.pairwise_append.mp apart
  refine List.pairwise_append.mpr ⟨left, apart', fun c memC d memD => ?_⟩
  have near : Apart c p := cross c memC p List.mem_cons_self
  cases memD with
  | head => exact apart_trans near (Nat.le_of_eq addr.symm)
  | tail _ memD =>
    have far : b'.stop < d.addr := (List.pairwise_cons.mp apart').1 d memD
    have le := b'.addr_le_stop
    exact apart_trans near (by omega)

/-- No byte is in both. -/
def Disjoint (b c : Block) : Prop := ∀ x, ¬ (b.Mem x ∧ c.Mem x)

theorem Disjoint.symm (disjoint : Disjoint b c) : Disjoint c b := fun x both =>
  disjoint x both.symm

/-- Of two blocks that have no byte in common one is before the other. -/
theorem Disjoint.before (disjoint : Disjoint b c) (lt : b.addr < c.addr) (pos : 0 < c.units) :
    b.stop ≤ c.addr := by
  by_contra beyond
  refine disjoint c.addr ⟨⟨Nat.le_of_lt lt, by omega⟩, Nat.le_refl _, ?_⟩
  simp only [Block.stop, unit]
  omega

/-- What `free` makes of a list and a block. -/
structure Freed (base : Nat) (h : Heap) (bs : List Block) (b : Block) (h' : Heap)
    (bs' : List Block) : Prop where
  list : FreeList base h' bs'
  bytes : ∀ x, Within bs' x ↔ Within bs x ∨ b.Mem x
  -- the block, maybe with others
  whole : ∃ c ∈ bs', b.units ≤ c.units
  -- the other headers stay
  size : ∀ a, (∀ c ∈ head base :: b :: bs, a ≠ c.addr) → h'.size a = h.size a
  brk : h'.brk = h.brk
  obtained : h'.obtained = h.obtained

/-- A block that is to be freed. -/
structure Loose (base : Nat) (h : Heap) (bs : List Block) (b : Block) : Prop where
  size : h.size b.addr = b.units
  pos : 0 < b.units
  low : base < b.addr
  below : b.stop ≤ maxMemory
  disjoint : ∀ c ∈ bs, Disjoint b c

theorem Loose.new (loose : Loose base h bs b) (pos : ∀ c ∈ bs, 0 < c.units) :
    ∀ c ∈ bs, c.addr ≠ b.addr := by
  intro c mem same
  have posB := loose.pos
  have posC := pos c mem
  refine loose.disjoint c mem b.addr ⟨⟨Nat.le_refl _, ?_⟩, Nat.le_of_eq same, ?_⟩ <;>
    simp only [Block.stop, unit] <;> omega

theorem within_head {x : Nat} : Within (head base :: bs) x ↔ Within bs x := by
  rw [within_cons, or_iff_right]
  rintro ⟨above, under⟩
  simp only [Block.stop, head] at above under
  omega

theorem FreeList.mem_of_lt (mem : c ∈ head base :: bs) (lt : base < c.addr) : c ∈ bs := by
  cases mem with
  | head => exact absurd lt (Nat.lt_irrefl base)
  | tail _ mem => exact mem

/-- The two blocks at the place of `b`. -/
structure Joined (base : Nat) (b : Block) (bs pre : List Block) (p : Block) (post : List Block)
    (h' : Heap) (p' : Block) (post' : List Block) : Prop where
  addr : p'.addr = p.addr
  chain : Chain h' base (p' :: post')
  apart : (p' :: post').Pairwise Apart
  bytes : ∀ x, Within (p' :: post') x ↔ Within (p :: b :: post) x
  below : ∀ c ∈ p' :: post', c.stop ≤ maxMemory
  pos : ∀ c ∈ post', 0 < c.units
  same : p' = p ∨ 0 < p.units
  units : p.units ≤ p'.units
  whole : ∃ c ∈ p' :: post', b.units ≤ c.units

theorem insert_joined (list : FreeList base h bs) (loose : Loose base h bs b)
    (place : Place base b.addr bs pre p post) :
    ∃ p' post', Joined base b bs pre p post (insert h b.addr p.addr) p' post' := by
  have chain := list.chain
  have apart := list.apart
  rw [place.split] at chain apart
  obtain ⟨sizeP, ptrP, chainPost⟩ := (chain_append.mp chain).2
  obtain ⟨apartP, apartPost⟩ := List.pairwise_cons.mp (List.pairwise_append.mp apart).2.1
  have lower := place.before
  have low := loose.low
  have memP : p ∈ head base :: bs := by
    rw [place.split]
    simp
  have member : ∀ c ∈ post, c ∈ bs := by
    intro c mem
    have inAll : c ∈ head base :: bs := by
      rw [place.split]
      simp [mem]
    exact FreeList.mem_of_lt inAll (Nat.lt_trans low (place.behind c mem))
  have behind : ∀ c ∈ post, b.stop ≤ c.addr := fun c mem =>
    (loose.disjoint c (member c mem)).before (place.behind c mem) (list.pos c (member c mem))
  obtain ⟨b₁, post₁, grown, chain₁⟩ := joinNext_grown (p := p) chainPost apartPost behind low
    (fun c mem => list.below c (member c mem)) loose.below loose.size
    (fun c mem => list.pos c (member c mem)) ptrP loose.pos
  have kept := joinNext_onlyAt h b.addr p.addr
  have below₁ : ∀ c ∈ b₁ :: post₁, c.stop ≤ maxMemory :=
    List.forall_mem_cons.mpr ⟨grown.below, fun c mem => list.below c (member c (grown.tail c mem))⟩
  have pos₁ : ∀ c ∈ b₁ :: post₁, 0 < c.units :=
    List.forall_mem_cons.mpr ⟨Nat.lt_of_lt_of_le loose.pos grown.units,
      fun c mem => list.pos c (member c (grown.tail c mem))⟩
  -- the static header is never joined to a block, as it has no units
  have before : p.stop ≤ b.addr ∧ (0 < p.units ∧ 0 < p.addr ∨ p.stop ≠ b.addr) := by
    cases memP with
    | head =>
      simp only [head, Block.stop]
      omega
    | tail _ memP =>
      have above : base < p.addr := (List.pairwise_cons.mp list.apart).1 p memP
      exact ⟨(loose.disjoint p memP).symm.before lower loose.pos,
        .inl ⟨list.pos p memP, by omega⟩⟩
  obtain ⟨p', post', grown', chain', same, whole⟩ := joinPrev_grown (p := p) chain₁ grown.apart
    ((kept.size _ (by omega)).trans sizeP) (by rw [grown.addr]; exact before.1)
    (by rw [grown.addr]; exact lower) below₁ (by rw [grown.addr]; exact before.2)
  refine ⟨p', post', grown'.addr, ?_, grown'.apart, fun x => ?_, ?_, fun c mem => ?_, same,
    grown'.units, ?_⟩
  · rw [grown.addr] at chain'
    exact chain'.congr fun c mem => ⟨rfl, rfl⟩
  · rw [grown'.bytes, within_cons, grown.bytes, within_cons, within_cons, within_cons]
  · exact List.forall_mem_cons.mpr ⟨grown'.below, fun c mem => below₁ c (grown'.tail c mem)⟩
  · exact pos₁ c (grown'.tail c mem)
  · obtain ⟨c, mem, le⟩ := whole
    exact ⟨c, mem, Nat.le_trans grown.units le⟩

theorem insert_onlyAt (h : Heap) (bp p : Nat) :
    (∀ a, a ≠ bp → a ≠ p → (insert h bp p).size a = h.size a ∧ (insert h bp p).ptr a = h.ptr a) ∧
      (insert h bp p).brk = h.brk ∧ (insert h bp p).obtained = h.obtained := by
  have next := joinNext_onlyAt h bp p
  have prev := joinPrev_onlyAt (joinNext h bp p) bp p
  exact ⟨fun a ne ne' => ⟨(prev.size a ne').trans (next.size a ne),
      (prev.ptr a ne').trans (next.ptr a ne)⟩,
    prev.brk.trans next.brk, prev.obtained.trans next.obtained⟩

theorem insert_freed (list : FreeList base h bs) (loose : Loose base h bs b)
    (place : Place base b.addr bs pre p post) :
    ∃ bs', Freed base h bs b (insert h b.addr p.addr) bs' := by
  obtain ⟨p', post', joined⟩ := insert_joined list loose place
  obtain ⟨kept, brk, obtained⟩ := insert_onlyAt h b.addr p.addr
  have chain := list.chain
  have apart := list.apart
  rw [place.split] at chain apart
  have lower := place.before
  have memP : p ∈ head base :: bs := by
    rw [place.split]
    simp
  -- the list begins with `base` as before
  obtain ⟨bs', split⟩ : ∃ bs', head base :: bs' = pre ++ p' :: post' := by
    have split := place.split
    cases pre with
    | nil =>
      rw [List.nil_append, List.cons.injEq] at split
      have same : p' = p := joined.same.resolve_right (by rw [← split.1]; simp [head])
      exact ⟨post', by rw [same, split.1]; rfl⟩
    | cons d pre =>
      rw [List.cons_append, List.cons.injEq] at split
      exact ⟨pre ++ p' :: post', by rw [split.1]; rfl⟩
  have apart' : (head base :: bs').Pairwise Apart := by
    rw [split]
    exact pairwise_replace apart joined.addr joined.apart
  have above : ∀ c ∈ bs', base < c.addr := (List.pairwise_cons.mp apart').1
  have chain' : Chain (insert h b.addr p.addr) base (head base :: bs') := by
    rw [split, chain_append]
    refine ⟨?_, joined.chain⟩
    rw [first, joined.addr]
    refine (chain_append.mp chain).1.congr fun c mem => ?_
    have near : c.stop < p.addr := (List.pairwise_append.mp apart).2.2 c mem p List.mem_cons_self
    have le := c.addr_le_stop
    exact kept c.addr (by omega) (by omega)
  -- a block of the new list is one of the old list, `p'`, or behind `p'`
  have source : ∀ c ∈ bs', c ∈ bs ∨ c = p' ∧ p ∈ bs ∨ c ∈ post' := by
    intro c mem
    have lt := above c mem
    have inAll : c ∈ pre ++ p' :: post' := by
      rw [← split]
      exact .tail _ mem
    rw [List.mem_append, List.mem_cons] at inAll
    rcases inAll with inPre | rfl | inPost
    · refine .inl (FreeList.mem_of_lt ?_ lt)
      rw [place.split]
      simp [inPre]
    · exact .inr (.inl ⟨rfl, FreeList.mem_of_lt memP (by rw [← joined.addr]; exact lt)⟩)
    · exact .inr (.inr inPost)
  refine ⟨bs', ⟨chain', apart', fun c mem => ?_, fun c mem => ?_, p', ?_, ?_⟩, fun x => ?_, ?_,
    fun a others => ?_, brk, obtained⟩
  · rcases source c mem with old | ⟨rfl, memP⟩ | behind
    · exact list.pos c old
    · exact Nat.lt_of_lt_of_le (list.pos p memP) joined.units
    · exact joined.pos c behind
  · rcases source c mem with old | ⟨rfl, -⟩ | behind
    · exact list.below c old
    · exact joined.below _ List.mem_cons_self
    · exact joined.below c (.tail _ behind)
  · rw [split]
    simp
  · rw [joined.addr]
    rfl
  · have old : Within bs x ↔ Within pre x ∨ p.Mem x ∨ Within post x := by
      rw [← within_head, place.split, within_append, within_cons]
    have new : Within bs' x ↔ Within (pre ++ p' :: post') x := by
      rw [← split, within_head]
    rw [new, within_append, joined.bytes, within_cons, within_cons, old]
    tauto
  · obtain ⟨c, mem, le⟩ := joined.whole
    have inAll : c ∈ head base :: bs' := by
      rw [split]
      simp [mem]
    refine ⟨c, ?_, le⟩
    have pos := loose.pos
    cases inAll with
    | head =>
      simp only [head] at le
      omega
    | tail _ mem => exact mem
  · refine (kept a (others b (by simp)) ?_).1
    cases memP with
    | head => exact others _ List.mem_cons_self
    | tail _ memP => exact others p (.tail _ (.tail _ memP))

/-- `free` ends, and makes of the list and the block a list. -/
theorem free_spec (list : FreeList base h bs) (loose : Loose base h bs b) :
    ∃ fuel h' bs', Freed base h bs b h' bs' ∧
      ∀ more, fuel ≤ more → free more (b.addr + unit) h = some h' := by
  obtain ⟨fuel, f, pre, p, post, freep, place, found⟩ :=
    list.find loose.low (loose.new list.pos)
  obtain ⟨bs', freed⟩ := insert_freed list loose place
  refine ⟨fuel, _, bs', freed, fun more le => ?_⟩
  have bp : b.addr + unit - unit = b.addr := Nat.add_sub_cancel _ _
  simp only [free, freep, bp, Option.bind_eq_bind, Option.bind_some, found more le]

end Sistemas.Xv6.Umalloc
