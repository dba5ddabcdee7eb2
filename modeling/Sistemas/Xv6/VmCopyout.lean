import Sistemas.Xv6.VmCopy

/-! # What `copyout` writes

`copyout` does not look at `PTE_W`: it writes to every page that the process may use, also to those
that it may only read.
-/

namespace Sistemas.Xv6.Vm.Copy

variable {kend root va src len k n a : Nat} {fs : List Nat} {m m' : Mem} {M : Map}
  {b b' b'' kernel : Bytes}

/-- `k` bytes are at the addresses from `va` on, and the memory is otherwise as before. -/
structure Stored (M : Map) (va k : Nat) (bytes : Bytes) (b b' : Bytes) : Prop where
  byte : ∀ i < k, ∀ a, address M (va + i) = some a → b' a = bytes i
  rest : ∀ a, (∀ i < k, address M (va + i) ≠ some a) → b' a = b a

theorem Stored.none {bytes : Bytes} : Stored M va 0 bytes b b where
  byte := fun _ lt => absurd lt (Nat.not_lt_zero _)
  rest := fun _ _ => rfl

theorem Stored.splice {bytes : Bytes} (here : ∀ i < n, address M (va + i) = some (a + i)) :
    Stored M va n bytes b (b.splice a n bytes) where
  byte i lt a' isSome := by
    rw [here i lt] at isSome
    cases isSome
    exact Bytes.splice_inside lt
  rest a' other := by
    apply Bytes.splice_outside
    by_contra inside
    apply other (a' - a) (by omega)
    rw [here _ (by omega)]
    congr 1
    omega

theorem Stored.add {bytes : Bytes} (space : Space kend m root M fs)
    (first : Stored M va n bytes b b')
    (second : Stored M (va + n) k (fun i => bytes (n + i)) b' b'') :
    Stored M va (n + k) bytes b b'' where
  byte i lt a isSome := by
    by_cases inFirst : i < n
    · rw [second.rest a, first.byte i inFirst a isSome]
      intro j _ there
      have := space.injective isSome there
      omega
    · have there : address M (va + n + (i - n)) = some a := by
        rwa [show va + n + (i - n) = va + i by omega]
      rw [second.byte (i - n) (by omega) a there]
      congr 1
      omega
  rest a other := by
    rw [second.rest a, first.rest a]
    · exact fun i lt => other i (by omega)
    · intro i lt
      rw [Nat.add_assoc]
      exact other (n + i) (by omega)

/-- A page table stays as it is while only the pages of the process change. -/
theorem Space.keep (space : Space kend m root M fs) (same : m'.freelist = m.freelist)
    (keeps : ∀ a, (∀ va, address M va ≠ some a) → m'.bytes a = m.bytes a) :
    Space kend m' root M fs := by
  have pages : m.bytes.Keeps pgsize (fun f => f ∈ fs ∨ IsTable m root f) m'.bytes := by
    intro a apart
    apply keeps
    intro va isSome
    obtain ⟨page, mapped, -, eq⟩ := address_page isSome
    obtain ⟨-, notFree, notTable⟩ := space.table.page _ page mapped
    rw [eq] at apart
    exact apart.elim notFree notTable
  have free : FreeList kend m' fs :=
    space.table.tree.free.congr same (pages.mono fun _ mem => .inl mem)
  obtain ⟨tree, nodes, ptes⟩ := space.table.tree.congr free (pages.mono fun _ isTable => .inr isTable)
    space.table.tree.notFree
  refine ⟨⟨tree, ?_, ?_, ?_, space.table.user⟩, space.linked, space.ram, space.once⟩
  · rw [funext ptes, space.table.map]
  · intro v none
    rw [ptes v] at none ⊢
    exact space.table.unset v none
  · intro v page mapped
    obtain ⟨small, notFree, notTable⟩ := space.table.page v page mapped
    refine ⟨small, notFree, ?_⟩
    rintro ⟨d, i, le, there⟩
    exact notTable (isTable le ((nodes d i le).symm.trans there))

theorem copyout_zero (pagetable : Nat) : copyout pagetable va src 0 kernel m = .ok (true, m) := by
  rw [copyout, dif_neg (Nat.lt_irrefl 0)]

theorem copyout_spec (space : Space kend m root M fs) (va src len : Nat) (kernel : Bytes) :
    ∃ k m', copyout (root * pgsize) va src len kernel m = .ok (decide (k = len), m') ∧
      Reach M va len k ∧ Stored M va k (fun i => kernel (src + i)) m.bytes m'.bytes ∧
      Space kend m' root M fs := by
  induction len using Nat.strong_induction_on generalizing va src m with
  | h len ih =>
  by_cases more : 0 < len
  · cases turn space va len with
    | denied none zero =>
      refine ⟨0, m, ?_, .refused none, .none, space⟩
      rw [copyout, dif_pos more]
      dsimp only
      rw [zero, decide_eq_false (by omega)]
      rfl
    | page a pa0 found nonzero start bytes next =>
      have less : len - chunk va len < len := Nat.sub_lt more (chunk_pos more)
      generalize copied : memmove m a kernel src (chunk va len) = m₁
      have stored : Stored M va (chunk va len) (fun i => kernel (src + i)) m.bytes m₁.bytes :=
        copied ▸ Stored.splice bytes
      have space₁ : Space kend m₁ root M fs := by
        apply space.keep
        · rw [← copied, memmove]
        · exact fun a other => stored.rest a fun i _ => other (va + i)
      obtain ⟨k, m', ran, reach, rest, space'⟩ := ih _ less space₁ (va + chunk va len)
        (src + chunk va len)
      have le := @chunk_le va len
      refine ⟨chunk va len + k, m', ?_, reach.add le fun i lt => ⟨_, bytes i lt⟩,
        stored.add space ?_, space'⟩
      · rw [copyout, dif_pos more]
        dsimp only
        rw [found]
        dsimp only [bind, Except.bind]
        rw [if_neg nonzero, start, copied]
        have whole : decide (k = len - chunk va len) = decide (chunk va len + k = len) :=
          decide_eq_decide.mpr (by omega)
        rw [← whole, ← ran]
        by_cases part : chunk va len < len
        · rw [next part]
        · rw [show len - chunk va len = 0 by omega, copyout_zero, copyout_zero]
      · simpa only [Nat.add_assoc] using rest
  · obtain rfl : len = 0 := by omega
    exact ⟨0, m, copyout_zero _, .empty, .none, space⟩

/-! ## Permissions -/

/-- A page that a store of the process may change. -/
def MayStore (m : Mem) (root v : Nat) : Prop :=
  valid (pteOf m root v) = true ∧ user (pteOf m root v) = true ∧ writable (pteOf m root v) = true

/-- `copyout` writes where the process itself could. -/
def Respects (m : Mem) (root dstva len : Nat) : Prop :=
  ∀ kernel src, ∃ done m', copyout (root * pgsize) dstva src len kernel m = .ok (done, m') ∧
    (done = true → (∀ i < len, (dstva + i) % 2 ^ 64 < maxva ∧
      MayStore m root ((dstva + i) % 2 ^ 64 / pgsize) ∧
      m'.bytes (physical m root ((dstva + i) % 2 ^ 64)) = kernel (src + i)) ∧
      -- and no other byte
      ∀ a, (∀ i < len, a ≠ physical m root ((dstva + i) % 2 ^ 64)) → m'.bytes a = m.bytes a) ∧
    ∀ a, m'.bytes a ≠ m.bytes a →
      ∃ v, v * pgsize < maxva ∧ MayStore m root v ∧ a / pgsize = pteFrame (pteOf m root v)

/-- Of the pages that the process may use, up to the first address that it may not use, none is
without `PTE_W`. -/
def Writable (m : Mem) (root dstva len : Nat) : Prop :=
  ∀ i < len, (∀ j ≤ i, Usable m root ((dstva + j) % 2 ^ 64)) →
    writable (pteOf m root ((dstva + i) % 2 ^ 64 / pgsize)) = true

/-- An address up to which the process may use everything. -/
theorem Space.address_upto (space : Space kend m root M fs) {dstva i : Nat} (small : dstva < 2 ^ 64)
    (upto : ∀ j ≤ i, Usable m root ((dstva + j) % 2 ^ 64)) :
    ∀ j ≤ i, ∃ a, address M (dstva + j) = some a := fun j le =>
  (usable_range space small (i + 1)).mp (fun j less => upto j (Nat.le_of_lt_succ less)) j
    (Nat.lt_succ_of_le le)

theorem Space.wrapless (space : Space kend m root M fs) (isSome : address M va = some a) :
    va % 2 ^ 64 = va :=
  Nat.mod_eq_of_lt ((space.lt isSome).trans (by decide))

/-- What is copied to a page without `PTE_W` gets there. -/
theorem writable_of_respects (space : Space kend m root M fs) {dstva : Nat}
    (small : dstva < 2 ^ 64) (respects : Respects m root dstva len) :
    Writable m root dstva len := by
  intro i lt upto
  have here := space.address_upto small upto
  obtain ⟨a, isSome⟩ := here i le_rfl
  -- a source that differs from what is there
  obtain ⟨kernel, differs⟩ : ∃ kernel : Bytes, kernel (0 + i) ≠ m.bytes a :=
    ⟨fun _ => m.bytes a + 1, by simp⟩
  obtain ⟨done, m', ran, -, changed⟩ := respects kernel 0
  obtain ⟨k, m₁, ran', reach, stored, -⟩ := copyout_spec space dstva 0 len kernel
  rw [ran] at ran'
  cases ran'
  have inside : i < k := by
    by_contra out
    obtain ⟨a', isSome'⟩ := here k (by omega)
    rw [reach.stop (by omega)] at isSome'
    cases isSome'
  have written : m'.bytes a = kernel (0 + i) := stored.byte i inside a isSome
  obtain ⟨v, low, may, frame⟩ := changed a (written ▸ differs)
  obtain ⟨page, mapped, isUser, eq⟩ := address_page isSome
  have mapped' := space.table.mapOf may.1
  have same := space.once _ _ page _ mapped mapped' isUser
    (by rw [flags_testBit (by decide)]; exact may.2.1) (eq.symm.trans frame)
  rw [space.wrapless isSome, same]
  exact may.2.2

theorem respects_of_writable (space : Space kend m root M fs) {dstva : Nat}
    (small : dstva < 2 ^ 64) (writable : Writable m root dstva len) :
    Respects m root dstva len := by
  intro kernel src
  obtain ⟨k, m', ran, reach, stored, -⟩ := copyout_spec space dstva src len kernel
  have here : ∀ i < k, ∃ a, address M (dstva + i) = some a ∧ a = physical m root (dstva + i) ∧
      MayStore m root ((dstva + i) / pgsize) := by
    intro i lt
    obtain ⟨a, isSome⟩ := reach.here i lt
    obtain ⟨⟨-, isValid, isUser⟩, eq⟩ := space.address_iff.mp isSome
    have upto := (usable_range space small (i + 1)).mpr fun j less => reach.here j (by omega)
    have mayWrite := writable i (lt.trans_le reach.le) fun j le => upto j (Nat.lt_succ_of_le le)
    rw [space.wrapless isSome] at mayWrite
    exact ⟨a, isSome, eq, isValid, isUser, mayWrite⟩
  refine ⟨_, m', ran, ?_, ?_⟩
  · intro all
    obtain rfl : k = len := of_decide_eq_true all
    refine ⟨fun i lt => ?_, fun a other => stored.rest a fun i lt isSome => ?_⟩
    · obtain ⟨a, isSome, rfl, may⟩ := here i lt
      rw [space.wrapless isSome]
      exact ⟨space.lt isSome, may, stored.byte i lt _ isSome⟩
    · obtain ⟨a', isSome', rfl, -⟩ := here i lt
      have away := other i lt
      rw [space.wrapless isSome] at away
      rw [isSome] at isSome'
      exact away (Option.some.inj isSome')
  · intro a changed
    by_contra none
    apply changed
    apply stored.rest
    intro i lt isSome
    obtain ⟨a', isSome', -, may⟩ := here i lt
    apply none
    refine ⟨(dstva + i) / pgsize, ?_, may, ?_⟩
    · exact (Nat.div_mul_le_self _ _).trans_lt (space.lt isSome)
    · obtain ⟨page, mapped, -, eq⟩ := address_page isSome
      rw [space.table.mapOf may.1] at mapped
      rw [eq, ← Option.some.inj mapped]

theorem copyout_respects_iff (space : Space kend m root M fs) {dstva : Nat}
    (small : dstva < 2 ^ 64) : Respects m root dstva len ↔ Writable m root dstva len :=
  ⟨writable_of_respects space small, respects_of_writable space small⟩

/-! Page 0 may be read and written, or it is text -/

theorem onePage_pte {perm : Nat} (space : Space kernbase m 0x80000 (onePageMap perm) fs) :
    valid (pteOf m 0x80000 0) = true ∧ pteFrame (pteOf m 0x80000 0) = 0x80005 ∧
      pteFlags (pteOf m 0x80000 0) = perm ||| pteV := by
  have map : mapOf (pteOf m 0x80000) 0 = some (0x80005, perm ||| pteV) := by
    rw [space.table.map]
    rfl
  obtain ⟨isValid, eq⟩ := mapOf_some map
  have frame := congrArg Prod.fst eq
  have flags := congrArg Prod.snd eq
  exact ⟨isValid, frame.symm, flags.symm⟩

theorem copyout_respects_onePage : ∃ m, Respects m 0x80000 0 1 := by
  obtain ⟨m, fs, space⟩ := @onePage_space 22 (by decide) (by
    rw [mappages, mapLoop]
    decide +kernel)
  refine ⟨m, (copyout_respects_iff space (by decide)).mpr ?_⟩
  intro i lt _
  obtain rfl : i = 0 := Nat.lt_one_iff.mp lt
  obtain ⟨-, -, flags⟩ := onePage_pte space
  show writable (pteOf m 0x80000 0) = true
  rw [writable, ← flags_testBit (by decide), flags]
  rfl

/-- The text of a program is overwritten. -/
theorem copyout_writes_text : ∃ m fs, Space kernbase m 0x80000 (onePageMap 26) fs ∧
    writable (pteOf m 0x80000 0) = false ∧ ¬ Respects m 0x80000 0 1 := by
  obtain ⟨m, fs, space⟩ := @onePage_space 26 (by decide) (by
    rw [mappages, mapLoop]
    decide +kernel)
  obtain ⟨isValid, -, flags⟩ := onePage_pte space
  have readOnly : writable (pteOf m 0x80000 0) = false := by
    rw [writable, ← flags_testBit (by decide), flags]
    rfl
  have isUser : Vm.user (pteOf m 0x80000 0) = true := by
    rw [Vm.user, ← flags_testBit (by decide), flags]
    rfl
  refine ⟨m, fs, space, readOnly, fun respects => ?_⟩
  have may := writable_of_respects space (by decide) respects 0 Nat.one_pos fun j le => by
    obtain rfl : j = 0 := Nat.le_zero.mp le
    exact ⟨by decide, isValid, isUser⟩
  exact Bool.false_ne_true (readOnly.symm.trans may)

end Sistemas.Xv6.Vm.Copy
