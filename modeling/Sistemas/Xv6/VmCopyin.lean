import Sistemas.Xv6.VmCopy

/-! # What `copyin` and `copyinstr` deliver -/

namespace Sistemas.Xv6.Vm.Copy

variable {kend root va dst len k n p j : Nat} {fs : List Nat} {m : Mem} {M : Map}
  {b kernel kernel' kernel'' : Bytes}

/-- The bytes of `k` user addresses are in the memory of the kernel, which is otherwise as before. -/
structure Fetched (M : Map) (m : Mem) (va dst k : Nat) (kernel kernel' : Bytes) : Prop where
  byte : ∀ i < k, ∃ a, address M (va + i) = some a ∧ kernel' (dst + i) = m.bytes a
  rest : ∀ j, j < dst ∨ dst + k ≤ j → kernel' j = kernel j

theorem Fetched.none : Fetched M m va dst 0 kernel kernel where
  byte := fun _ lt => absurd lt (Nat.not_lt_zero _)
  rest := fun _ _ => rfl

theorem Fetched.splice {a : Nat} (bytes : ∀ i < n, address M (va + i) = some (a + i)) :
    Fetched M m va dst n kernel (kernel.splice dst n fun i => m.bytes (a + i)) where
  byte i lt := ⟨a + i, bytes i lt, Bytes.splice_inside lt⟩
  rest _ outside := Bytes.splice_outside outside

theorem Fetched.add (first : Fetched M m va dst n kernel kernel')
    (second : Fetched M m (va + n) (dst + n) k kernel' kernel'') :
    Fetched M m va dst (n + k) kernel kernel'' where
  byte i lt := by
    by_cases inFirst : i < n
    · obtain ⟨a, isSome, eq⟩ := first.byte i inFirst
      exact ⟨a, isSome, (second.rest _ (.inl (by omega))).trans eq⟩
    · have there := second.byte (i - n) (by omega)
      rwa [show va + n + (i - n) = va + i by omega,
        show dst + n + (i - n) = dst + i by omega] at there
  rest j outside := by
    rw [second.rest j (by omega), first.rest j (by omega)]

/-! ## `copyin` -/

theorem copyin_zero (pagetable : Nat) : copyin pagetable dst va 0 m kernel = .ok (true, kernel) := by
  rw [copyin, dif_neg (Nat.lt_irrefl 0)]

theorem copyin_spec (space : Space kend m root M fs) (dst va len : Nat) (kernel : Bytes) :
    ∃ k kernel', copyin (root * pgsize) dst va len m kernel = .ok (decide (k = len), kernel') ∧
      Reach M va len k ∧ Fetched M m va dst k kernel kernel' := by
  induction len using Nat.strong_induction_on generalizing va dst kernel with
  | h len ih =>
  by_cases more : 0 < len
  · cases turn space va len with
    | denied none zero =>
      refine ⟨0, kernel, ?_, .refused none, .none⟩
      rw [copyin, dif_pos more]
      dsimp only
      rw [zero, decide_eq_false (by omega)]
      rfl
    | page a pa0 found nonzero start bytes next =>
      have less : len - chunk va len < len := Nat.sub_lt more (chunk_pos more)
      obtain ⟨k, kernel', ran, reach, rest⟩ := ih _ less (dst + chunk va len) (va + chunk va len)
        (kernel.splice dst (chunk va len) fun i => m.bytes (a + i))
      have turned : copyin (root * pgsize) dst va len m kernel =
          copyin (root * pgsize) (dst + chunk va len) (va + chunk va len) (len - chunk va len) m
            (kernel.splice dst (chunk va len) fun i => m.bytes (a + i)) := by
        rw [copyin, dif_pos more]
        dsimp only
        rw [found]
        dsimp only [bind, Except.bind]
        rw [if_neg nonzero, start]
        by_cases part : chunk va len < len
        · rw [next part]
        · rw [show len - chunk va len = 0 by omega, copyin_zero, copyin_zero]
      have le := @chunk_le va len
      refine ⟨chunk va len + k, kernel', ?_, reach.add le fun i lt => ⟨_, bytes i lt⟩,
        (Fetched.splice bytes).add rest⟩
      rw [turned, ran]
      congr 2
      exact decide_eq_decide.mpr (by omega)
  · obtain rfl : len = 0 := by omega
    exact ⟨0, kernel, copyin_zero _, .empty, .none⟩

/-! ## `copyinstr` -/

/-- There are `n` bytes without a NUL, or a first one. -/
theorem first_nul (b : Bytes) (p n : Nat) :
    (∀ i < n, b (p + i) ≠ 0) ∨ ∃ j < n, b (p + j) = 0 ∧ ∀ i < j, b (p + i) ≠ 0 := by
  induction n with
  | zero => exact .inl fun _ lt => absurd lt (Nat.not_lt_zero _)
  | succ n ih =>
    cases ih with
    | inl clean =>
      by_cases nul : b (p + n) = 0
      · exact .inr ⟨n, Nat.lt_succ_self n, nul, clean⟩
      · refine .inl fun i lt => ?_
        by_cases last : i = n
        · rwa [last]
        · exact clean i (by omega)
    | inr found =>
      obtain ⟨j, lt, nul, clean⟩ := found
      exact .inr ⟨j, by omega, nul, clean⟩

theorem update_splice (part : Bytes) :
    Bytes.splice (Function.update kernel dst (part 0)) (dst + 1) n (fun i => part (i + 1)) =
      kernel.splice dst (n + 1) part := by
  funext j
  by_cases first : j = dst
  · rw [Bytes.splice_outside (.inl (by omega)), first, Function.update_self]
    exact (Bytes.splice_inside (Nat.succ_pos n)).symm
  · by_cases inside : dst < j ∧ j < dst + (n + 1)
    · obtain ⟨i, rfl⟩ : ∃ i, j = dst + 1 + i := ⟨j - (dst + 1), by omega⟩
      rw [Bytes.splice_inside (by omega), show dst + 1 + i = dst + (i + 1) by omega]
      exact (Bytes.splice_inside (by omega)).symm
    · rw [Bytes.splice_outside (by omega), Bytes.splice_outside (by omega),
        Function.update_of_ne first]

theorem strLoop_missing (clean : ∀ i < n, b (p + i) ≠ 0) :
    strLoop b n p dst kernel = (false, kernel.splice dst n fun i => b (p + i)) := by
  induction n generalizing p dst kernel with
  | zero =>
    rw [strLoop]
    congr 1
    funext j
    exact (Bytes.splice_outside (by omega)).symm
  | succ n ih =>
    have later : ∀ i < n, b (p + 1 + i) ≠ 0 := fun i lt => by
      have := clean (i + 1) (by omega)
      rwa [show p + (i + 1) = p + 1 + i by omega] at this
    have first : b p ≠ 0 := clean 0 (Nat.succ_pos n)
    rw [strLoop, if_neg first, ih later, ← update_splice]
    simp only [Nat.add_zero, Nat.add_assoc, Nat.add_comm 1]

theorem strLoop_found (lt : j < n) (nul : b (p + j) = 0) (clean : ∀ i < j, b (p + i) ≠ 0) :
    strLoop b n p dst kernel = (true, kernel.splice dst (j + 1) fun i => b (p + i)) := by
  induction n generalizing p dst kernel j with
  | zero => exact absurd lt (Nat.not_lt_zero j)
  | succ n ih =>
    rw [strLoop, ← update_splice]
    cases j with
    | zero =>
      have first : b p = 0 := nul
      rw [if_pos first, nul]
      congr 1
      funext i
      exact (Bytes.splice_outside (by omega)).symm
    | succ j =>
      have next : ∀ i, p + 1 + i = p + (i + 1) := fun i => by omega
      have first : b p ≠ 0 := clean 0 (Nat.succ_pos j)
      have nul' : b (p + 1 + j) = 0 := by rwa [next]
      have clean' : ∀ i < j, b (p + 1 + i) ≠ 0 := fun i small => by
        rw [next]
        exact clean (i + 1) (by omega)
      rw [if_neg first, ih (Nat.lt_of_succ_lt_succ lt) nul' clean']
      simp only [Nat.add_zero, next]

/-- How `copyinstr` ends after `k` bytes. -/
inductive Copied (M : Map) (m : Mem) (va dst max : Nat) (kernel kernel' : Bytes) : Bool → Prop
  | found (j : Nat) (lt : j < max) (fetched : Fetched M m va dst (j + 1) kernel kernel')
      (nul : kernel' (dst + j) = 0) (clean : ∀ i < j, kernel' (dst + i) ≠ 0) :
      Copied M m va dst max kernel kernel' true
  | missing (k : Nat) (reach : Reach M va max k) (fetched : Fetched M m va dst k kernel kernel')
      (clean : ∀ i < k, kernel' (dst + i) ≠ 0) : Copied M m va dst max kernel kernel' false

theorem Copied.add {max : Nat} {done : Bool} (le : n ≤ max)
    (fetched : Fetched M m va dst n kernel kernel') (clean : ∀ i < n, kernel' (dst + i) ≠ 0)
    (rest : Copied M m (va + n) (dst + n) (max - n) kernel' kernel'' done) :
    Copied M m va dst max kernel kernel'' done := by
  cases rest with
  | found j lt later nul clean' =>
    refine .found (n + j) (by omega) (fetched.add later) ?_ ?_
    · rwa [← Nat.add_assoc]
    · intro i small
      by_cases inFirst : i < n
      · rw [later.rest _ (.inl (by omega))]
        exact clean i inFirst
      · have there := clean' (i - n) (by omega)
        rwa [show dst + n + (i - n) = dst + i by omega] at there
  | missing k reach later clean' =>
    refine .missing (n + k) (reach.add le fun i lt => ?_) (fetched.add later) ?_
    · obtain ⟨a, isSome, -⟩ := fetched.byte i lt
      exact ⟨a, isSome⟩
    · intro i small
      by_cases inFirst : i < n
      · rw [later.rest _ (.inl (by omega))]
        exact clean i inFirst
      · have there := clean' (i - n) (by omega)
        rwa [show dst + n + (i - n) = dst + i by omega] at there

theorem copyinstr_zero (pagetable : Nat) :
    copyinstr pagetable dst va 0 m kernel = .ok (false, kernel) := by
  rw [copyinstr, dif_neg (Nat.lt_irrefl 0)]

theorem copyinstr_spec (space : Space kend m root M fs) (dst va max : Nat) (kernel : Bytes) :
    ∃ done kernel', copyinstr (root * pgsize) dst va max m kernel = .ok (done, kernel') ∧
      Copied M m va dst max kernel kernel' done := by
  induction max using Nat.strong_induction_on generalizing va dst kernel with
  | h max ih =>
  by_cases more : 0 < max
  · cases turn space va max with
    | denied none zero =>
      refine ⟨false, kernel, ?_, .missing 0 (.refused none) .none fun _ lt =>
        absurd lt (Nat.not_lt_zero _)⟩
      rw [copyinstr, dif_pos more]
      dsimp only
      rw [zero]
      rfl
    | page a pa0 found nonzero start bytes next =>
      have le := @chunk_le va max
      have turned : ∀ nul kernel₁, strLoop m.bytes (chunk va max) a dst kernel = (nul, kernel₁) →
          copyinstr (root * pgsize) dst va max m kernel =
            if nul then .ok (true, kernel₁)
            else copyinstr (root * pgsize) (dst + chunk va max) (nextPage va)
              (max - chunk va max) m kernel₁ := by
        intro nul kernel₁ eq
        rw [copyinstr, dif_pos more]
        dsimp only
        rw [found]
        dsimp only [bind, Except.bind]
        rw [if_neg nonzero, start, eq]
        cases nul <;> rfl
      cases first_nul m.bytes a (chunk va max) with
      | inr nul =>
        obtain ⟨j, lt, nul, clean⟩ := nul
        have ran := turned _ _ (strLoop_found lt nul clean)
        have fetched : Fetched M m va dst (j + 1) kernel
            (kernel.splice dst (j + 1) fun i => m.bytes (a + i)) :=
          Fetched.splice fun i small => bytes i (by omega)
        refine ⟨true, _, ran, .found j (by omega) fetched ?_ ?_⟩
        · exact (Bytes.splice_inside (Nat.lt_succ_self j)).trans nul
        · intro i small
          rw [Bytes.splice_inside (by omega)]
          exact clean i small
      | inl clean =>
        have turn := turned _ _ (strLoop_missing clean)
        have less : max - chunk va max < max := Nat.sub_lt more (chunk_pos more)
        obtain ⟨done, kernel', ran, rest⟩ := ih _ less (dst + chunk va max) (va + chunk va max)
          (kernel.splice dst (chunk va max) fun i => m.bytes (a + i))
        refine ⟨done, kernel', ?_, Copied.add le (Fetched.splice bytes) ?_ rest⟩
        · rw [turn, if_neg Bool.false_ne_true, ← ran]
          by_cases part : chunk va max < max
          · rw [next part]
          · rw [show max - chunk va max = 0 by omega, copyinstr_zero, copyinstr_zero]
        · intro i small
          rw [Bytes.splice_inside small]
          exact clean i small
  · obtain rfl : max = 0 := by omega
    exact ⟨false, kernel, copyinstr_zero _, .missing 0 .empty .none fun _ lt =>
      absurd lt (Nat.not_lt_zero _)⟩

/-! ## The two functions from outside -/

/-- The byte of an address that the process may use. -/
theorem Fetched.read (space : Space kend m root M fs)
    (fetched : Fetched M m va dst k kernel kernel') {i : Nat} (lt : i < k) :
    Usable m root ((va + i) % 2 ^ 64) ∧
      kernel' (dst + i) = m.bytes (physical m root ((va + i) % 2 ^ 64)) := by
  obtain ⟨a, isSome, eq⟩ := fetched.byte i lt
  obtain ⟨usable, rfl⟩ := space.address_iff.mp isSome
  rw [Nat.mod_eq_of_lt ((space.lt isSome).trans (by decide))]
  exact ⟨usable, eq⟩

theorem Fetched.outside {max : Nat} (le : k ≤ max)
    (fetched : Fetched M m va dst k kernel kernel') (out : j < dst ∨ dst + max ≤ j) :
    kernel' j = kernel j :=
  fetched.rest j (by omega)

/-- A string in the memory of the process, with its NUL at number `j`. -/
structure StringAt (m : Mem) (root va j : Nat) : Prop where
  usable : ∀ i ≤ j, Usable m root ((va + i) % 2 ^ 64)
  clean : ∀ i < j, m.bytes (physical m root ((va + i) % 2 ^ 64)) ≠ 0
  nul : m.bytes (physical m root ((va + j) % 2 ^ 64)) = 0

/-- A string has one end. -/
theorem StringAt.unique {j' : Nat} (string : StringAt m root va j)
    (string' : StringAt m root va j') : j = j' := by
  by_contra ne
  cases Nat.lt_or_gt_of_ne ne with
  | inl lt => exact string'.clean j lt string.nul
  | inr gt => exact string.clean j' gt string'.nul

theorem Copied.string {max : Nat} {done : Bool} (space : Space kend m root M fs)
    (small : va < 2 ^ 64) (copied : Copied M m va dst max kernel kernel' done) :
    (done = true ↔ ∃ j < max, StringAt m root va j) ∧
      ∀ j, done = true → StringAt m root va j → ∀ i ≤ j,
        kernel' (dst + i) = m.bytes (physical m root ((va + i) % 2 ^ 64)) := by
  cases copied with
  | found j lt fetched nul clean =>
    have string : StringAt m root va j := by
      refine ⟨fun i le => ?_, fun i less => ?_, ?_⟩
      · exact (fetched.read space (Nat.lt_succ_of_le le)).1
      · rw [← (fetched.read space (show i < j + 1 by omega)).2]
        exact clean i less
      · rw [← (fetched.read space (Nat.lt_succ_self j)).2]
        exact nul
    refine ⟨⟨fun _ => ⟨j, lt, string⟩, fun _ => rfl⟩, ?_⟩
    intro j' _ string' i le
    obtain rfl : j = j' := string.unique string'
    exact (fetched.read space (Nat.lt_succ_of_le le)).2
  | missing k reach fetched clean =>
    refine ⟨⟨fun no => absurd no Bool.false_ne_true, ?_⟩, fun _ no => absurd no Bool.false_ne_true⟩
    rintro ⟨j, lt, string⟩
    exfalso
    by_cases inside : j < k
    · apply clean j inside
      rw [(fetched.read space inside).2]
      exact string.nul
    · have usable : ∀ i < j + 1, Usable m root ((va + i) % 2 ^ 64) :=
        fun i less => string.usable i (Nat.le_of_lt_succ less)
      have there := (usable_range space small (j + 1)).mp usable k (by omega)
      obtain ⟨a, isSome⟩ := there
      rw [reach.stop (by omega)] at isSome
      cases isSome

/-- What the callers of `copyin` and `copyinstr` rely on. -/
structure Exact (m : Mem) (root : Nat) : Prop where
  copyin : ∀ dst srcva len kernel, srcva < 2 ^ 64 → ∃ done kernel',
    Copy.copyin (root * pgsize) dst srcva len m kernel = .ok (done, kernel') ∧
    (done = true ↔ ∀ i < len, Usable m root ((srcva + i) % 2 ^ 64)) ∧
    (done = true → ∀ i < len,
      kernel' (dst + i) = m.bytes (physical m root ((srcva + i) % 2 ^ 64))) ∧
    ∀ j, j < dst ∨ dst + len ≤ j → kernel' j = kernel j
  copyinstr : ∀ dst srcva max kernel, srcva < 2 ^ 64 → ∃ done kernel',
    Copy.copyinstr (root * pgsize) dst srcva max m kernel = .ok (done, kernel') ∧
    (done = true ↔ ∃ j < max, StringAt m root srcva j) ∧
    (∀ j, done = true → StringAt m root srcva j → ∀ i ≤ j,
      kernel' (dst + i) = m.bytes (physical m root ((srcva + i) % 2 ^ 64))) ∧
    ∀ j, j < dst ∨ dst + max ≤ j → kernel' j = kernel j

theorem copies_exact (space : Space kend m root M fs) : Exact m root where
  copyin dst srcva len kernel small := by
    obtain ⟨k, kernel', ran, reach, fetched⟩ := copyin_spec space dst srcva len kernel
    refine ⟨_, kernel', ran, ?_, ?_, fun j out => fetched.outside reach.le out⟩
    · rw [usable_range space small, decide_eq_true_iff]
      exact reach.all_iff
    · intro all i lt
      have whole : k = len := of_decide_eq_true all
      exact (fetched.read space (whole ▸ lt)).2
  copyinstr dst srcva max kernel small := by
    obtain ⟨done, kernel', ran, copied⟩ := copyinstr_spec space dst srcva max kernel
    obtain ⟨iff, bytes⟩ := copied.string space small
    refine ⟨done, kernel', ran, iff, bytes, fun j out => ?_⟩
    cases copied with
    | found k lt fetched nul clean => exact fetched.outside lt out
    | missing k reach fetched clean => exact fetched.outside reach.le out

theorem copies_exact_onePage : ∃ m, Exact m 0x80000 := by
  obtain ⟨m, fs, space⟩ := @onePage_space 22 (by decide) (by
    rw [mappages, mapLoop]
    decide +kernel)
  exact ⟨m, copies_exact space⟩

end Sistemas.Xv6.Vm.Copy
