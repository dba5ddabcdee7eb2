import Sistemas.Xv6.UvmProc

/-! # Copying a process

What is done to one page table leaves the others as they are (`Space.others`).  `uvmcopy` gives the
child pages of its own with the same bytes, or undoes what it did.
-/

namespace Sistemas.Xv6.Uvm

open Vm

variable {kend root old new f v k n : Nat} {fs gs hs : List Nat} {m m' m'' : Mem} {M M' N N' : Map}

/-! ## Two page tables -/

/-- The pages of the table and all that it maps. -/
def Uses (m : Mem) (root : Nat) (M : Map) (f : Nat) : Prop :=
  IsTable m root f ∨ ∃ v page, M v = some page ∧ page.1 = f

theorem Held.uses (held : Held m root M f) : Uses m root M f := by
  cases held with
  | inl table => exact .inl table
  | inr mapped =>
    obtain ⟨v, page, -, mapped, rfl⟩ := mapped
    exact .inr ⟨v, page, mapped, rfl⟩

/-- The pages of one table are not used by the other. -/
def Apart (m : Mem) (root : Nat) (M : Map) (other : Nat) (N : Map) : Prop :=
  ∀ f, Uses m root M f → ¬ Held m other N f

theorem Space.not_free_uses (space : Space kend m root M n fs) (uses : Uses m root M f) :
    f ∉ fs := by
  cases uses with
  | inl table => exact space.rep.tree.notFree f table
  | inr mapped =>
    obtain ⟨v, page, mapped, rfl⟩ := mapped
    exact (space.rep.page v page mapped).2.1

/-- What a table uses if its pages are kept. -/
structure Unchanged (m m' : Mem) (root : Nat) (M : Map) : Prop where
  uses : ∀ f, Uses m' root M f ↔ Uses m root M f
  held : ∀ f, Held m' root M f ↔ Held m root M f
  keeps : m.bytes.Keeps pgsize (Uses m root M) m'.bytes

/-- Pages that the table does not use are written, freed or taken. -/
theorem Space.unchanged (space : Space kend m root M n fs) (free : FreeList kend m' gs)
    (keeps : m.bytes.Keeps pgsize (Uses m root M) m'.bytes)
    (notFree : ∀ f, Uses m root M f → f ∉ gs) :
    Space kend m' root M n gs ∧ Unchanged m m' root M := by
  obtain ⟨space', tables, -⟩ := space.elsewhere free (keeps.mono fun f table => .inl table)
    (fun f table => notFree f (.inl table))
    fun v page mapped => notFree _ (.inr ⟨v, page, mapped, rfl⟩)
  exact ⟨space', fun f => or_congr_left (tables f), fun f => or_congr_left (tables f), keeps⟩

/-- A change of one table leaves another as it is. -/
theorem Space.others (space : Space kend m root M n fs) (change : Change m m' new N N' fs gs)
    (free : FreeList kend m' gs) (apart : Apart m root M new N) :
    Space kend m' root M n gs ∧ Unchanged m m' root M ∧ Apart m' root M new N' := by
  have outside : ∀ f, Uses m root M f → ¬ (f ∈ fs ∨ Held m new N f) := fun f uses both =>
    both.elim (space.not_free_uses uses) (apart f uses)
  obtain ⟨space', unchanged⟩ := space.unchanged free
    (change.keeps.mono fun f uses => not_or.mp (outside f uses))
    fun f uses mem => outside f uses ((change.pages f).mp (.inl mem))
  refine ⟨space', unchanged, fun f uses held => ?_⟩
  exact outside f ((unchanged.uses f).mp uses) ((change.pages f).mp (.inr held))

/-! ## `uvmcopy` -/

/-- Page `v` has a copy with the same flags. -/
def PageCopied (m m' : Mem) (M N : Map) (v : Nat) : Prop :=
  ∃ f g flags, M v = some (g, flags) ∧ N v = some (f, flags) ∧
    ∀ i < pgsize, m'.bytes (f * pgsize + i) = m.bytes (g * pgsize + i)

/-- What the loop does from page `k` on. -/
inductive Copied (kend : Nat) (m m' : Mem) (new : Nat) (M N : Map) (k n : Nat) (fs : List Nat) :
    Bool → Prop
  | copied {N' : Map} {gs : List Nat} (space : Space kend m' new N' n gs)
      (change : Change m m' new N N' fs gs) (rest : ∀ v, ¬ (k ≤ v ∧ v < n) → N' v = N v)
      (pages : ∀ v, k ≤ v → v < n → PageCopied m m' M N' v) : Copied kend m m' new M N k n fs true
  | failed {gs : List Nat} (space : Space kend m' new (N.unmap 0 k) 0 gs)
      (change : Change m m' new N (N.unmap 0 k) fs gs) : Copied kend m m' new M N k n fs false

theorem flags_valid {pte : Nat} (isValid : valid pte = true) :
    pteFlags pte ||| pteV = pteFlags pte := by
  apply Nat.eq_of_testBit_eq
  intro i
  rw [Nat.testBit_or]
  cases i with
  | zero =>
    have bit : (pteFlags pte).testBit 0 = true := by
      rw [flags_testBit (by decide)]
      exact isValid
    rw [bit, Bool.true_or]
  | succ i =>
    have unset : pteV.testBit (i + 1) = false := by
      rw [show pteV = 1 from rfl, Nat.testBit_succ]
      exact Nat.zero_testBit i
    rw [unset, Bool.or_false]

/-- The entry that the loop finds. -/
theorem Space.walk (space : Space kend m root M n fs) (lt : v < n) :
    ∃ pte g flags, Vm.walk (root * pgsize) (v * pgsize) false m = .ok (some pte, m) ∧
      valid (m.load pte) = true ∧ M v = some (g, flags) ∧ pte2pa (m.load pte) = g * pgsize ∧
      pteFlags (m.load pte) = flags ∧ flags < 1024 ∧ flags ||| pteV = flags := by
  obtain ⟨page, mapped⟩ := space.mapped lt
  obtain ⟨isValid, frame, flags⟩ := space.pte mapped
  have low : v * pgsize < maxva := user_page (space.rep.user v page mapped)
  cases here : tableAt m root 2 (v / 512) with
  | none =>
    rw [pteOf_missing here] at isValid
    cases isValid
  | some g =>
    refine ⟨g * pgsize + 8 * (v % 512), page.1, page.2, ?_, ?_, mapped, ?_, ?_, ?_, ?_⟩
    · rw [walk_page space.rep.tree low, here]
      rfl
    · rwa [load_pte here]
    · have small := (space.rep.page v page mapped).1
      rw [load_pte here, pte2pa_eq (frame ▸ small), frame]
    · rw [load_pte here, flags]
    · exact flags ▸ Nat.mod_lt _ (by decide)
    · rw [← flags, flags_valid isValid]

/-- The pages that were mapped so far are given back. -/
theorem Space.copyErr (space : Space kend m new N k fs) :
    ∃ m' gs, Uvm.copyErr kend (new * pgsize) (k * pgsize) m = .ok (false, m') ∧
      Space kend m' new (N.unmap 0 k) 0 gs ∧ Change m m' new N (N.unmap 0 k) fs gs := by
  obtain ⟨m', gs, ran, space', change⟩ := space.unmap (Nat.zero_le k)
  rw [Nat.zero_mul, Nat.sub_zero] at ran
  refine ⟨m', gs, ?_, space', change⟩
  rw [Uvm.copyErr, Nat.mul_div_cancel _ (by decide), ran]
  rfl

/-- One page more in front of what the loop does. -/
theorem Copied.step {m₁ : Mem} {flags g : Nat} {done : Bool} (lt : k < n)
    (unset : N k = none) (low : k < userPages) (from_ : M k = some (g, flags))
    (change : Change m m₁ new N (Function.update N k (some (f, flags))) fs gs)
    (bytes : ∀ i < pgsize, m₁.bytes (f * pgsize + i) = m.bytes (g * pgsize + i))
    (keeps : ∀ v page, M v = some page → m.bytes.Keeps pgsize (· = page.1) m₁.bytes)
    (rest : Copied kend m₁ m' new M (Function.update N k (some (f, flags))) (k + 1) n gs done) :
    Copied kend m m' new M N k n fs done := by
  have between : ∀ v page, N v = some page →
      Function.update N k (some (f, flags)) v = some page := by
    intro v page mapped
    rw [Function.update_of_ne, mapped]
    rintro rfl
    rw [unset] at mapped
    cases mapped
  cases rest with
  | @copied N' hs space change' others pages =>
    have here : N' k = some (f, flags) := by
      rw [others k (by omega), Function.update_self]
    refine .copied space (change.trans change' fun v page _ mapped _ => between v page mapped)
      (fun v out => ?_) fun v ge small => ?_
    · rw [others v (by omega), Function.update_of_ne (by omega)]
    · by_cases first : v = k
      · subst first
        refine ⟨f, g, flags, from_, here, fun i inside => ?_⟩
        have kept := change'.data v _ low (Function.update_self ..) here
        rw [kept.byte rfl inside, bytes i inside]
      · obtain ⟨f', g', flags', mapped, mapped', same⟩ := pages v (by omega) small
        refine ⟨f', g', flags', mapped, mapped', fun i inside => ?_⟩
        rw [same i inside, (keeps v _ mapped).byte rfl inside]
  | failed space change' =>
    have undone : Map.unmap (Function.update N k (some (f, flags))) 0 (k + 1) = N.unmap 0 k :=
      Space.unmap_update unset (Nat.zero_le k)
    rw [undone] at space change'
    exact .failed space (change.trans change' fun v page _ mapped _ => between v page mapped)

theorem keeps_copyPage (m : Mem) (f src : Nat) :
    m.bytes.Keeps pgsize (· ≠ f) (copyPage m (f * pgsize) src).bytes :=
  @Bytes.keeps_splice m.bytes (fun i => m.bytes (src + i)) pgsize f _ _ le_rfl
    (Nat.succ_mul f pgsize).ge

theorem copyLoop_spec {sz : Nat} (parent : Space kend m old M n fs)
    (child : Space kend m new N k fs) (apart : Apart m old M new N) (size : pagesOf sz = n)
    (le : k ≤ n) :
    ∃ done m', copyLoop kend (old * pgsize) (new * pgsize) sz (k * pgsize) m = .ok (done, m') ∧
      Copied kend m m' new M N k n fs done := by
  induction left : n - k generalizing k m N fs with
  | zero =>
    obtain rfl : k = n := by omega
    refine ⟨true, m, ?_, .copied child (.refl _ _ _ _) (fun _ _ => rfl) fun v ge lt => by omega⟩
    rw [copyLoop, dif_neg]
    rw [lt_page_iff, size]
    exact lt_irrefl k
  | succ left ih =>
    have lt : k < n := by omega
    have more : k * pgsize < sz := lt_page_iff.mpr (size ▸ lt)
    obtain ⟨pte, g, flags, walked, isValid, mapped, pa, flagsEq, small, or⟩ := parent.walk lt
    have usesG : Uses m old M g := .inr ⟨k, _, mapped, rfl⟩
    rw [copyLoop, dif_pos more, walked]
    dsimp only [lift, Except.mapError, bind, Except.bind]
    rw [isValid, if_neg (by decide), flagsEq, pa]
    cases fs with
    | nil =>
      rw [kalloc_nil child.free]
      obtain ⟨m', gs, ran, space, change⟩ := child.copyErr
      exact ⟨false, m', ran, .failed space change⟩
    | cons f fs =>
      obtain ⟨m₁, found, keeps₁, mapping⟩ := child.allocPage small (by
        rw [or]
        exact parent.leaf k _ mapped)
      obtain ⟨done, m₂, gs, ran, isDone, notDone⟩ := mapping (copyPage m₁ (f * pgsize) (g * pgsize))
        rfl (keeps_copyPage m₁ f _)
      rw [found]
      dsimp only
      rw [ran]
      cases done with
      | false =>
        obtain ⟨-, m₃, freed, space, change⟩ := notDone rfl
        obtain ⟨m', hs, gone, space', change'⟩ := space.copyErr
        dsimp only
        rw [freed]
        exact ⟨false, m', gone, .failed space'
          (change.trans change' fun v page _ mapped _ => mapped)⟩
      | true =>
        obtain ⟨space, change, keeps₂, -⟩ := isDone rfl
        rw [or] at space change
        obtain ⟨parent', unchanged, apart'⟩ := parent.others change space.free apart
        obtain ⟨done, m', later, copied⟩ := ih parent' space apart' (by omega) (by omega)
        rw [Nat.succ_mul] at later
        refine ⟨done, m', later, copied.step lt child.unset_next child.lt_userPages mapped
          change ?_ ?_⟩
        · intro i inside
          rw [keeps₂.byte rfl inside, copyPage]
          dsimp only
          rw [Bytes.splice_inside inside, keeps₁.byte _ inside]
          rintro rfl
          exact parent.not_free_uses usesG List.mem_cons_self
        · intro v page there
          apply unchanged.keeps.mono
          rintro g' rfl
          exact .inr ⟨v, page, there, rfl⟩

/-- The child has all of the memory, or none. -/
inductive Forked (kend : Nat) (m m' : Mem) (new : Nat) (M N : Map) (n : Nat) (fs : List Nat) :
    Bool → Prop
  | copied {N' : Map} {gs : List Nat} (space : Space kend m' new N' n gs)
      (change : Change m m' new N N' fs gs) (rest : ∀ v, n ≤ v → N' v = N v)
      (pages : ∀ v < n, PageCopied m m' M N' v) : Forked kend m m' new M N n fs true
  | failed {gs : List Nat} (space : Space kend m' new N 0 gs)
      (change : Change m m' new N N fs gs) : Forked kend m m' new M N n fs false

theorem uvmcopy_spec {sz : Nat} (parent : Space kend m old M n fs)
    (child : Space kend m new N 0 fs) (apart : Apart m old M new N) (size : pagesOf sz = n) :
    ∃ done m', uvmcopy kend (old * pgsize) (new * pgsize) sz m = .ok (done, m') ∧
      Forked kend m m' new M N n fs done := by
  obtain ⟨done, m', ran, copied⟩ := copyLoop_spec parent child apart size (Nat.zero_le n)
  rw [Nat.zero_mul] at ran
  refine ⟨done, m', ran, ?_⟩
  cases copied with
  | copied space change rest pages =>
    exact .copied space change (fun v ge => rest v (by omega)) fun v lt => pages v (by omega) lt
  | failed space change =>
    rw [unmap_zero] at space change
    exact .failed space change

end Sistemas.Xv6.Uvm
