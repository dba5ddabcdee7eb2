import Sistemas.Xv6.SystemSpaces

/-! # The memory of one process and the calls of the others

What a process finds in its memory depends on its own moves alone, and `sbrk` is what it says of the
sizes: the bytes that stay are as they were, and those that are new are zero.
-/

namespace Sistemas.Xv6.Calls.System

open Vm
open Uvm

variable {l : Layout} {tramp va n : Nat} {fs gs : List Nat} {m m' : Mem} {M M' : Map}
  {s s' : State} {T : Fin nproc → Option Table} {t : Table} {p q : Fin nproc} {boot : Nat → Prop}
  {move : Fin nproc × Call} {moves : List (Fin nproc × Call)}

/-! ## The calls of others -/

/-- Only the parent of process `q` may be another one. -/
structure Private (s s' : State) (q : Fin nproc) : Prop where
  proc : s'.proc q = { s.proc q with parent := (s'.proc q).parent }
  mapped : mapping s' q = mapping s q
  reads : ∀ va, userLoad s' q va = userLoad s q va

theorem Private.refl (s : State) (q : Fin nproc) : Private s s q := ⟨rfl, rfl, fun _ => rfl⟩

theorem Private.trans {s'' : State} (first : Private s s' q) (second : Private s' s'' q) :
    Private s s'' q where
  proc := by
    rw [second.proc, first.proc]
  mapped := second.mapped.trans first.mapped
  reads va := (second.reads va).trans (first.reads va)

theorem Outcome.priv {T' : Fin nproc → Option Table} (sound : Sound l tramp boot s [] T fs)
    (outcome : Outcome l tramp boot T s p s' T' gs) (ne : q ≠ p)
    (running : (s.proc q).state = .RUNNABLE) : Private s s' q := by
  have untouched := outcome.runs ne running
  have live : (s.proc q).state ≠ .UNUSED := by
    rw [running]
    decide
  obtain ⟨t, here, -⟩ := sound.live live
  refine ⟨untouched.proc, ?_, fun va => userLoad_untouched sound outcome.sound live untouched⟩
  rw [mapping_eq sound here, mapping_eq outcome.sound (untouched.table.trans here)]

theorem step_private (between : Between l tramp boot s) (stepped : step l s move = some s')
    (other : move.1 ≠ q) (running : (s.proc q).state = .RUNNABLE) : Private s s' q := by
  obtain ⟨T, fs, sound⟩ := between
  obtain ⟨-, T', gs, outcome, -⟩ := step_sound sound stepped
  exact Outcome.priv sound outcome other.symm running

theorem memory_private (between : Between l tramp boot s)
    (run : Transition.exec (step l) s moves = some s') (others : ∀ move ∈ moves, move.1 ≠ q)
    (running : (s.proc q).state = .RUNNABLE) : Private s s' q := by
  induction moves generalizing s with
  | nil =>
    cases run
    exact .refl _ q
  | cons move moves ih =>
    obtain ⟨s₁, stepped, rest⟩ := Transition.exec_cons_eq_some.mp run
    have first := step_private between stepped (others move List.mem_cons_self) running
    have between₁ := step_between between stepped
    have running₁ : (s₁.proc q).state = .RUNNABLE := by rw [first.proc, running]
    exact first.trans (ih between₁ rest
      (fun move mem => others move (List.mem_cons_of_mem _ mem)) running₁)

/-- The first process has called `fork`. -/
def forkedState : State :=
  ((Calls.fork onePageKernel firstSlot firstState).toOption.map Prod.snd).getD firstState

theorem forkedState_running : (forkedState.proc firstSlot).state = .RUNNABLE ∧
    (forkedState.proc secondSlot).state = .RUNNABLE := by
  decide +kernel

theorem forkedState_between : Between onePageKernel (trampPage onePageKernel)
    (BootPage onePageKernel sixteenPages) forkedState := by
  obtain ⟨T, fs, sound⟩ := firstState_reachable.between
  obtain ⟨t, here, -⟩ := sound.live (p := firstSlot) (by rw [firstState_running]; decide)
  obtain ⟨r, s', ran, forked⟩ := fork_spec sound here firstState_running
  rw [forkedState, ran]
  cases forked with
  | failed outcome => exact ⟨_, _, outcome.sound⟩
  | child child => exact ⟨_, _, child.outcome.sound⟩

theorem memory_private_first : Private forkedState
    ((userStore forkedState secondSlot 0 7).getD forkedState) firstSlot := by
  have run : Transition.exec (step onePageKernel) forkedState [(secondSlot, .store 0 7)] =
      some ((userStore forkedState secondSlot 0 7).getD forkedState) := by
    rw [Transition.exec, step, if_pos forkedState_running.2]
    rfl
  refine memory_private forkedState_between run (fun move mem => ?_) forkedState_running.1
  rw [List.mem_singleton.mp mem]
  decide

/-! ## Stores -/

/-- Two addresses of a process are two places. -/
theorem place_once {kend : Nat} {perm perm' a va' : Nat} (ok : t.Ok kend tramp m fs)
    (there : place t.map va perm = some a) (there' : place t.map va' perm' = some a) :
    va = va' := by
  obtain ⟨page, mapped, isUser, eq⟩ := place_page there
  obtain ⟨page', mapped', -, eq'⟩ := place_page there'
  have pos : 0 < pgsize := by decide
  have first : a / pgsize = page.1 := by
    rw [eq]
    exact Bytes.page_of (Nat.mod_lt va pos)
  have second : a / pgsize = page'.1 := by
    rw [eq']
    exact Bytes.page_of (Nat.mod_lt va' pos)
  have frame := first.symm.trans second
  have offset : va % pgsize = va' % pgsize := by
    rw [frame] at eq
    omega
  have number := ok.space.once _ _ _ _ (Exec.ProcSpace.user_low ok mapped isUser) mapped mapped'
    frame
  rw [← Nat.div_add_mod va pgsize, number, offset, Nat.div_add_mod]

theorem place_same {perm perm' a a' : Nat} (there : place M va perm = some a)
    (there' : place M va perm' = some a') : a = a' := by
  obtain ⟨page, mapped, -, eq⟩ := place_page there
  obtain ⟨page', mapped', -, eq'⟩ := place_page there'
  obtain rfl : page = page' := Option.some.inj (mapped.symm.trans mapped')
  rw [eq, eq']

theorem store_read_back (between : Between l tramp boot s) (live : (s.proc p).state ≠ .UNUSED)
    {b : UInt8} (stored : userStore s p va b = some s') (va' : Nat) :
    userLoad s' p va' =
      if va' = va then (userLoad s p va).map fun _ => b else userLoad s p va' := by
  obtain ⟨T, fs, sound⟩ := between
  obtain ⟨t, here, -⟩ := sound.live live
  obtain ⟨outcome, -⟩ := userStore_spec sound live va b
  rw [stored, Option.getD_some] at outcome
  rw [userStore, sound_translate sound here (by decide)] at stored
  obtain ⟨a, there, eq⟩ := Option.map_eq_some_iff.mp stored
  have bytes : s'.mem.bytes = Function.update s.mem.bytes a b := by rw [← eq]; rfl
  simp only [userLoad, loadByte, sound_translate outcome.sound here (by decide : 1 < 10),
    sound_translate sound here (by decide : 1 < 10), bytes]
  by_cases same : va' = va
  · rw [if_pos same, same]
    cases read : place t.map va 1 with
    | none => rfl
    | some c =>
      rw [place_same there read]
      exact congrArg some (Function.update_self ..)
  · rw [if_neg same]
    cases read : place t.map va' 1 with
    | none => rfl
    | some c =>
      refine congrArg some (Function.update_of_ne ?_ ..)
      rintro rfl
      exact same (place_once (sound.ok here) read there)

theorem store_read_back_first : ∃ s', userStore firstState firstSlot 0 7 = some s' ∧
    userLoad s' firstSlot 0 = (userLoad firstState firstSlot 0).map fun _ => 7 := by
  have writes : (userStore firstState firstSlot 0 7).isSome := by decide +kernel
  obtain ⟨s', stored⟩ := Option.isSome_iff_exists.mp writes
  have live : (firstState.proc firstSlot).state ≠ .UNUSED := by
    rw [firstState_running]
    decide
  have read := store_read_back firstState_reachable.between live stored 0
  rw [if_pos rfl] at read
  exact ⟨s', stored, read⟩

/-! ## `sbrk` -/

theorem below_pgRoundUp {sz : Nat} (small : pagesOf sz ≤ 32768) :
    va < pgRoundUp sz ↔ va / pgsize < pagesOf sz := by
  have le := @le_pagesOf sz
  rw [pgRoundUp_eq, Nat.div_lt_iff_lt_mul (by decide)]
  unfold pgsize at *
  omega

theorem loadByte_eq {kend : Nat} {root : Nat} (rep : Represents kend m root M fs) :
    loadByte (root * pgsize) va m = (place M va 1).map m.bytes := by
  rw [loadByte, translate_eq rep (by decide)]

/-- A page that has not been mapped anew. -/
theorem read_old {kend root : Nat} (rep : Represents kend m root M fs)
    (rep' : Represents kend m' root M' gs) (change : Change m m' root M M' fs gs)
    (low : va / pgsize < userPages) (same : M' (va / pgsize) = M (va / pgsize)) :
    loadByte (root * pgsize) va m' = loadByte (root * pgsize) va m := by
  rw [loadByte_eq rep, loadByte_eq rep', place, place, same]
  cases mapped : M (va / pgsize) with
  | none => rfl
  | some page =>
    rw [Option.bind_some]
    split
    · have kept := change.data _ page low mapped (same.trans mapped)
      exact congrArg some (kept.byte rfl (Nat.mod_lt va (by decide)))
    · rfl

/-- A new page is zero. -/
theorem read_new {kend root : Nat} (rep' : Represents kend m' root M' gs)
    (zero : Zero m' M' (va / pgsize)) : loadByte (root * pgsize) va m' = some 0 := by
  obtain ⟨f, mapped, zero⟩ := zero
  have flags : (pteR ||| pteU ||| pteW ||| pteV).testBit 4 = true ∧
      (pteR ||| pteU ||| pteW ||| pteV).testBit 1 = true := by decide
  rw [loadByte_eq rep', place, mapped, Option.bind_some, if_pos flags]
  exact congrArg some (zero _ (Nat.mod_lt va (by decide)))

theorem sbrk_resizes (between : Between l tramp boot s) (running : (s.proc p).state = .RUNNABLE)
    (k : Int) :
    ∃ newsz s', Calls.sysSbrk l p k s =
        .ok (if newsz = none then -1 else ((s.proc p).sz : Int), s') ∧
      (∃ grants, newsz = Vm.growproc grants k (s.proc p).sz) ∧
      s'.proc p = { s.proc p with sz := newsz.getD (s.proc p).sz } ∧
      (∀ va, va < pgRoundUp (s.proc p).sz → va < pgRoundUp (s'.proc p).sz →
        userLoad s' p va = userLoad s p va) ∧
      ∀ va, pgRoundUp (s.proc p).sz ≤ va → va < pgRoundUp (s'.proc p).sz →
        userLoad s' p va = some 0 := by
  obtain ⟨T, fs, sound⟩ := between
  obtain ⟨t, here, holds⟩ := sound.live (p := p) (by rw [running]; decide)
  obtain ⟨r, s', T', gs, newsz, ran, outcome, sbrked⟩ := sysSbrk_spec sound here running k
  have ok := sound.ok here
  have small : pagesOf (s.proc p).sz ≤ 32768 := holds.size ▸ ok.space.small
  have root : (s'.proc p).pagetable = t.root * pgsize := by rw [sbrked.proc, holds.pagetable]
  have result := sbrked.result
  refine ⟨newsz, s', result ▸ ran, sbrked.sizes.imp fun _ both => both.1, sbrked.proc, ?_⟩
  have size : (s'.proc p).sz = newsz.getD (s.proc p).sz := by rw [sbrked.proc]
  rw [size]
  have grew := sbrked.grew
  cases grew with
  | failed space change =>
    refine ⟨fun va lt _ => ?_, fun va ge lt => absurd lt (Nat.not_lt.mpr ge)⟩
    rw [below_pgRoundUp small] at lt
    rw [userLoad, userLoad, root, holds.pagetable]
    exact read_old ok.space.rep space.space.rep change
      (lt.trans_le (holds.size ▸ ok.space.le)) rfl
  | done space change old new =>
    have small' := space.space.small
    dsimp only [Option.getD_some]
    refine ⟨fun va lt lt' => ?_, fun va ge lt => ?_⟩
    · rw [below_pgRoundUp small] at lt
      rw [below_pgRoundUp small'] at lt'
      rw [userLoad, userLoad, root, holds.pagetable]
      exact read_old ok.space.rep space.space.rep change
        (lt.trans_le (holds.size ▸ ok.space.le)) (old _ lt lt')
    · rw [← Nat.not_lt, below_pgRoundUp small, Nat.not_lt] at ge
      rw [below_pgRoundUp small'] at lt
      rw [userLoad, root]
      exact read_new space.space.rep (new _ ge lt)

theorem first_sbrk : (Calls.sysSbrk onePageKernel firstSlot 1 firstState).toOption.map
    (fun done => (done.1, (done.2.proc firstSlot).sz)) = some (4096, 4097) := by
  decide +kernel

theorem firstState_size : (firstState.proc firstSlot).sz = 4096 := by decide +kernel

/-- The first process gets one byte more, and a page for it. -/
theorem sbrk_resizes_first : ∃ s' : State,
    Calls.sysSbrk onePageKernel firstSlot 1 firstState = .ok (4096, s') ∧
    (s'.proc firstSlot).sz = 4097 ∧
    ∀ va, 4096 ≤ va → va < 8192 → userLoad s' firstSlot va = some 0 := by
  obtain ⟨newsz, s', ran, -, -, -, new⟩ :=
    sbrk_resizes firstState_reachable.between firstState_running 1
  have grows := first_sbrk
  rw [ran] at grows
  obtain ⟨result, size⟩ := Prod.mk.inj (Option.some.inj grows)
  dsimp only at result size
  rw [result] at ran
  rw [firstState_size, size] at new
  exact ⟨s', ran, size, new⟩

end Sistemas.Xv6.Calls.System
