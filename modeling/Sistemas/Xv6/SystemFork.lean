import Sistemas.Xv6.SystemIsolation

/-! # What `fork` leaves

A call of `fork` that fails has happened to nobody; one that does not has given the child the memory
of its parent, on pages that from then on each of the two writes alone.
-/

namespace Sistemas.Xv6.Calls.System

open Vm
open Uvm

variable {l : Layout} {tramp va : Nat} {fs gs : List Nat} {m : Mem} {s s' : State}
  {T : Fin nproc → Option Table} {t t' : Table} {p q np : Fin nproc} {boot : Nat → Prop}

/-! ## Stores -/

/-- A process does not see what another one writes. -/
theorem store_unseen (between : Between l tramp boot s) (ne : p ≠ q)
    (writer : (s.proc p).state ≠ .UNUSED) (reader : (s.proc q).state = .RUNNABLE)
    (va va' : Nat) (b : UInt8) :
    userLoad ((userStore s p va b).getD s) q va' = userLoad s q va' := by
  obtain ⟨T, fs, sound⟩ := between
  obtain ⟨outcome, -⟩ := userStore_spec sound writer va b
  have live : (s.proc q).state ≠ .UNUSED := by
    rw [reader]
    decide
  exact userLoad_untouched sound outcome.sound live (outcome.runs ne.symm reader)

/-! ## The pages of the child -/

/-- The pages of two processes are apart. -/
theorem pages_apart (sound : Sound l tramp boot s [] T fs) (ne : p ≠ q) (here : T p = some t)
    (here' : T q = some t') {v w : Nat} {page page' : Nat × Nat} (low : v < userPages)
    (low' : w < userPages) (mapped : t.map v = some page) (mapped' : t'.map w = some page') :
    page.1 ≠ page'.1 := by
  intro same
  have first : owns s.mem T (Rest boot s) (some p) page.1 :=
    owns_some here (.inr (Held.of_map low mapped))
  have second : owns s.mem T (Rest boot s) (some q) page'.1 :=
    owns_some here' (.inr (Held.of_map low' mapped'))
  rw [← same] at second
  exact ne (Option.some.inj (sound.spaces.part.once _ _ _ first second))

/-- Process `np` has the memory of `p` on pages of its own. -/
structure Isolated (l : Layout) (s s' : State) (p np : Fin nproc) : Prop where
  unused : (s.proc np).state = .UNUSED
  runs : (s'.proc np).state = .RUNNABLE
  parent : s'.proc p = s.proc p
  size : (s'.proc np).sz = (s.proc p).sz
  pages : ∀ v < pgRoundUp (s.proc p).sz / pgsize, ∃ f g flags,
    mapping s p v = some (f, flags) ∧ mapping s' p v = some (f, flags) ∧
    mapping s' np v = some (g, flags) ∧ f ≠ g ∧
    ∀ i < pgsize, s'.mem.bytes (f * pgsize + i) = s.mem.bytes (f * pgsize + i) ∧
      s'.mem.bytes (g * pgsize + i) = s.mem.bytes (f * pgsize + i)
  -- also in all states that come after
  stores : ∀ moves s₁, Transition.exec (step l) s' moves = some s₁ → ∀ writer reader,
    writer ≠ reader → (s₁.proc writer).state ≠ .UNUSED → (s₁.proc reader).state = .RUNNABLE →
    ∀ va va' b, userLoad ((userStore s₁ writer va b).getD s₁) reader va' = userLoad s₁ reader va'

theorem Child.isolated (sound : Sound l tramp boot s [] T fs) (here : T p = some t)
    (running : (s.proc p).state = .RUNNABLE) (child : Child l tramp boot T s p t s' np t' gs) :
    Isolated l s s' p np := by
  have ne : p ≠ np := by
    rintro rfl
    rw [child.unused] at running
    cases running
  have sound' := child.outcome.sound
  have parent : Function.update T np (some t') p = some t := by rw [Function.update_of_ne ne, here]
  have self : Function.update T np (some t') np = some t' := Function.update_self ..
  refine ⟨child.unused, by rw [child.proc], child.parent, by rw [child.proc], fun v lt => ?_,
    fun moves s₁ run writer reader other live ready va va' b => ?_⟩
  · rw [Sound.size_eq sound here] at lt
    obtain ⟨g, f, flags, mapped, mapped', same⟩ := child.pages v lt
    have low := lt.trans_le (sound.ok here).space.le
    refine ⟨f, g, flags, (congrFun (mapping_eq sound here) v).trans mapped,
      (congrFun (mapping_eq sound' parent) v).trans mapped,
      (congrFun (mapping_eq sound' self) v).trans mapped',
      pages_apart sound' ne parent self low low mapped mapped', fun i inside => ⟨?_, same i inside⟩⟩
    have kept := child.kept.keeps
    rw [here] at kept
    exact kept.byte (.inr (Held.of_map low mapped)) inside
  · exact store_unseen (run_sound ⟨_, gs, sound'⟩ run) other live ready va va' b

theorem fork_all_or_nothing (between : Between l tramp boot s)
    (running : (s.proc p).state = .RUNNABLE) :
    ∃ r s', Calls.fork l p s = .ok (r, s') ∧
      ((r = -1 ∧ ∃ fs gs, FreeList l.kend s.mem fs ∧ Undisturbed l s s' fs gs) ∨
        r = s.nextpid ∧ ∃ np, Isolated l s s' p np) := by
  obtain ⟨T, fs, sound⟩ := between
  obtain ⟨t, here, -⟩ := sound.live (p := p) (by rw [running]; decide)
  obtain ⟨r, s', ran, forked⟩ := fork_spec sound here running
  refine ⟨r, s', ran, ?_⟩
  cases forked with
  | failed outcome _ undisturbed => exact .inl ⟨rfl, fs, _, sound.spaces.free, undisturbed⟩
  | child child => exact .inr ⟨rfl, _, Child.isolated sound here running child⟩

theorem fork_all_or_nothing_first : ∃ s', Calls.fork onePageKernel firstSlot firstState =
      .ok (2, s') ∧ ∃ np, Isolated onePageKernel firstState s' firstSlot np := by
  obtain ⟨r, s', ran, forked⟩ :=
    fork_all_or_nothing firstState_reachable.between firstState_running
  have child : (Calls.fork onePageKernel firstSlot firstState).toOption.map (fun made => made.1) =
      some 2 := by
    decide +kernel
  rw [ran] at child
  obtain rfl : r = 2 := Option.some.inj child
  obtain ⟨failed, -⟩ | ⟨-, isolated⟩ := forked
  · cases failed
  · exact ⟨s', ran, isolated⟩

/-! ## The number -1 -/

/-- A slot for a process, and no page for it. -/
structure Cramped (s : State) (np : Fin nproc) : Prop where
  unused : ((List.finRange nproc).find? fun q => (s.proc q).state = .UNUSED) = some np
  bare : (s.proc np).pagetable = 0
  full : kalloc s.mem = none

/-- The slot is as `freeproc` leaves it, and `x` is the next number. -/
def numbered (s : State) (np : Fin nproc) (x : Int) : State :=
  { s.setProc np (s.proc np).reset with nextpid := x }

theorem numbered_self (s : State) (np : Fin nproc) (x : Int) :
    (numbered s np x).proc np = (s.proc np).reset := State.setProc_self ..

theorem numbered_other (x : Int) (ne : q ≠ np) : (numbered s np x).proc q = s.proc q :=
  State.setProc_other _ _ ne

/-- A call of `fork` that finds no page takes a number all the same. -/
theorem fork_cramped (cramped : Cramped s np) :
    Calls.fork l p s = .ok (-1, numbered s np (wrapInt (s.nextpid + 1))) := by
  rw [Calls.fork, allocproc, cramped.unused]
  have full : kalloc (s.allocpid np).mem = none := cramped.full
  have slot : (s.allocpid np).proc np = { s.proc np with pid := s.nextpid, state := .USED } :=
    State.setProc_self ..
  have freed : freeproc l np ((s.allocpid np).setProc np
      { (s.allocpid np).proc np with trapframe := 0 }) = .ok (numbered s np (wrapInt (s.nextpid + 1))) := by
    rw [freeproc, State.setProc_self, slot]
    simp only [freeTrapframe, freePagetable, cramped.bare, ne_eq, not_true_eq_false, if_false]
    simp only [bind, Except.bind, numbered, State.allocpid, State.setProc, State.setMem,
      Function.update_idem]
    rfl
  simp only [allocFound, full, freed]
  rfl

theorem Cramped.numbered (cramped : Cramped s np) (x : Int) : Cramped (numbered s np x) np := by
  refine ⟨?_, by rw [numbered_self]; rfl, cramped.full⟩
  rw [← cramped.unused]
  congr 1
  funext q
  by_cases here : q = np
  · have was : (s.proc np).state = .UNUSED := by simpa using List.find?_some cramped.unused
    rw [here, numbered_self, was]
    rfl
  · rw [numbered_other x here]

theorem numbered_numbered (s : State) (np : Fin nproc) (x y : Int) :
    numbered (numbered s np x) np y = numbered s np y := by
  have reset : (s.proc np).reset.reset = (s.proc np).reset := rfl
  rw [numbered, numbered_self, reset]
  simp only [numbered, State.setProc, Function.update_idem]

/-- So do many of them. -/
theorem forks_cramped (cramped : Cramped s np) (running : (s.proc p).state = .RUNNABLE) (k : Nat) :
    Transition.exec (step l) s (List.replicate (k + 1) (p, .fork)) =
      some (numbered s np (wrapInt (s.nextpid + (k + 1)))) := by
  have one {s : State} (cramped : Cramped s np) (running : (s.proc p).state = .RUNNABLE) :
      step l s (p, .fork) = some (numbered s np (wrapInt (s.nextpid + 1))) := by
    rw [step, if_pos running, call, fork_cramped cramped]
    rfl
  induction k generalizing s with
  | zero =>
    rw [List.replicate_one, Transition.exec_cons_eq_some]
    exact ⟨_, one cramped running, by simp⟩
  | succ k ih =>
    have ne : p ≠ np := by
      rintro rfl
      cases running.symm.trans (by simpa using List.find?_some cramped.unused)
    have number : wrapInt (wrapInt (s.nextpid + 1) + (k + 1)) =
        wrapInt (s.nextpid + ((k + 1 : Nat) + 1)) := by
      unfold wrapInt
      omega
    rw [List.replicate_succ, Transition.exec_cons_eq_some]
    refine ⟨_, one cramped running, ?_⟩
    rw [ih (cramped.numbered _) (by rwa [numbered_other _ ne]), numbered_numbered, ← number]
    rfl

/-- What `sbrk` makes of a state. -/
def afterSbrk (n : Int) (s : State) : State :=
  ((Calls.sysSbrk onePageKernel firstSlot n s).toOption.map Prod.snd).getD s

theorem step_sbrk (reach : Reachable onePageKernel sixteenPages s)
    (running : (s.proc firstSlot).state = .RUNNABLE) (n : Int) :
    step onePageKernel s (firstSlot, .sbrk n) = some (afterSbrk n s) := by
  obtain ⟨newsz, s', ran, -⟩ := sbrk_resizes reach.between running n
  rw [step, if_pos running, call, afterSbrk, ran]
  rfl

/-- The first process has all the memory. -/
def crampedState : State := afterSbrk (9 * 4096) firstState

theorem crampedState_running : (crampedState.proc firstSlot).state = .RUNNABLE ∧
    crampedState.nextpid = 2 := by
  decide +kernel

theorem crampedState_cramped : Cramped crampedState secondSlot where
  unused := by decide +kernel
  bare := by decide +kernel
  full := by
    have full : crampedState.mem.freelist = 0 := by decide +kernel
    rw [kalloc, if_pos full]

theorem crampedState_reachable : Reachable onePageKernel sixteenPages crampedState := by
  refine @Reachable.run _ _ _ _ [(firstSlot, .sbrk (9 * 4096))] firstState_reachable ?_
  rw [Transition.exec, step_sbrk firstState_reachable firstState_running]
  rfl

/-- All but one of the calls that fail until the next number is -1. -/
def failures : Nat := 2 ^ 32 - 4

/-- The first process has given the memory back then. -/
def lastState : State := afterSbrk (-9 * 4096) (numbered crampedState secondSlot (-1))

theorem lastState_reachable : Reachable onePageKernel sixteenPages lastState := by
  have number : wrapInt (2 + (failures + 1)) = -1 := by decide
  have failed := forks_cramped (l := onePageKernel) crampedState_cramped crampedState_running.1
    failures
  rw [crampedState_running.2, number] at failed
  have reach := crampedState_reachable.run failed
  refine @Reachable.run _ _ _ _ [(firstSlot, .sbrk (-9 * 4096))] reach ?_
  rw [Transition.exec, step_sbrk reach]
  · rfl
  · rw [numbered_other _ (by decide)]
    exact crampedState_running.1

theorem lastState_slots : (lastState.proc firstSlot).state = .RUNNABLE ∧
    (lastState.proc secondSlot).state = .UNUSED := by
  decide +kernel

theorem lastState_forks : (Calls.fork onePageKernel firstSlot lastState).toOption.map
    (fun made => (made.1, (made.2.proc secondSlot).state)) = some (-1, .RUNNABLE) := by
  decide +kernel

/-- The child gets the number -1. -/
theorem fork_numbers_wrap : ∃ s, Reachable onePageKernel sixteenPages s ∧
    (s.proc firstSlot).state = .RUNNABLE ∧ (s.proc secondSlot).state = .UNUSED ∧
    ∃ s', Calls.fork onePageKernel firstSlot s = .ok (-1, s') ∧
      (s'.proc secondSlot).state = .RUNNABLE := by
  refine ⟨lastState, lastState_reachable, lastState_slots.1, lastState_slots.2, ?_⟩
  have after := lastState_forks
  cases ran : Calls.fork onePageKernel firstSlot lastState with
  | error e =>
    rw [ran] at after
    cases after
  | ok made =>
    rw [ran] at after
    obtain ⟨number, state⟩ := Prod.mk.inj (Option.some.inj after)
    refine ⟨made.2, ?_, state⟩
    rw [← number]

end Sistemas.Xv6.Calls.System
