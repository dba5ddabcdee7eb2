import Sistemas.Xv6.FileTableSteps

/-! # Runs of the file table

Every move keeps the invariant, and the pages that are taken and given back are those on which
there is a pipe.
-/

namespace Sistemas.Xv6.FileTable

open Sysfile (nfile nofile nproc)
open Sistemas.Transition

variable {s s' : State} {p q np : Fin nproc} {f : Fin nfile} {fd : Fin nofile} {i : Nat}
  {next : Next}

/-! ## Moves -/

theorem argfd_some {ofile : Fin nofile → Option (Fin nfile)} {n : Int}
    (found : argfd ofile n = some (fd, f)) : ofile fd = some f := by
  unfold argfd at found
  split at found
  next => cases found
  next =>
    simp only [Option.map_eq_some_iff, Prod.mk.injEq] at found
    obtain ⟨f', slot, rfl, rfl⟩ := found
    exact slot

/-- A process that is between two calls. -/
theorem user_holds {proc : Proc} (user : proc.pc = .user) (g : Fin nfile) :
    proc.holds g = slots proc.ofile g := by
  simp [Proc.holds, Proc.backed, user, Pc.unbacked, Pc.loose]

/-- A call that begins, and takes or gives up nothing. -/
theorem Inv.begin {pc : Pc} (inv : Inv s) (user : (s.proc p).pc = .user)
    (plain : pc.unbacked = none ∧ pc.loose = [] ∧ pc.made = [])
    (childless : ∀ np i, pc ≠ .forkLoop np i) (closing : ∀ a w, pc.closing a w = 0)
    (freeing : ∀ a, pc.freeing a = 0)
    (ok : ({ pc := pc, ofile := (s.proc p).ofile } : Proc).Ok) : Inv (s.jump p pc) := by
  refine inv.setProc (by simp [user]) childless ?_ ?_ ?_ plain.2.2 ok
  · intro g
    rw [user_holds user]
    simp [Proc.holds, Proc.backed, plain.1, plain.2.1]
  · intro a w
    rw [closing, user]
    rfl
  · intro a
    rw [freeing, user]
    rfl

theorem Inv.beginFork (inv : Inv s) (user : (s.proc p).pc = .user)
    (unused : (s.proc np).pc = .unused) :
    Inv ((s.jump np (.used p)).jump p (.forkLoop np 0)) := by
  have apart : p ≠ np := by
    rintro rfl
    rw [user] at unused
    cases unused
  have clear := inv.ok np
  simp only [Proc.Ok, unused] at clear
  have grown : Inv (s.jump np (.used p)) := by
    refine inv.setProc (by simp [unused]) (by simp) ?_ (by simp [unused, Pc.closing])
      (by simp [unused, Pc.freeing]) rfl trivial
    intro g
    simp [Proc.holds, Proc.backed, unused, Pc.unbacked, Pc.loose]
  have kept : (s.jump np (.used p)).proc p = s.proc p := Function.update_of_ne apart ..
  refine grown.move grown.quiet rfl ?_ ?_ ?_ grown.unused (fun _ _ _ _ => rfl) (by simp [Pc.made])
    trivial ?_
  · intro g
    rw [kept, user_holds user]
    simp [State.jump, State.setProc, Proc.holds, Proc.backed, Pc.unbacked, Pc.loose]
  · rw [kept]
    simp [State.jump, State.setProc, user, Pc.closing]
  · rw [kept]
    simp [State.jump, State.setProc, user, Pc.freeing]
  · intro q np' j pc'
    by_cases mine : q = p
    · subst mine
      simp only [State.jump, State.setProc, Function.update_self, Pc.forkLoop.injEq] at pc'
      obtain ⟨rfl, rfl⟩ := pc'
      simp only [State.jump, State.setProc, Function.update_of_ne (Ne.symm apart),
        Function.update_self]
      exact ⟨trivial, fun fd _ => clear fd fd.isLt⟩
    · have old : ((s.jump np (.used p)).proc q).pc = .forkLoop np' j := by
        rw [← pc']
        simp only [State.jump, State.setProc, Function.update_of_ne mine]
      obtain ⟨used, clear⟩ := grown.child q np' j old
      have other : np' ≠ p := by
        rintro rfl
        rw [kept, user] at used
        cases used
      have same : (((s.jump np (.used p)).jump p (.forkLoop np 0)).proc np') =
          (s.jump np (.used p)).proc np' := Function.update_of_ne other ..
      rw [same]
      exact ⟨used, clear⟩

theorem Inv.enter {c : Call} (inv : Inv s) (user : (s.proc p).pc = .user)
    (entered : enter s p c = some s') : Inv s' := by
  cases c with
  | «open» found =>
    cases found with
    | none => cases entered; exact inv
    | some ip =>
      cases entered
      exact inv.begin user ⟨rfl, rfl, rfl⟩ (by simp) (fun _ _ => rfl) (fun _ => rfl) trivial
  | pipe valid =>
    cases entered
    exact inv.begin user ⟨rfl, rfl, rfl⟩ (by simp) (fun _ _ => rfl) (fun _ => rfl) trivial
  | exit =>
    cases entered
    exact inv.begin user ⟨rfl, rfl, rfl⟩ (by simp) (fun _ _ => rfl) (fun _ => rfl)
      (fun fd lt => absurd lt (Nat.not_lt_zero _))
  | fork np =>
    cases np with
    | none => cases entered; exact inv
    | some np =>
      simp only [FileTable.enter] at entered
      split at entered
      next unused => cases entered; exact inv.beginFork user unused
      next => cases entered
  | close n =>
    simp only [FileTable.enter] at entered
    split at entered
    next => cases entered; exact inv
    next fd f found =>
      cases entered
      have slot := argfd_some found
      refine inv.setProc (by simp [user]) (by simp) ?_ (by simp [user, Pc.closing])
        (by simp [user, Pc.freeing]) rfl trivial
      intro g
      have update := slots_update g (s.proc p).ofile fd none
      rw [slot] at update
      simp only [Option.some.injEq, reduceCtorEq, if_false, Nat.add_zero] at update
      rw [user_holds user, ← update]
      simp [Proc.holds, Proc.backed, Pc.unbacked, Pc.loose, List.count_singleton]
  | dup n =>
    simp only [FileTable.enter] at entered
    split at entered
    next => cases entered; exact inv
    next fd₀ f found =>
      split at entered
      next => cases entered; exact inv
      next fd found' =>
        cases entered
        have slot := argfd_some found
        have free := fdalloc_some found'
        have other : fd₀ ≠ fd := by
          rintro rfl
          rw [free] at slot
          cases slot
        refine inv.setProc (by simp [user]) (by simp) ?_ (by simp [user, Pc.closing])
          (by simp [user, Pc.freeing]) rfl ?_
        · intro g
          rw [user_holds user]
          have same : Function.update (s.proc p).ofile fd none = (s.proc p).ofile := by
            rw [← free, Function.update_eq_self]
          simp [Proc.holds, Proc.backed, Pc.unbacked, Pc.loose, same]
        · refine ⟨Function.update_self .., fd₀, other, ?_⟩
          exact (Function.update_of_ne other ..).trans slot

theorem Inv.runPc {page : Option Nat} (inv : Inv s)
    (fresh : ∀ pi, page = some pi → s.page pi = none) :
    ∃ s', runPc s p page (s.proc p).pc = .ok s' ∧ Inv s' := by
  cases pc : (s.proc p).pc with
  | unused | used parent | zombie | user => exact ⟨s, rfl, inv⟩
  | openAlloc ip =>
    simp only [FileTable.runPc]
    cases found : FileTable.filealloc s with
    | none =>
      refine ⟨_, rfl, inv.setProc (by simp [pc]) (by simp) ?_ (by simp [pc, Pc.closing])
        (by simp [pc, Pc.freeing]) rfl trivial⟩
      intro g
      simp [Proc.holds, Proc.backed, pc, Pc.unbacked, Pc.loose]
    | some f =>
      exact ⟨_, rfl, inv.filealloc found (by simp [pc, Pc.unbacked])
        (by simp [pc, Pc.loose, List.count_singleton]) (by simp [Pc.made]) (by simp [pc]) (by simp)
        (by simp [pc, Pc.closing]) (by simp [pc, Pc.freeing]) trivial⟩
  | openFd f ip => exact ⟨_, rfl, inv.openFd pc⟩
  | dup fd f =>
    obtain ⟨s', ran, kept⟩ := inv.dup pc
    exact ⟨_, by simp only [FileTable.runPc, ran]; rfl, kept⟩
  | pipeFirst valid =>
    simp only [FileTable.runPc]
    cases found : FileTable.filealloc s with
    | none =>
      refine ⟨_, rfl, inv.setProc (by simp [pc]) (by simp) ?_ (by simp [pc, Pc.closing])
        (by simp [pc, Pc.freeing]) rfl trivial⟩
      intro g
      simp [Proc.holds, Proc.backed, pc, Pc.unbacked, Pc.loose]
    | some f0 =>
      exact ⟨_, rfl, inv.filealloc found (by simp [pc, Pc.unbacked])
        (by simp [pc, Pc.loose, List.count_singleton]) (by simp [Pc.made]) (by simp [pc]) (by simp)
        (by simp [pc, Pc.closing]) (by simp [pc, Pc.freeing]) trivial⟩
  | pipeSecond f0 valid =>
    simp only [FileTable.runPc]
    cases found : FileTable.filealloc s with
    | none =>
      refine ⟨_, rfl, inv.setProc (by simp [pc]) (by simp) ?_ (by simp [pc, Pc.closing])
        (by simp [pc, Pc.freeing]) rfl trivial⟩
      intro g
      simp [Proc.holds, Proc.backed, pc, Pc.unbacked, Pc.loose]
    | some f1 =>
      refine ⟨_, rfl, inv.filealloc found (by simp [pc, Pc.unbacked]) ?_ ?_ (by simp [pc]) (by simp)
        (by simp [pc, Pc.closing]) (by simp [pc, Pc.freeing]) trivial⟩
      · intro g
        simp [pc, Pc.loose, List.count_cons]
        omega
      · intro g mem
        simp only [Pc.made, List.mem_cons, List.not_mem_nil, or_false] at mem
        rw [pc]
        simp only [Pc.made, List.mem_singleton]
        exact mem.symm
  | pipePage f0 f1 valid => exact ⟨_, rfl, inv.pipePage pc fresh⟩
  | pipeFds f0 f1 valid => exact ⟨_, rfl, inv.pipeFds pc⟩
  | fileclose f next => exact inv.fileclose pc
  | pipeclose pi writable next => exact inv.pipeclose pc
  | kfree pi next => exact inv.kfree pc
  | forkLoop np i => exact inv.forkLoop pc
  | exitLoop i => exact ⟨_, rfl, inv.exitLoop pc⟩

theorem Inv.step {l : Move} (inv : Inv s) (move : step s l = some s') : Inv s' := by
  have quiet := inv.quiet
  cases l with
  | call p c =>
    simp only [FileTable.step] at move
    split at move
    next _ user => exact inv.enter user move
    next => cases move
  | run p page =>
    simp only [FileTable.step] at move
    split at move
    next guard =>
      have fresh : ∀ pi, page = some pi → s.page pi = none := by
        rintro pi rfl
        simpa using guard.2
      obtain ⟨s₁, ran, kept⟩ := inv.runPc (p := p) fresh
      rw [ran] at move
      cases move
      exact kept
    next => cases move
  | reap p =>
    simp only [FileTable.step] at move
    split at move
    next _ zombie =>
      cases move
      have clear := inv.ok p
      simp only [Proc.Ok, zombie] at clear
      refine inv.setProc (by simp [zombie]) (by simp) ?_ (by simp [zombie, Pc.closing])
        (by simp [zombie, Pc.freeing]) rfl clear
      intro g
      simp [Proc.holds, Proc.backed, zombie, Pc.unbacked, Pc.loose]
    next => cases move

/-! ## Pages -/

theorem enter_page {c : Call} (entered : enter s p c = some s') : s'.page = s.page := by
  cases c with
  | «open» found => cases found <;> cases entered <;> rfl
  | pipe valid | exit => cases entered; rfl
  | fork np =>
    cases np with
    | none => cases entered; rfl
    | some np =>
      simp only [enter] at entered
      split at entered
      next => cases entered; rfl
      next => cases entered
  | close n =>
    simp only [enter] at entered
    split at entered <;> cases entered <;> rfl
  | dup n =>
    simp only [enter] at entered
    split at entered
    next => cases entered; rfl
    next => split at entered <;> cases entered <;> rfl

theorem runFiledup_page (ran : runFiledup s f = .ok s') : s'.page = s.page := by
  simp only [runFiledup] at ran
  split at ran
  · cases ran
  · cases ran
    rfl

theorem runFileclose_page (ran : runFileclose s p f next = .ok s') : s'.page = s.page := by
  simp only [runFileclose, runNext_eq] at ran
  split at ran
  next => cases ran
  next =>
    split at ran
    next => cases ran; rfl
    next => split at ran <;> cases ran <;> rfl

theorem runForkLoop_page (ran : runForkLoop s p np i = .ok s') : s'.page = s.page := by
  unfold runForkLoop at ran
  split at ran
  next =>
    split at ran
    next => cases ran; rfl
    next f _ =>
      cases dup : runFiledup s f with
      | error panic => rw [dup] at ran; cases ran
      | ok s₁ =>
        rw [dup] at ran
        cases ran
        exact (runFiledup_page dup :)
  next => cases ran; rfl

/-- Whether there is a pipe on the page, as a number. -/
def present (page : Option Pipe) : Nat := if page.isSome then 1 else 0

/-- What a step takes and gives back is what becomes of the pages. -/
theorem step_present {l : Move} (inv : Inv s) (move : step s l = some s') (a : Nat) :
    (obs s l).toList.count (.kalloc a) + present (s.page a) =
      (obs s l).toList.count (.kfree a) + present (s'.page a) := by
  cases l with
  | call p c =>
    simp only [step] at move
    split at move
    next => simp [obs, enter_page move]
    next => cases move
  | reap p =>
    simp only [step] at move
    split at move
    next => cases move; simp [obs, State.jump, State.setProc]
    next => cases move
  | run p page =>
    simp only [step] at move
    split at move
    next guard =>
      have fresh : ∀ pi, page = some pi → s.page pi = none := by
        rintro pi rfl
        simpa using guard.2
      obtain ⟨s₁, ran, -⟩ := inv.runPc (p := p) fresh
      rw [ran] at move
      cases move
      cases pc : (s.proc p).pc with
      | unused | used parent | zombie | user =>
        rw [pc] at ran
        cases ran
        simp [obs, pc]
      | openAlloc ip | pipeFirst valid | pipeSecond f0 valid =>
        rw [pc] at ran
        simp only [FileTable.runPc] at ran
        split at ran <;> cases ran <;> simp [obs, pc, State.jump, State.setProc, State.setFile]
      | openFd f ip =>
        rw [pc] at ran
        cases ran
        have same : (runOpenFd s p f ip).page = s.page := by
          unfold runOpenFd
          split <;> rfl
        simp [obs, pc, same]
      | dup fd f =>
        rw [pc] at ran
        cases dup : runFiledup s f with
        | error panic =>
          simp only [FileTable.runPc, dup] at ran
          cases ran
        | ok s₂ =>
          simp only [FileTable.runPc, dup] at ran
          cases ran
          have same := runFiledup_page dup
          simp [obs, pc, State.jump, State.setProc, same]
      | pipePage f0 f1 valid =>
        rw [pc] at ran
        cases ran
        cases page with
        | none => simp [obs, pc, runPipePage, State.jump, State.setProc]
        | some pi =>
          have free := fresh pi rfl
          by_cases here : pi = a
          · subst here
            simp [obs, pc, runPipePage, State.jump, State.setProc, State.setFile, State.setPage, free,
              present]
          · simp [obs, pc, runPipePage, State.jump, State.setProc, State.setFile, State.setPage, here,
              Function.update_of_ne (Ne.symm here)]
      | pipeFds f0 f1 valid =>
        rw [pc] at ran
        cases ran
        have same : (runPipeFds s p f0 f1 valid).page = s.page := by
          simp only [runPipeFds]
          split
          next => rfl
          next =>
            split
            next => rfl
            next => split <;> rfl
        simp [obs, pc, same]
      | fileclose f next =>
        rw [pc] at ran
        simp [obs, pc, runFileclose_page ran]
      | pipeclose pi writable next =>
        rw [pc] at ran
        simp only [FileTable.runPc, runPipeclose] at ran
        split at ran
        next => cases ran
        next pipe page =>
          have still : present (Function.update s.page pi (some (pipe.close writable)) a) =
              present (s.page a) := by
            by_cases here : a = pi
            · subst here
              rw [Function.update_self, page]
              rfl
            · rw [Function.update_of_ne here]
          simp only [runNext_eq] at ran
          split at ran <;> cases ran <;>
            simpa [obs, pc, State.jump, State.setProc, State.setPage] using still.symm
      | kfree pi next =>
        rw [pc] at ran
        simp only [FileTable.runPc, runKfree] at ran
        split at ran
        next => cases ran
        next pipe page =>
          rw [runNext_eq] at ran
          cases ran
          by_cases here : pi = a
          · subst here
            simp [obs, pc, State.setProc, State.setPage, page, present]
          · simp [obs, pc, State.setProc, State.setPage, here, Function.update_of_ne (Ne.symm here)]
      | forkLoop np i =>
        rw [pc] at ran
        simp [obs, pc, runForkLoop_page ran]
      | exitLoop i =>
        rw [pc] at ran
        cases ran
        have same : (runExitLoop s p i).page = s.page := by
          unfold runExitLoop
          split
          · split <;> rfl
          · rfl
        simp [obs, pc, same]
    next => cases move

/-! ## Runs -/

theorem booted_inv : Inv booted := by
  have holds : ∀ p f, (booted.proc p).holds f = 0 := by
    intro p f
    have pc : (booted.proc p).pc = .user ∨ (booted.proc p).pc = .unused := by
      by_cases first : p.val = 0
      · exact .inl (if_pos first)
      · exact .inr (if_neg first)
    have none_open : slots (booted.proc p).ofile f = 0 := by
      simp [slots, booted]
    obtain pc | pc := pc <;>
      simp [Proc.holds, Proc.backed, pc, Pc.unbacked, Pc.loose, none_open]
  have pcs : ∀ p, (booted.proc p).pc = .user ∨ (booted.proc p).pc = .unused := by
    intro p
    by_cases first : p.val = 0
    · exact .inl (if_pos first)
    · exact .inr (if_neg first)
  refine ⟨rfl, ?_, ?_, ?_, fun _ _ => rfl, ?_, ?_, ?_⟩
  · intro f
    simp only [holders, holds, Finset.sum_const_zero]
    rfl
  · intro a w
    have closing : ∀ p, (booted.proc p).pc.closing a w = 0 := by
      intro p
      obtain pc | pc := pcs p <;> rw [pc] <;> rfl
    have isEnd : ∀ f, (booted.file f).isEnd a w = 0 := fun f => by simp [booted, File.isEnd]
    simp only [ends, closing, isEnd, Finset.sum_const_zero]
    rfl
  · intro a
    have none_freeing : ∀ p, (booted.proc p).pc.freeing a = 0 := by
      intro p
      obtain pc | pc := pcs p <;> rw [pc] <;> rfl
    simp only [freeing, none_freeing, Finset.sum_const_zero]
    rfl
  · intro p f mem
    obtain pc | pc := pcs p <;> rw [pc] at mem <;> cases mem
  · intro p
    obtain pc | pc := pcs p
    · simp [Proc.Ok, pc]
    · simp only [Proc.Ok, pc]
      intro fd _
      rfl
  · intro p np i pc'
    obtain pc | pc := pcs p <;> rw [pc] at pc' <;> cases pc'

/-- All processes are between two system calls, or are none. -/
def Quiet (s : State) : Prop :=
  ∀ p, (s.proc p).pc = .user ∨ (s.proc p).pc = .unused ∨ (s.proc p).pc = .zombie

/-- A slot holds an end of the pipe. -/
def HoldsEnd (s : State) (pi : Nat) (writable : Bool) : Prop :=
  ∃ p fd f, (s.proc p).ofile fd = some f ∧ (s.file f).type = .pipe ∧ (s.file f).pipe = pi ∧
    (s.file f).writable = writable

theorem Quiet.holds (quiet : Quiet s) (p : Fin nproc) (f : Fin nfile) :
    (s.proc p).holds f = slots (s.proc p).ofile f := by
  obtain pc | pc | pc := quiet p <;> simp [Proc.holds, Proc.backed, pc, Pc.unbacked, Pc.loose]

theorem Quiet.ends (quiet : Quiet s) (pi : Nat) (writable : Bool) :
    ends s pi writable = ∑ f, (s.file f).isEnd pi writable := by
  have closing : ∀ p, (s.proc p).pc.closing pi writable = 0 := by
    intro p
    obtain pc | pc | pc := quiet p <;> rw [pc] <;> rfl
  simp only [FileTable.ends, closing, Finset.sum_const_zero, Nat.add_zero]

theorem slots_exists {ofile : Fin nofile → Option (Fin nfile)} (pos : 0 < slots ofile f) :
    ∃ fd, ofile fd = some f := by
  by_contra none_holds
  have zero : slots ofile f = 0 := by
    refine Finset.sum_eq_zero fun fd _ => ?_
    rw [if_neg fun slot => none_holds ⟨fd, slot⟩]
  omega

/-- Between calls an end is open exactly while a slot holds it. -/
theorem Inv.open_iff (inv : Inv s) (quiet : Quiet s) (pi : Nat) (writable : Bool) :
    0 < opens (s.page pi) writable ↔ HoldsEnd s pi writable := by
  rw [← inv.ends_eq, quiet.ends]
  constructor
  · intro pos
    obtain ⟨f, -, isEnd⟩ := Finset.sum_pos_iff.mp pos
    have fields : (s.file f).type = .pipe ∧ (s.file f).pipe = pi ∧
        (s.file f).writable = writable := by
      by_contra other
      rw [File.isEnd, if_neg other] at isEnd
      omega
    have used : 0 < (s.file f).ref := by
      by_contra none_left
      have none := inv.unused f (by omega)
      rw [fields.1] at none
      cases none
    rw [inv.ref_eq, holders] at used
    obtain ⟨p, -, mine⟩ := Finset.sum_pos_iff.mp used
    rw [quiet.holds] at mine
    obtain ⟨fd, slot⟩ := slots_exists mine
    exact ⟨p, fd, f, slot, fields⟩
  · rintro ⟨p, fd, f, slot, fields⟩
    refine Finset.sum_pos_iff.mpr ⟨f, Finset.mem_univ f, ?_⟩
    rw [File.isEnd, if_pos fields]
    exact Nat.one_pos

theorem opens_some (pipe : Pipe) (writable : Bool) :
    0 < opens (some pipe) writable ↔ pipe.isOpen writable = true := by
  cases isOpen : pipe.isOpen writable <;> simp [opens, isOpen]

/-- A page with a pipe on it has a slot that holds one of its ends. -/
theorem Inv.present_iff (inv : Inv s) (quiet : Quiet s) (pi : Nat) :
    (s.page pi).isSome ↔ ∃ writable, HoldsEnd s pi writable := by
  simp only [← inv.open_iff quiet]
  have alive : dead (s.page pi) = 0 := by
    rw [← inv.freeing_eq]
    refine Finset.sum_eq_zero fun p _ => ?_
    obtain pc | pc | pc := quiet p <;> rw [pc] <;> rfl
  cases page : s.page pi with
  | none => simp [opens]
  | some pipe =>
    simp only [Option.isSome_some, true_iff, opens_some]
    by_contra closed
    rw [not_exists] at closed
    have gone : pipe = { readopen := false, writeopen := false } := by
      have read := closed false
      have write := closed true
      cases pipe
      simp_all [Pipe.isOpen]
    rw [page, dead, if_pos (by rw [gone])] at alive
    cases alive

abbrev events (ls : List Move) : List Event := trace step obs booted ls

theorem run_inv {ls : List Move} (run : exec step booted ls = some s) :
    Inv s ∧ ∀ pi, (events ls).count (.kalloc pi) =
      (events ls).count (.kfree pi) + present (s.page pi) := by
  refine trace_invariant (P := fun (es : List Event) s => Inv s ∧ ∀ pi, es.count (.kalloc pi) =
    es.count (.kfree pi) + present (s.page pi)) ?_ ⟨booted_inv, fun _ => rfl⟩ run
  intro es s l s' ⟨inv, counts⟩ move
  refine ⟨inv.step move, fun pi => ?_⟩
  have change := step_present inv move pi
  have before := counts pi
  rw [List.count_append, List.count_append]
  omega

/-- Wherever a run leads: nothing has panicked; between system calls the counts are the numbers
of slots, and the flags of a pipe show which of its ends a slot holds; and each page has been
given back as often as it was taken, unless it has a pipe that a slot still holds. -/
theorem counts_of_run {ls : List Move} (run : exec step booted ls = some s) :
    s.panic = none ∧
    (Quiet s →
      (∀ f, (s.file f).ref = ∑ p, slots (s.proc p).ofile f) ∧
      (∀ pi pipe, s.page pi = some pipe → (pipe.readopen = true ↔ HoldsEnd s pi false) ∧
        (pipe.writeopen = true ↔ HoldsEnd s pi true)) ∧
      ∀ pi, (s.page pi).isSome ↔ ∃ writable, HoldsEnd s pi writable) ∧
    ∀ pi, (events ls).count (.kalloc pi) =
      (events ls).count (.kfree pi) + if (s.page pi).isSome then 1 else 0 := by
  obtain ⟨inv, counts⟩ := run_inv run
  refine ⟨inv.quiet, fun quiet => ⟨fun f => ?_, fun pi pipe page => ?_, inv.present_iff quiet⟩, counts⟩
  · rw [inv.ref_eq, holders]
    exact Finset.sum_congr rfl fun p _ => quiet.holds p f
  · have read := inv.open_iff quiet pi false
    have write := inv.open_iff quiet pi true
    rw [page, opens_some] at read write
    exact ⟨read, write⟩

/-- The first process makes a pipe on page 7 and closes its read end. -/
def pipeRun : List Move :=
  let p : Fin nproc := ⟨0, by decide⟩
  [.call p (.pipe true), .run p none, .run p none, .run p (some 7), .run p none, .call p (.close 0),
    .run p none, .run p none]

theorem counts_of_run_pipe : ∃ s, exec step booted pipeRun = some s ∧ s.panic = none ∧
    (events pipeRun).count (.kalloc 7) = 1 ∧ ¬ HoldsEnd s 7 false ∧ HoldsEnd s 7 true := by
  obtain ⟨s, run⟩ : ∃ s, exec step booted pipeRun = some s := ⟨_, rfl⟩
  obtain ⟨noPanic, between, -⟩ := counts_of_run run
  have quiet : Quiet s := by
    cases run
    intro p
    match p with
    | ⟨0, _⟩ => exact .inl rfl
    | ⟨_ + 1, _⟩ => exact .inr (.inl rfl)
  have page : s.page 7 = some { readopen := false, writeopen := true } := by
    cases run
    rfl
  obtain ⟨read, write⟩ := (between quiet).2.1 7 _ page
  exact ⟨s, run, noPanic, rfl, fun holds => by simpa using read.mpr holds, write.mp rfl⟩

end Sistemas.Xv6.FileTable
