import Sistemas.Xv6.SemaphoreCalm
import Sistemas.Xv6.UserProgram

/-! # pingpong

The variables `ping_sem` and `pong_sem` of `pingpong.c` hold what `sem_open` returned, and
this is what `ping` and `pong` use as the number of a semaphore.  After boot both opens
return 0, so both processes wait on semaphore 0, whose value is 0: the lines are right for
no argument but 0.
-/

namespace Sistemas.Xv6

variable {n : Nat}

/-! ## The program -/

inductive Player where
  | ping | pong
  deriving DecidableEq

/-- The locations of `pingpong.c`. -/
inductive Pingpong where
  -- `ping_sem = sem_open(0, 1)`
  | openPing
  -- `pong_sem = sem_open(1, 0)`
  | openPong (pingSem : Int)
  -- `pid = fork()`
  | fork (pingSem pongSem : Int)
  -- `sem_down(sem)` in the `i`-th iteration of the loop
  | down (who : Player) (sem : Int) (i : Nat)
  -- `printf("Ping\n")` or `printf("Pong\n")`
  | say (who : Player) (sem : Int) (i : Nat)
  -- `sem_up(sem)`
  | up (who : Player) (sem : Int) (i : Nat)
  -- after the loop: `sem_close(sem)`
  | close (who : Player) (sem : Int)
  -- `printf("&d&d\n", ping_sem, pong_sem)`
  | report (who : Player)
  -- `exit(0)`
  | exit (who : Player)
  deriving DecidableEq

namespace Pingpong

/-- The head of the `for` loops of `ping` and `pong`. -/
def loop (max : Nat) (who : Player) (sem : Int) (i : Nat) : Pingpong :=
  if i < max then .down who sem i else .close who sem

/-- The calls of the program; its `fork` succeeds. -/
def call (child : Fin n) : Pingpong → Option (Syscall n)
  | .openPing => some (.semOpen 0 1)
  | .openPong _ => some (.semOpen 1 0)
  | .fork _ _ => some (.fork (some child))
  | .down _ sem _ => some (.semDown sem)
  | .up _ sem _ => some (.semUp sem)
  | .close _ sem => some (.semClose sem)
  | .exit _ => some .exit
  | .say _ _ _ | .report _ => none

/-- The lines of the program; the format of the last one converts nothing. -/
def line : Pingpong → Option String
  | .say .ping _ _ => some "Ping\n"
  | .say .pong _ _ => some "Pong\n"
  | .report _ => some "&d&d\n"
  | _ => none

def returned (max : Nat) (r : Int) : Pingpong → Pingpong
  | .openPing => .openPong r
  | .openPong pingSem => .fork pingSem r
  | .fork pingSem pongSem => if r = 0 then loop max .ping pingSem 0 else loop max .pong pongSem 0
  | .down who sem i => .say who sem i
  | .up who sem i => loop max who sem (i + 1)
  | .close who _ => .report who
  | u => u

def printed : Pingpong → Pingpong
  | .say who sem i => .up who sem i
  | .report who => .exit who
  | u => u

def program (n max : Nat) : Program n Pingpong where
  call := call
  line := line
  returned := returned max
  printed := printed

/-- Who a process is, from the `fork` on. -/
def player : Pingpong → Option Player
  | .openPing | .openPong _ | .fork _ _ => none
  | .down who _ _ | .say who _ _ | .up who _ _ | .close who _ | .report who | .exit who => some who

def LeftLoop : Pingpong → Prop
  | .close _ _ | .report _ | .exit _ => True
  | _ => False

/-- After boot, the first process is about to run `main`. -/
def start : Machine nproc Pingpong where
  kernel := (Kernel.boot nproc).modifyProc 0 fun x => { x with state := .running, pc := .user }
  loc := Function.update (fun _ => none) 0 (some .openPing)
  out := []

/-- The lines of the loops. -/
def turns (out : List String) : List String := out.filter fun text => text = "Ping\n" ∨ text = "Pong\n"

/-- Both processes have left their loops, after `max` times Ping and Pong. -/
structure Alternated (max : Nat) (M : Machine nproc Pingpong) : Prop where
  left : ∀ who, ∃ p u, M.loc p = some u ∧ u.player = some who ∧ u.LeftLoop
  turns : turns M.out = (List.replicate max ["Ping\n", "Pong\n"]).flatten

/-- Every quiescent state of `pingpong max` has alternated. -/
def Alternates (max : Nat) : Prop :=
  ∀ ls M, Transition.exec (Machine.step (program nproc max)) start ls = some M →
    M.Quiescent (program nproc max) → Alternated max M

/-! ## An argument that is not 0 -/

/-- `returned` with the first test of the loops made. -/
def unrolled (max : Nat) (r : Int) : Pingpong → Pingpong
  | .fork pingSem pongSem => if r = 0 then .down .ping pingSem 0 else .down .pong pongSem 0
  | u => u.returned (max + 1) r

theorem returned_succ (max : Nat) : returned (max + 1) = unrolled max := by
  funext r u
  cases u <;> simp [returned, unrolled, loop]

def openRun : List (Fin nproc × Move nproc) :=
  [(0, .call 1), (0, .run), (0, .run), (0, .run), (0, .run)]

/-- `p` calls `sem_down` and goes to sleep. -/
def sleepRun (p : Fin nproc) : List (Fin nproc × Move nproc) :=
  [(p, .call 1), (p, .run), (p, .run), (p, .run), (p, .run), (p, .run), (p, .park)]

/-- The first process opens twice, forks and goes to sleep; so does its child. -/
def deadlockRun : List (Fin nproc × Move nproc) :=
  openRun ++ openRun ++ [(0, .call 1), (0, .run)] ++ sleepRun 0 ++ [(1, .dispatch), (1, .run)] ++
    sleepRun 1

/-- The kernel's share of that run. -/
def deadlocked : Kernel nproc := (start.kernel.exec
  [(0, .call (.semOpen 0 1)), (0, .run), (0, .run), (0, .run), (0, .run),
   (0, .call (.semOpen 1 0)), (0, .run), (0, .run), (0, .run), (0, .run),
   (0, .call (.fork (some 1))), (0, .run),
   (0, .call (.semDown 0)), (0, .run), (0, .run), (0, .run), (0, .run), (0, .run), (0, .park),
   (1, .dispatch), (1, .run),
   (1, .call (.semDown 0)), (1, .run), (1, .run), (1, .run), (1, .run), (1, .run),
   (1, .park)]).get rfl

theorem deadlocked_idle : ∀ p, (deadlocked.proc p).lock = none ∧
    (deadlocked.proc p).state ≠ .running ∧ (deadlocked.proc p).state ≠ .runnable := by decide

theorem exec_deadlockRun (max : Nat) : ∃ M,
    Transition.exec (Machine.step (program nproc (max + 1))) start deadlockRun = some M ∧
    M.kernel = deadlocked ∧ M.out = [] := by
  rw [program, returned_succ]
  exact ⟨_, rfl, rfl, rfl⟩

/-- With an argument that is not 0 both processes wait for semaphore 0 before the first
    line. -/
theorem not_alternates_succ (max : Nat) : ∃ M,
    Transition.exec (Machine.step (program nproc (max + 1))) start deadlockRun = some M ∧
    M.Quiescent (program nproc (max + 1)) ∧ M.out = [] ∧
    M.kernel.AsleepIn 0 0 ∧ M.kernel.AsleepIn 0 1 ∧ ¬ Alternates (max + 1) := by
  obtain ⟨M, run, kernel, out⟩ := exec_deadlockRun max
  have quiet : M.Quiescent (program nproc (max + 1)) := by
    refine Machine.quiescent_of_kernel ?_ fun p => ?_
    · rw [kernel]
      exact Kernel.quiescent_of_idle deadlocked_idle
    · rw [kernel]
      exact (deadlocked_idle p).2.1
  refine ⟨M, run, quiet, out, ?_, ?_, ?_⟩
  · rw [kernel]
    exact ⟨rfl, rfl⟩
  · rw [kernel]
    exact ⟨rfl, rfl⟩
  · intro alternates
    have turns := (alternates _ M run quiet).turns
    simp [out, Pingpong.turns, List.replicate_succ] at turns

/-! ## The argument 0

Nobody calls `sem_down`, so nothing blocks: `Calm` is what the kernel keeps, and `Smooth`
follows the program. -/

def OutsideLoop : Pingpong → Prop
  | .down _ _ _ | .say _ _ _ | .up _ _ _ => False
  | _ => True

/-- The first process has not forked: nobody else runs the program. -/
structure BeforeFork (M : Machine nproc Pingpong) (u : Pingpong) : Prop where
  player : u.player = none
  alone : ∀ q, q ≠ 0 → M.loc q = none
  nextpid : M.kernel.nextpid = 2
  calls : ∀ a b, u = .fork a b → (M.kernel.proc 0).pc = .user

/-- The first process has forked: it is `pong`, or about to be, and there is a `ping`. -/
structure AfterFork (M : Machine nproc Pingpong) (u : Pingpong) : Prop where
  parent : u.player = some .pong ∨ ∃ a b r, u = .fork a b ∧ (M.kernel.proc 0).pc = .ret r ∧ r ≠ 0
  child : ∃ c v, c ≠ 0 ∧ M.loc c = some v
  others : ∀ q v, q ≠ 0 → M.loc q = some v → v.player = some .ping

/-- A slot that is not used, or a process outside the loop that runs until its `exit`. -/
def Local (x : Proc nproc) : Option Pingpong → Prop
  | none => x.pc = .off ∧ x.state = .unused
  | some u => u.OutsideLoop ∧ (x.pc = .off → ∃ who, u = .exit who)

structure Smooth (M : Machine nproc Pingpong) : Prop where
  calm : M.kernel.Calm
  each : ∀ q, Local (M.kernel.proc q) (M.loc q)
  first : ∃ u, M.loc 0 = some u ∧ (BeforeFork M u ∨ AfterFork M u)
  out : turns M.out = []

variable {M M' : Machine nproc Pingpong} {p : Fin nproc} {k : Kernel nproc} {a : Act nproc}

theorem start_loc (q : Fin nproc) : start.loc q = if q = 0 then some .openPing else none := by
  simp [start, Function.update_apply]

theorem start_proc (q : Fin nproc) : start.kernel.proc q =
    if q = 0 then
      { lock := none, state := .running, chan := none, killed := false, pid := 1, pc := .user }
    else { lock := none, state := .unused, chan := none, killed := false, pid := 0, pc := .off } := by
  by_cases first : q = 0
  · subst first
    rfl
  · simp [start, Kernel.modifyProc, first, Kernel.boot_proc]

theorem start_idle : start.kernel.Idle where
  sem _ := rfl
  lock q := by rw [start_proc]; split <;> rfl
  pc q := by rw [start_proc]; split <;> simp
  fits q := by rw [start_proc]; split <;> simp [Pc.Fits]

theorem start_smooth : Smooth start where
  calm :=
    { locks := start_idle.lockInv
      alive := fun q => by rw [start_proc]; split <;> rfl
      pc := fun q => by rw [start_proc]; split <;> simp [Pc.Calm, Pc.inside] }
  each q := by
    rw [start_loc, start_proc]
    by_cases first : q = 0 <;> simp [first, Local, OutsideLoop]
  first := ⟨.openPing, rfl, .inl ⟨rfl, fun q other => by rw [start_loc, if_neg other], rfl, by simp⟩⟩
  out := rfl

/-! ### The program -/

@[simp] theorem loop_player (max : Nat) (who : Player) (sem : Int) (i : Nat) :
    (loop max who sem i).player = some who := by
  unfold loop
  split <;> rfl

theorem returned_player {u : Pingpong} {who : Player} (max : Nat) (r : Int)
    (player : u.player = some who) : (u.returned max r).player = some who := by
  cases u with
  | up w sem i =>
    rw [returned, loop_player]
    exact player
  | _ => simp_all [Pingpong.player, returned]

theorem returned_outside {u : Pingpong} (r : Int) (outside : u.OutsideLoop) :
    (u.returned 0 r).OutsideLoop := by
  cases u with
  | fork a b =>
    simp only [returned]
    split <;> trivial
  | _ => simp_all [OutsideLoop, returned]

/-! ### Steps that are not calls -/

theorem Local.routine {q : Fin nproc} {o : Option Pingpong} (routine : Kernel.Routine M.kernel k)
    (each : Local (M.kernel.proc q) o) : Local (k.proc q) o := by
  cases o with
  | none => exact ⟨(routine.off q).mpr each.1, routine.unused q each.2⟩
  | some u => exact ⟨each.1, fun off => each.2 ((routine.off q).mp off)⟩

theorem Smooth.routine (smooth : Smooth M) (act : ∀ c, a ≠ .call c)
    (h : M.kernel.step (p, a) = some k) (ret : ∀ r, (M.kernel.proc p).pc ≠ .ret r) :
    Smooth { M with kernel := k } := by
  have routine := smooth.calm.step act h
  have stays : ((M.kernel.proc 0).pc = .user → (k.proc 0).pc = .user) ∧
      ∀ r, (M.kernel.proc 0).pc = .ret r → (k.proc 0).pc = .ret r := by
    cases Kernel.step_inv h <;> simp [Kernel.wakeProc, Kernel.killProc] <;> grind
  refine ⟨routine.calm, fun q => (smooth.each q).routine routine, ?_, smooth.out⟩
  obtain ⟨u, loc, before | after⟩ := smooth.first
  · exact ⟨u, loc, .inl ⟨before.player, before.alone, routine.nextpid.trans before.nextpid,
      fun a b fork => stays.1 (before.calls a b fork)⟩⟩
  · refine ⟨u, loc, .inr ⟨?_, after.child, after.others⟩⟩
    rcases after.parent with pong | ⟨a, b, r, fork, pc, pos⟩
    · exact .inl pong
    · exact .inr ⟨a, b, r, fork, stays.2 r pc, pos⟩

/-- The program of `p` goes on from `u` to `u'` in user space. -/
structure GoesOn (M : Machine nproc Pingpong) (k : Kernel nproc) (p : Fin nproc) (u u' : Pingpong) :
    Prop where
  routine : Kernel.Routine M.kernel k
  others : ∀ q, q ≠ p → (k.proc q).pc = (M.kernel.proc q).pc
  user : (k.proc p).pc = .user
  loc : M.loc p = some u
  outside : u'.OutsideLoop
  keeps : ∀ who, u.player = some who → u'.player = some who
  opens : u.player = none → (∀ a b, u ≠ .fork a b) → u'.player = none
  forks : ∀ a b, u = .fork a b → ∃ r, (M.kernel.proc p).pc = .ret r ∧ (r ≠ 0 → u'.player = some .pong)

theorem GoesOn.first {u u' : Pingpong} {out : List String} (on : GoesOn M k p u u')
    (first : ∃ u, M.loc 0 = some u ∧ (BeforeFork M u ∨ AfterFork M u)) :
    ∃ v, Function.update M.loc p (some u') 0 = some v ∧
      (BeforeFork ⟨k, Function.update M.loc p (some u'), out⟩ v ∨
       AfterFork ⟨k, Function.update M.loc p (some u'), out⟩ v) := by
  obtain ⟨u₀, loc₀, stage⟩ := first
  have loc := on.loc
  by_cases self : p = 0
  · subst self
    obtain rfl : u = u₀ := by simpa [loc] using loc₀
    refine ⟨u', by simp, stage.imp (fun before => ?_) (fun after => ?_)⟩
    · have notFork : ∀ a b, u ≠ .fork a b := fun a b fork => by
        obtain ⟨r, pc, -⟩ := on.forks a b fork
        rw [before.calls a b fork] at pc
        cases pc
      exact ⟨on.opens before.player notFork, fun q other => by simp [other, before.alone q other],
        on.routine.nextpid.trans before.nextpid, fun _ _ _ => on.user⟩
    · refine ⟨.inl ?_, ?_, fun q v other hv => after.others q v other (by simpa [other] using hv)⟩
      · rcases after.parent with pong | ⟨a, b, r, fork, pc, pos⟩
        · exact on.keeps _ pong
        · obtain ⟨r', pc', pong⟩ := on.forks a b fork
          obtain rfl : r' = r := by simpa [pc] using pc'.symm
          exact pong pos
      · obtain ⟨c, v, other, hv⟩ := after.child
        exact ⟨c, v, other, by simpa [other] using hv⟩
  · rcases stage with before | after
    · rw [before.alone p self] at loc
      cases loc
    · refine ⟨u₀, by simpa [Ne.symm self] using loc₀, .inr ⟨?_, ?_, fun q v other hv => ?_⟩⟩
      · have same := on.others 0 (Ne.symm self)
        exact after.parent.imp_right fun ⟨a, b, r, forked, pc, pos⟩ =>
          ⟨a, b, r, forked, same.trans pc, pos⟩
      · exact ⟨p, u', self, by simp⟩
      · by_cases here : q = p
        · subst here
          obtain rfl : u' = v := by simpa using hv
          exact on.keeps _ (after.others q u other loc)
        · exact after.others q v other (by simpa [here] using hv)

theorem Smooth.goesOn {u u' : Pingpong} {out : List String} (smooth : Smooth M)
    (on : GoesOn M k p u u') (silent : turns out = []) :
    Smooth ⟨k, Function.update M.loc p (some u'), out⟩ := by
  refine ⟨on.routine.calm, fun q => ?_, on.first smooth.first, silent⟩
  by_cases self : q = p
  · subst self
    simp [Local, on.outside, on.user]
  · simpa [self] using (smooth.each q).routine on.routine

theorem Smooth.resume {r : Int} (smooth : Smooth M) (h : M.kernel.step (p, .run) = some k)
    (pc : (M.kernel.proc p).pc = .ret r) :
    Smooth { M with kernel := k, loc := M.afterRun (program nproc 0) p } := by
  obtain ⟨u, loc⟩ : ∃ u, M.loc p = some u := by
    have each := smooth.each p
    cases loc : M.loc p with
    | none => rw [loc, Local, pc] at each; cases each.1
    | some u => exact ⟨u, rfl⟩
  have each := smooth.each p
  rw [loc] at each
  have after : M.afterRun (program nproc 0) p =
      Function.update M.loc p (some (u.returned 0 r)) := by
    simp [Machine.afterRun, pc, loc, program]
  have alive := smooth.calm.alive p
  have moved : k = M.kernel.goto p .user := by
    cases Kernel.step_inv h <;> simp_all
  rw [after]
  refine smooth.goesOn (u := u) ⟨smooth.calm.step (by simp) h, ?_, ?_, loc,
    returned_outside r each.1, fun who => returned_player 0 r, ?_, ?_⟩ smooth.out
  · intro q other
    simp [moved, other]
  · simp [moved]
  · intro player notFork
    cases u <;> simp_all [Pingpong.player, returned]
  · rintro a b rfl
    exact ⟨r, pc, fun pos => by simp [returned, pos]⟩

theorem Smooth.print {u : Pingpong} {text : String} (smooth : Smooth M)
    (user : (M.kernel.proc p).pc = .user) (loc : M.loc p = some u) (line : u.line = some text) :
    Smooth ⟨M.kernel, Function.update M.loc p (some u.printed), M.out ++ [text]⟩ := by
  have each := smooth.each p
  rw [loc] at each
  -- the only line outside the loops is the last one
  obtain ⟨who, rfl⟩ : ∃ who, u = .report who := by
    cases u <;> simp_all [Pingpong.line, Local, OutsideLoop]
  obtain rfl : "&d&d\n" = text := by simpa [Pingpong.line] using line
  refine smooth.goesOn (u := .report who) ⟨⟨smooth.calm, by simp, by simp, rfl⟩, by simp, user, loc,
    trivial, fun _ player => player, by simp [Pingpong.player], by simp⟩ ?_
  simpa [turns] using smooth.out

/-! ### Calls -/

theorem Smooth.trap {u : Pingpong} (smooth : Smooth M) (loc : M.loc p = some u)
    (notFork : ∀ a b, u ≠ .fork a b) (calm : k.Calm) (nextpid : k.nextpid = M.kernel.nextpid)
    (others : ∀ q, q ≠ p → k.proc q = M.kernel.proc q)
    (ends : (k.proc p).pc = .off → ∃ who, u = .exit who) : Smooth { M with kernel := k } := by
  refine ⟨calm, fun q => ?_, ?_, smooth.out⟩
  · by_cases self : q = p
    · subst self
      have each := smooth.each q
      rw [loc] at each ⊢
      exact ⟨each.1, ends⟩
    · have each := smooth.each q
      rwa [← others q self] at each
  · obtain ⟨u₀, loc₀, stage⟩ := smooth.first
    have same : (∃ a b, u₀ = .fork a b) → k.proc 0 = M.kernel.proc 0 := fun ⟨a, b, forked⟩ => by
      refine others 0 fun self => ?_
      subst self
      exact notFork a b (by rw [← forked]; simpa [loc] using loc₀)
    refine ⟨u₀, loc₀, stage.imp (fun before => ?_) (fun after => ?_)⟩
    · exact ⟨before.player, before.alone, nextpid.trans before.nextpid, fun a b forked => by
        rw [same ⟨a, b, forked⟩]
        exact before.calls a b forked⟩
    · refine ⟨after.parent.imp_right fun ⟨a, b, r, forked, pc, pos⟩ => ?_, after.child, after.others⟩
      exact ⟨a, b, r, forked, by rw [same ⟨a, b, forked⟩]; exact pc, pos⟩

/-- Only the first process forks, and then nobody else runs the program. -/
theorem Smooth.forks {q : Fin nproc} {a b : Int} (smooth : Smooth M) (loc : M.loc q = some (.fork a b))
    (user : (M.kernel.proc q).pc = .user) : q = 0 ∧ (∀ q, q ≠ 0 → M.loc q = none) ∧ M.kernel.nextpid = 2 := by
  obtain ⟨u, loc₀, stage⟩ := smooth.first
  by_cases self : q = 0
  · subst self
    obtain rfl : .fork a b = u := by simpa [loc] using loc₀
    rcases stage with before | after
    · exact ⟨rfl, before.alone, before.nextpid⟩
    · rcases after.parent with pong | ⟨_, _, r, -, pc, -⟩
      · cases pong
      · rw [user] at pc
        cases pc
  · rcases stage with before | after
    · rw [before.alone q self] at loc
      cases loc
    · cases after.others q _ self loc

theorem Smooth.fork {child : Fin nproc} {a b : Int} (smooth : Smooth M) (loc : M.loc p = some (.fork a b))
    (h : M.kernel.step (p, .call (.fork (some child))) = some k) :
    Smooth { M with kernel := k, loc := Function.update M.loc child (some (.close .ping a)) } := by
  have locks := Kernel.step_lockInv smooth.calm.locks h
  obtain ⟨user, running, unused, moved⟩ := Kernel.step_call_fork (smooth.calm.alive p) h
  obtain ⟨rfl, alone, nextpid⟩ := smooth.forks loc user
  have apart : child ≠ 0 := by
    rintro rfl
    rw [unused] at running
    cases running
  refine ⟨⟨locks, ?_, fun q => ?_⟩, fun q => ?_, ?_, smooth.out⟩
  · simpa [moved] using smooth.calm.alive
  · have := smooth.calm.pc q
    simp only [moved, Kernel.goto_pc, Kernel.modifyProc_pc]
    split
    · simp [Pc.Calm, Pc.inside]
    · split
      · simp [Pc.Calm, Pc.inside]
      · exact this
  · by_cases first : q = 0
    · subst first
      simp [Ne.symm apart, loc, Local, OutsideLoop, moved]
    · by_cases new : q = child
      · subst new
        simp [Local, OutsideLoop, moved, first]
      · have each := smooth.each q
        rw [alone q first] at each
        simpa [new, alone q first, Local, moved, first] using each
  · refine ⟨.fork a b, by simpa [Ne.symm apart] using loc, .inr ⟨.inr ⟨a, b, 2, rfl, ?_, by decide⟩,
      ⟨child, .close .ping a, apart, by simp⟩, fun q v other hv => ?_⟩⟩
    · simp [moved, nextpid]
    · by_cases new : q = child
      · subst new
        obtain rfl : .close .ping a = v := by simpa using hv
        rfl
      · simp [new, alone q other] at hv

theorem Smooth.call {u : Pingpong} {child : Fin nproc} {c : Syscall nproc} (smooth : Smooth M)
    (loc : M.loc p = some u) (next : u.call child = some c)
    (h : M.kernel.step (p, .call c) = some k) :
    Smooth { M with kernel := k, loc := M.afterCall (program nproc 0) u c } := by
  have each := smooth.each p
  rw [loc] at each
  cases u with
  | fork a b =>
    obtain rfl := Option.some.inj next
    exact smooth.fork loc h
  | openPing | openPong | close =>
    obtain rfl := Option.some.inj next
    obtain ⟨calm, others, nextpid, notOff⟩ := smooth.calm.trap (by simp) h
    exact smooth.trap loc (by simp) calm nextpid others fun off => absurd off notOff
  | exit who =>
    obtain rfl := Option.some.inj next
    have locks := Kernel.step_lockInv smooth.calm.locks h
    obtain rfl := Kernel.step_call_exit h
    refine smooth.trap loc (by simp) ⟨locks, by simpa using smooth.calm.alive, fun q => ?_⟩ rfl
      (fun q other => if_neg other) fun _ => ⟨who, rfl⟩
    rw [Kernel.exit_pc]
    split
    · simp [Pc.Calm, Pc.inside]
    · exact smooth.calm.pc q
  | down | say | up | report => simp_all [Local, OutsideLoop, Pingpong.call]

theorem step_smooth {m : Move nproc} (smooth : Smooth M)
    (h : M.step (program nproc 0) (p, m) = some M') : Smooth M' := by
  cases m with
  | call child =>
    simp only [Machine.step, Option.bind_eq_some_iff, Option.map_eq_some_iff] at h
    obtain ⟨u, loc, c, next, k, move, rfl⟩ := h
    exact smooth.call loc next move
  | print =>
    simp only [Machine.step, Option.ite_none_right_eq_some, Option.bind_eq_some_iff,
      Option.map_eq_some_iff] at h
    obtain ⟨⟨-, user⟩, u, loc, text, line, rfl⟩ := h
    exact smooth.print user loc line
  | run =>
    simp only [Machine.step, Option.map_eq_some_iff] at h
    obtain ⟨k, move, rfl⟩ := h
    by_cases ret : ∃ r, (M.kernel.proc p).pc = .ret r
    · obtain ⟨r, pc⟩ := ret
      exact smooth.resume move pc
    · have same : M.afterRun (program nproc 0) p = M.loc := by
        unfold Machine.afterRun
        split
        next r pc => exact absurd ⟨r, pc⟩ ret
        next => rfl
      rw [same]
      exact smooth.routine (by simp) move (not_exists.mp ret)
  | dispatch | park | spurious =>
    simp only [Machine.step, Option.map_eq_some_iff] at h
    obtain ⟨k, move, rfl⟩ := h
    refine smooth.routine (by simp) move fun r pc => ?_
    have := smooth.calm.locks.fits p
    have := smooth.calm.locks.scheduler p
    cases Kernel.step_inv move <;> simp_all [Pc.Fits]

/-- In a quiescent state nobody is in user space: a call or a line would be possible. -/
theorem Smooth.not_user (smooth : Smooth M) (quiet : M.Quiescent (program nproc 0)) (q : Fin nproc) :
    (M.kernel.proc q).pc ≠ .user := by
  intro user
  have locks := smooth.calm.locks
  have free := quiet.halted.lock_proc locks
  have running : (M.kernel.proc q).state = .running := by
    have fits := locks.fits q
    rwa [user] at fits
  have each := smooth.each q
  cases loc : M.loc q with
  | none =>
    rw [loc, Local, user] at each
    cases each.1
  | some u =>
    rw [loc] at each
    have noCall := quiet q (.call 1) (by simp)
    have noPrint := quiet q .print (by simp)
    have alive := smooth.calm.alive q
    cases u with
    | openPing | openPong | close | exit =>
      simp [Machine.step, loc, program, Pingpong.call, Kernel.step, running, user, free q,
        Kernel.usertrap, alive, Kernel.syscall] at noCall
    | report => simp [Machine.step, running, user, loc, program, Pingpong.line] at noPrint
    | fork a b =>
      obtain ⟨rfl, alone, -⟩ := smooth.forks loc user
      have slot := smooth.each 1
      rw [alone 1 (by decide)] at slot
      simp [Machine.step, loc, program, Pingpong.call, Kernel.step, running, user, free,
        Kernel.usertrap, alive, Kernel.syscall, Kernel.sysFork, slot.2] at noCall
    | down | say | up => exact each.1

theorem Smooth.alternated (smooth : Smooth M) (quiet : M.Quiescent (program nproc 0)) :
    Alternated 0 M := by
  have ended : ∀ q u, M.loc q = some u → ∃ who, u = .exit who := fun q u loc => by
    have each := smooth.each q
    rw [loc] at each
    rcases quiet.halted.asleep smooth.calm.locks q with off | user | ⟨s, pc, -⟩
    · exact each.2 off
    · exact absurd user (smooth.not_user quiet q)
    · have calm := smooth.calm.pc q
      simp [pc, Pc.Calm, Pc.inside] at calm
  obtain ⟨u, loc, stage⟩ := smooth.first
  obtain ⟨who, rfl⟩ := ended 0 u loc
  rcases stage with before | after
  · cases before.player
  · refine ⟨fun who' => ?_, smooth.out⟩
    cases who' with
    | ping =>
      obtain ⟨c, v, other, hv⟩ := after.child
      obtain ⟨w, rfl⟩ := ended c v hv
      exact ⟨c, _, hv, after.others c _ other hv, trivial⟩
    | pong =>
      rcases after.parent with pong | ⟨a, b, r, forked, -⟩
      · exact ⟨0, _, loc, pong, trivial⟩
      · cases forked

/-- **`pingpong` alternates for the argument 0 only.** -/
theorem alternates_iff (max : Nat) : Alternates max ↔ max = 0 := by
  constructor
  · intro alternates
    cases max with
    | zero => rfl
    | succ max =>
      obtain ⟨M, -, -, -, -, -, not⟩ := not_alternates_succ max
      exact absurd alternates not
  · rintro rfl ls M run quiet
    have smooth := Transition.exec_invariant (P := Smooth)
      (fun _ _ _ smooth h => step_smooth smooth h) start_smooth run
    exact smooth.alternated quiet

/-- In `pingpong 1` both processes go to sleep on semaphore 0 and no line is printed. -/
theorem pingpong_one_deadlock : ∃ M,
    Transition.exec (Machine.step (program nproc 1)) start deadlockRun = some M ∧
    M.Quiescent (program nproc 1) ∧ M.out = [] ∧ M.kernel.AsleepIn 0 0 ∧
    M.kernel.AsleepIn 0 1 ∧ ¬ Alternates 1 :=
  not_alternates_succ 0

end Pingpong

end Sistemas.Xv6
