import Sistemas.Xv6.SemaphoreValue

/-! # Processes that stay blocked

The loop of `sem_down` leaves only when it finds a value other than 0.  So once the
value is 0 with the lock free and nobody makes an up, whoever is inside `sem_down` stays
inside (`Stuck`): the 0 that `sem_close` stores before it wakes the sleepers sends
them back to sleep, and so does the wakeup of a `kill`, since the loop does not test
`killed`.
-/

namespace Sistemas.Xv6

variable {n : Nat}

/-- The semaphore call a thread is inside, from its entry to its return. -/
def Pc.inside : Pc n → Option (SemId × SemOp)
  | .acquire s op | .body s op | .wakeup s op _ | .wakeupLocked s op _ | .release s op _ =>
    some (s, op)
  | .sleepAcquire s | .sleepRelease s | .sleepMark s | .sched s | .sleepTidy s | .reacquire s =>
    some (s, .semDown)
  | _ => none

/-- The semaphore whose `sem_down` has not come out of its wait loop. -/
def Pc.waits : Pc n → Option SemId
  | .acquire s op | .body s op => if op = .semDown then some s else none
  | .sleepAcquire s | .sleepRelease s | .sleepMark s | .sched s | .sleepTidy s | .reacquire s =>
    some s
  | _ => none

/-- The pid that a `kill` looks for, and the process whose lock it holds. -/
def Pc.kills : Pc n → Option (Int × Fin n)
  | .killLocked pid i => some (pid, i)
  | _ => none

/-- What a step of `p` observed as the second argument does to the call it is inside. -/
inductive InsideStep (p : Fin n) : Option (SemId × SemOp) → Option (Event n) →
    Option (SemId × SemOp) → Prop where
  | stay (call : Option (SemId × SemOp)) (o : Option (Event n)) :
      (∀ s op, o ≠ some (.entered p s op)) → InsideStep p call o call
  | enter (s : SemId) (op : SemOp) : InsideStep p none (some (.entered p s op)) (some (s, op))
  | leave (s : SemId) (op : SemOp) (r : Int) :
      InsideStep p (some (s, op)) (some (.completed p s op r)) none

namespace Kernel

variable {k k' : Kernel n} {p q : Fin n} {s : SemId} {op : SemOp} {r : Int} {a : Act n}

theorem Step.inside (h : Step k p a k') :
    InsideStep p (k.proc p).pc.inside (k.obs (p, a)) (k'.proc p).pc.inside := by
  cases h with
  | exit c running pc free why =>
    have silent : k.obs (p, .call c) = none := by
      rcases why with killed | rfl
      · simp [obs, killed]
      · simp [obs, obsCall]
    simpa [pc, Pc.inside, silent] using .stay none none (by simp)
  | enter c t o running pc free alive call =>
    simpa [pc, Pc.inside, obs, alive, call] using .enter t o
  | reject c out r running pc free alive call =>
    simpa [pc, Pc.inside, obs, alive, call] using .stay none none (by simp)
  | kill pid running pc free alive | fork c running pc free alive =>
    simpa [pc, Pc.inside, obs, obsCall, alive] using .stay none none (by simp)
  | release t o r running pc => simpa [pc, Pc.inside, obs] using .leave t o r
  | openFree | openBusy | close | up | downWait | down =>
    simpa [*, Pc.inside, obs, obsBody] using .stay _ _ (by simp)
  | _ => simpa [*, Pc.inside, obs] using .stay _ _ (by simp)

def AsleepIn (k : Kernel n) (s : SemId) (q : Fin n) : Prop :=
  (k.proc q).state = .sleeping ∧ (k.proc q).pc.inside = some (s, .semDown)

/-! ## Stuck at 0 -/

/-- The value is 0 and no down has taken effect, so the processes inside `sem_down(s)` are
    those of `D` and those that entered since. -/
structure Stuck (s : SemId) (D : Fin n → Prop) (es : List (Event n)) (k : Kernel n) : Prop where
  locks : LockInv k
  value : (k.sem s).value = 0
  waits : ∀ q r, (k.proc q).pc.result ≠ some (s, .semDown, r)
  inside : ∀ q, (k.proc q).pc.inside = some (s, .semDown) ↔ D q ∨ .entered q s .semDown ∈ es

theorem valueStep_zero {o : Option (Event n)} {v : Int} (h : ValueStep p s 0 o v)
    (noUp : ∀ q r, o ≠ some (.effect q s .semUp r)) :
    v = 0 ∧ ∀ q r, o ≠ some (.effect q s .semDown r) := by
  cases h <;> simp_all

theorem Step.entered_self {t : SemId} (h : Step k p a k')
    (o : k.obs (p, a) = some (.entered q t op)) : q = p := by
  have call := h.call
  rw [o] at call
  generalize (k.proc p).pc.result = result at call
  generalize (k'.proc p).pc.result = result' at call
  cases call
  rfl

theorem Stuck.step_inside {D : Fin n → Prop} {es : List (Event n)} (inv : Stuck s D es k)
    (move : Step k p a k') (q : Fin n) : (k'.proc q).pc.inside = some (s, .semDown) ↔
      D q ∨ .entered q s .semDown ∈ es ++ (k.obs (p, a)).toList := by
  have old := inv.inside q
  by_cases self : q = p
  · subst self
    have inside := move.inside
    have waits : ∀ t op r, k.obs (q, a) = some (.completed q t op r) →
        (k.proc q).pc.result = some (t, op, r) := fun _ _ _ => move.completed
    have noResult := inv.waits q
    generalize k.obs (q, a) = o at *
    generalize (k.proc q).pc.inside = call at *
    generalize (k'.proc q).pc.inside = call' at *
    cases inside with
    | stay _ _ notEntered => simp [old, notEntered]
    | enter t op => grind
    | leave t op r =>
      -- a call that returns has taken effect, so it is not a down on `s`
      have result := waits t op r rfl
      grind
  · have silent : .entered q s .semDown ∉ (k.obs (p, a)).toList := fun mem =>
      self (move.entered_self (by simpa using mem))
    rw [List.mem_append, or_iff_left silent, ← old]
    rcases move.pc_other inv.locks self with same | ⟨off, embryo⟩
    · rw [same]
    · simp [off, embryo, Pc.inside]

theorem step_stuck {D : Fin n → Prop} {es : List (Event n)} (inv : Stuck s D es k)
    (h : k.step (p, a) = some k') (noUp : ∀ q r, k.obs (p, a) ≠ some (.effect q s .semUp r)) :
    Stuck s D (es ++ (k.obs (p, a)).toList) k' := by
  have value := (step_inv h).value s
  rw [inv.value] at value
  obtain ⟨zero, noDown⟩ := valueStep_zero value noUp
  refine ⟨step_lockInv inv.locks h, zero, fun q r result => ?_, inv.step_inside (step_inv h)⟩
  rcases (step_inv h).result inv.locks result with old | new
  · exact inv.waits q r old
  · exact noDown q r new

/-- From a state with the lock free and the value 0, a run without an up on `s` keeps
    everybody inside. -/
theorem exec_stuck {start : Kernel n} {ls : List (Label n)} (locks : LockInv start)
    (free : (start.sem s).lock = none) (zero : (start.sem s).value = 0)
    (run : start.exec ls = some k) (noUp : ∀ q r, .effect q s .semUp r ∉ start.trace ls) :
    Stuck s (fun q => (start.proc q).pc.inside = some (s, .semDown)) (start.trace ls) k := by
  refine @Transition.trace_invariant _ _ _ step obs
    (fun es k => (∀ q r, .effect q s .semUp r ∉ es) →
      Stuck s (fun q => (start.proc q).pc.inside = some (s, .semDown)) es k)
    (fun es k l k' inv h noUp => ?_) _ _ _ (fun _ => ⟨locks, zero, fun q r result => ?_, by simp⟩)
    run noUp
  · simp only [List.mem_append, not_or] at noUp
    exact step_stuck (inv fun q r => (noUp q r).1) h fun q r o => (noUp q r).2 (by simp [o])
  · have held := (locks.sem s q).mpr (Pc.holdsSem_of_result result)
    rw [free] at held
    cases held

/-- In a quiescent state the stuck processes are the ones asleep in `sem_down(s)`. -/
theorem Stuck.asleep_iff {D : Fin n → Prop} {es : List (Event n)} (stuck : Stuck s D es k)
    (quiet : Quiescent k) (q : Fin n) : AsleepIn k s q ↔ D q ∨ .entered q s .semDown ∈ es := by
  rw [← stuck.inside]
  refine ⟨And.right, fun inside => ⟨?_, inside⟩⟩
  rcases quiescent_asleep stuck.locks quiet q with off | ⟨t, -, asleep⟩
  · rw [off] at inside
    cases inside
  · exact asleep

/-! ## After a close -/

/-- Between its store and its release of the lock, a close sees the 0 it stored. -/
def CloseInv (k : Kernel n) : Prop :=
  ∀ q s r, (k.proc q).pc.result = some (s, .semClose, r) → (k.sem s).value = 0

theorem obs_effect_holds (o : k.obs (p, a) = some (.effect q s op r)) :
    (k.proc p).pc.holdsSem = some s := by
  cases a with
  | call c => exact absurd o (obs_call_ne_effect c q s op r)
  | run =>
    simp only [obs] at o
    split at o
    next t o' pc =>
      cases o' <;> simp_all [obsBody, Pc.holdsSem]
    next => cases o
    next => cases o
  | dispatch | park | spurious => cases o

/-- While a thread carries a result for `s`, nothing takes effect on `s`. -/
theorem Step.no_effect {op' : SemOp} {r' : Int} {q' : Fin n} (h : Step k p a k') (locks : LockInv k)
    (result : (k.proc q).pc.result = some (s, op, r)) :
    k.obs (p, a) ≠ some (.effect q' s op' r') := by
  intro o
  obtain rfl := locks.holder_unique (obs_effect_holds o) (Pc.holdsSem_of_result result)
  have call := h.call
  rw [o, result] at call
  cases call

theorem step_closeInv (locks : LockInv k) (inv : CloseInv k) (h : k.step (p, a) = some k') :
    CloseInv k' := by
  intro q s r result
  have value := (step_inv h).value s
  rcases (step_inv h).result locks result with old | new
  · have silent : ∀ q' op' r', k.obs (p, a) ≠ some (.effect q' s op' r') := fun _ _ _ =>
      (step_inv h).no_effect locks old
    rw [inv q s r old] at value
    generalize k.obs (p, a) = o at *
    generalize (k'.sem s).value = v at *
    cases value with
    | quiet => rfl
    | _ => exact absurd rfl (silent _ _ _)
  · rw [new] at value
    generalize (k'.sem s).value = v at *
    cases value with
    | quiet _ silent => exact absurd rfl (silent q .semClose r)
    | close => rfl

theorem exec_closeInv {start : Kernel n} {ls : List (Label n)} (idle : Idle start)
    (run : start.exec ls = some k) : LockInv k ∧ CloseInv k :=
  Transition.exec_invariant (P := fun k => LockInv k ∧ CloseInv k)
    (fun _ _ _ inv h => ⟨step_lockInv inv.1 h, step_closeInv inv.1 inv.2 h⟩)
    ⟨idle.lockInv, fun q s r result => by
      rcases idle.pc q with pc | pc | pc <;> simp [pc, Pc.result] at result⟩ run

/-- **Who is released by a close.**  After a close of `s` has completed, and without an up,
    a quiescent state has no process asleep in `sem_down(s)` if and only if nobody was
    inside `sem_down(s)` when the close returned and nobody has called it since. -/
theorem close_releases_iff {start k₁ k₂ : Kernel n} {ls ms : List (Label n)}
    (booted : Booted start) (before : start.exec ls = some k₁)
    (closing : (k₁.proc p).pc = .release s .semClose r) (close : k₁.step (p, .run) = some k₂)
    (after : k₂.exec ms = some k) (noUp : ∀ q r, .effect q s .semUp r ∉ k₂.trace ms)
    (quiet : Quiescent k) :
    (∀ q, ¬ AsleepIn k s q) ↔
      (∀ q, (k₂.proc q).pc.inside ≠ some (s, .semDown)) ∧
      ∀ q, .entered q s .semDown ∉ k₂.trace ms := by
  obtain ⟨locks, closed⟩ := exec_closeInv booted.toIdle before
  have zero : (k₁.sem s).value = 0 := closed p s r (by rw [closing]; rfl)
  have locks₂ := step_lockInv locks close
  have : (k₂.sem s).lock = none ∧ (k₂.sem s).value = 0 := by
    cases step_inv close <;> simp_all
  have stuck := exec_stuck locks₂ this.1 this.2 after noUp
  simp only [stuck.asleep_iff quiet, not_or, forall_and, ne_eq]

/-- The only process closes semaphore 0, up to the release of the lock. -/
def closeAloneRun : List (Label 1) :=
  turn first [.dispatch, .run, .call (.semClose 0), .run, .run, .run, .run]

theorem close_releases_iff_closeAloneRun : ∃ k₁ k₂ k, (boot 1).exec closeAloneRun = some k₁ ∧
    (k₁.proc 0).pc = .release 0 .semClose 1 ∧ k₁.step (0, .run) = some k₂ ∧
    k₂.exec [(0, .run), (0, .call .exit)] = some k ∧ Quiescent k ∧ ∀ q, ¬ AsleepIn k 0 q :=
  ⟨_, _, _, rfl, rfl, rfl, rfl, quiescent_of_idle (by decide),
    (close_releases_iff (boot_booted 1) (show (boot 1).exec closeAloneRun = some _ from rfl)
      (p := 0) (s := 0) rfl rfl (show exec _ [(0, .run), (0, .call .exit)] = some _ from rfl)
      (fun _ _ => List.not_mem_nil) (quiescent_of_idle (by decide))).mpr
        ⟨by decide, fun _ => List.not_mem_nil⟩⟩

/-- The first process forks and goes to sleep in `sem_down(0)`. -/
def sleepRun : List (Label 2) :=
  turn first [.dispatch, .run, .call (.fork (some second)), .run, .call (.semDown 0), .run, .run,
    .run, .run, .run, .park]

/-- The second process calls `sem_close(0)`, up to the release of the lock. -/
def closeRun : List (Label 2) :=
  turn second [.dispatch, .run, .call (.semClose 0), .run, .run, .run, .run, .run, .run]

/-- The second process exits; the first, which is runnable, tests the value again. -/
def sleepAgainRun : List (Label 2) :=
  turn second [.run, .call .exit] ++
    turn first [.dispatch, .run, .run, .run, .run, .run, .run, .park]

/-- A process blocked in `sem_down(0)` is still blocked after `sem_close(0)`, and nobody can
    take a step. -/
theorem closeRun_asleep : ∃ k₀ k₁ k₂ k, (boot 2).exec sleepRun = some k₀ ∧ AsleepIn k₀ 0 0 ∧
    k₀.exec closeRun = some k₁ ∧ (k₁.proc 1).pc = .release 0 .semClose 1 ∧
    k₁.step (1, .run) = some k₂ ∧ k₂.exec sleepAgainRun = some k ∧ k₂.trace sleepAgainRun = [] ∧
    Quiescent k ∧ AsleepIn k 0 0 :=
  ⟨_, _, _, _, rfl, ⟨rfl, rfl⟩, rfl, rfl, rfl, rfl, rfl, quiescent_of_idle (by decide), ⟨rfl, rfl⟩⟩

/-! ## Killed processes -/

/-- The move is not that of a `kill` marking a process in the wait loop of `sem_down`. -/
def SparesWaiters (k : Kernel n) (l : Label n) : Prop :=
  ∀ x ∈ (k.proc l.1).pc.kills, (k.proc x.2).pid = x.1 → (k.proc x.2).pc.waits = none

instance (k : Kernel n) (l : Label n) : Decidable (SparesWaiters k l) :=
  inferInstanceAs (Decidable (∀ x ∈ (k.proc l.1).pc.kills, _))

/-- No killed process is in the wait loop of `sem_down`. -/
def Spared (k : Kernel n) : Prop :=
  ∀ q, (k.proc q).killed = true → (k.proc q).pc.waits = none

theorem Step.killed (h : Step k p a k') (q : Fin n) (killed : (k'.proc q).killed = true) :
    (k.proc q).killed = true ∨ ∃ pid, (k.proc p).pc = .killLocked pid q ∧ (k.proc q).pid = pid := by
  cases h <;> simp [wakeProc, killProc] at killed <;> grind

theorem Step.killed_stays (h : Step k p a k') (q : Fin n) (killed : (k.proc q).killed = true) :
    (k'.proc q).killed = true := by
  cases h <;> simp [wakeProc, killProc] <;> grind

theorem step_spared (locks : LockInv k) (inv : Spared k) (spares : SparesWaiters k (p, a))
    (h : k.step (p, a) = some k') : Spared k' := by
  intro q killed
  have out : (k.proc q).pc.waits = none := by
    rcases (step_inv h).killed q killed with old | ⟨pid, pc, hit⟩
    · exact inv q old
    · exact spares (pid, q) (by rw [pc]; rfl) hit
  -- nobody enters a call once killed, and the way out of the loop does not lead back
  by_cases self : q = p
  · subst self
    cases step_inv h <;> simp [wakeProc, killProc] at killed ⊢ <;> grind [Pc.waits]
  · rcases (step_inv h).pc_other locks self with same | ⟨-, embryo⟩
    · rwa [same]
    · rw [embryo]
      rfl

/-- **Which kills leave a process blocked.**  In a run from boot in which no `kill` marks a
    process in the wait loop of `sem_down`, no state has a killed process asleep in `sem_down`.  A
    process that is killed inside `sem_down(s)` while the value is 0 is in contrast still
    asleep there in every quiescent state that is reached without an up. -/
theorem killed_not_asleep {start : Kernel n} {ls : List (Label n)} (booted : Booted start)
    (run : start.exec ls = some k) :
    (Transition.Along step SparesWaiters start ls →
      ∀ q s, (k.proc q).killed = true → ¬ AsleepIn k s q) ∧
    ∀ q s ms k', (k.proc q).killed = true → (k.proc q).pc.inside = some (s, .semDown) →
      (k.sem s).lock = none → (k.sem s).value = 0 → k.exec ms = some k' →
      (∀ p r, .effect p s .semUp r ∉ k.trace ms) → Quiescent k' →
      (k'.proc q).killed = true ∧ AsleepIn k' s q := by
  constructor
  · intro spares
    have ⟨locks, spared⟩ := Transition.exec_invariant_along (P := fun k => LockInv k ∧ Spared k)
      (fun _ _ _ inv spares h => ⟨step_lockInv inv.1 h, step_spared inv.1 inv.2 spares h⟩)
      ⟨booted.lockInv, fun q _ => by
        rcases booted.pc q with pc | pc | pc <;> simp [pc, Pc.waits]⟩ run spares
    intro q s killed asleep
    have ⟨t, pc, _⟩ := locks.sleeping asleep.1
    have out := spared q killed
    rw [pc] at out
    cases out
  · intro q s ms k' killed inside free zero after noUp quiet
    have locks := exec_lockInv booted.lockInv run
    have stuck := exec_stuck locks free zero after noUp
    refine ⟨?_, (stuck.asleep_iff quiet q).mpr (.inl inside)⟩
    exact Transition.exec_invariant (P := fun k => (k.proc q).killed = true)
      (fun _ _ _ old h => (step_inv h).killed_stays q old) killed after

/-- The second process kills itself, and exits on its way out of the kernel. -/
def killSelfRun : List (Label 2) :=
  turn second [.dispatch, .run, .call (.kill 2), .run, .run, .run, .run, .run]

/-- The second process kills the first one, with pid 1. -/
def killRun : List (Label 2) := turn second [.dispatch, .run, .call (.kill 1), .run, .run]

theorem killed_not_asleep_killSelfRun : ∃ k, (boot 2).exec (sleepRun ++ killSelfRun) = some k ∧
    (k.proc 1).killed = true ∧ AsleepIn k 0 0 ∧
    ∀ q s, (k.proc q).killed = true → ¬ AsleepIn k s q :=
  ⟨_, rfl, rfl, ⟨rfl, rfl⟩,
    (killed_not_asleep (boot_booted 2)
      (show (boot 2).exec (sleepRun ++ killSelfRun) = some _ from rfl)).1 (by decide)⟩

/-- The first process, asleep in `sem_down(0)`, is killed, goes back to sleep, and nobody can
    take a step. -/
theorem killRun_asleep : ∃ k₀ k, (boot 2).exec (sleepRun ++ killRun) = some k₀ ∧
    k₀.exec sleepAgainRun = some k ∧ Quiescent k ∧ (k.proc 0).killed = true ∧ AsleepIn k 0 0 :=
  ⟨_, _, rfl, rfl, quiescent_of_idle (by decide), rfl, ⟨rfl, rfl⟩⟩

end Kernel

end Sistemas.Xv6
