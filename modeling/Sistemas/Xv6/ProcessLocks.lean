import Sistemas.Transition.Locks
import Sistemas.Xv6.ProcessStep

/-! # What each instruction does to the locks of a thread

`Fits` says of an instruction at a point that the locks held after it are those held before
it, with the lock taken or given up; every instruction of the code fits (`next_fits`).
-/

namespace Sistemas.Xv6.Process

variable {n m : Nat} {L K : Type}

/-- The point after a step that is not a switch. -/
structure Point.Follows (me : Option (Fin n)) (point next : Point n L K) : Prop where
  sound : next.Sound me
  running : next.state = .RUNNING ∨ point.Leaving

def Instr.Fits (me : Option (Fin n)) (point : Point n L K) : Instr n L K → Prop
  | .go next | .restore _ next => next.holds me = point.holds me ∧ point.Follows me next
  | .intr _ next => point.holds me = [] ∧ next.holds me = [] ∧ point.Follows me next
  | .acquire l next => next.holds me = l :: point.holds me ∧ point.Follows me next
  | .release l next =>
    point.Follows me next ∧ (l ∈ point.holds me → (point.holds me).Perm (l :: next.holds me))
  | .sched next => ∃ after, point = .sched after ∧ next = fun b => .schedReturn b after
  | .swtch q next => point = .schedulerLocked q ∧ next = .schedulerBack q
  | .idle next => ∃ q, point = .schedulerBack q ∧ next = .schedulerRelease q
  | .panic why => why = .initExiting ∨ why = .zombieExit

theorem Point.follows_iff {me : Option (Fin n)} {point next : Point n L K} :
    point.Follows me next ↔ next.Sound me ∧ (next.state = .RUNNING ∨ point.Leaving) :=
  ⟨fun h => ⟨h.1, h.2⟩, fun h => ⟨h.1, h.2⟩⟩

section Codes

variable {t : Table n L K} {c : Cpu n L K} {me : Option (Fin n)} {held : List L}
  {choice : Choice n L K}

attribute [local simp] Point.holds

theorem wakeupCode_fits {chan : Chan n K} {i : Nat} {next : Point n L K}
    (sound : (Point.wakeup chan i next).Sound me) :
    (wakeupCode c chan i next).Fits me (.wakeup chan i next) := by
  unfold wakeupCode
  split
  · split
    · exact ⟨rfl, sound, .inl rfl⟩
    · exact ⟨rfl, sound, .inl rfl⟩
  · exact ⟨rfl, sound.2, .inl sound.1.running⟩

theorem wakeupLockedCode_fits [DecidableEq K] {chan : Chan n K} {q : Fin n} {next : Point n L K}
    (sound : (Point.wakeupLocked chan q next).Sound me) :
    (wakeupLockedCode t chan q next).instr.Fits me (.wakeupLocked chan q next) :=
  ⟨⟨sound, .inl rfl⟩, fun _ => .refl _⟩


variable [DecidableEq L]

theorem perm_map_erase {l : L} (mem : (Lock.other l : Lock n L) ∈ held.map .other) :
    (held.map (Lock.other (n := n))).Perm (.other l :: (held.erase l).map .other) := by
  have inside : l ∈ held := by simpa using mem
  exact (List.perm_cons_erase inside).map _

theorem lockCode_fits (back : List L → Point n L K) {instr : Instr n L K}
    (holds : ∀ held, (back held).holds me = held.map .other)
    (sound : ∀ held, (back held).Sound me) (caller : ∀ held, (back held).Caller)
    (h : lockCode back held choice = some instr) : instr.Fits me (back held) := by
  cases choice with
  | acquire l =>
    cases h
    exact ⟨by simp [holds], sound _, .inl (caller _).running⟩
  | release l =>
    cases h
    refine ⟨⟨sound _, .inl (caller _).running⟩, fun mem => ?_⟩
    rw [holds] at mem ⊢
    rw [holds]
    exact perm_map_erase mem
  | wakeup chan =>
    cases h
    exact ⟨rfl, ⟨caller _, sound _⟩, .inl rfl⟩
  | _ => cases h

theorem sleepCode_fits (back : List L → Point n L K) {instr : Instr n L K}
    (holds : ∀ held, (back held).holds me = held.map .other)
    (sound : ∀ held, (back held).Sound me) (caller : ∀ held, (back held).Caller)
    (h : sleepCode back held choice = some instr) : instr.Fits me (back held) := by
  cases choice with
  | sleep chan l =>
    simp only [sleepCode, Option.ite_none_right_eq_some, Option.some.injEq] at h
    obtain ⟨rfl, rfl⟩ := h
    exact ⟨by simp [Point.holds, holds], ⟨caller _, by simp [holds], sound _⟩, .inl rfl⟩
  | _ =>
    simp only [sleepCode] at h
    exact lockCode_fits back holds sound caller h

theorem kernelCode_fits {p : Fin n} {o : Outcome n L K}
    (h : kernelCode t p held choice = some o) : o.instr.Fits (some p) (.kernel held) := by
  have code : ∀ {instr}, sleepCode .kernel held choice = some instr →
      instr.Fits (some p) (.kernel held) :=
    sleepCode_fits .kernel (fun _ => rfl) (fun _ => trivial) (fun _ => trivial)
  cases choice with
  | intr | yield | kill | setkilled | fork | wait =>
    simp only [kernelCode, Option.ite_none_right_eq_some, Option.some.injEq] at h
    obtain ⟨rfl, rfl⟩ := h
    simp [Outcome.quiet, Instr.Fits, Point.holds, Point.follows_iff, Point.Sound, Point.Caller,
      Point.state]
  | exit =>
    simp only [kernelCode, Option.ite_none_right_eq_some] at h
    obtain ⟨rfl, h⟩ := h
    split at h
    all_goals
      cases h
      simp [Outcome.quiet, Instr.Fits, Point.holds, Point.follows_iff, Point.Sound, Point.state]
  | _ =>
    simp only [kernelCode, Option.map_eq_some_iff] at h
    obtain ⟨instr, h, rfl⟩ := h
    exact code h

theorem handlerCode_fits {below : Point n L K} {instr : Instr n L K}
    (sound : (Point.handler held below).Sound me)
    (h : handlerCode t c held below choice = some instr) :
    instr.Fits me (.handler held below) := by
  cases choice with
  | go =>
    simp only [handlerCode, Option.ite_none_right_eq_some, Option.some.injEq] at h
    obtain ⟨rfl, rfl⟩ := h
    exact ⟨rfl, sound.1, sound.2, .inl (sound.2.running sound.1)⟩
  | yield =>
    simp only [handlerCode] at h
    split at h
    · simp only [Option.ite_none_right_eq_some, Option.some.injEq] at h
      obtain ⟨⟨rfl, -⟩, rfl⟩ := h
      exact ⟨rfl, ⟨trivial, rfl, sound⟩, .inl rfl⟩
    · cases h
  | _ =>
    simp only [handlerCode] at h
    exact lockCode_fits (fun held => .handler held below) (fun _ => rfl) (fun _ => sound)
      (fun _ => trivial) h

theorem kernelCode_table {p : Fin n} {o : Outcome n L K}
    (h : kernelCode t p held choice = some o) : o.table = t := by
  cases choice with
  | intr | yield | kill | setkilled | fork | wait =>
    simp only [kernelCode, Option.ite_none_right_eq_some, Option.some.injEq] at h
    obtain ⟨-, rfl⟩ := h
    rfl
  | exit =>
    simp only [kernelCode, Option.ite_none_right_eq_some] at h
    obtain ⟨-, h⟩ := h
    split at h
    all_goals
      cases h
      rfl
  | _ =>
    simp only [kernelCode, Option.map_eq_some_iff] at h
    obtain ⟨instr, -, rfl⟩ := h
    rfl

variable [DecidableEq K]

theorem act_fits {p : Fin n} {point : Point n L K} {o : Outcome n L K} (sound : point.Sound (some p))
    (h : act t c p point choice = some o) : o.instr.Fits (some p) point := by
  cases point with
  | kernel held => exact kernelCode_fits h
  | handler held below =>
    obtain ⟨instr, code, rfl⟩ := Option.map_eq_some_iff.mp h
    exact handlerCode_fits sound code
  | wakeup chan i next =>
    cases h
    exact wakeupCode_fits sound
  | wakeupLocked chan q next =>
    cases h
    exact wakeupLockedCode_fits sound
  | exitFiles status held =>
    have code : ∀ {instr}, sleepCode (.exitFiles status) held choice = some instr →
        instr.Fits (some p) (.exitFiles status held) :=
      sleepCode_fits (.exitFiles status) (fun _ => rfl) (fun _ => trivial) (fun _ => trivial)
    cases choice with
    | go =>
      simp only [act, Option.ite_none_right_eq_some, Option.some.injEq] at h
      obtain ⟨rfl, rfl⟩ := h
      exact ⟨rfl, trivial, .inl rfl⟩
    | _ =>
      simp only [act, Option.map_eq_some_iff] at h
      obtain ⟨instr, h, rfl⟩ := h
      exact code h
  | sched next =>
    cases h
    exact ⟨next, rfl, rfl⟩
  | yieldRelease next =>
    cases h
    obtain ⟨caller, free, sound⟩ := sound
    exact ⟨⟨sound, .inl caller.running⟩, fun _ => by rw [free]; exact .refl _⟩
  | sleepReacquire chan lk next =>
    cases h
    obtain ⟨caller, holds, sound⟩ := sound
    exact ⟨holds, sound, .inl caller.running⟩
  | sleepRelease chan lk next =>
    cases h
    exact ⟨⟨sound, .inl rfl⟩, fun _ => List.Perm.swap (lk : Lock n L) (.proc p) []⟩
  | exitZombie status =>
    cases h
    exact ⟨⟨⟨nofun, trivial, trivial⟩, .inr trivial⟩, fun _ => List.Perm.swap (.wait : Lock n L) (.proc p) []⟩
  | schedReturn intena next =>
    cases h
    obtain ⟨-, resumes, sound⟩ := sound
    cases next with
    | yieldRelease | sleepTidy | zombieExit => exact ⟨rfl, sound, .inl rfl⟩
    | _ => exact resumes.elim
  | _ =>
    simp only [act, reduceCtorEq] at h
    repeat' split at h
    all_goals cases h
    all_goals
      simp_all [Outcome.quiet, Instr.Fits, Point.holds, Point.follows_iff, Point.Sound, Point.Caller,
        Point.Resumes, Point.state, Point.Leaving, own]

theorem actScheduler_fits {point : Point n L K} {o : Outcome n L K} (sound : point.Sound none)
    (h : actScheduler t c point choice = some o) : o.instr.Fits none point := by
  cases point with
  | handler held below =>
    obtain ⟨instr, code, rfl⟩ := Option.map_eq_some_iff.mp h
    exact handlerCode_fits sound code
  | wakeup chan i next =>
    cases h
    exact wakeupCode_fits sound
  | wakeupLocked chan q next =>
    cases h
    exact wakeupLockedCode_fits sound
  | scheduler | schedulerLocked | schedulerBack | schedulerRelease =>
    simp only [actScheduler] at h
    repeat' split at h
    all_goals cases h
    all_goals
      simp_all [Outcome.quiet, Instr.Fits, Point.holds, Point.follows_iff, Point.Sound, Point.state]
  | _ => cases h

/-- An instruction that may panic is reached without a change of the table. -/
def Instr.MayPanic (me : Option (Fin n)) (point : Point n L K) : Instr n L K → Prop
  | .acquire _ _ | .panic _ => True
  | .release l _ => l ∉ point.holds me
  | _ => False

omit [DecidableEq K] in
theorem kernelCode_event {p : Fin n} {o : Outcome n L K}
    (h : kernelCode t p held choice = some o) (may : o.instr.MayPanic (some p) (.kernel held)) :
    o.event = none := by
  cases choice with
  | intr | yield | kill | setkilled | wait =>
    simp only [kernelCode, Option.ite_none_right_eq_some, Option.some.injEq] at h
    obtain ⟨-, rfl⟩ := h
    rfl
  | fork =>
    simp only [kernelCode, Option.ite_none_right_eq_some, Option.some.injEq] at h
    obtain ⟨-, rfl⟩ := h
    exact may.elim
  | exit =>
    simp only [kernelCode, Option.ite_none_right_eq_some] at h
    obtain ⟨-, h⟩ := h
    split at h
    · cases h
      rfl
    · cases h
      exact may.elim
  | _ =>
    simp only [kernelCode, Option.map_eq_some_iff] at h
    obtain ⟨instr, -, rfl⟩ := h
    rfl

theorem act_quiet {p : Fin n} {point : Point n L K} {o : Outcome n L K}
    (h : act t c p point choice = some o) (may : o.instr.MayPanic (some p) point) :
    o.table = t ∧ o.event = none := by
  cases point with
  | kernel held => exact ⟨kernelCode_table h, kernelCode_event h may⟩
  | handler held below =>
    obtain ⟨instr, code, rfl⟩ := Option.map_eq_some_iff.mp h
    exact ⟨rfl, rfl⟩
  | exitFiles status held =>
    cases choice with
    | go =>
      simp only [act, Option.ite_none_right_eq_some, Option.some.injEq] at h
      obtain ⟨-, rfl⟩ := h
      exact ⟨rfl, rfl⟩
    | _ =>
      simp only [act, Option.map_eq_some_iff] at h
      obtain ⟨instr, h, rfl⟩ := h
      exact ⟨rfl, rfl⟩
  | _ =>
    simp only [act, reduceCtorEq] at h
    repeat' split at h
    all_goals cases h
    all_goals
      first
      | exact ⟨rfl, rfl⟩
      | simp [Outcome.quiet, wakeupLockedCode, Instr.MayPanic, Point.holds, own] at may

theorem actScheduler_quiet {point : Point n L K} {o : Outcome n L K}
    (h : actScheduler t c point choice = some o) (may : o.instr.MayPanic none point) :
    o.table = t ∧ o.event = none := by
  cases point with
  | handler held below =>
    obtain ⟨instr, code, rfl⟩ := Option.map_eq_some_iff.mp h
    exact ⟨rfl, rfl⟩
  | wakeup | wakeupLocked | scheduler | schedulerLocked | schedulerBack | schedulerRelease =>
    simp only [actScheduler] at h
    repeat' split at h
    all_goals cases h
    all_goals
      first
      | exact ⟨rfl, rfl⟩
      | simp [Outcome.quiet, wakeupLockedCode, Instr.MayPanic, Point.holds] at may
  | _ => cases h

end Codes

/-! ## What each point does to the process table -/

/-- The changes that the thread of `me` makes at a point. -/
inductive Change [DecidableEq K] (t : Table n L K) :
    Option (Fin n) → Point n L K → Table n L K → Prop where
  | same (me : Option (Fin n)) (point : Point n L K) : Change t me point t
  | wake (me : Option (Fin n)) (chan : Chan n K) (q : Fin n) (next : Point n L K) :
      Change t me (.wakeupLocked chan q next) (t.wake chan q)
  | yield (p : Fin n) (next : Point n L K) :
      Change t (some p) (.yieldLocked next) (t.set p fun q => { q with state := .RUNNABLE })
  | sleep (p : Fin n) (chan : Chan n K) (lk : Lock n L) (next : Point n L K) :
      Change t (some p) (.sleepMark chan lk next)
        (t.set p fun q => { q with chan := chan, state := .SLEEPING })
  | tidy (p : Fin n) (chan : Chan n K) (lk : Lock n L) (next : Point n L K) :
      Change t (some p) (.sleepTidy chan lk next) (t.set p fun q => { q with chan := .null })
  | kill (p : Fin n) (pid : Int) (q : Fin n) (named : (t.proc q).pid = pid) :
      Change t (some p) (.killLocked pid q) (t.kill q)
  | fault (p : Fin n) :
      Change t (some p) .setkilledLocked (t.set p fun q => { q with killed := true })
  | allocpid (p q : Fin n) :
      Change t (some p) (.allocpidLocked q) { t with nextpid := wrapInt (t.nextpid + 1) }
  | used (p q : Fin n) (pid : Int) :
      Change t (some p) (.allocUsed q pid) (t.set q fun r => { r with pid := pid, state := .USED })
  | init (p q : Fin n) :
      Change t (some p) (.allocInit q) (t.set q fun r => { r with context := .forkret })
  | fail (p q : Fin n) (point : Point n L K) (here : point = .allocInit q ∨ point = .forkCopy q) :
      Change t (some p) point (t.freeproc q)
  | parent (p q : Fin n) :
      Change t (some p) (.forkParentLocked q) (t.set q fun r => { r with parent := some p })
  | runnable (p q : Fin n) :
      Change t (some p) (.forkRunnableLocked q) (t.set q fun r => { r with state := .RUNNABLE })
  | reparent (p : Fin n) (status : Int) (q : Fin n) (child : (t.proc q).parent = some p) :
      Change t (some p) (.exitReparent status q)
        (t.set q fun r => { r with parent := some t.initproc })
  | zombie (p : Fin n) (status : Int) :
      Change t (some p) (.exitZombie status)
        (t.set p fun q => { q with xstate := status, state := .ZOMBIE })
  | reap (p : Fin n) (addr : Nat) (q : Fin n) (zombie : (t.proc q).state = .ZOMBIE) :
      Change t (some p) (.waitChild addr q) (t.freeproc q)
  | run (q : Fin n) (runnable : (t.proc q).state = .RUNNABLE) :
      Change t none (.schedulerLocked q) (t.set q fun r => { r with state := .RUNNING })

end Sistemas.Xv6.Process
