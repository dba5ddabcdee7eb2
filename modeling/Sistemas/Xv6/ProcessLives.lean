import Sistemas.Transition.Run
import Sistemas.Xv6.ProcessStep

/-! # The life of a pid

What `fork()`, `exit()` and `wait()` are for, in terms of pids alone: a process is created once,
exits once, and is reaped once, by its creator or, when that has exited, by `init`.  `Lives.step`
is a machine that accepts the events of such lives; what it accepts is `Orderly`.
-/

namespace Sistemas.Xv6.Process

open Sistemas.Transition

/-- The pid that `userinit()` gives to the first process. -/
def initpid : Int := 1

inductive Life where
  | unborn
  | stillborn
  | alive (creator : Option Int)
  | exited (creator : Option Int) (status : Int)
  | reaped

/-- The process has called `exit()`. -/
def Life.Gone : Life → Prop
  | .exited _ _ | .reaped => True
  | _ => False

instance : DecidablePred Life.Gone := fun life => by
  cases life <;> unfold Life.Gone <;> infer_instance

abbrev Lives := Int → Life

namespace Lives

variable (lives : Lives)

/-- The parent of a process with a creator. -/
def guardian (creator : Int) : Int := if (lives creator).Gone then initpid else creator

def step : Event → Option Lives
  | .fork _ => some lives
  | .forked creator child =>
    match lives child with
    | .unborn => some (Function.update lives child (.alive (some creator)))
    | _ => none
  | .forkFailed child =>
    match lives child with
    | .unborn => some (Function.update lives child .stillborn)
    | _ => none
  | .exited pid status =>
    match lives pid with
    | .alive creator => some (Function.update lives pid (.exited creator status))
    | _ => none
  | .reaped caller pid status =>
    match lives pid with
    | .exited (some creator) st =>
      if st = status ∧ caller = lives.guardian creator then
        some (Function.update lives pid .reaped)
      else none
    | _ => none

end Lives

/-- Only the first process is there at the start. -/
def firstLives : Lives := Function.update (fun _ => .unborn) initpid (.alive none)

/-! ## What the machine accepts -/

/-- What an event may be after the ones before it. -/
def Event.Allowed (before : List Event) : Event → Prop
  | .fork _ | .forkFailed _ => True
  | .forked _ child => ∀ creator, .forked creator child ∉ before
  | .exited pid _ => ∀ status, .exited pid status ∉ before
  | .reaped caller pid status =>
    (∀ caller status, .reaped caller pid status ∉ before) ∧ .exited pid status ∈ before ∧
      ∃ creator, .forked creator pid ∈ before ∧
        ((caller = creator ∧ ∀ status, .exited creator status ∉ before) ∨
          (caller = initpid ∧ ∃ status, .exited creator status ∈ before))

/-- Every pid is forked once, exits once and is reaped once, after its exit and with the status of
    it, by its creator or, when the creator has exited, by `init`. -/
def Orderly (es : List Event) : Prop :=
  ∀ before e after, es = before ++ e :: after → e.Allowed before

theorem orderly_nil : Orderly [] := by
  intro before e after split
  simp at split

theorem Orderly.concat {es : List Event} {e : Event} (orderly : Orderly es)
    (allowed : e.Allowed es) : Orderly (es ++ [e]) := by
  intro before e' after split
  obtain rfl | ⟨init, last, rfl⟩ := List.eq_nil_or_concat after
  · obtain ⟨rfl, same⟩ := List.append_inj' split rfl
    obtain rfl : e = e' := by simpa using same
    exact allowed
  · rw [List.concat_eq_append, ← List.cons_append, ← List.append_assoc] at split
    obtain ⟨same, -⟩ := List.append_inj' split rfl
    exact orderly before e' init same

/-- What a life tells of the events about its pid. -/
structure Life.Recalls (life : Life) (es : List Event) (pid : Int) : Prop where
  born : ∀ creator, .forked creator pid ∈ es → life ≠ .unborn
  created : ∀ creator, life = .alive (some creator) ∨
    (∃ status, life = .exited (some creator) status) → .forked creator pid ∈ es
  gone_iff : life.Gone ↔ ∃ status, .exited pid status ∈ es
  status : ∀ creator status, life = .exited creator status → .exited pid status ∈ es
  reaped : ∀ caller status, .reaped caller pid status ∈ es → life = .reaped

def Lives.Recall (lives : Lives) (es : List Event) : Prop :=
  ∀ pid, (lives pid).Recalls es pid

theorem firstLives_recall : firstLives.Recall [] := by
  intro pid
  by_cases same : pid = initpid
  · constructor <;> simp [firstLives, same, Life.Gone]
  · constructor <;> simp [firstLives, same, Life.Gone]

/-- An event is about one pid. -/
def Event.subject : Event → Option Int
  | .fork _ => none
  | .forked _ pid | .forkFailed pid | .exited pid _ | .reaped _ pid _ => some pid

/-- How an event takes the life of the pid it is about from one stage to the next. -/
inductive Lives.Turns (lives : Lives) : Event → Life → Life → Prop where
  | forked (creator child : Int) :
      Turns lives (.forked creator child) .unborn (.alive (some creator))
  | forkFailed (child : Int) : Turns lives (.forkFailed child) .unborn .stillborn
  | exited (pid status : Int) (creator : Option Int) :
      Turns lives (.exited pid status) (.alive creator) (.exited creator status)
  | reaped (pid status creator : Int) :
      Turns lives (.reaped (lives.guardian creator) pid status) (.exited (some creator) status)
        .reaped

section Step

variable {lives lives' : Lives} {es : List Event} {e : Event}

theorem Lives.step_cases (h : lives.step e = some lives') :
    ((∃ caller, e = .fork caller) ∧ lives' = lives) ∨
      ∃ pid life, e.subject = some pid ∧ lives.Turns e (lives pid) life ∧
        lives' = Function.update lives pid life := by
  cases e with
  | fork caller =>
    cases h
    exact .inl ⟨⟨caller, rfl⟩, rfl⟩
  | reaped caller pid status =>
    simp only [step] at h
    split at h
    · rename_i creator st life
      simp only [Option.ite_none_right_eq_some, Option.some.injEq] at h
      obtain ⟨⟨rfl, rfl⟩, rfl⟩ := h
      exact .inr ⟨pid, _, rfl, life ▸ .reaped pid st creator, rfl⟩
    · cases h
  | _ =>
    simp only [step] at h
    split at h
    · rename_i life
      cases h
      refine .inr ⟨_, _, rfl, ?_, rfl⟩
      rw [life]
      constructor
    · cases h

theorem Lives.step_of_ne {pid : Int} (h : lives.step e = some lives')
    (other : e.subject ≠ some pid) : lives' pid = lives pid := by
  rcases step_cases h with ⟨-, rfl⟩ | ⟨subject, life, about, -, rfl⟩
  · rfl
  · refine Function.update_of_ne ?_ _ _
    rintro rfl
    exact other about

/-- Who has exited stays so. -/
theorem Lives.step_gone {pid : Int} (h : lives.step e = some lives') (gone : (lives pid).Gone) :
    (lives' pid).Gone := by
  rcases step_cases h with ⟨-, rfl⟩ | ⟨subject, life, about, turns, rfl⟩
  · exact gone
  · by_cases same : pid = subject
    · subst same
      rw [Function.update_self]
      generalize lives pid = before at turns gone
      cases turns with
      | forked | forkFailed => exact gone.elim
      | exited | reaped => trivial
    · rwa [Function.update_of_ne same]

theorem Lives.Recall.allowed (memory : lives.Recall es) (h : lives.step e = some lives') :
    e.Allowed es := by
  rcases step_cases h with ⟨⟨caller, rfl⟩, -⟩ | ⟨pid, life, about, turns, -⟩
  · trivial
  · have recalls := memory pid
    generalize lives pid = before at turns recalls
    cases turns with
    | forked creator =>
      cases about
      exact fun other told => recalls.born other told rfl
    | forkFailed => trivial
    | exited _ status creator =>
      cases about
      exact fun other told => recalls.gone_iff.mpr ⟨other, told⟩
    | reaped _ status creator =>
      cases about
      refine ⟨fun caller other told => ?_, recalls.status _ status rfl, creator,
        recalls.created creator (.inr ⟨status, rfl⟩), ?_⟩
      · cases recalls.reaped caller other told
      · unfold guardian
        split
        · exact .inr ⟨rfl, (memory creator).gone_iff.mp ‹_›⟩
        · refine .inl ⟨rfl, fun other told => ?_⟩
          exact absurd ((memory creator).gone_iff.mpr ⟨other, told⟩) ‹_›

/-- An event about another pid leaves no trace. -/
theorem Life.Recalls.frame {life : Life} {pid : Int} (recalls : life.Recalls es pid)
    (other : e.subject ≠ some pid) : life.Recalls (es ++ [e]) pid := by
  have same : ∀ {told : Event}, told.subject = some pid → (told ∈ es ++ [e] ↔ told ∈ es) := by
    intro told about
    have ne : told ≠ e := by
      rintro rfl
      exact other about
    simp [ne]
  constructor
  · exact fun creator told => recalls.born creator ((same rfl).mp told)
  · exact fun creator made => (same rfl).mpr (recalls.created creator made)
  · rw [recalls.gone_iff]
    exact exists_congr fun status => (same rfl).symm
  · exact fun creator status exited => (same rfl).mpr (recalls.status creator status exited)
  · exact fun caller status told => recalls.reaped caller status ((same rfl).mp told)

theorem Lives.Turns.recalls {before life : Life} {pid : Int} (turns : lives.Turns e before life)
    (about : e.subject = some pid) (recalls : before.Recalls es pid) :
    life.Recalls (es ++ [e]) pid := by
  have kept : ∀ {told : Event}, told ∈ es → told ∈ es ++ [e] := List.mem_append_left _
  cases turns with
  | forked creator =>
    cases about
    constructor
    case gone_iff => simpa [Life.Gone] using recalls.gone_iff
    case created => simp
    case reaped =>
      intro caller status told
      cases recalls.reaped caller status (by simpa using told)
    all_goals simp
  | forkFailed =>
    cases about
    constructor
    case gone_iff => simpa [Life.Gone] using recalls.gone_iff
    case reaped =>
      intro caller status told
      cases recalls.reaped caller status (by simpa using told)
    all_goals simp
  | exited _ status creator =>
    cases about
    constructor
    case born => simp
    case created =>
      rintro creator (made | ⟨status, made⟩)
      · cases made
      · cases made
        exact kept (recalls.created creator (.inl rfl))
    case gone_iff => exact ⟨fun _ => ⟨status, by simp⟩, fun _ => trivial⟩
    case status =>
      intro creator status made
      cases made
      simp
    case reaped =>
      intro caller status told
      cases recalls.reaped caller status (by simpa using told)
  | reaped _ status creator =>
    cases about
    constructor
    case born => simp
    case created => simp
    case gone_iff =>
      exact ⟨fun _ => ⟨status, kept (recalls.status _ status rfl)⟩, fun _ => trivial⟩
    all_goals simp

theorem Lives.Recall.step (memory : lives.Recall es) (h : lives.step e = some lives') :
    lives'.Recall (es ++ [e]) := by
  intro pid
  rcases step_cases h with ⟨⟨caller, rfl⟩, rfl⟩ | ⟨subject, life, about, turns, rfl⟩
  · exact (memory pid).frame nofun
  · by_cases same : pid = subject
    · subst same
      rw [Function.update_self]
      exact turns.recalls about (memory pid)
    · rw [Function.update_of_ne same]
      exact (memory pid).frame (by rw [about]; exact fun also => same (Option.some.inj also).symm)

end Step

end Sistemas.Xv6.Process
