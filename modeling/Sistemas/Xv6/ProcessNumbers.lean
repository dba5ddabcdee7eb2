import Sistemas.Data.Counting
import Sistemas.Xv6.ProcessLineage

/-! # Pids

`allocpid()` counts up, so that as long as `nextpid` has not wrapped no two processes have the same
pid (`Numbered`).  A `fork()` draws at most one pid: the pids drawn and the calls that may still
draw one are no more than the calls made (`drawn_step`).
-/

namespace Sistemas.Xv6.Process

open Sistemas.Transition

variable {n m : Nat} {L K : Type}

/-- In a `fork()` that has not drawn its pid yet. -/
def Point.drawing : Point n L K → Bool
  | .alloc _ | .allocLocked _ | .allocpid _ | .allocpidLocked _ => true
  | .handler _ next | .wakeup _ _ next | .wakeupLocked _ _ next | .yield next | .yieldLocked next
  | .yieldRelease next | .sched next | .schedReturn _ next | .sleep _ _ next
  | .sleepRelease _ _ next | .sleepMark _ _ next | .sleepTidy _ _ next
  | .sleepReacquire _ _ next => next.drawing
  | _ => false

/-- The pids drawn by a move from a point. -/
def Point.draws : Point n L K → Nat
  | .allocpidLocked _ => 1
  | _ => 0

def Event.isFork : Event → Bool
  | .fork _ => true
  | _ => false

theorem Point.draws_eq {point : Point n L K} (other : ∀ q, point ≠ .allocpidLocked q) :
    point.draws = 0 := by
  cases point with
  | allocpidLocked q => exact absurd rfl (other q)
  | _ => rfl

theorem Point.draws_le (point : Point n L K) : point.draws ≤ if point.drawing then 1 else 0 := by
  cases point with
  | allocpidLocked => exact Nat.le_refl 1
  | _ => exact Nat.zero_le _

section Flows

variable [DecidableEq K] {t t' : Table n L K} {c : Cpu n L K} {me : Option (Fin n)} {p q : Fin n}
  {point next : Point n L K} {e : Option Event}

theorem Flow.nextpid (flow : Flow t c me point next t' e) :
    (∃ p q, me = some p ∧ point = .allocpidLocked q ∧ next = .allocUsed q t.nextpid ∧
        t'.nextpid = wrapInt (t.nextpid + 1)) ∨
      ((∀ q, point ≠ .allocpidLocked q) ∧ t'.nextpid = t.nextpid) := by
  cases flow with
  | allocpidRelease p q => exact .inl ⟨p, q, rfl, rfl, rfl, rfl⟩
  | trap me point free => exact .inr ⟨(by rintro q rfl; cases free), rfl⟩
  | wakeup me ch point code => exact .inr ⟨(by rintro q rfl; cases code), rfl⟩
  | yield p point code => exact .inr ⟨(by rintro q rfl; cases code), rfl⟩
  | sleep p ch l point code => exact .inr ⟨(by rintro q rfl; cases code), rfl⟩
  | wakeupRelease =>
    refine .inr ⟨nofun, ?_⟩
    unfold Table.wake
    split <;> rfl
  | _ => exact .inr ⟨nofun, rfl⟩

theorem Flow.to_used {pid : Int} (flow : Flow t c me point (.allocUsed q pid) t' e)
    (sound : point.Sound me) : point = .allocpidLocked q ∧ pid = t.nextpid ∧ e = none := by
  cases flow with
  | allocpidRelease p q => exact ⟨rfl, rfl, rfl⟩
  | resume => cases sound.1
  | wakeupDone | yieldRelease | sleepReacquire => exact sound.1.elim
  | schedReturn => exact sound.2.1.elim

theorem Flow.drawing (flow : Flow t c me point next t' e) (drawing : next.drawing = true) :
    point.draws = 0 ∧ (point.drawing = true ∨ e.toList.countP Event.isFork = 1) := by
  cases flow with
  | fork p => exact ⟨rfl, .inr rfl⟩
  | trap me point free =>
    refine ⟨Point.draws_eq ?_, .inl drawing⟩
    rintro q rfl
    cases free
  | wakeup me ch point code =>
    exact ⟨Point.draws_eq (by rintro q rfl; cases code), .inl drawing⟩
  | yield p point code => exact ⟨Point.draws_eq (by rintro q rfl; cases code), .inl drawing⟩
  | sleep p ch l point code => exact ⟨Point.draws_eq (by rintro q rfl; cases code), .inl drawing⟩
  | _ => first | exact ⟨rfl, .inl drawing⟩ | exact ⟨rfl, .inl rfl⟩ | cases drawing

end Flows

namespace State

/-- After `a` calls of `allocpid()`. -/
structure Numbered (a : Nat) (s : State n m L K) : Prop where
  counter : s.nextpid = wrapInt (a + 2)
  range : ∀ q, (s.proc q).state ≠ .UNUSED → 1 ≤ (s.proc q).pid ∧ (s.proc q).pid ≤ a + 1
  distinct : ∀ q r, (s.proc q).state ≠ .UNUSED → (s.proc r).state ≠ .UNUSED →
    (s.proc q).pid = (s.proc r).pid → q = r
  pending : ∀ p q pid, (s.proc p).context = .allocUsed q pid → (1 ≤ pid ∧ pid ≤ a + 1) ∧
    ∀ r, (s.proc r).state ≠ .UNUSED → (s.proc r).pid ≠ pid
  pending_once : ∀ p p' q q' pid, (s.proc p).context = .allocUsed q pid →
    (s.proc p').context = .allocUsed q' pid → p = p'

/-- The `fork()` calls that may still draw a pid. -/
def drawing (s : State n m L K) : Nat :=
  ∑ p, if (s.proc p).context.drawing then 1 else 0

variable [DecidableEq K] {s s' : State n m L K} {c : Fin m} {p q : Fin n} {dest : Point n L K}
  {t : Table n L K} {e : Option Event} {a : Nat}

theorem live_step (coh : s.Coherent) (stepped : s.Stepped c dest t e s')
    (live : (s'.proc q).state ≠ .UNUSED) :
    ((s.proc q).state ≠ .UNUSED ∧ (s'.proc q).pid = (s.proc q).pid) ∨
      ∃ p, (s.cpu c).thread = some p ∧ s.point c = .allocUsed q (s'.proc q).pid := by
  cases slot_step coh stepped q with
  | kept stage pid =>
    refine .inl ⟨fun before => live ?_, pid⟩
    rw [before] at stage
    revert stage
    cases (s'.proc q).state <;> decide
  | used p pid on here free state named => exact .inr ⟨p, on, by rw [here, named]⟩
  | forked p on here state pid => exact .inl ⟨state ▸ live, pid⟩
  | started p on here state pid =>
    rw [newborn_used coh on (by rw [here]; rfl)]
    exact .inl ⟨by decide, pid⟩
  | exits status on here ordinary state pid => exact .inl ⟨state ▸ live, pid⟩
  | orphaned p status on here child state pid => exact .inl ⟨state ▸ live, pid⟩
  | zombie status on here state pid => exact .inl ⟨(mover_runnable coh on).1, pid⟩
  | failed p on here state => exact absurd state live
  | reaped p addr on here zombie state => exact absurd state live

theorem numbered_step (coh : s.Coherent) (numbered : s.Numbered a)
    (room : a + (s.point c).draws + 1 ≤ intMax) (stepped : s.Stepped c dest t e s') :
    s'.Numbered (a + (s.point c).draws) := by
  have sound := coh.sound_point c
  have flow := stepped.flow
  -- a thread that comes to hold a pid has drawn the next one
  have drawn : ∀ {p q pid}, (s'.proc p).context = .allocUsed q pid →
      (s.proc p).context = .allocUsed q pid ∧ (s.cpu c).thread ≠ some p ∨
        (s.cpu c).thread = some p ∧ pid = a + 2 ∧ s.point c = .allocpidLocked q := by
    intro p q pid context
    by_cases on : (s.cpu c).thread = some p
    · rw [stepped.context_self on] at context
      subst context
      obtain ⟨here, rfl, -⟩ := flow.to_used sound
      rw [here] at room
      simp only [Point.draws, Nat.cast_one] at room
      refine .inr ⟨on, ?_, here⟩
      rw [numbered.counter, wrapInt_eq (by omega) (by omega)]
    · rcases stepped.context_of_ne coh on with same | ⟨new, -⟩
      · exact .inl ⟨same ▸ context, on⟩
      · rw [new] at context
        cases context
  constructor
  case counter =>
    rw [stepped.nextpid]
    rcases flow.nextpid with ⟨p, q, -, here, -, next⟩ | ⟨other, next⟩
    · rw [next, numbered.counter, wrapInt_succ, here]
      simp only [Point.draws]
      congr 1
    · rw [next, numbered.counter, Point.draws_eq other, Nat.add_zero]
  case range =>
    intro q live
    rcases live_step coh stepped live with ⟨before, pid⟩ | ⟨p, on, here⟩
    · have := numbered.range q before
      rw [pid]
      omega
    · rw [point_of_thread on] at here
      have := (numbered.pending p q _ here).1
      omega
  case distinct =>
    intro q r live live' same
    rcases live_step coh stepped live with ⟨before, pid⟩ | ⟨p, on, here⟩
    · rcases live_step coh stepped live' with ⟨before', pid'⟩ | ⟨p', on', here'⟩
      · exact numbered.distinct q r before before' (by rw [← pid, ← pid', same])
      · rw [point_of_thread on'] at here'
        exact absurd (by rw [← pid, same]) ((numbered.pending p' r _ here').2 q before)
    · rcases live_step coh stepped live' with ⟨before', pid'⟩ | ⟨p', on', here'⟩
      · rw [point_of_thread on] at here
        exact absurd (by rw [← pid', same]) ((numbered.pending p q _ here).2 r before')
      · rw [here] at here'
        cases here'
        rfl
  case pending =>
    intro p q pid context
    rcases drawn context with ⟨before, off⟩ | ⟨on, rfl, here⟩
    · obtain ⟨range, other⟩ := numbered.pending p q pid before
      refine ⟨by omega, fun r live => ?_⟩
      rcases live_step coh stepped live with ⟨before', pid'⟩ | ⟨p', on', here'⟩
      · rw [pid']
        exact other r before'
      · rintro rfl
        rw [point_of_thread on'] at here'
        exact off (numbered.pending_once p' p r q _ here' before ▸ on')
    · rw [here]
      refine ⟨by simp only [Point.draws]; omega, fun r live => ?_⟩
      rcases live_step coh stepped live with ⟨before', pid'⟩ | ⟨p', on', here'⟩
      · have := numbered.range r before'
        rw [pid']
        omega
      · rw [here] at here'
        cases here'
  case pending_once =>
    intro p p' q q' pid context context'
    rcases drawn context with ⟨before, -⟩ | ⟨on, rfl, -⟩
    · rcases drawn context' with ⟨before', -⟩ | ⟨on', rfl, -⟩
      · exact numbered.pending_once p p' q q' pid before before'
      · have := (numbered.pending p q _ before).1
        omega
    · rcases drawn context' with ⟨before', -⟩ | ⟨on', -, -⟩
      · have := (numbered.pending p' q' _ before').1
        omega
      · exact Option.some.inj (on.symm.trans on')

/-- A move that draws a pid ends the drawing of a `fork()`, which its call began. -/
theorem drawn_step (coh : s.Coherent) (stepped : s.Stepped c dest t e s') :
    (s.point c).draws + s'.drawing ≤ s.drawing + (e.toList.countP Event.isFork) := by
  have others : ∀ q, (s.cpu c).thread ≠ some q →
      (s'.proc q).context.drawing = (s.proc q).context.drawing := by
    intro q off
    rcases stepped.context_of_ne coh off with same | ⟨new, old | ⟨b, old⟩⟩
    · rw [same]
    · rw [new, old]
    · rw [new, old]
      rfl
  cases on : (s.cpu c).thread with
  | none =>
    have same : s'.drawing = s.drawing := by
      unfold State.drawing
      exact Finset.sum_congr rfl fun q _ => by rw [others q (by simp [on])]
    have quiet : (s.point c).draws = 0 := by
      refine Point.draws_eq fun q here => ?_
      have flow := stepped.flow
      rcases flow.nextpid with ⟨p, -, mover, -⟩ | ⟨other, -⟩
      · rw [on] at mover
        cases mover
      · exact other q here
    omega
  | some p =>
    have update : (fun q => (s'.proc q).context.drawing) =
        Function.update (fun q => (s.proc q).context.drawing) p dest.drawing := by
      funext q
      by_cases same : q = p
      · subst same
        rw [Function.update_self, stepped.context_self on]
      · rw [Function.update_of_ne same]
        exact others q (by rw [on]; exact fun also => same (Option.some.inj also).symm)
    have sum := sum_update (Finset.mem_univ p) (fun q => (s.proc q).context.drawing) dest.drawing
      (fun _ drawing => if drawing then 1 else 0)
    rw [← update] at sum
    have flow := stepped.flow
    have drew := (s.point c).draws_le
    rw [point_of_thread on] at flow drew ⊢
    change s'.drawing + _ = s.drawing + _ at sum
    cases drawing : dest.drawing with
    | true =>
      obtain ⟨draws, before | called⟩ := flow.drawing drawing
      · simp only [before, drawing] at sum
        omega
      · simp only [drawing, if_true] at sum
        omega
    | false =>
      simp only [drawing, Bool.false_eq_true, if_false] at sum
      omega

end State

end Sistemas.Xv6.Process
