import Mathlib.Algebra.BigOperators.Fin
import Sistemas.Data.Counting
import Sistemas.Xv6.LogOps

/-! # Group commit

What the log is for, without locks and program counters: operations join a group, log their
blocks and leave; the last one to leave commits the group's blocks, and nobody joins while it
does (`View.Step`).  Every move of the log is such a step, or changes nothing that matters here
(`step_refines`).

The invariants are kept by the steps of the abstract system: the number of operations in
progress is counted right and excludes a commit (`Counted`), and what has been logged is
installed by the commit of its group (`Recorded`).
-/

namespace Sistemas.Xv6.LogOps

open Sistemas.Transition

variable {n : Nat}

/-! ## The abstract system -/

inductive Stage where
  -- how many blocks have been installed
  | installed (tail : Nat)
  | all
  | cleared
  deriving DecidableEq

inductive Phase where
  | outside
  | active (op : Op)
  -- in `end_op`
  | ending (op : Op)
  | committing (stage : Stage)
  deriving DecidableEq

def Pc.phase : Pc → Phase
  | .idle | .beginAcquire | .beginLocked | .sleeping => .outside
  | .inOp op | .writeAcquire op _ | .writeLocked op _ => .active op
  | .endAcquire op | .endLocked op => .ending op
  | .commit | .writeLog _ | .writeHead => .committing (.installed 0)
  | .installTrans tail => .committing (.installed tail)
  | .clearHead => .committing .all
  | .doneAcquire | .doneLocked => .committing .cleared

@[ext] structure View (n : Nat) where
  phaseOf : Fin n → Phase
  outstanding : Int
  committing : Bool
  block : List Nat
  panicked : Option Panic
  ops : Nat
  commits : Nat

namespace View

def goto (v : View n) (p : Fin n) (phase : Phase) : View n :=
  { v with phaseOf := Function.update v.phaseOf p phase }

def join (v : View n) (p : Fin n) : View n :=
  { v.goto p (.active { id := v.ops, logged := [] }) with
    outstanding := v.outstanding + 1
    ops := v.ops + 1 }

def write (v : View n) (p : Fin n) (op : Op) (b : Nat) : View n :=
  { v.goto p (.active { op with logged := op.logged.insert b }) with
    block := if b ∈ v.block then v.block else v.block ++ [b] }

inductive Step (size : Nat) (v : View n) (p : Fin n) : Option Event → View n → Prop where
  | silent : Step size v p none v
  | join (here : v.phaseOf p = .outside) (free : v.committing = false)
      (room : v.block.length + (v.outstanding + 1) * maxOpBlocks ≤ logSize) :
      Step size v p none (v.join p)
  | write (op : Op) (b : Nat) (here : v.phaseOf p = .active op)
      (small : v.block.length < logSize ∧ (v.block.length : Int) < size - 1) :
      Step size v p (some (.wrote op.id b v.commits)) (v.write p op b)
  | ending (op : Op) (here : v.phaseOf p = .active op) :
      Step size v p (some (.ended op.id)) (v.goto p (.ending op))
  | leave (op : Op) (here : v.phaseOf p = .ending op) (free : v.committing = false)
      (others : v.outstanding - 1 ≠ 0) :
      Step size v p none { v.goto p .outside with outstanding := v.outstanding - 1 }
  | start (op : Op) (here : v.phaseOf p = .ending op) (free : v.committing = false)
      (last : v.outstanding - 1 = 0) :
      Step size v p none
        { v.goto p (.committing (.installed 0)) with outstanding := 0, committing := true }
  | skip (here : v.phaseOf p = .committing (.installed 0)) (empty : v.block = []) :
      Step size v p none (v.goto p (.committing .cleared))
  | install (tail b : Nat) (here : v.phaseOf p = .committing (.installed tail))
      (next : v.block[tail]? = some b) :
      Step size v p (some (.installed b v.commits)) (v.goto p (.committing (.installed (tail + 1))))
  | installed (tail : Nat) (here : v.phaseOf p = .committing (.installed tail))
      (none_left : v.block.length ≤ tail) :
      Step size v p none (v.goto p (.committing .all))
  | clear (here : v.phaseOf p = .committing .all) :
      Step size v p none { v.goto p (.committing .cleared) with block := [] }
  | done (here : v.phaseOf p = .committing .cleared) :
      Step size v p none
        { v.goto p .outside with committing := false, commits := v.commits + 1 }
  | tooBig (op : Op) (here : v.phaseOf p = .active op)
      (big : v.block.length ≥ logSize ∨ (v.block.length : Int) ≥ size - 1) :
      Step size v p none { v with panicked := some .tooBig }
  | outsideOfTrans (op : Op) (here : v.phaseOf p = .active op) (none_in : v.outstanding < 1) :
      Step size v p none { v with panicked := some .outsideOfTrans }
  | whileCommitting (op : Op) (here : v.phaseOf p = .ending op) (busy : v.committing = true) :
      Step size v p none
        { v with outstanding := v.outstanding - 1, panicked := some .committing }

theorem Step.of_eq {size : Nat} {v v' w : View n} {p : Fin n} {e : Option Event}
    (h : Step size v p e v') (same : w = v') : Step size v p e w := same ▸ h

end View

/-! ## Refinement -/

namespace State

def view (s : State n) : View n where
  phaseOf p := (s.pcs p).phase
  outstanding := s.outstanding
  committing := s.committing
  block := s.block
  panicked := s.panicked
  ops := s.ops
  commits := s.commits

variable (s : State n) (p : Fin n)

theorem phase_update (pcs : Fin n → Pc) (pc : Pc) :
    (fun q => (Function.update pcs p pc q).phase) =
      Function.update (fun q => (pcs q).phase) p pc.phase := by
  funext q
  by_cases here : q = p
  · subst here; simp
  · simp [here]

/-- A move within a phase. -/
theorem view_goto_same {pc : Pc} (same : pc.phase = (s.pcs p).phase) :
    (s.goto p pc).view = s.view := by
  simp only [view, goto, phase_update, same, View.mk.injEq, and_true]
  exact Function.update_eq_self _ _

@[simp] theorem view_release : s.release.view = s.view := rfl

@[simp] theorem view_wakeup : s.wakeup.view = s.view := by
  simp only [view, wakeup, View.mk.injEq, and_true]
  funext q
  split
  next asleep => rw [asleep]; rfl
  next => rfl

theorem view_acquire {s' : State n} {pc : Pc} (same : pc.phase = (s.pcs p).phase)
    (h : s.acquire p pc = some s') : s'.view = s.view := by
  rw [acquire] at h
  split at h
  · obtain rfl := Option.some.inj h
    exact s.view_goto_same p same
  · cases h

variable {s p} {size : Nat}

theorem beginOp_refines (here : s.pcs p = .beginLocked) :
    View.Step size s.view p none (s.beginOp p).view := by
  have outside : s.view.phaseOf p = .outside := congrArg Pc.phase here
  rw [beginOp]
  split
  next =>
    rw [view_release, view_goto_same _ _ (by rw [here]; rfl)]
    exact .silent
  next admitted =>
    simp only [Bool.or_eq_true, decide_eq_true_eq, not_or, Bool.not_eq_true, not_lt] at admitted
    exact (View.Step.join outside admitted.1 admitted.2).of_eq
      (View.ext (phase_update p s.pcs _) rfl rfl rfl rfl rfl rfl)

theorem logWrite_refines {op : Op} {b : Nat} (running : s.panicked = none)
    (here : s.pcs p = .writeLocked op b) :
    View.Step size s.view p
      (if (s.logWrite size p op b).panicked = none then some (.wrote op.id b s.commits) else none)
      (s.logWrite size p op b).view := by
  have active : s.view.phaseOf p = .active op := congrArg Pc.phase here
  rw [logWrite]
  split
  next big =>
    rw [if_neg (by simp [panic])]
    exact .tooBig op active big
  next small =>
    split
    next none_in =>
      rw [if_neg (by simp [panic])]
      exact .outsideOfTrans op active none_in
    next =>
      rw [if_pos (by simpa [release, goto] using running)]
      simp only [not_or, not_le, ge_iff_le] at small
      exact (View.Step.write op b active small).of_eq
        (View.ext (phase_update p s.pcs _) rfl rfl rfl rfl rfl rfl)

theorem endOp_refines {op : Op} (here : s.pcs p = .endLocked op) :
    View.Step size s.view p none (s.endOp p).view := by
  have ending : s.view.phaseOf p = .ending op := congrArg Pc.phase here
  simp only [endOp]
  split
  next busy => exact .whileCommitting op ending busy
  next free =>
    simp only [Bool.not_eq_true] at free
    split
    next last =>
      exact (View.Step.start op ending free last).of_eq
        (View.ext (phase_update p s.pcs _) last rfl rfl rfl rfl rfl)
    next others =>
      rw [view_release, view_wakeup]
      exact (View.Step.leave op ending free others).of_eq
        (View.ext (phase_update p s.pcs _) rfl rfl rfl rfl rfl rfl)

/-- A move that goes on in the same phase. -/
theorem silent_of_view {s' : State n} (same : s'.view = s.view) :
    View.Step size s.view p none s'.view := View.Step.silent.of_eq same

theorem run_refines {s' : State n} (running : s.panicked = none) (h : s.run size p = some s') :
    View.Step size s.view p (obs size s (p, .run)) s'.view := by
  cases here : s.pcs p with
  | idle => simp [run, here] at h
  | beginAcquire =>
    simp only [run, obs, here] at h ⊢
    exact silent_of_view (s.view_acquire p (by rw [here]; rfl) h)
  | beginLocked =>
    simp only [run, obs, here, Option.some.injEq] at h ⊢
    exact h ▸ beginOp_refines here
  | sleeping => simp [run, here] at h
  | inOp op => simp [run, here] at h
  | writeAcquire op b =>
    simp only [run, obs, here] at h ⊢
    exact silent_of_view (s.view_acquire p (by rw [here]; rfl) h)
  | writeLocked op b =>
    simp only [run, obs, here, Option.some.injEq] at h ⊢
    exact h ▸ logWrite_refines running here
  | endAcquire op =>
    simp only [run, obs, here] at h ⊢
    exact silent_of_view (s.view_acquire p (by rw [here]; rfl) h)
  | endLocked op =>
    simp only [run, obs, here, Option.some.injEq] at h ⊢
    exact h ▸ endOp_refines here
  | commit =>
    simp only [run, obs, here, Option.some.injEq] at h ⊢
    subst h
    split
    next => exact silent_of_view (s.view_goto_same p (by rw [here]; rfl))
    next empty =>
      have phase : s.view.phaseOf p = .committing (.installed 0) := congrArg Pc.phase here
      have none_logged : s.view.block = [] := List.length_eq_zero_iff.mp (Nat.eq_zero_of_not_pos empty)
      exact (View.Step.skip phase none_logged).of_eq
        (View.ext (phase_update p s.pcs _) rfl rfl rfl rfl rfl rfl)
  | writeLog tail =>
    simp only [run, obs, here, Option.some.injEq] at h ⊢
    subst h
    refine silent_of_view (s.view_goto_same p ?_)
    rw [here]
    split <;> rfl
  | writeHead =>
    simp only [run, obs, here, Option.some.injEq] at h ⊢
    subst h
    exact silent_of_view (s.view_goto_same p (by rw [here]; rfl))
  | installTrans tail =>
    simp only [run, obs, here, Option.some.injEq] at h ⊢
    subst h
    have phase : s.view.phaseOf p = .committing (.installed tail) := congrArg Pc.phase here
    split
    next inside =>
      have next : s.view.block[tail]? = some s.block[tail] := List.getElem?_eq_getElem inside
      rw [List.getElem?_eq_getElem inside]
      exact (View.Step.install tail _ phase next).of_eq
        (View.ext (phase_update p s.pcs _) rfl rfl rfl rfl rfl rfl)
    next ended =>
      have none_left : s.view.block.length ≤ tail := Nat.le_of_not_lt ended
      rw [List.getElem?_eq_none (Nat.le_of_not_lt ended)]
      exact (View.Step.installed tail phase none_left).of_eq
        (View.ext (phase_update p s.pcs _) rfl rfl rfl rfl rfl rfl)
  | clearHead =>
    simp only [run, obs, here, Option.some.injEq] at h ⊢
    subst h
    have phase : s.view.phaseOf p = .committing .all := congrArg Pc.phase here
    exact (View.Step.clear phase).of_eq
      (View.ext (phase_update p s.pcs _) rfl rfl rfl rfl rfl rfl)
  | doneAcquire =>
    simp only [run, obs, here] at h ⊢
    exact silent_of_view (s.view_acquire p (by rw [here]; rfl) h)
  | doneLocked =>
    simp only [run, obs, here, Option.some.injEq] at h ⊢
    subst h
    rw [view_release, view_wakeup]
    have phase : s.view.phaseOf p = .committing .cleared := congrArg Pc.phase here
    exact (View.Step.done phase).of_eq
      (View.ext (phase_update p s.pcs _) rfl rfl rfl rfl rfl rfl)

end State

/-- Every move of the log is a step of the abstract system. -/
theorem step_refines {size : Nat} {s s' : State n} {l : Fin n × Act}
    (h : step size s l = some s') : View.Step size s.view l.1 (obs size s l) s'.view := by
  obtain ⟨p, act⟩ := l
  rw [step] at h
  split at h
  next running =>
    cases act with
    | run => exact State.run_refines running h
    | beginOp =>
      simp only [State.act] at h
      split at h
      next here =>
        obtain rfl := Option.some.inj h
        simp only [obs, here]
        exact State.silent_of_view (s.view_goto_same p (by rw [here]; rfl))
      next => cases h
    | kill =>
      simp only [State.act] at h
      split at h
      next here =>
        obtain rfl := Option.some.inj h
        simp only [obs, here]
        exact State.silent_of_view (s.view_goto_same p (by rw [here]; rfl))
      next => cases h
    | logWrite b =>
      simp only [State.act] at h
      split at h
      next op here =>
        obtain rfl := Option.some.inj h
        simp only [obs, here]
        exact State.silent_of_view (s.view_goto_same p (by rw [here]; rfl))
      next => cases h
    | endOp =>
      simp only [State.act] at h
      split at h
      next op here =>
        obtain rfl := Option.some.inj h
        have phase : s.view.phaseOf p = .active op := congrArg Pc.phase here
        simp only [obs, here]
        exact (View.Step.ending op phase).of_eq
          (View.ext (State.phase_update p s.pcs _) rfl rfl rfl rfl rfl rfl)
      next => cases h
  next => cases h

/-! ## Counting the operations -/

inductive Kind where
  | outside
  | member
  | committer
  deriving DecidableEq

def Phase.kind : Phase → Kind
  | .outside => .outside
  | .active _ | .ending _ => .member
  | .committing _ => .committer

namespace View

variable {v v' : View n} {p : Fin n} {size : Nat} {e : Option Event}

def kindOf (v : View n) (p : Fin n) : Kind := (v.phaseOf p).kind

theorem kindOf_goto (phase : Phase) :
    (v.goto p phase).kindOf = Function.update v.kindOf p phase.kind := by
  funext q
  by_cases here : q = p
  · subst here; simp [kindOf, goto]
  · simp [kindOf, goto, here]

/-- How many processes are in an operation. -/
def members (kinds : Fin n → Kind) : Nat := ∑ p, if kinds p = .member then 1 else 0

theorem members_update (kinds : Fin n → Kind) (p : Fin n) (kind : Kind) :
    members (Function.update kinds p kind) + (if kinds p = .member then 1 else 0) =
      members kinds + if kind = .member then 1 else 0 :=
  sum_update (Finset.mem_univ p) kinds kind fun _ k => if k = .member then 1 else 0

theorem members_pos {kinds : Fin n → Kind} (here : kinds p = .member) : 0 < members kinds := by
  have := members_update kinds p .outside
  simp only [here, if_true, reduceCtorEq, if_false] at this
  omega

theorem not_member_of_zero {kinds : Fin n → Kind} (none_in : members kinds = 0) (p : Fin n) :
    kinds p ≠ .member := by
  intro here
  have := members_pos here
  omega

structure Counted (v : View n) : Prop where
  outstanding_eq : v.outstanding = members v.kindOf
  exclusive : v.committing = true → v.outstanding = 0
  committing_of : ∀ p, v.kindOf p = .committer → v.committing = true
  unique : ∀ p q, v.kindOf p = .committer → v.kindOf q = .committer → p = q
  panics : v.panicked ≠ some .committing ∧ v.panicked ≠ some .outsideOfTrans

namespace Counted

theorem outstanding_pos (counted : Counted v) (here : v.kindOf p = .member) :
    0 < v.outstanding := by
  have := members_pos here
  rw [counted.outstanding_eq]
  omega

/-- An operation in progress excludes a commit. -/
theorem free (counted : Counted v) (here : v.kindOf p = .member) : v.committing = false := by
  have positive := counted.outstanding_pos here
  cases busy : v.committing with
  | false => rfl
  | true => have := counted.exclusive busy; omega

/-- A step in which nobody joins or leaves. -/
theorem of_kinds (counted : Counted v) (kinds : v'.kindOf = v.kindOf)
    (outstanding : v'.outstanding = v.outstanding) (committing : v'.committing = v.committing)
    (panics : v'.panicked ≠ some .committing ∧ v'.panicked ≠ some .outsideOfTrans) :
    Counted v' where
  outstanding_eq := by rw [outstanding, kinds]; exact counted.outstanding_eq
  exclusive := by rw [outstanding, committing]; exact counted.exclusive
  committing_of := by rw [kinds, committing]; exact counted.committing_of
  unique := by rw [kinds]; exact counted.unique
  panics := panics

/-- A step without a commit: nobody was committing, and nobody starts to. -/
theorem of_free (counted : Counted v) (free : v.committing = false) {kind : Kind}
    (plain : kind ≠ .committer) (kinds : v'.kindOf = Function.update v.kindOf p kind)
    (outstanding : v'.outstanding = members v'.kindOf) (committing : v'.committing = false)
    (panicked : v'.panicked = v.panicked) : Counted v' := by
  have nobody : ∀ q, v'.kindOf q ≠ .committer := by
    intro q
    rw [kinds, Function.update_apply]
    split
    · exact plain
    · intro busy
      have := counted.committing_of q busy
      rw [free] at this
      cases this
  exact ⟨outstanding, by simp [committing], fun q busy => absurd busy (nobody q),
    fun q _ busy => absurd busy (nobody q), panicked ▸ counted.panics⟩

theorem kinds_goto {phase : Phase} (same : phase.kind = v.kindOf p) :
    (v.goto p phase).kindOf = v.kindOf := by
  rw [kindOf_goto, same, Function.update_eq_self]

theorem step (counted : Counted v) (h : Step size v p e v') : Counted v' := by
  cases h with
  | silent => exact counted
  | write op b here small =>
    have same : (v.goto p (.active { op with logged := op.logged.insert b })).kindOf = v.kindOf :=
      kinds_goto (by rw [kindOf, here]; rfl)
    exact counted.of_kinds same rfl rfl counted.panics
  | ending op here =>
    exact counted.of_kinds (kinds_goto (by rw [kindOf, here]; rfl)) rfl rfl counted.panics
  | skip here empty =>
    exact counted.of_kinds (kinds_goto (by rw [kindOf, here]; rfl)) rfl rfl counted.panics
  | install tail b here next =>
    exact counted.of_kinds (kinds_goto (by rw [kindOf, here]; rfl)) rfl rfl counted.panics
  | installed tail here none_left =>
    exact counted.of_kinds (kinds_goto (by rw [kindOf, here]; rfl)) rfl rfl counted.panics
  | clear here =>
    have same : (v.goto p (.committing .cleared)).kindOf = v.kindOf :=
      kinds_goto (by rw [kindOf, here]; rfl)
    exact counted.of_kinds same rfl rfl counted.panics
  | tooBig op here big => exact counted.of_kinds rfl rfl rfl (by simp)
  | outsideOfTrans op here none_in =>
    have := counted.outstanding_pos (p := p) (by rw [kindOf, here]; rfl)
    omega
  | whileCommitting op here busy =>
    have := counted.free (p := p) (by rw [kindOf, here]; rfl)
    rw [busy] at this
    cases this
  | join here free room =>
    have outside : v.kindOf p = .outside := by rw [kindOf, here]; rfl
    have kinds : (v.join p).kindOf = Function.update v.kindOf p .member := kindOf_goto _
    refine counted.of_free free (by decide) kinds ?_ free rfl
    have count := members_update v.kindOf p .member
    simp only [outside, reduceCtorEq, if_false, if_true] at count
    rw [kinds, View.join]
    simp only [counted.outstanding_eq]
    omega
  | leave op here free others =>
    have member : v.kindOf p = .member := by rw [kindOf, here]; rfl
    have kinds : (v.goto p .outside).kindOf = Function.update v.kindOf p .outside := kindOf_goto _
    refine counted.of_free free (by decide) kinds ?_ free rfl
    have count := members_update v.kindOf p .outside
    simp only [member, reduceCtorEq, if_false, if_true] at count
    rw [show View.kindOf { v.goto p .outside with outstanding := v.outstanding - 1 } = _ from kinds]
    simp only [counted.outstanding_eq]
    omega
  | start op here free last =>
    have member : v.kindOf p = .member := by rw [kindOf, here]; rfl
    have kinds : (v.goto p (.committing (.installed 0))).kindOf =
        Function.update v.kindOf p .committer := kindOf_goto _
    have count := members_update v.kindOf p .committer
    simp only [member, reduceCtorEq, if_false, if_true] at count
    have alone : ∀ q, Function.update v.kindOf p .committer q = .committer → q = p := by
      intro q busy
      by_contra other
      rw [Function.update_of_ne other] at busy
      have := counted.committing_of q busy
      rw [free] at this
      cases this
    refine ⟨?_, fun _ => rfl, fun _ _ => rfl, ?_, counted.panics⟩
    · rw [show View.kindOf { v.goto p (.committing (.installed 0)) with
        outstanding := 0, committing := true } = _ from kinds]
      have := counted.outstanding_eq
      simp only
      omega
    · intro q r busy busy'
      exact (alone q (kinds ▸ busy)).trans (alone r (kinds ▸ busy')).symm
  | done here =>
    have committer : v.kindOf p = .committer := by rw [kindOf, here]; rfl
    have kinds : (v.goto p .outside).kindOf = Function.update v.kindOf p .outside := kindOf_goto _
    have count := members_update v.kindOf p .outside
    simp only [committer, reduceCtorEq, if_false] at count
    have nobody : ∀ q, Function.update v.kindOf p .outside q ≠ .committer := by
      intro q busy
      by_cases here : q = p
      · subst here; simp at busy
      · rw [Function.update_of_ne here] at busy
        exact here (counted.unique q p busy committer)
    refine ⟨?_, by simp, fun q busy => absurd (kinds ▸ busy) (nobody q),
      fun q _ busy => absurd (kinds ▸ busy) (nobody q), counted.panics⟩
    rw [show View.kindOf { v.goto p .outside with
      committing := false, commits := v.commits + 1 } = _ from kinds]
    have := counted.outstanding_eq
    simp only [goto]
    omega

end Counted

/-! ## What the events say -/

/-- The operation is in progress, or in `end_op`. -/
def Running (v : View n) (o : Nat) : Prop :=
  ∃ p op, (v.phaseOf p = .active op ∨ v.phaseOf p = .ending op) ∧ op.id = o

/-- The operation has not called `end_op`. -/
def Active (v : View n) (o : Nat) : Prop := ∃ p op, v.phaseOf p = .active op ∧ op.id = o

/-- Only the process that moves changes its phase. -/
theorem phaseOf_of_ne (h : Step size v p e v') {q : Fin n} (other : q ≠ p) :
    v'.phaseOf q = v.phaseOf q := by
  cases h <;> simp [join, write, goto, other]

theorem Running.of_step {o : Nat} (h : Step size v p e v') (running : v'.Running o) :
    v.Running o ∨ o = v.ops ∧ v'.ops = v.ops + 1 := by
  obtain ⟨q, op, here, rfl⟩ := running
  by_cases moved : q = p
  · subst moved
    cases h <;> simp_all [join, write, goto, Running] <;> grind
  · rw [phaseOf_of_ne h moved] at here
    exact .inl ⟨q, op, here, rfl⟩

theorem Active.step {o : Nat} (h : Step size v p e v') (active : v.Active o) :
    v'.Active o ∨ e = some (.ended o) := by
  obtain ⟨q, op, here, rfl⟩ := active
  by_cases moved : q = p
  · subst moved
    cases h with
    | silent => exact .inl ⟨q, op, here, rfl⟩
    | tooBig => exact .inl ⟨q, op, here, rfl⟩
    | outsideOfTrans => exact .inl ⟨q, op, here, rfl⟩
    | write op' b here' small =>
      obtain rfl : op' = op := by simpa [here] using here'.symm
      exact .inl ⟨q, _, Function.update_self _ _ _, rfl⟩
    | ending op' here' =>
      obtain rfl : op' = op := by simpa [here] using here'.symm
      exact .inr rfl
    | _ => simp_all
  · rw [← phaseOf_of_ne h moved] at here
    exact .inl ⟨q, op, here, rfl⟩

/-- Nobody is in an operation while a commit runs. -/
theorem Counted.not_running (counted : Counted v) (busy : v.committing = true) (o : Nat) :
    ¬ v.Running o := by
  rintro ⟨p, op, here, rfl⟩
  have member : v.kindOf p = .member := by
    obtain here | here := here
    · rw [kindOf, here]; rfl
    · rw [kindOf, here]; rfl
  have := counted.free member
  rw [busy] at this
  cases this

theorem Active.running {o : Nat} (active : v.Active o) : v.Running o := by
  obtain ⟨p, op, here, rfl⟩ := active
  exact ⟨p, op, .inl here, rfl⟩

/-- The operations and the commits they write for. -/
structure Grouped (es : List Event) (v : View n) : Prop where
  begun : ∀ o b c, .wrote o b c ∈ es → o < v.ops ∧ c ≤ v.commits
  running : ∀ o, v.Running o → o < v.ops
  current : ∀ o b c, .wrote o b c ∈ es → v.Running o → c = v.commits
  same : ∀ o b c b' c', .wrote o b c ∈ es → .wrote o b' c' ∈ es → c = c'

theorem Grouped.step {es : List Event} (counted : Counted v) (grouped : Grouped es v)
    (h : Step size v p e v') : Grouped (es ++ e.toList) v' := by
  have runs := fun o => Running.of_step (o := o) h
  have begun := grouped.begun
  have running := grouped.running
  have current := grouped.current
  have same := grouped.same
  cases h with
  | write op b here small =>
    have writer : v.Running op.id := ⟨p, op, .inl here, rfl⟩
    constructor <;> grind [View.write, View.goto]
  | done here =>
    have nobody := counted.not_running (counted.committing_of p (by rw [kindOf, here]; rfl))
    constructor <;> grind [View.goto]
  | _ => constructor <;> grind [View.goto, View.join]

/-- The operations that a commit takes have ended. -/
structure Sealed (es : List Event) (v : View n) : Prop where
  ended : ∀ o b c, .wrote o b c ∈ es → .ended o ∈ es ∨ v.Active o
  closed : ∀ b c, .installed b c ∈ es → c < v.commits ∨ c = v.commits ∧ v.committing = true
  installs_ended : ∀ b c o b', .installed b c ∈ es → .wrote o b' c ∈ es → .ended o ∈ es

theorem Sealed.step {es : List Event} (counted : Counted v) (sealed : Sealed es v)
    (h : Step size v p e v') : Sealed (es ++ e.toList) v' := by
  have goes := fun o => Active.step (o := o) h
  have ended := sealed.ended
  have closed := sealed.closed
  have installs_ended := sealed.installs_ended
  cases h with
  | write op b here small =>
    have free : v.committing = false := counted.free (p := p) (by rw [kindOf, here]; rfl)
    have writer : (v.write p op b).Active op.id := ⟨p, _, Function.update_self _ _ _, rfl⟩
    constructor <;> grind [View.write, View.goto]
  | install tail b here next =>
    have busy := counted.committing_of p (by rw [kindOf, here]; rfl)
    have nobody := fun o active => counted.not_running busy o (Active.running active)
    constructor <;> grind [View.goto]
  | _ => constructor <;> grind [View.goto, View.join]

/-- What has been logged is installed, and nothing else. -/
structure Recorded (es : List Event) (v : View n) : Prop where
  past : ∀ o b c, .wrote o b c ∈ es → c < v.commits → .installed b c ∈ es
  pending : ∀ o b, .wrote o b v.commits ∈ es → b ∈ v.block ∨ .installed b v.commits ∈ es
  progress : ∀ p tail, v.phaseOf p = .committing (.installed tail) →
    ∀ i b, i < tail → v.block[i]? = some b → .installed b v.commits ∈ es
  complete : ∀ p, v.phaseOf p = .committing .all → ∀ b ∈ v.block, .installed b v.commits ∈ es
  cleared : ∀ p, v.phaseOf p = .committing .cleared → v.block = []
  logged : ∀ b ∈ v.block, ∃ o, .wrote o b v.commits ∈ es
  source : ∀ b c, .installed b c ∈ es → ∃ o, .wrote o b c ∈ es

/-- Nobody commits while an operation is in progress. -/
theorem Counted.not_committing (counted : Counted v) (here : v.kindOf p = .member) (q : Fin n)
    (stage : Stage) : v.phaseOf q ≠ .committing stage := by
  intro busy
  have free := counted.free here
  rw [counted.committing_of q (by rw [kindOf, busy]; rfl)] at free
  cases free

theorem phaseOf_goto (phase : Phase) (q : Fin n) :
    (v.goto p phase).phaseOf q = if q = p then phase else v.phaseOf q :=
  Function.update_apply _ _ _ _

theorem Recorded.write {es : List Event} {op : Op} {b : Nat} (counted : Counted v)
    (recorded : Recorded es v) (here : v.phaseOf p = .active op) :
    Recorded (es ++ [.wrote op.id b v.commits]) (v.write p op b) := by
  obtain ⟨past, pending, progress, complete, cleared, logged, source⟩ := recorded
  have nobody : ∀ q stage, (v.write p op b).phaseOf q ≠ .committing stage := by
    intro q stage
    rw [View.write, phaseOf_goto]
    split
    · simp
    · exact counted.not_committing (p := p) (by rw [kindOf, here]; rfl) q stage
  have block : ∀ x, x ∈ (v.write p op b).block ↔ x ∈ v.block ∨ x = b := by
    intro x
    simp only [View.write]
    split <;> grind
  have commits : (v.write p op b).commits = v.commits := rfl
  refine ⟨?_, ?_, fun q tail busy => absurd busy (nobody q _), fun q busy => absurd busy (nobody q _),
    fun q busy => absurd busy (nobody q _), ?_, ?_⟩
  · grind
  · grind
  · grind
  · grind

/-- A step that logs, installs and clears nothing. -/
theorem Recorded.of_stages {es : List Event} (recorded : Recorded es v)
    (quiet : ∀ o b c, e ≠ some (.wrote o b c) ∧ e ≠ some (.installed b c))
    (block : v'.block = v.block) (commits : v'.commits = v.commits)
    (stages : ∀ q stage, v'.phaseOf q = .committing stage →
      v.phaseOf q = .committing stage ∨ stage = .installed 0) :
    Recorded (es ++ e.toList) v' := by
  have wrote : ∀ o b c, .wrote o b c ∈ es ++ e.toList ↔ .wrote o b c ∈ es := by
    intro o b c
    simp [(quiet o b c).1]
  have installed : ∀ b c, .installed b c ∈ es ++ e.toList ↔ .installed b c ∈ es := by
    intro b c
    simp [(quiet 0 b c).2]
  refine ⟨?_, ?_, ?_, ?_, ?_, ?_, ?_⟩
  · simp only [wrote, installed, commits]; exact recorded.past
  · simp only [wrote, installed, commits, block]; exact recorded.pending
  · simp only [installed, commits, block]
    intro q tail here i b lt found
    obtain before | fresh := stages q _ here
    · exact recorded.progress q tail before i b lt found
    · cases fresh; omega
  · simp only [installed, commits, block]
    intro q here
    exact recorded.complete q ((stages q _ here).resolve_right (by simp))
  · simp only [block]
    intro q here
    exact recorded.cleared q ((stages q _ here).resolve_right (by simp))
  · simp only [wrote, commits, block]; exact recorded.logged
  · simp only [wrote, installed]; exact recorded.source

theorem stages_goto {phase : Phase} (plain : ∀ stage, phase = .committing stage → stage = .installed 0)
    (q : Fin n) (stage : Stage) (here : (v.goto p phase).phaseOf q = .committing stage) :
    v.phaseOf q = .committing stage ∨ stage = .installed 0 := by
  rw [phaseOf_goto] at here
  split at here
  · exact .inr (plain stage here)
  · exact .inl here

/-- The next stage of the only process that commits. -/
theorem Counted.stage_goto (counted : Counted v) {stage stage' : Stage}
    (here : v.phaseOf p = .committing stage) (q : Fin n) {now : Stage}
    (busy : (v.goto p (.committing stage')).phaseOf q = .committing now) : now = stage' := by
  rw [phaseOf_goto] at busy
  split at busy
  next => simpa using busy.symm
  next other =>
    exact absurd (counted.unique q p (by rw [kindOf, busy]; rfl) (by rw [kindOf, here]; rfl)) other

theorem Recorded.step {es : List Event} (counted : Counted v) (grouped : Grouped es v)
    (recorded : Recorded es v) (h : Step size v p e v') : Recorded (es ++ e.toList) v' := by
  cases h with
  | write op b here small => exact recorded.write counted here
  | silent => exact recorded.of_stages (by simp) rfl rfl fun q stage here => .inl here
  | join here free room =>
    exact recorded.of_stages (by simp) rfl rfl (stages_goto (by simp))
  | ending op here => exact recorded.of_stages (by simp) rfl rfl (stages_goto (by simp))
  | leave op here free others =>
    exact recorded.of_stages (by simp) rfl rfl (stages_goto (by simp))
  | start op here free last =>
    exact recorded.of_stages (by simp) rfl rfl (stages_goto (by simp))
  | tooBig => exact recorded.of_stages (by simp) rfl rfl fun q stage here => .inl here
  | outsideOfTrans => exact recorded.of_stages (by simp) rfl rfl fun q stage here => .inl here
  | whileCommitting => exact recorded.of_stages (by simp) rfl rfl fun q stage here => .inl here
  | skip here empty =>
    have stage : ∀ q now, (v.goto p (.committing .cleared)).phaseOf q = .committing now →
        now = .cleared := fun q _ => counted.stage_goto here q
    simp only [Option.toList_none, List.append_nil]
    exact ⟨recorded.past, recorded.pending, fun q _ busy => (by cases stage q _ busy),
      fun q busy => (by cases stage q _ busy), fun _ _ => empty, recorded.logged, recorded.source⟩
  | install tail b here next =>
    have stage : ∀ q now, (v.goto p (.committing (.installed (tail + 1)))).phaseOf q = .committing now →
        now = .installed (tail + 1) := fun q _ => counted.stage_goto here q
    have kept : ∀ e' ∈ es, e' ∈ es ++ (some (Event.installed b v.commits)).toList :=
      fun _ => List.mem_append_left _
    have new : Event.installed b v.commits ∈ es ++ (some (Event.installed b v.commits)).toList := by
      simp
    have wrote : ∀ o x c, .wrote o x c ∈ es ++ (some (Event.installed b v.commits)).toList →
        .wrote o x c ∈ es := by
      intro o x c mem
      simpa using mem
    refine ⟨?_, ?_, ?_, fun q busy => (by cases stage q _ busy), fun q busy => (by cases stage q _ busy),
      ?_, ?_⟩
    · intro o x c mem lt
      exact kept _ (recorded.past o x c (wrote o x c mem) lt)
    · intro o x mem
      exact (recorded.pending o x (wrote _ _ _ mem)).imp_right (kept _)
    · intro q t busy i x lt found
      obtain rfl : t = tail + 1 := by simpa using stage q _ busy
      obtain before | rfl : i < tail ∨ i = tail := by omega
      · exact kept _ (recorded.progress p tail here i x before found)
      · obtain rfl : b = x := Option.some.inj (next.symm.trans found)
        exact new
    · intro x mem
      obtain ⟨o, source⟩ := recorded.logged x mem
      exact ⟨o, kept _ source⟩
    · intro x c mem
      simp only [Option.toList_some, List.mem_append, List.mem_singleton, Event.installed.injEq] at mem
      obtain mem | ⟨rfl, rfl⟩ := mem
      · obtain ⟨o, source⟩ := recorded.source x c mem
        exact ⟨o, kept _ source⟩
      · obtain ⟨o, source⟩ := recorded.logged x (List.mem_of_getElem? next)
        exact ⟨o, kept _ source⟩
  | installed tail here none_left =>
    have stage : ∀ q now, (v.goto p (.committing .all)).phaseOf q = .committing now →
        now = .all := fun q _ => counted.stage_goto here q
    simp only [Option.toList_none, List.append_nil]
    refine ⟨recorded.past, recorded.pending, fun q _ busy => (by cases stage q _ busy), ?_,
      fun q busy => (by cases stage q _ busy), recorded.logged, recorded.source⟩
    intro q busy b mem
    obtain ⟨i, found⟩ := List.mem_iff_getElem?.mp mem
    obtain ⟨inside, -⟩ := List.getElem?_eq_some_iff.mp found
    exact recorded.progress p tail here i b (Nat.lt_of_lt_of_le inside none_left) found
  | clear here =>
    have stage : ∀ q now, (v.goto p (.committing .cleared)).phaseOf q = .committing now →
        now = .cleared := fun q _ => counted.stage_goto here q
    simp only [Option.toList_none, List.append_nil]
    refine ⟨recorded.past, ?_, fun q _ busy => (by cases stage q _ busy),
      fun q busy => (by cases stage q _ busy), fun _ _ => rfl, by simp, recorded.source⟩
    intro o b mem
    right
    obtain logged | installed := recorded.pending o b mem
    · exact recorded.complete p here b logged
    · exact installed
  | done here =>
    have empty := recorded.cleared p here
    have nobody : ∀ q stage, (v.goto p .outside).phaseOf q ≠ .committing stage := by
      intro q stage busy
      rw [phaseOf_goto] at busy
      split at busy
      next => cases busy
      next other =>
        exact other (counted.unique q p (by rw [kindOf, busy]; rfl) (by rw [kindOf, here]; rfl))
    simp only [Option.toList_none, List.append_nil]
    refine ⟨?_, ?_, fun q _ busy => absurd busy (nobody q _),
      fun q busy => absurd busy (nobody q _), fun q busy => absurd busy (nobody q _), ?_,
      recorded.source⟩
    · intro o b c mem lt
      obtain before | now : c < v.commits ∨ c = v.commits := by simp only at lt; omega
      · exact recorded.past o b c mem before
      · subst now
        exact (recorded.pending o b mem).resolve_left (by simp [empty])
    · intro o b mem
      have := (grouped.begun o b _ mem).2
      simp only at this
      omega
    · simp only [goto, empty]
      simp

end View

/-! ## Runs -/

structure Consistent (es : List Event) (s : State n) : Prop where
  counted : s.view.Counted
  grouped : s.view.Grouped es
  seals : s.view.Sealed es
  recorded : s.view.Recorded es

theorem consistent_init (n : Nat) : Consistent [] (init n) where
  counted :=
    { outstanding_eq := by simp [init, State.view, View.members, View.kindOf, Pc.phase, Phase.kind]
      exclusive := by simp [init, State.view]
      committing_of := by simp [init, State.view, View.kindOf, Pc.phase, Phase.kind]
      unique := by simp [init, State.view, View.kindOf, Pc.phase, Phase.kind]
      panics := by simp [init, State.view] }
  grouped :=
    { begun := by simp
      running := by simp [init, State.view, View.Running, Pc.phase]
      current := by simp
      same := by simp }
  seals := { ended := by simp, closed := by simp, installs_ended := by simp }
  recorded :=
    { past := by simp
      pending := by simp
      progress := by simp [init, State.view, Pc.phase]
      complete := by simp [init, State.view, Pc.phase]
      cleared := by simp [init, State.view]
      logged := by simp [init, State.view]
      source := by simp }

theorem consistent_trace {size : Nat} {moves : List (Fin n × Act)} {s : State n}
    (run : exec (step size) (init n) moves = some s) :
    Consistent (trace (step size) (obs size) (init n) moves) s := by
  refine trace_invariant ?_ (consistent_init n) run
  intro es s l s' ⟨counted, grouped, seals, recorded⟩ move
  have refined := step_refines move
  exact ⟨counted.step refined, grouped.step counted refined, seals.step counted refined,
    recorded.step counted grouped refined⟩

/-- The log's operations are isolated from its commits: they exclude each other, what an
    operation has logged is installed by one commit, after the operation has ended, and the
    two panics that say otherwise do not occur. -/
theorem operations_isolated (n size : Nat) (moves : List (Fin n × Act)) (s : State n)
    (run : exec (step size) (init n) moves = some s) :
    (s.committing = true → s.outstanding = 0) ∧
    (∀ p op b, s.pcs p = .writeLocked op b → s.committing = false) ∧
    (∀ p q op stage, (s.pcs p).phase = .active op → (s.pcs q).phase ≠ .committing stage) ∧
    (∀ o b c b' c', .wrote o b c ∈ trace (step size) (obs size) (init n) moves →
      .wrote o b' c' ∈ trace (step size) (obs size) (init n) moves → c = c') ∧
    (∀ o b c, .wrote o b c ∈ trace (step size) (obs size) (init n) moves → c < s.commits →
      .installed b c ∈ trace (step size) (obs size) (init n) moves) ∧
    (∀ b c, .installed b c ∈ trace (step size) (obs size) (init n) moves →
      (∃ o, .wrote o b c ∈ trace (step size) (obs size) (init n) moves) ∧
      ∀ o b', .wrote o b' c ∈ trace (step size) (obs size) (init n) moves →
        .ended o ∈ trace (step size) (obs size) (init n) moves) ∧
    s.panicked ≠ some .committing ∧ s.panicked ≠ some .outsideOfTrans := by
  obtain ⟨counted, grouped, seals, recorded⟩ := consistent_trace run
  refine ⟨counted.exclusive, ?_, ?_, grouped.same, recorded.past, ?_, counted.panics⟩
  · intro p op b here
    have member : s.view.kindOf p = .member := congrArg (fun pc => pc.phase.kind) here
    exact counted.free member
  · intro p q op stage here
    have member : s.view.kindOf p = .member := congrArg Phase.kind here
    exact counted.not_committing member q stage
  · intro b c mem
    exact ⟨recorded.source b c mem, fun o b' => seals.installs_ended b c o b' mem⟩

/-- Two operations that overlap, and the commit after them. -/
def twoOperations : List (Fin 2 × Act) :=
  [(0, .beginOp), (0, .run), (0, .run), (1, .beginOp), (1, .run), (1, .run),
   (0, .logWrite 45), (0, .run), (0, .run), (1, .logWrite 46), (1, .run), (1, .run),
   (0, .endOp), (0, .run), (0, .run), (1, .endOp), (1, .run), (1, .run),
   (1, .run), (1, .run), (1, .run), (1, .run), (1, .run), (1, .run), (1, .run), (1, .run),
   (1, .run), (1, .run), (1, .run)]

theorem operations_isolated_two :
    Event.wrote 0 45 0 ∈ trace (step 30) (obs 30) (init 2) twoOperations ∧
    Event.installed 45 0 ∈ trace (step 30) (obs 30) (init 2) twoOperations := by
  have wrote : Event.wrote 0 45 0 ∈ trace (step 30) (obs 30) (init 2) twoOperations := by decide
  have committed : (exec (step 30) (init 2) twoOperations).map State.commits = some 1 := by decide
  obtain ⟨s, run, one⟩ := Option.map_eq_some_iff.mp committed
  obtain ⟨-, -, -, -, installed, -⟩ := operations_isolated 2 30 twoOperations s run
  exact ⟨wrote, installed 0 45 0 wrote (by omega)⟩

end Sistemas.Xv6.LogOps
