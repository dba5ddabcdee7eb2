import Mathlib.Algebra.Order.BigOperators.Group.Finset
import Sistemas.Xv6.GroupCommit

/-! # The reservation of log space

`begin_op` lets an operation in when there is room for `MAXOPBLOCKS` blocks for it and for each
operation in progress, out of `LOGSIZE`.  But `mkfs` makes a log of `LOGSIZE` blocks with the
header among them, and `log_write` refuses the last one.

An operation that logs at most nine blocks leaves one of its ten unused, and this is enough:
what is in the log and what the operations in progress may still add stays below the bound of
`log_write` (`Reserved`).  With ten blocks three operations run into it (`overflow`).  What
counts in a single run is how many different blocks the operations of one commit log between
them (`Together`).
-/

namespace Sistemas.Xv6.LogOps

open Sistemas.Transition

variable {n : Nat}

/-- `sb.nlog` of a file system made by `mkfs`. -/
def nlog : Nat := logSize

/-- A block that is logged is one of at most `limit` different ones of its operation. -/
def Within (limit : Nat) (s : State n) (l : Fin n × Act) : Prop :=
  match s.pcs l.1 with
  | .writeLocked op b => (op.logged.insert b).length ≤ limit
  | _ => True

instance (limit : Nat) (s : State n) (l : Fin n × Act) : Decidable (Within limit s l) :=
  match h : s.pcs l.1 with
  | .writeLocked op b => decidable_of_iff ((op.logged.insert b).length ≤ limit) (by simp [Within, h])
  | .idle | .beginAcquire | .beginLocked | .sleeping | .inOp _ | .writeAcquire _ _
  | .endAcquire _ | .endLocked _ | .commit | .writeLog _ | .writeHead | .installTrans _
  | .clearHead | .doneAcquire | .doneLocked => isTrue (by simp [Within, h])

/-! ## What is reserved -/

/-- The most blocks that an operation logs here. -/
def perOp : Nat := maxOpBlocks - 1

/-- What an operation may still add to the log. -/
def Phase.slack : Phase → Nat
  | .active op | .ending op => perOp - op.logged.length
  | _ => 0

def Phase.logged : Phase → List Nat
  | .active op | .ending op => op.logged
  | _ => []

namespace View

variable {v v' : View n} {p : Fin n} {e : Option Event}

def slack (v : View n) : Nat := ∑ p, (v.phaseOf p).slack

theorem slack_goto (phase : Phase) :
    (v.goto p phase).slack + (v.phaseOf p).slack = v.slack + phase.slack :=
  sum_update (Finset.mem_univ p) v.phaseOf phase fun _ => Phase.slack

theorem slack_le_of_kind (phase : Phase) :
    phase.slack ≤ perOp * if phase.kind = .member then 1 else 0 := by
  cases phase <;> simp [Phase.slack, Phase.kind]

/-- Each operation in progress has at most its share left. -/
theorem slack_le (v : View n) : v.slack ≤ perOp * members v.kindOf := by
  rw [slack, members, Finset.mul_sum]
  exact Finset.sum_le_sum fun p _ => slack_le_of_kind (v.phaseOf p)

structure Reserved (v : View n) : Prop where
  room : v.block.length + v.slack < nlog - 1
  empty : v.outstanding = 0 → v.committing = false → v.block = []
  cleared : ∀ p, v.phaseOf p = .committing .cleared → v.block = []
  logged : ∀ p, ∀ b ∈ (v.phaseOf p).logged, b ∈ v.block
  not_panicked : v.panicked ≠ some .tooBig

theorem logged_goto {phase : Phase} {block : List Nat} (new : ∀ b ∈ phase.logged, b ∈ block)
    (old : ∀ q, ∀ b ∈ (v.phaseOf q).logged, b ∈ block) (q : Fin n) :
    ∀ b ∈ ((v.goto p phase).phaseOf q).logged, b ∈ block := by
  rw [phaseOf_goto]
  split
  · exact new
  · exact old q

theorem cleared_goto {phase : Phase} (new : phase = .committing .cleared → v.block = [])
    (old : ∀ q, v.phaseOf q = .committing .cleared → v.block = []) (q : Fin n)
    (here : (v.goto p phase).phaseOf q = .committing .cleared) : v.block = [] := by
  rw [phaseOf_goto] at here
  split at here
  · exact new here
  · exact old q here

/-- While a commit runs no operation has anything in the log. -/
theorem Counted.none_logged (counted : Counted v) (busy : v.committing = true) (q : Fin n) :
    (v.phaseOf q).logged = [] := by
  have none_in : members v.kindOf = 0 := by
    have := counted.outstanding_eq
    rw [counted.exclusive busy] at this
    omega
  have outside := not_member_of_zero none_in q
  rw [kindOf] at outside
  cases phase : v.phaseOf q <;> simp_all [Phase.kind, Phase.logged]

namespace Reserved

/-- A step of one process that logs nothing and takes no new space. -/
theorem goto (reserved : Reserved v) (phase : Phase) (less : phase.slack ≤ (v.phaseOf p).slack)
    (new : ∀ b ∈ phase.logged, b ∈ v.block)
    (cleared : phase = .committing .cleared → v.block = []) : Reserved (v.goto p phase) where
  room := by
    have change := slack_goto (v := v) (p := p) phase
    have room := reserved.room
    simp only [View.goto] at change ⊢
    omega
  empty := reserved.empty
  cleared := cleared_goto cleared reserved.cleared
  logged := logged_goto new reserved.logged
  not_panicked := reserved.not_panicked

theorem join (reserved : Reserved v) (counted : Counted v) (here : v.phaseOf p = .outside)
    (free : v.committing = false)
    (room : v.block.length + (v.outstanding + 1) * maxOpBlocks ≤ logSize) :
    Reserved (v.join p) where
  room := by
    have change := slack_goto (v := v) (p := p) (.active { id := v.ops, logged := [] })
    have share := slack_le v
    have count := counted.outstanding_eq
    have empty := fun none_in => reserved.empty none_in free
    have same : (v.join p).slack =
        (v.goto p (.active { id := v.ops, logged := [] })).slack := rfl
    have block : (v.join p).block = v.block := rfl
    rw [same, block]
    simp only [here, Phase.slack, perOp, maxOpBlocks, nlog, logSize, List.length_nil] at *
    by_cases alone : v.outstanding = 0
    · simp only [empty alone, List.length_nil]
      omega
    · omega
  empty positive := by
    have count := counted.outstanding_eq
    simp only [View.join] at positive
    omega
  cleared := cleared_goto (by simp) reserved.cleared
  logged := logged_goto (by simp [Phase.logged]) reserved.logged
  not_panicked := reserved.not_panicked

theorem write (reserved : Reserved v) (counted : Counted v) {op : Op} {b : Nat}
    (here : v.phaseOf p = .active op) (small : (op.logged.insert b).length ≤ perOp) :
    Reserved (v.write p op b) := by
  have member : v.kindOf p = .member := by rw [kindOf, here]; rfl
  have kept : ∀ x ∈ v.block, x ∈ (v.write p op b).block := by
    intro x mem
    simp only [View.write]
    split
    · exact mem
    · exact List.mem_append_left _ mem
  have added : b ∈ (v.write p op b).block := by
    simp only [View.write]
    split
    next mem => exact mem
    next => simp
  have own : ∀ x ∈ op.logged, x ∈ v.block := by simpa [here, Phase.logged] using reserved.logged p
  refine ⟨?_, ?_, ?_, ?_, reserved.not_panicked⟩
  · have change := slack_goto (v := v) (p := p) (.active { op with logged := op.logged.insert b })
    have room := reserved.room
    have same : (v.write p op b).slack =
        (v.goto p (.active { op with logged := op.logged.insert b })).slack := rfl
    simp only [here, Phase.slack] at change
    rw [same]
    simp only [View.write]
    -- a block that is new in the log is new for the operation
    split
    next mem =>
      have := List.length_le_length_insert (l := op.logged) (a := b)
      omega
    next fresh =>
      have new : b ∉ op.logged := fun mem => fresh (own b mem)
      rw [List.length_insert_of_not_mem new] at small change
      simp only [List.length_append, List.length_singleton]
      omega
  · intro none_in
    have := counted.outstanding_pos member
    simp only [View.write, View.goto] at none_in
    omega
  · intro q busy
    rw [View.write, phaseOf_goto] at busy
    split at busy
    · cases busy
    · exact absurd busy (counted.not_committing member q _)
  · refine logged_goto ?_ fun q x mem => kept x (reserved.logged q x mem)
    intro x mem
    obtain rfl | mem := List.mem_insert_iff.mp mem
    · exact added
    · exact kept x (own x mem)

theorem step (reserved : Reserved v) (counted : Counted v) (h : Step nlog v p e v')
    (small : ∀ op b c, e = some (.wrote op.id b c) → v.phaseOf p = .active op →
      (op.logged.insert b).length ≤ perOp) : Reserved v' := by
  cases h with
  | silent => exact reserved
  | join here free room => exact reserved.join counted here free room
  | write op b here fits => exact reserved.write counted here (small op b _ rfl here)
  | ending op here =>
    have logged := reserved.logged p
    rw [here] at logged
    exact reserved.goto _ (by rw [here]; exact Nat.le_refl _) logged (by simp)
  | leave op here free others =>
    have left := reserved.goto (p := p) .outside (Nat.zero_le _) (by simp [Phase.logged])
      (by simp)
    exact ⟨left.room, fun last => absurd last others, left.cleared, left.logged, left.not_panicked⟩
  | start op here free last =>
    have started := reserved.goto (p := p) (.committing (.installed 0)) (Nat.zero_le _)
      (by simp [Phase.logged]) (by simp)
    exact ⟨started.room, by simp, started.cleared, started.logged, started.not_panicked⟩
  | skip here empty =>
    exact reserved.goto _ (Nat.zero_le _) (by simp [Phase.logged]) fun _ => empty
  | install tail b here next =>
    exact reserved.goto _ (Nat.zero_le _) (by simp [Phase.logged]) (by simp)
  | installed tail here none_left =>
    exact reserved.goto _ (Nat.zero_le _) (by simp [Phase.logged]) (by simp)
  | clear here =>
    have change := slack_goto (v := v) (p := p) (.committing .cleared)
    have room := reserved.room
    have idle := fun q => counted.none_logged (counted.committing_of p (by rw [kindOf, here]; rfl)) q
    refine ⟨?_, fun _ _ => rfl, fun _ _ => rfl, ?_, reserved.not_panicked⟩
    · simp only [View.goto, View.slack, Phase.slack, List.length_nil] at change room ⊢
      omega
    · exact logged_goto (by simp [Phase.logged]) fun q => by simp [idle q]
  | done here =>
    have ended := reserved.goto (p := p) .outside (Nat.zero_le _) (by simp [Phase.logged])
      (by simp)
    exact ⟨ended.room, fun _ _ => reserved.cleared p here, ended.cleared, ended.logged,
      ended.not_panicked⟩
  | tooBig op here big =>
    have room := reserved.room
    simp only [nlog, logSize, maxOpBlocks] at room big
    omega
  | outsideOfTrans op here none_in =>
    have := counted.outstanding_pos (p := p) (by rw [kindOf, here]; rfl)
    omega
  | whileCommitting op here busy =>
    have := counted.free (p := p) (by rw [kindOf, here]; rfl)
    rw [busy] at this
    cases this

end Reserved

end View

/-! ## Runs -/

theorem obs_wrote {size o b c : Nat} {s : State n} {l : Fin n × Act}
    (h : obs size s l = some (.wrote o b c)) : ∃ op, s.pcs l.1 = .writeLocked op b ∧ op.id = o := by
  rw [obs] at h
  split at h
  next => simp at h
  next op b' here act =>
    split at h
    · simp only [Option.some.injEq, Event.wrote.injEq] at h
      obtain ⟨rfl, rfl, -⟩ := h
      exact ⟨op, here, rfl⟩
    · cases h
  next => simp at h
  next => cases h

theorem reserved_init (n : Nat) : (init n).view.Reserved where
  room := by
    simp [init, State.view, View.slack, Pc.phase, Phase.slack, nlog, logSize, maxOpBlocks]
  empty := by simp [init, State.view]
  cleared := by simp [init, State.view]
  logged := by simp [init, State.view, Pc.phase, Phase.logged]
  not_panicked := by simp [init, State.view]

theorem reserved_exec {moves : List (Fin n × Act)} {s : State n}
    (run : exec (step nlog) (init n) moves = some s)
    (within : Along (step nlog) (Within perOp) (init n) moves) : s.view.Reserved := by
  refine (exec_invariant_along (P := fun s => s.view.Counted ∧ s.view.Reserved) ?_
    ⟨(consistent_init n).counted, reserved_init n⟩ run within).2
  intro s l s' ⟨counted, reserved⟩ small move
  have refined := step_refines move
  refine ⟨counted.step refined, reserved.step counted refined ?_⟩
  intro op b c wrote active
  obtain ⟨op', here, -⟩ := obs_wrote wrote
  have phase : s.view.phaseOf l.1 = .active op' := congrArg Pc.phase here
  obtain rfl : op' = op := by simpa [phase] using active
  simpa [Within, here] using small

/-! ## What a commit has to take -/

theorem View.Step.nodup {size : Nat} {v v' : View n} {p : Fin n} {e : Option Event}
    (h : View.Step size v p e v') (nodup : v.block.Nodup) : v'.block.Nodup := by
  cases h with
  | write op b =>
    simp only [View.write]
    split
    next => exact nodup
    next fresh => exact List.Nodup.append nodup (List.nodup_singleton b) (by simpa using fresh)
  | clear => exact List.nodup_nil
  | _ => exact nodup

theorem block_nodup {size : Nat} {moves : List (Fin n × Act)} {s : State n}
    (run : exec (step size) (init n) moves = some s) : s.block.Nodup :=
  exec_invariant (P := fun s => s.view.block.Nodup)
    (fun _ _ _ nodup move => (step_refines move).nodup nodup) List.nodup_nil run

/-- The different blocks that the operations of a commit have logged. -/
def loggedFor (c : Nat) (es : List Event) : Finset Nat :=
  (es.filterMap fun
    | .wrote _ b c' => if c' = c then some b else none
    | _ => none).toFinset

theorem mem_loggedFor {c b : Nat} {es : List Event} :
    b ∈ loggedFor c es ↔ ∃ o, .wrote o b c ∈ es := by
  simp only [loggedFor, List.mem_toFinset, List.mem_filterMap]
  constructor
  · rintro ⟨e, mem, some⟩
    cases e with
    | wrote o b' c' =>
      simp only [Option.ite_none_right_eq_some, Option.some.injEq] at some
      obtain ⟨rfl, rfl⟩ := some
      exact ⟨o, mem⟩
    | ended => cases some
    | installed => cases some
  · rintro ⟨o, mem⟩
    exact ⟨_, mem, by simp⟩

/-- While no commit runs the log holds what the operations of the next one have logged. -/
theorem card_loggedFor {size : Nat} {moves : List (Fin n × Act)} {s : State n}
    (run : exec (step size) (init n) moves = some s) (free : s.committing = false) :
    (loggedFor s.commits (trace (step size) (obs size) (init n) moves)).card =
      s.block.length := by
  obtain ⟨-, -, seals, recorded⟩ := consistent_trace run
  rw [← List.toFinset_card_of_nodup (block_nodup run)]
  congr 1
  ext b
  rw [mem_loggedFor, List.mem_toFinset]
  constructor
  · rintro ⟨o, wrote⟩
    obtain logged | installed := recorded.pending o b wrote
    · exact logged
    · obtain before | ⟨-, busy⟩ := seals.closed b _ installed
      · exact absurd before (Nat.lt_irrefl _)
      · cases free.symm.trans busy
  · exact recorded.logged b

/-- Each `log_write` of the run comes while the operations of its commit have logged fewer
    than `LOGSIZE - 1` different blocks between them. -/
def Together (moves : List (Fin n × Act)) : Prop :=
  ∀ before after p s op b, moves = before ++ (p, .run) :: after →
    exec (step nlog) (init n) before = some s → s.pcs p = .writeLocked op b →
    (loggedFor s.commits (trace (step nlog) (obs nlog) (init n) before)).card < nlog - 1

/-- The moves that panic with "too big a transaction". -/
theorem step_tooBig {s s' : State n} {l : Fin n × Act} (move : step nlog s l = some s') :
    s'.panicked = some .tooBig ↔
      l.2 = .run ∧ nlog - 1 ≤ s.block.length ∧ ∃ op b, s.pcs l.1 = .writeLocked op b := by
  obtain ⟨p, act⟩ := l
  rw [step] at move
  split at move
  next running =>
    cases act with
    | run =>
      cases here : s.pcs p with
      | writeLocked op b =>
        simp only [State.act, State.run, here, Option.some.injEq] at move
        subst move
        simp only [State.logWrite, nlog, logSize]
        split
        next big => simpa [State.panic] using by omega
        next small =>
          split <;> simp [State.panic, State.release, State.goto, running] <;> omega
      | _ =>
        simp only [State.act, State.run, here] at move
        grind [State.acquire, State.beginOp, State.endOp, State.goto, State.release, State.wakeup,
          State.panic]
    | _ => grind [State.act, State.goto]
  next => cases move

theorem exec_panicked {size : Nat} {moves : List (Fin n × Act)} {s s' : State n}
    (panicked : s.panicked ≠ none) (run : exec (step size) s moves = some s') : s' = s := by
  cases moves with
  | nil => exact (Option.some.inj run).symm
  | cons l moves =>
    obtain ⟨u, move, -⟩ := exec_cons_eq_some.mp run
    rw [step, if_neg panicked] at move
    cases move

theorem tooBig_iff {moves : List (Fin n × Act)} {s : State n}
    (run : exec (step nlog) (init n) moves = some s) :
    s.panicked ≠ some .tooBig ↔ Together moves := by
  -- where a `log_write` is, no commit runs
  have free {before : List (Fin n × Act)} {t : State n} {p : Fin n} {op : Op} {b : Nat}
      (start : exec (step nlog) (init n) before = some t) (here : t.pcs p = .writeLocked op b) :
      t.committing = false :=
    (consistent_trace start).counted.free (p := p) (congrArg (fun pc => pc.phase.kind) here)
  constructor
  · rintro safe before after p t op b rfl start here
    rw [card_loggedFor start (free start here)]
    by_contra full
    obtain ⟨t', start', rest⟩ := exec_append_eq_some.mp run
    obtain rfl := Option.some.inj (start.symm.trans start')
    obtain ⟨u, move, last⟩ := exec_cons_eq_some.mp rest
    have big := (step_tooBig move).mpr ⟨rfl, Nat.le_of_not_lt full, op, b, here⟩
    obtain rfl := exec_panicked (by simp [big]) last
    exact safe big
  · intro together big
    cases moves using List.reverseRecOn with
    | nil =>
      cases run
      cases big
    | append_singleton before l =>
      obtain ⟨t, start, rest⟩ := exec_append_eq_some.mp run
      obtain ⟨u, move, last⟩ := exec_cons_eq_some.mp rest
      obtain rfl := Option.some.inj last
      obtain ⟨p, act⟩ := l
      obtain ⟨rfl, full, op, b, here⟩ := (step_tooBig move).mp big
      have room := together before [] p t op b rfl start here
      rw [card_loggedFor start (free start here)] at room
      omega

/-! ## Three operations of ten blocks -/

/-- Three operations begin, and each logs ten blocks. -/
def overflow : List (Fin 3 × Act) :=
  (List.finRange 3).flatMap (fun p => [(p, .beginOp), (p, .run), (p, .run)]) ++
    (List.finRange 3).flatMap fun p => (List.range maxOpBlocks).flatMap fun i =>
      [(p, .logWrite (100 + maxOpBlocks * p.val + i)), (p, .run), (p, .run)]

theorem overflow_panics :
    (exec (step nlog) (init 3) overflow).map State.panicked = some (some .tooBig) := by
  decide +kernel

theorem overflow_within : Along (step nlog) (Within maxOpBlocks) (init 3) overflow := by
  decide +kernel

theorem Within.mono {limit more : Nat} (le : limit ≤ more) {s : State n} {l : Fin n × Act}
    (within : Within limit s l) : Within more s l := by
  simp only [Within] at within ⊢
  split
  next here => rw [here] at within; exact Nat.le_trans within le
  next => trivial

/-- Operations of at most `limit` blocks never make the log overflow if and only if `limit` is
    at most nine.  A single run makes it overflow if and only if the operations of some commit
    log too many different blocks between them. -/
theorem reservation_suffices_iff (limit : Nat) :
    ((∀ (n : Nat) (moves : List (Fin n × Act)) (s : State n),
      exec (step nlog) (init n) moves = some s →
      Along (step nlog) (Within limit) (init n) moves → s.panicked ≠ some .tooBig) ↔
    limit ≤ maxOpBlocks - 1) ∧
    ∀ (n : Nat) (moves : List (Fin n × Act)) (s : State n),
      exec (step nlog) (init n) moves = some s →
      (s.panicked ≠ some .tooBig ↔ Together moves) := by
  refine ⟨?_, fun n moves s run => tooBig_iff run⟩
  constructor
  · intro safe
    by_contra more
    obtain ⟨s, run, panicked⟩ := Option.map_eq_some_iff.mp overflow_panics
    refine safe 3 overflow s run (overflow_within.imp fun s l => Within.mono ?_) panicked
    omega
  · intro small n moves s run within
    exact (reserved_exec run (within.imp fun s l => Within.mono small)).not_panicked

/-- Operations of `MAXOPBLOCKS` blocks make the log overflow. -/
theorem reservation_overflows : ∃ (moves : List (Fin 3 × Act)) (s : State 3),
    exec (step nlog) (init 3) moves = some s ∧
    Along (step nlog) (Within maxOpBlocks) (init 3) moves ∧ s.panicked = some .tooBig := by
  obtain ⟨s, run, panicked⟩ := Option.map_eq_some_iff.mp overflow_panics
  exact ⟨overflow, s, run, overflow_within, panicked⟩

end Sistemas.Xv6.LogOps
