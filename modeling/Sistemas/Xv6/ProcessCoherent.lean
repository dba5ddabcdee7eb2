import Sistemas.Xv6.ProcessChange

/-! # Who holds which lock

At every point of `sched()` and `scheduler()` the lock of a process is held by exactly one CPU, on
whichever side of the `swtch` it is, and the state of a process says which side that is
(`Coherent`).  A step that is not a switch keeps this (`land_coherent`), and so do the two switches
(`leave_coherent`, `enter_coherent`).
-/

namespace Sistemas.Xv6.Process

variable {n m : Nat} {L K : Type}

namespace State

def held (s : State n m L K) (c : Fin m) : List (Lock n L) :=
  (s.point c).holds (s.cpu c).thread

structure Coherent (s : State n m L K) : Prop where
  locked : Locked s.lock s.held
  noff : ∀ c, (s.cpu c).noff = (s.held c).length
  intr : ∀ c, (s.cpu c).intr = true → s.held c = []
  sound : ∀ p, (s.proc p).context.Sound (some p)
  soundCpu : ∀ c, (s.cpu c).context.Sound none
  proc_iff : ∀ c p, (s.cpu c).proc = some p ↔ (s.cpu c).context = .schedulerBack p
  thread_proc : ∀ c p, (s.cpu c).thread = some p → (s.cpu c).proc = some p
  proc_inj : ∀ c d p, (s.cpu c).proc = some p → (s.cpu d).proc = some p → c = d
  running : ∀ c p, (s.cpu c).thread = some p → (s.proc p).state = (s.proc p).context.state
  marked : ∀ c p chan lk next, (s.cpu c).thread = some p →
    (s.proc p).context = .sched (.sleepTidy chan lk next) → (s.proc p).chan = chan
  parked : ∀ p, (∀ c, (s.cpu c).thread ≠ some p) → (s.proc p).Parked
  claimed : ∀ c q, (s.point c).claim = some q → (s.proc q).state = .UNUSED
  filled : ∀ p q ready, (s.proc p).context.child = some (q, ready) →
    (s.proc q).state = .USED ∧ (ready = true → (s.proc q).context = .forkret)
  filled_once : ∀ p p' q ready ready', (s.proc p).context.child = some (q, ready) →
    (s.proc p').context.child = some (q, ready') → p = p'

end State

/-! ## A step that is not a switch -/

namespace State

variable {s : State n m L K} {c d : Fin m} {p q : Fin n}

theorem point_of_thread (on : (s.cpu c).thread = some p) : s.point c = (s.proc p).context := by
  simp [point, on]

theorem point_of_idle (idle : (s.cpu c).thread = none) : s.point c = (s.cpu c).context := by
  simp [point, idle]

theorem held_of_thread (on : (s.cpu c).thread = some p) :
    s.held c = (s.proc p).context.holds (some p) := by
  rw [held, point_of_thread on, on]

theorem held_of_idle (idle : (s.cpu c).thread = none) : s.held c = (s.cpu c).context.holds none := by
  rw [held, point_of_idle idle, idle]

namespace Coherent

variable (coh : s.Coherent)
include coh

theorem sound_point (c : Fin m) : (s.point c).Sound (s.cpu c).thread := by
  cases on : (s.cpu c).thread with
  | some p =>
    rw [point_of_thread on]
    exact coh.sound p
  | none =>
    rw [point_of_idle on]
    exact coh.soundCpu c

theorem thread_inj (left : (s.cpu c).thread = some p) (right : (s.cpu d).thread = some p) : c = d :=
  coh.proc_inj c d p (coh.thread_proc c p left) (coh.thread_proc d p right)

theorem filled_point (busy : (s.cpu c).thread ≠ none) (ready : Bool)
    (child : (s.point c).child = some (q, ready)) :
    (s.proc q).state = .USED ∧ (ready = true → (s.proc q).context = .forkret) := by
  cases on : (s.cpu c).thread with
  | some p =>
    rw [point_of_thread on] at child
    exact coh.filled p q ready child
  | none => exact absurd on busy

/-- A process at any other point than those that `swtch()` goes to is on a CPU. -/
theorem on_cpu (started : (s.proc p).context ≠ .forkret)
    (inside : ∀ b next, (s.proc p).context ≠ .schedReturn b next) :
    ∃ c, (s.cpu c).thread = some p := by
  by_contra off
  have parked := coh.parked p (fun c on => off ⟨c, on⟩)
  cases parked with
  | off state context =>
    rcases context with context | ⟨b, context⟩
    · exact started context
    · exact inside _ _ context
  | new state context => exact started context
  | yielded state b next context => exact inside _ _ context
  | asleep state b lk next context => exact inside _ _ context

/-- A step changes neither the state nor the context of a process on another CPU. -/
theorem elsewhere [DecidableEq K] {t : Table n L K} (ne : d ≠ c) (on : (s.cpu d).thread = some q)
    (change : Change s.toTable (s.cpu c).thread (s.point c) t) :
    (t.proc q).state = (s.proc q).state ∧ (t.proc q).context = (s.proc q).context := by
  have other : (s.cpu c).thread ≠ some q := fun same => ne (coh.thread_inj on same)
  have runs := coh.running d q on
  by_cases running : (s.proc q).state = .RUNNING
  · have kept := change.running (fun same => absurd same other) running
      (fun r claim => coh.claimed c r claim)
      (fun busy r ready child => (coh.filled_point busy ready child).1)
    exact ⟨kept.1.trans running.symm, kept.2⟩
  · -- in sched(), before its swtch(): the process holds its own lock
    have mine : Lock.proc q ∈ s.held d := by
      rw [held_of_thread on]
      cases context : (s.proc q).context with
      | sched next => exact List.mem_singleton_self _
      | _ =>
        rw [context] at runs
        exact absurd runs running
    have free : Lock.proc q ∉ s.held c := fun also => ne (coh.locked.exclusive mine also)
    rw [change.unlocked free]
    exact ⟨rfl, rfl⟩

end Coherent

/-- The state after a step that is not a switch, where `k` is the CPU with its locks, its interrupts
    and `c->proc` already changed. -/
def land (s : State n m L K) (c : Fin m) (t : Table n L K) (lock : Lock n L → Option (Fin m))
    (k : Cpu n L K) (next : Point n L K) : State n m L K :=
  (({ s with toTable := t, lock := lock } : State n m L K).setCpu c fun _ => k).goto c next

structure Lands [DecidableEq K] (s : State n m L K) (c : Fin m) (t : Table n L K)
    (lock : Lock n L → Option (Fin m)) (k : Cpu n L K) (next : Point n L K) : Prop where
  thread : k.thread = (s.cpu c).thread
  context : k.context = (s.cpu c).context
  follows : (s.point c).Follows (s.cpu c).thread next
  flow : ∃ e, Flow s.toTable (s.cpu c) (s.cpu c).thread (s.point c) next t e
  locked : Locked lock (Function.update s.held c (next.holds (s.cpu c).thread))
  noff : k.noff = (next.holds (s.cpu c).thread).length
  intr : k.intr = true → next.holds (s.cpu c).thread = []
  norun : ∀ q, next ≠ .schedulerBack q
  proc : ∀ p, k.proc = some p → (s.cpu c).proc = some p
  proc_iff : ∀ p, k.proc = some p ↔ (k.jump next).context = .schedulerBack p
  thread_proc : ∀ p, k.thread = some p → k.proc = some p
  running : ∀ p, (s.cpu c).thread = some p → (t.proc p).state = next.state
  marked : ∀ p chan lk after, (s.cpu c).thread = some p →
    next = .sched (.sleepTidy chan lk after) → (t.proc p).chan = chan

section Land

variable {t : Table n L K} {lock : Lock n L → Option (Fin m)} {k : Cpu n L K} {next : Point n L K}

theorem land_cpu_self : (s.land c t lock k next).cpu c = k.jump next := by
  simp [land, goto, setCpu]

theorem land_cpu_of_ne (ne : d ≠ c) : (s.land c t lock k next).cpu d = s.cpu d := by
  simp [land, goto, setCpu, ne]

theorem jump_thread : (k.jump next).thread = k.thread := by
  unfold Cpu.jump
  split <;> rfl

theorem land_thread (same : k.thread = (s.cpu c).thread) (d : Fin m) :
    ((s.land c t lock k next).cpu d).thread = (s.cpu d).thread := by
  by_cases ne : d = c
  · subst ne
    rw [land_cpu_self, jump_thread, same]
  · rw [land_cpu_of_ne ne]

theorem land_proc_self (on : k.thread = some p) :
    (s.land c t lock k next).proc p = { t.proc p with context := next } := by
  simp [land, goto, setCpu, on, Table.jump, Table.set]

theorem land_proc_of_ne (off : k.thread ≠ some q) :
    (s.land c t lock k next).proc q = t.proc q := by
  cases on : k.thread with
  | none => simp [land, goto, setCpu, on, Table.jump]
  | some p =>
    have ne : q ≠ p := by
      rintro rfl
      exact off on
    simp [land, goto, setCpu, on, Table.jump, Table.set, ne]

theorem land_state : ((s.land c t lock k next).proc q).state = (t.proc q).state := by
  by_cases on : k.thread = some q
  · rw [land_proc_self on]
  · rw [land_proc_of_ne on]

theorem land_chan : ((s.land c t lock k next).proc q).chan = (t.proc q).chan := by
  by_cases on : k.thread = some q
  · rw [land_proc_self on]
  · rw [land_proc_of_ne on]

theorem land_same : s.land c t s.lock (s.cpu c) next =
    ({ s with toTable := t } : State n m L K).goto c next := by
  simp [land, setCpu]

theorem land_point_self : (s.land c t lock k next).point c = next := by
  cases on : k.thread with
  | some p =>
    rw [point_of_thread (by rw [land_cpu_self, jump_thread, on]), land_proc_self on]
  | none =>
    rw [point_of_idle (by rw [land_cpu_self, jump_thread, on]), land_cpu_self]
    simp [Cpu.jump, on]

variable [DecidableEq K]

theorem Lands.change (lands : s.Lands c t lock k next) :
    Change s.toTable (s.cpu c).thread (s.point c) t :=
  let ⟨_, flow⟩ := lands.flow
  flow.change

theorem Lands.context_of_ne (lands : s.Lands c t lock k next) (off : (s.cpu c).thread ≠ some q) :
    ((s.land c t lock k next).proc q).context = (t.proc q).context := by
  rw [land_proc_of_ne (lands.thread ▸ off)]

variable (coh : s.Coherent) (lands : s.Lands c t lock k next)
include coh lands

theorem land_point_of_ne (ne : d ≠ c) : (s.land c t lock k next).point d = s.point d := by
  have same : (s.land c t lock k next).cpu d = s.cpu d := land_cpu_of_ne ne
  cases on : (s.cpu d).thread with
  | some q =>
    have off : (s.cpu c).thread ≠ some q := fun also => ne (coh.thread_inj on also)
    rw [point_of_thread (same ▸ on), point_of_thread on,
      lands.context_of_ne off, (coh.elsewhere ne on lands.change).2]
  | none => rw [point_of_idle (same ▸ on), point_of_idle on, same]

theorem land_held :
    (s.land c t lock k next).held = Function.update s.held c (next.holds (s.cpu c).thread) := by
  funext d
  by_cases ne : d = c
  · subst ne
    rw [held, land_point_self, land_thread lands.thread, Function.update_self]
  · rw [held, land_point_of_ne coh lands ne, land_thread lands.thread,
      Function.update_of_ne ne, held]

/-- Every step but a switch keeps the system coherent. -/
theorem land_coherent : (s.land c t lock k next).Coherent := by
  have cpu_of_ne : ∀ {d}, d ≠ c → (s.land c t lock k next).cpu d = s.cpu d := land_cpu_of_ne
  have threads : ∀ d, ((s.land c t lock k next).cpu d).thread = (s.cpu d).thread :=
    land_thread lands.thread
  have held := land_held coh lands
  have change := lands.change
  have claims := fun r => coh.claimed c r
  have fills := fun busy (r : Fin n) ready => coh.filled_point (c := c) (q := r) busy ready
  constructor
  case locked => rw [held]; exact lands.locked
  case noff =>
    intro d
    rw [held]
    by_cases same : d = c
    · subst same
      rw [land_cpu_self, Function.update_self, ← lands.noff]
      unfold Cpu.jump
      split <;> rfl
    · rw [cpu_of_ne same, Function.update_of_ne same, coh.noff]
  case intr =>
    intro d enabled
    rw [held]
    by_cases same : d = c
    · subst same
      rw [Function.update_self]
      rw [land_cpu_self] at enabled
      refine lands.intr ?_
      revert enabled
      unfold Cpu.jump
      split <;> exact id
    · rw [Function.update_of_ne same]
      rw [cpu_of_ne same] at enabled
      exact coh.intr d enabled
  case sound =>
    intro q
    by_cases on : (s.cpu c).thread = some q
    · rw [land_proc_self (lands.thread ▸ on), ← on]
      exact lands.follows.sound
    · rw [lands.context_of_ne on]
      rcases change.context (q := q) with same | ⟨-, -, new⟩
      · rw [same]
        exact coh.sound q
      · rw [new]
        trivial
  case soundCpu =>
    intro d
    by_cases same : d = c
    · subst same
      rw [land_cpu_self]
      cases on : (s.cpu d).thread with
      | some p =>
        simp only [Cpu.jump, lands.thread, on, lands.context]
        exact coh.soundCpu d
      | none =>
        have sound := lands.follows.sound
        rw [on] at sound
        simpa only [Cpu.jump, lands.thread, on] using sound
    · rw [cpu_of_ne same]
      exact coh.soundCpu d
  case proc_iff =>
    intro d p
    by_cases same : d = c
    · subst same
      rw [land_cpu_self, ← lands.proc_iff]
      unfold Cpu.jump
      split <;> rfl
    · rw [cpu_of_ne same, coh.proc_iff]
  case thread_proc =>
    intro d p on
    by_cases same : d = c
    · subst same
      rw [land_cpu_self] at on ⊢
      rw [jump_thread] at on
      have here := lands.thread_proc p on
      unfold Cpu.jump
      split <;> exact here
    · rw [cpu_of_ne same] at on ⊢
      exact coh.thread_proc d p on
  case proc_inj =>
    have earlier : ∀ d p, ((s.land c t lock k next).cpu d).proc = some p →
        (s.cpu d).proc = some p := by
      intro d p here
      by_cases same : d = c
      · subst same
        rw [land_cpu_self] at here
        refine lands.proc p ?_
        revert here
        unfold Cpu.jump
        split <;> exact id
      · rwa [cpu_of_ne same] at here
    exact fun d e p left right => coh.proc_inj d e p (earlier d p left) (earlier e p right)
  case running =>
    intro d p on
    rw [threads] at on
    rw [land_state]
    by_cases same : d = c
    · subst same
      rw [land_proc_self (lands.thread ▸ on)]
      exact lands.running p on
    · have off : (s.cpu c).thread ≠ some p := fun also => same (coh.thread_inj on also)
      have kept := coh.elsewhere same on lands.change
      rw [lands.context_of_ne off, kept.1, kept.2]
      exact coh.running d p on
  case marked =>
    intro d p chan lk after on context
    rw [threads] at on
    rw [land_chan]
    by_cases same : d = c
    · subst same
      rw [land_proc_self (lands.thread ▸ on)] at context
      exact lands.marked p chan lk after on context
    · have off : (s.cpu c).thread ≠ some p := fun also => same (coh.thread_inj on also)
      rw [lands.context_of_ne off, (coh.elsewhere same on change).2] at context
      have mine : Lock.proc p ∈ s.held d := by
        rw [held_of_thread on, context]
        exact List.mem_singleton_self _
      have free : Lock.proc p ∉ s.held c := fun also => same (coh.locked.exclusive mine also)
      rw [change.unlocked free]
      exact coh.marked d p chan lk after on context
  case parked =>
    intro p off
    have before : ∀ d, (s.cpu d).thread ≠ some p := fun d => threads d ▸ off d
    have parked := coh.parked p before
    rw [land_proc_of_ne (lands.thread ▸ before c)]
    by_cases running : ∃ r, s.point c = .schedulerLocked r
    · obtain ⟨r, here⟩ := running
      obtain ⟨e, flow⟩ := lands.flow
      rw [here] at flow
      rwa [flow.norun lands.norun]
    · exact change.parked (before c) parked (fun r here => running ⟨r, here⟩) claims fills
  case claimed =>
    intro d q claim
    rw [land_state]
    by_cases same : d = c
    · subst same
      rw [land_point_self] at claim
      obtain ⟨e, flow⟩ := lands.flow
      obtain ⟨before, same⟩ := flow.claim (coh.sound_point d) claim
      rw [same]
      rcases before with before | free
      · exact coh.claimed d q before
      · exact free
    · rw [land_point_of_ne coh lands same] at claim
      have mine : Lock.proc q ∈ s.held d := Point.holds_of_claim claim
      have free : Lock.proc q ∉ s.held c := fun also => same (coh.locked.exclusive mine also)
      rw [change.unlocked free]
      exact coh.claimed d q claim
  case filled =>
    intro p q ready child
    rw [land_state]
    -- the slot is no process on a CPU, so it is not its context that moves
    have off : (s.proc q).state = .UNUSED ∨ (s.proc q).state = .USED →
        (s.cpu c).thread ≠ some q := by
      intro state on
      rw [coh.running c q on] at state
      rcases state with state | state
      · exact (Point.state_busy _).1 state
      · exact (Point.state_busy _).2 state
    by_cases on : (s.cpu c).thread = some p
    · rw [land_proc_self (lands.thread ▸ on)] at child
      obtain ⟨e, flow⟩ := lands.flow
      have busy : (s.cpu c).thread ≠ none := on ▸ nofun
      have self : (s.cpu c).thread ≠ some q := by
        refine off ?_
        rcases flow.child child with same | ⟨pid, here, -⟩ | ⟨here, -⟩
        · exact .inr (fills busy q _ same).1
        · exact .inl (claims q (by rw [here]; rfl))
        · exact .inr (fills busy q false (by rw [here]; rfl)).1
      rw [lands.context_of_ne self]
      exact flow.filled child self (fills busy q)
    · rw [lands.context_of_ne on] at child
      rcases change.context (q := p) with same | ⟨-, -, new⟩
      · rw [same] at child
        obtain ⟨used, context⟩ := coh.filled p q ready child
        have self := off (.inr used)
        have kept := change.stays_used used self
          (fun claim => by simp [claims q claim] at used)
          (fun busy r also => by
            obtain ⟨p', thread⟩ := Option.ne_none_iff_exists'.mp busy
            rw [point_of_thread thread] at also
            exact on (coh.filled_once p p' q _ _ child also ▸ thread))
        rw [lands.context_of_ne self, kept.1, kept.2]
        exact ⟨rfl, context⟩
      · rw [new] at child
        cases child
  case filled_once =>
    have before : ∀ p q ready, ((s.land c t lock k next).proc p).context.child = some (q, ready) →
        (∃ r, (s.proc p).context.child = some (q, r)) ∨
          ((s.cpu c).thread = some p ∧ (s.point c).claim = some q) := by
      intro p q ready child
      by_cases on : (s.cpu c).thread = some p
      · rw [land_proc_self (lands.thread ▸ on)] at child
        obtain ⟨e, flow⟩ := lands.flow
        rw [← point_of_thread on]
        rcases flow.child child with same | ⟨pid, here, -⟩ | ⟨here, -⟩
        · exact .inl ⟨_, same⟩
        · exact .inr ⟨on, by rw [here]; rfl⟩
        · exact .inl ⟨false, by rw [here]; rfl⟩
      · rw [lands.context_of_ne on] at child
        rcases change.context (q := p) with same | ⟨-, -, new⟩
        · rw [same] at child
          exact .inl ⟨_, child⟩
        · rw [new] at child
          cases child
    intro p p' q ready ready' child child'
    rcases before p q ready child with ⟨r, left⟩ | ⟨on, claim⟩
    · rcases before p' q ready' child' with ⟨r', right⟩ | ⟨-, claim⟩
      · exact coh.filled_once p p' q r r' left right
      · exact absurd ((coh.filled p q r left).1.symm.trans (claims q claim)) (by decide)
    · rcases before p' q ready' child' with ⟨r', right⟩ | ⟨on', -⟩
      · exact absurd ((coh.filled p' q r' right).1.symm.trans (claims q claim)) (by decide)
      · exact Option.some.inj (on.symm.trans on')

end Land

/-! ## Switching -/

section Switch

variable [DecidableEq K] (coh : s.Coherent)
include coh

/-- The state in which the process of a CPU has left it from `sched()`. -/
def leave (s : State n m L K) (c : Fin m) (p : Fin n) (next : Point n L K) : State n m L K :=
  { s with
    toTable := s.toTable.set p fun q => { q with context := next }
    cpu := Function.update s.cpu c { s.cpu c with thread := none } }

omit [DecidableEq K] in
/-- The four tests of `sched()` fail. -/
theorem sched_eq {after : Point n L K} (on : (s.cpu c).thread = some p)
    (here : s.point c = .sched after) :
    s.sched c (fun b => .schedReturn b after) =
      some (s.leave c p (.schedReturn (s.cpu c).intena after)) := by
  have sound := coh.sound_point c
  rw [here] at sound
  have context : (s.proc p).context = .sched after := (point_of_thread on).symm.trans here
  have held : s.held c = [.proc p] := by
    rw [held_of_thread on, context]
    rfl
  have lock : s.lock (.proc p) = some c := (coh.locked.owner_iff _ _).mpr (by simp [held])
  have noff : (s.cpu c).noff = 1 := by rw [coh.noff, held]; rfl
  have state : (s.proc p).state ≠ .RUNNING := by
    rw [coh.running c p on, context]
    obtain ⟨-, resumes, -⟩ := sound
    cases after with
    | yieldRelease | sleepTidy | zombieExit => simp [Point.state]
    | _ => exact resumes.elim
  have intr : (s.cpu c).intr = false := by
    rw [← Bool.not_eq_true]
    intro enabled
    simp [coh.intr c enabled] at held
  simp [sched, coh.thread_proc c p on, lock, noff, state, intr, goto, setCpu, leave, on, Table.jump,
    Cpu.jump]

omit [DecidableEq K] in
/-- On the other side of the `swtch()` the scheduler of the CPU holds the lock. -/
theorem leave_coherent {after : Point n L K} (on : (s.cpu c).thread = some p)
    (here : s.point c = .sched after) (b : Bool) :
    (s.leave c p (.schedReturn b after)).Coherent := by
  have sound := coh.sound_point c
  rw [here, on] at sound
  obtain ⟨-, resumes, sound⟩ := sound
  have context : (s.proc p).context = .sched after := (point_of_thread on).symm.trans here
  have proc := coh.thread_proc c p on
  have back := (coh.proc_iff c p).mp proc
  have cpu_of_ne : ∀ {d}, d ≠ c → (s.leave c p (.schedReturn b after)).cpu d = s.cpu d :=
    fun ne => by simp [leave, ne]
  have cpu_self : (s.leave c p (.schedReturn b after)).cpu c = { s.cpu c with thread := none } := by
    simp [leave]
  have thread_of_ne : ∀ {d q}, ((s.leave c p (.schedReturn b after)).cpu d).thread = some q →
      d ≠ c ∧ (s.cpu d).thread = some q ∧ q ≠ p := by
    intro d q thread
    by_cases same : d = c
    · subst same
      rw [cpu_self] at thread
      cases thread
    · rw [cpu_of_ne same] at thread
      refine ⟨same, thread, ?_⟩
      rintro rfl
      exact same (coh.thread_inj thread on)
  have proc_self : (s.leave c p (.schedReturn b after)).proc p =
      { s.proc p with context := .schedReturn b after } := by simp [leave, Table.set]
  have proc_of_ne : ∀ {q}, q ≠ p → (s.leave c p (.schedReturn b after)).proc q = s.proc q :=
    fun ne => by simp [leave, Table.set, ne]
  have state : ∀ q, ((s.leave c p (.schedReturn b after)).proc q).state = (s.proc q).state := by
    intro q
    by_cases same : q = p
    · subst same
      rw [proc_self]
    · rw [proc_of_ne same]
  have child : ∀ q, ((s.leave c p (.schedReturn b after)).proc q).context.child =
      (s.proc q).context.child := by
    intro q
    by_cases same : q = p
    · subst same
      rw [proc_self, context]
      rfl
    · rw [proc_of_ne same]
  have point_self : (s.leave c p (.schedReturn b after)).point c = .schedulerBack p := by
    rw [point_of_idle (by rw [cpu_self]), cpu_self, back]
  have point_of_ne : ∀ {d}, d ≠ c → (s.leave c p (.schedReturn b after)).point d = s.point d := by
    intro d ne
    cases thread : (s.cpu d).thread with
    | none => rw [point_of_idle (by rw [cpu_of_ne ne, thread]), point_of_idle thread, cpu_of_ne ne]
    | some q =>
      have thread' : ((s.leave c p (.schedReturn b after)).cpu d).thread = some q := by
        rw [cpu_of_ne ne, thread]
      rw [point_of_thread thread', point_of_thread thread,
        proc_of_ne (thread_of_ne thread').2.2]
  have held : ∀ d, (s.leave c p (.schedReturn b after)).held d = s.held d := by
    intro d
    by_cases same : d = c
    · subst same
      rw [State.held, point_self, held_of_thread on, context]
      rfl
    · rw [State.held, point_of_ne same, cpu_of_ne same, State.held]
  constructor
  case locked => exact coh.locked.keep held
  case noff =>
    intro d
    rw [held]
    by_cases same : d = c
    · subst same
      rw [cpu_self]
      exact coh.noff d
    · rw [cpu_of_ne same]
      exact coh.noff d
  case intr =>
    intro d enabled
    rw [held]
    by_cases same : d = c
    · subst same
      rw [cpu_self] at enabled
      exact coh.intr d enabled
    · rw [cpu_of_ne same] at enabled
      exact coh.intr d enabled
  case sound =>
    intro q
    by_cases same : q = p
    · subst same
      rw [proc_self]
      exact ⟨by simp, resumes, sound⟩
    · rw [proc_of_ne same]
      exact coh.sound q
  case soundCpu =>
    intro d
    by_cases same : d = c
    · subst same
      rw [cpu_self]
      exact coh.soundCpu d
    · rw [cpu_of_ne same]
      exact coh.soundCpu d
  case proc_iff =>
    intro d q
    by_cases same : d = c
    · subst same
      rw [cpu_self]
      exact coh.proc_iff d q
    · rw [cpu_of_ne same]
      exact coh.proc_iff d q
  case thread_proc =>
    intro d q thread
    obtain ⟨ne, thread, -⟩ := thread_of_ne thread
    rw [cpu_of_ne ne]
    exact coh.thread_proc d q thread
  case proc_inj =>
    have before : ∀ d, ((s.leave c p (.schedReturn b after)).cpu d).proc = (s.cpu d).proc := by
      intro d
      by_cases same : d = c
      · subst same
        rw [cpu_self]
      · rw [cpu_of_ne same]
    intro d e q left right
    rw [before] at left right
    exact coh.proc_inj d e q left right
  case running =>
    intro d q thread
    obtain ⟨ne, thread, off⟩ := thread_of_ne thread
    rw [proc_of_ne off]
    exact coh.running d q thread
  case marked =>
    intro d q chan lk next thread marked
    obtain ⟨ne, thread, off⟩ := thread_of_ne thread
    rw [proc_of_ne off] at marked ⊢
    exact coh.marked d q chan lk next thread marked
  case parked =>
    intro q off
    by_cases same : q = p
    · subst same
      rw [proc_self]
      have runs := coh.running c q on
      rw [context] at runs
      cases after with
      | yieldRelease next => exact .yielded runs b next rfl
      | sleepTidy chan lk next =>
        refine .asleep (.inr runs) b lk next ?_
        rw [← coh.marked c q chan lk next on context]
      | zombieExit => exact .off (.inr (.inr runs)) (.inr ⟨b, rfl⟩)
      | _ => exact resumes.elim
    · rw [proc_of_ne same]
      refine coh.parked q fun d thread => ?_
      have ne : d ≠ c := by
        rintro rfl
        exact same (Option.some.inj (thread.symm.trans on))
      exact off d (by rw [cpu_of_ne ne, thread])
  case claimed =>
    intro d q claim
    rw [state]
    by_cases same : d = c
    · subst same
      rw [point_self] at claim
      cases claim
    · rw [point_of_ne same] at claim
      exact coh.claimed d q claim
  case filled =>
    intro q r ready fills
    rw [child] at fills
    obtain ⟨used, fresh⟩ := coh.filled q r ready fills
    have ne : r ≠ p := by
      rintro rfl
      rw [coh.running c r on] at used
      exact (Point.state_busy _).2 used
    rw [proc_of_ne ne]
    exact ⟨used, fresh⟩
  case filled_once =>
    intro q q' r ready ready' left right
    rw [child] at left right
    exact coh.filled_once q q' r ready ready' left right

/-- The state in which the scheduler of a CPU has switched to a process. -/
def enter (s : State n m L K) (c : Fin m) (q : Fin n) : State n m L K :=
  { s with
    toTable := s.toTable.set q fun r => { r with state := .RUNNING }
    cpu := Function.update s.cpu c
      { s.cpu c with proc := some q, thread := some q, context := .schedulerBack q } }

omit [DecidableEq K] in
/-- A process found `RUNNABLE` under its lock is on no CPU, and waits with its lock held. -/
theorem enter_coherent (idle : (s.cpu c).thread = none) (here : s.point c = .schedulerLocked q)
    (runnable : (s.proc q).state = .RUNNABLE) : (s.enter c q).Coherent := by
  have mine : Lock.proc q ∈ s.held c := by
    rw [held, here]
    exact List.mem_singleton_self _
  have off : ∀ d, (s.cpu d).thread ≠ some q := by
    intro d on
    have runs := coh.running d q on
    have also : Lock.proc q ∈ s.held d := by
      rw [held_of_thread on]
      cases context : (s.proc q).context with
      | sched next => exact List.mem_singleton_self _
      | _ =>
        rw [runnable, context] at runs
        cases runs
    have same := coh.locked.exclusive mine also
    rw [← same, idle] at on
    cases on
  have unback : ∀ d, (s.cpu d).proc ≠ some q := by
    intro d proc
    cases thread : (s.cpu d).thread with
    | some r =>
      have other := coh.thread_proc d r thread
      rw [proc, Option.some.injEq] at other
      exact off d (other ▸ thread)
    | none =>
      have back := (coh.proc_iff d q).mp proc
      have also : Lock.proc q ∈ s.held d := by
        rw [held_of_idle thread, back]
        exact List.mem_singleton_self _
      have same := coh.locked.exclusive mine also
      rw [point_of_idle idle, same, back] at here
      cases here
  have parked := coh.parked q off
  have context : (s.proc q).context = .forkret ∨
      ∃ b next, (s.proc q).context = .schedReturn b next := by
    cases parked with
    | off state => simp [runnable] at state
    | new state context => exact .inl context
    | yielded state b next context => exact .inr ⟨b, _, context⟩
    | asleep state b lk next context => exact .inr ⟨b, _, context⟩
  have cpu_of_ne : ∀ {d}, d ≠ c → (s.enter c q).cpu d = s.cpu d := fun ne => by simp [enter, ne]
  have cpu_self : (s.enter c q).cpu c =
      { s.cpu c with proc := some q, thread := some q, context := .schedulerBack q } := by
    simp [enter]
  have proc_self : (s.enter c q).proc q = { s.proc q with state := .RUNNING } := by
    simp [enter, Table.set]
  have proc_of_ne : ∀ {r}, r ≠ q → (s.enter c q).proc r = s.proc r :=
    fun ne => by simp [enter, Table.set, ne]
  have contexts : ∀ r, ((s.enter c q).proc r).context = (s.proc r).context := by
    intro r
    by_cases same : r = q
    · subst same
      rw [proc_self]
    · rw [proc_of_ne same]
  have point_self : (s.enter c q).point c = (s.proc q).context := by
    rw [point_of_thread (by rw [cpu_self]), contexts]
  have point_of_ne : ∀ {d}, d ≠ c → (s.enter c q).point d = s.point d := by
    intro d ne
    simp only [point, cpu_of_ne ne, contexts]
  have held : ∀ d, (s.enter c q).held d = s.held d := by
    intro d
    by_cases same : d = c
    · subst same
      rw [State.held, point_self, cpu_self, State.held, here]
      rcases context with context | ⟨b, next, context⟩ <;> rw [context] <;> rfl
    · rw [State.held, point_of_ne same, cpu_of_ne same, State.held]
  constructor
  case locked => exact coh.locked.keep held
  case noff =>
    intro d
    rw [held]
    by_cases same : d = c
    · subst same
      rw [cpu_self]
      exact coh.noff d
    · rw [cpu_of_ne same]
      exact coh.noff d
  case intr =>
    intro d enabled
    rw [held]
    by_cases same : d = c
    · subst same
      rw [cpu_self] at enabled
      exact coh.intr d enabled
    · rw [cpu_of_ne same] at enabled
      exact coh.intr d enabled
  case sound =>
    intro r
    rw [contexts]
    exact coh.sound r
  case soundCpu =>
    intro d
    by_cases same : d = c
    · subst same
      rw [cpu_self]
      trivial
    · rw [cpu_of_ne same]
      exact coh.soundCpu d
  case proc_iff =>
    intro d r
    by_cases same : d = c
    · subst same
      rw [cpu_self]
      simp
    · rw [cpu_of_ne same]
      exact coh.proc_iff d r
  case thread_proc =>
    intro d r thread
    by_cases same : d = c
    · subst same
      rw [cpu_self] at thread ⊢
      exact thread
    · rw [cpu_of_ne same] at thread ⊢
      exact coh.thread_proc d r thread
  case proc_inj =>
    have only : ∀ {d r}, d ≠ c → ((s.enter c q).cpu d).proc = some r → r ≠ q := by
      rintro d r ne proc rfl
      rw [cpu_of_ne ne] at proc
      exact unback d proc
    intro d e r left right
    by_cases same : d = c
    · by_cases same' : e = c
      · rw [same, same']
      · subst same
        rw [cpu_self, Option.some.injEq] at left
        exact absurd left.symm (only same' right)
    · by_cases same' : e = c
      · subst same'
        rw [cpu_self, Option.some.injEq] at right
        exact absurd right.symm (only same left)
      · rw [cpu_of_ne same] at left
        rw [cpu_of_ne same'] at right
        exact coh.proc_inj d e r left right
  case running =>
    intro d r thread
    by_cases same : d = c
    · subst same
      rw [cpu_self, Option.some.injEq] at thread
      subst thread
      rw [proc_self]
      rcases context with context | ⟨b, next, context⟩ <;> rw [context] <;> rfl
    · rw [cpu_of_ne same] at thread
      have ne : r ≠ q := by
        rintro rfl
        exact off d thread
      rw [proc_of_ne ne]
      exact coh.running d r thread
  case marked =>
    intro d r chan lk next thread marked
    rw [contexts] at marked
    by_cases same : d = c
    · subst same
      rw [cpu_self, Option.some.injEq] at thread
      subst thread
      rcases context with context | ⟨b, next, context⟩ <;> rw [context] at marked <;> cases marked
    · rw [cpu_of_ne same] at thread
      have ne : r ≠ q := by
        rintro rfl
        exact off d thread
      rw [proc_of_ne ne]
      exact coh.marked d r chan lk next thread marked
  case parked =>
    intro r off'
    have ne : r ≠ q := by
      rintro rfl
      exact off' c (by rw [cpu_self])
    rw [proc_of_ne ne]
    refine coh.parked r fun d thread => ?_
    by_cases same : d = c
    · subst same
      rw [idle] at thread
      cases thread
    · exact off' d (by rw [cpu_of_ne same, thread])
  case claimed =>
    intro d r claim
    have free : (s.proc r).state = .UNUSED := by
      by_cases same : d = c
      · subst same
        rw [point_self] at claim
        rcases context with context | ⟨b, next, context⟩ <;> rw [context] at claim <;> cases claim
      · rw [point_of_ne same] at claim
        exact coh.claimed d r claim
    have ne : r ≠ q := by
      rintro rfl
      simp [free] at runnable
    rw [proc_of_ne ne]
    exact free
  case filled =>
    intro p r ready fills
    rw [contexts] at fills
    obtain ⟨used, fresh⟩ := coh.filled p r ready fills
    have ne : r ≠ q := by
      rintro rfl
      simp [used] at runnable
    rw [proc_of_ne ne]
    exact ⟨used, fresh⟩
  case filled_once =>
    intro p p' r ready ready' left right
    rw [contexts] at left right
    exact coh.filled_once p p' r ready ready' left right

end Switch

end State

end Sistemas.Xv6.Process
