import Sistemas.Xv6.CallsExit
import Sistemas.Xv6.CallsSbrk

/-! # `fork`

A process that is made has all memory of its parent on pages of its own, and its files; if there is
not enough memory nothing is left of it.
-/

namespace Sistemas.Xv6.Calls

open Vm (Mem pgsize kalloc kfree InRam FreeList kernbase)
open Uvm
open Sysfile (nfile nofile)

variable {l : Layout} {tramp f g n : Nat} {fs gs hs : List Nat} {m m' : Mem} {s s' s₁ : State}
  {T : Fin nproc → Option Table} {t t' : Table} {p q np : Fin nproc} {boot : Nat → Prop}
  {i j : Fin nfile} {loose : List (Fin nfile)} {fd : Fin nofile} {r : Option Table}

/-! ## What is undone -/

/-- Nothing has happened, but that a number may be used up. -/
structure Undisturbed (l : Layout) (s s' : State) (fs gs : List Nat) : Prop where
  free : FreeList l.kend s'.mem gs
  pages : ∀ f, f ∈ gs ↔ f ∈ fs
  keeps : s.mem.bytes.Keeps pgsize (· ∉ fs) s'.mem.bytes
  file : s'.file = s.file
  iref : s'.iref = s.iref
  init : s'.initproc = s.initproc
  procs : ∀ q, s'.proc q = s.proc q ∨ (s.proc q).state = .UNUSED ∧ (s'.proc q).state = .UNUSED
  pid : s'.nextpid = s.nextpid ∨ s'.nextpid = wrapInt (s.nextpid + 1)

theorem Undisturbed.refl (free : FreeList l.kend s.mem fs) : Undisturbed l s s fs fs :=
  ⟨free, fun _ => .rfl, .refl _ _ _, rfl, rfl, rfl, fun _ => .inl rfl, .inl rfl⟩

/-- A slot that was unused is given up again. -/
theorem undisturbed_reset {proc : Proc} (unused : (s.proc np).state = .UNUSED)
    (step : Step l.kend s.mem m' fs gs Nothing Nothing)
    (eq : s' = (((s.allocpid np).setMem m').setProc np proc.reset)) :
    Undisturbed l s s' fs gs where
  free := eq ▸ step.free
  pages f := by
    have pages := step.pages f
    rwa [Nothing, or_false, or_false] at pages
  keeps := by
    rw [eq]
    exact step.keeps.mono fun f out => ⟨out, fun no => no⟩
  file := by rw [eq]; rfl
  iref := by rw [eq]; rfl
  init := by rw [eq]; rfl
  procs q := by
    rw [eq]
    by_cases same : q = np
    · subst same
      rw [State.setProc_self]
      exact .inr ⟨unused, rfl⟩
    · rw [State.setProc_other _ _ same, State.setMem_proc, State.allocpid,
        State.setProc_other _ _ same]
      exact .inl rfl
  pid := by rw [eq]; exact .inr rfl

theorem allocpid_ofile : ((s.allocpid np).proc np).ofile = (s.proc np).ofile := by
  rw [State.allocpid, State.setProc_self]

theorem sound_reset {proc : Proc} (sound : Sound l tramp boot s [] T fs)
    (unused : (s.proc np).state = .UNUSED) (ofile : proc.ofile = (s.proc np).ofile)
    (step : Step l.kend s.mem m' fs gs Nothing Nothing)
    (eq : s' = (((s.allocpid np).setMem m').setProc np proc.reset)) :
    Outcome l tramp boot T s p s' T gs ∧ ∀ q, (s.proc q).state ≠ .UNUSED → SamePages T T s s' q := by
  have none : T np = none ∧ ∀ fd, (s.proc np).ofile fd = none := by
    have here := sound.slot np
    generalize T np = r at here ⊢
    cases here with
    | unused _ _ _ _ closed => exact ⟨rfl, closed⟩
    | used notUnused => exact absurd unused notUnused
  have mem : s'.mem = m' := by rw [eq]; rfl
  have self : s'.proc np = proc.reset := by rw [eq, State.setProc_self]
  have other : ∀ q, q ≠ np → s'.proc q = s.proc q := by
    intro q ne
    rw [eq, State.setProc_other _ _ ne, State.setMem_proc, State.allocpid,
      State.setProc_other _ _ ne]
  have step' : Step l.kend s.mem s'.mem fs gs (Pages s.mem (T np)) (Pages s'.mem (T np)) := by
    rw [none.1, mem]
    exact step
  have moved := @Sound.step l tramp fs gs s s' T np boot [] (T np) sound step'
    (fun t eq => by rw [none.1] at eq; cases eq) ?_ other (by rw [eq]; rfl) ?_
  · rw [Function.update_eq_self] at moved
    have untouched : ∀ q, (s.proc q).state ≠ .UNUSED → Untouched T T s s' q := by
      intro q live
      have ne : q ≠ np := by
        rintro rfl
        exact live unused
      exact ⟨by rw [other q ne], rfl,
        sound.spaces.kept (o := some np) step' fun eq => ne (Option.some.inj eq)⟩
    exact ⟨⟨moved, by rw [eq]; rfl, fun q _ live => .inl (untouched q live)⟩,
      fun q live => ⟨rfl, (untouched q live).kept.pages⟩⟩
  · rw [self, none.1]
    exact .unused rfl rfl rfl rfl fun fd => by rw [Proc.reset, ofile, none.2]
  · rw [self]
    exact ofile

/-! ## `allocproc` -/

/-- What `allocproc` returns. -/
inductive NewProc (l : Layout) (tramp : Nat) (s : State) (fs : List Nat) :
    Option (Fin nproc) → State → Prop
  | full (all : ∀ q, (s.proc q).state ≠ .UNUSED) : NewProc l tramp s fs none s
  | failed {np : Fin nproc} {m' : Mem} {gs : List Nat} (unused : (s.proc np).state = .UNUSED)
      (step : Step l.kend s.mem m' fs gs Nothing Nothing) (few : fs.length ≤ 6) :
      NewProc l tramp s fs none (((s.allocpid np).setMem m').setProc np
        ((s.allocpid np).proc np).reset)
  | made {np : Fin nproc} {t : Table} {m' : Mem} {gs : List Nat}
      (unused : (s.proc np).state = .UNUSED) (ok : t.Ok l.kend tramp m' gs) (size : t.size = 0)
      (step : Step l.kend s.mem m' fs gs Nothing (t.Pages m')) (few : fs.length ≤ gs.length + 6) :
      NewProc l tramp s fs (some np) (((s.allocpid np).setMem m').setProc np
        { (s.allocpid np).proc np with
          trapframe := t.frame * pgsize, pagetable := t.root * pgsize })

theorem Sound.unused (sound : Sound l tramp boot s loose T fs)
    (unused : (s.proc np).state = .UNUSED) : T np = none ∧ (s.proc np).trapframe = 0 ∧
      (s.proc np).pagetable = 0 ∧ (s.proc np).sz = 0 ∧ ∀ fd, (s.proc np).ofile fd = none := by
  have here := sound.slot np
  generalize T np = r at here ⊢
  cases here with
  | unused _ trapframe pagetable sz closed => exact ⟨rfl, trapframe, pagetable, sz, closed⟩
  | used notUnused => exact absurd unused notUnused

theorem allocproc_spec (sound : Sound l tramp boot s [] T fs) :
    ∃ r s', allocproc l s = .ok (r, s') ∧ NewProc l tramp s fs r s' := by
  rw [allocproc]
  split
  next none =>
    refine ⟨_, s, rfl, .full fun q unused => ?_⟩
    have := List.find?_eq_none.mp none q (List.mem_finRange q)
    exact this (decide_eq_true unused)
  next np found =>
    have unused := List.find?_some found
    rw [decide_eq_true_eq] at unused
    obtain ⟨-, -, pagetable, -⟩ := sound.unused unused
    obtain ⟨r, s', ran, alloced⟩ := allocFound_spec (s := s.allocpid np) (p := np) sound.linked
      sound.spaces.free sound.trampEq sound.spaces.trampLt sound.spaces.trampText
      (by rw [State.allocpid, State.setProc_self]; exact pagetable)
    refine ⟨r, s', ran, ?_⟩
    cases alloced with
    | made ok size step few => exact .made unused ok size step few
    | failed step few => exact .failed unused step few

/-! ## The files of the child -/

/-- The child has the descriptors `fds` of its parent. -/
structure Dupped (p np : Fin nproc) (fds : List (Fin nofile)) (s s' : State) : Prop where
  mem : s'.mem = s.mem
  init : s'.initproc = s.initproc
  others : ∀ q, q ≠ np → s'.proc q = s.proc q
  proc : s'.proc np = { s.proc np with
    ofile := fun fd => if fd ∈ fds then (s.proc p).ofile fd else (s.proc np).ofile fd }

theorem dupLoop_spec (fds : List (Fin nofile)) (sound : Sound l tramp boot s [] T fs)
    (ne : p ≠ np) (state : (s.proc np).state = .USED) (nodup : fds.Nodup)
    (empty : ∀ fd ∈ fds, (s.proc np).ofile fd = none) :
    ∃ s', dupLoop p np fds s = .ok s' ∧ Sound l tramp boot s' [] T fs ∧ Dupped p np fds s s' := by
  induction fds generalizing s with
  | nil =>
    refine ⟨s, rfl, sound, rfl, rfl, fun _ _ => rfl, ?_⟩
    simp only [List.not_mem_nil, if_false]
  | cons fd fds ih =>
    obtain ⟨notIn, nodup⟩ := List.nodup_cons.mp nodup
    have here := empty fd List.mem_cons_self
    have rest : ∀ fd' ∈ fds, (s.proc np).ofile fd' = none := fun fd' mem =>
      empty fd' (List.mem_cons_of_mem fd mem)
    rw [dupLoop]
    cases from_ : (s.proc p).ofile fd with
    | none =>
      obtain ⟨s', ran, sound', dupped⟩ := ih sound state nodup rest
      have same : (fun fd' => if fd' ∈ fds then (s.proc p).ofile fd' else (s.proc np).ofile fd') =
          fun fd' => if fd' ∈ fd :: fds then (s.proc p).ofile fd' else (s.proc np).ofile fd' := by
        funext fd'
        by_cases eq : fd' = fd
        · rw [eq, if_neg notIn, if_pos List.mem_cons_self, here, from_]
        · simp only [List.mem_cons, eq, false_or]
      refine ⟨s', ran, sound', dupped.mem, dupped.init, dupped.others, ?_⟩
      rw [dupped.proc, same]
    | some i =>
      obtain ⟨s₁, ran₁, mem₁, proc₁, init₁, sound₁⟩ := filedup_spec sound from_
      have sound₂ := @Sound.give _ _ _ _ _ np _ _ _ fd sound₁ (by rw [proc₁, here])
        (by rw [proc₁, state]; decide) (by rw [proc₁, state]; decide)
      have other : ∀ q, q ≠ np → (s₁.setOfile np fd (some i)).proc q = s.proc q := by
        intro q ne
        rw [State.setOfile, State.setProc_other _ _ ne, proc₁]
      have self : (s₁.setOfile np fd (some i)).proc np = { s.proc np with
          ofile := Function.update (s.proc np).ofile fd (some i) } := by
        rw [State.setOfile, State.setProc_self, proc₁]
      have rest₂ : ∀ fd' ∈ fds, ((s₁.setOfile np fd (some i)).proc np).ofile fd' = none := by
        intro fd' mem
        rw [self]
        dsimp only
        rw [Function.update_of_ne, rest fd' mem]
        rintro rfl
        exact notIn mem
      obtain ⟨s', ran, sound', dupped⟩ := ih sound₂ (by rw [self]; exact state) nodup rest₂
      dsimp only [bind, Except.bind]
      rw [ran₁]
      refine ⟨s', ran, sound', dupped.mem.trans mem₁, dupped.init.trans init₁, fun q ne => ?_, ?_⟩
      · rw [dupped.others q ne, other q ne]
      · have same : (fun fd' => if fd' ∈ fds then (s.proc p).ofile fd'
              else Function.update (s.proc np).ofile fd (some i) fd') =
            fun fd' => if fd' ∈ fd :: fds then (s.proc p).ofile fd' else (s.proc np).ofile fd' := by
          funext fd'
          by_cases eq : fd' = fd
          · rw [eq, if_neg notIn, if_pos List.mem_cons_self, Function.update_self, from_]
          · simp only [List.mem_cons, eq, false_or, Function.update_of_ne, ne_eq, not_false_iff]
        rw [dupped.proc, other p ne, self]
        dsimp only
        rw [same]

/-! ## `fork` -/

theorem keeps_copyTrapframe (m : Mem) (f src : Nat) :
    m.bytes.Keeps pgsize (· ≠ f) (copyTrapframe (f * pgsize) src m).bytes := by
  have first := @Bytes.keeps_splice m.bytes (fun i => m.bytes (src + i)) pgsize f (f * pgsize) 288
    le_rfl (by rw [Nat.succ_mul]; unfold pgsize; omega)
  have second := Vm.keeps_store_word
    { m with bytes := m.bytes.splice (f * pgsize) 288 fun i => m.bytes (src + i) } (f := f)
    (i := 14) (by decide) 0
  exact first.trans second

/-- The end of `fork`, from the file table on. -/
def State.started (s : State) (p np : Fin nproc) : State :=
  let s := (s.setProc np { s.proc np with cwd := (s.proc p).cwd }).idup (s.proc p).cwd
  s.setProc np { s.proc np with
    name := safestrcpy (s.proc p).name 16, parent := some p, state := .RUNNABLE }

theorem idup_mem (s : State) (ip : Option (Fin Namex.ninode)) : (s.idup ip).mem = s.mem := by
  cases ip <;> rfl

theorem idup_file (s : State) (ip : Option (Fin Namex.ninode)) : (s.idup ip).file = s.file := by
  cases ip <;> rfl

theorem idup_proc (s : State) (ip : Option (Fin Namex.ninode)) : (s.idup ip).proc = s.proc := by
  cases ip <;> rfl

theorem idup_init (s : State) (ip : Option (Fin Namex.ninode)) :
    (s.idup ip).initproc = s.initproc := by
  cases ip <;> rfl

theorem started_mem : (s.started p np).mem = s.mem := idup_mem _ _

theorem started_file : (s.started p np).file = s.file := idup_file _ _

theorem started_init : (s.started p np).initproc = s.initproc := idup_init _ _

theorem started_other (ne : q ≠ np) : (s.started p np).proc q = s.proc q := by
  rw [State.started]
  dsimp only
  rw [State.setProc_other _ _ ne, idup_proc, State.setProc_other _ _ ne]

theorem started_self (ne : p ≠ np) : (s.started p np).proc np = { s.proc np with
    cwd := (s.proc p).cwd, name := safestrcpy (s.proc p).name 16, parent := some p,
    state := .RUNNABLE } := by
  rw [State.started]
  dsimp only
  rw [State.setProc_self, idup_proc, State.setProc_self, State.setProc_other _ _ ne]

/-- The process that `fork` makes. -/
structure Child (l : Layout) (tramp : Nat) (boot : Nat → Prop) (T : Fin nproc → Option Table)
    (s : State) (p : Fin nproc) (t : Table) (s' : State) (np : Fin nproc) (t' : Table)
    (gs : List Nat) : Prop where
  unused : (s.proc np).state = .UNUSED
  outcome : Outcome l tramp boot T s p s' (Function.update T np (some t')) gs
  parent : s'.proc p = s.proc p
  kept : Kept s.mem s'.mem (T p)
  proc : s'.proc np = { s.proc np with
    pid := s.nextpid, state := .RUNNABLE, trapframe := t'.frame * pgsize,
    pagetable := t'.root * pgsize, sz := (s.proc p).sz, ofile := (s.proc p).ofile,
    cwd := (s.proc p).cwd, name := safestrcpy (s.proc p).name 16, parent := some p }
  pages : ∀ v < t.size, PageCopied s.mem s'.mem t.map t'.map v

/-- What `fork` returns. -/
inductive Forked (l : Layout) (tramp : Nat) (boot : Nat → Prop) (T : Fin nproc → Option Table)
    (s : State) (p : Fin nproc) (t : Table) (fs : List Nat) : Int → State → Prop
  | failed {s' : State} {gs : List Nat} (outcome : Outcome l tramp boot T s p s' T gs)
      (same : SamePages T T s s' p) (undisturbed : Undisturbed l s s' fs gs) : Forked l tramp boot T s p t fs (-1) s'
  | child {s' : State} {np : Fin nproc} {t' : Table} {gs : List Nat}
      (child : Child l tramp boot T s p t s' np t' gs) :
      Forked l tramp boot T s p t fs s.nextpid s'

/-- The child after `uvmcopy`, when its size is set. -/
def State.sized (s : State) (np : Fin nproc) (m : Mem) (t : Table) (sz : Nat) : State :=
  ((s.allocpid np).setMem m).setProc np { (s.allocpid np).proc np with
    trapframe := t.frame * pgsize, pagetable := t.root * pgsize, sz := sz }

theorem sized_other {sz : Nat} (ne : q ≠ np) : (s.sized np m t sz).proc q = s.proc q := by
  rw [State.sized, State.setProc_other _ _ ne, State.setMem_proc, State.allocpid,
    State.setProc_other _ _ ne]

theorem sized_self {sz : Nat} : (s.sized np m t sz).proc np = { s.proc np with
    pid := s.nextpid, state := .USED, trapframe := t.frame * pgsize, pagetable := t.root * pgsize,
    sz := sz } := by
  rw [State.sized, State.setProc_self, State.allocpid, State.setProc_self]

theorem sound_sized {sz : Nat} (sound : Sound l tramp boot s [] T fs)
    (unused : (s.proc np).state = .UNUSED) (ok : t'.Ok l.kend tramp m gs)
    (step : Step l.kend s.mem m fs gs Nothing (t'.Pages m)) (size : pagesOf sz = t'.size) :
    Sound l tramp boot (s.sized np m t' sz) [] (Function.update T np (some t')) gs ∧
      ∀ q, q ≠ np → Kept s.mem m (T q) := by
  have none := (sound.unused unused).1
  have step' : Step l.kend s.mem m fs gs (Pages s.mem (T np)) (Pages m (some t')) := by
    rw [none]
    exact step
  refine ⟨@Sound.step l tramp fs gs s (s.sized np m t' sz) T np boot [] (some t') sound step'
    (fun t eq => ?_) ?_ (fun q ne => sized_other ne) rfl ?_, fun q ne => ?_⟩
  · cases eq
    exact ok
  · rw [sized_self]
    exact .used (fun no => by cases no) rfl rfl size fun no => by cases no
  · rw [sized_self]
  · exact sound.spaces.kept (o := some np) step' fun eq => ne (Option.some.inj eq)

theorem PageCopied.keep {m₁ m₂ : Mem} {M N : Vm.Map} {v : Nat} (copied : PageCopied m m₁ M N v)
    (keeps : ∀ f flags, N v = some (f, flags) → m₁.bytes.Keeps pgsize (· = f) m₂.bytes) :
    PageCopied m m₂ M N v := by
  obtain ⟨f, g, flags, mapped, mapped', same⟩ := copied
  refine ⟨f, g, flags, mapped, mapped', fun i lt => ?_⟩
  rw [(keeps f flags mapped').byte rfl lt, same i lt]

theorem forkRest_spec (sound : Sound l tramp boot s [] T fs) (here : T p = some t)
    (running : (s.proc p).state = .RUNNABLE) (unused : (s.proc np).state = .UNUSED)
    (ok : t'.Ok l.kend tramp m gs) (step : Step l.kend s.mem m fs gs Nothing (t'.Pages m))
    (size : t'.size = t.size) (pages : ∀ v < t.size, PageCopied s.mem m t.map t'.map v) {s₂ : State}
    (eq : s₂ = ((s.allocpid np).setMem m).setProc np { (s.allocpid np).proc np with
      trapframe := t'.frame * pgsize, pagetable := t'.root * pgsize }) :
    ∃ s', forkRest p np s₂ = .ok (s.nextpid, s') ∧ Child l tramp boot T s p t s' np t' gs := by
  have ne : p ≠ np := by
    rintro rfl
    rw [unused] at running
    cases running
  have sz₂ : (s₂.proc p).sz = (s.proc p).sz := by
    rw [eq, State.setProc_other _ _ ne, State.setMem_proc, State.allocpid,
      State.setProc_other _ _ ne]
  have sized : s₂.setProc np { s₂.proc np with sz := (s₂.proc p).sz } =
      s.sized np m t' (s.proc p).sz := by
    rw [sz₂, eq, State.setProc_setProc, State.setProc_self]
    rfl
  obtain ⟨sound₃, kept₃⟩ := sound_sized sound unused ok step
    ((sound.holds here).size.trans size.symm)
  have mine : Function.update T np (some t') np = some t' := Function.update_self ..
  have frame := Table.Ok.frame_out ok
  have wrote := keeps_copyTrapframe m t'.frame ((s.proc p).trapframe)
  generalize copied : copyTrapframe (t'.frame * pgsize) (s.proc p).trapframe m = m₃ at wrote
  have list : m₃.freelist = m.freelist := by
    rw [← copied]
    rfl
  obtain ⟨sound₄, kept₄, -⟩ := sound₃.write mine (ok.space.free.write frame list wrote)
    (wrote.mono fun f out eq => out (.inr eq))
  have other₄ : ∀ q, q ≠ np → ((s.sized np m t' (s.proc p).sz).setMem m₃).proc q = s.proc q :=
    fun q ne => sized_other ne
  have self₄ : ((s.sized np m t' (s.proc p).sz).setMem m₃).proc np = _ :=
    @sized_self m s t' np (s.proc p).sz
  obtain ⟨s₅, ran, sound₅, dupped⟩ := dupLoop_spec (List.finRange nofile) sound₄ ne
    (by rw [self₄]) (List.nodup_finRange nofile) fun fd _ => by
      rw [self₄]
      exact (sound.unused unused).2.2.2.2 fd
  have self₅ : s₅.proc np = { s.proc np with
      pid := s.nextpid, state := .USED, trapframe := t'.frame * pgsize,
      pagetable := t'.root * pgsize, sz := (s.proc p).sz, ofile := (s.proc p).ofile } := by
    rw [dupped.proc, self₄, other₄ p ne]
    simp only [List.mem_finRange, if_true]
  have other₅ : ∀ q, q ≠ np → s₅.proc q = s.proc q := fun q ne => by
    rw [dupped.others q ne, other₄ q ne]
  have self : (s₅.started p np).proc np = { s.proc np with
      pid := s.nextpid, state := .RUNNABLE, trapframe := t'.frame * pgsize,
      pagetable := t'.root * pgsize, sz := (s.proc p).sz, ofile := (s.proc p).ofile,
      cwd := (s.proc p).cwd, name := safestrcpy (s.proc p).name 16, parent := some p } := by
    rw [started_self ne, self₅, other₅ p ne]
  have mem : (s₅.started p np).mem = m₃ := started_mem.trans dupped.mem
  have kept : ∀ q, q ≠ np → Kept s.mem (s₅.started p np).mem (T q) := by
    intro q ne
    have second := kept₄ q ne
    rw [Function.update_of_ne ne] at second
    rw [mem]
    exact (kept₃ q ne).trans second
  have result : forkRest p np s₂ = .ok (s.nextpid, s₅.started p np) := by
    rw [forkRest]
    dsimp only
    rw [sized, sized_self, sized_other ne]
    dsimp only
    rw [show (s.sized np m t' (s.proc p).sz).mem = m from rfl, copied, ran]
    dsimp only [bind, Except.bind]
    rw [show ((_ : State).setProc np _) = s₅.started p np from rfl, self]
  refine ⟨_, result, unused, ⟨?_, started_init.trans dupped.init, fun q _ live => ?_⟩, ?_, kept p ne,
    self, fun v lt => ?_⟩
  · refine sound₅.congr started_mem (fun q => ?_) started_file fun q => ?_
    · by_cases same : q = np
      · rw [same, self, mine]
        exact .used (fun no => by cases no) rfl rfl ((sound.holds here).size.trans size.symm)
          fun no => by cases no
      · rw [started_other same]
        exact sound₅.slot q
    · by_cases same : q = np
      · rw [same, self, self₅]
      · rw [started_other same]
  · have other : q ≠ np := by
      rintro rfl
      exact live unused
    refine .inl ⟨?_, Function.update_of_ne other .., kept q other⟩
    rw [started_other other, other₅ q other]
  · rw [started_other ne, other₅ p ne]
  · rw [mem]
    refine PageCopied.keep (pages v lt) fun f flags mapped => wrote.mono ?_
    rintro g rfl eq
    have := ok.space.once v userPages _ _ (size ▸ lt) mapped ok.trapframe eq
    have := ok.space.le
    omega

/-- The child can copy what the parent has: it uses no page of the parent. -/
theorem copy_ready (sound : Sound l tramp boot s [] T fs) (here : T p = some t)
    (none : T np = none) (ok : t'.Ok l.kend tramp m gs)
    (step : Step l.kend s.mem m fs gs Nothing (t'.Pages m)) :
    t.Ok l.kend tramp m gs ∧ Unchanged s.mem m t.root t.map ∧
      Apart m t.root t.map t'.root t'.map := by
  have ne : p ≠ np := by
    rintro rfl
    rw [none] at here
    cases here
  have step' : Step l.kend s.mem m fs gs (Pages s.mem (T np)) (Pages m (some t')) := by
    rw [none]
    exact step
  have spaces := sound.spaces.step step' fun t eq => by
    cases eq
    exact ok
  have other : some p ≠ some np := fun eq => ne (Option.some.inj eq)
  obtain ⟨okParent, unchanged, -⟩ := sound.spaces.elsewhere (o := some np) step' other here
  refine ⟨okParent, unchanged, fun f uses held => ?_⟩
  have there : Function.update T np (some t') p = some t := by
    rw [Function.update_of_ne ne, here]
  refine spaces.uses_out there uses other (.inr ?_)
  rw [owns, Function.update_self]
  exact .inr held

theorem fork_spec (sound : Sound l tramp boot s [] T fs) (here : T p = some t)
    (running : (s.proc p).state = .RUNNABLE) :
    ∃ r s', fork l p s = .ok (r, s') ∧ Forked l tramp boot T s p t fs r s' := by
  have live : (s.proc p).state ≠ .UNUSED := by
    rw [running]
    decide
  obtain ⟨np, s₁, ran, made⟩ := allocproc_spec sound
  rw [fork, ran]
  dsimp only [bind, Except.bind]
  cases made with
  | full all =>
    exact ⟨-1, s, rfl, .failed (.refl sound p) (.refl T s p) (.refl sound.spaces.free)⟩
  | failed unused step =>
    obtain ⟨outcome, same⟩ := sound_reset (p := p) sound unused allocpid_ofile step rfl
    exact ⟨-1, _, rfl, .failed outcome (same p live) (undisturbed_reset unused step rfl)⟩
  | @made np t₀ m₁ gs unused ok size step =>
    have none := (sound.unused unused).1
    have ne : p ≠ np := by
      rintro rfl
      rw [unused] at running
      cases running
    obtain ⟨okParent, unchanged, apart⟩ := copy_ready sound here none ok step
    have holds := sound.holds here
    have child := ok.space
    rw [size] at child
    obtain ⟨done, m₂, copied, forked⟩ := uvmcopy_spec okParent.space child apart holds.size
    have parent₁ : (((s.allocpid np).setMem m₁).setProc np { (s.allocpid np).proc np with
        trapframe := t₀.frame * pgsize, pagetable := t₀.root * pgsize }).proc p = s.proc p := by
      rw [State.setProc_other _ _ ne, State.setMem_proc, State.allocpid,
        State.setProc_other _ _ ne]
    dsimp only
    rw [parent₁, holds.pagetable, State.setProc_self]
    dsimp only [State.setProc_mem, State.setMem_mem]
    rw [copied]
    dsimp only [liftUvm, Except.mapError]
    cases forked with
    | @copied N' hs space change rest pages =>
      have bound := okParent.space.le
      have ok' : Table.Ok l.kend tramp m₂ hs ⟨t₀.root, t₀.frame, t.size, N'⟩ :=
        ⟨space, (rest _ bound).trans ok.trapframe, (rest _ (by omega)).trans ok.trampoline⟩
      have total := step.trans (ProcSpace.step ok' change)
      have pages' : ∀ v < t.size, PageCopied s.mem m₂ t.map N' v := by
        intro v lt
        obtain ⟨f, g, flags, mapped, mapped', same⟩ := pages v lt
        refine ⟨f, g, flags, mapped, mapped', fun i inside => ?_⟩
        rw [same i inside]
        exact unchanged.keeps.byte (.inr ⟨v, _, mapped, rfl⟩) inside
      obtain ⟨s', ran', child'⟩ := forkRest_spec sound here running unused ok' total rfl pages' rfl
      rw [if_neg (by decide)]
      exact ⟨_, s', ran', .child child'⟩
    | @failed hs space change =>
      have ok' : Table.Ok l.kend tramp m₂ hs ⟨t₀.root, t₀.frame, 0, t₀.map⟩ :=
        ⟨space, ok.trapframe, ok.trampoline⟩
      have total := step.trans (ProcSpace.step ok' change)
      have ram : ∀ f, Table.Pages m₂ ⟨t₀.root, t₀.frame, 0, t₀.map⟩ f → InRam l.kend f := by
        intro f mine
        have pages := (total.pages f).mp (.inr mine)
        exact sound.spaces.free.inRam f (pages.resolve_right id)
      have zero : (((s.allocpid np).proc np).sz) = 0 := by
        rw [State.allocpid, State.setProc_self]
        exact (sound.unused unused).2.2.2.1
      obtain ⟨m₃, hs', freed, gone⟩ := @freeproc_table l tramp hs
        ((((s.allocpid np).setMem m₁).setProc np { (s.allocpid np).proc np with
          trapframe := t₀.frame * pgsize, pagetable := t₀.root * pgsize }).setMem m₂)
        ⟨t₀.root, t₀.frame, 0, t₀.map⟩ np sound.linked ok' (ram _ (.inl rfl))
        (ram _ (.inr (.inl (Vm.isTable (Nat.zero_le 2) (n := 0) rfl))))
        (by rw [State.setMem_proc, State.setProc_self]) (by rw [State.setMem_proc, State.setProc_self])
        (by rw [State.setMem_proc, State.setProc_self, zero]; rfl)
      rw [if_pos rfl, freed]
      simp only [State.setProc_setMem, State.setMem_setMem, State.setProc_setProc,
        State.setProc_self]
      obtain ⟨outcome, same⟩ := sound_reset (p := p) sound unused allocpid_ofile
        (total.trans gone) rfl
      exact ⟨-1, _, rfl, .failed outcome (same p live)
        (undisturbed_reset unused (total.trans gone) rfl)⟩

end Sistemas.Xv6.Calls
