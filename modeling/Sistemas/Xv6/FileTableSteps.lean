import Sistemas.Xv6.FileTableCounts

/-! # The steps inside a call

Each function of the file table keeps the invariant, and does not panic.
-/

namespace Sistemas.Xv6.FileTable

open Sysfile (nfile nofile nproc)

variable {s s' : State} {p q np : Fin nproc} {f g f0 f1 : Fin nfile} {fd : Fin nofile} {i pi : Nat}
  {next : Next} {writable valid : Bool}

attribute [local simp] Pc.unbacked

/-! ## What follows a `fileclose` -/

/-- The references of a process that has got to `next`. -/
def Next.holds (ofile : Fin nofile → Option (Fin nfile)) (f : Fin nfile) : Next → Nat
  | .close fs => slots ofile f + fs.count f
  | .exit fd => slots (Function.update ofile fd none) f

/-- The process behind it. -/
def Next.proc (ofile : Fin nofile → Option (Fin nfile)) : Next → Proc
  | .close [] => { pc := .user, ofile := ofile }
  | .close (f :: fs) => { pc := .fileclose f (.close fs), ofile := ofile }
  | .exit fd => { pc := .exitLoop (fd.val + 1), ofile := Function.update ofile fd none }

theorem runNext_eq : runNext s p next = s.setProc p (next.proc (s.proc p).ofile) := by
  cases next with
  | close fs => cases fs <;> rfl
  | exit fd => rfl

theorem Cleared.succ {ofile : Fin nofile → Option (Fin nfile)} (cleared : Cleared ofile fd.val) :
    Cleared (Function.update ofile fd none) (fd.val + 1) := by
  intro other lt
  by_cases same : other = fd
  · rw [same, Function.update_self]
  · have ne := Fin.val_ne_of_ne same
    rw [Function.update_of_ne same]
    exact cleared other (by omega)

/-- What the process holds behind `next`, and where it is then. -/
structure Next.Behind (next : Next) (ofile : Fin nofile → Option (Fin nfile)) : Prop where
  holds : ∀ g, (next.proc ofile).holds g = next.holds ofile g
  closing : ∀ a w, (next.proc ofile).pc.closing a w = 0
  freeing : ∀ a, (next.proc ofile).pc.freeing a = 0
  made : (next.proc ofile).pc.made = []
  childless : ∀ np i, (next.proc ofile).pc ≠ .forkLoop np i
  ok : next.Ok ofile → (next.proc ofile).Ok

theorem Next.behind (next : Next) (ofile : Fin nofile → Option (Fin nfile)) :
    next.Behind ofile := by
  have holds : ∀ g, (next.proc ofile).holds g = next.holds ofile g := by
    intro g
    rcases next with (_ | ⟨f, fs⟩) | fd <;>
      simp [Proc.holds, Proc.backed, Next.proc, Pc.unbacked, Pc.loose, Next.holds]
  cases next with
  | close fs =>
    cases fs <;>
      exact ⟨holds, fun _ _ => rfl, fun _ => rfl, rfl, fun _ _ => by simp [Next.proc],
        fun _ => trivial⟩
  | exit fd =>
    exact ⟨holds, fun _ _ => rfl, fun _ => rfl, rfl, fun _ _ => by simp [Next.proc],
      fun ok => Cleared.succ ok⟩

/-- Before the `fileclose` there is one reference more. -/
theorem holds_fileclose {proc : Proc} (pc : proc.pc = .fileclose f next) (ok : proc.Ok) :
    (∀ g, proc.holds g = next.holds proc.ofile g + if f = g then 1 else 0) ∧
      next.Ok proc.ofile := by
  cases next with
  | close fs =>
    refine ⟨fun g => ?_, trivial⟩
    simp only [Proc.holds, Proc.backed, pc, Pc.unbacked, Pc.loose, Next.holds, List.count_cons]
    simp [Nat.add_assoc]
  | exit fd =>
    simp only [Proc.Ok, pc] at ok
    refine ⟨fun g => ?_, ok.2⟩
    have update := slots_update g proc.ofile fd none
    rw [ok.1] at update
    simp [Option.some.injEq] at update
    simp only [Proc.holds, Proc.backed, pc, Pc.unbacked, Pc.loose, Next.holds, List.count_nil]
    omega

/-- Until it has got there nothing changes. -/
theorem holds_pipeclose {proc : Proc} (pc : proc.pc = .pipeclose pi writable next)
    (g : Fin nfile) : proc.holds g = next.holds proc.ofile g := by
  cases next <;> simp [Proc.holds, Proc.backed, pc, Pc.unbacked, Pc.loose, Next.loose, Next.holds]

theorem holds_kfree {proc : Proc} (pc : proc.pc = .kfree pi next) (g : Fin nfile) :
    proc.holds g = next.holds proc.ofile g := by
  cases next <;> simp [Proc.holds, Proc.backed, pc, Pc.unbacked, Pc.loose, Next.loose, Next.holds]

/-! ## Closing a file -/

theorem Inv.fileclose (inv : Inv s) (pc : (s.proc p).pc = .fileclose f next) :
    ∃ s', runFileclose s p f next = .ok s' ∧ Inv s' := by
  obtain ⟨holds, ok⟩ := holds_fileclose pc (inv.ok p)
  have behind := next.behind (s.proc p).ofile
  have grown : ∀ q, (s.proc p).pc ≠ .used q := by simp [pc]
  have closing : ∀ a w, (s.proc p).pc.closing a w = 0 := by simp [pc, Pc.closing]
  have freeing : ∀ a, (s.proc p).pc.freeing a = 0 := by simp [pc, Pc.freeing]
  have one := holds f
  rw [if_pos rfl] at one
  have others : ∀ g ≠ f, (s.proc p).holds g = next.holds (s.proc p).ofile g := fun g ne => by
    rw [holds g, if_neg (Ne.symm ne), Nat.add_zero]
  have le := holds_le (s := s) (f := f) p
  have ref := inv.ref_eq f
  unfold runFileclose
  rw [if_neg (by omega)]
  by_cases shared : 1 < (s.file f).ref
  · rw [if_pos shared, runNext_eq, setFile_proc]
    refine ⟨_, rfl, inv.setFile grown behind.childless (.inl (by omega)) ?_ ?_ ?_ ?_ ?_ ?_
      (behind.ok ok)⟩
    · rw [behind.holds]
      simp only
      omega
    · intro g ne
      rw [behind.holds, others g ne]
    · intro a w
      rw [behind.closing, closing]
      rfl
    · intro a
      rw [behind.freeing, freeing]
    · intro zero
      simp only at zero
      omega
    · simp [behind.made]
  · rw [if_neg shared]
    -- the last reference
    have last : (s.file f).ref = 1 := by omega
    by_cases isPipe : (s.file f).type = .pipe
    · simp only [isPipe, State.jump, setFile_proc]
      have after : ∀ g, ({ pc := .pipeclose (s.file f).pipe (s.file f).writable next
                           ofile := (s.proc p).ofile } : Proc).holds g =
          next.holds (s.proc p).ofile g := holds_pipeclose rfl
      refine ⟨_, rfl, inv.setFile grown (by simp) (.inl (by omega)) ?_ ?_ ?_ ?_ (fun _ => rfl)
        (by simp [Pc.made]) ok⟩
      · rw [after]
        simp only
        omega
      · intro g ne
        rw [after, others g ne]
      · intro a w
        rw [closing]
        simp [File.isEnd, isPipe, Pc.closing]
      · intro a
        rw [freeing]
        rfl
    · simp only [runNext_eq, setFile_proc]
      refine ⟨_, rfl, inv.setFile grown behind.childless (.inl (by omega)) ?_ ?_ ?_ ?_
        (fun _ => rfl) (by simp [behind.made]) (behind.ok ok)⟩
      · rw [behind.holds]
        simp only
        omega
      · intro g ne
        rw [behind.holds, others g ne]
      · intro a w
        rw [behind.closing, closing]
        simp [File.isEnd, isPipe]
      · intro a
        rw [behind.freeing, freeing]

theorem closing_le (p : Fin nproc) : (s.proc p).pc.closing pi writable ≤ ends s pi writable := by
  have le := Finset.single_le_sum (f := fun p => (s.proc p).pc.closing pi writable)
    (fun _ _ => Nat.zero_le _) (Finset.mem_univ p)
  rw [ends]
  omega

theorem freeing_le (p : Fin nproc) : (s.proc p).pc.freeing pi ≤ freeing s pi :=
  Finset.single_le_sum (f := fun p => (s.proc p).pc.freeing pi) (fun _ _ => Nat.zero_le _)
    (Finset.mem_univ p)

theorem opens_pos {page : Option Pipe} (pos : 0 < opens page writable) :
    ∃ pipe, page = some pipe ∧ pipe.isOpen writable = true := by
  cases page with
  | none => simp [opens] at pos
  | some pipe =>
    refine ⟨pipe, rfl, ?_⟩
    by_contra closed
    rw [Bool.not_eq_true] at closed
    simp [opens, closed] at pos

/-- Closing an end that is open. -/
theorem opens_close {pipe : Pipe} (isOpen : pipe.isOpen writable = true) (w : Bool) :
    opens (some (pipe.close writable)) w + (if writable = w then 1 else 0) = opens (some pipe) w := by
  cases writable <;> cases w <;> simp_all [opens, Pipe.close, Pipe.isOpen]

theorem dead_of_open {pipe : Pipe} (isOpen : pipe.isOpen writable = true) :
    dead (some pipe) = 0 := by
  cases pipe
  cases writable <;> simp_all [dead, Pipe.isOpen]

theorem Inv.pipeclose (inv : Inv s) (pc : (s.proc p).pc = .pipeclose pi writable next) :
    ∃ s', runPipeclose s p pi writable next = .ok s' ∧ Inv s' := by
  have ok := inv.ok p
  simp only [Proc.Ok, pc] at ok
  have behind := next.behind (s.proc p).ofile
  have holds := holds_pipeclose pc
  have grown : ∀ q, (s.proc p).pc ≠ .used q := by simp [pc]
  have closing : ∀ a w, (s.proc p).pc.closing a w = if pi = a ∧ writable = w then 1 else 0 := by
    simp [pc, Pc.closing]
  have freeing : ∀ a, (s.proc p).pc.freeing a = 0 := by simp [pc, Pc.freeing]
  -- the end is still open
  have mine := closing pi writable
  rw [if_pos ⟨rfl, rfl⟩] at mine
  have le : (s.proc p).pc.closing pi writable ≤ ends s pi writable := closing_le p
  rw [inv.ends_eq] at le
  have pos : 0 < opens (s.page pi) writable := by omega
  obtain ⟨pipe, page, isOpen⟩ := opens_pos pos
  have ends' : ∀ a w, opens (s.page a) w = opens (Function.update s.page pi
      (some (pipe.close writable)) a) w + if pi = a ∧ writable = w then 1 else 0 := by
    intro a w
    by_cases same : a = pi
    · subst same
      rw [Function.update_self, page, ← opens_close isOpen w]
      simp
    · rw [Function.update_of_ne same, if_neg fun both => same both.1.symm]
      rfl
  simp only [runPipeclose, page]
  by_cases closed : (pipe.close writable).readopen = false ∧ (pipe.close writable).writeopen = false
  · rw [if_pos closed]
    refine ⟨_, rfl, inv.move inv.quiet rfl ?_ ?_ ?_ inv.unused (fun _ _ _ _ => rfl)
      (by simp [Pc.made]) ok (inv.children rfl grown (by simp))⟩
    · intro g
      let freed : Proc := { pc := .kfree pi next, ofile := (s.proc p).ofile }
      have after : freed.holds g = next.holds (s.proc p).ofile g := holds_kfree rfl g
      rw [holds g]
      exact congrArg _ after.symm
    · intro a w
      rw [ends' a w, closing]
      simp only [State.jump, State.setProc, State.setPage, Pc.closing]
      omega
    · intro a
      rw [freeing]
      by_cases same : a = pi
      · subst same
        have gone : pipe.close writable = { readopen := false, writeopen := false } := by
          cases new : pipe.close writable
          simp_all
        have before : dead (s.page a) = 0 := by
          rw [page]
          exact dead_of_open isOpen
        have after : dead (Function.update s.page a (some (pipe.close writable)) a) = 1 := by
          rw [Function.update_self, dead, if_pos (by rw [gone])]
        simp only [State.jump, State.setProc, State.setPage, Pc.freeing, before, after, if_true]
      · simp [State.jump, State.setProc, State.setPage, Pc.freeing, Function.update_of_ne same,
          Ne.symm same]
  · rw [if_neg closed, runNext_eq, setPage_proc]
    refine ⟨_, rfl, inv.move inv.quiet rfl ?_ ?_ ?_ inv.unused (fun _ _ _ _ => rfl)
      (by simp [behind.made]) (behind.ok ok) (inv.children rfl grown behind.childless)⟩
    · intro g
      rw [holds g, behind.holds]
      rfl
    · intro a w
      rw [ends' a w, closing, behind.closing]
      simp only [State.setProc, State.setPage]
      omega
    · intro a
      rw [freeing, behind.freeing]
      by_cases same : a = pi
      · subst same
        have alive : ¬ pipe.close writable = { readopen := false, writeopen := false } := by
          intro eq
          exact closed (by rw [eq]; exact ⟨rfl, rfl⟩)
        have before : dead (s.page a) = 0 := by
          rw [page]
          exact dead_of_open isOpen
        have after : dead (Function.update s.page a (some (pipe.close writable)) a) = 0 := by
          rw [Function.update_self, dead, if_neg fun eq => alive (Option.some.inj eq)]
        simp only [State.setProc, State.setPage, before, after]
      · simp [State.setProc, State.setPage, Function.update_of_ne same]

theorem Inv.kfree (inv : Inv s) (pc : (s.proc p).pc = .kfree pi next) :
    ∃ s', runKfree s p pi next = .ok s' ∧ Inv s' := by
  have ok := inv.ok p
  simp only [Proc.Ok, pc] at ok
  have behind := next.behind (s.proc p).ofile
  have holds := holds_kfree pc
  have grown : ∀ q, (s.proc p).pc ≠ .used q := by simp [pc]
  have closing : ∀ a w, (s.proc p).pc.closing a w = 0 := by simp [pc, Pc.closing]
  have freeing : ∀ a, (s.proc p).pc.freeing a = if pi = a then 1 else 0 := by simp [pc, Pc.freeing]
  -- the page is there, with both ends closed
  have mine := freeing pi
  rw [if_pos rfl] at mine
  have le : (s.proc p).pc.freeing pi ≤ FileTable.freeing s pi := freeing_le p
  rw [inv.freeing_eq] at le
  have page : s.page pi = some { readopen := false, writeopen := false } := by
    by_contra other
    rw [dead, if_neg other] at le
    omega
  simp only [runKfree, page]
  rw [runNext_eq, setPage_proc]
  refine ⟨_, rfl, inv.move inv.quiet rfl ?_ ?_ ?_ inv.unused (fun _ _ _ _ => rfl)
    (by simp [behind.made]) (behind.ok ok) (inv.children rfl grown behind.childless)⟩
  · intro g
    rw [holds g, behind.holds]
    rfl
  · intro a w
    rw [closing, behind.closing]
    by_cases same : a = pi
    · subst same
      cases w <;> simp [State.setProc, State.setPage, page, opens, Pipe.isOpen]
    · simp [State.setProc, State.setPage, Function.update_of_ne same]
  · intro a
    rw [freeing, behind.freeing]
    by_cases same : a = pi
    · subst same
      simp [State.setProc, State.setPage, page, dead]
    · simp [State.setProc, State.setPage, Function.update_of_ne same, Ne.symm same]

/-! ## Taking an entry -/

theorem filealloc_some (found : filealloc s = some f) : (s.file f).ref = 0 := by
  have eq := List.find?_some found
  simpa using eq

theorem fdalloc_some {ofile : Fin nofile → Option (Fin nfile)} (found : fdalloc ofile = some fd) :
    ofile fd = none := by
  have eq := List.find?_some found
  simpa using eq

/-- A step of a process that takes a free entry and goes on at `pc`. -/
theorem Inv.filealloc {pc : Pc} (inv : Inv s) (found : filealloc s = some f)
    (plain : (s.proc p).pc.unbacked = none ∧ pc.unbacked = none)
    (loose : ∀ g, pc.loose.count g = (s.proc p).pc.loose.count g + if f = g then 1 else 0)
    (made : ∀ g ∈ pc.made, g = f ∨ g ∈ (s.proc p).pc.made)
    (grown : ∀ q, (s.proc p).pc ≠ .used q) (childless : ∀ np i, pc ≠ .forkLoop np i)
    (closing : ∀ a w, pc.closing a w = (s.proc p).pc.closing a w)
    (freeing : ∀ a, pc.freeing a = (s.proc p).pc.freeing a)
    (ok : ({ pc := pc, ofile := (s.proc p).ofile } : Proc).Ok) :
    Inv ((s.setFile f (s.file f).alloc).jump p pc) := by
  have free := filealloc_some found
  have type := inv.unused f free
  have holds : ∀ g, ({ pc := pc, ofile := (s.proc p).ofile } : Proc).holds g =
      (s.proc p).holds g + if f = g then 1 else 0 := by
    intro g
    simp only [Proc.holds, Proc.backed, plain.1, plain.2, loose g]
    omega
  refine inv.setFile grown childless (.inr free) ?_ ?_ ?_ freeing (fun _ => type) ?_ ok
  · rw [setFile_proc, holds f, if_pos rfl, free]
    simp only [File.alloc]
    omega
  · intro g ne
    rw [setFile_proc, holds g, if_neg (Ne.symm ne), Nat.add_zero]
  · intro a w
    rw [← closing a w]
    rfl
  · intro g mem
    by_cases same : g = f
    · exact .inl ⟨same, rfl, type⟩
    · exact .inr ⟨same, (made g mem).resolve_left same⟩

/-- A loose reference goes into a free slot. -/
theorem slots_fill {ofile : Fin nofile → Option (Fin nfile)} (free : ofile fd = none)
    (g : Fin nfile) : slots (Function.update ofile fd (some f)) g =
      slots ofile g + if f = g then 1 else 0 := by
  have update := slots_update g ofile fd (some f)
  rw [free] at update
  simpa [Option.some.injEq] using update

theorem Inv.openFd {ip : Opened} (inv : Inv s) (pc : (s.proc p).pc = .openFd f ip) :
    Inv (runOpenFd s p f ip) := by
  have grown : ∀ q, (s.proc p).pc ≠ .used q := by simp [pc]
  have holds : ∀ g, (s.proc p).holds g = slots (s.proc p).ofile g + if f = g then 1 else 0 := by
    intro g
    simp [Proc.holds, Proc.backed, pc, Pc.unbacked, Pc.loose, List.count_singleton]
  unfold runOpenFd
  cases found : fdalloc (s.proc p).ofile with
  | none =>
    refine inv.setProc grown (by simp) ?_ ?_ ?_ rfl trivial
    · intro g
      rw [holds]
      simp [Proc.holds, Proc.backed, Pc.unbacked, Pc.loose, List.count_singleton]
    · simp [pc, Pc.closing]
    · simp [pc, Pc.freeing]
  | some fd =>
    obtain ⟨one, none⟩ := inv.made p f (by simp [pc, Pc.made])
    have mine := holds f
    rw [if_pos rfl] at mine
    have after : ∀ g, ({ pc := .user, ofile := Function.update (s.proc p).ofile fd (some f) } :
        Proc).holds g = (s.proc p).holds g := by
      intro g
      rw [holds, ← slots_fill (fdalloc_some found)]
      simp [Proc.holds, Proc.backed, Pc.unbacked, Pc.loose]
    have noPipe : (if ip.device = true then FileType.device else .inode) ≠ .pipe := by
      split <;> simp
    refine inv.setFile grown (by simp) (.inl (by omega)) ?_ ?_ ?_ ?_ ?_ (by simp [Pc.made]) trivial
    · rw [setFile_proc, after]
    · intro g _
      rw [setFile_proc, after]
    · intro a w
      simp [File.isEnd, none, noPipe, pc, Pc.closing]
    · simp [pc, Pc.freeing]
    · intro zero
      simp only at zero
      omega

theorem Inv.dup (inv : Inv s) (pc : (s.proc p).pc = .dup fd f) :
    ∃ s', runFiledup s f = .ok s' ∧ Inv (s'.jump p .user) := by
  have ok := inv.ok p
  simp only [Proc.Ok, pc] at ok
  obtain ⟨slot, fd', other, slot'⟩ := ok
  have holds : ∀ g, (s.proc p).holds g = slots (Function.update (s.proc p).ofile fd none) g := by
    intro g
    simp [Proc.holds, Proc.backed, pc, Pc.unbacked, Pc.loose]
  have after : ∀ g, ({ pc := .user, ofile := (s.proc p).ofile } : Proc).holds g =
      (s.proc p).holds g + if f = g then 1 else 0 := by
    intro g
    have update := slots_update g (s.proc p).ofile fd none
    rw [slot] at update
    simp only [Option.some.injEq, reduceCtorEq, if_false, Nat.add_zero] at update
    rw [holds]
    simp only [Proc.holds, Proc.backed, Pc.unbacked, Pc.loose, List.count_nil]
    omega
  have mine : 0 < (s.proc p).holds f := by
    rw [holds]
    have slot : Function.update (s.proc p).ofile fd none fd' = some f := by
      rwa [Function.update_of_ne other]
    exact slots_pos slot
  have le := holds_le (s := s) (f := f) p
  have ref := inv.ref_eq f
  unfold runFiledup
  rw [if_neg (by omega)]
  refine ⟨_, rfl, inv.setFile (by simp [pc]) (by simp) (.inl mine) ?_ ?_ ?_ ?_ ?_
    (by simp [Pc.made]) trivial⟩
  · rw [setFile_proc, after, if_pos rfl]
    simp only
    omega
  · intro g ne
    rw [setFile_proc, after, if_neg (Ne.symm ne), Nat.add_zero]
  · simp [File.isEnd, pc, Pc.closing]
  · simp [pc, Pc.freeing]
  · intro zero
    simp at zero

theorem Inv.exitLoop (inv : Inv s) (pc : (s.proc p).pc = .exitLoop i) :
    Inv (runExitLoop s p i) := by
  have ok := inv.ok p
  simp only [Proc.Ok, pc] at ok
  have grown : ∀ q, (s.proc p).pc ≠ .used q := by simp [pc]
  have holds : ∀ g, (s.proc p).holds g = slots (s.proc p).ofile g := by
    intro g
    simp [Proc.holds, Proc.backed, pc, Pc.unbacked, Pc.loose]
  unfold runExitLoop
  split
  next lt =>
    cases slot : (s.proc p).ofile ⟨i, lt⟩ with
    | none =>
      refine inv.setProc grown (by simp) ?_ (by simp [pc, Pc.closing]) (by simp [pc, Pc.freeing])
        rfl ?_
      · intro g
        rw [holds]
        simp [Proc.holds, Proc.backed, Pc.unbacked, Pc.loose]
      · intro fd below
        obtain before | here := Nat.lt_succ_iff_lt_or_eq.mp below
        · exact ok fd before
        · rwa [show fd = ⟨i, lt⟩ from Fin.ext here]
    | some f =>
      refine inv.setProc grown (by simp) ?_ (by simp [pc, Pc.closing]) (by simp [pc, Pc.freeing])
        rfl ⟨slot, ok⟩
      intro g
      rw [holds]
      simp [Proc.holds, Proc.backed, Pc.unbacked, Pc.loose]
  next past =>
    refine inv.setProc grown (by simp) ?_ (by simp [pc, Pc.closing]) (by simp [pc, Pc.freeing])
      rfl ?_
    · intro g
      rw [holds]
      simp [Proc.holds, Proc.backed, Pc.unbacked, Pc.loose]
    · intro fd below
      exact ok fd (by omega)

theorem Inv.pipeFds (inv : Inv s) (pc : (s.proc p).pc = .pipeFds f0 f1 valid) :
    Inv (runPipeFds s p f0 f1 valid) := by
  have grown : ∀ q, (s.proc p).pc ≠ .used q := by simp [pc]
  have holds : ∀ g, (s.proc p).holds g = slots (s.proc p).ofile g + [f0, f1].count g := by
    intro g
    simp [Proc.holds, Proc.backed, pc, Pc.unbacked, Pc.loose]
  -- the ways to close both files again
  have back : ∀ ofile, ofile = (s.proc p).ofile →
      Inv (s.setProc p { pc := .fileclose f0 (.close [f1]), ofile := ofile }) := by
    rintro _ rfl
    refine inv.setProc grown (by simp) ?_ (by simp [pc, Pc.closing]) (by simp [pc, Pc.freeing])
      rfl trivial
    intro g
    rw [holds]
    simp [Proc.holds, Proc.backed, Pc.unbacked, Pc.loose]
  unfold runPipeFds
  simp only
  cases found0 : fdalloc (s.proc p).ofile with
  | none => exact back _ rfl
  | some fd0 =>
    have free0 := fdalloc_some found0
    have same0 : Function.update (s.proc p).ofile fd0 none = (s.proc p).ofile := by
      rw [← free0, Function.update_eq_self]
    simp only
    cases found1 : fdalloc (Function.update (s.proc p).ofile fd0 (some f0)) with
    | none =>
      simp only
      exact back _ same0
    | some fd1 =>
      have free1 := fdalloc_some found1
      have apart : fd1 ≠ fd0 := by
        rintro rfl
        simp at free1
      simp only
      split
      next =>
        refine inv.setProc grown (by simp) ?_ (by simp [pc, Pc.closing]) (by simp [pc, Pc.freeing])
          rfl trivial
        intro g
        rw [holds]
        simp only [Proc.holds, Proc.backed, Pc.unbacked, Pc.loose, List.count_nil,
          slots_fill free1, slots_fill free0]
        simp [List.count_cons]
        omega
      next =>
        refine back _ ?_
        rw [Function.update_of_ne apart] at free1
        rw [same0, ← free1, Function.update_eq_self]

theorem Inv.pipePage {page : Option Nat} (inv : Inv s) (pc : (s.proc p).pc = .pipePage f0 f1 valid)
    (fresh : ∀ pi, page = some pi → s.page pi = none) :
    Inv (runPipePage s p f0 f1 valid page) := by
  have grown : ∀ q, (s.proc p).pc ≠ .used q := by simp [pc]
  have holds : ∀ g, (s.proc p).holds g = slots (s.proc p).ofile g + [f0, f1].count g := by
    intro g
    simp [Proc.holds, Proc.backed, pc, Pc.unbacked, Pc.loose]
  cases page with
  | none =>
    refine inv.setProc grown (by simp) ?_ (by simp [pc, Pc.closing]) (by simp [pc, Pc.freeing])
      rfl trivial
    intro g
    rw [holds]
    simp [Proc.holds, Proc.backed, Pc.unbacked, Pc.loose]
  | some pi =>
    have free := fresh pi rfl
    obtain ⟨one0, none0⟩ := inv.made p f0 (by simp [pc, Pc.made])
    obtain ⟨one1, none1⟩ := inv.made p f1 (by simp [pc, Pc.made])
    -- two references to one entry would be one too many
    have apart : f1 ≠ f0 := by
      rintro rfl
      have le := holds_le (s := s) (f := f1) p
      rw [holds, ← inv.ref_eq, one1] at le
      simp at le
    have held : ∀ g, (s.proc p).holds g = 0 → g ≠ f0 ∧ g ≠ f1 := by
      intro g zero
      rw [holds] at zero
      constructor <;> rintro rfl <;> simp [List.count_cons] at zero
    let file0 : File :=
      { s.file f0 with type := .pipe, readable := true, writable := false, pipe := pi }
    let file1 : File :=
      { s.file f1 with type := .pipe, readable := false, writable := true, pipe := pi }
    have at1 : Function.update s.file f0 file0 f1 = s.file f1 := Function.update_of_ne apart ..
    have made : runPipePage s p f0 f1 valid (some pi) =
        (((s.setPage pi (some { readopen := true, writeopen := true })).setFile f0 file0).setFile f1
          file1).jump p (.pipeFds f0 f1 valid) := rfl
    rw [made]
    have files : ∀ g, (((((s.setPage pi (some { readopen := true, writeopen := true })).setFile f0
        file0).setFile f1 file1).jump p (.pipeFds f0 f1 valid)).file g) =
        if g = f1 then file1 else if g = f0 then file0 else s.file g := by
      intro g
      simp only [State.jump, State.setProc, State.setFile, State.setPage, Function.update_apply]
    refine inv.move inv.quiet rfl ?_ ?_ ?_ ?_ ?_ (by simp [Pc.made]) trivial
      (inv.children rfl grown (by simp))
    · intro g
      have same : ({ pc := .pipeFds f0 f1 valid, ofile := (s.proc p).ofile } : Proc).holds g =
          (s.proc p).holds g := by
        rw [holds]
        simp [Proc.holds, Proc.backed, Pc.unbacked, Pc.loose]
      rw [files]
      simp only [State.setFile, State.setPage]
      rw [same]
      by_cases is1 : g = f1
      · rw [is1, if_pos rfl]
      · rw [if_neg is1]
        by_cases is0 : g = f0
        · rw [is0, if_pos rfl]
        · rw [if_neg is0]
    · intro a w
      have sum0 := sum_update (Finset.mem_univ f0) s.file file0 fun _ file => file.isEnd a w
      have sum1 := sum_update (Finset.mem_univ f1) (Function.update s.file f0 file0) file1
        fun _ file => file.isEnd a w
      rw [at1] at sum1
      have was0 : (s.file f0).isEnd a w = 0 := by simp [File.isEnd, none0]
      have was1 : (s.file f1).isEnd a w = 0 := by simp [File.isEnd, none1]
      have closing : (s.proc p).pc.closing a w = 0 := by simp [pc, Pc.closing]
      have both : file0.isEnd a w + file1.isEnd a w + opens (s.page a) w =
          opens (Function.update s.page pi (some { readopen := true, writeopen := true }) a) w := by
        by_cases same : a = pi
        · subst same
          rw [free, Function.update_self]
          cases w <;> simp [file0, file1, File.isEnd, opens, Pipe.isOpen]
        · rw [Function.update_of_ne same]
          simp [file0, file1, File.isEnd, Ne.symm same]
      have closing' : (Pc.pipeFds f0 f1 valid).closing a w = 0 := rfl
      simp only [State.jump, State.setProc, State.setFile, State.setPage, closing, closing']
      omega
    · intro a
      have dead_eq : dead (Function.update s.page pi
          (some { readopen := true, writeopen := true }) a) = dead (s.page a) := by
        by_cases same : a = pi
        · subst same
          rw [free, Function.update_self]
          simp [dead]
        · rw [Function.update_of_ne same]
      simp only [State.jump, State.setProc, State.setFile, State.setPage, dead_eq, pc, Pc.freeing]
    · intro g zero
      rw [files] at zero ⊢
      by_cases is1 : g = f1
      · rw [if_pos is1] at zero
        simp only [file1, one1] at zero
        cases zero
      · rw [if_neg is1] at zero ⊢
        by_cases is0 : g = f0
        · rw [if_pos is0] at zero
          simp only [file0, one0] at zero
          cases zero
        · rw [if_neg is0] at zero ⊢
          exact inv.unused g zero
    · intro q other g mem
      obtain ⟨ne0, ne1⟩ := held g (inv.apart other mem).1
      rw [files, if_neg ne1, if_neg ne0]

/-! ## Fork -/

/-- The caller and the new process are different ones. -/
theorem Inv.parent_ne (inv : Inv s) (pc : (s.proc p).pc = .forkLoop np i) : p ≠ np := by
  rintro rfl
  have used := (inv.child p p i pc).1
  rw [pc] at used
  cases used

/-- The next round, without what it does. -/
theorem Inv.forkNext (inv : Inv s) (pc : (s.proc p).pc = .forkLoop np i) :
    Inv (s.jump p (.forkLoop np (i + 1))) := by
  have apart := inv.parent_ne pc
  refine inv.move inv.quiet rfl ?_ ?_ ?_ inv.unused (fun _ _ _ _ => rfl) (by simp [Pc.made]) trivial ?_
  · intro g
    simp [State.jump, State.setProc, Proc.holds, Proc.backed, pc, Pc.unbacked, Pc.loose]
  · simp [State.jump, State.setProc, pc, Pc.closing]
  · simp [State.jump, State.setProc, pc, Pc.freeing]
  · intro q np' j pc'
    simp only [State.jump, State.setProc] at pc' ⊢
    have old : (s.proc q).pc = .forkLoop np' j ∨ q = p ∧ np' = np ∧ j = i + 1 := by
      by_cases same : q = p
      · subst same
        rw [Function.update_self] at pc'
        simp only [Pc.forkLoop.injEq] at pc'
        exact .inr ⟨rfl, pc'.1.symm, pc'.2.symm⟩
      · rw [Function.update_of_ne same] at pc'
        exact .inl pc'
    obtain old | ⟨rfl, rfl, rfl⟩ := old
    · obtain ⟨used, clear⟩ := inv.child q np' j old
      have other : np' ≠ p := by
        rintro rfl
        rw [pc] at used
        cases used
      rw [Function.update_of_ne other]
      exact ⟨used, clear⟩
    · obtain ⟨used, clear⟩ := inv.child q np' i pc
      rw [Function.update_of_ne (Ne.symm apart)]
      exact ⟨used, fun fd le => clear fd (by omega)⟩

/-- The new process gets a descriptor. -/
theorem Inv.inherit (inv : Inv s) (pc : (s.proc p).pc = .forkLoop np (fd.val + 1))
    (free : (s.proc np).ofile fd = none) (mine : 0 < (s.proc p).holds f) :
    Inv ((s.setFile f { s.file f with ref := (s.file f).ref + 1 }).jumpSlot np fd (some f)
      (s.proc np).pc) := by
  obtain ⟨used, -⟩ := inv.child p np _ pc
  have holds : ∀ ofile g, ({ pc := .used p, ofile := ofile } : Proc).holds g = slots ofile g := by
    intro ofile g
    simp [Proc.holds, Proc.backed, Pc.unbacked, Pc.loose]
  have before : ∀ g, (s.proc np).holds g = slots (s.proc np).ofile g := by
    intro g
    simp [Proc.holds, Proc.backed, used, Pc.unbacked, Pc.loose]
  obtain ⟨file, file_eq⟩ : ∃ file : File, file = { s.file f with ref := (s.file f).ref + 1 } :=
    ⟨_, rfl⟩
  have ref : file.ref = (s.file f).ref + 1 := by rw [file_eq]
  have isEnd : ∀ a w, file.isEnd a w = (s.file f).isEnd a w := by simp [file_eq, File.isEnd]
  have others : ∀ g ≠ f, (s.setFile f file).file g = s.file g := fun g ne =>
    Function.update_of_ne ne ..
  rw [← file_eq, used]
  unfold State.jumpSlot
  rw [setFile_proc]
  refine inv.move inv.quiet rfl ?_ ?_ ?_ ?_ ?_ (by simp [Pc.made]) trivial ?_
  · intro g
    rw [holds, before, slots_fill free]
    by_cases same : g = f
    · subst same
      simp only [State.setProc, State.setFile, Function.update_self, if_true]
      omega
    · simp only [State.setProc, State.setFile, Function.update_of_ne same, if_neg (Ne.symm same)]
      omega
  · intro a w
    have sum := sum_update (Finset.mem_univ f) s.file file fun _ file => file.isEnd a w
    have same := isEnd a w
    have closing : (s.proc np).pc.closing a w = 0 := by simp [used, Pc.closing]
    have closing' : (Pc.used p).closing a w = 0 := rfl
    simp only [State.setProc, State.setFile, closing, closing']
    omega
  · intro a
    simp [State.setProc, State.setFile, used, Pc.freeing]
  · intro g zero
    by_cases same : g = f
    · subst same
      simp only [State.setProc, State.setFile, Function.update_self] at zero
      omega
    · simp only [State.setProc, others g same] at zero ⊢
      exact inv.unused g zero
  · intro q _ g mem
    refine others g ?_
    rintro rfl
    by_cases same : q = p
    · subst same
      simp [pc, Pc.made] at mem
    · have nothing := (inv.apart same mem).1
      omega
  · intro q np' j pc'
    simp only [State.setProc, State.setFile] at pc' ⊢
    have notChild : q ≠ np := by
      rintro rfl
      rw [Function.update_self] at pc'
      cases pc'
    rw [Function.update_of_ne notChild] at pc'
    obtain ⟨used', clear⟩ := inv.child q np' j pc'
    by_cases same : np' = np
    · -- only `p` makes this process
      subst same
      rw [used, Pc.used.injEq] at used'
      subst used'
      rw [pc, Pc.forkLoop.injEq] at pc'
      rw [Function.update_self]
      refine ⟨rfl, fun fd' le => ?_⟩
      have later : fd' ≠ fd := by
        rintro rfl
        omega
      simp only [Function.update_of_ne later]
      exact clear fd' le
    · rw [Function.update_of_ne same]
      exact ⟨used', clear⟩

/-- The new process is `RUNNABLE`, and its maker returns. -/
theorem Inv.forked (inv : Inv s) (pc : (s.proc p).pc = .forkLoop np i) :
    Inv ((s.jump np .user).jump p .user) := by
  have apart := inv.parent_ne pc
  obtain ⟨used, -⟩ := inv.child p np i pc
  have back : Inv (s.jump p .user) := by
    refine inv.setProc (by simp [pc]) (by simp) ?_ (by simp [pc, Pc.closing])
      (by simp [pc, Pc.freeing]) rfl trivial
    intro g
    simp [Proc.holds, Proc.backed, pc, Pc.unbacked, Pc.loose]
  have kept : (s.jump p .user).proc np = s.proc np := Function.update_of_ne (Ne.symm apart) ..
  have comm : (s.jump np .user).jump p .user = (s.jump p .user).jump np .user := by
    simp only [State.jump, State.setProc, Function.update_of_ne apart,
      Function.update_of_ne (Ne.symm apart), Function.update_comm apart]
  rw [comm]
  refine back.move back.quiet rfl ?_ ?_ ?_ back.unused (fun _ _ _ _ => rfl) (by simp [Pc.made])
    trivial ?_
  · intro g
    rw [kept]
    simp [State.jump, State.setProc, Proc.holds, Proc.backed, used, Pc.unbacked, Pc.loose]
  · rw [kept]
    simp [State.jump, State.setProc, used, Pc.closing]
  · rw [kept]
    simp [State.jump, State.setProc, used, Pc.freeing]
  · intro q np' j pc'
    have notNew : q ≠ np := by
      rintro rfl
      simp [State.jump, State.setProc] at pc'
    have notMaker : q ≠ p := by
      rintro rfl
      simp [State.jump, State.setProc, Function.update_of_ne apart] at pc'
    simp only [State.jump, State.setProc, Function.update_of_ne notNew,
      Function.update_of_ne notMaker] at pc'
    obtain ⟨used', clear⟩ := inv.child q np' j pc'
    have otherChild : np' ≠ np := by
      rintro rfl
      rw [used, Pc.used.injEq] at used'
      exact notMaker used'.symm
    have otherProc : np' ≠ p := by
      rintro rfl
      rw [pc] at used'
      cases used'
    simp only [State.jump, State.setProc, Function.update_of_ne otherChild,
      Function.update_of_ne otherProc]
    exact ⟨used', clear⟩

theorem Inv.forkLoop (inv : Inv s) (pc : (s.proc p).pc = .forkLoop np i) :
    ∃ s', runForkLoop s p np i = .ok s' ∧ Inv s' := by
  have apart := inv.parent_ne pc
  have next := inv.forkNext pc
  obtain ⟨used, clear⟩ := inv.child p np i pc
  unfold runForkLoop
  by_cases lt : i < nofile
  · rw [dif_pos lt]
    cases slot : (s.proc p).ofile ⟨i, lt⟩ with
    | none => exact ⟨_, rfl, next⟩
    | some f =>
      have mine : 0 < (s.proc p).holds f := by
        have pos := slots_pos slot
        simp only [Proc.holds, Proc.backed, pc, Pc.unbacked]
        omega
      have le := holds_le (s := s) (f := f) p
      have ref := inv.ref_eq f
      have ok : runFiledup s f = .ok (s.setFile f { s.file f with ref := (s.file f).ref + 1 }) := by
        unfold runFiledup
        rw [if_neg (by omega)]
      have jumped : (s.jump p (.forkLoop np (i + 1))).proc np = s.proc np :=
        Function.update_of_ne (Ne.symm apart) ..
      have loop : ((s.jump p (.forkLoop np (i + 1))).proc p).pc = .forkLoop np (i + 1) := by
        simp [State.jump, State.setProc]
      have free : ((s.jump p (.forkLoop np (i + 1))).proc np).ofile ⟨i, lt⟩ = none := by
        rw [jumped]
        exact clear _ (Nat.le_refl i)
      have mine' : 0 < ((s.jump p (.forkLoop np (i + 1))).proc p).holds f := by
        have same : ((s.jump p (.forkLoop np (i + 1))).proc p).holds f = (s.proc p).holds f := by
          simp [State.jump, State.setProc, Proc.holds, Proc.backed, pc, Pc.unbacked, Pc.loose]
        omega
      have gets := next.inherit loop free mine'
      refine ⟨_, by simp only [ok]; rfl, ?_⟩
      -- the two changes are of different processes
      have comm : ((s.setFile f { s.file f with ref := (s.file f).ref + 1 }).jumpSlot np ⟨i, lt⟩
          (some f) (s.proc np).pc).jump p (.forkLoop np (i + 1)) =
            ((s.jump p (.forkLoop np (i + 1))).setFile f
              { s.file f with ref := (s.file f).ref + 1 }).jumpSlot np ⟨i, lt⟩ (some f)
                (s.proc np).pc := by
        simp only [State.jump, State.jumpSlot, State.setProc, State.setFile,
          Function.update_of_ne apart, Function.update_of_ne (Ne.symm apart),
          Function.update_comm apart]
      rw [jumped] at gets
      rw [setFile_proc, comm]
      exact gets
  · rw [dif_neg lt]
    exact ⟨_, rfl, inv.forked pc⟩

end Sistemas.Xv6.FileTable
