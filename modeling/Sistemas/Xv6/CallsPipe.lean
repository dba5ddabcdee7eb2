import Sistemas.Xv6.CallsUser
import Sistemas.Xv6.FileTableRuns

/-! # `pipe` and `close`

The page of a pipe is taken when the pipe is made and given back when both ends are closed; what
cannot be completed is undone.
-/

namespace Sistemas.Xv6.Calls

open Vm (Mem pgsize kalloc kfree InRam FreeList kernbase)
open Uvm
open Sysfile (nfile nofile)
open FileTable (fdalloc argfd)

variable {l : Layout} {tramp f g n : Nat} {fs gs hs : List Nat} {m m' : Mem} {s s' : State}
  {T : Fin nproc → Option Table} {p q np : Fin nproc} {boot : Nat → Prop} {i j rf wf : Fin nfile}
  {loose : List (Fin nfile)} {w : Bool} {fd : Fin nofile}

/-! ## Entries -/

/-- An entry changes, but not the pipe that it is an end of. -/
theorem Files.setRef {loose' : List (Fin nfile)} {ref : Nat} (files : Files s loose)
    (pos : 0 < ref) (counts : ref + loose.count i = (s.file i).ref + loose'.count i)
    (others : ∀ j, j ≠ i → loose'.count j = loose.count j) :
    Files (s.setFile i { s.file i with ref := ref }) loose' ∧
      ∀ g w j, IsEnd (s.setFile i { s.file i with ref := ref }) g w j ↔ IsEnd s g w j := by
  have same : ∀ j, ((s.setFile i { s.file i with ref := ref }).file j).type = (s.file j).type ∧
      ((s.setFile i { s.file i with ref := ref }).file j).pipe = (s.file j).pipe ∧
      ((s.setFile i { s.file i with ref := ref }).file j).writable = (s.file j).writable ∧
      ((s.setFile i { s.file i with ref := ref }).file j).ref =
        if j = i then ref else (s.file j).ref := by
    intro j
    rw [State.setFile]
    dsimp only
    by_cases eq : j = i
    · subst eq
      rw [Function.update_self, if_pos rfl]
      exact ⟨rfl, rfl, rfl, rfl⟩
    · rw [Function.update_of_ne eq, if_neg eq]
      exact ⟨rfl, rfl, rfl, rfl⟩
  have ends : ∀ g w j, IsEnd (s.setFile i { s.file i with ref := ref }) g w j ↔ IsEnd s g w j := by
    intro g w j
    obtain ⟨type, pipe, writable, -⟩ := same j
    rw [IsEnd, IsEnd, type, pipe, writable]
  have pipes : ∀ g, IsPipe (s.setFile i { s.file i with ref := ref }) g ↔ IsPipe s g := by
    intro g
    exact exists_congr fun w => exists_congr fun j => ends g w j
  refine ⟨⟨fun j => ?_, fun j => ?_, fun j => ?_, fun g w j k => ?_, fun g w => ?_⟩, ends⟩
  · have kept : holders (s.setFile i { s.file i with ref := ref }) j = holders s j :=
      holders_congr fun _ => rfl
    have total := files.count j
    rw [(same j).2.2.2, kept]
    by_cases eq : j = i
    · subst eq
      rw [if_pos rfl]
      omega
    · rw [if_neg eq, others j eq]
      exact total
  · rw [(same j).2.2.2, (same j).1]
    split
    · exact fun no => by omega
    · exact files.closed j
  · rw [(same j).1]
    intro isPipe
    obtain ⟨g, w, here⟩ := files.page j isPipe
    exact ⟨g, w, (ends g w j).mpr here⟩
  · rw [ends, ends]
    exact files.once g w j k
  · rw [pipes]
    simp only [ends]
    exact files.flag g w

theorem Sound.setRef {loose' : List (Fin nfile)} {ref : Nat}
    (sound : Sound l tramp boot s loose T fs) (pos : 0 < ref)
    (counts : ref + loose.count i = (s.file i).ref + loose'.count i)
    (others : ∀ j, j ≠ i → loose'.count j = loose.count j) :
    Sound l tramp boot (s.setFile i { s.file i with ref := ref }) loose' T fs := by
  obtain ⟨files, ends⟩ := sound.files.setRef pos counts others
  exact sound.withFiles rfl sound.slot
    (fun g => exists_congr fun w => exists_congr fun j => ends g w j) files

theorem fileclose_spec (sound : Sound l tramp boot s (i :: loose) T fs) :
    ∃ s' gs, fileclose l i s = .ok s' ∧ SameProcs T s s' ∧ Sound l tramp boot s' loose T gs := by
  have total := sound.files.count i
  have cons := count_cons_eq i i loose
  rw [if_pos rfl] at cons
  have other : ∀ j, j ≠ i → loose.count j = (i :: loose).count j := by
    intro j ne
    rw [count_cons_eq, if_neg fun no => ne no.symm, Nat.add_zero]
  rw [fileclose, if_neg (by omega)]
  by_cases more : 0 < (s.file i).ref - 1
  · rw [if_pos more]
    exact ⟨_, fs, rfl, .of_mem rfl rfl rfl, sound.setRef more (by omega) other⟩
  · rw [if_neg more]
    have last : (s.file i).ref = 1 := by omega
    have plain : ∀ s', s'.file = (s.drop i).file → s'.mem = s.mem → s'.proc = s.proc →
        (s.file i).type ≠ .pipe → Sound l tramp boot s' loose T fs := by
      intro s' file mem proc notPipe
      have ends : ∀ g w j, IsEnd s' g w j ↔ IsEnd s g w j := by
        intro g w j
        rw [isEnd_congr file, isEnd_drop]
        refine and_iff_left_of_imp ?_
        rintro here rfl
        exact notPipe here.1
      have pipes : ∀ g, IsPipe s' g ↔ IsPipe s g := fun g =>
        exists_congr fun w => exists_congr fun j => ends g w j
      refine sound.withFiles mem (fun p => by rw [proc]; exact sound.slot p) pipes
        (sound.files.drop last file proc fun g w there => ?_)
      rw [mem]
      simp only [ends]
      exact sound.files.flag g w ((pipes g).mp there)
    cases type : (s.file i).type with
    | none => exact ⟨_, fs, rfl, .of_mem rfl rfl rfl, plain _ rfl rfl rfl (by rw [type]; decide)⟩
    | inode => exact ⟨_, fs, rfl, .of_mem rfl rfl rfl, plain _ rfl rfl rfl (by rw [type]; decide)⟩
    | device => exact ⟨_, fs, rfl, .of_mem rfl rfl rfl, plain _ rfl rfl rfl (by rw [type]; decide)⟩
    | pipe =>
      obtain ⟨g, w, isEnd⟩ := sound.files.page i type
      obtain ⟨s', gs, closed, procs, sound'⟩ := pipeclose_spec sound last isEnd rfl
      refine ⟨s', gs, ?_, procs, sound'⟩
      rw [← isEnd.2.1, ← isEnd.2.2] at closed
      exact closed

theorem filedup_spec (sound : Sound l tramp boot s loose T fs)
    (here : (s.proc p).ofile fd = some i) :
    ∃ s', filedup i s = .ok s' ∧ s'.mem = s.mem ∧ s'.proc = s.proc ∧ s'.initproc = s.initproc ∧
      Sound l tramp boot s' (i :: loose) T fs := by
  have total := sound.files.count i
  have pos := holders_pos here
  have cons := count_cons_eq i i loose
  rw [if_pos rfl] at cons
  rw [filedup, if_neg (by omega)]
  refine ⟨_, rfl, rfl, rfl, rfl, sound.setRef (Nat.succ_pos _) (by omega) fun j ne => ?_⟩
  rw [count_cons_eq, if_neg fun no => ne no.symm, Nat.add_zero]

/-- The entry that `filealloc` finds is no end of a pipe. -/
theorem filealloc_spec (sound : Sound l tramp boot s loose T fs) {s₁ : State}
    (found : filealloc s = some (i, s₁)) :
    Sound l tramp boot s₁ (i :: loose) T fs ∧ SameProcs T s s₁ ∧ (s.file i).ref = 0 ∧
      s₁ = s.setFile i { s.file i with ref := 1 } := by
  obtain ⟨j, searched, eq⟩ := Option.map_eq_some_iff.mp found
  obtain ⟨rfl, rfl⟩ := Prod.mk.inj eq
  have free := List.find?_some searched
  rw [decide_eq_true_eq] at free
  have cons := count_cons_eq j j loose
  rw [if_pos rfl] at cons
  refine ⟨sound.setRef Nat.one_pos (by omega) fun k ne => ?_, .of_mem rfl rfl rfl, free, rfl⟩
  rw [count_cons_eq, if_neg fun no => ne no.symm, Nat.add_zero]

/-! ## `pipealloc` -/

/-- The page of a new pipe. -/
theorem initPipe_spec (m : Mem) (g : Nat) :
    (initPipe (g * pgsize) m).freelist = m.freelist ∧
      m.bytes.Keeps pgsize (· ≠ g) (initPipe (g * pgsize) m).bytes ∧
      ∀ w, loadInt (initPipe (g * pgsize) m) (g * pgsize + openFlag w) = 1 := by
  have part : ∀ (b : Bytes) (a v : Nat), a + 4 ≤ pgsize →
      b.Keeps pgsize (· ≠ g) (b.store 4 (g * pgsize + a) v) := by
    intro b a v inside
    refine @Bytes.keeps_store b pgsize g (g * pgsize + a) 4 v (Nat.le_add_right _ _) ?_
    rw [Nat.succ_mul]
    omega
  refine ⟨rfl, ?_, fun w => ?_⟩
  · exact (part _ readopen 1 (by decide)).trans ((part _ writeopen 1 (by decide)).trans
      ((part _ 540 0 (by decide)).trans (part _ 536 0 (by decide))))
  · have read : openFlag false = 544 := rfl
    have write : openFlag true = 548 := rfl
    have read' : readopen = 544 := rfl
    have write' : writeopen = 548 := rfl
    rw [loadInt, initPipe, storeInt, storeInt, storeInt, storeInt]
    cases w with
    | false =>
      rw [Bytes.load_store_disjoint (by omega), Bytes.load_store_disjoint (by omega),
        Bytes.load_store_disjoint (by omega), read, read', Bytes.load_store]
      rfl
    | true =>
      rw [Bytes.load_store_disjoint (by omega), Bytes.load_store_disjoint (by omega), write, write',
        Bytes.load_store]
      rfl

/-- An entry becomes an end of a new pipe. -/
def State.openEnd (s : State) (i : Fin nfile) (pi : Nat) (w : Bool) : State :=
  s.setFile i { s.file i with type := .pipe, readable := !w, writable := w, pipe := pi }

theorem openEnd_file : ((s.openEnd i (g * pgsize) w).file j) =
    if j = i then { s.file i with type := .pipe, readable := !w, writable := w, pipe := g * pgsize }
    else s.file j := by
  rw [State.openEnd, State.setFile]
  dsimp only
  by_cases eq : j = i
  · rw [eq, Function.update_self, if_pos rfl]
  · rw [Function.update_of_ne eq, if_neg eq]

/-- Both ends of a new pipe. -/
theorem isEnd_open {s₁ : State} (ne : rf ≠ wf) (rfNone : (s.file rf).type = .none)
    (wfNone : (s.file wf).type = .none)
    (opened : s₁ = (s.openEnd rf (f * pgsize) false).openEnd wf (f * pgsize) true) :
    IsEnd s₁ g w j ↔ IsEnd s g w j ∨ g = f ∧ j = (if w then wf else rf) := by
  have cancel : f * pgsize = g * pgsize ↔ g = f :=
    ⟨fun eq => (Nat.eq_of_mul_eq_mul_right (by decide) eq).symm, fun eq => by rw [eq]⟩
  rw [IsEnd, IsEnd, opened, openEnd_file]
  by_cases isWf : j = wf
  · subst isWf
    rw [if_pos rfl, wfNone]
    dsimp only
    rw [cancel]
    cases w with
    | true => simp
    | false => simp [ne.symm]
  · rw [if_neg isWf, openEnd_file]
    by_cases isRf : j = rf
    · subst isRf
      rw [if_pos rfl, rfNone]
      dsimp only
      rw [cancel]
      cases w with
      | true => simp [ne]
      | false => simp
    · rw [if_neg isRf]
      cases w with
      | true => simp [isWf]
      | false => simp [isRf]

/-- What `pipealloc` returns. -/
inductive Piped (l : Layout) (tramp : Nat) (boot : Nat → Prop) (s : State)
    (T : Fin nproc → Option Table) : Option (Fin nfile × Fin nfile) → State → Prop
  | made {rf wf : Fin nfile} {s' : State} {gs : List Nat} (procs : SameProcs T s s')
      (sound : Sound l tramp boot s' [rf, wf] T gs) : Piped l tramp boot s T (some (rf, wf)) s'
  | failed {s' : State} {gs : List Nat} (procs : SameProcs T s s')
      (sound : Sound l tramp boot s' [] T gs) : Piped l tramp boot s T none s'

/-- Page `g` is a pipe with the ends `rf` and `wf` from now on. -/
structure Opened (s s₁ : State) (g : Nat) (rf wf : Fin nfile) : Prop where
  proc : s₁.proc = s.proc
  init : s₁.initproc = s.initproc
  ref : ∀ j, (s₁.file j).ref = (s.file j).ref
  type : ∀ j, j ≠ rf → j ≠ wf → (s₁.file j).type = (s.file j).type
  ends : ∀ f w j, IsEnd s₁ f w j ↔ IsEnd s f w j ∨ f = g ∧ j = if w then wf else rf

theorem opened_openEnd {s₁ : State} (ne : rf ≠ wf) (rfNone : (s.file rf).type = .none)
    (wfNone : (s.file wf).type = .none)
    (opened : s₁ = (s.openEnd rf (g * pgsize) false).openEnd wf (g * pgsize) true) :
    Opened s s₁ g rf wf where
  proc := by rw [opened]; rfl
  init := by rw [opened]; rfl
  ref j := by
    rw [opened, openEnd_file]
    by_cases isWf : j = wf
    · rw [if_pos isWf]
      dsimp only
      rw [openEnd_file, if_neg ne.symm, isWf]
    · rw [if_neg isWf, openEnd_file]
      by_cases isRf : j = rf
      · rw [if_pos isRf, isRf]
      · rw [if_neg isRf]
  type j notRf notWf := by
    rw [opened, openEnd_file, if_neg notWf, openEnd_file, if_neg notRf]
  ends f w j := isEnd_open ne rfNone wfNone opened

theorem Opened.pipes {s₁ : State} (opened : Opened s s₁ g rf wf) (f : Nat) :
    IsPipe s₁ f ↔ IsPipe s f ∨ f = g := by
  constructor
  · rintro ⟨w, j, here⟩
    exact ((opened.ends f w j).mp here).imp (fun old => ⟨w, j, old⟩) And.left
  · rintro (⟨w, j, here⟩ | rfl)
    · exact ⟨w, j, (opened.ends f w j).mpr (.inl here)⟩
    · exact ⟨true, wf, (opened.ends f true wf).mpr (.inr ⟨rfl, rfl⟩)⟩

theorem Opened.files {s₁ : State} (opened : Opened s s₁ g rf wf) (files : Files s [wf, rf])
    (new : ¬ IsPipe s g) (kept : s.mem.bytes.Keeps pgsize (· ≠ g) s₁.mem.bytes)
    (flags : ∀ w, loadInt s₁.mem (g * pgsize + openFlag w) = 1) : Files s₁ [rf, wf] := by
  have old : ∀ f, IsPipe s f → f ≠ g := by
    rintro f pipe rfl
    exact new pipe
  refine ⟨fun j => ?_, fun j => ?_, fun j => ?_, ?_, ?_⟩
  · have same : holders s₁ j = holders s j := holders_congr fun p => by rw [opened.proc]
    rw [opened.ref, same, files.count, count_cons_eq, count_cons_eq, count_cons_eq rf,
      count_cons_eq wf, List.count_nil]
    omega
  · intro zero
    rw [opened.ref] at zero
    have count := files.count j
    rw [zero, count_cons_eq, count_cons_eq] at count
    rw [opened.type, files.closed j zero]
    · rintro rfl
      rw [if_pos (rfl : j = j)] at count
      omega
    · rintro rfl
      rw [if_pos rfl] at count
      omega
  · intro isPipe
    by_cases isWf : j = wf
    · exact ⟨g, true, (opened.ends g true j).mpr (.inr ⟨rfl, isWf⟩)⟩
    by_cases isRf : j = rf
    · exact ⟨g, false, (opened.ends g false j).mpr (.inr ⟨rfl, isRf⟩)⟩
    · rw [opened.type j isRf isWf] at isPipe
      obtain ⟨f, w, here⟩ := files.page j isPipe
      exact ⟨f, w, (opened.ends f w j).mpr (.inl here)⟩
  · intro f w j k here there
    cases (opened.ends f w j).mp here with
    | inl first =>
      cases (opened.ends f w k).mp there with
      | inl second => exact files.once f w j k first second
      | inr second => exact absurd second.1 (old f ⟨w, j, first⟩)
    | inr first =>
      cases (opened.ends f w k).mp there with
      | inl second => exact absurd first.1 (old f ⟨w, k, second⟩)
      | inr second => rw [first.2, second.2]
  · intro f w pipe
    by_cases eq : f = g
    · subst eq
      rw [flags w]
      refine iff_of_false Nat.one_ne_zero fun none => ?_
      exact none _ ((opened.ends f w _).mpr (.inr ⟨rfl, rfl⟩))
    · have there := ((opened.pipes f).mp pipe).resolve_right eq
      rw [loadInt_keeps kept eq, files.flag f w there]
      refine forall_congr' fun j => not_congr ?_
      rw [opened.ends]
      exact (or_iff_left fun both => eq both.1).symm

theorem openPipe {s₁ : State} (sound : Sound l tramp boot s [wf, rf] T (g :: fs))
    (ne : rf ≠ wf) (rfNone : (s.file rf).type = .none) (wfNone : (s.file wf).type = .none)
    (free : FreeList l.kend m fs) (keeps : s.mem.bytes.Keeps pgsize (· ≠ g) m.bytes)
    (eq : s₁ = ((s.setMem (initPipe (g * pgsize) m)).openEnd rf (g * pgsize) false).openEnd
      wf (g * pgsize) true) :
    SameProcs T s s₁ ∧ Sound l tramp boot s₁ [rf, wf] T fs := by
  obtain ⟨list, wrote, flags⟩ := initPipe_spec m g
  have loose : g ∉ fs := (List.nodup_cons.mp sound.spaces.free.nodup).1
  have free' := free.write loose list wrote
  have kept := keeps.trans wrote
  have notRest : ¬ Rest boot s g := fun rest =>
    sound.spaces.part.apart none g rest List.mem_cons_self
  obtain ⟨proc, init, ref, type, ends⟩ := @opened_openEnd g
    (s.setMem (initPipe (g * pgsize) m)) rf wf s₁ ne rfNone wfNone eq
  have opened : Opened s s₁ g rf wf := ⟨proc, init, ref, type, ends⟩
  have mem : s₁.mem = initPipe (g * pgsize) m := by rw [eq]; rfl
  rw [← mem] at free' kept flags
  have step : Step l.kend s.mem s₁.mem (g :: fs) fs (Rest boot s) (Rest boot s₁) := by
    refine ⟨free', fun f => ?_, fun f mine mem => ?_, kept.mono ?_⟩
    · rw [Rest, Rest, opened.pipes, List.mem_cons]
      tauto
    · cases mine with
      | inl isBoot => exact sound.spaces.part.apart none f (.inl isBoot) (List.mem_cons_of_mem g mem)
      | inr pipe =>
        cases (opened.pipes f).mp pipe with
        | inl old => exact sound.pipe_not_free old (List.mem_cons_of_mem g mem)
        | inr eq => exact loose (eq ▸ mem)
    · rintro f out rfl
      exact out.1 List.mem_cons_self
  refine ⟨sound.sameProcs step proc init, sound.stepFiles step
    (fun p => by rw [proc]; exact sound.slot p)
    (opened.files sound.files (fun pipe => notRest (.inr pipe)) kept flags) ?_⟩
  intro f isBoot pipe
  cases (opened.pipes f).mp pipe with
  | inl old => exact sound.apart f isBoot old
  | inr eq => exact notRest (.inl (eq ▸ isBoot))

theorem pipealloc_spec (sound : Sound l tramp boot s [] T fs) :
    ∃ r s', pipealloc l s = .ok (r, s') ∧ Piped l tramp boot s T r s' := by
  rw [pipealloc]
  cases first : filealloc s with
  | none => exact ⟨none, s, rfl, .failed (.of_mem rfl rfl rfl) sound⟩
  | some found =>
    obtain ⟨rf, s₁⟩ := found
    obtain ⟨sound₁, procs₁, zero₁, eq₁⟩ := filealloc_spec sound first
    dsimp only
    cases second : filealloc s₁ with
    | none =>
      obtain ⟨s', gs, ran, procs, sound'⟩ := fileclose_spec sound₁
      dsimp only
      rw [ran]
      exact ⟨none, s', rfl, .failed (procs₁.trans procs) sound'⟩
    | some found =>
      obtain ⟨wf, s₂⟩ := found
      obtain ⟨sound₂, procs₂, zero₂, eq₂⟩ := filealloc_spec sound₁ second
      have procs := procs₁.trans procs₂
      have ne : rf ≠ wf := by
        rintro rfl
        rw [eq₁, State.setFile] at zero₂
        dsimp only at zero₂
        rw [Function.update_self] at zero₂
        cases zero₂
      have rfNone : (s₂.file rf).type = .none := by
        rw [eq₂, State.setFile]
        dsimp only
        rw [Function.update_of_ne ne, eq₁, State.setFile]
        dsimp only
        rw [Function.update_self]
        exact sound.files.closed rf zero₁
      have wfNone : (s₂.file wf).type = .none := by
        rw [eq₂, State.setFile]
        dsimp only
        rw [Function.update_self]
        exact sound₁.files.closed wf zero₂
      dsimp only
      cases fs with
      | nil =>
        obtain ⟨s₃, gs, ran₃, procs₃, sound₃⟩ := fileclose_spec (sound₂.perm (.swap rf wf []))
        obtain ⟨s', hs, ran', procs', sound'⟩ := fileclose_spec sound₃
        rw [Vm.kalloc_nil sound₂.spaces.free]
        dsimp only
        rw [ran₃]
        dsimp only [bind, Except.bind]
        rw [ran']
        exact ⟨none, s', rfl, .failed (procs.trans (procs₃.trans procs')) sound'⟩
      | cons g fs =>
        have pos : 0 < l.kend := (Nat.succ_pos _).trans_le sound.linked
        obtain ⟨m, found, free, keeps⟩ := Vm.kalloc_cons pos sound₂.spaces.free
        obtain ⟨procs₃, sound₃⟩ := openPipe sound₂ ne rfNone wfNone free keeps rfl
        rw [found]
        exact ⟨some (rf, wf), _, rfl, .made (procs.trans procs₃) sound₃⟩

/-! ## The calls -/

theorem closeBoth_spec (sound : Sound l tramp boot s [rf, wf] T fs) :
    ∃ s' gs, closeBoth l rf wf s = .ok (-1, s') ∧ SameProcs T s s' ∧
      Sound l tramp boot s' [] T gs := by
  obtain ⟨s₁, gs, ran, procs, sound₁⟩ := fileclose_spec sound
  obtain ⟨s', hs, ran', procs', sound'⟩ := fileclose_spec sound₁
  refine ⟨s', hs, ?_, procs.trans procs', sound'⟩
  rw [closeBoth, ran]
  dsimp only [bind, Except.bind]
  rw [ran']

theorem setOfile_ofile {new : Option (Fin nfile)} {fd' : Fin nofile} :
    ((s.setOfile p fd new).proc p).ofile fd' =
      if fd' = fd then new else (s.proc p).ofile fd' := by
  rw [State.setOfile, State.setProc_self]
  exact Function.update_apply ..

theorem setOfile_state {new : Option (Fin nfile)} :
    ((s.setOfile p fd new).proc q).state = (s.proc q).state := by
  by_cases same : q = p
  · rw [same, State.setOfile, State.setProc_self]
  · rw [State.setOfile, State.setProc_other _ _ same]

/-- A call that has to do with the files of one process only. -/
structure OwnFiles (T : Fin nproc → Option Table) (s : State) (p : Fin nproc) (s' : State) :
    Prop where
  proc : ∀ q, q ≠ p → s'.proc q = s.proc q
  init : s'.initproc = s.initproc
  kept : ∀ q, q ≠ p → Kept s.mem s'.mem (T q)
  pages : ∀ f, Pages s'.mem (T p) f ↔ Pages s.mem (T p) f

theorem OwnFiles.trans {s'' : State} (first : OwnFiles T s p s') (second : OwnFiles T s' p s'') :
    OwnFiles T s p s'' :=
  ⟨fun q ne => (second.proc q ne).trans (first.proc q ne), second.init.trans first.init,
    fun q ne => (first.kept q ne).trans (second.kept q ne),
    fun f => (second.pages f).trans (first.pages f)⟩

theorem SameProcs.own (procs : SameProcs T s s') (p : Fin nproc) : OwnFiles T s p s' :=
  ⟨fun q _ => by rw [procs.proc], procs.init, fun q _ => procs.kept q, (procs.kept p).pages⟩

theorem ownFiles_setOfile {new : Option (Fin nfile)} : OwnFiles T s p (s.setOfile p fd new) :=
  ⟨fun _ ne => State.setProc_other _ _ ne, rfl, fun _ _ => .refl _ _, fun _ => .rfl⟩

theorem OwnFiles.outcome (own : OwnFiles T s p s') (sound : Sound l tramp boot s' [] T gs) :
    Outcome l tramp boot T s p s' T gs ∧ SamePages T T s s' p :=
  ⟨⟨sound, own.init, fun q ne _ => .inl ⟨by rw [own.proc q ne], rfl, own.kept q ne⟩⟩, rfl,
    own.pages⟩

theorem sysClose_spec (sound : Sound l tramp boot s [] T fs) (p : Fin nproc) (fd : Int) :
    ∃ r s' gs, sysClose l p fd s = .ok (r, s') ∧ Outcome l tramp boot T s p s' T gs ∧
      SamePages T T s s' p := by
  rw [sysClose]
  cases found : argfd (s.proc p).ofile fd with
  | none => exact ⟨-1, s, fs, rfl, .refl sound p, .refl T s p⟩
  | some entry =>
    obtain ⟨fd, i⟩ := entry
    obtain ⟨s', gs, ran, procs, sound'⟩ :=
      fileclose_spec (sound.take (FileTable.argfd_some found))
    dsimp only
    rw [ran]
    exact ⟨0, s', gs, rfl, (ownFiles_setOfile.trans (procs.own p)).outcome sound'⟩

theorem pipeFds_spec (sound : Sound l tramp boot s [] T fs) (live : (s.proc p).state ≠ .UNUSED)
    (fdarray : Nat) (fd0 fd1 : Fin nofile) :
    ∃ ok m', pipeFds p fdarray fd0 fd1 s = .ok (ok, s.setMem m') ∧
      Sound l tramp boot (s.setMem m') [] T fs ∧ OwnFiles T s p (s.setMem m') := by
  obtain ⟨t, here, -⟩ := sound.live live
  obtain ⟨ok, m₁, ran, sound₁, kept₁, -, pages₁⟩ := sound.copyout here fdarray 0 4 (intBytes fd0)
  rw [pipeFds, ran]
  dsimp only [liftVm, Except.mapError, bind, Except.bind]
  cases ok with
  | false => exact ⟨false, m₁, rfl, sound₁, fun _ _ => rfl, rfl, kept₁, pages₁⟩
  | true =>
    obtain ⟨ok, m', ran', sound', kept', -, pages'⟩ := sound₁.copyout here
      ((fdarray + 4) % 2 ^ 64) 0 4 (intBytes fd1)
    rw [State.setMem_proc, State.setMem_mem] at ran'
    rw [if_neg (by decide), ran']
    exact ⟨ok, m', rfl, sound', fun _ _ => rfl, rfl, fun q ne => (kept₁ q ne).trans (kept' q ne),
      fun f => (pages' f).trans (pages₁ f)⟩

theorem sysPipe_spec (sound : Sound l tramp boot s [] T fs) (live : (s.proc p).state = .RUNNABLE)
    (fdarray : Nat) :
    ∃ r s' gs, sysPipe l p fdarray s = .ok (r, s') ∧ Outcome l tramp boot T s p s' T gs ∧
      SamePages T T s s' p := by
  obtain ⟨files, s₁, ran, piped⟩ := pipealloc_spec sound
  rw [sysPipe, ran]
  dsimp only [bind, Except.bind]
  cases piped with
  | failed procs sound₁ => exact ⟨-1, s₁, _, rfl, (procs.own p).outcome sound₁⟩
  | @made rf wf _ gs procs sound₁ =>
    have state : (s₁.proc p).state = .RUNNABLE := by rw [procs.proc, live]
    have own := procs.own p
    have undone : ∀ {s₂ : State} {hs : List Nat}, OwnFiles T s p s₂ →
        Sound l tramp boot s₂ [rf, wf] T hs →
        ∃ r s' gs, closeBoth l rf wf s₂ = .ok (r, s') ∧ Outcome l tramp boot T s p s' T gs ∧
          SamePages T T s s' p := by
      intro s₂ hs own₂ sound₂
      obtain ⟨s', gs, ran, procs', sound'⟩ := closeBoth_spec sound₂
      exact ⟨-1, s', gs, ran, (own₂.trans (procs'.own p)).outcome sound'⟩
    dsimp only
    cases first : fdalloc (s₁.proc p).ofile with
    | none => exact undone own sound₁
    | some fd0 =>
      have empty := FileTable.fdalloc_some first
      have sound₂ := sound₁.give empty (by rw [state]; decide) (by rw [state]; decide)
      have state₂ : ((s₁.setOfile p fd0 (some rf)).proc p).state = .RUNNABLE := by
        rw [setOfile_state, state]
      have here₂ : ((s₁.setOfile p fd0 (some rf)).proc p).ofile fd0 = some rf := by
        rw [setOfile_ofile, if_pos rfl]
      have own₂ : OwnFiles T s p (s₁.setOfile p fd0 (some rf)) := own.trans ownFiles_setOfile
      dsimp only
      generalize s₁.setOfile p fd0 (some rf) = s₂ at sound₂ state₂ here₂ own₂ ⊢
      cases second : fdalloc (s₂.proc p).ofile with
      | none => exact undone (own₂.trans ownFiles_setOfile) (sound₂.take here₂)
      | some fd1 =>
        have empty' := FileTable.fdalloc_some second
        have other : fd0 ≠ fd1 := by
          rintro rfl
          rw [here₂] at empty'
          cases empty'
        have sound₃ := sound₂.give empty' (by rw [state₂]; decide) (by rw [state₂]; decide)
        have state₃ : ((s₂.setOfile p fd1 (some wf)).proc p).state = .RUNNABLE := by
          rw [setOfile_state, state₂]
        have here₃ : ((s₂.setOfile p fd1 (some wf)).proc p).ofile fd0 = some rf := by
          rw [setOfile_ofile, if_neg other, here₂]
        have there₃ : ((s₂.setOfile p fd1 (some wf)).proc p).ofile fd1 = some wf := by
          rw [setOfile_ofile, if_pos rfl]
        have own₃ : OwnFiles T s p (s₂.setOfile p fd1 (some wf)) := own₂.trans ownFiles_setOfile
        dsimp only
        generalize s₂.setOfile p fd1 (some wf) = s₃ at sound₃ state₃ here₃ there₃ own₃ ⊢
        obtain ⟨ok, m, ran₃, sound₄, own₄⟩ :=
          pipeFds_spec sound₃ (by rw [state₃]; decide) fdarray fd0 fd1
        rw [ran₃]
        cases ok with
        | true => exact ⟨0, _, _, rfl, (own₃.trans own₄).outcome sound₄⟩
        | false =>
          have sound₅ := sound₄.take here₃
          have there₅ : (((s₃.setMem m).setOfile p fd0 none).proc p).ofile fd1 = some wf := by
            rw [setOfile_ofile, if_neg other.symm]
            exact there₃
          exact undone ((own₃.trans own₄).trans (ownFiles_setOfile.trans ownFiles_setOfile))
            ((sound₅.take there₅).perm (.swap rf wf []))

end Sistemas.Xv6.Calls
