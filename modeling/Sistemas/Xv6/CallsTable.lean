import Sistemas.Transition.Run
import Sistemas.Xv6.CallsExit

/-! # Calls as runs of the file table

What `close`, `exit` and `fork` do with open files in one go is what the steps of the process come
to if no other process is between them.
-/

namespace Sistemas.Xv6.Calls

open Sistemas.Transition
open Uvm (Table)
open Vm (pgsize)
open Sysfile (nfile nofile)
open FileTable (argfd runNext runPc)

variable {l : Layout} {tramp g : Nat} {fs : List Nat} {s s' : State} {t t' u : FileTable.State}
  {T : Fin nproc → Option Table} {boot : Nat → Prop} {i : Fin nfile} {loose : List (Fin nfile)}
  {fd : Fin nofile} {p : Fin Sysfile.nproc} {next : FileTable.Next}

/-! ## The same open files -/

def File.entry (file : File) : FileTable.File where
  type := file.type
  ref := file.ref
  readable := file.readable
  writable := file.writable
  pipe := file.pipe

theorem nproc_eq : nproc = Sysfile.nproc := rfl

def slotOf (p : Fin nproc) : Fin Sysfile.nproc := p.cast nproc_eq

/-- The same files are open, and the pages of the pipes say the same of their ends. -/
structure Shows (s : State) (t : FileTable.State) : Prop where
  calm : t.panic = none
  file : ∀ i, t.file i = (s.file i).entry
  ofile : ∀ q, (t.proc (slotOf q)).ofile = (s.proc q).ofile
  page : ∀ g, IsPipe s g → ∃ pipe, t.page (g * pgsize) = some pipe ∧
    (pipe.readopen = false ↔ loadInt s.mem (g * pgsize + readopen) = 0) ∧
    (pipe.writeopen = false ↔ loadInt s.mem (g * pgsize + writeopen) = 0)

/-- A state of the file table that shows the same files. -/
def State.table (s : State) : FileTable.State where
  file i := (s.file i).entry
  page pi := some
    { readopen := loadInt s.mem (pi + readopen) ≠ 0
      writeopen := loadInt s.mem (pi + writeopen) ≠ 0 }
  proc p := { pc := .user, ofile := (s.proc (p.cast nproc_eq.symm)).ofile }
  panic := none

theorem State.table_shows (s : State) : Shows s s.table where
  calm := rfl
  file _ := rfl
  ofile _ := rfl
  page g _ := ⟨_, rfl, by simp, by simp⟩

/-- `filealloc` finds the same entry. -/
theorem Shows.filealloc (shows : Shows s t) :
    (filealloc s).map Prod.fst = FileTable.filealloc t := by
  rw [Calls.filealloc, FileTable.filealloc, Option.map_map]
  simp only [shows.file]
  exact Option.map_id' ..

/-- A change after which no other page is that of a pipe. -/
theorem Shows.change (shows : Shows s t) (mem : s'.mem = s.mem) (page : t'.page = t.page)
    (calm : t'.panic = none) (file : ∀ i, t'.file i = (s'.file i).entry)
    (ofile : ∀ q, (t'.proc (slotOf q)).ofile = (s'.proc q).ofile)
    (pipes : ∀ g, IsPipe s' g → IsPipe s g) : Shows s' t' := by
  refine ⟨calm, file, ofile, fun g there => ?_⟩
  rw [page, mem]
  exact shows.page g (pipes g there)

theorem slotOf_inj {p q : Fin nproc} (same : slotOf p = slotOf q) : p = q :=
  Fin.cast_injective nproc_eq same

theorem jump_pc (t : FileTable.State) (p : Fin Sysfile.nproc) (pc : FileTable.Pc) :
    ((t.jump p pc).proc p).pc = pc := by
  simp only [FileTable.State.jump, FileTable.State.setProc, Function.update_self]

theorem jump_pc_other (t : FileTable.State) {p q : Fin Sysfile.nproc} (pc : FileTable.Pc)
    (ne : q ≠ p) : ((t.jump p pc).proc q).pc = (t.proc q).pc := by
  simp only [FileTable.State.jump, FileTable.State.setProc, Function.update_of_ne ne]

theorem jumpSlot_pc (t : FileTable.State) (p : Fin Sysfile.nproc) (fd : Fin nofile)
    (new : Option (Fin nfile)) (pc : FileTable.Pc) : ((t.jumpSlot p fd new pc).proc p).pc = pc := by
  simp only [FileTable.State.jumpSlot, FileTable.State.setProc, Function.update_self]

/-! ## Runs of one process -/

def Runs (p : Fin Sysfile.nproc) (t u : FileTable.State) : Prop :=
  ∃ n, exec FileTable.step t (List.replicate n (.run p none)) = some u

theorem Runs.refl (p : Fin Sysfile.nproc) (t : FileTable.State) : Runs p t t := ⟨0, rfl⟩

theorem Runs.trans (first : Runs p t t') (second : Runs p t' u) : Runs p t u := by
  obtain ⟨n, ran⟩ := first
  obtain ⟨k, ran'⟩ := second
  refine ⟨n + k, ?_⟩
  rw [← List.replicate_append_replicate, exec_append_eq_some]
  exact ⟨t', ran, ran'⟩

theorem Runs.step (calm : t.panic = none) (ran : runPc t p none (t.proc p).pc = .ok u) :
    Runs p t u := by
  refine ⟨1, ?_⟩
  have step : FileTable.step t (.run p none) = some u := by
    simp only [FileTable.step, calm, Option.all_none, and_self, if_true, ran]
  exact exec_cons_eq_some.mpr ⟨u, step, rfl⟩

/-! ## `fileclose` -/

theorem pipe_of_setFile {file : File} (kept : file.type = .pipe →
    (s.file i).type = .pipe ∧ file.pipe = (s.file i).pipe) (there : IsPipe (s.setFile i file) g) :
    IsPipe s g := by
  obtain ⟨w, j, type, pipe, -⟩ := there
  rw [State.setFile] at type pipe
  by_cases eq : j = i
  · subst eq
    simp only [Function.update_self] at type pipe
    obtain ⟨type', same⟩ := kept type
    exact ⟨_, j, type', same ▸ pipe, rfl⟩
  · simp only [Function.update_of_ne eq] at type pipe
    exact ⟨_, j, type, pipe, rfl⟩

theorem Shows.setFile {file : File} (shows : Shows s t) (kept : file.type = .pipe →
    (s.file i).type = .pipe ∧ file.pipe = (s.file i).pipe) :
    Shows (s.setFile i file) (t.setFile i file.entry) := by
  refine shows.change rfl rfl shows.calm (fun j => ?_) shows.ofile fun g => pipe_of_setFile kept
  dsimp only [State.setFile, FileTable.State.setFile]
  by_cases eq : j = i
  · subst eq
    rw [Function.update_self, Function.update_self]
  · rw [Function.update_of_ne eq, Function.update_of_ne eq, shows.file]

/-- Where a process is does not matter. -/
theorem Shows.jump (shows : Shows s t) (p : Fin Sysfile.nproc) (pc : FileTable.Pc) :
    Shows s (t.jump p pc) := by
  refine shows.change rfl rfl shows.calm shows.file (fun q => ?_) fun _ => id
  dsimp only [FileTable.State.jump, FileTable.State.setProc]
  by_cases eq : slotOf q = p
  · rw [eq, Function.update_self, ← shows.ofile, eq]
  · rw [Function.update_of_ne eq, shows.ofile]

/-- The flags of a pipe after one of them has been cleared. -/
theorem flags_cleared {pipe : FileTable.Pipe} {m : Vm.Mem} (w : Bool)
    (read : pipe.readopen = false ↔ loadInt m (g * pgsize + readopen) = 0)
    (write : pipe.writeopen = false ↔ loadInt m (g * pgsize + writeopen) = 0) :
    ((pipe.close w).readopen = false ↔
      loadInt (storeInt m (g * pgsize + openFlag w) 0) (g * pgsize + readopen) = 0) ∧
    ((pipe.close w).writeopen = false ↔
      loadInt (storeInt m (g * pgsize + openFlag w) 0) (g * pgsize + writeopen) = 0) := by
  have zero := loadInt_storeInt m (g * pgsize + openFlag w) 0 (by decide)
  have other := loadInt_other m g 0 w
  cases w with
  | false => exact ⟨iff_of_true rfl zero, write.trans (iff_of_eq (congrArg (· = 0) other.symm))⟩
  | true => exact ⟨read.trans (iff_of_eq (congrArg (· = 0) other.symm)), iff_of_true rfl zero⟩

/-- Only the page of one pipe is written. -/
theorem Shows.setPage {m : Vm.Mem} {page : Option FileTable.Pipe} (shows : Shows s t)
    (keeps : s.mem.bytes.Keeps pgsize (· ≠ g) m.bytes)
    (here : IsPipe s g → ∃ pipe, page = some pipe ∧
      (pipe.readopen = false ↔ loadInt m (g * pgsize + readopen) = 0) ∧
      (pipe.writeopen = false ↔ loadInt m (g * pgsize + writeopen) = 0)) :
    Shows (s.setMem m) (t.setPage (g * pgsize) page) := by
  refine ⟨shows.calm, shows.file, shows.ofile, fun f there => ?_⟩
  dsimp only [FileTable.State.setPage]
  by_cases eq : f = g
  · subst eq
    rw [Function.update_self]
    exact here there
  · rw [Function.update_of_ne fun same => eq (cancel_page same)]
    have read := loadInt_keeps keeps eq false
    have write := loadInt_keeps keeps eq true
    rw [openFlag, if_neg Bool.false_ne_true] at read
    rw [openFlag, if_pos rfl] at write
    rw [State.setMem_mem, read, write]
    exact shows.page f there

/-- The last reference to an end of a pipe is given up. -/
theorem pipeclose_run {w : Bool} (sound : Sound l tramp boot s loose T fs)
    (isEnd : IsEnd s g w i) (shows : Shows (s.drop i) t) {pipe : FileTable.Pipe}
    (page : t.page (g * pgsize) = some pipe)
    (read : pipe.readopen = false ↔ loadInt s.mem (g * pgsize + readopen) = 0)
    (write : pipe.writeopen = false ↔ loadInt s.mem (g * pgsize + writeopen) = 0)
    (here : (t.proc p).pc = .pipeclose (g * pgsize) w next)
    (ran : pipeclose l (g * pgsize) w (s.drop i) = .ok s') :
    ∃ u, Runs p t (runNext u p next) ∧ Shows s' u := by
  have isPipe : IsPipe s g := ⟨w, i, isEnd⟩
  have notFree := sound.pipe_not_free isPipe
  have wrote := keeps_storeInt s.mem g 0 w
  have other := loadInt_other s.mem g 0 w
  have free : Vm.FreeList l.kend (storeInt s.mem (g * pgsize + openFlag w) 0) fs :=
    sound.spaces.free.write notFree rfl wrote
  obtain ⟨read', write'⟩ := flags_cleared w read write
  have first : ∀ v, FileTable.runPipeclose t p (g * pgsize) w next = .ok v → Runs p t v := by
    intro v closed
    refine Runs.step shows.calm ?_
    rw [here]
    exact closed
  simp only [FileTable.runPipeclose, page] at first
  rw [pipeclose, show (s.drop i).mem = s.mem from rfl,
    show (if w = true then writeopen else readopen) = openFlag w from rfl] at ran
  generalize storeInt s.mem (g * pgsize + openFlag w) 0 = m at wrote other free read' write' ran
  by_cases clear : loadInt m (g * pgsize + readopen) = 0 ∧ loadInt m (g * pgsize + writeopen) = 0
  · -- the page is given back
    rw [if_pos clear] at ran
    rw [if_pos ⟨read'.mpr clear.1, write'.mpr clear.2⟩] at first
    obtain ⟨m', freed, -, keeps⟩ := Vm.kfree_ok free (sound.pipe_ram isPipe) notFree
    rw [freed] at ran
    cases ran
    let t₁ := (t.setPage (g * pgsize) (some (pipe.close w))).jump p (.kfree (g * pgsize) next)
    have pc : (t₁.proc p).pc = .kfree (g * pgsize) next := jump_pc ..
    have there : t₁.page (g * pgsize) = some (pipe.close w) := Function.update_self ..
    have second : Runs p t₁ (runNext (t₁.setPage (g * pgsize) none) p next) := by
      refine Runs.step shows.calm ?_
      rw [pc]
      simp only [runPc, FileTable.runKfree, there]
    have zero : loadInt s.mem (g * pgsize + openFlag (!w)) = 0 := by
      rw [← other]
      cases w with
      | false => exact clear.2
      | true => exact clear.1
    have none_left := no_pipe_left sound.files isEnd ((sound.files.flag g (!w) isPipe).mp zero)
    have shows₁ : Shows ((s.drop i).setMem m) t₁ :=
      (shows.setPage wrote fun there => absurd there none_left).jump p _
    exact ⟨_, (first _ rfl).trans second, shows₁.setPage keeps fun there => absurd there none_left⟩
  · rw [if_neg clear] at ran
    rw [if_neg fun both => clear ⟨read'.mp both.1, write'.mp both.2⟩] at first
    cases ran
    exact ⟨_, first _ rfl, shows.setPage wrote fun _ => ⟨_, rfl, read', write'⟩⟩

/-- `fileclose`, with `pipeclose` and `kfree` where they follow. -/
theorem fileclose_run (sound : Sound l tramp boot s loose T fs) (shows : Shows s t)
    (here : (t.proc p).pc = .fileclose i next) (ran : fileclose l i s = .ok s') :
    ∃ u, Runs p t (runNext u p next) ∧ Shows s' u := by
  have entry := shows.file i
  rw [fileclose] at ran
  by_cases used : (s.file i).ref < 1
  · rw [if_pos used] at ran
    cases ran
  rw [if_neg used] at ran
  -- the step of `fileclose`
  have first : ∀ v, FileTable.runFileclose t p i next = .ok v → Runs p t v := by
    intro v closed
    refine Runs.step shows.calm ?_
    rw [here]
    exact closed
  have ref_eq : (s.file i).entry.ref = (s.file i).ref := rfl
  simp only [FileTable.runFileclose, entry, ref_eq, if_neg used] at first
  by_cases more : 0 < (s.file i).ref - 1
  · rw [if_pos more] at ran
    cases ran
    rw [if_pos (by omega)] at first
    exact ⟨_, first _ rfl, shows.setFile fun pipe => ⟨pipe, rfl⟩⟩
  rw [if_neg more] at ran
  rw [if_neg (by omega)] at first
  have dropped : Shows (s.drop i) (t.setFile i { (s.file i).entry with ref := 0, type := .none }) :=
    shows.setFile fun no => by cases no
  have type_eq : (s.file i).entry.type = (s.file i).type := rfl
  rw [type_eq] at first
  cases type : (s.file i).type with
  | none =>
    rw [type] at ran first
    cases ran
    exact ⟨_, first _ rfl, dropped⟩
  | inode =>
    rw [type] at ran first
    cases ran
    exact ⟨_, first _ rfl, dropped.change rfl rfl dropped.calm dropped.file dropped.ofile fun _ => id⟩
  | device =>
    rw [type] at ran first
    cases ran
    exact ⟨_, first _ rfl, dropped.change rfl rfl dropped.calm dropped.file dropped.ofile fun _ => id⟩
  | pipe =>
    rw [type] at ran first
    obtain ⟨g, w, isEnd⟩ := sound.files.page i type
    obtain ⟨pipe, page, read, write⟩ := shows.page g ⟨w, i, isEnd⟩
    have closing : pipeclose l (g * pgsize) w (s.drop i) = .ok s' := by
      rw [← isEnd.2.1, ← isEnd.2.2]
      exact ran
    have pc : FileTable.Pc.pipeclose (s.file i).entry.pipe (s.file i).entry.writable next =
        .pipeclose (g * pgsize) w next := by
      rw [← isEnd.2.1, ← isEnd.2.2]
      rfl
    obtain ⟨u, rest, shows'⟩ := pipeclose_run sound isEnd (dropped.jump p _) page read write
      ((jump_pc _ p _).trans pc) closing
    exact ⟨u, (first _ rfl).trans rest, shows'⟩

/-! ## `close` -/

theorem Shows.jumpSlot (shows : Shows s t) (p : Fin nproc) (fd : Fin nofile)
    (new : Option (Fin nfile)) (pc : FileTable.Pc) :
    Shows (s.setOfile p fd new) (t.jumpSlot (slotOf p) fd new pc) := by
  refine shows.change rfl rfl shows.calm shows.file (fun q => ?_) fun _ => id
  dsimp only [FileTable.State.jumpSlot, FileTable.State.setProc, State.setOfile, State.setProc]
  by_cases eq : q = p
  · rw [eq, Function.update_self, Function.update_self, shows.ofile]
  · rw [Function.update_of_ne eq, Function.update_of_ne fun same => eq (slotOf_inj same),
      shows.ofile]

/-- A whole `close` is a run of the process. -/
theorem sysClose_run {p : Fin nproc} {n r : Int} (sound : Sound l tramp boot s [] T fs)
    (shows : Shows s t) (user : (t.proc (slotOf p)).pc = .user)
    (ran : sysClose l p n s = .ok (r, s')) :
    ∃ t' u, FileTable.step t (.call (slotOf p) (.close n)) = some t' ∧ Runs (slotOf p) t' u ∧
      Shows s' u ∧ (u.proc (slotOf p)).pc = .user := by
  have entered : FileTable.step t (.call (slotOf p) (.close n)) =
      FileTable.enter t (slotOf p) (.close n) := by
    simp only [FileTable.step, shows.calm, user]
  rw [entered]
  rw [sysClose] at ran
  simp only [FileTable.enter, shows.ofile]
  cases found : argfd (s.proc p).ofile n with
  | none =>
    rw [found] at ran
    cases ran
    exact ⟨t, t, rfl, .refl _ t, shows, user⟩
  | some entry =>
    obtain ⟨fd, i⟩ := entry
    rw [found] at ran
    obtain ⟨s₁, gs, closed, -, -⟩ :=
      fileclose_spec (sound.take (FileTable.argfd_some found))
    dsimp only [bind, Except.bind] at ran
    rw [closed] at ran
    cases ran
    obtain ⟨u, rest, shows'⟩ := fileclose_run (sound.take (FileTable.argfd_some found))
      (shows.jumpSlot p fd none (.fileclose i (.close []))) (jumpSlot_pc ..) closed
    exact ⟨_, _, rfl, rest, shows'.jump _ _, jump_pc ..⟩

/-! ## `exit` -/

theorem drop_finRange {k : Nat} (lt : k < nofile) :
    (List.finRange nofile).drop k = ⟨k, lt⟩ :: (List.finRange nofile).drop (k + 1) := by
  rw [List.drop_eq_getElem_cons (by rwa [List.length_finRange]), List.getElem_finRange]
  rfl

theorem closeLoop_run {p : Fin nproc} {k : Nat} (sound : Sound l tramp boot s [] T fs)
    (shows : Shows s t) (here : (t.proc (slotOf p)).pc = .exitLoop k)
    (ran : closeLoop l p ((List.finRange nofile).drop k) s = .ok s') :
    ∃ u, Runs (slotOf p) t u ∧ Shows s' u ∧ (u.proc (slotOf p)).pc = .zombie := by
  induction left : nofile - k generalizing s t fs k with
  | zero =>
    rw [List.drop_eq_nil_of_le (by rw [List.length_finRange]; omega)] at ran
    cases ran
    refine ⟨_, .step shows.calm ?_, shows.jump _ _, jump_pc ..⟩
    rw [here]
    simp only [runPc, FileTable.runExitLoop]
    rw [dif_neg (by omega)]
  | succ n ih =>
    have lt : k < nofile := by omega
    rw [drop_finRange lt, closeLoop] at ran
    have first : ∀ v, FileTable.runExitLoop t (slotOf p) k = v → Runs (slotOf p) t v := by
      rintro v rfl
      refine .step shows.calm ?_
      rw [here]
      rfl
    simp only [FileTable.runExitLoop, dif_pos lt, shows.ofile] at first
    cases file : (s.proc p).ofile ⟨k, lt⟩ with
    | none =>
      rw [file] at first ran
      obtain ⟨u, rest, done⟩ := ih sound (shows.jump _ _) (jump_pc ..) ran (by omega)
      exact ⟨u, (first _ rfl).trans rest, done⟩
    | some i =>
      rw [file] at first ran
      obtain ⟨s₁, gs, closed, -, sound₁⟩ := fileclose_clear sound file
      dsimp only [bind, Except.bind] at ran
      rw [closed] at ran
      obtain ⟨u, rest, shows₁⟩ :=
        fileclose_run sound (shows.jump (slotOf p) _) (jump_pc ..) closed
      obtain ⟨v, rest', done⟩ := ih sound₁ (shows₁.jumpSlot p ⟨k, lt⟩ none (.exitLoop (k + 1)))
        (jumpSlot_pc ..) ran (by omega)
      exact ⟨v, ((first _ rfl).trans rest).trans rest', done⟩

/-- A whole `exit` is a run of the process. -/
theorem exit_run {p : Fin nproc} {status : Int} (sound : Sound l tramp boot s [] T fs)
    (shows : Shows s t) (user : (t.proc (slotOf p)).pc = .user)
    (ran : exit l p status s = .ok s') :
    ∃ t' u, FileTable.step t (.call (slotOf p) .exit) = some t' ∧ Runs (slotOf p) t' u ∧
      Shows s' u ∧ (u.proc (slotOf p)).pc = .zombie := by
  rw [exit] at ran
  by_cases init : p = s.initproc
  · rw [if_pos init] at ran
    cases ran
  rw [if_neg init] at ran
  obtain ⟨s₁, gs, closed, -⟩ := closeLoop_spec (p := p) (List.finRange nofile) sound
  dsimp only [bind, Except.bind] at ran
  rw [closed] at ran
  obtain rfl : s₁.zombie p status = s' := Except.ok.inj ran
  have entered : FileTable.step t (.call (slotOf p) .exit) =
      some (t.jump (slotOf p) (.exitLoop 0)) := by
    simp only [FileTable.step, shows.calm, user, FileTable.enter]
  obtain ⟨u, rest, shows₁, done⟩ := closeLoop_run sound (shows.jump _ (.exitLoop 0)) (jump_pc ..)
    (k := 0) closed
  have file : (s₁.zombie p status).file = s₁.file := leaveCwd_file s₁ p
  refine ⟨_, u, entered, rest, shows₁.change (leaveCwd_mem s₁ p) rfl shows₁.calm ?_ ?_ ?_, done⟩
  · rw [file]
    exact shows₁.file
  · intro q
    rw [shows₁.ofile]
    by_cases eq : q = p
    · rw [eq, zombie_self]
    · rw [zombie_other eq]
  · exact fun g => (isPipe_congr file).mp

/-! ## `fork` -/

theorem Shows.filedup (shows : Shows s t) (ran : filedup i s = .ok s') :
    ∃ u, FileTable.runFiledup t i = .ok u ∧ Shows s' u := by
  have ref_eq : (t.file i).ref = (s.file i).ref := congrArg FileTable.File.ref (shows.file i)
  rw [Calls.filedup] at ran
  simp only [FileTable.runFiledup, ref_eq]
  by_cases unused : (s.file i).ref < 1
  · rw [if_pos unused] at ran
    cases ran
  · rw [if_neg unused] at ran ⊢
    cases ran
    refine ⟨_, rfl, ?_⟩
    rw [shows.file]
    exact shows.setFile fun pipe => ⟨pipe, rfl⟩

/-- The loop of `fork` over the descriptors, up to the return of both processes. -/
theorem dupLoop_run {p np : Fin nproc} {k : Nat} (ne : p ≠ np) (shows : Shows s t)
    (here : (t.proc (slotOf p)).pc = .forkLoop (slotOf np) k)
    (ran : dupLoop p np ((List.finRange nofile).drop k) s = .ok s') :
    ∃ u, Runs (slotOf p) t u ∧ Shows s' u ∧ (u.proc (slotOf p)).pc = .user ∧
      (u.proc (slotOf np)).pc = .user := by
  induction left : nofile - k generalizing s t k with
  | zero =>
    rw [List.drop_eq_nil_of_le (by rw [List.length_finRange]; omega)] at ran
    cases ran
    refine ⟨_, .step shows.calm ?_, (shows.jump (slotOf np) .user).jump _ _, jump_pc .., ?_⟩
    · rw [here]
      simp only [runPc, FileTable.runForkLoop]
      rw [dif_neg (by omega)]
    · rw [jump_pc_other _ _ fun same => ne (slotOf_inj same).symm, jump_pc]
  | succ n ih =>
    have lt : k < nofile := by omega
    rw [drop_finRange lt, dupLoop] at ran
    have first : ∀ v, FileTable.runForkLoop t (slotOf p) (slotOf np) k = .ok v →
        Runs (slotOf p) t v := by
      intro v looped
      refine .step shows.calm ?_
      rw [here]
      exact looped
    simp only [FileTable.runForkLoop, dif_pos lt, shows.ofile] at first
    cases file : (s.proc p).ofile ⟨k, lt⟩ with
    | none =>
      rw [file] at first ran
      obtain ⟨u, rest, done⟩ := ih (shows.jump _ _) (jump_pc ..) ran (by omega)
      exact ⟨u, (first _ rfl).trans rest, done⟩
    | some i =>
      rw [file] at first ran
      dsimp only [bind, Except.bind] at first ran
      cases counted : filedup i s with
      | error e =>
        rw [counted] at ran
        cases ran
      | ok s₁ =>
        rw [counted] at ran
        obtain ⟨t₁, counted', shows₁⟩ := shows.filedup counted
        rw [counted'] at first
        obtain ⟨u, rest, done⟩ := ih ((shows₁.jumpSlot np ⟨k, lt⟩ (some i) _).jump (slotOf p) _)
          (jump_pc ..) ran (by omega)
        exact ⟨u, (first _ rfl).trans rest, done⟩

end Sistemas.Xv6.Calls
