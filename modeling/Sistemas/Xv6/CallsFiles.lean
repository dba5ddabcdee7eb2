import Sistemas.Data.Counting
import Sistemas.Xv6.CallsProc
import Sistemas.Xv6.FileTableCounts

/-! # Open files and the pages of pipes

`Sound` is what holds between two calls: each page has one owner, each entry of the file table has
as many references as it counts, and a pipe has its page as long as one of its ends is open.
-/

namespace Sistemas.Xv6.Calls

open Vm (Mem pgsize kalloc kfree InRam FreeList kernbase)
open Uvm
open Sysfile (nfile nofile)
open FileTable (slots_update slots_pos)

variable {l : Layout} {tramp f g n : Nat} {fs gs hs : List Nat} {m m' : Mem} {s s' : State}
  {T : Fin nproc → Option Table} {p q np : Fin nproc} {boot : Nat → Prop} {i j : Fin nfile}
  {loose : List (Fin nfile)} {w : Bool} {fd : Fin nofile}

/-! ## The invariant -/

/-- The descriptors that are open for an entry. -/
def holders (s : State) (i : Fin nfile) : Nat := ∑ p, FileTable.slots (s.proc p).ofile i

/-- An entry is this end of the pipe in page `g`. -/
def IsEnd (s : State) (g : Nat) (w : Bool) (i : Fin nfile) : Prop :=
  (s.file i).type = .pipe ∧ (s.file i).pipe = g * pgsize ∧ (s.file i).writable = w

def IsPipe (s : State) (g : Nat) : Prop := ∃ w i, IsEnd s g w i

/-- Where it is noted that an end is open. -/
def openFlag (w : Bool) : Nat := if w then writeopen else readopen

/-- `loose` are the references that are not in a descriptor. -/
structure Files (s : State) (loose : List (Fin nfile)) : Prop where
  count : ∀ i, (s.file i).ref = holders s i + loose.count i
  closed : ∀ i, (s.file i).ref = 0 → (s.file i).type = .none
  page : ∀ i, (s.file i).type = .pipe → ∃ g w, IsEnd s g w i
  once : ∀ g w i j, IsEnd s g w i → IsEnd s g w j → i = j
  flag : ∀ g w, IsPipe s g → (loadInt s.mem (g * pgsize + openFlag w) = 0 ↔ ∀ i, ¬ IsEnd s g w i)

/-- A process with its memory, or a slot that is free. -/
inductive Slot (proc : Proc) : Option Table → Prop
  | unused (state : proc.state = .UNUSED) (trapframe : proc.trapframe = 0)
      (pagetable : proc.pagetable = 0) (sz : proc.sz = 0) (ofile : ∀ fd, proc.ofile fd = none) :
      Slot proc none
  | used {t : Table} (state : proc.state ≠ .UNUSED) (trapframe : proc.trapframe = t.frame * pgsize)
      (pagetable : proc.pagetable = t.root * pgsize) (size : pagesOf proc.sz = t.size)
      (zombie : proc.state = .ZOMBIE → ∀ fd, proc.ofile fd = none) : Slot proc (some t)

/-- The pages of the kernel: those it took at boot, and the pipes. -/
def Rest (boot : Nat → Prop) (s : State) (g : Nat) : Prop := boot g ∨ IsPipe s g

structure Sound (l : Layout) (tramp : Nat) (boot : Nat → Prop) (s : State)
    (loose : List (Fin nfile)) (T : Fin nproc → Option Table) (fs : List Nat) : Prop where
  trampEq : l.tramp = tramp * pgsize
  spaces : Spaces l.kend tramp s.mem T (Rest boot s) fs
  slot : ∀ p, Slot (s.proc p) (T p)
  files : Files s loose
  apart : ∀ g, boot g → ¬ IsPipe s g

/-! ## Changes elsewhere -/

theorem isEnd_congr (file : s'.file = s.file) : IsEnd s' g w i ↔ IsEnd s g w i := by
  rw [IsEnd, IsEnd, file]

theorem isPipe_congr (file : s'.file = s.file) : IsPipe s' g ↔ IsPipe s g := by
  simp only [IsPipe, isEnd_congr file]

theorem rest_congr (file : s'.file = s.file) : Rest boot s' g ↔ Rest boot s g := by
  rw [Rest, Rest, isPipe_congr file]

theorem openFlag_le (w : Bool) : openFlag w + 4 ≤ pgsize := by
  cases w <;> decide

theorem loadInt_keeps {P : Nat → Prop} (keeps : m.bytes.Keeps pgsize P m'.bytes) (here : P g)
    (w : Bool) : loadInt m' (g * pgsize + openFlag w) = loadInt m (g * pgsize + openFlag w) :=
  keeps.load here (openFlag_le w)

theorem holders_congr (ofile : ∀ p, (s'.proc p).ofile = (s.proc p).ofile) :
    holders s' i = holders s i := by
  simp only [holders, ofile]

/-- Neither the files nor the pages of pipes change. -/
theorem Files.congr (files : Files s loose) (file : s'.file = s.file)
    (ofile : ∀ p, (s'.proc p).ofile = (s.proc p).ofile)
    (keeps : s.mem.bytes.Keeps pgsize (IsPipe s) s'.mem.bytes) : Files s' loose where
  count i := by rw [file, holders_congr ofile, files.count]
  closed i := by rw [file]; exact files.closed i
  page i := by
    simp only [isEnd_congr file, file]
    exact files.page i
  once g w i j := by
    simp only [isEnd_congr file]
    exact files.once g w i j
  flag g w pipe := by
    have there := (isPipe_congr file).mp pipe
    rw [loadInt_keeps keeps there]
    simp only [isEnd_congr file]
    exact files.flag g w there

namespace Sound

variable {t : Table}

theorem linked (sound : Sound l tramp boot s loose T fs) : kernbase ≤ l.kend :=
  sound.spaces.linked

theorem ram (sound : Sound l tramp boot s loose T fs) (here : T p = some t)
    (mine : t.Pages s.mem f) : InRam l.kend f :=
  sound.spaces.part.of_owner (owns_some here mine)

theorem ram_frame (sound : Sound l tramp boot s loose T fs) (here : T p = some t) :
    InRam l.kend t.frame :=
  sound.ram here (.inl rfl)

theorem ram_root (sound : Sound l tramp boot s loose T fs) (here : T p = some t) :
    InRam l.kend t.root :=
  sound.ram here (.inr (.inl (Vm.isTable (Nat.zero_le 2) (n := 0) rfl)))

theorem pipe_ram (sound : Sound l tramp boot s loose T fs) (pipe : IsPipe s g) :
    InRam l.kend g :=
  sound.spaces.part.of_owner (i := none) (.inr pipe)

theorem pipe_not_free (sound : Sound l tramp boot s loose T fs) (pipe : IsPipe s g) : g ∉ fs :=
  sound.spaces.part.apart none g (.inr pipe)

/-- What a process does with its memory, and the slot that is left. -/
theorem step {r : Option Table} (sound : Sound l tramp boot s loose T fs)
    (step : Step l.kend s.mem s'.mem fs gs (Pages s.mem (T p)) (Pages s'.mem r))
    (ok : ∀ t, r = some t → t.Ok l.kend tramp s'.mem gs) (slot : Slot (s'.proc p) r)
    (others : ∀ q, q ≠ p → s'.proc q = s.proc q) (file : s'.file = s.file)
    (ofile : (s'.proc p).ofile = (s.proc p).ofile) :
    Sound l tramp boot s' loose (Function.update T p r) gs where
  trampEq := sound.trampEq
  spaces := (sound.spaces.step step ok).congr fun _ => rest_congr file
  slot q := by
    by_cases same : q = p
    · rw [same, Function.update_self]
      exact slot
    · rw [Function.update_of_ne same, others q same]
      exact sound.slot q
  files := by
    apply sound.files.congr file
    · intro q
      by_cases same : q = p
      · rw [same, ofile]
      · rw [others q same]
    · apply step.keeps.mono
      intro g pipe
      exact sound.spaces.part.untouched (i := some p) (j := none) (fun no => by cases no)
        (.inr pipe)
  apart g isBoot pipe := sound.apart g isBoot ((isPipe_congr file).mp pipe)

/-- Only fields of processes that do not concern the memory change. -/
theorem congr (sound : Sound l tramp boot s loose T fs) (mem : s'.mem = s.mem)
    (slot : ∀ p, Slot (s'.proc p) (T p)) (file : s'.file = s.file)
    (ofile : ∀ p, (s'.proc p).ofile = (s.proc p).ofile) : Sound l tramp boot s' loose T fs where
  trampEq := sound.trampEq
  spaces := by
    rw [mem]
    exact sound.spaces.congr fun _ => rest_congr file
  slot := slot
  files := sound.files.congr file ofile (by rw [mem]; exact .refl _ _ _)
  apart g isBoot pipe := sound.apart g isBoot ((isPipe_congr file).mp pipe)

/-- The kernel takes or gives up pages of pipes. -/
theorem stepFiles {loose' : List (Fin nfile)} (sound : Sound l tramp boot s loose T fs)
    (step : Step l.kend s.mem s'.mem fs gs (Rest boot s) (Rest boot s'))
    (slot : ∀ p, Slot (s'.proc p) (T p)) (files : Files s' loose')
    (apart : ∀ g, boot g → ¬ IsPipe s' g) : Sound l tramp boot s' loose' T gs where
  trampEq := sound.trampEq
  spaces := sound.spaces.stepRest step
  slot := slot
  files := files
  apart := apart

/-- The references move between the descriptors and the call. -/
theorem withFiles {loose' : List (Fin nfile)} (sound : Sound l tramp boot s loose T fs)
    (mem : s'.mem = s.mem) (slot : ∀ p, Slot (s'.proc p) (T p))
    (pipes : ∀ g, IsPipe s' g ↔ IsPipe s g) (files : Files s' loose') :
    Sound l tramp boot s' loose' T fs where
  trampEq := sound.trampEq
  spaces := by
    rw [mem]
    exact sound.spaces.congr fun g => or_congr_right (pipes g)
  slot := slot
  files := files
  apart g isBoot pipe := sound.apart g isBoot ((pipes g).mp pipe)

end Sound

/-! ## References -/

theorem holders_setOfile (s : State) (p : Fin nproc) (fd : Fin nofile) (new : Option (Fin nfile))
    (i : Fin nfile) : holders (s.setOfile p fd new) i +
      (if (s.proc p).ofile fd = some i then 1 else 0) = holders s i + if new = some i then 1 else 0 := by
  have total := sum_update (Finset.mem_univ p) s.proc
    { s.proc p with ofile := Function.update (s.proc p).ofile fd new }
    fun _ proc => FileTable.slots proc.ofile i
  have one := slots_update i (s.proc p).ofile fd new
  simp only [holders, State.setOfile, State.setProc]
  dsimp only at total
  omega

theorem holders_pos (here : (s.proc p).ofile fd = some i) : 0 < holders s i :=
  Finset.sum_pos' (fun _ _ => Nat.zero_le _) ⟨p, Finset.mem_univ p, slots_pos here⟩

theorem slot_setOfile {new : Option (Fin nfile)} (slot : ∀ q, Slot (s.proc q) (T q))
    (live : new ≠ none → (s.proc p).state ≠ .UNUSED ∧ (s.proc p).state ≠ .ZOMBIE) (q : Fin nproc) :
    Slot ((s.setOfile p fd new).proc q) (T q) := by
  by_cases same : q = p
  · subst same
    rw [State.setOfile, State.setProc_self]
    have clear : ∀ fd', (∀ fd, (s.proc q).ofile fd = none) → new = none →
        Function.update (s.proc q).ofile fd new fd' = none := by
      rintro fd' all rfl
      by_cases eq : fd' = fd
      · rw [eq, Function.update_self]
      · rw [Function.update_of_ne eq, all]
    have here := slot q
    generalize T q = r at here ⊢
    cases here with
    | unused state trapframe pagetable sz ofile =>
      refine .unused state trapframe pagetable sz fun fd' => clear fd' ofile ?_
      by_contra some
      exact (live some).1 state
    | used state trapframe pagetable size zombie =>
      refine .used state trapframe pagetable size fun isZombie fd' => clear fd' (zombie isZombie) ?_
      by_contra some
      exact (live some).2 isZombie
  · rw [State.setOfile, State.setProc_other _ _ same]
    exact slot q

theorem count_cons_eq (i j : Fin nfile) (loose : List (Fin nfile)) :
    (i :: loose).count j = loose.count j + if i = j then 1 else 0 := by
  rw [List.count_cons]
  simp only [beq_iff_eq]

/-- A reference gets a descriptor. -/
theorem Sound.give (sound : Sound l tramp boot s (i :: loose) T fs)
    (empty : (s.proc p).ofile fd = none) (notUnused : (s.proc p).state ≠ .UNUSED)
    (notZombie : (s.proc p).state ≠ .ZOMBIE) :
    Sound l tramp boot (s.setOfile p fd (some i)) loose T fs := by
  refine sound.withFiles rfl (slot_setOfile sound.slot fun _ => ⟨notUnused, notZombie⟩)
    (fun _ => .rfl) ⟨fun j => ?_, sound.files.closed, sound.files.page, sound.files.once,
      sound.files.flag⟩
  have total := holders_setOfile s p fd (some i) j
  have count := sound.files.count j
  have cons := count_cons_eq i j loose
  have same : (some i = some j) ↔ i = j := Option.some_inj
  have other : ¬ (none : Option (Fin nfile)) = some j := fun no => by cases no
  rw [empty, if_neg other] at total
  simp only [same] at total
  rw [State.setOfile_file]
  omega

/-- A descriptor gives up its reference. -/
theorem Sound.take (sound : Sound l tramp boot s loose T fs)
    (here : (s.proc p).ofile fd = some i) :
    Sound l tramp boot (s.setOfile p fd none) (i :: loose) T fs := by
  refine sound.withFiles rfl (slot_setOfile sound.slot fun no => absurd rfl no) (fun _ => .rfl)
    ⟨fun j => ?_, sound.files.closed, sound.files.page, sound.files.once, sound.files.flag⟩
  have total := holders_setOfile s p fd none j
  have count := sound.files.count j
  have cons := count_cons_eq i j loose
  have same : (some i = some j) ↔ i = j := Option.some_inj
  have other : ¬ (none : Option (Fin nfile)) = some j := fun no => by cases no
  rw [here, if_neg other] at total
  simp only [same] at total
  rw [State.setOfile_file]
  omega

/-! ## Closing -/

theorem keeps_storeInt (m : Mem) (g v : Nat) (w : Bool) :
    m.bytes.Keeps pgsize (· ≠ g) (storeInt m (g * pgsize + openFlag w) v).bytes := by
  have inside := openFlag_le w
  refine @Bytes.keeps_store m.bytes pgsize g (g * pgsize + openFlag w) 4 v (Nat.le_add_right _ _) ?_
  rw [Nat.succ_mul]
  omega

theorem loadInt_storeInt (m : Mem) (a v : Nat) (lt : v < 256 ^ 4) : loadInt (storeInt m a v) a = v := by
  rw [loadInt, storeInt, Bytes.load_store]
  exact Nat.mod_eq_of_lt lt

theorem loadInt_other (m : Mem) (g v : Nat) (w : Bool) :
    loadInt (storeInt m (g * pgsize + openFlag w) v) (g * pgsize + openFlag (!w)) =
      loadInt m (g * pgsize + openFlag (!w)) := by
  rw [loadInt, storeInt, Bytes.load_store_disjoint]
  · rfl
  · cases w with
    | false =>
      have first : openFlag false = 544 := rfl
      have second : openFlag (!false) = 548 := rfl
      omega
    | true =>
      have first : openFlag true = 548 := rfl
      have second : openFlag (!true) = 544 := rfl
      omega

/-- The entry without its last reference. -/
def State.drop (s : State) (i : Fin nfile) : State :=
  s.setFile i { s.file i with ref := 0, type := .none }

theorem isEnd_drop : IsEnd (s.drop i) g w j ↔ IsEnd s g w j ∧ j ≠ i := by
  by_cases same : j = i
  · subst same
    have gone : ¬ IsEnd (s.drop j) g w j := by
      rintro ⟨type, -⟩
      rw [State.drop, State.setFile] at type
      dsimp only at type
      rw [Function.update_self] at type
      cases type
    exact iff_of_false gone fun both => both.2 rfl
  · rw [IsEnd, IsEnd, State.drop, State.setFile]
    dsimp only
    rw [Function.update_of_ne same]
    exact (and_iff_left same).symm

theorem ref_drop : ((s.drop i).file j).ref = if j = i then 0 else (s.file j).ref := by
  rw [State.drop, State.setFile]
  dsimp only
  by_cases same : j = i
  · rw [same, Function.update_self, if_pos rfl]
  · rw [Function.update_of_ne same, if_neg same]

theorem type_drop : ((s.drop i).file j).type = if j = i then .none else (s.file j).type := by
  rw [State.drop, State.setFile]
  dsimp only
  by_cases same : j = i
  · rw [same, Function.update_self, if_pos rfl]
  · rw [Function.update_of_ne same, if_neg same]

/-- The last reference of an entry goes; the page of a pipe is seen to apart. -/
theorem Files.drop (files : Files s (i :: loose)) (last : (s.file i).ref = 1)
    (file : s'.file = (s.drop i).file) (proc : s'.proc = s.proc)
    (flag : ∀ g w, IsPipe s' g → (loadInt s'.mem (g * pgsize + openFlag w) = 0 ↔
      ∀ j, ¬ IsEnd s' g w j)) : Files s' loose where
  count j := by
    have total := files.count j
    have cons := count_cons_eq i j loose
    have same : holders s' j = holders s j := holders_congr fun p => by rw [proc]
    rw [file, ref_drop, same]
    by_cases eq : j = i
    · subst eq
      rw [if_pos rfl] at cons ⊢
      omega
    · rw [if_neg fun no => eq no.symm] at cons
      rw [if_neg eq]
      omega
  closed j := by
    rw [file, ref_drop, type_drop]
    by_cases eq : j = i
    · rw [if_pos eq, if_pos eq]
      exact fun _ => rfl
    · rw [if_neg eq, if_neg eq]
      exact files.closed j
  page j isPipe := by
    rw [file, type_drop] at isPipe
    split at isPipe
    · cases isPipe
    next ne =>
      obtain ⟨g, w, here⟩ := files.page j isPipe
      exact ⟨g, w, (isEnd_congr file).mpr (isEnd_drop.mpr ⟨here, ne⟩)⟩
  once g w j k here there :=
    files.once g w j k (isEnd_drop.mp ((isEnd_congr file).mp here)).1
      (isEnd_drop.mp ((isEnd_congr file).mp there)).1
  flag := flag

/-- What the functions on files leave as it is. -/
structure SameProcs (T : Fin nproc → Option Table) (s s' : State) : Prop where
  proc : s'.proc = s.proc
  init : s'.initproc = s.initproc
  kept : ∀ p, Kept s.mem s'.mem (T p)

theorem SameProcs.trans {s'' : State} (first : SameProcs T s s') (second : SameProcs T s' s'') :
    SameProcs T s s'' :=
  ⟨second.proc.trans first.proc, second.init.trans first.init,
    fun p => (first.kept p).trans (second.kept p)⟩

theorem SameProcs.of_mem (mem : s'.mem = s.mem) (proc : s'.proc = s.proc)
    (init : s'.initproc = s.initproc) : SameProcs T s s' :=
  ⟨proc, init, fun p => by rw [mem]; exact .refl _ _⟩

/-- The kernel writes to the page of a pipe, or gives it back. -/
theorem Sound.sameProcs (sound : Sound l tramp boot s loose T fs)
    (step : Step l.kend s.mem s'.mem fs gs (Rest boot s) (Rest boot s')) (proc : s'.proc = s.proc)
    (init : s'.initproc = s.initproc) : SameProcs T s s' :=
  ⟨proc, init, fun _ => sound.spaces.kept (o := none) step fun no => by cases no⟩

theorem cancel_page (same : g * pgsize = f * pgsize) : g = f :=
  Nat.eq_of_mul_eq_mul_right (by decide) same

/-- An end of another pipe is another entry. -/
theorem IsEnd.other (isEnd : IsEnd s g w i) {w' : Bool} (ne : f ≠ g) (there : IsEnd s f w' j) :
    j ≠ i := by
  rintro rfl
  exact ne (cancel_page (there.2.1.symm.trans isEnd.2.1))

/-- The other end is another entry. -/
theorem IsEnd.opposite (isEnd : IsEnd s g w i) (there : IsEnd s f (!w) j) : j ≠ i := by
  rintro rfl
  have same := isEnd.2.2.symm.trans there.2.2
  cases w <;> cases same

theorem isEnd_dropped {s₁ : State} (file : s₁.file = (s.drop i).file) :
    IsEnd s₁ g w j ↔ IsEnd s g w j ∧ j ≠ i := by
  rw [isEnd_congr file, isEnd_drop]

/-- The last end of a pipe is no end any more. -/
theorem no_pipe_left (files : Files s loose) (isEnd : IsEnd s g w i)
    (closed : ∀ j, ¬ IsEnd s g (!w) j) : ¬ IsPipe (s.drop i) g := by
  rintro ⟨w', j, there⟩
  obtain ⟨there, ne⟩ := isEnd_drop.mp there
  by_cases same : w' = w
  · subst same
    exact ne (files.once g w' j i there isEnd)
  · exact closed j (Bool.eq_not.mpr same ▸ there)

/-- The other end is closed, too: the page of the pipe is given back. -/
theorem pipeclose_last {s₁ : State} (sound : Sound l tramp boot s (i :: loose) T fs)
    (last : (s.file i).ref = 1) (isEnd : IsEnd s g w i) (closed : ∀ j, ¬ IsEnd s g (!w) j)
    (file : s₁.file = (s.drop i).file) (proc : s₁.proc = s.proc)
    (free : FreeList l.kend s₁.mem (g :: fs))
    (kept : s.mem.bytes.Keeps pgsize (· ≠ g) s₁.mem.bytes) :
    Step l.kend s.mem s₁.mem fs (g :: fs) (Rest boot s) (Rest boot s₁) ∧
      Sound l tramp boot s₁ loose T (g :: fs) := by
  have pipe : IsPipe s g := ⟨w, i, isEnd⟩
  have pipes : ∀ f, IsPipe s₁ f ↔ IsPipe s f ∧ f ≠ g := by
    intro f
    constructor
    · rintro ⟨w', j, there⟩
      refine ⟨⟨w', j, ((isEnd_dropped file).mp there).1⟩, ?_⟩
      rintro rfl
      exact no_pipe_left sound.files isEnd closed ⟨w', j, (isEnd_congr file).mp there⟩
    · rintro ⟨⟨w', j, there⟩, ne⟩
      exact ⟨w', j, (isEnd_dropped file).mpr ⟨there, isEnd.other ne there⟩⟩
  have step : Step l.kend s.mem s₁.mem fs (g :: fs) (Rest boot s) (Rest boot s₁) := by
    refine ⟨free, fun f => ?_, fun f mine mem => ?_, kept.mono ?_⟩
    · rw [Rest, Rest, pipes, List.mem_cons]
      by_cases eq : f = g
      · subst eq
        exact iff_of_true (.inl (.inl rfl)) (.inr (.inr pipe))
      · simp only [eq, ne_eq, not_false_iff, and_true, false_or]
    · rw [List.mem_cons] at mem
      cases mine with
      | inl isBoot =>
        cases mem with
        | inl eq => exact sound.apart f isBoot (eq ▸ pipe)
        | inr mem => exact sound.spaces.part.apart none f (.inl isBoot) mem
      | inr there =>
        obtain ⟨there, ne⟩ := (pipes f).mp there
        cases mem with
        | inl eq => exact ne eq
        | inr mem => exact sound.pipe_not_free there mem
    · rintro f out rfl
      exact out.2 (.inr pipe)
  refine ⟨step, sound.stepFiles step (fun p => by rw [proc]; exact sound.slot p) ?_
    fun f isBoot there => sound.apart f isBoot ((pipes f).mp there).1⟩
  refine sound.files.drop last file proc fun f w' there => ?_
  obtain ⟨there', ne⟩ := (pipes f).mp there
  rw [loadInt_keeps kept ne, sound.files.flag f w' there']
  refine forall_congr' fun j => not_congr ?_
  rw [isEnd_dropped file]
  exact (and_iff_left_of_imp (isEnd.other ne)).symm

/-- The other end is open: it is noted that this one is not. -/
theorem pipeclose_other {s₁ : State} {k : Fin nfile}
    (sound : Sound l tramp boot s (i :: loose) T fs) (last : (s.file i).ref = 1)
    (isEnd : IsEnd s g w i) (there : IsEnd s g (!w) k) (file : s₁.file = (s.drop i).file)
    (proc : s₁.proc = s.proc) (free : FreeList l.kend s₁.mem fs)
    (wrote : s.mem.bytes.Keeps pgsize (· ≠ g) s₁.mem.bytes)
    (zero : loadInt s₁.mem (g * pgsize + openFlag w) = 0)
    (other : loadInt s₁.mem (g * pgsize + openFlag (!w)) =
      loadInt s.mem (g * pgsize + openFlag (!w))) :
    Step l.kend s.mem s₁.mem fs fs (Rest boot s) (Rest boot s₁) ∧
      Sound l tramp boot s₁ loose T fs := by
  have pipe : IsPipe s g := ⟨w, i, isEnd⟩
  have pipes : ∀ f, IsPipe s₁ f ↔ IsPipe s f := by
    intro f
    constructor
    · rintro ⟨w', j, here⟩
      exact ⟨w', j, ((isEnd_dropped file).mp here).1⟩
    · rintro ⟨w', j, here⟩
      by_cases eq : j = i
      · subst eq
        obtain rfl := cancel_page (isEnd.2.1.symm.trans here.2.1)
        exact ⟨!w, k, (isEnd_dropped file).mpr ⟨there, isEnd.opposite there⟩⟩
      · exact ⟨w', j, (isEnd_dropped file).mpr ⟨here, eq⟩⟩
  have step : Step l.kend s.mem s₁.mem fs fs (Rest boot s) (Rest boot s₁) := by
    refine ⟨free, fun f => ?_, fun f mine => ?_, wrote.mono ?_⟩
    · rw [Rest, Rest, pipes]
    · exact sound.spaces.part.apart none f (mine.imp_right (pipes f).mp)
    · rintro f out rfl
      exact out.2 (.inr pipe)
  refine ⟨step, sound.stepFiles step (fun p => by rw [proc]; exact sound.slot p) ?_
    fun f isBoot here => sound.apart f isBoot ((pipes f).mp here)⟩
  refine sound.files.drop last file proc fun f w' here => ?_
  have here' := (pipes f).mp here
  by_cases eq : f = g
  · subst eq
    by_cases same : w' = w
    · subst same
      refine iff_of_true zero fun j isEnd' => ?_
      obtain ⟨isEnd', ne⟩ := (isEnd_dropped file).mp isEnd'
      exact ne (sound.files.once f w' j i isEnd' isEnd)
    · obtain rfl := Bool.eq_not.mpr same
      rw [other, sound.files.flag f (!w) here']
      refine forall_congr' fun j => not_congr ?_
      rw [isEnd_dropped file]
      exact (and_iff_left_of_imp isEnd.opposite).symm
  · rw [loadInt_keeps wrote eq, sound.files.flag f w' here']
    refine forall_congr' fun j => not_congr ?_
    rw [isEnd_dropped file]
    exact (and_iff_left_of_imp (isEnd.other eq)).symm

theorem pipeclose_spec {s₁ : State} (sound : Sound l tramp boot s (i :: loose) T fs)
    (last : (s.file i).ref = 1) (isEnd : IsEnd s g w i) (dropped : s₁ = s.drop i) :
    ∃ s' gs, pipeclose l (g * pgsize) w s₁ = .ok s' ∧ SameProcs T s s' ∧
      Sound l tramp boot s' loose T gs := by
  have mem : s₁.mem = s.mem := by rw [dropped]; rfl
  have proc : s₁.proc = s.proc := by rw [dropped]; rfl
  have init : s₁.initproc = s.initproc := by rw [dropped]; rfl
  have file : s₁.file = (s.drop i).file := by rw [dropped]
  have pipe : IsPipe s g := ⟨w, i, isEnd⟩
  have notFree := sound.pipe_not_free pipe
  have wrote := keeps_storeInt s.mem g 0 w
  have zero := loadInt_storeInt s.mem (g * pgsize + openFlag w) 0 (by decide)
  have other := loadInt_other s.mem g 0 w
  have free : FreeList l.kend (storeInt s.mem (g * pgsize + openFlag w) 0) fs :=
    sound.spaces.free.write notFree rfl wrote
  have cond : (loadInt (storeInt s.mem (g * pgsize + openFlag w) 0) (g * pgsize + readopen) = 0 ∧
      loadInt (storeInt s.mem (g * pgsize + openFlag w) 0) (g * pgsize + writeopen) = 0) ↔
      ∀ j, ¬ IsEnd s g (!w) j := by
    rw [← sound.files.flag g (!w) pipe, ← other]
    cases w with
    | false => exact and_iff_right zero
    | true => exact and_iff_left zero
  rw [pipeclose, mem]
  rw [show (if w = true then writeopen else readopen) = openFlag w from rfl]
  generalize storeInt s.mem (g * pgsize + openFlag w) 0 = m at wrote zero other free cond
  by_cases closed : ∀ j, ¬ IsEnd s g (!w) j
  · obtain ⟨m', freed, free', keeps⟩ := Vm.kfree_ok free (sound.pipe_ram pipe) notFree
    rw [if_pos (cond.mpr closed), freed]
    obtain ⟨step, sound'⟩ := @pipeclose_last l tramp g fs s T boot i loose w (s₁.setMem m') sound last
      isEnd closed file proc free' (wrote.trans keeps)
    exact ⟨s₁.setMem m', g :: fs, rfl, sound.sameProcs step proc init, sound'⟩
  · obtain ⟨k, there⟩ := not_forall_not.mp closed
    rw [if_neg fun both => closed (cond.mp both)]
    obtain ⟨step, sound'⟩ := @pipeclose_other l tramp g fs s T boot i loose w (s₁.setMem m) k sound
      last isEnd there file proc free wrote zero other
    exact ⟨s₁.setMem m, fs, rfl, sound.sameProcs step proc init, sound'⟩

end Sistemas.Xv6.Calls
