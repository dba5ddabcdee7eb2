import Sistemas.Xv6.SystemPages

/-! # `exec` in the system

A process that cannot be given the new program has its own as before, and one that can finds its
arguments on the stack.
-/

namespace Sistemas.Xv6.Calls.System

open Vm
open Uvm
open Exec (Arg Inode Reads Placed StackPage Stacked need maxarg wordBytes)

variable {l : Layout} {tramp f k root : Nat} {fs gs taken : List Nat} {m m' m₀ : Mem} {M : Map}
  {s s' : State} {T T' : Fin nproc → Option Table} {t : Table} {p q : Fin nproc}
  {boot : Nat → Prop} {loose : List (Fin Sysfile.nfile)} {argv : List Arg} {as : List Nat}
  {va len low high : Nat} {bytes : Bytes}

/-! ## What a call that fails leaves -/

/-- The free pages are those that nobody owns. -/
theorem free_same (sound : Sound l tramp boot s [] T fs)
    (sound' : Sound l tramp boot (s.setMem m') [] T gs) (kept : ∀ q, Kept s.mem m' (T q)) (f : Nat) :
    f ∈ gs ↔ f ∈ fs := by
  have same : ∀ o, owns m' T (Rest boot (s.setMem m')) o f ↔ owns s.mem T (Rest boot s) o f := by
    intro o
    cases o with
    | none => exact .rfl
    | some p => exact (kept p).pages f
  rw [sound'.spaces.part.pool_iff, sound.spaces.part.pool_iff]
  exact and_congr_right fun _ => forall_congr' fun o => not_congr (same o)

/-- The memory of all processes and the free pages are as before. -/
structure AsBefore (l : Layout) (m : Mem) (s : State) (m' : Mem) : Prop where
  mapping : ∀ q, (s.proc q).state ≠ .UNUSED → mapping (s.setMem m') q = mapping s q
  bytes : ∀ q f, f ∈ processPages l m s q → ∀ i < pgsize,
    m'.bytes (f * pgsize + i) = s.mem.bytes (f * pgsize + i)
  free : ∀ f, Owns l m (s.setMem m') .free f ↔ Owns l m s .free f

theorem asBefore (sound : Sound l tramp boot s [] T fs)
    (sound' : Sound l tramp boot (s.setMem m') [] T gs) (kept : ∀ q, Kept s.mem m' (T q)) :
    AsBefore l m s m' where
  mapping q live := by
    obtain ⟨t, here, -⟩ := sound.live live
    rw [mapping_eq sound here, mapping_eq sound' here]
  bytes q f mine i lt := (kept q).keeps.byte ((processPages_iff sound).mp mine) lt
  free f := by
    have before : Owns l m s .free f ↔ f ∈ fs := Set.ext_iff.mp (free_eq (m := m) sound) f
    have after : Owns l m (s.setMem m') .free f ↔ f ∈ gs :=
      Set.ext_iff.mp (free_eq (m := m) sound') f
    rw [before, after]
    exact free_same sound sound' kept f

theorem exec_all_or_nothing (reach : Reachable l m s) (running : (s.proc p).state = .RUNNABLE)
    (namei : List UInt8 → Option Inode) (upath uargv : Nat) :
    ∃ r p' m', Exec.sysExec l namei upath uargv (s.proc p) s.mem = .ok (r, p', m') ∧
      (r = none → p' = s.proc p ∧ AsBefore l m s m') := by
  obtain ⟨T, fs, sound⟩ := reach.between
  obtain ⟨t, here, -⟩ := sound.live (p := p) (by rw [running]; decide)
  obtain ⟨r, p', m', ran, -, replaced⟩ := sysExec_sound sound here running namei upath uargv
  refine ⟨r, p', m', ran, fun failed => ?_⟩
  cases replaced with
  | failed sound' kept => exact ⟨rfl, asBefore sound sound' kept⟩
  | done => cases failed

/-- A segment that is not whole in the file ends the call. -/
theorem build_short {ip : Inode} {image : Option Exec.Image} {trapframe table sz : Nat}
    {m₁ m₂ : Mem} (made : procPagetable l.kend l.tramp trapframe m = .ok (some table, m₁))
    (short : Exec.segLoop l.kend table ip (Exec.Elfhdr.read ip.bytes).phnum
      ((Exec.Elfhdr.read ip.bytes).phoff % 2 ^ 32) 0 m₁ = .ok (false, sz, m₂))
    (built : Exec.build l trapframe ip argv m = .ok (image, m')) : image = none := by
  rw [Exec.build] at built
  split at built
  · cases built
    rfl
  · dsimp only at built
    split at built
    · cases built
      rfl
    · obtain ⟨done, ran, built⟩ := bind_eq_ok.mp built
      rw [made] at ran
      cases ran
      obtain ⟨ends, ran, built⟩ := bind_eq_ok.mp built
      rw [short] at ran
      cases ran
      obtain ⟨m₃, -, built⟩ := bind_eq_ok.mp built
      cases built
      rfl

/-- The result of the call is that of the image. -/
theorem build_of_exec {ip : Inode} {path : List UInt8} {r : Option Nat} {proc proc' : Proc}
    (ran : Exec.exec l path (some ip) argv proc m = .ok (r, proc', m')) :
    ∃ image m₁, Exec.build l proc.trapframe ip argv m = .ok (image, m₁) ∧
      r = image.map Exec.Image.argc := by
  rw [Exec.exec] at ran
  obtain ⟨⟨image, m₁⟩, built, ran⟩ := bind_eq_ok.mp ran
  refine ⟨image, m₁, built, ?_⟩
  cases image with
  | none =>
    cases ran
    rfl
  | some image =>
    obtain ⟨m₂, -, ran⟩ := bind_eq_ok.mp ran
    cases ran
    rfl

/-- The result of the system call is that of `exec`, when the path and the arguments are read. -/
theorem exec_of_sysExec {namei : List UInt8 → Option Inode} {upath uargv : Nat} {path : Bytes}
    {args : List Arg} {pages : List Nat} {m₁ : Mem} {r : Option Nat} {proc proc' : Proc}
    (name : Exec.fetchstr proc upath Exec.maxpath m (fun _ => 0) = .ok (some path))
    (read : Exec.argvLoop proc uargv maxarg 0 [] [] m = .ok (some args, pages, m₁))
    (ran : Exec.sysExec l namei upath uargv proc m = .ok (r, proc', m')) :
    ∃ m₂, Exec.exec l (Exec.stringIn path (Exec.maxpath - 1))
      (namei (Exec.stringIn path (Exec.maxpath - 1))) args proc m₁ = .ok (r, proc', m₂) := by
  rw [Exec.sysExec] at ran
  obtain ⟨found, same, ran⟩ := bind_eq_ok.mp ran
  rw [name] at same
  cases same
  obtain ⟨loop, same, ran⟩ := bind_eq_ok.mp ran
  rw [read] at same
  cases same
  obtain ⟨⟨r₁, proc₁, m₂⟩, called, ran⟩ := bind_eq_ok.mp ran
  obtain ⟨m₃, -, ran⟩ := bind_eq_ok.mp ran
  cases ran
  exact ⟨m₂, called⟩

/-- A program of one segment, which ends before the segment does. -/
def truncated : Inode where
  size := 120
  bytes := [(4, 0, Exec.elfMagic), (8, 32, 64), (2, 56, 1), (4, 64, 1), (8, 72, 120), (8, 96, 16),
    (8, 104, pgsize)].foldl (fun b (n, off, x) => Bytes.store b n off x) fun _ => 0

/-- The segment is found too short when the argument, the page table and a page are there. -/
theorem truncated_short : ∃ path args pages m table m₁ m₂,
    Exec.fetchstr (firstState.proc firstSlot) 0x24 Exec.maxpath firstState.mem (fun _ => 0) =
      .ok (some path) ∧
    Exec.argvLoop (firstState.proc firstSlot) 0x2b maxarg 0 [] [] firstState.mem =
      .ok (some args, pages, m) ∧
    procPagetable onePageKernel.kend onePageKernel.tramp (firstState.proc firstSlot).trapframe m =
      .ok (some table, m₁) ∧
    Exec.segLoop onePageKernel.kend table truncated (Exec.Elfhdr.read truncated.bytes).phnum
      ((Exec.Elfhdr.read truncated.bytes).phoff % 2 ^ 32) 0 m₁ = .ok (false, pgsize, m₂) ∧
    args.length = 1 := by
  have evaluated : (do
      let path ← Exec.fetchstr (firstState.proc firstSlot) 0x24 Exec.maxpath firstState.mem
        fun _ => 0
      let read ← Exec.argvLoop (firstState.proc firstSlot) 0x2b maxarg 0 [] [] firstState.mem
      let made ← procPagetable onePageKernel.kend onePageKernel.tramp
        (firstState.proc firstSlot).trapframe read.2.2
      let ends ← Exec.segLoop onePageKernel.kend (made.1.getD 0) truncated
        (Exec.Elfhdr.read truncated.bytes).phnum
        ((Exec.Elfhdr.read truncated.bytes).phoff % 2 ^ 32) 0 made.2
      pure (path.isSome, read.1.map List.length, made.1.isSome, ends.1, ends.2.1) :
        Except Uvm.Panic (Bool × Option Nat × Bool × Bool × Nat)).toOption =
      some (true, some 1, true, false, pgsize) := by
    decide +kernel
  obtain ⟨path, name, ran⟩ := bind_eq_ok.mp (eq_ok_of_toOption evaluated)
  obtain ⟨⟨args, pages, m⟩, read, ran⟩ := bind_eq_ok.mp ran
  obtain ⟨⟨table, m₁⟩, made, ran⟩ := bind_eq_ok.mp ran
  obtain ⟨⟨loaded, sz, m₂⟩, short, ran⟩ := bind_eq_ok.mp ran
  have same := Except.ok.inj ran
  simp only [Prod.mk.injEq, Option.isSome_iff_exists, Option.map_eq_some_iff] at same
  obtain ⟨⟨path, rfl⟩, ⟨args, rfl, one⟩, ⟨table, rfl⟩, rfl, rfl⟩ := same
  exact ⟨path, args, pages, m, table, m₁, m₂, name, read, made, short, one⟩

theorem exec_all_or_nothing_truncated : ∃ p' m',
    Exec.sysExec onePageKernel (fun _ => some truncated) 0x24 0x2b (firstState.proc firstSlot)
      firstState.mem = .ok (none, p', m') ∧
    p' = firstState.proc firstSlot ∧ AsBefore onePageKernel sixteenPages firstState m' := by
  obtain ⟨r, p', m', ran, all⟩ := exec_all_or_nothing firstState_reachable firstState_running
    (fun _ => some truncated) 0x24 0x2b
  obtain ⟨path, args, pages, m, table, m₁, m₂, name, read, made, short, -⟩ := truncated_short
  obtain ⟨m₃, called⟩ := exec_of_sysExec name read ran
  obtain ⟨image, m₄, built, same⟩ := build_of_exec called
  obtain rfl : image = none := build_short made short built
  cases same
  exact ⟨p', m', ran, all rfl⟩

/-! ## Arguments -/

/-- A word that a process reads. -/
def WordAt (pagetable : Nat) (m : Mem) (va w : Nat) : Prop :=
  ∀ j < 8, loadByte pagetable (va + j) m = some (Bytes.digit w j)

/-- A string that a process reads, with its NUL. -/
def StringAt (pagetable : Nat) (m : Mem) (va : Nat) (chars : List UInt8) : Prop :=
  ∀ j ≤ chars.length, loadByte pagetable (va + j) m = some (chars.getD j 0)

/-- The arguments of a new program: their addresses are `as`, and the stack pointer is `sp`. -/
structure Arguments (p : Proc) (m : Mem) (argv : List Arg) (sp : Nat) (as : List Nat) : Prop where
  count : as.length = argv.length
  stack : m.load (p.trapframe + 48) = sp
  a1 : m.load (p.trapframe + 120) = sp
  aligned : sp % 16 = 0
  -- the last page is the stack
  page : p.sz % pgsize = 0 ∧ 2 * pgsize ≤ p.sz ∧ p.sz - pgsize ≤ sp
  word : ∀ (i a : Nat), as[i]? = some a → WordAt p.pagetable m (sp + 8 * i) a
  last : WordAt p.pagetable m (sp + 8 * argv.length) 0
  string : ∀ (i : Nat) (arg : Arg) (a : Nat), argv[i]? = some arg → as[i]? = some a →
    StringAt p.pagetable m a arg.chars ∧ sp + 8 * (argv.length + 1) ≤ a ∧
      a + (arg.chars.length + 1) ≤ p.sz
  apart : ∀ (i j : Nat) (arg : Arg) (a b : Nat), i < j → argv[j]? = some arg → as[i]? = some a → as[j]? = some b →
    b + (arg.chars.length + 1) ≤ a
  guard : ∀ va, p.sz - 2 * pgsize ≤ va → va < p.sz - pgsize → loadByte p.pagetable va m = none

theorem Placed.get (placed : Placed M m argv as low high) {i : Nat} {arg : Arg} {a : Nat}
    (there : argv[i]? = some arg) (here : as[i]? = some a) :
    low ≤ a ∧ a + (arg.chars.length + 1) ≤ high ∧ Reads m M a (arg.chars.length + 1) arg.bytes := by
  induction argv generalizing as high i with
  | nil =>
    rw [List.getElem?_nil] at there
    cases there
  | cons first argv ih =>
    cases as with
    | nil => exact placed.elim
    | cons b as =>
      obtain ⟨below, reads, rest⟩ := placed
      have le := (rest.keep fun _ _ _ _ reads => reads).1
      cases i with
      | zero =>
        rw [List.getElem?_cons_zero] at there here
        cases there
        cases here
        exact ⟨le, below, reads⟩
      | succ i =>
        rw [List.getElem?_cons_succ] at there here
        obtain ⟨low, top, reads'⟩ := ih rest there here
        exact ⟨low, by omega, reads'⟩

/-- Each string is below those before it. -/
theorem Placed.apart (placed : Placed M m argv as low high) {i j : Nat} {arg : Arg} {a b : Nat}
    (lt : i < j) (there : argv[j]? = some arg) (first : as[i]? = some a) (second : as[j]? = some b) :
    b + (arg.chars.length + 1) ≤ a := by
  induction argv generalizing as high i j with
  | nil =>
    rw [List.getElem?_nil] at there
    cases there
  | cons c argv ih =>
    cases as with
    | nil => exact placed.elim
    | cons d as =>
      obtain ⟨-, -, rest⟩ := placed
      cases j with
      | zero => exact absurd lt (Nat.not_lt_zero i)
      | succ j =>
        rw [List.getElem?_cons_succ] at there second
        cases i with
        | zero =>
          rw [List.getElem?_cons_zero] at first
          cases first
          exact (Placed.get rest there second).2.1
        | succ i =>
          rw [List.getElem?_cons_succ] at first
          exact ih rest (by omega) there first second

/-- What is in the stack page is read by the process. -/
theorem reads_load (rep : Represents l.kend m root M fs) (stack : StackPage M k)
    (reads : Reads m M va len bytes) (above : k * pgsize ≤ va) (below : va + len ≤ (k + 1) * pgsize)
    {i : Nat} (lt : i < len) : loadByte (root * pgsize) (va + i) m = some (bytes i) := by
  obtain ⟨a, isSome, eq⟩ := reads i lt
  obtain ⟨g, mapped⟩ := stack
  have number : (va + i) / pgsize = k := Nat.div_eq_of_lt_le (by omega) (by omega)
  have bits : (pteR ||| pteU ||| pteW ||| pteV).testBit 4 = true ∧
      (pteR ||| pteU ||| pteW ||| pteV).testBit 1 = true := by decide
  have place : place M (va + i) 1 = some a := by
    rw [Copy.address, number, mapped, Option.bind_some, if_pos bits.1] at isSome
    rw [place, number, mapped, Option.bind_some, if_pos bits]
    exact isSome
  rw [loadByte, translate_eq rep (by decide), place, Option.map_some, eq]

theorem wordBytes_get {words : List Nat} {i w : Nat} (there : words[i]? = some w) {j : Nat}
    (lt : j < 8) : wordBytes words (8 * i + j) = Bytes.digit w j := by
  have index : (8 * i + j) / 8 = i := by omega
  have byte : (8 * i + j) % 8 = j := by omega
  rw [wordBytes, index, byte, List.getD_eq_getElem?_getD, there, Option.getD_some]

/-- What is left of a program that has been loaded is what the process finds. -/
theorem Loaded.arguments {frame root other sp argc entry : Nat} {N : Map} {proc : Proc}
    {path : List UInt8}
    (loaded : Exec.Loaded l.kend tramp frame m m' root M fs gs other N k sp argc entry argv)
    (trapframe : proc.trapframe = frame * pgsize) :
    argc = argv.length ∧ need argv ≤ pgsize ∧ ∃ as, Arguments { proc with
      name := path, pagetable := other * pgsize, sz := (k + 1) * pgsize } m' argv sp as := by
  have registers := loaded.registers
  have stack := loaded.stack
  have stacked := loaded.stacked
  have rep := loaded.space.space.rep
  have pos := loaded.pos
  have small := loaded.space.space.small
  have base : (k + 1) * pgsize - pgsize = k * pgsize := by
    rw [Nat.succ_mul, Nat.add_sub_cancel]
  have bounds : 2 * pgsize ≤ (k + 1) * pgsize ∧ (k + 1) * pgsize % 16 = 0 ∧
      (k + 1) * pgsize % pgsize = 0 := by
    unfold pgsize
    omega
  obtain ⟨two, aligned, whole⟩ := bounds
  have round : need argv % 16 = 0 := Nat.mul_mod_left _ _
  have room := Exec.le_roundUp16 (Exec.used 0 argv + (argv.length + 1) * 8)
  rw [← need] at room
  have inStack := @reads_load l k other gs m' N
  rw [← base] at inStack
  generalize (k + 1) * pgsize = t at *
  cases stacked with
  | @done as bottom fits placed below array =>
    have length := placed.length
    have last : (as ++ [0])[argv.length]? = some 0 := by
      rw [← length, List.getElem?_concat_length]
    have read : ∀ i w, (as ++ [0])[i]? = some w → i ≤ argv.length →
        WordAt (other * pgsize) m' (t - need argv + 8 * i) w := by
      intro i w there le j lt
      rw [Nat.add_assoc, inStack rep stack array (by omega) (by omega) (by omega),
        wordBytes_get there lt]
    refine ⟨rfl, fits, as, ⟨length, ?_, ?_, ?_, ⟨whole, two, ?_⟩, ?_, read _ _ last le_rfl, ?_, ?_, ?_⟩⟩
    · rw [trapframe]
      exact registers.sp
    · rw [trapframe]
      exact registers.a1
    · omega
    · exact Nat.sub_le_sub_left fits t
    · intro i a there
      have lt := (List.getElem?_eq_some_iff.mp there).1
      exact read i a ((List.getElem?_append_left lt).trans there) (by omega)
    · intro i arg a there here
      obtain ⟨above, high, reads⟩ := Placed.get placed there here
      refine ⟨fun j le => ?_, by omega, high⟩
      exact inStack rep stack reads (by omega) (by omega) (by omega)
    · exact fun i j arg a b lt there first second => Placed.apart placed lt there first second
    · intro va above high
      obtain ⟨page, mapped, closed⟩ := loaded.guard
      have number : va / pgsize = k - 1 := by
        apply Nat.div_eq_of_lt_le
        · dsimp only at above
          rw [Nat.sub_mul]
          omega
        · dsimp only at high
          rw [Nat.sub_add_cancel pos]
          omega
      dsimp only
      rw [loadByte, translate_eq rep (by decide), place, number, mapped, Option.bind_some,
        if_neg fun both => by rw [closed] at both; exact Bool.false_ne_true both.1]
      rfl

/-- The kernel takes pages for itself and writes to them. -/
inductive KernelTakes : Mem → Mem → Prop
  | none {m : Mem} : KernelTakes m m
  | more {m m₁ m₂ m₃ : Mem} {f : Nat} (before : KernelTakes m m₁)
      (found : kalloc m₁ = some (f * pgsize, m₂)) (same : m₃.freelist = m₂.freelist)
      (keeps : m₂.bytes.Keeps pgsize (· ≠ f) m₃.bytes) : KernelTakes m m₃

theorem KernelTakes.sound (takes : KernelTakes s.mem m) (sound : Sound l tramp boot s [] T fs) :
    ∃ taken gs, Sound l tramp (Taken boot taken) (s.setMem m) [] T gs := by
  generalize start : s.mem = m₀ at takes
  induction takes with
  | none =>
    subst start
    exact ⟨[], fs, sound.sameBoot taken_nil⟩
  | @more m₁ m₂ m₃ f before found same keeps ih =>
    obtain ⟨taken, gs, sound₁⟩ := ih
    cases gs with
    | nil =>
      have empty := kalloc_nil sound₁.spaces.free
      rw [State.setMem_mem, found] at empty
      cases empty
    | cons g gs =>
      obtain ⟨m', found', new, sound₂, -⟩ := sound₁.takePage
      rw [State.setMem_mem, found] at found'
      obtain ⟨eq, rfl⟩ := Prod.mk.inj (Option.some.inj found')
      obtain rfl := cancel_page eq
      obtain ⟨sound₃, -⟩ := @Sound.writePage l tramp f gs m₃ ((s.setMem m₁).setMem m₂) T
        (Taken boot (taken ++ [f])) [] sound₂ (.inr (List.mem_append.mpr (.inr List.mem_cons_self)))
        same keeps
      exact ⟨taken ++ [f], gs, sound₃⟩

theorem exec_hands_arguments (reach : Reachable l m₀ s) (running : (s.proc p).state = .RUNNABLE)
    (takes : KernelTakes s.mem m) (few : argv.length < maxarg) (path : List UInt8)
    (ip : Option Inode) :
    ∃ r p' m', Exec.exec l path ip argv (s.proc p) m = .ok (r, p', m') ∧
      (∀ argc, r = some argc →
        argc = argv.length ∧ ∃ sp as, Arguments p' m' argv sp as) ∧
      (pgsize < need argv → r = none) := by
  obtain ⟨T, fs, start⟩ := reach.between
  obtain ⟨taken, gs, sound⟩ := takes.sound start
  obtain ⟨t, here, holds⟩ := sound.live (p := p) (by rw [State.setMem_proc, running]; decide)
  obtain ⟨r, p', m', ran, executed, -⟩ := exec_sound sound here running path ip few
  refine ⟨r, p', m', ran, ?_⟩
  cases executed with
  | failed => exact ⟨fun argc no => (by cases no), fun _ => rfl⟩
  | done loaded =>
    obtain ⟨count, fits, as, arguments⟩ := Loaded.arguments loaded holds.trapframe
    refine ⟨fun argc eq => ?_, fun tooLong => absurd fits (Nat.not_le.mpr tooLong)⟩
    cases eq
    exact ⟨count, _, as, arguments⟩

/-- A program without segments. -/
def emptyProgram : Inode where
  size := 64
  bytes := Bytes.store (fun _ => 0) 4 0 Exec.elfMagic

theorem init_clean : (0 : UInt8) ∉ ([105, 110, 105, 116] : List UInt8) := by
  decide

/-- `"init"` -/
def initArg : Arg where
  chars := [105, 110, 105, 116]
  clean := init_clean
  short := Nat.le_of_ble_eq_true rfl

theorem init_starts : (Exec.build onePageKernel (firstState.proc firstSlot).trapframe emptyProgram
    [initArg] firstState.mem).toOption.map (fun done => done.1.map Exec.Image.argc) =
      some (some 1) := by
  decide +kernel

theorem exec_hands_arguments_first : ∃ p' m', Exec.exec onePageKernel [] (some emptyProgram)
      [initArg] (firstState.proc firstSlot) firstState.mem = .ok (some 1, p', m') ∧
    ∃ sp as, Arguments p' m' [initArg] sp as := by
  have few : [initArg].length < maxarg := by decide
  obtain ⟨r, p', m', ran, all, -⟩ := exec_hands_arguments firstState_reachable
    firstState_running .none few [] (some emptyProgram)
  obtain ⟨image, m₁, built, same⟩ := build_of_exec ran
  have starts := init_starts
  rw [built] at starts
  obtain rfl : r = some 1 := same.trans (Option.some.inj starts)
  exact ⟨p', m', ran, (all 1 rfl).2⟩

end Sistemas.Xv6.Calls.System
