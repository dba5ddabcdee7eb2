import Sistemas.Xv6.CallsUser
import Sistemas.Xv6.ExecCall
import Sistemas.Xv6.VmCopyin

/-! # `sys_exec`

The kernel takes a page for each argument and gives all of them back, whether or not the program
could be loaded.
-/

namespace Sistemas.Xv6.Calls

open Vm (Mem pgsize kalloc kfree InRam FreeList kernbase)
open Vm.Copy (copyin copyin_spec copyinstr copyinstr_spec)
open Uvm
open Exec (Arg Inode Executed argvLoop fetchaddr fetchstr freeArgs sysExec maxarg maxpath stringIn)
open Sysfile (nfile nofile)

variable {l : Layout} {tramp f g n : Nat} {fs gs hs taken : List Nat} {m m' m₁ : Mem}
  {s s' s₁ : State} {T : Fin nproc → Option Table} {t t' : Table} {p q : Fin nproc}
  {boot boot' : Nat → Prop} {loose : List (Fin nfile)}

/-! ## Pages that the kernel takes for itself -/

/-- The kernel has taken pages. -/
def Taken (boot : Nat → Prop) (taken : List Nat) (g : Nat) : Prop := boot g ∨ g ∈ taken

theorem or_move {a b c d : Prop} : (a ∨ b) ∨ c ∨ d ↔ b ∨ (c ∨ a) ∨ d := by
  tauto

/-- The memory of the kernel changes, but not that of the pipes. -/
theorem Sound.stepBoot (sound : Sound l tramp boot s loose T fs)
    (step : Step l.kend s.mem m' fs gs (Rest boot s) (Rest boot' s))
    (pipes : s.mem.bytes.Keeps pgsize (IsPipe s) m'.bytes)
    (apart : ∀ g, boot' g → ¬ IsPipe s g) :
    Sound l tramp boot' (s.setMem m') loose T gs ∧ ∀ q, Kept s.mem m' (T q) := by
  refine ⟨⟨sound.trampEq, sound.spaces.stepRest step, sound.slot,
    sound.files.congr rfl (fun _ => rfl) pipes, apart⟩, fun q => ?_⟩
  exact sound.spaces.kept (o := none) step fun no => by cases no

theorem Sound.takePage (sound : Sound l tramp (Taken boot taken) s loose T (f :: fs)) :
    ∃ m₁, kalloc s.mem = some (f * pgsize, m₁) ∧ ¬ Taken boot taken f ∧
      Sound l tramp (Taken boot (taken ++ [f])) (s.setMem m₁) loose T fs ∧
      ∀ q, Kept s.mem m₁ (T q) := by
  have pos : 0 < l.kend := (Nat.succ_pos _).trans_le sound.linked
  obtain ⟨m₁, found, free, keeps⟩ := Vm.kalloc_cons pos sound.spaces.free
  have notRest : ¬ Rest (Taken boot taken) s f := fun rest =>
    sound.spaces.part.apart none f rest List.mem_cons_self
  have loose : f ∉ fs := (List.nodup_cons.mp sound.spaces.free.nodup).1
  have all : ∀ g, Taken boot (taken ++ [f]) g ↔ Taken boot taken g ∨ g = f := by
    intro g
    rw [Taken, Taken, List.mem_append, List.mem_singleton, or_assoc]
  refine ⟨m₁, found, fun no => notRest (.inl no), sound.stepBoot ⟨free, fun g => ?_, ?_, ?_⟩ ?_ ?_⟩
  · rw [Rest, Rest, all, List.mem_cons]
    exact or_move.symm
  · intro g mine mem
    rw [Rest, all, or_right_comm] at mine
    cases mine with
    | inl rest => exact sound.spaces.part.apart none g rest (List.mem_cons_of_mem f mem)
    | inr eq => exact loose (eq ▸ mem)
  · apply keeps.mono
    rintro g out rfl
    exact out.1 List.mem_cons_self
  · apply keeps.mono
    rintro g pipe rfl
    exact notRest (.inr pipe)
  · intro g mine pipe
    cases (all g).mp mine with
    | inl old => exact sound.apart g old pipe
    | inr eq => exact notRest (.inr (eq ▸ pipe))

/-- A page that the kernel has taken is written. -/
theorem Sound.writePage (sound : Sound l tramp boot s loose T fs) (mine : boot f)
    (same : m'.freelist = s.mem.freelist) (keeps : s.mem.bytes.Keeps pgsize (· ≠ f) m'.bytes) :
    Sound l tramp boot (s.setMem m') loose T fs ∧ ∀ q, Kept s.mem m' (T q) := by
  have notFree := sound.spaces.part.apart none f (.inl mine)
  refine sound.stepBoot ⟨sound.spaces.free.write notFree same keeps, fun _ => .rfl,
    fun g rest => sound.spaces.part.apart none g rest, ?_⟩ ?_ sound.apart
  · apply keeps.mono
    rintro g out rfl
    exact out.2 (.inl mine)
  · apply keeps.mono
    rintro g pipe rfl
    exact sound.apart g mine pipe

/-- The first page that was taken is given back. -/
theorem Sound.givePage (sound : Sound l tramp (Taken boot (f :: taken)) s loose T fs)
    (notBoot : ¬ boot f) (once : f ∉ taken) :
    ∃ m₁, kfree l.kend (f * pgsize) s.mem = .ok m₁ ∧
      Sound l tramp (Taken boot taken) (s.setMem m₁) loose T (f :: fs) ∧
      ∀ q, Kept s.mem m₁ (T q) := by
  have mine : Taken boot (f :: taken) f := .inr List.mem_cons_self
  have notFree := sound.spaces.part.apart none f (.inl mine)
  have notPipe := sound.apart f mine
  obtain ⟨m₁, freed, free, keeps⟩ := Vm.kfree_ok sound.spaces.free
    (sound.spaces.part.of_owner (i := none) (.inl mine)) notFree
  have all : ∀ g, Taken boot (f :: taken) g ↔ Taken boot taken g ∨ g = f := by
    intro g
    rw [Taken, Taken, List.mem_cons, or_left_comm, or_comm]
  refine ⟨m₁, freed, sound.stepBoot ⟨free, fun g => ?_, ?_, ?_⟩ ?_ ?_⟩
  · rw [Rest, Rest, all, List.mem_cons]
    exact or_move
  · intro g rest mem
    rw [List.mem_cons] at mem
    cases mem with
    | inl eq =>
      subst eq
      exact rest.elim (fun taken => taken.elim notBoot once) notPipe
    | inr mem =>
      refine sound.spaces.part.apart none g (rest.imp_left fun taken => ?_) mem
      exact (all g).mpr (.inl taken)
  · apply keeps.mono
    rintro g out rfl
    exact out.2 (.inl mine)
  · apply keeps.mono
    rintro g pipe rfl
    exact notPipe pipe
  · exact fun g mine => sound.apart g ((all g).mpr (.inl mine))

theorem Sound.sameBoot (sound : Sound l tramp boot s loose T fs) (same : ∀ g, boot' g ↔ boot g) :
    Sound l tramp boot' s loose T fs where
  trampEq := sound.trampEq
  spaces := sound.spaces.congr fun g => or_congr_left (same g)
  slot := sound.slot
  files := sound.files
  apart g mine := sound.apart g ((same g).mp mine)

theorem taken_nil (g : Nat) : Taken boot [] g ↔ boot g :=
  or_iff_left List.not_mem_nil

/-- All pages that were taken are given back. -/
theorem freeArgs_spec (sound : Sound l tramp (Taken boot taken) s loose T fs)
    (nodup : taken.Nodup) (notBoot : ∀ f ∈ taken, ¬ boot f) :
    ∃ m' gs, freeArgs l.kend (taken.map (· * pgsize)) s.mem = .ok m' ∧
      Sound l tramp boot (s.setMem m') loose T gs ∧ ∀ q, Kept s.mem m' (T q) := by
  induction taken generalizing s fs with
  | nil =>
    exact ⟨s.mem, fs, rfl, sound.sameBoot fun g => (taken_nil g).symm, fun _ => .refl _ _⟩
  | cons f taken ih =>
    obtain ⟨once, nodup⟩ := List.nodup_cons.mp nodup
    obtain ⟨m₁, freed, sound₁, kept₁⟩ :=
      sound.givePage (notBoot f List.mem_cons_self) once
    obtain ⟨m', gs, ran, sound', kept'⟩ := ih sound₁ nodup fun g mem =>
      notBoot g (List.mem_cons_of_mem f mem)
    refine ⟨m', gs, ?_, sound', fun q => (kept₁ q).trans (kept' q)⟩
    rw [List.map_cons, freeArgs, freed]
    exact ran

/-! ## The arguments -/

theorem fetchaddr_ok (space : Vm.Copy.Space l.kend m t.root t.map fs) {proc : Proc}
    (pagetable : proc.pagetable = t.root * pgsize) (addr : Nat) :
    ∃ r, fetchaddr proc addr m = .ok r := by
  rw [fetchaddr]
  split
  · exact ⟨_, rfl⟩
  · obtain ⟨k, kernel, ran, -⟩ := copyin_spec space 0 addr 8 fun _ => 0
    rw [pagetable, ran]
    exact ⟨_, rfl⟩

theorem fetchstr_ok (space : Vm.Copy.Space l.kend m t.root t.map fs) {proc : Proc}
    (pagetable : proc.pagetable = t.root * pgsize) (addr max : Nat) (kernel : Bytes) :
    ∃ r, fetchstr proc addr max m kernel = .ok r := by
  obtain ⟨done, kernel', ran, -⟩ := copyinstr_spec space 0 addr max kernel
  rw [fetchstr, pagetable, ran]
  exact ⟨_, rfl⟩

/-- The pages that are taken for the arguments. -/
structure Fetched (l : Layout) (tramp : Nat) (boot : Nat → Prop) (T : Fin nproc → Option Table)
    (s : State) (m' : Mem) (taken gs : List Nat) : Prop where
  sound : Sound l tramp (Taken boot taken) (s.setMem m') [] T gs
  kept : ∀ q, Kept s.mem m' (T q)
  nodup : taken.Nodup
  notBoot : ∀ f ∈ taken, ¬ boot f

theorem argvLoop_spec (sound : Sound l tramp (Taken boot taken) s [] T fs) (here : T p = some t)
    (nodup : taken.Nodup) (notBoot : ∀ f ∈ taken, ¬ boot f) (uargv n i : Nat) (args : List Arg) :
    ∃ r taken' m' gs, argvLoop (s.proc p) uargv n i (taken.map (· * pgsize)) args s.mem =
        .ok (r, taken'.map (· * pgsize), m') ∧ Fetched l tramp boot T s m' taken' gs ∧
      ∀ args', r = some args' → args'.length < args.length + n := by
  induction n generalizing taken s fs i args with
  | zero =>
    exact ⟨none, taken, s.mem, fs, rfl, ⟨sound, fun _ => .refl _ _, nodup, notBoot⟩,
      fun _ no => by cases no⟩
  | succ n ih =>
    have space := Exec.ProcSpace.copy (sound.ok here)
    have pagetable := (sound.holds here).pagetable
    obtain ⟨uarg, got⟩ := fetchaddr_ok space pagetable ((uargv + 8 * i) % 2 ^ 64)
    have stop : Fetched l tramp boot T s s.mem taken fs :=
      ⟨sound, fun _ => .refl _ _, nodup, notBoot⟩
    rw [argvLoop, got]
    dsimp only [bind, Except.bind]
    cases uarg with
    | none => exact ⟨none, taken, s.mem, fs, rfl, stop, fun _ no => by cases no⟩
    | some uarg =>
      dsimp only
      by_cases zero : uarg = 0
      · rw [if_pos zero]
        refine ⟨some args, taken, s.mem, fs, rfl, stop, fun args' eq => ?_⟩
        cases eq
        omega
      · rw [if_neg zero]
        cases fs with
        | nil =>
          rw [Vm.kalloc_nil sound.spaces.free]
          exact ⟨none, taken, s.mem, [], rfl, stop, fun _ no => by cases no⟩
        | cons f fs =>
          obtain ⟨m₁, found, new, sound₁, kept₁⟩ := sound.takePage
          have nodup₁ : (taken ++ [f]).Nodup := by
            rw [← List.concat_eq_append]
            exact nodup.concat fun mem => new (.inr mem)
          have notBoot₁ : ∀ g ∈ taken ++ [f], ¬ boot g := by
            intro g mem
            cases List.mem_append.mp mem with
            | inl old => exact notBoot g old
            | inr last => exact List.mem_singleton.mp last ▸ fun isBoot => new (.inl isBoot)
          have pages : taken.map (· * pgsize) ++ [f * pgsize] = (taken ++ [f]).map (· * pgsize) := by
            rw [List.map_append, List.map_singleton]
          obtain ⟨kernel, string⟩ := fetchstr_ok (Exec.ProcSpace.copy (sound₁.ok here)) pagetable
            uarg pgsize fun i => m₁.bytes (f * pgsize + i)
          rw [State.setMem_mem] at string
          rw [found]
          dsimp only
          rw [string]
          cases kernel with
          | none =>
            refine ⟨none, taken ++ [f], m₁, fs, ?_, ⟨sound₁, kept₁, nodup₁, notBoot₁⟩,
              fun _ no => by cases no⟩
            dsimp only
            rw [pages]
          | some kernel =>
            have mine : Taken boot (taken ++ [f]) f :=
              .inr (List.mem_append.mpr (.inr List.mem_cons_self))
            obtain ⟨sound₂, kept₂⟩ := @Sound.writePage l tramp f fs
              { m₁ with bytes := m₁.bytes.splice (f * pgsize) pgsize kernel } (s.setMem m₁) T
              (Taken boot (taken ++ [f])) [] sound₁ mine rfl
              (@Bytes.keeps_splice m₁.bytes kernel pgsize f _ _ le_rfl (Nat.succ_mul f pgsize).ge)
            obtain ⟨r, taken', m', gs, ran, fetched, few⟩ :=
              ih sound₂ nodup₁ notBoot₁ (i + 1) (args ++ [Arg.ofPage kernel])
            dsimp only
            rw [pages]
            refine ⟨r, taken', m', gs, ran, ⟨fetched.sound, fun q => ?_, fetched.nodup,
              fetched.notBoot⟩, fun args' eq => ?_⟩
            · exact (kept₁ q).trans ((kept₂ q).trans (fetched.kept q))
            · have less := few args' eq
              rw [List.length_append, List.length_singleton] at less
              omega

/-! ## The program -/

theorem Undone.sound (undone : Undone l.kend s.mem m' fs gs)
    (sound : Sound l tramp boot s loose T fs) :
    Sound l tramp boot (s.setMem m') loose T gs ∧ ∀ q, Kept s.mem m' (T q) := by
  have notFree : ∀ g, Rest boot s g → g ∉ fs := fun g rest =>
    sound.spaces.part.apart none g rest
  refine sound.stepBoot ⟨undone.free, fun g => or_congr_left (undone.pages g), fun g rest mem => ?_,
    undone.keeps.mono fun g out => out.1⟩ (undone.keeps.mono fun g pipe => notFree g (.inr pipe))
    sound.apart
  exact notFree g rest ((undone.pages g).mp mem)

/-- What `exec` makes of the state. -/
inductive Replaced (l : Layout) (tramp : Nat) (boot : Nat → Prop) (T : Fin nproc → Option Table)
    (s : State) (p : Fin nproc) (m' : Mem) : Option Nat → Proc → Prop
  | failed {gs : List Nat} (sound : Sound l tramp boot (s.setMem m') [] T gs)
      (kept : ∀ q, Kept s.mem m' (T q)) : Replaced l tramp boot T s p m' none (s.proc p)
  | done {p' : Proc} {argc : Nat} {t' : Table} {gs : List Nat}
      (sound : Sound l tramp boot ((s.setMem m').setProc p p') [] (Function.update T p (some t')) gs)
      (kept : ∀ q, q ≠ p → Kept s.mem m' (T q)) (state : p'.state = (s.proc p).state) :
      Replaced l tramp boot T s p m' (some argc) p'

theorem exec_sound {argv : List Arg} (sound : Sound l tramp boot s [] T fs) (here : T p = some t)
    (live : (s.proc p).state = .RUNNABLE) (path : List UInt8) (ip : Option Inode)
    (few : argv.length < maxarg) :
    ∃ r p' m', Exec.exec l path ip argv (s.proc p) s.mem = .ok (r, p', m') ∧
      Executed l.kend tramp t.frame path (s.proc p) s.mem m' t.root t.map fs argv r p' ∧
      Replaced l tramp boot T s p m' r p' := by
  have holds := sound.holds here
  obtain ⟨r, p', m', ran, executed⟩ := Exec.exec_spec (sound.ok here) sound.trampEq
    holds.trapframe holds.pagetable holds.size path ip few
  refine ⟨r, p', m', ran, executed, ?_⟩
  cases executed with
  | failed undone =>
    obtain ⟨sound', kept⟩ := Undone.sound undone sound
    exact .failed sound' kept
  | @done other k sp argc entry N gs loaded =>
    have ok : Table.Ok l.kend tramp m' gs ⟨other, t.frame, k + 1, N⟩ := loaded.space
    have step : Step l.kend s.mem m' fs gs (Pages s.mem (T p))
        (Pages m' (some ⟨other, t.frame, k + 1, N⟩)) := by
      rw [here]
      refine ⟨loaded.space.space.free, fun f => ?_, fun f mine => ?_, loaded.keeps.mono ?_⟩
      · rw [Pages, Pages, Table.Pages, Table.Pages, or_left_comm, loaded.pages, or_left_comm]
      · cases mine with
        | inl eq => exact eq ▸ Table.Ok.frame_out ok
        | inr held => exact loaded.space.space.not_free held
      · exact fun f out => ⟨out.1, fun held => out.2 (.inr held), fun eq => out.2 (.inl eq)⟩
    refine .done (sound.step step (fun t' eq => ?_) ?_ (fun q ne => State.setProc_other _ _ ne) rfl
      ?_) (fun q ne => ?_) rfl
    · cases eq
      exact ok
    · rw [State.setProc_self]
      refine .used (by rw [live]; decide) holds.trapframe rfl (pagesOf_page (k + 1)) fun zombie => ?_
      rw [live] at zombie
      cases zombie
    · rw [State.setProc_self]
    · exact sound.spaces.kept (o := some p) step fun eq => ne (Option.some.inj eq)

theorem sysExec_spec (sound : Sound l tramp boot s [] T fs) (here : T p = some t)
    (live : (s.proc p).state = .RUNNABLE) (namei : List UInt8 → Option Inode)
    (upath uargv : Nat) :
    ∃ r p' m', sysExec l namei upath uargv (s.proc p) s.mem = .ok (r, p', m') ∧
      Replaced l tramp boot T s p m' r p' := by
  obtain ⟨path, got⟩ := fetchstr_ok (Exec.ProcSpace.copy (sound.ok here))
    (sound.holds here).pagetable upath maxpath fun _ => 0
  rw [sysExec, got]
  dsimp only [bind, Except.bind]
  cases path with
  | none => exact ⟨none, _, s.mem, rfl, .failed sound fun _ => .refl _ _⟩
  | some path =>
    obtain ⟨args, taken, m₁, gs, ran₁, fetched, few⟩ := argvLoop_spec
      (sound.sameBoot taken_nil) here List.nodup_nil (fun _ no => absurd no List.not_mem_nil)
      uargv maxarg 0 []
    rw [List.map_nil] at ran₁
    dsimp only
    rw [ran₁]
    cases args with
    | none =>
      obtain ⟨m', hs, freed, sound', kept⟩ := freeArgs_spec fetched.sound fetched.nodup
        fetched.notBoot
      rw [State.setMem_mem] at freed
      dsimp only
      rw [freed]
      exact ⟨none, _, m', rfl, .failed sound' fun q => (fetched.kept q).trans (kept q)⟩
    | some args =>
      have short := few args rfl
      rw [List.length_nil, Nat.zero_add] at short
      generalize stringIn path (maxpath - 1) = path
      obtain ⟨r, p', m₂, ran₂, -, replaced⟩ :=
        exec_sound fetched.sound here live path (namei path) short
      rw [State.setMem_mem, State.setMem_proc] at ran₂
      dsimp only
      rw [ran₂]
      cases replaced with
      | failed sound₂ kept₂ =>
        obtain ⟨m', hs, freed, sound', kept⟩ := freeArgs_spec sound₂ fetched.nodup fetched.notBoot
        rw [State.setMem_mem] at freed
        dsimp only
        rw [freed]
        exact ⟨none, _, m', rfl, .failed sound' fun q =>
          (fetched.kept q).trans ((kept₂ q).trans (kept q))⟩
      | @done p' argc t' hs sound₂ kept₂ state =>
        obtain ⟨m', hs', freed, sound', kept⟩ := freeArgs_spec sound₂ fetched.nodup fetched.notBoot
        rw [State.setProc_mem, State.setMem_mem] at freed
        dsimp only
        rw [freed]
        refine ⟨some argc, p', m', rfl, .done sound' (fun q ne => ?_) state⟩
        have last := kept q
        rw [Function.update_of_ne ne] at last
        exact (fetched.kept q).trans ((kept₂ q ne).trans last)

end Sistemas.Xv6.Calls
