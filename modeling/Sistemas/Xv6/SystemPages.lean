import Sistemas.Xv6.Kvm
import Sistemas.Xv6.SystemSpaces

/-! # Who owns a page

In every state that is reached, each page of the memory is owned exactly once, and so no page is
lost: what has been taken for processes and pipes that are gone is free again.
-/

namespace Sistemas.Xv6.Calls.System

open Vm
open Uvm

variable {l : Layout} {tramp f : Nat} {fs gs : List Nat} {m m' m₀ : Mem} {s s' : State}
  {T T' : Fin nproc → Option Table} {t : Table} {p q : Fin nproc} {boot : Nat → Prop}
  {loose : List (Fin Sysfile.nfile)}

/-! ## Owners -/

inductive Owner
  | free
  -- taken before the first process: the page table of the kernel, its stacks, the virtio rings
  | boot
  | pipe
  | frame (p : Fin nproc)
  -- the page of the page table that is at this place in it
  | table (p : Fin nproc) (depth index : Nat)
  | user (p : Fin nproc) (v : Nat)

/-- Which pages are owned; `m` is the memory before the first process. -/
def Owns (l : Layout) (m : Mem) (s : State) : Owner → Nat → Prop
  | .free, f => ∃ fs, FreeList l.kend s.mem fs ∧ f ∈ fs
  | .boot, f => BootPage l m f
  | .pipe, f => IsPipe s f
  | .frame p, f => (s.proc p).state ≠ .UNUSED ∧ (s.proc p).trapframe = f * pgsize
  | .table p d n, f => (s.proc p).state ≠ .UNUSED ∧ d ≤ 2 ∧
      tableAt s.mem ((s.proc p).pagetable / pgsize) d n = some f
  | .user p v, f => (s.proc p).state ≠ .UNUSED ∧ v < trapframe / pgsize ∧
      ∃ page, mapping s p v = some page ∧ page.1 = f

/-- All pages of a process. -/
def processPages (l : Layout) (m : Mem) (s : State) (p : Fin nproc) : Set Nat :=
  {f | Owns l m s (.frame p) f ∨ (∃ d n, Owns l m s (.table p d n) f) ∨
    ∃ v, Owns l m s (.user p v) f}

def Owner.process : Owner → Option (Fin nproc)
  | .free | .boot | .pipe => none
  | .frame p | .table p _ _ | .user p _ => some p

/-! ## The pages of one process -/

theorem owns_frame (sound : Sound l tramp boot s loose T fs) (here : T p = some t) :
    Owns l m s (.frame p) f ↔ (s.proc p).state ≠ .UNUSED ∧ f = t.frame := by
  rw [Owns, (sound.holds here).trapframe]
  exact and_congr_right fun _ => ⟨fun eq => (cancel_page eq).symm, fun eq => by rw [eq]⟩

theorem owns_table (sound : Sound l tramp boot s loose T fs) (here : T p = some t) {d n : Nat} :
    Owns l m s (.table p d n) f ↔
      (s.proc p).state ≠ .UNUSED ∧ d ≤ 2 ∧ tableAt s.mem t.root d n = some f := by
  rw [Owns, (sound.holds here).pagetable, Nat.mul_div_cancel _ (by decide)]

theorem owns_user (sound : Sound l tramp boot s loose T fs) (here : T p = some t) {v : Nat} :
    Owns l m s (.user p v) f ↔ (s.proc p).state ≠ .UNUSED ∧ v < userPages ∧
      ∃ page, t.map v = some page ∧ page.1 = f := by
  rw [Owns, mapping_eq sound here]
  rfl

theorem processPages_iff (sound : Sound l tramp boot s loose T fs) :
    f ∈ processPages l m s p ↔ Pages s.mem (T p) f := by
  by_cases live : (s.proc p).state = .UNUSED
  · have none := (sound.unused live).1
    rw [none]
    refine iff_of_false ?_ id
    rintro (own | ⟨d, n, own⟩ | ⟨v, own⟩) <;> exact own.1 live
  · obtain ⟨t, here, -⟩ := sound.live live
    rw [processPages, Set.mem_ofPred_eq, here, Pages, Table.Pages, Held, IsTable]
    simp only [owns_frame sound here, owns_table sound here, owns_user sound here, live, ne_eq,
      not_false_iff, true_and, exists_and_left]

/-- The kernel and the processes share the pages. -/
theorem owner_of (sound : Sound l (trampPage l) (BootPage l m) s loose T fs) {o : Owner}
    (own : Owns l m s o f) : (o = .free ∧ f ∈ fs) ∨
      (o ≠ .free ∧ owns s.mem T (Rest (BootPage l m) s) o.process f) := by
  have mine : ∀ p, f ∈ processPages l m s p →
      owns s.mem T (Rest (BootPage l m) s) (some p) f := fun p own => (processPages_iff sound).mp own
  cases o with
  | free =>
    obtain ⟨gs, free, mem⟩ := own
    have pos : 0 < l.kend := (Nat.succ_pos _).trans_le l.low
    obtain rfl := sound.spaces.free.unique pos free
    exact .inl ⟨rfl, mem⟩
  | boot => exact .inr ⟨fun no => (by cases no), .inl own⟩
  | pipe => exact .inr ⟨fun no => (by cases no), .inr own⟩
  | frame p => exact .inr ⟨fun no => (by cases no), mine p (.inl own)⟩
  | table p d n => exact .inr ⟨fun no => (by cases no), mine p (.inr (.inl ⟨d, n, own⟩))⟩
  | user p v => exact .inr ⟨fun no => (by cases no), mine p (.inr (.inr ⟨v, own⟩))⟩

theorem Owner.process_cases {o : Owner} (process : o.process = some p) :
    o = .frame p ∨ (∃ d n, o = .table p d n) ∨ ∃ v, o = .user p v := by
  cases o with
  | free => cases process
  | boot => cases process
  | pipe => cases process
  | frame q =>
    cases process
    exact .inl rfl
  | table q d n =>
    cases process
    exact .inr (.inl ⟨d, n, rfl⟩)
  | user q v =>
    cases process
    exact .inr (.inr ⟨v, rfl⟩)

theorem frame_not_table (sound : Sound l tramp boot s loose T fs) (here : T p = some t)
    (own : Owns l m s (.frame p) f) {d n : Nat} : ¬ Owns l m s (.table p d n) f := by
  intro own'
  have eq := ((owns_frame sound here).mp own).2
  obtain ⟨-, le, there⟩ := (owns_table sound here).mp own'
  exact Exec.ProcSpace.not_held_frame (sound.ok here) (.inl (eq ▸ isTable le there))

theorem frame_not_user (sound : Sound l tramp boot s loose T fs) (here : T p = some t)
    (own : Owns l m s (.frame p) f) {v : Nat} : ¬ Owns l m s (.user p v) f := by
  intro own'
  have eq := ((owns_frame sound here).mp own).2
  obtain ⟨-, low, page, mapped, same⟩ := (owns_user sound here).mp own'
  exact Exec.ProcSpace.not_held_frame (sound.ok here) (eq ▸ same ▸ Held.of_map low mapped)

theorem table_not_user (sound : Sound l tramp boot s loose T fs) (here : T p = some t)
    {d n v : Nat} (own : Owns l m s (.table p d n) f) : ¬ Owns l m s (.user p v) f := by
  intro own'
  obtain ⟨-, le, there⟩ := (owns_table sound here).mp own
  obtain ⟨-, -, page, mapped, rfl⟩ := (owns_user sound here).mp own'
  exact ((sound.ok here).space.rep.page v page mapped).2.2 (isTable le there)

/-- A page is at one place of a process. -/
theorem once_process (sound : Sound l tramp boot s loose T fs) {o o' : Owner}
    (process : o.process = some p) (process' : o'.process = some p) (own : Owns l m s o f)
    (own' : Owns l m s o' f) : o = o' := by
  have live : (s.proc p).state ≠ .UNUSED := by
    rcases Owner.process_cases process with rfl | ⟨d, n, rfl⟩ | ⟨v, rfl⟩ <;> exact own.1
  obtain ⟨t, here, -⟩ := sound.live live
  have space := (sound.ok here).space
  rcases Owner.process_cases process with rfl | ⟨d, n, rfl⟩ | ⟨v, rfl⟩
  · rcases Owner.process_cases process' with rfl | ⟨d', n', rfl⟩ | ⟨v', rfl⟩
    · rfl
    · exact absurd own' (frame_not_table sound here own)
    · exact absurd own' (frame_not_user sound here own)
  · rcases Owner.process_cases process' with rfl | ⟨d', n', rfl⟩ | ⟨v', rfl⟩
    · exact absurd own (frame_not_table sound here own')
    · obtain ⟨-, le, there⟩ := (owns_table sound here).mp own
      obtain ⟨-, le', there'⟩ := (owns_table sound here).mp own'
      obtain ⟨rfl, rfl⟩ := space.rep.tree.apart d n d' n' f le le' there there'
      rfl
    · exact absurd own' (table_not_user sound here own)
  · rcases Owner.process_cases process' with rfl | ⟨d', n', rfl⟩ | ⟨v', rfl⟩
    · exact absurd own (frame_not_user sound here own')
    · exact absurd own (table_not_user sound here own')
    · obtain ⟨-, low, page, mapped, rfl⟩ := (owns_user sound here).mp own
      obtain ⟨-, -, page', mapped', same⟩ := (owns_user sound here).mp own'
      have lt := (space.dense v low).mp ⟨page, mapped⟩
      rw [space.once v v' page page' lt mapped mapped' same.symm]

/-! ## All pages -/

theorem owned_once (sound : Sound l (trampPage l) (BootPage l m) s loose T fs)
    (ram : InRam l.kend f) : ∃! o, Owns l m s o f := by
  have part := sound.spaces.part
  have some : ∃ o, Owns l m s o f := by
    cases (part.all_iff f).mp ram with
    | inl free => exact ⟨.free, fs, sound.spaces.free, free⟩
    | inr owned =>
      obtain ⟨o, mine⟩ := owned
      cases o with
      | none =>
        cases mine with
        | inl boot => exact ⟨.boot, boot⟩
        | inr pipe => exact ⟨.pipe, pipe⟩
      | some p =>
        have own : f ∈ processPages l m s p := (processPages_iff sound).mpr mine
        rcases own with own | ⟨d, n, own⟩ | ⟨v, own⟩
        · exact ⟨_, own⟩
        · exact ⟨_, own⟩
        · exact ⟨_, own⟩
  obtain ⟨o, own⟩ := some
  refine ⟨o, own, fun o' own' => ?_⟩
  cases owner_of sound own' with
  | inl free' =>
    cases owner_of sound own with
    | inl free => rw [free'.1, free.1]
    | inr mine => exact absurd free'.2 (part.apart _ f mine.2)
  | inr mine' =>
    cases owner_of sound own with
    | inl free => exact absurd free.2 (part.apart _ f mine'.2)
    | inr mine =>
      have same := part.once _ _ f mine'.2 mine.2
      cases process : o.process with
      | some p => exact once_process sound (same.trans process) process own' own
      | none =>
        rw [process] at same
        cases o' with
        | free => exact absurd rfl mine'.1
        | boot =>
          cases o with
          | free => exact absurd rfl mine.1
          | boot => rfl
          | pipe => exact absurd own (sound.apart f own')
          | frame p => cases process
          | table p d n => cases process
          | user p v => cases process
        | pipe =>
          cases o with
          | free => exact absurd rfl mine.1
          | boot => exact absurd own' (sound.apart f own)
          | pipe => rfl
          | frame p => cases process
          | table p d n => cases process
          | user p v => cases process
        | frame p => cases same
        | table p d n => cases same
        | user p v => cases same

theorem ram_finite (l : Layout) : {f | InRam l.kend f}.Finite :=
  (Set.finite_lt_nat (2 ^ 20)).subset fun _ ram => ram.lt

theorem free_eq (sound : Sound l tramp boot s loose T fs) :
    {f | Owns l m s .free f} = {f | f ∈ fs} := by
  have pos : 0 < l.kend := (Nat.succ_pos _).trans_le l.low
  ext f
  constructor
  · rintro ⟨gs, free, mem⟩
    rwa [sound.spaces.free.unique pos free]
  · exact fun mem => ⟨fs, sound.spaces.free, mem⟩

/-- The number of free pages and of those that are not. -/
theorem pages_count (sound : Sound l (trampPage l) (BootPage l m) s loose T fs) :
    {f | InRam l.kend f}.ncard = {f | Owns l m s .free f}.ncard + {f | BootPage l m f}.ncard +
      {f | IsPipe s f}.ncard + ∑ p, (processPages l m s p).ncard := by
  have total := sound.spaces.part.ncard (ram_finite l)
  have kernel : {f | owns s.mem T (Rest (BootPage l m) s) none f} =
      {f | BootPage l m f} ∪ {f | IsPipe s f} := rfl
  have disjoint : Disjoint {f | BootPage l m f} {f | IsPipe s f} :=
    Set.disjoint_left.mpr sound.apart
  have pipes : {f | IsPipe s f}.Finite := (ram_finite l).subset fun f pipe => sound.pipe_ram pipe
  have booted : {f | BootPage l m f}.Finite := (ram_finite l).subset fun f booted => booted.1
  have processes : ∀ p, {f | owns s.mem T (Rest (BootPage l m) s) (some p) f} =
      processPages l m s p := fun p => Set.ext fun f => (processPages_iff sound).symm
  rw [Fintype.sum_option, kernel, Set.ncard_union_eq disjoint booted pipes] at total
  simp only [processes] at total
  rw [total, free_eq sound]
  omega

theorem processPages_unused (unused : (s.proc p).state = .UNUSED) : processPages l m s p = ∅ := by
  rw [Set.eq_empty_iff_forall_notMem]
  rintro f (own | ⟨d, n, own⟩ | ⟨v, own⟩) <;> exact own.1 unused

/-! ## The pages of a process in a run -/

theorem SamePages.processPages (same : SamePages T T' s s' p)
    (sound : Sound l tramp boot s loose T fs) (sound' : Sound l tramp boot s' loose T' gs) :
    processPages l m s' p = processPages l m s p := by
  ext f
  rw [processPages_iff sound, processPages_iff sound', same.table, same.pages]

/-- A call changes the pages of a process only if it is a call of this process for another memory,
or the process is gone afterwards. -/
theorem step_processPages {move : Fin nproc × Call} (between : Between l tramp boot s)
    (stepped : step l s move = some s') (live : (s.proc p).state ≠ .UNUSED)
    (stays : (s'.proc p).state ≠ .UNUSED) (own : move.1 = p → move.2.resizes = false) :
    processPages l m s' p = processPages l m s p := by
  obtain ⟨T, fs, sound⟩ := between
  obtain ⟨-, T', gs, outcome, same⟩ := step_sound sound stepped
  by_cases mine : move.1 = p
  · exact SamePages.processPages (mine ▸ same (own mine)) sound outcome.sound
  · cases outcome.others p (Ne.symm mine) live with
    | inl untouched =>
      exact SamePages.processPages ⟨untouched.table, untouched.kept.pages⟩ sound outcome.sound
    | inr reaped => exact absurd reaped.2 stays

/-- No process of `s₀` is reaped, or calls `exec` or `sbrk`. -/
def Stays (l : Layout) (s₀ s : State) (move : Fin nproc × Call) : Prop :=
  ∀ p, (s₀.proc p).state ≠ .UNUSED → (move.1 = p → move.2.resizes = false) ∧
    (step l s move).map (fun s' => (s'.proc p).state) ≠ some .UNUSED

instance (l : Layout) (s₀ s : State) (move : Fin nproc × Call) : Decidable (Stays l s₀ s move) := by
  unfold Stays
  infer_instance

theorem run_processPages {moves : List (Fin nproc × Call)} (between : Between l tramp boot s)
    (run : Transition.exec (step l) s moves = some s')
    (stay : Transition.Along (step l) (Stays l s) s moves) (live : (s.proc p).state ≠ .UNUSED) :
    processPages l m s' p = processPages l m s p := by
  have kept : ∀ s₁ move s₂, (Between l tramp boot s₁ ∧ (s₁.proc p).state ≠ .UNUSED ∧
      processPages l m s₁ p = processPages l m s p) → Stays l s s₁ move →
      step l s₁ move = some s₂ → Between l tramp boot s₂ ∧ (s₂.proc p).state ≠ .UNUSED ∧
        processPages l m s₂ p = processPages l m s p := by
    rintro s₁ move s₂ ⟨between₁, live₁, same⟩ stays stepped
    obtain ⟨own, still⟩ := stays p live
    have live₂ : (s₂.proc p).state ≠ .UNUSED := by
      intro unused
      rw [stepped, Option.map_some, unused] at still
      exact still rfl
    exact ⟨step_between between₁ stepped, live₂,
      (step_processPages between₁ stepped live₁ live₂ own).trans same⟩
  exact (Transition.exec_invariant_along kept ⟨between, live, rfl⟩ run stay).2.2

/-- The processes and pipes of `s` are there in `s'`, and no others: what was taken since is given
back. -/
structure Restored (l : Layout) (s : State) (moves : List (Fin nproc × Call)) (s' : State) :
    Prop where
  stay : Transition.Along (step l) (Stays l s) s moves
  gone : ∀ p, (s.proc p).state = .UNUSED → (s'.proc p).state = .UNUSED
  pipes : {f | IsPipe s' f}.ncard = {f | IsPipe s f}.ncard

theorem Restored.processPages {moves : List (Fin nproc × Call)} (between : Between l tramp boot s)
    (run : Transition.exec (step l) s moves = some s') (restored : Restored l s moves s')
    (p : Fin nproc) : processPages l m s' p = processPages l m s p := by
  by_cases unused : (s.proc p).state = .UNUSED
  · rw [processPages_unused unused, processPages_unused (restored.gone p unused)]
  · exact run_processPages between run restored.stay unused

/-- The pages of all processes and pipes. -/
noncomputable def takenPages (l : Layout) (m : Mem) (s : State) : Nat :=
  {f | IsPipe s f}.ncard + ∑ p, (processPages l m s p).ncard

/-- The pages that the kernel took: its page table, its stacks and the rings of the disk. -/
theorem boot_owned {etext : Nat} {b : Bytes} {k : KernelMem} (linked : Linked l.kend etext l.tramp)
    (booted : bootMemory l.kend etext l.tramp b = .ok k) :
    (∀ o f, BootOwns k o f → Owns l k.mem s .boot f) ∧
      ∀ f, Owns l k.mem s .boot f → ∃! o, BootOwns k o f := by
  have low : 0 < l.kend := (Nat.succ_pos _).trans_le l.low
  have ends := bootMemory_owned low linked b
  rw [booted] at ends
  obtain ⟨⟨-, -, fs, free, part⟩, -⟩ := ends
  constructor
  · exact fun o f own => (booted_iff free f).mpr ⟨part.of_owner own, part.apart o f own⟩
  · intro f own
    obtain ⟨ram, new⟩ := (booted_iff free f).mp own
    obtain ⟨o, mine⟩ := ((part.all_iff f).mp ram).resolve_left new
    exact ⟨o, mine, fun o' mine' => part.once o' o f mine' mine⟩

/-- The kernel boots and makes the first process. -/
theorem reachable_booted {etext : Nat} (linked : Linked l.kend etext l.tramp)
    (space : l.kend + 512 * pgsize ≤ phystop) (b : Bytes) :
    ∃ k s, bootMemory l.kend etext l.tramp b = .ok k ∧ Reachable l k.mem s := by
  have low : 0 < l.kend := (Nat.succ_pos _).trans_le l.low
  have ends := bootMemory_owned low linked b
  cases booted : bootMemory l.kend etext l.tramp b with
  | error e =>
    rw [booted] at ends
    exact absurd space ends
  | ok k =>
    rw [booted] at ends
    obtain ⟨fs, free, many⟩ := ends.2 space
    obtain ⟨r, init, stuck, -⟩ := userinit_spec free ⟨0, ninode_pos⟩
    cases r with
    | none =>
      have := stuck rfl
      omega
    | some s => exact ⟨k, s, rfl, fs, _, s, [], free, init, rfl⟩

/-- The free pages and those of all processes and pipes are as many as before. -/
theorem free_taken (reach : Reachable l m s) {moves : List (Fin nproc × Call)}
    (run : Transition.exec (step l) s moves = some s') :
    {f | Owns l m s' .free f}.ncard + takenPages l m s' =
      {f | Owns l m s .free f}.ncard + takenPages l m s := by
  obtain ⟨T, fs, sound⟩ := reach.between
  obtain ⟨T', gs, sound'⟩ := (reach.run run).between
  have before := pages_count sound
  have after := pages_count sound'
  rw [takenPages, takenPages]
  omega

theorem pages_owned_once (reach : Reachable l m s) :
    (∀ f, InRam l.kend f → ∃! o, Owns l m s o f) ∧
    (∀ etext b k, Linked l.kend etext l.tramp → bootMemory l.kend etext l.tramp b = .ok k →
      k.mem = m → (∀ o f, BootOwns k o f → Owns l m s .boot f) ∧
        ∀ f, Owns l m s .boot f → ∃! o, BootOwns k o f) ∧
    ∀ moves s', Transition.exec (step l) s moves = some s' →
      {f | Owns l m s' .free f}.ncard + takenPages l m s' =
        {f | Owns l m s .free f}.ncard + takenPages l m s ∧
      (Restored l s moves s' → (∀ p, processPages l m s' p = processPages l m s p) ∧
        {f | Owns l m s' .free f}.ncard = {f | Owns l m s .free f}.ncard) := by
  have between := reach.between
  obtain ⟨T, fs, sound⟩ := reach.between
  refine ⟨fun f ram => owned_once sound ram, ?_, fun moves s' run => ?_⟩
  · rintro etext b k linked booted rfl
    exact boot_owned linked booted
  have total := free_taken reach run
  refine ⟨total, fun restored => ?_⟩
  have same : ∀ p, processPages l m s' p = processPages l m s p :=
    Restored.processPages between run restored
  refine ⟨same, ?_⟩
  rw [takenPages, takenPages, restored.pipes] at total
  simp only [same] at total
  exact Nat.add_right_cancel total

theorem no_pipes (closed : ∀ i, (s.file i).type ≠ .pipe) : {f | IsPipe s f} = ∅ := by
  rw [Set.eq_empty_iff_forall_notMem]
  rintro f ⟨w, i, here⟩
  exact closed i here.1

/-- The first process makes a pipe and closes both ends. -/
def pipeAndClose : List (Fin nproc × Call) :=
  [(firstSlot, .pipe 0), (firstSlot, .close 0), (firstSlot, .close 1)]

theorem pages_owned_once_first : (∃! o, Owns onePageKernel sixteenPages firstState o 0x80001) ∧
    ∃ s', Transition.exec (step onePageKernel) firstState pipeAndClose = some s' ∧
      {f | Owns onePageKernel sixteenPages s' .free f}.ncard =
        {f | Owns onePageKernel sixteenPages firstState .free f}.ncard := by
  obtain ⟨once, -, runs⟩ := pages_owned_once firstState_reachable
  refine ⟨once _ (by unfold InRam; decide), ?_⟩
  have done : (Transition.exec (step onePageKernel) firstState pipeAndClose).isSome := by
    decide +kernel
  obtain ⟨s', run⟩ := Option.isSome_iff_exists.mp done
  have ends : ∀ s ∈ Transition.exec (step onePageKernel) firstState pipeAndClose,
      (∀ p, (firstState.proc p).state = .UNUSED → (s.proc p).state = .UNUSED) ∧
      ∀ i, (s.file i).type ≠ .pipe := by
    decide +kernel
  have closed : ∀ i, (firstState.file i).type ≠ .pipe := by decide +kernel
  obtain ⟨gone, closed'⟩ := ends s' run
  have stay : Transition.Along (step onePageKernel) (Stays onePageKernel firstState) firstState
      pipeAndClose := by
    decide +kernel
  have restored : Restored onePageKernel firstState pipeAndClose s' :=
    ⟨stay, gone, by rw [no_pipes closed, no_pipes closed']⟩
  exact ⟨s', run, ((runs _ s' run).2 restored).2⟩

/-! ## What a process can reach -/

theorem access_confined (reach : Reachable l m s) (live : (s.proc p).state ≠ .UNUSED)
    {va perm a : Nat} (small : perm < 10)
    (there : translate (s.proc p).pagetable va perm s.mem = some a) :
    va < pgRoundUp (s.proc p).sz ∧ Owns l m s (.user p (va / pgsize)) (a / pgsize) ∧
      ∀ o, Owns l m s o (a / pgsize) → o = .user p (va / pgsize) := by
  obtain ⟨T, fs, sound⟩ := reach.between
  obtain ⟨t, here, -⟩ := sound.live live
  have ok := sound.ok here
  rw [sound_translate sound here small] at there
  obtain ⟨page, mapped, isUser, rfl⟩ := place_page there
  have low := Exec.ProcSpace.user_low ok mapped isUser
  have frame : (page.1 * pgsize + va % pgsize) / pgsize = page.1 :=
    Bytes.page_of (Nat.mod_lt va (by decide))
  have own : Owns l m s (.user p (va / pgsize)) page.1 :=
    (owns_user sound here).mpr ⟨live, low.trans_le ok.space.le, page, mapped, rfl⟩
  rw [frame]
  refine ⟨?_, own, fun o other => ?_⟩
  · rw [← Sound.size_eq sound here, Nat.div_lt_iff_lt_mul (by decide)] at low
    exact low.trans_le (Nat.div_mul_le_self _ _)
  · exact (owned_once sound (ok.space.ram _ _ low mapped)).unique other own

theorem access_confined_first : ∃ a,
    translate (firstState.proc firstSlot).pagetable 0 1 firstState.mem = some a ∧
    Owns onePageKernel sixteenPages firstState (.user firstSlot 0) (a / pgsize) := by
  have reads : (translate (firstState.proc firstSlot).pagetable 0 1 firstState.mem).isSome := by
    decide +kernel
  obtain ⟨a, there⟩ := Option.isSome_iff_exists.mp reads
  have live : (firstState.proc firstSlot).state ≠ .UNUSED := by
    rw [firstState_running]
    decide
  have small : 1 < 10 := by decide
  exact ⟨a, there, (access_confined firstState_reachable live small there).2.1⟩

/-! ## Open files -/

/-- The file table and the pages of the pipes fit together. -/
structure OpenFiles (l : Layout) (s : State) : Prop where
  count : ∀ i, (s.file i).ref = holders s i
  closed : ∀ i, (s.file i).ref = 0 → (s.file i).type = .none
  page : ∀ g w i, IsEnd s g w i → InRam l.kend g ∧ ∀ fs, FreeList l.kend s.mem fs → g ∉ fs
  once : ∀ g w i j, IsEnd s g w i → IsEnd s g w j → i = j
  -- `readopen` and `writeopen`
  flag : ∀ g w, IsPipe s g →
    (loadInt s.mem (g * pgsize + openFlag w) = 0 ↔ ∀ i, ¬ IsEnd s g w i)

theorem open_files_counted (reach : Reachable l m s) : OpenFiles l s := by
  obtain ⟨T, fs, sound⟩ := reach.between
  refine ⟨fun i => ?_, sound.files.closed, fun g w i isEnd => ?_, sound.files.once,
    sound.files.flag⟩
  · have count := sound.files.count i
    rw [List.count_nil, Nat.add_zero] at count
    exact count
  · have pipe : IsPipe s g := ⟨w, i, isEnd⟩
    refine ⟨sound.pipe_ram pipe, fun gs free => ?_⟩
    have pos : 0 < l.kend := (Nat.succ_pos _).trans_le l.low
    rw [free.unique pos sound.spaces.free]
    exact sound.pipe_not_free pipe

/-- The first process calls `pipe(0)`. -/
theorem open_files_counted_piped : ∃ (s : State) (g : Nat) (i j : Fin Sysfile.nfile),
    Transition.exec (step onePageKernel) firstState [(firstSlot, .pipe 0)] = some s ∧
    (s.file i).ref = 1 ∧ (s.file j).ref = 1 ∧ IsEnd s g false i ∧ IsEnd s g true j ∧
    OpenFiles onePageKernel s := by
  have done : (Transition.exec (step onePageKernel) firstState [(firstSlot, .pipe 0)]).isSome := by
    decide +kernel
  obtain ⟨s, run⟩ := Option.isSome_iff_exists.mp done
  have ends : ∀ s ∈ Transition.exec (step onePageKernel) firstState [(firstSlot, .pipe 0)],
      (s.file ⟨0, by decide⟩).ref = 1 ∧ (s.file ⟨1, by decide⟩).ref = 1 ∧
      IsEnd s 0x80008 false ⟨0, by decide⟩ ∧ IsEnd s 0x80008 true ⟨1, by decide⟩ := by
    unfold IsEnd
    decide +kernel
  obtain ⟨ref, ref', reads, writes⟩ := ends s run
  exact ⟨s, _, _, _, run, ref, ref', reads, writes,
    open_files_counted (Reachable.run firstState_reachable run)⟩

end Sistemas.Xv6.Calls.System
