import Sistemas.Xv6.SysfileLinks

/-! # What a call gives up

A call takes links from an inode, and gives up references to it: the current directory of the
process, and open files whose last descriptors it closes.  `Gone` says, before the call, that it
takes the last of both from a directory.
-/

namespace Sistemas.Xv6.Sysfile

variable {s s' s₁ : State} {p : Fin nproc} {q : Proc} {i ip : Nat} {r : Int}

/-- What a path names, if the walk does not panic. -/
def found : Except Panic (Option (Nat × Name)) → Option (Nat × Name)
  | .ok r => r
  | .error _ => none

/-! ## Links and references -/

/-- The links that the call takes from inode `i`: the removed entry is one, and the `..` of a
    removed directory. -/
def unlinked (inode : Nat → Inode) (cwd : Nat) (call : Call) (i : Nat) : Nat :=
  match call with
  | .unlink path =>
    match found (parentOf inode cwd path) with
    | none => 0
    | some (dp, name) =>
      if name = dot ∨ name = dotdot then 0
      else
        match lookup (inode dp).entries name with
        | none => 0
        | some (_, ip) =>
          if (inode ip).type = .dir ∧ isdirempty (inode ip).entries = false then 0
          else (if i = ip then 1 else 0) + if i = dp ∧ (inode ip).type = .dir then 1 else 0
  | _ => 0

/-- The process gets another current directory, or none. -/
def leaves (inode : Nat → Inode) (q : Proc) : Call → Bool
  | .chdir path =>
    match found (targetOf inode q.cwd path) with
    | none => false
    | some (ip, _) => (inode ip).type = .dir ∧ ip ≠ q.cwd
  | .exit => true
  | _ => false

/-- The descriptors of file `f` that the call closes. -/
def closes (q : Proc) (call : Call) (f : Fin nfile) : Nat :=
  match call with
  | .close fd => [fd].countP fun fd => q.ofile fd = some f
  | .exit => (List.finRange nofile).countP fun fd => q.ofile fd = some f
  | _ => 0

/-- The open files that are inode `i` and lose all their descriptors. -/
def lastFiles (s : State) (closed : Fin nfile → Nat) (i : Nat) : Nat :=
  ∑ f, if 0 < (s.file f).ref ∧ (s.file f).ref ≤ closed f ∧ (s.file f).ip = i then 1 else 0

/-- The references to inode `i` that the call gives up. -/
def drops (s : State) (q : Proc) (call : Call) (i : Nat) : Nat :=
  (if leaves s.inode q call = true ∧ q.cwd = i then 1 else 0) + lastFiles s (closes q call) i

/-- Directory `i` is left without links and without references. -/
def Gone (s : State) (q : Proc) (call : Call) (i : Nat) : Prop :=
  (s.inode i).type = .dir ∧ (s.inode i).nlink = unlinked s.inode q.cwd call i ∧
    s.ref i ≤ drops s q call i

instance (s : State) (q : Proc) (call : Call) (i : Nat) : Decidable (Gone s q call i) :=
  inferInstanceAs (Decidable (_ ∧ _))

/-! ## Links -/

/-- Only `unlink` takes links. -/
theorem unlinked_of_ne {inode : Nat → Inode} {cwd : Nat} {call : Call}
    (other : ∀ path, call ≠ .unlink path) (i : Nat) : unlinked inode cwd call i = 0 := by
  cases call with
  | unlink path => exact absurd rfl (other path)
  | _ => rfl

theorem unlinked_eq {inode : Nat → Inode} {cwd dp off : Nat} {path : List UInt8} {name : Name}
    (parent : parentOf inode cwd path = .ok (some (dp, name)))
    (proper : name ≠ dot ∧ name ≠ dotdot) (looked : lookup (inode dp).entries name = some (off, ip))
    (empty : (inode ip).type = .dir → isdirempty (inode ip).entries = true) (i : Nat) :
    unlinked inode cwd (.unlink path) i =
      (if i = ip then 1 else 0) + if i = dp ∧ (inode ip).type = .dir then 1 else 0 := by
  have full : ¬ ((inode ip).type = .dir ∧ isdirempty (inode ip).entries = false) := by
    rintro ⟨isDir, full⟩
    rw [empty isDir] at full
    cases full
  simp only [unlinked, parent, found, looked, if_neg (not_or.mpr proper), if_neg full]

/-! ## References -/

theorem holders_congr (file : s'.file = s.file) (proc : s'.proc = s.proc) :
    holders s' = holders s := by
  funext i
  simp only [holders, file, proc]

theorem iput_file (ip : Nat) (s : State) : (iput ip s).file = s.file := by
  simp only [iput]
  split <;> rfl

theorem iput_proc (ip : Nat) (s : State) : (iput ip s).proc = s.proc := by
  simp only [iput]
  split <;> rfl

/-- What a file is left with when so many of its descriptors are closed. -/
structure FilesClosed (s s' : State) (closed : Fin nfile → Nat) : Prop where
  proc : s'.proc = s.proc
  ip : ∀ f, (s'.file f).ip = (s.file f).ip
  ref : ∀ f, (s'.file f).ref + closed f = (s.file f).ref

theorem fileclose_closed {f : Fin nfile} (ran : fileclose f s = .ok s') :
    FilesClosed s s' fun g => if f = g then 1 else 0 := by
  have closed : ∀ file' : File, file'.ip = (s.file f).ip → file'.ref + 1 = (s.file f).ref →
      FilesClosed s (s.setFile f file') fun g => if f = g then 1 else 0 := by
    intro file' ip ref
    have there : (s.setFile f file').file f = file' := Function.update_self ..
    have elsewhere : ∀ g, f ≠ g → (s.setFile f file').file g = s.file g := fun g other =>
      Function.update_of_ne other.symm ..
    refine ⟨rfl, fun g => ?_, fun g => ?_⟩
    · by_cases here : f = g
      · rw [← here, there]
        exact ip
      · rw [elsewhere g here]
    · by_cases here : f = g
      · rw [← here, there, if_pos rfl]
        exact ref
      · rw [elsewhere g here, if_neg here, Nat.add_zero]
  simp only [fileclose] at ran
  split at ran
  · cases ran
  · split at ran
    · cases ran
      exact closed _ rfl (Nat.sub_add_cancel (by omega))
    · cases ran
      obtain ⟨proc, ip, ref⟩ := closed { s.file f with ref := 0 } rfl (by dsimp only; omega)
      refine ⟨(iput_proc ..).trans proc, ?_, ?_⟩
      · rw [iput_file]
        exact ip
      · rw [iput_file]
        exact ref

theorem closeFiles_closed {fds : List (Fin nofile)} (ran : eachFile fileclose q fds s = .ok s') :
    FilesClosed s s' fun f => fds.countP fun fd => q.ofile fd = some f := by
  induction fds generalizing s with
  | nil =>
    cases ran
    exact ⟨rfl, fun _ => rfl, fun _ => rfl⟩
  | cons fd rest ih =>
    rw [eachFile] at ran
    split at ran
    · next none =>
      obtain ⟨proc, ip, ref⟩ := ih ran
      refine ⟨proc, ip, fun f => ?_⟩
      rw [List.countP_cons, none]
      simpa using ref f
    · next file here =>
      obtain ⟨s₁, closed, ran⟩ := bind_eq_ok.mp ran
      have first := fileclose_closed closed
      obtain ⟨proc, ip, ref⟩ := ih ran
      refine ⟨proc.trans first.proc, fun f => (ip f).trans (first.ip f), fun f => ?_⟩
      rw [← first.ref f, ← ref f, List.countP_cons, here, Nat.add_assoc]
      simp only [Option.some.injEq, decide_eq_true_eq]

/-- The files that are left, and those that are not. -/
theorem FilesClosed.files {closed : Fin nfile → Nat} (all : FilesClosed s s' closed) (i : Nat) :
    (∑ f, fileHolds (s'.file f) i) + lastFiles s closed i = ∑ f, fileHolds (s.file f) i := by
  rw [lastFiles, ← Finset.sum_add_distrib]
  refine Finset.sum_congr rfl fun f _ => ?_
  have ref := all.ref f
  rw [fileHolds, fileHolds, all.ip f]
  by_cases here : (s.file f).ip = i
  · simp only [here, and_true]
    split <;> split <;> split <;> omega
  · simp only [here, and_false, if_false]

theorem FilesClosed.holders {closed : Fin nfile → Nat} (all : FilesClosed s s' closed) (i : Nat) :
    Sysfile.holders s' i + lastFiles s closed i = Sysfile.holders s i := by
  rw [Sysfile.holders, Sysfile.holders, all.proc, Nat.add_assoc, all.files i]

/-! ## The calls -/

/-- So many references are given up, and others may be taken. -/
structure Released (s s' : State) (lost : Nat → Nat) : Prop where
  le : ∀ i, holders s i ≤ holders s' i + lost i
  eq : ∀ i, 0 < lost i → holders s' i + lost i = holders s i

theorem Released.of_le {lost : Nat → Nat} (le : ∀ i, holders s i ≤ holders s' i)
    (none : ∀ i, lost i = 0) : Released s s' lost where
  le i := (le i).trans (Nat.le_add_right _ _)
  eq i some := by
    rw [none i] at some
    cases some

theorem Released.of_eq {lost : Nat → Nat} (eq : ∀ i, holders s' i + lost i = holders s i) :
    Released s s' lost where
  le i := (eq i).ge
  eq i _ := eq i

/-- The current directory is `d'` instead of `d`. -/
theorem Released.move {lost : Nat → Nat} {d d' : Nat}
    (moved : ∀ i, holders s' i + (if d = i then 1 else 0) = holders s i + if d' = i then 1 else 0)
    (once : ∀ i, lost i = if d' ≠ d ∧ d = i then 1 else 0) : Released s s' lost := by
  have elsewhere : ∀ i, d ≠ i → holders s i ≤ holders s' i := by
    intro i other
    have here := moved i
    rw [if_neg other] at here
    omega
  by_cases same : d' = d
  · have none : ∀ i, lost i = 0 := fun i => (once i).trans (if_neg fun both => both.1 same)
    refine .of_le (fun i => ?_) none
    have here := moved i
    rw [same] at here
    exact (Nat.add_right_cancel here).ge
  · constructor
    · intro i
      by_cases here : d = i
      · have lost_one : lost i = 1 := (once i).trans (if_pos ⟨same, here⟩)
        have holds := moved i
        rw [if_pos here] at holds
        omega
      · exact (elsewhere i here).trans (Nat.le_add_right _ _)
    · intro i some
      rw [once i] at some ⊢
      have here : d = i := by
        by_contra other
        rw [if_neg fun both => other both.2] at some
        cases some
      have other : d' ≠ i := here ▸ same
      have holds := moved i
      rw [if_pos here, if_neg other] at holds
      rw [if_pos ⟨same, here⟩]
      exact holds.trans (Nat.add_zero _)

/-- A call that closes no file gives up none. -/
theorem drops_of_closes {call : Call} (none : closes q call = fun _ => 0) (i : Nat) :
    drops s q call i = if leaves s.inode q call = true ∧ q.cwd = i then 1 else 0 := by
  rw [drops, none, lastFiles, Finset.sum_eq_zero, Nat.add_zero]
  intro f _
  rw [if_neg]
  omega

theorem drops_zero {call : Call} (stays : leaves s.inode q call = false)
    (none : closes q call = fun _ => 0) (i : Nat) : drops s q call i = 0 := by
  rw [drops_of_closes none, stays]
  exact if_neg fun both => Bool.false_ne_true both.1

theorem drops_of_creates {call : Call} {x : List UInt8 × FileType × (Nat → Bool)}
    (asked : creates call = some x) (i : Nat) : drops s q call i = 0 := by
  cases call with
  | «open» | mkdir | mknod => exact drops_zero rfl rfl i
  | _ => cases asked

theorem sysOpen_holders {path : List UInt8} {omode : Nat} {space : Nat → Bool}
    (table : Table s [] []) (proc : s.proc p = some q)
    (ran : sysOpen p q path omode space s = .ok (r, s')) (i : Nat) :
    holders s i ≤ holders s' i := by
  rw [sysOpen] at ran
  obtain ⟨⟨found, s₁⟩, opened, ran⟩ := bind_eq_ok.mp ran
  have spec := @openInode_spec s q omode path space table (holders_cwd proc)
  rw [opened, ends_ok] at spec
  obtain ⟨kept, -⟩ := spec
  have proc₁ : s₁.proc p = some q := (congrFun kept.proc p).trans proc
  have put : ∀ ip, holders (iput ip s₁) i = holders s i := by
    intro ip
    rw [holders_congr (iput_file ..) (iput_proc ..), kept.holders]
  cases found with
  | none =>
    cases ran
    rw [kept.holders]
  | some ip =>
    dsimp only at ran
    split at ran
    · cases ran
      exact (put ip).ge
    · split at ran
      · next f fd unused _ =>
        cases ran
        have files := holders_setFile s₁ f { ref := 1, ip := ip } i
        have procs := holders_setProc (s₁.setFile f { ref := 1, ip := ip }) p
          (some { q with ofile := Function.update q.ofile fd (some f) }) i
        have same : procHolds ((s₁.setFile f { ref := 1, ip := ip }).proc p) i =
            procHolds (some { q with ofile := Function.update q.ofile fd (some f) }) i := by
          simp only [State.setFile, proc₁, procHolds]
        have free : (s₁.file f).ref = 0 := by simpa using List.find?_some unused
        have none : fileHolds (s₁.file f) i = 0 := by simp [fileHolds, free]
        rw [kept.holders] at files
        omega
      · cases ran
        exact (put ip).ge

theorem sysMake_holders {path : List UInt8} {type : FileType} {major : Int} {space : Nat → Bool}
    {call : Call} (asked : creates call = some (path, type, space)) (typed : type ≠ .free)
    (table : Table s [] []) (proc : s.proc p = some q)
    (ran : sysMake q path type major space s = .ok (r, s')) : holders s' = holders s := by
  rw [sysMake] at ran
  obtain ⟨⟨made, s₁⟩, created, ran⟩ := bind_eq_ok.mp ran
  have spec := create_spec major space asked typed table (holders_cwd proc)
  rw [created, ends_ok] at spec
  obtain ⟨kept, -⟩ := spec
  cases made with
  | none =>
    cases ran
    exact kept.holders
  | some ip =>
    cases ran
    rw [holders_congr (iput_file ..) (iput_proc ..), kept.holders]

theorem ilock_ran (ran : ilock ip s = .ok s') :
    s'.file = s.file ∧ s'.proc = s.proc ∧ s'.inode = s.inode := by
  rw [ilock] at ran
  split at ran
  · cases ran
  · split at ran
    · cases ran
      exact ⟨rfl, rfl, rfl⟩
    · split at ran
      · cases ran
      · cases ran
        exact ⟨rfl, rfl, rfl⟩

theorem sysChdir_released {path : List UInt8} (table : Table s [] []) (proc : s.proc p = some q)
    (ran : sysChdir p q path s = .ok (r, s')) : Released s s' (drops s q (.chdir path)) := by
  have lost := @drops_of_closes s q (.chdir path) rfl
  rw [sysChdir] at ran
  obtain ⟨⟨named, s₁⟩, ran₁, ran⟩ := bind_eq_ok.mp ran
  obtain ⟨⟨walked, s₀⟩, walk, same⟩ := bind_eq_ok.mp ran₁
  cases same
  have spec : Ends (fun _ => True) (namex false q.cwd path s) _ :=
    namex_spec false path table (holders_cwd proc) fun _ => trivial
  rw [walk, ends_ok] at spec
  obtain ⟨target, same, -⟩ := spec
  change targetOf s.inode q.cwd path = .ok walked at target
  cases walked with
  | none =>
    cases ran
    have stays : leaves s.inode q (.chdir path) = false := by simp only [leaves, target, found]
    refine .of_le (fun i => ?_) (drops_zero stays rfl)
    rw [same.holders]
  | some pair =>
    obtain ⟨ip, name⟩ := pair
    obtain ⟨s₂, locked, ran⟩ := bind_eq_ok.mp ran
    obtain ⟨file, proc₂, inode⟩ := ilock_ran locked
    dsimp only at ran
    rw [inode, same.inode] at ran
    split at ran
    · next notDir =>
      cases ran
      have stays : leaves s.inode q (.chdir path) = false := by
        simp [leaves, target, found, notDir]
      refine .of_le (fun i => ?_) (drops_zero stays rfl)
      rw [holders_congr (iput_file ..) (iput_proc ..), holders_congr file proc₂, same.holders]
    · next isDir =>
      cases ran
      have moves : leaves s.inode q (.chdir path) = true ↔ ip ≠ q.cwd := by
        simp [leaves, target, found, not_not.mp isDir]
      refine @Released.move s _ _ q.cwd ip (fun i => ?_) fun i => ?_
      · have procs := holders_setProc (iput q.cwd s₂) p (some { q with cwd := ip }) i
        rw [iput_proc, proc₂, same.proc, proc,
          holders_congr (iput_file ..) (iput_proc ..), holders_congr file proc₂,
          same.holders] at procs
        exact procs
      · rw [lost i]
        simp only [moves]

theorem sysClose_released {fd : Fin nofile} (proc : s.proc p = some q)
    (ran : sysClose p q fd s = .ok (r, s')) : Released s s' (drops s q (.close fd)) := by
  have lost : ∀ i, drops s q (.close fd) i = lastFiles s (closes q (.close fd)) i := by
    intro i
    simp [drops, leaves]
  rw [sysClose] at ran
  split at ran
  · next none =>
    cases ran
    have closed : closes q (.close fd) = fun _ => 0 := by
      funext f
      simp [closes, none]
    exact .of_le (fun i => Nat.le_refl _) (drops_zero rfl closed)
  · next f here =>
    obtain ⟨s₁, closed, ran⟩ := bind_eq_ok.mp ran
    cases ran
    have all := fileclose_closed closed
    have one : closes q (.close fd) = fun g => if f = g then 1 else 0 := by
      funext g
      simp [closes, here]
    refine .of_eq fun i => ?_
    have procs := holders_setProc s p (some { q with ofile := Function.update q.ofile fd none }) i
    rw [proc] at procs
    have before : holders (s.setProc p (some { q with ofile := Function.update q.ofile fd none })) i =
        holders s i := Nat.add_right_cancel procs
    rw [lost i, one, ← before]
    exact all.holders i

theorem dupFiles_holders {fds : List (Fin nofile)} (ran : eachFile filedup q fds s = .ok s') :
    holders s' = holders s ∧ s'.proc = s.proc := by
  induction fds generalizing s with
  | nil =>
    cases ran
    exact ⟨rfl, rfl⟩
  | cons fd rest ih =>
    rw [eachFile] at ran
    split at ran
    · exact ih ran
    · next file _ =>
      obtain ⟨s₁, duped, ran⟩ := bind_eq_ok.mp ran
      simp only [filedup] at duped
      split at duped
      · cases duped
      · next used =>
        cases duped
        obtain ⟨same, proc⟩ := ih ran
        refine ⟨same.trans (funext fun i => ?_), proc⟩
        have files := holders_setFile s file { s.file file with ref := (s.file file).ref + 1 } i
        have before : 0 < (s.file file).ref := by omega
        have after : 0 < (s.file file).ref + 1 := by omega
        simp only [fileHolds, before, after, true_and] at files
        exact Nat.add_right_cancel files

theorem fork_holders {child : Fin nproc} (ran : fork q child s = .ok (r, s')) (i : Nat) :
    holders s i ≤ holders s' i := by
  rw [fork] at ran
  split at ran
  · cases ran
    exact Nat.le_refl _
  · next unused =>
    obtain ⟨s₁, duped, ran⟩ := bind_eq_ok.mp ran
    cases ran
    obtain ⟨same, proc⟩ := dupFiles_holders duped
    have empty : (idup q.cwd s₁).proc child = none := by
      show s₁.proc child = none
      rw [proc]
      simpa using unused
    have procs := holders_setProc (idup q.cwd s₁) child (some q) i
    rw [empty, show holders (idup q.cwd s₁) = holders s₁ from holders_congr rfl rfl, same] at procs
    simp only [procHolds] at procs
    omega

theorem exit_released (proc : s.proc p = some q) (ran : exit p q s = .ok (r, s')) :
    Released s s' (drops s q .exit) := by
  rw [exit] at ran
  obtain ⟨s₁, closed, ran⟩ := bind_eq_ok.mp ran
  cases ran
  have all := closeFiles_closed closed
  refine .of_eq fun i => ?_
  have procs := holders_setProc (iput q.cwd s₁) p none i
  rw [iput_proc, all.proc, proc, holders_congr (iput_file ..) (iput_proc ..)] at procs
  have lost : drops s q .exit i = (if q.cwd = i then 1 else 0) +
      lastFiles s (fun f => (List.finRange nofile).countP fun fd => q.ofile fd = some f) i := by
    simp only [drops, leaves, true_and]
    rfl
  simp only [procHolds] at procs
  rw [lost, ← Nat.add_assoc, ← all.holders i, procs, Nat.add_zero]

/-- What a completed call gives up. -/
theorem perform_released {call : Call} (table : Table s [] []) (proc : s.proc p = some q)
    (short : ∀ i, (s.inode i).type ≠ .free → (s.inode i).nlink.bmod (2 ^ 16) = (s.inode i).nlink)
    (shaped : ∀ d, Shaped d (s.inode d)) (ran : perform s p q call = .ok (r, s')) :
    Released s s' (drops s q call) := by
  have held := holders_cwd proc
  cases call with
  | «open» path omode space =>
    exact .of_le (sysOpen_holders table proc ran) (drops_zero rfl rfl)
  | mkdir path space =>
    have same := @sysMake_holders s s' p q r path .dir 0 space (.mkdir path space) rfl nofun table proc ran
    exact .of_le (fun i => (congrFun same i).ge) (drops_zero rfl rfl)
  | mknod path major space =>
    have same := @sysMake_holders s s' p q r path .device major space (.mknod path major space) rfl nofun table
      proc ran
    exact .of_le (fun i => (congrFun same i).ge) (drops_zero rfl rfl)
  | link old path space =>
    have spec := sysLink_spec old path space table held short
    change sysLink q old path space s = .ok (r, s') at ran
    rw [ran, ends_ok] at spec
    exact .of_le (fun i => (congrFun spec.1.holders i).ge) (drops_zero rfl rfl)
  | unlink path =>
    have spec := sysUnlink_spec path table held shaped
    change sysUnlink q path s = .ok (r, s') at ran
    rw [ran, ends_ok] at spec
    exact .of_le (fun i => (congrFun spec.1.holders i).ge) (drops_zero rfl rfl)
  | chdir path => exact sysChdir_released table proc ran
  | close fd => exact sysClose_released proc ran
  | fork child => exact .of_le (fork_holders ran) (drops_zero rfl rfl)
  | exit => exact exit_released proc ran

end Sistemas.Xv6.Sysfile
