import Sistemas.Xv6.Semaphore

/-! # What one step of the kernel can do

`Step` lists the moves of `Kernel.step` with their guards; `step_inv` is the
inversion every later proof starts from.  The lemmas before it read the fields of an
updated kernel.
-/

namespace Sistemas.Xv6

namespace Kernel

variable {n : Nat} {k k' : Kernel n} {p : Fin n} {s : SemId}

/-! ## Reading an updated kernel -/

section Read

variable (k : Kernel n) (p i q : Fin n) (s t : SemId) (f : Proc n → Proc n) (pc : Pc n) (v : Int)

@[simp] theorem modifyProc_sem : (k.modifyProc p f).sem = k.sem := rfl

@[simp] theorem modifyProc_lock : ((k.modifyProc p f).proc q).lock =
    if q = p then (f (k.proc q)).lock else (k.proc q).lock := apply_ite Proc.lock _ _ _

@[simp] theorem modifyProc_state : ((k.modifyProc p f).proc q).state =
    if q = p then (f (k.proc q)).state else (k.proc q).state := apply_ite Proc.state _ _ _

@[simp] theorem modifyProc_chan : ((k.modifyProc p f).proc q).chan =
    if q = p then (f (k.proc q)).chan else (k.proc q).chan := apply_ite Proc.chan _ _ _

@[simp] theorem modifyProc_killed : ((k.modifyProc p f).proc q).killed =
    if q = p then (f (k.proc q)).killed else (k.proc q).killed := apply_ite Proc.killed _ _ _

@[simp] theorem modifyProc_pid : ((k.modifyProc p f).proc q).pid =
    if q = p then (f (k.proc q)).pid else (k.proc q).pid := apply_ite Proc.pid _ _ _

@[simp] theorem modifyProc_pc : ((k.modifyProc p f).proc q).pc =
    if q = p then (f (k.proc q)).pc else (k.proc q).pc := apply_ite Proc.pc _ _ _

@[simp] theorem goto_sem : (k.goto p pc).sem = k.sem := rfl

@[simp] theorem goto_lock : ((k.goto p pc).proc q).lock = (k.proc q).lock := by simp [goto]

@[simp] theorem goto_state : ((k.goto p pc).proc q).state = (k.proc q).state := by simp [goto]

@[simp] theorem goto_chan : ((k.goto p pc).proc q).chan = (k.proc q).chan := by simp [goto]

@[simp] theorem goto_killed : ((k.goto p pc).proc q).killed = (k.proc q).killed := by simp [goto]

@[simp] theorem goto_pid : ((k.goto p pc).proc q).pid = (k.proc q).pid := by simp [goto]

@[simp] theorem goto_pc : ((k.goto p pc).proc q).pc = if q = p then pc else (k.proc q).pc := by
  simp [goto]

@[simp] theorem lockProc_sem : (k.lockProc i p).sem = k.sem := rfl

@[simp] theorem lockProc_lock : ((k.lockProc i p).proc q).lock =
    if q = i then some (.proc p) else (k.proc q).lock := by simp [lockProc]

@[simp] theorem lockProc_state : ((k.lockProc i p).proc q).state = (k.proc q).state := by
  simp [lockProc]

@[simp] theorem lockProc_chan : ((k.lockProc i p).proc q).chan = (k.proc q).chan := by
  simp [lockProc]

@[simp] theorem lockProc_killed : ((k.lockProc i p).proc q).killed = (k.proc q).killed := by
  simp [lockProc]

@[simp] theorem lockProc_pc : ((k.lockProc i p).proc q).pc = (k.proc q).pc := by simp [lockProc]

@[simp] theorem exit_sem : (k.exit p).sem = k.sem := rfl

@[simp] theorem exit_lock : ((k.exit p).proc q).lock = (k.proc q).lock := by simp [exit]

@[simp] theorem exit_state : ((k.exit p).proc q).state =
    if q = p then .zombie else (k.proc q).state := by simp [exit]

@[simp] theorem exit_chan : ((k.exit p).proc q).chan = (k.proc q).chan := by simp [exit]

@[simp] theorem exit_killed : ((k.exit p).proc q).killed = (k.proc q).killed := by simp [exit]

@[simp] theorem exit_pc : ((k.exit p).proc q).pc = if q = p then .off else (k.proc q).pc := by
  simp [exit]

@[simp] theorem lockSem_proc : (k.lockSem s p).proc = k.proc := rfl

@[simp] theorem lockSem_lock : ((k.lockSem s p).sem t).lock =
    if t = s then some p else (k.sem t).lock := apply_ite Semaphore.lock _ _ _

@[simp] theorem lockSem_value : ((k.lockSem s p).sem t).value = (k.sem t).value := by
  simp [lockSem, modifySem, apply_ite Semaphore.value]

@[simp] theorem unlockSem_proc : (k.unlockSem s).proc = k.proc := rfl

@[simp] theorem unlockSem_lock : ((k.unlockSem s).sem t).lock =
    if t = s then none else (k.sem t).lock := apply_ite Semaphore.lock _ _ _

@[simp] theorem unlockSem_value : ((k.unlockSem s).sem t).value = (k.sem t).value := by
  simp [unlockSem, modifySem, apply_ite Semaphore.value]

@[simp] theorem store_proc : (k.store s v).proc = k.proc := rfl

@[simp] theorem store_lock : ((k.store s v).sem t).lock = (k.sem t).lock := by
  simp [store, modifySem, apply_ite Semaphore.lock]

@[simp] theorem store_value : ((k.store s v).sem t).value =
    if t = s then v else (k.sem t).value := apply_ite Semaphore.value _ _ _

end Read

/-! ## Inversion -/

inductive Step (k : Kernel n) (p : Fin n) : Act n → Kernel n → Prop where
  | exit (c : Syscall n) : (k.proc p).state = .running → (k.proc p).pc = .user →
      (k.proc p).lock = none → ((k.proc p).killed = true ∨ c = .exit) → Step k p (.call c) (k.exit p)
  | enter (c : Syscall n) (s : SemId) (op : SemOp) : (k.proc p).state = .running →
      (k.proc p).pc = .user → (k.proc p).lock = none → (k.proc p).killed = false →
      obsCall p c = some (.entered p s op) → Step k p (.call c) (k.goto p (.acquire s op))
  | reject (c : Syscall n) (out : List String) (r : Int) : (k.proc p).state = .running →
      (k.proc p).pc = .user → (k.proc p).lock = none → (k.proc p).killed = false →
      obsCall p c = none → Step k p (.call c) ({ k with console := out }.goto p (.ret r))
  | kill (pid : Int) : (k.proc p).state = .running → (k.proc p).pc = .user →
      (k.proc p).lock = none → (k.proc p).killed = false →
      Step k p (.call (.kill pid)) (k.goto p (.kill pid 0))
  | fork (c : Fin n) : (k.proc p).state = .running → (k.proc p).pc = .user →
      (k.proc p).lock = none → (k.proc p).killed = false →
      (k.proc c).state = .unused → (k.proc c).lock = none →
      Step k p (.call (.fork (some c)))
        (({ k with nextpid := wrapInt (k.nextpid + 1) }.modifyProc c fun x =>
          { x with state := .runnable, pid := k.nextpid, pc := .embryo }).goto p (.ret k.nextpid))
  | forkret : (k.proc p).state = .running → (k.proc p).pc = .forkret →
      Step k p .run (k.modifyProc p fun x => { x with lock := none, pc := .user })
  | acquire (s : SemId) (op : SemOp) : (k.proc p).state = .running →
      (k.proc p).pc = .acquire s op → (k.sem s).lock = none →
      Step k p .run ((k.lockSem s p).goto p (.body s op))
  | openFree (s : SemId) (v : Int) : (k.proc p).state = .running →
      (k.proc p).pc = .body s (.semOpen v) → (k.sem s).value = -1 →
      Step k p .run ((k.store s v).goto p (.release s (.semOpen v) 1))
  | openBusy (s : SemId) (v : Int) : (k.proc p).state = .running →
      (k.proc p).pc = .body s (.semOpen v) → (k.sem s).value ≠ -1 →
      Step k p .run (k.goto p (.release s (.semOpen v) 0))
  | close (s : SemId) : (k.proc p).state = .running → (k.proc p).pc = .body s .semClose →
      Step k p .run ((k.store s 0).goto p (.wakeup s .semClose 0))
  | up (s : SemId) : (k.proc p).state = .running → (k.proc p).pc = .body s .semUp →
      Step k p .run ((k.store s (wrapInt ((k.sem s).value + 1))).goto p (.wakeup s .semUp 0))
  | downWait (s : SemId) : (k.proc p).state = .running → (k.proc p).pc = .body s .semDown →
      (k.sem s).value = 0 → Step k p .run (k.goto p (.sleepAcquire s))
  | down (s : SemId) : (k.proc p).state = .running → (k.proc p).pc = .body s .semDown →
      (k.sem s).value ≠ 0 →
      Step k p .run
        ((k.store s (wrapInt ((k.sem s).value - 1))).goto p (.release s .semDown 1))
  | wakeupSelf (s : SemId) (op : SemOp) : (k.proc p).state = .running →
      (k.proc p).pc = .wakeup s op p.val → Step k p .run (k.goto p (.wakeup s op (p.val + 1)))
  | wakeupLock (s : SemId) (op : SemOp) (i : Fin n) : (k.proc p).state = .running →
      (k.proc p).pc = .wakeup s op i.val → i ≠ p → (k.proc i).lock = none →
      Step k p .run ((k.lockProc i p).goto p (.wakeupLocked s op i))
  | wakeupEnd (s : SemId) (op : SemOp) (i : Nat) : (k.proc p).state = .running →
      (k.proc p).pc = .wakeup s op i → n ≤ i → Step k p .run (k.goto p (.release s op 1))
  | wake (s : SemId) (op : SemOp) (i : Fin n) : (k.proc p).state = .running →
      (k.proc p).pc = .wakeupLocked s op i →
      Step k p .run ((k.modifyProc i (wakeProc s)).goto p (.wakeup s op (i.val + 1)))
  | sleepAcquire (s : SemId) : (k.proc p).state = .running → (k.proc p).pc = .sleepAcquire s →
      (k.proc p).lock = none → Step k p .run ((k.lockProc p p).goto p (.sleepRelease s))
  | sleepRelease (s : SemId) : (k.proc p).state = .running → (k.proc p).pc = .sleepRelease s →
      Step k p .run ((k.unlockSem s).goto p (.sleepMark s))
  | sleepMark (s : SemId) : (k.proc p).state = .running → (k.proc p).pc = .sleepMark s →
      Step k p .run (k.modifyProc p fun x =>
        { x with chan := some s, state := .sleeping, lock := some .scheduler, pc := .sched s })
  | sleepTidy (s : SemId) : (k.proc p).state = .running → (k.proc p).pc = .sleepTidy s →
      Step k p .run (k.modifyProc p fun x =>
        { x with chan := none, lock := none, pc := .reacquire s })
  | reacquire (s : SemId) : (k.proc p).state = .running → (k.proc p).pc = .reacquire s →
      (k.sem s).lock = none → Step k p .run ((k.lockSem s p).goto p (.body s .semDown))
  | release (s : SemId) (op : SemOp) (r : Int) : (k.proc p).state = .running →
      (k.proc p).pc = .release s op r → Step k p .run ((k.unlockSem s).goto p (.ret r))
  | killLock (pid : Int) (i : Fin n) : (k.proc p).state = .running →
      (k.proc p).pc = .kill pid i.val → (k.proc i).lock = none →
      Step k p .run ((k.lockProc i p).goto p (.killLocked pid i))
  | killEnd (pid : Int) (i : Nat) : (k.proc p).state = .running → (k.proc p).pc = .kill pid i →
      n ≤ i → Step k p .run (k.goto p (.ret (-1)))
  | killHit (pid : Int) (i : Fin n) : (k.proc p).state = .running →
      (k.proc p).pc = .killLocked pid i → (k.proc i).pid = pid →
      Step k p .run ((k.modifyProc i killProc).goto p (.ret 0))
  | killMiss (pid : Int) (i : Fin n) : (k.proc p).state = .running →
      (k.proc p).pc = .killLocked pid i → (k.proc i).pid ≠ pid →
      Step k p .run
        ((k.modifyProc i fun x => { x with lock := none }).goto p (.kill pid (i.val + 1)))
  | retKilled (r : Int) : (k.proc p).state = .running → (k.proc p).pc = .ret r →
      (k.proc p).lock = none → (k.proc p).killed = true → Step k p .run (k.exit p)
  | ret (r : Int) : (k.proc p).state = .running → (k.proc p).pc = .ret r →
      (k.proc p).lock = none → (k.proc p).killed = false → Step k p .run (k.goto p .user)
  | dispatchNew : (k.proc p).state = .runnable → (k.proc p).lock = none →
      (k.proc p).pc = .embryo →
      Step k p .dispatch (k.modifyProc p fun x =>
        { x with state := .running, lock := some (.proc p), pc := .forkret })
  | dispatch (s : SemId) : (k.proc p).state = .runnable → (k.proc p).lock = none →
      (k.proc p).pc = .sched s →
      Step k p .dispatch (k.modifyProc p fun x =>
        { x with state := .running, lock := some (.proc p), pc := .sleepTidy s })
  | park : (k.proc p).lock = some .scheduler →
      Step k p .park (k.modifyProc p fun x => { x with lock := none })
  | spurious : (k.proc p).state = .sleeping → (k.proc p).lock = none →
      Step k p .spurious (k.modifyProc p fun x => { x with state := .runnable })

theorem usertrap_inv {c : Syscall n} (running : (k.proc p).state = .running)
    (user : (k.proc p).pc = .user) (free : (k.proc p).lock = none)
    (h : k.usertrap p c = some k') : Step k p (.call c) k' := by
  unfold usertrap at h
  cases hk : (k.proc p).killed with
  | true =>
    simp only [hk, if_true, Option.some.injEq] at h
    subst h
    exact .exit c running user free (.inl hk)
  | false =>
    simp only [hk, Bool.false_eq_true, if_false] at h
    cases c with
    | semOpen sem v =>
      simp only [syscall, sysSemOpen, Option.some.injEq] at h
      cases hs : semIndex sem with
      | none =>
        simp only [hs] at h; subst h
        exact .reject _ _ _ running user free hk (by simp [obsCall, hs])
      | some s =>
        simp only [hs] at h; subst h
        exact .enter _ _ _ running user free hk (by simp [obsCall, hs])
    | semClose sem | semUp sem | semDown sem =>
      simp only [syscall, sysSemClose, sysSemUp, sysSemDown, sysSem, Option.some.injEq] at h
      cases hs : semIndex sem with
      | none =>
        simp only [hs] at h; subst h
        exact .reject _ k.console _ running user free hk (by simp [obsCall, hs])
      | some s =>
        simp only [hs] at h; subst h
        exact .enter _ _ _ running user free hk (by simp [obsCall, hs])
    | kill pid =>
      simp only [syscall, sysKill, Option.some.injEq] at h
      subst h
      exact .kill pid running user free hk
    | fork child =>
      cases child with
      | none =>
        simp only [syscall, sysFork, Option.some.injEq] at h
        subst h
        exact .reject _ k.console _ running user free hk rfl
      | some c =>
        simp only [syscall, sysFork] at h
        split at h
        next hc => cases h; exact .fork c running user free hk hc.1 hc.2
        next => cases h
    | exit =>
      simp only [syscall, Option.some.injEq] at h
      subst h
      exact .exit _ running user free (.inr rfl)

theorem runBody_inv {op : SemOp} (running : (k.proc p).state = .running)
    (pc : (k.proc p).pc = .body s op) : Step k p .run (k.runBody p s op) := by
  cases op with
  | semOpen v =>
    simp only [runBody]
    split
    next hv => exact .openFree s v running pc hv
    next hv => exact .openBusy s v running pc hv
  | semClose => exact .close s running pc
  | semUp => exact .up s running pc
  | semDown =>
    simp only [runBody]
    split
    next hv => exact .downWait s running pc hv
    next hv => exact .down s running pc hv

theorem runThread_inv (running : (k.proc p).state = .running)
    (h : k.runThread p = some k') : Step k p .run k' := by
  unfold runThread at h
  split at h
  case h_1 | h_2 | h_3 | h_4 => cases h
  case h_5 pc => cases h; exact .forkret running pc
  case h_6 s op pc =>
    split at h
    next free => cases h; exact .acquire s op running pc free
    next => cases h
  case h_7 s op pc => cases h; exact runBody_inv running pc
  case h_8 s op i pc =>
    split at h
    next hi =>
      split at h
      next self => cases h; subst self; exact .wakeupSelf s op running pc
      next other =>
        split at h
        next free =>
          cases h
          exact .wakeupLock s op ⟨i, hi⟩ running pc (fun e => other (congrArg Fin.val e)) free
        next => cases h
    next hi => cases h; exact .wakeupEnd s op i running pc (Nat.le_of_not_lt hi)
  case h_9 s op i pc => cases h; exact .wake s op i running pc
  case h_10 s pc =>
    split at h
    next free => cases h; exact .sleepAcquire s running pc free
    next => cases h
  case h_11 s pc => cases h; exact .sleepRelease s running pc
  case h_12 s pc => cases h; exact .sleepMark s running pc
  case h_13 s pc => cases h; exact .sleepTidy s running pc
  case h_14 s pc =>
    split at h
    next free => cases h; exact .reacquire s running pc free
    next => cases h
  case h_15 s op r pc => cases h; exact .release s op r running pc
  case h_16 pid i pc =>
    split at h
    next hi =>
      split at h
      next free => cases h; exact .killLock pid ⟨i, hi⟩ running pc free
      next => cases h
    next hi => cases h; exact .killEnd pid i running pc (Nat.le_of_not_lt hi)
  case h_17 pid i pc =>
    split at h
    next hit => cases h; exact .killHit pid i running pc hit
    next miss => cases h; exact .killMiss pid i running pc miss
  case h_18 r pc =>
    split at h
    next free =>
      split at h
      next hk => cases h; exact .retKilled r running pc free hk
      next hk => cases h; exact .ret r running pc free (by simpa using hk)
    next => cases h

/-- Every step of the kernel is one of the moves. -/
theorem step_inv {a : Act n} (h : k.step (p, a) = some k') : Step k p a k' := by
  cases a with
  | call c =>
    simp only [step] at h
    split at h
    next guard => exact usertrap_inv guard.1 guard.2.1 guard.2.2 h
    next => cases h
  | run =>
    simp only [step] at h
    split at h
    next running => exact runThread_inv running h
    next => cases h
  | dispatch =>
    simp only [step, Kernel.dispatch] at h
    split at h
    next guard =>
      split at h
      next pc => cases h; exact .dispatchNew guard.1 guard.2 pc
      next s pc => cases h; exact .dispatch s guard.1 guard.2 pc
      next => cases h
    next => cases h
  | park =>
    simp only [step] at h
    split at h
    next held => cases h; exact .park held
    next => cases h
  | spurious =>
    simp only [step] at h
    split at h
    next guard => cases h; exact .spurious guard.1 guard.2
    next => cases h

end Kernel

end Sistemas.Xv6
