import Sistemas.Xv6.Pipe

/-! # What one step of the pipe can do

`Step` lists the moves of `Kernel.step` with their guards, and `step_inv` is the inversion the
proofs start from.  The lemmas before it read the fields of an updated kernel.
-/

namespace Sistemas.Xv6.Pipes.Kernel

variable {n : Nat} {k k' : Kernel n} {p : Fin n}

/-! ## Reading an updated kernel -/

section Read

variable (k : Kernel n) (p i q : Fin n) (f : Proc n → Proc n) (g : Pipe n → Pipe n) (pc : Pc n)
  (ch : UInt8)

@[simp] theorem modifyProc_pipe : (k.modifyProc p f).pipe = k.pipe := rfl

@[simp] theorem modifyProc_lock : ((k.modifyProc p f).proc q).lock =
    if q = p then (f (k.proc q)).lock else (k.proc q).lock := apply_ite Proc.lock _ _ _

@[simp] theorem modifyProc_state : ((k.modifyProc p f).proc q).state =
    if q = p then (f (k.proc q)).state else (k.proc q).state := apply_ite Proc.state _ _ _

@[simp] theorem modifyProc_chan : ((k.modifyProc p f).proc q).chan =
    if q = p then (f (k.proc q)).chan else (k.proc q).chan := apply_ite Proc.chan _ _ _

@[simp] theorem modifyProc_pc : ((k.modifyProc p f).proc q).pc =
    if q = p then (f (k.proc q)).pc else (k.proc q).pc := apply_ite Proc.pc _ _ _

@[simp] theorem modifyProc_killed : ((k.modifyProc p f).proc q).killed =
    if q = p then (f (k.proc q)).killed else (k.proc q).killed := apply_ite Proc.killed _ _ _

@[simp] theorem jump_killed : ((k.jump p pc).proc q).killed = (k.proc q).killed := by simp [jump]

@[simp] theorem lockProc_killed : ((k.lockProc i p).proc q).killed = (k.proc q).killed := by
  simp [lockProc]

@[simp] theorem jump_pipe : (k.jump p pc).pipe = k.pipe := rfl

@[simp] theorem jump_lock : ((k.jump p pc).proc q).lock = (k.proc q).lock := by simp [jump]

@[simp] theorem jump_state : ((k.jump p pc).proc q).state = (k.proc q).state := by simp [jump]

@[simp] theorem jump_chan : ((k.jump p pc).proc q).chan = (k.proc q).chan := by simp [jump]

@[simp] theorem jump_pc : ((k.jump p pc).proc q).pc = if q = p then pc else (k.proc q).pc := by
  simp [jump]

@[simp] theorem lockProc_pipe : (k.lockProc i p).pipe = k.pipe := rfl

@[simp] theorem lockProc_lock : ((k.lockProc i p).proc q).lock =
    if q = i then some (.proc p) else (k.proc q).lock := by simp [lockProc]

@[simp] theorem lockProc_state : ((k.lockProc i p).proc q).state = (k.proc q).state := by
  simp [lockProc]

@[simp] theorem lockProc_chan : ((k.lockProc i p).proc q).chan = (k.proc q).chan := by
  simp [lockProc]

@[simp] theorem lockProc_pc : ((k.lockProc i p).proc q).pc = (k.proc q).pc := by simp [lockProc]

@[simp] theorem modifyPipe_proc : (k.modifyPipe g).proc = k.proc := rfl

@[simp] theorem modifyPipe_pipe : (k.modifyPipe g).pipe = g k.pipe := rfl

@[simp] theorem lockPipe_proc : (k.lockPipe p).proc = k.proc := rfl

@[simp] theorem lockPipe_pipe : (k.lockPipe p).pipe = { k.pipe with lock := some p } := rfl

@[simp] theorem unlockPipe_proc : k.unlockPipe.proc = k.proc := rfl

@[simp] theorem unlockPipe_pipe : k.unlockPipe.pipe = { k.pipe with lock := none } := rfl

@[simp] theorem push_proc : (k.push ch).proc = k.proc := rfl

@[simp] theorem pop_proc : k.pop.proc = k.proc := rfl

@[simp] theorem push_lock : (k.push ch).pipe.lock = k.pipe.lock := rfl

@[simp] theorem pop_lock : k.pop.pipe.lock = k.pipe.lock := rfl

@[simp] theorem push_readopen : (k.push ch).pipe.readopen = k.pipe.readopen := rfl

@[simp] theorem pop_readopen : k.pop.pipe.readopen = k.pipe.readopen := rfl

@[simp] theorem push_writeopen : (k.push ch).pipe.writeopen = k.pipe.writeopen := rfl

@[simp] theorem pop_writeopen : k.pop.pipe.writeopen = k.pipe.writeopen := rfl

end Read

/-! ## Inversion -/

/-- The moves of a process, in the order of the code. -/
inductive Step (k : Kernel n) (p : Fin n) : Act → Kernel n → Prop
  | call (c : Call) : (k.proc p).pc = .user → Step k p (.call c) (k.jump p (.acquire c.op))
  | kill (pid : Int) : (k.proc p).pc = .user → Step k p (.kill pid) (k.jump p (.kill pid 0))
  | exit : (k.proc p).pc = .user → (k.proc p).lock = none →
      Step k p .exit (k.modifyProc p fun x => { x with state := .zombie, pc := .off })
  | acquire (op : Op) : (k.proc p).pc = .acquire op ∨ (k.proc p).pc = .reacquire op →
      k.pipe.lock = none → Step k p .run ((k.lockPipe p).jump p (.body op))
  | writeClosed (w : Write) : (k.proc p).pc = .body (.write w) → k.pipe.readopen = false →
      Step k p .run (k.jump p (.release (-1)))
  | writeLoop (w : Write) : (k.proc p).pc = .body (.write w) → k.pipe.readopen = true →
      Step k p .run (k.jump p (.writeKilled w))
  | writeDone (w : Write) : (k.proc p).pc = .body (.write w) →
      Step k p .run (k.jump p (.wakeup .nread (.release w.i) 0))
  | readLoop (r : Read) : (k.proc p).pc = .body (.read r) → k.empty → k.pipe.writeopen = true →
      Step k p .run (k.jump p (.readKilled r))
  | readReady (r : Read) : (k.proc p).pc = .body (.read r) →
      Step k p .run (k.jump p (.copy r))
  | closeWrite : (k.proc p).pc = .body (.close true) →
      Step k p .run ((k.modifyPipe fun x => { x with writeopen := false }).jump p
        (.wakeup .nread .close 0))
  | closeRead : (k.proc p).pc = .body (.close false) →
      Step k p .run ((k.modifyPipe fun x => { x with readopen := false }).jump p
        (.wakeup .nwrite .close 0))
  | writeKilled (w : Write) : (k.proc p).pc = .writeKilled w → (k.proc p).killed = true →
      Step k p .run (k.jump p (.release (-1)))
  | writeAlive (w : Write) : (k.proc p).pc = .writeKilled w →
      Step k p .run (k.jump p (.writeMore w))
  | writeFull (w : Write) : (k.proc p).pc = .writeMore w → k.full →
      Step k p .run (k.jump p (.wakeup .nread (.sleep w) 0))
  | writeFault (w : Write) : (k.proc p).pc = .writeMore w → w.addr w.i = none →
      Step k p .run (k.jump p (.wakeup .nread (.release w.i) 0))
  | writeByte (w : Write) (ch : UInt8) : (k.proc p).pc = .writeMore w → ¬ k.full →
      w.addr w.i = some ch →
      Step k p .run ((k.push ch).jump p (.body (.write { w with i := w.i + 1 })))
  | readKilled (r : Read) : (k.proc p).pc = .readKilled r →
      Step k p .run (k.jump p (.release (-1)))
  | readAlive (r : Read) : (k.proc p).pc = .readKilled r →
      Step k p .run (k.jump p (.sleepAcquire .nread (.read r)))
  | readDone (r : Read) : (k.proc p).pc = .copy r → ((r.i : Int) < r.n → k.empty) →
      Step k p .run (k.jump p (.wakeup .nwrite (.release r.i) 0))
  | readByte (r : Read) : (k.proc p).pc = .copy r → (r.i : Int) < r.n → ¬ k.empty → r.addr r.i →
      Step k p .run (k.pop.jump p (.copy { r with i := r.i + 1 }))
  | readFault (r : Read) : (k.proc p).pc = .copy r → (r.i : Int) < r.n → ¬ k.empty → ¬ r.addr r.i →
      Step k p .run (k.pop.jump p (.wakeup .nwrite (.release r.i) 0))
  | wakeupSelf (c : Chan) (next : Next) : (k.proc p).pc = .wakeup c next p.val →
      Step k p .run (k.jump p (.wakeup c next (p.val + 1)))
  | wakeupLock (c : Chan) (next : Next) (i : Fin n) : (k.proc p).pc = .wakeup c next i.val →
      i ≠ p → (k.proc i).lock = none →
      Step k p .run ((k.lockProc i p).jump p (.wakeupLocked c next i))
  | wake (c : Chan) (next : Next) (i : Fin n) : (k.proc p).pc = .wakeupLocked c next i →
      Step k p .run ((k.modifyProc i (wakeProc c)).jump p (.wakeup c next (i.val + 1)))
  | wokenRelease (c : Chan) (r : Int) (i : Nat) : (k.proc p).pc = .wakeup c (.release r) i →
      n ≤ i → Step k p .run (k.jump p (.release r))
  | wokenSleep (c : Chan) (w : Write) (i : Nat) : (k.proc p).pc = .wakeup c (.sleep w) i →
      n ≤ i → Step k p .run (k.jump p (.sleepAcquire .nwrite (.write w)))
  | wokenClose (c : Chan) (i : Nat) : (k.proc p).pc = .wakeup c .close i →
      n ≤ i → Step k p .run (k.jump p .closeEnd)
  | sleepAcquire (c : Chan) (op : Op) : (k.proc p).pc = .sleepAcquire c op →
      (k.proc p).lock = none → Step k p .run ((k.lockProc p p).jump p (.sleepRelease c op))
  | sleepRelease (c : Chan) (op : Op) : (k.proc p).pc = .sleepRelease c op →
      Step k p .run (k.unlockPipe.jump p (.sleepMark c op))
  | sleepMark (c : Chan) (op : Op) : (k.proc p).pc = .sleepMark c op →
      Step k p .run (k.modifyProc p fun x =>
        { x with chan := some c, state := .sleeping, lock := some .scheduler, pc := .sched c op })
  | sleepTidy (op : Op) : (k.proc p).pc = .sleepTidy op →
      Step k p .run (k.modifyProc p fun x =>
        { x with chan := none, lock := none, pc := .reacquire op })
  | release (r : Int) : (k.proc p).pc = .release r →
      Step k p .run (k.unlockPipe.jump p (.ret r))
  | closeLast : (k.proc p).pc = .closeEnd → Step k p .run (k.unlockPipe.jump p .kfree)
  | closeEnd : (k.proc p).pc = .closeEnd → Step k p .run (k.unlockPipe.jump p (.ret 0))
  | kfree : (k.proc p).pc = .kfree → Step k p .run ({ k with freed := true }.jump p (.ret 0))
  | killLock (pid : Int) (i : Fin n) : (k.proc p).pc = .kill pid i.val → (k.proc i).lock = none →
      Step k p .run ((k.lockProc i p).jump p (.killLocked pid i))
  | killEnd (pid : Int) (i : Nat) : (k.proc p).pc = .kill pid i →
      Step k p .run (k.jump p (.ret (-1)))
  | killHit (pid : Int) (i : Fin n) : (k.proc p).pc = .killLocked pid i →
      Step k p .run ((k.modifyProc i killProc).jump p (.ret 0))
  | killMiss (pid : Int) (i : Fin n) : (k.proc p).pc = .killLocked pid i →
      Step k p .run
        ((k.modifyProc i fun x => { x with lock := none }).jump p (.kill pid (i.val + 1)))
  | ret (r : Int) : (k.proc p).pc = .ret r → Step k p .run (k.jump p .user)
  | dispatch (c : Chan) (op : Op) : (k.proc p).state = .runnable → (k.proc p).lock = none →
      (k.proc p).pc = .sched c op →
      Step k p .dispatch (k.modifyProc p fun x =>
        { x with state := .running, lock := some (.proc p), pc := .sleepTidy op })
  | park : (k.proc p).lock = some .scheduler →
      Step k p .park (k.modifyProc p fun x => { x with lock := none })

theorem runBody_inv {op : Op} (pc : (k.proc p).pc = .body op) :
    Step k p .run (k.runBody p op) := by
  cases op with
  | write w =>
    simp only [runBody]
    split
    next =>
      split
      next closed => exact .writeClosed w pc closed
      next isOpen => exact .writeLoop w pc (by simpa using isOpen)
    next => exact .writeDone w pc
  | read r =>
    simp only [runBody]
    split
    next wait => exact .readLoop r pc wait.1 wait.2
    next => exact .readReady r pc
  | close writable =>
    cases writable with
    | true => exact .closeWrite pc
    | false => exact .closeRead pc

theorem runWriteMore_inv {w : Write} (pc : (k.proc p).pc = .writeMore w) :
    Step k p .run (k.runWriteMore p w) := by
  unfold runWriteMore
  split
  next full => exact .writeFull w pc full
  next more =>
    split
    next fault => exact .writeFault w pc fault
    next ch byte => exact .writeByte w ch pc more byte

theorem runCopy_inv {r : Read} (pc : (k.proc p).pc = .copy r) :
    Step k p .run (k.runCopy p r) := by
  unfold runCopy
  split
  next more =>
    split
    next nothing => exact .readDone r pc fun _ => nothing
    next some_left =>
      split
      next copied => exact .readByte r pc more some_left copied
      next fault => exact .readFault r pc more some_left fault
  next all => exact .readDone r pc fun more => absurd more all

theorem runNext_inv {c : Chan} {next : Next} {i : Nat} (pc : (k.proc p).pc = .wakeup c next i)
    (past : n ≤ i) : Step k p .run (k.runNext p next) := by
  cases next with
  | release r => exact .wokenRelease c r i pc past
  | sleep w => exact .wokenSleep c w i pc past
  | close => exact .wokenClose c i pc past

theorem runThread_inv (run : k.runThread p = some k') : Step k p .run k' := by
  unfold runThread at run
  cases pc : (k.proc p).pc with
  | off | user | sched c op => simp [pc] at run
  | acquire op =>
    simp only [pc, Option.ite_none_right_eq_some, Option.some.injEq] at run
    obtain ⟨free, rfl⟩ := run
    exact .acquire op (.inl pc) free
  | reacquire op =>
    simp only [pc, Option.ite_none_right_eq_some, Option.some.injEq] at run
    obtain ⟨free, rfl⟩ := run
    exact .acquire op (.inr pc) free
  | body op =>
    simp only [pc, Option.some.injEq] at run
    subst run
    exact runBody_inv pc
  | writeKilled w =>
    simp only [pc] at run
    split at run
    next =>
      split at run
      next hit => cases run; exact .writeKilled w pc hit
      next => cases run; exact .writeAlive w pc
    next => cases run
  | writeMore w =>
    simp only [pc, Option.some.injEq] at run
    subst run
    exact runWriteMore_inv pc
  | readKilled r =>
    simp only [pc] at run
    split at run
    next =>
      split at run
      next => cases run; exact .readKilled r pc
      next => cases run; exact .readAlive r pc
    next => cases run
  | copy r =>
    simp only [pc, Option.some.injEq] at run
    subst run
    exact runCopy_inv pc
  | wakeup c next i =>
    simp only [pc] at run
    split at run
    next lt =>
      split at run
      next self => cases run; subst self; exact .wakeupSelf c next pc
      next other =>
        split at run
        next free =>
          cases run
          exact .wakeupLock c next ⟨i, lt⟩ pc (fun e => other (congrArg Fin.val e)) free
        next => cases run
    next past => cases run; exact runNext_inv pc (Nat.le_of_not_lt past)
  | wakeupLocked c next i => simp only [pc] at run; cases run; exact .wake c next i pc
  | sleepAcquire c op =>
    simp only [pc, Option.ite_none_right_eq_some, Option.some.injEq] at run
    obtain ⟨free, rfl⟩ := run
    exact .sleepAcquire c op pc free
  | sleepRelease c op => simp only [pc] at run; cases run; exact .sleepRelease c op pc
  | sleepMark c op => simp only [pc] at run; cases run; exact .sleepMark c op pc
  | sleepTidy op => simp only [pc] at run; cases run; exact .sleepTidy op pc
  | release r => simp only [pc] at run; cases run; exact .release r pc
  | closeEnd =>
    simp only [pc] at run
    split at run
    next => cases run; exact .closeLast pc
    next => cases run; exact .closeEnd pc
  | kfree => simp only [pc] at run; cases run; exact .kfree pc
  | kill pid i =>
    simp only [pc] at run
    split at run
    next lt =>
      simp only [Option.ite_none_right_eq_some, Option.some.injEq] at run
      obtain ⟨free, rfl⟩ := run
      exact .killLock pid ⟨i, lt⟩ pc free
    next => cases run; exact .killEnd pid i pc
  | killLocked pid i =>
    simp only [pc] at run
    split at run
    next => cases run; exact .killHit pid i pc
    next => cases run; exact .killMiss pid i pc
  | ret r => simp only [pc] at run; cases run; exact .ret r pc

/-- Every step is one of the moves. -/
theorem step_inv {a : Act} (move : k.step (p, a) = some k') : Step k p a k' := by
  cases a with
  | call c =>
    simp only [step] at move
    split at move
    next pc =>
      split at move
      next => cases move
      next => cases move; exact .call c pc
    next => cases move
  | kill pid =>
    simp only [step] at move
    split at move
    next pc => cases move; exact .kill pid pc
    next => cases move
  | exit =>
    simp only [step] at move
    split at move
    next pc =>
      simp only [Option.ite_none_right_eq_some, Option.some.injEq] at move
      obtain ⟨free, rfl⟩ := move
      exact .exit pc free
    next => cases move
  | run =>
    simp only [step, Option.ite_none_right_eq_some] at move
    exact runThread_inv move.2
  | dispatch =>
    simp only [step] at move
    split at move
    next guard =>
      split at move
      next c op pc => cases move; exact .dispatch c op guard.1 guard.2 pc
      next => cases move
    next => cases move
  | park =>
    simp only [step, Option.ite_none_right_eq_some, Option.some.injEq] at move
    obtain ⟨held, rfl⟩ := move
    exact .park held

end Sistemas.Xv6.Pipes.Kernel
