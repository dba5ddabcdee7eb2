import Sistemas.Xv6.Log

/-! # Crashes of the log

Outside the log, the disk goes through three phases: before the commit the header is empty
and the blocks are the old ones (`Settled`); once the header is written the new contents are
in the log (`Logged`); when the header is empty again the blocks are the new ones (`Settled`).
Every single write, of a commit or of a recovery, stays in a phase or goes to the next one.
-/

namespace Sistemas.Xv6

open Sistemas.Crash

variable {log : Log} {s : Storage}

/-! ## The header block -/

theorem LogHeader.load_store (lh : LogHeader) (data : Block) : load (lh.store data) = some lh := by
  obtain ⟨block, fits⟩ := lh
  have count : (LogHeader.store ⟨block, fits⟩ data) (word 0) = block.length := rfl
  simp only [load, count, fits, dif_pos, Option.some.injEq, LogHeader.mk.injEq]
  refine List.ext_getElem (by simp) fun i inside inside' => ?_
  have small : i + 1 < 256 := by
    simp only [logSize, maxOpBlocks] at fits
    omega
  simp [store, word, Nat.mod_eq_of_lt small, inside']

/-! ## Writes -/

/-- A sequence of `bwrite`s. -/
def Storage.perform (s : Storage) (ws : List (Nat × Block)) : Storage :=
  ws.foldl (fun s w => s.bwrite w.1 w.2) s

@[simp] theorem Storage.perform_nil (s : Storage) : s.perform [] = s := rfl

@[simp] theorem Storage.perform_cons (s : Storage) (w : Nat × Block) (ws : List (Nat × Block)) :
    s.perform (w :: ws) = (s.bwrite w.1 w.2).perform ws := rfl

theorem Storage.perform_append (s : Storage) (ws vs : List (Nat × Block)) :
    s.perform (ws ++ vs) = (s.perform ws).perform vs := List.foldl_append

theorem Storage.disk_perform (s : Storage) (ws : List (Nat × Block)) :
    (s.perform ws).disk = apply s.disk ws := by
  induction ws generalizing s with
  | nil => rfl
  | cons w ws ih => rw [perform_cons, ih, apply_cons]; rfl

theorem Storage.writes_perform (s : Storage) (ws : List (Nat × Block)) :
    (s.perform ws).writes = s.writes ++ ws := by
  induction ws generalizing s with
  | nil => simp
  | cons w ws ih => rw [perform_cons, ih]; simp [bwrite]

theorem Storage.bread_bwrite (s : Storage) (b : Nat) (data : Block) :
    (s.bwrite b data).bread = Function.update s.bread b data := by
  funext x
  by_cases here : x = b
  · subst here; simp [bread, bwrite]
  · simp [bread, bwrite, here]

theorem Storage.bread_perform (s : Storage) (ws : List (Nat × Block)) :
    (s.perform ws).bread = apply s.bread ws := by
  induction ws generalizing s with
  | nil => rfl
  | cons w ws ih => rw [perform_cons, ih, apply_cons, bread_bwrite]

theorem writeHead_eq (lh : LogHeader) :
    writeHead log lh s = s.perform [(log.start, lh.store (s.bread log.start))] := rfl

/-! ## Copies into the log and out of it -/

/-- The blocks with the place of each in the log. -/
def slots (log : Log) : Nat → List Nat → List (Nat × Nat)
  | _, [] => []
  | tail, b :: block => (log.start + tail + 1, b) :: slots log (tail + 1) block

def logCopies (contents : Nat → Block) (slots : List (Nat × Nat)) : List (Nat × Block) :=
  slots.map fun (slot, b) => (slot, contents b)

def homeCopies (contents : Nat → Block) (slots : List (Nat × Nat)) : List (Nat × Block) :=
  slots.map fun (slot, b) => (b, contents slot)

theorem slots_snd (log : Log) (tail : Nat) (block : List Nat) :
    (slots log tail block).map Prod.snd = block := by
  induction block generalizing tail with
  | nil => rfl
  | cons b block ih => simp [slots, ih]

theorem slots_fst_ge {tail slot b : Nat} {block : List Nat} (mem : (slot, b) ∈ slots log tail block) :
    log.start + tail < slot ∧ slot ≤ log.start + tail + block.length := by
  induction block generalizing tail with
  | nil => cases mem
  | cons c block ih =>
    obtain eq | mem := List.mem_cons.mp mem
    · simp only [Prod.mk.injEq] at eq
      simp only [List.length_cons]
      omega
    · have := ih mem
      simp only [List.length_cons]
      omega

theorem slots_fst_nodup (log : Log) (tail : Nat) (block : List Nat) :
    ((slots log tail block).map Prod.fst).Nodup := by
  induction block generalizing tail with
  | nil => exact List.nodup_nil
  | cons b block ih =>
    refine List.nodup_cons.mpr ⟨?_, ih (tail + 1)⟩
    intro mem
    obtain ⟨⟨slot, c⟩, inside, eq⟩ := List.mem_map.mp mem
    have := slots_fst_ge inside
    simp only at eq
    omega

/-- Blocks of a transaction: outside the log, which has room for them. -/
structure Loggable (log : Log) (tail : Nat) (block : List Nat) : Prop where
  outside : ∀ b ∈ block, ¬ log.Area b
  room : tail + block.length ≤ log.size - 1

theorem Loggable.tail {tail b : Nat} {block : List Nat} (h : Loggable log tail (b :: block)) :
    Loggable log (tail + 1) block where
  outside c mem := h.outside c (.tail _ mem)
  room := by
    have := h.room
    simp only [List.length_cons] at this
    omega

theorem Loggable.area {tail slot b : Nat} {block : List Nat} (h : Loggable log tail block)
    (mem : (slot, b) ∈ slots log tail block) : log.Area slot ∧ slot ≠ log.start ∧ ¬ log.Area b := by
  have bounds := slots_fst_ge mem
  have room := h.room
  have positive := log.positive
  have inside : b ∈ block := by
    rw [← slots_snd log tail block]
    exact List.mem_map.mpr ⟨_, mem, rfl⟩
  refine ⟨⟨by omega, by omega⟩, by omega, h.outside b inside⟩

theorem writeLog_eq {tail : Nat} {block : List Nat} (h : Loggable log tail block) :
    writeLog log tail block s = s.perform (logCopies s.bread (slots log tail block)) := by
  induction block generalizing tail s with
  | nil => rfl
  | cons b block ih =>
    simp only [writeLog, ih h.tail, slots, logCopies, List.map_cons, Storage.perform_cons,
      Storage.bread_bwrite]
    congr 1
    refine List.map_congr_left fun ⟨slot, c⟩ mem => ?_
    have inArea := (h.area List.mem_cons_self).1
    have out := (h.tail.area mem).2.2
    have other : c ≠ log.start + tail + 1 := fun eq => out (eq ▸ inArea)
    simp [Function.update_of_ne other]

theorem installTrans_eq {tail : Nat} {block : List Nat} (h : Loggable log tail block) :
    installTrans log tail block s = s.perform (homeCopies s.bread (slots log tail block)) := by
  induction block generalizing tail s with
  | nil => rfl
  | cons b block ih =>
    simp only [installTrans, ih h.tail, slots, homeCopies, List.map_cons, Storage.perform_cons,
      Storage.bread_bwrite]
    congr 1
    refine List.map_congr_left fun ⟨slot, c⟩ mem => ?_
    have inArea := (h.tail.area mem).1
    have out := (h.area List.mem_cons_self).2.2
    have other : slot ≠ b := fun eq => out (eq ▸ inArea)
    simp [Function.update_of_ne other]

/-! ## The phases -/

/-- The log is empty; outside of it the disk has the given contents. -/
structure Settled (log : Log) (contents d : Disk) : Prop where
  header : LogHeader.load (d log.start) = some .empty
  outside : ∀ b, ¬ log.Area b → d b = contents b

/-- The log has the new contents of its blocks; outside of it the other blocks are done. -/
structure Logged (log : Log) (lh : LogHeader) (after d : Disk) : Prop where
  header : LogHeader.load (d log.start) = some lh
  copies : ∀ slot b, (slot, b) ∈ slots log 0 lh.block → d slot = after b
  outside : ∀ b, ¬ log.Area b → b ∉ lh.block → d b = after b

theorem Log.start_area (log : Log) : log.Area log.start := by
  have := log.positive
  exact ⟨Nat.le_refl _, by omega⟩

/-- A write into the log after its header. -/
theorem Settled.write_log {contents d : Disk} (h : Settled log contents d) {slot : Nat}
    (area : log.Area slot) (body : slot ≠ log.start) (data : Block) :
    Settled log contents (Function.update d slot data) where
  header := by rw [Function.update_of_ne body.symm]; exact h.header
  outside b out := by
    have other : b ≠ slot := fun eq => out (eq ▸ area)
    rw [Function.update_of_ne other]
    exact h.outside b out

theorem Settled.write_header {contents d : Disk} (outside : ∀ b, ¬ log.Area b → d b = contents b)
    (data : Block) :
    Settled log contents (Function.update d log.start (LogHeader.empty.store data)) where
  header := by rw [Function.update_self, LogHeader.load_store]
  outside b out := by
    have other : b ≠ log.start := fun eq => out (eq ▸ log.start_area)
    rw [Function.update_of_ne other]
    exact outside b out

/-- A write to a block of the transaction. -/
theorem Logged.write_home {lh : LogHeader} {after d : Disk} (h : Logged log lh after d)
    (loggable : Loggable log 0 lh.block) {b : Nat} (mem : b ∈ lh.block) (data : Block) :
    Logged log lh after (Function.update d b data) where
  header := by
    have other : log.start ≠ b := fun eq => loggable.outside b mem (eq ▸ log.start_area)
    rw [Function.update_of_ne other]
    exact h.header
  copies slot c inside := by
    have other : slot ≠ b := fun eq => loggable.outside b mem (eq ▸ (loggable.area inside).1)
    rw [Function.update_of_ne other]
    exact h.copies slot c inside
  outside c out notMem := by
    have other : c ≠ b := fun eq => notMem (eq ▸ mem)
    rw [Function.update_of_ne other]
    exact h.outside c out notMem

section Install

variable {lh : LogHeader} {after d contents : Disk}

theorem homeCopies_fst (slots : List (Nat × Nat)) :
    (homeCopies contents slots).map Prod.fst = slots.map Prod.snd := by
  simp [homeCopies, Function.comp_def]

/-- The end of a commit, and of a recovery: the blocks are copied home and the header is
    cleared. -/
def installWrites (log : Log) (lh : LogHeader) (contents : Disk) (data : Block) :
    List (Nat × Block) :=
  homeCopies contents (slots log 0 lh.block) ++ [(log.start, LogHeader.empty.store data)]

theorem Logged.installed (h : Logged log lh after d) (nodup : lh.block.Nodup)
    (same : ∀ slot b, (slot, b) ∈ slots log 0 lh.block → contents slot = after b) :
    ∀ b, ¬ log.Area b → apply d (homeCopies contents (slots log 0 lh.block)) b = after b := by
  intro b out
  by_cases mem : b ∈ lh.block
  · rw [← slots_snd log 0 lh.block] at mem
    obtain ⟨⟨slot, c⟩, inside, rfl⟩ := List.mem_map.mp mem
    have copied : (c, contents slot) ∈ homeCopies contents (slots log 0 lh.block) :=
      List.mem_map.mpr ⟨(slot, c), inside, rfl⟩
    have distinct : ((homeCopies contents (slots log 0 lh.block)).map Prod.fst).Nodup := by
      rw [homeCopies_fst, slots_snd]
      exact nodup
    rw [← same slot c inside]
    exact apply_of_mem d copied distinct
  · rw [apply_of_notMem _ (by rw [homeCopies_fst, slots_snd]; exact mem)]
    exact h.outside b out mem

theorem Logged.install (h : Logged log lh after d) (loggable : Loggable log 0 lh.block)
    (nodup : lh.block.Nodup)
    (same : ∀ slot b, (slot, b) ∈ slots log 0 lh.block → contents slot = after b) (data : Block) :
    (∀ k, Logged log lh after (apply d ((installWrites log lh contents data).take k)) ∨
      Settled log after (apply d ((installWrites log lh contents data).take k))) ∧
    Settled log after (apply d (installWrites log lh contents data)) := by
  have last : Settled log after (apply d (installWrites log lh contents data)) := by
    rw [installWrites, apply_append]
    exact Settled.write_header (h.installed nodup same) data
  refine ⟨fun k => ?_, last⟩
  rw [installWrites, apply_take_append]
  split
  next =>
    left
    refine apply_take_invariant ?_ h k
    intro d w mem logged
    obtain ⟨⟨slot, b⟩, inside, rfl⟩ := List.mem_map.mp mem
    have home : b ∈ lh.block := by
      rw [← slots_snd log 0 lh.block]
      exact List.mem_map.mpr ⟨_, inside, rfl⟩
    exact logged.write_home loggable home _
  next more =>
    right
    rw [List.take_of_length_le (by simp only [List.length_singleton]; omega), ← apply_append]
    exact last

end Install

/-! ## Recovery -/

/-- What `recover_from_log` writes. -/
theorem recovery_eq {lh : LogHeader} {d : Disk} (header : LogHeader.load (d log.start) = some lh)
    (loggable : Loggable log 0 lh.block) : ∃ data,
    initlog log d = some ((Storage.reboot d).perform (installWrites log lh d data)) := by
  refine ⟨(installTrans log 0 lh.block (.reboot d)).bread log.start, ?_⟩
  have read : readHead log (.reboot d) = some lh := header
  have install : installTrans log 0 lh.block (.reboot d) =
      (Storage.reboot d).perform (homeCopies d (slots log 0 lh.block)) := installTrans_eq loggable
  rw [initlog, recoverFromLog, read, installWrites, Storage.perform_append, ← install]
  rfl

theorem recovery_of_initlog {d : Disk} {ws : List (Nat × Block)}
    (h : initlog log d = some ((Storage.reboot d).perform ws)) : recovery log d = some ws := by
  rw [recovery, h, Option.map_some, Storage.writes_perform]
  rfl

theorem Loggable.empty (log : Log) : Loggable log 0 LogHeader.empty.block where
  outside := by simp [LogHeader.empty]
  room := by simp [LogHeader.empty]

theorem Settled.recover {contents d : Disk} (h : Settled log contents d) :
    ∃ ws, initlog log d = some ((Storage.reboot d).perform ws) ∧
      ∀ k, Settled log contents (apply d (ws.take k)) := by
  obtain ⟨data, run⟩ := recovery_eq h.header (.empty log)
  refine ⟨_, run, apply_take_invariant ?_ h⟩
  intro d' w mem settled
  obtain rfl : w = (log.start, LogHeader.empty.store data) := by
    simpa [installWrites, homeCopies, slots, LogHeader.empty] using mem
  exact Settled.write_header settled.outside data

theorem Logged.recover {lh : LogHeader} {after d : Disk} (h : Logged log lh after d)
    (loggable : Loggable log 0 lh.block) (nodup : lh.block.Nodup) :
    ∃ ws, initlog log d = some ((Storage.reboot d).perform ws) ∧
      (∀ k, Logged log lh after (apply d (ws.take k)) ∨ Settled log after (apply d (ws.take k))) ∧
      Settled log after (apply d ws) := by
  obtain ⟨data, run⟩ := recovery_eq h.header loggable
  exact ⟨_, run, h.install loggable nodup h.copies data⟩

/-- After crashes of the recovery, a recovery that is not cut off. -/
def Recovers (log : Log) (d : Disk) (cuts : List Nat) (contents : Disk) : Prop :=
  ∃ d' s, interrupted (recovery log) d cuts = some d' ∧ initlog log d' = some s ∧
    ∀ b, ¬ log.Area b → s.disk b = contents b

theorem Settled.recovers {contents d : Disk} (h : Settled log contents d) (cuts : List Nat) :
    Recovers log d cuts contents := by
  obtain ⟨d', run, settled⟩ := interrupted_invariant (recovery log)
    (fun d (h : Settled log contents d) => by
      obtain ⟨ws, run, prefixes⟩ := h.recover
      exact ⟨ws, recovery_of_initlog run, prefixes⟩) h cuts
  obtain ⟨ws, last, prefixes⟩ := settled.recover
  refine ⟨d', _, run, last, ?_⟩
  have whole := prefixes ws.length
  rw [List.take_length] at whole
  rw [Storage.disk_perform]
  exact whole.outside

theorem Logged.recovers {lh : LogHeader} {after d : Disk} (h : Logged log lh after d)
    (loggable : Loggable log 0 lh.block) (nodup : lh.block.Nodup) (cuts : List Nat) :
    Recovers log d cuts after := by
  obtain ⟨d', run, reached⟩ := interrupted_invariant (recovery log)
    (P := fun d => Logged log lh after d ∨ Settled log after d)
    (by
      intro d reached
      obtain logged | settled := reached
      · obtain ⟨ws, run, prefixes, -⟩ := logged.recover loggable nodup
        exact ⟨ws, recovery_of_initlog run, prefixes⟩
      · obtain ⟨ws, run, prefixes⟩ := settled.recover
        exact ⟨ws, recovery_of_initlog run, fun k => .inr (prefixes k)⟩) (.inl h) cuts
  obtain logged | settled := reached
  · obtain ⟨ws, last, -, whole⟩ := logged.recover loggable nodup
    refine ⟨d', _, run, last, ?_⟩
    rw [Storage.disk_perform]
    exact whole.outside
  · obtain ⟨d'', s, none, last, same⟩ := settled.recovers []
    cases none
    exact ⟨d', s, run, last, same⟩

/-! ## Commit -/

/-- The state between transactions: the log is empty and the cache agrees with the disk. -/
structure Quiescent (log : Log) (s : Storage) : Prop where
  header : LogHeader.load (s.disk log.start) = some .empty
  synced : s.bread = s.disk

namespace Transaction

variable (t : Transaction log)

theorem loggable : Loggable log 0 t.header.block where
  outside b mem := by
    obtain ⟨w, inside, rfl⟩ := List.mem_map.mp mem
    exact t.outside w inside
  room := by simpa [header] using t.room

/-- What the transaction makes of the disk. -/
def after (t : Transaction log) (d : Disk) : Disk := apply d t.modified

theorem bread_modify (s : Storage) (modified : List (Nat × Block)) :
    (s.modify modified).bread = apply s.bread modified := by
  induction modified generalizing s with
  | nil => rfl
  | cons w modified ih =>
    have first : (s.modify [w]).bread = Function.update s.bread w.1 w.2 := by
      funext x
      by_cases here : x = w.1
      · subst here; simp [Storage.modify, Storage.bread]
      · simp [Storage.modify, Storage.bread, here]
    rw [apply_cons, ← first, ← ih]
    rfl

/-- The writes of `write_log` and the first `write_head`. -/
def logWrites (t : Transaction log) (contents : Disk) (data : Block) : List (Nat × Block) :=
  logCopies contents (slots log 0 t.header.block) ++ [(log.start, t.header.store data)]

theorem run_eq (s : Storage) (nonempty : t.modified ≠ []) : ∃ data data',
    t.run s = (s.modify t.modified).perform
      (t.logWrites (s.modify t.modified).bread data ++
        installWrites log t.header
          (apply (s.modify t.modified).bread (t.logWrites (s.modify t.modified).bread data))
          data') := by
  have positive : 0 < t.header.block.length := by
    simpa [header, List.length_pos_iff] using nonempty
  rw [run, commit, if_pos positive, writeLog_eq t.loggable, writeHead_eq t.header,
    ← Storage.perform_append, installTrans_eq t.loggable, Storage.bread_perform _ (_ ++ _),
    ← Storage.perform_append, writeHead_eq .empty, ← Storage.perform_append]
  simp only [logWrites, installWrites, ← List.append_assoc]
  exact ⟨_, _, rfl⟩

variable {s : Storage}

theorem contents_eq (quiet : Quiescent log s) :
    (s.modify t.modified).bread = t.after s.disk := by
  rw [bread_modify, quiet.synced, after]

theorem logCopies_fst (contents : Disk) (slots : List (Nat × Nat)) :
    (logCopies contents slots).map Prod.fst = slots.map Prod.fst := by
  simp [logCopies, Function.comp_def]

/-- Nothing that is copied into the log is outside of it. -/
theorem apply_logCopies (contents d : Disk) {b : Nat} (out : ¬ log.Area b ∨ b = log.start) :
    apply d (logCopies contents (slots log 0 t.header.block)) b = d b := by
  apply apply_of_notMem
  rw [logCopies_fst]
  intro mem
  obtain ⟨⟨slot, c⟩, inside, rfl⟩ := List.mem_map.mp mem
  have area := t.loggable.area inside
  exact out.elim (fun out => out area.1) area.2.1

/-- What is read back from the log is what was copied into it. -/
theorem copies_back (d contents : Disk) (data : Block) (slot b : Nat)
    (mem : (slot, b) ∈ slots log 0 t.header.block) :
    apply d (t.logWrites contents data) slot = contents b := by
  have area := t.loggable.area mem
  have copied : (slot, contents b) ∈ logCopies contents (slots log 0 t.header.block) :=
    List.mem_map.mpr ⟨_, mem, rfl⟩
  have distinct := slots_fst_nodup log 0 t.header.block
  rw [← logCopies_fst contents] at distinct
  rw [logWrites, apply_append, apply_cons, apply_nil, Function.update_of_ne area.2.1]
  exact apply_of_mem d copied distinct

/-- The header is written: what the transaction has changed is in the log. -/
theorem logged (d : Disk) (data : Block) :
    Logged log t.header (t.after d) (apply d (t.logWrites (t.after d) data)) where
  header := by
    rw [logWrites, apply_append, apply_cons, apply_nil, Function.update_self, LogHeader.load_store]
  copies := t.copies_back d _ data
  outside b out notMem := by
    have other : b ≠ log.start := fun eq => out (eq ▸ log.start_area)
    rw [logWrites, apply_append, apply_cons, apply_nil, Function.update_of_ne other,
      t.apply_logCopies _ _ (.inl out), after, apply_of_notMem _ notMem]

/-- Until then nothing has happened outside the log. -/
theorem settled {d : Disk} (header : LogHeader.load (d log.start) = some .empty) (contents : Disk)
    (k : Nat) :
    Settled log d (apply d ((logCopies contents (slots log 0 t.header.block)).take k)) := by
  refine apply_take_invariant ?_ ⟨header, fun _ _ => rfl⟩ k
  intro d' w mem settled
  obtain ⟨⟨slot, b⟩, inside, rfl⟩ := List.mem_map.mp mem
  have area := t.loggable.area inside
  exact settled.write_log area.1 area.2.1 _

theorem writes_eq (nonempty : t.modified ≠ []) (quiet : Quiescent log s) : ∃ data data',
    t.writes s = t.logWrites (t.after s.disk) data ++
      installWrites log t.header (apply (t.after s.disk) (t.logWrites (t.after s.disk) data))
        data' := by
  obtain ⟨data, data', run⟩ := t.run_eq s nonempty
  rw [t.contents_eq quiet] at run
  refine ⟨data, data', ?_⟩
  rw [writes, run, Storage.writes_perform]
  exact List.drop_left

theorem writes_nil (empty : t.modified = []) : t.writes s = [] := by
  simp [writes, run, commit, header, empty, Storage.modify]

/-- A crash in the middle of a commit: after recovery all is old or all is new. -/
theorem recovers (quiet : Quiescent log s) (k : Nat) (cuts : List Nat) :
    (Recovers log (apply s.disk ((t.writes s).take k)) cuts s.disk ∨
      Recovers log (apply s.disk ((t.writes s).take k)) cuts (t.after s.disk)) ∧
    (t.modified.length < k →
      Recovers log (apply s.disk ((t.writes s).take k)) cuts (t.after s.disk)) := by
  by_cases empty : t.modified = []
  · have settled : Settled log s.disk s.disk := ⟨quiet.header, fun _ _ => rfl⟩
    have same : t.after s.disk = s.disk := by simp [after, empty]
    rw [t.writes_nil empty, List.take_nil, apply_nil, same]
    exact ⟨.inl (settled.recovers cuts), fun _ => settled.recovers cuts⟩
  · obtain ⟨data, data', writes⟩ := t.writes_eq empty quiet
    have logged := t.logged s.disk data
    obtain ⟨install, -⟩ := logged.install t.loggable t.nodup (t.copies_back _ _ data) data'
    have copies : (logCopies (t.after s.disk) (slots log 0 t.header.block)).length =
        t.modified.length := by
      simpa [logCopies, header] using congrArg List.length (slots_snd log 0 t.header.block)
    by_cases early : k ≤ t.modified.length
    · have settled := t.settled quiet.header (t.after s.disk) k
      rw [writes, logWrites, List.append_assoc, apply_take_append, if_pos (copies ▸ early)]
      exact ⟨.inl (settled.recovers cuts), fun late => absurd early (by omega)⟩
    · have late : Recovers log (apply s.disk ((t.writes s).take k)) cuts (t.after s.disk) := by
        rw [writes, apply_take_append]
        split
        next =>
          rw [List.take_of_length_le (by simp [logWrites, copies]; omega)]
          exact logged.recovers t.loggable t.nodup cuts
        next =>
          obtain logged | settled := install (k - (t.logWrites (t.after s.disk) data).length)
          · exact logged.recovers t.loggable t.nodup cuts
          · exact settled.recovers cuts
      exact ⟨.inr late, fun _ => late⟩

/-- A commit that is not cut off leaves the log empty. -/
theorem quiescent (quiet : Quiescent log s) : Quiescent log (t.run s) := by
  by_cases empty : t.modified = []
  · simpa [run, commit, header, empty, Storage.modify] using quiet
  · obtain ⟨data, data', run⟩ := t.run_eq s empty
    rw [t.contents_eq quiet] at run
    have logged := t.logged s.disk data
    obtain ⟨-, settled⟩ := logged.install t.loggable t.nodup (t.copies_back _ _ data) data'
    rw [← apply_append] at settled
    refine ⟨?_, ?_⟩
    · rw [run, Storage.disk_perform]
      exact settled.header
    · rw [run, Storage.bread_perform, Storage.disk_perform, t.contents_eq quiet]
      funext b
      apply apply_congr
      by_cases mem : b ∈ t.modified.map Prod.fst
      · left
        have home : b ∈ (homeCopies (apply (t.after s.disk) (t.logWrites (t.after s.disk) data))
            (slots log 0 t.header.block)).map Prod.fst := by
          rw [homeCopies_fst, slots_snd]
          exact mem
        simp only [installWrites, List.map_append, List.mem_append]
        exact .inr (.inl home)
      · right
        exact apply_of_notMem _ mem

end Transaction

/-! ## From boot on -/

theorem Storage.synced_bwrite (synced : s.bread = s.disk) (b : Nat) (data : Block) :
    (s.bwrite b data).bread = (s.bwrite b data).disk := by
  rw [bread_bwrite, synced]
  rfl

theorem synced_installTrans {tail : Nat} {block : List Nat} (synced : s.bread = s.disk) :
    (installTrans log tail block s).bread = (installTrans log tail block s).disk := by
  induction block generalizing tail s with
  | nil => exact synced
  | cons b block ih => exact ih (s.synced_bwrite synced b _)

theorem quiescent_initlog {boot : Disk} (booted : initlog log boot = some s) :
    Quiescent log s := by
  simp only [initlog, recoverFromLog, Option.bind_eq_bind, Option.bind_eq_some_iff] at booted
  obtain ⟨lh, -, ended⟩ := booted
  obtain rfl := Option.some.inj ended
  refine ⟨?_, Storage.synced_bwrite (synced_installTrans rfl) _ _⟩
  simp only [writeHead, Storage.bwrite, Function.update_self]
  exact LogHeader.load_store _ _

/-- The machine has booted and has committed transactions. -/
def session (s : Storage) (history : List (Transaction log)) : Storage :=
  history.foldl (fun s t => t.run s) s

theorem quiescent_session (quiet : Quiescent log s) (history : List (Transaction log)) :
    Quiescent log (session s history) := by
  induction history generalizing s with
  | nil => exact quiet
  | cons t history ih => exact ih (t.quiescent quiet)

/-- Wherever a commit is cut off, and however often the recoveries after it are, the next
    recovery leaves everything outside the log as it was before the transaction, or everything
    as the transaction makes it; and the latter if the header had been written. -/
theorem commit_crash_atomic (boot : Disk) (s₀ : Storage) (booted : initlog log boot = some s₀)
    (history : List (Transaction log)) (t : Transaction log) (k : Nat) (cuts : List Nat) :
    ∃ d s', interrupted (recovery log)
        (apply (session s₀ history).disk ((t.writes (session s₀ history)).take k)) cuts = some d ∧
      initlog log d = some s' ∧
      ((∀ b, ¬ log.Area b → s'.disk b = (session s₀ history).disk b) ∨
        ∀ b, ¬ log.Area b → s'.disk b = apply (session s₀ history).disk t.modified b) ∧
      (t.modified.length < k →
        ∀ b, ¬ log.Area b → s'.disk b = apply (session s₀ history).disk t.modified b) := by
  have quiet := quiescent_session (quiescent_initlog booted) history
  obtain ⟨either, late⟩ := t.recovers quiet k cuts
  by_cases headed : t.modified.length < k
  · obtain ⟨d, s', run, last, same⟩ := late headed
    exact ⟨d, s', run, last, .inr same, fun _ => same⟩
  · obtain ⟨d, s', run, last, same⟩ | ⟨d, s', run, last, same⟩ := either
    · exact ⟨d, s', run, last, .inl same, fun late => absurd late headed⟩
    · exact ⟨d, s', run, last, .inr same, fun late => absurd late headed⟩

/-- The log of a disk made by `mkfs`: 30 blocks after the superblock. -/
def mkfsLog : Log := { start := 2, size := logSize, positive := by decide }

/-- Two blocks of ones. -/
def twoBlocks : Transaction mkfsLog where
  modified := [(45, fun _ => 1), (46, fun _ => 1)]
  nodup := by decide
  outside := by simp [Log.Area, mkfsLog, logSize, maxOpBlocks]
  room := by decide
  fits := by decide

/-- The first of them is written again, and another one. -/
def rewrites : Transaction mkfsLog where
  modified := [(45, fun _ => 2), (47, fun _ => 3)]
  nodup := by decide
  outside := by simp [Log.Area, mkfsLog, logSize, maxOpBlocks]
  room := by decide
  fits := by decide

theorem commit_crash_atomic_rewrites : ∃ s₀, initlog mkfsLog (fun _ _ => 0) = some s₀ ∧
    ∃ d s', interrupted (recovery mkfsLog)
        (apply (session s₀ [twoBlocks]).disk ((rewrites.writes (session s₀ [twoBlocks])).take 4))
        [1, 2] = some d ∧
      initlog mkfsLog d = some s' ∧
      s'.disk 45 0 = 2 ∧ s'.disk 46 0 = 1 ∧ s'.disk 47 0 = 3 := by
  obtain ⟨s₀, booted⟩ : ∃ s₀, initlog mkfsLog (fun _ _ => 0) = some s₀ := ⟨_, rfl⟩
  obtain ⟨d, s', run, last, -, late⟩ :=
    commit_crash_atomic (fun _ _ => 0) s₀ booted [twoBlocks] rewrites 4 [1, 2]
  have same := late (by decide)
  cases booted
  refine ⟨_, rfl, d, s', run, last, ?_, ?_, ?_⟩
  · rw [same 45 (by simp [Log.Area, mkfsLog, logSize, maxOpBlocks])]
    rfl
  · rw [same 46 (by simp [Log.Area, mkfsLog, logSize, maxOpBlocks])]
    rfl
  · rw [same 47 (by simp [Log.Area, mkfsLog, logSize, maxOpBlocks])]
    rfl

end Sistemas.Xv6
