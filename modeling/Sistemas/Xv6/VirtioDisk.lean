import Sistemas.Data.RingBuffer
import Sistemas.Transition.Run

/-! # The virtio disk

The descriptors, the two rings and the requests of `virtio_disk.c`.  `vdisk_lock` is held except
where a thread sleeps, so a call of `virtio_disk_rw` is one step up to its first `sleep` and one
for each time it is woken.  `kill` may wake a sleeper at any time: a `wakeup` enables nothing
more.  `virtio_disk_intr` is cut at the head of its loop, as the device may go on meanwhile.

* `Disk` — what the driver and the device share, and the functions of the driver.
* `State.step` — the driver, the device and the sleeplocks of the buffers: `bread` and `bwrite`
  hold the one of theirs.
-/

namespace Sistemas.Xv6.Virtio

/-- `NUM` -/
def num : Nat := 8

/-- The number of values of a `uint16`. -/
def uint16s : Nat := 65536

/-- `VRING_DESC_F_NEXT` -/
def flagNext : Nat := 1

/-- `VRING_DESC_F_WRITE` -/
def flagWrite : Nat := 2

/-- `BSIZE` -/
def bsize : Nat := 1024

inductive Addr (B : Type)
  | null
  -- `&disk.ops[i]`
  | op (i : Nat)
  -- `b->data`
  | data (b : B)
  -- `&disk.info[i].status`
  | status (i : Nat)
  deriving DecidableEq

structure Desc (B : Type) where
  addr : Addr B
  len : Nat
  flags : Nat
  next : Nat

/-- All fields are 0. -/
def Desc.zero {B : Type} : Desc B := { addr := .null, len := 0, flags := 0, next := 0 }

/-- `struct virtio_blk_req` -/
structure Req where
  type : Nat
  reserved : Nat
  sector : Nat

structure Info (B : Type) where
  b : Option B
  status : Nat

structure Disk (B : Type) where
  desc : Nat → Desc B
  -- `avail->ring` and `avail->idx`
  avail : Nat → Nat
  availIdx : Nat
  -- the ids in `used->ring`, and `used->idx`
  used : Nat → Nat
  deviceIdx : Nat
  free : Nat → Bool
  usedIdx : Nat
  info : Nat → Info B
  ops : Nat → Req

/-- `int idx[3]` -/
structure Idx where
  first : Nat
  second : Nat
  third : Nat
  deriving DecidableEq

inductive Stop
  -- `panic("free_desc 1")`
  | freeDesc1
  -- `panic("free_desc 2")`
  | freeDesc2
  -- `panic("virtio_disk_intr status")`
  | status
  -- a null pointer is followed
  | null
  -- `free_chain` does not end
  | endless
  deriving DecidableEq

namespace Disk

variable {B : Type}

/-- After `virtio_disk_init`. -/
def init : Disk B where
  desc _ := .zero
  avail _ := 0
  availIdx := 0
  used _ := 0
  deviceIdx := 0
  free i := i < num
  usedIdx := 0
  info _ := { b := none, status := 0 }
  ops _ := { type := 0, reserved := 0, sector := 0 }

/-- `none` is `-1`. -/
def allocDesc (d : Disk B) : Option Nat × Disk B :=
  match (List.range num).find? d.free with
  | some i => (some i, { d with free := Function.update d.free i false })
  | none => (none, d)

def freeDesc (i : Nat) (d : Disk B) : Except Stop (Disk B) :=
  if i ≥ num then .error .freeDesc1
  else if d.free i then .error .freeDesc2
  else
    .ok { d with
      desc := Function.update d.desc i .zero
      free := Function.update d.free i true }

def freeChain : (fuel i : Nat) → Disk B → Except Stop (Disk B)
  | 0, _, _ => .error .endless
  | fuel + 1, i, d =>
    let flag := (d.desc i).flags
    let nxt := (d.desc i).next
    do
      let d ← d.freeDesc i
      if flag &&& flagNext ≠ 0 then freeChain fuel nxt d else pure d

/-- The two loops, written out. -/
def alloc3Desc (d : Disk B) : Except Stop (Option Idx × Disk B) :=
  match d.allocDesc with
  | (none, d) => .ok (none, d)
  | (some i, d) =>
    match d.allocDesc with
    | (none, d) => do
      let d ← d.freeDesc i
      pure (none, d)
    | (some j, d) =>
      match d.allocDesc with
      | (none, d) => do
        let d ← d.freeDesc i
        let d ← d.freeDesc j
        pure (none, d)
      | (some k, d) => .ok (some { first := i, second := j, third := k }, d)

/-- `virtio_disk_rw` from the descriptors to the notification of the device. -/
def submit (b : B) (write : Bool) (blockno : Nat) (idx : Idx) (d : Disk B) : Disk B :=
  let buf0 : Req :=
    { type := if write then 1 else 0, reserved := 0, sector := blockno * (bsize / 512) }
  let desc0 : Desc B := { addr := .op idx.first, len := 16, flags := flagNext, next := idx.second }
  let desc1 : Desc B :=
    { addr := .data b
      len := bsize
      flags := (if write then 0 else flagWrite) ||| flagNext
      next := idx.third }
  let desc2 : Desc B := { addr := .status idx.first, len := 1, flags := flagWrite, next := 0 }
  { d with
    ops := Function.update d.ops idx.first buf0
    desc := Function.update (Function.update (Function.update d.desc idx.first desc0)
      idx.second desc1) idx.third desc2
    info := Function.update d.info idx.first { b := some b, status := 255 }
    avail := Function.update d.avail (d.availIdx % num) idx.first
    availIdx := (d.availIdx + 1) % uint16s }

/-- `disk.info[idx[0]].b = 0; free_chain(idx[0])` -/
def finish (idx : Idx) (d : Disk B) : Except Stop (Disk B) :=
  { d with
    info := Function.update d.info idx.first { d.info idx.first with b := none } }.freeChain
      (num + 1) idx.first

/-- Where the chain from `i` on ends. -/
def lastAddr (d : Disk B) : (fuel i : Nat) → Addr B
  | 0, _ => .null
  | fuel + 1, i =>
    if (d.desc i).flags &&& flagNext ≠ 0 then d.lastAddr fuel (d.desc i).next else (d.desc i).addr

/-- The device writes a status of 0. -/
def succeed (d : Disk B) : Addr B → Disk B
  | .status i => { d with info := Function.update d.info i { d.info i with status := 0 } }
  | _ => d

/-- The device adds an entry to the used ring. -/
def report (d : Disk B) (head : Nat) : Disk B :=
  { d with
    used := Function.update d.used (d.deviceIdx % num) head
    deviceIdx := (d.deviceIdx + 1) % uint16s }

/-- `disk.used->ring[disk.used_idx % NUM].id` -/
def id (d : Disk B) : Nat := d.used (d.usedIdx % num)

end Disk

/-- Where a process is. -/
inductive Pc (B : Type)
  | idle
  -- `sleep(&disk.free[0], &disk.vdisk_lock)`
  | alloc (b : B) (write : Bool) (blockno : Nat)
  -- `sleep(b, &disk.vdisk_lock)`
  | wait (b : B) (idx : Idx)

structure State (P B : Type) where
  disk : Disk B
  -- `b->disk`
  owned : B → Bool
  -- who holds `b->lock`
  lock : B → Option P
  pc : P → Pc B
  -- `virtio_disk_intr` is in its loop
  handling : Bool
  -- what the device has seen of the avail ring
  seen : Nat
  -- the requests it is at: the head, and where the status goes
  started : List (Nat × Addr B)
  stopped : Option Stop

inductive Label (P B : Type)
  | acquiresleep (p : P) (b : B)
  | releasesleep (p : P) (b : B)
  | rw (p : P) (b : B) (write : Bool) (blockno : Nat)
  | resume (p : P)
  | intr
  | intrLoop
  -- the device takes a chain
  | start
  -- the device completes one of those it is at
  | complete (k : Nat)

namespace State

variable {P B : Type} [DecidableEq P] [DecidableEq B]

def init : State P B where
  disk := .init
  owned _ := false
  lock _ := none
  pc _ := .idle
  handling := false
  seen := 0
  started := []
  stopped := none

def setPc (s : State P B) (p : P) (pc : Pc B) : State P B :=
  { s with pc := Function.update s.pc p pc }

/-- A panic stops everything. -/
def ended (s : State P B) (result : Except Stop (State P B)) : State P B :=
  match result with
  | .ok s => s
  | .error stop => { s with stopped := some stop }

/-- The loop that allocates, and if it ends, the rest up to the next `sleep`. -/
def tryRw (s : State P B) (p : P) (b : B) (write : Bool) (blockno : Nat) :
    Except Stop (State P B) := do
  let (idx, disk) ← s.disk.alloc3Desc
  match idx with
  | none => pure ({ s with disk := disk }.setPc p (.alloc b write blockno))
  | some idx =>
    pure ({ s with
      disk := disk.submit b write blockno idx
      owned := Function.update s.owned b true }.setPc p (.wait b idx))

/-- A process that has been woken. -/
def wake (s : State P B) (p : P) : Pc B → Except Stop (State P B)
  | .idle => pure s
  | .alloc b write blockno => s.tryRw p b write blockno
  | .wait b idx =>
    if s.owned b then pure s
    else do
      let disk ← s.disk.finish idx
      pure ({ s with disk := disk }.setPc p .idle)

/-- The loop of `virtio_disk_intr`, once. -/
def intrBody (s : State P B) : Except Stop (State P B) :=
  if s.disk.usedIdx = s.disk.deviceIdx then pure { s with handling := false }
  else if (s.disk.info s.disk.id).status ≠ 0 then .error .status
  else
    match (s.disk.info s.disk.id).b with
    | none => .error .null
    | some b =>
      pure { s with
        owned := Function.update s.owned b false
        disk := { s.disk with usedIdx := (s.disk.usedIdx + 1) % uint16s } }

def isIdle (s : State P B) (p : P) : Bool :=
  match s.pc p with
  | .idle => true
  | _ => false

def enabled (s : State P B) : Label P B → Bool
  | .acquiresleep p b => s.isIdle p ∧ s.lock b = none
  | .releasesleep p b => s.isIdle p ∧ s.lock b = some p
  | .rw p b _ _ => s.isIdle p ∧ s.lock b = some p ∧ s.handling = false
  | .resume p => s.isIdle p = false ∧ s.handling = false
  | .intr => s.handling = false
  | .intrLoop => s.handling
  | .start => s.seen ≠ s.disk.availIdx
  | .complete k => k < s.started.length

/-- The device takes the next chain of the avail ring. -/
def begin (s : State P B) : State P B :=
  let head := s.disk.avail (s.seen % num)
  { s with
    started := s.started ++ [(head, s.disk.lastAddr num head)]
    seen := (s.seen + 1) % uint16s }

/-- The device completes the request `x`. -/
def completed (s : State P B) (k : Nat) (x : Nat × Addr B) : State P B :=
  { s with
    disk := (s.disk.succeed x.2).report x.1
    started := s.started.eraseIdx k }

def next (s : State P B) : Label P B → State P B
  | .acquiresleep p b => { s with lock := Function.update s.lock b (some p) }
  | .releasesleep _ b => { s with lock := Function.update s.lock b none }
  | .rw p b write blockno => s.ended (s.tryRw p b write blockno)
  | .resume p => s.ended (s.wake p (s.pc p))
  | .intr => { s with handling := true }
  | .intrLoop => s.ended s.intrBody
  | .start => s.begin
  | .complete k => (s.started[k]?).elim s (s.completed k)

def step (s : State P B) (l : Label P B) : Option (State P B) :=
  if s.stopped = none ∧ s.enabled l then some (s.next l) else none

def exec : State P B → List (Label P B) → Option (State P B) := Transition.exec step

end State

end Sistemas.Xv6.Virtio
