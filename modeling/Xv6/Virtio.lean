import Xv6.Monitor

/-!
# The disk driver

`virtio_disk_rw` and `virtio_disk_intr` as programs of processes that share
the queue and its lock `disk.vdisk_lock`, with each write that the device can
see between two points. The device takes no lock: its three steps can come
between any two steps of the driver. A caller holds `b->lock`, as those of
`bread` and `bwrite` do.
-/

namespace Xv6

open Function

abbrev NUM : Nat := 8

abbrev VRING_DESC_F_NEXT : Nat := 1
abbrev VRING_DESC_F_WRITE : Nat := 2

/-- The addresses in descriptors: `&disk.ops[i]`, `b->data` and `&disk.info[i].status`. -/
inductive DmaAddr
  | null
  | op (i : Nat)
  | data (b : Nat)
  | status (i : Nat)
  deriving DecidableEq

structure VirtqDesc where
  addr : DmaAddr
  len : Nat
  flags : Nat
  next : Nat
  deriving DecidableEq

inductive BlkType
  | IN
  | OUT
  deriving DecidableEq

structure BlkReq where
  type : BlkType
  reserved : Nat
  sector : Nat
  deriving DecidableEq

/-- What the device makes of a chain. -/
structure Transfer where
  type : BlkType
  sector : Nat
  b : Nat
  deriving DecidableEq

/-- The avail ring and the used ring, how far the driver has come in the one and the device in the other, and what the
device is at work on. The fields after `publishing` are history and read by nobody: the heads submitted and how many the
device took, the heads published and how many of these the driver has seen. -/
structure Rings where
  avail_ring : Nat → Nat
  avail_idx : Nat
  used_ring : Nat → Nat
  used_ring_idx : Nat
  used_idx : Nat
  last : Nat
  /-- The heads it took and is at work on, and their numbers. -/
  taken : List (Nat × Nat)
  publishing : Option Nat
  subs : List Nat
  took : Nat
  published : List Nat
  acks : Nat

/-- `struct disk`, and the fields `disk` and `lock` of the buffers. `fin` and `owner` are history: the transfers made,
each with the number of its submission, and which process holds a descriptor. -/
structure DiskData where
  desc : Nat → VirtqDesc
  rings : Rings
  free : Nat → Bool
  info_b : Nat → Option Nat
  info_status : Nat → Nat
  ops : Nat → BlkReq
  disk : Nat → Bool
  lock : Nat → Option Nat
  fin : List (Nat × Transfer)
  owner : Nat → Option Nat

inductive DiskChan
  | free
  | buf (b : Nat)
  deriving DecidableEq

structure RwArgs where
  b : Nat
  blockno : Nat
  write : Bool

structure Triple where
  idx0 : Nat
  idx1 : Nat
  idx2 : Nat

inductive DiskPanic
  | free_desc1
  | free_desc2
  | status
  | null

/-- `t` is history, the number of the submission, and so is `rest`, the descriptors of the chain after this one. -/
inductive DiskPc
  | out (r : Option (Nat × Transfer))
  | bget (a : RwArgs)
  | start (a : RwArgs)
  | alloc (a : RwArgs) (idx : List Nat)
  | undo (a : RwArgs) (i : Nat) (rest : List Nat)
  | undoWake (a : RwArgs) (rest : List Nat)
  | wait (a : RwArgs)
  | format0 (a : RwArgs) (idx : Triple)
  | format1 (a : RwArgs) (idx : Triple)
  | format2 (a : RwArgs) (idx : Triple)
  | record (a : RwArgs) (idx : Triple)
  | ring (a : RwArgs) (idx : Triple)
  | submit (a : RwArgs) (idx : Triple)
  | waiting (a : RwArgs) (idx : Triple) (t : Nat)
  | doze (a : RwArgs) (idx : Triple) (t : Nat)
  | dozed (a : RwArgs) (idx : Triple) (t : Nat)
  | clear (a : RwArgs) (idx : Triple) (t : Nat)
  | freeDesc (a : RwArgs) (t : Nat) (i : Nat) (rest : List Nat)
  | freeWake (a : RwArgs) (t : Nat) (flag nxt : Nat) (rest : List Nat)
  | unlock (a : RwArgs) (t : Nat)
  | brelse (a : RwArgs) (t : Nat)
  | intr
  | intrLoop
  | intrGet
  | intrWake (b : Nat)
  | intrNext
  | intrDone
  | devTake
  | devDo (j : Nat)
  | devPublish
  | panicked (m : DiskPanic)

def RwArgs.type (a : RwArgs) : BlkType := if a.write then .OUT else .IN

def RwArgs.sector (a : RwArgs) : Nat := a.blockno * 2 % 2 ^ 32

def RwArgs.transfer (a : RwArgs) : Transfer := ⟨a.type, a.sector, a.b⟩

def VirtqDesc.zero : VirtqDesc := ⟨.null, 0, 0, 0⟩

def VirtqDesc.has (x : VirtqDesc) (flag : Nat) : Bool := x.flags &&& flag != 0

namespace Rings

def init : Rings where
  avail_ring := fun _ => 0
  avail_idx := 0
  used_ring := fun _ => 0
  used_ring_idx := 0
  used_idx := 0
  last := 0
  taken := []
  publishing := none
  subs := []
  took := 0
  published := []
  acks := 0

/-- `disk.avail->ring[disk.avail->idx % NUM] = h` -/
def put (r : Rings) (h : Nat) : Rings := { r with avail_ring := update r.avail_ring (r.avail_idx % NUM) h }

/-- `disk.avail->idx += 1`, after `put h`. -/
def submit (r : Rings) (h : Nat) : Rings := { r with avail_idx := (r.avail_idx + 1) % 2 ^ 16, subs := r.subs ++ [h] }

def ack (r : Rings) : Rings := { r with used_idx := (r.used_idx + 1) % 2 ^ 16, acks := r.acks + 1 }

def take (r : Rings) : Rings :=
  if r.last = r.avail_idx then r
  else { r with
    last := (r.last + 1) % 2 ^ 16
    taken := r.taken ++ [(r.avail_ring (r.last % NUM), r.took)]
    took := r.took + 1 }

def finish (r : Rings) (j h : Nat) : Rings := { r with
  taken := r.taken.eraseIdx j
  used_ring := update r.used_ring (r.used_ring_idx % NUM) h
  publishing := some h }

def publish (r : Rings) : Rings :=
  match r.publishing with
  | none => r
  | some h => { r with
      used_ring_idx := (r.used_ring_idx + 1) % 2 ^ 16
      publishing := none
      published := r.published ++ [h] }

end Rings

namespace DiskData

def init : DiskData where
  desc := fun _ => .zero
  rings := .init
  free := fun i => decide (i < NUM)
  info_b := fun _ => none
  info_status := fun _ => 0
  ops := fun _ => ⟨.IN, 0, 0⟩
  disk := fun _ => false
  lock := fun _ => none
  fin := []
  owner := fun _ => none

def alloc_desc (d : DiskData) : Option Nat := (List.range NUM).find? fun i => d.free i

def grab (d : DiskData) (p i : Nat) : DiskData :=
  { d with free := update d.free i false, owner := update d.owner i (some p) }

/-- `free_desc` without its checks and its `wakeup`. -/
def drop (d : DiskData) (i : Nat) : DiskData :=
  { d with
    desc := update d.desc i .zero
    free := update d.free i true
    owner := update d.owner i none }

def free_desc (d : DiskData) (i : Nat) (k : DiskPc) : DiskData × DiskPc :=
  if NUM ≤ i then (d, .panicked .free_desc1) else if d.free i then (d, .panicked .free_desc2) else (d.drop i, k)

def setDesc (d : DiskData) (i : Nat) (x : VirtqDesc) : DiskData := { d with desc := update d.desc i x }

/-- The device's reading of the chain that starts at `h`, and where it will write the status. -/
def transfer (d : DiskData) (h : Nat) : Option (Transfer × Nat) :=
  let d0 := d.desc h
  let d1 := d.desc d0.next
  let d2 := d.desc d1.next
  match d0.addr, d1.addr, d2.addr with
  | .op i, .data b, .status j =>
    if d0.has VRING_DESC_F_NEXT ∧ d1.has VRING_DESC_F_NEXT ∧ ¬ d2.has VRING_DESC_F_NEXT ∧ d2.has VRING_DESC_F_WRITE ∧
        (d1.has VRING_DESC_F_WRITE ↔ (d.ops i).type = .IN) then
      some (⟨(d.ops i).type, (d.ops i).sector, b⟩, j)
    else none
  | _, _, _ => none

/-- The device makes the transfer of the `j`th of those it is at work on, writes the status and an entry of the used
ring, one at a time. -/
def devDo (d : DiskData) (j : Nat) : DiskData :=
  match d.rings.publishing, d.rings.taken[j]? with
  | none, some (h, t) =>
    match d.transfer h with
    | none => d
    | some (x, i) => { d with
        rings := d.rings.finish j h
        info_status := update d.info_status i 0
        fin := d.fin ++ [(t, x)] }
  | _, _ => d

end DiskData

def undone (a : RwArgs) : List Nat → DiskPc
  | [] => .wait a
  | i :: rest => .undo a i rest

def allocated (a : RwArgs) (idx : List Nat) (i : Nat) : DiskPc :=
  match idx with
  | [x, y] => .format0 a ⟨x, y, i⟩
  | _ => .alloc a (idx ++ [i])

/-- The C text from one point to the next. -/
def diskCode : DiskPc → Monitor.Op DiskData DiskPc DiskChan
  | .out _ => .idle
  | .bget a => .act fun p d =>
      if d.lock a.b = none then ({ d with lock := update d.lock a.b (some p) }, .start a) else (d, .bget a)
  -- virtio_disk_rw
  | .start a => .acquire (.alloc a [])
  | .alloc a idx => .act fun p d =>
      match d.alloc_desc with
      | none => (d, undone a idx)
      | some i => (d.grab p i, allocated a idx i)
  | .undo a i rest => .act fun _ d => d.free_desc i (.undoWake a rest)
  | .undoWake a rest => .wakeup .free (undone a rest)
  | .wait a => .sleep .free (.start a)
  | .format0 a idx => .act fun _ d =>
      ({ d.setDesc idx.idx0 ⟨.op idx.idx0, 16, VRING_DESC_F_NEXT, idx.idx1⟩ with
          ops := update d.ops idx.idx0 ⟨a.type, 0, a.sector⟩ }, .format1 a idx)
  | .format1 a idx => .act fun _ d =>
      (d.setDesc idx.idx1
        ⟨.data a.b, 1024, (if a.write then 0 else VRING_DESC_F_WRITE) ||| VRING_DESC_F_NEXT, idx.idx2⟩, .format2 a idx)
  | .format2 a idx => .act fun _ d =>
      ({ d.setDesc idx.idx2 ⟨.status idx.idx0, 1, VRING_DESC_F_WRITE, 0⟩ with
          info_status := update d.info_status idx.idx0 0xff }, .record a idx)
  | .record a idx => .act fun _ d =>
      ({ d with
          disk := update d.disk a.b true
          info_b := update d.info_b idx.idx0 (some a.b) }, .ring a idx)
  | .ring a idx => .act fun _ d =>
      ({ d with rings := d.rings.put idx.idx0 }, .submit a idx)
  | .submit a idx => .act fun _ d =>
      ({ d with rings := d.rings.submit idx.idx0 }, .waiting a idx d.rings.subs.length)
  | .waiting a idx t => .act fun _ d => (d, if d.disk a.b = true then .doze a idx t else .clear a idx t)
  | .doze a idx t => .sleep (.buf a.b) (.dozed a idx t)
  | .dozed a idx t => .acquire (.waiting a idx t)
  | .clear a idx t => .act fun _ d =>
      ({ d with info_b := update d.info_b idx.idx0 none }, .freeDesc a t idx.idx0 [idx.idx1, idx.idx2])
  | .freeDesc a t i rest => .act fun _ d => d.free_desc i (.freeWake a t (d.desc i).flags (d.desc i).next rest)
  | .freeWake a t flag nxt rest =>
      .wakeup .free (if flag &&& VRING_DESC_F_NEXT ≠ 0 then .freeDesc a t nxt rest.tail else .unlock a t)
  | .unlock a t => .release (.brelse a t)
  | .brelse a t => .act fun _ d => ({ d with lock := update d.lock a.b none }, .out (some (t, a.transfer)))
  -- virtio_disk_intr
  | .intr => .acquire .intrLoop
  | .intrLoop => .act fun _ d => (d, if d.rings.used_idx ≠ d.rings.used_ring_idx then .intrGet else .intrDone)
  | .intrGet => .act fun _ d =>
      let id := d.rings.used_ring (d.rings.used_idx % NUM)
      if d.info_status id ≠ 0 then (d, .panicked .status)
      else match d.info_b id with
        | none => (d, .panicked .null)
        | some b => ({ d with disk := update d.disk b false }, .intrWake b)
  | .intrWake b => .wakeup (.buf b) .intrNext
  | .intrNext => .act fun _ d => ({ d with rings := d.rings.ack }, .intrLoop)
  | .intrDone => .release (.out none)
  -- the device
  | .devTake => .act fun _ d => ({ d with rings := d.rings.take }, .out none)
  | .devDo j => .act fun _ d => (d.devDo j, .out none)
  | .devPublish => .act fun _ d => ({ d with rings := d.rings.publish }, .out none)
  | .panicked m => .act fun _ d => (d, .panicked m)

/-- Where an idle process may start: a call, an interrupt, or a step of the device. -/
def DiskPc.isCall : DiskPc → Bool
  | .bget _ | .intr | .devTake | .devDo _ | .devPublish => true
  | _ => false

abbrev DiskSys : Type := Monitor.Sys DiskData DiskPc DiskChan

abbrev DiskEvent : Type := Monitor.Event DiskPc

abbrev diskRun (n : Nat) : DiskEvent → Hoare.Prog DiskSys Empty Unit := Monitor.Event.run n diskCode DiskPc.isCall

abbrev diskBoot : DiskSys := Monitor.Sys.boot DiskData.init (.out none)

end Xv6
