import Xv6.Wp
import Xv6.Params

/-!
# Locks, sleeping, files and inodes

The part of the kernel that never touches user memory: `spinlock.c`,
`sleeplock.c`, `sleep`/`wakeup`, `begin_op`/`end_op` and the files and inodes
of `file.c` and `fs.c`. A system call runs to its end on one CPU. Where the
code would wait for the disk or for another process, an oracle (`waits`) says
whether it has to; all that is kept of the waiting is whether `sched` allows
it. An inode is kept with its contents, so reading it from the disk
(`ip->valid`) changes no byte, and blocks are only counted.
-/

namespace Xv6

open Hoare

abbrev BSIZE : Nat := 1024
abbrev NDIRECT : Nat := 12
abbrev NINDIRECT : Nat := BSIZE / 4
abbrev MAXFILE : Nat := NDIRECT + NINDIRECT
abbrev NFILE : Nat := 100

inductive Lock
  | wait | pid | ftable | itable | log | vdisk | cons | futex | sleep (ip : Nat) | pipe (pi : Nat) | proc (p : Nat)
  deriving DecidableEq, Repr

inductive Chan
  | null | proc (p : Nat) | log | disk | inode (ip : Nat) | nread (pi : Nat) | nwrite (pi : Nat)
  deriving DecidableEq, Repr

inductive ProcState
  | UNUSED | USED | SLEEPING | RUNNABLE | RUNNING | ZOMBIE
  deriving DecidableEq, Repr

structure Run where
  state : ProcState
  chan : Option Chan
  killed : Bool
  xstate : Int
  priority : Nat
  ticks_used : Nat

inductive FdType
  | FD_NONE | FD_PIPE | FD_INODE | FD_DEVICE
  deriving DecidableEq, Repr

structure File where
  type : FdType
  ref : Nat
  readable : Bool
  writable : Bool
  pipe : Nat
  ip : Nat

structure Pipe where
  readopen : Bool
  writeopen : Bool

structure Inode where
  ref : Nat
  locked : Bool
  valid : Bool
  type : Nat
  nlink : Nat
  size : Nat
  data : Nat → UInt8
  /-- Which blocks of the file, and whether its block of addresses, are allocated. -/
  addrs : Nat → Bool
  indirect : Bool

/-- Why a call into this part does not return: a panic, a process that waits
for a lock of its own, or one that waits for another process. -/
inductive SysStop
  | acquire | release | schedLocks | filedup | fileclose | ilock | ilockType | iunlock | bmap | logCommitting | logOutside
  | initExiting | deadlock | blocked
  deriving DecidableEq, Repr

structure Sys where
  /-- The spinlocks this CPU holds; their number is `noff`. -/
  held : List Lock
  cur : Nat
  run : Nat → Run
  outstanding : Nat
  committing : Bool
  file : Nat → File
  inode : Nat → Inode
  pipe : Nat → Pipe
  bfree : Nat
  waits : Nat → Bool
  nwait : Nat
  nextpid : Nat
  initproc : Nat

abbrev F := Prog Sys SysStop

/-! ## Spinlocks, `sleep` and `wakeup` -/

def acquire (lk : Lock) : F Unit := do
  let s ← get
  if lk ∈ s.held then throw .acquire else set { s with held := lk :: s.held }

def release (lk : Lock) : F Unit := do
  let s ← get
  if lk ∈ s.held then set { s with held := s.held.erase lk } else throw .release

def Sys.setRun (s : Sys) (p : Nat) (f : Run → Run) : Sys :=
  { s with run := Function.update s.run p (f (s.run p)) }

def sched : F Unit := do
  let s ← get
  if s.held.length ≠ 1 then throw .schedLocks else return ()

def sleep (chan : Chan) (lk : Lock) : F Unit := do
  let s ← get
  acquire (.proc s.cur)
  release lk
  modify fun t => t.setRun s.cur fun r => { r with chan := some chan, state := .SLEEPING }
  sched
  -- back here once woken up and scheduled
  modify fun t => t.setRun s.cur fun r => { r with chan := none, state := .RUNNING }
  release (.proc s.cur)
  acquire lk

def Run.wake (chan : Chan) (r : Run) : Run :=
  if r.state = .SLEEPING ∧ r.chan = some chan then { r with state := .RUNNABLE, priority := 0, ticks_used := 0 } else r

def wakeOne (chan : Chan) (p : Nat) : F Unit := do
  let s ← get
  if p = s.cur then return ()
  else
    acquire (.proc p)
    modify fun t => t.setRun p (Run.wake chan)
    release (.proc p)

def wakeup (chan : Chan) : F Unit := forN (wakeOne chan) NPROC

/-- Does the code have to wait here? -/
def mustWait : F Bool := do
  let s ← get
  set { s with nwait := s.nwait + 1 }
  return s.waits s.nwait

/-- A block read or written; the caller sleeps until the disk is done. -/
def disk : F Unit := do
  if ← mustWait then
    acquire .vdisk
    sleep .disk .vdisk
    release .vdisk

/-! ## The gate of the log -/

def begin_op : F Unit := do
  acquire .log
  let full ← mustWait
  let s ← get
  if s.committing ∨ full then
    sleep .log .log
    modify fun t => { t with committing := false }
  modify fun t => { t with outstanding := t.outstanding + 1 }
  release .log

def end_op : F Unit := do
  acquire .log
  modify fun t => { t with outstanding := t.outstanding - 1 }
  let s ← get
  if s.committing then throw .logCommitting
  else if s.outstanding = 0 then
    set { s with committing := true }
    release .log
    -- commit()
    disk
    acquire .log
    modify fun t => { t with committing := false }
    wakeup .log
    release .log
  else
    wakeup .log
    release .log

/-! ## Inodes -/

def Sys.setInode (s : Sys) (ip : Nat) (f : Inode → Inode) : Sys :=
  { s with inode := Function.update s.inode ip (f (s.inode ip)) }

def contended (shared : Bool) : F Bool := if shared then mustWait else return false

/-- `acquiresleep` of an inode's lock, which other processes may hold or not. -/
def acquiresleep (ip : Nat) (shared : Bool) : F Unit := do
  acquire (.sleep ip)
  let wait ← contended shared
  let s ← get
  if (s.inode ip).locked then
    -- the holder is this process itself, which will not let go
    sleep (.inode ip) (.sleep ip)
    throw .deadlock
  else if wait then
    sleep (.inode ip) (.sleep ip)
    modify fun t => t.setInode ip fun i => { i with locked := true }
    release (.sleep ip)
  else
    modify fun t => t.setInode ip fun i => { i with locked := true }
    release (.sleep ip)

def releasesleep (ip : Nat) : F Unit := do
  acquire (.sleep ip)
  modify fun t => t.setInode ip fun i => { i with locked := false }
  wakeup (.inode ip)
  release (.sleep ip)

def holdingsleep (ip : Nat) : F Bool := do
  acquire (.sleep ip)
  let s ← get
  release (.sleep ip)
  return (s.inode ip).locked

def iget (ip : Nat) : F Unit := do
  acquire .itable
  modify fun t => t.setInode ip fun i =>
    { i with ref := i.ref + 1, valid := if 0 < i.ref then i.valid else false }
  release .itable

def idup (ip : Nat) : F Unit := do
  acquire .itable
  modify fun t => t.setInode ip fun i => { i with ref := i.ref + 1 }
  release .itable

def ilock (ip : Nat) : F Unit := do
  let s ← get
  if (s.inode ip).ref < 1 then throw .ilock
  else
    acquiresleep ip true
    let s ← get
    if (s.inode ip).valid then return ()
    else
      disk
      modify fun t => t.setInode ip fun i => { i with valid := true }
      let s ← get
      if (s.inode ip).type = 0 then throw .ilockType else return ()

def iunlock (ip : Nat) : F Unit := do
  let mine ← holdingsleep ip
  let s ← get
  if mine ∧ 1 ≤ (s.inode ip).ref then releasesleep ip else throw .iunlock

def Inode.blocks (i : Inode) : Nat := (List.range MAXFILE).countP i.addrs + (if i.indirect then 1 else 0)

def itrunc (ip : Nat) : F Unit := do
  disk
  modify fun t => { t.setInode ip fun i =>
    { i with size := 0, data := fun _ => 0, addrs := fun _ => false, indirect := false } with
    bfree := t.bfree + (t.inode ip).blocks }

def iput (ip : Nat) : F Unit := do
  acquire .itable
  let s ← get
  let i := s.inode ip
  if i.ref = 1 ∧ i.valid ∧ i.nlink = 0 then
    -- with one reference left nobody else has the inode locked
    acquiresleep ip false
    release .itable
    itrunc ip
    modify fun t => t.setInode ip fun i => { i with type := 0 }
    disk
    modify fun t => t.setInode ip fun i => { i with valid := false }
    releasesleep ip
    acquire .itable
  modify fun t => t.setInode ip fun i => { i with ref := i.ref - 1 }
  release .itable

def putInode (ip : Nat) : F Unit := do
  begin_op
  iput ip
  end_op

/-- A block, filled with zeroes by `balloc`, becomes block `bn` of the file. -/
def Inode.addBlock (i : Inode) (bn : Nat) : Inode :=
  { i with addrs := Function.update i.addrs bn true, data := fun x => if x / BSIZE = bn then 0 else i.data x }

def balloc : F Bool := do
  let s ← get
  disk
  if s.bfree = 0 then return false
  -- `log_write` of the block with the bit
  else if s.outstanding < 1 then throw .logOutside
  else
    modify fun t => { t with bfree := t.bfree - 1 }
    return true

def mapBlock (ip bn : Nat) : F Bool := do
  let s ← get
  if (s.inode ip).addrs bn then return true
  else if ← balloc then
    modify fun t => t.setInode ip fun i => i.addBlock bn
    return true
  else return false

def mapIndirect (ip : Nat) : F Bool := do
  let s ← get
  if (s.inode ip).indirect then return true
  else if ← balloc then
    modify fun t => t.setInode ip fun i => { i with indirect := true }
    return true
  else return false

/-- `bmap`: does block `bn` of the file exist, or can it be allocated? -/
def bmap (ip bn : Nat) : F Bool := do
  if bn < NDIRECT then mapBlock ip bn
  else if bn < MAXFILE then
    if ← mapIndirect ip then
      disk
      mapBlock ip bn
    else return false
  else throw .bmap

def readLoop (ip : Nat) : Nat → Nat → Nat → F (List UInt8)
  | 0, _, _ => return []
  | fuel + 1, off, n => do
    if n = 0 then return []
    else if ← bmap ip (off / BSIZE) then
      disk
      let s ← get
      let m := min n (BSIZE - off % BSIZE)
      let rest ← readLoop ip fuel (off + m) (n - m)
      return (List.range m).map (fun j => (s.inode ip).data (off + j)) ++ rest
    else return []

/-- `readi` into kernel memory: the bytes read. `off` and `n` are `uint`s. -/
def readi (ip off n : Nat) : F (List UInt8) := do
  let s ← get
  let size := (s.inode ip).size
  if size < off ∨ (off + n) % 2 ^ 32 < off then return []
  else readLoop ip n off (if size < (off + n) % 2 ^ 32 then size - off else n)

/-! ## Files -/

def Sys.setFile (s : Sys) (f : Nat) (g : File → File) : Sys :=
  { s with file := Function.update s.file f (g (s.file f)) }

def filealloc : F (Option Nat) := do
  acquire .ftable
  let r ← search (fun f => do
    let s ← get
    if (s.file f).ref = 0 then
      set (s.setFile f fun x => { x with ref := 1 })
      return some f
    else return none) 0 NFILE
  release .ftable
  return r

def filedup (f : Nat) : F Unit := do
  acquire .ftable
  let s ← get
  if (s.file f).ref < 1 then throw .filedup
  else
    set (s.setFile f fun x => { x with ref := x.ref + 1 })
    release .ftable

/-- The first half of `fileclose`: what is left to close after the last reference is gone. -/
def filedrop (f : Nat) : F (Option File) := do
  acquire .ftable
  let s ← get
  if (s.file f).ref < 1 then throw .fileclose
  else if 1 < (s.file f).ref then
    set (s.setFile f fun x => { x with ref := x.ref - 1 })
    release .ftable
    return none
  else
    set (s.setFile f fun x => { x with ref := 0, type := .FD_NONE })
    release .ftable
    return some (s.file f)

end Xv6
