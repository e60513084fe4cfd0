import Xv6.Itable
import Xv6.Bio
import Xv6.Fault

/-!
# The file system: blocks and inodes

`fs.c` below the directories, as one process after the other runs it. The
disk is its free bitmap, its inodes and its other blocks; what is read and
written goes through the buffer cache and the log, so it is always what was
written last. `log_write` is that of the log, with the number of the block.
Blocks below `nmeta` are the boot block, the super block, the log, the inodes
and the bitmap itself.
-/

namespace Xv6

open Hoare Function

structure Super where
  size : Nat
  inodestart : Nat
  bmapstart : Nat
  nmeta : Nat
deriving DecidableEq

abbrev IPB : Nat := 16
abbrev BPB : Nat := 8192

/-- Block of the inode table with inode `i`. -/
def IBLOCK (i : Nat) (sb : Super) : Nat := i / IPB + sb.inodestart

/-- Block of the free bitmap with the bit of block `b`. -/
def BBLOCK (b : Nat) (sb : Super) : Nat := b / BPB + sb.bmapstart

structure Disk where
  used : Nat → Bool
  dinode : Nat → Dinode
  block : Nat → Block

/-- The panics, and a process that waits for itself. -/
inductive VolStop
  | freeingFree | igetNoInodes | ilock | ilockNoType | iunlock | bmap | schedLocks | deadlock
  | dirlookupNotDir | dirlookupRead | null
  | log (e : LogStop)
deriving DecidableEq

def Dinode.withAddrs (d : Dinode) (addrs : Nat → Nat) : Dinode := { d with addrs := addrs }

def Dinode.withSize (d : Dinode) (size : Nat) : Dinode := { d with size := size }

def Dinode.withType (d : Dinode) (type : IType) : Dinode := { d with type := type }

def Dinode.withNlink (d : Dinode) (nlink : Int) : Dinode := { d with nlink := nlink }

def Dinode.setAddr (d : Dinode) (n a : Nat) : Dinode := d.withAddrs (update d.addrs n a)

structure VInode where
  inum : Nat
  ref : Nat
  lock : Bool
  valid : Bool
  copy : Dinode

def VInode.withCopy (x : VInode) (d : Dinode) : VInode := { x with copy := d }

def VInode.withRef (x : VInode) (ref : Nat) : VInode := { x with ref := ref }

def VInode.withLock (x : VInode) (lock : Bool) : VInode := { x with lock := lock }

def VInode.withValid (x : VInode) (valid : Bool) : VInode := { x with valid := valid }

def VInode.recycle (x : VInode) (inum : Nat) : VInode := { x with inum := inum, ref := 1, valid := false }

structure Vol where
  sb : Super
  disk : Disk
  inode : Nat → VInode
  log : Log
  /-- The current directory of each process. -/
  cwd : Nat → Option Nat

namespace Vol

def setInode (v : Vol) (ip : Nat) (x : VInode) : Vol := { v with inode := update v.inode ip x }

def setCopy (v : Vol) (ip : Nat) (d : Dinode) : Vol := v.setInode ip ((v.inode ip).withCopy d)

def setUsed (v : Vol) (b : Nat) (u : Bool) : Vol := { v with disk := { v.disk with used := update v.disk.used b u } }

def setBlock (v : Vol) (b : Nat) (d : Block) : Vol :=
  { v with disk := { v.disk with block := update v.disk.block b d } }

def setDinode (v : Vol) (inum : Nat) (d : Dinode) : Vol :=
  { v with disk := { v.disk with dinode := update v.disk.dinode inum d } }

def onLog {α : Type} (x : Prog Log LogStop α) : Prog Vol VolStop α :=
  zoom (fun v => v.log) (fun v l => { v with log := l }) .log x

def begin_op : Prog Vol VolStop Unit := do
  if ← onLog Log.begin_op then return () else throw .deadlock

def log_write (b : Nat) : Prog Vol VolStop Unit := onLog (Log.log_write b)

/-- The first free block, marked and zeroed; 0 when there is none. -/
def balloc : Prog Vol VolStop Nat := do
  let v ← get
  match (List.range v.sb.size).find? fun b => !v.disk.used b with
  | some b =>
    modify fun v => v.setUsed b true
    log_write (BBLOCK b v.sb)
    modify fun v => v.setBlock b fun _ => 0
    log_write b
    return b
  | none => return 0

def bfree (b : Nat) : Prog Vol VolStop Unit := do
  let v ← get
  if v.disk.used b = false then throw .freeingFree
  else
    modify fun v => v.setUsed b false
    log_write (BBLOCK b v.sb)

/-! ## Inodes -/

def iupdate (ip : Nat) : Prog Vol VolStop Unit := do
  let v ← get
  set (v.setDinode (v.inode ip).inum (v.inode ip).copy)
  log_write (IBLOCK (v.inode ip).inum v.sb)

def iget (inum : Nat) : Prog Vol VolStop Nat := do
  let v ← get
  match (List.range NINODE).find? fun i => 0 < (v.inode i).ref ∧ (v.inode i).inum = inum with
  | some i =>
    set (v.setInode i ((v.inode i).withRef ((v.inode i).ref + 1)))
    return i
  | none =>
    match (List.range NINODE).find? fun i => (v.inode i).ref = 0 with
    | some i =>
      set (v.setInode i ((v.inode i).recycle inum))
      return i
    | none => throw .igetNoInodes

def idup (ip : Nat) : Prog Vol VolStop Nat := do
  modify fun v => v.setInode ip ((v.inode ip).withRef ((v.inode ip).ref + 1))
  return ip

def ilock (ip : Nat) : Prog Vol VolStop Unit := do
  let v ← get
  let x := v.inode ip
  if x.ref < 1 then throw .ilock
  else if x.lock then throw .deadlock
  else if x.valid then set (v.setInode ip (x.withLock true))
  else
    let d := v.disk.dinode x.inum
    set (v.setInode ip (((x.withLock true).withCopy d).withValid true))
    if d.type = .T_NONE then throw .ilockNoType

def iunlock (ip : Nat) : Prog Vol VolStop Unit := do
  let v ← get
  let x := v.inode ip
  if x.lock = false ∨ x.ref < 1 then throw .iunlock
  else set (v.setInode ip (x.withLock false))

/-! ## Contents -/

def word (d : Block) (j : Nat) : Nat :=
  (d (4 * j)).toNat + 256 * (d (4 * j + 1)).toNat + 65536 * (d (4 * j + 2)).toNat + 16777216 * (d (4 * j + 3)).toNat

def bmapAddr (ip n : Nat) : Prog Vol VolStop Nat := do
  let v ← get
  let d := (v.inode ip).copy
  if d.addrs n = 0 then
    let addr ← balloc
    if addr ≠ 0 then modify fun v => v.setCopy ip (d.setAddr n addr)
    return addr
  else return d.addrs n

def bmapEntry (a j : Nat) : Prog Vol VolStop Nat := do
  let v ← get
  let bp := v.disk.block a
  if word bp j = 0 then
    let addr ← balloc
    if addr ≠ 0 then
      modify fun v => v.setBlock a (putInt bp (4 * j) addr)
      log_write a
    return addr
  else return word bp j

def bmap (ip bn : Nat) : Prog Vol VolStop Nat := do
  if bn < NDIRECT then bmapAddr ip bn
  else if bn - NDIRECT < NINDIRECT then
    let addr ← bmapAddr ip NDIRECT
    if addr = 0 then return 0 else bmapEntry addr (bn - NDIRECT)
  else throw .bmap

def itrunc (ip : Nat) : Prog Vol VolStop Unit := do
  forN (fun i => do
    let v ← get
    let d := (v.inode ip).copy
    if d.addrs i ≠ 0 then
      bfree (d.addrs i)
      modify fun v => v.setCopy ip (d.setAddr i 0)) NDIRECT
  let v ← get
  let d := (v.inode ip).copy
  if d.addrs NDIRECT ≠ 0 then
    let a := v.disk.block (d.addrs NDIRECT)
    forN (fun j => if word a j ≠ 0 then bfree (word a j) else pure ()) NINDIRECT
    bfree (d.addrs NDIRECT)
    modify fun v => v.setCopy ip (d.setAddr NDIRECT 0)
  modify fun v => v.setCopy ip ((v.inode ip).copy.withSize 0)
  iupdate ip

/-- The inode has no links and no other references: truncate and free. -/
def ifree (ip : Nat) : Prog Vol VolStop Unit := do
  modify fun v => v.setInode ip ((v.inode ip).withLock true)
  itrunc ip
  modify fun v => v.setCopy ip ((v.inode ip).copy.withType .T_NONE)
  iupdate ip
  modify fun v => v.setInode ip (((v.inode ip).withValid false).withLock false)

def iput (ip : Nat) : Prog Vol VolStop Unit := do
  let v ← get
  let x := v.inode ip
  if x.ref = 1 ∧ x.valid = true ∧ x.copy.nlink = 0 then
    -- acquiresleep with itable.lock held
    if x.lock then throw .schedLocks
    else ifree ip
  modify fun v => v.setInode ip ((v.inode ip).withRef ((v.inode ip).ref - 1))

def iunlockput (ip : Nat) : Prog Vol VolStop Unit := do
  iunlock ip
  iput ip

def addWraps (off n : Nat) : Bool := (off + n) % 4294967296 < off

/-- The loop of `readi`: the bytes and their number, or -1. `fails tot` says that `either_copyout` of the bytes from `tot`
on fails. -/
def readLoop (fails : Nat → Bool) (ip n : Nat) : Nat → Nat → Nat → List UInt8 → Prog Vol VolStop (Int × List UInt8)
  | 0, _, tot, bytes => return (tot, bytes)
  | fuel + 1, off, tot, bytes =>
    if tot < n then do
      let addr ← bmap ip (off / BSIZE)
      if addr = 0 then return (tot, bytes)
      else
        let v ← get
        let m := min (n - tot) (BSIZE - off % BSIZE)
        if fails tot then return (-1, bytes)
        else
          readLoop fails ip n fuel (off + m) (tot + m)
            (bytes ++ (List.range m).map fun i => v.disk.block addr (off % BSIZE + i))
    else return (tot, bytes)

def readi (fails : Nat → Bool) (ip off n : Nat) : Prog Vol VolStop (Int × List UInt8) := do
  let v ← get
  let size := (v.inode ip).copy.size
  if size < off ∨ addWraps off n then return (0, [])
  else
    let n := if size < off + n then size - off else n
    readLoop fails ip n (n / BSIZE + 2) off 0 []

/-- `either_copyin` of `m` bytes to byte `o` of a block: it stops at the first byte it cannot read. -/
def copyIn (d : Block) (o m : Nat) (src : Nat → Option UInt8) : Block × Bool :=
  let k := ((List.range m).find? fun i => (src i).isNone).getD m
  (fun j => if o ≤ j ∧ j < o + k then (src (j - o)).getD 0 else d j, k == m)

/-- The loop of `writei`: the end of what was written, and the number of bytes. A buffer that `either_copyin` fails on is
changed in the cache, but not logged; `cached` tells which of the two the blocks of the state are. -/
def writeLoop (cached : Bool) (src : Nat → Option UInt8) (ip n : Nat) : Nat → Nat → Nat → Prog Vol VolStop (Nat × Nat)
  | 0, off, tot => return (off, tot)
  | fuel + 1, off, tot =>
    if tot < n then do
      let addr ← bmap ip (off / BSIZE)
      if addr = 0 then return (off, tot)
      else
        let v ← get
        let m := min (n - tot) (BSIZE - off % BSIZE)
        let c := copyIn (v.disk.block addr) (off % BSIZE) m fun i => src (tot + i)
        if c.2 = false then
          if cached then set (v.setBlock addr c.1)
          return (off, tot)
        else
          set (v.setBlock addr c.1)
          log_write addr
          writeLoop cached src ip n fuel (off + m) (tot + m)
    else return (off, tot)

def writeBlocks (cached : Bool) (src : Nat → Option UInt8) (ip off n : Nat) : Prog Vol VolStop Int := do
  let v ← get
  if (v.inode ip).copy.size < off ∨ addWraps off n then return -1
  else if MAXFILE * BSIZE < off + n then return -1
  else
    let (off, tot) ← writeLoop cached src ip n (n / BSIZE + 2) off 0
    let v ← get
    let d := (v.inode ip).copy
    if d.size < off then set (v.setCopy ip (d.withSize off))
    iupdate ip
    return tot

def writei (src : Nat → Option UInt8) (ip off n : Nat) : Prog Vol VolStop Int := writeBlocks true src ip off n

end Vol

end Xv6
