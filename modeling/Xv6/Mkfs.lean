import Xv6.VolDir

/-!
# mkfs

The program that makes the image, on the image's bytes, and how the kernel
reads such an image: the super block, the inodes and the bitmap where the
super block says that they are. The input files are those that can be opened;
a failed assertion and `die` stop the program.
-/

namespace Xv6

open Hoare Vol

abbrev FSSIZE : Nat := 2000
abbrev NINODES : Nat := 200
abbrev FSMAGIC : Nat := 0x10203040

/-! ## Little endian -/

def byteOf (w j : Nat) : UInt8 := UInt8.ofNat (w / 256 ^ j)

def half (b : Block) (o : Nat) : Nat := (b o).toNat + 256 * (b (o + 1)).toNat

def ushort (n : Int) : Nat := (n % 65536).toNat

def IType.num : IType → Nat
  | .T_NONE => 0
  | .T_DIR => 1
  | .T_FILE => 2
  | .T_DEVICE => 3

def IType.ofNum (n : Nat) : IType :=
  if n = 1 then .T_DIR else if n = 2 then .T_FILE else if n = 3 then .T_DEVICE else .T_NONE

def Dinode.byte (d : Dinode) (r : Nat) : UInt8 :=
  if r < 2 then byteOf d.type.num r
  else if r < 4 then byteOf (ushort d.major) (r - 2)
  else if r < 6 then byteOf (ushort d.minor) (r - 4)
  else if r < 8 then byteOf (ushort d.nlink) (r - 6)
  else if r < 12 then byteOf d.size (r - 8)
  else byteOf (d.addrs ((r - 12) / 4)) ((r - 12) % 4)

def getDinode (b : Block) (k : Nat) : Dinode where
  type := IType.ofNum (half b (64 * k))
  major := short (half b (64 * k + 2))
  minor := short (half b (64 * k + 4))
  nlink := short (half b (64 * k + 6))
  size := word b (16 * k + 2)
  addrs := fun n => if n ≤ NDIRECT then word b (16 * k + 3 + n) else 0

def putDinode (b : Block) (k : Nat) (d : Dinode) : Block :=
  fun i => if 64 * k ≤ i ∧ i < 64 * k + 64 then d.byte (i - 64 * k) else b i

structure SuperBlock where
  magic : Nat
  size : Nat
  nblocks : Nat
  ninodes : Nat
  nlog : Nat
  logstart : Nat
  inodestart : Nat
  bmapstart : Nat
  deriving DecidableEq

def SuperBlock.fields (sb : SuperBlock) : List Nat :=
  [sb.magic, sb.size, sb.nblocks, sb.ninodes, sb.nlog, sb.logstart, sb.inodestart, sb.bmapstart]

def SuperBlock.block (sb : SuperBlock) : Block := fun i => byteOf (sb.fields.getD (i / 4) 0) (i % 4)

def SuperBlock.ofBlock (b : Block) : SuperBlock :=
  ⟨word b 0, word b 1, word b 2, word b 3, word b 4, word b 5, word b 6, word b 7⟩

/-! ## The program -/

inductive MkStop
  | read
  | rootino
  | slash
  | nameTooLong
  | maxfile
  | used

/-- The image, the number of its sectors, `freeinode` and `freeblock`. -/
structure Mkfs where
  img : Nat → Block
  nsect : Nat
  freeinode : Nat
  freeblock : Nat

namespace Mkfs

abbrev nbitmap : Nat := FSSIZE / BPB + 1
abbrev ninodeblocks : Nat := NINODES / IPB + 1
abbrev nlog : Nat := LOGBLOCKS + 1
abbrev nmeta : Nat := 2 + nlog + ninodeblocks + nbitmap
abbrev nblocks : Nat := FSSIZE - nmeta

def sb : SuperBlock := ⟨FSMAGIC, FSSIZE, nblocks, NINODES, nlog, 2, 2 + nlog, 2 + nlog + ninodeblocks⟩

def start : Mkfs := ⟨fun _ _ => 0, 0, 1, nmeta⟩

def rsect (sec : Nat) : Prog Mkfs MkStop Block := do
  let s ← get
  if sec < s.nsect then return s.img sec else throw .read

def wsect (sec : Nat) (buf : Block) : Prog Mkfs MkStop Unit :=
  modify fun s => { s with img := Function.update s.img sec buf, nsect := max s.nsect (sec + 1) }

def winode (inum : Nat) (ip : Dinode) : Prog Mkfs MkStop Unit := do
  let buf ← rsect (inum / IPB + sb.inodestart)
  wsect (inum / IPB + sb.inodestart) (putDinode buf (inum % IPB) ip)

def rinode (inum : Nat) : Prog Mkfs MkStop Dinode := do
  let buf ← rsect (inum / IPB + sb.inodestart)
  return getDinode buf (inum % IPB)

def ialloc (type : IType) : Prog Mkfs MkStop Nat := do
  let s ← get
  set { s with freeinode := s.freeinode + 1 }
  winode s.freeinode ((Dinode.zero.withType type).withNlink 1)
  return s.freeinode

def bits : Nat → Block
  | 0 => fun _ => 0
  | i + 1 => Function.update (bits i) (i / 8) (bits i (i / 8) ||| UInt8.ofNat (2 ^ (i % 8)))

def balloc (used : Nat) : Prog Mkfs MkStop Unit := do
  if used < BPB then wsect sb.bmapstart (bits used) else throw .used

def nextBlock : Prog Mkfs MkStop Nat := do
  let s ← get
  set { s with freeblock := s.freeblock + 1 }
  return s.freeblock

def mapAddr (din : Dinode) (n : Nat) : Prog Mkfs MkStop (Dinode × Nat) := do
  if din.addrs n = 0 then
    let x ← nextBlock
    return (din.setAddr n x, x)
  else return (din, din.addrs n)

def mapEntry (a j : Nat) : Prog Mkfs MkStop Nat := do
  let indirect ← rsect a
  if word indirect j = 0 then
    let x ← nextBlock
    wsect a (putInt indirect (4 * j) x)
    return x
  else return word indirect j

def mapBlock (din : Dinode) (fbn : Nat) : Prog Mkfs MkStop (Dinode × Nat) := do
  if fbn < NDIRECT then mapAddr din fbn
  else
    let r ← mapAddr din NDIRECT
    let x ← mapEntry r.2 (fbn - NDIRECT)
    return (r.1, x)

def bcopy (buf : Block) (o : Nat) (p : List UInt8) : Block :=
  fun j => if o ≤ j ∧ j < o + p.length then p.getD (j - o) 0 else buf j

/-- The loop of `iappend`, with less to do in every round. -/
def appendLoop : Nat → Dinode → Nat → List UInt8 → Prog Mkfs MkStop (Dinode × Nat)
  | 0, din, off, _ => return (din, off)
  | fuel + 1, din, off, p =>
    if p = [] then return (din, off)
    else if off / BSIZE < MAXFILE then do
      let r ← mapBlock din (off / BSIZE)
      let n1 := min p.length ((off / BSIZE + 1) * BSIZE - off)
      let buf ← rsect r.2
      wsect r.2 (bcopy buf (off - off / BSIZE * BSIZE) (p.take n1))
      appendLoop fuel r.1 (off + n1) (p.drop n1)
    else throw .maxfile

def iappend (inum : Nat) (p : List UInt8) : Prog Mkfs MkStop Unit := do
  let din ← rinode inum
  let r ← appendLoop p.length din din.size p
  winode inum (r.1.withSize r.2)

end Mkfs

def direntBytes (inum : Nat) (name : List UInt8) : List UInt8 :=
  (List.range direntSize).map fun k => (Dirent.bytes inum name k).getD 0

/-- An argument, which is a C string, and what `read` returns of the file, time after time until it returns 0. -/
structure InFile where
  arg : List UInt8
  reads : List (List UInt8)
  string : 0 ∉ arg
  chunks : ∀ r ∈ reads, 0 < r.length ∧ r.length ≤ BSIZE

namespace InFile

def bytes (f : InFile) : List UInt8 := f.reads.flatten

def shortname (f : InFile) : List UInt8 := if f.arg.take 5 = [117, 115, 101, 114, 47] then f.arg.drop 5 else f.arg

def name (f : InFile) : List UInt8 := if f.shortname.head? = some 95 then f.shortname.tail else f.shortname

end InFile

namespace Mkfs

def appendAll (inum : Nat) : List (List UInt8) → Prog Mkfs MkStop Unit
  | [] => return
  | r :: reads => do
    iappend inum r
    appendAll inum reads

def addFile (f : InFile) : Prog Mkfs MkStop Unit := do
  if 47 ∈ f.shortname then throw .slash
  else if DIRSIZ < f.name.length then throw .nameTooLong
  else
    let inum ← ialloc .T_FILE
    iappend ROOTINO (direntBytes inum f.name)
    appendAll inum f.reads

def addFiles : List InFile → Prog Mkfs MkStop Unit
  | [] => return
  | f :: files => do
    addFile f
    addFiles files

def prepare : Prog Mkfs MkStop Unit := do
  forN (fun i => wsect i fun _ => 0) FSSIZE
  wsect 1 sb.block
  let rootino ← ialloc .T_DIR
  if rootino = ROOTINO then
    iappend rootino (direntBytes rootino dot)
    iappend rootino (direntBytes rootino dotdot)
  else throw .rootino

/-- The end of `main`: the size of the root directory is rounded up, and the bitmap is written. -/
def finish : Prog Mkfs MkStop Unit := do
  let din ← rinode ROOTINO
  winode ROOTINO (din.withSize ((din.size / BSIZE + 1) * BSIZE))
  let s ← get
  balloc s.freeblock

def main (files : List InFile) : Prog Mkfs MkStop Unit := do
  prepare
  addFiles files
  finish

end Mkfs

/-! ## The kernel's view -/

def SuperBlock.nmeta (sb : SuperBlock) : Nat := sb.bmapstart + sb.size / BPB + 1

def SuperBlock.room (sb : SuperBlock) : Nat := (sb.bmapstart - sb.inodestart) * IPB

namespace Mkfs

def super (s : Mkfs) : SuperBlock := .ofBlock (s.img 1)

def disk (s : Mkfs) : Disk where
  used := fun b => decide (b < s.super.size) && (s.img (b / BPB + s.super.bmapstart) (b % BPB / 8)).toNat.testBit (b % 8)
  dinode := fun i => if i < s.super.room then getDinode (s.img (i / IPB + s.super.inodestart)) (i % IPB) else .zero
  block := fun b => if b < s.super.nmeta then fun _ => 0 else s.img b

def boot (s : Mkfs) : Vol where
  sb := ⟨s.super.size, s.super.inodestart, s.super.bmapstart, s.super.nmeta⟩
  disk := s.disk
  inode := fun _ => ⟨0, 0, false, false, .zero⟩
  log := ⟨0, false, []⟩
  cwd := fun _ => none

end Mkfs

/-- `namei` of a name in the root directory, and `readi` of all the file has. -/
def Vol.readName (name : List UInt8) : Prog Vol VolStop (Option (Int × List UInt8)) := do
  begin_op
  match ← namei 0 (47 :: name) with
  | none => return none
  | some ip =>
    ilock ip
    let v ← get
    let r ← readi (fun _ => false) ip 0 (v.inode ip).copy.size
    return some r

end Xv6
