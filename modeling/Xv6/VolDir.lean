import Xv6.Vol

/-!
# The file system: directories and paths

Looking up names in directories. A C string is the list of its bytes before
the 0. The process that runs, `myproc()`, is given by its slot.
-/

namespace Xv6

open Hoare

abbrev ROOTINO : Nat := 1
abbrev DIRSIZ : Nat := 14

abbrev direntSize : Nat := 16

structure Dirent where
  inum : Nat
  name : List UInt8
deriving DecidableEq

def Dirent.ofBytes (bs : List UInt8) : Dirent :=
  ⟨(bs.getD 0 0).toNat + 256 * (bs.getD 1 0).toNat, (bs.drop 2).take DIRSIZ⟩

/-- The bytes of a `struct dirent`; `inum` is a `ushort`, and `strncpy` fills up with 0. -/
def Dirent.bytes (inum : Nat) (name : List UInt8) (k : Nat) : Option UInt8 :=
  some (if k = 0 then UInt8.ofNat inum else if k = 1 then UInt8.ofNat (inum / 256) else name.getD (k - 2) 0)

/-- What `strncmp(_, _, DIRSIZ)` looks at. -/
def cstr (s : List UInt8) : List UInt8 := (s.take DIRSIZ).takeWhile (· != 0)

def namecmp (s t : List UInt8) : Bool := cstr s == cstr t

def dot : List UInt8 := [46]

def dotdot : List UInt8 := [46, 46]

/-- The next element of a path, cut to `DIRSIZ` bytes, and the rest. -/
def skipelem (path : List UInt8) : Option (List UInt8 × List UInt8) :=
  match path.dropWhile (· == 47) with
  | [] => none
  | s => some ((s.takeWhile (· != 47)).take DIRSIZ, (s.dropWhile (· != 47)).dropWhile (· == 47))

def short (n : Int) : Int := (n + 32768) % 65536 - 32768

namespace Vol

/-! ## Directories -/

def readDirent (dp off : Nat) (err : VolStop) : Prog Vol VolStop Dirent := do
  let (n, bytes) ← readi (fun _ => false) dp off direntSize
  if n ≠ direntSize then throw err else return Dirent.ofBytes bytes

def nslots (size : Nat) : Nat := (size + (direntSize - 1)) / direntSize

def lookupOne (dp : Nat) (name : List UInt8) (k : Nat) : Prog Vol VolStop (Option (Nat × Nat)) := do
  let de ← readDirent dp (k * direntSize) .dirlookupRead
  if de.inum = 0 then return none
  else if namecmp name de.name then
    let ip ← iget de.inum
    return some (ip, k * direntSize)
  else return none

def dirlookup (dp : Nat) (name : List UInt8) : Prog Vol VolStop (Option (Nat × Nat)) := do
  let v ← get
  if (v.inode dp).copy.type ≠ .T_DIR then throw .dirlookupNotDir
  else search (lookupOne dp name) 0 (nslots (v.inode dp).copy.size)

/-! ## Paths -/

def namexEnd (nameiparent : Bool) (ip : Nat) : Prog Vol VolStop (Option (Nat × List UInt8)) := do
  if nameiparent then
    iput ip
    return none
  else return some (ip, [])

/-- The loop of `namex`, whose path gets shorter in every round. -/
def namexLoop (nameiparent : Bool) : Nat → Nat → List UInt8 → Prog Vol VolStop (Option (Nat × List UInt8))
  | 0, ip, _ => namexEnd nameiparent ip
  | fuel + 1, ip, path =>
    match skipelem path with
    | none => namexEnd nameiparent ip
    | some (name, path) => do
      ilock ip
      let v ← get
      if (v.inode ip).copy.type ≠ .T_DIR then
        iunlockput ip
        return none
      else if nameiparent ∧ path = [] then
        iunlock ip
        return some (ip, name)
      else
        match ← dirlookup ip name with
        | none =>
          iunlockput ip
          return none
        | some (next, _) =>
          iunlockput ip
          namexLoop nameiparent fuel next path

def namexStart (p : Nat) (path : List UInt8) : Prog Vol VolStop Nat := do
  if path.head? = some 47 then iget ROOTINO
  else
    let v ← get
    match v.cwd p with
    | none => throw .null
    | some cwd => idup cwd

def namex (p : Nat) (path : List UInt8) (nameiparent : Bool) : Prog Vol VolStop (Option (Nat × List UInt8)) := do
  let ip ← namexStart p path
  namexLoop nameiparent path.length ip path

def namei (p : Nat) (path : List UInt8) : Prog Vol VolStop (Option Nat) := do
  let r ← namex p path false
  return r.map Prod.fst

end Vol

end Xv6
