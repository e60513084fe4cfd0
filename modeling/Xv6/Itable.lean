import Xv6.Dirs

/-!
# The inode table

`iget`, `idup`, `ilock`, `iunlock`, `iput`, `ialloc` and `iupdate` of `fs.c`
under any number of processes. One step is what runs between two releases of
`itable.lock`, two waits for an inode's sleep lock, or two uses of the block
that holds the inode on disk.
-/

namespace Xv6

open Hoare

abbrev NINODE : Nat := 50

/-- `struct dinode`, and the copy of it in `struct inode`. -/
structure Dinode where
  type : IType
  major : Int
  minor : Int
  nlink : Int
  size : Nat
  addrs : Nat → Nat

def Dinode.zero : Dinode := ⟨.T_NONE, 0, 0, 0, 0, fun _ => 0⟩

structure IEntry where
  dev : Nat
  inum : Nat
  ref : Nat
  lock : Option Nat
  valid : Bool
  copy : Dinode

inductive ItStop
  | igetNoInodes | ilock | ilockNoType | iunlock
  /-- `acquiresleep` in `iput` would wait with `itable.lock` held. -/
  | schedLocks
deriving DecidableEq

inductive RefState
  | held
  | locking
  | loading
  | locked
  | dirty
  /-- `iput` frees the inode: `itrunc`, `ip->type = 0; iupdate(ip)`, `ip->valid = 0` and `releasesleep` are next. -/
  | trunc | zero | clear | unlock
  | drop
deriving DecidableEq

/-- A reference that process `proc` has got for inode `inum` of `dev`: entry `slot`. -/
structure IRef where
  proc : Nat
  slot : Nat
  dev : Nat
  inum : Nat
  st : RefState
deriving DecidableEq

/-- `ialloc` by `proc`: it looks at inode `inum` next, or has marked it and calls `iget`. -/
structure IAlloc where
  proc : Nat
  dev : Nat
  type : IType
  inum : Nat
  marked : Bool
deriving DecidableEq

structure Itable where
  inode : Nat → IEntry
  disk : Nat → Nat → Dinode
  ninodes : Nat
  refs : List IRef
  allocs : List IAlloc

namespace Itable

def setEntry (s : Itable) (i : Nat) (x : IEntry) : Itable := { s with inode := Function.update s.inode i x }

def setDisk (s : Itable) (dev inum : Nat) (d : Dinode) : Itable :=
  { s with disk := Function.update s.disk dev (Function.update (s.disk dev) inum d) }

def iget (proc dev inum : Nat) : Prog Itable ItStop Unit := do
  let s ← get
  match (List.range NINODE).find? fun i => 0 < (s.inode i).ref ∧ (s.inode i).dev = dev ∧ (s.inode i).inum = inum with
  | some i =>
    let s := s.setEntry i { s.inode i with ref := (s.inode i).ref + 1 }
    set { s with refs := s.refs ++ [(⟨proc, i, dev, inum, .held⟩ : IRef)] }
  | none =>
    match (List.range NINODE).find? fun i => (s.inode i).ref = 0 with
    | some i =>
      let s := s.setEntry i { s.inode i with dev := dev, inum := inum, ref := 1, valid := false }
      set { s with refs := s.refs ++ [(⟨proc, i, dev, inum, .held⟩ : IRef)] }
    | none => throw .igetNoInodes

def idup (r : IRef) (proc : Nat) : Prog Itable ItStop Unit := modify fun s =>
  { s.setEntry r.slot { s.inode r.slot with ref := (s.inode r.slot).ref + 1 } with
    refs := s.refs ++ [{ r with proc := proc, st := .held }] }

/-- The next step of the owner of `r`, until `ilock` or `iput` is done. -/
def step (r : IRef) : Prog Itable ItStop (Option IRef) := do
  let s ← get
  let x := s.inode r.slot
  match r.st with
  | .locking =>
    if x.lock = none then
      set (s.setEntry r.slot { x with lock := some r.proc })
      return some { r with st := if x.valid then .locked else .loading }
    else return some r
  | .loading =>
    let d := s.disk x.dev x.inum
    set (s.setEntry r.slot { x with copy := d, valid := true })
    if d.type = .T_NONE then throw .ilockNoType
    else return some { r with st := .locked }
  | .trunc =>
    let d := { x.copy with addrs := fun _ => 0, size := 0 }
    set ((s.setEntry r.slot { x with copy := d }).setDisk x.dev x.inum d)
    return some { r with st := .zero }
  | .zero =>
    let d := { x.copy with type := .T_NONE }
    set ((s.setEntry r.slot { x with copy := d }).setDisk x.dev x.inum d)
    return some { r with st := .clear }
  | .clear =>
    set (s.setEntry r.slot { x with valid := false })
    return some { r with st := .unlock }
  | .unlock =>
    set (s.setEntry r.slot { x with lock := none })
    return some { r with st := .drop }
  | .drop =>
    set (s.setEntry r.slot { x with ref := x.ref - 1 })
    return none
  | .held | .locked | .dirty => return some r

def ilock (r : IRef) : Prog Itable ItStop (Option IRef) := do
  let s ← get
  if r.st = .held then
    if (s.inode r.slot).ref < 1 then throw .ilock
    else return some { r with st := .locking }
  else return some r

/-- Whoever has the lock changes the copy; `type` is for `iput` alone. -/
def change (r : IRef) (d : Dinode) : Prog Itable ItStop (Option IRef) := do
  let s ← get
  if r.st = .locked ∨ r.st = .dirty then
    let x := s.inode r.slot
    set (s.setEntry r.slot { x with copy := { d with type := x.copy.type } })
    return some { r with st := .dirty }
  else return some r

def iupdate (r : IRef) : Prog Itable ItStop (Option IRef) := do
  let s ← get
  if r.st = .locked ∨ r.st = .dirty then
    let x := s.inode r.slot
    set (s.setDisk x.dev x.inum x.copy)
    return some { r with st := .locked }
  else return some r

def iunlock (r : IRef) : Prog Itable ItStop (Option IRef) := do
  let s ← get
  if r.st = .locked ∨ r.st = .dirty then
    let x := s.inode r.slot
    if x.lock ≠ some r.proc ∨ x.ref < 1 then throw .iunlock
    else
      set (s.setEntry r.slot { x with lock := none })
      return some { r with st := .held }
  else return some r

/-- `iput`, until it releases `itable.lock`. -/
def iput (r : IRef) : Prog Itable ItStop (Option IRef) := do
  let s ← get
  if r.st = .held then
    let x := s.inode r.slot
    if x.ref = 1 ∧ x.valid = true ∧ x.copy.nlink = 0 then
      if x.lock ≠ none then throw .schedLocks
      else
        set (s.setEntry r.slot { x with lock := some r.proc })
        return some { r with st := .trunc }
    else
      set (s.setEntry r.slot { x with ref := x.ref - 1 })
      return none
  else return some r

def allocStep (a : IAlloc) : Prog Itable ItStop (Option IAlloc) := do
  let s ← get
  if a.marked then
    iget a.proc a.dev a.inum
    return none
  else if a.inum < s.ninodes then
    if (s.disk a.dev a.inum).type = .T_NONE then
      set (s.setDisk a.dev a.inum { Dinode.zero with type := a.type })
      return some { a with marked := true }
    else return some { a with inum := a.inum + 1 }
  else return none

def setRef (s : Itable) (j : Nat) (o : Option IRef) : Itable :=
  match o with
  | some r => { s with refs := s.refs.set j r }
  | none => { s with refs := s.refs.eraseIdx j }

def onRef (j : Nat) (f : IRef → Prog Itable ItStop (Option IRef)) : Prog Itable ItStop Unit := do
  let s ← get
  match s.refs[j]? with
  | none => return ()
  | some r =>
    let o ← f r
    modify fun s => s.setRef j o

inductive Event
  | iget (proc dev inum : Nat)
  | idup (j proc : Nat)
  | ilock (j : Nat)
  | step (j : Nat)
  | change (j : Nat) (d : Dinode)
  | iupdate (j : Nat)
  | iunlock (j : Nat)
  | iput (j : Nat)
  | ialloc (proc dev : Nat) (type : IType)
  | alloc (a : Nat)

def Event.run : Event → Prog Itable ItStop Unit
  | .iget proc dev inum => Itable.iget proc dev inum
  | .idup j proc => do
    let s ← get
    match s.refs[j]? with
    | none => return ()
    | some r => Itable.idup r proc
  | .ilock j => onRef j Itable.ilock
  | .step j => onRef j Itable.step
  | .change j d => onRef j fun r => Itable.change r d
  | .iupdate j => onRef j Itable.iupdate
  | .iunlock j => onRef j Itable.iunlock
  | .iput j => onRef j Itable.iput
  | .ialloc proc dev type => modify fun s => { s with allocs := s.allocs ++ [⟨proc, dev, type, 1, false⟩] }
  | .alloc a => do
    let s ← get
    match s.allocs[a]? with
    | none => return ()
    | some x =>
      let o ← allocStep x
      match o with
      | some x => modify fun s => { s with allocs := s.allocs.set a x }
      | none => modify fun s => { s with allocs := s.allocs.eraseIdx a }

/-- `iupdate` comes between a change and `iunlock`. -/
def Updates : Event → Itable → Prop
  | .iunlock j, s => ∀ r ∈ s.refs[j]?, r.st ≠ .dirty
  | _, _ => True

instance Updates.decidable : ∀ (e : Event) (s : Itable), Decidable (Updates e s)
  | .iunlock j, s => inferInstanceAs (Decidable (∀ r ∈ s.refs[j]?, r.st ≠ .dirty))
  | .iget _ _ _, _ | .idup _ _, _ | .ilock _, _ | .step _, _ | .change _ _, _ | .iupdate _, _ | .iput _, _
  | .ialloc _ _ _, _ | .alloc _, _ => inferInstanceAs (Decidable True)

def iinit (disk : Nat → Nat → Dinode) (ninodes : Nat) : Itable where
  inode := fun _ => ⟨0, 0, 0, none, false, .zero⟩
  disk := disk
  ninodes := ninodes
  refs := []
  allocs := []

end Itable

end Xv6
