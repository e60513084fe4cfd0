import Xv6.Steps
import Xv6.Params

/-!
# Inode locks

The system calls on files and directories, cut at every `ilock` and
`iunlock`. The state is what decides which inode is locked next: the types
and entries of the inodes on disk, who holds which lock, and how far each
process has come. References to an inode are the places of the calls where
it occurs.
-/

namespace Xv6

open Hoare Function

inductive IType
  | T_NONE | T_DIR | T_FILE | T_DEVICE
  deriving DecidableEq

inductive Name
  | dot | dotdot | name (k : Nat)
  deriving DecidableEq

inductive Then
  | open
  | create (type : IType)
  /-- `old` of `sys_link`; `start` and `path` are those of `new`. -/
  | old (start : Nat) (path : List Name)
  /-- `new` of `sys_link`, with the inode that `old` gave. -/
  | new (ip : Nat)
  | unlink

inductive FsCall
  | done
  /-- `iunlock(ip)`, or `iunlockput(ip)`, is next. -/
  | drop (ip : Nat) (put : Bool) (c : FsCall)
  | put (ip : Nat) (c : FsCall)
  /-- `ilock(ip)` is next, and nothing is locked until it is unlocked. -/
  | touch (ip : Nat) (put : Bool)
  /-- `namex` is about to lock `ip`, and to look for `nm` in it. -/
  | namex (ip : Nat) (nm : Name) (rest : List Name) (k : Then)
  | seeing (ip : Nat) (nm : Name) (rest : List Name) (k : Then)
  | create (dp : Nat) (nm : Name) (type : IType)
  | creating (dp : Nat) (nm : Name) (type : IType)
  | createNew (dp : Nat) (nm : Name) (ip : Nat) (type : IType)
  | createLink (dp : Nat) (nm : Name) (ip : Nat) (type : IType)
  | link (ip start : Nat) (path : List Name)
  | linking (ip start : Nat) (path : List Name)
  | linkIn (dp : Nat) (nm : Name) (ip : Nat)
  | linkAt (dp : Nat) (nm : Name) (ip : Nat)
  | unlink (dp : Nat) (nm : Name)
  | unlinking (dp : Nat) (nm : Name)
  | unlinkIp (dp : Nat) (nm : Name) (ip : Nat)
  | unlinkBoth (dp : Nat) (nm : Name) (ip : Nat)
  /-- `fileread` or a round of `filewrite` is about to lock `ip`; the copy meets pages of the files `gs` that are not
  resident. -/
  | io (ip : Nat) (gs : List Nat)
  | copying (ip : Nat) (gs : List Nat)
  | ioFault (ip g : Nat) (gs : List Nat)

inductive FsPanic
  | noType | notDir

structure LockSys where
  ninodes : Nat
  type : Nat → IType
  ent : Nat → List (Name × Nat)
  lock : Nat → Option Nat
  call : Nat → Option FsCall

def Then.parent : Then → Bool
  | .create _ | .new _ | .unlink => true
  | .open | .old .. => false

def Then.fail : Then → FsCall
  | .new ip => .touch ip true
  | .open | .create _ | .old .. | .unlink => .done

def Then.found (ip : Nat) (nm : Name) : Then → FsCall
  | .open => .touch ip true
  | .create type => .create ip nm type
  | .old start path => .link ip start path
  | .new src => .linkIn ip nm src
  | .unlink => .unlink ip nm

def namexFrom (ip : Nat) (path : List Name) (k : Then) : FsCall :=
  match path with
  | [] => if k.parent then .put ip k.fail else k.found ip .dot
  | nm :: rest => .namex ip nm rest k

def dirlookup (es : List (Name × Nat)) (nm : Name) : Option Nat := (es.find? fun e => e.1 = nm).map Prod.snd

def isdirempty (es : List (Name × Nat)) : Bool := es.all fun e => e.1 = .dot ∨ e.1 = .dotdot

namespace LockSys

def goto (s : LockSys) (i : Nat) (c : FsCall) : LockSys := { s with call := update s.call i (some c) }

def ialloc (s : LockSys) : Option Nat := (List.range s.ninodes).find? fun ip => 0 < ip ∧ s.type ip = .T_NONE

def take (s : LockSys) (i ip : Nat) (c : FsCall) : LockSys := { s.goto i c with lock := update s.lock ip (some i) }

end LockSys

def FsCall.holds : FsCall → List Nat
  | .done | .touch .. | .namex .. | .create .. | .link .. | .linkIn .. | .unlink .. | .io .. => []
  | .drop ip _ c => ip :: c.holds
  | .put _ c => c.holds
  | .seeing ip .. | .linking ip .. | .copying ip .. | .ioFault ip .. => [ip]
  | .creating dp .. | .createNew dp .. | .linkAt dp .. | .unlinking dp .. | .unlinkIp dp .. => [dp]
  | .createLink dp _ ip _ | .unlinkBoth dp _ ip => [dp, ip]

def FsCall.wants : FsCall → Option Nat
  | .touch ip _ | .namex ip .. | .create ip .. | .createNew _ _ ip _ | .link ip .. | .linkIn ip .. | .unlink ip _
  | .unlinkIp _ _ ip | .io ip _ | .ioFault _ ip _ => some ip
  | .done | .drop .. | .put .. | .seeing .. | .creating .. | .createLink .. | .linking .. | .linkAt .. | .unlinking ..
  | .unlinkBoth .. | .copying .. => none

def Then.uses : Then → List Nat
  | .old start _ => [start]
  | .new ip => [ip]
  | .open | .create _ | .unlink => []

def FsCall.uses : FsCall → List Nat
  | .done => []
  | .drop ip _ c | .put ip c => ip :: c.uses
  | .touch ip _ | .create ip .. | .creating ip .. | .unlink ip _ | .unlinking ip _ => [ip]
  | .namex ip _ _ k | .seeing ip _ _ k => ip :: k.uses
  | .createNew dp _ ip _ | .createLink dp _ ip _ | .linkIn dp _ ip | .linkAt dp _ ip | .unlinkIp dp _ ip
  | .unlinkBoth dp _ ip =>
    [dp, ip]
  | .link ip start _ | .linking ip start _ => [ip, start]
  | .io ip gs | .copying ip gs => ip :: gs
  | .ioFault ip g gs => ip :: g :: gs

/-- `ip` is referred to by no other process, and by process `i` nowhere in what follows. -/
def LockSys.lastRef (s : LockSys) (i ip : Nat) (c : FsCall) : Prop :=
  ip ∉ c.uses ∧ ∀ j < NPROC, j ≠ i → ∀ d ∈ s.call j, ip ∉ d.uses

instance LockSys.lastRef.decidable (s : LockSys) (i ip : Nat) (c : FsCall) : Decidable (s.lastRef i ip c) :=
  inferInstanceAs (Decidable (_ ∧ _))

abbrev LockM := Prog LockSys FsPanic

/-- `acquiresleep(&ip->lock)` in `ilock`: a process that finds the lock taken stays where it is. -/
def ilockTo (i ip : Nat) (c : FsCall) : LockM Unit := do
  let s ← get
  if s.lock ip = none then
    if s.type ip = .T_NONE then throw .noType else set (s.take i ip c)
  else return ()

/-- One step of process `i`; `b` decides what the rest of the disk does: whether there is room for an entry, and whether
the inode that is put has neither links nor open files. -/
def FsCall.run (i : Nat) (b : Bool) : FsCall → LockM Unit
  | .done => modify fun s => { s with call := update s.call i none }
  | .drop ip p c =>
    modify fun s => { s.goto i (if p then .put ip c else c) with lock := update s.lock ip none }
  | .put ip c => do
    let s ← get
    if b ∧ s.lastRef i ip c then
      -- truncated, and free on the disk, before the lock is given back
      set { s.take i ip (.drop ip false c) with
        type := update s.type ip .T_NONE, ent := update s.ent ip [] }
    else set (s.goto i c)
  | .touch ip p => ilockTo i ip (.drop ip p .done)
  | .namex ip nm rest k => ilockTo i ip (.seeing ip nm rest k)
  | .seeing ip nm rest k => do
    let s ← get
    if s.type ip ≠ .T_DIR then set (s.goto i (.drop ip true k.fail))
    else if k.parent ∧ rest = [] then set (s.goto i (.drop ip false (k.found ip nm)))
    else
      match dirlookup (s.ent ip) nm with
      | none => set (s.goto i (.drop ip true k.fail))
      | some next =>
        match rest with
        | [] => set (s.goto i (.drop ip true (k.found next nm)))
        | nm' :: rest => set (s.goto i (.drop ip true (.namex next nm' rest k)))
  | .create dp nm type => ilockTo i dp (.creating dp nm type)
  | .creating dp nm type => do
    let s ← get
    if s.type dp ≠ .T_DIR then throw .notDir
    else
      match dirlookup (s.ent dp) nm with
      | some ip => set (s.goto i (.drop dp true (.touch ip true)))
      | none =>
        match s.ialloc with
        | none => set (s.goto i (.drop dp true .done))
        | some ip => set { s.goto i (.createNew dp nm ip type) with type := update s.type ip type }
  | .createNew dp nm ip type => ilockTo i ip (.createLink dp nm ip type)
  | .createLink dp nm ip type => do
    let s ← get
    if b then
      let es := if type = .T_DIR then [(Name.dot, ip), (Name.dotdot, dp)] else []
      set { s.goto i (.drop dp true (.drop ip true .done)) with
        ent := update (update s.ent ip es) dp ((nm, ip) :: s.ent dp) }
    else set (s.goto i (.drop ip true (.drop dp true .done)))
  | .link ip start path => ilockTo i ip (.linking ip start path)
  | .linking ip start path => do
    let s ← get
    if s.type ip = .T_DIR then set (s.goto i (.drop ip true .done))
    else set (s.goto i (.drop ip false (namexFrom start path (.new ip))))
  | .linkIn dp nm ip => ilockTo i dp (.linkAt dp nm ip)
  | .linkAt dp nm ip => do
    let s ← get
    if s.type dp ≠ .T_DIR then throw .notDir
    else
      match dirlookup (s.ent dp) nm with
      | some ip' => set (s.goto i (.put ip' (.drop dp true (.touch ip true))))
      | none =>
        if b then
          set { s.goto i (.drop dp true (.put ip .done)) with ent := update s.ent dp ((nm, ip) :: s.ent dp) }
        else set (s.goto i (.drop dp true (.touch ip true)))
  | .unlink dp nm => ilockTo i dp (.unlinking dp nm)
  | .unlinking dp nm => do
    let s ← get
    if nm = .dot ∨ nm = .dotdot then set (s.goto i (.drop dp true .done))
    else if s.type dp ≠ .T_DIR then throw .notDir
    else
      match dirlookup (s.ent dp) nm with
      | none => set (s.goto i (.drop dp true .done))
      | some ip => set (s.goto i (.unlinkIp dp nm ip))
  | .unlinkIp dp nm ip => ilockTo i ip (.unlinkBoth dp nm ip)
  | .unlinkBoth dp nm ip => do
    let s ← get
    if s.type ip = .T_DIR ∧ isdirempty (s.ent ip) = false then set (s.goto i (.drop ip true (.drop dp true .done)))
    else
      set { s.goto i (.drop dp true (.drop ip true .done)) with
        ent := update s.ent dp ((s.ent dp).erase (nm, ip)) }
  | .io ip gs => ilockTo i ip (.copying ip gs)
  | .copying ip gs =>
    match gs with
    | [] => modify fun s => s.goto i (.drop ip false .done)
    | g :: gs => modify fun s => s.goto i (.ioFault ip g gs)
  | .ioFault ip g gs => ilockTo i g (.drop g false (.copying ip gs))

inductive FsEvent
  | open (i start : Nat) (path : List Name)
  | create (i start : Nat) (path : List Name) (type : IType)
  | link (i start : Nat) (path : List Name) (start' : Nat) (path' : List Name)
  | unlink (i start : Nat) (path : List Name)
  | io (i ip : Nat) (gs : List Nat)
  | fault (i g : Nat)
  | step (i : Nat) (b : Bool)

def enter (i : Nat) (c : FsCall) : LockM Unit := do
  let s ← get
  if i < NPROC ∧ (s.call i).isNone then set (s.goto i c) else return ()

def FsEvent.run : FsEvent → LockM Unit
  | .open i start path => enter i (namexFrom start path .open)
  | .create i start path type =>
    if type = .T_NONE then return () else enter i (namexFrom start path (.create type))
  | .link i start path start' path' => enter i (namexFrom start path (.old start' path'))
  | .unlink i start path => enter i (namexFrom start path .unlink)
  | .io i ip gs => enter i (.io ip gs)
  | .fault i g => enter i (.touch g false)
  | .step i b => do
    match (← get).call i with
    | none => return ()
    | some c => c.run i b

def LockSys.waits (s : LockSys) (i j : Nat) : Prop := ∃ c ∈ s.call i, ∃ ip ∈ c.wants, s.lock ip = some j

instance LockSys.waits.decidable (s : LockSys) (i j : Nat) : Decidable (s.waits i j) :=
  inferInstanceAs (Decidable (∃ c ∈ s.call i, ∃ ip ∈ c.wants, s.lock ip = some j))

/-- A `read` or `write` meets no page of a mapped file that is not resident. -/
def Resident : FsEvent → LockSys → Prop
  | .io _ _ gs, _ => gs = []
  | _, _ => True

instance Resident.decidable : ∀ (e : FsEvent) (s : LockSys), Decidable (Resident e s)
  | .io _ _ gs, _ => inferInstanceAs (Decidable (gs = []))
  | .open .., _ | .create .., _ | .link .., _ | .unlink .., _ | .fault .., _ | .step .., _ =>
    inferInstanceAs (Decidable True)

end Xv6
