import Xv6.Links
import Xv6.Log

/-!
# The buffer cache

`bio.c`, under any number of processes: what runs between two releases of
`bcache.lock`, and between two waits for a buffer's sleep lock or the disk, is
one step. `commit` of `log.c` runs on top of it, one statement after the other.
All blocks are on device `ROOTDEV`; the disk driver looks at `blockno` alone.
-/

namespace Xv6

open Hoare Ringlist Function

abbrev NBUF : Nat := MAXOPBLOCKS * 3
abbrev ROOTDEV : Nat := 1

structure Buf where
  dev : Nat
  blockno : Nat
  valid : Bool
  refcnt : Nat
  lock : Option Nat
  data : Block

/-- Buffer `NBUF` is `bcache.head`. -/
structure Bcache where
  links : Links Nat
  buf : Nat → Buf

inductive BioStop
  | noBuffers | bwrite | brelse
  | log (e : LogStop)
deriving DecidableEq

namespace Bcache

def set (c : Bcache) (b : Nat) (x : Buf) : Bcache := { c with buf := update c.buf b x }

def binit : Bcache where
  links := (List.range NBUF).foldl (fun k b => k.push NBUF b) ⟨fun _ => NBUF, fun _ => NBUF⟩
  buf := fun _ => ⟨0, 0, false, 0, none, fun _ => 0⟩

/-- `bget` under `bcache.lock`: the block is cached already, or the least recently used of the unused buffers is recycled. -/
def bget (c : Bcache) (dev blockno : Nat) : Option (Nat × Bcache) :=
  match follow c.links.next NBUF (fun b => (c.buf b).dev == dev && (c.buf b).blockno == blockno) (NBUF + 1)
      (c.links.next NBUF) with
  | some b => some (b, c.set b { c.buf b with refcnt := (c.buf b).refcnt + 1 })
  | none =>
    match follow c.links.prev NBUF (fun b => (c.buf b).refcnt == 0) (NBUF + 1) (c.links.prev NBUF) with
    | some b => some (b, c.set b { c.buf b with dev := dev, blockno := blockno, valid := false, refcnt := 1 })
    | none => none

/-- `brelse` under `bcache.lock`. -/
def drop (c : Bcache) (b : Nat) : Bcache :=
  let c := c.set b { c.buf b with refcnt := (c.buf b).refcnt - 1 }
  if (c.buf b).refcnt = 0 then { c with links := (c.links.unlink b).push NBUF b } else c

def bpin (c : Bcache) (b : Nat) : Bcache := c.set b { c.buf b with refcnt := (c.buf b).refcnt + 1 }

def bunpin (c : Bcache) (b : Nat) : Bcache := c.set b { c.buf b with refcnt := (c.buf b).refcnt - 1 }

end Bcache

/-! ## Users of buffers -/

inductive UseState
  | locking
  | reading
  | holding
  /-- It has changed the data and not yet called `log_write` or `bwrite`. -/
  | dirty
  | dropping
deriving DecidableEq

structure Use where
  proc : Nat
  b : Nat
  blk : Nat
  st : UseState
deriving DecidableEq

def Use.held (u : Use) : Bool := u.st = .holding ∨ u.st = .dirty

def Use.locked (u : Use) : Bool := u.held ∨ u.st = .reading

/-- The buffer variables of `write_log` (`to`, `from`), `install_trans` (`lbuf`, `dbuf`) and `write_head` (`buf`). -/
inductive Reg
  | fst | snd
deriving DecidableEq

inductive Instr
  | bread (r : Reg) (blk : Nat)
  /-- `memmove(to->data, from->data, BSIZE)`. -/
  | log
  /-- `memmove(dbuf->data, lbuf->data, BSIZE)`. -/
  | home
  /-- `write_head` fills the header in. -/
  | head
  | bwrite (r : Reg)
  | bunpin (r : Reg)
  | brelse (r : Reg)
  /-- `log.lh.n = 0`. -/
  | clear
deriving DecidableEq

structure Commit where
  proc : Nat
  phase : Phase
  code : List Instr
  reg : Reg → Option Use

structure Tx where
  proc : Nat
  blocks : Finset Nat

structure Bio where
  bc : Bcache
  disk : Nat → Block
  log : Log
  start : Nat
  ops : List Tx
  uses : List Use
  commit : Option Commit
  /-- What was written to each block last: by the users of `log_write`, and to the log's own blocks by `commit`. -/
  latest : Nat → Block

def Bio.isLog (s : Bio) (blk : Nat) : Prop := s.start ≤ blk ∧ blk ≤ s.start + LOGBLOCKS

instance Bio.decidableIsLog (s : Bio) (blk : Nat) : Decidable (s.isLog blk) := inferInstanceAs (Decidable (_ ∧ _))

def Bio.setData (s : Bio) (b : Nat) (v : Block) : Bio := { s with bc := s.bc.set b { s.bc.buf b with data := v } }

def bget (proc blk : Nat) : Prog Bio BioStop Use := do
  let s ← get
  match s.bc.bget ROOTDEV blk with
  | some (b, c) =>
    set { s with bc := c }
    return ⟨proc, b, blk, .locking⟩
  | none => throw .noBuffers

def acquireStep (u : Use) : Prog Bio BioStop Use := do
  let s ← get
  let x := s.bc.buf u.b
  match u.st with
  | .locking =>
    if x.lock = none then
      set { s with bc := s.bc.set u.b { x with lock := some u.proc } }
      return { u with st := if x.valid then .holding else .reading }
    else return u
  | .reading =>
    set { s with bc := s.bc.set u.b { x with data := s.disk x.blockno, valid := true } }
    return { u with st := .holding }
  | _ => return u

def releaseStep (u : Use) : Prog Bio BioStop (Option Use) := do
  let s ← get
  let x := s.bc.buf u.b
  match u.st with
  | .holding | .dirty =>
    if x.lock ≠ some u.proc then throw .brelse
    else
      set { s with bc := s.bc.set u.b { x with lock := none } }
      return some { u with st := .dropping }
  | .dropping =>
    set { s with bc := s.bc.drop u.b }
    return none
  | _ => return some u

def bwrite (u : Use) : Prog Bio BioStop Unit := do
  let s ← get
  let x := s.bc.buf u.b
  if x.lock ≠ some u.proc then throw .bwrite
  else set { s with disk := update s.disk x.blockno x.data }

/-! ## Commit -/

def putInt (d : Block) (off w : Nat) : Block :=
  fun i => if off ≤ i ∧ i < off + 4 then UInt8.ofNat (w / 256 ^ (i - off)) else d i

/-- `hb->n = log.lh.n; hb->block[i] = log.lh.block[i]`. -/
def putHead (lh : List Nat) (d : Block) : Block :=
  lh.zipIdx.foldl (fun d p => putInt d (4 + 4 * p.2) p.1) (putInt d 0 lh.length)

/-- The statements of one round of a loop of `commit`, or of a part of it that is no loop. -/
def round (start : Nat) (lh : List Nat) : Phase → List Instr
  | .writeLog tail =>
    [.bread .fst (start + tail + 1), .bread .snd (lh.getD tail 0), .log, .bwrite .fst, .brelse .snd, .brelse .fst]
  | .writeHead => [.bread .fst start, .head, .bwrite .fst, .brelse .fst]
  | .install tail =>
    [.bread .fst (start + tail + 1), .bread .snd (lh.getD tail 0), .home, .bwrite .snd, .bunpin .snd,
      .brelse .fst, .brelse .snd]
  | .erase => [.clear, .bread .fst start, .head, .bwrite .fst, .brelse .fst]
  | .idle | .done => []

def Phase.next (n : Nat) : Phase → Phase
  | .writeLog tail => if tail + 1 < n then .writeLog (tail + 1) else .writeHead
  | .writeHead => .install 0
  | .install tail => if tail + 1 < n then .install (tail + 1) else .erase
  | .erase | .done | .idle => .done

def Commit.start (proc start : Nat) (lh : List Nat) : Commit :=
  let phase := if lh.length = 0 then .done else .writeLog 0
  ⟨proc, phase, round start lh phase, fun _ => none⟩

def Commit.step (c : Commit) : Prog Bio BioStop (Option Commit) := do
  let s ← get
  match c.code with
  | [] =>
    if c.phase = .done then
      set { s with log := { s.log with committing := false } }
      return none
    else
      let phase := c.phase.next s.log.lh.length
      return some { c with phase := phase, code := round s.start s.log.lh phase }
  | .bread r blk :: rest =>
    match c.reg r with
    | none =>
      let u ← bget c.proc blk
      return some { c with reg := update c.reg r (some u) }
    | some u =>
      let u ← acquireStep u
      return some { c with
        reg := update c.reg r (some u)
        code := if u.st = .holding then rest else c.code }
  | .brelse r :: rest =>
    match c.reg r with
    | none => return some c
    | some u =>
      let o ← releaseStep u
      return some { c with reg := update c.reg r o, code := if o = none then rest else c.code }
  | .bwrite r :: rest =>
    match c.reg r with
    | none => return some c
    | some u =>
      bwrite u
      return some { c with reg := update c.reg r (some { u with st := .holding }), code := rest }
  | .bunpin r :: rest =>
    match c.reg r with
    | none => return some c
    | some u =>
      set { s with bc := s.bc.bunpin u.b }
      return some { c with code := rest }
  | .log :: rest =>
    match c.reg .fst, c.reg .snd with
    | some u, some u' =>
      let v := (s.bc.buf u'.b).data
      set { s.setData u.b v with latest := update s.latest u.blk v }
      return some { c with reg := update c.reg .fst (some { u with st := .dirty }), code := rest }
    | _, _ => return some c
  | .home :: rest =>
    match c.reg .fst, c.reg .snd with
    | some u, some u' =>
      set (s.setData u'.b (s.bc.buf u.b).data)
      return some { c with reg := update c.reg .snd (some { u' with st := .dirty }), code := rest }
    | _, _ => return some c
  | .head :: rest =>
    match c.reg .fst with
    | none => return some c
    | some u =>
      let v := putHead s.log.lh (s.bc.buf u.b).data
      set { s.setData u.b v with latest := update s.latest u.blk v }
      return some { c with reg := update c.reg .fst (some { u with st := .dirty }), code := rest }
  | .clear :: rest =>
    set { s with log := { s.log with lh := [] } }
    return some { c with code := rest }

/-! ## Events -/

inductive BioEvent
  | bread (i blk : Nat)
  | acquire (j : Nat)
  | change (j : Nat) (v : Block)
  | log_write (j : Nat)
  | brelse (j : Nat)
  | begin_op (i : Nat)
  | end_op (i : Nat)
  | commit

def onBioLog {α : Type} (x : Prog Log LogStop α) : Prog Bio BioStop α :=
  zoom (fun s => s.log) (fun s l => { s with log := l }) BioStop.log x

def Bio.setUse (s : Bio) (j : Nat) (o : Option Use) : Bio :=
  match o with
  | some u => { s with uses := s.uses.set j u }
  | none => { s with uses := s.uses.eraseIdx j }

/-- `log_write` of use `u`; a block new to the log is pinned. -/
def log_write (u : Use) : Prog Bio BioStop Unit := do
  let s ← get
  onBioLog (Log.log_write u.blk)
  if u.blk ∉ s.log.lh then modify fun s => { s with bc := s.bc.bpin u.b }
  modify fun s => { s with
    ops := s.ops.map fun t => if t.proc = u.proc then { t with blocks := insert u.blk t.blocks } else t }

/-- An event that cannot happen now changes nothing. -/
def BioEvent.run : BioEvent → Prog Bio BioStop Unit
  | .bread i blk => do
    let u ← bget i blk
    modify fun s => { s with uses := s.uses ++ [u] }
  | .acquire j => do
    let s ← get
    match s.uses[j]? with
    | none => return ()
    | some u =>
      let u ← acquireStep u
      modify fun s => s.setUse j (some u)
  | .change j v => do
    let s ← get
    match s.uses[j]? with
    | none => return ()
    | some u =>
      if u.held then
        set { s.setData u.b v with
          uses := s.uses.set j { u with st := .dirty }
          latest := update s.latest u.blk v }
  | .log_write j => do
    let s ← get
    match s.uses[j]? with
    | none => return ()
    | some u =>
      if u.held then
        Xv6.log_write u
        modify fun s => s.setUse j (some { u with st := .holding })
  | .brelse j => do
    let s ← get
    match s.uses[j]? with
    | none => return ()
    | some u =>
      let o ← releaseStep u
      modify fun s => s.setUse j o
  | .begin_op i => do
    if ← onBioLog Log.begin_op then modify fun s => { s with ops := s.ops ++ [⟨i, ∅⟩] }
  | .end_op i => do
    let s ← get
    if s.ops.any (·.proc = i) then
      modify fun s => { s with ops := s.ops.filter (·.proc ≠ i) }
      if ← onBioLog Log.end_op then modify fun s => { s with commit := some (.start i s.start s.log.lh) }
  | .commit => do
    let s ← get
    match s.commit with
    | none => return ()
    | some c =>
      let o ← c.step
      modify fun s => { s with commit := o }

def Bio.inOp (s : Bio) (i : Nat) : Prop := ∃ t ∈ s.ops, t.proc = i

instance Bio.decidableInOp (s : Bio) (i : Nat) : Decidable (s.inOp i) :=
  inferInstanceAs (Decidable (∃ t ∈ s.ops, t.proc = i))

/-- Data is changed within an operation only, through `log_write`, and never in the log itself. -/
def Logs : BioEvent → Bio → Prop
  | .change j _, s | .log_write j, s => ∀ u ∈ s.uses[j]?, s.inOp u.proc ∧ ¬ s.isLog u.blk
  | .brelse j, s => ∀ u ∈ s.uses[j]?, u.st ≠ .dirty
  | .begin_op i, s => ¬ s.inOp i
  | .end_op i, s => ∀ u ∈ s.uses, u.proc = i → u.st ≠ .dirty
  | _, _ => True

instance Logs.decidable : ∀ (e : BioEvent) (s : Bio), Decidable (Logs e s)
  | .change j _, s | .log_write j, s => inferInstanceAs (Decidable (∀ u ∈ s.uses[j]?, s.inOp u.proc ∧ ¬ s.isLog u.blk))
  | .brelse j, s => inferInstanceAs (Decidable (∀ u ∈ s.uses[j]?, u.st ≠ .dirty))
  | .begin_op i, s => inferInstanceAs (Decidable (¬ s.inOp i))
  | .end_op i, s => inferInstanceAs (Decidable (∀ u ∈ s.uses, u.proc = i → u.st ≠ .dirty))
  | .bread _ _, _ | .acquire _, _ | .commit, _ => inferInstanceAs (Decidable True)

def Bio.boot (disk : Nat → Block) (start : Nat) : Bio where
  bc := .binit
  disk := disk
  log := ⟨0, false, []⟩
  start := start
  ops := []
  uses := []
  commit := none
  latest := disk

end Xv6
