import Xv6.Steps

/-!
# The log

`log.c`: file-system operations between `begin_op` and `end_op`, the commit of
a group of them block by block, and recovery. The disk is the log's header,
its data blocks and all other blocks; those that `log_write` gets are never
of the log itself. `lh` is `log.lh.block[0 .. log.lh.n)`.
-/

namespace Xv6

open Hoare Function

abbrev MAXOPBLOCKS : Nat := 10
abbrev LOGBLOCKS : Nat := MAXOPBLOCKS * 3

structure Log where
  outstanding : Int
  committing : Bool
  lh : List Nat
deriving DecidableEq

inductive LogStop
  | tooBig | outside | committing
deriving DecidableEq

namespace Log

/-- `begin_op`: `false` when it goes to sleep. -/
def begin_op : Prog Log LogStop Bool := do
  let l ← get
  if l.committing then return false
  else if (LOGBLOCKS : Int) < l.lh.length + (l.outstanding + 1) * MAXOPBLOCKS then return false
  else
    set { l with outstanding := l.outstanding + 1 }
    return true

def log_write (blockno : Nat) : Prog Log LogStop Unit := do
  let l ← get
  if LOGBLOCKS ≤ l.lh.length then throw .tooBig
  else if l.outstanding < 1 then throw .outside
  -- log absorption
  else if blockno ∈ l.lh then return ()
  else set { l with lh := l.lh ++ [blockno] }

/-- `end_op` up to `commit`: `do_commit`. -/
def end_op : Prog Log LogStop Bool := do
  let l ← get
  if l.committing then throw .committing
  else if l.outstanding - 1 = 0 then
    set { l with outstanding := l.outstanding - 1, committing := true }
    return true
  else
    set { l with outstanding := l.outstanding - 1 }
    return false

end Log

/-! ## The disk and the buffer cache -/

abbrev Block := Nat → UInt8

structure LogDisk where
  /-- The header block: the numbers of the blocks of a committed transaction. -/
  head : List Nat
  /-- Block `log.start + 1 + i`. -/
  slot : Nat → Block
  home : Nat → Block

/-- One round of `install_trans` with the header `lh`: block `tail` of the log goes home. -/
def LogDisk.install (d : LogDisk) (lh : List Nat) (tail : Nat) : LogDisk :=
  { d with home := update d.home (lh.getD tail 0) (d.slot tail) }

def LogDisk.installN (d : LogDisk) (lh : List Nat) : Nat → LogDisk
  | 0 => d
  | n + 1 => (d.installN lh n).install lh n

def LogDisk.clear (d : LogDisk) : LogDisk := { d with head := [] }

def LogDisk.recover (d : LogDisk) : LogDisk := (d.installN d.head d.head.length).clear

/-- What disk `recover_from_log` can leave behind, if crashes cut it short any number of times. -/
inductive Recovers : LogDisk → LogDisk → Prop
  | done (d : LogDisk) : Recovers d d.recover
  | cut {d d' : LogDisk} {n : Nat} : n ≤ d.head.length → Recovers (d.installN d.head n) d' → Recovers d d'
  /-- The header was cleared, but the crash came before the system went on. -/
  | late {d d' : LogDisk} : Recovers d.recover d' → Recovers d d'

inductive Phase
  | idle
  | writeLog (tail : Nat)
  | writeHead
  | install (tail : Nat)
  | erase
  | done
deriving DecidableEq

structure LogSys where
  log : Log
  /-- The operations between `begin_op` and `end_op`, each with the blocks it passed to `log_write`. -/
  ops : List (Finset Nat)
  phase : Phase
  disk : LogDisk
  cache : Nat → Option Block

def LogSys.read (s : LogSys) (b : Nat) : Block := (s.cache b).getD (s.disk.home b)

def LogSys.pinned (s : LogSys) : List Nat :=
  match s.phase with
  | .install tail => s.log.lh.drop tail
  | .erase | .done => []
  | .idle | .writeLog _ | .writeHead => s.log.lh

/-! ## Events -/

inductive LogEvent
  | begin_op
  /-- Operation `i` changes block `b` to `v` and passes it to `log_write`. -/
  | write (i b : Nat) (v : Block)
  | end_op (i : Nat)
  | evict (b : Nat)
  | commit

def onLog {α : Type} (x : Prog Log LogStop α) : Prog LogSys LogStop α :=
  zoom (fun s => s.log) (fun s l => { s with log := l }) id x

def nextTail (s : LogSys) (tail : Nat) (more : Nat → Phase) (last : Phase) : Phase :=
  if tail + 1 < s.log.lh.length then more (tail + 1) else last

/-- One block write of `commit`, or its end; nothing when nobody commits. -/
def commitStep (s : LogSys) : LogSys :=
  match s.phase with
  | .idle => s
  | .writeLog tail =>
    { s with
      disk := { s.disk with slot := update s.disk.slot tail (s.read (s.log.lh.getD tail 0)) }
      phase := nextTail s tail .writeLog .writeHead }
  | .writeHead => { s with disk := { s.disk with head := s.log.lh }, phase := .install 0 }
  | .install tail =>
    { s with
      disk := s.disk.install s.log.lh tail
      cache := update s.cache (s.log.lh.getD tail 0) (some (s.disk.slot tail))
      phase := nextTail s tail .install .erase }
  | .erase => { s with log := { s.log with lh := [] }, disk := s.disk.clear, phase := .done }
  | .done => { s with log := { s.log with committing := false }, phase := .idle }

def LogEvent.run : LogEvent → Prog LogSys LogStop Unit
  | .begin_op => do
    if ← onLog Log.begin_op then modify fun s => { s with ops := s.ops ++ [∅] }
  | .write i b v => do
    let s ← get
    match s.ops[i]? with
    | none => return ()
    | some S =>
      modify fun s => { s with cache := update s.cache b (some v) }
      onLog (Log.log_write b)
      modify fun s => { s with ops := s.ops.set i (insert b S) }
  | .end_op i => do
    let s ← get
    match s.ops[i]? with
    | none => return ()
    | some _ =>
      modify fun s => { s with ops := s.ops.eraseIdx i }
      if ← onLog Log.end_op then
        modify fun s => { s with phase := if s.log.lh.length = 0 then .done else .writeLog 0 }
  | .evict b => modify fun s => if b ∈ s.pinned then s else { s with cache := update s.cache b none }
  | .commit => modify commitStep

def Obeys : LogEvent → LogSys → Prop
  | .write i b _, s => ∀ S ∈ s.ops[i]?, (insert b S).card ≤ MAXOPBLOCKS
  | _, _ => True

instance : ∀ (e : LogEvent) (s : LogSys), Decidable (Obeys e s)
  | .write i b _, s => inferInstanceAs (Decidable (∀ S ∈ s.ops[i]?, (insert b S).card ≤ MAXOPBLOCKS))
  | .begin_op, _ | .end_op _, _ | .evict _, _ | .commit, _ => inferInstanceAs (Decidable True)

def LogSys.boot (d : LogDisk) : LogSys where
  log := ⟨0, false, []⟩
  ops := []
  phase := .idle
  disk := d.recover
  cache := fun _ => none

end Xv6
