import Xv6.Monitor
import Xv6.Sys

/-!
# Pipes

`pipewrite`, `piperead` and `pipeclose` as programs of processes that share a
pipe and its lock `pi->lock`. Every point at which another process can come
in between, or at which the code tests `killed`, is a point of the program.
The end of a call carries the value it returns. When both ends are closed
`pipeclose` also frees the page; by then no file leads to the pipe.
-/

namespace Xv6

abbrev PIPESIZE : Nat := 512

inductive PipeChan
  | nread
  | nwrite
  deriving DecidableEq

/-- The fields of `struct pipe` under its lock; `accepted` and `delivered` are history and read by nobody. -/
structure PipeData where
  data : Nat → UInt8
  nread : Nat
  nwrite : Nat
  readopen : Bool
  writeopen : Bool
  accepted : List UInt8
  delivered : List UInt8

/-- What `pipewrite(pi, addr, n)` finds at `addr + i`; nothing where `copyin` fails. -/
structure WriteArgs where
  n : Int
  src : Nat → Option UInt8

structure ReadArgs where
  n : Int
  dst : Nat → Bool

/-- `i` is the loop variable; `fresh` is history: whether bytes were put in since the lock was taken. -/
inductive PipePc
  | out (r : Option Int)
  | writeStart (a : WriteArgs)
  | writeLoop (a : WriteArgs) (i : Nat) (fresh : Bool)
  | writeKilled (a : WriteArgs) (i : Nat) (fresh : Bool)
  | writeBody (a : WriteArgs) (i : Nat) (fresh : Bool)
  | writeFull (a : WriteArgs) (i : Nat)
  | writeSleep (a : WriteArgs) (i : Nat)
  | writeAgain (a : WriteArgs) (i : Nat)
  | writeDone (i : Nat)
  | readStart (a : ReadArgs)
  | readWait (a : ReadArgs)
  | readKilled (a : ReadArgs)
  | readSleep (a : ReadArgs)
  | readAgain (a : ReadArgs)
  | readCopy (a : ReadArgs) (i : Nat)
  | readDone (r : Int)
  | closeStart (writable : Bool)
  | closeSet (writable : Bool)
  | closeWake (writable : Bool)
  | unlock (r : Int)

namespace PipeData

/-- The state `pipealloc` leaves; what the page held before is anything. -/
def new (data : Nat → UInt8) : PipeData := ⟨data, 0, 0, true, true, [], []⟩

def put (d : PipeData) (ch : UInt8) : PipeData :=
  { d with
    data := Function.update d.data (d.nwrite % PIPESIZE) ch
    nwrite := (d.nwrite + 1) % 2 ^ 32
    accepted := d.accepted ++ [ch] }

def get (d : PipeData) : PipeData :=
  { d with nread := (d.nread + 1) % 2 ^ 32, delivered := d.delivered ++ [d.data (d.nread % PIPESIZE)] }

def full (d : PipeData) : Prop := d.nwrite = (d.nread + PIPESIZE) % 2 ^ 32

instance decidableFull (d : PipeData) : Decidable d.full := inferInstanceAs (Decidable (_ = _))

end PipeData

open PipePc in
/-- The C text from one point to the next. -/
def pipeCode : PipePc → Monitor.Op PipeData PipePc PipeChan
  | out _ => .idle
  -- pipewrite
  | writeStart a => .acquire (writeLoop a 0 false)
  | writeLoop a i fresh => .act fun _ d =>
      (d, if (i : Int) < a.n then if d.readopen = false then unlock (-1) else writeKilled a i fresh else writeDone i)
  | writeKilled a i fresh => .killed fun b => if b then unlock (-1) else writeBody a i fresh
  | writeBody a i _ => .act fun _ d =>
      if d.full then (d, writeFull a i)
      else match a.src i with
        | none => (d, writeDone i)
        | some ch => (d.put ch, writeLoop a (i + 1) true)
  | writeFull a i => .wakeup .nread (writeSleep a i)
  | writeSleep a i => .sleep .nwrite (writeAgain a i)
  | writeAgain a i => .acquire (writeLoop a i false)
  | writeDone i => .wakeup .nread (unlock i)
  -- piperead
  | readStart a => .acquire (readWait a)
  | readWait a => .act fun _ d => (d, if d.nread = d.nwrite ∧ d.writeopen = true then readKilled a else readCopy a 0)
  | readKilled a => .killed fun b => if b then unlock (-1) else readSleep a
  | readSleep a => .sleep .nread (readAgain a)
  | readAgain a => .acquire (readWait a)
  | readCopy a i => .act fun _ d =>
      if (i : Int) < a.n then
        if d.nread = d.nwrite then (d, readDone i)
        else if a.dst i = false then (d, readDone (if i = 0 then -1 else i))
        else (d.get, readCopy a (i + 1))
      else (d, readDone i)
  | readDone r => .wakeup .nwrite (unlock r)
  -- pipeclose
  | closeStart w => .acquire (closeSet w)
  | closeSet w => .act fun _ d => (if w then { d with writeopen := false } else { d with readopen := false }, closeWake w)
  | closeWake w => .wakeup (if w then .nread else .nwrite) (unlock 0)
  | unlock r => .release (out (some r))

def PipePc.isCall : PipePc → Bool
  | .writeStart _ | .readStart _ | .closeStart _ => true
  | _ => false

abbrev PipeSys : Type := Monitor.Sys PipeData PipePc PipeChan

abbrev PipeEvent : Type := Monitor.Event PipePc

abbrev pipeRun (n : Nat) : PipeEvent → Hoare.Prog PipeSys Empty Unit := Monitor.Event.run n pipeCode PipePc.isCall

abbrev pipeBoot (data : Nat → UInt8) : PipeSys := Monitor.Sys.boot (PipeData.new data) (.out none)

end Xv6
