import Xv6.Solo
import Xv6.Pipe

/-!
# The seven loops in which a process waits

`kwait`, `join`, `sys_pause`, `piperead`, `pipewrite`, `consoleread` and
`sys_futex_wait` as programs over all that they look at. Each takes a lock,
looks at the data, perhaps asks whether it was killed, sleeps and looks again.
-/

namespace Xv6

open Monitor (Op)

abbrev INPUT_BUF_SIZE : Nat := 128

structure Kid where
  parent : Option Nat
  tgid : Int
  pid : Int
  state : ProcState
  xstate : Int

/-- What the loops look at. `copyout` is whether the next one goes through, `word` what `copyin`
finds in the futex, and `pid` that of the process itself. -/
structure World where
  pid : Int
  kid : Nat → Kid
  ticks : Nat
  pipe : PipeData
  buf : Nat → UInt8
  r : Nat
  w : Nat
  word : Option Int
  copyout : Bool

def World.quiet : World := ⟨1, fun _ => ⟨none, 0, 0, .UNUSED, 0⟩, 0, PipeData.new fun _ => 0, fun _ => 0, 0, 0, some 0, true⟩

def World.freeproc (d : World) (i : Nat) : World :=
  { d with kid := Function.update d.kid i ⟨none, (d.kid i).tgid, 0, .UNUSED, 0⟩ }

inductive WaitChan
  | self
  | ticks
  | pipe (c : PipeChan)
  | cons
  | uaddr

/-- `thread` tells `join` from `kwait`; `addr` is whether the exit status is asked for. -/
inductive WaitPc
  | out (r : Option Int)
  | unlock (r : Int)
  | kidsStart (thread addr : Bool)
  | kidsScan (thread addr : Bool) (i : Nat) (havekids : Bool)
  | kidsKilled (thread addr : Bool)
  | kidsSleep (thread addr : Bool)
  | kidsAgain (thread addr : Bool)
  | pauseStart (n : Int)
  | pauseRead (n : Int)
  | pauseTest (n : Int) (ticks0 : Nat)
  | pauseKilled (n : Int) (ticks0 : Nat)
  | pauseSleep (n : Int) (ticks0 : Nat)
  | pauseAgain (n : Int) (ticks0 : Nat)
  | consStart (n : Int)
  | consLoop (target n : Int)
  | consTest (target n : Int)
  | consKilled (target n : Int)
  | consSleep (target n : Int)
  | consAgain (target n : Int)
  | consTake (target n : Int)
  | pipe (k : PipePc)
  | futexStart (val : Int)
  | futexCheck (val : Int)
  | futexSleep (val : Int)
  | futexAgain (val : Int)

namespace WaitPc

/-- One round of the scan for children that have exited; process `p` is the parent. -/
def kidsRound (thread addr : Bool) (i : Nat) (havekids : Bool) (p : Nat) (d : World) : World × WaitPc :=
  if i < NPROC then
    if (d.kid i).parent = some p then
      -- join looks at the threads of the process, kwait at its other children
      if decide ((d.kid i).tgid = d.pid) = thread then
        if (d.kid i).state = .ZOMBIE then
          if thread = false ∧ addr = true ∧ d.copyout = false then (d, unlock (-1))
          else (d.freeproc i, unlock (d.kid i).pid)
        else (d, kidsScan thread addr (i + 1) true)
      else (d, kidsScan thread addr (i + 1) havekids)
    else (d, kidsScan thread addr (i + 1) havekids)
  else (d, if havekids = false then unlock (-1) else kidsKilled thread addr)

/-- `c = cons.buf[cons.r++ % INPUT_BUF_SIZE]` and what is done with it. -/
def consByte (target n : Int) (d : World) : World × WaitPc :=
  let c := d.buf (d.r % INPUT_BUF_SIZE)
  let d' := { d with r := (d.r + 1) % 2 ^ 32 }
  if c = 4 then (if n < target then d else d', unlock (target - n))
  else if d.copyout = false then (d', unlock (target - n))
  else if c = 10 then (d', unlock (target - (n - 1)))
  else (d', consLoop target (n - 1))

end WaitPc

open WaitPc in
def waitCode : WaitPc → Op World WaitPc WaitChan
  | out _ => .idle
  | unlock r => .release (out (some r))
  -- kwait and join
  | kidsStart thread addr => .acquire (kidsScan thread addr 0 false)
  | kidsScan thread addr i havekids => .act (kidsRound thread addr i havekids)
  | kidsKilled thread addr => .killed fun b => if b then unlock (-1) else kidsSleep thread addr
  | kidsSleep thread addr => .sleep .self (kidsAgain thread addr)
  | kidsAgain thread addr => .acquire (kidsScan thread addr 0 false)
  -- sys_pause, n already cut off at 0
  | pauseStart n => .acquire (pauseRead n)
  | pauseRead n => .act fun _ d => (d, pauseTest n d.ticks)
  | pauseTest n ticks0 => .act fun _ d =>
      (d, if ((d.ticks : Int) - ticks0) % 2 ^ 32 < n then pauseKilled n ticks0 else unlock 0)
  | pauseKilled n ticks0 => .killed fun b => if b then unlock (-1) else pauseSleep n ticks0
  | pauseSleep n ticks0 => .sleep .ticks (pauseAgain n ticks0)
  | pauseAgain n ticks0 => .acquire (pauseTest n ticks0)
  -- consoleread
  | consStart n => .acquire (consLoop n n)
  | consLoop target n => .act fun _ d => (d, if 0 < n then consTest target n else unlock (target - n))
  | consTest target n => .act fun _ d => (d, if d.r = d.w then consKilled target n else consTake target n)
  | consKilled target n => .killed fun b => if b then unlock (-1) else consSleep target n
  | consSleep target n => .sleep .cons (consAgain target n)
  | consAgain target n => .acquire (consTest target n)
  | consTake target n => .act fun _ d => consByte target n d
  -- piperead and pipewrite
  | pipe k => (pipeCode k).lift World.pipe (fun d x => { d with pipe := x }) pipe .pipe
  -- sys_futex_wait
  | futexStart val => .acquire (futexCheck val)
  | futexCheck val => .act fun _ d =>
      (d, match d.word with
        | none => unlock (-1)
        | some tmp => if tmp ≠ val then unlock 0 else futexSleep val)
  | futexSleep val => .sleep .uaddr (futexAgain val)
  | futexAgain val => .acquire (futexCheck val)

inductive WaitCall
  | kwait (addr : Bool)
  | join
  | sys_pause (n : Int)
  | piperead (a : ReadArgs)
  | pipewrite (a : WriteArgs)
  | consoleread (n : Int)
  | sys_futex_wait (val : Int)

def WaitCall.start : WaitCall → WaitPc
  | kwait addr => .kidsStart false addr
  | join => .kidsStart true false
  | sys_pause n => .pauseStart (max n 0)
  | piperead a => .pipe (.readStart a)
  | pipewrite a => .pipe (.writeStart a)
  | consoleread n => .consStart n
  | sys_futex_wait val => .futexStart val

abbrev WaitSys : Type := Monitor.Solo World WaitPc WaitChan

abbrev WaitEvent : Type := Monitor.SoloEvent World

abbrev waitRun (p : Nat) : WaitEvent → Hoare.Prog WaitSys Empty Unit := Monitor.SoloEvent.run waitCode p

abbrev WaitCall.boot (c : WaitCall) (d : World) : WaitSys := ⟨c.start, d, none, false⟩

end Xv6
