import Xv6.Steps
import Xv6.Sys

/-!
# The process table on several CPUs

What the functions of `proc.c` do to the table, one section under a lock
after the other. A CPU switches to a process and away from it with the lock
of the process held, so that each is one section with the change of state.
The rounds of `wakeup`, `kkill` and `update_sz` are sections of their own. Where a process
has got to in the kernel is kept with its slot, like its kernel stack; a CPU
that runs a slot goes on there even when the slot has been freed.
-/

namespace Xv6

open Hoare Function

/-- What a process does next in the kernel. -/
inductive Act
  | user
  /-- `kfork` or `clone`: `np->parent = p`, then `np->state = RUNNABLE`. -/
  | link (np : Nat) (thread : Bool)
  | publish (np : Nat) (thread : Bool)
  /-- `clone`: `p->thread_count += 1`, then `np->tgid = p->tgid`. -/
  | count (np : Nat)
  | name (np : Nat)
  /-- `kexit`, before `acquire(&wait_lock)`. -/
  | exiting
  | reparent (pp : Nat)
  | zombie
  /-- `kwait` or `join`, before `acquire(&wait_lock)` and in the scan of the table. -/
  | waiting (thread : Bool)
  | scan (thread : Bool) (pp : Nat) (havekids : Bool)
  /-- `update_sz(tgid, sz)`, which has come to slot `j`. -/
  | resize (tgid sz j : Nat)
  deriving DecidableEq, Repr

def Act.locked : Act → Bool
  | .reparent _ | .zombie | .scan .. => true
  | _ => false

structure Slot where
  state : ProcState
  chan : Option Chan
  killed : Bool
  pid : Nat
  tgid : Nat
  parent : Option Nat
  table : Option Nat
  thread_count : Nat
  sz : Nat
  act : Act

structure Smp where
  slot : Nat → Slot
  cpu : Nat → Option Nat
  waitLock : Bool
  nextpid : Nat
  initproc : Nat
  /-- Page tables are numbered as they are made; for whom each was made. -/
  nexttable : Nat
  maker : Nat → Nat

def Smp.put (s : Smp) (p : Nat) (q : Slot) : Smp := { s with slot := update s.slot p q }

def Smp.goto (s : Smp) (p : Nat) (a : Act) : Smp := s.put p { s.slot p with act := a }

def Slot.free (q : Slot) : Slot :=
  { q with table := none, sz := 0, pid := 0, parent := none, chan := none, killed := false, state := .UNUSED }

def Smp.freeproc (s : Smp) (p : Nat) : Smp := s.put p (s.slot p).free

def Smp.sched (s : Smp) (c p : Nat) (state : ProcState) (chan : Option Chan) : Smp :=
  { s.put p { s.slot p with state := state, chan := chan } with cpu := update s.cpu c none }

def Smp.alloc (s : Smp) (p np : Nat) (thread : Bool) : Smp :=
  { s.put np { s.slot np with
      state := .USED
      pid := s.nextpid
      tgid := s.nextpid
      thread_count := 1
      table := if thread then (s.slot p).table else some s.nexttable
      sz := (s.slot p).sz
      act := .user } with
    nextpid := s.nextpid + 1
    nexttable := s.nexttable + 1
    maker := update s.maker s.nexttable np }

def Smp.adopt (s : Smp) (p pp : Nat) : Smp :=
  if (s.slot pp).parent = some p then
    if (s.slot pp).tgid = (s.slot p).pid then
      let s' := s.freeproc pp
      s'.put p { s'.slot p with thread_count := (s'.slot p).thread_count - 1 }
    else s.put pp { s.slot pp with parent := some s.initproc }
  else s

def Smp.reap (s : Smp) (p pp : Nat) (thread : Bool) : Smp :=
  let s' := { s.freeproc pp with waitLock := false }
  if thread then s'.put p { s'.slot p with thread_count := (s'.slot p).thread_count - 1 } else s'

/-- Process `p` on CPU `c` goes on; `fail` says whether a `copyout` fails. -/
def Act.step (fail : Bool) (s : Smp) (c p : Nat) : Act → Smp
  | .user => s
  | .link np thread =>
    if s.waitLock then s else (s.put np { s.slot np with parent := some p }).goto p (.publish np thread)
  | .publish np thread =>
    (s.put np { s.slot np with state := .RUNNABLE }).goto p (if thread then .count np else .user)
  | .count np => (s.put p { s.slot p with thread_count := (s.slot p).thread_count + 1 }).goto p (.name np)
  | .name np => (s.put np { s.slot np with tgid := (s.slot p).tgid }).goto p .user
  | .exiting => if s.waitLock then s else { s with waitLock := true }.goto p (.reparent 0)
  | .reparent pp => if pp < NPROC then (s.adopt p pp).goto p (.reparent (pp + 1)) else s.goto p .zombie
  | .zombie => { s with waitLock := false }.sched c p .ZOMBIE none
  | .waiting thread => if s.waitLock then s else { s with waitLock := true }.goto p (.scan thread 0 false)
  | .scan thread pp havekids =>
    if pp < NPROC then
      if (s.slot pp).parent = some p ∧ ((s.slot pp).tgid = (s.slot p).pid ↔ thread = true) then
        if (s.slot pp).state = .ZOMBIE then
          if fail ∧ ¬ thread then { s with waitLock := false }.goto p .user
          else (s.reap p pp thread).goto p .user
        else s.goto p (.scan thread (pp + 1) true)
      else s.goto p (.scan thread (pp + 1) havekids)
    else if ¬ havekids ∨ (s.slot p).killed then { s with waitLock := false }.goto p .user
    else { s with waitLock := false }.goto p (.waiting thread) |>.sched c p .SLEEPING (some (.proc p))
  | .resize tgid sz j =>
    if j < NPROC then
      (if (s.slot j).tgid = tgid then s.put j { s.slot j with sz := sz } else s).goto p (.resize tgid sz (j + 1))
    else s.goto p .user

/-- The system calls that look at the table or at `pid` and `tgid`. A call that makes a process names the free slot
`allocproc` finds, and whether there is memory for it; `sbrk` has the new size, and whether it is lazy. -/
inductive Call
  | kfork (np : Nat) (ok : Bool) | clone (np : Nat) (ok : Bool) | kexec | mmap | munmap | sbrk (sz : Nat) (lazily : Bool)
  | kexit | kwait | join
  deriving DecidableEq, Repr

/-- Does the call return -1 for the caller's `pid`, `tgid` and `thread_count`? -/
def Call.refused (q : Slot) : Call → Bool
  | .kfork .. | .clone .. | .mmap | .munmap => q.pid != q.tgid
  | .kexec => q.pid != q.tgid || decide (1 < q.thread_count)
  | .sbrk .. | .kexit | .kwait | .join => false

/-- What process `p` does to the table before its call first gives up a lock. -/
def Call.step (s : Smp) (p : Nat) : Call → Smp
  | .kfork np ok =>
    if np < NPROC ∧ (s.slot np).state = .UNUSED then
      if ok then (s.alloc p np false).goto p (.link np false) else (s.alloc p np false).freeproc np
    else s
  | .clone np ok =>
    if np < NPROC ∧ (s.slot np).state = .UNUSED then
      if ok then (s.alloc p np true).goto p (.link np true) else (s.alloc p np true).freeproc np
    else s
  | .kexec =>
    { s.put p { s.slot p with table := some s.nexttable } with
      nexttable := s.nexttable + 1
      maker := update s.maker s.nexttable p }
  | .mmap | .munmap => s
  | .sbrk sz lazily =>
    (if lazily then s.put p { s.slot p with sz := sz } else s).goto p (.resize (s.slot p).tgid sz 0)
  | .kexit => s.goto p .exiting
  | .kwait => s.goto p (.waiting false)
  | .join => s.goto p (.waiting true)

inductive SmpEvent
  | schedule (c p : Nat)
  | yield (c : Nat)
  | sleep (c : Nat) (chan : Chan)
  /-- The code that CPU `c` runs calls `wakeup(chan)`, which has come to slot `p`. -/
  | wakeup (c : Nat) (chan : Chan) (p : Nat)
  | kkill (pid p : Nat)
  | call (c : Nat) (sc : Call)
  | step (c : Nat) (fail : Bool)
  deriving DecidableEq, Repr

def SmpEvent.next (s : Smp) : SmpEvent → Smp
  | .schedule c p =>
    if s.cpu c = none ∧ p < NPROC ∧ (s.slot p).state = .RUNNABLE then
      { s.put p { s.slot p with state := .RUNNING } with cpu := update s.cpu c (some p) }
    else s
  | .yield c =>
    match s.cpu c with
    | none => s
    | some p => if (s.slot p).act.locked then s else s.sched c p .RUNNABLE (s.slot p).chan
  | .sleep c chan =>
    match s.cpu c with
    | none => s
    | some p =>
      if (s.slot p).act = .user ∨ (s.slot p).act = .exiting then s.sched c p .SLEEPING (some chan) else s
  | .wakeup c chan p =>
    if s.cpu c ≠ some p ∧ p < NPROC ∧ (s.slot p).state = .SLEEPING ∧ (s.slot p).chan = some chan then
      s.put p { s.slot p with state := .RUNNABLE }
    else s
  | .kkill pid p =>
    if p < NPROC ∧ (s.slot p).pid = pid then
      s.put p { s.slot p with
        killed := true
        state := if (s.slot p).state = .SLEEPING then .RUNNABLE else (s.slot p).state }
    else s
  | .call c sc =>
    match s.cpu c with
    | none => s
    | some p => if (s.slot p).act = .user ∧ sc.refused (s.slot p) = false then sc.step s p else s
  | .step c fail =>
    match s.cpu c with
    | none => s
    | some p => (s.slot p).act.step fail s c p

/-- The first process must not exit. -/
def SmpEvent.run (e : SmpEvent) : Prog Smp SysStop Unit := do
  let s ← get
  match e with
  | .call c .kexit => if s.cpu c = some s.initproc then throw .initExiting else set (e.next s)
  | _ => set (e.next s)

def Smp.start (slot : Nat → Slot) : Smp where
  slot := fun i => if i = 0 then ⟨.RUNNABLE, none, false, 1, 1, none, some 0, 1, 0, .user⟩
    else { slot i with state := .UNUSED, parent := none, table := none }
  cpu := fun _ => none
  waitLock := false
  nextpid := 2
  initproc := 0
  nexttable := 1
  maker := fun _ => 0

end Xv6
