import Xv6.SmpSound

/-!
# The rest of a process's slot

`Smp` has the fields of a slot that decide who runs and who owns it. Here are
the others that `allocproc` leaves to whoever frees a slot, or sets itself,
with all that writes them: the system calls of the process, `kexit`,
`reparent`, `freeproc`, and the functions that go through the table and write
to slots that are not theirs (`kkill`, `setpriority`, `wakeup`, `mlfq_boost`).
-/

namespace Xv6

open Hoare Function

abbrev NMLFQ : Int := 4

abbrev MLFQ_BOOST : Nat := 100

def mlfq_slice : List Int := [1, 2, 4, 8]

structure More where
  xstate : Int
  cwd : Option Nat
  ofile : Nat → Option Nat
  vmas : Nat → Bool
  priority : Int
  ticks_used : Int

namespace More

def zero : More := ⟨0, none, fun _ => none, fun _ => false, 0, 0⟩

def alloc (m : More) : More := { m with vmas := fun _ => false, priority := 0, ticks_used := 0 }

def fill (m par : More) : More :=
  { m with
    ofile := fun fd => if (par.ofile fd).isSome then par.ofile fd else m.ofile fd
    cwd := par.cwd
    vmas := fun i => if par.vmas i then true else m.vmas i }

/-- What `freeproc` writes; the VMAs only if there is a page table. -/
def free (m : More) (table : Option Nat) : More :=
  { m with vmas := if table.isSome then fun _ => false else m.vmas, xstate := 0 }

/-- What `kexit` does for the process, and `reparent` for a thread. -/
def close (m : More) : More := { m with ofile := fun _ => none, cwd := none }

def setLevel (m : More) (priority : Int) : More := { m with priority := priority, ticks_used := 0 }

def level (m : More) : Int :=
  let pri := if m.priority < 0 then 0 else m.priority
  if NMLFQ ≤ pri then NMLFQ - 1 else pri

def tick (m : More) : More :=
  if mlfq_slice.getD m.level.toNat 0 ≤ m.ticks_used + 1 then
    { m with priority := if m.priority < NMLFQ - 1 then m.priority + 1 else m.priority, ticks_used := 0 }
  else { m with ticks_used := m.ticks_used + 1 }

end More

structure Table where
  smp : Smp
  more : Nat → More

def Table.allocproc (t : Table) (np : Nat) : Slot × More :=
  ({ t.smp.slot np with
      state := .USED, pid := t.smp.nextpid, tgid := t.smp.nextpid, thread_count := 1, table := some t.smp.nexttable },
    (t.more np).alloc)

/-- `kkill(pid)` and `setpriority(pid, ..)`, when they come to slot `p`, find the process they look for. -/
def Table.hits (t : Table) (pid : Int) (p : Nat) : Prop := p < NPROC ∧ ((t.smp.slot p).pid : Int) = pid

instance decidableHits (t : Table) (pid : Int) (p : Nat) : Decidable (t.hits pid p) := inferInstanceAs (Decidable (_ ∧ _))

section
variable (s : Smp) (m : Nat → More) (p : Nat)

def Call.make (np : Nat) (ok : Bool) : Nat → More :=
  if np < NPROC ∧ (s.slot np).state = .UNUSED then
    update m np (if ok then (m np).alloc.fill (m p) else (m np).alloc.free (some s.nexttable))
  else m

def Call.more : Call → Nat → More
  | .kfork np ok | .clone np ok => Call.make s m p np ok
  | _ => m

/-- `status` is that of the `kexit` the process is in. -/
def Act.more (fail : Bool) (status : Int) : Act → Nat → More
  | .exiting => if s.waitLock then m else update m p (m p).close
  | .reparent pp =>
    if pp < NPROC ∧ (s.slot pp).parent = some p ∧ (s.slot pp).tgid = (s.slot p).pid then
      update m pp ((m pp).close.free (s.slot pp).table)
    else m
  | .zombie => update m p { m p with xstate := status }
  | .scan thread pp _ =>
    if pp < NPROC ∧ ((s.slot pp).parent = some p ∧ ((s.slot pp).tgid = (s.slot p).pid ↔ thread = true)) ∧
        (s.slot pp).state = .ZOMBIE ∧ ¬ (fail ∧ ¬ thread) then
      update m pp ((m pp).free (s.slot pp).table)
    else m
  | _ => m

end

def SmpEvent.more (s : Smp) (m : Nat → More) (status : Int) : SmpEvent → Nat → More
  | .wakeup c chan p =>
    if s.cpu c ≠ some p ∧ p < NPROC ∧ (s.slot p).state = .SLEEPING ∧ (s.slot p).chan = some chan then
      update m p ((m p).setLevel 0)
    else m
  | .call c sc =>
    match s.cpu c with
    | none => m
    | some p => if (s.slot p).act = .user ∧ sc.refused (s.slot p) = false then sc.more s m p else m
  | .step c fail =>
    match s.cpu c with
    | none => m
    | some p => (s.slot p).act.more s m p fail status
  | _ => m

inductive TableEvent
  | smp (e : SmpEvent) (status : Int)
  | kkill (pid : Int) (p : Nat)
  | setpriority (pid priority : Int) (p : Nat)
  | mlfq_tick (c : Nat)
  | mlfq_boost (p : Nat)
  | setkilled (c : Nat)
  /-- The system calls of the process that CPU `c` runs: files, directory, mappings, and the size that `kexec` sets. -/
  | setOfile (c fd : Nat) (f : Option Nat)
  | setCwd (c : Nat) (ip : Nat)
  | setVma (c i : Nat) (used : Bool)
  | setSz (c sz : Nat)

namespace Table

def setMore (t : Table) (p : Nat) (x : More) : Table := { t with more := update t.more p x }

def own (t : Table) (c : Nat) (f : Nat → Table) : Table :=
  match t.smp.cpu c with
  | none => t
  | some p => if (t.smp.slot p).act = .user then f p else t

end Table

def TableEvent.next (t : Table) : TableEvent → Table
  | .smp e status => ⟨e.next t.smp, e.more t.smp t.more status⟩
  | .kkill pid p => if t.hits pid p then { t with smp := (SmpEvent.kkill (t.smp.slot p).pid p).next t.smp } else t
  | .setpriority pid priority p =>
    if priority < 0 ∨ NMLFQ ≤ priority then t
    else if t.hits pid p then t.setMore p ((t.more p).setLevel priority) else t
  | .mlfq_tick c =>
    match t.smp.cpu c with
    | none => t
    | some p => t.setMore p (t.more p).tick
  | .mlfq_boost p => if p < NPROC ∧ (t.smp.slot p).state ≠ .UNUSED then t.setMore p ((t.more p).setLevel 0) else t
  | .setkilled c =>
    match t.smp.cpu c with
    | none => t
    | some p => { t with smp := t.smp.put p { t.smp.slot p with killed := true } }
  | .setOfile c fd f => t.own c fun p => t.setMore p { t.more p with ofile := update (t.more p).ofile fd f }
  | .setCwd c ip => t.own c fun p => t.setMore p { t.more p with cwd := some ip }
  | .setVma c i used => t.own c fun p => t.setMore p { t.more p with vmas := update (t.more p).vmas i used }
  | .setSz c sz => t.own c fun p => { t with smp := t.smp.put p { t.smp.slot p with sz := sz } }

def TableEvent.run (e : TableEvent) : Prog Table SysStop Unit := do
  let t ← get
  match e with
  | .smp (.call c .kexit) _ => if t.smp.cpu c = some t.smp.initproc then throw .initExiting else set (e.next t)
  | _ => set (e.next t)

/-- The table, all zero, with the first process in slot 0 as `userinit` leaves it. -/
def Table.start (root : Nat) : Table where
  smp := Smp.start fun _ => blankSlot
  more := fun i => if i = 0 then { More.zero with cwd := some root } else More.zero

end Xv6
