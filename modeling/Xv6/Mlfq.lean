import Xv6.Table

/-!
# The scheduler

One scan of the table by `scheduler`, with the locks it holds, and the timer
interrupt, on one CPU: `clockintr`, then `mlfq_tick` and `yield` for the
process it interrupted. The interrupt is put together from the events of the
table.
-/

namespace Xv6

/-! ## The scan -/

/-- `chosen`, `chosen_pri`, and which processes' locks are held. -/
structure Scan where
  chosen : Option Nat
  chosen_pri : Int
  locked : Nat → Bool

def Scan.acquire (x : Scan) (p : Nat) : Scan := { x with locked := Function.update x.locked p true }

def Scan.release (x : Scan) (p : Nat) : Scan := { x with locked := Function.update x.locked p false }

def Scan.drop (x : Scan) : Scan :=
  match x.chosen with
  | none => x
  | some c => x.release c

namespace Table

def visit (t : Table) (p : Nat) (x : Scan) : Scan :=
  if (t.smp.slot p).state = .RUNNABLE ∧ (t.more p).priority < x.chosen_pri then
    { (x.acquire p).drop with chosen := some p, chosen_pri := (t.more p).priority }
  else (x.acquire p).release p

def scanTo (t : Table) : Nat → Scan
  | 0 => ⟨none, NMLFQ, fun _ => false⟩
  | k + 1 => t.visit k (t.scanTo k)

def scan (t : Table) : Scan := t.scanTo NPROC

end Table

/-! ## The timer on one CPU -/

structure Clock where
  table : Table
  ticks : Nat

variable (tk : Chan)

/-- `wakeup(&ticks)`; `tk` is that address. -/
def wakeTicks (t : Table) : Nat → Table
  | 0 => t
  | k + 1 => (TableEvent.smp (.wakeup 0 tk k) 0).next (wakeTicks t k)

def boostTo (t : Table) : Nat → Table
  | 0 => t
  | k + 1 => (TableEvent.mlfq_boost k).next (boostTo t k)

def clockintr (x : Clock) : Clock :=
  let ticks := (x.ticks + 1) % 2 ^ 32
  let t := wakeTicks tk x.table NPROC
  ⟨if ticks % MLFQ_BOOST = 0 then boostTo t NPROC else t, ticks⟩

/-- The timer interrupts the process that runs, which is not killed. -/
def Clock.timer (x : Clock) : Clock :=
  let x := clockintr tk x
  { x with table := (TableEvent.smp (.yield 0) 0).next ((TableEvent.mlfq_tick 0).next x.table) }

def Clock.dispatch (x : Clock) : Clock × Option Nat :=
  match x.table.scan.chosen with
  | none => (x, none)
  | some p => ({ x with table := (TableEvent.smp (.schedule 0 p) 0).next x.table }, some p)

/-- `k` times a process is picked and runs until the next tick; who was picked. -/
def Clock.turns : Nat → Clock → Clock × List (Option Nat)
  | 0, x => (x, [])
  | k + 1, x =>
    let d := x.dispatch
    let r := Clock.turns k (d.1.timer tk)
    (r.1, d.2 :: r.2)

end Xv6
