import Xv6.Monitor

/-!
# Futexes, and what user code makes of them

`sys_futex_wait` and `sys_futex_wake` under `futex_lock`, for threads that
share a word of memory and run any user code in between; and processes of
other address spaces that wait and wake on the same virtual address, which is
all that `sleep` and `wakeup` look at. The user code is the semaphore of
`semaphore.c` and the blocking mutex of `futex` in `ulib.c`.
-/

namespace Xv6

/-- What user code does next: change its memory, or call one of the two. -/
inductive UserOp (σ κ : Type)
  | idle
  | act (f : Nat → σ → σ × κ)
  | wait (val : Int) (k : κ)
  | wake (k : κ)

/-- The memory of the threads, and whether the `copyin`s from now on fail. -/
structure Shared (σ : Type) where
  mem : σ
  faults : Nat → Bool
  copies : Nat

inductive FutexPc (κ : Type)
  | user (k : κ)
  -- sys_futex_wait
  | waitCheck (val : Int) (k : κ)
  | waitSleep (val : Int) (k : κ)
  | waitAgain (val : Int) (k : κ)
  | waitDone (k : κ)
  -- sys_futex_wake
  | wakeScan (k : κ)
  | wakeDone (k : κ)
  -- both of them, called by a process of another address space; `same i`: its own word, the `i`-th time it is read
  | otherOut
  | otherWait (same : Nat → Option Bool)
  | otherCheck (same : Nat → Option Bool) (i : Nat)
  | otherSleep (same : Nat → Option Bool) (i : Nat)
  | otherAgain (same : Nat → Option Bool) (i : Nat)
  | otherWake
  | otherScan
  | otherDone

section
variable {σ κ : Type}

open FutexPc

def UserOp.op : UserOp σ κ → Monitor.Op (Shared σ) (FutexPc κ) Unit
  | .idle => .idle
  | .act f => .act fun p d => ({ d with mem := (f p d.mem).1 }, .user (f p d.mem).2)
  | .wait val k => .acquire (waitCheck val k)
  | .wake k => .acquire (wakeScan k)

/-- `user` is the code of the threads and `word` the word they wait on; its address is the only channel. -/
def futexCode (user : κ → UserOp σ κ) (word : σ → Int) : FutexPc κ → Monitor.Op (Shared σ) (FutexPc κ) Unit
  | .user k => (user k).op
  | waitCheck val k => .act fun _ d =>
      ({ d with copies := d.copies + 1 },
        if d.faults d.copies = true then waitDone k else if word d.mem = val then waitSleep val k else waitDone k)
  | waitSleep val k => .sleep () (waitAgain val k)
  | waitAgain val k => .acquire (waitCheck val k)
  | waitDone k => .release (.user k)
  | wakeScan k => .wakeup () (wakeDone k)
  | wakeDone k => .release (.user k)
  | otherOut => .idle
  | otherWait same => .acquire (otherCheck same 0)
  | otherCheck same i => .act fun _ d => (d, if same i = some true then otherSleep same i else otherDone)
  | otherSleep same i => .sleep () (otherAgain same i)
  | otherAgain same i => .acquire (otherCheck same (i + 1))
  | otherWake => .acquire otherScan
  | otherScan => .wakeup () otherDone
  | otherDone => .release otherOut

def FutexPc.isCall (start : κ → Bool) : FutexPc κ → Bool
  | .user k => start k
  | .otherWait _ | .otherWake => true
  | _ => false

end

/-- `sem_t`; the rest is history: who is between the `futex` that locks and the one that unlocks, and how often the
value was written by either operation. -/
structure Sem where
  lock : Int
  value : Int
  owner : Option Nat
  ups : Nat
  downs : Nat

inductive SemPc
  | out
  | downLock
  | downTest
  | downRead
  | downWrite (t : Int)
  | downUnlock
  | downVal
  | downLeave (val : Int)
  | downWait (val : Int)
  | upLock
  | upRead
  | upWrite (t : Int)
  | upWake
  | upUnlock

def int32 (x : Int) : Int := x.bmod (2 ^ 32)

namespace Sem

/-- One round of `while(__sync_lock_test_and_set(uaddr, 1) != 0);` -/
def trylock (again next : SemPc) (p : Nat) (d : Sem) : Sem × SemPc :=
  if d.lock = 0 then ({ d with lock := 1, owner := some p }, next) else ({ d with lock := 1 }, again)

/-- `__sync_lock_release(uaddr)` -/
def unlock (next : SemPc) (_ : Nat) (d : Sem) : Sem × SemPc := ({ d with lock := 0, owner := none }, next)

def init (v : Int) : Sem := ⟨0, v, none, 0, 0⟩

end Sem

open SemPc in
def semCode : SemPc → UserOp Sem SemPc
  | out => .idle
  -- sem_down
  | downLock => .act (Sem.trylock downLock downTest)
  | downTest => .act fun _ d => (d, if 0 < d.value then downRead else downVal)
  | downRead => .act fun _ d => (d, downWrite d.value)
  | downWrite t => .act fun _ d => ({ d with value := int32 (t - 1), downs := d.downs + 1 }, downUnlock)
  | downUnlock => .act (Sem.unlock out)
  | downVal => .act fun _ d => (d, downLeave d.value)
  | downLeave val => .act (Sem.unlock (downWait val))
  | downWait val => .wait val downLock
  -- sem_up
  | upLock => .act (Sem.trylock upLock upRead)
  | upRead => .act fun _ d => (d, upWrite d.value)
  | upWrite t => .act fun _ d => ({ d with value := int32 (t + 1), ups := d.ups + 1 }, upWake)
  | upWake => .wake upUnlock
  | upUnlock => .act (Sem.unlock out)

def SemPc.isCall : SemPc → Bool
  | .downLock | .upLock => true
  | _ => false

abbrev SemSys : Type := Monitor.Sys (Shared Sem) (FutexPc SemPc) Unit

abbrev SemEvent : Type := Monitor.Event (FutexPc SemPc)

abbrev semRun (n : Nat) : SemEvent → Hoare.Prog SemSys Empty Unit :=
  Monitor.Event.run n (futexCode semCode Sem.value) (FutexPc.isCall SemPc.isCall)

abbrev semBoot (faults : Nat → Bool) (v : Int) : SemSys := Monitor.Sys.boot ⟨Sem.init v, faults, 0⟩ (.user .out)

/-- The word, and, as history, the thread that has locked it. -/
structure Mutex where
  word : Int
  owner : Option Nat

inductive MutexPc
  | out
  | lockTas
  | lockWait
  | crit
  | unlockWake

open MutexPc in
/-- `futex(&l, FUTEX_LOCK, 1)`; `crit`, as long as the thread likes; `futex(&l, FUTEX_UNLOCK, 1)`. -/
def mutexCode : MutexPc → UserOp Mutex MutexPc
  | out => .idle
  | lockTas => .act fun p d => if d.word = 0 then (⟨1, some p⟩, crit) else (⟨1, d.owner⟩, lockWait)
  | lockWait => .wait 1 lockTas
  | crit => .act fun _ _ => (⟨0, none⟩, unlockWake)
  | unlockWake => .wake out

def MutexPc.isCall : MutexPc → Bool
  | .lockTas => true
  | _ => false

abbrev MutexSys : Type := Monitor.Sys (Shared Mutex) (FutexPc MutexPc) Unit

abbrev MutexEvent : Type := Monitor.Event (FutexPc MutexPc)

abbrev mutexRun (n : Nat) : MutexEvent → Hoare.Prog MutexSys Empty Unit :=
  Monitor.Event.run n (futexCode mutexCode Mutex.word) (FutexPc.isCall MutexPc.isCall)

abbrev mutexBoot (faults : Nat → Bool) : MutexSys := Monitor.Sys.boot ⟨⟨0, none⟩, faults, 0⟩ (.user .out)

end Xv6
