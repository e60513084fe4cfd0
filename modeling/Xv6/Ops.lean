import Xv6.Exec

/-!
# Runs of the kernel

Booting, and what processes can ask for, one call after the other. A call
that would have to wait for another process is `blocked` and is no step.
-/

namespace Xv6

open Hoare

variable [Image]

def setkilled (p : Nat) : F Unit := do
  acquire (.proc p)
  modify fun s => s.setRun p fun r => { r with killed := true }
  release (.proc p)

/-- `usertrap` for a page fault at `va`. -/
def pagefault (va : Nat) (read : Bool) : K Unit := do
  let me ← myproc
  let p ← getProc me
  match ← onV (vmfault p (← tableOf me) va read) with
  | some _ => return ()
  | none =>
    ksys (setkilled me)
    kexit (-1)

inductive Op
  | fork
  | exec (path : Option Nat) (argv : List (List UInt8))
  | exit (status : Int)
  | wait (addr : Nat)
  | sbrk (n : Int) (eager : Bool)
  | mmap (addr len prot flags fd off : Nat)
  | munmap (addr len : Nat)
  | fault (va : Nat) (read : Bool)
  | opens (ip omode : Nat)
  | dup (fd : Nat)
  | close (fd : Nat)
  | clone (fn arg stack : Nat)
  | join

def Op.run : Op → K Unit
  | .fork => do let _ ← kfork
  | .exec path argv => do let _ ← kexec path argv
  | .exit status => kexit status
  | .wait addr => do let _ ← kwait addr
  | .sbrk n eager => do let _ ← sys_sbrk n eager
  | .mmap addr len prot flags fd off => do let _ ← sys_mmap addr len prot flags fd off
  | .munmap addr len => do let _ ← sys_munmap addr len
  | .fault va read => pagefault va read
  | .opens ip omode => do let _ ← sys_open ip omode
  | .dup fd => do let _ ← sys_dup fd
  | .close fd => do let _ ← sys_close fd
  | .clone fn arg stack => do let _ ← Xv6.clone fn arg stack
  | .join => do let _ ← Xv6.join

def Kernel.ready (k : Kernel) (i : Nat) : Prop :=
  i < NPROC ∧ ((k.sys.run i).state = .RUNNABLE ∨ (k.sys.run i).state = .RUNNING)

instance (k : Kernel) (i : Nat) : Decidable (k.ready i) := inferInstanceAs (Decidable (_ ∧ _))

def act (i : Nat) (op : Op) : K Unit := do
  let k ← get
  if k.ready i then
    ksys (modify fun s => { s with cur := i })
    op.run
  else return ()

/-- What the kernel finds when it starts, and what it cannot foresee. -/
structure Config where
  mem : Mem
  npages : Nat
  inode : Nat → Inode
  bfree : Nat
  waits : Nat → Bool
  root : Nat

def Proc.unused : Proc := ⟨0, 0, 0, none, 0, none, none, ⟨0, 0, 0, 0⟩, fun _ => none, none, fun _ => Vma.zero⟩

/-- The kernel's data before `main` runs; slot `NPROC` stands for no process. -/
def Config.start (c : Config) : Kernel where
  sys :=
    { held := [], cur := NPROC, run := fun _ => ⟨.UNUSED, none, false, 0, 0, 0⟩, outstanding := 0, committing := false,
      file := fun _ => ⟨.FD_NONE, 0, false, false, 0, 0⟩,
      inode := fun ip => { c.inode ip with ref := 0, locked := false, valid := false },
      pipe := fun _ => ⟨false, false⟩, bfree := c.bfree, waits := c.waits, nwait := 0, nextpid := 1, initproc := NPROC }
  mem := { c.mem with freelist := [] }
  procs := fun _ => Proc.unused
  kpages := []

def takePage : K Unit := do
  match ← kmem kalloc with
  | none => throw (.mem (.panic .kalloc))
  | some pa => modify fun k => { k with kpages := pa :: k.kpages }

def boot (c : Config) : K Unit := do
  kmem kinit
  forN (fun _ => takePage) c.npages
  userinit c.root

end Xv6
