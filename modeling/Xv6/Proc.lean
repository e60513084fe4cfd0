import Xv6.Fault

/-!
# Processes

`proc.c`, with the system calls of `sysproc.c` and `sysfile.c` that change a
process's memory. The process table is indexed by slot; a parent is a slot.
-/

namespace Xv6

open Hoare Function

structure Kernel where
  sys : Sys
  mem : Mem
  procs : Nat → Proc
  /-- The pages that `main` took for the kernel's own page table and stacks. -/
  kpages : List Nat

abbrev K := Prog Kernel Stop

def onV {α : Type} (x : V α) : K α :=
  zoom (fun k => ⟨k.sys, k.mem⟩) (fun k s => { k with sys := s.sys, mem := s.mem }) id x

def kmem {α : Type} (x : M α) : K α := onV (onMem x)

def ksys {α : Type} (x : F α) : K α := onV (onSys x)

def Kernel.setProc (k : Kernel) (p : Nat) (f : Proc → Proc) : Kernel :=
  { k with procs := update k.procs p (f (k.procs p)) }

def setProc (p : Nat) (f : Proc → Proc) : K Unit := modify fun k => k.setProc p f

def setRun (p : Nat) (f : Run → Run) : K Unit := ksys (modify fun s => s.setRun p f)

def getProc (p : Nat) : K Proc := do
  let k ← get
  return k.procs p

def myproc : K Nat := do
  let k ← get
  return k.sys.cur

def tableOf (p : Nat) : K Nat := do
  let k ← get
  match (k.procs p).pagetable with
  | none => throw (.mem .wild)
  | some pagetable => return pagetable

variable [Image]

/-! ## Unmapping -/

def Proc.setVma (p : Proc) (i : Nat) (v : Vma) : Proc := { p with vmas := update p.vmas i v }

def unmapRange (v : Vma) (r lo hi npages : Nat) : K Unit := do
  let me ← getProc (← myproc)
  onV (vma_writeback me v r lo hi)
  kmem (uvmunmap r lo npages true)

def unmapIn (v : Vma) : Option Nat → K Unit
  | none => return ()
  | some r => unmapRange v r v.addr ((v.addr + v.len) % 2 ^ 64) (v.len / PGSIZE)

def unmapVma (p : Nat) (pagetable : Option Nat) (close_files : Bool) (i : Nat) : K Unit := do
  let v := (← getProc p).vmas i
  if ¬ v.used then return ()
  else
    unmapIn v pagetable
    onV (closeOpt (if close_files then v.f else none))
    setProc p fun q => q.setVma i Vma.zero

def proc_unmap_vmas (p : Nat) (pagetable : Option Nat) (close_files : Bool) : K Unit :=
  forN (unmapVma p pagetable close_files) MAXVMA

/-- What is left of `v` when `[lo, hi)`, a part at one of its ends, is gone. -/
def Vma.cut (v : Vma) (lo hi : Nat) : Vma :=
  let vend := (v.addr + v.len) % 2 ^ 64
  if lo = v.addr ∧ hi = vend then Vma.zero
  else if lo = v.addr then { v with addr := hi, off := (v.off + (hi - lo)) % 2 ^ 64, len := vend - hi }
  else if hi = vend then { v with len := lo - v.addr }
  else v

/-- One round of `proc_munmap`: `none` is the return with -1, else whether `changed` is set. -/
def munmapVma (p addr stop i : Nat) : K (Option Bool) := do
  let v := (← getProc p).vmas i
  let vend := (v.addr + v.len) % 2 ^ 64
  if ¬ v.used then return some false
  else if stop ≤ v.addr ∨ vend ≤ addr then return some false
  else
    let lo := max addr v.addr
    let hi := min stop vend
    if v.addr < lo ∧ hi < vend then return none
    else
      let r ← tableOf p
      unmapRange v r lo hi ((hi - lo) / PGSIZE)
      onV (closeOpt (if lo = v.addr ∧ hi = vend then v.f else none))
      setProc p fun q => q.setVma i (v.cut lo hi)
      return some true

def munmapLoop (p addr stop : Nat) : Nat → Bool → K Bool
  | 0, changed => return changed
  | n + 1, changed => do
    match ← munmapVma p addr stop (MAXVMA - (n + 1)) with
    | none => return false
    | some c => munmapLoop p addr stop n (changed || c)

/-- `true` is 0 and `false` is -1. -/
def proc_munmap (p addr len : Nat) : K Bool := do
  let stop := (addr + len) % 2 ^ 64
  if addr % PGSIZE ≠ 0 ∨ len = 0 ∨ stop < addr then return false
  else munmapLoop p addr stop MAXVMA false

/-! ## Creating and freeing -/

def allocpid : F Nat := do
  acquire .pid
  let s ← get
  set { s with nextpid := s.nextpid + 1 }
  release .pid
  return s.nextpid

def proc_freepagetable (pagetable sz idx : Nat) : M Unit := do
  uvmunmap pagetable TRAMPOLINE 1 false
  uvmunmap pagetable (TRAPFRAME idx) 1 false
  uvmfree pagetable sz

def proc_pagetable (idx trapframe : Nat) : M (Option Nat) := do
  match ← uvmcreate with
  | none => return none
  | some pagetable =>
    if ← mappages pagetable TRAMPOLINE PGSIZE Image.trampoline (PTE_R ||| PTE_X) then
      if ← mappages pagetable (TRAPFRAME idx) PGSIZE trapframe (PTE_R ||| PTE_W) then return some pagetable
      else
        uvmunmap pagetable TRAMPOLINE 1 false
        uvmfree pagetable 0
        return none
    else
      uvmfree pagetable 0
      return none

def freeFrame : Option Nat → M Unit
  | none => return ()
  | some tf => kfree tf

def freeTable (p : Nat) (q : Proc) : K Unit := do
  match q.pagetable with
  | none => return ()
  | some r =>
    if q.pid = q.tgid then
      proc_unmap_vmas p (some r) true
      kmem (proc_freepagetable r q.sz p)
    else
      proc_unmap_vmas p none true
      kmem (uvmunmap r (TRAPFRAME p) 1 false)

def Proc.clear (q : Proc) : Proc := { q with pagetable := none, sz := 0, pid := 0, parent := none }

def Run.clear (r : Run) : Run := { r with chan := none, killed := false, xstate := 0, state := .UNUSED }

def freeproc (p : Nat) : K Unit := do
  kmem (freeFrame (← getProc p).trapframe)
  setProc p fun q => { q with trapframe := none }
  freeTable p (← getProc p)
  setProc p Proc.clear
  setRun p Run.clear

/-- The search of `allocproc`, which ends with the lock of the slot held. -/
def findUnused : F (Option Nat) :=
  search (fun p => do
    acquire (.proc p)
    let s ← get
    if (s.run p).state = .UNUSED then return some p
    else
      release (.proc p)
      return none) 0 NPROC

def giveBack (p : Nat) : K (Option Nat) := do
  freeproc p
  ksys (release (.proc p))
  return none

def startSlot (p : Nat) : K Unit := do
  let pid ← ksys allocpid
  setProc p fun q => { q with pid := pid, tgid := pid, thread_count := 1, vmas := fun _ => Vma.zero }
  setRun p fun r => { r with state := .USED, priority := 0, ticks_used := 0 }

def tableSlot (p tf : Nat) : K (Option Nat) := do
  let r ← kmem (proc_pagetable p tf)
  setProc p fun q => { q with pagetable := r }
  match r with
  | none => giveBack p
  | some _ => return some p

def fillSlot (p : Nat) : K (Option Nat) := do
  let tf ← kmem kalloc
  setProc p fun q => { q with trapframe := tf }
  match tf with
  | none => giveBack p
  | some tf => tableSlot p tf

def allocproc : K (Option Nat) := do
  match ← ksys findUnused with
  | none => return none
  | some p =>
    startSlot p
    fillSlot p

def userinit (root : Nat) : K Unit := do
  match ← allocproc with
  | none => throw (.mem .wild)
  | some p =>
    ksys (modify fun s => { s with initproc := p })
    ksys (iget root)
    setProc p fun q => { q with cwd := some root }
    setRun p fun r => { r with state := .RUNNABLE }
    ksys (release (.proc p))

/-! ## `sbrk` -/

def update_sz (tgid sz : Nat) : K Unit :=
  forN (fun p => do
    ksys (acquire (.proc p))
    setProc p fun q => if q.tgid = tgid then { q with sz := sz } else q
    ksys (release (.proc p))) NPROC

/-- `a + n` of a `uint64` and an `int`. -/
def addInt (a : Nat) (n : Int) : Nat := ((a + n) % 2 ^ 64).toNat

def growproc (n : Int) : K Bool := do
  let me ← myproc
  let p ← getProc me
  if 0 < n then
    if TRAPFRAME NPROC < addInt p.sz n then return false
    else
      let sz ← kmem (uvmalloc (← tableOf me) p.sz (addInt p.sz n) PTE_W)
      if sz = 0 then return false
      else
        update_sz p.tgid sz
        return true
  else if n < 0 then
    let sz ← kmem (uvmdealloc (← tableOf me) p.sz (addInt p.sz n))
    update_sz p.tgid sz
    return true
  else
    update_sz p.tgid p.sz
    return true

def sys_sbrk (n : Int) (eager : Bool) : K (Option Nat) := do
  let me ← myproc
  let addr := (← getProc me).sz
  if eager ∨ n < 0 then
    if ← growproc n then return some addr else return none
  else if addInt addr n < addr then return none
  else if TRAPFRAME NPROC < addInt addr n then return none
  else
    setProc me fun q => { q with sz := addInt addr n }
    let q ← getProc me
    update_sz q.tgid q.sz
    return some addr

/-! ## `fork` and `clone` -/

def dupFile (p np fd : Nat) : K Unit := do
  match (← getProc p).ofile fd with
  | none => return ()
  | some f =>
    ksys (filedup f)
    setProc np fun q => { q with ofile := update q.ofile fd (some f) }

def dupVma (p np i : Nat) : K Unit := do
  let v := (← getProc p).vmas i
  if ¬ v.used then return ()
  else
    setProc np fun q => q.setVma i v
    match v.f with
    | none => return ()
    | some f => ksys (filedup f)

def dupCwd (p np : Nat) : K Unit := do
  match (← getProc p).cwd with
  | none => throw (.mem .wild)
  | some ip =>
    ksys (idup ip)
    setProc np fun q => { q with cwd := some ip }

/-- The child's lock is dropped for the one that guards parents, and taken again to make it runnable. -/
def publish (p np : Nat) : K Unit := do
  ksys (release (.proc np))
  ksys (acquire .wait)
  setProc np fun q => { q with parent := some p }
  ksys (release .wait)
  ksys (acquire (.proc np))
  setRun np fun r => { r with state := .RUNNABLE }
  ksys (release (.proc np))

/-- What `kfork` and `clone` do alike: files, directory, mappings, and making the child runnable. -/
def launch (p np : Nat) : K Nat := do
  forN (dupFile p np) NOFILE
  dupCwd p np
  forN (dupVma p np) MAXVMA
  let pid := (← getProc np).pid
  publish p np
  return pid

/-- `none` is -1. -/
def kfork : K (Option Nat) := do
  let me ← myproc
  let p ← getProc me
  if p.pid ≠ p.tgid then return none
  else
    match ← allocproc with
    | none => return none
    | some np =>
      if ← kmem (uvmcopy (← tableOf me) (← tableOf np) p.sz) then
        setProc np fun q => { q with sz := p.sz, regs := { p.regs with a0 := 0 } }
        let pid ← launch me np
        return some pid
      else giveBack np

def clone (fn arg stack : Nat) : K (Option Nat) := do
  let me ← myproc
  let p ← getProc me
  if p.pid ≠ p.tgid then return none
  else
    match ← allocproc with
    | none => return none
    | some np =>
      setProc np fun q => { q with pagetable := p.pagetable, sz := p.sz }
      let r ← tableOf np
      -- the result of mappages is ignored
      let _ ← kmem (mappages r (TRAPFRAME np) PGSIZE (((← getProc np).trapframe).getD 0) (PTE_R ||| PTE_W))
      setProc np fun q => { q with regs := { p.regs with sp := stack, a0 := arg, epc := fn } }
      let pid ← launch me np
      setProc me fun q => { q with thread_count := q.thread_count + 1 }
      setProc np fun q => { q with tgid := p.tgid }
      return some pid

/-! ## `exit`, `wait` and `join` -/

def closeFile (p fd : Nat) : K Unit := do
  match (← getProc p).ofile fd with
  | none => return ()
  | some f =>
    onV (fileclose f)
    setProc p fun q => { q with ofile := update q.ofile fd none }

def dropCwd (pp : Nat) : K Unit := do
  match (← getProc pp).cwd with
  | none => return ()
  | some ip =>
    ksys (putInode ip)
    setProc pp fun q => { q with cwd := none }

def reapThread (p pp : Nat) : K Unit := do
  ksys (acquire (.proc pp))
  forN (closeFile pp) NOFILE
  dropCwd pp
  freeproc pp
  ksys (release (.proc pp))
  setProc p fun q => { q with thread_count := q.thread_count - 1 }

def reparentOne (p pp : Nat) : K Unit := do
  let k ← get
  if (k.procs pp).parent ≠ some p then return ()
  else
    setProc pp fun q => { q with parent := some k.sys.initproc }
    if (k.procs pp).tgid = (k.procs p).pid then reapThread p pp
    else ksys (wakeup (.proc k.sys.initproc))

def reparent (p : Nat) : K Unit := forN (reparentOne p) NPROC

def wakeParent : Option Nat → F Unit
  | some q => wakeup (.proc q)
  | none => wakeup .null

def leaveCwd (p : Nat) : K Unit := do
  match (← getProc p).cwd with
  | none => throw (.mem .wild)
  | some ip =>
    ksys (putInode ip)
    setProc p fun q => { q with cwd := none }

/-- `kexit`, up to the point where the scheduler has let go of the zombie's lock. -/
def kexit (status : Int) : K Unit := do
  let me ← myproc
  let k ← get
  if me = k.sys.initproc then throw (.sys .initExiting)
  else
    forN (closeFile me) NOFILE
    leaveCwd me
    ksys (acquire .wait)
    reparent me
    ksys (wakeParent (← getProc me).parent)
    ksys (acquire (.proc me))
    setRun me fun r => { r with xstate := status, state := .ZOMBIE }
    ksys (release .wait)
    ksys sched
    ksys (release (.proc me))

def intBytes (n : Int) : List UInt8 :=
  let w := (n % 2 ^ 32).toNat
  [w, w / 256, w / 65536, w / 16777216].map fun b => UInt8.ofNat b

def copyStatus (me pp addr : Nat) : K Bool := do
  let k ← get
  if addr = 0 then return true
  else onV (copyout (k.procs me) (← tableOf me) addr (intBytes (k.sys.run pp).xstate))

/-- A zombie that `kwait` found, with both locks held: `none` is -1. -/
def reapChild (me pp addr : Nat) : K (Option Nat) := do
  let pid := (← getProc pp).pid
  if ¬ (← copyStatus me pp addr) then
    ksys (release (.proc pp))
    ksys (release .wait)
    return none
  else
    freeproc pp
    ksys (release (.proc pp))
    ksys (release .wait)
    return some pid

/-- One round of `kwait`; `some r` when it returns `r`. -/
def waitOne (me addr pp : Nat) : K (Option (Option Nat)) := do
  let k ← get
  if (k.procs pp).parent ≠ some me then return none
  else
    ksys (acquire (.proc pp))
    if (k.procs pp).tgid = (k.procs me).pid then
      ksys (release (.proc pp))
      return none
    else if (k.sys.run pp).state = .ZOMBIE then
      let r ← reapChild me pp addr
      return some r
    else
      ksys (release (.proc pp))
      return none

def waitMore (me : Nat) (havekids : Bool) : F (Option Nat) := do
  let s ← get
  if ¬ havekids then
    release .wait
    return none
  else
    acquire (.proc me)
    release (.proc me)
    if (s.run me).killed then
      release .wait
      return none
    else
      sleep (.proc me) .wait
      throw .blocked

def kwait (addr : Nat) : K (Option Nat) := do
  let me ← myproc
  ksys (acquire .wait)
  match ← search (waitOne me addr) 0 NPROC with
  | some r => return r
  | none =>
    let k ← get
    ksys (waitMore me ((List.range NPROC).any fun pp =>
      (k.procs pp).parent = some me ∧ (k.procs pp).tgid ≠ (k.procs me).pid))

def joinOne (me pp : Nat) : K (Option Nat) := do
  let k ← get
  if (k.procs pp).parent ≠ some me then return none
  else
    ksys (acquire (.proc pp))
    if (k.procs pp).tgid ≠ (k.procs me).pid then
      ksys (release (.proc pp))
      return none
    else if (k.sys.run pp).state = .ZOMBIE then
      let pid := (k.procs pp).pid
      freeproc pp
      ksys (release (.proc pp))
      ksys (release .wait)
      setProc me fun q => { q with thread_count := q.thread_count - 1 }
      return some pid
    else
      ksys (release (.proc pp))
      return none

def join : K (Option Nat) := do
  let me ← myproc
  ksys (acquire .wait)
  match ← search (joinOne me) 0 NPROC with
  | some pid => return some pid
  | none =>
    let k ← get
    ksys (waitMore me ((List.range NPROC).any fun pp =>
      (k.procs pp).parent = some me ∧ (k.procs pp).tgid = (k.procs me).pid))

/-! ## `mmap` and `munmap` -/

def vma_alloc_slot (p : Proc) : Option Nat := (List.range MAXVMA).find? fun i => ¬ (p.vmas i).used

/-- One pass of the sort of `vma_find_addr`: the smallest address goes to the front by exchanges. -/
def sweep (x : Vma) : List Vma → Vma × List Vma
  | [] => (x, [])
  | y :: ys =>
    if y.addr < x.addr then
      let (m, rest) := sweep y ys
      (m, x :: rest)
    else
      let (m, rest) := sweep x ys
      (m, y :: rest)

def sortVmas : Nat → List Vma → List Vma
  | 0, xs => xs
  | _, [] => []
  | n + 1, x :: xs =>
    let (m, rest) := sweep x xs
    m :: sortVmas n rest

/-- The gap search over the mappings in order, with `cur` and `best`. -/
def gaps (len : Nat) : List Vma → Nat → Nat → Nat × Nat
  | [], cur, best => (cur, best)
  | v :: vs, cur, best =>
    let best := if cur < v.addr ∧ len ≤ v.addr - cur then v.addr - len else best
    let vend := (v.addr + v.len) % 2 ^ 64
    gaps len vs (if cur < vend then vend else cur) best

def vma_find_addr (p : Proc) (len : Nat) : Nat :=
  let ord := ((List.range MAXVMA).map p.vmas).filter fun v => v.used
  let (cur, best) := gaps len (sortVmas ord.length ord) (PGROUNDUP p.sz) 0
  let high := TRAPFRAME NPROC
  if cur < high ∧ len ≤ high - cur then high - len else best

def Proc.fd (p : Proc) (fd : Nat) : Option Nat := if fd < NOFILE then p.ofile fd else none

def sys_mmap (addr len prot flags fd off : Nat) : K (Option Nat) := do
  let me ← myproc
  let k ← get
  let p := k.procs me
  if p.pid ≠ p.tgid then return none
  else if addr ≠ 0 ∨ len = 0 then return none
  else if off % PGSIZE ≠ 0 then return none
  else if ¬ test prot (PROT_READ ||| PROT_WRITE ||| PROT_EXEC) then return none
  else if ¬ test flags (MAP_SHARED ||| MAP_PRIVATE) ∨ (test flags MAP_SHARED ∧ test flags MAP_PRIVATE) then return none
  else
    match p.fd fd with
    | none => return none
    | some f =>
      let file := k.sys.file f
      if test prot PROT_READ ∧ ¬ file.readable then return none
      else if test flags MAP_SHARED ∧ test prot PROT_WRITE ∧ ¬ file.writable then return none
      else if file.type ≠ .FD_INODE then return none
      else
        let len := PGROUNDUP len
        match vma_alloc_slot p with
        | none => return none
        | some idx =>
          let mapaddr := vma_find_addr p len
          if mapaddr = 0 then return none
          else
            ksys (filedup f)
            setProc me fun q => q.setVma idx ⟨true, mapaddr, len, prot, flags, off, some f⟩
            return some mapaddr

def sys_munmap (addr len : Nat) : K Bool := do
  let me ← myproc
  let p ← getProc me
  if p.pid ≠ p.tgid then return false
  else if addr % PGSIZE ≠ 0 ∨ len = 0 then return false
  else proc_munmap me addr (PGROUNDUP len)

/-! ## Descriptors -/

abbrev T_DIR : Nat := 1
abbrev T_FILE : Nat := 2
abbrev T_DEVICE : Nat := 3
abbrev O_WRONLY : Nat := 1
abbrev O_RDWR : Nat := 2

def fdalloc (p : Proc) : Option Nat := (List.range NOFILE).find? fun fd => (p.ofile fd).isNone

/-- `sys_open` of a path that leads to inode `ip`, without `O_CREATE` and `O_TRUNC`. -/
def sys_open (ip omode : Nat) : K (Option Nat) := do
  let me ← myproc
  ksys begin_op
  ksys (iget ip)
  ksys (ilock ip)
  let k ← get
  let type := (k.sys.inode ip).type
  if type = T_DIR ∧ omode ≠ 0 then giveUp ip
  else
    match ← ksys filealloc with
    | none => giveUp ip
    | some f =>
      match fdalloc (k.procs me) with
      | none =>
        onV (fileclose f)
        giveUp ip
      | some fd =>
        setProc me fun q => { q with ofile := update q.ofile fd (some f) }
        ksys (modify fun s => s.setFile f fun x =>
          { x with
            type := if type = T_DEVICE then .FD_DEVICE else .FD_INODE
            ip := ip
            readable := ¬ test omode O_WRONLY
            writable := test omode O_WRONLY ∨ test omode O_RDWR })
        ksys (iunlock ip)
        ksys end_op
        return some fd
where
  giveUp (ip : Nat) : K (Option Nat) := do
    ksys (iunlock ip)
    ksys (iput ip)
    ksys end_op
    return none

def sys_dup (fd : Nat) : K (Option Nat) := do
  let me ← myproc
  let p ← getProc me
  match p.fd fd with
  | none => return none
  | some f =>
    match fdalloc p with
    | none => return none
    | some fd =>
      setProc me fun q => { q with ofile := update q.ofile fd (some f) }
      ksys (filedup f)
      return some fd

def sys_close (fd : Nat) : K Bool := do
  let me ← myproc
  match (← getProc me).fd fd with
  | none => return false
  | some f =>
    setProc me fun q => { q with ofile := update q.ofile fd none }
    onV (fileclose f)
    return true

end Xv6
