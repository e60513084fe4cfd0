import Xv6.Vm
import Xv6.Sys

/-!
# Page faults, copying to and from user memory, and mapped files

The half of `vm.c` that knows about processes, with `vma_writeback` of
`proc.c` and the writing half of `fs.c` that it reaches. The state is the
kernel's without the process table: `p` is what `myproc()` reads there.
-/

namespace Xv6

open Hoare

abbrev PROT_READ : Nat := 1
abbrev PROT_WRITE : Nat := 2
abbrev PROT_EXEC : Nat := 4
abbrev MAP_SHARED : Nat := 1
abbrev MAP_PRIVATE : Nat := 2

/-- `x & f`, as a condition. -/
def test (x f : Nat) : Bool := x &&& f != 0

structure Vma where
  used : Bool
  addr : Nat
  len : Nat
  prot : Nat
  flags : Nat
  off : Nat
  f : Option Nat

def Vma.zero : Vma := ⟨false, 0, 0, 0, 0, 0, none⟩

/-- The registers of a trap frame that the kernel's code names. -/
structure Trapframe where
  epc : Nat
  sp : Nat
  a0 : Nat
  a1 : Nat

/-- `struct proc` without the scheduler's fields (`Run`). -/
structure Proc where
  pid : Nat
  tgid : Nat
  thread_count : Int
  parent : Option Nat
  sz : Nat
  pagetable : Option Nat
  trapframe : Option Nat
  /-- What the page at `trapframe` holds. -/
  regs : Trapframe
  ofile : Nat → Option Nat
  cwd : Option Nat
  vmas : Nat → Vma

inductive Stop
  | mem (e : MemStop) | sys (e : SysStop)
  deriving DecidableEq, Repr

structure Vs where
  sys : Sys
  mem : Mem

abbrev V := Prog Vs Stop

def onMem {α : Type} (x : M α) : V α := zoom Vs.mem (fun s m => { s with mem := m }) .mem x

def onSys {α : Type} (x : F α) : V α := zoom Vs.sys (fun s y => { s with sys := y }) .sys x

def readBytes (pa i n : Nat) : M (List UInt8) := do
  let m ← get
  return (List.range n).map fun j => m.data pa (i + j)

def splice (b : Nat → UInt8) (i : Nat) (bs : List UInt8) : Nat → UInt8 := fun j =>
  if i ≤ j ∧ j < i + bs.length then bs.getD (j - i) 0 else b j

def Mem.write (m : Mem) (pa i : Nat) (bs : List UInt8) : Mem :=
  { m with data := Function.update m.data pa (splice (m.data pa) i bs) }

def writeBytes (pa i : Nat) (bs : List UInt8) : M Unit := modify fun m => m.write pa i bs

variable [Image]

/-! ## `vmfault` -/

/-- The flags of a copy-on-write page that becomes the process's own. -/
def ownFlags (f : Pte) : Pte := (f ||| PTE_W) &&& ~~~PTE_COW

/-- A store to a page shared copy-on-write, whose entry is at `p`. -/
def vmfaultCow (p : Nat × Nat) : M (Option Nat) := do
  let pa := PTE2PA (← getPte p)
  if (← krefcnt pa) = 1 then
    let pte ← getPte p
    setPte p.1 p.2 (ownFlags pte)
    return some pa
  else
    match ← kalloc with
    | none => return none
    | some mem =>
      copyPage mem pa
      let pte ← getPte p
      setPte p.1 p.2 (PA2PTE mem ||| ownFlags (PTE_FLAGS pte))
      kfree pa
      return some mem

def mapNew (pagetable va mem : Nat) (perm : Pte) : M (Option Nat) := do
  if ← mappages pagetable va PGSIZE mem perm then return some mem
  else
    kfree mem
    return none

def vmfaultHeap (pagetable va : Nat) : M (Option Nat) := do
  match ← kalloc with
  | none => return none
  | some mem =>
    memzero mem
    mapNew pagetable va mem (PTE_W ||| PTE_U ||| PTE_R)

def vmaPerm (prot : Nat) : Pte :=
  PTE_U ||| (if test prot PROT_READ then PTE_R else 0#64) ||| (if test prot PROT_WRITE then PTE_W else 0#64) |||
    (if test prot PROT_EXEC then PTE_X else 0#64)

/-- Read the page of `v` for `va` from file `f` into `mem`; `false` if the file gives less than its size promises. -/
def readPage (v : Vma) (va f mem : Nat) : V Bool := do
  let s ← get
  let ip := (s.sys.file f).ip
  let fileoff := (v.off + (va - v.addr)) % 2 ^ 64
  onSys (ilock ip)
  let s ← get
  let size := (s.sys.inode ip).size
  if fileoff < size then
    let n := if size < fileoff + PGSIZE then size - fileoff else PGSIZE
    let bs ← onSys (readi ip (fileoff % 2 ^ 32) n)
    onMem (writeBytes mem 0 bs)
    onSys (iunlock ip)
    return bs.length = n
  else
    onSys (iunlock ip)
    return true

def fillPage (v : Vma) (va mem : Nat) : V Bool :=
  match v.f with
  | none => return true
  | some f => readPage v va f mem

def vmfaultVma (v : Vma) (pagetable va : Nat) (read : Bool) : V (Option Nat) := do
  if ¬ (if read then test v.prot (PROT_READ ||| PROT_EXEC) else test v.prot PROT_WRITE) then return none
  else
    match ← onMem kalloc with
    | none => return none
    | some mem =>
      onMem (memzero mem)
      if ← fillPage v va mem then onMem (mapNew pagetable va mem (vmaPerm v.prot))
      else
        onMem (kfree mem)
        return none

def Vma.covers (v : Vma) (va : Nat) : Bool := v.used ∧ v.addr ≤ va ∧ va < (v.addr + v.len) % 2 ^ 64

def Proc.vmaAt (p : Proc) (va : Nat) : Option Vma :=
  ((List.range MAXVMA).map p.vmas).find? fun v => v.covers va

def vmfaultNew (p : Proc) (pagetable va : Nat) (read : Bool) : V (Option Nat) :=
  if va < p.sz then onMem (vmfaultHeap pagetable va)
  else
    match p.vmaAt va with
    | some v => vmfaultVma v pagetable va read
    | none => return none

def vmfault (p : Proc) (pagetable va : Nat) (read : Bool) : V (Option Nat) := do
  let va := PGROUNDDOWN va
  match ← onMem (walk pagetable va false) with
  | none => vmfaultNew p pagetable va read
  | some q =>
    let pte : Pte ← onMem (getPte q)
    if pte.has PTE_V then
      if ¬ read ∧ pte.has PTE_COW then onMem (vmfaultCow q) else return none
    else vmfaultNew p pagetable va read

/-! ## `copyout`, `copyin` and `copyinstr` -/

/-- `pa0` of the copy functions: the frame of a page, faulted in if need be. -/
def userPage (p : Proc) (pagetable va0 : Nat) (read : Bool) : V (Option Nat) := do
  match ← onMem (walkaddr pagetable va0) with
  | some pa => return some pa
  | none => vmfault p pagetable va0 read

/-- The entry for `va0`, which `copyout` reads without asking whether there is one. -/
def entryOf (pagetable va0 : Nat) : M Pte := do
  match ← walk pagetable va0 false with
  | none => throw .wild
  | some q => getPte q

/-- `pa0` of `copyout`: the frame of a page that may be written. -/
def writablePage (p : Proc) (pagetable va0 : Nat) : V (Option Nat) := do
  match ← userPage p pagetable va0 false with
  | none => return none
  | some pa0 =>
    let pte : Pte ← onMem (entryOf pagetable va0)
    if pte.has PTE_W then return some pa0
    else
      match ← vmfault p pagetable va0 false with
      | none => return none
      | some pa0 =>
        match ← onMem (walk pagetable va0 false) with
        | none => return none
        | some q =>
          let pte : Pte ← onMem (getPte q)
          if pte.has PTE_W then return some pa0 else return none

/-- At most `fuel` rounds of the loop of `copyout`; each takes at least one byte. -/
def copyoutLoop (p : Proc) (pagetable : Nat) : Nat → Nat → List UInt8 → V Bool
  | 0, _, _ => return true
  | fuel + 1, dstva, src => do
    if src = [] then return true
    else
      let va0 := PGROUNDDOWN dstva
      if MAXVA ≤ va0 then return false
      else
        match ← writablePage p pagetable va0 with
        | none => return false
        | some pa0 =>
          let n := min (PGSIZE - (dstva - va0)) src.length
          onMem (writeBytes pa0 (dstva - va0) (src.take n))
          copyoutLoop p pagetable fuel ((va0 + PGSIZE) % 2 ^ 64) (src.drop n)

def copyout (p : Proc) (pagetable dstva : Nat) (src : List UInt8) : V Bool :=
  copyoutLoop p pagetable src.length dstva src

/-- At most `fuel` rounds of the loop of `copyin`: the bytes copied, and whether these are all. -/
def copyinLoop (p : Proc) (pagetable : Nat) : Nat → Nat → Nat → V (List UInt8 × Bool)
  | 0, _, _ => return ([], true)
  | fuel + 1, srcva, len => do
    if len = 0 then return ([], true)
    else
      let va0 := PGROUNDDOWN srcva
      match ← userPage p pagetable va0 true with
      | none => return ([], false)
      | some pa0 =>
        let n := min (PGSIZE - (srcva - va0)) len
        let bs ← onMem (readBytes pa0 (srcva - va0) n)
        let (rest, ok) ← copyinLoop p pagetable fuel ((va0 + PGSIZE) % 2 ^ 64) (len - n)
        return (bs ++ rest, ok)

def copyin (p : Proc) (pagetable srcva len : Nat) : V (List UInt8 × Bool) := copyinLoop p pagetable len srcva len

/-- At most `fuel` rounds of the outer loop of `copyinstr`: the string, if it ends within `max` bytes. -/
def copyinstrLoop (p : Proc) (pagetable : Nat) : Nat → Nat → Nat → V (Option (List UInt8))
  | 0, _, _ => return none
  | fuel + 1, srcva, max => do
    if max = 0 then return none
    else
      let va0 := PGROUNDDOWN srcva
      match ← userPage p pagetable va0 true with
      | none => return none
      | some pa0 =>
        let n := min (PGSIZE - (srcva - va0)) max
        let bs ← onMem (readBytes pa0 (srcva - va0) n)
        if 0 ∈ bs then return some (bs.takeWhile (· ≠ 0))
        else
          match ← copyinstrLoop p pagetable fuel ((va0 + PGSIZE) % 2 ^ 64) (max - n) with
          | none => return none
          | some rest => return some (bs ++ rest)

def copyinstr (p : Proc) (pagetable srcva max : Nat) : V (Option (List UInt8)) :=
  copyinstrLoop p pagetable max srcva max

/-! ## Writing a file -/

/-- `either_copyin`; a kernel address is one of physical memory. -/
def either_copyin (p : Proc) (user_src : Bool) (src len : Nat) : V (List UInt8 × Bool) := do
  if user_src then
    match p.pagetable with
    | none => throw (.mem .wild)
    | some pagetable => copyin p pagetable src len
  else
    let bs ← onMem (readBytes (PGROUNDDOWN src) (src - PGROUNDDOWN src) len)
    return (bs, true)

def Inode.write (i : Inode) (off : Nat) (bs : List UInt8) : Inode := { i with data := splice i.data off bs }

/-- At most `fuel` rounds of the loop of `writei`; the offset reached. -/
def writeLoop (p : Proc) (ip : Nat) (user_src : Bool) : Nat → Nat → Nat → Nat → V Nat
  | 0, _, off, _ => return off
  | fuel + 1, src, off, n => do
    if n = 0 then return off
    else if ← onSys (bmap ip (off / BSIZE)) then
      onSys disk
      let m := min n (BSIZE - off % BSIZE)
      let (bs, ok) ← either_copyin p user_src src m
      onSys (modify fun t => t.setInode ip fun i => i.write off bs)
      if ok then writeLoop p ip user_src fuel ((src + m) % 2 ^ 64) (off + m) (n - m) else return off
    else return off

/-- `writei`; `off` and `n` are `uint`s, and `none` is -1. -/
def writei (p : Proc) (ip : Nat) (user_src : Bool) (src off n : Nat) : V (Option Nat) := do
  let s ← get
  if (s.sys.inode ip).size < off ∨ (off + n) % 2 ^ 32 < off then return none
  else if MAXFILE * BSIZE < (off + n) % 2 ^ 32 then return none
  else
    let stop ← writeLoop p ip user_src n src off n
    onSys (modify fun t => t.setInode ip fun i => { i with size := max i.size stop })
    onSys disk
    return some (stop - off)

def writebackPage (p : Proc) (v : Vma) (f pagetable a : Nat) : V Unit := do
  match ← onMem (walk pagetable a false) with
  | none => return ()
  | some q =>
    let pte : Pte ← onMem (getPte q)
    if ¬ pte.has PTE_V then return ()
    else
      let pa := PTE2PA pte
      let off := (v.off + (a - v.addr)) % 2 ^ 64
      onSys begin_op
      let s ← get
      let ip := (s.sys.file f).ip
      onSys (ilock ip)
      let _ ← writei p ip true pa (off % 2 ^ 32) PGSIZE
      onSys (iunlock ip)
      onSys end_op

def vma_writeback (p : Proc) (v : Vma) (pagetable start stop : Nat) : V Unit := do
  match v.f with
  | none => return ()
  | some f =>
    if ¬ test v.flags MAP_SHARED then return ()
    else if ¬ test v.prot PROT_WRITE then return ()
    else forN (fun i => writebackPage p v f pagetable (start + i * PGSIZE)) (rounds start stop)

/-! ## `fileclose` -/

def Sys.setPipe (s : Sys) (pi : Nat) (g : Pipe → Pipe) : Sys :=
  { s with pipe := Function.update s.pipe pi (g (s.pipe pi)) }

/-- `pipeclose`; a pipe is named by the page it lies in. -/
def pipeclose (pi : Nat) (writable : Bool) : V Unit := do
  onSys (acquire (.pipe pi))
  onSys (modify fun t => t.setPipe pi fun x =>
    if writable then { x with writeopen := false } else { x with readopen := false })
  onSys (wakeup (if writable then .nread pi else .nwrite pi))
  let s ← get
  onSys (release (.pipe pi))
  if ¬ (s.sys.pipe pi).readopen ∧ ¬ (s.sys.pipe pi).writeopen then onMem (kfree pi) else return ()

def fileclose (f : Nat) : V Unit := do
  match ← onSys (filedrop f) with
  | none => return ()
  | some ff =>
    match ff.type with
    | .FD_PIPE => pipeclose ff.pipe ff.writable
    | .FD_NONE => return ()
    | _ => onSys (putInode ff.ip)

def closeOpt : Option Nat → V Unit
  | none => return ()
  | some f => fileclose f

end Xv6
