import Xv6.Proc

/-!
# `exec`

`exec.c`. The executable's inode is what the path leads to; its headers are
read from the file's bytes as `elf.h` lays them out.
-/

namespace Xv6

open Hoare

abbrev ELF_MAGIC : Nat := 0x464C457F
abbrev ELF_PROG_LOAD : Nat := 1

def field (bs : List UInt8) (i n : Nat) : Nat := ((bs.drop i).take n).foldr (fun b x => b.toNat + 256 * x) 0

structure Proghdr where
  type : Nat
  flags : Nat
  off : Nat
  vaddr : Nat
  filesz : Nat
  memsz : Nat

abbrev elfSize : Nat := 64
abbrev phSize : Nat := 56

def parsePh (bs : List UInt8) : Proghdr :=
  ⟨field bs 0 4, field bs 4 4, field bs 8 8, field bs 16 8, field bs 32 8, field bs 40 8⟩

def flags2perm (flags : Nat) : Pte :=
  (if test flags 1 then PTE_X else 0#64) ||| (if test flags 2 then PTE_W else 0#64)

def wordBytes (n : Nat) : List UInt8 := (List.range 8).map fun i => UInt8.ofNat (n / 256 ^ i)

variable [Image]

/-- One round of `loadseg`; `some ()` is the return with -1. -/
def loadPage (pagetable va ip offset sz i : Nat) : V (Option Unit) := do
  match ← onMem (walkaddr pagetable ((va + i) % 2 ^ 64)) with
  | none => throw (.mem (.panic .loadseg))
  | some pa =>
    let n := if sz - i < PGSIZE then sz - i else PGSIZE
    let bs ← onSys (readi ip ((offset + i) % 2 ^ 32) n)
    onMem (writeBytes pa 0 bs)
    if bs.length = n then return none else return some ()

/-- `offset` and `sz` are `uint`s. -/
def loadseg (pagetable va ip offset sz : Nat) : V Bool := do
  let r ← search (fun j => loadPage pagetable va ip offset sz (j * PGSIZE)) 0 (rounds 0 sz)
  return r.isNone

/-- One program header, with `sz` so far: the new `sz`, and whether to go on. -/
def loadOne (pagetable ip off sz : Nat) : V (Nat × Bool) := do
  let bs ← onSys (readi ip off phSize)
  if bs.length ≠ phSize then return (sz, false)
  else
    let ph := parsePh bs
    let top := (ph.vaddr + ph.memsz) % 2 ^ 64
    if ph.type ≠ ELF_PROG_LOAD then return (sz, true)
    else if ph.memsz < ph.filesz then return (sz, false)
    else if top < ph.vaddr then return (sz, false)
    else if ph.vaddr % PGSIZE ≠ 0 then return (sz, false)
    else
      let sz1 ← onMem (uvmalloc pagetable sz top (flags2perm ph.flags))
      if sz1 = 0 then return (sz, false)
      else
        let ok ← loadseg pagetable ph.vaddr ip (ph.off % 2 ^ 32) (ph.filesz % 2 ^ 32)
        return (sz1, ok)

def loadAll (pagetable ip : Nat) : Nat → Nat → Nat → V (Nat × Bool)
  | 0, _, sz => return (sz, true)
  | n + 1, off, sz => do
    let (sz, ok) ← loadOne pagetable ip (off % 2 ^ 32) sz
    if ok then loadAll pagetable ip n (off + phSize) sz else return (sz, false)

/-- `sp -= n; sp -= sp % 16`. -/
def pushDown (sp n : Nat) : Nat :=
  let sp := (sp + 2 ^ 64 - n) % 2 ^ 64
  sp - sp % 16

/-- The loop over the arguments: the stack pointer and `ustack`, or `none` for `goto bad`. -/
def pushArgs (p : Proc) (pagetable stackbase : Nat) : List (List UInt8) → Nat → List Nat → V (Option (Nat × List Nat))
  | [], sp, ustack => return some (sp, ustack)
  | arg :: rest, sp, ustack => do
    if MAXARG ≤ ustack.length then return none
    else
      let sp := pushDown sp (arg.length + 1)
      if sp < stackbase then return none
      else if ← copyout p pagetable sp (arg ++ [0]) then pushArgs p pagetable stackbase rest sp (ustack ++ [sp])
      else return none

def closeExec (ip : Nat) : F Unit := do
  iunlock ip
  iput ip
  end_op

/-- The stack of the new image: `sz` after it, and the stack pointer with `argc` if all fits. -/
def execStack (p : Proc) (pagetable sz : Nat) (argv : List (List UInt8)) : V (Nat × Option (Nat × Nat)) := do
  let sz := PGROUNDUP sz
  let sz1 ← onMem (uvmalloc pagetable sz ((sz + (USERSTACK + 1) * PGSIZE) % 2 ^ 64) PTE_W)
  if sz1 = 0 then return (sz, none)
  else
    onMem (uvmclear pagetable (sz1 - (USERSTACK + 1) * PGSIZE))
    let stackbase := sz1 - USERSTACK * PGSIZE
    match ← pushArgs p pagetable stackbase argv sz1 [] with
    | none => return (sz1, none)
    | some (sp, ustack) =>
      let sp := pushDown sp ((ustack.length + 1) * 8)
      if sp < stackbase then return (sz1, none)
      else if ← copyout p pagetable sp ((ustack ++ [0]).flatMap wordBytes) then
        return (sz1, some (sp, ustack.length))
      else return (sz1, none)

def execCommit (me pagetable sz entry sp : Nat) : K Unit := do
  let p ← getProc me
  setProc me fun q => { q with pagetable := some pagetable, sz := sz, regs :=
    { q.regs with a1 := sp, epc := entry, sp := sp } }
  proc_unmap_vmas me p.pagetable true
  setProc me fun q => { q with vmas := fun _ => Vma.zero }
  match p.pagetable with
  | none => throw (.mem .wild)
  | some old => kmem (proc_freepagetable old p.sz me)

/-- `kexec` of the file at `path`, `none` if there is none; `none` is -1. -/
def kexec (path : Option Nat) (argv : List (List UInt8)) : K (Option Nat) := do
  let me ← myproc
  let p ← getProc me
  if p.pid ≠ p.tgid ∨ 1 < p.thread_count then return none
  else
    ksys begin_op
    match path with
    | none =>
      ksys end_op
      return none
    | some ip =>
      ksys (iget ip)
      ksys (ilock ip)
      let elf ← ksys (readi ip 0 elfSize)
      if elf.length ≠ elfSize ∨ field elf 0 4 ≠ ELF_MAGIC then
        ksys (closeExec ip)
        return none
      else
        match ← kmem (proc_pagetable me (p.trapframe.getD 0)) with
        | none =>
          ksys (closeExec ip)
          return none
        | some pagetable =>
          let (sz, ok) ← onV (loadAll pagetable ip (field elf 56 2) (field elf 32 8) 0)
          if ¬ ok then
            kmem (proc_freepagetable pagetable sz me)
            ksys (closeExec ip)
            return none
          else
            ksys (closeExec ip)
            match ← onV (execStack p pagetable sz argv) with
            | (sz, none) =>
              kmem (proc_freepagetable pagetable sz me)
              return none
            | (sz, some (sp, argc)) =>
              execCommit me pagetable sz (field elf 24 8) sp
              return some argc

end Xv6
