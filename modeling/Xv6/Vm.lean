import Xv6.Kalloc

/-!
# Page tables

The page-table half of `vm.c`. A page-table page is an address into the
entry view of `Mem`, and a `pte_t *` is such an address with an index.
-/

namespace Xv6

open Hoare

def Mem.put (m : Mem) (pagetable i : Nat) (e : Pte) : Mem :=
  { m with pte := Function.update m.pte pagetable (Function.update (m.pte pagetable) i e) }

def setPte (pagetable i : Nat) (e : Pte) : M Unit := modify fun m => m.put pagetable i e

def getPte (p : Nat × Nat) : M Pte := do
  let m ← get
  return m.pte p.1 p.2

def memzero (page : Nat) : M Unit := modify fun m => m.fill page 0

def Mem.copy (m : Mem) (dst src : Nat) : Mem := { m with data := Function.update m.data dst (m.data src) }

def copyPage (dst src : Nat) : M Unit := modify fun m => m.copy dst src

def walkFrom (va : Nat) (alloc : Bool) : Nat → Nat → M (Option (Nat × Nat))
  | 0, pagetable => return some (pagetable, PX 0 va)
  | level + 1, pagetable => do
    let pte ← getPte (pagetable, PX (level + 1) va)
    if pte.has PTE_V then walkFrom va alloc level (PTE2PA pte)
    else if ¬ alloc then return none
    else
      match ← kalloc with
      | none => return none
      | some page =>
        memzero page
        setPte pagetable (PX (level + 1) va) (PA2PTE page ||| PTE_V)
        walkFrom va alloc level page

def walk (pagetable va : Nat) (alloc : Bool) : M (Option (Nat × Nat)) :=
  if MAXVA ≤ va then throw (.panic .walk) else walkFrom va alloc 2 pagetable

def walkaddr (pagetable va : Nat) : M (Option Nat) := do
  if MAXVA ≤ va then return none
  else
    match ← walk pagetable va false with
    | none => return none
    | some p =>
      let pte ← getPte p
      if ¬ pte.has PTE_V then return none
      else if ¬ pte.has PTE_U then return none
      else return some (PTE2PA pte)

/-- One round of `mappages`; `some ()` when `walk` found no memory. -/
def mapPage (pagetable a pa : Nat) (perm : Pte) : M (Option Unit) := do
  match ← walk pagetable a true with
  | none => return some ()
  | some p =>
    let pte ← getPte p
    if pte.has PTE_V then throw (.panic .remap)
    else
      setPte p.1 p.2 (PA2PTE pa ||| perm ||| PTE_V)
      return none

/-- `true` is 0 and `false` is -1. -/
def mappages (pagetable va size pa : Nat) (perm : Pte) : M Bool := do
  if va % PGSIZE ≠ 0 then throw (.panic .mapVa)
  else if size % PGSIZE ≠ 0 then throw (.panic .mapSize)
  else if size = 0 then throw (.panic .mapZero)
  else
    let r ← search (fun i => mapPage pagetable (va + i * PGSIZE) (pa + i * PGSIZE) perm) 0 (size / PGSIZE)
    return r.isNone

def uvmcreate : M (Option Nat) := do
  match ← kalloc with
  | none => return none
  | some pagetable =>
    memzero pagetable
    return some pagetable

variable [Image]

def unmapPage (pagetable a : Nat) (do_free : Bool) : M Unit := do
  match ← walk pagetable a false with
  | none => return ()
  | some p =>
    let pte ← getPte p
    if ¬ pte.has PTE_V then return ()
    else
      if do_free then kfree (PTE2PA pte)
      setPte p.1 p.2 0#64

def uvmunmap (pagetable va npages : Nat) (do_free : Bool) : M Unit :=
  if va % PGSIZE ≠ 0 then throw (.panic .unmapAlign)
  else forN (fun i => unmapPage pagetable (va + i * PGSIZE) do_free) npages

def uvmdealloc (pagetable oldsz newsz : Nat) : M Nat := do
  if oldsz ≤ newsz then return oldsz
  else
    if PGROUNDUP newsz < PGROUNDUP oldsz then
      uvmunmap pagetable (PGROUNDUP newsz) ((PGROUNDUP oldsz - PGROUNDUP newsz) / PGSIZE) true
    return newsz

/-- One round of `uvmalloc`; `some ()` after a failure has been undone. -/
def allocPage (pagetable a oldsz : Nat) (xperm : Pte) : M (Option Unit) := do
  match ← kalloc with
  | none =>
    let _ ← uvmdealloc pagetable a oldsz
    return some ()
  | some mem =>
    memzero mem
    if ← mappages pagetable a PGSIZE mem (PTE_R ||| PTE_U ||| xperm) then return none
    else
      kfree mem
      let _ ← uvmdealloc pagetable a oldsz
      return some ()

def uvmalloc (pagetable oldsz newsz : Nat) (xperm : Pte) : M Nat := do
  if newsz < oldsz then return oldsz
  else
    let r ← search (fun i => allocPage pagetable (PGROUNDUP oldsz + i * PGSIZE) (PGROUNDUP oldsz) xperm) 0
      (rounds (PGROUNDUP oldsz) newsz)
    match r with
    | some () => return 0
    | none => return newsz

def freeEntry (down : Nat → M Unit) (pagetable i : Nat) : M Unit := do
  let pte ← getPte (pagetable, i)
  if pte.has PTE_V ∧ pte.has (PTE_R ||| PTE_W ||| PTE_X) = false then
    down (PTE2PA pte)
    setPte pagetable i 0#64
  else if pte.has PTE_V then throw (.panic .freewalkLeaf)
  else return ()

/-- `freewalk` of a page at a level of the tree. An entry of the lowest level
that looks like a pointer would be followed into a page of user bytes. -/
def freewalk : Nat → Nat → M Unit
  | 0, pagetable => do
    forN (freeEntry (fun _ => throw .wild) pagetable) 512
    kfree pagetable
  | level + 1, pagetable => do
    forN (freeEntry (freewalk level) pagetable) 512
    kfree pagetable

def uvmfree (pagetable sz : Nat) : M Unit := do
  if 0 < sz then uvmunmap pagetable 0 (PGROUNDUP sz / PGSIZE) true
  freewalk 2 pagetable

/-- `flags` of `uvmcopy`: a writable page is shared for reading from now on. -/
def copyFlags (pte : Pte) : Pte :=
  if pte.has PTE_W then (PTE_FLAGS pte &&& ~~~PTE_W) ||| PTE_COW else PTE_FLAGS pte

/-- One round of `uvmcopy`; gives `i` when the child's table cannot grow. -/
def copyPte (old new i : Nat) : M (Option Nat) := do
  match ← walk old i false with
  | none => return none
  | some p =>
    let pte ← getPte p
    if ¬ pte.has PTE_V then return none
    else
      let pa := PTE2PA pte
      if pte.has PTE_W then setPte p.1 p.2 (PA2PTE pa ||| copyFlags pte)
      if ← mappages new i PGSIZE pa (copyFlags pte) then
        krefinc pa
        return none
      else return some i

def uvmcopy (old new sz : Nat) : M Bool := do
  match ← search (fun i => copyPte old new (i * PGSIZE)) 0 (rounds 0 sz) with
  | none => return true
  | some i =>
    uvmunmap new 0 (i / PGSIZE) true
    return false

def uvmclear (pagetable va : Nat) : M Unit := do
  match ← walk pagetable va false with
  | none => throw (.panic .uvmclear)
  | some p =>
    let pte ← getPte p
    setPte p.1 p.2 (pte &&& ~~~PTE_U)

end Xv6
