import Xv6.Steps
import Xv6.FaultSound

/-!
# Cached translations while the leader forks or unmaps

The threads of a group run on several harts with one page table. A hart in
user mode caches the entries it uses; it drops them when it executes
`sfence.vma`, on every way into the kernel (`uservec`), on every way out
(`userret`) and where the kernel says so. `kfork`, a shrinking `sbrk` and
`munmap` of the leader are cut at the entries they write. A step of
`uvmcopy` or `uvmunmap` writes at most one entry of the shared table, and a
hart in user mode sees nothing else of it.
-/

namespace Xv6

open Hoare Function Finset

def NCPU : Nat := 8

/-- How far the leader has come in a call. -/
inductive TlbCall
  /-- `uvmcopy` has come to page `i` of `k`. -/
  | copy (new i k : Nat)
  /-- `uvmunmap(new, 0, k, 1)` on the error path of `uvmcopy` has come to page `i`. -/
  | undo (new i k : Nat)
  /-- The pages of the shared table that `uvmunmap` has still to remove. -/
  | unmap (todo : List Nat)
  deriving DecidableEq

structure TlbSys where
  mem : Mem
  table : Nat
  sz : Nat
  call : Option TlbCall
  user : Nat → Bool
  tlb : Nat → Nat → Option Pte

def TlbSys.sfence_vma (s : TlbSys) (h : Nat) : TlbSys := { s with tlb := update s.tlb h fun _ => none }

def permits (e : Pte) (write : Bool) : Bool :=
  e.has PTE_V && e.has PTE_U && (if write then e.has PTE_W else e.has PTE_R)

def onTlb {α : Type} (x : M α) : Prog TlbSys MemStop α := zoom TlbSys.mem (fun s m => { s with mem := m }) id x

def pagesFrom (va npages : Nat) : List Nat := List.range' (va / PGSIZE) npages

section
variable [Image]

def TlbCall.run (h : Nat) : TlbCall → Prog TlbSys MemStop Unit
  | .copy new i k => do
    let s ← get
    if i < k then
      match ← onTlb (copyPte s.table new (i * PGSIZE)) with
      | none => modify fun s => { s with call := some (.copy new (i + 1) k) }
      | some j => modify fun s => { s with call := some (.undo new 0 (j / PGSIZE)) }
    else set ({ s with call := none }.sfence_vma h)
  | .undo new i k => do
    if i < k then
      onTlb (unmapPage new (i * PGSIZE) true)
      modify fun s => { s with call := some (.undo new (i + 1) k) }
    else modify fun s => { s with call := none }
  | .unmap [] => modify fun s => { s with call := none }
  | .unmap (n :: todo) => do
    let s ← get
    onTlb (unmapPage s.table (n * PGSIZE) true)
    modify fun s => { s with call := some (.unmap todo) }

inductive TlbEvent
  | access (h n : Nat) (write : Bool)
  | uservec (h : Nat)
  | userret (h : Nat)
  | kfork (h : Nat)
  | sbrk (h n : Nat)
  | munmap (h : Nat) (ranges : List (Nat × Nat))
  | step (h : Nat)

def TlbEvent.run : TlbEvent → Prog TlbSys MemStop Unit
  | .access h n write => do
    let s ← get
    -- a translation that is cached is used as it is; one that does not permit the access is left to `uservec`
    if h < NCPU ∧ s.user h ∧ n < 512 * 512 * 512 ∧ s.tlb h n = none ∧ permits (leaf s.mem s.table n) write then
      set { s with tlb := update s.tlb h (update (s.tlb h) n (some (leaf s.mem s.table n))) }
    else return ()
  | .uservec h => do
    let s ← get
    set ({ s with user := update s.user h false }.sfence_vma h)
  | .userret h => do
    let s ← get
    set ({ s with user := update s.user h true }.sfence_vma h)
  | .kfork h => do
    let s ← get
    if s.user h = false ∧ s.call = none then
      match ← onTlb uvmcreate with
      | none => return ()
      | some new => modify fun s => { s with call := some (.copy new 0 (rounds 0 s.sz)) }
    else return ()
  | .sbrk h n => do
    let s ← get
    if s.user h = false ∧ s.call = none ∧ n ≤ s.sz then
      let lo := PGROUNDUP (s.sz - n)
      set { s with sz := s.sz - n, call := some (.unmap (pagesFrom lo ((PGROUNDUP s.sz - lo) / PGSIZE))) }
    else return ()
  | .munmap h ranges => do
    let s ← get
    -- mappings are placed below the trapframes, so what `proc_munmap` removes of them is too
    if s.user h = false ∧ s.call = none ∧ ∀ x : Nat × Nat, x ∈ ranges → x.1 + x.2 * PGSIZE ≤ TRAPFRAME NPROC then
      set { s with call := some (.unmap (ranges.flatMap fun x : Nat × Nat => pagesFrom x.1 x.2)) }
    else return ()
  | .step h => do
    let s ← get
    if s.user h = false then
      match s.call with
      | none => return ()
      | some c => c.run h
    else return ()

end

def TlbCall.writes : TlbCall → Option Nat
  | .copy _ i k => if i < k then some i else none
  | .undo _ _ _ => none
  | .unmap todo => todo.head?

/-- Hart `h` can write to page `n` by a translation it has cached. -/
def TlbSys.writable (s : TlbSys) (h n : Nat) : Bool := (s.tlb h n).any fun e => e.has PTE_W

/-- No hart has a writable translation of the page cached whose entry is written next. -/
def Unshared : TlbEvent → TlbSys → Prop
  | .step _, s => ∀ c ∈ s.call, ∀ n ∈ c.writes, ∀ h < NCPU, s.writable h n = false
  | _, _ => True

instance Unshared.decidable : ∀ (e : TlbEvent) (s : TlbSys), Decidable (Unshared e s)
  | .step _, s => inferInstanceAs (Decidable (∀ c ∈ s.call, ∀ n ∈ c.writes, ∀ h < NCPU, s.writable h n = false))
  | .access .., _ | .uservec _, _ | .userret _, _ | .kfork _, _ | .sbrk .., _ | .munmap .., _ =>
    inferInstanceAs (Decidable True)

def Pending (m : Mem) (r : Nat) (R : Finset Nat) : Option TlbCall → Prop
  | none => True
  | some (.copy new i k) => new ∈ R ∧ r ≠ new ∧ k ≤ NUPAGE ∧ ∀ n < NUPAGE, i ≤ n → (leaf m new n).has PTE_V = false
  | some (.undo new _ k) => new ∈ R ∧ r ≠ new ∧ k ≤ NUPAGE
  | some (.unmap todo) => ∀ n ∈ todo, n < NUPAGE

structure Rewrites (m m' : Mem) (r n : Nat) : Prop where
  other : ∀ n' < 512 * 512 * 512, n' ≠ n → leaf m' r n' = leaf m r n'
  same : (leaf m' r n).has PTE_V = true → (leaf m r n).has PTE_V = true ∧ PTE2PA (leaf m' r n) = PTE2PA (leaf m r n)

structure Synced (s : TlbSys) : Prop where
  kernel : ∀ h, s.user h = false ∨ NCPU ≤ h → ∀ n, s.tlb h n = none
  entry : ∀ h n e, s.tlb h n = some e → e.has PTE_W = true →
    n < 512 * 512 * 512 ∧ leaf s.mem s.table n = e ∧ e.has PTE_V = true ∧ e.has PTE_U = true

variable {s : TlbSys} {m m' : Mem} {r n : Nat}

theorem KernOk.rewrites (h : KernOk m {r}) (hn : n < NUPAGE) (hw : Rewrites m m' r n) : KernOk m' {r} := by
  intro r' hr' n' hn' hlt
  rw [mem_singleton] at hr'
  subst hr'
  rw [hw.other n' hlt (by omega)]
  exact h r' (mem_singleton_self _) n' hn' hlt

theorem Rewrites.owned {H : Nat → Int} (hw : Rewrites m m' r n)
    (h : ∀ n < NUPAGE, (leaf m r n).has PTE_V = true → H (PTE2PA (leaf m r n)) = 0) :
    ∀ n < NUPAGE, (leaf m' r n).has PTE_V = true → H (PTE2PA (leaf m' r n)) = 0 := by
  intro n' hn' hv
  by_cases he : n' = n
  · subst he
    obtain ⟨hv', hp⟩ := hw.same hv
    rw [hp]
    exact h n' hn' hv'
  · rw [hw.other n' (NUPAGE_lt hn') he] at hv ⊢
    exact h n' hn' hv

theorem Synced.rewrites (h : Synced s) (hw : Rewrites s.mem m' s.table n) (hn : ∀ h < NCPU, s.writable h n = false)
    (c : Option TlbCall) : Synced { s with mem := m', call := c } := by
  refine ⟨h.kernel, fun hart n' e he hW => ?_⟩
  obtain ⟨h1, h2, h3⟩ := h.entry hart n' e he hW
  have hne : n' ≠ n := by
    intro hc
    rw [hc] at he
    by_cases hh : hart < NCPU
    · have hro := hn hart hh
      rw [TlbSys.writable, he, Option.any_some, hW] at hro
      cases hro
    · rw [h.kernel hart (.inr (by omega)) n] at he
      cases he
  exact ⟨h1, (hw.other n' h1 hne).trans h2, h3⟩

theorem Synced.same (h : Synced s) (hw : ∀ n < 512 * 512 * 512, leaf m' s.table n = leaf s.mem s.table n)
    (c : Option TlbCall) :
    Synced { s with mem := m', call := c } := by
  refine ⟨h.kernel, fun hart n' e he hW => ?_⟩
  obtain ⟨h1, h2, h3⟩ := h.entry hart n' e he hW
  exact ⟨h1, (hw n' h1).trans h2, h3⟩

section
variable [Image] {H : Nat → Int} {R : Finset Nat}

def Owning (m : Mem) (r : Nat) (c : Option TlbCall) : Prop :=
  ∃ R ρ H, MemInv m R ρ H ∧ (∀ a, 0 ≤ H a) ∧ r ∈ R ∧ KernOk m {r} ∧
    (∀ n < NUPAGE, (leaf m r n).has PTE_V = true → H (PTE2PA (leaf m r n)) = 0) ∧ Pending m r R c

structure TlbInv (s : TlbSys) : Prop where
  owning : Owning s.mem s.table s.call
  sz : s.sz ≤ TRAPFRAME NPROC
  synced : Synced s

variable {E : MemStop → Prop}

section
variable {ρ : Owners} (h : TlbInv s) (hI : MemInv m' R ρ H) (hH : ∀ a, 0 ≤ H a) (hr : s.table ∈ R)
  (hk : KernOk s.mem {s.table})
  (ho : ∀ n < NUPAGE, (leaf s.mem s.table n).has PTE_V = true → H (PTE2PA (leaf s.mem s.table n)) = 0)
include h hI hH hr hk ho

theorem TlbInv.kept {c : Option TlbCall}
    (hs : ∀ n < 512 * 512 * 512, leaf m' s.table n = leaf s.mem s.table n) (hp : Pending m' s.table R c) :
    TlbInv { s with mem := m', call := c } := by
  have hw : ∀ n, n < 512 * 512 * 512 → Rewrites s.mem m' s.table n := fun n hn =>
    ⟨fun n' hn' _ => hs n' hn', fun hv => by rw [hs n hn] at hv ⊢; exact ⟨hv, rfl⟩⟩
  exact ⟨⟨R, ρ, H, hI, hH, hr, hk.rewrites (n := 0) (by decide) (hw 0 (by decide)), (hw 0 (by decide)).owned ho, hp⟩, h.sz,
    h.synced.same hs c⟩

end

theorem TlbInv.begin (h : TlbInv s) {sz : Nat} (hsz : sz ≤ TRAPFRAME NPROC) {todo : List Nat} (ht : ∀ n ∈ todo, n < NUPAGE) :
    TlbInv { s with sz := sz, call := some (.unmap todo) } := by
  obtain ⟨R, ρ, H, hI, hH, hr, hk, ho, -⟩ := h.owning
  exact ⟨⟨R, ρ, H, hI, hH, hr, hk, ho, ht⟩, hsz, ⟨h.synced.kernel, h.synced.entry⟩⟩

structure TlbStart (s : TlbSys) : Prop where
  owning : Owning s.mem s.table none
  sz : s.sz ≤ TRAPFRAME NPROC
  idle : s.call = none
  empty : ∀ h n, s.tlb h n = none

theorem TlbStart.inv (h : TlbStart s) : TlbInv s where
  owning := by rw [h.idle]; exact h.owning
  sz := h.sz
  synced := ⟨fun hart _ n => h.empty hart n, fun hart n e he _ => by rw [h.empty hart n] at he; cases he⟩

theorem TlbInv.sole (h : TlbInv s) {hart : Nat} (he : s.tlb hart n = some e) (hw : e.has PTE_W = true) :
    s.mem.refcnt (pa2idx (PTE2PA e)) = 1 ∧ PTE2PA e ∉ s.mem.freelist := by
  obtain ⟨R, ρ, H, hI, hH, hr, hk, ho, -⟩ := h.owning
  obtain ⟨hn, rfl, hv, hu⟩ := h.synced.entry hart n e he hw
  have hnu : n < NUPAGE := by
    by_contra hc
    rw [(hk s.table (mem_singleton_self _) n (by omega) hn).1] at hu
    cases hu
  have hpage := hI.leafPage s.table hr n hnu hv
  have hone := hI.sole hr hnu hv hw
  have hcount := hI.count _ hpage
  rw [hone, ho n hnu hv, if_pos (hI.notNode hpage (by rw [hone, ho n hnu hv]; decide))] at hcount
  have href : s.mem.refcnt (pa2idx (PTE2PA (leaf s.mem s.table n))) = 1 := by omega
  refine ⟨href, fun hf => ?_⟩
  have hzero := ((hI.freeIff _).mp hf).2
  omega

end

end Xv6
