import Xv6.OpSound

/-!
# Addresses that user programs choose

The kernel follows an address of a user program in `vmfault`, for a page
fault, and in `copyin`, `copyout` and `copyinstr`, for an argument of a system
call. Which addresses stop the kernel, and which copies, made while a lock is
held, get to a page that has to be read from a file.
-/

namespace Xv6

open Hoare

variable {va : Nat} {s : Vs}

/-! ## Addresses -/

inductive Access
  | fault (va : Nat) (read : Bool)
  | copyin (srcva len : Nat)
  | copyout (dstva : Nat) (src : List UInt8)
  | copyinstr (srcva max : Nat)

section
variable [Image]

def Access.run (p : Proc) (r : Nat) : Access → V Unit
  | .fault va read => do let _ ← vmfault p r va read
  | .copyin srcva len => do let _ ← Xv6.copyin p r srcva len
  | .copyout dstva src => do let _ ← Xv6.copyout p r dstva src
  | .copyinstr srcva max => do let _ ← Xv6.copyinstr p r srcva max

/-- `copyout` looks at the address before it walks the table; the others do not. -/
def Access.Low : Access → Prop
  | .fault va _ => va < MAXVA
  | .copyin srcva len => len = 0 ∨ srcva < MAXVA
  | .copyout _ _ => True
  | .copyinstr srcva max => max = 0 ∨ srcva < MAXVA

variable {W : Prop} {L : Nat → Nat} {k : Kernel} {E : Stop → Prop} {p : Proc} {r : Nat}

theorem Inv.unstopped (h : Inv W L k) (hk : Runs k) {E : Stop → Prop} (hW : W ∨ E (.sys .logOutside)) :
    Unstopped (k.procs k.sys.cur) k.sys E :=
  ⟨.inl h.held, .inl fun _ hi hu _ hf => h.fs.good (named_by_vma hk.slot hi hu hf) hW⟩

theorem Inv.wp_access (h : Inv W L k) (hk : Runs k) (hr : (k.procs k.sys.cur).pagetable = some r) {a : Access} (ha : a.Low)
    {y : Sys} (hy : y.run = k.sys.run ∧ y.cur = k.sys.cur) (hS : Unstopped (k.procs k.sys.cur) y E)  :
    wp (a.run (k.procs k.sys.cur) r) (fun _ _ => True) E ⟨y, k.mem⟩ := by
  obtain ⟨r', ρ, hr', hU'⟩ := h.toCore.userOk hk
  obtain rfl : r' = r := Option.some.inj (hr'.symm.trans hr)
  have hU : UserOk (k.procs k.sys.cur) ⟨y, k.mem⟩ (tables k.procs) ρ (heldBy L k) r' :=
    ⟨hU'.inv, hU'.held, hU'.table, hU'.bounded, by rw [Alive, hy.1, hy.2]; exact hU'.alive, hU'.kern⟩
  cases a <;> simp only [Access.run, Access.Low, wp_bind, wp_pure] at ha ⊢
  case fault va read =>
    exact wp_vmfault hU.inv hU.held hU.table hU.bounded hU.alive hU.kern (fun hc => absurd ha (not_lt.mpr hc)) hS.1 hS.2
      fun _ _ _ _ _ _ => trivial
  case copyin => exact wp_copyin hU hS (fun _ _ => by omega) fun _ _ _ _ _ _ _ => trivial
  case copyout => exact wp_copyout hU hS fun _ _ _ _ _ _ _ _ => trivial
  case copyinstr => exact wp_copyinstrLoop _ le_rfl hU hS (fun _ _ => by omega) fun _ _ _ _ _ _ => trivial

omit [Image] in
theorem walk_high (h : MAXVA ≤ va) {alloc : Bool} :
    wp (walk r va alloc) (fun _ _ => False) (fun e => e = .panic .walk) m := by
  unfold walk
  rw [if_pos h]
  exact wp_fail rfl

theorem vmfault_high {read : Bool} (h : MAXVA ≤ va) :
    wp (vmfault p r va read) (fun _ _ => False) (fun e => e = .mem (.panic .walk)) s := by
  have hdown : MAXVA ≤ PGROUNDDOWN va := by
    unfold PGROUNDDOWN
    lia
  unfold vmfault
  simp only [wp_bind, wp_onMem]
  exact wp_mono (walk_high hdown) (fun _ _ hx => hx.elim) fun _ he => by rw [he]

theorem userPage_high {read : Bool} (h : MAXVA ≤ va) :
    wp (userPage p r va read) (fun _ _ => False) (fun e => e = .mem (.panic .walk)) s := by
  unfold userPage
  rw [wp_bind, wp_onMem, wp_walkaddr, if_neg (not_lt.mpr h)]
  exact vmfault_high h

theorem access_high {a : Access} (h : ¬ a.Low) :
    wp (a.run p r) (fun _ _ => False) (fun e => e = .mem (.panic .walk)) s := by
  have hdown : ∀ {va}, MAXVA ≤ va → MAXVA ≤ PGROUNDDOWN va := fun hva => by
    unfold PGROUNDDOWN
    lia
  cases a <;> simp only [Access.run, Access.Low, wp_bind, wp_pure, not_lt, not_or, not_true] at h ⊢
  case fault => exact vmfault_high h
  case copyin srcva len =>
    obtain ⟨n, rfl⟩ := Nat.exists_eq_succ_of_ne_zero h.1
    unfold copyin
    rw [copyinLoop, if_neg h.1]
    rw [wp_bind]
    exact wp_mono (userPage_high (hdown h.2)) (fun _ _ hx => hx.elim) fun _ he => he
  case copyinstr srcva max =>
    obtain ⟨n, rfl⟩ := Nat.exists_eq_succ_of_ne_zero h.1
    unfold copyinstr
    rw [copyinstrLoop, if_neg h.1]
    rw [wp_bind]
    exact wp_mono (userPage_high (hdown h.2)) (fun _ _ hx => hx.elim) fun _ he => he

end

/-! ## With a spinlock held -/

/-- A copy that is made while a spinlock is held, with the lock, the address and the bytes that go there. -/
inductive LockedCopy
  | pipewrite (pi addr : Nat)
  | piperead (pi addr : Nat) (ch : UInt8)
  | consoleread (dst : Nat) (cbuf : UInt8)
  | sys_futex_wait (uaddr : Nat)
  | kwait (pp addr : Nat) (xstate : Int)

def LockedCopy.locks : LockedCopy → List Lock
  | .pipewrite pi _ => [.pipe pi]
  | .piperead pi _ _ => [.pipe pi]
  | .consoleread _ _ => [.cons]
  | .sys_futex_wait _ => [.futex]
  | .kwait pp _ _ => [.proc pp, .wait]

section
variable [Image] {n : Nat} {read : Bool}

def LockedCopy.run (p : Proc) (r : Nat) : LockedCopy → V Unit
  | .pipewrite _ addr => do let _ ← copyin p r addr 1
  | .piperead _ addr ch => do let _ ← copyout p r addr [ch]
  | .consoleread dst cbuf => do let _ ← copyout p r dst [cbuf]
  | .sys_futex_wait uaddr => do let _ ← copyin p r uaddr 4
  | .kwait _ addr xstate => if addr = 0 then return () else do let _ ← copyout p r addr (intBytes xstate)

def Sys.under (s : Sys) (hs : List Lock) (w : Nat → Bool) : Sys := { s with held := hs, waits := w }

def FilePage (p : Proc) (m : Mem) (r n : Nat) (read : Bool) : Prop :=
  n * PGSIZE < MAXVA ∧ (leaf m r n).has PTE_V = false ∧ p.sz ≤ n * PGSIZE ∧
    ∃ v f pa m', p.vmaAt (n * PGSIZE) = some v ∧
      (if read then test v.prot (PROT_READ ||| PROT_EXEC) else test v.prot PROT_WRITE) = true ∧ v.f = some f ∧
      kalloc m = .ok (some pa, m')

def Gives {α : Type} (x : V α) (m : Mem) (a : α) (m' : Mem) : Prop := ∀ y, x ⟨y, m⟩ = .ok (a, ⟨y, m'⟩)

/-- `copyin` gets to a page of a file: the first one, or one after pages that it gets otherwise. -/
def copyinReads (p : Proc) (r : Nat) : Nat → Nat → Nat → Mem → Prop
  | 0, _, _, _ => False
  | fuel + 1, srcva, len, m => len ≠ 0 ∧ (FilePage p m r (srcva / PGSIZE) true ∨
      ∃ pa m', Gives (userPage p r (PGROUNDDOWN srcva) true) m (some pa) m' ∧
        copyinReads p r fuel ((PGROUNDDOWN srcva + PGSIZE) % 2 ^ 64)
          (len - min (PGSIZE - (srcva - PGROUNDDOWN srcva)) len) m')

def writableReads (p : Proc) (r n : Nat) (m : Mem) : Prop :=
  FilePage p m r n false ∨ ∃ pa m', Gives (userPage p r (n * PGSIZE) false) m (some pa) m' ∧
    ∃ pte, entryOf r (n * PGSIZE) m' = .ok (pte, m') ∧ pte.has PTE_W = false ∧ FilePage p m' r n false

def copyoutReads (p : Proc) (r : Nat) : Nat → Nat → List UInt8 → Mem → Prop
  | 0, _, _, _ => False
  | fuel + 1, dstva, src, m => src ≠ [] ∧ (writableReads p r (dstva / PGSIZE) m ∨
      ∃ pa m', Gives (writablePage p r (PGROUNDDOWN dstva)) m (some pa) m' ∧
        copyoutReads p r fuel ((PGROUNDDOWN dstva + PGSIZE) % 2 ^ 64)
          (src.drop (min (PGSIZE - (dstva - PGROUNDDOWN dstva)) src.length))
          (m'.write pa (dstva - PGROUNDDOWN dstva) (src.take (min (PGSIZE - (dstva - PGROUNDDOWN dstva)) src.length))))

def copyinstrReads (p : Proc) (r : Nat) : Nat → Nat → Nat → Mem → Prop
  | 0, _, _, _ => False
  | fuel + 1, srcva, max, m => max ≠ 0 ∧ (FilePage p m r (srcva / PGSIZE) true ∨
      ∃ pa m', Gives (userPage p r (PGROUNDDOWN srcva) true) m (some pa) m' ∧
        (∀ j < min (PGSIZE - (srcva - PGROUNDDOWN srcva)) max, m'.data pa (srcva - PGROUNDDOWN srcva + j) ≠ 0) ∧
        copyinstrReads p r fuel ((PGROUNDDOWN srcva + PGSIZE) % 2 ^ 64)
          (max - min (PGSIZE - (srcva - PGROUNDDOWN srcva)) max) m')

def Access.Reads (p : Proc) (r : Nat) (m : Mem) : Access → Prop
  | .fault va read => FilePage p m r (va / PGSIZE) read
  | .copyin srcva len => copyinReads p r len srcva len m
  | .copyout dstva src => copyoutReads p r src.length dstva src m
  | .copyinstr srcva max => copyinstrReads p r max srcva max m

def LockedCopy.Reads (p : Proc) (r : Nat) : LockedCopy → Mem → Prop
  | .pipewrite _ addr => copyinReads p r 1 addr 1
  | .piperead _ addr ch => copyoutReads p r 1 addr [ch]
  | .consoleread dst cbuf => copyoutReads p r 1 dst [cbuf]
  | .sys_futex_wait uaddr => copyinReads p r 4 uaddr 4
  | .kwait _ addr xstate => fun m => addr ≠ 0 ∧ copyoutReads p r (intBytes xstate).length addr (intBytes xstate) m

/-! ### A file is read -/

variable {p : Proc} {r : Nat} {m m' : Mem} {y : Sys}

def Halts {α : Type} (x : V α) (s : Vs) : Prop := wp x (fun _ _ => False) (fun e => ∃ z, e = .sys z) s

omit [Image] in
theorem sleep_held {chan : Chan} {rest : List Lock} (hs : y.held = lk :: rest) (hrest : rest ≠ [])
    (hp : .proc y.cur ≠ lk) : wp (sleep chan lk) (fun _ _ => False) (fun _ => True) y := by
  unfold sleep
  simp only [wp_bind, wp_get]
  refine wp_acquire (fun _ => trivial) fun _ => ?_
  have hlk : (Lock.proc y.cur :: y.held).erase lk = .proc y.cur :: rest := by
    rw [List.erase_cons_tail (by simpa using hp), hs, List.erase_cons_head]
  refine wp_release (by simp [Sys.lock, hs]) ?_
  unfold sched
  simp only [wp_modify, wp_bind, wp_get, Sys.setRun, Sys.lock, Sys.unlock, hlk, List.length_cons]
  exact wp_ite (fun _ => wp_fail trivial) fun hl => absurd (List.eq_nil_of_length_eq_zero (by omega)) hrest

omit [Image] in
theorem ilock_held (hh : y.held ≠ []) (hw : ∀ i, y.waits i) :
    wp (ilock ip) (fun _ _ => False) (fun _ => True) y := by
  unfold ilock acquiresleep contended mustWait
  rw [wp_read]
  refine wp_ite (fun _ => wp_fail trivial) fun _ => ?_
  simp only [wp_bind, wp_get, if_true]
  refine wp_acquire (fun _ => trivial) fun _ => ?_
  simp only [wp_set, wp_pure]
  have hsleep : wp (sleep (.inode ip) (.sleep ip)) (fun _ _ => False) (fun _ => True)
      { y.lock (.sleep ip) with nwait := (y.lock (.sleep ip)).nwait + 1 } := sleep_held rfl hh (by simp)
  refine wp_ite (fun _ => ?_) fun _ => wp_ite (fun _ => ?_) fun hc => absurd (hw _) hc <;> rw [wp_bind] <;>
    exact wp_mono hsleep (fun _ _ hx => hx.elim) fun _ _ => trivial

theorem vmfault_file (hF : FilePage p m r (va / PGSIZE) read) (hh : y.held ≠ [])
    (hw : ∀ i, y.waits i) : Halts (vmfault p r va read) ⟨y, m⟩ := by
  obtain ⟨hva, hv, hsz, v, f, pa, m', hat, hprot, hf, hk⟩ := hF
  have hnew : Halts (vmfaultNew p r (va / PGSIZE * PGSIZE) read) ⟨y, m⟩ := by
    unfold Halts vmfaultNew vmfaultVma
    rw [if_neg (not_lt.mpr hsz), hat]
    dsimp only
    rw [if_neg (by simpa using hprot)]
    simp only [wp_bind, wp_onMem]
    refine wp_of_ok (fun o m1 hx => ?_) fun e hx => by rw [hk] at hx; cases hx
    obtain ⟨rfl, rfl⟩ : some pa = o ∧ m' = m1 := by rw [hk] at hx; cases hx; exact ⟨rfl, rfl⟩
    unfold fillPage readPage
    rw [hf]
    simp only [wp_bind, wp_onMem, wp_memzero, wp_get, wp_onSys]
    exact wp_mono (ilock_held hh hw) (fun _ _ hx => hx.elim) fun _ _ => ⟨_, rfl⟩
  unfold Halts vmfault
  simp only [wp_bind, wp_onMem]
  rw [PGROUNDDOWN, wp_walk_read hva, page_div]
  cases hl : low m r (va / PGSIZE / 512) with
  | none => exact hnew
  | some a =>
    simp only [Option.map_some, wp_bind, wp_onMem, wp_getPte, ← leaf_of_low hl]
    exact wp_ite (fun hc => by rw [hv] at hc; cases hc) fun _ => hnew

theorem userPage_file (hF : FilePage p m r n read) (hh : y.held ≠ []) (hw : ∀ i, y.waits i) :
    Halts (userPage p r (n * PGSIZE) read) ⟨y, m⟩ := by
  unfold Halts userPage
  rw [wp_bind, wp_onMem, wp_walkaddr, if_pos hF.1, page_div]
  simp only [userPa, hF.2.1, Bool.false_eq_true, if_false, false_and]
  exact vmfault_file (by rw [show n * PGSIZE / PGSIZE = n from page_div n]; exact hF) hh hw

omit [Image] in
theorem Gives.wp {α : Type} {x : V α} {a : α} {Q : α → Vs → Prop} {E : Stop → Prop} (h : Gives x m a m') (hQ : Q a ⟨y, m'⟩) :
    wp x Q E ⟨y, m⟩ := by
  refine wp_of_ok (fun b s hx => ?_) fun e hx => ?_ <;> rw [h y] at hx <;> cases hx
  exact hQ

theorem copyin_file (hh : y.held ≠ []) (hw : ∀ i, y.waits i) : ∀ (fuel : Nat) {srcva len : Nat} {m : Mem},
    copyinReads p r fuel srcva len m → Halts (copyinLoop p r fuel srcva len) ⟨y, m⟩
  | 0, _, _, _, h => h.elim
  | fuel + 1, srcva, len, m, ⟨h0, h⟩ => by
    unfold Halts
    rw [copyinLoop, if_neg h0]
    rw [wp_bind]
    rcases h with h | ⟨pa, m', hg, h⟩
    · exact wp_post (userPage_file h hh hw) fun _ _ hx => hx.elim
    · refine hg.wp ?_
      simp only [wp_bind, wp_onMem, wp_readBytes]
      exact wp_post (copyin_file hh hw fuel h) fun _ _ hx => hx.elim

theorem copyinstr_file (hh : y.held ≠ []) (hw : ∀ i, y.waits i) : ∀ (fuel : Nat) {srcva max : Nat} {m : Mem},
    copyinstrReads p r fuel srcva max m → Halts (copyinstrLoop p r fuel srcva max) ⟨y, m⟩
  | 0, _, _, _, h => h.elim
  | fuel + 1, srcva, max, m, ⟨h0, h⟩ => by
    unfold Halts
    rw [copyinstrLoop, if_neg h0]
    rw [wp_bind]
    rcases h with h | ⟨pa, m', hg, hz, h⟩
    · exact wp_post (userPage_file h hh hw) fun _ _ hx => hx.elim
    · refine hg.wp ?_
      simp only [wp_bind, wp_onMem, wp_readBytes]
      refine wp_ite (fun hc => ?_) fun _ => wp_seq (wp_post (copyinstr_file hh hw fuel h) fun _ _ hx => hx.elim)
      obtain ⟨j, hj, hc⟩ := List.mem_map.mp hc
      exact absurd hc (hz j (List.mem_range.mp hj))

theorem writablePage_file (h : writableReads p r n m) (hh : y.held ≠ []) (hw : ∀ i, y.waits i) :
    Halts (writablePage p r (n * PGSIZE)) ⟨y, m⟩ := by
  unfold Halts writablePage
  rw [wp_bind]
  rcases h with h | ⟨pa, m', hg, pte, hpte, hW, hF⟩
  · exact wp_post (userPage_file h hh hw) fun _ _ hx => hx.elim
  · refine hg.wp ?_
    simp only [wp_bind, wp_onMem]
    refine wp_of_ok (fun e m1 hx => ?_) fun e hx => by rw [hpte] at hx; cases hx
    obtain ⟨rfl, rfl⟩ : pte = e ∧ m' = m1 := by rw [hpte] at hx; cases hx; exact ⟨rfl, rfl⟩
    rw [if_neg (by rw [hW]; simp), wp_bind]
    refine wp_post (vmfault_file ?_ hh hw) fun _ _ hx => hx.elim
    rw [show n * PGSIZE / PGSIZE = n by lia]
    exact hF

theorem writableReads_lt (h : writableReads p r n m) : n * PGSIZE < MAXVA := by
  rcases h with h | ⟨_, _, _, _, _, _, h⟩ <;> exact h.1

theorem copyout_file (hh : y.held ≠ []) (hw : ∀ i, y.waits i) : ∀ (fuel : Nat) {dstva : Nat} {src : List UInt8} {m : Mem},
    copyoutReads p r fuel dstva src m → Halts (copyoutLoop p r fuel dstva src) ⟨y, m⟩
  | 0, _, _, _, h => h.elim
  | fuel + 1, dstva, src, m, ⟨h0, h⟩ => by
    rw [copyoutLoop, if_neg h0]
    rcases h with h | ⟨pa, m', hg, h⟩
    · refine wp_ite (fun hc => absurd (writableReads_lt h) (not_lt.mpr hc)) fun _ => ?_
      exact wp_seq (wp_post (writablePage_file h hh hw) fun _ _ hx => hx.elim)
    · refine wp_ite (fun hc => ?_) fun _ => ?_
      · -- above `MAXVA` there is no page to get
        have := hg y
        unfold writablePage at this
        exact (wp_ok (Q := fun _ _ => False) (by
          rw [wp_bind]; exact wp_post (userPage_high hc) fun _ _ hx => hx.elim) this).elim
      · refine wp_seq (hg.wp ?_)
        simp only [wp_bind, wp_onMem, wp_writeBytes]
        exact copyout_file hh hw fuel h

/-! ### No file is read -/

def MemOnly {α : Type} (x : V α) (m : Mem) : Prop := (∃ a m', Gives x m a m') ∨ ∃ e, ∀ y, x ⟨y, m⟩ = .error (.mem e)

section
omit [Image]
variable {α β : Type}

theorem MemOnly.onMem (x : M α) (m : Mem) : MemOnly (Xv6.onMem x) m := by
  unfold MemOnly Gives Xv6.onMem zoom
  cases hx : x m with
  | ok q => exact .inl ⟨q.1, q.2, fun y => by rw [hx]⟩
  | error e => exact .inr ⟨e, fun y => by rw [hx]⟩

theorem MemOnly.pure (a : α) (m : Mem) : MemOnly (Pure.pure a : V α) m := .inl ⟨a, m, fun _ => rfl⟩

theorem bind_run (x : V α) (f : α → V β) (s : Vs) : (x >>= f) s = (x s >>= fun q => f q.1 q.2) := rfl

theorem MemOnly.bind (h : MemOnly x m) (hf : ∀ a m', Gives x m a m' → MemOnly (f a) m') : MemOnly (x >>= f) m := by
  rcases h with ⟨a, m', hg⟩ | ⟨e, he⟩
  · rcases hf a m' hg with ⟨b, m'', hg'⟩ | ⟨e, he⟩
    · exact .inl ⟨b, m'', fun y => by rw [bind_run, hg y]; exact hg' y⟩
    · exact .inr ⟨e, fun y => by rw [bind_run, hg y]; exact he y⟩
  · exact .inr ⟨e, fun y => by rw [bind_run, he y]; rfl⟩

theorem MemOnly.next {x : V α} {Q : α → Vs → Prop} {E : Stop → Prop} (h : MemOnly x m) (hE : ∀ e, E (.mem e))
    (hQ : ∀ a m', Gives x m a m' → Q a ⟨y, m'⟩) : wp x Q E ⟨y, m⟩ := by
  rcases h with ⟨a, m', hg⟩ | ⟨e, he⟩
  · exact hg.wp (hQ a m' hg)
  · refine wp_of_ok (fun b s hx => ?_) fun e' hx => ?_ <;> rw [he y] at hx <;> cases hx
    exact hE e

theorem MemOnly.bindMem (h : wp x (fun a m' => MemOnly (f a) m') (fun _ => True) m) :
    MemOnly (Xv6.onMem x >>= f) m := by
  cases hx : x m with
  | ok q =>
    have hrun : ∀ y, Xv6.onMem x ⟨y, m⟩ = .ok (q.1, ⟨y, q.2⟩) := fun y => by unfold Xv6.onMem zoom; simp only [hx]
    rcases wp_ok h hx with ⟨b, m', hg⟩ | ⟨e, he⟩
    · exact .inl ⟨b, m', fun y => by rw [bind_run, hrun]; exact hg y⟩
    · exact .inr ⟨e, fun y => by rw [bind_run, hrun]; exact he y⟩
  | error e =>
    have hrun : ∀ y, Xv6.onMem x ⟨y, m⟩ = .error (.mem e) := fun y => by unfold Xv6.onMem zoom; simp only [hx]
    exact .inr ⟨e, fun y => by rw [bind_run, hrun]; rfl⟩

end

theorem vmfault_memOnly (hF : ¬ FilePage p m r (va / PGSIZE) read) : MemOnly (vmfault p r va read) m := by
  have hnew : va / PGSIZE * PGSIZE < MAXVA → (leaf m r (va / PGSIZE)).has PTE_V = false →
      MemOnly (vmfaultNew p r (va / PGSIZE * PGSIZE) read) m := fun hva hv => by
    unfold vmfaultNew
    split
    · exact MemOnly.onMem ..
    rename_i hsz
    cases hat : p.vmaAt (va / PGSIZE * PGSIZE) with
    | none => exact MemOnly.pure ..
    | some v =>
      dsimp only
      unfold vmfaultVma
      by_cases hprot : (if read then test v.prot (PROT_READ ||| PROT_EXEC) else test v.prot PROT_WRITE)
      swap
      · rw [if_pos hprot]; exact MemOnly.pure ..
      rw [if_neg (not_not.mpr hprot)]
      refine MemOnly.bindMem (wp_of_ok (fun o m1 hk => ?_) fun _ _ => trivial)
      cases o with
      | none => exact MemOnly.pure ..
      | some pa =>
        have hf : v.f = none := by
          cases hf : v.f with
          | none => rfl
          | some f => exact absurd ⟨hva, hv, not_lt.mp hsz, v, f, pa, m1, hat, hprot, hf, hk⟩ hF
        refine MemOnly.bindMem (wp_memzero.mpr ?_)
        unfold fillPage
        rw [hf]
        exact MemOnly.onMem ..
  unfold vmfault
  rw [PGROUNDDOWN]
  refine MemOnly.bindMem ?_
  by_cases hva : va / PGSIZE * PGSIZE < MAXVA
  swap
  · exact wp_mono (walk_high (not_lt.mp hva)) (fun _ _ hx => hx.elim) fun _ _ => trivial
  rw [wp_walk_read hva, page_div]
  cases hl : low m r (va / PGSIZE / 512) with
  | none => exact hnew hva (by rw [leaf_of_none hl]; simp)
  | some a =>
    refine MemOnly.bindMem (wp_getPte.mpr ?_)
    simp only [← leaf_of_low hl]
    split
    · split
      · exact MemOnly.onMem ..
      · exact MemOnly.pure ..
    · rename_i hv
      exact hnew hva (by simpa using hv)

theorem userPage_memOnly (hF : ¬ FilePage p m r n read) : MemOnly (userPage p r (n * PGSIZE) read) m := by
  refine MemOnly.bindMem (wp_walkaddr.mpr ?_)
  split
  · exact MemOnly.pure ..
  · exact vmfault_memOnly (by rwa [show n * PGSIZE / PGSIZE = n by lia])

omit [Image] in
theorem entryOf_same : wp (entryOf r va) (fun _ m' => m' = m) (fun _ => True) m := by
  unfold entryOf
  rw [wp_bind]
  by_cases hva : va < MAXVA
  · rw [wp_walk_read hva]
    cases low m r (va / 4096 / 512) with
    | none => exact wp_fail trivial
    | some a => exact wp_getPte.mpr rfl
  · exact wp_mono (walk_high (not_lt.mp hva)) (fun _ _ hx => hx.elim) fun _ _ => trivial

theorem writablePage_memOnly (h : ¬ writableReads p r n m) : MemOnly (writablePage p r (n * PGSIZE)) m := by
  refine (userPage_memOnly fun hF => h (.inl hF)).bind fun o m1 hg => ?_
  cases o with
  | none => exact MemOnly.pure ..
  | some pa =>
    refine MemOnly.bindMem (wp_of_ok (fun pte m2 hpte => ?_) fun _ _ => trivial)
    obtain rfl : m2 = m1 := wp_ok (Q := fun _ m => m = m1) entryOf_same hpte
    split
    · exact MemOnly.pure ..
    rename_i hW
    have hF : ¬ FilePage p m2 r (n * PGSIZE / PGSIZE) false := by
      rw [show n * PGSIZE / PGSIZE = n by lia]
      exact fun hF => h (.inr ⟨pa, m2, hg, pte, hpte, by simpa using hW, hF⟩)
    refine (vmfault_memOnly hF).bind fun o m3 _ => ?_
    cases o with
    | none => exact MemOnly.pure ..
    | some pa =>
      refine MemOnly.bindMem (wp_of_ok (fun q m4 _ => ?_) fun _ _ => trivial)
      cases q with
      | none => exact MemOnly.pure ..
      | some q =>
        refine MemOnly.bindMem (wp_getPte.mpr ?_)
        split <;> exact MemOnly.pure ..

theorem copyin_memOnly : ∀ (fuel : Nat) {srcva len : Nat} {m : Mem}, ¬ copyinReads p r fuel srcva len m →
    wp (copyinLoop p r fuel srcva len) (fun _ _ => True) (fun e => ∃ z, e = .mem z) ⟨y, m⟩
  | 0, _, _, _, _ => by rw [copyinLoop, wp_pure]; trivial
  | fuel + 1, srcva, len, m, h => by
    refine wp_ite (fun _ => wp_ret trivial) fun h0 => ?_
    rw [wp_bind]
    refine (userPage_memOnly fun hF => h ⟨h0, .inl hF⟩).next (fun e => ⟨e, rfl⟩) fun o m1 hg => ?_
    cases o with
    | none => exact wp_ret trivial
    | some pa =>
      simp only [wp_bind, wp_onMem, wp_readBytes, wp_pure]
      exact copyin_memOnly fuel fun hx => h ⟨h0, .inr ⟨pa, m1, hg, hx⟩⟩

theorem copyinstr_memOnly : ∀ (fuel : Nat) {srcva max : Nat} {m : Mem}, ¬ copyinstrReads p r fuel srcva max m →
    wp (copyinstrLoop p r fuel srcva max) (fun _ _ => True) (fun e => ∃ z, e = .mem z) ⟨y, m⟩
  | 0, _, _, _, _ => by rw [copyinstrLoop, wp_pure]; trivial
  | fuel + 1, srcva, max, m, h => by
    refine wp_ite (fun _ => wp_ret trivial) fun h0 => ?_
    rw [wp_bind]
    refine (userPage_memOnly fun hF => h ⟨h0, .inl hF⟩).next (fun e => ⟨e, rfl⟩) fun o m1 hg => ?_
    cases o with
    | none => exact wp_ret trivial
    | some pa =>
      simp only [wp_bind, wp_onMem, wp_readBytes]
      refine wp_ite (fun _ => wp_ret trivial) fun hz => wp_seq ?_
      refine wp_post (copyinstr_memOnly fuel fun hx => h ⟨h0, .inr ⟨pa, m1, hg, fun j hj hc => ?_, hx⟩⟩) fun o _ _ => ?_
      · exact hz (List.mem_map.mpr ⟨j, List.mem_range.mpr hj, hc⟩)
      · cases o <;> exact wp_ret trivial

theorem copyout_memOnly : ∀ (fuel : Nat) {dstva : Nat} {src : List UInt8} {m : Mem}, ¬ copyoutReads p r fuel dstva src m →
    wp (copyoutLoop p r fuel dstva src) (fun _ _ => True) (fun e => ∃ z, e = .mem z) ⟨y, m⟩
  | 0, _, _, _, _ => by rw [copyoutLoop, wp_pure]; trivial
  | fuel + 1, dstva, src, m, h => by
    refine wp_ite (fun _ => wp_ret trivial) fun h0 => wp_ite (fun _ => wp_ret trivial) fun _ => ?_
    refine wp_seq ((writablePage_memOnly fun hF => h ⟨h0, .inl hF⟩).next (fun e => ⟨e, rfl⟩) fun o m1 hg => ?_)
    cases o with
    | none => exact wp_ret trivial
    | some pa =>
      simp only [wp_bind, wp_onMem, wp_writeBytes]
      exact copyout_memOnly fuel fun hx => h ⟨h0, .inr ⟨pa, m1, hg, hx⟩⟩

omit [Image] in
theorem LockedCopy.locks_ne (c : LockedCopy) : c.locks ≠ [] := by cases c <;> simp [LockedCopy.locks]

theorem LockedCopy.file {c : LockedCopy} (h : c.Reads p r m) (hh : y.held ≠ []) (hw : ∀ i, y.waits i) :
    Halts (c.run p r) ⟨y, m⟩ := by
  cases c <;> simp only [Halts, LockedCopy.run, LockedCopy.Reads, copyin, copyout, wp_bind] at h ⊢
  case pipewrite | sys_futex_wait => exact wp_post (copyin_file hh hw _ h) fun _ _ hx => hx.elim
  case piperead | consoleread => exact wp_post (copyout_file hh hw _ h) fun _ _ hx => hx.elim
  case kwait =>
    rw [if_neg h.1, wp_bind]
    exact wp_post (copyout_file hh hw _ h.2) fun _ _ hx => hx.elim

theorem LockedCopy.memOnly {c : LockedCopy} (h : ¬ c.Reads p r m) :
    wp (c.run p r) (fun _ _ => True) (fun e => ∃ z, e = .mem z) ⟨y, m⟩ := by
  cases c <;> simp only [LockedCopy.run, LockedCopy.Reads, copyin, copyout, wp_bind] at h ⊢
  case pipewrite | sys_futex_wait => exact wp_post (copyin_memOnly _ h) fun _ _ _ => wp_ret trivial
  case piperead | consoleread => exact wp_post (copyout_memOnly _ h) fun _ _ _ => wp_ret trivial
  case kwait =>
    refine wp_ite (fun _ => wp_ret trivial) fun h0 => ?_
    exact wp_seq (wp_post (copyout_memOnly _ fun hx => h ⟨h0, hx⟩) fun _ _ _ => wp_ret trivial)

/-- A copy that is made with a spinlock held never waits, whatever others do, exactly if it gets to no page that has to be
read from a file. -/
theorem locked_copies_awake (p : Proc) (r : Nat) (s : Vs) (c : LockedCopy) :
    (∀ w e, c.run p r ⟨s.sys.under c.locks w, s.mem⟩ ≠ .error (.sys e)) ↔ ¬ c.Reads p r s.mem := by
  constructor
  · intro h hc
    have hx := LockedCopy.file (y := s.sys.under c.locks fun _ => true) hc c.locks_ne fun _ => rfl
    cases hrun : c.run p r ⟨s.sys.under c.locks fun _ => true, s.mem⟩ with
    | ok q => exact wp_ok hx hrun
    | error e =>
      obtain ⟨z, rfl⟩ := wp_error hx hrun
      exact h _ z hrun
  · intro h w e hrun
    obtain ⟨z, hz⟩ := wp_error (LockedCopy.memOnly h) hrun
    cases hz

end

theorem locked_copy_waits : ∃ k₀ tr k r, @Booted (lastPages 30) Config.small k₀ ∧
    @Reaches (lastPages 30) (fun _ _ => True) k₀ tr k ∧ k.ready 0 ∧ (k.procs 0).pagetable = some r ∧
    ∀ c ∈ [LockedCopy.piperead 0 ((k.procs 0).vmas 0).addr 7, .kwait 1 ((k.procs 0).vmas 0).addr 0],
      @LockedCopy.run (lastPages 30) (k.procs 0) r c ⟨(k.switch 0).sys.under c.locks fun _ => true, k.mem⟩ =
        .error (.sys .schedLocks) := by
  obtain ⟨k₀, tr, k, hb, ht, hf⟩ := reaches_last Config.small_ok
    [(0, .sbrk 4096 true), (0, .opens 2 2), (0, .mmap 0 4096 3 1 0 0)]
    (fun _ k => decide (k.ready 0) && (k.procs 0).pagetable.any fun r =>
      [LockedCopy.piperead 0 ((k.procs 0).vmas 0).addr 7, .kwait 1 ((k.procs 0).vmas 0).addr 0].all fun c =>
        failsBy (@LockedCopy.run (lastPages 30) (k.procs 0) r c
          ⟨(k.switch 0).sys.under c.locks fun _ => true, k.mem⟩) (.sys .schedLocks)) (by decide +kernel)
  obtain ⟨hi, hp⟩ := Bool.and_eq_true_iff.mp hf
  obtain ⟨r, hr, hall⟩ := (Option.any_eq_true ..).mp hp
  exact ⟨k₀, tr, k, r, hb, ht, of_decide_eq_true hi, hr, fun c hc => of_failsBy (List.all_eq_true.mp hall c hc)⟩

/-! ## What stops the kernel -/

section
variable [Image] {p : Proc} {r : Nat} {k : Kernel} {a : Access}

theorem Access.file {y : Sys} {m : Mem} (h : a.Reads p r m) (hh : y.held ≠ []) (hw : ∀ i, y.waits i) :
    Halts (a.run p r) ⟨y, m⟩ := by
  cases a <;> simp only [Halts, Access.run, Access.Reads, Xv6.copyin, Xv6.copyout, Xv6.copyinstr, wp_bind] at h ⊢
  case fault => exact wp_post (vmfault_file h hh hw) fun _ _ hx => hx.elim
  case copyin => exact wp_post (copyin_file hh hw _ h) fun _ _ hx => hx.elim
  case copyout => exact wp_post (copyout_file hh hw _ h) fun _ _ hx => hx.elim
  case copyinstr => exact wp_post (copyinstr_file hh hw _ h) fun _ _ hx => hx.elim

theorem Access.memOnly {y : Sys} {m : Mem} (h : ¬ a.Reads p r m) :
    wp (a.run p r) (fun _ _ => True) (fun e => ∃ z, e = .mem z) ⟨y, m⟩ := by
  cases a <;> simp only [Access.run, Access.Reads, Xv6.copyin, Xv6.copyout, Xv6.copyinstr, wp_bind] at h ⊢
  case fault => exact (vmfault_memOnly h).next (fun e => ⟨e, rfl⟩) fun _ _ _ => wp_ret trivial
  case copyin => exact wp_post (copyin_memOnly _ h) fun _ _ _ => wp_ret trivial
  case copyout => exact wp_post (copyout_memOnly _ h) fun _ _ _ => wp_ret trivial
  case copyinstr => exact wp_post (copyinstr_memOnly _ h) fun _ _ _ => wp_ret trivial

/-- Whatever calls processes have made, on files without holes the kernel gets through with an address that the running
process chose exactly if it is below `MAXVA` or goes to `copyout`; with a spinlock held, exactly if besides it gets to no
page that has to be read from a file, and then no inode that is locked stops it either. -/
theorem user_addresses {c : Config} {k₀ : Kernel} {P : Nat × Op → Kernel → Prop} {tr : List ((Nat × Op) × Kernel)} {i : Nat}
    (hb : Booted c k₀) (hc : c.Whole) (ht : Reaches P k₀ tr k) (hi : k.ready i) (hr : (k.procs i).pagetable = some r)
    (a : Access) :
    ((∃ s, a.run (k.procs i) r ⟨(k.switch i).sys, k.mem⟩ = .ok ((), s)) ↔ a.Low) ∧
    (∀ hs ≠ [], (∀ w, ∃ s, a.run (k.procs i) r ⟨(k.switch i).sys.under hs w, k.mem⟩ = .ok ((), s)) ↔
      a.Low ∧ ¬ a.Reads (k.procs i) r k.mem) ∧
    (a.Low → ¬ a.Reads (k.procs i) r k.mem → ∀ inode, ∃ s,
      a.run (k.procs i) r ⟨{ (k.switch i).sys with inode := inode }, k.mem⟩ = .ok ((), s)) := by
  obtain ⟨L, -, h⟩ := inv_of_reaches hb.inv ht
  have hk := h.runs_switch hi
  have hlow : ∀ {y}, (∃ s, a.run (k.procs i) r ⟨y, k.mem⟩ = .ok ((), s)) → a.Low := fun ⟨s, hs⟩ => by
    by_contra ha
    exact wp_ok (access_high ha) hs
  have hmem : a.Low → ¬ a.Reads (k.procs i) r k.mem → ∀ y : Sys, y.run = k.sys.run ∧ y.cur = i →
      ∃ s, a.run (k.procs i) r ⟨y, k.mem⟩ = .ok ((), s) := fun ha hR y hy => by
    have hwp := (h.switch i).wp_access (E := fun e => ∃ z, e = .sys z) hk hr ha hy
      ⟨.inr ⟨⟨_, rfl⟩, ⟨_, rfl⟩⟩, .inr fun _ => ⟨_, rfl⟩⟩
    cases hrun : a.run (k.procs i) r ⟨y, k.mem⟩ with
    | ok q => exact ⟨q.2, rfl⟩
    | error e =>
      obtain ⟨z, rfl⟩ := wp_error hwp hrun
      obtain ⟨_, hz⟩ := wp_error (Access.memOnly hR) hrun
      cases hz
  refine ⟨⟨hlow, fun ha => ?_⟩, fun hs hne => ⟨fun hall => ⟨hlow (hall fun _ => true), fun hR => ?_⟩, fun ha w => ?_⟩,
    fun ha hR inode => ?_⟩
  · obtain ⟨_, s, hs, _⟩ := wp_total ((h.switch i).wp_access hk hr ha ⟨rfl, rfl⟩ ((h.switch i).unstopped hk (.inl hc)))
    exact ⟨s, hs⟩
  · obtain ⟨s, hs⟩ := hall fun _ => true
    exact wp_ok (Access.file hR hne fun _ => rfl) hs
  · exact hmem ha.1 ha.2 _ ⟨rfl, rfl⟩
  · exact hmem ha hR _ ⟨rfl, rfl⟩

end

theorem user_addresses_heap : ∃ k₀ tr k r, @Booted (lastPages 30) Config.small k₀ ∧
    @Reaches (lastPages 30) (fun _ _ => True) k₀ tr k ∧ k.ready 0 ∧ (k.procs 0).sz = 4096 ∧ (k.procs 0).pagetable = some r ∧
    ∃ s, @Access.run (lastPages 30) (k.procs 0) r (.copyin 100 8) ⟨(k.switch 0).sys, k.mem⟩ = .ok ((), s) := by
  obtain ⟨k₀, tr, k, hb, ht, hf⟩ := reaches_last Config.small_ok [(0, .sbrk 4096 false)]
    (fun _ k => decide (k.ready 0 ∧ (k.procs 0).sz = 4096 ∧ (k.procs 0).pagetable.isSome = true)) (by decide +kernel)
  obtain ⟨hi, hsz, hp⟩ := of_decide_eq_true hf
  obtain ⟨r, hr⟩ := Option.isSome_iff_exists.mp hp
  exact ⟨k₀, tr, k, r, hb, ht, hi, hsz, hr, (@user_addresses (lastPages 30) r k Config.small k₀ (fun _ _ => True) tr 0 hb
    Config.small_whole ht hi hr (.copyin 100 8)).1.mpr (Or.inr (by decide))⟩

/-- The first process touches the first address that is too high, and gives it to the kernel. -/
theorem user_address_panics : ∃ k₀ tr k r, @Booted (lastPages 30) Config.small k₀ ∧
    @Reaches (lastPages 30) (fun _ _ => True) k₀ tr k ∧ k.ready 0 ∧ (k.procs 0).pagetable = some r ∧
    ∀ a ∈ [Access.fault MAXVA true, .copyin MAXVA 1, .copyinstr MAXVA 1],
      @Access.run (lastPages 30) (k.procs 0) r a ⟨(k.switch 0).sys, k.mem⟩ = .error (.mem (.panic .walk)) := by
  obtain ⟨k₀, tr, k, hb, ht, hf⟩ := reaches_last Config.small_ok
    [] (fun _ k => decide (k.ready 0) && (k.procs 0).pagetable.any fun r =>
      [Access.fault MAXVA true, .copyin MAXVA 1, .copyinstr MAXVA 1].all fun a =>
        failsBy (@Access.run (lastPages 30) (k.procs 0) r a ⟨(k.switch 0).sys, k.mem⟩) (.mem (.panic .walk)))
    (by decide +kernel)
  obtain ⟨hi, hp⟩ := Bool.and_eq_true_iff.mp hf
  obtain ⟨r, hr, hall⟩ := (Option.any_eq_true ..).mp hp
  exact ⟨k₀, tr, k, r, hb, ht, of_decide_eq_true hi, hr, fun a ha => of_failsBy (List.all_eq_true.mp hall a ha)⟩

end Xv6
