import Xv6.Steps
import Xv6.UserSound

/-!
# Page faults of threads at the same time

`vmfault` cut at every access to what the threads of a group share: the
entry of the page, its reference count, the free list, the frame that
replaces it, and in `mappages` the entries on the way down and the pages that
`walk` adds to the table. No lock is held from one of these to the next. A
page of a file is read in one step, with the inode locked.
-/

namespace Xv6

open Hoare Finset

inductive Reply
  | unit | bool | nat | pte | page | ptr

@[reducible] def Reply.type : Reply → Type
  | unit => Unit
  | bool => Bool
  | nat => Nat
  | pte => Pte
  | page => Option Nat
  | ptr => Option (Nat × Nat)

/-- What is left of a call of `vmfault`. -/
abbrev FaultCall := Cut Reply.type Vs Stop (Option Nat)

namespace FaultCall

def act (x : M Unit) (c : FaultCall) : FaultCall := .step .unit (onMem x) fun _ => c

def load (q : Nat × Nat) (k : Pte → FaultCall) : FaultCall := .step .pte (onMem (getPte q)) k

def alloc (k : Nat → FaultCall) (c : FaultCall) : FaultCall := .step .page (onMem kalloc) fun mem => Option.elim mem c k

section
variable {Q : Option Nat → Vs → Prop} {E : Stop → Prop} {s : Vs}

@[simp] theorem wp_act {x : M Unit} {c : FaultCall} :
    wp (act x c).run Q E s ↔ wp x (fun _ m => wp c.run Q E { s with mem := m }) (fun e => E (.mem e)) s.mem := by
  simp [act, Cut.run]

@[simp] theorem wp_load {q : Nat × Nat} {k : Pte → FaultCall} :
    wp (load q k).run Q E s ↔ wp (k (s.mem.pte q.1 q.2)).run Q E s := by
  simp [load, Cut.run]

@[simp] theorem wp_finished {a : Option Nat} : wp (.ret a : FaultCall).run Q E s ↔ Q a s := wp_pure a

theorem wp_alloc {k : Nat → FaultCall} {c : FaultCall} {P : Option Nat → Mem → Prop}
    (h : wp kalloc P (fun e => E (.mem e)) s.mem) (hc : ∀ m, P none m → wp c.run Q E { s with mem := m })
    (hk : ∀ mem m, P (some mem) m → wp (k mem).run Q E { s with mem := m }) : wp (alloc k c).run Q E s := by
  unfold alloc
  rw [Cut.run, wp_bind, wp_onMem]
  refine wp_post h fun mem m hm => ?_
  cases mem with
  | none => exact hc m hm
  | some mem => exact hk mem m hm

end

variable [Image]

/-- `mappages` of one page, when `walk` has come down to `pagetable`. -/
def map (va mem : Nat) (perm : Pte) : Nat → Nat → FaultCall
  | 0, pagetable => load (pagetable, PX 0 va) fun pte =>
    if pte.has PTE_V then act (throw (.panic .remap)) (.ret none)
    else act (setPte pagetable (PX 0 va) (PA2PTE mem ||| perm ||| PTE_V)) (.ret (some mem))
  | level + 1, pagetable => load (pagetable, PX (level + 1) va) fun pte =>
    if pte.has PTE_V then map va mem perm level (PTE2PA pte)
    else
      alloc (fun page => act (memzero page) (act (setPte pagetable (PX (level + 1) va) (PA2PTE page ||| PTE_V))
        (map va mem perm level page)))
        (act (kfree mem) (.ret none))

/-- A page of the heap, or of the file that `v` maps. -/
def fresh (r va : Nat) (perm : Pte) (v : Option Vma) : FaultCall :=
  alloc (fun mem => act (memzero mem)
    (v.elim (map va mem perm 2 r) fun v => .step .bool (fillPage v va mem) fun ok : Bool =>
      if ok then map va mem perm 2 r else act (kfree mem) (.ret none)))
    (.ret none)

def absent (p : Proc) (r va : Nat) (read : Bool) : FaultCall :=
  if va < p.sz then fresh r va (PTE_W ||| PTE_U ||| PTE_R) none
  else
    match p.vmaAt va with
    | none => .ret none
    | some v =>
      if ¬ (if read then test v.prot (PROT_READ ||| PROT_EXEC) else test v.prot PROT_WRITE) then .ret none
      else fresh r va (vmaPerm v.prot) (some v)

def cow (q : Nat × Nat) : FaultCall := load q fun pte =>
  .step .nat (onMem (krefcnt (PTE2PA pte))) fun n : Nat =>
    if n = 1 then
      load q fun e => act (setPte q.1 q.2 (ownFlags e)) (.ret (some (PTE2PA pte)))
    else
      alloc (fun mem => act (copyPage mem (PTE2PA pte)) (load q fun e =>
        act (setPte q.1 q.2 (PA2PTE mem ||| ownFlags (PTE_FLAGS e))) (act (kfree (PTE2PA pte)) (.ret (some mem)))))
        (.ret none)

def enter (p : Proc) (r va : Nat) (read : Bool) : FaultCall :=
  .step .ptr (onMem (walk r va false)) fun q => Option.elim q (absent p r va read) fun q => load q fun pte =>
    if pte.has PTE_V then if ¬ read ∧ pte.has PTE_COW then cow q else .ret none else absent p r va read

section
variable {p : Proc} {r n va : Nat} {read : Bool} {Q : Option Nat → Vs → Prop} {E : Stop → Prop} {s : Vs}

/-- The end of `mapNew`, after `walk`. -/
def mapAt (mem : Nat) (perm : Pte) : Option (Nat × Nat) → M (Option Nat)
  | none => do
    kfree mem
    return none
  | some q => do
    let pte ← getPte q
    if pte.has PTE_V then throw (.panic .remap)
    else
      setPte q.1 q.2 (PA2PTE mem ||| perm ||| PTE_V)
      return some mem

theorem wp_map {mem : Nat} {perm : Pte} : ∀ (level pagetable : Nat) (s : Vs),
    wp (walkFrom va true level pagetable >>= mapAt mem perm) (fun x m => Q x { s with mem := m })
      (fun e => E (.mem e)) s.mem →
    wp (map va mem perm level pagetable).run Q E s
  | 0, pagetable, s, h => by
    simp only [walkFrom, mapAt, pure_bind, wp_bind, wp_getPte] at h
    simp only [map, wp_load]
    split at h <;> simp_all
  | level + 1, pagetable, s, h => by
    simp only [walkFrom, wp_bind, wp_getPte] at h
    simp only [map, wp_load]
    split at h
    · rename_i hv
      rw [if_pos hv]
      exact wp_map level _ s (wp_seq h)
    · rename_i hv
      rw [if_neg (not_not_intro trivial), wp_bind] at h
      rw [if_neg hv]
      refine wp_alloc h (fun m hm => by simpa [mapAt] using hm) fun page m hm => ?_
      simp only [wp_bind, wp_memzero, wp_setPte] at hm
      simp only [wp_act, wp_memzero, wp_setPte]
      exact wp_map level page _ (wp_seq hm)

theorem wp_mapNew_cut {mem : Nat} {perm : Pte} (hn : n * PGSIZE < MAXVA)
    (h : wp (onMem (mapNew r (n * PGSIZE) mem perm)) Q E s) :
    wp (map (n * PGSIZE) mem perm 2 r).run Q E s := by
  simp only [mapNew, mappages, mapPage, walk, search, Nat.mul_mod_left, ne_eq, not_true_eq_false, if_false, Nat.mod_self,
    show PGSIZE ≠ 0 by decide, show PGSIZE / PGSIZE = 1 by rfl, Nat.zero_mul, Nat.add_zero, not_le.mpr hn, wp_onMem,
    wp_bind] at h
  refine wp_map 2 r s (wp_seq (wp_post h fun q m hm => ?_))
  cases q with
  | none => simpa [mapAt] using hm
  | some q =>
    simp only [wp_bind, wp_getPte] at hm
    simp only [mapAt, wp_bind, wp_getPte]
    split at hm <;> simp_all

theorem wp_cow {q : Nat × Nat} (h : wp (onMem (vmfaultCow q)) Q E s) : wp (cow q).run Q E s := by
  simp only [vmfaultCow, wp_onMem, wp_bind, wp_getPte] at h
  simp only [cow, wp_load]
  refine wp_seq (wp_onMem.mpr (wp_post h fun c m hm => ?_))
  by_cases hc : c = 1
  · simpa [hc] using hm
  · rw [if_neg hc, wp_bind] at hm
    simp only [if_neg hc]
    exact wp_alloc hm (fun m hm => by simpa using hm) fun mem m hm => by simpa using hm

theorem wp_absent (hn : n * PGSIZE < MAXVA) (h : wp (vmfaultNew p r (n * PGSIZE) read) Q E s) :
    wp (absent p r (n * PGSIZE) read).run Q E s := by
  unfold vmfaultNew at h
  unfold absent
  by_cases hlt : n * PGSIZE < p.sz
  · rw [if_pos hlt] at h ⊢
    simp only [vmfaultHeap, wp_onMem, wp_bind] at h
    refine wp_alloc h (fun m hm => by simpa using hm) fun mem m hm => ?_
    simp only [wp_bind, wp_memzero] at hm
    simp only [wp_act, wp_memzero]
    exact wp_mapNew_cut hn (wp_onMem.mpr hm)
  rw [if_neg hlt] at h ⊢
  cases hv : p.vmaAt (n * PGSIZE) with
  | none => simpa [hv] using h
  | some v =>
    simp only [hv, vmfaultVma] at h
    by_cases hprot : ¬ (if read then test v.prot (PROT_READ ||| PROT_EXEC) else test v.prot PROT_WRITE) = true
    · simp only [if_pos hprot] at h ⊢
      exact h
    · simp only [if_neg hprot, wp_bind, wp_onMem] at h ⊢
      refine wp_alloc h (fun m hm => by simpa using hm) fun mem m hm => ?_
      simp only [wp_bind, wp_onMem, wp_memzero] at hm
      simp only [wp_act, wp_memzero]
      refine wp_seq (wp_post hm fun ok s' hs => ?_)
      cases ok with
      | true => exact wp_mapNew_cut hn hs
      | false => simpa using hs

/-- Run one after another, the steps are `vmfault`. -/
theorem wp_enter (hn : n * PGSIZE < MAXVA) (h : wp (vmfault p r (n * PGSIZE) read) Q E s) :
    wp (enter p r (n * PGSIZE) read).run Q E s := by
  have hdown : PGROUNDDOWN (n * PGSIZE) = n * PGSIZE := congrArg (· * PGSIZE) (Nat.mul_div_cancel n (by decide))
  simp only [vmfault, hdown, wp_bind] at h
  refine wp_seq (wp_post h fun q s' hs => ?_)
  cases q with
  | none => exact wp_absent hn hs
  | some q =>
    simp only [wp_bind, wp_onMem, wp_getPte] at hs
    simp only [Option.elim_some, wp_load]
    split at hs
    · rename_i hv
      rw [if_pos hv]
      split at hs
      · rename_i hc
        rw [if_pos hc]
        exact wp_cow hs
      · rename_i hc
        rw [if_neg hc]
        exact hs
    · rename_i hv
      rw [if_neg hv]
      exact wp_absent hn hs

end

end FaultCall

/-! ## Threads that share a table -/

structure RaceSys where
  vs : Vs
  table : Nat
  proc : Nat → Proc
  call : Nat → Option FaultCall

inductive RaceEvent
  | fault (i va : Nat) (read : Bool)
  | step (i : Nat)

def RaceSys.goto (s : RaceSys) (i : Nat) : FaultCall → RaceSys
  | .ret _ => { s with call := Function.update s.call i none }
  | c => { s with call := Function.update s.call i (some c) }

def RaceSys.Quiet (s : RaceSys) : Prop := ∀ i < NPROC, s.call i = none

instance RaceSys.Quiet.decidable (s : RaceSys) : Decidable s.Quiet :=
  inferInstanceAs (Decidable (∀ i < NPROC, s.call i = none))

/-- A fault begins only when no other is in progress, and at an address that `walk` takes. -/
def OneFault : RaceEvent → RaceSys → Prop
  | .fault _ va _, s => va < MAXVA ∧ s.Quiet
  | .step _, _ => True

instance OneFault.decidable : ∀ (e : RaceEvent) (s : RaceSys), Decidable (OneFault e s)
  | .fault _ va _, s => inferInstanceAs (Decidable (va < MAXVA ∧ s.Quiet))
  | .step _, _ => inferInstanceAs (Decidable True)

section
variable [Image]

def RaceEvent.run : RaceEvent → Prog RaceSys Stop Unit
  | .fault i va read => do
    let s ← get
    if i < NPROC ∧ s.call i = none then
      set (s.goto i (.enter (s.proc i) s.table (PGROUNDDOWN va) read))
  | .step i => do
    match (← get).call i with
    | some (.step _ x k) =>
      let b ← zoom RaceSys.vs (fun s vs => { s with vs := vs }) id x
      modify (·.goto i (k b))
    | _ => return ()

variable {vs : Vs} {table : Nat} {proc : Nat → Proc} {R : Finset Nat} {H : Nat → Int} {s : RaceSys}

/-- Memory is accounted for, and the files that the threads map can be read. -/
structure RaceOk (vs : Vs) (table : Nat) (proc : Nat → Proc) (R : Finset Nat) (H : Nat → Int) : Prop where
  user : ∃ ρ, ∀ i < NPROC, UserOk (proc i) vs R ρ H table
  files : ∀ i < NPROC, Unstopped (proc i) vs.sys fun _ => False

theorem RaceOk.fault {i n : Nat} {read : Bool} (h : RaceOk vs table proc R H) (hi : i < NPROC) (hn : n * PGSIZE < MAXVA) :
    wp (vmfault (proc i) table (n * PGSIZE) read) (fun _ vs' => RaceOk vs' table proc R H) (fun _ => False) vs := by
  obtain ⟨ρ, hU⟩ := h.user
  have hi' := hU i hi
  have hF := h.files i hi
  refine wp_vmfault hi'.inv hi'.held hi'.table hi'.bounded hi'.alive hi'.kern (fun hc => absurd hn (not_lt.mpr hc))
    hF.1 hF.2 fun s' ρ' res _ hI hf => ⟨⟨ρ', fun j hj => ?_⟩, fun j hj => (h.files j hj).kept hf.kept⟩
  have h' := hi'.ran hI (hf.ran hi' 0)
  exact { h' with bounded := (hU j hj).bounded }

/-- Where runs begin: no fault is in progress. -/
structure RaceSys.Idle (s : RaceSys) (R : Finset Nat) (H : Nat → Int) : Prop where
  calls : ∀ i, s.call i = none
  ok : RaceOk s.vs s.table s.proc R H

/-- What is left of the only call in progress makes memory accounted for. -/
inductive RaceInv (s : RaceSys) (R : Finset Nat) (H : Nat → Int) : Prop
  | idle (h : s.Idle R H)
  | busy (i : Nat) (c : FaultCall) (calls : ∀ j, s.call j = if j = i then some c else none) (hi : i < NPROC)
      (rest : wp c.run (fun _ vs => RaceOk vs s.table s.proc R H) (fun _ => False) s.vs)

theorem RaceInv.goto {i : Nat} {c : FaultCall} (calls : ∀ j, j ≠ i → s.call j = none) (hi : i < NPROC)
    (rest : wp c.run (fun _ vs => RaceOk vs s.table s.proc R H) (fun _ => False) s.vs) : RaceInv (s.goto i c) R H := by
  cases c with
  | ret a => exact .idle ⟨fun j => (Function.update_apply ..).trans (by split <;> simp_all), FaultCall.wp_finished.mp rest⟩
  | step t x k => exact .busy i _ (fun j => (Function.update_apply ..).trans (by split <;> simp_all)) hi rest

end

/-! ## A page shared with a child, and one that is not there yet -/

section
variable [Image]

end

end Xv6
