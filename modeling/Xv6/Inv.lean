import Xv6.Refs
import Xv6.ProcSound

/-!
# The invariant of the kernel

`Core` is what holds of memory and files at almost every point of a system
call, and `Inv` what holds between calls. `L` counts references to pages that
no table, process or part of the kernel accounts for.
-/

namespace Xv6

open Hoare Function Option Finset

variable {f i : Nat} {α : Type} {k0 : Kernel}

def frames (procs : Nat → Proc) (a : Nat) : Nat := Nat.count (fun i => (procs i).trapframe = some a) NPROC

def heldBy (L : Nat → Nat) (k : Kernel) (a : Nat) : Int := frames k.procs a + k.kpages.count a + L a

def TableOk (m : Mem) (r sz : Nat) : Prop :=
  ∀ n < NUPAGE, (leaf m r n).has PTE_V = true →
    (leaf m r n).has (PTE_R ||| PTE_W ||| PTE_X) = true ∨ n < PGROUNDUP sz / 4096

def Framed (m : Mem) (r i : Nat) (q : Proc) : Prop :=
  if q.pagetable = some r then ∀ a, q.trapframe = some a → leaf m r (framePage i) = mkPte a (PTE_R ||| PTE_W)
  else (leaf m r (framePage i)).has PTE_V = false

structure Wired [Image] (m : Mem) (procs : Nat → Proc) (r : Nat) : Prop where
  tramp : leaf m r trampPage = mkPte Image.trampoline (PTE_R ||| PTE_X)
  frame : ∀ i < NPROC, Framed m r i (procs i)
  rest : ∀ n, NUPAGE ≤ n → n < 512 * 512 * 512 → n ≠ trampPage → (∀ i < NPROC, n ≠ framePage i) →
    (leaf m r n).has PTE_V = false

structure Core [Image] (W : Prop) (L : Nat → Nat) (k : Kernel) : Prop where
  mem : ∃ ρ, MemInv k.mem (tables k.procs) ρ (heldBy L k)
  kern : KernOk k.mem (tables k.procs)
  wired : ∀ r ∈ tables k.procs, Wired k.mem k.procs r
  user : ∀ i < NPROC, ∀ r, (k.procs i).pagetable = some r → TableOk k.mem r (k.procs i).sz
  frame : ∀ i < NPROC, ∀ a, (k.procs i).trapframe = some a → IsPage a
  own : ∀ a, frames k.procs a + k.kpages.count a ≤ 1
  fs : Fs W k.sys (fileRefs k.procs) (cwdRefs k.procs) none

structure Family (procs : Nat → Proc) (s : Sys) : Prop where
  slot : s.initproc < NPROC
  live : s.live s.initproc
  alive : ¬ s.dead s.initproc
  root : (procs s.initproc).parent = none
  self : ∀ i < NPROC, (procs i).parent ≠ some i

def Homed (procs : Nat → Proc) (s : Sys) (me : Nat) : Prop :=
  ∀ i < NPROC, s.live i → ¬ s.dead i → i ≠ me → (procs i).cwd ≠ none

structure Inv [Image] (W : Prop) (L : Nat → Nat) (k : Kernel) : Prop extends Core W L k where
  slots : Slots k.procs k.sys
  family : Family k.procs k.sys
  homed : Homed k.procs k.sys NPROC
  held : k.sys.held = []

structure Runs (k : Kernel) : Prop where
  alive : Alive k.sys
  slot : k.sys.cur < NPROC
  bounded : (k.procs k.sys.cur).Bounded
  table : (k.procs k.sys.cur).pagetable ≠ none

/-- How a call may stop: not by giving back or sharing a page that is not in use, and not by a bad pointer. -/
def Allowed : Stop → Prop
  | .sys _ => True
  | .mem .wild => False
  | .mem (.panic p) => p ≠ .kfree ∧ p ≠ .kfreeRef ∧ p ≠ .krefinc ∧ p ≠ .krefincRef

theorem allowed_sys : ∀ e, Allowed (.sys e) := fun _ => trivial

/-! ## Changes of tables that keep them recognizable -/

def Tidy (m m' : Mem) (R : Finset Nat) : Prop :=
  ∀ r ∈ R, ∀ n < 512 * 512 * 512, leaf m' r n = leaf m r n ∨
    (leaf m' r n = 0#64 ∧ (n < NUPAGE ∨ (leaf m r n).has PTE_V = false)) ∨
    (n < NUPAGE ∧ (leaf m' r n).has (PTE_R ||| PTE_W ||| PTE_X) = true)

section
variable {m m' m'' : Mem} {R : Finset Nat} {r : Nat}

theorem Tidy.trans (h : Tidy m m' R) (h' : Tidy m' m'' R) : Tidy m m'' R := fun r hr n hn => by
  rcases h' r hr n hn with he | ⟨h0, hx⟩ | hx
  · rw [he]; exact h r hr n hn
  · rcases h r hr n hn with he | ⟨-, hy⟩ | ⟨hu, -⟩
    · rw [he] at hx; exact .inr (.inl ⟨h0, hx⟩)
    · exact .inr (.inl ⟨h0, hy⟩)
    · exact .inr (.inl ⟨h0, .inl hu⟩)
  · exact .inr (.inr hx)

theorem SameLeaf.tidy (h : SameLeaf m m' R) : Tidy m m' R := fun r hr n hn => .inl (h r hr n hn)

theorem Touched.tidy (h : Touched m m' R r) : Tidy m m' R := fun r hr n hn =>
  (h r hr n hn).imp id fun hx => .inr ⟨hx.2.1, hx.2.2.2⟩

theorem Cleared.tidy (h : Cleared m m' R r lo hi) (hhi : hi ≤ NUPAGE) : Tidy m m' R := fun r hr n hn => by
  rw [h r hr n hn]
  split
  · rename_i hx
    exact .inr (.inl ⟨rfl, .inl (lt_of_lt_of_le hx.2.2.1 hhi)⟩)
  · exact .inl rfl

theorem Tidy.subset (h : Tidy m m' R) (hs : R' ⊆ R) : Tidy m m' R' := fun r hr => h r (hs hr)

section
variable {n : Nat} (h : Tidy m m' R) (hr : r ∈ R) (hn : NUPAGE ≤ n) (hlt : n < 512 * 512 * 512)
include h hr hn hlt

theorem Tidy.kernel :
    leaf m' r n = leaf m r n ∨ (leaf m' r n = 0#64 ∧ (leaf m r n).has PTE_V = false) := by
  rcases h r hr n hlt with he | ⟨h0, hx⟩ | hx
  · exact .inl he
  · exact .inr ⟨h0, hx.resolve_left (not_lt.mpr hn)⟩
  · exact absurd hx.1 (not_lt.mpr hn)

theorem Tidy.kernel_valid
    (hv : (leaf m r n).has PTE_V) : leaf m' r n = leaf m r n :=
  (h.kernel hr hn hlt).resolve_right fun hx => by rw [hv] at hx; cases hx.2

theorem Tidy.kernel_invalid
    (hv : (leaf m r n).has PTE_V = false) : (leaf m' r n).has PTE_V = false := by
  rcases h.kernel hr hn hlt with he | he
  · rw [he]; exact hv
  · rw [he.1]; simp

end

theorem KernOk.tidy (h : KernOk m R) (ht : Tidy m m' R) : KernOk m' R := fun r hr n hn hlt => by
  rcases ht.kernel hr hn hlt with he | he
  · rw [he]; exact h r hr n hn hlt
  · rw [he.1]; simp

theorem Framed.tidy (h : Framed m r i q) (hi : i < NPROC) (hr : r ∈ R) (ht : Tidy m m' R) :
    Framed m' r i q := by
  unfold Framed at h ⊢
  split at h
  · rename_i hq
    rw [if_pos hq]
    intro a ha
    rw [ht.kernel_valid hr (framePage_user hi) (framePage_lt i) (by rw [h a ha]; exact mkPte_V _ _)]
    exact h a ha
  · rename_i hq
    rw [if_neg hq]
    exact ht.kernel_invalid hr (framePage_user hi) (framePage_lt i) h

theorem Framed.congr (h : Framed m r i q) (h1 : q'.pagetable = q.pagetable)
    (h2 : q'.trapframe = q.trapframe) : Framed m r i q' := by
  unfold Framed
  rw [h1, h2]
  exact h

theorem Wired.tidy [Image] {procs : Nat → Proc} (h : Wired m procs r) (hr : r ∈ R) (ht : Tidy m m' R) :
    Wired m' procs r := by
  refine ⟨?_, fun i hi => (h.frame i hi).tidy hi hr ht,
    fun n hn hlt h1 h2 => ht.kernel_invalid hr hn hlt (h.rest n hn hlt h1 h2)⟩
  rw [ht.kernel_valid hr (by decide) (by decide) (by rw [h.tramp]; exact mkPte_V _ _)]
  exact h.tramp

theorem TableOk.tidy (h : TableOk m r sz) (hr : r ∈ R) (ht : Tidy m m' R) : TableOk m' r sz := fun n hn hv => by
  rcases ht r hr n (NUPAGE_lt hn) with he | h0 | ⟨-, hx⟩
  · rw [he] at hv ⊢; exact h n hn hv
  · rw [h0.1] at hv; simp at hv
  · exact .inl hx

theorem TableOk.mono (h : TableOk m r sz) (hs : PGROUNDUP sz / 4096 ≤ PGROUNDUP sz' / 4096) :
    TableOk m r sz' := fun n hn hv => (h n hn hv).imp id fun hlt => lt_of_lt_of_le hlt hs

end

section
variable {k : Kernel} {E : Stop → Prop}

@[simp] theorem wp_onV :
    wp (onV x) Q E k ↔ wp x (fun a s => Q a { k with sys := s.sys, mem := s.mem }) E ⟨k.sys, k.mem⟩ := wp_zoom ..

@[simp] theorem wp_kmem :
    wp (kmem x) Q E k ↔ wp x (fun a m => Q a { k with mem := m }) (fun e => E (.mem e)) k.mem := by
  unfold kmem; simp only [wp_onV, wp_onMem]

@[simp] theorem wp_ksys :
    wp (ksys x) Q E k ↔ wp x (fun a s => Q a { k with sys := s }) (fun e => E (.sys e)) k.sys := by
  unfold ksys; simp only [wp_onV, wp_onSys]

@[simp] theorem wp_setProc {p : Nat} {f : Proc → Proc} {Q : Unit → Kernel → Prop} :
    wp (setProc p f) Q E k ↔ Q () { k with procs := update k.procs p (f (k.procs p)) } := wp_modify _

@[simp] theorem wp_setRun {p : Nat} {f : Run → Run} {Q : Unit → Kernel → Prop} :
    wp (setRun p f) Q E k ↔ Q () { k with sys := k.sys.setRun p f } := by
  unfold setRun; simp only [wp_ksys, wp_modify]

@[simp] theorem wp_getProc : wp (getProc p) Q E k ↔ Q (k.procs p) k := by
  unfold getProc; simp only [wp_bind, wp_get, wp_pure]

@[simp] theorem wp_myproc : wp myproc Q E k ↔ Q k.sys.cur k := by
  unfold myproc; simp only [wp_bind, wp_get, wp_pure]

theorem wp_tableOf (hr : (k.procs p).pagetable = some r) (h : Q r k) :
    wp (tableOf p) Q E k := by
  unfold tableOf; simp only [wp_bind, wp_get, hr, wp_pure]; exact h

end

/-! ## Changes of the process table -/

section
variable {procs : Nat → Proc} {p : Nat} {q : Proc}

theorem frames_update (hp : p < NPROC) (a : Nat) :
    frames (update procs p q) a + (if (procs p).trapframe = some a then 1 else 0) =
      frames procs a + (if q.trapframe = some a then 1 else 0) := by
  have := Tally.count_point (p := fun i => (procs i).trapframe = some a)
    (q := fun i => (update procs p q i).trapframe = some a) hp fun i _ hi => by rw [update_of_ne hi]
  rwa [update_self] at this

theorem update_apply_congr {β : Type} (g : Proc → β) (h : g q = g (procs p)) (i : Nat) :
    g (update procs p q i) = g (procs i) := by
  by_cases hi : i = p
  · rw [hi, update_self, h]
  · rw [update_of_ne hi]

theorem tables_update (h : q.pagetable = (procs p).pagetable) : tables (update procs p q) = tables procs :=
  tables_congr fun i _ => update_apply_congr Proc.pagetable h i

theorem tables_set (hp : p < NPROC) (h : (procs p).pagetable = none) (hq : q.pagetable = some r) :
    tables (update procs p q) = insert r (tables procs) := by
  ext x
  rw [mem_insert, mem_tables, mem_tables]
  constructor
  · rintro ⟨i, hi, hx⟩
    by_cases hip : i = p
    · rw [hip, update_self, hq] at hx
      exact .inl (some.inj hx).symm
    · rw [update_of_ne hip] at hx; exact .inr ⟨i, hi, hx⟩
  · rintro (rfl | ⟨i, hi, hx⟩)
    · exact ⟨p, hp, by rw [update_self]; exact hq⟩
    · have hip : i ≠ p := by rintro rfl; rw [h] at hx; cases hx
      exact ⟨i, hi, by rw [update_of_ne hip]; exact hx⟩

theorem tables_clear (h : (procs p).pagetable = some r) (hq : q.pagetable = none)
    (hone : ∀ i < NPROC, (procs i).pagetable = some r → i = p) :
    tables (update procs p q) = (tables procs).erase r := by
  ext x
  rw [mem_erase, mem_tables, mem_tables]
  constructor
  · rintro ⟨i, hi, hx⟩
    have hip : i ≠ p := by rintro rfl; rw [update_self, hq] at hx; cases hx
    rw [update_of_ne hip] at hx
    exact ⟨fun hxr => hip (hone i hi (hxr ▸ hx)), i, hi, hx⟩
  · rintro ⟨hne, i, hi, hx⟩
    have hip : i ≠ p := by rintro rfl; rw [h] at hx; exact hne (some.inj hx).symm
    exact ⟨i, hi, by rw [update_of_ne hip]; exact hx⟩

theorem tables_swap (hp : p < NPROC) (h : (procs p).pagetable = some old) (hq : q.pagetable = some r)
    (hone : ∀ i < NPROC, (procs i).pagetable = some old → i = p) (hr : r ∉ tables procs) :
    tables (update procs p q) = (insert r (tables procs)).erase old := by
  have hold : old ∈ tables procs := mem_tables.mpr ⟨p, hp, h⟩
  ext x
  rw [mem_erase, mem_insert, mem_tables, mem_tables]
  constructor
  · rintro ⟨i, hi, hx⟩
    by_cases hip : i = p
    · rw [hip, update_self, hq] at hx
      cases hx
      exact ⟨fun he => hr (he ▸ hold), .inl rfl⟩
    · rw [update_of_ne hip] at hx
      exact ⟨fun he => hip (hone i hi (he ▸ hx)), .inr ⟨i, hi, hx⟩⟩
  · rintro ⟨hne, rfl | ⟨i, hi, hx⟩⟩
    · exact ⟨p, hp, by rw [update_self]; exact hq⟩
    · have hip : i ≠ p := by rintro rfl; rw [h] at hx; exact hne (some.inj hx).symm
      exact ⟨i, hi, by rw [update_of_ne hip]; exact hx⟩

theorem tables_leave (h : (procs p).pagetable = some r) (hq : q.pagetable = none) (hl : l < NPROC) (hlp : l ≠ p)
    (hr : (procs l).pagetable = some r) : tables (update procs p q) = tables procs := by
  ext x
  rw [mem_tables, mem_tables]
  constructor
  · rintro ⟨i, hi, hx⟩
    have hip : i ≠ p := by rintro rfl; rw [update_self, hq] at hx; cases hx
    rw [update_of_ne hip] at hx
    exact ⟨i, hi, hx⟩
  · rintro ⟨i, hi, hx⟩
    by_cases hip : i = p
    · rw [hip, h] at hx
      exact ⟨l, hl, by rw [update_of_ne hlp, hr]; exact hx⟩
    · exact ⟨i, hi, by rw [update_of_ne hip]; exact hx⟩

end

variable [Image] {W : Prop} {L : Nat → Nat} {k : Kernel}
variable {E : Stop → Prop} {Q : Unit → Kernel → Prop} {R : Finset Nat} {k' : Kernel} {n p : Nat} {pt : Option Nat}
    {q : Proc} {s : Sys}

omit [Image] in
theorem heldBy_nonneg (L : Nat → Nat) (k : Kernel) (a : Nat) : 0 ≤ heldBy L k a := by unfold heldBy; omega

theorem Core.step (hc : Core W L k) (hI : MemInv m (tables k.procs) ρ (heldBy L k))
    (ht : Tidy k.mem m (tables k.procs)) (hf : Fs W s (fileRefs k.procs) (cwdRefs k.procs) none) :
    Core W L { k with sys := s, mem := m } :=
  ⟨⟨ρ, hI⟩, hc.kern.tidy ht, fun r hr => (hc.wired r hr).tidy hr ht,
    fun i hi r hr => (hc.user i hi r hr).tidy (mem_tables.mpr ⟨i, hi, hr⟩) ht,
    hc.frame, hc.own, hf⟩

theorem Core.setSys (hc : Core W L k) (hf : s.file = k.sys.file) (hi : s.inode = k.sys.inode) :
    Core W L { k with sys := s } :=
  ⟨hc.mem, hc.kern, hc.wired, hc.user, hc.frame, hc.own, hc.fs.congr hf hi⟩

theorem Core.own_update (hc : Core W L k) (hp : p < NPROC) (h : ∀ a, q.trapframe = some a →
    (k.procs p).trapframe = some a ∨ frames k.procs a + k.kpages.count a = 0) (a : Nat) :
    frames (update k.procs p q) a + k.kpages.count a ≤ 1 := by
  have hup := @frames_update k.procs p q hp a
  have hown := hc.own a
  by_cases hq : q.trapframe = some a
  · rw [if_pos hq] at hup
    rcases h a hq with hx | hx
    · rw [if_pos hx] at hup; omega
    · omega
  · rw [if_neg hq] at hup; omega

theorem Core.change (hc : Core W L k)
    (hp : k'.procs = update k.procs p q) (hI : MemInv k'.mem (tables k'.procs) ρ (heldBy L k'))
    (ht : Tidy k.mem k'.mem (tables k.procs ∩ tables k'.procs))
    (hfr : ∀ r ∈ tables k.procs ∩ tables k'.procs, Framed k'.mem r p q)
    (hnew : ∀ r, q.pagetable = some r → r ∉ tables k.procs → KernOk k'.mem {r} ∧ Wired k'.mem k'.procs r)
    (huser : ∀ r, q.pagetable = some r → TableOk k'.mem r q.sz) (hframe : ∀ a, q.trapframe = some a → IsPage a)
    (hown : ∀ a, frames k'.procs a + k'.kpages.count a ≤ 1)
    (hfs : Fs W k'.sys (fileRefs k'.procs) (cwdRefs k'.procs) none) : Core W L k' := by
  have hself : k'.procs p = q := by rw [hp, update_self]
  have hother : ∀ {i}, i ≠ p → k'.procs i = k.procs i := fun hi => by rw [hp, update_of_ne hi]
  have hboth : ∀ {i r}, i < NPROC → (k'.procs i).pagetable = some r → r ∈ tables k.procs →
      r ∈ tables k.procs ∩ tables k'.procs := fun hi hr hm => mem_inter.mpr ⟨hm, mem_tables.mpr ⟨_, hi, hr⟩⟩
  -- a table that is not one of the old ones is that of slot p
  have hnewp : ∀ {r}, r ∈ tables k'.procs → r ∉ tables k.procs → q.pagetable = some r := by
    intro r hr hm
    obtain ⟨i, hi, hir⟩ := mem_tables.mp hr
    have hip : i = p := by
      by_contra hip
      rw [hother hip] at hir
      exact hm (mem_tables.mpr ⟨i, hi, hir⟩)
    rwa [hip, hself] at hir
  refine ⟨⟨ρ, hI⟩, fun r hr => ?_, fun r hr => ?_, fun i hi r hr => ?_, fun i hi a ha => ?_, hown, hfs⟩
  · by_cases hm : r ∈ tables k.procs
    · exact (KernOk.tidy (R := tables k.procs ∩ tables k'.procs) (fun r hr => hc.kern r (mem_inter.mp hr).1) ht) r
        (mem_inter.mpr ⟨hm, hr⟩)
    · exact (hnew r (hnewp hr hm) hm).1 r (mem_singleton_self r)
  · by_cases hm : r ∈ tables k.procs
    · have hb := mem_inter.mpr ⟨hm, hr⟩
      have hw := (hc.wired r hm).tidy hb ht
      refine ⟨hw.tramp, fun i hi => ?_, hw.rest⟩
      by_cases hip : i = p
      · rw [hip, hself]; exact hfr r hb
      · rw [hother hip]; exact hw.frame i hi
    · exact (hnew r (hnewp hr hm) hm).2
  · by_cases hip : i = p
    · rw [hip, hself] at hr ⊢; exact huser r hr
    · have hr' := hr
      rw [hother hip] at hr' ⊢
      exact (hc.user i hi r hr').tidy (hboth hi hr (mem_tables.mpr ⟨i, hi, hr'⟩)) ht
  · by_cases hip : i = p
    · rw [hip, hself] at ha; exact hframe a ha
    · rw [hother hip] at ha; exact hc.frame i hi a ha

omit [Image] in
theorem owns_same (hp : k'.procs = update k.procs p q)
    (h1 : q.pagetable = (k.procs p).pagetable) (h2 : q.trapframe = (k.procs p).trapframe)
    (h3 : k'.kpages = k.kpages) : tables k'.procs = tables k.procs ∧ heldBy L k' = heldBy L k := by
  constructor
  · rw [hp]
    exact tables_update h1
  · funext a
    unfold heldBy frames
    rw [hp, h3]
    simp only [update_apply_congr Proc.trapframe h2]

section
variable (hc : Core W L k) (hp : p < NPROC) (h1 : q.pagetable = (k.procs p).pagetable)
  (h2 : q.trapframe = (k.procs p).trapframe) (h3 : ∀ r, q.pagetable = some r → TableOk k.mem r q.sz)
include hc hp h1 h2 h3

theorem Core.setFiles
    (hf : Fs W s (fileRefs (update k.procs p q)) (cwdRefs (update k.procs p q)) none) :
    Core W L { k with sys := s, procs := update k.procs p q } := by
  obtain ⟨ρ, hI⟩ := hc.mem
  obtain ⟨htab, hheld⟩ := @owns_same L k { k with sys := s, procs := update k.procs p q } p q rfl h1 h2 rfl
  refine hc.change (ρ := ρ) rfl (by rw [htab, hheld]; exact hI) (SameLeaf.tidy (SameLeaf.refl k.mem _))
    (fun r hr => ((hc.wired r (mem_inter.mp hr).1).frame p hp).congr h1 h2) (fun r hr hn => ?_) h3
    (fun a ha => hc.frame p hp a (h2 ▸ ha)) (hc.own_update hp fun a ha => .inl (h2 ▸ ha)) hf
  exact absurd (mem_tables.mpr ⟨p, hp, h1 ▸ hr⟩) hn

theorem Core.setProc
    (h4 : ∀ f, q.refs f = (k.procs p).refs f) (h5 : q.cwd = (k.procs p).cwd) :
    Core W L { k with procs := update k.procs p q } :=
  hc.setFiles hp h1 h2 h3 (by rw [fileRefs_same hp h4, cwdRefs_same h5]; exact hc.fs)

end

theorem Core.userOk (hc : Core W L k) (hr : Runs k) : ∃ r ρ, (k.procs k.sys.cur).pagetable = some r ∧
    UserOk (k.procs k.sys.cur) ⟨k.sys, k.mem⟩ (tables k.procs) ρ (heldBy L k) r := by
  obtain ⟨r, h⟩ := ne_none_iff_exists'.mp hr.table
  obtain ⟨ρ, hI⟩ := hc.mem
  exact ⟨r, ρ, h, hI, heldBy_nonneg L k, mem_tables.mpr ⟨_, hr.slot, h⟩, hr.bounded, hr.alive, hc.kern⟩

omit [Image] in
theorem Runs.rel (h : Runs k) (hs : SysRel k.sys k'.sys) (hp : (k'.procs k.sys.cur).Bounded)
    (ht : (k'.procs k.sys.cur).pagetable ≠ none) : Runs k' :=
  ⟨h.alive.rel hs, by rw [hs.cur]; exact h.slot, by rw [hs.cur]; exact hp, by rw [hs.cur]; exact ht⟩

theorem Inv.rel (h : Inv W L k) (hc : Core W L { k with sys := s, mem := m }) (hr : SysRel k.sys s) :
    Inv W L { k with sys := s, mem := m } where
  toCore := hc
  slots := h.slots.rel hr
  family := by
    have hf := h.family
    refine ⟨?_, ?_, ?_, ?_, hf.self⟩ <;> dsimp only <;> rw [hr.initproc]
    · exact hf.slot
    · exact (hr.live _).mpr hf.live
    · exact fun hx => hf.alive ((hr.dead _).mp hx)
    · exact hf.root
  homed i hlt hli hdi := h.homed i hlt ((hr.live i).mp hli) fun hx => hdi ((hr.dead i).mpr hx)
  held := hr.held.trans h.held

/-! ## Unmapping -/

def InCur (k : Kernel) (r n : Nat) : Prop :=
  (k.procs k.sys.cur).pagetable = some r ∧
    (n * PGSIZE < (k.procs k.sys.cur).sz ∨ (k.procs k.sys.cur).vmaAt (n * PGSIZE) ≠ none)

def Proc.owns (q : Proc) (n : Nat) : Prop := n < PGROUNDUP q.sz / 4096 ∨ ∃ j < MAXVMA, (q.vmas j).used = true ∧
  (q.vmas j).addr / 4096 ≤ n ∧ n < (q.vmas j).addr / 4096 + (q.vmas j).len / 4096

def Covered (m : Mem) (q : Proc) : Prop :=
  ∀ r, q.pagetable = some r → ∀ n < NUPAGE, (leaf m r n).has PTE_V = true → q.owns n

def WithinOn (R : Finset Nat) (k k' : Kernel) : Prop :=
  ∀ r ∈ R, ∀ n < NUPAGE, (leaf k'.mem r n).has PTE_V = true → (leaf k.mem r n).has PTE_V = true ∨ InCur k r n

abbrev Within (k k' : Kernel) : Prop := WithinOn (tables k'.procs) k k'

section
omit [Image]

theorem WithinOn.trans (h : WithinOn R k k') (h' : WithinOn R k' k'')
    (hc : ∀ r n, InCur k' r n → InCur k r n) : WithinOn R k k'' := fun r hr n hn hv =>
  (h' r hr n hn hv).elim (h r hr n hn) fun hx => .inr (hc r n hx)

theorem Within.of_same (h : ∀ r ∈ tables k'.procs, ∀ n < NUPAGE, leaf k'.mem r n = leaf k.mem r n) :
    Within k k' := fun r hr n hn hv => .inl (by rw [← h r hr n hn]; exact hv)

theorem Within.trans (h : Within k k') (h' : Within k' k'') (hs : tables k''.procs ⊆ tables k'.procs)
    (hc : ∀ r n, InCur k' r n → InCur k r n) : Within k k'' := fun r hr n hn hv =>
  (h' r hr n hn hv).elim (h r (hs hr) n hn) fun hx => .inr (hc r n hx)

theorem vmaAt_isSome {p : Proc} {va : Nat} : p.vmaAt va ≠ none ↔ ∃ i < MAXVMA, (p.vmas i).covers va := by
  unfold Proc.vmaAt
  rw [ne_none_iff_isSome, List.find?_isSome]
  simp only [List.mem_map, List.mem_range]
  constructor
  · rintro ⟨v, ⟨i, hi, rfl⟩, hc⟩
    exact ⟨i, hi, hc⟩
  · rintro ⟨i, hi, hc⟩
    exact ⟨_, ⟨i, hi, rfl⟩, hc⟩

theorem InCur.mono {r : Nat} (h : InCur k' r n) (hcur : k'.sys.cur = k.sys.cur)
    (hpt : (k'.procs k.sys.cur).pagetable = (k.procs k.sys.cur).pagetable)
    (hsz : (k'.procs k.sys.cur).sz = (k.procs k.sys.cur).sz)
    (hv : ∀ j < MAXVMA, ((k'.procs k.sys.cur).vmas j).used →
      (k'.procs k.sys.cur).vmas j = (k.procs k.sys.cur).vmas j) : InCur k r n := by
  obtain ⟨h1, h2⟩ := h
  rw [hcur] at h1 h2
  refine ⟨hpt ▸ h1, h2.imp (fun hx => hsz ▸ hx) fun hx => ?_⟩
  obtain ⟨j, hj, hc⟩ := vmaAt_isSome.mp hx
  refine vmaAt_isSome.mpr ⟨j, hj, ?_⟩
  rwa [← hv j hj (by simp only [Vma.covers, decide_eq_true_eq] at hc; exact hc.1)]

theorem InCur.owns {r : Nat} (h : InCur k r n) (hb : (k.procs k.sys.cur).Bounded) : (k.procs k.sys.cur).owns n := by
  have hsz := PGROUNDUP_ge hb.sz
  have hmod := PGROUNDUP_mod (k.procs k.sys.cur).sz
  rcases h.2 with hx | hx
  · left
    lia
  · right
    obtain ⟨j, hj, hc⟩ := vmaAt_isSome.mp hx
    simp only [Vma.covers, decide_eq_true_eq] at hc
    obtain ⟨h1, h2, h3⟩ := hb.vma j hj hc.1
    refine ⟨j, hj, hc.1, ?_, ?_⟩ <;> lia

end

def Unmapped (R : Finset Nat) (k : Kernel) (m : Mem) (r lo n : Nat) : Prop :=
  ∀ r' ∈ R, ∀ j < NUPAGE, (leaf m r' j).has PTE_V = true → ¬ (r' = r ∧ lo ≤ j ∧ j < lo + n) ∧
    ((leaf k.mem r' j).has PTE_V = true ∨ InCur k r' j)

/-- Pages `[lo, hi)` of the table at `r` are gone, and if `W` pages were faulted in before that. -/
def CutOut (m m' : Mem) (R : Finset Nat) (r lo hi : Nat) (W : Prop) : Prop :=
  ∃ m₁, (W ∨ m₁ = m) ∧ (∀ r' ∈ R, ∀ n < 512 * 512 * 512, (leaf m r' n).has PTE_V = true → leaf m₁ r' n = leaf m r' n) ∧
    Cleared m₁ m' R r lo hi

/-- What unmapping needs of memory and files, where `R` are the tables in use: `exec` has one more than the processes. -/
structure CoreOn [Image] (W : Prop) (L : Nat → Nat) (R : Finset Nat) (k : Kernel) : Prop where
  mem : ∃ ρ, MemInv k.mem R ρ (heldBy L k)
  kern : KernOk k.mem R
  fs : Fs W k.sys (fileRefs k.procs) (cwdRefs k.procs) none

theorem Core.on (hc : Core W L k) : CoreOn W L (tables k.procs) k := ⟨hc.mem, hc.kern, hc.fs⟩

theorem CoreOn.core (h : CoreOn W L (tables k.procs) { k with sys := s, mem := m }) (hc : Core W L k)
    (ht : Tidy k.mem m (tables k.procs)) : Core W L { k with sys := s, mem := m } := by
  obtain ⟨ρ, hI⟩ := h.mem
  exact hc.step hI ht h.fs

section
variable {R : Finset Nat}

theorem CoreOn.userOk (hc : CoreOn W L R k) (hk : Runs k) (hR : tables k.procs ⊆ R) :
    ∃ r ρ, (k.procs k.sys.cur).pagetable = some r ∧
      UserOk (k.procs k.sys.cur) ⟨k.sys, k.mem⟩ R ρ (heldBy L k) r := by
  obtain ⟨r, h⟩ := ne_none_iff_exists'.mp hk.table
  obtain ⟨ρ, hI⟩ := hc.mem
  exact ⟨r, ρ, h, hI, heldBy_nonneg L k, hR (mem_tables.mpr ⟨_, hk.slot, h⟩), hk.bounded, hk.alive, hc.kern⟩

theorem CoreOn.setFiles (hc : CoreOn W L R k)
    (h1 : q.pagetable = (k.procs p).pagetable) (h2 : q.trapframe = (k.procs p).trapframe)
    (hf : Fs W s (fileRefs (update k.procs p q)) (cwdRefs (update k.procs p q)) none) :
    CoreOn W L R { k with sys := s, procs := update k.procs p q } := by
  obtain ⟨ρ, hI⟩ := hc.mem
  obtain ⟨-, hheld⟩ := @owns_same L k { k with sys := s, procs := update k.procs p q } p q rfl h1 h2 rfl
  exact ⟨⟨ρ, by rw [hheld]; exact hI⟩, hc.kern, hf⟩

theorem CoreOn.closed (hc : CoreOn W L R k) (hp : p < NPROC)
    (h1 : q.pagetable = (k.procs p).pagetable) (h2 : q.trapframe = (k.procs p).trapframe)
    (h4 : ∀ g, (k.procs p).refs g = plus q.refs f g) (h5 : q.cwd = (k.procs p).cwd) (hC : Closed k.sys s f) :
    CoreOn W L R { k with sys := s, procs := update k.procs p q } := by
  refine hc.setFiles h1 h2 ?_
  rw [cwdRefs_same h5]
  have := hc.fs
  rw [fileRefs_minus hp h4] at this
  exact this.close hC

theorem wp_unmapRange (hc : CoreOn W L R k) (hk : Runs k) (hR : tables k.procs ⊆ R)
    (hr : r ∈ R) (hal : lo % PGSIZE = 0) (hhi : hi ≤ TRAPFRAME NPROC) (hn : lo / 4096 + n ≤ NUPAGE)
    (hsys : ∀ e, E (.sys e))
    (h : ∀ s m, CoreOn W L R { k with sys := s, mem := m } → Mild k.sys s → Tidy k.mem m R → Unmapped R k m r (lo / 4096) n →
      CutOut k.mem m R r (lo / 4096) (lo / 4096 + n) v.WritesBack → Q () { k with sys := s, mem := m }) :
    wp (unmapRange v r lo hi n) Q E k := by
  obtain ⟨r', ρ, hr', hU⟩ := hc.userOk hk hR
  unfold unmapRange
  simp only [wp_bind, wp_myproc, wp_getProc, wp_onV]
  refine wp_vma_writeback hr' hU hr hal hhi hsys fun s1 ρ1 hU1 hM1 hS1 hW => ?_
  rw [wp_kmem]
  refine wp_uvmunmap hU1.inv hU1.held hr hal hn fun m2 hI2 _ hC2 => ?_
  have ht := hS1.touched.tidy.trans (hC2.tidy hn)
  refine h s1.sys m2 ⟨⟨_, hI2⟩, hc.kern.tidy ht, hc.fs.mild hM1⟩ hM1 ht (fun x hx j hj hv => ?_)
    ⟨s1.mem, hW.imp id fun he => by rw [he], hS1.fills, hC2⟩
  have hl := hC2 x hx j (NUPAGE_lt hj)
  by_cases hin : x = r ∧ lo / 4096 ≤ j ∧ j < lo / 4096 + n ∧ (leaf s1.mem x j).has PTE_V
  · rw [if_pos hin] at hl
    rw [hl] at hv; simp at hv
  · rw [if_neg hin] at hl
    rw [hl] at hv
    refine ⟨fun hy => hin ⟨hy.1, hy.2.1, hy.2.2, hv⟩, (hS1.inside x hx j hj hv).imp id fun hy => ⟨?_, hy.2⟩⟩
    rw [hy.1]; exact hr'

end

theorem wp_fileclose_core (hfs : ∀ g, (k.sys.file g).type ≠ .FD_PIPE)
    (hA : Alive k.sys) (hsys : ∀ e, E (.sys e)) (h : ∀ s, Closed k.sys s f → Q () { k with sys := s }) :
    wp (onV (fileclose f)) Q E k := by
  rw [wp_onV]
  exact wp_fileclose hA (hfs f) (.inr (hsys _)) (.inr (hsys _))
    (fun _ _ => ⟨.inr ⟨hsys _, hsys _⟩, .inr ⟨⟨hsys _, hsys _⟩, .inl (hsys _)⟩⟩) fun y hC => h y hC

theorem Core.closed (hc : Core W L k) (hp : p < NPROC)
    (h1 : q.pagetable = (k.procs p).pagetable) (h2 : q.trapframe = (k.procs p).trapframe) (h3 : q.sz = (k.procs p).sz)
    (h4 : ∀ g, (k.procs p).refs g = plus q.refs f g) (h5 : q.cwd = (k.procs p).cwd) (hC : Closed k.sys s f) :
    Core W L { k with sys := s, procs := update k.procs p q } := by
  refine hc.setFiles hp h1 h2 (fun r hr => by rw [h3]; exact hc.user p hp r (h1 ▸ hr)) ?_
  rw [cwdRefs_same h5]
  have := hc.fs
  rw [fileRefs_minus hp h4] at this
  exact this.close hC

def Bare (k : Kernel) (m : Mem) (p : Nat) (pt : Option Nat) (n : Nat) : Prop :=
  ∀ r, pt = some r → (k.procs k.sys.cur).pagetable ≠ some r → ∀ j < n, ((k.procs p).vmas j).used = true →
    ∀ x, ((k.procs p).vmas j).addr / 4096 ≤ x →
      x < ((k.procs p).vmas j).addr / 4096 + ((k.procs p).vmas j).len / 4096 → (leaf m r x).has PTE_V = false

structure Emptied (R : Finset Nat) (k k' : Kernel) (p : Nat) (pt : Option Nat) (n : Nat) : Prop where
  procs : k'.procs = update k.procs p { k.procs p with vmas := (k'.procs p).vmas }
  kpages : k'.kpages = k.kpages
  rel : SysRel k.sys k'.sys
  done : ∀ j < n, ((k'.procs p).vmas j).used = false
  rest : ∀ j, n ≤ j → (k'.procs p).vmas j = (k.procs p).vmas j
  idle : (∀ j < MAXVMA, ((k.procs p).vmas j).used = false) → k'.mem = k.mem
  within : WithinOn R k k'
  tidy : Tidy k.mem k'.mem R
  bare : Bare k k'.mem p pt n

section
omit [Image]

theorem Emptied.refl (R : Finset Nat) (k : Kernel) (p : Nat) (pt : Option Nat) : Emptied R k k p pt 0 :=
  ⟨(update_eq_self ..).symm, rfl, SysRel.refl _, fun _ hj => absurd hj (Nat.not_lt_zero _), fun _ _ => rfl,
    fun _ => rfl, fun _ _ _ _ hv => .inl hv, SameLeaf.tidy (SameLeaf.refl k.mem _), fun _ _ _ _ hj =>
      absurd hj (Nat.not_lt_zero _)⟩

theorem Emptied.other (h : Emptied R k k' p pt n) (hi : i ≠ p) : k'.procs i = k.procs i := by
  rw [h.procs, update_of_ne hi]

theorem Emptied.self (h : Emptied R k k' p pt n) :
    k'.procs p = { k.procs p with vmas := (k'.procs p).vmas } := by
  have := congrFun h.procs p
  rwa [update_self] at this

theorem Emptied.bounded (h : Emptied R k k' p pt n) (hb : (k.procs p).Bounded) :
    (k'.procs p).Bounded := by
  refine ⟨?_, fun j hj hu => ?_⟩
  · rw [h.self]; exact hb.sz
  · by_cases hjn : j < n
    · rw [h.done j hjn] at hu; cases hu
    · rw [h.rest j (Nat.le_of_not_lt hjn)] at hu ⊢
      exact hb.vma j hj hu

theorem Emptied.unused (h : Emptied R k k' p pt n)
    (h0 : ∀ j < MAXVMA, ((k.procs p).vmas j).used = false) : ∀ j < MAXVMA, ((k'.procs p).vmas j).used = false := by
  intro j hj
  by_cases hjn : j < n
  · exact h.done j hjn
  · rw [h.rest j (Nat.le_of_not_lt hjn)]; exact h0 j hj

theorem Emptied.pagetable (h : Emptied R k k' p pt n) (i : Nat) :
    (k'.procs i).pagetable = (k.procs i).pagetable := by
  by_cases hi : i = p
  · rw [hi, h.self]
  · rw [h.other hi]

theorem Emptied.tables (h : Emptied R k k' p pt n) : tables k'.procs = Xv6.tables k.procs :=
  tables_congr fun i _ => h.pagetable i

theorem Emptied.inCur (h : Emptied R k k' p pt n) (hx : InCur k' r j) :
    InCur k r j := by
  refine hx.mono h.rel.cur (h.pagetable _) ?_ fun i hi hu => ?_ <;> by_cases hp : k.sys.cur = p
  · rw [hp, h.self]
  · rw [h.other hp]
  · rw [hp] at hu ⊢
    by_cases hin : i < n
    · rw [h.done i hin] at hu; cases hu
    · exact h.rest i (Nat.le_of_not_lt hin)
  · rw [h.other hp]

theorem Emptied.runs (h : Emptied R k k' p pt n) (hk : Runs k) : Runs k' := by
  refine hk.rel h.rel ?_ ?_
  · by_cases hp : k.sys.cur = p
    · have := hk.bounded
      rw [hp] at this ⊢
      exact h.bounded this
    · rw [h.other hp]; exact hk.bounded
  · rw [h.pagetable]; exact hk.table

theorem Emptied.more (he : Emptied R k0 k p pt i)
    (hi : i < MAXVMA) (hk0 : (k0.procs p).Bounded) (hpt : ∀ r, pt = some r → r ∈ R) (hs : SysRel k.sys k'.sys)
    (hkp : k'.kpages = k.kpages) (hv : v.used = false) (hq : k'.procs = update k.procs p ((k.procs p).setVma i v))
    (hidle : (∀ j < MAXVMA, ((k0.procs p).vmas j).used = false) → k'.mem = k.mem) (hin : WithinOn R k k')
    (ht : Tidy k.mem k'.mem R)
    (hbare : ((k.procs p).vmas i).used → ∀ r, pt = some r → ∀ x, ((k.procs p).vmas i).addr / 4096 ≤ x →
      x < ((k.procs p).vmas i).addr / 4096 + ((k.procs p).vmas i).len / 4096 → (leaf k'.mem r x).has PTE_V = false) :
    Emptied R k0 k' p pt (i + 1) := by
  have hq' : k'.procs p = (k.procs p).setVma i v := by rw [hq, update_self]
  refine ⟨?_, hkp.trans he.kpages, he.rel.trans hs, fun j hj => ?_, fun j hj => ?_, fun h0 => (hidle h0).trans (he.idle h0),
    he.within.trans hin fun r n => he.inCur, he.tidy.trans ht, ?_⟩
  · rw [hq', hq, he.procs, update_idem]
    simp only [update_self, Proc.setVma]
  · rw [hq']
    by_cases hji : j = i
    · simp [Proc.setVma, hji, hv]
    · simp only [Proc.setVma, update_of_ne hji]
      exact he.done j (by omega)
  · rw [hq']
    simp only [Proc.setVma, update_of_ne (show j ≠ i by omega)]
    exact he.rest j (by omega)
  · intro r hr hcur j hj hu x h1 h2
    rcases Nat.lt_succ_iff_lt_or_eq.mp hj with hlt | rfl
    · -- what was bare stays so: the table is not that of the process that runs
      rw [Bool.eq_false_iff]
      intro hv'
      have hold := he.bare r hr hcur j hlt hu x h1 h2
      have hnu : x < NUPAGE := by
        have hpl := (hk0.vma j (by omega) hu).2.2
        lia
      rcases hin r (hpt r hr) x hnu hv' with hx | hx
      · rw [hold] at hx; cases hx
      · exact hcur (he.inCur hx).1
    · rw [← he.rest j le_rfl] at hu h1 h2
      exact hbare hu r hr x h1 h2

end

section
variable {R : Finset Nat}

theorem wp_closeVma
    (hc : CoreOn W L R { k with sys := s, mem := m }) (hk : Runs k) (hp : p < NPROC) (hk0 : (k0.procs p).Bounded)
    (hi : i < MAXVMA) (hpt : ∀ r, pt = some r → r ∈ R) (hsys : ∀ e, E (.sys e)) (he : Emptied R k0 k p pt i)
    (hu : ((k.procs p).vmas i).used) (hM : Mild k.sys s) (ht : Tidy k.mem m R)
    (hin : ∀ r ∈ R, ∀ n < NUPAGE, (leaf m r n).has PTE_V → (leaf k.mem r n).has PTE_V ∨ InCur k r n)
    (hbare : ∀ r, pt = some r → ∀ x, ((k.procs p).vmas i).addr / 4096 ≤ x →
      x < ((k.procs p).vmas i).addr / 4096 + ((k.procs p).vmas i).len / 4096 → (leaf m r x).has PTE_V = false) :
    wp (onV (closeOpt (if (true : Bool) then ((k.procs p).vmas i).f else none))) (fun _ k' =>
      wp (Xv6.setProc p fun q => q.setVma i Vma.zero) (fun _ k' => CoreOn W L R k' ∧ Emptied R k0 k' p pt (i + 1)) E k')
      E { k with sys := s, mem := m } := by
  have hidle : (∀ j < MAXVMA, ((k0.procs p).vmas j).used = false) → m = k.mem := fun h0 => by
    rw [he.rest i le_rfl, h0 i hi] at hu; cases hu
  rw [if_pos rfl]
  cases hf : ((k.procs p).vmas i).f with
  | none =>
    unfold closeOpt
    rw [wp_onV, wp_pure, wp_setProc]
    refine ⟨hc.setFiles rfl rfl ?_, he.more hi hk0 hpt hM.toSysRel rfl rfl rfl hidle hin ht fun _ => hbare⟩
    rw [fileRefs_same hp fun g => ?_, cwdRefs_same (q := (k.procs p).setVma i Vma.zero) rfl]
    · exact hc.fs
    · have := refs_unmap (p := k.procs p) hi g
      rw [hf, if_neg (by simp)] at this
      exact this.symm
  | some f =>
    have hz : ∀ g, (k.procs p).refs g = plus ((k.procs p).setVma i Vma.zero).refs f g := fun g => by
      rw [refs_unmap hi g]
      by_cases hg : g = f
      · rw [hg, plus_self, if_pos ⟨hu, hf⟩]
      · rw [plus_of_ne _ hg, if_neg fun hc => hg (some.inj (hc.2.symm.trans hf))]; omega
    refine wp_fileclose_core hc.fs.pipe (hk.alive.rel hM.toSysRel) hsys fun s' hC => ?_
    rw [wp_setProc]
    exact ⟨hc.closed hp rfl rfl hz rfl hC,
      he.more hi hk0 hpt (hM.toSysRel.trans hC.toSysRel) rfl rfl rfl hidle hin ht fun _ => hbare⟩

variable (hc : CoreOn W L R k) (hk : Runs k ∨ ∀ j < MAXVMA, ((k.procs p).vmas j).used = false) (hp : p < NPROC)
  (hR : tables k.procs ⊆ R) (hb : (k.procs p).Bounded)
include hc hk hp hR hb

theorem wp_unmapVma (hk0 : (k0.procs p).Bounded) (hi : i < MAXVMA) (hpt : ∀ r, pt = some r → r ∈ R)
    (hsys : ∀ e, E (.sys e)) (he : Emptied R k0 k p pt i) :
    wp (unmapVma p pt true i) (fun _ k' => CoreOn W L R k' ∧ Emptied R k0 k' p pt (i + 1)) E k := by
  unfold unmapVma
  simp only [wp_bind, wp_getProc]
  refine wp_ite (fun hu => wp_ret ⟨hc, ?_⟩) fun hu => ?_
  · refine he.more (v := (k.procs p).vmas i) hi hk0 hpt (SysRel.refl _) rfl (by simpa using hu) ?_ (fun _ => rfl)
      (fun _ _ _ _ => .inl) (SameLeaf.tidy (SameLeaf.refl k.mem _)) fun hx => absurd hx hu
    simp only [Proc.setVma, update_eq_self]
  have hu : ((k.procs p).vmas i).used := by simpa using hu
  replace hk : Runs k := hk.resolve_right fun h0 => by rw [h0 i hi] at hu; cases hu
  cases hpt' : pt with
  | none =>
    unfold unmapIn
    simp only [wp_bind, wp_pure]
    rw [hpt'] at hpt he
    exact wp_closeVma hc hk hp hk0 hi hpt hsys he hu (Mild.refl _) (SameLeaf.tidy (SameLeaf.refl k.mem _))
      (fun _ _ _ _ => .inl) fun r hr => by cases hr
  | some r =>
    obtain ⟨h1, h2, h3⟩ := hb.vma i hi hu
    have hnu : ((k.procs p).vmas i).addr / 4096 + ((k.procs p).vmas i).len / PGSIZE ≤ NUPAGE := by
      lia
    rw [hpt'] at hpt he
    refine wp_seq (wp_unmapRange hc hk hR (hpt r rfl) h1 (le_trans (Nat.mod_le _ _) h3) hnu hsys
      fun s m hc1 hM ht hun _ => ?_)
    refine wp_seq (wp_closeVma hc1 hk hp hk0 hi hpt hsys he hu hM ht (fun r' hr' n hn hv => (hun r' hr' n hn hv).2)
      fun r' hr' x hx1 hx2 => ?_)
    rw [Bool.eq_false_iff]
    intro hv
    cases hr'
    exact (hun r (hpt r rfl) x (lt_of_lt_of_le hx2 hnu) hv).1 ⟨rfl, hx1, hx2⟩

theorem wp_proc_unmap_vmas_on (hpt : ∀ r, pt = some r → r ∈ R) (hsys : ∀ e, E (.sys e))
    (h : ∀ k', CoreOn W L R k' → Emptied R k k' p pt MAXVMA → Q () k') : wp (proc_unmap_vmas p pt true) Q E k := by
  refine wp_post (wp_forN (fun i k' => CoreOn W L R k' ∧ Emptied R k k' p pt i) ⟨hc, Emptied.refl R k p pt⟩ ?_)
    fun _ k' hq => h k' hq.1 hq.2
  rintro i k1 hi ⟨hc1, he1⟩
  exact wp_unmapVma hc1 (hk.imp he1.runs he1.unused) hp (by rw [he1.tables]; exact hR) (he1.bounded hb) hb hi hpt hsys he1

end

theorem Emptied.core (he : Emptied (Xv6.tables k.procs) k k' p pt n) (hp : p < NPROC)
    (hc : Core W L k) (h : CoreOn W L (Xv6.tables k.procs) k') : Core W L k' := by
  obtain ⟨ρ, hI⟩ := h.mem
  refine hc.change (ρ := ρ) he.procs (by rw [he.tables]; exact hI) (he.tidy.subset inter_subset_left)
    (fun r hr => ?_) (fun r hr hn => ?_) (fun r hr => ?_) (hc.frame p hp) (fun a => ?_) h.fs
  · have hr' := (mem_inter.mp hr).1
    exact (((hc.wired r hr').frame p hp).tidy hp hr' he.tidy).congr rfl rfl
  · exact absurd (mem_tables.mpr ⟨p, hp, hr⟩) hn
  · exact (hc.user p hp r hr).tidy (mem_tables.mpr ⟨p, hp, hr⟩) he.tidy
  · rw [he.procs, he.kpages]; exact hc.own_update (q := { k.procs p with vmas := (k'.procs p).vmas }) hp (fun _ => .inl) a

omit [Image] in
theorem Emptied.inside (he : Emptied (Xv6.tables k.procs) k k' p pt n) : Within k k' := by
  have := he.within
  rwa [← he.tables] at this

theorem wp_proc_unmap_vmas (hc : Core W L k) (hk : Runs k ∨ ∀ j < MAXVMA, ((k.procs p).vmas j).used = false) (hp : p < NPROC)
    (hb : (k.procs p).Bounded) (hpt : ∀ r, pt = some r → r ∈ tables k.procs) (hsys : ∀ e, E (.sys e))
    (h : ∀ k', Core W L k' → Emptied (tables k.procs) k k' p pt MAXVMA → Q () k') : wp (proc_unmap_vmas p pt true) Q E k :=
  wp_proc_unmap_vmas_on hc.on hk hp (Finset.Subset.refl _) hb hpt hsys fun k' hc' he => h k' (he.core hp hc hc') he

end Xv6
