import Xv6.UserAddr

/-!
# The memory of a process, from the kernel

The kernel reads and writes the memory of a process through its page table,
and faults pages in on the way. Which pages it refuses, and what it reads and
leaves there.
-/

namespace Xv6

open Hoare List Option

section
variable [Image] {p : Proc} {s : Vs} {R : Finset Nat} {ρ : Owners} {H : Nat → Int} {r : Nat} {k : Kernel}

/-! ## Pages kept from the process -/

def Mem.gives (m : Mem) : Prop := m.oom m.calls = false ∧ m.freelist ≠ []

omit [Image] in
theorem wp_kalloc_none {m : Mem} {E : MemStop → Prop} : wp kalloc (fun res _ => res = none ↔ ¬ m.gives) E m := by
  unfold kalloc Mem.gives
  rw [wp_read]
  cases ho : m.oom (m.calls + 1 - 1) <;> rw [Nat.add_sub_cancel] at ho
  · cases hf : m.freelist with
    | nil => simp
    | cons f rest => simp [ho]
  · simp [ho]

/-- May `vmfault` make a page of its own of a page that is shared? -/
def Cowable (m : Mem) (e : Pte) : Prop :=
  e.has PTE_COW = true ∧ (m.refcnt (pa2idx (PTE2PA e)) = 1 ∨ m.gives)

theorem wp_vmfaultCow_none {m : Mem} {q : Nat × Nat} (hp : IsPage (PTE2PA (m.pte q.1 q.2))) :
    wp (vmfaultCow q) (fun res _ => res = none ↔ ¬ (m.refcnt (pa2idx (PTE2PA (m.pte q.1 q.2))) = 1 ∨ m.gives))
      (fun _ => True) m := by
  unfold vmfaultCow
  simp only [wp_bind, wp_getPte]
  refine wp_krefcnt hp (wp_ite (fun h1 => ?_) fun h1 => ?_)
  · simp only [wp_bind, wp_getPte, wp_setPte, wp_pure]
    simp [h1]
  · refine wp_seq (wp_post wp_kalloc_none fun res m1 hres => ?_)
    cases res with
    | none => exact wp_ret (by simp [h1, hres.mp rfl])
    | some f =>
      have hg : m.gives := by simpa using hres
      simp only [copyPage, wp_bind, wp_modify, wp_getPte, wp_setPte]
      refine wp_of_ok (fun _ _ _ => wp_ret ?_) fun _ _ => trivial
      simp [hg]

section
variable (hU : UserOk p s R ρ H r)
include hU

theorem wp_vmfault_guarded {va : Nat} (hva : va < MAXVA) (hg : Guarded (leaf s.mem r (va / PGSIZE))) (read : Bool) :
    wp (vmfault p r va read) (fun res s' => Faulted p s s' R r (va / PGSIZE) read res ∧
      (res = none ↔ ¬ (read = false ∧ Cowable s.mem (leaf s.mem r (va / PGSIZE))))) (fun _ => False) s := by
  have hlt : va / PGSIZE < 512 * 512 * 512 := by lia
  -- no file is read, so memory alone decides
  have hfault : wp (vmfault p r va read) (fun res s' => Faulted p s s' R r (va / PGSIZE) read res)
      (fun e => ∃ z, e = .sys z) s :=
    wp_vmfault hU.inv hU.held hU.table hU.bounded hU.alive hU.kern (fun hc => absurd hva (not_lt.mpr hc))
      (.inr ⟨⟨_, rfl⟩, ⟨_, rfl⟩⟩) (.inr fun _ => ⟨_, rfl⟩) fun s' ρ' res _ _ hF => hF
  have hnone : wp (vmfault p r va read) (fun res _ => res = none ↔
      ¬ (read = false ∧ Cowable s.mem (leaf s.mem r (va / PGSIZE)))) (fun e => ∃ z, e = .mem z) s := by
    obtain ⟨a, ha, -⟩ := low_of_leaf hg.1
    have hρ := hU.inv.forest.low hU.table (by omega) ha
    have hpte := hU.inv.pte_eq_leaf hρ
    unfold vmfault
    simp only [wp_bind, wp_onMem, PGROUNDDOWN]
    rw [wp_walk_read (by lia), page_div, ha]
    simp only [map_some, wp_bind, wp_onMem, wp_getPte, hpte, hg.1, if_true]
    refine wp_ite (fun hc => ?_) fun hc => wp_ret ?_
    · obtain ⟨hrd, hcow⟩ : read = false ∧ (leaf s.mem r (va / PGSIZE)).has PTE_COW := by simpa using hc
      have hn : va / PGSIZE < NUPAGE := by
        by_contra hcon
        have := (hU.kern r hU.table _ (not_lt.mp hcon) hlt).2.1
        rw [hcow] at this; cases this
      rw [wp_onMem]
      have hp : IsPage (PTE2PA (s.mem.pte a (va / PGSIZE % 512))) := by
        rw [hpte]; exact hU.inv.leafPage r hU.table _ hn hg.1
      refine wp_mono (wp_vmfaultCow_none hp) (fun res _ hres => ?_) fun e _ => ⟨e, rfl⟩
      simpa only [Cowable, hrd, hcow, hpte, true_and] using hres
    · simp only [true_iff, Cowable]
      exact fun h => hc ⟨by simp [h.1], h.2.1⟩
  refine wp_of_ok (fun res s' hrun => ⟨wp_ok hfault hrun, wp_ok hnone hrun⟩) fun e he => ?_
  obtain ⟨z, rfl⟩ := wp_error hfault he
  obtain ⟨_, hz⟩ := wp_error hnone he
  cases hz

theorem wp_writablePage_guarded {n : Nat} (hva : n * PGSIZE < MAXVA) (hg : Guarded (leaf s.mem r n)) :
    wp (writablePage p r (n * PGSIZE)) (fun res _ => res = none ↔ ¬ Cowable s.mem (leaf s.mem r n)) (fun _ => False) s := by
  have hdiv : n * PGSIZE / PGSIZE = n := by lia
  unfold writablePage userPage
  simp only [wp_bind, wp_onMem]
  rw [wp_walkaddr, if_pos hva, page_div, userPa, if_neg (by simp [hg.2])]
  refine wp_post (wp_vmfault_guarded hU hva (by rwa [hdiv]) false) fun res s' h => ?_
  rw [hdiv] at h
  obtain ⟨hF, hres⟩ := h
  simp only [true_and] at hres
  cases res with
  | none => exact wp_ret hres
  | some pa =>
    obtain ⟨hn, hv, hw, -⟩ := hF.writable hU
    simp only [wp_bind, wp_onMem]
    refine wp_entryOf hn hv ?_
    rw [if_pos hw]
    exact wp_ret (by simpa using hres)

theorem wp_copyout_guard {dstva : Nat} {src : List UInt8} (hsrc : src ≠ []) (hin : dstva % PGSIZE + src.length ≤ PGSIZE)
    (hva : dstva < MAXVA) (hg : Guarded (leaf s.mem r (dstva / PGSIZE))) :
    wp (copyout p r dstva src) (fun ok _ => ok = false ↔ ¬ Cowable s.mem (leaf s.mem r (dstva / PGSIZE)))
      (fun _ => False) s := by
  have hlen := length_pos_iff.mpr hsrc
  obtain ⟨fuel, hfuel⟩ : ∃ fuel, src.length = fuel + 1 := ⟨src.length - 1, by omega⟩
  have hall : min (PGSIZE - (dstva - dstva / PGSIZE * PGSIZE)) src.length = src.length := by lia
  have hlow : dstva / PGSIZE * PGSIZE < MAXVA := by lia
  unfold copyout
  rw [hfuel, copyoutLoop, if_neg hsrc]
  dsimp only
  rw [PGROUNDDOWN, if_neg (not_le.mpr hlow), wp_bind]
  refine wp_post (wp_writablePage_guarded hU hlow hg) fun res s' hres => ?_
  cases res with
  | none => exact wp_ret (by simpa using hres)
  | some pa =>
    simp only [wp_bind, wp_onMem, wp_writeBytes, hall, drop_length]
    have hnil : ∀ a, copyoutLoop p r fuel a [] = pure true := fun a => by cases fuel <;> rfl
    rw [hnil]
    exact wp_ret (by simpa using hres)

theorem wp_copyout_guarded {E : Stop → Prop} (hS : Unstopped p s.sys E) {dstva : Nat} {src : List UInt8} :
    wp (copyout p r dstva src) (fun ok s' => ok →
      ((∀ j < src.length, (leaf s'.mem r ((dstva + j) / PGSIZE)).has PTE_V ∧
          (leaf s'.mem r ((dstva + j) / PGSIZE)).has PTE_U ∧ (leaf s'.mem r ((dstva + j) / PGSIZE)).has PTE_W) ↔
        ∀ j < src.length, ¬ Guarded (leaf s.mem r ((dstva + j) / PGSIZE))) ∧
      ∀ j < src.length, Guarded (leaf s.mem r ((dstva + j) / PGSIZE)) →
        (leaf s.mem r ((dstva + j) / PGSIZE)).has PTE_COW) E s := by
  refine wp_copyout hU hS fun ok l s' ρ' _ _ _ hok ht => ?_
  obtain ⟨-, hend, hland⟩ := hok ht
  have hpage : ∀ j < src.length, Lands (leaf s.mem r ((dstva + j) / PGSIZE)) (leaf s'.mem r ((dstva + j) / PGSIZE)) :=
    fun j hj => by
      have := hend (ne_nil_of_length_pos (Nat.zero_lt_of_lt hj))
      have hl := hland ((dstva + j) / PGSIZE) (by lia)
      rwa [if_pos ⟨j, hj, rfl⟩] at hl
  refine ⟨forall₂_congr fun j hj => ?_, fun j hj => (hpage j hj).2.2.2⟩
  obtain ⟨hv, hw, hu, -⟩ := hpage j hj
  rw [← hu]
  simp [hv, hw]

end

/-- Whatever calls processes have made: a page fault leaves a page that is kept from the process alone exactly if it is
not about to be copied. A `copyout` that succeeds has gone to pages of the process exactly if none of them was kept from
it, and those that were are shared copy-on-write; within such a page it fails exactly if the page cannot be copied. -/
theorem kernel_honours_guard {c : Config} {k₀ : Kernel} {P : Nat × Op → Kernel → Prop} {tr : List ((Nat × Op) × Kernel)}
    {i : Nat} (hb : Booted c k₀) (ht : Reaches P k₀ tr k) (hi : k.ready i) (hr : (k.procs i).pagetable = some r) :
    (∀ va read, va < MAXVA → Guarded (leaf k.mem r (va / PGSIZE)) →
      ∃ res s', vmfault (k.procs i) r va read ⟨(k.switch i).sys, k.mem⟩ = .ok (res, s') ∧
        ((res = none ∧ leaf s'.mem r (va / PGSIZE) = leaf k.mem r (va / PGSIZE)) ↔
          ¬ (read = false ∧ Cowable k.mem (leaf k.mem r (va / PGSIZE))))) ∧
    (∀ dstva src s', copyout (k.procs i) r dstva src ⟨(k.switch i).sys, k.mem⟩ = .ok (true, s') →
      ((∀ j < src.length, (leaf s'.mem r ((dstva + j) / PGSIZE)).has PTE_V = true ∧
          (leaf s'.mem r ((dstva + j) / PGSIZE)).has PTE_U = true ∧
          (leaf s'.mem r ((dstva + j) / PGSIZE)).has PTE_W = true) ↔
        ∀ j < src.length, ¬ Guarded (leaf k.mem r ((dstva + j) / PGSIZE))) ∧
      ∀ j < src.length, Guarded (leaf k.mem r ((dstva + j) / PGSIZE)) →
        (leaf k.mem r ((dstva + j) / PGSIZE)).has PTE_COW = true) ∧
    ∀ dstva src, src ≠ [] → dstva % PGSIZE + src.length ≤ PGSIZE → dstva < MAXVA →
      Guarded (leaf k.mem r (dstva / PGSIZE)) →
      ∃ ok s', copyout (k.procs i) r dstva src ⟨(k.switch i).sys, k.mem⟩ = .ok (ok, s') ∧
        (ok = false ↔ ¬ Cowable k.mem (leaf k.mem r (dstva / PGSIZE))) := by
  obtain ⟨L, -, h⟩ := inv_of_reaches hb.inv ht
  have hrun := h.runs_switch hi
  obtain ⟨r', ρ, hr', hU⟩ := (h.switch i).toCore.userOk hrun
  obtain rfl : r' = r := some.inj (hr'.symm.trans hr)
  refine ⟨fun va read hva hg => ?_, fun dstva src s' hout => ?_, fun dstva src hsrc hin hva hg => ?_⟩
  · obtain ⟨res, s', hs, hF, hres⟩ := wp_total (wp_vmfault_guarded hU hva hg read)
    refine ⟨res, s', hs, ?_⟩
    rw [← hres, and_iff_left_iff_imp]
    rintro rfl
    cases hF.out with | refused same _ => exact same r' hU.table _ (by lia)
  · exact wp_ok (wp_copyout_guarded (E := fun _ => True) hU ⟨.inr ⟨trivial, trivial⟩, .inr fun _ => trivial⟩) hout rfl
  · exact wp_total (wp_copyout_guard hU hsrc hin hva hg)

end

def Config.programs : Config :=
  { Config.small with inode := fun _ => ⟨0, false, false, T_FILE, 1, PGSIZE, fun n => [0x7f, 0x45, 0x4c, 0x46].getD n 0,
      fun bn => decide (bn < 4), false⟩ }

theorem Config.programs_ok : Config.programs.Ok := fun _ => show PGSIZE ≤ MAXFILE * BSIZE by decide

theorem guard_refused : ∃ k₀ tr k r s' s'', @Booted (lastPages 30) Config.programs k₀ ∧
    @Reaches (lastPages 30) (fun _ _ => True) k₀ tr k ∧ k.ready 0 ∧ (k.procs 0).pagetable = some r ∧
    Guarded (leaf k.mem r 0) ∧
    @vmfault (lastPages 30) (k.procs 0) r 0 false ⟨(k.switch 0).sys, k.mem⟩ = .ok (none, s') ∧
    leaf s'.mem r 0 = leaf k.mem r 0 ∧
    @copyout (lastPages 30) (k.procs 0) r 0 [1] ⟨(k.switch 0).sys, k.mem⟩ = .ok (false, s'') := by
  obtain ⟨k₀, tr, k, hb, ht, hf⟩ := reaches_last Config.programs_ok [(0, .exec (some 2) [])]
    (fun _ k => decide (k.ready 0) &&
      (k.procs 0).pagetable.any fun r => (leaf k.mem r 0).has PTE_V && !(leaf k.mem r 0).has PTE_U &&
        !(leaf k.mem r 0).has PTE_COW) (by decide +kernel)
  simp only [Bool.and_eq_true, decide_eq_true_eq, Option.any_eq_true, Bool.not_eq_true'] at hf
  obtain ⟨hi, r, hr, hg, hc⟩ := hf
  obtain ⟨hfault, -, hout⟩ :=
    @kernel_honours_guard (lastPages 30) r k Config.programs k₀ (fun _ _ => True) tr 0 hb ht hi hr
  have hno : ¬ Cowable k.mem (leaf k.mem r 0) := fun h => by rw [Cowable, hc] at h; cases h.1
  obtain ⟨res, s', hs, hiff⟩ := hfault 0 false (by decide) hg
  obtain ⟨rfl, hl⟩ := hiff.mpr fun h => hno h.2
  obtain ⟨ok, s'', hs', hiff⟩ := hout 0 [1] (by simp) (by decide) (by decide) hg
  obtain rfl := hiff.mpr hno
  exact ⟨k₀, tr, k, r, s', s'', hb, ht, hi, hr, hg, hs, hl, hs'⟩

/-- After `fork` the guard page below the stack is shared copy-on-write: `copyout` to it succeeds. -/
theorem copyout_to_guard : ∃ k₀ tr k r s', @Booted (lastPages 30) Config.programs k₀ ∧
    @Reaches (lastPages 30) (fun _ _ => True) k₀ tr k ∧ k.ready 0 ∧ (k.procs 0).pagetable = some r ∧
    Guarded (leaf k.mem r 0) ∧
    @copyout (lastPages 30) (k.procs 0) r 0 [1] ⟨(k.switch 0).sys, k.mem⟩ = .ok (true, s') ∧
    (leaf s'.mem r 0).has PTE_U = false := by
  obtain ⟨k₀, tr, k, hb, ht, hf⟩ := reaches_last Config.programs_ok
    [(0, .exec (some 2) []), (0, .fork)] (fun _ k => decide (k.ready 0) &&
      (k.procs 0).pagetable.any fun r => (leaf k.mem r 0).has PTE_V && !(leaf k.mem r 0).has PTE_U &&
        okAnd (@copyout (lastPages 30) (k.procs 0) r 0 [1] ⟨(k.switch 0).sys, k.mem⟩) fun b s' =>
          b && !(leaf s'.mem r 0).has PTE_U) (by decide +kernel)
  simp only [Bool.and_eq_true, decide_eq_true_eq, Option.any_eq_true, Bool.not_eq_true'] at hf
  obtain ⟨hi, r, hr, hg, hc⟩ := hf
  obtain ⟨b, s', hs, hc⟩ := of_okAnd hc
  rw [Bool.and_eq_true, Bool.not_eq_true'] at hc
  obtain ⟨rfl, hc⟩ := hc
  exact ⟨k₀, tr, k, r, s', hb, ht, hi, hr, hg, hs, hc⟩

/-! ## Copies and what the process sees -/

section
variable [Image] {p : Proc} {s : Vs} {R : Finset Nat} {ρ : Owners} {H : Nat → Int} {r : Nat} {k : Kernel}

omit [Image] in
theorem Proc.sees_none_congr {s' : Vs} {x y : Nat} (hn : y / PGSIZE = x / PGSIZE)
    (hl : leaf s'.mem r (x / PGSIZE) = leaf s.mem r (x / PGSIZE)) : p.sees s' r y = none ↔ p.sees s r x = none := by
  unfold Proc.sees
  rw [hn, hl]
  split
  · split <;> simp
  · split
    · simp
    · split
      · simp
      · split <;> simp

omit [Image] in
theorem Proc.seesString_iff {a max : Nat} : (∃ str, p.SeesString s r a max str) ↔
    ∃ n < max, p.sees s r (a + n) = some 0 ∧ ∀ j < n, p.sees s r (a + j) ≠ none := by
  constructor
  · rintro ⟨str, hs⟩
    exact ⟨_, hs.short, hs.stop, fun j hj => by rw [(hs.chars j hj).1]; simp⟩
  · rintro ⟨n, hn, hz, hall⟩
    have hex : ∃ n, p.sees s r (a + n) = some 0 := ⟨n, hz⟩
    have hle : Nat.find hex ≤ n := Nat.find_min' hex hz
    refine ⟨(range (Nat.find hex)).map fun j => (p.sees s r (a + j)).getD 0, ?_, fun j hj => ?_, ?_⟩
    · rw [length_map, length_range]
      omega
    · rw [length_map, length_range] at hj
      obtain ⟨b, hb⟩ := ne_none_iff_exists'.mp (hall j (by omega))
      have hget : ((range (Nat.find hex)).map fun j => (p.sees s r (a + j)).getD 0).getD j 0 = b := by
        simp [hj, hb]
      rw [hget, hb]
      exact ⟨rfl, fun h0 => Nat.find_min hex hj (h0 ▸ hb)⟩
    · rw [length_map, length_range]
      exact Nat.find_spec hex

/-- With enough memory `copyin` succeeds exactly if `p` sees every byte, and gives what `p` sees; that stays. -/
structure CopyinAgrees (p : Proc) (s s' : Vs) (r va len : Nat) (res : List UInt8 × Bool) : Prop where
  same : ∀ x < MAXVA, p.sees s' r x = p.sees s r x
  succeeds : s'.mem.fails = s.mem.fails → (res.2 = true ↔ ∀ j < len, p.sees s r (va + j) ≠ none)
  bytes : res.2 = true → res.1.length = len ∧ ∀ j < len, p.sees s r (va + j) = some (res.1.getD j 0)

structure CopyinstrAgrees (p : Proc) (s s' : Vs) (r va max : Nat) (res : Option (List UInt8)) : Prop where
  same : ∀ x < MAXVA, p.sees s' r x = p.sees s r x
  succeeds : s'.mem.fails = s.mem.fails →
    (res ≠ none ↔ ∃ n < max, p.sees s r (va + n) = some 0 ∧ ∀ j < n, p.sees s r (va + j) ≠ none)
  string : ∀ str, res = some str → p.SeesString s r va max str

section
variable {E : Stop → Prop} {va : Nat} (hU : UserOk p s R ρ H r) (hS : Unstopped p s.sys E) (hw : p.FilesWhole s.sys)
include hU hS hw

theorem wp_copyin_sees {len : Nat} (hva : va + len ≤ MAXVA) :
    wp (copyin p r va len) (fun res s' => CopyinAgrees p s s' r va len res) E s := by
  refine wp_copyin hU hS (fun _ _ => by omega) fun bs ok s' ρ' _ hR hC => ?_
  have hC := hC hva hw
  cases ok with
  | true =>
    exact ⟨hR.seen hw, fun _ => ⟨fun _ j hj => by rw [hC.2 j hj]; simp, fun _ => rfl⟩, fun _ => hC⟩
  | false =>
    refine ⟨hR.seen hw, fun hm => ⟨fun h => (by cases h), fun hall => ?_⟩, fun h => (by cases h)⟩
    obtain hf | ⟨j, hj, hn⟩ := hC
    · omega
    · exact absurd hn (hall j hj)

theorem wp_copyinstr_sees {max : Nat} (hva : va + max ≤ MAXVA) :
    wp (copyinstr p r va max) (fun res s' => CopyinstrAgrees p s s' r va max res) E s := by
  refine wp_copyinstrLoop _ le_rfl hU hS (fun _ _ => by omega) fun res s' ρ' _ hR hC => ?_
  have hC := hC hva hw
  cases res with
  | some str =>
    exact ⟨hR.seen hw, fun _ => ⟨fun _ => Proc.seesString_iff.mp ⟨str, hC⟩, fun _ => by simp⟩, fun _ he => some.inj he ▸ hC⟩
  | none =>
    refine ⟨hR.seen hw, fun hm => ⟨fun h => absurd rfl h, fun hs => ?_⟩, fun _ he => (by cases he)⟩
    obtain ⟨str, hs⟩ := Proc.seesString_iff.mpr hs
    obtain hf | hno := hC
    · omega
    · exact absurd hs (hno str)

theorem wp_copyout_sees {bs : List UInt8} (hin : ∀ j < bs.length, p.sees s r (va + j) ≠ none) :
    wp (copyout p r va bs) (fun ok s' => ok → (∃ ρ', UserOk p s' R ρ' H r) ∧ Kept s.sys s'.sys ∧ ∀ x < MAXVA,
      p.sees s' r x = if va ≤ x ∧ x < va + bs.length then some (bs.getD (x - va) 0) else p.sees s r x) E s := by
  refine wp_copyout hU hS fun ok l s' ρ' hU' _ hR hok ht => ⟨⟨ρ', hU'⟩, hR.kept, fun x hx => ?_⟩
  obtain ⟨rfl, -, hland⟩ := hok ht
  rw [take_length] at hR
  cases hsee : p.sees s r x with
  | some b =>
    rw [hR.seen hw x hx b hsee]
    split <;> rfl
  | none =>
    -- the range has no address on this page
    have hno : ∀ j < bs.length, (va + j) / PGSIZE ≠ x / PGSIZE := fun j hj hn =>
      hin j hj ((Proc.sees_none_congr hn rfl).mpr hsee)
    have hl := hland (x / PGSIZE) (by lia)
    rw [if_neg fun ⟨j, hj, hn⟩ => hno j hj hn] at hl
    rw [(Proc.sees_none_congr rfl hl).mpr hsee, if_neg]
    rintro ⟨h1, h2⟩
    exact hno (x - va) (by omega) (by rw [Nat.add_sub_cancel' h1])

end

/-- Whatever calls processes have made, with enough memory: `copyin` of bytes and `copyinstr` of a string succeed exactly if
the process can read them, and give what it would read; neither changes what it would read. After a `copyout` to memory it
can read, that is what it reads there, and so does a later `copyin`. -/
theorem user_copies {c : Config} {k₀ : Kernel} {P : Nat × Op → Kernel → Prop} {tr : List ((Nat × Op) × Kernel)} {i : Nat}
    (hb : Booted c k₀) (hc : c.Whole) (ht : Reaches P k₀ tr k) (hi : k.ready i) (hp : p = k.procs i)
    (hr : p.pagetable = some r) (hs : s = ⟨(k.switch i).sys, k.mem⟩) :
    (∀ va len, va + len ≤ MAXVA → ∃ res s', copyin p r va len s = .ok (res, s') ∧ CopyinAgrees p s s' r va len res) ∧
    (∀ va max, va + max ≤ MAXVA → ∃ res s', copyinstr p r va max s = .ok (res, s') ∧ CopyinstrAgrees p s s' r va max res) ∧
    ∀ va bs s', va + bs.length ≤ MAXVA → (∀ j < bs.length, p.sees s r (va + j) ≠ none) →
    copyout p r va bs s = .ok (true, s') →
      (∀ x < MAXVA, p.sees s' r x = if va ≤ x ∧ x < va + bs.length then some (bs.getD (x - va) 0) else p.sees s r x) ∧
      ∃ res s'', copyin p r va bs.length s' = .ok (res, s'') ∧ (s''.mem.fails = s'.mem.fails → res = (bs, true)) := by
  subst hp hs
  obtain ⟨L, -, h⟩ := inv_of_reaches hb.inv ht
  have hrun := h.runs_switch hi
  have hS := (h.switch i).unstopped (E := fun _ => False) hrun (.inl hc)
  obtain ⟨r', ρ, hr', hU⟩ := (h.switch i).toCore.userOk hrun
  obtain rfl : r = r' := some.inj (hr.symm.trans hr')
  have hw : (k.procs i).FilesWhole (k.switch i).sys := fun _ _ f _ _ =>
    ⟨((h.switch i).fs.size _).1, ((h.switch i).fs.size _).2 hc⟩
  refine ⟨fun va len hva => wp_total (wp_copyin_sees hU hS hw hva), fun va max hva =>
    wp_total (wp_copyinstr_sees hU hS hw hva), fun va bs s' hva hin hout => ?_⟩
  obtain ⟨⟨ρ', hU'⟩, hK, hsee⟩ := wp_ok (wp_copyout_sees hU hS hw hin) hout rfl
  refine ⟨hsee, ?_⟩
  obtain ⟨⟨bs', ok⟩, s'', hin', hagree⟩ := wp_total (wp_copyin_sees hU' (hS.kept hK) (hK.filesWhole hw) hva)
  refine ⟨_, s'', hin', fun hm => ?_⟩
  have hback : ∀ j < bs.length, (k.procs i).sees s' r (va + j) = some (bs.getD j 0) := fun j hj => by
    rw [hsee _ (by omega), if_pos (by omega), Nat.add_sub_cancel_left]
  obtain rfl : ok = true := (hagree.succeeds hm).mpr fun j hj => by rw [hback j hj]; simp
  obtain ⟨hlen, hall⟩ := hagree.bytes rfl
  refine Prod.ext (ext_getElem hlen fun j h1 h2 => ?_) rfl
  have hj := (hall j h2).symm.trans (hback j h2)
  rwa [some.injEq, getD_eq_getElem _ _ h1, getD_eq_getElem _ _ h2] at hj

end

theorem user_copies_stack : ∃ k₀ tr k r s', @Booted (lastPages 30) Config.programs k₀ ∧
    @Reaches (lastPages 30) (fun _ _ => True) k₀ tr k ∧
    @copyout (lastPages 30) (k.procs 0) r PGSIZE [1, 2] ⟨(k.switch 0).sys, k.mem⟩ = .ok (true, s') ∧
    (k.procs 0).sees s' r (PGSIZE + 1) = some 2 := by
  obtain ⟨k₀, tr, k, hb, ht, hf⟩ := reaches_last Config.programs_ok [(0, .exec (some 2) [])]
    (fun _ k => decide (k.ready 0) &&
      (k.procs 0).pagetable.any fun r =>
        ((range 2).all fun j => ((k.procs 0).sees ⟨(k.switch 0).sys, k.mem⟩ r (PGSIZE + j)).isSome) &&
        okAnd (@copyout (lastPages 30) (k.procs 0) r PGSIZE [1, 2] ⟨(k.switch 0).sys, k.mem⟩) fun ok _ => ok)
    (by decide +kernel)
  simp only [Bool.and_eq_true, decide_eq_true_eq, Option.any_eq_true, List.all_eq_true, List.mem_range,
    Option.isSome_iff_ne_none] at hf
  obtain ⟨hi, r, hr, hsee, hc⟩ := hf
  obtain ⟨ok, s', hs, rfl⟩ := of_okAnd hc
  have hwhole : Config.programs.Whole := Config.small_whole
  obtain ⟨hall, -⟩ := (@user_copies (lastPages 30) (k.procs 0) ⟨(k.switch 0).sys, k.mem⟩ r k Config.programs k₀ _ tr 0 hb
    hwhole ht hi rfl hr rfl).2.2 PGSIZE [1, 2] s' (by decide) hsee hs
  exact ⟨k₀, tr, k, r, s', hb, ht, hs, hall (PGSIZE + 1) (by decide)⟩

end Xv6
