import Xv6.Inv

/-!
# Freeing and creating processes

`freeproc` gives back a process's trap frame and, for a leader, its page
table; `allocproc` undoes itself when memory runs out half way.
-/

namespace Xv6

open Hoare Function Finset

variable {q : Proc} {s : Sys} {n tf : Nat}

variable [Image] {W : Prop} {L : Nat → Nat} {k : Kernel}
variable {E : Stop → Prop} {Q : Unit → Kernel → Prop} {k' k₁ : Kernel} {m : Mem} {p r : Nat} {ρ : Owners}

theorem MemInv.view_release (hI : MemInv m' R ρ H)
    (hH : ∀ a, 0 ≤ H a) (hR : Release m m') (hS : ∀ r ∈ R, ∀ n < NUPAGE, leaf m' r n = leaf m r n) :
    SameView m m' R := fun r hr n hn => by
  unfold view
  rw [← hS r hr n hn]
  split
  · rename_i hv
    refine hR.data _ fun hp => ?_
    have h1 := hI.count _ hp
    have h2 := leafRefs_pos hr hn hv
    have h3 := hH (PTE2PA (leaf m' r n))
    split at h1 <;> omega
  · rfl

/-! ## `freeproc` -/

omit [Image] in
theorem Framed.strip (h : Framed m r p q) (h1 : q'.pagetable = q.pagetable)
    (h2 : q'.trapframe = none) : Framed m r p q' := by
  unfold Framed at h ⊢
  rw [h1]
  split at h
  · rename_i hq
    rw [if_pos hq]
    intro a ha
    rw [h2] at ha
    cases ha
  · rename_i hq
    rw [if_neg hq]
    exact h

theorem wp_freeFrame (hc : Core W L k) (hp : p < NPROC)
    (h : ∀ m, Core W L { k with mem := m, procs := update k.procs p { k.procs p with trapframe := none } } →
      Release k.mem m → SameLeaf k.mem m (tables k.procs) → Q () { k with mem := m }) :
    wp (kmem (freeFrame (k.procs p).trapframe)) Q E k := by
  obtain ⟨ρ, hI⟩ := hc.mem
  -- what has to be shown of the page that goes
  have hcore : ∀ m, MemInv m (tables k.procs) ρ (fun a => heldBy L k a - if (k.procs p).trapframe = some a then 1 else 0) →
      SameLeaf k.mem m (tables k.procs) →
      Core W L { k with mem := m, procs := update k.procs p { k.procs p with trapframe := none } } := by
    intro m hI' hS
    generalize hq : ({ k.procs p with trapframe := none } : Proc) = q
    have htab : tables (update k.procs p q) = tables k.procs := tables_update (by rw [← hq])
    have hheld : heldBy L { k with mem := m, procs := update k.procs p q } =
        fun a => heldBy L k a - if (k.procs p).trapframe = some a then 1 else 0 := by
      funext a
      have := @frames_update k.procs p q hp a
      rw [if_neg (c := q.trapframe = some a) (by rw [← hq]; simp)] at this
      unfold heldBy
      dsimp only
      split at this
      · rename_i hx; rw [if_pos hx]; omega
      · rename_i hx; rw [if_neg hx]; omega
    refine hc.change (ρ := ρ) rfl (by rw [hheld, htab]; exact hI') (hS.tidy.subset inter_subset_left) (fun r hr => ?_)
      (fun r hr hn => ?_) (fun r hr => ?_) (fun a ha => by rw [← hq] at ha; cases ha)
      (hc.own_update hp fun a ha => by rw [← hq] at ha; cases ha) ?_
    · have hm := (mem_inter.mp hr).1
      exact (((hc.wired r hm).frame p hp).strip (by rw [← hq]) (by rw [← hq])).tidy hp hm hS.tidy
    · exact absurd (mem_tables.mpr ⟨p, hp, by rw [← hq] at hr; exact hr⟩) hn
    · rw [← hq] at hr ⊢
      exact (hc.user p hp r hr).tidy (mem_tables.mpr ⟨p, hp, hr⟩) hS.tidy
    · dsimp only
      rw [fileRefs_same hp (by rw [← hq]; exact fun _ => rfl), cwdRefs_same (by rw [← hq])]; exact hc.fs
  rw [wp_kmem]
  cases htf : (k.procs p).trapframe with
  | none =>
    refine wp_ret (h k.mem (hcore k.mem ?_ (SameLeaf.refl k.mem _)) (Release.refl _) (SameLeaf.refl k.mem _))
    simp only [htf, reduceCtorEq, if_false, Int.sub_zero]
    exact hI
  | some tf =>
    have hpos : 0 < heldBy L k tf := by
      have : 0 < frames k.procs tf := Tally.count_pos hp htf
      unfold heldBy; omega
    have hpage := hc.frame p hp tf htf
    obtain ⟨hrc, hI', hS, hR⟩ := hI.dropHeld hpage hpos
    have hbump : bump (heldBy L k) tf (-1) = fun a => heldBy L k a - if (k.procs p).trapframe = some a then 1 else 0 := by
      funext a
      unfold bump
      rw [htf]
      by_cases ha : a = tf
      · simp [ha]; omega
      · simp [ha, Ne.symm ha]
    refine wp_kfree hpage hrc (h _ (hcore _ ?_ hS) hR hS)
    rwa [hbump] at hI'

structure Freed (k k' : Kernel) (p : Nat) : Prop where
  procs : k'.procs = update k.procs p { k.procs p with
    trapframe := none, pagetable := none, sz := 0, pid := 0, parent := none, vmas := (k'.procs p).vmas }
  vmas : ∀ j < MAXVMA, ((k'.procs p).vmas j).used = false
  kpages : k'.kpages = k.kpages
  gone : Gone k.sys k'.sys p
  held : k'.sys.held = k.sys.held
  cur : k'.sys.cur = k.sys.cur
  initproc : k'.sys.initproc = k.sys.initproc
  idle : (∀ j < MAXVMA, ((k.procs p).vmas j).used = false) → SameView k.mem k'.mem (tables k'.procs) ∧
    k'.mem.fails = k.mem.fails
  within : Within k k'

omit [Image] in
theorem gone_setRun (s : Sys) (hf : (f (s.run p)).state = .UNUSED) : Gone s (s.setRun p f) p := by
  have hat : ∀ j, (s.setRun p f).run j = if j = p then f (s.run p) else s.run j := fun j => update_apply ..
  refine ⟨fun j => ?_, fun j => ?_, rfl⟩ <;> by_cases hj : j = p <;> simp [Sys.live, Sys.dead, hat, hj, hf]

omit [Image] in
theorem Gone.of_rel (hr : SysRel s s') (hg : Gone s' s'' p) : Gone s s'' p :=
  ⟨fun j => by rw [hg.live, hr.live], fun j => by rw [hg.dead, hr.dead], hg.nextpid.trans hr.nextpid⟩

theorem Core.finish (hc : Core W L k) (hp : p < NPROC) (htf : (k.procs p).trapframe = none)
    (hI : MemInv m (tables (update k.procs p (k.procs p).clear)) ρ (heldBy L k))
    (hS : Tidy k.mem m (tables k.procs ∩ tables (update k.procs p (k.procs p).clear)))
    (h0 : ∀ r ∈ tables k.procs ∩ tables (update k.procs p (k.procs p).clear),
      (leaf k.mem r (framePage p)).has PTE_V = false) :
    Core W L { k with
      sys := k.sys.setRun p Run.clear
      mem := m
      procs := update k.procs p (k.procs p).clear } := by
  have hheld : heldBy L { k with
      sys := k.sys.setRun p Run.clear
      mem := m
      procs := update k.procs p (k.procs p).clear } = heldBy L k := by
    funext a
    unfold heldBy frames
    simp only [update_apply_congr Proc.trapframe (show (k.procs p).clear.trapframe = (k.procs p).trapframe from rfl)]
  refine hc.change (ρ := ρ) rfl (by rw [hheld]; exact hI) hS (fun r hr => ?_) (fun r hr => by cases hr)
    (fun r hr => by cases hr) (fun a ha => ?_) (hc.own_update hp fun a ha => .inl ha) ?_
  · unfold Framed
    exact hS.kernel_invalid hr (framePage_user hp) (framePage_lt p) (h0 r hr)
  · change (k.procs p).trapframe = some a at ha
    rw [htf] at ha; cases ha
  · dsimp only
    rw [fileRefs_same (q := (k.procs p).clear) hp fun _ => rfl, cwdRefs_same (q := (k.procs p).clear) rfl]
    exact hc.fs.congr rfl rfl

theorem Core.unframed (hc : Core W L k) (hp : p < NPROC) (hr : r ∈ tables k.procs)
    (hne : (k.procs p).pagetable ≠ some r) : (leaf k.mem r (framePage p)).has PTE_V = false := by
  have hf := (hc.wired r hr).frame p hp
  unfold Framed at hf
  rwa [if_neg hne] at hf

theorem Core.unwire (hc : Core W L k) (hp : p < NPROC) (htf : (k.procs p).trapframe = none)
    (hr : (k.procs p).pagetable = some r)
    (hI : MemInv m (tables k.procs) ρ (heldBy L k))
    (hC : Cleared k.mem m (tables k.procs) r (framePage p) (framePage p + 1)) : Core W L { k with mem := m } := by
  have hu := framePage_user hp
  have hsame : ∀ r' ∈ tables k.procs, ∀ n < 512 * 512 * 512, n ≠ framePage p → leaf m r' n = leaf k.mem r' n :=
    fun r' hr' n hn hne => by rw [hC r' hr' n hn, if_neg fun hx => hne (by omega)]
  refine ⟨⟨ρ, hI⟩, fun r' hr' n hn hlt => ?_, fun r' hr' => ⟨?_, fun i hi => ?_, fun n hn hlt h1 h2 => ?_⟩,
    fun i hi r' hr' n hn hv => ?_, hc.frame, hc.own, hc.fs⟩
  · dsimp only
    rw [hC r' hr' n hlt]
    split
    · simp
    · exact hc.kern r' hr' n hn hlt
  · dsimp only
    rw [hsame r' hr' _ (by decide) (framePage_ne hp).symm]
    exact (hc.wired r' hr').tramp
  · have hf := (hc.wired r' hr').frame i hi
    by_cases hip : i = p
    · subst hip
      unfold Framed
      split
      · intro a ha
        rw [htf] at ha
        cases ha
      · rename_i hne
        have h0 := hc.unframed hi hr' hne
        rw [hC r' hr' _ (framePage_lt i), if_neg fun hx => by rw [h0] at hx; cases hx.2.2.2]
        exact h0
    · unfold Framed at hf ⊢
      rw [hsame r' hr' _ (framePage_lt i) fun hx => hip (framePage_inj hi hp hx)]
      exact hf
  · dsimp only
    rw [hsame r' hr' n hlt (h2 p hp)]
    exact (hc.wired r' hr').rest n hn hlt h1 h2
  · have hn' : n ≠ framePage p := by omega
    rw [hsame r' (mem_tables.mpr ⟨i, hi, hr'⟩) n (NUPAGE_lt hn) hn'] at hv ⊢
    exact hc.user i hi r' hr' n hn hv

structure Stripped (k k' : Kernel) (p : Nat) : Prop where
  procs : k'.procs = update k.procs p { k.procs p with trapframe := none, vmas := (k'.procs p).vmas }
  kpages : k'.kpages = k.kpages
  rel : SysRel k.sys k'.sys
  idle : (∀ j < MAXVMA, ((k.procs p).vmas j).used = false) → Release k.mem k'.mem ∧
    ∀ r ∈ tables k.procs, ∀ n < NUPAGE, leaf k'.mem r n = leaf k.mem r n
  within : Within k k'

section
variable {k' k'' : Kernel} {p : Nat}

variable (h : Stripped k k' p)
include h

theorem Stripped.self :
    k'.procs p = { k.procs p with trapframe := none, vmas := (k'.procs p).vmas } := by
  have := congrFun h.procs p
  rwa [update_self] at this

theorem Stripped.other (hi : i ≠ p) : k'.procs i = k.procs i := by
  rw [h.procs, update_of_ne hi]

theorem Stripped.pagetable (i : Nat) : (k'.procs i).pagetable = (k.procs i).pagetable := by
  by_cases hi : i = p
  · rw [hi, h.self]
  · rw [h.other hi]

theorem Stripped.inCur (hv : (k'.procs p).vmas = (k.procs p).vmas) (hx : InCur k' r n) :
    InCur k r n := by
  refine hx.mono h.rel.cur (h.pagetable _) ?_ fun j _ _ => ?_ <;> by_cases hp : k.sys.cur = p
  · rw [hp, h.self]
  · rw [h.other hp]
  · rw [hp, hv]
  · rw [h.other hp]

theorem Stripped.emptied (he : Emptied (tables k'.procs) k' k'' p pt n)
    (hv : (k'.procs p).vmas = (k.procs p).vmas) : Stripped k k'' p where
  procs := by
    rw [he.procs, h.procs, update_idem]
    simp only [update_self]
  kpages := he.kpages.trans h.kpages
  rel := h.rel.trans he.rel
  idle h0 := by rw [he.idle (by rw [hv]; exact h0)]; exact h.idle h0
  within := h.within.trans he.inside (by rw [he.tables]) fun _ _ => h.inCur hv

theorem Stripped.freed (hv : ∀ j < MAXVMA, ((k'.procs p).vmas j).used = false)
    (hI : MemInv m (tables (update k'.procs p (k'.procs p).clear)) ρ (heldBy L k')) (hR : Release k'.mem m)
    (hS : ∀ r ∈ tables (update k'.procs p (k'.procs p).clear), ∀ n < NUPAGE, leaf m r n = leaf k'.mem r n) :
    Freed k { k' with
      sys := k'.sys.setRun p Run.clear
      mem := m
      procs := update k'.procs p (k'.procs p).clear } p := by
  have hsub : tables (update k'.procs p (k'.procs p).clear) ⊆ tables k'.procs := fun r hr => by
    obtain ⟨i, hi, hir⟩ := mem_tables.mp hr
    have hip : i ≠ p := by rintro rfl; rw [update_self] at hir; cases hir
    rw [update_of_ne hip] at hir
    exact mem_tables.mpr ⟨i, hi, hir⟩
  refine ⟨?_, ?_, h.kpages, Gone.of_rel h.rel (gone_setRun k'.sys (f := Run.clear) rfl), h.rel.held, h.rel.cur,
    h.rel.initproc,
    fun h0 => ⟨?_, ?_⟩, fun r hr n hn hv => h.within r (hsub hr) n hn (by rw [← hS r hr n hn]; exact hv)⟩
  · funext i
    dsimp only
    by_cases hi : i = p
    · rw [hi, update_self, update_self, h.self]; rfl
    · rw [update_of_ne hi, update_of_ne hi, h.other hi]
  · dsimp only
    rw [update_self]
    exact hv
  · obtain ⟨hR1, hS1⟩ := h.idle h0
    refine hI.view_release (heldBy_nonneg L k') (hR1.trans hR) fun r hr n hn => (hS r hr n hn).trans (hS1 r ?_ n hn)
    obtain ⟨i, hi, hir⟩ := mem_tables.mp hr
    have hip : i ≠ p := by rintro rfl; rw [update_self] at hir; cases hir
    rw [update_of_ne hip, h.other hip] at hir
    exact mem_tables.mpr ⟨i, hi, hir⟩
  · exact hR.fails.trans (h.idle h0).1.fails

end

theorem wp_strip (hc : Core W L k) (hp : p < NPROC)
    (h : ∀ k', Core W L k' → Stripped k k' p → k'.procs p = { k.procs p with trapframe := none } → Q () k') :
    wp (kmem (freeFrame (k.procs p).trapframe))
      (fun _ k' => wp (setProc p fun q => { q with trapframe := none }) Q E k') E k := by
  refine wp_freeFrame hc hp fun m hc' hR hS => ?_
  rw [wp_setProc]
  refine h _ hc' ⟨?_, rfl, SysRel.refl _, fun _ => ⟨hR, fun r hr n hn => hS r hr n (NUPAGE_lt hn)⟩, ?_⟩ (update_self ..)
  · dsimp only
    rw [update_self]
  · exact Within.of_same fun r hr n hn => hS r ((tables_update (by rfl)).subset hr) n (NUPAGE_lt hn)

theorem Core.user_page (hc : Core W L k) (hr : r ∈ tables k.procs)
    (hone : ∀ i < NPROC, (k.procs i).pagetable = some r → i = p) (hlt : n < 512 * 512 * 512) (h1 : n ≠ trampPage)
    (h2 : n ≠ framePage p) (hv : (leaf k.mem r n).has PTE_V) : n < NUPAGE := by
  by_contra hn
  have hw := hc.wired r hr
  by_cases hf : ∃ i < NPROC, n = framePage i
  · obtain ⟨i, hi, rfl⟩ := hf
    have hip : i ≠ p := fun hx => h2 (by rw [hx])
    rw [hc.unframed hi hr fun hx => hip (hone i hi hx)] at hv
    cases hv
  · rw [hw.rest n (Nat.le_of_not_lt hn) hlt h1 fun i hi hx => hf ⟨i, hi, hx⟩] at hv
    cases hv

/-- A page of the table at `r` that is neither in the heap nor in a mapping of slot `p`. -/
def Astray (k : Kernel) (p r : Nat) : Prop :=
  ∃ n < NUPAGE, (leaf k.mem r n).has PTE_V = true ∧ ¬ (k.procs p).owns n

theorem wp_freeproc (hc : Core W L k)
    (hk : Runs k ∨ ∀ j < MAXVMA, ((k.procs p).vmas j).used = false) (hp : p < NPROC) (hb : (k.procs p).Bounded)
    (hr : (k.procs p).pagetable = some r)
    (hshare : if (k.procs p).pid = (k.procs p).tgid then ∀ i < NPROC, (k.procs i).pagetable = some r → i = p
      else ∃ l < NPROC, l ≠ p ∧ (k.procs l).pagetable = some r)
    (hsys : ∀ e, E (.sys e))
    (hfw : (k.procs p).pid = (k.procs p).tgid → (k.procs k.sys.cur).pagetable = some r ∨ Astray k p r →
      E (.mem (.panic .freewalkLeaf)))
    (h : ∀ k', Core W L k' → Freed k k' p → Q () k') : wp (freeproc p) Q E k := by
  unfold freeproc
  simp only [wp_bind, wp_getProc]
  refine wp_strip hc hp fun k₁ hc1 hs1 hself1 => ?_
  have hb1 : (k₁.procs p).Bounded := by rw [hself1]; exact ⟨hb.sz, hb.vma⟩
  have hk1' : Runs k₁ ∨ ∀ j < MAXVMA, ((k₁.procs p).vmas j).used = false := by
    refine hk.imp (fun hk => hk.rel hs1.rel ?_ (by rw [hs1.pagetable]; exact hk.table)) fun h0 => by rw [hself1]; exact h0
    by_cases hcur : k.sys.cur = p
    · rw [hcur]; exact hb1
    · rw [hs1.other hcur]; exact hk.bounded
  have hr1 : (k₁.procs p).pagetable = some r := by rw [hself1]; exact hr
  have hmem1 : r ∈ tables k₁.procs := mem_tables.mpr ⟨p, hp, hr1⟩
  have hv1' : (k₁.procs p).vmas = (k.procs p).vmas := by rw [hself1]
  have htf : ∀ {k2 : Kernel} {pt : Option Nat} {n : Nat}, Emptied (tables k₁.procs) k₁ k2 p pt n →
    (k2.procs p).trapframe = none := fun he => by
    rw [he.self, hself1]
  unfold freeTable
  rw [hr1]
  rw [show (k₁.procs p).pid = (k.procs p).pid by rw [hself1], show (k₁.procs p).tgid = (k.procs p).tgid by rw [hself1]]
  refine wp_ite (fun hlead => ?_) fun hlead => ?_
  · rw [if_pos hlead] at hshare
    refine wp_seq (wp_proc_unmap_vmas hc1 hk1' hp hb1 (fun r' hr' => by cases hr'; exact hmem1) hsys fun k2 hc2 he => ?_)
    obtain ⟨ρ2, hI2⟩ := hc2.mem
    have hs2 := hs1.emptied he hv1'
    have hr2 : (k2.procs p).pagetable = some r := (hs2.pagetable p).trans hr
    have hmem2 : r ∈ tables k2.procs := mem_tables.mpr ⟨p, hp, hr2⟩
    have hone : ∀ i < NPROC, (k2.procs i).pagetable = some r → i = p := fun i hi hir =>
      hshare i hi ((hs2.pagetable i).symm.trans hir)
    rw [wp_kmem, show (k₁.procs p).sz = (k2.procs p).sz by rw [he.self]]
    refine wp_proc_freepagetable hI2 (heldBy_nonneg L k2) hmem2 hp (he.bounded hb1).sz (fun n hn hge hv => ?_)
      (fun hx => hfw hlead ?_) fun m ρ hI hS hR => ?_
    rotate_left
    · by_contra hno
      obtain ⟨hcur, hA⟩ := not_or.mp hno
      obtain ⟨n, hlt, hge, h1, h2, hv⟩ := hx
      have hcur1 : (k₁.procs k₁.sys.cur).pagetable ≠ some r := by rw [hs1.pagetable, hs1.rel.cur]; exact hcur
      have hnu := hc2.user_page hmem2 hone hlt h1 h2 hv
      have hv1 := (he.inside r hmem2 n hnu hv).resolve_right fun hy => hcur1 hy.1
      have hv0 := (hs1.within r hmem1 n hnu hv1).resolve_right fun hy => hcur hy.1
      refine hA ⟨n, hnu, hv0, fun ho => ?_⟩
      rcases ho with hlt' | ⟨j, hj, hu, hy⟩
      · rw [he.self, hself1] at hge
        exact not_lt.mpr hge hlt'
      · rw [← hv1'] at hu hy
        have := he.bare r rfl hcur1 j hj hu n hy.1 hy.2
        rw [hv] at this; cases this
    rotate_right
    · by_cases hu : n < NUPAGE
      · exact (hc2.user p hp r hr2 n hu hv).resolve_right (by omega)
      · exact (hc2.kern r hmem2 n (Nat.le_of_not_lt hu) hn).2.2 hv
    · simp only [wp_setProc, wp_setRun]
      have htab : tables (update k2.procs p (k2.procs p).clear) = (tables k2.procs).erase r :=
        tables_clear hr2 rfl hone
      rw [← htab] at hI hS
      refine h _ (hc2.finish hp (htf he) hI (hS.tidy.subset inter_subset_right) fun r' hr' => ?_)
        (hs2.freed he.done hI hR fun r hr n hn => hS r hr n (NUPAGE_lt hn))
      rw [htab, mem_inter, mem_erase] at hr'
      exact hc2.unframed hp hr'.1 fun hx => hr'.2.1 (Option.some.inj (hx.symm.trans hr2))
  · rw [if_neg hlead] at hshare
    obtain ⟨l, hl, hlp, hlr⟩ := hshare
    refine wp_seq (wp_proc_unmap_vmas hc1 hk1' hp hb1 (fun r' hr' => by cases hr') hsys fun k2 hc2 he => ?_)
    obtain ⟨ρ2, hI2⟩ := hc2.mem
    have hs2 := hs1.emptied he hv1'
    have hr2 : (k2.procs p).pagetable = some r := (hs2.pagetable p).trans hr
    rw [wp_kmem]
    refine wp_uvmunmap_kernel hI2 (mem_tables.mpr ⟨p, hp, hr2⟩) (TRAPFRAME_mod p) (TRAPFRAME_lt p) (framePage_user hp)
      fun m hI hQ hC => ?_
    simp only [wp_setProc, wp_setRun]
    have htab : tables (update k2.procs p (k2.procs p).clear) = tables k2.procs :=
      tables_leave hr2 rfl hl hlp ((hs2.pagetable l).trans hlr)
    have hc3 := hc2.unwire hp (htf he) hr2 hI hC
    have h0 : ∀ r' ∈ tables k2.procs, (leaf m r' (framePage p)).has PTE_V = false := fun r' hr' => by
      by_cases hx : (k2.procs p).pagetable = some r'
      · rw [hC r' hr' _ (framePage_lt p)]
        split
        · simp
        · rename_i hv
          rw [Bool.eq_false_iff]
          exact fun hy => hv ⟨Option.some.inj (hx.symm.trans hr2), le_rfl, Nat.lt_succ_self _, hy⟩
      · exact hc3.unframed hp hr' hx
    rw [← htab] at hI hC
    refine h _ (hc3.finish hp (show (k2.procs p).trapframe = none from htf he) hI
      (SameLeaf.tidy (SameLeaf.refl m _)) fun r' hr' => h0 r' (mem_inter.mp hr').1)
      (hs2.freed he.done hI hQ.release fun r hr n hn => ?_)
    refine (hC r hr n (NUPAGE_lt hn)).trans (if_neg ?_)
    have := framePage_user hp
    simp only [framePage] at this
    lia

theorem wp_freeproc_bare (hc : Core W L k) (hp : p < NPROC)
    (hr : (k.procs p).pagetable = none) (hv : ∀ j < MAXVMA, ((k.procs p).vmas j).used = false)
    (h : ∀ k', Core W L k' → Freed k k' p → Q () k') : wp (freeproc p) Q Allowed k := by
  unfold freeproc
  simp only [wp_bind, wp_getProc]
  refine wp_strip hc hp fun k₁ hc1 hs1 hself1 => ?_
  have hr1 : (k₁.procs p).pagetable = none := (hs1.pagetable p).trans hr
  unfold freeTable
  rw [hr1]
  simp only [wp_pure, wp_setProc, wp_setRun]
  obtain ⟨ρ, hI⟩ := hc1.mem
  have htab : tables (update k₁.procs p (k₁.procs p).clear) = tables k₁.procs :=
    tables_update hr1.symm
  rw [← htab] at hI
  exact h _ (hc1.finish hp (by rw [hself1]) hI (SameLeaf.tidy (SameLeaf.refl k₁.mem _)) fun r hr =>
      hc1.unframed hp (mem_inter.mp hr).1 (by rw [hr1]; simp))
    (hs1.freed (by rw [hself1]; exact hv) hI (Release.refl _) fun _ _ _ _ => rfl)

section
omit [Image]

theorem Proc.bounded_of_empty {p : Proc} (h : p.Empty) (hsz : p.sz ≤ TRAPFRAME NPROC) : p.Bounded :=
  ⟨hsz, fun i hi hu => by rw [h.vmas i hi] at hu; cases hu⟩

theorem Freed.self (h : Freed k k' p) : k'.procs p = { k.procs p with
    trapframe := none, pagetable := none, sz := 0, pid := 0, parent := none, vmas := (k'.procs p).vmas } := by
  have := congrFun h.procs p
  rwa [update_self] at this

theorem Freed.other (h : Freed k k' p) (hi : i ≠ p) : k'.procs i = k.procs i := by
  rw [h.procs, update_of_ne hi]

theorem Freed.empty (h : Freed k k' p) (hf : ∀ fd < NOFILE, (k.procs p).ofile fd = none)
    (hc : (k.procs p).cwd = none) : (k'.procs p).Empty ∧ (k'.procs p).Bounded := by
  have he : (k'.procs p).Empty := by
    refine ⟨?_, ?_, ?_, ?_, ?_, h.vmas⟩ <;> rw [h.self]
    exacts [hc, hf]
  exact ⟨he, Proc.bounded_of_empty he (by rw [h.self]; exact Nat.zero_le _)⟩

end

/-! ## `allocproc` -/

omit [Image] in
theorem wp_findUnused {E : SysStop → Prop} {Q : Option Nat → Sys → Prop} (hE : E .acquire)
    (hn : ∀ s', Still s s' → Q none s') (h : ∀ p s', p < NPROC → ¬ s.live p → Still (s.lock (.proc p)) s' → Q (some p) s') :
    wp findUnused Q E s := by
  refine wp_search (fun _ s' => Still s s') (Still.refl s) ?_ fun s' hs => hn s' hs
  intro p s1 _ hp hS1
  simp only [wp_bind]
  refine wp_acquire (fun _ => hE) fun _ => ?_
  simp only [wp_get]
  refine wp_ite (fun hu => wp_ret (h p _ hp ?_ ?_)) fun hu => ?_
  · exact fun hl => hl ((hS1.unused p).mp hu)
  · exact ⟨⟨by simp only [Sys.lock]; rw [hS1.held], hS1.cur, hS1.initproc, hS1.nextpid, hS1.unused, hS1.zombie, hS1.commit⟩,
      hS1.file, hS1.inode⟩
  · exact wp_seq (wp_release (List.mem_cons_self ..) (wp_ret (hS1.trans (Still.refl (s1.lock (.proc p))).unlock)))

omit [Image] in
theorem wp_allocpid {E : SysStop → Prop} {Q : Nat → Sys → Prop} (hE : E .acquire)
    (h : Q s.nextpid { s with nextpid := s.nextpid + 1 }) : wp allocpid Q E s := by
  unfold allocpid
  simp only [wp_bind]
  refine wp_acquire (fun _ => hE) fun _ => ?_
  simp only [wp_get, wp_set]
  refine wp_release (List.mem_cons_self ..) (wp_ret ?_)
  simpa [Sys.lock, Sys.unlock] using h

structure Skipped (k k' : Kernel) : Prop where
  procs : ∀ i, k'.procs i = k.procs i ∨ (¬ k.sys.live i ∧ (k'.procs i).Empty ∧ (k'.procs i).Bounded)
  live : ∀ i, k'.sys.live i ↔ k.sys.live i
  dead : ∀ i, k'.sys.dead i ↔ k.sys.dead i
  nextpid : k.sys.nextpid ≤ k'.sys.nextpid
  held : k'.sys.held = k.sys.held
  cur : k'.sys.cur = k.sys.cur
  initproc : k'.sys.initproc = k.sys.initproc
  kpages : k'.kpages = k.kpages
  mem : k.mem.fails < k'.mem.fails ∨ k'.mem = k.mem
  within : Within k k'

structure Begun (k k' : Kernel) (p : Nat) : Prop where
  slot : p < NPROC
  free : ¬ k.sys.live p
  other : ∀ i, i ≠ p → k'.procs i = k.procs i
  ofile : (k'.procs p).ofile = (k.procs p).ofile
  cwd : (k'.procs p).cwd = (k.procs p).cwd
  vmas : (k'.procs p).vmas = fun _ => Vma.zero
  sz : (k'.procs p).sz = (k.procs p).sz
  lead : (k'.procs p).pid = (k'.procs p).tgid
  born : Born k.sys k'.sys p
  held : k'.sys.held = .proc p :: k.sys.held
  cur : k'.sys.cur = k.sys.cur
  initproc : k'.sys.initproc = k.sys.initproc
  kpages : k'.kpages = k.kpages

structure Made (k k' : Kernel) (p r tf : Nat) : Prop extends Begun k k' p where
  procs : k'.procs = update k.procs p { k.procs p with
    pid := k.sys.nextpid, tgid := k.sys.nextpid, thread_count := 1, vmas := fun _ => Vma.zero, trapframe := some tf,
    pagetable := some r }
  new : r ∉ tables k.procs ∧ r ∈ k.mem.freelist
  table : NewTable k'.mem r p tf
  same : SameLeaf k.mem k'.mem (tables k.procs)
  alloc : Alloc k.mem k'.mem
  file : k'.sys.file = k.sys.file
  inode : k'.sys.inode = k.sys.inode

omit [Image] in
theorem Begun.unlive (hb : Begun k k' p) (hf : Freed k' k'' p) (i : Nat) :
    (k''.sys.live i ↔ k.sys.live i) ∧ (k''.sys.dead i ↔ k.sys.dead i) := by
  rw [hf.gone.live, hf.gone.dead, hb.born.live, hb.born.dead]
  have hfree := hb.free
  have hdead : ¬ k.sys.dead p := fun hd => hfree (by unfold Sys.live; rw [hd]; simp)
  by_cases hi : i = p
  · subst hi; simp [hfree, hdead]
  · simp [hi]

theorem wp_giveBack {Q : Option Nat → Kernel → Prop} (hc : Core W L k₁) (hb : Begun k k₁ p)
    (he : (k.procs p).Empty) (hbd : (k.procs p).Bounded)
    (hpt : ∀ r, (k₁.procs p).pagetable = some r → r ∉ tables k.procs) (hm : k.mem.fails < k₁.mem.fails)
    (hw : ∀ r ∈ tables k.procs, ∀ n < NUPAGE, (leaf k₁.mem r n).has PTE_V → (leaf k.mem r n).has PTE_V)
    (h : ∀ k', Core W L k' → Skipped k k' → Q none k') : wp (giveBack p) Q Allowed k₁ := by
  have hv : ∀ j < MAXVMA, ((k₁.procs p).vmas j).used = false := fun j _ => by rw [hb.vmas]; rfl
  have hend : ∀ k2, Core W L k2 → Freed k₁ k2 p →
      wp (do ksys (release (.proc p)); return none) Q Allowed k2 := fun k2 hc2 hf => by
    obtain ⟨hemp, hbd2⟩ := hf.empty (fun fd hfd => by rw [hb.ofile]; exact he.ofile fd hfd) (by rw [hb.cwd]; exact he.cwd)
    simp only [wp_bind, wp_ksys]
    refine wp_release (by rw [hf.held, hb.held]; exact List.mem_cons_self ..) (wp_ret (h _ ?_ ?_))
    · exact hc2.setSys rfl rfl
    · refine ⟨fun i => ?_, fun i => (hb.unlive hf i).1, fun i => (hb.unlive hf i).2, ?_, ?_, hf.cur.trans hb.cur,
        hf.initproc.trans hb.initproc, hf.kpages.trans hb.kpages, .inl ?_, fun r hr n hn hx => ?_⟩
      · by_cases hi : i = p
        · exact .inr ⟨hi ▸ hb.free, hi ▸ hemp, hi ▸ hbd2⟩
        · exact .inl ((hf.other hi).trans (hb.other i hi))
      · have := hf.gone.nextpid.trans hb.born.nextpid
        change k.sys.nextpid ≤ k2.sys.nextpid
        omega
      · simp [Sys.unlock, hf.held, hb.held]
      · change k.mem.fails < k2.mem.fails
        rw [(hf.idle hv).2]; exact hm
      · obtain ⟨i, hi, hir⟩ := mem_tables.mp hr
        have hip : i ≠ p := by rintro rfl; rw [hf.self] at hir; cases hir
        have hmem : r ∈ tables k.procs := mem_tables.mpr ⟨i, hi, by rw [← hb.other i hip, ← hf.other hip]; exact hir⟩
        refine (hf.within r hr n hn hx).imp (hw r hmem n hn) fun hy => ?_
        have hcp : k.sys.cur ≠ p := fun hc => hpt r (by rw [← hc, ← hb.cur]; exact hy.1) hmem
        refine hy.mono hb.cur ?_ ?_ fun _ _ _ => ?_ <;> rw [hb.other _ hcp]
  unfold giveBack
  rw [wp_bind]
  have hbd1 : (k₁.procs p).Bounded := ⟨by rw [hb.sz]; exact hbd.sz, fun j hj hu => by rw [hv j hj] at hu; cases hu⟩
  cases hr : (k₁.procs p).pagetable with
  | none => exact wp_freeproc_bare hc hb.slot hr hv hend
  | some r =>
    refine wp_freeproc hc (.inr hv) hb.slot hbd1 hr ?_ allowed_sys (fun _ _ => by simp [Allowed]) hend
    rw [if_pos hb.lead]
    intro i hi hir
    by_contra hip
    rw [hb.other i hip] at hir
    exact hpt r hr (mem_tables.mpr ⟨i, hi, hir⟩)

theorem Core.addFrame (hc : Core W L k) (hp : p < NPROC)
    (h0 : (k.procs p).trapframe = none) (h1 : (k.procs p).pagetable = none) (hpage : IsPage tf)
    (hfresh : heldBy L k tf = 0) (hI : MemInv m (tables k.procs) ρ (bump (heldBy L k) tf 1))
    (hS : SameLeaf k.mem m (tables k.procs)) (hq : q = { k.procs p with trapframe := some tf }) :
    Core W L { k with mem := m, procs := update k.procs p q } := by
  have htab : tables (update k.procs p q) = tables k.procs := tables_update (by rw [hq])
  have hheld : heldBy L { k with mem := m, procs := update k.procs p q } = bump (heldBy L k) tf 1 := by
    funext a
    have := @frames_update k.procs p q hp a
    rw [if_neg (by rw [h0]; simp), show q.trapframe = some tf by rw [hq]] at this
    unfold heldBy bump
    dsimp only
    by_cases ha : a = tf
    · rw [if_pos (by rw [ha])] at this; rw [if_pos ha]; omega
    · rw [if_neg (by simpa using Ne.symm ha)] at this; rw [if_neg ha]; omega
  refine hc.change (ρ := ρ) rfl (by rw [hheld, htab]; exact hI) (hS.tidy.subset inter_subset_left) (fun r hr => ?_)
    (fun r hr hn => ?_) (fun r hr => ?_) (fun a ha => ?_) (hc.own_update hp fun a ha => .inr ?_) ?_
  rotate_right 2
  · rw [hq] at ha
    cases ha
    unfold heldBy at hfresh
    omega
  · dsimp only
    rw [fileRefs_same hp (by rw [hq]; exact fun _ => rfl), cwdRefs_same (by rw [hq])]; exact hc.fs
  · have hm := (mem_inter.mp hr).1
    unfold Framed
    rw [if_neg (by rw [hq, h1]; simp)]
    exact hS.tidy.kernel_invalid hm (framePage_user hp) (framePage_lt p) (hc.unframed hp hm (by rw [h1]; simp))
  · rw [hq] at hr
    exact absurd (mem_tables.mpr ⟨p, hp, hr⟩) hn
  · rw [hq] at hr ⊢
    exact (hc.user p hp r hr).tidy (mem_tables.mpr ⟨p, hp, hr⟩) hS.tidy
  · rw [hq] at ha; cases ha; exact hpage

theorem NewTable.leaf_user (h : NewTable m r p tf) (hp : p < NPROC) (hn : n < NUPAGE) :
    leaf m r n = 0#64 := by
  rw [h n (NUPAGE_lt hn), if_neg, if_neg]
  · have := framePage_user hp; omega
  · rintro rfl
    exact absurd hn (by decide)

omit [Image] in
theorem mkPte_kern {perm : Pte} (hU : perm.has PTE_U = false) (hC : perm.has PTE_COW = false)
    (hX : perm.has (PTE_R ||| PTE_W ||| PTE_X)) (pa : Nat) : (mkPte pa perm).has PTE_U = false ∧
      (mkPte pa perm).has PTE_COW = false ∧
      ((mkPte pa perm).has PTE_V → (mkPte pa perm).has (PTE_R ||| PTE_W ||| PTE_X)) := by
  rw [mkPte_rwx]
  exact ⟨(mkPte_has (k := 4) (by decide) (by decide)).trans hU, (mkPte_has (k := 8) (by decide) (by decide)).trans hC,
    fun _ => hX⟩

theorem NewTable.kern (h : NewTable m r p tf) : KernOk m {r} := fun r' hr' n hn hlt => by
  rw [mem_singleton.mp hr', h n hlt]
  split
  · exact mkPte_kern (by decide) (by decide) (by decide) _
  · split
    · exact mkPte_kern (by decide) (by decide) (by decide) _
    · simp

theorem NewTable.wired {procs : Nat → Proc} (h : NewTable m r p tf) (hp : p < NPROC)
    (htf : (procs p).trapframe = some tf) (hr : ∀ i < NPROC, (procs i).pagetable = some r ↔ i = p) : Wired m procs r := by
  refine ⟨?_, fun i hi => ?_, fun n _ hlt h1 h2 => ?_⟩
  · rw [h _ (by decide), if_pos rfl]
  · unfold Framed
    rw [h _ (framePage_lt i), if_neg (framePage_ne hi)]
    by_cases hip : i = p
    · rw [if_pos ((hr i hi).mpr hip), if_pos (by rw [hip])]
      intro a ha
      rw [hip, htf] at ha
      rw [Option.some.inj ha]
    · rw [if_neg fun hx => hip ((hr i hi).mp hx), if_neg fun hx => hip (framePage_inj hi hp hx)]
      simp
  · rw [h n hlt, if_neg h1, if_neg (h2 p hp)]
    simp

theorem Core.addTable (hc : Core W L k) (hp : p < NPROC)
    (h0 : (k.procs p).pagetable = none) (htf : (k.procs p).trapframe = some tf) (hnew : r ∉ tables k.procs)
    (hI : MemInv m (insert r (tables k.procs)) ρ (heldBy L k))
    (hS : SameLeaf k.mem m (tables k.procs)) (hN : NewTable m r p tf) (hq : q = { k.procs p with pagetable := some r }) :
    Core W L { k with mem := m, procs := update k.procs p q } := by
  have htab : tables (update k.procs p q) = insert r (tables k.procs) := tables_set hp h0 (by rw [hq])
  have hheld : heldBy L { k with mem := m, procs := update k.procs p q } = heldBy L k := by
    funext a
    unfold heldBy frames
    simp only [update_apply_congr Proc.trapframe (show q.trapframe = (k.procs p).trapframe by rw [hq])]
  refine hc.change (ρ := ρ) rfl (by rw [hheld, htab]; exact hI) (hS.tidy.subset inter_subset_left) (fun r' hr => ?_)
    (fun r' hr _ => ?_) (fun r' hr n hn hv => ?_) (fun a ha => hc.frame p hp a (by rw [hq] at ha; exact ha))
    (hc.own_update hp fun a ha => .inl (by rw [hq] at ha; exact ha)) ?_
  · have hm := (mem_inter.mp hr).1
    unfold Framed
    rw [if_neg (by rw [hq]; exact fun hx => hnew (Option.some.inj hx ▸ hm))]
    exact hS.tidy.kernel_invalid hm (framePage_user hp) (framePage_lt p) (hc.unframed hp hm (by rw [h0]; simp))
  · rw [hq] at hr; cases hr
    refine ⟨hN.kern, hN.wired hp ?_ fun i hi => ⟨fun hx => ?_, fun hx => ?_⟩⟩ <;> dsimp only at *
    · rw [update_self, hq]; exact htf
    · by_contra hip
      rw [update_of_ne hip] at hx
      exact hnew (mem_tables.mpr ⟨i, hi, hx⟩)
    · rw [hx, update_self, hq]
  · rw [hq] at hr; cases hr
    rw [hN.leaf_user hp hn] at hv; simp at hv
  · dsimp only
    rw [fileRefs_same hp (by rw [hq]; exact fun _ => rfl), cwdRefs_same (by rw [hq])]; exact hc.fs

theorem wp_startSlot (hc : Core W L k) (hs : Slots k.procs k.sys) (hp : p < NPROC)
    (hfree : ¬ k.sys.live p) (hS : Still (k.sys.lock (.proc p)) s)
    (h : ∀ k', Core W L k' → Begun k k' p → k'.mem = k.mem → k'.sys.file = k.sys.file → k'.sys.inode = k.sys.inode →
      k'.procs = update k.procs p { k.procs p with
        pid := k.sys.nextpid, tgid := k.sys.nextpid, thread_count := 1, vmas := fun _ => Vma.zero } → Q () k') :
    wp (startSlot p) Q Allowed { k with sys := s } := by
  have he := hs.unused p hp hfree
  unfold startSlot
  simp only [wp_bind, wp_ksys]
  refine wp_allocpid trivial ?_
  simp only [wp_setProc, wp_setRun]
  generalize hs' : ({ s with nextpid := s.nextpid + 1 } : Sys).setRun p
    (fun r => { r with state := .USED, priority := 0, ticks_used := 0 }) = s'
  have hrun : ∀ j, (s'.run j).state = if j = p then .USED else (s.run j).state := fun j => by
    rw [← hs']
    simp only [Sys.setRun, update_apply]; split <;> rfl
  have hnext : s.nextpid = k.sys.nextpid := hS.nextpid
  have hrefs : ∀ f, ({ k.procs p with
      pid := s.nextpid, tgid := s.nextpid, thread_count := 1, vmas := fun _ => Vma.zero } : Proc).refs f =
      (k.procs p).refs f := fun f => by
    unfold Proc.refs
    congr 1
    exact Tally.count_congr fun j hj => by simp [Vma.zero, he.vmas j hj]
  have hfile : s'.file = k.sys.file := by rw [← hs']; exact hS.file
  have hinode : s'.inode = k.sys.inode := by rw [← hs']; exact hS.inode
  have hc' : Core W L { k with sys := s', procs := update k.procs p { k.procs p with
      pid := s.nextpid, tgid := s.nextpid, thread_count := 1, vmas := fun _ => Vma.zero } } := by
    refine (hc.setSys hfile hinode).setProc hp rfl rfl (fun r hr => ?_) hrefs rfl
    rw [he.pagetable] at hr; cases hr
  refine h _ hc' ?_ rfl hfile hinode (by rw [← hnext])
  · refine ⟨hp, hfree, fun i hi => update_of_ne hi _ _, ?_, ?_, ?_, ?_, ?_, ⟨fun j => ?_, fun j => ?_, ?_⟩, ?_, ?_, ?_, rfl⟩
    iterate 5
      · dsimp only; rw [update_self]
    · have := hS.live j
      simp only [Sys.live, Sys.lock, hrun] at this ⊢
      by_cases hj : j = p
      · simp [hj]
      · simp [hj, this]
    · have := hS.dead j
      simp only [Sys.dead, Sys.lock, hrun] at this ⊢
      by_cases hj : j = p
      · simp [hj]
      · simp [hj, this]
    · rw [← hs', ← hnext]; rfl
    · rw [← hs']; exact hS.held
    · rw [← hs']; exact hS.cur
    · rw [← hs']; exact hS.initproc

omit [Image] in
theorem Begun.set (hb : Begun k k₁ p) (h1 : k2.procs = update k₁.procs p q)
    (h2 : k2.sys = k₁.sys) (h3 : k2.kpages = k₁.kpages)
    (hq : q = { k₁.procs p with trapframe := q.trapframe, pagetable := q.pagetable }) : Begun k k2 p := by
  have h0 : k2.procs p = q := by rw [h1, update_self]
  refine ⟨hb.slot, hb.free, fun i hi => by rw [h1, update_of_ne hi]; exact hb.other i hi, ?_, ?_, ?_, ?_, ?_,
    by rw [h2]; exact hb.born, by rw [h2]; exact hb.held, by rw [h2]; exact hb.cur, by rw [h2]; exact hb.initproc,
    h3.trans hb.kpages⟩ <;> rw [h0, hq]
  exacts [hb.ofile, hb.cwd, hb.vmas, hb.sz, hb.lead]

omit [Image] in
theorem Begun.tables (hb : Begun k k₁ p) (he : (k.procs p).Empty)
    (hpt : (k₁.procs p).pagetable = none) : tables k₁.procs = Xv6.tables k.procs := tables_congr fun i _ => by
  by_cases hi : i = p
  · rw [hi, hpt, he.pagetable]
  · rw [hb.other i hi]

section
variable (hc : Core W L k₁) (hb : Begun k k₁ p) (he : (k.procs p).Empty) (hbd : (k.procs p).Bounded)
include hc hb he hbd

theorem wp_tableSlot {Q : Option Nat → Kernel → Prop} (hA : Alloc k.mem k₁.mem)
    (hS : SameLeaf k.mem k₁.mem (tables k.procs)) (hfile : k₁.sys.file = k.sys.file)
    (hinode : k₁.sys.inode = k.sys.inode) (hproc : k₁.procs p = { k.procs p with
      pid := k.sys.nextpid, tgid := k.sys.nextpid, thread_count := 1, vmas := fun _ => Vma.zero, trapframe := some tf })
    (hn : ∀ k', Core W L k' → Skipped k k' → Q none k')
    (h : ∀ k' r, Core W L k' → Made k k' p r tf → Q (some p) k') : wp (tableSlot p tf) Q Allowed k₁ := by
  obtain ⟨ρ, hI⟩ := hc.mem
  have hpt : (k₁.procs p).pagetable = none := by rw [hproc]; exact he.pagetable
  have htab := hb.tables he hpt
  unfold tableSlot
  simp only [wp_bind, wp_kmem, wp_setProc]
  refine wp_proc_pagetable hI (heldBy_nonneg L k₁) hb.slot (fun m2 ρ2 hI2 hS2 hfail => ?_)
    fun m2 ρ2 r hr hrf hI2 hS2 hA2 hN2 => ?_
  · have hid : update k₁.procs p { k₁.procs p with pagetable := none } = k₁.procs := by
      rw [← hpt]; exact update_eq_self ..
    rw [hid]
    refine wp_giveBack (hc.step hI2 hS2.tidy hc.fs) (hb.set (q := k₁.procs p) (update_eq_self ..).symm rfl rfl rfl)
      he hbd (fun r hr => ?_) (lt_of_le_of_lt hA.fails hfail) (fun r hr n hn hv => ?_) hn
    · rw [hpt] at hr; cases hr
    · rw [htab] at hS2
      rw [← hS r hr n (NUPAGE_lt hn), ← hS2 r hr n (NUPAGE_lt hn)]; exact hv
  · rw [wp_pure]
    refine h _ r (hc.addTable hb.slot hpt (by rw [hproc]) hr hI2 hS2 hN2 rfl) ⟨hb.set rfl rfl rfl rfl, ?_,
      ⟨by rw [← htab]; exact hr, ?_⟩, hN2, ?_, hA.trans hA2, hfile, hinode⟩
    · funext i
      dsimp only
      by_cases hi : i = p
      · rw [hi, update_self, update_self, hproc]
      · rw [update_of_ne hi, update_of_ne hi, hb.other i hi]
    · exact hA.free.subset hrf
    · rw [htab] at hS2
      exact hS.trans hS2

theorem wp_fillSlot {Q : Option Nat → Kernel → Prop} (hm : k₁.mem = k.mem) (hfile : k₁.sys.file = k.sys.file)
    (hinode : k₁.sys.inode = k.sys.inode) (hproc : k₁.procs p = { k.procs p with
      pid := k.sys.nextpid, tgid := k.sys.nextpid, thread_count := 1, vmas := fun _ => Vma.zero })
    (hn : ∀ k', Core W L k' → Skipped k k' → Q none k')
    (h : ∀ k' r tf, Core W L k' → Made k k' p r tf → Q (some p) k') : wp (fillSlot p) Q Allowed k₁ := by
  obtain ⟨ρ, hI⟩ := hc.mem
  have hpt : (k₁.procs p).pagetable = none := by rw [hproc]; exact he.pagetable
  have htf : (k₁.procs p).trapframe = none := by rw [hproc]; exact he.trapframe
  unfold fillSlot
  simp only [wp_bind, wp_kmem, wp_setProc]
  refine wp_kalloc ?_ fun tf rest hf => ?_
  · have hid : update k₁.procs p { k₁.procs p with trapframe := none } = k₁.procs := by
      rw [← htf]; exact update_eq_self ..
    rw [hid]
    have hc' := hc.step (s := k₁.sys) (m := { k₁.mem with calls := k₁.mem.calls + 1, fails := k₁.mem.fails + 1 })
      (hI.congr rfl rfl rfl) (SameLeaf.tidy fun _ _ _ _ => rfl) hc.fs
    refine wp_giveBack hc' (hb.set (q := k₁.procs p) (update_eq_self ..).symm rfl rfl rfl) he hbd
      (fun r hr => ?_) ?_ (fun r hr n _ hv => ?_) hn
    · rw [hpt] at hr; cases hr
    · rw [← hm]; exact Nat.lt_succ_self _
    · rw [← hm]; exact hv
  · have hfm : tf ∈ k₁.mem.freelist := by rw [hf]; exact List.mem_cons_self
    obtain ⟨hpage, -, -, -, hfree⟩ := hI.fresh (heldBy_nonneg L k₁) hfm
    obtain ⟨hI2, hS2, hA2⟩ := hI.take (heldBy_nonneg L k₁) hf
    rw [hb.tables he hpt] at hS2
    rw [hm] at hS2 hA2
    refine wp_tableSlot (hc.addFrame hb.slot htf hpt hpage hfree hI2 ?_ rfl) (hb.set rfl rfl rfl rfl) he hbd
      (by rw [hm]; exact hA2)
      (by rw [hm]; exact hS2) hfile hinode ?_ hn fun k' r => h k' r tf
    · rw [hb.tables he hpt, hm]; exact hS2
    · dsimp only
      rw [update_self, hproc]

end

theorem wp_allocproc {Q : Option Nat → Kernel → Prop} (hc : Core W L k) (hs : Slots k.procs k.sys)
    (hn : ∀ k', Core W L k' → Skipped k k' → Q none k')
    (h : ∀ k' p r tf, Core W L k' → Made k k' p r tf → Q (some p) k') : wp allocproc Q Allowed k := by
  unfold allocproc
  simp only [wp_bind, wp_ksys]
  refine wp_findUnused trivial (fun s' hS => wp_ret (hn _ (hc.setSys hS.file hS.inode) ?_)) fun p s1 hp hfree hS1 => ?_
  · exact ⟨fun _ => .inl rfl, hS.live, hS.dead, le_of_eq hS.nextpid.symm, hS.held, hS.cur, hS.initproc, rfl, .inr rfl,
      Within.of_same fun _ _ _ _ => rfl⟩
  · refine wp_seq (wp_startSlot hc hs hp hfree hS1 fun k₁ hc1 hb1 hm1 hf1 hi1 hp1 => ?_)
    exact wp_fillSlot hc1 hb1 (hs.unused p hp hfree) (hs.bounded p hp) hm1 hf1 hi1 (by rw [hp1, update_self]) hn
      fun k' r tf => h k' p r tf

theorem Inv.skip (h : Inv W L k) (hc : Core W L k') (hs : Skipped k k') : Inv W L k' where
  toCore := hc
  slots := h.slots.skip hs.procs hs.live hs.dead hs.nextpid
  family := by
    have hinit : k'.procs k.sys.initproc = k.procs k.sys.initproc := (hs.procs _).resolve_right fun hx => hx.1 h.family.live
    refine ⟨by rw [hs.initproc]; exact h.family.slot, ?_, ?_, ?_, fun i hi hpar => ?_⟩
    · rw [hs.initproc, hs.live]; exact h.family.live
    · rw [hs.initproc, hs.dead]; exact h.family.alive
    · rw [hs.initproc, hinit]; exact h.family.root
    · rcases hs.procs i with he | ⟨-, he, -⟩
      · rw [he] at hpar; exact h.family.self i hi hpar
      · rw [he.parent] at hpar; cases hpar
  homed i hi hl hd _ := by
    have hl' := (hs.live i).mp hl
    rw [(hs.procs i).resolve_right fun hx => hx.1 hl']
    exact h.homed i hi hl' (fun hx => hd ((hs.dead i).mpr hx)) (by omega)
  held := hs.held.trans h.held

end Xv6
