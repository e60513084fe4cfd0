import Xv6.MemInv

/-!
# What the page-table functions do

One specification for each function of `Vm`, in terms of the entries of the
tables (`leaf`), the accounting (`MemInv`) and what happens to other pages
(`Alloc` or `Release`).
-/

namespace Xv6

open Hoare Function List

variable {a hi lo n oldsz pa : Nat} {perm : Pte} {m' m1 m2 : Mem}

def mkPte (pa : Nat) (perm : Pte) : Pte := PA2PTE pa ||| perm ||| PTE_V

theorem mkPte_eq (pa : Nat) (perm : Pte) : mkPte pa perm = PA2PTE pa ||| (perm ||| PTE_V) := BitVec.or_assoc ..

theorem mkPte_V (pa : Nat) (perm : Pte) : (mkPte pa perm).has PTE_V := by
  rw [mkPte, PTE_V, has_or _ _ (by omega)]
  rw [show Pte.has (flag 0) (flag 0) by decide, Bool.or_true]

theorem mkPte_pa (hp : PaOk pa) (hf : IsFlags perm) : PTE2PA (mkPte pa perm) = pa := by
  rw [mkPte_eq]; exact PTE2PA_mk hp (hf.or (by decide))

theorem mkPte_has (hk : k < 10) (h0 : 0 < k) :
    (mkPte pa perm).has (flag k) = perm.has (flag k) := by
  have : ∀ k : Fin 10, 0 < k.val → Pte.has PTE_V (flag k) = false := by decide
  rw [mkPte_eq, has_mk hk, has_or _ _ (by omega), this ⟨k, hk⟩ h0, Bool.or_false]

theorem refers_mkPte (hp : PaOk pa) (hf : IsFlags perm) :
    Refers (mkPte pa perm) x ↔ x = pa := by
  unfold Refers
  rw [mkPte_V, mkPte_pa hp hf]
  exact ⟨fun h => h.2.symm, fun h => ⟨rfl, h.symm⟩⟩

theorem not_refers (h : e.has PTE_V = false) (x : Nat) : ¬ Refers e x := fun hc => by
  rw [hc.1] at h; cases h

def Cleared (m m' : Mem) (R : Finset Nat) (r lo hi : Nat) : Prop :=
  ∀ r' ∈ R, ∀ n < 512 * 512 * 512,
    leaf m' r' n = if r' = r ∧ lo ≤ n ∧ n < hi ∧ (leaf m r' n).has PTE_V = true then 0#64 else leaf m r' n

structure Quiet (m m' : Mem) : Prop where
  refcnt : m'.refcnt = m.refcnt
  freelist : m'.freelist = m.freelist
  data : m'.data = m.data
  fails : m'.fails = m.fails

theorem Cleared.refl (m : Mem) (R : Finset Nat) (r : Nat) (h : hi ≤ lo) : Cleared m m R r lo hi :=
  fun r' _ n _ => by rw [if_neg (by omega)]

theorem Cleared.trans {mid : Nat} (h : Cleared m1 m2 R r lo mid)
    (h' : Cleared m2 m3 R r mid hi) (h1 : lo ≤ mid) (h2 : mid ≤ hi) : Cleared m1 m3 R r lo hi := by
  intro r' hr' n hn
  rw [h' r' hr' n hn, h r' hr' n hn]
  by_cases hc : r' = r ∧ lo ≤ n ∧ n < mid ∧ (leaf m1 r' n).has PTE_V
  · rw [if_pos hc, if_neg (by omega), if_pos ⟨hc.1, hc.2.1, by omega, hc.2.2.2⟩]
  · rw [if_neg hc]
    by_cases hd : r' = r ∧ mid ≤ n ∧ n < hi ∧ (leaf m1 r' n).has PTE_V
    · rw [if_pos hd, if_pos ⟨hd.1, by omega, hd.2.2.1, hd.2.2.2⟩]
    · rw [if_neg hd, if_neg]
      rintro ⟨h3, h4, h5, h6⟩
      by_cases h7 : n < mid
      · exact hc ⟨h3, h4, h7, h6⟩
      · exact hd ⟨h3, by omega, h5, h6⟩

theorem Cleared.others (h : Cleared m m' R r lo hi) : SameLeaf m m' (R.erase r) :=
  fun r' hr' n hn => by
    rw [h r' (Finset.mem_of_mem_erase hr') n hn, if_neg fun hc => Finset.ne_of_mem_erase hr' hc.1]

theorem Cleared.valid (h : Cleared m m' R r lo hi) (hr : r ∈ R)
    (hn : n < 512 * 512 * 512)
    (hv : (leaf m' r n).has PTE_V) : leaf m' r n = leaf m r n ∧ ¬ (lo ≤ n ∧ n < hi) := by
  have he := h r hr n hn
  by_cases hc : r = r ∧ lo ≤ n ∧ n < hi ∧ (leaf m r n).has PTE_V
  · rw [if_pos hc] at he; rw [he] at hv; simp at hv
  · rw [if_neg hc] at he
    rw [he] at hv
    exact ⟨he, fun hd => hc ⟨rfl, hd.1, hd.2, hv⟩⟩

theorem Quiet.refl (m : Mem) : Quiet m m := ⟨rfl, rfl, rfl, rfl⟩

theorem Quiet.trans (h : Quiet m1 m2) (h' : Quiet m2 m3) : Quiet m1 m3 :=
  ⟨h'.1.trans h.1, h'.2.trans h.2, h'.3.trans h.3, h'.4.trans h.4⟩

theorem wp_mappages (hal : va % PGSIZE = 0)
    (h : wp (mapPage r va pa perm) (fun x m' => Q x.isNone m') E m) : wp (mappages r va PGSIZE pa perm) Q E m := by
  unfold mappages
  simp only [hal, ne_eq, not_true_eq_false, if_false, Nat.mod_self, show PGSIZE ≠ 0 by decide, wp_bind, wp_pure,
    show PGSIZE / PGSIZE = 1 by rfl, search, Nat.zero_mul, add_zero]
  refine wp_post h fun x m' hq => ?_
  cases x with
  | none | some u => exact wp_ret hq

section
variable [Image] {m : Mem} {R : Finset Nat} {ρ : Owners} {H : Nat → Int} {r : Nat} {E : MemStop → Prop}
variable {Q : Unit → Mem → Prop} {va : Nat}

theorem Quiet.release (h : Quiet m m') : Release m m' :=
  ⟨fun _ _ => by rw [h.refcnt], fun _ _ => by rw [h.data], by rw [h.freelist], h.fails⟩

theorem Quiet.alloc (h : Quiet m m') : Alloc m m' :=
  ⟨fun _ _ _ => by rw [h.refcnt], fun _ _ => by rw [h.data], by rw [h.freelist], by rw [h.fails]⟩

theorem Pool.wp_walkFrom_succ {level : Nat} {nd : Node} {Q : Option (Nat × Nat) → Mem → Prop} (hP : Pool m R ρ)
    (ha : ρ a = some (r, nd)) (hd : nd.IsDir) (hi : PX (level + 1) va < 512)
    (hs : ∀ m' ρ' p, Pool m' R ρ' → SameLeaf m m' R → TableGrow m m' ρ ρ' →
      ρ' p = some (r, nd.child (PX (level + 1) va)) → wp (walkFrom va true level p) Q E m')
    (hn : ∀ m', Pool m' R ρ → SameLeaf m m' R → TableGrow m m' ρ ρ → m.fails < m'.fails → Q none m') :
    wp (walkFrom va true (level + 1) a) Q E m := by
  obtain ⟨hr, hok, -⟩ := hP.forest.node a r nd ha
  rw [walkFrom, wp_bind, wp_getPte]
  refine wp_ite (fun hv => ?_) (fun hv => ?_)
  · refine hs m ρ _ hP (SameLeaf.refl _ _) (TableGrow.refl _ _) ?_
    refine hP.forest.own r hr _ _ (Forest.child_ok hok hd hi) ?_
    rw [hP.forest.nodeAddr_child ha hd hi]
    unfold dir; rw [if_pos hv]
  · simp only [not_true_eq_false, if_false, wp_bind]
    refine wp_kalloc ?_ fun f rest hf => ?_
    · refine wp_ret (hn _ ⟨hP.forest.congr fun _ _ _ _ _ => rfl, hP.freeNodup, hP.freeIff, hP.nodePage, hP.excl⟩
        (fun _ _ _ _ => rfl) ⟨⟨fun _ _ _ => rfl, fun _ _ => rfl, suffix_rfl, Nat.le_succ _⟩, fun _ _ => rfl, ?_⟩
        (Nat.lt_succ_self _))
      exact (TableGrow.refl m ρ).nodes
    · have hfm : f ∈ m.freelist := by rw [hf]; exact mem_cons_self
      obtain ⟨hp, h0, hρf⟩ := hP.fresh hfm
      obtain ⟨hP1, hS1, hA1, h1, hidx⟩ := hP.take hf
      have haf : a ≠ f := by rintro rfl; rw [hρf] at ha; cases ha
      have hv1 : ((m.take f rest).pte a (PX (level + 1) va)).has PTE_V = false := by
        rw [show (m.take f rest).pte a = m.pte a from fill_pte_ne haf]; simpa using hv
      obtain ⟨hP2, hS2⟩ := hP1.addPage ha hd hi hv1 hρf hp h1
      simp only [wp_bind, wp_memzero, wp_setPte]
      refine hs _ _ f hP2 (hS1.trans hS2) ⟨hA1.write rfl rfl (fun b hb => fill_data_ne (by rintro rfl; exact hb hfm)) rfl,
        fun x hx => update_of_ne (by rintro rfl; exact hx hρf) _ _, fun x hx => ?_⟩ (update_self ..)
      change (m.take f rest).refcnt (pa2idx x) = _
      by_cases hxf : x = f
      · rw [hxf, h1, h0, hρf, update_self, if_pos ⟨rfl, by simp⟩]
      · rw [hidx x hx hxf, update_of_ne hxf, if_neg fun hc => hc.2 hc.1, add_zero]

theorem Pool.wp_walk_alloc {Q : Option (Nat × Nat) → Mem → Prop} (hP : Pool m R ρ) (hr : r ∈ R) (hva : va < MAXVA)
    (hs : ∀ m' ρ' a, Pool m' R ρ' → SameLeaf m m' R → TableGrow m m' ρ ρ' → ρ' a = some (r, .low (va / 4096 / 512)) →
      Q (some (a, va / 4096 % 512)) m')
    (hn : ∀ m' ρ', Pool m' R ρ' → SameLeaf m m' R → TableGrow m m' ρ ρ' → m.fails < m'.fails → Q none m') :
    wp (walk r va true) Q E m := by
  have h2 := PX_two hva
  have h1 := PX_one va
  have h0 := PX_zero va
  have hlt : va / 4096 / 512 / 512 < 512 := by lia
  unfold walk
  rw [if_neg (by omega)]
  refine hP.wp_walkFrom_succ (hP.forest.root hr) trivial (by rw [h2]; exact hlt) ?_ fun m' hP' hS hM hf =>
    hn m' ρ hP' hS hM hf
  intro m1 ρ1 a1 hP1 hS1 hM1 hρ1
  rw [h2] at hρ1
  refine hP1.wp_walkFrom_succ hρ1 trivial (by rw [h1]; omega) ?_ fun m' hP' hS hM hf =>
    hn m' ρ1 hP' (hS1.trans hS) (hM1.trans hM) (lt_of_le_of_lt hM1.fails hf)
  intro m2 ρ2 a2 hP2 hS2 hM2 hρ2
  rw [walkFrom, wp_pure, h0]
  refine hs m2 ρ2 a2 hP2 (hS1.trans hS2) (hM1.trans hM2) ?_
  rw [hρ2, h1]
  simp only [Node.child, Option.some.injEq, Prod.mk.injEq, Node.low.injEq, true_and]
  omega

theorem wp_walk_alloc {Q : Option (Nat × Nat) → Mem → Prop} (hI : MemInv m R ρ H) (hr : r ∈ R) (hva : va < MAXVA)
    (hs : ∀ m' ρ' a, MemInv m' R ρ' H → SameLeaf m m' R → Alloc m m' → ρ' a = some (r, .low (va / 4096 / 512)) →
      Q (some (a, va / 4096 % 512)) m')
    (hn : ∀ m' ρ', MemInv m' R ρ' H → SameLeaf m m' R → Alloc m m' → m.fails < m'.fails → Q none m') :
    wp (walk r va true) Q E m :=
  hI.pool.wp_walk_alloc hr hva (fun m' ρ' a hP hS hM => hs m' ρ' a (hI.more hP hS hM) hS hM.toAlloc)
    fun m' ρ' hP hS hM => hn m' ρ' (hI.more hP hS hM) hS hM.toAlloc

theorem Pool.pte_eq_leaf (h : Pool m R ρ) (ha : ρ a = some (r, .low (n / 512))) : m.pte a (n % 512) = leaf m r n :=
  (leaf_of_low (h.forest.node a r _ ha).2.2).symm

theorem MemInv.pte_eq_leaf (hI : MemInv m R ρ H) (ha : ρ a = some (r, .low (n / 512))) :
    m.pte a (n % 512) = leaf m r n := hI.pool.pte_eq_leaf ha

theorem wp_mapPage {Q : Option Unit → Mem → Prop} (hI : MemInv m R ρ H)
    (hr : r ∈ R) (hva : va < MAXVA) (hf : IsFlags perm) (hp : va / 4096 < NUPAGE → IsPage pa)
    (hE : (leaf m r (va / 4096)).has PTE_V → E (.panic .remap))
    (hcow : va / 4096 < NUPAGE → ∀ r' ∈ R, ∀ n' < NUPAGE, Refers (leaf m r' n') pa →
      (leaf m r' n').has PTE_W = false ∧ perm.has PTE_W = false)
    (hs : ∀ m' ρ', (leaf m r (va / 4096)).has PTE_V = false →
      MemInv m' R ρ' (if va / 4096 < NUPAGE then bump H pa (-1) else H) →
      LeafUpd m m' R r (va / 4096) (mkPte pa perm) → Alloc m m' → Q none m')
    (hn : ∀ m' ρ', MemInv m' R ρ' H → SameLeaf m m' R → Alloc m m' → m.fails < m'.fails → Q (some ()) m') :
    wp (mapPage r va pa perm) Q E m := by
  refine wp_seq (wp_walk_alloc hI hr hva ?_ fun m' ρ' hI' hS hA hlt => wp_ret (hn m' ρ' hI' hS hA hlt))
  intro m' ρ' a hI' hS hA hρ
  have hlt : va / 4096 < 512 * 512 * 512 := by lia
  have hleaf : m'.pte a (va / 4096 % 512) = leaf m r (va / 4096) := by
    rw [hI'.pte_eq_leaf hρ, hS r hr _ hlt]
  simp only [wp_bind, wp_getPte, hleaf]
  refine wp_ite (fun hv => wp_fail (hE hv)) fun hv => ?_
  have hv' : (leaf m r (va / 4096)).has PTE_V = false := by simpa using hv
  simp only [wp_bind, wp_setPte, wp_pure]
  change Q none (m'.put a (va / 4096 % 512) (mkPte pa perm))
  by_cases hu : va / 4096 < NUPAGE
  · obtain ⟨hI2, hL⟩ := hI'.put (e := mkPte pa perm) hρ hu
      (fun _ => by rw [mkPte_pa (hp hu).paOk hf]; exact hp hu) (by
        intro _ r' hr' n' hn' _ href
        rw [hS r' hr' n' (NUPAGE_lt hn'), mkPte_pa (hp hu).paOk hf] at href
        rw [hS r' hr' n' (NUPAGE_lt hn')]
        have := hcow hu r' hr' n' hn' href
        exact ⟨this.1, by rw [PTE_W, mkPte_has (by omega) (by omega)]; exact this.2⟩)
    refine hs _ ρ' hv' ?_ (fun r' hr' n' hn' => ?_) (hA.write rfl rfl (fun _ _ => rfl) rfl)
    · rw [if_pos hu]
      rw [hS r hr _ hlt] at hI2
      have : bump H pa (-1) = fun x => H x + (if Refers (leaf m r (va / 4096)) x then 1 else 0) -
          (if Refers (mkPte pa perm) x then 1 else 0) := by
        funext x
        rw [if_neg (not_refers hv' x)]
        simp only [refers_mkPte (hp hu).paOk hf, bump]
        split <;> simp [Int.sub_eq_add_neg]
      rw [this]; exact hI2
    · rw [hL r' hr' n' hn', hS r' hr' n' hn']
  · obtain ⟨hI2, hL⟩ := hI'.putKernel hρ (by omega) (mkPte pa perm)
    refine hs _ ρ' hv' ?_ (fun r' hr' n' hn' => ?_) (hA.write rfl rfl (fun _ _ => rfl) rfl)
    · rw [if_neg hu]; exact hI2
    · rw [hL r' hr' n' hn', hS r' hr' n' hn']

theorem wp_mapBeside {Q : Bool → Mem → Prop} (hI : MemInv m R ρ H) (hr : r ∈ R)
    (hal : va % PGSIZE = 0) (hva : va < MAXVA) (hk : NUPAGE ≤ va / 4096) (hn : n / 512 = va / 4096 / 512)
    (hv : (leaf m r n).has PTE_V) (h0 : (leaf m r (va / 4096)).has PTE_V = false)
    (h : ∀ m', MemInv m' R ρ H → LeafUpd m m' R r (va / 4096) (mkPte pa perm) → Quiet m m' → Q true m') :
    wp (mappages r va PGSIZE pa perm) Q E m := by
  obtain ⟨p, hl, -⟩ := low_of_leaf hv
  rw [hn] at hl
  have hlt : va / 4096 / 512 < 512 * 512 := by lia
  have hp := hI.forest.own r hr (.low (va / 4096 / 512)) p hlt hl
  obtain ⟨hI', hL⟩ := hI.putKernel hp hk (mkPte pa perm)
  refine wp_mappages hal ?_
  refine wp_seq (wp_walk_found hva hl ?_)
  simp only [wp_bind, wp_getPte, ← leaf_of_low hl, h0, Bool.false_eq_true, if_false, wp_setPte, wp_pure]
  exact h _ hI' hL ⟨rfl, rfl, rfl, rfl⟩

/-! ## `uvmunmap` -/

omit [Image] in
theorem Cleared.same (hv : (leaf m r n).has PTE_V = false) : Cleared m m R r n (n + 1) := fun r' _ n' _ => by
  rw [if_neg]
  rintro ⟨rfl, h1, h2, h3⟩
  rw [show n' = n by omega, hv] at h3; cases h3

omit [Image] in
theorem LeafUpd.cleared (hL : LeafUpd m1 m' R r n 0#64) (hS : SameLeaf m m1 R)
    (hv : (leaf m r n).has PTE_V) : Cleared m m' R r n (n + 1) := fun r' hr' n' hn' => by
  rw [hL r' hr' n' hn', hS r' hr' n' hn']
  by_cases hc : r' = r ∧ n' = n
  · rw [if_pos hc, if_pos ⟨hc.1, by omega, by omega, by rw [hc.1, hc.2]; exact hv⟩]
  · rw [if_neg hc, if_neg fun hd => hc ⟨hd.1, by omega⟩]

theorem Pool.wp_unmapEntry {do_free : Bool} (hP : Pool m R ρ) (hr : r ∈ R)
    (hva : va < MAXVA) (h0 : (leaf m r (va / 4096)).has PTE_V = false → Q () m)
    (h : ∀ a, ρ a = some (r, .low (va / 4096 / 512)) → (leaf m r (va / 4096)).has PTE_V →
      wp (do if do_free then kfree (PTE2PA (leaf m r (va / 4096)))
             setPte a (va / 4096 % 512) 0#64) Q E m) : wp (unmapPage r va do_free) Q E m := by
  have hlt : va / 4096 < 512 * 512 * 512 := by lia
  unfold unmapPage
  rw [wp_bind, wp_walk_read hva]
  cases hl : low m r (va / 4096 / 512) with
  | none => exact wp_ret (h0 (by rw [leaf_of_none hl]; simp))
  | some a =>
    have ha := hP.forest.low hr (by omega) hl
    rw [Option.map_some]
    rw [wp_bind, wp_getPte, hP.pte_eq_leaf ha]
    exact wp_ite (fun hv => wp_ret (h0 (by simpa using hv))) fun hv => h a ha (by simpa using hv)

section
variable (hI : MemInv m R ρ H)
include hI

theorem wp_unmapPage (hH : ∀ a, 0 ≤ H a) (hr : r ∈ R) (hu : va / 4096 < NUPAGE)
    (h : ∀ m', MemInv m' R ρ H → Release m m' → Cleared m m' R r (va / 4096) (va / 4096 + 1) → Q () m') :
    wp (unmapPage r va true) Q E m := by
  have hva : va < MAXVA := by lia
  refine hI.pool.wp_unmapEntry hr hva (fun hv => h m hI (Release.refl m) (Cleared.same hv)) fun a ha hv => ?_
  simp only [if_true, wp_bind, wp_setPte]
  have hp := hI.leafPage r hr _ hu hv
  have hc := hI.count _ hp
  have hpos := leafRefs_pos hr hu hv
  have hH' := hH (PTE2PA (leaf m r (va / 4096)))
  have hcnt : 0 < m.refcnt (pa2idx (PTE2PA (leaf m r (va / 4096)))) := by split at hc <;> omega
  obtain ⟨hI1, hS1, hR1⟩ := hI.drop hp hcnt (hI.notNode hp (by omega))
  refine wp_kfree hp hcnt ?_
  obtain ⟨hI2, hL⟩ := hI1.put (e := 0#64) ha hu (by simp) (by simp)
  refine h _ ?_ (hR1.trans ⟨fun _ _ => le_rfl, fun _ _ => rfl, suffix_rfl, rfl⟩) (hL.cleared hS1 hv)
  convert hI2 using 1
  funext x
  rw [hS1 r hr _ (NUPAGE_lt hu), if_neg (not_refers (zero_has _) x)]
  by_cases hx : x = PTE2PA (leaf m r (va / 4096))
  · rw [hx, bump_self, if_pos ⟨hv, rfl⟩]; omega
  · rw [bump_of_ne _ _ hx, if_neg fun hc => hx hc.2.symm]; omega

theorem wp_uvmunmap {npages : Nat} (hH : ∀ a, 0 ≤ H a) (hr : r ∈ R)
    (hal : va % PGSIZE = 0) (hu : va / 4096 + npages ≤ NUPAGE)
    (h : ∀ m', MemInv m' R ρ H → Release m m' → Cleared m m' R r (va / 4096) (va / 4096 + npages) → Q () m') :
    wp (uvmunmap r va npages true) Q E m := by
  unfold uvmunmap
  rw [if_neg (by simp [hal])]
  refine wp_post (wp_forN (fun i m' => MemInv m' R ρ H ∧ Release m m' ∧
    Cleared m m' R r (va / 4096) (va / 4096 + i)) ?_ ?_) fun _ m' h' => h m' h'.1 h'.2.1 h'.2.2
  · exact ⟨hI, Release.refl m, Cleared.refl m R r (by omega)⟩
  · intro i m1 hi ⟨hI1, hR1, hC1⟩
    have hdiv : (va + i * PGSIZE) / 4096 = va / 4096 + i := by lia
    refine wp_unmapPage hI1 hH hr (by rw [hdiv]; omega) fun m2 hI2 hR2 hC2 => ?_
    rw [hdiv] at hC2
    exact ⟨hI2, hR1.trans hR2, hC1.trans hC2 (by omega) (by omega)⟩

theorem wp_uvmunmap_kernel (hr : r ∈ R) (hal : va % PGSIZE = 0) (hva : va < MAXVA) (hk : NUPAGE ≤ va / 4096)
    (h : ∀ m', MemInv m' R ρ H → Quiet m m' → Cleared m m' R r (va / 4096) (va / 4096 + 1) → Q () m') :
    wp (uvmunmap r va 1 false) Q E m := by
  unfold uvmunmap
  rw [if_neg (by simp [hal])]
  simp only [forN, wp_bind, wp_pure, Nat.zero_mul, add_zero]
  refine hI.pool.wp_unmapEntry hr hva (fun hv => h m hI (Quiet.refl m) (Cleared.same hv)) fun a ha hv => ?_
  simp only [Bool.false_eq_true, if_false, wp_setPte]
  obtain ⟨hI2, hL⟩ := hI.putKernel ha hk 0#64
  exact h _ hI2 ⟨rfl, rfl, rfl, rfl⟩ (hL.cleared (SameLeaf.refl _ _) hv)

theorem wp_uvmdealloc {newsz : Nat} {Q : Nat → Mem → Prop} (hH : ∀ a, 0 ≤ H a) (hr : r ∈ R)
    (ho : PGROUNDUP oldsz ≤ TRAPFRAME NPROC)
    (h : ∀ m', MemInv m' R ρ H → Release m m' →
      Cleared m m' R r (PGROUNDUP newsz / 4096) (if newsz < oldsz then PGROUNDUP oldsz / 4096 else 0) →
      Q (min oldsz newsz) m') : wp (uvmdealloc r oldsz newsz) Q E m := by
  have hm' := PGROUNDUP_mod newsz
  unfold uvmdealloc
  by_cases hle : oldsz ≤ newsz
  · rw [if_pos hle, wp_pure]
    rw [if_neg (by omega), Nat.min_eq_left hle] at h
    exact h m hI (Release.refl m) (Cleared.refl m R r (by omega))
  · rw [if_neg hle]
    rw [if_pos (by omega), Nat.min_eq_right (by omega)] at h
    by_cases hlt : PGROUNDUP newsz < PGROUNDUP oldsz
    · simp only [hlt, if_true, wp_bind, wp_pure]
      have hu : PGROUNDUP newsz / 4096 + (PGROUNDUP oldsz - PGROUNDUP newsz) / PGSIZE = PGROUNDUP oldsz / 4096 := by
        lia
      refine wp_uvmunmap hI hH hr hm' ?_ fun m' hI' hR hC => h m' hI' hR ?_
      · rw [hu]; exact Nat.div_le_div_right ho
      · rwa [hu] at hC
    · simp only [hlt, if_false, wp_pure]
      exact h m hI (Release.refl m) (Cleared.refl m R r (Nat.div_le_div_right (by omega)))

end

/-! ## `uvmalloc` -/

theorem wp_allocPage {xperm : Pte} {Q : Option Unit → Mem → Prop} (hI : MemInv m R ρ H)
    (hH : ∀ a, 0 ≤ H a) (hr : r ∈ R) (hal : a % PGSIZE = 0) (hu : m.freelist ≠ [] → a / 4096 < NUPAGE)
    (ha : a ≤ TRAPFRAME NPROC) (hf : IsFlags xperm) (ho : oldsz % PGSIZE = 0) (hle : oldsz ≤ a)
    (hE : (leaf m r (a / 4096)).has PTE_V → E (.panic .remap))
    (hs : ∀ m' ρ' pa, MemInv m' R ρ' H → Alloc m m' → (leaf m r (a / 4096)).has PTE_V = false → pa ∈ m.freelist →
      LeafUpd m m' R r (a / 4096) (mkPte pa (PTE_R ||| PTE_U ||| xperm)) → m'.data pa = (fun _ => 0) →
      m'.freelist.length < m.freelist.length → Q none m')
    (hn : ∀ m' ρ', MemInv m' R ρ' H → Cleared m m' R r (oldsz / 4096) (a / 4096) → m.fails < m'.fails →
      Q (some ()) m') : wp (allocPage r a oldsz xperm) Q E m := by
  have hup : ∀ x, x % PGSIZE = 0 → x ≤ TRAPFRAME NPROC → PGROUNDUP x = x := fun x h1 h2 => by
    have := PGROUNDUP_ge h2; have := PGROUNDUP_lt h2; have := PGROUNDUP_mod x
    lia
  have hpa := hup a hal ha
  have hpo := hup oldsz ho (by omega)
  -- undoing the rounds before this one
  have hundo : ∀ m1 ρ1, MemInv m1 R ρ1 H → SameLeaf m m1 R → m.fails < m1.fails →
      wp (uvmdealloc r a oldsz) (fun _ m' => Q (some ()) m') E m1 := fun m1 ρ1 hI1 hS1 hlt => by
    refine wp_uvmdealloc hI1 hH hr (by rw [hpa]; exact ha) fun m' hI' hR hC => hn m' ρ1 hI' ?_ (hR.fails ▸ hlt)
    rw [hpa, hpo] at hC
    intro r' hr' n hn
    rw [hC r' hr' n hn, hS1 r' hr' n hn]
    by_cases hlt : oldsz < a
    · rw [if_pos hlt]
    · rw [if_neg hlt, if_neg (by omega), if_neg]
      have : a = oldsz := by omega
      rw [this]; omega
  refine wp_seq (wp_kalloc ?_ fun f rest hfl => ?_)
  · simp only [wp_bind, wp_pure]
    exact hundo _ ρ (hI.congr rfl rfl rfl) (fun _ _ _ _ => rfl) (Nat.lt_succ_self _)
  · have hfm : f ∈ m.freelist := by rw [hfl]; exact mem_cons_self
    obtain ⟨hp, -, hρf, hl0, -⟩ := hI.fresh hH hfm
    obtain ⟨hI1, hS1, hA1⟩ := hI.takeZero hH hfl
    have hu := hu (by rw [hfl]; simp)
    have hva : a < MAXVA := by lia
    have hlt := NUPAGE_lt hu
    simp only [wp_bind, wp_memzero]
    refine wp_mappages hal (wp_mapPage hI1 hr hva ?_ (fun _ => hp)
      (fun hv => hE (by rwa [hS1 r hr _ hlt] at hv)) ?_ ?_ ?_)
    · exact IsFlags.or (by decide) hf
    · intro _ r' hr' n' hn' href
      have : 0 < leafRefs m R f := by
        rw [hS1 r' hr' n' (NUPAGE_lt hn')] at href
        have := leafRefs_pos hr' hn' href.1
        rwa [href.2] at this
      omega
    · intro m2 ρ2 hv hI2 hL hA2
      rw [if_pos hu, bump_cancel] at hI2
      rw [hS1 r hr _ hlt] at hv
      have hnf : f ∉ ((m.take f rest).fill f 0).freelist := by
        have := hI.freeNodup; rw [hfl, nodup_cons] at this; exact this.1
      refine wp_ret (hs m2 ρ2 f hI2 (hA1.trans hA2) hv hfm (fun r' hr' n hn => ?_) ?_ ?_)
      · rw [hL r' hr' n hn, hS1 r' hr' n hn]
      · rw [hA2.data f hnf]; exact update_self ..
      · refine lt_of_le_of_lt hA2.free.length_le ?_
        rw [hfl]; exact Nat.lt_succ_self _
    · intro m2 ρ2 hI2 hS2 hA2 hlt2
      simp only [Option.isNone_some, Bool.false_eq_true, if_false, wp_bind, wp_pure]
      obtain ⟨hpos, hI3, hS3, hR3⟩ := hI2.dropHeld hp (by rw [bump_self]; have := hH f; omega)
      rw [bump_cancel] at hI3
      refine wp_kfree hp hpos (hundo _ ρ2 hI3 ((hS1.trans hS2).trans hS3) ?_)
      rw [hR3.fails]
      exact lt_of_le_of_lt hA1.fails hlt2

structure Grown (m m' : Mem) (R : Finset Nat) (r lo k : Nat) (perm : Pte) : Prop where
  alloc : Alloc m m'
  new : ∀ n, lo ≤ n → n < lo + k → (leaf m r n).has PTE_V = false ∧
    ∃ pa ∈ m.freelist, leaf m' r n = mkPte pa perm ∧ m'.data pa = fun _ => 0
  old : ∀ r' ∈ R, ∀ n < 512 * 512 * 512, ¬ (r' = r ∧ lo ≤ n ∧ n < lo + k) → leaf m' r' n = leaf m r' n
  length : m'.freelist.length + k ≤ m.freelist.length

theorem Grown.refl (m : Mem) (R : Finset Nat) (r lo : Nat) (perm : Pte) : Grown m m R r lo 0 perm :=
  ⟨Alloc.refl m, fun _ _ _ => by omega, fun _ _ _ _ _ => rfl, le_rfl⟩

theorem Grown.snoc (h : Grown m m1 R r lo k perm) (hA : Alloc m1 m2)
    (hr : r ∈ R) (hlt : lo + k < 512 * 512 * 512) (hv : (leaf m1 r (lo + k)).has PTE_V = false) (hpa : pa ∈ m1.freelist)
    (hL : LeafUpd m1 m2 R r (lo + k) (mkPte pa perm)) (hd : m2.data pa = fun _ => 0)
    (hlen : m2.freelist.length < m1.freelist.length) (hnew : ∀ n, lo ≤ n → n < lo + k → ∀ pa,
      leaf m1 r n = mkPte pa perm → pa ∈ m.freelist → pa ∉ m1.freelist) : Grown m m2 R r lo (k + 1) perm where
  alloc := h.alloc.trans hA
  new n h1 h2 := by
    by_cases hn : n = lo + k
    · subst hn
      rw [h.old r hr _ hlt (by omega)] at hv
      exact ⟨hv, pa, h.alloc.free.subset hpa, by rw [hL r hr _ hlt, if_pos ⟨rfl, rfl⟩], hd⟩
    · obtain ⟨hv', pa', hpa', hl, hd'⟩ := h.new n h1 (by omega)
      refine ⟨hv', pa', hpa', ?_, ?_⟩
      · rw [hL r hr n (by omega), if_neg (fun hc => hn hc.2)]; exact hl
      · rw [hA.data pa' (hnew n h1 (by omega) pa' hl hpa')]; exact hd'
  old r' hr' n hn hc := by
    rw [hL r' hr' n hn, if_neg (by rintro ⟨h1, h2⟩; exact hc ⟨h1, by omega, by omega⟩)]
    exact h.old r' hr' n hn fun hd => hc ⟨hd.1, hd.2.1, by omega⟩
  length := by have := h.length; omega

def SameValid (m m' : Mem) (R : Finset Nat) : Prop :=
  ∀ r ∈ R, ∀ n < 512 * 512 * 512,
    leaf m' r n = leaf m r n ∨ (leaf m' r n = 0#64 ∧ (leaf m r n).has PTE_V = false)

theorem wp_uvmalloc {newsz : Nat} {xperm : Pte} {Q : Nat → Mem → Prop} (hI : MemInv m R ρ H)
    (hH : ∀ a, 0 ≤ H a) (hr : r ∈ R) (hf : IsFlags xperm)
    (hE : (∃ n, PGROUNDUP oldsz / 4096 ≤ n ∧ n < PGROUNDUP oldsz / 4096 + rounds (PGROUNDUP oldsz) newsz ∧
      (leaf m r n).has PTE_V) → E (.panic .remap))
    (hb : PGROUNDUP oldsz / 4096 + min (rounds (PGROUNDUP oldsz) newsz) m.freelist.length ≤ NUPAGE)
    (hsmall : newsz < oldsz → Q oldsz m)
    (hs : ∀ m' ρ', oldsz ≤ newsz → MemInv m' R ρ' H → Grown m m' R r (PGROUNDUP oldsz / 4096)
      (rounds (PGROUNDUP oldsz) newsz) (PTE_R ||| PTE_U ||| xperm) → Q newsz m')
    (hn : ∀ m' ρ', oldsz ≤ newsz → MemInv m' R ρ' H → SameValid m m' R → m.fails < m'.fails → Q 0 m') :
    wp (uvmalloc r oldsz newsz xperm) Q E m := by
  have hm := PGROUNDUP_mod oldsz
  have hflag : IsFlags (PTE_R ||| PTE_U ||| xperm) := IsFlags.or (by decide) hf
  unfold uvmalloc
  by_cases hlt : newsz < oldsz
  · rw [if_pos hlt, wp_pure]; exact hsmall hlt
  rw [if_neg hlt, wp_bind]
  refine wp_search (fun i m' => ∃ ρ', MemInv m' R ρ' H ∧ Grown m m' R r (PGROUNDUP oldsz / 4096) i
    (PTE_R ||| PTE_U ||| xperm)) ⟨ρ, hI, Grown.refl ..⟩ ?_ ?_
  · rintro i m1 - hi ⟨ρ1, hI1, hG1⟩
    have hlen := hG1.length
    have hdiv : (PGROUNDUP oldsz + i * PGSIZE) / 4096 = PGROUNDUP oldsz / 4096 + i := by
      lia
    refine wp_allocPage hI1 hH hr (by lia) ?_ ?_ hf hm (by omega) ?_ ?_ ?_
    · intro hne
      have : 0 < m1.freelist.length := length_pos_iff.mpr hne
      rw [hdiv]; omega
    · lia
    · intro hv
      rw [hdiv, hG1.old r hr _ (by
        lia) (by omega)] at hv
      exact hE ⟨_, by omega, by omega, hv⟩
    · intro m2 ρ2 pa hI2 hA hv hpa hL hd hlen2
      rw [hdiv] at hv hL
      have hl3 : PGROUNDUP oldsz / 4096 + i < 512 * 512 * 512 := by
        lia
      refine ⟨ρ2, hI2, hG1.snoc hA hr hl3 hv hpa hL hd hlen2 ?_⟩
      -- a page that is mapped is not free
      intro n h1 h2 pa' hl hm' hfree
      have hv' : (leaf m1 r n).has PTE_V := by rw [hl]; exact mkPte_V _ _
      have hpos := leafRefs_pos hr (by omega) hv'
      rw [hl, mkPte_pa ((hI.freeIff pa').mp hm').1.paOk hflag] at hpos
      have := (hI1.fresh hH hfree).2.2.2.1
      omega
    · intro m2 ρ2 hI2 hC hlt2
      rw [hdiv] at hC
      simp only [wp_pure]
      refine hn m2 ρ2 (by omega) hI2 (fun r' hr' n hn => ?_) (lt_of_le_of_lt hG1.alloc.fails hlt2)
      rw [hC r' hr' n hn]
      by_cases hc : r' = r ∧ PGROUNDUP oldsz / 4096 ≤ n ∧ n < PGROUNDUP oldsz / 4096 + i
      · obtain ⟨hv, pa, -, hl, -⟩ := hG1.new n hc.2.1 hc.2.2
        rw [hc.1]
        exact .inr ⟨if_pos ⟨rfl, hc.2.1, hc.2.2, by rw [hl]; exact mkPte_V _ _⟩, hv⟩
      · rw [if_neg fun hd => hc ⟨hd.1, hd.2.1, hd.2.2.1⟩]
        exact .inl (hG1.old r' hr' n hn hc)
  · rintro m1 ⟨ρ1, hI1, hG1⟩
    rw [zero_add] at hG1
    simp only [wp_pure]
    exact hs m1 ρ1 (by omega) hI1 hG1

end

theorem rounds_zero (h : sz ≤ TRAPFRAME NPROC) : rounds 0 sz = PGROUNDUP sz / 4096 ∧ rounds 0 sz ≤ NUPAGE := by
  simp only [rounds, PGROUNDUP] at *; lia

variable [Image]

structure Ranged (m : Mem) (i : Nat) : Prop where
  refcnt : m.refcnt = fun _ => 0
  nodup : m.freelist.Nodup
  free : ∀ a, a ∈ m.freelist ↔ ∃ j < i, a = PGROUNDUP Image.kend + j * PGSIZE

theorem isPage_iff :
    IsPage a ↔ ∃ j < (PHYSTOP - PGROUNDUP Image.kend) / PGSIZE, a = PGROUNDUP Image.kend + j * PGSIZE := by
  have hle := Image.kend_le
  unfold IsPage
  simp only [PGROUNDUP, PGSIZE, PHYSTOP, KERNBASE] at *
  constructor
  · intro h
    exact ⟨(a - (Image.kend + 4096 - 1) % 2 ^ 64 / 4096 * 4096) / 4096, by omega, by omega⟩
  · rintro ⟨j, hj, rfl⟩
    omega

theorem wp_kinit (hf : m.freelist = [])
    (h : ∀ m', MemInv m' ∅ (fun _ => none) (fun _ => 0) → Q () m') : wp kinit Q E m := by
  unfold kinit freerange
  rw [wp_bind, wp_modify]
  refine wp_mono (wp_forN (fun i m' => Ranged m' i) ⟨rfl, by rw [hf]; exact nodup_nil, by simp [hf]⟩ ?_) ?_ fun _ hx => hx
  · intro i m1 hi hF
    have hp : IsPage (PGROUNDUP Image.kend + i * PGSIZE) := isPage_iff.mpr ⟨i, hi, rfl⟩
    simp only [wp_bind, wp_modify]
    refine wp_kfree hp (by simp) ?_
    unfold Mem.drop
    rw [if_neg (by simp)]
    refine ⟨?_, ?_, ?_⟩
    · simp only [update_self, update_idem, hF.refcnt]
      exact update_eq_self ..
    · refine nodup_cons.mpr ⟨fun hin => ?_, hF.nodup⟩
      obtain ⟨j, hj, he⟩ := (hF.free _).mp hin
      lia
    · intro a
      simp only [mem_cons, hF.free]
      constructor
      · rintro (h1 | ⟨j, hj, h1⟩)
        · exact ⟨i, by omega, h1⟩
        · exact ⟨j, by omega, h1⟩
      · rintro ⟨j, hj, h1⟩
        by_cases hji : j = i
        · exact .inl (hji ▸ h1)
        · exact .inr ⟨j, by omega, h1⟩
  · intro _ m' hF
    refine h m' ⟨?_, hF.nodup, ?_, by simp, by simp, by simp, ?_, by simp⟩
    · exact ⟨by simp, by simp, by simp⟩
    · intro a
      rw [hF.free, hF.refcnt, isPage_iff]
      simp
    · intro a _
      simp [hF.refcnt, leafRefs]

end Xv6
