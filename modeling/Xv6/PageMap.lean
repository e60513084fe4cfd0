import Xv6.Account

/-!
# Page tables as maps

Whatever is mapped in it, a table made by `uvmcreate` and changed by `walk`,
`mappages` and `uvmunmap` is a map from page numbers to entries. `uvmalloc`
extends the map by new pages or leaves it as it was.
-/

namespace Xv6

open Hoare Function Option
open Finset (mem_singleton_self)

section
variable [Image] {m m' : Mem} {R : Finset Nat} {ρ ρ' : Owners} {r : Nat} {E : MemStop → Prop} {n va : Nat} {ρ₁ : Owners}

theorem Pool.put {a : Nat} (h : Pool m R ρ) (ha : ρ a = some (r, .low (n / 512))) (e : Pte) :
    Pool (m.put a (n % 512) e) R ρ ∧ LeafUpd m (m.put a (n % 512) e) R r n e := by
  obtain ⟨hF, hL⟩ := h.forest.setLeaf ha e (show (m.put a (n % 512) e).pte = _ from rfl)
  exact ⟨⟨hF, h.freeNodup, h.freeIff, h.nodePage, h.excl⟩, hL⟩

omit [Image] in
theorem wp_walk_past {alloc : Bool} {Q : Option (Nat × Nat) → Mem → Prop} (hva : MAXVA ≤ va → E (.panic .walk))
    (h : va < MAXVA → wp (walk r va alloc) Q E m) : wp (walk r va alloc) Q E m := by
  rcases lt_or_ge va MAXVA with hlt | hge
  · exact h hlt
  · unfold walk
    rw [if_pos hge]
    exact wp_fail (hva hge)

theorem Pool.wp_mapPage {pa : Nat} {perm : Pte} {Q : Option Unit → Mem → Prop} (hP : Pool m R ρ) (hr : r ∈ R)
    (hva : MAXVA ≤ va → E (.panic .walk)) (hE : (leaf m r (va / 4096)).has PTE_V = true → E (.panic .remap))
    (hs : ∀ m' ρ', va < MAXVA → (leaf m r (va / 4096)).has PTE_V = false → Pool m' R ρ' →
      LeafUpd m m' R r (va / 4096) (mkPte pa perm) → TableGrow m m' ρ ρ' → Q none m')
    (hn : ∀ m' ρ', Pool m' R ρ' → SameLeaf m m' R → TableGrow m m' ρ ρ' → m.fails < m'.fails → Q (some ()) m') :
    wp (mapPage r va pa perm) Q E m := by
  refine wp_seq (wp_walk_past hva fun hva => hP.wp_walk_alloc hr hva ?_ fun m' ρ' hP' hS hG hlt =>
    wp_ret (hn m' ρ' hP' hS hG hlt))
  intro m' ρ' a hP' hS hG hρ
  have hlt : va / 4096 < 512 * 512 * 512 := by lia
  simp only [wp_bind, wp_getPte, hP'.pte_eq_leaf hρ, hS r hr _ hlt]
  refine wp_ite (fun hv => wp_fail (hE hv)) fun hv => ?_
  simp only [wp_bind, wp_setPte, wp_pure]
  obtain ⟨hP₂, hL⟩ := hP'.put hρ (mkPte pa perm)
  refine hs _ ρ' hva (by simpa using hv) hP₂ (fun r' hr' n hn => ?_)
    ⟨hG.toAlloc.write rfl rfl (fun _ _ => rfl) rfl, hG.keeps, hG.nodes⟩
  rw [← hS r' hr' n hn]
  exact hL r' hr' n hn

theorem wp_kfree_in_use {pa : Nat} {Q : Unit → Mem → Prop} (hE : (IsPage pa ∧ 0 < m.refcnt (pa2idx pa)) ∨ ∀ e, E e)
    (h : IsPage pa → 0 < m.refcnt (pa2idx pa) → Q () (m.drop pa)) : wp (kfree pa) Q E m := by
  by_cases hp : IsPage pa
  · by_cases hr : 0 < m.refcnt (pa2idx pa)
    · exact wp_kfree hp hr (h hp hr)
    · unfold kfree
      simp only [hp, not_true_eq_false, if_false, wp_bind, wp_get, show m.refcnt (pa2idx pa) < 1 by omega, if_true]
      exact wp_fail (hE.resolve_left (fun hc => hr hc.2) _)
  · unfold kfree
    rw [if_pos hp]
    exact wp_fail (hE.resolve_left (fun hc => hp hc.1) _)

theorem Pool.wp_unmapPage {do_free : Bool} {Q : Unit → Mem → Prop} (hP : Pool m R ρ) (hr : r ∈ R)
    (hva : MAXVA ≤ va → E (.panic .walk))
    (hnode : va < MAXVA → do_free = true → (leaf m r (va / 4096)).has PTE_V = true →
      ρ (PTE2PA (leaf m r (va / 4096))) = none)
    (hfree : do_free = true → (leaf m r (va / 4096)).has PTE_V = true →
      (IsPage (PTE2PA (leaf m r (va / 4096))) ∧ 0 < m.refcnt (pa2idx (PTE2PA (leaf m r (va / 4096))))) ∨ ∀ e, E e)
    (h : ∀ m', va < MAXVA → Pool m' R ρ → Cleared m m' R r (va / 4096) (va / 4096 + 1) →
      (∀ x, IsPage x → m'.refcnt (pa2idx x) =
        m.refcnt (pa2idx x) - if do_free = true ∧ Refers (leaf m r (va / 4096)) x then 1 else 0) → Q () m') :
    wp (unmapPage r va do_free) Q E m := by
  rcases lt_or_ge va MAXVA with hlt | hge
  · refine hP.wp_unmapEntry hr hlt (fun hv => h m hlt hP (Cleared.same hv) fun x _ => ?_) fun a ha hv => ?_
    · rw [if_neg fun hc => not_refers hv x hc.2, Nat.sub_zero]
    -- the entry goes, whether or not its page has been freed before
    have hput : ∀ m₁, Pool m₁ R ρ → SameLeaf m m₁ R → (∀ x, IsPage x → m₁.refcnt (pa2idx x) =
        m.refcnt (pa2idx x) - if do_free = true ∧ Refers (leaf m r (va / 4096)) x then 1 else 0) →
        Q () (m₁.put a (va / 4096 % 512) 0#64) := fun m₁ hP1 hS1 hcnt => by
      obtain ⟨hP₂, hL⟩ := hP1.put ha 0#64
      exact h _ hlt hP₂ (hL.cleared hS1 hv) hcnt
    cases do_free with
    | false =>
      simp only [Bool.false_eq_true, if_false, wp_setPte]
      exact hput m hP (SameLeaf.refl _ _) fun x _ => by simp
    | true =>
      simp only [if_true, wp_bind, wp_setPte]
      refine wp_kfree_in_use (hfree rfl hv) fun hp hpos => ?_
      obtain ⟨hP1, hS1, -, hidf, hidx⟩ := hP.drop hp hpos (hnode hlt rfl hv)
      refine hput _ hP1 hS1 fun x hx => ?_
      by_cases hxf : x = PTE2PA (leaf m r (va / 4096))
      · rw [hxf, hidf, if_pos ⟨rfl, hv, rfl⟩]
      · rw [hidx x hx hxf, if_neg fun hc => hxf hc.2.2.symm, Nat.sub_zero]
  · unfold unmapPage
    exact wp_seq (wp_walk_past hva fun hc => absurd hc (not_lt.mpr hge))

def MapsRun (m m' : Mem) (r lo k pa : Nat) (perm : Pte) : Prop :=
  ∀ n < 512 * 512 * 512, leaf m' r n = if lo ≤ n ∧ n < lo + k then mkPte (pa + (n - lo) * PGSIZE) perm else leaf m r n

theorem Pool.wp_mappages {size pa : Nat} {perm : Pte} (hP : Pool m {r} ρ) :
    wp (mappages r va size pa perm) (fun ok m' => (∃ ρ', Pool m' {r} ρ') ∧
      ∃ k ≤ size / PGSIZE, (ok = true → k = size / PGSIZE) ∧ MapsRun m m' r (va / 4096) k pa perm) (fun _ => True) m := by
  refine wp_ite (fun _ => wp_fail trivial) fun hal => wp_ite (fun _ => wp_fail trivial) fun _ =>
    wp_ite (fun _ => wp_fail trivial) fun _ => ?_
  refine wp_seq (wp_search (fun k m' => (∃ ρ', Pool m' {r} ρ') ∧ MapsRun m m' r (va / 4096) k pa perm)
    ⟨⟨ρ, hP⟩, fun n _ => by rw [if_neg (by omega)]⟩ ?_ fun m' hI =>
      wp_ret ⟨hI.1, size / PGSIZE, Nat.le_refl _, fun _ => rfl, by simpa using hI.2⟩)
  rintro k m₁ - hk ⟨⟨ρ₁, hP1⟩, hrun⟩
  have hdiv : (va + k * PGSIZE) / 4096 = va / 4096 + k := by lia
  refine hP1.wp_mapPage (mem_singleton_self r) (fun _ => trivial) (fun _ => trivial) (fun m₂ ρ₂ _ _ hP₂ hL _ => ?_)
    fun m₂ ρ₂ hP₂ hS _ _ => ?_
  · refine ⟨⟨ρ₂, hP₂⟩, fun n hn => ?_⟩
    rw [hL r (mem_singleton_self r) n hn, hdiv]
    by_cases hnk : n = va / 4096 + k
    · rw [if_pos ⟨rfl, hnk⟩, if_pos (by omega), hnk, Nat.add_sub_cancel_left]
    · rw [if_neg fun hc => hnk hc.2, hrun n hn]
      by_cases hin : va / 4096 ≤ n ∧ n < va / 4096 + k
      · rw [if_pos hin, if_pos (by omega)]
      · rw [if_neg hin, if_neg (by omega)]
  · refine wp_ret ⟨⟨ρ₂, hP₂⟩, k, by omega, by simp, fun n hn => ?_⟩
    rw [hS r (mem_singleton_self r) n hn]
    exact hrun n hn

/-- A page of the table itself is not among those that `uvmunmap` frees. -/
def FreesOthers (m : Mem) (r va npages : Nat) : Prop :=
  ∀ n, va / PGSIZE ≤ n → n < va / PGSIZE + npages → (leaf m r n).has PTE_V = true → ¬ OfTable m r (PTE2PA (leaf m r n))

theorem Pool.wp_uvmunmap {npages : Nat} {do_free : Bool} (hP : Pool m {r} ρ)
    (hsafe : do_free = true → FreesOthers m r va npages) :
    wp (uvmunmap r va npages do_free) (fun _ m' => Pool m' {r} ρ ∧ Cleared m m' {r} r (va / 4096) (va / 4096 + npages))
      (fun _ => True) m := by
  refine wp_ite (fun _ => wp_fail trivial) fun hal => ?_
  refine wp_forN (fun i m' => Pool m' {r} ρ ∧ Cleared m m' {r} r (va / 4096) (va / 4096 + i))
    ⟨hP, Cleared.refl m _ r (by omega)⟩ ?_
  rintro i m₁ hi ⟨hP1, hC1⟩
  have hdiv : (va + i * PGSIZE) / 4096 = va / 4096 + i := by lia
  refine hP1.wp_unmapPage (mem_singleton_self r) (fun _ => trivial) (fun hva hf hv => ?_) (fun _ _ => .inr fun _ => trivial)
    fun m₂ _ hP₂ hC2 _ => ⟨hP₂, ?_⟩
  · rw [hdiv] at hv ⊢
    have hlt : va / 4096 + i < 512 * 512 * 512 := by rw [← hdiv]; lia
    obtain ⟨he, -⟩ := hC1.valid (mem_singleton_self r) hlt hv
    rw [he] at hv ⊢
    by_contra hn
    obtain ⟨r', hr', ht⟩ := (hP.forest.ofTable _).mp hn
    exact hsafe hf _ (Nat.le_add_right ..) (Nat.add_lt_add_left hi _) hv (Finset.mem_singleton.mp hr' ▸ ht)
  · rw [hdiv] at hC2
    exact hC1.trans hC2 (by omega) (by omega)

/-! ## Every sequence of calls -/

inductive TableCall
  | walk (va : Nat) (alloc : Bool)
  | mappages (va size pa : Nat) (perm : Pte)
  | uvmunmap (va npages : Nat) (do_free : Bool)

def TableCall.run (r : Nat) : TableCall → M Unit
  | .walk va alloc => do let _ ← Xv6.walk r va alloc
  | .mappages va size pa perm => do let _ ← Xv6.mappages r va size pa perm
  | .uvmunmap va npages do_free => Xv6.uvmunmap r va npages do_free

def TableCall.Safe (r : Nat) : TableCall → Mem → Prop
  | .uvmunmap va npages true, m => FreesOthers m r va npages
  | _, _ => True

def pageMap (m : Mem) (r n : Nat) : Option Pte := if (leaf m r n).has PTE_V then some (leaf m r n) else none

structure IsPageMap (m : Mem) (r : Nat) : Prop where
  slots : ∀ n < 512 * 512 * 512, ∀ n' < 512 * 512 * 512, ∀ a, low m r (n / 512) = some a → low m r (n' / 512) = some a →
    n % 512 = n' % 512 → n = n'
  walk : ∀ va alloc res m', walk r va alloc m = .ok (res, m') → (∀ n < 512 * 512 * 512, pageMap m' r n = pageMap m r n) ∧
    ∀ q, res = some q → m'.pte q.1 q.2 = leaf m r (va / PGSIZE)
  mappages : ∀ va size pa perm ok m', mappages r va size pa perm m = .ok (ok, m') → ∀ n < 512 * 512 * 512,
    if va / PGSIZE ≤ n ∧ n < va / PGSIZE + size / PGSIZE then
      ok = true → pa % PGSIZE = 0 → pa + size ≤ 2 ^ 56 → IsFlags perm →
        ∃ e, pageMap m' r n = some e ∧ PTE2PA e = pa + (n - va / PGSIZE) * PGSIZE ∧ PTE_FLAGS e = perm ||| PTE_V
    else pageMap m' r n = pageMap m r n
  uvmunmap : ∀ va npages do_free m', (TableCall.uvmunmap va npages do_free).Safe r m →
    uvmunmap r va npages do_free m = .ok ((), m') → ∀ n < 512 * 512 * 512,
    pageMap m' r n = if va / PGSIZE ≤ n ∧ n < va / PGSIZE + npages then none else pageMap m r n
  freewalk : (∀ n < 512 * 512 * 512, pageMap m r n = none) → ∃ m', freewalk 2 r m = .ok ((), m') ∧ m'.freelist.Nodup ∧
    ∀ a, IsPage a → (OfTable m r a → m.refcnt (pa2idx a) = 1 ∧ m'.refcnt (pa2idx a) = 0 ∧ a ∈ m'.freelist) ∧
      (¬ OfTable m r a → m'.refcnt (pa2idx a) = m.refcnt (pa2idx a))

section
omit [Image]

theorem pageMap_congr (h : leaf m' r n = leaf m r n) : pageMap m' r n = pageMap m r n := by
  unfold pageMap
  rw [h]

theorem Cleared.pageMap {lo hi : Nat} (h : Cleared m m' R r lo hi) {r' : Nat} (hr : r' ∈ R) (hn : n < 512 * 512 * 512) :
    pageMap m' r' n = if r' = r ∧ lo ≤ n ∧ n < hi then none else pageMap m r' n := by
  have hC := h r' hr n hn
  by_cases hin : r' = r ∧ lo ≤ n ∧ n < hi
  · rw [if_pos hin]
    by_cases hv : (leaf m r' n).has PTE_V = true
    · rw [if_pos ⟨hin.1, hin.2.1, hin.2.2, hv⟩] at hC
      rw [Xv6.pageMap, hC]; rfl
    · rw [if_neg fun hc => hv hc.2.2.2] at hC
      rw [Xv6.pageMap, hC, if_neg hv]
  · rw [if_neg hin]
    rw [if_neg fun hc => hin ⟨hc.1, hc.2.1, hc.2.2.1⟩] at hC
    exact pageMap_congr hC

theorem FLAGS_mkPte {pa : Nat} {perm : Pte} (h : IsFlags perm) : PTE_FLAGS (mkPte pa perm) = perm ||| PTE_V := by
  have hf : IsFlags (perm ||| PTE_V) := h.or (by decide)
  rw [mkPte_eq]
  apply BitVec.eq_of_getLsbD_eq
  intro i _
  by_cases hi : i < 10
  · rw [FLAGS_bit _ hi, mk_bit hi]
  · rw [(isFlags_FLAGS _).high (by omega), hf.high (by omega)]

end

theorem Pool.wp_walk {alloc : Bool} (hP : Pool m {r} ρ) :
    wp (walk r va alloc) (fun res m' => (∃ ρ', Pool m' {r} ρ') ∧ SameLeaf m m' {r} ∧
      ∀ q, res = some q → m'.pte q.1 q.2 = leaf m r (va / 4096)) (fun _ => True) m := by
  refine wp_walk_past (fun _ => trivial) fun hva => ?_
  cases alloc with
  | false =>
    rw [wp_walk_read hva]
    refine ⟨⟨ρ, hP⟩, SameLeaf.refl _ _, fun q hq => ?_⟩
    obtain ⟨a, ha, rfl⟩ := map_eq_some_iff.mp hq
    exact (leaf_of_low ha).symm
  | true =>
    have hlt : va / 4096 < 512 * 512 * 512 := by lia
    refine hP.wp_walk_alloc (mem_singleton_self r) hva (fun m' ρ' a hP' hS _ hρ => ⟨⟨ρ', hP'⟩, hS, fun q hq => ?_⟩)
      fun m' ρ' hP' hS _ _ => ⟨⟨ρ', hP'⟩, hS, by simp⟩
    obtain rfl := some.inj hq
    rw [← hS r (mem_singleton_self r) _ hlt]
    exact hP'.pte_eq_leaf hρ

theorem Pool.wp_uvmcreate (hP : Pool m ∅ ρ) :
    wp uvmcreate (fun res m' => ∀ r, res = some r → (∀ n, leaf m' r n = 0#64) ∧ ∃ ρ', Pool m' {r} ρ') (fun _ => True) m := by
  refine wp_seq (wp_kalloc (wp_ret (by simp)) fun f rest hf => ?_)
  simp only [wp_bind, wp_memzero, wp_pure]
  rintro r ⟨⟩
  obtain ⟨hp, -, hρ⟩ := hP.fresh (by rw [hf]; exact List.mem_cons_self)
  obtain ⟨hP1, -, -, h1, -⟩ := hP.take hf
  obtain ⟨hF, h0, -⟩ := hP1.forest.addRoot hρ (show ((m.take f rest).fill f 0).pte = _ from rfl)
  have hnone : ∀ b, b ≠ f → update ρ f (some (f, Node.root)) b = none := fun b hb => by
    rw [update_of_ne hb]
    by_contra hc
    obtain ⟨x, hx⟩ := ne_none_iff_exists'.mp hc
    have := (hP.forest.node b x.1 x.2 hx).1
    cases this
  refine ⟨h0, _, by simpa using hF, hP1.freeNodup, hP1.freeIff, fun b hb => ?_, fun b hb => ?_⟩
  all_goals obtain rfl : b = f := by_contra fun hc => hb (hnone b hc)
  · exact hp
  · exact h1

theorem Pool.memInv (hP : Pool m {r} ρ) (h0 : ∀ n < 512 * 512 * 512, (leaf m r n).has PTE_V = false) :
    MemInv m {r} ρ fun a => (m.refcnt (pa2idx a) : Int) - if ρ a = none then 0 else 1 := by
  have hno : ∀ r' ∈ ({r} : Finset Nat), ∀ n < NUPAGE, (leaf m r' n).has PTE_V = false := fun r' hr' n hn =>
    Finset.mem_singleton.mp hr' ▸ h0 n (NUPAGE_lt hn)
  refine ⟨hP.forest, hP.freeNodup, hP.freeIff, hP.nodePage, hP.excl, fun r' hr' n hn hv => ?_, fun a _ => ?_,
    fun r' hr' _ _ n hn _ _ _ hv => ?_⟩
  · rw [hno r' hr' n hn] at hv; cases hv
  · have : leafRefs m {r} a = 0 := by
      unfold leafRefs
      rw [Finset.sum_singleton]
      exact Nat.count_of_forall_not fun n hn hc => not_refers (hno r (mem_singleton_self r) n hn) a hc
    split <;> omega
  · rw [hno r' hr' n hn] at hv; cases hv

theorem Pool.isPageMap (hP : Pool m {r} ρ) : IsPageMap m r where
  slots n hn n' hn' a ha ha' hmod := by
    have h1 := hP.forest.low (mem_singleton_self r) (by omega) ha
    have h2 := hP.forest.low (mem_singleton_self r) (by omega) ha'
    have : n / 512 = n' / 512 := by simpa using h1.symm.trans h2
    omega
  walk va alloc res m' hw := by
    obtain ⟨-, hS, hq⟩ := wp_ok hP.wp_walk hw
    exact ⟨fun n hn => pageMap_congr (hS r (mem_singleton_self r) n hn), hq⟩
  mappages va size pa perm ok m' hm n hn := by
    obtain ⟨-, k, hk, hok, hrun⟩ := wp_ok hP.wp_mappages hm
    have hleaf := hrun n hn
    by_cases hin : va / PGSIZE ≤ n ∧ n < va / PGSIZE + size / PGSIZE
    · rw [if_pos hin]
      intro htrue hal hmax hf
      rw [if_pos (by rw [hok htrue]; exact hin)] at hleaf
      have hpa : PaOk (pa + (n - va / 4096) * PGSIZE) := by
        simp only [PaOk] at *; lia
      refine ⟨leaf m' r n, by rw [pageMap, hleaf, if_pos (mkPte_V _ _)], ?_, ?_⟩
      · rw [hleaf]; exact mkPte_pa hpa hf
      · rw [hleaf]; exact FLAGS_mkPte hf
    · rw [if_neg hin]
      rw [if_neg (by lia)] at hleaf
      exact pageMap_congr hleaf
  uvmunmap va npages do_free m' hs hu n hn := by
    have hC := (wp_ok (hP.wp_uvmunmap fun hf => by subst hf; exact hs) hu).2
    simpa using hC.pageMap (mem_singleton_self r) hn
  freewalk h0 := by
    have hempty : ∀ n < 512 * 512 * 512, (leaf m r n).has PTE_V = false := fun n hn => by
      by_contra hv
      have := h0 n hn
      rw [pageMap, if_pos (by simpa using hv)] at this
      cases this
    have hI := hP.memInv hempty
    have hH : ∀ a, 0 ≤ (m.refcnt (pa2idx a) : Int) - if ρ a = none then 0 else 1 := fun a => by
      by_cases hρ : ρ a = none
      · simp [hρ]
      · simp [hρ, hP.excl a hρ]
    obtain ⟨u, m', hrun, ρ', hI'⟩ := wp_total (wp_freewalk (E := fun _ => False)
      (Q := fun _ m' => ∃ ρ', MemInv m' ∅ ρ' fun a => (m.refcnt (pa2idx a) : Int) - if ρ a = none then 0 else 1) hI hH
      (mem_singleton_self r) (fun n hn hv => absurd hv (by simp [hempty n hn]))
      (fun ⟨n, hn, hv⟩ => absurd hv (by simp [hempty n hn])) fun m' ρ' hI' _ _ => ⟨ρ', by simpa using hI'⟩)
    refine ⟨m', hrun, hI'.freeNodup, fun a ha => ?_⟩
    have hnone : ρ' a = none := by
      by_contra hn
      obtain ⟨r', hr', -⟩ := (hI'.forest.ofTable a).mp hn
      cases hr'
    have hc := hI'.count a ha
    have hiff : ρ a ≠ none ↔ OfTable m r a := by rw [hP.forest.ofTable]; simp
    rw [hnone, if_pos rfl, show leafRefs m' ∅ a = 0 from rfl] at hc
    constructor
    · intro ht
      have h1 := hP.excl a (hiff.mpr ht)
      rw [if_neg (hiff.mpr ht), h1] at hc
      have hz : m'.refcnt (pa2idx a) = 0 := by omega
      exact ⟨h1, hz, (hI'.freeIff a).mpr ⟨ha, hz⟩⟩
    · intro ht
      rw [if_pos (not_not.mp fun hc => ht (hiff.mp hc))] at hc
      omega

/-! ## Growing, and taking it back -/

structure Added (m m' : Mem) (R : Finset Nat) (ρ ρ' : Owners) (r lo k : Nat) (perm : Pte) (pg : Nat → Nat) : Prop where
  pool : Pool m' R ρ'
  keeps : ∀ a, ρ a ≠ none → ρ' a = ρ a
  below : ∀ n, lo ≤ n → n < lo + k → n < 512 * 512 * 256
  maps : ∀ r' ∈ R, ∀ n < 512 * 512 * 512,
    pageMap m' r' n = if r' = r ∧ lo ≤ n ∧ n < lo + k then some (mkPte (pg n) perm) else pageMap m r' n
  new : ∀ n, lo ≤ n → n < lo + k → pg n ∈ m.freelist ∧ ρ' (pg n) = none
  inj : ∀ n, lo ≤ n → n < lo + k → ∀ n', lo ≤ n' → n' < lo + k → pg n = pg n' → n = n'
  refcnt : ∀ x, IsPage x → m'.refcnt (pa2idx x) = m.refcnt (pa2idx x) + (if ρ x = none ∧ ρ' x ≠ none then 1 else 0) +
    if ∃ n < lo + k, lo ≤ n ∧ pg n = x then 1 else 0

theorem TableGrow.other (h : TableGrow m m' ρ ρ') (hP : Pool m' R ρ') {x : Nat} (hx : IsPage x) (hρ : ρ x = none)
    (hc : m.refcnt (pa2idx x) ≠ 0) : ρ' x = none := by
  by_contra hn
  have h1 := h.nodes x hx
  rw [if_pos ⟨hρ, hn⟩, hP.excl x hn] at h1
  omega

namespace Added

variable {lo k : Nat} {perm : Pte} {pg : Nat → Nat}

theorem refl (hP : Pool m R ρ) (lo : Nat) (perm : Pte) (pg : Nat → Nat) : Added m m R ρ ρ r lo 0 perm pg where
  pool := hP
  keeps _ _ := rfl
  below n _ _ := by omega
  maps r' _ n _ := by rw [if_neg (by omega)]
  new n _ _ := by omega
  inj n _ _ := by omega
  refcnt x _ := by rw [if_neg fun hc => hc.2 hc.1, if_neg (by rintro ⟨n, h1, h2, -⟩; omega), Nat.add_zero]

section
variable (h : Added m m' R ρ ρ' r lo k perm pg)
include h

theorem fresh (hP : Pool m R ρ) {f : Nat} (hf : f ∈ m'.freelist) :
    f ∈ m.freelist ∧ IsPage f ∧ ρ' f = none ∧ ∀ n, lo ≤ n → n < lo + k → pg n ≠ f := by
  obtain ⟨hp, h0, hρ⟩ := h.pool.fresh hf
  have hc := h.refcnt f hp
  refine ⟨(hP.freeIff f).mpr ⟨hp, by omega⟩, hp, hρ, fun n h1 h2 he => ?_⟩
  rw [h0, if_pos (show ∃ n < lo + k, lo ≤ n ∧ pg n = f from ⟨n, h2, h1, he⟩)] at hc
  omega

theorem one (hP : Pool m R ρ) (h1 : lo ≤ n) (h2 : n < lo + k) :
    IsPage (pg n) ∧ m'.refcnt (pa2idx (pg n)) = 1 := by
  obtain ⟨hf, hρ⟩ := h.new n h1 h2
  obtain ⟨hp, h0⟩ := (hP.freeIff _).mp hf
  have hc := h.refcnt _ hp
  rw [h0, if_neg fun hc => hc.2 hρ, if_pos (show ∃ n' < lo + k, lo ≤ n' ∧ pg n' = pg n from ⟨n, h2, h1, rfl⟩)] at hc
  exact ⟨hp, hc⟩

theorem leaf (hr : r ∈ R) (h1 : lo ≤ n) (h2 : n < lo + k) :
    Xv6.leaf m' r n = mkPte (pg n) perm := by
  have hm := h.maps r hr n (by have := h.below n h1 h2; omega)
  rw [if_pos ⟨rfl, h1, h2⟩, pageMap] at hm
  split at hm
  · exact some.inj hm
  · cases hm

end

section
variable {m₁ m₂ : Mem} {ρ₁ ρ₂ : Owners} {f : Nat} {rest : List Nat}
variable (h : Added m m₁ R ρ ρ₁ r lo k perm pg) (hP : Pool m R ρ) (hfl : m₁.freelist = f :: rest) (hP₂ : Pool m₂ R ρ₂)
  (hG : TableGrow ((m₁.take f rest).fill f 0) m₂ ρ₁ ρ₂)
include h hP hfl hP₂ hG

theorem taken : (∀ a, ρ a ≠ none → ρ₂ a = ρ a) ∧ (ρ₂ f = none ∧ m₂.data f = fun _ => 0) ∧
    (∀ n, lo ≤ n → n < lo + k → ρ₂ (pg n) = none ∧ m₂.data (pg n) = m₁.data (pg n)) ∧
    ∀ x, IsPage x → m₂.refcnt (pa2idx x) = m.refcnt (pa2idx x) + (if ρ x = none ∧ ρ₂ x ≠ none then 1 else 0) +
      (if ∃ n < lo + k, lo ≤ n ∧ pg n = x then 1 else 0) + if x = f then 1 else 0 := by
  have hfm : f ∈ m₁.freelist := by rw [hfl]; exact List.mem_cons_self
  obtain ⟨-, hp, hρf, hne⟩ := h.fresh hP hfm
  obtain ⟨-, h0, -⟩ := h.pool.fresh hfm
  obtain ⟨-, -, hA, h1, hx⟩ := h.pool.take hfl
  have hnf : f ∉ rest := by have := h.pool.freeNodup; rw [hfl, List.nodup_cons] at this; exact this.1
  refine ⟨fun a ha => ?_, ⟨?_, ?_⟩, fun n h1 h2 => ⟨?_, ?_⟩, fun x hpx => ?_⟩
  · rw [hG.keeps a (by rw [h.keeps a ha]; exact ha), h.keeps a ha]
  · exact hG.other hP₂ hp hρf (by rw [show ((m₁.take f rest).fill f 0).refcnt = (m₁.take f rest).refcnt from rfl, h1]; omega)
  · rw [hG.data f hnf]
    exact update_self ..
  · obtain ⟨hpn, hone⟩ := h.one hP h1 h2
    refine hG.other hP₂ hpn (h.new n h1 h2).2 ?_
    rw [show ((m₁.take f rest).fill f 0).refcnt = (m₁.take f rest).refcnt from rfl, hx _ hpn (hne n h1 h2), hone]
    omega
  · obtain ⟨hpn, hone⟩ := h.one hP h1 h2
    have hnfree : pg n ∉ m₁.freelist := fun hc => by have := ((h.pool.freeIff _).mp hc).2; omega
    rw [hG.data _ fun hc => hnfree (by rw [hfl]; exact List.mem_cons_of_mem _ hc), fill_data_ne (hne n h1 h2),
      hA.data _ hnfree]
  · have hz : ((m₁.take f rest).fill f 0).refcnt (pa2idx x) = m₁.refcnt (pa2idx x) + if x = f then 1 else 0 := by
      rw [show ((m₁.take f rest).fill f 0).refcnt = (m₁.take f rest).refcnt from rfl]
      by_cases hxf : x = f
      · rw [if_pos hxf, hxf, h1, h0]
      · rw [if_neg hxf, hx x hpx hxf, add_zero]
    have hown : (if ρ x = none ∧ ρ₁ x ≠ none then 1 else 0) + (if ρ₁ x = none ∧ ρ₂ x ≠ none then 1 else 0) =
        if ρ x = none ∧ ρ₂ x ≠ none then 1 else 0 := by
      have hk1 := h.keeps x
      have hk2 := hG.keeps x
      by_cases hρ : ρ x = none <;> by_cases hρ1 : ρ₁ x = none <;> simp_all
    rw [hG.nodes x hpx, hz, h.refcnt x hpx, ← hown]
    omega

theorem snoc (hlt : lo + k < 512 * 512 * 256)
    (hL : LeafUpd ((m₁.take f rest).fill f 0) m₂ R r (lo + k) (mkPte f perm)) :
    Added m m₂ R ρ ρ₂ r lo (k + 1) perm (update pg (lo + k) f) ∧
      ((∀ n, lo ≤ n → n < lo + k → m₁.data (pg n) = fun _ => 0) →
        ∀ n, lo ≤ n → n < lo + (k + 1) → m₂.data (update pg (lo + k) f n) = fun _ => 0) := by
  have hfm : f ∈ m₁.freelist := by rw [hfl]; exact List.mem_cons_self
  obtain ⟨hfm0, hp, hρf, hne⟩ := h.fresh hP hfm
  obtain ⟨hkeep, hf, hold, hcnt⟩ := h.taken hP hfl hP₂ hG
  have hS : SameLeaf m₁ ((m₁.take f rest).fill f 0) R :=
    (h.pool.take hfl).2.1.trans ((h.pool.take hfl).1.fill hρf 0).2
  have hpg : ∀ n, n < lo + k → update pg (lo + k) f n = pg n := fun n hn => update_of_ne (by omega) ..
  have hlast : update pg (lo + k) f (lo + k) = f := update_self ..
  have hsplit : ∀ n, n < lo + (k + 1) → n < lo + k ∨ n = lo + k := fun n hn => by omega
  refine ⟨⟨hP₂, hkeep, fun n h1 h2 => ?_, fun r' hr' n hn => ?_, fun n h1 h2 => ?_, fun n h1 h2 n' h1' h2' he => ?_,
    fun x hpx => ?_⟩, fun hz n h1 h2 => ?_⟩
  · rcases hsplit n h2 with h2 | rfl
    · exact h.below n h1 h2
    · exact hlt
  · by_cases hnk : r' = r ∧ n = lo + k
    · have hl : Xv6.leaf m₂ r' (lo + k) = mkPte f perm := (hL r' hr' _ (by omega)).trans (if_pos ⟨hnk.1, rfl⟩)
      rw [if_pos ⟨hnk.1, by omega⟩, hnk.2, hlast, pageMap, hl, if_pos (mkPte_V _ _)]
    · have hl := (hL r' hr' n hn).trans (if_neg hnk)
      rw [pageMap_congr (hl.trans (hS r' hr' n hn)), h.maps r' hr' n hn]
      by_cases hin : r' = r ∧ lo ≤ n ∧ n < lo + k
      · rw [if_pos hin, if_pos ⟨hin.1, by omega⟩, hpg n hin.2.2]
      · rw [if_neg hin, if_neg fun hc => hin ⟨hc.1, hc.2.1, (hsplit n hc.2.2).resolve_right fun he => hnk ⟨hc.1, he⟩⟩]
  · rcases hsplit n h2 with h2 | rfl
    · rw [hpg n h2]
      exact ⟨(h.new n h1 h2).1, (hold n h1 h2).1⟩
    · rw [hlast]
      exact ⟨hfm0, hf.1⟩
  · rcases hsplit n h2 with h2 | rfl <;> rcases hsplit n' h2' with h2' | rfl
    · rw [hpg n h2, hpg n' h2'] at he
      exact h.inj n h1 h2 n' h1' h2' he
    · rw [hpg n h2, hlast] at he
      exact absurd he (hne n h1 h2)
    · rw [hpg n' h2', hlast] at he
      exact absurd he.symm (hne n' h1' h2')
    · rfl
  · rw [hcnt x hpx, add_assoc]
    congr 1
    by_cases hxf : x = f
    · subst hxf
      rw [if_neg (by rintro ⟨n, h2, h1, he⟩; exact hne n h1 h2 he), if_pos rfl, if_pos ⟨lo + k, by omega, by omega, hlast⟩]
    · rw [if_neg hxf, add_zero]
      refine if_congr ⟨fun ⟨n, h2, h1, he⟩ => ⟨n, by omega, h1, by rw [hpg n h2, he]⟩, fun ⟨n, h2, h1, he⟩ => ?_⟩ rfl rfl
      rcases hsplit n h2 with h2 | rfl
      · exact ⟨n, h2, h1, by rw [← he, hpg n h2]⟩
      · exact absurd (he.symm.trans hlast) hxf
  · rcases hsplit n h2 with h2 | rfl
    · rw [hpg n h2, (hold n h1 h2).2, hz n h1 h2]
    · rw [hlast, hf.2]

theorem back (hS2 : SameLeaf ((m₁.take f rest).fill f 0) m₂ R) : IsPage f ∧ 0 < m₂.refcnt (pa2idx f) ∧
    Added m (m₂.drop f) R ρ ρ₂ r lo k perm pg := by
  have hfm : f ∈ m₁.freelist := by rw [hfl]; exact List.mem_cons_self
  obtain ⟨hfm0, hp, hρf, hne⟩ := h.fresh hP hfm
  obtain ⟨hkeep, hf, hold, hcnt⟩ := h.taken hP hfl hP₂ hG
  have hS : SameLeaf m₁ ((m₁.take f rest).fill f 0) R :=
    (h.pool.take hfl).2.1.trans ((h.pool.take hfl).1.fill hρf 0).2
  have hpos : 0 < m₂.refcnt (pa2idx f) := by rw [hcnt f hp, if_pos rfl]; omega
  obtain ⟨hP3, hS3, -, hidf, hidx⟩ := hP₂.drop hp hpos hf.1
  refine ⟨hp, hpos, hP3, hkeep, h.below, fun r' hr' n hn => ?_, fun n h1 h2 => ⟨(h.new n h1 h2).1, (hold n h1 h2).1⟩,
    h.inj, fun x hpx => ?_⟩
  · rw [pageMap_congr (((hS.trans hS2).trans hS3) r' hr' n hn), h.maps r' hr' n hn]
  · by_cases hxf : x = f
    · rw [hxf, hidf, hcnt f hp, if_pos rfl]; omega
    · rw [hidx x hpx hxf, hcnt x hpx, if_neg hxf, add_zero]

end

theorem tail {m₁ m₂ : Mem} (h : Added m m₁ R ρ ρ₁ r lo (k + 1) perm pg) (hP : Pool m R ρ) (hf : IsFlags perm)
    (hr : r ∈ R) (hno : pageMap m r lo = none) (hP₂ : Pool m₂ R ρ₁) (hC : Cleared m₁ m₂ R r lo (lo + 1))
    (hcnt : ∀ x, IsPage x → m₂.refcnt (pa2idx x) = m₁.refcnt (pa2idx x) - if Refers (Xv6.leaf m₁ r lo) x then 1 else 0) :
    Added m m₂ R ρ ρ₁ r (lo + 1) k perm pg := by
  have hleaf : Xv6.leaf m₁ r lo = mkPte (pg lo) perm := h.leaf hr (by omega) (by omega)
  have hp : IsPage (pg lo) := (h.one hP (Nat.le_refl lo) (by omega)).1
  refine ⟨hP₂, h.keeps, fun n h1 h2 => h.below n (by omega) (by omega), fun r' hr' n hn => ?_,
    fun n h1 h2 => h.new n (by omega) (by omega),
    fun n h1 h2 n' h1' h2' => h.inj n (by omega) (by omega) n' (by omega) (by omega), fun x hpx => ?_⟩
  · rw [hC.pageMap hr' hn, h.maps r' hr' n hn]
    by_cases hnl : r' = r ∧ n = lo
    · rw [if_pos ⟨hnl.1, by omega⟩, if_neg (by omega), hnl.1, hnl.2, hno]
    · rw [if_neg fun hc => hnl ⟨hc.1, by omega⟩]
      exact if_congr ⟨fun hc => ⟨hc.1, by have : n ≠ lo := fun he => hnl ⟨hc.1, he⟩; omega⟩,
        fun hc => ⟨hc.1, by omega⟩⟩ rfl rfl
  · rw [hcnt x hpx, h.refcnt x hpx, hleaf]
    by_cases hx : x = pg lo
    · have hgone : ¬ ∃ n < lo + 1 + k, lo + 1 ≤ n ∧ pg n = x := by
        rintro ⟨n, h2, h1, he⟩
        have := h.inj n (by omega) (by omega) lo (by omega) (by omega) (he.trans hx)
        omega
      rw [if_pos ((refers_mkPte hp.paOk hf).mpr hx),
        if_pos (show ∃ n < lo + (k + 1), lo ≤ n ∧ pg n = x from ⟨lo, by omega, by omega, hx.symm⟩), if_neg hgone]
      omega
    · rw [if_neg fun hc => hx ((refers_mkPte hp.paOk hf).mp hc), Nat.sub_zero]
      congr 1
      refine if_congr ⟨fun ⟨n, h2, h1, he⟩ => ⟨n, by omega, ?_, he⟩, fun ⟨n, h2, h1, he⟩ =>
        ⟨n, by omega, by omega, he⟩⟩ rfl rfl
      have : n ≠ lo := by rintro rfl; exact hx he.symm
      omega

end Added

structure GrowthUndone (m m' : Mem) (R : Finset Nat) : Prop where
  maps : ∀ r ∈ R, ∀ n < 512 * 512 * 512, pageMap m' r n = pageMap m r n
  used : ∀ x, IsPage x → m.refcnt (pa2idx x) ≠ 0 → m'.refcnt (pa2idx x) = m.refcnt (pa2idx x)
  unused : ∀ x, IsPage x → m.refcnt (pa2idx x) = 0 → m'.refcnt (pa2idx x) = 0 ∨ ∃ r ∈ R, OfTable m' r x

structure GrowthDone (m m' : Mem) (R : Finset Nat) (r lo hi : Nat) (perm : Pte) (pg : Nat → Nat) : Prop where
  maps : ∀ r' ∈ R, ∀ n < 512 * 512 * 512,
    pageMap m' r' n = if r' = r ∧ lo ≤ n ∧ n < hi then some (mkPte (pg n) perm) else pageMap m r' n
  new : ∀ n, lo ≤ n → n < hi → IsPage (pg n) ∧ m.refcnt (pa2idx (pg n)) = 0 ∧ m'.refcnt (pa2idx (pg n)) = 1 ∧
    m'.data (pg n) = fun _ => 0
  inj : ∀ n, lo ≤ n → n < hi → ∀ n', lo ≤ n' → n' < hi → pg n = pg n' → n = n'
  used : ∀ x, IsPage x → m.refcnt (pa2idx x) ≠ 0 → m'.refcnt (pa2idx x) = m.refcnt (pa2idx x)


section
variable {oldsz newsz lo k : Nat} {perm xperm : Pte} {pg : Nat → Nat}

theorem Added.undone (h : Added m m' R ρ ρ' r lo 0 perm pg) : GrowthUndone m m' R := by
  have hcnt : ∀ x, IsPage x → m'.refcnt (pa2idx x) = m.refcnt (pa2idx x) + if ρ x = none ∧ ρ' x ≠ none then 1 else 0 :=
    fun x hx => (h.refcnt x hx).trans
      (by rw [if_neg (show ¬ ∃ n < lo + 0, lo ≤ n ∧ pg n = x from fun ⟨n, h2, h1, _⟩ => by omega)]; rfl)
  refine ⟨fun r' hr' n hn => (h.maps r' hr' n hn).trans (if_neg (by omega)), fun x hx h0 => ?_, fun x hx h0 => ?_⟩
  all_goals have hc := hcnt x hx
  all_goals by_cases hρ : ρ x = none ∧ ρ' x ≠ none
  · rw [if_pos hρ, h.pool.excl x hρ.2] at hc
    omega
  · rwa [if_neg hρ, add_zero] at hc
  · exact .inr ((h.pool.forest.ofTable x).mp hρ.2)
  · rw [if_neg hρ, add_zero, h0] at hc
    exact .inl hc

theorem Added.done (h : Added m m' R ρ ρ' r lo k perm pg) (hP : Pool m R ρ)
    (hz : ∀ n, lo ≤ n → n < lo + k → m'.data (pg n) = fun _ => 0) : GrowthDone m m' R r lo (lo + k) perm pg where
  maps := h.maps
  new n h1 h2 := ⟨(h.one hP h1 h2).1, ((hP.freeIff _).mp (h.new n h1 h2).1).2, (h.one hP h1 h2).2, hz n h1 h2⟩
  inj := h.inj
  used x hx h0 := by
    have hc := h.refcnt x hx
    rw [if_neg fun hρ => ?_, if_neg ?_] at hc
    · exact hc
    · rintro ⟨n, h2, h1, rfl⟩
      exact h0 ((hP.freeIff _).mp (h.new n h1 h2).1).2
    · rw [h.pool.excl x hρ.2, if_pos hρ] at hc
      omega

omit [Image] in
theorem PGROUNDUP_page (h : n * PGSIZE < 2 ^ 64) : PGROUNDUP (n * PGSIZE) = n * PGSIZE := by
  simp only [PGROUNDUP] at *; lia

omit [Image] in
theorem PGROUNDUP_rounds (h : oldsz ≤ newsz) (hb : 0 < rounds (PGROUNDUP oldsz / PGSIZE * PGSIZE) newsz →
    PGROUNDUP oldsz / PGSIZE + rounds (PGROUNDUP oldsz / PGSIZE * PGSIZE) newsz - 1 < 512 * 512 * 256) :
    PGROUNDUP newsz / PGSIZE = PGROUNDUP oldsz / PGSIZE + rounds (PGROUNDUP oldsz / PGSIZE * PGSIZE) newsz := by
  simp only [rounds, PGROUNDUP] at *
  lia

theorem Added.wp_undo {m₁ : Mem} {Q : Nat → Mem → Prop} (h : Added m m₁ R ρ ρ₁ r lo k perm pg)
    (hP : Pool m R ρ) (hf : IsFlags perm) (hr : r ∈ R) (hno : ∀ n, lo ≤ n → n < lo + k → pageMap m r n = none)
    (hlo : lo * PGSIZE < 2 ^ 64) (hQ : ∀ n m', GrowthUndone m m' R → Q n m') :
    wp (uvmdealloc r (lo * PGSIZE + k * PGSIZE) (lo * PGSIZE)) Q E m₁ := by
  refine wp_ite (fun hk => wp_ret (hQ _ m₁ ?_)) fun hk => ?_
  · obtain rfl : k = 0 := by lia
    exact h.undone
  have hbelow := h.below (lo + k - 1) (by lia) (by lia)
  have hup := PGROUNDUP_page hlo
  have hup' : PGROUNDUP (lo * PGSIZE + k * PGSIZE) = lo * PGSIZE + k * PGSIZE := by
    rw [← Nat.add_mul]
    exact PGROUNDUP_page (Nat.lt_of_le_of_lt (Nat.mul_le_mul_right PGSIZE (Nat.le_of_pred_lt hbelow)) (by decide))
  rw [hup, hup', if_pos (Nat.lt_of_not_le hk), show (lo * PGSIZE + k * PGSIZE - lo * PGSIZE) / PGSIZE = k by lia]
  simp only [wp_bind, wp_pure]
  unfold uvmunmap
  rw [if_neg (not_not.mpr (Nat.mul_mod_left ..))]
  refine wp_post (wp_forN (fun i m' => Added m m' R ρ ρ₁ r (lo + i) (k - i) perm pg)
    (by rw [Nat.add_zero, Nat.sub_zero]; exact h) ?_) fun _ m' hI => hQ _ m' ?_
  · intro i m₂ hi hI
    have hdiv : (lo * PGSIZE + i * PGSIZE) / 4096 = lo + i := by lia
    have hleaf := hI.leaf hr (Nat.le_refl (lo + i)) (by omega)
    obtain ⟨hp, hone⟩ := hI.one hP (Nat.le_refl (lo + i)) (by omega)
    have hpa : PTE2PA (Xv6.leaf m₂ r (lo + i)) = pg (lo + i) := by rw [hleaf]; exact mkPte_pa hp.paOk hf
    refine hI.pool.wp_unmapPage hr (fun hc => ?_) (fun _ _ _ => ?_) (fun _ _ => .inl ?_) fun m3 _ hP3 hC hcnt => ?_
    · lia
    · rw [hdiv, hpa]
      exact (hI.new (lo + i) (by omega) (by omega)).2
    · rw [hdiv, hpa, hone]
      exact ⟨hp, by omega⟩
    · rw [hdiv] at hC hcnt
      rw [show k - i = k - (i + 1) + 1 by omega] at hI
      exact hI.tail hP hf hr (hno _ (by omega) (by omega)) hP3 hC fun x hx => by rw [hcnt x hx]; simp
  · rw [Nat.sub_self] at hI
    exact hI.undone

theorem Added.wp_allocPage {m₁ : Mem} {Q : Option Unit → Mem → Prop}
    (h : Added m m₁ R ρ ρ₁ r lo k (PTE_R ||| PTE_U ||| xperm) pg) (hP : Pool m R ρ) (hx : IsFlags xperm) (hr : r ∈ R)
    (hno : ∀ n, lo ≤ n → n ≤ lo + k → pageMap m r n = none) (hlo : lo * PGSIZE < 2 ^ 64)
    (hE : MAXVA ≤ lo * PGSIZE + k * PGSIZE → ∀ e, E e)
    (hs : ∀ m₂ ρ₂ f, Added m m₂ R ρ ρ₂ r lo (k + 1) (PTE_R ||| PTE_U ||| xperm) (update pg (lo + k) f) →
      ((∀ n, lo ≤ n → n < lo + k → m₁.data (pg n) = fun _ => 0) →
        ∀ n, lo ≤ n → n < lo + (k + 1) → m₂.data (update pg (lo + k) f n) = fun _ => 0) → Q none m₂)
    (hn : ∀ m₂, GrowthUndone m m₂ R → Q (some ()) m₂) :
    wp (allocPage r (lo * PGSIZE + k * PGSIZE) (lo * PGSIZE) xperm) Q E m₁ := by
  have hf : IsFlags (PTE_R ||| PTE_U ||| xperm) := IsFlags.or (by decide) hx
  have hno' : ∀ n, lo ≤ n → n < lo + k → pageMap m r n = none := fun n h1 h2 => hno n h1 (by omega)
  have hdiv : (lo * PGSIZE + k * PGSIZE) / 4096 = lo + k := by lia
  refine wp_seq (wp_kalloc ?_ fun f rest hfl => ?_)
  · simp only [wp_bind, wp_pure]
    have h0 : Added m { m₁ with calls := m₁.calls + 1, fails := m₁.fails + 1 } R ρ ρ₁ r lo k
      (PTE_R ||| PTE_U ||| xperm) pg :=
      ⟨⟨h.pool.forest.congr fun _ _ _ _ _ => rfl, h.pool.freeNodup, h.pool.freeIff, h.pool.nodePage, h.pool.excl⟩,
        h.keeps, h.below, h.maps, h.new, h.inj, h.refcnt⟩
    exact h0.wp_undo hP hf hr hno' hlo fun _ => hn
  · have hfm : f ∈ m₁.freelist := by rw [hfl]; exact List.mem_cons_self
    obtain ⟨-, hp, hρf, -⟩ := h.fresh hP hfm
    obtain ⟨hP1, hS1, -⟩ := h.pool.take hfl
    obtain ⟨hP1, hS1'⟩ := hP1.fill hρf 0
    simp only [wp_bind, wp_memzero]
    refine wp_mappages (by lia) (hP1.wp_mapPage hr (fun hc => hE hc _) (fun hv => ?_) ?_ ?_)
    · rw [hdiv] at hv
      rcases lt_or_ge (lo * PGSIZE + k * PGSIZE) MAXVA with hva | hge
      · have hlt : lo + k < 512 * 512 * 512 := by lia
        rw [(hS1.trans hS1') r hr _ hlt] at hv
        have hm := h.maps r hr (lo + k) hlt
        rw [if_neg (by omega), hno _ (by omega) (by omega), pageMap, if_pos hv] at hm
        cases hm
      · exact hE hge _
    · intro m₂ ρ₂ hva _ hP₂ hL hG
      rw [hdiv] at hL
      obtain ⟨hA, hz⟩ := h.snoc hP hfl hP₂ hG (by lia) hL
      exact wp_ret (hs m₂ ρ₂ f hA hz)
    · intro m₂ ρ₂ hP₂ hS2 hG _
      obtain ⟨-, hpos, hA⟩ := h.back hP hfl hP₂ hG hS2
      simp only [isNone_some, Bool.false_eq_true, if_false, wp_bind, wp_pure]
      exact wp_kfree hp hpos (hA.wp_undo hP hf hr hno' hlo fun _ => hn)

theorem Pool.wp_uvmalloc {Q : Nat → Mem → Prop} (hP : Pool m R ρ) (hr : r ∈ R) (hle : oldsz ≤ newsz) (hx : IsFlags xperm)
    (hno : ∀ n, PGROUNDUP oldsz ≤ n * PGSIZE → n * PGSIZE < newsz → pageMap m r n = none) (hE : MAXVA < newsz → ∀ e, E e)
    (hn : ∀ m', GrowthUndone m m' R → Q 0 m')
    (hs : ∀ m' pg, GrowthDone m m' R r (PGROUNDUP oldsz / PGSIZE) (PGROUNDUP newsz / PGSIZE) (PTE_R ||| PTE_U ||| xperm) pg →
      newsz ≠ 0 → Q newsz m') : wp (uvmalloc r oldsz newsz xperm) Q E m := by
  have hup : PGROUNDUP oldsz / PGSIZE * PGSIZE = PGROUNDUP oldsz := by simp only [PGROUNDUP]; lia
  have hlo : PGROUNDUP oldsz < 2 ^ 64 := by simp only [PGROUNDUP]; lia
  rw [← hup] at hlo hno
  unfold uvmalloc
  rw [if_neg (not_lt.mpr hle), wp_bind, ← hup]
  have hend := PGROUNDUP_rounds hle
  generalize PGROUNDUP oldsz / PGSIZE = lo at *
  have hround : ∀ k < rounds (lo * PGSIZE) newsz, (lo + k) * PGSIZE < newsz := fun k hk => by
    clear hlo hend hno
    simp only [rounds] at *; lia
  refine wp_search (fun k m' => ∃ ρ' pg, Added m m' R ρ ρ' r lo k (PTE_R ||| PTE_U ||| xperm) pg ∧
    ∀ n, lo ≤ n → n < lo + k → m'.data (pg n) = fun _ => 0) ⟨ρ, id, Added.refl hP lo _ id, fun n h1 h2 => by omega⟩ ?_ ?_
  · rintro k m₁ - hk ⟨ρ₁, pg, hA, hz⟩
    refine hA.wp_allocPage hP hx hr (fun n h1 h2 => hno n ?_ ?_) hlo (fun hc => hE ?_)
      (fun m₂ ρ₂ f hA2 hz2 => ⟨ρ₂, _, hA2, hz2 hz⟩)
      fun m₂ hU => wp_ret (hn m₂ hU)
    · exact Nat.mul_le_mul_right _ h1
    · exact lt_of_le_of_lt (Nat.mul_le_mul_right _ h2) (hround k (by omega))
    · exact lt_of_le_of_lt hc (Nat.add_mul .. ▸ hround k (by omega))
  · rintro m' ⟨ρ', pg, hA, hz⟩
    rw [zero_add] at hA hz
    by_cases h0 : newsz = 0
    · have : rounds (lo * PGSIZE) newsz = 0 := by simp only [rounds]; lia
      rw [this] at hA
      exact wp_ret (h0 ▸ hn m' hA.undone)
    · refine wp_ret (hs m' pg ?_ h0)
      rw [hend fun hpos => hA.below _ (by omega) (by omega)]
      exact hA.done hP hz

end

theorem growproc_fails {k : Kernel} {n : Int} {m' : Mem} (hr : (k.procs k.sys.cur).pagetable = some r) (hn : 0 < n)
    (hsz : addInt (k.procs k.sys.cur).sz n ≤ TRAPFRAME NPROC)
    (hu : uvmalloc r (k.procs k.sys.cur).sz (addInt (k.procs k.sys.cur).sz n) PTE_W k.mem = .ok (0, m')) :
    growproc n k = .ok (false, { k with mem := m' }) := by
  have hwp : wp (growproc n) (fun b k' => b = false ∧ k' = { k with mem := m' }) (fun _ => False) k := by
    unfold growproc
    simp only [wp_bind, wp_myproc, wp_getProc]
    rw [if_pos hn, if_neg (by omega)]
    simp only [wp_bind]
    refine wp_tableOf hr ?_
    rw [wp_kmem]
    refine wp_of_ok (fun sz s' hs => ?_) fun e he => by rw [hu] at he; cases he
    obtain ⟨rfl, rfl⟩ := Prod.mk.inj (Except.ok.inj (hu.symm.trans hs))
    rw [if_pos rfl, wp_pure]
    exact ⟨rfl, rfl⟩
  obtain ⟨b, k', hrun, rfl, rfl⟩ := wp_total hwp
  exact hrun

theorem failed_growth_undone {oldsz newsz : Nat} {xperm : Pte} (hP : Pool m R ρ) (hr : r ∈ R) (hle : oldsz ≤ newsz)
    (hx : IsFlags xperm) (hno : ∀ n, PGROUNDUP oldsz ≤ n * PGSIZE → n * PGSIZE < newsz → pageMap m r n = none) :
    (newsz ≤ MAXVA → ∃ sz m', uvmalloc r oldsz newsz xperm m = .ok (sz, m')) ∧
    (∀ sz m', uvmalloc r oldsz newsz xperm m = .ok (sz, m') → if sz = 0 then GrowthUndone m m' R else sz = newsz ∧
      ∃ pg, GrowthDone m m' R r (PGROUNDUP oldsz / PGSIZE) (PGROUNDUP newsz / PGSIZE) (PTE_R ||| PTE_U ||| xperm) pg) ∧
    ∀ k n m', k.mem = m → (k.procs k.sys.cur).pagetable = some r → (k.procs k.sys.cur).sz = oldsz →
      addInt oldsz n = newsz → 0 < n → newsz ≤ TRAPFRAME NPROC → uvmalloc r oldsz newsz PTE_W m = .ok (0, m') →
      growproc n k = .ok (false, { k with mem := m' }) := by
  have hwp : wp (uvmalloc r oldsz newsz xperm) (fun sz m' => if sz = 0 then GrowthUndone m m' R else sz = newsz ∧
      ∃ pg, GrowthDone m m' R r (PGROUNDUP oldsz / PGSIZE) (PGROUNDUP newsz / PGSIZE) (PTE_R ||| PTE_U ||| xperm) pg)
      (fun _ => MAXVA < newsz) m :=
    hP.wp_uvmalloc hr hle hx hno (fun hc _ => hc) (fun m' hU => by rw [if_pos rfl]; exact hU)
      fun m' pg hD h0 => by rw [if_neg h0]; exact ⟨rfl, pg, hD⟩
  refine ⟨fun hmax => ?_, fun sz m' hu => ?_, ?_⟩
  · obtain ⟨sz, m', hu, -⟩ := wp_total (wp_mono hwp (fun _ _ => id) fun _ hc => absurd hc (by omega))
    exact ⟨sz, m', hu⟩
  · have hres := wp_ok hwp hu
    exact hres
  · rintro k n m' rfl hpt rfl rfl hn hsz hu
    exact growproc_fails hpt hn hsz hu

theorem kinit_free {m0 : Mem} (hk : kinit Mem.bss = .ok ((), m0)) : m0.freelist.Nodup ∧
    ∀ a, a ∈ m0.freelist ↔ IsPage a ∧ m0.refcnt (pa2idx a) = 0 :=
  wp_ok (Q := fun _ m => m.freelist.Nodup ∧ ∀ a, a ∈ m.freelist ↔ IsPage a ∧ m.refcnt (pa2idx a) = 0) (E := fun _ => True)
    (wp_kinit rfl fun _ hI => ⟨hI.freeNodup, hI.freeIff⟩) hk

theorem uvmcreate_new {m0 m₁ : Mem} (hnd : m0.freelist.Nodup)
    (hfree : ∀ a, a ∈ m0.freelist ↔ IsPage a ∧ m0.refcnt (pa2idx a) = 0) (hc : uvmcreate m0 = .ok (some r, m₁)) :
    (∀ n, leaf m₁ r n = 0#64) ∧ ∃ ρ, Pool m₁ {r} ρ := by
  have hP0 : Pool m0 ∅ fun _ => none := ⟨⟨by simp, by simp, by simp⟩, hnd, hfree, by simp, by simp⟩
  exact wp_ok (Q := fun res m₁ => ∀ r, res = some r → (∀ n, leaf m₁ r n = 0#64) ∧ ∃ ρ, Pool m₁ {r} ρ)
    hP0.wp_uvmcreate hc r rfl

/-- Any calls on a new table, wherever `kalloc` fails, keep the table a map, as long as `uvmunmap` frees no page of it. -/
theorem page_map {m₀ m₁ : Mem} {tr : List (TableCall × Mem)} (hnd : m₀.freelist.Nodup)
    (hfree : ∀ a, a ∈ m₀.freelist ↔ IsPage a ∧ m₀.refcnt (pa2idx a) = 0) (hc : uvmcreate m₀ = .ok (some r, m₁))
    (ht : Trace (TableCall.run r) (TableCall.Safe r) m₁ tr m) : (∀ n, pageMap m₁ r n = none) ∧ IsPageMap m r := by
  obtain ⟨hnew, ρ, hP₁⟩ := uvmcreate_new hnd hfree hc
  refine ⟨fun n => by rw [pageMap, hnew n]; rfl, ?_⟩
  obtain ⟨ρ', hP⟩ := ht.inv (fun m => ∃ ρ, Pool m {r} ρ) ⟨ρ, hP₁⟩ fun c s ⟨ρ, hP⟩ hs => by
    cases c with
    | walk va alloc =>
      simp only [TableCall.run, wp_bind, wp_pure]
      exact wp_post hP.wp_walk fun _ _ hx => hx.1
    | mappages va size pa perm =>
      simp only [TableCall.run, wp_bind, wp_pure]
      exact wp_post hP.wp_mappages fun _ _ hx => hx.1
    | uvmunmap va npages do_free =>
      exact wp_post (hP.wp_uvmunmap fun hf => by subst hf; exact hs) fun _ _ hx => ⟨ρ, hx.1⟩
  exact hP.isPageMap

end

theorem tables_of_runs {l : List TableCall} {g : TableCall → Bool} {f : Nat → Mem → Bool}
    (h : (match @kinit (lastPages 30) Mem.bss with
      | .ok (_, m0) => match uvmcreate m0 with
        | .ok (some r, m₁) => (runs (@TableCall.run (lastPages 30) r) (fun c _ => g c) l m₁).any (f r)
        | _ => false
      | _ => false) = true) :
    ∃ m0 r m₁ tr m, @kinit (lastPages 30) Mem.bss = .ok ((), m0) ∧ uvmcreate m0 = .ok (some r, m₁) ∧
      Trace (@TableCall.run (lastPages 30) r) (fun c _ => g c) m₁ tr m ∧ f r m = true := by
  split at h
  · rename_i m0 hk
    split at h
    · rename_i r m₁ hc
      obtain ⟨tr, m, ht, hf⟩ := Trace.of_any h
      exact ⟨m0, r, m₁, tr, m, hk, hc, ht, hf⟩
    · cases h
  · cases h

def TableCall.keeps : TableCall → Bool
  | .uvmunmap _ _ do_free => !do_free
  | _ => true

theorem page_map_new : ∃ m₀ r m₁ tr m, @kinit (lastPages 30) Mem.bss = .ok ((), m₀) ∧ uvmcreate m₀ = .ok (some r, m₁) ∧
    Trace (@TableCall.run (lastPages 30) r) (TableCall.Safe r) m₁ tr m ∧ (pageMap m r 0).isSome ∧
    @IsPageMap (lastPages 30) m r := by
  obtain ⟨m₀, r, m₁, tr, m, hk, hc, ht, hf⟩ := @tables_of_runs [.mappages 0 PGSIZE KERNBASE PTE_R] TableCall.keeps
    (fun r m => (pageMap m r 0).isSome) (by decide +kernel)
  obtain ⟨hnd, hfree⟩ := @kinit_free (lastPages 30) m₀ hk
  have hs : Trace (@TableCall.run (lastPages 30) r) (TableCall.Safe r) m₁ tr m := ht.mono fun c s hc => by
    cases c with
    | uvmunmap va npages do_free =>
      cases do_free with
      | false => trivial
      | true => cases hc
    | _ => trivial
  exact ⟨m₀, r, m₁, tr, m, hk, hc, hs, hf, (@page_map (lastPages 30) m r m₀ m₁ tr hnd hfree hc hs).2⟩

theorem growth_of_new_table : ∃ m₀ r m₁ sz m', @kinit (lastPages 30) Mem.bss = .ok ((), m₀) ∧
    uvmcreate m₀ = .ok (some r, m₁) ∧
    @uvmalloc (lastPages 30) r 0 (3 * PGSIZE) PTE_W m₁ = .ok (sz, m') ∧
    if sz = 0 then @GrowthUndone (lastPages 30) m₁ m' {r} else sz = 3 * PGSIZE ∧
      ∃ pg, @GrowthDone (lastPages 30) m₁ m' {r} r 0 3 (PTE_R ||| PTE_U ||| PTE_W) pg := by
  obtain ⟨m₀, r, m₁, tr, m, hk, hc, -⟩ := @tables_of_runs [] TableCall.keeps (fun _ _ => true) (by decide +kernel)
  obtain ⟨hnd, hfree⟩ := @kinit_free (lastPages 30) m₀ hk
  obtain ⟨hnew, ρ, hP⟩ := @uvmcreate_new (lastPages 30) r m₀ m₁ hnd hfree hc
  obtain ⟨hret, hres, -⟩ := @failed_growth_undone (lastPages 30) m₁ {r} ρ r 0 (3 * PGSIZE) PTE_W hP
    (Finset.mem_singleton_self r) (by omega) (by decide) fun n _ _ => by rw [pageMap, hnew n]; rfl
  obtain ⟨sz, m', hu⟩ := hret (by decide)
  exact ⟨m₀, r, m₁, sz, m', hk, hc, hu, hres sz m' hu⟩

/-- A table that maps its own lowest page: once `uvmunmap` has freed that page, every entry in it is junk. -/
theorem own_page_freed : ∃ m₀ r m₁ tr m m', @kinit (lastPages 30) Mem.bss = .ok ((), m₀) ∧ uvmcreate m₀ = .ok (some r, m₁) ∧
    Trace (@TableCall.run (lastPages 30) r) (fun _ _ => True) m₁ tr m ∧
    @uvmunmap (lastPages 30) r PGSIZE 1 true m = .ok ((), m') ∧ pageMap m r 2 = none ∧ pageMap m' r 2 ≠ none := by
  obtain ⟨m₀, r, m₁, tr, m, hk, hc, ht, hf⟩ := @tables_of_runs [.mappages PGSIZE PGSIZE (PHYSTOP - 3 * PGSIZE) PTE_R]
    (fun _ => true) (fun r m => (pageMap m r 2).isNone &&
      okAnd (@uvmunmap (lastPages 30) r PGSIZE 1 true m) fun _ m' => (pageMap m' r 2).isSome) (by decide +kernel)
  obtain ⟨h2, hf⟩ := Bool.and_eq_true_iff.mp hf
  obtain ⟨_, m', hu, hf⟩ := of_okAnd hf
  exact ⟨m₀, r, m₁, tr, m, m', hk, hc, ht.mono fun _ _ _ => trivial, hu, isNone_iff_eq_none.mp h2, isSome_iff_ne_none.mp hf⟩

end Xv6
