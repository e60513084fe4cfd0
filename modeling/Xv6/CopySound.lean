import Xv6.VmSound

/-!
# Copying and freeing a table

`uvmcopy` shares every page of the parent with the child and makes it
writable in neither; `freewalk` returns the pages of a table that maps
nothing any more.
-/

namespace Xv6

open Hoare Function Option

variable {e : Pte} {c i k p : Nat} {m1 m2 : Mem} {Q : Option Nat → Mem → Prop} {nd : Node}

/-! ## `uvmcopy` -/

def cowed (e : Pte) : Pte :=
  if e.has PTE_V ∧ e.has PTE_W then PA2PTE (PTE2PA e) ||| copyFlags e else e

theorem isFlags_copyFlags (e : Pte) : IsFlags (copyFlags e) := by
  unfold copyFlags
  split
  · exact ((isFlags_FLAGS e).andNot _).or (by decide)
  · exact isFlags_FLAGS e

theorem copyFlags_has (hk : k < 8) (h2 : k ≠ 2) : (copyFlags e).has (flag k) = e.has (flag k) := by
  unfold copyFlags
  split
  · have : ∀ k : Fin 8, Pte.has PTE_COW (flag k) = false := by decide
    rw [has_or _ _ (by omega), PTE_W, has_andNot _ (by omega), has_FLAGS _ (by omega), this ⟨k, hk⟩]
    simp [h2]
  · exact has_FLAGS e (by omega)

theorem copyFlags_W (e : Pte) : (copyFlags e).has PTE_W = false := by
  unfold copyFlags
  split
  · rw [PTE_W, has_or _ _ (by omega), has_andNot _ (by omega)]
    simp; decide
  · rename_i h
    rw [PTE_W, has_FLAGS _ (by omega)]; simpa [PTE_W] using h

theorem valid_of_cowed (h : (cowed e).has PTE_V) : e.has PTE_V := by
  by_contra hv
  unfold cowed at h
  rw [if_neg fun hx => hv hx.1] at h
  exact hv h

theorem cowed_eq (hv : e.has PTE_V) (hp : PaOk (PTE2PA e)) :
    (cowed e).has PTE_V ∧ PTE2PA (cowed e) = PTE2PA e ∧ (cowed e).has PTE_W = false := by
  unfold cowed
  by_cases hw : e.has PTE_W
  · rw [if_pos ⟨hv, hw⟩]
    refine ⟨?_, PTE2PA_mk hp (isFlags_copyFlags e), ?_⟩
    · rw [PTE_V, has_mk (by omega), copyFlags_has (by omega) (by omega)]; exact hv
    · rw [PTE_W, has_mk (by omega)]; exact copyFlags_W e
  · rw [if_neg fun hc => hw hc.2]
    exact ⟨hv, rfl, by simpa using hw⟩

theorem refers_cowed (hv : e.has PTE_V) (hp : PaOk (PTE2PA e)) (x : Nat) :
    Refers (cowed e) x ↔ Refers e x := by
  obtain ⟨h1, h2, -⟩ := cowed_eq hv hp
  unfold Refers; rw [h1, h2, hv]

section
variable {m : Mem} {R : Finset Nat} {old new : Nat}

structure CopiedAt (m m' : Mem) (R : Finset Nat) (old new n : Nat) : Prop where
  grow : Grow m m'
  leaf : ∀ r' ∈ R, ∀ n' < 512 * 512 * 512, leaf m' r' n' =
    if r' = old ∧ n' = n then cowed (leaf m old n)
    else if r' = new ∧ n' = n ∧ (Xv6.leaf m old n).has PTE_V = true then
      mkPte (PTE2PA (Xv6.leaf m old n)) (copyFlags (Xv6.leaf m old n))
    else Xv6.leaf m r' n'

structure Copied (m m' : Mem) (R : Finset Nat) (old new k : Nat) : Prop where
  grow : Grow m m'
  leaf : ∀ r' ∈ R, ∀ n < 512 * 512 * 512, leaf m' r' n =
    if r' = old ∧ n < k then cowed (leaf m old n)
    else if r' = new ∧ n < k ∧ (Xv6.leaf m old n).has PTE_V = true then
      mkPte (PTE2PA (Xv6.leaf m old n)) (copyFlags (Xv6.leaf m old n))
    else Xv6.leaf m r' n

theorem Copied.snoc (h : Copied m m1 R old new k) (h' : CopiedAt m1 m2 R old new k)
    (ho : old ∈ R) (hne : old ≠ new) (hk : k < 512 * 512 * 512) : Copied m m2 R old new (k + 1) where
  grow := h.grow.trans h'.grow
  leaf r' hr' n hn := by
    have hok : Xv6.leaf m1 old k = Xv6.leaf m old k := by
      rw [h.leaf old ho k hk, if_neg (by omega), if_neg fun hc => hne hc.1]
    rw [h'.leaf r' hr' n hn, hok]
    by_cases hnk : n = k
    · subst hnk
      by_cases h1 : r' = old
      · rw [if_pos ⟨h1, rfl⟩, if_pos ⟨h1, by omega⟩]
      · by_cases h2 : r' = new ∧ (Xv6.leaf m old n).has PTE_V
        · simp [h2]
        · have h3 : Xv6.leaf m1 r' n = Xv6.leaf m r' n := by
            rw [h.leaf r' hr' n hn, if_neg fun hc => h1 hc.1, if_neg fun hc => by omega]
          simp [h1, h2, h3]
    · have hiff : n < k + 1 ↔ n < k := by omega
      rw [if_neg fun hc => hnk hc.2, if_neg fun hc => hnk hc.2.1, h.leaf r' hr' n hn]
      simp only [hiff]

structure CopyFailed (m m' : Mem) (R : Finset Nat) (old new k : Nat) : Prop where
  parent : ∀ n < 512 * 512 * 512, leaf m' old n = leaf m old n ∨ n < k ∧ leaf m' old n = cowed (leaf m old n)
  child : ∀ n < 512 * 512 * 512, leaf m' new n = leaf m new n ∨ n < k ∧ leaf m' new n = 0#64
  other : ∀ r' ∈ R, r' ≠ old → r' ≠ new → ∀ n < 512 * 512 * 512, leaf m' r' n = leaf m r' n

theorem CopyFailed.of (h : Copied m m1 R old new i)
    (hL : LeafUpd m1 m2 R old i (cowed (leaf m1 old i))) (hC : Cleared m2 m3 R new 0 i) (ho : old ∈ R) (hn : new ∈ R)
    (hne : old ≠ new) (hi : i < k) : CopyFailed m m3 R old new k where
  parent n hlt := by
    rw [hC old ho n hlt, if_neg fun hc => hne hc.1, hL old ho n hlt]
    have h1 := h.leaf old ho n hlt
    rw [if_neg (c := old = new ∧ _) fun hc => hne hc.1] at h1
    by_cases hc : n = i
    · rw [if_neg (by omega)] at h1
      rw [if_pos ⟨rfl, hc⟩, ← hc, h1]; exact .inr ⟨by omega, rfl⟩
    · rw [if_neg fun hd => hc hd.2, h1]
      by_cases hd : n < i
      · rw [if_pos ⟨rfl, hd⟩]; exact .inr ⟨by omega, rfl⟩
      · rw [if_neg fun hf => hd hf.2]; exact .inl rfl
  child n hlt := by
    have h1 := h.leaf new hn n hlt
    rw [if_neg fun hc => hne hc.1.symm] at h1
    have h2 : leaf m2 new n = leaf m1 new n := by rw [hL new hn n hlt, if_neg fun hc => hne hc.1.symm]
    rw [hC new hn n hlt, h2]
    by_cases hc : n < i ∧ (leaf m1 new n).has PTE_V
    · rw [if_pos ⟨rfl, by omega, hc.1, hc.2⟩]; exact .inr ⟨by omega, rfl⟩
    · rw [if_neg fun hd => hc ⟨hd.2.2.1, hd.2.2.2⟩]
      by_cases hd : n < i ∧ (leaf m old n).has PTE_V
      · rw [if_pos ⟨rfl, hd⟩] at h1
        rw [h1] at hc; exact absurd ⟨hd.1, mkPte_V _ _⟩ hc
      · rw [if_neg fun hf => hd hf.2] at h1; exact .inl h1
  other r' hr' h1 h2 n hlt := by
    rw [hC r' hr' n hlt, if_neg fun hc => h2 hc.1, hL r' hr' n hlt, if_neg fun hc => h1 hc.1, h.leaf r' hr' n hlt,
      if_neg fun hc => h1 hc.1, if_neg fun hc => h2 hc.1]

end

/-! ## Positions in a table -/

def Node.level : Node → Nat
  | .root => 2
  | .mid _ => 1
  | .low _ => 0

theorem Node.level_child : ∀ {nd : Node} {i : Nat}, nd.IsDir → nd.level = (nd.child i).level + 1
  | .root, _, _ => rfl
  | .mid _, _, _ => rfl

theorem drop_put {m : Mem} (h : p ≠ c) : (m.drop c).put p i e = (m.put p i e).drop c := by
  unfold Mem.drop Mem.put
  split
  · rfl
  · simp only [Mem.fill]
    rw [update_of_ne h, update_comm h]

variable [Image] {m : Mem} {R : Finset Nat} {ρ : Owners} {H : Nat → Int} {r old new : Nat} {E : MemStop → Prop}

section
variable (hI : MemInv m R ρ H) (hH : ∀ a, 0 ≤ H a) (ho : old ∈ R) (hnew : new ∈ R) (hne : old ≠ new)
include hI hH ho hnew hne

theorem wp_copyPte (hu : n < NUPAGE)
    (hE : (leaf m new n).has PTE_V → E (.panic .remap))
    (hs : ∀ m' ρ', MemInv m' R ρ' H → CopiedAt m m' R old new n → Q none m')
    (hn : ∀ m' ρ', MemInv m' R ρ' H → LeafUpd m m' R old n (cowed (leaf m old n)) → Grow m m' → m.fails < m'.fails →
      Q (some (n * PGSIZE)) m') : wp (copyPte old new (n * PGSIZE)) Q E m := by
  have hva : n * PGSIZE < MAXVA := by lia
  have hlt := NUPAGE_lt hu
  have hsame : (leaf m old n).has PTE_V = false → Q none m := fun hv => by
    refine hs m ρ hI ⟨Grow.refl m, fun r' _ n' _ => ?_⟩
    by_cases h1 : r' = old ∧ n' = n
    · rw [if_pos h1, h1.1, h1.2]; unfold cowed; rw [if_neg (by simp [hv])]
    · rw [if_neg h1, if_neg (by simp [hv])]
  unfold copyPte
  rw [wp_bind, wp_walk_read hva, page_div]
  cases hl : low m old (n / 512) with
  | none => exact wp_ret (hsame (by rw [leaf_of_none hl]; simp))
  | some a =>
    have ha := hI.forest.low ho (by omega) hl
    have hleaf := hI.pte_eq_leaf ha
    simp only [map_some, wp_bind, wp_getPte, hleaf]
    refine wp_ite (fun hv => wp_ret (hsame (by simpa using hv))) fun hv => ?_
    have hv' : (leaf m old n).has PTE_V := by simpa using hv
    have hp := hI.leafPage old ho n hu hv'
    obtain ⟨hcV, hcP, hcW⟩ := cowed_eq hv' hp.paOk
    -- nobody else maps the page writable
    have hothers : ∀ r' ∈ R, ∀ n' < NUPAGE, (r', n') ≠ (old, n) → Refers (leaf m r' n') (PTE2PA (leaf m old n)) →
        (leaf m r' n').has PTE_W = false := fun r' hr' n' hn' hne' href =>
      hI.cow r' hr' old ho n' hn' n hu hne' href.1 ⟨hv', href.2.symm⟩
    have hcont : ∀ m1, MemInv m1 R ρ H → LeafUpd m m1 R old n (cowed (leaf m old n)) → Quiet m m1 →
        wp (mappages new (n * PGSIZE) PGSIZE (PTE2PA (leaf m old n)) (copyFlags (leaf m old n)))
          (fun b m2 => wp (if b then (do krefinc (PTE2PA (leaf m old n)); pure none)
            else pure (some (n * PGSIZE))) Q E m2) E m1 := by
      intro m1 hI1 hL1 hQ1
      have hnew1 : leaf m1 new n = leaf m new n := by rw [hL1 new hnew n hlt, if_neg fun hc => hne hc.1.symm]
      refine wp_mappages (by lia) (wp_mapPage hI1 hnew hva (isFlags_copyFlags _)
        (fun _ => hp) ?_ ?_ ?_ ?_)
      · rw [page_div, hnew1]; exact hE
      · intro _ r' hr' n' hn' href
        refine ⟨?_, copyFlags_W _⟩
        rw [hL1 r' hr' n' (NUPAGE_lt hn')] at href ⊢
        by_cases h1 : r' = old ∧ n' = n
        · rw [if_pos h1]; exact hcW
        · rw [if_neg h1] at href ⊢
          exact hothers r' hr' n' hn' (fun hc => h1 (Prod.mk.inj hc)) href
      · intro m2 ρ2 _ hI2 hL2 hA2
        rw [page_div] at hI2 hL2
        rw [if_pos hu] at hI2
        simp only [isNone_none, if_true, wp_bind, wp_pure]
        have hl2 : leaf m2 new n = mkPte (PTE2PA (leaf m old n)) (copyFlags (leaf m old n)) := by
          rw [hL2 new hnew n hlt, if_pos ⟨rfl, rfl⟩]
        have hl3 : leaf m2 old n = cowed (leaf m old n) := by
          rw [hL2 old ho n hlt, if_neg fun hc => hne hc.1, hL1 old ho n hlt, if_pos ⟨rfl, rfl⟩]
        have htwo : 2 ≤ leafRefs m2 R (PTE2PA (leaf m old n)) :=
          leafRefs_two ho hnew hu hu (fun hc => hne (Prod.mk.inj hc).1)
            (by rw [hl3]; exact ⟨hcV, hcP⟩)
            (by rw [hl2]; exact ⟨mkPte_V _ _, mkPte_pa hp.paOk (isFlags_copyFlags _)⟩)
        have hcnt := hI2.count _ hp
        have hH' := hH (PTE2PA (leaf m old n))
        rw [bump_self] at hcnt
        have hpos : 0 < m2.refcnt (pa2idx (PTE2PA (leaf m old n))) := by split at hcnt <;> omega
        have hI3 := hI2.inc hp hpos (hI2.notNode hp (by rw [bump_self]; omega))
        rw [bump_bump, show (-1 : Int) + 1 = 0 by rfl, bump_zero] at hI3
        refine wp_krefinc hp hpos (hs _ ρ2 hI3 ⟨?_, fun r' hr' n' hn' => ?_⟩)
        · have hG := hQ1.alloc.grow.trans hA2.grow
          exact ⟨hG.data, hG.free, hG.fails⟩
        · change leaf m2 r' n' = _
          rw [hL2 r' hr' n' hn', hL1 r' hr' n' hn']
          by_cases h1 : r' = new ∧ n' = n
          · rw [if_pos h1, if_neg (fun hc => hne (hc.1.symm.trans h1.1)), if_pos ⟨h1.1, h1.2, hv'⟩]
          · rw [if_neg h1]
            by_cases h2 : r' = old ∧ n' = n
            · rw [if_pos h2, if_pos h2]
            · rw [if_neg h2, if_neg h2, if_neg fun hc => h1 ⟨hc.1, hc.2.1⟩]
      · intro m2 ρ2 hI2 hS2 hA2 hlt2
        simp only [isNone_some, Bool.false_eq_true, if_false, wp_pure]
        refine hn m2 ρ2 hI2 (fun r' hr' n' hn' => ?_) (hQ1.alloc.grow.trans hA2.grow) ?_
        · rw [hS2 r' hr' n' hn', hL1 r' hr' n' hn']
        · rw [← hQ1.fails]; exact hlt2
    by_cases hw : (leaf m old n).has PTE_W
    · simp only [hw, if_true, wp_bind, wp_setPte]
      have hce : cowed (leaf m old n) = PA2PTE (PTE2PA (leaf m old n)) ||| copyFlags (leaf m old n) := by
        unfold cowed; rw [if_pos ⟨hv', hw⟩]
      rw [← hce]
      obtain ⟨hI1, hL⟩ := hI.put (e := cowed (leaf m old n)) ha hu
        (fun _ => by rw [hcP]; exact hp) (by
          intro _ r' hr' n' hn' hne' href
          rw [hcP] at href
          exact ⟨hothers r' hr' n' hn' hne' href, hcW⟩)
      refine hcont _ ?_ hL ⟨rfl, rfl, rfl, rfl⟩
      convert hI1 using 1
      funext x
      simp only [refers_cowed hv' hp.paOk]; omega
    · simp only [hw, Bool.false_eq_true, if_false, wp_bind]
      refine hcont m hI (fun r' _ n' _ => ?_) (Quiet.refl m)
      by_cases h1 : r' = old ∧ n' = n
      · rw [if_pos h1, h1.1, h1.2]; unfold cowed; rw [if_neg fun hc => hw hc.2]
      · rw [if_neg h1]

theorem wp_uvmcopy {sz : Nat} {Q : Bool → Mem → Prop} (hsz : rounds 0 sz ≤ NUPAGE)
    (hE : (∃ n < rounds 0 sz, (leaf m new n).has PTE_V) → E (.panic .remap))
    (hs : ∀ m' ρ', MemInv m' R ρ' H → Copied m m' R old new (rounds 0 sz) → Q true m')
    (hn : ∀ m' ρ', MemInv m' R ρ' H → CopyFailed m m' R old new (rounds 0 sz) → m.fails < m'.fails → Q false m') :
    wp (uvmcopy old new sz) Q E m := by
  refine wp_seq (wp_search (fun i m' => ∃ ρ', MemInv m' R ρ' H ∧ Copied m m' R old new i) ?_ ?_ ?_)
  · refine ⟨ρ, hI, Grow.refl m, fun r' _ n _ => ?_⟩
    rw [if_neg (by omega), if_neg (by omega)]
  · rintro i m1 - hi ⟨ρ1, hI1, hC1⟩
    rw [zero_add] at hi
    have hlt : i < 512 * 512 * 512 := NUPAGE_lt (by omega)
    refine wp_copyPte hI1 hH ho hnew hne (by omega) ?_ ?_ ?_
    · intro hv
      refine hE ⟨i, hi, ?_⟩
      rw [hC1.leaf new hnew i hlt, if_neg (by omega), if_neg (by omega)] at hv; exact hv
    · intro m2 ρ2 hI2 hC2
      exact ⟨ρ2, hI2, hC1.snoc hC2 ho hne hlt⟩
    · intro m2 ρ2 hI2 hL2 hG2 hlt2
      simp only [wp_bind, wp_pure]
      have hdiv : i * PGSIZE / PGSIZE = i := Nat.mul_div_cancel _ (by decide)
      rw [hdiv]
      refine wp_uvmunmap hI2 hH hnew (Nat.zero_mod _) (by omega) fun m3 hI3 hR3 hC3 => ?_
      rw [Nat.zero_div, zero_add] at hC3
      refine hn m3 ρ2 hI3 (CopyFailed.of hC1 hL2 hC3 ho hnew hne hi) ?_
      rw [hR3.fails]; exact lt_of_le_of_lt hC1.grow.fails hlt2
  · rintro m1 ⟨ρ1, hI1, hC1⟩
    rw [zero_add] at hC1
    exact wp_ret (hs m1 ρ1 hI1 hC1)

end

/-! ## `freewalk` -/

def LeafOk (m : Mem) (r : Nat) : Prop :=
  ∀ n < 512 * 512 * 512, (leaf m r n).has PTE_V = true → (leaf m r n).has (PTE_R ||| PTE_W ||| PTE_X) = true

structure Pruned (m m' : Mem) (R : Finset Nat) (r : Nat) : Prop where
  release : Release m m'
  leaf : ∀ r' ∈ R, ∀ n < 512 * 512 * 512,
    leaf m' r' n = leaf m r' n ∨ (r' = r ∧ Xv6.leaf m' r' n = 0#64 ∧ (Xv6.leaf m r' n).has PTE_V = false)

theorem Pruned.refl (m : Mem) (R : Finset Nat) (r : Nat) : Pruned m m R r :=
  ⟨Release.refl m, fun _ _ _ _ => .inl rfl⟩

theorem Pruned.trans {m3 : Mem} (h : Pruned m1 m2 R r) (h' : Pruned m2 m3 R r) : Pruned m1 m3 R r where
  release := h.release.trans h'.release
  leaf r' hr' n hn := by
    rcases h'.leaf r' hr' n hn with h1 | ⟨h1, h2, h3⟩
    · rw [h1]; exact h.leaf r' hr' n hn
    · rcases h.leaf r' hr' n hn with h4 | ⟨-, -, h4⟩
      · exact .inr ⟨h1, h2, by rw [← h4]; exact h3⟩
      · exact .inr ⟨h1, h2, h4⟩

theorem LeafOk.pruned (h : LeafOk m r) (hr : r ∈ R) (hP : Pruned m m' R r) : LeafOk m' r := by
  intro n hn hv
  rcases hP.leaf r hr n hn with h1 | ⟨-, h1, -⟩
  · rw [h1] at hv ⊢; exact h n hn hv
  · rw [h1] at hv; simp at hv

def Above (m m' : Mem) (ρ ρ' : Owners) (l : Nat) : Prop :=
  ∀ b r' nd', ρ b = some (r', nd') → l < nd'.level → ρ' b = ρ b ∧ m'.pte b = m.pte b

def Maps (m : Mem) (r : Nat) : Prop := ∃ n < 512 * 512 * 512, (leaf m r n).has PTE_V = true

theorem Maps.pruned (h : Maps m' r) (hr : r ∈ R) (hP : Pruned m m' R r) : Maps m r := by
  obtain ⟨n, hn, hv⟩ := h
  refine ⟨n, hn, ?_⟩
  rcases hP.leaf r hr n hn with h1 | ⟨-, h1, -⟩
  · rwa [h1] at hv
  · rw [h1] at hv; simp at hv

def FreedBelow (m m' : Mem) (R : Finset Nat) (ρ : Owners) (H : Nat → Int) (r : Nat) (nd : Node) (p i : Nat) : Prop :=
  ∃ ρ', MemInv (m'.put p i 0#64) R ρ' H ∧ Pruned m (m'.put p i 0#64) R r ∧ ρ' p = some (r, nd) ∧
    (∀ j, j ≠ i → m'.pte p j = m.pte p j) ∧ Above m (m'.put p i 0#64) ρ ρ' nd.level

theorem wp_freeLoop (hI : MemInv m R ρ H) (hp : ρ p = some (r, nd))
    (hok : LeafOk m r) (hE : Maps m r → E (.panic .freewalkLeaf))
    (hdown : nd.IsDir → ∀ m1 ρ1 c i, MemInv m1 R ρ1 H → LeafOk m1 r → (Maps m1 r → Maps m r) → ρ1 p = some (r, nd) →
      i < 512 →
      dir m1 p i = some c → wp (d c) (fun _ m' => FreedBelow m1 m' R ρ1 H r nd p i) E m1) :
    ∀ N ≤ 512, wp (forN (freeEntry d p) N) (fun _ m' => ∃ ρ', MemInv m' R ρ' H ∧ Pruned m m' R r ∧
      ρ' p = some (r, nd) ∧ (∀ j < N, (m'.pte p j).has PTE_V = false) ∧ Above m m' ρ ρ' nd.level) E m := by
  intro N hN
  obtain ⟨hr, hndok, -⟩ := hI.forest.node p r nd hp
  refine wp_forN (fun i m' => ∃ ρ', MemInv m' R ρ' H ∧ Pruned m m' R r ∧ ρ' p = some (r, nd) ∧
    (∀ j < i, (m'.pte p j).has PTE_V = false) ∧ Above m m' ρ ρ' nd.level) ?_ ?_
  · exact ⟨ρ, hI, Pruned.refl m R r, hp, fun _ hj => by omega, fun _ _ _ _ _ => ⟨rfl, rfl⟩⟩
  rintro i m1 hiN ⟨ρ1, hI1, hP1, hp1, hj1, hA1⟩
  have hi : i < 512 := by omega
  have hok1 := hok.pruned hr hP1
  unfold freeEntry
  rw [wp_bind, wp_getPte]
  refine wp_ite (fun hc => ?_) fun hc => wp_ite (fun hv => wp_fail ?_) fun hv => wp_ret ?_
  · by_cases hd : nd.IsDir
    · have hdir : dir m1 p i = some (PTE2PA (m1.pte p i)) := by unfold dir; rw [if_pos hc.1]
      simp only [wp_bind, wp_setPte]
      refine wp_post (hdown hd m1 ρ1 _ i hI1 hok1 (fun hM => hM.pruned hr hP1) hp1 hi hdir) ?_
      rintro _ m2 ⟨ρ2, hI2, hP2, hp2, hj2, hA2⟩
      refine ⟨ρ2, hI2, hP1.trans hP2, hp2, fun j hj => ?_, fun b r' nd' hb hl => ?_⟩
      · by_cases hji : j = i
        · rw [hji]; unfold Mem.put; simp
        · have : (m2.put p i 0#64).pte p j = m2.pte p j := by
            unfold Mem.put; simp only [update_self]; rw [update_of_ne hji]
          rw [this, hj2 j hji]; exact hj1 j (by omega)
      · have h1 := hA1 b r' nd' hb hl
        have h2 := hA2 b r' nd' (h1.1.trans hb) hl
        exact ⟨h2.1.trans h1.1, h2.2.trans h1.2⟩
    · -- a valid entry of the lowest level is a leaf
      obtain ⟨n, hn, hl⟩ := hI1.forest.leaf_at hp1 hd hi
      have := hok1 n hn (by rw [hl]; exact hc.1)
      rw [hl, hc.2] at this; cases this
  · have hd : ¬ nd.IsDir := fun hd => hc ⟨hv, hI1.forest.dirs p r nd i hp1 hd hi hv⟩
    obtain ⟨n, hn, hl⟩ := hI1.forest.leaf_at hp1 hd hi
    exact hE (Maps.pruned ⟨n, hn, by rw [hl]; exact hv⟩ hr hP1)
  · refine ⟨ρ1, hI1, hP1, hp1, fun j hj => ?_, hA1⟩
    by_cases hji : j = i
    · rw [hji]; simpa using hv
    · exact hj1 j (by omega)

theorem wp_freePage (hI : MemInv m R ρ H) (hH : ∀ a, 0 ≤ H a) (hp : ρ p = some (r, nd))
    (hd : nd.IsDir) (hi : i < 512) (hc : dir m p i = some c) (hempty : ∀ j < 512, (m.pte c j).has PTE_V = false) :
    wp (kfree c) (fun _ m' => ∃ ρ', MemInv (m'.put p i 0#64) R ρ' H ∧ Pruned m (m'.put p i 0#64) R r ∧
      ρ' p = some (r, nd) ∧ m'.pte p = m.pte p ∧ Above m (m'.put p i 0#64) ρ ρ' nd.level) E m := by
  have hρc := hI.child hp hd hi hc
  have hlev := Node.level_child (i := i) hd
  have hne : p ≠ c := by
    rintro rfl
    rw [hp] at hρc
    simp only [some.injEq, Prod.mk.injEq, true_and] at hρc
    rw [← hρc] at hlev; omega
  have hpage := hI.nodePage c (by simp [hρc])
  obtain ⟨hI1, hL1⟩ := hI.delPage hp hd hi hc hempty
  obtain ⟨hpos, hI2, hS2, hR2⟩ := hI1.dropHeld hpage (by rw [bump_self]; have := hH c; omega)
  rw [bump_cancel] at hI2
  refine wp_kfree hpage hpos ?_
  have hpte : ∀ b, b ≠ c → (m.drop c).pte b = m.pte b := fun b hb => by
    unfold Mem.drop
    split
    · rfl
    · exact fill_pte_ne hb
  rw [drop_put hne]
  refine ⟨_, hI2, ⟨?_, fun r' hr' n hn => ?_⟩, ?_, hpte p hne, fun b r' nd' hb hl => ?_⟩
  · exact Release.trans (show Quiet m (m.put p i 0#64) from ⟨rfl, rfl, rfl, rfl⟩).release hR2
  · rw [hS2 r' hr' n hn]; exact hL1 r' hr' n hn
  · rw [update_of_ne hne]; exact hp
  · have hbc : b ≠ c := by
      rintro rfl
      rw [hρc] at hb
      simp only [some.injEq, Prod.mk.injEq] at hb
      rw [← hb.2] at hl; omega
    have hbp : b ≠ p := by
      rintro rfl
      rw [hp] at hb
      simp only [some.injEq, Prod.mk.injEq] at hb
      rw [← hb.2] at hl; omega
    refine ⟨update_of_ne hbc _ _, ?_⟩
    rw [← drop_put hne]
    change update _ p _ b = _
    rw [update_of_ne hbp]; exact hpte b hbc

theorem wp_freeBelow (hH : ∀ a, 0 ≤ H a) (hp : ρ p = some (r, nd))
    (hd : nd.IsDir) (hi : i < 512) (hc : dir m p i = some c)
    (hloop : wp (forN (freeEntry d c) 512) (fun _ m' => ∃ ρ', MemInv m' R ρ' H ∧ Pruned m m' R r ∧
      ρ' c = some (r, nd.child i) ∧ (∀ j < 512, (m'.pte c j).has PTE_V = false) ∧
      Above m m' ρ ρ' (nd.child i).level) E m) :
    wp (do forN (freeEntry d c) 512; kfree c) (fun _ m' => FreedBelow m m' R ρ H r nd p i) E m := by
  have hlev := Node.level_child (i := i) hd
  refine wp_seq (wp_post hloop ?_)
  rintro _ m1 ⟨ρ1, hI1, hP1, -, hz, hA1⟩
  obtain ⟨hρp, hpte⟩ := hA1 p r nd hp (by omega)
  refine wp_post (wp_freePage hI1 hH (hρp.trans hp) hd hi (by rw [dir_congr hpte]; exact hc) hz) ?_
  rintro _ m2 ⟨ρ2, hI2, hP2, hp2, hpte2, hA2⟩
  refine ⟨ρ2, hI2, hP1.trans hP2, hp2, fun j _ => by rw [hpte2, hpte], fun b r' nd' hb hl' => ?_⟩
  have h1 := hA1 b r' nd' hb (by omega)
  have h2 := hA2 b r' nd' (h1.1.trans hb) hl'
  exact ⟨h2.1.trans h1.1, h2.2.trans h1.2⟩

theorem wp_freewalk_below (hH : ∀ a, 0 ≤ H a) :
    ∀ (l : Nat) {m : Mem} {ρ : Owners} {nd : Node} {p c i : Nat}, MemInv m R ρ H → LeafOk m r →
      (Maps m r → E (.panic .freewalkLeaf)) → ρ p = some (r, nd) →
      nd.IsDir → nd.level = l + 1 → i < 512 → dir m p i = some c →
      wp (freewalk l c) (fun _ m' => FreedBelow m m' R ρ H r nd p i) E m := by
  intro l
  induction l with
  | zero =>
    intro m ρ nd p c i hI hok hE hp hd hl hi hc
    have hρc := hI.child hp hd hi hc
    have hlev := Node.level_child (i := i) hd
    refine wp_freeBelow hH hp hd hi hc (wp_freeLoop hI hρc hok hE (fun hd' => ?_) 512 le_rfl)
    -- the pages of the lowest level point to no tables
    exact absurd (Node.level_child (i := 0) hd') (by omega)
  | succ l ih =>
    intro m ρ nd p c i hI hok hE hp hd hl hi hc
    have hρc := hI.child hp hd hi hc
    have hlev := Node.level_child (i := i) hd
    refine wp_freeBelow hH hp hd hi hc (wp_freeLoop hI hρc hok hE ?_ 512 le_rfl)
    intro hd' m1 ρ1 c' i' hI1 hok1 hM hp1 hi' hc'
    exact ih hI1 hok1 (fun h => hE (hM h)) hp1 hd' (by omega) hi' hc'

theorem wp_freewalk {Q : Unit → Mem → Prop} (hI : MemInv m R ρ H) (hH : ∀ a, 0 ≤ H a) (hr : r ∈ R) (hok : LeafOk m r)
    (hE : Maps m r → E (.panic .freewalkLeaf))
    (h : ∀ m' ρ', MemInv m' (R.erase r) ρ' H → SameLeaf m m' (R.erase r) → Release m m' → Q () m') :
    wp (freewalk 2 r) Q E m := by
  have hp := hI.forest.root hr
  rw [freewalk, wp_bind]
  refine wp_post (wp_freeLoop hI hp hok hE (fun hd m1 ρ1 c i hI1 hok1 hM hp1 hi hc =>
    wp_freewalk_below hH 1 hI1 hok1 (fun h => hE (hM h)) hp1 hd rfl hi hc) 512 le_rfl) ?_
  rintro _ m1 ⟨ρ1, hI1, hP1, hp1, hz, -⟩
  have hdir : ∀ i < 512, dir m1 r i = none := fun i hi => by unfold dir; rw [if_neg (by simp [hz i hi])]
  have hlow : ∀ k < 512 * 512, low m1 r k = none := fun k hk => by unfold low; rw [hdir _ (by omega)]; rfl
  have hleaf : ∀ n < 512 * 512 * 512, leaf m1 r n = 0#64 := fun n hn => leaf_of_none (hlow _ (by omega))
  -- the root is all that is left of the table
  have hnode : ∀ a nd, ρ1 a = some (r, nd) → a = r := fun a nd ha => by
    obtain ⟨-, hok, hn⟩ := hI1.forest.node a r nd ha
    cases nd with
    | root => exact (some.inj hn).symm
    | mid i => simp only [nodeAddr, hdir i hok] at hn; cases hn
    | low k => simp only [nodeAddr, hlow k hok] at hn; cases hn
  have hI2 := hI1.erase hr
  have hHr : (fun x => H x + leafCount m1 r x + (if (ρ1 x).any fun y => y.1 == r then 1 else 0)) = bump H r 1 := by
    funext x
    have h0 : leafCount m1 r x = 0 := Nat.count_of_forall_not fun n hn hR => by
      rw [hleaf n (NUPAGE_lt hn)] at hR; exact not_refers (zero_has _) x hR
    rw [h0]
    by_cases hx : x = r
    · rw [hx, bump_self, hp1]; simp
    · rw [bump_of_ne _ _ hx, if_neg]
      · simp
      · cases hρ : ρ1 x with
        | none => simp
        | some y =>
          intro hc
          simp only [any_some, beq_iff_eq] at hc
          exact hx (hnode x y.2 (by rw [hρ, ← hc]))
  rw [hHr] at hI2
  have hpage := hI1.nodePage r (by simp [hp1])
  obtain ⟨hpos, hI3, hS3, hR3⟩ := hI2.dropHeld hpage (by rw [bump_self]; have := hH r; omega)
  rw [bump_cancel] at hI3
  refine wp_kfree hpage hpos (h _ _ hI3 (fun r' hr' n hn => ?_) (hP1.release.trans hR3))
  rw [hS3 r' hr' n hn]
  rcases hP1.leaf r' (Finset.mem_of_mem_erase hr') n hn with h1 | ⟨h1, -⟩
  · exact h1
  · exact absurd h1 (Finset.ne_of_mem_erase hr')

theorem wp_uvmcreate (hI : MemInv m R ρ H) (hH : ∀ a, 0 ≤ H a)
    (hn : ∀ m', MemInv m' R ρ H → SameLeaf m m' R → Alloc m m' → m.fails < m'.fails → Q none m')
    (hs : ∀ m' ρ' r, r ∉ R → r ∈ m.freelist → MemInv m' (insert r R) ρ' H → SameLeaf m m' R →
      (∀ n, leaf m' r n = 0#64) → Alloc m m' → Q (some r) m') : wp uvmcreate Q E m := by
  refine wp_seq (wp_kalloc (wp_ret (hn _ (hI.congr rfl rfl rfl) (fun _ _ _ _ => rfl) ?_ (Nat.lt_succ_self _)))
    fun f rest hf => ?_)
  · exact ⟨fun _ _ _ => rfl, fun _ _ => rfl, List.suffix_rfl, Nat.le_succ _⟩
  have hfm : f ∈ m.freelist := by rw [hf]; exact List.mem_cons_self
  obtain ⟨hp, -, hρf, -, -⟩ := hI.fresh hH hfm
  obtain ⟨hI1, hS1, hA1⟩ := hI.take hH hf
  obtain ⟨hI2, hS2, h0⟩ := hI1.addRoot hρf hp (update_self ..)
  rw [bump_cancel] at hI2
  simp only [wp_bind, wp_memzero, wp_pure]
  refine hs _ _ f (fun hc => ?_) hfm hI2 (hS1.trans hS2) h0 (hA1.write rfl rfl (fun a ha => ?_) rfl)
  · rw [hI.forest.root hc] at hρf; cases hρf
  · exact fill_data_ne (by rintro rfl; exact ha hfm)

theorem wp_uvmfree {sz : Nat} {Q : Unit → Mem → Prop} (hI : MemInv m R ρ H) (hH : ∀ a, 0 ≤ H a) (hr : r ∈ R)
    (hsz : sz ≤ TRAPFRAME NPROC)
    (hok : ∀ n < 512 * 512 * 512, PGROUNDUP sz / 4096 ≤ n → (leaf m r n).has PTE_V →
      (leaf m r n).has (PTE_R ||| PTE_W ||| PTE_X))
    (hE : (∃ n < 512 * 512 * 512, PGROUNDUP sz / 4096 ≤ n ∧ (leaf m r n).has PTE_V) → E (.panic .freewalkLeaf))
    (h : ∀ m' ρ', MemInv m' (R.erase r) ρ' H → SameLeaf m m' (R.erase r) → Release m m' → Q () m') :
    wp (uvmfree r sz) Q E m := by
  have hwalk : ∀ m1, MemInv m1 R ρ H → Release m m1 → Cleared m m1 R r 0 (PGROUNDUP sz / 4096) →
      wp (freewalk 2 r) Q E m1 := by
    intro m1 hI1 hR1 hC1
    refine wp_freewalk hI1 hH hr (fun n hn hv => ?_) ?_ fun m2 ρ2 hI2 hS2 hR2 =>
      h m2 ρ2 hI2 (hC1.others.trans hS2) (hR1.trans hR2)
    · obtain ⟨he, hlo⟩ := hC1.valid hr hn hv
      rw [he] at hv ⊢
      exact hok n hn (by omega) hv
    · rintro ⟨n, hn, hv⟩
      obtain ⟨he, hlo⟩ := hC1.valid hr hn hv
      rw [he] at hv
      exact hE ⟨n, hn, by omega, hv⟩
  unfold uvmfree
  by_cases h0 : 0 < sz
  · simp only [h0, if_true, wp_bind]
    have hle := Nat.div_le_div_right (c := 4096) (PGROUNDUP_le hsz)
    refine wp_uvmunmap hI hH hr (by decide) (by simpa using hle) fun m1 hI1 hR1 hC1 => hwalk m1 hI1 hR1 ?_
    simpa using hC1
  · simp only [h0, if_false]
    rw [show sz = 0 by omega] at hwalk
    exact hwalk m hI (Release.refl m) (Cleared.refl m R r (by decide))

theorem wp_uvmclear {va : Nat} {Q : Unit → Mem → Prop} (hI : MemInv m R ρ H) (hr : r ∈ R) (hu : va / 4096 < NUPAGE)
    (hE : (leaf m r (va / 4096)).has PTE_V = false → E (.panic .uvmclear))
    (h : ∀ m', MemInv m' R ρ H → LeafUpd m m' R r (va / 4096) (leaf m r (va / 4096) &&& ~~~PTE_U) → Quiet m m' →
      Q () m') : wp (uvmclear r va) Q E m := by
  have hva : va < MAXVA := by lia
  unfold uvmclear
  rw [wp_bind, wp_walk_read hva]
  cases hl : low m r (va / 4096 / 512) with
  | none => exact wp_fail (hE (by rw [leaf_of_none hl]; simp))
  | some a =>
    have hlt := NUPAGE_lt hu
    have ha := hI.forest.low hr (by omega) hl
    simp only [map_some, wp_bind, wp_getPte, hI.pte_eq_leaf ha, wp_setPte]
    have hV : (leaf m r (va / 4096) &&& ~~~PTE_U).has PTE_V = (leaf m r (va / 4096)).has PTE_V := by
      rw [PTE_U, PTE_V, has_andNot _ (by omega)]; simp
    have hW : (leaf m r (va / 4096) &&& ~~~PTE_U).has PTE_W = (leaf m r (va / 4096)).has PTE_W := by
      rw [PTE_U, PTE_W, has_andNot _ (by omega)]; simp
    have hP : PTE2PA (leaf m r (va / 4096) &&& ~~~PTE_U) = PTE2PA (leaf m r (va / 4096)) :=
      PTE2PA_andNot (by omega)
    obtain ⟨hI1, hL⟩ := hI.put (e := leaf m r (va / 4096) &&& ~~~PTE_U) ha
      hu (fun hv => by rw [hP]; exact hI.leafPage r hr _ hu (by rwa [hV] at hv)) (by
        intro hv r' hr' n' hn' hne href
        rw [hV] at hv
        rw [hP] at href
        rw [hW]
        exact ⟨hI.cow r' hr' r hr n' hn' _ hu hne href.1 ⟨hv, href.2.symm⟩,
          hI.cow r hr r' hr' _ hu n' hn' hne.symm hv href⟩)
    refine h _ ?_ hL ⟨rfl, rfl, rfl, rfl⟩
    convert hI1 using 1
    funext x
    simp only [Refers, hV, hP]
    exact (Int.add_sub_cancel _ _).symm

end Xv6
