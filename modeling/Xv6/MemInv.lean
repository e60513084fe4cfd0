import Xv6.Tally
import Xv6.Forest

/-!
# Reference counts and the page tables

`MemInv m R ρ H`: the reference count of a page is the number of user leaf
entries that refer to it, plus one if it belongs to a page table, plus
`H`, what is held elsewhere; and the free list has each page of count 0
once. `H` may be off for a moment inside a function, so it is an integer.
-/

namespace Xv6

open Hoare Function List Option Finset

variable {n : Nat} {m1 m2 m3 : Mem} {nd : Node}

def Refers (e : Pte) (a : Nat) : Prop := e.has PTE_V = true ∧ PTE2PA e = a

instance (e : Pte) (a : Nat) : Decidable (Refers e a) := inferInstanceAs (Decidable (_ ∧ _))

/-- How many user pages the table with root `r` maps to `a`. -/
def leafCount (m : Mem) (r a : Nat) : Nat := Nat.count (fun n => Refers (leaf m r n) a) NUPAGE

def leafRefs (m : Mem) (R : Finset Nat) (a : Nat) : Nat := ∑ r ∈ R, leafCount m r a

def bump (H : Nat → Int) (a : Nat) (d : Int) : Nat → Int := fun x => if x = a then H x + d else H x

theorem bump_self (H : Nat → Int) (a : Nat) (d : Int) : bump H a d a = H a + d := by simp [bump]

theorem bump_of_ne (H : Nat → Int) (d : Int) (h : x ≠ a) : bump H a d x = H x := by simp [bump, h]

theorem bump_bump (H : Nat → Int) (a : Nat) (d e : Int) : bump (bump H a d) a e = bump H a (d + e) := by
  funext x; unfold bump; by_cases h : x = a <;> simp [h]; omega

theorem bump_zero (H : Nat → Int) (a : Nat) : bump H a 0 = H := by
  funext x; unfold bump; by_cases h : x = a <;> simp [h]

theorem bump_cancel (H : Nat → Int) (a : Nat) (d : Int) : bump (bump H a d) a (-d) = H := by
  rw [bump_bump, add_neg_cancel, bump_zero]

theorem NUPAGE_lt (h : n < NUPAGE) : n < 512 * 512 * 512 := lt_trans h (by decide)

theorem page_div (n : Nat) : n * PGSIZE / 4096 = n := Nat.mul_div_cancel n (by decide)

theorem leafCount_congr (h : ∀ n < NUPAGE, leaf m' r n = leaf m r n) (a : Nat) :
    leafCount m' r a = leafCount m r a := by
  exact Tally.count_congr fun n hn => by rw [h n hn]

theorem leafRefs_congr (h : ∀ r ∈ R, ∀ n < NUPAGE, leaf m' r n = leaf m r n)
    (a : Nat) : leafRefs m' R a = leafRefs m R a := by
  exact sum_congr rfl fun r hr => leafCount_congr (h r hr) a

def SameLeaf (m m' : Mem) (R : Finset Nat) : Prop :=
  ∀ r ∈ R, ∀ n < 512 * 512 * 512, leaf m' r n = leaf m r n

theorem SameLeaf.refl (m : Mem) (R : Finset Nat) : SameLeaf m m R := fun _ _ _ _ => rfl

theorem SameLeaf.trans (h : SameLeaf m1 m2 R) (h' : SameLeaf m2 m3 R) :
    SameLeaf m1 m3 R := fun r hr n hn => (h' r hr n hn).trans (h r hr n hn)

theorem SameLeaf.refs (h : SameLeaf m m' R) (a : Nat) :
    leafRefs m' R a = leafRefs m R a := leafRefs_congr (fun r hr n hn => h r hr n (NUPAGE_lt hn)) a

theorem leafRefs_pos (hr : r ∈ R) (hn : n < NUPAGE)
    (hv : (leaf m r n).has PTE_V) : 0 < leafRefs m R (PTE2PA (leaf m r n)) := by
  have : 0 < leafCount m r (PTE2PA (leaf m r n)) := Tally.count_pos hn ⟨hv, rfl⟩
  exact lt_of_lt_of_le this (single_le_sum (f := fun r => leafCount m r _) (fun _ _ => Nat.zero_le _) hr)

structure Grow (m m' : Mem) : Prop where
  data : ∀ a, a ∉ m.freelist → m'.data a = m.data a
  free : m'.freelist ⊆ m.freelist
  fails : m.fails ≤ m'.fails

theorem Grow.refl (m : Mem) : Grow m m := ⟨fun _ _ => rfl, fun _ => id, le_rfl⟩

theorem Grow.trans (h : Grow m1 m2) (h' : Grow m2 m3) : Grow m1 m3 where
  data a hf := (h'.data a fun hc => hf (h.free hc)).trans (h.data a hf)
  free _ ha := h.free (h'.free ha)
  fails := le_trans h.fails h'.fails

section
variable [Image] {f : Nat} {rest : List Nat}

structure MemInv (m : Mem) (R : Finset Nat) (ρ : Owners) (H : Nat → Int) : Prop where
  forest : Forest m R ρ
  freeNodup : m.freelist.Nodup
  freeIff : ∀ a, a ∈ m.freelist ↔ IsPage a ∧ m.refcnt (pa2idx a) = 0
  nodePage : ∀ a, ρ a ≠ none → IsPage a
  /-- A page of a table has no other use. -/
  excl : ∀ a, ρ a ≠ none → m.refcnt (pa2idx a) = 1
  leafPage : ∀ r ∈ R, ∀ n < NUPAGE, (leaf m r n).has PTE_V = true → IsPage (PTE2PA (leaf m r n))
  count : ∀ a, IsPage a →
    (m.refcnt (pa2idx a) : Int) = leafRefs m R a + (if ρ a = none then 0 else 1) + H a
  /-- A page mapped twice is mapped writable nowhere. -/
  cow : ∀ r ∈ R, ∀ r' ∈ R, ∀ n < NUPAGE, ∀ n' < NUPAGE, (r, n) ≠ (r', n') →
    (leaf m r n).has PTE_V = true → Refers (leaf m r' n') (PTE2PA (leaf m r n)) → (leaf m r n).has PTE_W = false

theorem MemInv.sole (h : MemInv m R ρ H) (hr : r ∈ R)
    (hn : n < NUPAGE) (hv : (leaf m r n).has PTE_V) (hw : (leaf m r n).has PTE_W) :
    leafRefs m R (PTE2PA (leaf m r n)) = 1 := by
  have hother : ∀ r' ∈ R, ∀ n' < NUPAGE, (r, n) ≠ (r', n') → ¬ Refers (leaf m r' n') (PTE2PA (leaf m r n)) := by
    intro r' hr' n' hn' hne href
    rw [h.cow r hr r' hr' n hn n' hn' hne hv href] at hw
    cases hw
  unfold leafRefs
  rw [sum_eq_single_of_mem r hr]
  · exact Tally.count_one hn ⟨hv, rfl⟩ fun k hk hne => hother r hr k hk fun hc => hne (Prod.mk.inj hc).2.symm
  · intro r' hr' hne
    exact Nat.count_of_forall_not fun k hk => hother r' hr' k hk fun hc => hne (Prod.mk.inj hc).1.symm

theorem MemInv.full (h1 : m.refcnt = fun _ => 1) (h2 : m.freelist = []) :
    MemInv m ∅ (fun _ => none) fun _ => 1 where
  forest := ⟨by simp, by simp, by simp⟩
  freeNodup := by simp [h2]
  freeIff := by simp [h1, h2]
  nodePage := by simp
  excl := by simp
  leafPage := by simp
  count := by simp [h1, leafRefs]
  cow := by simp

structure Alloc (m m' : Mem) : Prop where
  refcnt : ∀ a, IsPage a → a ∉ m.freelist → m'.refcnt (pa2idx a) = m.refcnt (pa2idx a)
  data : ∀ a, a ∉ m.freelist → m'.data a = m.data a
  free : m'.freelist <:+ m.freelist
  fails : m.fails ≤ m'.fails

structure Release (m m' : Mem) : Prop where
  refcnt : ∀ a, IsPage a → m'.refcnt (pa2idx a) ≤ m.refcnt (pa2idx a)
  data : ∀ a, (IsPage a → 0 < m'.refcnt (pa2idx a)) → m'.data a = m.data a
  free : m.freelist <:+ m'.freelist
  fails : m'.fails = m.fails

theorem Alloc.refl (m : Mem) : Alloc m m :=
  ⟨fun _ _ _ => rfl, fun _ _ => rfl, suffix_rfl, le_rfl⟩

theorem Alloc.trans (h : Alloc m1 m2) (h' : Alloc m2 m3) : Alloc m1 m3 where
  refcnt a ha hf := (h'.refcnt a ha fun hc => hf (h.free.subset hc)).trans (h.refcnt a ha hf)
  data a hf := (h'.data a fun hc => hf (h.free.subset hc)).trans (h.data a hf)
  free := h'.free.trans h.free
  fails := le_trans h.fails h'.fails

theorem Alloc.grow (h : Alloc m m') : Grow m m' := ⟨h.data, h.free.subset, h.fails⟩

theorem Alloc.write (h : Alloc m m1) (h1 : m2.refcnt = m1.refcnt) (h2 : m2.freelist = m1.freelist)
    (h3 : ∀ a, a ∉ m.freelist → m2.data a = m1.data a) (h4 : m2.fails = m1.fails) : Alloc m m2 where
  refcnt a ha hf := by rw [h1]; exact h.refcnt a ha hf
  data a hf := (h3 a hf).trans (h.data a hf)
  free := by rw [h2]; exact h.free
  fails := by rw [h4]; exact h.fails

theorem Release.refl (m : Mem) : Release m m :=
  ⟨fun _ _ => le_rfl, fun _ _ => rfl, suffix_rfl, rfl⟩

theorem Release.trans (h : Release m1 m2) (h' : Release m2 m3) : Release m1 m3 where
  refcnt a ha := le_trans (h'.refcnt a ha) (h.refcnt a ha)
  data a hf := (h'.data a hf).trans (h.data a fun ha => lt_of_lt_of_le (hf ha) (h'.refcnt a ha))
  free := h.free.trans h'.free
  fails := h'.fails.trans h.fails

/-! ## Tables and the free list, whatever is mapped -/

structure Pool (m : Mem) (R : Finset Nat) (ρ : Owners) : Prop where
  forest : Forest m R ρ
  freeNodup : m.freelist.Nodup
  freeIff : ∀ a, a ∈ m.freelist ↔ IsPage a ∧ m.refcnt (pa2idx a) = 0
  nodePage : ∀ a, ρ a ≠ none → IsPage a
  excl : ∀ a, ρ a ≠ none → m.refcnt (pa2idx a) = 1

structure TableGrow (m m' : Mem) (ρ ρ' : Owners) : Prop extends Alloc m m' where
  keeps : ∀ a, ρ a ≠ none → ρ' a = ρ a
  nodes : ∀ a, IsPage a → m'.refcnt (pa2idx a) = m.refcnt (pa2idx a) + if ρ a = none ∧ ρ' a ≠ none then 1 else 0

theorem TableGrow.refl (m : Mem) (ρ : Owners) : TableGrow m m ρ ρ :=
  ⟨Alloc.refl m, fun _ _ => rfl, fun a _ => by rw [if_neg fun hc => hc.2 hc.1, add_zero]⟩

theorem TableGrow.trans (h : TableGrow m1 m2 ρ1 ρ2) (h' : TableGrow m2 m3 ρ2 ρ3) : TableGrow m1 m3 ρ1 ρ3 := by
  refine ⟨h.toAlloc.trans h'.toAlloc, fun a ha => ?_, fun a ha => ?_⟩
  · have h1 := h.keeps a ha
    rw [h'.keeps a (h1 ▸ ha), h1]
  · rw [h'.nodes a ha, h.nodes a ha]
    have h1 := h.keeps a
    have h2 := h'.keeps a
    by_cases hρ1 : ρ1 a = none <;> by_cases hρ2 : ρ2 a = none <;> simp_all

namespace Pool

variable {m : Mem} {R : Finset Nat} {ρ : Owners} {r a i f : Nat}

variable (h : Pool m R ρ)
include h

theorem fresh (hf : f ∈ m.freelist) : IsPage f ∧ m.refcnt (pa2idx f) = 0 ∧ ρ f = none := by
  obtain ⟨hp, h0⟩ := (h.freeIff f).mp hf
  refine ⟨hp, h0, ?_⟩
  by_contra hn
  rw [h.excl f hn] at h0
  cases h0

theorem take (hf : m.freelist = f :: rest) :
    Pool (m.take f rest) R ρ ∧ SameLeaf m (m.take f rest) R ∧ Alloc m (m.take f rest) ∧
    (m.take f rest).refcnt (pa2idx f) = 1 ∧
      ∀ x, IsPage x → x ≠ f → (m.take f rest).refcnt (pa2idx x) = m.refcnt (pa2idx x) := by
  have hfm : f ∈ m.freelist := by rw [hf]; exact mem_cons_self
  obtain ⟨hp, -, hρ⟩ := h.fresh hfm
  have hnd := h.freeNodup
  rw [hf, nodup_cons] at hnd
  have hpte : ∀ a, ρ a ≠ none → (m.take f rest).pte a = m.pte a := fun a ha =>
    fill_pte_ne (by rintro rfl; exact ha hρ)
  have href : (m.take f rest).refcnt = update m.refcnt (pa2idx f) 1 := rfl
  have hidx : ∀ x, IsPage x → x ≠ f → (m.take f rest).refcnt (pa2idx x) = m.refcnt (pa2idx x) := fun x hx hne => by
    rw [href]; exact update_of_ne (fun hc => hne (pa2idx_inj hx hp hc)) _ _
  have hidf : (m.take f rest).refcnt (pa2idx f) = 1 := by rw [href]; exact update_self ..
  have hleaf : SameLeaf m (m.take f rest) R := fun r hr n hn => h.forest.leaf_congr hpte hr hn
  refine ⟨⟨h.forest.congr fun a r nd ha _ => hpte a (by simp [ha]), hnd.2, fun x => ?_, h.nodePage, fun x hx => ?_⟩,
    hleaf, ⟨fun x hx hnf => hidx x hx (by rintro rfl; exact hnf hfm),
      fun x hnf => fill_data_ne (by rintro rfl; exact hnf hfm), by rw [hf]; exact suffix_cons f rest, le_rfl⟩,
    hidf, hidx⟩
  · by_cases hxf : x = f
    · subst hxf
      exact ⟨fun hc => absurd hc hnd.1, fun hc => by rw [hidf] at hc; cases hc.2⟩
    · have hiff := h.freeIff x
      rw [hf, List.mem_cons, or_iff_right hxf] at hiff
      refine hiff.trans (and_congr_right fun hx => ?_)
      rw [hidx x hx hxf]
  · rw [hidx x (h.nodePage x hx) (by rintro rfl; exact hx hρ)]
    exact h.excl x hx

theorem fill (hf : ρ f = none) (c : UInt8) : Pool (m.fill f c) R ρ ∧ SameLeaf m (m.fill f c) R := by
  have hpte : ∀ a, ρ a ≠ none → (m.fill f c).pte a = m.pte a := fun a ha => fill_pte_ne (by rintro rfl; exact ha hf)
  have hleaf : SameLeaf m (m.fill f c) R := fun r hr n hn => h.forest.leaf_congr hpte hr hn
  exact ⟨⟨h.forest.congr fun a r nd ha _ => hpte a (by simp [ha]), h.freeNodup, h.freeIff, h.nodePage, h.excl⟩, hleaf⟩

theorem drop (hp : IsPage f) (hr : 0 < m.refcnt (pa2idx f)) (hρ : ρ f = none) :
    Pool (m.drop f) R ρ ∧ SameLeaf m (m.drop f) R ∧ Release m (m.drop f) ∧
      (m.drop f).refcnt (pa2idx f) = m.refcnt (pa2idx f) - 1 ∧
      ∀ x, IsPage x → x ≠ f → (m.drop f).refcnt (pa2idx x) = m.refcnt (pa2idx x) := by
  have hpte : ∀ a, ρ a ≠ none → (m.drop f).pte a = m.pte a := fun a ha => by
    unfold Mem.drop
    split
    · rfl
    · exact fill_pte_ne (by rintro rfl; exact ha hρ)
  have href : (m.drop f).refcnt = update m.refcnt (pa2idx f) (m.refcnt (pa2idx f) - 1) := by
    unfold Mem.drop; split <;> rfl
  have hidx : ∀ a, IsPage a → a ≠ f → (m.drop f).refcnt (pa2idx a) = m.refcnt (pa2idx a) := fun a ha hne => by
    rw [href]; exact update_of_ne (fun hc => hne (pa2idx_inj ha hp hc)) _ _
  have hidf : (m.drop f).refcnt (pa2idx f) = m.refcnt (pa2idx f) - 1 := by rw [href]; exact update_self ..
  have hnf : f ∉ m.freelist := fun hc => by have := ((h.freeIff f).mp hc).2; omega
  have hfree : ∀ a, a ∈ (m.drop f).freelist ↔ a ∈ m.freelist ∨ (a = f ∧ m.refcnt (pa2idx f) = 1) := by
    intro a
    unfold Mem.drop
    by_cases h1 : 1 < m.refcnt (pa2idx f)
    · rw [if_pos h1]
      exact ⟨.inl, fun hc => hc.elim id fun hc => by omega⟩
    · rw [if_neg h1]
      simp only [List.mem_cons]
      exact ⟨fun hc => hc.elim (fun e => .inr ⟨e, by omega⟩) .inl,
        fun hc => hc.elim .inr fun e => .inl e.1⟩
  have hleaf : SameLeaf m (m.drop f) R := fun r hr n hn => h.forest.leaf_congr hpte hr hn
  refine ⟨⟨h.forest.congr fun a r nd ha _ => hpte a (by simp [ha]), ?_, fun a => ?_, h.nodePage, fun a ha => ?_⟩,
    hleaf, ⟨fun a ha => ?_, fun a ha => ?_, ?_, ?_⟩, hidf, hidx⟩
  · unfold Mem.drop
    split
    · exact h.freeNodup
    · exact nodup_cons.mpr ⟨hnf, h.freeNodup⟩
  · rw [hfree, h.freeIff]
    by_cases hne : a = f
    · subst hne; rw [hidf]
      exact ⟨fun hc => ⟨hp, by omega⟩, fun hc => .inr ⟨rfl, by omega⟩⟩
    · rw [or_iff_left fun hc => hne hc.1]
      exact and_congr_right fun ha => by rw [hidx a ha hne]
  · rw [hidx a (h.nodePage a ha) (by rintro rfl; exact ha hρ)]; exact h.excl a ha
  · by_cases hne : a = f
    · subst hne; rw [hidf]; omega
    · rw [hidx a ha hne]
  · unfold Mem.drop
    split
    · rfl
    · refine fill_data_ne ?_
      rintro rfl
      have := ha hp
      omega
  · unfold Mem.drop
    split
    · exact suffix_rfl
    · exact suffix_cons f _
  · unfold Mem.drop; split <;> rfl

theorem addPage (ha : ρ a = some (r, nd)) (hd : nd.IsDir) (hi : i < 512)
    (hv : (m.pte a i).has PTE_V = false) (hf : ρ f = none) (hp : IsPage f) (h1 : m.refcnt (pa2idx f) = 1) :
    Pool ((m.fill f 0).put a i (PA2PTE f ||| PTE_V)) R (update ρ f (some (r, nd.child i))) ∧
      SameLeaf m ((m.fill f 0).put a i (PA2PTE f ||| PTE_V)) R := by
  have hfa : a ≠ f := by rintro rfl; rw [hf] at ha; cases ha
  have hm : ((m.fill f 0).put a i (PA2PTE f ||| PTE_V)).pte = update (update m.pte f fun _ => 0#64) a
      (update (m.pte a) i (PA2PTE f ||| PTE_V)) := by
    unfold Mem.put; simp only; rw [fill_pte_ne hfa]; rfl
  obtain ⟨hF, hL⟩ := h.forest.addPage ha hd hi hv hf (PA2PTE f ||| PTE_V)
    (by rw [PTE_V, has_mk (by omega)]; decide) (PTE2PA_mk hp.paOk (by decide))
    (by simp only [has_or_right, PTE_R, PTE_W, PTE_X]
        rw [has_mk (by omega), has_mk (by omega), has_mk (by omega)]; decide) hm
  refine ⟨⟨hF, h.freeNodup, h.freeIff, fun b hb => ?_, fun b hb => ?_⟩, hL⟩
  all_goals by_cases hbf : b = f
  · rw [hbf]; exact hp
  · rw [update_of_ne hbf] at hb; exact h.nodePage b hb
  · rw [hbf]; exact h1
  · rw [update_of_ne hbf] at hb; exact h.excl b hb

end Pool

namespace MemInv

variable {m m' : Mem} {R : Finset Nat} {ρ : Owners} {H : Nat → Int}

variable (h : MemInv m R ρ H)
include h

theorem pool : Pool m R ρ := ⟨h.forest, h.freeNodup, h.freeIff, h.nodePage, h.excl⟩

theorem fresh (hH : ∀ a, 0 ≤ H a) (hf : f ∈ m.freelist) :
    IsPage f ∧ m.refcnt (pa2idx f) = 0 ∧ ρ f = none ∧ leafRefs m R f = 0 ∧ H f = 0 := by
  obtain ⟨hp, h0⟩ := (h.freeIff f).mp hf
  have hc := h.count f hp
  have := hH f
  split at hc
  · rename_i hn; exact ⟨hp, h0, hn, by omega, by omega⟩
  · omega

theorem ofPool (hP : Pool m' R ρ') (hS : SameLeaf m m' R)
    (hc : ∀ a, IsPage a → (m'.refcnt (pa2idx a) : Int) = leafRefs m R a + (if ρ' a = none then 0 else 1) + H' a) :
    MemInv m' R ρ' H' := by
  have hu : ∀ {r n}, r ∈ R → n < NUPAGE → leaf m' r n = leaf m r n := fun hr hn => hS _ hr _ (NUPAGE_lt hn)
  refine ⟨hP.forest, hP.freeNodup, hP.freeIff, hP.nodePage, hP.excl, fun r hr n hn => ?_, fun a ha => ?_,
    fun r hr r' hr' n hn n' hn' => ?_⟩
  · rw [hu hr hn]; exact h.leafPage r hr n hn
  · rw [hS.refs]; exact hc a ha
  · rw [hu hr hn, hu hr' hn']; exact h.cow r hr r' hr' n hn n' hn'

theorem more (hP : Pool m' R ρ') (hS : SameLeaf m m' R) (hM : TableGrow m m' ρ ρ') :
    MemInv m' R ρ' H := by
  refine h.ofPool hP hS fun a ha => ?_
  have hc := h.count a ha
  have hk := hM.keeps a
  rw [hM.nodes a ha]
  by_cases hρ : ρ a = none <;> by_cases hρ' : ρ' a = none <;> simp_all
  omega

theorem congr (h1 : m'.refcnt = m.refcnt) (h2 : m'.freelist = m.freelist)
    (h3 : m'.pte = m.pte) : MemInv m' R ρ H := by
  have hl : ∀ r n, leaf m' r n = leaf m r n := fun r n => by simp only [leaf, low, dir, h3]
  have hs : SameLeaf m m' R := fun r _ n _ => hl r n
  refine h.ofPool ⟨h.forest.congr fun a _ _ _ _ => by rw [h3], ?_, ?_, h.nodePage, ?_⟩ hs fun a ha => ?_
  · rw [h2]; exact h.freeNodup
  · rw [h1, h2]; exact h.freeIff
  · rw [h1]; exact h.excl
  · rw [h1]; exact h.count a ha

theorem take (hH : ∀ a, 0 ≤ H a) (hf : m.freelist = f :: rest) :
    MemInv (m.take f rest) R ρ (bump H f 1) ∧ SameLeaf m (m.take f rest) R ∧ Alloc m (m.take f rest) := by
  obtain ⟨-, -, hρ, hl0, hH0⟩ := h.fresh hH (by rw [hf]; exact mem_cons_self)
  obtain ⟨hP, hS, hA, hidf, hidx⟩ := h.pool.take hf
  refine ⟨h.ofPool hP hS fun a ha => ?_, hS, hA⟩
  by_cases hne : a = f
  · rw [hne, hidf, hl0, hρ, bump_self, hH0]; rfl
  · rw [hidx a ha hne, bump_of_ne _ _ hne]; exact h.count a ha

theorem fill (hf : ρ f = none) (c : UInt8) :
    MemInv (m.fill f c) R ρ H ∧ SameLeaf m (m.fill f c) R := by
  obtain ⟨hP, hS⟩ := h.pool.fill hf c
  exact ⟨h.ofPool hP hS h.count, hS⟩

theorem takeZero (hH : ∀ a, 0 ≤ H a) (hf : m.freelist = f :: rest) :
    MemInv ((m.take f rest).fill f 0) R ρ (bump H f 1) ∧ SameLeaf m ((m.take f rest).fill f 0) R ∧
      Alloc m ((m.take f rest).fill f 0) := by
  have hfm : f ∈ m.freelist := by rw [hf]; exact mem_cons_self
  obtain ⟨hI1, hS1, hA1⟩ := h.take hH hf
  obtain ⟨hI2, hS2⟩ := hI1.fill (h.fresh hH hfm).2.2.1 0
  exact ⟨hI2, hS1.trans hS2, hA1.write rfl rfl (fun a ha => fill_data_ne (by rintro rfl; exact ha hfm)) rfl⟩

theorem drop (hp : IsPage f) (hr : 0 < m.refcnt (pa2idx f)) (hρ : ρ f = none) :
    MemInv (m.drop f) R ρ (bump H f (-1)) ∧ SameLeaf m (m.drop f) R ∧ Release m (m.drop f) := by
  obtain ⟨hP, hS, hR, hidf, hidx⟩ := h.pool.drop hp hr hρ
  refine ⟨h.ofPool hP hS fun a ha => ?_, hS, hR⟩
  have hc := h.count a ha
  by_cases hne : a = f
  · subst hne; rw [hidf, bump_self]; omega
  · rw [hidx a ha hne, bump_of_ne _ _ hne]; exact hc

theorem notNode (hp : IsPage f) (hH : 0 < leafRefs m R f + H f) : ρ f = none := by
  by_contra hn
  have hc := h.count f hp
  rw [h.excl f hn, if_neg hn] at hc
  omega

theorem dropHeld (hp : IsPage f) (hH : 0 < H f) :
    0 < m.refcnt (pa2idx f) ∧ MemInv (m.drop f) R ρ (bump H f (-1)) ∧ SameLeaf m (m.drop f) R ∧ Release m (m.drop f) := by
  have hc := h.count f hp
  have hr : 0 < m.refcnt (pa2idx f) := by split at hc <;> omega
  refine ⟨hr, h.drop hp hr (h.notNode hp ?_)⟩
  omega

theorem inc (hp : IsPage f) (hr : 0 < m.refcnt (pa2idx f)) (hρ : ρ f = none) :
    MemInv (m.incr f) R ρ (bump H f 1) := by
  have href : (m.incr f).refcnt = update m.refcnt (pa2idx f) (m.refcnt (pa2idx f) + 1) := rfl
  have hidx : ∀ a, IsPage a → a ≠ f → (m.incr f).refcnt (pa2idx a) = m.refcnt (pa2idx a) := fun a ha hne => by
    rw [href]; exact update_of_ne (fun hc => hne (pa2idx_inj ha hp hc)) _ _
  have hidf : (m.incr f).refcnt (pa2idx f) = m.refcnt (pa2idx f) + 1 := by rw [href]; exact update_self ..
  have hs : SameLeaf m (m.incr f) R := fun _ _ _ _ => rfl
  refine h.ofPool ⟨h.forest.congr fun a _ _ _ _ => rfl, h.freeNodup, fun a => ?_, h.nodePage, fun a ha => ?_⟩ hs
    fun a ha => ?_
  · change a ∈ m.freelist ↔ _
    rw [h.freeIff]
    by_cases hne : a = f
    · subst hne
      exact ⟨fun hc => by omega, fun hc => by omega⟩
    · constructor
      · intro hc; exact ⟨hc.1, by rw [hidx a hc.1 hne]; exact hc.2⟩
      · intro hc; rw [hidx a hc.1 hne] at hc; exact hc
  · rw [hidx a (h.nodePage a ha) (by rintro rfl; exact ha hρ)]; exact h.excl a ha
  · have hc := h.count a ha
    by_cases hne : a = f
    · subst hne; rw [hidf, bump_self]; push_cast; omega
    · rw [hidx a ha hne, bump_of_ne _ _ hne]; exact hc

end MemInv

end

/-! ## Changing an entry -/

def LeafUpd (m m' : Mem) (R : Finset Nat) (r n : Nat) (e : Pte) : Prop :=
  ∀ r' ∈ R, ∀ n' < 512 * 512 * 512, leaf m' r' n' = if r' = r ∧ n' = n then e else leaf m r' n'

theorem leafRefs_point (hr : r ∈ R) (hn : n < NUPAGE)
    (h : LeafUpd m m' R r n e) (x : Nat) :
    leafRefs m' R x + (if Refers (leaf m r n) x then 1 else 0) = leafRefs m R x + (if Refers e x then 1 else 0) := by
  unfold leafRefs
  rw [← add_sum_erase R _ hr, ← add_sum_erase R (fun r => leafCount m r x) hr]
  have h1 : ∑ r' ∈ R.erase r, leafCount m' r' x = ∑ r' ∈ R.erase r, leafCount m r' x :=
    sum_congr rfl fun r' hr' => leafCount_congr (fun n' hn' => by
      rw [h r' (mem_of_mem_erase hr') n' (NUPAGE_lt hn'),
        if_neg fun hc => ne_of_mem_erase hr' hc.1]) x
  have h2 : leafCount m' r x + (if Refers (leaf m r n) x then 1 else 0) =
      leafCount m r x + (if Refers (leaf m' r n) x then 1 else 0) :=
    Tally.count_point (p := fun n => Refers (leaf m r n) x) (q := fun n => Refers (leaf m' r n) x) hn
      fun k hk hne => by rw [h r hr k (NUPAGE_lt hk), if_neg fun hc => hne hc.2]
  have hl := h r hr n (NUPAGE_lt hn)
  rw [if_pos ⟨rfl, rfl⟩] at hl
  rw [hl] at h2
  omega

theorem leafRefs_kernel (hn : NUPAGE ≤ n)
    (h : LeafUpd m m' R r n e) (x : Nat) : leafRefs m' R x = leafRefs m R x :=
  leafRefs_congr (fun r' hr' n' hn' => by
    rw [h r' hr' n' (NUPAGE_lt hn'), if_neg fun hc => by omega]) x

theorem leafRefs_two (hr : r ∈ R) (hr' : r' ∈ R) (hn : n < NUPAGE)
    (hn' : n' < NUPAGE) (hne : (r, n) ≠ (r', n')) (h : Refers (leaf m r n) x) (h' : Refers (leaf m r' n') x) :
    2 ≤ leafRefs m R x := by
  unfold leafRefs
  rw [← add_sum_erase R _ hr]
  by_cases hrr : r' = r
  · subst hrr
    have : 2 ≤ leafCount m r' x := Tally.count_two hn hn' (fun hc => hne (by rw [hc])) h h'
    omega
  · have h1 : 0 < leafCount m r x := Tally.count_pos hn h
    have h2 : 0 < leafCount m r' x := Tally.count_pos hn' h'
    have h3 : leafCount m r' x ≤ ∑ r ∈ R.erase r, leafCount m r x :=
      single_le_sum (f := fun r => leafCount m r x) (fun _ _ => Nat.zero_le _)
        (mem_erase.mpr ⟨hrr, hr'⟩)
    omega

variable [Image]

namespace MemInv

variable {m : Mem} {R : Finset Nat} {ρ : Owners} {H : Nat → Int} {r a i n : Nat} {e : Pte}

variable (h : MemInv m R ρ H)
include h

/-- `*pte = e` of the entry for a user page. The references move as the entry says, and a page
that another entry maps may not become writable here or stay writable there. -/
theorem put (ha : ρ a = some (r, .low (n / 512))) (hn : n < NUPAGE)
    (he : e.has PTE_V → IsPage (PTE2PA e))
    (hcow : e.has PTE_V → ∀ r' ∈ R, ∀ n' < NUPAGE, (r', n') ≠ (r, n) →
      Refers (leaf m r' n') (PTE2PA e) → (leaf m r' n').has PTE_W = false ∧ e.has PTE_W = false) :
    MemInv (m.put a (n % 512) e) R ρ (fun x => H x + (if Refers (leaf m r n) x then 1 else 0) -
        (if Refers e x then 1 else 0)) ∧ LeafUpd m (m.put a (n % 512) e) R r n e := by
  obtain ⟨hF, hL⟩ := h.forest.setLeaf ha e (show (m.put a (n % 512) e).pte = _ from rfl)
  obtain ⟨hr, -, -⟩ := h.forest.node a r _ ha
  have hself : leaf (m.put a (n % 512) e) r n = e := by
    rw [hL r hr _ (NUPAGE_lt hn), if_pos ⟨rfl, rfl⟩]
  have hother : ∀ r' ∈ R, ∀ n' < NUPAGE, (r', n') ≠ (r, n) → leaf (m.put a (n % 512) e) r' n' = leaf m r' n' :=
    fun r' hr' n' hn' hne => by
      rw [hL r' hr' n' (NUPAGE_lt hn'), if_neg fun hc => hne (by rw [hc.1, hc.2])]
  refine ⟨⟨hF, h.freeNodup, h.freeIff, h.nodePage, h.excl, ?_, ?_, ?_⟩, hL⟩
  · intro r' hr' n' hn' hv
    by_cases hc : (r', n') = (r, n)
    · obtain ⟨rfl, rfl⟩ := Prod.mk.inj hc
      rw [hself] at hv ⊢; exact he hv
    · rw [hother r' hr' n' hn' hc] at hv ⊢; exact h.leafPage r' hr' n' hn' hv
  · intro x hx
    have h1 := h.count x hx
    have h2 := leafRefs_point hr hn hL x
    change (m.refcnt (pa2idx x) : Int) = _
    rw [h1]
    split at h2 <;> split at h2 <;> split <;> omega
  · intro r1 hr1 r2 hr2 n1 hn1 n2 hn2 hne hv href
    by_cases h1 : (r1, n1) = (r, n)
    · obtain ⟨rfl, rfl⟩ := Prod.mk.inj h1
      rw [hself] at hv href ⊢
      rw [hother r2 hr2 n2 hn2 hne.symm] at href
      exact (hcow hv r2 hr2 n2 hn2 hne.symm href).2
    · rw [hother r1 hr1 n1 hn1 h1] at hv href ⊢
      by_cases h2 : (r2, n2) = (r, n)
      · obtain ⟨rfl, rfl⟩ := Prod.mk.inj h2
        rw [hself] at href
        exact (hcow href.1 r1 hr1 n1 hn1 h1 ⟨hv, href.2.symm⟩).1
      · rw [hother r2 hr2 n2 hn2 h2] at href
        exact h.cow r1 hr1 r2 hr2 n1 hn1 n2 hn2 hne hv href

theorem putKernel (ha : ρ a = some (r, .low (n / 512))) (hn : NUPAGE ≤ n) (e : Pte) :
    MemInv (m.put a (n % 512) e) R ρ H ∧ LeafUpd m (m.put a (n % 512) e) R r n e := by
  obtain ⟨hF, hL⟩ := h.forest.setLeaf ha e (show (m.put a (n % 512) e).pte = _ from rfl)
  have hother : ∀ r' ∈ R, ∀ n' < NUPAGE, leaf (m.put a (n % 512) e) r' n' = leaf m r' n' := fun r' hr' n' hn' => by
    rw [hL r' hr' n' (NUPAGE_lt hn'), if_neg fun hc => by omega]
  refine ⟨⟨hF, h.freeNodup, h.freeIff, h.nodePage, h.excl, ?_, ?_, ?_⟩, hL⟩
  · intro r' hr' n' hn'; rw [hother r' hr' n' hn']; exact h.leafPage r' hr' n' hn'
  · intro x hx; rw [leafRefs_kernel hn hL]; exact h.count x hx
  · intro r1 hr1 r2 hr2 n1 hn1 n2 hn2
    rw [hother r1 hr1 n1 hn1, hother r2 hr2 n2 hn2]; exact h.cow r1 hr1 r2 hr2 n1 hn1 n2 hn2

section
variable {c : Nat} (ha : ρ a = some (r, nd)) (hd : nd.IsDir) (hi : i < 512) (hc : dir m a i = some c)
include ha hd hi hc

theorem child : ρ c = some (r, nd.child i) := by
  obtain ⟨hr, hok, -⟩ := h.forest.node a r nd ha
  exact h.forest.own r hr _ c (Forest.child_ok hok hd hi) (by rw [h.forest.nodeAddr_child ha hd hi]; exact hc)

theorem delPage (hempty : ∀ j < 512, (m.pte c j).has PTE_V = false) :
    MemInv (m.put a i 0#64) R (update ρ c none) (bump H c 1) ∧ ∀ r' ∈ R, ∀ n < 512 * 512 * 512,
      leaf (m.put a i 0#64) r' n = leaf m r' n ∨
        (r' = r ∧ leaf (m.put a i 0#64) r' n = 0#64 ∧ (leaf m r' n).has PTE_V = false) := by
  obtain ⟨hF, hL⟩ := h.forest.delPage ha hd hi hc hempty (show (m.put a i 0#64).pte = _ from rfl)
  have hρc : ρ c ≠ none := by rw [h.child ha hd hi hc]; simp
  have hvalid : ∀ r' ∈ R, ∀ n < 512 * 512 * 512, (leaf (m.put a i 0#64) r' n).has PTE_V →
      leaf (m.put a i 0#64) r' n = leaf m r' n := fun r' hr' n hn hv =>
    (hL r' hr' n hn).elim id fun hx => by rw [hx.2.1] at hv; simp at hv
  have hrefs : ∀ x, leafRefs (m.put a i 0#64) R x = leafRefs m R x := fun x => by
    refine sum_congr rfl fun r' hr' => Tally.count_congr fun n hn => ?_
    rcases hL r' hr' n (NUPAGE_lt hn) with h1 | ⟨-, h1, h2⟩
    · rw [h1]
    · unfold Refers; rw [h1, h2]; simp
  refine ⟨⟨hF, h.freeNodup, h.freeIff, ?_, ?_, ?_, ?_, ?_⟩, hL⟩
  · intro b hb
    by_cases hbc : b = c
    · rw [hbc]; exact h.nodePage c hρc
    · rw [update_of_ne hbc] at hb; exact h.nodePage b hb
  · intro b hb
    by_cases hbc : b = c
    · rw [hbc]; exact h.excl c hρc
    · rw [update_of_ne hbc] at hb; exact h.excl b hb
  · intro r' hr' n hn hv
    have he := hvalid r' hr' n (NUPAGE_lt hn) hv
    rw [he] at hv ⊢
    exact h.leafPage r' hr' n hn hv
  · intro x hx
    have hcnt := h.count x hx
    rw [hrefs]
    change (m.refcnt (pa2idx x) : Int) = _
    by_cases hxc : x = c
    · subst hxc
      rw [if_neg hρc] at hcnt
      rw [update_self, bump_self, if_pos rfl]; omega
    · rw [update_of_ne hxc, bump_of_ne _ _ hxc]; exact hcnt
  · intro r1 hr1 r2 hr2 n1 hn1 n2 hn2 hne hv href
    have he1 := hvalid r1 hr1 n1 (NUPAGE_lt hn1) hv
    have he2 := hvalid r2 hr2 n2 (NUPAGE_lt hn2) href.1
    rw [he1] at hv href ⊢
    rw [he2] at href
    exact h.cow r1 hr1 r2 hr2 n1 hn1 n2 hn2 hne hv href

end

theorem addRoot (hf : ρ f = none) (hp : IsPage f) (h1 : m.refcnt (pa2idx f) = 1) :
    MemInv (m.fill f 0) (insert f R) (update ρ f (some (f, .root))) (bump H f (-1)) ∧
      SameLeaf m (m.fill f 0) R ∧ ∀ n, leaf (m.fill f 0) f n = 0#64 := by
  obtain ⟨hF, h0, hL⟩ := h.forest.addRoot hf (show (m.fill f 0).pte = _ from rfl)
  have hfR : f ∉ R := fun hc => by rw [h.forest.root hc] at hf; cases hf
  have hno : ∀ {n}, ¬ (leaf (m.fill f 0) f n).has PTE_V := by intro n; rw [h0]; simp
  refine ⟨⟨hF, h.freeNodup, h.freeIff, ?_, ?_, ?_, ?_, ?_⟩, hL, h0⟩
  · intro b hb
    by_cases hbf : b = f
    · rw [hbf]; exact hp
    · rw [update_of_ne hbf] at hb; exact h.nodePage b hb
  · intro b hb
    by_cases hbf : b = f
    · rw [hbf]; exact h1
    · rw [update_of_ne hbf] at hb; exact h.excl b hb
  · intro r' hr' n' hn' hv
    rcases mem_insert.mp hr' with rfl | hr'
    · exact absurd hv hno
    · rw [hL r' hr' n' (NUPAGE_lt hn')] at hv ⊢; exact h.leafPage r' hr' n' hn' hv
  · intro x hx
    have hc := h.count x hx
    have hz : leafCount (m.fill f 0) f x = 0 := Nat.count_of_forall_not fun n _ hn => hno hn.1
    have hs : leafRefs (m.fill f 0) (insert f R) x = leafRefs m R x := by
      unfold leafRefs
      rw [sum_insert hfR, hz, zero_add]
      exact SameLeaf.refs hL x
    rw [hs]
    change (m.refcnt (pa2idx x) : Int) = _
    by_cases hxf : x = f
    · subst hxf
      rw [hf] at hc
      rw [update_self, bump_self]
      simp only [if_true] at hc
      simp only [reduceCtorEq, if_false]; omega
    · rw [update_of_ne hxf, bump_of_ne _ _ hxf]; exact hc
  · intro r1 hr1 r2 hr2 n1 hn1 n2 hn2 hne hv href
    rcases mem_insert.mp hr1 with rfl | hr1
    · exact absurd hv hno
    rcases mem_insert.mp hr2 with rfl | hr2
    · exact absurd href.1 hno
    rw [hL r1 hr1 n1 (NUPAGE_lt hn1)] at hv href ⊢
    rw [hL r2 hr2 n2 (NUPAGE_lt hn2)] at href
    exact h.cow r1 hr1 r2 hr2 n1 hn1 n2 hn2 hne hv href

theorem erase (hr : r ∈ R) :
    MemInv m (R.erase r) (fun a => (ρ a).filter fun x => x.1 != r)
      (fun x => H x + leafCount m r x + (if (ρ x).any fun y => y.1 == r then 1 else 0)) := by
  refine ⟨h.forest.erase r, h.freeNodup, h.freeIff, ?_, ?_, ?_, ?_, ?_⟩
  · intro a ha
    apply h.nodePage
    intro hc; rw [hc] at ha; exact ha rfl
  · intro a ha
    apply h.excl
    intro hc; rw [hc] at ha; exact ha rfl
  · intro r' hr'; exact h.leafPage r' (mem_of_mem_erase hr')
  · intro x hx
    have hc := h.count x hx
    have hs : leafRefs m R x = leafCount m r x + leafRefs m (R.erase r) x :=
      (add_sum_erase R (fun r => leafCount m r x) hr).symm
    rw [hc]
    cases hρ : ρ x with
    | none =>
      simp only [filter_none, any_none, Bool.false_eq_true, if_true, if_false]
      omega
    | some y =>
      by_cases hy : y.1 = r
      · simp only [filter_some, any_some, bne, hy, beq_self_eq_true, Bool.not_true, Bool.false_eq_true, reduceCtorEq,
          if_true, if_false]
        omega
      · simp only [filter_some, any_some, bne, beq_eq_false_iff_ne.mpr hy, Bool.not_false, Bool.false_eq_true,
          reduceCtorEq, if_true, if_false]
        omega
  · intro r1 hr1 r2 hr2
    exact h.cow r1 (mem_of_mem_erase hr1) r2 (mem_of_mem_erase hr2)

end MemInv

end Xv6
