import Xv6.Vm

/-!
# Page tables as a forest of pages

`leaf m r n` is the entry that the table with root `r` has for page number
`n`. `Forest m R ρ`: the tables with roots in `R` are trees, and `ρ` says of
each page to which table it belongs and where it sits in it, so no page is
used twice.
-/

namespace Xv6

open Hoare Function Option

variable {a i n p va : Nat} {E : MemStop → Prop} {nd : Node}

def dir (m : Mem) (pg i : Nat) : Option Nat :=
  if (m.pte pg i).has PTE_V then some (PTE2PA (m.pte pg i)) else none

def low (m : Mem) (r k : Nat) : Option Nat := (dir m r (k / 512)).bind fun p => dir m p (k % 512)

def leaf (m : Mem) (r n : Nat) : Pte :=
  match low m r (n / 512) with
  | some p => m.pte p (n % 512)
  | none => 0#64

inductive Node
  | root | mid (i : Nat) | low (k : Nat)
  deriving DecidableEq

def Node.Ok : Node → Prop
  | .root => True
  | .mid i => i < 512
  | .low k => k < 512 * 512

def Node.IsDir : Node → Prop
  | .low _ => False
  | _ => True

def nodeAddr (m : Mem) (r : Nat) : Node → Option Nat
  | .root => some r
  | .mid i => dir m r i
  | .low k => low m r k

abbrev Owners := Nat → Option (Nat × Node)

structure Forest (m : Mem) (R : Finset Nat) (ρ : Owners) : Prop where
  own : ∀ r ∈ R, ∀ nd a, nd.Ok → nodeAddr m r nd = some a → ρ a = some (r, nd)
  node : ∀ a r nd, ρ a = some (r, nd) → r ∈ R ∧ nd.Ok ∧ nodeAddr m r nd = some a
  dirs : ∀ a r nd i, ρ a = some (r, nd) → nd.IsDir → i < 512 → (m.pte a i).has PTE_V →
    (m.pte a i).has (PTE_R ||| PTE_W ||| PTE_X) = false

theorem PX_two (h : va < MAXVA) : PX 2 va = va / 4096 / 512 / 512 := by
  rw [PX_eq]; lia

theorem PX_one (va : Nat) : PX 1 va = va / 4096 / 512 % 512 := by
  rw [PX_eq, Nat.pow_one]

theorem PX_zero (va : Nat) : PX 0 va = va / 4096 % 512 := by
  rw [PX_eq]; omega

@[simp] theorem wp_getPte {p : Nat × Nat} {m : Mem} {Q : Pte → Mem → Prop} :
    wp (getPte p) Q E m ↔ Q (m.pte p.1 p.2) m := by simp [getPte]

@[simp] theorem wp_setPte :
    wp (setPte a i e) Q E m ↔ Q () (m.put a i e) := by simp [setPte]

@[simp] theorem wp_memzero :
    wp (memzero a) Q E m ↔ Q () (m.fill a 0) := by simp [memzero]

theorem wp_walk_read {r : Nat} {m : Mem} {Q : Option (Nat × Nat) → Mem → Prop} (hva : va < MAXVA) :
    wp (walk r va false) Q E m ↔ Q ((low m r (va / 4096 / 512)).map (·, va / 4096 % 512)) m := by
  have h2 := PX_two hva
  unfold walk low dir
  rw [if_neg (by omega)]
  simp only [walkFrom, wp_bind, wp_getPte, zero_add, show (1 : Nat) + 1 = 2 by rfl, h2, PX_one, PX_zero,
    Bool.false_eq_true, not_false_eq_true, if_true]
  by_cases h : (m.pte r (va / 4096 / 512 / 512)).has PTE_V
  · simp only [h, if_true, wp_bind, wp_getPte, bind_some]
    by_cases h' : (m.pte (PTE2PA (m.pte r (va / 4096 / 512 / 512))) (va / 4096 / 512 % 512)).has PTE_V
    · simp [h']
    · simp [h']
  · simp [h]

theorem wp_walk_found {r : Nat} {alloc : Bool} {m : Mem} {Q : Option (Nat × Nat) → Mem → Prop} (hva : va < MAXVA)
    (hl : low m r (va / 4096 / 512) = some p) (h : Q (some (p, va / 4096 % 512)) m) :
    wp (walk r va alloc) Q E m := by
  have h2 := PX_two hva
  obtain ⟨d, hd, hp⟩ := bind_eq_some_iff.mp hl
  unfold dir at hd hp
  split at hd
  · rename_i hv
    split at hp
    · rename_i hv'
      unfold walk
      rw [if_neg (by omega)]
      simp only [walkFrom, wp_bind, wp_getPte, zero_add, show (1 : Nat) + 1 = 2 by rfl, h2, PX_one, PX_zero, hv, if_true,
        some.inj hd, hv', some.inj hp, wp_pure]
      exact h
    · cases hp
  · cases hd

def userPa (e : Pte) : Option Nat := if e.has PTE_V ∧ e.has PTE_U then some (PTE2PA e) else none

theorem leaf_of_low (h : low m r (n / 512) = some p) : leaf m r n = m.pte p (n % 512) := by
  unfold leaf; rw [h]

theorem leaf_of_none (h : low m r (n / 512) = none) : leaf m r n = 0#64 := by
  unfold leaf; rw [h]

theorem low_of_leaf (h : (leaf m r n).has PTE_V) :
    ∃ p, low m r (n / 512) = some p ∧ leaf m r n = m.pte p (n % 512) := by
  cases hl : low m r (n / 512) with
  | none => rw [leaf_of_none hl, zero_has] at h; cases h
  | some p => exact ⟨p, rfl, leaf_of_low hl⟩

theorem wp_walkaddr {r : Nat} {m : Mem} {Q : Option Nat → Mem → Prop} :
    wp (walkaddr r va) Q E m ↔ Q (if va < MAXVA then userPa (leaf m r (va / 4096)) else none) m := by
  unfold walkaddr
  by_cases hva : va < MAXVA
  · rw [if_neg (by omega), if_pos hva, wp_bind, wp_walk_read hva]
    cases hl : low m r (va / 4096 / 512) with
    | none => rw [leaf_of_none hl]; simp [userPa]
    | some p =>
      rw [leaf_of_low hl]
      simp only [map_some, wp_bind, wp_getPte, userPa]
      by_cases hv : (m.pte p (va / 4096 % 512)).has PTE_V
      · by_cases hu : (m.pte p (va / 4096 % 512)).has PTE_U <;> simp [hv, hu]
      · simp [hv]
  · rw [if_pos (by omega), if_neg hva]; simp

theorem dir_congr (h : m'.pte a = m.pte a) (i : Nat) : dir m' a i = dir m a i := by
  unfold dir; rw [h]

namespace Forest

variable {m m' : Mem} {R : Finset Nat} {ρ : Owners} {r : Nat}

variable (h : Forest m R ρ)
include h

theorem root (hr : r ∈ R) : ρ r = some (r, .root) := h.own r hr .root r trivial rfl

theorem mid (hr : r ∈ R) (hi : i < 512) (hd : dir m r i = some p) :
    ρ p = some (r, .mid i) := h.own r hr (.mid i) p hi hd

theorem low (hr : r ∈ R) (hk : k < 512 * 512) (hl : low m r k = some p) :
    ρ p = some (r, .low k) := h.own r hr (.low k) p hk hl

theorem leaf_at (ha : ρ a = some (r, nd)) (hd : ¬ nd.IsDir) (hi : i < 512) :
    ∃ n < 512 * 512 * 512, leaf m r n = m.pte a i := by
  obtain ⟨-, hok, hn⟩ := h.node a r nd ha
  cases nd with
  | root | mid _ => exact absurd trivial hd
  | low k =>
    simp only [Node.Ok] at hok
    refine ⟨k * 512 + i, by omega, ?_⟩
    rw [leaf_of_low (p := a), show (k * 512 + i) % 512 = i by omega]
    rw [show (k * 512 + i) / 512 = k by omega]; exact hn

section
variable (hp : ∀ a r nd, ρ a = some (r, nd) → nd.IsDir → m'.pte a = m.pte a)
include hp

theorem nodeAddr_congr
    (hr : r ∈ R) : ∀ nd : Node, nd.Ok → nodeAddr m' r nd = nodeAddr m r nd
  | .root, _ => rfl
  | .mid i, _ => dir_congr (hp r r .root (h.root hr) trivial) i
  | .low k, hk => by
    have hk' : k / 512 < 512 := by simp only [Node.Ok] at hk; omega
    simp only [nodeAddr, Xv6.low]
    rw [dir_congr (hp r r .root (h.root hr) trivial)]
    cases hd : dir m r (k / 512) with
    | none => rfl
    | some p => exact dir_congr (hp p r (.mid _) (h.mid hr hk' hd) trivial) _

theorem congr :
    Forest m' R ρ where
  own r hr nd a hok ha := h.own r hr nd a hok (by rwa [← h.nodeAddr_congr hp hr nd hok])
  node a r nd ha := by
    obtain ⟨hr, hok, hn⟩ := h.node a r nd ha
    exact ⟨hr, hok, by rwa [h.nodeAddr_congr hp hr nd hok]⟩
  dirs a r nd i ha hd := by rw [hp a r nd ha hd]; exact h.dirs a r nd i ha hd

end

theorem leaf_congr (hp : ∀ a, ρ a ≠ none → m'.pte a = m.pte a) (hr : r ∈ R) (hn : n < 512 * 512 * 512) :
    leaf m' r n = leaf m r n := by
  have hk : n / 512 < 512 * 512 := by omega
  have hl : Xv6.low m' r (n / 512) = Xv6.low m r (n / 512) :=
    h.nodeAddr_congr (fun a _ _ ha _ => hp a (by simp [ha])) hr (.low _) hk
  unfold leaf
  rw [hl]
  cases hq : Xv6.low m r (n / 512) with
  | none => rfl
  | some p => simp only; rw [hp p (by simp [h.low hr hk hq])]

theorem setLeaf (ha : ρ a = some (r, .low (n / 512))) (e : Pte)
    (hm : m'.pte = update m.pte a (update (m.pte a) (n % 512) e)) :
    Forest m' R ρ ∧ ∀ r' ∈ R, ∀ x < 512 * 512 * 512, leaf m' r' x = if r' = r ∧ x = n then e else leaf m r' x := by
  have hp : ∀ b r nd, ρ b = some (r, nd) → nd.IsDir → m'.pte b = m.pte b := by
    intro b r nd hb hd
    have : b ≠ a := by
      intro hba; rw [hba, ha] at hb
      simp only [some.injEq, Prod.mk.injEq] at hb
      rw [← hb.2] at hd; exact hd
    rw [hm, update_of_ne this]
  refine ⟨h.congr hp, fun r' hr' x hx => ?_⟩
  have hk' : x / 512 < 512 * 512 := by omega
  have hl : Xv6.low m' r' (x / 512) = Xv6.low m r' (x / 512) := h.nodeAddr_congr hp hr' (.low _) hk'
  obtain ⟨hr, hk, haddr⟩ := h.node a r _ ha
  by_cases hc : r' = r ∧ x = n
  · rw [if_pos hc]
    obtain ⟨rfl, rfl⟩ := hc
    rw [leaf_of_low (hl.trans haddr), hm]
    simp
  · rw [if_neg hc]
    cases hq : Xv6.low m r' (x / 512) with
    | none => rw [leaf_of_none (hl.trans hq), leaf_of_none hq]
    | some p =>
      rw [leaf_of_low (hl.trans hq), leaf_of_low hq, hm]
      by_cases hpa : p = a
      · -- the same page of the same table: the index differs
        have := h.low hr' hk' hq
        rw [hpa, ha] at this
        simp only [some.injEq, Prod.mk.injEq, Node.low.injEq] at this
        have hne : x % 512 ≠ n % 512 := fun he => hc ⟨this.1.symm, by omega⟩
        rw [hpa, update_self, update_of_ne hne]
      · rw [update_of_ne hpa]

end Forest

def Node.child : Node → Nat → Node
  | .root, i => .mid i
  | .mid j, i => .low (j * 512 + i)
  | .low k, _ => .low k

namespace Forest

variable {m m' : Mem} {R : Finset Nat} {ρ : Owners} {r : Nat}

theorem child_ok : ∀ {nd : Node} {i : Nat}, nd.Ok → nd.IsDir → i < 512 → (nd.child i).Ok
  | .root, _, _, _, hi => hi
  | .mid j, i, hj, _, hi => by simp only [Node.child, Node.Ok] at *; omega

section
variable (h : Forest m R ρ) (ha : ρ a = some (r, nd)) (hd : nd.IsDir) (hi : i < 512)
include h ha hd hi

theorem nodeAddr_child : nodeAddr m r (nd.child i) = dir m a i := by
  obtain ⟨_, hok, hn⟩ := h.node a r nd ha
  cases nd with
  | root => simp only [nodeAddr, some.injEq] at hn; subst hn; rfl
  | mid j =>
    simp only [nodeAddr] at hn
    simp only [Node.child, nodeAddr, Xv6.low]
    rw [show (j * 512 + i) / 512 = j by omega, show (j * 512 + i) % 512 = i by omega, hn]
    rfl
  | low k => exact hd.elim

/-- When entry `i` of page `a` changes to point to `x`, with nothing below the old page or the new one, the other positions
keep their pages. -/
theorem setDir
    (hdai : dir m' a i = x) (hda : ∀ j, j ≠ i → dir m' a j = dir m a j)
    (hdo : ∀ {b y}, ρ b = some y → b ≠ a → ∀ j, dir m' b j = dir m b j)
    (hold : ∀ q, dir m a i = some q → ∀ j < 512, dir m q j = none) (hnew : ∀ q, x = some q → ∀ j < 512, dir m' q j = none)
    (hr' : r' ∈ R) (hok : nd'.Ok) :
    nodeAddr m' r' nd' = if r' = r ∧ nd' = nd.child i then x else nodeAddr m r' nd' := by
  obtain ⟨-, -, hna⟩ := h.node a r nd ha
  have hρ' := h.root hr'
  have hroot : ∀ j, dir m' r' j = if r' = a ∧ j = i then x else dir m r' j := by
    intro j
    by_cases hra : r' = a
    · by_cases hji : j = i
      · rw [if_pos ⟨hra, hji⟩, hra, hji, hdai]
      · rw [if_neg (fun hc => hji hc.2), hra, hda j hji]
    · rw [if_neg (fun hc => hra hc.1), hdo hρ' hra]
  have hra : ∀ {p}, r' = a → ρ a = some p → p = (r', .root) := fun h1 h2 => by
    rw [← h1, hρ'] at h2; exact (some.inj h2).symm
  cases nd' with
  | root =>
    have : ¬ (r' = r ∧ Node.root = nd.child i) := by
      rintro ⟨_, hc⟩; cases nd <;> cases hc
    rw [if_neg this]; rfl
  | mid j =>
    simp only [nodeAddr, hroot]
    by_cases hc : r' = a ∧ j = i
    · have := hra hc.1 ha
      simp only [Prod.mk.injEq] at this
      rw [if_pos hc, if_pos ⟨this.1.symm, by rw [this.2, hc.2]; rfl⟩]
    · rw [if_neg hc, if_neg]
      rintro ⟨h1, h2⟩
      apply hc
      cases nd with
      | root =>
        simp only [nodeAddr, some.injEq] at hna
        simp only [Node.child, Node.mid.injEq] at h2
        exact ⟨h1.trans hna, h2⟩
      | mid _ => cases h2
      | low _ => exact hd.elim
  | low k =>
    have hk : k / 512 < 512 := by simp only [Node.Ok] at hok; omega
    have hkm : k % 512 < 512 := Nat.mod_lt _ (by omega)
    simp only [nodeAddr, Xv6.low, hroot]
    -- a position below `nd` lies below a page, and that is `a`
    have hat : r' = r ∧ Node.low k = nd.child i → dir m r' (k / 512) = some a := by
      rintro ⟨h1, h2⟩
      cases nd with
      | root => cases h2
      | mid j =>
        simp only [Node.child, Node.low.injEq] at h2
        simp only [nodeAddr] at hna
        rw [h1, show k / 512 = j by omega, hna]
      | low _ => exact hd.elim
    by_cases hc : r' = a ∧ k / 512 = i
    · have := hra hc.1 ha
      simp only [Prod.mk.injEq] at this
      rw [if_pos hc, if_neg (by rw [this.2]; rintro ⟨_, h2⟩; cases h2), hc.1, hc.2]
      have h1 : (x.bind fun p => dir m' p (k % 512)) = none := by
        cases x with
        | none => rfl
        | some q => exact hnew q rfl _ hkm
      have h2 : ((dir m a i).bind fun p => dir m p (k % 512)) = none := by
        cases hq : dir m a i with
        | none => rfl
        | some q => exact hold q hq _ hkm
      rw [h1, h2]
    · rw [if_neg hc]
      cases hq : dir m r' (k / 512) with
      | none =>
        rw [if_neg fun hx => by rw [hat hx] at hq; cases hq]
        rfl
      | some p =>
        have hp := h.mid hr' hk hq
        simp only [bind_some]
        by_cases hpa : p = a
        · rw [hpa, ha] at hp
          simp only [some.injEq, Prod.mk.injEq] at hp
          obtain ⟨hrr, hnd⟩ := hp
          rw [hpa]
          by_cases hki : k % 512 = i
          · rw [hki, hdai, if_pos ⟨hrr.symm, by rw [hnd]; simp only [Node.child]; congr 1; omega⟩]
          · rw [hda _ hki, if_neg]
            rintro ⟨_, h2⟩; rw [hnd] at h2
            simp only [Node.child, Node.low.injEq] at h2
            omega
        · rw [hdo hp hpa, if_neg fun hx => hpa (some.inj (hq.symm.trans (hat hx)))]

/-- Entry `i` of the page at `a` comes to point to `x`; the page below it, and the one that was below it, map nothing. -/
theorem relink (m₁ : Mem) (ρ₁ : Owners) (hdai : dir m₁ a i = x) (hda : ∀ j, j ≠ i → m₁.pte a j = m.pte a j)
    (hx : (m₁.pte a i).has PTE_V → (m₁.pte a i).has (PTE_R ||| PTE_W ||| PTE_X) = false)
    (hmo : ∀ {b y}, ρ b = some y → b ≠ a → m₁.pte b = m.pte b)
    (hold : ∀ c, dir m a i = some c → ∀ j < 512, (m.pte c j).has PTE_V = false)
    (hnew : ∀ f, x = some f → ρ f = none ∧ m₁.pte f = fun _ => 0#64)
    (hρ : ∀ b, ρ₁ b = if x = some b then some (r, nd.child i) else if dir m a i = some b then none else ρ b) :
    Forest m₁ R ρ₁ ∧ ∀ r' ∈ R, ∀ n < 512 * 512 * 512, leaf m₁ r' n = leaf m r' n ∨
      (r' = r ∧ leaf m₁ r' n = 0#64 ∧ (leaf m r' n).has PTE_V = false ∧ (dir m a i = none → leaf m r' n = 0#64)) := by
  obtain ⟨hrR, hndok, -⟩ := h.node a r nd ha
  have hchild := h.nodeAddr_child ha hd hi
  have hnodes : ∀ r' ∈ R, ∀ nd' : Node, nd'.Ok →
      nodeAddr m₁ r' nd' = if r' = r ∧ nd' = nd.child i then x else nodeAddr m r' nd' := fun r' hr' nd' hok =>
    h.setDir ha hd hi hdai (fun j hj => by unfold dir; rw [hda j hj]) (fun hb hba => dir_congr (hmo hb hba))
      (fun q hq j hj => by unfold dir; rw [if_neg (by simp [hold q hq j hj])])
      (fun q hq j _ => by unfold dir; rw [(hnew q hq).2]; simp) hr' hok
  refine ⟨⟨?_, ?_, ?_⟩, ?_⟩
  · intro r' hr' nd' b hok hb
    rw [hnodes r' hr' nd' hok] at hb
    split at hb
    · rename_i hc
      rw [hρ, if_pos hb, hc.1, hc.2]
    · rename_i hne
      have hown := h.own r' hr' nd' b hok hb
      rw [hρ, if_neg (fun hxb => by rw [(hnew b hxb).1] at hown; cases hown), if_neg, hown]
      intro hc
      rw [h.own r hrR _ b (child_ok hndok hd hi) (hchild.trans hc)] at hown
      obtain ⟨rfl, rfl⟩ := hown
      exact hne ⟨rfl, rfl⟩
  · intro b r' nd' hb
    rw [hρ] at hb
    split at hb
    · rename_i hxb
      obtain ⟨rfl, rfl⟩ := hb
      refine ⟨hrR, child_ok hndok hd hi, ?_⟩
      rw [hnodes r hrR _ (child_ok hndok hd hi), if_pos ⟨rfl, rfl⟩, hxb]
    · split at hb
      · cases hb
      · rename_i hc
        obtain ⟨hr', hok, hn⟩ := h.node b r' nd' hb
        refine ⟨hr', hok, ?_⟩
        rw [hnodes r' hr' nd' hok, if_neg, hn]
        rintro ⟨rfl, rfl⟩
        exact hc (hchild.symm.trans hn)
  · intro b r' nd' j hb hd' hj hvb
    rw [hρ] at hb
    split at hb
    · rename_i hxb
      rw [(hnew b hxb).2] at hvb
      simp at hvb
    · split at hb
      · cases hb
      · by_cases hba : b = a
        · subst hba
          by_cases hji : j = i
          · subst hji
            exact hx hvb
          · rw [hda j hji] at hvb ⊢
            exact h.dirs b r' nd' j hb hd' hj hvb
        · rw [hmo hb hba] at hvb ⊢
          exact h.dirs b r' nd' j hb hd' hj hvb
  · intro r' hr' n hn
    have hk : n / 512 < 512 * 512 := by omega
    have hl := hnodes r' hr' (.low (n / 512)) hk
    by_cases hc : r' = r ∧ Node.low (n / 512) = nd.child i
    · rw [if_pos hc] at hl
      have hlow : Xv6.low m r' (n / 512) = dir m a i := by
        rw [← hchild, ← hc.2, hc.1]
        rfl
      have h0 : leaf m₁ r' n = 0#64 := by
        cases hxx : x with
        | none => exact leaf_of_none (hl.trans hxx)
        | some f => rw [leaf_of_low (hl.trans hxx), (hnew f hxx).2]
      refine .inr ⟨hc.1, h0, ?_, fun hnone => leaf_of_none (hlow.trans hnone)⟩
      cases hq : dir m a i with
      | none => rw [leaf_of_none (hlow.trans hq)]; simp
      | some c => rw [leaf_of_low (hlow.trans hq)]; exact hold c hq _ (Nat.mod_lt _ (by omega))
    · rw [if_neg hc] at hl
      left
      cases hq : Xv6.low m r' (n / 512) with
      | none => rw [leaf_of_none (hl.trans hq), leaf_of_none hq]
      | some p =>
        have hp := h.low hr' hk hq
        rw [leaf_of_low (hl.trans hq), leaf_of_low hq, hmo hp]
        rintro rfl
        rw [ha] at hp
        simp only [some.injEq, Prod.mk.injEq] at hp
        rw [hp.2] at hd; exact hd

theorem addPage (hv : (m.pte a i).has PTE_V = false) (hf : ρ f = none) (e : Pte) (he : e.has PTE_V)
    (hpa : PTE2PA e = f) (hx : e.has (PTE_R ||| PTE_W ||| PTE_X) = false)
    (hm : m'.pte = update (update m.pte f fun _ => 0#64) a (update (m.pte a) i e)) :
    Forest m' R (update ρ f (some (r, nd.child i))) ∧
      ∀ r' ∈ R, ∀ n < 512 * 512 * 512, leaf m' r' n = leaf m r' n := by
  have hne : ∀ {b x}, ρ b = some x → b ≠ f := fun hb h0 => by rw [h0, hf] at hb; cases hb
  have hma : m'.pte a = update (m.pte a) i e := by rw [hm, update_self]
  have hmai : m'.pte a i = e := by rw [hma, update_self]
  have hnone : dir m a i = none := by unfold dir; rw [if_neg (by simp [hv])]
  obtain ⟨hF, hL⟩ := h.relink ha hd hi m' (update ρ f (some (r, nd.child i))) (x := some f)
    (by unfold dir; rw [hmai, if_pos he, hpa]) (fun j hj => by rw [hma, update_of_ne hj]) (fun _ => by rw [hmai]; exact hx)
    (fun hb hba => by rw [hm, update_of_ne hba, update_of_ne (hne hb)]) (fun c hc => by rw [hnone] at hc; cases hc)
    (fun g hg => some.inj hg ▸ ⟨hf, by rw [hm, update_of_ne (hne ha).symm, update_self]⟩) (fun b => by
      rw [update_apply, hnone, if_neg (c := none = some b) nofun]
      exact if_congr ⟨fun hb => hb ▸ rfl, fun hb => (some.inj hb).symm⟩ rfl rfl)
  exact ⟨hF, fun r' hr' n hn => (hL r' hr' n hn).elim id fun ⟨_, h0, _, h1⟩ => h0.trans (h1 hnone).symm⟩

theorem delPage (hc : dir m a i = some c) (hempty : ∀ j < 512, (m.pte c j).has PTE_V = false)
    (hm : m'.pte = update m.pte a (update (m.pte a) i 0#64)) :
    Forest m' R (update ρ c none) ∧ ∀ r' ∈ R, ∀ n < 512 * 512 * 512,
      leaf m' r' n = leaf m r' n ∨ (r' = r ∧ leaf m' r' n = 0#64 ∧ (leaf m r' n).has PTE_V = false) := by
  have hma : m'.pte a = update (m.pte a) i 0#64 := by rw [hm, update_self]
  have hmai : m'.pte a i = 0#64 := by rw [hma, update_self]
  obtain ⟨hF, hL⟩ := h.relink ha hd hi m' (update ρ c none) (x := none) (by unfold dir; rw [hmai]; simp)
    (fun j hj => by rw [hma, update_of_ne hj]) (fun hv => by rw [hmai] at hv; simp at hv)
    (fun _ hba => by rw [hm, update_of_ne hba]) (fun q hq => by rw [hc] at hq; exact some.inj hq ▸ hempty) nofun (fun b => by
      rw [update_apply, hc, if_neg (c := none = some b) nofun]
      exact if_congr ⟨fun hb => hb ▸ rfl, fun hb => (some.inj hb).symm⟩ rfl rfl)
  exact ⟨hF, fun r' hr' n hn => (hL r' hr' n hn).imp_right fun ⟨h1, h2, h3, _⟩ => ⟨h1, h2, h3⟩⟩

end

theorem addRoot (h : Forest m R ρ) (hf : ρ f = none)
    (hm : m'.pte = update m.pte f fun _ => 0#64) :
    Forest m' (insert f R) (update ρ f (some (f, .root))) ∧ (∀ n, leaf m' f n = 0#64) ∧
      ∀ r ∈ R, ∀ n < 512 * 512 * 512, leaf m' r n = leaf m r n := by
  have hmo : ∀ b, b ≠ f → m'.pte b = m.pte b := fun b h1 => by rw [hm, update_of_ne h1]
  have hmf : m'.pte f = fun _ => 0#64 := by rw [hm, update_self]
  have hdf : ∀ j, dir m' f j = none := fun j => by unfold dir; rw [hmf]; simp
  have hne : ∀ {b x}, ρ b = some x → b ≠ f := fun hb h0 => by rw [h0, hf] at hb; cases hb
  have hp : ∀ a, ρ a ≠ none → m'.pte a = m.pte a := fun a ha => hmo a (by rintro rfl; exact ha hf)
  have h' : Forest m' R ρ := h.congr fun a r nd ha _ => hp a (by simp [ha])
  have hlow : ∀ k, Xv6.low m' f k = none := fun k => by unfold Xv6.low; rw [hdf]; rfl
  refine ⟨⟨?_, ?_, ?_⟩, fun n => leaf_of_none (hlow _), fun r hr n hn => h.leaf_congr hp hr hn⟩
  · intro r hr nd a hok ha
    rcases Finset.mem_insert.mp hr with rfl | hr
    · cases nd with
      | root => simp only [nodeAddr, some.injEq] at ha; rw [ha, update_self]
      | mid i => simp only [nodeAddr, hdf] at ha; cases ha
      | low k => simp only [nodeAddr, hlow] at ha; cases ha
    · have := h'.own r hr nd a hok ha
      rw [update_of_ne (hne this)]; exact this
  · intro a r nd ha
    by_cases haf : a = f
    · rw [haf, update_self] at ha
      obtain ⟨rfl, rfl⟩ := ha
      exact ⟨Finset.mem_insert_self _ _, trivial, by rw [haf]; rfl⟩
    · rw [update_of_ne haf] at ha
      obtain ⟨hr, hok, hn⟩ := h'.node a r nd ha
      exact ⟨Finset.mem_insert_of_mem hr, hok, hn⟩
  · intro a r nd i ha hd hi hv
    by_cases haf : a = f
    · rw [haf, hmf] at hv; simp at hv
    · rw [update_of_ne haf] at ha
      exact h'.dirs a r nd i ha hd hi hv

theorem erase (h : Forest m R ρ) (r : Nat) :
    Forest m (R.erase r) (fun a => (ρ a).filter fun x => x.1 != r) where
  own r' hr' nd a hok ha := by
    have hr := Finset.mem_erase.mp hr'
    rw [h.own r' hr.2 nd a hok ha]; simp [hr.1]
  node a r' nd ha := by
    simp only [filter_eq_some_iff, bne_iff_ne, ne_eq] at ha
    obtain ⟨hr, hok, hn⟩ := h.node a r' nd ha.1
    exact ⟨Finset.mem_erase.mpr ⟨ha.2, hr⟩, hok, hn⟩
  dirs a r' nd i ha := by
    simp only [filter_eq_some_iff] at ha
    exact h.dirs a r' nd i ha.1

end Forest

end Xv6
