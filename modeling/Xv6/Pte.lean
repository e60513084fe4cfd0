import Xv6.Params

/-!
# Page-table entries

A `pte_t` is a 64-bit word: ten flag bits below the page number. The macros
of `riscv.h` are kept as bit operations; the lemmas below are all that the
rest of the development knows about them.
-/

namespace Xv6

open BitVec

variable {k pa : Nat} {f : Pte}

abbrev Pte := BitVec 64

def flag (k : Nat) : Pte := 1#64 <<< k

def PTE_V : Pte := flag 0
def PTE_R : Pte := flag 1
def PTE_W : Pte := flag 2
def PTE_X : Pte := flag 3
def PTE_U : Pte := flag 4
def PTE_COW : Pte := flag 8

/-- `pte & flag`, as a condition. -/
def Pte.has (e f : Pte) : Bool := e &&& f != 0

def PA2PTE (pa : Nat) : Pte := (BitVec.ofNat 64 pa >>> 12) <<< 10

def PTE2PA (e : Pte) : Nat := ((e >>> 10) <<< 12).toNat

def PTE_FLAGS (e : Pte) : Pte := e &&& 0x3FF#64

def PX (level va : Nat) : Nat := va >>> (12 + 9 * level) &&& 0x1FF

theorem PX_eq (level va : Nat) : PX level va = va / 4096 / 512 ^ level % 512 := by
  unfold PX
  rw [show (0x1FF : Nat) = 2 ^ 9 - 1 by rfl, Nat.and_two_pow_sub_one_eq_mod, Nat.shiftRight_eq_div_pow,
    Nat.pow_add, ← Nat.div_div_eq_div_mul, Nat.pow_mul]

theorem has_bit (e : Pte) (hk : k < 64) : e.has (flag k) = e.getLsbD k := by
  unfold Pte.has flag
  rw [← twoPow_eq, and_twoPow]
  have hne : twoPow 64 k ≠ 0#64 := by
    intro h0
    have := congrArg (fun b : BitVec 64 => b.getLsbD k) h0
    simp [hk] at this
  cases e.getLsbD k <;> simp [hne]

def IsFlags (f : Pte) : Prop := f &&& 0x3FF#64 = f

instance (f : Pte) : Decidable (IsFlags f) := inferInstanceAs (Decidable (_ = _))

theorem mask_bit (k : Nat) : (0x3FF#64).getLsbD k = decide (k < 10) := by
  by_cases hk : k < 64
  · have : ∀ k : Fin 64, (0x3FF#64).getLsbD k = decide (k.val < 10) := by decide
    exact this ⟨k, hk⟩
  · rw [getLsbD_of_ge _ _ (by omega)]; simp; omega

theorem IsFlags.high (h : IsFlags f) (hk : 10 ≤ k) : f.getLsbD k = false := by
  rw [← h, getLsbD_and, mask_bit]; simp; omega

theorem isFlags_of_high (h : ∀ k, 10 ≤ k → f.getLsbD k = false) : IsFlags f := by
  apply eq_of_getLsbD_eq; intro k _
  rw [getLsbD_and, mask_bit]
  by_cases hk : k < 10
  · simp [hk]
  · simp [hk, h k (by omega)]

theorem isFlags_FLAGS (e : Pte) : IsFlags (PTE_FLAGS e) :=
  isFlags_of_high fun k hk => by
    unfold PTE_FLAGS; rw [getLsbD_and, mask_bit]; simp; omega

theorem FLAGS_bit (e : Pte) (hk : k < 10) : (PTE_FLAGS e).getLsbD k = e.getLsbD k := by
  unfold PTE_FLAGS; rw [getLsbD_and, mask_bit]; simp [hk]

theorem IsFlags.or (hf : IsFlags f) (hg : IsFlags g) : IsFlags (f ||| g) :=
  isFlags_of_high fun k hk => by rw [getLsbD_or, hf.high hk, hg.high hk]; rfl

theorem IsFlags.andNot (hf : IsFlags f) (g : Pte) : IsFlags (f &&& ~~~g) :=
  isFlags_of_high fun k hk => by rw [getLsbD_and, hf.high hk]; rfl

def PaOk (pa : Nat) : Prop := pa % PGSIZE = 0 ∧ pa < 2 ^ 56

theorem PA2PTE_bit (pa k : Nat) (hk : k < 64) :
    (PA2PTE pa).getLsbD k = (decide (10 ≤ k) && pa.testBit (k + 2) && decide (k + 2 < 64)) := by
  unfold PA2PTE
  rw [getLsbD_shiftLeft, getLsbD_ushiftRight, getLsbD_ofNat]
  by_cases h : 10 ≤ k
  · rw [show 12 + (k - 10) = k + 2 by omega]
    simp [h, hk, Nat.not_lt.mpr h, Bool.and_comm]
  · simp [h, hk]

theorem PTE2PA_mk (hp : PaOk pa) (hf : IsFlags f) : PTE2PA (PA2PTE pa ||| f) = pa := by
  obtain ⟨hm, hlt⟩ := hp
  unfold PTE2PA
  have key : (PA2PTE pa ||| f) >>> 10 <<< 12 = BitVec.ofNat 64 pa := by
    apply eq_of_getLsbD_eq; intro i hi
    rw [getLsbD_shiftLeft, getLsbD_ushiftRight, getLsbD_or, getLsbD_ofNat]
    by_cases h12 : i < 12
    · -- the offset bits of a page address are zero
      have : pa.testBit i = false := by
        have hd : 2 ^ 12 ∣ pa := Nat.dvd_of_mod_eq_zero hm
        obtain ⟨q, rfl⟩ := hd
        rw [Nat.testBit_two_pow_mul]; simp; omega
      simp [h12, this]
    · rw [hf.high (by omega)]
      by_cases hhi : i < 62
      · rw [PA2PTE_bit pa _ (by omega), show 10 + (i - 12) + 2 = i by omega]
        simp [hi, h12]
      · have h1 : pa.testBit i = false := Nat.testBit_lt_two_pow (Nat.lt_of_lt_of_le hlt
          (Nat.pow_le_pow_right (by omega) (by omega)))
        rw [PA2PTE_bit pa _ (by omega), show 10 + (i - 12) + 2 = i by omega]
        simp [h1]
  rw [key, toNat_ofNat, Nat.mod_eq_of_lt (Nat.lt_trans hlt (Nat.pow_lt_pow_right (by omega) (by omega)))]

theorem mk_bit (hk : k < 10) : (PA2PTE pa ||| f).getLsbD k = f.getLsbD k := by
  rw [getLsbD_or, PA2PTE_bit pa k (by omega)]
  simp [Nat.not_le.mpr hk]

theorem has_mk (hk : k < 10) :
    (PA2PTE pa ||| f).has (flag k) = f.has (flag k) := by
  rw [has_bit _ (by omega), has_bit _ (by omega), mk_bit hk]

theorem has_FLAGS (e : Pte) (hk : k < 10) : (PTE_FLAGS e).has (flag k) = e.has (flag k) := by
  rw [has_bit _ (by omega), has_bit _ (by omega), FLAGS_bit _ hk]

theorem has_or (e f : Pte) (hk : k < 64) :
    (e ||| f).has (flag k) = (e.has (flag k) || f.has (flag k)) := by
  rw [has_bit _ hk, has_bit _ hk, has_bit _ hk, getLsbD_or]

theorem has_andNot (e : Pte) (hk : k < 64) :
    (e &&& ~~~(flag j)).has (flag k) = (e.has (flag k) && decide (k ≠ j)) := by
  rw [has_bit _ hk, has_bit _ hk, getLsbD_and, getLsbD_not, flag, ← twoPow_eq,
    getLsbD_twoPow]
  by_cases h : j = k
  · subst h; simp [hk]
  · simp [h, Ne.symm h, hk]

theorem PTE2PA_congr (h : ∀ k, 10 ≤ k → e.getLsbD k = f.getLsbD k) : PTE2PA e = PTE2PA f := by
  unfold PTE2PA
  congr 1
  apply eq_of_getLsbD_eq; intro i _
  rw [getLsbD_shiftLeft, getLsbD_shiftLeft, getLsbD_ushiftRight,
    getLsbD_ushiftRight, h _ (by omega)]

theorem PTE2PA_andNot (hk : k < 10) : PTE2PA (e &&& ~~~(flag k)) = PTE2PA e :=
  PTE2PA_congr fun j hj => by
    by_cases hj64 : j < 64
    · rw [getLsbD_and, getLsbD_not, flag, ← twoPow_eq, getLsbD_twoPow]
      simp [hj64, show k ≠ j by omega]
    · rw [getLsbD_of_ge _ _ (by omega), getLsbD_of_ge _ _ (by omega)]

theorem has_or_right (e f g : Pte) : e.has (f ||| g) = (e.has f || e.has g) := by
  unfold Pte.has
  rw [show e &&& (f ||| g) = (e &&& f) ||| (e &&& g) by
    apply eq_of_getLsbD_eq; intro i _; simp [Bool.and_or_distrib_left]]
  by_cases hf : e &&& f = 0
  · rw [hf]; simp
  · have : (e &&& f) ||| (e &&& g) ≠ 0 := by
      intro h
      apply hf
      apply eq_of_getLsbD_eq; intro i _
      have := congrArg (fun b : BitVec 64 => b.getLsbD i) h
      simp at this ⊢
      exact this.1
    rw [bne_iff_ne.mpr hf, bne_iff_ne.mpr this]; rfl

@[simp] theorem zero_has (f : Pte) : Pte.has 0#64 f = false := by
  unfold Pte.has; simp

end Xv6
