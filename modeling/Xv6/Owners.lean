import Mathlib

/-!
# Places and the blocks they own

Places hold numbers of blocks, 0 for none, and a map says which blocks are in
use. `Exact own used fixed`: a block is in use exactly if it is one of the
`fixed` ones or some place holds it, and no two places hold the same block.
-/

namespace Owners

open Function

variable {ι : Type} {own : ι → Nat} {used : Nat → Bool} {fixed : Nat → Prop}

structure Exact (own : ι → Nat) (used : Nat → Bool) (fixed : Nat → Prop) : Prop where
  zero : fixed 0
  inj : ∀ p q, own p ≠ 0 → own p = own q → p = q
  taken : ∀ p, own p ≠ 0 → used (own p) = true
  apart : ∀ p, own p ≠ 0 → ¬ fixed (own p)
  fixed_used : ∀ b, fixed b → used b = true
  cover : ∀ b, used b = true → fixed b ∨ ∃ p, own p = b

theorem Exact.ne_zero (h : Exact own used fixed) (hb : used b = false) : b ≠ 0 := by
  intro h0
  subst h0
  rw [h.fixed_used 0 h.zero] at hb
  cases hb

theorem Exact.fresh (h : Exact own used fixed) (hb : used b = false) (p : ι) : own p ≠ b := by
  intro he
  have ht := h.taken p (he ▸ h.ne_zero hb)
  rw [he, hb] at ht
  cases ht

variable [DecidableEq ι]

theorem Exact.alloc (h : Exact own used fixed) (hb : used b = false) (hp : own p = 0) :
    Exact (update own p b) (update used b true) fixed where
  zero := h.zero
  inj q r hq he := by
    by_cases hqp : q = p <;> by_cases hrp : r = p
    · rw [hqp, hrp]
    · rw [hqp, update_self, update_of_ne hrp] at he
      exact absurd he.symm (h.fresh hb r)
    · rw [hrp, update_self, update_of_ne hqp] at he
      exact absurd he (h.fresh hb q)
    · rw [update_of_ne hqp] at hq he
      rw [update_of_ne hrp] at he
      exact h.inj q r hq he
  taken q hq := by
    by_cases hqp : q = p
    · rw [hqp, update_self, update_self]
    · rw [update_of_ne hqp] at hq ⊢
      rw [update_of_ne (h.fresh hb q)]
      exact h.taken q hq
  apart q hq := by
    by_cases hqp : q = p
    · rw [hqp, update_self]
      intro hf
      rw [h.fixed_used b hf] at hb
      cases hb
    · rw [update_of_ne hqp] at hq ⊢
      exact h.apart q hq
  fixed_used c hc := by
    by_cases hcb : c = b
    · rw [hcb, update_self]
    · rw [update_of_ne hcb]
      exact h.fixed_used c hc
  cover c hc := by
    by_cases hcb : c = b
    · exact .inr ⟨p, by rw [update_self, hcb]⟩
    · rw [update_of_ne hcb] at hc
      obtain hf | ⟨q, hq⟩ := h.cover c hc
      · exact .inl hf
      · by_cases hqp : q = p
        · rw [hqp, hp] at hq
          exact .inl (hq ▸ h.zero)
        · exact .inr ⟨q, by rw [update_of_ne hqp, hq]⟩

end Owners
