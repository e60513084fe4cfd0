import Mathlib

/-!
# Counting where a family changes at one place

References to an object are counted over a finite range of places. Changing
one place changes the count by what that place gains and loses.
-/

namespace Tally

open Function

variable {j k n : Nat}

variable {p q : Nat → Prop} [DecidablePred p] [DecidablePred q]

theorem count_congr (h : ∀ k < n, (p k ↔ q k)) : Nat.count p n = Nat.count q n :=
  Nat.le_antisymm (Nat.count_mono_left fun k hk => (h k hk).mp) (Nat.count_mono_left fun k hk => (h k hk).mpr)

theorem count_point (hj : j < n) (h : ∀ k < n, k ≠ j → (p k ↔ q k)) :
    Nat.count q n + (if p j then 1 else 0) = Nat.count p n + (if q j then 1 else 0) := by
  induction n with
  | zero => omega
  | succ n ih =>
    rw [Nat.count_succ, Nat.count_succ]
    by_cases hjn : j = n
    · subst hjn
      rw [count_congr (p := q) (q := p) fun k hk => (h k (by omega) (by omega)).symm]
      omega
    · have := ih (by omega) fun k hk => h k (by omega)
      have hn := h n (by omega) (Ne.symm hjn)
      simp only [hn] at *
      omega

theorem exists_of_count (h : 0 < Nat.count p n) : ∃ k < n, p k := Nat.count_ne_iff_exists.mp (by omega)

theorem count_pos (hk : k < n) (h : p k) : 0 < Nat.count p n :=
  Nat.pos_of_ne_zero (Nat.count_ne_iff_exists.mpr ⟨k, hk, h⟩)

theorem count_one (hj : j < n) (h1 : p j) (h : ∀ k < n, k ≠ j → ¬ p k) : Nat.count p n = 1 := by
  have hc := count_point (p := p) (q := fun _ => False) hj fun k hk hne => iff_false_intro (h k hk hne)
  rw [if_pos h1, if_neg not_false, Nat.count_false] at hc
  omega

theorem count_two (hj : j < n) (hk : k < n) (hjk : j ≠ k) (h1 : p j) (h2 : p k) :
    2 ≤ Nat.count p n := by
  have h := count_point (p := p) (q := fun i => p i ∧ i ≠ j) hj fun i _ hi => by simp [hi]
  have h3 : 0 < Nat.count (fun i => p i ∧ i ≠ j) n := count_pos hk ⟨h2, Ne.symm hjk⟩
  rw [if_pos h1, if_neg (by simp)] at h
  omega

theorem sum_update {α : Type} (f : Nat → α) (g : α → Nat) (hk : k < n) (a : α) :
    ∑ i ∈ Finset.range n, g (update f k a i) + g (f k) = ∑ i ∈ Finset.range n, g (f i) + g a := by
  have hmem := Finset.mem_range.mpr hk
  have h1 := Finset.add_sum_erase _ (fun i => g (update f k a i)) hmem
  have h2 := Finset.add_sum_erase _ (fun i => g (f i)) hmem
  have h3 : ∑ i ∈ (Finset.range n).erase k, g (update f k a i) = ∑ i ∈ (Finset.range n).erase k, g (f i) :=
    Finset.sum_congr rfl fun i hi => by rw [update_of_ne (Finset.ne_of_mem_erase hi)]
  rw [update_self] at h1
  omega

variable {α : Type} (g : α → Nat)

theorem sum_eraseIdx {l : List α} {i : Nat} {a : α} (h : l[i]? = some a) :
    ((l.eraseIdx i).map g).sum + g a = (l.map g).sum := by
  obtain ⟨hi, rfl⟩ := List.getElem?_eq_some_iff.mp h
  have hs := List.CommMonoid.add_sum_eraseIdx (l := l.map g) (i := i) (by simpa using hi)
  rw [List.getElem_map, List.eraseIdx_map] at hs
  omega

theorem sum_set {l : List α} {i : Nat} {a : α} (x : α) (h : l[i]? = some a) :
    ((l.set i x).map g).sum + g a = (l.map g).sum + g x := by
  have hx := sum_eraseIdx g (l := l.set i x) (i := i) (a := x) (by grind)
  rw [List.eraseIdx_set_eq] at hx
  have ha := sum_eraseIdx g h
  omega

end Tally
