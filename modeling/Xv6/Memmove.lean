import Mathlib

/-!
# Moving bytes within one memory

`memmove` of `kernel/string.c` and of `user/ulib.c`. Pointers are 64-bit
words. The two functions choose the direction of the copy by different tests.
-/

namespace Xv6

open Function

abbrev ByteMem := Nat → UInt8

def pointer (a : Int) : Nat := (a % 2 ^ 64).toNat

/-- The loop `while(n-- > 0) *d++ = *s++;`. -/
def copyUp : Nat → Nat → Nat → ByteMem → ByteMem
  | 0, _, _, m => m
  | n + 1, d, s, m => copyUp n (pointer (d + 1)) (pointer (s + 1)) (update m d (m s))

/-- The loop `while(n-- > 0) *--d = *--s;`. -/
def copyDown : Nat → Nat → Nat → ByteMem → ByteMem
  | 0, _, _, m => m
  | n + 1, d, s, m =>
    copyDown n (pointer (d - 1)) (pointer (s - 1)) (update m (pointer (d - 1)) (m (pointer (s - 1))))

def memmove (dst src n : Nat) (m : ByteMem) : Nat × ByteMem :=
  if n = 0 then (dst, m)
  else if src < dst ∧ pointer (src + n) > dst then
    (dst, copyDown n (pointer (dst + n)) (pointer (src + n)) m)
  else (dst, copyUp n dst src m)

-- The user library's `n` is an `int`: a negative one copies nothing.
def User.memmove (vdst vsrc : Nat) (n : Int) (m : ByteMem) : Nat × ByteMem :=
  if vsrc > vdst then (vdst, copyUp n.toNat vdst vsrc m)
  else (vdst, copyDown n.toNat (pointer (vdst + n)) (pointer (vsrc + n)) m)

/-- The memory in which the `n` bytes at `dst` are those that were at `src`. -/
def moved (dst src n : Nat) (m : ByteMem) : ByteMem := fun a =>
  if dst ≤ a ∧ a < dst + n then m (src + (a - dst)) else m a

theorem moved_zero (dst src : Nat) (m : ByteMem) : moved dst src 0 m = m := by
  funext a
  rw [moved, if_neg (by omega)]

theorem pointer_eq {a : Int} {b : Nat} (h : a = b) (hb : b < 2 ^ 64) : pointer a = b := by
  unfold pointer
  omega

theorem copyUp_eq {n d s : Nat} (hd : d + n ≤ 2 ^ 64) (hs : s + n ≤ 2 ^ 64)
    (ho : d ≤ s ∨ s + n ≤ d) : copyUp n d s m = moved d s n m := by
  induction n generalizing d s m with
  | zero => rw [copyUp, moved_zero]
  | succ n ih =>
    have hnext : ∀ m, copyUp n (pointer (d + 1)) (pointer (s + 1)) m = copyUp n (d + 1) (s + 1) m := fun m => by
      cases n with
      | zero => rfl
      | succ n => rw [pointer_eq (b := d + 1) (by omega) (by omega), pointer_eq (b := s + 1) (by omega) (by omega)]
    rw [copyUp, hnext, ih (by omega) (by omega) (by omega)]
    funext a
    simp only [moved]
    -- no byte still to be read has been overwritten
    by_cases h : d + 1 ≤ a ∧ a < d + 1 + n
    · rw [if_pos h, if_pos (by omega), update_of_ne (by omega)]
      congr 1
      omega
    · rw [if_neg h]
      by_cases ha : a = d
      · rw [ha, update_self, if_pos (by omega), Nat.sub_self, Nat.add_zero]
      · rw [update_of_ne ha, if_neg (by omega)]

theorem copyDown_eq {n d s : Nat} (hd : d + n ≤ 2 ^ 64) (hs : s + n ≤ 2 ^ 64) (ho : s ≤ d) :
    copyDown n (pointer (d + n)) (pointer (s + n)) m = moved d s n m := by
  induction n generalizing m with
  | zero => rw [copyDown, moved_zero]
  | succ n ih =>
    have hlast : ∀ {a : Nat}, a + (n + 1) ≤ 2 ^ 64 →
        pointer (pointer (a + (n + 1 : Nat)) - 1) = a + n ∧ pointer (a + n) = a + n := fun h => by
      unfold pointer
      omega
    rw [copyDown, (hlast hd).1, (hlast hs).1]
    have hm := ih (m := update m (d + n) (m (s + n))) (by omega) (by omega)
    rw [(hlast hd).2, (hlast hs).2] at hm
    rw [hm]
    funext a
    simp only [moved]
    by_cases h : d ≤ a ∧ a < d + n
    · rw [if_pos h, if_pos (by omega), update_of_ne (by omega)]
    · rw [if_neg h]
      by_cases ha : a = d + n
      · rw [ha, update_self, if_pos (by omega), Nat.add_sub_cancel_left]
      · rw [update_of_ne ha, if_neg (by omega)]

theorem memmove_moves (dst src : Nat) (n : Int) (m : ByteMem) (hd : dst + n.toNat ≤ 2 ^ 64)
    (hs : src + n.toNat ≤ 2 ^ 64) :
    memmove dst src n.toNat m = (dst, moved dst src n.toNat m) ∧
    User.memmove dst src n m = (dst, moved dst src n.toNat m) := by
  refine ⟨?_, ?_⟩
  · unfold memmove
    by_cases h0 : n.toNat = 0
    · rw [if_pos h0, h0, moved_zero]
    · -- `src + n` does not wrap where it is compared
      have hn : src < dst ∧ pointer (src + n.toNat) > dst ↔ src < dst ∧ src + n.toNat > dst :=
        and_congr_right fun h => by rw [pointer_eq (b := src + n.toNat) (by omega) (by omega)]
      rw [if_neg h0, if_congr hn rfl rfl]
      by_cases h : src < dst ∧ src + n.toNat > dst
      · rw [if_pos h, copyDown_eq hd hs (by omega)]
      · rw [if_neg h, copyUp_eq hd hs (by omega)]
  · unfold User.memmove
    by_cases h : src > dst
    · rw [if_pos h, copyUp_eq hd hs (by omega)]
    · rw [if_neg h]
      rcases Int.le_total 0 n with h0 | h0
      · have hm := copyDown_eq (m := m) hd hs (by omega)
        rw [Int.toNat_of_nonneg h0] at hm
        rw [hm]
      · have hn : n.toNat = 0 := by omega
        rw [hn, copyDown, moved_zero]

theorem memmove_moves_overlap :
    (memmove 1 0 3 UInt8.ofNat).2 3 = 2 ∧ (User.memmove 1 0 3 UInt8.ofNat).2 3 = 2 := by
  obtain ⟨hk, hu⟩ := memmove_moves 1 0 3 UInt8.ofNat (by decide) (by decide)
  exact ⟨congrFun (congrArg Prod.snd hk) 3, congrFun (congrArg Prod.snd hu) 3⟩

end Xv6
