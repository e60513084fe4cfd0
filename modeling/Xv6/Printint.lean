import Mathlib

/-!
# Printing numbers

`printint` of `kernel/printf.c` and of `user/printf.c`. The digits are stored
from the lowest one on in `buf`, whose filled part is a list with the last
byte stored first: the order in which the closing loop prints it.
-/

namespace Xv6

open List

def kernelDigits : List Char := ['0', '1', '2', '3', '4', '5', '6', '7', '8', '9', 'a', 'b', 'c', 'd', 'e', 'f']

def userDigits : List Char := ['0', '1', '2', '3', '4', '5', '6', '7', '8', '9', 'A', 'B', 'C', 'D', 'E', 'F']

/-- The `do` loop, with `room` bytes of `buf` left: storing past its end fails. -/
def storeDigits (digits : List Char) (base : Nat) : (room x : Nat) → List Char → Option (List Char)
  | 0, _, _ => none
  | room + 1, x, buf => do
    let c ← digits[x % base]?
    if x / base ≠ 0 then storeDigits digits base room (x / base) (c :: buf) else return c :: buf

/-- What is printed for `x`, after a minus sign if `neg`. -/
def printDigits (digits : List Char) (x base : Nat) (neg : Bool) : Option (List Char) := do
  let buf ← storeDigits digits base 20 x []
  if neg then (if buf.length < 20 then return '-' :: buf else none) else return buf

def printint (xx : BitVec 64) (base : Nat) (sign : Int) : Option (List Char) :=
  let sign : Bool := if sign ≠ 0 then xx.toInt < 0 else false
  printDigits kernelDigits (if sign then -xx else xx).toNat base sign

def User.printint (xx : BitVec 64) (base : Nat) (sgn : Int) : Option (List Char) :=
  let neg : Bool := sgn ≠ 0 ∧ xx.toInt < 0
  printDigits userDigits (if neg then -xx else xx).toNat base neg

def magnitude : List Char → List Char
  | '-' :: cs => cs
  | cs => cs

def readNat (digits : List Char) (base : Nat) (cs : List Char) : Nat :=
  cs.foldl (fun v c => v * base + digits.idxOf c) 0

def readInt (digits : List Char) (base : Nat) : List Char → Int
  | '-' :: cs => -readNat digits base cs
  | cs => readNat digits base cs

structure Numeral (digits : List Char) (base : Nat) (cs : List Char) : Prop where
  digit : ∀ c ∈ cs, c ∈ digits.take base
  nonempty : cs ≠ []
  leading : cs.head? = some '0' → cs = ['0']

structure Denotes (digits : List Char) (base : Nat) (v : Int) (out : List Char) : Prop where
  numeral : Numeral digits base (magnitude out)
  value : readInt digits base out = v

structure DigitTable (digits : List Char) : Prop where
  length : digits.length = 16
  nodup : digits.Nodup
  zero : digits.idxOf '0' = 0
  sign : '-' ∉ digits

theorem kernelDigits_table : DigitTable kernelDigits := ⟨rfl, by decide, by decide, by decide⟩

theorem userDigits_table : DigitTable userDigits := ⟨rfl, by decide, by decide, by decide⟩

section
variable {digits : List Char} (hT : DigitTable digits) {base : Nat} (hb : 10 ≤ base ∧ base ≤ 16)
include hT hb

theorem storeDigits_step (room x : Nat) (buf : List Char) :
    ∃ c ∈ digits.take base, digits.idxOf c = x % base ∧ storeDigits digits base (room + 1) x buf =
      if x / base ≠ 0 then storeDigits digits base room (x / base) (c :: buf) else some (c :: buf) := by
  have hr : x % base < base := Nat.mod_lt _ (by omega)
  have hi : x % base < digits.length := by rw [hT.length]; omega
  refine ⟨digits[x % base], mem_take_iff_getElem.mpr ⟨_, by omega, rfl⟩, hT.nodup.idxOf_getElem _ hi, ?_⟩
  rw [storeDigits, getElem?_eq_getElem hi]
  rfl

/-- `k + 1` digits suffice for `x`. -/
theorem storeDigits_spec (room : Nat) (buf : List Char) (hk : k < room) (hx : x < base ^ (k + 1)) :
    ∃ cs, storeDigits digits base room x buf = some (cs ++ buf) ∧ Numeral digits base cs ∧
      readNat digits base cs = x ∧ cs.length ≤ k + 1 := by
  induction room generalizing k x buf with
  | zero => omega
  | succ room ih =>
    obtain ⟨c, hc, hi, hs⟩ := storeDigits_step hT hb room x buf
    rw [hs]
    have hdiv := Nat.div_add_mod' x base
    by_cases h : x / base = 0
    · refine ⟨[c], if_neg (not_not.mpr h), ⟨?_, nofun, fun h0 => ?_⟩, ?_, by simp⟩
      · intro c' hc'
        rwa [mem_singleton.mp hc']
      · rw [Option.some.inj h0]
      · simp only [readNat, foldl, hi]
        rw [h] at hdiv
        omega
    · rw [if_pos h]
      obtain ⟨k, rfl⟩ : ∃ j, k = j + 1 := by
        refine Nat.exists_eq_succ_of_ne_zero fun h0 => h ?_
        rw [h0, Nat.zero_add, Nat.pow_one] at hx
        exact Nat.div_eq_of_lt hx
      have hq : x / base < base ^ (k + 1) := Nat.div_lt_of_lt_mul (by rwa [← Nat.pow_succ'])
      obtain ⟨cs, hcs, hn, hv, hl⟩ := ih (c :: buf) (by omega) hq
      refine ⟨cs ++ [c], by rw [hcs, append_assoc]; rfl, ⟨?_, by simp, fun h0 => ?_⟩, ?_, ?_⟩
      · intro c' hc'
        rcases mem_append.mp hc' with hc' | hc'
        · exact hn.digit c' hc'
        · rwa [mem_singleton.mp hc']
      · -- a leading zero would make `x / base` zero
        rw [head?_append_of_ne_nil _ hn.nonempty] at h0
        rw [hn.leading h0, readNat, foldl_cons, foldl_nil, hT.zero] at hv
        omega
      · rw [readNat, foldl_append, ← readNat, hv, foldl_cons, foldl_nil, hi, hdiv]
      · rw [length_append]
        exact Nat.succ_le_succ hl

omit hb in
theorem Numeral.plain (hn : Numeral digits base cs) :
    magnitude cs = cs ∧ readInt digits base cs = readNat digits base cs := by
  have hne : ∀ t, cs ≠ '-' :: t := by
    intro t ht
    refine hT.sign (mem_of_mem_take (hn.digit '-' ?_))
    rw [ht]
    exact mem_cons_self
  unfold magnitude readInt
  split
  · exact absurd rfl (hne _)
  · exact ⟨rfl, rfl⟩

theorem printDigits_spec (hx : x < 2 ^ 64) (hneg : neg = true → x ≤ 2 ^ 63) :
    ∃ out, printDigits digits x base neg = some out ∧ Denotes digits base (if neg then -x else x) out := by
  have hpow : ∀ j, 10 ^ j ≤ base ^ j := fun j => Nat.pow_le_pow_left hb.1 j
  unfold printDigits
  cases neg with
  | true =>
    have hs : x < base ^ 19 := lt_of_le_of_lt (hneg rfl) (lt_of_lt_of_le (by decide) (hpow 19))
    obtain ⟨cs, hcs, hn, hv, hl⟩ := storeDigits_spec hT hb 20 [] (by decide : 18 < 20) hs
    rw [append_nil] at hcs
    refine ⟨'-' :: cs, ?_, hn, ?_⟩
    · rw [hcs]
      exact if_pos (Nat.lt_succ_of_le hl)
    · rw [← hv]
      rfl
  | false =>
    have hs : x < base ^ 20 := lt_of_lt_of_le (by omega) (hpow 20)
    obtain ⟨cs, hcs, hn, hv, -⟩ := storeDigits_spec hT hb 20 [] (by decide : 19 < 20) hs
    rw [append_nil] at hcs
    obtain ⟨hm, hr⟩ := hn.plain hT
    refine ⟨cs, by rw [hcs]; rfl, by rw [hm]; exact hn, ?_⟩
    rw [hr, hv]
    rfl

end

theorem negated (xx : BitVec 64) (sign : Int) (h : neg = true ↔ sign ≠ 0 ∧ xx.toInt < 0) :
    (neg = true → (if neg then -xx else xx).toNat ≤ 2 ^ 63) ∧
    (if neg then -((if neg then -xx else xx).toNat : Int) else ((if neg then -xx else xx).toNat : Int)) =
      if sign ≠ 0 then xx.toInt else xx.toNat := by
  have hi := BitVec.toInt_eq_toNat_cond xx
  have hn : (-xx).toNat = (2 ^ 64 - xx.toNat) % 2 ^ 64 := BitVec.toNat_neg xx
  cases neg with
  | true =>
    obtain ⟨hs, hx⟩ := h.mp rfl
    simp only [if_true, if_pos hs, hn]
    split at hi <;> omega
  | false =>
    refine ⟨nofun, ?_⟩
    simp only [Bool.false_eq_true, if_false]
    split
    · rename_i hs
      have hx : ¬ xx.toInt < 0 := fun hx => nomatch h.mpr ⟨hs, hx⟩
      split at hi <;> omega
    · rfl

theorem printint_denotes (xx : BitVec 64) (base : Nat) (sign : Int) (hb : base = 10 ∨ base = 16) :
    (∃ out, printint xx base sign = some out ∧
      Denotes kernelDigits base (if sign ≠ 0 then xx.toInt else xx.toNat) out) ∧
    ∃ out, User.printint xx base sign = some out ∧
      Denotes userDigits base (if sign ≠ 0 then xx.toInt else xx.toNat) out := by
  have hb' : 10 ≤ base ∧ base ≤ 16 := by omega
  refine ⟨?_, ?_⟩
  · have hn : (if sign ≠ 0 then decide (xx.toInt < 0) else false) = true ↔ sign ≠ 0 ∧ xx.toInt < 0 := by simp
    obtain ⟨hle, hv⟩ := negated xx sign hn
    rw [← hv]
    exact printDigits_spec kernelDigits_table hb' (BitVec.isLt _) hle
  · obtain ⟨hle, hv⟩ := negated xx sign (decide_eq_true_iff (p := sign ≠ 0 ∧ xx.toInt < 0))
    rw [← hv]
    exact printDigits_spec userDigits_table hb' (BitVec.isLt _) hle

theorem printint_denotes_least :
    ∃ out, printint (BitVec.ofInt 64 (-2 ^ 63)) 10 1 = some out ∧ Denotes kernelDigits 10 (-2 ^ 63) out :=
  (printint_denotes (BitVec.ofInt 64 (-2 ^ 63)) 10 1 (.inl rfl)).1

end Xv6
