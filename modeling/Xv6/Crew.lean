import Mathlib

/-!
# Crews of threads

Each thread of a crew stands at a point of its program, over shared data. In
its turn it does what `code` says, which is nothing while it has to wait.
-/

namespace Crew

variable {σ κ η : Type}

structure State (σ κ : Type) where
  data : σ
  points : List κ

def turn (code : η → Nat → κ → σ → Option (σ × κ)) (s : State σ κ) (e : Nat × η) : State σ κ :=
  match s.points[e.1]? with
  | none => s
  | some k =>
    match code e.2 e.1 k s.data with
    | none => s
    | some (d, k') => ⟨d, s.points.set e.1 k'⟩

/-- A counting semaphore, which lets nobody pass at zero. -/
def down : Nat → Option Nat
  | 0 => none
  | n + 1 => some n

theorem down_eq (h : down n = some v) : n = v + 1 := by
  cases n with
  | zero => cases h
  | succ n => rw [Option.some.inj h]

def among [DecidableEq κ] (l : List κ) (k : κ) : Bool := k ∈ l

theorem count_set {ks : List κ} {i : Nat} {k : κ} (k' : κ) (p : κ → Bool) (h : ks[i]? = some k) :
    (p k).toNat ≤ ks.countP p ∧ (ks.set i k').countP p + (p k).toNat = ks.countP p + (p k').toNat := by
  obtain ⟨hi, rfl⟩ := List.getElem?_eq_some_iff.mp h
  have hpos : p ks[i] → 0 < ks.countP p := fun hp => List.countP_pos_iff.mpr ⟨_, List.getElem_mem hi, hp⟩
  rw [List.countP_set hi]
  cases hp : p ks[i] <;> cases p k' <;> simp_all

/-- An invariant may count the threads that stand at points of a kind. -/
theorem inv_turns {code : η → Nat → κ → σ → Option (σ × κ)} {I : σ → ((κ → Bool) → Nat) → Prop}
    (hI : ∀ {x i k d k' d' t t'}, I d t → code x i k d = some (d', k') →
      (∀ p, (p k).toNat ≤ t p ∧ t' p + (p k).toNat = t p + (p k').toNat) → I d' t')
    (es : List (Nat × η)) {s : State σ κ} (h : I s.data s.points.countP) :
    I (es.foldl (turn code) s).data (es.foldl (turn code) s).points.countP := by
  induction es generalizing s with
  | nil => exact h
  | cons e es ih =>
    refine ih ?_
    unfold turn
    split
    · exact h
    · rename_i k hk
      split
      · exact h
      · rename_i d k' hc
        exact hI h hc fun p => count_set k' p hk

end Crew
