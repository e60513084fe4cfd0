import Xv6.Wp

/-!
# Programs that do not see a change of the state

From a state and the state changed by `φ`, a blind program gives the same
result, and leaves states that differ by `φ` again. It keeps to states in
`P`, where that may depend on it.
-/

namespace Hoare

variable {σ τ ε δ α β : Type}

def Agrees (φ : σ → σ) (x : Prog σ ε α) (s : σ) : Prop := x (φ s) = (x s).map fun p => (p.1, φ p.2)

def Blind (P : σ → Prop) (φ : σ → σ) (x : Prog σ ε α) : Prop := ∀ s, P s → Agrees φ x s ∧ ∀ a s', x s = .ok (a, s') → P s'

theorem Agrees.bind (hx : Agrees φ x s)
    (hf : ∀ a s', x s = .ok (a, s') → Agrees φ (f a) s') : Agrees φ (x >>= f) s := by
  change StateT.bind x f (φ s) = (StateT.bind x f s).map _
  unfold StateT.bind
  rw [show x (φ s) = _ from hx]
  cases hs : x s with
  | error e => rfl
  | ok p => exact hf p.1 p.2 hs

namespace Blind

variable {P : σ → Prop} {φ : σ → σ} {x y : Prog σ ε α}

theorem pure (a : α) : Blind P φ (Pure.pure a : Prog σ ε α) := fun s h => ⟨rfl, by rintro _ _ ⟨⟩; exact h⟩

theorem throw (e : ε) : Blind P φ (throw e : Prog σ ε α) := fun s h => ⟨rfl, by rintro _ _ ⟨⟩⟩

theorem bind (hx : Blind P φ x) (hf : ∀ a, Blind P φ (f a)) : Blind P φ (x >>= f) := fun s h => by
  obtain ⟨he, hP⟩ := hx s h
  refine ⟨he.bind fun a s' hs => (hf a s' (hP a s' hs)).1, ?_⟩
  change ∀ a s', StateT.bind x f s = .ok (a, s') → P s'
  unfold StateT.bind
  cases hs : x s with
  | error e => rintro _ _ ⟨⟩
  | ok p => exact (hf p.1 p.2 (hP p.1 p.2 hs)).2

theorem get (h : ∀ s, f (φ s) = f s) (hf : ∀ s, P s → Blind P φ (f s)) :
    Blind P φ (MonadState.get >>= f) := fun s hs => by
  change f (φ s) (φ s) = (f s s).map _ ∧ _
  rw [h]
  exact hf s hs s hs

theorem modify (h : ∀ s, f (φ s) = φ (f s)) (hP : ∀ s, P s → P (f s)) : Blind P φ (modify f : Prog σ ε PUnit) :=
  fun s hs => by
    change (Except.ok (_, f (φ s)) : Except ε (PUnit × σ)) = .ok (_, φ (f s)) ∧
      ∀ a s', Except.ok (_, f s) = .ok (a, s') → P s'
    rw [h]
    exact ⟨rfl, by rintro _ _ ⟨⟩; exact hP s hs⟩

theorem ite {c : Prop} [Decidable c] (hx : Blind P φ x) (hy : Blind P φ y) : Blind P φ (if c then x else y) := by
  split
  · exact hx
  · exact hy

theorem forN (h : ∀ i, Blind P φ (f i)) : ∀ n, Blind P φ (Hoare.forN f n)
  | 0 => pure ()
  | n + 1 => bind (forN h n) fun _ => h n

theorem zoom {get : σ → τ} {set : σ → τ → σ} {err : δ → ε} {ψ : τ → τ} {R : τ → Prop} {x : Prog τ δ α} (h : Blind R ψ x)
    (hP : ∀ s, P s → R (get s)) (hR : ∀ s t, P s → R t → P (set s t)) (hget : ∀ s, get (φ s) = ψ (get s))
    (hset : ∀ s t, set (φ s) (ψ t) = φ (set s t)) : Blind P φ (Hoare.zoom get set err x) := fun s hs => by
  obtain ⟨he, hr⟩ := h (get s) (hP s hs)
  unfold Agrees Hoare.zoom
  rw [hget, show x (ψ (get s)) = _ from he]
  cases hx : x (get s) with
  | error e => exact ⟨rfl, by rintro _ _ ⟨⟩⟩
  | ok p =>
    refine ⟨?_, by rintro _ _ ⟨⟩; exact hR s p.2 hs (hr p.1 p.2 hx)⟩
    change (Except.ok (p.1, set (φ s) (ψ p.2)) : Except ε (α × σ)) = .ok (p.1, φ (set s p.2))
    rw [hset]

theorem apart {get : σ → τ} {set : σ → τ → σ} {err : δ → ε} {x : Prog τ δ α} (hget : ∀ s, get (φ s) = get s)
    (hset : ∀ s t, set (φ s) t = φ (set s t)) (hP : ∀ s t, P s → P (set s t)) : Blind P φ (Hoare.zoom get set err x) :=
  zoom (fun s _ => ⟨by unfold Agrees; rw [id_eq]; cases x s <;> rfl, fun _ _ _ => trivial⟩ :
    Blind (fun _ => True) id x) (fun _ _ => trivial)
    (fun s t hs _ => hP s t hs) hget hset

end Blind

end Hoare
