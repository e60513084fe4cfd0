import Mathlib

/-!
# Weakest preconditions of stateful programs that can stop

A program reads and changes a state and ends with a value or with a reason
to stop. `wp x Q E s`: run from `s`, `x` ends with a value and a state in
`Q`, or stops for a reason in `E`.
-/

namespace Hoare

abbrev Prog (σ ε α : Type) := StateT σ (Except ε) α

variable {σ ε α β : Type}

def wp (x : Prog σ ε α) (Q : α → σ → Prop) (E : ε → Prop) (s : σ) : Prop :=
  match x s with
  | .ok (a, s') => Q a s'
  | .error e => E e

section
variable {Q Q' : α → σ → Prop} {R : β → σ → Prop} {E E' : ε → Prop} {s : σ}

section
variable {x : Prog σ ε α} (h : wp x Q E s)
include h

theorem wp_mono (hQ : ∀ a s', Q a s' → Q' a s')
    (hE : ∀ e, E e → E' e) : wp x Q' E' s := by
  unfold wp at h ⊢
  split at h
  · exact hQ _ _ h
  · exact hE _ h

theorem wp_post (hQ : ∀ a s', Q a s' → Q' a s') : wp x Q' E s :=
  wp_mono h hQ fun _ he => he

theorem wp_and (h' : wp x Q' E s) :
    wp x (fun a s' => Q a s' ∧ Q' a s') E s := by
  unfold wp at h h' ⊢
  split
  · rename_i heq; rw [heq] at h h'; exact ⟨h, h'⟩
  · rename_i heq; rw [heq] at h; exact h

theorem wp_ok (hx : x s = .ok (a, s')) : Q a s' := by
  unfold wp at h; rw [hx] at h; exact h

end

theorem wp_total (h : wp x Q (fun _ => False) s) : ∃ a s', x s = .ok (a, s') ∧ Q a s' := by
  unfold wp at h
  split at h
  · exact ⟨_, _, ‹_›, h⟩
  · exact h.elim

theorem wp_error (h : wp x Q E s) (hx : x s = .error e) : E e := by
  unfold wp at h; rw [hx] at h; exact h

theorem wp_of_ok (h : ∀ a s', x s = .ok (a, s') → Q a s')
    (he : ∀ e, x s = .error e → E e) : wp x Q E s := by
  unfold wp
  split
  · rename_i heq; exact h _ _ heq
  · rename_i heq; exact he _ heq

@[simp] theorem wp_pure (a : α) : wp (pure a) Q E s ↔ Q a s := Iff.rfl

@[simp] theorem wp_bind (x : Prog σ ε α) (f : α → Prog σ ε β) :
    wp (x >>= f) R E s ↔ wp x (fun a s' => wp (f a) R E s') E s := by
  unfold wp
  change (match (StateT.bind x f) s with | .ok (a, s') => R a s' | .error e => E e) ↔ _
  unfold StateT.bind
  cases h : x s with
  | error e => simp [bind, Except.bind]
  | ok p => rfl

@[simp] theorem wp_map (x : Prog σ ε α) (f : α → β) :
    wp (f <$> x) R E s ↔ wp x (fun a s' => R (f a) s') E s := by
  rw [map_eq_pure_bind, wp_bind]; rfl

@[simp] theorem wp_get {R : σ → σ → Prop} : wp (get : Prog σ ε σ) R E s ↔ R s s := Iff.rfl

@[simp] theorem wp_set {R : PUnit → σ → Prop} (t : σ) : wp (set t : Prog σ ε PUnit) R E s ↔ R ⟨⟩ t := Iff.rfl

@[simp] theorem wp_modify {R : PUnit → σ → Prop} (f : σ → σ) :
    wp (modify f : Prog σ ε PUnit) R E s ↔ R ⟨⟩ (f s) := Iff.rfl

@[simp] theorem wp_throw (e : ε) : wp (throw e : Prog σ ε α) Q E s ↔ E e := Iff.rfl

-- from here on a program is run by the lemmas above only
attribute [irreducible] wp

theorem wp_ret (h : Q a s) : wp (pure a) Q E s := (wp_pure a).mpr h

theorem wp_fail (h : E e) : wp (throw e : Prog σ ε α) Q E s := (wp_throw e).mpr h

theorem wp_put {R : PUnit → σ → Prop} {t : σ} (h : R ⟨⟩ t) : wp (set t : Prog σ ε PUnit) R E s := (wp_set t).mpr h

theorem wp_seq (h : wp x (fun a s' => wp (f a) R E s') E s) : wp (x >>= f) R E s :=
  (wp_bind x f).mpr h

theorem wp_read : wp (get >>= f) R E s ↔ wp (f s) R E s := by rw [wp_bind, wp_get]

theorem wp_ite {c : Prop} [Decidable c] (hx : c → wp x Q E s) (hy : ¬ c → wp y Q E s) :
    wp (if c then x else y) Q E s := by
  split
  · exact hx ‹_›
  · exact hy ‹_›

end

def forN (f : Nat → Prog σ ε Unit) : Nat → Prog σ ε Unit
  | 0 => pure ()
  | n + 1 => do forN f n; f n

theorem wp_forN (I : Nat → σ → Prop) (h0 : I 0 s)
    (hs : ∀ i s, i < n → I i s → wp (f i) (fun _ s' => I (i + 1) s') E s) :
    wp (forN f n) (fun _ s' => I n s') E s := by
  induction n with
  | zero => exact wp_ret h0
  | succ n ih =>
    rw [forN, wp_bind]
    exact wp_post (ih fun i s hi => hs i s (by omega)) fun _ s' h => hs n s' (by omega) h

/-- Run `f i`, `f (i + 1)`, … at most `n` times, up to the first that gives a result. -/
def search (f : Nat → Prog σ ε (Option β)) : Nat → Nat → Prog σ ε (Option β)
  | _, 0 => pure none
  | i, n + 1 => do
    match ← f i with
    | some b => pure (some b)
    | none => search f (i + 1) n

theorem wp_search {f : Nat → Prog σ ε (Option β)} {E : ε → Prop} (I : Nat → σ → Prop) {Q : Option β → σ → Prop}
    {i n : Nat} {s : σ} (h0 : I i s)
    (hs : ∀ j s, i ≤ j → j < i + n → I j s →
      wp (f j) (fun r s' => match r with | some b => Q (some b) s' | none => I (j + 1) s') E s)
    (hQ : ∀ s, I (i + n) s → Q none s) : wp (search f i n) Q E s := by
  induction n generalizing i s with
  | zero => exact wp_ret (hQ s h0)
  | succ n ih =>
    rw [search, wp_bind]
    refine wp_post (hs i s (by omega) (by omega) h0) fun r s' h => ?_
    cases r with
    | some b => exact wp_ret h
    | none =>
      refine ih h (fun j s hj hlt => hs j s (by omega) (by omega)) fun s hI => hQ s ?_
      rwa [show i + (n + 1) = i + 1 + n by omega]

variable {τ δ : Type}

/-- Run a program of a component of the state, which stops for reasons of its own. -/
def zoom (get : σ → τ) (set : σ → τ → σ) (err : δ → ε) (x : Prog τ δ α) : Prog σ ε α := fun s =>
  match x (get s) with
  | .ok (a, t) => .ok (a, set s t)
  | .error e => .error (err e)

@[simp] theorem wp_zoom (get : σ → τ) (set : σ → τ → σ) (err : δ → ε) (x : Prog τ δ α)
    :
    wp (zoom get set err x) Q E s ↔ wp x (fun a t => Q a (set s t)) (fun e => E (err e)) (get s) := by
  unfold wp zoom
  cases x (get s) with
  | error e => rfl
  | ok p => rfl

end Hoare
