import Xv6.Wp

/-!
# Runs of a system of events

A system reacts to events. `Trace run P s₀ tr s`: from `s₀`, the events of
`tr` (the last one first, each with the state it was met in) lead to `s`,
every one of them allowed by `P` and none of them stopping the system. A
`Cut` is what such a system keeps of a program that it runs step by step.
-/

namespace Hoare

variable {σ ε η : Type}

/-- A program cut into steps; `ρ` lists the types of what they return. -/
inductive Cut {ι : Type} (ρ : ι → Type) (σ ε α : Type)
  | ret (a : α)
  | step (i : ι) (x : Prog σ ε (ρ i)) (k : ρ i → Cut ρ σ ε α)

/-- The steps one after another. -/
def Cut.run {ι : Type} {ρ : ι → Type} {α : Type} : Cut ρ σ ε α → Prog σ ε α
  | .ret a => pure a
  | .step _ x k => x >>= fun b => (k b).run

inductive Trace (run : η → Prog σ ε Unit) (P : η → σ → Prop) (s₀ : σ) : List (η × σ) → σ → Prop
  | start : Trace run P s₀ [] s₀
  | step {tr : List (η × σ)} {s s' : σ} {e : η} : Trace run P s₀ tr s → P e s → run e s = .ok ((), s') →
    Trace run P s₀ ((e, s) :: tr) s'

variable {run : η → Prog σ ε Unit} {P P' : η → σ → Prop} {s₀ s : σ} {tr : List (η × σ)}

theorem Trace.inv (I : σ → Prop) (h0 : I s₀)
    (hs : ∀ e s, I s → P e s → wp (run e) (fun _ s' => I s') (fun _ => True) s) (h : Trace run P s₀ tr s) : I s := by
  induction h with
  | start => exact h0
  | step _ hP hr ih => exact wp_ok (hs _ _ ih hP) hr

theorem Trace.inv_trace (I : List (η × σ) → σ → Prop) (h0 : I [] s₀)
    (hs : ∀ e tr s, I tr s → P e s → wp (run e) (fun _ s' => I ((e, s) :: tr) s') (fun _ => True) s)
    (h : Trace run P s₀ tr s) : I tr s := by
  induction h with
  | start => exact h0
  | @step tr s s' e _ hP hr ih =>
    have hI := wp_ok (hs e tr s ih hP) hr
    exact hI

theorem Trace.mono (h : Trace run P s₀ tr s) (hP : ∀ e s, P e s → P' e s) : Trace run P' s₀ tr s := by
  induction h with
  | start => exact .start
  | step _ he hr ih => exact ih.step (hP _ _ he) hr

def runs (run : η → Prog σ ε Unit) (P : η → σ → Prop) [∀ e s, Decidable (P e s)] : List η → σ → Option σ
  | [], s => some s
  | e :: es, s =>
    if P e s then
      match run e s with
      | .ok (_, s') => runs run P es s'
      | .error _ => none
    else none

def okAnd {α : Type} (x : Except ε (α × σ)) (f : α → σ → Bool) : Bool :=
  match x with
  | .ok (a, s) => f a s
  | .error _ => false

theorem of_okAnd (h : okAnd x f) :
    ∃ a s, x = .ok (a, s) ∧ f a s := by
  cases x with
  | ok r => exact ⟨r.1, r.2, rfl, h⟩
  | error => cases h

def failsBy {α : Type} [DecidableEq ε] (x : Except ε α) (e : ε) : Bool :=
  match x with
  | .ok _ => false
  | .error e' => decide (e' = e)

theorem of_failsBy {α : Type} [DecidableEq ε] {e : ε} {x : Except ε α} (h : failsBy x e) : x = .error e := by
  cases x with
  | ok => cases h
  | error => rw [of_decide_eq_true h]

theorem Trace.append [∀ e s, Decidable (P e s)] : ∀ {es : List η} {s s' : σ} {tr : List (η × σ)},
    Trace run P s₀ tr s → runs run P es s = some s' → ∃ tr', Trace run P s₀ tr' s'
  | [], s, s', tr, h, hr => ⟨tr, by simp only [runs, Option.some.injEq] at hr; exact hr ▸ h⟩
  | e :: es, s, s', tr, h, hr => by
    unfold runs at hr
    split at hr
    · rename_i hP
      split at hr
      · rename_i u t heq
        exact Trace.append (h.step hP heq) hr
      · cases hr
    · cases hr

theorem Trace.of_runs [∀ e s, Decidable (P e s)] (h : runs run P es s₀ = some s) :
    ∃ tr, Trace run P s₀ tr s := Trace.start.append h

theorem Trace.of_map [∀ e s, Decidable (P e s)]
    (h : (runs run P es s₀).map f = some b) : ∃ tr s, Trace run P s₀ tr s ∧ f s = b := by
  obtain ⟨s, hs, hf⟩ := Option.map_eq_some_iff.mp h
  obtain ⟨tr, ht⟩ := Trace.of_runs hs
  exact ⟨tr, s, ht, hf⟩

theorem Trace.of_any [∀ e s, Decidable (P e s)] (h : (runs run P es s₀).any f) :
    ∃ tr s, Trace run P s₀ tr s ∧ f s := by
  obtain ⟨s, hs, hf⟩ := (Option.any_eq_true ..).mp h
  obtain ⟨tr, ht⟩ := Trace.of_runs hs
  exact ⟨tr, s, ht, hf⟩

end Hoare
