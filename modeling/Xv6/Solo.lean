import Xv6.Monitor

/-!
# One process in a world that changes

The same programs as `Monitor` runs, seen from one process: whatever the
others do, they change the data between its steps, wake it up or kill it. It
takes the lock whenever it gets it, and whom it wakes up is not its concern.
-/

namespace Monitor

open Hoare

variable {σ κ χ τ κ' χ' : Type}

structure Solo (σ κ χ : Type) where
  ctl : κ
  data : σ
  asleep : Option χ
  killed : Bool

inductive SoloEvent (σ : Type)
  | step
  | world (d : σ)
  | kill
  | rouse

def Solo.step (code : κ → Op σ κ χ) (p : Nat) (s : Solo σ κ χ) : Solo σ κ χ :=
  match code s.ctl with
  | .idle => s
  | .acquire k | .release k | .wakeup _ k => { s with ctl := k }
  | .act f => { s with ctl := (f p s.data).2, data := (f p s.data).1 }
  | .killed f => { s with ctl := f s.killed }
  | .sleep c k => { s with ctl := k, asleep := some c }

def Solo.kill (s : Solo σ κ χ) : Solo σ κ χ := { s with killed := true, asleep := none }

def SoloEvent.next (code : κ → Op σ κ χ) (p : Nat) (s : Solo σ κ χ) : SoloEvent σ → Solo σ κ χ
  | .step => if s.asleep.isSome then s else s.step code p
  | .world d => { s with data := d }
  | .kill => s.kill
  | .rouse => { s with asleep := none }

def SoloEvent.run (code : κ → Op σ κ χ) (p : Nat) (e : SoloEvent σ) : Prog (Solo σ κ χ) Empty Unit :=
  modify fun s => e.next code p s

def SoloEvent.isStep : SoloEvent σ → Bool
  | .step => true
  | _ => false

/-- A program that works on a part of the data, as part of a larger one. -/
def Op.lift (get : τ → σ) (set : τ → σ → τ) (emb : κ → κ') (chan : χ → χ') : Op σ κ χ → Op τ κ' χ'
  | .idle => .idle
  | .acquire k => .acquire (emb k)
  | .release k => .release (emb k)
  | .act f => .act fun p d => (set d (f p (get d)).1, emb (f p (get d)).2)
  | .killed f => .killed fun b => emb (f b)
  | .wakeup c k => .wakeup (chan c) (emb k)
  | .sleep c k => .sleep (chan c) (emb k)

/-- From the points `past` a process that has been killed does not come to sleep, and is done after `left` steps;
where it looks at the data, if it finds them as `ok` says. -/
structure Leaves (code : κ → Op σ κ χ) (ok : κ → σ → Prop) (past : κ → Prop) (left : κ → Nat) : Prop where
  acquire : ∀ k k', past k → code k = .acquire k' → past k' ∧ left k' < left k
  release : ∀ k k', past k → code k = .release k' → past k' ∧ left k' < left k
  act : ∀ k f p d, past k → code k = .act f → ok k d → past (f p d).2 ∧ left (f p d).2 < left k
  killed : ∀ k f, past k → code k = .killed f → past (f true) ∧ left (f true) < left k
  wakeup : ∀ k c k', past k → code k = .wakeup c k' → past k' ∧ left k' < left k
  sleep : ∀ k c k', past k → code k ≠ .sleep c k'

def Finds (ok : κ → σ → Prop) : SoloEvent σ → Solo σ κ χ → Prop
  | .step, s => ok s.ctl s.data
  | _, _ => True

section
variable {code : κ → Op σ κ χ} {ok : κ → σ → Prop} {past : κ → Prop} {left : κ → Nat} (hL : Leaves code ok past left)
include hL

theorem Leaves.step {p : Nat} {s : Solo σ κ χ} (hp : past s.ctl) (hk : s.killed) (ha : s.asleep = none)
    (ho : ok s.ctl s.data) : past (s.step code p).ctl ∧ (s.step code p).killed ∧ (s.step code p).asleep = none ∧
      (code s.ctl = .idle ∨ left (s.step code p).ctl < left s.ctl) := by
  unfold Solo.step
  cases hc : code s.ctl with
  | idle => exact ⟨hp, hk, ha, .inl rfl⟩
  | acquire k =>
    obtain ⟨h1, h2⟩ := hL.acquire _ _ hp hc
    exact ⟨h1, hk, ha, .inr h2⟩
  | release k =>
    obtain ⟨h1, h2⟩ := hL.release _ _ hp hc
    exact ⟨h1, hk, ha, .inr h2⟩
  | act f =>
    obtain ⟨h1, h2⟩ := hL.act _ _ p _ hp hc ho
    exact ⟨h1, hk, ha, .inr h2⟩
  | killed f =>
    obtain ⟨h1, h2⟩ := hL.killed _ _ hp hc
    rw [hk]
    exact ⟨h1, rfl, ha, .inr h2⟩
  | wakeup c k =>
    obtain ⟨h1, h2⟩ := hL.wakeup _ _ _ hp hc
    exact ⟨h1, hk, ha, .inr h2⟩
  | sleep c k => exact absurd hc (hL.sleep _ _ _ hp)

theorem Leaves.trace {p : Nat} {s s' : Solo σ κ χ} {tr : List (SoloEvent σ × Solo σ κ χ)} (hp : past s.ctl)
    (hk : s.killed) (ha : s.asleep = none) (h : Trace (SoloEvent.run code p) (Finds ok) s tr s') :
    s'.asleep = none ∧
      (code s'.ctl = .idle ∨ tr.countP (fun e => e.1.isStep) + left s'.ctl ≤ left s.ctl) := by
  have hinv := h.inv_trace (fun tr s' => past s'.ctl ∧ s'.killed ∧ s'.asleep = none ∧
      (code s'.ctl = .idle ∨ tr.countP (fun e => e.1.isStep) + left s'.ctl ≤ left s.ctl)) ⟨hp, hk, ha, .inr (by simp)⟩ ?_
  · exact hinv.2.2
  intro e tr s ⟨hp, hk, ha, hl⟩ he
  rw [SoloEvent.run, wp_modify]
  cases e with
  | step =>
    have hn : ¬ s.asleep.isSome := by rw [ha]; exact nofun
    simp only [SoloEvent.next, if_neg hn]
    obtain ⟨h1, h2, h3, h4⟩ := hL.step (p := p) hp hk ha he
    refine ⟨h1, h2, h3, ?_⟩
    have hidle : code s.ctl = .idle → (s.step code p).ctl = s.ctl := fun hc => by
      unfold Solo.step
      rw [hc]
    rw [List.countP_cons_of_pos rfl]
    rcases h4 with hc | hlt
    · exact .inl (by rw [hidle hc, hc])
    · rcases hl with hc | hl
      · exact .inl (by rw [hidle hc, hc])
      · exact .inr (by omega)
  | world d | kill | rouse =>
    exact ⟨hp, by first | exact hk | rfl, by first | exact ha | rfl, hl⟩

end

theorem asleep_trace {code : κ → Op σ κ χ} {rests : κ → Prop} (hr : ∀ k c k', code k = .sleep c k' → rests k')
    (ha : s.asleep = none)
    (h : Trace (SoloEvent.run code p) (fun _ _ => True) s tr s') (hs : s'.asleep ≠ none) : rests s'.ctl := by
  refine h.inv (fun s => s.asleep ≠ none → rests s.ctl) (absurd ha) (fun e s ih _ => ?_) hs
  rw [SoloEvent.run, wp_modify]
  cases e with
  | step =>
    simp only [SoloEvent.next]
    split
    · exact ih
    · rename_i hn
      have hn : s.asleep = none := Option.not_isSome_iff_eq_none.mp hn
      unfold Solo.step
      cases hc : code s.ctl with
      | sleep c k => exact fun _ => hr _ _ _ hc
      | _ => exact absurd hn
  | world d => exact ih
  | kill | rouse => exact absurd rfl

end Monitor
