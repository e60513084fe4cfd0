import Xv6.Steps

/-!
# Processes that sleep and wake each other up

Processes share data and a lock. Each runs a program that takes the lock and
gives it back, changes the data, asks whether it was killed, goes to sleep on
a channel, giving up the lock in the same moment, and wakes up the sleepers
on a channel one after the other. Whoever is not asleep may take the next
step at any time. `Rules` is what such a program has to obey so that what the
lock guards is there for who takes it, and nobody sleeps on while what it
waits for has happened.
-/

namespace Monitor

open Hoare

variable {σ κ χ : Type}

/-- What a process does next, and where it goes on; `act` is told which process it is. -/
inductive Op (σ κ χ : Type)
  | idle
  | acquire (k : κ)
  | release (k : κ)
  | act (f : Nat → σ → σ × κ)
  | killed (f : Bool → κ)
  | wakeup (c : χ) (k : κ)
  | sleep (c : χ) (k : κ)

/-- Where a process is: at a point of its program, or in a `wakeup` that has come to process `j`. -/
inductive Ctl (κ χ : Type)
  | pt (k : κ)
  | waking (c : χ) (j : Nat) (k : κ)

structure Proc (κ χ : Type) where
  ctl : Ctl κ χ
  asleep : Option χ
  killed : Bool

structure Sys (σ κ χ : Type) where
  data : σ
  holder : Option Nat
  proc : Nat → Proc κ χ

def Sys.put (s : Sys σ κ χ) (p : Nat) (x : Proc κ χ) : Sys σ κ χ := { s with proc := Function.update s.proc p x }

def Sys.goto (s : Sys σ κ χ) (p : Nat) (t : Ctl κ χ) : Sys σ κ χ := s.put p { s.proc p with ctl := t }

def Sys.rouse (s : Sys σ κ χ) (p : Nat) : Sys σ κ χ := s.put p { s.proc p with asleep := none }

section
variable [DecidableEq χ]

def Sys.wake (s : Sys σ κ χ) (p : Nat) (c : χ) (j : Nat) : Sys σ κ χ :=
  if j ≠ p ∧ (s.proc j).asleep = some c then s.rouse j else s

inductive Event (κ : Type)
  | step (p : Nat)
  | enter (p : Nat) (k : κ)
  | kill (p : Nat)
  | rouse (p : Nat)

def Sys.step (n : Nat) (code : κ → Op σ κ χ) (s : Sys σ κ χ) (p : Nat) : Sys σ κ χ :=
  match (s.proc p).ctl with
  | .waking c j k => if j < n then (s.wake p c j).goto p (.waking c (j + 1) k) else s.goto p (.pt k)
  | .pt k =>
    match code k with
    | .idle => s
    | .acquire k' => if s.holder = none then { s with holder := some p }.goto p (.pt k') else s
    | .release k' => { s with holder := none }.goto p (.pt k')
    | .act f => { s with data := (f p s.data).1 }.goto p (.pt (f p s.data).2)
    | .killed f => s.goto p (.pt (f (s.proc p).killed))
    | .wakeup c k' => s.goto p (.waking c 0 k')
    | .sleep c k' => { s with holder := none }.put p ⟨.pt k', some c, (s.proc p).killed⟩

def Op.isIdle : Op σ κ χ → Bool
  | .idle => true
  | _ => false

def Ctl.isIdle (code : κ → Op σ κ χ) : Ctl κ χ → Bool
  | .pt k => (code k).isIdle
  | .waking .. => false

def Event.next (n : Nat) (code : κ → Op σ κ χ) (start : κ → Bool) (s : Sys σ κ χ) : Event κ → Sys σ κ χ
  | .step p => if p < n ∧ (s.proc p).asleep = none then s.step n code p else s
  | .enter p k => if p < n ∧ (s.proc p).ctl.isIdle code ∧ (s.proc p).asleep = none ∧ start k then s.goto p (.pt k) else s
  | .kill p => s.put p { s.proc p with killed := true, asleep := none }
  | .rouse p => s.rouse p

def Event.run (n : Nat) (code : κ → Op σ κ χ) (start : κ → Bool) (e : Event κ) : Prog (Sys σ κ χ) Empty Unit :=
  modify fun s => e.next n code start s

end

theorem idle_point {code : κ → Op σ κ χ} {t : Ctl κ χ} (h : t.isIdle code) : ∃ k, t = .pt k ∧ code k = .idle := by
  cases t with
  | waking c j k => cases h
  | pt k =>
    refine ⟨k, rfl, ?_⟩
    cases hc : code k <;> simp only [Ctl.isIdle, hc, Op.isIdle, Bool.false_eq_true] at h
    rfl

/-! ## What a step can be -/

section
variable (n : Nat) (code : κ → Op σ κ χ) (s : Sys σ κ χ)

inductive Step [DecidableEq χ] (p : Nat) : Sys σ κ χ → Prop
  | acquire {k k' : κ} : (s.proc p).ctl = .pt k → code k = .acquire k' → s.holder = none →
    Step p ({ s with holder := some p }.goto p (.pt k'))
  | release {k k' : κ} : (s.proc p).ctl = .pt k → code k = .release k' → Step p ({ s with holder := none }.goto p (.pt k'))
  | act {k : κ} {f : Nat → σ → σ × κ} : (s.proc p).ctl = .pt k → code k = .act f →
    Step p ({ s with data := (f p s.data).1 }.goto p (.pt (f p s.data).2))
  | killed {k : κ} {f : Bool → κ} : (s.proc p).ctl = .pt k → code k = .killed f →
    Step p (s.goto p (.pt (f (s.proc p).killed)))
  | wakeup {k k' : κ} {c : χ} : (s.proc p).ctl = .pt k → code k = .wakeup c k' → Step p (s.goto p (.waking c 0 k'))
  | wake {c : χ} {j : Nat} {k : κ} : (s.proc p).ctl = .waking c j k → j < n →
    Step p ((s.wake p c j).goto p (.waking c (j + 1) k))
  | woken {c : χ} {j : Nat} {k : κ} : (s.proc p).ctl = .waking c j k → ¬ j < n → Step p (s.goto p (.pt k))
  | sleep {k k' : κ} {c : χ} : (s.proc p).ctl = .pt k → code k = .sleep c k' →
    Step p ({ s with holder := none }.put p ⟨.pt k', some c, (s.proc p).killed⟩)

theorem step_cases [DecidableEq χ] (p : Nat) : s.step n code p = s ∨ Step n code s p (s.step n code p) := by
  unfold Sys.step
  split
  · rename_i c j k hk
    split
    · rename_i hj
      exact .inr (.wake hk hj)
    · rename_i hj
      exact .inr (.woken hk hj)
  · rename_i k hk
    split
    · exact .inl rfl
    · rename_i hc
      split
      · rename_i hh
        exact .inr (.acquire hk hc hh)
      · exact .inl rfl
    · rename_i hc
      exact .inr (.release hk hc)
    · rename_i hc
      exact .inr (.act hk hc)
    · rename_i hc
      exact .inr (.killed hk hc)
    · rename_i hc
      exact .inr (.wakeup hk hc)
    · rename_i hc
      exact .inr (.sleep hk hc)

end

theorem put_proc (s : Sys σ κ χ) (p q : Nat) (x : Proc κ χ) : (s.put p x).proc q = if q = p then x else s.proc q := by
  exact Function.update_apply ..

section
variable [DecidableEq χ] (s : Sys σ κ χ)
include s

theorem wake_ctl (p q : Nat) (c : χ) (j : Nat) :
    ((s.wake p c j).proc q).ctl = (s.proc q).ctl := by
  unfold Sys.wake Sys.rouse
  split
  · rw [put_proc]
    split
    · rename_i h
      rw [h]
    · rfl
  · rfl

theorem wake_holder (p : Nat) (c : χ) (j : Nat) : (s.wake p c j).holder = s.holder := by
  unfold Sys.wake
  split <;> rfl

theorem wake_data (p : Nat) (c : χ) (j : Nat) : (s.wake p c j).data = s.data := by
  unfold Sys.wake
  split <;> rfl

end

theorem asleep_of_wake [DecidableEq χ] {s : Sys σ κ χ} {p q : Nat} {c c' : χ} {j : Nat}
    (h : ((s.wake p c j).proc q).asleep = some c') : (s.proc q).asleep = some c' ∧ (q = j → q ≠ p → c' ≠ c) := by
  unfold Sys.wake Sys.rouse at h
  split at h
  · rw [put_proc] at h
    split at h
    · cases h
    · rename_i hq
      exact ⟨h, fun hj => absurd hj hq⟩
  · rename_i hn
    refine ⟨h, fun hj hp hc => hn ⟨fun e => hp (hj.trans e), ?_⟩⟩
    rw [← hj, h, hc]

/-- Where the lock is held, what is always so of the data, what is so of them while nobody holds the lock, what a
process at a point knows of them, where it gives up what it has to do if it was killed, where it is about to sleep on a
channel, where it sleeps on one, where it still has to wake up the sleepers on a channel, and before which points it does
so; and what has to be so for a process to sleep on a channel. -/
structure Marks (σ κ χ : Type) where
  locked : κ → Prop
  glob : σ → Prop
  free : σ → Prop
  here : Nat → κ → σ → Prop
  quits : κ → Prop
  sleepy : κ → χ → Prop
  waits : κ → χ → Prop
  owes : κ → χ → Prop
  pays : κ → Prop
  good : χ → σ → Prop

def Ctl.cont : Ctl κ χ → κ
  | .pt k => k
  | .waking _ _ k => k

/-- Process `p` is still going to be woken up if it sleeps on `c`. -/
def Ctl.owes (m : Marks σ κ χ) (c : χ) (p : Nat) : Ctl κ χ → Prop
  | .pt k => m.owes k c
  | .waking c' j k => c' = c ∧ j ≤ p ∧ m.pays k ∨ m.owes k c

structure Rules (m : Marks σ κ χ) (code : κ → Op σ κ χ) (start : κ → Bool) : Prop where
  idle : ∀ k, code k = .idle → ¬ m.locked k ∧ (∀ c, ¬ m.sleepy k c) ∧ ∀ c, ¬ m.owes k c
  start : ∀ k k', code k = .idle → start k' = true →
    ¬ m.locked k' ∧ (∀ p d, m.glob d → m.here p k d → m.here p k' d) ∧ ∀ c, ¬ m.sleepy k' c
  acquire : ∀ k k', code k = .acquire k' → m.locked k' ∧ (∀ p d, m.free d → m.here p k d → m.here p k' d) ∧
    (∀ c, ¬ m.sleepy k' c) ∧ ∀ c, m.owes k c → m.owes k' c
  release : ∀ k k', code k = .release k' → m.locked k ∧ ¬ m.locked k' ∧ (∀ p d, m.here p k d → m.free d ∧ m.here p k' d) ∧
    (∀ c, ¬ m.sleepy k' c) ∧ ∀ c, m.owes k c → m.owes k' c
  act : ∀ k f, code k = .act f → ∀ p d, m.glob d → m.here p k d → (m.locked (f p d).2 ↔ m.locked k) ∧
    m.glob (f p d).1 ∧ m.here p (f p d).2 (f p d).1 ∧ (∀ c, m.sleepy (f p d).2 c → m.good c (f p d).1) ∧
    ∀ c, m.owes k c ∨ m.good c d ∧ ¬ m.good c (f p d).1 → m.owes (f p d).2 c
  /-- Who acts without the lock leaves what it guards. -/
  outside : ∀ k f, code k = .act f → ¬ m.locked k → ∀ p d, m.glob d → m.here p k d → m.free d → m.free (f p d).1
  /-- Who acts takes nothing away from what the others know, unless both would have the lock. -/
  other : ∀ k f, code k = .act f → ∀ p q k' d, q ≠ p → m.glob d → m.here p k d → m.here q k' d →
    ¬ (m.locked k ∧ m.locked k') → m.here q k' (f p d).1
  killed : ∀ k f, code k = .killed f → ∀ b, (m.locked (f b) ↔ m.locked k) ∧ (∀ p d, m.here p k d → m.here p (f b) d) ∧
    (∀ c, m.sleepy (f b) c → m.sleepy k c) ∧ ∀ c, m.owes k c → m.owes (f b) c ∨ b = true ∧ m.quits k
  wakeup : ∀ k c k', code k = .wakeup c k' → m.locked k ∧ m.locked k' ∧ (∀ p d, m.here p k d → m.here p k' d) ∧
    (∀ c', m.sleepy k' c' → m.sleepy k c') ∧
    ∀ c', m.owes k c' → c' = c ∧ m.pays k' ∨ m.owes k' c'
  sleep : ∀ k c k', code k = .sleep c k' → m.locked k ∧ ¬ m.locked k' ∧ (∀ p d, m.here p k d → m.free d ∧ m.here p k' d) ∧
    (m.waits k' c → m.sleepy k c) ∧ (∀ c', ¬ m.sleepy k' c') ∧ ∀ c', ¬ m.owes k c'
  sleepy_locked : ∀ k c, m.sleepy k c → m.locked k

theorem Marks.owes_same (m : Marks σ κ χ) (h : ∀ c, m.owes k c → m.owes k' c) (c : χ) :
    m.owes k c ∨ m.good c d ∧ ¬ m.good c d → m.owes k' c
  | .inl hk => h c hk
  | .inr hg => absurd hg.1 hg.2

/-- No process gives up. -/
def Spares (m : Marks σ κ χ) : Event κ → Sys σ κ χ → Prop
  | .step p, s => m.quits (s.proc p).ctl.cont → (s.proc p).killed = false
  | _, _ => True

theorem Spares.of_quits {m : Marks σ κ χ} (h : ∀ k, ¬ m.quits k) (e : Event κ) (s : Sys σ κ χ) : Spares m e s := by
  cases e with
  | step p => exact fun hq => absurd hq (h _)
  | enter | kill | rouse => trivial

def Sys.drowsy (m : Marks σ κ χ) (s : Sys σ κ χ) (p : Nat) (c : χ) : Prop :=
  (s.proc p).asleep = some c ∧ m.waits (s.proc p).ctl.cont c ∨ m.sleepy (s.proc p).ctl.cont c

structure Inv (m : Marks σ κ χ) (code : κ → Op σ κ χ) (n : Nat) (s : Sys σ κ χ) : Prop where
  bound : ∀ p, s.holder = some p ∨ (s.proc p).asleep ≠ none → p < n
  lock : ∀ p, s.holder = some p ↔ m.locked (s.proc p).ctl.cont
  glob : m.glob s.data
  free : s.holder = none → m.free s.data
  here : ∀ p, m.here p (s.proc p).ctl.cont s.data
  waking : ∀ p c j k, (s.proc p).ctl = .waking c j k → ∃ k₀, code k₀ = .wakeup c k
  covered : ∀ p c, s.drowsy m p c → m.good c s.data ∨ ∃ q, q ≠ p ∧ (s.proc q).ctl.owes m c p

/-! ## The rules are enough -/

section
variable {m : Marks σ κ χ} {code : κ → Op σ κ χ} {start : κ → Bool} {n : Nat} {s : Sys σ κ χ}

section
variable (h : Inv m code n s) {p : Nat} {d : σ} {o : Option Nat} {x : Proc κ χ}
  (ha : ∀ c, x.asleep = some c ∧ m.waits x.ctl.cont c → m.sleepy (s.proc p).ctl.cont c ∧ d = s.data)
  (hs : ∀ c, m.sleepy x.ctl.cont c → m.good c d ∨ m.sleepy (s.proc p).ctl.cont c ∧ d = s.data)
  (hg : ∀ c q, m.good c s.data → m.good c d ∨ x.ctl.owes m c q)
  (ho : ∀ c q, q ≠ p → s.drowsy m q c → (s.proc p).ctl.owes m c q → x.ctl.owes m c q)
include h ha hs hg ho

theorem Inv.covered_put (q : Nat) (c : χ) (hq : ((⟨d, o, s.proc⟩ : Sys σ κ χ).put p x).drowsy m q c) :
    m.good c d ∨ ∃ r, r ≠ q ∧ (((⟨d, o, s.proc⟩ : Sys σ κ χ).put p x).proc r).ctl.owes m c q := by
  unfold Sys.drowsy at hq
  simp only [put_proc] at hq ⊢
  by_cases hqp : q = p
  · -- the process itself: nobody else moved, so whoever covered it still does
    rw [if_pos hqp] at hq
    have hold : m.good c d ∨ m.sleepy (s.proc q).ctl.cont c ∧ d = s.data := by
      rw [hqp]
      exact hq.elim (fun e => .inr (ha c e)) (hs c)
    rcases hold with hgd | ⟨hsl, hd⟩
    · exact .inl hgd
    · rcases h.covered q c (.inr hsl) with hgd | ⟨r, hr, hw⟩
      · exact .inl (hd ▸ hgd)
      · exact .inr ⟨r, hr, by rwa [if_neg (hqp ▸ hr)]⟩
  · rw [if_neg hqp] at hq
    rcases h.covered q c hq with hgd | ⟨r, hr, hw⟩
    · rcases hg c q hgd with hgd' | hw
      · exact .inl hgd'
      · exact .inr ⟨p, Ne.symm hqp, by rwa [if_pos rfl]⟩
    · by_cases hrp : r = p
      · subst hrp
        exact .inr ⟨r, hr, by rw [if_pos rfl]; exact ho c q hqp hq hw⟩
      · exact .inr ⟨r, hr, by rwa [if_neg hrp]⟩

theorem Inv.put (hp : p < n) (hl : o = some p ↔ m.locked x.ctl.cont) (hn : ∀ q, q ≠ p → (o = some q ↔ s.holder = some q))
    (hgl : m.glob d) (hf : o = none → m.free d) (hh : m.here p x.ctl.cont d)
    (hd : ∀ q, q ≠ p → m.here q (s.proc q).ctl.cont s.data → m.here q (s.proc q).ctl.cont d)
    (hw : ∀ c j k, x.ctl = .waking c j k → ∃ k0, code k0 = .wakeup c k) :
    Inv m code n ((⟨d, o, s.proc⟩ : Sys σ κ χ).put p x) := by
  refine ⟨fun q hq => ?_, fun q => ?_, hgl, hf, fun q => ?_, fun q c j k hk => ?_, h.covered_put ha hs hg ho⟩
  · by_cases hqp : q = p
    · exact hqp ▸ hp
    · rw [put_proc, if_neg hqp] at hq
      exact h.bound q (hq.imp_left (hn q hqp).mp)
  · rw [put_proc]
    by_cases hqp : q = p
    · rw [if_pos hqp, hqp]
      exact hl
    · rw [if_neg hqp]
      exact (hn q hqp).trans (h.lock q)
  · rw [put_proc]
    by_cases hqp : q = p
    · rw [if_pos hqp, hqp]
      exact hh
    · rw [if_neg hqp]
      exact hd q hqp (h.here q)
  · rw [put_proc] at hk
    by_cases hqp : q = p
    · rw [if_pos hqp] at hk
      exact hw c j k hk
    · rw [if_neg hqp] at hk
      exact h.waking q c j k hk

end

theorem Inv.only (h : Inv m code n s) (hk : m.locked (s.proc p).ctl.cont) (q : Nat) (hq : q ≠ p) :
    (none : Option Nat) = some q ↔ s.holder = some q := by
  rw [(h.lock p).mpr hk]
  exact ⟨nofun, fun e => absurd (Option.some.inj e).symm hq⟩

theorem Inv.fewer (h : Inv m code n s) {s' : Sys σ κ χ} (hd : s'.data = s.data) (ho : s'.holder = s.holder)
    (hctl : ∀ q, (s'.proc q).ctl = (s.proc q).ctl)
    (ha : ∀ q c, (s'.proc q).asleep = some c → (s.proc q).asleep = some c) : Inv m code n s' := by
  refine ⟨fun q hq => ?_, fun q => ?_, ?_, ?_, fun q => ?_, fun q c j k e => ?_, fun q c hq => ?_⟩
  · rw [ho] at hq
    refine h.bound q (hq.imp_right fun hne e => ?_)
    obtain ⟨c, hc⟩ := Option.ne_none_iff_exists'.mp hne
    rw [ha q c hc] at e
    cases e
  · rw [ho, hctl]
    exact h.lock q
  · rw [hd]
    exact h.glob
  · rw [ho, hd]
    exact h.free
  · rw [hctl, hd]
    exact h.here q
  · rw [hctl] at e
    exact h.waking q c j k e
  · unfold Sys.drowsy at hq
    simp only [hctl, hd] at hq ⊢
    exact h.covered q c (hq.imp_left fun e => ⟨ha q c e.1, e.2⟩)

theorem Inv.wake [DecidableEq χ] (h : Inv m code n s) (p : Nat) (c : χ) (j : Nat) : Inv m code n (s.wake p c j) :=
  h.fewer (wake_data ..) (wake_holder ..) (fun _ => wake_ctl ..) fun _ _ e => (asleep_of_wake e).1

theorem Inv.rouse (h : Inv m code n s) (p : Nat) (b : Bool) :
    Inv m code n (s.put p { s.proc p with asleep := none, killed := b }) := by
  refine h.fewer rfl rfl (fun q => ?_) fun q c e => ?_
  · rw [put_proc]
    split
    · rename_i hq
      rw [hq]
    · rfl
  · rw [put_proc] at e
    split at e
    · cases e
    · exact e

variable [DecidableEq χ] (hR : Rules m code start)
include hR

theorem Inv.step (h : Inv m code n s) {p : Nat} {s' : Sys σ κ χ} (hp : p < n) (ha : (s.proc p).asleep = none)
    (hq : m.quits (s.proc p).ctl.cont → (s.proc p).killed = false) (hst : Step n code s p s') : Inv m code n s' := by
  have hna : ∀ {P : Prop} (c : χ) {Q : Prop}, (s.proc p).asleep = some c ∧ Q → P := fun c _ e => by
    have := e.1
    rw [ha] at this
    cases this
  have hlock := h.lock p
  have hhere := h.here p
  cases hst with
  | @acquire k k' hk hc hh =>
    rw [hk] at hlock hhere
    obtain ⟨hl, hat, hsl, ho⟩ := hR.acquire k k' hc
    refine h.put (x := { s.proc p with ctl := .pt k' }) (fun c e => hna c e) (fun c e => absurd e (hsl c))
      (fun c q => .inl) (fun c q _ _ hw => ?_) hp ⟨fun _ => hl, fun _ => rfl⟩
      (fun q hq => by rw [hh]; exact ⟨fun e => absurd (Option.some.inj e).symm hq, nofun⟩) h.glob nofun
      (hat p _ (h.free hh) hhere) (fun _ _ e => e) nofun
    rw [hk] at hw
    exact ho c hw
  | @release k k' hk hc =>
    rw [hk] at hlock hhere
    obtain ⟨hl, hl', hat, hsl, ho⟩ := hR.release k k' hc
    refine h.put (x := { s.proc p with ctl := .pt k' }) (fun c e => hna c e) (fun c e => absurd e (hsl c))
      (fun c q => .inl) (fun c q _ _ hw => ?_) hp ⟨nofun, fun e => absurd e hl'⟩
      (h.only (p := p) (by rw [hk]; exact hl)) h.glob (fun _ => (hat p _ hhere).1) (hat p _ hhere).2 (fun _ _ e => e) nofun
    rw [hk] at hw
    exact ho c hw
  | @act k f hk hc =>
    rw [hk] at hlock hhere
    obtain ⟨hl, hgl, hat, hsl, ho⟩ := hR.act k f hc p s.data h.glob hhere
    refine h.put (x := { s.proc p with ctl := .pt (f p s.data).2 }) (fun c e => hna c e) (fun c e => .inl (hsl c e))
      (fun c q hg => ?_) (fun c q _ _ hw => ?_) hp (hlock.trans hl.symm) (fun q _ => Iff.rfl) hgl (fun hn => ?_) hat
      (fun q hq hqh => ?_) nofun
    · by_cases hg' : m.good c (f p s.data).1
      · exact .inl hg'
      · exact .inr (ho c (.inr ⟨hg, hg'⟩))
    · rw [hk] at hw
      exact ho c (.inl hw)
    · refine hR.outside k f hc (fun hkl => ?_) p s.data h.glob hhere (h.free hn)
      rw [hlock.mpr hkl] at hn
      cases hn
    · refine hR.other k f hc p q _ s.data hq h.glob hhere hqh fun ⟨hkl, hql⟩ => hq ?_
      have := (h.lock q).mpr hql
      rw [hlock.mpr hkl] at this
      exact (Option.some.inj this).symm
  | @killed k f hk hc =>
    rw [hk] at hlock hhere hq
    obtain ⟨hl, hat, hsl, ho⟩ := hR.killed k f hc (s.proc p).killed
    refine h.put (x := { s.proc p with ctl := .pt (f (s.proc p).killed) }) (fun c e => hna c e)
      (fun c e => .inr ⟨by rw [hk]; exact hsl c e, rfl⟩) (fun c q => .inl) (fun c q _ _ hw => ?_) hp (hlock.trans hl.symm)
      (fun q _ => Iff.rfl) h.glob h.free (hat p _ hhere) (fun _ _ e => e) nofun
    rw [hk] at hw
    rcases ho c hw with hw' | ⟨hb, hquit⟩
    · exact hw'
    · rw [hq hquit] at hb
      cases hb
  | @wakeup k k' c hk hc =>
    rw [hk] at hlock hhere
    obtain ⟨hl, hl', hat, hsl, ho⟩ := hR.wakeup k c k' hc
    refine h.put (x := { s.proc p with ctl := .waking c 0 k' }) (fun c e => hna c e)
      (fun c e => .inr ⟨by rw [hk]; exact hsl c e, rfl⟩) (fun c q => .inl) (fun c' q _ _ hw => ?_) hp
      ⟨fun _ => hl', fun _ => hlock.mpr hl⟩ (fun q _ => Iff.rfl) h.glob h.free (hat p _ hhere) (fun _ _ e => e)
      (fun c1 j1 k1 e => by cases e; exact ⟨k, hc⟩)
    rw [hk] at hw
    exact (ho c' hw).imp_left fun e => ⟨e.1.symm, Nat.zero_le q, e.2⟩
  | @wake c j k hk hj =>
    obtain ⟨k0, hc⟩ := h.waking p c j k hk
    have hl := (hR.wakeup k0 c k hc).2.1
    rw [hk] at hlock
    have hk' : ((s.wake p c j).proc p).ctl = .waking c j k := (wake_ctl ..).trans hk
    have hhere' := (h.wake p c j).here p
    rw [hk'] at hhere'
    refine (h.wake p c j).put (d := (s.wake p c j).data) (o := (s.wake p c j).holder)
      (x := { (s.wake p c j).proc p with ctl := .waking c (j + 1) k }) (fun c e => hna c ⟨(asleep_of_wake e.1).1, e.2⟩)
      (fun c e => .inr ⟨by rw [hk']; exact e, rfl⟩) (fun c q => .inl) (fun c' q hq hsl hw => ?_) hp ?_ (fun q _ => Iff.rfl)
      (h.wake p c j).glob (h.wake p c j).free hhere' (fun _ _ e => e) (fun c1 j1 k1 e => by cases e; exact ⟨k0, hc⟩)
    · rw [hk'] at hw
      refine hw.imp_left fun ⟨hcc, hjq, hpay⟩ => ⟨hcc, Nat.lt_of_le_of_ne hjq fun hjq => ?_, hpay⟩
      -- process `j` itself: it does not sleep on `c` now, and is not about to, since `p` has the lock
      rcases hsl with e | e
      · exact (asleep_of_wake e.1).2 hjq.symm hq hcc.symm
      · rw [wake_ctl] at e
        have := (h.lock q).mpr (hR.sleepy_locked _ _ e)
        rw [hlock.mpr hl] at this
        exact hq (Option.some.inj this).symm
    · rw [wake_holder]
      exact hlock
  | @woken c j k hk hj =>
    rw [hk] at hlock hhere
    refine h.put (x := { s.proc p with ctl := .pt k }) (fun c e => hna c e)
      (fun c e => .inr ⟨by rw [hk]; exact e, rfl⟩) (fun c q => .inl) (fun c' q _ hsl hw => ?_) hp hlock
      (fun q _ => Iff.rfl) h.glob h.free hhere (fun _ _ e => e) nofun
    rw [hk] at hw
    refine hw.resolve_left fun ⟨_, hjq, _⟩ => hj (Nat.lt_of_le_of_lt hjq (h.bound q ?_))
    exact hsl.symm.imp (fun e => (h.lock q).mpr (hR.sleepy_locked _ _ e)) fun e e' => by rw [e.1] at e'; cases e'
  | @sleep k k' c hk hc =>
    rw [hk] at hlock hhere
    obtain ⟨hl, hl', hat, hsl, hsl', ho⟩ := hR.sleep k c k' hc
    refine h.put (x := ⟨.pt k', some c, (s.proc p).killed⟩) (fun c' e => ⟨?_, rfl⟩)
      (fun c e => absurd e (hsl' c)) (fun c q => .inl) (fun c q _ _ hw => ?_) hp ⟨nofun, fun e => absurd e hl'⟩
      (h.only (p := p) (by rw [hk]; exact hl)) h.glob (fun _ => (hat p _ hhere).1) (hat p _ hhere).2 (fun _ _ e => e) nofun
    · rw [hk]
      obtain ⟨hcc, hw⟩ := e
      cases hcc
      exact hsl hw
    · rw [hk] at hw
      exact absurd hw (ho c)

omit [DecidableEq χ] in
theorem Inv.enter (h : Inv m code n s) {p : Nat} {k : κ} (hp : p < n) (ha : (s.proc p).asleep = none)
    (hi : (s.proc p).ctl.isIdle code) (hk : start k) : Inv m code n (s.goto p (.pt k)) := by
  obtain ⟨k0, hk0, hc⟩ := idle_point hi
  obtain ⟨hl, hat, hsl⟩ := hR.start k0 k hc hk
  obtain ⟨hl0, -, ho0⟩ := hR.idle k0 hc
  have hlock := h.lock p
  have hhere := h.here p
  rw [hk0] at hlock hhere
  refine h.put (d := s.data) (o := s.holder) (x := { s.proc p with ctl := .pt k }) (fun c e => ?_)
    (fun c e => absurd e (hsl c)) (fun c q => .inl) (fun c q _ _ hw => ?_) hp
    ⟨fun e => absurd (hlock.mp e) hl0, fun e => absurd e hl⟩ (fun q _ => Iff.rfl) h.glob h.free (hat p _ h.glob hhere)
    (fun _ _ e => e) nofun
  · have hs := e.1
    rw [ha] at hs
    cases hs
  · rw [hk0] at hw
    exact absurd hw (ho0 c)

theorem Inv.next (h : Inv m code n s) (he : Spares m e s) : Inv m code n (e.next n code start s) := by
  cases e with
  | step p =>
    simp only [Event.next]
    split
    · rename_i hp
      rcases step_cases n code s p with hs | hs
      · rw [hs]
        exact h
      · exact h.step hR hp.1 hp.2 he hs
    · exact h
  | enter p k =>
    simp only [Event.next]
    split
    · rename_i hp
      obtain ⟨hp, hi, ha, hk⟩ := hp
      exact h.enter hR hp ha hi hk
    · exact h
  | kill p => exact h.rouse p true
  | rouse p => exact h.rouse p _

theorem Inv.trace (h : Inv m code n s)
    (ht : Trace (Event.run n code start) (Spares m) s tr s') : Inv m code n s' := by
  refine ht.inv _ h fun e s hi he => ?_
  rw [Event.run, wp_modify]
  exact hi.next hR he

end

theorem data_trace [DecidableEq χ] {code : κ → Op σ κ χ} {start : κ → Bool}
    (J : σ → Prop)
    (hJ : ∀ k f, code k = .act f → ∀ p d, J d → J (f p d).1) (h : J s.data)
    (ht : Trace (Event.run n code start) P s tr s') : J s'.data := by
  refine ht.inv (fun s => J s.data) h fun e s hs _ => ?_
  rw [Event.run, wp_modify]
  cases e with
  | step p =>
    simp only [Event.next]
    split
    · rcases step_cases n code s p with he | he
      · rwa [he]
      · generalize s.step n code p = s1 at he
        cases he with
        | act hk hc => exact hJ _ _ hc _ _ hs
        | @wake c j k =>
          have hd : (s.wake p c j).data = s.data := wake_data ..
          exact hd ▸ hs
        | acquire | release | killed | wakeup | woken | sleep => exact hs
    · exact hs
  | enter p k =>
    simp only [Event.next]
    split <;> exact hs
  | kill p | rouse p => exact hs

theorem Step.ctl_of_ne [DecidableEq χ] {code : κ → Op σ κ χ}
    (h : Step n code s q s') (hp : p ≠ q) : (s'.proc p).ctl = (s.proc p).ctl := by
  cases h with
  | wake =>
    unfold Sys.goto
    rw [put_proc, if_neg hp]
    exact wake_ctl ..
  | acquire | release | act | killed | wakeup | woken =>
    unfold Sys.goto
    rw [put_proc, if_neg hp]
  | sleep => rw [put_proc, if_neg hp]

theorem ctl_outside [DecidableEq χ] {code : κ → Op σ κ χ} {start : κ → Bool}
    (ht : Trace (Event.run n code start) P s tr s')
    (hp : n ≤ p) : (s'.proc p).ctl = (s.proc p).ctl := by
  refine ht.inv (fun s' => (s'.proc p).ctl = (s.proc p).ctl) rfl fun e s' hs _ => ?_
  rw [Event.run, wp_modify, ← hs]
  have hne : ∀ {q}, q < n → p ≠ q := fun hq e => absurd hp (Nat.not_le.mpr (e ▸ hq))
  have hput : ∀ (q : Nat) (a : Option χ) (b : Bool), ((s'.put q ⟨(s'.proc q).ctl, a, b⟩).proc p).ctl = (s'.proc p).ctl := by
    intro q a b
    rw [put_proc]
    split
    · rename_i hq
      rw [hq]
    · rfl
  cases e with
  | step q =>
    simp only [Event.next]
    split
    · rename_i hq
      rcases step_cases n code s' q with he | he
      · rw [he]
      · exact he.ctl_of_ne (hne hq.1)
    · rfl
  | enter q k =>
    simp only [Event.next]
    split
    · rename_i hq
      unfold Sys.goto
      rw [put_proc, if_neg (hne hq.1)]
    · rfl
  | kill q => exact hput q none true
  | rouse q => exact hput q none _

def Sys.boot (d : σ) (k : κ) : Sys σ κ χ := ⟨d, none, fun _ => ⟨.pt k, none, false⟩⟩

theorem inv_boot {m : Marks σ κ χ} {code : κ → Op σ κ χ} {start : κ → Bool} (hR : Rules m code start) {n : Nat} {d : σ}
    {k : κ} (hk : code k = .idle) (hd : m.glob d) (hf : m.free d) (hh : ∀ p, m.here p k d) :
    Inv m code n (Sys.boot d k) := by
  obtain ⟨hl, hs, -⟩ := hR.idle k hk
  refine ⟨fun p hp => ?_, fun p => ?_, hd, fun _ => hf, hh, nofun, fun p c hp => ?_⟩
  · rcases hp with e | e
    · cases e
    · exact absurd rfl e
  · exact ⟨nofun, fun e => absurd e hl⟩
  · rcases hp with e | e
    · cases e.1
    · exact absurd e (hs c)

end Monitor
