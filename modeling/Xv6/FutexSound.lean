import Xv6.Futex

/-!
# Semaphores and mutexes over futexes are correct

What user code has to obey (`UserRules`) so that with the two system calls
nobody sleeps on who could go on: whoever changes the word so that a sleeper
could go on calls `futex_wake` afterwards. The word changes without
`futex_lock`, so between the check in `sys_futex_wait` and the sleep it can
change as well; but then the `futex_wake` still has to come.
-/

namespace Xv6

open Hoare

/-! ## User code -/

/-- What is always so of the memory, what a thread at a point knows of it, where it still has to call `futex_wake`,
where it goes on after that, and when a sleeper has to sleep. -/
structure UserMarks (σ κ : Type) where
  glob : σ → Prop
  here : Nat → κ → σ → Prop
  pending : κ → Prop
  wakes : κ → Prop
  blocked : σ → Prop

section
variable {σ κ : Type}

structure UserRules (m : UserMarks σ κ) (user : κ → UserOp σ κ) (word : σ → Int) (start : κ → Bool) : Prop where
  idle : ∀ k, user k = .idle → ¬ m.pending k
  start : ∀ k, start k = true → ∀ p d, m.glob d → m.here p k d
  act : ∀ k f, user k = .act f → ∀ p d, m.glob d → m.here p k d → m.glob (f p d).1 ∧ m.here p (f p d).2 (f p d).1 ∧
    (∀ q k', q ≠ p → m.here q k' d → m.here q k' (f p d).1) ∧
    (m.pending k ∨ m.blocked d ∧ ¬ m.blocked (f p d).1 → m.pending (f p d).2)
  wait : ∀ k val k', user k = .wait val k' → ¬ m.pending k ∧
    ∀ p d, m.here p k d → m.here p k' d ∧ ∀ d', word d' = val → m.blocked d'
  wake : ∀ k k', user k = .wake k' → (m.pending k → m.wakes k') ∧ ¬ m.pending k' ∧ ∀ p d, m.here p k d → m.here p k' d

def FutexPc.locked : FutexPc κ → Prop
  | waitCheck _ _ | waitSleep _ _ | waitDone _ | wakeScan _ | wakeDone _ => True
  | otherCheck _ _ | otherSleep _ _ | otherScan | otherDone => True
  | _ => False

def FutexPc.here (m : UserMarks σ κ) (word : σ → Int) (p : Nat) : FutexPc κ → Shared σ → Prop
  | user k, d | waitDone k, d | wakeScan k, d | wakeDone k, d => m.here p k d.mem
  | waitCheck val k, d | waitSleep val k, d | waitAgain val k, d =>
    m.here p k d.mem ∧ ∀ d', word d' = val → m.blocked d'
  | _, _ => True

def FutexPc.sleepy : FutexPc κ → Prop
  | waitSleep _ _ => True
  | _ => False

def FutexPc.waits : FutexPc κ → Prop
  | waitAgain _ _ => True
  | _ => False

def FutexPc.owes (m : UserMarks σ κ) : FutexPc κ → Prop
  | user k => m.pending k
  | wakeScan k => m.wakes k
  | _ => False

def FutexPc.pays (m : UserMarks σ κ) : FutexPc κ → Prop
  | wakeDone k => m.wakes k
  | _ => False

def futexMarks (m : UserMarks σ κ) (word : σ → Int) : Monitor.Marks (Shared σ) (FutexPc κ) Unit where
  locked := FutexPc.locked
  glob d := m.glob d.mem
  free _ := True
  here := FutexPc.here m word
  quits _ := False
  sleepy k _ := k.sleepy
  waits k _ := k.waits
  owes k _ := k.owes m
  pays := FutexPc.pays m
  good _ d := m.blocked d.mem

variable {m : UserMarks σ κ} {user : κ → UserOp σ κ} {word : σ → Int} {start : κ → Bool}

theorem FutexPc.here_mem {p : Nat} {k : FutexPc κ} {d d' : Shared σ} (h : ∀ k', m.here p k' d.mem → m.here p k' d'.mem)
    (hk : k.here m word p d) : k.here m word p d' := by
  cases k with
  | user k | waitDone k | wakeScan k | wakeDone k => exact h k hk
  | waitCheck val k | waitSleep val k | waitAgain val k => exact ⟨h k hk.1, hk.2⟩
  | _ => trivial

variable (hU : UserRules m user word start)
include hU

section
variable (k : FutexPc κ) (f : Nat → Shared σ → Shared σ × FutexPc κ) (hk : futexCode user word k = .act f)
include k f hk

theorem futex_act
    (p : Nat) (d : Shared σ) (hg : (futexMarks m word).glob d) (hh : (futexMarks m word).here p k d) :
    ((f p d).2.locked ↔ k.locked) ∧ m.glob (f p d).1.mem ∧ (f p d).2.here m word p (f p d).1 ∧
      (∀ _ : Unit, (f p d).2.sleepy → m.blocked (f p d).1.mem) ∧
      ∀ _ : Unit, k.owes m ∨ m.blocked d.mem ∧ ¬ m.blocked (f p d).1.mem → (f p d).2.owes m := by
  cases k
  case user k =>
    cases hu : user k <;> cases (congrArg UserOp.op hu).symm.trans hk
    obtain ⟨hg', hh', -, ho⟩ := hU.act k _ hu p d.mem hg hh
    exact ⟨Iff.rfl, hg', hh', fun _ => False.elim, fun _ => ho⟩
  case waitCheck val k =>
    cases hk
    have hsame : ¬ (False ∨ m.blocked d.mem ∧ ¬ m.blocked d.mem) := fun h => h.elim id fun h => h.2 h.1
    dsimp only
    split
    · exact ⟨Iff.rfl, hg, hh.1, fun _ => False.elim, fun _ h => (hsame h).elim⟩
    · split
      · rename_i hw
        exact ⟨Iff.rfl, hg, hh, fun _ _ => hh.2 _ hw, fun _ h => (hsame h).elim⟩
      · exact ⟨Iff.rfl, hg, hh.1, fun _ => False.elim, fun _ h => (hsame h).elim⟩
  case otherCheck same i =>
    cases hk
    have hsame : ¬ (False ∨ m.blocked d.mem ∧ ¬ m.blocked d.mem) := fun h => h.elim id fun h => h.2 h.1
    split
    · exact ⟨Iff.rfl, hg, trivial, fun _ => False.elim, fun _ h => (hsame h).elim⟩
    · exact ⟨Iff.rfl, hg, trivial, fun _ => False.elim, fun _ h => (hsame h).elim⟩
  all_goals cases hk

theorem futex_other
    (p q : Nat) (k' : FutexPc κ) (d : Shared σ) (hne : q ≠ p) (hg : m.glob d.mem) (hh : k.here m word p d)
    (hq : k'.here m word q d) : k'.here m word q (f p d).1 := by
  cases k
  case user k =>
    cases hu : user k <;> cases (congrArg UserOp.op hu).symm.trans hk
    exact FutexPc.here_mem (fun k' => (hU.act k _ hu p d.mem hg hh).2.2.1 q k' hne) hq
  all_goals cases hk
  · exact FutexPc.here_mem (d := d) (fun _ => id) hq
  · exact hq

end

theorem futex_rules : Monitor.Rules (futexMarks m word) (futexCode user word) (FutexPc.isCall start) where
  idle k hk := by
    cases k
    case user k =>
      cases hu : user k <;> cases (congrArg UserOp.op hu).symm.trans hk
      exact ⟨id, fun _ => id, fun _ => hU.idle k hu⟩
    all_goals cases hk
    exact ⟨id, fun _ => id, fun _ => id⟩
  start _ k _ hk := by
    cases k
    case user k => exact ⟨id, fun p d hg _ => hU.start k hk p d.mem hg, fun _ => id⟩
    all_goals cases hk
    all_goals exact ⟨id, fun _ _ _ _ => trivial, fun _ => id⟩
  acquire k k' hk := by
    cases k
    case user k =>
      cases hu : user k <;> cases (congrArg UserOp.op hu).symm.trans hk
      · obtain ⟨hp, hh⟩ := hU.wait k _ _ hu
        exact ⟨trivial, fun p d _ => hh p d.mem, fun _ => id, fun _ h => absurd h hp⟩
      · obtain ⟨hp, -, hh⟩ := hU.wake k _ hu
        exact ⟨trivial, fun p d _ => hh p d.mem, fun _ => id, fun _ => hp⟩
    all_goals cases hk
    all_goals exact ⟨trivial, fun _ _ _ => id, fun _ => id, fun _ => False.elim⟩
  release k k' hk := by
    cases k
    case user k =>
      cases hu : user k <;> cases (congrArg UserOp.op hu).symm.trans hk
    all_goals cases hk
    all_goals exact ⟨trivial, id, fun _ _ h => ⟨trivial, h⟩, fun _ => id, fun _ => False.elim⟩
  act := futex_act hU
  outside _ _ _ _ _ _ _ _ := id
  other k f hk p q k' d hne hg hh hq _ := futex_other hU k f hk p q k' d hne hg hh hq
  killed k f hk b := by
    cases k
    case user k =>
      cases hu : user k <;> cases (congrArg UserOp.op hu).symm.trans hk
    all_goals cases hk
  wakeup k c k' hk := by
    cases k
    case user k =>
      cases hu : user k <;> cases (congrArg UserOp.op hu).symm.trans hk
    all_goals cases hk
    · exact ⟨trivial, trivial, fun _ _ => id, fun _ => id, fun _ h => .inl ⟨rfl, h⟩⟩
    · exact ⟨trivial, trivial, fun _ _ => id, fun _ => id, fun _ => False.elim⟩
  sleep k c k' hk := by
    cases k
    case user k =>
      cases hu : user k <;> cases (congrArg UserOp.op hu).symm.trans hk
    all_goals cases hk
    · exact ⟨trivial, id, fun _ _ h => ⟨trivial, h⟩, fun _ => trivial, fun _ => id, fun _ => id⟩
    · exact ⟨trivial, id, fun _ _ h => ⟨trivial, h⟩, id, fun _ => id, fun _ => id⟩
  sleepy_locked k c h := by
    cases k <;> trivial

omit hU in
/-- Between the step that lets a sleeper go on and the end of the `futex_wake` after it. -/
def raising (m : UserMarks σ κ) : Monitor.Ctl (FutexPc κ) Unit → Prop
  | .pt (.user k) => m.pending k
  | .pt (.wakeScan k) => m.wakes k
  | .waking _ _ (.wakeDone k) => m.wakes k
  | _ => False

omit hU in
theorem raising_of_owes
    (hw : ∀ c j k, t = .waking c j k → ∃ k0, futexCode user word k0 = .wakeup c k)
    (h : t.owes (futexMarks m word) () p) : raising m t := by
  cases t with
  | pt k => cases k <;> exact h
  | waking c j k =>
    obtain ⟨k0, hk0⟩ := hw c j k rfl
    have hk : k = .otherDone ∨ ∃ k', k = .wakeDone k' := by
      cases k0
      case user k' =>
        change (user k').op = _ at hk0
        cases hu : user k' <;> rw [hu] at hk0 <;> cases hk0
      all_goals cases hk0
      · exact .inr ⟨_, rfl⟩
      · exact .inl rfl
    rcases hk with rfl | ⟨k', rfl⟩
    · exact h.elim (fun h => h.2.2) id
    · exact h.elim (fun h => h.2.2) False.elim

theorem futex_sound (k0 : κ) (hk : user k0 = .idle) (hd : m.glob d.mem)
    (hh : ∀ p, m.here p k0 d.mem)
    (h : Trace (Monitor.Event.run n (futexCode user word) (FutexPc.isCall start)) (fun _ _ => True)
      (Monitor.Sys.boot d (.user k0)) tr s) :
    m.glob s.data.mem ∧ (∀ p, (s.proc p).ctl.cont.here m word p s.data) ∧
      ∀ p, (s.proc p).asleep = some () → (s.proc p).ctl.cont.waits →
        m.blocked s.data.mem ∨ ∃ q, raising m (s.proc q).ctl := by
  have hk' : futexCode user word (.user k0) = .idle := by
    change (user k0).op = _
    rw [hk]
    rfl
  have hinv := (Monitor.inv_boot (futex_rules hU) (n := n) hk' hd trivial hh).trace (futex_rules hU)
    (h.mono fun e s _ => .of_quits (fun _ => id) e s)
  refine ⟨hinv.glob, hinv.here, fun p ha hw => ?_⟩
  refine (hinv.covered p () (.inl ⟨ha, hw⟩)).imp_right fun ⟨q, _, hq⟩ => ⟨q, raising_of_owes (hinv.waking q) hq⟩

end

/-! ## Semaphores -/

namespace SemPc

def inside : SemPc → Prop
  | out | downLock | downWait _ | upLock => False
  | _ => True

def knows : SemPc → Sem → Prop
  | downRead, d => 0 < d.value
  | downWrite t, d => t = d.value ∧ 0 < d.value
  | downVal, d => d.value ≤ 0
  | downLeave val, _ | downWait val, _ => val ≤ 0
  | upWrite t, d => t = d.value
  | _, _ => True

theorem knows_outside {k : SemPc} (hk : ¬ k.inside) {d d' : Sem} (h : k.knows d) : k.knows d' := by
  cases k <;> first | exact h | exact absurd trivial hk

end SemPc

def Sem.held (d : Sem) : Prop := d.lock = 0 ∧ d.owner = none ∨ d.lock = 1 ∧ d.owner ≠ none

def semMarks (v : Int) : UserMarks Sem SemPc where
  glob d := d.held ∧ (v + d.ups < 2 ^ 31 → d.value = v + d.ups - d.downs ∧ 0 ≤ d.value)
  here p k d := (k.inside → d.owner = some p) ∧ k.knows d
  pending k := k = .upWake
  wakes k := k = .upUnlock
  blocked d := d.value ≤ 0

theorem int32_of_lt (h0 : 0 ≤ x) (h1 : x < 2 ^ 31) : int32 x = x := by
  unfold int32
  rw [Int.bmod_eq_of_le_mul_two] <;> omega

section
variable {v : Int} {p : Nat} {d : Sem}

theorem sem_other_inside (ho : d.owner = some p) (d' : Sem) (q : Nat) (k : SemPc) (hq : q ≠ p)
    (h : (semMarks v).here q k d) : (semMarks v).here q k d' := by
  have hk : ¬ k.inside := by
    intro hk
    have := h.1 hk
    rw [ho] at this
    exact hq (Option.some.inj this).symm
  exact ⟨fun e => absurd e hk, k.knows_outside hk h.2⟩

theorem sem_trylock (hg : (semMarks v).glob d) (again next : SemPc) (ha : ¬ again.inside)
    (hka : ∀ d, again.knows d) (hkn : ∀ d, next.knows d) :
    (semMarks v).glob (Sem.trylock again next p d).1 ∧
      (semMarks v).here p (Sem.trylock again next p d).2 (Sem.trylock again next p d).1 ∧
      (∀ q k', q ≠ p → (semMarks v).here q k' d → (semMarks v).here q k' (Sem.trylock again next p d).1) ∧
      (Sem.trylock again next p d).1.value = d.value := by
  obtain ⟨hh, hv⟩ := hg
  unfold Sem.trylock
  by_cases hl : d.lock = 0
  · rw [if_pos hl]
    have hno : d.owner = none := hh.elim (fun h => h.2) fun h => by rw [hl] at h; cases h.1
    refine ⟨⟨.inr ⟨rfl, nofun⟩, hv⟩, ⟨fun _ => rfl, hkn _⟩, fun q k' hq h => ?_, rfl⟩
    have hk : ¬ k'.inside := by
      intro hk
      have := h.1 hk
      rw [hno] at this
      cases this
    exact ⟨fun e => absurd e hk, k'.knows_outside hk h.2⟩
  · rw [if_neg hl]
    have hsome : d.owner ≠ none := hh.elim (fun h => absurd h.1 hl) fun h => h.2
    refine ⟨⟨.inr ⟨rfl, hsome⟩, hv⟩, ⟨fun e => absurd e ha, hka _⟩, fun q k' _ h => ⟨h.1, ?_⟩, rfl⟩
    cases k' <;> exact h.2

theorem sem_unlock (hg : (semMarks v).glob d) (ho : d.owner = some p) (next : SemPc) (hn : ¬ next.inside)
    (hkn : ∀ d, next.knows d) :
    (semMarks v).glob (Sem.unlock next p d).1 ∧
      (semMarks v).here p (Sem.unlock next p d).2 (Sem.unlock next p d).1 ∧
      ∀ q k', q ≠ p → (semMarks v).here q k' d → (semMarks v).here q k' (Sem.unlock next p d).1 :=
  ⟨⟨.inl ⟨rfl, rfl⟩, hg.2⟩, ⟨fun e => absurd e hn, hkn _⟩, sem_other_inside ho _⟩

theorem sem_act (k : SemPc) (f : Nat → Sem → Sem × SemPc) (hk : semCode k = .act f) (p : Nat) (d : Sem)
    (hg : (semMarks v).glob d) (hh : (semMarks v).here p k d) :
    (semMarks v).glob (f p d).1 ∧ (semMarks v).here p (f p d).2 (f p d).1 ∧
      (∀ q k', q ≠ p → (semMarks v).here q k' d → (semMarks v).here q k' (f p d).1) ∧
      ((semMarks v).pending k ∨ (semMarks v).blocked d ∧ ¬ (semMarks v).blocked (f p d).1 →
        (semMarks v).pending (f p d).2) := by
  have hsame : ∀ {P Q : Prop} {d' : Sem}, ¬ P → d'.value = d.value →
      P ∨ (semMarks v).blocked d ∧ ¬ (semMarks v).blocked d' → Q := by
    intro P Q d' hP hv h
    refine (h.elim hP fun ⟨hb, hb'⟩ => hb' ?_).elim
    change d'.value ≤ 0
    rw [hv]
    exact hb
  cases k <;> cases hk
  case downLock =>
    obtain ⟨h1, h2, h3, h4⟩ := sem_trylock (p := p) hg .downLock .downTest id
      (fun _ => trivial) fun _ => trivial
    exact ⟨h1, h2, h3, hsame nofun h4⟩
  case upLock =>
    obtain ⟨h1, h2, h3, h4⟩ := sem_trylock (p := p) hg .upLock .upRead id
      (fun _ => trivial) fun _ => trivial
    exact ⟨h1, h2, h3, hsame nofun h4⟩
  all_goals have ho : d.owner = some p := hh.1 trivial
  case downTest =>
    refine ⟨hg, ?_, fun _ _ _ => id, hsame nofun rfl⟩
    dsimp only
    split
    · rename_i hv
      exact ⟨fun _ => ho, hv⟩
    · rename_i hv
      exact ⟨fun _ => ho, Int.not_lt.mp hv⟩
  case downRead => exact ⟨hg, ⟨fun _ => ho, rfl, hh.2⟩, fun _ _ _ => id, hsame nofun rfl⟩
  case downWrite t =>
    obtain ⟨rfl, hpos⟩ := hh.2
    refine ⟨⟨hg.1, fun hb => ?_⟩, ⟨fun _ => ho, trivial⟩, sem_other_inside ho _, fun h => ?_⟩
    · have hb' : v + d.ups < 2 ^ 31 := hb
      obtain ⟨hv, h0⟩ := hg.2 hb'
      change int32 (d.value - 1) = v + d.ups - (d.downs + 1 : Nat) ∧ 0 ≤ int32 (d.value - 1)
      rw [int32_of_lt (by omega) (by omega)]
      omega
    · rcases h with h | h
      · cases h
      · exact absurd hpos (Int.not_lt.mpr h.1)
  case downUnlock =>
    obtain ⟨h1, h2, h3⟩ := sem_unlock hg ho .out id fun _ => trivial
    exact ⟨h1, h2, h3, hsame nofun rfl⟩
  case downVal => exact ⟨hg, ⟨fun _ => ho, hh.2⟩, fun _ _ _ => id, hsame nofun rfl⟩
  case downLeave val =>
    obtain ⟨h1, h2, h3⟩ := sem_unlock hg ho (.downWait val) id fun _ => hh.2
    exact ⟨h1, h2, h3, hsame nofun rfl⟩
  case upRead => exact ⟨hg, ⟨fun _ => ho, rfl⟩, fun _ _ _ => id, hsame nofun rfl⟩
  case upWrite t =>
    obtain rfl : t = d.value := hh.2
    refine ⟨⟨hg.1, fun hb => ?_⟩, ⟨fun _ => ho, trivial⟩, sem_other_inside ho _, fun _ => rfl⟩
    have hb' : v + (d.ups + 1 : Nat) < 2 ^ 31 := hb
    obtain ⟨hv, h0⟩ := hg.2 (by omega)
    change int32 (d.value + 1) = v + (d.ups + 1 : Nat) - d.downs ∧ 0 ≤ int32 (d.value + 1)
    rw [int32_of_lt (by omega) (by omega)]
    omega
  case upUnlock =>
    obtain ⟨h1, h2, h3⟩ := sem_unlock hg ho .out id fun _ => trivial
    exact ⟨h1, h2, h3, hsame nofun rfl⟩

theorem sem_rules : UserRules (semMarks v) semCode Sem.value SemPc.isCall where
  idle k hk := by
    cases k <;> cases hk
    exact nofun
  start k hk := by
    cases k <;> cases hk
    all_goals exact fun _ _ _ => ⟨False.elim, trivial⟩
  act := sem_act
  wait k val k' hk := by
    cases k <;> cases hk
    exact ⟨nofun, fun p d h => ⟨⟨False.elim, trivial⟩, fun d' hd' => Int.le_trans (Int.le_of_eq hd') h.2⟩⟩
  wake k k' hk := by
    cases k <;> cases hk
    exact ⟨fun _ => rfl, nofun, fun p d h => ⟨fun _ => h.1 trivial, trivial⟩⟩

end

def SemPc.inWake : Monitor.Ctl (FutexPc SemPc) Unit → Prop
  | .pt (.user .upWake) | .pt (.wakeScan .upUnlock) | .waking _ _ (.wakeDone .upUnlock) => True
  | _ => False

theorem SemPc.inWake_of_raising (h : raising (semMarks v) t) :
    SemPc.inWake t := by
  rcases t with k | ⟨c, j, k⟩ <;> cases k <;> cases h <;> trivial

/-- The value counts, and nobody sleeps in `sem_down` on a semaphore it could take, but for as long as a `sem_up` is on
its way to wake it. -/
theorem sem_sound (n : Nat) (v : Int) (hv : 0 ≤ v) (faults : Nat → Bool) (tr : List (SemEvent × SemSys)) (s : SemSys)
    (h : Trace (semRun n) (fun _ _ => True) (semBoot faults v) tr s) (hb : v + s.data.mem.ups < 2 ^ 31) :
    s.data.mem.value = v + s.data.mem.ups - s.data.mem.downs ∧ 0 ≤ s.data.mem.value ∧
      ∀ p, (s.proc p).asleep = some () → (s.proc p).ctl.cont.waits → 0 < s.data.mem.value →
        ∃ q, SemPc.inWake (s.proc q).ctl := by
  have hd : (semMarks v).glob (Sem.init v) := by
    refine ⟨.inl ⟨rfl, rfl⟩, fun _ => ⟨?_, hv⟩⟩
    change v = v + (0 : Nat) - (0 : Nat)
    omega
  obtain ⟨hg, -, hs⟩ := futex_sound (sem_rules (v := v)) .out rfl hd (fun _ => ⟨False.elim, trivial⟩) h
  refine ⟨(hg.2 hb).1, (hg.2 hb).2, fun p ha hw hpos => ?_⟩
  rcases hs p ha hw with hblocked | ⟨q, hq⟩
  · exact absurd hpos (Int.not_lt.mpr hblocked)
  · exact ⟨q, SemPc.inWake_of_raising hq⟩

theorem sem_sound_handover : ∃ tr s, Trace (semRun 2) (fun _ _ => True) (semBoot (fun _ => false) 0) tr s ∧
    s.data.mem.ups = 1 ∧ s.data.mem.value = 0 + s.data.mem.ups - s.data.mem.downs ∧ 0 ≤ s.data.mem.value ∧
      ∀ p, (s.proc p).asleep = some () → (s.proc p).ctl.cont.waits → 0 < s.data.mem.value →
        ∃ q, SemPc.inWake (s.proc q).ctl := by
  have hrun : (runs (semRun 2) (fun _ _ => True)
      (.enter 0 (.user .downLock) :: List.replicate 8 (.step 0) ++
        .enter 1 (.user .upLock) :: List.replicate 10 (.step 1) ++ List.replicate 8 (.step 0))
      (semBoot (fun _ => false) 0)).any (fun s => s.data.mem.ups == 1) = true := by
    decide +kernel
  obtain ⟨tr, s, htr, hs⟩ := Trace.of_any hrun
  rw [beq_iff_eq] at hs
  exact ⟨tr, s, htr, hs, sem_sound 2 0 (by decide) (fun _ => false) tr s htr (by rw [hs]; decide)⟩

def mutexMarks : UserMarks Mutex MutexPc where
  glob d := d.word = 0 ∧ d.owner = none ∨ d.word = 1 ∧ d.owner ≠ none
  here p k d := k = .crit → d.owner = some p
  pending k := k = .unlockWake
  wakes k := k = .out
  blocked d := d.word ≠ 0

theorem mutex_act (k : MutexPc) (f : Nat → Mutex → Mutex × MutexPc) (hk : mutexCode k = .act f) (p : Nat) (d : Mutex)
    (hg : mutexMarks.glob d) (hh : mutexMarks.here p k d) :
    mutexMarks.glob (f p d).1 ∧ mutexMarks.here p (f p d).2 (f p d).1 ∧
      (∀ q k', q ≠ p → mutexMarks.here q k' d → mutexMarks.here q k' (f p d).1) ∧
      (mutexMarks.pending k ∨ mutexMarks.blocked d ∧ ¬ mutexMarks.blocked (f p d).1 → mutexMarks.pending (f p d).2) := by
  cases k <;> cases hk
  case lockTas =>
    dsimp only
    split
    · rename_i hw
      have hno : d.owner = none := hg.elim (fun h => h.2) fun h => by rw [hw] at h; cases h.1
      refine ⟨.inr ⟨rfl, nofun⟩, fun _ => rfl, fun q k' _ hq hc => ?_, fun h => ?_⟩
      · have := hq hc
        rw [hno] at this
        cases this
      · exact h.elim nofun fun h => absurd hw h.1
    · rename_i hw
      have hsome : d.owner ≠ none := hg.elim (fun h => absurd h.1 hw) fun h => h.2
      exact ⟨.inr ⟨rfl, hsome⟩, nofun, fun q k' _ hq => hq, fun h => h.elim nofun fun h => absurd Int.one_ne_zero h.2⟩
  case crit =>
    have ho : d.owner = some p := hh rfl
    refine ⟨.inl ⟨rfl, rfl⟩, nofun, fun q k' hne hq hc => ?_, fun _ => rfl⟩
    have := hq hc
    rw [ho] at this
    exact absurd (Option.some.inj this).symm hne

theorem mutex_rules : UserRules mutexMarks mutexCode Mutex.word MutexPc.isCall where
  idle k hk := by
    cases k <;> cases hk
    exact nofun
  start k hk := by
    cases k <;> cases hk
    exact fun _ _ _ => nofun
  act := mutex_act
  wait k val k' hk := by
    cases k <;> cases hk
    refine ⟨nofun, fun p d _ => ⟨nofun, fun d' hd' h0 => ?_⟩⟩
    rw [h0] at hd'
    cases hd'
  wake k k' hk := by
    cases k <;> cases hk
    exact ⟨fun _ => rfl, nofun, fun _ _ _ => nofun⟩

def MutexPc.inWake : Monitor.Ctl (FutexPc MutexPc) Unit → Prop
  | .pt (.user .unlockWake) | .pt (.wakeScan .out) | .waking _ _ (.wakeDone .out) => True
  | _ => False

theorem MutexPc.inWake_of_raising (h : raising mutexMarks t) :
    MutexPc.inWake t := by
  rcases t with k | ⟨c, j, k⟩ <;> cases k <;> cases h <;> trivial

/-- At most one thread is between lock and unlock, and nobody sleeps on a free mutex, but for as long as the thread
that freed it is on its way to wake it. -/
theorem mutex_sound (n : Nat) (faults : Nat → Bool) (tr : List (MutexEvent × MutexSys)) (s : MutexSys)
    (h : Trace (mutexRun n) (fun _ _ => True) (mutexBoot faults) tr s) :
    (∀ p q, (s.proc p).ctl = .pt (.user .crit) → (s.proc q).ctl = .pt (.user .crit) → p = q) ∧
      ∀ p, (s.proc p).asleep = some () → (s.proc p).ctl.cont.waits → s.data.mem.word = 0 →
        ∃ q, MutexPc.inWake (s.proc q).ctl := by
  obtain ⟨-, hh, hs⟩ := futex_sound mutex_rules .out rfl (.inl ⟨rfl, rfl⟩) (fun _ => nofun) h
  refine ⟨fun p q hp hq => ?_, fun p ha hw h0 => ?_⟩
  · have h1 := hh p
    have h2 := hh q
    rw [hp] at h1
    rw [hq] at h2
    exact Option.some.inj ((h1 rfl).symm.trans (h2 rfl))
  · rcases hs p ha hw with hblocked | ⟨q, hq⟩
    · exact absurd h0 hblocked
    · exact ⟨q, MutexPc.inWake_of_raising hq⟩

theorem mutex_sound_contended : ∃ tr s, Trace (mutexRun 2) (fun _ _ => True) (mutexBoot fun _ => false) tr s ∧
    (s.proc 0).asleep = some () ∧
    (∀ p q, (s.proc p).ctl = .pt (.user .crit) → (s.proc q).ctl = .pt (.user .crit) → p = q) ∧
      ∀ p, (s.proc p).asleep = some () → (s.proc p).ctl.cont.waits → s.data.mem.word = 0 →
        ∃ q, MutexPc.inWake (s.proc q).ctl := by
  have hrun : (runs (mutexRun 2) (fun _ _ => True)
      (.enter 1 (.user .lockTas) :: .step 1 :: .enter 0 (.user .lockTas) :: List.replicate 4 (.step 0))
      (mutexBoot fun _ => false)).any (fun s => (s.proc 0).asleep == some ()) = true := by
    decide +kernel
  obtain ⟨tr, s, htr, hs⟩ := Trace.of_any hrun
  exact ⟨tr, s, htr, eq_of_beq hs, mutex_sound 2 (fun _ => false) tr s htr⟩

end Xv6
