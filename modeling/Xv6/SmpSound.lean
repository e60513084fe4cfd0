import Xv6.Smp

/-!
# Who runs a process slot

A slot is RUNNING exactly when one CPU has it as its `c->proc`, and is freed
only when its process has exited, as long as `reparent` frees no thread that
has not.
-/

namespace Xv6

open Hoare Function

def Slot.live (q : Slot) : Prop := q.state = .RUNNABLE ∨ q.state = .RUNNING ∨ q.state = .SLEEPING

def Act.makes : Act → Option Nat
  | .link np _ | .publish np _ => some np
  | _ => none

structure Owned (s : Smp) : Prop where
  run : ∀ c p, s.cpu c = some p → p < NPROC ∧ (s.slot p).state = .RUNNING
  one : ∀ c c' p, s.cpu c = some p → s.cpu c' = some p → c = c'
  busy : ∀ p < NPROC, (s.slot p).state = .RUNNING → ∃ c, s.cpu c = some p
  fresh : ∀ p < NPROC, (s.slot p).state = .USED → (s.slot p).act.makes = none
  child : ∀ p < NPROC, (s.slot p).live → ∀ np, (s.slot p).act.makes = some np →
    np < NPROC ∧ (s.slot np).state = .USED
  apart : ∀ p < NPROC, ∀ p' < NPROC, (s.slot p).live → (s.slot p').live → ∀ np, (s.slot p).act.makes = some np →
    (s.slot p').act.makes = some np → p = p'

section
variable {s s' : Smp} {c p np j : Nat} {q : Slot} {a : Act} {e : SmpEvent}

@[simp] theorem put_self : (s.put p q).slot p = q := update_self ..

theorem put_ne (h : j ≠ p) : (s.put p q).slot j = s.slot j := update_of_ne h ..

theorem goto_self : (s.goto p a).slot p = { s.slot p with act := a } := put_self

theorem goto_ne (h : j ≠ p) : (s.goto p a).slot j = s.slot j := put_ne h

theorem goto_act : ((s.goto p a).slot p).act = a := by rw [goto_self]

theorem goto_state (j : Nat) : ((s.goto p a).slot j).state = (s.slot j).state := by
  by_cases hj : j = p
  · rw [hj, goto_self]
  · rw [goto_ne hj]

/-! ## Changes that keep the slots owned -/

section
variable (h : Owned s)
include h

theorem Owned.same (hcpu : s'.cpu = s.cpu) (hst : ∀ j, (s'.slot j).state = (s.slot j).state)
    (hact : ∀ j, (s'.slot j).act.makes = none ∨ (s'.slot j).act.makes = (s.slot j).act.makes) : Owned s' := by
  have hlive : ∀ j, (s'.slot j).live → (s.slot j).live := fun j hl => by unfold Slot.live at *; rwa [hst] at hl
  have hmakes : ∀ {j np}, (s'.slot j).act.makes = some np → (s.slot j).act.makes = some np := fun {j np} hm => by
    rcases hact j with h0 | he
    · rw [h0] at hm; cases hm
    · rwa [he] at hm
  refine ⟨fun c p hc => ?_, fun c c' p hc hc' => ?_, fun p hp hr => ?_, fun p hp hu => ?_, fun p hp hl np hm => ?_,
    fun p hp p' hp' hl hl' np hm hm' => ?_⟩
  · rw [hcpu] at hc; rw [hst]; exact h.run c p hc
  · rw [hcpu] at hc hc'; exact h.one c c' p hc hc'
  · rw [hst] at hr; rw [hcpu]; exact h.busy p hp hr
  · rw [hst] at hu
    rcases hact p with h0 | he
    · exact h0
    · rw [he]; exact h.fresh p hp hu
  · rw [hst]; exact h.child p hp (hlive p hl) np (hmakes hm)
  · exact h.apart p hp p' hp' (hlive p hl) (hlive p' hl') np (hmakes hm) (hmakes hm')

theorem Owned.goto (ha : a.makes = none) : Owned (s.goto p a) := by
  refine h.same rfl goto_state fun j => ?_
  by_cases hj : j = p
  · rw [hj, goto_act]; exact .inl ha
  · rw [goto_ne hj]; exact .inr rfl

theorem Owned.put (hq : q.state = (s.slot p).state) (ha : q.act = (s.slot p).act) : Owned (s.put p q) := by
  refine h.same rfl (fun j => ?_) fun j => ?_ <;> by_cases hj : j = p
  · rw [hj, put_self, hq]
  · rw [put_ne hj]
  · rw [hj, put_self, ha]; exact .inr rfl
  · rw [put_ne hj]; exact .inr rfl

theorem Owned.move (hp : p < NPROC) (hs : s'.slot = update s.slot p q)
    (hu : (s.slot p).state ≠ .USED) (hqu : q.state ≠ .USED) (ha : q.act = (s.slot p).act) (hl : q.live → (s.slot p).live)
    (hme : ∀ c', s'.cpu c' = some p ↔ q.state = .RUNNING ∧ c' = c)
    (hoth : ∀ i, i ≠ p → ∀ c', s'.cpu c' = some i ↔ s.cpu c' = some i) : Owned s' := by
  have hself : s'.slot p = q := by rw [hs, update_self]
  have hne : ∀ {i}, i ≠ p → s'.slot i = s.slot i := fun hi => by rw [hs, update_of_ne hi]
  have hold : ∀ {i}, (s'.slot i).live → (s.slot i).live ∧ (s'.slot i).act = (s.slot i).act := fun {i} hx => by
    by_cases hi : i = p
    · rw [hi, hself] at hx ⊢; exact ⟨hl hx, ha⟩
    · rw [hne hi] at hx ⊢; exact ⟨hx, rfl⟩
  refine ⟨fun c' i hx => ?_, fun c1 c2 i h1 h2 => ?_, fun i hi hx => ?_, fun i hi hx => ?_, fun i hi hx np hm => ?_,
    fun i hi i' hi' hx hx' np hm hm' => ?_⟩
  · by_cases hip : i = p
    · rw [hip] at hx ⊢
      exact ⟨hp, by rw [hself]; exact ((hme c').mp hx).1⟩
    · rw [hne hip]; exact h.run c' i ((hoth i hip c').mp hx)
  · by_cases hip : i = p
    · rw [hip] at h1 h2
      rw [((hme c1).mp h1).2, ((hme c2).mp h2).2]
    · exact h.one c1 c2 i ((hoth i hip c1).mp h1) ((hoth i hip c2).mp h2)
  · by_cases hip : i = p
    · rw [hip, hself] at hx
      exact ⟨c, by rw [hip]; exact (hme c).mpr ⟨hx, rfl⟩⟩
    · rw [hne hip] at hx
      obtain ⟨c', hc'⟩ := h.busy i hi hx
      exact ⟨c', (hoth i hip c').mpr hc'⟩
  · by_cases hip : i = p
    · rw [hip, hself] at hx; exact absurd hx hqu
    · rw [hne hip] at hx ⊢; exact h.fresh i hi hx
  · rw [(hold hx).2] at hm
    obtain ⟨hn, hst⟩ := h.child i hi (hold hx).1 np hm
    rw [hne fun he => hu (he ▸ hst)]
    exact ⟨hn, hst⟩
  · rw [(hold hx).2] at hm
    rw [(hold hx').2] at hm'
    exact h.apart i hi i' hi' (hold hx).1 (hold hx').1 np hm hm'

theorem Owned.change (hp : p < NPROC) (hr : (s.slot p).state ≠ .RUNNING) (hu : (s.slot p).state ≠ .USED)
    (hq : q.state ≠ .RUNNING) (hqu : q.state ≠ .USED) (ha : q.act = (s.slot p).act) (hl : q.live → (s.slot p).live) :
    Owned (s.put p q) :=
  h.move (c := 0) hp rfl hu hqu ha hl
    (fun c' => iff_of_false (fun hx => hr (h.run c' p hx).2) fun hx => hq hx.1) fun _ _ _ => Iff.rfl

theorem Owned.free (hp : p < NPROC) (hz : (s.slot p).state = .ZOMBIE) : Owned (s.freeproc p) :=
  h.change hp (by simp [hz]) (by simp [hz]) (by simp [Slot.free]) (by simp [Slot.free]) rfl (by simp [Slot.free, Slot.live])

theorem Owned.enter (hc : s.cpu c = none) (hp : p < NPROC) (hr : (s.slot p).state = .RUNNABLE) :
    Owned { s.put p { s.slot p with state := .RUNNING } with cpu := update s.cpu c (some p) } := by
  have hidle : ∀ c', s.cpu c' ≠ some p := fun c' hx => by
    have hst := (h.run c' p hx).2
    rw [hr] at hst
    cases hst
  refine h.move (c := c) hp rfl (by simp [hr]) (by simp) rfl (fun _ => .inl hr) (fun c' => ?_) fun i hi c' => ?_ <;>
    dsimp only <;> by_cases hcc : c' = c
  · rw [hcc, update_self]; simp
  · rw [update_of_ne hcc]; exact iff_of_false (hidle c') fun hx => hcc hx.2
  · rw [hcc, update_self, hc]; simp [Ne.symm hi]
  · rw [update_of_ne hcc]

theorem Owned.leave {st : ProcState} {chan : Option Chan} (hc : s.cpu c = some p) (h1 : st ≠ .RUNNING)
    (h2 : st ≠ .USED) : Owned (s.sched c p st chan) := by
  obtain ⟨hp, hr⟩ := h.run c p hc
  refine h.move (c := c) hp rfl (by simp [hr]) h2 rfl (fun _ => .inr (.inl hr)) (fun c' => ?_) fun i hi c' => ?_ <;>
    simp only [Smp.sched] <;> by_cases hcc : c' = c
  · rw [hcc, update_self]; simp [h1]
  · rw [update_of_ne hcc]
    exact iff_of_false (fun hx => hcc (h.one c' c p hx hc)) fun hx => hcc hx.2
  · rw [hcc, update_self, hc]; simp [Ne.symm hi]
  · rw [update_of_ne hcc]

end

/-! ## Processes are made -/

theorem Owned.used (h : Owned s) (hs : s'.slot = update s.slot np q) (hcpu : s'.cpu = s.cpu)
    (hu : (s.slot np).state = .UNUSED) (hq : q.state = .USED) (ha : q.act.makes = none) :
    Owned s' ∧ ∀ i < NPROC, (s'.slot i).live → (s'.slot i).act.makes ≠ some np := by
  have hself : s'.slot np = q := by rw [hs, update_self]
  have hne : ∀ {i}, i ≠ np → s'.slot i = s.slot i := fun hi => by rw [hs, update_of_ne hi]
  have hlive : ∀ {i}, (s'.slot i).live → i ≠ np := fun hl he => by
    rw [he, hself] at hl
    simp [Slot.live, hq] at hl
  refine ⟨⟨fun c i hx => ?_, fun c c' i h1 h2 => ?_, fun i hi hx => ?_, fun i hi hx => ?_, fun i hi hl j hm => ?_,
    fun i hi i' hi' hl hl' j hm hm' => ?_⟩, fun i hi hl hm => ?_⟩
  · rw [hcpu] at hx
    obtain ⟨hi, hr⟩ := h.run c i hx
    rw [hne fun he => by rw [he, hu] at hr; cases hr]
    exact ⟨hi, hr⟩
  · rw [hcpu] at h1 h2; exact h.one c c' i h1 h2
  · rw [hne fun he => by rw [he, hself, hq] at hx; cases hx] at hx
    rw [hcpu]; exact h.busy i hi hx
  · by_cases he : i = np
    · rw [he, hself]; exact ha
    · rw [hne he] at hx ⊢; exact h.fresh i hi hx
  · have hi' := hne (hlive hl)
    rw [hi'] at hl hm
    obtain ⟨hj, hst⟩ := h.child i hi hl j hm
    rw [hne fun he => by rw [he, hu] at hst; cases hst]
    exact ⟨hj, hst⟩
  · have h1 := hne (hlive hl)
    have h2 := hne (hlive hl')
    rw [h1] at hl hm
    rw [h2] at hl' hm'
    exact h.apart i hi i' hi' hl hl' j hm hm'
  · have hi' := hne (hlive hl)
    rw [hi'] at hl hm
    have hst := (h.child i hi hl np hm).2
    rw [hu] at hst
    cases hst

theorem Owned.begins (h : Owned s) (hpu : (s.slot p).state ≠ .USED) (hn : np < NPROC)
    (hu : (s.slot np).state = .USED) (hno : ∀ i < NPROC, (s.slot i).live → i ≠ p → (s.slot i).act.makes ≠ some np)
    (ha : a.makes = some np) : Owned (s.goto p a) := by
  have hlive : ∀ {i}, ((s.goto p a).slot i).live → (s.slot i).live := fun hl => by
    unfold Slot.live at *
    rwa [goto_state] at hl
  have hmakes : ((s.goto p a).slot p).act.makes = some np := by rw [goto_act]; exact ha
  refine ⟨fun c i hx => by rw [goto_state]; exact h.run c i hx, h.one,
    fun i hi hx => h.busy i hi (by rwa [goto_state] at hx), fun i hi hx => ?_, fun i hi hl j hm => ?_,
    fun i hi i' hi' hl hl' j hm hm' => ?_⟩
  · rw [goto_state] at hx
    have hip : i ≠ p := fun he => hpu (he ▸ hx)
    rw [goto_ne hip]
    exact h.fresh i hi hx
  · rw [goto_state]
    by_cases he : i = p
    · rw [he, hmakes] at hm
      rw [← Option.some.inj hm]
      exact ⟨hn, hu⟩
    · rw [goto_ne he] at hm
      exact h.child i hi (hlive hl) j hm
  · have hone : ∀ {i i'}, i < NPROC → (s.slot i).live → ((s.goto p a).slot i).act.makes = some j → i ≠ p → i' = p →
        ((s.goto p a).slot i').act.makes = some j → False := fun hi hl hm hip hi' hm' => by
      rw [hi', hmakes] at hm'
      rw [goto_ne hip, ← Option.some.inj hm'] at hm
      exact hno _ hi hl hip hm
    by_cases he : i = p <;> by_cases he' : i' = p
    · rw [he, he']
    · exact (hone hi' (hlive hl') hm' he' he hm).elim
    · exact (hone hi (hlive hl) hm he he' hm').elim
    · rw [goto_ne he] at hm
      rw [goto_ne he'] at hm'
      exact h.apart i hi i' hi' (hlive hl) (hlive hl') j hm hm'

theorem Owned.publish (h : Owned s) (hc : s.cpu c = some p) (hm : (s.slot p).act.makes = some np)
    (ha : a.makes = none) : Owned ((s.put np { s.slot np with state := .RUNNABLE }).goto p a) := by
  obtain ⟨hp, hr⟩ := h.run c p hc
  obtain ⟨hn, hu⟩ := h.child p hp (.inr (.inl hr)) np hm
  have hnp : p ≠ np := fun he => by rw [he, hu] at hr; cases hr
  have hnew : ((s.put np { s.slot np with state := .RUNNABLE }).goto p a).slot np =
      { s.slot np with state := .RUNNABLE } := by rw [goto_ne hnp.symm, put_self]
  have hst : ∀ {i}, i ≠ np → (((s.put np { s.slot np with state := .RUNNABLE }).goto p a).slot i).state =
      (s.slot i).state := fun {i} hi => by
    by_cases hip : i = p
    · rw [hip, goto_self, put_ne hnp]
    · rw [goto_ne hip, put_ne hi]
  -- who still makes a process is neither of the two
  have hold : ∀ {i j}, i < NPROC → (((s.put np { s.slot np with state := .RUNNABLE }).goto p a).slot i).live →
      (((s.put np { s.slot np with state := .RUNNABLE }).goto p a).slot i).act.makes = some j →
      (s.slot i).live ∧ (s.slot i).act.makes = some j ∧ i ≠ p := fun {i j} hi hl hj => by
    by_cases hip : i = p
    · rw [hip, goto_act, ha] at hj
      cases hj
    · by_cases hin : i = np
      · rw [hin, hnew] at hj
        rw [h.fresh np hn hu] at hj
        cases hj
      · rw [goto_ne hip, put_ne hin] at hl hj
        exact ⟨hl, hj, hip⟩
  refine ⟨fun c' i hx => ?_, h.one, fun i hi hx => ?_, fun i hi hx => ?_, fun i hi hl j hj => ?_,
    fun i hi i' hi' hl hl' j hj hj' => ?_⟩
  · obtain ⟨hi, hri⟩ := h.run c' i hx
    rw [hst fun he => by rw [he, hu] at hri; cases hri]
    exact ⟨hi, hri⟩
  · by_cases hin : i = np
    · rw [hin, hnew] at hx; cases hx
    · rw [hst hin] at hx; exact h.busy i hi hx
  · by_cases hin : i = np
    · rw [hin, hnew] at hx; cases hx
    · rw [hst hin] at hx
      have hip : i ≠ p := fun he => by rw [he, hr] at hx; cases hx
      rw [goto_ne hip, put_ne hin]
      exact h.fresh i hi hx
  · obtain ⟨hl', hj', hip⟩ := hold hi hl hj
    obtain ⟨hjn, hsj⟩ := h.child i hi hl' j hj'
    rw [hst fun he => hip (h.apart i hi p hp hl' (.inr (.inl hr)) np (he ▸ hj') hm)]
    exact ⟨hjn, hsj⟩
  · obtain ⟨h1, h2, -⟩ := hold hi hl hj
    obtain ⟨h1', h2', -⟩ := hold hi' hl' hj'
    exact h.apart i hi i' hi' h1 h1' j h2 h2'

/-! ## Events -/

def Smp.frees (s : Smp) : SmpEvent → Option Nat
  | .step c _ => (s.cpu c).bind fun p =>
    match (s.slot p).act with
    | .reparent pp => if pp < NPROC ∧ (s.slot pp).parent = some p ∧ (s.slot pp).tgid = (s.slot p).pid then some pp else none
    | _ => none
  | _ => none

/-- When `reparent` frees a thread, the thread has exited. -/
def Settled (e : SmpEvent) (s : Smp) : Prop := ∀ pp ∈ s.frees e, (s.slot pp).state = .ZOMBIE

instance (e : SmpEvent) (s : Smp) : Decidable (Settled e s) := inferInstanceAs (Decidable (∀ pp ∈ s.frees e, _))

def ProcState.moves : ProcState → ProcState → Prop
  | .UNUSED, st => st = .UNUSED ∨ st = .USED
  | .USED, st => st = .USED ∨ st = .RUNNABLE
  | .SLEEPING, st => st = .SLEEPING ∨ st = .RUNNABLE
  | .RUNNABLE, st => st = .RUNNABLE ∨ st = .RUNNING
  | .RUNNING, st => st = .RUNNING ∨ st = .RUNNABLE ∨ st = .SLEEPING ∨ st = .ZOMBIE
  | .ZOMBIE, st => st = .ZOMBIE ∨ st = .UNUSED

def Moves (s s' : Smp) : Prop := ∀ j < NPROC, (s.slot j).state.moves (s'.slot j).state

theorem moves_refl (st : ProcState) : st.moves st := by cases st <;> simp [ProcState.moves]

theorem Moves.same (h : ∀ j, (s'.slot j).state = (s.slot j).state) : Moves s s' := fun j _ => by
  rw [h j]; exact moves_refl _

theorem Moves.put (h : (s.slot p).state.moves q.state) : Moves s (s.put p q) := fun j _ => by
  by_cases hj : j = p
  · rw [hj, put_self]; exact h
  · rw [put_ne hj]; exact moves_refl _

theorem Moves.put_same (h : q.state = (s.slot p).state) : Moves s (s.put p q) := Moves.put (by rw [h]; exact moves_refl _)

theorem Moves.sched {st : ProcState} {chan : Option Chan} (h : ∀ j, (s'.slot j).state = (s.slot j).state)
    (hp : (s.slot p).state.moves st) : Moves s (s'.sched c p st chan) := fun j _ => by
  by_cases hj : j = p
  · rw [hj, show ((s'.sched c p st chan).slot p).state = st by simp [Smp.sched]]; exact hp
  · rw [show (s'.sched c p st chan).slot j = s'.slot j from put_ne hj, h j]; exact moves_refl _

theorem Moves.goto (h : Moves s s') : Moves s (s'.goto p a) := fun j hj => by
  rw [goto_state]; exact h j hj

theorem Owned.adopt (h : Owned s) {pp : Nat} (hpp : pp < NPROC) (hz : (s.slot pp).parent = some p →
    (s.slot pp).tgid = (s.slot p).pid → (s.slot pp).state = .ZOMBIE) : Owned (s.adopt p pp) ∧ Moves s (s.adopt p pp) := by
  unfold Smp.adopt
  split
  · rename_i hpar
    split
    · rename_i htg
      have hst := hz hpar htg
      refine ⟨(h.free hpp hst).put rfl rfl, fun j _ => ?_⟩
      have hput : (((s.freeproc pp).put p { (s.freeproc pp).slot p with
          thread_count := ((s.freeproc pp).slot p).thread_count - 1 }).slot j).state = ((s.freeproc pp).slot j).state := by
        by_cases hj : j = p
        · rw [hj, put_self]
        · rw [put_ne hj]
      rw [hput]
      exact Moves.put (by rw [hst]; exact .inr rfl) j ‹_›
    · exact ⟨h.put rfl rfl, Moves.put (moves_refl _)⟩
  · exact ⟨h, Moves.same fun _ => rfl⟩

theorem Owned.reap (h : Owned s) {pp : Nat} (hpp : pp < NPROC) (hz : (s.slot pp).state = .ZOMBIE) (thread : Bool) :
    Owned (s.reap p pp thread) ∧ Moves s (s.reap p pp thread) := by
  have hfree : Owned { s.freeproc pp with waitLock := false } := (h.free hpp hz).same rfl (fun _ => rfl) fun _ => .inr rfl
  have hmove : Moves s { s.freeproc pp with waitLock := false } := Moves.put (by rw [hz]; exact .inr rfl)
  unfold Smp.reap
  split
  · refine ⟨hfree.put rfl rfl, fun j hj => ?_⟩
    have hm := hmove j hj
    by_cases hjp : j = p
    · rw [hjp] at hm ⊢; rw [put_self]; exact hm
    · rw [put_ne hjp]; exact hm
  · exact ⟨hfree, hmove⟩

theorem Owned.step (h : Owned s) {fail : Bool} (hc : s.cpu c = some p) (hS : Settled (.step c fail) s) :
    Owned ((s.slot p).act.step fail s c p) ∧ Moves s ((s.slot p).act.step fail s c p) := by
  obtain ⟨hp, hr⟩ := h.run c p hc
  have hlive : (s.slot p).live := .inr (.inl hr)
  have hlock : ∀ b, Owned { s with waitLock := b } := fun b => h.same rfl (fun _ => rfl) fun _ => .inr rfl
  have hstay : Moves s s := Moves.same fun _ => rfl
  cases ha : (s.slot p).act with
  | user => exact ⟨h, hstay⟩
  | link np thread =>
    obtain ⟨hn, hu⟩ := h.child p hp hlive np (by rw [ha]; rfl)
    have hnp : np ≠ p := fun he => by rw [he, hr] at hu; cases hu
    rw [Act.step]
    split
    · exact ⟨h, hstay⟩
    · refine ⟨Owned.begins (h.put rfl rfl) (by rw [put_ne hnp.symm, hr]; simp) hn (by rw [put_self]; exact hu)
        (fun i hi hl hip hm => hip ?_) rfl, Moves.goto (Moves.put_same rfl)⟩
      have hin : i ≠ np := fun he => by rw [he, put_self] at hl; simp [Slot.live, hu] at hl
      rw [put_ne hin] at hl hm
      exact h.apart i hi p hp hl hlive np hm (by rw [ha]; rfl)
  | publish np thread =>
    obtain ⟨-, hu⟩ := h.child p hp hlive np (by rw [ha]; rfl)
    exact ⟨h.publish hc (by rw [ha]; rfl) (by split <;> rfl), (Moves.put (by rw [hu]; exact .inr rfl)).goto⟩
  | count np | name np =>
    exact ⟨Owned.goto (h.put (by rfl) (by rfl)) rfl, Moves.goto (Moves.put_same rfl)⟩
  | exiting =>
    rw [Act.step]
    split
    · exact ⟨h, hstay⟩
    · exact ⟨(hlock true).goto rfl, Moves.goto (Moves.same fun _ => rfl)⟩
  | reparent pp =>
    rw [Act.step]
    split
    · rename_i hpp
      have hz : (s.slot pp).parent = some p → (s.slot pp).tgid = (s.slot p).pid → (s.slot pp).state = .ZOMBIE :=
        fun h1 h2 => hS pp (by simp [Smp.frees, hc, ha, hpp, h1, h2])
      obtain ⟨h1, h2⟩ := h.adopt hpp hz
      exact ⟨h1.goto rfl, h2.goto⟩
    · exact ⟨h.goto rfl, hstay.goto⟩
  | zombie =>
    exact ⟨(hlock false).leave hc (by simp) (by simp), Moves.sched (fun _ => rfl) (by rw [hr]; simp [ProcState.moves])⟩
  | waiting thread =>
    rw [Act.step]
    split
    · exact ⟨h, hstay⟩
    · exact ⟨(hlock true).goto rfl, Moves.goto (Moves.same fun _ => rfl)⟩
  | scan thread pp havekids =>
    rw [Act.step]
    split
    · rename_i hpp
      split
      · split
        · rename_i hz
          split
          · exact ⟨(hlock false).goto rfl, Moves.goto (Moves.same fun _ => rfl)⟩
          · obtain ⟨h1, h2⟩ := h.reap (p := p) hpp hz thread
            exact ⟨h1.goto rfl, h2.goto⟩
        · exact ⟨h.goto rfl, hstay.goto⟩
      · exact ⟨h.goto rfl, hstay.goto⟩
    · split
      · exact ⟨(hlock false).goto rfl, Moves.goto (Moves.same fun _ => rfl)⟩
      · have hg : Owned ({ s with waitLock := false }.goto p (.waiting thread)) := (hlock false).goto rfl
        exact ⟨hg.leave hc (by simp) (by simp), Moves.sched goto_state (by rw [hr]; simp [ProcState.moves])⟩
  | resize tgid sz j =>
    rw [Act.step]
    split
    · split
      · exact ⟨Owned.goto (h.put rfl rfl) rfl, Moves.goto (Moves.put_same rfl)⟩
      · exact ⟨h.goto rfl, hstay.goto⟩
    · exact ⟨h.goto rfl, hstay.goto⟩

theorem Owned.call (h : Owned s) (hc : s.cpu c = some p) (sc : Call) : Owned (sc.step s p) ∧ Moves s (sc.step s p) := by
  obtain ⟨hp, hr⟩ := h.run c p hc
  have hstay : Moves s s := Moves.same fun _ => rfl
  have hmake : ∀ {np : Nat} (thread : Bool), np < NPROC → (s.slot np).state = .UNUSED →
      Owned ((s.alloc p np thread).goto p (.link np thread)) ∧ Moves s ((s.alloc p np thread).goto p (.link np thread)) ∧
        Owned ((s.alloc p np thread).freeproc np) ∧ Moves s ((s.alloc p np thread).freeproc np) :=
          fun {np} thread hn hu => by
    have hnp : p ≠ np := fun he => by rw [he, hu] at hr; cases hr
    obtain ⟨hO, hno⟩ := @Owned.used s (s.alloc p np thread) np _ h rfl rfl hu rfl rfl
    have hne : ∀ {j}, j ≠ np → ((s.alloc p np thread).freeproc np).slot j = s.slot j :=
      fun hj => (put_ne hj).trans (put_ne hj)
    have hst : ∀ j, (((s.alloc p np thread).freeproc np).slot j).state = (s.slot j).state := fun j => by
      by_cases hj : j = np
      · rw [hj, hu]; simp [Smp.freeproc, Slot.free]
      · rw [hne hj]
    refine ⟨hO.begins ?_ hn ?_ (fun i hi hl _ => hno i hi hl) rfl, Moves.goto (Moves.put ?_), h.same rfl hst fun j => ?_,
      Moves.same hst⟩
    · rw [show (s.alloc p np thread).slot p = s.slot p from put_ne hnp, hr]; simp
    · rw [Smp.alloc]; simp
    · rw [hu]; exact .inr rfl
    · by_cases hj : j = np
      · rw [hj, show (((s.alloc p np thread).freeproc np).slot np).act = .user by simp [Smp.freeproc, Slot.free, Smp.alloc]]
        exact .inl rfl
      · rw [hne hj]; exact .inr rfl
  cases sc with
  | kfork np ok =>
    rw [Call.step]
    split
    · rename_i hx
      obtain ⟨h1, h2, h3, h4⟩ := hmake false hx.1 hx.2
      split
      · exact ⟨h1, h2⟩
      · exact ⟨h3, h4⟩
    · exact ⟨h, hstay⟩
  | clone np ok =>
    rw [Call.step]
    split
    · rename_i hx
      obtain ⟨h1, h2, h3, h4⟩ := hmake true hx.1 hx.2
      split
      · exact ⟨h1, h2⟩
      · exact ⟨h3, h4⟩
    · exact ⟨h, hstay⟩
  | kexec =>
    refine ⟨Owned.same (s := s.put p { s.slot p with table := some s.nexttable }) (h.put rfl rfl) rfl (fun _ => rfl)
      fun _ => .inr rfl, ?_⟩
    exact Moves.put_same (s := s) (p := p) (q := { s.slot p with table := some s.nexttable }) rfl
  | mmap | munmap => exact ⟨h, hstay⟩
  | sbrk sz lazily =>
    rw [Call.step]
    split
    · exact ⟨Owned.goto (h.put rfl rfl) rfl, Moves.goto (Moves.put_same rfl)⟩
    · exact ⟨h.goto rfl, hstay.goto⟩
  | kexit | kwait | join => exact ⟨Owned.goto h rfl, hstay.goto⟩

theorem Owned.next (h : Owned s) (hS : Settled e s) : Owned (e.next s) ∧ Moves s (e.next s) := by
  have hstay : Moves s s := Moves.same fun _ => rfl
  cases e with
  | schedule c p =>
    rw [SmpEvent.next]
    split
    · rename_i hx
      refine ⟨h.enter hx.1 hx.2.1 hx.2.2, ?_⟩
      exact Moves.put (s := s) (q := { s.slot p with state := .RUNNING }) (by rw [hx.2.2]; exact .inr rfl)
    · exact ⟨h, hstay⟩
  | yield c =>
    rw [SmpEvent.next]
    split
    · exact ⟨h, hstay⟩
    · rename_i p hc
      split
      · exact ⟨h, hstay⟩
      · exact ⟨h.leave hc (by simp) (by simp), Moves.sched (fun _ => rfl) (by rw [(h.run c p hc).2]; simp [ProcState.moves])⟩
  | sleep c chan =>
    rw [SmpEvent.next]
    split
    · exact ⟨h, hstay⟩
    · rename_i p hc
      split
      · exact ⟨h.leave hc (by simp) (by simp), Moves.sched (fun _ => rfl) (by rw [(h.run c p hc).2]; simp [ProcState.moves])⟩
      · exact ⟨h, hstay⟩
  | wakeup c chan p =>
    rw [SmpEvent.next]
    split
    · rename_i hx
      obtain ⟨-, hp, hst, -⟩ := hx
      exact ⟨h.change hp (by simp [hst]) (by simp [hst]) (by simp) (by simp) rfl fun _ => .inr (.inr hst),
        Moves.put (by rw [hst]; exact .inr rfl)⟩
    · exact ⟨h, hstay⟩
  | kkill pid p =>
    rw [SmpEvent.next]
    split
    · rename_i hx
      by_cases hst : (s.slot p).state = .SLEEPING
      · exact ⟨h.change hx.1 (by simp [hst]) (by simp [hst]) (by simp [hst]) (by simp [hst]) rfl fun _ => .inr (.inr hst),
          Moves.put (by simp [hst, ProcState.moves])⟩
      · exact ⟨h.put (by simp [hst]) rfl, Moves.put_same (by simp [hst])⟩
    · exact ⟨h, hstay⟩
  | call c sc =>
    rw [SmpEvent.next]
    split
    · exact ⟨h, hstay⟩
    · rename_i p hc
      split
      · exact h.call hc sc
      · exact ⟨h, hstay⟩
  | step c fail =>
    rw [SmpEvent.next]
    split
    · exact ⟨h, hstay⟩
    · rename_i p hc
      exact h.step hc hS

theorem Owned.start (slot : Nat → Slot) : Owned (Smp.start slot) := by
  have hst : ∀ p, ((Smp.start slot).slot p).state = .RUNNABLE ∧ ((Smp.start slot).slot p).act = .user ∨
      ((Smp.start slot).slot p).state = .UNUSED := fun p => by
    by_cases hp : p = 0 <;> simp [Smp.start, hp]
  have hmakes : ∀ {p np}, ((Smp.start slot).slot p).live → ((Smp.start slot).slot p).act.makes ≠ some np :=
    fun {p np} hl => by
    rcases hst p with ⟨-, ha⟩ | hu
    · rw [ha]; simp [Act.makes]
    · simp [Slot.live, hu] at hl
  refine ⟨fun c p hc => ?_, fun c c' p hc => ?_, fun p _ hr => ?_, fun p _ hu => ?_, fun p _ hl np hm => ?_,
    fun p _ p' _ hl _ np hm => ?_⟩
  · cases hc
  · cases hc
  · rcases hst p with ⟨h1, -⟩ | h1 <;> rw [h1] at hr <;> cases hr
  · rcases hst p with ⟨h1, -⟩ | h1 <;> rw [h1] at hu <;> cases hu
  · exact absurd hm (hmakes hl)
  · exact absurd hm (hmakes hl)

theorem wp_smpEvent {Q : Unit → Smp → Prop} (h : Q () (e.next s)) :
    wp e.run Q (fun _ => True) s := by
  unfold SmpEvent.run
  rw [wp_read]
  split
  · exact wp_ite (fun _ => wp_fail trivial) fun _ => wp_put h
  · exact wp_put h

theorem next_of_run (h : e.run s = .ok ((), s')) : s' = e.next s :=
  wp_ok (Q := fun _ s' => s' = e.next s) (wp_smpEvent rfl) h

/-- As long as `reparent` only frees threads that have exited, a slot is RUNNING exactly when one CPU runs it, a slot that
is freed has exited and is run by no CPU, and no free slot turns into an exited one. -/
theorem slots_owned {slot : Nat → Slot} {tr : List (SmpEvent × Smp)}
    (h : Trace SmpEvent.run Settled (Smp.start slot) tr s) :
    (∀ p < NPROC, ((s.slot p).state = .RUNNING ↔ ∃! c, s.cpu c = some p)) ∧
    (∀ c c' p, s.cpu c = some p → s.cpu c' = some p → c = c') ∧
    ∀ e s', Settled e s → e.run s = .ok ((), s') → ∀ j < NPROC,
      ((s'.slot j).state = .UNUSED → (s.slot j).state ≠ .UNUSED → (s.slot j).state = .ZOMBIE ∧ ∀ c, s.cpu c ≠ some j) ∧
      ((s.slot j).state = .UNUSED → (s'.slot j).state ≠ .ZOMBIE) := by
  have hI : Owned s := Trace.inv Owned (Owned.start slot) (fun e s hs hS => wp_smpEvent (e := e) (hs.next hS).1) h
  refine ⟨fun p hp => ⟨fun hr => ?_, fun ⟨c, hc, _⟩ => (hI.run c p hc).2⟩, hI.one, fun e s' hS hr j hj => ?_⟩
  · obtain ⟨c, hc⟩ := hI.busy p hp hr
    exact ⟨c, hc, fun c' hc' => hI.one c' c p hc' hc⟩
  · have hm := (hI.next hS).2 j hj
    rw [← next_of_run hr] at hm
    refine ⟨fun hu hne => ?_, fun hu hz => ?_⟩
    · have hz : (s.slot j).state = .ZOMBIE := by
        cases hst : (s.slot j).state with
        | ZOMBIE => rfl
        | UNUSED => exact absurd hst hne
        | _ => rw [hst, hu] at hm; simp [ProcState.moves] at hm
      exact ⟨hz, fun c hc => by rw [(hI.run c j hc).2] at hz; cases hz⟩
    · rw [hu, hz] at hm
      simp [ProcState.moves] at hm

end

def forkedChild : List SmpEvent :=
  [.schedule 0 0, .call 0 (.kfork 1 true), .step 0 false, .step 0 false, .schedule 1 1]

def blankSlot : Slot := ⟨.UNUSED, none, false, 0, 0, none, none, 0, 0, .user⟩

theorem slots_owned_child : ∃ (tr : List (SmpEvent × Smp)) (s : Smp),
    Trace SmpEvent.run Settled (Smp.start fun _ => blankSlot) tr s ∧ (s.slot 1).state = .RUNNING ∧
    ∃! c, s.cpu c = some 1 := by
  have hrun : (runs SmpEvent.run Settled forkedChild (Smp.start fun _ => blankSlot)).map (fun s => (s.slot 1).state) =
      some .RUNNING := by
    decide +kernel
  obtain ⟨tr, s, htr, hst⟩ := Trace.of_map hrun
  exact ⟨tr, s, htr, hst, ((slots_owned htr).1 1 (by decide)).mp hst⟩

/-- The child makes a thread, which CPU 2 runs until it waits for `wait_lock` in `kexit`; meanwhile the child exits. -/
def orphanedThread : List SmpEvent :=
  forkedChild ++ [.call 1 (.clone 2 true)] ++ List.replicate 4 (.step 1 false) ++ [.schedule 2 2, .call 2 .kexit,
    .call 1 .kexit] ++
    List.replicate 67 (.step 1 false) ++ List.replicate 66 (.step 2 false)

/-- CPU 2 goes on in a slot that has been freed, and in the end marks the free slot as a process that exited. -/
theorem slot_recycled : ∃ (tr : List (SmpEvent × Smp)) (s s' : Smp),
    Trace SmpEvent.run (fun _ _ => True) (Smp.start fun _ => blankSlot) tr s ∧ s.cpu 2 = some 2 ∧
    (s.slot 2).state = .UNUSED ∧ (SmpEvent.step 2 false).run s = .ok ((), s') ∧ (s'.slot 2).state = .ZOMBIE := by
  have hrun : (runs SmpEvent.run (fun _ _ => True) orphanedThread (Smp.start fun _ => blankSlot)).map (fun s =>
      (s.cpu 2, (s.slot 2).state, ((SmpEvent.step 2 false).next s).slot 2 |>.state)) = some (some 2, .UNUSED, .ZOMBIE) := by
    decide +kernel
  obtain ⟨tr, s, htr, hl⟩ := Trace.of_map hrun
  rw [Prod.mk.injEq, Prod.mk.injEq] at hl
  exact ⟨tr, s, (SmpEvent.step 2 false).next s, htr, hl.1, hl.2.1, rfl, hl.2.2⟩

end Xv6
