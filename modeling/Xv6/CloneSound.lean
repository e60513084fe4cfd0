import Xv6.SmpSound

/-!
# Threads know that they are threads

`clone` makes its thread runnable before it sets the thread's `tgid`. In
between the thread passes for a leader. As long as no thread does anything
before its `clone` has come that far, the groups stay in order.
-/

namespace Xv6

open Hoare Function Option Finset

variable {a : Act} {pp x : Nat}

def Act.clones : Act → Option Nat
  | .link np true | .publish np true | .count np | .name np => some np
  | _ => none

def Act.uncounted : Act → Option Nat
  | .link np true | .publish np true | .count np => some np
  | _ => none

def Act.swept : Act → Nat
  | .reparent pp => pp
  | .zombie => NPROC
  | _ => 0

def Slot.swept (q : Slot) : Nat := if q.state = .ZOMBIE then NPROC else q.act.swept

def Slot.used (q : Slot) : Prop := q.state ≠ .UNUSED

instance Slot.decidableUsed (q : Slot) : Decidable q.used := inferInstanceAs (Decidable (_ ≠ _))

/-- The page table of slot `i` was made for slot `l`, which has it too. -/
structure Under (s : Smp) (i l : Nat) : Prop where
  slot : l < NPROC
  used : (s.slot l).used
  table : (s.slot l).table = (s.slot i).table
  made : ∃ t, (s.slot i).table = some t ∧ t < s.nexttable ∧ s.maker t = l

def Stage (s : Smp) (p np : Nat) : Act → Prop
  | .link .. => (s.slot np).state = .USED ∧ (s.slot np).parent = none
  | .publish .. => (s.slot np).state = .USED ∧ (s.slot np).parent = some p
  | _ => ((s.slot np).state = .RUNNABLE ∨ (s.slot np).state = .RUNNING) ∧ (s.slot np).parent = some p

def Smp.members (s : Smp) (l : Nat) : Finset Nat := (range NPROC).filter fun i =>
  i ≠ l ∧ (s.slot i).used ∧ (s.slot i).table = (s.slot l).table ∧ (s.slot l).act.uncounted ≠ some i

structure Clones (s : Smp) (p np : Nat) : Prop where
  slot : np < NPROC
  ne : np ≠ p
  under : Under s np p
  tgid : (s.slot np).tgid = (s.slot np).pid
  act : (s.slot np).act = .user
  stage : Stage s p np (s.slot p).act

structure Grouped (s : Smp) : Prop where
  pid : ∀ i < NPROC, ∀ j < NPROC, (s.slot i).used → (s.slot j).used → (s.slot i).pid = (s.slot j).pid → i = j
  pidlt : ∀ i < NPROC, (s.slot i).used → (s.slot i).pid < s.nextpid
  orphan : ∀ i < NPROC, ¬ (s.slot i).used → (s.slot i).parent = none
  idle : ∀ i < NPROC, (s.slot i).state = .USED → (s.slot i).act = .user
  lead : ∀ i < NPROC, (s.slot i).used → ∃ l, Under s i l ∧ (i ≠ l →
    ((s.slot i).tgid = (s.slot l).pid ∧ (s.slot i).parent = some l ∧ (s.slot i).state ≠ .USED) ∨
    ((s.slot l).live ∧ (s.slot l).act.clones = some i))
  own : ∀ i < NPROC, (s.slot i).used → Under s i i → (s.slot i).tgid = (s.slot i).pid
  clone : ∀ p < NPROC, (s.slot p).live → ∀ np, (s.slot p).act.clones = some np → Clones s p np
  swept : ∀ l < NPROC, Under s l l → ∀ i < NPROC, i < (s.slot l).swept → i ≠ l → (s.slot i).used →
    (s.slot i).table ≠ (s.slot l).table
  count : ∀ l < NPROC, Under s l l → (s.members l).card < (s.slot l).thread_count

section
variable {s s' : Smp} {c p np i j l : Nat} {q : Slot}

theorem Slot.live.used (h : q.live) : q.used := by
  rcases h with h | h | h <;> simp [Slot.used, h]

theorem Under.unique {l' : Nat} (h : Under s i l) (h' : Under s i l') : l = l' := by
  obtain ⟨t, h1, -, rfl⟩ := h.made
  obtain ⟨t', h1', -, rfl⟩ := h'.made
  rw [some.inj (h1.symm.trans h1')]

theorem Under.self (h : Under s i l) : Under s l l := by
  obtain ⟨t, h1, h2, h3⟩ := h.made
  exact ⟨h.slot, h.used, rfl, t, h.table.trans h1, h2, h3⟩

theorem Under.of_table (h : Under s l l) (ht : (s.slot i).table = (s.slot l).table) : Under s i l := by
  obtain ⟨t, h1, h2, h3⟩ := h.made
  exact ⟨h.slot, h.used, ht.symm, t, ht.trans h1, h2, h3⟩

structure Shape (s s' : Smp) : Prop where
  used : ∀ j, (s'.slot j).used ↔ (s.slot j).used
  table : ∀ j, (s'.slot j).table = (s.slot j).table
  pid : ∀ j, (s'.slot j).pid = (s.slot j).pid
  nextpid : s'.nextpid = s.nextpid
  nexttable : s'.nexttable = s.nexttable
  maker : s'.maker = s.maker

theorem Shape.under (h : Shape s s') : Under s' i l ↔ Under s i l :=
  ⟨fun ⟨h1, h2, h3, t, h4, h5, h6⟩ => ⟨h1, (h.used l).mp h2, by rw [← h.table, ← h.table]; exact h3, t,
      by rw [← h.table]; exact h4, by rw [← h.nexttable]; exact h5, by rw [← h.maker]; exact h6⟩,
    fun ⟨h1, h2, h3, t, h4, h5, h6⟩ => ⟨h1, (h.used l).mpr h2, by rw [h.table, h.table]; exact h3, t,
      by rw [h.table]; exact h4, by rw [h.nexttable]; exact h5, by rw [h.maker]; exact h6⟩⟩

theorem Shape.grouped (h : Grouped s) (hs : Shape s s')
    (orphan : ∀ i < NPROC, ¬ (s'.slot i).used → (s'.slot i).parent = none)
    (idle : ∀ i < NPROC, (s'.slot i).state = .USED → (s'.slot i).act = .user)
    (lead : ∀ i < NPROC, (s.slot i).used → ∀ l, Under s i l → i ≠ l →
      ((s.slot i).tgid = (s.slot l).pid ∧ (s.slot i).parent = some l ∧ (s.slot i).state ≠ .USED) ∨
        ((s.slot l).live ∧ (s.slot l).act.clones = some i) →
      ((s'.slot i).tgid = (s.slot l).pid ∧ (s'.slot i).parent = some l ∧ (s'.slot i).state ≠ .USED) ∨
        ((s'.slot l).live ∧ (s'.slot l).act.clones = some i))
    (own : ∀ i < NPROC, (s.slot i).used → Under s i i → (s'.slot i).tgid = (s.slot i).tgid)
    (clone : ∀ p < NPROC, (s'.slot p).live → ∀ np, (s'.slot p).act.clones = some np → Clones s' p np)
    (swept : ∀ l < NPROC, Under s l l → ∀ i < NPROC, i < (s'.slot l).swept → i ≠ l → (s.slot i).used →
      (s.slot i).table ≠ (s.slot l).table)
    (count : ∀ l < NPROC, Under s l l → (s'.members l).card < (s'.slot l).thread_count) : Grouped s' where
  pid i hi j hj h1 h2 he := h.pid i hi j hj ((hs.used i).mp h1) ((hs.used j).mp h2) (by rw [← hs.pid, ← hs.pid]; exact he)
  pidlt i hi hu := by rw [hs.pid, hs.nextpid]; exact h.pidlt i hi ((hs.used i).mp hu)
  orphan := orphan
  idle := idle
  lead i hi hu := by
    obtain ⟨l, hl, hx⟩ := h.lead i hi ((hs.used i).mp hu)
    refine ⟨l, hs.under.mpr hl, fun hne => ?_⟩
    rw [hs.pid]
    exact lead i hi ((hs.used i).mp hu) l hl hne (hx hne)
  own i hi hu hU := by
    rw [own i hi ((hs.used i).mp hu) (hs.under.mp hU), hs.pid]
    exact h.own i hi ((hs.used i).mp hu) (hs.under.mp hU)
  clone := clone
  swept l hl hU i hi hlt hne hu := by
    rw [hs.table, hs.table]
    exact swept l hl (hs.under.mp hU) i hi hlt hne ((hs.used i).mp hu)
  count l hl hU := count l hl (hs.under.mp hU)

theorem Act.uncounted_of_clones : ∀ {a : Act}, a.clones = none → a.uncounted = none
  | .user, _ | .link _ false, _ | .publish _ false, _ | .exiting, _ | .reparent _, _ | .zombie, _ | .waiting _, _
  | .scan .., _ | .name _, _ | .resize .., _ => rfl

theorem Stage.mono (h : Stage s p np a) (hu : (s.slot np).state = .USED → (s'.slot np).state = .USED)
    (hr : (s.slot np).state = .RUNNABLE ∨ (s.slot np).state = .RUNNING →
      (s'.slot np).state = .RUNNABLE ∨ (s'.slot np).state = .RUNNING)
    (hp : (s'.slot np).parent = (s.slot np).parent) : Stage s' p np a := by
  cases a with
  | link | publish => exact ⟨hu h.1, hp.trans h.2⟩
  | _ => exact ⟨hr h.1, hp.trans h.2⟩

theorem members_congr (hs : Shape s s') (ha : (s'.slot l).act.uncounted = (s.slot l).act.uncounted) :
    s'.members l = s.members l := by
  refine filter_congr fun i _ => ?_
  rw [hs.table, hs.table, ha]
  exact and_congr_right fun _ => and_congr_left fun _ => hs.used i

def Clear (s : Smp) (l n : Nat) : Prop :=
  Under s l l → ∀ i < NPROC, i < n → i ≠ l → (s.slot i).used → (s.slot i).table ≠ (s.slot l).table

structure Calm (s s' : Smp) : Prop extends Shape s s' where
  tgid : ∀ j, (s'.slot j).tgid = (s.slot j).tgid
  parent : ∀ j, (s'.slot j).parent = (s.slot j).parent ∨ Under s j j
  count : ∀ j, (s'.slot j).thread_count = (s.slot j).thread_count ∨ (s.members j).card < (s'.slot j).thread_count
  state : ∀ j, (s'.slot j).state = (s.slot j).state ∨ ((s.slot j).live ∧ (s'.slot j).live) ∨
    ((s.slot j).state = .USED ∧ Under s j j ∧ (s'.slot j).state = .RUNNABLE)
  act : ∀ j, (s'.slot j).act = (s.slot j).act ∨ ((s.slot j).state ≠ .USED ∧
    (s.slot j).act.clones = none ∧ (s'.slot j).act.clones = none ∧ Clear s j (s'.slot j).act.swept)
  new : ∀ p < NPROC, (s.slot p).live → ∀ np, (s.slot p).act.clones = some np → (s'.slot np).act = (s.slot np).act ∧
    ((s.slot np).state = .RUNNABLE ∨ (s.slot np).state = .RUNNING →
      (s'.slot np).state = .RUNNABLE ∨ (s'.slot np).state = .RUNNING)

theorem Slot.not_live_of_used (h : q.state = .USED) : ¬ q.live := fun hl => by
  rcases hl with hx | hx | hx <;> rw [h] at hx <;> cases hx

theorem Slot.not_live_of_zombie (h : q.state = .ZOMBIE) : ¬ q.live := fun hl => by
  rcases hl with hx | hx | hx <;> rw [h] at hx <;> cases hx

theorem Calm.live (h : Calm s s') (j : Nat) (hl : (s.slot j).live) : (s'.slot j).live := by
  rcases h.state j with he | ⟨-, h2⟩ | ⟨h1, -⟩
  · unfold Slot.live at *; rwa [he]
  · exact h2
  · exact absurd hl (Slot.not_live_of_used h1)

theorem Calm.used_of (h : Calm s s') (j : Nat) (hu : (s'.slot j).state = .USED) : (s.slot j).state = .USED := by
  rcases h.state j with he | ⟨-, h2⟩ | ⟨h1, -⟩
  · rwa [he] at hu
  · exact absurd h2 (Slot.not_live_of_used hu)
  · exact h1

theorem Calm.used_to (h : Calm s s') (j : Nat) (hu : (s.slot j).state = .USED) (hne : ¬ Under s j j) :
    (s'.slot j).state = .USED := by
  rcases h.state j with he | ⟨h1, -⟩ | ⟨-, h2, -⟩
  · rw [he]; exact hu
  · exact absurd h1 (Slot.not_live_of_used hu)
  · exact absurd h2 hne

theorem Calm.zombie (h : Calm s s') (j : Nat) : (s'.slot j).state = .ZOMBIE ↔ (s.slot j).state = .ZOMBIE := by
  rcases h.state j with he | ⟨h1, h2⟩ | ⟨h1, -, h2⟩
  · rw [he]
  · exact iff_of_false (fun hx => Slot.not_live_of_zombie hx h2) fun hx => Slot.not_live_of_zombie hx h1
  · rw [h1, h2]; simp

theorem Calm.clones (h : Calm s s') (j : Nat) : (s'.slot j).act.clones = (s.slot j).act.clones := by
  rcases h.act j with he | ⟨-, h1, h2, -⟩
  · rw [he]
  · rw [h1, h2]

theorem Calm.grouped (hc : Calm s s') (h : Grouped s) : Grouped s' := by
  refine hc.toShape.grouped h (fun i hi hu => ?_) (fun i hi hu => ?_) (fun i hi hu l hU hne hx => ?_)
    (fun i _ _ _ => hc.tgid i)
    (fun p hp hl np hcl => ?_) (fun l hl hU i hi hlt => ?_) fun l hl hU => ?_
  · have hnu : ¬ (s.slot i).used := fun hx => hu ((hc.used i).mpr hx)
    rcases hc.parent i with hp | hU
    · rw [hp]; exact h.orphan i hi hnu
    · exact absurd hU.used hnu
  · have hu' := hc.used_of i hu
    rcases hc.act i with ha | ⟨h0, -⟩
    · rw [ha]; exact h.idle i hi hu'
    · exact absurd hu' h0
  · have hpar : (s'.slot i).parent = (s.slot i).parent :=
      (hc.parent i).resolve_right fun hx => hne (hx.unique hU)
    rw [hc.tgid, hpar, hc.clones]
    exact hx.imp (fun ⟨h1, h2, h3⟩ => ⟨h1, h2, fun h4 => h3 (hc.used_of i h4)⟩) fun ⟨h1, h2⟩ => ⟨hc.live l h1, h2⟩
  · have hcl' := (hc.clones p).symm.trans hcl
    have hact : (s'.slot p).act = (s.slot p).act := by
      rcases hc.act p with he | ⟨-, -, h0, -⟩
      · exact he
      · rw [h0] at hcl; cases hcl
    have hlp : (s.slot p).live := by
      rcases hc.state p with he | ⟨h1, -⟩ | ⟨h1, -⟩
      · unfold Slot.live at *; rwa [he] at hl
      · exact h1
      · rw [h.idle p hp h1] at hcl'; cases hcl'
    have hC := h.clone p hp hlp np hcl'
    obtain ⟨h1, h2⟩ := hc.new p hp hlp np hcl'
    have hno : ¬ Under s np np := fun hx => hC.ne (hx.unique hC.under)
    refine ⟨hC.slot, hC.ne, hc.under.mpr hC.under, by rw [hc.tgid, hc.pid]; exact hC.tgid, h1.trans hC.act, ?_⟩
    rw [hact]
    exact hC.stage.mono (fun hu => hc.used_to np hu hno) h2 ((hc.parent np).resolve_right hno)
  · unfold Slot.swept at hlt
    by_cases hzo : (s.slot l).state = .ZOMBIE
    · exact h.swept l hl hU i hi (by unfold Slot.swept; rw [if_pos hzo]; exact hi)
    · rw [if_neg fun hx => hzo ((hc.zombie l).mp hx)] at hlt
      rcases hc.act l with he | ⟨-, -, -, hcr⟩
      · exact h.swept l hl hU i hi (by unfold Slot.swept; rw [if_neg hzo, ← he]; exact hlt)
      · exact hcr hU i hi hlt
  · rw [members_congr hc.toShape]
    · rcases hc.count l with he | hx
      · rw [he]; exact h.count l hl hU
      · exact hx
    · rcases hc.act l with he | ⟨-, h1, h2, -⟩
      · rw [he]
      · rw [Act.uncounted_of_clones h1, Act.uncounted_of_clones h2]

def Named (s : Smp) (p : Nat) : Prop := ∀ l < NPROC, (s.slot l).live → (s.slot l).act.clones ≠ some p

theorem Calm.slot (hs : s'.slot = update s.slot p q) (h1 : s'.nextpid = s.nextpid)
    (h2 : s'.nexttable = s.nexttable) (h3 : s'.maker = s.maker) (hpid : q.pid = (s.slot p).pid)
    (htgid : q.tgid = (s.slot p).tgid) (hpar : q.parent = (s.slot p).parent ∨ Under s p p)
    (htab : q.table = (s.slot p).table)
    (hcnt : q.thread_count = (s.slot p).thread_count ∨ (s.members p).card < q.thread_count)
    (hst : q.state = (s.slot p).state ∨ ((s.slot p).live ∧ q.live) ∨
      ((s.slot p).state = .USED ∧ Under s p p ∧ q.state = .RUNNABLE))
    (hact : q.act = (s.slot p).act ∨ ((s.slot p).state ≠ .USED ∧
      (s.slot p).act.clones = none ∧ q.act.clones = none ∧ Clear s p q.act.swept))
    (hnew : Named s p ∨ (q.act = (s.slot p).act ∧ ((s.slot p).state = .RUNNABLE ∨ (s.slot p).state = .RUNNING →
      q.state = .RUNNABLE ∨ q.state = .RUNNING))) : Calm s s' := by
  have hself : s'.slot p = q := by rw [hs, update_self]
  have hne : ∀ {j}, j ≠ p → s'.slot j = s.slot j := fun hj => by rw [hs, update_of_ne hj]
  have hall : ∀ {P : Nat → Slot → Slot → Prop}, P p (s.slot p) q → (∀ j x, P j x x) → ∀ j, P j (s.slot j) (s'.slot j) :=
    fun {P} hP hx j => by
      by_cases hj : j = p
      · rw [hj, hself]; exact hP
      · rw [hne hj]; exact hx _ _
  refine ⟨⟨hall (P := fun _ x y => y.used ↔ x.used) ?_ fun _ _ => Iff.rfl,
    hall (P := fun _ x y => y.table = x.table) htab fun _ _ => rfl,
    hall (P := fun _ x y => y.pid = x.pid) hpid fun _ _ => rfl, h1, h2, h3⟩,
    hall (P := fun _ x y => y.tgid = x.tgid) htgid fun _ _ => rfl,
    hall (P := fun j x y => y.parent = x.parent ∨ Under s j j) hpar fun _ _ => .inl rfl,
    hall (P := fun j x y => y.thread_count = x.thread_count ∨ (s.members j).card < y.thread_count) hcnt
      fun _ _ => .inl rfl,
    hall (P := fun j x y => y.state = x.state ∨ (x.live ∧ y.live) ∨
      (x.state = .USED ∧ Under s j j ∧ y.state = .RUNNABLE)) hst
      fun _ _ => .inl rfl,
    hall (P := fun j x y => y.act = x.act ∨ (x.state ≠ .USED ∧ x.act.clones = none ∧ y.act.clones = none ∧
      Clear s j y.act.swept)) hact fun _ _ => .inl rfl, fun l hl hlive np hcl => ?_⟩
  · rcases hst with he | ⟨ha, hb⟩ | ⟨ha, -, hb⟩
    · unfold Slot.used; rw [he]
    · exact iff_of_true hb.used ha.used
    · unfold Slot.used; rw [ha, hb]; simp
  · by_cases hnp : np = p
    · rw [hnp, hself]
      rcases hnew with hn | hn
      · exact absurd (hnp ▸ hcl) (hn l hl hlive)
      · exact hn
    · rw [hne hnp]; exact ⟨rfl, id⟩

theorem Calm.goto (hr : (s.slot p).state = .RUNNING) (hn : Named s p) (h1 : (s.slot p).act.clones = none)
    (h2 : a.clones = none) (h3 : Clear s p a.swept) {b : Bool} : Calm s { s.goto p a with waitLock := b } :=
  Calm.slot (q := { s.slot p with act := a }) rfl rfl rfl rfl rfl rfl (.inl rfl) rfl (.inl rfl) (.inl rfl)
    (.inr ⟨by simp [hr], h1, h2, h3⟩) (.inl hn)

theorem Clear.zero : Clear s l 0 := fun _ _ _ hi => absurd hi (by omega)

theorem Calm.named (hc : Calm s s') (h : Grouped s) (hn : Named s p) : Named s' p := fun l hl hlive hx => by
  rw [hc.clones] at hx
  rcases hc.state l with he | ⟨h1, -⟩ | ⟨h1, -⟩
  · exact hn l hl (by unfold Slot.live at *; rwa [he] at hlive) hx
  · exact hn l hl h1 hx
  · rw [h.idle l hl h1] at hx; cases hx

/-! ## `clone` -/

theorem Grouped.cases (h : Grouped s) (hi : i < NPROC) (hu : (s.slot i).used) : Under s i i ∨ ∃ l, l ≠ i ∧ Under s i l ∧
    (((s.slot i).tgid = (s.slot l).pid ∧ (s.slot i).parent = some l ∧ (s.slot i).state ≠ .USED) ∨
      ((s.slot l).live ∧ (s.slot l).act.clones = some i)) := by
  obtain ⟨l, hl, hx⟩ := h.lead i hi hu
  by_cases he : i = l
  · rw [← he] at hl; exact .inl hl
  · exact .inr ⟨l, Ne.symm he, hl, hx he⟩

theorem Grouped.leader (h : Grouped s) (hp : p < NPROC) (hu : (s.slot p).used) (hn : Named s p)
    (ht : (s.slot p).tgid = (s.slot p).pid) : Under s p p := by
  rcases h.cases hp hu with hU | ⟨l, hne, hU, ⟨h1, -⟩ | ⟨h1, h2⟩⟩
  · exact hU
  · exact absurd (h.pid l hU.slot p hp hU.used hu (h1.symm.trans ht)) hne
  · exact absurd h2 (hn l hU.slot h1)

theorem Stage.state (h : Stage s p np a) :
    (s.slot np).state = .USED ∨ (s.slot np).state = .RUNNABLE ∨ (s.slot np).state = .RUNNING := by
  cases a with
  | link => exact .inl h.1
  | publish => exact .inl h.1
  | _ => exact .inr h.1

theorem Stage.parent (h : Stage s p np a) :
    ((s.slot np).state = .USED ∧ (s.slot np).parent = none) ∨ (s.slot np).parent = some p := by
  cases a with
  | link => exact .inl h
  | _ => exact .inr h.2

theorem Clones.used (h : Clones s p np) : (s.slot np).used := by
  rcases h.stage.state with hx | hx | hx <;> simp [Slot.used, hx]

theorem Clones.not_lead (h : Clones s p np) : ¬ Under s np np := fun hx => h.ne (hx.unique h.under)

theorem Clones.congr (h : Clones s p np) (hU : Under s' np p) (h1 : s'.slot p = s.slot p) (h2 : s'.slot np = s.slot np) :
    Clones s' p np :=
  ⟨h.slot, h.ne, hU, by rw [h2]; exact h.tgid, by rw [h2]; exact h.act,
    by rw [h1]; exact h.stage.mono (fun hx => by rw [h2]; exact hx) (fun hx => by rw [h2]; exact hx) (by rw [h2])⟩

theorem Grouped.pair (h : Grouped s) (hp : p < NPROC) (hl : (s.slot p).live) (hcl : (s.slot p).act.clones = some np)
    (hs : Shape s s') (hne : ∀ j, j ≠ p → j ≠ np → s'.slot j = s.slot j)
    (hp' : (s'.slot p).tgid = (s.slot p).tgid ∧ (s'.slot p).state = (s.slot p).state ∧ (s'.slot p).act.swept = 0)
    (hn' : (s'.slot np).act = .user ∧ (s'.slot np).state ≠ .ZOMBIE)
    (hlead : ((s'.slot np).tgid = (s.slot p).pid ∧ (s'.slot np).parent = some p ∧ (s'.slot np).state ≠ .USED) ∨
      (s'.slot p).act.clones = some np)
    (hclone : ∀ x, (s'.slot p).act.clones = some x → Clones s' p x)
    (hcount : (s'.members p).card < (s'.slot p).thread_count) : Grouped s' := by
  have hC := h.clone p hp hl np hcl
  have hUp : Under s p p := hC.under.self
  have hlp : (s'.slot p).live := by unfold Slot.live at *; rwa [hp'.2.1]
  refine hs.grouped h (fun i hi hu => ?_) (fun i hi hu => ?_) (fun i hi hu l hU hil hx => ?_) (fun i hi hu hU => ?_)
    (fun i hi hli x hx => ?_) (fun l hl' hU i hi hlt => ?_) fun l hl' hU => ?_
  · have hnu : ¬ (s.slot i).used := fun hx => hu ((hs.used i).mpr hx)
    rw [hne i (fun he => hnu (he ▸ hUp.used)) fun he => hnu (he ▸ hC.used)]
    exact h.orphan i hi hnu
  · by_cases hin : i = np
    · rw [hin]; exact hn'.1
    · have hip : i ≠ p := fun he => Slot.not_live_of_used hu (he ▸ hlp)
      rw [hne i hip hin] at hu ⊢
      exact h.idle i hi hu
  · have hip : i ≠ p := fun he => hil (by rw [he] at hU ⊢; exact hUp.unique hU)
    by_cases hin : i = np
    · rw [hin] at hU ⊢
      rw [hU.unique hC.under]
      exact hlead.imp id fun hx => ⟨hlp, hx⟩
    · rw [hne i hip hin]
      refine hx.imp id fun ⟨h1, h2⟩ => ?_
      have hlp' : l ≠ p := fun he => hin (some.inj (((he ▸ h2 : (s.slot p).act.clones = some i)).symm.trans hcl))
      have hln : l ≠ np := fun he => by rw [he, hC.act] at h2; cases h2
      rw [hne l hlp' hln]
      exact ⟨h1, h2⟩
  · by_cases hip : i = p
    · rw [hip]; exact hp'.1
    · rw [hne i hip fun he => hC.not_lead (he ▸ hU)]
  · by_cases hip : i = p
    · rw [hip] at hx ⊢; exact hclone x hx
    · have hin : i ≠ np := fun he => by rw [he, hn'.1] at hx; cases hx
      rw [hne i hip hin] at hli hx
      have hX := h.clone i hi hli x hx
      have hxp : x ≠ p := fun he => hX.not_lead (he ▸ hUp)
      have hxn : x ≠ np := fun he => hip ((he ▸ hX.under : Under s np i).unique hC.under)
      exact hX.congr (hs.under.mpr hX.under) (hne i hip hin) (hne x hxp hxn)
  · by_cases hlp' : l = p
    · rw [hlp', Slot.swept, if_neg (fun hz => Slot.not_live_of_zombie hz hlp), hp'.2.2] at hlt
      omega
    · rw [hne l hlp' fun he => hC.not_lead (he ▸ hU)] at hlt
      exact h.swept l hl' hU i hi hlt
  · by_cases hlp' : l = p
    · rw [hlp']; exact hcount
    · have hl0 := hne l hlp' fun he => hC.not_lead (he ▸ hU)
      rw [members_congr hs (by rw [hl0]), hl0]
      exact h.count l hl' hU

theorem two_slots (hne : np ≠ p) {q : Slot} : ((s.put np q).goto p a).slot p = { s.slot p with act := a } ∧
    ((s.put np q).goto p a).slot np = q ∧ ∀ j, j ≠ p → j ≠ np → ((s.put np q).goto p a).slot j = s.slot j :=
  ⟨by rw [goto_self, put_ne hne.symm], by rw [goto_ne hne, put_self], fun j h1 h2 => by rw [goto_ne h1, put_ne h2]⟩

theorem Shape.of_slots (h : ∀ j, ((s'.slot j).used ↔ (s.slot j).used) ∧ (s'.slot j).table = (s.slot j).table ∧
    (s'.slot j).pid = (s.slot j).pid) (h1 : s'.nextpid = s.nextpid) (h2 : s'.nexttable = s.nexttable)
    (h3 : s'.maker = s.maker) : Shape s s' :=
  ⟨fun j => (h j).1, fun j => (h j).2.1, fun j => (h j).2.2, h1, h2, h3⟩

theorem Shape.two (hne : np ≠ p) (h1 : q.used ↔ (s.slot np).used) (h2 : q.table = (s.slot np).table)
    (h3 : q.pid = (s.slot np).pid) : Shape s ((s.put np q).goto p a) := by
  obtain ⟨hp, hn, ho⟩ := two_slots (s := s) (a := a) (q := q) hne
  refine Shape.of_slots (fun j => ?_) rfl rfl rfl
  by_cases hj : j = p
  · rw [hj, hp]; exact ⟨Iff.rfl, rfl, rfl⟩
  · by_cases hjn : j = np
    · rw [hjn, hn]; exact ⟨h1, h2, h3⟩
    · rw [ho j hj hjn]; exact ⟨Iff.rfl, rfl, rfl⟩

section
variable (h : Grouped s) (hp : p < NPROC) (hr : (s.slot p).state = .RUNNING)
include h hp hr

theorem Grouped.advance (hcl : (s.slot p).act.clones = some np) (hu : q.used) (htab : q.table = (s.slot np).table)
    (hpid : q.pid = (s.slot np).pid) (hact : q.act = (s.slot np).act) (hz : q.state ≠ .ZOMBIE)
    (hunc : a.uncounted = (s.slot p).act.uncounted) (hsw : a.swept = 0)
    (hnext : (a.clones = some np ∧ q.tgid = (s.slot np).tgid ∧ ∀ s' : Smp, s'.slot np = q → Stage s' p np a) ∨
      (a.clones = none ∧ q.tgid = (s.slot p).pid ∧ q.parent = some p ∧ q.state ≠ .USED)) :
    Grouped ((s.put np q).goto p a) := by
  have hl : (s.slot p).live := .inr (.inl hr)
  have hC := h.clone p hp hl np hcl
  obtain ⟨h1, h2, h3⟩ := two_slots (s := s) (a := a) (q := q) hC.ne
  have hs : Shape s ((s.put np q).goto p a) := Shape.two hC.ne (iff_of_true hu hC.used) htab hpid
  refine h.pair hp hl hcl hs h3 (by rw [h1]; exact ⟨rfl, rfl, hsw⟩) (by rw [h2]; exact ⟨hact.trans hC.act, hz⟩) ?_
    (fun x hx => ?_) ?_
  · rw [h1, h2]
    exact hnext.elim (fun hx => .inr hx.1) fun hx => .inl hx.2
  · rw [h1] at hx
    rcases hnext with ⟨h4, h5, h6⟩ | ⟨h4, -⟩
    · obtain rfl : np = x := some.inj (h4.symm.trans hx)
      refine ⟨hC.slot, hC.ne, hs.under.mpr hC.under,
        by rw [h2, h5, hpid]; exact hC.tgid, by rw [h2]; exact hact.trans hC.act, ?_⟩
      rw [h1]
      exact h6 _ h2
    · rw [h4] at hx; cases hx
  · rw [members_congr hs (by rw [h1]; exact hunc), h1]
    exact h.count p hp hC.under.self

theorem Grouped.stage_of (ha : (s.slot p).act = a) (hcl : a.clones = some np) : Clones s p np ∧ Stage s p np a := by
  have hC := h.clone p hp (.inr (.inl hr)) np (by rw [ha]; exact hcl)
  exact ⟨hC, ha ▸ hC.stage⟩

theorem Grouped.link (ha : (s.slot p).act = .link np true) :
    Grouped ((s.put np { s.slot np with parent := some p }).goto p (.publish np true)) := by
  obtain ⟨hC, hS⟩ := h.stage_of hp hr ha rfl
  refine h.advance hp hr (by rw [ha]; rfl) hC.used rfl rfl rfl (by simp [hS.1]) (by rw [ha]; rfl) rfl
    (.inl ⟨rfl, rfl, fun s' he => ?_⟩)
  exact ⟨by rw [he]; exact hS.1, by rw [he]⟩

theorem Grouped.publish (ha : (s.slot p).act = .publish np true) :
    Grouped ((s.put np { s.slot np with state := .RUNNABLE }).goto p (.count np)) := by
  obtain ⟨hC, hS⟩ := h.stage_of hp hr ha rfl
  refine h.advance hp hr (by rw [ha]; rfl) (by simp [Slot.used]) rfl rfl rfl (by simp) (by rw [ha]; rfl) rfl
    (.inl ⟨rfl, rfl, fun s' he => ?_⟩)
  exact ⟨by rw [he]; exact .inl rfl, by rw [he]; exact hS.2⟩

theorem Grouped.tally (ha : (s.slot p).act = .count np) :
    Grouped ((s.put p { s.slot p with thread_count := (s.slot p).thread_count + 1 }).goto p (.name np)) := by
  obtain ⟨hC, hS⟩ := h.stage_of hp hr ha rfl
  generalize hs' : (s.put p { s.slot p with thread_count := (s.slot p).thread_count + 1 }).goto p (.name np) = s'
  have h1 : s'.slot p = { s.slot p with thread_count := (s.slot p).thread_count + 1, act := .name np } := by
    rw [← hs', goto_self, put_self]
  have h3 : ∀ j, j ≠ p → s'.slot j = s.slot j := fun j hj => by rw [← hs', goto_ne hj, put_ne hj]
  have hs : Shape s s' := by
    refine Shape.of_slots (fun j => ?_) (by rw [← hs']; rfl) (by rw [← hs']; rfl) (by rw [← hs']; rfl)
    by_cases hj : j = p
    · rw [hj, h1]; exact ⟨Iff.rfl, rfl, rfl⟩
    · rw [h3 j hj]; exact ⟨Iff.rfl, rfl, rfl⟩
  have h2 := h3 np hC.ne
  refine h.pair hp (.inr (.inl hr)) (by rw [ha]; rfl) hs (fun j hj _ => h3 j hj) ?_ ?_ ?_ (fun x hx => ?_) ?_
  · rw [h1]; exact ⟨rfl, rfl, rfl⟩
  · rw [h2]; exact ⟨hC.act, by rcases hS.1 with hx | hx <;> simp [hx]⟩
  · rw [h1]; exact .inr rfl
  · rw [h1] at hx
    cases hx
    refine ⟨hC.slot, hC.ne, hs.under.mpr hC.under, by rw [h2]; exact hC.tgid, by rw [h2]; exact hC.act, ?_⟩
    rw [h1]
    exact ⟨by rw [h2]; exact hS.1, by rw [h2]; exact hS.2⟩
  · -- the new thread is counted now
    have hsub : s'.members p ⊆ insert np (s.members p) := fun i hi => by
      obtain ⟨hi, hip, hu, ht, -⟩ := by simpa only [Smp.members, mem_filter] using hi
      by_cases hin : i = np
      · rw [hin]; exact mem_insert_self ..
      · refine mem_insert_of_mem (mem_filter.mpr ⟨hi, hip, (hs.used i).mp hu, ?_, ?_⟩)
        · rw [← hs.table, ← hs.table]; exact ht
        · rw [ha]; exact fun hx => hin (some.inj hx).symm
    have hle := card_le_card hsub
    have hins := card_insert_le np (s.members p)
    rw [h1]
    exact lt_of_le_of_lt (hle.trans hins) (Nat.succ_lt_succ (h.count p hp hC.under.self))

theorem Grouped.name (ha : (s.slot p).act = .name np) :
    Grouped ((s.put np { s.slot np with tgid := (s.slot p).tgid }).goto p .user) := by
  obtain ⟨hC, hS⟩ := h.stage_of hp hr ha rfl
  have hst : (s.slot np).state ≠ .ZOMBIE ∧ (s.slot np).state ≠ .USED := by rcases hS.1 with hx | hx <;> simp [hx]
  exact h.advance hp hr (by rw [ha]; rfl) hC.used rfl rfl rfl hst.1 (by rw [ha]; rfl) rfl
    (.inr ⟨rfl, h.own p hp (by simp [Slot.used, hr]) hC.under.self, hS.2, hst.2⟩)

end

theorem Grouped.forked (h : Grouped s) (hO : Owned s) (hp : p < NPROC) (hl : (s.slot p).live)
    (hm : (s.slot p).act.makes = some np) (hcl : (s.slot p).act.clones = none) :
    np < NPROC ∧ (s.slot np).state = .USED ∧ Under s np np := by
  obtain ⟨hn, hu⟩ := hO.child p hp hl np hm
  refine ⟨hn, hu, ?_⟩
  rcases h.cases hn (by simp [Slot.used, hu]) with hU | ⟨l, -, hU, ⟨-, -, h1⟩ | ⟨h1, h2⟩⟩
  · exact hU
  · exact absurd hu h1
  · have hC := h.clone l hU.slot h1 np h2
    have hml : (s.slot l).act.makes = some np := by
      have hS := hC.stage
      cases ha : (s.slot l).act with
      | link x th | publish x th => rw [ha] at h2; cases th <;> simp_all [Act.clones, Act.makes]
      | count x | name x => rw [ha] at hS; rcases hS.1 with hx | hx <;> rw [hu] at hx <;> cases hx
      | _ => rw [ha] at h2; cases h2
    rw [hO.apart l hU.slot p hp h1 hl np hml hm, hcl] at h2
    cases h2

theorem Grouped.linkFork (h : Grouped s) (hO : Owned s) (hc : s.cpu c = some p) (hn : Named s p)
    (ha : (s.slot p).act = .link np false) :
    Grouped ((s.put np { s.slot np with parent := some p }).goto p (.publish np false)) := by
  obtain ⟨hp, hr⟩ := hO.run c p hc
  obtain ⟨hnp, hu, hU⟩ := h.forked hO hp (.inr (.inl hr)) (by rw [ha]; rfl) (by rw [ha]; rfl)
  have hne : p ≠ np := fun he => by rw [he, hu] at hr; cases hr
  have hcalm : Calm s (s.put np { s.slot np with parent := some p }) :=
    Calm.slot rfl rfl rfl rfl rfl rfl (.inr hU) rfl (.inl rfl) (.inl rfl) (.inl rfl) (.inr ⟨rfl, id⟩)
  exact (Calm.goto (by rw [put_ne hne]; exact hr) (hcalm.named h hn) (by rw [put_ne hne, ha]; rfl) rfl Clear.zero).grouped
    (hcalm.grouped h)

theorem Grouped.publishFork (h : Grouped s) (hO : Owned s) (hc : s.cpu c = some p) (hn : Named s p)
    (ha : (s.slot p).act = .publish np false) :
    Grouped ((s.put np { s.slot np with state := .RUNNABLE }).goto p .user) := by
  obtain ⟨hp, hr⟩ := hO.run c p hc
  obtain ⟨hnp, hu, hU⟩ := h.forked hO hp (.inr (.inl hr)) (by rw [ha]; rfl) (by rw [ha]; rfl)
  have hne : p ≠ np := fun he => by rw [he, hu] at hr; cases hr
  have hcalm : Calm s (s.put np { s.slot np with state := .RUNNABLE }) :=
    Calm.slot rfl rfl rfl rfl rfl rfl (.inl rfl) rfl (.inl rfl) (.inr (.inr ⟨hu, hU, rfl⟩)) (.inl rfl)
      (.inr ⟨rfl, fun _ => .inl rfl⟩)
  exact (Calm.goto (by rw [put_ne hne]; exact hr) (hcalm.named h hn) (by rw [put_ne hne, ha]; rfl) rfl Clear.zero).grouped
    (hcalm.grouped h)

/-! ## One slot changes -/

structure Wider (s s' : Smp) (x : Nat) : Prop where
  used : ∀ j, j ≠ x → ((s'.slot j).used ↔ (s.slot j).used)
  table : ∀ j, j ≠ x → (s'.slot j).table = (s.slot j).table
  nexttable : s.nexttable ≤ s'.nexttable
  maker : ∀ t < s.nexttable, s'.maker t = s.maker t

theorem Wider.under (hw : Wider s s' x) (hi : i ≠ x) (hl : l ≠ x) (hU : Under s i l) : Under s' i l := by
  obtain ⟨t, h1, h2, h3⟩ := hU.made
  exact ⟨hU.slot, (hw.used l hl).mpr hU.used, by rw [hw.table l hl, hw.table i hi]; exact hU.table,
    t, by rw [hw.table i hi]; exact h1, lt_of_lt_of_le h2 hw.nexttable, (hw.maker t h2).trans h3⟩

theorem Wider.of_under (hw : Wider s s' x) (h : Grouped s) (hi : i < NPROC) (hix : i ≠ x) (hu : (s.slot i).used)
    (hx : ¬ Under s i x) (hU : Under s' i l) : l ≠ x ∧ Under s i l := by
  obtain ⟨l', hl', -⟩ := h.lead i hi hu
  have hlx : l' ≠ x := fun he => hx (he ▸ hl')
  rw [hU.unique (hw.under hix hlx hl')]
  exact ⟨hlx, hl'⟩

theorem Under.table_lt (h : Under s i l) {t : Nat} (ht : (s.slot i).table = some t) : t < s.nexttable := by
  obtain ⟨t', h1, h2, -⟩ := h.made
  rwa [some.inj (ht.symm.trans h1)]

structure OwnTable (s s' : Smp) (x : Nat) : Prop where
  pid : ((s.slot x).used ∧ (s'.slot x).pid = (s.slot x).pid) ∨ (s.nextpid ≤ (s'.slot x).pid ∧ (s'.slot x).pid < s'.nextpid)
  state : (s'.slot x).state ≠ .ZOMBIE
  act : (s'.slot x).act = .user
  tgid : (s'.slot x).tgid = (s'.slot x).pid
  count : 0 < (s'.slot x).thread_count
  under : Under s' x x
  table : ∀ t, (s'.slot x).table = some t → s.nexttable ≤ t

theorem OwnTable.table_ne (h : OwnTable s s' i) (hU : Under s l l) : (s'.slot i).table ≠ (s.slot l).table := fun he => by
  obtain ⟨t, ht, hlt, -⟩ := hU.made
  exact absurd (h.table t (he.trans ht)) (by omega)

theorem Grouped.replace (h : Grouped s) (hw : Wider s s' x) (hne : ∀ {j}, j ≠ x → s'.slot j = s.slot j)
    (hnext : s.nextpid ≤ s'.nextpid) (hn : Named s x) (hlone : ∀ j < NPROC, j ≠ x → (s.slot j).used → ¬ Under s j x)
    (h0 : ¬ (s'.slot x).used → (s'.slot x).parent = none) (h1 : (s'.slot x).used → OwnTable s s' x) : Grouped s' := by
  have hold : ∀ {j}, j ≠ x → (s'.slot j).used → (s.slot j).used := fun hj => (hw.used _ hj).mp
  have hto : ∀ {j l}, j < NPROC → j ≠ x → (s.slot j).used → Under s j l → Under s' j l := fun hj hjx hu hU =>
    hw.under hjx (fun he => hlone _ hj hjx hu (he ▸ hU)) hU
  have hof : ∀ {j l}, j < NPROC → j ≠ x → (s.slot j).used → Under s' j l → l ≠ x ∧ Under s j l := fun hj hjx hu hU =>
    hw.of_under h hj hjx hu (hlone _ hj hjx hu) hU
  have hpid : ∀ j < NPROC, j ≠ x → (s'.slot j).used → (s'.slot x).used → (s'.slot j).pid ≠ (s'.slot x).pid :=
    fun j hj hjx huj hux he => by
      have hju := hold hjx huj
      rw [hne hjx] at he
      rcases (h1 hux).pid with ⟨hxu, hpx⟩ | ⟨hge, -⟩
      · exact hjx (h.pid j hj x (h1 hux).under.slot hju hxu (he.trans hpx))
      · exact absurd (h.pidlt j hj hju) (by omega)
  refine ⟨fun i hi j hj hui huj he => ?_, fun i hi hui => ?_, fun i hi hui => ?_, fun i hi hui => ?_, fun i hi hui => ?_,
    fun i hi hui hU => ?_, fun i hi hl np hcl => ?_, fun l hl hU i hi hlt hil hui => ?_, fun l hl hU => ?_⟩
  · by_cases hix : i = x <;> by_cases hjx : j = x
    · rw [hix, hjx]
    · rw [hix] at hui he; exact absurd he.symm (hpid j hj hjx huj hui)
    · rw [hjx] at huj he; exact absurd he (hpid i hi hix hui huj)
    · rw [hne hix] at hui he
      rw [hne hjx] at huj he
      exact h.pid i hi j hj hui huj he
  · by_cases hix : i = x
    · rw [hix] at hi hui ⊢
      rcases (h1 hui).pid with ⟨hxu, hpx⟩ | ⟨-, hlt⟩
      · rw [hpx]; exact lt_of_lt_of_le (h.pidlt x hi hxu) hnext
      · exact hlt
    · rw [hne hix] at hui ⊢
      exact lt_of_lt_of_le (h.pidlt i hi hui) hnext
  · by_cases hix : i = x
    · rw [hix] at hui ⊢; exact h0 hui
    · rw [hne hix] at hui ⊢; exact h.orphan i hi hui
  · by_cases hix : i = x
    · rw [hix] at hui ⊢; exact (h1 (by simp [Slot.used, hui])).act
    · rw [hne hix] at hui ⊢; exact h.idle i hi hui
  · by_cases hix : i = x
    · rw [hix] at hui ⊢
      exact ⟨x, (h1 hui).under, fun hc => absurd rfl hc⟩
    · have hiu := hold hix hui
      obtain ⟨l, hU, hx⟩ := h.lead i hi hiu
      refine ⟨l, hto hi hix hiu hU, fun hil => ?_⟩
      rw [hne hix, hne fun he => hlone i hi hix hiu (he ▸ hU)]
      exact hx hil
  · by_cases hix : i = x
    · rw [hix] at hui ⊢; exact (h1 hui).tgid
    · have hiu := hold hix hui
      rw [hne hix]
      exact h.own i hi hiu (hof hi hix hiu hU).2
  · have hix : i ≠ x := fun he => by rw [he] at hl hcl; rw [(h1 hl.used).act] at hcl; cases hcl
    rw [hne hix] at hl hcl
    have hC := h.clone i hi hl np hcl
    have hnx : np ≠ x := fun he => hn i hi hl (he ▸ hcl)
    exact hC.congr (hto hC.slot hnx hC.used hC.under) (hne hix) (hne hnx)
  · have hlx : l ≠ x := fun he => by
      rw [he] at hlt hU
      simp [Slot.swept, (h1 hU.used).state, (h1 hU.used).act, Act.swept] at hlt
    obtain ⟨-, hU'⟩ := hof hl hlx (hold hlx hU.used) hU
    rw [hne hlx] at hlt ⊢
    by_cases hix : i = x
    · rw [hix] at hui ⊢
      exact (h1 hui).table_ne hU'
    · rw [hne hix]
      exact h.swept l hl hU' i hi hlt hil (hold hix hui)
  · by_cases hlx : l = x
    · rw [hlx] at hU ⊢
      rw [show s'.members x = ∅ from filter_eq_empty_iff.mpr fun i hi hmem => ?_]
      · exact (h1 hU.used).count
      obtain ⟨hix, hiu, hit, -⟩ := hmem
      exact (hof (mem_range.mp hi) hix (hold hix hiu) (hU.of_table hit)).1 rfl
    · obtain ⟨-, hU'⟩ := hof hl hlx (hold hlx hU.used) hU
      rw [hne hlx]
      refine lt_of_le_of_lt (card_le_card fun i hi => ?_) (h.count l hl hU')
      obtain ⟨hi, hil, hiu, hit, hunc⟩ := by simpa only [Smp.members, mem_filter] using hi
      rw [hne hlx] at hit hunc
      have hix : i ≠ x := fun he => by
        rw [he] at hiu hit
        exact (h1 hiu).table_ne hU' hit
      rw [hne hix] at hit
      exact mem_filter.mpr ⟨hi, hil, hold hix hiu, hit, hunc⟩

/-! ## Processes leave -/

theorem free_ne (hj : j ≠ i) : (s.freeproc i).slot j = s.slot j := put_ne hj

theorem Grouped.free (h : Grouped s) (hz : (s.slot i).state = .ZOMBIE)
    (hlone : ∀ j < NPROC, j ≠ i → (s.slot j).used → ¬ Under s j i) : Grouped (s.freeproc i) := by
  have hself : (s.freeproc i).slot i = (s.slot i).free := put_self
  refine h.replace ⟨fun j hj => by rw [free_ne hj], fun j hj => by rw [free_ne hj], le_rfl, fun _ _ => rfl⟩ free_ne
    le_rfl (fun l hl hlive hcl => ?_) hlone (fun _ => by rw [hself]; rfl) fun hu => absurd rfl (hself ▸ hu)
  rcases (h.clone l hl hlive i hcl).stage.state with hx | hx | hx <;> rw [hz] at hx <;> cases hx

section
variable (h : Grouped s) (hi : i < NPROC) (hz : (s.slot i).state = .ZOMBIE) (hpar : (s.slot i).parent = some p)
include h hi hz hpar

theorem Grouped.exited :
    Under s i i ∨ (Under s i p ∧ i ≠ p ∧ (s.slot i).tgid = (s.slot p).pid) := by
  rcases h.cases hi (by simp [Slot.used, hz]) with hU | ⟨l, hne, hU, ⟨h1, h2, -⟩ | ⟨h1, h2⟩⟩
  · exact .inl hU
  · have hlp : l = p := some.inj (h2.symm.trans hpar)
    rw [hlp] at hU h1 hne
    exact .inr ⟨hU, hne.symm, h1⟩
  · rcases (h.clone l hU.slot h1 i h2).stage.state with hx | hx | hx <;> rw [hz] at hx <;> cases hx

theorem Grouped.freeLeader (htg : (s.slot i).tgid ≠ (s.slot p).pid) : Grouped (s.freeproc i) := by
  rcases h.exited hi hz hpar with hU | ⟨-, -, ht⟩
  · refine h.free hz fun j hj hji hu hUj => ?_
    exact h.swept i hi hU j hj (by unfold Slot.swept; rw [if_pos hz]; exact hj) hji hu hUj.table.symm
  · exact absurd ht htg

end

theorem Grouped.freeThread (h : Grouped s) (hp : p < NPROC) (hr : (s.slot p).state = .RUNNING) (hi : i < NPROC)
    (hz : (s.slot i).state = .ZOMBIE) (hpar : (s.slot i).parent = some p) (htg : (s.slot i).tgid = (s.slot p).pid)
    (hunc : (s.slot p).act.uncounted = none) : Grouped ((s.freeproc i).put p { (s.freeproc i).slot p with
      thread_count := ((s.freeproc i).slot p).thread_count - 1 }) := by
  have hip : p ≠ i := fun he => by rw [he, hz] at hr; cases hr
  have hu : (s.slot i).used := by simp [Slot.used, hz]
  have hpu : (s.slot p).used := by simp [Slot.used, hr]
  have hU : Under s i p := by
    rcases h.exited hi hz hpar with hU | ⟨hU, -⟩
    · exact absurd (h.pid p hp i hi hpu hu (htg.symm.trans (h.own i hi hu hU))) hip
    · exact hU
  have hg := h.free hz fun j hj hji huj hUj => hip (hU.unique hUj.self)
  have hmem : i ∈ s.members p := mem_filter.mpr
    ⟨mem_range.mpr hi, hip.symm, hu, hU.table.symm, by rw [hunc]; simp⟩
  have hsub : (s.freeproc i).members p ⊆ (s.members p).erase i := fun j hj => by
    obtain ⟨hj, hjp, huj, ht, hx⟩ := by simpa only [Smp.members, mem_filter] using hj
    have hji : j ≠ i := fun he => by
      rw [he, show (s.freeproc i).slot i = (s.slot i).free from put_self] at huj; exact huj rfl
    rw [free_ne hji] at huj ht
    rw [free_ne hip] at ht hx
    exact mem_erase.mpr ⟨hji, mem_filter.mpr ⟨hj, hjp, huj, ht, hx⟩⟩
  have hcard := card_le_card hsub
  rw [card_erase_of_mem hmem] at hcard
  have hpos := card_pos.mpr ⟨i, hmem⟩
  have hlt := h.count p hp hU.self
  refine Calm.grouped (s := s.freeproc i) (Calm.slot (p := p) rfl rfl rfl rfl rfl rfl (.inl rfl) rfl (.inr ?_)
    (.inl rfl) (.inl rfl) (.inr ⟨rfl, id⟩)) hg
  rw [free_ne hip]
  dsimp only
  omega

theorem Grouped.die (h : Grouped s) (hr : (s.slot p).state = .RUNNING) (hn : Named s p) (ha : (s.slot p).act = .zombie) :
    Grouped ({ s with waitLock := false }.sched c p .ZOMBIE none) := by
  generalize hs' : { s with waitLock := false }.sched c p .ZOMBIE none = s'
  have hself : s'.slot p = { s.slot p with state := .ZOMBIE, chan := none } := by rw [← hs']; exact put_self
  have hne : ∀ {j}, j ≠ p → s'.slot j = s.slot j := fun hj => by rw [← hs']; exact put_ne hj
  have hpu : (s.slot p).used := by simp [Slot.used, hr]
  have hs : Shape s s' := by
    refine Shape.of_slots (fun j => ?_) (by rw [← hs']; rfl) (by rw [← hs']; rfl) (by rw [← hs']; rfl)
    by_cases hj : j = p
    · rw [hj, hself]; exact ⟨iff_of_true (by simp [Slot.used]) hpu, rfl, rfl⟩
    · rw [hne hj]; exact ⟨Iff.rfl, rfl, rfl⟩
  have hsw : (s.slot p).swept = NPROC := by simp [Slot.swept, hr, ha, Act.swept]
  refine hs.grouped h (fun i hi hu => ?_) (fun i hi hu => ?_) (fun i hi hu l hU hil hx => ?_) (fun i _ _ _ => ?_)
    (fun i hi hli x hx => ?_) (fun l hl hU i hi hlt => ?_) fun l hl hU => ?_
  · have hnu : ¬ (s.slot i).used := fun hx => hu ((hs.used i).mpr hx)
    have hip : i ≠ p := fun he => hnu (he ▸ hpu)
    rw [hne hip]
    exact h.orphan i hi hnu
  · have hip : i ≠ p := fun he => by rw [he, hself] at hu; cases hu
    rw [hne hip] at hu ⊢
    exact h.idle i hi hu
  · rcases hx with ⟨h1, h2, h3⟩ | ⟨h1, h2⟩
    · refine .inl ?_
      by_cases hip : i = p
      · rw [hip] at h1 h2 ⊢; rw [hself]; exact ⟨h1, h2, by simp⟩
      · rw [hne hip]; exact ⟨h1, h2, h3⟩
    · have hlp : l ≠ p := fun he => by rw [he, ha] at h2; cases h2
      rw [hne hlp]
      exact .inr ⟨h1, h2⟩
  · by_cases hip : i = p
    · rw [hip, hself]
    · rw [hne hip]
  · have hip : i ≠ p := fun he => by rw [he, hself] at hli; exact Slot.not_live_of_zombie rfl hli
    rw [hne hip] at hli hx
    have hxp : x ≠ p := fun he => hn i hi hli (he ▸ hx)
    have hC := h.clone i hi hli x hx
    exact hC.congr (hs.under.mpr hC.under) (hne hip) (hne hxp)
  · by_cases hlp : l = p
    · exact h.swept l hl hU i hi (by rw [hlp, hsw]; exact hi)
    · rw [hne hlp] at hlt
      exact h.swept l hl hU i hi hlt
  · have hl0 : (s'.slot l).act = (s.slot l).act ∧
        (s'.slot l).thread_count = (s.slot l).thread_count := by
      by_cases hlp : l = p
      · rw [hlp, hself]; exact ⟨rfl, rfl⟩
      · rw [hne hlp]; exact ⟨rfl, rfl⟩
    rw [members_congr hs (by rw [hl0.1]), hl0.2]
    exact h.count l hl hU

/-! ## New processes and new tables -/

theorem Grouped.enter (h : Grouped s) (hnp : np < NPROC) (hu : (s.slot np).state = .UNUSED) :
    Grouped (s.alloc p np false) := by
  have hnu : ¬ (s.slot np).used := fun hx => hx hu
  have hself : (s.alloc p np false).slot np = { s.slot np with
      state := .USED, pid := s.nextpid, tgid := s.nextpid, thread_count := 1, table := some s.nexttable, sz := (s.slot p).sz,
      act := .user } := put_self
  have hne : ∀ {j}, j ≠ np → (s.alloc p np false).slot j = s.slot j := fun hj => put_ne hj
  have hmaker : (s.alloc p np false).maker = update s.maker s.nexttable np := rfl
  refine h.replace ⟨fun j hj => by rw [hne hj], fun j hj => by rw [hne hj], Nat.le_succ _, fun t ht => ?_⟩ hne
    (Nat.le_succ _)
    (fun l hl hlive hcl => hnu (h.clone l hl hlive np hcl).used) (fun _ _ _ _ hU => hnu hU.used)
    (fun hx => absurd (by rw [hself]; simp [Slot.used]) hx) fun _ => ?_
  · rw [hmaker, update_of_ne (by omega)]
  · refine ⟨.inr ⟨?_, ?_⟩, ?_, ?_, ?_, ?_, ⟨hnp, ?_, rfl, s.nexttable, ?_, Nat.lt_succ_self _, ?_⟩, fun t ht => ?_⟩
    · rw [hself]
    · rw [hself]; exact Nat.lt_succ_self _
    · rw [hself]; simp
    · rw [hself]
    · rw [hself]
    · rw [hself]; exact Nat.one_pos
    · rw [hself]; simp [Slot.used]
    · rw [hself]
    · rw [hmaker, update_self]
    · rw [hself] at ht; exact le_of_eq (some.inj ht)

section
variable (h : Grouped s) (hp : p < NPROC) (hr : (s.slot p).state = .RUNNING) (hn : Named s p) (ha : (s.slot p).act = .user)
include h hp hr hn ha

theorem Grouped.join (hlead : Under s p p) (hne : np ≠ p) (hU : Under s np np)
    (hst : (s.slot np).state = .USED) (hpar : (s.slot np).parent = none)
    (hlone : ∀ j < NPROC, j ≠ np → (s.slot j).used → ¬ Under s j np) :
    Grouped ((s.put np { s.slot np with table := (s.slot p).table }).goto p (.link np true)) := by
  have hpl : (s.slot p).live := .inr (.inl hr)
  have hidle : (s.slot np).act = .user := h.idle np hU.slot hst
  generalize hs' : (s.put np { s.slot np with table := (s.slot p).table }).goto p (.link np true) = s'
  have h1 : s'.slot p = { s.slot p with act := .link np true } := by rw [← hs', goto_self, put_ne hne.symm]
  have h2 : s'.slot np = { s.slot np with table := (s.slot p).table } := by rw [← hs', goto_ne hne, put_self]
  have h3 : ∀ {j}, j ≠ p → j ≠ np → s'.slot j = s.slot j := fun hjp hjn => by rw [← hs', goto_ne hjp, put_ne hjn]
  have hnext : s'.nextpid = s.nextpid ∧ s'.nexttable = s.nexttable ∧ s'.maker = s.maker := by
    rw [← hs']; exact ⟨rfl, rfl, rfl⟩
  have hkeep : ∀ j, ∃ a t, s'.slot j = { s.slot j with act := a, table := t } ∧ (j ≠ p → a = (s.slot j).act) ∧
      (j ≠ np → t = (s.slot j).table) := fun j => by
    by_cases hjp : j = p
    · exact ⟨_, _, by rw [hjp]; exact h1, fun hx => absurd hjp hx, fun _ => by rw [hjp]⟩
    · by_cases hjn : j = np
      · exact ⟨_, _, by rw [hjn]; exact h2, fun _ => by rw [hjn], fun hx => absurd hjn hx⟩
      · exact ⟨_, _, h3 hjp hjn, fun _ => rfl, fun _ => rfl⟩
  have hfld : ∀ j, (s'.slot j).state = (s.slot j).state ∧ (s'.slot j).pid = (s.slot j).pid ∧
      (s'.slot j).tgid = (s.slot j).tgid ∧ (s'.slot j).parent = (s.slot j).parent ∧
      (s'.slot j).thread_count = (s.slot j).thread_count := fun j => by
    obtain ⟨a, t, he, -⟩ := hkeep j
    rw [he]; exact ⟨rfl, rfl, rfl, rfl, rfl⟩
  have hused : ∀ {j}, (s'.slot j).used → (s.slot j).used := fun {j} hx => by unfold Slot.used; rw [← (hfld j).1]; exact hx
  have htab : ∀ {j}, j ≠ np → (s'.slot j).table = (s.slot j).table := fun {j} hj => by
    obtain ⟨a, t, he, -, ht⟩ := hkeep j
    rw [he]; exact ht hj
  have hact : ∀ {j}, j ≠ p → (s'.slot j).act = (s.slot j).act := fun {j} hj => by
    obtain ⟨a, t, he, ht, -⟩ := hkeep j
    rw [he]; exact ht hj
  have hw : Wider s s' np := ⟨fun j _ => by unfold Slot.used; rw [(hfld j).1], fun j hj => htab hj,
    le_of_eq hnext.2.1.symm, fun t _ => by rw [hnext.2.2]⟩
  have hto : ∀ {j l}, j < NPROC → j ≠ np → (s.slot j).used → Under s j l → Under s' j l := fun hj hjn hu hx =>
    hw.under hjn (fun he => hlone _ hj hjn hu (he ▸ hx)) hx
  have hof : ∀ {j l}, j < NPROC → j ≠ np → (s.slot j).used → Under s' j l → Under s j l := fun hj hjn hu hx =>
    (hw.of_under h hj hjn hu (hlone _ hj hjn hu) hx).2
  have hnew : Under s' np p := (hto hp hne.symm hpl.used hlead).of_table (by rw [h1, h2])
  have hnot : ∀ {j}, Under s' j j → j ≠ np := fun hx he => hne (by rw [he] at hx; exact hx.unique hnew)
  have hother : ∀ {j}, Under s j j → j ≠ p → (s'.slot np).table ≠ (s.slot j).table := fun hx hjp he =>
    hjp (hx.unique (hlead.of_table (by rw [← he, h2])))
  refine ⟨fun i hi j hj hui huj he => ?_, fun i hi hui => ?_, fun i hi hui => ?_, fun i hi hui => ?_, fun i hi hui => ?_,
    fun i hi hui hx => ?_, fun i hi hl x hx => ?_, fun l hl hx i hi hlt hil hui => ?_, fun l hl hx => ?_⟩
  · rw [(hfld i).2.1, (hfld j).2.1] at he
    exact h.pid i hi j hj (hused hui) (hused huj) he
  · rw [(hfld i).2.1, hnext.1]
    exact h.pidlt i hi (hused hui)
  · rw [(hfld i).2.2.2.1]
    exact h.orphan i hi fun hx => hui (by unfold Slot.used; rw [(hfld i).1]; exact hx)
  · rw [(hfld i).1] at hui
    rw [hact fun he => by rw [he, hr] at hui; cases hui]
    exact h.idle i hi hui
  · by_cases hin : i = np
    · rw [hin]
      exact ⟨p, hnew, fun _ => .inr ⟨by rw [h1]; exact hpl, by rw [h1]; rfl⟩⟩
    · obtain ⟨l, hl, hx⟩ := h.lead i hi (hused hui)
      refine ⟨l, hto hi hin (hused hui) hl, fun hil => ?_⟩
      rw [(hfld i).2.2.1, (hfld l).2.1, (hfld i).2.2.2.1, (hfld i).1]
      refine (hx hil).imp id fun ⟨hx1, hx2⟩ => ?_
      have hlp : l ≠ p := fun he => by rw [he, ha] at hx2; cases hx2
      rw [hact hlp]
      exact ⟨by unfold Slot.live at *; rwa [(hfld l).1], hx2⟩
  · rw [(hfld i).2.2.1, (hfld i).2.1]
    exact h.own i hi (hused hui) (hof hi (hnot hx) (hused hui) hx)
  · by_cases hip : i = p
    · rw [hip, h1] at hx
      rw [hip]
      cases hx
      refine ⟨hU.slot, hne, hnew, by rw [h2]; exact h.own np hU.slot hU.used hU, by rw [h2]; exact hidle, ?_⟩
      rw [h1]
      exact ⟨by rw [h2]; exact hst, by rw [h2]; exact hpar⟩
    · rw [hact hip] at hx
      have hin : i ≠ np := fun he => by rw [he, hidle] at hx; cases hx
      rw [h3 hip hin] at hl
      have hC := h.clone i hi hl x hx
      have hxn : x ≠ np := fun he => hC.not_lead (he ▸ hU)
      exact hC.congr (hto hC.slot hxn hC.used hC.under) (h3 hip hin) (h3 (fun he => hn i hi hl (he ▸ hx)) hxn)
  · have hln := hnot hx
    have hU' := hof hl hln (hused hx.used) hx
    have hlp : l ≠ p := fun he => by
      rw [he, h1] at hlt
      simp [Slot.swept, hr, Act.swept] at hlt
    rw [h3 hlp hln] at hlt ⊢
    by_cases hin : i = np
    · rw [hin]; exact hother hU' hlp
    · rw [htab hin]
      exact h.swept l hl hU' i hi hlt hil (hused hui)
  · have hln := hnot hx
    have hU' := hof hl hln (hused hx.used) hx
    rw [(hfld l).2.2.2.2]
    refine lt_of_le_of_lt (card_le_card fun i hi => ?_) (h.count l hl hU')
    obtain ⟨hi, hil, hiu, hit, hunc⟩ := by simpa only [Smp.members, mem_filter] using hi
    rw [htab hln] at hit
    have hin : i ≠ np := fun he => by
      rw [he] at hit hunc
      by_cases hlp : l = p
      · rw [hlp, h1] at hunc; exact hunc rfl
      · exact hother hU' hlp hit
    refine mem_filter.mpr ⟨hi, hil, hused hiu, by rw [← htab hin]; exact hit, ?_⟩
    by_cases hlp : l = p
    · rw [hlp, ha]; simp [Act.uncounted]
    · rw [← hact hlp]; exact hunc

theorem Grouped.alloc {thread : Bool} (hnp : np < NPROC) (hu : (s.slot np).state = .UNUSED) (hth : thread → Under s p p) :
    Grouped ((s.alloc p np thread).goto p (.link np thread)) := by
  have hne : np ≠ p := fun he => by rw [← he, hu] at hr; cases hr
  have hnu : ¬ (s.slot np).used := fun hx => hx hu
  have hpu : (s.slot p).used := by simp [Slot.used, hr]
  have hg : Grouped (s.alloc p np false) := h.enter hnp hu
  have hold : ∀ {j}, j ≠ np → (s.alloc p np false).slot j = s.slot j := fun hj => put_ne hj
  have hself : ((s.alloc p np false).slot np).state = .USED ∧ ((s.alloc p np false).slot np).parent = (s.slot np).parent ∧
      ((s.alloc p np false).slot np).table = some s.nexttable := by simp [Smp.alloc]
  have hr' : ((s.alloc p np false).slot p).state = .RUNNING := by rw [hold hne.symm]; exact hr
  have ha' : ((s.alloc p np false).slot p).act = .user := by rw [hold hne.symm]; exact ha
  have hn' : Named (s.alloc p np false) p := fun l hl hlive hx => by
    have hln : l ≠ np := fun he => by rw [he] at hlive; exact Slot.not_live_of_used hself.1 hlive
    rw [hold hln] at hlive hx
    exact hn l hl hlive hx
  cases thread with
  | false => exact (Calm.goto hr' hn' (by rw [ha']; rfl) rfl Clear.zero).grouped hg
  | true =>
    have he : s.alloc p np true = (s.alloc p np false).put np
        { (s.alloc p np false).slot np with table := ((s.alloc p np false).slot p).table } := by
      rw [hold hne.symm]
      simp [Smp.alloc, Smp.put]
    have hmade : ∀ j < NPROC, j ≠ np → (s.slot j).used → ¬ Under (s.alloc p np false) j np := fun j hj hjn hju hx => by
      obtain ⟨l, hl, -⟩ := h.lead j hj hju
      refine absurd (hl.table_lt (t := s.nexttable) ?_) (by omega)
      rw [← hself.2.2, hx.table, hold hjn]
    rw [he]
    refine hg.join hp hr' hn' ha' ?_ hne ?_ hself.1 (hself.2.1.trans (h.orphan np hnp hnu)) fun j hj hjn hju => ?_
    · obtain ⟨t, ht, hlt, hm⟩ := (hth rfl).made
      refine ⟨hp, by rw [hold hne.symm]; exact hpu, rfl, t, by rw [hold hne.symm]; exact ht, Nat.lt_succ_of_lt hlt, ?_⟩
      exact (update_of_ne (by omega) ..).trans hm
    · exact ⟨hnp, by simp [Slot.used, hself.1], rfl, s.nexttable, hself.2.2, Nat.lt_succ_self _, update_self ..⟩
    · rw [hold hjn] at hju
      exact hmade j hj hjn hju

theorem Grouped.exec (hlead : Under s p p) (hone : (s.slot p).thread_count ≤ 1) :
    Grouped { s.put p { s.slot p with table := some s.nexttable } with
      nexttable := s.nexttable + 1
      maker := update s.maker s.nexttable p } := by
  have hpu : (s.slot p).used := by simp [Slot.used, hr]
  have hlone : ∀ j < NPROC, j ≠ p → (s.slot j).used → ¬ Under s j p := fun j hj hjp hju hx => by
    have hmem : j ∈ s.members p :=
      mem_filter.mpr ⟨mem_range.mpr hj, hjp, hju, hx.table.symm, by rw [ha]; simp [Act.uncounted]⟩
    have hpos := card_pos.mpr ⟨j, hmem⟩
    have hlt := h.count p hp hlead
    omega
  have hself : (s.put p { s.slot p with table := some s.nexttable }).slot p =
      { s.slot p with table := some s.nexttable } := put_self
  refine h.replace ⟨fun j hj => by rw [put_ne hj], fun j hj => by rw [put_ne hj], Nat.le_succ _,
    fun t ht => update_of_ne (by omega) ..⟩ put_ne le_rfl hn hlone
    (fun hc => absurd (by rw [hself]; exact hpu) hc) fun _ => ?_
  refine ⟨.inl ⟨hpu, by rw [hself]⟩, by rw [hself]; simp [hr], by rw [hself]; exact ha,
    by rw [hself]; exact h.own p hp hpu hlead, by rw [hself]; exact Nat.zero_lt_of_lt (h.count p hp hlead), ?_,
    fun t ht => ?_⟩
  · exact ⟨hp, by rw [hself]; exact hpu, rfl, s.nexttable, by rw [hself], Nat.lt_succ_self _, update_self ..⟩
  · rw [hself] at ht
    exact le_of_eq (some.inj ht)

end

/-! ## Events -/

/-- A process that has the page table of its parent and whose `tgid` is still its `pid`. -/
def Smp.fresh (s : Smp) (p : Nat) : Prop :=
  ∃ q ∈ (s.slot p).parent, (s.slot q).table = (s.slot p).table ∧ (s.slot p).tgid = (s.slot p).pid

instance (s : Smp) (p : Nat) : Decidable (s.fresh p) := inferInstanceAs (Decidable (∃ q ∈ (s.slot p).parent, _))

def SmpEvent.actor (s : Smp) : SmpEvent → Option Nat
  | .sleep c _ | .call c _ | .step c _ => s.cpu c
  | _ => none

/-- `reparent` only frees threads that have exited, and no thread does anything before its `clone` has set its `tgid`. -/
def Patient (e : SmpEvent) (s : Smp) : Prop := Settled e s ∧ ∀ p ∈ e.actor s, ¬ s.fresh p

instance (e : SmpEvent) (s : Smp) : Decidable (Patient e s) := inferInstanceAs (Decidable (_ ∧ ∀ p ∈ e.actor s, _))

theorem Grouped.named_of_fresh (h : Grouped s) (hr : (s.slot p).state = .RUNNING) (hf : ¬ s.fresh p) : Named s p :=
  fun l hl hlive hcl => by
    have hC := h.clone l hl hlive p hcl
    rcases hC.stage.parent with ⟨hu, -⟩ | hpar
    · rw [hu] at hr; cases hr
    · exact hf ⟨l, hpar, hC.under.table, hC.tgid⟩

theorem Calm.of_eq (hs : s'.slot = s.slot) (h1 : s'.nextpid = s.nextpid) (h2 : s'.nexttable = s.nexttable)
    (h3 : s'.maker = s.maker) : Calm s s' :=
  Calm.slot (p := 0) (q := s.slot 0) (by rw [hs, update_eq_self]) h1 h2 h3 rfl rfl (.inl rfl) rfl (.inl rfl)
    (.inl rfl) (.inl rfl) (.inr ⟨rfl, id⟩)

section
variable (h : Grouped s)
include h

theorem Grouped.of_eq (hs : s'.slot = s.slot) (h1 : s'.nextpid = s.nextpid)
    (h2 : s'.nexttable = s.nexttable) (h3 : s'.maker = s.maker) : Grouped s' := (Calm.of_eq hs h1 h2 h3).grouped h

section
variable (hp : p < NPROC) (hr : (s.slot p).state = .RUNNING)
include hp hr

theorem Grouped.sweep (ha : (s.slot p).act = .reparent pp)
    (hpp : (s.slot pp).parent = some p → (s.slot pp).tgid ≠ (s.slot p).pid) : Clear s p (pp + 1) :=
    fun hU i hi hlt hip hu ht => by
  by_cases hipp : i = pp
  · rw [hipp] at hip hu ht hi
    have hUi := hU.of_table ht
    rcases h.cases hi hu with hx | ⟨l, -, hx, ⟨h1, h2, -⟩ | ⟨-, h2⟩⟩
    · exact hip (hx.unique hUi)
    · rw [hx.unique hUi] at h1 h2
      exact hpp h2 h1
    · rw [hx.unique hUi, ha] at h2
      cases h2
  · exact h.swept p hp hU i hi (by simp only [Slot.swept, hr, ha, Act.swept]; simp; omega) hip hu ht

theorem Grouped.adopt (hn : Named s p) (ha : (s.slot p).act = .reparent pp) (hpp : pp < NPROC)
    (hz : (s.slot pp).parent = some p →
      (s.slot pp).tgid = (s.slot p).pid → (s.slot pp).state = .ZOMBIE) :
    Grouped ((s.adopt p pp).goto p (.reparent (pp + 1))) := by
  -- whatever happens to slot `pp`, the rest goes the same way
  have hgo : ∀ {s'}, Grouped s' → (s'.slot p).state = .RUNNING → (s'.slot p).act = .reparent pp → Named s' p →
      ((s'.slot pp).parent = some p → (s'.slot pp).tgid ≠ (s'.slot p).pid) → Grouped (s'.goto p (.reparent (pp + 1))) :=
    fun {s'} h' hr' ha' hn' hpp' =>
      (Calm.goto (a := .reparent (pp + 1)) hr' hn' (by rw [ha']; rfl) rfl (h'.sweep hp hr' ha' hpp')).grouped h'
  unfold Smp.adopt
  split
  · rename_i hpar
    split
    · rename_i htg
      have hzo := hz hpar htg
      have hne : p ≠ pp := fun he => by rw [he, hzo] at hr; cases hr
      have hfree : ∀ {j}, (s.freeproc pp).slot j = if j = pp then (s.slot pp).free else s.slot j := fun {j} => by
        by_cases hj : j = pp
        · rw [if_pos hj, hj]; exact put_self
        · rw [if_neg hj]; exact put_ne hj
      refine hgo (h.freeThread hp hr hpp hzo hpar htg (by rw [ha]; rfl)) ?_ ?_ (fun l hl hlive hcl => ?_) fun hx => ?_
      · rw [put_self, hfree, if_neg hne]; exact hr
      · rw [put_self, hfree, if_neg hne]; exact ha
      · by_cases hlp : l = p
        · rw [hlp, put_self, hfree, if_neg hne] at hcl
          rw [ha] at hcl
          cases hcl
        · rw [put_ne hlp, hfree] at hlive hcl
          by_cases hlpp : l = pp
          · rw [if_pos hlpp] at hlive; exact hlive.used rfl
          · rw [if_neg hlpp] at hlive hcl; exact hn l hl hlive hcl
      · rw [put_ne hne.symm, hfree, if_pos rfl] at hx
        cases hx
    · rename_i htg
      have hUpp : Under s pp pp := by
        have hu : (s.slot pp).used := fun hx => by
          have := h.orphan pp hpp (fun hy => hy hx)
          rw [hpar] at this
          cases this
        rcases h.cases hpp hu with hx | ⟨l, -, hx, ⟨h1, h2, -⟩ | ⟨h1, h2⟩⟩
        · exact hx
        · rw [some.inj (h2.symm.trans hpar)] at h1
          exact absurd h1 htg
        · have hC := h.clone l hx.slot h1 pp h2
          rcases hC.stage.parent with ⟨-, h0⟩ | hpl
          · rw [hpar] at h0; cases h0
          · rw [some.inj (hpl.symm.trans hpar), ha] at h2
            cases h2
      have hcalm : Calm s (s.put pp { s.slot pp with parent := some s.initproc }) :=
        Calm.slot rfl rfl rfl rfl rfl rfl (.inr hUpp) rfl (.inl rfl) (.inl rfl) (.inl rfl) (.inr ⟨rfl, id⟩)
      have hsame : ((s.put pp { s.slot pp with parent := some s.initproc }).slot p).state = (s.slot p).state ∧
          ((s.put pp { s.slot pp with parent := some s.initproc }).slot p).act = (s.slot p).act := by
        by_cases he : p = pp
        · rw [← he, put_self]; exact ⟨rfl, rfl⟩
        · rw [put_ne he]; exact ⟨rfl, rfl⟩
      refine hgo (hcalm.grouped h) (hsame.1.trans hr) (hsame.2.trans ha) (hcalm.named h hn) fun _ => ?_
      rw [hcalm.tgid, hcalm.pid]
      exact htg
  · rename_i hpar
    exact hgo h hr ha hn fun hx => absurd hx hpar

theorem Grouped.reap (hn : Named s p)
    (hcl : (s.slot p).act.clones = none) {thread : Bool} (hpp : pp < NPROC) (hpar : (s.slot pp).parent = some p)
    (htg : (s.slot pp).tgid = (s.slot p).pid ↔ thread) (hz : (s.slot pp).state = .ZOMBIE) :
    Grouped ((s.reap p pp thread).goto p .user) := by
  have hne : p ≠ pp := fun he => by rw [he, hz] at hr; cases hr
  have hold : ∀ {j}, j ≠ pp → (s.freeproc pp).slot j = s.slot j := fun hj => put_ne hj
  have hgo : ∀ {s'}, (∀ j, (s'.slot j).state = ((s.freeproc pp).slot j).state ∧
      (s'.slot j).act = ((s.freeproc pp).slot j).act) → Grouped s' → Grouped (s'.goto p .user) := fun {s'} hs hg => by
    refine (Calm.goto (a := .user) ?_ (fun l hl hlive hx => ?_) ?_ rfl Clear.zero).grouped hg
    · rw [(hs p).1, hold hne]; exact hr
    · have hlpp : l ≠ pp := fun he => hlive.used (by
        rw [(hs l).1, he, show (s.freeproc pp).slot pp = (s.slot pp).free from put_self]; rfl)
      rw [(hs l).2, hold hlpp] at hx
      unfold Slot.live at hlive
      rw [(hs l).1, hold hlpp] at hlive
      exact hn l hl hlive hx
    · rw [(hs p).2, hold hne]; exact hcl
  cases thread with
  | true =>
    have hg := h.freeThread hp hr hpp hz hpar (htg.mpr rfl) (Act.uncounted_of_clones hcl)
    refine hgo (fun j => ?_) (hg.of_eq rfl rfl rfl rfl)
    by_cases hj : j = p
    · rw [hj, show (s.reap p pp true).slot p = _ from put_self]; exact ⟨rfl, rfl⟩
    · rw [show (s.reap p pp true).slot j = (s.freeproc pp).slot j from put_ne hj]; exact ⟨rfl, rfl⟩
  | false =>
    have hg := h.freeLeader hpp hz hpar fun hx => by simpa using htg.mp hx
    exact hgo (fun _ => ⟨rfl, rfl⟩) (hg.of_eq rfl rfl rfl rfl)

end

theorem Grouped.resizing (hr : (s.slot p).state = .RUNNING) (hn : Named s p) (hcl : (s.slot p).act.clones = none)
    {w : Prop} [Decidable w] {a : Act} {sz : Nat} (ha : a = .resize tgid sz' j') :
    Grouped ((if w then s.put j { s.slot j with sz := sz } else s).goto p a) := by
  subst ha
  split
  · have hput : Calm s (s.put j { s.slot j with sz := sz }) :=
      Calm.slot rfl rfl rfl rfl rfl rfl (.inl rfl) rfl (.inl rfl) (.inl rfl) (.inl rfl) (.inr ⟨rfl, id⟩)
    refine (Calm.goto ?_ (hput.named h hn) ?_ rfl Clear.zero).grouped (hput.grouped h)
    · by_cases hj : p = j
      · rw [hj, put_self, ← hj]; exact hr
      · rw [put_ne hj]; exact hr
    · rw [hput.clones]; exact hcl
  · exact (Calm.goto hr hn hcl rfl Clear.zero).grouped h

theorem Grouped.step (hO : Owned s) {fail : Bool} (hc : s.cpu c = some p) (hP : Patient (.step c fail) s) :
    Grouped ((s.slot p).act.step fail s c p) := by
  obtain ⟨hp, hr⟩ := hO.run c p hc
  have hn : Named s p := h.named_of_fresh hr (hP.2 p hc)
  have hgo : ∀ {a : Act} {b : Bool}, (s.slot p).act.clones = none → a.clones = none → Clear s p a.swept →
      Grouped ({ s with waitLock := b }.goto p a) := fun h1 h2 h3 => (Calm.goto hr hn h1 h2 h3).grouped h
  cases ha : (s.slot p).act with
  | user => exact h
  | link np thread =>
    rw [Act.step]
    split
    · exact h
    · cases thread with
      | true => exact h.link hp hr ha
      | false => exact h.linkFork hO hc hn ha
  | publish np thread =>
    cases thread with
    | true => exact h.publish hp hr ha
    | false => exact h.publishFork hO hc hn ha
  | count np => exact h.tally hp hr ha
  | name np => exact h.name hp hr ha
  | exiting =>
    rw [Act.step]
    split
    · exact h
    · exact hgo (by rw [ha]; rfl) rfl Clear.zero
  | reparent pp =>
    rw [Act.step]
    split
    · rename_i hpp
      exact h.adopt hp hr hn ha hpp fun h1 h2 => hP.1 pp (by simp [Smp.frees, hc, ha, hpp, h1, h2])
    · rename_i hpp
      refine hgo (b := s.waitLock) (by rw [ha]; rfl) rfl fun hU i hi _ => h.swept p hp hU i hi ?_
      simp only [Slot.swept, hr, ha, Act.swept]
      simp
      omega
  | zombie => exact h.die hr hn ha
  | waiting thread =>
    rw [Act.step]
    split
    · exact h
    · exact hgo (by rw [ha]; rfl) rfl Clear.zero
  | scan thread pp havekids =>
    have hcl : (s.slot p).act.clones = none := by rw [ha]; rfl
    rw [Act.step]
    split
    · rename_i hpp
      split
      · rename_i hx
        split
        · rename_i hz
          split
          · exact hgo hcl rfl Clear.zero
          · exact h.reap hp hr hn hcl hpp hx.1 hx.2 hz
        · exact hgo (b := s.waitLock) hcl rfl Clear.zero
      · exact hgo (b := s.waitLock) hcl rfl Clear.zero
    · split
      · exact hgo hcl rfl Clear.zero
      · have hg : Grouped ({ s with waitLock := false }.goto p (.waiting thread)) := hgo hcl rfl Clear.zero
        have hself : (({ s with waitLock := false } : Smp).goto p (.waiting thread)).slot p =
            { s.slot p with act := .waiting thread } := goto_self
        refine Calm.grouped (s := { s with waitLock := false }.goto p (.waiting thread)) (Calm.slot (p := p)
          (q := { ({ s with waitLock := false }.goto p (.waiting thread)).slot p with
            state := .SLEEPING, chan := some (.proc p) }) rfl rfl rfl rfl rfl rfl
          (.inl rfl) rfl (.inl rfl) (.inr (.inl ⟨?_, .inr (.inr rfl)⟩)) (.inl rfl) (.inl ?_)) hg
        · rw [hself]; exact .inr (.inl hr)
        · intro l hl hlive hx
          by_cases hlp : l = p
          · rw [hlp, hself] at hx; cases hx
          · rw [goto_ne hlp] at hlive hx
            exact hn l hl hlive hx
  | resize tgid sz j =>
    have hcl : (s.slot p).act.clones = none := by rw [ha]; rfl
    rw [Act.step]
    split
    · exact h.resizing hr hn hcl rfl
    · exact hgo (b := s.waitLock) hcl rfl Clear.zero

theorem Grouped.call (hO : Owned s) {sc : Call} (hc : s.cpu c = some p) (hP : Patient (.call c sc) s)
    (ha : (s.slot p).act = .user) (hok : sc.refused (s.slot p) = false) : Grouped (sc.step s p) := by
  obtain ⟨hp, hr⟩ := hO.run c p hc
  have hn : Named s p := h.named_of_fresh hr (hP.2 p hc)
  have hpu : (s.slot p).used := by simp [Slot.used, hr]
  have hgo : ∀ {a : Act}, a.clones = none → a.swept = 0 → Grouped (s.goto p a) := fun h1 h2 =>
    (Calm.goto hr hn (by rw [ha]; rfl) h1 (by rw [h2]; exact Clear.zero)).grouped h
  have hfail : ∀ {np thread}, (s.slot np).state = .UNUSED → Grouped ((s.alloc p np thread).freeproc np) :=
    fun {np thread} hu => by
    have hslot : ((s.alloc p np thread).freeproc np).slot = update s.slot np ((s.alloc p np thread).slot np).free :=
      update_idem ..
    have hne : ∀ {j}, j ≠ np → ((s.alloc p np thread).freeproc np).slot j = s.slot j := fun hj => by
      rw [hslot, update_of_ne hj]
    have hself : ((s.alloc p np thread).freeproc np).slot np = ((s.alloc p np thread).slot np).free := put_self
    exact h.replace ⟨fun j hj => by rw [hne hj], fun j hj => by rw [hne hj], Nat.le_succ _,
      fun t ht => update_of_ne (by omega) ..⟩
      hne (Nat.le_succ _) (fun l hl hlive hcl => (h.clone l hl hlive np hcl).used hu) (fun _ _ _ _ hU => hU.used hu)
      (fun _ => by rw [hself]; rfl) fun hx => absurd rfl (hself ▸ hx)
  cases sc with
  | kfork np ok =>
    rw [Call.step]
    split
    · rename_i hx
      split
      · exact h.alloc hp hr hn ha hx.1 hx.2 (fun hx => by cases hx)
      · exact hfail hx.2
    · exact h
  | clone np ok =>
    have ht : (s.slot p).pid = (s.slot p).tgid := by simpa [Call.refused] using hok
    rw [Call.step]
    split
    · rename_i hx
      split
      · exact h.alloc hp hr hn ha hx.1 hx.2 fun _ => h.leader hp hpu hn ht.symm
      · exact hfail hx.2
    · exact h
  | kexec =>
    have ht : (s.slot p).pid = (s.slot p).tgid ∧ (s.slot p).thread_count ≤ 1 := by simpa [Call.refused] using hok
    exact h.exec hp hr hn ha (h.leader hp hpu hn ht.1.symm) ht.2
  | mmap => exact h
  | munmap => exact h
  | sbrk sz lazily => exact h.resizing hr hn (by rw [ha]; rfl) rfl
  | kexit | kwait | join => exact hgo rfl rfl

theorem Grouped.restate {st : ProcState} {chan : Option Chan} {killed : Bool}
    (hs : s'.slot = update s.slot p { s.slot p with state := st, chan := chan, killed := killed })
    (h1 : s'.nextpid = s.nextpid) (h2 : s'.nexttable = s.nexttable) (h3 : s'.maker = s.maker)
    (hst : st = (s.slot p).state ∨ ((s.slot p).live ∧ (st = .RUNNABLE ∨ st = .RUNNING ∨ st = .SLEEPING)))
    (hnew : Named s p ∨ ((s.slot p).state = .RUNNABLE ∨ (s.slot p).state = .RUNNING → st = .RUNNABLE ∨ st = .RUNNING)) :
    Grouped s' :=
  (Calm.slot hs h1 h2 h3 rfl rfl (.inl rfl) rfl (.inl rfl) (hst.imp id .inl) (.inl rfl)
    (hnew.imp id fun hx => ⟨rfl, hx⟩)).grouped h

theorem Grouped.next (hO : Owned s) {e : SmpEvent} (hP : Patient e s) : Grouped (e.next s) := by
  cases e with
  | schedule c p =>
    rw [SmpEvent.next]
    split
    · rename_i hx
      exact h.restate rfl rfl rfl rfl (.inr ⟨.inl hx.2.2, .inr (.inl rfl)⟩) (.inr fun _ => .inr rfl)
    · exact h
  | yield c =>
    rw [SmpEvent.next]
    split
    · exact h
    · rename_i p hc
      split
      · exact h
      · exact h.restate rfl rfl rfl rfl (.inr ⟨.inr (.inl (hO.run c p hc).2), .inl rfl⟩) (.inr fun _ => .inl rfl)
  | sleep c chan =>
    rw [SmpEvent.next]
    split
    · exact h
    · rename_i p hc
      have hr := (hO.run c p hc).2
      split
      · exact h.restate rfl rfl rfl rfl (.inr ⟨.inr (.inl hr), .inr (.inr rfl)⟩)
          (.inl (h.named_of_fresh hr (hP.2 p hc)))
      · exact h
  | wakeup c chan p =>
    rw [SmpEvent.next]
    split
    · rename_i hx
      exact h.restate rfl rfl rfl rfl (.inr ⟨.inr (.inr hx.2.2.1), .inl rfl⟩) (.inr fun _ => .inl rfl)
    · exact h
  | kkill pid p =>
    rw [SmpEvent.next]
    split
    · refine h.restate rfl rfl rfl rfl ?_ (.inr fun hst => ?_) <;> split
      · rename_i hst
        exact .inr ⟨.inr (.inr hst), .inl rfl⟩
      · exact .inl rfl
      · exact .inl rfl
      · exact hst
    · exact h
  | call c sc =>
    rw [SmpEvent.next]
    split
    · exact h
    · rename_i p hc
      split
      · rename_i hx
        exact h.call hO hc hP hx.1 hx.2
      · exact h
  | step c fail =>
    rw [SmpEvent.next]
    split
    · exact h
    · rename_i p hc
      exact h.step hO hc hP

end

theorem Grouped.start (slot : Nat → Slot) : Grouped (Smp.start slot) := by
  have h0 : ∀ {i}, ((Smp.start slot).slot i).used → i = 0 := fun {i} hu => by
    by_contra hi
    simp [Smp.start, Slot.used, hi] at hu
  have hU : Under (Smp.start slot) 0 0 := ⟨by decide, by simp [Slot.used, Smp.start], rfl, 0, rfl, Nat.zero_lt_one, rfl⟩
  refine ⟨fun i _ j _ hi hj _ => (h0 hi).trans (h0 hj).symm, fun i _ hi => ?_, fun i _ hi => ?_, fun i _ hi => ?_,
    fun i _ hi => ?_,
    fun i _ hi _ => ?_, fun i _ hi np hx => ?_, fun l _ hx i _ _ hil hi => absurd ((h0 hi).trans (h0 hx.used).symm) hil,
    fun l _ hx => ?_⟩
  · rw [h0 hi]; exact Nat.lt_succ_self 1
  · by_cases hz : i = 0
    · exact absurd (hz ▸ hU.used) hi
    · simp [Smp.start, hz]
  · have hu : ((Smp.start slot).slot i).used := by simp [Slot.used, hi]
    rw [h0 hu] at hi
    cases hi
  · rw [h0 hi]; exact ⟨0, hU, fun hx => absurd rfl hx⟩
  · rw [h0 hi]; rfl
  · rw [h0 hi.used] at hx; cases hx
  · rw [h0 hx.used]
    refine lt_of_le_of_lt (le_of_eq (card_eq_zero.mpr (filter_eq_empty_iff.mpr fun i _ hmem => ?_)))
      Nat.zero_lt_one
    exact hmem.1 (h0 hmem.2.1)

/-! ## Who is a leader -/

def Slot.ready (q : Slot) : Prop := q.state = .RUNNABLE ∨ q.state = .RUNNING

instance Slot.decidableReady (q : Slot) : Decidable q.ready := inferInstanceAs (Decidable (_ ∨ _))

def Heads (s : Smp) (i : Nat) : Prop := ∀ t ∈ (s.slot i).table, s.maker t = i

instance (s : Smp) (i : Nat) : Decidable (Heads s i) := inferInstanceAs (Decidable (∀ t ∈ (s.slot i).table, _))

/-- A process that can run and shares its page table is the leader or has another `tgid` than `pid`. -/
def Identified (s : Smp) : Prop := ∀ i < NPROC, (s.slot i).ready → ∀ j < NPROC, j ≠ i → (s.slot j).used →
  (s.slot j).table = (s.slot i).table → Heads s i ∨ (s.slot i).pid ≠ (s.slot i).tgid

theorem Grouped.heads (h : Grouped s) (hi : i < NPROC) (hu : (s.slot i).used) : Heads s i ↔ Under s i i := by
  obtain ⟨l, hl, -⟩ := h.lead i hi hu
  obtain ⟨t, h1, -, h3⟩ := hl.made
  refine ⟨fun hx => ?_, fun hx t' ht' => ?_⟩
  · have hli : l = i := h3.symm.trans (hx t h1)
    rwa [hli] at hl
  · rw [← some.inj (h1.symm.trans ht'), h3]
    exact hl.unique hx

theorem Grouped.tgid (h : Grouped s) (hnone : (s.slot l).live → (s.slot l).act.clones = none) (hi : i < NPROC)
    (hu : (s.slot i).used) (hU : Under s i l) : (s.slot i).tgid = (s.slot l).pid := by
  rcases h.cases hi hu with hx | ⟨l', -, hx, ⟨h1, -⟩ | ⟨h1, h2⟩⟩ <;> obtain rfl := hU.unique hx
  · exact h.own l hi hu hx
  · exact h1
  · rw [hnone h1] at h2; cases h2

theorem grouped_of_trace {slot : Nat → Slot} {tr : List (SmpEvent × Smp)}
    (h : Trace SmpEvent.run Patient (Smp.start slot) tr s) : Owned s ∧ Grouped s :=
  Trace.inv (fun s => Owned s ∧ Grouped s) ⟨Owned.start slot, Grouped.start slot⟩
    (fun e _ hs hP => wp_smpEvent (e := e) ⟨(hs.1.next hP.1).1, hs.2.next hs.1 hP⟩) h

/-! ## `update_sz` -/

def Act.resizes : Act → Option Nat
  | .resize tgid _ _ => some tgid
  | _ => none

/-- Nobody in the group of `p` is in `clone`, and no other process changes the size of the group. -/
def Exclusive (s : Smp) (p : Nat) : Prop := ∀ i < NPROC, (s.slot i).live →
  ((s.slot i).table = (s.slot p).table → (s.slot i).act.clones = none) ∧
  (i ≠ p → (s.slot i).act.resizes ≠ some (s.slot p).tgid)

instance Slot.decidableLive (q : Slot) : Decidable q.live := inferInstanceAs (Decidable (_ ∨ _))

instance (s : Smp) (p : Nat) : Decidable (Exclusive s p) := inferInstanceAs (Decidable (∀ i < NPROC, _ → _))

def Undisturbed (p : Nat) (e : SmpEvent) (s : Smp) : Prop := Patient e s ∧ Exclusive s p ∧ Exclusive (e.next s) p

instance (p : Nat) (e : SmpEvent) (s : Smp) : Decidable (Undisturbed p e s) := inferInstanceAs (Decidable (_ ∧ _))

/-- If `p` is in `update_sz`, the slots of its group that the scan has passed have the new size. -/
def Resized (s : Smp) (p : Nat) : Prop := (s.slot p).used → ∀ g sz j, (s.slot p).act = .resize g sz j →
  g = (s.slot p).tgid ∧
  ∀ k < NPROC, k < j → (s.slot k).used → (s.slot k).table = (s.slot p).table → (s.slot k).sz = sz

/-- What a step leaves alone in a slot that is in use after it, if it is no round of `update_sz` of this process. -/
def Slot.Keeps (q q' : Slot) : Prop := q'.used → (q.used ∧ q'.table = q.table ∧ q'.sz = q.sz) ∧
  ∀ g sz j, q'.act = .resize g sz j → q.act = .resize g sz j ∧ q'.tgid = q.tgid

def KeepsSlots (s s' : Smp) : Prop := ∀ k, (s.slot k).Keeps (s'.slot k)

theorem Slot.Keeps.same {q' : Slot} (hu : q'.used → q.used) (ht : q'.table = q.table) (hz : q'.sz = q.sz)
    (hg : q'.tgid = q.tgid) (ha : q'.act = q.act) : q.Keeps q' := fun h => ⟨⟨hu h, ht, hz⟩, fun _ _ _ hx => ⟨ha ▸ hx, hg⟩⟩

theorem Slot.Keeps.refl (q : Slot) : q.Keeps q := .same id rfl rfl rfl rfl

theorem Slot.Keeps.of_act {q' : Slot} (hu : q'.used → q.used) (ht : q'.table = q.table) (hz : q'.sz = q.sz)
    (ha : q'.act.resizes = none) : q.Keeps q' :=
  fun h => ⟨⟨hu h, ht, hz⟩, fun _ _ _ hx => by rw [hx] at ha; cases ha⟩

theorem KeepsSlots.put {s₀ : Smp} (h : KeepsSlots s₀ s) (hq : (s.slot i).Keeps q) : KeepsSlots s₀ (s.put i q) := fun k => by
  by_cases hk : k = i
  · rw [hk, put_self]
    intro hu
    obtain ⟨⟨h1, h2, h3⟩, h4⟩ := hq hu
    obtain ⟨⟨h5, h6, h7⟩, h8⟩ := h i h1
    refine ⟨⟨h5, h2.trans h6, h3.trans h7⟩, fun g sz j hx => ?_⟩
    obtain ⟨hx, hg⟩ := h4 g sz j hx
    obtain ⟨hx, hg'⟩ := h8 g sz j hx
    exact ⟨hx, hg.trans hg'⟩
  · rw [put_ne hk]; exact h k

theorem KeepsSlots.refl (s : Smp) : KeepsSlots s s := fun _ => Slot.Keeps.refl _

theorem KeepsSlots.goto {s₀ : Smp} (h : KeepsSlots s₀ s) (ha : a.resizes = none) : KeepsSlots s₀ (s.goto i a) :=
  h.put (.of_act id rfl rfl ha)

theorem KeepsSlots.sched {s₀ : Smp} (h : KeepsSlots s₀ s) (hu : (s.slot i).used) : KeepsSlots s₀ (s.sched c i st chan) :=
  h.put (.same (fun _ => hu) rfl rfl rfl rfl)

theorem KeepsSlots.freeproc (s : Smp) (i : Nat) : KeepsSlots s (s.freeproc i) := (refl s).put fun hu => absurd rfl hu

theorem Resized.keep (h : Resized s p) (hp : (s.slot p).Keeps (s'.slot p))
    (hk : (s.slot p).used → ∀ k < NPROC, k ≠ p → (s'.slot k).used → (s'.slot k).table = (s'.slot p).table →
      (s.slot k).used ∧ (s'.slot k).table = (s.slot k).table ∧ (s'.slot k).sz = (s.slot k).sz) : Resized s' p := by
  intro hu g sz j ha
  obtain ⟨⟨hu', ht, hz⟩, hact⟩ := hp hu
  obtain ⟨ha', hg⟩ := hact g sz j ha
  obtain ⟨hgp, hall⟩ := h hu' g sz j ha'
  refine ⟨hgp.trans hg.symm, fun k hk' hkj huk htk => ?_⟩
  obtain ⟨huk', htk', hzk⟩ : (s.slot k).used ∧ (s'.slot k).table = (s.slot k).table ∧ (s'.slot k).sz = (s.slot k).sz := by
    by_cases hkp : k = p
    · rw [hkp]; exact ⟨hu', ht, hz⟩
    · exact hk hu' k hk' hkp huk htk
  rw [hzk]
  exact hall k hk' hkj huk' (by rw [← htk', ← ht]; exact htk)

theorem Resized.of_slots (h : Resized s p) (hk : KeepsSlots s s') : Resized s' p :=
  h.keep (hk p) fun _ k _ _ hu _ => (hk k hu).1

theorem Resized.of_act (ha : (s.slot p).act.resizes = none) : Resized s p := fun _ _ _ _ hx => by rw [hx] at ha; cases ha

theorem Exclusive.tgid (hA : Exclusive s p) (hG : Grouped s) (hp : p < NPROC) (hu : (s.slot p).used) (hi : i < NPROC)
    (hui : (s.slot i).used) (ht : (s.slot i).table = (s.slot p).table) : (s.slot i).tgid = (s.slot p).tgid := by
  obtain ⟨l, hl, -⟩ := hG.lead p hp hu
  have hnone : (s.slot l).live → (s.slot l).act.clones = none := fun hx => (hA l hl.slot hx).1 hl.table
  rw [hG.tgid hnone hi hui (hl.self.of_table (ht.trans hl.table.symm)), hG.tgid hnone hp hu hl]

theorem resizing_slot {w : Prop} [Decidable w] {n : Nat} (k : Nat) :
    ((if w then s.put j { s.slot j with sz := n } else s).goto i a).slot k =
      { s.slot k with sz := if w ∧ k = j then n else (s.slot k).sz, act := if k = i then a else (s.slot k).act } := by
  by_cases hw : w <;> by_cases hki : k = i <;> by_cases hkj : k = j <;>
    simp [Smp.goto, Smp.put, update_apply, hw, hki, hkj] <;> simp_all

theorem Grouped.table_ne (hG : Grouped s) (hp : p < NPROC) (hu : (s.slot p).used) : (s.slot p).table ≠ some s.nexttable :=
  fun hx => by
    obtain ⟨l, hl, -⟩ := hG.lead p hp hu
    obtain ⟨t, h1, h2, -⟩ := hl.made
    rw [hx] at h1
    cases h1
    exact lt_irrefl _ h2

section
variable (h : Resized s p) (hG : Grouped s) (hp : p < NPROC)
include h hG hp

theorem Resized.make {thread : Bool} (hi : i < NPROC) (hr : (s.slot i).state = .RUNNING) (hnu : (s.slot np).state = .UNUSED)
    (hA' : Exclusive ((s.alloc i np thread).goto i (.link np thread)) p) :
    Resized ((s.alloc i np thread).goto i (.link np thread)) p := by
  have hin : np ≠ i := fun he => by rw [he, hr] at hnu; cases hnu
  have hself : ((s.alloc i np thread).goto i (.link np thread)).slot np = (s.alloc i np thread).slot np := goto_ne hin
  have hnew : (s.alloc i np thread).slot np = _ := put_self
  have hold : ∀ k ≠ np, (s.slot k).Keeps (((s.alloc i np thread).goto i (.link np thread)).slot k) ∧
      (((s.alloc i np thread).goto i (.link np thread)).slot k).table = (s.slot k).table ∧
      (((s.alloc i np thread).goto i (.link np thread)).slot k).state = (s.slot k).state := fun k hk => by
    by_cases hki : k = i
    · rw [hki, goto_self, show (s.alloc i np thread).slot i = s.slot i from put_ne hin.symm]
      exact ⟨.of_act id rfl rfl rfl, rfl, rfl⟩
    · rw [goto_ne hki, show (s.alloc i np thread).slot k = s.slot k from put_ne hk]
      exact ⟨.refl _, rfl, rfl⟩
  by_cases hpn : p = np
  · exact .of_act (by rw [hpn, hself, hnew]; rfl)
  · refine h.keep (hold p hpn).1 fun hu k _ _ huk htk => ?_
    by_cases hk : k = np
    · rw [hk, hself, hnew, (hold p hpn).2.1] at htk
      cases thread with
      | true =>
        -- the caller is in the group of `p`, and now in `clone`
        have hnone := (hA' i hi (.inr (.inl (by rw [(hold i hin.symm).2.2, hr])))).1
          (by rw [(hold i hin.symm).2.1, (hold p hpn).2.1]; exact htk)
        rw [goto_act] at hnone
        cases hnone
      | false => exact absurd htk.symm (hG.table_ne hp hu)
    · exact ((hold k hk).1 huk).1

variable (hA : Exclusive s p)
include hA

/-- A round of `update_sz`, or what `sbrk` does before it, of a process other than `p`. -/
theorem Resized.others {w : Prop} [Decidable w] {n : Nat} (hip : p ≠ i) (hj : j < NPROC)
    (hg : w → (s.slot p).used → (s.slot j).tgid ≠ (s.slot p).tgid) :
    Resized ((if w then s.put j { s.slot j with sz := n } else s).goto i a) p := by
  have hslot := resizing_slot (s := s) (w := w) (j := j) (n := n) (i := i) (a := a)
  have hkeep : ∀ k, (s.slot p).used → (s.slot k).table = (s.slot p).table → (s.slot k).used → ¬ (w ∧ k = j) := by
    rintro k hu ht huk ⟨hw, rfl⟩
    exact hg hw hu (hA.tgid hG hp hu hj huk ht)
  refine h.keep ?_ fun hu k _ _ huk htk => ?_
  · rw [hslot p, if_neg hip]
    exact fun hu => ⟨⟨hu, rfl, if_neg (hkeep p hu rfl hu)⟩, fun _ _ _ hx => ⟨hx, rfl⟩⟩
  · rw [hslot k, hslot p] at htk
    rw [hslot k] at huk ⊢
    exact ⟨huk, rfl, if_neg (hkeep k hu htk huk)⟩

variable (hi : i < NPROC) (hr : (s.slot i).state = .RUNNING)
include hi hr

theorem Resized.call {sc : Call} (ha : (s.slot i).act = .user) (hA' : Exclusive (sc.step s i) p) :
    Resized (sc.step s i) p := by
  have hlive : (s.slot i).live := .inr (.inl hr)
  have hfail : ∀ {np thread}, (s.slot np).state = .UNUSED → Resized ((s.alloc i np thread).freeproc np) p :=
    fun {np thread} hu => by
    have hslot : ((s.alloc i np thread).freeproc np).slot = update s.slot np ((s.alloc i np thread).slot np).free :=
      update_idem ..
    refine h.of_slots fun k => ?_
    rw [hslot]
    by_cases hk : k = np
    · rw [hk, update_self]; exact fun hu => absurd rfl hu
    · rw [update_of_ne hk]; exact .refl _
  cases sc with
  | kfork np ok | clone np ok =>
    rw [Call.step] at hA' ⊢
    split
    · rename_i hx
      rw [if_pos hx] at hA'
      cases ok with
      | true => exact h.make hG hp hi hr hx.2 hA'
      | false => exact hfail hx.2
    · exact h
  | kexec =>
    have hne : ∀ {k}, k ≠ i → ((Call.kexec.step s i)).slot k = s.slot k := fun hk => put_ne hk
    have hself : (Call.kexec.step s i).slot i = { s.slot i with table := some s.nexttable } := put_self
    by_cases hpi : p = i
    · exact .of_act (by rw [hpi, hself, ha]; rfl)
    · refine h.keep (by rw [hne hpi]; exact .refl _) fun hu k _ _ huk htk => ?_
      rw [hne hpi] at htk
      by_cases hk : k = i
      · rw [hk, hself] at htk
        exact absurd htk.symm (hG.table_ne hp hu)
      · rw [hne hk] at huk ⊢
        exact ⟨huk, rfl, rfl⟩
  | mmap | munmap => exact h
  | sbrk sz lazily =>
    rw [Call.step] at hA' ⊢
    by_cases hpi : p = i
    · intro _ g n j hx
      rw [resizing_slot, hpi] at hx
      rw [resizing_slot, hpi]
      obtain ⟨rfl, -, rfl⟩ : (s.slot i).tgid = g ∧ sz = n ∧ 0 = j := by simpa using hx
      exact ⟨rfl, fun k _ hk => absurd hk (Nat.not_lt_zero k)⟩
    · refine h.others hG hp hA hpi hi fun _ _ hg => (hA' i hi ?_).2 (Ne.symm hpi) ?_
      · rw [resizing_slot]; exact hlive
      · rw [resizing_slot, resizing_slot, ← hg]; simp [Act.resizes]
  | kexit | kwait | join => exact h.of_slots ((KeepsSlots.refl s).goto rfl)

theorem Resized.step {fail : Bool} (hO : Owned s) (hc : s.cpu c = some i) :
    Resized ((s.slot i).act.step fail s c i) p := by
  have hlive : (s.slot i).live := .inr (.inl hr)
  have hgo : ∀ {a : Act}, a.resizes = none → Resized (s.goto i a) p := fun ha =>
    h.of_slots ((KeepsSlots.refl s).goto ha)
  cases ha : (s.slot i).act with
  | user => exact h
  | link np thread =>
    rw [Act.step]
    split
    · exact h
    · exact h.of_slots (.goto (.put (.refl s) (.same id rfl rfl rfl rfl)) rfl)
  | publish np thread =>
    obtain ⟨-, hu⟩ := hO.child i hi hlive np (by rw [ha]; rfl)
    rw [Act.step]
    refine h.of_slots (.goto (.put (.refl s) (.same (fun _ => ?_) rfl rfl rfl rfl)) ?_)
    · simp [Slot.used, hu]
    · split <;> rfl
  | count np =>
    rw [Act.step]
    exact h.of_slots (.goto (.put (.refl s) (.same id rfl rfl rfl rfl)) rfl)
  | name np =>
    have hnp := (hG.clone i hi hlive np (by rw [ha]; rfl)).act
    rw [Act.step]
    exact h.of_slots (.goto (.put (.refl s) (.of_act id rfl rfl (by rw [hnp]; rfl))) rfl)
  | exiting | waiting thread =>
    rw [Act.step]
    split
    · exact h
    · exact hgo rfl
  | reparent pp =>
    rw [Act.step]
    split
    · refine h.of_slots (.goto ?_ rfl)
      unfold Smp.adopt
      split
      · split
        · exact .put (.freeproc s pp) (.same id rfl rfl rfl rfl)
        · exact .put (.refl s) (.same id rfl rfl rfl rfl)
      · exact .refl s
    · exact hgo rfl
  | zombie => exact h.of_slots (.sched (.refl s) hlive.used)
  | scan thread pp havekids =>
    rw [Act.step]
    split
    · split
      · split
        · split
          · exact hgo rfl
          · refine h.of_slots (.goto ?_ rfl)
            unfold Smp.reap
            split
            · exact .put (.freeproc s pp) (.same id rfl rfl rfl rfl)
            · exact .freeproc s pp
        · exact hgo rfl
      · exact hgo rfl
    · split
      · exact hgo rfl
      · refine h.of_slots (.sched (.goto (.refl s) rfl) ?_)
        rw [goto_self]
        exact hlive.used
  | resize g n j =>
    rw [Act.step]
    split
    · rename_i hj
      by_cases hpi : p = i
      · subst hpi
        intro hu g' n' j' hx
        rw [resizing_slot] at hu hx
        obtain ⟨rfl, rfl, rfl⟩ : g = g' ∧ n = n' ∧ j + 1 = j' := by simpa using hx
        obtain ⟨hg, hall⟩ := h hu g n j ha
        refine ⟨by rw [resizing_slot]; exact hg, fun k hk hkj huk htk => ?_⟩
        rw [resizing_slot] at huk
        rw [resizing_slot, resizing_slot] at htk
        rw [resizing_slot]
        -- slot `j` is in the group, so this round writes it
        by_cases hkj' : k = j
        · rw [if_pos ⟨hkj' ▸ (hA.tgid hG hp hu hk huk htk).trans hg.symm, hkj'⟩]
        · rw [if_neg fun hx => hkj' hx.2]
          exact hall k hk (by omega) huk htk
      · refine h.others hG hp hA hpi hj fun hw _ hg => (hA i hi hlive).2 (Ne.symm hpi) ?_
        rw [ha, ← hg, hw, Act.resizes]
    · exact hgo rfl

omit hi hr in
theorem Resized.next (hO : Owned s) {e : SmpEvent} (hA' : Exclusive (e.next s) p) : Resized (e.next s) p := by
  have hrun : ∀ {c i}, s.cpu c = some i → (s.slot i).used := fun hc => by simp [Slot.used, (hO.run _ _ hc).2]
  cases e with
  | schedule c i =>
    rw [SmpEvent.next]
    split
    · rename_i hx
      exact h.of_slots (.put (.refl s) (.same (fun _ => by simp [Slot.used, hx.2.2]) rfl rfl rfl rfl))
    · exact h
  | yield c =>
    rw [SmpEvent.next]
    split
    · exact h
    · rename_i i hc
      split
      · exact h
      · exact h.of_slots (.sched (.refl s) (hrun hc))
  | sleep c chan =>
    rw [SmpEvent.next]
    split
    · exact h
    · rename_i i hc
      split
      · exact h.of_slots (.sched (.refl s) (hrun hc))
      · exact h
  | wakeup c chan i =>
    rw [SmpEvent.next]
    split
    · rename_i hx
      exact h.of_slots (.put (.refl s) (.same (fun _ => by simp [Slot.used, hx.2.2.1]) rfl rfl rfl rfl))
    · exact h
  | kkill pid i =>
    rw [SmpEvent.next]
    split
    · refine h.of_slots (.put (.refl s) (.same (fun hu hx => hu ?_) rfl rfl rfl rfl))
      simp [hx]
    · exact h
  | call c sc =>
    rw [SmpEvent.next] at hA' ⊢
    cases hc : s.cpu c with
    | none => exact h
    | some i =>
      obtain ⟨hi, hr⟩ := hO.run c i hc
      rw [hc] at hA'
      dsimp only at hA' ⊢
      split
      · rename_i hx
        rw [if_pos hx] at hA'
        exact h.call hG hp hA hi hr hx.1 hA'
      · exact h
  | step c fail =>
    rw [SmpEvent.next]
    cases hc : s.cpu c with
    | none => exact h
    | some i =>
      obtain ⟨hi, hr⟩ := hO.run c i hc
      exact h.step hG hp hA hi hr hO hc

end

/-- As long as no thread does anything before its `clone` is done with it, processes know what they are except while a
`clone` is between making its thread runnable and setting its `tgid`; a thread is then refused what only leaders may do.
The rounds of an `sbrk` reach the whole group if meanwhile nobody in the group is in `clone` or in another `sbrk`. -/
theorem thread_identity {slot : Nat → Slot} {tr : List (SmpEvent × Smp)}
    (h : Trace SmpEvent.run Patient (Smp.start slot) tr s) :
    (Identified s ↔ ∀ p < NPROC, (s.slot p).live → ∀ np, (s.slot p).act ≠ .count np ∧ (s.slot p).act ≠ .name np) ∧
    (∀ i < NPROC, (s.slot i).ready → ∀ j < NPROC, j ≠ i → (s.slot j).used → (s.slot j).table = (s.slot i).table →
      ¬ Heads s i →
      Identified s → ∀ np ok, ∀ sc ∈ [.kfork np ok, .clone np ok, .kexec, .mmap, .munmap],
      Call.refused (s.slot i) sc = true) ∧
    ∀ i < NPROC, (s.slot i).act = .user → ∀ tr' s' tgid sz, Trace SmpEvent.run (Undisturbed i) s tr' s' →
      (s'.slot i).used → (s'.slot i).act = .resize tgid sz NPROC →
      ∀ k < NPROC, (s'.slot k).used → (s'.slot k).table = (s'.slot i).table → (s'.slot k).sz = sz := by
  obtain ⟨hO, hG⟩ := grouped_of_trace h
  have hused : ∀ {q : Slot}, q.ready → q.used := fun hr => by rcases hr with hx | hx <;> simp [Slot.used, hx]
  refine ⟨⟨fun hId p hp hl np => ?_, fun hno i hi hr j hj hji huj ht => ?_⟩,
    fun i hi hr j hj hji huj ht hnl hId np ok sc hsc => ?_, fun i hi ha tr' s' tgid sz htr hu hact k hk huk htk => ?_⟩
  · have hwin : (s.slot p).act.clones = some np → (s.slot p).act.makes = none → False := fun hcl hm => by
      have hC := hG.clone p hp hl np hcl
      have hnr : (s.slot np).ready := by
        have hS := hC.stage
        cases ha : (s.slot p).act <;> rw [ha] at hS hm <;> first | exact hS.1 | cases hm
      rcases hId np hC.slot hnr p hp hC.ne.symm hl.used hC.under.table with hx | hx
      · exact hC.not_lead ((hG.heads hC.slot hC.used).mp hx)
      · exact hx hC.tgid.symm
    exact ⟨fun ha => hwin (by rw [ha]; rfl) (by rw [ha]; rfl), fun ha => hwin (by rw [ha]; rfl) (by rw [ha]; rfl)⟩
  · rw [hG.heads hi (hused hr)]
    rcases hG.cases hi (hused hr) with hx | ⟨l, hne, hx, ⟨h1, -⟩ | ⟨h1, h2⟩⟩
    · exact Or.inl hx
    · exact Or.inr fun he => hne (hG.pid l hx.slot i hi hx.used (hused hr) (h1.symm.trans he.symm))
    · have hS := (hG.clone l hx.slot h1 i h2).stage
      obtain ⟨hc1, hc2⟩ := hno l hx.slot h1 i
      cases ha : (s.slot l).act with
      | link | publish => rw [ha] at hS; rcases hr with hy | hy <;> rw [hS.1] at hy <;> cases hy
      | count x => rw [ha] at h2 hc1; cases h2; exact absurd rfl hc1
      | name x => rw [ha] at h2 hc2; cases h2; exact absurd rfl hc2
      | _ => rw [ha] at h2; cases h2
  · have hpt := (hId i hi hr j hj hji huj ht).resolve_left hnl
    simp only [List.mem_cons, List.not_mem_nil, or_false] at hsc
    rcases hsc with rfl | rfl | rfl | rfl | rfl <;> simp [Call.refused, hpt]
  · have hR := (htr.inv (fun s => Owned s ∧ Grouped s ∧ Resized s i)
      ⟨hO, hG, .of_act (by rw [ha]; rfl)⟩ fun e s hs hP => wp_smpEvent (e := e)
        ⟨(hs.1.next hP.1.1).1, hs.2.1.next hs.1 hP.1, hs.2.2.next hs.2.1 hi hP.2.1 hs.1 hP.2.2⟩).2.2
    exact (hR hu tgid sz NPROC hact).2 k hk hk huk htk

end

def clonedThread (n : Nat) : List SmpEvent :=
  [.schedule 0 0, .call 0 (.clone 1 true)] ++ List.replicate n (.step 0 false) ++ [.schedule 1 1]

theorem thread_identity_cloned : ∃ (tr tr' : List (SmpEvent × Smp)) (s s' : Smp),
    Trace SmpEvent.run Patient (Smp.start fun _ => blankSlot) tr s ∧ s.cpu 1 = some 1 ∧ Identified s ∧
    (s.slot 1).table = (s.slot 0).table ∧ Call.kexec.refused (s.slot 1) = true ∧
    Trace SmpEvent.run (Undisturbed 1) s tr' s' ∧ (s'.slot 1).act = .resize 1 5 NPROC ∧ (s'.slot 0).sz = 5 := by
  have hrun : (runs SmpEvent.run Patient (clonedThread 4) (Smp.start fun _ => blankSlot)).map (fun s =>
      (s.cpu 1, decide (∀ p < NPROC, (s.slot p).act.clones = none),
        decide ((s.slot 1).ready ∧ (s.slot 1).act = .user ∧ (s.slot 0).used ∧ (s.slot 0).table = (s.slot 1).table ∧
          ¬ Heads s 1),
        (runs SmpEvent.run (Undisturbed 1) (.call 1 (.sbrk 5 true) :: List.replicate NPROC (.step 1 false)) s).map fun s =>
          decide ((s.slot 1).act = .resize 1 5 NPROC ∧ (s.slot 0).used ∧ (s.slot 1).used ∧
            (s.slot 0).table = (s.slot 1).table))) =
      some (some 1, true, true, some true) := by
    decide +kernel
  obtain ⟨tr, s, htr, hl⟩ := Trace.of_map hrun
  simp only [Prod.mk.injEq, decide_eq_true_eq] at hl
  obtain ⟨hcpu, hnone, ⟨hready, hact, hused, htab, hlead⟩, hresize⟩ := hl
  obtain ⟨tr', s', htr', hl⟩ := Trace.of_map hresize
  obtain ⟨hact', hused', hused₁, htab'⟩ := of_decide_eq_true hl
  obtain ⟨hId, hrefused, hsz⟩ := thread_identity htr
  have hId' : Identified s := hId.mpr fun p hp _ np => by
    constructor <;> intro ha <;> have hx := hnone p hp <;> rw [ha] at hx <;> cases hx
  have hkexec := hrefused 1 (by decide) hready 0 (by decide) (by decide) hused htab hlead hId' 2 true .kexec (by simp)
  exact ⟨tr, tr', s, s', htr, hcpu, hId', htab.symm, hkexec, htr', hact',
    hsz 1 (by decide) hact tr' s' 1 5 htr' hused₁ hact' 0 (by decide) hused' htab'⟩

/-- CPU 1 runs a thread whose `tgid` is not set yet: it passes for a leader, and `exec` and `fork` are not refused. -/
theorem thread_unnamed : ∃ (tr : List (SmpEvent × Smp)) (s : Smp),
    Trace SmpEvent.run Patient (Smp.start fun _ => blankSlot) tr s ∧ s.cpu 1 = some 1 ∧ ¬ Identified s ∧
    ¬ Heads s 1 ∧ Call.kexec.refused (s.slot 1) = false ∧ (Call.kfork 2 true).refused (s.slot 1) = false := by
  have hrun : (runs SmpEvent.run Patient (clonedThread 2) (Smp.start fun _ => blankSlot)).map (fun s =>
      (s.cpu 1, decide (Heads s 1), Call.kexec.refused (s.slot 1), (Call.kfork 2 true).refused (s.slot 1),
        decide ((s.slot 1).ready ∧ (s.slot 0).used ∧ (s.slot 0).table = (s.slot 1).table ∧
          (s.slot 1).pid = (s.slot 1).tgid))) =
      some (some 1, false, false, false, true) := by
    decide +kernel
  obtain ⟨tr, s, htr, hl⟩ := Trace.of_map hrun
  simp only [Prod.mk.injEq, decide_eq_false_iff_not, decide_eq_true_eq] at hl
  obtain ⟨hcpu, hlead, hexec, hfork, hready, hused, htab, hpid⟩ := hl
  refine ⟨tr, s, htr, hcpu, fun hId => ?_, hlead, hexec, hfork⟩
  exact (hId 1 (by decide) hready 0 (by decide) (by decide) hused htab).elim hlead fun hx => hx hpid

end Xv6
