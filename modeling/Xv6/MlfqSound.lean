import Xv6.Mlfq
import Xv6.TableSound

/-!
# The scheduler picks the first of the best, and the boost lets everybody run

The pair of priority and used ticks is always one that `mlfq_tick` can leave.
One scan picks a process of least priority, the first in the table, with no
lock but its own. After a boost every process that stays runnable is picked
once before any is picked twice.
-/

namespace Xv6

open Hoare Function List Finset

/-! ## Levels -/

/-- `0 <= priority < NMLFQ` and `0 <= ticks_used <` the slice of the priority. -/
def More.fits (m : More) : Prop :=
  0 ≤ m.priority ∧ m.priority < NMLFQ ∧ 0 ≤ m.ticks_used ∧ m.ticks_used < mlfq_slice.getD m.priority.toNat 0

theorem fits_setLevel {m : More} {priority : Int} (h0 : 0 ≤ priority) (h4 : priority < NMLFQ) :
    (m.setLevel priority).fits := by
  refine ⟨h0, h4, Int.le_refl 0, ?_⟩
  change 0 < mlfq_slice.getD priority.toNat 0
  obtain rfl | rfl | rfl | rfl : priority = 0 ∨ priority = 1 ∨ priority = 2 ∨ priority = 3 := by
    lia
  all_goals decide

theorem level_eq {m : More} (h0 : 0 ≤ m.priority) (h4 : m.priority < NMLFQ) : m.level = m.priority := by
  unfold More.level
  rw [if_neg (Int.not_lt.mpr h0), if_neg (Int.not_le.mpr h4)]

theorem fits_tick {m : More} (h : m.fits) : m.tick.fits := by
  obtain ⟨h0, h4, ht0, ht⟩ := h
  unfold More.tick
  rw [level_eq h0 h4]
  split
  · refine (fits_setLevel (m := m) ?_ ?_)
    · split <;> omega
    · split <;> lia
  · rename_i hs
    exact ⟨h0, h4, Int.le_add_one ht0, Int.not_le.mp hs⟩

theorem fits_same {m m' : More} (h : m.fits) (hp : m'.priority = m.priority) (ht : m'.ticks_used = m.ticks_used) :
    m'.fits := by
  unfold More.fits
  rw [hp, ht]
  exact h

def Levels (m : Nat → More) : Prop := ∀ j, (m j).fits

section
variable {s : Smp} {m : Nat → More} {p : Nat}

theorem Levels.update (h : Levels m) {x : More} (hx : x.fits) : Levels (Function.update m p x) := by
  intro j
  by_cases hj : j = p
  · rw [hj, update_self]
    exact hx
  · rw [update_of_ne hj]
    exact h j

theorem Levels.call (h : Levels m) (sc : Call) : Levels (sc.more s m p) := by
  have hmake : ∀ np ok, Levels (Call.make s m p np ok) := by
    intro np ok
    unfold Call.make
    split
    · refine h.update ?_
      cases ok <;> exact fits_same (fits_setLevel (m := m np) (Int.le_refl 0) (by decide)) rfl rfl
    · exact h
  cases sc with
  | kfork np ok | clone np ok => exact hmake np ok
  | _ => exact h

theorem Levels.step (h : Levels m) (a : Act) (fail : Bool) (status : Int) : Levels (a.more s m p fail status) := by
  have hsame : ∀ {j x}, x.priority = (m j).priority → x.ticks_used = (m j).ticks_used → Levels (Function.update m j x) :=
    fun hp ht => h.update (fits_same (h _) hp ht)
  cases a with
  | exiting =>
    rw [Act.more]
    split
    · exact h
    · exact hsame rfl rfl
  | reparent pp =>
    rw [Act.more]
    split
    · exact hsame rfl rfl
    · exact h
  | zombie => exact hsame rfl rfl
  | scan thread pp havekids =>
    rw [Act.more]
    split
    · exact hsame rfl rfl
    · exact h
  | _ => exact h

theorem Levels.smp (h : Levels m) (e : SmpEvent) (status : Int) : Levels (e.more s m status) := by
  cases e with
  | wakeup c chan p =>
    rw [SmpEvent.more]
    split
    · exact h.update (fits_setLevel (Int.le_refl 0) (by decide))
    · exact h
  | call c sc =>
    rw [SmpEvent.more]
    split
    · exact h
    · split
      · exact h.call sc
      · exact h
  | step c fail =>
    rw [SmpEvent.more]
    split
    · exact h
    · exact h.step _ fail status
  | _ => exact h

end

theorem levels_own {t : Table} (h : Levels t.more) {c : Nat} {f : Nat → Table} (hf : ∀ p, Levels (f p).more) :
    Levels (t.own c f).more := by
  unfold Table.own
  split
  · exact h
  · split
    · exact hf _
    · exact h

theorem levels_next {t : Table} (h : Levels t.more) (e : TableEvent) : Levels (e.next t).more := by
  have hsame : ∀ {p x}, x.priority = (t.more p).priority → x.ticks_used = (t.more p).ticks_used →
    Levels (t.setMore p x).more :=
    fun hp ht => h.update (fits_same (h _) hp ht)
  cases e with
  | smp e status => exact h.smp e status
  | kkill pid p =>
    rw [TableEvent.next]
    split <;> exact h
  | setpriority pid priority p =>
    rw [TableEvent.next]
    split
    · exact h
    · rename_i hp
      obtain ⟨h0, h4⟩ := not_or.mp hp
      split
      · exact h.update (fits_setLevel (Int.not_lt.mp h0) (Int.not_le.mp h4))
      · exact h
  | mlfq_tick c =>
    rw [TableEvent.next]
    split
    · exact h
    · exact h.update (fits_tick (h _))
  | mlfq_boost p =>
    rw [TableEvent.next]
    split
    · exact h.update (fits_setLevel (Int.le_refl 0) (by decide))
    · exact h
  | setkilled c =>
    rw [TableEvent.next]
    split <;> exact h
  | setOfile c fd f | setCwd c ip | setVma c i used => exact levels_own h fun p => hsame rfl rfl
  | setSz c sz => exact levels_own h fun p => h

theorem levels_start (root : Nat) : Levels (Table.start root).more := by
  intro j
  unfold Table.start
  dsimp only
  split <;> exact fits_same (fits_setLevel (m := More.zero) (Int.le_refl 0) (by decide)) rfl rfl

theorem levels_trace {root : Nat} {tr : List (TableEvent × Table)} {t : Table}
    (h : Trace TableEvent.run (fun _ _ => True) (Table.start root) tr t) : Levels t.more :=
  h.inv (fun t => Levels t.more) (levels_start root) fun e _ hi _ => wp_tableEvent (levels_next hi e)

theorem tick_at {m : More} {k : Int} (slice : Int) (hk : m.priority = k) (h0 : 0 ≤ k) (h4 : k < NMLFQ)
    (hs : mlfq_slice.getD k.toNat 0 = slice) :
    (slice ≤ m.ticks_used + 1 → m.tick.priority = (if k < NMLFQ - 1 then k + 1 else k) ∧ m.tick.ticks_used = 0) ∧
      (m.ticks_used + 1 < slice → m.tick.priority = k ∧ m.tick.ticks_used = m.ticks_used + 1) := by
  subst hk
  subst hs
  unfold More.tick
  rw [level_eq h0 h4]
  refine ⟨fun h => ?_, fun h => ?_⟩
  · rw [if_pos h]
    exact ⟨rfl, rfl⟩
  · rw [if_neg (Int.not_le.mpr h)]
    exact ⟨rfl, rfl⟩

def Demoted (n : Nat) (m : More) : Prop :=
  n = 0 ∧ m.priority = 0 ∧ m.ticks_used = 0 ∨
  1 ≤ n ∧ n < 3 ∧ m.priority = 1 ∧ m.ticks_used = n - 1 ∨
  3 ≤ n ∧ n < 7 ∧ m.priority = 2 ∧ m.ticks_used = n - 3 ∨
  7 ≤ n ∧ m.priority = 3

theorem Demoted.tick {n : Nat} {m : More} (h : Demoted n m) : Demoted (n + 1) m.tick := by
  rcases h with ⟨rfl, hp, ht⟩ | ⟨h1, h3, hp, ht⟩ | ⟨h3, h7, hp, ht⟩ | ⟨h7, hp⟩
  · obtain ⟨hp', ht'⟩ := (tick_at 1 hp (by decide) (by decide) rfl).1 (by omega)
    exact .inr (.inl ⟨by omega, by omega, hp', by omega⟩)
  · obtain ⟨hu, hs⟩ := tick_at 2 hp (by decide) (by decide) rfl
    by_cases hn : n = 1
    · obtain ⟨hp', ht'⟩ := hs (by omega)
      exact .inr (.inl ⟨by omega, by omega, hp', by omega⟩)
    · obtain ⟨hp', ht'⟩ := hu (by omega)
      exact .inr (.inr (.inl ⟨by omega, by omega, hp', by omega⟩))
  · obtain ⟨hu, hs⟩ := tick_at 4 hp (by decide) (by decide) rfl
    by_cases hn : n = 6
    · obtain ⟨hp', ht'⟩ := hu (by omega)
      exact .inr (.inr (.inr ⟨by omega, hp'⟩))
    · obtain ⟨hp', ht'⟩ := hs (by omega)
      exact .inr (.inr (.inl ⟨by omega, by omega, hp', by omega⟩))
  · -- at the bottom a full slice starts the next one
    obtain ⟨hu, hs⟩ := tick_at 8 hp (by decide) (by decide) rfl
    refine .inr (.inr (.inr ⟨by omega, ?_⟩))
    by_cases hfull : 8 ≤ m.ticks_used + 1
    · exact (hu hfull).1
    · exact (hs (by omega)).1

theorem demoted_ticks {m : More} (hp : m.priority = 0) (hf : m.fits) (n : Nat) : Demoted n (More.tick^[n] m) := by
  induction n with
  | zero =>
    have ht : m.ticks_used < 1 := by
      have := hf.2.2.2
      rwa [hp] at this
    have ht0 := hf.2.2.1
    exact .inl ⟨rfl, hp, by change m.ticks_used = 0; omega⟩
  | succ n ih =>
    rw [iterate_succ_apply']
    exact ih.tick

/-! ## The scan -/

def Table.runnable (t : Table) (p : Nat) : Prop := (t.smp.slot p).state = .RUNNABLE

structure Found (t : Table) (k : Nat) (x : Scan) : Prop where
  least : ∀ j < k, t.runnable j → x.chosen_pri ≤ (t.more j).priority
  chosen : x.chosen = none ∧ x.chosen_pri = NMLFQ ∧ (∀ j, x.locked j = false) ∨
    ∃ c < k, x.chosen = some c ∧ t.runnable c ∧ (t.more c).priority = x.chosen_pri ∧
      (∀ j < c, t.runnable j → x.chosen_pri < (t.more j).priority) ∧ ∀ j, x.locked j = decide (j = c)

theorem Found.visit (h : Found t k x) : Found t (k + 1) (t.visit k x) := by
  have hunlocked : x.locked k = false := by
    rcases h.chosen with ⟨-, -, hl⟩ | ⟨c, hc, -, -, -, -, hl⟩
    · exact hl k
    · rw [hl k]
      exact decide_eq_false (ne_of_gt hc)
  unfold Table.visit
  split
  · rename_i hk
    refine ⟨fun j hj hr => ?_, .inr ⟨k, Nat.lt_succ_self k, rfl, hk.1, rfl, fun j hj hr => ?_, fun j => ?_⟩⟩
    · rcases Nat.lt_succ_iff_lt_or_eq.mp hj with hj | rfl
      · exact Int.le_trans (Int.le_of_lt hk.2) (h.least j hj hr)
      · exact Int.le_refl _
    · exact Int.lt_of_lt_of_le hk.2 (h.least j hj hr)
    · -- the lock of the last candidate is given back, and that of slot k kept
      rcases h.chosen with ⟨hc, -, hl⟩ | ⟨c, hc, hsome, -, -, -, hl⟩
      · have hd : (x.acquire k).drop = x.acquire k := by
          unfold Scan.drop
          rw [show (x.acquire k).chosen = none from hc]
        rw [hd]
        change update x.locked k true j = _
        rw [update_apply, hl j]
        by_cases hj : j = k <;> simp [hj]
      · have hd : (x.acquire k).drop = (x.acquire k).release c := by
          unfold Scan.drop
          rw [show (x.acquire k).chosen = some c from hsome]
        rw [hd]
        change update (update x.locked k true) c false j = _
        rw [update_apply, update_apply, hl j]
        by_cases hj : j = k
        · have : j ≠ c := by omega
          simp [hj, hj ▸ this]
        · by_cases hjc : j = c <;> simp [hj, hjc]
          omega
  · rename_i hk
    have hlock : ∀ j, ((x.acquire k).release k).locked j = x.locked j := by
      intro j
      change update (update x.locked k true) k false j = _
      rw [update_idem, update_apply]
      split
      · rename_i hj
        rw [hj, hunlocked]
      · rfl
    refine ⟨fun j hj hr => ?_, ?_⟩
    · rcases Nat.lt_succ_iff_lt_or_eq.mp hj with hj | rfl
      · exact h.least j hj hr
      · exact Int.not_lt.mp fun hlt => hk ⟨hr, hlt⟩
    · rcases h.chosen with ⟨hc, hp, hl⟩ | ⟨c, hc, hsome, hr, hp, hf, hl⟩
      · exact .inl ⟨hc, hp, fun j => (hlock j).trans (hl j)⟩
      · exact .inr ⟨c, Nat.lt_succ_of_lt hc, hsome, hr, hp, hf, fun j => (hlock j).trans (hl j)⟩

theorem found_scanTo (t : Table) (k : Nat) : Found t k (t.scanTo k) := by
  induction k with
  | zero => exact ⟨fun j hj => absurd hj (Nat.not_lt_zero j), .inl ⟨rfl, rfl, fun _ => rfl⟩⟩
  | succ k ih => exact ih.visit

/-- The scan picks `p`: it can run, nobody who can has a smaller priority, none of the same priority comes before it,
and its lock is the only one held. -/
structure Table.picks (t : Table) (p : Nat) : Prop where
  slot : p < NPROC
  chosen : t.scan.chosen = some p
  runnable : t.runnable p
  least : ∀ j < NPROC, t.runnable j → (t.more p).priority ≤ (t.more j).priority
  first : ∀ j < p, t.runnable j → (t.more p).priority < (t.more j).priority
  locked : ∀ j, t.scan.locked j = decide (j = p)

theorem scan_picks {t : Table} {q : Nat} (hq : q < NPROC) (hr : t.runnable q) (hp : (t.more q).priority < NMLFQ) :
    ∃ p, t.picks p := by
  have h := found_scanTo t NPROC
  rcases h.chosen with ⟨-, h4, -⟩ | ⟨p, hpn, hc, hrp, hpp, hf, hl⟩
  · have := h.least q hq hr
    rw [h4] at this
    exact absurd hp (Int.not_lt.mpr this)
  · refine ⟨p, hpn, hc, hrp, fun j hj hrj => ?_, fun j hj hrj => ?_, hl⟩
    · rw [hpp]
      exact h.least j hj hrj
    · rw [hpp]
      exact hf j hj hrj

/-- The three parts of what the scheduler keeps to: the levels in every state reached, the pick of one scan over every
table with such levels, and the descent of a process that is never reset. -/
theorem mlfq_sound :
    (∀ root tr t, Trace TableEvent.run (fun _ _ => True) (Table.start root) tr t →
      ∀ p < NPROC, (t.smp.slot p).state ≠ .UNUSED → (t.more p).fits) ∧
    (∀ t : Table, (∀ p < NPROC, (t.smp.slot p).state ≠ .UNUSED → (t.more p).fits) →
      (∃ q < NPROC, t.runnable q) → ∃ p, t.picks p) ∧
    ∀ (m : More) (n : Nat), m.fits → m.priority = 0 →
      (More.tick^[n] m).priority = if n < 1 then 0 else if n < 3 then 1 else if n < 7 then 2 else 3 := by
  refine ⟨fun root tr t h p _ _ => levels_trace h p, fun t hf ⟨q, hq, hr⟩ => ?_, fun m n hf hp => ?_⟩
  · have hu : (t.smp.slot q).state ≠ .UNUSED := by
      rw [show (t.smp.slot q).state = .RUNNABLE from hr]
      exact nofun
    exact scan_picks hq hr (hf q hq hu).2.1
  · rcases demoted_ticks hp hf n with ⟨rfl, h, -⟩ | ⟨h1, h3, h, -⟩ | ⟨h3, h7, h, -⟩ | ⟨h7, h⟩
    · exact h
    · rw [h, if_neg (by omega), if_pos h3]
    · rw [h, if_neg (by omega), if_neg (by omega), if_pos h7]
    · rw [h, if_neg (by omega), if_neg (by omega), if_neg (by omega)]

theorem mlfq_sound_yielded : ∃ tr t, Trace TableEvent.run (fun _ _ => True) (Table.start 1) tr t ∧ (t.more 0).priority = 1 ∧
    (t.more 0).fits ∧ (∃ p, t.picks p) ∧ (More.tick^[3] ((Table.start 1).more 0)).priority = 2 := by
  have hrun : (runs TableEvent.run (fun _ _ => True) [.smp (.schedule 0 0) 0, .mlfq_tick 0, .smp (.yield 0) 0]
      (Table.start 1)).any (fun t => decide ((t.more 0).priority = 1) &&
        decide ((t.smp.slot 0).state = .RUNNABLE)) = true := by
    decide +kernel
  obtain ⟨tr, t, htr, ht⟩ := Trace.of_any hrun
  rw [Bool.and_eq_true, decide_eq_true_eq, decide_eq_true_eq] at ht
  obtain ⟨hfits, hpicks, hticks⟩ := mlfq_sound
  have hall := hfits 1 tr t htr
  have h0 : ((Table.start 1).more 0).fits := hfits 1 [] _ .start 0 (by decide) (by decide)
  exact ⟨tr, t, htr, ht.1, hall 0 (by decide) (by rw [ht.2]; exact nofun), hpicks t hall ⟨0, by decide, ht.2⟩,
    hticks _ 3 h0 rfl⟩

/-! ## The boost -/

/-- On one CPU the processes in the slots of `S`, and no others, can run; `run` is the one that does. Nobody sleeps on
`&ticks`, and none of them is where interrupts are off. -/
structure Busy (tk : Chan) (S : Finset Nat) (run : Option Nat) (t : Table) : Prop where
  slot : ∀ j ∈ S, j < NPROC
  cpu : t.smp.cpu 0 = run
  member : ∀ p ∈ run, p ∈ S
  state : ∀ j ∈ S, (t.smp.slot j).state = if run = some j then .RUNNING else .RUNNABLE
  act : ∀ j ∈ S, (t.smp.slot j).act.locked = false
  other : ∀ j < NPROC, j ∉ S → ¬ t.runnable j
  awake : ∀ j < NPROC, ¬ ((t.smp.slot j).state = .SLEEPING ∧ (t.smp.slot j).chan = some tk)

section
variable {tk : Chan} {S : Finset Nat} {t : Table} {p : Nat}

theorem wakeTicks_eq (h : ∀ j < NPROC, ¬ ((t.smp.slot j).state = .SLEEPING ∧ (t.smp.slot j).chan = some tk)) :
    ∀ k ≤ NPROC, wakeTicks tk t k = t
  | 0, _ => rfl
  | k + 1, hk => by
    rw [wakeTicks, wakeTicks_eq h k (Nat.le_of_succ_le hk)]
    have hn : ¬ (t.smp.cpu 0 ≠ some k ∧ k < NPROC ∧ (t.smp.slot k).state = .SLEEPING ∧ (t.smp.slot k).chan = some tk) :=
      fun hx => h k hk hx.2.2
    simp only [TableEvent.next, SmpEvent.next, SmpEvent.more, if_neg hn]

theorem boostTo_eq (t : Table) : ∀ k ≤ NPROC, (boostTo t k).smp = t.smp ∧
    ∀ j, (boostTo t k).more j = if j < k ∧ (t.smp.slot j).state ≠ .UNUSED then (t.more j).setLevel 0 else t.more j
  | 0, _ => ⟨rfl, fun j => by rw [if_neg fun h => Nat.not_lt_zero j h.1]; rfl⟩
  | k + 1, hk => by
    obtain ⟨hs, hm⟩ := boostTo_eq t k (Nat.le_of_succ_le hk)
    rw [boostTo, TableEvent.next, hs]
    split
    · rename_i hu
      refine ⟨hs, fun j => ?_⟩
      change update (boostTo t k).more k ((boostTo t k).more k |>.setLevel 0) j = _
      by_cases hj : j = k
      · rw [hj, update_self, hm k, if_neg fun h => lt_irrefl k h.1, if_pos ⟨Nat.lt_succ_self k, hu.2⟩]
      · rw [update_of_ne hj, hm j]
        simp only [Nat.lt_succ_iff_lt_or_eq, hj, or_false]
    · rename_i hu
      refine ⟨hs, fun j => ?_⟩
      rw [hm j]
      by_cases hj : j = k
      · rw [hj, if_neg fun h => lt_irrefl k h.1, if_neg fun h => hu ⟨hk, h.2⟩]
      · simp only [Nat.lt_succ_iff_lt_or_eq, hj, or_false]

theorem Busy.yield (h : Busy tk S (some p) t) :
    Busy tk S none ((TableEvent.smp (.yield 0) 0).next ((TableEvent.mlfq_tick 0).next t)) ∧
      ((TableEvent.smp (.yield 0) 0).next ((TableEvent.mlfq_tick 0).next t)).more = update t.more p (t.more p).tick := by
  have hp : p ∈ S := h.member p rfl
  have hact := h.act p hp
  have htick : (TableEvent.mlfq_tick 0).next t = t.setMore p (t.more p).tick := by
    simp only [TableEvent.next, h.cpu]
  have hyield : (TableEvent.smp (.yield 0) 0).next (t.setMore p (t.more p).tick) =
      ⟨t.smp.sched 0 p .RUNNABLE (t.smp.slot p).chan, (t.setMore p (t.more p).tick).more⟩ := by
    simp only [TableEvent.next, SmpEvent.next, SmpEvent.more, Table.setMore, h.cpu, hact, Bool.false_eq_true, if_false]
  rw [htick, hyield]
  have hself : (t.smp.sched 0 p .RUNNABLE (t.smp.slot p).chan).slot p = { t.smp.slot p with state := .RUNNABLE } := put_self
  have hne : ∀ {j}, j ≠ p → (t.smp.sched 0 p .RUNNABLE (t.smp.slot p).chan).slot j = t.smp.slot j := fun hj => put_ne hj
  have hcpu : update t.smp.cpu 0 none 0 = none := update_self ..
  refine ⟨⟨h.slot, hcpu, by simp, fun j hj => ?_, fun j hj => ?_, fun j hj hjS => ?_, fun j hj => ?_⟩, rfl⟩
  · by_cases hjp : j = p
    · rw [hjp, hself]
      rfl
    · rw [hne hjp, h.state j hj, if_neg fun e => hjp (Option.some.inj e).symm]
      rfl
  · by_cases hjp : j = p
    · rw [hjp, hself]
      exact h.act p hp
    · rw [hne hjp]
      exact h.act j hj
  · have hjp : j ≠ p := fun e => hjS (e ▸ hp)
    unfold Table.runnable
    rw [hne hjp]
    exact h.other j hj hjS
  · by_cases hjp : j = p
    · rw [hjp, hself]
      simp
    · rw [hne hjp]
      exact h.awake j hj

theorem Busy.congr {run : Option Nat} (h : Busy tk S run t) (hs : t'.smp = t.smp) : Busy tk S run t' := by
  refine ⟨h.slot, ?_, h.member, ?_, ?_, ?_, ?_⟩
  · rw [hs]; exact h.cpu
  · rw [hs]; exact h.state
  · rw [hs]; exact h.act
  · unfold Table.runnable; rw [hs]; exact h.other
  · rw [hs]; exact h.awake

end

section
variable {tk : Chan} {S : Finset Nat} {x : Clock} {p : Nat}

def More.boosted (m : More) (ticks : Nat) : More := if ticks % MLFQ_BOOST = 0 then m.setLevel 0 else m

theorem Busy.timer (h : Busy tk S (some p) x.table) : Busy tk S none (x.timer tk).table ∧
    (x.timer tk).ticks = (x.ticks + 1) % 2 ^ 32 ∧
    ∀ j ∈ S, (x.timer tk).table.more j = if j = p then ((x.table.more j).boosted ((x.ticks + 1) % 2 ^ 32)).tick
      else (x.table.more j).boosted ((x.ticks + 1) % 2 ^ 32) := by
  have hw := wakeTicks_eq h.awake NPROC le_rfl
  obtain ⟨hbs, hbm⟩ := boostTo_eq x.table NPROC le_rfl
  have hlive : ∀ j ∈ S, (x.table.smp.slot j).state ≠ .UNUSED := by
    intro j hj
    rw [h.state j hj]
    split <;> exact nofun
  -- the table as `clockintr` leaves it
  obtain ⟨hs, hm⟩ : (clockintr tk x).table.smp = x.table.smp ∧
      ∀ j ∈ S, (clockintr tk x).table.more j = (x.table.more j).boosted ((x.ticks + 1) % 2 ^ 32) := by
    unfold clockintr More.boosted
    rw [hw]
    by_cases hb : (x.ticks + 1) % 2 ^ 32 % MLFQ_BOOST = 0
    · simp only [hb, if_true]
      refine ⟨hbs, fun j hj => ?_⟩
      rw [hbm j, if_pos ⟨h.slot j hj, hlive j hj⟩]
    · simp only [hb, if_false]
      exact ⟨trivial, fun _ _ => trivial⟩
  obtain ⟨hy, hmore⟩ := (h.congr hs).yield
  refine ⟨hy, rfl, fun j hj => ?_⟩
  change ((TableEvent.smp (.yield 0) 0).next ((TableEvent.mlfq_tick 0).next (clockintr tk x).table)).more j = _
  rw [hmore]
  by_cases hjp : j = p
  · rw [hjp, update_self, if_pos rfl, hm p (hjp ▸ hj)]
  · rw [update_of_ne hjp, if_neg hjp, hm j hj]

theorem Busy.dispatch (h : Busy tk S none x.table) (hp : x.table.picks p) : x.dispatch.2 = some p ∧
    Busy tk S (some p) x.dispatch.1.table ∧ x.dispatch.1.table.more = x.table.more ∧ x.dispatch.1.ticks = x.ticks := by
  have hpS : p ∈ S := by
    by_contra hn
    exact h.other p hp.slot hn hp.runnable
  have hd : x.dispatch = ({ x with table := (TableEvent.smp (.schedule 0 p) 0).next x.table }, some p) := by
    unfold Clock.dispatch
    rw [hp.chosen]
  have hgo : x.table.smp.cpu 0 = none ∧ p < NPROC ∧ (x.table.smp.slot p).state = .RUNNABLE := ⟨h.cpu, hp.slot, hp.runnable⟩
  have hnext : (TableEvent.smp (.schedule 0 p) 0).next x.table =
      ⟨{ x.table.smp.put p { x.table.smp.slot p with state := .RUNNING } with
          cpu := update x.table.smp.cpu 0 (some p) }, x.table.more⟩ := by
    simp only [TableEvent.next, SmpEvent.next, SmpEvent.more, if_pos hgo]
  rw [hd, hnext]
  have hself : (x.table.smp.put p { x.table.smp.slot p with state := .RUNNING }).slot p =
      { x.table.smp.slot p with state := .RUNNING } := put_self
  have hne : ∀ {j}, j ≠ p → (x.table.smp.put p { x.table.smp.slot p with state := .RUNNING }).slot j = x.table.smp.slot j :=
    fun hj => put_ne hj
  have hcpu : update x.table.smp.cpu 0 (some p) 0 = some p := update_self ..
  refine ⟨rfl, ⟨h.slot, hcpu, fun q hq => Option.some.inj hq ▸ hpS, fun j hj => ?_, fun j hj => ?_,
    fun j hj hjS => ?_, fun j hj => ?_⟩, rfl, rfl⟩
  · change ((x.table.smp.put p _).slot j).state = _
    by_cases hjp : j = p
    · rw [hjp, hself, if_pos rfl]
    · rw [hne hjp, h.state j hj, if_neg fun e => hjp (Option.some.inj e).symm]
      rfl
  · change ((x.table.smp.put p _).slot j).act.locked = _
    by_cases hjp : j = p
    · rw [hjp, hself]
      exact h.act p hpS
    · rw [hne hjp]
      exact h.act j hj
  · have hjp : j ≠ p := fun e => hjS (e ▸ hpS)
    change ¬ ((x.table.smp.put p _).slot j).state = _
    rw [hne hjp]
    exact h.other j hj hjS
  · change ¬ (((x.table.smp.put p _).slot j).state = _ ∧ ((x.table.smp.put p _).slot j).chan = _)
    by_cases hjp : j = p
    · rw [hjp, hself]
      simp
    · rw [hne hjp]
      exact h.awake j hj

structure Waiting (tk : Chan) (S : Finset Nat) (l : List Nat) (t : Table) : Prop where
  busy : Busy tk S none t
  sorted : l.Pairwise (· < ·)
  sub : ∀ j ∈ l, j ∈ S
  top : ∀ j ∈ l, (t.more j).priority = 0 ∧ (t.more j).ticks_used = 0
  down : ∀ j ∈ S, j ∉ l → (t.more j).priority = 1

theorem Waiting.picks {l : List Nat} {t : Table} (h : Waiting tk S (p :: l) t) : t.picks p := by
  have hpl : p ∈ p :: l := mem_cons_self ..
  have hpS := h.sub p hpl
  have hr : t.runnable p := (h.busy.state p hpS).trans (if_neg nofun)
  obtain ⟨q, hq⟩ := scan_picks (h.busy.slot p hpS) hr (by rw [(h.top p hpl).1]; decide)
  have hqS : q ∈ S := by
    by_contra hn
    exact h.busy.other q hq.slot hn hq.runnable
  have hq0 : (t.more q).priority ≤ 0 := by
    have := hq.least p (h.busy.slot p hpS) hr
    rwa [(h.top p hpl).1] at this
  have hql : q ∈ p :: l := by
    by_contra hn
    rw [h.down q hqS hn] at hq0
    exact absurd hq0 (by decide)
  have hqp : q = p := by
    rcases mem_cons.mp hql with e | hql'
    · exact e
    · have hlt := (pairwise_cons.mp h.sorted).1 q hql'
      have := hq.first p hlt hr
      rw [(h.top p hpl).1, (h.top q hql).1] at this
      exact absurd this (by decide)
  exact hqp ▸ hq

theorem tick_top {m : More} (hp : m.priority = 0) (ht : m.ticks_used = 0) : m.tick.priority = 1 :=
  ((tick_at 1 hp (by decide) (by decide) rfl).1 (by omega)).1

theorem Waiting.turn (h : Waiting tk S (p :: l) x.table)
    (hb : (x.ticks + 1) % 2 ^ 32 % MLFQ_BOOST ≠ 0) :
    x.dispatch.2 = some p ∧ Waiting tk S l (x.dispatch.1.timer tk).table ∧
      (x.dispatch.1.timer tk).ticks = (x.ticks + 1) % 2 ^ 32 := by
  obtain ⟨hd, hbusy, hmore, hticks⟩ := h.busy.dispatch h.picks
  obtain ⟨hbusy', hticks', hmore'⟩ := hbusy.timer
  have hnb : ∀ m : More, m.boosted ((x.ticks + 1) % 2 ^ 32) = m := fun m => if_neg hb
  have hpnl : p ∉ l := fun hp => lt_irrefl p ((pairwise_cons.mp h.sorted).1 p hp)
  rw [hticks, hmore] at hmore'
  simp only [hnb] at hmore'
  refine ⟨hd, ⟨hbusy', (pairwise_cons.mp h.sorted).2, fun j hj => h.sub j (mem_cons_of_mem p hj), fun j hj => ?_,
    fun j hj hjl => ?_⟩, by rw [hticks', hticks]⟩
  · have hjp : j ≠ p := fun e => hpnl (e ▸ hj)
    rw [hmore' j (h.sub j (mem_cons_of_mem p hj)), if_neg hjp]
    exact h.top j (mem_cons_of_mem p hj)
  · rw [hmore' j hj]
    split
    · rename_i hjp
      have htop := h.top p (mem_cons_self ..)
      exact tick_top (hjp ▸ htop.1) (hjp ▸ htop.2)
    · rename_i hjp
      exact h.down j hj fun hm => (mem_cons.mp hm).elim hjp hjl

theorem Waiting.turns : ∀ {l : List Nat} {x : Clock}, Waiting tk S l x.table →
    (∀ k, 1 ≤ k → k ≤ l.length → (x.ticks + k) % 2 ^ 32 % MLFQ_BOOST ≠ 0) →
    (x.turns tk l.length).2 = l.map some ∧ Waiting tk S [] (x.turns tk l.length).1.table
  | [], x, h, _ => ⟨rfl, h⟩
  | p :: l, x, h, hb => by
    obtain ⟨hd, hw, ht⟩ := h.turn (hb 1 (Nat.le_refl 1) (Nat.succ_le_succ (Nat.zero_le _)))
    have hb' : ∀ k, 1 ≤ k → k ≤ l.length → ((x.dispatch.1.timer tk).ticks + k) % 2 ^ 32 % MLFQ_BOOST ≠ 0 := by
      intro k hk hkl
      have := hb (k + 1) (Nat.succ_le_succ (Nat.zero_le _)) (Nat.succ_le_succ hkl)
      rw [ht, Nat.mod_add_mod]
      rwa [show x.ticks + 1 + k = x.ticks + (k + 1) by omega]
    obtain ⟨hl, hw'⟩ := Waiting.turns hw hb'
    refine ⟨?_, hw'⟩
    change x.dispatch.2 :: (Clock.turns tk l.length (x.dispatch.1.timer tk)).2 = _
    rw [hd, hl]
    rfl

def others (S : Finset Nat) (r : Nat) : List Nat := (List.range NPROC).filter fun j => j ∈ S ∧ j ≠ r

theorem mem_others (hS : ∀ j ∈ S, j < NPROC) : j ∈ others S r ↔ j ∈ S ∧ j ≠ r := by
  unfold others
  rw [List.mem_filter, List.mem_range, decide_eq_true_eq]
  exact ⟨fun h => h.2, fun h => ⟨hS j h.1, h⟩⟩

theorem length_others (hS : ∀ j ∈ S, j < NPROC) (hr : r ∈ S) : (others S r).length = S.card - 1 := by
  have hnd : (others S r).Nodup := List.nodup_range.filter _
  rw [← List.toFinset_card_of_nodup hnd, ← Finset.card_erase_of_mem hr]
  congr 1
  ext j
  rw [mem_toFinset, mem_others hS, mem_erase, and_comm]

/-- After the tick that boosts, each of the other processes is picked once, in table order, in as many ticks as there are
others, none of which boosts; and then all are one level down. -/
theorem boost_serves_all (tk : Chan) (S : Finset Nat) (r : Nat) (x : Clock) (h : Busy tk S (some r) x.table)
    (hb : (x.ticks + 1) % 2 ^ 32 % MLFQ_BOOST = 0) :
    ((x.timer tk).turns tk (S.card - 1)).2 = (others S r).map some ∧
      (∀ j ∈ S, (((x.timer tk).turns tk (S.card - 1)).1.table.more j).priority = 1) ∧
      ∀ k, 1 ≤ k → k ≤ S.card - 1 → ((x.timer tk).ticks + k) % 2 ^ 32 % MLFQ_BOOST ≠ 0 := by
  have hr : r ∈ S := h.member r rfl
  obtain ⟨hbusy, hticks, hmore⟩ := h.timer
  have hboost : ∀ m : More, m.boosted ((x.ticks + 1) % 2 ^ 32) = m.setLevel 0 := fun m => if_pos hb
  simp only [hboost] at hmore
  have hcard : S.card ≤ NPROC := by
    calc S.card ≤ (Finset.range NPROC).card := Finset.card_le_card fun j hj => Finset.mem_range.mpr (h.slot j hj)
      _ = NPROC := Finset.card_range _
  have hnext : ∀ k, 1 ≤ k → k ≤ S.card - 1 → ((x.timer tk).ticks + k) % 2 ^ 32 % MLFQ_BOOST ≠ 0 := by
    intro k hk hkc
    rw [hticks]
    simp only [MLFQ_BOOST, NPROC] at hb hcard ⊢
    -- the last multiple of 100 below 2 ^ 32 is 96 away from it
    have hk : (x.ticks + 1) % 2 ^ 32 + k < 2 ^ 32 := by omega
    rw [Nat.mod_eq_of_lt hk]
    omega
  have hw : Waiting tk S (others S r) (x.timer tk).table := by
    refine ⟨hbusy, List.pairwise_lt_range.filter _, fun j hj => ((mem_others h.slot).mp hj).1, fun j hj => ?_,
      fun j hj hjo => ?_⟩
    · obtain ⟨hjS, hjr⟩ := (mem_others h.slot).mp hj
      rw [hmore j hjS, if_neg hjr]
      exact ⟨rfl, rfl⟩
    · have hjr : j = r := by
        by_contra hne
        exact hjo ((mem_others h.slot).mpr ⟨hj, hne⟩)
      rw [hmore j hj, if_pos hjr]
      exact tick_top rfl rfl
  have hlen := length_others h.slot hr
  obtain ⟨hl, hw'⟩ := hw.turns (by rw [hlen]; exact hnext)
  rw [hlen] at hl hw'
  exact ⟨hl, fun j hj => hw'.down j hj not_mem_nil, hnext⟩

end

def threeBusy : Clock where
  table :=
    { smp :=
        { Smp.start fun _ => blankSlot with
          slot := fun j => if j = 5 then { blankSlot with state := .RUNNING }
            else if j = 2 ∨ j = 63 then { blankSlot with state := .RUNNABLE } else blankSlot
          cpu := fun c => if c = 0 then some 5 else none }
      more := fun _ => { More.zero with priority := 3, ticks_used := 4 } }
  ticks := 99

theorem boost_serves_three : ((threeBusy.timer .null).turns .null 2).2 = [some 2, some 63] := by
  have h : Busy .null {2, 5, 63} (some 5) threeBusy.table :=
    ⟨by decide, rfl, by decide, by decide, by decide, by unfold Table.runnable; decide, by decide⟩
  exact (boost_serves_all .null {2, 5, 63} 5 threeBusy h (by decide)).1

end Xv6
