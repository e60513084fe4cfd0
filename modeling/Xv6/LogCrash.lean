import Xv6.LogSound

/-!
# A crash leaves whole transactions

At every moment recovery would give the contents that the system had when the
header of its last transaction was written (`Whole`), and that moment lies
between operations.
-/

namespace Xv6

open Hoare Function List

structure Whole (c : Nat → Block) (d : LogDisk) : Prop where
  slot : ∀ j < d.head.length, d.slot j = c (d.head.getD j 0)
  home : ∀ b, b ∉ d.head → d.home b = c b

section
variable {c : Nat → Block} {d d' : LogDisk}

theorem installN_head (lh : List Nat) (n : Nat) : (d.installN lh n).head = d.head := by
  induction n with
  | zero => rfl
  | succ n ih => exact ih

theorem installN_slot (lh : List Nat) (n : Nat) : (d.installN lh n).slot = d.slot := by
  induction n with
  | zero => rfl
  | succ n ih => exact ih

theorem Whole.installN (h : Whole c d) : ∀ {n : Nat}, n ≤ d.head.length →
    (∀ b, b ∉ d.head.take n → (d.installN d.head n).home b = d.home b) ∧
      ∀ b, b ∈ d.head.take n → (d.installN d.head n).home b = c b
  | 0, _ => ⟨fun _ _ => rfl, fun b hb => by simp at hb⟩
  | n + 1, hn => by
    obtain ⟨hout, hin⟩ := h.installN (Nat.le_of_succ_le hn)
    have hslot := h.slot n (by omega)
    have hget : d.head.getD n 0 = d.head[n] := by rw [getD_eq_getElem?_getD, getElem?_eq_getElem hn]; rfl
    have htake : ∀ b, b ∈ d.head.take (n + 1) ↔ b ∈ d.head.take n ∨ b = d.head.getD n 0 := fun b => by
      rw [take_succ_eq_append_getElem hn, mem_append, mem_singleton, hget]
    refine ⟨fun b hb => ?_, fun b hb => ?_⟩ <;> simp only [LogDisk.installN, LogDisk.install, installN_slot]
    · rw [htake, not_or] at hb
      rw [update_of_ne hb.2]; exact hout b hb.1
    · by_cases hbn : b = d.head.getD n 0
      · rw [hbn, update_self, hslot]
      · rw [update_of_ne hbn]
        exact hin b (((htake b).mp hb).resolve_right hbn)

theorem Whole.cut (h : Whole c d) {n : Nat} (hn : n ≤ d.head.length) : Whole c (d.installN d.head n) where
  slot j hj := by
    rw [installN_head] at hj ⊢
    rw [installN_slot]
    exact h.slot j hj
  home b hb := by
    rw [installN_head] at hb
    rw [(h.installN hn).1 b fun hx => hb (mem_of_mem_take hx)]
    exact h.home b hb

theorem Whole.recover (h : Whole c d) (b : Nat) : d.recover.home b = c b := by
  have hi := h.installN le_rfl
  change (d.installN d.head d.head.length).home b = c b
  by_cases hb : b ∈ d.head
  · exact hi.2 b (by rwa [take_length])
  · rw [hi.1 b (by rwa [take_length])]
    exact h.home b hb

theorem whole_of_home (h0 : d.head = []) (h : ∀ b, d.home b = c b) : Whole c d :=
  ⟨fun j hj => by rw [h0] at hj; simp at hj, fun b _ => h b⟩

theorem Recovers.whole (hr : Recovers d d') (h : Whole c d) : ∀ b, d'.home b = c b := by
  induction hr with
  | done d => exact h.recover
  | cut hn _ ih => exact ih (h.cut hn)
  | late _ ih => exact ih (whole_of_home rfl h.recover)

end

def Phase.committed : Phase → Bool
  | .install _ | .erase => true
  | _ => false

structure CrashInv (c : Nat → Block) (s : LogSys) : Prop where
  whole : Whole c s.disk
  head : s.disk.head = if s.phase.committed then s.log.lh else []
  clean : ∀ b, b ∉ s.pinned → s.read b = s.disk.home b
  cached : ∀ b, b ∈ s.pinned → s.cache b ≠ none
  logged : ∀ tail, s.phase = .writeLog tail → tail < s.log.lh.length ∧
    ∀ j < tail, s.disk.slot j = s.read (s.log.lh.getD j 0)
  ready : s.phase = .writeHead → 0 < s.log.lh.length ∧ ∀ j < s.log.lh.length, s.disk.slot j = s.read (s.log.lh.getD j 0)
  installed : ∀ tail, s.phase = .install tail → tail < s.log.lh.length ∧
    ∀ j < tail, s.disk.home (s.log.lh.getD j 0) = c (s.log.lh.getD j 0)
  erased : s.phase = .erase → ∀ j < s.log.lh.length, s.disk.home (s.log.lh.getD j 0) = c (s.log.lh.getD j 0)
  empty : s.phase = .done → s.log.lh = []

section
variable {c : Nat → Block} {s : LogSys}

theorem CrashInv.boot (d : LogDisk) : CrashInv (LogSys.boot d).read (LogSys.boot d) := by
  refine ⟨whole_of_home rfl fun _ => rfl, rfl, fun _ _ => rfl, ?_, ?_, ?_, ?_, ?_, ?_⟩ <;>
    simp [LogSys.boot, LogSys.pinned]

theorem CrashInv.of_idle {s' : LogSys} (h : CrashInv c s) (hp : s.phase = .idle) (hp' : s'.phase = .idle)
    (hd : s'.disk = s.disk) (hclean : ∀ b, b ∉ s'.log.lh → s'.read b = s'.disk.home b)
    (hcached : ∀ b, b ∈ s'.log.lh → s'.cache b ≠ none) : CrashInv c s' := by
  have hpin : s'.pinned = s'.log.lh := by unfold LogSys.pinned; rw [hp']
  have hhead : s.disk.head = [] := by rw [h.head, hp]; rfl
  refine ⟨hd ▸ h.whole,
    by rw [hd, hhead, hp']; rfl, by rw [hpin]; exact hclean, by rw [hpin]; exact hcached, ?_, ?_, ?_, ?_, ?_⟩ <;>
    simp [hp']

theorem CrashInv.pinned_idle (hp : s.phase = .idle) : s.pinned = s.log.lh := by unfold LogSys.pinned; rw [hp]

section
variable (h : CrashInv c s)
include h

theorem wp_write_crash {i b : Nat} {v : Block} (hI : Gate s) :
    wp (LogEvent.write i b v).run (fun _ s' => CrashInv c s') (fun _ => True) s := by
  unfold LogEvent.run
  rw [wp_read]
  cases hS : s.ops[i]? with
  | none => exact wp_ret h
  | some S =>
    have hp := hI.idle hS
    have hpin := CrashInv.pinned_idle hp
    have hread : ∀ (lh : List Nat) (x : Nat), x ≠ b → (∀ y, y ∈ s.log.lh → y ∈ lh) → x ∉ lh →
        (update s.cache b (some v) x).getD (s.disk.home x) = s.disk.home x := fun lh x hx hsub hn => by
      rw [update_of_ne hx]
      exact h.clean x (by rw [hpin]; exact fun hy => hn (hsub x hy))
    have hcache : ∀ x, x ∈ s.log.lh ∨ x = b → update s.cache b (some v) x ≠ none := fun x hx => by
      by_cases hxb : x = b
      · rw [hxb, update_self]; simp
      · rw [update_of_ne hxb]
        exact h.cached x (by rw [hpin]; exact hx.resolve_right hxb)
    simp only [wp_bind, wp_modify, wp_onLog]
    unfold Log.log_write
    rw [wp_read]
    refine wp_ite (fun _ => wp_fail trivial) fun _ => wp_ite (fun _ => wp_fail trivial) fun _ =>
      wp_ite (fun hb => wp_ret ?_) fun hb => wp_put ?_
    · refine h.of_idle hp hp rfl (fun x hx => ?_) fun x hx => hcache x (.inl hx)
      exact hread s.log.lh x (fun hxb => hx (hxb ▸ hb)) (fun _ => id) hx
    · refine h.of_idle hp hp rfl (fun x hx => ?_) fun x hx => hcache x ?_
      · exact hread (s.log.lh ++ [b]) x (fun hxb => hx (hxb ▸ mem_append_right _ (mem_singleton_self _)))
          (fun y hy => mem_append_left _ hy) hx
      · exact (mem_append.mp hx).imp id fun hx => mem_singleton.mp hx

theorem wp_begin_crash (hI : Gate s) :
    wp LogEvent.begin_op.run (fun _ s' => CrashInv c s') (fun _ => True) s := by
  unfold LogEvent.run
  simp only [wp_bind, wp_onLog]
  unfold Log.begin_op
  rw [wp_read]
  refine wp_ite (fun _ => ?_) fun hc => wp_ite (fun _ => ?_) fun _ => ?_
  · exact wp_ret (wp_ret h)
  · exact wp_ret (wp_ret h)
  · have hp := hI.idle_of hc
    have hpin := CrashInv.pinned_idle hp
    rw [wp_bind, wp_set, wp_pure, if_pos rfl, wp_modify]
    exact h.of_idle hp hp rfl (fun x hx => h.clean x (by rwa [hpin])) fun x hx => h.cached x (by rwa [hpin])

theorem wp_end_crash {i : Nat} (hI : Gate s) :
    wp (LogEvent.end_op i).run (fun _ s' => CrashInv c s') (fun _ => True) s := by
  unfold LogEvent.run
  rw [wp_read]
  cases hS : s.ops[i]? with
  | none => exact wp_ret h
  | some S =>
    have hp := hI.idle hS
    have hpin := CrashInv.pinned_idle hp
    have hhead : s.disk.head = [] := by rw [h.head, hp]; rfl
    simp only [wp_bind, wp_modify, wp_onLog]
    unfold Log.end_op
    rw [wp_read]
    refine wp_ite (fun _ => wp_fail trivial) fun _ => wp_ite (fun _ => ?_) fun _ => ?_
    · rw [wp_bind, wp_set, wp_pure, if_pos rfl, wp_modify]
      by_cases h0 : s.log.lh.length = 0
      · have hnil : s.log.lh = [] := eq_nil_of_length_eq_zero h0
        refine ⟨h.whole, ?_, ?_, ?_, ?_, ?_, ?_, ?_, fun _ => hnil⟩ <;> dsimp only <;>
          rw [if_pos h0]
        · exact hhead
        · exact fun b _ => h.clean b (by rw [hpin, hnil]; simp)
        · simp [LogSys.pinned]
        all_goals simp
      · refine ⟨h.whole, ?_, ?_, ?_, ?_, ?_, ?_, ?_, ?_⟩ <;> dsimp only <;> rw [if_neg h0]
        · exact hhead
        · exact fun b hb => h.clean b (by rw [hpin]; exact hb)
        · exact fun b hb => h.cached b (by rw [hpin]; exact hb)
        · rintro tail ht
          obtain rfl : 0 = tail := Phase.writeLog.inj ht
          exact ⟨by omega, fun j hj => absurd hj (Nat.not_lt_zero _)⟩
        all_goals simp
    · rw [wp_bind, wp_set, wp_pure, if_neg (by simp), wp_pure]
      exact h.of_idle hp hp rfl (fun x hx => h.clean x (by rwa [hpin])) fun x hx => h.cached x (by rwa [hpin])

theorem CrashInv.evict {b : Nat} (hb : b ∉ s.pinned) :
    CrashInv c { s with cache := update s.cache b none } := by
  have hread : ∀ x, LogSys.read { s with cache := update s.cache b none } x = s.read x := fun x => by
    unfold LogSys.read
    by_cases hx : x = b
    · rw [hx]
      dsimp only
      rw [update_self]
      exact (h.clean b hb).symm
    · dsimp only; rw [update_of_ne hx]
  refine ⟨h.whole, h.head, fun x hx => (hread x).trans (h.clean x hx), fun x hx => ?_, fun tail ht => ?_, fun ht => ?_,
    h.installed, h.erased, h.empty⟩
  · dsimp only
    rw [update_of_ne fun hxb => hb (by rw [← hxb]; exact hx)]
    exact h.cached x hx
  · exact ⟨(h.logged tail ht).1, fun j hj => ((h.logged tail ht).2 j hj).trans (hread _).symm⟩
  · exact ⟨(h.ready ht).1, fun j hj => ((h.ready ht).2 j hj).trans (hread _).symm⟩

theorem CrashInv.writeLog {tail : Nat} (hp : s.phase = .writeLog tail) : CrashInv c (commitStep s) := by
  obtain ⟨htail, hslot⟩ := h.logged tail hp
  have hhead : s.disk.head = [] := by rw [h.head, hp]; rfl
  have hpin : s.pinned = s.log.lh := by unfold LogSys.pinned; rw [hp]
  have hslot' : ∀ j < tail + 1, update s.disk.slot tail (s.read (s.log.lh.getD tail 0)) j =
      s.read (s.log.lh.getD j 0) := fun j hj => by
    by_cases hjt : j = tail
    · rw [hjt, update_self]
    · rw [update_of_ne hjt]; exact hslot j (by omega)
  have hhome : ∀ b, s.disk.home b = c b := fun b => h.whole.home b (by rw [hhead]; simp)
  have hc := h.clean
  have hd := h.cached
  rw [hpin] at hc hd
  have hstep : commitStep s = { s with
      disk := { s.disk with slot := update s.disk.slot tail (s.read (s.log.lh.getD tail 0)) }
      phase := nextTail s tail .writeLog .writeHead } := by unfold commitStep; rw [hp]
  rw [hstep]
  by_cases hmore : tail + 1 < s.log.lh.length
  · rw [show nextTail s tail .writeLog .writeHead = .writeLog (tail + 1) from if_pos hmore]
    refine ⟨whole_of_home hhead hhome, hhead, hc, hd, fun t ht => ?_, ?_, ?_, ?_, ?_⟩
    · obtain rfl : tail + 1 = t := Phase.writeLog.inj ht
      exact ⟨hmore, hslot'⟩
    all_goals simp
  · rw [show nextTail s tail .writeLog .writeHead = .writeHead from if_neg hmore]
    refine ⟨whole_of_home hhead hhome, hhead, hc, hd, ?_, fun _ => ⟨?_, fun j hj => hslot' j ?_⟩, ?_, ?_, ?_⟩
    · simp
    · dsimp only; omega
    · dsimp only at hj; omega
    all_goals simp

theorem CrashInv.header (hp : s.phase = .writeHead) : CrashInv (commitStep s).read (commitStep s) := by
  obtain ⟨hpos, hslot⟩ := h.ready hp
  have hpin : s.pinned = s.log.lh := by unfold LogSys.pinned; rw [hp]
  have hc := h.clean
  have hd := h.cached
  rw [hpin] at hc hd
  unfold commitStep
  rw [hp]
  refine ⟨⟨hslot, fun b hb => (hc b hb).symm⟩, rfl, fun b hb => hc b hb, fun b hb => hd b hb, ?_, ?_, fun t ht => ?_, ?_, ?_⟩
  · simp
  · simp
  · obtain rfl : 0 = t := Phase.install.inj ht
    exact ⟨hpos, fun j hj => absurd hj (Nat.not_lt_zero _)⟩
  · simp
  · simp

theorem CrashInv.install {tail : Nat} (hp : s.phase = .install tail) : CrashInv c (commitStep s) := by
  obtain ⟨htail, hdone⟩ := h.installed tail hp
  have hhead : s.disk.head = s.log.lh := by rw [h.head, hp]; rfl
  have hpin : s.pinned = s.log.lh.drop tail := by unfold LogSys.pinned; rw [hp]
  have hslot : s.disk.slot tail = c (s.log.lh.getD tail 0) := by
    have := h.whole.slot tail (by rw [hhead]; exact htail)
    rwa [hhead] at this
  have hget : s.log.lh.getD tail 0 = s.log.lh[tail] := by
    rw [getD_eq_getElem?_getD, getElem?_eq_getElem htail]; rfl
  have hdrop : ∀ b, b ∈ s.log.lh.drop tail ↔ b = s.log.lh.getD tail 0 ∨ b ∈ s.log.lh.drop (tail + 1) := fun b => by
    rw [drop_eq_getElem_cons htail, mem_cons, hget]
  have hc := h.clean
  have hd := h.cached
  rw [hpin] at hc hd
  have hwhole : Whole c (s.disk.install s.log.lh tail) := by
    refine ⟨fun j hj => h.whole.slot j hj, fun b hb => ?_⟩
    have hb' : b ∉ s.log.lh := by rw [← hhead]; exact hb
    unfold LogDisk.install
    dsimp only
    rw [update_of_ne fun hx => hb' (by rw [hx, hget]; exact getElem_mem _)]
    exact h.whole.home b hb
  have hclean : ∀ b, b ∉ s.log.lh.drop (tail + 1) →
      (update s.cache (s.log.lh.getD tail 0) (some (s.disk.slot tail)) b).getD
        ((s.disk.install s.log.lh tail).home b) = (s.disk.install s.log.lh tail).home b := fun b hb => by
    unfold LogDisk.install
    dsimp only
    by_cases hbt : b = s.log.lh.getD tail 0
    · rw [hbt, update_self, update_self]; rfl
    · rw [update_of_ne hbt, update_of_ne hbt]
      exact hc b fun hx => ((hdrop b).mp hx).elim hbt hb
  have hcached : ∀ b, b ∈ s.log.lh.drop (tail + 1) →
      update s.cache (s.log.lh.getD tail 0) (some (s.disk.slot tail)) b ≠ none := fun b hb => by
    by_cases hbt : b = s.log.lh.getD tail 0
    · rw [hbt, update_self]; simp
    · rw [update_of_ne hbt]; exact hd b ((hdrop b).mpr (.inr hb))
  have hdone' : ∀ j < tail + 1, (s.disk.install s.log.lh tail).home (s.log.lh.getD j 0) = c (s.log.lh.getD j 0) :=
    fun j hj => by
    unfold LogDisk.install
    dsimp only
    by_cases hjt : s.log.lh.getD j 0 = s.log.lh.getD tail 0
    · rw [hjt, update_self, hslot]
    · rw [update_of_ne hjt]
      exact hdone j (by rcases Nat.lt_succ_iff_lt_or_eq.mp hj with hlt | rfl; exacts [hlt, absurd rfl hjt])
  have hstep : commitStep s = { s with
      disk := s.disk.install s.log.lh tail
      cache := update s.cache (s.log.lh.getD tail 0) (some (s.disk.slot tail))
      phase := nextTail s tail .install .erase } := by unfold commitStep; rw [hp]
  rw [hstep]
  by_cases hmore : tail + 1 < s.log.lh.length
  · rw [show nextTail s tail .install .erase = .install (tail + 1) from if_pos hmore]
    refine ⟨hwhole, hhead, hclean, hcached, ?_, ?_, fun t ht => ?_, ?_, ?_⟩
    · simp
    · simp
    · obtain rfl : tail + 1 = t := Phase.install.inj ht
      exact ⟨hmore, hdone'⟩
    all_goals simp
  · have hlast : s.log.lh.drop (tail + 1) = [] := drop_eq_nil_of_le (by omega)
    rw [hlast] at hclean
    rw [show nextTail s tail .install .erase = .erase from if_neg hmore]
    refine ⟨hwhole, hhead, fun b _ => hclean b (by simp), ?_, ?_, ?_, ?_, fun _ j hj => hdone' j ?_, ?_⟩
    · simp [LogSys.pinned]
    · simp
    · simp
    · simp
    · dsimp only at hj; omega
    · simp

theorem CrashInv.erase (hp : s.phase = .erase) : CrashInv c (commitStep s) := by
  have hhead : s.disk.head = s.log.lh := by rw [h.head, hp]; rfl
  have hhome : ∀ b, s.disk.home b = c b := fun b => by
    by_cases hb : b ∈ s.log.lh
    · obtain ⟨j, hj, hbj⟩ := mem_iff_getElem.mp hb
      have := h.erased hp j hj
      rwa [getD_eq_getElem?_getD, getElem?_eq_getElem hj, Option.getD_some, hbj] at this
    · exact h.whole.home b (by rwa [hhead])
  have hc := h.clean
  unfold commitStep
  rw [hp]
  refine ⟨whole_of_home rfl hhome, rfl, fun b _ => hc b (by simp [LogSys.pinned, hp]), ?_, ?_, ?_, ?_, ?_, fun _ => rfl⟩ <;>
    simp [LogSys.pinned]

theorem CrashInv.finish (hp : s.phase = .done) : CrashInv c (commitStep s) := by
  have hhead : s.disk.head = [] := by rw [h.head, hp]; rfl
  have hnil := h.empty hp
  have hc := h.clean
  unfold commitStep
  rw [hp]
  refine ⟨h.whole, hhead, fun b _ => hc b (by simp [LogSys.pinned, hp]), ?_, ?_, ?_, ?_, ?_, ?_⟩ <;>
    simp [LogSys.pinned, hnil]

end

def WritesHead (p : LogEvent × LogSys) : Prop := p.1 = .commit ∧ p.2.phase = .writeHead

theorem wp_event_crash {e : LogEvent} (h : CrashInv c s) (hI : Gate s) (hw : ¬ WritesHead (e, s)) :
    wp e.run (fun _ s' => CrashInv c s') (fun _ => True) s := by
  cases e with
  | begin_op => exact wp_begin_crash h hI
  | write i b v => exact wp_write_crash h hI
  | end_op i => exact wp_end_crash h hI
  | evict b =>
    unfold LogEvent.run
    rw [wp_modify]
    split
    · exact h
    · exact h.evict ‹_›
  | commit =>
    unfold LogEvent.run
    rw [wp_modify]
    cases hp : s.phase with
    | idle => unfold commitStep; rw [hp]; exact h
    | writeLog tail => exact h.writeLog hp
    | writeHead => exact absurd ⟨rfl, hp⟩ hw
    | install tail => exact h.install hp
    | erase => exact h.erase hp
    | done => exact h.finish hp

end

/-- After a crash at any moment, and any number of crashes during recovery, the disk has the contents of a moment of the run
at which no operation was in progress and after which no header of a transaction was written. -/
theorem crash_atomic {d d' : LogDisk} {tr : List (LogEvent × LogSys)} {s : LogSys}
    (h : Trace LogEvent.run (fun _ _ => True) (LogSys.boot d) tr s) (hr : Recovers s.disk d') :
    ∃ late early t, tr = late ++ early ∧ Trace LogEvent.run (fun _ _ => True) (LogSys.boot d) early t ∧
      Trace LogEvent.run (fun _ _ => True) t late s ∧ (∀ p ∈ late, ¬ WritesHead p) ∧ t.ops = [] ∧
      ∀ b, d'.home b = t.read b := by
  suffices ∃ late early t, tr = late ++ early ∧ Trace LogEvent.run (fun _ _ => True) (LogSys.boot d) early t ∧
      Trace LogEvent.run (fun _ _ => True) t late s ∧ (∀ p ∈ late, ¬ WritesHead p) ∧ t.ops = [] ∧ CrashInv t.read s by
    obtain ⟨late, early, t, h1, h2, h3, h4, h5, h6⟩ := this
    exact ⟨late, early, t, h1, h2, h3, h4, h5, hr.whole h6.whole⟩
  clear hr
  induction h with
  | start => exact ⟨[], [], _, rfl, .start, .start, by simp, rfl, CrashInv.boot d⟩
  | @step tr s s' e hpre ho hrun ih =>
    obtain ⟨late, early, t, htr, hearly, hlate, hno, hops, hC⟩ := ih
    have hI : Gate s := hpre.inv Gate (LogInv.boot d).toGate fun _ _ hg _ => wp_gate hg
    by_cases hw : WritesHead (e, s)
    · -- the transaction commits: the moment is now
      obtain ⟨rfl, hp⟩ := hw
      have hs' : s' = commitStep s := by
        have := hrun
        exact (congrArg Prod.snd (Except.ok.inj this)).symm
      refine ⟨[], _, s', rfl, hpre.step ho hrun, .start, by simp, ?_, hs' ▸ hC.header hp⟩
      have hq := hI.quiet (by rw [hp]; simp)
      rw [hs']
      unfold commitStep
      rw [hp]
      exact hq
    · refine ⟨(e, s) :: late, early, t, by rw [htr]; rfl, hearly, hlate.step ho hrun, fun p hp => ?_, hops, ?_⟩
      · rcases mem_cons.mp hp with rfl | hp
        · exact hw
        · exact hno p hp
      · have hC' := wp_ok (wp_event_crash hC hI hw) hrun
        exact hC'

/-- A crash right after the header of a transaction was written, and another one during recovery. -/
theorem crash_atomic_cut : ∃ (s t : LogSys) (d' : LogDisk), s.phase = .install 0 ∧ Recovers s.disk d' ∧ t.ops = [] ∧
    ∀ b, d'.home b = t.read b := by
  have hrun : (runs LogEvent.run (fun _ _ => True) [.begin_op, .write 0 5 fun _ => 1, .end_op 0, .commit, .commit]
      (LogSys.boot blankDisk)).map LogSys.phase = some (.install 0) := by decide
  obtain ⟨tr, s, htr, hp⟩ := Trace.of_map hrun
  have hr : Recovers s.disk (s.disk.installN s.disk.head 0).recover := .cut (Nat.zero_le _) (.done _)
  obtain ⟨-, -, t, -, -, -, -, hops, hhome⟩ := crash_atomic htr hr
  exact ⟨s, t, _, hp, hr, hops, hhome⟩

end Xv6
