import Xv6.Log
import Xv6.Tally

/-!
# The log has room for the operations it lets in

`begin_op` lets an operation in when the blocks already logged and
`MAXOPBLOCKS` for each operation in progress fit. What an operation has not
yet used of its share stays free until it ends.
-/

namespace Xv6

open Hoare List Finset

variable {b : Nat} {v : Block}

def share (S : Finset Nat) : Nat := MAXOPBLOCKS - S.card

structure Gate (s : LogSys) : Prop where
  count : s.log.outstanding = s.ops.length
  commit : s.log.committing = true ↔ s.phase ≠ .idle
  quiet : s.phase ≠ .idle → s.ops = []

structure LogInv (s : LogSys) : Prop extends Gate s where
  nodup : s.log.lh.Nodup
  logged : ∀ S ∈ s.ops, ∀ b ∈ S, b ∈ s.log.lh
  small : ∀ S ∈ s.ops, S.card ≤ MAXOPBLOCKS
  room : s.log.lh.length + (s.ops.map share).sum ≤ LOGBLOCKS

theorem LogInv.boot (d : LogDisk) : LogInv (LogSys.boot d) := by
  refine ⟨⟨rfl, ?_, ?_⟩, nodup_nil, ?_, ?_, ?_⟩ <;> simp [LogSys.boot]

section
variable {s : LogSys} {E : LogStop → Prop} {S : Finset Nat} {i : Nat}

@[simp] theorem wp_onLog {α : Type} {x : Prog Log LogStop α} {Q : α → LogSys → Prop} :
    wp (onLog x) Q E s ↔ wp x (fun a l => Q a { s with log := l }) E s.log := wp_zoom ..

/-! ## Operations come and go -/

theorem Gate.idle (h : Gate s) {i : Nat} {S : Finset Nat} (hS : s.ops[i]? = some S) : s.phase = .idle := by
  by_contra hp
  rw [h.quiet hp] at hS
  simp at hS

theorem Gate.idle_of (h : Gate s) (hc : ¬ s.log.committing) : s.phase = .idle := by
  by_contra hp
  exact hc (h.commit.mpr hp)

theorem Gate.begin_op (h : Gate s) (hc : ¬ s.log.committing) :
    Gate { s with log := { s.log with outstanding := s.log.outstanding + 1 }, ops := s.ops ++ [∅] } := by
  refine ⟨?_, h.commit, fun hp => absurd (h.idle_of hc) hp⟩
  rw [h.count]
  simp

theorem Gate.write (h : Gate s) {T : Finset Nat} {lh : List Nat} {cache : Nat → Option Block} (hS : s.ops[i]? = some S) :
    Gate { s with log := { s.log with lh := lh }, ops := s.ops.set i T, cache := cache } :=
  ⟨by simpa using h.count, h.commit, fun hp => absurd (h.idle hS) hp⟩

theorem length_eraseIdx (hS : s.ops[i]? = some S) :
    (s.ops.eraseIdx i).length + 1 = s.ops.length := by
  obtain ⟨hi, -⟩ := List.getElem?_eq_some_iff.mp hS
  rw [length_eraseIdx_of_lt hi]
  omega

theorem Gate.end_op (h : Gate s) (hS : s.ops[i]? = some S) :
    Gate { s with log := { s.log with outstanding := s.log.outstanding - 1 }, ops := s.ops.eraseIdx i } := by
  have hlen := length_eraseIdx hS
  have hcount := h.count
  exact ⟨by dsimp only; omega, h.commit, fun hp => absurd (h.idle hS) hp⟩

theorem Gate.last (h : Gate s) {p : Phase} (hS : s.ops[i]? = some S)
    (h0 : s.log.outstanding - 1 = 0) (hp : p ≠ .idle) : s.ops.eraseIdx i = [] ∧
      Gate { s with
        log := { s.log with outstanding := s.log.outstanding - 1, committing := true }
        ops := s.ops.eraseIdx i
        phase := p } := by
  have hlen := length_eraseIdx hS
  have hcount := h.count
  have hnil : s.ops.eraseIdx i = [] := eq_nil_of_length_eq_zero (by omega)
  exact ⟨hnil, by dsimp only; omega, iff_of_true rfl hp, fun _ => hnil⟩

theorem Gate.commitStep (h : Gate s) : Gate (commitStep s) := by
  have hnext : ∀ {tail : Nat} {more : Nat → Phase} {last : Phase}, (∀ n, more n ≠ .idle) → last ≠ .idle →
      nextTail s tail more last ≠ .idle := fun h1 h2 => by unfold nextTail; split <;> simp [h1, h2]
  have hrest : s.phase ≠ .idle → ∀ {lh : List Nat} {d : LogDisk} {c : Nat → Option Block} {p : Phase}, p ≠ .idle →
      Gate { s with log := { s.log with lh := lh }, disk := d, cache := c, phase := p } := fun hp _ _ _ _ hq =>
    ⟨h.count, iff_of_true (h.commit.mpr hp) hq, fun _ => h.quiet hp⟩
  unfold Xv6.commitStep
  cases hp : s.phase with
  | idle => exact h
  | writeLog tail => exact hrest (by simp [hp]) (hnext (by simp) (by simp))
  | writeHead => exact hrest (by simp [hp]) (by simp)
  | install tail => exact hrest (by simp [hp]) (hnext (by simp) (by simp))
  | erase => exact hrest (by simp [hp]) (by simp)
  | done => exact ⟨h.count, by simp, by simp⟩

theorem wp_gate {e : LogEvent} (h : Gate s) : wp e.run (fun _ s' => Gate s') (fun _ => True) s := by
  cases e with
  | begin_op =>
    unfold LogEvent.run
    simp only [wp_bind, wp_onLog]
    unfold Log.begin_op
    rw [wp_read]
    refine wp_ite (fun _ => wp_ret (wp_ret h)) fun hc =>
      wp_ite (fun _ => wp_ret (wp_ret h)) fun _ => ?_
    rw [wp_bind, wp_set, wp_pure, if_pos rfl, wp_modify]
    exact h.begin_op hc
  | write i b v =>
    unfold LogEvent.run
    rw [wp_read]
    cases hS : s.ops[i]? with
    | none => exact wp_ret h
    | some S =>
      simp only [wp_bind, wp_modify, wp_onLog]
      unfold Log.log_write
      rw [wp_read]
      exact wp_ite (fun _ => wp_fail trivial) fun _ => wp_ite (fun _ => wp_fail trivial) fun _ =>
        wp_ite (fun _ => wp_ret (h.write hS)) fun _ => wp_put (h.write hS)
  | end_op i =>
    unfold LogEvent.run
    rw [wp_read]
    cases hS : s.ops[i]? with
    | none => exact wp_ret h
    | some S =>
      simp only [wp_bind, wp_modify, wp_onLog]
      unfold Log.end_op
      rw [wp_read]
      refine wp_ite (fun _ => wp_fail trivial) fun _ => wp_ite (fun h0 => ?_) fun _ => ?_
      · rw [wp_bind, wp_set, wp_pure, if_pos rfl, wp_modify]
        exact (h.last hS h0 (by split <;> simp)).2
      · rw [wp_bind, wp_set, wp_pure, if_neg (by simp), wp_pure]
        exact h.end_op hS
  | evict b =>
    unfold LogEvent.run
    rw [wp_modify]
    split
    · exact h
    · exact ⟨h.count, h.commit, h.quiet⟩
  | commit =>
    exact (wp_modify _).mpr h.commitStep

/-! ## What an operation can do -/

variable (h : LogInv s)
include h

theorem LogInv.write {lh : List Nat} (hS : s.ops[i]? = some S) (hcard : (insert b S).card ≤ MAXOPBLOCKS) (hnd : lh.Nodup)
    (hsub : ∀ x ∈ s.log.lh, x ∈ lh) (hb : b ∈ lh) (hlen : lh.length + share (insert b S) ≤ s.log.lh.length + share S) :
    LogInv { s with
      log := { s.log with lh := lh }
      ops := s.ops.set i (insert b S)
      cache := Function.update s.cache b (some v) } := by
  have hmem : S ∈ s.ops := List.mem_of_getElem? hS
  have hcases : ∀ {T}, T ∈ s.ops.set i (insert b S) → T ∈ s.ops ∨ T = insert b S := fun hT =>
    mem_or_eq_of_mem_set hT
  refine ⟨h.toGate.write hS, hnd, fun T hT x hx => ?_, fun T hT => ?_, ?_⟩
  · rcases hcases hT with hT | rfl
    · exact hsub x (h.logged T hT x hx)
    · rcases Finset.mem_insert.mp hx with rfl | hx
      · exact hb
      · exact hsub x (h.logged S hmem x hx)
  · rcases hcases hT with hT | rfl
    · exact h.small T hT
    · exact hcard
  · have hsum := Tally.sum_set share (insert b S) hS
    have hroom := h.room
    dsimp only
    omega

section
variable (hS : s.ops[i]? = some S) (hb : b ∉ s.log.lh) (hcard : (insert b S).card ≤ MAXOPBLOCKS)
include hS hb hcard

theorem LogInv.fits : b ∉ S ∧ s.log.lh.length < LOGBLOCKS := by
  have hmem : S ∈ s.ops := List.mem_of_getElem? hS
  have hbS : b ∉ S := fun hx => hb (h.logged S hmem b hx)
  have hsum := Tally.sum_eraseIdx share hS
  have hroom := h.room
  rw [card_insert_of_notMem hbS] at hcard
  have : 1 ≤ share S := by unfold share; omega
  exact ⟨hbS, by omega⟩

theorem LogInv.add :
    LogInv { s with
      log := { s.log with lh := s.log.lh ++ [b] }
      ops := s.ops.set i (insert b S)
      cache := Function.update s.cache b (some v) } := by
  obtain ⟨hbS, -⟩ := h.fits hS hb hcard
  refine h.write hS hcard ?_ (fun x hx => List.mem_append_left _ hx) (List.mem_append_right _ (List.mem_singleton_self _)) ?_
  · exact List.nodup_append.mpr ⟨h.nodup, List.nodup_singleton b, fun x hx y hy => by
      rw [List.mem_singleton.mp hy]; exact fun hxb => hb (hxb ▸ hx)⟩
  · unfold share
    rw [card_insert_of_notMem hbS] at hcard ⊢
    rw [length_append, length_singleton]
    omega

end

theorem LogInv.absorb (hS : s.ops[i]? = some S)
    (hb : b ∈ s.log.lh) (hcard : (insert b S).card ≤ MAXOPBLOCKS) :
    LogInv { s with
      ops := s.ops.set i (insert b S)
      cache := Function.update s.cache b (some v) } := by
  exact h.write hS hcard h.nodup (fun _ => id) hb
    (Nat.add_le_add_left (Nat.sub_le_sub_left (card_le_card (subset_insert b S)) _) _)

theorem wp_write (ho : Obeys (.write i b v) s)
    (hE : i < s.ops.length → s.log.lh.length = LOGBLOCKS → b ∈ s.log.lh → E .tooBig) :
    wp (LogEvent.write i b v).run (fun _ s' => LogInv s') E s := by
  unfold LogEvent.run
  rw [wp_read]
  cases hS : s.ops[i]? with
  | none => exact wp_ret h
  | some S =>
    have hi : i < s.ops.length := (List.getElem?_eq_some_iff.mp hS).1
    have hcard := ho S hS
    simp only [wp_bind, wp_modify, wp_onLog]
    unfold Log.log_write
    rw [wp_read]
    refine wp_ite (fun hfull => wp_fail ?_) fun hfull => wp_ite (fun hout => wp_fail ?_) fun _ =>
      wp_ite (fun hb => ?_) fun hb => ?_
    · have hroom := h.room
      refine hE hi (by omega) ?_
      by_contra hb
      exact absurd (h.fits hS hb hcard).2 (by omega)
    · rw [h.count] at hout
      omega
    · exact wp_ret (h.absorb hS hb hcard)
    · exact wp_put (h.add hS hb hcard)

theorem wp_begin : wp LogEvent.begin_op.run (fun _ s' => LogInv s') E s := by
  unfold LogEvent.run
  simp only [wp_bind, wp_onLog]
  unfold Log.begin_op
  rw [wp_read]
  refine wp_ite (fun _ => ?_) fun hc => wp_ite (fun _ => ?_) fun hroom => ?_
  · exact wp_ret (wp_ret h)
  · exact wp_ret (wp_ret h)
  · rw [wp_bind, wp_set, wp_pure, if_pos rfl, wp_modify]
    have hsum := List.sum_le_card_nsmul (s.ops.map share) MAXOPBLOCKS fun x hx => by
      obtain ⟨S, -, rfl⟩ := List.mem_map.mp hx
      exact Nat.sub_le _ _
    rw [List.length_map, smul_eq_mul] at hsum
    rw [h.count] at hroom
    refine ⟨h.toGate.begin_op hc, h.nodup, fun T hT x hx => ?_, fun T hT => ?_, ?_⟩
    · rcases List.mem_append.mp hT with hT | hT
      · exact h.logged T hT x hx
      · rw [List.mem_singleton.mp hT] at hx; simp at hx
    · rcases List.mem_append.mp hT with hT | hT
      · exact h.small T hT
      · rw [List.mem_singleton.mp hT]; simp
    · have : share ∅ = MAXOPBLOCKS := rfl
      simp only [List.map_append, List.sum_append, List.map_cons, List.map_nil, List.sum_cons, List.sum_nil, this]
      lia

theorem wp_end : wp (LogEvent.end_op i).run (fun _ s' => LogInv s') E s := by
  unfold LogEvent.run
  rw [wp_read]
  cases hS : s.ops[i]? with
  | none => exact wp_ret h
  | some S =>
    have hidle := h.toGate.idle hS
    have hkeep : s.log.lh.length + ((s.ops.eraseIdx i).map share).sum ≤ LOGBLOCKS := by
      have := Tally.sum_eraseIdx share hS
      have := h.room
      omega
    simp only [wp_bind, wp_modify, wp_onLog]
    unfold Log.end_op
    rw [wp_read]
    refine wp_ite (fun hx => absurd hidle (h.commit.mp hx)) fun _ => wp_ite (fun h0 => ?_) fun h0 => ?_
    · rw [wp_bind, wp_set, wp_pure, if_pos rfl, wp_modify]
      obtain ⟨hnil, hg⟩ := h.toGate.last (p := if s.log.lh.length = 0 then .done else .writeLog 0) hS h0 (by split <;> simp)
      exact ⟨hg, h.nodup, by simp [hnil], by simp [hnil], hkeep⟩
    · rw [wp_bind, wp_set, wp_pure, if_neg (by simp), wp_pure]
      exact ⟨h.toGate.end_op hS, h.nodup, fun T hT => h.logged T (mem_of_mem_eraseIdx hT),
        fun T hT => h.small T (mem_of_mem_eraseIdx hT), hkeep⟩

theorem LogInv.commitStep : LogInv (commitStep s) := by
  have hg := h.toGate.commitStep
  unfold Xv6.commitStep at hg ⊢
  cases hp : s.phase with
  | erase =>
    have hq := h.quiet (by simp [hp])
    rw [hp] at hg
    exact ⟨hg, nodup_nil, by simp [hq], h.small, by simp [hq]⟩
  | idle => exact h
  | _ =>
    rw [hp] at hg
    exact ⟨hg, h.nodup, h.logged, h.small, h.room⟩

theorem wp_logEvent {e : LogEvent} (ho : Obeys e s)
    (hE : ∀ i b v, e = .write i b v → i < s.ops.length → s.log.lh.length = LOGBLOCKS → b ∈ s.log.lh → E .tooBig) :
    wp e.run (fun _ s' => LogInv s') E s := by
  cases e with
  | begin_op => exact wp_begin h
  | write i b v => exact wp_write h ho (hE i b v rfl)
  | end_op i => exact wp_end h
  | evict b =>
    unfold LogEvent.run
    rw [wp_modify]
    split
    · exact h
    · exact ⟨⟨h.count, h.commit, h.quiet⟩, h.nodup, h.logged, h.small, h.room⟩
  | commit =>
    exact (wp_modify _).mpr h.commitStep

end

theorem logInv_of_trace {d : LogDisk} {tr : List (LogEvent × LogSys)} {s : LogSys}
    (h : Trace LogEvent.run Obeys (LogSys.boot d) tr s) : LogInv s :=
  h.inv LogInv (LogInv.boot d) fun _ _ hI ho => wp_logEvent hI ho fun _ _ _ _ _ _ _ => trivial

/-- Whatever operations do within their bound, a commit finds none in progress, the header fits and names no block twice,
and the only way to stop the system is to log a block once more when the log is full. -/
theorem log_reserved {d : LogDisk} {tr : List (LogEvent × LogSys)} {s : LogSys}
    (h : Trace LogEvent.run Obeys (LogSys.boot d) tr s) :
    s.log.lh.length ≤ LOGBLOCKS ∧ s.log.lh.Nodup ∧ (s.phase ≠ .idle → s.ops = []) ∧
      ∀ e, Obeys e s → ((∃ stop, e.run s = .error stop) ↔
        ∃ i b v, e = .write i b v ∧ i < s.ops.length ∧ b ∈ s.log.lh ∧ s.log.lh.length = LOGBLOCKS) := by
  have hI := logInv_of_trace h
  have hroom := hI.room
  refine ⟨by omega, hI.nodup, hI.quiet, fun e ho => ⟨fun ⟨stop, hs⟩ => ?_, ?_⟩⟩
  · exact wp_error (E := fun _ => ∃ i b v, e = .write i b v ∧ i < s.ops.length ∧ b ∈ s.log.lh ∧ s.log.lh.length = LOGBLOCKS)
      (wp_logEvent hI ho fun i b v he hi hf hb => ⟨i, b, v, he, hi, hb, hf⟩) hs
  · rintro ⟨i, b, v, rfl, hi, hb, hf⟩
    refine ⟨.tooBig, ?_⟩
    obtain ⟨S, hS⟩ : ∃ S, s.ops[i]? = some S := ⟨_, getElem?_eq_getElem hi⟩
    have hw : wp (LogEvent.write i b v).run (fun _ _ => False) (fun e => e = .tooBig) s := by
      unfold LogEvent.run
      simp only [wp_bind, wp_get, hS, wp_modify, wp_onLog]
      unfold Log.log_write
      rw [wp_read]
      exact wp_ite (fun _ => wp_fail rfl) fun hn => absurd hf (by omega)
    cases hr : (LogEvent.write i b v).run s with
    | ok p => exact (wp_ok hw hr).elim
    | error e => rw [wp_error hw hr]

def fillLog : List LogEvent :=
  [.begin_op, .begin_op, .begin_op] ++ (List.range LOGBLOCKS).map fun b => .write (b / MAXOPBLOCKS) b fun _ => 0

def blankDisk : LogDisk := ⟨[], fun _ _ => 0, fun _ _ => 0⟩

theorem log_reserved_full : ∃ tr s, Trace LogEvent.run Obeys (LogSys.boot blankDisk) tr s ∧ s.log.lh.length = LOGBLOCKS ∧
    s.log.lh.Nodup := by
  have hrun : (runs LogEvent.run Obeys fillLog (LogSys.boot blankDisk)).map (fun s => s.log.lh.length) = some LOGBLOCKS := by
    decide +kernel
  obtain ⟨tr, s, htr, hl⟩ := Trace.of_map hrun
  exact ⟨tr, s, htr, hl, (log_reserved htr).2.1⟩

/-- A block that is logged already is refused when the log is full. -/
theorem log_full_stops : ∃ tr s, Trace LogEvent.run Obeys (LogSys.boot blankDisk) tr s ∧
    Obeys (.write 0 0 fun _ => 0) s ∧ (LogEvent.write 0 0 fun _ => 0).run s = .error .tooBig := by
  have hrun : (runs LogEvent.run Obeys fillLog (LogSys.boot blankDisk)).map (fun s =>
      (decide (Obeys (.write 0 0 fun _ => 0) s), failsBy ((LogEvent.write 0 0 fun _ => 0).run s) .tooBig)) =
        some (true, true) := by
    decide +kernel
  obtain ⟨tr, s, htr, hl⟩ := Trace.of_map hrun
  rw [Prod.mk.injEq, decide_eq_true_eq] at hl
  exact ⟨tr, s, htr, hl.1, of_failsBy hl.2⟩

end Xv6
