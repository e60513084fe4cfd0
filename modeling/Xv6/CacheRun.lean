import Xv6.CommitSound

/-!
# Runs of the buffer cache
-/

namespace Xv6

open Hoare

variable {s s' : Bio} {c : Commit} {u : Use} {E : BioStop → Prop} {tr : List (BioEvent × Bio)} {disk : Nat → Block}
  {start : Nat}

theorem wp_commit_step (h : BioInv s) (hc : s.commit = some c) (hE : ∀ r blk rest, c.code = .bread r blk :: rest →
      c.reg r = none → (∀ a, ¬ s.bc.Cached a blk) → (∀ a < NBUF, (s.bc.buf a).refcnt ≠ 0) → E .noBuffers) :
    wp c.step (Stepped s c) E s := by
  obtain ⟨proc, phase, code, reg⟩ := c
  cases code with
  | nil => exact wp_step_nil h hc
  | cons i rest =>
    cases i with
    | bread r blk => exact wp_step_bread h (hE r blk rest rfl) hc
    | log => exact wp_step_log h hc
    | home => exact wp_step_home h hc
    | head => exact wp_step_head h hc
    | bwrite r => exact wp_step_bwrite h hc
    | bunpin r => exact wp_step_bunpin h hc
    | brelse r => exact wp_step_brelse h hc
    | clear => exact wp_step_clear h hc

def record (e : BioEvent) (s : Bio) (blk : Nat) (old : Block) : Block :=
  match e with
  | .change j v =>
    match s.uses[j]? with
    | some u => if u.held ∧ u.blk = blk then v else old
    | none => old
  | _ => old

/-- The contents that some process wrote to block `blk` last in the run `tr`, or else what was on the disk. -/
def lastWritten (disk : Nat → Block) (tr : List (BioEvent × Bio)) (blk : Nat) : Block :=
  tr.foldr (fun p old => record p.1 p.2 blk old) (disk blk)

def Recorded (e : BioEvent) (s s' : Bio) : Prop :=
  s'.start = s.start ∧ ∀ blk, ¬ s.isLog blk → s'.latest blk = record e s blk (s.latest blk)

def Unwritten (s s' : Bio) : Prop := s'.start = s.start ∧ s'.latest = s.latest

theorem Unwritten.recorded (h : Unwritten s s') (he : ∀ j v, e ≠ .change j v) : Recorded e s s' := by
  refine ⟨h.1, fun blk _ => ?_⟩
  rw [h.2]
  cases e with
  | change j v => exact absurd rfl (he j v)
  | bread | acquire | log_write | brelse | begin_op | end_op | commit => rfl

theorem wp_bget_unwritten (i blk : Nat) : wp (bget i blk) (fun _ s' => Unwritten s s') (fun _ => True) s := by
  unfold bget
  rw [wp_read]
  split
  · rw [wp_bind, wp_set, wp_pure]; exact ⟨rfl, rfl⟩
  · exact wp_fail trivial

theorem wp_acquireStep_unwritten : wp (acquireStep u) (fun _ s' => Unwritten s s') (fun _ => True) s := by
  unfold acquireStep
  rw [wp_read]
  split
  · refine wp_ite (fun _ => ?_) fun _ => wp_ret ⟨rfl, rfl⟩
    rw [wp_bind, wp_set, wp_pure]; exact ⟨rfl, rfl⟩
  · rw [wp_bind, wp_set, wp_pure]; exact ⟨rfl, rfl⟩
  · exact wp_ret ⟨rfl, rfl⟩

theorem wp_releaseStep_unwritten : wp (releaseStep u) (fun _ s' => Unwritten s s') (fun _ => True) s := by
  have hhold : wp (if (s.bc.buf u.b).lock ≠ some u.proc then throw .brelse
      else do
        set { s with bc := s.bc.set u.b { s.bc.buf u.b with lock := none } }
        return some { u with st := .dropping } : Prog Bio BioStop (Option Use))
      (fun _ s' => Unwritten s s') (fun _ => True) s := by
    refine wp_ite (fun _ => wp_fail trivial) fun _ => ?_
    rw [wp_bind, wp_set, wp_pure]; exact ⟨rfl, rfl⟩
  unfold releaseStep
  rw [wp_read]
  split
  · exact hhold
  · exact hhold
  · rw [wp_bind, wp_set, wp_pure]; exact ⟨rfl, rfl⟩
  · exact wp_ret ⟨rfl, rfl⟩

theorem wp_recorded (h : BioInv s) (e : BioEvent) : wp e.run (fun _ s' => Recorded e s s') (fun _ => True) s := by
  have hsame : Unwritten s s := ⟨rfl, rfl⟩
  cases e with
  | bread i blk =>
    refine wp_seq (wp_post (wp_bget_unwritten i blk) fun u t ht => ?_)
    rw [wp_modify]
    exact Unwritten.recorded ⟨ht.1, ht.2⟩ (by simp)
  | acquire j =>
    unfold BioEvent.run
    rw [wp_read]
    split
    · exact wp_ret (hsame.recorded (by simp))
    · refine wp_seq (wp_post wp_acquireStep_unwritten fun u t ht => ?_)
      rw [wp_modify]
      exact Unwritten.recorded ⟨ht.1, ht.2⟩ (by simp)
  | change j v =>
    unfold BioEvent.run
    rw [wp_read]
    split
    · rename_i hj
      rw [wp_pure]
      exact ⟨rfl, fun blk _ => by simp only [record, hj]⟩
    · rename_i u hj
      refine wp_ite (fun hh => ?_) fun hh => ?_
      · rw [wp_set]
        refine ⟨rfl, fun blk _ => ?_⟩
        simp only [record, hj]
        by_cases hb : u.blk = blk
        · subst hb
          rw [if_pos ⟨hh, rfl⟩, Function.update_self]
        · rw [if_neg fun hm => hb hm.2, Function.update_of_ne (Ne.symm hb)]
      · rw [wp_pure]
        refine ⟨rfl, fun blk _ => ?_⟩
        simp only [record, hj]
        rw [if_neg fun hm => hh hm.1]
  | log_write j =>
    unfold BioEvent.run
    rw [wp_read]
    split
    · exact wp_ret (hsame.recorded (by simp))
    · refine wp_ite (fun _ => ?_) fun _ => wp_ret (hsame.recorded (by simp))
      refine wp_seq (wp_post (wp_log_write fun _ _ => trivial) ?_)
      rintro - t ⟨-, ⟨-, rfl⟩ | ⟨-, rfl⟩⟩
      · rw [wp_modify]; exact Unwritten.recorded ⟨rfl, rfl⟩ (by simp)
      · rw [wp_modify]; exact Unwritten.recorded ⟨rfl, rfl⟩ (by simp)
  | brelse j =>
    unfold BioEvent.run
    rw [wp_read]
    split
    · exact wp_ret (hsame.recorded (by simp))
    · refine wp_seq (wp_post wp_releaseStep_unwritten fun o t ht => ?_)
      rw [wp_modify]
      cases o with
      | none | some u' => exact Unwritten.recorded ⟨ht.1, ht.2⟩ (by simp)
  | begin_op i =>
    unfold BioEvent.run
    rw [wp_bind, wp_onBioLog]
    refine wp_of_ok (fun b l _ => ?_) fun _ _ => trivial
    refine wp_ite (fun _ => ?_) fun _ => ?_
    · rw [wp_modify]; exact Unwritten.recorded ⟨rfl, rfl⟩ (by simp)
    · rw [wp_pure]; exact Unwritten.recorded ⟨rfl, rfl⟩ (by simp)
  | end_op i =>
    unfold BioEvent.run
    rw [wp_read]
    refine wp_ite (fun _ => ?_) fun _ => wp_ret (hsame.recorded (by simp))
    rw [wp_bind, wp_modify, wp_bind, wp_onBioLog]
    refine wp_of_ok (fun b l _ => ?_) fun _ _ => trivial
    refine wp_ite (fun _ => ?_) fun _ => ?_
    · rw [wp_modify]; exact Unwritten.recorded ⟨rfl, rfl⟩ (by simp)
    · rw [wp_pure]; exact Unwritten.recorded ⟨rfl, rfl⟩ (by simp)
  | commit =>
    unfold BioEvent.run
    rw [wp_read]
    split
    · exact wp_ret (hsame.recorded (by simp))
    · rename_i c hc
      refine wp_seq (wp_post (wp_commit_step h hc fun _ _ _ _ _ _ _ => trivial) fun o t ht => ?_)
      rw [wp_modify]
      exact ⟨ht.2.2.1.2.1, ht.2.2.1.2.2⟩

theorem wp_event_commit (h : BioInv s) :
    wp (BioEvent.run .commit) (fun _ s' => BioInv s' ∧ KeptBufs s s') (fun _ => True) s := by
  unfold BioEvent.run
  rw [wp_read]
  split
  · exact wp_ret ⟨h, fun _ _ _ => ⟨rfl, rfl⟩⟩
  · rename_i c hc
    refine wp_seq (wp_post (wp_commit_step h hc fun _ _ _ _ _ _ _ => trivial) fun o t ht => ?_)
    rw [wp_modify]
    exact ⟨ht.1, ht.2.1⟩

theorem wp_event (h : BioInv s) (e : BioEvent) (hl : Logs e s) :
    wp e.run (fun _ s' => BioInv s' ∧ KeptBufs s s') (fun _ => True) s := by
  cases e with
  | bread i blk => exact wp_event_bread h i blk trivial
  | acquire j => exact wp_event_acquire h j
  | change j v => exact wp_event_change h j v hl
  | log_write j => exact wp_event_log_write h j hl fun _ => trivial
  | brelse j => exact wp_event_brelse h j hl
  | begin_op i => exact wp_event_begin_op h i hl
  | end_op i => exact wp_event_end_op h i hl fun _ => trivial
  | commit => exact wp_event_commit h

theorem bioInv_of_trace (h : Trace BioEvent.run Logs (.boot disk start) tr s) : BioInv s :=
  h.inv BioInv (BioInv.boot disk start) fun e _ hs hl => wp_post (wp_event hs e hl) fun _ _ h => h.1

theorem latest_of_trace (h : Trace BioEvent.run Logs (.boot disk start) tr s) :
    s.start = start ∧ ∀ blk, ¬ s.isLog blk → s.latest blk = lastWritten disk tr blk := by
  have hI : BioInv s ∧ s.start = start ∧ ∀ blk, ¬ s.isLog blk → s.latest blk = lastWritten disk tr blk := by
    refine h.inv_trace (fun tr s => BioInv s ∧ s.start = start ∧ ∀ blk, ¬ s.isLog blk →
      s.latest blk = lastWritten disk tr blk)
      ⟨BioInv.boot disk start, rfl, fun _ _ => rfl⟩ ?_
    rintro e tr s ⟨hi, hst, hlast⟩ hl
    refine wp_mono (wp_and (wp_event hi e hl) (wp_recorded hi e)) ?_ fun _ h => h
    rintro - t ⟨⟨ht, -⟩, hs', hrec⟩
    refine ⟨ht, hs'.trans hst, fun blk hb => ?_⟩
    have hb' : ¬ s.isLog blk := by
      unfold Bio.isLog at hb ⊢
      rwa [hs'] at hb
    rw [hrec blk hb', hlast blk hb']
    rfl
  exact hI.2

/-- The buffers are on their list, at most one for a block, and whoever has got a buffer from `bread` and not yet
released it sees what was written to the block last. -/
structure Coherent (disk : Nat → Block) (tr : List (BioEvent × Bio)) (s : Bio) : Prop where
  listed : ∃ l, l.Perm (List.range NBUF) ∧ Ringlist.IsRing s.bc.links NBUF l
  unique : ∀ b < NBUF, ∀ b' < NBUF, (s.bc.buf b).dev = ROOTDEV → (s.bc.buf b').dev = ROOTDEV →
    (s.bc.buf b).blockno = (s.bc.buf b').blockno → b = b'
  reads : ∀ u ∈ s.handles, u.held = true → (s.bc.buf u.b).dev = ROOTDEV ∧ (s.bc.buf u.b).blockno = u.blk ∧
    (s.bc.buf u.b).data = s.latest u.blk
  latest : ∀ blk, ¬ s.isLog blk → s.latest blk = lastWritten disk tr blk

theorem cache_coherent (h : Trace BioEvent.run Logs (.boot disk start) tr s) :
    Coherent disk tr s ∧ ∀ e s', Logs e s → e.run s = .ok ((), s') → KeptBufs s s' := by
  have hi := bioInv_of_trace h
  refine ⟨⟨hi.good.listed, ?_, ?_, (latest_of_trace h).2⟩, fun e s' hl hr => (wp_ok (wp_event hi e hl) hr).2⟩
  · intro b hb b' hb' hd hd' hn
    exact hi.good.unique b b' _ ⟨hb, hd, rfl⟩ ⟨hb', hd', hn.symm⟩
  · intro u hu hh
    have hp := hi.good.place u hu
    exact ⟨hp.2.1, hp.2.2, hi.good.sees hu hh⟩

theorem cache_coherent_commit : ∃ tr s, Trace BioEvent.run Logs (.boot (fun _ _ => 0) 2) tr s ∧ s.commit = none ∧
    s.uses.length = 1 ∧ Coherent (fun _ _ => 0) tr s := by
  have hrun : (runs BioEvent.run Logs ([.begin_op 0, .bread 0 100, .acquire 0, .acquire 0, .change 0 (fun _ => 7),
      .log_write 0, .brelse 0, .brelse 0, .end_op 0] ++ List.replicate 60 .commit ++ [.bread 1 100, .acquire 0])
      (.boot (fun _ _ => 0) 2)).any (fun s => s.commit.isNone && s.uses.length == 1) = true := by decide +kernel
  obtain ⟨tr, s, h, hf⟩ := Trace.of_any hrun
  rw [Bool.and_eq_true, Option.isNone_iff_eq_none, beq_iff_eq] at hf
  exact ⟨tr, s, h, hf.1, hf.2, (cache_coherent h).1⟩

end Xv6
