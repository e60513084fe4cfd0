import Xv6.Coherence

/-!
# The state of the buffer cache

`BioInv` holds in every state of the buffer cache. The steps of its users keep
it.
-/

namespace Xv6

open Hoare List

/-! ## The statements of a commit -/

def live : List Instr → Reg → Bool
  | [], _ => false
  | .bread r' _ :: code, r => r' ≠ r && live code r
  | .brelse r' :: code, r => r' = r || live code r
  | _ :: code, r => live code r

def WellUsed : List Instr → Prop
  | [] => True
  | i :: code => WellUsed code ∧
    match i with
    | .bread r _ => live code r = true
    | .brelse r => live code r = false ∧ .bwrite r ∉ code
    | .bwrite r | .bunpin r => live code r = true
    | .log => live code .fst = true ∧ live code .snd = true ∧ .bwrite .fst ∈ code
    | .home => live code .fst = true ∧ live code .snd = true ∧ .bwrite .snd ∈ code
    | .head => live code .fst = true ∧ .bwrite .fst ∈ code
    | .clear => True

theorem WellUsed.suffix {code code' : List Instr} (h : WellUsed code) (hs : code' <:+ code) : WellUsed code' := by
  obtain ⟨pre, rfl⟩ := hs
  induction pre with
  | nil => exact h
  | cons i pre ih => exact ih h.1

theorem wellUsed_round (start : Nat) (lh : List Nat) (phase : Phase) : WellUsed (round start lh phase) := by
  cases phase <;> simp [round, WellUsed, live]

theorem live_round (start : Nat) (lh : List Nat) (phase : Phase) (r : Reg) : live (round start lh phase) r = false := by
  cases phase <;> cases r <;> simp [round, live]

def RegOk (code : List Instr) (r : Reg) : Option Use → Prop
  | none => live code r = false
  | some u => ((u.st = .locking ∨ u.st = .reading) ∧ code.head? = some (.bread r u.blk)) ∨
    (live code r = true ∧
      ((u.held = true ∧ (u.st = .dirty → .bwrite r ∈ code)) ∨ (u.st = .dropping ∧ code.head? = some (.brelse r))))

def Logged (s : Bio) (t : Nat) : Prop := s.latest (s.start + t + 1) = s.latest (s.log.lh.getD t 0)

def Progress (s : Bio) (c : Commit) : Prop :=
  match c.phase with
  | .idle => False
  | .writeLog tail => tail < s.log.lh.length ∧ (∀ t < tail, Logged s t) ∧ (.log ∉ c.code → Logged s tail)
  | .writeHead => 0 < s.log.lh.length ∧ ∀ t < s.log.lh.length, Logged s t
  | .install tail => tail < s.log.lh.length ∧ (∀ t < s.log.lh.length, Logged s t) ∧
    (.bwrite .snd ∉ c.code → s.disk (s.log.lh.getD tail 0) = s.latest (s.log.lh.getD tail 0))
  | .erase => .clear ∉ c.code → s.log.lh = []
  | .done => s.log.lh = []

structure CommitOk (s : Bio) (c : Commit) : Prop where
  suffix : c.code <:+ round s.start s.log.lh c.phase
  blks : ∀ r u, c.reg r = some u → .bread r u.blk ∈ round s.start s.log.lh c.phase
  regs : ∀ r, RegOk c.code r (c.reg r)
  progress : Progress s c

def Commit.pins (c : Commit) (lh : List Nat) : List Nat :=
  match c.phase with
  | .install tail => lh.drop (if .bunpin .snd ∈ c.code then tail else tail + 1)
  | .erase | .done => []
  | .idle | .writeLog _ | .writeHead => lh

def Bio.pins (s : Bio) : List Nat :=
  match s.commit with
  | none => s.log.lh
  | some c => c.pins s.log.lh

def Commit.uses (reg : Reg → Option Use) : List Use := (reg .fst).toList ++ (reg .snd).toList

def Bio.handles (s : Bio) : List Use :=
  match s.commit with
  | none => s.uses
  | some c => Commit.uses c.reg ++ s.uses

structure Books (s : Bio) : Prop where
  count : s.log.outstanding = s.ops.length
  procs : (s.ops.map Tx.proc).Nodup
  commit : s.log.committing = true ↔ s.commit ≠ none
  quiet : s.commit ≠ none → s.ops = []
  dirty : ∀ u ∈ s.uses, u.st = .dirty → s.inOp u.proc
  nodup : s.log.lh.Nodup
  home : ∀ blk ∈ s.log.lh, ¬ s.isLog blk
  small : s.log.lh.length ≤ LOGBLOCKS

structure BioInv (s : Bio) : Prop extends Books s where
  good : Good s s.handles s.pins
  running : ∀ c, s.commit = some c → CommitOk s c

theorem BioInv.boot (disk : Nat → Block) (start : Nat) : BioInv (.boot disk start) := by
  refine ⟨⟨rfl, ?_, ?_, ?_, ?_, ?_, ?_, ?_⟩, ⟨BufCore.binit, ?_, ?_⟩, ?_⟩
  · exact nodup_nil
  · simp [Bio.boot]
  · intro h; exact absurd rfl h
  · intro u hu; cases hu
  · exact nodup_nil
  · intro u hu; cases hu
  · exact Nat.zero_le _
  · intro b blk _ hv; cases hv
  · intro blk; exact .inl rfl
  · intro c hc; cases hc

/-! ## The users -/

variable {s s' : Bio} {u : Use} {j : Nat} {E : BioStop → Prop}

theorem Books.inOp_idle (h : Books s) {i : Nat} (hi : s.inOp i) : s.commit = none := by
  by_contra hc
  obtain ⟨t, ht, -⟩ := hi
  rw [h.quiet hc] at ht
  cases ht

theorem CommitOk.congr (h : CommitOk s c) (hst : s'.start = s.start) (hlh : s'.log.lh = s.log.lh)
    (hd : s'.disk = s.disk) (hl : s'.latest = s.latest) : CommitOk s' c := by
  refine ⟨hst ▸ hlh ▸ h.suffix, hst ▸ hlh ▸ h.blks, h.regs, ?_⟩
  have hp := h.progress
  unfold Progress Logged at hp ⊢
  rw [hst, hlh, hd, hl]
  exact hp

def Bio.regUses (s : Bio) : List Use :=
  match s.commit with
  | none => []
  | some c => Commit.uses c.reg

theorem handles_eq (s : Bio) : s.handles = s.regUses ++ s.uses := by
  unfold Bio.handles Bio.regUses
  cases s.commit <;> rfl

theorem BioInv.user (h : BioInv s) {uses : List Use}
    (hg : Good { s with bc := c } (s.regUses ++ uses) s.pins) (hd : ∀ u ∈ uses, u.st = .dirty → s.inOp u.proc) :
    BioInv { s with bc := c, uses := uses } := by
  refine ⟨⟨h.count, h.procs, h.commit, h.quiet, hd, h.nodup, h.home, h.small⟩, ?_, ?_⟩
  · rw [handles_eq]
    exact ⟨hg.toBufCore, hg.fresh, hg.stored⟩
  · intro c hc
    exact (h.running c hc).congr rfl rfl rfl rfl

theorem handles_perm (hj : s.uses[j]? = some u) : s.handles.Perm (u :: (s.regUses ++ s.uses.eraseIdx j)) := by
  obtain ⟨hlt, rfl⟩ := List.getElem?_eq_some_iff.mp hj
  rw [handles_eq]
  exact ((getElem_cons_eraseIdx_perm hlt).symm.append_left _).trans perm_middle

theorem set_perm (hj : s.uses[j]? = some u) :
    (s.regUses ++ s.uses.set j o).Perm (o :: (s.regUses ++ s.uses.eraseIdx j)) := by
  obtain ⟨hlt, -⟩ := List.getElem?_eq_some_iff.mp hj
  exact ((set_perm_cons_eraseIdx hlt o).append_left _).trans perm_middle

theorem mem_of_getElem? (hj : s.uses[j]? = some u) : u ∈ s.uses := List.mem_of_getElem? hj

theorem wp_event_bread (h : BioInv s) (i blk : Nat) (hE : E .noBuffers) :
    wp (BioEvent.run (.bread i blk)) (fun _ s' => BioInv s' ∧ KeptBufs s s') E s := by
  refine wp_seq (wp_post (wp_bget h.good i blk fun _ _ => hE) ?_)
  rintro u t ⟨ht, hk, hg, -, hst, -⟩
  rw [wp_modify]
  have hp : (u :: s.handles).Perm (s.regUses ++ (s.uses ++ [u])) := by
    rw [handles_eq, ← append_assoc]
    exact (perm_append_singleton u _).symm
  generalize t.bc = c at ht
  subst ht
  refine ⟨h.user (hg.perm hp) ?_, hk⟩
  intro v hv hd
  rcases mem_append.mp hv with hv | hv
  · exact h.dirty v hv hd
  · rw [mem_singleton.mp hv, hst] at hd
    cases hd

theorem wp_event_acquire (h : BioInv s) (j : Nat) :
    wp (BioEvent.run (.acquire j)) (fun _ s' => BioInv s' ∧ KeptBufs s s') E s := by
  unfold BioEvent.run
  rw [wp_read]
  split
  · exact wp_ret ⟨h, fun _ _ _ => ⟨rfl, rfl⟩⟩
  · rename_i u hj
    refine wp_seq (wp_post (wp_acquireStep (h.good.perm (handles_perm hj))) ?_)
    rintro u' t ⟨ht, hk, hg, hp, -, ha⟩
    rw [wp_modify]
    generalize t.bc = c at ht
    subst ht
    refine ⟨h.user (hg.perm (set_perm hj).symm) ?_, hk⟩
    intro v hv hd
    rcases mem_or_eq_of_mem_set hv with hv | rfl
    · exact h.dirty v hv hd
    · have hu : u.st = .dirty := by
        rcases ha with ⟨he, -⟩ | ⟨-, he⟩ | ⟨-, he⟩
        · rw [← he, hd]
        · rw [he] at hd; cases hd
        · rw [he] at hd; cases hd
      rw [hp]; exact h.dirty u (mem_of_getElem? hj) hu

theorem wp_event_brelse (h : BioInv s) (j : Nat) (hl : Logs (.brelse j) s) :
    wp (BioEvent.run (.brelse j)) (fun _ s' => BioInv s' ∧ KeptBufs s s') E s := by
  unfold BioEvent.run
  rw [wp_read]
  split
  · exact wp_ret ⟨h, fun _ _ _ => ⟨rfl, rfl⟩⟩
  · rename_i u hj
    rw [wp_bind]
    have hst : u.st ≠ .dirty := hl u hj
    refine wp_post (wp_releaseStep (h.good.perm (handles_perm hj)) hst) ?_
    rintro o t ⟨ht, hk, hg, ho⟩
    rw [wp_modify]
    generalize t.bc = c at ht
    subst ht
    cases o with
    | none =>
      refine ⟨h.user hg ?_, hk⟩
      exact fun v hv hd => h.dirty v (mem_of_mem_eraseIdx hv) hd
    | some u' =>
      refine ⟨h.user (hg.perm (set_perm hj).symm) ?_, hk⟩
      intro v hv hd
      rcases mem_or_eq_of_mem_set hv with hv | rfl
      · exact h.dirty v hv hd
      · rcases ho with ⟨ho, -⟩ | ⟨-, ho⟩ | ⟨-, ho⟩
        · rw [Option.some.inj ho] at hd
          exact absurd hd hst
        · rw [Option.some.inj ho] at hd
          cases hd
        · cases ho

theorem handles_idle (hc : s.commit = none) : s.handles = s.uses := by
  unfold Bio.handles
  rw [hc]

theorem pins_idle (hc : s.commit = none) : s.pins = s.log.lh := by
  unfold Bio.pins
  rw [hc]

theorem wp_event_change (h : BioInv s) (j : Nat) (v : Block) (hl : Logs (.change j v) s) :
    wp (BioEvent.run (.change j v)) (fun _ s' => BioInv s' ∧ KeptBufs s s') E s := by
  unfold BioEvent.run
  rw [wp_read]
  split
  · exact wp_ret ⟨h, fun _ _ _ => ⟨rfl, rfl⟩⟩
  · rename_i u hj
    refine wp_ite (fun hh => ?_) fun _ => wp_ret ⟨h, fun _ _ _ => ⟨rfl, rfl⟩⟩
    rw [wp_set]
    obtain ⟨hop, -⟩ := hl u hj
    have hc := h.inOp_idle hop
    have hg : Good { s.setData u.b v with
        uses := s.uses.set j { u with st := .dirty }, latest := Function.update s.latest u.blk v }
        ({ u with st := .dirty } :: (s.regUses ++ s.uses.eraseIdx j)) s.pins :=
      (h.good.perm (handles_perm hj)).change hh rfl rfl rfl
    refine ⟨⟨⟨h.count, h.procs, h.commit, h.quiet, ?_, h.nodup, h.home, h.small⟩, ?_, ?_⟩, ?_⟩
    · intro w hw hd
      rcases mem_or_eq_of_mem_set hw with hw | rfl
      · exact h.dirty w hw hd
      · exact hop
    · rw [handles_eq]
      exact hg.perm (set_perm hj).symm
    · intro c hc'
      rw [show s.commit = some c from hc'] at hc
      cases hc
    · exact KeptBufs.of_set (b := u.b) rfl fun _ => ⟨rfl, rfl⟩

theorem wp_onBioLog {α : Type} {x : Prog Log LogStop α} {Q : α → Bio → Prop} :
    wp (onBioLog x) Q E s ↔ wp x (fun a l => Q a { s with log := l }) (fun e => E (.log e)) s.log := wp_zoom ..

def Bio.wrote (s : Bio) (u : Use) (lh : List Nat) (c : Bcache) : Bio :=
  { s with
    log := { s.log with lh := lh }
    bc := c
    ops := s.ops.map fun t => if t.proc = u.proc then { t with blocks := insert u.blk t.blocks } else t }

theorem procs_wrote (s : Bio) (u : Use) (lh : List Nat) (c : Bcache) :
    (s.wrote u lh c).ops.map Tx.proc = s.ops.map Tx.proc := by
  unfold Bio.wrote
  rw [map_map]
  refine map_congr_left fun t _ => ?_
  dsimp only [Function.comp]
  split <;> rfl

theorem inOp_iff {s : Bio} {i : Nat} : s.inOp i ↔ i ∈ s.ops.map Tx.proc := by
  unfold Bio.inOp
  rw [mem_map]

theorem wp_log_write (hE : LOGBLOCKS ≤ s.log.lh.length ∨ s.log.outstanding < 1 → ∀ e, E (.log e)) :
    wp (Xv6.log_write u) (fun _ s' => s.log.lh.length < LOGBLOCKS ∧
    ((u.blk ∈ s.log.lh ∧ s' = s.wrote u s.log.lh s.bc) ∨
      (u.blk ∉ s.log.lh ∧ s' = s.wrote u (s.log.lh ++ [u.blk]) (s.bc.bpin u.b)))) E s := by
  unfold Xv6.log_write Log.log_write
  rw [wp_read, wp_bind, wp_onBioLog, wp_bind, wp_get]
  refine wp_ite (fun hge => wp_fail (hE (.inl hge) _)) fun hlt => ?_
  refine wp_ite (fun hout => wp_fail (hE (.inr hout) _)) fun _ => ?_
  refine wp_ite (fun hm => ?_) fun hm => ?_
  · rw [wp_pure, if_neg (not_not.mpr hm)]
    rw [wp_modify]
    exact ⟨by omega, .inl ⟨hm, rfl⟩⟩
  · rw [wp_set, if_pos hm, wp_bind, wp_modify, wp_modify]
    exact ⟨by omega, .inr ⟨hm, rfl⟩⟩

theorem BioInv.wrote (h : BioInv s) {lh : List Nat} {c : Bcache} {uses : List Use} (hc : s.commit = none)
    (hg : Good { s.wrote u lh c with uses := uses } uses lh)
    (hd : ∀ v ∈ uses, v.st = .dirty → s.inOp v.proc) (hn : lh.Nodup) (hh : ∀ blk ∈ lh, ¬ s.isLog blk)
    (hs : lh.length ≤ LOGBLOCKS) : BioInv { s.wrote u lh c with uses := uses } := by
  refine ⟨⟨?_, ?_, h.commit, ?_, ?_, hn, hh, hs⟩, ?_, ?_⟩
  · have := h.count
    unfold Bio.wrote
    rw [length_map]; exact this
  · have := h.procs
    rwa [← procs_wrote s u lh c] at this
  · exact fun hne => absurd hc hne
  · intro v hv hvd
    have := hd v hv hvd
    rw [inOp_iff, ← procs_wrote s u lh c] at this
    exact inOp_iff.mpr this
  · rw [handles_idle (s := { s.wrote u lh c with uses := uses }) hc,
      pins_idle (s := { s.wrote u lh c with uses := uses }) hc]
    exact hg
  · intro c' hc'
    rw [show s.commit = some c' from hc'] at hc
    cases hc

theorem wp_event_log_write (h : BioInv s) (j : Nat) (hl : Logs (.log_write j) s) (hE : ∀ e, E (.log e)) :
    wp (BioEvent.run (.log_write j)) (fun _ s' => BioInv s' ∧ KeptBufs s s') E s := by
  unfold BioEvent.run
  rw [wp_read]
  split
  · exact wp_ret ⟨h, fun _ _ _ => ⟨rfl, rfl⟩⟩
  · rename_i u hj
    refine wp_ite (fun hh => ?_) fun _ => wp_ret ⟨h, fun _ _ _ => ⟨rfl, rfl⟩⟩
    rw [wp_bind]
    obtain ⟨hop, hlog⟩ := hl u hj
    have hc := h.inOp_idle hop
    have hreg : s.regUses = [] := by unfold Bio.regUses; rw [hc]
    have hgood := h.good
    rw [pins_idle hc] at hgood
    have hdirty : ∀ v ∈ s.uses.set j { u with st := .holding }, v.st = .dirty → s.inOp v.proc := by
      intro v hv hd
      rcases mem_or_eq_of_mem_set hv with hv | rfl
      · exact h.dirty v hv hd
      · cases hd
    have hset := set_perm (o := { u with st := .holding }) hj
    rw [hreg, nil_append, nil_append] at hset
    have hperm := handles_perm hj
    rw [hreg, nil_append] at hperm
    refine wp_post (wp_log_write fun _ => hE) ?_
    rintro - t ⟨hlt, ⟨hm, rfl⟩ | ⟨hm, rfl⟩⟩
    · rw [wp_modify]
      refine ⟨h.wrote hc ?_ hdirty h.nodup h.home h.small, fun _ _ _ => ⟨rfl, rfl⟩⟩
      refine Good.perm ?_ hset.symm
      exact (hgood.perm hperm).hold hh rfl rfl (fun _ _ => rfl) (.inr hm)
    · rw [wp_modify]
      refine ⟨h.wrote hc ?_ hdirty ?_ ?_ ?_, KeptBufs.of_set (b := u.b) rfl fun _ => ⟨rfl, rfl⟩⟩
      · refine Good.perm ?_ hset.symm
        refine ((hgood.perm hperm).bpin mem_cons_self hh hm).hold hh rfl rfl (fun _ _ => rfl) (.inr ?_)
        exact mem_append_right _ mem_cons_self
      · exact nodup_append.mpr ⟨h.nodup, nodup_singleton _, fun a ha b hb =>
          fun he => hm (mem_singleton.mp hb ▸ he ▸ ha)⟩
      · intro k hk
        rcases mem_append.mp hk with hk | hk
        · exact h.home k hk
        · rw [mem_singleton.mp hk]; exact hlog
      · rw [length_append]
        exact hlt

theorem wp_event_begin_op (h : BioInv s) (i : Nat) (hl : Logs (.begin_op i) s) :
    wp (BioEvent.run (.begin_op i)) (fun _ s' => BioInv s' ∧ KeptBufs s s') E s := by
  unfold BioEvent.run Log.begin_op
  rw [wp_bind, wp_onBioLog, wp_bind, wp_get]
  have hsame : BioInv s ∧ KeptBufs s s := ⟨h, fun _ _ _ => ⟨rfl, rfl⟩⟩
  refine wp_ite (fun _ => ?_) fun hcom => wp_ite (fun _ => ?_) fun _ => ?_
  · rw [wp_pure, if_neg Bool.false_ne_true, wp_pure]; exact hsame
  · rw [wp_pure, if_neg Bool.false_ne_true, wp_pure]; exact hsame
  · rw [wp_bind, wp_set, wp_pure, if_pos rfl, wp_modify]
    have hc : s.commit = none := by
      by_contra hne
      exact hcom (h.commit.mpr hne)
    refine ⟨⟨⟨?_, ?_, h.commit, fun hne => absurd hc hne, ?_, h.nodup, h.home, h.small⟩, ?_, ?_⟩, fun _ _ _ => ⟨rfl, rfl⟩⟩
    · have := h.count
      dsimp only
      rw [length_append, length_singleton]
      omega
    · dsimp only
      rw [map_append, map_singleton]
      refine nodup_append.mpr ⟨h.procs, nodup_singleton _, fun a ha b hb he => ?_⟩
      have hb : b = i := mem_singleton.mp hb
      exact hl (inOp_iff.mpr (hb ▸ he ▸ ha))
    · intro u hu hd
      obtain ⟨t, ht, hp⟩ := h.dirty u hu hd
      exact ⟨t, mem_append_left _ ht, hp⟩
    · have hg := h.good
      rw [handles_idle hc, pins_idle hc] at hg
      rw [hc]
      exact ⟨hg.toBufCore, hg.fresh, hg.stored⟩
    · intro c hc'
      rw [show s.commit = some c from hc'] at hc
      cases hc

theorem length_filter_proc {i : Nat} : ∀ {ops : List Tx}, (ops.map Tx.proc).Nodup → i ∈ ops.map Tx.proc →
    (ops.filter (fun t => t.proc ≠ i)).length + 1 = ops.length
  | [], _, hm => by cases hm
  | t :: ops, hn, hm => by
    obtain ⟨ht, hn⟩ := nodup_cons.mp hn
    by_cases hi : t.proc = i
    · have hall : ops.filter (fun t => t.proc ≠ i) = ops := by
        rw [filter_eq_self]
        intro t' ht'
        simp only [ne_eq, decide_eq_true_eq]
        intro he
        exact ht (hi ▸ he ▸ mem_map_of_mem ht')
      rw [filter_cons_of_neg (by simpa using hi), hall, length_cons]
    · have hm := (mem_cons.mp hm).resolve_left (Ne.symm hi)
      rw [filter_cons_of_pos (by simpa using hi), length_cons, length_filter_proc hn hm, length_cons]

theorem CommitOk.start (i : Nat) : CommitOk s (.start i s.start s.log.lh) := by
  refine ⟨suffix_rfl, ?_, ?_, ?_⟩
  · intro r u hu; cases hu
  · intro r
    exact live_round ..
  · unfold Progress Commit.start
    by_cases h0 : s.log.lh.length = 0
    · rw [if_pos h0]
      exact length_eq_zero_iff.mp h0
    · rw [if_neg h0]
      refine ⟨by omega, fun t ht => absurd ht (Nat.not_lt_zero t), fun hl => ?_⟩
      simp [round] at hl

theorem pins_start (i start : Nat) (lh : List Nat) : (Commit.start i start lh).pins lh = lh := by
  unfold Commit.start Commit.pins
  by_cases h0 : lh.length = 0
  · simp [length_eq_zero_iff.mp h0]
  · simp [h0]

theorem wp_event_end_op (h : BioInv s) (i : Nat) (hl : Logs (.end_op i) s) (hE : ∀ e, E (.log e)) :
    wp (BioEvent.run (.end_op i)) (fun _ s' => BioInv s' ∧ KeptBufs s s') E s := by
  unfold BioEvent.run Log.end_op
  rw [wp_read]
  refine wp_ite (fun hany => ?_) fun _ => wp_ret ⟨h, fun _ _ _ => ⟨rfl, rfl⟩⟩
  rw [wp_bind, wp_modify, wp_bind, wp_onBioLog, wp_bind, wp_get]
  have hi : s.inOp i := by
    obtain ⟨t, ht, hp⟩ := any_eq_true.mp hany
    exact ⟨t, ht, of_decide_eq_true hp⟩
  have hc := h.inOp_idle hi
  have hlen := length_filter_proc h.procs (inOp_iff.mp hi)
  have hcount := h.count
  have hg := h.good
  rw [handles_idle hc, pins_idle hc] at hg
  have hprocs : ((s.ops.filter (fun t => t.proc ≠ i)).map Tx.proc).Nodup :=
    h.procs.sublist (filter_sublist.map _)
  have hdirty : ∀ u ∈ s.uses, u.st = .dirty → ∃ t ∈ s.ops.filter (fun t => t.proc ≠ i), t.proc = u.proc := by
    intro u hu hd
    obtain ⟨t, ht, hp⟩ := h.dirty u hu hd
    refine ⟨t, mem_filter.mpr ⟨ht, ?_⟩, hp⟩
    simp only [ne_eq, decide_eq_true_eq]
    intro he
    exact hl u hu (hp ▸ he) hd
  refine wp_ite (fun _ => wp_fail (hE _)) fun hcom => wp_ite (fun h0 => ?_) fun h0 => ?_
  · rw [wp_bind, wp_set, wp_pure, if_pos rfl, wp_modify]
    dsimp only at h0
    have hnil : s.ops.filter (fun t => t.proc ≠ i) = [] := length_eq_zero_iff.mp (by omega)
    have hbooks : Books { s with
        ops := s.ops.filter (fun t => t.proc ≠ i)
        log := { s.log with outstanding := s.log.outstanding - 1, committing := true }
        commit := some (Commit.start i s.start s.log.lh) } := by
      refine ⟨?_, hprocs, ?_, fun _ => hnil, hdirty, h.nodup, h.home, h.small⟩
      · dsimp only; omega
      · simp
    refine ⟨⟨hbooks, ?_, ?_⟩, fun _ _ _ => ⟨rfl, rfl⟩⟩
    · unfold Bio.handles Bio.pins
      dsimp only
      rw [pins_start]
      exact ⟨hg.toBufCore, hg.fresh, hg.stored⟩
    · intro c hc'
      rw [← Option.some.inj hc']
      exact CommitOk.start i
  · rw [wp_bind, wp_set, wp_pure, if_neg Bool.false_ne_true, wp_pure]
    refine ⟨⟨⟨?_, hprocs, h.commit, fun hne => absurd hc hne, hdirty, h.nodup, h.home, h.small⟩, ?_, ?_⟩,
      fun _ _ _ => ⟨rfl, rfl⟩⟩
    · dsimp only; omega
    · unfold Bio.handles Bio.pins
      rw [hc]
      exact ⟨hg.toBufCore, hg.fresh, hg.stored⟩
    · intro c hc'
      rw [show s.commit = some c from hc'] at hc
      cases hc

end Xv6
