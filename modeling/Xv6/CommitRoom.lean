import Xv6.CacheRun

/-!
# Does a commit find its buffers?

`commit` needs one buffer for the log's own blocks while the logged blocks
are pinned. It gets one as long as they are fewer than the buffers.
-/

namespace Xv6

open Hoare
open List (length_map length_range mem_cons mem_map mem_range not_mem_nil suffix_cons_iff)

variable {s s' : Bio} {c : Commit} {disk : Nat → Block} {start i : Nat} {tr : List (BioEvent × Bio)}
variable {lh pins : List Nat} {phase : Phase} {rest : List Instr}

/-- The commit, with nobody else at work, comes to its end, and then no buffer is referenced. -/
def Commits (s : Bio) : Prop :=
  ∃ n s', runs BioEvent.run Logs (List.replicate n .commit) s = some s' ∧ s'.commit = none ∧
    ∀ b < NBUF, (s'.bc.buf b).refcnt = 0

structure Alone (s : Bio) (c : Commit) : Prop extends BioInv s where
  here : s.commit = some c
  nobody : s.uses = []
  few : s.log.lh.length < NBUF

theorem pins_sublist (c : Commit) (lh : List Nat) : (c.pins lh).Sublist lh := by
  unfold Commit.pins
  cases c.phase with
  | install tail => exact List.drop_sublist _ _
  | erase | done => exact List.nil_sublist _
  | idle | writeLog | writeHead => exact List.Sublist.refl _

theorem BufCore.le_length {c : Bcache} {hs : List Use} (h : BufCore c hs pins) (blks : List Nat)
    (hall : ∀ b < NBUF, ∃ blk ∈ blks, c.Cached b blk) : NBUF ≤ blks.length := by
  have hsub : (List.range NBUF).map (fun b => (c.buf b).blockno) ⊆ blks := by
    intro k hk
    obtain ⟨b, hb, rfl⟩ := mem_map.mp hk
    obtain ⟨blk, hm, hc⟩ := hall b (mem_range.mp hb)
    rw [hc.2.2]; exact hm
  have hnd : ((List.range NBUF).map (fun b => (c.buf b).blockno)).Nodup := by
    refine List.Nodup.map_on ?_ List.nodup_range
    intro b hb b' hb' he
    obtain ⟨_, _, hc⟩ := hall b (mem_range.mp hb)
    obtain ⟨_, _, hc'⟩ := hall b' (mem_range.mp hb')
    exact h.unique b b' _ ⟨hc.1, hc.2.1, rfl⟩ ⟨hc'.1, hc'.2.1, he.symm⟩
  have hle := (List.subperm_of_subset hnd hsub).length_le
  rwa [length_map, length_range] at hle

theorem BufCore.exists_free {c : Bcache} (h : BufCore c [] pins) (hlt : pins.length < NBUF) :
    ∃ b < NBUF, (c.buf b).refcnt = 0 := by
  by_contra hno
  push Not at hno
  refine absurd (h.le_length pins fun b hb => ?_) (not_le.mpr hlt)
  have hr := h.refs b hb
  have hpos := hno b hb
  unfold pinCount at hr
  by_cases hp : (c.buf b).dev = ROOTDEV ∧ (c.buf b).blockno ∈ pins
  · exact ⟨_, hp.2, hb, hp.1, rfl⟩
  · rw [if_neg hp] at hr
    exact absurd hr hpos

theorem BufCore.all_pinned {c : Bcache} {hs : List Use} (h : BufCore c hs pins) (hn : pins.Nodup)
    (hle : NBUF ≤ pins.length) : ∀ b < NBUF, ∃ blk ∈ pins, c.Cached b blk := by
  intro b hb
  by_contra hno
  push Not at hno
  choose! f hf using h.pinned
  have hnd : (pins.map f).Nodup := by
    refine List.Nodup.map_on ?_ hn
    intro k hk k' hk' he
    have h1 := (hf k hk).1.2.2
    rw [he] at h1
    exact h1.symm.trans (hf k' hk').1.2.2
  have hsub : pins.map f ⊆ (List.range NBUF).erase b := by
    intro a ha
    obtain ⟨k, hk, rfl⟩ := mem_map.mp ha
    refine (List.mem_erase_of_ne ?_).mpr (mem_range.mpr (hf k hk).1.1)
    intro he
    exact hno k hk (he ▸ (hf k hk).1)
  have hlen := (List.subperm_of_subset hnd hsub).length_le
  rw [length_map, List.length_erase_of_mem (mem_range.mpr hb), length_range] at hlen
  omega

/-! ## The commit gets through -/

theorem fst_first {blk start : Nat}
    (hs : .bread .fst blk :: rest <:+ round start lh phase) : live (.bread .fst blk :: rest) .snd = false := by
  cases phase <;> simp [round, suffix_cons_iff] at hs <;> simp [hs, live]

theorem snd_pinned {proc blk start : Nat}
    (hs : .bread .snd blk :: rest <:+ round start lh phase) (ht : ∀ tail, phase = .writeLog tail ∨ phase = .install tail →
      tail < lh.length) : blk ∈ Commit.pins ⟨proc, phase, .bread .snd blk :: rest, reg⟩ lh := by
  cases phase with
  | writeLog tail =>
    have hlt := ht tail (.inl rfl)
    simp [round, suffix_cons_iff] at hs
    rw [hs.1, List.getElem?_eq_getElem hlt]
    exact List.getElem_mem hlt
  | install tail =>
    have hlt := ht tail (.inr rfl)
    simp [round, suffix_cons_iff] at hs
    rw [hs.1, List.getElem?_eq_getElem hlt]
    simp only [Commit.pins, hs.2]
    rw [if_pos (by simp), List.drop_eq_getElem_cons hlt]
    exact List.mem_cons_self
  | idle | writeHead | erase | done => simp [round, suffix_cons_iff] at hs

theorem Progress.tail_lt (h : Progress s c) {tail : Nat} (hp : c.phase = .writeLog tail ∨ c.phase = .install tail) :
    tail < s.log.lh.length := by
  unfold Progress at h
  rcases hp with hp | hp
  · rw [hp] at h; exact h.1
  · rw [hp] at h; exact h.1

theorem Alone.only (h : Alone s c) : Good s (Commit.uses c.reg) (c.pins s.log.lh) := by
  have hg := h.toBioInv.good
  unfold Bio.handles Bio.pins at hg
  rw [h.here] at hg
  dsimp only at hg
  rwa [h.nobody, List.append_nil] at hg

theorem Alone.finds (h : Alone s c) (hcode : c.code = .bread r blk :: rest)
    (hr : c.reg r = none) : (∃ a, s.bc.Cached a blk) ∨ ∃ a < NBUF, (s.bc.buf a).refcnt = 0 := by
  have hok := h.running c h.here
  have hg := h.only
  obtain ⟨proc, phase, code, reg⟩ := c
  dsimp only at hcode hr
  subst hcode
  cases r with
  | fst =>
    have hsnd : reg .snd = none := by
      have hlive := fst_first hok.suffix
      have hreg := hok.regs .snd
      cases he : reg .snd with
      | none => rfl
      | some u =>
        rw [show (⟨proc, phase, .bread .fst blk :: rest, reg⟩ : Commit).reg .snd = some u from he] at hreg
        rcases hreg with ⟨-, hh⟩ | ⟨hl, -⟩
        · cases hh
        · rw [hlive] at hl; cases hl
    have hnil : Commit.uses reg = [] := by simp [Commit.uses, hr, hsnd]
    rw [hnil] at hg
    have hlen := (pins_sublist ⟨proc, phase, .bread .fst blk :: rest, reg⟩ s.log.lh).length_le
    exact .inr (hg.toBufCore.exists_free (lt_of_le_of_lt hlen h.few))
  | snd =>
    obtain ⟨a, ha, -⟩ := hg.pinned blk (snd_pinned hok.suffix fun _ hp => hok.progress.tail_lt hp)
    exact .inl ⟨a, ha⟩

theorem blks_ne {start k k' : Nat} (hb : .bread .fst k ∈ round start lh phase)
    (hb' : .bread .snd k' ∈ round start lh phase) :
    ∃ tail, (phase = .writeLog tail ∨ phase = .install tail) ∧ k = start + tail + 1 ∧ k' = lh.getD tail 0 := by
  cases phase with
  | writeLog tail =>
    simp only [round, mem_cons, Instr.bread.injEq, reduceCtorEq, false_and, true_and, false_or, or_false,
      not_mem_nil] at hb hb'
    exact ⟨tail, .inl rfl, hb, hb'⟩
  | install tail =>
    simp only [round, mem_cons, Instr.bread.injEq, reduceCtorEq, false_and, true_and, false_or, or_false,
      not_mem_nil] at hb hb'
    exact ⟨tail, .inr rfl, hb, hb'⟩
  | idle | writeHead | erase | done => simp [round] at hb'

theorem Alone.blks_ne (h : Alone s c) (hu : c.reg .fst = some u) (hv : c.reg .snd = some v) :
    u.blk ≠ v.blk := by
  have hok := h.running c h.here
  obtain ⟨tail, hp, he, he'⟩ := Xv6.blks_ne (hok.blks .fst u hu) (hok.blks .snd v hv)
  have hlt := hok.progress.tail_lt hp
  rw [he, he']
  exact (h.slot_ne hlt hlt).1.symm

theorem Alone.unblocked (h : Alone s c) : Unblocked s c := by
  intro r u hu hst
  have hg := h.only
  have hmem : ∀ r u, c.reg r = some u → u ∈ Commit.uses c.reg := by
    intro r u hu
    cases r <;> simp [Commit.uses, hu]
  have hplace := hg.place u (hmem r u hu)
  by_contra hl
  have hcount := hg.locks u.b hplace.1
  rw [if_neg hl] at hcount
  obtain ⟨v, hv, hp⟩ := List.countP_pos_iff.mp (show 0 < _ by rw [hcount]; exact Nat.one_pos)
  obtain ⟨hvb, hvl⟩ := of_decide_eq_true hp
  have hblk : v.blk = u.blk := by
    have := (hg.place v hv).2.2
    rw [hvb] at this
    exact this.symm.trans hplace.2.2
  have hul : u.locked = false := by simp [Use.locked, Use.held, hst]
  -- the holder is the other variable, which is for another block
  simp only [Commit.uses, List.mem_append, Option.mem_toList] at hv
  rcases hv with hv | hv
  · cases r with
    | fst =>
      rw [hu] at hv
      rw [Option.some.inj hv, hvl] at hul
      cases hul
    | snd => exact h.blks_ne hv hu hblk
  · cases r with
    | fst => exact h.blks_ne hu hv hblk.symm
    | snd =>
      rw [hu] at hv
      rw [Option.some.inj hv, hvl] at hul
      cases hul

theorem Alone.commits (h : Alone s c) : Commits s := by
  -- by induction on the work that is left
  induction hw : c.work using Nat.strong_induction_on generalizing s c with
  | _ w ih =>
    have hstep : wp c.step (Stepped s c) (fun _ => False) s := by
      refine wp_commit_step h.toBioInv h.here ?_
      intro r blk rest hcode hr hno hall
      rcases h.finds hcode hr with ⟨a, ha⟩ | ⟨a, ha, h0⟩
      · exact hno a ha
      · exact hall a ha h0
    obtain ⟨o, t, hrun, hinv, -, ⟨huses, -⟩, hlh, hend, hwork⟩ := wp_total hstep
    have hev : BioEvent.run .commit s = .ok ((), { t with commit := o }) := by
      have hrun' : c.step s = .ok (o, t) := hrun
      simp only [BioEvent.run, bind, StateT.bind, get, getThe, MonadStateOf.get, StateT.get, pure, Except.pure,
        Except.bind, h.here, hrun', modify, modifyGet, MonadStateOf.modifyGet, StateT.modifyGet]
    have hcons : ∀ n s', runs BioEvent.run Logs (List.replicate n .commit) { t with commit := o } = some s' →
        runs BioEvent.run Logs (List.replicate (n + 1) .commit) s = some s' := by
      intro n s' hr
      rw [List.replicate_succ, runs, if_pos (show Logs .commit s from trivial), hev]
      exact hr
    cases o with
    | none =>
      refine ⟨1, _, hcons 0 _ rfl, rfl, fun b hb => ?_⟩
      have hg := hinv.good
      rw [handles_idle (s := { t with commit := none }) rfl, pins_idle (s := { t with commit := none }) rfl] at hg
      rw [hend rfl, huses, h.nobody] at hg
      have := hg.refs b hb
      simpa [pinCount] using this
    | some c' =>
      have halone : Alone { t with commit := some c' } c' := by
        refine ⟨hinv, rfl, huses.trans h.nobody, ?_⟩
        rcases hlh with hlh | hlh
        · dsimp only; rw [hlh]; exact h.few
        · dsimp only; rw [hlh]; decide
      obtain ⟨n, s', hr, hn, hz⟩ := ih c'.work (hw ▸ hwork h.unblocked c' rfl) halone rfl
      exact ⟨n + 1, s', hcons n s' hr, hn, hz⟩

theorem refuses (h : BioInv s) (hc : s.commit = some (.start i s.start s.log.lh)) (hle : NBUF ≤ s.log.lh.length) :
    BioEvent.run .commit s = .error .noBuffers := by
  have h0 : s.log.lh.length ≠ 0 := by
    intro he
    rw [he] at hle
    exact absurd hle (by decide)
  have hg := h.good
  unfold Bio.handles Bio.pins at hg
  rw [hc] at hg
  dsimp only at hg
  rw [pins_start] at hg
  have hall := hg.all_pinned h.nodup hle
  have hnone : s.bc.bget ROOTDEV (s.start + 0 + 1) = none := by
    rcases hg.listed.bget_cases (s.start + 0 + 1) with ⟨b, hb, -⟩ | ⟨b, hb, -, h0, -⟩ | ⟨-, -, he⟩
    · obtain ⟨blk, hm, hc⟩ := hall b hb.1
      refine absurd ?_ (h.home blk hm)
      have hblk : blk = s.start + 0 + 1 := hc.2.2.symm.trans hb.2.2
      unfold Bio.isLog
      lia
    · obtain ⟨blk, hm, hc⟩ := hall b hb
      exact absurd hc ((hg.free hb h0).2 blk hm)
    · exact he
  have hstep : (Commit.start i s.start s.log.lh).step s = .error .noBuffers := by
    simp only [Commit.step, Commit.start, if_neg h0, round, bind, StateT.bind, get, getThe, MonadStateOf.get, StateT.get,
      pure, Except.pure, Except.bind, bget, hnone, throw, throwThe, MonadExceptOf.throw]
    rfl
  simp only [BioEvent.run, bind, StateT.bind, get, getThe, MonadStateOf.get, StateT.get, pure, Except.pure,
    Except.bind, hc, hstep]

theorem not_commits (hc : s.commit ≠ none) (hr : BioEvent.run .commit s = .error e) : ¬ Commits s := by
  rintro ⟨n, s', hs, hn, -⟩
  cases n with
  | zero =>
    rw [← Option.some.inj hs] at hn
    exact hc hn
  | succ n =>
    rw [List.replicate_succ, runs, if_pos (show Logs .commit s from trivial), hr] at hs
    cases hs

/-- No operation passes more than `MAXOPBLOCKS` different blocks to `log_write`. -/
def Small : BioEvent → Bio → Prop
  | .log_write j, s => ∀ u ∈ s.uses[j]?, ∀ t ∈ s.ops, t.proc = u.proc → (insert u.blk t.blocks).card ≤ MAXOPBLOCKS
  | _, _ => True

/-- A commit that begins with no buffer in use but those pinned gets through if and only if it leaves a buffer free. -/
theorem commit_finds_buffers
    (h : Trace BioEvent.run (fun e s => Logs e s ∧ Small e s) (.boot disk start) tr s)
    (hc : s.commit = some (.start i s.start s.log.lh)) (hu : s.uses = []) :
    Commits s ↔ s.log.lh.length < NBUF := by
  have hi := bioInv_of_trace (h.mono fun _ _ hp => hp.1)
  constructor
  · intro hcommits
    by_contra hle
    exact not_commits (by rw [hc]; exact Option.some_ne_none _) (refuses hi hc (Nat.not_lt.mp hle)) hcommits
  · intro hlt
    exact Alone.commits ⟨hi, hc, hu, hlt⟩

/-! ## Three operations of ten blocks each -/

def Only (s t : Bio) (u : Use) : Prop := t = { s with bc := t.bc, uses := [u] }

section
variable {t : Bio} {u : Use}

theorem Only.good (h : Only s t u) (hc : s.commit = none) (hI : BioInv t) : Good t [u] s.log.lh := by
  have hg := hI.good
  have ht : t.commit = none := by rw [h]; exact hc
  rw [handles_idle ht, pins_idle ht] at hg
  rw [h] at hg ⊢
  exact hg

theorem Only.first (h : Only s t u) : t.uses[0]? = some u := by rw [h]; rfl

theorem bread_alone (hI : BioInv s) (hc : s.commit = none) (hu : s.uses = []) (hlt : s.log.lh.length < NBUF) (i blk : Nat) :
    wp (BioEvent.run (.bread i blk)) (fun _ t => ∃ u, Only s t u ∧ u.proc = i ∧ u.blk = blk ∧ u.st = .locking)
      (fun _ => False) s := by
  have hg := hI.good
  rw [handles_idle hc, pins_idle hc, hu] at hg
  refine wp_seq (wp_post (wp_bget hg i blk fun _ hall => ?_) ?_)
  · obtain ⟨b, hb, h0⟩ := hg.exists_free hlt
    exact hall b hb h0
  · rintro u t ⟨ht, -, -, hblk, hst, hp⟩
    rw [wp_modify]
    refine ⟨u, ?_, hp, hblk, hst⟩
    unfold Only
    rw [ht]
    rw [hu, List.nil_append]

section
variable (hI : BioInv t) (h : Only s t u) (hc : s.commit = none)
include hI h hc

theorem acquire_alone
    (hst : u.st = .locking ∨ u.st = .reading) :
    wp (BioEvent.run (.acquire 0)) (fun _ t' => ∃ u', Only s t' u' ∧ u'.proc = u.proc ∧ u'.blk = u.blk ∧
      (u'.st = .holding ∨ (u.st = .locking ∧ u'.st = .reading))) (fun _ => False) t := by
  have hg := h.good hc hI
  have hlock : u.st = .locking → (t.bc.buf u.b).lock = none := by
    intro he
    have hl := hg.locks u.b (hg.place u List.mem_cons_self).1
    by_contra hne
    simp [hne, Use.locked, Use.held, he] at hl
  unfold BioEvent.run
  rw [wp_read, h.first]
  refine wp_seq (wp_post (wp_acquireStep hg) ?_)
  rintro u' t' ⟨ht, -, -, hp, hblk, ha⟩
  rw [wp_modify]
  refine ⟨u', ?_, hp, hblk, ?_⟩
  · unfold Only
    rw [ht, h]
    rfl
  · rcases ha with ⟨-, hnr, hl⟩ | ha | ⟨-, ha⟩
    · have he := hst.resolve_right hnr
      exact absurd (hlock he) (hl he)
    · exact .inr ha
    · exact .inl ha

theorem brelse_alone (hst : u.st = .holding) :
    wp (BioEvent.run (.brelse 0)) (fun _ t' => ∃ u', Only s t' u' ∧ u'.st = .dropping) (fun _ => False) t := by
  have hg := h.good hc hI
  unfold BioEvent.run
  rw [wp_read, h.first]
  refine wp_seq (wp_post (wp_releaseStep hg (by rw [hst]; decide)) ?_)
  rintro o t' ⟨ht, -, -, ho⟩
  rw [wp_modify]
  rcases ho with ⟨-, hn, -⟩ | ⟨-, rfl⟩ | ⟨hd, -⟩
  · simp [Use.held, hst] at hn
  · refine ⟨{ u with st := .dropping }, ?_, rfl⟩
    rw [ht, h]
    rfl
  · rw [hst] at hd; cases hd

theorem drop_alone (hst : u.st = .dropping) :
    wp (BioEvent.run (.brelse 0)) (fun _ t' => t' = { s with bc := t'.bc, uses := [] }) (fun _ => False) t := by
  have hg := h.good hc hI
  unfold BioEvent.run
  rw [wp_read, h.first]
  refine wp_seq (wp_post (wp_releaseStep hg (by rw [hst]; decide)) ?_)
  rintro o t' ⟨ht, -, -, ho⟩
  rw [wp_modify]
  rcases ho with ⟨-, -, hn⟩ | ⟨hh, -⟩ | ⟨-, rfl⟩
  · exact absurd hst hn
  · simp [Use.held, hst] at hh
  · rw [ht, h]
    rfl

end

theorem log_write_alone (h : Only s t u) (hst : u.st = .holding) (hlt : s.log.lh.length < LOGBLOCKS)
    (hout : 1 ≤ s.log.outstanding) (hn : u.blk ∉ s.log.lh) :
    wp (BioEvent.run (.log_write 0)) (fun _ t' => Only (s.wrote u (s.log.lh ++ [u.blk]) s.bc) t' u) (fun _ => False) t := by
  have hlog : t.log = s.log := by rw [h]
  unfold BioEvent.run
  rw [wp_read, h.first]
  dsimp only
  rw [if_pos (by simp [Use.held, hst]), wp_bind]
  refine wp_post (wp_log_write fun hbad => ?_) ?_
  · rw [hlog] at hbad
    omega
  · rintro - t' ⟨-, ⟨hm, -⟩ | ⟨-, rfl⟩⟩
    · rw [hlog] at hm
      exact absurd hm hn
    · rw [wp_modify]
      have hu : ({ u with st := .holding } : Use) = u := by rw [← hst]
      rw [hu, h]
      rfl

end

abbrev Modest (disk : Nat → Block) (start : Nat) (tr : List (BioEvent × Bio)) (s : Bio) : Prop :=
  Trace BioEvent.run (fun e s => Logs e s ∧ Small e s) (.boot disk start) tr s

theorem Modest.inv (h : Modest disk start tr s) : BioInv s := bioInv_of_trace (h.mono fun _ _ hp => hp.1)

theorem Modest.next {Q : Bio → Prop} {e : BioEvent} (h : Modest disk start tr s)
    (hw : wp e.run (fun _ t => Q t) (fun _ => False) s) (hl : Logs e s) (hm : Small e s) :
    ∃ tr' t, Modest disk start tr' t ∧ Q t := by
  obtain ⟨_, t, hr, hq⟩ := wp_total hw
  exact ⟨_, t, h.step ⟨hl, hm⟩ hr, hq⟩

theorem load (blk : Nat) (h : Modest disk start tr s) (hc : s.commit = none) (hu : s.uses = []) (hop : s.inOp i)
    (hn : blk ∉ s.log.lh) (hl : ¬ s.isLog blk) (hlt : s.log.lh.length < NBUF)
    (hsmall : ∀ t ∈ s.ops, t.proc = i → (insert blk t.blocks).card ≤ MAXOPBLOCKS) :
    ∃ tr' s' u bc, Modest disk start tr' s' ∧ u.proc = i ∧ u.blk = blk ∧
      s' = { s.wrote u (s.log.lh ++ [blk]) bc with uses := [] } := by
  obtain ⟨_, t1, h1, u1, ho1, hp1, hb1, hs1⟩ := h.next (bread_alone h.inv hc hu hlt i blk) trivial trivial
  -- one step or two to the end of `bread`
  have hbread : ∃ tr2 t2 u2, Modest disk start tr2 t2 ∧ Only s t2 u2 ∧ u2.proc = i ∧ u2.blk = blk ∧ u2.st = .holding := by
    obtain ⟨_, t2, h2, u2, ho2, hp2, hb2, hs2⟩ := h1.next (acquire_alone h1.inv ho1 hc (.inl hs1)) trivial trivial
    rcases hs2 with hs2 | ⟨-, hs2⟩
    · exact ⟨_, t2, u2, h2, ho2, hp2.trans hp1, hb2.trans hb1, hs2⟩
    · obtain ⟨_, t3, h3, u3, ho3, hp3, hb3, hs3⟩ := h2.next (acquire_alone h2.inv ho2 hc (.inr hs2)) trivial trivial
      rcases hs3 with hs3 | ⟨hs3, -⟩
      · exact ⟨_, t3, u3, h3, ho3, (hp3.trans hp2).trans hp1, (hb3.trans hb2).trans hb1, hs3⟩
      · rw [hs2] at hs3; cases hs3
  obtain ⟨_, t2, u, h2, ho2, rfl, rfl, hs2⟩ := hbread
  have hout : 1 ≤ s.log.outstanding := by
    rw [h.inv.count]
    obtain ⟨x, hx, -⟩ := hop
    have := List.length_pos_of_mem hx
    omega
  have hops : t2.ops = s.ops := by rw [ho2]
  obtain ⟨_, t3, h3, ho3⟩ := h2.next (log_write_alone ho2 hs2 hlt hout hn)
    (by
      intro v hv
      rw [ho2.first, Option.mem_def] at hv
      rw [← Option.some.inj hv, ho2]
      exact ⟨hop, hl⟩)
    (by
      intro v hv t ht hp
      rw [ho2.first, Option.mem_def] at hv
      rw [← Option.some.inj hv] at hp ⊢
      exact hsmall t (hops ▸ ht) hp)
  have hc3 : (s.wrote u (s.log.lh ++ [u.blk]) s.bc).commit = none := hc
  obtain ⟨_, t4, h4, u4, ho4, hs4⟩ := h3.next (brelse_alone h3.inv ho3 hc3 hs2)
    (by
      intro v hv
      rw [ho3.first, Option.mem_def] at hv
      rw [← Option.some.inj hv, hs2]
      decide)
    trivial
  obtain ⟨_, t5, h5, he5⟩ := h4.next (drop_alone h4.inv ho4 hc3 hs4)
    (by
      intro v hv
      rw [ho4.first, Option.mem_def] at hv
      rw [← Option.some.inj hv, hs4]
      decide)
    trivial
  exact ⟨_, t5, u, t5.bc, h5, rfl, rfl, he5⟩

structure Loaded (k : Nat) (s : Bio) : Prop where
  idle : s.commit = none
  nobody : s.uses = []
  start : s.start = 2
  lh : s.log.lh = (List.range k).map (100 + ·)
  procs : s.ops.map Tx.proc = [0, 1, 2]
  blocks : ∀ t ∈ s.ops, t.blocks ⊆ ((Finset.range k).filter (· / 10 = t.proc)).image (100 + ·)

theorem loaded_zero : ∃ tr s, Modest (fun _ _ => 0) 2 tr s ∧ Loaded 0 s := by
  have h1 : Modest (fun _ _ => 0) 2 _ { Bio.boot (fun _ _ => 0) 2 with log := ⟨1, false, []⟩, ops := [⟨0, ∅⟩] } :=
    Trace.start.step (e := BioEvent.begin_op 0) ⟨by decide, trivial⟩ rfl
  have h2 : Modest (fun _ _ => 0) 2 _
      { Bio.boot (fun _ _ => 0) 2 with log := ⟨2, false, []⟩, ops := [⟨0, ∅⟩, ⟨1, ∅⟩] } :=
    h1.step (e := BioEvent.begin_op 1) ⟨by decide, trivial⟩ rfl
  have h3 : Modest (fun _ _ => 0) 2 _
      { Bio.boot (fun _ _ => 0) 2 with log := ⟨3, false, []⟩, ops := [⟨0, ∅⟩, ⟨1, ∅⟩, ⟨2, ∅⟩] } :=
    h2.step (e := BioEvent.begin_op 2) ⟨by decide, trivial⟩ rfl
  refine ⟨_, _, h3, rfl, rfl, rfl, rfl, rfl, ?_⟩
  intro t ht
  simp only [mem_cons, not_mem_nil, or_false] at ht
  rcases ht with rfl | rfl | rfl <;> exact Finset.empty_subset _

theorem card_share (k p : Nat) : (((Finset.range k).filter (· / 10 = p)).image (100 + ·)).card ≤ MAXOPBLOCKS := by
  refine Finset.card_image_le.trans ?_
  have hsub : (Finset.range k).filter (· / 10 = p) ⊆ (Finset.range 10).image (10 * p + ·) := by
    intro j hj
    have hp := (Finset.mem_filter.mp hj).2
    refine Finset.mem_image.mpr ⟨j % 10, Finset.mem_range.mpr (Nat.mod_lt _ (by decide)), ?_⟩
    omega
  exact (Finset.card_le_card hsub).trans (Finset.card_image_le.trans (by simp))

theorem loaded (k : Nat) (hk : k ≤ 30) : ∃ tr s, Modest (fun _ _ => 0) 2 tr s ∧ Loaded k s := by
  induction k with
  | zero => exact loaded_zero
  | succ k ih =>
    obtain ⟨tr, s, h, hL⟩ := ih (by omega)
    have hop : s.inOp (k / 10) := by
      rw [inOp_iff, hL.procs]
      simp only [mem_cons, not_mem_nil, or_false]
      omega
    have hgrow : ∀ t ∈ s.ops, t.proc = k / 10 →
        insert (100 + k) t.blocks ⊆ ((Finset.range (k + 1)).filter (· / 10 = t.proc)).image (100 + ·) := by
      intro t ht hp
      refine Finset.insert_subset ?_ ((hL.blocks t ht).trans (Finset.image_subset_image ?_))
      · exact Finset.mem_image_of_mem _ (Finset.mem_filter.mpr ⟨Finset.self_mem_range_succ k, hp.symm⟩)
      · exact Finset.filter_subset_filter _ (Finset.range_mono (Nat.le_succ k))
    obtain ⟨tr', s', u, bc, h', hp, hb, rfl⟩ := load (100 + k) h hL.idle hL.nobody hop
      (by rw [hL.lh]; simp) (by unfold Bio.isLog; rw [hL.start]; lia)
      (by rw [hL.lh, length_map, length_range]; lia)
      (fun t ht hp => (Finset.card_le_card (hgrow t ht hp)).trans (card_share _ _))
    refine ⟨tr', _, h', hL.idle, rfl, hL.start, ?_, ?_, ?_⟩
    · show s.log.lh ++ [100 + k] = _
      rw [hL.lh, List.range_succ, List.map_append, List.map_singleton]
    · show (s.wrote u (s.log.lh ++ [100 + k]) bc).ops.map Tx.proc = _
      rw [procs_wrote, hL.procs]
    · intro t ht
      obtain ⟨t0, ht0, rfl⟩ := mem_map.mp ht
      split
      · rename_i he
        rw [hb]
        exact hgrow t0 ht0 (he.trans hp)
      · refine (hL.blocks t0 ht0).trans (Finset.image_subset_image ?_)
        exact Finset.filter_subset_filter _ (Finset.range_mono (Nat.le_succ k))

theorem wp_end_op_alone (hc : s.log.committing = false) (hop : s.inOp i) :
    wp (BioEvent.run (.end_op i)) (fun _ t =>
      t = { s with
        ops := s.ops.filter (·.proc ≠ i)
        log := { s.log with
          outstanding := s.log.outstanding - 1
          committing := decide (s.log.outstanding - 1 = 0) }
        commit := if s.log.outstanding - 1 = 0 then some (.start i s.start s.log.lh) else s.commit })
      (fun _ => False) s := by
  have hany : s.ops.any (·.proc = i) := by
    obtain ⟨t, ht, hp⟩ := hop
    exact List.any_eq_true.mpr ⟨t, ht, by simpa using hp⟩
  unfold BioEvent.run Log.end_op
  rw [wp_read, if_pos hany, wp_bind, wp_modify, wp_bind, wp_onBioLog, wp_bind, wp_get, if_neg (by simp [hc])]
  refine wp_ite (fun h0 => ?_) fun h0 => ?_
  · rw [wp_bind, wp_set, wp_pure, if_pos rfl, wp_modify]
    simp [h0]
  · rw [wp_bind, wp_set, wp_pure, if_neg Bool.false_ne_true, wp_pure]
    simp [h0, hc]

theorem committing (k : Nat) (hk : k ≤ 30) : ∃ tr s i, Modest (fun _ _ => 0) 2 tr s ∧
    s.commit = some (.start i s.start s.log.lh) ∧ s.uses = [] ∧ s.log.lh.length = k := by
  obtain ⟨_, s, h, hL⟩ := loaded k hk
  obtain ⟨a, b, c, hops, ha, hb, hc⟩ : ∃ a b c, s.ops = [a, b, c] ∧ a.proc = 0 ∧ b.proc = 1 ∧ c.proc = 2 := by
    have hp := hL.procs
    simp only [List.map_eq_cons_iff, List.map_eq_nil_iff] at hp
    obtain ⟨a, l, he, ha, b, l', rfl, hb, c, l'', rfl, hc, rfl⟩ := hp
    exact ⟨a, b, c, he, ha, hb, hc⟩
  have hout : s.log.outstanding = 3 := by rw [h.inv.count, hops]; rfl
  have hcom : s.log.committing = false := by
    by_contra hne
    exact h.inv.commit.mp (Bool.eq_true_of_not_eq_false hne) hL.idle
  have hdone : ∀ t : Bio, t.uses = [] → ∀ i, Logs (.end_op i) t := by
    intro t ht i u hu
    rw [ht] at hu
    cases hu
  obtain ⟨_, t1, h1, he1⟩ := h.next (wp_end_op_alone (i := 0) hcom ⟨a, by simp [hops], ha⟩) (hdone s hL.nobody 0) trivial
  simp only [hops, hout, hL.idle, List.filter_cons, ha, hb, hc, List.filter_nil] at he1
  replace he1 : t1 = { s with ops := [b, c], log := ⟨2, false, s.log.lh⟩, commit := none } := he1
  obtain ⟨_, t2, h2, he2⟩ := h1.next (wp_end_op_alone (i := 1) (by rw [he1]) ⟨b, by rw [he1]; simp, hb⟩)
    (hdone t1 (by rw [he1]; exact hL.nobody) 1) trivial
  rw [he1] at he2
  simp only [List.filter_cons, hb, hc, List.filter_nil] at he2
  replace he2 : t2 = { s with ops := [c], log := ⟨1, false, s.log.lh⟩, commit := none } := he2
  obtain ⟨_, t3, h3, he3⟩ := h2.next (wp_end_op_alone (i := 2) (by rw [he2]) ⟨c, by rw [he2]; simp, hc⟩)
    (hdone t2 (by rw [he2]; exact hL.nobody) 2) trivial
  rw [he2] at he3
  have hcommit : t3.commit = some (.start 2 t3.start t3.log.lh) := by rw [he3]; rfl
  have hlen : t3.log.lh.length = k := by
    rw [he3]
    rw [hL.lh, length_map, length_range]
  exact ⟨_, t3, 2, h3, hcommit, by rw [he3]; exact hL.nobody, hlen⟩

theorem commit_finds_last_buffer : ∃ tr s, Trace BioEvent.run (fun e s => Logs e s ∧ Small e s)
    (.boot (fun _ _ => 0) 2) tr s ∧ s.log.lh.length = 29 ∧ Commits s := by
  obtain ⟨tr, s, i, h, hc, hu, hlen⟩ := committing 29 (by decide)
  exact ⟨tr, s, h, hlen, (commit_finds_buffers h hc hu).mpr (by rw [hlen]; decide)⟩

/-- Three operations of ten blocks each fill the log, and every buffer is pinned when they commit. -/
theorem commit_without_buffers : ∃ tr s i, Trace BioEvent.run (fun e s => Logs e s ∧ Small e s)
      (.boot (fun _ _ => 0) 2) tr s ∧ s.commit = some (.start i s.start s.log.lh) ∧ s.uses = [] ∧
      BioEvent.run .commit s = .error .noBuffers ∧ ¬ Commits s := by
  obtain ⟨tr, s, i, h, hc, hu, hlen⟩ := committing 30 (Nat.le_refl 30)
  have hrun := refuses h.inv hc (Nat.le_of_eq hlen.symm)
  exact ⟨tr, s, i, h, hc, hu, hrun, not_commits (by rw [hc]; exact Option.some_ne_none _) hrun⟩

end Xv6
