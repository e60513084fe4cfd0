import Xv6.BioInv

/-!
# A commit keeps the books of the buffer cache

Each statement of `commit` finds the buffers it needs in its variables, and
what it copies is what was written last. As long as nobody else holds the
buffers it waits for, `Commit.work` gets smaller with each step.
-/

namespace Xv6

open Hoare Function List Option

def Phase.rank : Phase → Nat
  | .writeLog tail => 2 * LOGBLOCKS + 4 - tail
  | .writeHead => LOGBLOCKS + 3
  | .install tail => LOGBLOCKS + 2 - tail
  | .erase => 1
  | .done | .idle => 0

def micro (i : Instr) (reg : Reg → Option Use) : Nat :=
  match i with
  | .bread r _ =>
    match reg r with
    | none => 3
    | some u => if u.st = .locking then 2 else 1
  | .brelse r =>
    match reg r with
    | none => 0
    | some u => if u.st = .dropping then 0 else 1
  | _ => 0

def Commit.work (c : Commit) : Nat :=
  match c.code with
  | [] => 40 * c.phase.rank
  | i :: rest => 40 * c.phase.rank + 4 * (rest.length + 1) + micro i c.reg

theorem micro_le (i : Instr) (reg : Reg → Option Use) : micro i reg ≤ 3 := by
  unfold micro
  split
  · split
    · omega
    · split <;> omega
  · split
    · omega
    · split <;> omega
  · omega

section
variable {c c' : Commit} {i : Instr} {rest : List Instr} (hc : c.code = i :: rest)
include hc

theorem work_tail (hc' : c'.code = rest)
    (hp : c'.phase = c.phase) : c'.work < c.work := by
  unfold Commit.work
  rw [hc, hc', hp]
  cases rest with
  | nil => dsimp only; omega
  | cons i' rest =>
    have := micro_le i' c'.reg
    simp only [length_cons]
    omega

theorem work_stay (hc' : c'.code = i :: rest)
    (hp : c'.phase = c.phase) (hm : micro i c'.reg < micro i c.reg) : c'.work < c.work := by
  unfold Commit.work
  rw [hc, hc', hp]
  exact Nat.add_lt_add_left hm _

end

section
variable {s s' : Bio} {c c' : Commit} {i : Instr} {rest : List Instr} {r r' : Reg} {o : Option Use} {u : Use}
  {E : BioStop → Prop}

theorem live_cons (hb : ∀ blk, i ≠ .bread r blk) (hr : i ≠ .brelse r) : live (i :: rest) r = live rest r := by
  cases i with
  | bread r' blk =>
    have : r' ≠ r := fun he => hb blk (he ▸ rfl)
    simp [live, this]
  | brelse r' =>
    have : r' ≠ r := fun he => hr (he ▸ rfl)
    simp [live, this]
  | log | home | head | bwrite | bunpin | clear => rfl

section
variable (h : RegOk (i :: rest) r o) (hb : ∀ blk, i ≠ .bread r blk) (hr : i ≠ .brelse r)
include h hb hr

theorem RegOk.tail
    (hw : i ≠ .bwrite r) : RegOk rest r o := by
  cases o with
  | none => exact (live_cons hb hr).symm.trans h
  | some u =>
    rcases h with ⟨-, hh⟩ | ⟨hl, ⟨hu, hd⟩ | ⟨-, hh⟩⟩
    · exact absurd (some.inj hh) (hb u.blk)
    · refine .inr ⟨(live_cons hb hr).symm.trans hl, .inl ⟨hu, fun he => ?_⟩⟩
      exact (mem_cons.mp (hd he)).resolve_left (Ne.symm hw)
    · exact absurd (some.inj hh) hr

theorem RegOk.held
    (hl : live rest r) : ∃ u, o = some u ∧ u.held := by
  cases o with
  | none =>
    have : live rest r = false := (live_cons hb hr).symm.trans h
    rw [hl] at this
    cases this
  | some u =>
    rcases h with ⟨-, hh⟩ | ⟨-, ⟨hu, -⟩ | ⟨-, hh⟩⟩
    · exact absurd (some.inj hh) (hb u.blk)
    · exact ⟨u, rfl, hu⟩
    · exact absurd (some.inj hh) hr

end

def Reg.other : Reg → Reg
  | .fst => .snd
  | .snd => .fst

def restUses (s : Bio) (c : Commit) (r : Reg) : List Use := (c.reg r.other).toList ++ s.uses

theorem reg_perm (s : Bio) (c : Commit) (r : Reg) (o : Option Use) :
    (Commit.uses (update c.reg r o) ++ s.uses).Perm (o.toList ++ restUses s c r) := by
  unfold Commit.uses restUses
  cases r with
  | fst =>
    rw [update_self, update_of_ne (by decide), append_assoc]
    exact Perm.refl _
  | snd =>
    rw [update_self, update_of_ne (by decide), ← append_assoc]
    exact perm_append_comm.append_right _

theorem BioInv.good_reg (h : BioInv s) (hc : s.commit = some c) (r : Reg) :
    Good s ((c.reg r).toList ++ restUses s c r) (c.pins s.log.lh) := by
  have hg := h.good
  unfold Bio.handles Bio.pins at hg
  rw [hc] at hg
  have hp := reg_perm s c r (c.reg r)
  rw [update_eq_self] at hp
  exact hg.perm hp

theorem pins_rest {proc : Nat} {phase : Phase} (hi : i ≠ .bunpin .snd) (reg : Reg → Option Use)
    (lh : List Nat) : Commit.pins ⟨proc, phase, rest, reg'⟩ lh = Commit.pins ⟨proc, phase, i :: rest, reg⟩ lh := by
  unfold Commit.pins
  cases phase with
  | install tail =>
    have : .bunpin .snd ∈ i :: rest ↔ .bunpin .snd ∈ rest := by
      rw [mem_cons]
      exact or_iff_right (Ne.symm hi)
    simp only [this]
  | idle | writeLog | writeHead | erase | done => rfl

theorem Progress.tail (h : Progress s c) (hc : c.code = i :: rest) (hc' : c'.code = rest) (hp : c'.phase = c.phase)
    (hi : i ≠ .log ∧ i ≠ .bwrite .snd ∧ i ≠ .clear) : Progress s c' := by
  unfold Progress at h ⊢
  rw [hc] at h
  rw [hp, hc']
  cases hph : c.phase with
  | idle => rw [hph] at h; exact h
  | writeLog tail =>
    rw [hph] at h
    refine ⟨h.1, h.2.1, fun hl => h.2.2 fun hm => ?_⟩
    exact hl ((mem_cons.mp hm).resolve_left (Ne.symm hi.1))
  | writeHead => rw [hph] at h; exact h
  | install tail =>
    rw [hph] at h
    refine ⟨h.1, h.2.1, fun hl => h.2.2 fun hm => ?_⟩
    exact hl ((mem_cons.mp hm).resolve_left (Ne.symm hi.2.1))
  | erase =>
    rw [hph] at h
    exact fun hl => h fun hm => hl ((mem_cons.mp hm).resolve_left (Ne.symm hi.2.2))
  | done => rw [hph] at h; exact h

def Unblocked (s : Bio) (c : Commit) : Prop :=
  ∀ r u, c.reg r = some u → u.st = .locking → (s.bc.buf u.b).lock = none

def Stepped (s : Bio) (c : Commit) (o : Option Commit) (s' : Bio) : Prop :=
  BioInv { s' with commit := o } ∧ KeptBufs s s' ∧
    (s'.uses = s.uses ∧ s'.start = s.start ∧ ∀ blk, ¬ s.isLog blk → s'.latest blk = s.latest blk) ∧
    (s'.log.lh = s.log.lh ∨ s'.log.lh = []) ∧ (o = none → s'.log.lh = []) ∧
    (Unblocked s c → ∀ c', o = some c' → c'.work < c.work)

def Commit.Steps (c : Commit) (E : BioStop → Prop) (s : Bio) : Prop := s.commit = some c → wp c.step (Stepped s c) E s

theorem BioInv.advance (h : BioInv s) (hc : s.commit = some c) {disk latest : Nat → Block}
    (hg : Good { s with bc := bc, disk := disk, latest := latest } (Commit.uses c'.reg ++ s.uses) (c'.pins s.log.lh))
    (hok : CommitOk { s with bc := bc, disk := disk, latest := latest } c') :
    BioInv { s with bc := bc, disk := disk, latest := latest, commit := some c' } := by
  have hne : s.commit ≠ none := by rw [hc]; exact some_ne_none c
  refine ⟨⟨h.count, h.procs, ?_, fun _ => h.quiet hne, h.dirty, h.nodup, h.home, h.small⟩, ?_, ?_⟩
  · have := h.commit
    simp only [hne, ne_eq, not_false_eq_true, iff_true] at this
    simp [this]
  · exact ⟨hg.toBufCore, hg.fresh, hg.stored⟩
  · intro c0 hc0
    rw [← some.inj hc0]
    exact hok.congr rfl rfl rfl rfl

theorem CommitOk.tail (h : CommitOk s c) (hc : c.code = i :: rest) (hc' : c'.code = rest) (hp : c'.phase = c.phase)
    (hst : s'.start = s.start) (hlh : s'.log.lh = s.log.lh)
    (hreg : ∀ r u', c'.reg r = some u' → ∃ u, c.reg r = some u ∧ u'.blk = u.blk)
    (hregs : ∀ r, RegOk rest r (c'.reg r)) (hprog : Progress s' c') : CommitOk s' c' := by
  refine ⟨?_, ?_, hc' ▸ hregs, hprog⟩
  · rw [hc', hp, hst, hlh]
    exact (suffix_cons i rest).trans (hc ▸ h.suffix)
  · intro r u' hu'
    obtain ⟨u, hu, hb⟩ := hreg r u' hu'
    rw [hp, hst, hlh, hb]
    exact h.blks r u hu

end

variable {s : Bio} {proc : Nat} {phase : Phase} {rest : List Instr} {reg : Reg → Option Use} {r : Reg} {u : Use}
  {E : BioStop → Prop}
variable {blk start : Nat} {lh : List Nat}

section
variable {i : Instr} (h : BioInv s) (hc : s.commit = some ⟨proc, phase, i :: rest, reg⟩)
include h hc

theorem BioInv.stepped {disk latest : Nat → Block}
    (hg : Good { s with bc := bc, disk := disk, latest := latest }
      (o.toList ++ restUses s ⟨proc, phase, i :: rest, reg⟩ r)
      (Commit.pins ⟨proc, phase, rest, update reg r o⟩ s.log.lh))
    (ho : ∀ u', o = some u' → ∃ u, reg r = some u ∧ u'.blk = u.blk) (hr : RegOk rest r o)
    (hothers : ∀ r' ≠ r, RegOk rest r' (reg r'))
    (hprog : Progress { s with bc := bc, disk := disk, latest := latest } ⟨proc, phase, rest, update reg r o⟩)
    (hk : KeptBufs s { s with bc := bc, disk := disk, latest := latest })
    (hlatest : ∀ blk, ¬ s.isLog blk → latest blk = s.latest blk) :
    Stepped s ⟨proc, phase, i :: rest, reg⟩ (some ⟨proc, phase, rest, update reg r o⟩)
      { s with bc := bc, disk := disk, latest := latest } := by
  have hok := h.running _ hc
  refine ⟨h.advance hc (hg.perm (reg_perm s ⟨proc, phase, i :: rest, reg⟩ r o).symm) ?_, hk,
    ⟨rfl, rfl, hlatest⟩, .inl rfl, fun hn => absurd hn (some_ne_none _), ?_⟩
  · refine hok.tail rfl rfl rfl rfl rfl ?_ ?_ hprog
    · intro r' u' hu'
      dsimp only at hu' ⊢
      by_cases he : r' = r
      · subst he
        rw [update_self] at hu'
        exact ho u' hu'
      · rw [update_of_ne he] at hu'
        exact ⟨u', hu', rfl⟩
    · intro r'
      dsimp only
      by_cases he : r' = r
      · subst he
        rw [update_self]
        exact hr
      · rw [update_of_ne he]
        exact hothers r' he
  · intro _ c' hc'
    rw [← some.inj hc']
    exact work_tail rfl rfl rfl

theorem BioInv.stays
    (hg : Good { s with bc := bc } ((some u).toList ++ restUses s ⟨proc, phase, i :: rest, reg⟩ r)
      (Commit.pins ⟨proc, phase, i :: rest, reg⟩ s.log.lh))
    (hb : .bread r u.blk ∈ round s.start s.log.lh phase) (hr : RegOk (i :: rest) r (some u))
    (hk : KeptBufs s { s with bc := bc })
    (hw : Unblocked s ⟨proc, phase, i :: rest, reg⟩ → micro i (update reg r (some u)) < micro i reg) :
    Stepped s ⟨proc, phase, i :: rest, reg⟩ (some ⟨proc, phase, i :: rest, update reg r (some u)⟩) { s with bc := bc } := by
  have hok := h.running _ hc
  refine ⟨h.advance hc (hg.perm (reg_perm s _ r (some u)).symm) ⟨hok.suffix, ?_, ?_, hok.progress⟩, hk,
    ⟨rfl, rfl, fun _ _ => rfl⟩, .inl rfl, fun hn => absurd hn (some_ne_none _), ?_⟩
  · intro r' v hv
    dsimp only at hv
    by_cases he : r' = r
    · subst he
      rw [update_self] at hv
      rw [← some.inj hv]
      exact hb
    · rw [update_of_ne he] at hv
      exact hok.blks r' v hv
  · intro r'
    dsimp only
    by_cases he : r' = r
    · subst he
      rw [update_self]
      exact hr
    · rw [update_of_ne he]
      exact hok.regs r'
  · intro hfree c' hc'
    rw [← some.inj hc']
    exact work_stay rfl rfl rfl (hw hfree)

end

theorem CommitOk.used (hok : CommitOk s c) : WellUsed c.code := (wellUsed_round ..).suffix hok.suffix

theorem CommitOk.first (hok : CommitOk s ⟨proc, phase, i :: rest, reg⟩) : i ∈ round s.start s.log.lh phase :=
  hok.suffix.subset mem_cons_self

theorem wp_step_bread (h : BioInv s)
    (hE : reg r = none → (∀ a, ¬ s.bc.Cached a blk) → (∀ a < NBUF, (s.bc.buf a).refcnt ≠ 0) → E .noBuffers) :
    Commit.Steps ⟨proc, phase, .bread r blk :: rest, reg⟩ E s := by
  intro hc
  have hok := h.running _ hc
  have hused := hok.used
  have hmem := hok.first
  have hgood := h.good_reg hc r
  have hreg : RegOk (.bread r blk :: rest) r (reg r) := hok.regs r
  unfold Commit.step
  rw [wp_read]
  dsimp only at hgood ⊢
  cases hr : reg r with
  | none =>
    rw [hr] at hgood
    refine wp_seq (wp_post (wp_bget hgood proc blk (hE hr)) ?_)
    rintro u t ⟨ht, hk, hg, hblk, hst, -⟩
    rw [wp_pure]
    generalize t.bc = bc at ht
    subst ht
    exact h.stays hc hg (hblk ▸ hmem) (.inl ⟨.inl hst, by rw [hblk]; rfl⟩) hk fun _ => by simp [micro, hr, hst]
  | some u =>
    rw [hr] at hgood hreg
    rw [wp_bind]
    have hst : (u.st = .locking ∨ u.st = .reading) ∧ u.blk = blk := by
      rcases hreg with ⟨hst, hh⟩ | ⟨hl, -⟩
      · exact ⟨hst, (Instr.bread.inj (some.inj hh)).2.symm⟩
      · simp [live] at hl
    refine wp_post (wp_acquireStep hgood) ?_
    rintro u' t ⟨ht, hk, hg, -, hblk, ha⟩
    rw [wp_pure]
    generalize t.bc = bc at ht
    subst ht
    by_cases hh : u'.st = .holding
    · rw [if_pos hh]
      refine h.stepped hc ?_ ?_ ?_ ?_ ?_ hk fun _ _ => rfl
      · rw [pins_rest (i := .bread r blk) (by simp) reg]
        exact hg
      · intro v hv
        exact ⟨u, hr, by rw [← some.inj hv, hblk]⟩
      · refine .inr ⟨hused.2, .inl ⟨by simp [Use.held, hh], fun hd => ?_⟩⟩
        rw [hh] at hd; cases hd
      · intro r' he
        exact (hok.regs r').tail (fun b hb => he (Instr.bread.inj hb).1.symm) (by simp) (by simp)
      · exact Progress.tail (s := s) hok.progress rfl rfl rfl (by simp)
    · rw [if_neg hh]
      refine h.stays hc hg (by rw [hblk, hst.2]; exact hmem) (.inl ⟨?_, by rw [hblk, hst.2]; rfl⟩) hk fun hfree => ?_
      · rcases ha with ⟨ha, -⟩ | ⟨-, ha⟩ | ⟨-, ha⟩
        · rw [ha]; exact hst.1
        · exact .inr ha
        · exact absurd ha hh
      · rcases ha with ⟨-, hnr, hl⟩ | ⟨hl, ha⟩ | ⟨-, ha⟩
        · have hul := hst.1.resolve_right hnr
          exact absurd (hfree r u hr hul) (hl hul)
        · simp [micro, hr, hl, ha]
        · exact absurd ha hh

theorem wp_step_brelse (h : BioInv s) : Commit.Steps ⟨proc, phase, .brelse r :: rest, reg⟩ E s := by
  intro hc
  have hok := h.running _ hc
  have hused := hok.used
  have hgood := h.good_reg hc r
  have hreg : RegOk (.brelse r :: rest) r (reg r) := hok.regs r
  unfold Commit.step
  rw [wp_read]
  dsimp only at hgood ⊢
  cases hr : reg r with
  | none =>
    rw [hr] at hreg
    simp [RegOk, live] at hreg
  | some u =>
    rw [hr] at hgood hreg
    rw [wp_bind]
    have hst : u.st ≠ .dirty ∧ (u.held ∨ u.st = .dropping) := by
      rcases hreg with ⟨-, hh⟩ | ⟨-, ⟨hu, hd⟩ | ⟨hd, -⟩⟩
      · cases hh
      · refine ⟨fun he => ?_, .inl hu⟩
        exact hused.2.2 ((mem_cons.mp (hd he)).resolve_left (by simp))
      · exact ⟨by rw [hd]; decide, .inr hd⟩
    refine wp_post (wp_releaseStep hgood hst.1) ?_
    rintro o t ⟨ht, hk, hg, ho⟩
    rw [wp_pure]
    generalize t.bc = bc at ht
    subst ht
    cases o with
    | none =>
      refine h.stepped hc ?_ ?_ hused.2.1 ?_ ?_ hk fun _ _ => rfl
      · rw [pins_rest (i := .brelse r) (by simp) reg]
        exact hg
      · intro u' hu'; cases hu'
      · intro r' he
        exact (hok.regs r').tail (by simp) (fun hb => he (Instr.brelse.inj hb).symm) (by simp)
      · exact Progress.tail (s := s) hok.progress rfl rfl rfl (by simp)
    | some u' =>
      have hu' : u' = { u with st := .dropping } ∧ u.held := by
        rcases ho with ⟨-, hn, hd⟩ | ⟨hu, ho⟩ | ⟨-, ho⟩
        · rcases hst.2 with hu | hu
          · rw [hn] at hu; cases hu
          · exact absurd hu hd
        · exact ⟨some.inj ho, hu⟩
        · cases ho
      have hd : u.st ≠ .dropping := fun he => by
        have := hu'.2
        simp [Use.held, he] at this
      refine h.stays hc hg ?_ ?_ hk fun _ => by simp [micro, hr, hu'.1, hd]
      · rw [hu'.1]
        exact hok.blks r u hr
      · rw [hu'.1]
        exact .inr ⟨by simp [live], .inr ⟨rfl, rfl⟩⟩

/-! What the phase says of a variable's block. -/

theorem blk_fst_of_log (hl : Instr.log ∈ round start lh phase)
    (hb : .bread .fst blk ∈ round start lh phase) : ∃ tail, phase = .writeLog tail ∧ blk = start + tail + 1 := by
  cases phase <;> simp [round] at hl hb ⊢
  exact hb

theorem blk_snd_of_log {tail : Nat} (hp : phase = .writeLog tail)
    (hb : .bread .snd blk ∈ round start lh phase) : blk = lh.getD tail 0 := by
  subst hp
  simpa [round] using hb

theorem phase_of_home (hl : Instr.home ∈ round start lh phase) :
    ∃ tail, phase = .install tail := by
  cases phase <;> simp [round] at hl ⊢

theorem blk_of_install {tail : Nat} (hp : phase = .install tail) :
    (.bread .fst blk ∈ round start lh phase → blk = start + tail + 1) ∧
    (.bread .snd blk ∈ round start lh phase → blk = lh.getD tail 0) := by
  subst hp
  simp [round]

theorem blk_of_head (hl : Instr.head ∈ round start lh phase)
    (hb : .bread .fst blk ∈ round start lh phase) : (phase = .writeHead ∨ phase = .erase) ∧ blk = start := by
  cases phase <;> simp [round] at hl hb ⊢
  all_goals exact hb

theorem phase_of_bwrite_snd (hl : Instr.bwrite .snd ∈ round start lh phase) :
    ∃ tail, phase = .install tail := by
  cases phase <;> simp [round] at hl ⊢

theorem phase_of_bunpin (hl : Instr.bunpin r ∈ round start lh phase) :
    r = .snd ∧ ∃ tail, phase = .install tail := by
  cases phase <;> simp [round] at hl ⊢
  exact hl

theorem phase_of_clear (hl : Instr.clear ∈ round start lh phase) : phase = .erase := by
  cases phase <;> simp [round] at hl ⊢

theorem Books.slot_ne (h : Books s) (ht : t < s.log.lh.length) (ht' : t' < s.log.lh.length) :
    s.log.lh.getD t' 0 ≠ s.start + t + 1 ∧ s.log.lh.getD t' 0 ≠ s.start := by
  have hm : s.log.lh.getD t' 0 ∈ s.log.lh := by
    rw [getD_eq_getElem _ _ ht']
    exact getElem_mem ht'
  have hh := h.home _ hm
  have hs := h.small
  unfold Bio.isLog at hh
  omega

theorem Progress.saved (h : Progress s c) (k : Nat) :
    Progress { s with disk := update s.disk k (s.latest k) } c := by
  unfold Progress at h ⊢
  cases hp : c.phase with
  | install tail =>
    rw [hp] at h
    refine ⟨h.1, h.2.1, fun hl => ?_⟩
    dsimp only
    by_cases hk : s.log.lh.getD tail 0 = k
    · rw [hk, update_self]
    · rw [update_of_ne hk]; exact h.2.2 hl
  | idle | writeLog | writeHead | erase | done => rw [hp] at h; exact h

section
variable (h : BioInv s)
include h

theorem wp_step_bwrite : Commit.Steps ⟨proc, phase, .bwrite r :: rest, reg⟩ E s := by
  intro hc
  have hok := h.running _ hc
  have hused := hok.used
  have hmem := hok.first
  have hgood := h.good_reg hc r
  obtain ⟨u, hr, hu⟩ := (hok.regs r).held (by simp) (by simp) hused.2
  dsimp only at hr
  unfold Commit.step
  rw [wp_read]
  dsimp only at hgood ⊢
  rw [hr] at hgood ⊢
  refine wp_seq (wp_post (wp_bwrite hgood hu) ?_)
  rintro - t ⟨rfl, hg⟩
  rw [wp_pure]
  refine h.stepped (r := r) (o := some { u with st := .holding }) hc ?_ ?_ ?_ ?_ ?_ (fun _ _ _ => ⟨rfl, rfl⟩) fun _ _ => rfl
  · rw [pins_rest (i := .bwrite r) (by simp) reg]
    exact hg
  · intro u' hu'
    exact ⟨u, hr, by rw [← some.inj hu']⟩
  · refine .inr ⟨hused.2, .inl ⟨rfl, fun hd => ?_⟩⟩
    cases hd
  · intro r' he
    exact (hok.regs r').tail (by simp) (by simp) (fun hb => he (Instr.bwrite.inj hb).symm)
  · cases r with
    | fst => exact Progress.tail (hok.progress.saved u.blk) rfl rfl rfl (by simp)
    | snd =>
      obtain ⟨tail, rfl⟩ := phase_of_bwrite_snd hmem
      have hblk := (blk_of_install rfl).2 (hok.blks .snd u hr)
      obtain ⟨h1, h2, -⟩ := hok.progress
      refine ⟨h1, h2, fun _ => ?_⟩
      dsimp only
      rw [hblk, update_self]

theorem wp_step_bunpin : Commit.Steps ⟨proc, phase, .bunpin r :: rest, reg⟩ E s := by
  intro hc
  have hok := h.running _ hc
  have hused := hok.used
  have hmem := hok.first
  obtain ⟨u, hr, hu⟩ := (hok.regs r).held (by simp) (by simp) hused.2
  dsimp only at hr
  obtain ⟨rfl, tail, rfl⟩ := phase_of_bunpin hmem
  have hblk := (blk_of_install rfl).2 (hok.blks .snd u hr)
  have hgood := h.good_reg hc .snd
  obtain ⟨hlt, hlogged, hdisk⟩ := hok.progress
  -- after `bunpin` come the two `brelse`
  have hrest : .bunpin .snd ∉ rest ∧ .bwrite .snd ∉ rest := by
    have hs := hok.suffix
    simp [round, suffix_cons_iff] at hs
    simp [hs]
  have hdisk : s.disk u.blk = s.latest u.blk := by
    rw [hblk]
    refine hdisk fun hm => ?_
    exact hrest.2 ((mem_cons.mp hm).resolve_left (by simp))
  have hpins : Commit.pins ⟨proc, .install tail, .bunpin .snd :: rest, reg⟩ s.log.lh =
      u.blk :: Commit.pins ⟨proc, .install tail, rest, reg⟩ s.log.lh := by
    unfold Commit.pins
    dsimp only
    rw [if_pos mem_cons_self, if_neg hrest.1, drop_eq_getElem_cons hlt, hblk, getD_eq_getElem _ _ hlt]
  have hn : u.blk ∉ Commit.pins ⟨proc, .install tail, rest, reg⟩ s.log.lh := by
    have hnd : (Commit.pins ⟨proc, .install tail, .bunpin .snd :: rest, reg⟩ s.log.lh).Nodup := by
      exact h.nodup.sublist (drop_sublist _ _)
    rw [hpins] at hnd
    exact (nodup_cons.mp hnd).1
  unfold Commit.step
  rw [wp_read]
  dsimp only at hgood ⊢
  rw [hpins, hr] at hgood
  rw [hr]
  rw [wp_bind, wp_set, wp_pure]
  suffices hst : Stepped s ⟨proc, .install tail, .bunpin .snd :: rest, reg⟩
      (some ⟨proc, .install tail, rest, update reg .snd (reg .snd)⟩) { s with bc := s.bc.bunpin u.b } by
    rwa [update_eq_self] at hst
  refine h.stepped hc ?_ ?_ ?_ ?_ ?_ ?_ fun _ _ => rfl
  · rw [update_eq_self, hr]
    exact hgood.bunpin mem_cons_self rfl hn hdisk
  · exact fun u' hu' => ⟨u', hu', rfl⟩
  · exact (hok.regs .snd).tail (by simp) (by simp) (by simp)
  · exact fun r' _ => (hok.regs r').tail (by simp) (by simp) (by simp)
  · rw [update_eq_self]
    have hp : Progress s ⟨proc, .install tail, rest, reg⟩ := Progress.tail hok.progress rfl rfl rfl (by simp)
    exact hp
  · exact KeptBufs.of_set (b := u.b) rfl fun _ => ⟨rfl, rfl⟩

theorem wp_step_log : Commit.Steps ⟨proc, phase, .log :: rest, reg⟩ E s := by
  intro hc
  have hok := h.running _ hc
  have hused := hok.used
  have hmem := hok.first
  obtain ⟨u, hr, hu⟩ := (hok.regs .fst).held (by simp) (by simp) hused.2.1
  obtain ⟨u', hr', hu'⟩ := (hok.regs .snd).held (by simp) (by simp) hused.2.2.1
  dsimp only at hr hr'
  obtain ⟨tail, rfl, hblk⟩ := blk_fst_of_log hmem (hok.blks .fst u hr)
  have hblk' := blk_snd_of_log rfl (hok.blks .snd u' hr')
  have hgood := h.good_reg hc .fst
  -- what is copied is what was last written to the block
  have hsees : (s.bc.buf u'.b).data = s.latest u'.blk := by
    refine hgood.sees ?_ hu'
    unfold restUses
    dsimp only [Reg.other]
    rw [hr']
    simp
  unfold Commit.step
  rw [wp_read]
  dsimp only at hgood ⊢
  rw [hr] at hgood
  rw [hr, hr']
  rw [wp_bind, wp_set, wp_pure]
  refine h.stepped (r := .fst) hc ?_ ?_ ?_ ?_ ?_ ?_ ?_
  · rw [pins_rest (i := .log) (by simp) reg]
    exact hgood.change hu rfl rfl rfl
  · intro v hv
    exact ⟨u, hr, by rw [← some.inj hv]⟩
  · exact .inr ⟨hused.2.1, .inl ⟨rfl, fun _ => hused.2.2.2⟩⟩
  · exact fun r' _ => (hok.regs r').tail (by simp) (by simp) (by simp)
  · obtain ⟨hlt, hlogged, -⟩ := hok.progress
    have hne := fun t (ht : t < s.log.lh.length) => (h.slot_ne hlt ht).1
    refine ⟨hlt, fun t ht => ?_, fun _ => ?_⟩
    · unfold Logged
      dsimp only
      rw [hblk, update_of_ne (by omega), update_of_ne (hne t (by omega))]
      exact hlogged t ht
    · unfold Logged
      dsimp only
      rw [hblk, update_self, update_of_ne (hne tail hlt), hsees, hblk']
  · exact KeptBufs.of_set (b := u.b) rfl fun _ => ⟨rfl, rfl⟩
  · intro blk hlog
    obtain ⟨hlt, -⟩ := hok.progress
    refine update_of_ne ?_ ..
    have hs := h.small
    unfold Bio.isLog at hlog
    omega

theorem wp_step_head : Commit.Steps ⟨proc, phase, .head :: rest, reg⟩ E s := by
  intro hc
  have hok := h.running _ hc
  have hused := hok.used
  have hmem := hok.first
  obtain ⟨u, hr, hu⟩ := (hok.regs .fst).held (by simp) (by simp) hused.2.1
  dsimp only at hr
  obtain ⟨hphase, hblk⟩ := blk_of_head hmem (hok.blks .fst u hr)
  have hgood := h.good_reg hc .fst
  unfold Commit.step
  rw [wp_read]
  dsimp only at hgood ⊢
  rw [hr] at hgood
  rw [hr]
  rw [wp_bind, wp_set, wp_pure]
  refine h.stepped (r := .fst) hc ?_ ?_ ?_ ?_ ?_ ?_ ?_
  · rw [pins_rest (i := .head) (by simp) reg]
    exact hgood.change hu rfl rfl rfl
  · intro v hv
    exact ⟨u, hr, by rw [← some.inj hv]⟩
  · exact .inr ⟨hused.2.1, .inl ⟨rfl, fun _ => hused.2.2⟩⟩
  · exact fun r' _ => (hok.regs r').tail (by simp) (by simp) (by simp)
  · have hp := hok.progress
    rcases hphase with rfl | rfl
    · refine ⟨hp.1, fun t ht => ?_⟩
      have hl : Logged s t := hp.2 t ht
      unfold Logged at hl ⊢
      dsimp only at ht ⊢
      rw [hblk, update_of_ne (by omega), update_of_ne (h.slot_ne ht ht).2]
      exact hl
    · exact fun hm => hp fun hm' => hm ((mem_cons.mp hm').resolve_left (by simp))
  · exact KeptBufs.of_set (b := u.b) rfl fun _ => ⟨rfl, rfl⟩
  · intro blk hlog
    refine update_of_ne ?_ ..
    unfold Bio.isLog at hlog
    omega

theorem wp_step_home : Commit.Steps ⟨proc, phase, .home :: rest, reg⟩ E s := by
  intro hc
  have hok := h.running _ hc
  have hused := hok.used
  have hmem := hok.first
  obtain ⟨u, hr, hu⟩ := (hok.regs .fst).held (by simp) (by simp) hused.2.1
  obtain ⟨u', hr', hu'⟩ := (hok.regs .snd).held (by simp) (by simp) hused.2.2.1
  dsimp only at hr hr'
  obtain ⟨tail, rfl⟩ := phase_of_home hmem
  have hblk := (blk_of_install rfl).1 (hok.blks .fst u hr)
  have hblk' := (blk_of_install rfl).2 (hok.blks .snd u' hr')
  have hgood := h.good_reg hc .snd
  have hsees : (s.bc.buf u.b).data = s.latest u.blk := by
    refine hgood.sees ?_ hu
    unfold restUses
    dsimp only [Reg.other]
    rw [hr]
    simp
  -- the log block is a copy of the block it goes to
  have hcopy : (s.bc.buf u.b).data = s.latest u'.blk := by
    obtain ⟨hlt, hlogged, -⟩ := hok.progress
    rw [hsees, hblk, hblk']
    exact hlogged tail hlt
  unfold Commit.step
  rw [wp_read]
  dsimp only at hgood ⊢
  rw [hr'] at hgood
  rw [hr, hr']
  rw [wp_bind, wp_set, wp_pure]
  refine h.stepped (r := .snd) hc ?_ ?_ ?_ ?_ ?_ ?_ fun _ _ => rfl
  · rw [pins_rest (i := .home) (by simp) reg]
    refine hgood.change hu' rfl rfl ?_
    rw [hcopy, update_eq_self]
  · intro v hv
    exact ⟨u', hr', by rw [← some.inj hv]⟩
  · exact .inr ⟨hused.2.2.1, .inl ⟨rfl, fun _ => hused.2.2.2⟩⟩
  · exact fun r' _ => (hok.regs r').tail (by simp) (by simp) (by simp)
  · have hp : Progress s ⟨proc, .install tail, rest, reg⟩ := Progress.tail hok.progress rfl rfl rfl (by simp)
    exact hp
  · exact KeptBufs.of_set (b := u'.b) rfl fun _ => ⟨rfl, rfl⟩

theorem wp_step_clear : Commit.Steps ⟨proc, phase, .clear :: rest, reg⟩ E s := by
  intro hc
  have hok := h.running _ hc
  have hmem := hok.first
  obtain rfl := phase_of_clear hmem
  have hne : s.commit ≠ none := by rw [hc]; exact some_ne_none _
  have hg := h.good
  unfold Bio.handles Bio.pins at hg
  rw [hc] at hg
  unfold Commit.step
  rw [wp_read]
  rw [wp_bind, wp_set, wp_pure]
  refine ⟨⟨⟨h.count, h.procs, ?_, fun _ => h.quiet hne, h.dirty, nodup_nil, ?_, Nat.zero_le _⟩, ?_, ?_⟩,
    fun _ _ _ => ⟨rfl, rfl⟩, ⟨rfl, rfl, fun _ _ => rfl⟩, .inr rfl, fun _ => rfl, ?_⟩
  · have := h.commit.mpr hne
    simp [this]
  · intro k hk; cases hk
  · exact ⟨hg.toBufCore, hg.fresh, hg.stored⟩
  · intro c hc'
    rw [← some.inj hc']
    refine ⟨(suffix_cons _ _).trans hok.suffix, hok.blks, ?_, fun _ => rfl⟩
    exact fun r => (hok.regs r).tail (by simp) (by simp) (by simp)
  · intro _ c' hc'
    rw [← some.inj hc']
    exact work_tail rfl rfl rfl

end

theorem length_round (start : Nat) (lh : List Nat) (phase : Phase) : (round start lh phase).length ≤ 7 := by
  cases phase <;> simp [round]

theorem work_round {phase phase' : Phase} (h : phase'.rank < phase.rank) :
    Commit.work ⟨proc, phase', round start lh phase', reg⟩ < Commit.work ⟨proc, phase, [], reg⟩ := by
  have hlen := length_round start lh phase'
  unfold Commit.work
  dsimp only
  split
  · omega
  · rename_i i rest heq
    have hm := micro_le i reg
    rw [heq, length_cons] at hlen
    omega

theorem Progress.next (h : Progress s ⟨proc, phase, [], reg⟩) (hn : phase ≠ .done) (hs : s.log.lh.length ≤ LOGBLOCKS) :
    (phase.next s.log.lh.length).rank < phase.rank ∧
    Progress s ⟨proc, phase.next s.log.lh.length, round s.start s.log.lh (phase.next s.log.lh.length), reg⟩ ∧
    Commit.pins ⟨proc, phase.next s.log.lh.length, round s.start s.log.lh (phase.next s.log.lh.length), reg⟩ s.log.lh =
      Commit.pins ⟨proc, phase, [], reg⟩ s.log.lh := by
  cases phase with
  | idle => exact h.elim
  | writeLog tail =>
    obtain ⟨hlt, hlogged, hlast⟩ := h
    have hall : ∀ t < tail + 1, Logged s t := by
      intro t ht
      rcases Nat.lt_succ_iff_lt_or_eq.mp ht with ht | rfl
      · exact hlogged t ht
      · exact hlast not_mem_nil
    dsimp only [Phase.next] at hlt ⊢
    by_cases hm : tail + 1 < s.log.lh.length
    · rw [if_pos hm]
      refine ⟨?_, ⟨hm, hall, fun hl => absurd hl (by simp [round])⟩, rfl⟩
      simp only [Phase.rank] at hs ⊢
      lia
    · rw [if_neg hm]
      refine ⟨?_, ⟨by omega, fun t ht => hall t (by omega)⟩, rfl⟩
      simp only [Phase.rank] at hs ⊢
      lia
  | writeHead =>
    dsimp only [Phase.next]
    refine ⟨Nat.lt_succ_self _, ⟨h.1, h.2, fun hl => absurd hl (by simp [round])⟩, ?_⟩
    simp [Commit.pins, round]
  | install tail =>
    obtain ⟨hlt, hlogged, -⟩ := h
    dsimp only [Phase.next] at hlt ⊢
    by_cases hm : tail + 1 < s.log.lh.length
    · rw [if_pos hm]
      refine ⟨?_, ⟨hm, hlogged, fun hl => absurd hl (by simp [round])⟩, ?_⟩
      · simp only [Phase.rank] at hs ⊢
        lia
      · simp [Commit.pins, round]
    · rw [if_neg hm]
      refine ⟨?_, fun hl => absurd hl (by simp [round]), ?_⟩
      · simp only [Phase.rank] at hs ⊢
        lia
      · simp only [Commit.pins, not_mem_nil, if_false]
        exact (drop_eq_nil_of_le (by omega)).symm
  | erase => exact ⟨Nat.one_pos, h not_mem_nil, rfl⟩
  | done => exact absurd rfl hn

theorem wp_step_nil (h : BioInv s) : Commit.Steps ⟨proc, phase, [], reg⟩ E s := by
  intro hc
  have hok := h.running _ hc
  have hg := h.good
  unfold Bio.handles Bio.pins at hg
  rw [hc] at hg
  -- no variable holds a buffer between two rounds
  have hnone : ∀ r, reg r = none := by
    intro r
    have hr : RegOk [] r (reg r) := hok.regs r
    cases hreg : reg r with
    | none => rfl
    | some u =>
      rw [hreg] at hr
      simp [RegOk, live] at hr
  unfold Commit.step
  rw [wp_read]
  refine wp_ite (fun hd => ?_) fun hd => ?_
  · rw [wp_bind, wp_set, wp_pure]
    subst hd
    have hlh : s.log.lh = [] := hok.progress
    refine ⟨⟨⟨h.count, h.procs, ?_, fun hn => absurd rfl hn, h.dirty, h.nodup, h.home, h.small⟩, ?_, ?_⟩,
      fun _ _ _ => ⟨rfl, rfl⟩, ⟨rfl, rfl, fun _ _ => rfl⟩, .inl rfl, fun _ => hlh, ?_⟩
    · simp
    · have hu : Commit.uses reg = [] := by simp [Commit.uses, hnone]
      dsimp only [Commit.pins] at hg
      rw [hu, nil_append] at hg
      dsimp only
      rw [hlh]
      exact ⟨hg.toBufCore, hg.fresh, hg.stored⟩
    · intro c hc'; cases hc'
    · intro _ c' hc'; cases hc'
  · rw [wp_pure]
    obtain ⟨hrank, hprog, hpins⟩ := hok.progress.next hd h.small
    refine ⟨h.advance hc (by rw [hpins]; exact hg) ⟨suffix_rfl, ?_, ?_, hprog⟩, fun _ _ _ => ⟨rfl, rfl⟩,
      ⟨rfl, rfl, fun _ _ => rfl⟩, .inl rfl, fun hn => absurd hn (some_ne_none _), ?_⟩
    · intro r u hu
      dsimp only at hu
      rw [hnone r] at hu
      cases hu
    · intro r
      dsimp only
      rw [hnone r]
      exact live_round ..
    · intro _ c' hc'
      rw [← some.inj hc']
      exact work_round hrank

end Xv6
