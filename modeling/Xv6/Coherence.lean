import Xv6.BioSound

/-!
# The buffer cache is coherent

A cached block holds what was written to it last. A block whose last contents
are not on the disk is pinned, or somebody who has changed it still holds its
buffer. What a commit copies to the log and home again is what the operations
wrote, since no operation runs beside it.
-/

namespace Xv6

open Hoare Function
open List (mem_cons mem_cons_self)

structure Contents (s : Bio) (hs : List Use) (pins : List Nat) : Prop where
  fresh : ∀ b blk, s.bc.Cached b blk → (s.bc.buf b).valid = true → (s.bc.buf b).data = s.latest blk
  stored : ∀ blk, s.disk blk = s.latest blk ∨ blk ∈ pins ∨ ∃ u ∈ hs, u.blk = blk ∧ u.st = .dirty

structure Good (s : Bio) (hs : List Use) (pins : List Nat) : Prop extends BufCore s.bc hs pins, Contents s hs pins

def KeptBufs (s s' : Bio) : Prop :=
  ∀ b < NBUF, 0 < (s.bc.buf b).refcnt → (s'.bc.buf b).dev = (s.bc.buf b).dev ∧ (s'.bc.buf b).blockno = (s.bc.buf b).blockno

theorem KeptBufs.of_set {s : Bio} {b : Nat} {x : Buf} {s' : Bio} (hs : s'.bc.buf = (s.bc.set b x).buf)
    (h : 0 < (s.bc.buf b).refcnt → x.dev = (s.bc.buf b).dev ∧ x.blockno = (s.bc.buf b).blockno) : KeptBufs s s' := by
  intro a _ hpos
  rw [hs]
  by_cases hab : a = b
  · subst hab; rw [Bcache.set_buf_self]; exact h hpos
  · rw [Bcache.set_buf_of_ne hab]; exact ⟨rfl, rfl⟩

theorem fresh_recount {s : Bio} {c : Bcache} {b n : Nat}
    (hf : ∀ a k, s.bc.Cached a k → (s.bc.buf a).valid → (s.bc.buf a).data = s.latest k)
    (hc : c.buf = (s.bc.set b { s.bc.buf b with refcnt := n }).buf) (a k : Nat) (ha : c.Cached a k)
    (hv : (c.buf a).valid) : (c.buf a).data = s.latest k := by
  unfold Bcache.Cached at ha
  rw [hc] at ha hv ⊢
  by_cases hab : a = b
  · subst hab
    rw [Bcache.set_buf_self] at ha hv ⊢
    exact hf a k ha hv
  · rw [Bcache.set_buf_of_ne hab] at ha hv ⊢
    exact hf a k ha hv

variable {s : Bio} {hs hs' rest : List Use} {pins : List Nat} {u u' : Use} {b blk : Nat} {E : BioStop → Prop}

theorem Good.perm (h : Good s hs pins) (hp : hs.Perm hs') : Good s hs' pins := by
  refine ⟨h.toBufCore.perm hp, h.fresh, ?_⟩
  intro blk
  rcases h.stored blk with hd | hm | ⟨u, hu, hd⟩
  · exact .inl hd
  · exact .inr (.inl hm)
  · exact .inr (.inr ⟨u, hp.mem_iff.mp hu, hd⟩)

theorem Good.sees (h : Good s hs pins) (hu : u ∈ hs) (hh : u.held) : (s.bc.buf u.b).data = s.latest u.blk :=
  h.fresh u.b u.blk (h.place u hu) (h.valid u hu hh)

theorem wp_bget (h : Good s hs pins) (i blk : Nat) (hE : (∀ a, ¬ s.bc.Cached a blk) →
      (∀ a < NBUF, (s.bc.buf a).refcnt ≠ 0) → E .noBuffers) :
    wp (bget i blk) (fun u s' => s' = { s with bc := s'.bc } ∧ KeptBufs s s' ∧ Good s' (u :: hs) pins ∧
      u.blk = blk ∧ u.st = .locking ∧ u.proc = i) E s := by
  unfold bget
  rw [wp_read]
  have hst : ∀ {c : Bcache} {b : Nat} (k : Nat), s.disk k = s.latest k ∨ k ∈ pins ∨
      ∃ u ∈ (⟨i, b, blk, .locking⟩ :: hs : List Use), u.blk = k ∧ u.st = .dirty := by
    intro _ b k
    rcases h.stored k with hd | hm | ⟨u, hu, hd⟩
    · exact .inl hd
    · exact .inr (.inl hm)
    · exact .inr (.inr ⟨u, List.mem_cons_of_mem _ hu, hd⟩)
  rcases h.listed.bget_cases blk with ⟨b, hc, he⟩ | ⟨b, hb, hno, h0, he⟩ | ⟨hno, hall, he⟩
  · rw [he]
    rw [wp_bind, wp_set, wp_pure]
    refine ⟨rfl, ?_, ⟨h.toBufCore.hit hc i, fresh_recount (s := s) h.fresh rfl, hst (c := s.bc)⟩, rfl, rfl, rfl⟩
    exact KeptBufs.of_set rfl fun _ => ⟨rfl, rfl⟩
  · rw [he]
    rw [wp_bind, wp_set, wp_pure]
    refine ⟨rfl, ?_, ⟨h.toBufCore.recycle hb hno h0 i, ?_, hst (c := s.bc)⟩, rfl, rfl, rfl⟩
    · exact KeptBufs.of_set rfl fun hpos => by omega
    · intro a k ha hv
      unfold Bcache.Cached at ha
      by_cases hab : a = b
      · rw [hab, Bcache.set_buf_self] at hv
        cases hv
      · rw [Bcache.set_buf_of_ne hab] at ha hv ⊢
        exact h.fresh a k ha hv
  · rw [he]
    simp only [wp_throw]
    exact hE hno hall

section
variable (h : Good s (u :: rest) pins) (hfree : (s.bc.buf u.b).lock = none ∨ u.locked = true)
include h hfree

theorem Good.still
    (hst : u.st ≠ .dirty) : s.disk u.blk = s.latest u.blk ∨ u.blk ∈ pins := by
  rcases h.stored u.blk with hd | hp | ⟨v, hm, hvk, hvd⟩
  · exact .inl hd
  · exact .inr hp
  · have hheld : v.held := by simp [Use.held, hvd]
    rcases mem_cons.mp hm with rfl | hm
    · exact absurd hvd hst
    · have hvb : v.b = u.b :=
        h.unique v.b u.b u.blk (hvk ▸ h.place v (List.mem_cons_of_mem _ hm)) (h.place u mem_cons_self)
      have hvl := h.others hfree v hm hvb
      rw [Use.locked_of_held hheld] at hvl
      cases hvl

theorem Good.update {x : Buf} {s' : Bio} (hbc : s'.bc = s.bc.set u.b x)
    (hb : u'.b = u.b) (hk : u'.blk = u.blk) (hdev : x.dev = (s.bc.buf u.b).dev)
    (hno : x.blockno = (s.bc.buf u.b).blockno) (hr : x.refcnt = (s.bc.buf u.b).refcnt)
    (hl : x.lock = if u'.locked then some u'.proc else none)
    (hv : (s.bc.buf u.b).valid → x.valid) (hheld : u'.held → x.valid)
    (hread : u'.st = .reading → x.valid = false) (hx : x.valid → x.data = s'.latest u.blk)
    (hdisk : ∀ k ≠ u.blk, s'.disk k = s.disk k) (hlatest : ∀ k ≠ u.blk, s'.latest k = s.latest k)
    (hu : (s'.disk u.blk = s'.latest u.blk ∨ u.blk ∈ pins) ∨ u'.st = .dirty) : Good s' (u' :: rest) pins := by
  have hplace := h.place u mem_cons_self
  refine ⟨hbc ▸ h.toBufCore.update hfree hb hk hdev hno hr hl hv hheld hread, ?_, ?_⟩
  · intro a k ha hav
    rw [hbc] at ha hav ⊢
    have ha' : s.bc.Cached a k := (Bcache.cached_set hdev hno).mp ha
    by_cases hab : a = u.b
    · subst hab
      have hku : k = u.blk := ha'.2.2.symm.trans hplace.2.2
      rw [Bcache.set_buf_self] at hav ⊢
      rw [hku]; exact hx hav
    · have hku : k ≠ u.blk := fun he => hab (h.unique a u.b k ha' (he ▸ hplace))
      rw [Bcache.set_buf_of_ne hab] at hav ⊢
      rw [hlatest k hku]; exact h.fresh a k ha' hav
  · intro k
    by_cases hku : k = u.blk
    · subst hku
      rcases hu with (hu | hu) | hu
      · exact .inl hu
      · exact .inr (.inl hu)
      · exact .inr (.inr ⟨u', mem_cons_self, hk, hu⟩)
    · rw [hdisk k hku, hlatest k hku]
      rcases h.stored k with hd | hd | ⟨v, hm, hvk, hvd⟩
      · exact .inl hd
      · exact .inr (.inl hd)
      · rcases mem_cons.mp hm with rfl | hm
        · exact absurd hvk.symm hku
        · exact .inr (.inr ⟨v, List.mem_cons_of_mem _ hm, hvk, hvd⟩)

end

def Acquires (s : Bio) (u u' : Use) : Prop :=
  (u'.st = u.st ∧ u.st ≠ .reading ∧ (u.st = .locking → (s.bc.buf u.b).lock ≠ none)) ∨
    (u.st = .locking ∧ u'.st = .reading) ∨ ((u.st = .locking ∨ u.st = .reading) ∧ u'.st = .holding)

theorem wp_acquireStep (h : Good s (u :: rest) pins) :
    wp (acquireStep u) (fun u' s' => s' = { s with bc := s'.bc } ∧ KeptBufs s s' ∧ Good s' (u' :: rest) pins ∧
      u'.proc = u.proc ∧ u'.blk = u.blk ∧ Acquires s u u') E s := by
  have hplace := h.place u mem_cons_self
  have hsame : u.st ≠ .reading → (u.st = .locking → (s.bc.buf u.b).lock ≠ none) → s = { s with bc := s.bc } ∧ KeptBufs s s ∧
      Good s (u :: rest) pins ∧ u.proc = u.proc ∧ u.blk = u.blk ∧ Acquires s u u :=
    fun hr hl => ⟨rfl, fun _ _ _ => ⟨rfl, rfl⟩, h, rfl, rfl, .inl ⟨rfl, hr, hl⟩⟩
  unfold acquireStep
  rw [wp_read]
  split
  · rename_i hst
    refine wp_ite (fun hl => ?_) fun hl => wp_ret (hsame (by rw [hst]; decide) fun _ => hl)
    rw [wp_bind, wp_set, wp_pure]
    have hstill := h.still (.inl hl) (by rw [hst]; decide)
    refine ⟨rfl, KeptBufs.of_set rfl fun _ => ⟨rfl, rfl⟩, ?_, rfl, rfl, ?_⟩
    · refine h.update (.inl hl) rfl rfl rfl rfl rfl rfl ?_ (fun hv => hv) ?_ ?_ ?_ (fun _ _ => rfl) (fun _ _ => rfl)
        (.inl hstill)
      · split <;> simp [Use.locked, Use.held]
      · intro hh
        by_contra hv
        simp [Use.held, hv] at hh
      · intro hr
        by_contra hv
        simp [hv] at hr
      · exact fun hv => h.fresh u.b u.blk hplace hv
    · split
      · exact .inr (.inr ⟨.inl hst, rfl⟩)
      · exact .inr (.inl ⟨hst, rfl⟩)
  · rename_i hst
    have hlk : u.locked := Use.locked_of_reading hst
    rw [wp_bind, wp_set, wp_pure]
    -- a pinned block would be valid
    have hdisk : s.disk u.blk = s.latest u.blk := by
      refine (h.still (.inr hlk) (by rw [hst]; decide)).resolve_right fun hp => ?_
      obtain ⟨a, ha, hv⟩ := h.pinned u.blk hp
      rw [h.unique a u.b u.blk ha hplace, h.unread u mem_cons_self hst] at hv
      cases hv
    refine ⟨rfl, KeptBufs.of_set rfl fun _ => ⟨rfl, rfl⟩, ?_, rfl, rfl, .inr (.inr ⟨.inr hst, rfl⟩)⟩
    refine h.update (.inr hlk) rfl rfl rfl rfl rfl rfl ?_ (fun _ => rfl) (fun _ => rfl) ?_ ?_ (fun _ _ => rfl)
      (fun _ _ => rfl) (.inl (.inl hdisk))
    · simpa [Use.locked, Use.held] using h.owner u mem_cons_self hlk
    · intro hr; cases hr
    · intro _
      rw [hplace.2.2]; exact hdisk
  · rename_i hl hr
    exact wp_ret (hsame hr fun he => absurd he hl)

def Releases (u : Use) (o : Option Use) : Prop :=
  (o = some u ∧ u.held = false ∧ u.st ≠ .dropping) ∨ (u.held = true ∧ o = some { u with st := .dropping }) ∨
    (u.st = .dropping ∧ o = none)

section
variable (h : Good s (u :: rest) pins)
include h

theorem wp_releaseStep (hst : u.st ≠ .dirty) :
    wp (releaseStep u) (fun o s' => s' = { s with bc := s'.bc } ∧ KeptBufs s s' ∧ Good s' (o.toList ++ rest) pins ∧
      Releases u o) E s := by
  have hplace := h.place u mem_cons_self
  have hhold : u.held → wp (if (s.bc.buf u.b).lock ≠ some u.proc then throw .brelse
      else do
        set { s with bc := s.bc.set u.b { s.bc.buf u.b with lock := none } }
        return some { u with st := .dropping } : Prog Bio BioStop (Option Use))
      (fun o s' => s' = { s with bc := s'.bc } ∧ KeptBufs s s' ∧ Good s' (o.toList ++ rest) pins ∧ Releases u o) E s := by
    intro hh
    have hlk := Use.locked_of_held hh
    rw [if_neg (not_not.mpr (h.owner u mem_cons_self hlk)), wp_bind, wp_set, wp_pure]
    refine ⟨rfl, KeptBufs.of_set rfl fun _ => ⟨rfl, rfl⟩, ?_, .inr (.inl ⟨hh, rfl⟩)⟩
    refine h.update (.inr hlk) rfl rfl rfl rfl rfl rfl rfl (fun hv => hv) ?_ ?_ ?_ (fun _ _ => rfl)
      (fun _ _ => rfl) (.inl (h.still (.inr hlk) hst))
    · intro hh'; simp [Use.held] at hh'
    · intro hr; cases hr
    · exact fun hv => h.fresh u.b u.blk hplace hv
  unfold releaseStep
  rw [wp_read]
  split
  · rename_i he
    exact hhold (by simp [Use.held, he])
  · rename_i he
    exact absurd he hst
  · rename_i he
    rw [wp_bind, wp_set, wp_pure]
    have hcore := h.toBufCore.drop (by simp [Use.locked, Use.held, he])
    have hbuf : (s.bc.drop u.b).buf = (s.bc.set u.b { s.bc.buf u.b with refcnt := (s.bc.buf u.b).refcnt - 1 }).buf := by
      unfold Bcache.drop
      dsimp only
      split <;> rfl
    refine ⟨rfl, KeptBufs.of_set hbuf fun _ => ⟨rfl, rfl⟩, ⟨hcore, fresh_recount (s := s) h.fresh hbuf, ?_⟩,
      .inr (.inr ⟨he, rfl⟩)⟩
    intro k
    rcases h.stored k with hd | hp | ⟨v, hm, hvk, hvd⟩
    · exact .inl hd
    · exact .inr (.inl hp)
    · rcases mem_cons.mp hm with rfl | hm
      · exact absurd hvd hst
      · exact .inr (.inr ⟨v, hm, hvk, hvd⟩)
  · rename_i hh hd' hd
    refine wp_ret ⟨rfl, fun _ _ _ => ⟨rfl, rfl⟩, h, .inl ⟨rfl, ?_, hd⟩⟩
    simpa [Use.held] using And.intro hh hd'

theorem Good.hold (hh : u.held) (hbc : s'.bc = s.bc)
    (hlatest : s'.latest = s.latest) (hdisk : ∀ k ≠ u.blk, s'.disk k = s.disk k)
    (hu : s'.disk u.blk = s.latest u.blk ∨ u.blk ∈ pins) : Good s' ({ u with st := .holding } :: rest) pins := by
  have hlk := Use.locked_of_held hh
  have hval := h.valid u mem_cons_self hh
  refine h.update (x := s.bc.buf u.b) (.inr hlk) ?_ rfl rfl rfl rfl rfl ?_ (fun hv => hv) (fun _ => hval) ?_ ?_ hdisk
    (fun k _ => by rw [hlatest]) (.inl (by rwa [hlatest]))
  · rw [hbc, Bcache.set_eq_self]
  · simpa [Use.locked, Use.held] using h.owner u mem_cons_self hlk
  · intro hr; cases hr
  · intro _
    rw [hlatest]; exact h.sees mem_cons_self hh

theorem wp_bwrite (hh : u.held) :
    wp (bwrite u) (fun _ s' => s' = { s with disk := Function.update s.disk u.blk (s.latest u.blk) } ∧
      Good s' ({ u with st := .holding } :: rest) pins) E s := by
  have hlk := Use.locked_of_held hh
  have hsees := h.sees mem_cons_self hh
  have hno := (h.place u mem_cons_self).2.2
  unfold bwrite
  rw [wp_read]
  rw [if_neg (not_not.mpr (h.owner u mem_cons_self hlk)), wp_set, hno, hsees]
  refine ⟨rfl, h.hold hh rfl rfl ?_ (.inl ?_)⟩
  · exact fun k hk => update_of_ne hk ..
  · exact update_self ..

theorem Good.change (hh : u.held)
    (hbc : s'.bc = s.bc.set u.b { s.bc.buf u.b with data := v }) (hdisk : s'.disk = s.disk)
    (hlatest : s'.latest = Function.update s.latest u.blk v) : Good s' ({ u with st := .dirty } :: rest) pins := by
  have hlk := Use.locked_of_held hh
  have hval := h.valid u mem_cons_self hh
  refine h.update (.inr hlk) hbc rfl rfl rfl rfl rfl ?_ (fun hv => hv) (fun _ => hval) ?_ ?_ (fun k _ => by rw [hdisk])
    ?_ (.inr rfl)
  · simpa [Use.locked, Use.held] using h.owner u mem_cons_self hlk
  · intro hr; cases hr
  · intro _
    rw [hlatest, update_self]
  · intro k hk
    rw [hlatest, update_of_ne hk]

end

theorem Good.bpin (h : Good s hs pins) (hu : u ∈ hs) (hh : u.held) (hn : u.blk ∉ pins) :
    Good { s with bc := s.bc.bpin u.b } hs (pins ++ [u.blk]) := by
  refine ⟨h.toBufCore.bpin hu hh hn, fresh_recount (s := s) h.fresh rfl, ?_⟩
  intro k
  rcases h.stored k with hd | hp | hd
  · exact .inl hd
  · exact .inr (.inl (List.mem_append_left _ hp))
  · exact .inr (.inr hd)

theorem Good.bunpin (h : Good s hs (blk :: pins)) (hu : u ∈ hs) (hk : u.blk = blk) (hn : blk ∉ pins)
    (hd : s.disk blk = s.latest blk) : Good { s with bc := s.bc.bunpin u.b } hs pins := by
  refine ⟨h.toBufCore.bunpin hu hk hn, fresh_recount (s := s) h.fresh rfl, ?_⟩
  intro k
  rcases h.stored k with hd' | hp | hd'
  · exact .inl hd'
  · rcases mem_cons.mp hp with rfl | hp
    · exact .inl hd
    · exact .inr (.inl hp)
  · exact .inr (.inr hd')

end Xv6
