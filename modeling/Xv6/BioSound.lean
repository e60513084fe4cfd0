import Xv6.Bio

/-!
# The buffer cache keeps its books

`BufCore c hs pins`: the buffers of `c` are on its list, one for each cached
block, and counted and locked as the uses `hs` and the pinned blocks `pins`
say. Each operation of `bio.c` keeps it.
-/

namespace Xv6

open Hoare Ringlist List

namespace Bcache

variable {c : Bcache} {b b' blk : Nat} {x : Buf}

def Cached (c : Bcache) (b blk : Nat) : Prop := b < NBUF ∧ (c.buf b).dev = ROOTDEV ∧ (c.buf b).blockno = blk

instance decidableCached (c : Bcache) (b blk : Nat) : Decidable (c.Cached b blk) := inferInstanceAs (Decidable (_ ∧ _))

def Listed (c : Bcache) : Prop := ∃ l, l.Perm (range NBUF) ∧ IsRing c.links NBUF l

@[simp] theorem set_buf_self : (c.set b x).buf b = x := Function.update_self ..

@[simp] theorem set_eq_self : c.set b (c.buf b) = c := by
  unfold set
  rw [Function.update_eq_self]

theorem set_buf_of_ne (h : b' ≠ b) : (c.set b x).buf b' = c.buf b' := Function.update_of_ne h ..

theorem cached_set (hd : x.dev = (c.buf b).dev) (hn : x.blockno = (c.buf b).blockno) :
    (c.set b x).Cached b' blk ↔ c.Cached b' blk := by
  unfold Cached
  by_cases hb : b' = b
  · subst hb; rw [set_buf_self, hd, hn]
  · rw [set_buf_of_ne hb]

theorem ring_foldl : ∀ {bs : List Nat}, IsRing k NBUF l → (bs ++ NBUF :: l).Nodup →
    ∃ l', l'.Perm (bs ++ l) ∧ IsRing (bs.foldl (fun k b => k.push NBUF b) k) NBUF l'
  | [], hr, _ => ⟨l, Perm.refl l, hr⟩
  | b :: bs, hr, hn => by
    have hn' := nodup_cons.mp hn
    have hb : b ∉ NBUF :: l := fun hm => hn'.1 (mem_append_right _ hm)
    have hbs : (bs ++ NBUF :: b :: l).Nodup := by
      have hp : (b :: (bs ++ NBUF :: l)).Perm (bs ++ NBUF :: b :: l) :=
        perm_middle.symm.trans ((Perm.swap NBUF b l).append_left bs)
      exact hp.nodup hn
    obtain ⟨l', hp, hr'⟩ := ring_foldl (hr.push hb) hbs
    exact ⟨l', hp.trans perm_middle, hr'⟩

theorem listed_binit : Listed .binit := by
  have hr : IsRing (⟨fun _ => NBUF, fun _ => NBUF⟩ : Links Nat) NBUF [] := by
    refine ⟨?_, rfl, rfl⟩
    exact nodup_singleton NBUF
  have hn : (range NBUF ++ [NBUF]).Nodup := by
    rw [← range_succ]
    exact nodup_range
  obtain ⟨l, hp, hr'⟩ := ring_foldl hr hn
  exact ⟨l, by rwa [append_nil] at hp, hr'⟩

theorem Listed.moveFront (h : c.Listed) (hb : b < NBUF) :
    Listed { c with links := (c.links.unlink b).push NBUF b } := by
  obtain ⟨l, hp, hr⟩ := h
  obtain ⟨l', hp', hr'⟩ := hr.moveFront (b := b) (hp.mem_iff.mpr (mem_range.mpr hb))
  exact ⟨l', hp'.trans hp, hr'⟩

theorem Listed.follow_cases (h : c.Listed) (p : Nat → Bool)
    (ho : o = follow c.links.next NBUF p (NBUF + 1) (c.links.next NBUF) ∨
      o = follow c.links.prev NBUF p (NBUF + 1) (c.links.prev NBUF)) :
    (∃ b < NBUF, o = some b ∧ p b) ∨ (o = none ∧ ∀ b < NBUF, p b = false) := by
  obtain ⟨l, hp, hr⟩ := h
  have hlen : l.length = NBUF := by rw [hp.length_eq, length_range]
  have hmem : ∀ b, b ∈ l ↔ b < NBUF := fun b => by rw [hp.mem_iff, mem_range]
  have hfind : ∃ l' : List Nat, (∀ b, b ∈ l' ↔ b < NBUF) ∧ o = l'.find? p := by
    rcases ho with ho | ho
    · refine ⟨l, hmem, ?_⟩
      rw [ho, ← hr.follow_next, hlen]
    · refine ⟨l.reverse, fun b => by rw [mem_reverse, hmem], ?_⟩
      rw [ho, ← hr.follow_prev, hlen]
  obtain ⟨l', hmem', rfl⟩ := hfind
  cases hf : l'.find? p with
  | none =>
    refine .inr ⟨rfl, fun b hb => ?_⟩
    exact Bool.eq_false_iff.mpr (find?_eq_none.mp hf b ((hmem' b).mpr hb))
  | some b => exact .inl ⟨b, (hmem' b).mp (mem_of_find?_eq_some hf), rfl, find?_some hf⟩

theorem Listed.bget_cases (h : c.Listed) (blk : Nat) :
    (∃ b, c.Cached b blk ∧ c.bget ROOTDEV blk = some (b, c.set b { c.buf b with refcnt := (c.buf b).refcnt + 1 })) ∨
    (∃ b < NBUF, (∀ a, ¬ c.Cached a blk) ∧ (c.buf b).refcnt = 0 ∧ c.bget ROOTDEV blk =
      some (b, c.set b { c.buf b with dev := ROOTDEV, blockno := blk, valid := false, refcnt := 1 })) ∨
    ((∀ a, ¬ c.Cached a blk) ∧ (∀ a < NBUF, (c.buf a).refcnt ≠ 0) ∧ c.bget ROOTDEV blk = none) := by
  rcases h.follow_cases (fun b => (c.buf b).dev == ROOTDEV && (c.buf b).blockno == blk) (.inl rfl) with
    ⟨b, hb, hw, hp⟩ | ⟨hw, hp⟩
  · rw [Bool.and_eq_true, beq_iff_eq, beq_iff_eq] at hp
    refine .inl ⟨b, ⟨hb, hp⟩, ?_⟩
    unfold bget
    rw [hw]
  · have hno : ∀ a, ¬ c.Cached a blk := by
      rintro a ⟨ha, hd, hn⟩
      have hf := hp a ha
      simp only [hd, hn, BEq.rfl, Bool.and_self, Bool.true_eq_false] at hf
    rcases h.follow_cases (fun b => (c.buf b).refcnt == 0) (.inr rfl) with ⟨b, hb, hw', hp'⟩ | ⟨hw', hp'⟩
    · refine .inr (.inl ⟨b, hb, hno, beq_iff_eq.mp hp', ?_⟩)
      unfold bget
      rw [hw, hw']
    · refine .inr (.inr ⟨hno, fun a ha h0 => ?_, ?_⟩)
      · have hf := hp' a ha
        simp only [h0, BEq.rfl, Bool.true_eq_false] at hf
      · unfold bget
        rw [hw, hw']

end Bcache

theorem Use.locked_of_held {u : Use} (h : u.held) : u.locked := by simp [Use.locked, h]

theorem Use.locked_of_reading {u : Use} (h : u.st = .reading) : u.locked := by simp [Use.locked, h]

def pinCount (c : Bcache) (pins : List Nat) (b : Nat) : Nat :=
  if (c.buf b).dev = ROOTDEV ∧ (c.buf b).blockno ∈ pins then 1 else 0

structure BufCore (c : Bcache) (hs : List Use) (pins : List Nat) : Prop where
  listed : c.Listed
  unique : ∀ b b' blk, c.Cached b blk → c.Cached b' blk → b = b'
  place : ∀ u ∈ hs, c.Cached u.b u.blk
  refs : ∀ b < NBUF, (c.buf b).refcnt = hs.countP (·.b = b) + pinCount c pins b
  locks : ∀ b < NBUF, hs.countP (fun u => u.b = b ∧ u.locked) = if (c.buf b).lock = none then 0 else 1
  owner : ∀ u ∈ hs, u.locked → (c.buf u.b).lock = some u.proc
  valid : ∀ u ∈ hs, u.held → (c.buf u.b).valid = true
  unread : ∀ u ∈ hs, u.st = .reading → (c.buf u.b).valid = false
  pinned : ∀ blk ∈ pins, ∃ b, c.Cached b blk ∧ (c.buf b).valid = true

variable {c : Bcache} {hs hs' rest : List Use} {pins : List Nat} {u u' : Use} {b blk : Nat} {x : Buf}

theorem BufCore.binit : BufCore .binit [] [] := by
  refine ⟨Bcache.listed_binit, ?_, ?_, ?_, ?_, ?_, ?_, ?_, ?_⟩
  · intro b b' blk hc
    exact absurd (show 0 = ROOTDEV from hc.2.1) (by decide)
  all_goals simp [Bcache.binit, pinCount]

theorem BufCore.perm (h : BufCore c hs pins) (hp : hs.Perm hs') : BufCore c hs' pins where
  listed := h.listed
  unique := h.unique
  place u hu := h.place u (hp.mem_iff.mpr hu)
  refs b hb := by rw [h.refs b hb, hp.countP_eq]
  locks b hb := by rw [← h.locks b hb, hp.countP_eq]
  owner u hu := h.owner u (hp.mem_iff.mpr hu)
  valid u hu := h.valid u (hp.mem_iff.mpr hu)
  unread u hu := h.unread u (hp.mem_iff.mpr hu)
  pinned := h.pinned

theorem BufCore.refcnt_pos (h : BufCore c hs pins) (hu : u ∈ hs) : 0 < (c.buf u.b).refcnt := by
  have hc : 0 < hs.countP (·.b = u.b) := countP_pos_iff.mpr ⟨u, hu, by simp⟩
  have := h.refs u.b (h.place u hu).1
  omega

theorem BufCore.free (h : BufCore c hs pins) (hb : b < NBUF) (h0 : (c.buf b).refcnt = 0) :
    (∀ u ∈ hs, u.b ≠ b) ∧ ∀ blk ∈ pins, ¬ c.Cached b blk := by
  have hr := h.refs b hb
  refine ⟨fun u hu he => ?_, fun blk hblk hc => ?_⟩
  · subst he
    exact absurd (h.refcnt_pos hu) (by omega)
  · have : pinCount c pins b = 1 := if_pos ⟨hc.2.1, hc.2.2 ▸ hblk⟩
    omega

theorem pinCount_set (hd : x.dev = (c.buf b).dev) (hn : x.blockno = (c.buf b).blockno) (a : Nat) :
    pinCount (c.set b x) pins a = pinCount c pins a := by
  unfold pinCount
  by_cases ha : a = b
  · subst ha; rw [Bcache.set_buf_self, hd, hn]
  · rw [Bcache.set_buf_of_ne ha]

theorem BufCore.others (h : BufCore c (u :: rest) pins) (hl : (c.buf u.b).lock = none ∨ u.locked) :
    ∀ v ∈ rest, v.b = u.b → v.locked = false := by
  intro v hv hb
  have hc := h.locks u.b (h.place u mem_cons_self).1
  rw [countP_cons] at hc
  by_contra hlk
  have hpos : 0 < rest.countP (fun w => w.b = u.b ∧ w.locked) :=
    countP_pos_iff.mpr ⟨v, hv, by simp [hb, Bool.eq_true_of_not_eq_false hlk]⟩
  rcases hl with hl | hl
  · rw [if_pos hl] at hc
    omega
  · simp only [hl, and_self, decide_true, if_true] at hc
    split at hc <;> omega

theorem BufCore.update (h : BufCore c (u :: rest) pins) (hfree : (c.buf u.b).lock = none ∨ u.locked)
    (hb : u'.b = u.b) (hk : u'.blk = u.blk) (hd : x.dev = (c.buf u.b).dev) (hn : x.blockno = (c.buf u.b).blockno)
    (hr : x.refcnt = (c.buf u.b).refcnt) (hl : x.lock = if u'.locked then some u'.proc else none)
    (hv : (c.buf u.b).valid → x.valid) (hheld : u'.held → x.valid)
    (hread : u'.st = .reading → x.valid = false) : BufCore (c.set u.b x) (u' :: rest) pins := by
  have hplace := h.place u mem_cons_self
  have hothers := h.others hfree
  -- the other uses that have a lock are of other buffers
  have hne : ∀ v ∈ rest, v.locked → v.b ≠ u.b := by
    intro v hm hvl hvb
    rw [hothers v hm hvb] at hvl
    cases hvl
  refine ⟨h.listed, ?_, ?_, ?_, ?_, ?_, ?_, ?_, ?_⟩
  · intro a a' blk ha ha'
    exact h.unique a a' blk ((Bcache.cached_set hd hn).mp ha) ((Bcache.cached_set hd hn).mp ha')
  · intro v hm
    rw [Bcache.cached_set hd hn]
    rcases mem_cons.mp hm with rfl | hm
    · rw [hb, hk]; exact hplace
    · exact h.place v (mem_cons_of_mem _ hm)
  · intro a ha
    rw [pinCount_set hd hn, countP_cons]
    have := h.refs a ha
    rw [countP_cons] at this
    by_cases hab : a = u.b
    · subst hab; rw [Bcache.set_buf_self, hr, this, hb]
    · rw [Bcache.set_buf_of_ne hab, this, hb]
  · intro a ha
    have := h.locks a ha
    rw [countP_cons] at this ⊢
    by_cases hab : a = u.b
    · subst hab
      have hzero : rest.countP (fun w => w.b = u.b ∧ w.locked) = 0 := by
        rw [countP_eq_zero]
        intro v hm
        simp only [decide_eq_true_eq, not_and]
        intro hvb hvl
        exact hne v hm hvl hvb
      rw [Bcache.set_buf_self, hb, hzero, hl]
      by_cases hu' : u'.locked <;> simp [hu']
    · rw [Bcache.set_buf_of_ne hab, ← this, hb]
      simp [Ne.symm hab]
  · intro v hm hvl
    rcases mem_cons.mp hm with rfl | hm
    · rw [hb, Bcache.set_buf_self, hl, if_pos hvl]
    · rw [Bcache.set_buf_of_ne (hne v hm hvl)]
      exact h.owner v (mem_cons_of_mem _ hm) hvl
  · intro v hm hvh
    rcases mem_cons.mp hm with rfl | hm
    · rw [hb, Bcache.set_buf_self]; exact hheld hvh
    · rw [Bcache.set_buf_of_ne (hne v hm (Use.locked_of_held hvh))]
      exact h.valid v (mem_cons_of_mem _ hm) hvh
  · intro v hm hvr
    rcases mem_cons.mp hm with rfl | hm
    · rw [hb, Bcache.set_buf_self]; exact hread hvr
    · rw [Bcache.set_buf_of_ne (hne v hm (Use.locked_of_reading hvr))]
      exact h.unread v (mem_cons_of_mem _ hm) hvr
  · intro blk hblk
    obtain ⟨a, hc, hval⟩ := h.pinned blk hblk
    refine ⟨a, (Bcache.cached_set hd hn).mpr hc, ?_⟩
    by_cases hab : a = u.b
    · rw [hab, Bcache.set_buf_self]; exact hv (hab ▸ hval)
    · rw [Bcache.set_buf_of_ne hab]; exact hval

section
variable (h : BufCore c hs pins)
include h

theorem BufCore.recount {pins' : List Nat} {n : Nat} (hplace : ∀ v ∈ hs', c.Cached v.b v.blk)
    (hlocks : ∀ a, hs'.countP (fun v => v.b = a ∧ v.locked) = hs.countP (fun v => v.b = a ∧ v.locked))
    (hold : ∀ v ∈ hs', v.locked → v ∈ hs)
    (hrefs : ∀ a < NBUF, a ≠ b → hs'.countP (·.b = a) + pinCount c pins' a = hs.countP (·.b = a) + pinCount c pins a)
    (hn : n = hs'.countP (·.b = b) + pinCount c pins' b)
    (hpins : ∀ blk ∈ pins', ∃ a, c.Cached a blk ∧ (c.buf a).valid) :
    BufCore (c.set b { c.buf b with refcnt := n }) hs' pins' := by
  have hkey : ∀ a k, (c.set b { c.buf b with refcnt := n }).Cached a k ↔ c.Cached a k :=
    fun a k => Bcache.cached_set rfl rfl
  have hlock : ∀ a, ((c.set b { c.buf b with refcnt := n }).buf a).lock = (c.buf a).lock := by
    intro a
    by_cases ha : a = b
    · rw [ha, Bcache.set_buf_self]
    · rw [Bcache.set_buf_of_ne ha]
  have hvalid : ∀ a, ((c.set b { c.buf b with refcnt := n }).buf a).valid = (c.buf a).valid := by
    intro a
    by_cases ha : a = b
    · rw [ha, Bcache.set_buf_self]
    · rw [Bcache.set_buf_of_ne ha]
  refine ⟨h.listed, ?_, ?_, ?_, ?_, ?_, ?_, ?_, ?_⟩
  · intro a a' k ha ha'
    exact h.unique a a' k ((hkey a k).mp ha) ((hkey a' k).mp ha')
  · intro v hv
    exact (hkey _ _).mpr (hplace v hv)
  · intro a ha
    rw [pinCount_set (x := { c.buf b with refcnt := n }) rfl rfl]
    by_cases hab : a = b
    · rw [hab, Bcache.set_buf_self]; exact hn
    · rw [Bcache.set_buf_of_ne hab, hrefs a ha hab]; exact h.refs a ha
  · intro a ha
    rw [hlock, hlocks]; exact h.locks a ha
  · intro v hv hl
    rw [hlock]; exact h.owner v (hold v hv hl) hl
  · intro v hv hh
    rw [hvalid]; exact h.valid v (hold v hv (Use.locked_of_held hh)) hh
  · intro v hv hr
    rw [hvalid]; exact h.unread v (hold v hv (Use.locked_of_reading hr)) hr
  · intro k hk
    obtain ⟨a, hc, hv⟩ := hpins k hk
    exact ⟨a, (hkey a k).mpr hc, (hvalid a).trans hv⟩

theorem BufCore.hit (hc : c.Cached b blk) (i : Nat) :
    BufCore (c.set b { c.buf b with refcnt := (c.buf b).refcnt + 1 }) (⟨i, b, blk, .locking⟩ :: hs) pins := by
  refine h.recount ?_ ?_ ?_ ?_ ?_ h.pinned
  · intro v hv
    rcases mem_cons.mp hv with rfl | hv
    · exact hc
    · exact h.place v hv
  · intro a
    simp [Use.locked, Use.held]
  · intro v hv hl
    rcases mem_cons.mp hv with rfl | hv
    · simp [Use.locked, Use.held] at hl
    · exact hv
  · intro a _ hab
    simp [Ne.symm hab]
  · have := h.refs b hc.1
    rw [countP_cons, if_pos (by simp)]
    omega

theorem BufCore.recycle (hb : b < NBUF) (hno : ∀ a, ¬ c.Cached a blk) (h0 : (c.buf b).refcnt = 0)
    (i : Nat) : BufCore (c.set b { c.buf b with dev := ROOTDEV, blockno := blk, valid := false, refcnt := 1 })
      (⟨i, b, blk, .locking⟩ :: hs) pins := by
  obtain ⟨hfree, hunpinned⟩ := h.free hb h0
  have hblk : blk ∉ pins := by
    intro hm
    obtain ⟨a, ha, -⟩ := h.pinned blk hm
    exact hno a ha
  have hself : hs.countP (·.b = b) = 0 := by
    have := h.refs b hb
    omega
  refine ⟨h.listed, ?_, ?_, ?_, ?_, ?_, ?_, ?_, ?_⟩
  · intro a a' k ha ha'
    unfold Bcache.Cached at ha ha'
    by_cases hab : a = b <;> by_cases hab' : a' = b
    · rw [hab, hab']
    · rw [hab, Bcache.set_buf_self] at ha
      rw [Bcache.set_buf_of_ne hab', ← ha.2.2] at ha'
      exact absurd ha' (hno a')
    · rw [hab', Bcache.set_buf_self] at ha'
      rw [Bcache.set_buf_of_ne hab, ← ha'.2.2] at ha
      exact absurd ha (hno a)
    · rw [Bcache.set_buf_of_ne hab] at ha
      rw [Bcache.set_buf_of_ne hab'] at ha'
      exact h.unique a a' k ha ha'
  · intro v hv
    unfold Bcache.Cached
    rcases mem_cons.mp hv with rfl | hv
    · rw [Bcache.set_buf_self]; exact ⟨hb, rfl, rfl⟩
    · rw [Bcache.set_buf_of_ne (hfree v hv)]; exact h.place v hv
  · intro a ha
    rw [countP_cons]
    unfold pinCount
    by_cases hab : a = b
    · subst hab
      rw [Bcache.set_buf_self, hself, if_pos (by simp), if_neg (fun hm => hblk hm.2)]
    · rw [Bcache.set_buf_of_ne hab, h.refs a ha, if_neg (by simp [Ne.symm hab])]
      rfl
  · intro a ha
    rw [countP_cons, if_neg (by simp [Use.locked, Use.held]), Nat.add_zero, h.locks a ha]
    by_cases hab : a = b
    · rw [hab, Bcache.set_buf_self]
    · rw [Bcache.set_buf_of_ne hab]
  · intro v hv hl
    rcases mem_cons.mp hv with rfl | hv
    · simp [Use.locked, Use.held] at hl
    · rw [Bcache.set_buf_of_ne (hfree v hv)]; exact h.owner v hv hl
  · intro v hv hh
    rcases mem_cons.mp hv with rfl | hv
    · simp [Use.held] at hh
    · rw [Bcache.set_buf_of_ne (hfree v hv)]; exact h.valid v hv hh
  · intro v hv hr
    rcases mem_cons.mp hv with rfl | hv
    · rw [Bcache.set_buf_self]
    · rw [Bcache.set_buf_of_ne (hfree v hv)]; exact h.unread v hv hr
  · intro k hk
    obtain ⟨a, hc, hv⟩ := h.pinned k hk
    have hab : a ≠ b := fun he => hunpinned k hk (he ▸ hc)
    refine ⟨a, ?_, ?_⟩
    · unfold Bcache.Cached; rw [Bcache.set_buf_of_ne hab]; exact hc
    · rw [Bcache.set_buf_of_ne hab]; exact hv

theorem BufCore.relink (hl : Bcache.Listed { c with links := k }) :
    BufCore { c with links := k } hs pins :=
  ⟨hl, h.unique, h.place, h.refs, h.locks, h.owner, h.valid, h.unread, h.pinned⟩

end

theorem BufCore.drop (h : BufCore c (u :: rest) pins) (hst : u.locked = false) : BufCore (c.drop u.b) rest pins := by
  have hb := (h.place u mem_cons_self).1
  have hc : BufCore (c.set u.b { c.buf u.b with refcnt := (c.buf u.b).refcnt - 1 }) rest pins := by
    refine h.recount (fun v hv => h.place v (mem_cons_of_mem _ hv)) ?_
      (fun v hv _ => mem_cons_of_mem _ hv) ?_ ?_ h.pinned
    · intro a
      rw [countP_cons, if_neg (by simp [hst]), Nat.add_zero]
    · intro a _ hab
      rw [countP_cons, if_neg (by simp [Ne.symm hab]), Nat.add_zero]
    · have := h.refs u.b hb
      rw [countP_cons, if_pos (by simp)] at this
      omega
  unfold Bcache.drop
  dsimp only
  split
  · exact hc.relink (hc.listed.moveFront hb)
  · exact hc

theorem BufCore.bpin (h : BufCore c hs pins) (hu : u ∈ hs) (hh : u.held) (hn : u.blk ∉ pins) :
    BufCore (c.bpin u.b) hs (pins ++ [u.blk]) := by
  have hp := h.place u hu
  refine h.recount h.place (fun _ => rfl) (fun _ hv _ => hv) ?_ ?_ ?_
  · intro a ha hab
    have hne : ¬ ((c.buf a).dev = ROOTDEV ∧ (c.buf a).blockno = u.blk) :=
      fun hk => hab (h.unique a u.b u.blk ⟨ha, hk⟩ hp)
    unfold pinCount
    simp only [mem_append, mem_singleton]
    congr 1
    exact if_congr (by tauto) rfl rfl
  · have := h.refs u.b hp.1
    have h0 : pinCount c pins u.b = 0 := if_neg fun hk => hn (hp.2.2 ▸ hk.2)
    have h1 : pinCount c (pins ++ [u.blk]) u.b = 1 :=
      if_pos ⟨hp.2.1, by rw [hp.2.2]; exact mem_append_right _ mem_cons_self⟩
    omega
  · intro k hk
    rcases mem_append.mp hk with hk | hk
    · exact h.pinned k hk
    · rw [mem_singleton.mp hk]
      exact ⟨u.b, hp, h.valid u hu hh⟩

theorem BufCore.bunpin (h : BufCore c hs (blk :: pins)) (hu : u ∈ hs) (hk : u.blk = blk) (hn : blk ∉ pins) :
    BufCore (c.bunpin u.b) hs pins := by
  subst hk
  have hp := h.place u hu
  refine h.recount h.place (fun _ => rfl) (fun _ hv _ => hv) ?_ ?_ fun k hk => h.pinned k (mem_cons_of_mem _ hk)
  · intro a ha hab
    have hne : ¬ ((c.buf a).dev = ROOTDEV ∧ (c.buf a).blockno = u.blk) :=
      fun hk => hab (h.unique a u.b u.blk ⟨ha, hk⟩ hp)
    unfold pinCount
    simp only [mem_cons]
    congr 1
    exact if_congr (by tauto) rfl rfl
  · have := h.refs u.b hp.1
    have h0 : pinCount c pins u.b = 0 := if_neg fun hk => hn (hp.2.2 ▸ hk.2)
    have h1 : pinCount c (u.blk :: pins) u.b = 1 := if_pos ⟨hp.2.1, by rw [hp.2.2]; exact mem_cons_self⟩
    omega

end Xv6
