import Xv6.VirtioInv

/-!
# Descriptors, rings and completions of the disk driver

Each step of the driver and of the device keeps the invariant, and so in every
state the chains are disjoint, the free descriptors and the chains make up the
queue, no entry of the avail ring is lost, and who has returned was served.
-/

namespace Xv6

open Hoare Function
open List (mem_append mem_append_left mem_append_right mem_cons mem_cons_of_mem mem_cons_self mem_singleton
  nodup_cons nodup_nil)

variable {rest : List Nat} {t : Nat}

section
variable {d d' : DiskData} {p q i b : Nat} {a : RwArgs} {c : Triple}

/-! ## Steps of the driver on the data -/

section
variable (hd : QueueOk d)
include hd

theorem QueueOk.live_frame
    (hu : ∀ q, (∃ h ∈ d.rings.heads, d.owner h = some q) → Untouched q d d') :
    ∀ h ∈ d.rings.heads, ∃ p a c, c.idx0 = h ∧ Flies d' p a c := by
  intro h hh
  obtain ⟨p, a, c, hc, hf⟩ := hd.live h hh
  have ho := hf.own c.idx0 (mem_cons_self ..)
  exact ⟨p, a, c, hc, hf.congr (hu p ⟨h, hh, hc ▸ ho⟩)⟩

def Resting (p : Nat) (d : DiskData) : Prop := ∀ i, d.owner i = some p → i ∉ d.rings.heads

theorem QueueOk.live_idle (hq : Resting p d) (hu : ∀ q, q ≠ p → Untouched q d d') :
    ∀ h ∈ d.rings.heads, ∃ p a c, c.idx0 = h ∧ Flies d' p a c :=
  hd.live_frame fun q ⟨h, hh, ho⟩ => hu q fun e => hq h (e ▸ ho) hh

theorem QueueOk.bget (hb : d.lock b = none) :
    QueueOk { d with lock := update d.lock b (some p) } ∧
      ∀ q, Untouched q d { d with lock := update d.lock b (some p) } := by
  have hlock : ∀ {b' q}, d.lock b' = some q → update d.lock b (some p) b' = some q := by
    intro b' q h
    have hne : b' ≠ b := fun e => by rw [e, hb] at h; cases h
    rwa [update_of_ne hne]
  have hu : ∀ q, Untouched q d { d with lock := update d.lock b (some p) } := fun q =>
    ⟨fun _ => Iff.rfl, fun _ _ => ⟨rfl, rfl, rfl⟩, fun _ h => hlock h, fun _ => id, fun _ _ => id, fun _ _ _ _ => id⟩
  refine ⟨⟨hd.rings, hd.live_frame fun q _ => hu q, hd.busy, hd.status, hd.owner, hd.free, fun h b' hb' => ?_, hd.inj⟩, hu⟩
  obtain ⟨ho, hl⟩ := hd.info h b' hb'
  refine ⟨ho, ?_⟩
  obtain ⟨q, hq⟩ := Option.ne_none_iff_exists'.mp ho
  exact (hlock (hl.trans hq)).trans hq.symm

theorem QueueOk.brelse (hb : d.lock b = some p) (hown : ∀ i, d.owner i ≠ some p) :
    QueueOk { d with lock := update d.lock b none } ∧
      ∀ q, q ≠ p → Untouched q d { d with lock := update d.lock b none } := by
  have hlock : ∀ {b' q}, q ≠ p → d.lock b' = some q → update d.lock b none b' = some q := by
    intro b' q hq h
    have hne : b' ≠ b := fun e => by rw [e, hb] at h; exact hq (Option.some.inj h).symm
    rwa [update_of_ne hne]
  have hu : ∀ q, q ≠ p → Untouched q d { d with lock := update d.lock b none } := fun q hq =>
    ⟨fun _ => Iff.rfl, fun _ _ => ⟨rfl, rfl, rfl⟩, fun _ h => hlock hq h, fun _ => id, fun _ _ => id, fun _ _ _ _ => id⟩
  refine ⟨⟨hd.rings, hd.live_idle (fun i hi => absurd hi (hown i)) hu, hd.busy, hd.status, hd.owner, hd.free,
    fun h b' hb' => ?_, hd.inj⟩, hu⟩
  obtain ⟨ho, hl⟩ := hd.info h b' hb'
  obtain ⟨q, hq⟩ := Option.ne_none_iff_exists'.mp ho
  have hqp : q ≠ p := fun e => hown h (e ▸ hq)
  exact ⟨ho, (hlock hqp (hl.trans hq)).trans hq.symm⟩

theorem QueueOk.grab (hi : i < NUM) (hf : d.free i) (hq : Resting p d) :
    QueueOk (d.grab p i) ∧ ∀ q, q ≠ p → Untouched q d (d.grab p i) := by
  have hnone : d.owner i = none := (hd.free i hi).mp hf
  have hu : ∀ q, q ≠ p → Untouched q d (d.grab p i) := by
    intro q hqp
    refine ⟨fun j => ?_, fun _ _ => ⟨rfl, rfl, rfl⟩, fun _ => id, fun _ => id, fun _ _ => id, fun _ _ _ _ => id⟩
    change update d.owner i (some p) j = some q ↔ _
    by_cases hj : j = i
    · rw [hj, update_self, hnone]
      exact ⟨fun e => absurd (Option.some.inj e).symm hqp, nofun⟩
    · rw [update_of_ne hj]
  refine ⟨⟨hd.rings, hd.live_idle hq hu, hd.busy, hd.status, fun j r hj => ?_, fun j hj => ?_, fun h b hb => ?_, hd.inj⟩, hu⟩
  · change update d.owner i (some p) j = some r at hj
    by_cases hji : j = i
    · exact hji ▸ hi
    · rw [update_of_ne hji] at hj
      exact hd.owner j r hj
  · change update d.free i false j ↔ update d.owner i (some p) j = none
    by_cases hji : j = i
    · rw [hji, update_self, update_self]
      exact ⟨nofun, nofun⟩
    · rw [update_of_ne hji, update_of_ne hji]
      exact hd.free j hj
  · change update d.owner i (some p) h ≠ none ∧ d.lock b = update d.owner i (some p) h
    have hne : h ≠ i := fun e => (hd.info h b hb).1 (e ▸ hnone)
    rw [update_of_ne hne]
    exact hd.info h b hb

theorem QueueOk.drop (hi : d.owner i = some p) (hb : d.info_b i = none) (hq : Resting p d) :
    QueueOk (d.drop i) ∧ ∀ q, q ≠ p → Untouched q d (d.drop i) := by
  have hu : ∀ q, q ≠ p → Untouched q d (d.drop i) := by
    intro q hqp
    refine ⟨fun j => ?_, fun j hj => ⟨?_, rfl, rfl⟩, fun _ => id, fun _ => id, fun _ _ => id, fun _ _ _ _ => id⟩
    · change update d.owner i none j = some q ↔ _
      by_cases hj : j = i
      · rw [hj, update_self, hi]
        exact ⟨nofun, fun e => absurd (Option.some.inj e).symm hqp⟩
      · rw [update_of_ne hj]
    · have hne : j ≠ i := fun e => by rw [e, hi] at hj; exact hqp (Option.some.inj hj).symm
      exact update_of_ne hne ..
  refine ⟨⟨hd.rings, hd.live_idle hq hu, hd.busy, hd.status, fun j r hj => ?_, fun j hj => ?_, fun h b' hb' => ?_,
    hd.inj⟩, hu⟩
  · change update d.owner i none j = some r at hj
    by_cases hji : j = i
    · rw [hji, update_self] at hj
      cases hj
    · rw [update_of_ne hji] at hj
      exact hd.owner j r hj
  · change update d.free i true j ↔ update d.owner i none j = none
    by_cases hji : j = i
    · rw [hji, update_self, update_self]
      exact ⟨fun _ => rfl, fun _ => rfl⟩
    · rw [update_of_ne hji, update_of_ne hji]
      exact hd.free j hj
  · change update d.owner i none h ≠ none ∧ d.lock b' = update d.owner i none h
    change d.info_b h = some b' at hb'
    have hne : h ≠ i := fun e => by rw [e, hb] at hb'; cases hb'
    rw [update_of_ne hne]
    exact hd.info h b' hb'

end

theorem update_owned {α : Type} {f : Nat → α} (hi : d.owner i = some p) (x : α) (j : Nat) (hj : d.owner j ≠ some p) :
    update f i x j = f j :=
  update_of_ne (fun e : j = i => hj (by rw [e]; exact hi)) ..

theorem QueueOk.write (hd : QueueOk d) (hq : Resting p d) {desc : Nat → VirtqDesc} {ops : Nat → BlkReq} {status : Nat → Nat}
    (hdesc : ∀ i, d.owner i ≠ some p → desc i = d.desc i) (hops : ∀ i, d.owner i ≠ some p → ops i = d.ops i)
    (hst : ∀ i, d.owner i ≠ some p → status i = d.info_status i) :
    QueueOk { d with desc := desc, ops := ops, info_status := status } ∧
      ∀ q, q ≠ p → Untouched q d { d with desc := desc, ops := ops, info_status := status } := by
  have hne : ∀ {q j}, q ≠ p → d.owner j = some q → d.owner j ≠ some p := by
    intro q j hqp hj e
    rw [hj] at e
    exact hqp (Option.some.inj e)
  have hu : ∀ q, q ≠ p → Untouched q d { d with desc := desc, ops := ops, info_status := status } := fun q hqp =>
    ⟨fun _ => Iff.rfl, fun j hj => ⟨hdesc j (hne hqp hj), hops j (hne hqp hj), rfl⟩, fun _ => id, fun _ => id,
      fun _ _ => id, fun _ _ _ _ => id⟩
  refine ⟨⟨hd.rings, hd.live_idle hq hu, hd.busy, fun h hh => ?_, hd.owner, hd.free, hd.info, hd.inj⟩, hu⟩
  exact (hst h fun e => hq h e (Rings.mem_heads.mpr (.inr hh))).trans (hd.status h hh)

theorem QueueOk.record (hd : QueueOk d) (hi : d.owner i = some p) (hb : d.lock b = some p) (hq : Resting p d)
    (hblank : ∀ j, d.owner j = some p → d.info_b j = none) :
    QueueOk { d with disk := update d.disk b true, info_b := update d.info_b i (some b) } ∧
      ∀ q, q ≠ p → Untouched q d
        { d with disk := update d.disk b true, info_b := update d.info_b i (some b) } := by
  have hu : ∀ q, q ≠ p → Untouched q d
      { d with disk := update d.disk b true, info_b := update d.info_b i (some b) } := fun q hqp =>
    ⟨fun _ => Iff.rfl, fun j hj => ⟨rfl, rfl, update_owned hi _ j (by rw [hj]; exact fun e => hqp (Option.some.inj e))⟩,
      fun _ => id, fun _ => id, fun _ _ => id, fun _ _ _ _ => id⟩
  -- no other descriptor names the buffer: whoever holds it would be the holder of the buffer's lock
  have hnew : ∀ h, d.info_b h ≠ some b := by
    intro h e
    obtain ⟨-, hl⟩ := hd.info h b e
    rw [hblank h (hl.symm.trans hb)] at e
    cases e
  have hcase : ∀ {h b'}, update d.info_b i (some b) h = some b' →
      h = i ∧ b' = b ∨ h ≠ i ∧ d.info_b h = some b' := by
    intro h b' e
    by_cases hh : h = i
    · rw [hh, update_self] at e
      exact .inl ⟨hh, (Option.some.inj e).symm⟩
    · rw [update_of_ne hh] at e
      exact .inr ⟨hh, e⟩
  refine ⟨⟨hd.rings, hd.live_idle hq hu, fun h hh b' e => ?_, hd.status, hd.owner, hd.free, fun h b' e => ?_,
    fun h h' b' e e' => ?_⟩, hu⟩
  · change update d.disk b true b'
    rcases hcase e with ⟨-, rfl⟩ | ⟨-, e⟩
    · exact update_self ..
    · by_cases hbb : b' = b
      · exact absurd (hbb ▸ e) (hnew h)
      · rw [update_of_ne hbb]
        exact hd.busy h hh b' e
  · rcases hcase e with ⟨rfl, rfl⟩ | ⟨-, e⟩
    · change d.owner h ≠ none ∧ d.lock b' = d.owner h
      rw [hi, hb]
      exact ⟨nofun, rfl⟩
    · exact hd.info h b' e
  · rcases hcase e with ⟨rfl, rfl⟩ | ⟨-, h1⟩
    · rcases hcase e' with ⟨rfl, -⟩ | ⟨-, h2⟩
      · rfl
      · exact absurd h2 (hnew h')
    · rcases hcase e' with ⟨-, rfl⟩ | ⟨-, h2⟩
      · exact absurd h1 (hnew h)
      · exact hd.inj h h' b' h1 h2

theorem QueueOk.clear (hd : QueueOk d) (hi : d.owner i = some p) (hq : Resting p d) :
    QueueOk { d with info_b := update d.info_b i none } ∧
      ∀ q, q ≠ p → Untouched q d { d with info_b := update d.info_b i none } := by
  have hu : ∀ q, q ≠ p → Untouched q d { d with info_b := update d.info_b i none } := fun q hqp =>
    ⟨fun _ => Iff.rfl, fun j hj => ⟨rfl, rfl, update_owned hi _ j (by rw [hj]; exact fun e => hqp (Option.some.inj e))⟩,
      fun _ => id, fun _ => id, fun _ _ => id, fun _ _ _ _ => id⟩
  have hold : ∀ {h b'}, update d.info_b i none h = some b' → d.info_b h = some b' := by
    intro h b' e
    by_cases hh : h = i
    · rw [hh, update_self] at e
      cases e
    · rwa [update_of_ne hh] at e
  exact ⟨⟨hd.rings, hd.live_idle hq hu, fun h hh b' e => hd.busy h hh b' (hold e), hd.status, hd.owner, hd.free,
    fun h b' e => hd.info h b' (hold e), fun h h' b' e e' => hd.inj h h' b' (hold e) (hold e')⟩, hu⟩

theorem untouched_rings
    (hsub : ∀ h, h ∈ r.heads → d.owner h = some q → h ∈ d.rings.heads) (hfin : ∀ x ∈ d.fin, x ∈ fin)
    (hpr : ∀ a c t, Flies d q a c → Underway d c.idx0 t a.transfer →
      Underway { d with rings := r, info_status := st, fin := fin } c.idx0 t a.transfer) :
    Untouched q d { d with rings := r, info_status := st, fin := fin } :=
  ⟨fun _ => Iff.rfl, fun _ _ => ⟨rfl, rfl, rfl⟩, fun _ => id, hfin, fun i hi hn hm => hn (hsub i hm hi), hpr⟩

theorem QueueOk.put (hd : QueueOk d) (hi : d.owner i = some p) (hq : Resting p d) :
    QueueOk { d with rings := d.rings.put i } ∧ ∀ q, Untouched q d { d with rings := d.rings.put i } := by
  have hu : ∀ q, Untouched q d { d with rings := d.rings.put i } := fun q =>
    untouched_rings (fun _ hm _ => hm) (fun _ => id) fun _ _ _ _ => id
  exact ⟨⟨hd.rings.put (hq i hi) (hd.owner i p hi), hd.live_frame fun q _ => hu q, hd.busy, hd.status, hd.owner, hd.free,
    hd.info, hd.inj⟩, hu⟩

theorem QueueOk.submit (hd : QueueOk d) (hf : Flies d p a c) (hq : Resting p d) (hb : d.disk a.b)
    (hw : d.rings.avail_ring (d.rings.avail_idx % NUM) = c.idx0) :
    QueueOk { d with rings := d.rings.submit c.idx0 } ∧
      ∀ q, q ≠ p → Untouched q d { d with rings := d.rings.submit c.idx0 } := by
  have hi := hf.own c.idx0 (mem_cons_self ..)
  have hmem : ∀ {h}, h ∈ (d.rings.submit c.idx0).heads → h ∈ d.rings.heads ∨ h = c.idx0 := by
    intro h hm
    rcases Rings.mem_heads.mp hm with hm | hm
    · exact ((Rings.mem_submit hd.rings.took).mp hm).imp_left fun e => Rings.mem_heads.mpr (.inl e)
    · exact .inl (Rings.mem_heads.mpr (.inr hm))
  have hu : ∀ q, q ≠ p → Untouched q d { d with rings := d.rings.submit c.idx0 } := by
    intro q hqp
    refine untouched_rings (fun h hm ho => (hmem hm).resolve_right fun e => ?_) (fun _ => id) fun a' c' t _ hpr => ?_
    · rw [e, hi] at ho
      exact hqp (Option.some.inj ho).symm
    · refine hpr.imp_left fun ⟨ht, hs⟩ => ⟨ht, ?_⟩
      exact (List.getElem?_append_left (Rings.lt_of_getElem? hs)).trans hs
  have hlive := hd.live_idle hq hu
  have hnew : Flies { d with rings := d.rings.submit c.idx0 } p a c :=
    ⟨hf.own, ⟨hf.formatted.op, hf.formatted.desc0, hf.formatted.desc1, hf.formatted.desc2⟩, hf.info⟩
  refine ⟨⟨hd.rings.submit (hq _ hi) (hd.owner _ p hi) hw, fun h hm => ?_, fun h hm b' e => ?_, hd.status, hd.owner, hd.free,
    hd.info, hd.inj⟩, hu⟩
  · rcases hmem hm with hm | rfl
    · exact hlive h hm
    · exact ⟨p, a, c, rfl, hnew⟩
  · rcases (Rings.mem_submit hd.rings.took).mp hm with hm | rfl
    · exact hd.busy h hm b' e
    · rw [show b' = a.b from (Option.some.inj (hf.info.symm.trans e)).symm]
      exact hb

theorem QueueOk.intrGet (hd : QueueOk d) (hc : d.calm) (hlt : d.rings.acks < d.rings.published.length) :
    ∃ h b, d.rings.used_ring (d.rings.used_idx % NUM) = h ∧ d.info_status h = 0 ∧ d.info_b h = some b ∧
      QueueOk { d with disk := update d.disk b false } ∧
      ({ d with rings := d.rings.ack, disk := update d.disk b false } : DiskData).calm ∧
      ∀ q, Untouched q d { d with disk := update d.disk b false } := by
  obtain ⟨hw, hfin⟩ := hd.rings.ack_eq hlt
  have hmem : d.rings.published[d.rings.acks] ∈ d.rings.finished := by
    rw [hfin]
    exact mem_append_right _ (mem_cons_self ..)
  obtain ⟨r, a, c, hhead, hf⟩ := hd.live _ (Rings.mem_heads.mpr (.inr hmem))
  have hinfo : d.info_b d.rings.published[d.rings.acks] = some a.b := hhead ▸ hf.info
  have hu : ∀ q, Untouched q d { d with disk := update d.disk a.b false } := fun q =>
    ⟨fun _ => Iff.rfl, fun _ _ => ⟨rfl, rfl, rfl⟩, fun _ => id, fun _ => id, fun _ _ => id, fun _ _ _ _ => id⟩
  have hnd : (d.rings.unfinished ++ d.rings.finished).Nodup := hd.rings.nodup
  -- no other head in the rings has this buffer
  have hother : ∀ h b', d.info_b h = some b' → h ≠ d.rings.published[d.rings.acks] → d.disk b' →
      update d.disk a.b false b' := by
    intro h b' e hne hb'
    have hbb : b' ≠ a.b := fun hb => hne (hd.inj _ _ a.b (hb ▸ e) hinfo)
    rwa [update_of_ne hbb]
  refine ⟨_, a.b, hw, hd.status _ hmem, hinfo, ⟨hd.rings, hd.live_frame fun q _ => hu q, fun h hh b' e => ?_, hd.status,
    hd.owner, hd.free, hd.info, hd.inj⟩, fun h hh b' e => ?_, hu⟩
  · refine hother h b' e (fun heq => ?_) (hd.busy h hh b' e)
    exact (List.disjoint_of_nodup_append hnd) hh (heq ▸ hmem)
  · have hrest : h ∈ d.rings.publishing.toList ++ d.rings.ack.published.drop d.rings.ack.acks := hh
    have hnd' := (List.nodup_append.mp hnd).2.1
    rw [hfin] at hnd'
    have hne : h ≠ d.rings.published[d.rings.acks] := by
      rintro rfl
      exact (List.nodup_middle.mp hnd' |> nodup_cons.mp).1 hrest
    refine hother h b' e hne (hc h ?_ b' e)
    rw [hfin]
    rcases mem_append.mp hrest with hm | hm
    · exact mem_append_left _ hm
    · exact mem_append_right _ (mem_cons_of_mem _ hm)

theorem QueueOk.ack (hd : QueueOk d) (hlt : d.rings.acks < d.rings.published.length) :
    QueueOk { d with rings := d.rings.ack } ∧ ∀ q, Untouched q d { d with rings := d.rings.ack } := by
  have hfin : ∀ h, h ∈ d.rings.ack.finished → h ∈ d.rings.finished := by
    intro h hm
    rw [(hd.rings.ack_eq hlt).2]
    rcases mem_append.mp hm with hm | hm
    · exact mem_append_left _ hm
    · exact mem_append_right _ (mem_cons_of_mem _ hm)
  have hheads : ∀ h, h ∈ d.rings.ack.heads → h ∈ d.rings.heads := fun h hm =>
    Rings.mem_heads.mpr ((Rings.mem_heads.mp hm).imp id (hfin h))
  have hu : ∀ q, Untouched q d { d with rings := d.rings.ack } := fun q =>
    untouched_rings (fun h hm _ => hheads h hm) (fun _ => id) fun _ _ _ _ => id
  have hlive := hd.live_frame fun q _ => hu q
  exact ⟨⟨hd.rings.ack hlt, fun h hm => hlive h (hheads h hm), hd.busy, fun h hm => hd.status h (hfin h hm), hd.owner,
    hd.free, hd.info, hd.inj⟩, hu⟩

/-! ## Steps of the device -/

theorem QueueOk.take (hd : QueueOk d) : QueueOk { d with rings := d.rings.take } ∧
    (∀ q, Untouched q d { d with rings := d.rings.take }) ∧ Aside d { d with rings := d.rings.take } := by
  have hun : ∀ h, h ∈ d.rings.take.unfinished ↔ h ∈ d.rings.unfinished := fun h => hd.rings.unfinished_take.mem_iff
  have hfin := Rings.finished_take d.rings
  have hheads : ∀ h, h ∈ d.rings.take.heads ↔ h ∈ d.rings.heads := fun h => by
    rw [Rings.mem_heads, Rings.mem_heads, hun, hfin]
  have hu : ∀ q, Untouched q d { d with rings := d.rings.take } := by
    intro q
    refine untouched_rings (fun h hm _ => (hheads h).mp hm) (fun _ => id) fun a c t _ hpr => ?_
    unfold Underway Rings.take
    split
    · exact hpr
    · rename_i hne
      obtain ⟨h, hs, hw, -⟩ := hd.rings.take_eq hne
      rcases hpr with ⟨ht, hs'⟩ | hpr | hpr
      · rcases Nat.lt_or_eq_of_le ht with hlt | heq
        · exact .inl ⟨hlt, hs'⟩
        · rw [← heq, hs] at hs'
          refine .inr (.inl (mem_append_right _ ?_))
          rw [hw, Option.some.inj hs', heq]
          exact List.mem_singleton_self _
      · exact .inr (.inl (mem_append_left _ hpr))
      · exact .inr (.inr hpr)
  have hlive := hd.live_frame fun q _ => hu q
  refine ⟨⟨hd.rings.take, fun h hm => hlive h ((hheads h).mp hm), fun h hm => hd.busy h ((hun h).mp hm),
    fun h hm => hd.status h (hfin ▸ hm), hd.owner, hd.free, hd.info, hd.inj⟩, hu, ?_⟩
  unfold Rings.take
  split
  · exact Aside.refl d
  · exact ⟨rfl, rfl, rfl, id, id, fun _ => id⟩

theorem QueueOk.publish (hd : QueueOk d) : QueueOk { d with rings := d.rings.publish } ∧
    (∀ q, Untouched q d { d with rings := d.rings.publish }) ∧ Aside d { d with rings := d.rings.publish } := by
  have hun := Rings.unfinished_publish d.rings
  have hfin : ∀ h, h ∈ d.rings.publish.finished ↔ h ∈ d.rings.finished := fun h => (Rings.perm_publish hd.rings).mem_iff
  have hheads : ∀ h, h ∈ d.rings.publish.heads ↔ h ∈ d.rings.heads := fun h => by
    rw [Rings.mem_heads, Rings.mem_heads, hun, hfin]
  have hu : ∀ q, Untouched q d { d with rings := d.rings.publish } := by
    intro q
    refine untouched_rings (fun h hm _ => (hheads h).mp hm) (fun _ => id) fun a c t _ hpr => ?_
    unfold Underway Rings.publish
    split <;> exact hpr
  have hlive := hd.live_frame fun q _ => hu q
  refine ⟨⟨hd.rings.publish, fun h hm => hlive h ((hheads h).mp hm), fun h hm => hd.busy h (hun ▸ hm),
    fun h hm => hd.status h ((hfin h).mp hm), hd.owner, hd.free, hd.info, hd.inj⟩, hu, ?_⟩
  cases hp : d.rings.publishing with
  | none =>
    simp only [Rings.publish, hp]
    exact Aside.refl d
  | some h =>
    have hcalm : d.calm → ({ d with rings := d.rings.publish } : DiskData).calm := fun hc x hx => hc x ((hfin x).mp hx)
    simp only [Rings.publish, hp] at hcalm ⊢
    refine ⟨rfl, rfl, rfl, fun hlt => ?_, hcalm, fun hlt hc x hx => hc x ?_⟩
    · rw [List.length_append]
      exact Nat.lt_add_right _ hlt
    · change x ∈ (d.rings.published ++ [h]).drop (d.rings.acks + 1) at hx
      rw [List.drop_append_of_le_length hlt] at hx
      change x ∈ d.rings.publishing.toList ++ d.rings.published.drop (d.rings.acks + 1)
      rw [hp]
      rcases mem_append.mp hx with hx | hx
      · exact mem_append_right _ hx
      · exact mem_append_left _ hx

theorem Formatted.transfer (h : Formatted d a c) : d.transfer c.idx0 = some (a.transfer, c.idx0) := by
  unfold DiskData.transfer VirtqDesc.has
  simp only [h.desc0, h.desc1, h.desc2, h.op]
  unfold RwArgs.transfer RwArgs.type
  cases a.write <;> rfl

theorem QueueOk.devDo (hd : QueueOk d) (j : Nat) :
    QueueOk (d.devDo j) ∧ (∀ q, Untouched q d (d.devDo j)) ∧ Aside d (d.devDo j) := by
  have hnop : QueueOk d ∧ (∀ q, Untouched q d d) ∧ Aside d d := ⟨hd, fun q => Untouched.refl q d, Aside.refl d⟩
  unfold DiskData.devDo
  split
  · rename_i h t hp hj
    obtain ⟨hlt, hget⟩ := List.getElem?_eq_some_iff.mp hj
    have htaken : h ∈ d.rings.taken.map Prod.fst := List.mem_map.mpr ⟨(h, t), hget ▸ List.getElem_mem hlt, rfl⟩
    have hun : h ∈ d.rings.unfinished := mem_append_right _ htaken
    obtain ⟨r, a, c, rfl, hf⟩ := hd.live h (Rings.mem_heads.mpr (.inl hun))
    rw [hf.formatted.transfer]
    have hperm := Rings.perm_finish hp hj
    have hsub : ∀ x, x ∈ (d.rings.finish j c.idx0).unfinished → x ∈ d.rings.unfinished := by
      intro x hx
      rcases mem_append.mp hx with hx | hx
      · exact mem_append_left _ hx
      · exact mem_append_right _ (((List.eraseIdx_sublist _ _).map Prod.fst).subset hx)
    have hfin : ∀ x, x ∈ (d.rings.finish j c.idx0).finished → x = c.idx0 ∨ x ∈ d.rings.finished := by
      intro x hx
      rcases mem_cons.mp hx with hx | hx
      · exact .inl hx
      · exact .inr (mem_append_right _ hx)
    have hu : ∀ q, Untouched q d { d with
        rings := d.rings.finish j c.idx0
        info_status := update d.info_status c.idx0 0
        fin := d.fin ++ [(t, a.transfer)] } := by
      intro q
      refine untouched_rings (fun x hm _ => hperm.mem_iff.mp hm) (fun x hx => mem_append_left _ hx)
        fun a' c' t' hf' hpr => ?_
      rcases hpr with hpr | hpr | hpr
      · exact .inl hpr
      · have hcons := (List.getElem_cons_eraseIdx_perm hlt).mem_iff.mpr hpr
        rw [hget] at hcons
        rcases mem_cons.mp hcons with e | hmem
        · -- this is the chain just served, and the device read it as its owner wrote it
          obtain ⟨hh, ht⟩ := Prod.mk.inj e
          have htr := hf'.formatted.transfer
          rw [hh, hf.formatted.transfer] at htr
          refine .inr (.inr (mem_append_right _ ?_))
          rw [ht, ← (Prod.mk.inj (Option.some.inj htr)).1]
          exact List.mem_singleton_self _
        · exact .inr (.inl hmem)
      · exact .inr (.inr (mem_append_left _ hpr))
    have hlive := hd.live_frame fun q _ => hu q
    refine ⟨⟨Rings.Ok.finish hp hj hd.rings, fun x hm => hlive x (hperm.mem_iff.mp hm), fun x hm => hd.busy x (hsub x hm),
      fun x hm => ?_, hd.owner, hd.free, hd.info, hd.inj⟩, hu, rfl, rfl, rfl, id, fun hc x hm b' e => ?_,
      fun _ hc x hm b' e => ?_⟩
    · by_cases hx : x = c.idx0
      · rw [hx]
        exact update_self ..
      · exact (update_of_ne hx ..).trans (hd.status x ((hfin x hm).resolve_left hx))
    · rcases hfin x hm with rfl | hm
      · exact hd.busy _ hun b' e
      · exact hc x hm b' e
    · rcases mem_cons.mp hm with rfl | hm
      · exact hd.busy _ hun b' e
      · exact hc x (mem_append_right _ hm) b' e
  · exact hnop

/-! ## Every step -/

structure DiskStep (p : Nat) (k : DiskPc) (d : DiskData) (r : DiskData × DiskPc) : Prop where
  locked : r.2.locked ↔ k.locked
  ok : QueueOk r.1
  here : DiskHere p r.2 r.1
  others : ∀ q, q ≠ p → Untouched q d r.1
  aside : ¬ k.locked → Aside d r.1

section
variable {l : List Nat} {i : Nat}

theorem OffRings.idle (h : OffRings l d) (ho : ∀ i, d.owner i = some p ↔ i ∈ l) : Resting p d :=
  fun i hi => h i ((ho i).mp hi)

theorem grab_owner (ho : ∀ j, d.owner j = some p ↔ j ∈ l) (j : Nat) :
    (d.grab p i).owner j = some p ↔ j ∈ l ++ [i] := by
  change update d.owner i (some p) j = some p ↔ _
  rw [mem_append, mem_singleton]
  by_cases hj : j = i
  · rw [hj, update_self]
    exact ⟨fun _ => .inr rfl, fun _ => rfl⟩
  · rw [update_of_ne hj, ho j]
    exact ⟨.inl, fun h => h.resolve_right hj⟩

theorem drop_owner (ho : ∀ j, d.owner j = some p ↔ j ∈ i :: l) (hn : (i :: l).Nodup) (j : Nat) :
    (d.drop i).owner j = some p ↔ j ∈ l := by
  change update d.owner i none j = some p ↔ _
  by_cases hj : j = i
  · rw [hj, update_self]
    exact ⟨nofun, fun h => absurd h (nodup_cons.mp hn).1⟩
  · rw [update_of_ne hj, ho j, mem_cons]
    exact ⟨fun h => h.resolve_left hj, .inr⟩

theorem QueueOk.free_desc (hd : QueueOk d) (hi : d.owner i = some p) (k : DiskPc) : d.free_desc i k = (d.drop i, k) := by
  have hlt : ¬ NUM ≤ i := not_le.mpr (hd.owner i p hi)
  have hf : ¬ d.free i := fun e => by
    rw [(hd.free i (hd.owner i p hi)).mp e] at hi
    cases hi
  rw [DiskData.free_desc, if_neg hlt, if_neg hf]

end

theorem step_bget (hd : QueueOk d) (h : DiskHere p (.bget a) d) : DiskStep p (.bget a) d
    (if d.lock a.b = none then ({ d with lock := update d.lock a.b (some p) }, .start a) else (d, .bget a)) := by
  split
  · rename_i hn
    obtain ⟨hok, hu⟩ := hd.bget (p := p) hn
    refine ⟨Iff.rfl, hok, ⟨h.own, nodup_nil, fun b hb => ?_, nofun, trivial⟩, fun q _ => hu q,
      fun _ => ⟨rfl, rfl, rfl, id, id, fun _ => id⟩⟩
    cases hb
    exact update_self ..
  · exact ⟨Iff.rfl, hd, h, fun q _ => Untouched.refl q d, fun _ => Aside.refl d⟩

theorem undone_here (h : DiskHere p (.undoWake a idx) d) :
    (undone a idx).locked ∧ DiskHere p (undone a idx) d := by
  obtain ⟨hq, hb⟩ := h.knows
  cases idx with
  | nil => exact ⟨trivial, h.own, h.nodup, h.lock, h.calm, trivial⟩
  | cons i rest => exact ⟨trivial, h.own, h.nodup, h.lock, h.calm, hq, hb⟩

theorem step_alloc (hd : QueueOk d) (h : DiskHere p (.alloc a idx) d) : DiskStep p (.alloc a idx) d
    (match d.alloc_desc with
      | none => (d, undone a idx)
      | some i => (d.grab p i, allocated a idx i)) := by
  obtain ⟨hq, hb, hlen⟩ := h.knows
  split
  · have hpre : DiskHere p (.undoWake a idx) d := ⟨h.own, h.nodup, h.lock, h.calm, hq, hb⟩
    obtain ⟨hl, hh⟩ := undone_here hpre
    exact ⟨⟨fun _ => trivial, fun _ => hl⟩, hd, hh, fun q _ => Untouched.refl q d, fun hn => absurd trivial hn⟩
  · rename_i i hi
    have hlt : i < NUM := List.mem_range.mp (List.mem_of_find?_eq_some hi)
    have hf : d.free i := List.find?_some hi
    have hnone : d.owner i = none := (hd.free i hlt).mp hf
    obtain ⟨hok, hu⟩ := hd.grab hlt hf (hq.idle h.own)
    have hown := grab_owner (i := i) h.own
    have hnd : (idx ++ [i]).Nodup := by
      refine List.nodup_append.mpr ⟨h.nodup, List.nodup_singleton i, fun x hx y hy e => ?_⟩
      rw [mem_singleton.mp hy] at e
      have := (h.own x).mpr hx
      rw [e, hnone] at this
      cases this
    have hquiet : OffRings (idx ++ [i]) (d.grab p i) := by
      intro x hx
      rcases mem_append.mp hx with hx | hx
      · exact hq x hx
      · rw [mem_singleton.mp hx]
        intro hm
        obtain ⟨r, a', c, hc, hfl⟩ := hd.live i hm
        have := hfl.own c.idx0 (mem_cons_self ..)
        rw [hc, hnone] at this
        cases this
    have hblank : Blank (idx ++ [i]) (d.grab p i) := by
      intro x hx
      rcases mem_append.mp hx with hx | hx
      · exact hb x hx
      · rw [mem_singleton.mp hx]
        by_contra hne
        obtain ⟨b, hb'⟩ := Option.ne_none_iff_exists'.mp hne
        exact (hd.info i b hb').1 hnone
    match idx, hlen, h, hown, hnd, hquiet, hblank with
    | [], _, h, hown, hnd, hquiet, hblank =>
      exact ⟨Iff.rfl, hok, ⟨hown, hnd, h.lock, h.calm, hquiet, hblank, (by decide : 1 < 3)⟩, hu, fun hn => absurd trivial hn⟩
    | [x], _, h, hown, hnd, hquiet, hblank =>
      exact ⟨Iff.rfl, hok, ⟨hown, hnd, h.lock, h.calm, hquiet, hblank, (by decide : 2 < 3)⟩, hu, fun hn => absurd trivial hn⟩
    | [x, y], _, h, hown, hnd, hquiet, hblank =>
      exact ⟨Iff.rfl, hok, ⟨hown, hnd, h.lock, h.calm, hquiet, hblank⟩, hu, fun hn => absurd trivial hn⟩

theorem step_undo (hd : QueueOk d) (h : DiskHere p (.undo a i rest) d) :
    DiskStep p (.undo a i rest) d (d.free_desc i (.undoWake a rest)) := by
  obtain ⟨hq, hb⟩ := h.knows
  have hi : d.owner i = some p := (h.own i).mpr (mem_cons_self ..)
  obtain ⟨hok, hu⟩ := hd.drop hi (hb i (mem_cons_self ..)) (hq.idle h.own)
  rw [hd.free_desc hi]
  exact ⟨Iff.rfl, hok, ⟨drop_owner h.own h.nodup, (nodup_cons.mp h.nodup).2, h.lock, h.calm,
    fun x hx => hq x (mem_cons_of_mem i hx), fun x hx => hb x (mem_cons_of_mem i hx)⟩, hu, fun hn => absurd trivial hn⟩

theorem step_freeDesc (hd : QueueOk d) (h : DiskHere p (.freeDesc a t i rest) d) :
    DiskStep p (.freeDesc a t i rest) d (d.free_desc i (.freeWake a t (d.desc i).flags (d.desc i).next rest)) := by
  obtain ⟨hq, hb, hl, hfin⟩ := h.knows
  have hi : d.owner i = some p := (h.own i).mpr (mem_cons_self ..)
  obtain ⟨hok, hu⟩ := hd.drop hi (hb i (mem_cons_self ..)) (hq.idle h.own)
  have hnd := nodup_cons.mp h.nodup
  rw [hd.free_desc hi]
  have hlink : Linked (d.drop i) rest ∧ ((d.desc i).flags &&& VRING_DESC_F_NEXT ≠ 0 → rest = (d.desc i).next :: rest.tail) ∧
      ((d.desc i).flags &&& VRING_DESC_F_NEXT = 0 → rest = []) := by
    cases rest with
    | nil => exact ⟨trivial, fun e => absurd hl e, fun _ => rfl⟩
    | cons j rest =>
      obtain ⟨hf, hn, hl⟩ := hl
      refine ⟨hl.congr fun x hx => ?_, fun _ => by rw [hn]; rfl, fun e => absurd e hf⟩
      have hne : x ≠ i := fun e => hnd.1 (e ▸ hx)
      exact update_of_ne hne ..
  exact ⟨Iff.rfl, hok, ⟨drop_owner h.own h.nodup, hnd.2, h.lock, h.calm, fun x hx => hq x (mem_cons_of_mem i hx),
    fun x hx => hb x (mem_cons_of_mem i hx), hlink.1, hfin, hlink.2⟩, hu, fun hn => absurd trivial hn⟩

theorem owner_idx (ho : ∀ i ∈ c.list, d.owner i = some p) : d.owner c.idx0 = some p ∧ d.owner c.idx1 = some p ∧
    d.owner c.idx2 = some p :=
  ⟨ho _ (mem_cons_self ..), ho _ (mem_cons_of_mem _ (mem_cons_self ..)),
    ho _ (mem_cons_of_mem _ (mem_cons_of_mem _ (mem_cons_self ..)))⟩

theorem nodup_idx (hnd : c.list.Nodup) : c.idx0 ≠ c.idx1 ∧ c.idx0 ≠ c.idx2 ∧ c.idx1 ≠ c.idx2 := by
  simp only [Triple.list, nodup_cons, mem_cons, List.not_mem_nil, or_false, not_or, nodup_nil, and_true,
    not_false_eq_true] at hnd
  exact ⟨hnd.1.1, hnd.1.2, hnd.2⟩

section
variable (hd : QueueOk d)
include hd

theorem step_format0 (h : DiskHere p (.format0 a c) d) : DiskStep p (.format0 a c) d
    ({ d.setDesc c.idx0 ⟨.op c.idx0, 16, VRING_DESC_F_NEXT, c.idx1⟩ with
        ops := update d.ops c.idx0 ⟨a.type, 0, a.sector⟩ }, .format1 a c) := by
  obtain ⟨hq, hb⟩ := h.knows
  obtain ⟨h0, -, -⟩ := owner_idx fun i hi => (h.own i).mpr hi
  obtain ⟨hok, hu⟩ := hd.write (hq.idle h.own) (update_owned (f := d.desc) h0 ⟨.op c.idx0, 16, VRING_DESC_F_NEXT, c.idx1⟩)
    (update_owned (f := d.ops) h0 ⟨a.type, 0, a.sector⟩) fun _ _ => rfl
  exact ⟨Iff.rfl, hok, ⟨h.own, h.nodup, h.lock, h.calm, hq, hb, update_self .., update_self ..⟩, hu,
    fun hn => absurd trivial hn⟩

theorem step_format1 (h : DiskHere p (.format1 a c) d) : DiskStep p (.format1 a c) d
    (d.setDesc c.idx1 ⟨.data a.b, 1024, (if a.write then 0 else VRING_DESC_F_WRITE) ||| VRING_DESC_F_NEXT, c.idx2⟩,
      .format2 a c) := by
  obtain ⟨hq, hb, hop, hd0⟩ := h.knows
  obtain ⟨-, h1, -⟩ := owner_idx fun i hi => (h.own i).mpr hi
  obtain ⟨hok, hu⟩ := hd.write (hq.idle h.own) (update_owned (f := d.desc) h1
    ⟨.data a.b, 1024, (if a.write then 0 else VRING_DESC_F_WRITE) ||| VRING_DESC_F_NEXT, c.idx2⟩) (fun _ _ => rfl)
      fun _ _ => rfl
  have hne := (nodup_idx h.nodup).1
  exact ⟨Iff.rfl, hok, ⟨h.own, h.nodup, h.lock, h.calm, hq, hb, hop, (update_of_ne hne ..).trans hd0,
    update_self ..⟩, hu, fun hn => absurd trivial hn⟩

theorem step_format2 (h : DiskHere p (.format2 a c) d) : DiskStep p (.format2 a c) d
    ({ d.setDesc c.idx2 ⟨.status c.idx0, 1, VRING_DESC_F_WRITE, 0⟩ with
        info_status := update d.info_status c.idx0 0xff }, .record a c) := by
  obtain ⟨hq, hb, hop, hd0, hd1⟩ := h.knows
  obtain ⟨h0, -, h2⟩ := owner_idx fun i hi => (h.own i).mpr hi
  obtain ⟨hok, hu⟩ := hd.write (hq.idle h.own) (update_owned (f := d.desc) h2 ⟨.status c.idx0, 1, VRING_DESC_F_WRITE, 0⟩)
    (fun _ _ => rfl) (update_owned (f := d.info_status) h0 0xff)
  obtain ⟨-, hne0, hne1⟩ := nodup_idx h.nodup
  exact ⟨Iff.rfl, hok, ⟨h.own, h.nodup, h.lock, h.calm, hq, hb, hop, (update_of_ne hne0 ..).trans hd0,
    (update_of_ne hne1 ..).trans hd1, update_self ..⟩, hu, fun hn => absurd trivial hn⟩

theorem step_record (h : DiskHere p (.record a c) d) : DiskStep p (.record a c) d
    ({ d with disk := update d.disk a.b true, info_b := update d.info_b c.idx0 (some a.b) }, .ring a c) := by
  obtain ⟨hq, hb, hf⟩ := h.knows
  have ho : ∀ i ∈ c.list, d.owner i = some p := fun i hi => (h.own i).mpr hi
  obtain ⟨h0, -, -⟩ := owner_idx ho
  obtain ⟨hne1, hne2, -⟩ := nodup_idx h.nodup
  obtain ⟨hok, hu⟩ := hd.record h0 (h.lock a.b rfl) (hq.idle h.own) fun j hj => hb j ((h.own j).mp hj)
  refine ⟨Iff.rfl, hok, ⟨h.own, h.nodup, h.lock, fun _ x hx b' e => ?_, hq, fun i hi => ?_,
    ⟨ho, ⟨hf.op, hf.desc0, hf.desc1, hf.desc2⟩, update_self ..⟩, update_self ..⟩, hu,
    fun hn => absurd trivial hn⟩
  · change update d.disk a.b true b'
    have hx0 : x ≠ c.idx0 := fun e => hq c.idx0 (mem_cons_self ..) (e ▸ Rings.mem_heads.mpr (.inr hx))
    change update d.info_b c.idx0 (some a.b) x = some b' at e
    rw [update_of_ne hx0] at e
    by_cases hbb : b' = a.b
    · rw [hbb, update_self]
    · rw [update_of_ne hbb]
      exact h.calm trivial x hx b' e
  · have hi0 : i ≠ c.idx0 := by
      rcases mem_cons.mp hi with rfl | hi
      · exact Ne.symm hne1
      · rw [mem_singleton.mp hi]
        exact Ne.symm hne2
    exact (update_of_ne hi0 ..).trans (hb i (mem_cons_of_mem _ hi))

theorem step_ring (h : DiskHere p (.ring a c) d) :
    DiskStep p (.ring a c) d ({ d with rings := d.rings.put c.idx0 }, .submit a c) := by
  obtain ⟨hq, hb, hf, hdisk⟩ := h.knows
  obtain ⟨hok, hu⟩ := hd.put (hf.own c.idx0 (mem_cons_self ..)) (hq.idle h.own)
  exact ⟨Iff.rfl, hok, ⟨h.own, h.nodup, h.lock, h.calm, hq, hb,
    ⟨hf.own, ⟨hf.formatted.op, hf.formatted.desc0, hf.formatted.desc1, hf.formatted.desc2⟩, hf.info⟩, hdisk,
    update_self ..⟩, fun q _ => hu q, fun hn => absurd trivial hn⟩

theorem step_submit (h : DiskHere p (.submit a c) d) :
    DiskStep p (.submit a c) d ({ d with rings := d.rings.submit c.idx0 }, .waiting a c d.rings.subs.length) := by
  obtain ⟨hq, hb, hf, hdisk, hw⟩ := h.knows
  obtain ⟨hok, hu⟩ := hd.submit hf (hq.idle h.own) hdisk hw
  obtain ⟨hne1, hne2, -⟩ := nodup_idx h.nodup
  refine ⟨Iff.rfl, hok, ⟨h.own, h.nodup, h.lock, h.calm, fun i hi hm => ?_, hb,
    ⟨hf.own, ⟨hf.formatted.op, hf.formatted.desc0, hf.formatted.desc1, hf.formatted.desc2⟩, hf.info⟩,
    .inl ⟨hd.rings.took, List.getElem?_concat_length ..⟩⟩, hu, fun hn => absurd trivial hn⟩
  have hi0 : i ≠ c.idx0 := by
    rcases mem_cons.mp hi with rfl | hi
    · exact Ne.symm hne1
    · rw [mem_singleton.mp hi]
      exact Ne.symm hne2
  refine hq i (mem_cons_of_mem _ hi) (Rings.mem_heads.mpr ?_)
  rcases Rings.mem_heads.mp hm with hm | hm
  · exact .inl (((Rings.mem_submit hd.rings.took).mp hm).resolve_right hi0)
  · exact .inr hm

theorem step_waiting (h : DiskHere p (.waiting a c t) d) : DiskStep p (.waiting a c t) d
    (d, if d.disk a.b then .doze a c t else .clear a c t) := by
  obtain ⟨hq, hb, hf, hpr⟩ := h.knows
  split
  · exact ⟨Iff.rfl, hd, ⟨h.own, h.nodup, h.lock, h.calm, hq, hb, hf, hpr⟩, fun q _ => Untouched.refl q d,
      fun _ => Aside.refl d⟩
  · rename_i hn
    have hun : c.idx0 ∉ d.rings.unfinished := fun hm => hn (hd.busy _ hm _ hf.info)
    have hfi : c.idx0 ∉ d.rings.finished := fun hm => hn (h.calm trivial _ hm _ hf.info)
    have hfin : (t, a.transfer) ∈ d.fin := by
      rcases hpr with ⟨ht, hs⟩ | hm | hm
      · refine absurd (mem_append_left _ ?_) hun
        obtain ⟨hlt, hget⟩ := List.getElem?_eq_some_iff.mp hs
        exact hget ▸ List.mem_drop_iff_getElem.mpr ⟨t - d.rings.took, by omega, by
          congr 1
          omega⟩
      · exact absurd (mem_append_right _ (List.mem_map.mpr ⟨_, hm, rfl⟩)) hun
      · exact hm
    refine ⟨Iff.rfl, hd, ⟨h.own, h.nodup, h.lock, h.calm, fun i hi => ?_, hb, hf, hfin⟩, fun q _ => Untouched.refl q d,
      fun _ => Aside.refl d⟩
    rcases mem_cons.mp hi with rfl | hi
    · exact fun hm => (Rings.mem_heads.mp hm).elim hun hfi
    · exact hq i hi

theorem step_clear (h : DiskHere p (.clear a c t) d) : DiskStep p (.clear a c t) d
    ({ d with info_b := update d.info_b c.idx0 none }, .freeDesc a t c.idx0 [c.idx1, c.idx2]) := by
  obtain ⟨hq, hb, hf, hfin⟩ := h.knows
  obtain ⟨hok, hu⟩ := hd.clear (hf.own c.idx0 (mem_cons_self ..)) (hq.idle h.own)
  refine ⟨Iff.rfl, hok, ⟨h.own, h.nodup, h.lock, fun _ x hx b' e => ?_, hq, fun i hi => ?_, ?_, hfin⟩, hu,
    fun hn => absurd trivial hn⟩
  · change update d.info_b c.idx0 none x = some b' at e
    by_cases hx0 : x = c.idx0
    · rw [hx0, update_self] at e
      cases e
    · rw [update_of_ne hx0] at e
      exact h.calm trivial x hx b' e
  · by_cases hi0 : i = c.idx0
    · rw [hi0]
      exact update_self ..
    · exact (update_of_ne hi0 ..).trans (hb i ((mem_cons.mp hi).resolve_left hi0))
  · change (d.desc c.idx0).flags &&& _ ≠ 0 ∧ (d.desc c.idx0).next = c.idx1 ∧ (d.desc c.idx1).flags &&& _ ≠ 0 ∧
      (d.desc c.idx1).next = c.idx2 ∧ (d.desc c.idx2).flags &&& _ = 0
    rw [hf.formatted.desc0, hf.formatted.desc1, hf.formatted.desc2]
    refine ⟨(by decide : 1 &&& 1 ≠ 0), rfl, ?_, rfl, (by decide : 2 &&& 1 = 0)⟩
    cases a.write
    · exact (by decide : (2 ||| 1) &&& 1 ≠ 0)
    · exact (by decide : (0 ||| 1) &&& 1 ≠ 0)

theorem step_brelse (h : DiskHere p (.brelse a t) d) : DiskStep p (.brelse a t) d
    ({ d with lock := update d.lock a.b none }, .out (some (t, a.transfer))) := by
  have hown : ∀ i, d.owner i ≠ some p := fun i e => List.not_mem_nil ((h.own i).mp e)
  obtain ⟨hok, hu⟩ := hd.brelse (h.lock a.b rfl) hown
  exact ⟨Iff.rfl, hok, ⟨h.own, nodup_nil, nofun, nofun, h.knows⟩, hu,
    fun _ => ⟨rfl, rfl, rfl, id, id, fun _ => id⟩⟩

theorem step_intrLoop (h : DiskHere p .intrLoop d) : DiskStep p .intrLoop d
    (d, if d.rings.used_idx ≠ d.rings.used_ring_idx then .intrGet else .intrDone) := by
  split
  · rename_i hne
    have hlt : d.rings.acks < d.rings.published.length := by
      refine lt_of_le_of_ne hd.rings.acks fun e => hne ?_
      rw [hd.rings.used_idx, hd.rings.used_ring_idx, e]
    exact ⟨Iff.rfl, hd, ⟨h.own, nodup_nil, nofun, h.calm, hlt⟩, fun q _ => Untouched.refl q d, fun _ => Aside.refl d⟩
  · exact ⟨Iff.rfl, hd, ⟨h.own, nodup_nil, nofun, h.calm, trivial⟩, fun q _ => Untouched.refl q d,
      fun _ => Aside.refl d⟩

theorem step_intrNext (h : DiskHere p .intrNext d) :
    DiskStep p .intrNext d ({ d with rings := d.rings.ack }, .intrLoop) := by
  obtain ⟨hlt, hcalm⟩ := h.knows
  obtain ⟨hok, hu⟩ := hd.ack hlt
  exact ⟨Iff.rfl, hok, ⟨h.own, nodup_nil, nofun, fun _ => hcalm, trivial⟩, fun q _ => hu q, fun hn => absurd trivial hn⟩

end

theorem step_device (hl : ¬ k.locked) (hk : k.held = []) (h : DiskHere p k d) (ho : d'.owner = d.owner)
    (hs : QueueOk d' ∧ (∀ q, Untouched q d d') ∧ Aside d d') : DiskStep p k d (d', .out none) := by
  refine ⟨⟨False.elim, hl⟩, hs.1, ⟨fun i => ?_, nodup_nil, nofun, nofun, trivial⟩, fun q _ => hs.2.1 q, fun _ => hs.2.2⟩
  have := h.own i
  rw [hk] at this
  rw [ho]
  exact this

theorem step_intrGet (hd : QueueOk d) (h : DiskHere p .intrGet d) : DiskStep p .intrGet d
    (if d.info_status (d.rings.used_ring (d.rings.used_idx % NUM)) ≠ 0 then (d, .panicked .status)
      else match d.info_b (d.rings.used_ring (d.rings.used_idx % NUM)) with
        | none => (d, .panicked .null)
        | some b => ({ d with disk := update d.disk b false }, .intrWake b)) := by
  obtain ⟨x, b, hx, hst, hb, hok, hcalm, hu⟩ := hd.intrGet (h.calm trivial) h.knows
  rw [hx, if_neg (not_not.mpr hst), hb]
  exact ⟨Iff.rfl, hok, ⟨h.own, nodup_nil, (fun _ hn => by cases hn), False.elim, h.knows, hcalm⟩, fun q _ => hu q,
    fun hn => absurd trivial hn⟩

theorem disk_act (hk : diskCode k = .act f) (hd : QueueOk d)
    (h : DiskHere p k d) : DiskStep p k d (f p d) := by
  cases k <;> cases hk
  case bget => exact step_bget hd h
  case alloc => exact step_alloc hd h
  case undo => exact step_undo hd h
  case format0 => exact step_format0 hd h
  case format1 => exact step_format1 hd h
  case format2 => exact step_format2 hd h
  case record => exact step_record hd h
  case ring => exact step_ring hd h
  case submit => exact step_submit hd h
  case waiting => exact step_waiting hd h
  case clear => exact step_clear hd h
  case freeDesc => exact step_freeDesc hd h
  case brelse => exact step_brelse hd h
  case intrLoop => exact step_intrLoop hd h
  case intrGet => exact step_intrGet hd h
  case intrNext => exact step_intrNext hd h
  case devTake => exact step_device id rfl h rfl hd.take
  case devDo j =>
    refine step_device id rfl h ?_ (hd.devDo j)
    unfold DiskData.devDo
    split
    · split <;> rfl
    · rfl
  case devPublish => exact step_device id rfl h rfl hd.publish
  case panicked => exact h.knows.elim

end

/-- Nothing is asked of who sleeps. -/
def diskMarks : Monitor.Marks DiskData DiskPc DiskChan :=
  ⟨DiskPc.locked, QueueOk, DiskData.calm, DiskHere, fun _ => False, fun _ _ => False, fun _ _ => False, fun _ _ => False,
    fun _ => False, fun _ _ => True⟩

theorem freeWake_here {flag nxt : Nat}
    (h : DiskHere p (.freeWake a t flag nxt rest) d) :
    DiskHere p (if flag &&& VRING_DESC_F_NEXT ≠ 0 then .freeDesc a t nxt rest.tail else .unlock a t) d := by
  obtain ⟨hq, hb, hl, hfin, hnext, hlast⟩ := h.knows
  split
  · rename_i hf
    have e := hnext hf
    rw [e] at hq hb hl
    exact ⟨fun i => by rw [h.own i]; exact e ▸ Iff.rfl, e ▸ h.nodup, h.lock, h.calm, hq, hb, hl, hfin⟩
  · rename_i hf
    have e := hlast (not_not.mp hf)
    exact ⟨fun i => by rw [h.own i]; exact e ▸ Iff.rfl, nodup_nil, h.lock, h.calm, hfin⟩

theorem disk_rules : Monitor.Rules diskMarks diskCode DiskPc.isCall where
  idle k hk := by
    cases k <;> cases hk
    exact ⟨id, fun _ => id, fun _ => id⟩
  start k k' hk hs := by
    cases k <;> cases hk
    cases k' <;> cases hs <;> exact ⟨id, fun p d _ h => ⟨h.own, nodup_nil, nofun, nofun, trivial⟩, fun _ => id⟩
  acquire k k' hk := by
    cases k <;> cases hk
    case start a =>
      exact ⟨trivial, fun p d hf h => ⟨h.own, nodup_nil, h.lock, fun _ => hf, nofun, nofun, by decide⟩, fun _ => id,
        fun _ => id⟩
    case dozed a c t =>
      exact ⟨trivial, fun p d hf h => ⟨h.own, h.nodup, h.lock, fun _ => hf, h.knows⟩, fun _ => id, fun _ => id⟩
    case intr => exact ⟨trivial, fun p d hf h => ⟨h.own, nodup_nil, nofun, fun _ => hf, trivial⟩, fun _ => id, fun _ => id⟩
  release k k' hk := by
    cases k <;> cases hk <;> refine ⟨trivial, id, fun p d h => ⟨h.calm trivial, ?_⟩, fun _ => id, fun _ => id⟩
    case unlock a t => exact ⟨h.own, nodup_nil, h.lock, nofun, h.knows⟩
    case intrDone => exact ⟨h.own, nodup_nil, nofun, nofun, trivial⟩
  sleep k c k' hk := by
    cases k <;> cases hk <;> refine ⟨trivial, id, fun p d h => ⟨h.calm trivial, ?_⟩, id, fun _ => id, fun _ => id⟩
    case wait a => exact ⟨h.own, nodup_nil, h.lock, nofun, trivial⟩
    case doze a c t => exact ⟨h.own, h.nodup, h.lock, nofun, h.knows⟩
  killed k f hk := by cases k <;> cases hk
  wakeup k c k' hk := by
    cases k <;> cases hk
    case undoWake a rest =>
      refine ⟨trivial, ?_, fun p d h => (undone_here h).2, fun _ => id, fun _ => False.elim⟩
      cases rest <;> trivial
    case freeWake a t flag nxt rest =>
      refine ⟨trivial, ?_, fun p d h => freeWake_here h, fun _ => id, fun _ => False.elim⟩
      split <;> trivial
    case intrWake b =>
      exact ⟨trivial, trivial, fun p d h => ⟨h.own, nodup_nil, nofun, nofun, h.knows⟩, fun _ => id, fun _ => False.elim⟩
  act k f hk p d hd h := by
    have hs := disk_act hk hd h
    exact ⟨hs.locked, hs.ok, hs.here, fun _ => False.elim, fun _ e => e.elim id fun e => e.2 trivial⟩
  outside k f hk hl p d hd h := ((disk_act hk hd h).aside hl).calm
  other k f hk p q k' d hq hd h h' hl := by
    have hs := disk_act hk hd h
    exact h'.other (hs.others q hq) fun hkl' => hs.aside fun hkl => hl ⟨hkl, hkl'⟩
  sleepy_locked _ _ := False.elim

/-! ## Every run -/

theorem queueOk_init : QueueOk DiskData.init :=
  ⟨Rings.ok_init, nofun, nofun, nofun, nofun, fun _ hi => ⟨fun _ => rfl, fun _ => decide_eq_true hi⟩, nofun, nofun⟩

theorem disk_boot : Monitor.Inv diskMarks diskCode n diskBoot := by
  refine Monitor.inv_boot disk_rules rfl queueOk_init nofun fun p => ?_
  exact ⟨fun _ => ⟨nofun, nofun⟩, nodup_nil, nofun, nofun, trivial⟩

def DiskSys.at (s : DiskSys) (p : Nat) : DiskPc := (s.proc p).ctl.cont

def DiskPc.chain : DiskPc → Option Triple
  | format0 _ c | format1 _ c | format2 _ c | record _ c | ring _ c | submit _ c => some c
  | waiting _ c _ | doze _ c _ | dozed _ c _ | clear _ c _ => some c
  | _ => none

def DiskPc.inFlight : DiskPc → Option (RwArgs × Triple)
  | waiting a c _ | doze a c _ | dozed a c _ => some (a, c)
  | _ => none

def DiskPc.result : DiskPc → Option (Nat × Transfer)
  | out r => r
  | _ => none

structure Disciplined (n : Nat) (s : DiskSys) : Prop where
  /-- A request in flight is a chain of three descriptors of the queue, none of them free. -/
  chains : ∀ p a c, (s.at p).inFlight = some (a, c) →
    c.list.Nodup ∧ (∀ i ∈ c.list, i < NUM ∧ s.data.free i = false) ∧ Formatted s.data a c
  apart : ∀ p q i, i ∈ (s.at p).held → i ∈ (s.at q).held → p = q
  total : ((Finset.range NUM).filter fun i => s.data.free i = true).card + ∑ p ∈ Finset.range n, (s.at p).held.length = NUM
  count : s.holder = none → ((Finset.range NUM).filter fun i => s.data.free i = true).card +
    3 * ((Finset.range n).filter fun p => (s.at p).chain.isSome).card = NUM
  calm : ∀ p m, s.at p ≠ .panicked m
  /-- An entry of the avail ring that the device has not taken is as it was submitted. -/
  ring : s.data.rings.avail_idx = s.data.rings.subs.length % 2 ^ 16 ∧ s.data.rings.last = s.data.rings.took % 2 ^ 16 ∧
    ∀ m h, s.data.rings.took ≤ m → s.data.rings.subs[m]? = some h → s.data.rings.avail_ring (m % NUM) = h
  /-- The next write does not go to such an entry. -/
  room : ∀ p a c, s.at p = .ring a c → ∀ m, s.data.rings.took ≤ m → m < s.data.rings.subs.length →
    m % NUM ≠ s.data.rings.avail_idx % NUM
  /-- Who has returned was served: the device made the transfer it asked for, under the number of its submission. -/
  served : ∀ p t x, (s.at p).result = some (t, x) → (t, x) ∈ s.data.fin

section
variable {n : Nat} {s : DiskSys} (h : Monitor.Inv diskMarks diskCode n s)
include h

theorem held_lt (hi : i ∈ (s.at p).held) : i < NUM := h.glob.owner i p (((h.here p).own i).mpr hi)

theorem card_held (p : Nat) : ((Finset.range NUM).filter fun i => s.data.owner i = some p).card = (s.at p).held.length := by
  have hnd : (s.at p).held.Nodup := (h.here p).nodup
  rw [← List.toFinset_card_of_nodup hnd]
  congr 1
  ext i
  rw [Finset.mem_filter, Finset.mem_range, List.mem_toFinset, (h.here p).own i]
  exact ⟨fun e => e.2, fun e => ⟨held_lt h e, e⟩⟩

theorem card_free : ((Finset.range NUM).filter fun i => s.data.owner i = none).card =
    ((Finset.range NUM).filter fun i => s.data.free i).card := by
  congr 1
  refine Finset.filter_congr fun i hi => ?_
  exact (h.glob.free i (Finset.mem_range.mp hi)).symm

theorem card_total (hn : ∀ p, n ≤ p → (s.at p).held = []) :
    ((Finset.range NUM).filter fun i => s.data.free i).card + ∑ p ∈ Finset.range n, (s.at p).held.length = NUM := by
  have hmap : ∀ i ∈ Finset.range NUM, s.data.owner i ∈ Finset.insertNone (Finset.range n) := by
    intro i _
    cases ho : s.data.owner i with
    | none => exact Finset.none_mem_insertNone
    | some p =>
      refine Finset.some_mem_insertNone.mpr (Finset.mem_range.mpr ?_)
      by_contra hlt
      have := ((h.here p).own i).mp ho
      rw [show DiskPc.held (s.proc p).ctl.cont = [] from hn p (Nat.le_of_not_lt hlt)] at this
      cases this
  have hcard := Finset.card_eq_sum_card_fiberwise hmap
  rw [Finset.card_range, Finset.sum_insertNone, card_free h, Finset.sum_congr rfl fun p _ => card_held h p] at hcard
  exact hcard.symm

theorem length_held (hl : s.holder = none) (p : Nat) : (s.at p).held.length = if (s.at p).chain.isSome then 3 else 0 := by
  have hnl : ¬ (s.at p).locked := fun hk => by
    have := (h.lock p).mpr hk
    rw [hl] at this
    cases this
  cases hk : s.at p <;> rw [hk] at hnl <;> first | rfl | exact absurd trivial hnl

theorem card_count (hn : ∀ p, n ≤ p → (s.at p).held = []) (hl : s.holder = none) :
    ((Finset.range NUM).filter fun i => s.data.free i).card +
      3 * ((Finset.range n).filter fun p => (s.at p).chain.isSome).card = NUM := by
  have hsum : ∑ p ∈ Finset.range n, (s.at p).held.length =
      3 * ((Finset.range n).filter fun p => (s.at p).chain.isSome).card := by
    rw [Finset.sum_congr rfl fun p _ => length_held h hl p, ← Finset.sum_filter, Finset.sum_const, smul_eq_mul, mul_comm]
  rw [← hsum]
  exact card_total h hn

theorem in_flight (e : (s.at p).inFlight = some (a, c)) :
    (s.at p).held = c.list ∧ Formatted s.data a c := by
  have hk := (h.here p).knows
  change (s.at p).knows p s.data at hk
  cases hp : s.at p <;> rw [hp] at e hk <;> cases e <;> exact ⟨rfl, hk.2.2.1.formatted⟩

theorem ring_room (e : s.at p = .ring a c) (m : Nat) (ht : s.data.rings.took ≤ m)
    (hm : m < s.data.rings.subs.length) : m % NUM ≠ s.data.rings.avail_idx % NUM := by
  have hk := (h.here p).knows
  change (s.at p).knows p s.data at hk
  rw [e] at hk
  have hi : c.idx0 ∈ c.list := mem_cons_self ..
  have hroom := h.glob.rings.length_lt (hk.1 c.idx0 hi) (h.glob.owner _ p (hk.2.2.1.own c.idx0 hi))
  rw [Rings.length_unfinished] at hroom
  rw [h.glob.rings.avail_idx, Rings.wrap_mod]
  lia

end

/-- The disk driver keeps its discipline: any number of callers and interrupts, and a device that takes, serves and
publishes requests in any order and at any time. -/
theorem virtio_sound (n : Nat) (tr : List (DiskEvent × DiskSys)) (s : DiskSys)
    (ht : Trace (diskRun n) (fun _ _ => True) diskBoot tr s) : Disciplined n s := by
  have h : Monitor.Inv diskMarks diskCode n s :=
    disk_boot.trace disk_rules (ht.mono fun e s _ => .of_quits (fun _ => id) e s)
  have hn : ∀ p, n ≤ p → (s.at p).held = [] := by
    intro p hp
    unfold DiskSys.at
    rw [Monitor.ctl_outside ht hp]
    rfl
  refine ⟨fun p a c e => ?_, fun p q i hi hj => ?_, card_total h hn, card_count h hn, fun p m e => ?_,
    ⟨h.glob.rings.avail_idx, h.glob.rings.last, h.glob.rings.ring⟩, fun p a c e => ring_room h e, fun p t x e => ?_⟩
  · obtain ⟨hheld, hf⟩ := in_flight h e
    refine ⟨hheld ▸ (h.here p).nodup, fun i hi => ?_, hf⟩
    have ho := ((h.here p).own i).mpr (show i ∈ (s.at p).held from hheld ▸ hi)
    have hlt := h.glob.owner i p ho
    refine ⟨hlt, ?_⟩
    cases hfree : s.data.free i with
    | false => rfl
    | true =>
      rw [(h.glob.free i hlt).mp hfree] at ho
      cases ho
  · have hp := ((h.here p).own i).mpr hi
    rw [((h.here q).own i).mpr hj] at hp
    exact (Option.some.inj hp).symm
  · have hk := (h.here p).knows
    change (s.at p).knows p s.data at hk
    rw [e] at hk
    exact hk
  · have hk := (h.here p).knows
    change (s.at p).knows p s.data at hk
    cases hp : s.at p <;> rw [hp] at e hk <;> cases e
    exact hk

theorem virtio_sound_read : ∃ tr s, Trace (diskRun 2) (fun _ _ => True) diskBoot tr s ∧
    (s.at 0).result = some (0, ⟨.IN, 14, 3⟩) ∧ Disciplined 2 s := by
  have hrun : (runs (diskRun 2) (fun _ _ => True)
      (.enter 0 (.bget ⟨3, 7, false⟩) :: List.replicate 13 (.step 0) ++
        [.enter 1 .devTake, .step 1, .enter 1 (.devDo 0), .step 1, .enter 1 .devPublish, .step 1] ++
        .enter 1 .intr :: List.replicate 12 (.step 1) ++ List.replicate 20 (.step 0)) diskBoot).any
        (fun s => (s.at 0).result == some (0, ⟨.IN, 14, 3⟩)) = true := by decide +kernel
  obtain ⟨tr, s, htr, hs⟩ := Trace.of_any hrun
  exact ⟨tr, s, htr, eq_of_beq hs, virtio_sound 2 tr s htr⟩

end Xv6
