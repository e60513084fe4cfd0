import Xv6.Virtio

/-!
# The invariant of the disk driver

Every descriptor that is not free is held by one process. The heads that were
submitted and whose completion the driver has not counted yet are different
from each other, so there is always room for one more in both rings. What
each process knows at each point, and what a step has to leave alone so that
the others still know it.
-/

namespace Xv6

open Hoare Function List

/-! ## The rings -/

namespace Rings

def unfinished (r : Rings) : List Nat := r.subs.drop r.took ++ r.taken.map Prod.fst

def finished (r : Rings) : List Nat := r.publishing.toList ++ r.published.drop r.acks

def heads (r : Rings) : List Nat := r.unfinished ++ r.finished

structure Ok (r : Rings) : Prop where
  avail_idx : r.avail_idx = r.subs.length % 2 ^ 16
  last : r.last = r.took % 2 ^ 16
  took : r.took ≤ r.subs.length
  ring : ∀ n h, r.took ≤ n → r.subs[n]? = some h → r.avail_ring (n % NUM) = h
  used_ring_idx : r.used_ring_idx = r.published.length % 2 ^ 16
  used_idx : r.used_idx = r.acks % 2 ^ 16
  acks : r.acks ≤ r.published.length
  used : ∀ n h, r.acks ≤ n → r.published[n]? = some h → r.used_ring (n % NUM) = h
  publishing : ∀ h ∈ r.publishing, r.used_ring (r.published.length % NUM) = h
  nodup : r.heads.Nodup
  bound : ∀ h ∈ r.heads, h < NUM

variable {r : Rings} {h : Nat}

theorem mem_heads : h ∈ r.heads ↔ h ∈ r.unfinished ∨ h ∈ r.finished := mem_append

theorem ok_init : init.Ok :=
  ⟨rfl, rfl, Nat.le_refl 0, (fun _ _ _ e => nomatch e), rfl, rfl, Nat.le_refl 0, (fun _ _ _ e => nomatch e), nofun,
    nodup_nil, nofun⟩

theorem length_unfinished (r : Rings) : r.unfinished.length = r.subs.length - r.took + r.taken.length := by
  unfold unfinished
  rw [length_append, length_drop, length_map]

theorem length_finished (r : Rings) : r.finished.length = r.publishing.toList.length + (r.published.length - r.acks) := by
  unfold finished
  rw [length_append, length_drop]

theorem Ok.length_le (hr : r.Ok) : r.unfinished.length + r.finished.length ≤ NUM := by
  have hsub : r.heads ⊆ range NUM := fun x hx => mem_range.mpr (hr.bound x hx)
  have := (subperm_of_subset hr.nodup hsub).length_le
  rwa [heads, length_append, length_range] at this

theorem Ok.length_lt (hr : r.Ok) (hh : h ∉ r.heads) (hb : h < NUM) : r.unfinished.length + r.finished.length < NUM := by
  have hsub : h :: r.heads ⊆ range NUM := fun x hx => by
    rcases mem_cons.mp hx with e | hx
    · exact e ▸ mem_range.mpr hb
    · exact mem_range.mpr (hr.bound x hx)
  have := (subperm_of_subset (nodup_cons.mpr ⟨hh, hr.nodup⟩) hsub).length_le
  rwa [heads, length_cons, length_append, length_range] at this

/-- 8 divides 2 ^ 16, so a 16-bit index points to the cell that the full count points to. -/
theorem wrap_mod (n : Nat) : n % 2 ^ 16 % NUM = n % NUM := Nat.mod_mod_of_dvd n (by decide)

theorem lt_of_getElem? {l : List Nat} {n : Nat} (e : l[n]? = some h) : n < l.length := (List.getElem?_eq_some_iff.mp e).1

theorem Ok.put (hr : r.Ok) (hh : h ∉ r.heads) (hb : h < NUM) : (r.put h).Ok := by
  have hroom := hr.length_lt hh hb
  rw [length_unfinished] at hroom
  refine ⟨hr.avail_idx, hr.last, hr.took, fun n x hn hx => ?_, hr.used_ring_idx, hr.used_idx, hr.acks, hr.used,
    hr.publishing, hr.nodup, hr.bound⟩
  have hlt : n < r.subs.length := lt_of_getElem? hx
  change update r.avail_ring (r.avail_idx % NUM) h (n % NUM) = x
  -- fewer than `NUM` entries are waiting, so the cell written is none of theirs
  have hne : n % NUM ≠ r.avail_idx % NUM := by
    rw [hr.avail_idx, wrap_mod]
    change r.took ≤ n at hn
    lia
  rw [update_of_ne hne]
  exact hr.ring n x hn hx

theorem mem_submit {x : Nat} (ht : r.took ≤ r.subs.length) :
    x ∈ (r.submit h).unfinished ↔ x ∈ r.unfinished ∨ x = h := by
  change x ∈ (r.subs ++ [h]).drop r.took ++ r.taken.map Prod.fst ↔ x ∈ r.subs.drop r.took ++ r.taken.map Prod.fst ∨ x = h
  rw [drop_append_of_le_length ht]
  simp only [mem_append, mem_singleton]
  tauto

theorem Ok.submit (hr : r.Ok) (hh : h ∉ r.heads) (hb : h < NUM) (hw : r.avail_ring (r.avail_idx % NUM) = h) :
    (r.submit h).Ok := by
  refine ⟨?_, hr.last, ?_, fun n x hn hx => ?_, hr.used_ring_idx, hr.used_idx, hr.acks, hr.used, hr.publishing, ?_,
    fun x hx => ?_⟩
  · change (r.avail_idx + 1) % 2 ^ 16 = (r.subs ++ [h]).length % 2 ^ 16
    rw [hr.avail_idx, length_append, length_singleton, Nat.mod_add_mod]
  · change r.took ≤ (r.subs ++ [h]).length
    rw [length_append]
    exact Nat.le_trans hr.took (Nat.le_add_right _ _)
  · change (r.subs ++ [h])[n]? = some x at hx
    by_cases hlt : n < r.subs.length
    · rw [getElem?_append_left hlt] at hx
      exact hr.ring n x hn hx
    · have hn' : n = r.subs.length := by
        have := lt_of_getElem? hx
        rw [length_append, length_singleton] at this
        omega
      rw [hn', getElem?_append_right (Nat.le_refl _), Nat.sub_self] at hx
      rw [hr.avail_idx, wrap_mod] at hw
      rw [hn']
      exact hw.trans (Option.some.inj hx)
  · have hp : (r.submit h).heads.Perm (h :: r.heads) := by
      change ((r.subs ++ [h]).drop r.took ++ r.taken.map Prod.fst ++ r.finished).Perm
        (h :: (r.subs.drop r.took ++ r.taken.map Prod.fst ++ r.finished))
      rw [drop_append_of_le_length hr.took]
      simp only [append_assoc, singleton_append]
      exact perm_middle
    exact hp.nodup_iff.mpr (nodup_cons.mpr ⟨hh, hr.nodup⟩)
  · rcases mem_heads.mp hx with hx | hx
    · rcases (mem_submit hr.took).mp hx with hx | rfl
      · exact hr.bound x (mem_heads.mpr (.inl hx))
      · exact hb
    · exact hr.bound x (mem_heads.mpr (.inr hx))

theorem Ok.take_eq (hr : r.Ok) (hne : r.last ≠ r.avail_idx) :
    ∃ h, r.subs[r.took]? = some h ∧ r.avail_ring (r.last % NUM) = h ∧
    r.subs.drop r.took = h :: r.subs.drop (r.took + 1) := by
  have hlt : r.took < r.subs.length := by
    refine lt_of_le_of_ne hr.took fun e => hne ?_
    rw [hr.last, hr.avail_idx, e]
  refine ⟨r.subs[r.took], getElem?_eq_getElem hlt, ?_, drop_eq_getElem_cons hlt⟩
  rw [hr.last, wrap_mod]
  exact hr.ring _ _ le_rfl (getElem?_eq_getElem hlt)

theorem Ok.unfinished_take (hr : r.Ok) : r.take.unfinished.Perm r.unfinished := by
  unfold take
  split
  · exact Perm.refl _
  · rename_i hne
    obtain ⟨h, -, hw, hd⟩ := hr.take_eq hne
    change (r.subs.drop (r.took + 1) ++ (r.taken ++ [(r.avail_ring (r.last % NUM), r.took)]).map Prod.fst).Perm
      (r.subs.drop r.took ++ r.taken.map Prod.fst)
    rw [hd, hw, map_append, ← append_assoc]
    exact perm_append_singleton h _

theorem finished_take (r : Rings) : r.take.finished = r.finished := by
  unfold take
  split <;> rfl

theorem Ok.take (hr : r.Ok) : r.take.Ok := by
  have hp : r.take.heads.Perm r.heads := by
    unfold heads
    rw [finished_take]
    exact hr.unfinished_take.append_right _
  have hnd := hp.nodup_iff.mpr hr.nodup
  have hb : ∀ x ∈ r.take.heads, x < NUM := fun x hx => hr.bound x (hp.mem_iff.mp hx)
  by_cases hne : r.last = r.avail_idx
  · rw [Rings.take, if_pos hne]
    exact hr
  · rw [Rings.take, if_neg hne] at hnd hb ⊢
    have hlt : r.took < r.subs.length := by
      obtain ⟨h, e, -⟩ := hr.take_eq hne
      exact lt_of_getElem? e
    refine ⟨hr.avail_idx, ?_, hlt, fun n x hn hx => hr.ring n x (Nat.le_of_succ_le hn) hx, hr.used_ring_idx, hr.used_idx,
      hr.acks, hr.used, hr.publishing, hnd, hb⟩
    rw [hr.last, Nat.mod_add_mod]

section
variable {j t : Nat} (hp : r.publishing = none) (hj : r.taken[j]? = some (h, t))
include hp hj

theorem perm_finish : (r.finish j h).heads.Perm r.heads := by
  obtain ⟨hlt, hget⟩ := List.getElem?_eq_some_iff.mp hj
  have he : (h :: (r.taken.eraseIdx j).map Prod.fst).Perm (r.taken.map Prod.fst) := by
    have := (getElem_cons_eraseIdx_perm hlt).map Prod.fst
    rwa [hget] at this
  unfold heads unfinished finished
  rw [hp]
  change (r.subs.drop r.took ++ (r.taken.eraseIdx j).map Prod.fst ++ ([h] ++ r.published.drop r.acks)).Perm
    (r.subs.drop r.took ++ r.taken.map Prod.fst ++ r.published.drop r.acks)
  simp only [append_assoc, singleton_append]
  refine Perm.append_left _ (perm_middle.trans ?_)
  exact he.append_right _

theorem Ok.finish (hr : r.Ok) : (r.finish j h).Ok := by
  have hperm := perm_finish hp hj
  have hroom := hr.length_le
  have htaken : 0 < r.taken.length := lt_of_le_of_lt (Nat.zero_le j) (List.getElem?_eq_some_iff.mp hj).1
  rw [length_unfinished, length_finished] at hroom
  have hcell : r.used_ring_idx % NUM = r.published.length % NUM := by rw [hr.used_ring_idx, wrap_mod]
  refine ⟨hr.avail_idx, hr.last, hr.took, hr.ring, hr.used_ring_idx, hr.used_idx, hr.acks, fun n x hn hx => ?_,
    fun x hx => ?_, hperm.nodup_iff.mpr hr.nodup, fun x hx => hr.bound x (hperm.mem_iff.mp hx)⟩
  · have hlt : n < r.published.length := lt_of_getElem? hx
    change update r.used_ring (r.used_ring_idx % NUM) h (n % NUM) = x
    have hne : n % NUM ≠ r.used_ring_idx % NUM := by
      rw [hcell]
      change r.acks ≤ n at hn
      lia
    rw [update_of_ne hne]
    exact hr.used n x hn hx
  · change update r.used_ring (r.used_ring_idx % NUM) h (r.published.length % NUM) = x
    rw [← hcell, update_self]
    exact Option.some.inj hx

end

theorem perm_publish (hr : r.Ok) : r.publish.finished.Perm r.finished := by
  unfold publish
  split
  · exact Perm.refl _
  · rename_i h hp
    unfold finished
    rw [hp]
    change ((r.published ++ [h]).drop r.acks).Perm ([h] ++ r.published.drop r.acks)
    rw [drop_append_of_le_length hr.acks]
    exact perm_append_comm

theorem unfinished_publish (r : Rings) : r.publish.unfinished = r.unfinished := by
  unfold publish
  split <;> rfl

theorem Ok.publish (hr : r.Ok) : r.publish.Ok := by
  have hperm : r.publish.heads.Perm r.heads := by
    unfold heads
    rw [unfinished_publish]
    exact (perm_publish hr).append_left _
  have hnd := hperm.nodup_iff.mpr hr.nodup
  have hb : ∀ x ∈ r.publish.heads, x < NUM := fun x hx => hr.bound x (hperm.mem_iff.mp hx)
  cases hp : r.publishing with
  | none =>
    simp only [Rings.publish, hp]
    exact hr
  | some h =>
    simp only [Rings.publish, hp] at hnd hb ⊢
    refine ⟨hr.avail_idx, hr.last, hr.took, hr.ring, ?_, hr.used_idx, ?_, fun n x hn hx => ?_, nofun, hnd, hb⟩
    · change (r.used_ring_idx + 1) % 2 ^ 16 = (r.published ++ [h]).length % 2 ^ 16
      rw [hr.used_ring_idx, length_append, length_singleton, Nat.mod_add_mod]
    · change r.acks ≤ (r.published ++ [h]).length
      rw [length_append]
      exact Nat.le_trans hr.acks (Nat.le_add_right _ _)
    · change (r.published ++ [h])[n]? = some x at hx
      by_cases hlt : n < r.published.length
      · rw [getElem?_append_left hlt] at hx
        exact hr.used n x hn hx
      · have hn' : n = r.published.length := by
          have := lt_of_getElem? hx
          rw [length_append, length_singleton] at this
          omega
        rw [hn', getElem?_append_right (Nat.le_refl _), Nat.sub_self] at hx
        rw [hn']
        exact (hr.publishing h hp).trans (Option.some.inj hx)

theorem Ok.ack_eq (hr : r.Ok) (hlt : r.acks < r.published.length) :
    r.used_ring (r.used_idx % NUM) = r.published[r.acks] ∧
      r.finished = r.publishing.toList ++ r.published[r.acks] :: r.ack.published.drop r.ack.acks := by
  constructor
  · rw [hr.used_idx, wrap_mod]
    exact hr.used _ _ le_rfl (getElem?_eq_getElem hlt)
  · unfold finished
    rw [drop_eq_getElem_cons hlt]
    rfl

theorem Ok.ack (hr : r.Ok) (hlt : r.acks < r.published.length) : r.ack.Ok := by
  have hsub : r.ack.heads.Sublist r.heads := by
    refine Sublist.append_left ?_ _
    rw [(hr.ack_eq hlt).2]
    exact Sublist.append_left (sublist_cons_self ..) _
  refine ⟨hr.avail_idx, hr.last, hr.took, hr.ring, hr.used_ring_idx, ?_, hlt, fun n x hn hx => ?_, hr.publishing,
    hr.nodup.sublist hsub, fun x hx => hr.bound x (hsub.subset hx)⟩
  · change (r.used_idx + 1) % 2 ^ 16 = (r.acks + 1) % 2 ^ 16
    rw [hr.used_idx, Nat.mod_add_mod]
  · exact hr.used n x (Nat.le_of_succ_le hn) hx

end Rings

/-! ## What the processes know -/

def Triple.list (c : Triple) : List Nat := [c.idx0, c.idx1, c.idx2]

structure Formatted (d : DiskData) (a : RwArgs) (c : Triple) : Prop where
  op : d.ops c.idx0 = ⟨a.type, 0, a.sector⟩
  desc0 : d.desc c.idx0 = ⟨.op c.idx0, 16, VRING_DESC_F_NEXT, c.idx1⟩
  desc1 : d.desc c.idx1 = ⟨.data a.b, 1024, (if a.write then 0 else VRING_DESC_F_WRITE) ||| VRING_DESC_F_NEXT, c.idx2⟩
  desc2 : d.desc c.idx2 = ⟨.status c.idx0, 1, VRING_DESC_F_WRITE, 0⟩

structure Flies (d : DiskData) (p : Nat) (a : RwArgs) (c : Triple) : Prop where
  own : ∀ i ∈ c.list, d.owner i = some p
  formatted : Formatted d a c
  info : d.info_b c.idx0 = some a.b

def Underway (d : DiskData) (h t : Nat) (x : Transfer) : Prop :=
  d.rings.took ≤ t ∧ d.rings.subs[t]? = some h ∨ (h, t) ∈ d.rings.taken ∨ (t, x) ∈ d.fin

structure QueueOk (d : DiskData) : Prop where
  rings : d.rings.Ok
  live : ∀ h ∈ d.rings.heads, ∃ p a c, c.idx0 = h ∧ Flies d p a c
  busy : ∀ h ∈ d.rings.unfinished, ∀ b, d.info_b h = some b → d.disk b = true
  status : ∀ h ∈ d.rings.finished, d.info_status h = 0
  owner : ∀ i p, d.owner i = some p → i < NUM
  free : ∀ i < NUM, (d.free i = true ↔ d.owner i = none)
  info : ∀ h b, d.info_b h = some b → d.owner h ≠ none ∧ d.lock b = d.owner h
  inj : ∀ h h' b, d.info_b h = some b → d.info_b h' = some b → h = h'

/-- What the lock guards: `b->disk` is still set for every completion that is not counted. -/
def DiskData.calm (d : DiskData) : Prop := ∀ h ∈ d.rings.finished, ∀ b, d.info_b h = some b → d.disk b = true

def OffRings (l : List Nat) (d : DiskData) : Prop := ∀ i ∈ l, i ∉ d.rings.heads

def Blank (l : List Nat) (d : DiskData) : Prop := ∀ i ∈ l, d.info_b i = none

def Linked (d : DiskData) : List Nat → Prop
  | [] => True
  | [i] => (d.desc i).flags &&& VRING_DESC_F_NEXT = 0
  | i :: j :: l => (d.desc i).flags &&& VRING_DESC_F_NEXT ≠ 0 ∧ (d.desc i).next = j ∧ Linked d (j :: l)

namespace DiskPc

def locked : DiskPc → Prop
  | out _ | bget _ | start _ | dozed .. | brelse .. | intr | devTake | devDo _ | devPublish => False
  | _ => True

def held : DiskPc → List Nat
  | alloc _ idx => idx
  | undo _ i rest => i :: rest
  | undoWake _ rest => rest
  | format0 _ c | format1 _ c | format2 _ c | record _ c | ring _ c | submit _ c => c.list
  | waiting _ c _ | doze _ c _ | dozed _ c _ | clear _ c _ => c.list
  | freeDesc _ _ i rest => i :: rest
  | freeWake _ _ _ _ rest => rest
  | _ => []

def buf : DiskPc → Option Nat
  | start a | alloc a _ | undo a _ _ | undoWake a _ | wait a => some a.b
  | format0 a _ | format1 a _ | format2 a _ | record a _ | ring a _ | submit a _ => some a.b
  | waiting a _ _ | doze a _ _ | dozed a _ _ | clear a _ _ => some a.b
  | freeDesc a _ _ _ | freeWake a _ _ _ _ | unlock a _ | brelse a _ => some a.b
  | _ => none

/-- Here what the lock guards is so; `virtio_disk_intr` breaks it from `b->disk = 0` to `disk.used_idx += 1`. -/
def settled : DiskPc → Prop
  | intrWake _ | intrNext => False
  | k => k.locked

def knows (p : Nat) : DiskPc → DiskData → Prop
  | out (some (t, x)), d => (t, x) ∈ d.fin
  | alloc _ idx, d => OffRings idx d ∧ Blank idx d ∧ idx.length < 3
  | undo _ i rest, d => OffRings (i :: rest) d ∧ Blank (i :: rest) d
  | undoWake _ rest, d => OffRings rest d ∧ Blank rest d
  | format0 _ c, d => OffRings c.list d ∧ Blank c.list d
  | format1 a c, d => OffRings c.list d ∧ Blank c.list d ∧ d.ops c.idx0 = ⟨a.type, 0, a.sector⟩ ∧
      d.desc c.idx0 = ⟨.op c.idx0, 16, VRING_DESC_F_NEXT, c.idx1⟩
  | format2 a c, d => OffRings c.list d ∧ Blank c.list d ∧ d.ops c.idx0 = ⟨a.type, 0, a.sector⟩ ∧
      d.desc c.idx0 = ⟨.op c.idx0, 16, VRING_DESC_F_NEXT, c.idx1⟩ ∧
      d.desc c.idx1 = ⟨.data a.b, 1024, (if a.write then 0 else VRING_DESC_F_WRITE) ||| VRING_DESC_F_NEXT, c.idx2⟩
  | record a c, d => OffRings c.list d ∧ Blank c.list d ∧ Formatted d a c
  | ring a c, d => OffRings c.list d ∧ Blank [c.idx1, c.idx2] d ∧ Flies d p a c ∧ d.disk a.b = true
  | submit a c, d => OffRings c.list d ∧ Blank [c.idx1, c.idx2] d ∧ Flies d p a c ∧ d.disk a.b = true ∧
      d.rings.avail_ring (d.rings.avail_idx % NUM) = c.idx0
  | waiting a c t, d | doze a c t, d | dozed a c t, d => OffRings [c.idx1, c.idx2] d ∧ Blank [c.idx1, c.idx2] d ∧
      Flies d p a c ∧ Underway d c.idx0 t a.transfer
  | clear a c t, d => OffRings c.list d ∧ Blank [c.idx1, c.idx2] d ∧ Flies d p a c ∧ (t, a.transfer) ∈ d.fin
  | freeDesc a t i rest, d => OffRings (i :: rest) d ∧ Blank (i :: rest) d ∧ Linked d (i :: rest) ∧ (t, a.transfer) ∈ d.fin
  | freeWake a t flag nxt rest, d => OffRings rest d ∧ Blank rest d ∧ Linked d rest ∧ (t, a.transfer) ∈ d.fin ∧
      (flag &&& VRING_DESC_F_NEXT ≠ 0 → rest = nxt :: rest.tail) ∧ (flag &&& VRING_DESC_F_NEXT = 0 → rest = [])
  | unlock a t, d | brelse a t, d => (t, a.transfer) ∈ d.fin
  | intrGet, d => d.rings.acks < d.rings.published.length
  | intrWake _, d | intrNext, d => d.rings.acks < d.rings.published.length ∧ { d with rings := d.rings.ack }.calm
  | panicked _, _ => False
  | _, _ => True

end DiskPc

structure DiskHere (p : Nat) (k : DiskPc) (d : DiskData) : Prop where
  own : ∀ i, d.owner i = some p ↔ i ∈ k.held
  nodup : k.held.Nodup
  lock : ∀ b ∈ k.buf, d.lock b = some p
  calm : k.settled → d.calm
  knows : k.knows p d

/-! ## What a step leaves to the others -/

structure Untouched (q : Nat) (d d' : DiskData) : Prop where
  owner : ∀ i, d'.owner i = some q ↔ d.owner i = some q
  mine : ∀ i, d.owner i = some q → d'.desc i = d.desc i ∧ d'.ops i = d.ops i ∧ d'.info_b i = d.info_b i
  lock : ∀ b, d.lock b = some q → d'.lock b = some q
  fin : ∀ x ∈ d.fin, x ∈ d'.fin
  quiet : ∀ i, d.owner i = some q → i ∉ d.rings.heads → i ∉ d'.rings.heads
  progress : ∀ a c t, Flies d q a c → Underway d c.idx0 t a.transfer → Underway d' c.idx0 t a.transfer

structure Aside (d d' : DiskData) : Prop where
  disk : d'.disk = d.disk
  ring : d'.rings.avail_ring = d.rings.avail_ring
  idx : d'.rings.avail_idx = d.rings.avail_idx
  acks : d.rings.acks < d.rings.published.length → d'.rings.acks < d'.rings.published.length
  calm : d.calm → d'.calm
  rest : d.rings.acks < d.rings.published.length →
    { d with rings := d.rings.ack }.calm → { d' with rings := d'.rings.ack }.calm

variable {d d' : DiskData} {q : Nat} {a : RwArgs} {c : Triple}

theorem Formatted.congr (h : Formatted d a c) (ho : ∀ i ∈ c.list, d'.desc i = d.desc i ∧ d'.ops i = d.ops i) :
    Formatted d' a c := by
  have h0 := ho c.idx0 (by simp [Triple.list])
  have h1 := ho c.idx1 (by simp [Triple.list])
  have h2 := ho c.idx2 (by simp [Triple.list])
  exact ⟨h0.2.trans h.op, h0.1.trans h.desc0, h1.1.trans h.desc1, h2.1.trans h.desc2⟩

theorem Linked.congr : ∀ {l : List Nat}, Linked d l → (∀ i ∈ l, d'.desc i = d.desc i) → Linked d' l
  | [], _, _ => trivial
  | [i], h, ho => by
    unfold Linked
    rw [ho i (mem_singleton_self i)]
    exact h
  | i :: j :: l, h, ho => by
    unfold Linked
    rw [ho i (mem_cons_self ..)]
    exact ⟨h.1, h.2.1, h.2.2.congr fun x hx => ho x (mem_cons_of_mem i hx)⟩

theorem Flies.congr (h : Flies d q a c) (hu : Untouched q d d') : Flies d' q a c :=
  ⟨fun i hi => (hu.owner i).mpr (h.own i hi),
    h.formatted.congr fun i hi => ⟨(hu.mine i (h.own i hi)).1, (hu.mine i (h.own i hi)).2.1⟩,
    (hu.mine c.idx0 (h.own c.idx0 (by simp [Triple.list]))).2.2.trans h.info⟩

theorem Untouched.refl (q : Nat) (d : DiskData) : Untouched q d d :=
  ⟨fun _ => Iff.rfl, fun _ _ => ⟨rfl, rfl, rfl⟩, fun _ => id, fun _ => id, fun _ _ => id, fun _ _ _ _ => id⟩

theorem Aside.refl (d : DiskData) : Aside d d := ⟨rfl, rfl, rfl, id, id, fun _ => id⟩

theorem locked_of_settled {k : DiskPc} (h : k.settled) : k.locked := by
  cases k <;> first | exact h | cases h

section
variable {l : List Nat} (hl : ∀ i ∈ l, d.owner i = some q) (hu : Untouched q d d')
include hl hu

theorem OffRings.congr (h : OffRings l d) : OffRings l d' := fun i hi => hu.quiet i (hl i hi) (h i hi)

theorem Blank.congr (h : Blank l d) : Blank l d' := fun i hi => (hu.mine i (hl i hi)).2.2.trans (h i hi)

end

theorem DiskHere.other (h : DiskHere q k d) (hu : Untouched q d d') (ha : k.locked → Aside d d') :
    DiskHere q k d' := by
  have hl : ∀ i ∈ k.held, d.owner i = some q := fun i hi => (h.own i).mpr hi
  refine ⟨fun i => (hu.owner i).trans (h.own i), h.nodup, fun b hb => hu.lock b (h.lock b hb),
    fun hs => (ha (locked_of_settled hs)).calm (h.calm hs), ?_⟩
  have hk := h.knows
  have hpair : ∀ {c : Triple}, (∀ i ∈ c.list, d.owner i = some q) → ∀ i ∈ [c.idx1, c.idx2], d.owner i = some q :=
    fun hc i hi => hc i (mem_cons_of_mem _ hi)
  cases k with
  | out r =>
    cases r with
    | none => trivial
    | some x => exact hu.fin _ hk
  | alloc a idx => exact ⟨hk.1.congr hl hu, hk.2.1.congr hl hu, hk.2.2⟩
  | undo a i rest | undoWake a rest | format0 a c => exact ⟨hk.1.congr hl hu, hk.2.congr hl hu⟩
  | format1 a c =>
    have h0 := hu.mine c.idx0 (hl c.idx0 (mem_cons_self ..))
    exact ⟨hk.1.congr hl hu, hk.2.1.congr hl hu, h0.2.1.trans hk.2.2.1, h0.1.trans hk.2.2.2⟩
  | format2 a c =>
    have h0 := hu.mine c.idx0 (hl c.idx0 (mem_cons_self ..))
    have h1 := hu.mine c.idx1 (hpair hl c.idx1 (mem_cons_self ..))
    exact ⟨hk.1.congr hl hu, hk.2.1.congr hl hu, h0.2.1.trans hk.2.2.1, h0.1.trans hk.2.2.2.1, h1.1.trans hk.2.2.2.2⟩
  | record a c =>
    exact ⟨hk.1.congr hl hu, hk.2.1.congr hl hu,
      hk.2.2.congr fun i hi => ⟨(hu.mine i (hl i hi)).1, (hu.mine i (hl i hi)).2.1⟩⟩
  | ring a c =>
    have ha := ha trivial
    exact ⟨hk.1.congr hl hu, hk.2.1.congr (hpair hl) hu, hk.2.2.1.congr hu, by rw [ha.disk]; exact hk.2.2.2⟩
  | submit a c =>
    have ha := ha trivial
    exact ⟨hk.1.congr hl hu, hk.2.1.congr (hpair hl) hu, hk.2.2.1.congr hu, by rw [ha.disk]; exact hk.2.2.2.1,
      by rw [ha.ring, ha.idx]; exact hk.2.2.2.2⟩
  | waiting a c t | doze a c t | dozed a c t =>
    exact ⟨hk.1.congr (hpair hl) hu, hk.2.1.congr (hpair hl) hu, hk.2.2.1.congr hu,
      hu.progress a c t hk.2.2.1 hk.2.2.2⟩
  | clear a c t =>
    exact ⟨hk.1.congr hl hu, hk.2.1.congr (hpair hl) hu, hk.2.2.1.congr hu, hu.fin _ hk.2.2.2⟩
  | freeDesc a t i rest =>
    exact ⟨hk.1.congr hl hu, hk.2.1.congr hl hu, hk.2.2.1.congr fun i hi => (hu.mine i (hl i hi)).1, hu.fin _ hk.2.2.2⟩
  | freeWake a t flag nxt rest =>
    exact ⟨hk.1.congr hl hu, hk.2.1.congr hl hu, hk.2.2.1.congr fun i hi => (hu.mine i (hl i hi)).1, hu.fin _ hk.2.2.2.1,
      hk.2.2.2.2⟩
  | unlock a t | brelse a t => exact hu.fin _ hk
  | intrGet => exact (ha trivial).acks hk
  | intrWake b | intrNext => exact ⟨(ha trivial).acks hk.1, (ha trivial).rest hk.1 hk.2⟩
  | panicked m => exact hk
  | bget | start | wait | intr | intrLoop | intrDone | devTake | devDo | devPublish => trivial

end Xv6
