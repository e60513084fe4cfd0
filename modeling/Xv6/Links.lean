import Mathlib

/-!
# Circular doubly linked lists

A list runs through the links of its nodes from a head, which is no element,
back to the head.
-/

namespace Ringlist

open Function List

variable {α : Type} [DecidableEq α]

structure Links (α : Type) where
  next : α → α
  prev : α → α

/-- `b->next->prev = b->prev; b->prev->next = b->next`. -/
def Links.unlink (k : Links α) (b : α) : Links α :=
  let k := { k with prev := update k.prev (k.next b) (k.prev b) }
  { k with next := update k.next (k.prev b) (k.next b) }

/-- `b->next = h->next; b->prev = h; h->next->prev = b; h->next = b`. -/
def Links.push (k : Links α) (h b : α) : Links α :=
  let k := { k with next := update k.next b (k.next h) }
  let k := { k with prev := update k.prev b h }
  let k := { k with prev := update k.prev (k.next h) b }
  { k with next := update k.next h b }

/-- The first node with `p`, from `x` on along `step` and before `h`; at most `fuel` nodes are looked at. -/
def follow (step : α → α) (h : α) (p : α → Bool) : Nat → α → Option α
  | 0, _ => none
  | fuel + 1, x => if x = h then none else if p x then some x else follow step h p fuel (step x)

/-- From `x` the links lead through `l` to `y`, and back. -/
def Path (k : Links α) : α → List α → α → Prop
  | x, [], y => k.next x = y ∧ k.prev y = x
  | x, z :: l, y => k.next x = z ∧ k.prev z = x ∧ Path k z l y

/-- The nodes of the list with head `h` are those of `l`, in this order. -/
structure IsRing (k : Links α) (h : α) (l : List α) : Prop where
  nodup : (h :: l).Nodup
  path : Path k h l h

variable {k k' : Links α} {x y z h b : α} {l l' : List α} {p : α → Bool}

omit [DecidableEq α] in
theorem Path.congr (hp : Path k x l y) (hn : ∀ a ∈ x :: l, k'.next a = k.next a)
    (hv : ∀ a ∈ l ++ [y], k'.prev a = k.prev a) : Path k' x l y := by
  induction l generalizing x with
  | nil => exact ⟨(hn x mem_cons_self).trans hp.1, (hv y mem_cons_self).trans hp.2⟩
  | cons z l ih =>
    refine ⟨(hn x mem_cons_self).trans hp.1, (hv z mem_cons_self).trans hp.2.1, ih hp.2.2 ?_ ?_⟩
    · intro a ha; exact hn a (mem_cons_of_mem _ ha)
    · intro a ha; exact hv a (mem_cons_of_mem _ ha)

omit [DecidableEq α] in
theorem path_append : Path k x (l ++ z :: l') y ↔ Path k x l z ∧ Path k z l' y := by
  induction l generalizing x with
  | nil => simp only [nil_append, Path]; tauto
  | cons a l ih => simp only [cons_append, Path, ih]; tauto

omit [DecidableEq α] in
theorem Path.next_mem (hp : Path k x l y) : k.next x ∈ l ++ [y] := by
  cases l with
  | nil | cons z l => rw [hp.1]; exact mem_cons_self

omit [DecidableEq α] in
theorem Path.prev_mem (hp : Path k x l y) : k.prev y ∈ x :: l := by
  induction l generalizing x with
  | nil => rw [hp.2]; exact mem_cons_self
  | cons z l ih => exact mem_cons_of_mem _ (ih hp.2.2)

theorem unlink_next (hb : k.next b ≠ b) (a : α) :
    (k.unlink b).next a = if a = k.prev b then k.next b else k.next a := by
  simp only [Links.unlink, update_apply, if_neg hb.symm]

theorem unlink_prev (a : α) : (k.unlink b).prev a = if a = k.next b then k.prev b else k.prev a := by
  simp only [Links.unlink, update_apply]

theorem Path.unlink (hp : Path k x l b) (hq : Path k b l' y) (hb : k.next b ≠ b)
    (h1 : (x :: (l ++ b :: l')).Nodup) (h2 : (l ++ b :: (l' ++ [y])).Nodup) : Path (k.unlink b) x (l ++ l') y := by
  induction l generalizing x with
  | nil =>
    have hx : k.prev b = x := hp.2
    cases l' with
    | nil =>
      have hy : k.next b = y := hq.1
      constructor
      · rw [unlink_next hb, if_pos hx.symm, hy]
      · rw [unlink_prev, if_pos hy.symm, hx]
    | cons z l' =>
      have hz : k.next b = z := hq.1
      refine ⟨?_, ?_, hq.2.2.congr ?_ ?_⟩
      · rw [unlink_next hb, if_pos hx.symm, hz]
      · rw [unlink_prev, if_pos hz.symm, hx]
      · intro a ha
        rw [unlink_next hb, if_neg]
        rintro rfl
        rw [hx] at ha
        exact (nodup_cons.mp h1).1 (mem_cons_of_mem _ ha)
      · intro a ha
        rw [unlink_prev, if_neg]
        rintro rfl
        rw [hz] at ha
        exact (nodup_cons.mp (nodup_cons.mp h2).2).1 ha
  | cons z l ih =>
    have hpre : k.prev b ∈ z :: l := hp.2.2.prev_mem
    have hpost : k.next b ∈ l' ++ [y] := hq.next_mem
    obtain ⟨hz, h2'⟩ := nodup_cons.mp h2
    refine ⟨?_, ?_, ih hp.2.2 (nodup_cons.mp h1).2 h2'⟩
    · rw [unlink_next hb, if_neg, hp.1]
      rintro rfl
      exact (nodup_cons.mp h1).1 (mem_append_left _ hpre)
    · rw [unlink_prev, if_neg, hp.2.1]
      rintro rfl
      exact hz (mem_append_right _ (mem_cons_of_mem _ hpost))

omit [DecidableEq α] in
theorem IsRing.nodup' (hr : IsRing k h l) : (l ++ [h]).Nodup := (perm_append_singleton h l).nodup_iff.mpr hr.nodup

theorem IsRing.unlink (hr : IsRing k h (l ++ b :: l')) : IsRing (k.unlink b) h (l ++ l') := by
  obtain ⟨hpre, hpost⟩ := path_append.mp hr.path
  have hnd' : (l ++ b :: (l' ++ [h])).Nodup := by
    have := hr.nodup'
    rwa [append_assoc, cons_append] at this
  have hb : k.next b ≠ b := by
    intro he
    have hmem := hpost.next_mem
    rw [he] at hmem
    exact (nodup_cons.mp (nodup_append.mp hnd').2.1).1 hmem
  refine ⟨hr.nodup.sublist ?_, hpre.unlink hpost hb hr.nodup hnd'⟩
  exact ((sublist_cons_self b l').append_left l).cons_cons h

theorem IsRing.push (hr : IsRing k h l) (hb : b ∉ h :: l) : IsRing (k.push h b) h (b :: l) := by
  have hbh : b ≠ h := fun he => hb (he ▸ mem_cons_self)
  have hbl : b ∉ l := fun hm => hb (mem_cons_of_mem _ hm)
  have hn : ∀ a, (k.push h b).next a = if a = h then b else if a = b then k.next h else k.next a := by
    intro a
    simp only [Links.push, update_apply]
  have hv : ∀ a, (k.push h b).prev a = if a = k.next h then b else if a = b then h else k.prev a := by
    intro a
    simp only [Links.push, update_apply, if_neg hbh.symm]
  have hmem := hr.path.next_mem
  have hbn : b ≠ k.next h := by
    intro he
    rw [← he] at hmem
    exact hb ((perm_append_singleton h l).mem_iff.mp hmem)
  refine ⟨?_, ?_, ?_, ?_⟩
  · have hnd := nodup_cons.mp hr.nodup
    refine nodup_cons.mpr ⟨?_, nodup_cons.mpr ⟨hbl, hnd.2⟩⟩
    intro hm
    rcases mem_cons.mp hm with he | hm
    · exact hbh he.symm
    · exact hnd.1 hm
  · rw [hn, if_pos rfl]
  · rw [hv, if_neg hbn, if_pos rfl]
  · have hp := hr.path
    have hnd := hr.nodup'
    cases l with
    | nil =>
      have he : k.next h = h := hp.1
      constructor
      · rw [hn, if_neg hbh, if_pos rfl, he]
      · rw [hv, he, if_pos rfl]
    | cons z l =>
      have he : k.next h = z := hp.1
      refine ⟨?_, ?_, hp.2.2.congr ?_ ?_⟩
      · rw [hn, if_neg hbh, if_pos rfl, he]
      · rw [hv, he, if_pos rfl]
      · intro a ha
        rw [hn, if_neg, if_neg]
        · rintro rfl; exact hbl ha
        · rintro rfl; exact (nodup_cons.mp hr.nodup).1 ha
      · intro a ha
        rw [hv, he, if_neg, if_neg]
        · rintro rfl
          exact hb ((perm_append_singleton h (z :: l)).mem_iff.mp (mem_cons_of_mem _ ha))
        · rintro rfl; exact (nodup_cons.mp hnd).1 ha

theorem IsRing.moveFront (hr : IsRing k h l) (hb : b ∈ l) :
    ∃ l', l'.Perm l ∧ IsRing ((k.unlink b).push h b) h l' := by
  obtain ⟨l1, l2, rfl⟩ := append_of_mem hb
  refine ⟨b :: (l1 ++ l2), (perm_middle : (l1 ++ b :: l2).Perm (b :: (l1 ++ l2))).symm, hr.unlink.push ?_⟩
  intro hm
  have hnd : (b :: (h :: (l1 ++ l2))).Nodup := by
    refine Perm.nodup ?_ hr.nodup
    exact (perm_middle.cons h).trans (Perm.swap b h (l1 ++ l2))
  exact (nodup_cons.mp hnd).1 hm

theorem follow_next (hp : Path k x l h) (hh : h ∉ l) {fuel : Nat} (hf : l.length < fuel) :
    follow k.next h p fuel (k.next x) = l.find? p := by
  induction l generalizing x fuel with
  | nil =>
    obtain ⟨fuel, rfl⟩ := Nat.exists_eq_succ_of_ne_zero (Nat.ne_of_gt (Nat.zero_lt_of_lt hf))
    rw [follow, if_pos hp.1, find?_nil]
  | cons z l ih =>
    obtain ⟨fuel, rfl⟩ := Nat.exists_eq_succ_of_ne_zero (Nat.ne_of_gt (Nat.zero_lt_of_lt hf))
    have hzh : z ≠ h := fun he => hh (he ▸ mem_cons_self)
    rw [follow, hp.1, if_neg hzh, find?_cons, ih hp.2.2 (fun hm => hh (mem_cons_of_mem _ hm))
      (Nat.lt_of_succ_lt_succ hf)]
    cases p z <;> rfl

def Links.flip (k : Links α) : Links α := ⟨k.prev, k.next⟩

omit [DecidableEq α] in
theorem Path.flip (hp : Path k x l y) : Path k.flip y l.reverse x := by
  induction l generalizing x with
  | nil => exact ⟨hp.2, hp.1⟩
  | cons z l ih =>
    rw [reverse_cons, path_append]
    exact ⟨ih hp.2.2, hp.2.1, hp.1⟩

theorem IsRing.follow_next (hr : IsRing k h l) : follow k.next h p (l.length + 1) (k.next h) = l.find? p :=
  Ringlist.follow_next hr.path (nodup_cons.mp hr.nodup).1 (Nat.lt_succ_self _)

theorem IsRing.follow_prev (hr : IsRing k h l) : follow k.prev h p (l.length + 1) (k.prev h) = l.reverse.find? p := by
  have hp := hr.path.flip
  have hh : h ∉ l.reverse := fun hm => (nodup_cons.mp hr.nodup).1 (mem_reverse.mp hm)
  refine Ringlist.follow_next (k := k.flip) hp hh ?_
  rw [length_reverse]
  exact Nat.lt_succ_self _

end Ringlist
