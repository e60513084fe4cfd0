import Xv6.Itable

/-!
# The inode table is coherent

An entry that is in use is for one inode. Its copy differs from the inode on
disk only while somebody with the lock has changed it, or frees the inode:
once its type is zero on disk, `ialloc` may take it.
-/

namespace Xv6

open Hoare List

variable {dev inum : Nat}

def IRef.locked (r : IRef) : Bool :=
  match r.st with
  | .loading | .locked | .dirty | .trunc | .zero | .clear | .unlock => true
  | .held | .locking | .drop => false

def IRef.loaded (r : IRef) : Bool :=
  match r.st with
  | .locked | .dirty | .trunc | .zero | .clear => true
  | .held | .locking | .drop | .loading | .unlock => false

namespace Itable

structure Inv (s : Itable) (refs : List IRef) : Prop where
  unique : ∀ i < NINODE, ∀ j < NINODE, 0 < (s.inode i).ref → 0 < (s.inode j).ref →
    (s.inode i).dev = (s.inode j).dev → (s.inode i).inum = (s.inode j).inum → i = j
  place : ∀ r ∈ refs, r.slot < NINODE ∧ (s.inode r.slot).dev = r.dev ∧ (s.inode r.slot).inum = r.inum
  count : ∀ i < NINODE, (s.inode i).ref = refs.countP (·.slot = i)
  locks : ∀ i < NINODE, refs.countP (fun r => r.slot = i ∧ r.locked) = if (s.inode i).lock = none then 0 else 1
  owner : ∀ r ∈ refs, r.locked → (s.inode r.slot).lock = some r.proc
  loaded : ∀ r ∈ refs, r.loaded → (s.inode r.slot).valid = true
  typed : ∀ i < NINODE, 0 < (s.inode i).ref → (s.inode i).valid = true → (∀ r ∈ refs, r.slot = i → r.st ≠ .clear) →
    (s.disk (s.inode i).dev (s.inode i).inum).type = (s.inode i).copy.type ∧ (s.inode i).copy.type ≠ .T_NONE
  copy : ∀ i < NINODE, 0 < (s.inode i).ref → (s.inode i).valid = true →
    (∀ r ∈ refs, r.slot = i → r.st ≠ .clear ∧ r.st ≠ .dirty) →
    (s.inode i).copy = s.disk (s.inode i).dev (s.inode i).inum

section
variable {s s' : Itable} {refs refs' rest : List IRef} {r r' : IRef} {i : Nat} {x : IEntry} {d : Dinode}
  {E : ItStop → Prop}

@[simp] theorem setEntry_self : (s.setEntry i x).inode i = x := Function.update_self ..

theorem setEntry_of_ne (h : j ≠ i) : (s.setEntry i x).inode j = s.inode j := Function.update_of_ne h ..

@[simp] theorem setEntry_disk : (s.setEntry i x).disk = s.disk := rfl

@[simp] theorem setDisk_inode : (s.setDisk dev inum d).inode = s.inode := rfl

theorem setDisk_self : (s.setDisk dev inum d).disk dev inum = d := by
  simp [setDisk]

theorem setDisk_of_ne {dev' inum' : Nat} (h : ¬ (dev' = dev ∧ inum' = inum)) :
    (s.setDisk dev inum d).disk dev' inum' = s.disk dev' inum' := by
  unfold setDisk
  by_cases hd : dev' = dev
  · subst hd
    have hi : inum' ≠ inum := fun he => h ⟨rfl, he⟩
    simp [hi]
  · simp [hd]

theorem Inv.init (disk : Nat → Nat → Dinode) (ninodes : Nat) : Inv (iinit disk ninodes) [] := by
  constructor
  · intro i _ j _ h; cases h
  · intro r hr; cases hr
  · intro i _; rfl
  · intro i _; rfl
  · intro r hr; cases hr
  · intro r hr; cases hr
  · intro i _ h; cases h
  · intro i _ h; cases h

theorem Inv.perm (h : Inv s refs) (hp : refs.Perm refs') : Inv s refs' where
  unique := h.unique
  place r hr := h.place r (hp.mem_iff.mpr hr)
  count i hi := by rw [h.count i hi, hp.countP_eq]
  locks i hi := by rw [← h.locks i hi, hp.countP_eq]
  owner r hr := h.owner r (hp.mem_iff.mpr hr)
  loaded r hr := h.loaded r (hp.mem_iff.mpr hr)
  typed i hi h0 hv hr := h.typed i hi h0 hv fun r hm => hr r (hp.mem_iff.mp hm)
  copy i hi h0 hv hr := h.copy i hi h0 hv fun r hm => hr r (hp.mem_iff.mp hm)

theorem Inv.congr (h : Inv s refs) (hi : s'.inode = s.inode) (hd : s'.disk = s.disk) : Inv s' refs := by
  obtain ⟨h1, h2, h3, h4, h5, h6, h7, h8⟩ := h
  constructor <;> rw [hi] <;> try rw [hd]
  all_goals assumption

theorem Inv.ref_pos (h : Inv s refs) (hr : r ∈ refs) : 0 < (s.inode r.slot).ref := by
  rw [h.count r.slot (h.place r hr).1]
  exact countP_pos_iff.mpr ⟨r, hr, by simp⟩

theorem Inv.others (h : Inv s (r :: rest)) (hl : (s.inode r.slot).lock = none ∨ r.locked) :
    ∀ q ∈ rest, q.slot = r.slot → q.locked = false := by
  intro q hq hs
  have hc := h.locks r.slot (h.place r mem_cons_self).1
  rw [countP_cons] at hc
  by_contra hlk
  have hpos : 0 < rest.countP (fun q => q.slot = r.slot ∧ q.locked) :=
    countP_pos_iff.mpr ⟨q, hq, by simp [hs, eq_true_of_ne_false hlk]⟩
  rcases hl with hl | hl
  · rw [if_pos hl] at hc
    omega
  · simp only [hl, and_self, decide_true, if_true] at hc
    split at hc <;> omega

theorem loaded_locked (h : r.loaded) : r.locked := by
  unfold IRef.loaded at h
  unfold IRef.locked
  split at h <;> simp_all

theorem locked_of_st (h : r.st = .clear ∨ r.st = .dirty) : r.locked := by
  unfold IRef.locked
  rcases h with h | h <;> rw [h]

section
variable (h : Inv s (r :: rest)) (hfree : (s.inode r.slot).lock = none ∨ r.locked = true)
include h hfree

theorem Inv.update
    (hin : s'.inode = (s.setEntry r.slot x).inode) (hs : r'.slot = r.slot) (hkey : r'.dev = r.dev ∧ r'.inum = r.inum)
    (hx : x.dev = (s.inode r.slot).dev ∧ x.inum = (s.inode r.slot).inum ∧ x.ref = (s.inode r.slot).ref)
    (hl : x.lock = if r'.locked then some r'.proc else none) (hv : r'.loaded → x.valid)
    (hdisk : ∀ dev inum, ¬ (dev = x.dev ∧ inum = x.inum) → s'.disk dev inum = s.disk dev inum)
    (htyped : x.valid → r'.st ≠ .clear →
      (s'.disk x.dev x.inum).type = x.copy.type ∧ x.copy.type ≠ .T_NONE)
    (hcopy : x.valid → r'.st ≠ .clear → r'.st ≠ .dirty → x.copy = s'.disk x.dev x.inum) :
    Inv s' (r' :: rest) := by
  have hplace := h.place r mem_cons_self
  have hpos := h.ref_pos (r := r) mem_cons_self
  have hothers := h.others hfree
  have hne : ∀ q ∈ rest, q.locked → q.slot ≠ r.slot := by
    intro q hq hql hqs
    rw [hothers q hq hqs] at hql
    cases hql
  have hself : s'.inode r.slot = x := by rw [hin, setEntry_self]
  have hother : ∀ j, j ≠ r.slot → s'.inode j = s.inode j := fun j hj => by rw [hin, setEntry_of_ne hj]
  have hdev : ∀ j, (s'.inode j).dev = (s.inode j).dev ∧ (s'.inode j).inum = (s.inode j).inum ∧
      (s'.inode j).ref = (s.inode j).ref := by
    intro j
    by_cases hj : j = r.slot
    · subst hj; rw [hself]; exact hx
    · rw [hother j hj]; exact ⟨rfl, rfl, rfl⟩
  -- the other entries in use are for other inodes
  have hkeep : ∀ j < NINODE, j ≠ r.slot → 0 < (s.inode j).ref →
      s'.disk (s.inode j).dev (s.inode j).inum = s.disk (s.inode j).dev (s.inode j).inum := by
    intro j hj hne hr
    refine hdisk _ _ fun he => hne ?_
    rw [hx.1, hx.2.1] at he
    exact h.unique j hj r.slot hplace.1 hr hpos he.1 he.2
  constructor
  · intro i hi j hj hri hrj hd hn
    rw [(hdev i).2.2] at hri
    rw [(hdev j).2.2] at hrj
    rw [(hdev i).1, (hdev j).1] at hd
    rw [(hdev i).2.1, (hdev j).2.1] at hn
    exact h.unique i hi j hj hri hrj hd hn
  · intro q hq
    rw [(hdev _).1, (hdev _).2.1]
    rcases mem_cons.mp hq with rfl | hq
    · rw [hs, hkey.1, hkey.2]; exact hplace
    · exact h.place q (mem_cons_of_mem _ hq)
  · intro j hj
    have := h.count j hj
    rw [countP_cons] at this ⊢
    rw [(hdev j).2.2, this, hs]
  · intro j hj
    have := h.locks j hj
    rw [countP_cons] at this ⊢
    by_cases hjr : j = r.slot
    · subst hjr
      have hzero : rest.countP (fun q => q.slot = r.slot ∧ q.locked) = 0 := by
        rw [countP_eq_zero]
        intro q hq
        simp only [decide_eq_true_eq, not_and]
        intro hqs hql
        exact hne q hq hql hqs
      rw [hself, hs, hzero, hl]
      by_cases hr' : r'.locked <;> simp [hr']
    · rw [hother j hjr, ← this, hs]
      simp [Ne.symm hjr]
  · intro q hq hql
    rcases mem_cons.mp hq with rfl | hq
    · rw [hs, hself, hl, if_pos hql]
    · rw [hother _ (hne q hq hql)]
      exact h.owner q (mem_cons_of_mem _ hq) hql
  · intro q hq hql
    rcases mem_cons.mp hq with rfl | hq
    · rw [hs, hself]; exact hv hql
    · rw [hother _ (hne q hq (loaded_locked hql))]
      exact h.loaded q (mem_cons_of_mem _ hq) hql
  · intro j hj hr hval hcl
    by_cases hjr : j = r.slot
    · subst hjr
      rw [hself] at hval ⊢
      exact htyped hval (hcl r' mem_cons_self hs)
    · rw [hother j hjr] at hr hval ⊢
      rw [hkeep j hj hjr hr]
      refine h.typed j hj hr hval fun q hq hqj => ?_
      rcases mem_cons.mp hq with rfl | hq
      · exact absurd hqj (Ne.symm hjr)
      · exact hcl q (mem_cons_of_mem _ hq) hqj
  · intro j hj hr hval hcl
    by_cases hjr : j = r.slot
    · subst hjr
      have hr' := hcl r' mem_cons_self hs
      rw [hself] at hval ⊢
      exact hcopy hval hr'.1 hr'.2
    · rw [hother j hjr] at hr hval ⊢
      rw [hkeep j hj hjr hr]
      refine h.copy j hj hr hval fun q hq hqj => ?_
      rcases mem_cons.mp hq with rfl | hq
      · exact absurd hqj (Ne.symm hjr)
      · exact hcl q (mem_cons_of_mem _ hq) hqj

theorem Inv.seen
    (hv : (s.inode r.slot).valid) (hc : r.st ≠ .clear) :
    (s.disk (s.inode r.slot).dev (s.inode r.slot).inum).type = (s.inode r.slot).copy.type ∧
    (s.inode r.slot).copy.type ≠ .T_NONE ∧
    (r.st ≠ .dirty → (s.inode r.slot).copy = s.disk (s.inode r.slot).dev (s.inode r.slot).inum) := by
  have hplace := h.place r mem_cons_self
  have hpos := h.ref_pos (r := r) mem_cons_self
  have hquiet : ∀ q ∈ rest, q.slot = r.slot → q.st ≠ .clear ∧ q.st ≠ .dirty := by
    intro q hq hqs
    have hql := h.others hfree q hq hqs
    refine ⟨fun he => ?_, fun he => ?_⟩
    · rw [locked_of_st (.inl he)] at hql; cases hql
    · rw [locked_of_st (.inr he)] at hql; cases hql
  have htyped := h.typed r.slot hplace.1 hpos hv fun q hq hqs => by
    rcases mem_cons.mp hq with rfl | hq
    · exact hc
    · exact (hquiet q hq hqs).1
  refine ⟨htyped.1, htyped.2, fun hd => h.copy r.slot hplace.1 hpos hv fun q hq hqs => ?_⟩
  rcases mem_cons.mp hq with rfl | hq
  · exact ⟨hc, hd⟩
  · exact hquiet q hq hqs

end

theorem Inv.recount (h : Inv s refs)
    (hplace : ∀ q ∈ refs', q.slot < NINODE ∧ (s.inode q.slot).dev = q.dev ∧ (s.inode q.slot).inum = q.inum)
    (hlocks : ∀ j, refs'.countP (fun q => q.slot = j ∧ q.locked) = refs.countP (fun q => q.slot = j ∧ q.locked))
    (hold : ∀ q, q.locked → (q ∈ refs' ↔ q ∈ refs))
    (hcount : ∀ j, j ≠ i → refs'.countP (·.slot = j) = refs.countP (·.slot = j)) (hn : n = refs'.countP (·.slot = i))
    (hpos : 0 < n → 0 < (s.inode i).ref) :
    Inv (s.setEntry i { s.inode i with ref := n }) refs' := by
  have hrest : ∀ j, ((s.setEntry i { s.inode i with ref := n }).inode j).dev = (s.inode j).dev ∧
      ((s.setEntry i { s.inode i with ref := n }).inode j).inum = (s.inode j).inum ∧
      ((s.setEntry i { s.inode i with ref := n }).inode j).lock = (s.inode j).lock ∧
      ((s.setEntry i { s.inode i with ref := n }).inode j).valid = (s.inode j).valid ∧
      ((s.setEntry i { s.inode i with ref := n }).inode j).copy = (s.inode j).copy ∧
      (0 < ((s.setEntry i { s.inode i with ref := n }).inode j).ref → 0 < (s.inode j).ref) := by
    intro j
    by_cases hj : j = i
    · subst hj; rw [setEntry_self]; exact ⟨rfl, rfl, rfl, rfl, rfl, hpos⟩
    · rw [setEntry_of_ne hj]; exact ⟨rfl, rfl, rfl, rfl, rfl, fun hp => hp⟩
  constructor
  · intro j hj k hk hrj hrk hd hm
    rw [(hrest j).1, (hrest k).1] at hd
    rw [(hrest j).2.1, (hrest k).2.1] at hm
    exact h.unique j hj k hk ((hrest j).2.2.2.2.2 hrj) ((hrest k).2.2.2.2.2 hrk) hd hm
  · intro q hq
    rw [(hrest _).1, (hrest _).2.1]
    exact hplace q hq
  · intro j hj
    by_cases hji : j = i
    · subst hji; rw [setEntry_self]; exact hn
    · rw [setEntry_of_ne hji, h.count j hj, hcount j hji]
  · intro j hj
    rw [(hrest j).2.2.1, hlocks]
    exact h.locks j hj
  · intro q hq hl
    rw [(hrest _).2.2.1]
    exact h.owner q ((hold q hl).mp hq) hl
  · intro q hq hl
    rw [(hrest _).2.2.2.1]
    exact h.loaded q ((hold q (loaded_locked hl)).mp hq) hl
  · intro j hj hr hv hcl
    obtain ⟨h1, h2, -, h4, h5, h6⟩ := hrest j
    rw [h4] at hv
    rw [h1, h2, h5, setEntry_disk]
    refine h.typed j hj (h6 hr) hv fun q hq hqj he => ?_
    exact hcl q ((hold q (locked_of_st (.inl he))).mpr hq) hqj he
  · intro j hj hr hv hcl
    obtain ⟨h1, h2, -, h4, h5, h6⟩ := hrest j
    rw [h4] at hv
    rw [h1, h2, h5, setEntry_disk]
    refine h.copy j hj (h6 hr) hv fun q hq hqj => ⟨fun he => ?_, fun he => ?_⟩
    · exact (hcl q ((hold q (locked_of_st (.inl he))).mpr hq) hqj).1 he
    · exact (hcl q ((hold q (locked_of_st (.inr he))).mpr hq) hqj).2 he

theorem Inv.drop (h : Inv s (r :: rest)) (hl : r.locked = false) :
    Inv (s.setEntry r.slot { s.inode r.slot with ref := (s.inode r.slot).ref - 1 }) rest := by
  have hplace := h.place r mem_cons_self
  refine h.recount (fun q hq => h.place q (mem_cons_of_mem _ hq)) ?_ ?_ ?_ ?_ ?_
  · intro j
    rw [countP_cons, if_neg (by simp [hl]), Nat.add_zero]
  · intro q hq
    rw [mem_cons]
    refine ⟨.inr, fun hm => hm.resolve_left ?_⟩
    rintro rfl
    rw [hl] at hq
    cases hq
  · intro j hj
    rw [countP_cons, if_neg (by simp [Ne.symm hj]), Nat.add_zero]
  · have := h.count r.slot hplace.1
    rw [countP_cons, if_pos (by simp)] at this
    omega
  · exact fun _ => h.ref_pos mem_cons_self

theorem Inv.add (h : Inv s refs) (hl : r.locked = false) (hs : r.slot < NINODE)
    (hk : (s.inode r.slot).dev = r.dev ∧ (s.inode r.slot).inum = r.inum) (hpos : 0 < (s.inode r.slot).ref) :
    Inv (s.setEntry r.slot { s.inode r.slot with ref := (s.inode r.slot).ref + 1 }) (r :: refs) := by
  refine h.recount ?_ ?_ ?_ ?_ ?_ fun _ => hpos
  · intro q hq
    rcases mem_cons.mp hq with rfl | hq
    · exact ⟨hs, hk⟩
    · exact h.place q hq
  · intro j
    rw [countP_cons, if_neg (by simp [hl]), Nat.add_zero]
  · intro q hq
    rw [mem_cons]
    refine ⟨fun hm => hm.resolve_left ?_, .inr⟩
    rintro rfl
    rw [hl] at hq
    cases hq
  · intro j hj
    rw [countP_cons, if_neg (by simp [Ne.symm hj]), Nat.add_zero]
  · rw [countP_cons, if_pos (by simp), h.count r.slot hs]

theorem Inv.recycle (h : Inv s refs) (proc : Nat) (hi : i < NINODE) (h0 : (s.inode i).ref = 0)
    (hno : ∀ j < NINODE, ¬ (0 < (s.inode j).ref ∧ (s.inode j).dev = dev ∧ (s.inode j).inum = inum)) :
    Inv (s.setEntry i { s.inode i with dev := dev, inum := inum, ref := 1, valid := false })
      (⟨proc, i, dev, inum, .held⟩ :: refs) := by
  have hfree : ∀ q ∈ refs, q.slot ≠ i := by
    intro q hq he
    have := h.ref_pos hq
    rw [he] at this
    omega
  have hzero : refs.countP (·.slot = i) = 0 := by rw [← h.count i hi]; exact h0
  constructor
  · intro j hj k hk hrj hrk hd hm
    by_cases hji : j = i <;> by_cases hki : k = i
    · rw [hji, hki]
    · subst hji
      rw [setEntry_self, setEntry_of_ne hki] at hd hm
      rw [setEntry_of_ne hki] at hrk
      exact absurd ⟨hrk, hd.symm, hm.symm⟩ (hno k hk)
    · subst hki
      rw [setEntry_self, setEntry_of_ne hji] at hd hm
      rw [setEntry_of_ne hji] at hrj
      exact absurd ⟨hrj, hd, hm⟩ (hno j hj)
    · rw [setEntry_of_ne hji] at hrj hd hm
      rw [setEntry_of_ne hki] at hrk hd hm
      exact h.unique j hj k hk hrj hrk hd hm
  · intro q hq
    rcases mem_cons.mp hq with rfl | hq
    · rw [setEntry_self]; exact ⟨hi, rfl, rfl⟩
    · rw [setEntry_of_ne (hfree q hq)]; exact h.place q hq
  · intro j hj
    rw [countP_cons]
    by_cases hji : j = i
    · subst hji; rw [setEntry_self, hzero]; simp
    · rw [setEntry_of_ne hji, h.count j hj]; simp [Ne.symm hji]
  · intro j hj
    rw [countP_cons, if_neg (by simp [IRef.locked]), Nat.add_zero, h.locks j hj]
    by_cases hji : j = i
    · subst hji; rw [setEntry_self]
    · rw [setEntry_of_ne hji]
  · intro q hq hl
    rcases mem_cons.mp hq with rfl | hq
    · cases hl
    · rw [setEntry_of_ne (hfree q hq)]; exact h.owner q hq hl
  · intro q hq hl
    rcases mem_cons.mp hq with rfl | hq
    · cases hl
    · rw [setEntry_of_ne (hfree q hq)]; exact h.loaded q hq hl
  · intro j hj hr hv hcl
    by_cases hji : j = i
    · subst hji; rw [setEntry_self] at hv; cases hv
    · rw [setEntry_of_ne hji] at hr hv ⊢
      exact h.typed j hj hr hv fun q hq => hcl q (mem_cons_of_mem _ hq)
  · intro j hj hr hv hcl
    by_cases hji : j = i
    · subst hji; rw [setEntry_self] at hv; cases hv
    · rw [setEntry_of_ne hji] at hr hv ⊢
      exact h.copy j hj hr hv fun q hq => hcl q (mem_cons_of_mem _ hq)

theorem Inv.claim (h : Inv s refs) (h0 : (s.disk dev inum).type = .T_NONE) :
    Inv (s.setDisk dev inum d) refs := by
  -- no entry that is valid, and not about to be cleared, is for a free inode
  have hkeep : ∀ j < NINODE, 0 < (s.inode j).ref → (s.inode j).valid →
      (∀ q ∈ refs, q.slot = j → q.st ≠ .clear) →
      (s.setDisk dev inum d).disk (s.inode j).dev (s.inode j).inum = s.disk (s.inode j).dev (s.inode j).inum := by
    intro j hj hr hv hcl
    refine setDisk_of_ne fun he => ?_
    have ht := h.typed j hj hr hv hcl
    rw [he.1, he.2] at ht
    exact ht.2 (ht.1.symm.trans h0)
  refine ⟨h.unique, h.place, h.count, h.locks, h.owner, h.loaded, ?_, ?_⟩
  · intro j hj hr hv hcl
    rw [setDisk_inode] at hr hv ⊢
    rw [hkeep j hj hr hv hcl]
    exact h.typed j hj hr hv hcl
  · intro j hj hr hv hcl
    rw [setDisk_inode] at hr hv ⊢
    rw [hkeep j hj hr hv fun q hq hqj => (hcl q hq hqj).1]
    exact h.copy j hj hr hv hcl

theorem Inv.relabel (h : Inv s (r :: rest)) (hl : r.locked = false) (hl' : r'.locked = false)
    (hs : r'.slot = r.slot ∧ r'.dev = r.dev ∧ r'.inum = r.inum) : Inv s (r' :: rest) := by
  have hr : Inv (s.setEntry r.slot { s.inode r.slot with ref := (s.inode r.slot).ref }) (r' :: rest) := by
    refine h.recount ?_ ?_ ?_ ?_ ?_ fun hp => hp
    · intro q hq
      rcases mem_cons.mp hq with rfl | hq
      · rw [hs.1, hs.2.1, hs.2.2]; exact h.place r mem_cons_self
      · exact h.place q (mem_cons_of_mem _ hq)
    · intro j
      rw [countP_cons, countP_cons, if_neg (by simp [hl']), if_neg (by simp [hl])]
    · intro q hq
      have h1 : q ≠ r := by rintro rfl; rw [hl] at hq; cases hq
      have h2 : q ≠ r' := by rintro rfl; rw [hl'] at hq; cases hq
      simp [h1, h2]
    · intro j _
      rw [countP_cons, countP_cons, hs.1]
    · rw [h.count r.slot (h.place r mem_cons_self).1, countP_cons, countP_cons, hs.1]
  have he : s.setEntry r.slot { s.inode r.slot with ref := (s.inode r.slot).ref } = s := by
    unfold setEntry
    rw [Function.update_eq_self]
  rwa [he] at hr

/-! ## Steps -/

theorem wp_iget (h : Inv s s.refs) (proc dev inum : Nat) (hE : E .igetNoInodes) :
    wp (iget proc dev inum) (fun _ s' => Inv s' s'.refs ∧ s'.allocs = s.allocs) E s := by
  unfold iget
  rw [wp_read]
  split
  · rename_i i hf
    have hi := mem_range.mp (mem_of_find?_eq_some hf)
    have hp : 0 < (s.inode i).ref ∧ (s.inode i).dev = dev ∧ (s.inode i).inum = inum := by simpa using find?_some hf
    rw [wp_set]
    refine ⟨?_, rfl⟩
    have ha := h.add (r := ⟨proc, i, dev, inum, .held⟩) rfl hi hp.2 hp.1
    exact (ha.perm (perm_append_singleton _ _).symm).congr rfl rfl
  · rename_i hf
    split
    · rename_i i hf'
      have hi := mem_range.mp (mem_of_find?_eq_some hf')
      have h0 : (s.inode i).ref = 0 := by simpa using find?_some hf'
      rw [wp_set]
      refine ⟨?_, rfl⟩
      have hr := h.recycle proc hi h0 fun j hj hp =>
        absurd (decide_eq_true hp) (find?_eq_none.mp hf j (mem_range.mpr hj))
      exact (hr.perm (perm_append_singleton _ _).symm).congr rfl rfl
    · exact wp_fail hE

theorem wp_idup (h : Inv s s.refs) (hr : r ∈ s.refs) (proc : Nat) :
    wp (idup r proc) (fun _ s' => Inv s' s'.refs) E s := by
  unfold idup
  rw [wp_modify]
  have hp := h.place r hr
  have ha := h.add (r := { r with proc := proc, st := .held }) rfl hp.1 hp.2 (h.ref_pos (r := r) hr)
  exact (ha.perm (perm_append_singleton _ _).symm).congr rfl rfl

def Keeps (s : Itable) (rest : List IRef) (o : Option IRef) (s' : Itable) : Prop :=
  Inv s' (o.toList ++ rest) ∧ s'.refs = s.refs

theorem wp_keep {o : Option IRef} (h : Inv s' (o.toList ++ rest)) (hr : s'.refs = s.refs) :
    wp (do set s'; return o) (Keeps s rest) E s := by
  rw [wp_bind, wp_set, wp_pure]
  exact ⟨h, hr⟩

section
variable (h : Inv s (r :: rest))
include h

theorem wp_step (hE : E .ilockNoType) : wp (step r) (Keeps s rest) E s := by
  unfold step
  rw [wp_read]
  cases hst : r.st with
  | held | locked | dirty => exact wp_ret ⟨h, rfl⟩
  | locking =>
    refine wp_ite (fun hl => ?_) fun _ => wp_ret ⟨h, rfl⟩
    have hseen := fun hv => h.seen (.inl hl) hv (by rw [hst]; decide)
    refine wp_keep (h.update (.inl hl) rfl rfl ⟨rfl, rfl⟩ ⟨rfl, rfl, rfl⟩ ?_ ?_ (fun _ _ _ => rfl) ?_ ?_) rfl
    · split <;> rfl
    · intro hl
      by_contra hv
      simp [hv, IRef.loaded] at hl
    · exact fun hv _ => ⟨(hseen hv).1, (hseen hv).2.1⟩
    · exact fun hv _ _ => (hseen hv).2.2 (by rw [hst]; decide)
  | loading =>
    have hl : r.locked := by unfold IRef.locked; rw [hst]
    rw [wp_bind, wp_set]
    refine wp_ite (fun _ => wp_fail hE) fun ht => ?_
    rw [wp_pure]
    refine ⟨?_, rfl⟩
    refine h.update (.inr hl) rfl rfl ⟨rfl, rfl⟩ ⟨rfl, rfl, rfl⟩ ?_ (fun _ => rfl) (fun _ _ _ => rfl) ?_ ?_
    · exact h.owner r mem_cons_self hl
    · exact fun _ _ => ⟨rfl, ht⟩
    · exact fun _ _ _ => rfl
  | trunc =>
    have hl : r.locked := by unfold IRef.locked; rw [hst]
    have hv := h.loaded r mem_cons_self (by unfold IRef.loaded; rw [hst])
    have hseen := h.seen (.inr hl) hv (by rw [hst]; decide)
    refine wp_keep (h.update (.inr hl) rfl rfl ⟨rfl, rfl⟩ ⟨rfl, rfl, rfl⟩ ?_ (fun _ => hv) ?_ ?_ ?_) rfl
    · exact h.owner r mem_cons_self hl
    · exact fun _ _ hne => setDisk_of_ne hne
    · intro _ _
      rw [setDisk_self]
      exact ⟨rfl, hseen.2.1⟩
    · intro _ _ _
      rw [setDisk_self]
  | zero =>
    have hl : r.locked := by unfold IRef.locked; rw [hst]
    have hv := h.loaded r mem_cons_self (by unfold IRef.loaded; rw [hst])
    refine wp_keep (h.update (.inr hl) rfl rfl ⟨rfl, rfl⟩ ⟨rfl, rfl, rfl⟩ ?_ (fun _ => hv) ?_ ?_ ?_) rfl
    · exact h.owner r mem_cons_self hl
    · exact fun _ _ hne => setDisk_of_ne hne
    · exact fun _ hc => absurd rfl hc
    · exact fun _ hc _ => absurd rfl hc
  | clear =>
    have hl : r.locked := by unfold IRef.locked; rw [hst]
    refine wp_keep (h.update (.inr hl) rfl rfl ⟨rfl, rfl⟩ ⟨rfl, rfl, rfl⟩ ?_ ?_ (fun _ _ _ => rfl) ?_ ?_) rfl
    · exact h.owner r mem_cons_self hl
    · intro hl; cases hl
    · intro hv; cases hv
    · intro hv; cases hv
  | unlock =>
    have hl : r.locked := by unfold IRef.locked; rw [hst]
    have hseen := fun hv => h.seen (.inr hl) hv (by rw [hst]; decide)
    refine wp_keep (h.update (.inr hl) rfl rfl ⟨rfl, rfl⟩ ⟨rfl, rfl, rfl⟩ rfl ?_ (fun _ _ _ => rfl) ?_ ?_) rfl
    · intro hl; cases hl
    · exact fun hv _ => ⟨(hseen hv).1, (hseen hv).2.1⟩
    · exact fun hv _ _ => (hseen hv).2.2 (by rw [hst]; decide)
  | drop =>
    exact wp_keep (h.drop (by unfold IRef.locked; rw [hst])) rfl

theorem wp_ilock : wp (ilock r) (Keeps s rest) E s := by
  unfold ilock
  rw [wp_read]
  refine wp_ite (fun hst => ?_) fun _ => wp_ret ⟨h, rfl⟩
  have hpos := h.ref_pos (r := r) mem_cons_self
  rw [if_neg (by omega), wp_pure]
  exact ⟨h.relabel (by unfold IRef.locked; rw [hst]) rfl ⟨rfl, rfl, rfl⟩, rfl⟩

theorem wp_change : wp (change r d) (Keeps s rest) E s := by
  unfold change
  rw [wp_read]
  refine wp_ite (fun hst => ?_) fun _ => wp_ret ⟨h, rfl⟩
  have hl : r.locked := by unfold IRef.locked; rcases hst with hst | hst <;> rw [hst]
  have hv := h.loaded r mem_cons_self (by unfold IRef.loaded; rcases hst with hst | hst <;> rw [hst])
  have hseen := h.seen (.inr hl) hv (by rcases hst with hst | hst <;> rw [hst] <;> decide)
  refine wp_keep (h.update (.inr hl) rfl rfl ⟨rfl, rfl⟩ ⟨rfl, rfl, rfl⟩ ?_ (fun _ => hv) (fun _ _ _ => rfl) ?_ ?_) rfl
  · exact h.owner r mem_cons_self hl
  · exact fun _ _ => ⟨hseen.1, hseen.2.1⟩
  · exact fun _ _ hd => absurd rfl hd

theorem wp_iupdate : wp (iupdate r) (Keeps s rest) E s := by
  unfold iupdate
  rw [wp_read]
  refine wp_ite (fun hst => ?_) fun _ => wp_ret ⟨h, rfl⟩
  have hl : r.locked := by unfold IRef.locked; rcases hst with hst | hst <;> rw [hst]
  have hv := h.loaded r mem_cons_self (by unfold IRef.loaded; rcases hst with hst | hst <;> rw [hst])
  have hseen := h.seen (.inr hl) hv (by rcases hst with hst | hst <;> rw [hst] <;> decide)
  refine wp_keep (h.update (x := s.inode r.slot) (.inr hl) ?_ rfl ⟨rfl, rfl⟩ ⟨rfl, rfl, rfl⟩ ?_ (fun _ => hv) ?_ ?_ ?_) rfl
  · unfold setEntry setDisk
    rw [Function.update_eq_self]
  · exact h.owner r mem_cons_self hl
  · exact fun _ _ hne => setDisk_of_ne hne
  · intro _ _
    rw [setDisk_self]
    exact ⟨rfl, hseen.2.1⟩
  · intro _ _ _
    rw [setDisk_self]

theorem wp_iunlock (hd : r.st ≠ .dirty) : wp (iunlock r) (Keeps s rest) E s := by
  unfold iunlock
  rw [wp_read]
  refine wp_ite (fun hst => ?_) fun _ => wp_ret ⟨h, rfl⟩
  have hst := hst.resolve_right hd
  have hl : r.locked := by unfold IRef.locked; rw [hst]
  have hpos := h.ref_pos (r := r) mem_cons_self
  have hown := h.owner r mem_cons_self hl
  have hseen := fun hv => h.seen (.inr hl) hv (by rw [hst]; decide)
  rw [if_neg (by rw [not_or, not_not]; exact ⟨hown, by omega⟩)]
  refine wp_keep (h.update (.inr hl) rfl rfl ⟨rfl, rfl⟩ ⟨rfl, rfl, rfl⟩ rfl ?_ (fun _ _ _ => rfl) ?_ ?_) rfl
  · intro hl; cases hl
  · exact fun hv _ => ⟨(hseen hv).1, (hseen hv).2.1⟩
  · exact fun hv _ _ => (hseen hv).2.2 hd

theorem wp_iput : wp (iput r) (Keeps s rest) E s := by
  unfold iput
  rw [wp_read]
  refine wp_ite (fun hst => ?_) fun _ => wp_ret ⟨h, rfl⟩
  have hl : r.locked = false := by unfold IRef.locked; rw [hst]
  refine wp_ite (fun hc => ?_) fun _ => ?_
  · -- the only reference: nobody can have the lock
    have hlock : (s.inode r.slot).lock = none := by
      have hplace := h.place r mem_cons_self
      have hcount := h.count r.slot hplace.1
      have hlocks := h.locks r.slot hplace.1
      rw [countP_cons, if_pos (by simp), hc.1] at hcount
      rw [countP_cons, if_neg (by simp [hl]), Nat.add_zero] at hlocks
      have hle : rest.countP (fun q => q.slot = r.slot ∧ q.locked) ≤ rest.countP (·.slot = r.slot) := by
        refine countP_mono_left fun q _ hq => ?_
        simp only [decide_eq_true_eq] at hq ⊢
        exact hq.1
      by_contra hne
      rw [if_neg hne] at hlocks
      omega
    have hseen := h.seen (.inl hlock) hc.2.1 (by rw [hst]; decide)
    rw [if_neg (not_not.mpr hlock)]
    refine wp_keep (h.update (.inl hlock) rfl rfl ⟨rfl, rfl⟩ ⟨rfl, rfl, rfl⟩ rfl (fun _ => hc.2.1)
      (fun _ _ _ => rfl) ?_ ?_) rfl
    · exact fun _ _ => ⟨hseen.1, hseen.2.1⟩
    · exact fun _ _ _ => hseen.2.2 (by rw [hst]; decide)
  · exact wp_keep (h.drop hl) rfl

end

/-! ## Runs -/

theorem wp_onRef (h : Inv s s.refs)
    (hf : ∀ r rest, s.refs[j]? = some r → Inv s (r :: rest) → wp (f r) (Keeps s rest) E s) :
    wp (onRef j f) (fun _ s' => Inv s' s'.refs) E s := by
  unfold onRef
  rw [wp_read]
  split
  · exact wp_ret h
  · rename_i r hj
    obtain ⟨hlt, hr⟩ := List.getElem?_eq_some_iff.mp hj
    subst hr
    refine wp_seq (wp_post (hf _ (s.refs.eraseIdx j) hj (h.perm (getElem_cons_eraseIdx_perm hlt).symm)) ?_)
    rintro o t ⟨ht, hrefs⟩
    rw [wp_modify]
    cases o with
    | none =>
      unfold setRef
      rw [hrefs]
      exact ht.congr rfl rfl
    | some r' =>
      unfold setRef
      rw [hrefs]
      exact (ht.perm (set_perm_cons_eraseIdx hlt r').symm).congr rfl rfl

theorem wp_allocStep (h : Inv s s.refs) (hE : E .igetNoInodes) :
    wp (allocStep a) (fun _ s' => Inv s' s'.refs) E s := by
  unfold allocStep
  rw [wp_read]
  refine wp_ite (fun _ => ?_) fun _ => wp_ite (fun _ => wp_ite (fun h0 => ?_) fun _ => ?_) fun _ => ?_
  · exact wp_seq (wp_post (wp_iget h a.proc a.dev a.inum hE) fun _ t ht => wp_ret ht.1)
  · rw [wp_bind, wp_set, wp_pure]
    exact h.claim h0
  · exact wp_ret h
  · exact wp_ret h

theorem wp_event (h : Inv s s.refs) (e : Event) (hu : Updates e s) :
    wp e.run (fun _ s' => Inv s' s'.refs) (fun _ => True) s := by
  cases e with
  | iget proc dev inum => exact wp_post (wp_iget h proc dev inum trivial) fun _ _ ht => ht.1
  | idup j proc =>
    unfold Event.run
    rw [wp_read]
    split
    · exact wp_ret h
    · rename_i r hj
      exact wp_idup h (List.mem_of_getElem? hj) proc
  | ilock j => exact wp_onRef h fun _ _ _ hI => wp_ilock hI
  | step j => exact wp_onRef h fun _ _ _ hI => wp_step hI trivial
  | change j d => exact wp_onRef h fun _ _ _ hI => wp_change hI
  | iupdate j => exact wp_onRef h fun _ _ _ hI => wp_iupdate hI
  | iunlock j => exact wp_onRef h fun r _ hj hI => wp_iunlock hI (hu r hj)
  | iput j => exact wp_onRef h fun _ _ _ hI => wp_iput hI
  | ialloc proc dev type => exact (wp_modify _).mpr (h.congr rfl rfl)
  | alloc a =>
    unfold Event.run
    rw [wp_read]
    split
    · exact wp_ret h
    · refine wp_seq (wp_post (wp_allocStep h trivial) fun o t ht => ?_)
      cases o with
      | none | some x => exact (wp_modify _).mpr (ht.congr rfl rfl)

/-- Entries in use are for different inodes; one that is valid and not locked is a copy of the inode on disk; and the
entry somebody has a reference to stays that of the inode it was got for. -/
structure Coherent (s : Itable) : Prop where
  unique : ∀ i < NINODE, ∀ j < NINODE, 0 < (s.inode i).ref → 0 < (s.inode j).ref →
    (s.inode i).dev = (s.inode j).dev → (s.inode i).inum = (s.inode j).inum → i = j
  copy : ∀ i < NINODE, 0 < (s.inode i).ref → (s.inode i).valid = true → (s.inode i).lock = none →
    (s.inode i).copy = s.disk (s.inode i).dev (s.inode i).inum
  refs : ∀ r ∈ s.refs, r.slot < NINODE ∧ 0 < (s.inode r.slot).ref ∧ (s.inode r.slot).dev = r.dev ∧
    (s.inode r.slot).inum = r.inum

theorem itable_coherent {disk : Nat → Nat → Dinode} {ninodes : Nat} {tr : List (Event × Itable)}
    (h : Trace Event.run Updates (iinit disk ninodes) tr s) : Coherent s := by
  have hI : Inv s s.refs :=
    h.inv (fun s => Inv s s.refs) (Inv.init disk ninodes) fun e _ hs hu => wp_event hs e hu
  refine ⟨hI.unique, fun i hi hr hv hl => ?_, fun r hr => ?_⟩
  · refine hI.copy i hi hr hv fun r hm hs => ?_
    have hlocks := hI.locks i hi
    rw [if_pos hl, countP_eq_zero] at hlocks
    have hnl := hlocks r hm
    simp only [hs, true_and, decide_eq_true_eq] at hnl
    exact ⟨fun he => hnl (locked_of_st (.inl he)), fun he => hnl (locked_of_st (.inr he))⟩
  · have hp := hI.place r hr
    exact ⟨hp.1, hI.ref_pos hr, hp.2⟩

end

def moved : List Event :=
  [.iget 0 1 7, .ilock 0, .step 0, .step 0, .iunlock 0, .iget 0 1 8, .ilock 1, .step 1, .step 1, .iunlock 1,
    .iput 0, .iput 0,
    .iget 0 1 8, .ilock 0, .step 0, .step 0, .change 0 ⟨.T_FILE, 0, 0, 2, 0, fun _ => 0⟩, .iupdate 0, .iunlock 0]

theorem itable_coherent_moved :
    ∃ tr s, Trace Event.run Updates (iinit (fun _ _ => ⟨.T_FILE, 0, 0, 1, 0, fun _ => 0⟩) 200) tr s ∧
    (0 < (s.inode 0).ref ∧ (s.inode 0).valid = true ∧ (s.inode 0).lock = none) ∧
    (s.inode 0).copy = s.disk (s.inode 0).dev (s.inode 0).inum := by
  have hrun : (runs Event.run Updates moved (iinit (fun _ _ => ⟨.T_FILE, 0, 0, 1, 0, fun _ => 0⟩) 200)).any
      (fun s => 0 < (s.inode 0).ref ∧ (s.inode 0).valid = true ∧ (s.inode 0).lock = none) = true := by decide +kernel
  obtain ⟨tr, s, h, hf⟩ := Trace.of_any hrun
  have hf := of_decide_eq_true hf
  exact ⟨tr, s, h, hf, (itable_coherent h).copy 0 (by decide) hf.1 hf.2.1 hf.2.2⟩

/-- `iput` leaves a free entry valid, and its copy grows stale. -/
theorem free_entry_stale : ∃ tr s, Trace Event.run Updates (iinit (fun _ _ => ⟨.T_FILE, 0, 0, 1, 0, fun _ => 0⟩) 200) tr s ∧
    ∃ i < NINODE, (s.inode i).valid = true ∧ (s.inode i).lock = none ∧ (s.inode i).ref = 0 ∧
      (s.inode i).copy.nlink ≠ (s.disk (s.inode i).dev (s.inode i).inum).nlink := by
  have hrun : (runs Event.run Updates moved (iinit (fun _ _ => ⟨.T_FILE, 0, 0, 1, 0, fun _ => 0⟩) 200)).any
      (fun s => (s.inode 1).valid = true ∧ (s.inode 1).lock = none ∧ (s.inode 1).ref = 0 ∧
        (s.inode 1).copy.nlink ≠ (s.disk (s.inode 1).dev (s.inode 1).inum).nlink) = true := by decide +kernel
  obtain ⟨tr, s, h, hf⟩ := Trace.of_any hrun
  exact ⟨tr, s, h, 1, by decide, of_decide_eq_true hf⟩

end Itable

end Xv6
