import Xv6.Dirs

/-!
# No circle of processes that wait for inode locks

A process that holds the lock of an inode and waits for another one goes
from a directory to an inode with an entry in it, or to one that is about to
get its first entry there. Entries form no circle, because a new one leads
to an inode that is no directory or an empty one.
-/

namespace Xv6

open Hoare Function List Option

variable {E : FsPanic → Prop} {rank : Nat → Nat} {dp x : Nat} {nm : Name} {k : Then}

def LockSys.plain (s : LockSys) (ip : Nat) : Prop := s.type ip ≠ .T_DIR ∧ s.type ip ≠ .T_NONE

def Then.Ok (s : LockSys) : Then → Prop
  | .new ip => s.plain ip
  | .create type => type ≠ .T_NONE
  | .open | .old .. | .unlink => True

def FsOk (s : LockSys) : FsCall → Prop
  | .drop _ _ c | .put _ c => FsOk s c
  | .namex _ _ _ k | .seeing _ _ _ k => k.Ok s
  | .create _ _ type | .creating _ _ type => type ≠ .T_NONE
  | .createNew dp _ ip type | .createLink dp _ ip type => s.type dp = .T_DIR ∧ s.type ip = type ∧ type ≠ .T_NONE
  | .linking ip _ _ => s.type ip ≠ .T_NONE
  | .linkIn _ _ ip | .linkAt _ _ ip => s.plain ip
  | .unlinkIp dp nm ip | .unlinkBoth dp nm ip => (∃ k, nm = .name k) ∧ (nm, ip) ∈ s.ent dp
  | .io _ gs | .copying _ gs => gs = []
  | .ioFault .. => False
  | .done | .touch .. | .link .. | .unlink .. | .unlinking .. => True

def FsCall.Below (rank : Nat → Nat) : FsCall → Prop
  | .createNew dp _ ip _ | .createLink dp _ ip _ => rank ip < rank dp
  | .drop _ _ c | .put _ c => c.Below rank
  | _ => True

def LockSys.Graded (s : LockSys) (rank : Nat → Nat) : Prop := ∀ x k y, (Name.name k, y) ∈ s.ent x → rank y < rank x

structure LockInv (s : LockSys) : Prop where
  lock : ∀ ip i, s.lock ip = some i ↔ ∃ c, s.call i = some c ∧ ip ∈ c.holds
  nodup : ∀ i c, s.call i = some c → c.holds.Nodup
  bound : ∀ i c, s.call i = some c → i < NPROC
  nondir : ∀ ip, s.type ip ≠ .T_DIR → s.ent ip = []
  ok : ∀ i c, s.call i = some c → FsOk s c
  rank : ∃ rank, s.Graded rank ∧ ∀ i c, s.call i = some c → c.Below rank

variable {s s' : LockSys} {i ip : Nat} {c c' : FsCall}

theorem FsCall.holds_uses (c : FsCall) : ∀ x ∈ c.holds, x ∈ c.uses := by
  induction c with
  | drop ip p c ih =>
    intro x hx
    rcases mem_cons.mp hx with rfl | hx
    · exact mem_cons_self
    · exact mem_cons_of_mem _ (ih x hx)
  | put ip c ih => exact fun x hx => mem_cons_of_mem _ (ih x hx)
  | _ => intro x hx; simp_all [FsCall.holds, FsCall.uses]

theorem FsOk.frame (h : FsOk s c) (ht : ∀ x ∈ c.uses, s.type x ≠ .T_NONE → s'.type x = s.type x)
    (he : ∀ x ∈ c.holds, s'.ent x = s.ent x) : FsOk s' c := by
  have hplain : ∀ x ∈ c.uses, s.plain x → s'.plain x := by
    intro x hx hp
    unfold LockSys.plain
    rw [ht x hx hp.2]
    exact hp
  have hthen : ∀ k : Then, (∀ x ∈ k.uses, x ∈ c.uses) → k.Ok s → k.Ok s' := by
    intro k hk hok
    cases k with
    | new ip => exact hplain ip (hk ip mem_cons_self) hok
    | _ => exact hok
  induction c with
  | drop ip p c ih =>
    exact ih h (fun x hx => ht x (mem_cons_of_mem _ hx)) (fun x hx => he x (mem_cons_of_mem _ hx))
      (fun x hx => hplain x (mem_cons_of_mem _ hx)) fun k hk => hthen k fun x hx => mem_cons_of_mem _ (hk x hx)
  | put ip c ih =>
    exact ih h (fun x hx => ht x (mem_cons_of_mem _ hx)) he (fun x hx => hplain x (mem_cons_of_mem _ hx))
      fun k hk => hthen k fun x hx => mem_cons_of_mem _ (hk x hx)
  | namex ip nm rest k | seeing ip nm rest k => exact hthen k (fun x hx => mem_cons_of_mem _ hx) h
  | createNew dp nm ip type | createLink dp nm ip type =>
    obtain ⟨h1, rfl, h3⟩ := h
    exact ⟨(ht dp (by simp [FsCall.uses]) (by rw [h1]; decide)).trans h1, ht ip (by simp [FsCall.uses]) h3, h3⟩
  | linking ip start path =>
    have hip : s.type ip ≠ .T_NONE := h
    rw [← ht ip (by simp [FsCall.uses]) hip] at hip
    exact hip
  | linkIn dp nm ip | linkAt dp nm ip => exact hplain ip (by simp [FsCall.uses]) h
  | unlinkIp dp nm ip | unlinkBoth dp nm ip =>
    refine ⟨h.1, ?_⟩
    rw [he dp (by simp [FsCall.holds])]
    exact h.2
  | _ => exact h

theorem LockInv.next (h : LockInv s) (hc : s.call i = some c) (hcall : s'.call = update s.call i (some c'))
    (hself : ∀ x, s'.lock x = some i ↔ x ∈ c'.holds) (hother : ∀ x j, j ≠ i → (s'.lock x = some j ↔ s.lock x = some j))
    (hnd : c'.holds.Nodup)
    (htype : ∀ x, s'.type x = s.type x ∨ s.type x = .T_NONE ∨ ∀ j d, j ≠ i → s.call j = some d → x ∉ d.uses)
    (hent : ∀ x, s'.ent x = s.ent x ∨ ∀ j, j ≠ i → s.lock x ≠ some j) (hdir : ∀ x, s'.type x ≠ .T_DIR → s'.ent x = [])
    (hok : FsOk s' c')
    (hrank : ∀ rank, s.Graded rank → c.Below rank → ∃ rank', s'.Graded rank' ∧ c'.Below rank' ∧
      ∀ j d, j ≠ i → s.call j = some d → d.Below rank → d.Below rank') : LockInv s' := by
  have hnew : s'.call i = some c' := by rw [hcall, update_self]
  have hold : ∀ j, j ≠ i → s'.call j = s.call j := fun j hj => by rw [hcall, update_of_ne hj]
  have heq : ∀ d, s'.call i = some d → d = c' := fun d hd => some.inj (hd.symm.trans hnew)
  refine ⟨fun x j => ?_, fun j d hd => ?_, fun j d hd => ?_, hdir, fun j d hd => ?_, ?_⟩
  · by_cases hj : j = i
    · subst hj
      rw [hself]
      constructor
      · exact fun hx => ⟨c', hnew, hx⟩
      · rintro ⟨d, hd, hx⟩
        rw [← heq d hd]
        exact hx
    · rw [hother x j hj, h.lock, hold j hj]
  · by_cases hj : j = i
    · subst hj
      rw [heq d hd]
      exact hnd
    · rw [hold j hj] at hd
      exact h.nodup j d hd
  · by_cases hj : j = i
    · subst hj
      exact h.bound j c hc
    · rw [hold j hj] at hd
      exact h.bound j d hd
  · by_cases hj : j = i
    · subst hj
      rw [heq d hd]
      exact hok
    · rw [hold j hj] at hd
      refine (h.ok j d hd).frame (fun x hx hne => ?_) fun x hx => ?_
      · rcases htype x with ht | ht | ht
        · exact ht
        · exact absurd ht hne
        · exact absurd hx (ht j d hj hd)
      · rcases hent x with he | he
        · exact he
        · exact absurd ((h.lock x j).mpr ⟨d, hd, hx⟩) (he j hj)
  · obtain ⟨rank, hg, hb⟩ := h.rank
    obtain ⟨rank', hg', hb', ho⟩ := hrank rank hg (hb i c hc)
    refine ⟨rank', hg', fun j d hd => ?_⟩
    by_cases hj : j = i
    · subst hj
      rw [heq d hd]
      exact hb'
    · rw [hold j hj] at hd
      exact ho j d hj hd (hb j d hd)

/-! ## Steps that change no inode -/

section
variable (h : LockInv s) (hc : s.call i = some c)
include h hc

theorem LockInv.self (x : Nat) : s.lock x = some i ↔ x ∈ c.holds := by
  rw [h.lock]
  constructor
  · rintro ⟨d, hd, hx⟩
    rw [hc, some.injEq] at hd
    rw [hd]
    exact hx
  · exact fun hx => ⟨c, hc, hx⟩

theorem LockInv.move (hh : c'.holds.Perm c.holds) (hok : FsOk s c')
    (hB : ∀ rank, s.Graded rank → c.Below rank → c'.Below rank) : LockInv (s.goto i c') := by
  refine h.next hc rfl (fun x => ?_) (fun _ _ _ => Iff.rfl) (hh.nodup_iff.mpr (h.nodup i c hc)) (fun _ => .inl rfl)
    (fun _ => .inl rfl) h.nondir ?_ fun rank hg hb => ⟨rank, hg, hB rank hg hb, fun _ _ _ _ hd => hd⟩
  · rw [hh.mem_iff]
    exact h.self hc x
  · exact hok.frame (fun _ _ _ => rfl) fun _ _ => rfl

theorem LockInv.take (hl : s.lock ip = none) (hh : c'.holds.Perm (ip :: c.holds))
    (hok : FsOk s c') (hB : ∀ rank, s.Graded rank → c.Below rank → c'.Below rank) : LockInv (s.take i ip c') := by
  have hfree : ip ∉ c.holds := by
    intro hx
    rw [(h.self hc ip).mpr hx] at hl
    cases hl
  refine h.next hc rfl (fun x => ?_) (fun x j hj => ?_) (hh.nodup_iff.mpr (nodup_cons.mpr ⟨hfree, h.nodup i c hc⟩))
    (fun _ => .inl rfl) (fun _ => .inl rfl) h.nondir ?_ fun rank hg hb => ⟨rank, hg, hB rank hg hb, fun _ _ _ _ hd => hd⟩
  · rw [hh.mem_iff, mem_cons, ← h.self hc x]
    by_cases hx : x = ip
    · simp [LockSys.take, hx]
    · simp [LockSys.take, LockSys.goto, hx]
  · by_cases hx : x = ip
    · simp [LockSys.take, hx, hl, Ne.symm hj]
    · simp [LockSys.take, LockSys.goto, hx]
  · exact hok.frame (fun _ _ _ => rfl) fun _ _ => rfl

theorem LockInv.wp_ilockTo (hE : ∀ e, E e)
    (hh : c'.holds.Perm (ip :: c.holds)) (hok : s.type ip ≠ .T_NONE → FsOk s c')
    (hB : ∀ rank, s.Graded rank → c.Below rank → c'.Below rank) : wp (ilockTo i ip c') (fun _ s' => LockInv s') E s := by
  unfold ilockTo
  rw [wp_read]
  refine wp_ite (fun hl => wp_ite (fun _ => wp_fail (hE _)) fun ht => wp_put ?_) fun _ => wp_ret h
  exact h.take hc hl hh (hok ht) hB

end

theorem LockInv.release {c0 : FsCall} {p : Bool} (h : LockInv s) (hc : s.call i = some (.drop ip p c0)) :
    LockInv { s.goto i (if p then .put ip c0 else c0) with lock := update s.lock ip none } := by
  have hholds : (if p then FsCall.put ip c0 else c0).holds = c0.holds := by cases p <;> rfl
  have hnd := h.nodup i _ hc
  obtain ⟨hip, hnd0⟩ := nodup_cons.mp hnd
  refine h.next hc rfl (fun x => ?_) (fun x j hj => ?_) (by rw [hholds]; exact hnd0)
    (fun _ => .inl rfl) (fun _ => .inl rfl) h.nondir ?_ fun rank hg hb => ⟨rank, hg, ?_, fun _ _ _ _ hd => hd⟩
  · rw [hholds]
    by_cases hx : x = ip
    · simp [hx, hip]
    · have hs := h.self hc x
      simp only [FsCall.holds, mem_cons, hx, false_or] at hs
      simp only [update_of_ne hx]
      exact hs
  · by_cases hx : x = ip
    · subst hx
      have hs := (h.self hc x).mpr mem_cons_self
      simp [hs, Ne.symm hj]
    · simp [hx]
  · have hok : FsOk { s.goto i (if p then .put ip c0 else c0) with lock := update s.lock ip none } (.drop ip p c0) :=
      (h.ok i _ hc).frame (fun _ _ _ => rfl) fun _ _ => rfl
    cases p with
    | true => exact hok
    | false => exact hok
  · cases p with
    | true => exact hb
    | false => exact hb

theorem LockInv.finish (h : LockInv s) (hc : s.call i = some .done) : LockInv { s with call := update s.call i none } := by
  have hold : ∀ {j d}, update s.call i none j = some d → j ≠ i ∧ s.call j = some d := by
    intro j d hd
    by_cases hj : j = i
    · rw [hj, update_self] at hd
      cases hd
    · rw [update_of_ne hj] at hd
      exact ⟨hj, hd⟩
  refine ⟨fun x j => ?_, fun j d hd => h.nodup j d (hold hd).2, fun j d hd => h.bound j d (hold hd).2, h.nondir,
    fun j d hd => (h.ok j d (hold hd).2).frame (fun _ _ _ => rfl) fun _ _ => rfl, ?_⟩
  · constructor
    · intro hl
      obtain ⟨d, hd, hx⟩ := (h.lock x j).mp hl
      have hj : j ≠ i := by
        rintro rfl
        rw [hc, some.injEq] at hd
        subst hd
        cases hx
      exact ⟨d, (update_of_ne hj ..).trans hd, hx⟩
    · rintro ⟨d, hd, hx⟩
      exact (h.lock x j).mpr ⟨d, (hold hd).2, hx⟩
  · obtain ⟨rank, hg, hb⟩ := h.rank
    exact ⟨rank, hg, fun j d hd => hb j d (hold hd).2⟩

/-! ## Steps that change an inode -/

def lowest (rank : Nat → Nat) (ip : Nat) : Nat → Nat := fun x => if x = ip then 0 else rank x + 1

theorem lowest_lt {y : Nat} (hx : x ≠ ip) (h : rank y < rank x) : lowest rank ip y < lowest rank ip x := by
  unfold lowest
  split <;> omega

theorem lowest_self (hx : x ≠ ip) : lowest rank ip ip < lowest rank ip x := by
  unfold lowest
  rw [if_pos rfl, if_neg hx]
  omega

theorem LockSys.Graded.lowest (h : s.Graded rank) (hip : s.ent ip = []) : s.Graded (lowest rank ip) := by
  intro x k y hy
  refine lowest_lt ?_ (h x k y hy)
  rintro rfl
  rw [hip] at hy
  cases hy

theorem FsCall.Below.lowest {d : FsCall} (h : d.Below rank) (hok : FsOk s d) (hip : s.type ip ≠ .T_DIR) :
    d.Below (Xv6.lowest rank ip) := by
  induction d with
  | createNew dp nm ip' type | createLink dp nm ip' type => exact lowest_lt (fun he => hip (he ▸ hok.1)) h
  | drop ip' p c ih => exact ih h hok
  | put ip' c ih => exact ih h hok
  | _ => trivial

section
variable (h : LockInv s)
include h

theorem LockInv.alloc {type : IType} (hc : s.call i = some (.creating dp nm type))
    (hdp : s.type dp = .T_DIR) (hip : s.type ip = .T_NONE) :
    LockInv { s.goto i (.createNew dp nm ip type) with type := update s.type ip type } := by
  have hty : type ≠ .T_NONE := h.ok i _ hc
  have hne : dp ≠ ip := by
    rintro rfl
    rw [hdp] at hip
    cases hip
  have hent : s.ent ip = [] := h.nondir ip (by rw [hip]; decide)
  refine h.next hc rfl (fun x => h.self hc x) (fun _ _ _ => Iff.rfl) (pairwise_singleton _ dp) (fun x => ?_)
    (fun _ => .inl rfl)
    (fun x hx => ?_) ⟨?_, update_self .., hty⟩ fun rank hg _ => ⟨lowest rank ip, hg.lowest hent, ?_, fun j d _ hd hb => ?_⟩
  · by_cases hx : x = ip
    · exact .inr (.inl (hx ▸ hip))
    · exact .inl (update_of_ne hx ..)
  · by_cases hxi : x = ip
    · rw [hxi]
      exact hent
    · simp only [update_of_ne hxi] at hx
      exact h.nondir x hx
  · exact (update_of_ne hne ..).trans hdp
  · exact lowest_self hne
  · exact hb.lowest (h.ok j d hd) (by rw [hip]; decide)

theorem LockInv.reclaim {c0 : FsCall} (hc : s.call i = some (.put ip c0)) (hl : s.lastRef i ip c0) :
    LockInv { s.take i ip (.drop ip false c0) with
      type := update s.type ip .T_NONE, ent := update s.ent ip [] } := by
  have hfree : ip ∉ c0.holds := fun hx => hl.1 (c0.holds_uses ip hx)
  have hnd : c0.holds.Nodup := h.nodup i (.put ip c0) hc
  have hok : FsOk s c0 := h.ok i (.put ip c0) hc
  have hunused : ∀ j d, j ≠ i → s.call j = some d → ip ∉ d.uses := fun j d hj hd => hl.2 j (h.bound j d hd) hj d hd
  have hnone : ∀ j, s.lock ip ≠ some j := by
    intro j hj
    obtain ⟨d, hd, hx⟩ := (h.lock ip j).mp hj
    by_cases hji : j = i
    · subst hji
      rw [hc, some.injEq] at hd
      subst hd
      exact hfree hx
    · exact hunused j d hji hd (d.holds_uses ip hx)
  refine h.next hc rfl (fun x => ?_) (fun x j hj => ?_) (nodup_cons.mpr ⟨hfree, hnd⟩) (fun x => ?_) (fun x => ?_)
    (fun x hx => ?_) ?_ fun rank hg hb => ⟨rank, fun x k y hy => ?_, hb, fun _ _ _ _ hd => hd⟩
  · have hs := h.self hc x
    by_cases hx : x = ip
    · simp [LockSys.take, FsCall.holds, hx]
    · simp only [LockSys.take, LockSys.goto, update_of_ne hx, FsCall.holds, mem_cons, hx, false_or]
      exact hs
  · by_cases hx : x = ip
    · simp [LockSys.take, hx, hnone j, Ne.symm hj]
    · simp [LockSys.take, LockSys.goto, hx]
  · by_cases hx : x = ip
    · exact .inr (.inr (hx ▸ hunused))
    · exact .inl (update_of_ne hx ..)
  · by_cases hx : x = ip
    · exact .inr fun j _ => hx ▸ hnone j
    · exact .inl (update_of_ne hx ..)
  · by_cases hxi : x = ip
    · simp [hxi]
    · simp only [update_of_ne hxi] at hx ⊢
      exact h.nondir x hx
  · change FsOk _ c0
    refine hok.frame (fun x hx _ => ?_) fun x hx => ?_
    · have hne : x ≠ ip := fun he => hl.1 (he ▸ hx)
      exact update_of_ne hne ..
    · have hne : x ≠ ip := fun he => hfree (he ▸ hx)
      exact update_of_ne hne ..
  · by_cases hxi : x = ip
    · simp [hxi] at hy
    · simp only [update_of_ne hxi] at hy
      exact hg x k y hy

theorem LockInv.write {ent : Nat → List (Name × Nat)} (hc : s.call i = some c) (hh : c'.holds.Perm c.holds)
    (hent : ∀ x, ent x = s.ent x ∨ x ∈ c.holds) (hdir : ∀ x, s.type x ≠ .T_DIR → ent x = [])
    (hok : FsOk { s with ent := ent } c')
    (hrank : ∀ rank, s.Graded rank → c.Below rank → ∃ rank', LockSys.Graded { s with ent := ent } rank' ∧ c'.Below rank' ∧
      ∀ j d, j ≠ i → s.call j = some d → d.Below rank → d.Below rank') : LockInv { s.goto i c' with ent := ent } := by
  refine h.next hc rfl (fun x => ?_) (fun _ _ _ => Iff.rfl) (hh.nodup_iff.mpr (h.nodup i c hc)) (fun _ => .inl rfl)
    (fun x => ?_)
    hdir (hok.frame (fun _ _ _ => rfl) fun _ _ => rfl) hrank
  · rw [hh.mem_iff]
    exact h.self hc x
  · rcases hent x with he | hx
    · exact .inl he
    · refine .inr fun j hj hl => hj ?_
      rw [(h.self hc x).mpr hx] at hl
      exact (some.inj hl).symm

theorem LockInv.create {type : IType} (hc : s.call i = some (.createLink dp nm ip type)) :
    LockInv { s.goto i (.drop dp true (.drop ip true .done)) with ent := update (update s.ent ip
      (if type = .T_DIR then [(Name.dot, ip), (Name.dotdot, dp)] else [])) dp ((nm, ip) :: s.ent dp) } := by
  obtain ⟨hdp, hty, -⟩ := h.ok i _ hc
  have hne : ip ≠ dp := by
    rintro rfl
    simpa [FsCall.holds] using h.nodup i _ hc
  refine h.write hc (Perm.refl _) (fun x => ?_) (fun x hx => ?_) trivial fun rank hg hb =>
    ⟨rank, fun x k y hy => ?_, trivial, fun _ _ _ _ hd => hd⟩
  · by_cases h1 : x = dp
    · exact .inr (by simp [FsCall.holds, h1])
    · by_cases h2 : x = ip
      · exact .inr (by simp [FsCall.holds, h2])
      · exact .inl (by rw [update_of_ne h1, update_of_ne h2])
  · have h1 : x ≠ dp := fun he => hx (he ▸ hdp)
    rw [update_of_ne h1]
    by_cases h2 : x = ip
    · rw [h2, update_self, if_neg (fun ht => hx (by rw [h2, hty, ht]))]
    · rw [update_of_ne h2]
      exact h.nondir x hx
  · by_cases h1 : x = dp
    · subst h1
      simp only [update_self, mem_cons, Prod.mk.injEq] at hy
      rcases hy with ⟨-, rfl⟩ | hy
      · exact hb
      · exact hg x k y hy
    · simp only [update_of_ne h1] at hy
      by_cases h2 : x = ip
      · subst h2
        split at hy <;> simp at hy
      · rw [update_of_ne h2] at hy
        exact hg x k y hy

theorem LockInv.link (hc : s.call i = some (.linkAt dp nm ip)) (hdp : s.type dp = .T_DIR) :
    LockInv { s.goto i (.drop dp true (.put ip .done)) with ent := update s.ent dp ((nm, ip) :: s.ent dp) } := by
  obtain ⟨hip, -⟩ : s.plain ip := h.ok i _ hc
  have hent : s.ent ip = [] := h.nondir ip hip
  have hne : dp ≠ ip := fun he => hip (he ▸ hdp)
  refine h.write hc (Perm.refl _) (fun x => ?_) (fun x hx => ?_) trivial fun rank hg _ =>
    ⟨lowest rank ip, fun x k y hy => ?_, trivial, fun j d _ hd hb => hb.lowest (h.ok j d hd) hip⟩
  · by_cases h1 : x = dp
    · exact .inr (by simp [FsCall.holds, h1])
    · exact .inl (update_of_ne h1 ..)
  · have h1 : x ≠ dp := fun he => hx (he ▸ hdp)
    rw [update_of_ne h1]
    exact h.nondir x hx
  · by_cases h1 : x = dp
    · subst h1
      simp only [update_self, mem_cons, Prod.mk.injEq] at hy
      rcases hy with ⟨-, rfl⟩ | hy
      · exact lowest_self hne
      · exact hg.lowest hent x k y hy
    · simp only [update_of_ne h1] at hy
      exact hg.lowest hent x k y hy

theorem LockInv.unlink (hc : s.call i = some (.unlinkBoth dp nm ip)) :
    LockInv { s.goto i (.drop dp true (.drop ip true .done)) with ent := update s.ent dp ((s.ent dp).erase (nm, ip)) } := by
  refine h.write hc (Perm.refl _) (fun x => ?_) (fun x hx => ?_) trivial fun rank hg _ => ⟨rank, fun x k y hy => ?_, trivial,
    fun _ _ _ _ hd => hd⟩
  · by_cases h1 : x = dp
    · exact .inr (by simp [FsCall.holds, h1])
    · exact .inl (update_of_ne h1 ..)
  · by_cases h1 : x = dp
    · subst h1
      rw [update_self, h.nondir x hx]
      rfl
    · rw [update_of_ne h1]
      exact h.nondir x hx
  · by_cases h1 : x = dp
    · subst h1
      simp only [update_self] at hy
      exact hg x k y (mem_of_mem_erase hy)
    · simp only [update_of_ne h1] at hy
      exact hg x k y hy

end

/-! ## Calls -/

theorem Then.fail_ok (k : Then) : FsOk s k.fail ∧ k.fail.holds = [] ∧ ∀ rank, k.fail.Below rank := by
  cases k <;> exact ⟨trivial, rfl, fun _ => trivial⟩

theorem Then.found_ok (h : k.Ok s) (ip : Nat) (nm : Name) :
    FsOk s (k.found ip nm) ∧ (k.found ip nm).holds = [] ∧ ∀ rank, (k.found ip nm).Below rank := by
  cases k <;> exact ⟨h, rfl, fun _ => trivial⟩

theorem namexFrom_ok (h : k.Ok s) (ip : Nat) (path : List Name) :
    FsOk s (namexFrom ip path k) ∧ (namexFrom ip path k).holds = [] ∧ ∀ rank, (namexFrom ip path k).Below rank := by
  cases path with
  | nil =>
    unfold namexFrom
    dsimp only
    split
    · exact k.fail_ok
    · exact Then.found_ok h ip .dot
  | cons nm rest => exact ⟨h, rfl, fun _ => trivial⟩

theorem mem_of_dirlookup {es : List (Name × Nat)} (h : dirlookup es nm = some ip) : (nm, ip) ∈ es := by
  obtain ⟨e, he, rfl⟩ := map_eq_some_iff.mp h
  have hname := find?_some he
  rw [decide_eq_true_eq] at hname
  rw [← hname]
  exact mem_of_find?_eq_some he

theorem ialloc_none (h : s.ialloc = some x) : s.type x = .T_NONE := by
  have hx := find?_some h
  simp only [decide_eq_true_eq] at hx
  exact hx.2

theorem LockInv.leave {p : Bool} (h : LockInv s) (hc : s.call i = some c) (hh : c.holds = [ip])
    (hok : FsOk s c' ∧ c'.holds = [] ∧ ∀ rank, c'.Below rank) : LockInv (s.goto i (.drop ip p c')) := by
  refine h.move hc ?_ hok.1 fun rank _ _ => hok.2.2 rank
  rw [hh, FsCall.holds, hok.2.1]

theorem LockInv.wp_seeing {rest : List Name} {b : Bool} (h : LockInv s)
    (hc : s.call i = some (.seeing ip nm rest k)) :
    wp ((FsCall.seeing ip nm rest k).run i b) (fun _ s' => LockInv s') E s := by
  have hk : k.Ok s := h.ok i _ hc
  unfold FsCall.run
  rw [wp_read]
  refine wp_ite (fun _ => wp_put (h.leave hc rfl k.fail_ok)) fun _ => wp_ite (fun _ => ?_) fun _ => ?_
  · exact wp_put (h.leave hc rfl (Then.found_ok hk ip nm))
  · cases dirlookup (s.ent ip) nm with
    | none => exact wp_put (h.leave hc rfl k.fail_ok)
    | some next =>
      cases rest with
      | nil => exact wp_put (h.leave hc rfl (Then.found_ok hk next nm))
      | cons nm' rest => exact wp_put (h.leave hc rfl ⟨hk, rfl, fun _ => trivial⟩)

theorem wp_fsCall {b : Bool} (hE : ∀ e, E e) (h : LockInv s) (hc : s.call i = some c) :
    wp (c.run i b) (fun _ s' => LockInv s') E s := by
  have hok := h.ok i c hc
  have hdone : FsOk s .done ∧ FsCall.done.holds = [] ∧ ∀ rank, FsCall.done.Below rank := ⟨trivial, rfl, fun _ => trivial⟩
  have htouch : ∀ x p, FsOk s (.touch x p) ∧ (FsCall.touch x p).holds = [] ∧ ∀ rank, (FsCall.touch x p).Below rank :=
    fun x p => ⟨trivial, rfl, fun _ => trivial⟩
  cases c with
  | done => exact (wp_modify _).mpr (h.finish hc)
  | drop ip p c => exact (wp_modify _).mpr (h.release hc)
  | put ip c =>
    unfold FsCall.run
    rw [wp_read]
    refine wp_ite (fun hl => wp_put (h.reclaim hc hl.2)) fun _ => wp_put ?_
    exact h.move hc (Perm.refl _) hok fun _ _ hb => hb
  | touch ip p => exact h.wp_ilockTo hc hE (Perm.refl _) (fun _ => trivial) fun _ _ _ => trivial
  | namex ip nm rest k => exact h.wp_ilockTo hc hE (Perm.refl _) (fun _ => hok) fun _ _ _ => trivial
  | seeing ip nm rest k => exact h.wp_seeing hc
  | create dp nm type => exact h.wp_ilockTo hc hE (Perm.refl _) (fun _ => hok) fun _ _ _ => trivial
  | creating dp nm type =>
    unfold FsCall.run
    rw [wp_read]
    refine wp_ite (fun _ => wp_fail (hE _)) fun hd => ?_
    cases dirlookup (s.ent dp) nm with
    | some ip => exact wp_put (h.leave hc rfl (htouch ip true))
    | none =>
      cases ha : s.ialloc with
      | none => exact wp_put (h.leave hc rfl hdone)
      | some ip => exact wp_put (h.alloc hc (not_not.mp hd) (ialloc_none ha))
  | createNew dp nm ip type => exact h.wp_ilockTo hc hE (Perm.swap ..) (fun _ => hok) fun _ _ hb => hb
  | createLink dp nm ip type =>
    unfold FsCall.run
    rw [wp_read]
    refine wp_ite (fun _ => wp_put (h.create hc)) fun _ => wp_put ?_
    exact h.move hc (Perm.swap ..) trivial fun _ _ _ => trivial
  | link ip start path => exact h.wp_ilockTo hc hE (Perm.refl _) (fun ht => ht) fun _ _ _ => trivial
  | linking ip start path =>
    unfold FsCall.run
    rw [wp_read]
    refine wp_ite (fun _ => wp_put (h.leave hc rfl hdone)) fun hd => wp_put ?_
    have hk : Then.Ok s (.new ip) := ⟨hd, hok⟩
    exact h.leave hc rfl (namexFrom_ok hk start path)
  | linkIn dp nm ip => exact h.wp_ilockTo hc hE (Perm.refl _) (fun _ => hok) fun _ _ _ => trivial
  | linkAt dp nm ip =>
    unfold FsCall.run
    rw [wp_read]
    refine wp_ite (fun _ => wp_fail (hE _)) fun hd => ?_
    cases dirlookup (s.ent dp) nm with
    | some ip' => exact wp_put (h.move hc (Perm.refl _) trivial fun _ _ _ => trivial)
    | none =>
      refine wp_ite (fun _ => wp_put (h.link hc (not_not.mp hd))) fun _ => wp_put ?_
      exact h.leave hc rfl (htouch ip true)
  | unlink dp nm => exact h.wp_ilockTo hc hE (Perm.refl _) (fun _ => trivial) fun _ _ _ => trivial
  | unlinking dp nm =>
    unfold FsCall.run
    rw [wp_read]
    refine wp_ite (fun _ => wp_put (h.leave hc rfl hdone)) fun hn => wp_ite (fun _ => wp_fail (hE _)) fun _ => ?_
    cases hl : dirlookup (s.ent dp) nm with
    | none => exact wp_put (h.leave hc rfl hdone)
    | some ip =>
      refine wp_put (h.move hc (Perm.refl _) ⟨?_, mem_of_dirlookup hl⟩ fun _ _ _ => trivial)
      cases nm with
      | dot => exact absurd (.inl rfl) hn
      | dotdot => exact absurd (.inr rfl) hn
      | name k => exact ⟨k, rfl⟩
  | unlinkIp dp nm ip => exact h.wp_ilockTo hc hE (Perm.swap ..) (fun _ => hok) fun _ _ _ => trivial
  | unlinkBoth dp nm ip =>
    unfold FsCall.run
    rw [wp_read]
    refine wp_ite (fun _ => wp_put ?_) fun _ => wp_put (h.unlink hc)
    exact h.move hc (Perm.swap ..) trivial fun _ _ _ => trivial
  | io ip gs => exact h.wp_ilockTo hc hE (Perm.refl _) (fun _ => hok) fun _ _ _ => trivial
  | copying ip gs =>
    have hgs : gs = [] := hok
    subst hgs
    exact (wp_modify _).mpr (h.leave hc rfl hdone)
  | ioFault ip g gs => exact hok.elim

/-! ## Runs -/

theorem LockInv.begin (h : LockInv s) (hi : i < NPROC) (hc : s.call i = none)
    (hok : FsOk s c ∧ c.holds = [] ∧ ∀ rank, c.Below rank) : LockInv (s.goto i c) := by
  obtain ⟨hok, hh, hB⟩ := hok
  have hcases : ∀ {j d}, (s.goto i c).call j = some d → (j = i ∧ d = c) ∨ (j ≠ i ∧ s.call j = some d) := by
    intro j d hd
    by_cases hj : j = i
    · subst hj
      simp only [LockSys.goto, update_self, some.injEq] at hd
      exact .inl ⟨rfl, hd.symm⟩
    · simp only [LockSys.goto, update_of_ne hj] at hd
      exact .inr ⟨hj, hd⟩
  refine ⟨fun x j => ?_, fun j d hd => ?_, fun j d hd => ?_, h.nondir, fun j d hd => ?_, ?_⟩
  · constructor
    · intro hl
      obtain ⟨d, hd, hx⟩ := (h.lock x j).mp hl
      have hj : j ≠ i := by
        rintro rfl
        rw [hc] at hd
        cases hd
      exact ⟨d, (update_of_ne hj ..).trans hd, hx⟩
    · rintro ⟨d, hd, hx⟩
      rcases hcases hd with ⟨-, rfl⟩ | ⟨-, hd⟩
      · rw [hh] at hx
        cases hx
      · exact (h.lock x j).mpr ⟨d, hd, hx⟩
  · rcases hcases hd with ⟨-, rfl⟩ | ⟨-, hd⟩
    · rw [hh]
      exact nodup_nil
    · exact h.nodup j d hd
  · rcases hcases hd with ⟨rfl, -⟩ | ⟨-, hd⟩
    · exact hi
    · exact h.bound j d hd
  · rcases hcases hd with ⟨-, rfl⟩ | ⟨-, hd⟩
    · exact hok.frame (fun _ _ _ => rfl) fun _ _ => rfl
    · exact (h.ok j d hd).frame (fun _ _ _ => rfl) fun _ _ => rfl
  · obtain ⟨rank, hg, hb⟩ := h.rank
    refine ⟨rank, hg, fun j d hd => ?_⟩
    rcases hcases hd with ⟨-, rfl⟩ | ⟨-, hd⟩
    · exact hB rank
    · exact hb j d hd

theorem LockInv.wp_enter (h : LockInv s) (hok : FsOk s c ∧ c.holds = [] ∧ ∀ rank, c.Below rank) :
    wp (enter i c) (fun _ s' => LockInv s') E s := by
  unfold enter
  rw [wp_read]
  refine wp_ite (fun hc => wp_put ?_) fun _ => wp_ret h
  exact h.begin hc.1 (isNone_iff_eq_none.mp hc.2) hok

theorem wp_fsEvent {e : FsEvent} (h : LockInv s) (he : Resident e s) :
    wp e.run (fun _ s' => LockInv s') (fun _ => True) s := by
  cases e with
  | «open» i start path => exact h.wp_enter (namexFrom_ok (k := .open) trivial start path)
  | create i start path type =>
    refine wp_ite (fun _ => wp_ret h) fun ht => ?_
    have hk : Then.Ok s (.create type) := ht
    exact h.wp_enter (namexFrom_ok hk start path)
  | link i start path start' path' => exact h.wp_enter (namexFrom_ok (k := .old start' path') trivial start path)
  | unlink i start path => exact h.wp_enter (namexFrom_ok (k := .unlink) trivial start path)
  | io i ip gs => exact h.wp_enter ⟨he, rfl, fun _ => trivial⟩
  | fault i g => exact h.wp_enter ⟨trivial, rfl, fun _ => trivial⟩
  | step i b =>
    unfold FsEvent.run
    rw [wp_read]
    cases hc : s.call i with
    | none => exact wp_ret h
    | some c => exact wp_fsCall (fun _ => trivial) h hc

theorem LockInv.descends {y : Nat} (h : LockInv s) (hg : s.Graded rank) (hb : c.Below rank)
    (hc : s.call i = some c) (hx : x ∈ c.holds) (hy : c.wants = some y) : rank y < rank x := by
  have hok := h.ok i c hc
  cases c with
  | createNew dp nm ip type =>
    rw [FsCall.wants, some.injEq] at hy
    rw [FsCall.holds, mem_singleton] at hx
    subst hx hy
    exact hb
  | unlinkIp dp nm ip =>
    obtain ⟨⟨k, rfl⟩, hin⟩ := hok
    rw [FsCall.wants, some.injEq] at hy
    rw [FsCall.holds, mem_singleton] at hx
    subst hx hy
    exact hg _ k _ hin
  | ioFault ip g gs => exact hok.elim
  | touch ip p | namex ip nm rest k | create dp nm type | link ip start path | linkIn dp nm ip | unlink dp nm
  | io ip gs => cases hx
  | _ => cases hy

structure LockStart (s : LockSys) : Prop where
  idle : ∀ i, s.call i = none
  free : ∀ ip, s.lock ip = none
  nondir : ∀ ip, s.type ip ≠ .T_DIR → s.ent ip = []
  tree : ∃ rank, s.Graded rank

theorem LockStart.inv (h : LockStart s) : LockInv s := by
  have hno : ∀ {i c}, ¬ s.call i = some c := by
    intro i c hc
    rw [h.idle i] at hc
    cases hc
  obtain ⟨rank, hg⟩ := h.tree
  refine ⟨fun x i => ?_, fun _ _ hc => (hno hc).elim, fun _ _ hc => (hno hc).elim, h.nondir, fun _ _ hc =>
    (hno hc).elim, rank, hg, fun _ _ hc => (hno hc).elim⟩
  rw [h.free x]
  constructor
  · exact fun hx => by cases hx
  · rintro ⟨c, hc, -⟩
    exact (hno hc).elim

theorem LockInv.chain (h : LockInv s) (hg : s.Graded rank) (hb : ∀ i c, s.call i = some c → c.Below rank)
    {j : Nat} (ht : Relation.TransGen s.waits i j) : ∀ d, s.call j = some d → ∀ y, d.wants = some y →
      ∃ c x, s.call i = some c ∧ c.wants = some x ∧ rank y < rank x := by
  have hstep : ∀ {a b}, s.waits a b → ∀ d, s.call b = some d → ∀ y, d.wants = some y →
      ∃ c x, s.call a = some c ∧ c.wants = some x ∧ rank y < rank x := by
    rintro a b ⟨c, hc, x, hx, hl⟩ d hd y hy
    exact ⟨c, x, hc, hx, h.descends hg (hb b d hd) hd ((h.self hd x).mp hl) hy⟩
  induction ht with
  | single hw => exact hstep hw
  | tail _ hw ih =>
    intro d hd y hy
    obtain ⟨c, x, hc, hx, hlt⟩ := hstep hw d hd y hy
    obtain ⟨c', x', hc', hx', hlt'⟩ := ih c hc x hx
    exact ⟨c', x', hc', hx', Nat.lt_trans hlt hlt'⟩

/-- While no `read` and no `write` meets a page of a mapped file that is not resident, no processes wait for each other in a
circle. -/
theorem inode_locks_acyclic {s₀ : LockSys} {tr : List (FsEvent × LockSys)} (h₀ : LockStart s₀)
    (h : Trace FsEvent.run Resident s₀ tr s) (i : Nat) : ¬ Relation.TransGen s.waits i i := by
  have hI : LockInv s := Trace.inv LockInv h₀.inv (fun e s hs he => wp_fsEvent (e := e) hs he) h
  obtain ⟨rank, hg, hb⟩ := hI.rank
  intro hcycle
  obtain ⟨c, hc, x, hx, -⟩ : ∃ c ∈ s.call i, ∃ x ∈ c.wants, True := by
    obtain ⟨j, ⟨c, hc, x, hx, -⟩, -⟩ := Relation.TransGen.head'_iff.mp hcycle
    exact ⟨c, hc, x, hx, trivial⟩
  obtain ⟨c', x', hc', hx', hlt⟩ := hI.chain hg hb hcycle c hc x hx
  rw [mem_def.mp hc, some.injEq] at hc'
  subst hc'
  rw [mem_def.mp hx, some.injEq] at hx'
  subst hx'
  exact Nat.lt_irrefl _ hlt

def twoFiles : LockSys where
  ninodes := 4
  type := fun ip => if ip = 1 then .T_DIR else if ip = 2 ∨ ip = 3 then .T_FILE else .T_NONE
  ent := fun ip => if ip = 1 then [(.dot, 1), (.dotdot, 1), (.name 0, 2), (.name 1, 3)] else []
  lock := fun _ => none
  call := fun _ => none

theorem twoFiles_start : LockStart twoFiles := by
  refine ⟨fun _ => rfl, fun _ => rfl, fun ip hip => ?_, fun x => if x = 1 then 1 else 0, fun x k y hy => ?_⟩
  · have hne : ip ≠ 1 := by
      rintro rfl
      exact hip rfl
    simp [twoFiles, hne]
  · by_cases hx : x = 1
    · simp only [twoFiles, hx, if_true, mem_cons, Prod.mk.injEq, reduceCtorEq, false_and, false_or, not_mem_nil,
        or_false] at hy
      rcases hy with ⟨-, rfl⟩ | ⟨-, rfl⟩ <;> simp [hx]
    · simp [twoFiles, hx] at hy

theorem inode_locks_acyclic_unlink : ∃ s : LockSys, s.waits 0 1 ∧ ¬ Relation.TransGen s.waits 0 0 := by
  have hrun : (runs FsEvent.run Resident ([.unlink 0 1 [.name 0], .io 1 2 [], .step 1 false] ++ replicate 5 (.step 0 false))
      twoFiles).map (fun s => decide (s.waits 0 1)) = some true := by
    decide +kernel
  obtain ⟨tr, s, htr, hw⟩ := Trace.of_map hrun
  exact ⟨s, of_decide_eq_true hw, inode_locks_acyclic twoFiles_start htr 0⟩

/-- A process reads a file into its own mapping of it, and waits for itself; two processes read two files, each into a
mapping of the other's file. -/
theorem inode_locks_circle :
    (∃ tr s, LockStart twoFiles ∧ Trace FsEvent.run (fun _ _ => True) twoFiles tr s ∧ s.waits 0 0) ∧
    ∃ tr s, LockStart twoFiles ∧ Trace FsEvent.run (fun _ _ => True) twoFiles tr s ∧ s.waits 0 1 ∧ s.waits 1 0 := by
  constructor
  · have hrun : (runs FsEvent.run (fun _ _ => True) [.io 0 2 [2], .step 0 false, .step 0 false] twoFiles).map
        (fun s => decide (s.waits 0 0)) = some true := by
      decide +kernel
    obtain ⟨tr, s, htr, hw⟩ := Trace.of_map hrun
    exact ⟨tr, s, twoFiles_start, htr, of_decide_eq_true hw⟩
  · have hrun : (runs FsEvent.run (fun _ _ => True) [.io 0 2 [3], .io 1 3 [2], .step 0 false, .step 1 false, .step 0 false,
        .step 1 false] twoFiles).map (fun s => decide (s.waits 0 1 ∧ s.waits 1 0)) = some true := by
      decide +kernel
    obtain ⟨tr, s, htr, hw⟩ := Trace.of_map hrun
    exact ⟨tr, s, twoFiles_start, htr, of_decide_eq_true hw⟩

end Xv6
