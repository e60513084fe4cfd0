import Xv6.UserSound

/-!
# What writing back a mapped file and closing a file do

As far as the accounting goes, `writei` changes the length and the bytes of
one inode and may fault in pages of the process that calls it.
-/

namespace Xv6

open Hoare Function

variable {i : Inode} {f ip : Nat} {Q : Unit → Vs → Prop}

structure Inode.Mild (i j : Inode) : Prop where
  ref : j.ref = i.ref
  locked : j.locked = i.locked
  typed : i.Typed → j.Typed
  type : j.type = i.type
  nlink : j.nlink = i.nlink
  size : ∀ W, i.Sized W → j.Sized W
  has : ∀ bn, i.Has bn → j.Has bn
  grown : i.size ≤ j.size

theorem Inode.Mild.refl (i : Inode) : i.Mild i := ⟨rfl, rfl, id, rfl, rfl, fun _ => id, fun _ => id, le_rfl⟩

theorem Inode.Mild.trans (h : i.Mild j) (h' : j.Mild k) : i.Mild k :=
  ⟨h'.ref.trans h.ref, h'.locked.trans h.locked, fun ht => h'.typed (h.typed ht), h'.type.trans h.type,
    h'.nlink.trans h.nlink, fun W hs => h'.size W (h.size W hs), fun bn hb => h'.has bn (h.has bn hb),
    le_trans h.grown h'.grown⟩

theorem Inode.Grows.mild (h : i.Grows j) : i.Mild j :=
  ⟨h.ref, h.locked, h.typed, h.type, h.nlink, fun _ => h.sized, h.has, le_of_eq h.size.symm⟩

structure Mild (s s' : Sys) : Prop extends SysRel s s' where
  file : s'.file = s.file
  inode : ∀ ip, (s.inode ip).Mild (s'.inode ip)

section
variable {s s' s'' : Sys}

theorem Mild.refl (s : Sys) : Mild s s := ⟨SysRel.refl s, rfl, fun _ => Inode.Mild.refl _⟩

theorem Mild.trans (h : Mild s s') (h' : Mild s' s'') : Mild s s'' :=
  ⟨h.toSysRel.trans h'.toSysRel, h'.file.trans h.file, fun ip => (h.inode ip).trans (h'.inode ip)⟩

theorem Kept.mild (h : Kept s s') : Mild s s' := ⟨h.toSysRel, h.file, fun ip => (h.inode ip).mild⟩

theorem Still.mild (h : Still s s') : Mild s s' := ⟨h.toSysRel, h.file, fun ip => by rw [h.inode]; exact Inode.Mild.refl _⟩

theorem InodeSet.mild (h : InodeSet s s' ip i) (hM : (s.inode ip).Mild i) : Mild s s' := by
  refine ⟨h.toSysRel, h.file, fun jp => ?_⟩
  rw [h.inode]
  by_cases hj : jp = ip
  · rw [hj, update_self]; exact hM
  · rw [update_of_ne hj]; exact Inode.Mild.refl _

theorem Mild.good (h : Mild s s') (hf : FileGood s E f) : FileGood s' E f := by
  unfold FileGood Stuck at hf ⊢
  have hM := h.inode (s.file f).ip
  rw [h.file, hM.locked, hM.ref, hM.type, h.held]
  exact ⟨hf.1, hf.2.1, hf.2.2.1, hM.size _ hf.2.2.2⟩

theorem Unstopped.mild (h : Unstopped p s E) (hm : Mild s s') : Unstopped p s' E :=
  ⟨by rw [hm.held]; exact h.1, h.2.imp (fun hG i hi hu f hf => hm.good (hG i hi hu f hf)) id⟩

end

variable [Image] {p : Proc} {s : Vs} {R : Finset Nat} {ρ : Owners} {H : Nat → Int} {r : Nat} {E : Stop → Prop}

theorem wp_writeLoop (hp : p.pagetable = some r) (hL : E (.sys .logOutside)) : ∀ (fuel : Nat) {s : Vs} {ρ : Owners}
    {src off n : Nat}
    {Q : Nat → Vs → Prop}, UserOk p s R ρ H r → Unstopped p s.sys E → off + n ≤ MAXFILE * BSIZE → src + n ≤ MAXVA →
    (∀ stop s' ρ', UserOk p s' R ρ' H r → Mild s.sys s'.sys → Filled p s.mem s'.mem R r → stop ≤ off + n →
      (∀ x, off ≤ x → x < stop → (s'.sys.inode ip).Has (x / BSIZE)) → Q stop s') →
        wp (writeLoop p ip true fuel src off n) Q E s
  | 0, s, ρ, src, off, n, Q, hU, _, _, _, h => by
    rw [writeLoop, wp_pure]
    exact h off s ρ hU (Mild.refl _) (Filled.refl ..) (Nat.le_add_right _ _) (by omega)
  | fuel + 1, s, ρ, src, off, n, Q, hU, hS, hmax, hsrc, h => by
    refine wp_ite (fun _ => wp_ret (h off s ρ hU (Mild.refl _) (Filled.refl ..) (Nat.le_add_right _ _) (by omega)))
      fun hn => ?_
    simp only [wp_bind, wp_onSys]
    refine wp_bmap hU.alive hS.1 (.inl ?_) (.inr hL) fun b y1 i1 hI1 hG1 hblock _ => ?_
    · lia
    have hM1 : Mild s.sys y1 := hI1.mild hG1.mild
    refine wp_ite (fun hb => ?_) fun _ => wp_ret ?_
    · simp only [wp_bind, wp_onSys]
      refine wp_disk (hU.alive.rel hI1.toSysRel) (by rw [hI1.held]; exact hS.1) fun y2 hS2 => ?_
      have hM2 := hM1.trans hS2.mild
      have hU2 : UserOk p { s with sys := y2 } R ρ H r := hU.stored hU.inv hM2.toSysRel (Stored.refl _ _ _ _ 0)
      have hk := min_le_left n (BSIZE - off % BSIZE)
      have hkb := min_le_right n (BSIZE - off % BSIZE)
      generalize min n (BSIZE - off % BSIZE) = k at hk hkb
      unfold either_copyin
      simp only [if_true, hp]
      refine wp_copyin hU2 (hS.mild hM2) (fun _ hm => ?_) fun bs ok s3 ρ3 hU3 hR3 _ => ?_
      · exfalso; omega
      have hM3 : Mild s.sys s3.sys := hM2.trans hR3.kept.mild
      have hI4 := (Still.refl s3.sys).set ip fun i => i.write off bs
      have hW4 := hI4.mild ⟨rfl, rfl, id, rfl, rfl, fun _ => id, fun _ => id, le_rfl⟩
      have hM4 := hM3.trans hW4
      simp only [wp_modify]
      have hU4 : UserOk p { s3 with sys := s3.sys.setInode ip fun i => i.write off bs } R ρ3 H r :=
        hU3.stored hU3.inv hI4.toSysRel (Stored.refl _ _ _ _ 0)
      refine wp_ite (fun _ => ?_) fun _ => wp_ret (h off _ ρ3 hU4 hM4 hR3.toFilled (Nat.le_add_right _ _) (by omega))
      refine wp_writeLoop hp hL fuel hU4 (hS.mild hM4) (by omega) (by omega) fun stop s5 ρ5 hU5 hM5 hR5 hle hmore => ?_
      refine h stop s5 ρ5 hU5 (hM4.trans hM5) (hR3.toFilled.trans hR5) (by omega) fun x hx hxs => ?_
      by_cases hxk : x < off + k
      · have hhere : (y1.inode ip).Has (off / BSIZE) := by rw [hI1.at]; exact hblock hb
        rw [show x / BSIZE = off / BSIZE by lia]
        exact (((hS2.mild.trans hR3.kept.mild).trans (hW4.trans hM5)).inode ip).has _ hhere
      · exact hmore x (not_lt.mp hxk) hxs
    · exact h off _ ρ (hU.stored hU.inv hM1.toSysRel (Stored.refl _ _ _ _ 0)) hM1 (Filled.refl ..)
        (Nat.le_add_right _ _) (by omega)

theorem wp_writei {src off n : Nat} {Q : Option Nat → Vs → Prop} (hp : p.pagetable = some r)
    (hL : E (.sys .logOutside)) (hU : UserOk p s R ρ H r)
    (hS : Unstopped p s.sys E) (hoff : off < 2 ^ 32) (hn : n < 2 ^ 32) (hsrc : src + n ≤ MAXVA)
    (h : ∀ res s' ρ', UserOk p s' R ρ' H r → Mild s.sys s'.sys → Filled p s.mem s'.mem R r → Q res s') :
    wp (writei p ip true src off n) Q E s := by
  unfold writei
  rw [wp_read]
  refine wp_ite (fun _ => wp_ret (h none s ρ hU (Mild.refl _) (Filled.refl ..))) fun hc =>
    wp_ite (fun _ => wp_ret (h none s ρ hU (Mild.refl _) (Filled.refl ..))) fun hm => ?_
  simp only [wp_bind]
  refine wp_writeLoop hp hL n hU hS (by omega) hsrc fun stop s1 ρ1 hU1 hM1 hR1 hle hfull => ?_
  simp only [wp_onSys, wp_modify]
  have hI2 := (Still.refl s1.sys).set ip fun i => { i with size := max i.size stop }
  have hM2 := hM1.trans (hI2.mild ⟨rfl, rfl, id, rfl, rfl, fun W hs => ⟨Nat.max_le.mpr ⟨hs.1, by omega⟩, fun hW j hj => ?_⟩,
    fun _ => id, Nat.le_max_left _ _⟩)
  rotate_left
  · have hgrown := (hM1.inode ip).grown
    rw [zero_add]
    rcases lt_or_ge j (s1.sys.inode ip).size with hlt | hge
    · have hold := hs.2 hW j hlt
      rwa [zero_add] at hold
    · exact hfull j (by omega) ((lt_max_iff.mp hj).resolve_left (not_lt.mpr hge))
  refine wp_disk (hU.alive.rel hM2.toSysRel) (by rw [hM2.held]; exact hS.1) fun y3 hS3 => wp_ret ?_
  have hM3 := hM2.trans hS3.mild
  exact h _ _ ρ1 (hU.stored hU1.inv hM3.toSysRel hR1.toStored) hM3 hR1

omit [Image] in
theorem Unstopped.all (hall : ∀ e, E (.sys e)) (y : Sys) : Unstopped p y E :=
  ⟨.inr ⟨hall _, hall _⟩, .inr hall⟩

theorem wp_writebackPage {v : Vma} {r' a : Nat} (hp : p.pagetable = some r)
    (hU : UserOk p s R ρ H r) (hr' : r' ∈ R) (hu : a / 4096 < NUPAGE) (hall : ∀ e, E (.sys e))
    (h : ∀ s' ρ', UserOk p s' R ρ' H r → Mild s.sys s'.sys → Filled p s.mem s'.mem R r → Q () s') :
    wp (writebackPage p v f r' a) Q E s := by
  have hE : ∀ y : Sys, y.held = [] ∨ LockOk fun e => E (.sys e) := fun y => .inr ⟨hall _, hall _⟩
  have hl : ∀ (y : Sys) ip, (y.inode ip).locked = false ∨ Stuck y fun e => E (.sys e) :=
    fun y ip => .inr ⟨⟨hall _, hall _⟩, .inl (hall _)⟩
  have hva : a < MAXVA := by lia
  have hsame : Q () s := h s ρ hU (Mild.refl _) (Filled.refl ..)
  unfold writebackPage
  rw [wp_bind, wp_onMem, wp_walk_read hva]
  cases hlow : low s.mem r' (a / 4096 / 512) with
  | none => exact wp_ret hsame
  | some b =>
    simp only [Option.map_some, wp_bind, wp_onMem, wp_getPte]
    rw [← leaf_of_low hlow]
    refine wp_ite (fun _ => wp_ret hsame) fun hv => ?_
    have hpage := hU.inv.leafPage r' hr' _ hu (by simpa using hv)
    simp only [wp_bind, wp_onSys, wp_get]
    refine wp_begin_op hU.alive (hE _) fun y1 hS1 _ => ?_
    refine wp_ilock (hU.alive.rel hS1.toSysRel) (hE _) (hl _ _) (.inr hall) fun y2 hI2 hfree ht => ?_
    have hR2 := hS1.toSysRel.trans hI2.toSysRel
    have hU2 : UserOk p { s with sys := y2 } R ρ H r := hU.stored hU.inv hR2 (Stored.refl _ _ _ _ 0)
    refine wp_writei hp (hall _) hU2 (Unstopped.all hall _) (Nat.mod_lt _ (by decide)) (by decide) ?_
      fun _ s3 ρ3 hU3 hM3 hR3 => ?_
    · have := hpage.2.2
      lia
    have hat := hM3.inode (y1.file f).ip
    rw [hI2.at] at hat
    refine wp_iunlock (hE _) (.inr (hall _)) fun y4 hI4 => ?_
    have hM4 : Mild y1 y4 := by
      refine ⟨hI2.toSysRel.trans (hM3.toSysRel.trans hI4.toSysRel), hI4.file.trans (hM3.file.trans hI2.file), fun ip => ?_⟩
      rw [hI4.inode]
      by_cases hip : ip = (y1.file f).ip
      · subst hip
        rw [update_self]
        refine ⟨hat.ref, hfree.symm, fun hT => hat.typed fun _ => ?_, hat.type, hat.nlink, hat.size, hat.has, hat.grown⟩
        cases hv : (y1.inode (y1.file f).ip).valid with
        | false => exact ht hv
        | true => exact hT hv
      · rw [update_of_ne hip]
        have := hM3.inode ip
        rwa [hI2.inode, update_of_ne hip] at this
    refine wp_end_op (hU.alive.rel (hS1.toSysRel.trans hM4.toSysRel)) (hE _) (.inr (hall _)) fun y5 hS5 => ?_
    have hM5 := hS1.mild.trans (hM4.trans hS5.mild)
    exact h _ ρ3 (hU.stored hU3.inv hM5.toSysRel hR3.toStored) hM5 hR3

def Vma.WritesBack (v : Vma) : Prop := v.f ≠ none ∧ test v.flags MAP_SHARED = true ∧ test v.prot PROT_WRITE = true

theorem wp_vma_writeback {r' start stop : Nat} (hp : p.pagetable = some r)
    (hU : UserOk p s R ρ H r) (hr' : r' ∈ R) (hal : start % PGSIZE = 0) (hstop : stop ≤ TRAPFRAME NPROC)
    (hall : ∀ e, E (.sys e))
    (h : ∀ s' ρ', UserOk p s' R ρ' H r → Mild s.sys s'.sys → Filled p s.mem s'.mem R r → v.WritesBack ∨ s' = s → Q () s') :
    wp (vma_writeback p v r' start stop) Q E s := by
  have hsame : Q () s := h s ρ hU (Mild.refl _) (Filled.refl ..) (.inr rfl)
  unfold vma_writeback
  cases hf : v.f with
  | none => exact wp_ret hsame
  | some f =>
    refine wp_ite (fun _ => wp_ret hsame) fun hsh => wp_ite (fun _ => wp_ret hsame) fun hw => ?_
    refine wp_post (wp_forN (fun _ s' => ∃ ρ', UserOk p s' R ρ' H r ∧ Mild s.sys s'.sys ∧
      Filled p s.mem s'.mem R r) ⟨ρ, hU, Mild.refl _, Filled.refl ..⟩ ?_)
      fun _ s' ⟨ρ', hU', hM', hR'⟩ => h s' ρ' hU' hM' hR' (.inl ⟨by simp [hf], by simpa using hsh, by simpa using hw⟩)
    rintro i s1 hi ⟨ρ1, hU1, hM1, hR1⟩
    refine wp_writebackPage hp hU1 hr' ?_ hall fun s2 ρ2 hU2 hM2 hR2 => ⟨ρ2, hU2, hM1.trans hM2, hR1.trans hR2⟩
    unfold rounds at hi
    lia

structure Closed (s s' : Sys) (f : Nat) : Prop extends SysRel s s' where
  pos : 1 ≤ (s.file f).ref
  file : s'.file = update s.file f (if 1 < (s.file f).ref then { s.file f with ref := (s.file f).ref - 1 }
    else { s.file f with ref := 0, type := .FD_NONE })
  inode : ((1 < (s.file f).ref ∨ (s.file f).type = .FD_NONE) ∧ s'.inode = s.inode) ∨
    ((s.file f).ref = 1 ∧ (s.file f).type ≠ .FD_NONE ∧ (s'.inode = update s.inode (s.file f).ip
      { s.inode (s.file f).ip with ref := (s.inode (s.file f).ip).ref - 1 } ∨
    ((s.inode (s.file f).ip).ref = 1 ∧ (s.inode (s.file f).ip).nlink = 0 ∧
      s'.inode = update s.inode (s.file f).ip (s.inode (s.file f).ip).freed)))

theorem wp_fileclose (hA : Alive s.sys) (hpipe : (s.sys.file f).type ≠ .FD_PIPE)
    (hft : .ftable ∉ s.sys.held ∨ E (.sys .acquire)) (hpos : 1 ≤ (s.sys.file f).ref ∨ E (.sys .fileclose))
    (hlast : (s.sys.file f).ref = 1 → (s.sys.file f).type ≠ .FD_NONE →
      (s.sys.held = [] ∨ LockOk fun e => E (.sys e)) ∧
      ((s.sys.inode (s.sys.file f).ip).locked = false ∨ Stuck s.sys fun e => E (.sys e)))
    (h : ∀ y, Closed s.sys y f → Q () ⟨y, s.mem⟩) : wp (fileclose f) Q E s := by
  unfold fileclose
  rw [wp_bind, wp_onSys]
  refine wp_filedrop hft hpos (fun y h1 hF => wp_ret (h y ?_)) fun y h1 hF => ?_
  · exact ⟨hF.toSysRel, by omega, by rw [if_pos h1]; exact hF.file, .inl ⟨.inl h1, hF.inode⟩⟩
  have hfile : y.file = update s.sys.file f (if 1 < (s.sys.file f).ref then
      { s.sys.file f with ref := (s.sys.file f).ref - 1 } else { s.sys.file f with ref := 0, type := .FD_NONE }) := by
    rw [if_neg (by omega)]; exact hF.file
  have hput : (s.sys.file f).type ≠ .FD_NONE → wp (onSys (putInode (s.sys.file f).ip)) Q E ⟨y, s.mem⟩ := fun hty => by
    obtain ⟨hE, hl⟩ := hlast h1 hty
    rw [wp_onSys]
    refine wp_putInode (hA.rel hF.toSysRel) (by rw [hF.held]; exact hE) (by unfold Stuck; rw [hF.inode, hF.held]; exact hl)
      fun y' hP => h y' ⟨hF.toSysRel.trans hP.toSysRel, by omega, hP.file.trans hfile, .inr ⟨h1, hty, ?_⟩⟩
    have := hP.inode
    rwa [hF.inode] at this
  dsimp only
  cases hty : (s.sys.file f).type with
  | FD_PIPE => exact absurd hty hpipe
  | FD_NONE => exact wp_ret (h y ⟨hF.toSysRel, by omega, hfile, .inl ⟨.inr hty, hF.inode⟩⟩)
  | FD_INODE | FD_DEVICE => exact hput (by rw [hty]; simp)

end Xv6
