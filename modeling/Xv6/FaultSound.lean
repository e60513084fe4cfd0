import Xv6.CopySound
import Xv6.SysSound
import Xv6.Fault

/-!
# What a page fault does

`vmfault` changes one entry of one table, to a page of its own for the
process, or nothing. The content of every page that is in use stays.
-/

namespace Xv6

open Hoare Function List

variable {e : Pte} {a f pa va : Nat} {m' m1 : Mem} {v : Vma}

/-! ## Copy-on-write -/

theorem ownFlags_has {k : Nat} (hk : k < 8) (h2 : k ≠ 2) : (ownFlags e).has (flag k) = e.has (flag k) := by
  have : ∀ k : Fin 8, k.val ≠ 2 → Pte.has PTE_W (flag k) = false := by decide
  rw [ownFlags, PTE_COW, has_andNot _ (by omega), has_or _ _ (by omega), this ⟨k, hk⟩ h2]
  simp; omega

theorem ownFlags_W (e : Pte) : (ownFlags e).has PTE_W := by
  rw [ownFlags, PTE_COW, PTE_W, has_andNot _ (by omega), has_or _ _ (by omega)]
  rw [show Pte.has (flag 2) (flag 2) by decide]; simp

theorem ownFlags_pa (e : Pte) : PTE2PA (ownFlags e) = PTE2PA e := by
  rw [ownFlags, PTE_COW, PTE2PA_andNot (by omega)]
  refine PTE2PA_congr fun k hk => ?_
  rw [BitVec.getLsbD_or, IsFlags.high (f := PTE_W) (by decide) hk, Bool.or_false]

theorem isFlags_ownFlags {f : Pte} (h : IsFlags f) : IsFlags (ownFlags f) := (h.or (by decide)).andNot _

def copied (f : Nat) (e : Pte) : Pte := PA2PTE f ||| ownFlags (PTE_FLAGS e)

theorem copied_has {k : Nat} (hk : k < 8) (h2 : k ≠ 2) : (copied f e).has (flag k) = e.has (flag k) := by
  rw [copied, has_mk (by omega), ownFlags_has hk h2, has_FLAGS _ (by omega)]

theorem copied_pa (hf : PaOk f) : PTE2PA (copied f e) = f :=
  PTE2PA_mk hf (isFlags_ownFlags (isFlags_FLAGS e))

section
variable [Image] {m : Mem} {R : Finset Nat} {ρ : Owners} {H : Nat → Int} {r : Nat} {E : MemStop → Prop}

section
variable (hI : MemInv m R ρ H) (hH : ∀ a, 0 ≤ H a)
include hI hH

theorem MemInv.fresh_refers {r' n' : Nat} (hf : f ∈ m.freelist) (hr' : r' ∈ R)
    (hn' : n' < NUPAGE) : ¬ Refers (leaf m r' n') f := fun href => by
  have := leafRefs_pos hr' hn' href.1
  rw [href.2, (hI.fresh hH hf).2.2.2.1] at this
  omega

variable {n : Nat} (ha : ρ a = some (r, .low (n / 512))) (hn : n < NUPAGE) (hv : (leaf m r n).has PTE_V = true)
include ha hn hv

theorem MemInv.own (h1 : m.refcnt (pa2idx (PTE2PA (leaf m r n))) = 1) :
    MemInv (m.put a (n % 512) (ownFlags (leaf m r n))) R ρ H ∧
      LeafUpd m (m.put a (n % 512) (ownFlags (leaf m r n))) R r n (ownFlags (leaf m r n)) := by
  have hr := (hI.forest.node a r _ ha).1
  have hp := hI.leafPage r hr n hn hv
  have hcnt := hI.count _ hp
  have hHp := hH (PTE2PA (leaf m r n))
  have hV : (ownFlags (leaf m r n)).has PTE_V := by rw [PTE_V, ownFlags_has (by omega) (by omega)]; exact hv
  obtain ⟨hI1, hL⟩ := hI.put (e := ownFlags (leaf m r n)) ha hn
    (fun _ => by rw [ownFlags_pa]; exact hp) (by
      -- a second entry would be a second reference
      intro _ r' hr' n' hn' hne href
      rw [ownFlags_pa] at href
      have := leafRefs_two hr' hr hn' hn hne href ⟨hv, rfl⟩
      split at hcnt <;> omega)
  refine ⟨?_, hL⟩
  convert hI1 using 1
  funext x
  simp only [Refers, hV, hv, ownFlags_pa]
  exact (Int.add_sub_cancel _ _).symm

theorem MemInv.moveTo {rest : List Nat}
    (hf : m.freelist = f :: rest) :
    let m' := ((m.take f rest).copy f (PTE2PA (leaf m r n))).put a (n % 512) (copied f (leaf m r n))
    MemInv m' R ρ (bump H (PTE2PA (leaf m r n)) 1) ∧ LeafUpd m m' R r n (copied f (leaf m r n)) ∧ Alloc m m' ∧
      m'.data f = m.data (PTE2PA (leaf m r n)) := by
  intro m'
  have hr := (hI.forest.node a r _ ha).1
  have hfm : f ∈ m.freelist := by rw [hf]; exact mem_cons_self
  obtain ⟨hpf, -, -, -, -⟩ := hI.fresh hH hfm
  obtain ⟨hI1, hS1, hA1⟩ := hI.take hH hf
  have hne : PTE2PA (leaf m r n) ≠ f := fun hc => hI.fresh_refers hH hfm hr hn ⟨hv, hc⟩
  have hpaf : PTE2PA (leaf m r n) ∉ m.freelist := fun hc => hI.fresh_refers hH hc hr hn ⟨hv, rfl⟩
  have hV : (copied f (leaf m r n)).has PTE_V := by rw [PTE_V, copied_has (by omega) (by omega)]; exact hv
  have hI2 : MemInv ((m.take f rest).copy f (PTE2PA (leaf m r n))) R ρ (bump H f 1) := hI1.congr rfl rfl rfl
  have hS2 : SameLeaf m ((m.take f rest).copy f (PTE2PA (leaf m r n))) R := hS1
  obtain ⟨hI3, hL⟩ := hI2.put (e := copied f (leaf m r n)) ha hn
    (fun _ => by rw [copied_pa hpf.paOk]; exact hpf) (by
      intro _ r' hr' n' hn' _ href
      rw [hS2 r' hr' n' (NUPAGE_lt hn'), copied_pa hpf.paOk] at href
      exact absurd href (hI.fresh_refers hH hfm hr' hn'))
  refine ⟨?_, fun r' hr' n' hn' => ?_, hA1.write rfl rfl (fun b hb => ?_) rfl, ?_⟩
  · convert hI3 using 1
    funext x
    rw [hS2 r hr n (NUPAGE_lt hn)]
    simp only [Refers, hV, hv, copied_pa hpf.paOk, true_and]
    by_cases hx : x = f
    · subst hx
      rw [bump_self, if_neg hne, if_pos rfl, bump_of_ne _ _ hne.symm]; omega
    · rw [bump_of_ne _ _ hx, if_neg (c := f = x) (fun hc => hx hc.symm)]
      by_cases hx' : x = PTE2PA (leaf m r n)
      · rw [hx', bump_self, if_pos rfl]; omega
      · rw [bump_of_ne _ _ hx', if_neg (fun hc => hx' hc.symm)]; omega
  · rw [hL r' hr' n' hn', hS2 r' hr' n' hn']
  · exact update_of_ne (by rintro rfl; exact hb hfm) _ _
  · change update _ f _ f = _
    rw [update_self]; exact hA1.data _ hpaf

theorem wp_vmfaultCow {Q : Option Nat → Mem → Prop}
    (hnone : ∀ m', MemInv m' R ρ H → SameLeaf m m' R → Grow m m' → m.fails < m'.fails → Q none m')
    (hown : ∀ m', m.refcnt (pa2idx (PTE2PA (leaf m r n))) = 1 → MemInv m' R ρ H →
      LeafUpd m m' R r n (ownFlags (leaf m r n)) → Quiet m m' → Q (some (PTE2PA (leaf m r n))) m')
    (hcopy : ∀ m' f, f ∈ m.freelist → MemInv m' R ρ H → LeafUpd m m' R r n (copied f (leaf m r n)) →
      m'.data f = m.data (PTE2PA (leaf m r n)) → Grow m m' → Q (some f) m') :
    wp (vmfaultCow (a, n % 512)) Q E m := by
  have hr := (hI.forest.node a r _ ha).1
  have hp := hI.leafPage r hr n hn hv
  have hcnt := hI.count _ hp
  have hHp := hH (PTE2PA (leaf m r n))
  have hpaf : PTE2PA (leaf m r n) ∉ m.freelist := fun hc => hI.fresh_refers hH hc hr hn ⟨hv, rfl⟩
  unfold vmfaultCow
  simp only [wp_bind, wp_getPte, hI.pte_eq_leaf ha]
  refine wp_krefcnt hp (wp_ite (fun h1 => ?_) fun h1 => ?_)
  · simp only [wp_bind, wp_getPte, hI.pte_eq_leaf ha, wp_setPte, wp_pure]
    obtain ⟨hI1, hL⟩ := hI.own hH ha hn hv h1
    exact hown _ h1 hI1 hL ⟨rfl, rfl, rfl, rfl⟩
  · refine wp_seq (wp_kalloc (wp_ret ?_) fun f rest hf => ?_)
    · exact hnone _ (hI.congr rfl rfl rfl) (fun _ _ _ _ => rfl) ⟨fun _ _ => rfl, fun _ => id, Nat.le_succ _⟩
        (Nat.lt_succ_self _)
    obtain ⟨hI1, hL1, hA1, hd1⟩ := hI.moveTo hH ha hn hv hf
    obtain ⟨hI0, hS0, -⟩ := hI.take hH hf
    have hpte : ((m.take f rest).copy f (PTE2PA (leaf m r n))).pte a (n % 512) = leaf m r n :=
      (hI0.pte_eq_leaf ha).trans (hS0 r hr n (NUPAGE_lt hn))
    simp only [wp_bind, copyPage, wp_modify, wp_getPte, hpte, wp_setPte, wp_pure]
    rw [show PA2PTE f ||| ownFlags (PTE_FLAGS (leaf m r n)) = copied f (leaf m r n) from rfl]
    -- the page stays in use, for it had two references
    have hmore := hA1.refcnt _ hp hpaf
    obtain ⟨hpos1, hI2, hS2, hR2⟩ := hI1.dropHeld hp (by rw [bump_self]; omega)
    rw [bump_cancel] at hI2
    have h2 : 1 < (((m.take f rest).copy f (PTE2PA (leaf m r n))).put a (n % 512) (copied f (leaf m r n))).refcnt
        (pa2idx (PTE2PA (leaf m r n))) := by rw [hmore]; split at hcnt <;> omega
    have hdrop := Mem.drop_shared h2
    refine wp_kfree hp hpos1 (hcopy _ f (by rw [hf]; exact mem_cons_self) hI2 (fun r' hr' n' hn' => ?_) ?_
      ⟨fun b hb => ?_, ?_, ?_⟩)
    · rw [hS2 r' hr' n' hn', hL1 r' hr' n' hn']
    · rw [hdrop.1]; exact hd1
    · rw [hdrop.1]; exact hA1.data b hb
    · rw [hdrop.2]; exact hA1.free.subset
    · rw [hR2.fails]; exact hA1.fails

end

theorem wp_mapNew {perm : Pte} (hI : MemInv m R ρ H)
    (hH : ∀ a, 0 ≤ H a) (hr : r ∈ R) (hI1 : MemInv m1 R ρ (bump H f 1)) (hS1 : SameLeaf m m1 R) (hA1 : Alloc m m1)
    (hf : f ∈ m.freelist) (hf1 : f ∉ m1.freelist) (hal : va % PGSIZE = 0) (hu : va / 4096 < NUPAGE)
    (hflag : IsFlags perm) (hv : (leaf m r (va / 4096)).has PTE_V = false)
    (hn : ∀ m' ρ', MemInv m' R ρ' H → SameLeaf m m' R → Grow m m' → m.fails < m'.fails → Q none m')
    (hs : ∀ m' ρ', MemInv m' R ρ' H → LeafUpd m m' R r (va / 4096) (mkPte f perm) → m'.data f = m1.data f →
      Grow m m' → Q (some f) m') : wp (mapNew r va f perm) Q E m1 := by
  have hp := (hI.fresh hH hf).1
  have hva : va < MAXVA := by lia
  refine wp_seq (wp_mappages hal (wp_mapPage hI1 hr hva hflag (fun _ => hp) ?_ ?_ ?_ ?_))
  · rw [hS1 r hr _ (NUPAGE_lt hu), hv]; intro hc; cases hc
  · intro _ r' hr' n' hn' href
    rw [hS1 r' hr' n' (NUPAGE_lt hn')] at href
    exact absurd href (hI.fresh_refers hH hf hr' hn')
  · intro m2 ρ2 _ hI2 hL2 hA2
    rw [if_pos hu, bump_cancel] at hI2
    refine wp_ret (hs m2 ρ2 hI2 (fun r' hr' n hn => ?_) (hA2.data f hf1) (hA1.trans hA2).grow)
    rw [hL2 r' hr' n hn, hS1 r' hr' n hn]
  · intro m2 ρ2 hI2 hS2 hA2 hlt2
    simp only [Option.isNone_some, Bool.false_eq_true, if_false, wp_bind, wp_pure]
    obtain ⟨hpos, hI3, hS3, hR3⟩ := hI2.dropHeld hp (by rw [bump_self]; have := hH f; omega)
    rw [bump_cancel] at hI3
    have hA := hA1.trans hA2
    have hlt : m.fails < (m2.drop f).fails := by rw [hR3.fails]; exact lt_of_le_of_lt hA1.fails hlt2
    refine wp_kfree hp hpos (hn _ ρ2 hI3 ((hS1.trans hS2).trans hS3) ⟨fun a ha => ?_, fun a ha => ?_, by omega⟩ hlt)
    · rw [Mem.drop_data_ne (by rintro rfl; exact ha hf)]; exact hA.data a ha
    · rcases mem_cons.mp (Mem.drop_free ha) with h | h
      · rw [h]; exact hf
      · exact hA.free.subset h

theorem wp_vmfaultHeap (hI : MemInv m R ρ H) (hH : ∀ a, 0 ≤ H a) (hr : r ∈ R)
    (hal : va % PGSIZE = 0) (hu : va / 4096 < NUPAGE) (hv : (leaf m r (va / 4096)).has PTE_V = false)
    (hn : ∀ m' ρ', MemInv m' R ρ' H → SameLeaf m m' R → Grow m m' → m.fails < m'.fails → Q none m')
    (hs : ∀ m' ρ' f, f ∈ m.freelist → MemInv m' R ρ' H →
      LeafUpd m m' R r (va / 4096) (mkPte f (PTE_W ||| PTE_U ||| PTE_R)) → m'.data f = (fun _ => 0) → Grow m m' →
      Q (some f) m') : wp (vmfaultHeap r va) Q E m := by
  refine wp_seq (wp_kalloc (wp_ret ?_) fun f rest hf => ?_)
  · exact hn _ ρ (hI.congr rfl rfl rfl) (fun _ _ _ _ => rfl) ⟨fun _ _ => rfl, fun _ => id, Nat.le_succ _⟩
      (Nat.lt_succ_self _)
  have hfm : f ∈ m.freelist := by rw [hf]; exact mem_cons_self
  have hnf : f ∉ rest := by have := hI.freeNodup; rw [hf, nodup_cons] at this; exact this.1
  obtain ⟨hI1, hS1, hA1⟩ := hI.takeZero hH hf
  simp only [wp_bind, wp_memzero]
  refine wp_mapNew hI hH hr hI1 hS1 hA1 hfm hnf hal hu (by decide) hv hn fun m' ρ' hI' hL hd hG =>
    hs m' ρ' f hfm hI' hL ?_ hG
  rw [hd]; exact update_self ..

end

/-! ## Pages of files -/

theorem splice_nil (b : Nat → UInt8) (i : Nat) : splice b i [] = b := by
  funext j; unfold splice; rw [if_neg (by simp)]

theorem Mem.write_data_self (m : Mem) (pa i : Nat) (bs : List UInt8) :
    (m.write pa i bs).data pa = splice (m.data pa) i bs := by simp [Mem.write]

theorem Mem.write_data_ne (m : Mem) (i : Nat) (bs : List UInt8) (h : a ≠ pa) :
    (m.write pa i bs).data a = m.data a := by simp [Mem.write, update_of_ne h]

theorem Mem.write_nil (m : Mem) (pa i : Nat) : m.write pa i [] = m := by
  unfold Mem.write; rw [splice_nil, update_eq_self]

@[simp] theorem wp_onMem {α : Type} {x : M α} {Q : α → Vs → Prop} {E : Stop → Prop} {s : Vs} :
    wp (onMem x) Q E s ↔ wp x (fun a m => Q a { s with mem := m }) (fun e => E (.mem e)) s.mem := wp_zoom ..

@[simp] theorem wp_onSys {α : Type} {x : F α} {Q : α → Vs → Prop} {E : Stop → Prop} {s : Vs} :
    wp (onSys x) Q E s ↔ wp x (fun a y => Q a { s with sys := y }) (fun e => E (.sys e)) s.sys := wp_zoom ..

@[simp] theorem wp_readBytes :
    wp (readBytes pa i n) Q E m ↔ Q ((range n).map fun j => m.data pa (i + j)) m := by simp [readBytes]

@[simp] theorem wp_writeBytes {i : Nat} {bs : List UInt8} {m : Mem} {Q : Unit → Mem → Prop} {E : MemStop → Prop} :
    wp (writeBytes pa i bs) Q E m ↔ Q () (m.write pa i bs) := by simp [writeBytes]

def FileBytes (s : Sys) (f off : Nat) (bs : List UInt8) : Prop :=
  if off < (s.inode (s.file f).ip).size then
    bs.length = min PGSIZE ((s.inode (s.file f).ip).size - off) ∧ (s.inode (s.file f).ip).Reads (off % 2 ^ 32) bs
  else bs = []

def FileWhole (s : Sys) (f : Nat) : Prop :=
  (s.inode (s.file f).ip).size ≤ MAXFILE * BSIZE ∧ (s.inode (s.file f).ip).Full 0 (s.inode (s.file f).ip).size

def Vma.Page (v : Vma) (s : Sys) (va : Nat) (bs : List UInt8) : Prop :=
  match v.f with
  | none => bs = []
  | some f => FileBytes s f ((v.off + (va - v.addr)) % 2 ^ 64) bs

section
variable {s : Vs} {E : Stop → Prop} {Q : Option Nat → Vs → Prop} {p : Proc} {read : Bool}

theorem wp_readPage {mem : Nat} {Q : Bool → Vs → Prop} (hA : Alive s.sys)
    (hE : s.sys.held = [] ∨ LockOk fun e => E (.sys e)) (hG : FileGood s.sys (fun e => E (.sys e)) f ∨ ∀ e, E (.sys e))
    (h : ∀ b y bs, Kept s.sys y → (b = true → FileBytes s.sys f ((v.off + (va - v.addr)) % 2 ^ 64) bs) →
      (FileWhole s.sys f → b = true) → Q b ⟨y, s.mem.write mem 0 bs⟩) : wp (readPage v va f mem) Q E s := by
  unfold readPage
  simp only [wp_bind, wp_get, wp_onSys]
  refine wp_ilock hA hE (hG.elim And.left fun hG => .inr ⟨⟨hG _, hG _⟩, .inl (hG _)⟩)
    (hG.imp (fun hG => ⟨hG.2.1, hG.2.2.1⟩) id) fun y1 hI1 hl ht => ?_
  have htype : (s.sys.inode (s.sys.file f).ip).Typed → (s.sys.inode (s.sys.file f).ip).type ≠ 0 := fun hT => by
    cases hv : (s.sys.inode (s.sys.file f).ip).valid with
    | false => exact ht hv
    | true => exact hT hv
  simp only [hI1.at]
  have hE1 : y1.held = [] ∨ LockOk fun e => E (.sys e) := by rw [hI1.held]; exact hE
  refine wp_ite (fun hlt => ?_) fun hlt => ?_
  · simp only [wp_bind, wp_onSys]
    refine wp_readi (hA.rel hI1.toSysRel) hE1 (hG.imp (fun hG => ?_) fun hG => ⟨hG _, hG _⟩)
      fun bs y2 i hI2 hGr hlen hR hall => ?_
    · rw [hI1.at]
      refine ⟨Nat.mod_lt _ (by omega), ?_, hG.2.2.2⟩
      have := hG.2.2.2.1
      simp only [MAXFILE, NDIRECT, NINDIRECT, BSIZE, PGSIZE] at *
      split <;> omega
    have hI2' := hI1.trans hI2
    rw [hI1.at] at hGr hR hall
    simp only [wp_onMem, wp_writeBytes]
    refine wp_iunlock (by rw [hI2'.held]; exact hE) ?_ fun y3 hI3 => wp_ret ?_
    · rw [hI2'.at, hGr.locked, hGr.ref]
      exact hG.imp (fun hG => ⟨rfl, hG.2.1⟩) fun hG => hG _
    have hI3' := hI2'.trans hI3
    rw [hI2'.at] at hI3'
    refine h _ y3 bs (hI3'.kept ⟨hGr.ref, hl.symm, fun _ => hGr.valid rfl, fun hT => hGr.typed fun _ => htype hT,
      hGr.type, hGr.nlink, hGr.size, hGr.has, hGr.byte⟩) (fun hb => ?_) fun hw => decide_eq_true (hall ?_ ?_ ?_)
    · unfold FileBytes
      rw [if_pos hlt]
      refine ⟨?_, hR⟩
      rw [of_decide_eq_true hb]
      split <;> omega
    all_goals
      have hmax := hw.1
      rw [Nat.mod_eq_of_lt (lt_trans (lt_of_lt_of_le hlt hmax) (by decide))]
    · simp only [MAXFILE, NDIRECT, NINDIRECT, BSIZE, PGSIZE] at *
      split <;> omega
    · simp only [PGSIZE]
      split <;> omega
    · intro j hj
      rw [← zero_add ((v.off + (va - v.addr)) % 2 ^ 64), add_assoc]
      refine hw.2 _ (lt_of_lt_of_le (Nat.add_lt_add_left hj _) ?_)
      split <;> omega
  · simp only [wp_bind, wp_onSys]
    refine wp_iunlock hE1 ?_ fun y2 hI2 => wp_ret ?_
    · rw [hI1.at]
      exact hG.imp (fun hG => ⟨rfl, hG.2.1⟩) fun hG => hG _
    have hI2' := hI1.trans hI2
    rw [hI1.at] at hI2'
    have := h true y2 [] (hI2'.kept ⟨rfl, hl.symm, fun _ => rfl, fun hT _ => htype hT, rfl, rfl, rfl, fun _ => id,
      fun _ => rfl⟩) (fun _ => by unfold FileBytes; rw [if_neg hlt]) fun _ => rfl
    rwa [Mem.write_nil] at this

def Proc.FilesGood (p : Proc) (s : Sys) (E : SysStop → Prop) : Prop :=
  ∀ i < MAXVMA, (p.vmas i).used = true → ∀ f, (p.vmas i).f = some f → FileGood s E f

theorem Proc.FilesGood.kept {t u : Sys} {E : SysStop → Prop} (h : p.FilesGood t E) (hk : Kept t u) :
    p.FilesGood u E :=
  fun i hi hu f hf => hk.good (h i hi hu f hf)

theorem wp_fillPage {mem : Nat} {Q : Bool → Vs → Prop} (hA : Alive s.sys)
    (hE : s.sys.held = [] ∨ LockOk fun e => E (.sys e))
    (hG : (∀ f, v.f = some f → FileGood s.sys (fun e => E (.sys e)) f) ∨ ∀ e, E (.sys e))
    (h : ∀ b y bs, Kept s.sys y → (b = true → v.Page s.sys va bs) → ((∀ f, v.f = some f → FileWhole s.sys f) → b = true) →
      Q b ⟨y, s.mem.write mem 0 bs⟩) :
    wp (fillPage v va mem) Q E s := by
  unfold fillPage
  cases hf : v.f with
  | none =>
    have := h true s.sys [] (Kept.refl _) (fun _ => by unfold Vma.Page; rw [hf]) fun _ => rfl
    rw [Mem.write_nil] at this
    exact wp_ret this
  | some f =>
    refine wp_readPage hA hE (hG.imp (fun hG => hG f hf) id) fun b y bs hk hb hw => h b y bs hk (fun ht => ?_)
      fun hall => hw (hall f hf)
    unfold Vma.Page; rw [hf]; exact hb ht

theorem mem_vmaAt (h : p.vmaAt va = some v) :
    ∃ i < MAXVMA, v = p.vmas i ∧ v.used ∧ v.addr ≤ va ∧ va < (v.addr + v.len) % 2 ^ 64 := by
  obtain ⟨i, hi, rfl⟩ := mem_map.mp (mem_of_find?_eq_some h)
  have hc := find?_some h
  simp only [Vma.covers, decide_eq_true_eq] at hc
  exact ⟨i, mem_range.mp hi, rfl, hc.1, hc.2.1, hc.2.2⟩

def Vma.Placed (v : Vma) : Prop :=
  v.addr % PGSIZE = 0 ∧ v.len % PGSIZE = 0 ∧ v.addr + v.len ≤ TRAPFRAME NPROC

structure Proc.Bounded (p : Proc) : Prop where
  sz : p.sz ≤ TRAPFRAME NPROC
  vma : ∀ i < MAXVMA, (p.vmas i).used = true → (p.vmas i).Placed

theorem vmaPerm_flags (prot : Nat) : IsFlags (vmaPerm prot) := by
  unfold vmaPerm
  cases test prot PROT_READ <;> cases test prot PROT_WRITE <;> cases test prot PROT_EXEC <;> decide

/-! ## `vmfault` -/

def KernOk (m : Mem) (R : Finset Nat) : Prop :=
  ∀ r ∈ R, ∀ n, NUPAGE ≤ n → n < 512 * 512 * 512 → (leaf m r n).has PTE_U = false ∧ (leaf m r n).has PTE_COW = false ∧
    ((leaf m r n).has PTE_V = true → (leaf m r n).has (PTE_R ||| PTE_W ||| PTE_X) = true)

variable [Image]

def Vma.Refuses (v : Vma) (s : Sys) (read : Bool) : Prop :=
  (if read then test v.prot (PROT_READ ||| PROT_EXEC) else test v.prot PROT_WRITE) = false ∨
    ∃ f, v.f = some f ∧ ¬ FileWhole s f

/-- What `vmfault` of page `n` in the table at `r` did, and gave. -/
inductive Outcome (p : Proc) (s s' : Vs) (R : Finset Nat) (r n : Nat) (read : Bool) : Option Nat → Prop
  | refused (same : SameLeaf s.mem s'.mem R)
      (why : s.mem.fails < s'.mem.fails ∨
        ((leaf s.mem r n).has PTE_V = true ∧ (read = true ∨ (leaf s.mem r n).has PTE_COW = false)) ∨
        ((leaf s.mem r n).has PTE_V = false ∧ p.sz ≤ n * PGSIZE ∧ ∀ v, p.vmaAt (n * PGSIZE) = some v →
          v.Refuses s.sys read)) : Outcome p s s' R r n read none
  | own (hv : (leaf s.mem r n).has PTE_V = true) (hc : read = false ∧ (leaf s.mem r n).has PTE_COW = true)
      (one : s.mem.refcnt (pa2idx (PTE2PA (leaf s.mem r n))) = 1)
      (upd : LeafUpd s.mem s'.mem R r n (ownFlags (leaf s.mem r n))) :
      Outcome p s s' R r n read (some (PTE2PA (leaf s.mem r n)))
  | copy (f : Nat) (hv : (leaf s.mem r n).has PTE_V = true) (hc : read = false ∧ (leaf s.mem r n).has PTE_COW = true)
      (free : f ∈ s.mem.freelist) (upd : LeafUpd s.mem s'.mem R r n (copied f (leaf s.mem r n)))
      (data : s'.mem.data f = s.mem.data (PTE2PA (leaf s.mem r n))) : Outcome p s s' R r n read (some f)
  | heap (f : Nat) (hv : (leaf s.mem r n).has PTE_V = false) (lt : n * PGSIZE < p.sz) (free : f ∈ s.mem.freelist)
      (upd : LeafUpd s.mem s'.mem R r n (mkPte f (PTE_W ||| PTE_U ||| PTE_R)))
      (data : s'.mem.data f = fun _ => 0) : Outcome p s s' R r n read (some f)
  | file (f : Nat) (v : Vma) (bs : List UInt8) (hv : (leaf s.mem r n).has PTE_V = false) (le : p.sz ≤ n * PGSIZE)
      (at_ : p.vmaAt (n * PGSIZE) = some v)
      (prot : (if read then test v.prot (PROT_READ ||| PROT_EXEC) else test v.prot PROT_WRITE) = true)
      (page : v.Page s.sys (n * PGSIZE) bs) (free : f ∈ s.mem.freelist)
      (upd : LeafUpd s.mem s'.mem R r n (mkPte f (vmaPerm v.prot)))
      (data : s'.mem.data f = splice (fun _ => 0) 0 bs) : Outcome p s s' R r n read (some f)

structure Faulted (p : Proc) (s s' : Vs) (R : Finset Nat) (r n : Nat) (read : Bool) (res : Option Nat) : Prop where
  kept : Kept s.sys s'.sys
  grow : Grow s.mem s'.mem
  user : res ≠ none → n < NUPAGE
  out : Outcome p s s' R r n read res

variable {R : Finset Nat} {ρ : Owners} {H : Nat → Int} {r : Nat}

variable (hI : MemInv s.mem R ρ H) (hH : ∀ a, 0 ≤ H a) (hr : r ∈ R)
include hI hH hr

theorem wp_vmfaultVma {n : Nat} (hA : Alive s.sys) (hu : n < NUPAGE)
    (hv : (leaf s.mem r n).has PTE_V = false) (hle : p.sz ≤ n * PGSIZE) (hat : p.vmaAt (n * PGSIZE) = some v)
    (hE : s.sys.held = [] ∨ LockOk fun e => E (.sys e))
    (hG : (∀ f, v.f = some f → FileGood s.sys (fun e => E (.sys e)) f) ∨ ∀ e, E (.sys e))
    (h : ∀ s' ρ' res, MemInv s'.mem R ρ' H → Faulted p s s' R r n read res → Q res s') :
    wp (vmfaultVma v r (n * PGSIZE) read) Q E s := by
  have hno : v.Refuses s.sys read → ∀ w, p.vmaAt (n * PGSIZE) = some w → w.Refuses s.sys read := fun hx w hw => by
    rw [hat] at hw
    exact Option.some.inj hw ▸ hx
  refine wp_ite (fun hprot => wp_ret ?_) fun hprot => ?_
  · exact h s ρ none hI ⟨Kept.refl _, Grow.refl _, by simp,
      .refused (SameLeaf.refl _ _) (.inr (.inr ⟨hv, hle, hno (.inl (by simpa using hprot))⟩))⟩
  simp only [wp_bind, wp_onMem]
  refine wp_kalloc (wp_ret ?_) fun f rest hf => ?_
  · exact h _ ρ none (hI.congr rfl rfl rfl) ⟨Kept.refl _, ⟨fun _ _ => rfl, fun _ => id, Nat.le_succ _⟩, by simp,
      .refused (fun _ _ _ _ => rfl) (.inl (Nat.lt_succ_self _))⟩
  have hfm : f ∈ s.mem.freelist := by rw [hf]; exact mem_cons_self
  have hnf : f ∉ rest := by have := hI.freeNodup; rw [hf, nodup_cons] at this; exact this.1
  have hpf := (hI.fresh hH hfm).1
  obtain ⟨hI1, hS1, hA1⟩ := hI.takeZero hH hf
  simp only [wp_bind, wp_onMem, wp_memzero]
  refine wp_fillPage hA hE hG fun b y bs hk hb hw => ?_
  -- filling the page changes its bytes only
  generalize hm2 : ((s.mem.take f rest).fill f 0).write f 0 bs = m2
  have hI2 : MemInv m2 R ρ (bump H f 1) := by rw [← hm2]; exact hI1.congr rfl rfl rfl
  have hS2 : SameLeaf s.mem m2 R := by rw [← hm2]; exact hS1
  have hA2 : Alloc s.mem m2 := by
    rw [← hm2]
    exact hA1.write rfl rfl (fun a ha => update_of_ne (by rintro rfl; exact ha hfm) _ _) rfl
  have hd2 : m2.data f = splice (fun _ => 0) 0 bs := by
    rw [← hm2]
    simp only [Mem.write, Mem.fill, update_self]
  have hf2 : f ∉ m2.freelist := by rw [← hm2]; exact hnf
  refine wp_ite (fun ht => ?_) fun hf => ?_
  · rw [wp_onMem]
    refine wp_mapNew hI hH hr hI2 hS2 hA2 hfm hf2 (by lia) (by rw [page_div]; exact hu)
      (vmaPerm_flags _) (by rw [page_div]; exact hv) ?_ ?_
    · intro m' ρ' hI' hS' hGr hlt
      exact h ⟨y, m'⟩ ρ' none hI' ⟨hk, hGr, by simp, .refused hS' (.inl hlt)⟩
    · intro m' ρ' hI' hL hd hGr
      rw [page_div] at hL
      exact h ⟨y, m'⟩ ρ' _ hI' ⟨hk, hGr, fun _ => hu, .file f v bs hv hle hat (by simpa using hprot) (hb ht) hfm hL
        (hd.trans hd2)⟩
  · simp only [wp_bind, wp_onMem, wp_pure]
    obtain ⟨hpos, hI3, hS3, hR3⟩ := hI2.dropHeld hpf (by rw [bump_self]; have := hH f; omega)
    rw [bump_cancel] at hI3
    refine wp_kfree hpf hpos (h _ ρ none hI3 ⟨hk, ⟨fun a ha => ?_, fun a ha => ?_, ?_⟩, by simp,
      .refused (hS2.trans hS3) (.inr (.inr ⟨hv, hle, hno (.inr ?_)⟩))⟩)
    · rw [Mem.drop_data_ne (by rintro rfl; exact ha hfm)]; exact hA2.data a ha
    · rcases mem_cons.mp (Mem.drop_free ha) with h | h
      · rw [h]; exact hfm
      · exact hA2.free.subset h
    · rw [hR3.fails]; exact hA2.fails
    · by_contra hc
      exact hf (hw fun f hf => by_contra fun hx => hc ⟨f, hf, hx⟩)

theorem wp_vmfaultNew {n : Nat} (hp : p.Bounded) (hA : Alive s.sys) (hv : (leaf s.mem r n).has PTE_V = false)
    (hE : s.sys.held = [] ∨ LockOk fun e => E (.sys e)) (hG : p.FilesGood s.sys (fun e => E (.sys e)) ∨ ∀ e, E (.sys e))
    (h : ∀ s' ρ' res, MemInv s'.mem R ρ' H → Faulted p s s' R r n read res → Q res s') :
    wp (vmfaultNew p r (n * PGSIZE) read) Q E s := by
  refine wp_ite (fun hlt => ?_) fun hge => ?_
  · have hu : n < NUPAGE := by
      have := hp.sz
      lia
    rw [wp_onMem]
    refine wp_vmfaultHeap hI hH hr (by lia) (by rw [page_div]; exact hu) (by rw [page_div]; exact hv) ?_ ?_
    · intro m' ρ' hI' hS' hGr hf
      exact h ⟨s.sys, m'⟩ ρ' none hI' ⟨Kept.refl _, hGr, by simp, .refused hS' (.inl hf)⟩
    · intro m' ρ' f hf hI' hL hd hGr
      rw [page_div] at hL
      exact h ⟨s.sys, m'⟩ ρ' _ hI' ⟨Kept.refl _, hGr, fun _ => hu, .heap f hv hlt hf hL hd⟩
  · have hle : p.sz ≤ n * PGSIZE := not_lt.mp hge
    cases hat : p.vmaAt (n * PGSIZE) with
    | none =>
      exact wp_ret (h s ρ none hI ⟨Kept.refl _, Grow.refl _, by simp,
        .refused (SameLeaf.refl _ _) (.inr (.inr ⟨hv, hle, by simp [hat]⟩))⟩)
    | some v =>
      obtain ⟨i, hi, rfl, hused, hlo, hhi⟩ := mem_vmaAt hat
      have hpl := hp.vma i hi hused
      have hu : n < NUPAGE := by
        have := hpl.2.2
        lia
      exact wp_vmfaultVma hI hH hr hA hu hv hle hat hE (hG.imp (fun hG f hf => hG i hi hused f hf) id) h

theorem wp_vmfault (hp : p.Bounded) (hA : Alive s.sys)
    (hkern : KernOk s.mem R)
    (hwalk : MAXVA ≤ va → E (.mem (.panic .walk)))
    (hE : s.sys.held = [] ∨ LockOk fun e => E (.sys e)) (hG : p.FilesGood s.sys (fun e => E (.sys e)) ∨ ∀ e, E (.sys e))
    (h : ∀ s' ρ' res, va < MAXVA → MemInv s'.mem R ρ' H → Faulted p s s' R r (va / PGSIZE) read res → Q res s') :
    wp (vmfault p r va read) Q E s := by
  unfold vmfault
  simp only [wp_bind, wp_onMem, PGROUNDDOWN]
  by_cases hva : va < MAXVA
  · have hva' : va / PGSIZE * PGSIZE < MAXVA := by lia
    have hlt : va / PGSIZE < 512 * 512 * 512 := by lia
    have hnew : (leaf s.mem r (va / PGSIZE)).has PTE_V = false →
        wp (vmfaultNew p r (va / PGSIZE * PGSIZE) read) Q E s := fun hv =>
      wp_vmfaultNew hI hH hr hp hA hv hE hG fun s' ρ' res => h s' ρ' res hva
    rw [wp_walk_read hva', page_div]
    cases hl : low s.mem r (va / PGSIZE / 512) with
    | none => exact hnew (by rw [leaf_of_none hl]; simp)
    | some a =>
      have ha := hI.forest.low hr (by omega) hl
      simp only [Option.map_some, wp_bind, wp_onMem, wp_getPte, hI.pte_eq_leaf ha]
      refine wp_ite (fun hv => wp_ite (fun hc => ?_) fun hc => wp_ret ?_) fun hv => hnew (by simpa using hv)
      · have hc' : read = false ∧ (leaf s.mem r (va / PGSIZE)).has PTE_COW := by simpa using hc
        have hu : va / PGSIZE < NUPAGE := by
          by_contra hcon
          have := (hkern r hr _ (not_lt.mp hcon) hlt).2.1
          rw [hc'.2] at this; cases this
        rw [wp_onMem]
        refine wp_vmfaultCow hI hH ha hu hv ?_ ?_ ?_
        · intro m' hI' hS' hGr hf
          exact h ⟨s.sys, m'⟩ ρ none hva hI' ⟨Kept.refl _, hGr, by simp, .refused hS' (.inl hf)⟩
        · intro m' h1 hI' hL hQ
          exact h ⟨s.sys, m'⟩ ρ _ hva hI' ⟨Kept.refl _, hQ.alloc.grow, fun _ => hu, .own hv hc' h1 hL⟩
        · intro m' f hf hI' hL hd hGr
          exact h ⟨s.sys, m'⟩ ρ _ hva hI' ⟨Kept.refl _, hGr, fun _ => hu, .copy f hv hc' hf hL hd⟩
      · refine h s ρ none hva hI ⟨Kept.refl _, Grow.refl _, by simp, .refused (SameLeaf.refl _ _) (.inr (.inl ⟨hv, ?_⟩))⟩
        cases read
        · simpa using hc
        · exact .inl rfl
  · unfold walk
    have : MAXVA ≤ va / PGSIZE * PGSIZE := by lia
    rw [if_pos this]
    exact wp_fail (hwalk (not_lt.mp hva))

end

/-! ## What a fault means for the tables -/

def Touched (m m' : Mem) (R : Finset Nat) (r : Nat) : Prop :=
  ∀ r' ∈ R, ∀ n < 512 * 512 * 512, leaf m' r' n = leaf m r' n ∨ (r' = r ∧ n < NUPAGE ∧
    (leaf m' r' n).has PTE_V = true ∧ (leaf m' r' n).has (PTE_R ||| PTE_W ||| PTE_X) = true)

theorem SameLeaf.touched (h : SameLeaf m m' R) (r : Nat) : Touched m m' R r :=
  fun r' hr' n hn => .inl (h r' hr' n hn)

theorem Touched.refl (m : Mem) (R : Finset Nat) (r : Nat) : Touched m m R r := (SameLeaf.refl m R).touched r

theorem Touched.trans {m2 m3 : Mem} {R : Finset Nat} {r : Nat} (h : Touched m1 m2 R r) (h' : Touched m2 m3 R r) :
    Touched m1 m3 R r := by
  intro r' hr' n hn
  rcases h' r' hr' n hn with h1 | h1
  · rw [h1]; exact h r' hr' n hn
  · exact .inr h1

theorem KernOk.touched (h : KernOk m R) (ht : Touched m m' R r) : KernOk m' R := by
  intro r' hr' n hn hlt
  rcases ht r' hr' n hlt with h1 | h1
  · rw [h1]; exact h r' hr' n hn hlt
  · omega

theorem LeafUpd.touched (h : LeafUpd m m' R r n e) (hn : n < NUPAGE)
    (hv : e.has PTE_V) (hx : e.has (PTE_R ||| PTE_W ||| PTE_X)) : Touched m m' R r := by
  intro r' hr' n' hn'
  by_cases hc : r' = r ∧ n' = n
  · rw [h r' hr' n' hn', if_pos hc]
    exact .inr ⟨hc.1, by omega, hv, hx⟩
  · exact .inl (by rw [h r' hr' n' hn', if_neg hc])

/-- The bytes that page `n` of the table at `r` shows; a page not mapped yet shows zeroes. -/
def view (m : Mem) (r n : Nat) : Nat → UInt8 :=
  if (leaf m r n).has PTE_V then m.data (PTE2PA (leaf m r n)) else fun _ => 0

def SameView (m m' : Mem) (R : Finset Nat) : Prop := ∀ r ∈ R, ∀ n < NUPAGE, view m' r n = view m r n

theorem SameView.trans {m2 m3 : Mem} {R : Finset Nat} (h : SameView m1 m2 R) (h' : SameView m2 m3 R) :
    SameView m1 m3 R := fun r hr n hn => (h' r hr n hn).trans (h r hr n hn)

theorem rwx_of_W (h : e.has PTE_W) : e.has (PTE_R ||| PTE_W ||| PTE_X) := by
  rw [has_or_right, has_or_right, h]; simp

theorem vmaPerm_W (prot : Nat) : (vmaPerm prot).has PTE_W = test prot PROT_WRITE := by
  unfold vmaPerm
  cases test prot PROT_READ <;> cases test prot PROT_WRITE <;> cases test prot PROT_EXEC <;> decide

theorem vmaPerm_U (prot : Nat) : (vmaPerm prot).has PTE_U := by
  unfold vmaPerm
  cases test prot PROT_READ <;> cases test prot PROT_WRITE <;> cases test prot PROT_EXEC <;> decide

theorem vmaPerm_rwx {prot : Nat} (h : test prot PROT_READ ∨ test prot PROT_WRITE ∨ test prot PROT_EXEC) :
    (vmaPerm prot).has (PTE_R ||| PTE_W ||| PTE_X) := by
  revert h
  unfold vmaPerm
  cases test prot PROT_READ <;> cases test prot PROT_WRITE <;> cases test prot PROT_EXEC <;> decide

theorem test_or (x f g : Nat) : test x (f ||| g) = (test x f || test x g) := by
  unfold test
  rw [Nat.and_or_distrib_left]
  by_cases hf : x &&& f = 0
  · simp [hf]
  · have : x &&& f ||| x &&& g ≠ 0 := fun hc => hf (Nat.or_eq_zero_iff.mp hc).1
    rw [bne_iff_ne.mpr hf, bne_iff_ne.mpr this]; rfl

theorem mkPte_rwx {perm : Pte} :
    (mkPte pa perm).has (PTE_R ||| PTE_W ||| PTE_X) = perm.has (PTE_R ||| PTE_W ||| PTE_X) := by
  simp only [has_or_right, PTE_R, PTE_W, PTE_X]
  rw [mkPte_has (by omega) (by omega), mkPte_has (by omega) (by omega), mkPte_has (by omega) (by omega)]

variable [Image] {s s' : Vs} {R : Finset Nat} {ρ : Owners} {H : Nat → Int} {r n : Nat} {p : Proc} {read : Bool}

theorem Faulted.mapped (h : Faulted p s s' R r n read (some pa)) (hI : MemInv s.mem R ρ H) (hH : ∀ a, 0 ≤ H a) :
    ∃ e, LeafUpd s.mem s'.mem R r n e ∧ e.has PTE_V ∧ PTE2PA e = pa ∧
      e.has (PTE_R ||| PTE_W ||| PTE_X) ∧ (read = false → e.has PTE_W) := by
  have hpa : ∀ {f}, f ∈ s.mem.freelist → PaOk f := fun hf => (hI.fresh hH hf).1.paOk
  cases h.out with
  | own hv hc one upd =>
    refine ⟨_, upd, ?_, ownFlags_pa _, rwx_of_W (ownFlags_W _), fun _ => ownFlags_W _⟩
    rw [PTE_V, ownFlags_has (by omega) (by omega)]; exact hv
  | copy _ hv hc free upd data =>
    have hW : (copied pa (leaf s.mem r n)).has PTE_W := by
      rw [copied, PTE_W, has_mk (by omega)]; exact ownFlags_W _
    refine ⟨_, upd, ?_, copied_pa (hpa free), rwx_of_W hW, fun _ => hW⟩
    rw [PTE_V, copied_has (by omega) (by omega)]; exact hv
  | heap _ hv lt free upd data =>
    have hW : (mkPte pa (PTE_W ||| PTE_U ||| PTE_R)).has PTE_W := by
      rw [PTE_W, mkPte_has (by omega) (by omega)]; decide
    exact ⟨_, upd, mkPte_V _ _, mkPte_pa (hpa free) (by decide), rwx_of_W hW, fun _ => hW⟩
  | file _ v bs hv le at_ prot page free upd data =>
    refine ⟨_, upd, mkPte_V _ _, mkPte_pa (hpa free) (vmaPerm_flags _), ?_, fun hrd => ?_⟩
    · rw [mkPte_rwx]
      apply vmaPerm_rwx
      cases read
      · exact .inr (.inl prot)
      · have h1 : test v.prot (PROT_READ ||| PROT_EXEC) := prot
        rw [test_or, Bool.or_eq_true] at h1
        rcases h1 with h2 | h2
        · exact .inl h2
        · exact .inr (.inr h2)
    · subst hrd
      rw [PTE_W, mkPte_has (by omega) (by omega)]
      exact (vmaPerm_W _).trans prot

theorem Faulted.touched (h : Faulted p s s' R r n read res) (hI : MemInv s.mem R ρ H)
    (hH : ∀ a, 0 ≤ H a) : Touched s.mem s'.mem R r := by
  cases res with
  | none => cases h.out with | refused same why => exact same.touched r
  | some pa =>
    obtain ⟨e, upd, hv, -, hx, -⟩ := h.mapped hI hH
    exact upd.touched (h.user (by simp)) hv hx

theorem MemInv.view_grow (hI : MemInv m R ρ H) (hH : ∀ a, 0 ≤ H a) (hG : Grow m m') (hr : r ∈ R)
    (hn : n < NUPAGE) (hl : leaf m' r n = leaf m r n) : view m' r n = view m r n := by
  unfold view
  rw [hl]
  split
  · rename_i hv
    exact hG.data _ fun hc => hI.fresh_refers hH hc hr hn ⟨hv, rfl⟩
  · rfl

theorem Faulted.view (h : Faulted p s s' R r n read res) (hI : MemInv s.mem R ρ H) (hH : ∀ a, 0 ≤ H a)
    (hr : r ∈ R) (hno : p.vmaAt (n * PGSIZE) = none) : SameView s.mem s'.mem R := by
  have hsame : ∀ {r' n'}, r' ∈ R → n' < NUPAGE → leaf s'.mem r' n' = leaf s.mem r' n' →
      Xv6.view s'.mem r' n' = Xv6.view s.mem r' n' := fun hr' hn' hl => hI.view_grow hH h.grow hr' hn' hl
  intro r' hr' n' hn'
  have hlt := NUPAGE_lt hn'
  cases res with
  | none => cases h.out with | refused same why => exact hsame hr' hn' (same r' hr' n' hlt)
  | some pa =>
    obtain ⟨e, upd, hv, hpa, -, -⟩ := h.mapped hI hH
    have hl := upd r' hr' n' hlt
    by_cases hc : r' = r ∧ n' = n
    · obtain ⟨rfl, rfl⟩ := hc
      rw [if_pos ⟨rfl, rfl⟩] at hl
      unfold Xv6.view
      rw [hl, if_pos hv, hpa]
      cases h.out with
      | own hv' hc one upd' =>
        rw [if_pos hv']
        exact h.grow.data _ fun hc => hI.fresh_refers hH hc hr hn' ⟨hv', rfl⟩
      | copy _ hv' hc free upd' data => rw [if_pos hv', data]
      | heap _ hv' lt free upd' data => rw [if_neg (by simp [hv']), data]
      | file _ v bs hv' le at_ prot page free upd' data => rw [hno] at at_; cases at_
    · rw [if_neg hc] at hl
      exact hsame hr' hn' hl

end Xv6
