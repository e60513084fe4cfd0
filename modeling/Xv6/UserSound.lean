import Xv6.FaultSound

/-!
# What copying to and from user memory does

`copyin` and `copyout` go page by page, and fault in what is missing. What
they leave behind is stated byte by byte (`Ran`).
-/

namespace Xv6

open Hoare List

variable {len n' r' x : Nat}

def Inode.show (i : Inode) (x : Nat) : UInt8 := if x < i.size then i.byte x else 0

theorem FileBytes.shows {s : Sys} {f off : Nat} {bs : List UInt8} (h : FileBytes s f off bs)
    (hmax : (s.inode (s.file f).ip).size ≤ MAXFILE * BSIZE) {j : Nat} (hj : j < PGSIZE) :
    splice (fun _ => 0) 0 bs j = (s.inode (s.file f).ip).show (off + j) := by
  unfold FileBytes at h
  unfold splice Inode.show
  simp only [Nat.zero_le, zero_add, true_and, Nat.sub_zero]
  by_cases hlt : off < (s.inode (s.file f).ip).size
  · rw [if_pos hlt] at h
    obtain ⟨hlen, hR⟩ := h
    have hmod : off % 2 ^ 32 = off := Nat.mod_eq_of_lt (lt_trans (lt_of_lt_of_le hlt hmax) (by decide))
    by_cases hj' : j < bs.length
    · rw [if_pos hj', if_pos (by omega), hR j hj', hmod]
    · rw [if_neg hj', if_neg (by omega)]
  · rw [if_neg hlt] at h
    rw [h, if_neg (by simp), if_neg (by omega)]

def Vma.byteAt (v : Vma) (s : Sys) (x : Nat) : UInt8 :=
  match v.f with
  | none => 0
  | some f => (s.inode (s.file f).ip).show ((v.off + (x / PGSIZE * PGSIZE - v.addr)) % 2 ^ 64 + x % PGSIZE)

def byteAt (m : Mem) (r a : Nat) : UInt8 := view m r (a / PGSIZE) (a % PGSIZE)

/-- The byte that `p` finds at address `x`, whether or not the page is there yet; `none` where it may not read. -/
def Proc.sees (p : Proc) (s : Vs) (r x : Nat) : Option UInt8 :=
  if (leaf s.mem r (x / PGSIZE)).has PTE_V then
    if (leaf s.mem r (x / PGSIZE)).has PTE_U then some (byteAt s.mem r x) else none
  else if x / PGSIZE * PGSIZE < p.sz then some 0
  else match p.vmaAt (x / PGSIZE * PGSIZE) with
    | none => none
    | some v => if test v.prot (PROT_READ ||| PROT_EXEC) then some (v.byteAt s.sys x) else none

theorem Proc.sees_mapped {p : Proc} {s : Vs} {r : Nat} (hv : (leaf s.mem r (x / PGSIZE)).has PTE_V) :
    p.sees s r x = if (leaf s.mem r (x / PGSIZE)).has PTE_U then some (byteAt s.mem r x) else none := if_pos hv

def Proc.FilesWhole (p : Proc) (s : Sys) : Prop := ∀ va v f, p.vmaAt va = some v → v.f = some f → FileWhole s f

theorem Kept.filesWhole {p : Proc} {s s' : Sys} (h : Kept s s') (hw : p.FilesWhole s) :
    p.FilesWhole s' := fun va v f hv hf => by
  have hfile := hw va v f hv hf
  unfold FileWhole at hfile ⊢
  have hG := h.inode (s.file f).ip
  rw [h.file, hG.size]
  exact ⟨hfile.1, fun j hj => hG.has _ (hfile.2 j hj)⟩

def Sys.ShowsAs (s s' : Sys) : Prop := ∀ (v : Vma) (x : Nat), v.byteAt s' x = v.byteAt s x

theorem Vma.byteAt_congr {s s' : Sys} (hf : ∀ f, (s'.file f).ip = (s.file f).ip)
    (hi : ∀ ip, (s'.inode ip).show = (s.inode ip).show) : s.ShowsAs s' := fun v x => by
  unfold Vma.byteAt
  cases v.f with
  | none => rfl
  | some f => dsimp only; rw [hf, hi]

theorem Vma.byteAt_kept {s s' : Sys} (h : Kept s s') (v : Vma) (x : Nat) : v.byteAt s' x = v.byteAt s x := by
  refine Vma.byteAt_congr (fun f => by rw [h.file]) (fun ip => ?_) v x
  unfold Inode.show
  simp only [(h.inode ip).size, (h.inode ip).byte]

theorem Kept.sees {p : Proc} {s s' : Vs} {r : Nat} (h : Kept s.sys s'.sys)
    (hl : leaf s'.mem r (x / PGSIZE) = leaf s.mem r (x / PGSIZE))
    (hd : (leaf s.mem r (x / PGSIZE)).has PTE_V → byteAt s'.mem r x = byteAt s.mem r x) :
    p.sees s' r x = p.sees s r x := by
  unfold Proc.sees
  rw [hl]
  by_cases hv : (leaf s.mem r (x / PGSIZE)).has PTE_V
  · rw [if_pos hv, if_pos hv, hd hv]
  · rw [if_neg hv, if_neg hv]
    simp only [Vma.byteAt_kept h]

structure UserOk [Image] (p : Proc) (s : Vs) (R : Finset Nat) (ρ : Owners) (H : Nat → Int) (r : Nat) : Prop where
  inv : MemInv s.mem R ρ H
  held : ∀ a, 0 ≤ H a
  table : r ∈ R
  bounded : p.Bounded
  alive : Alive s.sys
  kern : KernOk s.mem R

def Unstopped (p : Proc) (s : Sys) (E : Stop → Prop) : Prop :=
  (s.held = [] ∨ LockOk fun e => E (.sys e)) ∧ (p.FilesGood s (fun e => E (.sys e)) ∨ ∀ e, E (.sys e))

theorem Unstopped.kept {p : Proc} {s s' : Sys} {E : Stop → Prop} (h : Unstopped p s E) (hk : Kept s s') :
    Unstopped p s' E := ⟨by rw [hk.held]; exact h.1, h.2.imp (fun hG => hG.kept hk) id⟩

structure Stored (p : Proc) (m m' : Mem) (R : Finset Nat) (r a : Nat) (bs : List UInt8) : Prop where
  touched : Touched m m' R r
  fails : m.fails ≤ m'.fails
  free : m'.freelist ⊆ m.freelist
  valid : ∀ r' ∈ R, ∀ n < NUPAGE, (leaf m r' n).has PTE_V = true → (leaf m' r' n).has PTE_V = true
  inside : ∀ r' ∈ R, ∀ n < NUPAGE, (leaf m' r' n).has PTE_V = true → (leaf m r' n).has PTE_V = true ∨
    (r' = r ∧ (n * PGSIZE < p.sz ∨ p.vmaAt (n * PGSIZE) ≠ none))
  byte : ∀ r' ∈ R, ∀ x < NUPAGE * PGSIZE, (leaf m r' (x / PGSIZE)).has PTE_V = true ∨ (∀ b, p.vmaAt b = none) →
    byteAt m' r' x = if r' = r ∧ a ≤ x ∧ x < a + bs.length then bs.getD (x - a) 0 else byteAt m r' x

section
variable {p : Proc} {m m' m'' : Mem} {R : Finset Nat} {r a : Nat} {bs bs' : List UInt8}

theorem Stored.refl (p : Proc) (m : Mem) (R : Finset Nat) (r a : Nat) : Stored p m m R r a [] :=
  ⟨Touched.refl _ _ _, le_rfl, fun _ => id, fun _ _ _ _ => id, fun _ _ _ _ => .inl,
    fun r' _ x _ _ => by rw [if_neg (by simp)]⟩

theorem splice_append (a x : Nat) (bs bs' : List UInt8) (b : UInt8) :
    (if a + bs.length ≤ x ∧ x < a + bs.length + bs'.length then bs'.getD (x - (a + bs.length)) 0
      else if a ≤ x ∧ x < a + bs.length then bs.getD (x - a) 0 else b) =
    if a ≤ x ∧ x < a + (bs ++ bs').length then (bs ++ bs').getD (x - a) 0 else b := by
  rw [length_append]
  by_cases h1 : a + bs.length ≤ x ∧ x < a + bs.length + bs'.length
  · rw [if_pos h1, if_pos ⟨by omega, by omega⟩, getD_append_right _ _ _ _ (by omega)]
    congr 1; omega
  · rw [if_neg h1]
    by_cases h2 : a ≤ x ∧ x < a + bs.length
    · rw [if_pos h2, if_pos ⟨h2.1, by omega⟩, getD_append _ _ _ _ (by omega)]
    · rw [if_neg h2, if_neg (by omega)]

theorem Stored.trans (h : Stored p m m' R r a bs) (h' : Stored p m' m'' R r (a + bs.length) bs') :
    Stored p m m'' R r a (bs ++ bs') where
  touched := h.touched.trans h'.touched
  fails := le_trans h.fails h'.fails
  free _ hx := h.free (h'.free hx)
  valid r' hr' n hn hv := h'.valid r' hr' n hn (h.valid r' hr' n hn hv)
  inside r' hr' n hn hv := (h'.inside r' hr' n hn hv).elim (h.inside r' hr' n hn) .inr
  byte r' hr' x hx hv := by
    have hn : x / PGSIZE < NUPAGE := Nat.div_lt_of_lt_mul (by rw [mul_comm]; exact hx)
    rw [h'.byte r' hr' x hx (hv.imp (h.valid r' hr' _ hn) id), h.byte r' hr' x hx hv]
    by_cases hr : r' = r
    · simp only [hr, true_and]
      exact splice_append ..
    · rw [if_neg fun hc => hr hc.1, if_neg fun hc => hr hc.1, if_neg fun hc => hr hc.1]

theorem Stored.at (h : Stored p m m' R r a []) (b : Nat) : Stored p m m' R r b [] :=
  ⟨h.touched, h.fails, h.free, h.valid, h.inside, fun r' hr' x hx hv => by
    rw [h.byte r' hr' x hx hv, if_neg (by simp), if_neg (by simp)]⟩

structure Filled (p : Proc) (m m' : Mem) (R : Finset Nat) (r : Nat) : Prop extends Stored p m m' R r 0 [] where
  fills : ∀ r' ∈ R, ∀ n < 512 * 512 * 512, (leaf m r' n).has PTE_V = true → leaf m' r' n = leaf m r' n

theorem Filled.refl (p : Proc) (m : Mem) (R : Finset Nat) (r : Nat) : Filled p m m R r :=
  ⟨Stored.refl .., fun _ _ _ _ _ => rfl⟩

theorem Filled.trans (h : Filled p m m' R r) (h' : Filled p m' m'' R r) : Filled p m m'' R r :=
  ⟨h.toStored.trans h'.toStored, fun r' hr' n hn hv => by
    have hl := h.fills r' hr' n hn hv
    rw [h'.fills r' hr' n hn (by rw [hl]; exact hv), hl]⟩

end

structure Ran (p : Proc) (s s' : Vs) (R : Finset Nat) (r a : Nat) (bs : List UInt8) : Prop
    extends Stored p s.mem s'.mem R r a bs where
  kept : Kept s.sys s'.sys
  seen : p.FilesWhole s.sys → ∀ x < MAXVA, ∀ b, p.sees s r x = some b →
    p.sees s' r x = some (if a ≤ x ∧ x < a + bs.length then bs.getD (x - a) 0 else b)

section
variable {p : Proc} {s s' s'' : Vs} {R : Finset Nat} {r a : Nat} {bs bs' : List UInt8}

theorem Ran.refl (p : Proc) (s : Vs) (R : Finset Nat) (r a : Nat) : Ran p s s R r a [] :=
  ⟨Stored.refl .., Kept.refl _, fun _ x _ b hb => by rw [if_neg (by simp)]; exact hb⟩

theorem Ran.trans (h : Ran p s s' R r a bs) (h' : Ran p s' s'' R r (a + bs.length) bs') :
    Ran p s s'' R r a (bs ++ bs') := ⟨h.toStored.trans h'.toStored, h.kept.trans h'.kept, fun hw x hx b hb => by
  rw [h'.seen (h.kept.filesWhole hw) x hx _ (h.seen hw x hx b hb), splice_append]⟩

theorem Ran.after (h : Ran p s s' R r a []) (h' : Ran p s' s'' R r a bs) : Ran p s s'' R r a bs := h.trans h'

theorem Ran.at (h : Ran p s s' R r a []) (b : Nat) : Ran p s s' R r b [] :=
  ⟨h.toStored.at b, h.kept, fun hw x hx b hb => by rw [h.seen hw x hx b hb, if_neg (by simp), if_neg (by simp)]⟩

structure ReadIn (p : Proc) (s s' : Vs) (R : Finset Nat) (r : Nat) : Prop extends Filled p s.mem s'.mem R r where
  kept : Kept s.sys s'.sys
  seen : p.FilesWhole s.sys → ∀ x < MAXVA, p.sees s' r x = p.sees s r x

theorem ReadIn.refl (p : Proc) (s : Vs) (R : Finset Nat) (r : Nat) : ReadIn p s s R r :=
  ⟨Filled.refl .., Kept.refl _, fun _ _ _ => rfl⟩

theorem ReadIn.trans (h : ReadIn p s s' R r) (h' : ReadIn p s' s'' R r) : ReadIn p s s'' R r :=
  ⟨h.toFilled.trans h'.toFilled, h.kept.trans h'.kept, fun hw x hx =>
    (h'.seen (h.kept.filesWhole hw) x hx).trans (h.seen hw x hx)⟩

end

variable [Image] {p : Proc} {s s' : Vs} {R : Finset Nat} {ρ : Owners} {H : Nat → Int} {r : Nat} {E : Stop → Prop}
variable {Q : Option Nat → Vs → Prop} {bs : List UInt8} {m : Mem} {n : Nat} {read : Bool} {res : Option Nat}

theorem UserOk.stored (h : UserOk p s R ρ H r) (hI : MemInv s'.mem R ρ' H)
    (hr : SysRel s.sys s'.sys) (hs : Stored p s.mem s'.mem R r a bs) : UserOk p s' R ρ' H r :=
  ⟨hI, h.held, h.table, h.bounded, h.alive.rel hr, h.kern.touched hs.touched⟩

theorem UserOk.ran (h : UserOk p s R ρ H r) (hI : MemInv s'.mem R ρ' H)
    (hr : Ran p s s' R r a bs) : UserOk p s' R ρ' H r := h.stored hI hr.kept.toSysRel hr.toStored

theorem Faulted.seen (h : Faulted p s s' R r n read res) (hI : MemInv s.mem R ρ H)
    (hH : ∀ a, 0 ≤ H a) (hr' : r' ∈ R) (hn' : n' < NUPAGE) (hv : (leaf s.mem r' n').has PTE_V) :
    (leaf s'.mem r' n').has PTE_V ∧ Xv6.view s'.mem r' n' = Xv6.view s.mem r' n' := by
  have hlt := NUPAGE_lt hn'
  have hsame : leaf s'.mem r' n' = leaf s.mem r' n' →
      (leaf s'.mem r' n').has PTE_V ∧ Xv6.view s'.mem r' n' = Xv6.view s.mem r' n' := fun hl =>
    ⟨by rw [hl]; exact hv, hI.view_grow hH h.grow hr' hn' hl⟩
  cases res with
  | none => cases h.out with | refused same why => exact hsame (same r' hr' n' hlt)
  | some pa =>
    obtain ⟨e, upd, hve, hpa, -, -⟩ := h.mapped hI hH
    have hl := upd r' hr' n' hlt
    by_cases hc : r' = r ∧ n' = n
    · obtain ⟨rfl, rfl⟩ := hc
      rw [if_pos ⟨rfl, rfl⟩] at hl
      rw [hl]
      refine ⟨hve, ?_⟩
      unfold Xv6.view
      rw [hl, if_pos hve, if_pos hv, hpa]
      cases h.out with
      | own hv' hc one upd' => exact h.grow.data _ fun hc => hI.fresh_refers hH hc hr' hn' ⟨hv', rfl⟩
      | copy _ hv' hc free upd' data => exact data
      | heap _ hv' lt free upd' data | file _ v bs hv' le at_ prot page free upd' data => rw [hv] at hv'; cases hv'
    · rw [if_neg hc] at hl
      exact hsame hl

omit [Image] in
theorem Faulted.inside (h : Faulted p s s' R r n read res) (hr' : r' ∈ R) (hn' : n' < NUPAGE)
    (hv : (leaf s'.mem r' n').has PTE_V) : (leaf s.mem r' n').has PTE_V ∨
      (r' = r ∧ (n' * PGSIZE < p.sz ∨ p.vmaAt (n' * PGSIZE) ≠ none)) := by
  have hlt := NUPAGE_lt hn'
  have hupd : ∀ {e : Pte}, LeafUpd s.mem s'.mem R r n e →
      ((leaf s.mem r n).has PTE_V ∨ n * PGSIZE < p.sz ∨ p.vmaAt (n * PGSIZE) ≠ none) →
      (leaf s.mem r' n').has PTE_V ∨ (r' = r ∧ (n' * PGSIZE < p.sz ∨ p.vmaAt (n' * PGSIZE) ≠ none)) := fun upd hx => by
    by_cases hc : r' = r ∧ n' = n
    · rw [hc.1, hc.2]; exact hx.imp id fun hy => ⟨rfl, hy⟩
    · rw [upd r' hr' n' hlt, if_neg hc] at hv; exact .inl hv
  cases h.out with
  | refused same why => rw [same r' hr' n' hlt] at hv; exact .inl hv
  | own hv' _ _ upd | copy _ hv' _ _ upd _ => exact hupd upd (.inl hv')
  | heap _ _ lt _ upd _ => exact hupd upd (.inr (.inl lt))
  | file _ v _ _ _ at_ _ _ _ upd _ => exact hupd upd (.inr (.inr (by rw [at_]; simp)))

/-- A page that the kernel keeps from the process in its own table. -/
def Guarded (e : Pte) : Prop := e.has PTE_V = true ∧ e.has PTE_U = false

omit [Image] in
theorem Faulted.not_guarded {pa : Nat} (h : Faulted p s s' R r n read (some pa)) (hr : r ∈ R) :
    (leaf s'.mem r n).has PTE_U ↔ ¬ Guarded (leaf s.mem r n) := by
  have hn := NUPAGE_lt (h.user (by simp))
  have hat : ∀ {e : Pte}, LeafUpd s.mem s'.mem R r n e → leaf s'.mem r n = e := fun hL => by
    rw [hL r hr n hn, if_pos ⟨rfl, rfl⟩]
  unfold Guarded
  cases h.out with
  | own hv hc one upd => rw [hat upd, PTE_U, ownFlags_has (by omega) (by omega), hv]; simp
  | copy _ hv hc free upd data => rw [hat upd, PTE_U, copied_has (by omega) (by omega), hv]; simp
  | heap _ hv lt free upd data =>
    rw [hat upd, hv, PTE_U, mkPte_has (by omega) (by omega)]
    simp only [Bool.false_eq_true, false_and, not_false_eq_true, iff_true]
    decide
  | file _ v bs hv le at_ prot page free upd data =>
    rw [hat upd, hv, PTE_U, mkPte_has (by omega) (by omega)]
    simp only [Bool.false_eq_true, false_and, not_false_eq_true, iff_true]
    exact vmaPerm_U _

def OnlyAt (m m' : Mem) (R : Finset Nat) (r n : Nat) : Prop :=
  ∀ r' ∈ R, ∀ n' < 512 * 512 * 512, ¬ (r' = r ∧ n' = n) → leaf m' r' n' = leaf m r' n'

theorem Faulted.only (h : Faulted p s s' R r n read res)
    (hI : MemInv s.mem R ρ H) (hH : ∀ a, 0 ≤ H a) : OnlyAt s.mem s'.mem R r n := by
  intro r' hr' n' hn' hne
  cases res with
  | none => cases h.out with | refused same why => exact same r' hr' n' hn'
  | some pa =>
    obtain ⟨e, upd, -⟩ := h.mapped hI hH
    rw [upd r' hr' n' hn', if_neg hne]

theorem Faulted.sees {n : Nat} {read : Bool} {res : Option Nat} (h : Faulted p s s' R r n read res) (hU : UserOk p s R ρ H r)
    (hw : p.FilesWhole s.sys) (hx : x < MAXVA) (hsee : read ∨ p.sees s r x ≠ none) : p.sees s' r x = p.sees s r x := by
  have hlt : x / PGSIZE < 512 * 512 * 512 := by lia
  have hseen : x / PGSIZE < NUPAGE → (leaf s.mem r (x / PGSIZE)).has PTE_V →
      (leaf s'.mem r (x / PGSIZE)).has PTE_V ∧ byteAt s'.mem r x = byteAt s.mem r x := fun hn hv => by
    obtain ⟨hv', hview⟩ := h.seen hU.inv hU.held hU.table hn hv
    exact ⟨hv', by unfold byteAt; rw [hview]⟩
  by_cases hne : leaf s'.mem r (x / PGSIZE) = leaf s.mem r (x / PGSIZE)
  · by_cases hn : x / PGSIZE < NUPAGE
    · exact h.kept.sees hne fun hv => (hseen hn hv).2
    · have hu := (hU.kern r hU.table _ (not_lt.mp hn) hlt).1
      unfold Proc.sees
      simp only [hne, hu, Vma.byteAt_kept h.kept, Bool.false_eq_true, if_false]
  -- the entry has changed, so this is the page of the fault
  obtain rfl : x / PGSIZE = n := by
    by_contra hc
    exact hne (h.only hU.inv hU.held r hU.table _ hlt fun hd => hc hd.2)
  cases res with
  | none => cases h.out with | refused same why => exact absurd (same r hU.table _ hlt) hne
  | some pa =>
    have hn := h.user (by simp)
    have hU' := h.not_guarded hU.table
    have hnew : ∀ {e : Pte}, LeafUpd s.mem s'.mem R r (x / PGSIZE) e → e.has PTE_V → PTE2PA e = pa →
        (leaf s.mem r (x / PGSIZE)).has PTE_V = false → p.sees s' r x = some (s'.mem.data pa (x % PGSIZE)) :=
          fun upd hv hpa h0 => by
      have hl := (upd r hU.table _ hlt).trans (if_pos ⟨rfl, rfl⟩)
      have hu := hU'.mpr fun hg => by rw [hg.1] at h0; cases h0
      unfold Proc.sees byteAt Xv6.view
      rw [if_pos hu, hl, if_pos hv, if_pos hv, hpa]
    have hfresh : ∀ {f}, f ∈ s.mem.freelist → PaOk f := fun hf => (hU.inv.fresh hU.held hf).1.paOk
    have hold : (leaf s.mem r (x / PGSIZE)).has PTE_V → p.sees s' r x = p.sees s r x := fun hv => by
      obtain ⟨hv', hb⟩ := hseen hn hv
      rw [Proc.sees_mapped hv', Proc.sees_mapped hv, hb]
      refine if_congr (hU'.trans ?_) rfl rfl
      simp [Guarded, hv]
    cases h.out with
    | own hv _ _ _ => exact hold hv
    | copy _ hv _ _ _ _ => exact hold hv
    | heap _ hv lt free upd data =>
      rw [hnew upd (mkPte_V _ _) (mkPte_pa (hfresh free) (by decide)) hv, data]
      unfold Proc.sees
      rw [if_neg (by simp [hv]), if_pos lt]
    | file _ v bs hv le at_ prot page free upd data =>
      have hprot : test v.prot (PROT_READ ||| PROT_EXEC) := by
        rcases hsee with rfl | hsee
        · exact prot
        · by_contra hc
          refine hsee ?_
          unfold Proc.sees
          rw [if_neg (by simp [hv]), if_neg (by omega), at_]
          exact if_neg hc
      rw [hnew upd (mkPte_V _ _) (mkPte_pa (hfresh free) (vmaPerm_flags _)) hv, data]
      unfold Proc.sees
      rw [if_neg (by simp [hv]), if_neg (by omega), at_]
      dsimp only
      rw [if_pos hprot]
      congr 1
      unfold Vma.byteAt
      unfold Vma.Page at page
      cases hf : v.f with
      | none =>
        rw [hf] at page
        rw [page]
        simp [splice]
      | some f =>
        rw [hf] at page
        exact page.shows (hw _ v f at_ hf).1 (Nat.mod_lt _ (by decide))

theorem Faulted.ran (h : Faulted p s s' R r n read res) (hU : UserOk p s R ρ H r) (a : Nat) : Ran p s s' R r a [] where
  kept := h.kept
  touched := h.touched hU.inv hU.held
  fails := h.grow.fails
  free := h.grow.free
  valid r' hr' n' hn' hv := (h.seen hU.inv hU.held hr' hn' hv).1
  inside r' hr' n' hn' hv := h.inside hr' hn' hv
  byte r' hr' x hx hv := by
    have hn : x / PGSIZE < NUPAGE := Nat.div_lt_of_lt_mul (by rw [mul_comm]; exact hx)
    rw [if_neg (by simp)]
    unfold byteAt
    rcases hv with hv | hno
    · rw [(h.seen hU.inv hU.held hr' hn hv).2]
    · rw [h.view hU.inv hU.held hU.table (hno _) r' hr' _ hn]
  seen hw x hx b hb := by rw [if_neg (by simp), h.sees hU hw hx (.inr (by simp [hb])), hb]

theorem Faulted.readIn (h : Faulted p s s' R r n true res) (hU : UserOk p s R ρ H r) :
    ReadIn p s s' R r := by
  refine ⟨⟨(h.ran hU 0).toStored, fun r' hr' n' hn' hv => ?_⟩, h.kept, fun hw x hx => h.sees hU hw hx (.inl rfl)⟩
  have hupd : ∀ {e : Pte}, LeafUpd s.mem s'.mem R r n e → (leaf s.mem r n).has PTE_V = false →
      leaf s'.mem r' n' = leaf s.mem r' n' := fun upd hno => by
    rw [upd r' hr' n' hn', if_neg]
    rintro ⟨rfl, rfl⟩
    rw [hno] at hv; cases hv
  cases h.out with
  | refused same why => exact same r' hr' n' hn'
  | own hv' hc one upd => cases hc.1
  | copy _ hv' hc free upd data => cases hc.1
  | heap _ hv' lt free upd data | file _ v bs hv' le at_ prot page free upd data => exact hupd upd hv'

theorem MemInv.view_write (h : MemInv m R ρ H) (hr : r ∈ R) (hn : n < NUPAGE)
    (hv : (leaf m r n).has PTE_V) (hw : (leaf m r n).has PTE_W) (hr' : r' ∈ R)
    (hn' : n' < NUPAGE) : view (m.write (PTE2PA (leaf m r n)) i bs) r' n' =
      if r' = r ∧ n' = n then splice (view m r n) i bs else view m r' n' := by
  have hleaf : leaf (m.write (PTE2PA (leaf m r n)) i bs) r' n' = leaf m r' n' := rfl
  unfold view
  rw [hleaf]
  by_cases hc : r' = r ∧ n' = n
  · rw [if_pos hc, hc.1, hc.2, if_pos hv, if_pos hv]
    exact Mem.write_data_self ..
  · rw [if_neg hc]
    split
    · rename_i hv'
      refine Mem.write_data_ne _ _ _ fun hp => ?_
      have := h.cow r hr r' hr' n hn n' hn' (fun he => hc (by simp only [Prod.mk.injEq] at he; exact ⟨he.1.symm, he.2.symm⟩))
        hv ⟨hv', hp⟩
      rw [hw] at this; cases this
    · rfl

theorem UserOk.write {i : Nat} (h : UserOk p s R ρ H r) (hn : n < NUPAGE)
    (hv : (leaf s.mem r n).has PTE_V) (hw : (leaf s.mem r n).has PTE_W) (hi : i + bs.length ≤ PGSIZE) :
    UserOk p { s with mem := s.mem.write (PTE2PA (leaf s.mem r n)) i bs } R ρ H r ∧
      Ran p s { s with mem := s.mem.write (PTE2PA (leaf s.mem r n)) i bs } R r (n * PGSIZE + i) bs := by
  have hst : Stored p s.mem (s.mem.write (PTE2PA (leaf s.mem r n)) i bs) R r (n * PGSIZE + i) bs := by
    refine ⟨fun _ _ _ _ => .inl rfl, le_rfl, fun _ => id, fun _ _ _ _ => id, fun _ _ _ _ => .inl,
      fun r' hr' x hx _ => ?_⟩
    have hn' : x / PGSIZE < NUPAGE := Nat.div_lt_of_lt_mul (by rw [mul_comm]; exact hx)
    unfold byteAt
    rw [h.inv.view_write h.table hn hv hw hr' hn']
    have hx' : x = x / PGSIZE * PGSIZE + x % PGSIZE := by lia
    by_cases hc : r' = r ∧ x / PGSIZE = n
    · rw [if_pos hc, hc.1, hc.2]
      rw [hc.2] at hx'
      unfold splice
      by_cases hb : i ≤ x % PGSIZE ∧ x % PGSIZE < i + bs.length
      · rw [if_pos hb, if_pos ⟨rfl, by omega, by omega⟩]; congr 1; omega
      · rw [if_neg hb, if_neg fun hd => hb ⟨by omega, by omega⟩]
    · rw [if_neg hc, if_neg]
      rintro ⟨h1, h2, h3⟩
      refine hc ⟨h1, ?_⟩
      lia
  have hran : Ran p s { s with mem := s.mem.write (PTE2PA (leaf s.mem r n)) i bs } R r (n * PGSIZE + i) bs := by
    refine ⟨hst, Kept.refl _, fun _ x hx b hb => ?_⟩
    by_cases hvx : (leaf s.mem r (x / PGSIZE)).has PTE_V
    · rw [Proc.sees_mapped hvx] at hb
      refine (Proc.sees_mapped (s := ⟨s.sys, s.mem.write (PTE2PA (leaf s.mem r n)) i bs⟩) hvx).trans ?_
      by_cases hu : (leaf s.mem r (x / PGSIZE)).has PTE_U
      · have hn' : x / PGSIZE < NUPAGE := by
          by_contra hc
          have := (h.kern r h.table _ (not_lt.mp hc) (by lia)).1
          rw [hu] at this; cases this
        rw [if_pos hu] at hb
        obtain rfl := Option.some.inj hb
        refine (if_pos hu).trans ?_
        rw [hst.byte r h.table x (by lia) (.inl hvx)]
        simp only [true_and]
      · rw [if_neg hu] at hb; cases hb
    · refine (@Kept.sees x p s ⟨s.sys, s.mem.write (PTE2PA (leaf s.mem r n)) i bs⟩ r (Kept.refl s.sys) rfl
        fun hc => absurd hc hvx).trans (hb.trans ?_)
      rw [if_neg]
      rintro ⟨h1, h2⟩
      rw [show x / PGSIZE = n by lia] at hvx
      exact hvx hv
  exact ⟨h.ran (h.inv.congr rfl rfl rfl) hran, hran⟩

section
variable (hU : UserOk p s R ρ H r) (hS : Unstopped p s.sys E) (hwalk : MAXVA ≤ n * PGSIZE → E (.mem (.panic .walk)))
include hU hS hwalk

theorem wp_userPage
    (hhit : n < NUPAGE → (leaf s.mem r n).has PTE_V → (leaf s.mem r n).has PTE_U →
      Q (some (PTE2PA (leaf s.mem r n))) s)
    (hmiss : ∀ s' ρ' res, ¬ ((leaf s.mem r n).has PTE_V ∧ (leaf s.mem r n).has PTE_U) →
      UserOk p s' R ρ' H r → Faulted p s s' R r n read res → Q res s') :
    wp (userPage p r (n * PGSIZE) read) Q E s := by
  have hdiv : n * PGSIZE / PGSIZE = n := page_div n
  unfold userPage
  rw [wp_bind, wp_onMem, wp_walkaddr, page_div]
  have hfault : (n * PGSIZE < MAXVA → ¬ ((leaf s.mem r n).has PTE_V ∧ (leaf s.mem r n).has PTE_U)) →
      wp (vmfault p r (n * PGSIZE) read) Q E s := fun hno => by
    refine wp_vmfault hU.inv hU.held hU.table hU.bounded hU.alive hU.kern hwalk hS.1 hS.2 fun s' ρ' res hva hI' hF => ?_
    rw [hdiv] at hF
    exact hmiss s' ρ' res (hno hva) (hU.ran hI' (hF.ran hU 0)) hF
  by_cases hva : n * PGSIZE < MAXVA
  · rw [if_pos hva]
    unfold userPa
    by_cases hc : (leaf s.mem r n).has PTE_V ∧ (leaf s.mem r n).has PTE_U
    · rw [if_pos hc]
      refine wp_ret (hhit ?_ hc.1 hc.2)
      by_contra hcon
      have := (hU.kern r hU.table n (not_lt.mp hcon) (by lia)).1
      rw [hc.2] at this; cases this
    · rw [if_neg hc]; exact hfault fun _ => hc
  · rw [if_neg hva]; exact hfault fun h => absurd h hva

theorem wp_pageIn
    (hnone : ∀ s' ρ', UserOk p s' R ρ' H r → ReadIn p s s' R r → s.mem.fails < s'.mem.fails ∨
      (p.FilesWhole s.sys → ∀ x, x / PGSIZE = n → p.sees s r x = none) → Q none s')
    (hsome : ∀ s' ρ', n < NUPAGE → UserOk p s' R ρ' H r → ReadIn p s s' R r →
      (leaf s'.mem r n).has PTE_V → (leaf s'.mem r n).has PTE_U → Q (some (PTE2PA (leaf s'.mem r n))) s') :
    wp (userPage p r (n * PGSIZE) true) Q E s := by
  refine wp_userPage hU hS hwalk (fun hn hv hu => ?_) fun s' ρ' res hc hU' hF => ?_
  · exact hsome s ρ hn hU (ReadIn.refl ..) hv hu
  cases res with
  | none =>
    refine hnone s' ρ' hU' (hF.readIn hU) ?_
    cases hF.out with
    | refused same why =>
      rcases why with h | h | h
      · exact .inl h
      · have hu : ¬ (leaf s.mem r n).has PTE_U := fun hu => hc ⟨h.1, hu⟩
        refine .inr fun _ x hx => ?_
        rw [← hx] at h hu
        rw [Proc.sees_mapped h.1, if_neg hu]
      · refine .inr fun hw x hx => ?_
        unfold Proc.sees
        rw [hx, if_neg (by simp [h.1]), if_neg (by omega)]
        cases hat : p.vmaAt (n * PGSIZE) with
        | none => rfl
        | some v =>
          rcases h.2.2 v hat with hno | ⟨f, hf, hno⟩
          · exact if_neg (by rw [if_pos rfl] at hno; simp [hno])
          · exact absurd (hw _ v f hat hf) hno
  | some pa =>
    have hu := (hF.not_guarded hU.table).mpr fun hg => by
      cases hF.out with
      | own _ hc _ _ => cases hc.1
      | copy _ _ hc _ _ _ => cases hc.1
      | heap _ hv _ _ _ _ | file _ _ _ hv _ _ _ _ _ _ _ => rw [hg.1] at hv; cases hv
    obtain ⟨e, upd, hv, hpa, -, -⟩ := hF.mapped hU.inv hU.held
    have hn := hF.user (by simp)
    have hl := upd r hU.table n (NUPAGE_lt hn)
    rw [if_pos ⟨rfl, rfl⟩] at hl
    rw [← hl] at hv hpa
    rw [← hpa]
    exact hsome s' ρ' hn hU' (hF.readIn hU) hv hu

end

/-! ## `copyin` and `copyinstr` -/

def bytesAt (m : Mem) (r a n : Nat) : List UInt8 := (range n).map fun j => byteAt m r (a + j)

section
omit [Image]

theorem bytesAt_page {i k : Nat} (hv : (leaf m r n).has PTE_V) (hk : i + k ≤ PGSIZE) :
    ((range k).map fun j => m.data (PTE2PA (leaf m r n)) (i + j)) = bytesAt m r (n * PGSIZE + i) k := by
  refine map_congr_left fun j hj => ?_
  have hj := mem_range.mp hj
  have h1 : (n * PGSIZE + i + j) / PGSIZE = n := by lia
  have h2 : (n * PGSIZE + i + j) % PGSIZE = i + j := by lia
  unfold byteAt view
  rw [h1, h2, if_pos hv]

theorem page_off (a : Nat) : a = a / PGSIZE * PGSIZE + (a - a / PGSIZE * PGSIZE) ∧ a - a / PGSIZE * PGSIZE < PGSIZE := by
  constructor <;> lia

theorem next_page (hn : n < NUPAGE) : (n * PGSIZE + PGSIZE) % 2 ^ 64 = n * PGSIZE + PGSIZE := Nat.mod_eq_of_lt (by lia)

end

def CopiedIn (p : Proc) (s s' : Vs) (r a len : Nat) (bs : List UInt8) (ok : Bool) : Prop :=
  a + len ≤ MAXVA → p.FilesWhole s.sys → if ok then bs.length = len ∧ ∀ j < len, p.sees s r (a + j) = some (bs.getD j 0)
    else s.mem.fails < s'.mem.fails ∨ ∃ j < len, p.sees s r (a + j) = none

omit [Image] in
theorem ReadIn.sees {n i k j : Nat} (h : ReadIn p s s' R r) (hw : p.FilesWhole s.sys) (hv : (leaf s'.mem r n).has PTE_V)
    (hu : (leaf s'.mem r n).has PTE_U) (hk : i + k ≤ PGSIZE) (hj : j < k) (hx : n * PGSIZE + i + j < MAXVA) :
    p.sees s r (n * PGSIZE + i + j) = some ((bytesAt s'.mem r (n * PGSIZE + i) k).getD j 0) := by
  have hn : (n * PGSIZE + i + j) / PGSIZE = n := by lia
  rw [← h.seen hw _ hx, Proc.sees_mapped (by rw [hn]; exact hv), hn, if_pos hu]
  simp [bytesAt, hj]

omit [Image] in
theorem CopiedIn.step {s₁ s₂ : Vs} {n i k : Nat} {bs : List UInt8} {ok : Bool} (h : ReadIn p s s₁ R r) (hn : n < NUPAGE)
    (hv : (leaf s₁.mem r n).has PTE_V) (hu : (leaf s₁.mem r n).has PTE_U)
    (hk : k = min (PGSIZE - i) len) (hi : i < PGSIZE) (hrest : CopiedIn p s₁ s₂ r (n * PGSIZE + PGSIZE) (len - k) bs ok) :
    CopiedIn p s s₂ r (n * PGSIZE + i) len (bytesAt s₁.mem r (n * PGSIZE + i) k ++ bs) ok := by
  intro hmax hw
  have hlen : (bytesAt s₁.mem r (n * PGSIZE + i) k).length = k := by simp [bytesAt]
  have hnext : ∀ j < len - k, n * PGSIZE + PGSIZE + j = n * PGSIZE + i + (k + j) := fun j hj => by omega
  have hr := hrest (by lia) (h.kept.filesWhole hw)
  cases ok with
  | true =>
    obtain ⟨hl, hb⟩ := hr
    refine ⟨by rw [length_append, hlen, hl]; omega, fun j hj => ?_⟩
    by_cases hjk : j < k
    · rw [getD_append _ _ _ _ (by omega)]
      exact h.sees hw hv hu (by omega) hjk (by omega)
    · have hs := hb (j - k) (by omega)
      rw [hnext _ (by omega), h.seen hw _ (by omega), show k + (j - k) = j by omega] at hs
      rw [getD_append_right _ _ _ _ (by omega), hlen, hs]
  | false =>
    refine hr.imp (fun hf => lt_of_le_of_lt h.fails hf) fun ⟨j, hj, hs⟩ => ⟨k + j, by omega, ?_⟩
    rwa [hnext j hj, h.seen hw _ (by omega)] at hs

theorem wp_copyinLoop : ∀ (fuel : Nat) {s : Vs} {ρ : Owners} {srcva len : Nat} {Q : List UInt8 × Bool → Vs → Prop},
    len ≤ fuel → UserOk p s R ρ H r → Unstopped p s.sys E →
    (0 < len → MAXVA ≤ srcva → E (.mem (.panic .walk))) →
    (∀ bs ok s' ρ', UserOk p s' R ρ' H r → ReadIn p s s' R r → CopiedIn p s s' r srcva len bs ok → Q (bs, ok) s') →
    wp (copyinLoop p r fuel srcva len) Q E s
  | 0, s, ρ, srcva, len, Q, hlen, hU, _, _, h => by
    obtain rfl : len = 0 := by omega
    rw [copyinLoop, wp_pure]
    exact h [] true s ρ hU (ReadIn.refl ..) fun _ _ => ⟨rfl, by simp⟩
  | fuel + 1, s, ρ, srcva, len, Q, hlen, hU, hS, hwalk, h => by
    refine wp_ite (fun h0 => wp_ret ?_) fun h0 => ?_
    · subst h0
      exact h [] true s ρ hU (ReadIn.refl ..) fun _ _ => ⟨rfl, by simp⟩
    obtain ⟨hoff, hlt⟩ := page_off srcva
    simp only [wp_bind, PGROUNDDOWN]
    refine wp_pageIn hU hS (fun hm => hwalk (by omega) (by omega)) ?_ ?_
    · intro s₁ ρ1 hU1 hR1 hwhy
      exact wp_ret (h [] false s₁ ρ1 hU1 hR1 fun _ hw => hwhy.imp id fun hc => ⟨0, by omega, hc hw _ rfl⟩)
    intro s₁ ρ1 hn hU1 hR1 hv1 hu1
    have hk := min_le_left (PGSIZE - (srcva - srcva / PGSIZE * PGSIZE)) len
    have hk' := min_le_right (PGSIZE - (srcva - srcva / PGSIZE * PGSIZE)) len
    generalize hkd : min (PGSIZE - (srcva - srcva / PGSIZE * PGSIZE)) len = k at hk hk'
    simp only [wp_bind, wp_onMem, wp_readBytes, next_page hn]
    rw [bytesAt_page hv1 (by omega), ← hoff]
    refine wp_copyinLoop fuel (by omega) hU1 (hS.kept hR1.kept) ?_ fun bs ok s₂ ρ2 hU2 hR2 hin => ?_
    · intro _ hm
      lia
    have hin' := CopiedIn.step hR1 hn hv1 hu1 hkd.symm hlt hin
    rw [← hoff] at hin'
    exact wp_ret (h _ ok s₂ ρ2 hU2 (hR1.trans hR2) hin')

theorem wp_copyin {srcva : Nat} {Q : List UInt8 × Bool → Vs → Prop} (hU : UserOk p s R ρ H r)
    (hS : Unstopped p s.sys E) (hwalk : 0 < len → MAXVA ≤ srcva → E (.mem (.panic .walk)))
    (h : ∀ bs ok s' ρ', UserOk p s' R ρ' H r → ReadIn p s s' R r → CopiedIn p s s' r srcva len bs ok → Q (bs, ok) s') :
    wp (copyin p r srcva len) Q E s := wp_copyinLoop len le_rfl hU hS hwalk h

structure Proc.SeesString (p : Proc) (s : Vs) (r a max : Nat) (str : List UInt8) : Prop where
  short : str.length < max
  chars : ∀ j < str.length, p.sees s r (a + j) = some (str.getD j 0) ∧ str.getD j 0 ≠ 0
  stop : p.sees s r (a + str.length) = some 0

def CopiedStr (p : Proc) (s s' : Vs) (r a max : Nat) (res : Option (List UInt8)) : Prop :=
  a + max ≤ MAXVA → p.FilesWhole s.sys → match res with
    | some str => p.SeesString s r a max str
    | none => s.mem.fails < s'.mem.fails ∨ ∀ str, ¬ p.SeesString s r a max str

omit [Image] in
theorem takeWhile_zero : ∀ bs : List UInt8, 0 ∈ bs → (bs.takeWhile (· ≠ 0)).length < bs.length ∧
    (∀ j < (bs.takeWhile (· ≠ 0)).length, bs.getD j 0 = (bs.takeWhile (· ≠ 0)).getD j 0 ∧
      (bs.takeWhile (· ≠ 0)).getD j 0 ≠ 0) ∧
    bs.getD (bs.takeWhile (· ≠ 0)).length 0 = 0
  | b :: bs, h => by
    by_cases hb : b = 0
    · simp [hb]
    · obtain ⟨h1, h2, h3⟩ := takeWhile_zero bs ((mem_cons.mp h).resolve_left (Ne.symm hb))
      rw [takeWhile_cons_of_pos (by simpa using hb)]
      refine ⟨Nat.succ_lt_succ h1, fun j hj => ?_, h3⟩
      cases j with
      | zero => exact ⟨rfl, hb⟩
      | succ j => exact h2 j (Nat.lt_of_succ_lt_succ hj)

section
variable {s₁ s₂ : Vs} {n i k max : Nat}
variable (h : ReadIn p s s₁ R r) (hv : (leaf s₁.mem r n).has PTE_V = true) (hu : (leaf s₁.mem r n).has PTE_U = true)
  (hk : k = min (PGSIZE - i) max) (hi : i < PGSIZE)
include h hv hu hk hi

omit [Image] in
theorem CopiedStr.here (h0 : 0 ∈ bytesAt s₁.mem r (n * PGSIZE + i) k) :
    CopiedStr p s s₂ r (n * PGSIZE + i) max (some ((bytesAt s₁.mem r (n * PGSIZE + i) k).takeWhile (· ≠ 0))) := by
  intro hmax hw
  have hsee : ∀ j < k, _ := fun j hj => h.sees hw hv hu (i := i) (by omega) hj (by omega)
  obtain ⟨hlt, hchars, hstop⟩ := takeWhile_zero _ h0
  rw [show (bytesAt s₁.mem r (n * PGSIZE + i) k).length = k by simp [bytesAt]] at hlt
  refine ⟨by omega, fun j hj => ?_, ?_⟩
  · rw [hsee j (by omega), (hchars j hj).1]
    exact ⟨rfl, (hchars j hj).2⟩
  · rw [hsee _ hlt, hstop]

omit [Image] in
theorem CopiedStr.step {res : Option (List UInt8)} (hn : n < NUPAGE) (h0 : 0 ∉ bytesAt s₁.mem r (n * PGSIZE + i) k)
    (hrest : CopiedStr p s₁ s₂ r (n * PGSIZE + PGSIZE) (max - k) res) :
    CopiedStr p s s₂ r (n * PGSIZE + i) max (res.map (bytesAt s₁.mem r (n * PGSIZE + i) k ++ ·)) := by
  intro hmax hw
  have hsee : ∀ j < k, _ := fun j hj => h.sees hw hv hu (i := i) (by omega) hj (by omega)
  have hlen : (bytesAt s₁.mem r (n * PGSIZE + i) k).length = k := by simp [bytesAt]
  have hne : ∀ j < k, (bytesAt s₁.mem r (n * PGSIZE + i) k).getD j 0 ≠ 0 := fun j hj hz => h0 (by
    rw [← hz, getD_eq_getElem _ _ (by omega)]
    exact getElem_mem _)
  generalize bytesAt s₁.mem r (n * PGSIZE + i) k = bs at *
  have hnext : ∀ j, k + j < max → p.sees s₁ r (n * PGSIZE + PGSIZE + j) = p.sees s r (n * PGSIZE + i + (k + j)) :=
    fun j hj => by
    rw [show n * PGSIZE + PGSIZE + j = n * PGSIZE + i + (k + j) by omega, h.seen hw _ (by omega)]
  have hr := hrest (by lia) (h.kept.filesWhole hw)
  cases res with
  | some str =>
    have hshort := hr.short
    refine ⟨by rw [length_append, hlen]; omega, fun j hj => ?_, ?_⟩
    · rw [length_append, hlen] at hj
      by_cases hjk : j < k
      · rw [getD_append _ _ _ _ (by omega), hsee j hjk]
        exact ⟨rfl, hne j hjk⟩
      · have hc := hr.chars (j - k) (by omega)
        rw [hnext _ (by omega), show k + (j - k) = j by omega] at hc
        rw [getD_append_right _ _ _ _ (by omega), hlen]
        exact hc
    · rw [length_append, hlen, ← hnext _ (by omega)]
      exact hr.stop
  | none =>
    refine hr.imp (fun hf => lt_of_le_of_lt h.fails hf) fun hno str hs => hno (str.drop k) ?_
    have hshort := hs.short
    -- the string goes on after this page, which has no zero
    have hle : k ≤ str.length := by
      by_contra hc
      have hz := hs.stop
      rw [hsee _ (by omega)] at hz
      exact hne _ (by omega) (Option.some.inj hz)
    refine ⟨by rw [length_drop]; omega, fun j hj => ?_, ?_⟩
    · rw [length_drop] at hj
      rw [hnext j (by omega), getD_eq_getElem?_getD, getElem?_drop, ← getD_eq_getElem?_getD]
      exact hs.chars (k + j) (by omega)
    · rw [length_drop, hnext _ (by omega), show k + (str.length - k) = str.length by omega]
      exact hs.stop

end

theorem wp_copyinstrLoop : ∀ (fuel : Nat) {s : Vs} {ρ : Owners} {srcva max : Nat} {Q : Option (List UInt8) → Vs → Prop},
    max ≤ fuel → UserOk p s R ρ H r → Unstopped p s.sys E → (0 < max → MAXVA ≤ srcva → E (.mem (.panic .walk))) →
    (∀ res s' ρ', UserOk p s' R ρ' H r → ReadIn p s s' R r → CopiedStr p s s' r srcva max res → Q res s') →
    wp (copyinstrLoop p r fuel srcva max) Q E s
  | 0, s, ρ, srcva, max, Q, hf, hU, _, _, h => by
    rw [copyinstrLoop, wp_pure]
    exact h none s ρ hU (ReadIn.refl ..) fun _ _ => .inr fun str hs => by have := hs.short; omega
  | fuel + 1, s, ρ, srcva, max, Q, hf, hU, hS, hwalk, h => by
    refine wp_ite (fun h0 => wp_ret (h none s ρ hU (ReadIn.refl ..) fun _ _ => .inr fun str hs => ?_)) fun h0 => ?_
    · have := hs.short; omega
    obtain ⟨hoff, hlt⟩ := page_off srcva
    simp only [wp_bind, PGROUNDDOWN]
    refine wp_pageIn hU hS (fun hm => hwalk (by omega) (by omega)) ?_ ?_
    · intro s₁ ρ1 hU1 hR1 hwhy
      refine wp_ret (h none s₁ ρ1 hU1 hR1 fun _ hw => hwhy.imp id fun hc str hs => ?_)
      -- a string has a first byte
      have hfirst := hc hw srcva rfl
      cases str with
      | nil => rw [show p.sees s r srcva = some 0 from hs.stop] at hfirst; cases hfirst
      | cons b str => rw [show p.sees s r srcva = _ from (hs.chars 0 (by simp)).1] at hfirst; cases hfirst
    intro s₁ ρ1 hn hU1 hR1 hv1 hu1
    generalize hkd : min (PGSIZE - (srcva - srcva / PGSIZE * PGSIZE)) max = k
    simp only [wp_bind, wp_onMem, wp_readBytes, next_page hn]
    rw [bytesAt_page hv1 (by omega)]
    refine wp_ite (fun hz => wp_ret (h _ s₁ ρ1 hU1 hR1 ?_)) fun hz => ?_
    · have hhere : CopiedStr p s s₁ r _ max _ := CopiedStr.here hR1 hv1 hu1 hkd.symm hlt hz
      rwa [← hoff] at hhere ⊢
    refine wp_seq (wp_copyinstrLoop fuel (by omega) hU1 (hS.kept hR1.kept) ?_ fun res s₂ ρ2 hU2 hR2 hstr => ?_)
    · -- the page after one of user memory lies below MAXVA
      intro _ hm
      lia
    · have hstr' := CopiedStr.step hR1 hv1 hu1 hkd.symm hlt hn hz hstr
      rw [← hoff] at hstr'
      cases res with
      | none => exact wp_ret (h none s₂ ρ2 hU2 (hR1.trans hR2) hstr')
      | some rest => exact wp_ret (h _ s₂ ρ2 hU2 (hR1.trans hR2) (by rw [← hoff]; exact hstr'))

/-! ## `copyout` -/

theorem Faulted.writable (h : Faulted p s s' R r n false (some pa)) (hU : UserOk p s R ρ H r) :
    n < NUPAGE ∧ (leaf s'.mem r n).has PTE_V ∧ (leaf s'.mem r n).has PTE_W ∧ PTE2PA (leaf s'.mem r n) = pa := by
  obtain ⟨e, upd, hv, hpa, -, hw⟩ := h.mapped hU.inv hU.held
  have hn := h.user (by simp)
  have hl := upd r hU.table n (NUPAGE_lt hn)
  rw [if_pos ⟨rfl, rfl⟩] at hl
  rw [hl]
  exact ⟨hn, hv, hw rfl, hpa⟩

omit [Image] in
theorem wp_entryOf {Q : Pte → Mem → Prop} {E : MemStop → Prop} (hn : n < NUPAGE)
    (hv : (leaf m r n).has PTE_V) (h : Q (leaf m r n) m) : wp (entryOf r (n * PGSIZE)) Q E m := by
  have hva : n * PGSIZE < MAXVA := by lia
  obtain ⟨a, ha, -⟩ := low_of_leaf hv
  unfold entryOf
  rw [wp_bind, wp_walk_read hva, page_div, ha]
  simp only [Option.map_some, wp_getPte]
  rw [← leaf_of_low ha]; exact h

/-- A page with entry `e` was made writable; one that is kept from the process must have been copy-on-write. -/
def Lands (e e' : Pte) : Prop :=
  e'.has PTE_V = true ∧ e'.has PTE_W = true ∧ (e'.has PTE_U = true ↔ ¬ Guarded e) ∧ (Guarded e → e.has PTE_COW = true)

omit [Image] in
theorem Faulted.lands (h : Faulted p s s' R r n false (some pa)) (hr : r ∈ R)
    (hv : (leaf s'.mem r n).has PTE_V) (hw : (leaf s'.mem r n).has PTE_W) :
    Lands (leaf s.mem r n) (leaf s'.mem r n) := by
  refine ⟨hv, hw, h.not_guarded hr, fun hg => ?_⟩
  cases h.out with
  | own _ hc _ _ => exact hc.2
  | copy _ _ hc _ _ _ => exact hc.2
  | heap _ hv _ _ _ _ | file _ _ _ hv _ _ _ _ _ _ _ => rw [hg.1] at hv; cases hv

def Landed (m m' : Mem) (r a len : Nat) : Prop :=
  ∀ n < 512 * 512 * 512, if ∃ j < len, (a + j) / PGSIZE = n then Lands (leaf m r n) (leaf m' r n)
  else leaf m' r n = leaf m r n

omit [Image] in
theorem Landed.refl (m : Mem) (r a : Nat) : Landed m m r a 0 := fun n _ => by
  rw [if_neg (by rintro ⟨j, hj, -⟩; omega)]

omit [Image] in
theorem Landed.step {m m1 m2 : Mem} {a k : Nat} (hO : OnlyAt m m1 R r (a / PGSIZE)) (hr : r ∈ R)
    (hl : Lands (leaf m r (a / PGSIZE)) (leaf m1 r (a / PGSIZE)))
    (hk : k = min (PGSIZE - (a - a / PGSIZE * PGSIZE)) len) (hlen : 0 < len)
    (h : Landed m1 m2 r (a / PGSIZE * PGSIZE + PGSIZE) (len - k)) : Landed m m2 r a len := by
  intro n hn
  have hrest := h n hn
  have hpast : ∀ j, (a / PGSIZE * PGSIZE + PGSIZE + j) / PGSIZE ≠ a / PGSIZE := fun j => by lia
  by_cases hfirst : n = a / PGSIZE
  · subst hfirst
    rw [if_neg (fun ⟨j, _, hj⟩ => hpast j hj)] at hrest
    rw [if_pos ⟨0, hlen, rfl⟩, hrest]
    exact hl
  · rw [hO r hr n hn fun hc => hfirst hc.2] at hrest
    by_cases hj : ∃ j < len - k, (a / PGSIZE * PGSIZE + PGSIZE + j) / PGSIZE = n
    · rw [if_pos hj] at hrest
      obtain ⟨j, hj, hjn⟩ := hj
      rwa [if_pos ⟨k + j, by omega, by lia⟩]
    · rw [if_neg hj] at hrest
      rwa [if_neg]
      rintro ⟨j, hjl, hjn⟩
      refine hj ⟨j - k, ?_, ?_⟩ <;> simp only [PGSIZE] at * <;> omega

theorem wp_writablePage (hU : UserOk p s R ρ H r) (hS : Unstopped p s.sys E) (hva : n * PGSIZE < MAXVA)
    (hnone : ∀ s' ρ', UserOk p s' R ρ' H r → Ran p s s' R r 0 [] → Q none s')
    (hsome : ∀ s' ρ', n < NUPAGE → UserOk p s' R ρ' H r → Ran p s s' R r 0 [] → OnlyAt s.mem s'.mem R r n →
      Lands (leaf s.mem r n) (leaf s'.mem r n) →
      Q (some (PTE2PA (leaf s'.mem r n))) s') : wp (writablePage p r (n * PGSIZE)) Q E s := by
  have hdiv : n * PGSIZE / PGSIZE = n := by lia
  have hwalk : MAXVA ≤ n * PGSIZE → E (.mem (.panic .walk)) := fun hc => absurd hva (not_lt.mpr hc)
  refine wp_seq (wp_userPage hU hS hwalk (fun hn hv hu => ?_) fun s₁ ρ1 res hc hU1 hF => ?_)
  · simp only [wp_bind, wp_onMem]
    refine wp_entryOf hn hv (wp_ite (fun hw => wp_ret ?_) fun hw => ?_)
    · exact hsome s ρ hn hU (Ran.refl ..) (fun _ _ _ _ _ => rfl) ⟨hv, hw, by simp [Guarded, hu]⟩
    -- mapped but not writable: this may be a page shared copy-on-write
    refine wp_seq (wp_vmfault hU.inv hU.held hU.table hU.bounded hU.alive hU.kern hwalk hS.1 hS.2
      fun s₁ ρ1 res _ hI1 hF => ?_)
    rw [hdiv] at hF
    have hU1 := hU.ran hI1 (hF.ran hU 0)
    cases res with
    | none => exact wp_ret (hnone s₁ ρ1 hU1 (hF.ran hU 0))
    | some pa =>
      obtain ⟨-, hv1, hw1, hpa⟩ := hF.writable hU
      obtain ⟨a, ha, -⟩ := low_of_leaf hv1
      simp only [wp_bind, wp_onMem]
      rw [wp_walk_read hva, page_div, ha]
      simp only [Option.map_some, wp_bind, wp_onMem, wp_getPte]
      rw [← leaf_of_low ha, if_pos hw1, ← hpa]
      exact wp_ret (hsome s₁ ρ1 hn hU1 (hF.ran hU 0) (hF.only hU.inv hU.held) (hF.lands hU.table hv1 hw1))
  · cases res with
    | none => exact wp_ret (hnone s₁ ρ1 hU1 (hF.ran hU 0))
    | some pa =>
      obtain ⟨hn, hv1, hw1, hpa⟩ := hF.writable hU
      simp only [wp_bind, wp_onMem]
      refine wp_entryOf hn hv1 ?_
      rw [if_pos hw1, ← hpa]
      exact wp_ret (hsome s₁ ρ1 hn hU1 (hF.ran hU 0) (hF.only hU.inv hU.held) (hF.lands hU.table hv1 hw1))

theorem wp_copyoutLoop : ∀ (fuel : Nat) {s : Vs} {ρ : Owners} {dstva : Nat} {src : List UInt8} {Q : Bool → Vs → Prop},
    src.length ≤ fuel → UserOk p s R ρ H r → Unstopped p s.sys E →
    (∀ ok k s' ρ', UserOk p s' R ρ' H r → k ≤ src.length → Ran p s s' R r dstva (src.take k) →
      (ok = true → k = src.length ∧ (src ≠ [] → dstva + src.length ≤ NUPAGE * PGSIZE) ∧
        Landed s.mem s'.mem r dstva src.length) →
      Q ok s') →
    wp (copyoutLoop p r fuel dstva src) Q E s
  | 0, s, ρ, dstva, src, Q, hlen, hU, _, h => by
    obtain rfl : src = [] := eq_nil_of_length_eq_zero (by omega)
    rw [copyoutLoop, wp_pure]
    exact h true 0 s ρ hU le_rfl (Ran.refl ..) fun _ => ⟨rfl, by simp, Landed.refl _ _ _⟩
  | fuel + 1, s, ρ, dstva, src, Q, hlen, hU, hS, h => by
    refine wp_ite (fun h0 => wp_ret ?_) fun h0 => ?_
    · subst h0
      exact h true 0 s ρ hU le_rfl (Ran.refl ..) fun _ => ⟨rfl, by simp, Landed.refl _ _ _⟩
    have hpos0 : 0 < src.length := length_pos_iff.mpr h0
    obtain ⟨hoff, hlt⟩ := page_off dstva
    simp only [PGROUNDDOWN]
    refine wp_ite (fun hm => wp_ret ?_) fun hm => ?_
    · exact h false 0 s ρ hU (Nat.zero_le _) (Ran.refl ..) (by simp)
    refine wp_seq (wp_writablePage hU hS (not_le.mp hm) ?_ ?_)
    · exact fun s₁ ρ1 hU1 hR1 => wp_ret (h false 0 s₁ ρ1 hU1 (Nat.zero_le _) (hR1.at dstva) (by simp))
    intro s₁ ρ1 hn hU1 hR1 hO1 hl1
    have hk := min_le_left (PGSIZE - (dstva - dstva / PGSIZE * PGSIZE)) src.length
    have hk' := min_le_right (PGSIZE - (dstva - dstva / PGSIZE * PGSIZE)) src.length
    generalize hkd : min (PGSIZE - (dstva - dstva / PGSIZE * PGSIZE)) src.length = k at hk hk'
    have hmore : k < src.length → dstva + k = dstva / PGSIZE * PGSIZE + PGSIZE := by omega
    have htake : (src.take k).length = k := by rw [length_take]; omega
    simp only [wp_bind, wp_onMem, wp_writeBytes, next_page hn]
    obtain ⟨hU2, hR2⟩ := hU1.write hn hl1.1 hl1.2.1
      (show dstva - dstva / PGSIZE * PGSIZE + (src.take k).length ≤ PGSIZE by omega)
    rw [← hoff] at hR2
    have hR2' := (hR1.at dstva).after hR2
    refine wp_copyoutLoop fuel (by rw [length_drop]; omega) hU2 (hS.kept hR1.kept)
      fun ok l s3 ρ3 hU3 hl hR3 hok => ?_
    rw [length_drop] at hl hok
    have hland := fun ht => Landed.step hO1 hU.table hl1 hkd.symm hpos0 (hok ht).2.2
    by_cases hlast : k < src.length
    · rw [← hmore hlast] at hR3 hok
      refine h ok (k + l) s3 ρ3 hU3 (by omega) ?_ ?_
      · rw [take_add]
        exact hR2'.trans (by rw [htake]; exact hR3)
      · intro ht
        obtain ⟨h1, h2, -⟩ := hok ht
        refine ⟨by omega, fun _ => ?_, hland ht⟩
        have := h2 (by rw [Ne, drop_eq_nil_iff]; omega)
        omega
    · obtain rfl : l = 0 := by omega
      have hR : Ran p s s3 R r dstva (src.take k) := by
        have := hR2'.trans (by rw [htake]; exact (Ran.at (by simpa using hR3) (dstva + k)))
        simpa using this
      refine h ok k s3 ρ3 hU3 hk' hR fun ht => ⟨by omega, fun _ => ?_, hland ht⟩
      lia

theorem wp_copyout {dstva : Nat} {src : List UInt8} {Q : Bool → Vs → Prop} (hU : UserOk p s R ρ H r)
    (hS : Unstopped p s.sys E)
    (h : ∀ ok k s' ρ', UserOk p s' R ρ' H r → k ≤ src.length → Ran p s s' R r dstva (src.take k) →
      (ok = true → k = src.length ∧ (src ≠ [] → dstva + src.length ≤ NUPAGE * PGSIZE) ∧
        Landed s.mem s'.mem r dstva src.length) →
      Q ok s') :
    wp (copyout p r dstva src) Q E s := wp_copyoutLoop src.length le_rfl hU hS h

end Xv6
