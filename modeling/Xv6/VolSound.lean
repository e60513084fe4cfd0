import Xv6.Blocks

/-!
# The inode layer on a disk that is in order

While a system call changes an inode, the copy in the inode table is ahead
of the disk. `v.seen ip D l` is such a state: the disk as it will be is `D`,
only the inode of entry `ip` has not been written to it yet, and the log is
`l`.
-/

namespace Xv6

open Hoare Owners Function List Finset

variable {Q : Nat → Vol → Prop} {n : Nat}

namespace Vol

variable {v : Vol} {D D' : Disk} {l l' l₀ : Log} {ip : Nat} {P T T' : Finset Nat} {E : VolStop → Prop}

def seen (v : Vol) (ip : Nat) (D : Disk) (l : Log) : Vol :=
  { v with
    disk := D.setInode (v.inode ip).inum (v.disk.dinode (v.inode ip).inum)
    inode := update v.inode ip ((v.inode ip).withCopy (D.dinode (v.inode ip).inum))
    log := l }

@[simp] theorem seen_copy (v : Vol) (ip : Nat) (D : Disk) (l : Log) :
    ((v.seen ip D l).inode ip).copy = D.dinode (v.inode ip).inum := by
  simp [seen, VInode.withCopy]

theorem seen_setBlock (v : Vol) (ip : Nat) (D : Disk) (l : Log) (b : Nat) (c : Block) :
    (v.seen ip D l).setBlock b c = v.seen ip { D with block := update D.block b c } l := rfl

theorem seen_setCopy (v : Vol) (ip : Nat) (D : Disk) (l : Log) (d : Dinode) :
    (v.seen ip D l).setCopy ip d = v.seen ip (D.setInode (v.inode ip).inum d) l := by
  simp [seen, setCopy, setInode, Disk.setInode, VInode.withCopy]

theorem setInode_inode_ne (hj : j ≠ ip) : (v.setInode ip x).inode j = v.inode j :=
  update_of_ne hj ..

@[simp] theorem setInode_inode (v : Vol) (ip : Nat) (x : VInode) : (v.setInode ip x).inode ip = x := update_self ..

def Synced (v : Vol) (ip : Nat) : Prop := (v.inode ip).copy = v.disk.dinode (v.inode ip).inum

theorem Synced.seen (h : v.Synced ip) : v.seen ip v.disk v.log = v := by
  unfold Synced at h
  unfold Vol.seen Disk.setInode VInode.withCopy
  simp only [← h, update_eq_self]
  rw [h, update_eq_self]

/-! ## Blocks in the log -/

theorem wp_begin_op {Q : Unit → Vol → Prop} (hl : v.log = ⟨0, false, []⟩) (h : Q () { v with log := ⟨1, false, []⟩ }) :
    wp begin_op Q E v := by
  unfold begin_op onLog Log.begin_op
  rw [wp_bind, wp_zoom, hl, wp_read, if_neg (by decide), if_neg (by decide), wp_bind, wp_set]
  exact wp_ret (wp_ite (fun _ => wp_ret h) fun hc => absurd rfl hc)

/-- A transaction that began with log `l₀` has logged only blocks of `T` since. -/
structure Added (l₀ l : Log) (T : Finset Nat) : Prop where
  inside : 1 ≤ l.outstanding
  new : ∃ bs : List Nat, l.lh = l₀.lh ++ bs ∧ bs.Nodup ∧ ∀ b ∈ bs, b ∈ T

theorem Added.mono (h : Added l₀ l T) (hT : T ⊆ T') : Added l₀ l T' := by
  obtain ⟨bs, he, hn, hb⟩ := h.new
  exact ⟨h.inside, bs, he, hn, fun b hm => hT (hb b hm)⟩

theorem Added.length_le (h : Added l₀ l T) : l.lh.length ≤ l₀.lh.length + T.card := by
  obtain ⟨bs, he, hn, hb⟩ := h.new
  have hle : bs.length ≤ T.card := by
    rw [← List.toFinset_card_of_nodup hn]
    exact Finset.card_le_card fun b hm => hb b (List.mem_toFinset.mp hm)
  rw [he, List.length_append]
  omega

theorem wp_log_write {Q : Unit → Vol → Prop} {b : Nat} (h : Added l₀ v.log T) (hb : b ∈ T)
    (hr : l₀.lh.length + T.card < LOGBLOCKS ∨ E (.log .tooBig))
    (hQ : ∀ l, Added l₀ l T → Q () { v with log := l }) : wp (log_write b) Q E v := by
  unfold log_write onLog Log.log_write
  rw [wp_zoom, wp_read]
  refine wp_ite (fun hbig => wp_fail ?_) fun _ => ?_
  · have := h.length_le
    exact hr.resolve_left (by omega)
  refine wp_ite (fun hout => absurd h.inside (by omega)) fun _ => wp_ite (fun _ => wp_ret (hQ _ h)) fun hnew => ?_
  obtain ⟨bs, he, hn, hT⟩ := h.new
  rw [he, List.mem_append, not_or] at hnew
  refine wp_put (hQ _ ⟨h.inside, bs ++ [b], by rw [he, List.append_assoc], ?_, fun c hc => ?_⟩)
  · exact hn.append (List.nodup_singleton b) (by simpa using hnew.2)
  · rcases List.mem_append.mp hc with hc | hc
    · exact hT c hc
    · rwa [List.mem_singleton.mp hc]

/-- The blocks of the file system itself that a write to inode `i` may log. -/
def metas (sb : Super) (i : Nat) : Finset Nat :=
  insert (IBLOCK i sb) ((Finset.range sb.size).image fun b => BBLOCK b sb)

def Logs (v : Vol) (ip : Nat) (P : Finset Nat) (D : Disk) (l : Log) : Prop :=
  Added v.log l (metas v.sb (v.inode ip).inum ∪ (P.image fun n => D.own ((v.inode ip).inum, n)).erase 0)

/-- The log takes what a write to the places `P` may log. -/
def Room (v : Vol) (ip : Nat) (P : Finset Nat) : Prop :=
  v.log.lh.length + (metas v.sb (v.inode ip).inum).card + P.card < LOGBLOCKS

theorem room_logs (h : Room v ip P ∨ E (.log .tooBig)) (D : Disk) : v.log.lh.length +
    (metas v.sb (v.inode ip).inum ∪ (P.image fun n => D.own ((v.inode ip).inum, n)).erase 0).card < LOGBLOCKS ∨
      E (.log .tooBig) := by
  refine h.imp_left fun h => ?_
  have h₁ := Finset.card_union_le (metas v.sb (v.inode ip).inum) ((P.image fun n => D.own ((v.inode ip).inum, n)).erase 0)
  have h₂ := Finset.card_erase_le (a := 0) (s := P.image fun n => D.own ((v.inode ip).inum, n))
  have h₃ := Finset.card_image_le (s := P) (f := fun n => D.own ((v.inode ip).inum, n))
  unfold Room at h
  omega

theorem Logs.keep (h : Logs v ip P D l) (hk : ∀ p, D.own p ≠ 0 → D'.own p = D.own p) : Logs v ip P D' l := by
  refine h.mono (Finset.union_subset_union_right fun b hb => ?_)
  obtain ⟨hb0, hb⟩ := Finset.mem_erase.mp hb
  obtain ⟨n, hn, rfl⟩ := Finset.mem_image.mp hb
  exact Finset.mem_erase.mpr ⟨hb0, Finset.mem_image.mpr ⟨n, hn, hk _ hb0⟩⟩

theorem mem_owned (hn : n ∈ P) (hb : D.own ((v.inode ip).inum, n) = b) (h0 : b ≠ 0) :
    b ∈ metas v.sb (v.inode ip).inum ∪ (P.image fun n => D.own ((v.inode ip).inum, n)).erase 0 :=
  Finset.mem_union_right _ (Finset.mem_erase.mpr ⟨h0, Finset.mem_image.mpr ⟨n, hn, hb⟩⟩)

theorem mem_bitmap (hb : b < v.sb.size) : BBLOCK b v.sb ∈ metas v.sb i :=
  Finset.mem_insert_of_mem (Finset.mem_image_of_mem (fun b => BBLOCK b v.sb) (Finset.mem_range.mpr hb))

/-! ## Free blocks -/

def free (sb : Super) (D : Disk) : Nat := {b ∈ Finset.range sb.size | D.used b = false}.card

def lacking (D : Disk) (i : Nat) (P : Finset Nat) : Nat := {n ∈ P | D.own (i, n) = 0}.card

def Spent (sb : Super) (i : Nat) (P : Finset Nat) (D D' : Disk) : Prop :=
  free sb D' + lacking D i P = free sb D + lacking D' i P

theorem Spent.alloc {sb : Super} {i b : Nat} {P : Finset Nat} (hn : n ∈ P) (hb : D.used b = false) (hlt : b < sb.size)
    (h0 : D.own (i, n) = 0) (hb0 : b ≠ 0) (hu : D'.used = update D.used b true)
    (ho : D'.own = update D.own (i, n) b) : Spent sb i P D D' := by
  have hfree : {c ∈ Finset.range sb.size | D'.used c = false} = {c ∈ Finset.range sb.size | D.used c = false}.erase b := by
    ext c
    by_cases hc : c = b
    · simp [hc, hu]
    · simp [hc, hu, update_of_ne]
  have hlack : {m ∈ P | D'.own (i, m) = 0} = {m ∈ P | D.own (i, m) = 0}.erase n := by
    ext m
    by_cases hm : m = n
    · simp [hm, ho, hb0]
    · simp [hm, ho, update_of_ne]
  have h1 : b ∈ {c ∈ Finset.range sb.size | D.used c = false} := by simp [hlt, hb]
  have h2 : n ∈ {m ∈ P | D.own (i, m) = 0} := by simp [hn, h0]
  unfold Spent free lacking
  rw [hfree, hlack, ← Finset.card_erase_add_one h1, ← Finset.card_erase_add_one h2]
  omega

theorem Spent.trans {sb : Super} {i : Nat} {P : Finset Nat} {D₁ : Disk} (h₁ : Spent sb i P D D₁) (h₂ : Spent sb i P D₁ D') :
    Spent sb i P D D' := by
  unfold Spent at *
  omega

structure Took (v : Vol) (ip : Nat) (P : Finset Nat) (n : Nat) (D : Disk) (l : Log) (D' : Disk) (l' : Log) : Prop
    extends Extended v.sb (v.inode ip).inum D D' where
  same : D.own ((v.inode ip).inum, n) ≠ 0 → D' = D ∧ l' = l
  spent : Spent v.sb (v.inode ip).inum P D D'
  full : D'.own ((v.inode ip).inum, n) = 0 → free v.sb D' = 0
  logs : Logs v ip P D l → Logs v ip P D' l'

theorem Took.none (h : OneOwner v.sb D) (hf : D.own ((v.inode ip).inum, n) = 0 → free v.sb D = 0) :
    Took v ip P n D l D l where
  toExtended := h.extended _
  same _ := ⟨rfl, rfl⟩
  spent := rfl
  full := hf
  logs h := h

theorem Took.alloc {b : Nat} (hD : OneOwner v.sb D) (hn : n ∈ P) (he : Extended v.sb (v.inode ip).inum D D')
    (hb : D.used b = false) (hlt : b < v.sb.size)
    (h0 : D.own ((v.inode ip).inum, n) = 0) (hu : D'.used = update D.used b true)
    (ho : D'.own = update D.own ((v.inode ip).inum, n) b) (hl : Logs v ip P D' l') : Took v ip P n D l D' l' where
  toExtended := he
  same h := absurd h0 h
  spent := .alloc hn hb hlt h0 (hD.exact.ne_zero hb) hu ho
  full h := absurd h (by rw [ho, update_self]; exact hD.exact.ne_zero hb)
  logs _ := hl

theorem wp_balloc (l₀ : Log) (T : Nat → Finset Nat) (hl : ∀ b, b < v.sb.size → v.disk.used b = false → Added l₀ v.log (T b) ∧
      BBLOCK b v.sb ∈ T b ∧ b ∈ T b ∧ (l₀.lh.length + (T b).card < LOGBLOCKS ∨ E (.log .tooBig)))
    (hnone : free v.sb v.disk = 0 → Q 0 v) (hsome : ∀ b l, b < v.sb.size → v.disk.used b = false → Added l₀ l (T b) →
      Q b { (v.setUsed b true).setBlock b fun _ => 0 with log := l }) : wp balloc Q E v := by
  unfold balloc
  rw [wp_read]
  cases hf : (List.range v.sb.size).find? fun b => !v.disk.used b with
  | none =>
    refine wp_ret (hnone (Finset.card_eq_zero.mpr (Finset.filter_eq_empty_iff.mpr fun b hb hu => ?_)))
    have := List.find?_eq_none.mp hf b (List.mem_range.mpr (Finset.mem_range.mp hb))
    rw [hu] at this
    exact this rfl
  | some b =>
    have hb : v.disk.used b = false := by simpa using find?_some hf
    have hlt := List.mem_range.mp (mem_of_find?_eq_some hf)
    obtain ⟨ha, h₁, h₂, hr⟩ := hl b hlt hb
    simp only [wp_bind, wp_modify]
    refine wp_log_write ha h₁ hr fun l hl => ?_
    exact wp_log_write (v := { (v.setUsed b true).setBlock b fun _ => 0 with log := l }) hl h₂ hr fun l' hl' =>
      wp_ret (hsome b l' hlt hb hl')

section
variable (hsb : SuperOk v.sb) (hD : OneOwner v.sb D) (hn : n ∈ P)
include hD hn

/-- Block `b` goes to place `n`, which was empty, and gives disk `D' b`. -/
theorem wp_balloc_place (D' : Nat → Disk)
    (hl : Logs v ip P D l ∧ (Room v ip P ∨ E (.log .tooBig))) (h0 : D.own ((v.inode ip).inum, n) = 0)
    (hown : ∀ b, b < v.sb.size → D.used b = false → (D' b).own = update D.own ((v.inode ip).inum, n) b)
    (hnone : free v.sb D = 0 → Q 0 (v.seen ip D l)) (hsome : ∀ b l', b < v.sb.size → D.used b = false → b ≠ 0 →
      Logs v ip P (D' b) l' → Q b { ((v.seen ip D l).setUsed b true).setBlock b fun _ => 0 with log := l' }) :
    wp balloc Q E (v.seen ip D l) := by
  refine wp_balloc (v := v.seen ip D l) v.log (fun b => metas v.sb (v.inode ip).inum ∪
    (P.image fun n => (D' b).own ((v.inode ip).inum, n)).erase 0) (fun b hlt hb => ?_) hnone fun b l' hlt hb hl' => ?_
  · have hb0 : b ≠ 0 := hD.exact.ne_zero hb
    have hnew := hown b hlt hb
    refine ⟨hl.1.keep fun p hp => ?_, Finset.mem_union_left _ (mem_bitmap hlt), ?_, room_logs hl.2 _⟩
    · rw [hnew, update_of_ne]
      rintro rfl
      exact hp h0
    · exact mem_owned hn (by rw [hnew, update_self]) hb0
  · exact hsome b l' hlt hb (hD.exact.ne_zero hb) hl'

variable (ht : (D.dinode (v.inode ip).inum).type ≠ .T_NONE)
include ht

theorem wp_bmapAddr (hle : n ≤ NDIRECT)
    (hl : D.own ((v.inode ip).inum, n) = 0 → Logs v ip P D l ∧ (Room v ip P ∨ E (.log .tooBig)))
    (hQ : ∀ D' l', Took v ip P n D l D' l' → Q (D'.own ((v.inode ip).inum, n)) (v.seen ip D' l')) :
    wp (bmapAddr ip n) Q E (v.seen ip D l) := by
  have hown : D.own ((v.inode ip).inum, n) = (D.dinode (v.inode ip).inum).addrs n := by
    rw [D.own_of_type ht, Dinode.place_direct hle]
  unfold bmapAddr
  simp only [wp_bind, wp_get, seen_copy]
  refine wp_ite (fun h0 => ?_) fun h0 => ?_
  · have hnew := fun b hb => own_giveAddr (b := b) hD hb ht hle h0
    refine wp_seq (wp_balloc_place hD hn (D.giveAddr (v.inode ip).inum n) (hl (hown.trans h0)) (hown.trans h0)
      (fun b _ hb => hnew b hb) (fun hf => ?_) fun b l' hlt hb hb0 hl' => ?_)
    · refine wp_ite (fun h => absurd rfl h) fun _ => wp_ret ?_
      have hsame := hQ D l (.none hD fun _ => hf)
      rwa [hown, h0] at hsame
    · rw [if_pos hb0, wp_bind, wp_modify, wp_pure]
      have hq := hQ _ l' (.alloc hD hn (hD.giveAddr hb ht hle h0 hlt) hb hlt (hown.trans h0) rfl (hnew b hb) hl')
      rw [hnew b hb, update_self] at hq
      refine Eq.subst (motive := Q b) (Eq.symm ?_) hq
      exact seen_setCopy v ip { D with used := update D.used b true, block := update D.block b fun _ => 0 } l' _
  · rw [wp_pure, ← hown]
    exact hQ D l (.none hD fun h => absurd (hown.symm.trans h) h0)

include hsb in
theorem wp_bmapEntry {a j : Nat} (hj : j < NINDIRECT) (hnj : n = NDIRECT + 1 + j) (hi : NDIRECT ∈ P)
    (ha : D.own ((v.inode ip).inum, NDIRECT) = a) (ha0 : a ≠ 0)
    (hl : D.own ((v.inode ip).inum, n) = 0 → Logs v ip P D l ∧ (Room v ip P ∨ E (.log .tooBig)))
    (hQ : ∀ D' l', Took v ip P n D l D' l' → Q (D'.own ((v.inode ip).inum, n)) (v.seen ip D' l')) :
    wp (bmapEntry a j) Q E (v.seen ip D l) := by
  subst hnj
  have hind : (D.dinode (v.inode ip).inum).addrs NDIRECT = a := by
    rw [← ha, D.own_of_type ht, Dinode.place_direct le_rfl]
  have hown : D.own ((v.inode ip).inum, NDIRECT + 1 + j) = word (D.block a) j := by
    rw [D.own_of_type ht, Dinode.place_entry (by rw [hind]; exact ha0) hj, hind]
  unfold bmapEntry
  rw [wp_read]
  refine wp_ite (fun h0 => ?_) fun h0 => ?_
  · have h0 : word (D.block a) j = 0 := h0
    have hl := hl (hown.trans h0)
    have hlt32 : ∀ b, b < v.sb.size → b < 4294967296 := fun b hlt => lt_of_lt_of_le hlt hsb.size_le
    have hnew := fun b hlt hb => own_giveEntry (b := b) hD hb ht hj hind ha0 (hlt32 b hlt)
    refine wp_seq (wp_balloc_place hD hn (D.giveEntry a j) hl (hown.trans h0) hnew (fun hf => ?_)
      fun b l' hlt hb hb0 hl' => ?_)
    · refine wp_ite (fun h => absurd rfl h) fun _ => wp_ret ?_
      have hsame := hQ D l (.none hD fun _ => hf)
      rwa [hown, h0] at hsame
    · have hext := hD.giveEntry hb ht hj hind ha0 (hlt32 b hlt) h0 hlt
      have hkeep : (D.giveEntry a j b).own ((v.inode ip).inum, NDIRECT) = a := by rw [hext.keep _ (by rwa [ha]), ha]
      rw [if_pos hb0, wp_bind, wp_modify, wp_bind]
      refine wp_log_write (v := v.seen ip (D.giveEntry a j b) l') hl' (mem_owned hi hkeep ha0) (room_logs hl.2 _)
        fun l₂ hl₂ => wp_ret ?_
      have hq := hQ _ l₂ (.alloc hD hn hext hb hlt (hown.trans h0) rfl (hnew b hlt hb) hl₂)
      rwa [hnew b hlt hb, update_self] at hq
  · have hsame := hQ D l (.none hD fun h => absurd (hown.symm.trans h) h0)
    rw [hown] at hsame
    exact wp_ret hsame

end

theorem wp_bmap (hsb : SuperOk v.sb) (hD : OneOwner v.sb D) (ht : (D.dinode (v.inode ip).inum).type ≠ .T_NONE)
    (hbn : bn < MAXFILE) (hn : blockPlace bn ∈ P) (hi : NDIRECT < blockPlace bn → NDIRECT ∈ P)
    (hl : D.own ((v.inode ip).inum, blockPlace bn) = 0 → Logs v ip P D l ∧ (Room v ip P ∨ E (.log .tooBig)))
    (hQ : ∀ D' l', Took v ip P (blockPlace bn) D l D' l' →
      Q (D'.own ((v.inode ip).inum, blockPlace bn)) (v.seen ip D' l')) : wp (bmap ip bn) Q E (v.seen ip D l) := by
  refine wp_ite (fun hlt => ?_) fun hge => ?_
  · have hp : blockPlace bn = bn := if_pos hlt
    rw [hp] at hl hQ hn
    exact wp_bmapAddr hD hn ht (le_of_lt hlt) hl hQ
  · have hp : blockPlace bn = NDIRECT + 1 + (bn - NDIRECT) := by
      rw [blockPlace, if_neg hge]
      omega
    have hj : bn - NDIRECT < NINDIRECT := by lia
    have hgt : NDIRECT < blockPlace bn := by omega
    rw [if_pos hj, wp_bind]
    refine wp_bmapAddr hD (hi hgt) ht le_rfl (fun h0 => hl ?_) fun D1 l1 h₁ => ?_
    · refine Classical.byContradiction fun h1 => ?_
      exact Disk.own_indirect h1 hgt h0
    · refine wp_ite (fun h0 => ?_) fun ha0 => ?_
      · have hentry : D1.own ((v.inode ip).inum, blockPlace bn) = 0 :=
          Classical.byContradiction fun h1 => Disk.own_indirect h1 hgt h0
        have hq := hQ D1 l1 ⟨h₁.toExtended, fun h1 => absurd (h₁.keep _ h1) (by rw [hentry]; exact Ne.symm h1),
          h₁.spent, fun _ => h₁.full h0, h₁.logs⟩
        rw [hentry] at hq
        exact wp_ret hq
      · refine wp_bmapEntry hsb h₁.owned hn (h₁.type_ne ht) hj hp (hi hgt) rfl ha0 (fun h1 => ?_) fun D2 l2 h₂ =>
          hQ D2 l2 ⟨h₁.trans h₂.toExtended, fun h1 => ?_, h₁.spent.trans h₂.spent, h₂.full, fun h => h₂.logs (h₁.logs h)⟩
        · have := hl (Classical.byContradiction fun h2 => absurd (h₁.keep _ h2) (by rw [h1]; exact Ne.symm h2))
          exact ⟨h₁.logs this.1, this.2⟩
        · obtain ⟨he, hel⟩ := h₁.same (Disk.own_indirect h1 hgt)
          rw [he, hel] at h₂
          exact h₂.same h1

def readResult (D : Disk) (i off n : Nat) : Int × List UInt8 :=
  let size := (D.dinode i).size
  if size < off ∨ addWraps off n then (0, [])
  else
    let n := if size < off + n then size - off else n
    (n, (List.range n).map fun k => D.byteAt i (off + k))

variable (hsb : SuperOk v.sb) (hD : DiskOk v.sb v.disk) (hs : v.Synced ip)
  (ht : (v.disk.dinode (v.inode ip).inum).type ≠ .T_NONE)
include hsb hD hs ht

theorem wp_readLoop {Q : Int × List UInt8 → Vol → Prop} {fails : Nat → Bool} :
    ∀ {fuel off tot : Nat} {bytes : List UInt8}, off + (n - tot) ≤ (v.disk.dinode (v.inode ip).inum).size → tot ≤ n →
      (tot < n → n - tot + off % BSIZE ≤ fuel * BSIZE) → ((∃ t, fails t) → ∀ bs, Q (-1, bs) v) →
      Q (n, bytes ++ (List.range (n - tot)).map fun k => v.disk.byteAt (v.inode ip).inum (off + k)) v →
      wp (readLoop fails ip n fuel off tot bytes) Q E v
  | 0, off, tot, bytes, _, htot, hfuel, _, hok => by
    have hn : tot = n := by
      refine Classical.byContradiction fun hne => ?_
      omega
    subst hn
    unfold readLoop
    simpa using hok
  | fuel + 1, off, tot, bytes, hsize, htot, hfuel, hfail, hok => by
    refine wp_ite (fun hlt => ?_) fun hge => ?_
    · have hmap : v.disk.own ((v.inode ip).inum, blockPlace (off / BSIZE)) ≠ 0 :=
        (hD.sized _ ht).mapped _ (by lia)
      have hbn : off / BSIZE < MAXFILE := by
        have := (hD.sized _ ht).size_le
        lia
      have hbmap : wp (bmap ip (off / BSIZE))
          (fun a v' => a = v.disk.own ((v.inode ip).inum, blockPlace (off / BSIZE)) ∧ v' = v) E
          (v.seen ip v.disk v.log) :=
        wp_bmap (P := {blockPlace (off / BSIZE), NDIRECT}) hsb hD.owned ht hbn (by simp) (by simp)
          (fun h0 => absurd h0 hmap) fun D' l' h => by
            obtain ⟨rfl, rfl⟩ := h.same hmap
            exact ⟨rfl, hs.seen⟩
      rw [hs.seen] at hbmap
      refine wp_seq (wp_post hbmap fun a v' h => ?_)
      rw [h.1, h.2, if_neg hmap, wp_bind, wp_get]
      refine wp_ite (fun hf => wp_ret (hfail ⟨tot, hf⟩ _)) fun _ => ?_
      obtain ⟨m, hm⟩ : ∃ m, m = min (n - tot) (BSIZE - off % BSIZE) := ⟨_, rfl⟩
      rw [← hm]
      have hbytes : (List.range m).map (fun i => v.disk.block (v.disk.own ((v.inode ip).inum, blockPlace (off / BSIZE)))
          (off % BSIZE + i)) = (List.range m).map fun k => v.disk.byteAt (v.inode ip).inum (off + k) := by
        refine List.map_congr_left fun k hk => ?_
        have hk := List.mem_range.mp hk
        have hdiv : (off + k) / BSIZE = off / BSIZE := by lia
        have hmod : (off + k) % BSIZE = off % BSIZE + k := by lia
        rw [Disk.byteAt, hdiv, hmod, if_neg hmap]
      refine wp_readLoop (by omega) (by omega) (fun hlt' => ?_) hfail ?_
      · have := hfuel hlt
        lia
      · have hrest : n - tot = m + (n - (tot + m)) := by omega
        rw [hrest, List.range_add, List.map_append, List.map_map] at hok
        rw [hbytes, List.append_assoc]
        have hcomp : ((fun k => v.disk.byteAt (v.inode ip).inum (off + k)) ∘ fun x => m + x) =
            fun k => v.disk.byteAt (v.inode ip).inum (off + m + k) := by
          funext k
          rw [comp_apply, Nat.add_assoc]
        rwa [hcomp] at hok
    · have hn : tot = n := by omega
      subst hn
      simpa using hok

theorem wp_readi {Q : Int × List UInt8 → Vol → Prop} {fails : Nat → Bool} {off : Nat}
    (hfail : (∃ t, fails t) → ∀ bs, Q (-1, bs) v) (hok : Q (readResult v.disk (v.inode ip).inum off n) v) :
    wp (readi fails ip off n) Q E v := by
  unfold readi
  rw [wp_read]
  rw [hs]
  unfold readResult at hok
  refine wp_ite (fun hout => ?_) fun hin => ?_
  · rw [if_pos hout] at hok
    exact wp_ret hok
  · rw [if_neg hin] at hok
    refine wp_readLoop hsb hD hs ht ?_ (Nat.zero_le _) (fun _ => ?_) hfail ?_
    · split <;> omega
    · lia
    · simpa using hok

end Vol

end Xv6
