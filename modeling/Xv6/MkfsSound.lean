import Xv6.Mkfs
import Xv6.VolSound

/-!
# What mkfs writes

An inode that was written is read back, and no other one is changed by it. So
on the disk that the kernel sees, with the blocks below `freeblock` in use,
`ialloc` makes a new empty file and `iappend` adds bytes to the end of a file
as `writei` does.
-/

namespace Xv6

open Hoare Vol Owners Function List

variable {j r : Nat} {Q : Unit → Mkfs → Prop} {D : Disk}

/-! ## Inodes in blocks -/

theorem toNat_byteOf (w j : Nat) : (byteOf w j).toNat = w / 256 ^ j % 256 := by
  unfold byteOf
  rw [UInt8.toNat_ofNat']

structure Dinode.Plain (d : Dinode) : Prop where
  major : short (ushort d.major) = d.major
  minor : short (ushort d.minor) = d.minor
  nlink : short (ushort d.nlink) = d.nlink
  size : d.size < 4294967296
  addrs : ∀ n, d.addrs n < 4294967296
  none : ∀ n, NDIRECT < n → d.addrs n = 0

theorem Dinode.Plain.setAddr {d : Dinode} (h : d.Plain) {n b : Nat} (hn : n ≤ NDIRECT) (hb : b < 4294967296) :
    (d.setAddr n b).Plain := by
  refine ⟨h.major, h.minor, h.nlink, h.size, fun m => ?_, fun m hm => ?_⟩
  · by_cases hmn : m = n
    · rw [hmn, Dinode.setAddr_self]
      exact hb
    · rw [Dinode.setAddr_ne hmn]
      exact h.addrs m
  · rw [Dinode.setAddr_ne (by omega)]
    exact h.none m hm

theorem Dinode.Plain.withSize {d : Dinode} (h : d.Plain) {n : Nat} (hn : n ≤ MAXFILE * BSIZE) : (d.withSize n).Plain :=
  ⟨h.major, h.minor, h.nlink, lt_of_le_of_lt hn (by decide), h.addrs, h.none⟩

section
variable {b : Block} {k : Nat} {d : Dinode}

theorem putDinode_at (hr : r < 64) : putDinode b k d (64 * k + r) = d.byte r := by
  rw [putDinode, if_pos (by omega), Nat.add_sub_cancel_left]

theorem putDinode_ne (hk : k' ≠ k) (hr : r < 64) : putDinode b k d (64 * k' + r) = b (64 * k' + r) :=
  if_neg (by omega)

theorem ofNum_num (t : IType) : IType.ofNum t.num = t := by
  cases t <;> rfl

theorem num_lt (t : IType) : t.num < 65536 := by
  cases t <;> decide

theorem ushort_lt (n : Int) : ushort n < 65536 := by
  unfold ushort
  omega

theorem half_putDinode (ho : o + 1 < 64) (h0 : d.byte o = byteOf w 0) (h1 : d.byte (o + 1) = byteOf w 1)
    (hw : w < 65536) : half (putDinode b k d) (64 * k + o) = w := by
  unfold half
  rw [Nat.add_assoc, putDinode_at (by omega), putDinode_at ho, h0, h1, toNat_byteOf, toNat_byteOf]
  omega

theorem word_putDinode (hj : j < 16) (h : ∀ r, r < 4 → d.byte (4 * j + r) = byteOf w r) (hw : w < 4294967296) :
    word (putDinode b k d) (16 * k + j) = w := by
  have hb : ∀ r, r < 4 → putDinode b k d (4 * (16 * k + j) + r) = byteOf w r := by
    intro r hr
    rw [show 4 * (16 * k + j) + r = 64 * k + (4 * j + r) by omega, putDinode_at (by omega), h r hr]
  have h0 := hb 0 (by decide)
  rw [Nat.add_zero] at h0
  unfold word
  rw [h0, hb 1 (by decide), hb 2 (by decide), hb 3 (by decide)]
  simp only [toNat_byteOf]
  omega

theorem byte_addr (hr : r < 4) : d.byte (4 * (3 + n) + r) = byteOf (d.addrs n) r := by
  unfold Dinode.byte
  rw [if_neg (by omega), if_neg (by omega), if_neg (by omega), if_neg (by omega), if_neg (by omega),
    show (4 * (3 + n) + r - 12) / 4 = n by omega, show (4 * (3 + n) + r - 12) % 4 = r by omega]

theorem byte_size (hr : r < 4) : d.byte (4 * 2 + r) = byteOf d.size r := by
  unfold Dinode.byte
  rw [if_neg (by omega), if_neg (by omega), if_neg (by omega), if_neg (by omega), if_pos (by omega),
    Nat.add_sub_cancel_left]

theorem getDinode_self (hd : d.Plain) : getDinode (putDinode b k d) k = d := by
  have htype : half (putDinode b k d) (64 * k) = d.type.num := half_putDinode (o := 0) (by decide) rfl rfl (num_lt _)
  have hmajor : half (putDinode b k d) (64 * k + 2) = ushort d.major := half_putDinode (by decide) rfl rfl (ushort_lt _)
  have hminor : half (putDinode b k d) (64 * k + 4) = ushort d.minor := half_putDinode (by decide) rfl rfl (ushort_lt _)
  have hnlink : half (putDinode b k d) (64 * k + 6) = ushort d.nlink := half_putDinode (by decide) rfl rfl (ushort_lt _)
  have hsize : word (putDinode b k d) (16 * k + 2) = d.size := word_putDinode (by decide) (fun r hr => byte_size hr) hd.size
  have haddrs : (fun n => if n ≤ NDIRECT then word (putDinode b k d) (16 * k + 3 + n) else 0) = d.addrs := by
    funext n
    by_cases hn : n ≤ NDIRECT
    · rw [if_pos hn, Nat.add_assoc]
      simp only [NDIRECT] at hn
      exact word_putDinode (by omega) (fun r hr => byte_addr hr) (hd.addrs n)
    · rw [if_neg hn, hd.none n (Nat.lt_of_not_le hn)]
  unfold getDinode
  rw [htype, hmajor, hminor, hnlink, hsize, haddrs, ofNum_num, hd.major, hd.minor, hd.nlink]

theorem short_ushort (n : Int) : short (ushort (short n)) = short n := by
  unfold short ushort
  omega

theorem word_lt (b : Block) (j : Nat) : word b j < 4294967296 := by
  have h0 := (b (4 * j)).toNat_lt
  have h1 := (b (4 * j + 1)).toNat_lt
  have h2 := (b (4 * j + 2)).toNat_lt
  have h3 := (b (4 * j + 3)).toNat_lt
  unfold word
  omega

theorem plain_getDinode (b : Block) (k : Nat) : (getDinode b k).Plain := by
  refine ⟨short_ushort _, short_ushort _, short_ushort _, word_lt _ _, fun n => ?_, fun n hn => if_neg (not_le.mpr hn)⟩
  unfold getDinode
  dsimp only
  split
  · exact word_lt _ _
  · omega

theorem plain_zero : Dinode.zero.Plain :=
  have h0 : 0 < 4294967296 := by omega
  ⟨by decide, by decide, by decide, h0, fun _ => h0, fun _ _ => rfl⟩

theorem getDinode_ne (hk : k' ≠ k) : getDinode (putDinode b k d) k' = getDinode b k' := by
  have hhalf : ∀ o, o + 1 < 64 → half (putDinode b k d) (64 * k' + o) = half b (64 * k' + o) := by
    intro o ho
    unfold half
    rw [Nat.add_assoc, putDinode_ne hk (by omega), putDinode_ne hk ho]
  have hword : ∀ j, j < 16 → word (putDinode b k d) (16 * k' + j) = word b (16 * k' + j) := by
    intro j hj
    have hb : ∀ r, r < 4 → putDinode b k d (4 * (16 * k' + j) + r) = b (4 * (16 * k' + j) + r) := by
      intro r hr
      rw [show 4 * (16 * k' + j) + r = 64 * k' + (4 * j + r) by omega]
      exact putDinode_ne hk (by omega)
    have h0 := hb 0 (by decide)
    rw [Nat.add_zero] at h0
    unfold word
    rw [h0, hb 1 (by decide), hb 2 (by decide), hb 3 (by decide)]
  have h0 := hhalf 0 (by decide)
  rw [Nat.add_zero] at h0
  have haddrs : (fun n => if n ≤ NDIRECT then word (putDinode b k d) (16 * k' + 3 + n) else 0) =
      fun n => if n ≤ NDIRECT then word b (16 * k' + 3 + n) else 0 := by
    funext n
    by_cases hn : n ≤ NDIRECT
    · rw [if_pos hn, if_pos hn, Nat.add_assoc]
      simp only [NDIRECT] at hn
      exact hword (3 + n) (by omega)
    · rw [if_neg hn, if_neg hn]
  unfold getDinode
  rw [h0, hhalf 2 (by decide), hhalf 4 (by decide), hhalf 6 (by decide), hword 2 (by decide), haddrs]

end

namespace Mkfs

/-! ## The disk while it is being made -/

abbrev vsb : Super := ⟨FSSIZE, 2 + nlog, 2 + nlog + ninodeblocks, nmeta⟩

/-- The disk that the kernel would see if the blocks below `freeblock` were marked. -/
def view (s : Mkfs) : Disk := { s.disk with used := fun b => decide (b < s.freeblock) }

def put (s : Mkfs) (x : Nat) (buf : Block) : Mkfs :=
  { s with img := update s.img x buf, nsect := max s.nsect (x + 1) }

@[simp] theorem put_img (s : Mkfs) (x : Nat) (buf : Block) : (s.put x buf).img = update s.img x buf := rfl

def grown (s : Mkfs) : Mkfs := { s with freeblock := s.freeblock + 1 }

structure Sound (s : Mkfs) : Prop where
  super : s.super = sb
  nsect : s.nsect = FSSIZE
  lo : nmeta ≤ s.freeblock
  hi : s.freeblock ≤ FSSIZE
  fresh : ∀ b, s.freeblock ≤ b → s.img b = fun _ => 0

section
variable {s : Mkfs} {E : MkStop → Prop} {i x : Nat}

theorem wp_rsect {Q : Block → Mkfs → Prop} (h : x < s.nsect → Q (s.img x) s) (he : s.nsect ≤ x → E .read) :
    wp (rsect x) Q E s := by
  unfold rsect
  rw [wp_read]
  exact wp_ite (fun hx => wp_ret (h hx)) fun hx => wp_fail (he (Nat.le_of_not_lt hx))

theorem wp_wsect {buf : Block} (h : Q () (s.put x buf)) : wp (wsect x buf) Q E s := by
  unfold wsect
  rw [wp_modify]
  exact h

theorem wp_nextBlock {Q : Nat → Mkfs → Prop} (h : Q s.freeblock s.grown) : wp nextBlock Q E s := by
  unfold nextBlock
  rw [wp_read, wp_bind, wp_set, wp_pure]
  exact h

section
variable (hs : Sound s)
include hs

theorem view_dinode (i : Nat) :
    s.view.dinode i = if i < 208 then getDinode (s.img (i / IPB + 33)) (i % IPB) else .zero := by
  change (if i < s.super.room then getDinode (s.img (i / IPB + s.super.inodestart)) (i % IPB) else .zero) = _
  rw [hs.super]
  rfl

theorem view_block (b : Nat) : s.view.block b = if b < nmeta then fun _ => 0 else s.img b := by
  change (if b < s.super.nmeta then fun _ => 0 else s.img b) = _
  rw [hs.super]
  rfl

theorem Sound.put (hx : 1 < x) (hlt : x < s.freeblock) (buf : Block) : Sound (s.put x buf) := by
  refine ⟨?_, ?_, hs.lo, hs.hi, fun b hb => ?_⟩
  · rw [← hs.super]
    unfold Mkfs.super
    rw [put_img, update_of_ne (ne_of_lt hx)]
  · change max s.nsect (x + 1) = FSSIZE
    rw [hs.nsect]
    exact Nat.max_eq_left (le_trans hlt hs.hi)
  · change update s.img x buf b = _
    have hne : b ≠ x := ne_of_gt (lt_of_lt_of_le hlt hb)
    rw [update_of_ne hne]
    exact hs.fresh b hb

theorem Sound.grown (hlt : s.freeblock < FSSIZE) : Sound s.grown :=
  ⟨hs.super, hs.nsect, Nat.le_succ_of_le hs.lo, hlt, fun b hb => hs.fresh b (Nat.le_of_succ_le hb)⟩

theorem view_put (hx : nmeta ≤ x) (hlt : x < s.freeblock) (buf : Block) :
    (s.put x buf).view = { s.view with block := update s.view.block x buf } := by
  have hs' := hs.put (lt_of_lt_of_le (by decide) hx) hlt buf
  have hd : (s.put x buf).view.dinode = s.view.dinode := by
    funext i
    rw [view_dinode hs', view_dinode hs]
    split
    · rename_i hi
      have hne : i / IPB + 33 ≠ x := by
        lia
      rw [put_img, update_of_ne hne]
    · rfl
  have hb : (s.put x buf).view.block = update s.view.block x buf := by
    funext b
    rw [view_block hs']
    by_cases hbx : b = x
    · rw [hbx, if_neg (not_lt.mpr hx), put_img, update_self, update_self]
    · rw [update_of_ne hbx, view_block hs, put_img, update_of_ne hbx]
  change (⟨s.view.used, (s.put x buf).view.dinode, (s.put x buf).view.block⟩ : Disk) = _
  rw [hd, hb]

theorem view_fresh (hb : s.freeblock ≤ b) : s.view.block b = fun _ => 0 := by
  rw [view_block hs, hs.fresh b hb, ite_self]

end

theorem view_grown (s : Mkfs) : s.grown.view = { s.view with used := update s.view.used s.freeblock true } := by
  have hu : (fun b => decide (b < s.freeblock + 1)) = update s.view.used s.freeblock true := by
    funext b
    by_cases hb : b = s.freeblock
    · rw [hb, update_self]
      exact decide_eq_true (Nat.lt_succ_self _)
    · rw [update_of_ne hb]
      exact decide_eq_decide.mpr (by omega)
  change (⟨fun b => decide (b < s.freeblock + 1), s.view.dinode, s.view.block⟩ : Disk) = _
  rw [hu]

theorem view_unused (s : Mkfs) : s.view.used s.freeblock = false := decide_eq_false (lt_irrefl _)

end

section
variable {s : Mkfs} {E : MkStop → Prop} {i : Nat} {d : Dinode}

def putInode (s : Mkfs) (i : Nat) (d : Dinode) : Mkfs :=
  s.put (i / IPB + sb.inodestart) (putDinode (s.img (i / IPB + sb.inodestart)) (i % IPB) d)

theorem inode_sector (hi : i < 208) : 33 ≤ i / IPB + 33 ∧ i / IPB + 33 < 46 := by
  lia

variable (hs : Sound s) (hi : i < 208)
include hs

theorem plain_view (i : Nat) : (s.view.dinode i).Plain := by
  rw [view_dinode hs]
  split
  · exact plain_getDinode _ _
  · exact plain_zero

include hi

theorem inode_lt : i / IPB + 33 < s.freeblock := lt_of_lt_of_le (lt_trans (inode_sector hi).2 (by decide)) hs.lo

theorem wp_rinode {Q : Dinode → Mkfs → Prop} (h : Q (s.view.dinode i) s) : wp (rinode i) Q E s := by
  have hlt := inode_lt hs hi
  have hhi := hs.hi
  rw [view_dinode hs, if_pos hi] at h
  refine wp_seq (wp_rsect (fun _ => wp_ret h) fun hge => ?_)
  rw [hs.nsect] at hge
  change FSSIZE ≤ i / IPB + 33 at hge
  omega

theorem wp_winode (h : Q () (s.putInode i d)) : wp (winode i d) Q E s := by
  have hlt := inode_lt hs hi
  have hhi := hs.hi
  refine wp_seq (wp_rsect (fun _ => wp_wsect h) fun hge => ?_)
  rw [hs.nsect] at hge
  change FSSIZE ≤ i / IPB + 33 at hge
  omega

theorem Sound.putInode (d : Dinode) : Sound (s.putInode i d) :=
  hs.put (lt_of_lt_of_le (by decide) (inode_sector hi).1) (inode_lt hs hi) _

theorem view_putInode (hd : d.Plain) : (s.putInode i d).view = s.view.setInode i d := by
  have hs' := hs.putInode hi d
  have himg : (s.putInode i d).img = update s.img (i / IPB + 33) (putDinode (s.img (i / IPB + 33)) (i % IPB) d) := rfl
  have hdin : (s.putInode i d).view.dinode = update s.view.dinode i d := by
    funext j
    rw [view_dinode hs', himg]
    by_cases hj : j = i
    · rw [hj, if_pos hi, update_self, update_self, getDinode_self hd]
    · rw [update_of_ne hj, view_dinode hs]
      split
      · by_cases hb : j / IPB = i / IPB
        · have hne : j % IPB ≠ i % IPB := by
            lia
          rw [hb, update_self, getDinode_ne hne]
        · rw [update_of_ne (by omega)]
      · rfl
  have hblock : (s.putInode i d).view.block = s.view.block := by
    funext b
    rw [view_block hs', view_block hs, himg]
    split
    · rfl
    · rename_i hb
      have hne : b ≠ i / IPB + 33 := by
        have := (inode_sector hi).2
        have hmeta : nmeta = 47 := rfl
        omega
      rw [update_of_ne hne]
  change (⟨s.view.used, (s.putInode i d).view.dinode, (s.putInode i d).view.block⟩ : Disk) = _
  rw [hdin, hblock]
  rfl

end

/-! ## A block for a place -/

structure Mapped (i : Nat) (places : List Nat) (s : Mkfs) (din : Dinode) (s' : Mkfs) (din' : Dinode) : Prop where
  sound : Sound s'
  freeinode : s'.freeinode = s.freeinode
  more : s'.freeblock ≤ s.freeblock + places.length
  extended : Extended vsb i (s.view.setInode i din) (s'.view.setInode i din')
  rest : ∀ j n, (j = i → n ∉ places) → (s'.view.setInode i din').own (j, n) = (s.view.setInode i din).own (j, n)
  dinode : s'.view.dinode = s.view.dinode
  plain : din.Plain → din'.Plain

section
variable {s s' s'' : Mkfs} {E : MkStop → Prop} {i n : Nat} {din din' din'' : Dinode} {ps ps' : List Nat}

theorem Mapped.trans (h : Mapped i ps s din s' din') (h' : Mapped i ps' s' din' s'' din'') :
    Mapped i (ps ++ ps') s din s'' din'' where
  sound := h'.sound
  freeinode := h'.freeinode.trans h.freeinode
  more := by
    have := h.more
    have := h'.more
    rw [length_append]
    omega
  extended := h.extended.trans h'.extended
  rest j n hn := by
    simp only [mem_append, not_or] at hn
    rw [h'.rest j n fun hj => (hn hj).2, h.rest j n fun hj => (hn hj).1]
  dinode := h'.dinode.trans h.dinode
  plain hp := h'.plain (h.plain hp)

theorem view_giveAddr (hs : Sound s) (n : Nat) :
    (s.view.setInode i din).giveAddr i n s.freeblock = s.grown.view.setInode i (din.setAddr n s.freeblock) := by
  have hb : update s.view.block s.freeblock (fun _ => 0) = s.view.block := by
    rw [← view_fresh hs le_rfl, update_eq_self]
  rw [view_grown]
  unfold Disk.giveAddr Disk.setInode
  dsimp only
  rw [update_self, update_idem, hb]

theorem owned_range (hD : OneOwner vsb (s.view.setInode i din)) (h0 : (s.view.setInode i din).own (i, n) ≠ 0) :
    nmeta ≤ (s.view.setInode i din).own (i, n) ∧ (s.view.setInode i din).own (i, n) < s.freeblock :=
  ⟨Nat.le_of_not_lt (hD.exact.apart _ h0), of_decide_eq_true (hD.exact.taken _ h0)⟩

theorem own_addr (ht : din.type ≠ .T_NONE) (hn : n ≤ NDIRECT) : (D.setInode i din).own (i, n) = din.addrs n := by
  rw [Disk.own_of_type (by rw [Disk.setInode_self]; exact ht), Disk.setInode_self, Dinode.place_direct hn]

theorem own_entry (ht : din.type ≠ .T_NONE) (h0 : din.addrs NDIRECT ≠ 0) (hj : j < NINDIRECT) :
    (D.setInode i din).own (i, NDIRECT + 1 + j) = word (D.block (din.addrs NDIRECT)) j := by
  rw [Disk.own_of_type (by rw [Disk.setInode_self]; exact ht), Disk.setInode_self, Dinode.place_entry h0 hj]
  rfl

theorem view_giveEntry (hs : Sound s) (hlt : s.freeblock < FSSIZE) (ha : nmeta ≤ a) (hlt' : a < s.freeblock)
    (j : Nat) : (s.view.setInode i din).giveEntry a j s.freeblock =
      (s.grown.put a (putInt (s.img a) (4 * j) s.freeblock)).view.setInode i din := by
  have hb : update s.view.block s.freeblock (fun _ => 0) = s.view.block := by
    rw [← view_fresh hs le_rfl, update_eq_self]
  have hk : s.view.block a = s.img a := by rw [view_block hs, if_neg (not_lt.mpr ha)]
  rw [view_put (hs.grown hlt) ha (Nat.lt_succ_of_lt hlt'), view_grown]
  unfold Disk.giveEntry Disk.setInode
  rw [hb, hk]

variable (hs : Sound s) (hD : OneOwner vsb (s.view.setInode i din))
include hs hD

theorem Mapped.refl : Mapped i [n] s din s din :=
  ⟨hs, rfl, Nat.le_succ _, hD.extended i, fun _ _ _ => rfl, rfl, id⟩

variable (ht : din.type ≠ .T_NONE)
include ht

theorem wp_mapAddr {Q : Dinode × Nat → Mkfs → Prop} (hn : n ≤ NDIRECT)
    (hbad : s.freeblock = FSSIZE → ∀ r s', s'.nsect = FSSIZE → FSSIZE ≤ r.2 → Q r s')
    (hQ : ∀ din' s', Mapped i [n] s din s' din' → (s'.view.setInode i din').own (i, n) ≠ 0 →
      Q (din', (s'.view.setInode i din').own (i, n)) s') : wp (mapAddr din n) Q E s := by
  have ha := own_addr (D := s.view) (i := i) ht hn
  refine wp_ite (fun h0 => ?_) fun h0 => ?_
  · refine wp_seq (wp_nextBlock (wp_ret ?_))
    rcases lt_or_ge s.freeblock FSSIZE with hlt | hge
    · have ht' : ((s.view.setInode i din).dinode i).type ≠ .T_NONE := by rw [Disk.setInode_self]; exact ht
      have h0' : ((s.view.setInode i din).dinode i).addrs n = 0 := by rw [Disk.setInode_self]; exact h0
      have hown := own_giveAddr hD (view_unused s) ht' hn h0'
      have hext := hD.giveAddr (view_unused s) ht' hn h0' hlt
      rw [view_giveAddr hs] at hown hext
      have hx : (s.grown.view.setInode i (din.setAddr n s.freeblock)).own (i, n) = s.freeblock := by
        rw [hown, update_self]
      have hm : Mapped i [n] s din s.grown (din.setAddr n s.freeblock) := by
        refine ⟨hs.grown hlt, rfl, le_rfl, hext, fun j m hm => ?_, rfl, fun hp => ?_⟩
        · have hne : (j, m) ≠ (i, n) := fun he =>
            hm (congrArg Prod.fst he) (mem_singleton.mpr (congrArg Prod.snd he))
          rw [hown, update_of_ne hne]
        · exact hp.setAddr hn (lt_trans hlt (by decide))
      have hq := hQ _ _ hm (by rw [hx]; exact hD.exact.ne_zero (view_unused s))
      rwa [hx] at hq
    · exact hbad (le_antisymm hs.hi hge) _ _ hs.nsect hge
  · have hq := hQ din s (Mapped.refl hs hD) (by rw [ha]; exact h0)
    rw [ha] at hq
    exact wp_ret hq

theorem wp_mapEntry {Q : Nat → Mkfs → Prop} {a : Nat} (ha : din.addrs NDIRECT = a) (h0 : a ≠ 0) (hj : j < NINDIRECT)
    (hbad : s.freeblock = FSSIZE → ∀ x s', s'.nsect = FSSIZE → FSSIZE ≤ x → Q x s')
    (hQ : ∀ s', Mapped i [NDIRECT + 1 + j] s din s' din → (s'.view.setInode i din).own (i, NDIRECT + 1 + j) ≠ 0 →
      Q ((s'.view.setInode i din).own (i, NDIRECT + 1 + j)) s') : wp (mapEntry a j) Q E s := by
  have hown : (s.view.setInode i din).own (i, NDIRECT) = a := (own_addr ht le_rfl).trans ha
  obtain ⟨hlo, hhi⟩ := owned_range hD (by rw [hown]; exact h0)
  rw [hown] at hlo hhi
  have hk : s.view.block a = s.img a := by rw [view_block hs, if_neg (not_lt.mpr hlo)]
  have he : (s.view.setInode i din).own (i, NDIRECT + 1 + j) = word (s.img a) j := by
    rw [own_entry ht (by rw [ha]; exact h0) hj, ha, hk]
  have hsect : a < s.nsect := by
    rw [hs.nsect]
    exact lt_of_lt_of_le hhi hs.hi
  refine wp_seq (wp_rsect (fun _ => ?_) fun hge => absurd hsect (not_lt.mpr hge))
  refine wp_ite (fun hw => ?_) fun hw => ?_
  · refine wp_seq (wp_nextBlock ?_)
    refine wp_seq (wp_wsect (wp_ret ?_))
    rcases lt_or_ge s.freeblock FSSIZE with hlt | hge
    · have ht' : ((s.view.setInode i din).dinode i).type ≠ .T_NONE := by rw [Disk.setInode_self]; exact ht
      have ha' : ((s.view.setInode i din).dinode i).addrs NDIRECT = a := by rw [Disk.setInode_self]; exact ha
      have hw' : word ((s.view.setInode i din).block a) j = 0 := (congrArg (word · j) hk).trans hw
      have hfit : s.freeblock < 4294967296 := lt_trans hlt (by decide)
      have hown' := own_giveEntry hD (view_unused s) ht' hj ha' h0 hfit
      have hext := hD.giveEntry (view_unused s) ht' hj ha' h0 hfit hw' hlt
      have hv := view_put (hs.grown hlt) hlo (Nat.lt_succ_of_lt hhi) (putInt (s.img a) (4 * j) s.freeblock)
      rw [view_giveEntry hs hlt hlo hhi] at hown' hext
      have hsound := (hs.grown hlt).put (x := a) (lt_of_lt_of_le (by decide) hlo) (Nat.lt_succ_of_lt hhi)
        (putInt (s.img a) (4 * j) s.freeblock)
      have hm : Mapped i [NDIRECT + 1 + j] s din (s.grown.put a (putInt (s.img a) (4 * j) s.freeblock)) din := by
        refine ⟨hsound, rfl, le_rfl, hext, fun l m hm => ?_, by rw [hv]; rfl, id⟩
        have hne : (l, m) ≠ (i, NDIRECT + 1 + j) := fun he =>
          hm (congrArg Prod.fst he) (mem_singleton.mpr (congrArg Prod.snd he))
        rw [hown', update_of_ne hne]
      have hq := hQ _ hm (by rw [hown', update_self]; exact hD.exact.ne_zero (view_unused s))
      rwa [hown', update_self] at hq
    · refine hbad (le_antisymm hs.hi hge) _ _ ?_ hge
      change max s.nsect (a + 1) = FSSIZE
      rw [Nat.max_eq_left hsect, hs.nsect]
  · have hq := hQ s (Mapped.refl hs hD) (by rw [he]; exact hw)
    rw [he] at hq
    exact wp_ret hq

theorem wp_mapBlock {Q : Dinode × Nat → Mkfs → Prop} {fbn : Nat} (hfbn : fbn < MAXFILE)
    (hE : FSSIZE < s.freeblock + 2 → E .read)
    (hbad : FSSIZE < s.freeblock + 2 → ∀ r s', s'.nsect = FSSIZE → FSSIZE ≤ r.2 → Q r s')
    (hQ : ∀ ps din' s', ps.length ≤ 2 → (∀ bn, blockPlace bn ∈ ps → bn = fbn) → Mapped i ps s din s' din' →
      (s'.view.setInode i din').own (i, blockPlace fbn) ≠ 0 →
      Q (din', (s'.view.setInode i din').own (i, blockPlace fbn)) s') : wp (mapBlock din fbn) Q E s := by
  refine wp_ite (fun hd => ?_) fun hd => ?_
  · have hp : blockPlace fbn = fbn := if_pos hd
    refine wp_mapAddr hs hD ht (le_of_lt hd) (fun hfull => hbad (by omega)) fun din' s' hm h0 => ?_
    rw [← hp] at hm h0
    have hq := hQ _ din' s' (by simp) (fun bn hbn => blockPlace_inj (mem_singleton.mp hbn)) hm h0
    rwa [hp] at hq
  · have hp : blockPlace fbn = NDIRECT + 1 + (fbn - NDIRECT) := by
      rw [blockPlace, if_neg hd]
      omega
    refine wp_seq (wp_mapAddr hs hD ht le_rfl (fun hfull r s' hsect hr => ?_) fun din₁ s₁ hm h0 => ?_)
    · rw [wp_bind]
      exact wp_seq (wp_rsect (fun hlt => absurd hr (by omega)) fun _ => hE (by omega))
    · have ht1 : din₁.type ≠ .T_NONE := by
        have := hm.extended.type_ne (j := i) (by rw [Disk.setInode_self]; exact ht)
        rwa [Disk.setInode_self] at this
      have ha := own_addr (D := s₁.view) (i := i) ht1 (Nat.le_refl NDIRECT)
      refine wp_seq (wp_mapEntry hm.sound hm.extended.owned ht1 ha.symm h0 (by lia)
        (fun hfull x s' hsect hx => ?_) fun s2 hm2 h02 => ?_)
      · refine wp_ret (hbad ?_ _ s' hsect hx)
        have := hm.more
        rw [length_singleton] at this
        omega
      · rw [← hp] at hm2 h02
        have hq := hQ _ din₁ s2 (by simp) (fun bn hbn => ?_) (hm.trans hm2) h02
        · rw [hp] at hq
          exact wp_ret hq
        · rcases mem_append.mp hbn with hb | hb
          · exact absurd (mem_singleton.mp hb) (blockPlace_ne bn)
          · exact blockPlace_inj (mem_singleton.mp hb)

end

/-! ## Bytes at the end of a file -/

def rounds (off n : Nat) : Nat := if n = 0 then 0 else (off % BSIZE + n - 1) / BSIZE + 1

def src (p : List UInt8) (k : Nat) : Option UInt8 := some (p.getD k 0)

structure Appended (i off : Nat) (p : List UInt8) (s : Mkfs) (din : Dinode) (s' : Mkfs) (din' : Dinode) : Prop where
  sound : Sound s'
  freeinode : s'.freeinode = s.freeinode
  more : s'.freeblock ≤ s.freeblock + 2 * rounds off p.length
  wrote : Wrote vsb i off (off + p.length) (off + p.length) (off + p.length) (src p) (s.view.setInode i din)
    (s'.view.setInode i din')
  rest : ∀ j bn, (j = i → off + p.length ≤ bn * BSIZE) →
    (s'.view.setInode i din').own (j, blockPlace bn) = (s.view.setInode i din).own (j, blockPlace bn)
  dinode : s'.view.dinode = s.view.dinode
  plain : din.Plain → din'.Plain

section
variable {s s' s₁ : Mkfs} {E : MkStop → Prop} {i off m : Nat} {din din' din₁ : Dinode} {p : List UInt8} {ps : List Nat}

theorem Appended.nil (hs : Sound s) (hD : OneOwner vsb (s.view.setInode i din)) : Appended i off [] s din s din :=
  ⟨hs, rfl, Nat.le_add_right .., (hD.extended i).wrote le_rfl, fun _ _ _ => rfl, rfl, id⟩

theorem rounds_cons {n : Nat} (h0 : 0 < m) (hm : m ≤ n) (hb : m ≤ BSIZE - off % BSIZE)
    (hend : (off + m) % BSIZE = 0 ∨ m = n) : rounds off n = 1 + rounds (off + m) (n - m) := by
  unfold rounds
  rw [if_neg (by omega)]
  simp only [BSIZE] at *
  split <;> omega

theorem view_copied {x : Nat} (hs : Sound s) (hx : x = (s.view.setInode i din).own (i, blockPlace (off / BSIZE)))
    (hlo : nmeta ≤ x) (hhi : x < s.freeblock) (hm : m ≤ p.length) :
    (s.view.setInode i din).copied i off m (src p) =
      (s.put x (bcopy (s.img x) (off % BSIZE) (p.take m))).view.setInode i din := by
  have hk : s.view.block x = s.img x := by rw [view_block hs, if_neg (not_lt.mpr hlo)]
  have hc : (fun j => if off % BSIZE ≤ j ∧ j < off % BSIZE + m then (src p (j - off % BSIZE)).getD 0 else s.img x j) =
      bcopy (s.img x) (off % BSIZE) (p.take m) := by
    funext j
    unfold bcopy
    rw [length_take, Nat.min_eq_left hm]
    split
    · rename_i hj
      rw [getD_eq_getElem?_getD, getElem?_take_of_lt (by omega)]
      rfl
    · rfl
  unfold Disk.copied
  rw [← hx, view_put hs hlo hhi, ← hc]
  change ({ s.view.setInode i din with block := update s.view.block x fun j =>
    if off % BSIZE ≤ j ∧ j < off % BSIZE + m then (src p (j - off % BSIZE)).getD 0 else s.view.block x j } : Disk) = _
  rw [hk]
  rfl

theorem Appended.cons (hM : Mapped i ps s din s₁ din₁) (hps : ps.length ≤ 2)
    (hat : ∀ bn, blockPlace bn ∈ ps → bn = off / BSIZE)
    (h0 : (s₁.view.setInode i din₁).own (i, blockPlace (off / BSIZE)) ≠ 0) (hpos : 0 < m) (hm : m ≤ p.length)
    (hb : m ≤ BSIZE - off % BSIZE) (hend : (off + m) % BSIZE = 0 ∨ m = p.length)
    (h : Appended i (off + m) (p.drop m) (s₁.put ((s₁.view.setInode i din₁).own (i, blockPlace (off / BSIZE)))
        (bcopy (s₁.img ((s₁.view.setInode i din₁).own (i, blockPlace (off / BSIZE)))) (off % BSIZE) (p.take m))) din₁
      s' din') : Appended i off p s din s' din' := by
  obtain ⟨hlo, hhi⟩ := owned_range hM.extended.owned h0
  have hv := view_copied (p := p) hM.sound rfl hlo hhi hm
  have hlen : off + m + (p.drop m).length = off + p.length := by
    rw [length_drop]
    omega
  have hsrc : src (p.drop m) = fun k => src p (m + k) := by
    funext k
    unfold src
    rw [getD_eq_getElem?_getD, getD_eq_getElem?_getD, getElem?_drop]
  have hw := h.wrote
  rw [hlen, hsrc, ← hv] at hw
  have hcut : (off + m) % BSIZE = 0 ∨ off + m = off + p.length := by omega
  refine ⟨h.sound, h.freeinode.trans hM.freeinode, ?_, Wrote.cons hM.extended h0 hb hcut hw, fun j bn hbn => ?_, ?_,
    fun hp => h.plain (hM.plain hp)⟩
  · have h1 := h.more
    have h2 := hM.more
    have h3 : s'.freeblock ≤ s₁.freeblock + 2 * rounds (off + m) (p.drop m).length := h1
    rw [length_drop] at h3
    rw [rounds_cons hpos hm hb hend]
    omega
  · have hne : j = i → bn ≠ off / BSIZE := by
      intro hj
      lia
    rw [h.rest j bn (by rw [hlen]; exact hbn), ← hv, own_copied hM.extended.owned]
    exact hM.rest j _ fun hj hmem => hne hj (hat bn hmem)
  · rw [h.dinode, view_put hM.sound hlo hhi]
    exact hM.dinode

theorem wp_appendLoop : ∀ {fuel off : Nat} {p : List UInt8} {din : Dinode} {s : Mkfs} {Q : Dinode × Nat → Mkfs → Prop},
    Sound s → OneOwner vsb (s.view.setInode i din) → din.type ≠ .T_NONE → p.length ≤ fuel →
    (FSSIZE < s.freeblock + 2 * rounds off p.length → E .read) → (MAXFILE * BSIZE < off + p.length → E .maxfile) →
    (∀ din' s', off + p.length ≤ max off (MAXFILE * BSIZE) → Appended i off p s din s' din' →
      Q (din', off + p.length) s') → wp (appendLoop fuel din off p) Q E s
  | 0, off, p, din, s, Q, hs, hD, _, hfuel, _, _, hQ => by
    have hp : p = [] := length_eq_zero_iff.mp (Nat.le_zero.mp hfuel)
    subst hp
    exact wp_ret (hQ din s (Nat.le_max_left ..) (.nil hs hD))
  | fuel + 1, off, p, din, s, Q, hs, hD, ht, hfuel, hE, hmax, hQ => by
    refine wp_ite (fun hp => ?_) fun hp => ?_
    · subst hp
      exact wp_ret (hQ din s (Nat.le_max_left ..) (.nil hs hD))
    have hlen : 0 < p.length := length_pos_iff.mpr hp
    refine wp_ite (fun hbn => ?_) fun hbn => wp_fail (hmax (by lia))
    obtain ⟨m, hm⟩ : ∃ m, m = min p.length ((off / BSIZE + 1) * BSIZE - off) := ⟨_, rfl⟩
    have hpos : 0 < m := by lia
    have hmp : m ≤ p.length := by omega
    have hmb : m ≤ BSIZE - off % BSIZE := by lia
    have hend : (off + m) % BSIZE = 0 ∨ m = p.length := by lia
    have hround := rounds_cons hpos hmp hmb hend
    have hoff : off - off / BSIZE * BSIZE = off % BSIZE := by lia
    refine wp_seq (wp_mapBlock hs hD ht hbn (fun hfull => hE (by omega)) (fun hfull r s' hsect hr => ?_)
      fun ps din₁ s₁ hps hat hM h0 => ?_)
    · exact wp_seq (wp_rsect (fun hlt => absurd hr (by omega)) fun _ => hE (by omega))
    · obtain ⟨hlo, hhi⟩ := owned_range hM.extended.owned h0
      have ht1 : din₁.type ≠ .T_NONE := by
        have := hM.extended.type_ne (j := i) (by rw [Disk.setInode_self]; exact ht)
        rwa [Disk.setInode_self] at this
      refine wp_seq (wp_rsect (fun _ => ?_) fun hge => absurd hge ?_)
      · rw [wp_bind, ← hm, hoff]
        refine wp_wsect ?_
        have hD1 := (hM.extended.copied h0 hmb (src p) (Nat.le_refl m)).1
        rw [view_copied hM.sound rfl hlo hhi hmp] at hD1
        have hsound := hM.sound.put (lt_of_lt_of_le (by decide) hlo) hhi
          (bcopy (s₁.img ((s₁.view.setInode i din₁).own (i, blockPlace (off / BSIZE)))) (off % BSIZE) (p.take m))
        refine wp_appendLoop hsound hD1 ht1 (by rw [length_drop]; omega) (fun hfull => hE ?_) (fun hbig => hmax ?_)
          fun din' s' hfit h => ?_
        · have := hM.more
          have h3 : FSSIZE < s₁.freeblock + 2 * rounds (off + m) (p.drop m).length := hfull
          rw [length_drop] at h3
          omega
        · rw [length_drop] at hbig
          omega
        · have hq := hQ din' s' ?_ (h.cons hM hps hat h0 hpos hmp hmb hend)
          · rwa [length_drop, show off + m + (p.length - m) = off + p.length by omega]
          · rw [length_drop] at hfit
            lia
      · rw [hM.sound.nsect]
        have := hM.sound.hi
        omega

end

/-! ## Files -/

def fileOf (t : IType) (bs : List UInt8) : FileData := ⟨t, 0, 0, 1, bs.length, fun k => bs.getD k 0⟩

structure Built (s : Mkfs) (c : Nat → FileData) : Prop where
  sound : Sound s
  pos : 0 < s.freeinode
  room : s.freeinode ≤ 208
  ok : DiskOk vsb s.view
  unused : ∀ i, s.freeinode ≤ i → (s.view.dinode i).type = .T_NONE
  tail : ∀ i k, (s.view.dinode i).size ≤ k → s.view.byteAt i k = 0
  tight : ∀ i bn, (s.view.dinode i).size ≤ bn * BSIZE → s.view.own (i, blockPlace bn) = 0
  contents : s.view.contents = c

variable {s : Mkfs} {c : Nat → FileData} {E : MkStop → Prop} {i : Nat} {t : IType} {bs p : List UInt8}

theorem write_fileOf : (fileOf t bs).write bs.length (bs.length + p.length) (bs.length + p.length) (src p) =
    fileOf t (bs ++ p) := by
  have hmax : max bs.length (bs.length + p.length) = bs.length + p.length := Nat.max_eq_right (Nat.le_add_right ..)
  unfold FileData.write fileOf
  dsimp only
  rw [hmax, length_append]
  congr 1
  funext k
  rw [getD_eq_getElem?_getD, getD_eq_getElem?_getD]
  by_cases hk : bs.length ≤ k
  · rw [getElem?_append_right hk]
    by_cases hlt : k < bs.length + p.length
    · rw [if_pos ⟨hk, hlt, hlt⟩]
      exact getD_eq_getElem?_getD ..
    · rw [if_neg fun hc => hlt hc.2.1, getElem?_eq_none hk, getElem?_eq_none (by omega)]
  · rw [if_neg fun hc => hk hc.1, getElem?_append_left (by omega)]

theorem type_of_contents {d : FileData} (h : D.contents i = d) (ht : d.type ≠ .T_NONE) :
    (D.dinode i).type = d.type ∧ (D.dinode i).size = d.size := by
  unfold Disk.contents at h
  dsimp only at h
  split at h
  · exact absurd (congrArg FileData.type h).symm ht
  · exact ⟨congrArg FileData.type h, congrArg FileData.size h⟩

theorem wp_iappend (h : Built s c) (hi : i < s.freeinode) (hc : c i = fileOf t bs)
    (ht : t ≠ .T_NONE) (hE : FSSIZE < s.freeblock + 2 * rounds bs.length p.length → E .read)
    (hmax : MAXFILE * BSIZE < bs.length + p.length → E .maxfile)
    (hQ : ∀ s', Built s' (update c i (fileOf t (bs ++ p))) → s'.freeinode = s.freeinode →
      s'.freeblock ≤ s.freeblock + 2 * rounds bs.length p.length → Q () s') : wp (iappend i p) Q E s := by
  have hs := h.sound
  have hi' : i < 208 := lt_of_lt_of_le hi h.room
  obtain ⟨htype, hsize⟩ := type_of_contents ((congrFun h.contents i).trans hc) ht
  have htype' : (s.view.dinode i).type ≠ .T_NONE := by rw [htype]; exact ht
  have hsize' : (s.view.dinode i).size = bs.length := hsize
  have hself : s.view.setInode i (s.view.dinode i) = s.view := by
    unfold Disk.setInode
    rw [update_eq_self]
  have hb := h.ok.sized i htype'
  refine wp_seq (wp_rinode hs hi' ?_)
  rw [wp_bind, hsize']
  refine wp_appendLoop hs (by rw [hself]; exact h.ok.owned) htype' le_rfl hE hmax fun din₁ s₁ hfit ha => ?_
  have hfit' : bs.length + p.length ≤ MAXFILE * BSIZE := by
    have := hb.size_le
    omega
  have hw := ha.wrote
  rw [hself] at hw
  have hwr := hw.written h.ok htype' (by omega) hfit'
  have hview : (s₁.putInode i (din₁.withSize (bs.length + p.length))).view = (s₁.view.setInode i din₁).setInode i
      (((s₁.view.setInode i din₁).dinode i).withSize (max (s.view.dinode i).size (bs.length + p.length))) := by
    rw [view_putInode ha.sound hi' ((ha.plain (plain_view hs i)).withSize hfit'), Disk.setInode_self,
      hsize', Nat.max_eq_right (Nat.le_add_right ..)]
    unfold Disk.setInode
    rw [update_idem]
  rw [← hview] at hwr
  have ht1 : ((s₁.view.setInode i din₁).dinode i).type ≠ .T_NONE := by
    obtain ⟨addrs, hd⟩ := hw.inode
    rw [hd, update_self]
    exact htype'
  have hown : (s₁.putInode i (din₁.withSize (bs.length + p.length))).view.own = (s₁.view.setInode i din₁).own := by
    rw [hview]
    exact own_setInode ht1 ht1 rfl
  have hbytes : ∀ j k, (s₁.putInode i (din₁.withSize (bs.length + p.length))).view.byteAt j k =
      (s₁.view.setInode i din₁).byteAt j k := by
    rw [hview]
    exact byteAt_setInode ht1 ht1 rfl
  have hsz : ((s₁.putInode i (din₁.withSize (bs.length + p.length))).view.dinode i).size = bs.length + p.length := by
    rw [hview, Disk.setInode_self, hsize']
    exact Nat.max_eq_right (Nat.le_add_right ..)
  have hfree : (s₁.putInode i (din₁.withSize (bs.length + p.length))).freeinode = s.freeinode := ha.freeinode
  refine wp_winode ha.sound hi' (hQ _ ?_ hfree ha.more)
  refine ⟨ha.sound.putInode hi' _, hfree ▸ h.pos, hfree ▸ h.room, hwr.ok, fun j hj => ?_, fun j k hk => ?_,
    fun j bn hbn => ?_, ?_⟩
  · rw [hfree] at hj
    rw [hwr.others j (by omega)]
    exact h.unused j hj
  · rw [hbytes]
    by_cases hj : j = i
    · subst hj
      rw [hsz] at hk
      rw [hw.bytes, if_neg (by omega)]
      exact h.tail j k (by omega)
    · rw [hwr.others j hj] at hk
      rw [hw.others j hj]
      exact h.tail j k hk
  · rw [hown]
    by_cases hj : j = i
    · subst hj
      rw [hsz] at hbn
      rw [ha.rest j bn fun _ => hbn, hself]
      exact h.tight j bn (by omega)
    · rw [hwr.others j hj] at hbn
      rw [ha.rest j bn fun he => absurd he hj, hself]
      exact h.tight j bn hbn
  · obtain ⟨top, _, htop, hcont⟩ := hwr.contents
    rw [hcont, htop fun _ => rfl, h.contents, hc, write_fileOf]

theorem wp_ialloc {Q : Nat → Mkfs → Prop} (h : Built s c) (hroom : s.freeinode < 208) (ht : t ≠ .T_NONE)
    (hQ : ∀ s', Built s' (update c s.freeinode (fileOf t [])) → s'.freeinode = s.freeinode + 1 →
      s'.freeblock = s.freeblock → Q s.freeinode s') : wp (ialloc t) Q E s := by
  obtain ⟨s0, hs0⟩ : ∃ s0 : Mkfs, s0 = { s with freeinode := s.freeinode + 1 } := ⟨_, rfl⟩
  have hview0 : s0.view = s.view := by rw [hs0]; rfl
  have hsound0 : Sound s0 := by
    rw [hs0]
    exact ⟨h.sound.super, h.sound.nsect, h.sound.lo, h.sound.hi, h.sound.fresh⟩
  have hfree0 : s0.freeinode = s.freeinode + 1 := by rw [hs0]
  have hblock0 : s0.freeblock = s.freeblock := by rw [hs0]
  obtain ⟨d, hd⟩ : ∃ d, d = (Dinode.zero.withType t).withNlink 1 := ⟨_, rfl⟩
  have hplain : d.Plain := by
    rw [hd]
    have h1 : short (ushort 1) = 1 := by decide
    exact ⟨plain_zero.major, plain_zero.minor, h1, plain_zero.size, plain_zero.addrs, plain_zero.none⟩
  have hview : (s0.putInode s.freeinode d).view = s.view.setInode s.freeinode d := by
    rw [view_putInode hsound0 hroom hplain, hview0]
  have hnone := h.unused _ (Nat.le_refl s.freeinode)
  have h0 := s.view.own_none hnone
  have h1 : ∀ n, (s.view.setInode s.freeinode d).own (s.freeinode, n) = 0 := by
    intro n
    have hz : ∀ m, d.addrs m = 0 := by rw [hd]; exact fun _ => rfl
    rw [Disk.own_of_type (by rw [Disk.setInode_self, hd]; exact ht), Disk.setInode_self]
    rcases lt_or_ge NDIRECT n with hn | hn
    · exact Dinode.place_none (hz _) hn
    · rw [Dinode.place_direct hn, hz]
  have hown : (s0.putInode s.freeinode d).view.own = s.view.own := by
    rw [hview]
    exact own_replace h0 h1
  unfold ialloc
  rw [wp_read, wp_bind, wp_set, wp_bind, ← hs0, ← hd]
  refine wp_winode hsound0 hroom (wp_ret (hQ _ ?_ hfree0 hblock0))
  refine ⟨hsound0.putInode hroom d, ?_, ?_, ?_, fun j hj => ?_, fun j k hk => ?_, fun j bn hbn => ?_, ?_⟩
  · exact hfree0 ▸ Nat.succ_pos _
  · exact hfree0 ▸ hroom
  · rw [hview]
    exact h.ok.replace h0 h1 fun _ => by rw [hd]; rfl
  · have hj' : s.freeinode + 1 ≤ j := hfree0 ▸ hj
    rw [hview, Disk.setInode_ne (by omega)]
    exact h.unused j (by omega)
  · have hsame : (s0.putInode s.freeinode d).view.byteAt j k = s.view.byteAt j k := by
      unfold Disk.byteAt
      rw [hown, hview]
      rfl
    rw [hsame]
    by_cases hj : j = s.freeinode
    · subst hj
      unfold Disk.byteAt
      rw [if_pos (h0 _)]
    · rw [hview, Disk.setInode_ne hj] at hk
      exact h.tail j k hk
  · rw [hown]
    by_cases hj : j = s.freeinode
    · rw [hj]
      exact h0 _
    · rw [hview, Disk.setInode_ne hj] at hbn
      exact h.tight j bn hbn
  · funext j
    rw [hview]
    by_cases hj : j = s.freeinode
    · rw [hj, update_self]
      unfold Disk.contents
      rw [Disk.setInode_self, if_neg (by rw [hd]; exact ht), hd]
      congr 1
    · rw [update_of_ne hj, contents_replace h0 h1 hj, h.contents]

end Mkfs

end Xv6
