import Xv6.Owners
import Xv6.Vol

/-!
# Blocks and who holds them

The addresses an inode holds are its places: the direct entries, the
indirect block and its entries. On a disk that is in order the used blocks
are those of the file system itself and those held at some place, each at
one place only. Over that, an inode is its attributes and a sequence of
bytes; where no block is held the bytes are 0.
-/

namespace Xv6

open Vol Owners Function

@[simp] theorem word_zero (j : Nat) : word (fun _ => 0) j = 0 := by simp [word]

theorem word_putInt_self (hw : w < 4294967296) : word (putInt d (4 * j) w) j = w := by
  have h0 : putInt d (4 * j) w (4 * j) = UInt8.ofNat w := by simp [putInt]
  have h1 : putInt d (4 * j) w (4 * j + 1) = UInt8.ofNat (w / 256) := by simp [putInt]
  have h2 : putInt d (4 * j) w (4 * j + 2) = UInt8.ofNat (w / 65536) := by simp [putInt]
  have h3 : putInt d (4 * j) w (4 * j + 3) = UInt8.ofNat (w / 16777216) := by simp [putInt]
  rw [word, h0, h1, h2, h3]
  simp only [UInt8.toNat_ofNat']
  omega

theorem word_putInt_ne (hk : k ≠ j) : word (putInt d (4 * j) w) k = word d k := by
  have h : ∀ r, r < 4 → putInt d (4 * j) w (4 * k + r) = d (4 * k + r) := fun r hr =>
    if_neg (by omega)
  have h0 := h 0 (by omega)
  have h1 := h 1 (by omega)
  have h2 := h 2 (by omega)
  have h3 := h 3 (by omega)
  simp only [Nat.add_zero] at h0
  rw [word, word, h0, h1, h2, h3]

def Dinode.place (d : Dinode) (block : Nat → Block) (n : Nat) : Nat :=
  if n ≤ NDIRECT then d.addrs n
  else if d.addrs NDIRECT = 0 ∨ NDIRECT + 1 + NINDIRECT ≤ n then 0
  else word (block (d.addrs NDIRECT)) (n - (NDIRECT + 1))

def Disk.own (D : Disk) (p : Nat × Nat) : Nat :=
  if (D.dinode p.1).type = .T_NONE then 0 else (D.dinode p.1).place D.block p.2

def blockPlace (bn : Nat) : Nat := if bn < NDIRECT then bn else bn + 1

theorem blockPlace_ne (bn : Nat) : blockPlace bn ≠ NDIRECT := by
  unfold blockPlace
  split <;> omega

theorem blockPlace_inj (h : blockPlace m = blockPlace n) : m = n := by
  unfold blockPlace at h
  split at h <;> split at h <;> omega

def Disk.setInode (D : Disk) (i : Nat) (d : Dinode) : Disk := { D with dinode := update D.dinode i d }

section
variable {D D' : Disk} {d : Dinode} {block : Nat → Block} {i j n : Nat}

@[simp] theorem Disk.setInode_self (D : Disk) (i : Nat) (d : Dinode) : (D.setInode i d).dinode i = d :=
  update_self ..

theorem Disk.setInode_ne (h : j ≠ i) : (D.setInode i d).dinode j = D.dinode j := update_of_ne h ..

@[simp] theorem Dinode.setAddr_self (d : Dinode) (n b : Nat) : (d.setAddr n b).addrs n = b := update_self ..

theorem Dinode.setAddr_ne (h : m ≠ n) : (d.setAddr n b).addrs m = d.addrs m := update_of_ne h ..

theorem Dinode.place_direct (h : n ≤ NDIRECT) : d.place block n = d.addrs n := if_pos h

theorem Dinode.place_entry (h0 : d.addrs NDIRECT ≠ 0) (hj : j < NINDIRECT) :
    d.place block (NDIRECT + 1 + j) = word (block (d.addrs NDIRECT)) j := by
  rw [place, if_neg (by omega), if_neg (by omega), Nat.add_sub_cancel_left]

theorem Dinode.place_none (h0 : d.addrs NDIRECT = 0) (hn : NDIRECT < n) : d.place block n = 0 := by
  rw [place, if_neg (by omega), if_pos (.inl h0)]

theorem Disk.own_of_type (h : (D.dinode i).type ≠ .T_NONE) (n : Nat) : D.own (i, n) = (D.dinode i).place D.block n :=
  if_neg h

theorem Disk.own_none (h : (D.dinode i).type = .T_NONE) (n : Nat) : D.own (i, n) = 0 := if_pos h

theorem Disk.type_of_own (h : D.own (i, n) ≠ 0) : (D.dinode i).type ≠ .T_NONE := fun ht => h (D.own_none ht n)

theorem Disk.own_indirect (h : D.own (i, n) ≠ 0) (hn : NDIRECT < n) : D.own (i, NDIRECT) ≠ 0 := by
  have ht := Disk.type_of_own h
  rw [D.own_of_type ht] at h ⊢
  intro h0
  exact h (Dinode.place_none h0 hn)

theorem Disk.own_congr (hd : D'.dinode i = D.dinode i)
    (hb : D.own (i, NDIRECT) ≠ 0 → D'.block (D.own (i, NDIRECT)) = D.block (D.own (i, NDIRECT))) (n : Nat) :
    D'.own (i, n) = D.own (i, n) := by
  by_cases ht : (D.dinode i).type = .T_NONE
  · rw [D.own_none ht, D'.own_none (hd ▸ ht)]
  · have ha : D.own (i, NDIRECT) = (D.dinode i).addrs NDIRECT := by
      rw [D.own_of_type ht, Dinode.place_direct le_rfl]
    rw [ha] at hb
    rw [D.own_of_type ht, D'.own_of_type (hd ▸ ht), hd]
    unfold Dinode.place
    split
    · rfl
    · split
      · rfl
      · next h0 =>
        push Not at h0
        rw [hb h0.1]

end

structure OneOwner (sb : Super) (D : Disk) : Prop where
  exact : Exact D.own D.used (· < sb.nmeta)
  below : ∀ b, D.used b = true → b < sb.size

structure Backed (D : Disk) (i : Nat) : Prop where
  size_le : (D.dinode i).size ≤ MAXFILE * BSIZE
  mapped : ∀ bn, bn * BSIZE < (D.dinode i).size → D.own (i, blockPlace bn) ≠ 0

structure DiskOk (sb : Super) (D : Disk) : Prop where
  owned : OneOwner sb D
  sized : ∀ i, (D.dinode i).type ≠ .T_NONE → Backed D i

structure SuperOk (sb : Super) : Prop where
  size_le : sb.size ≤ 4294967296

section
variable {sb : Super} {D : Disk} {i j n : Nat}

theorem OneOwner.eq_of_own (h : OneOwner sb D) (hn : D.own (i, n) ≠ 0) (he : D.own (i, n) = D.own (j, m)) :
    i = j ∧ n = m := by
  have := h.exact.inj _ _ hn he
  exact ⟨congrArg Prod.fst this, congrArg Prod.snd this⟩

end

def Disk.byteAt (D : Disk) (i k : Nat) : UInt8 :=
  if D.own (i, blockPlace (k / BSIZE)) = 0 then 0 else D.block (D.own (i, blockPlace (k / BSIZE))) (k % BSIZE)

structure FileData where
  type : IType
  major : Int
  minor : Int
  nlink : Int
  size : Nat
  bytes : Nat → UInt8

def FileData.none : FileData := ⟨.T_NONE, 0, 0, 0, 0, fun _ => 0⟩

def Disk.contents (D : Disk) (i : Nat) : FileData :=
  let d := D.dinode i
  if d.type = .T_NONE then .none
  else ⟨d.type, d.major, d.minor, d.nlink, d.size, fun k => if k < d.size then D.byteAt i k else 0⟩

/-! ## A place gets a block -/

/-- Inode `i` got blocks at places that were empty; nobody can tell. -/
structure Extended (sb : Super) (i : Nat) (D D' : Disk) : Prop where
  owned : OneOwner sb D'
  inode : ∃ addrs, D'.dinode = update D.dinode i ((D.dinode i).withAddrs addrs)
  keep : ∀ p, D.own p ≠ 0 → D'.own p = D.own p
  bytes : ∀ j k, D'.byteAt j k = D.byteAt j k

variable {sb : Super} {D D' D'' : Disk} {i n b : Nat}

theorem OneOwner.extended (h : OneOwner sb D) (i : Nat) : Extended sb i D D where
  owned := h
  inode := ⟨(D.dinode i).addrs, (update_eq_self i D.dinode).symm⟩
  keep _ _ := rfl
  bytes _ _ := rfl

theorem Extended.trans (h : Extended sb i D D') (h' : Extended sb i D' D'') : Extended sb i D D'' where
  owned := h'.owned
  inode := by
    obtain ⟨a, ha⟩ := h.inode
    obtain ⟨a', ha'⟩ := h'.inode
    refine ⟨a', ?_⟩
    rw [ha', ha, update_self, update_idem]
    rfl
  keep p hp := by
    have he := h.keep p hp
    rw [h'.keep p (he ▸ hp), he]
  bytes j k := by rw [h'.bytes, h.bytes]

theorem bytes_of_alloc (ho : D'.own = update D.own p b) (h0 : D.own p = 0)
    (hz : p.2 ≠ NDIRECT → D'.block b = fun _ => 0)
    (hs : ∀ q, D.own q ≠ 0 → q.2 ≠ NDIRECT → D'.block (D.own q) = D.block (D.own q)) (j k : Nat) :
    D'.byteAt j k = D.byteAt j k := by
  have hne := blockPlace_ne (k / BSIZE)
  unfold Disk.byteAt
  rw [ho]
  by_cases hp : (j, blockPlace (k / BSIZE)) = p
  · have hz := hz (hp ▸ hne)
    rw [hp, update_self, h0, hz]
    simp only [ite_self, if_true]
  · rw [update_of_ne hp]
    split
    · rfl
    · next hq => rw [hs _ hq hne]

def Disk.giveAddr (D : Disk) (i n b : Nat) : Disk where
  used := update D.used b true
  dinode := update D.dinode i ((D.dinode i).setAddr n b)
  block := update D.block b fun _ => 0

def Disk.giveEntry (D : Disk) (a j b : Nat) : Disk where
  used := update D.used b true
  dinode := D.dinode
  block := update (update D.block b fun _ => 0) a (putInt (D.block a) (4 * j) b)

section
variable (h : OneOwner sb D) (hb : D.used b = false) (ht : (D.dinode i).type ≠ .T_NONE) (hn : n ≤ NDIRECT)
  (h0 : (D.dinode i).addrs n = 0)
include h hb ht hn h0

theorem own_giveAddr : (D.giveAddr i n b).own = update D.own (i, n) b := by
  have hfresh := h.exact.fresh hb
  have hk : ∀ q, (D.giveAddr i n b).block (D.own q) = D.block (D.own q) := fun q => update_of_ne (hfresh q) ..
  funext ⟨j, m⟩
  by_cases hj : j = i
  · subst hj
    have hd : (D.giveAddr j n b).dinode j = (D.dinode j).setAddr n b := update_self ..
    rw [Disk.own_of_type (by rw [hd]; exact ht), hd]
    by_cases hm : m = n
    · rw [hm, Dinode.place_direct hn, Dinode.setAddr_self, update_self]
    · rw [update_of_ne fun he => hm (congrArg Prod.snd he), D.own_of_type ht]
      rcases lt_or_ge NDIRECT m with hlt | hle
      · by_cases hind : n = NDIRECT
        · subst hind
          have hz : (D.giveAddr j NDIRECT b).block b = fun _ => 0 := update_self ..
          rw [Dinode.place_none h0 hlt, Dinode.place, if_neg (not_le.mpr hlt), Dinode.setAddr_self, hz, word_zero,
            ite_self]
        · have ho : D.own (j, NDIRECT) = (D.dinode j).addrs NDIRECT := by
            rw [D.own_of_type ht, Dinode.place_direct le_rfl]
          unfold Dinode.place
          rw [Dinode.setAddr_ne (Ne.symm hind), ← ho, hk, if_neg (not_le.mpr hlt), if_neg (not_le.mpr hlt)]
      · rw [Dinode.place_direct hle, Dinode.place_direct hle, Dinode.setAddr_ne hm]
  · rw [update_of_ne fun he => hj (congrArg Prod.fst he)]
    exact Disk.own_congr (update_of_ne hj ..) (fun _ => hk _) m

theorem OneOwner.giveAddr (hlt : b < sb.size) : Extended sb i D (D.giveAddr i n b) := by
  have hown := own_giveAddr h hb ht hn h0
  have hown0 : D.own (i, n) = 0 := by rw [D.own_of_type ht, Dinode.place_direct hn, h0]
  refine ⟨⟨?_, fun c hc => ?_⟩, ⟨_, rfl⟩, fun p hp => ?_, ?_⟩
  · rw [hown]
    exact h.exact.alloc hb hown0
  · by_cases hcb : c = b
    · rw [hcb]; exact hlt
    · have hu : (D.giveAddr i n b).used c = D.used c := update_of_ne hcb ..
      exact h.below c (hu ▸ hc)
  · have hne : p ≠ (i, n) := fun he => hp (he ▸ hown0)
    rw [hown, update_of_ne hne]
  · exact bytes_of_alloc hown hown0 (fun _ => update_self ..) fun q _ _ =>
      update_of_ne (h.exact.fresh hb q) ..

end

section
variable {a j : Nat} (h : OneOwner sb D) (hb : D.used b = false) (ht : (D.dinode i).type ≠ .T_NONE) (hj : j < NINDIRECT)
  (ha : (D.dinode i).addrs NDIRECT = a) (h0 : a ≠ 0) (hlt : b < 4294967296)
include h hb ht hj ha h0 hlt

theorem own_giveEntry : (D.giveEntry a j b).own = update D.own (i, NDIRECT + 1 + j) b := by
  have ho : D.own (i, NDIRECT) = a := by rw [D.own_of_type ht, Dinode.place_direct le_rfl, ha]
  have hk : (D.giveEntry a j b).block a = putInt (D.block a) (4 * j) b := update_self ..
  funext ⟨l, m⟩
  by_cases hl : l = i
  · subst hl
    have hd : (D.giveEntry a j b).dinode l = D.dinode l := rfl
    rw [Disk.own_of_type (by rw [hd]; exact ht), hd]
    by_cases hm : m = NDIRECT + 1 + j
    · rw [hm, Dinode.place_entry (by rw [ha]; exact h0) hj, ha, hk, update_self, word_putInt_self hlt]
    · rw [update_of_ne fun he => hm (congrArg Prod.snd he), D.own_of_type ht]
      unfold Dinode.place
      split
      · rfl
      · split
        · rfl
        · rw [ha, hk, word_putInt_ne (by omega)]
  · rw [update_of_ne fun he => hl (congrArg Prod.fst he)]
    have hd : (D.giveEntry a j b).dinode l = D.dinode l := rfl
    refine Disk.own_congr hd (fun h1 => ?_) m
    have hne : D.own (l, NDIRECT) ≠ a := fun he => hl (h.eq_of_own h1 (he.trans ho.symm)).1
    exact (update_of_ne hne ..).trans (update_of_ne (h.exact.fresh hb _) ..)

theorem OneOwner.giveEntry (hw : word (D.block a) j = 0) (hsz : b < sb.size) : Extended sb i D (D.giveEntry a j b) := by
  have hown := own_giveEntry h hb ht hj ha h0 hlt
  have hown0 : D.own (i, NDIRECT + 1 + j) = 0 := by
    rw [D.own_of_type ht, Dinode.place_entry (by rw [ha]; exact h0) hj, ha, hw]
  have ho : D.own (i, NDIRECT) = a := by rw [D.own_of_type ht, Dinode.place_direct le_rfl, ha]
  have hab : b ≠ a := fun he => h.exact.fresh hb _ (ho.trans he.symm)
  refine ⟨⟨?_, fun c hc => ?_⟩, ⟨_, (update_eq_self i D.dinode).symm⟩, fun p hp => ?_, ?_⟩
  · rw [hown]
    exact h.exact.alloc hb hown0
  · by_cases hcb : c = b
    · rw [hcb]; exact hsz
    · have hu : (D.giveEntry a j b).used c = D.used c := update_of_ne hcb ..
      exact h.below c (hu ▸ hc)
  · have hne : p ≠ (i, NDIRECT + 1 + j) := fun he => hp (he ▸ hown0)
    rw [hown, update_of_ne hne]
  · refine bytes_of_alloc hown hown0 (fun _ => ?_) fun q hq hne => ?_
    · exact (update_of_ne hab ..).trans (update_self ..)
    · have hqa : D.own q ≠ a := fun he => hne (h.eq_of_own (i := q.1) (n := q.2) hq (he.trans ho.symm)).2
      exact (update_of_ne hqa ..).trans (update_of_ne (h.exact.fresh hb q) ..)

end

/-! ## A block of a file is written -/

theorem own_write (h : OneOwner sb D) (hn : n ≠ NDIRECT) (ha : D.own (i, n) = a)
    (hd : D'.dinode = D.dinode) (hk : D'.block = update D.block a c) : D'.own = D.own := by
  funext ⟨j, m⟩
  refine Disk.own_congr (by rw [hd]) (fun h1 => ?_) m
  have hne : D.own (j, NDIRECT) ≠ a := by
    intro he
    exact hn (h.eq_of_own h1 (he.trans ha.symm)).2.symm
  rw [hk, update_of_ne hne]

theorem byteAt_write (h : OneOwner sb D) (ha : D.own (i, blockPlace bn) = a) (h0 : a ≠ 0)
    (hd : D'.dinode = D.dinode) (hk : D'.block = update D.block a c) (j k : Nat) :
    D'.byteAt j k = if j = i ∧ k / BSIZE = bn then c (k % BSIZE) else D.byteAt j k := by
  have hown := own_write h (blockPlace_ne bn) ha hd hk
  unfold Disk.byteAt
  rw [hown, hk]
  by_cases hj : j = i ∧ k / BSIZE = bn
  · rw [if_pos hj, hj.1, hj.2, ha, if_neg h0, update_self]
  · rw [if_neg hj]
    split
    · rfl
    · next hq =>
      have hne : D.own (j, blockPlace (k / BSIZE)) ≠ a := by
        intro he
        obtain ⟨hji, hb⟩ := h.eq_of_own hq (he.trans ha.symm)
        exact hj ⟨hji, blockPlace_inj hb⟩
      rw [update_of_ne hne]

def Disk.copied (D : Disk) (i off k : Nat) (src : Nat → Option UInt8) : Disk :=
  { D with block := update D.block (D.own (i, blockPlace (off / BSIZE))) fun j =>
      if off % BSIZE ≤ j ∧ j < off % BSIZE + k then (src (j - off % BSIZE)).getD 0
      else D.block (D.own (i, blockPlace (off / BSIZE))) j }

/-- Inode `i` was written from `off` on: up to `stop` the blocks have been logged, up to `top` bytes of `src` have been
copied, and the request went to `last`. -/
structure Wrote (sb : Super) (i off stop top last : Nat) (src : Nat → Option UInt8) (D D' : Disk) : Prop where
  owned : OneOwner sb D'
  inode : ∃ addrs, D'.dinode = update D.dinode i ((D.dinode i).withAddrs addrs)
  keep : ∀ p, D.own p ≠ 0 → D'.own p = D.own p
  off_le : off ≤ stop
  stop_le : stop ≤ top
  top_le : top ≤ last
  mapped : ∀ k, off ≤ k → k < stop → D'.own (i, blockPlace (k / BSIZE)) ≠ 0
  bytes : ∀ k, D'.byteAt i k = if off ≤ k ∧ k < top then (src (k - off)).getD 0 else D.byteAt i k
  others : ∀ j, j ≠ i → ∀ k, D'.byteAt j k = D.byteAt j k
  total : (∀ k, (src k).isSome = true) → top = stop
  cut : stop = off ∨ stop % BSIZE = 0 ∨ stop = last

section
variable {D₁ : Disk} {off stop top last m k : Nat} {src : Nat → Option UInt8}

theorem Extended.type_ne (h : Extended sb i D D') (ht : (D.dinode j).type ≠ .T_NONE) :
    (D'.dinode j).type ≠ .T_NONE := by
  obtain ⟨addrs, hd⟩ := h.inode
  rw [hd]
  by_cases hj : j = i
  · subst hj
    rw [update_self]
    exact ht
  · rwa [update_of_ne hj]

theorem Extended.wrote (h : Extended sb i D D') (hl : off ≤ last) : Wrote sb i off off off last src D D' where
  owned := h.owned
  inode := h.inode
  keep := h.keep
  off_le := le_rfl
  stop_le := le_rfl
  top_le := hl
  mapped k h1 h2 := absurd h1 (by omega)
  bytes k := by rw [if_neg (by omega), h.bytes]
  others j _ k := h.bytes j k
  total _ := rfl
  cut := .inl rfl

theorem own_copied (h : OneOwner sb D) : (D.copied i off k src).own = D.own := own_write h (blockPlace_ne _) rfl rfl rfl

variable (h : Extended sb i D D₁) (ha : D₁.own (i, blockPlace (off / BSIZE)) ≠ 0) (hm : m ≤ BSIZE - off % BSIZE)
include h ha hm

theorem Extended.copied (src : Nat → Option UInt8) (hk : k ≤ m) : OneOwner sb (D₁.copied i off k src) ∧
    (∀ j, j ≠ i → ∀ l, (D₁.copied i off k src).byteAt j l = D.byteAt j l) ∧
    ∀ l, (D₁.copied i off k src).byteAt i l =
      if off ≤ l ∧ l < off + k then (src (l - off)).getD 0 else D.byteAt i l := by
  have hown : (D₁.copied i off k src).own = D₁.own := own_copied h.owned
  have hbytes : ∀ j l, (D₁.copied i off k src).byteAt j l = _ := byteAt_write h.owned rfl ha rfl rfl
  refine ⟨⟨?_, h.owned.below⟩, fun j hj l => ?_, fun l => ?_⟩
  · rw [hown]
    exact h.owned.exact
  · rw [hbytes, if_neg fun hc => hj hc.1, h.bytes]
  · rw [hbytes]
    by_cases hl : l / BSIZE = off / BSIZE
    · rw [if_pos ⟨rfl, hl⟩]
      by_cases hin : off ≤ l ∧ l < off + k
      · rw [if_pos hin, if_pos (by lia)]
        congr 2
        lia
      · rw [if_neg hin, if_neg (by lia), ← h.bytes, Disk.byteAt, hl, if_neg ha]
    · rw [if_neg fun hc => hl hc.2, if_neg (by lia), h.bytes]

theorem Wrote.short (hk : k ≤ m) (hl : off + m ≤ last) (hsrc : ¬ ∀ j, (src j).isSome) :
    Wrote sb i off off (off + k) last src D (D₁.copied i off k src) := by
  obtain ⟨howned, hothers, hbytes⟩ := h.copied ha hm src hk
  refine ⟨howned, h.inode, fun p hp => ?_, le_rfl, by omega, by omega, fun l h1 h2 => absurd h1 (by omega), hbytes,
    hothers, fun hs => absurd hs hsrc, .inl rfl⟩
  rw [own_copied h.owned]
  exact h.keep p hp

theorem Wrote.cons (hcut : (off + m) % BSIZE = 0 ∨ off + m = last)
    (hw : Wrote sb i (off + m) stop top last (fun k => src (m + k)) (D₁.copied i off m src) D') :
    Wrote sb i off stop top last src D D' := by
  obtain ⟨howned, hothers, hbytes⟩ := h.copied ha hm src (Nat.le_refl m)
  have hown : (D₁.copied i off m src).own = D₁.own := own_copied h.owned
  have h1 := hw.off_le
  have h2 := hw.stop_le
  obtain ⟨addrs, hd⟩ := h.inode
  obtain ⟨addrs', hd'⟩ := hw.inode
  refine ⟨hw.owned, ⟨addrs', ?_⟩, fun p hp => ?_,
    by omega, h2, hw.top_le, fun l hlo hhi => ?_, fun l => ?_, fun j hj l => ?_,
    fun hs => hw.total fun k => hs _, ?_⟩
  · have hc : (D₁.copied i off m src).dinode = D₁.dinode := rfl
    rw [hd', hc, hd, update_self, update_idem]
    rfl
  · have h3 := h.keep p hp
    rw [hw.keep p (by rw [hown, h3]; exact hp), hown, h3]
  · rcases lt_or_ge l (off + m) with hlt | hge
    · have hdiv : l / BSIZE = off / BSIZE := by lia
      rw [hdiv, hw.keep _ (by rw [hown]; exact ha), hown]
      exact ha
    · exact hw.mapped l hge hhi
  · rw [hw.bytes, hbytes]
    by_cases hge : off + m ≤ l ∧ l < top
    · rw [if_pos hge, if_pos (by omega), show m + (l - (off + m)) = l - off by omega]
    · rw [if_neg hge]
      by_cases hin : off ≤ l ∧ l < off + m
      · rw [if_pos hin, if_pos (by omega)]
      · rw [if_neg hin, if_neg (by omega)]
  · rw [hw.others j hj, hothers j hj]
  · rcases hw.cut with he | he | he
    · rw [he]
      exact .inr hcut
    · exact .inr (.inl he)
    · exact .inr (.inr he)

end

theorem contents_congr (hd : D'.dinode i = D.dinode i) (hb : ∀ k, D'.byteAt i k = D.byteAt i k) :
    D'.contents i = D.contents i := by
  unfold Disk.contents
  rw [hd]
  simp only [hb]

theorem place_congr {d d' : Dinode} {block : Nat → Block} (ha : d'.addrs = d.addrs) (n : Nat) :
    d'.place block n = d.place block n := by
  unfold Dinode.place
  rw [ha]

section
variable {d : Dinode} (ht : (D.dinode i).type ≠ .T_NONE) (ht' : d.type ≠ .T_NONE) (ha : d.addrs = (D.dinode i).addrs)
include ht ht' ha

theorem own_setInode : (D.setInode i d).own = D.own := by
  funext ⟨j, m⟩
  by_cases hj : j = i
  · subst hj
    rw [Disk.own_of_type (by rw [Disk.setInode_self]; exact ht'), Disk.setInode_self, D.own_of_type ht]
    exact place_congr ha m
  · exact Disk.own_congr (Disk.setInode_ne hj) (fun _ => rfl) m

theorem byteAt_setInode (j k : Nat) : (D.setInode i d).byteAt j k = D.byteAt j k := by
  unfold Disk.byteAt
  rw [own_setInode ht ht' ha]
  rfl

theorem OneOwner.setInode (h : OneOwner sb D) : OneOwner sb (D.setInode i d) where
  exact := by
    rw [own_setInode ht ht' ha]
    exact h.exact
  below := h.below

theorem contents_setInode : (D.setInode i d).contents i =
    ⟨d.type, d.major, d.minor, d.nlink, d.size, fun k => if k < d.size then D.byteAt i k else 0⟩ := by
  unfold Disk.contents
  rw [Disk.setInode_self, if_neg ht']
  simp only [byteAt_setInode ht ht' ha]

theorem contents_setInode_ne (hj : j ≠ i) : (D.setInode i d).contents j = D.contents j :=
  contents_congr (Disk.setInode_ne hj) (byteAt_setInode ht ht' ha j)

end

def FileData.write (c : FileData) (off stop top : Nat) (src : Nat → Option UInt8) : FileData :=
  { c with
    size := max c.size stop
    bytes := fun k => if off ≤ k ∧ k < top ∧ k < max c.size stop then (src (k - off)).getD 0 else c.bytes k }

/-- What `writei` of `n` bytes at `off` does to inode `i`, when it gets as far as `stop`. -/
structure Written (sb : Super) (i off n stop : Nat) (src : Nat → Option UInt8) (D D' : Disk) : Prop where
  ok : DiskOk sb D'
  others : ∀ j, j ≠ i → D'.dinode j = D.dinode j
  type : (D'.dinode i).type = (D.dinode i).type
  off_le : off ≤ stop
  stop_le : stop ≤ off + n
  cut : stop = off ∨ stop % BSIZE = 0 ∨ stop = off + n
  contents : ∃ top, stop ≤ top ∧ ((∀ k, (src k).isSome = true) → top = stop) ∧
    D'.contents = update D.contents i ((D.contents i).write off stop top src)

theorem Wrote.written {off n stop top : Nat} {src : Nat → Option UInt8} (hw : Wrote sb i off stop top (off + n) src D D')
    (h : DiskOk sb D) (ht : (D.dinode i).type ≠ .T_NONE) (hoff : off ≤ (D.dinode i).size)
    (hmax : off + n ≤ MAXFILE * BSIZE) :
    Written sb i off n stop src D (D'.setInode i ((D'.dinode i).withSize (max (D.dinode i).size stop))) := by
  obtain ⟨addrs, hd⟩ := hw.inode
  have hdi : D'.dinode i = (D.dinode i).withAddrs addrs := by rw [hd, update_self]
  have hdj : ∀ j, j ≠ i → D'.dinode j = D.dinode j := fun j hj => by rw [hd, update_of_ne hj]
  have ht' : (D'.dinode i).type ≠ .T_NONE := by rw [hdi]; exact ht
  have hown : (D'.setInode i ((D'.dinode i).withSize (max (D.dinode i).size stop))).own = D'.own := own_setInode ht' ht' rfl
  have hoff' := hw.off_le
  have hstop := hw.stop_le
  have htop := hw.top_le
  refine ⟨⟨hw.owned.setInode ht' ht' rfl, fun j htj => ?_⟩, fun j hj => ?_, ?_, hoff', by omega, hw.cut, top, hstop,
    hw.total, ?_⟩
  · by_cases hj : j = i
    · subst hj
      have hmap := (h.sized j ht).mapped
      refine ⟨?_, fun bn hbn => ?_⟩
      · rw [Disk.setInode_self]
        exact Nat.max_le.mpr ⟨(h.sized j ht).size_le, by omega⟩
      · rw [Disk.setInode_self] at hbn
        rw [hown]
        rcases lt_or_ge (bn * BSIZE) (D.dinode j).size with hlt | hge
        · rw [hw.keep _ (hmap bn hlt)]
          exact hmap bn hlt
        · have hlt : bn * BSIZE < stop := by
            rcases lt_max_iff.mp hbn with hc | hc
            · omega
            · exact hc
          have := hw.mapped (bn * BSIZE) (by omega) hlt
          rwa [Nat.mul_div_cancel _ (by decide)] at this
    · rw [Disk.setInode_ne hj, hdj j hj] at htj
      refine ⟨?_, fun bn hbn => ?_⟩
      · rw [Disk.setInode_ne hj, hdj j hj]
        exact (h.sized j htj).size_le
      · rw [Disk.setInode_ne hj, hdj j hj] at hbn
        have hmap := (h.sized j htj).mapped bn hbn
        rw [hown, hw.keep _ hmap]
        exact hmap
  · rw [Disk.setInode_ne hj, hdj j hj]
  · rw [Disk.setInode_self, hdi]
    rfl
  · funext j
    by_cases hj : j = i
    · subst hj
      rw [update_self, contents_setInode (d := (D'.dinode j).withSize (max (D.dinode j).size stop)) ht' ht' rfl]
      have hc : D.contents j = ⟨(D.dinode j).type, (D.dinode j).major, (D.dinode j).minor, (D.dinode j).nlink,
        (D.dinode j).size, fun k => if k < (D.dinode j).size then D.byteAt j k else 0⟩ := if_neg ht
      rw [hc, FileData.write, hdi]
      congr 1
      funext k
      have hk := hw.bytes k
      change (if k < max (D.dinode j).size stop then D'.byteAt j k else 0) =
        if off ≤ k ∧ k < top ∧ k < max (D.dinode j).size stop then (src (k - off)).getD 0
        else if k < (D.dinode j).size then D.byteAt j k else 0
      by_cases hin : off ≤ k ∧ k < top
      · rw [if_pos hin] at hk
        by_cases hlt : k < max (D.dinode j).size stop
        · rw [if_pos hlt, if_pos ⟨hin.1, hin.2, hlt⟩, hk]
        · rw [if_neg hlt, if_neg (fun hc => hlt hc.2.2), if_neg (by omega)]
      · rw [if_neg hin] at hk
        have hin' : ¬ (off ≤ k ∧ k < top ∧ k < max (D.dinode j).size stop) := fun hc => hin ⟨hc.1, hc.2.1⟩
        rw [if_neg hin', hk]
        by_cases hlt : k < (D.dinode j).size
        · rw [if_pos hlt, if_pos (by omega)]
        · rw [if_neg hlt, if_neg (by omega)]
    · rw [update_of_ne hj,
        contents_setInode_ne (d := (D'.dinode i).withSize (max (D.dinode i).size stop)) ht' ht' rfl hj]
      exact contents_congr (hdj j hj) (hw.others j hj)

variable {d : Dinode} (h0 : ∀ n, D.own (i, n) = 0) (h1 : ∀ n, (D.setInode i d).own (i, n) = 0)
include h0 h1

theorem own_replace : (D.setInode i d).own = D.own := by
  funext ⟨j, n⟩
  by_cases hj : j = i
  · rw [hj, h1, h0]
  · exact Disk.own_congr (Disk.setInode_ne hj) (fun _ => rfl) n

theorem contents_replace (hj : j ≠ i) : (D.setInode i d).contents j = D.contents j := by
  refine contents_congr (Disk.setInode_ne hj) fun k => ?_
  unfold Disk.byteAt
  rw [own_replace h0 h1]
  rfl

theorem DiskOk.replace (h : DiskOk sb D) (hs : d.type ≠ .T_NONE → d.size = 0) : DiskOk sb (D.setInode i d) where
  owned := by
    refine ⟨?_, h.owned.below⟩
    rw [own_replace h0 h1]
    exact h.owned.exact
  sized j htj := by
    by_cases hj : j = i
    · subst hj
      rw [Disk.setInode_self] at htj
      refine ⟨?_, fun bn hbn => ?_⟩
      · rw [Disk.setInode_self, hs htj]
        exact Nat.zero_le _
      · rw [Disk.setInode_self, hs htj] at hbn
        omega
    · rw [Disk.setInode_ne hj] at htj
      refine ⟨by rw [Disk.setInode_ne hj]; exact (h.sized j htj).size_le, fun bn hbn => ?_⟩
      rw [Disk.setInode_ne hj] at hbn
      rw [own_replace h0 h1]
      exact (h.sized j htj).mapped bn hbn

end Xv6
