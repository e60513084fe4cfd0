import Xv6.VolSound

/-!
# Files store bytes

`writei` overlays a file with the bytes it was given, and `readi` gets them
back. It falls short when the disk is full or when a byte of its source
cannot be read.
-/

namespace Xv6

open Hoare Owners Function List Finset

namespace Vol

variable {v : Vol} {D D' : Disk} {l l' : Log} {ip off n last : Nat} {P : Finset Nat} {cached : Bool} {E : VolStop → Prop}
  {src : Nat → Option UInt8}

theorem copyIn_spec (d : Block) (o m : Nat) (src : Nat → Option UInt8) : ∃ k ≤ m,
    copyIn d o m src = (fun j => if o ≤ j ∧ j < o + k then (src (j - o)).getD 0 else d j, k == m) ∧
      (∀ j < k, (src j).isSome) ∧ (k < m → src k = none) := by
  refine ⟨((List.range m).find? fun i => (src i).isNone).getD m, ?_, rfl, ?_⟩
  · cases hf : (List.range m).find? fun i => (src i).isNone with
    | none => exact le_rfl
    | some k => exact le_of_lt (List.mem_range.mp (List.mem_of_find?_eq_some hf))
  · cases hf : (List.range m).find? fun i => (src i).isNone with
    | none =>
      refine ⟨fun j hj => ?_, fun h => absurd h (lt_irrefl m)⟩
      simpa using find?_range_eq_none.mp hf j hj
    | some k =>
      obtain ⟨hk, -, hlt⟩ := find?_range_eq_some.mp hf
      exact ⟨fun j hj => by simpa using hlt j hj, fun _ => Option.isNone_iff_eq_none.mp hk⟩

def Covers (P : Finset Nat) (off last : Nat) : Prop :=
  ∀ k, off ≤ k → k < last → blockPlace (k / BSIZE) ∈ P ∧ (NDIRECT < blockPlace (k / BSIZE) → NDIRECT ∈ P)

structure Ran (v : Vol) (ip : Nat) (P : Finset Nat) (cached : Bool) (off stop top last : Nat) (src : Nat → Option UInt8)
    (D D' : Disk) (l : Log) : Prop extends Wrote v.sb (v.inode ip).inum off stop top last src D D' where
  spent : Spent v.sb (v.inode ip).inum P D D'
  full : (∀ k, (src k).isSome = true) → stop < last →
    free v.sb D' = 0 ∧ D'.own ((v.inode ip).inum, blockPlace (stop / BSIZE)) = 0
  /-- Where the write stopped, the cache has the bytes up to the first that cannot be read. -/
  part : stop < last → ∀ k, stop ≤ k → (k < top ↔ cached = true ∧
    D'.own ((v.inode ip).inum, blockPlace (stop / BSIZE)) ≠ 0 ∧ ∀ j, off + j ≤ k → (src j).isSome = true)
  logs : Logs v ip P D' l

theorem spent_copied {sb : Super} (h : OneOwner sb D') (hs : Spent sb i P D D') :
    Spent sb i P D (D'.copied i off k src) := by
  unfold Spent lacking at *
  rw [own_copied h]
  exact hs

theorem Ran.nil (h : Extended v.sb (v.inode ip).inum D D') (hs : Spent v.sb (v.inode ip).inum P D D') (hl : off ≤ last)
    (hf : off < last → free v.sb D' = 0 ∧ D'.own ((v.inode ip).inum, blockPlace (off / BSIZE)) = 0)
    (hlog : Logs v ip P D' l) : Ran v ip P cached off off off last src D D' l where
  toWrote := h.wrote hl
  spent := hs
  full _ hlt := hf hlt
  part hlt k hk := ⟨fun h => absurd hk (by omega), fun h => absurd (hf hlt).2 h.2.1⟩
  logs := hlog

theorem wp_writeLoop (hsb : SuperOk v.sb) (hR : Room v ip P ∨ E (.log .tooBig)) :
    ∀ {fuel off tot : Nat} {D : Disk} {l : Log} {Q : Nat × Nat → Vol → Prop},
    OneOwner v.sb D → (D.dinode (v.inode ip).inum).type ≠ .T_NONE → off + (n - tot) = last → last ≤ MAXFILE * BSIZE →
    tot ≤ n → (tot < n → n - tot + off % BSIZE ≤ fuel * BSIZE) → Covers P off last → Logs v ip P D l →
    (∀ stop top r D' l', r + off = tot + stop →
      Ran v ip P cached off stop top last (fun k => src (tot + k)) D D' l' → Q (stop, r) (v.seen ip D' l')) →
    wp (writeLoop cached src ip n fuel off tot) Q E (v.seen ip D l)
  | 0, off, tot, D, l, Q, hD, _, hlast, _, htot, hfuel, _, hlog, hQ => by
    have hn : last ≤ off := by
      refine Classical.byContradiction fun hne => ?_
      omega
    exact wp_ret (hQ _ _ _ D l rfl (.nil (hD.extended _) rfl (by omega) (fun h => absurd h (by omega)) hlog))
  | fuel + 1, off, tot, D, l, Q, hD, ht, hlast, hmax, htot, hfuel, hP, hlog, hQ => by
    refine wp_ite (fun hlt => ?_) fun hge => wp_ret (hQ _ off _ D l rfl ?_)
    · have hbn : off / BSIZE < MAXFILE := by lia
      obtain ⟨hp, hi⟩ := hP off le_rfl (by omega)
      refine wp_seq (wp_bmap hsb hD ht hbn hp hi (fun _ => ⟨hlog, hR⟩) fun D₁ l₁ h => ?_)
      have hext := h.toExtended
      refine wp_ite (fun h0 => wp_ret (hQ _ off _ D₁ l₁ rfl ?_)) fun ha => ?_
      · exact .nil hext h.spent (by omega) (fun _ => ⟨h.full h0, h0⟩) (h.logs hlog)
      rw [wp_read]
      obtain ⟨m, hm⟩ : ∃ m, m = min (n - tot) (BSIZE - off % BSIZE) := ⟨_, rfl⟩
      have hmb : m ≤ BSIZE - off % BSIZE := by rw [hm]; exact Nat.min_le_right ..
      have hmend : (off + m) % BSIZE = 0 ∨ m = n - tot := by lia
      obtain ⟨k, hk, hcopy, hsome, hnone⟩ := copyIn_spec (D₁.block (D₁.own ((v.inode ip).inum, blockPlace (off / BSIZE))))
        (off % BSIZE) m fun i => src (tot + i)
      have hcopy' : copyIn ((v.seen ip D₁ l₁).disk.block (D₁.own ((v.inode ip).inum, blockPlace (off / BSIZE))))
        (off % BSIZE) m (fun i => src (tot + i)) = _ := hcopy
      dsimp only
      rw [← hm, hcopy']
      refine wp_ite (fun hne => ?_) fun heq => ?_
      · have hne : k ≠ m := by simpa using hne
        have hk0 := hnone (by omega)
        have hbad : ¬ ∀ j, (src (tot + j)).isSome := fun h => by simpa [hk0] using h k
        have hstop : ∀ l, off ≤ l → (l < off + k ↔ ∀ j, off + j ≤ l → (src (tot + j)).isSome) := fun l hl =>
          ⟨fun h j hj => hsome j (by omega), fun h => Classical.byContradiction fun hc =>
            by simpa [hk0] using h k (by omega)⟩
        refine wp_ite (fun hc => wp_seq (wp_put (wp_ret ?_))) fun hc => wp_ret ?_
        · refine hQ _ _ _ (D₁.copied (v.inode ip).inum off k fun j => src (tot + j)) l₁ rfl
            ⟨Wrote.short hext ha hmb hk (by omega) hbad, spent_copied h.owned h.spent, fun hs => absurd hs hbad,
              fun _ l hl => ?_, (h.logs hlog).keep fun p _ => by rw [own_copied h.owned]⟩
          rw [own_copied h.owned, hstop l hl]
          exact ⟨fun h => ⟨hc, ha, h⟩, fun h => h.2.2⟩
        · exact hQ _ off _ D₁ l₁ rfl ⟨hext.wrote (by omega), h.spent, fun hs => absurd hs hbad,
            fun _ l hl => ⟨fun h => absurd h (by omega), fun h => absurd h.1 hc⟩, h.logs hlog⟩
      · have heq : k = m := by simpa using heq
        subst heq
        rw [wp_bind, wp_set, seen_setBlock, wp_bind]
        have hown : (D₁.copied (v.inode ip).inum off k fun j => src (tot + j)).own = D₁.own := own_copied h.owned
        have hlog₁ : Logs v ip P (D₁.copied (v.inode ip).inum off k fun j => src (tot + j)) l₁ :=
          (h.logs hlog).keep fun p _ => by rw [hown]
        refine wp_log_write (v := v.seen ip (D₁.copied (v.inode ip).inum off k fun j => src (tot + j)) l₁) hlog₁
          (mem_owned hp (by rw [hown]) ha) (room_logs hR _) fun l₂ hl₂ => ?_
        have hc := (hext.copied ha hmb (fun j => src (tot + j)) (Nat.le_refl k)).1
        refine wp_writeLoop hsb hR hc (hext.type_ne ht) (by omega) hmax (by omega) (fun hlt' => ?_)
          (fun k' h1 h2 => hP k' (by omega) h2) hl₂ fun stop top r D' l' hr hw => ?_
        · have := hfuel hlt
          lia
        · simp only [Nat.add_assoc] at hw
          refine hQ stop top r D' l' (by omega) ⟨Wrote.cons hext ha hmb (by omega) hw.toWrote,
            Spent.trans (spent_copied h.owned h.spent) hw.spent, fun hs => hw.full fun _ => hs _,
              fun hlt k' hk' => ?_, hw.logs⟩
          rw [hw.part hlt k' hk']
          refine and_congr_right fun _ => and_congr_right fun _ => ⟨fun h j hj => ?_, fun h j hj => h _ (by omega)⟩
          rcases lt_or_ge j k with hjk | hjk
          · exact hsome j hjk
          · have := h (j - k) (by omega)
            rwa [show k + (j - k) = j by omega] at this
    · exact .nil (hD.extended _) rfl (by omega) (fun h => absurd h (by omega)) hlog

def stored (v : Vol) (ip : Nat) (D : Disk) (l : Log) : Vol :=
  { v with disk := D, inode := update v.inode ip ((v.inode ip).withCopy (D.dinode (v.inode ip).inum)), log := l }

theorem stored_copy (v : Vol) (ip : Nat) (D : Disk) (l : Log) :
    ((v.stored ip D l).inode ip).copy = D.dinode (v.inode ip).inum := by
  simp [stored, VInode.withCopy]

theorem stored_inum (v : Vol) (ip : Nat) (D : Disk) (l : Log) : ((v.stored ip D l).inode ip).inum = (v.inode ip).inum := by
  simp [stored, VInode.withCopy]

theorem stored_synced (v : Vol) (ip : Nat) (D : Disk) (l : Log) : (v.stored ip D l).Synced ip := by
  rw [Synced, stored_copy, stored_inum]
  rfl

theorem wp_iupdate (hlog : Logs v ip P D l) (hR : Room v ip P ∨ E (.log .tooBig))
    (h : ∀ l', Q () (v.stored ip D l')) : wp (iupdate ip) Q E (v.seen ip D l) := by
  have hinum : ((v.seen ip D l).inode ip).inum = (v.inode ip).inum := by simp [seen, VInode.withCopy]
  have hset : (v.seen ip D l).setDinode ((v.seen ip D l).inode ip).inum (D.dinode (v.inode ip).inum) = v.stored ip D l := by
    simp [seen, setDinode, stored, Disk.setInode, VInode.withCopy]
  unfold iupdate
  rw [wp_read, seen_copy, hset, wp_bind, wp_set, hinum]
  exact wp_log_write (v := v.stored ip D l) hlog (Finset.mem_union_left _ (Finset.mem_insert_self ..)) (room_logs hR D)
    fun l' _ => h l'

theorem wp_writeBlocks (hsb : SuperOk v.sb) (hin : 1 ≤ v.log.outstanding)
    (hP : Covers P off (off + n)) (hR : Room v ip P ∨ E (.log .tooBig)) (hD : OneOwner v.sb v.disk)
    (hs : v.Synced ip) (ht : (v.disk.dinode (v.inode ip).inum).type ≠ .T_NONE)
    (hout : ¬ (off ≤ (v.disk.dinode (v.inode ip).inum).size ∧ off + n ≤ MAXFILE * BSIZE) → Q (-1) v)
    (hQ : ∀ stop top D' l l', off ≤ (v.disk.dinode (v.inode ip).inum).size → off + n ≤ MAXFILE * BSIZE →
      Ran v ip P cached off stop top (off + n) src v.disk D' l →
      Q (stop - off : Nat) (v.stored ip (D'.setInode (v.inode ip).inum ((D'.dinode (v.inode ip).inum).withSize
        (max (v.disk.dinode (v.inode ip).inum).size stop))) l')) :
    wp (writeBlocks cached src ip off n) Q E v := by
  unfold writeBlocks
  rw [wp_read, hs]
  refine wp_ite (fun hin => wp_ret (hout fun h => ?_)) fun hle => ?_
  · obtain ⟨h1, h2⟩ := h
    simp only [addWraps, decide_eq_true_eq] at *
    lia
  refine wp_ite (fun hmax => wp_ret (hout fun h => absurd h.2 (by omega))) fun hmax => ?_
  push Not at hle
  have hfuel : 0 < n → n - 0 + off % BSIZE ≤ (n / BSIZE + 2) * BSIZE := fun _ => by lia
  rw [wp_bind]
  refine Eq.subst (motive := fun t => wp _ _ E t) hs.seen ?_
  refine wp_writeLoop hsb hR hD ht rfl (by omega) (Nat.zero_le n) hfuel hP ⟨hin, [], by simp⟩ fun stop top r D' l hr hw => ?_
  simp only [Nat.zero_add] at hw hr
  have hfin := fun l' => hQ stop top D' l l' hle.1 (by omega) hw
  rw [show stop - off = r by omega] at hfin
  obtain ⟨addrs, hd⟩ := hw.inode
  have ht' : (D'.dinode (v.inode ip).inum).type ≠ .T_NONE := by rw [hd, update_self]; exact ht
  have hsize : (D'.dinode (v.inode ip).inum).size = (v.disk.dinode (v.inode ip).inum).size := by
    rw [hd, update_self]
    rfl
  rw [wp_read, seen_copy]
  refine wp_ite (fun hlt => ?_) fun hge => ?_
  · rw [wp_bind, wp_set, seen_setCopy, wp_bind]
    rw [max_eq_right (by omega)] at hfin
    refine wp_iupdate (hw.logs.keep fun p _ => ?_) hR fun l' => wp_ret (hfin l')
    rw [own_setInode (d := (D'.dinode (v.inode ip).inum).withSize stop) ht' ht' rfl]
  · have hsame : D'.setInode (v.inode ip).inum ((D'.dinode (v.inode ip).inum).withSize
        (max (v.disk.dinode (v.inode ip).inum).size stop)) = D' := by
      rw [max_eq_left (by omega), ← hsize]
      exact congrArg (fun f => { D' with dinode := f }) (update_eq_self ..)
    rw [hsame] at hfin
    exact wp_seq (wp_iupdate hw.logs hR fun l' => wp_ret (hfin l'))

/-! ## What is read afterwards -/

def slice (byte : Nat → UInt8) (size off n : Nat) : Int × List UInt8 :=
  ((min n (size - off) : Nat), (List.range (min n (size - off))).map fun k => byte (off + k))

theorem readResult_slice {i : Nat} (size : Nat) {byte : Nat → UInt8} (hw : addWraps off n = false)
    (hsize : (D.dinode i).size - off = size - off)
    (hb : ∀ k, off ≤ k → k < (D.dinode i).size → D.byteAt i k = byte k) : readResult D i off n = slice byte size off n := by
  have hmap : ((List.range (min n (size - off))).map fun k => D.byteAt i (off + k)) =
      (List.range (min n (size - off))).map fun k => byte (off + k) := List.map_congr_left fun k hk => by
    have := List.mem_range.mp hk
    exact hb _ (by omega) (by omega)
  unfold readResult slice
  simp only [hw, Bool.false_eq_true, or_false]
  rw [← hmap]
  split
  · rw [show size - off = 0 by omega]
    simp
  · rw [show (if (D.dinode i).size < off + n then (D.dinode i).size - off else n) = min n (size - off) by split <;> omega]

theorem wp_readi_stored (off n : Nat) (hsb : SuperOk v.sb) (hD : DiskOk v.sb D)
    (ht : (D.dinode (v.inode ip).inum).type ≠ .T_NONE) :
    wp (readi (fun _ => false) ip off n) (fun res v' => v' = v.stored ip D l ∧ res = readResult D (v.inode ip).inum off n) E
      (v.stored ip D l) := by
  have ht' : (D.dinode ((v.stored ip D l).inode ip).inum).type ≠ .T_NONE := by rwa [stored_inum]
  refine wp_readi (v := v.stored ip D l) hsb hD (stored_synced ..) ht' (fun h => ?_) ⟨rfl, by rw [stored_inum]; rfl⟩
  obtain ⟨_, h⟩ := h
  cases h

theorem byteAt_withSize {sb : Super} {i stop top : Nat} (hw : Wrote sb i off stop top last src D D')
    (ht : (D.dinode i).type ≠ .T_NONE) (size k : Nat) : (D'.setInode i ((D'.dinode i).withSize size)).byteAt i k =
      if off ≤ k ∧ k < top then (src (k - off)).getD 0 else D.byteAt i k := by
  obtain ⟨addrs, hd⟩ := hw.inode
  have ht' : (D'.dinode i).type ≠ .T_NONE := by
    rw [hd, update_self]
    exact ht
  rw [byteAt_setInode (d := (D'.dinode i).withSize size) ht' ht' rfl, hw.bytes]

def span (off n : Nat) : Finset Nat :=
  (Finset.range n).biUnion fun k => {blockPlace ((off + k) / BSIZE)} ∪
    if NDIRECT < blockPlace ((off + k) / BSIZE) then {NDIRECT} else ∅

theorem covers_span (off n : Nat) : Covers (span off n) off (off + n) := fun k h1 h2 => by
  have hk : k - off ∈ Finset.range n := Finset.mem_range.mpr (by omega)
  rw [show k = off + (k - off) by omega]
  exact ⟨Finset.mem_biUnion.mpr ⟨_, hk, by simp⟩, fun h => Finset.mem_biUnion.mpr ⟨_, hk, by simp [h]⟩⟩

theorem Ran.all_iff {stop : Nat} (hw : Ran v ip (span off n) cached off stop stop (off + n) src D D' l)
    (hsrc : ∀ k, (src k).isSome) :
    stop = off + n ↔ lacking D (v.inode ip).inum (span off n) ≤ free v.sb D := by
  have hmem := covers_span off n
  have hspent := hw.spent
  have htop := hw.top_le
  unfold Spent at hspent
  refine ⟨fun he => ?_, fun hfit => Classical.byContradiction fun hne => ?_⟩
  · have hz : lacking D' (v.inode ip).inum (span off n) = 0 := by
      refine Finset.card_eq_zero.mpr (Finset.filter_eq_empty_iff.mpr fun p hp => ?_)
      obtain ⟨k, hk, hp⟩ := Finset.mem_biUnion.mp hp
      have hmap := hw.mapped (off + k) (by omega) (by have := Finset.mem_range.mp hk; omega)
      split at hp
      · next hlt =>
        rcases Finset.mem_union.mp hp with hp | hp <;> rw [Finset.mem_singleton.mp hp]
        · exact hmap
        · exact Disk.own_indirect hmap hlt
      · rw [Finset.union_empty] at hp
        rw [Finset.mem_singleton.mp hp]
        exact hmap
    omega
  · obtain ⟨hfree, h0⟩ := hw.full hsrc (by omega)
    have hpos : 0 < lacking D' (v.inode ip).inum (span off n) :=
      card_pos.mpr ⟨_, mem_filter.mpr ⟨(hmem stop hw.off_le (by omega)).1, h0⟩⟩
    omega

/-- If the log has room for the blocks concerned, the write returns; it may panic only if it has not. -/
theorem writei_stores (hsb : SuperOk v.sb) (hin : 1 ≤ v.log.outstanding) (hD : DiskOk v.sb v.disk) (hs : v.Synced ip)
    (ht : (v.disk.dinode (v.inode ip).inum).type ≠ .T_NONE) (hsrc : ∀ k, (src k).isSome = true) :
    wp (writei src ip off n) (fun r v' =>
      if off ≤ (v.inode ip).copy.size ∧ off + n ≤ MAXFILE * BSIZE then
        ∃ m ≤ n, r = m ∧ (m = n ↔ lacking v.disk (v.inode ip).inum (span off n) ≤ free v.sb v.disk) ∧
          DiskOk v.sb v'.disk ∧ v'.Synced ip ∧ (v'.inode ip).copy.size = max (v.inode ip).copy.size (off + m) ∧
          (∀ j, j ≠ (v.inode ip).inum → v'.disk.contents j = v.disk.contents j) ∧
          ∀ off' n', off' + n' < 4294967296 → wp (readi (fun _ => false) ip off' n') (fun res v'' => v'' = v' ∧
            res = slice (fun k => if off ≤ k ∧ k < off + m then (src (k - off)).getD 0
              else (v.disk.contents (v.inode ip).inum).bytes k) (max (v.inode ip).copy.size (off + m)) off' n')
            (fun _ => False) v'
      else r = -1 ∧ v' = v) (fun e => e = .log .tooBig ∧ ¬ v.Room ip (span off n)) v := by
  rw [hs]
  have hR : v.Room ip (span off n) ∨ VolStop.log .tooBig = .log .tooBig ∧ ¬ v.Room ip (span off n) :=
    (em _).imp_right fun h => ⟨rfl, h⟩
  refine wp_writeBlocks hsb hin (covers_span off n) hR hD.owned hs ht (fun hout => ?_)
    fun stop top D' l l' hoff hmax hw => ?_
  · rw [if_neg hout]
    exact ⟨rfl, rfl⟩
  have htop := hw.total hsrc
  subst htop
  have h1 := hw.off_le
  have h2 := hw.top_le
  have hwn := hw.toWrote.written hD ht hoff hmax
  obtain ⟨_, -, -, hcon⟩ := hwn.contents
  have hall := hw.all_iff hsrc
  obtain ⟨m, rfl⟩ : ∃ m, top = off + m := ⟨top - off, by omega⟩
  rw [if_pos ⟨hoff, hmax⟩, Nat.add_sub_cancel_left]
  refine ⟨m, by omega, rfl, by rw [← hall]; omega, hwn.ok, stored_synced .., ?_, fun j hj => ?_, fun off' n' hn => ?_⟩
  · rw [stored_copy, Disk.setInode_self]
    rfl
  · exact (congrFun hcon j).trans (update_of_ne hj ..)
  · refine wp_post (wp_readi_stored _ _ hsb hwn.ok (by rw [hwn.type]; exact ht)) fun res v'' h => ⟨h.1, h.2.trans ?_⟩
    refine readResult_slice _ (by simp [addWraps, Nat.mod_eq_of_lt hn]) (by rw [Disk.setInode_self]; rfl) fun k _ hk => ?_
    have hk : k < max (v.disk.dinode (v.inode ip).inum).size (off + m) := by rwa [Disk.setInode_self] at hk
    rw [byteAt_withSize hw.toWrote ht]
    refine ite_congr rfl (fun _ => rfl) fun hin => ?_
    rw [Disk.contents, if_neg ht]
    exact (if_pos (by omega)).symm

/-- A disk with one file, which is empty, and a process in a transaction that has the file locked. -/
def small : Vol where
  sb := ⟨4, 0, 0, 1⟩
  disk := ⟨fun b => b < 1, fun i => if i = 1 then Dinode.zero.withType .T_FILE else .zero, fun _ _ => 0⟩
  inode := fun _ => ⟨1, 1, true, true, Dinode.zero.withType .T_FILE⟩
  log := ⟨1, false, []⟩
  cwd := fun _ => none

theorem small_ok : DiskOk small.sb small.disk := by
  have hzero : ∀ i, (small.disk.dinode i).addrs = (fun _ => 0) ∧ (small.disk.dinode i).size = 0 := fun i => by
    unfold small Dinode.withType Dinode.zero
    dsimp only
    split <;> exact ⟨rfl, rfl⟩
  have hown : ∀ p, small.disk.own p = 0 := fun p => by
    unfold Disk.own Dinode.place
    simp [hzero]
  have hused : ∀ b, small.disk.used b ↔ b < 1 := fun b => decide_eq_true_iff
  refine ⟨⟨⟨by decide, fun p q hp => absurd (hown p) hp, fun p hp => absurd (hown p) hp, fun p hp => absurd (hown p) hp,
    fun b hb => (hused b).mpr hb, fun b hb => .inl ((hused b).mp hb)⟩, fun b hb => ?_⟩, fun i _ => ⟨?_, fun bn hbn => ?_⟩⟩
  · exact lt_trans ((hused b).mp hb) (by decide)
  · rw [(hzero i).2]
    exact Nat.zero_le _
  · rw [(hzero i).2] at hbn
    exact absurd hbn (Nat.not_lt_zero _)

theorem writei_stores_small : ∃ r v', writei (fun _ => some 7) 0 0 2 small = .ok (r, v') ∧ DiskOk small.sb v'.disk := by
  have h : wp (writei (fun _ => some 7) 0 0 2) _ _ small :=
    writei_stores ⟨by decide⟩ (by decide) small_ok rfl (by decide) fun _ => rfl
  obtain ⟨r, v', hx, h⟩ := wp_total (wp_mono h (fun _ _ hq => hq) fun e he => he.2 (by unfold Room; decide))
  obtain ⟨m, -, -, -, hok, -⟩ := h
  exact ⟨r, v', hx, hok⟩

/-- A range that ends at 2^32 counts as one that wraps around, and nothing of it is read. -/
theorem readi_to_end : DiskOk small.sb small.disk ∧ ∃ v', writei (fun _ => some 7) 0 0 2 small = .ok (2, v') ∧
    (v'.inode 0).copy.size = 2 ∧ 1 + 4294967295 = 4294967296 ∧
    readi (fun _ => false) 0 1 4294967295 v' = .ok ((0, []), v') :=
  ⟨small_ok, _, rfl, rfl, rfl, rfl⟩

/-! ## What is written when the source cannot be read -/

/-- The bytes from `r` on that were readable, and so copied to the buffer, were there already. -/
def Unseen (v : Vol) (ip off : Nat) (src : Nat → Option UInt8) (r : Int) : Prop :=
  ∀ k : Nat, r ≤ k → off + k < (v.inode ip).copy.size → (∀ j ≤ k, (src j).isSome = true) →
    src k = some ((v.disk.contents (v.inode ip).inum).bytes (off + k))

section
variable (hsb : SuperOk v.sb) (hin : 1 ≤ v.log.outstanding) (hD : DiskOk v.sb v.disk) (hs : v.Synced ip)
  (ht : (v.disk.dinode (v.inode ip).inum).type ≠ .T_NONE)
include hsb hin hD hs ht

end

end Vol

end Xv6
