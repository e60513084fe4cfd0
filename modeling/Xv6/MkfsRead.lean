import Xv6.MkfsImage
import Xv6.VolWalk

/-!
# What the kernel reads

On the image that `mkfs` leaves, the disk is in order if the size of the root
directory was not rounded up from a multiple of the block size. Then a name
leads to the inode of the first entry that has it, and `readi` returns the
bytes of that inode.
-/

namespace Xv6

open Hoare Vol Owners List Option

variable {i : Nat} {t : IType} {f : InFile}

def padded (name : List UInt8) : List UInt8 := (range DIRSIZ).map fun j => name.getD j 0

structure ShortName (name : List UInt8) : Prop where
  string : 0 ∉ name
  short : name.length ≤ DIRSIZ

section
variable {name : List UInt8}

section
variable (h : ShortName name)
include h

theorem padded_eq : padded name = name ++ replicate (DIRSIZ - name.length) 0 := by
  have hlen := h.short
  refine ext_getElem? fun j => ?_
  unfold padded
  rw [getElem?_map]
  rcases lt_or_ge j DIRSIZ with hj | hj
  · rw [getElem?_range hj, map_some, getD_eq_getElem?_getD]
    rcases lt_or_ge j name.length with hn | hn
    · rw [getElem?_append_left hn, getElem?_eq_getElem hn]
      rfl
    · rw [getElem?_append_right hn, getElem?_eq_none hn, getElem?_replicate, if_pos (by omega)]
      rfl
  · rw [getElem?_eq_none (by rw [length_range]; exact hj),
      getElem?_eq_none (by rw [length_append, length_replicate]; omega)]
    rfl

theorem ShortName.nonzero : ∀ b ∈ name, (b != 0) :=
  fun _ hb => bne_iff_ne.mpr fun h0 => h.string (h0 ▸ hb)

theorem cstr_of_shortName : cstr name = name := by
  unfold cstr
  rw [take_of_length_le h.short, takeWhile_eq_self_iff.mpr h.nonzero]

theorem cstr_padded : cstr (padded name) = name := by
  have hlen : (padded name).length = DIRSIZ := by rw [padded, length_map, length_range]
  unfold cstr
  rw [take_of_length_le (le_of_eq hlen), padded_eq h, takeWhile_append_of_pos h.nonzero]
  cases DIRSIZ - name.length with
  | zero | succ n => exact append_nil name

theorem namecmp_padded {name' : List UInt8} (h' : ShortName name') :
    namecmp name (padded name') ↔ name = name' := by
  unfold namecmp
  rw [cstr_of_shortName h, cstr_padded h', beq_iff_eq]

end

theorem ofBytes_direntBytes {inum : Nat} (hi : inum < 65536) (name : List UInt8) :
    Dirent.ofBytes (direntBytes inum name) = ⟨inum, padded name⟩ := by
  have h0 : (direntBytes inum name).getD 0 0 = UInt8.ofNat inum := rfl
  have h1 : (direntBytes inum name).getD 1 0 = UInt8.ofNat (inum / 256) := rfl
  have hname : ((direntBytes inum name).drop 2).take DIRSIZ = padded name := rfl
  unfold Dirent.ofBytes
  rw [h0, h1, hname, UInt8.toNat_ofNat', UInt8.toNat_ofNat']
  congr 1
  omega

theorem entry_fileOf {pre post : List UInt8} {k inum : Nat} (hk : pre.length = k * direntSize) (hi : inum < 65536)
    (t : IType) :
    (Mkfs.fileOf t (pre ++ (direntBytes inum name ++ post))).entry k = ⟨inum, padded name⟩ := by
  rw [← ofBytes_direntBytes hi]
  unfold FileData.entry
  congr 1
  refine ext_getElem? fun j => ?_
  rw [getElem?_map]
  rcases Nat.lt_or_ge j direntSize with hj | hj
  · have hlt : j < (direntBytes inum name).length := by rw [length_direntBytes]; exact hj
    rw [getElem?_range hj]
    change some ((pre ++ (direntBytes inum name ++ post)).getD (k * direntSize + j) 0) = _
    rw [getD_eq_getElem?_getD, getElem?_append_right (by omega), hk, Nat.add_sub_cancel_left,
      getElem?_append_left hlt, getElem?_eq_getElem hlt]
    rfl
  · rw [getElem?_eq_none (by rw [length_range]; exact hj),
      getElem?_eq_none (by rw [length_direntBytes]; exact hj)]
    rfl

end

namespace Mkfs

/-! ## The root directory -/

def rootBytes (files : List InFile) : List UInt8 :=
  rootEntries files ++ replicate (rootSize files - 16 * (files.length + 2)) 0

def rootNames (files : List InFile) : List (List UInt8) := dot :: dotdot :: files.map InFile.name

def target (k : Nat) : Nat := if k < 2 then ROOTINO else k

variable {files : List InFile} {name : List UInt8}

theorem rootSize_ge (files : List InFile) : 16 * (files.length + 2) < rootSize files := by
  unfold rootSize
  lia

theorem length_rootBytes (files : List InFile) : (rootBytes files).length = rootSize files := by
  have := rootSize_ge files
  rw [rootBytes, length_append, length_rootEntries, length_replicate]
  omega

theorem getD_rootBytes (files : List InFile) (k : Nat) : (rootBytes files).getD k 0 = (rootEntries files).getD k 0 := by
  unfold rootBytes
  rw [getD_eq_getElem?_getD, getD_eq_getElem?_getD]
  rcases lt_or_ge k (rootEntries files).length with hk | hk
  · rw [getElem?_append_left hk]
  · rw [getElem?_append_right hk, getElem?_eq_none hk, getElem?_replicate]
    split
    · rfl
    · rfl

theorem entry_rootBytes (files : List InFile) (k : Nat) :
    (fileOf .T_DIR (rootBytes files)).entry k = (fileOf .T_DIR (rootEntries files)).entry k := by
  unfold FileData.entry
  congr 1
  exact map_congr_left fun j _ => getD_rootBytes files _

theorem entry_root (hroom : files.length + 1 < 208) (hk : (rootNames files)[k]? = some name) :
    (fileOf .T_DIR (rootBytes files)).entry k = ⟨target k, padded name⟩ := by
  rw [entry_rootBytes]
  match k with
  | 0 =>
    cases hk
    have hsplit : rootEntries files = [] ++ (direntBytes ROOTINO dot ++ (direntBytes ROOTINO dotdot ++ entries 2 files)) :=
      append_assoc ..
    rw [hsplit]
    exact entry_fileOf rfl (by decide) _
  | 1 =>
    cases hk
    have hsplit : rootEntries files = direntBytes ROOTINO dot ++ (direntBytes ROOTINO dotdot ++ entries 2 files) :=
      append_assoc ..
    rw [hsplit]
    exact entry_fileOf (length_direntBytes ..) (by decide) _
  | k + 2 =>
    have hk : (files.map InFile.name)[k]? = some name := hk
    rw [getElem?_map] at hk
    cases hf : files[k]? with
    | none => rw [hf] at hk; cases hk
    | some f =>
      rw [hf] at hk
      cases hk
      obtain ⟨hlt, rfl⟩ := List.getElem?_eq_some_iff.mp hf
      have hfiles : files = files.take k ++ files[k] :: files.drop (k + 1) := by
        rw [getElem_cons_drop, take_append_drop]
      have hlen : (files.take k).length = k := by
        rw [length_take]
        omega
      have hent : entries 2 files =
          entries 2 (files.take k) ++ (direntBytes (k + 2) (files[k]).name ++ entries (k + 2 + 1) (files.drop (k + 1))) := by
        have happ := entries_append (files[k] :: files.drop (k + 1)) 2 (files.take k)
        rw [← hfiles, hlen, Nat.add_comm 2 k] at happ
        exact happ
      have hpre : (direntBytes ROOTINO dot ++ direntBytes ROOTINO dotdot ++ entries 2 (files.take k)).length =
          (k + 2) * direntSize := by
        rw [length_append, length_append, length_direntBytes, length_direntBytes, length_entries, hlen]
        simp only [direntSize]
        omega
      have htarget : target (k + 2) = k + 2 := if_neg (by omega)
      unfold rootEntries
      rw [hent, ← append_assoc, htarget]
      exact entry_fileOf hpre (by omega) _

theorem entry_beyond (hk : files.length + 2 ≤ k) : ((fileOf .T_DIR (rootBytes files)).entry k).inum = 0 := by
  have hz : ∀ j, (rootEntries files).getD (k * direntSize + j) 0 = 0 := by
    intro j
    rw [getD_eq_getElem?_getD, getElem?_eq_none]
    · rfl
    · rw [length_rootEntries]
      simp only [direntSize]
      omega
  rw [entry_rootBytes]
  change ((rootEntries files).getD (k * direntSize + 0) 0).toNat +
    256 * ((rootEntries files).getD (k * direntSize + 1) 0).toNat = 0
  rw [hz, hz]
  rfl

theorem slot_of_rootNames (hk : (rootNames files)[k]? = some name) :
    k ∈ range (fileOf .T_DIR (rootBytes files)).slots := by
  obtain ⟨hlt, _⟩ := List.getElem?_eq_some_iff.mp hk
  unfold rootNames at hlt
  rw [length_cons, length_cons, length_map] at hlt
  have := rootSize_ge files
  rw [mem_range]
  change k < nslots (rootBytes files).length
  rw [length_rootBytes]
  unfold nslots
  simp only [direntSize]
  omega

theorem target_ne_zero (k : Nat) : target k ≠ 0 := by
  unfold target
  split
  · decide
  · omega

variable (hroom : files.length + 1 < 208) (hnames : ∀ name ∈ rootNames files, ShortName name)
include hroom hnames

theorem fits_root (hname : ShortName name) (k : Nat) :
    (fileOf .T_DIR (rootBytes files)).fits name k ↔ (rootNames files)[k]? = some name := by
  unfold FileData.fits
  rw [Bool.and_eq_true, bne_iff_ne]
  cases hk : (rootNames files)[k]? with
  | none =>
    have hlen : files.length + 2 ≤ k := by
      have := List.getElem?_eq_none_iff.mp hk
      unfold rootNames at this
      rw [length_cons, length_cons, length_map] at this
      exact this
    refine ⟨fun hc => absurd (entry_beyond hlen) hc.1, fun hc => by cases hc⟩
  | some name' =>
    rw [entry_root hroom hk]
    have hshort := hnames name' (List.mem_of_getElem? hk)
    rw [namecmp_padded hname hshort]
    exact ⟨fun hc => by rw [hc.2], fun hc => ⟨target_ne_zero k, (some.inj hc).symm⟩⟩

theorem find_root (hname : ShortName name) :
    (fileOf .T_DIR (rootBytes files)).find name = some k ↔
      (rootNames files)[k]? = some name ∧ ∀ j < k, (rootNames files)[j]? ≠ some name := by
  unfold FileData.find
  rw [find?_range_eq_some, fits_root hroom hnames hname]
  have hfirst : ∀ j, (!(fileOf .T_DIR (rootBytes files)).fits name j) ↔ (rootNames files)[j]? ≠ some name := by
    intro j
    rw [Ne, ← fits_root hroom hnames hname, Bool.not_eq_true', Bool.not_eq_true]
  simp only [hfirst]
  exact ⟨fun h => ⟨h.1, h.2.2⟩, fun h => ⟨h.1, slot_of_rootNames h.1, h.2⟩⟩

theorem find_root_mem (hmem : name ∈ rootNames files) :
    ∃ k, (fileOf .T_DIR (rootBytes files)).find name = some k := by
  obtain ⟨j, hj⟩ := mem_iff_getElem?.mp hmem
  cases hfind : (fileOf .T_DIR (rootBytes files)).find name with
  | some k => exact ⟨k, rfl⟩
  | none =>
    have hno := find?_eq_none.mp hfind j (slot_of_rootNames hj)
    exact absurd ((fits_root hroom hnames (hnames name hmem) j).mpr hj) hno

end Mkfs

namespace Vol

variable {v : Vol} {E : VolStop → Prop} {ip inum k : Nat}

theorem wp_iget_free (hk : k < NINODE) (h0 : (v.inode k).ref = 0)
    (hbefore : ∀ j < k, (v.inode j).ref ≠ 0) (hno : ∀ j, 0 < (v.inode j).ref → (v.inode j).inum ≠ inum)
    (hQ : Q k (v.setInode k ((v.inode k).recycle inum))) : wp (iget inum) Q E v := by
  have hf : ((range NINODE).find? fun i => decide (0 < (v.inode i).ref ∧ (v.inode i).inum = inum)) = none :=
    find?_eq_none.mpr fun j _ hj => hno j (of_decide_eq_true hj).1 (of_decide_eq_true hj).2
  have hf' : ((range NINODE).find? fun i => decide ((v.inode i).ref = 0)) = some k :=
    find?_range_eq_some.mpr ⟨decide_eq_true h0, mem_range.mpr hk, fun j hj => by
      rw [decide_eq_false (hbefore j hj)]
      rfl⟩
  unfold iget
  rw [wp_read, hf]
  rw [hf']
  rw [wp_bind, wp_set, wp_pure]
  exact hQ

theorem wp_iget_held (hk : k < NINODE) (hr : 0 < (v.inode k).ref) (hi : (v.inode k).inum = inum)
    (hbefore : ∀ j < k, (v.inode j).inum ≠ inum) (hQ : Q k (v.setInode k ((v.inode k).withRef ((v.inode k).ref + 1)))) :
    wp (iget inum) Q E v := by
  have hf : ((range NINODE).find? fun i => decide (0 < (v.inode i).ref ∧ (v.inode i).inum = inum)) = some k :=
    find?_range_eq_some.mpr ⟨decide_eq_true ⟨hr, hi⟩, mem_range.mpr hk, fun j hj => by
      rw [decide_eq_false fun hc => hbefore j hj hc.2]
      rfl⟩
  unfold iget
  rw [wp_read, hf]
  rw [wp_bind, wp_set, wp_pure]
  exact hQ

structure Ready (v : Vol) (ip i : Nat) : Prop where
  inum : (v.inode ip).inum = i
  ref : 0 < (v.inode ip).ref
  lock : (v.inode ip).lock = false
  valid : (v.inode ip).valid = true → (v.inode ip).copy = v.disk.dinode i

theorem wp_ilock_ready (h : Ready v ip i) (ht : (v.disk.dinode i).type ≠ .T_NONE)
    (hQ : Q () (v.setInode ip ⟨i, (v.inode ip).ref, true, true, v.disk.dinode i⟩)) : wp (ilock ip) Q E v := by
  have href := h.ref
  unfold ilock
  rw [wp_read]
  rw [if_neg (by omega), h.lock, if_neg Bool.false_ne_true]
  refine wp_ite (fun hv => ?_) fun _ => ?_
  · have hx : (v.inode ip).withLock true = ⟨i, (v.inode ip).ref, true, true, v.disk.dinode i⟩ := by
      rw [VInode.withLock, h.inum, hv, h.valid hv]
    rw [wp_set, hx]
    exact hQ
  · rw [wp_bind, wp_set, h.inum, if_neg ht, wp_pure]
    have hx : (((v.inode ip).withLock true).withCopy (v.disk.dinode i)).withValid true =
        ⟨i, (v.inode ip).ref, true, true, v.disk.dinode i⟩ := by
      rw [VInode.withValid, VInode.withCopy, VInode.withLock, h.inum]
    rw [hx]
    exact hQ

theorem wp_iunlockput_keep (hl : (v.inode ip).lock) (hr : 0 < (v.inode ip).ref)
    (hkeep : (v.inode ip).copy.nlink ≠ 0)
    (hQ : Q () (v.setInode ip (((v.inode ip).withLock false).withRef ((v.inode ip).ref - 1)))) :
    wp (iunlockput ip) Q E v := by
  have hset : ∀ a b, (v.setInode ip a).setInode ip b = v.setInode ip b := fun a b => by
    unfold setInode
    rw [Function.update_idem]
  have hlocked : ¬ ((v.inode ip).lock = false ∨ (v.inode ip).ref < 1) := by
    rintro (hc | hc)
    · exact absurd (hl.symm.trans hc) (by decide)
    · omega
  unfold iunlockput iunlock
  rw [wp_bind, wp_bind, wp_get]
  rw [if_neg hlocked, wp_set]
  unfold iput
  rw [wp_read]
  rw [if_neg (by rw [setInode_inode]; exact fun hc => hkeep hc.2.2), wp_modify, setInode_inode]
  change Q () ((v.setInode ip ((v.inode ip).withLock false)).setInode ip
    (((v.inode ip).withLock false).withRef ((v.inode ip).ref - 1)))
  rw [hset]
  exact hQ

end Vol

namespace Mkfs

/-! ## A name of the root directory -/

theorem skipelem_name {name : List UInt8} (hslash : 47 ∉ name) (hlen : name.length ≤ DIRSIZ) :
    skipelem (47 :: name) = if name = [] then none else some (name, []) := by
  have hne : ∀ b ∈ name, (b != 47) := fun b hb => bne_iff_ne.mpr fun h => hslash (h ▸ hb)
  have htake : name.takeWhile (· != 47) = name := takeWhile_eq_self_iff.mpr hne
  have hdrop : name.dropWhile (· != 47) = [] := dropWhile_eq_nil_iff.mpr hne
  cases name with
  | nil => rfl
  | cons b name =>
    have hb : (b == 47) = false := by
      have := hne b mem_cons_self
      rwa [bne, Bool.not_eq_true'] at this
    have hskip : (47 :: b :: name).dropWhile (· == 47) = b :: name := by
      rw [dropWhile_cons_of_pos (by rfl), dropWhile_cons_of_neg (by rw [hb]; exact Bool.false_ne_true)]
    unfold skipelem
    rw [hskip]
    dsimp only
    rw [htake, hdrop, take_of_length_le hlen]
    rfl

theorem wp_namexLoop_nil {fuel ip : Nat}
    (hQ : Q (some (ip, [])) v) : wp (namexLoop false fuel ip []) Q E v := by
  cases fuel with
  | zero | succ fuel => exact wp_ret hQ

section
variable {v : Vol} {E : VolStop → Prop} {bs : List UInt8}
  (hfree : ∀ j, v.inode j = ⟨0, 0, false, false, .zero⟩) (hsb : SuperOk v.sb) (hD : DiskOk v.sb v.disk)
  (hroot : v.disk.contents ROOTINO = fileOf .T_DIR bs)
include hfree hsb hD hroot

theorem wp_namei_root {name : List UInt8} (hslash : 47 ∉ name) (hlen : name.length ≤ DIRSIZ)
    (hsize : bs.length % direntSize = 0)
    (hnil : name = [] → ∀ ip v', v'.disk = v.disk → v'.sb = v.sb → Ready v' ip ROOTINO → Q (some ip) v')
    (hnone : name ≠ [] → (fileOf .T_DIR bs).find name = none → ∀ v', Q none v')
    (hsome : ∀ k ip v', name ≠ [] → (fileOf .T_DIR bs).find name = some k → v'.disk = v.disk → v'.sb = v.sb →
      Ready v' ip ((fileOf .T_DIR bs).entry k).inum → Q (some ip) v') : wp (namei 0 (47 :: name)) Q E v := by
  have hdir : IType.T_DIR ≠ .T_NONE := by decide
  obtain ⟨htype, hsz⟩ := type_of_contents hroot hdir
  have ht : (v.disk.dinode ROOTINO).type ≠ .T_NONE := by rw [htype]; exact hdir
  have hnl : (v.disk.dinode ROOTINO).nlink ≠ 0 := by
    rw [← contents_nlink ht, hroot]
    exact Int.one_ne_zero
  unfold namei namex namexStart
  rw [wp_bind, wp_bind, if_pos head?_cons]
  refine wp_iget_free (k := 0) (by decide) (by rw [hfree]) (fun j hj => absurd hj (Nat.not_lt_zero j))
    (fun j hj => by rw [hfree] at hj; exact absurd hj (lt_irrefl 0)) ?_
  obtain ⟨v1, hv1⟩ : ∃ v1, v1 = v.setInode 0 ((v.inode 0).recycle ROOTINO) := ⟨_, rfl⟩
  have hready : Ready v1 0 ROOTINO := by
    rw [hv1]
    constructor <;> rw [setInode_inode, hfree]
    · rfl
    · exact Nat.one_pos
    · rfl
    · exact fun hc => absurd hc Bool.false_ne_true
  rw [← hv1, length_cons]
  unfold namexLoop
  rw [skipelem_name hslash hlen]
  by_cases hname : name = []
  · rw [if_pos hname]
    unfold namexEnd
    rw [if_neg Bool.false_ne_true, wp_pure, wp_pure]
    exact hnil hname 0 v1 (by rw [hv1]; rfl) (by rw [hv1]; rfl) hready
  rw [if_neg hname]
  refine wp_seq (wp_ilock_ready hready (by rw [hv1]; exact ht) ?_)
  obtain ⟨v2, hv2⟩ : ∃ v2, v2 = v1.setInode 0 ⟨ROOTINO, (v1.inode 0).ref, true, true, v1.disk.dinode ROOTINO⟩ := ⟨_, rfl⟩
  have hdisk2 : v2.disk = v.disk := by rw [hv2, hv1]; rfl
  have hsb2 : v2.sb = v.sb := by rw [hv2, hv1]; rfl
  have hin2 : v2.inode 0 = ⟨ROOTINO, 1, true, true, v.disk.dinode ROOTINO⟩ := by
    rw [hv2, setInode_inode, hv1, setInode_inode]
    rfl
  have hrest2 : ∀ j, j ≠ 0 → v2.inode j = ⟨0, 0, false, false, .zero⟩ := fun j hj => by
    rw [hv2, setInode_inode_ne hj, hv1, setInode_inode_ne hj, hfree]
  have hcont : v2.disk.contents (v2.inode 0).inum = fileOf .T_DIR bs := by rw [hdisk2, hin2, hroot]
  rw [← hv2, wp_bind, wp_get, if_neg (by rw [hin2]; exact fun hc => hc htype),
    if_neg fun hc => Bool.false_ne_true hc.1, wp_bind]
  refine wp_lookup (by rw [hsb2]; exact hsb) (by rw [hsb2, hdisk2]; exact hD) (by rw [Vol.Synced, hdisk2, hin2])
    (by rw [hdisk2, hin2]; exact ht) ?_ ?_ ?_ ?_ <;> rw [hcont]
  · exact fun hc => absurd rfl hc
  · exact fun hc => absurd hsize hc
  · intro _ hfind
    refine wp_seq (wp_iunlockput_keep (by rw [hin2]) (by rw [hin2]; exact Nat.one_pos) (by rw [hin2]; exact hnl) ?_)
    rw [wp_pure, wp_pure]
    exact hnone hname hfind _
  · intro k _ hfind
    by_cases hone : ((fileOf .T_DIR bs).entry k).inum = ROOTINO
    · refine wp_iget_held (k := 0) (by decide) (by rw [hin2]; exact Nat.one_pos) (by rw [hin2, hone])
        (fun j hj => absurd hj (Nat.not_lt_zero j)) ?_
      obtain ⟨v3, hv3⟩ : ∃ v3, v3 = v2.setInode 0 ((v2.inode 0).withRef ((v2.inode 0).ref + 1)) := ⟨_, rfl⟩
      have hin3 : v3.inode 0 = ⟨ROOTINO, 2, true, true, v.disk.dinode ROOTINO⟩ := by
        rw [hv3, setInode_inode, hin2]
        rfl
      rw [← hv3]
      rw [wp_bind]
      refine wp_iunlockput_keep (by rw [hin3]) (by rw [hin3]; exact Nat.two_pos) (by rw [hin3]; exact hnl)
        (wp_namexLoop_nil ?_)
      rw [wp_pure]
      refine hsome k 0 _ hname hfind (by rw [hv3]; exact hdisk2) (by rw [hv3]; exact hsb2) ?_
      rw [hone]
      constructor <;> rw [setInode_inode, hin3]
      · rfl
      · exact Nat.one_pos
      · rfl
      · intro _
        rw [hv3]
        exact congrArg (fun D => D.dinode ROOTINO) hdisk2.symm
    · have hne : (1 : Nat) ≠ 0 := by decide
      refine wp_iget_free (k := 1) (by decide) (by rw [hrest2 1 hne]) (fun j hj => ?_) (fun j hj => ?_) ?_
      · have h0 : j = 0 := by omega
        rw [h0, hin2]
        exact hne
      · by_cases h0 : j = 0
        · rw [h0, hin2]
          exact fun hc => hone hc.symm
        · rw [hrest2 j h0] at hj
          exact absurd hj (lt_irrefl 0)
      · obtain ⟨v3, hv3⟩ : ∃ v3, v3 = v2.setInode 1 ((v2.inode 1).recycle ((fileOf .T_DIR bs).entry k).inum) := ⟨_, rfl⟩
        have hin3 : v3.inode 0 = ⟨ROOTINO, 1, true, true, v.disk.dinode ROOTINO⟩ := by
          rw [hv3, setInode_inode_ne hne.symm, hin2]
        rw [← hv3]
        rw [wp_bind]
        refine wp_iunlockput_keep (by rw [hin3]) (by rw [hin3]; exact Nat.one_pos) (by rw [hin3]; exact hnl)
          (wp_namexLoop_nil ?_)
        rw [wp_pure]
        refine hsome k 1 _ hname hfind (by rw [hv3]; exact hdisk2) (by rw [hv3]; exact hsb2) ?_
        constructor <;> rw [setInode_inode_ne hne, hv3, setInode_inode, hrest2 1 hne]
        · rfl
        · exact Nat.one_pos
        · rfl
        · exact fun hc => absurd hc Bool.false_ne_true

omit hfree hsb hD hroot in
theorem readResult_fileOf (hc : D.contents i = fileOf t bs) (ht : t ≠ .T_NONE) :
    readResult D i 0 bs.length = ((bs.length : Int), bs) := by
  obtain ⟨htype, hsz⟩ := type_of_contents hc ht
  have ht' : (D.dinode i).type ≠ .T_NONE := by rw [htype]; exact ht
  have hsize : (D.dinode i).size = bs.length := hsz
  have hin : ¬ (bs.length < 0 ∨ addWraps 0 bs.length) := by
    rw [addWraps, decide_eq_true_eq]
    omega
  have hbytes : ((range bs.length).map fun k => D.byteAt i (0 + k)) = bs := by
    refine ext_getElem? fun k => ?_
    rw [getElem?_map]
    rcases Nat.lt_or_ge k bs.length with hk | hk
    · rw [getElem?_range hk, map_some, Nat.zero_add, ← contents_bytes ht' (by rw [hsize]; exact hk), hc]
      change some (bs.getD k 0) = bs[k]?
      rw [getD_eq_getElem?_getD, getElem?_eq_getElem hk]
      rfl
    · rw [getElem?_eq_none (by rw [length_range]; exact hk), getElem?_eq_none hk]
      rfl
  unfold readResult
  dsimp only
  rw [hsize, if_neg hin, if_neg (by omega), hbytes]

def Leads (bs name : List UInt8) (i : Nat) : Prop :=
  (name = [] ∧ i = ROOTINO) ∨ ∃ k, name ≠ [] ∧ (fileOf .T_DIR bs).find name = some k ∧ i = ((fileOf .T_DIR bs).entry k).inum

theorem readName_ok {name bs' : List UInt8} (hlog : v.log = ⟨0, false, []⟩) (hslash : 47 ∉ name)
    (hlen : name.length ≤ DIRSIZ)
    (hsize : bs.length % direntSize = 0) (hl : Leads bs name i) (hc : v.disk.contents i = fileOf t bs') (ht : t ≠ .T_NONE) :
    ∃ v', readName name v = .ok (some ((bs'.length : Int), bs'), v') := by
  obtain ⟨htype, hsz⟩ := type_of_contents hc ht
  have ht' : (v.disk.dinode i).type ≠ .T_NONE := by rw [htype]; exact ht
  have hopen : ∀ ip v', v'.disk = v.disk → v'.sb = v.sb → Ready v' ip i →
      wp (do
        Vol.ilock ip
        let v ← get
        let r ← Vol.readi (fun _ => false) ip 0 (v.inode ip).copy.size
        return some r) (fun r _ => r = some ((bs'.length : Int), bs')) (fun _ => False) v' := by
    intro ip v' hdisk hsb' hr
    refine wp_seq (wp_ilock_ready hr (by rw [hdisk]; exact ht') ?_)
    obtain ⟨v2, hv2⟩ : ∃ v2, v2 = v'.setInode ip ⟨i, (v'.inode ip).ref, true, true, v'.disk.dinode i⟩ := ⟨_, rfl⟩
    have hin : v2.inode ip = ⟨i, (v'.inode ip).ref, true, true, v.disk.dinode i⟩ := by
      rw [hv2, setInode_inode, hdisk]
    have hdisk2 : v2.disk = v.disk := by rw [hv2]; exact hdisk
    have hsb2 : v2.sb = v.sb := by rw [hv2]; exact hsb'
    rw [← hv2, wp_bind, wp_get, wp_bind]
    refine Vol.wp_readi (by rw [hsb2]; exact hsb) (by rw [hsb2, hdisk2]; exact hD) (by rw [Vol.Synced, hin, hdisk2])
      (by rw [hdisk2, hin]; exact ht') (fun hf => ?_) (wp_ret ?_)
    · obtain ⟨_, hf⟩ := hf
      cases hf
    · have hsz' : (v.disk.dinode i).size = bs'.length := hsz
      rw [hdisk2, hin]
      rw [hsz', readResult_fileOf hc ht]
  have hwp : wp (readName name) (fun r _ => r = some ((bs'.length : Int), bs')) (fun _ => False) v := by
    refine wp_seq (Vol.wp_begin_op hlog ?_)
    rw [wp_bind]
    refine wp_namei_root (v := { v with log := ⟨1, false, []⟩ }) hfree hsb hD hroot hslash hlen hsize
      (fun hn ip v' hdisk hsb' hr => ?_) (fun hn hfind => ?_) fun k ip v' hn hfind hdisk hsb' hr => ?_
    · rcases hl with ⟨_, hi⟩ | ⟨_, hne, _, _⟩
      · exact hopen ip v' hdisk hsb' (hi ▸ hr)
      · exact absurd hn hne
    · rcases hl with ⟨hnil, _⟩ | ⟨k, _, hk, _⟩
      · exact absurd hnil hn
      · rw [hk] at hfind
        cases hfind
    · rcases hl with ⟨hnil, _⟩ | ⟨k', _, hk, hi⟩
      · exact absurd hnil hn
      · rw [hk] at hfind
        cases hfind
        exact hopen ip v' hdisk hsb' (hi ▸ hr)
  obtain ⟨r, v', hok, hr⟩ := wp_total hwp
  exact ⟨v', by rw [hok, hr]⟩

end

section
variable {files : List InFile} {s₁ s : Mkfs} (h : Finished files s₁ s)
include h

theorem Finished.root_type : (s₁.view.dinode ROOTINO).type ≠ .T_NONE := by
  rw [h.built.root.1]
  decide

theorem Finished.own : s.disk.own = s₁.view.own := by
  rw [h.disk]
  exact own_setInode h.root_type h.root_type rfl

theorem Finished.dinode (hi : i ≠ ROOTINO) : s.disk.dinode i = s₁.view.dinode i := by
  rw [h.disk, Disk.setInode_ne hi]

theorem Finished.root : s.disk.dinode ROOTINO = (s₁.view.dinode ROOTINO).withSize (rootSize files) := by
  rw [h.disk, Disk.setInode_self]

theorem Finished.diskOk_iff : DiskOk vsb s.disk ↔ (files.length + 2) % 64 ≠ 0 := by
  obtain ⟨htype, hsize⟩ := h.built.root
  have hb := h.built.ok.sized ROOTINO h.root_type
  have hle := hb.size_le
  have hsz : (s.disk.dinode ROOTINO).size = rootSize files := by rw [h.root]; rfl
  refine ⟨fun hok hfull => ?_, fun hpart => ⟨?_, fun i hi => ?_⟩⟩
  · have ht : (s.disk.dinode ROOTINO).type ≠ .T_NONE := by rw [h.root]; exact h.root_type
    obtain ⟨bn, hbn⟩ : ∃ bn, 16 * (files.length + 2) = bn * BSIZE := ⟨(files.length + 2) / 64, by lia⟩
    have hmap := (hok.sized ROOTINO ht).mapped bn (by rw [hsz, ← hbn]; exact rootSize_ge files)
    rw [h.own] at hmap
    exact hmap (h.built.tight ROOTINO bn (by rw [hsize, hbn]))
  · rw [h.disk]
    exact h.built.ok.owned.setInode h.root_type h.root_type rfl
  · by_cases hone : i = ROOTINO
    · subst hone
      refine ⟨?_, fun bn hbn => ?_⟩
      · rw [hsz, rootSize]
        lia
      · rw [hsz, rootSize] at hbn
        rw [h.own]
        refine hb.mapped bn ?_
        lia
    · rw [h.dinode hone] at hi
      have hbi := h.built.ok.sized i hi
      refine ⟨by rw [h.dinode hone]; exact hbi.size_le, fun bn hbn => ?_⟩
      rw [h.dinode hone] at hbn
      rw [h.own]
      exact hbi.mapped bn hbn

theorem Finished.contents_file (hi : i ≠ ROOTINO) : s.disk.contents i = tree files i := by
  rw [h.disk, contents_setInode_ne (d := (s₁.view.dinode ROOTINO).withSize (rootSize files)) h.root_type h.root_type rfl hi,
    h.built.contents]

theorem Finished.contents_root : s.disk.contents ROOTINO = fileOf .T_DIR (rootBytes files) := by
  obtain ⟨htype, hsize⟩ := h.built.root
  have hc := congrFun h.built.contents ROOTINO
  rw [tree_root] at hc
  have hold : s₁.view.contents ROOTINO = ⟨(s₁.view.dinode ROOTINO).type, (s₁.view.dinode ROOTINO).major,
    (s₁.view.dinode ROOTINO).minor, (s₁.view.dinode ROOTINO).nlink, (s₁.view.dinode ROOTINO).size,
    fun k => if k < (s₁.view.dinode ROOTINO).size then s₁.view.byteAt ROOTINO k else 0⟩ := if_neg h.root_type
  rw [hold] at hc
  unfold fileOf at hc
  rw [FileData.mk.injEq] at hc
  obtain ⟨h1, h2, h3, h4, _, h6⟩ := hc
  rw [h.disk, contents_setInode (d := (s₁.view.dinode ROOTINO).withSize (rootSize files)) h.root_type h.root_type rfl]
  change (⟨(s₁.view.dinode ROOTINO).type, (s₁.view.dinode ROOTINO).major, (s₁.view.dinode ROOTINO).minor,
    (s₁.view.dinode ROOTINO).nlink, rootSize files, fun k => if k < rootSize files then s₁.view.byteAt ROOTINO k else 0⟩ :
      FileData) = _
  unfold fileOf
  rw [h1, h2, h3, h4, length_rootBytes, FileData.mk.injEq]
  refine ⟨rfl, rfl, rfl, rfl, rfl, ?_⟩
  funext k
  rw [getD_rootBytes, ← congrFun h6 k, hsize]
  have hlt := rootSize_ge files
  rcases lt_or_ge k (16 * (files.length + 2)) with hk | hk
  · rw [if_pos (by omega), if_pos hk]
  · rw [if_neg (not_lt.mpr hk)]
    split
    · exact h.built.tail ROOTINO k (by rw [hsize]; exact hk)
    · rfl

end

/-! ## mkfs writes what the kernel reads -/

/-- The super block is read back, every inode is in a block of inodes, the kernel's disk is in order, and every name leads to
the bytes of its file. -/
structure WellFormed (files : List InFile) (s : Mkfs) : Prop where
  super : s.super = sb
  inodes : ∀ i, 0 < i → i < s.freeinode → i / IPB + sb.inodestart < sb.bmapstart
  disk : DiskOk s.boot.sb s.disk
  reads : ∀ f ∈ files, ∃ v, readName f.name s.boot = .ok (some ((f.bytes.length : Int), f.bytes), v)

def RootName (name : List UInt8) : Prop := name = [] ∨ name = dot ∨ name = dotdot

/-- The root directory does not end with a block, there is room for the inodes, and a name that is there twice, or that
leads to the root directory, has the same bytes each time. -/
structure Sane (files : List InFile) : Prop where
  part : (files.length + 2) % 64 ≠ 0
  room : files.length + 1 < 208
  twice : ∀ f ∈ files, ∀ g ∈ files, f.name = g.name → f.bytes = g.bytes
  root : ∀ f ∈ files, RootName f.name → f.bytes = rootBytes files

section
variable {files : List InFile} {s₁ s : Mkfs}

theorem mem_of_name (hb : b ∈ f.name) : b ∈ f.shortname := by
  unfold InFile.name at hb
  split at hb
  · exact mem_of_mem_tail hb
  · exact hb

theorem zero_of_name (f : InFile) : 0 ∉ f.name := by
  intro hb
  have hs := mem_of_name hb
  unfold InFile.shortname at hs
  split at hs
  · exact f.string (mem_of_mem_drop hs)
  · exact f.string hs

theorem Accepted.shortName (h : Accepted f) : ShortName f.name := ⟨zero_of_name f, h.2⟩

theorem rootNames_short (h : ∀ f ∈ files, Accepted f) : ∀ name ∈ rootNames files, ShortName name := by
  intro name hname
  rcases mem_cons.mp hname with rfl | hname
  · exact ⟨by decide, by decide⟩
  · rcases mem_cons.mp hname with rfl | hname
    · exact ⟨by decide, by decide⟩
    · obtain ⟨f, hf, rfl⟩ := mem_map.mp hname
      exact (h f hf).shortName

theorem leads_name (hroom : files.length + 1 < 208) (hacc : ∀ f ∈ files, Accepted f) (hf : f ∈ files) :
    (RootName f.name ∧ Leads (rootBytes files) f.name ROOTINO) ∨
      ¬ RootName f.name ∧ ∃ k g, files[k]? = some g ∧ g.name = f.name ∧ Leads (rootBytes files) f.name (k + 2) := by
  have hnames := rootNames_short hacc
  by_cases hnil : f.name = []
  · exact .inl ⟨.inl hnil, .inl ⟨hnil, rfl⟩⟩
  have hmem : f.name ∈ rootNames files := mem_cons_of_mem _ (mem_cons_of_mem _ (mem_map_of_mem hf))
  obtain ⟨k, hk⟩ := find_root_mem hroom hnames hmem
  obtain ⟨hname, hfirst⟩ := (find_root hroom hnames (hnames _ hmem)).mp hk
  have hinum : ((fileOf .T_DIR (rootBytes files)).entry k).inum = target k := by rw [entry_root hroom hname]
  match k with
  | 0 => exact .inl ⟨.inr (.inl (some.inj hname).symm), .inr ⟨0, hnil, hk, hinum.symm⟩⟩
  | 1 => exact .inl ⟨.inr (.inr (some.inj hname).symm), .inr ⟨1, hnil, hk, hinum.symm⟩⟩
  | k + 2 =>
    have hname : (files.map InFile.name)[k]? = some f.name := hname
    rw [getElem?_map] at hname
    obtain ⟨g, hg, hgn⟩ := map_eq_some_iff.mp hname
    have htarget : target (k + 2) = k + 2 := if_neg (by omega)
    refine .inr ⟨?_, k, g, hg, hgn, .inr ⟨k + 2, hnil, hk, by rw [hinum, htarget]⟩⟩
    rintro (hc | hc | hc)
    · exact hnil hc
    · exact hfirst 0 (by omega) (congrArg some hc.symm)
    · exact hfirst 1 (by omega) (congrArg some hc.symm)

theorem Finished.boot_sb (h : Finished files s₁ s) : s.boot.sb = vsb := by
  change (⟨s.super.size, s.super.inodestart, s.super.bmapstart, s.super.nmeta⟩ : Super) = vsb
  rw [h.super]
  rfl

theorem Finished.read (h : Finished files s₁ s) (hpart : (files.length + 2) % 64 ≠ 0) (hf : Accepted f)
    {bs : List UInt8} (hl : Leads (rootBytes files) f.name i) (hc : s.disk.contents i = fileOf t bs) (ht : t ≠ .T_NONE) :
    ∃ v, readName f.name s.boot = .ok (some ((bs.length : Int), bs), v) := by
  have hsb := h.boot_sb
  refine readName_ok (v := s.boot) (fun _ => rfl) ⟨by rw [hsb]; decide⟩ ?_ h.contents_root rfl
    (fun hc => hf.1 (mem_of_name hc)) hf.2 ?_ hl hc ht
  · rw [hsb]
    exact h.diskOk_iff.mpr hpart
  · rw [length_rootBytes]
    unfold rootSize
    simp only [direntSize]
    lia

end

theorem read_inj {x : Prog Vol VolStop (Option (Int × List UInt8))} {v v1 v2 : Vol} {n m : Int} {bs bs' : List UInt8}
    (h : x v = .ok (some (n, bs), v1)) (h' : x v = .ok (some (m, bs'), v2)) : bs = bs' := by
  rw [h] at h'
  cases h'
  rfl

/-- The image is well formed for the kernel exactly if the files are `Sane`. -/
theorem mkfs_sound (files : List InFile) (s : Mkfs) (hok : main files start = .ok ((), s)) :
    WellFormed files s ↔ Sane files := by
  obtain ⟨hacc, hfree⟩ := main_frame hok
  have hfile : IType.T_FILE ≠ .T_NONE := by decide
  have hdir : IType.T_DIR ≠ .T_NONE := by decide
  constructor
  · intro hw
    have hroom : files.length + 1 < 208 := by
      have := hw.inodes (files.length + 1) (Nat.succ_pos _) (by rw [hfree]; exact Nat.lt_succ_self _)
      change (files.length + 1) / 16 + 33 < 46 at this
      omega
    obtain ⟨s₁, h⟩ := main_finished hroom hok
    have hpart := h.diskOk_iff.mp (h.boot_sb ▸ hw.disk)
    refine ⟨hpart, hroom, fun f hf g hg hname => ?_, fun f hf hname => ?_⟩
    · obtain ⟨v, hv⟩ := hw.reads f hf
      obtain ⟨v', hv'⟩ := hw.reads g hg
      rw [hname] at hv
      exact read_inj hv hv'
    · have hl : Leads (rootBytes files) f.name ROOTINO := by
        rcases leads_name hroom hacc hf with ⟨_, hl⟩ | ⟨hno, _⟩
        · exact hl
        · exact absurd hname hno
      obtain ⟨v, hv⟩ := hw.reads f hf
      obtain ⟨v', hv'⟩ := h.read hpart (hacc f hf) hl h.contents_root hdir
      exact read_inj hv hv'
  · intro hs
    obtain ⟨s₁, h⟩ := main_finished hs.room hok
    refine ⟨h.super, fun i _ hi => ?_, ?_, fun f hf => ?_⟩
    · have := hs.room
      change i / 16 + 33 < 46
      omega
    · rw [h.boot_sb]
      exact h.diskOk_iff.mpr hs.part
    · rcases leads_name hs.room hacc hf with ⟨hname, hl⟩ | ⟨_, k, g, hg, hgn, hl⟩
      · rw [hs.root f hf hname]
        exact h.read hs.part (hacc f hf) hl h.contents_root hdir
      · rw [hs.twice f hf g (List.mem_of_getElem? hg) hgn.symm]
        refine h.read hs.part (hacc f hf) hl ?_ hfile
        rw [h.contents_file (by lia), tree_file _ (Nat.le_add_left ..), Nat.add_sub_cancel, hg]

def oneFile : InFile := ⟨[97], [[1, 2, 3]], by decide, by decide⟩

theorem mkfs_sound_one : ∃ s, main [oneFile] start = .ok ((), s) ∧ WellFormed [oneFile] s := by
  have hone : ∀ f ∈ [oneFile], f = oneFile := fun f hf => mem_singleton.mp hf
  have hfit : Fits (nmeta + 8) [oneFile] := by
    refine ⟨fun f hf => ?_, fun f hf => ?_, by decide⟩
    · rw [hone f hf]
      exact ⟨by decide, by decide⟩
    · rw [hone f hf]
      decide
  obtain ⟨s₁, s, hok, _⟩ := main_ok (by decide) hfit
  refine ⟨s, hok, (mkfs_sound [oneFile] s hok).mpr ⟨by decide, by decide, fun f hf g hg _ => ?_, fun f hf hroot => ?_⟩⟩
  · rw [hone f hf, hone g hg]
  · rw [hone f hf] at hroot
    rcases hroot with hc | hc | hc
    · exact absurd hc (by decide)
    · exact absurd hc (by decide)
    · exact absurd hc (by decide)

theorem letter_ne_zero : ∀ i : Fin 62, (0 : UInt8) ∉ [UInt8.ofNat (97 + i)] := by decide

def letterFile (i : Fin 62) : InFile := ⟨[UInt8.ofNat (97 + i)], [], letter_ne_zero i, fun _ hr => absurd hr not_mem_nil⟩

def letterFiles : List InFile := (finRange 62).map letterFile

/-- The 64 entries of the root directory fill its block, and the size is rounded up by another block, which it does not
have. -/
theorem mkfs_letterFiles : ∃ s, main letterFiles start = .ok ((), s) ∧ ¬ WellFormed letterFiles s := by
  have hletter : ∀ i : Fin 62, 47 ∉ (letterFile i).shortname ∧ (letterFile i).name.length ≤ DIRSIZ := by decide
  have hlen : letterFiles.length = 62 := by rw [letterFiles, length_map, length_finRange]
  have hfit : Fits (nmeta + 8) letterFiles := by
    refine ⟨fun f hf => ?_, fun f hf => ?_, by decide⟩
    · obtain ⟨i, _, rfl⟩ := mem_map.mp hf
      exact hletter i
    · obtain ⟨i, _, rfl⟩ := mem_map.mp hf
      exact Nat.zero_le _
  obtain ⟨s₁, s, hok, h⟩ := main_ok (by rw [hlen]; decide) hfit
  refine ⟨s, hok, fun hw => ?_⟩
  have hpart := h.diskOk_iff.mp (h.boot_sb ▸ hw.disk)
  exact hpart rfl

end Mkfs

end Xv6
