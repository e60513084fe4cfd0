import Xv6.MkfsSound

/-!
# The image

What `main` leaves when it does not stop: the root directory, with an entry
for every argument, the files with the bytes that were read, and a bitmap with
the blocks below `freeblock`. It stops only if a name is refused or there is
too little room.
-/

namespace Xv6

open Hoare Vol Owners Function List

variable {Q : Unit → Mkfs → Prop} {b : Nat}

theorem length_direntBytes (inum : Nat) (name : List UInt8) : (direntBytes inum name).length = 16 := by
  unfold direntBytes
  rw [length_map, length_range]

namespace Mkfs

def entries : Nat → List InFile → List UInt8
  | _, [] => []
  | n, f :: files => direntBytes n f.name ++ entries (n + 1) files

def rootEntries (files : List InFile) : List UInt8 :=
  direntBytes ROOTINO dot ++ direntBytes ROOTINO dotdot ++ entries 2 files

def tree (files : List InFile) (i : Nat) : FileData :=
  if i = 0 then .none
  else if i = ROOTINO then fileOf .T_DIR (rootEntries files)
  else match files[i - 2]? with
    | some f => fileOf .T_FILE f.bytes
    | none => .none

theorem length_entries : ∀ (n : Nat) (files : List InFile), (entries n files).length = 16 * files.length
  | _, [] => rfl
  | n, f :: files => by
    unfold entries
    rw [length_append, length_direntBytes, length_entries (n + 1) files, length_cons]
    omega

theorem length_rootEntries (files : List InFile) : (rootEntries files).length = 16 * (files.length + 2) := by
  unfold rootEntries
  rw [length_append, length_append, length_direntBytes, length_direntBytes, length_entries]
  omega

theorem entries_append (rest : List InFile) : ∀ (n : Nat) (files : List InFile),
    entries n (files ++ rest) = entries n files ++ entries (n + files.length) rest
  | _, [] => rfl
  | n, f :: files => by
    change direntBytes n f.name ++ entries (n + 1) (files ++ rest) =
      direntBytes n f.name ++ entries (n + 1) files ++ entries (n + (files.length + 1)) rest
    rw [entries_append rest (n + 1) files, append_assoc, Nat.add_right_comm, Nat.add_assoc]

theorem tree_root (files : List InFile) : tree files ROOTINO = fileOf .T_DIR (rootEntries files) := rfl

theorem tree_file (files : List InFile) (hi : 2 ≤ i) : tree files i = match files[i - 2]? with
    | some f => fileOf .T_FILE f.bytes
    | none => .none := by
  have h1 : i ≠ ROOTINO := by
    lia
  rw [tree, if_neg (by omega), if_neg h1]

theorem tree_snoc (files : List InFile) (f : InFile) :
    update (update (update (tree files) (files.length + 2) (fileOf .T_FILE [])) ROOTINO
        (fileOf .T_DIR (rootEntries files ++ direntBytes (files.length + 2) f.name)))
      (files.length + 2) (fileOf .T_FILE f.bytes) = tree (files ++ [f]) := by
  funext i
  by_cases hn : i = files.length + 2
  · rw [hn, update_self, tree_file _ (by omega), Nat.add_sub_cancel, getElem?_concat_length]
  · rw [update_of_ne hn]
    by_cases h1 : i = ROOTINO
    · rw [h1, update_self, tree_root]
      have hone : entries (2 + files.length) [f] = direntBytes (files.length + 2) f.name := by
        rw [entries, entries, append_nil, Nat.add_comm]
      unfold rootEntries
      rw [entries_append, hone, append_assoc, append_assoc]
    · rw [update_of_ne h1, update_of_ne hn]
      rcases Nat.lt_or_ge i 2 with hlt | hge
      · have h0 : i = 0 := by
          lia
        rw [h0]
        rfl
      · rw [tree_file _ hge, tree_file _ hge]
        rcases Nat.lt_or_ge (i - 2) files.length with hlt | hge'
        · rw [getElem?_append_left hlt]
        · rw [getElem?_eq_none hge', getElem?_eq_none (by rw [length_append, length_singleton]; omega)]

/-! ## Room for the files -/

def Accepted (f : InFile) : Prop := 47 ∉ f.shortname ∧ f.name.length ≤ DIRSIZ

/-- Every name is accepted, no file is too long, and there are enough blocks from `b` on. -/
structure Fits (b : Nat) (files : List InFile) : Prop where
  names : ∀ f ∈ files, Accepted f
  lengths : ∀ f ∈ files, f.bytes.length ≤ MAXFILE * BSIZE
  blocks : b + (files.map fun f => 4 * (1 + f.reads.length)).sum ≤ FSSIZE

theorem rounds_le (off : Nat) (hn : n ≤ BSIZE) : rounds off n ≤ 2 := by
  unfold rounds
  split
  · omega
  · lia

section
variable {s : Mkfs} {c : Nat → FileData} {E : MkStop → Prop} {i : Nat} {t : IType} {files : List InFile}

theorem wp_appendAll : ∀ {reads : List (List UInt8)} {s : Mkfs} {c : Nat → FileData} {bs : List UInt8}
    {Q : Unit → Mkfs → Prop}, Built s c → i < s.freeinode → c i = fileOf t bs → t ≠ .T_NONE →
    (∀ r ∈ reads, r.length ≤ BSIZE) →
    (FSSIZE < s.freeblock + 4 * reads.length → E .read) → (MAXFILE * BSIZE < (bs ++ reads.flatten).length → E .maxfile) →
    (∀ s', Built s' (update c i (fileOf t (bs ++ reads.flatten))) → s'.freeinode = s.freeinode →
      s'.freeblock ≤ s.freeblock + 4 * reads.length → Q () s') → wp (appendAll i reads) Q E s
  | [], s, c, bs, Q, h, _, hc, _, _, _, _, hQ => by
    refine wp_ret (hQ s ?_ rfl (Nat.le_add_right ..))
    rw [flatten_nil, append_nil, ← hc, update_eq_self]
    exact h
  | r :: reads, s, c, bs, Q, h, hi, hc, ht, hlen, hE, hmax, hQ => by
    have hr := rounds_le bs.length (hlen r mem_cons_self)
    rw [length_cons] at hE hQ
    rw [flatten_cons, ← append_assoc] at hmax hQ
    refine wp_seq (wp_iappend h hi hc ht (fun hfull => hE (by omega)) (fun hbig => hmax ?_) fun s1 h1 hfree hblocks => ?_)
    · rw [length_append, length_append]
      omega
    · refine wp_appendAll h1 (hfree ▸ hi) (update_self ..) ht (fun r hr => hlen r (mem_cons_of_mem _ hr))
        (fun hfull => hE (by omega)) hmax fun s2 h2 hfree2 hblocks2 => ?_
      rw [update_idem] at h2
      exact hQ s2 h2 (hfree2.trans hfree) (by omega)

theorem wp_addFile (h : Built s (tree files)) (hn : s.freeinode = files.length + 2)
    (hroom : files.length + 2 < 208) (hE : ¬ Fits s.freeblock [f] → ∀ e, E e)
    (hQ : ∀ s', Built s' (tree (files ++ [f])) → s'.freeinode = files.length + 3 →
      s'.freeblock ≤ s.freeblock + 4 * (1 + f.reads.length) → Q () s') : wp (addFile f) Q E s := by
  have hE' : FSSIZE < s.freeblock + 4 * (1 + f.reads.length) → E .read := by
    refine fun hfull => hE (fun hf => ?_) _
    have := hf.blocks
    rw [map_singleton, sum_singleton] at this
    omega
  refine wp_ite (fun hs => wp_fail (hE (fun hf => (hf.names f mem_cons_self).1 hs) _)) fun _ => ?_
  refine wp_ite (fun hl => wp_fail (hE (fun hf => ?_) _)) fun _ => ?_
  · exact absurd hl (not_lt.mpr (hf.names f mem_cons_self).2)
  refine wp_seq (wp_ialloc h (hn ▸ hroom) (by decide) fun s1 h1 hfree1 hblock1 => ?_)
  rw [hn] at h1 hfree1 ⊢
  have hroot : update (tree files) (files.length + 2) (fileOf .T_FILE []) ROOTINO =
      fileOf .T_DIR (rootEntries files) := by
    rw [update_of_ne (by lia), tree_root]
  have hlen := length_direntBytes (files.length + 2) f.name
  have hr := rounds_le (rootEntries files).length (n := 16) (by decide)
  refine wp_seq (wp_iappend h1 (by rw [hfree1]; lia) hroot (by decide) (fun hfull => hE' ?_)
    (fun hbig => ?_) fun s2 h2 hfree2 hblock2 => ?_)
  · rw [hlen] at hfull
    omega
  · rw [hlen, length_rootEntries] at hbig
    lia
  · rw [hlen] at hblock2
    have hfile : update (update (tree files) (files.length + 2) (fileOf .T_FILE [])) ROOTINO
        (fileOf .T_DIR (rootEntries files ++ direntBytes (files.length + 2) f.name)) (files.length + 2) =
          fileOf .T_FILE [] := by
      rw [update_of_ne (by lia), update_self]
    refine wp_appendAll h2 (by omega) hfile (by decide) (fun r hr => (f.chunks r hr).2) (fun hfull => hE' (by omega))
      (fun hbig => hE (fun hf => ?_) _) fun s3 h3 hfree3 hblock3 => ?_
    · exact absurd hbig (not_lt.mpr (hf.lengths f mem_cons_self))
    · rw [nil_append] at h3
      have htree := tree_snoc files f
      unfold InFile.bytes at htree
      rw [htree] at h3
      exact hQ s3 h3 (by omega) (by omega)

theorem Fits.head {rest : List InFile} (h : Fits b (f :: rest)) : Fits b [f] := by
  refine ⟨fun g hg => h.names g ?_, fun g hg => h.lengths g ?_, ?_⟩
  · exact mem_singleton.mp hg ▸ mem_cons_self
  · exact mem_singleton.mp hg ▸ mem_cons_self
  · have := h.blocks
    rw [map_cons, sum_cons] at this
    rw [map_singleton, sum_singleton]
    omega

theorem Fits.tail {rest : List InFile} (h : Fits b (f :: rest))
    (hb : b' ≤ b + 4 * (1 + f.reads.length)) : Fits b' rest := by
  refine ⟨fun g hg => h.names g (mem_cons_of_mem _ hg), fun g hg => h.lengths g (mem_cons_of_mem _ hg), ?_⟩
  have := h.blocks
  rw [map_cons, sum_cons] at this
  omega

theorem wp_addFiles : ∀ {rest files : List InFile} {s : Mkfs} {Q : Unit → Mkfs → Prop}, Built s (tree files) →
    s.freeinode = files.length + 2 → (files ++ rest).length + 1 < 208 → (¬ Fits s.freeblock rest → ∀ e, E e) →
    (∀ s', Built s' (tree (files ++ rest)) → s'.freeinode = (files ++ rest).length + 2 → Q () s') → wp (addFiles rest) Q E s
  | [], files, s, Q, h, hn, _, _, hQ => by
    rw [append_nil] at hQ
    exact wp_ret (hQ s h hn)
  | f :: rest, files, s, Q, h, hn, hroom, hE, hQ => by
    have happ : files ++ f :: rest = (files ++ [f]) ++ rest := by rw [append_assoc, singleton_append]
    rw [happ] at hroom hQ
    have hlen : (files ++ [f]).length = files.length + 1 := by rw [length_append, length_singleton]
    have hlen' : ((files ++ [f]) ++ rest).length = files.length + 1 + rest.length := by rw [length_append, hlen]
    refine wp_seq (wp_addFile h hn (by omega) (fun hf => hE fun hfit => hf hfit.head) fun s1 h1 hn1 hb1 => ?_)
    refine wp_addFiles h1 (by omega) hroom (fun hf => hE fun hfit => hf (hfit.tail hb1)) hQ

end

/-! ## The empty image -/

def blank : Mkfs := ⟨update (fun _ _ => 0) 1 sb.block, FSSIZE, 1, nmeta⟩

theorem blank_img (hb : b ≠ 1) : blank.img b = fun _ => 0 := by
  change update (fun _ _ => 0) 1 sb.block b = _
  rw [update_of_ne hb]

theorem blank_sound : Sound blank := by
  refine ⟨?_, rfl, le_rfl, by decide, fun b hb => blank_img ?_⟩
  · change SuperBlock.ofBlock (update (fun _ _ => 0) 1 sb.block 1) = sb
    decide
  · change 47 ≤ b at hb
    omega

theorem blank_inode (i : Nat) : (blank.view.dinode i).type = .T_NONE := by
  rw [view_dinode blank_sound]
  split
  · rw [blank_img (by lia)]
    rfl
  · rfl

theorem blank_built : Built blank fun _ => .none := by
  have hown : ∀ p, blank.view.own p = 0 := fun p => blank.view.own_none (blank_inode p.1) p.2
  have hused : ∀ b, blank.view.used b ↔ b < nmeta := fun b => decide_eq_true_iff
  refine ⟨blank_sound, Nat.one_pos, by decide, ⟨⟨⟨by decide, ?_, ?_, ?_, ?_, ?_⟩, ?_⟩, ?_⟩, ?_, ?_, ?_, ?_⟩
  · exact fun p q hp => absurd (hown p) hp
  · exact fun p hp => absurd (hown p) hp
  · exact fun p hp => absurd (hown p) hp
  · exact fun b hb => (hused b).mpr hb
  · exact fun b hb => .inl ((hused b).mp hb)
  · exact fun b hb => lt_trans ((hused b).mp hb) (by decide)
  · exact fun i hi => absurd (blank_inode i) hi
  · exact fun i _ => blank_inode i
  · exact fun i k _ => if_pos (hown _)
  · exact fun i bn _ => hown _
  · funext i
    exact if_pos (blank_inode i)

theorem wp_zero
    (hQ : Q () ⟨fun _ _ => 0, FSSIZE, 1, nmeta⟩) : wp (forN (fun i => wsect i fun _ => 0) FSSIZE) Q E start := by
  refine wp_post (wp_forN (fun k (s : Mkfs) => s = ⟨fun _ _ => 0, k, 1, nmeta⟩) rfl fun k s _ hk => ?_) fun _ s hs => ?_
  · refine wp_wsect ?_
    rw [hk]
    unfold Mkfs.put
    rw [update_eq_self, Nat.max_eq_right (Nat.le_succ k)]
  · rw [hs]
    exact hQ

theorem wp_prepare
    (hQ : ∀ s, Built s (tree []) → s.freeinode = 2 → s.freeblock ≤ nmeta + 8 → Q () s) : wp prepare Q E start := by
  have hr : ∀ off, rounds off 16 ≤ 2 := fun off => rounds_le off (by decide)
  have hd := length_direntBytes ROOTINO dot
  have hdd := length_direntBytes ROOTINO dotdot
  refine wp_seq (wp_zero ?_)
  refine wp_seq (wp_wsect ?_)
  refine wp_seq (wp_ialloc blank_built (by decide) (by decide) fun s1 h1 hn1 hb1 => ?_)
  have hn1' : s1.freeinode = 2 := hn1
  have hb1' : s1.freeblock = 47 := hb1
  refine wp_ite (fun _ => ?_) fun hne => absurd rfl hne
  rw [wp_bind]
  have h0 := hr ([] : List UInt8).length
  have h16 := hr (direntBytes ROOTINO dot).length
  refine wp_iappend h1 (by rw [hn1]; decide) (update_self ..) (by decide) (fun hfull => ?_) (fun hbig => ?_)
    fun s2 h2 hn2 hb2 => ?_
  · change FSSIZE < s1.freeblock + 2 * rounds ([] : List UInt8).length (direntBytes ROOTINO dot).length at hfull
    rw [hd, hb1'] at hfull
    lia
  · change MAXFILE * BSIZE < ([] : List UInt8).length + (direntBytes ROOTINO dot).length at hbig
    exact absurd hbig (by decide)
  · change s2.freeblock ≤ s1.freeblock + 2 * rounds ([] : List UInt8).length (direntBytes ROOTINO dot).length at hb2
    rw [hd] at hb2
    rw [update_idem, nil_append] at h2
    refine wp_iappend h2 (by rw [hn2, hn1]; decide) (update_self ..) (by decide) (fun hfull => ?_) (fun hbig => ?_)
      fun s3 h3 hn3 hb3 => ?_
    · change FSSIZE < s2.freeblock + 2 * rounds (direntBytes ROOTINO dot).length (direntBytes ROOTINO dotdot).length at hfull
      rw [hdd] at hfull
      lia
    · change MAXFILE * BSIZE < (direntBytes ROOTINO dot).length + (direntBytes ROOTINO dotdot).length at hbig
      exact absurd hbig (by decide)
    · change s3.freeblock ≤ s2.freeblock + 2 * rounds (direntBytes ROOTINO dot).length
        (direntBytes ROOTINO dotdot).length at hb3
      rw [hdd] at hb3
      rw [update_idem] at h3
      refine hQ s3 ?_ (by omega) (by have hmeta : nmeta = 47 := rfl; omega)
      have htree : update (fun _ => FileData.none) ROOTINO
          (fileOf .T_DIR (direntBytes ROOTINO dot ++ direntBytes ROOTINO dotdot)) = tree [] := by
        funext i
        by_cases hi : i = ROOTINO
        · rw [hi, update_self, tree_root]
          unfold rootEntries entries
          rw [append_nil]
        · rw [update_of_ne hi, tree, if_neg hi]
          split
          · rfl
          · rfl
      rw [← htree]
      exact h3

theorem testBit_bits (n b : Nat) : (bits n (b / 8)).toNat.testBit (b % 8) = decide (b < n) := by
  induction n with
  | zero =>
    exact Nat.zero_testBit _
  | succ n ih =>
    unfold bits
    by_cases hb : b / 8 = n / 8
    · have hpow : (UInt8.ofNat (2 ^ (n % 8))).toNat = 2 ^ (n % 8) := by
        exact Nat.mod_eq_of_lt (Nat.pow_lt_pow_right (by decide) (Nat.mod_lt _ (by decide)) : 2 ^ (n % 8) < 2 ^ 8)
      rw [hb] at ih
      rw [hb, update_self, UInt8.toNat_or, Nat.testBit_or, ih, hpow, Nat.testBit_two_pow]
      rw [← Bool.decide_or]
      exact decide_eq_decide.mpr (by omega)
    · rw [update_of_ne hb, ih]
      exact decide_eq_decide.mpr (by omega)

/-! ## The end of `main` -/

def rootSize (files : List InFile) : Nat := (16 * (files.length + 2) / BSIZE + 1) * BSIZE

/-- The image holds `files`: before the size of the root directory was rounded up, it was `s₁`. -/
structure Finished (files : List InFile) (s₁ s : Mkfs) : Prop where
  built : Built s₁ (tree files)
  count : s₁.freeinode = files.length + 2
  freeinode : s.freeinode = files.length + 2
  super : s.super = sb
  disk : s.disk = s₁.view.setInode ROOTINO ((s₁.view.dinode ROOTINO).withSize (rootSize files))

section
variable {s : Mkfs} {E : MkStop → Prop} {files : List InFile}

theorem Built.root (h : Built s (tree files)) :
    (s.view.dinode ROOTINO).type = .T_DIR ∧ (s.view.dinode ROOTINO).size = 16 * (files.length + 2) := by
  obtain ⟨h1, h2⟩ := type_of_contents (congrFun h.contents ROOTINO) (by decide : IType.T_DIR ≠ .T_NONE)
  exact ⟨h1, h2.trans (length_rootEntries files)⟩

theorem disk_put_bits (hs : Sound s) : (s.put sb.bmapstart (bits s.freeblock)).disk = s.view := by
  obtain ⟨s', hs'⟩ : ∃ s', s' = s.put sb.bmapstart (bits s.freeblock) := ⟨_, rfl⟩
  have hlt : sb.bmapstart < s.freeblock := Nat.lt_of_lt_of_le (by decide) hs.lo
  have hsound : Sound s' := hs' ▸ hs.put (by decide) hlt _
  have himg : s'.img = update s.img 46 (bits s.freeblock) := by rw [hs']; rfl
  have hused : s'.disk.used = s.view.used := by
    funext b
    change (decide (b < s'.super.size) && (s'.img (b / BPB + s'.super.bmapstart) (b % BPB / 8)).toNat.testBit (b % 8)) =
      decide (b < s.freeblock)
    rw [hsound.super]
    change (decide (b < FSSIZE) && (s'.img (b / BPB + 46) (b % BPB / 8)).toNat.testBit (b % 8)) = decide (b < s.freeblock)
    by_cases hb : b < FSSIZE
    · have hdiv : b / BPB = 0 := by
        lia
      have hmod : b % BPB = b := by
        lia
      rw [hdiv, hmod, himg, Nat.zero_add, update_self, testBit_bits, decide_eq_true hb, Bool.true_and]
    · have := hs.hi
      rw [decide_eq_false hb, Bool.false_and, decide_eq_false (by omega)]
  have hdin : s'.view.dinode = s.view.dinode := by
    funext i
    rw [view_dinode hsound, view_dinode hs, himg]
    split
    · rename_i hi
      rw [update_of_ne (by have := (inode_sector hi).2; omega)]
    · rfl
  have hblock : s'.view.block = s.view.block := by
    funext b
    rw [view_block hsound, view_block hs, himg]
    split
    · rfl
    · rename_i hb
      have hmeta : nmeta = 47 := rfl
      rw [update_of_ne (by omega)]
  rw [← hs']
  change (⟨s'.disk.used, s'.view.dinode, s'.view.block⟩ : Disk) = s.view
  rw [hused, hdin, hblock]

theorem wp_finish (h : Built s (tree files)) (hn : s.freeinode = files.length + 2)
    (hQ : ∀ s', Finished files s s' → Q () s') : wp finish Q E s := by
  obtain ⟨htype, hsize⟩ := h.root
  have hs := h.sound
  have hi : ROOTINO < 208 := by decide
  have hback := (h.ok.sized ROOTINO (by rw [htype]; decide)).size_le
  have hplain : ((s.view.dinode ROOTINO).withSize (rootSize files)).Plain := by
    have hp := plain_view hs ROOTINO
    refine ⟨hp.major, hp.minor, hp.nlink, ?_, hp.addrs, hp.none⟩
    change rootSize files < 4294967296
    unfold rootSize
    lia
  refine wp_seq (wp_rinode hs hi ?_)
  rw [wp_bind, hsize]
  refine wp_winode hs hi ?_
  have hs' := hs.putInode hi ((s.view.dinode ROOTINO).withSize (rootSize files))
  rw [wp_read]
  refine wp_ite (fun _ => wp_wsect (hQ _ ⟨h, hn, hn, ?_, ?_⟩)) fun hge => ?_
  · exact (hs'.put (x := sb.bmapstart) (by decide) (lt_of_lt_of_le (by decide) hs'.lo) _).super
  · exact (disk_put_bits hs').trans (view_putInode hs hi hplain)
  · exact absurd (lt_of_le_of_lt hs'.hi (by decide)) hge

theorem wp_main (hroom : files.length + 1 < 208) (hE : ¬ Fits (nmeta + 8) files → ∀ e, E e)
    (hQ : ∀ s1 s, Finished files s1 s → Q () s) : wp (main files) Q E start := by
  refine wp_seq (wp_prepare fun s0 h0 hn0 hb0 => ?_)
  refine wp_seq (wp_addFiles h0 hn0 hroom (fun hf => hE fun hfit => hf ?_) fun s1 h1 hn1 => ?_)
  · exact ⟨hfit.names, hfit.lengths, le_trans (Nat.add_le_add_right hb0 _) hfit.blocks⟩
  · exact wp_finish h1 hn1 fun s h => hQ s1 s h

theorem main_ok (hroom : files.length + 1 < 208) (hfit : Fits (nmeta + 8) files) :
    ∃ s1 s, main files start = .ok ((), s) ∧ Finished files s1 s := by
  have h := wp_main (E := fun _ => False) (Q := fun _ s => ∃ s1, Finished files s1 s) hroom (fun hf => absurd hfit hf)
    fun s1 s h => ⟨s1, h⟩
  obtain ⟨_, s, hok, s1, hfin⟩ := wp_total h
  exact ⟨s1, s, hok, hfin⟩

theorem main_finished (hroom : files.length + 1 < 208) (hok : main files start = .ok ((), s)) : ∃ s1, Finished files s1 s :=
  wp_ok (E := fun _ => True) (wp_main (Q := fun _ s => ∃ s1, Finished files s1 s) hroom (fun _ _ => trivial)
    fun s1 _ h => ⟨s1, h⟩) hok

end

def Keeps {α : Type} (x : Prog Mkfs MkStop α) : Prop :=
  ∀ s, wp x (fun _ s' => s'.freeinode = s.freeinode) (fun _ => True) s

section
variable {α β : Type} {x : Prog Mkfs MkStop α} {f : α → Prog Mkfs MkStop β}

theorem Keeps.bind (hx : Keeps x) (hf : ∀ a, Keeps (f a)) : Keeps (x >>= f) := by
  intro s
  refine wp_seq (wp_post (hx s) fun a s1 h1 => wp_post (hf a s1) fun _ s2 h2 => h2.trans h1)

theorem Keeps.pure (a : α) : Keeps (pure a) := fun _ => wp_ret rfl

theorem Keeps.throw (e : MkStop) : Keeps (throw e : Prog Mkfs MkStop α) := fun _ => wp_fail trivial

theorem Keeps.ite {c : Prop} [Decidable c] (hx : Keeps x) (hy : Keeps y) : Keeps (if c then x else y) :=
  fun s => wp_ite (fun _ => hx s) fun _ => hy s

theorem keeps_rsect (n : Nat) : Keeps (rsect n) := fun _ => wp_rsect (fun _ => rfl) fun _ => trivial

theorem keeps_wsect (n : Nat) (buf : Block) : Keeps (wsect n buf) := fun _ => wp_wsect rfl

theorem keeps_nextBlock : Keeps nextBlock := fun _ => wp_nextBlock rfl

theorem keeps_winode (i : Nat) (d : Dinode) : Keeps (winode i d) := (keeps_rsect _).bind fun _ => keeps_wsect _ _

theorem keeps_rinode (i : Nat) : Keeps (rinode i) := (keeps_rsect _).bind fun _ => .pure _

theorem keeps_mapAddr (din : Dinode) (n : Nat) : Keeps (mapAddr din n) :=
  .ite (keeps_nextBlock.bind fun _ => .pure _) (.pure _)

theorem keeps_mapEntry (a j : Nat) : Keeps (mapEntry a j) :=
  (keeps_rsect _).bind fun _ => .ite (keeps_nextBlock.bind fun _ => (keeps_wsect _ _).bind fun _ => .pure _) (.pure _)

theorem keeps_mapBlock (din : Dinode) (fbn : Nat) : Keeps (mapBlock din fbn) :=
  .ite (keeps_mapAddr _ _) ((keeps_mapAddr _ _).bind fun _ => (keeps_mapEntry _ _).bind fun _ => .pure _)

theorem keeps_appendLoop : ∀ (fuel : Nat) (din : Dinode) (off : Nat) (p : List UInt8), Keeps (appendLoop fuel din off p)
  | 0, _, _, _ => .pure _
  | fuel + 1, _, _, _ => .ite (.pure _) (.ite ((keeps_mapBlock _ _).bind fun _ => (keeps_rsect _).bind fun _ =>
      (keeps_wsect _ _).bind fun _ => keeps_appendLoop fuel _ _ _) (.throw _))

theorem keeps_iappend (i : Nat) (p : List UInt8) : Keeps (iappend i p) :=
  (keeps_rinode i).bind fun _ => (keeps_appendLoop _ _ _ _).bind fun _ => keeps_winode _ _

theorem keeps_appendAll (i : Nat) : ∀ reads : List (List UInt8), Keeps (appendAll i reads)
  | [] => .pure _
  | _ :: reads => (keeps_iappend _ _).bind fun _ => keeps_appendAll i reads

end

variable {s : Mkfs} {files : List InFile}

theorem frame_addFile (f : InFile) (s : Mkfs) :
    wp (addFile f) (fun _ s' => Accepted f ∧ s'.freeinode = s.freeinode + 1) (fun _ => True) s := by
  refine wp_ite (fun _ => wp_fail trivial) fun hs => wp_ite (fun _ => wp_fail trivial) fun hl => ?_
  unfold ialloc
  rw [wp_bind, wp_bind, wp_get, wp_bind, wp_set, wp_bind]
  refine wp_post (keeps_winode _ _ _) fun _ s1 h1 => ?_
  rw [wp_pure, wp_bind]
  refine wp_post (keeps_iappend _ _ s1) fun _ s2 h2 => wp_post (keeps_appendAll _ _ s2) fun _ s3 h3 => ?_
  exact ⟨⟨hs, Nat.le_of_not_lt hl⟩, h3.trans (h2.trans h1)⟩

theorem frame_addFiles : ∀ (files : List InFile) (s : Mkfs), wp (addFiles files)
    (fun _ s' => (∀ f ∈ files, Accepted f) ∧ s'.freeinode = s.freeinode + files.length) (fun _ => True) s
  | [], _ => wp_ret ⟨fun _ hf => absurd hf not_mem_nil, rfl⟩
  | f :: files, s => by
    unfold addFiles
    rw [wp_bind]
    refine wp_post (frame_addFile f s) fun _ s1 h1 => wp_post (frame_addFiles files s1) fun _ s2 h2 => ⟨fun g hg => ?_, ?_⟩
    · rcases mem_cons.mp hg with rfl | hg
      · exact h1.1
      · exact h2.1 g hg
    · rw [h2.2, h1.2, length_cons]
      omega

theorem main_frame (hok : main files start = .ok ((), s)) :
    (∀ f ∈ files, Accepted f) ∧ s.freeinode = files.length + 2 := by
  have hfinish : Keeps finish := (keeps_rinode _).bind fun _ => (keeps_winode _ _).bind fun _ s => by
    rw [wp_read]
    exact wp_ite (fun _ => keeps_wsect _ _ s) fun _ => wp_fail trivial
  have h : wp (main files) (fun _ s => (∀ f ∈ files, Accepted f) ∧ s.freeinode = files.length + 2)
    (fun _ => True) start := by
    refine wp_seq (wp_prepare fun s0 _ hn _ => ?_)
    refine wp_seq (wp_post (frame_addFiles files s0) fun _ s1 h1 => wp_post (hfinish s1) fun _ s2 h2 => ⟨h1.1, ?_⟩)
    rw [h2, h1.2, hn, Nat.add_comm]
  exact wp_ok (x := main files) (s := start) h hok

end Mkfs

end Xv6
