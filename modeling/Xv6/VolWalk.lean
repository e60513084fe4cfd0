import Xv6.VolDir
import Xv6.VolSound

/-!
# Looking up names

To its users a directory is a sequence of entries. `dirlookup` finds the first
one with the name, and stops at one that cannot be read.
-/

namespace Xv6

open Hoare List

def FileData.entry (c : FileData) (k : Nat) : Dirent :=
  Dirent.ofBytes ((range direntSize).map fun j => c.bytes (k * direntSize + j))

def FileData.slots (c : FileData) : Nat := Vol.nslots c.size

def FileData.fits (c : FileData) (name : List UInt8) (k : Nat) : Bool :=
  (c.entry k).inum != 0 && namecmp name (c.entry k).name

def FileData.find (c : FileData) (name : List UInt8) : Option Nat := (range c.slots).find? (c.fits name)

theorem contents_type (D : Disk) (i : Nat) : (D.contents i).type = (D.dinode i).type := by
  unfold Disk.contents
  dsimp only
  split
  · next h => rw [h]; rfl
  · rfl

section
variable {D : Disk} {i : Nat} (ht : (D.dinode i).type ≠ .T_NONE)
include ht

theorem contents_size : (D.contents i).size = (D.dinode i).size := by
  rw [Disk.contents, if_neg ht]

theorem contents_nlink : (D.contents i).nlink = (D.dinode i).nlink := by
  rw [Disk.contents, if_neg ht]

theorem contents_bytes (hk : k < (D.dinode i).size) : (D.contents i).bytes k = D.byteAt i k := by
  rw [Disk.contents, if_neg ht]
  exact if_pos hk

end

namespace Vol

variable {v : Vol} {dp : Nat} {E : VolStop → Prop}

variable (hsb : SuperOk v.sb) (hD : DiskOk v.sb v.disk) (hs : v.Synced dp)
  (ht : (v.disk.dinode (v.inode dp).inum).type ≠ .T_NONE)
include hsb hD hs ht

theorem wp_direntAt
    (he : (v.disk.contents (v.inode dp).inum).size < k * direntSize + direntSize → E err)
    (hQ : k * direntSize + direntSize ≤ (v.disk.contents (v.inode dp).inum).size →
      Q ((v.disk.contents (v.inode dp).inum).entry k) v) : wp (readDirent dp (k * direntSize) err) Q E v := by
  rw [contents_size ht] at he hQ
  have hmax := (hD.sized _ ht).size_le
  simp only [MAXFILE, NDIRECT, NINDIRECT, BSIZE] at hmax
  refine wp_seq (wp_readi hsb hD hs ht (fun hf => ?_) ?_)
  · obtain ⟨_, hf⟩ := hf
    cases hf
  · obtain ⟨⟨n, bytes⟩, hres⟩ : ∃ r, r = readResult v.disk (v.inode dp).inum (k * direntSize) direntSize := ⟨_, rfl⟩
    rw [← hres]
    unfold readResult at hres
    dsimp only at hres
    rcases lt_or_ge (v.disk.dinode (v.inode dp).inum).size (k * direntSize + direntSize) with hlt | hle
    · refine wp_ite (fun _ => wp_fail (he hlt)) fun hn => absurd ?_ hn
      intro hn
      split at hres
      · rw [hn, Prod.mk.injEq] at hres
        cases hres.1
      · rw [hn, Prod.mk.injEq] at hres
        omega
    · have hin : ¬ ((v.disk.dinode (v.inode dp).inum).size < k * direntSize ∨ addWraps (k * direntSize) direntSize) := by
        rw [addWraps, decide_eq_true_eq]
        omega
      rw [if_neg hin, if_neg (not_lt.mpr hle), Prod.mk.injEq] at hres
      have hq := hQ hle
      have hbytes : ((range direntSize).map fun j => (v.disk.contents (v.inode dp).inum).bytes (k * direntSize + j)) =
          (range direntSize).map fun j => v.disk.byteAt (v.inode dp).inum (k * direntSize + j) :=
        map_congr_left fun j hj => contents_bytes ht (by have := mem_range.mp hj; omega)
      rw [FileData.entry, hbytes, ← hres.2] at hq
      exact wp_ite (fun hn => absurd hres.1 hn) fun _ => wp_ret hq

theorem wp_lookup {name : List UInt8}
    (h1 : (v.disk.contents (v.inode dp).inum).type ≠ .T_DIR → E .dirlookupNotDir)
    (h2 : (v.disk.contents (v.inode dp).inum).size % direntSize ≠ 0 → E .dirlookupRead)
    (hnone : (v.disk.contents (v.inode dp).inum).type = .T_DIR →
      (v.disk.contents (v.inode dp).inum).find name = none → Q none v)
    (hsome : ∀ k, (v.disk.contents (v.inode dp).inum).type = .T_DIR →
      (v.disk.contents (v.inode dp).inum).find name = some k →
      wp (iget ((v.disk.contents (v.inode dp).inum).entry k).inum) (fun ip => Q (some (ip, k * direntSize))) E v) :
    wp (dirlookup dp name) Q E v := by
  obtain ⟨c, hc⟩ : ∃ c, c = v.disk.contents (v.inode dp).inum := ⟨_, rfl⟩
  rw [← hc] at h1 h2 hnone hsome
  have hslots : nslots (v.inode dp).copy.size = c.slots := by
    rw [hs, hc, FileData.slots, contents_size ht]
  have hct : c.type = (v.inode dp).copy.type := by rw [hc, contents_type, ← hs]
  unfold dirlookup
  rw [wp_read]
  refine wp_ite (fun hne => wp_fail (h1 (hct ▸ hne))) fun hty => ?_
  have htype : c.type = .T_DIR := hct.trans (Classical.not_not.mp hty)
  rw [hslots]
  refine wp_search (fun k s => s = v ∧ ∀ j < k, c.fits name j = false) ⟨rfl, fun j hj => absurd hj (Nat.not_lt_zero j)⟩
    (fun k s _ hk hI => ?_) fun s hI => ?_
  · obtain ⟨rfl, hbefore⟩ := hI
    refine wp_seq (wp_direntAt hsb hD hs ht (fun hlt => h2 ?_) fun _ => ?_)
    · rw [← hc] at hlt
      unfold FileData.slots nslots at hk
      simp only [direntSize] at *
      omega
    rw [← hc]
    refine wp_ite (fun h0 => wp_ret ⟨rfl, fun j hj => ?_⟩) fun h0 => ?_
    · rcases Nat.lt_succ_iff_lt_or_eq.mp hj with hlt | rfl
      · exact hbefore j hlt
      · rw [FileData.fits, h0]
        rfl
    · refine wp_ite (fun hcmp => ?_) fun hcmp => wp_ret ⟨rfl, fun j hj => ?_⟩
      · have hfind : c.find name = some k := by
          rw [FileData.find, find?_range_eq_some]
          refine ⟨?_, mem_range.mpr (by omega), fun j hj => by rw [hbefore j hj]; rfl⟩
          rw [FileData.fits, hcmp, bne_iff_ne.mpr h0]
          rfl
        exact wp_seq (wp_post (hsome k htype hfind) fun ip v' hq => wp_ret hq)
      · rcases Nat.lt_succ_iff_lt_or_eq.mp hj with hlt | rfl
        · exact hbefore j hlt
        · rw [FileData.fits, eq_false_of_ne_true hcmp, Bool.and_false]
  · obtain ⟨rfl, hall⟩ := hI
    refine hnone htype ?_
    rw [FileData.find, find?_eq_none]
    intro k hk
    rw [hall k (by have := mem_range.mp hk; omega)]
    exact Bool.false_ne_true

end Vol

end Xv6
