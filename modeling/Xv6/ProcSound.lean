import Xv6.FileSound
import Xv6.Proc

/-!
# What the functions of `proc.c` do

The page tables of processes first, then the functions on the process
table, each with what it leaves in the slots it touches.
-/

namespace Xv6

open Hoare

abbrev trampPage : Nat := TRAMPOLINE / PGSIZE
abbrev framePage (i : Nat) : Nat := TRAPFRAME i / PGSIZE

theorem framePage_user (h : i < NPROC) : NUPAGE ≤ framePage i := by
  simp only [framePage] at *; lia

theorem framePage_lt (i : Nat) : framePage i < 512 * 512 * 512 := by
  simp only [framePage] at *; lia

theorem framePage_ne (h : i < NPROC) : framePage i ≠ trampPage := by
  simp only [framePage, trampPage, MAXVA, TRAPFRAME, TRAMPOLINE, PGSIZE, NPROC] at *; omega

theorem framePage_inj (hi : i < NPROC) (hj : j < NPROC) (h : framePage i = framePage j) : i = j := by
  simp only [framePage, MAXVA, TRAPFRAME, TRAMPOLINE, PGSIZE, NPROC] at *; omega

theorem TRAPFRAME_mod (i : Nat) : TRAPFRAME i % PGSIZE = 0 := by
  lia

theorem TRAPFRAME_lt (i : Nat) : TRAPFRAME i < MAXVA := by
  lia

variable [Image]

def NewTable (m : Mem) (r i tf : Nat) : Prop :=
  ∀ n < 512 * 512 * 512, leaf m r n = if n = trampPage then mkPte Image.trampoline (PTE_R ||| PTE_X)
    else if n = framePage i then mkPte tf (PTE_R ||| PTE_W) else 0#64

variable {m : Mem} {R : Finset Nat} {ρ : Owners} {H : Nat → Int} {r : Nat} {E : MemStop → Prop}

theorem wp_uvmfree_empty (hr : r ∉ R) (hI : MemInv m (insert r R) ρ H) (hH : ∀ a, 0 ≤ H a)
    (h0 : ∀ n < 512 * 512 * 512, (leaf m r n).has PTE_V = false)
    (h : ∀ m' ρ', MemInv m' R ρ' H → SameLeaf m m' R → Release m m' → Q () m') : wp (uvmfree r 0) Q E m := by
  refine wp_uvmfree hI hH (Finset.mem_insert_self r R) (by decide) ?_ ?_ ?_
  · intro n hn _ hv; rw [h0 n hn] at hv; cases hv
  · rintro ⟨n, hn, -, hv⟩; rw [h0 n hn] at hv; cases hv
  · rw [Finset.erase_insert hr]; exact h

theorem wp_proc_pagetable (hI : MemInv m R ρ H) (hH : ∀ a, 0 ≤ H a)
    (hi : i < NPROC) (hn : ∀ m' ρ', MemInv m' R ρ' H → SameLeaf m m' R → m.fails < m'.fails → Q none m')
    (hs : ∀ m' ρ' r, r ∉ R → r ∈ m.freelist → MemInv m' (insert r R) ρ' H → SameLeaf m m' R → Alloc m m' →
      NewTable m' r i tf → Q (some r) m') : wp (proc_pagetable i tf) Q E m := by
  have hR : ∀ {r : Nat}, r ∈ insert r R := fun {r} => Finset.mem_insert_self r R
  have hsub : ∀ {r r' : Nat}, r' ∈ R → r' ∈ insert r R := fun h => Finset.mem_insert_of_mem h
  have hne := framePage_ne hi
  have htp : NUPAGE ≤ trampPage := by decide
  refine wp_seq (wp_uvmcreate hI hH (fun m' hI' hS' _ hf => wp_ret (hn m' ρ hI' hS' hf)) ?_)
  intro m1 ρ1 r hr hrf hI1 hS1 h0 hA1
  refine wp_seq (wp_mappages (by decide) (wp_mapPage hI1 hR (by decide) (by decide) (fun hc => absurd hc (by decide)) ?_
    (fun hc => absurd hc (by decide)) ?_ ?_))
  · rw [h0]; simp
  · intro m2 ρ2 _ hI2 hL2 hA2
    simp only [Option.isNone_none, if_true, wp_bind]
    refine wp_mappages (TRAPFRAME_mod i) (wp_mapPage hI2 hR (TRAPFRAME_lt i) (by decide)
      (fun hc => absurd hc (not_lt.mpr (framePage_user hi))) ?_
      (fun hc => absurd hc (not_lt.mpr (framePage_user hi))) ?_ ?_)
    · rw [hL2 r hR _ (framePage_lt i), if_neg (fun hc => hne hc.2), h0]; simp
    · intro m3 ρ3 _ hI3 hL3 hA3
      rw [if_neg (not_lt.mpr (framePage_user hi))] at hI3
      simp only [Option.isNone_none, if_true, wp_pure]
      refine hs m3 ρ3 r hr hrf hI3 (fun r' hr' n hn => ?_) (hA1.trans (hA2.trans hA3)) fun n hn => ?_
      · have hrr : r' ≠ r := by rintro rfl; exact hr hr'
        rw [hL3 r' (hsub hr') n hn, if_neg (fun hc => hrr hc.1), hL2 r' (hsub hr') n hn, if_neg (fun hc => hrr hc.1)]
        exact hS1 r' hr' n hn
      · rw [hL3 r hR n hn, hL2 r hR n hn, h0]
        by_cases h1 : n = framePage i
        · rw [if_pos ⟨rfl, h1⟩, if_neg (fun hc => hne (h1.symm.trans hc)), if_pos h1]
        · rw [if_neg (fun hc => h1 hc.2)]
          by_cases h2 : n = trampPage
          · rw [if_pos ⟨rfl, h2⟩, if_pos h2]
          · rw [if_neg (fun hc => h2 hc.2), if_neg h2, if_neg h1]
    · intro m3 ρ3 hI3 hS3 hA3 hf3
      simp only [Option.isNone_some, Bool.false_eq_true, if_false, wp_bind, wp_pure]
      refine wp_uvmunmap_kernel hI3 hR (by decide) (by decide) htp fun m4 hI4 hQ4 hC4 => ?_
      refine wp_uvmfree_empty hr hI4 hH (fun n hn => ?_) fun m5 ρ5 hI5 hS5 hR5 => hn m5 ρ5 hI5 (fun r' hr' n hn => ?_) ?_
      · by_contra hv
        obtain ⟨he, hlo⟩ := hC4.valid hR hn (by simpa using hv)
        rw [he, hS3 r hR n hn, hL2 r hR n hn] at hv
        by_cases h2 : n = trampPage
        · exact hlo ⟨by rw [h2], by rw [h2]; exact Nat.lt_succ_self _⟩
        · rw [if_neg (fun hc => h2 hc.2), h0] at hv; simp at hv
      · have hrr : r' ≠ r := by rintro rfl; exact hr hr'
        rw [hS5 r' hr' n hn, hC4 r' (hsub hr') n hn, if_neg (fun hc => hrr hc.1), hS3 r' (hsub hr') n hn,
          hL2 r' (hsub hr') n hn, if_neg (fun hc => hrr hc.1)]
        exact hS1 r' hr' n hn
      · rw [hR5.fails, hQ4.fails]
        exact lt_of_le_of_lt (hA1.trans hA2).fails hf3
  · intro m2 ρ2 hI2 hS2 hA2 hf2
    simp only [Option.isNone_some, Bool.false_eq_true, if_false, wp_bind, wp_pure]
    refine wp_uvmfree_empty hr hI2 hH (fun n hn => ?_) fun m3 ρ3 hI3 hS3 hR3 => hn m3 ρ3 hI3 (fun r' hr' n hn => ?_) ?_
    · rw [hS2 r hR n hn, h0]; simp
    · rw [hS3 r' hr' n hn, hS2 r' (hsub hr') n hn]; exact hS1 r' hr' n hn
    · rw [hR3.fails]; exact lt_of_le_of_lt hA1.fails hf2

theorem wp_proc_freepagetable (hI : MemInv m R ρ H) (hH : ∀ a, 0 ≤ H a) (hr : r ∈ R)
    (hi : i < NPROC) (hsz : sz ≤ TRAPFRAME NPROC)
    (hok : ∀ n < 512 * 512 * 512, PGROUNDUP sz / 4096 ≤ n → (leaf m r n).has PTE_V →
      (leaf m r n).has (PTE_R ||| PTE_W ||| PTE_X))
    (hE : (∃ n < 512 * 512 * 512, PGROUNDUP sz / 4096 ≤ n ∧ n ≠ trampPage ∧ n ≠ framePage i ∧
      (leaf m r n).has PTE_V) → E (.panic .freewalkLeaf))
    (h : ∀ m' ρ', MemInv m' (R.erase r) ρ' H → SameLeaf m m' (R.erase r) → Release m m' → Q () m') :
    wp (proc_freepagetable r sz i) Q E m := by
  have htp : NUPAGE ≤ trampPage := by decide
  unfold proc_freepagetable
  simp only [wp_bind]
  refine wp_uvmunmap_kernel hI hr (by decide) (by decide) htp fun m1 hI1 hQ1 hC1 => ?_
  refine wp_uvmunmap_kernel hI1 hr (TRAPFRAME_mod i) (TRAPFRAME_lt i) (framePage_user hi) fun m2 hI2 hQ2 hC2 => ?_
  have hval : ∀ n < 512 * 512 * 512, (leaf m2 r n).has PTE_V →
      leaf m2 r n = leaf m r n ∧ n ≠ trampPage ∧ n ≠ framePage i := fun n hn hv => by
    obtain ⟨he, hne⟩ := hC2.valid hr hn hv
    rw [he] at hv
    obtain ⟨he', hne'⟩ := hC1.valid hr hn hv
    exact ⟨he.trans he', fun hc => hne' ⟨by rw [hc], by rw [hc]; exact Nat.lt_succ_self _⟩,
      fun hc => hne ⟨by rw [hc], by rw [hc]; exact Nat.lt_succ_self _⟩⟩
  refine wp_uvmfree hI2 hH hr hsz (fun n hn hlo hv => ?_) ?_ fun m3 ρ3 hI3 hS3 hR3 => ?_
  · obtain ⟨he, -⟩ := hval n hn hv
    rw [he] at hv ⊢
    exact hok n hn hlo hv
  · rintro ⟨n, hn, hlo, hv⟩
    obtain ⟨he, h1, h2⟩ := hval n hn hv
    rw [he] at hv
    exact hE ⟨n, hn, hlo, h1, h2, hv⟩
  · exact h m3 ρ3 hI3 ((hC1.others.trans hC2.others).trans hS3) ((hQ1.trans hQ2).release.trans hR3)

end Xv6
