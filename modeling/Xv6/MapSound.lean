import Xv6.ExitSound

/-!
# `sbrk`, `mmap` and descriptors

The calls by which a process changes the size of its heap, its mappings and
its open files.
-/

namespace Xv6

open Hoare Function List Option

variable {addr hi i ip len lo n : Nat} {m' : Mem} {v : Vma}

/-! ## `sbrk` -/

def resized (procs : Nat → Proc) (tgid sz : Nat) : Nat → Proc := fun i =>
  if i < NPROC ∧ (procs i).tgid = tgid then { procs i with sz := sz } else procs i

section
variable {procs : Nat → Proc} {tgid sz : Nat}

theorem resized_eq (i : Nat) :
    resized procs tgid sz i = { procs i with sz := if i < NPROC ∧ (procs i).tgid = tgid then sz else (procs i).sz } := by
  unfold resized; split <;> rfl

theorem resized_same {α : Type} {g : Proc → α} (h : ∀ p : Proc, ∀ n, g { p with sz := n } = g p) (i : Nat) :
    g (resized procs tgid sz i) = g (procs i) := by
  rw [resized_eq]; exact h _ _

theorem resized_sz (hi : i < NPROC) (ht : (procs i).tgid = tgid) : (resized procs tgid sz i).sz = sz := by
  unfold resized; rw [if_pos ⟨hi, ht⟩]

end

variable [Image] {W : Prop} {L : Nat → Nat} {k : Kernel}
variable {E : Stop → Prop} {Q : Option Nat → Kernel → Prop} {R : Finset Nat} {fd r : Nat} {m : Mem} {p : Proc} {s : Sys}

omit [Image] in
theorem wp_update_sz {tgid sz : Nat} {Q : Unit → Kernel → Prop} (hE : ∀ e, E (.sys e))
    (h : Q () { k with procs := resized k.procs tgid sz }) : wp (update_sz tgid sz) Q E k := by
  refine wp_post (wp_forN (fun n k' => k' = { k with
    procs := fun i => if i < n ∧ (k.procs i).tgid = tgid then { k.procs i with sz := sz } else k.procs i }) ?_ ?_) ?_
  · simp
  · rintro i _ hi rfl
    simp only [wp_bind, wp_ksys]
    refine wp_acquire (fun _ => hE _) fun _ => ?_
    simp only [wp_setProc]
    refine wp_release (mem_cons_self ..) ?_
    rw [Sys.unlock_lock]
    congr 1
    funext j
    by_cases hj : j = i
    · rw [hj, update_self]; simp
    · rw [update_of_ne hj]
      exact if_congr (and_congr_left' ⟨fun hx => by omega, fun hx => by omega⟩) rfl rfl
  · rintro _ _ rfl
    exact h

theorem Inv.resize {ρ : Owners} {p sz : Nat} (h : Inv W L k) (hp : p < NPROC) (hl : k.sys.live p)
    (hr : (k.procs p).pagetable = some r) (hsz : sz ≤ TRAPFRAME NPROC) (hI : MemInv m (tables k.procs) ρ (heldBy L k))
    (ht : Tidy k.mem m (tables k.procs)) (hT : TableOk m r sz) :
    Inv W L { k with mem := m, procs := resized k.procs (k.procs p).tgid sz } := by
  have hc := h.toCore.step (s := k.sys) hI ht h.fs
  have hpar : ∀ i, (resized k.procs (k.procs p).tgid sz i).parent = (k.procs i).parent := resized_same fun _ _ => rfl
  have hcwd : ∀ i, (resized k.procs (k.procs p).tgid sz i).cwd = (k.procs i).cwd := resized_same fun _ _ => rfl
  have hpt : ∀ i, (resized k.procs (k.procs p).tgid sz i).pagetable = (k.procs i).pagetable := resized_same fun _ _ => rfl
  have htf : ∀ i, (resized k.procs (k.procs p).tgid sz i).trapframe = (k.procs i).trapframe := resized_same fun _ _ => rfl
  have htab : tables (resized k.procs (k.procs p).tgid sz) = tables k.procs := tables_congr fun i _ => hpt i
  have hfam := h.family
  refine ⟨⟨⟨ρ, ?_⟩, ?_, fun r' hr' => ?_, fun i hi r' hr' => ?_, fun i hi a ha => ?_, fun a => ?_, ?_⟩, ?_,
    ⟨hfam.slot, hfam.live, hfam.alive, by rw [hpar]; exact hfam.root, fun i hi => by rw [hpar]; exact hfam.self i hi⟩,
    fun i hi hli hdi hne => by rw [hcwd]; exact h.homed i hi hli hdi hne, h.held⟩
  · unfold heldBy frames
    simp only [htab, htf]
    exact hI
  · dsimp only; rw [htab]; exact hc.kern
  · have hw := hc.wired r' (by rw [← htab]; exact hr')
    exact ⟨hw.tramp, fun i hi => (hw.frame i hi).congr (hpt i) (htf i), hw.rest⟩
  · dsimp only at hr' ⊢
    rw [hpt] at hr'
    by_cases hg : (k.procs i).tgid = (k.procs p).tgid
    · rw [resized_sz hi hg]
      have hli := h.slots.live_of_table hi hr'
      rw [← some.inj (((h.slots.group hi hp hli hl hg).1.symm.trans hr').symm.trans hr).symm]
      exact hT
    · unfold resized
      rw [if_neg fun hx => hg hx.2]
      exact hc.user i hi r' hr'
  · dsimp only at ha
    rw [htf] at ha
    exact h.frame i hi a ha
  · unfold frames
    simp only [htf]
    exact h.own a
  · have hf : fileRefs (resized k.procs (k.procs p).tgid sz) = fileRefs k.procs := by
      funext f
      exact Finset.sum_congr rfl fun i _ => resized_same (g := fun q => q.refs f) (fun _ _ => rfl) i
    have hw : cwdRefs (resized k.procs (k.procs p).tgid sz) = cwdRefs k.procs := by
      funext ip
      unfold cwdRefs
      simp only [hcwd]
    rw [hf, hw]
    exact h.fs
  · have hres : ∀ i < NPROC, resized k.procs (k.procs p).tgid sz i =
        if (k.procs i).tgid = (k.procs p).tgid then { k.procs i with sz := sz } else k.procs i := fun i hi => by
      unfold resized; simp only [hi, true_and]
    exact h.slots.resize hsz hres

def newSz (sz : Nat) (n : Int) : Nat := if n < 0 then min sz (addInt sz n) else max sz (addInt sz n)

structure Sized (k k' : Kernel) (r : Nat) (n : Int) : Prop where
  sys : k'.sys = k.sys
  kpages : k'.kpages = k.kpages
  procs : k'.procs = resized k.procs (k.procs k.sys.cur).tgid (newSz (k.procs k.sys.cur).sz n)
  bound : newSz (k.procs k.sys.cur).sz n ≤ TRAPFRAME NPROC
  mem : (0 ≤ n ∧ k'.mem = k.mem) ∨
    (0 ≤ n ∧ Grown k.mem k'.mem (tables k.procs) r (PGROUNDUP (k.procs k.sys.cur).sz / 4096)
      (rounds (PGROUNDUP (k.procs k.sys.cur).sz) (newSz (k.procs k.sys.cur).sz n)) (PTE_R ||| PTE_U ||| PTE_W)) ∨
    (n < 0 ∧ Release k.mem k'.mem ∧ Cleared k.mem k'.mem (tables k.procs) r
      (PGROUNDUP (newSz (k.procs k.sys.cur).sz n) / 4096) (PGROUNDUP (k.procs k.sys.cur).sz / 4096))

theorem Grown.tidy {perm : Pte} (h : Grown m m' R r lo n perm)
    (hn : lo + n ≤ NUPAGE) (hp : perm.has (PTE_R ||| PTE_W ||| PTE_X)) : Tidy m m' R := fun r' hr' j hj => by
  by_cases hx : r' = r ∧ lo ≤ j ∧ j < lo + n
  · obtain ⟨-, pa, -, hl, -⟩ := h.new j hx.2.1 hx.2.2
    rw [hx.1, hl]
    exact .inr (.inr ⟨by omega, by rw [mkPte_rwx]; exact hp⟩)
  · exact .inl (h.old r' hr' j hj hx)

section
omit [Image]

theorem SameValid.tidy (h : SameValid m m' R) : Tidy m m' R := fun r hr n hn =>
  (h r hr n hn).imp id fun hx => .inl ⟨hx.1, .inr hx.2⟩

theorem SameValid.of_same (h : SameLeaf m m' R) : SameValid m m' R := fun r hr n hn =>
  .inl (h r hr n hn)

theorem TableOk.shrink (h : TableOk m r sz) (hr : r ∈ R)
    (hC : Cleared m m' R r (PGROUNDUP sz' / 4096) (PGROUNDUP sz / 4096)) : TableOk m' r sz' := fun n hn hv => by
  obtain ⟨hl, hout⟩ := hC.valid hr (NUPAGE_lt hn) hv
  rw [hl] at hv ⊢
  exact (h n hn hv).imp id fun hlt => by omega

end

omit [Image] in
theorem resized_update {procs : Nat → Proc} {p sz : Nat} (hp : p < NPROC) :
    resized (update procs p { procs p with sz := sz }) (procs p).tgid sz = resized procs (procs p).tgid sz := by
  funext i
  unfold resized
  by_cases hi : i = p
  · rw [hi, update_self, if_pos ⟨hp, rfl⟩, if_pos ⟨hp, rfl⟩]
  · rw [update_of_ne hi]

section
variable {n : Int} (h : Inv W L k) (hk : Runs k) (hr : (k.procs k.sys.cur).pagetable = some r) (hsys : ∀ e, E (.sys e))
  (hE : 0 < n → newSz (k.procs k.sys.cur).sz n ≤ TRAPFRAME NPROC → (∃ j, PGROUNDUP (k.procs k.sys.cur).sz ≤ j * PGSIZE ∧
    j * PGSIZE < newSz (k.procs k.sys.cur).sz n ∧ (leaf k.mem r j).has PTE_V) → E (.mem (.panic .remap)))
include h hk hr hsys hE

theorem wp_growproc {Q : Bool → Kernel → Prop}
    (hn : ∀ m, Inv W L { k with mem := m } → SameValid k.mem m (tables k.procs) →
      k.mem.fails < m.fails ∨ Grow k.mem m → Q false { k with mem := m })
    (hs : ∀ k', Inv W L k' → Sized k k' r n → Q true k') : wp (growproc n) Q E k := by
  obtain ⟨ρ, hI⟩ := h.mem
  have hmem : r ∈ tables k.procs := mem_tables.mpr ⟨_, hk.slot, hr⟩
  have hH := heldBy_nonneg L k
  have hsz := hk.bounded.sz
  have hT := h.user _ hk.slot r hr
  have hrup := PGROUNDUP_le hsz
  have hgo : ∀ {m ρ}, MemInv m (tables k.procs) ρ (heldBy L k) → Tidy k.mem m (tables k.procs) →
      newSz (k.procs k.sys.cur).sz n ≤ TRAPFRAME NPROC → TableOk m r (newSz (k.procs k.sys.cur).sz n) →
      Inv W L { k with mem := m, procs := resized k.procs (k.procs k.sys.cur).tgid (newSz (k.procs k.sys.cur).sz n) } :=
    fun hI ht hb hT => h.resize hk.slot hk.alive.1 hr hb hI ht hT
  have hmono : (k.procs k.sys.cur).sz ≤ newSz (k.procs k.sys.cur).sz n → newSz (k.procs k.sys.cur).sz n ≤ TRAPFRAME NPROC →
      PGROUNDUP (k.procs k.sys.cur).sz / 4096 ≤ PGROUNDUP (newSz (k.procs k.sys.cur).sz n) / 4096 := fun h1 h2 => by
    simp only [PGROUNDUP] at *; lia
  unfold growproc
  simp only [wp_bind, wp_myproc, wp_getProc]
  refine wp_ite (fun hpos => ?_) fun hpos => wp_ite (fun hneg => ?_) fun hneg => ?_
  · have hnew : newSz (k.procs k.sys.cur).sz n = max (k.procs k.sys.cur).sz (addInt (k.procs k.sys.cur).sz n) := by
      unfold newSz; rw [if_neg (by omega)]
    refine wp_ite (fun _ => wp_ret (hn k.mem h (SameValid.of_same (SameLeaf.refl _ _)) (.inr (Grow.refl _))))
      fun hle => ?_
    have hb : newSz (k.procs k.sys.cur).sz n ≤ TRAPFRAME NPROC := by rw [hnew]; omega
    simp only [wp_bind]
    refine wp_tableOf hr ?_
    rw [wp_kmem]
    refine wp_uvmalloc hI hH hmem (by decide) (fun hx => ?_) ?_ (fun hlt' => ?_)
      (fun m' ρ' hle' hI' hG => ?_) fun m' ρ' _ hI' hV hfail => ?_
    · obtain ⟨j, h1, h2, h3⟩ := hx
      refine hE hpos hb ⟨j, ?_, ?_, h3⟩
      · simp only [PGROUNDUP] at *; lia
      · rw [hnew]; simp only [rounds, PGROUNDUP] at *; lia
    · simp only [rounds, PGROUNDUP] at *; lia
    · -- the sum wrapped
      have hsame : newSz (k.procs k.sys.cur).sz n = (k.procs k.sys.cur).sz := by rw [hnew]; omega
      rw [if_neg (by omega), wp_bind]
      refine wp_update_sz hsys (wp_ret ?_)
      rw [← hsame]
      exact hs _ (hgo hI (SameLeaf.tidy (SameLeaf.refl _ _)) hb (by rw [hsame]; exact hT))
        ⟨rfl, rfl, rfl, hb, .inl ⟨by omega, rfl⟩⟩
    · have hsame : newSz (k.procs k.sys.cur).sz n = addInt (k.procs k.sys.cur).sz n := by rw [hnew]; omega
      have hbound : PGROUNDUP (k.procs k.sys.cur).sz / 4096 + rounds (PGROUNDUP (k.procs k.sys.cur).sz)
          (addInt (k.procs k.sys.cur).sz n) ≤ NUPAGE := by
        simp only [rounds, PGROUNDUP] at *; lia
      have htidy := hG.tidy hbound (by decide)
      refine wp_ite (fun h0 => wp_ret ?_) fun _ => ?_
      · have hz : (k.procs k.sys.cur).sz = 0 := by omega
        rw [h0, hz] at hG
        refine hn m' (h.rel (h.toCore.step hI' htidy h.fs) (SysRel.refl _)) (SameValid.of_same fun r' hr' j hj => ?_)
          (.inr hG.alloc.grow)
        exact hG.old r' hr' j hj fun hx => by
          have : rounds (PGROUNDUP 0) 0 = 0 := by decide
          omega
      · refine wp_seq (wp_update_sz hsys (wp_ret ?_))
        rw [← hsame] at hG ⊢
        refine hs _ (hgo hI' htidy hb ?_) ⟨rfl, rfl, rfl, hb, .inr (.inl ⟨by omega, hG⟩)⟩
        exact (hT.tidy hmem htidy).mono (hmono (by rw [hsame]; exact hle') hb)
    · rw [if_pos rfl]
      exact wp_ret (hn m' (h.rel (h.toCore.step hI' hV.tidy h.fs) (SysRel.refl _)) hV (.inl hfail))
  · have hnew : newSz (k.procs k.sys.cur).sz n = min (k.procs k.sys.cur).sz (addInt (k.procs k.sys.cur).sz n) := by
      unfold newSz; rw [if_pos hneg]
    have hb : newSz (k.procs k.sys.cur).sz n ≤ TRAPFRAME NPROC := by rw [hnew]; omega
    simp only [wp_bind]
    refine wp_tableOf hr ?_
    rw [wp_kmem]
    refine wp_uvmdealloc hI hH hmem hrup fun m' hI' hR hC => ?_
    rw [← hnew]
    have hC' : Cleared k.mem m' (tables k.procs) r (PGROUNDUP (newSz (k.procs k.sys.cur).sz n) / 4096)
        (PGROUNDUP (k.procs k.sys.cur).sz / 4096) := by
      by_cases hx : addInt (k.procs k.sys.cur).sz n < (k.procs k.sys.cur).sz
      · rw [if_pos hx] at hC
        rw [show newSz (k.procs k.sys.cur).sz n = addInt (k.procs k.sys.cur).sz n by rw [hnew]; omega]
        exact hC
      · rw [if_neg hx] at hC
        intro r' hr' j hj
        rw [hC r' hr' j hj, if_neg (by omega), if_neg (by omega)]
    have hu : PGROUNDUP (k.procs k.sys.cur).sz / 4096 ≤ NUPAGE := by
      lia
    refine wp_update_sz hsys (wp_ret (hs _ (hgo hI' (hC'.tidy hu) hb (hT.shrink hmem hC')) ⟨rfl, rfl, rfl, hb, ?_⟩))
    exact .inr (.inr ⟨hneg, hR, hC'⟩)
  · have h0 : n = 0 := by omega
    have hsame : newSz (k.procs k.sys.cur).sz n = (k.procs k.sys.cur).sz := by
      unfold newSz addInt
      rw [if_neg (by omega), h0]
      omega
    refine wp_seq (wp_update_sz hsys (wp_ret ?_))
    rw [← hsame]
    exact hs _ (hgo hI (SameLeaf.tidy (SameLeaf.refl _ _)) (by rw [hsame]; exact hsz) (by rw [hsame]; exact hT))
      ⟨rfl, rfl, rfl, by rw [hsame]; exact hsz, .inl ⟨by omega, rfl⟩⟩

theorem wp_sys_sbrk {eager : Bool}
    (hn : ∀ m, Inv W L { k with mem := m } → SameValid k.mem m (tables k.procs) →
      k.mem.fails < m.fails ∨ Grow k.mem m → Q none { k with mem := m })
    (hs : ∀ k', Inv W L k' → Sized k k' r n → Q (some (k.procs k.sys.cur).sz) k') : wp (sys_sbrk n eager) Q E k := by
  unfold sys_sbrk
  simp only [wp_bind, wp_myproc, wp_getProc]
  refine wp_ite (fun _ => ?_) fun hlazy => ?_
  · refine wp_seq (wp_growproc h hk hr hsys hE (fun m hI hV hf => ?_) fun k' hI hS => ?_)
    · exact wp_ret (hn m hI hV hf)
    · exact wp_ret (hs k' hI hS)
  have hsame : Q none k := hn k.mem h (SameValid.of_same (SameLeaf.refl _ _)) (.inr (Grow.refl _))
  refine wp_ite (fun _ => wp_ret hsame) fun hge => wp_ite (fun _ => wp_ret hsame) fun hle => ?_
  have hn0 : 0 ≤ n := by
    by_contra hx
    exact hlazy (.inr (by omega))
  have hnew : newSz (k.procs k.sys.cur).sz n = addInt (k.procs k.sys.cur).sz n := by
    unfold newSz
    rw [if_neg (by omega)]
    omega
  have hb : newSz (k.procs k.sys.cur).sz n ≤ TRAPFRAME NPROC := by rw [hnew]; omega
  simp only [wp_bind, wp_setProc, wp_getProc, update_self]
  refine wp_update_sz hsys (wp_ret ?_)
  rw [resized_update hk.slot, ← hnew]
  obtain ⟨ρ, hI⟩ := h.mem
  refine hs _ (h.resize hk.slot hk.alive.1 hr hb hI (SameLeaf.tidy (SameLeaf.refl _ _)) ?_)
    ⟨rfl, rfl, rfl, hb, .inl ⟨hn0, rfl⟩⟩
  refine (h.user _ hk.slot r hr).mono ?_
  simp only [PGROUNDUP] at *
  lia

end

/-! ## `mmap` -/

omit [Image] in
theorem sweep_spec (x : Vma) : ∀ xs : List Vma, ((sweep x xs).1 :: (sweep x xs).2).Perm (x :: xs) ∧
    ∀ v ∈ (sweep x xs).2, (sweep x xs).1.addr ≤ v.addr := by
  intro xs
  induction xs generalizing x with
  | nil => exact ⟨Perm.refl _, fun v hv => by cases hv⟩
  | cons y ys ih =>
    unfold sweep
    split
    · rename_i hlt
      obtain ⟨hp, hle⟩ := ih y
      refine ⟨(Perm.swap ..).trans (hp.cons x), fun v hv => ?_⟩
      rcases mem_cons.mp hv with rfl | hv
      · -- the smallest is at most `y`, which is below `x`
        have hy : y ∈ (sweep y ys).1 :: (sweep y ys).2 := hp.symm.subset (mem_cons_self ..)
        rcases mem_cons.mp hy with he | hy
        · exact le_of_lt (he ▸ hlt)
        · exact le_trans (hle y hy) (le_of_lt hlt)
      · exact hle v hv
    · rename_i hge
      obtain ⟨hp, hle⟩ := ih x
      refine ⟨(Perm.swap ..).trans ((hp.cons y).trans (Perm.swap ..)), fun v hv => ?_⟩
      rcases mem_cons.mp hv with rfl | hv
      · have hx : x ∈ (sweep x ys).1 :: (sweep x ys).2 := hp.symm.subset (mem_cons_self ..)
        rcases mem_cons.mp hx with he | hx
        · rw [← he]; exact Nat.le_of_not_lt hge
        · exact le_trans (hle x hx) (Nat.le_of_not_lt hge)
      · exact hle v hv

omit [Image] in
theorem sortVmas_spec : ∀ (n : Nat) (xs : List Vma), xs.length ≤ n →
    (sortVmas n xs).Perm xs ∧ (sortVmas n xs).Pairwise fun u v => u.addr ≤ v.addr
  | 0, [], _ => ⟨Perm.refl _, List.Pairwise.nil⟩
  | n + 1, [], _ => ⟨Perm.refl _, List.Pairwise.nil⟩
  | n + 1, x :: xs, hn => by
    obtain ⟨hp, hle⟩ := sweep_spec x xs
    have hlen : (sweep x xs).2.length ≤ n := by
      have := hp.length_eq
      simp only [length_cons] at this hn
      omega
    obtain ⟨hp', hs⟩ := sortVmas_spec n (sweep x xs).2 hlen
    refine ⟨(hp'.cons _).trans hp, pairwise_cons.mpr ⟨fun v hv => hle v (hp'.subset hv), hs⟩⟩

abbrev Vma.stop (v : Vma) : Nat := (v.addr + v.len) % 2 ^ 64

def Misses (vs : List Vma) (addr len : Nat) : Prop := ∀ v ∈ vs, v.stop ≤ addr ∨ addr + len ≤ v.addr

section
omit [Image]

theorem gaps_spec (len : Nat) : ∀ (vs : List Vma) (cur best : Nat) {c b : Nat},
    (vs.Pairwise fun u v => u.addr ≤ v.addr) → gaps len vs cur best = (c, b) →
    cur ≤ c ∧ (∀ v ∈ vs, v.stop ≤ c) ∧ (b = best ∨ (cur ≤ b ∧ (∃ v ∈ vs, b + len = v.addr) ∧ Misses vs b len))
  | [], cur, best, c, b, _, hg => by
    cases hg
    exact ⟨le_rfl, fun v hv => absurd hv not_mem_nil, .inl rfl⟩
  | v :: vs, cur, best, c, b, hs, hg => by
    obtain ⟨hfirst, hs'⟩ := pairwise_cons.mp hs
    unfold gaps at hg
    dsimp only at hg
    generalize hb : (if cur < v.addr ∧ len ≤ v.addr - cur then v.addr - len else best) = best1 at hg
    generalize hc : (if cur < (v.addr + v.len) % 2 ^ 64 then (v.addr + v.len) % 2 ^ 64 else cur) = cur1 at hg
    have hcur : cur ≤ cur1 ∧ v.stop ≤ cur1 := by
      rw [← hc, Vma.stop]; split <;> omega
    obtain ⟨h1, h2, h3⟩ := gaps_spec len vs cur1 best1 hs' hg
    refine ⟨le_trans hcur.1 h1, fun u hu => ?_, ?_⟩
    · rcases mem_cons.mp hu with rfl | hu
      · exact le_trans hcur.2 h1
      · exact h2 u hu
    · rcases h3 with rfl | ⟨h3, ⟨u, hu, hue⟩, h4⟩
      · by_cases hgap : cur < v.addr ∧ len ≤ v.addr - cur
        · rw [if_pos hgap] at hb
          refine .inr ⟨by omega, ⟨v, mem_cons_self .., by omega⟩, fun u hu => .inr ?_⟩
          rcases mem_cons.mp hu with rfl | hu
          · omega
          · have := hfirst u hu; omega
        · rw [if_neg hgap] at hb
          exact .inl hb.symm
      · refine .inr ⟨by omega, ⟨u, mem_cons_of_mem _ hu, hue⟩, fun w hw => ?_⟩
        rcases mem_cons.mp hw with rfl | hw
        · exact .inl (le_trans hcur.2 h3)
        · exact h4 w hw

theorem Vma.Placed.stop_eq (h : v.Placed) : v.stop = v.addr + v.len := by
  have := h.2.2
  rw [Vma.stop]
  lia

theorem vma_find_addr_spec (hb : ∀ i < MAXVMA, (p.vmas i).used → (p.vmas i).Placed)
    (hlen : len % PGSIZE = 0) (h0 : vma_find_addr p len ≠ 0) :
    vma_find_addr p len % PGSIZE = 0 ∧ PGROUNDUP p.sz ≤ vma_find_addr p len ∧ vma_find_addr p len + len ≤ TRAPFRAME NPROC ∧
      ∀ j < MAXVMA, (p.vmas j).used → (p.vmas j).addr + (p.vmas j).len ≤ vma_find_addr p len ∨
        vma_find_addr p len + len ≤ (p.vmas j).addr := by
  unfold vma_find_addr at *
  dsimp only at *
  generalize hord : ((range MAXVMA).map p.vmas).filter (fun v => v.used) = ord at *
  obtain ⟨hp, hs⟩ := sortVmas_spec ord.length ord le_rfl
  -- a mapping in use is one of the list, and the list has no others
  have hin : ∀ j < MAXVMA, (p.vmas j).used → p.vmas j ∈ sortVmas ord.length ord := fun j hj hu => by
    refine hp.symm.subset ?_
    rw [← hord, List.mem_filter]
    exact ⟨List.mem_map.mpr ⟨j, mem_range.mpr hj, rfl⟩, hu⟩
  have hof : ∀ v ∈ sortVmas ord.length ord, v.Placed := fun v hv => by
    have hv' := hp.subset hv
    rw [← hord, List.mem_filter, List.mem_map] at hv'
    obtain ⟨⟨j, hj, rfl⟩, hu⟩ := hv'
    exact hb j (mem_range.mp hj) hu
  generalize hg : gaps len (sortVmas ord.length ord) (PGROUNDUP p.sz) 0 = cb at *
  obtain ⟨c, b⟩ := cb
  obtain ⟨h1, h2, h3⟩ := gaps_spec len _ _ _ hs hg
  by_cases hhigh : c < TRAPFRAME NPROC ∧ len ≤ TRAPFRAME NPROC - c
  · rw [if_pos hhigh]
    refine ⟨?_, by omega, by omega, fun j hj hu => .inl ?_⟩
    · lia
    · have := h2 _ (hin j hj hu)
      rw [(hb j hj hu).stop_eq] at this
      omega
  · rw [if_neg hhigh] at h0 ⊢
    obtain ⟨h3, ⟨v, hv, hve⟩, h4⟩ := h3.resolve_left h0
    obtain ⟨ha1, ha2, ha3⟩ := hof v hv
    refine ⟨by lia, h3, by omega, fun j hj hu => ?_⟩
    have := h4 _ (hin j hj hu)
    rwa [(hb j hj hu).stop_eq] at this

end

structure Mapped (k k' : Kernel) (i : Nat) (v : Vma) : Prop where
  leader : (k.procs k.sys.cur).tgid = (k.procs k.sys.cur).pid
  slot : i < MAXVMA
  free : ((k.procs k.sys.cur).vmas i).used = false
  used : v.used = true
  placed : v.Placed
  above : PGROUNDUP (k.procs k.sys.cur).sz ≤ v.addr
  apart : ∀ j < MAXVMA, ((k.procs k.sys.cur).vmas j).used = true →
    ((k.procs k.sys.cur).vmas j).addr + ((k.procs k.sys.cur).vmas j).len ≤ v.addr ∨
      v.addr + v.len ≤ ((k.procs k.sys.cur).vmas j).addr
  procs : k'.procs = update k.procs k.sys.cur ((k.procs k.sys.cur).setVma i v)
  mem : k'.mem = k.mem
  kpages : k'.kpages = k.kpages
  rel : SysRel k.sys k'.sys

theorem Inv.ownFiles (h : Inv W L k) (hk : Runs k) (hc : Core W L k')
    (hp : k'.procs = update k.procs k.sys.cur q)
    (hq : q = { k.procs k.sys.cur with ofile := q.ofile, vmas := q.vmas }) (hb : q.Bounded) (hs : SysRel k.sys k'.sys) :
    Inv W L k' := by
  have hself : k'.procs k.sys.cur = q := by rw [hp, update_self]
  have hother : ∀ {i}, i ≠ k.sys.cur → k'.procs i = k.procs i := fun hi => by rw [hp, update_of_ne hi]
  have hpar : ∀ i, (k'.procs i).parent = (k.procs i).parent := fun i => by
    rw [hp]; exact update_apply_congr Proc.parent (by rw [hq]) i
  have hcwd : ∀ i, (k'.procs i).cwd = (k.procs i).cwd := fun i => by
    rw [hp]; exact update_apply_congr Proc.cwd (by rw [hq]) i
  have hf := h.family
  refine ⟨hc, ?_, ⟨?_, ?_, ?_, ?_, fun i hi => by rw [hpar]; exact hf.self i hi⟩, fun i hi hl hd hne => ?_,
    hs.held.trans h.held⟩
  · refine (h.slots.files (fun i => ?_) (fun i hi hl => ?_) (fun i hi hd => ?_) fun i hi => ?_).rel hs <;>
      by_cases him : i = k.sys.cur
    · rw [him, hself, hq]; exact ⟨rfl, rfl, rfl, rfl, rfl, rfl, rfl⟩
    · rw [hother him]; exact Proc.Tied.refl _
    · exact absurd hk.alive.1 (him ▸ hl)
    · rw [hother him]; exact h.slots.unused i hi hl
    · exact absurd (him ▸ hd) hk.alive.2
    · rw [hother him]; exact h.slots.zombie i hi hd
    · rw [him, hself]; exact hb
    · rw [hother him]; exact h.slots.bounded i hi
  · rw [hs.initproc]; exact hf.slot
  · rw [hs.initproc, hs.live]; exact hf.live
  · rw [hs.initproc, hs.dead]; exact hf.alive
  · rw [hs.initproc, hpar]; exact hf.root
  · rw [hcwd]
    exact h.homed i hi ((hs.live i).mp hl) (fun hx => hd ((hs.dead i).mpr hx)) hne

omit [Image] in
theorem vma_alloc_slot_spec (h : vma_alloc_slot p = some i) : i < MAXVMA ∧ (p.vmas i).used = false := by
  exact ⟨mem_range.mp (mem_of_find?_eq_some h), by simpa using find?_some h⟩

theorem wp_sys_mmap {prot flags off : Nat} (h : Inv W L k) (hk : Runs k)
    (hn : Q none k) (hs : ∀ k' i v, Inv W L k' → Mapped k k' i v → Q (some v.addr) k') :
    wp (sys_mmap addr len prot flags fd off) Q Allowed k := by
  unfold sys_mmap
  simp only [wp_bind, wp_myproc, wp_get]
  have hno : wp (pure none : K (Option Nat)) Q Allowed k := wp_ret hn
  refine wp_ite (fun _ => hno) fun hlead => wp_ite (fun _ => hno) fun _ => wp_ite (fun _ => hno) fun _ =>
    wp_ite (fun _ => hno) fun _ => wp_ite (fun _ => hno) fun _ => ?_
  cases hfd : (k.procs k.sys.cur).fd fd with
  | none => exact hno
  | some f =>
    refine wp_ite (fun _ => hno) fun _ => wp_ite (fun _ => hno) fun _ => wp_ite (fun _ => hno) fun _ => ?_
    cases hidx : vma_alloc_slot (k.procs k.sys.cur) with
    | none => exact hno
    | some i =>
      refine wp_ite (fun _ => hno) fun h0 => ?_
      obtain ⟨hi, hfree⟩ := vma_alloc_slot_spec hidx
      obtain ⟨h1, h2, h3, h4⟩ := vma_find_addr_spec hk.bounded.vma (PGROUNDUP_mod len) h0
      generalize hv : (⟨true, vma_find_addr (k.procs k.sys.cur) (PGROUNDUP len), PGROUNDUP len, prot, flags, off,
        some f⟩ : Vma) = v
      have hpl : v.Placed := by rw [← hv]; exact ⟨h1, PGROUNDUP_mod len, h3⟩
      simp only [wp_bind]
      refine wp_filedup_core fun s hpos hset => ?_
      rw [wp_setProc, wp_pure]
      rw [show vma_find_addr (k.procs k.sys.cur) (PGROUNDUP len) = v.addr by rw [← hv]]
      have hrefs : ∀ g, ((k.procs k.sys.cur).setVma i v).refs g = plus (k.procs k.sys.cur).refs f g := fun g => by
        rw [refs_vma v hi hfree g]
        by_cases hg : g = f
        · rw [hg, plus_self, if_pos (by rw [← hv]; exact ⟨rfl, rfl⟩)]
        · rw [plus_of_ne _ hg, if_neg (by rw [← hv]; exact fun hx => hg (some.inj hx.2).symm)]; rfl
      have hbd : ((k.procs k.sys.cur).setVma i v).Bounded := by
        refine ⟨hk.bounded.sz, fun j hj hu => ?_⟩
        by_cases hji : j = i
        · simp only [Proc.setVma, hji, update_self]; exact hpl
        · simp only [Proc.setVma, update_of_ne hji] at hu ⊢
          exact hk.bounded.vma j hj hu
      have hc := h.toCore.dup (q := (k.procs k.sys.cur).setVma i v) hk.slot rfl rfl rfl hrefs rfl hpos hset
      refine hs _ i v (h.ownFiles hk hc rfl rfl hbd hset.toSysRel) ⟨(not_not.mp hlead).symm, hi, hfree,
        by rw [← hv], hpl, ?_, ?_, rfl, rfl, rfl, hset.toSysRel⟩ <;> rw [← hv]
      · exact h2
      · exact h4

/-! ## `munmap` -/

structure Trimmed (k k' : Kernel) : Prop where
  procs : k'.procs = update k.procs k.sys.cur { k.procs k.sys.cur with vmas := (k'.procs k.sys.cur).vmas }
  kpages : k'.kpages = k.kpages
  rel : SysRel k.sys k'.sys
  vmas : ∀ j < MAXVMA, ((k'.procs k.sys.cur).vmas j).used = true → ((k.procs k.sys.cur).vmas j).used = true ∧
    ((k.procs k.sys.cur).vmas j).addr ≤ ((k'.procs k.sys.cur).vmas j).addr ∧
    ((k'.procs k.sys.cur).vmas j).addr + ((k'.procs k.sys.cur).vmas j).len ≤
      ((k.procs k.sys.cur).vmas j).addr + ((k.procs k.sys.cur).vmas j).len ∧ ((k'.procs k.sys.cur).vmas j).Placed
  within : Within k k'
  covered : Covered k.mem (k.procs k.sys.cur) → Covered k'.mem (k'.procs k.sys.cur)

section
variable {k' k'' : Kernel}

omit [Image]

theorem Trimmed.refl (hk : Runs k) : Trimmed k k :=
  ⟨(update_eq_self ..).symm, rfl, SysRel.refl _,
    fun j hj hu => ⟨hu, le_rfl, le_rfl, hk.bounded.vma j hj hu⟩, Within.of_same fun _ _ _ _ => rfl, id⟩

section
variable (h : Trimmed k k')
include h

theorem Trimmed.self :
    k'.procs k.sys.cur = { k.procs k.sys.cur with vmas := (k'.procs k.sys.cur).vmas } := by
  have := congrFun h.procs k.sys.cur
  rwa [update_self] at this

theorem Trimmed.other (hi : i ≠ k.sys.cur) : k'.procs i = k.procs i := by
  rw [h.procs, update_of_ne hi]

theorem Trimmed.pagetable (i : Nat) : (k'.procs i).pagetable = (k.procs i).pagetable := by
  by_cases hi : i = k.sys.cur
  · rw [hi, h.self]
  · rw [h.other hi]

theorem Trimmed.runs (hk : Runs k) : Runs k' :=
  hk.rel h.rel ⟨by rw [h.self]; exact hk.bounded.sz, fun j hj hu => (h.vmas j hj hu).2.2.2⟩
    (by rw [h.pagetable]; exact hk.table)

theorem Trimmed.inCur (hk : Runs k) (hx : InCur k' r n) : InCur k r n := by
  obtain ⟨h1, h2⟩ := hx
  rw [h.rel.cur] at h1 h2
  refine ⟨by rw [← h.pagetable]; exact h1, h2.imp (fun hy => by rw [h.self] at hy; exact hy) fun hy => ?_⟩
  obtain ⟨j, hj, hc⟩ := vmaAt_isSome.mp hy
  refine vmaAt_isSome.mpr ⟨j, hj, ?_⟩
  simp only [Vma.covers, decide_eq_true_eq] at hc ⊢
  obtain ⟨h3, h4, h5, h6⟩ := h.vmas j hj hc.1
  have e1 := h6.stop_eq
  have e2 := (hk.bounded.vma j hj h3).stop_eq
  rw [Vma.stop] at e1 e2
  exact ⟨h3, by omega, by omega⟩

end

theorem Trimmed.trans (hk : Runs k) (h : Trimmed k k') (h' : Trimmed k' k'') : Trimmed k k'' := by
  have hcur := h.rel.cur
  have hp' := h'.procs
  have hv' := h'.vmas
  have hc' := h'.covered
  rw [hcur] at hp' hv' hc'
  refine ⟨?_, h'.kpages.trans h.kpages, h.rel.trans h'.rel, fun j hj hu => ?_, ?_, hc' ∘ h.covered⟩
  · rw [hp', h.procs, update_idem]
    simp only [update_self]
  · obtain ⟨a1, a2, a3, a4⟩ := hv' j hj hu
    obtain ⟨b1, b2, b3, -⟩ := h.vmas j hj a1
    exact ⟨b1, le_trans b2 a2, le_trans a3 b3, a4⟩
  · exact h.within.trans h'.within (fun r hr => by
      rw [tables_congr fun i _ => h'.pagetable i] at hr; exact hr) fun r n => h.inCur hk

end

/-- The bytes `lo` to `hi` are whole pages at one end of `v`. -/
structure Vma.EndPart (v : Vma) (lo hi : Nat) : Prop where
  low : lo % PGSIZE = 0
  high : hi % PGSIZE = 0
  addr : v.addr ≤ lo
  le : lo ≤ hi
  stop : hi ≤ v.stop
  part : ¬ (v.addr < lo ∧ hi < v.stop)

omit [Image] in
theorem Vma.cut_spec (hv : v.Placed) (he : v.EndPart lo hi) (hu : (v.cut lo hi).used) :
    v.addr ≤ (v.cut lo hi).addr ∧ (v.cut lo hi).addr + (v.cut lo hi).len ≤ v.addr + v.len ∧ (v.cut lo hi).Placed ∧
      (v.cut lo hi).used = v.used ∧ (v.cut lo hi).f = v.f := by
  have hs := hv.stop_eq
  obtain ⟨ha, hl, ht⟩ := hv
  obtain ⟨h1, h2, h3, h4, h5, hend⟩ := he
  rw [Vma.stop] at hs h5 hend
  unfold Vma.cut at *
  dsimp only at *
  split at hu
  · cases hu
  · rename_i hfull
    rw [if_neg hfull]
    split
    · refine ⟨by dsimp only; omega, by dsimp only; omega, ⟨h2, ?_, ?_⟩, rfl, rfl⟩
      · lia
      · dsimp only; omega
    · split
      · refine ⟨le_rfl, by dsimp only; omega, ⟨ha, ?_, ?_⟩, rfl, rfl⟩
        · lia
        · dsimp only; omega
      · omega

omit [Image] in
theorem Vma.cut_covers (hv : v.Placed) (he : v.EndPart lo hi) (hu : v.used)
    (hn : v.addr / 4096 ≤ n ∧ n < v.addr / 4096 + v.len / 4096)
    (hout : ¬ (lo / 4096 ≤ n ∧ n < lo / 4096 + (hi - lo) / PGSIZE)) :
    (v.cut lo hi).used ∧ (v.cut lo hi).addr / 4096 ≤ n ∧ n < (v.cut lo hi).addr / 4096 + (v.cut lo hi).len / 4096 := by
  have hs := hv.stop_eq
  obtain ⟨ha, hl, ht⟩ := hv
  obtain ⟨h1, h2, h3, h4, h5, hend⟩ := he
  rw [Vma.stop] at hs h5 hend
  unfold Vma.cut
  rw [hs] at h5 hend ⊢
  simp only [PGSIZE] at *
  by_cases hlo : lo = v.addr
  · by_cases hhi : hi = v.addr + v.len
    · omega
    · rw [if_neg fun hx => hhi hx.2, if_pos hlo]
      dsimp only
      exact ⟨hu, by omega, by omega⟩
  · have hhi : hi = v.addr + v.len := by omega
    rw [if_neg fun hx => hlo hx.1, if_neg hlo, if_pos hhi]
    dsimp only
    exact ⟨hu, by omega, by omega⟩

theorem Inv.trim (h : Inv W L k) (hk : Runs k) (hi' : i < MAXVMA)
    (hv : (k.procs k.sys.cur).vmas i = v) (hu : v.used) (hr : (k.procs k.sys.cur).pagetable = some r)
    (he : v.EndPart lo hi) (hs : SysRel k.sys s)
    (hq : q = (k.procs k.sys.cur).setVma i (v.cut lo hi))
    (hk' : k' = { k with sys := s, mem := m, procs := update k.procs k.sys.cur q }) (hc : Core W L k')
    (hun : Unmapped (tables k.procs) k m r (lo / 4096) ((hi - lo) / PGSIZE)) :
    Inv W L k' ∧ Trimmed k k' := by
  subst hk'
  have hpl : v.Placed := hv ▸ hk.bounded.vma i hi' (hv ▸ hu)
  have hat : ∀ j, q.vmas j = if j = i then v.cut lo hi else (k.procs k.sys.cur).vmas j := fun j => by
    rw [hq]; exact update_apply ..
  have hvmas : ∀ j < MAXVMA, (q.vmas j).used → ((k.procs k.sys.cur).vmas j).used ∧
      ((k.procs k.sys.cur).vmas j).addr ≤ (q.vmas j).addr ∧
      (q.vmas j).addr + (q.vmas j).len ≤ ((k.procs k.sys.cur).vmas j).addr + ((k.procs k.sys.cur).vmas j).len ∧
      (q.vmas j).Placed := fun j hj hx => by
    rw [hat j] at hx ⊢
    by_cases hji : j = i
    · rw [if_pos hji] at hx ⊢
      rw [hji, hv]
      obtain ⟨c1, c2, c3, -⟩ := Vma.cut_spec hpl he hx
      exact ⟨hu, c1, c2, c3⟩
    · rw [if_neg hji] at hx ⊢
      exact ⟨hx, le_rfl, le_rfl, hk.bounded.vma j hj hx⟩
  refine ⟨h.ownFiles hk hc (by rw [hq]) (by rw [hq]; rfl)
    ⟨by rw [hq]; exact hk.bounded.sz, fun j hj hx => (hvmas j hj hx).2.2.2⟩ hs, ?_, rfl, hs, ?_, ?_, fun hcov => ?_⟩
  · dsimp only
    rw [update_self, hq]
    rfl
  · dsimp only
    rw [update_self]
    exact hvmas
  · intro r' hr' n hn hx
    exact (hun r' ((tables_update (by rw [hq]; rfl)).subset hr') n hn hx).2
  · dsimp only
    rw [update_self]
    intro r' hr' n hn hx
    have hr'' : (k.procs k.sys.cur).pagetable = some r' := by rw [hq] at hr'; exact hr'
    obtain ⟨hout, hin⟩ := hun r' (mem_tables.mpr ⟨_, hk.slot, hr''⟩) n hn hx
    have hrr : r' = r := some.inj (hr''.symm.trans hr)
    have hown : (k.procs k.sys.cur).owns n := hin.elim (hcov r' hr'' n hn) fun hy => hy.owns hk.bounded
    rcases hown with hlt | ⟨j, hj, hju, hjn⟩
    · exact .inl (by rw [hq]; exact hlt)
    · refine .inr ⟨j, hj, ?_⟩
      rw [hat j]
      by_cases hji : j = i
      · rw [if_pos hji]
        rw [hji, hv] at hjn
        exact Vma.cut_covers hpl he hu hjn fun hy => hout ⟨hrr, hy⟩
      · rw [if_neg hji]
        exact ⟨hju, hjn⟩

inductive MunmapRound (k : Kernel) (addr stop i : Nat) : Option Bool → Kernel → Prop
  | skip (h : ((k.procs k.sys.cur).vmas i).used = false ∨ stop ≤ ((k.procs k.sys.cur).vmas i).addr ∨
      ((k.procs k.sys.cur).vmas i).stop ≤ addr) : MunmapRound k addr stop i (some false) k
  | inside (hu : ((k.procs k.sys.cur).vmas i).used = true)
      (h : ((k.procs k.sys.cur).vmas i).addr < addr ∧ stop < ((k.procs k.sys.cur).vmas i).stop) :
      MunmapRound k addr stop i none k
  | cut (v : Vma) (s : Sys) (m : Mem) (hv : (k.procs k.sys.cur).vmas i = v) (hu : v.used = true)
      (meets : ¬ (stop ≤ v.addr ∨ v.stop ≤ addr)) (endpart : ¬ (v.addr < max addr v.addr ∧ min stop v.stop < v.stop))
      (rel : SysRel k.sys s) (hm : ∀ r, (k.procs k.sys.cur).pagetable = some r →
        CutOut k.mem m (tables k.procs) r (max addr v.addr / 4096) (min stop v.stop / 4096) v.WritesBack) :
      MunmapRound k addr stop i (some true) { k with
        sys := s, mem := m, procs := update k.procs k.sys.cur
          ((k.procs k.sys.cur).setVma i (v.cut (max addr v.addr) (min stop v.stop))) }

theorem wp_munmapVma {stop : Nat} {Q : Option Bool → Kernel → Prop} (h : Inv W L k) (hk : Runs k)
    (hal : addr % PGSIZE = 0) (hstop : stop % PGSIZE = 0) (hle : addr ≤ stop) (hi : i < MAXVMA) (hsys : ∀ e, E (.sys e))
    (hQ : ∀ b k', Inv W L k' → Trimmed k k' → MunmapRound k addr stop i b k' → Q b k') :
    wp (munmapVma k.sys.cur addr stop i) Q E k := by
  unfold munmapVma
  simp only [wp_bind, wp_getProc]
  refine wp_ite (fun hu => wp_ret (hQ _ k h (Trimmed.refl hk) (.skip (.inl (by simpa using hu))))) fun hu => ?_
  replace hu : ((k.procs k.sys.cur).vmas i).used := by simpa using hu
  refine wp_ite (fun hov => wp_ret (hQ _ k h (Trimmed.refl hk) (.skip (.inr hov)))) fun hov => ?_
  refine wp_ite (fun hin => wp_ret (hQ _ k h (Trimmed.refl hk) (.inside hu ?_))) fun hend => ?_
  · unfold Vma.stop; omega
  have hpl := hk.bounded.vma i hi hu
  obtain ⟨r, hr⟩ := ne_none_iff_exists'.mp hk.table
  have hrefs := refs_unmap (p := k.procs k.sys.cur) hi
  generalize hv : (k.procs k.sys.cur).vmas i = v at hu hov hend hpl hrefs ⊢
  have hse := hpl.stop_eq
  obtain ⟨hpa, hpb, hpc⟩ := id hpl
  -- the part `[lo, hi)` of the mapping that goes
  have h3 : v.addr ≤ max addr v.addr := Nat.le_max_right ..
  have h5 : min stop v.stop ≤ v.stop := min_le_right ..
  have h4 : max addr v.addr ≤ min stop v.stop := by omega
  have h1 : max addr v.addr % PGSIZE = 0 := by rcases Nat.le_total addr v.addr with hx | hx <;> simp [hx, hal, hpa]
  have h2 : min stop v.stop % PGSIZE = 0 := by
    have : v.stop % PGSIZE = 0 := by rw [hse]; lia
    rcases Nat.le_total stop v.stop with hx | hx
    · rw [Nat.min_eq_left hx]; exact hstop
    · rw [Nat.min_eq_right hx]; exact this
  have hround := fun s m => MunmapRound.cut (i := i) v s m hv hu hov hend
  generalize max addr v.addr = lo at *
  generalize min stop v.stop = hi' at *
  simp only [wp_bind]
  refine wp_tableOf hr ?_
  refine wp_unmapRange h.toCore.on hk (Finset.Subset.refl _) (mem_tables.mpr ⟨_, hk.slot, hr⟩) h1 (by omega) ?_ hsys
    fun s m hc0 hM ht hun hcut => ?_
  · lia
  have hc1 := hc0.core h.toCore ht
  -- the entry changes once the pages are gone, and with the last of them the file is closed
  have hfin : ∀ s', SysRel k.sys s' → Core W L { k with
      sys := s', mem := m, procs := update k.procs k.sys.cur ((k.procs k.sys.cur).setVma i (v.cut lo hi')) } →
      Q (some true) { k with
        sys := s', mem := m, procs := update k.procs k.sys.cur ((k.procs k.sys.cur).setVma i (v.cut lo hi')) } :=
    fun s' hs' hc' => by
      obtain ⟨hI, hT⟩ := h.trim hk hi hv hu hr ⟨h1, h2, h3, h4, h5, hend⟩ hs' rfl rfl hc' hun
      refine hQ _ _ hI hT (hround s' m hs' fun r' hr' => ?_)
      obtain rfl := some.inj (hr.symm.trans hr')
      rwa [show lo / 4096 + (hi' - lo) / PGSIZE = hi' / 4096 by lia] at hcut
  by_cases hfull : lo = v.addr ∧ hi' = v.stop
  · rw [if_pos hfull]
    have hcut : v.cut lo hi' = Vma.zero := by unfold Vma.cut; rw [if_pos hfull]
    rw [hcut] at hfin ⊢
    cases hf : v.f with
    | none =>
      unfold closeOpt
      simp only [wp_onV, wp_pure, wp_setProc]
      refine hfin s hM.toSysRel (hc1.setProc hk.slot rfl rfl (fun r' hr' => hc1.user _ hk.slot r' hr') (fun g => ?_) rfl)
      have := hrefs g
      rw [hf, if_neg (by simp)] at this
      exact this.symm
    | some f =>
      refine wp_fileclose_core hc1.fs.pipe (hk.alive.rel hM.toSysRel) hsys fun s' hC => ?_
      rw [wp_setProc, wp_pure]
      refine hfin s' (hM.toSysRel.trans hC.toSysRel) (hc1.closed hk.slot rfl rfl rfl (fun g => ?_) rfl hC)
      have := hrefs g
      rw [this]
      by_cases hg : g = f
      · rw [hg, plus_self, if_pos ⟨hu, hf⟩]
      · rw [plus_of_ne _ hg, if_neg fun hx => hg (some.inj (hx.2.symm.trans hf))]; omega
  · rw [if_neg hfull]
    have hcut : (v.cut lo hi').used := by
      unfold Vma.cut
      rw [if_neg hfull]
      split
      · exact hu
      · split <;> exact hu
    obtain ⟨-, -, -, hcu, hcf⟩ := Vma.cut_spec hpl ⟨h1, h2, h3, h4, h5, hend⟩ hcut
    unfold closeOpt
    simp only [wp_onV, wp_pure, wp_setProc]
    refine hfin s hM.toSysRel (hc1.setProc hk.slot rfl rfl (fun r' hr' => hc1.user _ hk.slot r' hr')
      (fun g => refs_setVma ?_ ?_ g) rfl)
    · rw [hv]; exact hcu
    · rw [hv]; exact hcf

theorem wp_munmapLoop {stop : Nat} (hal : addr % PGSIZE = 0) (hstop : stop % PGSIZE = 0)
    (hle : addr ≤ stop) (hsys : ∀ e, E (.sys e)) : ∀ (n : Nat) {k : Kernel} {b : Bool} {Q : Bool → Kernel → Prop},
    n ≤ MAXVMA →
    Inv W L k → Runs k → (∀ b k', Inv W L k' → Trimmed k k' → Q b k') → wp (munmapLoop k.sys.cur addr stop n b) Q E k
  | 0, k, b, Q, _, h, hk, hQ => by
    rw [munmapLoop, wp_pure]
    exact hQ b k h (Trimmed.refl hk)
  | n + 1, k, b, Q, hn, h, hk, hQ => by
    rw [munmapLoop, wp_bind]
    refine wp_munmapVma h hk hal hstop hle (by omega) hsys fun c k1 h1 ht1 _ => ?_
    cases c with
    | none => exact wp_ret (hQ _ k1 h1 ht1)
    | some c =>
      rw [← ht1.rel.cur]
      exact wp_munmapLoop hal hstop hle hsys n (by omega) h1 (ht1.runs hk) fun b k2 h2 ht2 => hQ b k2 h2 (ht1.trans hk ht2)

theorem wp_sys_munmap {Q : Bool → Kernel → Prop} (h : Inv W L k) (hk : Runs k)
    (hsys : ∀ e, E (.sys e)) (hn : Q false k)
    (hQ : ∀ b k', Inv W L k' → Trimmed k k' → (k.procs k.sys.cur).tgid = (k.procs k.sys.cur).pid → Q b k') :
    wp (sys_munmap addr len) Q E k := by
  unfold sys_munmap proc_munmap
  simp only [wp_bind, wp_myproc, wp_getProc]
  refine wp_ite (fun _ => wp_ret hn) fun hlead => wp_ite (fun _ => wp_ret hn) fun hbad =>
    wp_ite (fun _ => wp_ret hn) fun hbad' => ?_
  obtain ⟨hal, -⟩ := not_or.mp hbad
  have hal : addr % PGSIZE = 0 := not_not.mp hal
  refine wp_munmapLoop hal ?_ ?_ hsys MAXVMA le_rfl h hk fun b k' hI ht => hQ b k' hI ht (not_not.mp hlead).symm
  · have := PGROUNDUP_mod len
    lia
  · omega

/-! ## Descriptors -/

structure Refiled (k k' : Kernel) : Prop where
  procs : k'.procs = update k.procs k.sys.cur { k.procs k.sys.cur with ofile := (k'.procs k.sys.cur).ofile }
  mem : k'.mem = k.mem
  kpages : k'.kpages = k.kpages
  rel : SysRel k.sys k'.sys

omit [Image] in
theorem Refiled.of_sys (hs : SysRel k.sys s) : Refiled k { k with sys := s } :=
  ⟨(update_eq_self ..).symm, rfl, rfl, hs⟩

omit [Image] in
theorem Refiled.of_set (hs : SysRel k.sys s) :
    Refiled k { k with sys := s, procs := update k.procs k.sys.cur { k.procs k.sys.cur with ofile := g } } := by
  refine ⟨?_, rfl, rfl, hs⟩
  dsimp only
  rw [update_self]

theorem Inv.refile (h : Inv W L k) (hk : Runs k) (hs : SysRel k.sys s)
    (hc : Core W L { k with sys := s, procs := update k.procs k.sys.cur { k.procs k.sys.cur with ofile := g } }) :
    Inv W L { k with sys := s, procs := update k.procs k.sys.cur { k.procs k.sys.cur with ofile := g } } :=
  h.ownFiles hk hc rfl rfl ⟨hk.bounded.sz, hk.bounded.vma⟩ hs

omit [Image] in
theorem fdalloc_spec (h : fdalloc p = some fd) : fd < NOFILE ∧ p.ofile fd = none := by
  exact ⟨mem_range.mp (mem_of_find?_eq_some h), by simpa using find?_some h⟩

omit [Image] in
theorem fd_spec (h : p.fd fd = some f) : fd < NOFILE ∧ p.ofile fd = some f := by
  unfold Proc.fd at h
  split at h
  · rename_i hlt
    exact ⟨hlt, h⟩
  · cases h

theorem wp_sys_dup (h : Inv W L k) (hk : Runs k)
    (hQ : ∀ o k', Inv W L k' → Refiled k k' → Q o k') : wp (sys_dup fd) Q Allowed k := by
  have hno : wp (pure none : K (Option Nat)) Q Allowed k := wp_ret (hQ none k h (Refiled.of_sys (SysRel.refl _)))
  unfold sys_dup
  simp only [wp_bind, wp_myproc, wp_getProc]
  cases hfd : (k.procs k.sys.cur).fd fd with
  | none => exact hno
  | some f =>
    cases hnew : fdalloc (k.procs k.sys.cur) with
    | none => exact hno
    | some fd' =>
      obtain ⟨hlt, h0⟩ := fdalloc_spec hnew
      simp only [wp_bind, wp_setProc]
      refine wp_filedup_core fun s hpos hset => wp_ret ?_
      have hc := h.toCore.dup (s := s) (q := { k.procs k.sys.cur with
        ofile := update (k.procs k.sys.cur).ofile fd' (some f) }) hk.slot rfl rfl rfl (refs_ofile hlt h0) rfl hpos
          ⟨hset.toSysRel, hset.file, hset.inode⟩
      exact hQ _ _ (h.refile hk hset.toSysRel hc) (Refiled.of_set hset.toSysRel)

theorem wp_sys_close {Q : Bool → Kernel → Prop} (h : Inv W L k) (hk : Runs k)
    (hQ : ∀ o k', Inv W L k' → Refiled k k' → Q o k') : wp (sys_close fd) Q Allowed k := by
  unfold sys_close
  simp only [wp_bind, wp_myproc, wp_getProc]
  cases hfd : (k.procs k.sys.cur).fd fd with
  | none => exact wp_ret (hQ _ k h (Refiled.of_sys (SysRel.refl _)))
  | some f =>
    obtain ⟨hlt, hf⟩ := fd_spec hfd
    simp only [wp_bind, wp_setProc]
    refine wp_fileclose_core h.fs.pipe hk.alive allowed_sys fun s hC => wp_ret ?_
    have hC' : Closed k.sys s f := hC
    have hc := h.toCore.closed (q := { k.procs k.sys.cur with
      ofile := update (k.procs k.sys.cur).ofile fd none }) hk.slot rfl rfl rfl (refs_ofile_none hlt hf) rfl hC'
    exact hQ _ _ (h.refile hk hC'.toSysRel hc) (Refiled.of_set hC'.toSysRel)

omit [Image] in
theorem wp_unlockPut {fr cr : Nat → Nat} {Q : Sys → Prop} {E : SysStop → Prop} (hA : Alive s) (hE : ∀ e, E e)
    (hfs : Fs W s fr (plus cr ip) (some ip)) (hQ : ∀ s', Fs W s' fr cr none → SysRel s s' → Q s') :
    wp (iunlock ip) (fun _ s1 => wp (iput ip) (fun _ s2 => wp end_op (fun _ s3 => Q s3) E s2) E s1) E s := by
  refine wp_iunlock (.inr ⟨hE _, hE _⟩) (.inr (hE _)) fun s1 h1 => ?_
  have hA1 := hA.rel h1.toSysRel
  refine wp_iput hA1 (.inr ⟨hE _, hE _⟩) (.inr ⟨⟨hE _, hE _⟩, .inl (hE _)⟩) fun s2 i h2 hi => ?_
  refine wp_end_op (hA1.rel h2.toSysRel) (.inr ⟨hE _, hE _⟩) (.inr (hE _)) fun s3 h3 => ?_
  exact hQ s3 (((hfs.iunlock h1).put h2 hi).still h3) ((h1.toSysRel.trans h2.toSysRel).trans h3.toSysRel)

theorem wp_giveUp {k0 : Kernel} (h : Inv W L k0) (hk : Runs k0)
    (hs : SysRel k0.sys s) (hfs : Fs W s (fileRefs k0.procs) (plus (cwdRefs k0.procs) ip) (some ip))
    (hQ : ∀ k', Inv W L k' → Refiled k0 k' → Q none k') : wp (sys_open.giveUp ip) Q Allowed { k0 with sys := s } := by
  unfold sys_open.giveUp
  simp only [wp_bind, wp_ksys, wp_pure]
  refine wp_unlockPut (hk.alive.rel hs) allowed_sys hfs fun s' hf' hr => ?_
  obtain ⟨ρ, hI⟩ := h.mem
  exact hQ _ (h.rel (h.toCore.step hI (SameLeaf.tidy (SameLeaf.refl _ _)) hf') (hs.trans hr)) (Refiled.of_sys (hs.trans hr))

theorem wp_sys_open {omode : Nat} (h : Inv W L k) (hk : Runs k)
    (hQ : ∀ o k', Inv W L k' → Refiled k k' → Q o k') : wp (sys_open ip omode) Q Allowed k := by
  unfold sys_open
  simp only [wp_bind, wp_myproc, wp_ksys]
  refine wp_begin_op hk.alive (.inr ⟨trivial, trivial⟩) fun s1 h1 _ => ?_
  refine wp_iget (.inr ⟨trivial, trivial⟩) fun s2 h2 => ?_
  have hA2 := (hk.alive.rel h1.toSysRel).rel h2.toSysRel
  have hf2 := (h.fs.still h1).iget h2
  refine wp_ilock hA2 (.inr ⟨trivial, trivial⟩) (.inr ⟨⟨trivial, trivial⟩, .inl trivial⟩) (.inr fun _ => trivial)
    fun s3 h3 _ hty => ?_
  obtain ⟨hf3, hty3⟩ := hf2.ilock h3 hty
  have hrel3 := (h1.toSysRel.trans h2.toSysRel).trans h3.toSysRel
  simp only [wp_get]
  refine wp_ite (fun _ => wp_giveUp h hk hrel3 hf3 (hQ none)) fun _ => ?_
  simp only [wp_bind, wp_ksys]
  refine wp_filealloc (.inr trivial) (fun s4 h4 => ?_) fun f s4 hlt hzero h4 => ?_
  · exact wp_giveUp h hk (hrel3.trans h4.toSysRel) (hf3.still h4) (hQ none)
  have hrel4 := hrel3.trans h4.toSysRel
  -- a free entry names no file
  have hnone : (s3.file f).type = .FD_NONE := (hf3.closed f).mp (by rw [← hf3.file f]; exact hzero)
  have hat4 : s4.file f = { s3.file f with ref := 1 } := h4.at
  cases hfd : fdalloc (k.procs k.sys.cur) with
  | none =>
    rw [wp_bind]
    refine wp_fileclose_core (fun g => ?_) (hk.alive.rel hrel4) allowed_sys fun s5 h5 => ?_
    · dsimp only
      rw [h4.file]
      by_cases hg : g = f
      · rw [hg, update_self]; dsimp only; rw [hnone]; simp
      · rw [update_of_ne hg]; exact hf3.pipe g
    · dsimp only at h5 ⊢
      refine wp_giveUp h hk (hrel4.trans h5.toSysRel) (hf3.congr ?_ ?_) (hQ none)
      · rw [h5.file, if_neg (by rw [hat4]; simp), hat4, h4.file, update_idem]
        refine (congrArg (update s3.file f) ?_).trans (update_eq_self ..)
        rw [← hnone]
        generalize s3.file f = x at hzero ⊢
        cases x
        cases hzero
        rfl
      · rcases h5.inode with hx | hx
        · exact hx.2.trans h4.inode
        · refine absurd ?_ hx.2.1
          rw [hat4]; exact hnone
  | some fd =>
    obtain ⟨hfd', h0⟩ := fdalloc_spec hfd
    simp only [wp_bind, wp_setProc, wp_ksys, wp_modify]
    -- the entry that was free gets its inode
    generalize hg : (fun x : File => ({ x with
      type := if (s3.inode ip).type = T_DEVICE then .FD_DEVICE else .FD_INODE
      ip := ip
      readable := ¬ test omode O_WRONLY
      writable := test omode O_WRONLY ∨ test omode O_RDWR } : File)) = g
    have h5 : FileSet s3 (s4.setFile f g) f (g { s3.file f with ref := 1 }) := by
      refine ⟨h4.toSysRel.trans (setFile_set f g).toSysRel, ?_, h4.inode⟩
      rw [(setFile_set f g).file, hat4, h4.file, update_idem]
    have htype : (g { s3.file f with ref := 1 }).type ≠ .FD_NONE ∧ (g { s3.file f with ref := 1 }).type ≠ .FD_PIPE := by
      rw [← hg]; dsimp only
      split <;> simp
    have hf5 := hf3.opened h5 hzero hlt (by rw [← hg]) htype.1 htype.2 (by rw [← hg]) hty3
    have hA5 := (hk.alive.rel hrel3).rel h5.toSysRel
    refine wp_iunlock (.inr ⟨trivial, trivial⟩) (.inr trivial) fun s6 h6 => ?_
    refine wp_end_op (hA5.rel h6.toSysRel) (.inr ⟨trivial, trivial⟩) (.inr trivial) fun s7 h7 => wp_ret ?_
    have hrel := ((hrel3.trans h5.toSysRel).trans h6.toSysRel).trans h7.toSysRel
    have hc := h.toCore.setFiles (s := s7) (q := { k.procs k.sys.cur with
      ofile := update (k.procs k.sys.cur).ofile fd (some f) }) hk.slot rfl rfl
      (fun r hr => h.user _ hk.slot r hr) (by
        rw [fileRefs_plus hk.slot (refs_ofile hfd' h0), cwdRefs_same (q := { k.procs k.sys.cur with
          ofile := update (k.procs k.sys.cur).ofile fd (some f) }) rfl]
        exact (hf5.iunlock h6).still h7)
    exact hQ _ _ (h.refile hk hrel hc) (Refiled.of_set hrel)

end Xv6
