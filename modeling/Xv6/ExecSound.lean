import Xv6.MapSound
import Xv6.Exec

/-!
# What `exec` does

The new image is built in a table of its own, beside those of the processes;
`Loading` is what holds of it on the way. Only when all of it is there does
the process change over, and its old table is freed.
-/

namespace Xv6

open Hoare Function Option Finset

variable {ip tf : Nat} {s : Vs} {p : Proc}

section
variable [Image] {m₀ m m' : Mem} {R : Finset Nat} {ρ : Owners} {H : Nat → Int} {r sz : Nat}

structure Built (m₀ m : Mem) (R : Finset Nat) (H : Nat → Int) (r sz : Nat) : Prop where
  inv : ∃ ρ, MemInv m (insert r R) ρ H
  tidy : Tidy m₀ m (insert r R)
  same : SameValid m₀ m R
  bound : sz ≤ TRAPFRAME NPROC

structure Loading (m₀ m : Mem) (R : Finset Nat) (H : Nat → Int) (r sz : Nat) : Prop extends Built m₀ m R H r sz where
  size : sz ≤ PGROUNDUP sz
  room : PGROUNDUP sz + m.freelist.length * PGSIZE ≤ PHYSTOP

theorem MemInv.free_le (hI : MemInv m R ρ H) : m.freelist.length * PGSIZE ≤ PHYSTOP := by
  have hsub : m.freelist.toFinset ⊆ (range (PHYSTOP / PGSIZE)).image (· * PGSIZE) := by
    intro a ha
    obtain ⟨h1, -, h3⟩ := ((hI.freeIff a).mp (List.mem_toFinset.mp ha)).1
    refine mem_image.mpr ⟨a / PGSIZE, mem_range.mpr ?_, ?_⟩ <;> lia
  have hcard := (card_le_card hsub).trans card_image_le
  rw [List.toFinset_card_of_nodup hI.freeNodup, card_range] at hcard
  lia

theorem Loading.start (hI : MemInv m (insert r R) ρ H) : Loading m m R H r 0 where
  inv := ⟨ρ, hI⟩
  tidy := SameLeaf.tidy (SameLeaf.refl m _)
  same := SameValid.of_same (SameLeaf.refl m _)
  bound := Nat.zero_le _
  size := Nat.zero_le _
  room := by
    rw [show PGROUNDUP 0 = 0 from rfl, zero_add]
    exact hI.free_le

omit [Image] in
theorem SameValid.trans (h : SameValid m1 m2 R) (h' : SameValid m2 m3 R) : SameValid m1 m3 R := by
  intro r hr n hn
  rcases h' r hr n hn with he | ⟨h0, hv⟩
  · rw [he]; exact h r hr n hn
  · rcases h r hr n hn with he | he
    · rw [he] at hv; exact .inr ⟨h0, hv⟩
    · exact .inr ⟨h0, he.2⟩

theorem Built.step (h : Built m₀ m R H r sz) (hI : MemInv m' (insert r R) ρ H)
    (ht : Tidy m m' (insert r R)) (hs : SameValid m m' R) (hsz : sz' ≤ TRAPFRAME NPROC) : Built m₀ m' R H r sz' :=
  ⟨⟨ρ, hI⟩, h.tidy.trans ht, h.same.trans hs, hsz⟩

omit [Image] in
theorem SameValid.of_others (hr : r ∉ R) (h : ∀ r' ∈ insert r R, ∀ n < 512 * 512 * 512, r' ≠ r →
      leaf m' r' n = leaf m r' n) :
    SameValid m m' R := fun r' hr' n hn =>
  .inl (h r' (mem_insert_of_mem hr') n hn fun hx => hr (hx ▸ hr'))

theorem Loading.write (h : Loading m₀ m R H r sz) (pa i : Nat) (bs : List UInt8) :
    Loading m₀ (m.write pa i bs) R H r sz := by
  obtain ⟨ρ, hI⟩ := h.inv
  refine ⟨h.toBuilt.step (hI.congr rfl rfl rfl) (SameLeaf.tidy (SameLeaf.refl m _))
    (SameValid.of_same (SameLeaf.refl m _)) h.bound, h.size, ?_⟩
  exact h.room

theorem Loading.grow {perm : Pte} (h : Loading m₀ m R H r sz) (hr : r ∉ R) (hI : MemInv m' (insert r R) ρ H)
    (hG : Grown m m' (insert r R) r (PGROUNDUP sz / 4096) (rounds (PGROUNDUP sz) sz') perm)
    (hp : perm.has (PTE_R ||| PTE_W ||| PTE_X)) : Loading m₀ m' R H r sz' := by
  have hroom := h.room
  have hlen := hG.length
  -- the pages that were there for it bound the new size
  have hsz' : PGROUNDUP sz' + m'.freelist.length * PGSIZE ≤ PHYSTOP ∧ sz' ≤ PGROUNDUP sz' := by
    generalize hz : PGROUNDUP sz = z at *
    simp only [rounds, PGROUNDUP] at *; lia
  have hle : PHYSTOP ≤ TRAPFRAME NPROC := by decide
  refine ⟨h.toBuilt.step hI (hG.tidy ?_ hp)
    (SameValid.of_others hr fun r' hr' n hn hne => hG.old r' hr' n hn fun hx => hne hx.1) (by omega),
    hsz'.2, hsz'.1⟩
  generalize hz : PGROUNDUP sz = z at *
  simp only [rounds] at *; lia

theorem Loading.wp_uvmalloc {new : Nat} {perm : Pte} (h : Loading m₀ m R H r sz)
    (hr : r ∉ R) (hH : ∀ a, 0 ≤ H a) (hf : IsFlags perm) (hE : E (.panic .remap)) (hsmall : new < sz → Q sz m)
    (hs : ∀ m', sz ≤ new → Loading m₀ m' R H r new →
      Grown m m' (insert r R) r (PGROUNDUP sz / 4096) (rounds (PGROUNDUP sz) new) (PTE_R ||| PTE_U ||| perm) → Q new m')
    (hn : ∀ m', Built m₀ m' R H r sz → Q 0 m') : wp (uvmalloc r sz new perm) Q E m := by
  obtain ⟨ρ, hI⟩ := h.inv
  refine Xv6.wp_uvmalloc hI hH (mem_insert_self r R) hf (fun _ => hE) ?_ hsmall (fun m' ρ' hle hI' hG => ?_)
    fun m' ρ' _ hI' hV _ => hn m' ?_
  · have := h.room
    generalize hz : PGROUNDUP sz = z at *
    simp only [rounds] at *; lia
  · refine hs m' hle (h.grow hr hI' hG ?_) hG
    rw [has_or_right, has_or_right, PTE_R, has_or _ _ (by omega), has_or _ _ (by omega)]
    simp [Pte.has, flag]
  · exact h.toBuilt.step hI' hV.tidy (fun r' hr' => hV r' (mem_insert_of_mem hr')) h.bound

theorem wp_loadPage {va offset n i : Nat} (h : Loading m₀ s.mem R H r sz)
    (hA : Alive s.sys) (hQ : ∀ o s', Loading m₀ s'.mem R H r sz → Mild s.sys s'.sys → Q o s') :
    wp (loadPage r va ip offset n i) Q Allowed s := by
  unfold loadPage
  rw [wp_bind, wp_onMem, wp_walkaddr]
  split
  · exact wp_fail (by simp [Allowed])
  · rename_i pa _
    simp only [wp_bind, wp_onSys]
    refine wp_readi hA (.inr ⟨trivial, trivial⟩) (.inr ⟨trivial, trivial⟩) fun bs y i' hI hG _ _ _ => ?_
    simp only [wp_onMem, wp_writeBytes]
    have hload := h.write pa 0 bs
    exact wp_ite (fun _ => wp_ret (hQ _ _ hload (hI.mild hG.mild)))
      fun _ => wp_ret (hQ _ _ hload (hI.mild hG.mild))

theorem wp_loadseg {va offset n : Nat} (h : Loading m₀ s.mem R H r sz)
    (hA : Alive s.sys) (hQ : ∀ b s', Loading m₀ s'.mem R H r sz → Mild s.sys s'.sys → Q b s') :
    wp (loadseg r va ip offset n) Q Allowed s := by
  refine wp_seq (wp_search (fun _ s' => Loading m₀ s'.mem R H r sz ∧ Mild s.sys s'.sys) ⟨h, Mild.refl _⟩ ?_
    fun s' hs' => wp_ret (hQ _ s' hs'.1 hs'.2))
  intro j s1 _ _ h1
  refine wp_loadPage h1.1 (hA.rel h1.2.toSysRel) fun o s2 h2 hM => ?_
  cases o with
  | none => exact ⟨h2, h1.2.trans hM⟩
  | some u => exact wp_ret (hQ _ s2 h2 (h1.2.trans hM))

omit [Image] in
theorem isFlags_flags2perm (flags : Nat) : IsFlags (flags2perm flags) := by
  unfold flags2perm
  split <;> split <;> decide

theorem wp_loadOne (h : Loading m₀ s.mem R H r sz) (hr : r ∉ R)
    (hH : ∀ a, 0 ≤ H a) (hA : Alive s.sys)
    (hQ : ∀ sz' b s', Built m₀ s'.mem R H r sz' → (b = true → Loading m₀ s'.mem R H r sz') → Mild s.sys s'.sys →
      Q (sz', b) s') : wp (loadOne r ip off sz) Q Allowed s := by
  unfold loadOne
  simp only [wp_bind, wp_onSys]
  refine wp_readi hA (.inr ⟨trivial, trivial⟩) (.inr ⟨trivial, trivial⟩) fun bs y i' hI hG _ _ _ => ?_
  have hM := hI.mild hG.mild
  have hstop : ∀ b, wp (pure (sz, b)) Q Allowed { s with sys := y } := fun b => wp_ret (hQ sz b _ h.toBuilt (fun _ => h) hM)
  refine wp_ite (fun _ => hstop _) fun _ => wp_ite (fun _ => hstop _) fun _ => wp_ite (fun _ => hstop _) fun _ =>
    wp_ite (fun _ => hstop _) fun _ => wp_ite (fun _ => hstop _) fun _ => ?_
  -- the segment is loaded whatever size `uvmalloc` left
  have hgo : ∀ sz1 m1, Loading m₀ m1 R H r sz1 → wp (do
      let ok ← loadseg r (parsePh bs).vaddr ip ((parsePh bs).off % 2 ^ 32) ((parsePh bs).filesz % 2 ^ 32)
      return (sz1, ok)) Q Allowed ⟨y, m1⟩ := fun sz1 m1 h1 => by
    refine wp_seq (wp_loadseg h1 (hA.rel hM.toSysRel) fun b s2 h2 hM2 =>
      wp_ret (hQ _ _ _ h2.toBuilt (fun _ => h2) (hM.trans hM2)))
  simp only [wp_bind, wp_onMem]
  refine h.wp_uvmalloc hr hH (isFlags_flags2perm _) (by simp [Allowed]) (fun _ => ?_) (fun m1 hle h1 _ => ?_) fun m1 h1 => ?_
  · exact wp_ite (fun _ => hstop _) fun _ => hgo sz _ h
  · refine wp_ite (fun h0 => ?_) fun _ => hgo _ _ h1
    obtain rfl : sz = 0 := by omega
    exact wp_ret (hQ 0 _ _ (by rw [← h0]; exact h1.toBuilt) (by simp) hM)
  · rw [if_pos rfl]
    exact wp_ret (hQ sz _ _ h1 (by simp) hM)

theorem wp_loadAll (hr : r ∉ R) (hH : ∀ a, 0 ≤ H a) : ∀ (n : Nat) {off sz : Nat} {s : Vs} {Q : Nat × Bool → Vs → Prop},
    Loading m₀ s.mem R H r sz → Alive s.sys →
    (∀ sz' b s', Built m₀ s'.mem R H r sz' → (b = true → Loading m₀ s'.mem R H r sz') → Mild s.sys s'.sys → Q (sz', b) s') →
    wp (loadAll r ip n off sz) Q Allowed s
  | 0, off, sz, s, Q, h, _, hQ => by
    exact wp_ret (hQ sz true s h.toBuilt (fun _ => h) (Mild.refl _))
  | n + 1, off, sz, s, Q, h, hA, hQ => by
    rw [loadAll, wp_bind]
    refine wp_loadOne h hr hH hA fun sz1 b s1 h1 hb hM1 => ?_
    refine wp_ite (fun ht => ?_) fun _ => wp_ret (hQ _ _ _ h1 (by simp) hM1)
    exact wp_loadAll hr hH n (hb ht) (hA.rel hM1.toSysRel) fun sz2 b2 s2 h2 hb2 hM2 =>
      hQ sz2 b2 s2 h2 hb2 (hM1.trans hM2)

theorem Built.ran (h : Built m₀ s.mem R H r sz) (hr : r ∉ R)
    (hI : MemInv s'.mem (insert r R) ρ H) (hR : Ran p s s' (insert r R) r a bs) : Built m₀ s'.mem R H r sz :=
  h.step hI hR.touched.tidy
    (SameValid.of_others hr fun r' hr' n hn hne => (hR.touched r' hr' n hn).resolve_right fun hx => hne hx.1) h.bound

theorem wp_pushArgs {base : Nat} (hr : r ∉ R) : ∀ (argv : List (List UInt8)) {sp : Nat} {ustack : List Nat} {s : Vs}
    {ρ : Owners} {Q : Option (Nat × List Nat) → Vs → Prop}, UserOk p s (insert r R) ρ H r → Built m₀ s.mem R H r sz →
    (∀ o s' ρ', UserOk p s' (insert r R) ρ' H r → Built m₀ s'.mem R H r sz → Mild s.sys s'.sys → Q o s') →
    wp (pushArgs p r base argv sp ustack) Q Allowed s
  | [], sp, ustack, s, ρ, Q, hU, h, hQ => by
    exact wp_ret (hQ _ s ρ hU h (Mild.refl _))
  | arg :: rest, sp, ustack, s, ρ, Q, hU, h, hQ => by
    have hbad : wp (pure none) Q Allowed s := wp_ret (hQ none s ρ hU h (Mild.refl _))
    refine wp_ite (fun _ => hbad) fun _ => wp_ite (fun _ => hbad) fun _ => ?_
    refine wp_seq (wp_copyout hU (Unstopped.all allowed_sys _) fun ok l s1 ρ1 hU1 _ hR1 _ => ?_)
    have h1 := h.ran hr hU1.inv hR1
    refine wp_ite (fun _ => ?_) fun _ => wp_ret (hQ none s1 ρ1 hU1 h1 hR1.kept.mild)
    exact wp_pushArgs hr rest hU1 h1 fun o s2 ρ2 hU2 h2 hM => hQ o s2 ρ2 hU2 h2 (hR1.kept.mild.trans hM)

theorem Loading.roundup (h : Loading m₀ m R H r sz) : Loading m₀ m R H r (PGROUNDUP sz) := by
  have hb := PGROUNDUP_le h.bound
  have hmod := PGROUNDUP_mod sz
  have hup : PGROUNDUP (PGROUNDUP sz) = PGROUNDUP sz := by
    generalize PGROUNDUP sz = z at *
    simp only [PGROUNDUP] at *; lia
  exact ⟨⟨h.inv, h.tidy, h.same, hb⟩, by rw [hup], by rw [hup]; exact h.room⟩

omit [Image] in
theorem rwx_clearU (h : e.has (PTE_R ||| PTE_W ||| PTE_X)) :
    (e &&& ~~~PTE_U).has (PTE_R ||| PTE_W ||| PTE_X) := by
  rw [has_or_right, has_or_right, PTE_R, PTE_W, PTE_X] at h ⊢
  rw [PTE_U, has_andNot _ (by omega), has_andNot _ (by omega), has_andNot _ (by omega)]
  simpa using h

theorem Loading.guard (h : Loading m₀ m R H r z) (hr : r ∉ R) (hz : z % PGSIZE = 0)
    (hL : Loading m₀ m1 R H r (z + (USERSTACK + 1) * PGSIZE))
    (hG : Grown m m1 (insert r R) r (PGROUNDUP z / 4096) (rounds (PGROUNDUP z) (z + (USERSTACK + 1) * PGSIZE))
      (PTE_R ||| PTE_U ||| PTE_W)) (hQ : ∀ m2, Built m₀ m2 R H r (z + (USERSTACK + 1) * PGSIZE) → Q () m2) :
    wp (uvmclear r z) Q (fun e => Allowed (.mem e)) m1 := by
  obtain ⟨ρ, hI⟩ := hL.inv
  have hup : PGROUNDUP z = z := by
    have := h.bound
    simp only [PGROUNDUP] at *; lia
  rw [hup] at hG
  have hu : z / 4096 < NUPAGE := by
    have := hL.bound
    lia
  obtain ⟨-, pa, -, hl, -⟩ := hG.new (z / 4096) le_rfl (by simp only [rounds]; lia)
  refine wp_uvmclear hI (mem_insert_self r R) hu (fun _ => by simp [Allowed]) fun m2 hI2 hU _ => hQ m2 ?_
  refine hL.toBuilt.step hI2 (fun r' hr' n hn => ?_) (SameValid.of_others hr fun r' hr' n hn hne => ?_) hL.bound
  · rw [hU r' hr' n hn]
    by_cases hx : r' = r ∧ n = z / 4096
    · rw [if_pos hx, hl]
      exact .inr (.inr ⟨by rw [hx.2]; exact hu, rwx_clearU (by rw [mkPte_rwx]; decide)⟩)
    · rw [if_neg hx]
      exact .inl rfl
  · rw [hU r' hr' n hn, if_neg fun hx => hne hx.1]

theorem wp_execStack {argv : List (List UInt8)} (hr : r ∉ R)
    (hH : ∀ a, 0 ≤ H a) (hA : Alive s.sys) (hb : p.Bounded) (hk : KernOk m₀ (insert r R)) (h : Loading m₀ s.mem R H r sz)
    (hQ : ∀ sz' o s', Built m₀ s'.mem R H r sz' → Mild s.sys s'.sys → Q (sz', o) s') :
    wp (execStack p r sz argv) Q Allowed s := by
  have hz := h.roundup
  have hmod := PGROUNDUP_mod sz
  unfold execStack
  generalize PGROUNDUP sz = z at hz hmod ⊢
  have htop : (z + (USERSTACK + 1) * PGSIZE) % 2 ^ 64 = z + (USERSTACK + 1) * PGSIZE := by
    have := hz.bound
    lia
  simp only [wp_bind, wp_onMem, htop]
  refine hz.wp_uvmalloc hr hH (by decide) (by simp [Allowed]) (fun hlt => by omega) (fun m1 _ h1 hG => ?_)
    fun m1 h1 => ?_
  · rw [if_neg (by simp [USERSTACK])]
    simp only [wp_bind, wp_onMem, Nat.add_sub_cancel]
    refine hz.guard hr hmod h1 hG fun m2 h2 => ?_
    obtain ⟨ρ2, hI2⟩ := h2.inv
    have hU2 : UserOk p ⟨s.sys, m2⟩ (insert r R) ρ2 H r := ⟨hI2, hH, mem_insert_self r R, hb, hA, hk.tidy h2.tidy⟩
    refine wp_pushArgs hr argv hU2 h2 fun o s3 ρ3 hU3 h3 hM3 => ?_
    cases o with
    | none => exact wp_ret (hQ _ _ s3 h3 hM3)
    | some x =>
      refine wp_ite (fun _ => wp_ret (hQ _ _ s3 h3 hM3)) fun _ => ?_
      refine wp_seq (wp_copyout hU3 (Unstopped.all allowed_sys _) fun ok l s4 ρ4 hU4 _ hR4 _ => ?_)
      have h4 := h3.ran hr hU4.inv hR4
      exact wp_ite (fun _ => wp_ret (hQ _ _ s4 h4 (hM3.trans hR4.kept.mild)))
        fun _ => wp_ret (hQ _ _ s4 h4 (hM3.trans hR4.kept.mild))
  · rw [if_pos rfl]
    exact wp_ret (hQ _ _ _ h1 (Mild.refl _))

end

variable [Image] {W : Prop} {L : Nat → Nat} {k : Kernel}

omit [Image] in
theorem refs_unused (h : ∀ j < MAXVMA, (p.vmas j).used = false) (g : Nat) :
    ({ p with vmas := fun _ => Vma.zero } : Proc).refs g = p.refs g := by
  unfold Proc.refs
  congr 1
  exact Tally.count_congr fun j hj => by rw [h j hj]; simp [Vma.zero]

theorem Inv.renew {m₀ m5 : Mem} {s : Sys} {q : Proc} {ρ : Owners} {r old : Nat} (h : Inv W L k) (hk : Runs k)
    (hlead : (k.procs k.sys.cur).tgid = (k.procs k.sys.cur).pid)
    (hno : ∀ j < NPROC, k.sys.live j → (k.procs j).tgid = (k.procs k.sys.cur).pid → j = k.sys.cur)
    (hold : (k.procs k.sys.cur).pagetable = some old) (htf : (k.procs k.sys.cur).trapframe = some tf)
    (hr : r ∉ tables k.procs)
    (hS : SameLeaf k.mem m₀ (tables k.procs)) (hN : NewTable m₀ r k.sys.cur tf) (hq : q = { k.procs k.sys.cur with
      pagetable := some r, sz := q.sz, regs := q.regs, vmas := fun _ => Vma.zero }) (hsz : q.sz ≤ TRAPFRAME NPROC)
    (ht : Tidy m₀ m5 ((insert r (tables k.procs)).erase old))
    (hI : MemInv m5 ((insert r (tables k.procs)).erase old) ρ (heldBy L k)) (hs : SysRel k.sys s)
    (hfs : Fs W s (fileRefs (update k.procs k.sys.cur q)) (cwdRefs (update k.procs k.sys.cur q)) none) :
    Inv W L { k with sys := s, mem := m5, procs := update k.procs k.sys.cur q } := by
  have hlive : k.sys.live k.sys.cur := hk.alive.1
  have hone : ∀ i < NPROC, (k.procs i).pagetable = some old → i = k.sys.cur := fun i hi hx =>
    h.slots.alone hk.slot hi hlive hlead hno (hx.trans hold.symm)
  have hmold : old ∈ tables k.procs := mem_tables.mpr ⟨_, hk.slot, hold⟩
  have hqr : q.pagetable = some r := by rw [hq]
  have hqt : q.trapframe = (k.procs k.sys.cur).trapframe := by rw [hq]
  have htab := tables_swap hk.slot hold hqr hone hr
  have hrm : r ∈ (insert r (tables k.procs)).erase old :=
    mem_erase.mpr ⟨fun he => hr (he ▸ hmold), mem_insert_self ..⟩
  have hsub : ∀ r' ∈ tables k.procs ∩ tables (update k.procs k.sys.cur q),
      r' ∈ tables k.procs ∧ r' ∈ (insert r (tables k.procs)).erase old := fun r' hr' => by
    rw [htab] at hr'
    exact mem_inter.mp hr'
  have hheld : heldBy L { k with sys := s, mem := m5, procs := update k.procs k.sys.cur q } = heldBy L k := by
    funext a
    unfold heldBy frames
    simp only [update_apply_congr Proc.trapframe hqt]
  have htidy : Tidy k.mem m5 (tables k.procs ∩ tables (update k.procs k.sys.cur q)) := fun r' hr' n hn => by
    rw [← hS r' (hsub r' hr').1 n hn]
    exact ht r' (hsub r' hr').2 n hn
  have hbd : q.Bounded := ⟨hsz, fun j _ hu => by rw [hq] at hu; cases hu⟩
  refine ⟨h.toCore.change (p := k.sys.cur) (q := q) rfl (by dsimp only; rw [htab, hheld]; exact hI) htidy (fun r' hr' => ?_)
    (fun r' hr' _ => ?_) (fun r' hr' n hn hv => ?_) (fun a ha => h.frame _ hk.slot a (hqt ▸ ha))
    (h.toCore.own_update hk.slot fun a ha => .inl (hqt ▸ ha)) hfs, ?_, ?_, ?_, hs.held.trans h.held⟩
  · -- no other table has the trap frame of this slot
    have hne : r' ≠ r := by rintro rfl; exact hr (hsub r' hr').1
    have hne' : r' ≠ old := (mem_erase.mp (hsub r' hr').2).1
    unfold Framed
    rw [if_neg fun hx => hne (some.inj (hx.symm.trans hqr))]
    refine htidy.kernel_invalid hr' (framePage_user hk.slot) (framePage_lt _)
      (h.toCore.unframed hk.slot (hsub r' hr').1 fun hx => hne' ?_)
    exact some.inj (hx.symm.trans hold)
  · obtain rfl : r = r' := some.inj (hqr.symm.trans hr')
    refine ⟨hN.kern.tidy (ht.subset (singleton_subset_iff.mpr hrm)), Wired.tidy (hN.wired hk.slot ?_ fun i hi => ?_) hrm ht⟩
    · dsimp only
      rw [update_self, hqt]; exact htf
    · dsimp only
      by_cases hi' : i = k.sys.cur
      · rw [hi', update_self]; exact ⟨fun _ => rfl, fun _ => hqr⟩
      · rw [update_of_ne hi']
        exact ⟨fun hx => absurd (mem_tables.mpr ⟨i, hi, hx⟩) hr, fun hx => absurd hx hi'⟩
  · obtain rfl : r = r' := some.inj (hqr.symm.trans hr')
    have h0 := hN.leaf_user hk.slot hn
    rcases ht r hrm n (NUPAGE_lt hn) with he | he | he
    · rw [he, h0] at hv; simp at hv
    · rw [he.1] at hv; simp at hv
    · exact .inl he.2
  · refine ((h.slots.image hk.slot hlive hk.alive.2 hlead hno ?_ ?_ ?_ hqr hr hqt hbd).rel hs) <;> rw [hq]
  · have hf := h.family
    have hpar : ∀ i, (update k.procs k.sys.cur q i).parent = (k.procs i).parent :=
      update_apply_congr Proc.parent (by rw [hq])
    refine ⟨?_, ?_, ?_, ?_, fun i hi => ?_⟩ <;> dsimp only
    · rw [hs.initproc]; exact hf.slot
    · rw [hs.initproc]; exact (hs.live _).mpr hf.live
    · rw [hs.initproc]; exact fun hx => hf.alive ((hs.dead _).mp hx)
    · rw [hpar, hs.initproc]; exact hf.root
    · rw [hpar]; exact hf.self i hi
  · intro i hi hli hdi hne
    have hcwd : (update k.procs k.sys.cur q i).cwd = (k.procs i).cwd := update_apply_congr Proc.cwd (by rw [hq]) i
    rw [hcwd]
    exact h.homed i hi ((hs.live i).mp hli) (fun hx => hdi ((hs.dead i).mpr hx)) hne

theorem wp_execCommit {m₀ m : Mem} {s : Sys} {r sz entry sp : Nat} {Q : Unit → Kernel → Prop} (h : Inv W L k) (hk : Runs k)
    (hlead : (k.procs k.sys.cur).tgid = (k.procs k.sys.cur).pid)
    (hno : ∀ j < NPROC, k.sys.live j → (k.procs j).tgid = (k.procs k.sys.cur).pid → j = k.sys.cur)
    (htf : (k.procs k.sys.cur).trapframe = some tf) (hr : r ∉ tables k.procs) (hS : SameLeaf k.mem m₀ (tables k.procs))
    (hN : NewTable m₀ r k.sys.cur tf) (hkern : KernOk m₀ (insert r (tables k.procs)))
    (hB : Built m₀ m (tables k.procs) (heldBy L k) r sz) (hs : SysRel k.sys s)
    (hfs : Fs W s (fileRefs k.procs) (cwdRefs k.procs) none) (hQ : ∀ k', Inv W L k' → Q () k') :
    wp (execCommit k.sys.cur r sz entry sp) Q Allowed { k with sys := s, mem := m } := by
  obtain ⟨old, hold⟩ := ne_none_iff_exists'.mp hk.table
  obtain ⟨ρ, hI⟩ := hB.inv
  have hmold : old ∈ tables k.procs := mem_tables.mpr ⟨_, hk.slot, hold⟩
  unfold execCommit
  simp only [wp_bind, wp_getProc, wp_setProc]
  generalize hregs : ({ (k.procs k.sys.cur).regs with a1 := sp, epc := entry, sp := sp } : Trapframe) = regs
  generalize hq : ({ k.procs k.sys.cur with pagetable := some r, sz := sz, regs := regs } : Proc) = q
  generalize hk2 : ({ k with sys := s, mem := m, procs := update k.procs k.sys.cur q } : Kernel) = k2
  have hself : k2.procs k.sys.cur = q := by rw [← hk2]; exact update_self ..
  have hprocs : k2.procs = update k.procs k.sys.cur q := by rw [← hk2]
  have hmem : k2.mem = m := by rw [← hk2]
  have hsys : k2.sys = s := by rw [← hk2]
  have htrap : ∀ i, (k2.procs i).trapframe = (k.procs i).trapframe := by
    rw [hprocs]
    exact update_apply_congr Proc.trapframe (by rw [← hq])
  have hheld : heldBy L k2 = heldBy L k := by
    funext a
    unfold heldBy frames
    simp only [htrap, show k2.kpages = k.kpages by rw [← hk2]]
  have hc2 : CoreOn W L (insert r (tables k.procs)) k2 := by
    refine ⟨⟨ρ, by rw [hheld, hmem]; exact hI⟩, by rw [hmem]; exact hkern.tidy hB.tidy, ?_⟩
    rw [hsys, hprocs, fileRefs_same hk.slot fun f => by rw [← hq]; rfl, cwdRefs_same (by rw [← hq])]
    exact hfs
  have hb2 : (k2.procs k.sys.cur).Bounded := by rw [hself, ← hq]; exact ⟨hB.bound, hk.bounded.vma⟩
  have hrun2 : Runs k2 := by
    refine ⟨by rw [hsys]; exact hk.alive.rel hs, ?_, ?_, ?_⟩ <;> rw [hsys, hs.cur]
    · exact hk.slot
    · exact hb2
    · rw [hself, ← hq]; simp
  have hsub : tables k2.procs ⊆ insert r (tables k.procs) := fun x hx => by
    obtain ⟨i, hi, hix⟩ := mem_tables.mp hx
    by_cases hic : i = k.sys.cur
    · rw [hic, hself, ← hq] at hix
      rw [← some.inj hix]
      exact mem_insert_self ..
    · rw [hprocs, update_of_ne hic] at hix
      exact mem_insert_of_mem (mem_tables.mpr ⟨i, hi, hix⟩)
  refine wp_proc_unmap_vmas_on hc2 (.inl hrun2) hk.slot hsub hb2 (fun x hx => ?_) allowed_sys fun k3 hc3 he => ?_
  · rw [hold] at hx
    rw [← some.inj hx]
    exact mem_insert_of_mem hmold
  obtain ⟨ρ3, hI3⟩ := hc3.mem
  have hself3 : k3.procs k.sys.cur = { q with vmas := (k3.procs k.sys.cur).vmas } := hself ▸ he.self
  have hprocs3 : ∀ v, update k3.procs k.sys.cur { k3.procs k.sys.cur with vmas := v } =
      update k.procs k.sys.cur { q with vmas := v } := fun v => by
    rw [hself3, he.procs, update_idem, hprocs, update_idem]
  have hheld3 : heldBy L k3 = heldBy L k := by
    rw [← hheld]
    exact (owns_same he.procs rfl rfl he.kpages).2
  rw [hold]
  rw [wp_kmem]
  have hts : Tidy m₀ k3.mem (insert r (tables k.procs)) := hB.tidy.trans (hmem ▸ he.tidy)
  refine wp_proc_freepagetable hI3 (heldBy_nonneg L k3) (mem_insert_of_mem hmold) hk.slot hk.bounded.sz
    (fun n hn hge hv => ?_) (fun _ => by simp [Allowed]) fun m5 ρ5 hI5 hS5 _ => ?_
  · by_cases hu : n < NUPAGE
    · have hold' : TableOk m₀ old (k.procs k.sys.cur).sz := (h.user _ hk.slot old hold).tidy hmold hS.tidy
      exact (hold'.tidy (mem_insert_of_mem hmold) hts n hu hv).resolve_right (by omega)
    · exact (hc3.kern old (mem_insert_of_mem hmold) n (Nat.le_of_not_lt hu) hn).2.2 hv
  · have hrel : SysRel k.sys k3.sys := hs.trans (hsys ▸ he.rel)
    have hfin := @Inv.renew tf _ W L k m₀ m5 k3.sys _ _ r old h hk hlead hno hold htf hr hS hN
      (show ({ q with vmas := fun _ => Vma.zero } : Proc) = _ by rw [← hq]) (by rw [← hq]; exact hB.bound)
      ((hts.subset (erase_subset ..)).trans hS5.tidy) (by rw [← hheld3]; exact hI5) hrel ?_
    · have hkp : k3.kpages = k.kpages := he.kpages.trans (by rw [← hk2])
      refine hQ _ ?_
      rw [hprocs3, hkp]
      exact hfin
    · rw [← hprocs3, fileRefs_same hk.slot (refs_unused fun j hj => he.done j hj),
        cwdRefs_same (q := { k3.procs k.sys.cur with vmas := fun _ => Vma.zero }) rfl]
      exact hc3.fs

def Sole (k : Kernel) : Prop :=
  ∀ j < NPROC, (k.procs j).pagetable = (k.procs k.sys.cur).pagetable → j = k.sys.cur

theorem wp_dropImage {m₀ m : Mem} {s : Sys} {r sz : Nat} {Q : Unit → Kernel → Prop} (hk : Runs k) (hr : r ∉ tables k.procs)
    (hS : SameLeaf k.mem m₀ (tables k.procs)) (hN : NewTable m₀ r k.sys.cur tf)
    (hkern : KernOk m₀ (insert r (tables k.procs))) (hB : Built m₀ m (tables k.procs) (heldBy L k) r sz)
    (hQ : ∀ m' ρ', MemInv m' (tables k.procs) ρ' (heldBy L k) → Tidy k.mem m' (tables k.procs) →
      Q () { k with sys := s, mem := m' }) :
    wp (kmem (proc_freepagetable r sz k.sys.cur)) Q Allowed { k with sys := s, mem := m } := by
  obtain ⟨ρ, hI⟩ := hB.inv
  have hmem := mem_insert_self r (tables k.procs)
  rw [wp_kmem]
  refine wp_proc_freepagetable hI (heldBy_nonneg L k) hmem hk.slot hB.bound (fun n hn _ hv => ?_)
    (fun _ => by simp [Allowed])
    fun m' ρ' hI' hS' _ => ?_
  · by_cases hu : n < NUPAGE
    · rcases hB.tidy r hmem n hn with he | he | he
      · rw [he, hN.leaf_user hk.slot hu] at hv; simp at hv
      · rw [he.1] at hv; simp at hv
      · exact he.2
    · exact (hkern.tidy hB.tidy r hmem n (Nat.le_of_not_lt hu) hn).2.2 hv
  · rw [erase_insert hr] at hI' hS'
    exact hQ m' ρ' hI' ((hS.tidy.trans (hB.tidy.subset (subset_insert ..))).trans hS'.tidy)

theorem wp_kexec {path : Option Nat} {argv : List (List UInt8)} (h : Inv W L k) (hk : Runs k)
    (hQ : ∀ o k', Inv W L k' → (o ≠ none → Sole k) → Q o k') : wp (kexec path argv) Q Allowed k := by
  obtain ⟨ρ, hI⟩ := h.mem
  obtain ⟨tf, htf⟩ := ne_none_iff_exists'.mp (h.slots.used _ hk.slot hk.alive.1).2.1
  -- a call that fails leaves memory and files in order
  have hend : ∀ {s m ρ'}, SysRel k.sys s → MemInv m (tables k.procs) ρ' (heldBy L k) → Tidy k.mem m (tables k.procs) →
      Fs W s (fileRefs k.procs) (cwdRefs k.procs) none → Q none { k with sys := s, mem := m } := fun hs hI' ht hf =>
    hQ none _ (h.rel (h.toCore.step hI' ht hf) hs) (by simp)
  have hsame := SameLeaf.tidy (SameLeaf.refl k.mem (tables k.procs))
  unfold kexec
  simp only [wp_bind, wp_myproc, wp_getProc]
  refine wp_ite (fun _ => wp_ret (hQ none k h (by simp))) fun hone => ?_
  obtain ⟨hlead, hcnt⟩ := not_or.mp hone
  replace hlead : (k.procs k.sys.cur).tgid = (k.procs k.sys.cur).pid := (not_not.mp hlead).symm
  have hno := h.slots.alone_of_count hk.slot hk.alive.1 hlead (not_lt.mp hcnt)
  simp only [wp_bind, wp_ksys]
  refine wp_begin_op hk.alive (.inr ⟨trivial, trivial⟩) fun s1 h1 _ => ?_
  have hA1 := hk.alive.rel h1.toSysRel
  cases path with
  | none =>
    simp only [wp_bind, wp_ksys]
    refine wp_end_op hA1 (.inr ⟨trivial, trivial⟩) (.inr trivial) fun s2 h2 => wp_ret ?_
    exact hend (h1.toSysRel.trans h2.toSysRel) hI hsame ((h.fs.still h1).still h2)
  | some ip =>
    simp only [wp_bind, wp_ksys]
    refine wp_iget (.inr ⟨trivial, trivial⟩) fun s2 h2 => ?_
    have hA2 := hA1.rel h2.toSysRel
    refine wp_ilock hA2 (.inr ⟨trivial, trivial⟩) (.inr ⟨⟨trivial, trivial⟩, .inl trivial⟩) (.inr fun _ => trivial)
      fun s3 h3 _ hty => ?_
    have hA3 := hA2.rel h3.toSysRel
    have hf3 := (((h.fs.still h1).iget h2).ilock h3 hty).1
    refine wp_readi hA3 (.inr ⟨trivial, trivial⟩) (.inr ⟨trivial, trivial⟩) fun elf s4 i4 hI4 hG4 _ _ _ => ?_
    have hM4 := hI4.mild hG4.mild
    have hrel4 := ((h1.toSysRel.trans h2.toSysRel).trans h3.toSysRel).trans hM4.toSysRel
    have hf4 := hf3.mild hM4
    -- the inode is let go once the file was read
    have hclose : ∀ {s} {R : Sys → Prop}, Mild s4 s →
        (∀ s', Fs W s' (fileRefs k.procs) (cwdRefs k.procs) none → SysRel k.sys s' → R s') →
        wp (closeExec ip) (fun _ s' => R s') (fun e => Allowed (.sys e)) s := by
      intro s R hM hR
      unfold closeExec
      simp only [wp_bind]
      exact wp_unlockPut ((hA3.rel hM4.toSysRel).rel hM.toSysRel) allowed_sys (hf4.mild hM) fun s' hf' hr =>
        hR s' hf' ((hrel4.trans hM.toSysRel).trans hr)
    refine wp_ite (fun _ => ?_) fun _ => ?_
    · simp only [wp_bind, wp_ksys]
      refine hclose (Mild.refl s4) fun s' hf' hr => wp_ret (hend hr hI hsame hf')
    simp only [wp_bind, wp_kmem, htf, getD_some]
    refine wp_proc_pagetable hI (heldBy_nonneg L k) hk.slot (fun m' ρ' hI' hS' _ => ?_)
      fun m₀ ρ0 r hr _ hI0 hS0 _ hN => ?_
    · simp only [wp_bind, wp_ksys]
      refine hclose (Mild.refl s4) fun s' hf' hr => wp_ret (hend hr hI' hS'.tidy hf')
    have hkern : KernOk m₀ (insert r (tables k.procs)) := fun x hx => by
      rcases mem_insert.mp hx with rfl | hx
      · exact hN.kern x (mem_singleton_self x)
      · exact h.kern.tidy hS0.tidy x hx
    simp only [wp_bind, wp_onV]
    refine wp_loadAll hr (heldBy_nonneg L k) _ (Loading.start hI0) (hA3.rel hM4.toSysRel) fun sz ok s5 hB5 hL5 hM5 => ?_
    refine wp_ite (fun _ => ?_) fun hok => ?_
    · refine wp_seq (wp_dropImage hk hr hS0 hN hkern hB5 fun m' ρ' hI' ht' => ?_)
      simp only [wp_bind, wp_ksys]
      refine hclose hM5 fun s' hf' hrel => wp_ret (hend hrel hI' ht' hf')
    simp only [wp_bind, wp_ksys, wp_onV]
    refine hclose hM5 fun s6 hf6 hrel6 => ?_
    refine wp_execStack hr (heldBy_nonneg L k) (hk.alive.rel hrel6) hk.bounded hkern (hL5 (not_not.mp hok))
      fun sz' o s7 hB7 hM7 => ?_
    cases o with
    | none =>
      refine wp_seq (wp_dropImage hk hr hS0 hN hkern hB7 fun m' ρ' hI' ht' => wp_ret ?_)
      exact hend (hrel6.trans hM7.toSysRel) hI' ht' (hf6.mild hM7)
    | some x =>
      refine wp_seq (wp_execCommit h hk hlead hno htf hr hS0 hN hkern hB7 (hrel6.trans hM7.toSysRel) (hf6.mild hM7)
        fun k' hk' => wp_ret (hQ _ k' hk' fun _ j hj hx => ?_))
      exact h.slots.alone hk.slot hj hk.alive.1 hlead hno hx

end Xv6
