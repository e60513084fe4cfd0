import Xv6.Change

/-!
# Thread groups

The processes that share a page table are a leader and its threads. The
group's table has the trap frames of its members and no others, and the
leader knows how many threads it has.
-/

namespace Xv6

open Hoare Function

section
variable [Image] {W : Prop} {L : Nat → Nat} {k : Kernel}

structure Groups (k : Kernel) : Prop where
  tgid : ∀ i < NPROC, ∀ j < NPROC, k.sys.live i → k.sys.live j → (k.procs i).pagetable = (k.procs j).pagetable →
    (k.procs i).tgid = (k.procs j).tgid ∧ (k.procs i).sz = (k.procs j).sz
  leader : ∀ i < NPROC, k.sys.live i → ∃ l < NPROC, k.sys.live l ∧ (k.procs l).pid = (k.procs l).tgid ∧
    (k.procs i).tgid = (k.procs l).pid ∧ (k.procs l).pagetable = (k.procs i).pagetable ∧
    (i ≠ l → (k.procs i).parent = some l ∧ (k.procs i).pid ≠ (k.procs i).tgid)
  frame : ∀ r ∈ tables k.procs, ∀ i < NPROC, (leaf k.mem r (framePage i)).has PTE_V = true ↔
    k.sys.live i ∧ (k.procs i).pagetable = some r
  own : ∀ r, ∀ i < NPROC, (k.procs i).pagetable = some r → ∃ a, (k.procs i).trapframe = some a ∧
    leaf k.mem r (framePage i) = mkPte a (PTE_R ||| PTE_W) ∧ PTE2PA (leaf k.mem r (framePage i)) = a
  count : ∀ l < NPROC, k.sys.live l → (k.procs l).pid = (k.procs l).tgid →
    (k.procs l).thread_count = 1 + (threads k.procs k.sys l : Int)

theorem Inv.groups (h : Inv W L k) : Groups k := by
  have htf : ∀ r, ∀ i < NPROC, (k.procs i).pagetable = some r → ∃ a, (k.procs i).trapframe = some a ∧
      leaf k.mem r (framePage i) = mkPte a (PTE_R ||| PTE_W) ∧ PTE2PA (leaf k.mem r (framePage i)) = a := by
    intro r i hi hr
    obtain ⟨a, ha⟩ := Option.ne_none_iff_exists'.mp (h.slots.used i hi (h.slots.live_of_table hi hr)).2.1
    have hf := (h.wired r (mem_tables.mpr ⟨i, hi, hr⟩)).frame i hi
    unfold Framed at hf
    rw [if_pos hr] at hf
    refine ⟨a, ha, hf a ha, ?_⟩
    rw [hf a ha]
    exact mkPte_pa (h.frame i hi a ha).paOk (by decide)
  refine ⟨fun i hi j hj hli hlj ht => ?_, fun i hi hl => ?_, fun r hr i hi => ?_, htf, fun l hl hll hp =>
    h.slots.count l hl hll hp.symm⟩
  · have htg := h.slots.same_group hi hj hli hlj ht
    exact ⟨htg, (h.slots.group hi hj hli hlj htg).2⟩
  · by_cases hlead : (k.procs i).tgid = (k.procs i).pid
    · exact ⟨i, hi, hl, hlead.symm, hlead, rfl, fun hx => absurd rfl hx⟩
    · obtain ⟨q, hq⟩ := h.slots.thread i hi hl hlead
      exact ⟨q, hq.slot, hq.live, hq.leader.symm, hq.group.symm, hq.pagetable, fun _ => ⟨hq.parent, Ne.symm hlead⟩⟩
  · constructor
    · intro hv
      by_contra hno
      have hne : (k.procs i).pagetable ≠ some r := fun hx => hno ⟨h.slots.live_of_table hi hx, hx⟩
      rw [h.toCore.unframed hi hr hne] at hv
      cases hv
    · rintro ⟨-, hx⟩
      obtain ⟨a, -, hl, -⟩ := htf r i hi hx
      rw [hl]
      exact mkPte_V _ _

/-- What `clone` relies on when it does not look at the result of `mappages`: `allocproc` has just made slot `np`. -/
def FrameFits (k : Kernel) : Prop := ∀ i np k₁ r, k.ready i → allocproc (k.switch i) = .ok (some np, k₁) →
  (k.procs i).pagetable = some r → ∃ tf m, (k₁.procs np).trapframe = some tf ∧
    mappages r (TRAPFRAME np) PGSIZE tf (PTE_R ||| PTE_W) k₁.mem = .ok (true, m)

theorem Inv.frameFits (h : Inv W L k) : FrameFits k := by
  intro i np k1 r hr hal hpt
  have hwp : wp allocproc (fun o k' => o = some np → ∃ r' tf, Core W L k' ∧ Made (k.switch i) k' np r' tf) Allowed
    (k.switch i) :=
    wp_allocproc (h.switch i).toCore (h.switch i).slots (fun _ _ _ hx => by cases hx) fun k' p r' tf hc hm hx =>
      ⟨r', tf, hc, Option.some.inj hx ▸ hm⟩
  obtain ⟨r', tf, hc, hm⟩ := wp_ok hwp hal rfl
  have he := (h.switch i).slots.unused np hm.slot hm.free
  have hmem : r ∈ tables k.procs := mem_tables.mpr ⟨i, hr.1, hpt⟩
  obtain ⟨ρ, hI⟩ := hc.mem
  obtain ⟨b, m, hrun, hb⟩ := wp_total (hm.wp_mapFrame (E := fun _ => False) (Q := fun b _ => b) he hc hmem
    (by rw [hm.tables_eq he]; exact Finset.mem_insert_of_mem hmem) hI fun _ _ _ => rfl)
  exact ⟨tf, m, by rw [hm.self], hb ▸ hrun⟩

/-- Whatever calls processes make after the kernel has booted, thread groups are in order, `exec` succeeds only for the one
process that uses its table, and the trap frame of a new thread can be mapped. -/
theorem thread_groups {c : Config} {k₀ : Kernel} {P : Nat × Op → Kernel → Prop} {tr : List ((Nat × Op) × Kernel)}
    (hb : Booted c k₀) (ht : Reaches P k₀ tr k) : Groups k ∧ FrameFits k ∧
    ∀ i path argv argc k', k.ready i → kexec path argv (k.switch i) = .ok (some argc, k') →
      ∀ j < NPROC, (k.procs j).pagetable = (k.procs i).pagetable → j = i := by
  obtain ⟨L, -, h⟩ := inv_of_reaches hb.inv ht
  refine ⟨h.groups, h.frameFits, fun i path argv argc k' hr hx => ?_⟩
  have hwp : wp (kexec path argv) (fun o _ => o ≠ none → Sole (k.switch i)) Allowed (k.switch i) :=
    wp_kexec (h.switch i) (h.runs_switch hr) fun _ _ _ hs => hs
  exact wp_ok hwp hx (by simp)

end

theorem thread_groups_clone : ∃ k₀ tr k, @Booted (lastPages 30) Config.small k₀ ∧
    @Reaches (lastPages 30) (fun _ _ => True) k₀ tr k ∧ (k.procs 0).thread_count = 2 ∧ (k.procs 0).sz = 5 ∧
    Groups k ∧ @FrameFits (lastPages 30) k := by
  obtain ⟨k₀, tr, k, hb, ht, hf⟩ := reaches_last Config.small_ok
    [(0, .clone 0 0 0), (1, .sbrk 5 false)]
    (fun _ k => decide ((k.procs 0).thread_count = 2 ∧ (k.procs 0).sz = 5)) (by decide +kernel)
  have hg := @thread_groups (lastPages 30) k Config.small k₀ (fun _ _ => True) tr hb ht
  have hf := of_decide_eq_true hf
  exact ⟨k₀, tr, k, hb, ht, hf.1, hf.2, hg.1, hg.2.1⟩

section
variable [Image] {W : Prop} {L : Nat → Nat} {k k' : Kernel}

structure OneSpace (k : Kernel) : Prop where
  owned : ∀ l < NPROC, k.sys.live l → (k.procs l).tgid = (k.procs l).pid → ∀ r, (k.procs l).pagetable = some r →
    ∀ n < 512 * 512 * 512, (leaf k.mem r n).has PTE_V = true → (leaf k.mem r n).has PTE_U = true → (k.procs l).owns n
  backed : ∀ l < NPROC, ∀ i < NPROC, k.sys.live l → k.sys.live i → (k.procs l).tgid = (k.procs l).pid →
    (k.procs i).tgid = (k.procs l).pid → ∀ va, (k.procs i).vmaAt va = (k.procs l).vmaAt va

structure Spaced (k : Kernel) : Prop where
  cover : ∀ l < NPROC, k.sys.live l → (k.procs l).tgid = (k.procs l).pid → Covered k.mem (k.procs l)
  vmas : ∀ l < NPROC, ∀ i < NPROC, k.sys.live l → k.sys.live i → (k.procs l).tgid = (k.procs l).pid →
    (k.procs i).tgid = (k.procs l).pid → (k.procs l).SameVmas (k.procs i)

section
omit [Image]
variable {p q : Proc}

theorem Proc.SameVmas.refl (p : Proc) : p.SameVmas p := fun _ _ => ⟨rfl, fun _ => rfl⟩

theorem Proc.SameVmas.covers (h : p.SameVmas q) (hj : j < MAXVMA) :
    (q.vmas j).covers va = (p.vmas j).covers va := by
  obtain ⟨hu, he⟩ := h j hj
  by_cases hp : (p.vmas j).used
  · rw [he hp]
  · simp [Vma.covers, hu, hp]

theorem Proc.SameVmas.vmaAt (h : p.SameVmas q) (va : Nat) : q.vmaAt va = p.vmaAt va := by
  have hlist : ∀ l : List Nat, (∀ j ∈ l, j < MAXVMA) →
      (l.map q.vmas).find? (fun v => v.covers va) = (l.map p.vmas).find? fun v => v.covers va := by
    intro l
    induction l with
    | nil => intro _; rfl
    | cons j l ih =>
      intro hl
      have hj := hl j List.mem_cons_self
      have hc : (q.vmas j).covers va = (p.vmas j).covers va := h.covers hj
      rw [List.map_cons, List.map_cons, List.find?_cons, List.find?_cons, hc, ih fun x hx =>
        hl x (List.mem_cons_of_mem _ hx)]
      cases hv : (p.vmas j).covers va with
      | false => rfl
      | true =>
        have hu : (p.vmas j).used := by simp [Vma.covers] at hv; exact hv.1
        rw [(h j hj).2 hu]
  exact hlist _ fun j hj => List.mem_range.mp hj

theorem Proc.SameVmas.owns (h : p.SameVmas q) (hs : q.sz = p.sz) (ho : q.owns n) : p.owns n := by
  rcases ho with hheap | ⟨j, hj, hu, hr⟩
  · exact .inl (hs ▸ hheap)
  · rw [h.eq hj hu] at hr
    exact .inr ⟨j, hj, (h j hj).1 ▸ hu, hr⟩

theorem Idle.spaced (h : Idle k) : Spaced k := by
  refine ⟨fun l hl hll _ r hr n hn hv => .inl ((h l hl hll).2 r hr n hn hv), fun l hl i hi hll hli _ _ j hj => ?_⟩
  have hp := (h l hl hll).1 j hj
  exact ⟨by rw [hp, (h i hi hli).1 j hj], fun hx => by rw [hp] at hx; cases hx⟩

end

theorem Spaced.oneSpace (h : Spaced k) (hinv : Inv W L k) : OneSpace k := by
  refine ⟨fun l hl hll hlead r hr n hn hv hu => ?_, fun l hl i hi hll hli hlead htg va =>
    (h.vmas l hl i hi hll hli hlead htg).vmaAt va⟩
  by_cases hlt : n < NUPAGE
  · exact h.cover l hl hll hlead r hr n hlt hv
  · have hk := (hinv.kern r (mem_tables.mpr ⟨l, hl, hr⟩) n (Nat.le_of_not_lt hlt) hn).1
    rw [hu] at hk
    cases hk

theorem Spaced.inCur (h : Spaced k) (hinv : Inv W L k) (hk : Runs k) (hl : l < NPROC)
    (hlead : (k.procs l).tgid = (k.procs l).pid) (hr : (k.procs l).pagetable = some r) (hx : InCur k r n) :
    (k.procs l).owns n := by
  have hll := hinv.slots.live_of_table hl hr
  have htg := hinv.slots.same_group hk.slot hl hk.alive.1 hll (hx.1.trans hr.symm)
  have hsz := (hinv.slots.group hk.slot hl hk.alive.1 hll htg).2
  exact (h.vmas l hl _ hk.slot hll hk.alive.1 hlead (htg.trans hlead)).owns hsz (hx.owns hk.bounded)

theorem Spaced.steady (h : Spaced k) (hinv : Inv W L k) (hk : Runs k) (hs : Steady k k') : Spaced k' := by
  refine ⟨fun l hl hll hlead r hr n hn hv => ?_, fun l hl i hi hll hli hlead htg => ?_⟩
  · have he := hs.procs l hll
    rw [he] at hlead hr ⊢
    have hmem : r ∈ tables k'.procs := mem_tables.mpr ⟨l, hl, by rw [he]; exact hr⟩
    rcases hs.within r hmem n hn hv with hold | hcur
    · exact h.cover l hl (hs.live l hll) hlead r hr n hn hold
    · exact h.inCur hinv hk hl hlead hr hcur
  · rw [hs.procs l hll] at hlead htg ⊢
    rw [hs.procs i hli] at htg ⊢
    exact h.vmas l hl i hi (hs.live l hll) (hs.live i hli) hlead htg

theorem Spaced.forked (h : Spaced k) (hinv' : Inv W L k') (hf : Forked k k' np) :
    Spaced k' := by
  have hlive : ∀ i, k'.sys.live i → i ≠ np → k.sys.live i := fun i hl hne => ((hf.born.live i).mp hl).resolve_right hne
  -- the child's table is new, so nobody else is in its group
  have hgroup : ∀ i < NPROC, k'.sys.live i → i ≠ np → (k'.procs i).tgid ≠ (k'.procs np).tgid := by
    intro i hi hl hne hx
    obtain ⟨r, -, hr, hnew, -⟩ := hf.table
    have hpt := (hinv'.slots.group hi hf.slot hl ((hf.born.live np).mpr (.inr rfl)) hx).1
    rw [hf.other i hne, hr] at hpt
    exact hnew (mem_tables.mpr ⟨i, hi, hpt⟩)
  refine ⟨fun l hl hll hlead r hr n hn hv => ?_, fun l hl i hi hll hli hlead htg => ?_⟩
  · by_cases hlp : l = np
    · rw [hlp] at hr ⊢
      refine .inl ?_
      rw [hf.sz]
      exact hf.heap r hr n hn hv
    · rw [hf.other l hlp] at hlead hr ⊢
      exact h.cover l hl (hlive l hll hlp) hlead r hr n hn (hf.valid r (mem_tables.mpr ⟨l, hl, hr⟩) n hn hv)
  · by_cases hlp : l = np
    · by_cases hip : i = np
      · rw [hlp, hip]
        exact Proc.SameVmas.refl _
      · rw [hlp] at htg hlead
        exact absurd (htg.trans hlead.symm) (hgroup i hi hli hip)
    · by_cases hip : i = np
      · rw [hip] at htg
        exact absurd (hlead.trans htg.symm) (hgroup l hl hll hlp)
      · rw [hf.other l hlp] at hlead htg ⊢
        rw [hf.other i hip] at htg ⊢
        exact h.vmas l hl i hi (hlive l hll hlp) (hlive i hli hip) hlead htg

theorem Spaced.cloned (h : Spaced k) (hinv : Inv W L k) (hk : Runs k) (hc : Cloned k k' np) : Spaced k' := by
  have hlive : ∀ i, k'.sys.live i → i ≠ np → k.sys.live i := fun i hl hne => ((hc.born.live i).mp hl).resolve_right hne
  have hother : ∀ i, i ≠ np → k'.procs i = { k.procs i with thread_count := (k'.procs i).thread_count } := by
    intro i hi
    by_cases hcur : i = k.sys.cur
    · rw [hcur, hc.self]
    · rw [hc.other i hi hcur]
  have hlnp : ∀ l < NPROC, k'.sys.live l → (k'.procs l).tgid = (k'.procs l).pid → l ≠ np := by
    rintro l - - hlead rfl
    have hlt := hinv.slots.tgid_lt hk.slot hk.alive.1
    rw [hc.tgid, hc.pid] at hlead
    omega
  refine ⟨fun l hl hll hlead r hr n hn hv => ?_, fun l hl i hi hll hli hlead htg => ?_⟩
  · have hne := hlnp l hl hll hlead
    rw [hother l hne] at hlead hr ⊢
    rw [hc.same r (mem_tables.mpr ⟨l, hl, hr⟩) n hn] at hv
    exact h.cover l hl (hlive l hll hne) hlead r hr n hn hv
  · have hne := hlnp l hl hll hlead
    rw [hother l hne] at hlead htg ⊢
    by_cases hip : i = np
    · -- the new thread has what the process that made it has, which leads the group
      have hpid : (k.procs l).pid = (k.procs k.sys.cur).pid := by rw [← htg, hip, hc.tgid, hc.leader]
      rw [hip, hinv.slots.pids l hl _ hk.slot (hlive l hll hne) hk.alive.1 hpid]
      exact hc.vmas
    · rw [hother i hip] at htg ⊢
      exact h.vmas l hl i hi (hlive l hll hne) (hlive i hli hip) hlead htg

theorem Spaced.sized (h : Spaced k) (hinv : Inv W L k) (hk : Runs k)
    (hr : (k.procs k.sys.cur).pagetable = some r) (hs : Sized k k' r z) : Spaced k' := by
  have hlive : ∀ i, k'.sys.live i → k.sys.live i := fun i hl => by rw [hs.sys] at hl; exact hl
  refine ⟨fun l hl hll hlead r' hr' n hn hv => ?_, fun l hl i hi hll hli hlead htg => ?_⟩
  · rw [hs.procs, resized_eq] at hlead hr' ⊢
    have hold : (leaf k.mem r' n).has PTE_V → (k.procs l).owns n :=
      h.cover l hl (hlive l hll) hlead r' hr' n hn
    have hval := hs.valid hk.bounded.sz (mem_tables.mpr ⟨l, hl, hr'⟩) hn hv
    by_cases htg : (k.procs l).tgid = (k.procs k.sys.cur).tgid
    · rw [if_pos ⟨hl, htg⟩]
      obtain ⟨hpt, hsz⟩ := hinv.slots.group hl hk.slot (hlive l hll) hk.alive.1 htg
      have hrr : r' = r := Option.some.inj (hr'.symm.trans (hpt.trans hr))
      rcases hval with ⟨-, hlt⟩ | ⟨hv', hcut⟩
      · exact .inl hlt
      · rcases hold hv' with hheap | hvma
        · rw [hsz] at hheap
          exact .inl (hcut hrr hheap)
        · exact .inr hvma
    · rw [if_neg fun hx => htg hx.2]
      have hne : r' ≠ r := fun hx =>
        htg (hinv.slots.same_group hl hk.slot (hlive l hll) hk.alive.1 (hr'.trans (hx ▸ hr.symm)))
      exact hold (hval.resolve_left fun hx => hne hx.1).1
  · rw [hs.procs, resized_eq, resized_eq] at htg ⊢
    rw [hs.procs, resized_eq] at hlead
    exact h.vmas l hl i hi (hlive l hll) (hlive i hli) hlead htg

def Unthreaded (k : Kernel) (i : Nat) : Prop := ∀ j < NPROC, k.sys.live j → (k.procs j).tgid = (k.procs i).pid → j = i

instance Unthreaded.decidable (k : Kernel) (i : Nat) : Decidable (Unthreaded k i) :=
  inferInstanceAs (Decidable (∀ j < NPROC, _ → _ → _))

omit [Image] in
theorem Spaced.own {q : Proc} (h : Spaced k) (hs : SysRel k.sys k'.sys)
    (hp : k'.procs = update k.procs k.sys.cur { k.procs k.sys.cur with vmas := q.vmas })
    (hlead : (k.procs k.sys.cur).tgid = (k.procs k.sys.cur).pid) (hu : Unthreaded k k.sys.cur)
    (hcur : Covered k'.mem (k'.procs k.sys.cur))
    (hw : ∀ l < NPROC, k.sys.live l → l ≠ k.sys.cur → (k.procs l).tgid = (k.procs l).pid → Covered k'.mem (k.procs l)) :
    Spaced k' := by
  have hother : ∀ i, i ≠ k.sys.cur → k'.procs i = k.procs i := fun i hi => by rw [hp, update_of_ne hi]
  have hself : k'.procs k.sys.cur = { k.procs k.sys.cur with vmas := q.vmas } := by rw [hp, update_self]
  refine ⟨fun l hl hll hll' => ?_, fun l hl i hi hll hli hll' htg => ?_⟩
  · by_cases hlc : l = k.sys.cur
    · rw [hlc]; exact hcur
    · rw [hother l hlc] at hll' ⊢
      exact hw l hl ((hs.live l).mp hll) hlc hll'
  · have hll := (hs.live l).mp hll
    have hli := (hs.live i).mp hli
    by_cases hlc : l = k.sys.cur
    · by_cases hic : i = k.sys.cur
      · rw [hlc, hic]
        exact Proc.SameVmas.refl _
      · rw [hlc, hself, hother i hic] at htg
        exact absurd (hu i hi hli htg) hic
    · rw [hother l hlc] at hll' htg ⊢
      by_cases hic : i = k.sys.cur
      · -- the caller leads its own group and no other
        rw [hic, hself] at htg
        exact absurd (hu l hl hll (hll'.trans (htg.symm.trans hlead))) hlc
      · rw [hother i hic] at htg ⊢
        exact h.vmas l hl i hi hll hli hll' htg

omit [Image] in
theorem Spaced.mapped {i : Nat} {v : Vma} (h : Spaced k) (hk : Runs k) (hu : Unthreaded k k.sys.cur) (hm : Mapped k k' i v) :
    Spaced k' := by
  refine h.own (q := (k.procs k.sys.cur).setVma i v) hm.rel hm.procs hm.leader hu ?_ fun l hl hll _ hlead => ?_
  · rw [hm.mem, hm.procs, update_self]
    intro r hr n hn hv
    rcases h.cover _ hk.slot hk.alive.1 hm.leader r hr n hn hv with hheap | ⟨j, hj, huj, hrj⟩
    · exact .inl hheap
    · have hne : j ≠ i := fun hx => by rw [hx, hm.free] at huj; cases huj
      refine .inr ⟨j, hj, ?_⟩
      rw [Proc.setVma]
      dsimp only
      rw [update_of_ne hne]
      exact ⟨huj, hrj⟩
  · rw [hm.mem]
    exact h.cover l hl hll hlead

theorem Spaced.trimmed (h : Spaced k) (hinv : Inv W L k) (hk : Runs k) (hu : Unthreaded k k.sys.cur)
    (hlead : (k.procs k.sys.cur).tgid = (k.procs k.sys.cur).pid) (ht : Trimmed k k') : Spaced k' := by
  refine h.own ht.rel ht.procs hlead hu (ht.covered (h.cover _ hk.slot hk.alive.1 hlead)) fun l hl hll hlc hll' => ?_
  intro r hr n hn hv
  have hmem : r ∈ tables k'.procs := mem_tables.mpr ⟨l, hl, by rw [ht.other hlc]; exact hr⟩
  rcases ht.within r hmem n hn hv with hold | hcur
  · exact h.cover l hl hll hll' r hr n hn hold
  · exact h.inCur hinv hk hl hll' hr hcur

/-- No `exec`, and mappings change only while their process has no threads. -/
def Tame (e : Nat × Op) (k : Kernel) : Prop :=
  match e.2 with
  | .exec .. => False
  | .mmap .. | .munmap .. => Unthreaded k e.1
  | _ => True

instance Tame.decidable (e : Nat × Op) (k : Kernel) : Decidable (Tame e k) := match e with
  | (_, .exec ..) => isFalse id
  | (i, .mmap ..) | (i, .munmap ..) => Unthreaded.decidable k i
  | (_, .fork) | (_, .exit _) | (_, .wait _) | (_, .sbrk ..) | (_, .fault ..) | (_, .opens ..) | (_, .dup _) | (_, .close _)
  | (_, .clone ..) | (_, .join) => isTrue trivial

theorem Spaced.step {op : Op} (h : Spaced k) (hinv : Inv W L k) (hinv' : Inv W L' k') (hr : k.ready i)
    (ht : Tame (i, op) k) (hc : op.Change (k.switch i) k') : Spaced k' := by
  have hs : Spaced (k.switch i) := ⟨h.cover, h.vmas⟩
  have hi := hinv.switch i
  have hk := hinv.runs_switch hr
  cases op with
  | exec => exact ht.elim
  | fork => exact hc.elim (hs.steady hi hk) fun ⟨np, hf⟩ => hs.forked hinv' hf
  | clone => exact hc.elim (hs.steady hi hk) fun ⟨np, hf⟩ => hs.cloned hi hk hf
  | sbrk => exact hc.elim (hs.steady hi hk) fun ⟨r, hpt, hz⟩ => hs.sized hi hk hpt hz
  | mmap => exact hc.elim (hs.steady hi hk) fun ⟨j, v, hm⟩ => hs.mapped hk ht hm
  | munmap => exact hc.elim (hs.steady hi hk) fun ⟨hm, hlead⟩ => hs.trimmed hi hk ht hlead hm
  | exit | wait | fault | opens | dup | close | join => exact hs.steady hi hk hc

theorem Spaced.wait (h : Spaced k) (hinv : Inv W L k) {i addr : Nat} (he : act i (.wait addr) k = .error e) :
    e ≠ .mem (.panic .freewalkLeaf) := by
  refine wp_error (Q := fun _ _ => True) (E := fun e => e ≠ .mem (.panic .freewalkLeaf)) ?_ he
  refine wp_act (fun _ => trivial) fun hr => ?_
  rw [Op.run, wp_bind]
  simp only [wp_pure]
  refine wp_kwait (hinv.switch i) (hinv.runs_switch hr) (fun _ => by simp) (fun hl => ?_) trivial
    (fun _ _ _ _ _ _ _ => trivial)
    fun _ _ _ _ => trivial
  obtain ⟨pp, hp, -, -, hlead, r, hpt, n, hn, hv, hno⟩ := hl
  exact absurd (h.cover pp hp (hinv.slots.live_of_table hp hpt) hlead r hpt n hn hv) hno

/-- As long as processes map and unmap only while they have no threads, a group's pages are its leader's. -/
theorem group_space {c : Config} {k₀ k₁ : Kernel} {P : Nat × Op → Kernel → Prop} {tr tr' : List ((Nat × Op) × Kernel)}
    (hb : Booted c k₀) (ht : Reaches P k₀ tr k₁) (hi : Idle k₁) (ht' : Reaches Tame k₁ tr' k) :
    OneSpace k ∧ ∀ i addr e, act i (.wait addr) k = .error e → e ≠ .mem (.panic .freewalkLeaf) := by
  obtain ⟨L, -, h₁⟩ := inv_of_reaches hb.inv ht
  obtain ⟨⟨L', h⟩, hs⟩ := reaches_change h₁ hi.spaced
    (fun i op k k' _ _ hp hr hx hx' hsp hc => hsp.step hx hx' hr hp hc) ht'
  exact ⟨hs.oneSpace h, fun i addr e he => hs.wait h he⟩

end

/-- A process maps a page, makes a thread and unmaps the page; the thread, which still has the mapping, touches it. -/
theorem thread_maps_page : ∃ k₀ tr k, @Booted (lastPages 30) Config.small k₀ ∧ Idle k₀ ∧
    @Reaches (lastPages 30) (fun _ _ => True) k₀ tr k ∧ ¬ OneSpace k ∧
    @act (lastPages 30) 0 (.wait 0) k = .error (.mem (.panic .freewalkLeaf)) := by
  obtain ⟨k₀, tr, k, hb, ht, hf⟩ := reaches_last Config.small_ok
    [(0, .fork), (1, .opens 2 2), (1, .mmap 0 4096 3 1 0 0), (1, .clone 0 0 0), (1, .munmap 274877632512 4096),
      (2, .fault 274877632512 true), (2, .exit 0), (1, .join), (1, .exit 0)]
    (fun _ k => decide (k.sys.live 1 ∧ (k.procs 1).tgid = (k.procs 1).pid ∧ (k.procs 1).sz = 0 ∧
        (∀ j < MAXVMA, ((k.procs 1).vmas j).used = false) ∧
        ∃ r ∈ (k.procs 1).pagetable, (leaf k.mem r (274877632512 / 4096)).has PTE_V = true ∧
          (leaf k.mem r (274877632512 / 4096)).has PTE_U = true) &&
      failsBy (@act (lastPages 30) 0 (.wait 0) k) (.mem (.panic .freewalkLeaf))) (by decide +kernel)
  obtain ⟨hd, hw⟩ := Bool.and_eq_true_iff.mp hf
  obtain ⟨hl, hlead, hsz, hno, r, hr, hv, hu⟩ := of_decide_eq_true hd
  refine ⟨k₀, tr, k, hb, @Booted.idle (lastPages 30) k₀ Config.small hb, ht, fun hs => ?_, of_failsBy hw⟩
  rcases hs.owned 1 (by decide) hl hlead r hr _ (by decide) hv hu with hheap | ⟨j, hj, hx, -⟩
  · rw [hsz] at hheap
    exact absurd hheap (by decide)
  · rw [hno j hj] at hx
    cases hx

theorem group_space_mapped : ∃ k₀ tr k, @Booted (lastPages 30) Config.small k₀ ∧ @Reaches (lastPages 30) Tame k₀ tr k ∧
    ((k.procs 2).vmas 0).used = true ∧ k.sys.live 2 ∧ OneSpace k := by
  obtain ⟨k₀, tr, k, hb, ht, hf⟩ := @reaches_of_runs (lastPages 30) Config.small Tame
    (fun e k => Tame.decidable e k)
    [(0, .fork), (1, .opens 2 2), (1, .mmap 0 4096 3 1 0 0), (1, .clone 0 0 0), (2, .fault 274877632512 true)]
    (fun _ k => decide (((k.procs 2).vmas 0).used = true ∧ k.sys.live 2)) Config.small_ok (by decide +kernel)
  have hf := of_decide_eq_true hf
  exact ⟨k₀, tr, k, hb, ht, hf.1, hf.2, (@group_space (lastPages 30) k Config.small k₀ k₀ (fun _ _ => True) [] tr hb
    Trace.start (@Booted.idle (lastPages 30) k₀ Config.small hb) ht).1⟩

end Xv6
