import Xv6.FaultSound
import Xv6.Proc

/-!
# The process table

`Slots` is what holds of the process table between calls: which slots own
which page tables and files, and how threads belong to their leaders.
-/

namespace Xv6

open Function

def tables (procs : Nat → Proc) : Finset Nat := ((Finset.range NPROC).image fun i => (procs i).pagetable).eraseNone

theorem mem_tables {procs : Nat → Proc} : r ∈ tables procs ↔ ∃ i < NPROC, (procs i).pagetable = some r := by
  simp [tables]

structure Proc.Empty (p : Proc) : Prop where
  pagetable : p.pagetable = none
  trapframe : p.trapframe = none
  parent : p.parent = none
  cwd : p.cwd = none
  ofile : ∀ fd < NOFILE, p.ofile fd = none
  vmas : ∀ i < MAXVMA, (p.vmas i).used = false

def Sys.live (s : Sys) (i : Nat) : Prop := (s.run i).state ≠ .UNUSED

def Sys.dead (s : Sys) (i : Nat) : Prop := (s.run i).state = .ZOMBIE

instance (s : Sys) (i : Nat) : Decidable (s.live i) := inferInstanceAs (Decidable (_ ≠ _))

structure Leads (procs : Nat → Proc) (s : Sys) (q i : Nat) : Prop where
  slot : q < NPROC
  parent : (procs i).parent = some q
  live : s.live q
  alive : ¬ s.dead q
  leader : (procs q).tgid = (procs q).pid
  group : (procs q).pid = (procs i).tgid
  pagetable : (procs q).pagetable = (procs i).pagetable
  sz : (procs q).sz = (procs i).sz

def threads (procs : Nat → Proc) (s : Sys) (i : Nat) : Nat :=
  Nat.count (fun j => s.live j ∧ (procs j).tgid = (procs i).pid ∧ j ≠ i) NPROC

structure Slots (procs : Nat → Proc) (s : Sys) : Prop where
  unused : ∀ i < NPROC, ¬ s.live i → (procs i).Empty
  used : ∀ i < NPROC, s.live i → (procs i).pagetable ≠ none ∧ (procs i).trapframe ≠ none ∧ (procs i).pid < s.nextpid
  zombie : ∀ i < NPROC, s.dead i → (∀ fd < NOFILE, (procs i).ofile fd = none) ∧ (procs i).cwd = none
  bounded : ∀ i < NPROC, (procs i).Bounded
  pids : ∀ i < NPROC, ∀ j < NPROC, s.live i → s.live j → (procs i).pid = (procs j).pid → i = j
  lead : ∀ i < NPROC, ∀ j < NPROC, s.live i → s.live j → (procs i).tgid = (procs i).pid → (procs j).tgid = (procs j).pid →
    (procs i).pagetable = (procs j).pagetable → i = j
  thread : ∀ i < NPROC, s.live i → (procs i).tgid ≠ (procs i).pid → ∃ q, Leads procs s q i
  count : ∀ i < NPROC, s.live i → (procs i).tgid = (procs i).pid → (procs i).thread_count = 1 + (threads procs s i : Int)

variable {procs procs' : Nat → Proc} {s s' : Sys} {i p : Nat} {q : Proc}

theorem SysRel.live (h : SysRel s s') (i : Nat) : s'.live i ↔ s.live i := not_congr (h.unused i)

theorem SysRel.dead (h : SysRel s s') (i : Nat) : s'.dead i ↔ s.dead i := h.zombie i

theorem threads_congr (hl : ∀ j, s'.live j ↔ s.live j) (ht : ∀ j < NPROC, s.live j → (procs' j).tgid = (procs j).tgid)
    (hp : (procs' i).pid = (procs i).pid) : threads procs' s' i = threads procs s i := by
  refine Tally.count_congr fun j hj => ?_
  rw [hl j, hp]
  exact and_congr_right fun hlj => by rw [ht j hj hlj]

theorem Slots.keep (h : Slots procs s) (hl : ∀ i, s'.live i → s.live i) (hn : s.nextpid ≤ s'.nextpid)
    (hu : ∀ i < NPROC, ¬ s'.live i → (procs' i).Empty)
    (hz : ∀ i < NPROC, s'.dead i → (∀ fd < NOFILE, (procs' i).ofile fd = none) ∧ (procs' i).cwd = none)
    (hb : ∀ i < NPROC, (procs' i).Bounded)
    (hid : ∀ i < NPROC, s'.live i → (procs' i).pid = (procs i).pid ∧ (procs' i).tgid = (procs i).tgid ∧
      (procs' i).pagetable = (procs i).pagetable ∧ (procs' i).trapframe = (procs i).trapframe)
    (ht : ∀ i < NPROC, s'.live i → (procs i).tgid ≠ (procs i).pid → ∀ l, Leads procs s l i →
      s'.live l ∧ ¬ s'.dead l ∧ (procs' i).parent = some l ∧ (procs' l).sz = (procs' i).sz)
    (hc : ∀ i < NPROC, s'.live i → (procs i).tgid = (procs i).pid →
      (procs' i).thread_count = 1 + (threads procs' s' i : Int)) : Slots procs' s' where
  unused := hu
  used i hi hi' := by
    obtain ⟨h1, -, h3, h4⟩ := hid i hi hi'
    obtain ⟨h5, h6, h7⟩ := h.used i hi (hl i hi')
    rw [h1, h3, h4]
    exact ⟨h5, h6, lt_of_lt_of_le h7 hn⟩
  zombie := hz
  bounded := hb
  pids i hi j hj hi' hj' := by
    rw [(hid i hi hi').1, (hid j hj hj').1]
    exact h.pids i hi j hj (hl i hi') (hl j hj')
  lead i hi j hj hi' hj' := by
    obtain ⟨h1, h2, h3, -⟩ := hid i hi hi'
    obtain ⟨h4, h5, h6, -⟩ := hid j hj hj'
    rw [h1, h2, h3, h4, h5, h6]
    exact h.lead i hi j hj (hl i hi') (hl j hj')
  thread i hi hi' := by
    obtain ⟨h1, h2, h3, -⟩ := hid i hi hi'
    rw [h1, h2]
    intro hne
    obtain ⟨l, hL⟩ := h.thread i hi (hl i hi') hne
    obtain ⟨hll, hdl, hpar, hsz⟩ := ht i hi hi' hne l hL
    obtain ⟨h4, h5, h6, -⟩ := hid l hL.slot hll
    exact ⟨l, hL.slot, hpar, hll, hdl, by rw [h4, h5]; exact hL.leader, by rw [h4, h2]; exact hL.group,
      by rw [h6, h3]; exact hL.pagetable, hsz⟩
  count i hi hi' := by
    rw [(hid i hi hi').1, (hid i hi hi').2.1]
    exact hc i hi hi'

theorem Slots.rel (h : Slots procs s) (hr : SysRel s s') : Slots procs s' :=
  h.keep (fun i => (hr.live i).mp) (le_of_eq hr.nextpid.symm) (fun i hi hl => h.unused i hi fun hc =>
    hl ((hr.live i).mpr hc))
    (fun i hi hd => h.zombie i hi ((hr.dead i).mp hd)) h.bounded (fun _ _ _ => ⟨rfl, rfl, rfl, rfl⟩)
    (fun _ _ _ _ l hL => ⟨(hr.live l).mpr hL.live, fun hd => hL.alive ((hr.dead l).mp hd), hL.parent, hL.sz⟩)
    fun i hi hl ht => by
      rw [threads_congr hr.live (fun _ _ _ => rfl) rfl]
      exact h.count i hi ((hr.live i).mp hl) ht

structure Proc.Tied (p q : Proc) : Prop where
  pid : q.pid = p.pid
  tgid : q.tgid = p.tgid
  thread_count : q.thread_count = p.thread_count
  parent : q.parent = p.parent
  sz : q.sz = p.sz
  pagetable : q.pagetable = p.pagetable
  trapframe : q.trapframe = p.trapframe

theorem Proc.Tied.refl (p : Proc) : p.Tied p := ⟨rfl, rfl, rfl, rfl, rfl, rfl, rfl⟩

theorem tables_congr (h : ∀ i < NPROC, (procs' i).pagetable = (procs i).pagetable) : tables procs' = tables procs := by
  ext r
  rw [mem_tables, mem_tables]
  exact exists_congr fun i => and_congr_right fun hi => by rw [h i hi]

theorem Slots.files (h : Slots procs s) (ht : ∀ i, (procs i).Tied (procs' i))
    (hu : ∀ i < NPROC, ¬ s.live i → (procs' i).Empty)
    (hz : ∀ i < NPROC, s.dead i → (∀ fd < NOFILE, (procs' i).ofile fd = none) ∧ (procs' i).cwd = none)
    (hb : ∀ i < NPROC, (procs' i).Bounded) : Slots procs' s :=
  h.keep (fun _ => id) le_rfl hu hz hb (fun i _ _ => ⟨(ht i).pid, (ht i).tgid, (ht i).pagetable, (ht i).trapframe⟩)
    (fun i _ _ _ l hL => ⟨hL.live, hL.alive, (ht i).parent.trans hL.parent, by rw [(ht l).sz, (ht i).sz]; exact hL.sz⟩)
    fun i hi hl hlead => by
      rw [(ht i).thread_count, threads_congr (fun _ => Iff.rfl) (fun j _ _ => (ht j).tgid) (ht i).pid]
      exact h.count i hi hl hlead

/-! ## Who belongs to whom -/

section
variable (h : Slots procs s) (hi : i < NPROC)
include h hi

theorem Slots.leader (hl : s.live i) : ∃ q < NPROC, s.live q ∧ (procs q).tgid = (procs q).pid ∧
    (procs q).tgid = (procs i).tgid ∧ (procs q).pagetable = (procs i).pagetable ∧ (procs q).sz = (procs i).sz := by
  by_cases hc : (procs i).tgid = (procs i).pid
  · exact ⟨i, hi, hl, hc, rfl, rfl, rfl⟩
  · obtain ⟨q, hq⟩ := h.thread i hi hl hc
    exact ⟨q, hq.slot, hq.live, hq.leader, hq.leader.trans hq.group, hq.pagetable, hq.sz⟩

theorem Slots.group (hj : j < NPROC) (hli : s.live i) (hlj : s.live j)
    (ht : (procs i).tgid = (procs j).tgid) : (procs i).pagetable = (procs j).pagetable ∧ (procs i).sz = (procs j).sz := by
  -- both have the same leader
  obtain ⟨q, hq, hlq, h1, h2, h3, h4⟩ := h.leader hi hli
  obtain ⟨q', hq', hlq', h1', h2', h3', h4'⟩ := h.leader hj hlj
  obtain rfl := h.pids q hq q' hq' hlq hlq' (by rw [← h1, ← h1', h2, h2', ht])
  exact ⟨h3.symm.trans h3', h4.symm.trans h4'⟩

theorem Slots.same_group (hj : j < NPROC) (hli : s.live i) (hlj : s.live j)
    (ht : (procs i).pagetable = (procs j).pagetable) : (procs i).tgid = (procs j).tgid := by
  obtain ⟨q, hq, hlq, h1, h2, h3, -⟩ := h.leader hi hli
  obtain ⟨q', hq', hlq', h1', h2', h3', -⟩ := h.leader hj hlj
  obtain rfl := h.lead q hq q' hq' hlq hlq' h1 h1' (by rw [h3, h3', ht])
  exact h2.symm.trans h2'

theorem Slots.live_of_table (hr : (procs i).pagetable = some r) :
    s.live i := by
  by_contra hl
  rw [(h.unused i hi hl).pagetable] at hr; cases hr

theorem Slots.alone (hj : j < NPROC) (hl : s.live i)
    (hlead : (procs i).tgid = (procs i).pid) (hno : ∀ j < NPROC, s.live j → (procs j).tgid = (procs i).pid → j = i)
    (ht : (procs j).pagetable = (procs i).pagetable) : j = i := by
  obtain ⟨r, hr⟩ := Option.ne_none_iff_exists'.mp (h.used i hi hl).1
  have hlj := h.live_of_table hj (ht.trans hr)
  exact hno j hj hlj ((h.same_group hj hi hlj hl ht).trans hlead)

theorem Slots.alone_of_dead (hl : s.live i) (hd : s.dead i) :
    ∀ j < NPROC, s.live j → (procs j).tgid = (procs i).pid → j = i := by
  intro j hj hlj ht
  by_cases hc : (procs j).tgid = (procs j).pid
  · exact h.pids j hj i hi hlj hl (hc.symm.trans ht)
  · obtain ⟨q, hq⟩ := h.thread j hj hlj hc
    obtain rfl := h.pids q hq.slot i hi hq.live hl (hq.group.trans ht)
    exact absurd hd hq.alive

theorem Slots.alone_of_count (hl : s.live i)
    (hlead : (procs i).tgid = (procs i).pid) (hc : (procs i).thread_count ≤ 1) :
    ∀ j < NPROC, s.live j → (procs j).tgid = (procs i).pid → j = i := by
  intro j hj hlj ht
  by_contra hne
  have hcnt := h.count i hi hl hlead
  have : 0 < threads procs s i := Tally.count_pos hj ⟨hlj, ht, hne⟩
  omega

end

/-! ## How the table changes -/

structure Gone (s s' : Sys) (p : Nat) : Prop where
  live : ∀ j, s'.live j ↔ s.live j ∧ j ≠ p
  dead : ∀ j, s'.dead j ↔ s.dead j ∧ j ≠ p
  nextpid : s'.nextpid = s.nextpid

structure Born (s s' : Sys) (p : Nat) : Prop where
  live : ∀ j, s'.live j ↔ s.live j ∨ j = p
  dead : ∀ j, s'.dead j ↔ s.dead j ∧ j ≠ p
  nextpid : s'.nextpid = s.nextpid + 1

structure Died (s s' : Sys) (p : Nat) : Prop where
  live : ∀ j, s'.live j ↔ s.live j
  dead : ∀ j, s'.dead j ↔ s.dead j ∨ j = p
  nextpid : s'.nextpid = s.nextpid

def Others (procs procs' : Nat → Proc) (p : Nat) : Prop :=
  ∀ i, i ≠ p → procs' i = { procs i with thread_count := (procs' i).thread_count }

theorem Slots.gone (h : Slots procs s) (hg : Gone s s' p) (ho : Others procs procs' p) (hq : (procs' p).Empty)
    (hb : (procs' p).Bounded) (hno : ∀ i < NPROC, i ≠ p → s.live i → ¬ Leads procs s p i)
    (hc : ∀ i < NPROC, i ≠ p → s.live i → (procs i).tgid = (procs i).pid →
      (procs' i).thread_count = 1 + (threads procs' s' i : Int)) : Slots procs' s' := by
  refine h.keep (fun i hi' => ((hg.live i).mp hi').1) (le_of_eq hg.nextpid.symm) (fun i hi hn => ?_) (fun i hi hd => ?_)
    (fun i hi => ?_) (fun i hi hi' => ?_) (fun i hi hi' _ l hL => ?_) fun i hi hi' =>
      hc i hi ((hg.live i).mp hi').2 ((hg.live i).mp hi').1
  · by_cases hip : i = p
    · rw [hip]; exact hq
    · rw [ho i hip]
      have := h.unused i hi fun hc => hn ((hg.live i).mpr ⟨hc, hip⟩)
      exact ⟨this.pagetable, this.trapframe, this.parent, this.cwd, this.ofile, this.vmas⟩
  · obtain ⟨h1, h2⟩ := (hg.dead i).mp hd
    rw [ho i h2]; exact h.zombie i hi h1
  · by_cases hip : i = p
    · rw [hip]; exact hb
    · rw [ho i hip]; exact ⟨(h.bounded i hi).sz, (h.bounded i hi).vma⟩
  · rw [ho i ((hg.live i).mp hi').2]
    exact ⟨rfl, rfl, rfl, rfl⟩
  · obtain ⟨h1, h2⟩ := (hg.live i).mp hi'
    have hlp : l ≠ p := by rintro rfl; exact hno i hi h2 h1 hL
    exact ⟨(hg.live l).mpr ⟨hL.live, hlp⟩, fun hd => hL.alive ((hg.dead l).mp hd).1, by rw [ho i h2]; exact hL.parent,
      by rw [ho l hlp, ho i h2]; exact hL.sz⟩

theorem Others.threads (ho : Others procs procs' p) (hg : Gone s s' p) (hp : p < NPROC) (hip : i ≠ p) :
    Xv6.threads procs' s' i + (if s.live p ∧ (procs p).tgid = (procs i).pid then 1 else 0) = Xv6.threads procs s i := by
  have hpid : (procs' i).pid = (procs i).pid := by rw [ho i hip]
  have h := Tally.count_point (p := fun j => s.live j ∧ (procs j).tgid = (procs i).pid ∧ j ≠ i)
    (q := fun j => s'.live j ∧ (procs' j).tgid = (procs' i).pid ∧ j ≠ i) hp fun j _ hj => by
      rw [hg.live j, hpid, ho j hj]; simp [hj]
  rw [if_neg (c := s'.live p ∧ _) fun hc => ((hg.live p).mp hc.1).2 rfl] at h
  have hc : (s.live p ∧ (procs p).tgid = (procs i).pid ∧ p ≠ i) ↔ s.live p ∧ (procs p).tgid = (procs i).pid := by
    simp [hip.symm]
  simp only [hc] at h
  exact h

theorem Slots.free (h : Slots procs s) (hp : p < NPROC) (hl : s.live p)
    (hlead : (procs p).tgid = (procs p).pid) (hno : ∀ j < NPROC, s.live j → (procs j).tgid = (procs p).pid → j = p)
    (hq : q.Empty) (hb : q.Bounded) (hg : Gone s s' p) : Slots (update procs p q) s' := by
  have hne : ∀ {i}, i ≠ p → update procs p q i = procs i := fun hi => update_of_ne hi _ _
  have ho : Others procs (update procs p q) p := fun i hi => by rw [hne hi]
  refine h.gone hg ho (by rw [update_self]; exact hq) (by rw [update_self]; exact hb) ?_ ?_
  · intro i hi hip hli hL
    exact hip (hno i hi hli hL.group.symm)
  · intro i hi hip hli ht
    rw [hne hip, h.count i hi hli ht, ← ho.threads hg hp hip, if_neg]
    · rfl
    · rintro ⟨-, hc⟩
      exact hip (h.pids i hi p hp hli hl (hc.symm.trans hlead))

theorem Slots.freeThread (h : Slots procs s) (hp : p < NPROC) (hl : s.live p)
    (hthread : (procs p).tgid ≠ (procs p).pid) (hL : Leads procs s l p) (hq : q.Empty) (hb : q.Bounded)
    (hg : Gone s s' p) : Slots (update (update procs p q) l
      { procs l with thread_count := (procs l).thread_count - 1 }) s' := by
  have hlp : l ≠ p := by rintro rfl; exact hthread hL.leader
  have hgp : update (update procs p q) l
      { procs l with thread_count := (procs l).thread_count - 1 } p = q := by
    rw [update_of_ne hlp.symm, update_self]
  generalize hdef : update (update procs p q) l
    { procs l with thread_count := (procs l).thread_count - 1 } = procs' at hgp
  have hcount : ∀ i, i ≠ p → procs' i =
      { procs i with thread_count := if i = l then (procs l).thread_count - 1 else (procs i).thread_count } :=
    fun i hip => by
      rw [← hdef]
      by_cases hil : i = l
      · rw [hil, update_self, if_pos rfl]
      · rw [update_of_ne hil, update_of_ne hip, if_neg hil]
  have ho : Others procs procs' p := fun i hip => by rw [hcount i hip]
  refine h.gone hg ho (by rw [hgp]; exact hq) (by rw [hgp]; exact hb) ?_ ?_
  · intro i _ _ _ hL'
    exact hthread hL'.leader
  · intro i hi hip hli ht
    have hc := h.count i hi hli ht
    have hpt := ho.threads hg hp hip
    have htc : (procs' i).thread_count = if i = l then (procs l).thread_count - 1 else (procs i).thread_count := by
      rw [hcount i hip]
    rw [htc]
    by_cases hil : i = l
    · rw [if_pos hil, ← hil, hc]
      rw [if_pos ⟨hl, by rw [hil]; exact hL.group.symm⟩] at hpt
      omega
    · rw [if_neg hil, hc]
      rw [if_neg] at hpt
      · omega
      · rintro ⟨-, h3⟩
        exact hil (h.pids i hi l hL.slot hli hL.live (h3.symm.trans hL.group.symm))

/-! ### A new process -/

theorem Slots.tgid_lt (h : Slots procs s) (hi : i < NPROC) (hl : s.live i) : (procs i).tgid < s.nextpid := by
  by_cases hc : (procs i).tgid = (procs i).pid
  · rw [hc]; exact (h.used i hi hl).2.2
  · obtain ⟨q, hq⟩ := h.thread i hi hl hc
    rw [← hq.group]; exact (h.used q hq.slot hq.live).2.2

structure Fresh (s s' : Sys) (p : Nat) (q : Proc) : Prop where
  slot : p < NPROC
  free : ¬ s.live p
  born : Born s s' p
  pid : q.pid = s.nextpid
  pagetable : q.pagetable ≠ none
  trapframe : q.trapframe ≠ none
  bounded : q.Bounded

theorem Slots.came (h : Slots procs s) (ho : Others procs procs' p) (hf : Fresh s s' p (procs' p))
    (hlead : (procs' p).tgid = s.nextpid → ∀ r, (procs' p).pagetable = some r → r ∉ tables procs)
    (hthread : (procs' p).tgid ≠ s.nextpid → ∃ l, l ≠ p ∧ Leads procs' s' l p)
    (hc : ∀ i < NPROC, s'.live i → (procs' i).tgid = (procs' i).pid →
      (procs' i).thread_count = 1 + (threads procs' s' i : Int)) : Slots procs' s' := by
  have hb := hf.born
  have hlive : ∀ {i}, s'.live i → i ≠ p → s.live i := fun hi hip => ((hb.live _).mp hi).resolve_right hip
  have hlt : ∀ i < NPROC, s'.live i → i ≠ p → (procs' i).pid < s.nextpid := fun i hi hi' hip => by
    rw [ho i hip]; exact (h.used i hi (hlive hi' hip)).2.2
  have htab : ∀ i < NPROC, i ≠ p → ∀ r, (procs' i).pagetable = some r → r ∈ tables procs := fun i hi hip r hr => by
    rw [ho i hip] at hr; exact mem_tables.mpr ⟨i, hi, hr⟩
  refine ⟨fun i hi hn => ?_, fun i hi hi' => ?_, fun i hi hd => ?_, fun i hi => ?_, fun i hi j hj hli hlj => ?_,
    fun i hi j hj hli hlj => ?_, fun i hi hi' => ?_, hc⟩
  · have hip : i ≠ p := fun hc => hn ((hb.live i).mpr (.inr hc))
    have := h.unused i hi fun hc => hn ((hb.live i).mpr (.inl hc))
    rw [ho i hip]
    exact ⟨this.pagetable, this.trapframe, this.parent, this.cwd, this.ofile, this.vmas⟩
  · rw [hb.nextpid]
    by_cases hip : i = p
    · rw [hip]; exact ⟨hf.pagetable, hf.trapframe, by rw [hf.pid]; omega⟩
    · have := h.used i hi (hlive hi' hip)
      rw [ho i hip]; exact ⟨this.1, this.2.1, by have := this.2.2; dsimp only; omega⟩
  · obtain ⟨h1, h2⟩ := (hb.dead i).mp hd
    rw [ho i h2]; exact h.zombie i hi h1
  · by_cases hip : i = p
    · rw [hip]; exact hf.bounded
    · rw [ho i hip]; exact ⟨(h.bounded i hi).sz, (h.bounded i hi).vma⟩
  · intro heq
    by_cases hip : i = p <;> by_cases hjp : j = p
    · rw [hip, hjp]
    · have := hlt j hj hlj hjp; rw [← heq, hip, hf.pid] at this; omega
    · have := hlt i hi hli hip; rw [heq, hjp, hf.pid] at this; omega
    · rw [ho i hip, ho j hjp] at heq
      exact h.pids i hi j hj (hlive hli hip) (hlive hlj hjp) heq
  · intro hti htj heq
    have hnew : ∀ j < NPROC, j ≠ p → (procs' p).tgid = (procs' p).pid → (procs' p).pagetable ≠ (procs' j).pagetable :=
      fun j hj hjp ht heq => by
        obtain ⟨r, hr⟩ := Option.ne_none_iff_exists'.mp hf.pagetable
        exact hlead (ht.trans hf.pid) r hr (htab j hj hjp r (heq ▸ hr))
    by_cases hip : i = p <;> by_cases hjp : j = p
    · rw [hip, hjp]
    · rw [hip] at hti heq; exact absurd heq (hnew j hj hjp hti)
    · rw [hjp] at htj heq; exact absurd heq.symm (hnew i hi hip htj)
    · rw [ho i hip] at hti heq; rw [ho j hjp] at htj heq
      exact h.lead i hi j hj (hlive hli hip) (hlive hlj hjp) hti htj heq
  · by_cases hip : i = p
    · rw [hip, hf.pid]
      intro ht
      obtain ⟨l, -, hl⟩ := hthread ht
      exact ⟨l, hl⟩
    · intro ht
      rw [ho i hip] at ht
      obtain ⟨l, hl⟩ := h.thread i hi (hlive hi' hip) ht
      have hlp : l ≠ p := fun hc => hf.free (hc ▸ hl.live)
      refine ⟨l, hl.slot, ?_, (hb.live l).mpr (.inl hl.live), fun hd => hl.alive ((hb.dead l).mp hd).1, ?_, ?_, ?_, ?_⟩
      · rw [ho i hip]; exact hl.parent
      · rw [ho l hlp]; exact hl.leader
      · rw [ho l hlp, ho i hip]; exact hl.group
      · rw [ho l hlp, ho i hip]; exact hl.pagetable
      · rw [ho l hlp, ho i hip]; exact hl.sz

theorem Others.threads_came (ho : Others procs procs' p) (hf : Fresh s s' p (procs' p)) (hip : i ≠ p) :
    Xv6.threads procs' s' i = Xv6.threads procs s i + (if (procs' p).tgid = (procs i).pid then 1 else 0) := by
  have hpid : (procs' i).pid = (procs i).pid := by rw [ho i hip]
  have h := Tally.count_point (p := fun j => s.live j ∧ (procs j).tgid = (procs i).pid ∧ j ≠ i)
    (q := fun j => s'.live j ∧ (procs' j).tgid = (procs' i).pid ∧ j ≠ i) hf.slot fun j _ hj => by
      rw [hf.born.live j, hpid, ho j hj]; simp [hj]
  rw [if_neg fun hc => hf.free hc.1] at h
  have hc : (s'.live p ∧ (procs' p).tgid = (procs' i).pid ∧ p ≠ i) ↔ (procs' p).tgid = (procs i).pid := by
    simp [hip.symm, hpid, hf.born.live]
  simp only [hc] at h
  exact h

theorem Slots.fork (h : Slots procs s) (hf : Fresh s s' p q) (ht : q.tgid = s.nextpid)
    (hc : q.thread_count = 1) (hr : ∀ r, q.pagetable = some r → r ∉ tables procs) :
    Slots (update procs p q) s' := by
  have hself : update procs p q p = q := update_self ..
  have hne : ∀ {i}, i ≠ p → update procs p q i = procs i := fun hi => update_of_ne hi _ _
  have ho : Others procs (update procs p q) p := fun i hi => by rw [hne hi]
  have hf' : Fresh s s' p (update procs p q p) := by rw [hself]; exact hf
  refine h.came ho hf' (fun _ => by rw [hself]; exact hr) (fun hn => absurd (by rw [hself]; exact ht) hn) ?_
  intro i hi hi' hti
  by_cases hip : i = p
  · -- nobody can belong to a process number that is new
    rw [hip, hself, hc]
    have : threads (update procs p q) s' p = 0 := Nat.count_of_forall_not fun j hj => by
      rintro ⟨h1, h2, h3⟩
      rw [hne h3, hself, hf.pid] at h2
      have := h.tgid_lt hj (((hf.born.live j).mp h1).resolve_right h3)
      omega
    rw [this]; rfl
  · have hl := ((hf.born.live i).mp hi').resolve_right hip
    rw [ho.threads_came hf' hip, hself, hne hip]
    rw [hne hip] at hti
    rw [h.count i hi hl hti, if_neg]
    · rfl
    · have := (h.used i hi hl).2.2
      omega

theorem Slots.spawn (h : Slots procs s) (hf : Fresh s s' p q) (hl : l < NPROC) (hll : s.live l)
    (hdl : ¬ s.dead l) (hlead : (procs l).tgid = (procs l).pid) (ht : q.tgid = (procs l).pid) (hpar : q.parent = some l)
    (hr : q.pagetable = (procs l).pagetable) (hsz : q.sz = (procs l).sz) :
    Slots (update (update procs p q) l
      { procs l with thread_count := (procs l).thread_count + 1 }) s' := by
  have hlp : l ≠ p := fun hc => hf.free (hc ▸ hll)
  have hself : update (update procs p q) l
      { procs l with thread_count := (procs l).thread_count + 1 } p = q := by
    rw [update_of_ne hlp.symm, update_self]
  generalize hdef : update (update procs p q) l
    { procs l with thread_count := (procs l).thread_count + 1 } = procs' at hself
  have hcount : ∀ i, i ≠ p → procs' i =
      { procs i with thread_count := (procs i).thread_count + if i = l then 1 else 0 } := fun i hip => by
    rw [← hdef]
    by_cases hil : i = l
    · rw [hil, update_self, if_pos rfl]
    · rw [update_of_ne hil, update_of_ne hip, if_neg hil, Int.add_zero]
  have ho : Others procs procs' p := fun i hip => by rw [hcount i hip]
  have hlt := (h.used l hl hll).2.2
  have hf' : Fresh s s' p (procs' p) := by rw [hself]; exact hf
  refine h.came ho hf' (fun hn => ?_) (fun _ => ⟨l, hlp, hl, ?_, (hf.born.live l).mpr (.inl hll),
    fun hd => hdl ((hf.born.dead l).mp hd).1, ?_, ?_, ?_, ?_⟩) ?_
  · rw [hself, ht] at hn; omega
  · rw [hself]; exact hpar
  · rw [ho l hlp]; exact hlead
  · rw [ho l hlp, hself]; exact ht.symm
  · rw [ho l hlp, hself]; exact hr.symm
  · rw [ho l hlp, hself]; exact hsz.symm
  · intro i hi hi' hti
    by_cases hip : i = p
    · rw [hip, hself, ht, hf.pid] at hti; omega
    · have hli := ((hf.born.live i).mp hi').resolve_right hip
      have htc : (procs' i).thread_count = (procs i).thread_count + if i = l then 1 else 0 := by rw [hcount i hip]
      rw [ho i hip] at hti
      rw [htc, h.count i hi hli hti, ho.threads_came hf' hip, hself, ht]
      have : i = l ↔ (procs l).pid = (procs i).pid :=
        ⟨fun hc => by rw [hc], fun hc => h.pids i hi l hl hli hll hc.symm⟩
      simp only [← this]
      split <;> omega

/-! ### Changes to a process -/

variable (h : Slots procs s)
include h

theorem Slots.die (hd : Died s s' p)
    (hno : (procs p).tgid = (procs p).pid → ∀ j < NPROC, s.live j → (procs j).tgid = (procs p).pid → j = p)
    (hfile : ∀ fd < NOFILE, (procs p).ofile fd = none) (hcwd : (procs p).cwd = none) : Slots procs s' := by
  refine h.keep (fun i => (hd.live i).mp) (le_of_eq hd.nextpid.symm) (fun i hi hl => h.unused i hi fun hc =>
    hl ((hd.live i).mpr hc))
    (fun i hi hz => ?_) h.bounded (fun _ _ _ => ⟨rfl, rfl, rfl, rfl⟩) (fun i hi hl ht q hq => ?_) fun i hi hl ht => ?_
  · rcases (hd.dead i).mp hz with hz | rfl
    · exact h.zombie i hi hz
    · exact ⟨hfile, hcwd⟩
  · have hqp : q ≠ p := by
      rintro rfl
      obtain rfl := hno hq.leader i hi ((hd.live i).mp hl) hq.group.symm
      exact ht hq.leader
    exact ⟨(hd.live q).mpr hq.live, fun hc => ((hd.dead q).mp hc).elim hq.alive hqp, hq.parent, hq.sz⟩
  · rw [threads_congr hd.live (fun _ _ _ => rfl) rfl]
    exact h.count i hi ((hd.live i).mp hl) ht

theorem Slots.image (hp : p < NPROC) (hl : s.live p) (hd : ¬ s.dead p)
    (hlead : (procs p).tgid = (procs p).pid) (hno : ∀ j < NPROC, s.live j → (procs j).tgid = (procs p).pid → j = p)
    (hpid : q.pid = (procs p).pid) (htg : q.tgid = (procs p).tgid) (hc : q.thread_count = (procs p).thread_count)
    (hr : q.pagetable = some r) (hnew : r ∉ tables procs) (htf : q.trapframe = (procs p).trapframe) (hb : q.Bounded) :
    Slots (update procs p q) s := by
  have hself : update procs p q p = q := update_self ..
  have hne : ∀ {i}, i ≠ p → update procs p q i = procs i := fun hi => update_of_ne hi _ _
  have hid : ∀ i, (update procs p q i).pid = (procs i).pid ∧ (update procs p q i).tgid = (procs i).tgid ∧
      (update procs p q i).thread_count = (procs i).thread_count := fun i => by
    by_cases hip : i = p
    · rw [hip, hself]; exact ⟨hpid, htg, hc⟩
    · rw [hne hip]; exact ⟨rfl, rfl, rfl⟩
  have htab : ∀ i < NPROC, i ≠ p → (procs i).pagetable ≠ some r := fun i hi _ he => hnew (mem_tables.mpr ⟨i, hi, he⟩)
  refine ⟨fun i hi hn => ?_, fun i hi hi' => ?_, fun i hi hz => ?_, fun i hi => ?_, fun i hi j hj hli hlj => ?_,
    fun i hi j hj hli hlj => ?_, fun i hi hi' => ?_, fun i hi hi' => ?_⟩
  · have hip : i ≠ p := by rintro rfl; exact hn hl
    rw [hne hip]; exact h.unused i hi hn
  · obtain ⟨h1, h2, h3⟩ := h.used i hi hi'
    by_cases hip : i = p
    · subst hip
      rw [hself, hr, htf, hpid]; exact ⟨by simp, h2, h3⟩
    · rw [hne hip]; exact ⟨h1, h2, h3⟩
  · have hip : i ≠ p := by rintro rfl; exact hd hz
    rw [hne hip]; exact h.zombie i hi hz
  · by_cases hip : i = p
    · rw [hip, hself]; exact hb
    · rw [hne hip]; exact h.bounded i hi
  · rw [(hid i).1, (hid j).1]; exact h.pids i hi j hj hli hlj
  · rw [(hid i).1, (hid j).1, (hid i).2.1, (hid j).2.1]
    intro hti htj heq
    by_cases hip : i = p <;> by_cases hjp : j = p
    · rw [hip, hjp]
    · rw [hip, hself, hne hjp, hr] at heq; exact absurd heq.symm (htab j hj hjp)
    · rw [hjp, hself, hne hip, hr] at heq; exact absurd heq (htab i hi hip)
    · rw [hne hip, hne hjp] at heq; exact h.lead i hi j hj hli hlj hti htj heq
  · rw [(hid i).1, (hid i).2.1]
    intro ht
    obtain ⟨l, hL⟩ := h.thread i hi hi' ht
    have hip : i ≠ p := by rintro rfl; exact ht hlead
    have hlp : l ≠ p := by rintro rfl; exact hip (hno i hi hi' hL.group.symm)
    refine ⟨l, hL.slot, ?_, hL.live, hL.alive, ?_, ?_, ?_, ?_⟩ <;> simp only [hne hip, hne hlp]
    exacts [hL.parent, hL.leader, hL.group, hL.pagetable, hL.sz]
  · rw [(hid i).1, (hid i).2.1, (hid i).2.2]
    intro ht
    rw [h.count i hi hi' ht]
    have : threads (update procs p q) s i = threads procs s i := Tally.count_congr fun j _ => by
      rw [(hid j).2.1, (hid i).1]
    rw [this]

theorem Slots.resize {tgid sz : Nat} (hsz : sz ≤ TRAPFRAME NPROC)
    (he : ∀ i < NPROC, procs' i = if (procs i).tgid = tgid then { procs i with sz := sz } else procs i) :
    Slots procs' s := by
  have hs : ∀ i < NPROC, procs' i = { procs i with sz := if (procs i).tgid = tgid then sz else (procs i).sz } :=
    fun i hi => by rw [he i hi]; split <;> rfl
  refine h.keep (fun _ => id) le_rfl (fun i hi hn => ?_) (fun i hi hz => by rw [hs i hi]; exact h.zombie i hi hz)
    (fun i hi => ?_) (fun i hi _ => by rw [hs i hi]; exact ⟨rfl, rfl, rfl, rfl⟩)
    (fun i hi _ _ l hL => ⟨hL.live, hL.alive, by rw [hs i hi]; exact hL.parent, ?_⟩) fun i hi hl ht => ?_
  · have := h.unused i hi hn
    rw [hs i hi]; exact ⟨this.pagetable, this.trapframe, this.parent, this.cwd, this.ofile, this.vmas⟩
  · rw [hs i hi]
    refine ⟨?_, (h.bounded i hi).vma⟩
    split
    · exact hsz
    · exact (h.bounded i hi).sz
  · simp only [hs i hi, hs l hL.slot]
    rw [hL.leader, hL.group, hL.sz]
  · rw [threads_congr (fun _ => Iff.rfl) (fun j hj _ => by rw [hs j hj]) (by rw [hs i hi]), hs i hi]
    exact h.count i hi hl ht

theorem Slots.adopt (hl : s.live p) (ht : (procs p).tgid = (procs p).pid) :
    Slots (update procs p { procs p with parent := x }) s := by
  have hs : ∀ i, update procs p { procs p with parent := x } i =
      { procs i with parent := if i = p then x else (procs i).parent } := fun i => by
    by_cases hip : i = p
    · rw [hip, update_self, if_pos rfl]
    · rw [update_of_ne hip, if_neg hip]
  refine h.keep (fun _ => id) le_rfl (fun i hi hn => ?_) (fun i hi hz => by rw [hs i]; exact h.zombie i hi hz)
    (fun i hi => by rw [hs i]; exact ⟨(h.bounded i hi).sz, (h.bounded i hi).vma⟩)
      (fun i _ _ => by rw [hs i]; exact ⟨rfl, rfl, rfl, rfl⟩)
    (fun i _ _ hti l hL => ⟨hL.live, hL.alive, ?_, ?_⟩) fun i hi hl hti => ?_
  · have hip : i ≠ p := by rintro rfl; exact hn hl
    rw [update_of_ne hip]; exact h.unused i hi hn
  · rw [update_of_ne (by rintro rfl; exact hti ht)]; exact hL.parent
  · rw [hs l, hs i]; exact hL.sz
  · rw [threads_congr (fun _ => Iff.rfl) (fun j _ _ => by rw [hs j]) (by rw [hs i]), hs i]
    exact h.count i hi hl hti

theorem Slots.skip
    (hp : ∀ i, procs' i = procs i ∨ (¬ s.live i ∧ (procs' i).Empty ∧ (procs' i).Bounded))
    (hl : ∀ i, s'.live i ↔ s.live i) (hd : ∀ i, s'.dead i ↔ s.dead i) (hn : s.nextpid ≤ s'.nextpid) : Slots procs' s' := by
  have hsame : ∀ i, s'.live i → procs' i = procs i := fun i hi => (hp i).resolve_right fun hc => hc.1 ((hl i).mp hi)
  refine h.keep (fun i => (hl i).mp) hn (fun i hi hi' => ?_) (fun i hi hz => ?_) (fun i hi => ?_)
    (fun i _ hi' => by rw [hsame i hi']; exact ⟨rfl, rfl, rfl, rfl⟩) (fun i _ hi' _ q hq => ?_) fun i hi hi' ht => ?_
  · rcases hp i with he | ⟨-, he, -⟩
    · rw [he]; exact h.unused i hi fun hc => hi' ((hl i).mpr hc)
    · exact he
  · have hz' := (hd i).mp hz
    rw [hsame i ((hl i).mpr (by unfold Sys.live; rw [hz']; simp))]; exact h.zombie i hi hz'
  · rcases hp i with he | ⟨-, -, hb⟩
    · rw [he]; exact h.bounded i hi
    · exact hb
  · have hlq := (hl q).mpr hq.live
    rw [hsame i hi', hsame q hlq]
    exact ⟨hlq, fun hc => hq.alive ((hd q).mp hc), hq.parent, hq.sz⟩
  · rw [threads_congr hl (fun j _ hj => by rw [hsame j ((hl j).mpr hj)]) (by rw [hsame i hi']), hsame i hi']
    exact h.count i hi ((hl i).mp hi') ht

end Xv6
