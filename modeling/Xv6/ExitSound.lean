import Xv6.ForkSound

/-!
# `exit`, `wait` and `join`

A process that exits gives up its files and its directory, hands its children
to the first process and frees its threads; its memory goes when the parent
reaps it.
-/

namespace Xv6

open Hoare Function List Option

variable {k0 : Kernel} {addr : Nat}

variable [Image] {W : Prop} {L : Nat → Nat} {k : Kernel}
variable {E : Stop → Prop} {Q : Unit → Kernel → Prop} {k' : Kernel} {me p pp : Nat} {s : Sys}

section
variable (hc : Core W L k)
include hc

theorem wp_closeFiles (hA : Alive k.sys) (hp : p < NPROC)
    (h : ∀ k', Core W L k' → Handed k k' p → (k'.procs p).cwd = (k.procs p).cwd → (k'.procs p).vmas = (k.procs p).vmas →
      (∀ fd < NOFILE, (k'.procs p).ofile fd = none) → Q () k') : wp (forN (closeFile p) NOFILE) Q Allowed k := by
  refine wp_post (wp_forN (fun i k' => Core W L k' ∧ Handed k k' p ∧ (k'.procs p).cwd = (k.procs p).cwd ∧
    (k'.procs p).vmas = (k.procs p).vmas ∧ ∀ fd < i, (k'.procs p).ofile fd = none)
    ⟨hc, Handed.refl k p, rfl, rfl, fun fd hfd => absurd hfd (Nat.not_lt_zero _)⟩ ?_)
    fun _ k' hI => h k' hI.1 hI.2.1 hI.2.2.1 hI.2.2.2.1 hI.2.2.2.2
  rintro fd k1 hfd ⟨hc1, hh1, hcwd, hvm, hdone⟩
  unfold closeFile
  simp only [wp_bind, wp_getProc]
  cases hf : (k1.procs p).ofile fd with
  | none =>
    refine wp_ret ⟨hc1, hh1, hcwd, hvm, fun x hx => ?_⟩
    rcases Nat.lt_succ_iff_lt_or_eq.mp hx with hlt | rfl
    · exact hdone x hlt
    · exact hf
  | some f =>
    refine wp_seq (wp_fileclose_core hc1.fs.pipe (hA.rel hh1.rel) allowed_sys fun s hC => ?_)
    rw [wp_setProc]
    refine ⟨hc1.closed hp rfl rfl rfl (refs_ofile_none hfd hf) rfl hC, hh1.set hC.toSysRel rfl, ?_, ?_, fun x hx => ?_⟩
    all_goals dsimp only; rw [update_self]
    · exact hcwd
    · exact hvm
    · by_cases hxf : x = fd
      · rw [hxf]; exact update_self ..
      · exact (update_of_ne hxf _ _).trans (hdone x (by omega))

theorem Core.leave (hp : p < NPROC)
    (h1 : q.pagetable = (k.procs p).pagetable) (h2 : q.trapframe = (k.procs p).trapframe) (h3 : q.sz = (k.procs p).sz)
    (h4 : ∀ g, q.refs g = (k.procs p).refs g) (h0 : (k.procs p).cwd = some ip) (h5 : q.cwd = none) (hP : PutAt k.sys s ip) :
    Core W L { k with sys := s, procs := update k.procs p q } := by
  refine hc.setFiles hp h1 h2 (fun r hr => by rw [h3]; exact hc.user p hp r (h1 ▸ hr)) ?_
  rw [fileRefs_same hp h4]
  have := hc.fs
  rw [cwdRefs_minus hp h0 h5] at this
  exact this.putInode hP

variable (hA : Alive k.sys) (hp : p < NPROC)
include hA hp

theorem wp_putCwd (h0 : (k.procs p).cwd = some ip)
    (h : ∀ k', Core W L k' → Handed k k' p → (k'.procs p).cwd = none → (k'.procs p).ofile = (k.procs p).ofile →
      (k'.procs p).vmas = (k.procs p).vmas → Q () k') :
    wp (do ksys (putInode ip); setProc p fun q => { q with cwd := none }) Q Allowed k := by
  simp only [wp_bind, wp_ksys]
  refine wp_putInode hA (.inr ⟨trivial, trivial⟩) (.inr ⟨⟨trivial, trivial⟩, .inl trivial⟩) fun s hP => ?_
  rw [wp_setProc]
  refine h _ (hc.leave hp rfl rfl rfl (fun _ => rfl) h0 rfl hP) ((Handed.refl k p).set hP.toSysRel rfl) ?_ ?_ ?_
  all_goals dsimp only; rw [update_self]

theorem wp_dropCwd
    (h : ∀ k', Core W L k' → Handed k k' p → (k'.procs p).cwd = none → (k'.procs p).ofile = (k.procs p).ofile →
      (k'.procs p).vmas = (k.procs p).vmas → Q () k') : wp (dropCwd p) Q Allowed k := by
  unfold dropCwd
  simp only [wp_bind, wp_getProc]
  cases h0 : (k.procs p).cwd with
  | none => exact wp_ret (h k hc (Handed.refl k p) h0 rfl rfl)
  | some ip => exact wp_putCwd hc hA hp h0 h

theorem wp_leaveCwd (h0 : (k.procs p).cwd ≠ none)
    (h : ∀ k', Core W L k' → Handed k k' p → (k'.procs p).cwd = none → (k'.procs p).ofile = (k.procs p).ofile →
      (k'.procs p).vmas = (k.procs p).vmas → Q () k') : wp (leaveCwd p) Q Allowed k := by
  obtain ⟨ip, hip⟩ := ne_none_iff_exists'.mp h0
  unfold leaveCwd
  rw [wp_bind, wp_getProc, hip]
  exact wp_putCwd hc hA hp hip h

end

/-! ## `reparent` -/

omit [Image] in
theorem Handed.runs (h : Handed k k' p) (hk : Runs k) (hp : p ≠ k.sys.cur) : Runs k' :=
  hk.rel h.rel (by rw [h.other _ hp.symm]; exact hk.bounded) (by rw [h.other _ hp.symm]; exact hk.table)

omit [Image] in
theorem Handed.pagetable (h : Handed k k' p) (i : Nat) :
    (k'.procs i).pagetable = (k.procs i).pagetable := by
  by_cases hi : i = p
  · rw [hi, h.self]
  · rw [h.other i hi]

structure Reaped (k k' : Kernel) (me pp : Nat) : Prop where
  procs : k'.procs = update (update k.procs pp (k'.procs pp)) me
    { k.procs me with thread_count := (k.procs me).thread_count - 1 }
  empty : (k'.procs pp).Empty
  bounded : (k'.procs pp).Bounded
  gone : Gone k.sys k'.sys pp
  held : k'.sys.held = k.sys.held
  cur : k'.sys.cur = k.sys.cur
  initproc : k'.sys.initproc = k.sys.initproc
  kpages : k'.kpages = k.kpages
  within : Within k k'

omit [Image] in
theorem Handed.inCur (h : Handed k k' p) (hv : (k'.procs p).vmas = (k.procs p).vmas)
    (hx : InCur k' r n) : InCur k r n := by
  refine hx.mono h.rel.cur (h.pagetable _) ?_ fun j _ _ => ?_ <;> by_cases hp : k.sys.cur = p
  · rw [hp, h.self]
  · rw [h.other _ hp]
  · rw [hp, hv]
  · rw [h.other _ hp]

omit [Image] in
theorem Freed.reaped (hf : Freed k2 k3 pp) (l' : List Lock) (hne : pp ≠ me)
    (hh : Handed { k with sys := { k.sys with held := l } } k2 pp) (hv : (k2.procs pp).vmas = (k.procs pp).vmas)
    (hfile : ∀ fd < NOFILE, (k2.procs pp).ofile fd = none) (hcwd : (k2.procs pp).cwd = none) (hl : l' = k.sys.held) :
    Reaped k { k3 with
      sys := { k3.sys with held := l' }
      procs := update k3.procs me { k3.procs me with thread_count := (k3.procs me).thread_count - 1 } } me pp := by
  have hnp : ∀ q, update k3.procs me q pp = k3.procs pp := fun _ => update_of_ne hne ..
  obtain ⟨hempty, hbound⟩ := hf.empty hfile hcwd
  have hg := Gone.of_rel hh.rel hf.gone
  refine ⟨?_, by dsimp only; rw [hnp]; exact hempty, by dsimp only; rw [hnp]; exact hbound,
    ⟨hg.live, hg.dead, hg.nextpid⟩, hl,
    hf.cur.trans hh.rel.cur, hf.initproc.trans hh.rel.initproc, hf.kpages.trans hh.kpages, fun r hr n hn hx => ?_⟩
  · dsimp only
    rw [hnp, (hf.other hne.symm).trans (hh.other me hne.symm)]
    funext i
    by_cases hi : i = me
    · rw [hi, update_self, update_self]
    · rw [update_of_ne hi, update_of_ne hi]
      by_cases hip : i = pp
      · rw [hip, update_self]
      · rw [update_of_ne hip, hf.other hip, hh.other i hip]
  · exact (hf.within r ((tables_update (by rfl)).subset hr) n hn hx).imp (fun hy => by rw [hh.mem] at hy; exact hy)
      (hh.inCur hv)

theorem wp_reapThread (hc : Core W L k) (hk : Runs k) (hp : pp < NPROC)
    (hne : pp ≠ k.sys.cur) (hb : (k.procs pp).Bounded) (hth : (k.procs pp).tgid ≠ (k.procs pp).pid)
    (hpt : (k.procs pp).pagetable = (k.procs k.sys.cur).pagetable)
    (h : ∀ k', Core W L k' → Reaped k k' k.sys.cur pp → Q () k') : wp (reapThread k.sys.cur pp) Q Allowed k := by
  obtain ⟨r, hr⟩ := ne_none_iff_exists'.mp hk.table
  unfold reapThread
  simp only [wp_bind, wp_ksys]
  refine wp_acquire (fun _ => trivial) fun _ => ?_
  have hc0 : Core W L { k with sys := k.sys.lock (.proc pp) } := hc.setSys rfl rfl
  have hk0 : Runs { k with sys := k.sys.lock (.proc pp) } := ⟨hk.alive, hk.slot, hk.bounded, hk.table⟩
  refine wp_closeFiles hc0 hk0.alive hp fun k1 hc1 hh1 _ hv1 hf1 => ?_
  refine wp_dropCwd hc1 (hk0.alive.rel hh1.rel) hp fun k2 hc2 hh2 hcwd2 hf2 hv2 => ?_
  have hh := hh1.trans hh2
  have hself := hh.self
  have hme : k2.procs k.sys.cur = k.procs k.sys.cur := hh.other _ hne.symm
  have hvm : (k2.procs pp).vmas = (k.procs pp).vmas := hv2.trans hv1
  refine wp_freeproc hc2 (.inl (hh.runs hk0 hne)) hp ⟨by rw [hself]; exact hb.sz, by rw [hvm]; exact hb.vma⟩
    (by rw [hh.pagetable]; exact hpt.trans hr) ?_ allowed_sys (fun _ _ => by simp [Allowed]) fun k3 hc3 hf3 => ?_
  · rw [if_neg (by rw [hself]; exact fun hx => hth hx.symm)]
    exact ⟨_, hk.slot, hne.symm, by rw [hme]; exact hr⟩
  have hheld : k3.sys.held = .proc pp :: k.sys.held := hf3.held.trans hh.rel.held
  refine wp_release (by rw [hheld]; exact mem_cons_self ..) ?_
  rw [wp_setProc]
  have hc4 : Core W L { k3 with sys := k3.sys.unlock (.proc pp) } := hc3.setSys rfl rfl
  refine h _ (hc4.setProc hk.slot rfl rfl (fun r hr => hc4.user _ hk.slot r hr) (fun _ => rfl) rfl)
    (hf3.reaped _ hne hh hvm (by rw [hf2]; exact hf1) hcwd2 ?_)
  rw [hheld, erase_cons_head]

structure Leaving (W : Prop) (L : Nat → Nat) (k : Kernel) (me : Nat) : Prop extends Core W L k where
  slots : Slots k.procs k.sys
  family : Family k.procs k.sys
  homed : Homed k.procs k.sys me
  held : k.sys.held = [.wait]
  cur : k.sys.cur = me
  alive : Alive k.sys
  slot : me < NPROC
  other : me ≠ k.sys.initproc
  ofile : ∀ fd < NOFILE, (k.procs me).ofile fd = none
  cwd : (k.procs me).cwd = none

theorem Leaving.runs (h : Leaving W L k me) : Runs k :=
  ⟨h.alive, h.cur ▸ h.slot, h.slots.bounded _ (h.cur ▸ h.slot), (h.slots.used _ (h.cur ▸ h.slot) h.alive.1).1⟩

structure Passed (k k' : Kernel) (me : Nat) : Prop where
  kpages : k'.kpages = k.kpages
  initproc : k'.sys.initproc = k.sys.initproc
  live : ∀ i, k'.sys.live i → k.sys.live i
  self : k'.procs me = { k.procs me with thread_count := (k'.procs me).thread_count }
  kept : ∀ i, k'.sys.live i → k'.procs i =
    { k.procs i with parent := (k'.procs i).parent, thread_count := (k'.procs i).thread_count }
  alone : (∀ j < NPROC, k.sys.live j → (k.procs j).tgid = (k.procs me).pid → j = me) →
    k'.mem = k.mem ∧ ∀ i, k.sys.live i → k'.sys.live i
  cur : k'.sys.cur = k.sys.cur
  within : k.sys.cur = me → Within k k'

omit [Image] in
theorem Passed.refl (k : Kernel) (me : Nat) : Passed k k me :=
  ⟨rfl, rfl, fun _ h => h, rfl, fun _ _ => rfl, fun _ => ⟨rfl, fun _ h => h⟩, rfl,
    fun _ => Within.of_same fun _ _ _ _ => rfl⟩

section
variable (h : Leaving W L k me) (hp : pp < NPROC) (hl : k.sys.live pp) (hpar : (k.procs pp).parent = some me)
include h hp hl hpar

theorem Leaving.leader (ht : (k.procs pp).tgid ≠ (k.procs me).pid) :
    (k.procs pp).tgid = (k.procs pp).pid := by
  by_contra hth
  obtain ⟨q, hq⟩ := h.slots.thread pp hp hl hth
  have : q = me := some.inj (hq.parent.symm.trans hpar)
  exact ht (this ▸ hq.group.symm)

theorem Leaving.leads (ht : (k.procs pp).tgid = (k.procs me).pid) :
    (k.procs pp).tgid ≠ (k.procs pp).pid ∧ Leads k.procs k.sys me pp := by
  have hth : (k.procs pp).tgid ≠ (k.procs pp).pid := fun hx => by
    have := h.slots.pids pp hp me h.slot hl (h.cur ▸ h.alive.1) (hx.symm.trans ht)
    exact h.family.self pp hp (by rw [hpar, this])
  obtain ⟨q, hq⟩ := h.slots.thread pp hp hl hth
  have : q = me := some.inj (hq.parent.symm.trans hpar)
  exact ⟨hth, this ▸ hq⟩

end

omit [Image] in
theorem live_of_parent {procs : Nat → Proc} (h : Slots procs s) (hi : i < NPROC)
    (hpar : (procs i).parent = some q) : s.live i := by
  by_contra hl
  rw [(h.unused i hi hl).parent] at hpar; cases hpar

section
variable (h : Leaving W L k me) (hp : pp < NPROC) (hpar : (k.procs pp).parent = some me)
include h hp hpar

theorem Leaving.adopt
    (ht : (k.procs pp).tgid ≠ (k.procs me).pid) (hs : Still k.sys s) :
    Leaving W L { k with
      sys := s
      procs := update k.procs pp { k.procs pp with parent := some k.sys.initproc } } me := by
  have hl := live_of_parent h.slots hp hpar
  have hne : me ≠ pp := fun hx => h.family.self pp hp (by rw [hpar, hx])
  have hme : update k.procs pp { k.procs pp with parent := some k.sys.initproc } me = k.procs me :=
    update_of_ne hne _ _
  have hi : k.sys.initproc ≠ pp := fun hx => by rw [← hx, h.family.root] at hpar; cases hpar
  have hc : Core W L { k with sys := s } := h.toCore.setSys hs.file hs.inode
  refine ⟨hc.setProc hp rfl rfl (fun r hr => hc.user pp hp r hr) (fun _ => rfl) rfl,
    (h.slots.adopt hl (h.leader hp hl hpar ht)).rel hs.toSysRel, ?_, fun i hlt hli hdi him => ?_, hs.held.trans h.held,
    hs.cur.trans h.cur, h.alive.rel hs.toSysRel, h.slot, by rw [hs.initproc]; exact h.other, ?_, ?_⟩
  · have hf := h.family
    refine ⟨by rw [hs.initproc]; exact hf.slot, by rw [hs.initproc, hs.live]; exact hf.live,
      by rw [hs.initproc, hs.dead]; exact hf.alive, ?_, fun i hlt => ?_⟩
    · dsimp only
      rw [hs.initproc, update_of_ne hi]; exact hf.root
    · dsimp only
      by_cases hip : i = pp
      · rw [hip, update_self]; exact fun hx => hi (some.inj hx)
      · rw [update_of_ne hip]; exact hf.self i hlt
  · dsimp only at hli hdi ⊢
    rw [hs.live] at hli
    rw [hs.dead] at hdi
    by_cases hip : i = pp
    · rw [hip, update_self]; exact h.homed pp hp hl (hip ▸ hdi) hne.symm
    · rw [update_of_ne hip]; exact h.homed i hlt hli hdi him
  · dsimp only; rw [hme]; exact h.ofile
  · dsimp only; rw [hme]; exact h.cwd

theorem Leaving.reap
    (ht : (k.procs pp).tgid = (k.procs me).pid) (hc : Core W L k') (hr : Reaped k k' me pp) : Leaving W L k' me := by
  have hl := live_of_parent h.slots hp hpar
  have hne : pp ≠ me := fun hx => h.family.self pp hp (by rw [hpar, hx])
  obtain ⟨hth, hlead⟩ := h.leads hp hl hpar ht
  have hself : k'.procs me = { k.procs me with thread_count := (k.procs me).thread_count - 1 } := by
    rw [hr.procs]; exact update_self ..
  have hother : ∀ i, i ≠ me → i ≠ pp → k'.procs i = k.procs i := fun i h1 h2 => by
    rw [hr.procs, update_of_ne h1, update_of_ne h2]
  have hi : k.sys.initproc ≠ pp := fun hx => by rw [← hx, h.family.root] at hpar; cases hpar
  refine ⟨hc, ?_, ?_, fun i hlt hli hdi him => ?_, hr.held.trans h.held, hr.cur.trans h.cur, ?_, h.slot,
    by rw [hr.initproc]; exact h.other, by rw [hself]; exact h.ofile, by rw [hself]; exact h.cwd⟩
  · rw [hr.procs]
    exact h.slots.freeThread hp hl hth hlead hr.empty hr.bounded hr.gone
  · have hf := h.family
    refine ⟨by rw [hr.initproc]; exact hf.slot, by rw [hr.initproc, hr.gone.live]; exact ⟨hf.live, hi⟩,
      by rw [hr.initproc, hr.gone.dead]; exact fun hx => hf.alive hx.1, ?_, fun i hlt => ?_⟩
    · rw [hr.initproc, hother _ h.other.symm hi]; exact hf.root
    · by_cases him : i = me
      · rw [him, hself]; exact hf.self me h.slot
      · by_cases hip : i = pp
        · rw [hip, hr.empty.parent]; simp
        · rw [hother i him hip]; exact hf.self i hlt
  · have hip := ((hr.gone.live i).mp hli).2
    rw [hother i him hip]
    exact h.homed i hlt ((hr.gone.live i).mp hli).1 (fun hx => hdi ((hr.gone.dead i).mpr ⟨hx, hip⟩)) him
  · have hcur := h.cur
    constructor
    · exact (hr.gone.live k'.sys.cur).mpr (by rw [hr.cur]; exact ⟨h.alive.1, by rw [hcur]; exact hne.symm⟩)
    · exact fun hx => h.alive.2 (by have := ((hr.gone.dead k'.sys.cur).mp hx).1; rwa [hr.cur] at this)

end

section
omit [Image]

theorem wp_wakeup_core {chan : Chan} (h : ∀ s, Still k.sys s → Q () { k with sys := s }) :
    wp (ksys (wakeup chan)) Q Allowed k := by
  rw [wp_ksys]
  exact wp_wakeup (fun _ => trivial) h

theorem Passed.adopt (h : Passed k0 k me) (hs : Still k.sys s) (hne : me ≠ pp) :
    Passed k0 { k with sys := s, procs := update k.procs pp { k.procs pp with parent := some x } } me := by
  have hne' : update k.procs pp { k.procs pp with parent := some x } me = k.procs me := update_of_ne hne _ _
  refine ⟨h.kpages, hs.initproc.trans h.initproc, fun i hi => h.live i ((hs.live i).mp hi),
    by dsimp only; rw [hne']; exact h.self,
    fun i hi => ?_, fun h0 => ⟨(h.alone h0).1, fun i hi => (hs.live i).mpr ((h.alone h0).2 i hi)⟩, hs.cur.trans h.cur,
    fun hme r hr => h.within hme r ?_⟩
  · have := h.kept i ((hs.live i).mp hi)
    dsimp only
    by_cases hip : i = pp
    · rw [hip] at this ⊢
      rw [update_self, this]
    · rw [update_of_ne hip]; exact this
  · exact (tables_update (by rfl)).subset hr

theorem Passed.reap (h : Passed k0 k me) (hl : k.sys.live pp) (hp : pp < NPROC) (hne : pp ≠ me)
    (ht : (k.procs pp).tgid = (k.procs me).pid) (hr : Reaped k k' me pp) : Passed k0 k' me := by
  have hself : k'.procs me = { k.procs me with thread_count := (k.procs me).thread_count - 1 } := by
    rw [hr.procs]; exact update_self ..
  refine ⟨hr.kpages.trans h.kpages, hr.initproc.trans h.initproc, fun i hi => h.live i ((hr.gone.live i).mp hi).1, ?_,
    fun i hi => ?_, fun h0 => ?_, hr.cur.trans h.cur, fun hme => ?_⟩
  · rw [hself, h.self]
  · obtain ⟨hi', hip⟩ := (hr.gone.live i).mp hi
    have := h.kept i hi'
    by_cases him : i = me
    · rw [him] at this ⊢
      rw [hself, this]
    · have ho : k'.procs i = k.procs i := by rw [hr.procs, update_of_ne him, update_of_ne hip]
      rw [ho]; exact this
  · have h1 := h.kept pp hl
    have h2 := h.self
    refine absurd (h0 pp hp (h.live pp hl) ?_) hne
    rw [h1, h2] at ht
    exact ht
  · refine (h.within hme).trans hr.within (fun r hr' => ?_) fun r n hx => ?_
    · obtain ⟨i, hi, hir⟩ := mem_tables.mp hr'
      refine mem_tables.mpr ⟨i, hi, ?_⟩
      by_cases him : i = me
      · rw [him, hself] at hir; rw [him]; exact hir
      · rw [hr.procs, update_of_ne him] at hir
        by_cases hip : i = pp
        · rw [hip, update_self, hr.empty.pagetable] at hir; cases hir
        · rwa [update_of_ne hip] at hir
    · refine hx.mono h.cur ?_ ?_ fun _ _ _ => ?_ <;> rw [hme, h.self]

end

theorem Leaving.wp_reapThread (h : Leaving W L k me)
    (hp : pp < NPROC) (hpar : (k.procs pp).parent = some me) (ht : (k.procs pp).tgid = (k.procs me).pid)
    (hq : q = { k.procs pp with parent := q.parent }) (hk1 : k1 = { k with procs := update k.procs pp q })
    (hQ : ∀ k', Leaving W L k' me → Reaped k k' me pp → Q () k') : wp (reapThread me pp) Q Allowed k1 := by
  have hme := h.cur
  have hl := live_of_parent h.slots hp hpar
  have hne : pp ≠ me := fun hx => h.family.self pp hp (by rw [hpar, hx])
  obtain ⟨hth, hlead⟩ := h.leads hp hl hpar ht
  have hb := h.slots.bounded pp hp
  have hcur1 : k1.sys.cur = me := by rw [hk1]; exact hme
  have hpp1 : k1.procs pp = q := by rw [hk1]; exact update_self ..
  have hme1 : k1.procs me = k.procs me := by rw [hk1]; exact update_of_ne hne.symm _ _
  have hc1 : Core W L k1 := by
    rw [hk1]
    exact h.toCore.setProc hp (by rw [hq]) (by rw [hq]) (fun r hr => by rw [hq] at hr ⊢; exact h.user pp hp r hr)
      (fun _ => by rw [hq]; rfl) (by rw [hq])
  have hk' : Runs k1 := by
    refine h.runs.rel (by rw [hk1]; exact SysRel.refl _) ?_ ?_ <;> rw [hme, hme1]
    · exact h.slots.bounded me h.slot
    · exact (h.slots.used me h.slot (hme ▸ h.alive.1)).1
  rw [← hcur1]
  refine Xv6.wp_reapThread hc1 hk' hp (by rw [hcur1]; exact hne) (by rw [hpp1, hq]; exact ⟨hb.sz, hb.vma⟩)
    (by rw [hpp1, hq]; exact hth) (by rw [hcur1, hpp1, hme1, hq]; exact hlead.pagetable.symm) fun k2 hc2 hr2 => ?_
  rw [hcur1] at hr2
  have hr : Reaped k k2 me pp := by
    refine ⟨?_, hr2.empty, hr2.bounded, ?_, ?_, ?_, ?_, ?_, fun r hr n hn hv => ?_⟩
    · rw [hr2.procs, hme1, hk1, update_idem, update_of_ne hne, update_self]
    · have := hr2.gone; rw [hk1] at this; exact this
    · have := hr2.held; rw [hk1] at this; exact this
    · have := hr2.cur; rw [hk1] at this; exact this
    · have := hr2.initproc; rw [hk1] at this; exact this
    · have := hr2.kpages; rw [hk1] at this; exact this
    · refine (hr2.within r hr n hn hv).imp (fun hx => by rw [hk1] at hx; exact hx) fun hx => ?_
      refine hx.mono (by rw [hcur1, hme]) ?_ ?_ fun _ _ _ => ?_ <;> rw [hme, hme1]
  exact hQ k2 (h.reap hp hpar ht hc2 hr) hr

theorem wp_reparentOne (h : Leaving W L k me) (hpass : Passed k0 k me) (hp : pp < NPROC)
    (hdone : ∀ j < pp, (k.procs j).parent ≠ some me) :
    wp (reparentOne me pp) (fun _ k' => Leaving W L k' me ∧ Passed k0 k' me ∧ ∀ j < pp + 1, (k'.procs j).parent ≠ some me)
      Allowed k := by
  unfold reparentOne
  rw [wp_read]
  refine wp_ite (fun hpar => wp_ret ⟨h, hpass, fun j hj => ?_⟩) fun hpar => ?_
  · rcases Nat.lt_succ_iff_lt_or_eq.mp hj with hlt | rfl
    · exact hdone j hlt
    · exact hpar
  replace hpar : (k.procs pp).parent = some me := not_not.mp hpar
  have hl := live_of_parent h.slots hp hpar
  have hne : pp ≠ me := fun hx => h.family.self pp hp (by rw [hpar, hx])
  have hmore : ∀ {k' : Kernel}, (∀ j, j ≠ pp → (k'.procs j).parent = (k.procs j).parent) → (k'.procs pp).parent ≠ some me →
      ∀ j < pp + 1, (k'.procs j).parent ≠ some me := fun ho hx j hj => by
    by_cases hjp : j = pp
    · rw [hjp]; exact hx
    · rw [ho j hjp]; exact hdone j (by omega)
  rw [wp_bind, wp_setProc]
  refine wp_ite (fun ht => ?_) fun ht => ?_
  · refine h.wp_reapThread hp hpar ht rfl rfl fun k2 h2 hr => ⟨h2, hpass.reap hl hp hne ht hr, hmore (fun j hj => ?_) ?_⟩
    · by_cases hjm : j = me
      · rw [hjm, hr.procs, update_self]
      · rw [hr.procs, update_of_ne hjm, update_of_ne hj]
    · rw [hr.empty.parent]; simp
  · refine wp_wakeup_core fun s hs => ⟨h.adopt hp hpar ht hs, hpass.adopt hs hne.symm, hmore (fun j hj => ?_) ?_⟩
    · dsimp only; rw [update_of_ne hj]
    · dsimp only; rw [update_self]; exact fun hx => h.other (some.inj hx).symm

theorem wp_reparent (h : Leaving W L k me)
    (hQ : ∀ k', Leaving W L k' me → Passed k k' me → (∀ j < NPROC, (k'.procs j).parent ≠ some me) → Q () k') :
    wp (reparent me) Q Allowed k := by
  refine wp_post (wp_forN (fun i k' => Leaving W L k' me ∧ Passed k k' me ∧ ∀ j < i, (k'.procs j).parent ≠ some me)
    ⟨h, Passed.refl k me, fun j hj => absurd hj (Nat.not_lt_zero _)⟩ ?_) fun _ k' hI => hQ k' hI.1 hI.2.1 hI.2.2
  rintro pp k1 hp ⟨h1, hp1, hd1⟩
  exact wp_reparentOne h1 hp1 hp hd1

/-! ## `exit` -/

structure Exited (k k' : Kernel) (me : Nat) : Prop where
  kpages : k'.kpages = k.kpages
  initproc : k'.sys.initproc = k.sys.initproc
  zombie : k'.sys.dead me
  live : ∀ i, k'.sys.live i → k.sys.live i
  kept : ∀ i, k'.sys.live i → k'.procs i = { k.procs i with
    parent := (k'.procs i).parent, thread_count := (k'.procs i).thread_count, ofile := (k'.procs i).ofile,
    cwd := (k'.procs i).cwd }
  alone : (∀ j < NPROC, k.sys.live j → (k.procs j).tgid = (k.procs me).pid → j = me) →
    k'.mem = k.mem ∧ ∀ i, k.sys.live i → k'.sys.live i
  within : Within k k'

theorem Inv.leaving (h : Inv W L k) (hk : Runs k) (hme : k.sys.cur = me) (hi : me ≠ k.sys.initproc)
    (hc : Core W L k') (hh : Handed k k' me) (hf : ∀ fd < NOFILE, (k'.procs me).ofile fd = none)
    (hcwd : (k'.procs me).cwd = none) (hv : (k'.procs me).vmas = (k.procs me).vmas) :
    Leaving W L { k' with sys := k'.sys.lock .wait } me := by
  have hlt : me < NPROC := hme ▸ hk.slot
  have hl : k.sys.live me := hme ▸ hk.alive.1
  have hself := hh.self
  have htied : ∀ i, (k.procs i).Tied (k'.procs i) := fun i => by
    by_cases him : i = me
    · rw [him, hself]; exact ⟨rfl, rfl, rfl, rfl, rfl, rfl, rfl⟩
    · rw [hh.other i him]; exact Proc.Tied.refl _
  have hslots : Slots k'.procs k'.sys := by
    refine (h.slots.files htied (fun i hi hli => ?_) (fun i hi hdi => ?_) fun i hi => ?_).rel hh.rel
    · rw [hh.other i fun hx => hli (hx ▸ hl)]; exact h.slots.unused i hi hli
    · rw [hh.other i fun hx => (hme ▸ hk.alive.2) (hx ▸ hdi)]; exact h.slots.zombie i hi hdi
    · by_cases him : i = me
      · have hb := h.slots.bounded me hlt
        rw [him]
        exact ⟨by rw [hself]; exact hb.sz, by rw [hv]; exact hb.vma⟩
      · rw [hh.other i him]; exact h.slots.bounded i hi
  have hrel := hh.rel
  have hinit : (k'.sys.lock .wait).initproc = k.sys.initproc := hrel.initproc
  refine ⟨hc.setSys rfl rfl, hslots.skip (fun _ => .inl rfl) (fun _ => Iff.rfl) (fun _ => Iff.rfl) le_rfl, ?_,
    fun i hlt hli hdi him => ?_, ?_, hrel.cur.trans hme, (hk.alive.rel hrel).lock _, hlt, ?_, hf, hcwd⟩
  · have hfam := h.family
    refine ⟨by rw [hinit]; exact hfam.slot, ?_, ?_, ?_, fun i hlt => ?_⟩
    · rw [hinit]
      exact (hrel.live _).mpr hfam.live
    · rw [hinit]
      exact fun hx => hfam.alive ((hrel.dead _).mp hx)
    · rw [hinit]
      exact (htied _).parent.trans hfam.root
    · rw [show (Kernel.procs { k' with sys := k'.sys.lock .wait } i).parent = (k.procs i).parent from (htied i).parent]
      exact hfam.self i hlt
  · rw [show Kernel.procs { k' with sys := k'.sys.lock .wait } i = k.procs i from hh.other i him]
    exact h.homed i hlt ((hrel.live i).mp hli) (fun hx => hdi ((hrel.dead i).mpr hx)) (ne_of_lt hlt)
  · dsimp only [Sys.lock]; rw [hrel.held, h.held]
  · rw [hinit]; exact hi

theorem Leaving.die (h : Leaving W L k me) (hno : ∀ j < NPROC, (k.procs j).parent ≠ some me)
    (hd : Died k.sys s me) (hf : s.file = k.sys.file) (hi : s.inode = k.sys.inode) (hini : s.initproc = k.sys.initproc)
    (hheld : s.held = []) : Inv W L { k with sys := s } where
  toCore := h.toCore.setSys hf hi
  slots := by
    refine h.slots.die hd (fun _ j hj hl ht => ?_) h.ofile h.cwd
    by_contra hjm
    by_cases hth : (k.procs j).tgid = (k.procs j).pid
    · exact hjm (h.slots.pids j hj me h.slot hl (h.cur ▸ h.alive.1) (hth.symm.trans ht))
    · obtain ⟨q, hq⟩ := h.slots.thread j hj hl hth
      have hqm := h.slots.pids q hq.slot me h.slot hq.live (h.cur ▸ h.alive.1) (hq.group.trans ht)
      exact hno j hj (by rw [hq.parent, hqm])
  family := by
    have hfam := h.family
    refine ⟨?_, ?_, ?_, ?_, hfam.self⟩ <;> dsimp only <;> rw [hini]
    · exact hfam.slot
    · exact (hd.live _).mpr hfam.live
    · exact fun hx => ((hd.dead _).mp hx).elim hfam.alive h.other.symm
    · exact hfam.root
  homed i hlt hl hdi _ :=
    h.homed i hlt ((hd.live i).mp hl) (fun hx => hdi ((hd.dead i).mpr (.inl hx))) fun hx => hdi ((hd.dead i).mpr (.inr hx))
  held := hheld

omit [Image] in
theorem wp_wakeParent {o : Option Nat} {Q : Unit → Sys → Prop} (h : ∀ s', Still s s' → Q () s') :
    wp (wakeParent o) Q (fun e => Allowed (.sys e)) s := by
  cases o with
  | none | some q => exact wp_wakeup (fun _ => trivial) h

theorem wp_kexit {status : Int} (h : Inv W L k) (hk : Runs k)
    (hQ : ∀ k', Inv W L k' → Exited k k' k.sys.cur → Q () k') : wp (kexit status) Q Allowed k := by
  unfold kexit
  simp only [wp_bind, wp_myproc, wp_get]
  refine wp_ite (fun _ => wp_fail trivial) fun hi => ?_
  refine wp_seq (wp_closeFiles h.toCore hk.alive hk.slot fun k1 hc1 hh1 hcwd1 hv1 hf1 => ?_)
  refine wp_seq (wp_leaveCwd hc1 (hk.alive.rel hh1.rel) hk.slot ?_ fun k2 hc2 hh2 hcwd2 hf2 hv2 => ?_)
  · rw [hcwd1]
    exact h.homed _ hk.slot hk.alive.1 hk.alive.2 (ne_of_lt hk.slot)
  have hh := hh1.trans hh2
  have hself : k2.procs k.sys.cur = { k.procs k.sys.cur with
      ofile := (k2.procs k.sys.cur).ofile, cwd := (k2.procs k.sys.cur).cwd } := by
    have := hh.self
    rw [hv2.trans hv1] at this
    exact this
  simp only [wp_bind, wp_ksys]
  refine wp_acquire (fun _ => trivial) fun _ => ?_
  have hlv := h.leaving hk rfl hi hc2 hh (by rw [hf2]; exact hf1) hcwd2 (hv2.trans hv1)
  refine wp_reparent hlv fun k3 hl3 hp3 hno3 => ?_
  rw [wp_getProc]
  refine wp_wakeParent fun s hs => ?_
  refine wp_acquire (fun _ => trivial) fun _ => ?_
  simp only [wp_setRun]
  have hheld : s.held = [.wait] := hs.held.trans hl3.held
  refine wp_release (by simp [Sys.setRun, Sys.lock, hheld]) ?_
  unfold sched
  rw [wp_read]
  refine wp_ite (fun _ => wp_fail trivial) fun _ => wp_ret (wp_release ?_ ?_)
  · simp [Sys.unlock, Sys.setRun, Sys.lock, hheld]
  generalize hs' : Sys.unlock _ (.proc k.sys.cur) = s'
  have hrun : ∀ j, (s'.run j).state = if j = k.sys.cur then .ZOMBIE else (s.run j).state := fun j => by
    rw [← hs']
    simp only [Sys.unlock, Sys.lock, Sys.setRun, update_apply]; split <;> rfl
  have hd : Died k3.sys s' k.sys.cur := by
    refine ⟨fun j => ?_, fun j => ?_, by rw [← hs']; exact hs.nextpid⟩
    · rw [← hs.live]
      unfold Sys.live
      rw [hrun]
      by_cases hj : j = k.sys.cur
      · have := (hs.live k.sys.cur).mpr (hl3.cur ▸ hl3.alive.1)
        rw [if_pos hj, hj]
        exact iff_of_true (by decide) this
      · rw [if_neg hj]
    · rw [← hs.dead]
      unfold Sys.dead
      rw [hrun]
      by_cases hj : j = k.sys.cur
      · rw [if_pos hj]; exact iff_of_true rfl (.inr hj)
      · rw [if_neg hj]; simp [hj]
  refine hQ _ (hl3.die hno3 hd (by rw [← hs']; exact hs.file) (by rw [← hs']; exact hs.inode)
    (by rw [← hs']; exact hs.initproc)
    (by rw [← hs']; simp [Sys.unlock, Sys.setRun, Sys.lock, hheld])) ⟨?_, ?_, (hd.dead _).mpr (.inr rfl), fun i hli => ?_,
      fun i hli => ?_, fun h0 => ?_, fun r hr n hn hv => ?_⟩
  · exact hp3.kpages.trans hh.kpages
  · rw [← hs']; exact hs.initproc.trans (hp3.initproc.trans hh.rel.initproc)
  · exact (hh.rel.live i).mp (hp3.live i ((hd.live i).mp hli))
  · have h3 := hp3.kept i ((hd.live i).mp hli)
    by_cases him : i = k.sys.cur
    · rw [him] at h3 ⊢
      rw [hself] at h3
      rw [h3]
    · dsimp only at h3 ⊢
      rw [hh.other i him] at h3
      rw [h3]
  · have ha := hp3.alone fun j hj hlj ht => ?_
    · exact ⟨ha.1.trans hh.mem, fun i hli => (hd.live i).mpr (ha.2 i ((hh.rel.live i).mpr hli))⟩
    · refine h0 j hj ((hh.rel.live j).mp hlj) ?_
      rw [hself] at ht
      by_cases hjm : j = k.sys.cur
      · rw [hjm] at ht ⊢; rw [hself] at ht; exact ht
      · rw [hh.other j hjm] at ht; exact ht
  · refine (hp3.within hh.rel.cur r hr n hn hv).imp (fun hx => by dsimp only at hx; rw [hh.mem] at hx; exact hx) fun hx => ?_
    exact hh.inCur (hv2.trans hv1) hx

/-! ## `wait` -/

theorem Inv.remove (h : Inv W L k) (hpp : pp ≠ k.sys.initproc) (hc : Core W L k') (hs : Slots k'.procs k'.sys)
    (ho : ∀ i, i ≠ pp → (k'.procs i).parent = (k.procs i).parent ∧ (k'.procs i).cwd = (k.procs i).cwd)
    (hpar : (k'.procs pp).parent = none) (hg : Gone k.sys k'.sys pp) (hi : k'.sys.initproc = k.sys.initproc)
    (hh : k'.sys.held = []) : Inv W L k' where
  toCore := hc
  slots := hs
  family := by
    have hf := h.family
    refine ⟨by rw [hi]; exact hf.slot, by rw [hi, hg.live]; exact ⟨hf.live, hpp.symm⟩,
      by rw [hi, hg.dead]; exact fun hx => hf.alive hx.1, by rw [hi, (ho _ hpp.symm).1]; exact hf.root, fun i hlt => ?_⟩
    by_cases hip : i = pp
    · rw [hip, hpar]; simp
    · rw [(ho i hip).1]; exact hf.self i hlt
  homed i hlt hli hdi hne := by
    obtain ⟨hl, hip⟩ := (hg.live i).mp hli
    rw [(ho i hip).2]
    exact h.homed i hlt hl (fun hx => hdi ((hg.dead i).mpr ⟨hx, hip⟩)) hne
  held := hh

/-- `n` bytes of the exit status of `pp` were stored at `addr`. -/
def StatusAt (k : Kernel) (m : Mem) (pp addr n : Nat) : Prop := ∀ r, (k.procs k.sys.cur).pagetable = some r →
  Stored (k.procs k.sys.cur) k.mem m (tables k.procs) r addr ((intBytes (k.sys.run pp).xstate).take n)

theorem wp_copyStatus {Q : Bool → Kernel → Prop} (hc : Core W L k) (hk : Runs k) (hsys : ∀ e, E (.sys e))
    (h : ∀ ok s m n, Core W L { k with sys := s, mem := m } → Kept k.sys s →
      StatusAt k m pp addr n → (addr = 0 → ok = true ∧ n = 0) → Q ok { k with sys := s, mem := m }) :
    wp (copyStatus k.sys.cur pp addr) Q E k := by
  obtain ⟨r, ρ, hr, hU⟩ := hc.userOk hk
  unfold copyStatus
  rw [wp_read]
  refine wp_ite (fun h0 => wp_ret ?_) fun h0 => ?_
  · exact h true k.sys k.mem 0 hc (Kept.refl _) (fun r' _ => Stored.refl ..) fun _ => ⟨rfl, rfl⟩
  refine wp_seq (wp_tableOf hr ?_)
  rw [wp_onV]
  refine wp_copyout hU (Unstopped.all hsys _) fun ok n s' ρ' hU' _ hR _ => ?_
  refine h ok s'.sys s'.mem n (hc.step hU'.inv hR.touched.tidy (hc.fs.mild hR.kept.mild)) hR.kept (fun r' hr' => ?_)
    fun hx => absurd hx h0
  rw [← some.inj (hr.symm.trans hr')]
  exact hR.toStored

structure Waited (k k' : Kernel) (pp addr : Nat) : Prop where
  slot : pp < NPROC
  zombie : k.sys.dead pp
  child : (k.procs pp).parent = some k.sys.cur ∧ (k.procs pp).tgid = (k.procs pp).pid
  other : ∀ i, i ≠ pp → k'.procs i = k.procs i
  gone : Gone k.sys k'.sys pp
  kpages : k'.kpages = k.kpages
  initproc : k'.sys.initproc = k.sys.initproc
  mem : ∃ m n, (∀ r, (k.procs k.sys.cur).pagetable = some r → Stored (k.procs k.sys.cur) k.mem m (tables k.procs) r addr
      ((intBytes (k.sys.run pp).xstate).take n)) ∧ (addr = 0 → n = 0) ∧
    ((∀ j < MAXVMA, ((k.procs pp).vmas j).used = false) →
      SameView m k'.mem (tables k'.procs) ∧ k'.mem.fails = m.fails)
  within : Within k k'

omit [Image] in
theorem Sys.unlock_lock (s : Sys) (lk : Lock) : (s.lock lk).unlock lk = s := by
  simp only [Sys.lock, Sys.unlock, erase_cons_head]

def Lost (k : Kernel) : Prop := ∃ pp < NPROC, (k.procs pp).parent = some k.sys.cur ∧ k.sys.dead pp ∧
  (k.procs pp).tgid = (k.procs pp).pid ∧ ∃ r, (k.procs pp).pagetable = some r ∧ Astray k pp r

theorem wp_reapChild {Q : Option Nat → Kernel → Prop} (h : Inv W L k) (hk : Runs k) (hp : pp < NPROC)
    (hpar : (k.procs pp).parent = some k.sys.cur) (htg : (k.procs pp).tgid ≠ (k.procs k.sys.cur).pid) (hd : k.sys.dead pp)
    (hf : ∀ s m n, Inv W L { k with sys := s, mem := m } → Kept k.sys s →
      StatusAt k m pp addr n → Q none { k with sys := s, mem := m })
    (hs : ∀ k', Inv W L k' → Waited k k' pp addr → Q (some (k.procs pp).pid) k') (hsys : ∀ e, E (.sys e))
    (hfw : Lost k → E (.mem (.panic .freewalkLeaf))) :
    wp (reapChild k.sys.cur pp addr) Q E { k with sys := (k.sys.lock .wait).lock (.proc pp) } := by
  have hl := live_of_parent h.slots hp hpar
  have hlead : (k.procs pp).tgid = (k.procs pp).pid := by
    by_contra hth
    obtain ⟨q, hq⟩ := h.slots.thread pp hp hl hth
    have : q = k.sys.cur := some.inj (hq.parent.symm.trans hpar)
    exact htg (this ▸ hq.group.symm)
  have hno := h.slots.alone_of_dead hp hl hd
  obtain ⟨r, hr⟩ := ne_none_iff_exists'.mp (h.slots.used pp hp hl).1
  unfold reapChild
  simp only [wp_bind, wp_getProc]
  have hc0 : Core W L { k with sys := (k.sys.lock .wait).lock (.proc pp) } := h.toCore.setSys rfl rfl
  refine wp_copyStatus (k := { k with sys := (k.sys.lock .wait).lock (.proc pp) }) hc0
    ⟨hk.alive, hk.slot, hk.bounded, hk.table⟩ hsys fun ok s m n hc1 hK hst hz => ?_
  have hheld : s.held = [.proc pp, .wait] := by rw [hK.held]; simp [Sys.lock, h.held]
  refine wp_ite (fun _ => ?_) fun _ => ?_
  · simp only [wp_bind, wp_ksys, wp_pure]
    refine wp_release (by simp [hheld]) (wp_release (by simp [Sys.unlock, hheld]) ?_)
    have hrel : Kept k.sys ((s.unlock (.proc pp)).unlock .wait) :=
      ⟨⟨by simp [Sys.unlock, hheld, h.held], hK.cur, hK.initproc, hK.nextpid, hK.unused, hK.zombie, hK.commit⟩,
        hK.file, hK.inode⟩
    exact hf _ m n (h.rel (hc1.setSys rfl rfl) hrel.toSysRel) hrel hst
  · simp only [wp_bind]
    have hk1 : Runs { k with sys := s, mem := m } := by
      refine ⟨hk.alive.rel (s := (k.sys.lock .wait).lock (.proc pp)) hK.toSysRel, ?_, ?_, ?_⟩ <;> dsimp only <;> rw [hK.cur]
      exacts [hk.slot, hk.bounded, hk.table]
    have hone : ∀ i < NPROC, (k.procs i).pagetable = some r → i = pp := fun i hi hir =>
      h.slots.alone hp hi hl hlead hno (hir.trans hr.symm)
    have hcur : (k.procs k.sys.cur).pagetable ≠ some r := fun hx =>
      h.family.self pp hp (by rw [hpar, hone _ hk.slot hx])
    have hstore := ne_none_iff_exists'.mp hk.table
    obtain ⟨rc, hrc⟩ := hstore
    refine wp_freeproc hc1 (.inl hk1) hp (h.slots.bounded pp hp) hr ?_ hsys (fun _ hx => ?_) fun k2 hc2 hf2 => ?_
    · rw [if_pos hlead.symm]
      exact hone
    · refine hfw ⟨pp, hp, hpar, hd, hlead, r, hr, ?_⟩
      obtain ⟨n, hn, hv, hout⟩ := hx.resolve_left (by dsimp only; rw [hK.cur]; exact hcur)
      refine ⟨n, hn, ?_, hout⟩
      rcases (hst rc hrc).inside r (mem_tables.mpr ⟨pp, hp, hr⟩) n hn hv with hy | hy
      · exact hy
      · exact absurd (hy.1 ▸ hrc) hcur
    simp only [wp_ksys, wp_pure]
    have hheld2 : k2.sys.held = [.proc pp, .wait] := hf2.held.trans hheld
    refine wp_release (by simp [hheld2]) (wp_release (by simp [Sys.unlock, hheld2]) ?_)
    have hg : Gone k.sys ((k2.sys.unlock (.proc pp)).unlock .wait) pp := by
      have hg := hf2.gone
      have hK' := hK.toSysRel
      exact ⟨fun j => (hg.live j).trans (and_congr_left' (hK'.live j)),
        fun j => (hg.dead j).trans (and_congr_left' (hK'.dead j)), hg.nextpid.trans hK.nextpid⟩
    obtain ⟨hfile, hcwd⟩ := h.slots.zombie pp hp hd
    obtain ⟨hempty, hbound⟩ := hf2.empty hfile hcwd
    have hprocs : k2.procs = update k.procs pp (k2.procs pp) := by
      funext i
      by_cases hi : i = pp
      · rw [hi, update_self]
      · rw [update_of_ne hi]; exact hf2.other hi
    refine hs _ (h.remove (fun hx => h.family.alive (hx ▸ hd)) (hc2.setSys rfl rfl) ?_
      (fun i hi => ?_) hempty.parent hg ?_ ?_) ?_
    · dsimp only
      rw [hprocs]
      exact h.slots.free hp hl hlead hno hempty hbound hg
    · dsimp only; rw [hf2.other hi]; exact ⟨rfl, rfl⟩
    · exact hf2.initproc.trans hK.initproc
    · simp [Sys.unlock, hheld2]
    · refine ⟨hp, hd, ⟨hpar, hlead⟩, fun i hi => hf2.other hi, hg, hf2.kpages, hf2.initproc.trans hK.initproc,
        ⟨m, n, hst, fun h0 => (hz h0).2, hf2.idle⟩, fun r' hr' n' hn' hv => ?_⟩
      have hmem : r' ∈ tables k.procs := by
        obtain ⟨i, hi, hir⟩ := mem_tables.mp hr'
        by_cases hip : i = pp
        · dsimp only at hir; rw [hip, hempty.pagetable] at hir; cases hir
        · exact mem_tables.mpr ⟨i, hi, by rw [← hf2.other hip]; exact hir⟩
      rcases hf2.within r' hr' n' hn' hv with hx | hx
      · rcases (hst rc hrc).inside r' hmem n' hn' hx with hy | hy
        · exact .inl hy
        · exact .inr ⟨hy.1 ▸ hrc, hy.2⟩
      · exact .inr (hx.mono hK.cur rfl rfl fun _ _ _ => rfl)

omit [Image] in
theorem wp_waitMore {b : Bool} {Q : Option Nat → Sys → Prop} {E : SysStop → Prop} (hA : Alive s) (hs : s.held = [])
    (hE : ∀ e, E e) (h : Q none s) : wp (waitMore s.cur b) Q E (s.lock .wait) := by
  unfold waitMore
  rw [wp_read]
  refine wp_ite (fun _ => ?_) fun _ => ?_
  · exact wp_seq (wp_release (mem_cons_self ..) (by rw [Sys.unlock_lock, wp_pure]; exact h))
  refine wp_seq (wp_acquire (fun _ => hE _) fun _ => ?_)
  refine wp_seq (wp_release (mem_cons_self ..) ?_)
  rw [Sys.unlock_lock]
  refine wp_ite (fun _ => ?_) fun _ => ?_
  · exact wp_seq (wp_release (mem_cons_self ..) (by rw [Sys.unlock_lock, wp_pure]; exact h))
  · rw [wp_bind]
    exact wp_sleep (show _ = _ :: ([] : List Lock) by rw [Sys.lock, hs]) hA (by simp) (.inl rfl) fun _ _ _ => wp_fail (hE _)

theorem wp_kwait {Q : Option Nat → Kernel → Prop} (h : Inv W L k) (hk : Runs k)
    (hsys : ∀ e, E (.sys e)) (hfw : Lost k → E (.mem (.panic .freewalkLeaf))) (hn : Q none k)
    (hf : ∀ s m pp n, Inv W L { k with sys := s, mem := m } → Kept k.sys s →
      StatusAt k m pp addr n → Q none { k with sys := s, mem := m })
    (hs : ∀ k' pp, Inv W L k' → Waited k k' pp addr → Q (some (k.procs pp).pid) k') : wp (kwait addr) Q E k := by
  unfold kwait
  simp only [wp_bind, wp_myproc, wp_ksys]
  refine wp_acquire (fun _ => hsys _) fun _ => ?_
  refine wp_search (fun _ k' => k' = { k with sys := k.sys.lock .wait }) rfl ?_ ?_
  · rintro pp _ - hp rfl
    unfold waitOne
    rw [wp_read]
    refine wp_ite (fun _ => wp_ret rfl) fun hpar => ?_
    simp only [wp_bind, wp_ksys]
    refine wp_acquire (fun _ => hsys _) fun _ => ?_
    refine wp_ite (fun _ => ?_) fun htg => wp_ite (fun hd => ?_) fun _ => ?_
    · simp only [wp_bind, wp_ksys, wp_pure]
      exact wp_release (mem_cons_self ..) (by rw [Sys.unlock_lock])
    · rw [wp_bind]
      refine wp_reapChild h hk (by omega) (not_not.mp hpar) htg hd (fun s m n hI hK hst => ?_) (fun k' hI hw => ?_) hsys hfw
      · exact wp_ret (wp_ret (hf s m pp n hI hK hst))
      · exact wp_ret (wp_ret (hs k' pp hI hw))
    · simp only [wp_bind, wp_ksys, wp_pure]
      exact wp_release (mem_cons_self ..) (by rw [Sys.unlock_lock])
  · rintro _ rfl
    simp only [wp_bind, wp_get, wp_ksys]
    exact wp_waitMore hk.alive h.held (fun e => hsys e) hn

theorem wp_joinOne {Q : Option Nat → Kernel → Prop} (h : Inv W L k) (hk : Runs k) (hp : pp < NPROC)
    (hn : Q none { k with sys := k.sys.lock .wait })
    (hs : ∀ k', Inv W L k' → Reaped k k' k.sys.cur pp → Q (some (k.procs pp).pid) k') :
    wp (joinOne k.sys.cur pp) Q Allowed { k with sys := k.sys.lock .wait } := by
  unfold joinOne
  rw [wp_read]
  refine wp_ite (fun _ => wp_ret hn) fun hpar => ?_
  replace hpar : (k.procs pp).parent = some k.sys.cur := not_not.mp hpar
  simp only [wp_bind, wp_ksys]
  refine wp_acquire (fun _ => trivial) fun _ => ?_
  refine wp_ite (fun _ => ?_) fun htg => wp_ite (fun hd => ?_) fun _ => ?_
  · simp only [wp_bind, wp_ksys, wp_pure]
    exact wp_release (mem_cons_self ..) (by rw [Sys.unlock_lock]; exact hn)
  · replace htg : (k.procs pp).tgid = (k.procs k.sys.cur).pid := not_not.mp htg
    replace hd : k.sys.dead pp := hd
    have hl := live_of_parent h.slots hp hpar
    have hne : pp ≠ k.sys.cur := fun hx => h.family.self pp hp (by rw [hpar, hx])
    have hth : (k.procs pp).tgid ≠ (k.procs pp).pid := fun hx =>
      hne (h.slots.pids pp hp _ hk.slot hl hk.alive.1 (hx.symm.trans htg))
    obtain ⟨q, hlead⟩ := h.slots.thread pp hp hl hth
    obtain rfl : q = k.sys.cur := some.inj (hlead.parent.symm.trans hpar)
    obtain ⟨r, hr⟩ := ne_none_iff_exists'.mp hk.table
    obtain ⟨hfile, hcwd⟩ := h.slots.zombie pp hp hd
    have hc0 : Core W L { k with sys := (k.sys.lock .wait).lock (.proc pp) } := h.toCore.setSys rfl rfl
    simp only [wp_bind]
    refine wp_freeproc (r := r) hc0 (.inl ⟨hk.alive, hk.slot, hk.bounded, hk.table⟩) hp (h.slots.bounded pp hp)
      (hlead.pagetable.symm.trans hr) ?_ allowed_sys (fun _ _ => by simp [Allowed]) fun k2 hc2 hf2 => ?_
    · rw [if_neg fun hx => hth hx.symm]
      exact ⟨_, hk.slot, hne.symm, hr⟩
    simp only [wp_ksys, wp_setProc, wp_pure]
    have hheld : k2.sys.held = [.proc pp, .wait] := by rw [hf2.held]; simp [Sys.lock, h.held]
    refine wp_release (by simp [hheld]) (wp_release (by simp [Sys.unlock, hheld]) ?_)
    have hc3 : Core W L { k2 with sys := (k2.sys.unlock (.proc pp)).unlock .wait } := hc2.setSys rfl rfl
    have hre := hf2.reaped ((k2.sys.unlock (.proc pp)).unlock .wait).held hne (Handed.refl _ pp) rfl hfile hcwd
      (by simp [Sys.unlock, hheld, h.held])
    refine hs _ (h.remove (fun hx => h.family.alive (hx ▸ hd))
      (hc3.setProc hk.slot rfl rfl (fun r hr => hc3.user _ hk.slot r hr) (fun _ => rfl) rfl) ?_
        (fun i hi => ?_) hre.empty.parent
      hre.gone hre.initproc (hre.held.trans h.held)) hre
    · rw [hre.procs]
      exact h.slots.freeThread hp hl hth hlead hre.empty hre.bounded hre.gone
    · rw [hre.procs]
      by_cases him : i = k.sys.cur
      · rw [him, update_self]; exact ⟨rfl, rfl⟩
      · rw [update_of_ne him, update_of_ne hi]; exact ⟨rfl, rfl⟩
  · simp only [wp_bind, wp_ksys, wp_pure]
    exact wp_release (mem_cons_self ..) (by rw [Sys.unlock_lock]; exact hn)

theorem wp_join {Q : Option Nat → Kernel → Prop} (h : Inv W L k) (hk : Runs k) (hn : Q none k)
    (hs : ∀ k' pp, Inv W L k' → Reaped k k' k.sys.cur pp → Q (some (k.procs pp).pid) k') : wp join Q Allowed k := by
  unfold join
  simp only [wp_bind, wp_myproc, wp_ksys]
  refine wp_acquire (fun _ => trivial) fun _ => ?_
  refine wp_search (fun _ k' => k' = { k with sys := k.sys.lock .wait }) rfl ?_ ?_
  · rintro pp _ - hp rfl
    exact wp_joinOne h hk (by omega) rfl fun k' hI hr => wp_ret (hs k' pp hI hr)
  · rintro _ rfl
    simp only [wp_bind, wp_get, wp_ksys]
    exact wp_waitMore hk.alive h.held (fun _ => trivial) hn

end Xv6
