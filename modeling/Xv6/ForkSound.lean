import Xv6.FreeSound

/-!
# `fork` and `clone`

A child gets its parent's open files, directory and mappings; `kfork` also
shares the parent's pages with it, and `clone` its whole table.
-/

namespace Xv6

open Hoare Function Option Finset

variable {s : Sys} {f ip : Nat}

structure Handed (k k' : Kernel) (np : Nat) : Prop where
  other : ∀ i, i ≠ np → k'.procs i = k.procs i
  self : k'.procs np = { k.procs np with
    ofile := (k'.procs np).ofile, cwd := (k'.procs np).cwd, vmas := (k'.procs np).vmas }
  mem : k'.mem = k.mem
  kpages : k'.kpages = k.kpages
  rel : SysRel k.sys k'.sys

section
variable {k k' k'' : Kernel} {np : Nat}

theorem Handed.refl (k : Kernel) (np : Nat) : Handed k k np := ⟨fun _ _ => rfl, rfl, rfl, rfl, SysRel.refl _⟩

theorem Handed.trans (h : Handed k k' np) (h' : Handed k' k'' np) : Handed k k'' np where
  other i hi := (h'.other i hi).trans (h.other i hi)
  self := by
    have := h'.self
    rw [h.self] at this
    exact this
  mem := h'.mem.trans h.mem
  kpages := h'.kpages.trans h.kpages
  rel := h.rel.trans h'.rel

theorem Handed.set (h : Handed k k' np) (hs : SysRel k'.sys s)
    (hq : q = { k'.procs np with ofile := q.ofile, cwd := q.cwd, vmas := q.vmas }) :
    Handed k { k' with sys := s, procs := update k'.procs np q } np where
  other i hi := by dsimp only; rw [update_of_ne hi]; exact h.other i hi
  self := by
    dsimp only
    rw [update_self]
    rw [h.self] at hq
    exact hq
  mem := h.mem
  kpages := h.kpages
  rel := h.rel.trans hs

structure Given (k k' : Kernel) (np : Nat) : Prop extends Handed k k' np where
  shows : k.sys.ShowsAs k'.sys

theorem Given.refl (k : Kernel) (np : Nat) : Given k k np := ⟨Handed.refl k np, fun _ _ => rfl⟩

theorem Given.trans (h : Given k k' np) (h' : Given k' k'' np) : Given k k'' np :=
  ⟨h.toHanded.trans h'.toHanded, fun v x => (h'.shows v x).trans (h.shows v x)⟩

theorem FileSet.shows (h : FileSet s s' f { s.file f with ref := n }) :
    s.ShowsAs s' := by
  refine Vma.byteAt_congr (fun g => ?_) fun ip => by rw [h.inode]
  rw [h.file]
  by_cases hg : g = f
  · rw [hg, update_self]
  · rw [update_of_ne hg]

theorem InodeSet.shows (h : InodeSet s s' ip { s.inode ip with ref := n }) :
    s.ShowsAs s' := by
  refine Vma.byteAt_congr (fun g => by rw [h.file]) fun jp => ?_
  rw [h.inode]
  by_cases hj : jp = ip
  · rw [hj, update_self]; rfl
  · rw [update_of_ne hj]

theorem Given.set (h : Given k k' np) (hs : SysRel k'.sys s)
    (hv : k'.sys.ShowsAs s) (hq : q = { k'.procs np with ofile := q.ofile, cwd := q.cwd, vmas := q.vmas }) :
    Given k { k' with sys := s, procs := update k'.procs np q } np :=
  ⟨h.toHanded.set hs hq, fun v x => (hv v x).trans (h.shows v x)⟩

end

variable [Image] {W : Prop} {L : Nat → Nat} {k : Kernel}
variable {L' : Nat → Nat} {Q : Unit → Kernel → Prop} {k' k₁ : Kernel} {m : Mem} {me np r rme : Nat} {q : Proc} {ρ : Owners}
variable {tf : Nat}

omit [Image] in
theorem wp_filedup_core
    (h : ∀ s, 1 ≤ (k.sys.file f).ref → FileSet k.sys s f { k.sys.file f with ref := (k.sys.file f).ref + 1 } →
      Q () { k with sys := s }) : wp (ksys (filedup f)) Q Allowed k := by
  rw [wp_ksys]
  exact wp_filedup (.inr trivial) (.inr trivial) h

theorem Core.dup (hc : Core W L k) (hp : p < NPROC)
    (h1 : q.pagetable = (k.procs p).pagetable) (h2 : q.trapframe = (k.procs p).trapframe) (h3 : q.sz = (k.procs p).sz)
    (h4 : ∀ g, q.refs g = plus (k.procs p).refs f g) (h5 : q.cwd = (k.procs p).cwd) (hpos : 1 ≤ (k.sys.file f).ref)
    (hs : FileSet k.sys s f { k.sys.file f with ref := (k.sys.file f).ref + 1 }) :
    Core W L { k with sys := s, procs := update k.procs p q } := by
  refine hc.setFiles hp h1 h2 (fun r hr => by rw [h3]; exact hc.user p hp r (h1 ▸ hr)) ?_
  rw [cwdRefs_same h5, fileRefs_plus hp h4]
  exact hc.fs.dup hs hpos

theorem wp_dupFiles (hc : Core W L k) (hnp : np < NPROC) (h0 : ∀ fd < NOFILE, (k.procs np).ofile fd = none)
    (h : ∀ k', Core W L k' → Given k k' np → (k'.procs np).cwd = (k.procs np).cwd → (k'.procs np).vmas = (k.procs np).vmas →
      Q () k') : wp (forN (dupFile me np) NOFILE) Q Allowed k := by
  refine wp_post (wp_forN (fun i k' => Core W L k' ∧ Given k k' np ∧ (k'.procs np).cwd = (k.procs np).cwd ∧
    (k'.procs np).vmas = (k.procs np).vmas ∧ ∀ fd, i ≤ fd → fd < NOFILE → (k'.procs np).ofile fd = none)
    ⟨hc, Given.refl k np, rfl, rfl, fun fd _ => h0 fd⟩ ?_) fun _ k' hI => h k' hI.1 hI.2.1 hI.2.2.1 hI.2.2.2.1
  rintro fd k₁ hfd ⟨hc1, hh1, hcwd, hvm, hrest⟩
  unfold dupFile
  simp only [wp_bind, wp_getProc]
  cases hf : (k₁.procs me).ofile fd with
  | none => exact wp_ret ⟨hc1, hh1, hcwd, hvm, fun x hx => hrest x (by omega)⟩
  | some f =>
    rw [wp_bind]
    refine wp_filedup_core fun s hpos hs => ?_
    rw [wp_setProc]
    refine ⟨hc1.dup hnp rfl rfl rfl (refs_ofile hfd (hrest fd le_rfl hfd)) rfl hpos hs,
      hh1.set hs.toSysRel hs.shows rfl, ?_, ?_, fun x hx hlt => ?_⟩
    · dsimp only; rw [update_self]; exact hcwd
    · dsimp only; rw [update_self]; exact hvm
    · dsimp only
      rw [update_self]
      exact (update_of_ne (by omega) _ _).trans (hrest x (by omega) hlt)

theorem Core.enter (hc : Core W L k) (hp : p < NPROC)
    (h1 : q.pagetable = (k.procs p).pagetable) (h2 : q.trapframe = (k.procs p).trapframe) (h3 : q.sz = (k.procs p).sz)
    (h4 : ∀ g, q.refs g = (k.procs p).refs g) (h0 : (k.procs p).cwd = none) (h5 : q.cwd = some ip)
    (hf : Fs W s (fileRefs k.procs) (plus (cwdRefs k.procs) ip) none) :
    Core W L { k with sys := s, procs := update k.procs p q } := by
  refine hc.setFiles hp h1 h2 (fun r hr => by rw [h3]; exact hc.user p hp r (h1 ▸ hr)) ?_
  rw [cwdRefs_plus hp h0 h5, fileRefs_same hp h4]
  exact hf

theorem wp_dupCwd (hc : Core W L k) (hnp : np < NPROC)
    (hcwd : (k.procs me).cwd = some ip) (h0 : (k.procs np).cwd = none)
    (h : ∀ k', Core W L k' → Given k k' np → (k'.procs np).cwd = some ip → (k'.procs np).vmas = (k.procs np).vmas →
      Q () k') :
    wp (dupCwd me np) Q Allowed k := by
  unfold dupCwd
  simp only [wp_bind, wp_getProc, hcwd, wp_ksys]
  refine wp_idup (.inr trivial) fun s hs => ?_
  rw [wp_setProc]
  refine h _ (hc.enter hnp rfl rfl rfl (fun _ => rfl) h0 rfl (hc.fs.idup hs))
    ((Given.refl k np).set hs.toSysRel hs.shows rfl) ?_ ?_
  · dsimp only; rw [update_self]
  · dsimp only; rw [update_self]

def Proc.SameVmas (p q : Proc) : Prop :=
  ∀ j < MAXVMA, (q.vmas j).used = (p.vmas j).used ∧ ((p.vmas j).used = true → q.vmas j = p.vmas j)

omit [Image] in
theorem Proc.SameVmas.eq {p : Proc} (h : p.SameVmas q) {j : Nat} (hj : j < MAXVMA) (hu : (q.vmas j).used) :
    q.vmas j = p.vmas j := (h j hj).2 (by rw [← (h j hj).1]; exact hu)

section
variable (hc : Core W L k) (hnp : np < NPROC)
include hc hnp

theorem wp_dupVmas (hne : me ≠ np) (h0 : ∀ j < MAXVMA, ((k.procs np).vmas j).used = false)
    (h : ∀ k', Core W L k' → Given k k' np → (k'.procs np).cwd = (k.procs np).cwd →
      (k.procs me).SameVmas (k'.procs np) → Q () k') :
    wp (forN (dupVma me np) MAXVMA) Q Allowed k := by
  refine wp_post (wp_forN (fun i k' => Core W L k' ∧ Given k k' np ∧ (k'.procs np).cwd = (k.procs np).cwd ∧
    (∀ j < i, ((k'.procs np).vmas j).used = ((k.procs me).vmas j).used ∧
      (((k.procs me).vmas j).used → (k'.procs np).vmas j = (k.procs me).vmas j)) ∧
    ∀ j, i ≤ j → j < MAXVMA → ((k'.procs np).vmas j).used = false)
    ⟨hc, Given.refl k np, rfl, fun j hj => absurd hj (Nat.not_lt_zero _), fun j _ => h0 j⟩ ?_)
    fun _ k' hI => h k' hI.1 hI.2.1 hI.2.2.1 hI.2.2.2.1
  rintro i k₁ hi ⟨hc1, hh1, hcwd, hdone, hrest⟩
  have hme : k₁.procs me = k.procs me := hh1.other me hne
  unfold dupVma
  simp only [wp_bind, wp_getProc, hme]
  refine wp_ite (fun hu => wp_ret ⟨hc1, hh1, hcwd, fun j hj => ?_, fun j hj => hrest j (by omega)⟩) fun hu => ?_
  · rcases Nat.lt_succ_iff_lt_or_eq.mp hj with hlt | rfl
    · exact hdone j hlt
    · have hu : ((k.procs me).vmas j).used = false := by simpa using hu
      rw [hrest j le_rfl hi, hu]
      exact ⟨rfl, fun hx => by cases hx⟩
  have hu : ((k.procs me).vmas i).used := by simpa using hu
  have hrefs := refs_vma (p := k₁.procs np) ((k.procs me).vmas i) hi (hrest i le_rfl hi)
  -- the entry of the mapping, whatever happens to its file
  have hdone' : ∀ j < i + 1,
      (((k₁.procs np).setVma i ((k.procs me).vmas i)).vmas j).used = ((k.procs me).vmas j).used ∧
      (((k.procs me).vmas j).used →
        ((k₁.procs np).setVma i ((k.procs me).vmas i)).vmas j = (k.procs me).vmas j) := fun j hj => by
    by_cases hji : j = i
    · rw [hji]
      simp only [Proc.setVma, update_self]
      exact ⟨trivial, fun _ => trivial⟩
    · simp only [Proc.setVma, update_of_ne hji]
      exact hdone j (by omega)
  have hrest' : ∀ j, i + 1 ≤ j → j < MAXVMA → (((k₁.procs np).setVma i ((k.procs me).vmas i)).vmas j).used = false :=
    fun j hj hlt => by
      simp only [Proc.setVma, update_of_ne (show j ≠ i by omega)]
      exact hrest j (by omega) hlt
  rw [wp_bind, wp_setProc]
  cases hf : ((k.procs me).vmas i).f with
  | none =>
    rw [wp_pure]
    refine ⟨hc1.setProc hnp rfl rfl (fun r hr => hc1.user np hnp r hr) (fun g => ?_) rfl,
      hh1.set (SysRel.refl _) (fun _ _ => rfl) rfl, ?_, ?_, ?_⟩
    · rw [hrefs, hf, if_neg (by simp)]; rfl
    all_goals dsimp only; rw [update_self]
    exacts [hcwd, hdone', hrest']
  | some f =>
    refine wp_filedup_core fun s hpos hs => ⟨hc1.dup hnp rfl rfl rfl (fun g => ?_) rfl hpos hs,
      hh1.set hs.toSysRel hs.shows rfl, ?_, ?_, ?_⟩
    · rw [hrefs, hf]
      by_cases hg : g = f
      · rw [hg, plus_self, if_pos ⟨hu, rfl⟩]
      · rw [plus_of_ne _ hg, if_neg fun hc => hg (some.inj hc.2).symm]; rfl
    all_goals dsimp only; rw [update_self]
    exacts [hcwd, hdone', hrest']

structure Launched (k k' : Kernel) (me np : Nat) : Prop where
  other : ∀ i, i ≠ np → k'.procs i = k.procs i
  self : k'.procs np = { k.procs np with
    ofile := (k'.procs np).ofile, cwd := (k.procs me).cwd, vmas := (k'.procs np).vmas, parent := some me }
  vmas : (k.procs me).SameVmas (k'.procs np)
  mem : k'.mem = k.mem
  kpages : k'.kpages = k.kpages
  live : ∀ i, k'.sys.live i ↔ k.sys.live i
  dead : ∀ i, k'.sys.dead i ↔ k.sys.dead i
  nextpid : k'.sys.nextpid = k.sys.nextpid
  held : k'.sys.held = k.sys.held.erase (.proc np)
  cur : k'.sys.cur = k.sys.cur
  initproc : k'.sys.initproc = k.sys.initproc
  shows : k.sys.ShowsAs k'.sys

theorem wp_publish (hheld : .proc np ∈ k.sys.held)
    (hl : k.sys.live np) (hd : ¬ k.sys.dead np)
    (h : ∀ s, (∀ i, s.live i ↔ k.sys.live i) → (∀ i, s.dead i ↔ k.sys.dead i) → s.nextpid = k.sys.nextpid →
      s.held = k.sys.held.erase (.proc np) → s.cur = k.sys.cur → s.initproc = k.sys.initproc →
      k.sys.ShowsAs s →
      Core W L { k with sys := s, procs := update k.procs np { k.procs np with parent := some me } } →
      Q () { k with sys := s, procs := update k.procs np { k.procs np with parent := some me } }) :
    wp (publish me np) Q Allowed k := by
  unfold publish
  simp only [wp_bind, wp_ksys]
  refine wp_release hheld (wp_acquire (fun _ => trivial) fun _ => ?_)
  simp only [wp_setProc]
  refine wp_release (List.mem_cons_self ..) (wp_acquire (fun _ => trivial) fun _ => ?_)
  simp only [wp_setRun]
  refine wp_release (List.mem_cons_self ..) ?_
  generalize hs : Sys.unlock _ (.proc np) = s
  have hrun : ∀ j, (s.run j).state = if j = np then .RUNNABLE else (k.sys.run j).state := fun j => by
    rw [← hs]
    simp only [Sys.unlock, Sys.lock, Sys.setRun, update_apply]; split <;> rfl
  refine h s (fun i => ?_) (fun i => ?_) (by rw [← hs]; rfl) ?_ (by rw [← hs]; rfl) (by rw [← hs]; rfl)
    (fun _ _ => by rw [← hs]; rfl) ?_
  · unfold Sys.live at hl ⊢
    rw [hrun]
    by_cases hi : i = np
    · simp [hi, hl]
    · simp [hi]
  · unfold Sys.dead at hd ⊢
    rw [hrun]
    by_cases hi : i = np
    · simp [hi, hd]
    · simp [hi]
  · rw [← hs]
    simp [Sys.unlock, Sys.lock, Sys.setRun]
  · exact (hc.setSys (by rw [← hs]; rfl) (by rw [← hs]; rfl)).setProc hnp rfl rfl (fun r hr => hc.user np hnp r hr)
      (fun _ => rfl) rfl

theorem wp_launch {Q : Nat → Kernel → Prop} (hne : me ≠ np)
    (hcwd : (k.procs me).cwd ≠ none) (hf0 : ∀ fd < NOFILE, (k.procs np).ofile fd = none) (hc0 : (k.procs np).cwd = none)
    (hv0 : ∀ j < MAXVMA, ((k.procs np).vmas j).used = false) (hheld : .proc np ∈ k.sys.held)
    (hl : k.sys.live np) (hd : ¬ k.sys.dead np)
    (h : ∀ k', Core W L k' → Launched k k' me np → Q (k.procs np).pid k') : wp (launch me np) Q Allowed k := by
  obtain ⟨ip, hip⟩ := ne_none_iff_exists'.mp hcwd
  refine wp_seq (wp_dupFiles hc hnp hf0 fun k₁ hc1 hh1 hcwd1 hv1 => ?_)
  have hme1 : k₁.procs me = k.procs me := hh1.other me hne
  refine wp_seq (wp_dupCwd hc1 hnp (by rw [hme1]; exact hip) (hcwd1.trans hc0) fun k2 hc2 hh2 hcwd2 hv2 => ?_)
  refine wp_seq (wp_dupVmas hc2 hnp hne (by rw [hv2, hv1]; exact hv0) fun k3 hc3 hh3 hcwd3 hv3 => ?_)
  have hh := (hh1.trans hh2).trans hh3
  have hme2 : k2.procs me = k.procs me := (hh1.trans hh2).other me hne
  simp only [wp_bind, wp_getProc]
  refine wp_publish hc3 hnp (by rw [hh.rel.held]; exact hheld) ((hh.rel.live np).mpr hl)
    (fun hc => hd ((hh.rel.dead np).mp hc))
    fun s hlive hdead hnext hheld' hcur hinit hsh hc4 => wp_ret ?_
  rw [show (k3.procs np).pid = (k.procs np).pid by rw [hh.self]]
  refine h _ hc4 ⟨fun i hi => ?_, ?_, ?_, hh.mem, hh.kpages, fun i => (hlive i).trans (hh.rel.live i),
    fun i => (hdead i).trans (hh.rel.dead i), hnext.trans hh.rel.nextpid, by rw [hheld', hh.rel.held], hcur.trans hh.rel.cur,
    hinit.trans hh.rel.initproc, fun v x => (hsh v x).trans (hh.shows v x)⟩
  · dsimp only
    rw [update_of_ne hi]; exact hh.other i hi
  · dsimp only
    rw [update_self, hip, ← hcwd2, ← hcwd3, hh.self]
  · dsimp only
    rw [update_self, ← hme2]
    exact hv3

end

/-! ## `kfork` -/

omit [Image] in
theorem Skipped.refl (k : Kernel) : Skipped k k :=
  ⟨fun _ => .inl rfl, fun _ => Iff.rfl, fun _ => Iff.rfl, le_rfl, rfl, rfl, rfl, rfl, .inr rfl,
    Within.of_same fun _ _ _ _ => rfl⟩

theorem Inv.born (h : Inv W L k) (hc : Core W L' k') (hslots : Slots k'.procs k'.sys)
    (hb : Born k.sys k'.sys np) (hfree : ¬ k.sys.live np) (hme : k.sys.live me) (hpar : (k'.procs np).parent = some me)
    (hcwd : (k'.procs np).cwd ≠ none)
    (ho : ∀ i, i ≠ np → (k'.procs i).parent = (k.procs i).parent ∧ (k'.procs i).cwd = (k.procs i).cwd)
    (hi : k'.sys.initproc = k.sys.initproc) (hh : k'.sys.held = []) : Inv W L' k' where
  toCore := hc
  slots := hslots
  family := by
    have hne : k.sys.initproc ≠ np := fun hx => hfree (hx ▸ h.family.live)
    refine ⟨by rw [hi]; exact h.family.slot, ?_, ?_, ?_, fun i hlt hpi => ?_⟩
    · rw [hi, hb.live]; exact .inl h.family.live
    · rw [hi, hb.dead]; exact fun hx => h.family.alive hx.1
    · rw [hi, (ho _ hne).1]; exact h.family.root
    · by_cases hin : i = np
      · rw [hin, hpar] at hpi
        exact hfree (some.inj hpi ▸ hme)
      · rw [(ho i hin).1] at hpi
        exact h.family.self i hlt hpi
  homed i hlt hl hd _ := by
    by_cases hin : i = np
    · rw [hin]; exact hcwd
    · rw [(ho i hin).2]
      exact h.homed i hlt (((hb.live i).mp hl).resolve_right hin) (fun hx => hd ((hb.dead i).mpr ⟨hx, hin⟩)) (by omega)
  held := hh

theorem Core.remap (hc : Core W L k) (hI : MemInv m (tables k.procs) ρ (heldBy L k))
    (hk : ∀ r ∈ tables k.procs, ∀ n, NUPAGE ≤ n → n < 512 * 512 * 512 → leaf m r n = leaf k.mem r n)
    (hu : ∀ i < NPROC, ∀ r, (k.procs i).pagetable = some r → ∀ n < NUPAGE,
      leaf m r n = leaf k.mem r n ∨ leaf m r n = 0#64 ∨ n < PGROUNDUP (k.procs i).sz / 4096) :
    Core W L { k with mem := m } := by
  refine ⟨⟨ρ, hI⟩, fun r hr n hn hlt => ?_, fun r hr => ⟨?_, fun i hi => ?_, fun n hn hlt h1 h2 => ?_⟩,
    fun i hi r hr n hn hv => ?_, hc.frame, hc.own, hc.fs⟩
  · rw [hk r hr n hn hlt]; exact hc.kern r hr n hn hlt
  · dsimp only
    rw [hk r hr _ (by decide) (by decide)]; exact (hc.wired r hr).tramp
  · have hf := (hc.wired r hr).frame i hi
    unfold Framed at hf ⊢
    rw [hk r hr _ (framePage_user hi) (framePage_lt i)]
    exact hf
  · dsimp only
    rw [hk r hr n hn hlt]; exact (hc.wired r hr).rest n hn hlt h1 h2
  · rcases hu i hi r hr n hn with he | he | he
    · dsimp only at hv ⊢
      rw [he] at hv ⊢; exact hc.user i hi r hr n hn hv
    · dsimp only at hv
      rw [he] at hv; simp at hv
    · exact .inr he

structure Forked (k k' : Kernel) (np : Nat) : Prop where
  slot : np < NPROC
  free : ¬ k.sys.live np
  born : Born k.sys k'.sys np
  other : ∀ i, i ≠ np → k'.procs i = k.procs i
  sz : (k'.procs np).sz = (k.procs k.sys.cur).sz
  lead : (k'.procs np).tgid = (k'.procs np).pid
  vmas : (k.procs k.sys.cur).SameVmas (k'.procs np)
  table : ∃ r r', (k'.procs np).pagetable = some r ∧ r ∉ tables k.procs ∧ (k.procs k.sys.cur).pagetable = some r' ∧
    ∀ n, n * PGSIZE < (k.procs k.sys.cur).sz → view k'.mem r n = view k.mem r' n
  same : SameView k.mem k'.mem (tables k.procs)
  valid : ∀ r ∈ tables k.procs, ∀ n < NUPAGE, (leaf k'.mem r n).has PTE_V = true → (leaf k.mem r n).has PTE_V = true
  heap : ∀ r, (k'.procs np).pagetable = some r → ∀ n < NUPAGE, (leaf k'.mem r n).has PTE_V = true →
    n < PGROUNDUP (k.procs k.sys.cur).sz / 4096
  cur : k'.sys.cur = k.sys.cur
  fails : k.mem.fails ≤ k'.mem.fails
  entry : ∀ r r', (k'.procs np).pagetable = some r → (k.procs k.sys.cur).pagetable = some r' →
    ∀ n, n * PGSIZE < (k.procs k.sys.cur).sz → leaf k'.mem r n =
      if (leaf k.mem r' n).has PTE_V then mkPte (PTE2PA (leaf k.mem r' n)) (copyFlags (leaf k.mem r' n)) else 0#64
  shows : k.sys.ShowsAs k'.sys

theorem Copied.view {old new c : Nat} (hC : Copied m m' R old new c)
    (hI : MemInv m R ρ H) (hH : ∀ a, 0 ≤ H a) (ho : old ∈ R) (hn : new ∈ R) (hne : old ≠ new) (hc : c ≤ NUPAGE)
    (h0 : ∀ n < NUPAGE, (Xv6.leaf m new n).has PTE_V = false) :
    SameView m m' (R.erase new) ∧ ∀ n < c, Xv6.view m' new n = Xv6.view m old n := by
  have hdata : ∀ n < NUPAGE, (Xv6.leaf m old n).has PTE_V →
      m'.data (PTE2PA (Xv6.leaf m old n)) = m.data (PTE2PA (Xv6.leaf m old n)) := fun n hnu hv =>
    hC.grow.data _ fun hf => hI.fresh_refers hH hf ho hnu ⟨hv, rfl⟩
  constructor
  · intro r hr n hnu
    obtain ⟨hrn, hrR⟩ := mem_erase.mp hr
    have hl := hC.leaf r hrR n (NUPAGE_lt hnu)
    by_cases hcase : r = old ∧ n < c
    · obtain ⟨rfl, hnc⟩ := hcase
      rw [if_pos ⟨rfl, hnc⟩] at hl
      by_cases hv : (Xv6.leaf m r n).has PTE_V
      · obtain ⟨h1, h2, -⟩ := cowed_eq hv (hI.leafPage r hrR n hnu hv).paOk
        unfold Xv6.view
        rw [hl, if_pos h1, if_pos hv, h2, hdata n hnu hv]
      · refine hI.view_grow hH hC.grow hrR hnu (hl.trans ?_)
        unfold cowed
        rw [if_neg fun hx => hv hx.1]
    · rw [if_neg hcase, if_neg fun hx => hrn hx.1] at hl
      exact hI.view_grow hH hC.grow hrR hnu hl
  · intro n hnc
    have hnu : n < NUPAGE := by omega
    have hl := hC.leaf new hn n (NUPAGE_lt hnu)
    rw [if_neg fun hx => hne hx.1.symm] at hl
    unfold Xv6.view
    by_cases hv : (Xv6.leaf m old n).has PTE_V
    · rw [if_pos ⟨rfl, hnc, hv⟩] at hl
      rw [hl, if_pos (mkPte_V _ _), if_pos hv, mkPte_pa (hI.leafPage old ho n hnu hv).paOk (isFlags_copyFlags _),
        hdata n hnu hv]
    · rw [if_neg fun hx => hv hx.2.2] at hl
      rw [hl, if_neg (by rw [h0 n hnu]; simp), if_neg hv]

section
variable {k₁ : Kernel} {np r tf : Nat}

theorem Made.self (h : Made k k₁ np r tf) : k₁.procs np = { k.procs np with
    pid := k.sys.nextpid, tgid := k.sys.nextpid, thread_count := 1, vmas := fun _ => Vma.zero, trapframe := some tf,
    pagetable := some r } := by rw [h.procs, update_self]

theorem Made.tables_eq (h : Made k k₁ np r tf) (he : (k.procs np).Empty) :
    tables k₁.procs = insert r (tables k.procs) := by
  rw [h.procs]; exact tables_set h.slot he.pagetable rfl

omit [Image] in
theorem Slots.sz_of_table (h : Slots k.procs k.sys) (hi : i < NPROC) (hj : j < NPROC)
    (hir : (k.procs i).pagetable = some r) (hjr : (k.procs j).pagetable = some r) : (k.procs i).sz = (k.procs j).sz := by
  have hli := h.live_of_table hi hir
  have hlj := h.live_of_table hj hjr
  exact (h.group hi hj hli hlj (h.same_group hi hj hli hlj (hir.trans hjr.symm))).2

end

structure Child (k k' : Kernel) (me np : Nat) (q : Proc) : Prop where
  other : ∀ i, i ≠ np → k'.procs i = k.procs i
  self : k'.procs np = { q with
    ofile := (k'.procs np).ofile, cwd := (k.procs me).cwd, vmas := (k'.procs np).vmas, parent := some me }
  vmas : (k.procs me).SameVmas (k'.procs np)
  born : Born k.sys k'.sys np
  held : k'.sys.held = k.sys.held
  cur : k'.sys.cur = k.sys.cur
  initproc : k'.sys.initproc = k.sys.initproc
  kpages : k'.kpages = k.kpages

theorem Launched.child (hl : Launched k2 k3 me np) (hm : Made k k₁ np r tf)
    (hp : k2.procs = update k₁.procs np q) (hs : k2.sys = k₁.sys) (hkp : k2.kpages = k₁.kpages) (hne : me ≠ np) :
    Child k k3 me np q := by
  have hme : k2.procs me = k.procs me := by rw [hp, update_of_ne hne, hm.other me hne]
  have hnp : k2.procs np = q := by rw [hp, update_self]
  refine ⟨fun i hi => ?_, ?_,
    by rw [← hme]; exact hl.vmas, ⟨fun j => ?_, fun j => ?_, ?_⟩, ?_, ?_, ?_, hl.kpages.trans (hkp.trans hm.kpages)⟩
  · rw [hl.other i hi, hp, update_of_ne hi]; exact hm.other i hi
  · have := hl.self
    rwa [hnp, hme] at this
  · rw [hl.live, hs]; exact hm.born.live j
  · rw [hl.dead, hs]; exact hm.born.dead j
  · rw [hl.nextpid, hs]; exact hm.born.nextpid
  · rw [hl.held, hs, hm.held]; simp
  · rw [hl.cur, hs]; exact hm.cur
  · rw [hl.initproc, hs]; exact hm.initproc

omit [Image] in
theorem Child.bounded (h : Child k k' me np q) (hsz : q.sz ≤ TRAPFRAME NPROC)
    (hb : (k.procs me).Bounded) : (k'.procs np).Bounded := by
  refine ⟨by rw [h.self]; exact hsz, fun j hj hu => ?_⟩
  have hj' := h.vmas.eq hj hu
  rw [hj'] at hu ⊢
  exact hb.vma j hj hu

omit [Image] in
theorem Child.procs (h : Child k k' me np q) :
    k'.procs = update k.procs np (k'.procs np) := by
  funext i
  by_cases hi : i = np
  · rw [hi, update_self]
  · rw [update_of_ne hi, h.other i hi]

theorem Made.share (hm : Made k k₁ np r tf) (h : Inv W L k)
    (hk : Runs k) (hc1 : Core W L k₁) (hrme : (k.procs k.sys.cur).pagetable = some rme)
    (hI : MemInv m (tables k₁.procs) ρ (heldBy L k₁))
    (hC : Copied k₁.mem m (tables k₁.procs) rme r (rounds 0 (k.procs k.sys.cur).sz))
    (hq : q = { k₁.procs np with sz := (k.procs k.sys.cur).sz, regs := q.regs }) :
    Core W L { k₁ with mem := m, procs := update k₁.procs np q } := by
  have hrnd := rounds_zero hk.bounded.sz
  have hqp : q.pagetable = some r := by rw [hq, hm.self]
  have hqz : q.sz = (k.procs k.sys.cur).sz := by rw [hq]
  -- the size is set first: nothing of the copying depends on it
  have hcq : Core W L { k₁ with procs := update k₁.procs np q } := by
    refine hc1.setProc hm.slot (by rw [hq]) (by rw [hq]) (fun r' hr' n hn hv => ?_) (by rw [hq]; exact fun _ => rfl)
      (by rw [hq])
    rw [hqp] at hr'
    rw [← some.inj hr', hm.table.leaf_user hm.slot hn] at hv
    simp at hv
  obtain ⟨hto, hho⟩ := @owns_same L k₁ { k₁ with procs := update k₁.procs np q } np q rfl
    (by rw [hq]) (by rw [hq]) rfl
  refine hcq.remap (by rw [hto, hho]; exact hI) (fun r' hr' n hn hlt => ?_) fun i hi r' hr' n hn => ?_
  · rw [hto] at hr'
    rw [hC.leaf r' hr' n hlt, if_neg (by omega), if_neg (by omega)]
  · have hl := hC.leaf r' (hto ▸ mem_tables.mpr ⟨i, hi, hr'⟩) n (NUPAGE_lt hn)
    by_cases hnc : n < rounds 0 (k.procs k.sys.cur).sz
    · -- the entries that are shared lie below the size of both
      dsimp only at hr' ⊢
      by_cases hin : i = np
      · rw [hin, update_self, hqz, ← hrnd.1]
        exact .inr (.inr hnc)
      · rw [update_of_ne hin, hm.other i hin] at hr' ⊢
        by_cases h1 : r' = rme
        · rw [h.slots.sz_of_table hi hk.slot (h1 ▸ hr') hrme, ← hrnd.1]
          exact .inr (.inr hnc)
        · have h2 : r' ≠ r := fun hx => hm.new.1 (hx ▸ mem_tables.mpr ⟨i, hi, hr'⟩)
          rw [if_neg fun hx => h1 hx.1, if_neg fun hx => h2 hx.1] at hl
          exact .inl hl
    · rw [if_neg fun hx => hnc hx.2, if_neg fun hx => hnc hx.2.1] at hl
      exact .inl hl

theorem Made.view (hm : Made k k₁ np r tf) (h : Inv W L k) (hc1 : Core W L k₁)
    (hrme : rme ∈ Xv6.tables k.procs) (hC : Copied k₁.mem m (Xv6.tables k₁.procs) rme r c) (hc : c ≤ NUPAGE) :
    SameView k.mem m (Xv6.tables k.procs) ∧ ∀ n < c, Xv6.view m r n = Xv6.view k.mem rme n := by
  obtain ⟨ρ, hI⟩ := h.mem
  obtain ⟨ρ1, hI1⟩ := hc1.mem
  have htab := hm.tables_eq (h.slots.unused np hm.slot hm.free)
  have hfirst : SameView k.mem k₁.mem (Xv6.tables k.procs) := fun r' hr' n hn =>
    hI.view_grow (heldBy_nonneg L k) hm.alloc.grow hr' hn (hm.same r' hr' n (NUPAGE_lt hn))
  obtain ⟨h1, h2⟩ := hC.view hI1 (heldBy_nonneg L k₁) (by rw [htab]; exact mem_insert_of_mem hrme)
    (by rw [htab]; exact mem_insert_self ..) (fun hx => hm.new.1 (hx ▸ hrme)) hc
    (fun n hn => by rw [hm.table.leaf_user hm.slot hn]; simp)
  rw [htab, erase_insert hm.new.1] at h1
  exact ⟨hfirst.trans h1, fun n hn => (h2 n hn).trans (hfirst rme hrme n (by omega))⟩

theorem wp_forkChild {Q : Option Nat → Kernel → Prop} (h : Inv W L k)
    (hk : Runs k) (hc1 : Core W L k₁) (hm : Made k k₁ np r tf) (hrme : (k.procs k.sys.cur).pagetable = some rme)
    (hI : MemInv m (tables k₁.procs) ρ (heldBy L k₁))
    (hC : Copied k₁.mem m (tables k₁.procs) rme r (rounds 0 (k.procs k.sys.cur).sz))
    (hs : ∀ k' np pid, Inv W L k' → Forked k k' np → Q (some pid) k') (regs : Trapframe) :
    wp (do
      setProc np fun q => { q with sz := (k.procs k.sys.cur).sz, regs := regs }
      let pid ← launch k.sys.cur np
      return some pid) Q Allowed { k₁ with mem := m } := by
  have he := h.slots.unused np hm.slot hm.free
  have hne : k.sys.cur ≠ np := fun hx => hm.free (hx ▸ hk.alive.1)
  have hrnd := rounds_zero hk.bounded.sz
  have hrne : rme ≠ r := fun hx => hm.new.1 (hx ▸ mem_tables.mpr ⟨_, hk.slot, hrme⟩)
  have htab := hm.tables_eq he
  have hmem' : r ∈ tables k₁.procs := by rw [htab]; exact mem_insert_self ..
  have hcwd := h.homed _ hk.slot hk.alive.1 hk.alive.2 (by have := hk.slot; omega)
  simp only [wp_bind, wp_setProc]
  generalize hq : ({ k₁.procs np with sz := (k.procs k.sys.cur).sz, regs := regs } : Proc) = q
  have hqs : q = { k.procs np with
      pid := k.sys.nextpid, tgid := k.sys.nextpid, thread_count := 1, vmas := fun _ => Vma.zero, trapframe := some tf,
      pagetable := some r, sz := (k.procs k.sys.cur).sz, regs := regs } := by rw [← hq, hm.self]
  have hc2 := hm.share h hk hc1 hrme hI hC (q := q) (by rw [← hq])
  have hnp2 : update k₁.procs np q np = q := update_self ..
  refine wp_launch hc2 hm.slot hne ?_ ?_ ?_ ?_ (by rw [hm.held]; exact List.mem_cons_self ..)
    ((hm.born.live np).mpr (.inr rfl)) (fun hx => ((hm.born.dead np).mp hx).2 rfl) fun k3 hc3 hl3 => wp_ret ?_
  · dsimp only
    rw [update_of_ne hne, hm.other _ hne]; exact hcwd
  · dsimp only
    rw [hnp2, hqs]; exact he.ofile
  · dsimp only
    rw [hnp2, hqs]; exact he.cwd
  · dsimp only
    rw [hnp2, hqs]; exact fun _ _ => rfl
  have hch := hl3.child hm rfl rfl rfl hne
  have hself := hch.self
  have hpt : (k3.procs np).pagetable = some r := by rw [hself, hqs]
  have hsz : (k3.procs np).sz = (k.procs k.sys.cur).sz := by rw [hself, hqs]
  have hslots : Slots k3.procs k3.sys := by
    rw [hch.procs]
    refine h.slots.fork ⟨hm.slot, hm.free, hch.born, ?_, by rw [hpt]; simp, ?_, hch.bounded ?_ hk.bounded⟩ ?_ ?_
      fun r' hr' => ?_
    · rw [hself, hqs]
    · rw [hself, hqs]; simp
    · rw [hqs]; exact hk.bounded.sz
    · rw [hself, hqs]
    · rw [hself, hqs]
    · rw [hpt] at hr'
      exact some.inj hr' ▸ hm.new.1
  obtain ⟨hv1, hv2⟩ := hm.view h hc1 (mem_tables.mpr ⟨_, hk.slot, hrme⟩) hC hrnd.2
  have hm3 : k3.mem = m := hl3.mem
  rw [← hm3] at hv1 hv2
  have hbelow : ∀ n, n * PGSIZE < (k.procs k.sys.cur).sz → n < rounds 0 (k.procs k.sys.cur).sz := fun n hn => by
    simp only [rounds] at *; lia
  refine hs k3 np _ (h.born hc3 hslots hch.born hm.free hk.alive.1 (by rw [hself]) (by rw [hself]; exact hcwd)
    (fun i hi => by rw [hch.other i hi]; exact ⟨rfl, rfl⟩) hch.initproc (hch.held.trans h.held)) ⟨hm.slot, hm.free, hch.born,
    hch.other, hsz, by rw [hself, hqs], hch.vmas, ⟨r, rme, hpt, hm.new.1, hrme, fun n hn => hv2 n (hbelow n hn)⟩, hv1,
    fun r' hr' n hn hv => ?_, fun r' hr' n hn hv => ?_, hch.cur, ?_, fun r1 r2 hr1 hr2 n hn => ?_, fun v x => ?_⟩
  · rw [hm3] at hv
    have hlt := NUPAGE_lt hn
    have hl := hC.leaf r' (by rw [htab]; exact mem_insert_of_mem hr') n hlt
    rw [if_neg (c := r' = r ∧ _) fun hx => hm.new.1 (hx.1 ▸ hr'), hm.same r' hr' n hlt] at hl
    rw [hl] at hv
    split at hv
    · rename_i hx
      rw [hx.1, ← hm.same rme (hx.1 ▸ hr') n hlt]
      exact valid_of_cowed hv
    · exact hv
  · rw [hm3, ← some.inj (hpt.symm.trans hr'), hC.leaf r hmem' n (NUPAGE_lt hn), if_neg fun hx => hrne hx.1.symm] at hv
    by_contra hge
    rw [if_neg fun hx => hge (by rw [← hrnd.1]; exact hx.2.1), hm.table.leaf_user hm.slot hn] at hv
    simp at hv
  · rw [hm3]
    exact le_trans hm.alloc.fails hC.grow.fails
  · obtain rfl : r = r1 := some.inj (hpt.symm.trans hr1)
    obtain rfl : rme = r2 := some.inj (hrme.symm.trans hr2)
    have hnu := lt_of_lt_of_le (hbelow n hn) hrnd.2
    rw [hm3, hC.leaf r hmem' n (NUPAGE_lt hnu), if_neg fun hx => hrne hx.1.symm,
      hm.same rme (mem_tables.mpr ⟨_, hk.slot, hrme⟩) n (NUPAGE_lt hnu), hm.table.leaf_user hm.slot hnu]
    simp only [hbelow n hn, true_and]
  · exact (hl3.shows v x).trans (Vma.byteAt_congr (fun f => by rw [hm.file]) (fun ip => by rw [hm.inode]) v x)

theorem wp_kfork {Q : Option Nat → Kernel → Prop} (h : Inv W L k) (hk : Runs k)
    (hn : ∀ k', Inv W L k' → Skipped k k' → Q none k') (hs : ∀ k' np pid, Inv W L k' → Forked k k' np → Q (some pid) k') :
    wp kfork Q Allowed k := by
  unfold kfork
  simp only [wp_bind, wp_myproc, wp_getProc]
  refine wp_ite (fun _ => wp_ret (hn k h (Skipped.refl k))) fun _ => ?_
  refine wp_seq (wp_allocproc h.toCore h.slots (fun k' hc hs => wp_ret (hn k' (h.skip hc hs) hs))
    fun k₁ np r tf hc1 hm => ?_)
  obtain ⟨rme, hrme⟩ := ne_none_iff_exists'.mp hk.table
  have he := h.slots.unused np hm.slot hm.free
  have hne : k.sys.cur ≠ np := fun hx => hm.free (hx ▸ hk.alive.1)
  have hme1 : k₁.procs k.sys.cur = k.procs k.sys.cur := hm.other _ hne
  have hrne : rme ≠ r := fun hx => hm.new.1 (hx ▸ mem_tables.mpr ⟨_, hk.slot, hrme⟩)
  have htab := hm.tables_eq he
  have hmem : rme ∈ tables k₁.procs := mem_tables.mpr ⟨_, hk.slot, by rw [hme1]; exact hrme⟩
  have hmem' : r ∈ tables k₁.procs := by rw [htab]; exact mem_insert_self ..
  have hrnd := rounds_zero hk.bounded.sz
  obtain ⟨ρ1, hI1⟩ := hc1.mem
  simp only [wp_bind]
  refine wp_tableOf (r := rme) (by rw [hme1]; exact hrme) (wp_tableOf (r := r) (by rw [hm.self]) ?_)
  rw [wp_kmem]
  refine wp_uvmcopy hI1 (heldBy_nonneg L k₁) hmem hmem' hrne hrnd.2 (fun _ => by simp [Allowed]) (fun m ρ hI hC => ?_)
    fun m ρ hI hC hfail => ?_
  · rw [if_pos rfl]
    exact wp_forkChild h hk hc1 hm hrme hI hC hs _
  · rw [if_neg (by simp)]
    have hsame : Core W L { k₁ with mem := m } := by
      refine hc1.remap hI (fun r' hr' n hn hlt => ?_) fun i hi r' hr' n hn => ?_
      · by_cases h1 : r' = rme
        · exact (h1 ▸ hC.parent n hlt).resolve_right fun hx => by omega
        · by_cases h2 : r' = r
          · exact (h2 ▸ hC.child n hlt).resolve_right fun hx => by omega
          · exact hC.other r' hr' h1 h2 n hlt
      · have hlt := NUPAGE_lt hn
        have hr'' : r' ∈ tables k₁.procs := mem_tables.mpr ⟨i, hi, hr'⟩
        by_cases h1 : r' = rme
        · have hin : i ≠ np := fun hx => by
            rw [hx, hm.self] at hr'
            exact hrne (h1.symm.trans (some.inj hr').symm)
          rw [hm.other i hin] at hr' ⊢
          rw [h.slots.sz_of_table hi hk.slot (h1 ▸ hr') hrme, ← hrnd.1]
          have hp := hC.parent n hlt
          rw [h1]
          exact hp.imp id fun hx => .inr hx.1
        · by_cases h2 : r' = r
          · rw [h2]
            exact (hC.child n hlt).imp id fun hx => .inl hx.2
          · exact .inl (hC.other r' hr'' h1 h2 n hlt)
    refine wp_giveBack hsame ⟨hm.slot, hm.free, hm.other, hm.ofile, hm.cwd, hm.vmas, hm.sz, hm.lead, hm.born,
      hm.held, hm.cur,
      hm.initproc, hm.kpages⟩ he (h.slots.bounded np hm.slot) (fun r' hr' => ?_) (lt_of_le_of_lt hm.alloc.fails hfail)
      (fun r' hr' n hn hv => ?_) fun k' hc' hs' => hn k' (h.skip hc' hs') hs'
    · change (k₁.procs np).pagetable = some r' at hr'
      rw [hm.self] at hr'
      exact some.inj hr' ▸ hm.new.1
    · have hlt := NUPAGE_lt hn
      rw [← hm.same r' hr' n hlt]
      by_cases h1 : r' = rme
      · rw [h1] at hv ⊢
        rcases hC.parent n hlt with hx | ⟨-, hx⟩
        · rw [← hx]; exact hv
        · exact valid_of_cowed (by rw [← hx]; exact hv)
      · have h2 : r' ≠ r := fun hx => hm.new.1 (hx ▸ hr')
        rw [← hC.other r' (by rw [htab]; exact mem_insert_of_mem hr') h1 h2 n hlt]
        exact hv

/-! ## `clone` -/

section
variable (hm : Made k k₁ np r tf)
include hm

theorem Made.replace (h : Inv W L k) (hk : Runs k)
    (hc1 : Core W L k₁) (hrme : (k.procs k.sys.cur).pagetable = some rme)
    (hq : q = { k₁.procs np with pagetable := some rme, sz := (k.procs k.sys.cur).sz, regs := q.regs }) :
    ∃ L' ρ', (∀ a, L a ≤ L' a) ∧ 0 < L' r ∧ tables (update k₁.procs np q) = tables k.procs ∧
      MemInv k₁.mem (tables k.procs) ρ' (heldBy L' { k₁ with procs := update k₁.procs np q }) := by
  obtain ⟨ρ, hI⟩ := hc1.mem
  have he := h.slots.unused np hm.slot hm.free
  have htab := hm.tables_eq he
  have hr : r ∈ tables k₁.procs := by rw [htab]; exact mem_insert_self ..
  have hroot : ρ r = some (r, .root) := hI.forest.root hr
  have htab' : tables (update k₁.procs np q) = tables k.procs := by
    have h1 : update k₁.procs np q = update k.procs np q := by
      rw [hm.procs, update_idem]
    ext x
    rw [h1, mem_tables, mem_tables]
    constructor
    · rintro ⟨i, hi, hx⟩
      by_cases hin : i = np
      · rw [hin, update_self, hq] at hx
        exact ⟨_, hk.slot, by rw [hrme]; exact hx⟩
      · rw [update_of_ne hin] at hx; exact ⟨i, hi, hx⟩
    · rintro ⟨i, hi, hx⟩
      have hin : i ≠ np := by rintro rfl; rw [he.pagetable] at hx; cases hx
      exact ⟨i, hi, by rw [update_of_ne hin]; exact hx⟩
  have hI' := hI.erase hr
  rw [htab, erase_insert hm.new.1] at hI'
  refine ⟨fun a => L a + leafCount k₁.mem r a + if (ρ a).any fun y => y.1 == r then 1 else 0,
    fun a => (ρ a).filter fun x => x.1 != r, fun a => ?_, ?_, htab', ?_⟩
  · dsimp only; omega
  · dsimp only; rw [hroot]; simp
  · convert hI' using 1
    funext a
    unfold heldBy frames
    simp only [update_apply_congr Proc.trapframe (show q.trapframe = (k₁.procs np).trapframe by rw [hq])]
    by_cases hx : (ρ a).any (fun y => y.1 == r)
    · rw [if_pos hx, if_pos hx]; omega
    · rw [if_neg hx, if_neg hx]; omega

section
variable (he : (k.procs np).Empty) (hc1 : Core W L k₁) (hr : rme ∈ tables k.procs)
include he hc1 hr

theorem Made.unframed : leaf k₁.mem rme trampPage = mkPte Image.trampoline (PTE_R ||| PTE_X) ∧
      (leaf k₁.mem rme (framePage np)).has PTE_V = false := by
  have hr1 : rme ∈ tables k₁.procs := by rw [hm.tables_eq he]; exact mem_insert_of_mem hr
  refine ⟨(hc1.wired rme hr1).tramp, hc1.unframed hm.slot hr1 ?_⟩
  rw [hm.self]
  exact fun hx => hm.new.1 (some.inj hx ▸ hr)

theorem Made.wp_mapFrame {R : Finset Nat} {H : Nat → Int} {Q : Bool → Mem → Prop}
    {E : MemStop → Prop}
    (hR : rme ∈ R) (hI : MemInv k₁.mem R ρ H)
    (h : ∀ m, MemInv m R ρ H → LeafUpd k₁.mem m R rme (framePage np) (mkPte tf (PTE_R ||| PTE_W)) → Q true m) :
    wp (mappages rme (TRAPFRAME np) PGSIZE tf (PTE_R ||| PTE_W)) Q E k₁.mem := by
  obtain ⟨h1, h2⟩ := hm.unframed he hc1 hr
  have hslot := hm.slot
  refine wp_mapBeside (n := trampPage) hI hR (TRAPFRAME_mod np) (TRAPFRAME_lt np) (framePage_user hslot) ?_
    (by rw [h1]; exact mkPte_V _ _) h2 fun m hI' hL _ => h m hI' hL
  -- the trampoline and all trap frames lie below one entry
  simp only [trampPage] at *
  lia

end

theorem Made.join (he : (k.procs np).Empty) (hk : Runs k) (hc1 : Core W L k₁)
    (hrme : (k.procs k.sys.cur).pagetable = some rme)
    (hq : q = { k₁.procs np with pagetable := some rme, sz := (k.procs k.sys.cur).sz, regs := q.regs })
    (htab : tables (update k₁.procs np q) = tables k.procs)
    (hI : MemInv m (tables k.procs) ρ (heldBy L' { k₁ with procs := update k₁.procs np q }))
    (hL : LeafUpd k₁.mem m (tables k.procs) rme (framePage np) (mkPte tf (PTE_R ||| PTE_W))) :
    Core W L' { k₁ with mem := m, procs := update k₁.procs np q } := by
  have hne : k.sys.cur ≠ np := fun hx => by rw [hx, he.pagetable] at hrme; cases hrme
  have hu := framePage_user hm.slot
  have hin : ∀ {r'}, r' ∈ tables k.procs → r' ∈ tables k₁.procs := fun hr' => by
    rw [hm.tables_eq he]; exact mem_insert_of_mem hr'
  have hsame : ∀ r' ∈ tables k.procs, ∀ n < 512 * 512 * 512, n ≠ framePage np → leaf m r' n = leaf k₁.mem r' n :=
    fun r' hr' n hn hx => by rw [hL r' hr' n hn, if_neg fun hy => hx hy.2]
  refine ⟨⟨ρ, ?_⟩, ?_, ?_, fun i hi r' hr' n hn hv => ?_, fun i hi a ha => ?_, hc1.own_update hm.slot fun a ha =>
    .inl ?_, ?_⟩ <;>
    dsimp only at *
  · rw [htab]; exact hI
  · rw [htab]
    intro r' hr' n hn hlt
    rw [hL r' hr' n hlt]
    split
    · exact mkPte_kern (by decide) (by decide) (by decide) _
    · exact hc1.kern r' (hin hr') n hn hlt
  · rw [htab]
    intro r' hr'
    have hw := hc1.wired r' (hin hr')
    refine ⟨?_, fun i hi => ?_, fun n hn hlt h1 h2 => by
      rw [hsame r' hr' n hlt (h2 np hm.slot)]; exact hw.rest n hn hlt h1 h2⟩
    · rw [hsame r' hr' _ (by decide) (framePage_ne hm.slot).symm]; exact hw.tramp
    · by_cases hnp : i = np
      · rw [hnp, update_self]
        unfold Framed
        rw [hL r' hr' _ (framePage_lt np), show q.pagetable = some rme by rw [hq], show q.trapframe = some tf by
          rw [hq, hm.self]]
        by_cases hx : r' = rme
        · rw [if_pos (by rw [hx]), if_pos ⟨hx, rfl⟩]
          intro a ha
          rw [some.inj ha]
        · rw [if_neg fun hy => hx (some.inj hy).symm, if_neg fun hy => hx hy.1]
          exact (hm.unframed he hc1 hr').2
      · rw [update_of_ne hnp]
        have hf := hw.frame i hi
        unfold Framed at hf ⊢
        rw [hsame r' hr' _ (framePage_lt i) fun hx => hnp (framePage_inj hi hm.slot hx)]
        exact hf
  · have hr'' : r' ∈ tables k.procs := by rw [← htab]; exact mem_tables.mpr ⟨i, hi, hr'⟩
    rw [hsame r' hr'' n (NUPAGE_lt hn) (by omega)] at hv ⊢
    by_cases hnp : i = np
    · rw [hnp, update_self, hq] at hr' ⊢
      have := hc1.user _ hk.slot rme (by rw [hm.other _ hne]; exact hrme)
      rw [hm.other _ hne] at this
      rw [← some.inj hr'] at hv ⊢
      exact this n hn hv
    · rw [update_of_ne hnp] at hr' ⊢
      exact hc1.user i hi r' hr' n hn hv
  · rw [update_apply_congr Proc.trapframe (show q.trapframe = (k₁.procs np).trapframe by rw [hq])] at ha
    exact hc1.frame i hi a ha
  · rw [hq] at ha; exact ha
  · rw [fileRefs_same hm.slot (by rw [hq]; exact fun _ => rfl), cwdRefs_same (by rw [hq])]
    exact hc1.fs

end

theorem Child.thread
    (hch : Child k k3 k.sys.cur np q) (h : Inv W L k) (hk : Runs k) (hnp : np < NPROC) (hfree : ¬ k.sys.live np)
    (hlead : (k.procs k.sys.cur).pid = (k.procs k.sys.cur).tgid)
    (hpid : q.pid = k.sys.nextpid) (hpt : q.pagetable = some rme) (htf : q.trapframe ≠ none)
    (hsz : q.sz = (k.procs k.sys.cur).sz) (hrme : (k.procs k.sys.cur).pagetable = some rme) (hc3 : Core W L' k3)
    (hme' : me' = { k3.procs k.sys.cur with thread_count := (k3.procs k.sys.cur).thread_count + 1 })
    (hnp' : np' = { k3.procs np with tgid := (k.procs k.sys.cur).tgid })
    (hk' : k' = { k3 with procs := update (update k3.procs k.sys.cur me') np np' }) : Inv W L' k' := by
  have hne : k.sys.cur ≠ np := fun hx => hfree (hx ▸ hk.alive.1)
  have hcwd := h.homed _ hk.slot hk.alive.1 hk.alive.2 (by have := hk.slot; omega)
  have hself := hch.self
  have hsys : k'.sys = k3.sys := by rw [hk']
  have hnew : k'.procs np = np' := by rw [hk']; exact update_self ..
  have hprocs : k'.procs = update (update k.procs np np') k.sys.cur
      { k.procs k.sys.cur with thread_count := (k.procs k.sys.cur).thread_count + 1 } := by
    rw [hk', hme', hch.other _ hne]
    funext i
    dsimp only
    by_cases hin : i = np
    · rw [hin, update_self, update_of_ne hne.symm, update_self]
    · rw [update_of_ne hin]
      by_cases him : i = k.sys.cur
      · rw [him, update_self, update_self]
      · rw [update_of_ne him, update_of_ne him, update_of_ne hin, hch.other i hin]
  have hcore : Core W L' k' := by
    have hc4 : Core W L' { k3 with procs := update k3.procs k.sys.cur me' } := by
      rw [hme']
      exact hc3.setProc hk.slot rfl rfl (fun r hr => hc3.user _ hk.slot r hr) (fun _ => rfl) rfl
    have hold : update k3.procs k.sys.cur me' np = k3.procs np := update_of_ne hne.symm _ _
    rw [hk', hnp']
    refine hc4.setProc hnp ?_ ?_ (fun r hr => hc3.user np hnp r hr) (fun _ => ?_) ?_ <;> dsimp only <;> rw [hold]
    rfl
  have hborn : Born k.sys k'.sys np := by rw [hsys]; exact hch.born
  have hfresh : Fresh k.sys k'.sys np np' := by
    refine ⟨hnp, hfree, hborn, ?_, ?_, ?_, ?_⟩
    · rw [hnp', hself]; exact hpid
    · rw [hnp', hself]; dsimp only; rw [hpt]; simp
    · rw [hnp', hself]; exact htf
    · have hb := hch.bounded (by rw [hsz]; exact hk.bounded.sz) hk.bounded
      rw [hnp']; exact ⟨hb.sz, hb.vma⟩
  have hslots : Slots k'.procs k'.sys := by
    rw [hprocs]
    refine h.slots.spawn hfresh hk.slot hk.alive.1 hk.alive.2 hlead.symm ?_ ?_ ?_ ?_ <;> rw [hnp']
    · exact hlead.symm
    · rw [hself]
    · rw [hself]; dsimp only; rw [hpt, hrme]
    · rw [hself]; exact hsz
  refine h.born hcore hslots hborn hfree hk.alive.1 (by rw [hnew, hnp', hself]) (by rw [hnew, hnp', hself]; exact hcwd)
    (fun i hi => ?_) (by rw [hsys]; exact hch.initproc) (by rw [hsys]; exact hch.held.trans h.held)
  rw [hprocs]
  by_cases him : i = k.sys.cur
  · rw [him, update_self]; exact ⟨rfl, rfl⟩
  · rw [update_of_ne him, update_of_ne hi]; exact ⟨rfl, rfl⟩

structure Cloned (k k' : Kernel) (np : Nat) : Prop where
  slot : np < NPROC
  free : ¬ k.sys.live np
  born : Born k.sys k'.sys np
  other : ∀ i, i ≠ np → i ≠ k.sys.cur → k'.procs i = k.procs i
  self : k'.procs k.sys.cur = { k.procs k.sys.cur with thread_count := (k.procs k.sys.cur).thread_count + 1 }
  leader : (k.procs k.sys.cur).tgid = (k.procs k.sys.cur).pid
  tgid : (k'.procs np).tgid = (k.procs k.sys.cur).tgid
  pid : (k'.procs np).pid = k.sys.nextpid
  sz : (k'.procs np).sz = (k.procs k.sys.cur).sz
  pagetable : (k'.procs np).pagetable = (k.procs k.sys.cur).pagetable
  vmas : (k.procs k.sys.cur).SameVmas (k'.procs np)
  same : ∀ r ∈ tables k.procs, ∀ n < NUPAGE, leaf k'.mem r n = leaf k.mem r n
  cur : k'.sys.cur = k.sys.cur

theorem wp_clone {fn arg stack : Nat} {Q : Option Nat → Kernel → Prop} (h : Inv W L k) (hk : Runs k)
    (hn : ∀ k', Inv W L k' → Skipped k k' → Q none k')
    (hs : ∀ k' L' np pid, Inv W L' k' → (∀ a, L a ≤ L' a) → (∃ a ∈ k.mem.freelist, 0 < L' a) → Cloned k k' np →
      Q (some pid) k') :
    wp (clone fn arg stack) Q Allowed k := by
  unfold clone
  simp only [wp_bind, wp_myproc, wp_getProc]
  refine wp_ite (fun _ => wp_ret (hn k h (Skipped.refl k))) fun hlead => ?_
  refine wp_seq (wp_allocproc h.toCore h.slots (fun k' hc hs => wp_ret (hn k' (h.skip hc hs) hs))
    fun k₁ np r tf hc1 hm => ?_)
  obtain ⟨rme, hrme⟩ := ne_none_iff_exists'.mp hk.table
  have he := h.slots.unused np hm.slot hm.free
  have hne : k.sys.cur ≠ np := fun hx => hm.free (hx ▸ hk.alive.1)
  have hcwd := h.homed _ hk.slot hk.alive.1 hk.alive.2 (by have := hk.slot; omega)
  simp only [wp_bind, wp_setProc, hrme]
  generalize hq : ({ k₁.procs np with pagetable := some rme, sz := (k.procs k.sys.cur).sz } : Proc) = q
  obtain ⟨L', ρ', hle, hpos, htab2, hI2⟩ := hm.replace h hk hc1 hrme (q := q) (by rw [← hq])
  have hnp2 : update k₁.procs np q np = q := update_self ..
  refine wp_tableOf (r := rme) (by dsimp only; rw [hnp2, ← hq]) ?_
  simp only [wp_getProc]
  have hin := mem_tables.mpr ⟨_, hk.slot, hrme⟩
  rw [wp_kmem, show (update k₁.procs np q np).trapframe = some tf by rw [hnp2, ← hq, hm.self]]
  refine hm.wp_mapFrame he hc1 hin hin hI2 fun m hI3 hL => ?_
  have hc3 := hm.join he hk hc1 hrme (by rw [← hq]) htab2 hI3 hL
  simp only [update_idem, hnp2]
  generalize hq' : ({ q with regs := _ } : Proc) = q'
  have hqs : q' = { k.procs np with
      pid := k.sys.nextpid, tgid := k.sys.nextpid, thread_count := 1, vmas := fun _ => Vma.zero, trapframe := some tf,
      pagetable := some rme, sz := (k.procs k.sys.cur).sz, regs := q'.regs } := by rw [← hq', ← hq, hm.self]
  have hc4 : Core W L' { k₁ with mem := m, procs := update k₁.procs np q' } := by
    have := hc3.setProc (p := np) (q := q') hm.slot (by dsimp only; rw [hnp2, ← hq']) (by dsimp only; rw [hnp2, ← hq'])
      (fun r' hr' => ?_) (fun f => by dsimp only; rw [hnp2, ← hq']; rfl) (by dsimp only; rw [hnp2, ← hq'])
    · dsimp only at this
      rwa [update_idem] at this
    · have hu := hc3.user np hm.slot r'
      dsimp only at hu ⊢
      rw [hnp2] at hu
      rw [← hq'] at hr' ⊢
      exact hu hr'
  have hnp4 : update k₁.procs np q' np = q' := update_self ..
  refine wp_launch hc4 hm.slot hne ?_ ?_ ?_ ?_ (by rw [hm.held]; exact List.mem_cons_self ..)
    ((hm.born.live np).mpr (.inr rfl)) (fun hx => ((hm.born.dead np).mp hx).2 rfl) fun k5 hc5 hl5 => ?_
  · dsimp only
    rw [update_of_ne hne, hm.other _ hne]; exact hcwd
  · dsimp only
    rw [hnp4, hqs]; exact he.ofile
  · dsimp only
    rw [hnp4, hqs]; exact he.cwd
  · dsimp only
    rw [hnp4, hqs]; exact fun _ _ => rfl
  have hch := hl5.child hm rfl rfl rfl hne
  simp only [wp_pure, update_of_ne hne.symm]
  have hself := hch.self
  refine hs _ L' np _ (hch.thread h hk hm.slot hm.free (not_not.mp hlead) ?_ ?_ ?_ ?_ hrme hc5 rfl rfl rfl) hle
    ⟨r, hm.new.2, hpos⟩ ⟨hm.slot, hm.free, hch.born, fun i hi him => ?_, ?_, (not_not.mp hlead).symm, ?_, ?_, ?_, ?_, ?_,
      fun r' hr' n hn => ?_, hch.cur⟩
  · rw [hqs]
  · rw [hqs]
  · rw [hqs]; simp
  · rw [hqs]
  · exact (update_of_ne hi _ _).trans ((update_of_ne him _ _).trans (hch.other i hi))
  · refine (update_of_ne hne _ _).trans ((update_self ..).trans ?_)
    rw [hch.other _ hne]
  all_goals dsimp only
  · rw [update_self]
  · rw [update_self]
    rw [hself, hqs]
  · rw [update_self]
    rw [hself, hqs]
  · rw [update_self]
    rw [hself, hqs, hrme]
  · rw [update_self]
    exact hch.vmas
  · have hu := framePage_user hm.slot
    rw [show k5.mem = m from hl5.mem, hL r' hr' n (NUPAGE_lt hn), if_neg fun hx => by omega]
    exact hm.same r' hr' n (NUPAGE_lt hn)

end Xv6
