import Xv6.ExecSound
import Xv6.Ops
import Xv6.Steps

/-!
# What a run of the kernel keeps

Every call keeps the invariant. Only `clone` may leave pages behind that
nothing accounts for, so that `L` grows along a run.
-/

namespace Xv6

open Hoare Function List

variable [Image] {W : Prop} {L : Nat → Nat} {k : Kernel}

omit [Image] in
theorem wp_setkilled (hE : E .acquire)
    (h : ∀ s', Still s s' → Q () s') : wp (setkilled p) Q E s := by
  unfold setkilled
  simp only [wp_bind, wp_modify]
  refine wp_acquire (fun _ => hE) fun _ => wp_release (mem_cons_self ..) (h _ ?_)
  exact Still.unlock (setRun_still (s := s.lock (.proc p)) Iff.rfl Iff.rfl)

theorem Inv.ran (h : Inv W L k) (hU : UserOk (k.procs k.sys.cur) s (tables k.procs) ρ (heldBy L k) r)
    (hR : Ran (k.procs k.sys.cur) ⟨k.sys, k.mem⟩ s (tables k.procs) r 0 []) :
    Inv W L { k with sys := s.sys, mem := s.mem } :=
  h.rel (h.toCore.step hU.inv hR.touched.tidy (h.fs.mild hR.kept.mild)) hR.kept.toSysRel

theorem wp_pagefault {read : Bool} (h : Inv W L k) (hk : Runs k)
    (hs : ∀ s r, (k.procs k.sys.cur).pagetable = some r → Inv W L { k with sys := s.sys, mem := s.mem } →
      Ran (k.procs k.sys.cur) ⟨k.sys, k.mem⟩ s (tables k.procs) r 0 [] → Q () { k with sys := s.sys, mem := s.mem })
    (hx : ∀ s y r k', (k.procs k.sys.cur).pagetable = some r →
      Ran (k.procs k.sys.cur) ⟨k.sys, k.mem⟩ s (tables k.procs) r 0 [] →
      Still s.sys y → Inv W L k' → Exited { k with sys := y, mem := s.mem } k' k.sys.cur → Q () k') :
    wp (pagefault va read) Q Allowed k := by
  obtain ⟨r, ρ, hr, hU⟩ := h.toCore.userOk hk
  unfold pagefault
  simp only [wp_bind, wp_myproc, wp_getProc]
  refine wp_tableOf hr ?_
  rw [wp_onV]
  refine wp_vmfault hU.inv hU.held hU.table hU.bounded hU.alive hU.kern (fun _ => by simp [Allowed])
    (.inr ⟨trivial, trivial⟩) (.inr fun _ => trivial) fun s ρ' res _ hI hF => ?_
  have hR := hF.ran hU 0
  have hinv := h.ran (hU.ran hI hR) hR
  cases res with
  | some pa => exact wp_ret (hs s r hr hinv hR)
  | none =>
    simp only [wp_bind, wp_ksys]
    refine wp_setkilled trivial fun y hy => ?_
    have hrel : SysRel k.sys y := hR.kept.toSysRel.trans hy.toSysRel
    have hinv' : Inv W L { k with sys := y, mem := s.mem } :=
      Inv.rel (k := { k with sys := s.sys, mem := s.mem }) hinv (hinv.toCore.setSys hy.file hy.inode) hy.toSysRel
    have hrun : Runs { k with sys := y, mem := s.mem } := hk.rel hrel hk.bounded hk.table
    refine wp_kexit hinv' hrun fun k' hI' he => hx s y r k' hr hR hy hI' ?_
    rw [← hrel.cur]; exact he

def Op.Single : Op → Prop
  | .clone .. => False
  | _ => True

instance Op.decidableSingle (op : Op) : Decidable op.Single := match op with
  | .clone .. => isFalse id
  | .fork | .exec .. | .exit _ | .wait _ | .sbrk .. | .mmap .. | .munmap .. | .fault .. | .opens .. | .dup _
  | .close _ | .join =>
    isTrue trivial

theorem wp_op (op : Op) (h : Inv W L k) (hk : Runs k) :
    wp op.run (fun _ k' => ∃ L', (∀ a, L a ≤ L' a) ∧ (op.Single → L' = L) ∧ Inv W L' k') Allowed k := by
  -- all but one of the calls keep `L`
  have hsame : ∀ {k'}, Inv W L k' → ∃ L', (∀ a, L a ≤ L' a) ∧ (op.Single → L' = L) ∧ Inv W L' k' := fun hI =>
    ⟨L, fun _ => le_rfl, fun _ => rfl, hI⟩
  obtain ⟨r, hr⟩ := Option.ne_none_iff_exists'.mp hk.table
  cases op <;> dsimp only [Op.run]
  case exit => exact wp_kexit h hk fun k' hI _ => hsame hI
  case fault => exact wp_pagefault h hk (fun s r _ hI _ => hsame hI) fun s y r k' _ _ _ hI _ => hsame hI
  all_goals
    rw [wp_bind]
    simp only [wp_pure]
  case fork => exact wp_kfork h hk (fun k' hI _ => hsame hI) fun k' np pid hI _ => hsame hI
  case exec => exact wp_kexec h hk fun o k' hI _ => hsame hI
  case wait =>
    exact wp_kwait h hk allowed_sys (fun _ => by simp [Allowed]) (hsame h) (fun s m pp n hI _ _ => hsame hI)
      fun k' pp hI _ => hsame hI
  case sbrk =>
    exact wp_sys_sbrk h hk hr allowed_sys (fun _ _ _ => by simp [Allowed]) (fun m hI _ _ => hsame hI) fun k' hI _ => hsame hI
  case mmap => exact wp_sys_mmap h hk (hsame h) fun k' i v hI _ => hsame hI
  case munmap => exact wp_sys_munmap h hk allowed_sys (hsame h) fun b k' hI _ _ => hsame hI
  case opens => exact wp_sys_open h hk fun o k' hI _ => hsame hI
  case dup => exact wp_sys_dup h hk fun o k' hI _ => hsame hI
  case close => exact wp_sys_close h hk fun o k' hI _ => hsame hI
  case clone =>
    exact wp_clone h hk (fun k' hI _ => hsame hI) fun k' L' np pid hI hle _ _ => ⟨L', hle, fun hx => hx.elim, hI⟩
  case join => exact wp_join h hk (hsame h) fun k' pp hI _ => hsame hI

omit [Image] in
theorem ready_alive (h : k.ready i) : (k.sys.run i).state ≠ .UNUSED ∧ (k.sys.run i).state ≠ .ZOMBIE := by
  rcases h.2 with hx | hx <;> rw [hx] <;> simp

abbrev Kernel.switch (k : Kernel) (i : Nat) : Kernel := { k with sys := { k.sys with cur := i } }

theorem Inv.switch (h : Inv W L k) (i : Nat) : Inv W L (k.switch i) :=
  ⟨h.toCore.setSys rfl rfl, ⟨h.slots.unused, h.slots.used, h.slots.zombie, h.slots.bounded, h.slots.pids, h.slots.lead,
    fun j hj hl ht => let ⟨q, hq⟩ := h.slots.thread j hj hl ht
      ⟨q, hq.slot, hq.parent, hq.live, hq.alive, hq.leader, hq.group, hq.pagetable, hq.sz⟩, h.slots.count⟩,
    ⟨h.family.slot, h.family.live, h.family.alive, h.family.root, h.family.self⟩, h.homed, h.held⟩

theorem Inv.runs_switch (h : Inv W L k) (hr : k.ready i) : Runs (k.switch i) :=
  ⟨ready_alive hr, hr.1, h.slots.bounded i hr.1, (h.slots.used i hr.1 (ready_alive hr).1).1⟩

theorem wp_act {op : Op} (hno : ¬ k.ready i → Q () k)
    (h : k.ready i → wp op.run Q E (k.switch i)) : wp (act i op) Q E k := by
  unfold act
  rw [wp_read]
  refine wp_ite (fun hr => ?_) fun hr => wp_ret (hno hr)
  simp only [wp_bind, wp_ksys, wp_modify]
  exact h hr

/-- The runs of the kernel: each event is a process and the call it makes. -/
abbrev Reaches (P : Nat × Op → Kernel → Prop) (k₀ : Kernel) (tr : List ((Nat × Op) × Kernel)) (k : Kernel) : Prop :=
  Trace (fun e => act e.1 e.2) P k₀ tr k

theorem wp_act_inv {op : Op} (h : Inv W L k) :
    wp (act i op) (fun _ k' => ∃ L', (∀ a, L a ≤ L' a) ∧ (op.Single → L' = L) ∧ Inv W L' k') Allowed k :=
  wp_act (fun _ => ⟨L, fun _ => le_rfl, fun _ => rfl, h⟩) fun hr => wp_op op (h.switch i) (h.runs_switch hr)

theorem inv_of_reaches (h : Inv W L k0)
    (ht : Reaches P k0 tr k) : ∃ L', (∀ a, L a ≤ L' a) ∧ Inv W L' k := by
  refine Trace.inv (fun k => ∃ L', (∀ a, L a ≤ L' a) ∧ Inv W L' k) ⟨L, fun _ => le_rfl, h⟩ ?_ ht
  rintro e k1 ⟨L1, hle, h1⟩ -
  refine wp_mono (wp_act_inv h1) (fun _ k' ⟨L2, hle', _, h2⟩ => ⟨L2, fun a => le_trans (hle a) (hle' a), h2⟩)
    fun _ _ => trivial

theorem inv_of_single (hP : ∀ e k, P e k → e.2.Single)
    (h : Inv W L k0) (ht : Reaches P k0 tr k) : Inv W L k := by
  refine Trace.inv (Inv W L) h (fun e k1 h1 hp => ?_) ht
  refine wp_mono (wp_act_inv h1) (fun _ k' ⟨L2, _, hsame, h2⟩ => ?_) fun _ _ => trivial
  rw [← hsame (hP e k1 hp)]
  exact h2

/-! ## Booting -/

def Config.Ok (c : Config) : Prop := ∀ ip, (c.inode ip).size ≤ MAXFILE * BSIZE

def Config.Whole (c : Config) : Prop := ∀ ip, (c.inode ip).Full 0 (c.inode ip).size

section
omit [Image]

theorem Proc.unused_empty : Proc.unused.Empty := ⟨rfl, rfl, rfl, rfl, fun _ _ => rfl, fun _ _ => rfl⟩

theorem tables_none {procs : Nat → Proc} (h : ∀ i, (procs i).pagetable = none) : tables procs = ∅ := by
  rw [Finset.eq_empty_iff_forall_notMem]
  intro r hr
  obtain ⟨i, -, hi⟩ := mem_tables.mp hr
  rw [h i] at hi
  cases hi

theorem Config.start_fs (c : Config) (hc : c.Ok) :
    Fs c.Whole c.start.sys (fileRefs c.start.procs) (cwdRefs c.start.procs) none := by
  have hfile : ∀ f, fileRefs c.start.procs f = 0 := fun f => by
    refine Finset.sum_eq_zero fun i _ => ?_
    unfold Proc.refs
    rw [Nat.count_of_forall_not (p := fun fd => (c.start.procs i).ofile fd = some f) fun fd _ => by
      simp [Config.start, Proc.unused],
      Nat.count_of_forall_not fun j _ => by simp [Config.start, Proc.unused, Vma.zero], add_zero]
  have hcwd : ∀ ip, cwdRefs c.start.procs ip = 0 := fun ip =>
    Nat.count_of_forall_not fun i _ => by simp [Config.start, Proc.unused]
  have hopen : ∀ ip, opens c.start.sys ip = 0 := fun ip => Nat.count_of_forall_not fun f _ => by simp [Config.start]
  exact ⟨fun f => (hfile f).symm, fun f => by simp [Config.start], fun f _ => hfile f, fun f => iff_of_true (hfile f) rfl,
    fun ip => by rw [hcwd, hopen]; rfl, fun ip hx => by simp [Config.start] at hx, fun f hx => by simp [Config.start] at hx,
    fun ip => by simp [Config.start], fun ip => ⟨hc ip, fun hw => hw ip⟩⟩

end

theorem Config.start_core (c : Config) (hc : c.Ok) {pages : List Nat}
    (hI : MemInv m ∅ ρ fun a => pages.count a) (hnd : pages.Nodup) :
    Core c.Whole (fun _ => 0) { c.start with mem := m, kpages := pages } := by
  have htab : tables c.start.procs = ∅ := tables_none fun _ => rfl
  have hheld : heldBy (fun _ => 0) { c.start with mem := m, kpages := pages } = fun a => (pages.count a : Int) := by
    funext a
    unfold heldBy frames
    rw [Nat.count_of_forall_not fun i _ => by simp [Config.start, Proc.unused]]
    simp
  refine ⟨⟨ρ, ?_⟩, ?_, ?_, fun i _ r hr => ?_, fun i _ a ha => ?_, fun a => ?_, c.start_fs hc⟩
  · dsimp only
    rw [htab, hheld]; exact hI
  · dsimp only
    rw [htab]; exact fun r hr => absurd hr (Finset.notMem_empty r)
  · dsimp only
    rw [htab]; exact fun r hr => absurd hr (Finset.notMem_empty r)
  · cases hr
  · cases ha
  · unfold frames
    rw [Nat.count_of_forall_not fun i _ => by simp [Config.start, Proc.unused], zero_add]
    exact nodup_iff_count_le_one.mp hnd a

omit [Image] in
theorem Config.start_slots (c : Config) : Slots c.start.procs c.start.sys := by
  have hno : ∀ i, ¬ c.start.sys.live i := fun i hx => hx rfl
  have hnd : ∀ i, ¬ c.start.sys.dead i := fun i hx => by cases hx
  exact ⟨fun _ _ _ => Proc.unused_empty, fun i _ hl => absurd hl (hno i), fun i _ hd => absurd hd (hnd i),
    fun i _ => Proc.bounded_of_empty Proc.unused_empty (Nat.zero_le _), fun i _ _ _ hl => absurd hl (hno i),
    fun i _ _ _ hl => absurd hl (hno i), fun i _ hl => absurd hl (hno i), fun i _ hl => absurd hl (hno i)⟩

theorem wp_takePages (c : Config) (hI : MemInv m ∅ (fun _ => none) fun _ => 0) :
    ∀ n, wp (forN (fun _ => takePage) n) (fun _ k => ∃ m pages, MemInv m ∅ (fun _ => none) (fun a => (pages.count a : Int)) ∧
      pages.Nodup ∧       k = { c.start with mem := m, kpages := pages }) (fun _ => True) { c.start with mem := m }
  | 0 => wp_ret ⟨m, [], by simpa using hI, nodup_nil, rfl⟩
  | n + 1 => by
    rw [forN, wp_bind]
    refine wp_post (wp_takePages c hI n) ?_
    rintro _ _ ⟨m1, pages, hI1, hnd, rfl⟩
    unfold takePage
    rw [wp_bind, wp_kmem]
    refine wp_kalloc (wp_fail trivial) fun pa rest hf => ?_
    obtain ⟨hI2, -, -⟩ := hI1.take (fun _ => by omega) hf
    obtain ⟨-, -, -, -, hfree⟩ := hI1.fresh (fun _ => by omega) (f := pa) (by rw [hf]; exact mem_cons_self)
    have hnew : pa ∉ pages := count_eq_zero.mp (by omega)
    refine (wp_modify _).mpr ⟨m1.take pa rest, pa :: pages, ?_, nodup_cons.mpr ⟨hnew, hnd⟩, rfl⟩
    have hcount : bump (fun a => (pages.count a : Int)) pa 1 = fun a => ((pa :: pages).count a : Int) := by
      funext a
      unfold bump
      by_cases ha : a = pa
      · simp [ha]
      · simp [ha, Ne.symm ha]
    rw [← hcount]
    exact hI2

/-- Nothing is mapped, and processes have no pages but those of their heaps. -/
def Idle (k : Kernel) : Prop :=
  ∀ i < NPROC, k.sys.live i → (∀ j < MAXVMA, ((k.procs i).vmas j).used = false) ∧
    ∀ r, (k.procs i).pagetable = some r → ∀ n < NUPAGE, (leaf k.mem r n).has PTE_V = true →
      n < PGROUNDUP (k.procs i).sz / 4096

theorem wp_userinit {root : Nat} (hc : Core W L k) (hs : Slots k.procs k.sys) (hno : ∀ i, ¬ k.sys.live i)
    (hheld : k.sys.held = [])
    (h0 : ∀ i, (k.procs i).sz = 0) : wp (userinit root) (fun _ k' => Inv W L k' ∧ Idle k') (fun _ => True) k := by
  refine wp_seq (wp_mono (wp_allocproc hc hs (fun _ _ _ => wp_fail trivial) fun k1 p r tf hc1 hm => ?_) (fun _ _ h => h)
    fun _ _ => trivial)
  have he := hs.unused p hm.slot hm.free
  have hp := hm.slot
  simp only [wp_bind, wp_ksys, wp_modify]
  refine wp_iget (.inr ⟨trivial, trivial⟩) fun s2 h2 => ?_
  simp only [wp_setProc, wp_setRun]
  have hheld2 : s2.held = [.proc p] := by rw [h2.held, hm.held, hheld]
  refine wp_release (show Lock.proc p ∈ s2.held by rw [hheld2]; exact mem_cons_self ..) ?_
  have hf1 : Fs W { k1.sys with initproc := p } (fileRefs k1.procs) (cwdRefs k1.procs) none := hc1.fs.congr rfl rfl
  have hcwd1 : (k1.procs p).cwd = none := by rw [hm.cwd]; exact he.cwd
  have hc2 := hc1.setFiles (s := s2) (q := { k1.procs p with cwd := some root }) hp rfl rfl
    (fun r hr => hc1.user p hp r hr) (by
    rw [fileRefs_same (q := { k1.procs p with cwd := some root }) hp fun f => rfl,
      cwdRefs_plus (q := { k1.procs p with cwd := some root }) hp hcwd1 rfl]
    exact hf1.iget h2)
  generalize hrun : (fun r : Run => { r with state := .RUNNABLE }) = f
  generalize hs3 : (s2.setRun p f).unlock (.proc p) = s3
  have hrun3 : ∀ i, (s3.run i).state = if i = p then .RUNNABLE else (s2.run i).state := fun i => by
    rw [← hs3, ← hrun]
    by_cases hi : i = p
    · simp [Sys.unlock, Sys.setRun, hi]
    · simp [Sys.unlock, Sys.setRun, hi]
  have hborn : Born k.sys s3 p := by
    refine ⟨fun j => ?_, fun j => ?_, ?_⟩
    · have hj := (h2.toSysRel.live j).trans (hm.born.live j)
      unfold Sys.live at hj ⊢
      rw [hrun3 j]
      by_cases hjp : j = p
      · simp [hjp]
      · rw [if_neg hjp]; exact hj
    · have hj := (h2.toSysRel.dead j).trans (hm.born.dead j)
      unfold Sys.dead at hj ⊢
      rw [hrun3 j]
      by_cases hjp : j = p
      · simp [hjp]
      · rw [if_neg hjp]; exact hj
    · rw [← hs3]
      exact h2.nextpid.trans hm.born.nextpid
  have hprocs : update k1.procs p { k1.procs p with cwd := some root } =
      update k.procs p { k1.procs p with cwd := some root } := by rw [hm.procs, update_idem]
  have hself := hm.self
  have hpar : ∀ i < NPROC, (update k.procs p { k1.procs p with cwd := some root } i).parent = none := fun i hi => by
    by_cases hip : i = p
    · rw [hip, update_self, hself]; exact he.parent
    · rw [update_of_ne hip]
      exact (hs.unused i hi (hno i)).parent
  have hinit : s3.initproc = p := by rw [← hs3]; exact h2.initproc
  have hidle : Idle { k1 with sys := s3, procs := update k1.procs p { k1.procs p with cwd := some root } } := by
    intro i hi hl
    have hip : i = p := ((hborn.live i).mp hl).resolve_left (hno i)
    dsimp only
    rw [hip, update_self, hself]
    refine ⟨fun j _ => rfl, ?_⟩
    rintro _ ⟨⟩ n hn hv
    rw [hm.table.leaf_user hp hn] at hv
    cases hv
  refine ⟨⟨?_, ?_, ?_, ?_, ?_⟩, hidle⟩
  · rw [← hs3]
    exact hc2.setSys rfl rfl
  · dsimp only
    rw [hprocs]
    refine hs.fork ⟨hp, hm.free, hborn, ?_, ?_, ?_, ⟨?_, ?_⟩⟩ ?_ ?_ ?_ <;> rw [hself]
    · simp
    · simp
    · dsimp only; rw [h0]; exact Nat.zero_le _
    · intro j _ hu; cases hu
    · rintro _ ⟨⟩
      exact hm.new.1
  · dsimp only
    rw [hprocs]
    refine ⟨by rw [hinit]; exact hp, ?_, ?_, by rw [hinit]; exact hpar p hp,
      fun i hi => by rw [hpar i hi]; simp⟩ <;> rw [hinit]
    · unfold Sys.live; rw [hrun3, if_pos rfl]; simp
    · unfold Sys.dead; rw [hrun3, if_pos rfl]; simp
  · intro i hi hl _ _
    have hip : i = p := ((hborn.live i).mp hl).resolve_left (hno i)
    dsimp only
    rw [hip, update_self]
    simp
  · rw [← hs3]
    change s2.held.erase (.proc p) = []
    rw [hheld2, erase_cons_head]

theorem wp_boot (c : Config) (hc : c.Ok) :
    wp (boot c) (fun _ k => Inv c.Whole (fun _ => 0) k ∧ Idle k) (fun _ => True) c.start := by
  unfold boot
  rw [wp_bind, wp_kmem]
  refine wp_kinit rfl fun m hI => ?_
  refine wp_seq (wp_post (wp_takePages c hI c.npages) ?_)
  rintro _ _ ⟨m1, pages, hI1, hnd, rfl⟩
  exact wp_userinit (c.start_core hc hI1 hnd) c.start_slots (fun i hx => hx rfl) rfl fun _ => rfl

structure Booted (c : Config) (k : Kernel) : Prop where
  ok : c.Ok
  run : boot c c.start = .ok ((), k)

theorem Booted.inv (h : Booted c k) : Inv c.Whole (fun _ => 0) k := by
  have hpost := wp_ok (wp_boot c h.ok) h.run
  exact hpost.1

theorem Booted.idle (h : Booted c k) : Idle k := by
  have hpost := wp_ok (wp_boot c h.ok) h.run
  exact hpost.2

omit [Image] in
/-- A machine on which no process ever has to wait; its files are a page long. -/
def Config.small : Config where
  mem := Mem.bss
  npages := 2
  inode _ := ⟨0, false, false, T_FILE, 1, PGSIZE, fun _ => 7, fun bn => decide (bn < 4), false⟩
  bfree := 0
  waits _ := false
  root := 1

omit [Image] in
theorem Config.small_ok : Config.small.Ok := fun _ => show PGSIZE ≤ MAXFILE * BSIZE by decide

omit [Image] in
theorem Config.small_whole : Config.small.Whole := fun _ j hj => by
  rw [Nat.zero_add]
  have hlt : j / BSIZE < 4 := Nat.div_lt_of_lt_mul hj
  exact ⟨decide_eq_true hlt, fun hn => absurd hn (by lia)⟩

theorem reaches_of_runs {c : Config} {P : Nat × Op → Kernel → Prop} [∀ e k, Decidable (P e k)] {l : List (Nat × Op)}
    {f : Kernel → Kernel → Bool} (hc : c.Ok) (h : (match boot c c.start with
      | .ok (_, k0) => (runs (fun e => act e.1 e.2) P l k0).any (f k0)
      | .error _ => false) = true) : ∃ k0 tr k, Booted c k0 ∧ Reaches P k0 tr k ∧ f k0 k = true := by
  split at h
  · rename_i k0 hb
    obtain ⟨k, hk, hf⟩ := (Option.any_eq_true ..).mp h
    obtain ⟨tr, ht⟩ := Trace.of_runs hk
    exact ⟨k0, tr, k, ⟨hc, hb⟩, ht, hf⟩
  · cases h

omit [Image] in
theorem reaches_last {c : Config} (hc : c.Ok) (l : List (Nat × Op)) (f : Kernel → Kernel → Bool)
    (h : (match @boot (lastPages 30) c c.start with
      | .ok (_, k0) => (runs (fun e => @act (lastPages 30) e.1 e.2) (fun _ _ => True) l k0).any (f k0)
      | .error _ => false) = true) :
    ∃ k0 tr k, @Booted (lastPages 30) c k0 ∧ @Reaches (lastPages 30) (fun _ _ => True) k0 tr k ∧ f k0 k = true :=
  @reaches_of_runs (lastPages 30) c _ (fun _ _ => instDecidableTrue) l f hc h

end Xv6
