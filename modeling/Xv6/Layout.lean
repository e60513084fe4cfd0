import Xv6.Group

/-!
# Heap and mappings

Where the mappings of a process without threads lie: apart from each other
and above its heap, as long as the heap does not grow into them.
-/

namespace Xv6

open Hoare Function Option

/-- The used mappings are aligned, below the trap frames, apart from each other and from the heap. -/
structure Proc.Laid (p : Proc) : Prop where
  placed : ∀ j < MAXVMA, (p.vmas j).used = true → (p.vmas j).Placed
  apart : ∀ j < MAXVMA, ∀ j' < MAXVMA, j ≠ j' → (p.vmas j).used = true → (p.vmas j').used = true →
    (p.vmas j).addr + (p.vmas j).len ≤ (p.vmas j').addr ∨ (p.vmas j').addr + (p.vmas j').len ≤ (p.vmas j).addr
  above : ∀ j < MAXVMA, (p.vmas j).used = true → (p.vmas j).len ≠ 0 → PGROUNDUP p.sz ≤ (p.vmas j).addr

def Proc.Room (p : Proc) (sz : Nat) : Prop :=
  ∀ j < MAXVMA, (p.vmas j).used = true → (p.vmas j).len ≠ 0 → PGROUNDUP sz ≤ (p.vmas j).addr

instance Proc.decidableRoom (p : Proc) (sz : Nat) : Decidable (p.Room sz) :=
  inferInstanceAs (Decidable (∀ j < MAXVMA, _ → _ → _))

section
variable {p q : Proc}

theorem Proc.laid_of_unused (h : ∀ j < MAXVMA, (p.vmas j).used = false) : p.Laid := by
  refine ⟨fun j hj hu => ?_, fun j hj _ _ _ hu => ?_, fun j hj hu => ?_⟩ <;>
  · rw [h j hj] at hu
    cases hu

theorem Proc.Laid.shrink (h : p.Laid) (hsz : q.sz = p.sz) (hv : ∀ j < MAXVMA, (q.vmas j).used →
    (p.vmas j).used ∧ (p.vmas j).addr ≤ (q.vmas j).addr ∧
      (q.vmas j).addr + (q.vmas j).len ≤ (p.vmas j).addr + (p.vmas j).len ∧ (q.vmas j).Placed) : q.Laid := by
  refine ⟨fun j hj hu => (hv j hj hu).2.2.2, fun j hj j' hj' hne hu hu' => ?_, fun j hj hu hlen => ?_⟩
  · obtain ⟨hpu, hlo, hhi, -⟩ := hv j hj hu
    obtain ⟨hpu', hlo', hhi', -⟩ := hv j' hj' hu'
    have := h.apart j hj j' hj' hne hpu hpu'
    omega
  · obtain ⟨hpu, hlo, hhi, -⟩ := hv j hj hu
    have := h.above j hj hpu (by omega)
    rw [hsz]
    omega

theorem Proc.Laid.same (h : p.Laid) (hv : p.SameVmas q) (hsz : q.sz = p.sz) : q.Laid := by
  refine h.shrink hsz fun j hj hu => ?_
  have hpu : (p.vmas j).used := (hv j hj).1 ▸ hu
  rw [hv.eq hj hu]
  exact ⟨hpu, le_rfl, le_rfl, h.placed j hj hpu⟩

theorem Proc.Laid.resize (h : p.Laid) {sz : Nat} (hr : p.Room sz) :
    ({ p with sz := sz } : Proc).Laid := ⟨h.placed, h.apart, hr⟩

theorem Proc.Laid.add (h : p.Laid) {i : Nat} {v : Vma} (hv : v.Placed) (hab : PGROUNDUP p.sz ≤ v.addr)
    (hap : ∀ j < MAXVMA, (p.vmas j).used → (p.vmas j).addr + (p.vmas j).len ≤ v.addr ∨ v.addr + v.len ≤ (p.vmas j).addr) :
    (p.setVma i v).Laid := by
  have hself : (p.setVma i v).vmas i = v := update_self ..
  have hother : ∀ j, j ≠ i → (p.setVma i v).vmas j = p.vmas j := fun j hj => update_of_ne hj ..
  refine ⟨fun j hj hu => ?_, fun j hj j' hj' hne hu hu' => ?_, fun j hj hu hlen => ?_⟩
  · by_cases hji : j = i
    · rw [hji, hself]; exact hv
    · rw [hother j hji] at hu ⊢
      exact h.placed j hj hu
  · by_cases hji : j = i
    · rw [hother j' (by omega)] at hu' ⊢
      rw [hji, hself]
      exact (hap j' hj' hu').symm
    · rw [hother j hji] at hu ⊢
      by_cases hji' : j' = i
      · rw [hji', hself]
        exact hap j hj hu
      · rw [hother j' hji'] at hu' ⊢
        exact h.apart j hj j' hj' hne hu hu'
  · by_cases hji : j = i
    · rw [hji, hself]; exact hab
    · rw [hother j hji] at hu hlen ⊢
      exact h.above j hj hu hlen

theorem Proc.Laid.served (h : p.Laid) (hsz : p.sz ≤ TRAPFRAME NPROC) {j va : Nat} (hj : j < MAXVMA)
    (hc : (p.vmas j).covers va) :
    p.sz ≤ va ∧ p.vmaAt va = some (p.vmas j) := by
  have hin : ∀ i < MAXVMA, (p.vmas i).covers va → (p.vmas i).used ∧ (p.vmas i).addr ≤ va ∧
      va < (p.vmas i).addr + (p.vmas i).len := by
    intro i hi hx
    obtain ⟨hu, hlo, hhi⟩ := of_decide_eq_true hx
    exact ⟨hu, hlo, by rw [← (h.placed i hi hu).stop_eq]; exact hhi⟩
  obtain ⟨hu, hlo, hhi⟩ := hin j hj hc
  constructor
  · have hab := h.above j hj hu (by omega)
    have hup := PGROUNDUP_ge hsz
    omega
  · cases hat : p.vmaAt va with
    | none => exact absurd hat (vmaAt_isSome.mpr ⟨j, hj, hc⟩)
    | some v =>
      have hcov := List.find?_some hat
      obtain ⟨i, hi, rfl⟩ := List.mem_map.mp (List.mem_of_find?_eq_some hat)
      have hi := List.mem_range.mp hi
      by_cases hij : i = j
      · rw [hij]
      · obtain ⟨hu', hlo', hhi'⟩ := hin i hi hcov
        have := h.apart i hi j hj hij hu' hu
        omega

end

section
variable [Image] {W : Prop} {L : Nat → Nat} {k k' : Kernel}

def Threadless (k : Kernel) : Prop := ∀ i < NPROC, k.sys.live i → (k.procs i).tgid = (k.procs i).pid

/-- No threads and no `exec`, and the heap grows only where there is room for it. -/
def Roomy (e : Nat × Op) (k : Kernel) : Prop :=
  match e.2 with
  | .exec .. | .clone .. => False
  | .sbrk n _ => newSz (k.procs e.1).sz n ≤ TRAPFRAME NPROC → (k.procs e.1).Room (newSz (k.procs e.1).sz n)
  | _ => True

structure Tidied (k : Kernel) : Prop where
  lead : Threadless k
  spaced : Spaced k
  laid : ∀ i < NPROC, k.sys.live i → (k.procs i).Laid

omit [Image] in
theorem Idle.tidied (h : Idle k) (hl : Threadless k) : Tidied k :=
  ⟨hl, h.spaced, fun i hi hli => Proc.laid_of_unused (h i hi hli).1⟩

theorem Threadless.unthreaded (h : Threadless k) (hinv : Inv W L k) {i : Nat} (hi : i < NPROC) (hl : k.sys.live i) :
    Unthreaded k i :=
  fun j hj hlj ht => hinv.slots.pids j hj i hi hlj hl ((h j hj hlj).symm.trans ht)

section
omit [Image]

theorem Tidied.steady (h : Tidied k) (hs : Steady k k') :
    Threadless k' ∧ ∀ i < NPROC, k'.sys.live i → (k'.procs i).Laid := by
  refine ⟨fun i hi hl => ?_, fun i hi hl => ?_⟩ <;> rw [hs.procs i hl]
  · exact h.lead i hi (hs.live i hl)
  · have hx := h.laid i hi (hs.live i hl)
    exact ⟨hx.placed, hx.apart, hx.above⟩

theorem Tidied.forked {np : Nat} (h : Tidied k) (hcur : k.sys.cur < NPROC) (hl : k.sys.live k.sys.cur)
    (hf : Forked k k' np) :
    Threadless k' ∧ ∀ i < NPROC, k'.sys.live i → (k'.procs i).Laid := by
  have hlive : ∀ i, k'.sys.live i → i ≠ np → k.sys.live i := fun i hl hne => ((hf.born.live i).mp hl).resolve_right hne
  refine ⟨fun i hi hli => ?_, fun i hi hli => ?_⟩
  · by_cases hip : i = np
    · rw [hip]; exact hf.lead
    · rw [hf.other i hip]
      exact h.lead i hi (hlive i hli hip)
  · by_cases hip : i = np
    · rw [hip]
      exact (h.laid _ hcur hl).same hf.vmas hf.sz
    · rw [hf.other i hip]
      exact h.laid i hi (hlive i hli hip)

theorem Tidied.own {q : Proc} (h : Tidied k) (hs : SysRel k.sys k'.sys)
    (hp : k'.procs = update k.procs k.sys.cur { k.procs k.sys.cur with vmas := q.vmas })
    (hq : (k.procs k.sys.cur).Laid → (k'.procs k.sys.cur).Laid) :
    Threadless k' ∧ ∀ i < NPROC, k'.sys.live i → (k'.procs i).Laid := by
  refine ⟨fun i hi hli => ?_, fun i hi hli => ?_⟩
  · have hx := h.lead i hi ((hs.live i).mp hli)
    rw [hp]
    by_cases hic : i = k.sys.cur
    · rw [hic] at hx ⊢
      rw [update_self]
      exact hx
    · rw [update_of_ne hic]
      exact hx
  · have hx := h.laid i hi ((hs.live i).mp hli)
    by_cases hic : i = k.sys.cur
    · rw [hic] at hx ⊢
      exact hq hx
    · rw [hp, update_of_ne hic]
      exact hx

end

theorem Tidied.sized {r : Nat} {z : Int} (h : Tidied k) (hinv : Inv W L k) (hk : Runs k) (hs : Sized k k' r z)
    (hr : (k.procs k.sys.cur).Room (newSz (k.procs k.sys.cur).sz z)) :
    Threadless k' ∧ ∀ i < NPROC, k'.sys.live i → (k'.procs i).Laid := by
  have hlive : ∀ i, k'.sys.live i → k.sys.live i := fun i hl => by rw [hs.sys] at hl; exact hl
  refine ⟨fun i hi hli => ?_, fun i hi hli => ?_⟩ <;> rw [hs.procs, resized_eq]
  · exact h.lead i hi (hlive i hli)
  · have hx := h.laid i hi (hlive i hli)
    refine hx.resize ?_
    split
    · rename_i htg
      -- without threads the caller is alone in its group
      have hcur := h.lead _ hk.slot hk.alive.1
      rw [h.lead.unthreaded hinv hk.slot hk.alive.1 i hi (hlive i hli) (htg.2.trans hcur)]
      exact hr
    · exact hx.above

theorem Tidied.step {L' : Nat → Nat} {i : Nat} {op : Op} (h : Tidied k) (hinv : Inv W L k) (hinv' : Inv W L' k')
    (hr : k.ready i) (hp : Roomy (i, op) k) (hc : op.Change (k.switch i) k') : Tidied k' := by
  have hs : Tidied (k.switch i) := ⟨h.lead, ⟨h.spaced.cover, h.spaced.vmas⟩, h.laid⟩
  have hk := hinv.runs_switch hr
  have hu : Unthreaded k i := h.lead.unthreaded hinv hr.1 (ready_alive hr).1
  have ht : Tame (i, op) k := by
    cases op <;> first | exact hp | exact hu | exact hp.elim | exact trivial
  have hspaced := h.spaced.step hinv hinv' hr ht hc
  have hsteady : Steady (k.switch i) k' → Threadless k' ∧ ∀ i < NPROC, k'.sys.live i → (k'.procs i).Laid := hs.steady
  suffices hx : Threadless k' ∧ ∀ i < NPROC, k'.sys.live i → (k'.procs i).Laid from ⟨hx.1, hspaced, hx.2⟩
  cases op with
  | exec | clone => exact hp.elim
  | fork => exact hc.elim hsteady fun ⟨np, hf⟩ => hs.forked hr.1 hk.alive.1 hf
  | sbrk => exact hc.elim hsteady fun ⟨r, hpt, hz⟩ => hs.sized (hinv.switch i) hk hz (hp hz.bound)
  | mmap =>
    refine hc.elim hsteady fun ⟨j, v, hm⟩ => hs.own (q := ((k.switch i).procs i).setVma j v) hm.rel hm.procs fun hx => ?_
    rw [hm.procs, update_self]
    exact hx.add hm.placed hm.above hm.apart
  | munmap =>
    refine hc.elim hsteady fun ⟨hm, hlead⟩ => hs.own hm.rel hm.procs fun hx => hx.shrink ?_ hm.vmas
    rw [hm.self]
  | exit | wait | fault | opens | dup | close | join => exact hsteady hc

theorem Tidied.sbrk (h : Tidied k) (hinv : Inv W L k) {i : Nat} {n : Int} {eager : Bool} {e : Stop}
    (hp : Roomy (i, .sbrk n eager) k) (he : act i (.sbrk n eager) k = .error e) : e ≠ .mem (.panic .remap) := by
  refine wp_error (Q := fun _ _ => True) (E := fun e => e ≠ .mem (.panic .remap)) ?_ he
  refine wp_act (fun _ => trivial) fun hr => ?_
  have hi := hinv.switch i
  have hk := hinv.runs_switch hr
  obtain ⟨r, hpt⟩ := ne_none_iff_exists'.mp hk.table
  rw [Op.run, wp_bind]
  simp only [wp_pure]
  refine wp_sys_sbrk hi hk hpt (fun _ => by simp) (fun hpos hb hx => ?_) (fun _ _ _ _ => trivial) fun _ _ _ => trivial
  obtain ⟨j, hlo, hhi, hv⟩ := hx
  have hlive := (ready_alive hr).1
  have hj : j < NUPAGE := by
    lia
  dsimp only at hb hlo hhi hv hpt
  rcases h.spaced.cover i hr.1 hlive (h.lead i hr.1 hlive) r hpt j hj hv with hheap | ⟨x, hx, hu, h1, h2⟩
  · lia
  · have hlen : ((k.procs i).vmas x).len ≠ 0 := by omega
    have hroom : PGROUNDUP (newSz (k.procs i).sz n) ≤ ((k.procs i).vmas x).addr := hp hb x hx hu hlen
    have hal := ((h.laid i hr.1 hlive).placed x hx hu).1
    have hup := PGROUNDUP_ge hb
    lia

theorem Inv.fault_maps (hinv : Inv W L k) {i va r : Nat} {read : Bool} {e : Stop} (hr : k.ready i)
    (hpt : (k.procs i).pagetable = some r) (he : vmfault (k.procs i) r va read ⟨(k.switch i).sys, k.mem⟩ = .error e) :
    e ≠ .mem (.panic .remap) := by
  obtain ⟨r', ρ, hpt', hU⟩ := (hinv.switch i).toCore.userOk (hinv.runs_switch hr)
  have hrr : r' = r := some.inj (hpt'.symm.trans hpt)
  subst hrr
  refine wp_error (Q := fun _ _ => True) (E := fun e => e ≠ .mem (.panic .remap)) ?_ he
  exact wp_vmfault hU.inv hU.held hU.table hU.bounded hU.alive hU.kern (fun _ => by simp) (.inr ⟨by simp, by simp⟩)
    (.inr fun _ => by simp) fun _ _ _ _ _ _ => trivial

def Absent (k : Kernel) (i j : Nat) : Prop :=
  ∀ r, (k.procs i).pagetable = some r → ∀ n, ((k.procs i).vmas j).addr / 4096 ≤ n →
    n < ((k.procs i).vmas j).addr / 4096 + ((k.procs i).vmas j).len / 4096 → (leaf k.mem r n).has PTE_V = false

theorem Tidied.mmap (h : Tidied k) (hinv : Inv W L k) {i addr len prot flags fd off a : Nat} (hr : k.ready i)
    (hx : sys_mmap addr len prot flags fd off (k.switch i) = .ok (some a, k')) :
    ∃ j < MAXVMA, ((k'.procs i).vmas j).used ∧ ((k'.procs i).vmas j).addr = a ∧ Absent k' i j := by
  have hwp : wp (sys_mmap addr len prot flags fd off) (fun o k' => o = some a → ∃ j v, v.addr = a ∧
    Mapped (k.switch i) k' j v)
      Allowed (k.switch i) :=
    wp_sys_mmap (hinv.switch i) (hinv.runs_switch hr) (fun hx => by cases hx) fun k' j v _ hm hx =>
      ⟨j, v, some.inj hx, hm⟩
  obtain ⟨j, v, ha, hm⟩ := wp_ok hwp hx rfl
  have hself : (k'.procs i).vmas j = v := by
    rw [hm.procs]
    rw [update_self]
    exact update_self ..
  have hpt : (k'.procs i).pagetable = (k.procs i).pagetable := by
    rw [hm.procs]
    rw [update_self]
    rfl
  have hlive := (ready_alive hr).1
  refine ⟨j, hm.slot, by rw [hself]; exact hm.used, by rw [hself]; exact ha, fun r hr' n h1 h2 => ?_⟩
  rw [hself] at h1 h2
  rw [hpt] at hr'
  rw [hm.mem]
  by_contra hv
  have hv : (leaf k.mem r n).has PTE_V := by simpa using hv
  have hpl := hm.placed
  have hab := hm.above
  have hn : n < NUPAGE := by
    have := hpl.2.2
    lia
  rcases h.spaced.cover i hr.1 hlive (h.lead i hr.1 hlive) r hr' n hn hv with hheap | ⟨x, hx, hu, h3, h4⟩
  · dsimp only at hab
    omega
  · have hpx := (h.laid i hr.1 hlive).placed x hx hu
    have hap : ((k.procs i).vmas x).addr + ((k.procs i).vmas x).len ≤ v.addr ∨ v.addr + v.len ≤ ((k.procs i).vmas x).addr :=
      hm.apart x hx hu
    omega

structure Collisionless (k : Kernel) : Prop where
  laid : ∀ i < NPROC, k.sys.live i → (k.procs i).Laid
  served : ∀ i < NPROC, k.sys.live i → ∀ j < MAXVMA, ∀ va pagetable read, ((k.procs i).vmas j).covers va = true →
    vmfaultNew (k.procs i) pagetable va read = vmfaultVma ((k.procs i).vmas j) pagetable va read
  fresh : ∀ i addr len prot flags fd off a k', k.ready i →
    sys_mmap addr len prot flags fd off (k.switch i) = .ok (some a, k') →
    ∃ j < MAXVMA, ((k'.procs i).vmas j).used = true ∧ ((k'.procs i).vmas j).addr = a ∧ Absent k' i j
  sbrk : ∀ i n eager e, Roomy (i, .sbrk n eager) k → act i (.sbrk n eager) k = .error e → e ≠ .mem (.panic .remap)
  fault : ∀ i va read r e, k.ready i → (k.procs i).pagetable = some r →
    vmfault (k.procs i) r va read ⟨(k.switch i).sys, k.mem⟩ = .error e → e ≠ .mem (.panic .remap)

/-- As long as no heap grows into a mapping, heaps and mappings stay apart. -/
theorem heap_apart {c : Config} {k₀ k₁ : Kernel} {P : Nat × Op → Kernel → Prop} {tr tr' : List ((Nat × Op) × Kernel)}
    (hb : Booted c k₀) (ht : Reaches P k₀ tr k₁) (hi : Idle k₁) (hl : Threadless k₁) (ht' : Reaches Roomy k₁ tr' k) :
    Collisionless k := by
  obtain ⟨L, -, h₁⟩ := inv_of_reaches hb.inv ht
  obtain ⟨⟨L', h⟩, hs⟩ := reaches_change h₁ (hi.tidied hl)
    (fun i op k k' _ _ hp hr hx hx' hsp hc => hsp.step hx hx' hr hp hc) ht'
  refine ⟨hs.laid, fun i hi hli j hj va pt read hc => ?_, fun i _ _ _ _ _ _ a k' hr hx => hs.mmap h hr hx,
    fun i n eager e hp he => hs.sbrk h hp he, fun i va read r e hr hpt he => h.fault_maps hr hpt he⟩
  obtain ⟨hsz, hat⟩ := (hs.laid i hi hli).served (h.slots.bounded i hi).sz hj hc
  unfold vmfaultNew
  rw [if_neg (Nat.not_lt.mpr hsz), hat]

end

instance Threadless.decidable (k : Kernel) : Decidable (Threadless k) := inferInstanceAs (Decidable (∀ i < NPROC, _ → _))

instance Roomy.decidable (e : Nat × Op) (k : Kernel) : Decidable (Roomy e k) := match e with
  | (_, .exec ..) | (_, .clone ..) => isFalse id
  | (i, .sbrk n _) =>
    inferInstanceAs (Decidable (newSz (k.procs i).sz n ≤ TRAPFRAME NPROC → (k.procs i).Room (newSz (k.procs i).sz n)))
  | (_, .fork) | (_, .exit _) | (_, .wait _) | (_, .fault ..) | (_, .opens ..) | (_, .dup _) | (_, .close _) | (_, .mmap ..)
  | (_, .munmap ..) | (_, .join) => isTrue trivial

theorem heap_apart_grow : ∃ k₀ tr k, @Booted (lastPages 30) Config.small k₀ ∧ @Reaches (lastPages 30) Roomy k₀ tr k ∧
    (k.procs 0).sz = 4097 ∧ ((k.procs 0).vmas 0).used = true ∧ @Collisionless (lastPages 30) k := by
  obtain ⟨k₀, tr, k, hb, ht, hf⟩ := @reaches_of_runs (lastPages 30) Config.small Roomy (fun e k => Roomy.decidable e k)
    [(0, .opens 2 2), (0, .mmap 0 4096 3 1 0 0), (0, .sbrk 4096 true), (0, .fault 274877632512 true), (0, .sbrk 1 false)]
    (fun k₀ k => decide (Threadless k₀ ∧ (k.procs 0).sz = 4097 ∧ ((k.procs 0).vmas 0).used = true)) Config.small_ok
    (by decide +kernel)
  obtain ⟨hl, hsz, hu⟩ := of_decide_eq_true hf
  exact ⟨k₀, tr, k, hb, ht, hsz, hu, @heap_apart (lastPages 30) k Config.small k₀ k₀ (fun _ _ => True) [] tr hb Trace.start
    (@Booted.idle (lastPages 30) k₀ Config.small hb) hl ht⟩

/-- A mapping reaches down to the heap, and then the heap grows into it: lazily over it, eagerly until `mappages`
stops it. -/
theorem heap_collides : ∃ k₀ tr k k', @Booted (lastPages 30) Config.small k₀ ∧
    @Reaches (lastPages 30) (fun e _ => e.2.Single) k₀ tr k ∧ @act (lastPages 30) 0 (.sbrk 1 false) k = .ok ((), k') ∧
    ¬ (k'.procs 0).Laid ∧ @act (lastPages 30) 0 (.sbrk 1 true) k = .error (.mem (.panic .remap)) := by
  obtain ⟨k₀, tr, k, hb, ht, hf⟩ := @reaches_of_runs (lastPages 30) Config.small (fun e _ => e.2.Single)
    (fun e _ => Op.decidableSingle e.2)
    [(0, .sbrk 4096 true), (0, .opens 2 2), (0, .mmap 0 274877632512 3 1 0 0), (0, .fault 4096 true)]
    (fun _ k => okAnd (@act (lastPages 30) 0 (.sbrk 1 false) k) (fun _ k' => decide ((k'.procs 0).sz = 4097 ∧
        ((k'.procs 0).vmas 0).used = true ∧ ((k'.procs 0).vmas 0).addr = 4096 ∧ ((k'.procs 0).vmas 0).len ≠ 0)) &&
      failsBy (@act (lastPages 30) 0 (.sbrk 1 true) k) (.mem (.panic .remap)))
    Config.small_ok (by decide +kernel)
  obtain ⟨hlazy, heager⟩ := Bool.and_eq_true_iff.mp hf
  obtain ⟨_, k', hk', hd⟩ := of_okAnd hlazy
  obtain ⟨hsz, hu, haddr, hlen⟩ := of_decide_eq_true hd
  refine ⟨k₀, tr, k, k', hb, ht, hk', fun hl => ?_, of_failsBy heager⟩
  have hab := hl.above 0 (by decide) hu hlen
  rw [hsz, haddr] at hab
  exact absurd hab (by decide)

section
variable {k k' : Kernel} {np r r' x : Nat} {v : Vma}

theorem Forked.sees_heap (h : Forked k k' np) (hr : (k.procs k.sys.cur).pagetable = some r)
    (hr' : (k'.procs np).pagetable = some r') (hx : x / PGSIZE * PGSIZE < (k.procs k.sys.cur).sz) :
    (k'.procs np).sees ⟨k'.sys, k'.mem⟩ r' x = (k.procs k.sys.cur).sees ⟨k.sys, k.mem⟩ r x := by
  obtain ⟨r1, r2, h1, -, h2, hview⟩ := h.table
  obtain rfl : r' = r1 := some.inj (hr'.symm.trans h1)
  obtain rfl : r = r2 := some.inj (hr.symm.trans h2)
  have he := h.entry r' r hr' hr _ hx
  unfold Proc.sees byteAt
  by_cases hv : (leaf k.mem r (x / PGSIZE)).has PTE_V
  · rw [if_pos hv] at he
    have hu : (leaf k'.mem r' (x / PGSIZE)).has PTE_U = (leaf k.mem r (x / PGSIZE)).has PTE_U := by
      rw [he, PTE_U, mkPte_has (by omega) (by omega), copyFlags_has (by omega) (by omega)]
    rw [hu, hview _ hx, if_pos hv, he, if_pos (mkPte_V _ _)]
  · rw [if_neg hv] at he
    rw [he, if_neg (by simp), if_neg hv, h.sz, if_pos hx, if_pos hx]

theorem Forked.sees_iff (h : Forked k k' np) (hb : (k.procs k.sys.cur).Bounded) (hr : (k.procs k.sys.cur).pagetable = some r)
    (hr' : (k'.procs np).pagetable = some r') (hv : (k.procs k.sys.cur).vmaAt (x / PGSIZE * PGSIZE) = some v)
    (hp : test v.prot (PROT_READ ||| PROT_EXEC)) :
    (k'.procs np).sees ⟨k'.sys, k'.mem⟩ r' x = (k.procs k.sys.cur).sees ⟨k.sys, k.mem⟩ r x ↔
      ((leaf k.mem r (x / PGSIZE)).has PTE_V → (k.procs k.sys.cur).sz ≤ x / PGSIZE * PGSIZE →
        (k.procs k.sys.cur).sees ⟨k.sys, k.mem⟩ r x = some (v.byteAt k.sys x)) := by
  by_cases hx : x / PGSIZE * PGSIZE < (k.procs k.sys.cur).sz
  · exact iff_of_true (h.sees_heap hr hr' hx) fun _ hge => absurd hx (not_lt.mpr hge)
  obtain ⟨j, hj, rfl, hu, -, hlt⟩ := mem_vmaAt hv
  have hnu : x / PGSIZE < NUPAGE := by
    have := lt_of_lt_of_le hlt (le_trans (Nat.mod_le _ _) (hb.vma j hj hu).2.2)
    exact Nat.lt_of_mul_lt_mul_right this
  have hno : ¬ (leaf k'.mem r' (x / PGSIZE)).has PTE_V := fun hc => by
    have h1 := h.heap r' hr' _ hnu hc
    have h2 := PGROUNDUP_lt hb.sz
    lia
  have hchild : (k'.procs np).sees ⟨k'.sys, k'.mem⟩ r' x = some (((k.procs k.sys.cur).vmas j).byteAt k.sys x) := by
    unfold Proc.sees
    rw [if_neg hno, h.sz, if_neg hx, h.vmas.vmaAt, hv]
    dsimp only
    rw [if_pos hp, h.shows]
  rw [hchild]
  by_cases hin : (leaf k.mem r (x / PGSIZE)).has PTE_V
  · exact ⟨fun he _ _ => he.symm, fun he => (he hin (not_lt.mp hx)).symm⟩
  · refine iff_of_true ?_ fun hc => absurd hc hin
    unfold Proc.sees
    rw [if_neg hin, if_neg hx, hv]
    exact (if_pos hp).symm

/-- Programs have stored what they like in memory and in files. -/
def Kernel.stored (k : Kernel) (d b : Nat → Nat → UInt8) : Kernel :=
  { k with
    mem := { k.mem with data := d }
    sys := { k.sys with inode := fun ip => { k.sys.inode ip with data := b ip } } }

variable [Image] {W : Prop} {L : Nat → Nat}

theorem Inv.stored (h : Inv W L k) (d b : Nat → Nat → UInt8) : Inv W L (k.stored d b) := by
  obtain ⟨ρ, hI⟩ := h.mem
  have hc := h.toCore.remap (m := { k.mem with data := d }) (hI.congr rfl rfl rfl) (fun _ _ _ _ _ => rfl)
    fun _ _ _ _ _ _ => .inl rfl
  exact h.rel ⟨hc.mem, hc.kern, hc.wired, hc.user, hc.frame, hc.own, h.fs.file, h.fs.pipe, h.fs.bound, h.fs.closed,
    h.fs.inode,
    h.fs.typed, h.fs.type, h.fs.lock, h.fs.size⟩ ⟨rfl, rfl, rfl, rfl, fun _ => Iff.rfl, fun _ => Iff.rfl, id⟩

/-- The child in slot `np` sees what its parent sees in a mapping, unless the parent has a page there that differs from
the file. -/
theorem fork_mappings {c : Config} {k₀ k₁ : Kernel} {P : Nat × Op → Kernel → Prop} {tr : List ((Nat × Op) × Kernel)}
    {i pid : Nat}
    {d b : Nat → Nat → UInt8} (hb : Booted c k₀) (ht : Reaches P k₀ tr k) (hi : k.ready i)
    (hk : k₁ = (k.stored d b).switch i)
    (hf : kfork k₁ = .ok (some pid, k')) (hnp : ¬ k.sys.live np ∧ k'.sys.live np) (hr : (k.procs i).pagetable = some r)
    (hr' : (k'.procs np).pagetable = some r') (hv : (k.procs i).vmaAt (x / PGSIZE * PGSIZE) = some v)
    (hp : test v.prot (PROT_READ ||| PROT_EXEC) = true) :
    (k'.procs np).sees ⟨k'.sys, k'.mem⟩ r' x = (k.procs i).sees ⟨k₁.sys, k₁.mem⟩ r x ↔
      ((leaf k.mem r (x / PGSIZE)).has PTE_V = true → (k.procs i).sz ≤ x / PGSIZE * PGSIZE →
        (k.procs i).sees ⟨k₁.sys, k₁.mem⟩ r x = some (v.byteAt k₁.sys x)) := by
  obtain ⟨L, -, h⟩ := inv_of_reaches hb.inv ht
  have h₁ := h.stored d b
  have hrun := h₁.runs_switch hi
  subst hk
  have hwp : wp kfork (fun o k' => o = some pid → ∃ np, Forked ((k.stored d b).switch i) k' np) Allowed
      ((k.stored d b).switch i) := wp_kfork (h₁.switch i) hrun (fun _ _ _ hx => by cases hx) fun _ np _ _ hF _ => ⟨np, hF⟩
  obtain ⟨n, hF⟩ := wp_ok hwp hf rfl
  obtain rfl : np = n := ((hF.born.live np).mp hnp.2).resolve_left hnp.1
  exact hF.sees_iff hrun.bounded hr hr' hv hp

end

theorem fork_mappings_unused : ∃ k₀ tr k k' r r' pid, @Booted (lastPages 30) Config.small k₀ ∧
    @Reaches (lastPages 30) (fun _ _ => True) k₀ tr k ∧ @kfork (lastPages 30) (k.switch 0) = .ok (some pid, k') ∧
    (k'.procs 1).sees ⟨k'.sys, k'.mem⟩ r' 274877632512 = (k.procs 0).sees ⟨k.sys, k.mem⟩ r 274877632512 := by
  obtain ⟨k₀, tr, k, hb, ht, hf⟩ := reaches_last Config.small_ok
    [(0, .opens 2 2), (0, .mmap 0 4096 3 2 0 0)] (fun _ k => decide (k.ready 0) &&
      (k.procs 0).pagetable.any fun r => ((k.procs 0).vmaAt 274877632512).any fun v =>
        decide (test v.prot (PROT_READ ||| PROT_EXEC) = true ∧ (leaf k.mem r (274877632512 / PGSIZE)).has PTE_V = false) &&
        okAnd (@kfork (lastPages 30) (k.switch 0)) fun o k' => o.isSome &&
          (decide (¬ k.sys.live 1 ∧ k'.sys.live 1) && (k'.procs 1).pagetable.isSome)) (by decide +kernel)
  simp only [Bool.and_eq_true, decide_eq_true_eq, any_eq_true] at hf
  obtain ⟨hi, r, hr, v, hv, ⟨hp, hno⟩, hf⟩ := hf
  obtain ⟨o, k', hk, hf⟩ := of_okAnd hf
  simp only [Bool.and_eq_true, decide_eq_true_eq, isSome_iff_exists] at hf
  obtain ⟨⟨pid, rfl⟩, hnp, r', hr'⟩ := hf
  refine ⟨k₀, tr, k, k', r, r', pid, hb, ht, hk, (@fork_mappings k k' 1 r r' 274877632512 v (lastPages 30) Config.small k₀
    (k.switch 0) _ tr 0 pid k.mem.data (fun ip => (k.sys.inode ip).data) hb ht hi rfl hk hnp hr hr' hv hp).mpr fun hc => ?_⟩
  rw [hno] at hc; cases hc

/-- A process stores fives to a page of a private mapping of its own; its child sees the sevens of the file there. -/
theorem fork_loses_page : ∃ k₀ tr k k₁ k' r r' pid, @Booted (lastPages 30) Config.small k₀ ∧
    @Reaches (lastPages 30) (fun _ _ => True) k₀ tr k ∧ (k.procs 0).pagetable = some r ∧
    (leaf k.mem r (274877632512 / PGSIZE)).has PTE_W = true ∧
    k₁ = k.stored (update k.mem.data (PTE2PA (leaf k.mem r (274877632512 / PGSIZE))) fun _ => 5)
      (fun ip => (k.sys.inode ip).data) ∧
    @kfork (lastPages 30) (k₁.switch 0) = .ok (some pid, k') ∧ (k'.procs 1).pagetable = some r' ∧
    (k₁.procs 0).sees ⟨k₁.sys, k₁.mem⟩ r 274877632512 = some 5 ∧
    (k'.procs 1).sees ⟨k'.sys, k'.mem⟩ r' 274877632512 = some 7 := by
  obtain ⟨k₀, tr, k, hb, ht, hf⟩ := reaches_last Config.small_ok
    [(0, .opens 2 2), (0, .mmap 0 4096 3 2 0 0), (0, .fault 274877632512 false)] (fun _ k =>
      (k.procs 0).pagetable.any fun r =>
        let k₁ := k.stored (update k.mem.data (PTE2PA (leaf k.mem r (274877632512 / PGSIZE))) fun _ => 5)
          (fun ip => (k.sys.inode ip).data)
        decide ((leaf k.mem r (274877632512 / PGSIZE)).has PTE_W = true ∧
          (k₁.procs 0).sees ⟨k₁.sys, k₁.mem⟩ r 274877632512 = some 5) &&
        okAnd (@kfork (lastPages 30) (k₁.switch 0)) fun o k' => o.isSome && (k'.procs 1).pagetable.any fun r' =>
          decide ((k'.procs 1).sees ⟨k'.sys, k'.mem⟩ r' 274877632512 = some 7)) (by decide +kernel)
  simp only [Bool.and_eq_true, decide_eq_true_eq, any_eq_true] at hf
  obtain ⟨r, hr, ⟨hw, h1⟩, hf⟩ := hf
  obtain ⟨o, k', hk, hf⟩ := of_okAnd hf
  simp only [Bool.and_eq_true, decide_eq_true_eq, any_eq_true, isSome_iff_exists] at hf
  obtain ⟨⟨pid, rfl⟩, r', hr', h2⟩ := hf
  exact ⟨k₀, tr, k, _, k', r, r', pid, hb, ht, hr, hw, rfl, hk, hr', h1, h2⟩

end Xv6
