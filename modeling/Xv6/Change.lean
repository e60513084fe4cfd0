import Xv6.OpSound

/-!
# What a call does to the processes' memory

For each call, what can have changed in any process: its size, its mappings
and the entries of its table.
-/

namespace Xv6

open Hoare Function

variable [Image] {W : Prop} {L : Nat → Nat} {k k' : Kernel}

/-- The processes that are left have what they had, and pages came only where the caller may have them. -/
structure Steady (k k' : Kernel) : Prop where
  live : ∀ i, k'.sys.live i → k.sys.live i
  procs : ∀ i, k'.sys.live i → k'.procs i = { k.procs i with
    parent := (k'.procs i).parent, thread_count := (k'.procs i).thread_count, ofile := (k'.procs i).ofile,
    cwd := (k'.procs i).cwd }
  within : Within k k'

section
omit [Image]

theorem Steady.refl (k : Kernel) : Steady k k := ⟨fun _ => id, fun _ _ => rfl, Within.of_same fun _ _ _ _ => rfl⟩

theorem Skipped.steady (h : Skipped k k') : Steady k k' := by
  refine ⟨fun i hl => (h.live i).mp hl, fun i hl => ?_, h.within⟩
  rcases h.procs i with he | ⟨hno, -⟩
  · rw [he]
  · exact absurd ((h.live i).mp hl) hno

theorem Waited.steady {pp addr : Nat} (h : Waited k k' pp addr) : Steady k k' := by
  refine ⟨fun i hl => ((h.gone.live i).mp hl).1, fun i hl => ?_, h.within⟩
  rw [h.other i ((h.gone.live i).mp hl).2]

theorem Reaped.steady (h : Reaped k k' k.sys.cur pp) : Steady k k' := by
  refine ⟨fun i hl => ((h.gone.live i).mp hl).1, fun i hl => ?_, h.within⟩
  have hne := ((h.gone.live i).mp hl).2
  rw [h.procs]
  by_cases hi : i = k.sys.cur
  · rw [hi, update_self]
  · rw [update_of_ne hi, update_of_ne hne]

theorem Exited.steady (h : Exited k k' me) : Steady k k' := ⟨h.live, h.kept, h.within⟩

theorem Refiled.steady (h : Refiled k k') : Steady k k' := by
  refine ⟨fun i hl => (h.rel.live i).mp hl, fun i _ => ?_, Within.of_same fun _ _ _ _ => by rw [h.mem]⟩
  rw [h.procs]
  by_cases hi : i = k.sys.cur
  · rw [hi, update_self]
  · rw [update_of_ne hi]

theorem Steady.of_rel (hs : SysRel k.sys s) (hw : Within k { k with sys := s, mem := m }) :
    Steady k { k with sys := s, mem := m } := ⟨fun i hl => (hs.live i).mp hl, fun _ _ => rfl, hw⟩

theorem Stored.within (hr : (k.procs k.sys.cur).pagetable = some r)
    (h : Stored (k.procs k.sys.cur) k.mem m (tables k.procs) r a bs) : Within k { k with sys := s, mem := m } := by
  intro r' hr' n hn hv
  rcases h.inside r' hr' n hn hv with hold | ⟨rfl, hin⟩
  · exact .inl hold
  · exact .inr ⟨hr, hin⟩

end

def Op.Change : Op → Kernel → Kernel → Prop
  | .exec .., _, _ => True
  | .fork, k, k' => Steady k k' ∨ ∃ np, Forked k k' np
  | .clone .., k, k' => Steady k k' ∨ ∃ np, Cloned k k' np
  | .sbrk n _, k, k' => Steady k k' ∨ ∃ r, (k.procs k.sys.cur).pagetable = some r ∧ Sized k k' r n
  | .mmap .., k, k' => Steady k k' ∨ ∃ i v, Mapped k k' i v
  | .munmap .., k, k' => Steady k k' ∨ Trimmed k k' ∧ (k.procs k.sys.cur).tgid = (k.procs k.sys.cur).pid
  | _, k, k' => Steady k k'

theorem wp_fault_change {read : Bool} (h : Inv W L k) (hk : Runs k) :
    wp (pagefault va read) (fun _ k' => Inv W L k' ∧ Steady k k') Allowed k := by
  refine wp_pagefault h hk (fun s r hr hI hR => ⟨hI, ?_⟩) fun s y r k' hr hR hy hI hE => ⟨hI, ?_⟩
  · exact Steady.of_rel hR.kept.toSysRel (hR.toStored.within hr)
  · have hrel : SysRel k.sys y := hR.kept.toSysRel.trans hy.toSysRel
    have hsub : tables k'.procs ⊆ tables k.procs := fun x hx => by
      obtain ⟨i, hi, hix⟩ := mem_tables.mp hx
      refine mem_tables.mpr ⟨i, hi, ?_⟩
      rw [hE.kept i (hI.slots.live_of_table hi hix)] at hix
      exact hix
    have hw : Within k { k with sys := y, mem := s.mem } := hR.toStored.within hr
    refine ⟨fun i hl => (hrel.live i).mp (hE.live i hl), fun i hl => hE.kept i hl, hw.trans hE.within hsub fun r n hx => ?_⟩
    unfold InCur at hx ⊢
    rw [hrel.cur] at hx
    exact hx

theorem wp_change (op : Op) (h : Inv W L k) (hk : Runs k) :
    wp op.run (fun _ k' => (∃ L', Inv W L' k') ∧ op.Change k k') Allowed k := by
  obtain ⟨r, hr⟩ := Option.ne_none_iff_exists'.mp hk.table
  cases op <;> dsimp only [Op.run, Op.Change]
  case exit => exact wp_kexit h hk fun k' hI hE => ⟨⟨L, hI⟩, hE.steady⟩
  case fault => exact wp_post (wp_fault_change h hk) fun _ k' hx => ⟨⟨L, hx.1⟩, hx.2⟩
  all_goals
    rw [wp_bind]
    simp only [wp_pure]
  case fork =>
    exact wp_kfork h hk (fun k' hI hS => ⟨⟨L, hI⟩, .inl hS.steady⟩) fun k' np pid hI hF => ⟨⟨L, hI⟩, .inr ⟨np, hF⟩⟩
  case exec => exact wp_kexec h hk fun o k' hI _ => ⟨⟨L, hI⟩, trivial⟩
  case wait =>
    exact wp_kwait h hk allowed_sys (fun _ => by simp [Allowed]) ⟨⟨L, h⟩, Steady.refl k⟩
      (fun s m pp n hI hK hS => ⟨⟨L, hI⟩, Steady.of_rel hK.toSysRel ((hS r hr).within hr)⟩)
      fun k' pp hI hW => ⟨⟨L, hI⟩, hW.steady⟩
  case sbrk =>
    refine wp_sys_sbrk h hk hr allowed_sys (fun _ _ _ => by simp [Allowed]) (fun m hI hV _ => ⟨⟨L, hI⟩, .inl ?_⟩)
      fun k' hI hS => ⟨⟨L, hI⟩, .inr ⟨r, hr, hS⟩⟩
    refine Steady.of_rel (SysRel.refl _) fun r' hr' n hn hv => .inl ?_
    rcases hV r' hr' n (lt_trans hn (by decide)) with he | ⟨he, -⟩
    · rw [← he]; exact hv
    · dsimp only at hv
      rw [he] at hv
      cases hv
  case mmap =>
    exact wp_sys_mmap h hk ⟨⟨L, h⟩, .inl (Steady.refl k)⟩ fun k' i v hI hM => ⟨⟨L, hI⟩, .inr ⟨i, v, hM⟩⟩
  case munmap =>
    exact wp_sys_munmap h hk allowed_sys ⟨⟨L, h⟩, .inl (Steady.refl k)⟩ fun b k' hI hT hl => ⟨⟨L, hI⟩, .inr ⟨hT, hl⟩⟩
  case opens => exact wp_sys_open h hk fun o k' hI hR => ⟨⟨L, hI⟩, hR.steady⟩
  case dup => exact wp_sys_dup h hk fun o k' hI hR => ⟨⟨L, hI⟩, hR.steady⟩
  case close => exact wp_sys_close h hk fun o k' hI hR => ⟨⟨L, hI⟩, hR.steady⟩
  case clone =>
    exact wp_clone h hk (fun k' hI hS => ⟨⟨L, hI⟩, .inl hS.steady⟩) fun k' L' np pid hI _ _ hC =>
      ⟨⟨L', hI⟩, .inr ⟨np, hC⟩⟩
  case join => exact wp_join h hk ⟨⟨L, h⟩, Steady.refl k⟩ fun k' pp hI hR => ⟨⟨L, hI⟩, hR.steady⟩

theorem Sized.valid (h : Sized k k' r z) (hsz : (k.procs k.sys.cur).sz ≤ TRAPFRAME NPROC)
    (hr' : r' ∈ tables k.procs) (hn : n < NUPAGE) (hv : (leaf k'.mem r' n).has PTE_V) :
    (r' = r ∧ n < PGROUNDUP (newSz (k.procs k.sys.cur).sz z) / 4096) ∨ ((leaf k.mem r' n).has PTE_V ∧
      (r' = r → n < PGROUNDUP (k.procs k.sys.cur).sz / 4096 → n < PGROUNDUP (newSz (k.procs k.sys.cur).sz z) / 4096)) := by
  have hb := h.bound
  have hup : 0 ≤ z → PGROUNDUP (k.procs k.sys.cur).sz ≤ PGROUNDUP (newSz (k.procs k.sys.cur).sz z) := by
    intro hz
    have hle : (k.procs k.sys.cur).sz ≤ newSz (k.procs k.sys.cur).sz z := by
      unfold newSz
      rw [if_neg (by omega)]
      exact Nat.le_max_left ..
    simp only [PGROUNDUP, PGSIZE, TRAPFRAME, TRAMPOLINE, MAXVA, NPROC] at *
    omega
  rcases h.mem with ⟨hz, hm⟩ | ⟨hz, hG⟩ | ⟨hz, -, hC⟩
  · rw [hm] at hv
    exact .inr ⟨hv, fun _ _ => by omega⟩
  · have := hup hz
    by_cases hin : r' = r ∧ PGROUNDUP (k.procs k.sys.cur).sz / 4096 ≤ n ∧
        n < PGROUNDUP (k.procs k.sys.cur).sz / 4096 + rounds (PGROUNDUP (k.procs k.sys.cur).sz)
          (newSz (k.procs k.sys.cur).sz z)
    · refine .inl ⟨hin.1, ?_⟩
      obtain ⟨-, hlo, hhi⟩ := hin
      simp only [rounds, PGROUNDUP, PGSIZE, TRAPFRAME, TRAMPOLINE, MAXVA, NPROC] at *
      omega
    · rw [hG.old r' hr' n (lt_trans hn (by decide)) hin] at hv
      exact .inr ⟨hv, fun _ _ => by omega⟩
  · rw [hC r' hr' n (lt_trans hn (by decide))] at hv
    split at hv
    · cases hv
    · rename_i hout
      refine .inr ⟨hv, fun he hlt => ?_⟩
      by_contra hge
      exact hout ⟨he, by omega, hlt, hv⟩

theorem reaches_change {P : Nat × Op → Kernel → Prop} {I : Kernel → Prop} {k0 : Kernel} {tr : List ((Nat × Op) × Kernel)}
    (hinv : Inv W L k0) (h0 : I k0) (hs : ∀ i op k k' L L', P (i, op) k → k.ready i → Inv W L k → Inv W L' k' → I k →
      op.Change (k.switch i) k' → I k') (ht : Reaches P k0 tr k) : (∃ L', Inv W L' k) ∧ I k := by
  refine Trace.inv (fun k => (∃ L', Inv W L' k) ∧ I k) ⟨⟨L, hinv⟩, h0⟩ ?_ ht
  intro e k1 ⟨⟨L1, h1⟩, hi⟩ hp
  refine wp_mono (Q := fun _ k' => (∃ L', Inv W L' k') ∧ I k') (E := Allowed) ?_ (fun _ _ hx => hx) fun _ _ => trivial
  refine wp_act (fun _ => ⟨⟨L1, h1⟩, hi⟩) fun hr => ?_
  refine wp_post (wp_change e.2 (h1.switch e.1) (h1.runs_switch hr)) fun _ k' hx => ⟨hx.1, ?_⟩
  obtain ⟨⟨L', h'⟩, hc⟩ := hx
  exact hs e.1 e.2 k1 k' L1 L' hp hr h1 h' hi hc

end Xv6
