import Xv6.Account

/-!
# The processes together

What one process can reach of another's memory, and what a fault, `fork`,
`exit` and `wait` leave to the others, in every state that calls lead to.
-/

namespace Xv6

open Hoare

variable [Image]

/-- A state to which calls of processes have led since the kernel booted. -/
structure Reached where
  c : Config
  k₀ : Kernel
  tr : List ((Nat × Op) × Kernel)
  k : Kernel
  booted : Booted c k₀
  run : Reaches (fun _ _ => True) k₀ tr k

/-- It is the turn of process `i`. -/
structure Turn extends Reached where
  i : Nat
  ready : k.ready i

abbrev Turn.start (t : Turn) : Kernel := t.k.switch t.i

theorem Reached.inv (x : Reached) : ∃ L, Inv x.c.Whole L x.k :=
  (inv_of_reaches x.booted.inv x.run).imp fun _ h => h.2

theorem Turn.inv (t : Turn) : ∃ L, Inv t.c.Whole L t.start ∧ Runs t.start :=
  t.toReached.inv.imp fun _ h => ⟨h.switch t.i, h.runs_switch t.ready⟩

/-- Calls of processes of a small system have led to `k`. -/
def SmallReached (k : Kernel) : Prop :=
  ∃ k₀ tr, @Booted (lastPages 30) Config.small k₀ ∧ @Reaches (lastPages 30) (fun _ _ => True) k₀ tr k

omit [Image] in
theorem SmallReached.turn (h : SmallReached k) (hi : k.ready i) :
    letI := lastPages 30; ∃ t : Turn, t.start = k.switch i ∧ t.k = k ∧ t.i = i := by
  obtain ⟨k₀, tr, hb, ht⟩ := h
  exact ⟨@Turn.mk (lastPages 30) (@Reached.mk (lastPages 30) _ k₀ tr k hb ht) i hi, rfl, rfl, rfl⟩

/-- Process `i` is ready in `k` and `x` returns there with what `f` accepts. -/
def accepts {α : Type} (i : Nat) (x : K α) (f : α → Kernel → Bool) (_ k : Kernel) : Bool :=
  decide (k.ready i) && okAnd (x (k.switch i)) f

omit [Image] in
theorem SmallReached.runs {α : Type} {i : Nat} {x : K α} {f : α → Kernel → Bool}
    (h : ∃ k₀ tr k, @Booted (lastPages 30) Config.small k₀ ∧ @Reaches (lastPages 30) (fun _ _ => True) k₀ tr k ∧
      accepts i x f k₀ k = true) :
    ∃ k a k', SmallReached k ∧ k.ready i ∧ x (k.switch i) = .ok (a, k') ∧ f a k' = true := by
  obtain ⟨k₀, tr, k, hb, ht, hf⟩ := h
  rw [accepts, Bool.and_eq_true, decide_eq_true_eq] at hf
  obtain ⟨a, k', hx, hf'⟩ := of_okAnd hf.2
  exact ⟨k, a, k', ⟨k₀, tr, hb, ht⟩, hf.1, hx, hf'⟩

/-- `e`, at page `n` of table `r`, leads to a page in use that is no page of a table, and alone if it can be written. -/
structure Secluded (k : Kernel) (r n : Nat) (e : Pte) : Prop where
  low : n < NUPAGE
  page : IsPage (PTE2PA e)
  used : PTE2PA e ∉ k.mem.freelist
  data : ∀ r' ∈ tables k.procs, ¬ OfTable k.mem r' (PTE2PA e)
  sole : e.has PTE_W = true → ∀ r' ∈ tables k.procs, ∀ n' < NUPAGE, Refers (leaf k.mem r' n') (PTE2PA e) → (r, n) = (r', n')

/-- No process reaches a page that is free or of a table, and none writes to a page of another. -/
theorem spaces_apart (x : Reached) : ∀ r ∈ tables x.k.procs, ∀ n < 512 * 512 * 512, (leaf x.k.mem r n).has PTE_V = true →
    (leaf x.k.mem r n).has PTE_U = true → Secluded x.k r n (leaf x.k.mem r n) := by
  intro r hr n hn hv hu
  obtain ⟨L, h⟩ := x.inv
  obtain ⟨ρ, hI⟩ := h.mem
  have hlow : n < NUPAGE := by
    by_contra hge
    rw [(h.kern r hr n (not_lt.mp hge) hn).1] at hu
    cases hu
  have hpage := hI.leafPage r hr n hlow hv
  -- The entry counts as a reference, so the page is not free, and a page of a table would have one too many.
  have hcount := hI.count _ hpage
  have hpos := leafRefs_pos hr hlow hv
  have hheld := heldBy_nonneg L x.k (PTE2PA (leaf x.k.mem r n))
  refine ⟨hlow, hpage, fun hf => ?_, fun r' hr' ho => ?_, fun hw r' hr' n' hn' he => ?_⟩
  · rw [((hI.freeIff _).mp hf).2] at hcount
    split at hcount <;> omega
  · have hρ := (hI.forest.ofTable _).mpr ⟨r', hr', ho⟩
    rw [hI.excl _ hρ, if_neg hρ] at hcount
    omega
  · by_contra hne
    rw [hI.cow r hr r' hr' n hlow n' hn' hne hv he] at hw
    cases hw

omit [Image] in
theorem spaces_apart_grown : ∃ k₀ tr k r, @Booted (lastPages 30) Config.small k₀ ∧
    @Reaches (lastPages 30) (fun _ _ => True) k₀ tr k ∧ k.ready 0 ∧ @Secluded (lastPages 30) k r 0 (leaf k.mem r 0) := by
  obtain ⟨k₀, tr, k, hb, ht, hf⟩ := reaches_last Config.small_ok [(0, .sbrk 1 true)] (fun _ k => decide (k.ready 0) &&
    (k.procs 0).pagetable.any fun r => (leaf k.mem r 0).has PTE_V && (leaf k.mem r 0).has PTE_U) (by decide +kernel)
  simp only [Bool.and_eq_true, decide_eq_true_eq, Option.any_eq_true] at hf
  obtain ⟨hk, r, hr, hv, hu⟩ := hf
  exact ⟨k₀, tr, k, r, hb, ht, hk, @spaces_apart (lastPages 30) (@Reached.mk (lastPages 30) _ k₀ tr k hb ht) r
    (mem_tables.mpr ⟨0, by decide, hr⟩) 0 (by decide) hv hu⟩

theorem kernel_in_order (x : Reached) : Fs x.c.Whole x.k.sys (fileRefs x.k.procs) (cwdRefs x.k.procs) none ∧
    Slots x.k.procs x.k.sys ∧ Family x.k.procs x.k.sys ∧ Homed x.k.procs x.k.sys NPROC ∧ x.k.sys.held = [] := by
  obtain ⟨L, h⟩ := x.inv
  exact ⟨h.fs, h.slots, h.family, h.homed, h.held⟩

omit [Image] in
theorem kernel_in_order_forked : ∃ k, SmallReached k ∧ k.ready 1 ∧ Family k.procs k.sys ∧ k.sys.held = [] := by
  obtain ⟨k, -, -, hk, hi, -⟩ := SmallReached.runs
    (reaches_last Config.small_ok [(0, .fork)] (accepts 1 (pure ()) fun _ _ => true) (by decide +kernel))
  obtain ⟨t, -, rfl, -⟩ := hk.turn hi
  obtain ⟨-, -, hfamily, -, hheld⟩ := @kernel_in_order (lastPages 30) (@Turn.toReached (lastPages 30) t)
  exact ⟨_, hk, hi, hfamily, hheld⟩

/-- A fault kills the process, or is seen by none. -/
theorem fault_transparent (t : Turn) (va : Nat) (read : Bool) : wp (pagefault va read) (fun _ k' => k'.sys.dead t.i ∨
    k'.procs = t.k.procs ∧ ∀ r, (t.k.procs t.i).pagetable = some r →
      Ran (t.k.procs t.i) ⟨t.start.sys, t.k.mem⟩ ⟨k'.sys, k'.mem⟩ (tables t.k.procs) r 0 []) Allowed t.start := by
  obtain ⟨L, h, hk⟩ := t.inv
  refine wp_pagefault h hk (fun s r hr _ hR => .inr ⟨rfl, fun r' hr' => ?_⟩) fun s y r k' _ _ _ _ hE => .inl hE.zombie
  rwa [Option.some.inj (hr'.symm.trans hr)]

omit [Image] in
theorem fault_transparent_lazy : ∃ k k', SmallReached k ∧ k.ready 0 ∧
    @pagefault (lastPages 30) 0 false (k.switch 0) = .ok ((), k') ∧ ¬ k'.sys.dead 0 ∧ k'.procs = k.procs := by
  obtain ⟨k, _, k', hk, hi, hx, hf⟩ := SmallReached.runs (reaches_last Config.small_ok [(0, .sbrk 1 false)]
    (accepts 0 (@pagefault (lastPages 30) 0 false) fun _ k' => (k'.sys.run 0).state != .ZOMBIE) (by decide +kernel))
  obtain ⟨t, hs, rfl, hti⟩ := hk.turn hi
  have hlive : ¬ k'.sys.dead 0 := by simpa [Sys.dead] using hf
  have hout := wp_ok (@fault_transparent (lastPages 30) t 0 false) (hs.symm ▸ hx)
  rw [hti] at hout
  exact ⟨_, k', hk, hi, hx, hlive, (hout.resolve_left hlive).1⟩

theorem kfork_copies (t : Turn) : wp kfork (fun o k' => if o = none then Skipped t.start k' else ∃ np, Forked t.start k' np)
    Allowed t.start := by
  obtain ⟨L, h, hk⟩ := t.inv
  exact wp_kfork h hk (fun k' _ hS => by simpa using hS) fun k' np pid _ hF => by simpa using ⟨np, hF⟩

omit [Image] in
theorem kfork_copies_heap : ∃ k o k' np, SmallReached k ∧ k.ready 0 ∧
    @kfork (lastPages 30) (k.switch 0) = .ok (o, k') ∧ Forked (k.switch 0) k' np := by
  obtain ⟨k, o, k', hk, hi, hx, hf⟩ := SmallReached.runs (reaches_last Config.small_ok [(0, .sbrk 1 true)]
    (accepts 0 (@kfork (lastPages 30)) fun o _ => o.isSome) (by decide +kernel))
  obtain ⟨t, hs, rfl, hti⟩ := hk.turn hi
  have hfork := wp_ok (@kfork_copies (lastPages 30) t) (hs.symm ▸ hx)
  rw [if_neg (by rintro rfl; cases hf)] at hfork
  obtain ⟨np, hnp⟩ := hfork
  exact ⟨_, o, k', np, hk, hi, hx, hs ▸ hnp⟩

theorem clone_shares (t : Turn) (fn arg stack : Nat) : wp (clone fn arg stack)
    (fun o k' => if o = none then Skipped t.start k' else ∃ np, Cloned t.start k' np) Allowed t.start := by
  obtain ⟨L, h, hk⟩ := t.inv
  exact wp_clone h hk (fun k' _ hS => by simpa using hS) fun k' _ np _ _ _ _ hC => by simpa using ⟨np, hC⟩

omit [Image] in
theorem clone_shares_heap : ∃ k o k' np, SmallReached k ∧ k.ready 0 ∧
    @clone (lastPages 30) 0 0 0 (k.switch 0) = .ok (o, k') ∧ Cloned (k.switch 0) k' np := by
  obtain ⟨k, o, k', hk, hi, hx, hf⟩ := SmallReached.runs (reaches_last Config.small_ok [(0, .sbrk 1 true)]
    (accepts 0 (@clone (lastPages 30) 0 0 0) fun o _ => o.isSome) (by decide +kernel))
  obtain ⟨t, hs, rfl, hti⟩ := hk.turn hi
  have hclone := wp_ok (@clone_shares (lastPages 30) t 0 0 0) (hs.symm ▸ hx)
  rw [if_neg (by rintro rfl; cases hf)] at hclone
  obtain ⟨np, hnp⟩ := hclone
  exact ⟨_, o, k', np, hk, hi, hx, hs ▸ hnp⟩

theorem kexit_leaves (t : Turn) (status : Int) : wp (kexit status) (fun _ k' => Exited t.start k' t.i) Allowed t.start := by
  obtain ⟨L, h, hk⟩ := t.inv
  exact wp_kexit h hk fun k' _ hE => hE

omit [Image] in
theorem kexit_leaves_child : ∃ k k', SmallReached k ∧ k.ready 1 ∧
    @kexit (lastPages 30) 7 (k.switch 1) = .ok ((), k') ∧ Exited (k.switch 1) k' 1 := by
  obtain ⟨k, _, k', hk, hi, hx, -⟩ := SmallReached.runs
    (reaches_last Config.small_ok [(0, .fork)] (accepts 1 (@kexit (lastPages 30) 7) fun _ _ => true) (by decide +kernel))
  obtain ⟨t, hs, rfl, hti⟩ := hk.turn hi
  have hexit := wp_ok (@kexit_leaves (lastPages 30) t 7) (hs.symm ▸ hx)
  rw [hs, hti] at hexit
  exact ⟨_, k', hk, hi, hx, hexit⟩

theorem kwait_reaps (t : Turn) (addr : Nat) : wp (kwait addr) (fun o k' => ∀ pid, o = some pid →
    ∃ pp, (t.k.procs pp).pid = pid ∧ Waited t.start k' pp addr) Allowed t.start := by
  obtain ⟨L, h, hk⟩ := t.inv
  exact wp_kwait h hk allowed_sys (fun _ => by simp [Allowed]) (fun _ hx => by cases hx)
    (fun _ _ _ _ _ _ _ _ hx => by cases hx) fun k' pp _ hW pid hx => ⟨pp, Option.some.inj hx, hW⟩

omit [Image] in
theorem kwait_reaps_child : ∃ k k' pp, SmallReached k ∧ k.ready 0 ∧
    @kwait (lastPages 30) 0 (k.switch 0) = .ok (some 2, k') ∧ (k.procs pp).pid = 2 ∧ Waited (k.switch 0) k' pp 0 := by
  obtain ⟨k, o, k', hk, hi, hx, hf⟩ := SmallReached.runs (reaches_last Config.small_ok [(0, .fork), (1, .exit 7)]
    (accepts 0 (@kwait (lastPages 30) 0) fun o _ => decide (o = some 2)) (by decide +kernel))
  obtain rfl := of_decide_eq_true hf
  obtain ⟨t, hs, rfl, hti⟩ := hk.turn hi
  obtain ⟨pp, hpid, hwait⟩ := wp_ok (@kwait_reaps (lastPages 30) t 0) (hs.symm ▸ hx) 2 rfl
  exact ⟨_, k', pp, hk, hi, hx, hpid, hs ▸ hwait⟩

end Xv6
