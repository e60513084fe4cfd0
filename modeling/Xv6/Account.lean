import Xv6.OpSound

/-!
# Which pages are in use

Without threads every page is accounted for: its count is the number of its
uses, and it is free exactly when it has none. Every `clone` that succeeds
takes pages that are never given back.
-/

namespace Xv6

open Hoare

section
variable [Image]

def OfTable (m : Mem) (r a : Nat) : Prop := ∃ nd : Node, nd.Ok ∧ nodeAddr m r nd = some a

def OwnedPage (k : Kernel) (a : Nat) : Prop :=
  (∃ r ∈ tables k.procs, OfTable k.mem r a) ∨ (∃ i < NPROC, k.sys.live i ∧ (k.procs i).trapframe = some a) ∨ a ∈ k.kpages

structure Accounted (k : Kernel) : Prop where
  owned : ∀ a, IsPage a → OwnedPage k a → k.mem.refcnt (pa2idx a) = leafRefs k.mem (tables k.procs) a + 1
  other : ∀ a, IsPage a → ¬ OwnedPage k a → k.mem.refcnt (pa2idx a) = leafRefs k.mem (tables k.procs) a
  free : ∀ a, IsPage a → k.mem.freelist.count a = if k.mem.refcnt (pa2idx a) = 0 then 1 else 0
  pages : ∀ a ∈ k.mem.freelist, IsPage a

variable {W : Prop} {L : Nat → Nat} {k : Kernel}

omit [Image] in
theorem Forest.ofTable (h : Forest m R ρ) (a : Nat) :
    ρ a ≠ none ↔ ∃ r ∈ R, OfTable m r a := by
  constructor
  · intro ha
    obtain ⟨⟨r, nd⟩, hx⟩ := Option.ne_none_iff_exists'.mp ha
    obtain ⟨hr, hok, hat⟩ := h.node a r nd hx
    exact ⟨r, hr, nd, hok, hat⟩
  · rintro ⟨r, hr, nd, hok, hat⟩
    rw [h.own r hr nd a hok hat]
    simp

theorem MemInv.counts_kept (hI : MemInv m R ρ H)
    (hI' : MemInv m' R ρ' H) (hS : SameLeaf m m' R) (hG : Grow m m') (ha : IsPage a) :
    m'.refcnt (pa2idx a) = m.refcnt (pa2idx a) ∨
      (m.refcnt (pa2idx a) = 0 ∧ m'.refcnt (pa2idx a) = 1 ∧ ∃ r ∈ R, OfTable m' r a) := by
  have hc := hI.count a ha
  have hc' := hI'.count a ha
  rw [leafRefs_congr (fun r hr n hn => hS r hr n (NUPAGE_lt hn))] at hc'
  by_cases hρ' : ρ' a = none
  · -- a page of a table stays one, for no page has become free
    have hρ : ρ a = none := by
      by_contra hρ
      have h1 := hI.excl a hρ
      rw [if_neg hρ] at hc
      rw [if_pos hρ'] at hc'
      have hfree := (hI.freeIff a).mp (hG.free ((hI'.freeIff a).mpr ⟨ha, by omega⟩))
      omega
    rw [if_pos hρ] at hc
    rw [if_pos hρ'] at hc'
    exact .inl (by omega)
  · have h1 := hI'.excl a hρ'
    by_cases hρ : ρ a = none
    · rw [if_pos hρ] at hc
      rw [if_neg hρ'] at hc'
      exact .inr ⟨by omega, h1, (hI'.forest.ofTable a).mp hρ'⟩
    · exact .inl (h1.trans (hI.excl a hρ).symm)

theorem Inv.ownedPage_iff (h : Inv W L k) (hI : MemInv k.mem (tables k.procs) ρ (heldBy L k)) (ha : IsPage a) :
    (if ρ a = none then 0 else 1 : Int) + heldBy L k a = 1 + L a ∧ OwnedPage k a ∨
      (if ρ a = none then 0 else 1 : Int) + heldBy L k a = L a ∧ ¬ OwnedPage k a := by
  have hown := h.own a
  have hframe : 0 < frames k.procs a ↔ ∃ i < NPROC, k.sys.live i ∧ (k.procs i).trapframe = some a := by
    constructor
    · intro hpos
      obtain ⟨i, hi, hx⟩ := Tally.exists_of_count hpos
      refine ⟨i, hi, ?_, hx⟩
      by_contra hl
      rw [(h.slots.unused i hi hl).trapframe] at hx
      cases hx
    · rintro ⟨i, hi, -, hx⟩
      exact Tally.count_pos hi hx
  have hkern : 0 < k.kpages.count a ↔ a ∈ k.kpages := List.count_pos_iff
  have htab := hI.forest.ofTable a
  by_cases hρ : ρ a = none
  · rw [if_pos hρ]
    by_cases h0 : frames k.procs a + k.kpages.count a = 0
    · refine .inr ⟨by simp only [heldBy]; omega, ?_⟩
      rintro (hx | hx | hx)
      · exact htab.mpr hx hρ
      · have := hframe.mpr hx; omega
      · have := hkern.mpr hx; omega
    · refine .inl ⟨by simp only [heldBy]; omega, ?_⟩
      by_cases hf : 0 < frames k.procs a
      · exact .inr (.inl (hframe.mp hf))
      · exact .inr (.inr (hkern.mp (by omega)))
  · -- a page of a table is counted once, so it is nothing else
    have hc := hI.count a ha
    rw [hI.excl a hρ, if_neg hρ] at hc
    rw [if_neg hρ]
    refine .inl ⟨?_, .inl (htab.mp hρ)⟩
    simp only [heldBy] at hc ⊢; omega

theorem Inv.accounted (h : Inv W (fun _ => 0) k) : Accounted k := by
  obtain ⟨ρ, hI⟩ := h.mem
  refine ⟨fun a ha ho => ?_, fun a ha ho => ?_, fun a ha => ?_, fun a ha => ((hI.freeIff a).mp ha).1⟩
  · have hc := hI.count a ha
    rcases h.ownedPage_iff hI ha with ⟨he, -⟩ | ⟨-, hno⟩
    · omega
    · exact absurd ho hno
  · have hc := hI.count a ha
    rcases h.ownedPage_iff hI ha with ⟨-, hyes⟩ | ⟨he, -⟩
    · exact absurd hyes ho
    · omega
  · by_cases h0 : k.mem.refcnt (pa2idx a) = 0
    · rw [if_pos h0]
      exact List.count_eq_one_of_mem hI.freeNodup ((hI.freeIff a).mpr ⟨ha, h0⟩)
    · rw [if_neg h0, List.count_eq_zero]
      exact fun hx => h0 ((hI.freeIff a).mp hx).2

theorem Inv.leaked (h : Inv W L k) (ha : IsPage a) (hL : 0 < L a) : 0 < k.mem.refcnt (pa2idx a) ∧ ¬ Accounted k := by
  obtain ⟨ρ, hI⟩ := h.mem
  have hc := hI.count a ha
  refine ⟨?_, fun hA => ?_⟩
  · simp only [heldBy] at hc; omega
  · rcases h.ownedPage_iff hI ha with ⟨he, ho⟩ | ⟨he, ho⟩
    · have := hA.owned a ha ho; omega
    · have := hA.other a ha ho; omega

/-- Whatever processes without threads do after the kernel has booted, and wherever allocation fails on the way, the counts
are exact, and no call frees or shares a page that is not in use. -/
theorem pages_accounted {c : Config} {k₀ : Kernel} {tr : List ((Nat × Op) × Kernel)} (hb : Booted c k₀)
    (ht : Reaches (fun e _ => e.2.Single) k₀ tr k) :
    Accounted k ∧ ∀ i op e, op.Single → act i op k = .error e → Allowed e := by
  have h := inv_of_single (fun _ _ hs => hs) hb.inv ht
  exact ⟨h.accounted, fun i op e _ he => wp_error (wp_act_inv h) he⟩

end

theorem pages_accounted_fork : ∃ k₀ tr k, @Booted (lastPages 30) Config.small k₀ ∧
    @Reaches (lastPages 30) (fun e _ => e.2.Single) k₀ tr k ∧ k.mem.freelist.length = 21 ∧ @Accounted (lastPages 30) k := by
  obtain ⟨k₀, tr, k, hb, ht, hf⟩ := @reaches_of_runs (lastPages 30) Config.small (fun e _ => e.2.Single)
    (fun e _ => Op.decidableSingle e.2) [(0, .sbrk 4096 true), (0, .fork), (1, .exit 0), (0, .wait 0)]
    (fun _ k => decide (k.mem.freelist.length = 21)) Config.small_ok (by decide +kernel)
  exact ⟨k₀, tr, k, hb, ht, of_decide_eq_true hf, (@pages_accounted (lastPages 30) k Config.small k₀ tr hb ht).1⟩

section
variable [Image] {L : Nat → Nat} {k : Kernel}

def SameUse (k k' : Kernel) : Prop :=
  k'.mem.freelist.length = k.mem.freelist.length ∧ ∀ a, IsPage a → k'.mem.refcnt (pa2idx a) = k.mem.refcnt (pa2idx a)

/-- After a `clone` that succeeds, whatever happens then, a page stays in use that nothing refers to. -/
theorem clone_leaks {c : Config} {k₀ k₁ k₂ : Kernel} {P P' : Nat × Op → Kernel → Prop} {tr tr' : List ((Nat × Op) × Kernel)}
    {i fn arg stack pid : Nat} (hb : Booted c k₀) (ht : Reaches P k₀ tr k) (hr : k.ready i)
    (hc : clone fn arg stack (k.switch i) = .ok (some pid, k₁)) (ht' : Reaches P' k₁ tr' k₂) :
    ¬ SameUse k k₂ ∧ ¬ Accounted k₂ := by
  obtain ⟨L, -, h⟩ := inv_of_reaches hb.inv ht
  have hclone : wp (clone fn arg stack)
      (fun o k' => o = some pid → ∃ L', Inv c.Whole L' k' ∧ ∃ a ∈ k.mem.freelist, 0 < L' a) Allowed
      (k.switch i) := wp_clone (h.switch i) (h.runs_switch hr) (fun _ _ _ hx => by cases hx)
    fun k' L' np _ hI _ hx _ _ => ⟨L', hI, hx⟩
  obtain ⟨L₁, h₁, a, ha, hL⟩ := wp_ok hclone hc rfl
  obtain ⟨L₂, hle, h₂⟩ := inv_of_reaches h₁ ht'
  obtain ⟨ρ, hI⟩ := h.mem
  obtain ⟨hpage, h0⟩ := (hI.freeIff a).mp ha
  obtain ⟨hpos, hno⟩ := h₂.leaked hpage (Nat.lt_of_lt_of_le hL (hle a))
  exact ⟨fun hs => by rw [hs.2 a hpage] at hpos; omega, hno⟩

theorem clone_runs {c : Config} {l : List (Nat × Op)} {f : Kernel → Kernel → Bool} (hc : c.Ok)
    (h : (match boot c c.start with
      | .ok (_, k0) => match clone 0 0 0 (k0.switch 0) with
        | .ok (some _, k1) => decide (k0.ready 0) && (runs (fun e => act e.1 e.2) (fun _ _ => True) l k1).any (f k0)
        | _ => false
      | .error _ => false) = true) : ∃ k0 k1 pid tr k2, Booted c k0 ∧ k0.ready 0 ∧
        clone 0 0 0 (k0.switch 0) = .ok (some pid, k1) ∧ Reaches (fun _ _ => True) k1 tr k2 ∧ f k0 k2 = true := by
  split at h
  · rename_i k0 hb
    split at h
    · rename_i pid k1 hcl
      obtain ⟨hr, hrun⟩ := Bool.and_eq_true_iff.mp h
      obtain ⟨k2, hk, hf⟩ := (Option.any_eq_true ..).mp hrun
      obtain ⟨tr, ht⟩ := Trace.of_runs hk
      exact ⟨k0, k1, pid, tr, k2, ⟨hc, hb⟩, of_decide_eq_true hr, hcl, ht, hf⟩
    · cases h
  · cases h

end

/-- The thread exits and is joined, and three pages are gone. -/
theorem thread_leaks_pages : ∃ k₀ k₁ pid tr k₂, @Booted (lastPages 30) Config.small k₀ ∧
    @clone (lastPages 30) 0 0 0 (k₀.switch 0) = .ok (some pid, k₁) ∧ @Reaches (lastPages 30) (fun _ _ => True) k₁ tr k₂ ∧
    (k₂.sys.run 1).state = .UNUSED ∧ ¬ @SameUse (lastPages 30) k₀ k₂ := by
  obtain ⟨k₀, k₁, pid, tr, k₂, hb, -, hcl, ht, hf⟩ := @clone_runs (lastPages 30) Config.small [(1, .exit 0), (0, .join)]
    (fun k₀ k₂ => decide ((k₂.sys.run 1).state = .UNUSED ∧ k₂.mem.freelist.length + 3 = k₀.mem.freelist.length))
    Config.small_ok (by decide +kernel)
  have hf := of_decide_eq_true hf
  exact ⟨k₀, k₁, pid, tr, k₂, hb, hcl, ht, hf.1, fun hs => by have := hs.1; omega⟩

theorem clone_leaks_at_once : ∃ k₀ k₁ k₂ pid, @Booted (lastPages 30) Config.small k₀ ∧
    @clone (lastPages 30) 0 0 0 (k₀.switch 0) = .ok (some pid, k₁) ∧ ¬ @SameUse (lastPages 30) k₀ k₂ ∧
    ¬ @Accounted (lastPages 30) k₂ := by
  obtain ⟨k₀, k₁, pid, tr, k₂, hb, hr, hcl, ht, -⟩ := @clone_runs (lastPages 30) Config.small [(1, .exit 0), (0, .join)]
    (fun _ _ => true) Config.small_ok (by decide +kernel)
  exact ⟨k₀, k₁, k₂, pid, hb, hcl, @clone_leaks (lastPages 30) k₀ Config.small k₀ k₁ k₂ (fun _ _ => True) (fun _ _ => True)
    [] tr 0 0 0 0 pid hb Trace.start hr hcl ht⟩

end Xv6
