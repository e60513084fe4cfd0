import Xv6.Steps
import Xv6.Proc
import Xv6.VmSound

/-!
# Threads that grow their heap at the same time

`sys_sbrk(n)` with `n > 0`, cut at every read and write of what the threads
of a group share: the sizes that their slots hold and the page table. No
lock is held from one of these to the next.
-/

namespace Xv6

open Hoare Function List

inductive BrkCall
  | enter (n : Nat) (eager : Bool)
  | grow (n addr : Nat)
  | alloc (n addr sz : Nat)
  /-- `myproc()->sz += n` is next, and then `myproc()->sz` is read again. -/
  | bump (n addr : Nat)
  | load (n addr : Nat)
  | store (n addr sz p : Nat)

structure BrkSys where
  mem : Mem
  group : Nat
  table : Nat
  tgid : Nat → Nat
  sz : Nat → Nat
  call : Nat → Option BrkCall
  /-- Start and length of what the calls that succeeded handed out. -/
  done : List (Nat × Nat)

def BrkSys.goto (s : BrkSys) (i : Nat) (c : Option BrkCall) : BrkSys := { s with call := update s.call i c }

def onBrk {α : Type} (x : M α) : Prog BrkSys MemStop α := zoom BrkSys.mem (fun s m => { s with mem := m }) id x

def BrkSys.put (s : BrkSys) (p tgid sz : Nat) : BrkSys :=
  if s.tgid p = tgid then { s with sz := update s.sz p sz } else s

section
variable [Image]

def BrkCall.run (i : Nat) : BrkCall → Prog BrkSys MemStop Unit
  | .enter n eager => do
    let s ← get
    let addr := s.sz i
    if eager then set (s.goto i (some (.grow n addr)))
    else if addInt addr n < addr then set (s.goto i none)
    else if TRAPFRAME NPROC < addInt addr n then set (s.goto i none)
    else set (s.goto i (some (.bump n addr)))
  | .grow n addr => do
    let s ← get
    let sz := s.sz i
    if TRAPFRAME NPROC < addInt sz n then set (s.goto i none) else set (s.goto i (some (.alloc n addr sz)))
  | .alloc n addr sz => do
    let s ← get
    let sz' ← onBrk (uvmalloc s.table sz (addInt sz n) PTE_W)
    if sz' = 0 then modify (·.goto i none) else modify (·.goto i (some (.store n addr sz' 0)))
  | .bump n addr =>
    modify fun s => { s with sz := update s.sz i (addInt (s.sz i) n) }.goto i (some (.load n addr))
  | .load n addr => modify fun s => s.goto i (some (.store n addr (s.sz i) 0))
  | .store n addr sz p => do
    if p < NPROC then modify fun s => (s.put p (s.tgid i) sz).goto i (some (.store n addr sz (p + 1)))
    else modify fun s => { s.goto i none with done := (addr, n) :: s.done }

inductive BrkEvent
  | call (i n : Nat) (eager : Bool)
  | step (i : Nat)

def BrkEvent.run : BrkEvent → Prog BrkSys MemStop Unit
  | .call i n eager => do
    let s ← get
    -- a thread of the group that is in no call asks for more memory, by a positive `int`
    if i < NPROC ∧ s.tgid i = s.group ∧ (s.call i).isNone ∧ 0 < n ∧ n < 2 ^ 31 then
      set (s.goto i (some (.enter n eager)))
    else return ()
  | .step i => do
    match (← get).call i with
    | none => return ()
    | some c => c.run i

end

/-- Table `r` is in order and maps no page from `t` to `top`. -/
structure Room [Image] (m : Mem) (r top t : Nat) : Prop where
  mem : ∃ R ρ H, MemInv m R ρ H ∧ (∀ a, 0 ≤ H a) ∧ r ∈ R
  free : ∀ n < NUPAGE, PGROUNDUP t / 4096 ≤ n → n * 4096 < top → (leaf m r n).has PTE_V = false

def Flat (s : BrkSys) (t : Nat) : Prop := ∀ j < NPROC, s.tgid j = s.group → s.sz j = t

structure BrkStart [Image] (s : BrkSys) (sz₀ top : Nat) : Prop where
  idle : ∀ i, s.call i = none
  done : s.done = []
  flat : Flat s sz₀
  room : Room s.mem s.table top sz₀
  bound : sz₀ ≤ TRAPFRAME NPROC

/-- A call begins when no other call is in progress, and one that allocates stays below `top` or asks for more than a
process can have. -/
def Serial (top : Nat) : BrkEvent → BrkSys → Prop
  | .call i n eager, s =>
    (∀ j < NPROC, (s.call j).isNone) ∧ (eager → s.sz i + n ≤ top ∨ TRAPFRAME NPROC < s.sz i + n)
  | .step _, _ => True

instance (top : Nat) : ∀ (e : BrkEvent) (s : BrkSys), Decidable (Serial top e s)
  | .call _ _ _, _ => inferInstanceAs (Decidable (_ ∧ _))
  | .step _, _ => inferInstanceAs (Decidable True)

def Apart (a b : Nat × Nat) : Prop := a.1 + a.2 ≤ b.1 ∨ b.1 + b.2 ≤ a.1

section
variable [Image]

def BrkSys.brk (s : BrkSys) (sz₀ : Nat) : Nat := sz₀ + (s.done.map Prod.snd).sum

/-- What holds of the one call in progress, of thread `i`, when the heap ended at `t` before it. -/
def Mid (s : BrkSys) (top i t : Nat) : BrkCall → Prop
  | .enter n eager => Flat s t ∧ Room s.mem s.table top t ∧ 0 < n ∧ n < 2 ^ 31 ∧
      (eager → t + n ≤ top ∨ TRAPFRAME NPROC < t + n)
  | .grow n addr => addr = t ∧ Flat s t ∧ Room s.mem s.table top t ∧ 0 < n ∧ n < 2 ^ 31 ∧
      (t + n ≤ top ∨ TRAPFRAME NPROC < t + n)
  | .alloc n addr sz => addr = t ∧ sz = t ∧ Flat s t ∧ Room s.mem s.table top t ∧ 0 < n ∧ t + n ≤ top ∧
      t + n ≤ TRAPFRAME NPROC
  | .bump n addr => addr = t ∧ Flat s t ∧ Room s.mem s.table top t ∧ t + n ≤ TRAPFRAME NPROC
  | .load n addr => addr = t ∧ s.sz i = t + n ∧ Room s.mem s.table top t ∧ t + n ≤ TRAPFRAME NPROC
  | .store n addr sz p => addr = t ∧ sz = t + n ∧ Room s.mem s.table top (t + n) ∧ t + n ≤ TRAPFRAME NPROC ∧
      ∀ j < p, j < NPROC → s.tgid j = s.group → s.sz j = t + n

structure Handout (s : BrkSys) (sz₀ : Nat) : Prop where
  bound : s.brk sz₀ ≤ TRAPFRAME NPROC
  apart : s.done.Pairwise Apart
  below : ∀ a ∈ s.done, a.1 + a.2 ≤ s.brk sz₀

structure BrkInv (s : BrkSys) (sz₀ top : Nat) : Prop extends Handout s sz₀ where
  calls : ((∀ j, s.call j = none) ∧ Flat s (s.brk sz₀) ∧ Room s.mem s.table top (s.brk sz₀)) ∨
    ∃ i c, i < NPROC ∧ s.tgid i = s.group ∧ s.call i = some c ∧ (∀ j, j ≠ i → s.call j = none) ∧
      Mid s top i (s.brk sz₀) c

variable {s : BrkSys} {sz₀ top i t : Nat}

omit [Image] in
theorem addInt_nat {a n : Nat} (h : a + n < 2 ^ 64) : addInt a n = a + n := by
  unfold addInt; omega

omit [Image] in
theorem goto_call (h : ∀ j, j ≠ i → s.call j = none) (c : Option BrkCall) :
    (s.goto i c).call i = c ∧ ∀ j, j ≠ i → (s.goto i c).call j = none :=
  ⟨update_self .., fun j hj => (update_of_ne hj ..).trans (h j hj)⟩

theorem Room.mono {m : Mem} {r t' : Nat} (h : Room m r top t) (ht : t ≤ t') (hb : t' ≤ TRAPFRAME NPROC) :
    Room m r top t' := by
  have hle : PGROUNDUP t / 4096 ≤ PGROUNDUP t' / 4096 := by
    simp only [PGROUNDUP] at *
    lia
  exact ⟨h.mem, fun n hn hlo => h.free n hn (le_trans hle hlo)⟩

theorem BrkInv.mid {c : BrkCall} (h : Handout s sz₀) (hi : i < NPROC) (hg : s.tgid i = s.group)
    (ho : ∀ j, j ≠ i → s.call j = none) (hm : Mid s top i (s.brk sz₀) c) : BrkInv (s.goto i (some c)) sz₀ top := by
  obtain ⟨h1, h2⟩ := goto_call ho (some c)
  refine ⟨⟨h.bound, h.apart, h.below⟩, .inr ⟨i, c, hi, hg, h1, h2, ?_⟩⟩
  cases c <;> exact hm

theorem BrkInv.back (h : Handout s sz₀) (ho : ∀ j, j ≠ i → s.call j = none) (hf : Flat s (s.brk sz₀))
    (hr : Room s.mem s.table top (s.brk sz₀)) : BrkInv (s.goto i none) sz₀ top := by
  obtain ⟨h1, h2⟩ := goto_call ho none
  refine ⟨⟨h.bound, h.apart, h.below⟩, .inl ⟨fun j => ?_, hf, hr⟩⟩
  by_cases hj : j = i
  · rw [hj]; exact h1
  · exact h2 j hj

theorem BrkInv.finish {n : Nat} (h : Handout s sz₀) (ho : ∀ j, j ≠ i → s.call j = none)
    (hf : Flat s (s.brk sz₀ + n)) (hr : Room s.mem s.table top (s.brk sz₀ + n)) (hb : s.brk sz₀ + n ≤ TRAPFRAME NPROC) :
    BrkInv { s.goto i none with done := (s.brk sz₀, n) :: s.done } sz₀ top := by
  obtain ⟨h1, h2⟩ := goto_call ho none
  have hbrk : BrkSys.brk { s.goto i none with done := (s.brk sz₀, n) :: s.done } sz₀ = s.brk sz₀ + n := by
    simp only [BrkSys.brk, map_cons, sum_cons]
    omega
  refine ⟨⟨by rw [hbrk]; exact hb, pairwise_cons.mpr ⟨fun a ha => .inr (h.below a ha), h.apart⟩, fun a ha => ?_⟩,
    .inl ⟨fun j => ?_, by rw [hbrk]; exact hf, by rw [hbrk]; exact hr⟩⟩
  · rw [hbrk]
    rcases mem_cons.mp ha with rfl | ha
    · exact le_rfl
    · exact le_trans (h.below a ha) (Nat.le_add_right _ _)
  · by_cases hj : j = i
    · rw [hj]; exact h1
    · exact h2 j hj

omit [Image] in
@[simp] theorem wp_onBrk {α : Type} {x : M α} {Q : α → BrkSys → Prop} {E : MemStop → Prop} :
    wp (onBrk x) Q E s ↔ wp x (fun a m => Q a { s with mem := m }) E s.mem := wp_zoom ..

theorem Room.wp_uvmalloc {m : Mem} {r n : Nat} {Q : Nat → Mem → Prop} {E : MemStop → Prop} (h : Room m r top t)
    (ht : t + n ≤ top) (hb : t + n ≤ TRAPFRAME NPROC) (hs : ∀ m', Room m' r top (t + n) → Q (t + n) m')
    (hn : ∀ m', Room m' r top t → Q 0 m') : wp (uvmalloc r t (t + n) PTE_W) Q E m := by
  obtain ⟨R, ρ, H, hI, hH, hr⟩ := h.mem
  have hlo := PGROUNDUP_mod t
  have hlt : PGROUNDUP t < t + PGSIZE := PGROUNDUP_lt (by omega)
  have hup := PGROUNDUP_mod (t + n)
  have hge' := PGROUNDUP_ge hb
  have hlt' := PGROUNDUP_lt hb
  have hle' := PGROUNDUP_le hb
  have hend : PGROUNDUP t / 4096 + rounds (PGROUNDUP t) (t + n) = PGROUNDUP (t + n) / 4096 := by
    unfold rounds
    lia
  refine Xv6.wp_uvmalloc hI hH hr (by decide) (fun hv => ?_) ?_ (fun hx => absurd hx (by omega)) (fun m' ρ' _ hI' hg => ?_)
    fun m' ρ' _ hI' hv _ => ?_
  · obtain ⟨p, h1, h2, h3⟩ := hv
    have hp : p < NUPAGE ∧ p * 4096 < top := by
      lia
    rw [h.free p hp.1 h1 hp.2] at h3
    exact absurd h3 (by decide)
  · have : PGROUNDUP (t + n) / 4096 ≤ NUPAGE := Nat.div_le_div_right hle'
    omega
  · refine hs m' ⟨⟨R, ρ', H, hI', hH, hr⟩, fun p hp hlo' htop => ?_⟩
    rw [hg.old r hr p (NUPAGE_lt hp) fun hx => by omega]
    exact h.free p hp (by omega) htop
  · refine hn m' ⟨⟨R, ρ', H, hI', hH, hr⟩, fun p hp hlo' htop => ?_⟩
    rcases hv r hr p (NUPAGE_lt hp) with he | ⟨he, -⟩
    · rw [he]; exact h.free p hp hlo' htop
    · rw [he]; decide

theorem wp_brkCall {c : BrkCall} (h : Handout s sz₀) (hi : i < NPROC) (hg : s.tgid i = s.group)
    (ho : ∀ j, j ≠ i → s.call j = none) (hm : Mid s top i (s.brk sz₀) c) :
    wp (c.run i) (fun _ s' => BrkInv s' sz₀ top) (fun _ => False) s := by
  have hbound := h.bound
  have hsmall : TRAPFRAME NPROC + 2 ^ 31 < 2 ^ 64 := by decide
  cases c with
  | enter n eager =>
    obtain ⟨hf, hr, h0, hn, hfit⟩ := hm
    have hadd : addInt (s.brk sz₀) n = s.brk sz₀ + n := addInt_nat (by omega)
    unfold BrkCall.run
    simp only [wp_bind, wp_get]
    rw [hf i hi hg, hadd]
    refine wp_ite (fun he => wp_put (BrkInv.mid h hi hg ho ⟨rfl, hf, hr, h0, hn, hfit he⟩)) fun _ =>
      wp_ite (fun _ => wp_put (BrkInv.back h ho hf hr)) fun _ =>
      wp_ite (fun _ => wp_put (BrkInv.back h ho hf hr)) fun hb =>
        wp_put (BrkInv.mid h hi hg ho ⟨rfl, hf, hr, by omega⟩)
  | grow n addr =>
    obtain ⟨haddr, hf, hr, h0, hn, hfit⟩ := hm
    have hadd : addInt (s.brk sz₀) n = s.brk sz₀ + n := addInt_nat (by omega)
    unfold BrkCall.run
    simp only [wp_bind, wp_get]
    rw [hf i hi hg, hadd]
    exact wp_ite (fun _ => wp_put (BrkInv.back h ho hf hr)) fun hb =>
      wp_put (BrkInv.mid h hi hg ho ⟨haddr, rfl, hf, hr, h0, by omega, by omega⟩)
  | alloc n addr sz =>
    obtain ⟨haddr, rfl, hf, hr, h0, htop, hb⟩ := hm
    unfold BrkCall.run
    simp only [wp_bind, wp_get, wp_onBrk]
    rw [addInt_nat (by omega)]
    refine hr.wp_uvmalloc htop hb (fun m' hr' => ?_) fun m' hr' => ?_
    · rw [if_neg (by omega), wp_modify]
      exact BrkInv.mid (s := { s with mem := m' }) ⟨h.bound, h.apart, h.below⟩ hi hg ho
        ⟨haddr, rfl, hr', hb, fun j hj => absurd hj (by omega)⟩
    · rw [if_pos rfl, wp_modify]
      exact BrkInv.back (s := { s with mem := m' }) ⟨h.bound, h.apart, h.below⟩ ho hf hr'
  | bump n addr =>
    obtain ⟨haddr, hf, hr, hb⟩ := hm
    unfold BrkCall.run
    rw [wp_modify, hf i hi hg, addInt_nat (by omega)]
    exact BrkInv.mid (s := { s with sz := update s.sz i (s.brk sz₀ + n) }) ⟨h.bound, h.apart, h.below⟩ hi hg ho
      ⟨haddr, update_self .., hr, hb⟩
  | load n addr =>
    obtain ⟨haddr, hsz, hr, hb⟩ := hm
    unfold BrkCall.run
    rw [wp_modify, hsz]
    exact BrkInv.mid h hi hg ho ⟨haddr, rfl, hr.mono (by omega) hb, hb, fun j hj => absurd hj (by omega)⟩
  | store n addr sz p =>
    obtain ⟨rfl, rfl, hr, hb, hst⟩ := hm
    refine wp_ite (fun hp => (wp_modify _).mpr ?_) fun hp => (wp_modify _).mpr ?_
    · have hput : s.put p (s.tgid i) (s.brk sz₀ + n) = { s with
          sz := if s.tgid p = s.tgid i then update s.sz p (s.brk sz₀ + n) else s.sz } := by
        unfold BrkSys.put; split <;> rfl
      rw [hput]
      refine BrkInv.mid (s := { s with
        sz := if s.tgid p = s.tgid i then update s.sz p (s.brk sz₀ + n) else s.sz })
        ⟨h.bound, h.apart, h.below⟩ hi hg ho ⟨rfl, rfl, hr, hb, fun j hj hjn hjg => ?_⟩
      have hjg' : s.tgid j = s.group := hjg
      change (if s.tgid p = s.tgid i then update s.sz p (s.brk sz₀ + n) else s.sz) j = s.brk sz₀ + n
      by_cases hjp : j = p
      · rw [← hjp, if_pos (hjg'.trans hg.symm), update_self]
      · have hold := hst j (by omega) hjn hjg'
        split
        · rw [update_of_ne hjp, hold]
        · exact hold
    · exact BrkInv.finish h ho (fun j hj hjg => hst j (by omega) hj hjg) hr hb

theorem wp_brkEvent {e : BrkEvent} (h : BrkInv s sz₀ top) (he : Serial top e s) :
    wp e.run (fun _ s' => BrkInv s' sz₀ top) (fun _ => False) s := by
  cases e with
  | call i n eager =>
    unfold BrkEvent.run
    rw [wp_read]
    refine wp_ite (fun hc => wp_put ?_) fun _ => wp_ret h
    obtain ⟨hi, hg, -, h0, hn⟩ := hc
    rcases h.calls with ⟨hidle, hf, hr⟩ | ⟨j, c, hj, -, hc, -⟩
    · exact BrkInv.mid h.toHandout hi hg (fun j _ => hidle j) ⟨hf, hr, h0, hn, hf i hi hg ▸ he.2⟩
    · have hnone := he.1 j hj
      rw [hc] at hnone
      cases hnone
  | step i =>
    unfold BrkEvent.run
    rw [wp_read]
    rcases h.calls with ⟨hidle, hf, hr⟩ | ⟨j, c, hj, hg, hc, ho, hm⟩
    · rw [hidle i]; exact wp_ret h
    · by_cases hij : i = j
      · subst hij
        rw [hc]
        exact wp_brkCall h.toHandout hj hg ho hm
      · rw [ho i hij]; exact wp_ret h

theorem BrkStart.inv (h : BrkStart s sz₀ top) : BrkInv s sz₀ top := by
  have hbrk : s.brk sz₀ = sz₀ := by simp [BrkSys.brk, h.done]
  refine ⟨⟨by rw [hbrk]; exact h.bound, by simp [h.done], by simp [h.done]⟩, .inl ⟨h.idle, ?_, ?_⟩⟩
  · rw [hbrk]; exact h.flat
  · rw [hbrk]; exact h.room

/-- Calls of `sbrk` that do not overlap hand out disjoint memory, never stop the kernel, and leave every thread with
the size that they add up to. -/
theorem sbrk_disjoint {s₀ : BrkSys} {tr : List (BrkEvent × BrkSys)} (h₀ : BrkStart s₀ sz₀ top)
    (h : Trace BrkEvent.run (Serial top) s₀ tr s) :
    s.done.Pairwise Apart ∧ (∀ e, Serial top e s → ∃ s', e.run s = .ok ((), s')) ∧
      ((∀ i < NPROC, s.call i = none) → Flat s (sz₀ + (s.done.map Prod.snd).sum)) := by
  have hI : BrkInv s sz₀ top := Trace.inv (fun s => BrkInv s sz₀ top) h₀.inv
    (fun e s hs he => wp_mono (wp_brkEvent hs he) (fun _ _ hx => hx) fun _ hx => hx.elim) h
  refine ⟨hI.apart, fun e he => ?_, fun hidle => ?_⟩
  · cases hx : e.run s with
    | error stop => exact (wp_error (wp_brkEvent hI he) hx).elim
    | ok r => exact ⟨r.2, rfl⟩
  · rcases hI.calls with ⟨-, hf, -⟩ | ⟨j, c, hj, -, hc, -⟩
    · exact hf
    · rw [hidle j hj] at hc
      cases hc

end

def twoThreads : BrkSys where
  mem := Mem.fill ⟨fun _ => 1, [], fun _ _ => 0#64, fun _ _ => 0, fun _ => false, 0, 0⟩ (PHYSTOP - PGSIZE) 0
  group := 1
  table := PHYSTOP - PGSIZE
  tgid := fun i => if i < 2 then 1 else 0
  sz := fun _ => 0
  call := fun _ => none
  done := []

theorem twoThreads_start : @BrkStart (lastPages 1) twoThreads 0 (TRAPFRAME NPROC) := by
  let _ := lastPages 1
  obtain ⟨hI, -, h0⟩ := (MemInv.full (m := ⟨fun _ => 1, [], fun _ _ => 0#64, fun _ _ => 0, fun _ => false, 0, 0⟩) rfl
    rfl).addRoot (f := PHYSTOP - PGSIZE) rfl (by decide) rfl
  refine ⟨fun _ => rfl, rfl, fun _ _ _ => rfl, ⟨⟨_, _, _, hI, fun a => ?_, Finset.mem_insert_self ..⟩, fun n _ _ _ => ?_⟩,
    by decide⟩
  · unfold bump
    split <;> simp
  · have hn : leaf twoThreads.mem twoThreads.table n = 0#64 := h0 n
    rw [hn]
    decide

theorem sbrk_disjoint_two : ∃ s : BrkSys, s.done = [(1, 1), (0, 1)] ∧ s.done.Pairwise Apart := by
  let _ := lastPages 1
  have hrun : (runs BrkEvent.run (Serial (TRAPFRAME NPROC)) ([.call 0 1 false] ++ replicate 68 (.step 0) ++
      [.call 1 1 false] ++ replicate 68 (.step 1)) twoThreads).map BrkSys.done = some [(1, 1), (0, 1)] := by
    decide +kernel
  obtain ⟨tr, s, htr, hd⟩ := Trace.of_map hrun
  exact ⟨s, hd, (sbrk_disjoint twoThreads_start htr).1⟩

/-- Each of the two asks for a byte before the other is done: both get the same one, and the heap grows by one only. -/
theorem sbrk_overlap : ∃ (tr : List (BrkEvent × BrkSys)) (s : BrkSys),
    @BrkStart (lastPages 1) twoThreads 0 (TRAPFRAME NPROC) ∧
    Trace (@BrkEvent.run (lastPages 1)) (fun _ _ => True) twoThreads tr s ∧ (∀ i < NPROC, s.call i = none) ∧
    ¬ s.done.Pairwise Apart ∧ ¬ Flat s (0 + (s.done.map Prod.snd).sum) := by
  let _ := lastPages 1
  have hrun : (runs BrkEvent.run (fun _ _ => True) ([.call 0 1 false, .step 0, .step 0, .step 0, .call 1 1 false] ++
      replicate 68 (.step 1) ++ replicate 65 (.step 0)) twoThreads).map (fun s =>
        (s.done, decide (∀ i < NPROC, (s.call i).isNone = true), s.tgid 0 = s.group && s.sz 0 == 1)) =
      some ([(0, 1), (0, 1)], true, true) := by
    decide +kernel
  obtain ⟨tr, s, htr, hl⟩ := Trace.of_map hrun
  simp only [Prod.mk.injEq, decide_eq_true_eq, Option.isNone_iff_eq_none, Bool.and_eq_true, beq_iff_eq] at hl
  obtain ⟨hd, hc, hg, h0⟩ := hl
  refine ⟨tr, s, twoThreads_start, htr, hc, ?_, fun hf => ?_⟩
  · rw [hd]
    simp [Apart]
  · have h2 := hf 0 (by decide) hg
    rw [hd, h0] at h2
    exact absurd h2 (by decide)

end Xv6
