import Xv6.Account
import Xv6.UserAddr

/-!
# What `mmap` and `munmap` give and take

`vma_find_addr` finds a hole between the mappings if there is one, `mmap` fills
it, `munmap` cuts pages out of the mappings, and a fault shows the bytes of the
file.
-/

namespace Xv6

open Hoare Function Option

variable {a i : Nat} {v : Vma}

/-! ## Holes -/

def Vma.range (v : Vma) : Set Nat := Set.Ico v.addr (v.addr + v.len)

/-- The `len` bytes at `a` lie between the heap and the trap frames, and in no mapping. -/
structure Hole (p : Proc) (a len : Nat) : Prop where
  aligned : a % PGSIZE = 0
  low : PGROUNDUP p.sz ≤ a
  high : a + len ≤ TRAPFRAME NPROC
  apart : ∀ i < MAXVMA, (p.vmas i).used = true → Disjoint (Set.Ico a (a + len)) (p.vmas i).range

theorem gaps_pos (len : Nat) : ∀ (vs : List Vma) {cur best c b : Nat}, gaps len vs cur best = (c, b) → 0 < cur →
    best ≠ 0 → b ≠ 0
  | [], cur, best, c, b, hg, _, hb => by
    cases hg
    exact hb
  | v :: vs, cur, best, c, b, hg, hcur, hb => by
    refine gaps_pos len vs hg ?_ ?_
    · split <;> omega
    · split <;> omega

theorem gaps_room {len : Nat} (h0 : 0 < len) : ∀ (vs : List Vma) {cur best c b : Nat},
    gaps len vs cur best = (c, b) → 0 < cur →
    cur ≤ a → Misses vs a len → c ≤ a ∨ b ≠ 0
  | [], cur, best, c, b, hg, _, hle, _ => by
    cases hg
    exact .inl hle
  | v :: vs, cur, best, c, b, hg, hcur, hle, hm => by
    obtain ⟨hv, hvs⟩ := List.forall_mem_cons.mp hm
    rcases hv with hv | hv
    · refine gaps_room h0 vs hg ?_ ?_ hvs <;> split <;> omega
    · refine .inr (gaps_pos len vs hg ?_ ?_)
      · split <;> omega
      · rw [if_pos ⟨by omega, by omega⟩]
        omega

section
variable {p : Proc} {len : Nat}

theorem vma_find_addr_room (hb : ∀ i < MAXVMA, (p.vmas i).used → (p.vmas i).Placed) (h0 : 0 < len)
    (hlow : 0 < PGROUNDUP p.sz) (hle : PGROUNDUP p.sz ≤ a) (hhigh : a + len ≤ TRAPFRAME NPROC)
    (hm : ∀ i < MAXVMA, (p.vmas i).used → (p.vmas i).addr + (p.vmas i).len ≤ a ∨ a + len ≤ (p.vmas i).addr) :
    vma_find_addr p len ≠ 0 := by
  unfold vma_find_addr
  dsimp only
  generalize hord : ((List.range MAXVMA).map p.vmas).filter (fun v => v.used) = ord
  obtain ⟨hp, -⟩ := sortVmas_spec ord.length ord le_rfl
  have hmiss : Misses (sortVmas ord.length ord) a len := fun v hv => by
    have hv' := hp.subset hv
    rw [← hord, List.mem_filter, List.mem_map] at hv'
    obtain ⟨⟨i, hi, rfl⟩, hu⟩ := hv'
    have hi := List.mem_range.mp hi
    rw [(hb i hi hu).stop_eq]
    exact hm i hi hu
  generalize hg : gaps len (sortVmas ord.length ord) (PGROUNDUP p.sz) 0 = cb
  obtain ⟨c, b⟩ := cb
  have hroom := gaps_room h0 _ hg hlow hle hmiss
  split
  · omega
  · exact hroom.resolve_left (by omega)

theorem vma_find_addr_hole (hsz : 0 < p.sz) (hwrap : p.sz ≤ 2 ^ 64 - PGSIZE)
    (hv : ∀ i < MAXVMA, (p.vmas i).used = true → (p.vmas i).Placed ∧ 0 < (p.vmas i).len) (hlen : len % PGSIZE = 0)
    (h0 : 0 < len) :
    (vma_find_addr p len ≠ 0 → Hole p (vma_find_addr p len) len) ∧ (vma_find_addr p len = 0 → ∀ a, ¬ Hole p a len) := by
  have hb : ∀ i < MAXVMA, (p.vmas i).used = true → (p.vmas i).Placed := fun i hi hu => (hv i hi hu).1
  constructor
  · intro hne
    obtain ⟨h1, h2, h3, h4⟩ := vma_find_addr_spec hb hlen hne
    refine ⟨h1, h2, h3, fun i hi hu => ?_⟩
    rw [Vma.range, Set.Ico_disjoint_Ico]
    have := h4 i hi hu
    omega
  · intro hz a ha
    refine vma_find_addr_room hb h0 ?_ ha.low ha.high (fun i hi hu => ?_) hz
    · unfold PGROUNDUP
      lia
    · have hd := ha.apart i hi hu
      have hpos := (hv i hi hu).2
      rw [Vma.range, Set.Ico_disjoint_Ico] at hd
      omega

end

def oneVma (sz : Nat) (v : Vma) : Proc := { Proc.unused with sz := sz, vmas := fun i => if i = 0 then v else Vma.zero }

theorem oneVma_used {sz : Nat} (h : ((oneVma sz v).vmas i).used) : (oneVma sz v).vmas i = v := by
  simp only [oneVma] at h ⊢
  split
  · rfl
  · rename_i h0
    rw [if_neg h0] at h
    cases h

theorem vma_find_addr_beside : Hole (oneVma 100 ⟨true, 8192, 8192, PROT_READ, MAP_PRIVATE, 0, none⟩)
    (vma_find_addr (oneVma 100 ⟨true, 8192, 8192, PROT_READ, MAP_PRIVATE, 0, none⟩) 4096) 4096 := by
  refine (vma_find_addr_hole (by decide) (by decide) (fun i _ hu => ?_) (by decide) (by decide)).1 (by decide +kernel)
  rw [oneVma_used hu]
  exact ⟨⟨by decide, by decide, by decide⟩, by decide⟩

/-- An empty mapping half way up splits a hole. -/
theorem vma_find_addr_split : ∃ p : Proc, 0 < p.sz ∧ p.sz ≤ 2 ^ 64 - PGSIZE ∧
    (∀ i < MAXVMA, (p.vmas i).used = true → (p.vmas i).Placed) ∧
    (∀ i < MAXVMA, ∀ j < MAXVMA, i ≠ j → (p.vmas i).used = true → (p.vmas j).used = true →
      Disjoint (p.vmas i).range (p.vmas j).range) ∧
    vma_find_addr p (2 ^ 25 * PGSIZE) = 0 ∧ Hole p PGSIZE (2 ^ 25 * PGSIZE) := by
  refine ⟨oneVma PGSIZE ⟨true, (2 ^ 25 - 33) * PGSIZE, 0, PROT_READ, MAP_PRIVATE, 0, none⟩, by decide, by decide,
    fun i _ hu => ?_, fun i _ j _ _ hu _ => ?_, by decide +kernel, by decide, by decide, by decide, fun i _ hu => ?_⟩ <;>
    rw [oneVma_used hu]
  · exact ⟨by decide, by decide, by decide⟩
  · rw [Vma.range, Nat.add_zero, Set.Ico_self]
    exact Set.empty_disjoint _
  · rw [Vma.range, Nat.add_zero, Set.Ico_self]
    exact Set.disjoint_empty _

/-! ## `mmap` -/

section
variable [Image] {W : Prop} {L : Nat → Nat} {k : Kernel}

/-- A new mapping at `a`, of the file of descriptor `fd` from `off` on, which is not shorter than `len`. -/
def Mmapped (k k' : Kernel) (len prot flags fd off a : Nat) : Prop :=
  ∃ i < MAXVMA, ∃ l f, ((k.procs k.sys.cur).vmas i).used = false ∧ (k.procs k.sys.cur).fd fd = some f ∧
    0 < l ∧ l % PGSIZE = 0 ∧ len ≤ l ∧
    k'.procs = update k.procs k.sys.cur ((k.procs k.sys.cur).setVma i ⟨true, a, l, prot, flags, off, some f⟩) ∧
    ∀ g, (k'.sys.file g).ref = (k.sys.file g).ref + if g = f then 1 else 0

def MmapDone (k k' : Kernel) (len prot flags fd off : Nat) : Option Nat → Prop
  | none => k'.procs = k.procs ∧ ∀ g, (k'.sys.file g).ref = (k.sys.file g).ref
  | some a => Mmapped k k' len prot flags fd off a

structure TakesMmap (k : Kernel) (addr len prot flags fd off : Nat) : Prop where
  leader : (k.procs k.sys.cur).pid = (k.procs k.sys.cur).tgid
  addr_eq : addr = 0
  len_ne : len ≠ 0
  off_mod : off % PGSIZE = 0
  prot_ok : test prot (PROT_READ ||| PROT_WRITE ||| PROT_EXEC) = true
  flags_ok : test flags (MAP_SHARED ||| MAP_PRIVATE) = true ∧
    ¬ (test flags MAP_SHARED = true ∧ test flags MAP_PRIVATE = true)
  file : ∃ f, (k.procs k.sys.cur).fd fd = some f ∧ (test prot PROT_READ = true → (k.sys.file f).readable = true) ∧
    (test flags MAP_SHARED = true → test prot PROT_WRITE = true → (k.sys.file f).writable = true) ∧
    (k.sys.file f).type = .FD_INODE
  slot : ∃ i < MAXVMA, ((k.procs k.sys.cur).vmas i).used = false
  room : vma_find_addr (k.procs k.sys.cur) (PGROUNDUP len) ≠ 0

omit [Image] in
theorem mmapped_iff {k' : Kernel} {len prot flags fd off f : Nat} (hlen : len ≠ 0) (hlt : len < 2 ^ 64) (hi : i < MAXVMA)
    (hu : ((k.procs k.sys.cur).vmas i).used = false) (hf : (k.procs k.sys.cur).fd fd = some f)
    (hp : k'.procs = update k.procs k.sys.cur
      ((k.procs k.sys.cur).setVma i ⟨true, a, PGROUNDUP len, prot, flags, off, some f⟩))
    (hr : ∀ g, (k'.sys.file g).ref = (k.sys.file g).ref + if g = f then 1 else 0) :
    Mmapped k k' len prot flags fd off a ↔ len ≤ 2 ^ 64 - PGSIZE := by
  constructor
  · rintro ⟨j, _, l, g, hj, -, hl, -, hle, hp', -⟩
    have hv := congrArg (fun procs => (procs k.sys.cur).vmas j) (hp'.symm.trans hp)
    simp only [update_self, Proc.setVma] at hv
    by_cases hji : j = i
    · subst hji
      rw [update_self] at hv
      obtain rfl : l = PGROUNDUP len := congrArg Vma.len hv
      unfold PGROUNDUP at hl hle
      lia
    · rw [update_of_ne hji] at hv
      rw [← hv] at hj
      cases hj
  · intro hle
    refine ⟨i, hi, PGROUNDUP len, f, hu, hf, ?_, PGROUNDUP_mod len, ?_, hp, hr⟩ <;> unfold PGROUNDUP <;>
      simp only [PGSIZE] at * <;> omega

theorem wp_mmap {addr len prot flags fd off : Nat} (h : Inv W L k) (hk : Runs k) (hlt : len < 2 ^ 64) :
    wp (sys_mmap addr len prot flags fd off) (fun res k' => MmapDone k k' len prot flags fd off res ↔
      (TakesMmap k addr len prot flags fd off → len ≤ 2 ^ 64 - PGSIZE)) (fun _ => False) k := by
  have hno : ¬ TakesMmap k addr len prot flags fd off → wp (pure none : K (Option Nat)) (fun res k' =>
      MmapDone k k' len prot flags fd off res ↔ (TakesMmap k addr len prot flags fd off → len ≤ 2 ^ 64 - PGSIZE))
      (fun _ => False) k := fun hn =>
    wp_ret ⟨fun _ ht => absurd ht hn, fun _ => ⟨rfl, fun _ => rfl⟩⟩
  unfold sys_mmap
  simp only [wp_bind, wp_myproc, wp_get]
  refine wp_ite (fun hx => hno fun ht => hx ht.leader) fun h1 => wp_ite (fun hx => hno fun ht => ?_) fun h2 =>
    wp_ite (fun hx => hno fun ht => hx ht.off_mod) fun h3 => wp_ite (fun hx => hno fun ht => hx ht.prot_ok) fun h4 =>
    wp_ite (fun hx => hno fun ht => ?_) fun h5 => ?_
  · exact hx.elim (fun hx => hx ht.addr_eq) ht.len_ne
  · exact hx.elim (fun hx => hx ht.flags_ok.1) ht.flags_ok.2
  cases hfd : (k.procs k.sys.cur).fd fd with
  | none =>
    refine hno fun ht => ?_
    obtain ⟨f, hf, -⟩ := ht.file
    rw [hfd] at hf
    cases hf
  | some f =>
    have hfile : TakesMmap k addr len prot flags fd off → _ ∧ _ ∧ _ := fun ht => by
      obtain ⟨g, hg, hrest⟩ := ht.file
      obtain rfl : f = g := some.inj (hfd.symm.trans hg)
      exact hrest
    refine wp_ite (fun hx => hno fun ht => hx.2 ((hfile ht).1 hx.1)) fun h6 =>
      wp_ite (fun hx => hno fun ht => hx.2.2 ((hfile ht).2.1 hx.1 hx.2.1)) fun h7 =>
      wp_ite (fun hx => hno fun ht => hx (hfile ht).2.2) fun h8 => ?_
    cases hidx : vma_alloc_slot (k.procs k.sys.cur) with
    | none =>
      refine hno fun ht => ?_
      obtain ⟨i, hi, hu⟩ := ht.slot
      have := List.find?_eq_none.mp hidx i (List.mem_range.mpr hi)
      simp [hu] at this
    | some i =>
      refine wp_ite (fun hx => hno fun ht => ht.room hx) fun h9 => ?_
      obtain ⟨hi, hu⟩ := vma_alloc_slot_spec hidx
      have ht : TakesMmap k addr len prot flags fd off := by
        refine ⟨not_not.mp h1, by omega, by omega, not_not.mp h3, not_not.mp h4, ⟨?_, fun hx => h5 (.inr hx)⟩,
          ⟨f, hfd, ?_, ?_, not_not.mp h8⟩, ⟨i, hi, hu⟩, h9⟩
        · exact not_not.mp fun hx => h5 (.inl hx)
        · exact fun hx => not_not.mp fun hy => h6 ⟨hx, hy⟩
        · exact fun hx hy => not_not.mp fun hz => h7 ⟨hx, hy, hz⟩
      rw [wp_bind, wp_ksys]
      refine wp_filedup (.inl (by rw [h.held]; simp)) (.inl ?_) fun s _ hF => ?_
      · have := named_by_fd hk.slot hfd
        rw [h.fs.file]
        omega
      simp only [wp_bind, wp_setProc, wp_pure]
      rw [imp_iff_right ht]
      refine mmapped_iff ht.len_ne hlt hi hu hfd rfl fun g => ?_
      rw [hF.file]
      by_cases hg : g = f
      · rw [hg, update_self, if_pos rfl]
      · rw [update_of_ne hg, if_neg hg, add_zero]

theorem mmap_covers {c : Config} {k₀ : Kernel} {P : Nat × Op → Kernel → Prop} {tr : List ((Nat × Op) × Kernel)} {i : Nat}
    (hb : Booted c k₀) (ht : Reaches P k₀ tr k) (hi : k.ready i) {addr len prot flags fd off : Nat} (hlt : len < 2 ^ 64) :
    ∃ res k', sys_mmap addr len prot flags fd off (k.switch i) = .ok (res, k') ∧
      (MmapDone (k.switch i) k' len prot flags fd off res ↔
        (TakesMmap (k.switch i) addr len prot flags fd off → len ≤ 2 ^ 64 - PGSIZE)) := by
  obtain ⟨L, -, h⟩ := inv_of_reaches hb.inv ht
  exact wp_total (wp_mmap (h.switch i) (h.runs_switch hi) hlt)

end

theorem mmap_covers_page : ∃ k₀ tr k res k', @Booted (lastPages 30) Config.small k₀ ∧
    @Reaches (lastPages 30) (fun _ _ => True) k₀ tr k ∧ k.ready 0 ∧
    sys_mmap 0 100 PROT_READ MAP_PRIVATE 0 0 (k.switch 0) = .ok (res, k') ∧
    MmapDone (k.switch 0) k' 100 PROT_READ MAP_PRIVATE 0 0 res := by
  obtain ⟨k₀, tr, k, hb, ht, hf⟩ := reaches_last Config.small_ok
    [(0, .opens 2 0)] (fun _ k => decide (k.ready 0)) (by decide +kernel)
  have hi := of_decide_eq_true hf
  obtain ⟨res, k', he, hd⟩ := @mmap_covers (lastPages 30) k Config.small k₀ (fun _ _ => True) tr 0 hb ht hi
    0 100 PROT_READ MAP_PRIVATE 0 0 (by decide)
  exact ⟨k₀, tr, k, res, k', hb, ht, hi, he, hd.mpr fun _ => by decide⟩

/-- The length of the whole address space is rounded up to 0. -/
theorem mmap_wraps : ∃ k₀ tr k a k', @Booted (lastPages 30) Config.small k₀ ∧
    @Reaches (lastPages 30) (fun _ _ => True) k₀ tr k ∧ k.ready 0 ∧
    sys_mmap 0 (2 ^ 64 - 1) PROT_READ MAP_PRIVATE 0 0 (k.switch 0) = .ok (some a, k') ∧
    ¬ Mmapped (k.switch 0) k' (2 ^ 64 - 1) PROT_READ MAP_PRIVATE 0 0 a := by
  obtain ⟨k₀, tr, k, hb, ht, hf⟩ := reaches_last Config.small_ok [(0, .opens 2 0)] (fun _ k => decide (k.ready 0) &&
      okAnd (sys_mmap 0 (2 ^ 64 - 1) PROT_READ MAP_PRIVATE 0 0 (k.switch 0)) fun o k' =>
        o.isSome && decide (∀ i < MAXVMA, ((k'.procs 0).vmas i).len = 0)) (by decide +kernel)
  obtain ⟨hi, hp⟩ := Bool.and_eq_true_iff.mp hf
  obtain ⟨o, k', he, hp⟩ := of_okAnd hp
  simp only [Bool.and_eq_true, decide_eq_true_eq, isSome_iff_exists] at hp
  obtain ⟨⟨a, rfl⟩, hp⟩ := hp
  refine ⟨k₀, tr, k, a, k', hb, ht, of_decide_eq_true hi, he, ?_⟩
  rintro ⟨i, hlt, l, f, -, -, hl, -, -, hk', -⟩
  have h0 := hp i hlt
  rw [hk', show (k.switch 0).sys.cur = 0 from rfl] at h0
  simp only [update_self, Proc.setVma] at h0
  exact absurd h0 (Nat.ne_of_gt hl)

/-! ## What `munmap` takes away -/

theorem Vma.cut_used {lo hi : Nat} (h : (v.cut lo hi).used) : v.used := by
  unfold Vma.cut at h
  dsimp only at h
  split at h
  · cases h
  · split at h
    · exact h
    · split at h <;> exact h

def Vma.less (v : Vma) (addr stop : Nat) : Vma :=
  if v.used = true ∧ ¬ (stop ≤ v.addr ∨ v.stop ≤ addr) then v.cut (max addr v.addr) (min stop v.stop) else v

theorem Vma.less_used {addr stop : Nat} (h : (v.less addr stop).used) : v.used := by
  unfold Vma.less at h
  split at h
  · exact cut_used h
  · exact h

structure Proc.Apart (p : Proc) : Prop where
  placed : ∀ i < MAXVMA, (p.vmas i).used = true → (p.vmas i).Placed ∧ 0 < (p.vmas i).len
  apart : ∀ i < MAXVMA, ∀ j < MAXVMA, i ≠ j → (p.vmas i).used = true → (p.vmas j).used = true →
    Disjoint (p.vmas i).range (p.vmas j).range

/-- The file and the offset that address `x` stands for. -/
def Proc.fileAt (p : Proc) (x : Nat) : Option (Option Nat × Nat) :=
  (p.vmaAt x).map fun v => (v.f, (v.off + (x - v.addr)) % 2 ^ 64)

theorem Vma.covers_iff {x : Nat} (h : v.used → v.Placed) : v.covers x ↔ v.used ∧ x ∈ v.range := by
  simp only [Vma.covers, decide_eq_true_eq, Vma.range, Set.mem_Ico]
  refine and_congr_right fun hu => ?_
  rw [show (v.addr + v.len) % 2 ^ 64 = v.addr + v.len from (h hu).stop_eq]

theorem Proc.Apart.fileAt_iff {p : Proc} (h : p.Apart) {x : Nat} {y : Option Nat × Nat} : p.fileAt x = some y ↔
    ∃ i < MAXVMA, ((p.vmas i).used ∧ x ∈ (p.vmas i).range) ∧
      ((p.vmas i).f, ((p.vmas i).off + (x - (p.vmas i).addr)) % 2 ^ 64) = y := by
  have hcov : ∀ i < MAXVMA, ((p.vmas i).covers x ↔ (p.vmas i).used ∧ x ∈ (p.vmas i).range) :=
    fun i hi => Vma.covers_iff fun hu => (h.placed i hi hu).1
  unfold Proc.fileAt
  rw [map_eq_some_iff]
  constructor
  · rintro ⟨v, hv, hy⟩
    obtain ⟨i, hi, rfl, hx⟩ := mem_vmaAt hv
    exact ⟨i, hi, (hcov i hi).mp (by simpa [Vma.covers] using hx), hy⟩
  · rintro ⟨i, hi, hx, hy⟩
    obtain ⟨v, hv⟩ := ne_none_iff_exists'.mp (vmaAt_isSome.mpr ⟨i, hi, (hcov i hi).mpr hx⟩)
    obtain ⟨j, hj, rfl, hx'⟩ := mem_vmaAt hv
    obtain ⟨hju, hjx⟩ := (hcov j hj).mp (by simpa [Vma.covers] using hx')
    obtain rfl : i = j := by
      by_contra hne
      exact Set.disjoint_left.mp (h.apart i hi j hj hne hx.1 hju) hx.2 hjx
    exact ⟨_, hv, hy⟩

section
variable {addr stop : Nat}

theorem Vma.less_spec (hv : v.Placed) (hpos : 0 < v.len) (hal : addr % PGSIZE = 0) (hstop : stop % PGSIZE = 0)
    (hend : ¬ (v.addr < addr ∧ stop < v.stop)) :
    ((v.less addr stop).used → (v.less addr stop).Placed ∧ 0 < (v.less addr stop).len ∧ (v.less addr stop).f = v.f) ∧
    ∀ x, ((v.less addr stop).used ∧ x ∈ (v.less addr stop).range ↔
        (v.used ∧ x ∈ v.range) ∧ ¬ (addr ≤ x ∧ x < stop)) ∧
      (v.used → x ∈ v.range → ¬ (addr ≤ x ∧ x < stop) →
        ((v.less addr stop).off + (x - (v.less addr stop).addr)) % 2 ^ 64 = (v.off + (x - v.addr)) % 2 ^ 64) := by
  have hse := hv.stop_eq
  obtain ⟨h1, h2, h3⟩ := id hv
  unfold Vma.less
  by_cases hm : v.used ∧ ¬ (stop ≤ v.addr ∨ v.stop ≤ addr)
  · rw [if_pos hm]
    unfold Vma.cut Vma.range
    rw [show (v.addr + v.len) % 2 ^ 64 = v.stop from rfl]
    simp only [Vma.Placed, Set.mem_Ico, PGSIZE] at *
    by_cases hlo : max addr v.addr = v.addr
    · by_cases hhi : min stop v.stop = v.stop
      · rw [if_pos ⟨hlo, hhi⟩]
        refine ⟨fun hu => (by cases hu), fun x => ⟨⟨fun hu => (by cases hu.1), fun hx => ?_⟩, fun _ hx hn => ?_⟩⟩ <;> omega
      · rw [if_neg fun hc => hhi hc.2, if_pos hlo]
        dsimp only
        refine ⟨fun _ => ⟨⟨?_, ?_, ?_⟩, ?_, rfl⟩, fun x => ⟨⟨fun hx => ⟨⟨hm.1, ?_⟩, ?_⟩, fun hx => ⟨hm.1, ?_⟩⟩,
          fun _ hx hn => ?_⟩⟩ <;> omega
    · have hhi : min stop v.stop = v.stop := by omega
      rw [if_neg fun hc => hlo hc.1, if_neg hlo, if_pos hhi]
      dsimp only
      refine ⟨fun _ => ⟨⟨h1, ?_, ?_⟩, ?_, rfl⟩, fun x => ⟨⟨fun hx => ⟨⟨hm.1, ?_⟩, ?_⟩, fun hx => ⟨hm.1, ?_⟩⟩,
        fun _ _ _ => rfl⟩⟩ <;> omega
  · rw [if_neg hm]
    refine ⟨fun _ => ⟨hv, hpos, rfl⟩, fun x => ⟨⟨fun hx => ⟨hx, ?_⟩, fun hx => hx.1⟩, fun _ _ _ => rfl⟩⟩
    intro hc
    refine hm ⟨hx.1, ?_⟩
    have := hx.2
    simp only [Vma.range, Set.mem_Ico] at this
    omega

theorem Proc.Apart.less {p q : Proc} (h : p.Apart) (hal : addr % PGSIZE = 0) (hstop : stop % PGSIZE = 0)
    (hend : ∀ i < MAXVMA, (p.vmas i).used → ¬ ((p.vmas i).addr < addr ∧ stop < (p.vmas i).stop))
    (hq : ∀ i < MAXVMA, q.vmas i = (p.vmas i).less addr stop) :
    q.Apart ∧ ∀ x, q.fileAt x = if addr ≤ x ∧ x < stop then none else p.fileAt x := by
  have hused : ∀ i < MAXVMA, (q.vmas i).used → (p.vmas i).used := fun i hi hu =>
    Vma.less_used (hq i hi ▸ hu)
  have hspec := fun i hi hu => Vma.less_spec (h.placed i hi hu).1 (h.placed i hi hu).2 hal hstop (hend i hi hu)
  have hA : q.Apart := by
    refine ⟨fun i hi hu => ?_, fun i hi j hj hne hu hu' => ?_⟩
    · have hs := (hspec i hi (hused i hi hu)).1
      rw [← hq i hi] at hs
      exact ⟨(hs hu).1, (hs hu).2.1⟩
    · refine Set.disjoint_left.mpr fun x hx hx' => ?_
      have hs := ((hspec i hi (hused i hi hu)).2 x).1
      have hs' := ((hspec j hj (hused j hj hu')).2 x).1
      rw [← hq i hi] at hs
      rw [← hq j hj] at hs'
      exact Set.disjoint_left.mp (h.apart i hi j hj hne (hused i hi hu) (hused j hj hu')) (hs.mp ⟨hu, hx⟩).1.2
        (hs'.mp ⟨hu', hx'⟩).1.2
  refine ⟨hA, fun x => ext fun y => ?_⟩
  have hif : (if addr ≤ x ∧ x < stop then none else p.fileAt x) = some y ↔ ¬ (addr ≤ x ∧ x < stop) ∧
    p.fileAt x = some y := by
    split <;> simp_all
  rw [hif, hA.fileAt_iff, h.fileAt_iff]
  constructor
  · rintro ⟨i, hi, hx, hy⟩
    obtain ⟨hf, hs⟩ := hspec i hi (hused i hi hx.1)
    rw [hq i hi] at hx hy
    obtain ⟨hx0, hout⟩ := (hs x).1.mp hx
    exact ⟨hout, i, hi, hx0, by rw [← hy, (hf hx.1).2.2, (hs x).2 hx0.1 hx0.2 hout]⟩
  · rintro ⟨hout, i, hi, hx, hy⟩
    obtain ⟨hf, hs⟩ := hspec i hi hx.1
    have hx' := (hs x).1.mpr ⟨hx, hout⟩
    refine ⟨i, hi, by rw [hq i hi]; exact hx', ?_⟩
    rw [hq i hi, ← hy, (hf hx'.1).2.2, (hs x).2 hx.1 hx.2 hout]

end

def Proc.cutTo (p : Proc) (addr stop i : Nat) : Proc :=
  { p with vmas := fun j => if j < i then (p.vmas j).less addr stop else p.vmas j }

def Vma.Meets (v : Vma) (addr stop : Nat) : Prop := v.used = true ∧ ¬ (stop ≤ v.addr ∨ v.stop ≤ addr)

def Proc.MappedIn (p : Proc) (addr stop i n : Nat) : Prop :=
  ∃ j < i, (p.vmas j).used = true ∧ (max addr (p.vmas j).addr ≤ n * PGSIZE ∧ n * PGSIZE < min stop (p.vmas j).stop)

/-- What became of an entry `e`: it is gone, or as it was, or the write-back (`W`) has faulted in a page where none was; of
a page that is to go, this leaves nothing but a page below the break (`low`). -/
def EntryCut (W low gone : Prop) (e e' : Pte) : Prop :=
  (e' = 0#64 ∧ gone ∧ e.has PTE_V = true) ∨ (e' = e ∧ ¬ (gone ∧ e.has PTE_V = true)) ∨
    (W ∧ (gone ∨ e.has PTE_V = false) ∧ (gone → e'.has PTE_V = true → low))

section
variable {k₀ k : Kernel} {addr stop : Nat}

theorem EntryCut.step {W w low gone here : Prop} {e e1 e2 e3 : Pte} (h : EntryCut W low gone e e1) (hw : w → W)
    (hwb : w ∨ e2 = e1) (hfill : e1.has PTE_V → e2 = e1)
    (hlow : gone → e3.has PTE_V → e1.has PTE_V ∨ low)
    (hin : here → e3 = if e2.has PTE_V then 0#64 else e2) (hout : ¬ here → e3 = e2) :
    EntryCut W low (gone ∨ here) e e3 := by
  have hgone : here → e3.has PTE_V = false := fun hh => by
    rw [hin hh]
    split <;> simp_all
  unfold EntryCut at *
  by_cases h12 : e2 = e1
  · subst h12
    by_cases hh : here
    · rw [hin hh]
      rcases h with ⟨rfl, hg, hv⟩ | ⟨rfl, hg⟩ | hr
      · exact .inl ⟨by simp, .inr hh, hv⟩
      · cases hv : e2.has PTE_V with
        | true => exact .inl ⟨by simp, .inr hh, rfl⟩
        | false => exact .inr (.inl ⟨by simp, by simp⟩)
      · rw [← hin hh]
        exact .inr (.inr ⟨hr.1, .inl (.inr hh), fun _ hv => by rw [hgone hh] at hv; cases hv⟩)
    · rw [hout hh, or_iff_left hh]
      exact h
  · -- the write-back filled an entry that was empty
    have hno : e1.has PTE_V = false := by
      by_contra hc
      exact h12 (hfill (by simpa using hc))
    refine .inr (.inr ⟨hw (hwb.resolve_right h12), ?_, fun hg hv => hg.elim (fun hg => ?_) fun hh => ?_⟩)
    · rcases h with ⟨-, hg, -⟩ | ⟨rfl, -⟩ | hr
      · exact .inl (.inl hg)
      · exact .inr hno
      · exact hr.2.1.imp_left .inl
    · exact (hlow hg hv).resolve_left (by simp [hno])
    · rw [hgone hh] at hv
      cases hv

/-- After the first `i` rounds of `proc_munmap`; `b` says whether one of them has changed anything. -/
structure Removing (k₀ k : Kernel) (addr stop i : Nat) (b : Bool) : Prop where
  procs : k.procs = update k₀.procs k₀.sys.cur ((k₀.procs k₀.sys.cur).cutTo addr stop i)
  cur : k.sys.cur = k₀.sys.cur
  same : b = false → k = k₀
  met : b = true → ∃ j < i, ((k₀.procs k₀.sys.cur).vmas j).Meets addr stop
  ends : ∀ j < i, ((k₀.procs k₀.sys.cur).vmas j).used = true →
    ¬ (((k₀.procs k₀.sys.cur).vmas j).addr < addr ∧ stop < ((k₀.procs k₀.sys.cur).vmas j).stop)
  entries : ∀ r, (k₀.procs k₀.sys.cur).pagetable = some r → ∀ r' ∈ tables k₀.procs, ∀ n < 512 * 512 * 512,
    EntryCut (∃ j < MAXVMA, ((k₀.procs k₀.sys.cur).vmas j).Meets addr stop ∧ ((k₀.procs k₀.sys.cur).vmas j).WritesBack)
      (n * PGSIZE < (k₀.procs k₀.sys.cur).sz) (r' = r ∧ (k₀.procs k₀.sys.cur).MappedIn addr stop i n)
      (leaf k₀.mem r' n) (leaf k.mem r' n)

theorem Removing.refl (k₀ : Kernel) (addr stop : Nat) : Removing k₀ k₀ addr stop 0 false := by
  refine ⟨?_, rfl, fun _ => rfl, (by simp), (by simp), fun r _ r' _ n _ => .inr (.inl ⟨rfl, ?_⟩)⟩
  · simp [Proc.cutTo]
  · rintro ⟨⟨-, j, hj, -⟩, -⟩
    omega

theorem Proc.cutTo_succ (p : Proc) (addr stop i : Nat) :
    p.cutTo addr stop (i + 1) = (p.cutTo addr stop i).setVma i ((p.vmas i).less addr stop) := by
  unfold Proc.cutTo Proc.setVma
  congr 1
  funext j
  by_cases hj : j = i
  · rw [hj, update_self, if_pos (by omega)]
  · rw [update_of_ne hj]
    exact if_congr (by omega) rfl rfl

theorem Proc.mappedIn_succ (p : Proc) (addr stop i n : Nat) : p.MappedIn addr stop (i + 1) n ↔ p.MappedIn addr stop i n ∨
    ((p.vmas i).used ∧ (max addr (p.vmas i).addr ≤ n * PGSIZE ∧ n * PGSIZE < min stop (p.vmas i).stop)) := by
  unfold Proc.MappedIn
  rw [Nat.exists_lt_succ_right]

theorem Proc.Apart.vmaAt_cutTo {p : Proc} (h : p.Apart) (hal : addr % PGSIZE = 0) (hstop : stop % PGSIZE = 0)
    (hend : ∀ j < i, (p.vmas j).used → ¬ ((p.vmas j).addr < addr ∧ stop < (p.vmas j).stop)) (hi : i ≤ MAXVMA)
    (hm : p.MappedIn addr stop i n) : (p.cutTo addr stop i).vmaAt (n * PGSIZE) = none := by
  obtain ⟨j, hj, hu, hx⟩ := hm
  have hse := (h.placed j (by omega) hu).1.stop_eq
  by_contra hne
  obtain ⟨l, hl, hc⟩ := vmaAt_isSome.mp hne
  unfold Proc.cutTo at hc
  dsimp only at hc
  have hcov : ((p.vmas l).used ∧ n * PGSIZE ∈ (p.vmas l).range) ∧ (l < i → ¬ (addr ≤ n * PGSIZE ∧ n * PGSIZE < stop)) := by
    split at hc
    · rename_i hli
      have hul := Vma.less_used (by simpa [Vma.covers] using hc : _ ∧ _).1
      obtain ⟨hpl, hrange⟩ := Vma.less_spec (h.placed l hl hul).1 (h.placed l hl hul).2 hal hstop (hend l hli hul)
      have := (hrange _).1.mp ((Vma.covers_iff fun hw => (hpl hw).1).mp hc)
      exact ⟨this.1, fun _ => this.2⟩
    · exact ⟨(Vma.covers_iff fun hw => (h.placed l hl hw).1).mp hc, fun hli => absurd hli ‹_›⟩
  obtain rfl : l = j := by
    by_contra hlj
    refine Set.disjoint_left.mp (h.apart l hl j (by omega) hlj hcov.1.1 hu) hcov.1.2 ?_
    simp only [Vma.range, Set.mem_Ico]
    omega
  exact hcov.2 hj (by omega)

theorem Removing.round {b c : Bool} {k' : Kernel} (h : Removing k₀ k addr stop i b)
    (hR : MunmapRound k addr stop i (some c) k') (hT : Trimmed k k') (hi : i < MAXVMA) (hal : addr % PGSIZE = 0)
    (hstop : stop % PGSIZE = 0) (hle : addr ≤ stop) (hA : (k₀.procs k₀.sys.cur).Apart) :
    Removing k₀ k' addr stop (i + 1) (b || c) := by
  have hself : k.procs k.sys.cur = (k₀.procs k₀.sys.cur).cutTo addr stop i := by rw [h.procs, h.cur, update_self]
  have hslot : (k.procs k.sys.cur).vmas i = (k₀.procs k₀.sys.cur).vmas i := by
    rw [hself]
    exact if_neg (lt_irrefl i)
  have hsucc := (k₀.procs k₀.sys.cur).cutTo_succ addr stop i
  have hends : ¬ (((k₀.procs k₀.sys.cur).vmas i).addr < addr ∧ stop < ((k₀.procs k₀.sys.cur).vmas i).stop) ∨
      ((k₀.procs k₀.sys.cur).vmas i).used = false → ∀ j < i + 1, ((k₀.procs k₀.sys.cur).vmas j).used →
      ¬ (((k₀.procs k₀.sys.cur).vmas j).addr < addr ∧ stop < ((k₀.procs k₀.sys.cur).vmas j).stop) := fun hx j hj hu => by
    rcases Nat.lt_succ_iff_lt_or_eq.mp hj with hj | rfl
    · exact h.ends j hj hu
    · exact hx.resolve_right (by simp [hu])
  cases hR with
  | skip hno =>
    rw [hslot] at hno
    have hless : ((k₀.procs k₀.sys.cur).vmas i).less addr stop = (k₀.procs k₀.sys.cur).vmas i := by
      unfold Vma.less
      rw [if_neg]
      rintro ⟨hu, hm⟩
      rw [hu] at hno
      exact hm (hno.resolve_left (by simp))
    rw [Bool.or_false]
    refine ⟨?_, h.cur, h.same, fun hb => ?_, hends (hno.symm.imp (fun _ => by omega) id), fun r hr r' hr' n hn => ?_⟩
    · rw [h.procs, hsucc, hless]
      congr 1
      unfold Proc.setVma
      rw [show (k₀.procs k₀.sys.cur).vmas i = ((k₀.procs k₀.sys.cur).cutTo addr stop i).vmas i from
        (if_neg (lt_irrefl i)).symm, update_eq_self]
    · obtain ⟨j, hj, hm⟩ := h.met hb
      exact ⟨j, by omega, hm⟩
    · rw [Proc.mappedIn_succ, or_iff_left]
      · exact h.entries r hr r' hr' n hn
      · rintro ⟨hu, h1, h2⟩
        rw [hu] at hno
        have := hno.resolve_left (by simp)
        omega
  | cut v s m hv hu meets endpart rel hm =>
    rw [hslot] at hv
    subst hv
    have hless : ((k₀.procs k₀.sys.cur).vmas i).less addr stop = ((k₀.procs k₀.sys.cur).vmas i).cut
        (max addr ((k₀.procs k₀.sys.cur).vmas i).addr) (min stop ((k₀.procs k₀.sys.cur).vmas i).stop) := if_pos ⟨hu, meets⟩
    refine ⟨?_, rel.cur.trans h.cur, by simp, fun _ => ⟨i, by omega, hu, meets⟩, hends (.inl (by omega)),
      fun r hr r' hr' n hn => ?_⟩
    · dsimp only
      rw [hself, h.cur, h.procs, update_idem, ← hless, ← hsucc]
    · have htab : tables k.procs = tables k₀.procs := by
        rw [h.procs]
        exact tables_update rfl
      obtain ⟨m1, hwb, hfill, hC⟩ := hm r (by rw [hself]; exact hr)
      rw [htab] at hfill hC
      have hC := hC r' hr' n hn
      have hpage : (max addr ((k₀.procs k₀.sys.cur).vmas i).addr / 4096 ≤ n ∧
          n < min stop ((k₀.procs k₀.sys.cur).vmas i).stop / 4096) ↔
            max addr ((k₀.procs k₀.sys.cur).vmas i).addr ≤ n * PGSIZE ∧
              n * PGSIZE < min stop ((k₀.procs k₀.sys.cur).vmas i).stop := by
        obtain ⟨h1, h2, -⟩ := (hA.placed i hi hu).1
        lia
      rw [Proc.mappedIn_succ, and_or_left]
      refine (h.entries r hr r' hr' n hn).step (fun hw => ⟨i, hi, ⟨hu, meets⟩, hw⟩) (hwb.imp id fun he => by rw [he])
        (hfill r' hr' n hn) (fun hg hv => ?_) (fun hh => ?_) fun hh => ?_
      · obtain ⟨j, hj, hju, hx⟩ := id hg.2
        have hn' : n < NUPAGE := by
          have hpl := (hA.placed j (by omega) hju).1
          have := hpl.2.2
          rw [hpl.stop_eq] at hx
          lia
        refine (hT.within r' (by rw [tables_congr fun j _ => hT.pagetable j, htab]; exact hr') n hn' hv).imp_right
          fun hin => ?_
        rw [InCur, hself] at hin
        exact hin.2.resolve_right fun hc => hc (hA.vmaAt_cutTo hal hstop h.ends (by omega) hg.2)
      · dsimp only
        rw [hC]
        have hp := hpage.mpr hh.2.2
        exact if_congr ⟨fun hc => hc.2.2.2, fun hv => ⟨hh.1, hp.1, hp.2, hv⟩⟩ rfl rfl
      · dsimp only
        rw [hC, if_neg]
        exact fun hc => hh ⟨hc.1, hu, hpage.mp ⟨hc.2.1, hc.2.2.1⟩⟩

theorem Proc.Apart.inside {p : Proc} (h : p.Apart) {j : Nat} (hi : i < MAXVMA) (hj : j < MAXVMA) (hu : (p.vmas i).used)
    (hin : (p.vmas i).addr < addr ∧ stop < (p.vmas i).stop) (hle : addr ≤ stop) (hm : (p.vmas j).Meets addr stop) :
    j = i := by
  by_contra hne
  have hd := h.apart j hj i hi hne hm.1 hu
  have hse := (h.placed i hi hu).1.stop_eq
  have hse' := (h.placed j hj hm.1).1.stop_eq
  have hpos := (h.placed j hj hm.1).2
  have hmeets := hm.2
  rw [Vma.range, Vma.range, Set.Ico_disjoint_Ico] at hd
  omega

variable [Image] {W : Prop} {L : Nat → Nat}

theorem wp_munmap_rounds (hp : (k₀.procs k₀.sys.cur).Apart) (hal : addr % PGSIZE = 0) (hstop : stop % PGSIZE = 0)
    (hle : addr ≤ stop) : ∀ (n : Nat) {k : Kernel} {b : Bool}, n ≤ MAXVMA → Inv W L k → Runs k →
    Removing k₀ k addr stop (MAXVMA - n) b →
    wp (munmapLoop k₀.sys.cur addr stop n b) (fun b k' => if b then Removing k₀ k' addr stop MAXVMA true else k' = k₀)
      (fun _ => True) k
  | 0, k, b, _, _, _, h => by
    rw [munmapLoop, wp_pure]
    cases b with
    | false => exact h.same rfl
    | true => exact h
  | n + 1, k, b, hn, hI, hk, h => by
    have hi : MAXVMA - (n + 1) < MAXVMA := by omega
    have hslot : (k.procs k.sys.cur).vmas (MAXVMA - (n + 1)) = (k₀.procs k₀.sys.cur).vmas (MAXVMA - (n + 1)) := by
      rw [h.procs, h.cur, update_self]
      exact if_neg (lt_irrefl _)
    rw [munmapLoop, wp_bind, ← h.cur]
    refine wp_munmapVma hI hk hal hstop hle hi (fun _ => trivial) fun c k1 h1 ht1 hR => ?_
    cases c with
    | none =>
      refine wp_ret ?_
      cases hR with
      | inside hu hin =>
        rw [hslot] at hu hin
        -- no round before this one has met the range
        refine h.same (by_contra fun hb => ?_)
        obtain ⟨j, hj, hm⟩ := h.met (by simpa using hb)
        have := hp.inside hi (by omega) hu hin hle hm
        omega
    | some c =>
      have hnext := h.round hR ht1 hi hal hstop hle hp
      rw [show MAXVMA - (n + 1) + 1 = MAXVMA - n by omega] at hnext
      rw [h.cur]
      exact wp_munmap_rounds hp hal hstop hle n (by omega) h1 (ht1.runs hk) hnext

theorem munmap_exact {c : Config} {P : Nat × Op → Kernel → Prop} {tr : List ((Nat × Op) × Kernel)} {i r len : Nat}
    (hb : Booted c k₀) (ht : Reaches P k₀ tr k) (hi : k.ready i) (hr : (k.procs i).pagetable = some r)
    (hp : (k.procs i).Apart)
    (hal : addr % PGSIZE = 0) (hlen : len % PGSIZE = 0) (ha : addr < 2 ^ 64) (hl : len < 2 ^ 64) {b : Bool} {k' : Kernel}
    (hrun : proc_munmap i addr len (k.switch i) = .ok (b, k')) :
    if b = true then (k'.procs i).Apart ∧
      (∀ x, (k'.procs i).fileAt x = if addr ≤ x ∧ x < addr + len then none else (k.procs i).fileAt x) ∧
      ∀ r' ∈ tables k.procs, ∀ n < 512 * 512 * 512, EntryCut
        (∃ j < MAXVMA, ((k.procs i).vmas j).Meets addr (addr + len) ∧ ((k.procs i).vmas j).WritesBack)
        (n * PGSIZE < (k.procs i).sz) (r' = r ∧ (k.procs i).MappedIn addr (addr + len) MAXVMA n)
        (leaf k.mem r' n) (leaf k'.mem r' n)
    else k' = k.switch i := by
  obtain ⟨L, -, h⟩ := inv_of_reaches hb.inv ht
  have hwp : wp (proc_munmap i addr len) (fun b k' => if b = true then Removing (k.switch i) k' addr (addr + len) MAXVMA true
      else k' = k.switch i) (fun _ => True) (k.switch i) := by
    refine wp_ite (fun _ => wp_ret rfl) fun hgo => ?_
    obtain ⟨-, hgo⟩ := not_or.mp hgo
    obtain ⟨-, hgo⟩ := not_or.mp hgo
    have hmod : (addr + len) % 2 ^ 64 = addr + len := by omega
    rw [hmod]
    exact @wp_munmap_rounds (k.switch i) addr (addr + len) _ _ L hp hal (by lia) (by omega) MAXVMA _ _ (Nat.le_refl _)
      (h.switch i) (h.runs_switch hi) (by rw [Nat.sub_self]; exact Removing.refl ..)
  have hres := wp_ok hwp hrun
  cases b with
  | false => exact hres
  | true =>
    have hself : k'.procs i = (k.procs i).cutTo addr (addr + len) MAXVMA := by
      rw [hres.procs]
      exact update_self ..
    obtain ⟨hA, hfile⟩ := hp.less (q := k'.procs i) hal (by lia) hres.ends fun j hj => by
      rw [hself]
      exact if_pos hj
    exact ⟨hA, hfile, hres.entries r hr⟩

end

def topPage : Nat := TRAPFRAME NPROC - PGSIZE

theorem munmap_upper_page : ∃ k₀ tr k k', @Booted (lastPages 30) Config.small k₀ ∧
    @Reaches (lastPages 30) (fun _ _ => True) k₀ tr k ∧ k.ready 0 ∧
    @proc_munmap (lastPages 30) 0 topPage PGSIZE (k.switch 0) = .ok (true, k') ∧
    ∀ x, (k'.procs 0).fileAt x = if topPage ≤ x ∧ x < topPage + PGSIZE then none else (k.procs 0).fileAt x := by
  obtain ⟨k₀, tr, k, hb, ht, hf⟩ := reaches_last Config.small_ok
    [(0, .opens 2 0), (0, .mmap 0 (2 * PGSIZE) PROT_READ MAP_PRIVATE 0 0)]
    (fun _ k => decide (k.ready 0) && (k.procs 0).pagetable.isSome &&
      decide (∀ j < MAXVMA, ((k.procs 0).vmas j).used = true → j = 0 ∧ ((k.procs 0).vmas j).addr = topPage - PGSIZE ∧
        ((k.procs 0).vmas j).len = 2 * PGSIZE) &&
      okAnd (@proc_munmap (lastPages 30) 0 topPage PGSIZE (k.switch 0)) fun b _ => b) (by decide +kernel)
  simp only [Bool.and_eq_true, decide_eq_true_eq, isSome_iff_exists] at hf
  obtain ⟨⟨⟨hi, r, hr⟩, hone⟩, hrun⟩ := hf
  obtain ⟨b, k', hk, rfl⟩ := of_okAnd hrun
  have hA : (k.procs 0).Apart := by
    refine ⟨fun j hj hu => ?_, fun j hj j' hj' hne hu hu' => ?_⟩
    · obtain ⟨-, ha, hl⟩ := hone j hj hu
      unfold Vma.Placed
      rw [ha, hl]
      decide
    · exact absurd ((hone j hj hu).1.trans (hone j' hj' hu').1.symm) hne
  have hres := @munmap_exact k₀ k topPage (lastPages 30) Config.small (fun _ _ => True) tr 0 r PGSIZE hb ht hi hr hA
    (by decide)
    (by decide) (by decide) (by decide) true k' hk
  exact ⟨k₀, tr, k, k', hb, ht, hi, hk, hres.2.1⟩

/-! ## Pages of a file -/

inductive Vma.LeftOf (v : Vma) : Vma → Prop
  | all : v.LeftOf v
  | cut {w : Vma} (h : v.LeftOf w) (addr stop : Nat) (aligned : addr % PGSIZE = 0 ∧ stop % PGSIZE = 0)
      (meets : ¬ (stop ≤ w.addr ∨ w.stop ≤ addr)) (endpart : ¬ (w.addr < max addr w.addr ∧ min stop w.stop < w.stop)) :
      v.LeftOf (w.cut (max addr w.addr) (min stop w.stop))

theorem Vma.LeftOf.spec {w : Vma} (h : v.LeftOf w) (hv : v.Placed) (hu : w.used) :
    w.Placed ∧ w.f = v.f ∧ v.addr ≤ w.addr ∧ w.off % 2 ^ 64 = (v.off + (w.addr - v.addr)) % 2 ^ 64 := by
  induction h with
  | all => exact ⟨hv, rfl, Nat.le_refl _, by rw [Nat.sub_self, Nat.add_zero]⟩
  | @cut w h addr stop aligned meets endpart ih =>
    obtain ⟨hw, hf, hle, hoff⟩ := ih (Vma.cut_used hu)
    have hse := hw.stop_eq
    obtain ⟨h1, h2⟩ := aligned
    obtain ⟨hwa, hwl, -⟩ := id hw
    have hlo : max addr w.addr % PGSIZE = 0 := by rcases Nat.le_total addr w.addr with hx | hx <;> simp [hx, h1, hwa]
    have hhi : min stop w.stop % PGSIZE = 0 := by
      have : w.stop % PGSIZE = 0 := by rw [hse]; lia
      rcases Nat.le_total stop w.stop with hx | hx <;> simp [hx, h2, this]
    have hlt : max addr w.addr ≤ min stop w.stop := by omega
    obtain ⟨-, -, hpl, -, hf'⟩ := Vma.cut_spec hw
      ⟨hlo, hhi, Nat.le_max_right .., hlt, Nat.min_le_right .., endpart⟩ hu
    refine ⟨hpl, hf'.trans hf, ?_⟩
    generalize max addr w.addr = lo at *
    generalize min stop w.stop = hi at *
    unfold Vma.cut at hu ⊢
    by_cases hl : lo = w.addr
    · by_cases hh : hi = w.stop
      · rw [if_pos ⟨hl, hh⟩] at hu; cases hu
      · rw [if_neg fun hx => hh hx.2, if_pos hl]
        dsimp only
        omega
    · rw [if_neg fun hx => hl hx.1, if_neg hl]
      split <;> exact ⟨hle, hoff⟩

section
variable [Image] {k : Kernel} {r : Nat}

/-- A fault in a mapping, in whatever state processes have got the kernel to: page `q` of the mapping `v₀`, of which `v` is
left, shows the file from `v₀.off + q * PGSIZE` on exactly if it is neither below the break nor past the last offset, unless
zeroes are as good; where no page can be had nothing is mapped, and the only pages taken are those of page tables. -/
theorem file_fault {c : Config} {k₀ : Kernel} {P : Nat × Op → Kernel → Prop} {tr : List ((Nat × Op) × Kernel)} {i : Nat}
    (hb : Booted c k₀) (hc : c.Whole) (ht : Reaches P k₀ tr k) (hi : k.ready i)
    (hr : (k.procs i).pagetable = some r) {va q f : Nat} {v v₀ : Vma}
    (read : Bool) (hva : va < MAXVA) (hnew : (leaf k.mem r (va / PGSIZE)).has PTE_V = false)
    (hat : (k.procs i).vmaAt (va / PGSIZE * PGSIZE) = some v) (hf : v₀.f = some f) (h₀ : v₀.Placed) (hleft : v₀.LeftOf v)
    (hq : va / PGSIZE * PGSIZE = v₀.addr + q * PGSIZE) :
    ∃ res s', vmfault (k.procs i) r va read ⟨(k.switch i).sys, k.mem⟩ = .ok (res, s') ∧
      (∀ pa, res = some pa → ((leaf s'.mem r (va / PGSIZE)).has PTE_V = true ∧ PTE2PA (leaf s'.mem r (va / PGSIZE)) = pa) ∧
        ((∀ j < PGSIZE, s'.mem.data pa j = (k.sys.inode (k.sys.file f).ip).show (v₀.off + q * PGSIZE + j)) ↔
          if va / PGSIZE * PGSIZE < (k.procs i).sz then
            ∀ j < PGSIZE, (k.sys.inode (k.sys.file f).ip).show (v₀.off + q * PGSIZE + j) = 0
          else v₀.off + q * PGSIZE < 2 ^ 64 ∨
            ∀ j < PGSIZE, (k.sys.inode (k.sys.file f).ip).show ((v₀.off + q * PGSIZE) % 2 ^ 64 + j) = 0)) ∧
      (res = none → SameLeaf k.mem s'.mem (tables k.procs) ∧ ∀ a, IsPage a →
        s'.mem.refcnt (pa2idx a) = k.mem.refcnt (pa2idx a) ∨ (k.mem.refcnt (pa2idx a) = 0 ∧ s'.mem.refcnt (pa2idx a) = 1 ∧
          ∃ r ∈ tables k.procs, OfTable s'.mem r a)) := by
  obtain ⟨L, -, h⟩ := inv_of_reaches hb.inv ht
  have hrun := h.runs_switch hi
  obtain ⟨r', ρ, hr', hU⟩ := (h.switch i).toCore.userOk hrun
  obtain rfl : r' = r := some.inj (hr'.symm.trans hr)
  have hS := (h.switch i).unstopped (E := fun _ => False) hrun (.inl hc)
  obtain ⟨l, hl, rfl, hu, hlo, hhi⟩ := mem_vmaAt hat
  obtain ⟨-, hvf, hle, hoff⟩ := hleft.spec h₀ hu
  have hgood := (h.switch i).fs.good (E := fun _ => False) (named_by_vma hrun.slot hl hu (hvf.trans hf)) (.inl hc)
  have hsize : (k.sys.inode (k.sys.file f).ip).size ≤ MAXFILE * BSIZE := hgood.2.2.2.1
  have hlt : va / PGSIZE < 512 * 512 * 512 := by lia
  have hpos : (((k.procs i).vmas l).off + (va / PGSIZE * PGSIZE - ((k.procs i).vmas l).addr)) % 2 ^ 64 =
      (v₀.off + q * PGSIZE) % 2 ^ 64 := by omega
  have hzero : ∀ x, 2 ^ 64 ≤ x → (k.sys.inode (k.sys.file f).ip).show x = 0 := fun x hx => by
    unfold Inode.show
    rw [if_neg (Nat.not_lt.mpr (Nat.le_trans hsize (Nat.le_trans (by decide) hx)))]
  refine wp_total (wp_vmfault hU.inv hU.held hU.table hU.bounded hU.alive hU.kern (fun hc => absurd hva (Nat.not_lt.mpr hc))
    hS.1 hS.2 fun s' ρ' res _ hI' hF => ⟨fun pa hpa => ?_, fun hno => ?_⟩)
  · subst hpa
    obtain ⟨e, hupd, hv, hpa, -⟩ := hF.mapped hU.inv hU.held
    have hleaf : leaf s'.mem r' (va / PGSIZE) = e := by rw [hupd r' hU.table _ hlt, if_pos ⟨rfl, rfl⟩]
    refine ⟨by rw [hleaf]; exact ⟨hv, hpa⟩, ?_⟩
    cases hF.out with
    | own hv' | copy _ hv' => exact absurd hv' (by rw [hnew]; simp)
    | heap _ _ lt _ _ data =>
      rw [if_pos lt, data]
      exact forall₂_congr fun j _ => eq_comm
    | file _ v bs _ le hat' _ page _ _ data =>
      rw [if_neg (Nat.not_lt.mpr le), data]
      obtain rfl := some.inj (hat.symm.trans hat')
      unfold Vma.Page at page
      rw [hvf.trans hf] at page
      have hsee : ∀ j < PGSIZE, splice (fun _ => 0) 0 bs j =
          (k.sys.inode (k.sys.file f).ip).show ((v₀.off + q * PGSIZE) % 2 ^ 64 + j) := fun j hj => by
        rw [← hpos]; exact page.shows hsize hj
      constructor
      · intro hall
        by_cases hw : v₀.off + q * PGSIZE < 2 ^ 64
        · exact Or.inl hw
        · refine Or.inr fun j hj => ?_
          rw [← hsee j hj, hall j hj, hzero _ (by omega)]
      · intro hgood j hj
        rw [hsee j hj]
        rcases Nat.lt_or_ge (v₀.off + q * PGSIZE) (2 ^ 64) with hw | hw
        · rw [Nat.mod_eq_of_lt hw]
        · rw [hgood.resolve_left (Nat.not_lt.mpr hw) j hj, hzero _ (by omega)]
  · subst hno
    cases hF.out with
    | refused same _ => exact ⟨same, fun a ha => hU.inv.counts_kept hI' same hF.grow ha⟩

end

theorem file_fault_first : ∃ k₀ tr k r v res s', @Booted (lastPages 30) Config.small k₀ ∧
    @Reaches (lastPages 30) (fun _ _ => True) k₀ tr k ∧ k.ready 0 ∧ (k.procs 0).pagetable = some r ∧
    (k.procs 0).vmaAt topPage = some v ∧ (v.addr, v.off, v.f) = (topPage, 0, some 0) ∧
    @vmfault (lastPages 30) (k.procs 0) r topPage true ⟨(k.switch 0).sys, k.mem⟩ = .ok (res, s') ∧
    ∀ pa, res = some pa → ∀ j < PGSIZE, s'.mem.data pa j = (k.sys.inode (k.sys.file 0).ip).show j := by
  obtain ⟨k₀, tr, k, hb, ht, hf⟩ := reaches_last Config.small_ok
    [(0, .opens 2 0), (0, .mmap 0 PGSIZE PROT_READ MAP_PRIVATE 0 0)] (fun _ k => decide (k.ready 0) &&
      (k.procs 0).pagetable.any fun r => !(leaf k.mem r (topPage / PGSIZE)).has PTE_V && decide ((k.procs 0).sz ≤ topPage) &&
      ((k.procs 0).vmaAt topPage).any fun v : Vma => decide ((v.addr, v.off, v.f) = (topPage, 0, some 0) ∧ v.len = PGSIZE))
    (by decide +kernel)
  simp only [Bool.and_eq_true, decide_eq_true_eq, any_eq_true, Bool.not_eq_true'] at hf
  obtain ⟨hi, r, hr, ⟨hnew, hsz⟩, v, hat, hv, hlen⟩ := hf
  obtain ⟨haddr, hoff, hfile⟩ : v.addr = topPage ∧ v.off = 0 ∧ v.f = some 0 := by simpa using hv
  have hdiv : topPage / PGSIZE * PGSIZE = topPage := by decide
  obtain ⟨res, s', hs, hshow, -⟩ := @file_fault (lastPages 30) k r Config.small k₀ (fun _ _ => True) tr 0 hb
    Config.small_whole ht hi hr topPage 0 0 v v true (by decide) hnew (by rw [hdiv]; exact hat) hfile
    ⟨by rw [haddr]; decide, by rw [hlen]; decide, by rw [haddr, hlen]; decide⟩ .all (by rw [hdiv, haddr]; rfl)
  refine ⟨k₀, tr, k, r, v, res, s', hb, ht, hi, hr, hat, hv, hs, fun pa hpa j hj => ?_⟩
  have hbytes := (hshow pa hpa).2.mpr
  rw [hdiv, if_neg (Nat.not_lt.mpr hsz), hoff] at hbytes
  have := hbytes (Or.inl (by decide)) j hj
  simpa using this

/-- The second page of a mapping at the highest offset shows the first page of the file. -/
theorem file_fault_wraps : ∃ k₀ tr k r v pa s', @Booted (lastPages 30) Config.small k₀ ∧
    @Reaches (lastPages 30) (fun _ _ => True) k₀ tr k ∧ k.ready 0 ∧ (k.procs 0).pagetable = some r ∧
    (k.procs 0).vmaAt topPage = some v ∧ v.Placed ∧ v.f = some 0 ∧ topPage = v.addr + 1 * PGSIZE ∧
    @vmfault (lastPages 30) (k.procs 0) r topPage true ⟨(k.switch 0).sys, k.mem⟩ = .ok (some pa, s') ∧
    s'.mem.data pa 0 ≠ (k.sys.inode (k.sys.file 0).ip).show (v.off + 1 * PGSIZE) := by
  obtain ⟨k₀, tr, k, hb, ht, hf⟩ := reaches_last Config.small_ok
    [(0, .opens 2 0), (0, .mmap 0 (2 * PGSIZE) PROT_READ MAP_PRIVATE 0 (2 ^ 64 - PGSIZE))] (fun _ k => decide (k.ready 0) &&
      (k.procs 0).pagetable.any fun r => ((k.procs 0).vmaAt topPage).any fun v : Vma =>
        decide (v.f = some 0 ∧ topPage = v.addr + 1 * PGSIZE ∧ v.len = 2 * PGSIZE) &&
        okAnd (@vmfault (lastPages 30) (k.procs 0) r topPage true ⟨(k.switch 0).sys, k.mem⟩) fun o s' => o.any fun pa =>
          decide (s'.mem.data pa 0 ≠ (k.sys.inode (k.sys.file 0).ip).show (v.off + 1 * PGSIZE))) (by decide +kernel)
  simp only [Bool.and_eq_true, decide_eq_true_eq, any_eq_true] at hf
  obtain ⟨hi, r, hr, v, hat, ⟨hfile, htop, hlen⟩, hc⟩ := hf
  have haddr : v.addr = topPage - PGSIZE := by rw [htop]; omega
  obtain ⟨o, s', hs, hc⟩ := of_okAnd hc
  simp only [decide_eq_true_eq, any_eq_true] at hc
  obtain ⟨pa, rfl, hc⟩ := hc
  exact ⟨k₀, tr, k, r, v, pa, s', hb, ht, hi, hr, hat,
    ⟨by rw [haddr]; decide, by rw [hlen]; decide, by rw [haddr, hlen]; decide⟩,
    hfile, htop, hs, hc⟩

end Xv6
