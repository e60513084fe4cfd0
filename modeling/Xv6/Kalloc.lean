import Xv6.Wp
import Xv6.Pte

/-!
# Physical memory and the page allocator

`kalloc.c`. A page of physical memory is named by its address. Its contents
are kept in two views, as the C code types it: 512 entries when it is used
as a page table, 4096 bytes otherwise. `kmem.lock` is taken and released
inside each function and never across a call, so it is left out.
-/

namespace Xv6

open Hoare Function

variable {m : Mem} {a : Nat}

inductive Panic
  | kfree | kfreeRef | krefinc | krefincRef | krefcnt
  | walk | mapVa | mapSize | mapZero | remap | unmapAlign | freewalkLeaf | uvmclear | loadseg | kalloc
  deriving DecidableEq, Repr

/-- Why a memory function does not return: a panic, or an access through an
address that is no page of the expected kind. -/
inductive MemStop
  | panic (p : Panic) | wild
  deriving DecidableEq, Repr

structure Mem where
  refcnt : Nat → Nat
  freelist : List Nat
  pte : Nat → Nat → Pte
  data : Nat → Nat → UInt8
  /-- The calls of `kalloc` that find no memory whatever the free list holds. -/
  oom : Nat → Bool
  /-- How often `kalloc` was called, and how often it returned 0. -/
  calls : Nat
  fails : Nat

/-- Memory before `kinit` runs, when no call of `kalloc` is going to fail for want of anything but a page. -/
def Mem.bss : Mem := ⟨fun _ => 0, [], fun _ _ => 0#64, fun _ _ => 0, fun _ => false, 0, 0⟩

abbrev M := Prog Mem MemStop

def pa2idx (pa : Nat) : Nat := (pa - KERNBASE) / PGSIZE

def Mem.fill (m : Mem) (pa : Nat) (c : UInt8) : Mem :=
  { m with
    pte := update m.pte pa fun _ => BitVec.ofNat 64 (c.toNat * 0x0101010101010101)
    data := update m.data pa fun _ => c }

section
variable [Image]

def IsPage (pa : Nat) : Prop := pa % PGSIZE = 0 ∧ Image.kend ≤ pa ∧ pa < PHYSTOP

instance (pa : Nat) : Decidable (IsPage pa) := inferInstanceAs (Decidable (_ ∧ _))

def kfree (pa : Nat) : M Unit := do
  if ¬ IsPage pa then throw (.panic .kfree)
  else
    let m ← get
    if m.refcnt (pa2idx pa) < 1 then throw (.panic .kfreeRef)
    else
      let m' := { m with refcnt := update m.refcnt (pa2idx pa) (m.refcnt (pa2idx pa) - 1) }
      if 0 < m'.refcnt (pa2idx pa) then set m'
      else
        -- fill with junk to catch dangling refs
        let m'' := m'.fill pa 1
        set { m'' with freelist := pa :: m''.freelist }

def kalloc : M (Option Nat) := do
  let m ← get
  let m := { m with calls := m.calls + 1 }
  if m.oom (m.calls - 1) then
    set { m with fails := m.fails + 1 }
    return none
  else
    match m.freelist with
    | [] =>
      set { m with fails := m.fails + 1 }
      return none
    | r :: rest =>
      set ({ m with freelist := rest, refcnt := update m.refcnt (pa2idx r) 1 }.fill r 5)
      return some r

def krefinc (pa : Nat) : M Unit := do
  if ¬ IsPage pa then throw (.panic .krefinc)
  else
    let m ← get
    if m.refcnt (pa2idx pa) < 1 then throw (.panic .krefincRef)
    else set { m with refcnt := update m.refcnt (pa2idx pa) (m.refcnt (pa2idx pa) + 1) }

def krefcnt (pa : Nat) : M Nat := do
  if ¬ IsPage pa then throw (.panic .krefcnt)
  else
    let m ← get
    return m.refcnt (pa2idx pa)

def freerange : M Unit :=
  forN (fun i => do
    let p := PGROUNDUP Image.kend + i * PGSIZE
    modify fun m => { m with refcnt := update m.refcnt (pa2idx p) 1 }
    kfree p) ((PHYSTOP - PGROUNDUP Image.kend) / PGSIZE)

def kinit : M Unit := do
  modify fun m => { m with refcnt := fun _ => 0 }
  freerange

end

theorem fill_pte_ne (h : a ≠ pa) : (m.fill pa c).pte a = m.pte a := by
  simp [Mem.fill, update_of_ne h]

theorem fill_data_ne (h : a ≠ pa) : (m.fill pa c).data a = m.data a := by
  simp [Mem.fill, update_of_ne h]

def Mem.drop (m : Mem) (pa : Nat) : Mem :=
  if 1 < m.refcnt (pa2idx pa) then
    { m with refcnt := update m.refcnt (pa2idx pa) (m.refcnt (pa2idx pa) - 1) }
  else
    { m.fill pa 1 with
      refcnt := update m.refcnt (pa2idx pa) (m.refcnt (pa2idx pa) - 1)
      freelist := pa :: m.freelist }

theorem Mem.drop_shared (h : 1 < m.refcnt (pa2idx pa)) :
    (m.drop pa).data = m.data ∧ (m.drop pa).freelist = m.freelist := by
  unfold Mem.drop; rw [if_pos h]; exact ⟨rfl, rfl⟩

theorem Mem.drop_data_ne (h : a ≠ pa) : (m.drop pa).data a = m.data a := by
  unfold Mem.drop
  split
  · rfl
  · exact fill_data_ne h

theorem Mem.drop_free : (m.drop pa).freelist ⊆ pa :: m.freelist := by
  unfold Mem.drop
  split
  · exact List.subset_cons_self _ _
  · exact fun _ => id

def Mem.incr (m : Mem) (pa : Nat) : Mem :=
  { m with refcnt := update m.refcnt (pa2idx pa) (m.refcnt (pa2idx pa) + 1) }

def Mem.take (m : Mem) (r : Nat) (rest : List Nat) : Mem :=
  { m.fill r 5 with freelist := rest, refcnt := update m.refcnt (pa2idx r) 1, calls := m.calls + 1 }

theorem wp_kalloc
    (hn : Q none { m with calls := m.calls + 1, fails := m.fails + 1 })
    (hs : ∀ r rest, m.freelist = r :: rest → Q (some r) (m.take r rest)) : wp kalloc Q E m := by
  unfold kalloc
  rw [wp_read]
  by_cases h : m.oom (m.calls + 1 - 1)
  · simp only [h, if_true, wp_bind, wp_set, wp_pure]; exact hn
  · simp only [h, Bool.false_eq_true, if_false]
    cases hf : m.freelist with
    | nil => simpa only [wp_bind, wp_set, wp_pure, ← hf] using hn
    | cons r rest => simp only [wp_bind, wp_set, wp_pure]; exact hs r rest hf

variable [Image] {E : MemStop → Prop} {pa : Nat}

theorem IsPage.paOk (h : IsPage pa) : PaOk pa :=
  ⟨h.1, Nat.lt_of_lt_of_le h.2.2 (by decide)⟩

theorem IsPage.ge (h : IsPage pa) : KERNBASE ≤ pa := by
  have := Image.tramp_ge; have := Image.tramp_lt; have := h.2.1
  omega

theorem pa2idx_inj (ha : IsPage a) (hb : IsPage b) (h : pa2idx a = pa2idx b) : a = b := by
  have h1 := ha.ge; have h2 := hb.ge; have h3 := ha.1; have h4 := hb.1
  unfold pa2idx at h
  lia

theorem wp_kfree (hp : IsPage pa)
    (hr : 0 < m.refcnt (pa2idx pa)) (h : Q () (m.drop pa)) : wp (kfree pa) Q E m := by
  unfold kfree
  have h1 : ¬ m.refcnt (pa2idx pa) < 1 := by omega
  simp only [hp, not_true_eq_false, if_false, wp_bind, wp_get, h1, update_self]
  unfold Mem.drop at h
  by_cases h2 : 1 < m.refcnt (pa2idx pa)
  · rw [if_pos h2] at h
    rw [if_pos (by omega), wp_set]; exact h
  · rw [if_neg h2] at h
    rw [if_neg (by omega), wp_set]; exact h

theorem wp_krefinc (hp : IsPage pa)
    (hr : 0 < m.refcnt (pa2idx pa)) (h : Q () (m.incr pa)) : wp (krefinc pa) Q E m := by
  unfold krefinc
  have h1 : ¬ m.refcnt (pa2idx pa) < 1 := by omega
  simp only [hp, not_true_eq_false, if_false, wp_bind, wp_get, h1, wp_set]
  exact h

theorem wp_krefcnt (hp : IsPage pa)
    (h : Q (m.refcnt (pa2idx pa)) m) : wp (krefcnt pa) Q E m := by
  unfold krefcnt
  simp only [hp, not_true_eq_false, if_false, wp_bind, wp_get, wp_pure]
  exact h

end Xv6
