import Xv6.Crew

/-!
# The bounded buffer

`produce` and `consume` of `user/prod-cons.c`, each repeated by a crew of
producers and of consumers, over a buffer of `N` slots.
-/

namespace Xv6

open Crew Function List

/-- The statement that is next, in `produce` and in `consume`. -/
inductive PcStage
  | produce | lockIn | store | advanceIn | unlockIn | upFull
  | consume | lockOut | take | advanceOut | unlockOut | upEmpty
  deriving DecidableEq

structure Buffer where
  buffer : Nat → Int
  inn : Nat
  out : Nat
  mutex : Nat
  empty : Nat
  full : Nat
  /-- Which slots hold an item that was not taken, and what was inserted and taken so far. -/
  holds : Nat → Bool
  inserted : List Int
  taken : List Int

/-- A thread keeps the `item` it inserts, or what it will return. -/
def pcCode (N : Nat) (item : Int) (_ : Nat) : PcStage × Int → Buffer → Option (Buffer × PcStage × Int)
  | (.produce, _), d => (down d.empty).map fun v => ({ d with empty := v }, .lockIn, item)
  | (.lockIn, x), d => (down d.mutex).map fun v => ({ d with mutex := v }, .store, x)
  | (.store, x), d => some ({ d with
      buffer := update d.buffer d.inn x, holds := update d.holds d.inn true, inserted := d.inserted ++ [x] },
    .advanceIn, x)
  | (.advanceIn, x), d => some ({ d with inn := (d.inn + 1) % N }, .unlockIn, x)
  | (.unlockIn, x), d => some ({ d with mutex := d.mutex + 1 }, .upFull, x)
  | (.upFull, x), d => some ({ d with full := d.full + 1 }, .produce, x)
  | (.consume, x), d => (down d.full).map fun v => ({ d with full := v }, .lockOut, x)
  | (.lockOut, x), d => (down d.mutex).map fun v => ({ d with mutex := v }, .take, x)
  | (.take, _), d => some ({ d with holds := update d.holds d.out false, taken := d.taken ++ [d.buffer d.out] },
    .advanceOut, d.buffer d.out)
  | (.advanceOut, x), d => some ({ d with out := (d.out + 1) % N }, .unlockOut, x)
  | (.unlockOut, x), d => some ({ d with mutex := d.mutex + 1 }, .upEmpty, x)
  | (.upEmpty, x), d => some ({ d with empty := d.empty + 1 }, .consume, x)

def pcInit (N producers consumers : Nat) : State Buffer (PcStage × Int) :=
  ⟨⟨fun _ => 0, 0, 0, 1, N, 0, fun _ => false, [], []⟩,
    replicate producers (.produce, 0) ++ replicate consumers (.consume, 0)⟩

def stageIn (l : List PcStage) (k : PcStage × Int) : Bool := Crew.among l k.1

structure Held (N : Nat) (b : Nat → Int) (h : Nat → Bool) (ins tk : List Int) : Prop where
  taken : tk <+: ins
  slot : ∀ j, tk.length ≤ j → j < ins.length → ins[j]? = some (b (j % N)) ∧ h (j % N) = true
  item : ∀ x, h x = true → ∃ j, tk.length ≤ j ∧ j < ins.length ∧ j % N = x

section
variable {N : Nat} {b : Nat → Int} {h : Nat → Bool} {ins tk : List Int} (hH : Held N b h ins tk)
include hH

omit hH in
theorem slots_apart (hj : j < i) (hN : i < j + N) : j % N ≠ i % N := by
  intro he
  have hd := (Nat.modEq_iff_dvd' (by omega)).mp he
  exact Nat.not_dvd_of_pos_of_lt (by omega) (by omega) hd

theorem Held.vacant (hlt : ins.length < tk.length + N) : h (ins.length % N) = false := by
  rw [Bool.eq_false_iff]
  intro ht
  obtain ⟨j, h1, h2, h3⟩ := hH.item _ ht
  exact slots_apart h2 (by omega) h3

theorem Held.push (hlt : ins.length < tk.length + N) (x : Int) :
    Held N (update b (ins.length % N) x) (update h (ins.length % N) true) (ins ++ [x]) tk := by
  refine ⟨hH.taken.trans (prefix_append ..), fun j h1 h2 => ?_, fun y hy => ?_⟩
  · rw [length_append, length_singleton] at h2
    by_cases hj : j = ins.length
    · rw [hj, update_self, update_self, getElem?_concat_length]
      exact ⟨rfl, rfl⟩
    · have hne := slots_apart (N := N) (i := ins.length) (j := j) (by omega) (by omega)
      rw [update_of_ne hne, update_of_ne hne, getElem?_append_left (by omega)]
      exact hH.slot j h1 (by omega)
  · rw [length_append, length_singleton]
    by_cases hi : y = ins.length % N
    · have := hH.taken.length_le
      exact ⟨ins.length, by omega, by omega, hi.symm⟩
    · rw [update_of_ne hi] at hy
      obtain ⟨j, h1, h2, h3⟩ := hH.item y hy
      exact ⟨j, h1, by omega, h3⟩

theorem Held.pop (hlt : tk.length < ins.length) (hN : ins.length ≤ tk.length + N) :
    Held N b (update h (tk.length % N) false) ins (tk ++ [b (tk.length % N)]) := by
  obtain ⟨hv, -⟩ := hH.slot _ (Nat.le_refl _) hlt
  refine ⟨?_, fun j h1 h2 => ?_, fun y hy => ?_⟩
  · rw [prefix_iff_eq_take, length_append, length_singleton, take_add_one, hv,
      ← prefix_iff_eq_take.mp hH.taken]
    rfl
  · rw [length_append, length_singleton] at h1
    have hne := slots_apart (N := N) (i := j) (j := tk.length) (by omega) (by omega)
    rw [update_of_ne hne.symm]
    exact hH.slot j (by omega) h2
  · rw [length_append, length_singleton]
    by_cases hi : y = tk.length % N
    · rw [hi, update_self] at hy
      cases hy
    · rw [update_of_ne hi] at hy
      obtain ⟨j, h1, h2, h3⟩ := hH.item y hy
      have : j ≠ tk.length := fun he => hi (by rw [← h3, he])
      exact ⟨j, by omega, h2, h3⟩

end

/-- With `i` items inserted and `o` taken: an item that is in no semaphore is in the hands of a thread. -/
structure PcCount (N m e f a b i o : Nat) (t : (PcStage × Int → Bool) → Nat) : Prop where
  mutex : m + t (stageIn [.store]) + t (stageIn [.advanceIn]) + t (stageIn [.take]) +
    t (stageIn [.advanceOut]) + t (stageIn [.unlockIn, .unlockOut]) = 1
  full : o + f + t (stageIn [.advanceIn, .unlockIn, .upFull]) + t (stageIn [.lockOut, .take]) = i
  empty : i + e + t (stageIn [.lockIn, .store]) + t (stageIn [.advanceOut, .unlockOut, .upEmpty]) = o + N
  inn : t (stageIn [.advanceIn]) = 0 → a = i % N
  next : t (stageIn [.advanceIn]) = 1 → (a + 1) % N = i % N
  out : t (stageIn [.advanceOut]) = 0 → b = o % N
  passed : t (stageIn [.advanceOut]) = 1 → (b + 1) % N = o % N

structure Buffer.Inv (N : Nat) (d : Buffer) (t : (PcStage × Int → Bool) → Nat) : Prop where
  count : PcCount N d.mutex d.empty d.full d.inn d.out d.inserted.length d.taken.length t
  held : Held N d.buffer d.holds d.inserted d.taken

theorem Buffer.Inv.turn
    (h : d.Inv N t) (hc : pcCode N x i k d = some (d', k'))
    (ht : ∀ p, (p k).toNat ≤ t p ∧ t' p + (p k).toNat = t p + (p k').toNat) : d'.Inv N t' := by
  obtain ⟨⟨h1, h2, h3, h4, h5, h6, h7⟩, hH⟩ := h
  have a1 := ht (stageIn [.store])
  have a2 := ht (stageIn [.advanceIn])
  have a3 := ht (stageIn [.take])
  have a4 := ht (stageIn [.advanceOut])
  have a5 := ht (stageIn [.unlockIn, .unlockOut])
  have a6 := ht (stageIn [.advanceIn, .unlockIn, .upFull])
  have a7 := ht (stageIn [.lockOut, .take])
  have a8 := ht (stageIn [.lockIn, .store])
  have a9 := ht (stageIn [.advanceOut, .unlockOut, .upEmpty])
  clear ht
  obtain ⟨k, y⟩ := k
  cases k with
  | store =>
    cases hc
    simp [stageIn, among] at a1 a2 a3 a4 a5 a6 a7 a8 a9
    have hi := h4 (by omega)
    have hn : (d.inn + 1) % N = (d.inserted.length + 1) % N := by rw [hi, Nat.mod_add_mod]
    refine ⟨?_, hi ▸ hH.push (by omega) y⟩
    simp only [length_append, length_singleton]
    constructor <;> omega
  | take =>
    cases hc
    simp [stageIn, among] at a1 a2 a3 a4 a5 a6 a7 a8 a9
    have ho := h6 (by omega)
    have hn : (d.out + 1) % N = (d.taken.length + 1) % N := by rw [ho, Nat.mod_add_mod]
    refine ⟨?_, ho ▸ hH.pop (by omega) (by omega)⟩
    simp only [length_append, length_singleton]
    constructor <;> omega
  | produce | lockIn | consume | lockOut =>
    obtain ⟨v, hv, he⟩ := Option.map_eq_some_iff.mp hc
    have := down_eq hv
    cases he
    simp [stageIn, among] at a1 a2 a3 a4 a5 a6 a7 a8 a9
    refine ⟨?_, hH⟩
    dsimp only
    constructor <;> omega
  | _ =>
    cases hc
    simp [stageIn, among] at a1 a2 a3 a4 a5 a6 a7 a8 a9
    refine ⟨?_, hH⟩
    dsimp only
    constructor <;> omega

theorem bounded_buffer (n producers consumers : Nat) (turns : List (Nat × Int)) :
    ∃ d ks, turns.foldl (turn (pcCode (n + 1))) (pcInit (n + 1) producers consumers) = ⟨d, ks⟩ ∧
      (∀ x, (.store, x) ∈ ks → d.holds d.inn = false) ∧ (∀ x, (.take, x) ∈ ks → d.holds d.out = true) ∧
      d.taken <+: d.inserted := by
  have h0 : ∀ p : PcStage × Int → Bool, p (.produce, 0) = false → p (.consume, 0) = false →
      (pcInit (n + 1) producers consumers).points.countP p = 0 := by
    intro p h1 h2
    simp [pcInit, countP_replicate, h1, h2]
  have hinit : (pcInit (n + 1) producers consumers).data.Inv (n + 1)
      (pcInit (n + 1) producers consumers).points.countP := by
    refine ⟨?_, nil_prefix, nofun, nofun⟩
    constructor <;> simp [h0, stageIn, among] <;> simp [pcInit]
  have hinv : (turns.foldl (turn (pcCode (n + 1))) (pcInit (n + 1) producers consumers)).data.Inv (n + 1) _ :=
    inv_turns Buffer.Inv.turn turns hinit
  obtain ⟨⟨h1, h2, h3, h4, h5, h6, h7⟩, hH⟩ := hinv
  refine ⟨_, _, rfl, fun x hx => ?_, fun x hx => ?_, hH.taken⟩
  · have a1 := countP_pos_iff.mpr ⟨_, hx, (rfl : stageIn [.store] (.store, x) = true)⟩
    have a2 := countP_pos_iff.mpr ⟨_, hx, (rfl : stageIn [.lockIn, .store] (.store, x) = true)⟩
    rw [h4 (by omega)]
    exact hH.vacant (by omega)
  · have a1 := countP_pos_iff.mpr ⟨_, hx, (rfl : stageIn [.take] (.take, x) = true)⟩
    have a2 := countP_pos_iff.mpr ⟨_, hx, (rfl : stageIn [.lockOut, .take] (.take, x) = true)⟩
    rw [h6 (by omega)]
    exact (hH.slot _ (Nat.le_refl _) (by omega)).2

end Xv6
