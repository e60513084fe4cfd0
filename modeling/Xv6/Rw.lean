import Xv6.Crew

/-!
# Readers and writers

`read_shared_data` and `write_shared_data` of `user/rw.c`, each repeated by a
crew of readers and of writers. A point stands for the statement that is next.
-/

namespace Xv6

open Crew

/-- The points of a reader, from `sem_down(&mutex)` on, and of a writer. -/
inductive RwPc
  | enter | count | first | lockRw | entered | lockPrint | print | unlockPrint | leave | uncount | last | unlockRw | left
  | writer | write | printWrite | wrote
  deriving DecidableEq

structure Rw where
  mutex : Nat
  rw_mutex : Nat
  read_count : Int
  shared_data : Int
  print_lock : Bool
  /-- What was printed: the value, after the reader's number. -/
  printed : List (Option Nat × Int)

def rwCode (_ : Unit) (tid : Nat) : RwPc → Rw → Option (Rw × RwPc)
  | .enter, d => (down d.mutex).map fun v => ({ d with mutex := v }, .count)
  | .count, d => some ({ d with read_count := d.read_count + 1 }, .first)
  | .first, d => if d.read_count = 1 then some (d, .lockRw) else some (d, .entered)
  | .lockRw, d => (down d.rw_mutex).map fun v => ({ d with rw_mutex := v }, .entered)
  | .entered, d => some ({ d with mutex := d.mutex + 1 }, .lockPrint)
  | .lockPrint, d => if d.print_lock then none else some ({ d with print_lock := true }, .print)
  | .print, d => some ({ d with printed := d.printed ++ [(some tid, d.shared_data)] }, .unlockPrint)
  | .unlockPrint, d => some ({ d with print_lock := false }, .leave)
  | .leave, d => (down d.mutex).map fun v => ({ d with mutex := v }, .uncount)
  | .uncount, d => some ({ d with read_count := d.read_count - 1 }, .last)
  | .last, d => if d.read_count = 0 then some (d, .unlockRw) else some (d, .left)
  | .unlockRw, d => some ({ d with rw_mutex := d.rw_mutex + 1 }, .left)
  | .left, d => some ({ d with mutex := d.mutex + 1 }, .enter)
  | .writer, d => (down d.rw_mutex).map fun v => ({ d with rw_mutex := v }, .write)
  | .write, d => some ({ d with shared_data := d.shared_data + 1 }, .printWrite)
  | .printWrite, d => some ({ d with printed := d.printed ++ [(none, d.shared_data)] }, .wrote)
  | .wrote, d => some ({ d with rw_mutex := d.rw_mutex + 1 }, .writer)

def rwInit (readers writers : Nat) : State Rw RwPc :=
  ⟨⟨1, 1, 0, 0, false, []⟩, List.replicate readers .enter ++ List.replicate writers .writer⟩

/-- Between the `sem_down` and the `sem_up` of `rw_mutex`. -/
def RwPc.writing (k : RwPc) : Bool := among [.write, .printWrite, .wrote] k

def RwPc.reading (k : RwPc) : Bool := among [.entered, .lockPrint, .print, .unlockPrint, .leave, .uncount] k

/-- Between the increment and the decrement of `read_count`. -/
def RwPc.counted (k : RwPc) : Bool := among [.first, .lockRw] k || k.reading

/-- The readers hold `rw_mutex` together, from the first one's `sem_down` to the last one's `sem_up`. -/
structure RwInv (m rw : Nat) (n : Int) (t : (RwPc → Bool) → Nat) : Prop where
  mutex : m + t (among [.count, .entered, .uncount, .left]) + t (among [.first]) + t (among [.lockRw]) +
    t (among [.last]) + t (among [.unlockRw]) = 1
  counted : t RwPc.counted = t (among [.first]) + t (among [.lockRw]) + t RwPc.reading
  read_count : n = t RwPc.counted
  lock : 0 < t (among [.lockRw]) → n = 1
  unlock : 0 < t (among [.unlockRw]) → n = 0
  none : n = 0 → rw + t RwPc.writing + t (among [.last]) + t (among [.unlockRw]) = 1
  one : n = 1 → rw + t RwPc.writing = t (among [.first]) + t (among [.lockRw])
  more : 2 ≤ n → rw + t RwPc.writing = 0

def Rw.Inv (d : Rw) : ((RwPc → Bool) → Nat) → Prop := RwInv d.mutex d.rw_mutex d.read_count

theorem Rw.Inv.turn (h : d.Inv t)
    (hc : rwCode x i k d = some (d', k'))
    (ht : ∀ p, (p k).toNat ≤ t p ∧ t' p + (p k).toNat = t p + (p k').toNat) : d'.Inv t' := by
  obtain ⟨h1, h2, h3, h4, h5, h6, h7, h8⟩ := h
  have a1 := ht (among [.count, .entered, .uncount, .left])
  have a2 := ht (among [.first])
  have a3 := ht (among [.lockRw])
  have a4 := ht (among [.last])
  have a5 := ht (among [.unlockRw])
  have a6 := ht RwPc.counted
  have a7 := ht RwPc.reading
  have a8 := ht RwPc.writing
  clear ht
  cases k with
  | first | last | lockPrint =>
    simp only [rwCode] at hc
    split at hc <;> cases hc <;> simp [among, RwPc.counted, RwPc.reading, RwPc.writing] at a1 a2 a3 a4 a5 a6 a7 a8 <;>
      simp only [Rw.Inv] <;> constructor <;> omega
  | enter | lockRw | leave | writer =>
    obtain ⟨v, hv, he⟩ := Option.map_eq_some_iff.mp hc
    have := down_eq hv
    cases he
    simp [among, RwPc.counted, RwPc.reading, RwPc.writing] at a1 a2 a3 a4 a5 a6 a7 a8
    simp only [Rw.Inv]
    constructor <;> omega
  | _ =>
    cases hc
    simp [among, RwPc.counted, RwPc.reading, RwPc.writing] at a1 a2 a3 a4 a5 a6 a7 a8
    simp only [Rw.Inv]
    constructor <;> omega

theorem readers_writers (readers writers : Nat) (turns : List (Nat × Unit)) :
    ∃ d ks, turns.foldl (turn rwCode) (rwInit readers writers) = ⟨d, ks⟩ ∧ ks.countP RwPc.writing ≤ 1 ∧
      (0 < ks.countP RwPc.reading → ks.countP RwPc.writing = 0) ∧ d.read_count = ks.countP RwPc.counted ∧
      ((∀ k ∈ ks, k = .enter ∨ k = .writer) → d.rw_mutex = 1 ∧ d.mutex = 1) := by
  have h0 : ∀ {ks : List RwPc}, (∀ k ∈ ks, k = .enter ∨ k = .writer) → ∀ p : RwPc → Bool, p .enter = false →
      p .writer = false → ks.countP p = 0 := by
    intro ks hk p h1 h2
    refine List.countP_eq_zero.mpr fun k hks => ?_
    rcases hk k hks with rfl | rfl <;> simp [h1, h2]
  have hinit : (rwInit readers writers).data.Inv (rwInit readers writers).points.countP := by
    have hk : ∀ k ∈ (rwInit readers writers).points, k = .enter ∨ k = .writer := by
      simp [rwInit, or_imp, forall_and]
    constructor <;> simp [h0 hk, among, RwPc.counted, RwPc.reading, RwPc.writing] <;> simp [rwInit]
  have hinv : (turns.foldl (turn rwCode) (rwInit readers writers)).data.Inv _ := inv_turns Rw.Inv.turn turns hinit
  obtain ⟨h1, h2, h3, h4, h5, h6, h7, h8⟩ := hinv
  refine ⟨_, _, rfl, by omega, by omega, h3, fun hk => ?_⟩
  have hz := h0 hk
  rw [hz RwPc.counted rfl rfl] at h3
  rw [hz RwPc.writing rfl rfl, hz (among [.last]) rfl rfl, hz (among [.unlockRw]) rfl rfl] at h6
  rw [hz (among _) rfl rfl, hz (among [.first]) rfl rfl, hz (among [.lockRw]) rfl rfl, hz (among [.last]) rfl rfl,
    hz (among [.unlockRw]) rfl rfl] at h1
  exact ⟨h6 h3, h1⟩

end Xv6
