import Xv6.Blind
import Xv6.UserAddr

/-!
# Files that a process does not read

A process that faults in no page of a file learns nothing of what the file
holds.
-/

namespace Xv6

open Hoare

def Sys.hide (ip : Nat) (d : Nat → UInt8) (s : Sys) : Sys := s.setInode ip fun i => { i with data := d }

def Away (S : Nat → Prop) (ip : Nat) (s : Sys) : Prop := ∀ f, S f → (s.file f).ip ≠ ip

section
variable {S : Nat → Prop} {ip jp : Nat} {d : Nat → UInt8} {lk : Lock} {chan : Chan} {α : Type}

abbrev Unseen (S : Nat → Prop) (ip : Nat) (d : Nat → UInt8) (x : F α) : Prop := Blind (Away S ip) (Sys.hide ip d) x

theorem unseen_set {c : Sys → Prop} [DecidablePred c] {g : Sys → Sys} {e : SysStop} {y : F α}
    (hc : ∀ s, c (s.hide ip d) ↔ c s)
    (hg : ∀ s, g (s.hide ip d) = (g s).hide ip d) (hS : ∀ s, Away S ip s → Away S ip (g s)) (hy : Unseen S ip d y) :
    Unseen S ip d (do let s ← get; if c s then throw e else do set (g s); y) := fun s h => by
  change (if c (s.hide ip d) then throw e else do set (g (s.hide ip d)); y : F α) (s.hide ip d) =
    ((if c s then throw e else do set (g s); y : F α) s).map _ ∧
      ∀ a s', (if c s then throw e else do set (g s); y : F α) s = .ok (a, s') → _
  simp only [hc, hg]
  split
  · exact ⟨rfl, by rintro _ _ ⟨⟩⟩
  · exact hy (g s) (hS s h)

theorem unseen_acquire : Unseen S ip d (acquire lk) := by
  have h := @unseen_set S ip d _ (fun s => lk ∈ s.held) _ (fun s => { s with held := lk :: s.held }) .acquire _
    (fun _ => Iff.rfl)
    (fun _ => rfl) (fun _ => id) (.pure ())
  exact h

theorem unseen_release : Unseen S ip d (release lk) := by
  have h := @unseen_set S ip d _ (fun s => lk ∉ s.held) _ (fun s => { s with held := s.held.erase lk }) .release _
    (fun _ => Iff.rfl) (fun _ => rfl) (fun _ => id) (.pure ())
  simp only [bind_pure_unit, ite_not] at h
  exact h

theorem unseen_setRun {p : Nat} {f : Run → Run} : Unseen S ip d (modify fun t => t.setRun p f) :=
  .modify (fun _ => rfl) fun _ => id

theorem unseen_sleep : Unseen S ip d (sleep chan lk) :=
  .get (fun _ => rfl) fun _ _ => .bind unseen_acquire fun _ => .bind unseen_release fun _ => .bind unseen_setRun fun _ =>
    .bind (.get (fun _ => rfl) fun _ _ => .ite (.throw _) (.pure _)) fun _ => .bind unseen_setRun fun _ =>
      .bind unseen_release fun _ => unseen_acquire

theorem unseen_wakeup : Unseen S ip d (wakeup chan) := by
  refine .forN (fun i => ?_) _
  exact .get (fun _ => rfl) fun _ _ => .ite (.pure _) (.bind unseen_acquire fun _ => .bind unseen_setRun fun _ =>
    unseen_release)

theorem unseen_mustWait : Unseen S ip d mustWait := fun _ h => ⟨rfl, by rintro _ _ ⟨⟩; exact h⟩

theorem unseen_disk : Unseen S ip d disk :=
  .bind unseen_mustWait fun _ => .ite (.bind unseen_acquire fun _ => .bind unseen_sleep fun _ => unseen_release) (.pure _)

theorem unseen_balloc : Unseen S ip d balloc := by
  refine .get (fun s => rfl) fun s _ => .bind unseen_disk fun _ => .ite (.pure _)
    (.ite (.throw _) (.bind ?_ fun _ => .pure _))
  exact .modify (fun _ => rfl) fun _ => id

theorem unseen_filedup {f : Nat} : Unseen S ip d (filedup f) := by
  refine .bind unseen_acquire fun _ => unseen_set (fun _ => Iff.rfl) (fun _ => rfl) (fun s h g hg => ?_) unseen_release
  by_cases hx : g = f
  · rw [hx]; simpa [Sys.setFile] using h f (hx ▸ hg)
  · simpa [Sys.setFile, hx] using h g hg

section
variable (hne : jp ≠ ip)
include hne

@[simp] theorem Sys.hide_inode (s : Sys) : (s.hide ip d).inode jp = s.inode jp := Function.update_of_ne hne _ _

theorem unseen_setInode (f : Inode → Inode) : Unseen S ip d (modify fun t => t.setInode jp f) := by
  refine .modify (fun s => ?_) fun _ => id
  unfold Sys.setInode
  rw [Sys.hide_inode hne]
  unfold Sys.hide Sys.setInode
  dsimp only
  rw [Function.update_of_ne hne.symm, Function.update_comm hne]

theorem unseen_acquiresleep {shared : Bool} : Unseen S ip d (acquiresleep jp shared) := by
  have hlock := @unseen_setInode S ip jp d hne fun i => { i with locked := true }
  refine .bind unseen_acquire fun _ => .bind (.ite unseen_mustWait (.pure _)) fun w => ?_
  refine .get (fun s => by simp [hne]) fun s _ => .ite (.bind unseen_sleep fun _ => .throw _) (.ite ?_ ?_)
  · exact .bind unseen_sleep fun _ => .bind hlock fun _ => unseen_release
  · exact .bind hlock fun _ => unseen_release

theorem unseen_ilock : Unseen S ip d (ilock jp) := by
  refine .get (fun s => by simp [hne]) fun s _ => .ite (.throw _) (.bind (unseen_acquiresleep hne) fun _ => ?_)
  refine .get (fun s => by simp [hne]) fun s _ => .ite (.pure _) (.bind unseen_disk fun _ => ?_)
  refine .bind (unseen_setInode hne _) fun _ => ?_
  exact .get (fun s => by simp [hne]) fun s _ => .ite (.throw _) (.pure _)

theorem unseen_iunlock : Unseen S ip d (iunlock jp) := by
  refine .bind (.bind unseen_acquire fun _ => ?_) fun mine => ?_
  · exact .get (fun s => by simp [hne]) fun s _ => .bind unseen_release fun _ => .pure _
  refine .get (fun s => by simp [hne]) fun s _ => .ite (.bind unseen_acquire fun _ => ?_) (.throw _)
  exact .bind (unseen_setInode hne _) fun _ => .bind unseen_wakeup fun _ => unseen_release

theorem unseen_mapBlock {bn : Nat} : Unseen S ip d (mapBlock jp bn) := by
  refine .get (fun s => by simp [hne]) fun s _ => .ite (.pure _) (.bind unseen_balloc fun _ => ?_)
  exact .ite (.bind (unseen_setInode hne _) fun _ => .pure _) (.pure _)

theorem unseen_bmap {bn : Nat} : Unseen S ip d (bmap jp bn) := by
  refine .ite (unseen_mapBlock hne)
    (.ite (.bind ?_ fun _ => .ite (.bind unseen_disk fun _ => unseen_mapBlock hne) (.pure _)) (.throw _))
  refine .get (fun s => by simp [hne]) fun s _ => .ite (.pure _) (.bind unseen_balloc fun _ => ?_)
  exact .ite (.bind (unseen_setInode hne _) fun _ => .pure _) (.pure _)

theorem unseen_readLoop : ∀ fuel off n, Unseen S ip d (readLoop jp fuel off n)
  | 0, _, _ => .pure _
  | fuel + 1, off, n => by
    refine .ite (.pure _) (.bind (unseen_bmap hne) fun _ => .ite (.bind unseen_disk fun _ => ?_) (.pure _))
    exact .get (fun s => by simp [hne]) fun s _ => .bind (unseen_readLoop fuel _ _) fun _ => .pure _

theorem unseen_readi {off n : Nat} : Unseen S ip d (readi jp off n) := by
  exact .get (fun s => by simp [hne]) fun s _ => .ite (.pure _) (unseen_readLoop hne _ _ _)

end

abbrev UnseenV (S : Nat → Prop) (ip : Nat) (d : Nat → UInt8) (x : V α) : Prop :=
  Blind (fun s => Away S ip s.sys) (fun s => { s with sys := s.sys.hide ip d }) x

theorem unseen_onMem (x : M α) : UnseenV S ip d (onMem x) := .apart (fun _ => rfl) (fun _ _ => rfl) fun _ _ => id

theorem unseen_onSys {x : F α} (h : Unseen S ip d x) : UnseenV S ip d (onSys x) :=
  .zoom h (fun _ => id) (fun _ _ _ => id) (fun _ => rfl) fun _ _ => rfl

abbrev Kernel.hide (ip : Nat) (d : Nat → UInt8) (k : Kernel) : Kernel := { k with sys := k.sys.hide ip d }

theorem unseen_onV {x : V α} (h : UnseenV S ip d x) : Blind (fun k => Away S ip k.sys) (Kernel.hide ip d) (onV x) :=
  .zoom h (fun _ => id) (fun _ _ _ => id) (fun _ => rfl) fun _ _ => rfl

theorem unseen_readPage {v : Vma} {va f mem : Nat} (hf : S f) : UnseenV S ip d (readPage v va f mem) := by
  refine .get (fun _ => rfl) fun s hs => .bind (unseen_onSys (unseen_ilock (hs f hf))) fun _ => ?_
  refine .get (fun t => by simp only [Sys.hide_inode (hs f hf)]) fun t _ => .ite ?_ ?_
  · exact .bind (unseen_onSys (unseen_readi (hs f hf))) fun _ => .bind (unseen_onMem _) fun _ =>
      .bind (unseen_onSys (unseen_iunlock (hs f hf))) fun _ => .pure _
  · exact .bind (unseen_onSys (unseen_iunlock (hs f hf))) fun _ => .pure _

def Proc.FromFile (p : Proc) (va : Nat) (read : Bool) (f : Nat) : Prop := p.sz ≤ va ∧ ∃ v, p.vmaAt va = some v ∧
    v.f = some f ∧
  (if read then test v.prot (PROT_READ ||| PROT_EXEC) else test v.prot PROT_WRITE) = true

variable [Image] {p : Proc} {r va : Nat} {read : Bool}

theorem unseen_vmfaultVma {v : Vma} (hv : ∀ f, v.f = some f →
    (if read then test v.prot (PROT_READ ||| PROT_EXEC) else test v.prot PROT_WRITE) = true → S f) :
    UnseenV S ip d (vmfaultVma v r va read) := by
  unfold vmfaultVma fillPage
  by_cases hprot : (if read then test v.prot (PROT_READ ||| PROT_EXEC) else test v.prot PROT_WRITE) = true
  swap
  · rw [if_pos hprot]; exact .pure _
  rw [if_neg (not_not.mpr hprot)]
  refine .bind (unseen_onMem _) fun o => ?_
  cases o with
  | none => exact .pure _
  | some mem =>
    refine .bind (unseen_onMem _) fun _ => .bind ?_ fun _ => .ite (unseen_onMem _) (.bind (unseen_onMem _) fun _ => .pure _)
    cases hf : v.f with
    | none => exact .pure _
    | some f => exact unseen_readPage (hv f hf hprot)

theorem unseen_vmfault (h : ∀ f, p.FromFile (PGROUNDDOWN va) read f → S f) : UnseenV S ip d (vmfault p r va read) := by
  have hnew : UnseenV S ip d (vmfaultNew p r (PGROUNDDOWN va) read) := by
    unfold vmfaultNew
    split
    · exact unseen_onMem _
    · rename_i hsz
      cases hv : p.vmaAt (PGROUNDDOWN va) with
      | none => exact .pure _
      | some v => exact unseen_vmfaultVma fun f hf hprot => h f ⟨not_lt.mp hsz, v, hv, hf, hprot⟩
  refine .bind (unseen_onMem _) fun o => ?_
  cases o with
  | none => exact hnew
  | some q => exact .bind (unseen_onMem _) fun e => .ite (.ite (unseen_onMem _) (.pure _)) hnew

theorem unseen_userPage (h : ∀ f, p.FromFile (PGROUNDDOWN va) read f → S f) : UnseenV S ip d (userPage p r va read) := by
  refine .bind (unseen_onMem _) fun o => ?_
  cases o with
  | none => exact unseen_vmfault h
  | some pa => exact .pure _

theorem unseen_copyinLoop : ∀ fuel {srcva len : Nat}, srcva < 2 ^ 64 →
    (∀ j < len, ∀ f, p.FromFile (PGROUNDDOWN ((srcva + j) % 2 ^ 64)) true f → S f) →
    UnseenV S ip d (copyinLoop p r fuel srcva len)
  | 0, _, _, _, _ => .pure _
  | fuel + 1, srcva, len, hlt, h => by
    rw [copyinLoop]
    split
    · exact .pure _
    rename_i hlen
    have hdown : PGROUNDDOWN (PGROUNDDOWN srcva) = PGROUNDDOWN srcva := by unfold PGROUNDDOWN; lia
    refine .bind (unseen_userPage fun f hf => h 0 (by omega) f ?_) fun o => ?_
    · rw [hdown] at hf
      rwa [add_zero, Nat.mod_eq_of_lt hlt]
    cases o with
    | none => exact .pure _
    | some pa =>
      refine .bind (unseen_onMem _) fun bs =>
        .bind (unseen_copyinLoop fuel (Nat.mod_lt _ (by decide)) fun j hj f hf => ?_) fun _ => .pure _
      -- more is left only after the whole rest of the page
      refine h (PGSIZE - (srcva - PGROUNDDOWN srcva) + j) (by omega) f ?_
      have hle : PGROUNDDOWN srcva ≤ srcva ∧ srcva < PGROUNDDOWN srcva + PGSIZE := by unfold PGROUNDDOWN; lia
      rw [Nat.mod_add_mod] at hf
      rwa [show srcva + (PGSIZE - (srcva - PGROUNDDOWN srcva) + j) = PGROUNDDOWN srcva + PGSIZE + j by omega]

/-! ## What user code does -/

/-- The frame of `va` for user code; an entry to write but not to read is reserved. -/
def translate (pagetable va : Nat) (perm : Pte) : M (Option Nat) := do
  if MAXVA ≤ va then return none
  else
    match ← walk pagetable va false with
    | none => return none
    | some q =>
      let pte ← getPte q
      if pte.has PTE_V ∧ pte.has PTE_U ∧ pte.has perm ∧ (pte.has PTE_W → pte.has PTE_R) then return some (PTE2PA pte)
      else return none

/-- An access to `va`, with the fault it takes; `none` if that kills the process. -/
def touch (p : Proc) (pagetable va : Nat) (perm : Pte) (read : Bool) : V (Option Nat) := do
  match ← onMem (translate pagetable va perm) with
  | some pa => return some pa
  | none =>
    match ← vmfault p pagetable va read with
    | none => return none
    | some _ => onMem (translate pagetable va perm)

def readByte (p : Proc) (pagetable va : Nat) (perm : Pte) : V (Option (List UInt8)) := do
  match ← touch p pagetable va perm true with
  | none => return none
  | some pa => return some (← onMem (readBytes pa (va % PGSIZE) 1))

def writeByte (p : Proc) (pagetable va : Nat) (b : UInt8) : V (Option (List UInt8)) := do
  match ← touch p pagetable va PTE_W false with
  | none => return none
  | some pa =>
    onMem (writeBytes pa (va % PGSIZE) [b])
    return some []

inductive UserAct
  | mmap (addr len prot flags fd off : Nat)
  | load (va : Nat)
  | store (va : Nat) (b : UInt8)
  | fetch (va : Nat)
  /-- A call that copies user memory into the kernel. -/
  | copyin (va len : Nat)

def inUser (x : Proc → Nat → V α) : K α := do
  let me ← myproc
  let p ← getProc me
  let pagetable ← tableOf me
  onV (x p pagetable)

/-- The bytes that the process or the kernel gets; `none` when the process is killed. -/
def UserAct.run : UserAct → K (Option (List UInt8))
  | .mmap addr len prot flags fd off => do
    let _ ← sys_mmap addr len prot flags fd off
    return some []
  | .load va => inUser fun p pagetable => readByte p pagetable va PTE_R
  | .store va b => inUser fun p pagetable => writeByte p pagetable va b
  | .fetch va => inUser fun p pagetable => readByte p pagetable va PTE_X
  | .copyin va len => inUser fun p pagetable => do
    let (bs, _) ← Xv6.copyin p pagetable (va % 2 ^ 64) len
    return some bs

def userRun : List UserAct → K (List (List UInt8))
  | [] => return []
  | a :: l => do
    match ← a.run with
    | none => return []
    | some bs => return bs :: (← userRun l)

def UserAct.touches : UserAct → Nat → Prop
  | .mmap .., _ => False
  | .load va, x | .store va _, x | .fetch va, x => x = va
  | .copyin va len, x => ∃ j < len, x = (va % 2 ^ 64 + j) % 2 ^ 64

def UserAct.reads : UserAct → Bool
  | .store .. => false
  | _ => true

def UserAct.Avoids (a : UserAct) (ip : Nat) (k : Kernel) : Prop :=
  ∀ x, a.touches x → ∀ f, (k.procs k.sys.cur).FromFile (PGROUNDDOWN x) a.reads f → (k.sys.file f).ip ≠ ip

def RunAvoids (ip : Nat) : List UserAct → Kernel → Prop
  | [], _ => True
  | a :: l, k => a.Avoids ip k ∧ ∀ bs k', a.run k = .ok (some bs, k') → RunAvoids ip l k'

theorem unseen_touch {perm : Pte} (h : ∀ f, p.FromFile (PGROUNDDOWN va) read f → S f) :
    UnseenV S ip d (touch p r va perm read) := by
  refine .bind (unseen_onMem _) fun o => ?_
  cases o with
  | some pa => exact .pure _
  | none =>
    refine .bind (unseen_vmfault h) fun o => ?_
    cases o with
    | none => exact .pure _
    | some pa => exact unseen_onMem _

theorem unseen_readByte {perm : Pte} (h : ∀ f, p.FromFile (PGROUNDDOWN va) true f → S f) :
    UnseenV S ip d (readByte p r va perm) := by
  refine .bind (unseen_touch h) fun o => ?_
  cases o with
  | none => exact .pure _
  | some pa => exact .bind (unseen_onMem _) fun _ => .pure _

theorem unseen_writeByte {b : UInt8} (h : ∀ f, p.FromFile (PGROUNDDOWN va) false f → S f) :
    UnseenV S ip d (writeByte p r va b) := by
  refine .bind (unseen_touch h) fun o => ?_
  cases o with
  | none => exact .pure _
  | some pa => exact .bind (unseen_onMem _) fun _ => .pure _

omit [Image] in
theorem agrees_inUser {k : Kernel} {x : Proc → Nat → V α} (h : ∀ r, UnseenV S ip d (x (k.procs k.sys.cur) r))
    (hk : Away S ip k.sys) : Agrees (Kernel.hide ip d) (inUser x) k := by
  refine .bind rfl fun me k1 h1 => ?_
  cases h1
  refine .bind rfl fun p k2 h2 => ?_
  cases h2
  have ht : ∀ k', tableOf k.sys.cur k' =
      match (k'.procs k.sys.cur).pagetable with | none => .error (.mem .wild) | some r => .ok (r, k') := fun k' => by
    change (match (k'.procs k.sys.cur).pagetable with | none => throw (.mem .wild) | some r => return r : K Nat) k' = _
    cases (k'.procs k.sys.cur).pagetable <;> rfl
  refine .bind ?_ fun r k3 h3 => ?_
  · unfold Agrees
    rw [ht, ht]
    cases hr : (k.procs k.sys.cur).pagetable <;> rfl
  · rw [ht] at h3
    split at h3
    · cases h3
    · cases h3
      exact (unseen_onV (h _) _ hk).1

omit [Image] in
theorem agrees_mmap {k : Kernel} {addr len prot flags fd off : Nat} :
    Agrees (Kernel.hide ip d) (sys_mmap addr len prot flags fd off) k := by
  have h : Blind (fun k => Away (fun _ => False) ip k.sys) (Kernel.hide ip d) (sys_mmap addr len prot flags fd off) := by
    refine .bind (.get (fun _ => rfl) fun _ _ => .pure _) fun me => .get (fun _ => rfl) fun k _ => ?_
    refine .ite (.pure _) (.ite (.pure _) (.ite (.pure _) (.ite (.pure _) (.ite (.pure _) ?_))))
    cases (k.procs me).fd fd with
    | none => exact .pure _
    | some f =>
      refine .ite (.pure _) (.ite (.pure _) (.ite (.pure _) ?_))
      cases vma_alloc_slot (k.procs me) with
      | none => exact .pure _
      | some idx =>
        refine .ite (.pure _) (.bind (unseen_onV (unseen_onSys unseen_filedup)) fun _ => .bind ?_ fun _ => .pure _)
        exact .modify (fun _ => rfl) fun _ => id
  exact (h k fun _ => False.elim).1

/-- Whatever the file `ip` holds, a run that faults in no page of it goes the same way. -/
theorem unfaulted_file_unseen {k : Kernel} {l : List UserAct} (h : RunAvoids ip l k) :
    userRun l (k.hide ip d) = (userRun l k).map fun p => (p.1, p.2.hide ip d) := by
  have hact : ∀ {a : UserAct} {k : Kernel}, a.Avoids ip k → Agrees (Kernel.hide ip d) a.run k := fun {a k} ha => by
    have hk : Away (fun f => (k.sys.file f).ip ≠ ip) ip k.sys := fun _ => id
    cases a with
    | mmap => exact agrees_mmap.bind fun _ _ _ => rfl
    | load va => exact agrees_inUser (fun r => unseen_readByte (ha va rfl)) hk
    | store va b => exact agrees_inUser (fun r => unseen_writeByte (ha va rfl)) hk
    | fetch va => exact agrees_inUser (fun r => unseen_readByte (ha va rfl)) hk
    | copyin va len =>
      refine agrees_inUser (fun r => .bind ?_ fun _ => .pure _) hk
      exact unseen_copyinLoop _ (Nat.mod_lt _ (by decide)) fun j hj => ha _ ⟨j, hj, rfl⟩
  change Agrees (Kernel.hide ip d) (userRun l) k
  induction l generalizing k with
  | nil => rfl
  | cons a l ih =>
    refine (hact h.1).bind fun o k' hk' => ?_
    cases o with
    | none => rfl
    | some bs => exact (ih (h.2 bs k' hk')).bind fun _ _ _ => rfl

end

/-- A process that has mapped the file loads from its heap. -/
theorem unfaulted_file_unseen_heap : ∃ k₀ tr k, @Booted (lastPages 30) Config.small k₀ ∧
    @Reaches (lastPages 30) (fun _ _ => True) k₀ tr k ∧ ((k.procs 0).vmas 0).used = true ∧
    @userRun (lastPages 30) [.load 0] ((k.switch 0).hide 2 fun _ => 9) =
      (@userRun (lastPages 30) [.load 0] (k.switch 0)).map fun p => (p.1, p.2.hide 2 fun _ => 9) := by
  obtain ⟨k₀, tr, k, hb, ht, hf⟩ := reaches_last Config.small_ok
    [(0, .opens 2 2), (0, .mmap 0 4096 3 2 0 0), (0, .sbrk 4096 true)]
    (fun _ k => decide (((k.procs 0).vmas 0).used = true ∧ 0 < (k.procs 0).sz)) (by decide +kernel)
  obtain ⟨hu, hsz⟩ := of_decide_eq_true hf
  refine ⟨k₀, tr, k, hb, ht, hu, @unfaulted_file_unseen 2 (fun _ => 9) (lastPages 30) (k.switch 0) [.load 0]
    ⟨?_, fun _ _ _ => trivial⟩⟩
  intro x hx f hfile
  cases hx
  exact absurd hfile.1 (Nat.not_le.mpr hsz)

/-- A process that may not read a file maps it to be executed, and passes an address in the mapping to the kernel. -/
theorem unreadable_file_copied : ∃ k₀ tr k l k₁ k₂, @Booted (lastPages 30) Config.small k₀ ∧
    @Reaches (lastPages 30) (fun _ _ => True) k₀ tr k ∧ k.ready 0 ∧
    (∀ fd < NOFILE, ∀ f, (k.procs 0).ofile fd = some f → (k.sys.file f).ip = 2 → (k.sys.file f).readable = false) ∧
    @userRun (lastPages 30) l (k.switch 0) = .ok ([[], [7]], k₁) ∧
    @userRun (lastPages 30) l ((k.switch 0).hide 2 fun _ => 9) = .ok ([[], [9]], k₂) := by
  obtain ⟨k₀, tr, k, hb, ht, hf⟩ := reaches_last Config.small_ok [(0, .opens 2 1)] (fun _ k => decide (k.ready 0) &&
      ((List.range NOFILE).all fun fd => ((k.procs 0).ofile fd).all fun f => !(k.sys.file f).readable) &&
      okAnd (@userRun (lastPages 30) [.mmap 0 4096 4 2 0 0, .copyin 274877632512 1] (k.switch 0))
        (fun o _ => decide (o = [[], [7]])) &&
      okAnd (@userRun (lastPages 30) [.mmap 0 4096 4 2 0 0, .copyin 274877632512 1] ((k.switch 0).hide 2 fun _ => 9))
        fun o _ => decide (o = [[], [9]])) (by decide +kernel)
  simp only [Bool.and_eq_true, decide_eq_true_eq, List.all_eq_true, List.mem_range] at hf
  obtain ⟨⟨⟨hi, hfd⟩, h1⟩, h2⟩ := hf
  obtain ⟨o₁, k₁, hr₁, h1⟩ := of_okAnd h1
  obtain ⟨o₂, k₂, hr₂, h2⟩ := of_okAnd h2
  rw [of_decide_eq_true h1] at hr₁
  rw [of_decide_eq_true h2] at hr₂
  refine ⟨k₀, tr, k, _, k₁, k₂, hb, ht, hi, fun fd hlt f hf _ => ?_, hr₁, hr₂⟩
  have := hfd fd hlt
  rw [hf] at this
  simpa using this

end Xv6
