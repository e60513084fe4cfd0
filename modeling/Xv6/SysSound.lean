import Xv6.Sys

/-!
# What the functions below the system calls do

Each leaves the locks as it found them and changes no process's place in
its life (`SysRel`); those that only wait change no file or inode either
(`Still`). `hE` below is that the caller holds no lock, or that it may stop
because of one.
-/

namespace Xv6

open Hoare Function List

variable {s1 s2 s3 u : Sys} {bn : Nat}

structure SysRel (s s' : Sys) : Prop where
  held : s'.held = s.held
  cur : s'.cur = s.cur
  initproc : s'.initproc = s.initproc
  nextpid : s'.nextpid = s.nextpid
  unused : ∀ i, (s'.run i).state = .UNUSED ↔ (s.run i).state = .UNUSED
  zombie : ∀ i, (s'.run i).state = .ZOMBIE ↔ (s.run i).state = .ZOMBIE
  commit : s.committing = false → s'.committing = false

structure Still (s s' : Sys) : Prop extends SysRel s s' where
  file : s'.file = s.file
  inode : s'.inode = s.inode

def Alive (s : Sys) : Prop := (s.run s.cur).state ≠ .UNUSED ∧ (s.run s.cur).state ≠ .ZOMBIE

theorem SysRel.refl (s : Sys) : SysRel s s := ⟨rfl, rfl, rfl, rfl, fun _ => Iff.rfl, fun _ => Iff.rfl, id⟩

theorem SysRel.trans (h : SysRel s1 s2) (h' : SysRel s2 s3) : SysRel s1 s3 :=
  ⟨h'.1.trans h.1, h'.2.trans h.2, h'.3.trans h.3, h'.4.trans h.4, fun i => (h'.5 i).trans (h.5 i),
    fun i => (h'.6 i).trans (h.6 i), fun hc => h'.7 (h.7 hc)⟩

theorem Still.refl (s : Sys) : Still s s := ⟨SysRel.refl s, rfl, rfl⟩

theorem Still.trans (h : Still s1 s2) (h' : Still s2 s3) : Still s1 s3 :=
  ⟨h.toSysRel.trans h'.toSysRel, h'.file.trans h.file, h'.inode.trans h.inode⟩

theorem Alive.rel {s s' : Sys} (h : Alive s) (hr : SysRel s s') : Alive s' := by
  unfold Alive at h ⊢
  rw [hr.cur]
  exact ⟨fun hc => h.1 ((hr.unused _).mp hc), fun hc => h.2 ((hr.zombie _).mp hc)⟩

def LockOk (E : SysStop → Prop) : Prop := E .acquire ∧ E .schedLocks

/-- So is waiting for an inode that the process itself has locked; with a spinlock held `sched` does not let it. -/
def Stuck (s : Sys) (E : SysStop → Prop) : Prop := LockOk E ∧ (E .deadlock ∨ s.held ≠ [])

/-! ## Spinlocks, `sleep` and `wakeup` -/

def Sys.lock (s : Sys) (lk : Lock) : Sys := { s with held := lk :: s.held }

def Sys.unlock (s : Sys) (lk : Lock) : Sys := { s with held := s.held.erase lk }

section
variable {s s' : Sys} {lk : Lock}

theorem SysRel.mem (h : SysRel (s.lock lk) s') : lk ∈ s'.held := by
  rw [h.held]; exact mem_cons_self

theorem SysRel.unlock (h : SysRel (s.lock lk) s') : SysRel s (s'.unlock lk) := by
  refine ⟨?_, h.cur, h.initproc, h.nextpid, h.unused, h.zombie, h.commit⟩
  change s'.held.erase lk = s.held
  rw [h.held]; exact erase_cons_head ..

theorem Still.unlock (h : Still (s.lock lk) s') : Still s (s'.unlock lk) := ⟨h.toSysRel.unlock, h.file, h.inode⟩

theorem Alive.lock (h : Alive s) (lk : Lock) : Alive (s.lock lk) := h

end

variable {s : Sys} {E : SysStop → Prop} {Q : Unit → Sys → Prop} {f ip : Nat} {i : Inode} {lk : Lock} {t : Sys}

theorem wp_acquire (hE : lk ∈ s.held → E .acquire) (h : lk ∉ s.held → Q () (s.lock lk)) : wp (acquire lk) Q E s := by
  unfold acquire
  rw [wp_read]
  exact wp_ite (fun hc => wp_fail (hE hc)) fun hc => wp_put (h hc)

theorem wp_release (hm : lk ∈ s.held) (h : Q () (s.unlock lk)) :
    wp (release lk) Q E s := by
  unfold release
  simp only [wp_bind, wp_get, hm, if_true, wp_set]
  exact h

theorem setRun_still {p : Nat} {f : Run → Run}
    (h : (f (s.run p)).state = .UNUSED ↔ (s.run p).state = .UNUSED)
    (h' : (f (s.run p)).state = .ZOMBIE ↔ (s.run p).state = .ZOMBIE) : Still s (s.setRun p f) := by
  refine ⟨⟨rfl, rfl, rfl, rfl, fun i => ?_, fun i => ?_, id⟩, rfl, rfl⟩
  · unfold Sys.setRun
    by_cases hi : i = p
    · subst hi; simpa using h
    · simp [update_of_ne hi]
  · unfold Sys.setRun
    by_cases hi : i = p
    · subst hi; simpa using h'
    · simp [update_of_ne hi]

theorem wp_sleep {chan : Chan} {rest : List Lock} (hs : s.held = lk :: rest)
    (hA : Alive s) (hp : .proc s.cur ≠ lk) (hE : rest = [] ∨ LockOk E)
    (h : ∀ s', rest = [] → Still s s' → Q () s') : wp (sleep chan lk) Q E s := by
  unfold sleep
  simp only [wp_bind, wp_get]
  refine wp_acquire (fun hc => ?_) fun hn => ?_
  · rcases hE with rfl | hE
    · rw [hs, mem_singleton] at hc; exact absurd hc hp
    · exact hE.1
  have hlk : (Lock.proc s.cur :: s.held).erase lk = .proc s.cur :: rest := by
    rw [erase_cons_tail (by simpa using hp), hs, erase_cons_head]
  refine wp_release (by simp [Sys.lock, hs]) ?_
  simp only [wp_modify]
  unfold sched
  simp only [wp_bind, wp_get, Sys.setRun, Sys.lock, Sys.unlock, hlk, length_cons]
  refine wp_ite (fun hl => wp_fail ?_) fun hl => wp_ret ?_
  · rcases hE with rfl | hE
    · exact absurd rfl hl
    · exact hE.2
  have h0 : rest = [] := by simpa using hl
  refine wp_release (by simp) ?_
  refine wp_acquire (fun hc => by simp [Sys.unlock, h0] at hc) fun _ => h _ h0 ?_
  refine ⟨⟨by simp [Sys.lock, Sys.unlock, hs], rfl, rfl, rfl, fun i => ?_, fun i => ?_, id⟩, rfl, rfl⟩
  · simp only [Sys.lock, Sys.unlock]
    by_cases hi : i = s.cur
    · subst hi; simpa using hA.1
    · simp [update_of_ne hi]
  · simp only [Sys.lock, Sys.unlock]
    by_cases hi : i = s.cur
    · subst hi; simpa using hA.2
    · simp [update_of_ne hi]

theorem wake_state (chan : Chan) (r : Run) :
    ((r.wake chan).state = .UNUSED ↔ r.state = .UNUSED) ∧ ((r.wake chan).state = .ZOMBIE ↔ r.state = .ZOMBIE) := by
  unfold Run.wake
  split
  · rename_i h; simp [h.1]
  · exact ⟨Iff.rfl, Iff.rfl⟩

theorem wp_wakeup {chan : Chan} (hE : (∃ p < NPROC, p ≠ s.cur ∧ .proc p ∈ s.held) → E .acquire)
    (h : ∀ s', Still s s' → Q () s') :
    wp (wakeup chan) Q E s := by
  refine wp_post (wp_forN (fun _ s' => Still s s') (Still.refl s) fun p s1 hp hS => ?_) fun _ s' hS => h s' hS
  unfold wakeOne
  rw [wp_read]
  refine wp_ite (fun _ => wp_ret hS) fun hne => ?_
  simp only [wp_bind, wp_modify]
  refine wp_acquire (fun hc => hE ⟨p, hp, ?_, ?_⟩) fun _ => ?_
  · rw [← hS.cur]; exact hne
  · rw [← hS.held]; exact hc
  have hR : Still (s1.lock (.proc p)) ((s1.lock (.proc p)).setRun p (Run.wake chan)) :=
    setRun_still (wake_state chan _).1 (wake_state chan _).2
  exact wp_release hR.mem (hS.trans hR.unlock)

theorem wp_mustWait {Q : Bool → Sys → Prop} (h : ∀ b s', Still s s' → Q b s') : wp mustWait Q E s := by
  unfold mustWait
  simp only [wp_bind, wp_get, wp_set, wp_pure]
  exact h _ _ ⟨⟨rfl, rfl, rfl, rfl, fun _ => Iff.rfl, fun _ => Iff.rfl, id⟩, rfl, rfl⟩

theorem wp_disk (hA : Alive s) (hE : s.held = [] ∨ LockOk E) (h : ∀ s', Still s s' → Q () s') :
    wp disk Q E s := by
  refine wp_seq (wp_mustWait fun b s1 hS1 => wp_ite (fun _ => ?_) fun _ => wp_ret (h s1 hS1))
  have hE1 : s1.held = [] ∨ LockOk E := by rw [hS1.held]; exact hE
  simp only [wp_bind]
  refine wp_acquire (fun hc => ?_) fun _ => ?_
  · rcases hE1 with h0 | hE1
    · rw [h0] at hc; cases hc
    · exact hE1.1
  refine wp_sleep rfl ((hA.rel hS1.toSysRel).lock _) (by simp) hE1 fun s2 _ hS2 => ?_
  exact wp_release hS2.mem (h _ (hS1.trans hS2.unlock))

theorem wp_acquire_free (hE : s.held = [] ∨ LockOk E) (h : Q () (s.lock lk)) :
    wp (acquire lk) Q E s := by
  refine wp_acquire (fun hc => ?_) fun _ => h
  rcases hE with h0 | hE
  · rw [h0] at hc; cases hc
  · exact hE.1

theorem Still.of (h : Still s t) (h1 : u.held = t.held) (h2 : u.cur = t.cur)
    (h3 : u.initproc = t.initproc) (h4 : u.nextpid = t.nextpid) (h5 : u.run = t.run) (h6 : u.file = t.file)
    (h7 : u.inode = t.inode) (h8 : t.committing = false → u.committing = false) : Still s u :=
  ⟨⟨h1.trans h.held, h2.trans h.cur, h3.trans h.initproc, h4.trans h.nextpid, fun i => by rw [h5]; exact h.unused i,
    fun i => by rw [h5]; exact h.zombie i, fun hc => h8 (h.commit hc)⟩, h6.trans h.file, h7.trans h.inode⟩

theorem Still.recommit (h : Still s t) (b : Bool) :
    Still { s with committing := b } { t with committing := false } :=
  ⟨⟨h.held, h.cur, h.initproc, h.nextpid, h.unused, h.zombie, fun _ => rfl⟩, h.file, h.inode⟩

theorem wp_begin_op (hA : Alive s) (hE : s.held = [] ∨ LockOk E)
    (h : ∀ s', Still s s' → s'.committing = false → Q () s') : wp begin_op Q E s := by
  unfold begin_op
  simp only [wp_bind]
  refine wp_acquire_free hE (wp_mustWait fun b s1 hS1 => ?_)
  simp only [wp_get]
  have hdone : ∀ t, Still (s.lock .log) t → t.committing = false →
      wp (modify fun t => { t with outstanding := t.outstanding + 1 }) (fun _ t => wp (release .log) Q E t) E t := by
    intro t ht hc
    rw [wp_modify]
    have hS := ht.of (u := { t with outstanding := t.outstanding + 1 }) rfl rfl rfl rfl rfl rfl rfl id
    exact wp_release hS.mem (h _ hS.unlock hc)
  refine wp_ite (fun _ => ?_) fun hc => ?_
  · simp only [wp_bind]
    refine wp_sleep hS1.held ((hA.lock _).rel hS1.toSysRel) (by simp) hE fun s2 _ hS2 => ?_
    rw [wp_modify]
    exact hdone _ ((hS1.trans hS2).of rfl rfl rfl rfl rfl rfl rfl fun _ => rfl) rfl
  · rw [wp_bind]
    exact hdone s1 hS1 (by simpa using fun h => hc (.inl h))

theorem wp_end_op (hA : Alive s) (hE : s.held = [] ∨ LockOk E)
    (hc : s.committing = false ∨ E .logCommitting) (h : ∀ s', Still s s' → Q () s') : wp end_op Q E s := by
  -- the lock of the log is no lock of a process
  have hnp : ∀ {t : Sys}, t.held = .log :: s.held → (∃ p < NPROC, p ≠ t.cur ∧ .proc p ∈ t.held) → E .acquire := by
    rintro t ht ⟨p, -, -, hm⟩
    rcases hE with h0 | hE
    · rw [ht, h0] at hm; simp at hm
    · exact hE.1
  unfold end_op
  simp only [wp_bind]
  refine wp_acquire_free hE ?_
  simp only [wp_modify, wp_get]
  have hS1 := (Still.refl (s.lock .log)).of (u := { s.lock .log with outstanding := (s.lock .log).outstanding - 1 })
    rfl rfl rfl rfl rfl rfl rfl id
  refine wp_ite (fun ht => wp_fail ?_) fun _ => wp_ite (fun _ => ?_) fun _ => ?_
  · rcases hc with hc | hc
    · rw [show s.committing from ht] at hc; cases hc
    · exact hc
  · -- while the log is committed `committing` is set
    simp only [wp_bind, wp_set]
    refine wp_release (by simp [Sys.lock]) (wp_disk ?_ ?_ fun s3 hS3 => ?_)
    · exact show Alive s from hA
    · exact hE.imp (fun h0 => hS1.unlock.held.trans h0) id
    have hS3' : Still s { s3 with committing := false } := hS1.unlock.trans (hS3.recommit _)
    refine wp_acquire_free (by rw [show s3.held = s.held from hS3'.held]; exact hE) ?_
    rw [wp_modify]
    change wp (wakeup .log) _ _ (({ s3 with committing := false } : Sys).lock .log)
    refine wp_wakeup (hnp (by simp only [Sys.lock]; rw [show s3.held = s.held from hS3'.held])) fun s5 hS5 => ?_
    exact wp_release hS5.mem (h _ (hS3'.trans hS5.unlock))
  · rw [wp_bind]
    refine wp_wakeup (hnp rfl) fun s2 hS2 => ?_
    have hS3 := hS1.trans hS2
    exact wp_release hS3.mem (h _ hS3.unlock)

/-! ## Inodes -/

structure InodeSet (s s' : Sys) (ip : Nat) (i : Inode) : Prop extends SysRel s s' where
  file : s'.file = s.file
  inode : s'.inode = update s.inode ip i

theorem InodeSet.at {s s' : Sys} (h : InodeSet s s' ip i) : s'.inode ip = i := by
  rw [h.inode, update_self]

theorem Still.set (h : Still s t) (ip : Nat) (f : Inode → Inode) :
    InodeSet s (t.setInode ip f) ip (f (s.inode ip)) :=
  ⟨⟨h.held, h.cur, h.initproc, h.nextpid, h.unused, h.zombie, h.commit⟩, h.file, by
    simp only [Sys.setInode]; rw [h.inode]⟩

theorem InodeSet.still (h : InodeSet s t ip i) (h' : Still t u) : InodeSet s u ip i :=
  ⟨h.toSysRel.trans h'.toSysRel, h'.file.trans h.file, h'.inode.trans h.inode⟩

theorem InodeSet.trans {j : Inode} (h : InodeSet s t ip i) (h' : InodeSet t u ip j) :
    InodeSet s u ip j :=
  ⟨h.toSysRel.trans h'.toSysRel, h'.file.trans h.file, by rw [h'.inode, h.inode, update_idem]⟩

theorem InodeSet.unlock (h : InodeSet (s.lock lk) t ip i) :
    InodeSet s (t.unlock lk) ip i := ⟨h.toSysRel.unlock, h.file, h.inode⟩

theorem wp_contended {shared : Bool} {Q : Bool → Sys → Prop} (h : ∀ b s', Still s s' → (b = true → shared = true) → Q b s') :
    wp (contended shared) Q E s := by
  exact wp_ite (fun hc => wp_mustWait fun b t hS => h b t hS fun _ => hc)
    fun _ => wp_ret (h false s (Still.refl s) (by simp))

theorem wp_acquiresleep {shared : Bool} (hA : Alive s) (hE : s.held = [] ∨ (shared = false ∧ .sleep ip ∉ s.held) ∨ LockOk E)
    (hl : (s.inode ip).locked = false ∨ Stuck s E)
    (h : ∀ s', InodeSet s s' ip { s.inode ip with locked := true } → (s.inode ip).locked = false → Q () s') :
    wp (acquiresleep ip shared) Q E s := by
  unfold acquiresleep
  simp only [wp_bind]
  refine wp_acquire (fun hc => ?_) fun _ => ?_
  · rcases hE with h0 | h0 | hE
    · rw [h0] at hc; cases hc
    · exact absurd hc h0.2
    · exact hE.1
  refine wp_contended fun b s1 hS1 hb => ?_
  simp only [wp_get, hS1.inode]
  have hA1 : Alive s1 := (hA.lock _).rel hS1.toSysRel
  have hset : ∀ t, Still (s.lock (.sleep ip)) t → (s.inode ip).locked = false →
      wp (modify fun t => t.setInode ip fun i => { i with locked := true })
        (fun _ t => wp (release (.sleep ip)) Q E t) E t := by
    intro t ht hn
    rw [wp_modify]
    have hI := ht.set ip fun i => { i with locked := true }
    exact wp_release hI.mem (h _ hI.unlock hn)
  refine wp_ite (fun ht => ?_) fun ht => wp_ite (fun hw => ?_) fun _ => ?_
  · rcases hl with hl | hl
    · rw [show (s.inode ip).locked = true from ht] at hl; cases hl
    rw [wp_bind]
    exact wp_sleep hS1.held hA1 (by simp) (.inr hl.1) fun _ h0 _ => wp_fail (hl.2.elim id (absurd h0))
  · simp only [wp_bind]
    refine wp_sleep hS1.held hA1 (by simp) ?_ fun s2 _ hS2 => hset s2 (hS1.trans hS2) (Bool.not_eq_true _ |>.mp ht)
    rcases hE with h0 | h0 | hE
    · exact .inl h0
    · rw [hb hw] at h0; cases h0.1
    · exact .inr hE
  · rw [wp_bind]
    exact hset s1 hS1 (Bool.not_eq_true _ |>.mp ht)

theorem wp_releasesleep (hE : s.held = [] ∨ LockOk E)
    (h : ∀ s', InodeSet s s' ip { s.inode ip with locked := false } → Q () s') : wp (releasesleep ip) Q E s := by
  unfold releasesleep
  simp only [wp_bind, wp_modify]
  refine wp_acquire_free hE ?_
  have hI := (Still.refl (s.lock (.sleep ip))).set ip fun i => { i with locked := false }
  refine wp_wakeup ?_ fun s1 hS1 => wp_release (hI.still hS1).mem (h _ (hI.still hS1).unlock)
  rintro ⟨p, -, -, hm⟩
  rcases hE with h0 | hE
  · simp [Sys.setInode, Sys.lock, h0] at hm
  · exact hE.1

theorem wp_ilock (hA : Alive s) (hE : s.held = [] ∨ LockOk E) (hl : (s.inode ip).locked = false ∨ Stuck s E)
    (hG : (1 ≤ (s.inode ip).ref ∧ (s.inode ip).type ≠ 0) ∨ ∀ e, E e)
    (h : ∀ s', InodeSet s s' ip { s.inode ip with locked := true, valid := true } →
      (s.inode ip).locked = false → ((s.inode ip).valid = false → (s.inode ip).type ≠ 0) → Q () s') :
    wp (ilock ip) Q E s := by
  unfold ilock
  rw [wp_read]
  refine wp_ite (fun hc => wp_fail ?_) fun _ => ?_
  · rcases hG with hG | hG
    · omega
    · exact hG _
  refine wp_seq (wp_acquiresleep hA (hE.imp id .inr) hl fun s1 hI1 hn => ?_)
  simp only [wp_bind, wp_get, hI1.at]
  refine wp_ite (fun hv => wp_ret (h s1 ?_ hn fun hc => by rw [show (s.inode ip).valid from hv] at hc; cases hc))
    fun hv => ?_
  · rw [show ({ s.inode ip with locked := true, valid := true } : Inode) = { s.inode ip with locked := true } by
      rw [← show (s.inode ip).valid from hv]]
    exact hI1
  · simp only [wp_bind]
    refine wp_disk (hA.rel hI1.toSysRel) (hE.imp hI1.held.trans id) fun s2 hS2 => ?_
    have hI2 := hI1.still hS2
    have hI3 : InodeSet s (s2.setInode ip fun i => { i with valid := true }) ip
        { s.inode ip with locked := true, valid := true } := by
      have := hI2.trans ((Still.refl s2).set ip fun i => { i with valid := true })
      rwa [hI2.at] at this
    simp only [wp_modify, wp_get, hI3.at]
    refine wp_ite (fun hc => wp_fail ?_) fun hc => wp_ret (h _ hI3 hn fun _ => hc)
    rcases hG with hG | hG
    · exact absurd hc hG.2
    · exact hG _

theorem wp_iunlock (hE : s.held = [] ∨ LockOk E) (hG : ((s.inode ip).locked ∧ 1 ≤ (s.inode ip).ref) ∨ E .iunlock)
    (h : ∀ s', InodeSet s s' ip { s.inode ip with locked := false } → Q () s') : wp (iunlock ip) Q E s := by
  unfold iunlock holdingsleep
  simp only [wp_bind, wp_get, wp_pure]
  refine wp_acquire_free hE (wp_release (by simp [Sys.lock]) ?_)
  have hs : (s.lock (.sleep ip)).unlock (.sleep ip) = s := by simp [Sys.lock, Sys.unlock]
  rw [hs]
  refine wp_ite (fun _ => wp_releasesleep hE h) fun hc => wp_fail ?_
  exact hG.elim (fun hG => absurd hG hc) id

theorem wp_iget (hE : s.held = [] ∨ LockOk E) (h : ∀ s', InodeSet s s' ip { s.inode ip with
      ref := (s.inode ip).ref + 1, valid := if 0 < (s.inode ip).ref then (s.inode ip).valid else false } → Q () s') :
    wp (iget ip) Q E s := by
  unfold iget
  simp only [wp_bind, wp_modify]
  refine wp_acquire_free hE ?_
  have hI := (Still.refl (s.lock .itable)).set ip fun i =>
    { i with ref := i.ref + 1, valid := if 0 < i.ref then i.valid else false }
  exact wp_release hI.mem (h _ hI.unlock)

theorem wp_idup (hE : .itable ∉ s.held ∨ E .acquire)
    (h : ∀ s', InodeSet s s' ip { s.inode ip with ref := (s.inode ip).ref + 1 } → Q () s') : wp (idup ip) Q E s := by
  unfold idup
  simp only [wp_bind, wp_modify]
  refine wp_acquire (fun hc => hE.elim (absurd hc) id) fun _ => ?_
  have hI := (Still.refl (s.lock .itable)).set ip fun i => { i with ref := i.ref + 1 }
  exact wp_release hI.mem (h _ hI.unlock)

theorem Still.bfree (h : Still s t) (n : Nat) : Still s { t with bfree := n } :=
  h.of rfl rfl rfl rfl rfl rfl rfl id

theorem InodeSet.bfree (h : InodeSet s t ip i) (n : Nat) :
    InodeSet s { t with bfree := n } ip i :=
  ⟨⟨h.held, h.cur, h.initproc, h.nextpid, h.unused, h.zombie, h.commit⟩, h.file, h.inode⟩

def Inode.freed (i : Inode) : Inode :=
  { i with ref := 0, valid := false, locked := false, type := 0, size := 0, data := fun _ => 0, addrs := fun _ => false,
           indirect := false }

section
variable (hA : Alive s) (hE : s.held = [] ∨ LockOk E) (hl : (s.inode ip).locked = false ∨ Stuck s E)
include hA hE hl

theorem wp_iput
    (h : ∀ s' i, InodeSet s s' ip i → (i = { s.inode ip with ref := (s.inode ip).ref - 1 } ∨
      ((s.inode ip).ref = 1 ∧ (s.inode ip).nlink = 0 ∧ i = (s.inode ip).freed)) → Q () s') : wp (iput ip) Q E s := by
  have hlast : ∀ t i, InodeSet (s.lock .itable) t ip i →
      ({ i with ref := i.ref - 1 } = { s.inode ip with ref := (s.inode ip).ref - 1 } ∨
        ((s.inode ip).ref = 1 ∧ (s.inode ip).nlink = 0 ∧ { i with ref := i.ref - 1 } = (s.inode ip).freed)) →
      wp (release .itable) Q E (t.setInode ip fun i => { i with ref := i.ref - 1 }) := by
    intro t i hI hi
    have hI' := hI.trans ((Still.refl t).set ip fun i => { i with ref := i.ref - 1 })
    rw [hI.at] at hI'
    exact wp_release hI'.mem (h _ _ hI'.unlock hi)
  unfold iput
  simp only [wp_bind]
  refine wp_acquire_free hE ?_
  simp only [wp_get]
  refine wp_ite (fun hc => ?_) fun _ => ?_
  · change (s.inode ip).ref = 1 ∧ (s.inode ip).valid ∧ (s.inode ip).nlink = 0 at hc
    simp only [wp_bind]
    refine wp_acquiresleep (hA.lock _) (.inr (hE.imp (fun h0 => ⟨rfl, by simp [Sys.lock, h0]⟩) id))
      (hl.imp id fun hl => ⟨hl.1, .inr (by simp [Sys.lock])⟩)
      fun s1 hI1 _ => wp_release hI1.mem ?_
    have hJ1 : InodeSet s (s1.unlock .itable) ip { s.inode ip with locked := true } := hI1.unlock
    unfold itrunc
    simp only [wp_bind, wp_modify]
    refine wp_disk (hA.rel hJ1.toSysRel) (by rw [hJ1.held]; exact hE) fun s2 hS2 => ?_
    have hJ2 := hJ1.still hS2
    have hJ3 := (hJ2.trans ((Still.refl s2).set ip fun i =>
      { i with size := 0, data := fun _ => 0, addrs := fun _ => false, indirect := false })).bfree
        (s2.bfree + (s2.inode ip).blocks)
    have hJ4 := hJ3.trans ((Still.refl _).set ip fun i => { i with type := 0 })
    refine wp_disk (hA.rel hJ4.toSysRel) (by rw [hJ4.held]; exact hE) fun s5 hS5 => ?_
    have hJ5 := (hJ4.still hS5).trans ((Still.refl s5).set ip fun i => { i with valid := false })
    refine wp_releasesleep (by rw [hJ5.held]; exact hE) fun s6 hI6 => ?_
    have hJ6 := hJ5.trans hI6
    refine wp_acquire_free (by rw [hJ6.held]; exact hE) ?_
    refine hlast (s6.lock .itable) _ ⟨⟨?_, hJ6.cur, hJ6.initproc, hJ6.nextpid, hJ6.unused, hJ6.zombie, hJ6.commit⟩, hJ6.file,
      hJ6.inode⟩ (.inr ⟨hc.1, hc.2.2, ?_⟩)
    · change _ :: _ = _ :: _; rw [hJ6.held]
    · rw [hJ5.at, (hJ4.still hS5).at, hJ3.at, hJ2.at]
      simp [Inode.freed, hc.1]
  · simp only [wp_bind, wp_modify]
    refine hlast (s.lock .itable) (s.inode ip) ⟨SysRel.refl _, rfl, ?_⟩ (.inl rfl)
    exact (update_eq_self _ _).symm

structure PutAt (s s' : Sys) (ip : Nat) : Prop extends SysRel s s' where
  file : s'.file = s.file
  inode : s'.inode = update s.inode ip { s.inode ip with ref := (s.inode ip).ref - 1 } ∨
    ((s.inode ip).ref = 1 ∧ (s.inode ip).nlink = 0 ∧ s'.inode = update s.inode ip (s.inode ip).freed)

theorem wp_putInode (h : ∀ s', PutAt s s' ip → Q () s') : wp (putInode ip) Q E s := by
  unfold putInode
  simp only [wp_bind]
  refine wp_begin_op hA hE fun s1 hS1 hc1 => ?_
  refine wp_iput (hA.rel hS1.toSysRel) (by rw [hS1.held]; exact hE) (by unfold Stuck; rw [hS1.inode, hS1.held]; exact hl)
    fun s2 i hI2 hi => ?_
  have hR2 := hS1.toSysRel.trans hI2.toSysRel
  refine wp_end_op (hA.rel hR2) (by rw [hR2.held]; exact hE) (.inl (hI2.commit hc1)) fun s3 hS3 => h s3 ?_
  refine ⟨hR2.trans hS3.toSysRel, hS3.file.trans (hI2.file.trans hS1.file), ?_⟩
  rw [hS3.inode, hI2.inode, hS1.inode]
  rw [hS1.inode] at hi
  rcases hi with rfl | ⟨h1, h2, rfl⟩
  · exact .inl rfl
  · exact .inr ⟨h1, h2, rfl⟩

end

def Inode.Typed (i : Inode) : Prop := i.valid = true → i.type ≠ 0

def Inode.byte (i : Inode) (x : Nat) : UInt8 := if i.addrs (x / BSIZE) then i.data x else 0

def Inode.Has (i : Inode) (bn : Nat) : Prop := i.addrs bn = true ∧ (NDIRECT ≤ bn → i.indirect = true)

structure Inode.Grows (i j : Inode) : Prop where
  ref : j.ref = i.ref
  locked : j.locked = i.locked
  valid : i.valid = true → j.valid = true
  typed : i.Typed → j.Typed
  type : j.type = i.type
  nlink : j.nlink = i.nlink
  size : j.size = i.size
  has : ∀ bn, i.Has bn → j.Has bn
  byte : ∀ x, j.byte x = i.byte x

theorem Inode.Grows.refl (i : Inode) : i.Grows i := ⟨rfl, rfl, id, id, rfl, rfl, rfl, fun _ => id, fun _ => rfl⟩

theorem Inode.Grows.trans {j k : Inode} (h : i.Grows j) (h' : j.Grows k) : i.Grows k where
  ref := h'.ref.trans h.ref
  locked := h'.locked.trans h.locked
  valid hv := h'.valid (h.valid hv)
  typed ht := h'.typed (h.typed ht)
  type := h'.type.trans h.type
  nlink := h'.nlink.trans h.nlink
  size := h'.size.trans h.size
  has bn hb := h'.has bn (h.has bn hb)
  byte x := (h'.byte x).trans (h.byte x)

theorem Inode.grows_addBlock (h : i.addrs bn = false) : i.Grows (i.addBlock bn) where
  ref := rfl
  locked := rfl
  valid := id
  typed := id
  type := rfl
  nlink := rfl
  size := rfl
  has x hx := by
    unfold Inode.Has Inode.addBlock at *
    by_cases hb : x = bn
    · simpa [hb] using hb ▸ hx.2
    · simpa [update_of_ne hb] using hx
  byte x := by
    unfold Inode.byte Inode.addBlock
    by_cases hb : x / BSIZE = bn
    · simp [hb, h]
    · simp [hb]

theorem wp_balloc {Q : Bool → Sys → Prop} (hA : Alive s) (hE : s.held = [] ∨ LockOk E) (hL : E .logOutside)
    (h : ∀ b s', Still s s' → Q b s') : wp balloc Q E s := by
  unfold balloc
  simp only [wp_bind, wp_get]
  refine wp_disk hA hE fun s1 hS1 => wp_ite (fun _ => wp_ret (h false s1 hS1)) fun _ => wp_ite (fun _ => wp_fail hL)
    fun _ => ?_
  simp only [wp_bind, wp_modify, wp_pure]
  exact h true _ (hS1.bfree _)

theorem Still.grows (h : Still s t) (ip : Nat) : InodeSet s t ip (s.inode ip) :=
  ⟨h.toSysRel, h.file, by rw [h.inode, update_eq_self]⟩

section
variable (hA : Alive s) (hE : s.held = [] ∨ LockOk E)
include hA hE

theorem wp_mapBlock {Q : Bool → Sys → Prop} (hL : (s.inode ip).addrs bn = true ∨ E .logOutside)
    (h : ∀ b s' i, InodeSet s s' ip i → (s.inode ip).Grows i →
      (b = true → i.addrs bn = true ∧ i.indirect = (s.inode ip).indirect) →
      ((s.inode ip).addrs bn = true → b = true) → Q b s') : wp (mapBlock ip bn) Q E s := by
  unfold mapBlock
  rw [wp_read]
  refine wp_ite (fun hb => wp_ret ?_) fun hb => ?_
  · exact h true s _ ((Still.refl s).grows ip) (Inode.Grows.refl _) (fun _ => ⟨hb, rfl⟩) fun _ => rfl
  refine wp_seq (wp_balloc hA hE (hL.resolve_left hb) fun b s1 hS1 => wp_ite (fun _ => ?_) fun _ => wp_ret ?_)
  · simp only [wp_bind, wp_modify, wp_pure]
    exact h true _ _ (hS1.set ip fun i => i.addBlock bn) (Inode.grows_addBlock (by simpa using hb))
      (fun _ => by simp [Inode.addBlock]) fun _ => rfl
  · exact h false s1 _ (hS1.grows ip) (Inode.Grows.refl _) (by simp) (absurd · hb)

theorem wp_mapIndirect {Q : Bool → Sys → Prop} (hL : (s.inode ip).indirect = true ∨ E .logOutside)
    (h : ∀ b s' i, InodeSet s s' ip i → (s.inode ip).Grows i → (b = true → i.indirect = true) →
      ((s.inode ip).indirect = true → b = true) → Q b s') : wp (mapIndirect ip) Q E s := by
  unfold mapIndirect
  rw [wp_read]
  refine wp_ite (fun hb => wp_ret ?_) fun hb => ?_
  · exact h true s _ ((Still.refl s).grows ip) (Inode.Grows.refl _) (fun _ => hb) fun _ => rfl
  refine wp_seq (wp_balloc hA hE (hL.resolve_left hb) fun b s1 hS1 => wp_ite (fun _ => ?_) fun _ => wp_ret ?_)
  · simp only [wp_bind, wp_modify, wp_pure]
    exact h true _ _ (hS1.set ip fun i => { i with indirect := true })
      ⟨rfl, rfl, id, id, rfl, rfl, rfl, fun _ hx => ⟨hx.1, fun _ => rfl⟩, fun _ => rfl⟩ (fun _ => rfl) fun _ => rfl
  · exact h false s1 _ (hS1.grows ip) (Inode.Grows.refl _) (by simp) (absurd · hb)

theorem wp_bmap {Q : Bool → Sys → Prop} (hG : bn < MAXFILE ∨ E .bmap) (hL : (s.inode ip).Has bn ∨ E .logOutside)
    (h : ∀ b s' i, InodeSet s s' ip i → (s.inode ip).Grows i → (b = true → i.Has bn) →
      ((s.inode ip).Has bn → b = true) → Q b s') : wp (bmap ip bn) Q E s := by
  refine wp_ite (fun hdir => wp_mapBlock hA hE (hL.imp_left And.left) fun b s' i hI hG hb hb' => h b s' i hI hG
      (fun ht => ⟨(hb ht).1, fun hc => absurd hdir (Nat.not_lt.mpr hc)⟩) fun hx => hb' hx.1)
    fun hdir => wp_ite (fun _ => ?_) fun hb => wp_fail ?_
  · refine wp_seq (wp_mapIndirect hA hE (hL.imp_left fun hx => hx.2 (Nat.not_lt.mp hdir))
      fun b s1 i hI1 hG1 hi hind => wp_ite (fun hb1 => ?_) fun hb => wp_ret ?_)
    · refine wp_seq (wp_disk (hA.rel hI1.toSysRel) (by rw [hI1.held]; exact hE) fun s2 hS2 => ?_)
      have hI2 := hI1.still hS2
      refine wp_mapBlock (hA.rel hI2.toSysRel) (by rw [hI2.held]; exact hE)
        (hL.imp_left fun hx => by rw [hI2.at]; exact (hG1.has bn hx).1) fun b s3 j hI3 hG3 hb hb' => ?_
      rw [hI2.at] at hG3 hb hb'
      exact h b s3 j (hI2.trans hI3) (hG1.trans hG3) (fun ht => ⟨(hb ht).1, fun _ => (hb ht).2.trans (hi hb1)⟩)
        fun hx => hb' (hG1.has bn hx).1
    · exact h false s1 i hI1 hG1 (by simp) fun hx => absurd (hind (hx.2 (Nat.not_lt.mp hdir))) hb
  · exact hG.elim (absurd · hb) id

end

structure Kept (s s' : Sys) : Prop extends SysRel s s' where
  file : s'.file = s.file
  inode : ∀ ip, (s.inode ip).Grows (s'.inode ip)

theorem Kept.refl (s : Sys) : Kept s s := ⟨SysRel.refl s, rfl, fun _ => Inode.Grows.refl _⟩

theorem Kept.trans (h : Kept s1 s2) (h' : Kept s2 s3) : Kept s1 s3 :=
  ⟨h.toSysRel.trans h'.toSysRel, h'.file.trans h.file, fun ip => (h.inode ip).trans (h'.inode ip)⟩

theorem InodeSet.kept (h : InodeSet s t ip i) (hG : (s.inode ip).Grows i) : Kept s t := by
  refine ⟨h.toSysRel, h.file, fun jp => ?_⟩
  rw [h.inode]
  by_cases hj : jp = ip
  · rw [hj, update_self]; exact hG
  · rw [update_of_ne hj]; exact Inode.Grows.refl _

def Inode.Full (i : Inode) (off n : Nat) : Prop := ∀ j < n, i.Has ((off + j) / BSIZE)

def Inode.Sized (W : Prop) (i : Inode) : Prop := i.size ≤ MAXFILE * BSIZE ∧ (W → i.Full 0 i.size)

theorem Inode.Grows.sized {W : Prop} (h : i.Grows j) (hs : i.Sized W) : j.Sized W := by
  rw [Inode.Sized, h.size]
  exact ⟨hs.1, fun hW j hj => h.has _ (hs.2 hW j hj)⟩

/-- The file can be read: a file with holes only where a panic of `log_write` is allowed. -/
def FileGood (s : Sys) (E : SysStop → Prop) (f : Nat) : Prop :=
  ((s.inode (s.file f).ip).locked = false ∨ Stuck s E) ∧ 1 ≤ (s.inode (s.file f).ip).ref ∧
    (s.inode (s.file f).ip).type ≠ 0 ∧ (s.inode (s.file f).ip).Sized (¬ E .logOutside)

theorem Kept.good (h : Kept s t) (hf : FileGood s E f) : FileGood t E f := by
  unfold FileGood Stuck at *
  have hG := h.inode (s.file f).ip
  rw [h.file, hG.locked, hG.ref, hG.type, h.held]
  exact ⟨hf.1, hf.2.1, hf.2.2.1, hG.sized hf.2.2.2⟩

def Inode.Reads (i : Inode) (off : Nat) (bs : List UInt8) : Prop := ∀ j < bs.length, bs.getD j 0 = i.byte (off + j)

theorem wp_readLoop : ∀ (fuel : Nat) {s : Sys} {off n : Nat} {Q : List UInt8 → Sys → Prop}, Alive s →
    (s.held = [] ∨ LockOk E) → (off + n ≤ MAXFILE * BSIZE ∨ E .bmap) → ((s.inode ip).Full off n ∨ E .logOutside) →
    (∀ bs s' i, InodeSet s s' ip i → (s.inode ip).Grows i → bs.length ≤ n → (s.inode ip).Reads off bs →
      (n ≤ fuel → (s.inode ip).Full off n → bs.length = n) → Q bs s') →
    wp (readLoop ip fuel off n) Q E s
  | 0, s, off, n, Q, _, _, _, _, h => by
    rw [readLoop, wp_pure]
    exact h [] s _ ((Still.refl s).grows ip) (Inode.Grows.refl _) (Nat.zero_le _) (fun j hj => by simp at hj)
      fun hn _ => (Nat.le_zero.mp hn).symm
  | fuel + 1, s, off, n, Q, hA, hE, hG, hL, h => by
    have hnil : ∀ t i, InodeSet s t ip i → (s.inode ip).Grows i → ((s.inode ip).Full off n → n = 0) → Q [] t :=
      fun t i hI hG h0 => h [] t i hI hG (Nat.zero_le _) (fun j hj => by simp at hj) fun _ hF => (h0 hF).symm
    refine wp_ite (fun hz => wp_ret (hnil s _ ((Still.refl s).grows ip) (Inode.Grows.refl _) fun _ => hz)) fun hn => ?_
    refine wp_seq (wp_bmap hA hE ?_ (hL.imp_left fun hF => hF 0 (Nat.pos_of_ne_zero hn))
      fun b s1 i1 hI1 hG1 hb hb' => wp_ite (fun hbt => ?_) fun hbf =>
      wp_ret (hnil s1 i1 hI1 hG1 fun hF => absurd (hb' (hF 0 (Nat.pos_of_ne_zero hn))) hbf))
    · refine hG.imp (fun hG => ?_) id
      lia
    simp only [wp_bind]
    refine wp_disk (hA.rel hI1.toSysRel) (by rw [hI1.held]; exact hE) fun s2 hS2 => ?_
    have hI2 := hI1.still hS2
    simp only [wp_get, wp_pure]
    have hblock : ∀ j < min n (BSIZE - off % BSIZE), (off + j) / BSIZE = off / BSIZE := fun j hj => by
      lia
    refine wp_readLoop fuel (hA.rel hI2.toSysRel) (by rw [hI2.held]; exact hE) (hG.imp (fun hG => by omega) id)
      (hL.imp_left fun hF j hj => ?_) fun bs s3 i3 hI3 hG3 hlen hR hall => ?_
    · rw [hI2.at, Nat.add_assoc]
      exact hG1.has _ (hF _ (by omega))
    rw [hI2.at] at hG3 hR hall
    refine h _ s3 i3 (hI2.trans hI3) (hG1.trans hG3) ?_ ?_ ?_
    · simp only [length_append, length_map, length_range]; omega
    · intro j hj
      simp only [length_append, length_map, length_range] at hj
      by_cases hjm : j < min n (BSIZE - off % BSIZE)
      · rw [getD_append _ _ _ _ (by simpa using hjm), hI2.at]
        rw [getD_eq_getElem _ _ (by simpa using hjm), getElem_map, getElem_range]
        rw [← hG1.byte, Inode.byte, hblock j hjm, if_pos (hb hbt).1]
      · rw [getD_append_right _ _ _ _ (by rw [length_map, length_range]; exact Nat.le_of_not_lt hjm)]
        simp only [length_map, length_range]
        have he : off + min n (BSIZE - off % BSIZE) + (j - min n (BSIZE - off % BSIZE)) = off + j := by omega
        rw [hR _ (by omega), he, hG1.byte]
    · intro hfuel hF
      have hpos : 0 < min n (BSIZE - off % BSIZE) := by lia
      have := hall (by omega) fun j hj => by
        rw [Nat.add_assoc]; exact hG1.has _ (hF _ (by omega))
      simp only [length_append, length_map, length_range]; omega

theorem wp_readi {off n : Nat} {Q : List UInt8 → Sys → Prop} (hA : Alive s)
    (hE : s.held = [] ∨ LockOk E)
    (hG : off < 2 ^ 32 ∧ n < 2 ^ 32 ∧ (s.inode ip).Sized (¬ E .logOutside) ∨ E .bmap ∧ E .logOutside)
    (h : ∀ bs s' i, InodeSet s s' ip i → (s.inode ip).Grows i → bs.length ≤ n → (s.inode ip).Reads off bs →
      (off + n < 2 ^ 32 → off + n ≤ (s.inode ip).size → (s.inode ip).Full off n → bs.length = n) → Q bs s') :
    wp (readi ip off n) Q E s := by
  unfold readi
  rw [wp_read]
  refine wp_ite (fun hc => wp_ret ?_) fun hc => ?_
  · refine h [] s _ ((Still.refl s).grows ip) (Inode.Grows.refl _) (Nat.zero_le _) (fun j hj => by simp at hj)
      fun _ _ _ => ?_
    simp only [length_nil]; omega
  have hle : (if (s.inode ip).size < (off + n) % 2 ^ 32 then (s.inode ip).size - off else n) ≤ n := by split <;> omega
  refine wp_readLoop n hA hE ?_ ?_ fun bs s' i hI hG hlen hR hall => h bs s' i hI hG (Nat.le_trans hlen hle) hR
    fun h1 h2 hF => ?_
  · refine hG.imp (fun hG => ?_) And.left
    obtain ⟨h1, h2, h3, -⟩ := hG
    split <;> omega
  · refine hG.elim (fun hG => or_iff_not_imp_right.mpr fun hn j hj => ?_) fun hG => .inr hG.2
    obtain ⟨h1, h2, -, hF⟩ := hG
    have := hF hn (off + j) (by split at hj <;> omega)
    rwa [Nat.zero_add] at this
  · rw [if_neg (by omega)] at hall
    exact hall (Nat.le_refl _) hF

structure FileSet (s s' : Sys) (f : Nat) (x : File) : Prop extends SysRel s s' where
  file : s'.file = update s.file f x
  inode : s'.inode = s.inode

theorem FileSet.at {s' : Sys} {x : File} (h : FileSet s s' f x) : s'.file f = x := by
  rw [h.file, update_self]

theorem FileSet.unlock {x : File} (h : FileSet (s.lock lk) t f x) :
    FileSet s (t.unlock lk) f x := ⟨h.toSysRel.unlock, h.file, h.inode⟩

theorem setFile_set (f : Nat) (g : File → File) : FileSet s (s.setFile f g) f (g (s.file f)) :=
  ⟨⟨rfl, rfl, rfl, rfl, fun _ => Iff.rfl, fun _ => Iff.rfl, id⟩, rfl, rfl⟩

variable (hE : .ftable ∉ s.held ∨ E .acquire)
include hE

theorem wp_filealloc {Q : Option Nat → Sys → Prop} (hn : ∀ s', Still s s' → Q none s')
    (h : ∀ f s', f < NFILE → (s.file f).ref = 0 → FileSet s s' f { s.file f with ref := 1 } → Q (some f) s') :
    wp filealloc Q E s := by
  unfold filealloc
  simp only [wp_bind]
  refine wp_acquire (fun hc => hE.elim (absurd hc) id) fun _ => ?_
  refine wp_search (fun _ t => t = s.lock .ftable) rfl ?_ fun t ht => ?_
  · rintro f t - hf rfl
    rw [wp_read]
    refine wp_ite (fun h0 => ?_) fun _ => wp_ret rfl
    simp only [wp_bind, wp_set, wp_pure]
    have hS := setFile_set (s := s.lock .ftable) f fun x => { x with ref := 1 }
    exact wp_release hS.mem (h f _ hf h0 hS.unlock)
  · subst ht
    exact wp_release (by simp [Sys.lock]) (wp_ret (hn _ (Still.refl (s.lock .ftable)).unlock))

theorem wp_filedup (hG : 1 ≤ (s.file f).ref ∨ E .filedup)
    (h : ∀ s', 1 ≤ (s.file f).ref → FileSet s s' f { s.file f with ref := (s.file f).ref + 1 } → Q () s') :
    wp (filedup f) Q E s := by
  unfold filedup
  simp only [wp_bind, wp_get]
  refine wp_acquire (fun hc => hE.elim (absurd hc) id) fun _ => wp_ite (fun hc => wp_fail ?_) fun hc => ?_
  · exact hG.elim (fun hG => absurd hG (Nat.not_le.mpr hc)) id
  · simp only [wp_bind, wp_set]
    have hS := setFile_set (s := s.lock .ftable) f fun x => { x with ref := x.ref + 1 }
    exact wp_release hS.mem (h _ (Nat.not_lt.mp hc) hS.unlock)

theorem wp_filedrop {Q : Option File → Sys → Prop} (hG : 1 ≤ (s.file f).ref ∨ E .fileclose)
    (hn : ∀ s', 1 < (s.file f).ref → FileSet s s' f { s.file f with ref := (s.file f).ref - 1 } → Q none s')
    (h : ∀ s', (s.file f).ref = 1 → FileSet s s' f { s.file f with ref := 0, type := .FD_NONE } →
      Q (some (s.file f)) s') : wp (filedrop f) Q E s := by
  unfold filedrop
  simp only [wp_bind, wp_get]
  refine wp_acquire (fun hc => hE.elim (absurd hc) id) fun _ => wp_ite (fun hc => wp_fail ?_) fun hc =>
    wp_ite (fun h1 => ?_) fun h1 => ?_
  · exact hG.elim (fun hG => absurd hG (Nat.not_le.mpr hc)) id
  · simp only [wp_bind, wp_set, wp_pure]
    have hS := setFile_set (s := s.lock .ftable) f fun x => { x with ref := x.ref - 1 }
    exact wp_release hS.mem (hn _ h1 hS.unlock)
  · simp only [wp_bind, wp_set, wp_pure]
    have hS := setFile_set (s := s.lock .ftable) f fun x => { x with ref := 0, type := .FD_NONE }
    refine wp_release hS.mem (h _ ?_ hS.unlock)
    change ¬ (s.file f).ref < 1 at hc
    change ¬ 1 < (s.file f).ref at h1
    omega

end Xv6
