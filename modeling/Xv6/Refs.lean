import Xv6.FileSound
import Xv6.Slots

/-!
# References to files and inodes

A file is open as often as a descriptor or a mapping of some process names
it, and an inode is in use as often as an open file or a working directory
names it. `Fs` states this of the kernel's counters.
-/

namespace Xv6

open Function

variable {fd i p : Nat} {q : Proc}

def Proc.refs (p : Proc) (f : Nat) : Nat :=
  Nat.count (fun fd => p.ofile fd = some f) NOFILE +
    Nat.count (fun i => (p.vmas i).used = true ∧ (p.vmas i).f = some f) MAXVMA

def fileRefs (procs : Nat → Proc) (f : Nat) : Nat := ∑ i ∈ Finset.range NPROC, (procs i).refs f

def cwdRefs (procs : Nat → Proc) (ip : Nat) : Nat := Nat.count (fun i => (procs i).cwd = some ip) NPROC

def opens (s : Sys) (ip : Nat) : Nat := Nat.count (fun f => (s.file f).type ≠ .FD_NONE ∧ (s.file f).ip = ip) NFILE

/-- The counters of `s`, when files are named `fr` times, inodes `cr` times other than by files, and inode `lk` is locked.
Files have no holes if `W`. -/
structure Fs (W : Prop) (s : Sys) (fr cr : Nat → Nat) (lk : Option Nat) : Prop where
  file : ∀ f, (s.file f).ref = fr f
  pipe : ∀ f, (s.file f).type ≠ .FD_PIPE
  bound : ∀ f, NFILE ≤ f → fr f = 0
  closed : ∀ f, fr f = 0 ↔ (s.file f).type = .FD_NONE
  inode : ∀ ip, (s.inode ip).ref = opens s ip + cr ip
  typed : ∀ ip, (s.inode ip).Typed
  type : ∀ f, (s.file f).type ≠ .FD_NONE → (s.inode (s.file f).ip).type ≠ 0
  lock : ∀ ip, (s.inode ip).locked = true ↔ lk = some ip
  size : ∀ ip, (s.inode ip).Sized W

section
variable {W : Prop} {s s' : Sys} {fr cr cr' : Nat → Nat} {lk : Option Nat} {f ip : Nat}

theorem opens_congr (h : s'.file = s.file) (ip : Nat) : opens s' ip = opens s ip := by unfold opens; rw [h]

theorem opens_pos (hf : f < NFILE) (h : (s.file f).type ≠ .FD_NONE) : 0 < opens s (s.file f).ip :=
  Tally.count_pos hf ⟨h, rfl⟩

theorem Fs.congr (h : Fs W s fr cr lk) (hf : s'.file = s.file) (hi : s'.inode = s.inode) : Fs W s' fr cr lk where
  file := by rw [hf]; exact h.file
  pipe := by rw [hf]; exact h.pipe
  bound := h.bound
  closed := by rw [hf]; exact h.closed
  inode ip := by rw [hi, opens_congr hf]; exact h.inode ip
  typed := by rw [hi]; exact h.typed
  type := by rw [hf, hi]; exact h.type
  lock := by rw [hi]; exact h.lock
  size := by rw [hi]; exact h.size

theorem Fs.mild (h : Fs W s fr cr lk) (hm : Mild s s') : Fs W s' fr cr lk where
  file := by rw [hm.file]; exact h.file
  pipe := by rw [hm.file]; exact h.pipe
  bound := h.bound
  closed := by rw [hm.file]; exact h.closed
  inode ip := by rw [(hm.inode ip).ref, opens_congr hm.file]; exact h.inode ip
  typed ip := (hm.inode ip).typed (h.typed ip)
  type f hf := by
    rw [hm.file] at hf ⊢
    rw [(hm.inode _).type]; exact h.type f hf
  lock ip := by rw [(hm.inode ip).locked]; exact h.lock ip
  size ip := (hm.inode ip).size W (h.size ip)

theorem Fs.still (h : Fs W s fr cr lk) (hs : Still s s') : Fs W s' fr cr lk := h.mild hs.mild

theorem Fs.lt (h : Fs W s fr cr lk) (hf : fr f ≠ 0) : f < NFILE := Nat.lt_of_not_le fun hc => hf (h.bound f hc)

theorem Fs.good (h : Fs W s fr cr none) (hf : fr f ≠ 0) (hW : W ∨ E .logOutside) : FileGood s E f := by
  have hty : (s.file f).type ≠ .FD_NONE := fun hc => hf ((h.closed f).mpr hc)
  have hlt : f < NFILE := h.lt hf
  refine ⟨.inl ?_, ?_, h.type f hty, (h.size _).1, fun hn => (h.size _).2 (hW.resolve_right hn)⟩
  · have := h.lock (s.file f).ip
    simpa using this
  · rw [h.inode]
    have := opens_pos hlt hty
    omega

theorem Fs.set {i : Inode} {lk' : Option Nat} (h : Fs W s fr cr lk) (hs : InodeSet s s' ip i)
    (href : i.ref + cr ip = (s.inode ip).ref + cr' ip) (hcr : ∀ x, x ≠ ip → cr' x = cr x) (ht : i.Typed)
    (hty : 0 < opens s ip → i.type ≠ 0) (hl : i.locked ↔ lk' = some ip)
    (hl' : ∀ x, x ≠ ip → (lk' = some x ↔ lk = some x)) (hsz : i.Sized W) : Fs W s' fr cr' lk' := by
  have hself : s'.inode ip = i := hs.at
  have hne : ∀ {x}, x ≠ ip → s'.inode x = s.inode x := fun hx => by rw [hs.inode, update_of_ne hx]
  refine ⟨by rw [hs.file]; exact h.file, by rw [hs.file]; exact h.pipe, h.bound, by rw [hs.file]; exact h.closed,
    fun x => ?_, fun x => ?_, fun f hf => ?_, fun x => ?_, fun x => ?_⟩
  · rw [opens_congr hs.file]
    by_cases hx : x = ip
    · rw [hx, hself]
      have := h.inode ip
      omega
    · rw [hne hx, hcr x hx]; exact h.inode x
  · by_cases hx : x = ip
    · rw [hx, hself]; exact ht
    · rw [hne hx]; exact h.typed x
  · rw [hs.file] at hf ⊢
    by_cases hx : (s.file f).ip = ip
    · rw [hx, hself]
      refine hty (hx ▸ opens_pos ?_ hf)
      exact Nat.lt_of_not_le fun hc => hf ((h.closed f).mp (h.bound f hc))
    · rw [hne hx]; exact h.type f hf
  · by_cases hx : x = ip
    · rw [hx, hself]; exact hl
    · rw [hne hx, hl' x hx]; exact h.lock x
  · by_cases hx : x = ip
    · rw [hx, hself]; exact hsz
    · rw [hne hx]; exact h.size x

def plus (c : Nat → Nat) (a : Nat) : Nat → Nat := update c a (c a + 1)

theorem plus_self (c : Nat → Nat) (a : Nat) : plus c a a = c a + 1 := update_self ..

theorem plus_of_ne (c : Nat → Nat) (h : x ≠ a) : plus c a x = c x := update_of_ne h _ _

theorem Fs.iget (h : Fs W s fr cr lk) (hs : InodeSet s s' ip { s.inode ip with
      ref := (s.inode ip).ref + 1, valid := if 0 < (s.inode ip).ref then (s.inode ip).valid else false }) :
    Fs W s' fr (plus cr ip) lk := by
  refine h.set hs ?_ (fun x hx => plus_of_ne _ hx) ?_ (fun ho => ?_) (h.lock ip) (fun _ _ => Iff.rfl) (h.size ip)
  · rw [plus_self]; dsimp only; omega
  · unfold Inode.Typed
    split
    · exact h.typed ip
    · intro hv; cases hv
  · obtain ⟨f, -, hf, rfl⟩ := Tally.exists_of_count ho
    exact h.type f hf

theorem Fs.idup (h : Fs W s fr cr lk) (hs : InodeSet s s' ip { s.inode ip with ref := (s.inode ip).ref + 1 }) :
    Fs W s' fr (plus cr ip) lk := by
  refine h.set hs ?_ (fun x hx => plus_of_ne _ hx) (h.typed ip) (fun ho => ?_) (h.lock ip) (fun _ _ => Iff.rfl) (h.size ip)
  · rw [plus_self]; dsimp only; omega
  · obtain ⟨f, -, hf, rfl⟩ := Tally.exists_of_count ho
    exact h.type f hf

theorem Fs.ilock (h : Fs W s fr cr none) (hs : InodeSet s s' ip { s.inode ip with locked := true, valid := true })
    (ht : (s.inode ip).valid = false → (s.inode ip).type ≠ 0) : Fs W s' fr cr (some ip) ∧ (s'.inode ip).type ≠ 0 := by
  have hty : (s.inode ip).type ≠ 0 := by
    cases hv : (s.inode ip).valid with
    | false => exact ht hv
    | true => exact h.typed ip hv
  exact ⟨h.set hs rfl (fun _ _ => rfl) (fun _ => hty) (fun _ => hty) (by simp) (fun x hx => by simp [Ne.symm hx])
    (h.size ip), by rw [hs.at]; exact hty⟩

theorem Fs.iunlock (h : Fs W s fr cr (some ip)) (hs : InodeSet s s' ip { s.inode ip with locked := false }) :
    Fs W s' fr cr none := by
  refine h.set hs rfl (fun _ _ => rfl) (h.typed ip) (fun ho => ?_) (by simp) (fun x hx => by simp [Ne.symm hx]) (h.size ip)
  obtain ⟨f, -, hf, rfl⟩ := Tally.exists_of_count ho
  exact h.type f hf

theorem Fs.put {i : Inode} (h : Fs W s fr (plus cr ip) none) (hs : InodeSet s s' ip i)
    (hi : i = { s.inode ip with ref := (s.inode ip).ref - 1 } ∨
      ((s.inode ip).ref = 1 ∧ (s.inode ip).nlink = 0 ∧ i = (s.inode ip).freed)) : Fs W s' fr cr none := by
  have hc := h.inode ip
  rw [plus_self] at hc
  rcases hi with rfl | ⟨h1, -, rfl⟩
  · refine h.set hs ?_ (fun x hx => (plus_of_ne _ hx).symm) (h.typed ip) (fun ho => ?_) (h.lock ip) (fun _ _ => Iff.rfl)
      (h.size ip)
    · rw [plus_self]; dsimp only; omega
    · obtain ⟨f, -, hf, rfl⟩ := Tally.exists_of_count ho
      exact h.type f hf
  · refine h.set hs ?_ (fun x hx => (plus_of_ne _ hx).symm) (fun hv => ?_) (fun ho => ?_) (by simp [Inode.freed])
      (fun _ _ => Iff.rfl) ⟨Nat.zero_le _, fun _ j hj => absurd hj (Nat.not_lt_zero j)⟩
    · rw [plus_self]; simp only [Inode.freed]; omega
    · simp [Inode.freed] at hv
    · omega

theorem Fs.putInode (h : Fs W s fr (plus cr ip) none) (hp : PutAt s s' ip) : Fs W s' fr cr none := by
  rcases hp.inode with hi | ⟨h1, h2, hi⟩
  · exact h.put ⟨hp.toSysRel, hp.file, hi⟩ (.inl rfl)
  · exact h.put ⟨hp.toSysRel, hp.file, hi⟩ (.inr ⟨h1, h2, rfl⟩)

/-! ## Files -/

theorem Fs.setFile (h : Fs W s fr cr lk) (hs : FileSet s s' f x) (hlt : f < NFILE) (hpipe : x.type ≠ .FD_PIPE)
    (hclosed : x.ref = 0 ↔ x.type = .FD_NONE) (hty : x.type ≠ .FD_NONE → (s.inode x.ip).type ≠ 0)
    (hcr : ∀ ip, cr' ip + (if x.type ≠ .FD_NONE ∧ x.ip = ip then 1 else 0) =
      cr ip + if (s.file f).type ≠ .FD_NONE ∧ (s.file f).ip = ip then 1 else 0) : Fs W s' (update fr f x.ref) cr' lk := by
  have hself : s'.file f = x := hs.at
  have hne : ∀ {g}, g ≠ f → s'.file g = s.file g := fun hg => by rw [hs.file, update_of_ne hg]
  refine ⟨fun g => ?_, fun g => ?_, fun g hg => ?_, fun g => ?_, fun ip => ?_, by rw [hs.inode]; exact h.typed,
    fun g hg => ?_, by rw [hs.inode]; exact h.lock, by rw [hs.inode]; exact h.size⟩
  · by_cases hg : g = f
    · rw [hg, hself, update_self]
    · rw [hne hg, update_of_ne hg]; exact h.file g
  · by_cases hg : g = f
    · rw [hg, hself]; exact hpipe
    · rw [hne hg]; exact h.pipe g
  · rw [update_of_ne (by omega)]; exact h.bound g hg
  · by_cases hg : g = f
    · rw [hg, hself, update_self]; exact hclosed
    · rw [hne hg, update_of_ne hg]; exact h.closed g
  · have hcount := Tally.count_point (p := fun g => (s.file g).type ≠ .FD_NONE ∧ (s.file g).ip = ip)
      (q := fun g => (s'.file g).type ≠ .FD_NONE ∧ (s'.file g).ip = ip) hlt fun g _ hg => by rw [hne hg]
    rw [hself] at hcount
    have := hcr ip
    rw [hs.inode, h.inode ip]
    unfold opens
    omega
  · by_cases hgf : g = f
    · rw [hgf, hself] at hg ⊢
      rw [hs.inode]; exact hty hg
    · rw [hne hgf] at hg ⊢
      rw [hs.inode]; exact h.type g hg

theorem Fs.recount (h : Fs W s fr cr lk) (hs : FileSet s s' f { s.file f with ref := n }) (hn : 1 ≤ n)
    (hf : fr f ≠ 0) : Fs W s' (update fr f n) cr lk :=
  h.setFile hs (h.lt hf) (h.pipe f)
    ⟨fun hc => by dsimp only at hc; omega, fun hc => absurd ((h.closed f).mpr hc) hf⟩ (h.type f)
    fun _ => rfl

theorem Fs.shut (h : Fs W s fr cr lk) (hs : FileSet s s' f { s.file f with ref := 0, type := .FD_NONE })
    (hf : (s.file f).ref = 1) : Fs W s' (update fr f 0) (plus cr (s.file f).ip) lk := by
  have hfr : fr f ≠ 0 := by rw [← h.file f, hf]; decide
  refine h.setFile hs (h.lt hfr) (by simp) (by simp) (fun hc => absurd rfl hc) fun ip => ?_
  rw [if_neg fun hc => hc.1 rfl]
  by_cases hip : ip = (s.file f).ip
  · rw [hip, plus_self, if_pos ⟨fun hc => hfr ((h.closed f).mpr hc), rfl⟩]
  · rw [plus_of_ne _ hip, if_neg fun hc => hip hc.2.symm]

theorem Fs.close (h : Fs W s (plus fr f) cr none) (hc : Closed s s' f) : Fs W s' fr cr none := by
  have href := h.file f
  rw [plus_self] at href
  have hback : ∀ n, n = fr f → update (plus fr f) f n = fr := fun n hn => by
    funext g
    by_cases hg : g = f
    · rw [hg, update_self, hn]
    · rw [update_of_ne hg, plus_of_ne _ hg]
  have hty : (s.file f).type ≠ .FD_NONE := fun hn => by
    have := (h.closed f).mpr hn
    rw [plus_self] at this; omega
  by_cases h1 : 1 < (s.file f).ref
  · have hfile := hc.file
    rw [if_pos h1] at hfile
    have hinode : s'.inode = s.inode := by
      rcases hc.inode with ⟨-, hi⟩ | ⟨hi, -⟩
      · exact hi
      · omega
    have := h.recount ⟨hc.toSysRel, hfile, hinode⟩ (by omega) (by rw [plus_self]; omega)
    rwa [hback _ (by omega)] at this
  · have hfile := hc.file
    rw [if_neg h1] at hfile
    have h2 : (s.file f).ref = 1 := by have := hc.pos; omega
    -- go through the state in which the file is closed and its inode not yet put
    have hmid := h.shut (setFile_set f fun x => { x with ref := 0, type := .FD_NONE }) h2
    rw [hback 0 (by omega)] at hmid
    rcases hc.inode with ⟨h3 | h3, -⟩ | ⟨-, -, hi⟩
    · exact absurd h3 h1
    · exact absurd h3 hty
    · exact hmid.putInode ⟨⟨hc.held, hc.cur, hc.initproc, hc.nextpid, hc.unused, hc.zombie, hc.commit⟩, hfile, hi⟩

theorem Fs.dup (h : Fs W s fr cr lk) (hs : FileSet s s' f { s.file f with ref := (s.file f).ref + 1 })
    (h1 : 1 ≤ (s.file f).ref) : Fs W s' (plus fr f) cr lk := by
  have := h.recount hs (by omega) (by rw [← h.file f]; omega)
  rwa [h.file f] at this

theorem Fs.opened (h : Fs W s fr (plus cr ip) lk) (hs : FileSet s s' f x) (hf : (s.file f).ref = 0)
    (hlt : f < NFILE) (href : x.ref = 1) (htype : x.type ≠ .FD_NONE) (hpipe : x.type ≠ .FD_PIPE) (hip : x.ip = ip)
    (hty : (s.inode ip).type ≠ 0) : Fs W s' (plus fr f) cr lk := by
  have hfr : fr f = 0 := by rw [← h.file f]; exact hf
  have : Fs W s' (update fr f x.ref) cr lk :=
    h.setFile hs hlt hpipe (by simp [href, htype]) (fun _ => by rw [hip]; exact hty) fun jp => ?_
  · rwa [href, show 1 = fr f + 1 by rw [hfr]] at this
  · rw [if_neg (c := (s.file f).type ≠ _ ∧ _) fun hc => hc.1 ((h.closed f).mp hfr)]
    by_cases hj : jp = ip
    · rw [hj, plus_self, if_pos ⟨htype, hip⟩]
    · rw [plus_of_ne _ hj, if_neg fun hc => hj (hc.2.symm.trans hip)]

end

/-! ## What processes name -/

variable {procs : Nat → Proc}

theorem fileRefs_update (hp : p < NPROC) (q : Proc) (f : Nat) :
    fileRefs (update procs p q) f + (procs p).refs f = fileRefs procs f + q.refs f :=
  Tally.sum_update procs (fun x => x.refs f) hp q

theorem fileRefs_same (hp : p < NPROC) (h : ∀ f, q.refs f = (procs p).refs f) :
    fileRefs (update procs p q) = fileRefs procs := by
  funext f
  have := @fileRefs_update p procs hp q f
  rw [h f] at this
  omega

theorem fileRefs_plus (hp : p < NPROC) (h : ∀ g, q.refs g = plus (procs p).refs f g) :
    fileRefs (update procs p q) = plus (fileRefs procs) f := by
  funext g
  have := @fileRefs_update p procs hp q g
  rw [h g] at this
  by_cases hg : g = f
  · subst hg
    rw [plus_self] at this ⊢
    omega
  · rw [plus_of_ne _ hg] at this ⊢
    omega

theorem fileRefs_minus (hp : p < NPROC) (h : ∀ g, (procs p).refs g = plus q.refs f g) :
    fileRefs procs = plus (fileRefs (update procs p q)) f := by
  have := @fileRefs_plus p (procs p) (update procs p q) f hp fun g => by
    rw [h g, update_self]
  rwa [update_idem, update_eq_self] at this

theorem refs_ofile {p : Proc} {f : Nat} (hfd : fd < NOFILE) (h : p.ofile fd = none) (g : Nat) :
    { p with ofile := update p.ofile fd (some f) }.refs g = plus p.refs f g := by
  have := Tally.count_point (p := fun i => p.ofile i = some g)
    (q := fun i => update p.ofile fd (some f) i = some g) hfd fun i _ hi => by rw [update_of_ne hi]
  rw [if_neg (by simp [h]), update_self] at this
  unfold Proc.refs
  dsimp only
  rw [show Nat.count (fun i => update p.ofile fd (some f) i = some g) NOFILE = _ from this]
  by_cases hg : g = f
  · rw [hg, plus_self, if_pos rfl]; omega
  · rw [plus_of_ne _ hg, if_neg (by simpa using Ne.symm hg)]; omega

theorem refs_ofile_none {p : Proc} {f : Nat} (hfd : fd < NOFILE) (h : p.ofile fd = some f) (g : Nat) :
    p.refs g = plus ({ p with ofile := update p.ofile fd none }.refs) f g := by
  have := refs_ofile (p := { p with ofile := update p.ofile fd none }) (f := f) hfd (update_self ..) g
  rw [update_idem, ← h, update_eq_self] at this
  exact this

theorem refs_vma {p : Proc} (v : Vma) (hi : i < MAXVMA) (h : (p.vmas i).used = false) (g : Nat) :
    (p.setVma i v).refs g = p.refs g + if v.used ∧ v.f = some g then 1 else 0 := by
  have := Tally.count_point (p := fun j => (p.vmas j).used ∧ (p.vmas j).f = some g)
    (q := fun j => (update p.vmas i v j).used ∧ (update p.vmas i v j).f = some g) hi
    fun j _ hj => by rw [update_of_ne hj]
  rw [if_neg (by simp [h]), update_self] at this
  unfold Proc.refs Proc.setVma
  dsimp only
  omega

theorem refs_setVma {p : Proc} {v : Vma} (hu : v.used = (p.vmas i).used)
    (hf : v.f = (p.vmas i).f) (g : Nat) : (p.setVma i v).refs g = p.refs g := by
  unfold Proc.refs Proc.setVma
  dsimp only
  congr 1
  refine Tally.count_congr fun j _ => ?_
  by_cases hj : j = i
  · rw [hj, update_self, hu, hf]
  · rw [update_of_ne hj]

theorem refs_unmap {p : Proc} (hi : i < MAXVMA) (g : Nat) :
    p.refs g = (p.setVma i Vma.zero).refs g + if (p.vmas i).used ∧ (p.vmas i).f = some g then 1 else 0 := by
  have h0 : ((p.setVma i Vma.zero).vmas i).used = false := by simp [Proc.setVma, Vma.zero]
  have := refs_vma (p.vmas i) hi h0 g
  unfold Proc.setVma at this ⊢
  rwa [update_idem, update_eq_self] at this

theorem refs_le (hp : p < NPROC) (f : Nat) : (procs p).refs f ≤ fileRefs procs f :=
  Finset.single_le_sum (f := fun i => (procs i).refs f) (fun _ _ => Nat.zero_le _) (Finset.mem_range.mpr hp)

theorem named_by_vma (hi : i < NPROC) (hj : j < MAXVMA) (hu : ((procs i).vmas j).used)
    (hf : ((procs i).vmas j).f = some f) : fileRefs procs f ≠ 0 := by
  have hle : (procs i).refs f ≤ fileRefs procs f := refs_le hi f
  have := Tally.count_pos (p := fun j => ((procs i).vmas j).used ∧ ((procs i).vmas j).f = some f) hj ⟨hu, hf⟩
  unfold Proc.refs at hle
  omega

theorem named_by_fd (hi : i < NPROC) (hf : (procs i).fd fd = some f) : fileRefs procs f ≠ 0 := by
  unfold Proc.fd at hf
  split at hf
  · rename_i hfd
    have hle : (procs i).refs f ≤ fileRefs procs f := refs_le hi f
    have := Tally.count_pos (p := fun fd => (procs i).ofile fd = some f) hfd hf
    unfold Proc.refs at hle
    omega
  · cases hf

theorem cwdRefs_update (hp : p < NPROC) (q : Proc) (ip : Nat) :
    cwdRefs (update procs p q) ip + (if (procs p).cwd = some ip then 1 else 0) =
      cwdRefs procs ip + (if q.cwd = some ip then 1 else 0) := by
  have := Tally.count_point (p := fun i => (procs i).cwd = some ip)
    (q := fun i => (update procs p q i).cwd = some ip) hp fun i _ hi => by rw [update_of_ne hi]
  rwa [update_self] at this

theorem cwdRefs_same (h : q.cwd = (procs p).cwd) :
    cwdRefs (update procs p q) = cwdRefs procs := by
  funext ip
  refine Tally.count_congr fun i _ => ?_
  by_cases hi : i = p
  · rw [hi, update_self, h]
  · rw [update_of_ne hi]

theorem cwdRefs_plus (hp : p < NPROC) (h : (procs p).cwd = none) (hq : q.cwd = some ip) :
    cwdRefs (update procs p q) = plus (cwdRefs procs) ip := by
  funext x
  have := @cwdRefs_update p procs hp q x
  rw [h, hq] at this
  by_cases hx : x = ip
  · rw [hx, plus_self]; simpa [hx] using this
  · rw [plus_of_ne _ hx]; simpa [Ne.symm hx] using this

theorem cwdRefs_minus (hp : p < NPROC) (h : (procs p).cwd = some ip) (hq : q.cwd = none) :
    cwdRefs procs = plus (cwdRefs (update procs p q)) ip := by
  have := @cwdRefs_plus p (procs p) (update procs p q) ip hp (by rw [update_self]; exact hq) h
  rwa [update_idem, update_eq_self] at this

end Xv6
