import Xv6.Table

/-!
# A fresh process inherits nothing from its slot

A free slot is clean: whoever freed it left nothing behind that `allocproc`
does not set itself. It stays clean as long as nobody writes to free slots,
which `kkill` and `setpriority` do for pid 0, `update_sz` for the number of a
thread group that a joined thread had, and a thread that runs on after
`reparent` freed it.
-/

namespace Xv6

open Hoare Function

variable {x : More} {c : Nat} {status : Int} {t : Table}

def More.closed (m : More) : Prop := m.cwd = none ∧ ∀ fd, m.ofile fd = none

def Act.gone : Act → Prop
  | .reparent _ | .zombie => True
  | _ => False

structure CleanSlot (q : Slot) (m : More) : Prop where
  unused : q.state = .UNUSED → q.killed = false ∧ q.chan = none ∧ q.sz = 0 ∧ q.pid = 0 ∧ m.xstate = 0 ∧ m.closed
  zombie : q.state = .ZOMBIE → q.act.gone
  gone : q.act.gone → m.closed

def Keeps (q : Slot) (m : More) (q' : Slot) (m' : More) : Prop :=
  CleanSlot q m → CleanSlot q' m' ∧ (q'.state ≠ .UNUSED → q.state ≠ .UNUSED ∧ q'.pid = q.pid)

structure Clean (s : Smp) (m : Nat → More) : Prop where
  slot : ∀ j, CleanSlot (s.slot j) (m j)
  pid : ∀ j, (s.slot j).state ≠ .UNUSED → 0 < (s.slot j).pid ∧ (s.slot j).pid < s.nextpid
  apart : ∀ i j, i ≠ j → (s.slot i).state ≠ .UNUSED → (s.slot j).state ≠ .UNUSED → (s.slot i).pid ≠ (s.slot j).pid
  next : 0 < s.nextpid

section
variable {q q' q'' : Slot} {m m' m'' : More}

theorem Keeps.refl (q : Slot) (m : More) : Keeps q m q m := fun h => ⟨h, fun hu => ⟨hu, rfl⟩⟩

theorem Keeps.trans (h : Keeps q m q' m') (h' : Keeps q' m' q'' m'') : Keeps q m q'' m'' := by
  intro hc
  obtain ⟨h1, h2⟩ := h hc
  obtain ⟨h3, h4⟩ := h' h1
  refine ⟨h3, fun hu => ?_⟩
  obtain ⟨hu', hp'⟩ := h4 hu
  obtain ⟨hu'', hp''⟩ := h2 hu'
  exact ⟨hu'', hp'.trans hp''⟩

theorem Keeps.frame (hs : q'.state = q.state) (ha : q'.act = q.act) (hp : q'.pid = q.pid) (hk : q'.killed = q.killed)
    (hc : q'.chan = q.chan) (hz : q'.sz = q.sz) : Keeps q m q' m := by
  intro h
  refine ⟨⟨fun hu => ?_, fun hz => ?_, fun hg => ?_⟩, fun hu => ⟨hs ▸ hu, hp⟩⟩
  · rw [hk, hc, hz, hp]
    exact h.unused (hs ▸ hu)
  · rw [ha]
    exact h.zombie (hs ▸ hz)
  · exact h.gone (ha ▸ hg)

theorem Keeps.live (hu : q.state ≠ .UNUSED) (hu' : q'.state ≠ .UNUSED) (hp : q'.pid = q.pid)
    (hz : q'.state = .ZOMBIE → q'.act.gone) (hg : CleanSlot q m → q'.act.gone → m'.closed) : Keeps q m q' m' :=
  fun h => ⟨⟨fun e => absurd e hu', hz, hg h⟩, fun _ => ⟨hu, hp⟩⟩

theorem Keeps.free (hcl : CleanSlot q m → m'.closed) (hx : m'.xstate = 0) : Keeps q m q.free m' :=
  fun h => ⟨⟨fun _ => ⟨rfl, rfl, rfl, rfl, hx, hcl h⟩, nofun, fun _ => hcl h⟩, fun hu => absurd rfl hu⟩

end

def KeepsAll (s : Smp) (m : Nat → More) (s' : Smp) (m' : Nat → More) : Prop :=
  (∀ j, Keeps (s.slot j) (m j) (s'.slot j) (m' j)) ∧ s'.nextpid = s.nextpid

section
variable {s s' s'' : Smp} {m m' m'' : Nat → More} {p : Nat}

theorem KeepsAll.refl (s : Smp) (m : Nat → More) : KeepsAll s m s m := ⟨fun _ => Keeps.refl _ _, rfl⟩

theorem KeepsAll.trans (h : KeepsAll s m s' m') (h' : KeepsAll s' m' s'' m'') : KeepsAll s m s'' m'' :=
  ⟨fun j => (h.1 j).trans (h'.1 j), h'.2.trans h.2⟩

theorem KeepsAll.same (hs : s'.slot = s.slot) (hn : s'.nextpid = s.nextpid) : KeepsAll s m s' m :=
  ⟨fun j => by rw [hs]; exact Keeps.refl _ _, hn⟩

theorem KeepsAll.put (h : Keeps (s.slot p) (m p) q x) :
    KeepsAll s m (s.put p q) (update m p x) := by
  refine ⟨fun j => ?_, rfl⟩
  by_cases hj : j = p
  · rw [hj, put_self, update_self]
    exact h
  · rw [put_ne hj, update_of_ne hj]
    exact Keeps.refl _ _

theorem KeepsAll.more (h : Keeps (s.slot p) (m p) (s.slot p) x) : KeepsAll s m s (update m p x) := by
  refine ⟨fun j => ?_, rfl⟩
  by_cases hj : j = p
  · rw [hj, update_self]
    exact h
  · rw [update_of_ne hj]
    exact Keeps.refl _ _

theorem KeepsAll.slot {q : Slot} (h : Keeps (s.slot p) (m p) q (m p)) : KeepsAll s m (s.put p q) m := by
  have := KeepsAll.put h
  rwa [update_eq_self] at this

theorem Clean.keep (h : Clean s m) (hk : KeepsAll s m s' m') : Clean s' m' := by
  have hc := fun j => hk.1 j (h.slot j)
  refine ⟨fun j => (hc j).1, fun j hu => ?_, fun i j hij hi hj => ?_, hk.2 ▸ h.next⟩
  · obtain ⟨hu', hp⟩ := (hc j).2 hu
    rw [hp, hk.2]
    exact h.pid j hu'
  · obtain ⟨hi', hpi⟩ := (hc i).2 hi
    obtain ⟨hj', hpj⟩ := (hc j).2 hj
    rw [hpi, hpj]
    exact h.apart i j hij hi' hj'

theorem KeepsAll.goto (hr : (s.slot p).state = .RUNNING) (ha : CleanSlot (s.slot p) (m p) → a.gone → (m p).closed) :
    KeepsAll s m (s.goto p a) m := by
  have hu : (s.slot p).state ≠ .UNUSED := by rw [hr]; exact nofun
  refine KeepsAll.slot (Keeps.live hu hu rfl (fun hz => ?_) ha)
  rw [hr] at hz
  cases hz

theorem KeepsAll.sched {chan : Option Chan} (hr : (s.slot p).state = .RUNNING)
    (hst : st ≠ .UNUSED) (hz : st = .ZOMBIE → (s.slot p).act.gone) : KeepsAll s m (s.sched c p st chan) m := by
  have hu : (s.slot p).state ≠ .UNUSED := by rw [hr]; exact nofun
  have hput : KeepsAll s m (s.put p { s.slot p with state := st, chan := chan }) m :=
    KeepsAll.slot (Keeps.live hu hst rfl hz fun h => h.gone)
  exact hput.trans (KeepsAll.same rfl rfl)

theorem KeepsAll.adopt (pp : Nat) :
    KeepsAll s m (s.adopt p pp) (if (s.slot pp).parent = some p ∧ (s.slot pp).tgid = (s.slot p).pid then
      update m pp ((m pp).close.free (s.slot pp).table) else m) := by
  unfold Smp.adopt
  split
  · rename_i hpar
    split
    · rename_i htg
      rw [if_pos ⟨hpar, htg⟩]
      have hfree : KeepsAll s m (s.freeproc pp) (update m pp ((m pp).close.free (s.slot pp).table)) :=
        KeepsAll.put (Keeps.free (fun _ => ⟨rfl, fun _ => rfl⟩) rfl)
      exact hfree.trans (KeepsAll.slot (Keeps.frame rfl rfl rfl rfl rfl rfl))
    · rename_i htg
      rw [if_neg fun h => htg h.2]
      exact KeepsAll.slot (Keeps.frame rfl rfl rfl rfl rfl rfl)
  · rename_i hpar
    rw [if_neg fun h => hpar h.1]
    exact KeepsAll.refl s m

theorem adopt_self (pp : Nat) (hr : (s.slot p).state = .RUNNING)
    (hz : (s.slot pp).parent = some p ∧ (s.slot pp).tgid = (s.slot p).pid → (s.slot pp).state = .ZOMBIE) :
    ((s.adopt p pp).slot p).state = (s.slot p).state ∧ ((s.adopt p pp).slot p).act = (s.slot p).act := by
  unfold Smp.adopt
  split
  · rename_i hpar
    split
    · rename_i htg
      have hne : p ≠ pp := fun e => by
        have := hz ⟨hpar, htg⟩
        rw [← e, hr] at this
        cases this
      rw [put_self, Smp.freeproc, put_ne hne]
      exact ⟨rfl, rfl⟩
    · by_cases hne : p = pp
      · rw [hne, put_self]
        exact ⟨rfl, rfl⟩
      · rw [put_ne hne]
        exact ⟨rfl, rfl⟩
  · exact ⟨rfl, rfl⟩

theorem reap_self (hr : (s.slot p).state = .RUNNING) (hz : (s.slot pp).state = .ZOMBIE) (thread : Bool) :
    ((s.reap p pp thread).slot p).state = (s.slot p).state := by
  have hne : p ≠ pp := fun e => by rw [← e, hr] at hz; cases hz
  have hfree : (s.freeproc pp).slot p = s.slot p := put_ne hne
  unfold Smp.reap
  split
  · rw [put_self, hfree]
  · exact congrArg Slot.state hfree

theorem KeepsAll.reap (hz : (s.slot pp).state = .ZOMBIE) (thread : Bool) :
    KeepsAll s m (s.reap p pp thread) (update m pp ((m pp).free (s.slot pp).table)) := by
  have hfree : KeepsAll s m { s.freeproc pp with waitLock := false } (update m pp ((m pp).free (s.slot pp).table)) := by
    have hput : KeepsAll s m (s.freeproc pp) (update m pp ((m pp).free (s.slot pp).table)) :=
      KeepsAll.put (Keeps.free (fun h => h.gone (h.zombie hz)) rfl)
    exact hput.trans (KeepsAll.same rfl rfl)
  unfold Smp.reap
  split
  · exact hfree.trans (KeepsAll.slot (Keeps.frame rfl rfl rfl rfl rfl rfl))
  · exact hfree

/-- The slot to which this round of `update_sz` gives the new size. -/
def Smp.resizes (s : Smp) : SmpEvent → Option Nat
  | .step c _ => (s.cpu c).bind fun p =>
    match (s.slot p).act with
    | .resize tgid _ j => if j < NPROC ∧ (s.slot j).tgid = tgid then some j else none
    | _ => none
  | _ => none

theorem KeepsAll.resizing (hr : (s.slot p).state = .RUNNING) {w : Prop} [Decidable w]
    (hw : w → (s.slot j).state ≠ .UNUSED) :
    KeepsAll s m ((if w then s.put j { s.slot j with sz := sz } else s).goto p (.resize tgid sz' j')) m := by
  split
  · rename_i hx
    have hput : KeepsAll s m (s.put j { s.slot j with sz := sz }) m :=
      KeepsAll.slot fun h => ⟨⟨fun e => absurd e (hw hx), h.zombie, h.gone⟩, fun _ => ⟨hw hx, rfl⟩⟩
    refine hput.trans (KeepsAll.goto ?_ fun _ => False.elim)
    by_cases hj : p = j
    · rw [hj, put_self, ← hj]; exact hr
    · rw [put_ne hj]; exact hr
  · exact KeepsAll.goto hr fun _ => False.elim

theorem KeepsAll.step (ho : Owned s) {fail : Bool} (hc : s.cpu c = some p)
    (hS : Settled (.step c fail) s) (hZ : ∀ j ∈ s.resizes (.step c fail), (s.slot j).state ≠ .UNUSED) :
    KeepsAll s m ((s.slot p).act.step fail s c p) ((s.slot p).act.more s m p fail status) := by
  obtain ⟨hp, hr⟩ := ho.run c p hc
  have hu : (s.slot p).state ≠ .UNUSED := by rw [hr]; decide
  have hlive : (s.slot p).live := .inr (.inl hr)
  have hlock : ∀ b, KeepsAll s m { s with waitLock := b } m := fun b => KeepsAll.same rfl rfl
  cases ha : (s.slot p).act with
  | user => exact KeepsAll.refl s m
  | link np thread =>
    obtain ⟨hn, hnu⟩ := ho.child p hp hlive np (by rw [ha]; rfl)
    have hnp : p ≠ np := fun e => by rw [← e, hr] at hnu; cases hnu
    rw [Act.step]
    split
    · exact KeepsAll.refl s m
    · change KeepsAll s m ((s.put np _).goto p _) m
      refine KeepsAll.trans ?_ (KeepsAll.goto ?_ fun _ => False.elim)
      · exact KeepsAll.slot (Keeps.frame rfl rfl rfl rfl rfl rfl)
      · rw [put_ne hnp, hr]
  | publish np thread =>
    obtain ⟨hn, hnu⟩ := ho.child p hp hlive np (by rw [ha]; rfl)
    have hnp : p ≠ np := fun e => by rw [← e, hr] at hnu; cases hnu
    refine KeepsAll.trans ?_ (KeepsAll.goto ?_ fun _ hg => ?_)
    · exact KeepsAll.slot (Keeps.live (by rw [hnu]; decide) (by simp) rfl (by simp) fun h => h.gone)
    · rw [put_ne hnp, hr]
    · cases thread <;> exact hg.elim
  | count np =>
    refine KeepsAll.trans ?_ (KeepsAll.goto ?_ fun _ => False.elim)
    · exact KeepsAll.slot (Keeps.frame rfl rfl rfl rfl rfl rfl)
    · rw [put_self]
      exact hr
  | name np =>
    refine KeepsAll.trans ?_ (KeepsAll.goto ?_ fun _ => False.elim)
    · exact KeepsAll.slot (Keeps.frame rfl rfl rfl rfl rfl rfl)
    · by_cases hnp : p = np
      · rw [hnp, put_self]
        exact hnp ▸ hr
      · rw [put_ne hnp, hr]
  | exiting =>
    rw [Act.step, Act.more]
    split
    · exact KeepsAll.refl s m
    · have hclose : KeepsAll s m { s with waitLock := true } (update m p (m p).close) := by
        refine KeepsAll.trans (KeepsAll.more (Keeps.live hu hu rfl (fun hz => ?_) fun _ _ => ⟨rfl, fun _ => rfl⟩))
          (KeepsAll.same rfl rfl)
        rw [hr] at hz
        cases hz
      refine hclose.trans (KeepsAll.goto hr fun _ _ => ?_)
      rw [update_self]
      exact ⟨rfl, fun _ => rfl⟩
  | reparent pp =>
    have hgone : CleanSlot (s.slot p) (m p) → (m p).closed := fun h => h.gone (by rw [ha]; trivial)
    rw [Act.step, Act.more]
    split
    · rename_i hpp
      have hz : (s.slot pp).parent = some p ∧ (s.slot pp).tgid = (s.slot p).pid → (s.slot pp).state = .ZOMBIE :=
        fun h => hS pp (by simp [Smp.frees, hc, ha, hpp, h.1, h.2])
      have had := KeepsAll.adopt (s := s) (m := m) (p := p) pp
      simp only [hpp, true_and]
      obtain ⟨hst, hact⟩ := adopt_self pp hr hz
      refine had.trans (KeepsAll.goto (hst.trans hr) fun hcl _ => hcl.gone ?_)
      rw [hact, ha]
      trivial
    · rename_i hpp
      simp only [hpp, false_and, if_false]
      exact KeepsAll.goto hr fun h _ => hgone h
  | zombie =>
    have hx : KeepsAll s m s (update m p { m p with xstate := status }) := by
      refine KeepsAll.more (Keeps.live hu hu rfl (fun hz => ?_) fun h => h.gone)
      rw [hr] at hz
      cases hz
    have hw : KeepsAll s m { s with waitLock := false } (update m p { m p with xstate := status }) :=
      hx.trans (KeepsAll.same rfl rfl)
    refine hw.trans (KeepsAll.sched hr (by decide) fun _ => ?_)
    rw [ha]
    trivial
  | waiting thread =>
    rw [Act.step]
    split
    · exact KeepsAll.refl s m
    · exact (hlock true).trans (KeepsAll.goto hr fun _ => False.elim)
  | scan thread pp havekids =>
    rw [Act.step, Act.more]
    by_cases hpp : pp < NPROC
    · simp only [hpp, if_true, true_and]
      by_cases hkid : (s.slot pp).parent = some p ∧ ((s.slot pp).tgid = (s.slot p).pid ↔ thread)
      · simp only [hkid, and_self, if_true, true_and]
        by_cases hz : (s.slot pp).state = .ZOMBIE
        · simp only [hz, if_true, true_and]
          by_cases hf : fail ∧ ¬ thread
          · rw [if_pos hf, if_neg (not_not_intro hf)]
            exact (hlock false).trans (KeepsAll.goto hr fun _ => False.elim)
          · rw [if_neg hf, if_pos hf]
            exact (KeepsAll.reap hz thread).trans (KeepsAll.goto ((reap_self hr hz thread).trans hr) fun _ => False.elim)
        · simp only [hz, if_false, false_and]
          exact KeepsAll.goto hr fun _ => False.elim
      · simp only [hkid, if_false, false_and]
        exact KeepsAll.goto hr fun _ => False.elim
    · simp only [hpp, if_false, false_and]
      split
      · exact (hlock false).trans (KeepsAll.goto hr fun _ => False.elim)
      · refine ((hlock false).trans (KeepsAll.goto hr fun _ => False.elim)).trans (KeepsAll.sched ?_ (by decide) (by simp))
        rw [goto_state]
        exact hr
  | resize tgid sz j =>
    rw [Act.step]
    split
    · rename_i hj
      exact KeepsAll.resizing hr fun hw => hZ j (by simp [Smp.resizes, hc, ha, hj, hw])
    · exact KeepsAll.goto hr fun _ => False.elim

theorem Clean.alloc (h : Clean s m) (p np : Nat) (thread : Bool) (x : More) :
    Clean (s.alloc p np thread) (update m np x) := by
  have hself : (s.alloc p np thread).slot np = { s.slot np with
      state := .USED, pid := s.nextpid, tgid := s.nextpid, thread_count := 1
      table := if thread then (s.slot p).table else some s.nexttable, sz := (s.slot p).sz, act := .user } := put_self
  have hne : ∀ {j}, j ≠ np → (s.alloc p np thread).slot j = s.slot j := fun hj => put_ne hj
  refine ⟨fun j => ?_, fun j hu => ?_, fun i j hij hi hj => ?_, Nat.succ_pos _⟩
  · by_cases hj : j = np
    · rw [hj, hself]
      exact ⟨nofun, nofun, False.elim⟩
    · rw [hne hj, update_of_ne hj]
      exact h.slot j
  · change 0 < _ ∧ _ < s.nextpid + 1
    by_cases hj : j = np
    · rw [hj, hself]
      exact ⟨h.next, Nat.lt_succ_self _⟩
    · rw [hne hj] at hu ⊢
      exact ⟨(h.pid j hu).1, Nat.lt_succ_of_lt (h.pid j hu).2⟩
  · have hother : ∀ k, k ≠ np → ((s.alloc p np thread).slot k).state ≠ .UNUSED →
        ((s.alloc p np thread).slot k).pid ≠ s.nextpid := fun k hk hu => by
      rw [hne hk] at hu ⊢
      exact Nat.ne_of_lt (h.pid k hu).2
    by_cases hin : i = np
    · have hjn : j ≠ np := fun e => hij (hin.trans e.symm)
      rw [hin, hself]
      exact (hother j hjn hj).symm
    · by_cases hjn : j = np
      · rw [hjn, hself]
        exact hother i hin hi
      · rw [hne hin] at hi ⊢
        rw [hne hjn] at hj ⊢
        exact h.apart i j hij hi hj

theorem Clean.make (h : Clean s m) (hr : (s.slot p).state = .RUNNING) (hu : (s.slot np).state = .UNUSED)
    (thread : Bool) :
    Clean ((s.alloc p np thread).goto p (.link np thread)) (update m np ((m np).alloc.fill (m p))) ∧
      Clean ((s.alloc p np thread).freeproc np) (update m np ((m np).alloc.free (some s.nexttable))) := by
  have hne : p ≠ np := fun e => by rw [← e, hr] at hu; cases hu
  have hcl : (m np).closed := ((h.slot np).unused hu).2.2.2.2.2
  constructor
  · refine (h.alloc p np thread _).keep (KeepsAll.goto ?_ fun _ => False.elim)
    rw [show (s.alloc p np thread).slot p = s.slot p from put_ne hne, hr]
  · have hput := KeepsAll.put (s := s.alloc p np thread) (m := update m np ((m np).alloc.free (some s.nexttable)))
      (p := np) (x := (m np).alloc.free (some s.nexttable)) (Keeps.free (fun _ => hcl) rfl)
    rw [update_idem] at hput
    exact (h.alloc p np thread _).keep hput

theorem Clean.call (h : Clean s m) (hr : (s.slot p).state = .RUNNING) (sc : Call) :
    Clean (sc.step s p) (sc.more s m p) := by
  cases sc with
  | kfork np ok | clone np ok =>
    rw [Call.step, Call.more, Call.make]
    split
    · rename_i hx
      cases ok with
      | true => exact (h.make hr hx.2 _).1
      | false => exact (h.make hr hx.2 _).2
    · exact h
  | kexec =>
    have hput : KeepsAll s m (s.put p { s.slot p with table := some s.nexttable }) m :=
      KeepsAll.slot (Keeps.frame rfl rfl rfl rfl rfl rfl)
    exact h.keep (hput.trans (KeepsAll.same rfl rfl))
  | mmap | munmap => exact h
  | sbrk sz lazily => exact h.keep (KeepsAll.resizing hr (by simp [hr]))
  | kexit | kwait | join => exact h.keep (KeepsAll.goto hr fun _ => False.elim)

end

def Spares (e : SmpEvent) (s : Smp) : Prop := Settled e s ∧ ∀ j ∈ s.resizes e, (s.slot j).state ≠ .UNUSED

instance (e : SmpEvent) (s : Smp) : Decidable (Spares e s) := inferInstanceAs (Decidable (_ ∧ ∀ j ∈ s.resizes e, _))

/-- Nobody asks for the process with pid 0; no round of `update_sz` comes to a free slot that has the `tgid`; and when
`reparent` frees a thread, the thread has exited. -/
def Careful (e : TableEvent) (t : Table) : Prop :=
  match e with
  | .kkill pid _ => pid ≠ 0
  | .smp (.kkill pid _) _ => pid ≠ 0
  | .smp e _ => Spares e t.smp
  | _ => True

section
variable {s : Smp} {m : Nat → More}

theorem KeepsAll.kkill {pid p : Nat} (hu : (s.slot p).pid = pid → (s.slot p).state ≠ .UNUSED) :
    KeepsAll s m ((SmpEvent.kkill pid p).next s) m := by
  rw [SmpEvent.next]
  split
  · rename_i hx
    have hu := hu hx.2
    have hst : ∀ st, (if (s.slot p).state = .SLEEPING then ProcState.RUNNABLE else (s.slot p).state) = st →
        st = .RUNNABLE ∨ (s.slot p).state = st := fun st e => by
      split at e
      · exact .inl e.symm
      · exact .inr e
    refine KeepsAll.slot fun h => ⟨⟨fun e => ?_, fun e => ?_, h.gone⟩, fun _ => ⟨hu, rfl⟩⟩
    · exact (hst _ e).elim (by simp) fun e => absurd e hu
    · exact (hst _ e).elim (by simp) fun e => h.zombie e
  · exact KeepsAll.refl s m

theorem Clean.smp (h : Clean s m) (ho : Owned s) {e : SmpEvent} (he : Careful (.smp e status) ⟨s, m⟩) :
    Clean (e.next s) (e.more s m status) := by
  cases e with
  | schedule c p =>
    refine h.keep ?_
    rw [SmpEvent.next]
    split
    · rename_i hx
      have hput : KeepsAll s m (s.put p { s.slot p with state := .RUNNING }) m :=
        KeepsAll.slot (Keeps.live (by rw [hx.2.2]; decide) (by simp) rfl (by simp) fun h => h.gone)
      exact hput.trans (KeepsAll.same rfl rfl)
    · exact KeepsAll.refl s m
  | yield c =>
    refine h.keep ?_
    rw [SmpEvent.next]
    split
    · exact KeepsAll.refl s m
    · rename_i p hc
      split
      · exact KeepsAll.refl s m
      · exact KeepsAll.sched (ho.run c p hc).2 (by decide) (by simp)
  | sleep c chan =>
    refine h.keep ?_
    rw [SmpEvent.next]
    split
    · exact KeepsAll.refl s m
    · rename_i p hc
      split
      · exact KeepsAll.sched (ho.run c p hc).2 (by decide) (by simp)
      · exact KeepsAll.refl s m
  | wakeup c chan p =>
    refine h.keep ?_
    rw [SmpEvent.next, SmpEvent.more]
    split
    · rename_i hx
      exact KeepsAll.put (Keeps.live (by rw [hx.2.2.1]; decide) (by simp) rfl (by simp) fun h hg => h.gone hg)
    · exact KeepsAll.refl s m
  | kkill pid p =>
    refine h.keep (KeepsAll.kkill fun hp hu => he ?_)
    rw [← hp, ((h.slot p).unused hu).2.2.2.1]
  | call c sc =>
    rw [SmpEvent.next, SmpEvent.more]
    cases hc : s.cpu c with
    | none => exact h
    | some p =>
      dsimp only
      split
      · exact h.call (ho.run c p hc).2 sc
      · exact h
  | step c fail =>
    rw [SmpEvent.next, SmpEvent.more]
    cases hc : s.cpu c with
    | none => exact h
    | some p => exact h.keep (KeepsAll.step ho hc he.1 he.2)

end

def Table.tidy (t : Table) : Prop := Owned t.smp ∧ Clean t.smp t.more

theorem settled_of_careful (h : Careful (.smp e status) t) : Settled e t.smp := by
  cases e with
  | step c fail => exact h.1
  | _ => exact nofun

theorem tidy_own (h : t.tidy)
    (hf : ∀ p, (t.smp.slot p).state = .RUNNING → (t.smp.slot p).act = .user → (f p).tidy) : (t.own c f).tidy := by
  unfold Table.own
  cases hc : t.smp.cpu c with
  | none => exact h
  | some p =>
    dsimp only
    split
    · rename_i ha
      exact hf p (h.1.run c p hc).2 ha
    · exact h

theorem tidy_setMore (h : t.tidy) (hs : x.xstate = (t.more p).xstate)
    (hx : (t.smp.slot p).state = .UNUSED ∨ (t.smp.slot p).act.gone → (t.more p).closed → x.closed) :
    (t.setMore p x).tidy := by
  refine ⟨h.1, h.2.keep (KeepsAll.more fun hcl => ⟨⟨fun e => ?_, hcl.zombie, fun hg => ?_⟩, fun hu => ⟨hu, rfl⟩⟩)⟩
  · obtain ⟨h1, h2, h3, h4, h5, h6⟩ := hcl.unused e
    exact ⟨h1, h2, h3, h4, hs.trans h5, hx (.inl e) h6⟩
  · exact hx (.inr hg) (hcl.gone hg)

theorem tidy_setOwn (h : t.tidy) (hr : (t.smp.slot p).state = .RUNNING)
    (ha : (t.smp.slot p).act = .user) (hs : x.xstate = (t.more p).xstate) : (t.setMore p x).tidy := by
  refine tidy_setMore h hs fun hb => ?_
  rw [hr, ha] at hb
  exact hb.elim nofun False.elim

theorem tidy_put (h : t.tidy) (hr : (t.smp.slot p).state = .RUNNING)
    (hs : q.state = (t.smp.slot p).state) (ha : q.act = (t.smp.slot p).act) (hp : q.pid = (t.smp.slot p).pid) :
    Table.tidy { t with smp := t.smp.put p q } := by
  have hu : (t.smp.slot p).state ≠ .UNUSED := by rw [hr]; exact nofun
  refine ⟨h.1.put hs ha, h.2.keep (KeepsAll.slot (Keeps.live hu (hs ▸ hu) hp (fun hz => ?_) fun hc hg => hc.gone (ha ▸ hg)))⟩
  rw [hs, hr] at hz
  cases hz

theorem tidy_next (h : t.tidy) {e : TableEvent} (he : Careful e t) : (e.next t).tidy := by
  cases e with
  | smp e status => exact ⟨(h.1.next (settled_of_careful he)).1, h.2.smp h.1 he⟩
  | kkill pid p =>
    rw [TableEvent.next]
    split
    · rename_i hx
      have hS : Settled (.kkill (t.smp.slot p).pid p) t.smp := nofun
      refine ⟨(h.1.next hS).1, h.2.keep (KeepsAll.kkill fun _ hu => he ?_)⟩
      rw [← hx.2, ((h.2.slot p).unused hu).2.2.2.1]
      rfl
    · exact h
  | setpriority pid priority p =>
    rw [TableEvent.next]
    split
    · exact h
    · split
      · exact tidy_setMore h rfl fun _ => id
      · exact h
  | mlfq_tick c =>
    rw [TableEvent.next]
    split
    · exact h
    · refine tidy_setMore h ?_ fun _ hc => ?_
      · unfold More.tick
        split <;> rfl
      · unfold More.tick
        split <;> exact hc
  | mlfq_boost p =>
    rw [TableEvent.next]
    split
    · exact tidy_setMore h rfl fun _ => id
    · exact h
  | setkilled c =>
    rw [TableEvent.next]
    split
    · exact h
    · rename_i p hc
      exact tidy_put h (h.1.run c p hc).2 rfl rfl rfl
  | setOfile c fd f | setCwd c ip | setVma c i used => exact tidy_own h fun p hr ha => tidy_setOwn h hr ha rfl
  | setSz c sz => exact tidy_own h fun p hr ha => tidy_put h hr rfl rfl rfl

theorem tidy_start (root : Nat) : (Table.start root).tidy := by
  refine ⟨Owned.start _, fun j => ?_, fun j hu => ?_, fun i j hij hi hj => ?_, Nat.succ_pos _⟩
  · by_cases hj : j = 0
    · rw [hj]
      exact ⟨nofun, nofun, False.elim⟩
    · have hs : (Table.start root).smp.slot j = blankSlot := if_neg hj
      have hm : (Table.start root).more j = More.zero := if_neg hj
      rw [hs, hm]
      exact ⟨fun _ => ⟨rfl, rfl, rfl, rfl, rfl, rfl, fun _ => rfl⟩, nofun, False.elim⟩
  · by_cases hj : j = 0
    · rw [hj]
      exact ⟨Nat.one_pos, Nat.one_lt_two⟩
    · exact absurd (congrArg Slot.state (if_neg hj)) hu
  · by_cases hi0 : i = 0
    · exact absurd (congrArg Slot.state (if_neg fun e => hij (hi0.trans e.symm))) hj
    · exact absurd (congrArg Slot.state (if_neg hi0)) hi

theorem wp_tableEvent {e : TableEvent} {Q : Unit → Table → Prop} (h : Q () (e.next t)) :
    wp e.run Q (fun _ => True) t := by
  unfold TableEvent.run
  rw [wp_read]
  split
  · refine wp_ite (fun _ => ?_) fun _ => ?_
    · exact wp_fail trivial
    · rwa [wp_set]
  · rwa [wp_set]

structure FreshSlot (x : Slot × More) : Prop where
  killed : x.1.killed = false
  chan : x.1.chan = none
  xstate : x.2.xstate = 0
  sz : x.1.sz = 0
  cwd : x.2.cwd = none
  ofile : ∀ fd, x.2.ofile fd = none
  vmas : ∀ i, x.2.vmas i = false
  priority : x.2.priority = 0
  ticks_used : x.2.ticks_used = 0

/-- Whenever `allocproc` finds a free slot it returns it fresh, with a pid that nobody has; and `kkill` and
`setpriority` find processes only. -/
theorem slots_fresh (root : Nat) (tr : List (TableEvent × Table)) (t : Table)
    (h : Trace TableEvent.run Careful (Table.start root) tr t) :
    (∀ np < NPROC, (t.smp.slot np).state = .UNUSED → FreshSlot (t.allocproc np) ∧
      ∀ j < NPROC, (t.smp.slot j).state ≠ .UNUSED → (t.smp.slot j).pid ≠ (t.allocproc np).1.pid) ∧
    ∀ pid p, pid ≠ 0 → t.hits pid p → (t.smp.slot p).state ≠ .UNUSED := by
  have ht : t.tidy := h.inv Table.tidy (tidy_start root) fun e t hi he => wp_tableEvent (tidy_next hi he)
  refine ⟨fun np _ hu => ⟨?_, fun j _ hj => Nat.ne_of_lt (ht.2.pid j hj).2⟩, fun pid p h0 hh hu => h0 ?_⟩
  · obtain ⟨hk, hc, hz, -, hx, hcwd, hof⟩ := (ht.2.slot np).unused hu
    exact ⟨hk, hc, hx, hz, hcwd, hof, fun _ => rfl, rfl, rfl⟩
  · rw [← hh.2, ((ht.2.slot p).unused hu).2.2.2.1]
    rfl

instance decidableCareful : (e : TableEvent) → (t : Table) → Decidable (Careful e t)
  | .kkill .., _ => inferInstanceAs (Decidable (_ ≠ _))
  | .smp (.kkill ..) _, _ => inferInstanceAs (Decidable (_ ≠ _))
  | .smp (.schedule ..) _, _ | .smp (.yield _) _, _ | .smp (.sleep ..) _, _ | .smp (.wakeup ..) _, _
  | .smp (.call ..) _, _ | .smp (.step ..) _, _ => inferInstanceAs (Decidable (Spares _ _))
  | .setpriority .., _ | .mlfq_tick _, _ | .mlfq_boost _, _ | .setkilled _, _ | .setOfile .., _ | .setCwd .., _
  | .setVma .., _ | .setSz .., _ => .isTrue trivial

theorem slots_fresh_forked : ∃ tr t, Trace TableEvent.run Careful (Table.start 1) tr t ∧ (t.smp.slot 1).state = .USED ∧
    (t.smp.slot 2).state = .UNUSED ∧ FreshSlot (t.allocproc 2) ∧ (t.smp.slot 1).pid ≠ (t.allocproc 2).1.pid := by
  have hrun : (runs TableEvent.run Careful [.smp (.schedule 0 0) 0, .smp (.call 0 (.kfork 1 true)) 0] (Table.start 1)).any
      (fun t => decide ((t.smp.slot 1).state = .USED) && decide ((t.smp.slot 2).state = .UNUSED)) = true := by
    decide +kernel
  obtain ⟨tr, t, htr, ht⟩ := Trace.of_any hrun
  rw [Bool.and_eq_true, decide_eq_true_eq, decide_eq_true_eq] at ht
  obtain ⟨hf, hp⟩ := (slots_fresh 1 tr t htr).1 2 (by decide) ht.2
  exact ⟨tr, t, htr, ht.1, ht.2, hf, hp 1 (by decide) (by rw [ht.1]; exact nofun)⟩

/-- `kkill(0)` finds the first free slot, returns 0 and marks it as killed; the next process that `allocproc` puts there
has been killed before it runs. -/
theorem slot_killed_before_use : ∃ tr t t' tr', Trace TableEvent.run (fun _ _ => True) (Table.start 1) tr t ∧ t.hits 0 1 ∧
    (t.smp.slot 1).state = .UNUSED ∧ t' = (TableEvent.kkill 0 1).next t ∧
    Trace TableEvent.run (fun _ _ => True) (Table.start 1) tr' t' ∧ (t'.smp.slot 1).state = .UNUSED ∧
    (t'.allocproc 1).1.killed = true ∧ ¬ FreshSlot (t'.allocproc 1) := by
  have h0 : Trace TableEvent.run (fun _ _ => True) (Table.start 1) [(.kkill 0 0, Table.start 1)] (Table.start 1) :=
    .step .start trivial rfl
  have h1 := h0.step (e := .kkill 0 1) trivial rfl
  exact ⟨_, _, _, _, h0, by decide, rfl, rfl, h1, rfl, rfl, fun hf => nomatch hf.killed⟩

end Xv6
