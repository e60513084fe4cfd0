import Xv6.Pipe

/-!
# Pipes are lossless, and when they wake up their sleepers

The bytes that were accepted and not yet delivered are what lies in the ring
between the two counters. Nobody sleeps on a pipe that has something for
it, as long as no writer finds that it was killed between a byte that it puts in
and its next `wakeup`.
-/

namespace Xv6

open Hoare List

/-! ## The ring -/

/-- `rest` is what was accepted and not delivered yet. -/
structure Ring (d : PipeData) (rest : List UInt8) : Prop where
  accepted : d.accepted = d.delivered ++ rest
  room : rest.length ≤ PIPESIZE
  read : d.nread < 2 ^ 32
  write : d.nwrite = (d.nread + rest.length) % 2 ^ 32
  stored : ∀ k (hk : k < rest.length), d.data ((d.nread + k) % PIPESIZE) = rest[k]

theorem ring_new (data : Nat → UInt8) : Ring (PipeData.new data) [] :=
  ⟨rfl, Nat.zero_le _, Nat.two_pow_pos 32, rfl, fun _ hk => absurd hk (Nat.not_lt_zero _)⟩

theorem Ring.put {d : PipeData} {rest : List UInt8} (h : Ring d rest) (hf : ¬ d.full) (ch : UInt8) :
    Ring (d.put ch) (rest ++ [ch]) := by
  have hroom := h.room
  have hread := h.read
  have hwrite := h.write
  have hlt : rest.length < PIPESIZE := by
    refine Nat.lt_of_le_of_ne hroom fun e => hf ?_
    rw [PipeData.full, hwrite, e]
  refine ⟨?_, ?_, hread, ?_, fun k hk => ?_⟩
  · change d.accepted ++ [ch] = d.delivered ++ (rest ++ [ch])
    rw [h.accepted, append_assoc]
  · rw [length_append, length_singleton]
    exact hlt
  · change (d.nwrite + 1) % 2 ^ 32 = (d.nread + (rest ++ [ch]).length) % 2 ^ 32
    rw [hwrite, length_append, length_singleton]
    omega
  · change Function.update d.data (d.nwrite % PIPESIZE) ch ((d.nread + k) % PIPESIZE) = (rest ++ [ch])[k]
    -- 512 divides 2 ^ 32, so the cell written is the one after the last of `rest`, also when the counter wraps
    have hcell : d.nwrite % PIPESIZE = (d.nread + rest.length) % PIPESIZE := by
      rw [hwrite]
      exact Nat.mod_mod_of_dvd _ (by decide)
    rw [length_append, length_singleton] at hk
    rw [hcell]
    by_cases hkl : k = rest.length
    · subst hkl
      rw [Function.update_self, getElem_concat_length rfl]
    · have hk' : k < rest.length := by omega
      rw [Function.update_of_ne (by lia), h.stored k hk', getElem_append_left hk']

theorem Ring.get {d : PipeData} {rest : List UInt8} (h : Ring d rest) (hne : d.nread ≠ d.nwrite) :
    Ring d.get rest.tail := by
  have hroom := h.room
  have hread := h.read
  have hwrite := h.write
  cases rest with
  | nil =>
    rw [length_nil, Nat.add_zero, Nat.mod_eq_of_lt hread] at hwrite
    exact absurd hwrite.symm hne
  | cons b rest =>
    have hb : d.data (d.nread % PIPESIZE) = b := h.stored 0 (Nat.zero_lt_succ _)
    rw [length_cons] at hroom hwrite
    refine ⟨?_, Nat.le_of_succ_le hroom, Nat.mod_lt _ (Nat.two_pow_pos 32), ?_, fun k hk => ?_⟩
    · change d.accepted = (d.delivered ++ [d.data (d.nread % PIPESIZE)]) ++ rest
      rw [h.accepted, hb, append_assoc]
      rfl
    · change d.nwrite = ((d.nread + 1) % 2 ^ 32 + rest.length) % 2 ^ 32
      omega
    · have hcell : ((d.nread + 1) % 2 ^ 32 + k) % PIPESIZE = (d.nread + (k + 1)) % PIPESIZE := by
        lia
      change d.data (((d.nread + 1) % 2 ^ 32 + k) % PIPESIZE) = rest[k]
      rw [hcell]
      exact h.stored (k + 1) (Nat.succ_lt_succ hk)

theorem ring_act (k : PipePc) (f : Nat → PipeData → PipeData × PipePc) (hk : pipeCode k = .act f) (p : Nat)
    (d : PipeData) (h : ∃ rest, Ring d rest) : ∃ rest, Ring (f p d).1 rest := by
  obtain ⟨rest, h⟩ := h
  cases k with
  | writeLoop | readWait =>
    cases hk
    exact ⟨rest, h⟩
  | writeBody a i fresh =>
    cases hk
    dsimp only
    split
    · exact ⟨rest, h⟩
    · rename_i hf
      split
      · exact ⟨rest, h⟩
      · exact ⟨_, h.put hf _⟩
  | readCopy a i =>
    cases hk
    dsimp only
    split
    · split
      · exact ⟨rest, h⟩
      · rename_i hne
        split
        · exact ⟨rest, h⟩
        · exact ⟨_, h.get hne⟩
    · exact ⟨rest, h⟩
  | closeSet w =>
    cases hk
    cases w <;> exact ⟨rest, h.accepted, h.room, h.read, h.write, h.stored⟩
  | _ => cases hk

/-- Whatever was accepted and not yet delivered is still there, in order, and it is what the counters say. -/
theorem pipe_fifo (n : Nat) (data : Nat → UInt8) (tr : List (PipeEvent × PipeSys)) (s : PipeSys)
    (h : Trace (pipeRun n) (fun _ _ => True) (pipeBoot data) tr s) :
    ∃ rest, s.data.accepted = s.data.delivered ++ rest ∧
      (rest.length : Int) = ((s.data.nwrite : Int) - s.data.nread) % 2 ^ 32 ∧ rest.length ≤ PIPESIZE ∧
      s.data.nread < 2 ^ 32 ∧ s.data.nwrite < 2 ^ 32 ∧
      ∀ k (hk : k < rest.length), s.data.data ((s.data.nread + k) % PIPESIZE) = rest[k] := by
  obtain ⟨rest, hr⟩ := Monitor.data_trace (fun d => ∃ rest, Ring d rest) ring_act ⟨[], ring_new data⟩ h
  have hroom := hr.room
  have hread := hr.read
  have hwrite := hr.write
  simp only [PIPESIZE] at hroom
  exact ⟨rest, hr.accepted, by omega, hroom, hread, by omega, hr.stored⟩

theorem pipe_fifo_byte : ∃ tr s, Trace (pipeRun 2) (fun _ _ => True) (pipeBoot fun _ => 0) tr s ∧
    s.data.delivered = [7] ∧ ∃ rest, s.data.accepted = s.data.delivered ++ rest ∧
      (rest.length : Int) = ((s.data.nwrite : Int) - s.data.nread) % 2 ^ 32 ∧ rest.length ≤ PIPESIZE ∧
      s.data.nread < 2 ^ 32 ∧ s.data.nwrite < 2 ^ 32 ∧
      ∀ k (hk : k < rest.length), s.data.data ((s.data.nread + k) % PIPESIZE) = rest[k] := by
  have hrun : (runs (pipeRun 2) (fun _ _ => True)
      (.enter 1 (.writeStart ⟨1, fun _ => some 7⟩) :: replicate 10 (.step 1) ++
        .enter 0 (.readStart ⟨1, fun _ => true⟩) :: replicate 10 (.step 0)) (pipeBoot fun _ => 0)).any
        (fun s => s.data.delivered == [7]) = true := by decide +kernel
  obtain ⟨tr, s, htr, hs⟩ := Trace.of_any hrun
  exact ⟨tr, s, htr, eq_of_beq hs, pipe_fifo 2 (fun _ => 0) tr s htr⟩

/-! ## Sleepers -/

namespace PipePc

def locked : PipePc → Prop
  | out _ | writeStart _ | writeAgain _ _ | readStart _ | readAgain _ | closeStart _ => False
  | _ => True

def here : PipePc → PipeData → Prop
  | writeLoop _ _ true, d | writeKilled _ _ _, d | writeBody _ _ _, d => d.readopen = true
  | _, _ => True

/-- A writer that has put in a byte since its last `wakeup(&pi->nread)` tests `killed`. -/
def quits : PipePc → Bool
  | writeKilled _ _ true => true
  | _ => false

def sleepy : PipePc → PipeChan → Prop
  | writeFull _ _, .nwrite | writeSleep _ _, .nwrite | readKilled _, .nread | readSleep _, .nread => True
  | _, _ => False

def owes : PipePc → PipeChan → Prop
  | writeLoop _ _ true, .nread | writeKilled _ _ true, .nread | writeBody _ _ true, .nread | writeFull _ _, .nread
  | writeDone _, .nread | closeWake true, .nread => True
  | readCopy _ _, .nwrite | readDone _, .nwrite | closeWake false, .nwrite => True
  | _, _ => False

end PipePc

def PipeChan.good : PipeChan → PipeData → Prop
  | .nread, d => d.nread = d.nwrite ∧ d.writeopen = true
  | .nwrite, d => d.full ∧ d.readopen = true

def pipeMarks : Monitor.Marks PipeData PipePc PipeChan :=
  ⟨PipePc.locked, fun _ => True, fun _ => True, fun _ => PipePc.here, fun k => k.quits = true, PipePc.sleepy,
    fun _ _ => True, PipePc.owes, fun _ => True, PipeChan.good⟩

theorem rules_act (k : PipePc) (f : Nat → PipeData → PipeData × PipePc) (hk : pipeCode k = .act f) (p : Nat)
    (d : PipeData) (_ : pipeMarks.glob d) (hd : pipeMarks.here p k d) :
    (pipeMarks.locked (f p d).2 ↔ pipeMarks.locked k) ∧ pipeMarks.glob (f p d).1 ∧
      pipeMarks.here p (f p d).2 (f p d).1 ∧ (∀ c, pipeMarks.sleepy (f p d).2 c → pipeMarks.good c (f p d).1) ∧
      ∀ c, pipeMarks.owes k c ∨ pipeMarks.good c d ∧ ¬ pipeMarks.good c (f p d).1 → pipeMarks.owes (f p d).2 c := by
  cases k <;> cases hk
  case writeLoop a i fresh =>
    have hown : ∀ c, pipeMarks.owes (.writeLoop a i fresh) c → c = .nread ∧ fresh := by
      intro c h
      cases fresh <;> cases c <;> trivial
    dsimp only
    split
    · split
      · rename_i hopen
        cases fresh with
        | true =>
          -- the reader's end was open when the lock was taken, and it still is
          have : d.readopen := hd
          rw [hopen] at this
          cases this
        | false => exact ⟨Iff.rfl, trivial, trivial, fun _ => False.elim, pipeMarks.owes_same fun _ => id⟩
      · rename_i hopen
        refine ⟨Iff.rfl, trivial, (Bool.not_eq_false d.readopen).mp hopen, fun c => False.elim,
          pipeMarks.owes_same fun c h => ?_⟩
        obtain ⟨rfl, rfl⟩ := hown c h
        trivial
    · refine ⟨Iff.rfl, trivial, trivial, fun _ => False.elim, pipeMarks.owes_same fun c h => ?_⟩
      obtain ⟨rfl, -⟩ := hown c h
      trivial
  case writeBody a i fresh =>
    have hopen : d.readopen := hd
    have hown : ∀ c, pipeMarks.owes (.writeBody a i fresh) c → c = .nread := by
      intro c h
      cases fresh <;> cases c <;> trivial
    dsimp only
    split
    · rename_i hfull
      refine ⟨Iff.rfl, trivial, trivial, fun c h => ?_, pipeMarks.owes_same fun c h => ?_⟩
      · cases c with
        | nread => cases h
        | nwrite => exact ⟨hfull, hopen⟩
      · obtain rfl := hown c h
        trivial
    · rename_i hfull
      split
      · refine ⟨Iff.rfl, trivial, trivial, fun _ => False.elim, pipeMarks.owes_same fun c h => ?_⟩
        obtain rfl := hown c h
        trivial
      · refine ⟨Iff.rfl, trivial, hopen, fun c => False.elim, fun c h => ?_⟩
        cases c with
        | nread => trivial
        | nwrite =>
          rcases h with h | h
          · cases fresh <;> cases h
          · exact absurd h.1.1 hfull
  case readWait a =>
    dsimp only
    split
    · rename_i hempty
      refine ⟨Iff.rfl, trivial, trivial, fun c h => ?_, pipeMarks.owes_same fun _ => False.elim⟩
      cases c with
      | nread => exact hempty
      | nwrite => cases h
    · exact ⟨Iff.rfl, trivial, trivial, fun _ => False.elim, pipeMarks.owes_same fun _ => False.elim⟩
  case readCopy a i =>
    have hdone : ∀ r c, pipeMarks.owes (.readCopy a i) c → pipeMarks.owes (.readDone r) c := by
      intro r c h
      cases c <;> exact h
    dsimp only
    split
    · split
      · exact ⟨Iff.rfl, trivial, trivial, fun _ => False.elim, pipeMarks.owes_same (hdone _)⟩
      · rename_i hne
        split
        · exact ⟨Iff.rfl, trivial, trivial, fun _ => False.elim, pipeMarks.owes_same (hdone _)⟩
        · refine ⟨Iff.rfl, trivial, trivial, fun _ => False.elim, fun c h => ?_⟩
          cases c with
          | nread => exact h.elim id fun h => absurd h.1.1 hne
          | nwrite => trivial
    · exact ⟨Iff.rfl, trivial, trivial, fun _ => False.elim, pipeMarks.owes_same (hdone _)⟩
  case closeSet w =>
    refine ⟨Iff.rfl, trivial, trivial, fun _ => False.elim, fun c h => ?_⟩
    cases w <;> cases c
    case false.nwrite | true.nread => trivial
    all_goals exact h.elim id fun h => absurd h.1 h.2

theorem rules_killed (k : PipePc) (f : Bool → PipePc) (hk : pipeCode k = .killed f) (b : Bool) :
    (pipeMarks.locked (f b) ↔ pipeMarks.locked k) ∧ (∀ p d, pipeMarks.here p k d → pipeMarks.here p (f b) d) ∧
      (∀ c, pipeMarks.sleepy (f b) c → pipeMarks.sleepy k c) ∧
      ∀ c, pipeMarks.owes k c → pipeMarks.owes (f b) c ∨ b ∧ pipeMarks.quits k := by
  cases k <;> cases hk
  case writeKilled a i fresh =>
    cases b with
    | true =>
      refine ⟨Iff.rfl, fun _ _ _ => trivial, fun _ => False.elim, fun c h => .inr ⟨rfl, ?_⟩⟩
      cases fresh <;> cases c <;> trivial
    | false =>
      refine ⟨Iff.rfl, fun _ _ => id, fun _ => False.elim, fun c h => .inl ?_⟩
      cases fresh <;> cases c <;> trivial
  case readKilled a =>
    cases b with
    | true => exact ⟨Iff.rfl, fun _ _ _ => trivial, fun _ => False.elim, fun _ => False.elim⟩
    | false => exact ⟨Iff.rfl, fun _ _ _ => trivial, fun c => by cases c <;> exact id, fun _ => False.elim⟩

theorem rules_wakeup (k : PipePc) (c : PipeChan) (k' : PipePc) (hk : pipeCode k = .wakeup c k') :
    pipeMarks.locked k ∧ pipeMarks.locked k' ∧ (∀ p d, pipeMarks.here p k d → pipeMarks.here p k' d) ∧
      (∀ c', pipeMarks.sleepy k' c' → pipeMarks.sleepy k c') ∧
      ∀ c', pipeMarks.owes k c' → c' = c ∧ pipeMarks.pays k' ∨ pipeMarks.owes k' c' := by
  have howes : ∀ c', pipeMarks.owes k c' → c' = c := by
    intro c' h
    cases k <;> cases hk
    case closeWake w => cases w <;> cases c' <;> first | rfl | exact h.elim
    all_goals cases c' <;> first | rfl | exact h.elim
  cases k <;> cases hk
  case writeFull a i =>
    exact ⟨trivial, trivial, fun _ _ _ => trivial, fun c' =>
      by cases c' <;> exact id, fun c' h => .inl ⟨howes c' h, trivial⟩⟩
  all_goals exact ⟨trivial, trivial, fun _ _ _ => trivial, fun _ => False.elim, fun c' h => .inl ⟨howes c' h, trivial⟩⟩

theorem pipe_rules : Monitor.Rules pipeMarks pipeCode PipePc.isCall where
  idle k hk := by
    cases k <;> cases hk
    exact ⟨id, fun _ => id, fun _ => id⟩
  start _ k _ hk := by
    cases k <;> cases hk
    all_goals exact ⟨id, fun _ _ _ _ => trivial, fun _ => id⟩
  acquire k k' hk := by
    cases k <;> cases hk
    all_goals exact ⟨trivial, fun _ _ _ _ => trivial, fun _ => id, fun _ => False.elim⟩
  release k k' hk := by
    cases k <;> cases hk
    exact ⟨trivial, id, fun _ _ _ => ⟨trivial, trivial⟩, fun _ => id, fun _ => False.elim⟩
  act := rules_act
  outside _ _ _ _ _ _ _ _ := id
  other k f hk p q k' d _ _ _ hq hl := by
    -- all who act have the lock, and what is known is known with the lock
    have hk' : ¬ k'.locked := fun h => hl ⟨by cases k <;> cases hk <;> trivial, h⟩
    cases k' <;> trivial
  killed := rules_killed
  wakeup := rules_wakeup
  sleep k c k' hk := by
    cases k <;> cases hk
    all_goals exact ⟨trivial, id, fun _ _ _ => ⟨trivial, trivial⟩, fun _ => trivial, fun _ => id, fun c =>
      by cases c <;> exact id⟩
  sleepy_locked k c h := by
    cases k <;> trivial

theorem owes_locked {k : PipePc} {c : PipeChan} (h : k.owes c) : k.locked := by
  cases k <;> trivial

/-- No writer that has put in a byte since its last `wakeup(&pi->nread)` finds out that it was killed. -/
def SparesWriters (e : PipeEvent) (s : PipeSys) : Prop := Monitor.Spares pipeMarks e s

instance decidableSparesWriters (e : PipeEvent) (s : PipeSys) : Decidable (SparesWriters e s) :=
  match e with
  | .step p => inferInstanceAs (Decidable ((s.proc p).ctl.cont.quits = true → (s.proc p).killed = false))
  | .kill _ | .enter _ _ | .rouse _ => .isTrue trivial

theorem pipe_no_lost_wakeup (n : Nat) (data : Nat → UInt8) (tr : List (PipeEvent × PipeSys)) (s : PipeSys)
    (h : Trace (pipeRun n) SparesWriters (pipeBoot data) tr s) (hfree : s.holder = none) (p : Nat) :
    ((s.proc p).asleep = some .nread → s.data.nread = s.data.nwrite ∧ s.data.writeopen = true) ∧
      ((s.proc p).asleep = some .nwrite → s.data.full ∧ s.data.readopen = true) := by
  have hinv := (Monitor.inv_boot pipe_rules (n := n) (d := PipeData.new data) (k := .out none) rfl trivial trivial
    fun _ => trivial).trace pipe_rules h
  have hgood : ∀ c, (s.proc p).asleep = some c → c.good s.data := by
    intro c hc
    rcases hinv.covered p c (.inl ⟨hc, trivial⟩) with hg | ⟨q, -, hq⟩
    · exact hg
    · -- whoever owes a wakeup has the lock
      have hl : pipeMarks.locked (s.proc q).ctl.cont := by
        cases hctl : (s.proc q).ctl with
        | pt k =>
          rw [hctl] at hq
          exact owes_locked hq
        | waking c' j k =>
          obtain ⟨k₀, hk₀⟩ := hinv.waking q c' j k hctl
          exact (rules_wakeup k₀ c' k hk₀).2.1
      rw [(hinv.lock q).mpr hl] at hfree
      cases hfree
  exact ⟨hgood .nread, hgood .nwrite⟩

theorem pipe_no_lost_wakeup_reader : ∃ tr s, Trace (pipeRun 2) SparesWriters (pipeBoot fun _ => 0) tr s ∧
    s.holder = none ∧ (s.proc 0).asleep = some .nread ∧ s.data.nread = s.data.nwrite ∧ s.data.writeopen = true := by
  have hrun : (runs (pipeRun 2) SparesWriters
      (.enter 0 (.readStart ⟨1, fun _ => true⟩) :: replicate 4 (.step 0)) (pipeBoot fun _ => 0)).any
        (fun s => s.holder == none && (s.proc 0).asleep == some .nread) = true := by decide +kernel
  obtain ⟨tr, s, htr, hs⟩ := Trace.of_any hrun
  rw [Bool.and_eq_true, beq_iff_eq, beq_iff_eq] at hs
  exact ⟨tr, s, htr, hs.1, hs.2, (pipe_no_lost_wakeup 2 (fun _ => 0) tr s htr hs.1 0).1 hs.2⟩

/-- A reader sleeps on the empty pipe. A writer puts in a byte, is killed, finds that out before its next byte and
returns without waking up the reader, which sleeps on with the byte in the pipe and the lock free. -/
theorem pipe_lost_wakeup : ∃ tr s, Trace (pipeRun 2) (fun _ _ => True) (pipeBoot fun _ => 0) tr s ∧
    s.holder = none ∧ (s.proc 0).asleep = some .nread ∧ s.data.nread ≠ s.data.nwrite := by
  have hrun : (runs (pipeRun 2) (fun _ _ => True)
      (.enter 0 (.readStart ⟨1, fun _ => true⟩) :: replicate 4 (.step 0) ++
        .enter 1 (.writeStart ⟨2, fun _ => some 7⟩) :: replicate 4 (.step 1) ++
        .kill 1 :: replicate 3 (.step 1)) (pipeBoot fun _ => 0)).any
        (fun s => s.holder == none && (s.proc 0).asleep == some .nread && s.data.nread != s.data.nwrite) = true := by
    decide +kernel
  obtain ⟨tr, s, htr, hs⟩ := Trace.of_any hrun
  rw [Bool.and_eq_true, Bool.and_eq_true, beq_iff_eq, beq_iff_eq, bne_iff_ne] at hs
  exact ⟨tr, s, htr, hs.1.1, hs.1.2, hs.2⟩

end Xv6
