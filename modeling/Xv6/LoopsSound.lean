import Xv6.Loops

/-!
# A process that is killed in its sleep does not sleep again

It does not in six of the seven loops, which ask `killed` between the look at
the data and the sleep. `sys_futex_wait` does not ask: woken up by `kkill` it
goes back to sleep if the word has not changed.
-/

namespace Xv6

open Hoare

namespace PipePc

def past : PipePc → Prop
  | writeBody _ _ _ | writeFull _ _ | writeSleep _ _ | readSleep _ => False
  | _ => True

def left : PipePc → Nat
  | out _ => 0
  | unlock _ => 1
  | writeDone _ | writeKilled _ _ _ | readDone _ | readKilled _ | closeWake _ => 2
  | writeLoop _ _ _ | closeSet _ => 3
  | writeStart _ | writeAgain _ _ | closeStart _ => 4
  | readCopy a i => (a.n - i).toNat + 3
  | readWait a => a.n.toNat + 4
  | readStart a | readAgain a => a.n.toNat + 5
  | writeBody _ _ _ | writeFull _ _ | writeSleep _ _ | readSleep _ => 0

end PipePc

namespace WaitPc

def past : WaitPc → Prop
  | kidsSleep _ _ | pauseSleep _ _ | consSleep _ _ | futexSleep _ => False
  | pipe k => k.past
  | _ => True

def left : WaitPc → Nat
  | out _ => 0
  | unlock _ => 1
  | kidsKilled _ _ | pauseKilled _ _ | consKilled _ _ => 2
  | kidsScan _ _ i _ => NPROC - i + 3
  | kidsStart _ _ | kidsAgain _ _ => NPROC + 4
  | futexCheck _ => 2
  | pauseTest _ _ | futexStart _ | futexAgain _ => 3
  | pauseRead _ | pauseAgain _ _ => 4
  | pauseStart _ => 5
  | consTake _ n => 3 * (max n 1).toNat + 1
  | consTest _ n => 3 * (max n 1).toNat + 2
  | consLoop _ n => 3 * n.toNat + 3
  | consAgain _ n => 3 * (max n 1).toNat + 3
  | consStart n => 3 * n.toNat + 4
  | pipe k => k.left
  | kidsSleep _ _ | pauseSleep _ _ | consSleep _ _ | futexSleep _ => 0

/-- The check of `sys_futex_wait` does not find the word at the value it waits to see changed. -/
def moved : WaitPc → World → Prop
  | futexCheck val, d => d.word ≠ some val
  | _, _ => True

def rests : WaitPc → Prop
  | kidsAgain _ _ | pauseAgain _ _ | consAgain _ _ | pipe (.writeAgain _ _) | pipe (.readAgain _)
  | futexAgain _ => True
  | _ => False

end WaitPc

theorem kids_leave (thread addr : Bool) (i : Nat) (havekids : Bool) (p : Nat) (d : World) :
    (WaitPc.kidsRound thread addr i havekids p d).2.past ∧
      (WaitPc.kidsRound thread addr i havekids p d).2.left < (WaitPc.kidsScan thread addr i havekids).left := by
  have hscan : ∀ b, i < NPROC →
    (WaitPc.kidsScan thread addr (i + 1) b).left < (WaitPc.kidsScan thread addr i havekids).left := by
    intro b hi
    change NPROC - (i + 1) + 3 < NPROC - i + 3
    omega
  have hunlock : ∀ r, (WaitPc.unlock r).left < (WaitPc.kidsScan thread addr i havekids).left := by
    intro r
    change 1 < NPROC - i + 3
    omega
  unfold WaitPc.kidsRound
  split
  · rename_i hi
    split
    · split
      · split
        · split
          · exact ⟨trivial, hunlock _⟩
          · exact ⟨trivial, hunlock _⟩
        · exact ⟨trivial, hscan _ hi⟩
      · exact ⟨trivial, hscan _ hi⟩
    · exact ⟨trivial, hscan _ hi⟩
  · dsimp only
    split
    · exact ⟨trivial, hunlock _⟩
    · refine ⟨trivial, ?_⟩
      change 2 < NPROC - i + 3
      omega

theorem cons_leave (target n : Int) (d : World) : (WaitPc.consByte target n d).2.past ∧
    (WaitPc.consByte target n d).2.left < (WaitPc.consTake target n).left := by
  have hunlock : ∀ r, (WaitPc.unlock r).left < (WaitPc.consTake target n).left := by
    intro r
    change 1 < 3 * (max n 1).toNat + 1
    omega
  unfold WaitPc.consByte
  dsimp only
  split
  · exact ⟨trivial, hunlock _⟩
  · split
    · exact ⟨trivial, hunlock _⟩
    · split
      · exact ⟨trivial, hunlock _⟩
      · refine ⟨trivial, ?_⟩
        change 3 * (n - 1).toNat + 3 < 3 * (max n 1).toNat + 1
        omega

theorem pipe_leave (k : PipePc) (f : Nat → PipeData → PipeData × PipePc) (p : Nat) (d : PipeData) (hp : k.past)
    (hk : pipeCode k = .act f) : (f p d).2.past ∧ (f p d).2.left < k.left := by
  cases k <;> cases hk
  case writeLoop a i fresh =>
    dsimp only
    split
    · split <;> exact ⟨trivial, by simp only [PipePc.left]; omega⟩
    · exact ⟨trivial, by simp only [PipePc.left]; omega⟩
  case writeBody => exact hp.elim
  case readWait a =>
    dsimp only
    split <;> exact ⟨trivial, by simp only [PipePc.left]; omega⟩
  case readCopy a i =>
    dsimp only
    split
    · rename_i hi
      split
      · exact ⟨trivial, by simp only [PipePc.left]; omega⟩
      · split
        · exact ⟨trivial, by simp only [PipePc.left]; omega⟩
        · refine ⟨trivial, ?_⟩
          change (a.n - (i + 1 : Nat)).toNat + 3 < (a.n - i).toNat + 3
          omega
    · exact ⟨trivial, by simp only [PipePc.left]; omega⟩
  case closeSet w => exact ⟨trivial, by simp only [PipePc.left]; omega⟩

theorem wait_act (k : WaitPc) (f : Nat → World → World × WaitPc) (p : Nat) (d : World) (hp : k.past)
    (hk : waitCode k = .act f) (ho : k.moved d) : (f p d).2.past ∧ (f p d).2.left < k.left := by
  cases k
  case pipe k =>
    have hl := fun f hk => pipe_leave k f p d.pipe hp hk
    cases k <;> cases hk
    all_goals exact hl _ rfl
  all_goals cases hk
  case kidsScan thread addr i havekids => exact kids_leave thread addr i havekids p d
  case pauseRead n => exact ⟨trivial, by simp only [WaitPc.left]; omega⟩
  case pauseTest n ticks0 =>
    dsimp only
    split <;> exact ⟨trivial, by simp only [WaitPc.left]; omega⟩
  case consLoop target n =>
    split <;> exact ⟨trivial, by simp only [WaitPc.left]; omega⟩
  case consTest target n =>
    dsimp only
    split <;> exact ⟨trivial, by simp only [WaitPc.left]; omega⟩
  case consTake target n => exact cons_leave target n d
  case futexCheck val =>
    dsimp only
    split
    · exact ⟨trivial, Nat.one_lt_two⟩
    · rename_i tmp hw
      split
      · exact ⟨trivial, Nat.one_lt_two⟩
      · rename_i hv
        exact absurd (hw.trans (congrArg some (not_not.mp hv))) ho

theorem wait_leaves : Monitor.Leaves waitCode WaitPc.moved WaitPc.past WaitPc.left where
  acquire k k' hp hk := by
    cases k
    case pipe k =>
      cases k <;> cases hk
      all_goals exact ⟨trivial, by simp only [WaitPc.left, PipePc.left]; omega⟩
    all_goals cases hk
    all_goals exact ⟨trivial, by simp only [WaitPc.left]; omega⟩
  release k k' hp hk := by
    cases k
    case pipe k =>
      cases k <;> cases hk
      exact ⟨trivial, Nat.zero_lt_one⟩
    all_goals cases hk
    exact ⟨trivial, Nat.zero_lt_one⟩
  act := wait_act
  killed k f hp hk := by
    -- every test of killed leads out
    cases k
    case pipe k =>
      cases k <;> cases hk
      all_goals exact ⟨trivial, Nat.one_lt_two⟩
    all_goals cases hk
    all_goals exact ⟨trivial, Nat.one_lt_two⟩
  wakeup k c k' hp hk := by
    cases k
    case pipe k =>
      cases k <;> cases hk
      all_goals first | exact hp.elim | exact ⟨trivial, Nat.one_lt_two⟩
    all_goals cases hk
  sleep k c k' hp hk := by
    cases k
    case pipe k => cases k <;> cases hk <;> exact hp
    all_goals cases hk
    all_goals exact hp

theorem sleep_rests (k : WaitPc) (c : WaitChan) (k' : WaitPc) (hk : waitCode k = .sleep c k') : k'.rests := by
  cases k
  case pipe k => cases k <;> cases hk <;> trivial
  all_goals cases hk
  all_goals trivial

theorem rests_past {k : WaitPc} (h : k.rests) : k.past := by
  cases k
  case pipe k => cases k <;> trivial
  all_goals trivial

/-- A process that `kkill` finds asleep in one of the calls never sleeps in it again, and returns after so many steps,
whatever the others do, if no check of `sys_futex_wait` finds the word unchanged. -/
theorem killed_leaves (p : Nat) (c : WaitCall) (d : World) (tr tr' : List (WaitEvent × WaitSys)) (s s' : WaitSys)
    (h : Trace (waitRun p) (fun _ _ => True) (c.boot d) tr s) (ha : s.asleep ≠ none)
    (h' : Trace (waitRun p) (Monitor.Finds WaitPc.moved) s.kill tr' s') :
    s'.asleep = none ∧
      (waitCode s'.ctl = .idle ∨ tr'.countP (fun e => e.1.isStep) + s'.ctl.left ≤ s.ctl.left) := by
  have hr := Monitor.asleep_trace sleep_rests rfl h ha
  exact wait_leaves.trace (s := s.kill) (rests_past hr) rfl rfl h'

theorem killed_leaves_pause : ∃ tr s tr' s',
    Trace (waitRun 1) (fun _ _ => True) ((WaitCall.sys_pause 5).boot World.quiet) tr s ∧
    s.asleep ≠ none ∧ Trace (waitRun 1) (Monitor.Finds WaitPc.moved) s.kill tr' s' ∧ s'.asleep = none ∧
      (waitCode s'.ctl = .idle ∨ tr'.countP (fun e => e.1.isStep) + s'.ctl.left ≤ s.ctl.left) := by
  obtain ⟨tr, h⟩ : ∃ tr, Trace (waitRun 1) (fun _ _ => True) ((WaitCall.sys_pause 5).boot World.quiet) tr
      ⟨.pauseAgain 5 0, World.quiet, some .ticks, false⟩ :=
    Trace.of_runs (show runs _ _ (List.replicate 5 .step) _ = some _ from rfl)
  have h' : Trace (waitRun 1) (Monitor.Finds WaitPc.moved) ⟨.pauseAgain 5 0, World.quiet, none, true⟩
      [(.step, ⟨.pauseAgain 5 0, World.quiet, none, true⟩)] ⟨.pauseTest 5 0, World.quiet, none, true⟩ :=
    .step .start trivial rfl
  exact ⟨tr, _, _, _, h, nofun, h', killed_leaves 1 _ _ _ _ _ _ h nofun h'⟩

/-- A process waits for the word to change from 0, is killed, and goes back to sleep: nobody has changed the word. -/
theorem killed_sleeps_again : ∃ tr s tr' s',
    Trace (waitRun 1) (fun _ _ => True) ((WaitCall.sys_futex_wait 0).boot World.quiet) tr s ∧ s.asleep ≠ none ∧
      Trace (waitRun 1) (fun _ _ => True) s.kill tr' s' ∧ s'.asleep ≠ none := by
  obtain ⟨tr, h⟩ : ∃ tr, Trace (waitRun 1) (fun _ _ => True) ((WaitCall.sys_futex_wait 0).boot World.quiet) tr
      ⟨.futexAgain 0, World.quiet, some .uaddr, false⟩ :=
    Trace.of_runs (show runs _ _ (List.replicate 3 .step) _ = some _ from rfl)
  obtain ⟨tr', h'⟩ : ∃ tr', Trace (waitRun 1) (fun _ _ => True) ⟨.futexAgain 0, World.quiet, none, true⟩ tr'
      ⟨.futexAgain 0, World.quiet, some .uaddr, true⟩ :=
    Trace.of_runs (show runs _ _ (List.replicate 3 .step) _ = some _ from rfl)
  exact ⟨tr, _, tr', _, h, nofun, h', nofun⟩

end Xv6
