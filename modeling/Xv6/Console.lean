import Xv6.Loops

/-!
# The console

`consoleintr` and `consoleread` of `console.c`. A round of the loop of
`consoleread` is one step; the lock is held from one round to the next, so
that fewer interleavings can happen than are looked at here. `edit` is what
the keys mean: the line that is being typed, and the characters committed.
-/

namespace Xv6

open Hoare Function List

/-- `C(x)`. -/
def ctrl (x : Char) : UInt8 := UInt8.ofNat (x.toNat - 64)

def newline : UInt8 := 10

/-- The indices are 32 bits wide. -/
structure Cons where
  buf : Nat → UInt8
  r : Nat
  w : Nat
  e : Nat

def Cons.count (a b : Nat) : Nat := (a + 4294967296 - b) % 4294967296

def Cons.back (a : Nat) : Nat := (a + 4294967295) % 4294967296

/-- The loop of control-U; `fuel` is the distance from `e` to `w`. -/
def killLine : Nat → Cons → Cons
  | 0, s => s
  | fuel + 1, s =>
    if s.e ≠ s.w ∧ s.buf (Cons.back s.e % INPUT_BUF_SIZE) ≠ newline then killLine fuel { s with e := Cons.back s.e } else s

def consoleintr (c : UInt8) (s : Cons) : Cons :=
  if c = ctrl 'P' then s
  else if c = ctrl 'U' then killLine (Cons.count s.e s.w) s
  else if c = ctrl 'H' ∨ c = 0x7f then if s.e ≠ s.w then { s with e := Cons.back s.e } else s
  else if c ≠ 0 ∧ Cons.count s.e s.r < INPUT_BUF_SIZE then
    let c := if c = 13 then newline else c
    let s := { s with buf := update s.buf (s.e % INPUT_BUF_SIZE) c, e := (s.e + 1) % 4294967296 }
    if c = newline ∨ c = ctrl 'D' ∨ Cons.count s.e s.r = INPUT_BUF_SIZE then { s with w := s.e } else s
  else s

structure ConsCall where
  target : Int
  n : Int
  ret : Option Int

structure ConsSys where
  cons : Cons
  calls : List ConsCall
  /-- The characters that were read, each with the call that read it. -/
  log : List (Nat × UInt8)
  /-- The keys, and `none` for each character that was read. -/
  hist : List (Option UInt8)

inductive ConsEvent
  | key (c : UInt8)
  | read (n : Int)
  | round (j : Nat) (killed : Bool)

def ConsSys.set (s : ConsSys) (j : Nat) (q : ConsCall) : ConsSys := { s with calls := s.calls.set j q }

def ConsSys.take (s : ConsSys) (j : Nat) (c : UInt8) : ConsSys :=
  { s with
    cons := { s.cons with r := (s.cons.r + 1) % 4294967296 }
    log := s.log ++ [(j, c)]
    hist := s.hist ++ [none] }

def ConsCall.done (q : ConsCall) : ConsCall := { q with ret := some (q.target - q.n) }

def consRound (s : ConsSys) (j : Nat) (q : ConsCall) : ConsSys :=
  let c := s.cons.buf (s.cons.r % INPUT_BUF_SIZE)
  if c = ctrl 'D' then
    -- cons.r++ is taken back
    if q.n < q.target then s.set j q.done else (s.take j c).set j q.done
  else
    let q := { q with n := q.n - 1 }
    (s.take j c).set j (if c = newline then q.done else q)

def ConsEvent.next (s : ConsSys) : ConsEvent → ConsSys
  | .key c => { s with cons := consoleintr c s.cons, hist := s.hist ++ [some c] }
  | .read n => { s with calls := s.calls ++ [⟨n, n, none⟩] }
  | .round j killed =>
    match s.calls[j]? with
    | none => s
    | some q =>
      if q.ret ≠ none then s
      else if q.n ≤ 0 then s.set j q.done
      else if s.cons.r = s.cons.w then if killed then s.set j { q with ret := some (-1) } else s
      else consRound s j q

def ConsEvent.run (e : ConsEvent) : Prog ConsSys Empty Unit := modify fun s => e.next s

def ConsSys.boot : ConsSys := ⟨⟨fun _ => 0, 0, 0, 0⟩, [], [], []⟩

/-! ## What the keys mean -/

structure Line where
  committed : List UInt8
  pending : List UInt8
  taken : Nat

/-- One key, or a character read. `skip` says which keys do nothing at all. -/
def Line.next (skip : UInt8 → Bool) (l : Line) : Option UInt8 → Line
  | none => { l with taken := l.taken + 1 }
  | some c =>
    if skip c then l
    else if c = ctrl 'U' then { l with pending := [] }
    else if c = ctrl 'H' ∨ c = 0x7f then { l with pending := l.pending.dropLast }
    else if l.committed.length + l.pending.length < l.taken + INPUT_BUF_SIZE then
      let c := if c = 13 then newline else c
      let p := l.pending ++ [c]
      if c = newline ∨ c = ctrl 'D' ∨ l.committed.length + p.length = l.taken + INPUT_BUF_SIZE then
        { l with committed := l.committed ++ p, pending := [] }
      else { l with pending := p }
    else l

def edit (skip : UInt8 → Bool) (hist : List (Option UInt8)) : Line := hist.foldl (Line.next skip) ⟨[], [], 0⟩

/-- Control-P prints the processes, and a 0 is no character. -/
def ignored (c : UInt8) : Bool := c = 0 ∨ c = ctrl 'P'

def ConsSys.chars (s : ConsSys) (j : Nat) : List UInt8 := (s.log.filter fun x => x.1 = j).map Prod.snd

/-- The ring holds what was typed and not read yet, and the indices are the counts of a line. -/
structure Cons.Shows (s : Cons) (l : Line) : Prop where
  r : s.r = l.taken % 4294967296
  w : s.w = l.committed.length % 4294967296
  e : s.e = (l.committed.length + l.pending.length) % 4294967296
  le : l.taken ≤ l.committed.length
  room : l.committed.length + l.pending.length ≤ l.taken + INPUT_BUF_SIZE
  buf : ∀ i c, l.taken ≤ i → (l.committed ++ l.pending)[i]? = some c → s.buf (i % INPUT_BUF_SIZE) = c

namespace Cons.Shows

variable {s : Cons} {l : Line} {c : UInt8}

theorem typing (h : s.Shows l) : s.e ≠ s.w ↔ l.pending ≠ [] := by
  have hw := h.w
  have he := h.e
  have hle := h.le
  have hroom := h.room
  rw [ne_eq, ne_eq, ← length_eq_zero_iff]
  lia

theorem erase (h : s.Shows l) (hp : l.pending ≠ []) :
    Shows { s with e := back s.e } { l with pending := l.pending.dropLast } := by
  have hpos := length_pos_iff.mpr hp
  have hlen : l.pending.dropLast.length = l.pending.length - 1 := length_dropLast
  refine ⟨h.r, h.w, ?_, h.le, ?_, fun i c hi hc => ?_⟩
  · have he := h.e
    simp only [back, hlen]
    omega
  · have := h.room
    simp only [hlen]
    omega
  · refine h.buf i c hi ?_
    obtain ⟨t, ht⟩ := dropLast_prefix l.pending
    rw [← ht, ← append_assoc, getElem?_append_left (List.getElem?_eq_some_iff.mp hc).1]
    exact hc

theorem last (h : s.Shows l) (hp : l.pending ≠ []) : s.buf (back s.e % INPUT_BUF_SIZE) = l.pending.getLast hp := by
  have hpos := length_pos_iff.mpr hp
  have hle := h.le
  have he := h.e
  have hat := h.buf (l.committed.length + (l.pending.length - 1)) (l.pending.getLast hp) (by omega) (by
    rw [getElem?_append_right (by omega), Nat.add_sub_cancel_left, ← getLast?_eq_getElem?, getLast?_eq_some_getLast hp])
  have hi : back s.e % INPUT_BUF_SIZE = (l.committed.length + (l.pending.length - 1)) % INPUT_BUF_SIZE := by
    simp only [back]
    lia
  rw [hi, hat]

theorem kill (n : Nat) : ∀ {s : Cons} {l : Line}, s.Shows l → newline ∉ l.pending → l.pending.length = n →
    (killLine n s).Shows { l with pending := [] } := by
  induction n with
  | zero =>
    intro s l h hno hn
    have hl : { l with pending := [] } = l := by rw [← length_eq_zero_iff.mp hn]
    rw [killLine, hl]
    exact h
  | succ n ih =>
    intro s l h hno hn
    have hp : l.pending ≠ [] := fun he => by rw [he] at hn; cases hn
    have hlast : s.buf (back s.e % INPUT_BUF_SIZE) ≠ newline := fun he => hno (by rw [← he, h.last hp]; exact getLast_mem hp)
    rw [killLine, if_pos ⟨h.typing.mpr hp, hlast⟩]
    have hk := ih (h.erase hp) (fun hx => hno (dropLast_subset _ hx)) (by rw [length_dropLast]; omega)
    exact hk

variable (h : s.Shows l)
include h

theorem store (hroom : l.committed.length + l.pending.length < l.taken + INPUT_BUF_SIZE) :
    Shows { s with buf := update s.buf (s.e % INPUT_BUF_SIZE) c, e := (s.e + 1) % 4294967296 }
      { l with pending := l.pending ++ [c] } := by
  have he := h.e
  have hlen : (l.pending ++ [c]).length = l.pending.length + 1 := length_append
  refine ⟨h.r, h.w, ?_, h.le, ?_, fun i x hi hx => ?_⟩
  · simp only [hlen]; omega
  · simp only [hlen]; omega
  · dsimp only at hi hx ⊢
    rw [← append_assoc] at hx
    by_cases hlt : i < (l.committed ++ l.pending).length
    · rw [getElem?_append_left hlt] at hx
      rw [length_append] at hlt
      rw [update_of_ne, h.buf i x hi hx]
      lia
    · rw [getElem?_append_right (Nat.not_lt.mp hlt), getElem?_singleton] at hx
      split at hx
      · rw [length_append] at hlt
        rename_i h0
        rw [length_append] at h0
        obtain rfl : i = l.committed.length + l.pending.length := by omega
        rw [show s.e % INPUT_BUF_SIZE = (l.committed.length + l.pending.length) % INPUT_BUF_SIZE by
          lia, update_self]
        exact Option.some.inj hx
      · cases hx

theorem commit : Shows { s with w := s.e } { l with committed := l.committed ++ l.pending, pending := [] } := by
  have hlen : (l.committed ++ l.pending).length = l.committed.length + l.pending.length := length_append
  have hle := h.le
  have hroom := h.room
  refine ⟨h.r, ?_, ?_, ?_, ?_, fun i c hi hc => h.buf i c hi (by rw [append_nil] at hc; exact hc)⟩
  · simp only [hlen]; exact h.e
  · simp only [hlen, length_nil]; exact h.e
  · simp only [hlen]; omega
  · simp only [hlen, length_nil]; omega

theorem count_read : count s.e s.r = l.committed.length + l.pending.length - l.taken := by
  have hr := h.r
  have he := h.e
  have hle := h.le
  have hroom := h.room
  simp only [count] at *
  lia

theorem key (hno : newline ∉ l.pending) :
    (consoleintr c s).Shows (l.next ignored (some c)) ∧ newline ∉ (l.next ignored (some c)).pending := by
  unfold consoleintr Line.next ignored
  dsimp only
  by_cases hP : c = ctrl 'P'
  · rw [if_pos hP, if_pos (by simp [hP])]
    exact ⟨h, hno⟩
  rw [if_neg hP]
  by_cases h0 : c = 0
  · subst h0
    exact ⟨h, hno⟩
  rw [if_neg (c := decide (c = 0 ∨ c = ctrl 'P')) (by simp [h0, hP])]
  by_cases hU : c = ctrl 'U'
  · rw [if_pos hU, if_pos hU]
    refine ⟨?_, by simp⟩
    have hk := h.kill (count s.e s.w) hno ?_
    · exact hk
    · have hw := h.w
      have he := h.e
      have hle := h.le
      have hroom := h.room
      simp only [count] at *
      lia
  rw [if_neg hU, if_neg hU]
  by_cases hH : c = ctrl 'H' ∨ c = 0x7f
  · rw [if_pos hH, if_pos hH]
    by_cases hp : l.pending = []
    · rw [if_neg fun hx => h.typing.mp hx hp, hp]
      exact ⟨by rw [dropLast_nil, ← hp]; exact h, by simp⟩
    · rw [if_pos (h.typing.mpr hp)]
      exact ⟨h.erase hp, fun hx => hno (dropLast_subset _ hx)⟩
  rw [if_neg hH, if_neg hH]
  by_cases hroom : l.committed.length + l.pending.length < l.taken + INPUT_BUF_SIZE
  · have hle := h.le
    rw [if_pos ⟨h0, by rw [h.count_read]; omega⟩, if_pos hroom]
    generalize (if c = 13 then newline else c) = x
    have hs := h.store (c := x) hroom
    have hcount := hs.count_read
    dsimp only at hcount
    rw [hcount]
    by_cases hx : x = newline ∨ x = ctrl 'D' ∨ l.committed.length + (l.pending ++ [x]).length = l.taken + INPUT_BUF_SIZE
    · rw [if_pos hx, if_pos (hx.imp_right fun hx => hx.imp_right fun hx => by rw [hx]; omega)]
      exact ⟨hs.commit, by simp⟩
    · rw [if_neg hx, if_neg fun hy => hx (hy.imp_right fun hy => hy.imp_right fun hy => by omega)]
      refine ⟨hs, fun hy => ?_⟩
      rcases mem_append.mp hy with hy | hy
      · exact hno hy
      · exact hx (.inl (mem_singleton.mp hy).symm)
  · rw [if_neg fun hx => hroom (by have := hx.2; rw [h.count_read] at this; have := h.le; omega), if_neg hroom]
    exact ⟨h, hno⟩

theorem unread (hne : s.r ≠ s.w) : ∃ hlt : l.taken < l.committed.length,
    s.buf (s.r % INPUT_BUF_SIZE) = l.committed.get ⟨l.taken, hlt⟩ := by
  have hr := h.r
  have hw := h.w
  have hlt : l.taken < l.committed.length := Nat.lt_of_le_of_ne h.le fun he => hne (by rw [hr, hw, he])
  refine ⟨hlt, ?_⟩
  have hat := h.buf l.taken (l.committed.get ⟨l.taken, hlt⟩) (Nat.le_refl _)
    (by rw [getElem?_append_left hlt]; exact getElem?_eq_getElem hlt)
  rw [show s.r % INPUT_BUF_SIZE = l.taken % INPUT_BUF_SIZE by lia]
  exact hat

theorem taken (hlt : l.taken < l.committed.length) :
    Shows { s with r := (s.r + 1) % 4294967296 } { l with taken := l.taken + 1 } := by
  have hr := h.r
  have hroom := h.room
  exact ⟨by dsimp only; omega, h.w, h.e, hlt, by dsimp only; omega,
    fun i c hi hc => h.buf i c (by dsimp only at hi; omega) hc⟩

end Cons.Shows

theorem edit_append (skip : UInt8 → Bool) (hist : List (Option UInt8)) (x : Option UInt8) :
    edit skip (hist ++ [x]) = (edit skip hist).next skip x := by
  unfold edit
  rw [foldl_append, foldl_cons, foldl_nil]

theorem Line.next_grows (skip : UInt8 → Bool) (l : Line) (c : UInt8) :
    l.committed <+: (l.next skip (some c)).committed ∧ (l.next skip (some c)).taken = l.taken := by
  unfold Line.next
  dsimp only
  repeat' split
  all_goals first | exact ⟨prefix_append _ _, rfl⟩ | exact ⟨prefix_rfl, rfl⟩

/-! ## The readers -/

structure ConsCall.Ok (cs : List UInt8) (q : ConsCall) : Prop where
  going : q.ret = none → newline ∉ cs ∧ ctrl 'D' ∉ cs ∧ q.target - q.n = cs.length
  line : newline ∉ cs.dropLast
  eof : ctrl 'D' ∈ cs → cs = [ctrl 'D'] ∧ q.ret = some 0
  ret : ∀ v, q.ret = some v → v = -1 ∨ v = (cs.filter (· ≠ ctrl 'D')).length

namespace ConsCall.Ok

variable {c : UInt8} {cs : List UInt8} {q : ConsCall}

theorem start (n : Int) : Ok [] ⟨n, n, none⟩ :=
  ⟨fun _ => by simp, by simp, by simp, by simp⟩

theorem killed (h : q.Ok cs) (hr : q.ret = none) : Ok cs { q with ret := some (-1) } := by
  obtain ⟨-, hd, -⟩ := h.going hr
  refine ⟨by simp, h.line, fun hx => absurd hx hd, fun v hv => .inl ?_⟩
  exact (Option.some.inj hv).symm

theorem returns (hline : newline ∉ cs.dropLast) (hd : ctrl 'D' ∉ cs) (hlen : q.target - q.n = cs.length) : q.done.Ok cs := by
  refine ⟨by simp [ConsCall.done], hline, fun hx => absurd hx hd, fun v hv => .inr ?_⟩
  have hall : cs.filter (· ≠ ctrl 'D') = cs := by
    rw [filter_eq_self]
    intro c hc
    rw [decide_eq_true_eq]
    rintro rfl
    exact hd hc
  rw [hall, ← hlen]
  exact (Option.some.inj hv).symm

theorem done (h : q.Ok cs) (hr : q.ret = none) : q.done.Ok cs := by
  obtain ⟨-, hd, hlen⟩ := h.going hr
  exact returns h.line hd hlen

theorem ends (h : q.Ok cs) (hr : q.ret = none) (hn : ¬ q.n < q.target) : q.done.Ok (cs ++ [ctrl 'D']) := by
  obtain ⟨-, -, hlen⟩ := h.going hr
  have hnil : cs = [] := eq_nil_of_length_eq_zero (by omega)
  have h0 : q.target - q.n = 0 := by rw [hlen, hnil]; rfl
  have hret : q.done.ret = some 0 := by rw [ConsCall.done, h0]
  subst hnil
  refine ⟨by simp [ConsCall.done], by simp, fun _ => ⟨rfl, hret⟩, fun v hv => .inr ?_⟩
  rw [hret] at hv
  rw [← Option.some.inj hv]
  rfl

theorem take (h : q.Ok cs) (hr : q.ret = none) (hc : c ≠ ctrl 'D') :
    Ok (cs ++ [c]) (if c = newline then ConsCall.done { q with n := q.n - 1 } else { q with n := q.n - 1 }) := by
  obtain ⟨hnl, hd, hlen⟩ := h.going hr
  have hd' : ctrl 'D' ∉ cs ++ [c] := by
    rw [mem_append, mem_singleton]
    exact fun hx => hx.elim hd hc.symm
  have hlen' : q.target - (q.n - 1) = (cs ++ [c]).length := by rw [length_append, length_singleton]; push_cast; omega
  have hline : newline ∉ (cs ++ [c]).dropLast := by rw [dropLast_concat]; exact hnl
  by_cases hx : c = newline
  · rw [if_pos hx]
    exact returns hline hd' hlen'
  · rw [if_neg hx]
    refine ⟨fun _ => ⟨?_, hd', hlen'⟩, hline, fun hy => absurd hy hd', fun v hv => ?_⟩
    · rw [mem_append, mem_singleton]
      exact fun hy => hy.elim hnl fun hy => hx hy.symm
    · rw [hr] at hv
      cases hv

end ConsCall.Ok

theorem prefix_concat (h : l1 <+: l2) (hlt : l1.length < l2.length) :
    l1 ++ [l2.get ⟨l1.length, hlt⟩] <+: l2 := by
  obtain ⟨t, rfl⟩ := h
  cases t with
  | nil => simp at hlt
  | cons c t => exact ⟨t, by simp⟩

structure ConsSys.Inv (s : ConsSys) : Prop where
  shows : s.cons.Shows (edit ignored s.hist)
  line : newline ∉ (edit ignored s.hist).pending
  taken : (edit ignored s.hist).taken = s.log.length
  log : s.log.map Prod.snd <+: (edit ignored s.hist).committed
  calls : ∀ (j : Nat) (q : ConsCall), s.calls[j]? = some q → q.Ok (s.chars j)
  known : ∀ x ∈ s.log, x.1 < s.calls.length

namespace ConsSys.Inv

variable {s : ConsSys} {j : Nat} {q : ConsCall}

theorem boot : ConsSys.boot.Inv := by
  refine ⟨⟨rfl, rfl, rfl, Nat.le_refl _, by decide, ?_⟩, by simp [edit, ConsSys.boot], rfl, prefix_rfl, ?_, ?_⟩
  · intro i c _ hc
    simp [edit, ConsSys.boot] at hc
  · intro j q hq
    simp [ConsSys.boot] at hq
  · intro x hx
    simp [ConsSys.boot] at hx

theorem key (h : s.Inv) (c : UInt8) : Inv { s with cons := consoleintr c s.cons, hist := s.hist ++ [some c] } := by
  obtain ⟨hs, hl⟩ := h.shows.key (c := c) h.line
  obtain ⟨hc, ht⟩ := (edit ignored s.hist).next_grows ignored c
  rw [← edit_append] at hs hl hc ht
  exact ⟨hs, hl, ht.trans h.taken, h.log.trans hc, h.calls, h.known⟩

theorem read (h : s.Inv) (n : Int) : Inv { s with calls := s.calls ++ [⟨n, n, none⟩] } := by
  refine ⟨h.shows, h.line, h.taken, h.log, fun j q hq => ?_, fun x hx => ?_⟩
  · rcases Nat.lt_or_ge j s.calls.length with hj | hj
    · rw [getElem?_append_left hj] at hq
      exact h.calls j q hq
    · rw [getElem?_append_right hj, getElem?_singleton] at hq
      split at hq
      · cases hq
        have hnil : s.log.filter (fun x => decide (x.1 = j)) = [] := by
          rw [filter_eq_nil_iff]
          intro x hx
          have hlt := h.known x hx
          rw [decide_eq_true_eq]
          omega
        unfold ConsSys.chars
        rw [hnil]
        exact .start n
      · cases hq
  · have hlt := h.known x hx
    rw [length_append]
    exact Nat.lt_add_right _ hlt

theorem set (h : s.Inv) (hq : q.Ok (s.chars j)) : (s.set j q).Inv := by
  refine ⟨h.shows, h.line, h.taken, h.log, fun i p hp => ?_, fun x hx => ?_⟩
  · simp only [ConsSys.set, getElem?_set] at hp
    split at hp
    · rename_i hij
      split at hp
      · cases hp
        rw [← hij]
        exact hq
      · cases hp
    · exact h.calls i p hp
  · rw [ConsSys.set, length_set]
    exact h.known x hx

theorem take (h : s.Inv) (hne : s.cons.r ≠ s.cons.w) (hj : j < s.calls.length)
    (hq : q.Ok (s.chars j ++ [s.cons.buf (s.cons.r % INPUT_BUF_SIZE)])) :
    ((s.take j (s.cons.buf (s.cons.r % INPUT_BUF_SIZE))).set j q).Inv := by
  obtain ⟨hlt, hc⟩ := h.shows.unread hne
  have hnext : edit ignored (s.hist ++ [none]) = { edit ignored s.hist with taken := (edit ignored s.hist).taken + 1 } :=
    edit_append ..
  generalize hx : s.cons.buf (s.cons.r % INPUT_BUF_SIZE) = c at *
  have hchars (i : Nat) : (s.take j c).chars i = if j = i then s.chars i ++ [c] else s.chars i := by
    unfold ConsSys.chars ConsSys.take
    by_cases hi : j = i <;> simp [filter_append, hi]
  refine ⟨?_, ?_, ?_, ?_, fun i p hp => ?_, fun x hx => ?_⟩
  · exact (show _ = _ from hnext) ▸ h.shows.taken hlt
  · exact (show _ = _ from hnext) ▸ h.line
  · show (edit ignored (s.hist ++ [none])).taken = (s.log ++ [(j, c)]).length
    rw [hnext, length_append, ← h.taken]
    rfl
  · show (s.log ++ [(j, c)]).map Prod.snd <+: (edit ignored (s.hist ++ [none])).committed
    have hlen : (s.log.map Prod.snd).length = (edit ignored s.hist).taken := by rw [length_map, h.taken]
    have hpre := prefix_concat h.log (by rw [hlen]; exact hlt)
    simp only [hlen, ← hc] at hpre
    rw [hnext, map_append]
    exact hpre
  · show p.Ok ((s.take j c).chars i)
    rw [hchars]
    simp only [ConsSys.set, getElem?_set] at hp
    split at hp
    · rename_i hij
      subst hij
      rw [if_pos rfl]
      split at hp
      · cases hp
        exact hq
      · cases hp
    · rename_i hij
      rw [if_neg hij]
      exact h.calls i p hp
  · rw [ConsSys.set, length_set]
    rcases mem_append.mp (show x ∈ s.log ++ [(j, c)] from hx) with hx | hx
    · exact h.known x hx
    · rw [mem_singleton.mp hx]
      exact hj

theorem round (h : s.Inv) (hq : s.calls[j]? = some q) (hr : q.ret = none) (hne : s.cons.r ≠ s.cons.w) :
    (consRound s j q).Inv := by
  have hok := h.calls j q hq
  have hj : j < s.calls.length := (List.getElem?_eq_some_iff.mp hq).1
  unfold consRound
  dsimp only
  split
  · rename_i hc
    split
    · exact h.set (hok.done hr)
    · rename_i hn
      exact h.take hne hj (by rw [hc]; exact hok.ends hr hn)
  · rename_i hc
    exact h.take hne hj (hok.take hr hc)

theorem next (h : s.Inv) (e : ConsEvent) : (e.next s).Inv := by
  cases e with
  | key c => exact h.key c
  | read n => exact h.read n
  | round j killed =>
    rw [ConsEvent.next]
    split
    · exact h
    · rename_i q hq
      by_cases hr : q.ret = none
      · rw [if_neg (not_not.mpr hr)]
        split
        · exact h.set ((h.calls j q hq).done hr)
        split
        · split
          · exact h.set ((h.calls j q hq).killed hr)
          · exact h
        · rename_i hne
          exact h.round hq hr hne
      · rw [if_pos hr]
        exact h

end ConsSys.Inv

/-- Control-P and 0 apart, what is typed reaches the readers as `edit` says, and no read goes beyond the end of a line. -/
theorem console_lines {tr : List (ConsEvent × ConsSys)} {s : ConsSys}
    (ht : Trace ConsEvent.run (fun _ _ => True) .boot tr s) :
    let l := edit ignored s.hist
    (s.cons.r = s.log.length % 4294967296 ∧ s.cons.w = l.committed.length % 4294967296 ∧
      s.cons.e = (l.committed.length + l.pending.length) % 4294967296) ∧
    s.log.length ≤ l.committed.length ∧ l.committed.length + l.pending.length ≤ s.log.length + INPUT_BUF_SIZE ∧
    s.log.map Prod.snd <+: l.committed ∧ (∀ x ∈ s.log, ∃ q, s.calls[x.1]? = some q) ∧
    ∀ (j : Nat) (q : ConsCall), s.calls[j]? = some q → newline ∉ (s.chars j).dropLast ∧
      (ctrl 'D' ∈ s.chars j → s.chars j = [ctrl 'D'] ∧ q.ret = some 0) ∧
      ∀ v : Int, q.ret = some v → v = -1 ∨ v = ((s.chars j).filter (· ≠ ctrl 'D')).length := by
  have h := ht.inv ConsSys.Inv .boot fun e s h _ => (wp_modify _).mpr (h.next e)
  have hr := h.shows.r
  have hroom := h.shows.room
  rw [h.taken] at hr hroom
  refine ⟨⟨hr, h.shows.w, h.shows.e⟩, ?_, hroom, h.log, fun x hx => ⟨_, getElem?_eq_getElem (h.known x hx)⟩, ?_⟩
  · exact h.taken ▸ h.shows.le
  · intro j q hq
    have hok := h.calls j q hq
    exact ⟨hok.line, hok.eof, hok.ret⟩

theorem console_lines_typed : ∃ s : ConsSys, s.chars 0 = [104, newline] ∧ s.chars 1 = [ctrl 'D'] ∧
    s.log.map Prod.snd <+: (edit ignored s.hist).committed := by
  have hrun : (runs ConsEvent.run (fun _ _ => True) [.key 104, .key 105, .key 0x7f, .read 9, .read 5, .key 13,
      .key (ctrl 'D'), .round 0 false, .round 0 false, .round 1 false] .boot).any
      (fun s => s.chars 0 = [104, newline] ∧ s.chars 1 = [ctrl 'D']) = true := by decide +kernel
  obtain ⟨tr, s, ht, hs⟩ := Trace.of_any hrun
  obtain ⟨h0, h1⟩ := of_decide_eq_true hs
  exact ⟨s, h0, h1, (console_lines ht).2.2.2.1⟩

/-- Were 0 a character like any other, a reader would have to get it. -/
theorem console_drops_nul : ∃ tr s, Trace ConsEvent.run (fun _ _ => True) .boot tr s ∧
    ¬ s.log.map Prod.snd <+: (edit (fun _ => false) s.hist).committed := by
  have hrun : (runs ConsEvent.run (fun _ _ => True) [.key 0, .key newline, .read 1, .round 0 false] .boot).any
      (fun s => ¬ s.log.map Prod.snd <+: (edit (fun _ => false) s.hist).committed) = true := by decide +kernel
  obtain ⟨tr, s, ht, hs⟩ := Trace.of_any hrun
  exact ⟨tr, s, ht, of_decide_eq_true hs⟩

end Xv6
