import Mathlib

/-!
# Grep

The regular expressions of `user/grep.c` and its loop over `read`. The bytes
`buf[0..m)` are a list, and so is a string, without the NUL that ends it.
-/

namespace Xv6

open List

/-- `re` is what `matchhere(re, ·)` returns. -/
def matchstar (c : Char) (re : List Char → Bool) : List Char → Bool
  | [] => re []
  | t :: text => re (t :: text) || ((t == c || c == '.') && matchstar c re text)

def matchhere : List Char → List Char → Bool
  | [], _ => true
  | c :: '*' :: re, text => matchstar c (matchhere re) text
  | ['$'], text => text.isEmpty
  | _ :: _, [] => false
  | c :: re, t :: text => (c == '.' || c == t) && matchhere re text

/-- The source's `match`. -/
def matchText : List Char → List Char → Bool
  | '^' :: re, text => matchhere re text
  | re, text => text.tails.any (matchhere re)

/-- The loop over `strchr(p, '\n')`: what it writes, and the bytes from its
last `p` on. `strchr` has passed `line` and stops at a NUL. -/
def grepLines (pattern : List Char) : (line rest : List Char) → List Char × List Char
  | line, [] => ([], line)
  | line, c :: rest =>
    if c = '\n' then
      let r := grepLines pattern [] rest
      ((if matchText pattern line then line ++ ['\n'] else []) ++ r.1, r.2)
    else if c = '\x00' then ([], line ++ c :: rest)
    else grepLines pattern (line ++ [c]) rest

/-- The loop over `read`, which returns one byte and `size` more if there are
that many and `buf` has room for them. -/
def grepLoop (pattern : List Char) (size : Nat → Nat) : (fuel : Nat) → (buf input : List Char) → List Char
  | 0, _, _ => []
  | fuel + 1, buf, input =>
    let n := min (size fuel + 1) (min (1024 - buf.length - 1) input.length)
    if n > 0 then
      let r := grepLines pattern [] (buf ++ input.take n)
      r.1 ++ grepLoop pattern size fuel r.2 (input.drop n)
    else []

/-- What is written for `input`; every read but the last takes a byte. -/
def grep (pattern : List Char) (size : Nat → Nat) (input : List Char) : List Char :=
  grepLoop pattern size (input.length + 1) [] input

/-- Whole lines and a last one without a newline, empty if there is none. -/
def textOf (lines : List (List Char)) (last : List Char) : List Char := lines.flatMap (· ++ ['\n']) ++ last

def selected (pattern : List Char) (lines : List (List Char)) (last : List Char) : List Char :=
  textOf (lines.filter (matchText pattern)) (if last ≠ [] ∧ matchText pattern last then last else [])

variable {pattern line l u v last : List Char} {lines : List (List Char)}

/-! ## Scanning a part of the text -/

/-- Bytes that are neither a newline nor a NUL, as those of a line. -/
abbrev Plain (l : List Char) : Prop := '\x00' ∉ l ∧ '\n' ∉ l

theorem grepLines_append (h : '\x00' ∉ u) : grepLines pattern line (u ++ v) =
    ((grepLines pattern line u).1 ++ (grepLines pattern (grepLines pattern line u).2 v).1,
      (grepLines pattern (grepLines pattern line u).2 v).2) := by
  induction u generalizing line with
  | nil => rfl
  | cons c u ih =>
    rw [mem_cons, not_or] at h
    simp only [cons_append, grepLines, Ne.symm h.1, if_false]
    split
    · rw [ih h.2, append_assoc]
    · exact ih h.2

theorem grepLines_plain (h : Plain u) : grepLines pattern line u = ([], line ++ u) := by
  induction u generalizing line with
  | nil => rw [append_nil]; rfl
  | cons c u ih =>
    simp only [Plain, mem_cons, not_or] at h
    rw [grepLines, if_neg (Ne.symm h.2.1), if_neg (Ne.symm h.1.1), ih ⟨h.1.2, h.2.2⟩, append_assoc]
    rfl

theorem grepLines_line (h : Plain l) : grepLines pattern [] (l ++ '\n' :: v) =
    ((if matchText pattern l then l ++ ['\n'] else []) ++ (grepLines pattern [] v).1, (grepLines pattern [] v).2) := by
  rw [grepLines_append h.1, grepLines_plain h]
  rfl

theorem textOf_cons : textOf (l :: lines) last = l ++ '\n' :: textOf lines last := by simp [textOf]

theorem grepLines_text (hl : ∀ l ∈ lines, Plain l) (hlast : Plain last) :
    grepLines pattern [] (textOf lines last) = (textOf (lines.filter (matchText pattern)) [], last) := by
  induction lines with
  | nil => exact grepLines_plain hlast
  | cons l lines ih =>
    rw [textOf_cons, grepLines_line (hl l mem_cons_self), ih fun x hx => hl x (mem_cons_of_mem _ hx)]
    by_cases hm : matchText pattern l <;> simp [hm, textOf]

theorem textOf_append {more : List (List Char)} : textOf (lines ++ more) last = textOf lines [] ++ textOf more last := by
  simp [textOf]

/-! ## The loop over read -/

/-- What `buf` may hold: some lines, and the bytes of the next one up to here. -/
theorem text_prefix (hl : ∀ l ∈ lines, Plain l) (hlast : Plain (last.take 1023))
    (ht : t <+: textOf lines last) (hlen : t.length ≤ 1023) :
    ∃ pre post rest, lines = pre ++ post ∧ t = textOf pre rest ∧ Plain rest := by
  induction lines generalizing t with
  | nil =>
    have hpre : t <+: last.take 1023 := prefix_take_iff.mpr ⟨ht, hlen⟩
    exact ⟨[], [], t, rfl, rfl, fun h => hlast.1 (hpre.subset h), fun h => hlast.2 (hpre.subset h)⟩
  | cons l lines ih =>
    have hp := hl l mem_cons_self
    rw [textOf_cons] at ht
    obtain ⟨r, hr⟩ := ht
    rcases append_eq_append_iff.mp hr with ⟨a, hla, -⟩ | ⟨_ | ⟨c, a⟩, hla, ha⟩
    · exact ⟨[], l :: lines, t, rfl, rfl, fun hx => hp.1 (hla ▸ mem_append_left _ hx),
        fun hx => hp.2 (hla ▸ mem_append_left _ hx)⟩
    · exact ⟨[], l :: lines, t, rfl, rfl, by rwa [hla, append_nil]⟩
    · obtain ⟨rfl, htail⟩ := cons.inj ha
      rw [hla, length_append, length_cons] at hlen
      obtain ⟨pre, post, rest, rfl, rfl, hrest⟩ := ih (t := a) (fun x hx => hl x (mem_cons_of_mem _ hx))
        ⟨r, htail.symm⟩ (by omega)
      exact ⟨l :: pre, post, rest, rfl, by rw [hla, textOf_cons], hrest⟩

/-- However the text arrives, its lines are scanned up to one that fills `buf`. -/
theorem grepLoop_text {size : Nat → Nat} (last : List Char) : ∀ {fuel : Nat} {buf input : List Char}
    (lines : List (List Char)),
    input.length < fuel → Plain buf → buf.length ≤ 1023 → (∀ l ∈ lines, Plain l ∧ l.length < 1023) →
    Plain (last.take 1023) → buf ++ input = textOf lines last →
    grepLoop pattern size fuel buf input = textOf (lines.filter (matchText pattern)) []
  | fuel + 1, buf, input, lines, hf, hb, hlen, hl, hlast, heq => by
    unfold grepLoop
    dsimp only
    generalize hn : min (size fuel + 1) (min (1024 - buf.length - 1) input.length) = n
    split
    · have htext : buf ++ input.take n ++ input.drop n = textOf lines last := by
        rw [append_assoc, take_append_drop, heq]
      have hsize : (buf ++ input.take n).length ≤ 1023 := by
        rw [length_append, length_take]
        omega
      obtain ⟨pre, post, rest, rfl, ht, hrest⟩ := text_prefix (fun l hx => (hl l hx).1) hlast ⟨_, htext⟩ hsize
      have hpre : ∀ l ∈ pre, Plain l := fun l hx => (hl l (mem_append_left _ hx)).1
      rw [ht] at htext hsize ⊢
      rw [grepLines_text hpre hrest]
      rw [grepLoop_text last post (by rw [length_drop]; omega) hrest ?_ (fun l hx => hl l (mem_append_right _ hx)) hlast ?_,
        filter_append, textOf_append]
      · rw [textOf, length_append] at hsize
        omega
      · rw [textOf_append, textOf, append_assoc] at htext
        simpa [textOf] using htext
    · -- nothing more to read, or no room: no line ends in what is left
      cases lines with
      | nil => rfl
      | cons l lines =>
        have hle : buf.length ≤ l.length := by
          rw [textOf_cons] at heq
          rcases append_eq_append_iff.mp heq with ⟨a, rfl, -⟩ | ⟨_ | ⟨c, a⟩, rfl, ha⟩
          · simp
          · simp
          · obtain ⟨rfl, -⟩ := cons.inj ha
            exact absurd (mem_append_right _ mem_cons_self) hb.2
        have hshort := (hl l mem_cons_self).2
        have := congrArg length heq
        rw [textOf_cons, length_append, length_append, length_cons] at this
        omega

theorem grep_text (size : Nat → Nat) (hl : ∀ l ∈ lines, Plain l) (hlast : Plain last) :
    grep pattern size (textOf lines last) =
    textOf ((lines.takeWhile (·.length < 1023)).filter (matchText pattern)) [] := by
  have hpre : ∀ l ∈ lines.takeWhile (·.length < 1023), Plain l ∧ l.length < 1023 := fun l hx =>
    ⟨hl l (takeWhile_subset _ hx), by simpa using mem_takeWhile_imp hx⟩
  have htake := takeWhile_append_dropWhile (p := (·.length < 1023)) (l := lines)
  refine grepLoop_text (textOf (lines.dropWhile (·.length < 1023)) last) _ (Nat.lt_succ_self _) (by simp [Plain])
    (Nat.zero_le _) hpre ?_ ?_
  · cases hd : lines.dropWhile (·.length < 1023) with
    | nil => exact ⟨fun h => hlast.1 (mem_of_mem_take h), fun h => hlast.2 (mem_of_mem_take h)⟩
    | cons l more =>
      -- the first line that does not fit fills `buf` before its newline comes
      have hlong : 1023 ≤ l.length := by
        simpa [hd] using dropWhile_get_zero_not (p := (·.length < 1023)) lines (by simp [hd])
      have hp := hl l (dropWhile_subset _ (hd ▸ mem_cons_self))
      rw [textOf_cons, take_append_of_le_length hlong]
      exact ⟨fun h => hp.1 (mem_of_mem_take h), fun h => hp.2 (mem_of_mem_take h)⟩
  · generalize lines.takeWhile (·.length < 1023) = pre, lines.dropWhile (·.length < 1023) = post at *
    rw [← htake, nil_append, textOf_append]
    simp [textOf]

/-- `grep` writes the lines that match, exactly if none of them comes at or after a line that leaves no room for its
newline in `buf`, and the text does not end inside one. -/
theorem grep_selects (size : Nat → Nat) (hl : ∀ l ∈ lines, Plain l) (hlast : Plain last) :
    grep pattern size (textOf lines last) = selected pattern lines last ↔
      (∀ l ∈ lines.dropWhile (·.length < 1023), matchText pattern l = false) ∧
        (last = [] ∨ matchText pattern last = false) := by
  have htake := takeWhile_append_dropWhile (p := (·.length < 1023)) (l := lines)
  rw [grep_text size hl hlast, selected]
  generalize lines.takeWhile (·.length < 1023) = pre, lines.dropWhile (·.length < 1023) = post at *
  rw [← htake, filter_append, textOf_append, self_eq_append_right, textOf, append_eq_nil_iff]
  refine and_congr ?_ ?_
  · simp [flatMap_eq_nil_iff]
  · by_cases h : last = [] <;> simp [h]

theorem grep_selects_anchored : grep "^b.*a$".toList (fun n => n % 3) "bca\nab\nba\nc".toList = "bca\nba\n".toList :=
  (@grep_selects _ ['c'] ["bca".toList, "ab".toList, "ba".toList] _ (by decide) (by decide)).mpr (by decide)

/-- A last line without a newline is not written, nor is a line of 1023 bytes. -/
theorem grep_drops : grep [] (fun _ => 0) (textOf [] ['a']) ≠ selected [] [] ['a'] ∧
    grep [] (fun _ => 0) (textOf [replicate 1023 'a'] []) ≠ selected [] [replicate 1023 'a'] [] := by
  refine ⟨by decide, ?_⟩
  have hp : ∀ c, c ≠ 'a' → c ∉ replicate 1023 'a' := fun c hc hx => hc (eq_of_mem_replicate hx)
  have hlen : (replicate 1023 'a').length = 1023 := length_replicate ..
  generalize replicate 1023 'a' = l at *
  have hm : matchText [] l = true := any_eq_true.mpr ⟨_, (mem_tails _ _).mpr (suffix_refl l), rfl⟩
  rw [grep_text _ (forall_mem_singleton.mpr ⟨hp _ (by decide), hp _ (by decide)⟩) (by decide)]
  simp [selected, textOf, hm, hlen]

end Xv6
