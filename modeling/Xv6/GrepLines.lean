/-
# The lines that grep prints

The loop of `grep` reads into a buffer of 1024 bytes, prints the lines in it that match, and
moves what is left of the last line to its beginning. What `read` returns is up to its
environment: `want` says how many bytes it gives at each call, at least one, as long as there
are any and they are asked for.

However the input is cut, the output is the same (`grep_eq`): of the lines up to the first one
that has no newline or that does not fit the buffer, those that match. A line fits with its
newline if it has less than 1024 bytes; with a longer one in the buffer, `read` is asked for no
bytes at all, and the loop ends.

Key definitions: `Grep.grep`, `Grep.lines`, `Grep.Printable`.
Key theorems: `Grep.scan_spec`, `Grep.grep_eq`, `Grep.grep_prints_iff`.
-/
import Mathlib.Data.List.Basic
import Xv6.Grep

namespace Xv6
namespace Grep

/-- `'\n'`. -/
def newline : UInt8 := 10

/-- `sizeof(buf)`. -/
def bufSize : ℕ := 1024

/-- The index of the first `c`, before any NUL. -/
def strchr (c : UInt8) : List UInt8 → Option ℕ
  | [] => none
  | x :: s => if x = 0 then none else if x = c then some 0 else (strchr c s).map (· + 1)

/-- The loop over the lines in the buffer, from `p`: what it prints, and what is left. -/
def scan (pattern : List UInt8) : ℕ → List UInt8 → List UInt8 × List UInt8
  | 0, p => ([], p)
  | f + 1, p =>
    match strchr newline p with
    | none => ([], p)
    | some q =>
      let r := scan pattern f (p.drop (q + 1))
      (if matchRe pattern (p.take q) then p.take (q + 1) ++ r.1 else r.1, r.2)

/-- The loop of `grep` from the `i`-th call of `read`, with the bytes in the buffer and those
not read yet. -/
def grepLoop (pattern : List UInt8) (want : ℕ → ℕ) : ℕ → ℕ → List UInt8 → List UInt8 → Option (List UInt8)
  | 0, _, _, _ => none
  | f + 1, i, buf, input =>
    let n := min (max (want i) 1) (bufSize - buf.length - 1)
    if input.take n = [] then some []
    else
      let p := buf ++ input.take n
      let r := scan pattern (p.length + 1) p
      (grepLoop pattern want f (i + 1) r.2 (input.drop n)).map (r.1 ++ ·)

/-- Every call of `read` but the last returns a byte. -/
def grep (pattern : List UInt8) (want : ℕ → ℕ) (input : List UInt8) : Option (List UInt8) :=
  grepLoop pattern want (input.length + 1) 0 [] input

/-! ### What should be printed -/

/-- The lines, each with its newline if it has one. -/
def lines : List UInt8 → List (List UInt8)
  | [] => []
  | c :: s =>
    if c = newline then [c] :: lines s
    else match lines s with
      | [] => [[c]]
      | l :: ls => (c :: l) :: ls

/-- The line matches, without its newline. -/
def lineMatches (pattern l : List UInt8) : Bool := matchRe pattern (l.takeWhile (· ≠ newline))

/-- The lines that match. -/
def matching (pattern : List UInt8) (ls : List (List UInt8)) : List UInt8 := (ls.filter (lineMatches pattern)).flatten

/-- The line ends, and fits the buffer. -/
def fits (l : List UInt8) : Bool := l.getLast? = some newline && l.length < bufSize

/-- No line matches that is not terminated or does not fit the buffer, nor one after such a line. -/
def Printable (pattern input : List UInt8) : Prop :=
  ∀ l ∈ (lines input).dropWhile fits, lineMatches pattern l = false

/-! ### Lines -/

variable {pattern u v s : List UInt8}

theorem lines_open (hu : newline ∉ u) (hne : u ≠ []) : lines u = [u] := by
  induction u with
  | nil => exact absurd rfl hne
  | cons c u ih =>
    obtain ⟨hc, hu⟩ := not_or.mp (mt List.mem_cons.mpr hu)
    rw [lines, if_neg (Ne.symm hc)]
    cases u with
    | nil => rfl
    | cons d u => rw [ih hu (List.cons_ne_nil _ _)]

/-- The first line is up to the first newline. -/
theorem lines_cons (hu : newline ∉ u) : lines (u ++ newline :: v) = (u ++ [newline]) :: lines v := by
  induction u with
  | nil => exact if_pos rfl
  | cons c u ih =>
    obtain ⟨hc, hu⟩ := not_or.mp (mt List.mem_cons.mpr hu)
    rw [List.cons_append, lines, if_neg (Ne.symm hc), ih hu]
    rfl

/-- Bytes without a newline are the beginning of the first line. -/
theorem lines_head (hu : newline ∉ u) (hne : u ≠ []) (v : List UInt8) : ∃ w ls, lines (u ++ v) = (u ++ w) :: ls := by
  induction u with
  | nil => exact absurd rfl hne
  | cons c u ih =>
    obtain ⟨hc, hu⟩ := not_or.mp (mt List.mem_cons.mpr hu)
    rw [List.cons_append, lines, if_neg (Ne.symm hc)]
    cases u with
    | nil =>
      rw [List.nil_append]
      cases lines v with
      | nil => exact ⟨[], [], rfl⟩
      | cons l ls => exact ⟨l, ls, rfl⟩
    | cons d u =>
      obtain ⟨w, ls, hw⟩ := ih hu (List.cons_ne_nil _ _)
      rw [hw]
      exact ⟨w, ls, rfl⟩

theorem nil_notMem_lines (s : List UInt8) : [] ∉ lines s := by
  induction s with
  | nil => exact List.not_mem_nil
  | cons c s ih =>
    rw [lines]
    split
    · exact fun h => (List.mem_cons.mp h).elim (fun h => absurd h (List.cons_ne_nil _ _).symm) ih
    · cases hl : lines s with
      | nil => simp
      | cons l ls =>
        rw [hl] at ih
        simp only [List.mem_cons, not_or] at ih ⊢
        exact ⟨(List.cons_ne_nil _ _).symm, ih.2⟩

theorem lineMatches_concat (hu : newline ∉ u) : lineMatches pattern (u ++ [newline]) = matchRe pattern u := by
  rw [lineMatches, List.takeWhile_append_of_pos, List.takeWhile_cons_of_neg, List.append_nil]
  · simp
  · intro c hc
    exact decide_eq_true (ne_of_mem_of_not_mem hc hu)

/-! ### What is printed -/

/-- The output for the bytes `s` from the beginning of a line. -/
def printed (pattern s : List UInt8) : List UInt8 := matching pattern ((lines s).takeWhile fits)

theorem matching_cons (l : List UInt8) (ls : List (List UInt8)) :
    matching pattern (l :: ls) = (if lineMatches pattern l then l else []) ++ matching pattern ls := by
  rw [matching, List.filter_cons]
  split
  · exact List.flatten_cons
  · rfl

theorem printed_line (hu : newline ∉ u) (hlen : u.length + 1 < bufSize) :
    printed pattern (u ++ newline :: v) = (if matchRe pattern u then u ++ [newline] else []) ++ printed pattern v := by
  have hfits : fits (u ++ [newline]) = true := by
    rw [fits, List.getLast?_concat, List.length_append]
    simp [hlen]
  rw [printed, lines_cons hu, List.takeWhile_cons_of_pos hfits, matching_cons, lineMatches_concat hu]
  rfl

/-- Without a newline there is nothing to print. -/
theorem printed_open (hu : newline ∉ u) : printed pattern u = [] := by
  cases u with
  | nil => rfl
  | cons c u =>
    have hfits : ¬ fits (c :: u) = true := fun h => by
      rw [fits, Bool.and_eq_true] at h
      exact hu (List.mem_of_getLast? (of_decide_eq_true h.1))
    rw [printed, lines_open hu (List.cons_ne_nil _ _), List.takeWhile_cons_of_neg hfits]
    rfl

/-- A line that does not fit is where the output ends. -/
theorem printed_long (hu : newline ∉ u) (hlen : bufSize ≤ u.length + 1) : printed pattern (u ++ v) = [] := by
  have hsize : bufSize = 1024 := rfl
  have hne : u ≠ [] := fun h => by
    rw [h, List.length_nil] at hlen
    omega
  obtain ⟨w, ls, hls⟩ := lines_head hu hne v
  have hfits : ¬ fits (u ++ w) = true := fun h => by
    rw [fits, Bool.and_eq_true, decide_eq_true_eq, decide_eq_true_eq, List.length_append] at h
    -- there is no room for the newline
    have hw : w = [] := List.length_eq_zero_iff.mp (by omega)
    rw [hw, List.append_nil] at h
    exact hu (List.mem_of_getLast? h.1)
  rw [printed, hls, List.takeWhile_cons_of_neg hfits]
  rfl

/-- The place of the first newline, or there is none. -/
theorem strchr_cases (h : 0 ∉ s) :
    (strchr newline s = none ∧ newline ∉ s) ∨
      ∃ u v, strchr newline s = some u.length ∧ s = u ++ newline :: v ∧ newline ∉ u := by
  induction s with
  | nil => exact Or.inl ⟨rfl, List.not_mem_nil⟩
  | cons x s ih =>
    obtain ⟨hx, hs⟩ := not_or.mp (mt List.mem_cons.mpr h)
    rw [strchr, if_neg (Ne.symm hx)]
    by_cases hn : x = newline
    · rw [if_pos hn]
      exact Or.inr ⟨[], s, rfl, by rw [hn]; rfl, List.not_mem_nil⟩
    · rw [if_neg hn]
      rcases ih hs with ⟨hnone, hmem⟩ | ⟨u, v, hsome, rfl, hu⟩
      · rw [hnone]
        exact Or.inl ⟨rfl, fun hm => (List.mem_cons.mp hm).elim (fun h => hn h.symm) hmem⟩
      · rw [hsome]
        exact Or.inr ⟨x :: u, v, rfl, rfl, fun hm => (List.mem_cons.mp hm).elim (fun h => hn h.symm) hu⟩

/-- What is printed of the buffer and what is left of it account for all of it, whatever
follows. -/
theorem scan_spec (pattern : List UInt8) {f : ℕ} {p : List UInt8} (h0 : 0 ∉ p) (hlen : p.length < bufSize) (hf : p.length < f) :
    newline ∉ (scan pattern f p).2 ∧ (scan pattern f p).2 <:+ p ∧
      ∀ rest, printed pattern (p ++ rest) = (scan pattern f p).1 ++ printed pattern ((scan pattern f p).2 ++ rest) := by
  induction f generalizing p with
  | zero => exact absurd hf (Nat.not_lt_zero _)
  | succ f ih =>
    rw [scan]
    rcases strchr_cases h0 with ⟨hnone, hmem⟩ | ⟨u, v, hsome, rfl, hu⟩
    · rw [hnone]
      exact ⟨hmem, List.suffix_refl p, fun rest => rfl⟩
    rw [hsome]
    have hdrop : (u ++ newline :: v).drop (u.length + 1) = v := by
      rw [← List.drop_drop, List.drop_left]
      rfl
    have htake : (u ++ newline :: v).take (u.length + 1) = u ++ [newline] := by
      rw [List.take_append, List.take_of_length_le (by omega), Nat.add_sub_cancel_left]
      rfl
    rw [List.length_append, List.length_cons] at hlen hf
    obtain ⟨hopen, hsuffix, hprint⟩ := ih (fun h => h0 (List.mem_append_right _ (List.mem_cons_of_mem _ h)))
      (p := v) (by omega) (by omega)
    dsimp only
    rw [hdrop, htake, List.take_left]
    refine ⟨hopen, hsuffix.trans ⟨u ++ [newline], by simp⟩, fun rest => ?_⟩
    rw [List.append_assoc, List.cons_append, printed_line hu (by omega), hprint rest]
    split
    · exact (List.append_assoc _ _ _).symm
    · rfl

/-! ### The loop of grep -/

/-- From any call of `read` on, the output is what the bytes in the buffer and those to come
give. -/
theorem grepLoop_eq {f i : ℕ} {buf input : List UInt8} {want : ℕ → ℕ} (hbuf : newline ∉ buf) (hlen : buf.length < bufSize)
    (h0 : 0 ∉ buf ++ input) (hf : input.length < f) :
    grepLoop pattern want f i buf input = some (printed pattern (buf ++ input)) := by
  induction f generalizing i buf input with
  | zero => exact absurd hf (Nat.not_lt_zero _)
  | succ f ih =>
    rw [grepLoop]
    generalize hn : min (max (want i) 1) (bufSize - buf.length - 1) = n
    dsimp only
    by_cases hend : input.take n = []
    · rw [if_pos hend]
      rcases List.take_eq_nil_iff.mp hend with hzero | hinput
      · rw [printed_long hbuf (by omega)]
      · rw [hinput, List.append_nil, printed_open hbuf]
    · rw [if_neg hend]
      have hpos : 0 < n := Nat.pos_of_ne_zero fun h => hend (by rw [h, List.take_zero])
      have hinput : 0 < input.length := List.length_pos_of_ne_nil fun h => hend (by rw [h, List.take_nil])
      have hsplit : buf ++ input.take n ++ input.drop n = buf ++ input := by
        rw [List.append_assoc, List.take_append_drop]
      have hfull : (buf ++ input.take n).length < bufSize := by
        rw [List.length_append, List.length_take]
        omega
      have hnul : 0 ∉ buf ++ input.take n := fun h => h0 (hsplit ▸ List.mem_append_left _ h)
      obtain ⟨hopen, hsuffix, hprint⟩ := scan_spec pattern hnul hfull (Nat.lt_succ_self _)
      rw [← hsplit, hprint, ih hopen (Nat.lt_of_le_of_lt hsuffix.length_le hfull)]
      · rfl
      · rw [← hsplit] at h0
        intro h
        rcases List.mem_append.mp h with h | h
        · exact hnul (hsuffix.subset h)
        · exact h0 (List.mem_append_right _ h)
      · rw [List.length_drop]
        omega

/-- **The output does not depend on how the input is cut.** -/
theorem grep_eq (pattern : List UInt8) (want : ℕ → ℕ) {input : List UInt8} (h0 : 0 ∉ input) :
    grep pattern want input = some (printed pattern input) :=
  grepLoop_eq List.not_mem_nil (by decide) h0 (Nat.lt_succ_self _)

/-- The lines that are not looked at count only if one of them matches. -/
theorem printed_eq_iff (pattern input : List UInt8) :
    printed pattern input = matching pattern (lines input) ↔ Printable pattern input := by
  have hsplit : matching pattern (lines input) =
      printed pattern input ++ matching pattern ((lines input).dropWhile fits) := by
    rw [printed, matching, matching, matching, ← List.flatten_append, ← List.filter_append, List.takeWhile_append_dropWhile]
  rw [hsplit, List.self_eq_append_right, matching, List.flatten_eq_nil_iff]
  constructor
  · intro h l hl
    by_contra hmatch
    have hnil := h l (List.mem_filter.mpr ⟨hl, Bool.eq_true_of_not_eq_false hmatch⟩)
    have hmem : l ∈ lines input := (List.dropWhile_suffix _).subset hl
    exact nil_notMem_lines input (hnil ▸ hmem)
  · intro h l hl
    obtain ⟨hl, hmatch⟩ := List.mem_filter.mp hl
    rw [h l hl] at hmatch
    cases hmatch

/-- **`grep` prints the lines that match, and no others, just for the inputs of which it looks
at all of them.** -/
theorem grep_prints_iff (pattern : List UInt8) (want : ℕ → ℕ) {input : List UInt8} (h0 : 0 ∉ input) :
    grep pattern want input = some (matching pattern (lines input)) ↔ Printable pattern input := by
  rw [grep_eq pattern want h0, Option.some_inj]
  exact printed_eq_iff pattern input

/-- The lines `ab` and `b`, of which the first matches `a`. -/
theorem grep_prints_iff_two : grep [97] (fun _ => 2) [97, 98, 10, 98] = some (matching [97] (lines [97, 98, 10, 98])) ↔
    Printable [97] [97, 98, 10, 98] := grep_prints_iff [97] (fun _ => 2) (by decide)

/-- A last line without a newline is not printed. -/
theorem grep_last_line :
    grep [97] (fun _ => 1) [97] = some [] ∧ matching [97] (lines [97]) = [97] := ⟨by decide, by decide⟩

end Grep
end Xv6
