/-
# The regular expressions of grep

`match`, `matchhere` and `matchstar` of `user/grep.c`. A string is the list of its bytes without
the NUL: where the code reads the NUL, the list is at its end. `matchhere` and `matchstar` call
each other with the rest of the expression; here the loop of `matchstar` takes the matcher of
the rest as an argument, so that both recur on their lists and always end.

What an expression means is said by the items that it is made of: a byte or `.`, or one of these
repeated. The language of the expression is the product of the languages of its items.

Key definitions: `Grep.matchhere`, `Grep.matchRe`, `Grep.items`, `Grep.Matches`.
Key theorems: `Grep.matchhere_iff`, `Grep.match_iff`.
-/
import Mathlib.Computability.Language

namespace Xv6
namespace Grep

/-! ### The matcher -/

/-- `'^'`. -/
def caret : UInt8 := 94
/-- `'$'`. -/
def dollar : UInt8 := 36
/-- `'.'`. -/
def dot : UInt8 := 46
/-- `'*'`. -/
def star : UInt8 := 42

/-- The loop of `matchstar`; `rest` is the match of what follows the `*`. -/
def starLoop (rest : List UInt8 → Bool) (c : UInt8) : List UInt8 → Bool
  | [] => rest []
  | t :: text => rest (t :: text) || (t == c || c == dot) && starLoop rest c text

/-- One byte of the text is matched, and then `rest`. -/
def matchone (rest : List UInt8 → Bool) (c : UInt8) : List UInt8 → Bool
  | [] => false
  | t :: text => (c == dot || c == t) && rest text

/-- The expression at the beginning of the text. -/
def matchhere : List UInt8 → List UInt8 → Bool
  | [], _ => true
  | [c], text => if c = dollar then text.isEmpty else matchone (matchhere []) c text
  | c :: d :: re, text =>
    if d = star then starLoop (matchhere re) c text
    -- `c` may be a `$`, but it is not the last one
    else matchone (matchhere (d :: re)) c text

def matchstar (c : UInt8) (re text : List UInt8) : Bool := starLoop (matchhere re) c text

theorem matchhere_star (c : UInt8) (re text : List UInt8) : matchhere (c :: star :: re) text = matchstar c re text :=
  if_pos rfl

/-- The loop of `match`. -/
def matchLoop (re : List UInt8) : List UInt8 → Bool
  | [] => matchhere re []
  | t :: text => matchhere re (t :: text) || matchLoop re text

/-- `match`. -/
def matchRe (re text : List UInt8) : Bool :=
  if re.head? = some caret then matchhere re.tail text else matchLoop re text

/-! ### The meaning of an expression -/

inductive Item where
  | one (c : UInt8)
  | star (c : UInt8)

/-- The bytes that `c` stands for. -/
def Stands (c t : UInt8) : Prop := c = dot ∨ c = t

/-- The strings of one byte. -/
def bytes (c : UInt8) : Language UInt8 := { s | ∃ t, Stands c t ∧ s = [t] }

def Item.lang : Item → Language UInt8
  | .one c => bytes c
  | .star c => KStar.kstar (bytes c)

/-- The items of an expression without its `^`, and whether it ends in an anchor. -/
def items : List UInt8 → List Item × Bool
  | [] => ([], false)
  | [c] => if c = dollar then ([], true) else ([.one c], false)
  | c :: d :: re =>
    if d = star then (.star c :: (items re).1, (items re).2)
    else (.one c :: (items (d :: re)).1, (items (d :: re)).2)

def lang (is : List Item) : Language UInt8 := (is.map Item.lang).prod

/-- A string that begins as the items say, and does not go on after them if there is an anchor. -/
def MatchesHere (is : List Item × Bool) (text : List UInt8) : Prop :=
  ∃ mid post, text = mid ++ post ∧ mid ∈ lang is.1 ∧ (is.2 = true → post = [])

/-- **What a match is**: a substring in the language of the items, which is a prefix if there is
a `^` and a suffix if there is an anchor. -/
def Matches (re text : List UInt8) : Prop :=
  if re.head? = some caret then MatchesHere (items re.tail) text
  else ∃ pre rest, text = pre ++ rest ∧ MatchesHere (items re) rest

/-! ### The matcher finds what there is -/

variable {c : UInt8} {text : List UInt8} {is : List Item} {e : Bool}

theorem mem_kstar_bytes {s : List UInt8} : s ∈ KStar.kstar (bytes c) ↔ ∀ t ∈ s, Stands c t := by
  rw [Language.mem_kstar]
  constructor
  · rintro ⟨ss, rfl, hss⟩ t ht
    obtain ⟨s, hs, hts⟩ := List.mem_flatten.mp ht
    obtain ⟨t', ht', rfl⟩ := hss s hs
    rw [List.mem_singleton.mp hts]
    exact ht'
  · intro hs
    refine ⟨s.map fun t => [t], by rw [← List.flatMap_def, List.flatMap_singleton'], fun y hy => ?_⟩
    obtain ⟨t, ht, rfl⟩ := List.mem_map.mp hy
    exact ⟨t, hs t ht, rfl⟩

/-- The text of an item is split off, and the rest is matched. -/
theorem matchesHere_cons {i : Item} :
    MatchesHere (i :: is, e) text ↔ ∃ u v, text = u ++ v ∧ u ∈ i.lang ∧ MatchesHere (is, e) v := by
  constructor
  · rintro ⟨mid, post, rfl, hmid, hpost⟩
    rw [lang, List.map_cons, List.prod_cons] at hmid
    obtain ⟨u, hu, w, hw, rfl⟩ := Language.mem_mul.mp hmid
    exact ⟨u, w ++ post, List.append_assoc _ _ _, hu, w, post, rfl, hw, hpost⟩
  · rintro ⟨u, v, rfl, hu, w, post, rfl, hw, hpost⟩
    refine ⟨u ++ w, post, (List.append_assoc _ _ _).symm, ?_, hpost⟩
    rw [lang, List.map_cons, List.prod_cons]
    exact Language.append_mem_mul hu hw

theorem matchesHere_nil : MatchesHere ([], e) text ↔ (e = true → text = []) := by
  constructor
  · rintro ⟨mid, post, rfl, hmid, hpost⟩ he
    rw [lang, List.map_nil, List.prod_nil, Language.mem_one] at hmid
    rw [hmid, hpost he]
    rfl
  · intro h
    exact ⟨[], text, rfl, rfl, h⟩

/-- The loop of `matchstar` tries every split. -/
theorem starLoop_iff {rest : List UInt8 → Bool} :
    starLoop rest c text = true ↔ ∃ u v, text = u ++ v ∧ u ∈ (Item.star c).lang ∧ rest v = true := by
  simp only [Item.lang, mem_kstar_bytes]
  induction text with
  | nil =>
    rw [starLoop]
    constructor
    · intro h
      exact ⟨[], [], rfl, fun t ht => absurd ht List.not_mem_nil, h⟩
    · rintro ⟨u, v, huv, -, hv⟩
      rw [(List.append_eq_nil_iff.mp huv.symm).2] at hv
      exact hv
  | cons t text ih =>
    rw [starLoop, Bool.or_eq_true, Bool.and_eq_true, ih]
    constructor
    · rintro (h | ⟨ht, u, v, rfl, hu, hv⟩)
      · exact ⟨[], t :: text, rfl, fun t ht => absurd ht List.not_mem_nil, h⟩
      · refine ⟨t :: u, v, rfl, List.forall_mem_cons.mpr ⟨?_, hu⟩, hv⟩
        rcases Bool.or_eq_true _ _ ▸ ht with ht | ht
        · exact Or.inr (eq_of_beq ht).symm
        · exact Or.inl (eq_of_beq ht)
    · rintro ⟨u, v, huv, hu, hv⟩
      cases u with
      | nil =>
        left
        rw [List.nil_append] at huv
        rw [huv]
        exact hv
      | cons x u =>
        obtain ⟨rfl, rfl⟩ := List.cons.inj huv
        obtain ⟨hx, hu⟩ := List.forall_mem_cons.mp hu
        refine Or.inr ⟨?_, u, v, rfl, hu, hv⟩
        rcases hx with rfl | rfl
        · simp
        · simp

theorem matchone_iff {rest : List UInt8 → Bool} :
    matchone rest c text = true ↔ ∃ u v, text = u ++ v ∧ u ∈ (Item.one c).lang ∧ rest v = true := by
  cases text with
  | nil =>
    refine iff_of_false (by simp [matchone]) ?_
    rintro ⟨u, v, huv, ⟨t, -, rfl⟩, -⟩
    cases huv
  | cons t text =>
    rw [matchone, Bool.and_eq_true]
    constructor
    · rintro ⟨ht, h⟩
      refine ⟨[t], text, rfl, ⟨t, ?_, rfl⟩, h⟩
      rcases Bool.or_eq_true _ _ ▸ ht with ht | ht
      · exact Or.inl (eq_of_beq ht)
      · exact Or.inr (eq_of_beq ht)
    · rintro ⟨u, v, huv, ⟨t', ht, rfl⟩, hv⟩
      obtain ⟨rfl, rfl⟩ := List.cons.inj huv
      refine ⟨?_, hv⟩
      rcases ht with rfl | rfl
      · simp
      · simp

/-- **`matchhere` decides whether the text begins as the items say.** -/
theorem matchhere_iff (re text : List UInt8) : matchhere re text = true ↔ MatchesHere (items re) text := by
  -- along the recursion of `items`, which is the one of `matchhere`
  induction re using items.induct generalizing text with
  | case1 =>
    rw [matchhere, items, matchesHere_nil]
    simp
  | case2 =>
    rw [matchhere, if_pos rfl, items, if_pos rfl, matchesHere_nil, List.isEmpty_iff]
    simp
  | case3 c hc =>
    rw [matchhere, if_neg hc, items, if_neg hc, matchone_iff, matchesHere_cons]
    simp only [matchhere, matchesHere_nil]
    simp
  | case4 c re ih =>
    rw [matchhere_star, matchstar, items, if_pos rfl, starLoop_iff, matchesHere_cons]
    simp only [ih]
  | case5 c d re hd ih =>
    rw [matchhere, if_neg hd, items, if_neg hd, matchone_iff, matchesHere_cons]
    simp only [ih]

theorem matchLoop_iff (re text : List UInt8) :
    matchLoop re text = true ↔ ∃ pre rest, text = pre ++ rest ∧ MatchesHere (items re) rest := by
  induction text with
  | nil =>
    rw [matchLoop, matchhere_iff]
    constructor
    · intro h
      exact ⟨[], [], rfl, h⟩
    · rintro ⟨pre, rest, hsplit, h⟩
      rw [(List.append_eq_nil_iff.mp hsplit.symm).2] at h
      exact h
  | cons t text ih =>
    rw [matchLoop, Bool.or_eq_true, matchhere_iff, ih]
    constructor
    · rintro (h | ⟨pre, rest, rfl, h⟩)
      · exact ⟨[], t :: text, rfl, h⟩
      · exact ⟨t :: pre, rest, rfl, h⟩
    · rintro ⟨pre, rest, hsplit, h⟩
      cases pre with
      | nil =>
        left
        rw [hsplit]
        exact h
      | cons x pre =>
        obtain ⟨rfl, rfl⟩ := List.cons.inj hsplit
        exact Or.inr ⟨pre, rest, rfl, h⟩

/-- **`match` is sound and complete.** -/
theorem match_iff (re text : List UInt8) : matchRe re text = true ↔ Matches re text := by
  rw [matchRe, Matches]
  by_cases h : re.head? = some caret
  · rw [if_pos h, if_pos h]
    exact matchhere_iff re.tail text
  · rw [if_neg h, if_neg h]
    exact matchLoop_iff re text

/-- In `^*a$b*$` the first `*` and the first `$` are bytes like others. -/
example : matchRe [94, 42, 97, 36, 98, 42, 36] [42, 97, 36, 98, 98] = true := by decide

end Grep
end Xv6
