/-
# Numerals

The numeral of a number in a base, over an alphabet of digits: its digits from the
highest, without leading zeros, and the single digit 0 for zero. It is the numeral of
the quotient followed by the digit of the remainder (`numeral_eq`), has at most
`k` digits iff the number is below `b ^ k` (`length_numeral_le`), and determines the
number (`numeral_inj`, `signed_inj`).

Key definitions: `Numeral.numeral`, `Numeral.signed`.
-/
import Mathlib.Data.Nat.Digits.Lemmas
import Mathlib.Tactic.Common

namespace Numeral

variable {α : Type*}

def numeral (dig : ℕ → α) (b n : ℕ) : List α := if n = 0 then [dig 0] else ((Nat.digits b n).map dig).reverse

/-- A numeral with a sign. -/
def signed (dig : ℕ → α) (minus : α) (b : ℕ) (z : ℤ) : List α :=
  if z < 0 then minus :: numeral dig b z.natAbs else numeral dig b z.natAbs

variable {dig : ℕ → α} {minus : α} {b : ℕ}

/-- The last digit, and those before it if there are any. -/
theorem numeral_eq (hb : 1 < b) (n : ℕ) :
    numeral dig b n = (if n / b = 0 then [] else numeral dig b (n / b)) ++ [dig (n % b)] := by
  by_cases h0 : n = 0
  · rw [numeral, if_pos h0, h0, Nat.zero_div, if_pos rfl, Nat.zero_mod]
    rfl
  · rw [numeral, if_neg h0, Nat.digits_def' hb (Nat.pos_of_ne_zero h0), List.map_cons, List.reverse_cons]
    congr 1
    by_cases hq : n / b = 0
    · rw [if_pos hq, hq, Nat.digits_zero]
      rfl
    · rw [if_neg hq, numeral, if_neg hq]

theorem numeral_ne_nil (hb : 1 < b) (n : ℕ) : numeral dig b n ≠ [] := by
  rw [numeral_eq hb]
  exact List.append_ne_nil_of_right_ne_nil _ (List.cons_ne_nil _ _)

theorem length_numeral_le (hb : 1 < b) {k : ℕ} (hk : 0 < k) (n : ℕ) : (numeral dig b n).length ≤ k ↔ n < b ^ k := by
  by_cases h0 : n = 0
  · rw [numeral, if_pos h0, h0]
    exact iff_of_true hk (Nat.pow_pos (Nat.zero_lt_of_lt hb))
  · rw [numeral, if_neg h0, List.length_reverse, List.length_map, Nat.digits_length_le_iff hb]

/-- The sign takes a place of its own. -/
theorem length_signed_le (hb : 1 < b) {k : ℕ} (hk : 0 < k) (z : ℤ) :
    (signed dig minus b z).length ≤ k + 1 ↔ -(b : ℤ) ^ k < z ∧ z < (b : ℤ) ^ (k + 1) := by
  have hcast : ∀ n, ((b ^ n : ℕ) : ℤ) = (b : ℤ) ^ n := fun n => by norm_cast
  have hpos : ∀ n, 0 < b ^ n := fun n => Nat.pow_pos (Nat.zero_lt_of_lt hb)
  have hneg := hpos k
  have hnonneg := hpos (k + 1)
  rw [signed, ← hcast, ← hcast]
  by_cases hz : z < 0
  · rw [if_pos hz, List.length_cons, Nat.add_le_add_iff_right, length_numeral_le hb hk]
    omega
  · rw [if_neg hz, length_numeral_le (k := k + 1) hb (Nat.succ_pos k)]
    omega

theorem mem_numeral (hb : 1 < b) {n : ℕ} {c : α} (h : c ∈ numeral dig b n) : ∃ x, x < b ∧ c = dig x := by
  induction n using Nat.strong_induction_on with
  | _ n ih =>
    rw [numeral_eq hb, List.mem_append, List.mem_singleton] at h
    rcases h with h | h
    · by_cases hq : n / b = 0
      · rw [if_pos hq] at h
        cases h
      · rw [if_neg hq] at h
        refine ih (n / b) (Nat.div_lt_self (Nat.pos_of_ne_zero fun h0 => hq ?_) hb) h
        rw [h0, Nat.zero_div]
    · exact ⟨n % b, Nat.mod_lt _ (Nat.zero_lt_of_lt hb), h⟩

/-- **A numeral determines its number.** -/
theorem numeral_inj (hb : 1 < b) (hdig : ∀ x y, x < b → y < b → dig x = dig y → x = y) {n m : ℕ}
    (h : numeral dig b n = numeral dig b m) : n = m := by
  induction n using Nat.strong_induction_on generalizing m with
  | _ n ih =>
    rw [numeral_eq hb n, numeral_eq hb m] at h
    obtain ⟨hhigh, hlow⟩ := List.append_inj' h rfl
    have hpos : 0 < b := Nat.zero_lt_of_lt hb
    have hmod := hdig _ _ (Nat.mod_lt n hpos) (Nat.mod_lt m hpos) (List.cons.inj hlow).1
    have hdiv : n / b = m / b := by
      by_cases hn : n / b = 0
      · by_cases hm : m / b = 0
        · rw [hn, hm]
        · rw [if_pos hn, if_neg hm] at hhigh
          exact absurd hhigh.symm (numeral_ne_nil hb _)
      · by_cases hm : m / b = 0
        · rw [if_neg hn, if_pos hm] at hhigh
          exact absurd hhigh (numeral_ne_nil hb _)
        · rw [if_neg hn, if_neg hm] at hhigh
          refine ih (n / b) (Nat.div_lt_self (Nat.pos_of_ne_zero fun h0 => hn ?_) hb) hhigh
          rw [h0, Nat.zero_div]
    calc n = b * (n / b) + n % b := (Nat.div_add_mod n b).symm
      _ = b * (m / b) + m % b := by rw [hdiv, hmod]
      _ = m := Nat.div_add_mod m b

theorem signed_inj (hb : 1 < b) (hdig : ∀ x y, x < b → y < b → dig x = dig y → x = y) (hminus : ∀ x, x < b → dig x ≠ minus)
    {y z : ℤ} (h : signed dig minus b y = signed dig minus b z) : y = z := by
  have hne : ∀ (n m : ℕ), minus :: numeral dig b n ≠ numeral dig b m := by
    intro n m he
    obtain ⟨x, hx, hc⟩ := mem_numeral hb (he ▸ List.mem_cons_self ..)
    exact hminus x hx hc.symm
  rw [signed, signed] at h
  by_cases hy : y < 0
  · by_cases hz : z < 0
    · rw [if_pos hy, if_pos hz] at h
      have habs := numeral_inj hb hdig (List.cons.inj h).2
      omega
    · rw [if_pos hy, if_neg hz] at h
      exact absurd h (hne _ _)
  · by_cases hz : z < 0
    · rw [if_neg hy, if_pos hz] at h
      exact absurd h.symm (hne _ _)
    · rw [if_neg hy, if_neg hz] at h
      have habs := numeral_inj hb hdig h
      omega

end Numeral
