/-
# Little-endian integers in a byte array

An array of bytes is a function from offsets. `le f o w` is the integer of
`w` bytes at offset `o`, `putLe f o w v` stores `v` there. What is stored is
read back modulo `256 ^ w` (`le_putLe`), and a field that does not meet the
stored one reads as before (`le_putLe_disjoint`).

Key definitions: `Bytes.le`, `Bytes.putLe`.
-/
import Mathlib.Algebra.Order.Ring.Nat
import Mathlib.Tactic.Common
import Mathlib.Tactic.Ring

namespace Bytes

def le (f : ℕ → UInt8) (o : ℕ) : ℕ → ℕ
  | 0 => 0
  | w + 1 => (f o).toNat + 256 * le f (o + 1) w

def putLe (f : ℕ → UInt8) (o w v : ℕ) : ℕ → UInt8 := fun j =>
  if o ≤ j ∧ j < o + w then .ofNat (v / 256 ^ (j - o)) else f j

theorem le_congr {f g : ℕ → UInt8} {o w : ℕ} (h : ∀ j, o ≤ j → j < o + w → f j = g j) :
    le f o w = le g o w := by
  induction w generalizing o with
  | zero => rfl
  | succ w ih =>
    rw [le, le, h o le_rfl (by omega), ih fun j h1 h2 => h j (by omega) (by omega)]

theorem le_lt (f : ℕ → UInt8) (o w : ℕ) : le f o w < 256 ^ w := by
  induction w generalizing o with
  | zero => simp [le]
  | succ w ih =>
    have h1 := ih (o + 1)
    have h2 := (f o).toNat_lt
    rw [le, Nat.pow_succ]
    omega

/-- Reading back what was stored. -/
theorem le_putLe (f : ℕ → UInt8) (o w v : ℕ) : le (putLe f o w v) o w = v % 256 ^ w := by
  induction w generalizing f o v with
  | zero => simp [le, Nat.mod_one]
  | succ w ih =>
    -- the bytes after the first are those of `v / 256`
    have hrest : le (putLe f o (w + 1) v) (o + 1) w = le (putLe f (o + 1) w (v / 256)) (o + 1) w := by
      refine le_congr fun j h1 h2 => ?_
      have hj : j - o = (j - (o + 1)) + 1 := by omega
      simp only [putLe]
      rw [if_pos ⟨by omega, by omega⟩, if_pos ⟨h1, h2⟩, hj, Nat.pow_succ, Nat.mul_comm,
        Nat.div_div_eq_div_mul]
    have hfirst : (putLe f o (w + 1) v o).toNat = v % 256 := by simp [putLe]
    rw [le, hrest, ih, hfirst, Nat.pow_succ, Nat.mul_comm (256 ^ w), Nat.mod_mul]

theorem putLe_of_disjoint {f : ℕ → UInt8} {o w v j : ℕ} (h : j < o ∨ o + w ≤ j) :
    putLe f o w v j = f j := by
  rw [putLe, if_neg (by omega)]

theorem le_putLe_disjoint {f : ℕ → UInt8} {o w v o' w' : ℕ} (h : o' + w' ≤ o ∨ o + w ≤ o') :
    le (putLe f o w v) o' w' = le f o' w' :=
  le_congr fun _ _ _ => putLe_of_disjoint (by omega)

end Bytes
