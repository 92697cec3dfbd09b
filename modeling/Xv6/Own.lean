/-
# Cells held by places, with a bitmap

An allocator gives out the cells of `[lo, hi)` and marks those it has given
out; places hold cells, `0` standing for none. `Owns tgt bit lo hi` says that
marks and places agree: a cell that is held is marked and held once, and a
marked cell is held. The cells below `lo` are not for the places; they are
marked so that the allocator never gives them out.

The two moves are `Owns.link` (a fresh cell goes to an empty place) and
`Owns.release` (a set of places gives up all it holds at once).

Key definitions: `Owns`.
-/
import Mathlib.Logic.Function.Basic
import Mathlib.Data.Set.Basic
import Mathlib.Tactic.Common

variable {P : Type*} {tgt tgt' : P → ℕ} {bit bit' : ℕ → Bool} {lo hi : ℕ}

/-- The places that hold something hold distinct, marked cells of `[lo, hi)`,
and no marked cell of that range is lost. -/
structure Owns (tgt : P → ℕ) (bit : ℕ → Bool) (lo hi : ℕ) : Prop where
  pos : 0 < lo
  range : ∀ p, tgt p ≠ 0 → lo ≤ tgt p ∧ tgt p < hi
  unique : ∀ p q, tgt p ≠ 0 → tgt p = tgt q → p = q
  marked : ∀ p, tgt p ≠ 0 → bit (tgt p) = true
  noLeak : ∀ b, lo ≤ b → b < hi → bit b = true → ∃ p, tgt p = b
  low : ∀ b, b < lo → bit b = true

namespace Owns

theorem lo_le_of_free (h : Owns tgt bit lo hi) {b : ℕ} (hf : bit b = false) : lo ≤ b := by
  by_contra hlt
  have := h.low b (by omega)
  simp [hf] at this

/-- No place holds an unmarked cell. -/
theorem ne_of_free (h : Owns tgt bit lo hi) {b : ℕ} (hf : bit b = false) {p : P} (hp : tgt p ≠ 0) :
    tgt p ≠ b := by
  rintro rfl
  have := h.marked p hp
  simp [hf] at this

/-- A fresh cell goes to a place that holds none. -/
theorem link [DecidableEq P] (h : Owns tgt bit lo hi) {p : P} {b : ℕ} (hp : tgt p = 0) (hb : b < hi)
    (hf : bit b = false) : Owns (Function.update tgt p b) (Function.update bit b true) lo hi := by
  have hne : ∀ q, q ≠ p → Function.update tgt p b q = tgt q := fun q hq => Function.update_of_ne hq ..
  have hself : Function.update tgt p b p = b := Function.update_self ..
  have hbit : ∀ c, bit c = true → Function.update bit b true c = true := by
    intro c hc
    by_cases hcb : c = b
    · rw [hcb, Function.update_self]
    · rwa [Function.update_of_ne hcb]
  refine ⟨h.pos, fun q hq => ?_, fun q r hq hqr => ?_, fun q hq => ?_, fun c h1 h2 hc => ?_, fun c hc => ?_⟩
  · by_cases hqp : q = p
    · rw [hqp, hself]
      exact ⟨h.lo_le_of_free hf, hb⟩
    · rw [hne q hqp] at hq ⊢
      exact h.range q hq
  · by_cases hqp : q = p
    · by_cases hrp : r = p
      · rw [hqp, hrp]
      · rw [hqp, hself] at hq hqr
        rw [hne r hrp] at hqr
        exact absurd hqr.symm (h.ne_of_free hf (hqr ▸ hq))
    · rw [hne q hqp] at hq hqr
      by_cases hrp : r = p
      · rw [hrp, hself] at hqr
        exact absurd hqr (h.ne_of_free hf hq)
      · rw [hne r hrp] at hqr
        exact h.unique q r hq hqr
  · by_cases hqp : q = p
    · rw [hqp, hself, Function.update_self]
    · rw [hne q hqp] at hq ⊢
      exact hbit _ (h.marked q hq)
  · by_cases hcb : c = b
    · exact ⟨p, by rw [hself, hcb]⟩
    · rw [Function.update_of_ne hcb] at hc
      obtain ⟨q, hq⟩ := h.noLeak c h1 h2 hc
      have hqp : q ≠ p := by
        rintro rfl
        have := h.pos
        omega
      exact ⟨q, by rw [hne q hqp, hq]⟩
  · exact hbit c (h.low c hc)

/-- The places of `S` give up what they hold, and exactly those cells become
unmarked. -/
theorem release (h : Owns tgt bit lo hi) {S : Set P} (hin : ∀ p ∈ S, tgt' p = 0)
    (hout : ∀ p, p ∉ S → tgt' p = tgt p)
    (hbit : ∀ b, bit' b = true ↔ bit b = true ∧ ∀ p ∈ S, tgt p ≠ 0 → tgt p ≠ b) :
    Owns tgt' bit' lo hi := by
  have hkeep : ∀ p, tgt' p ≠ 0 → p ∉ S ∧ tgt' p = tgt p := fun p hp =>
    have hS : p ∉ S := fun hm => hp (hin p hm)
    ⟨hS, hout p hS⟩
  refine ⟨h.pos, fun p hp => ?_, fun p q hp hpq => ?_, fun p hp => ?_, fun b h1 h2 hb => ?_, fun b hb => ?_⟩
  · have he := (hkeep p hp).2
    rw [he] at hp ⊢
    exact h.range p hp
  · have ep := (hkeep p hp).2
    have eq := (hkeep q (hpq ▸ hp)).2
    exact h.unique p q (ep ▸ hp) (ep ▸ eq ▸ hpq)
  · obtain ⟨hS, he⟩ := hkeep p hp
    rw [he] at hp ⊢
    refine (hbit _).2 ⟨h.marked p hp, fun q hq hq0 hqp => ?_⟩
    exact hS (h.unique q p hq0 hqp ▸ hq)
  · obtain ⟨hb', hfree⟩ := (hbit b).1 hb
    obtain ⟨p, rfl⟩ := h.noLeak b h1 h2 hb'
    have hS : p ∉ S := fun hm => hfree p hm (by have := h.pos; omega) rfl
    exact ⟨p, hout p hS⟩
  · refine (hbit b).2 ⟨h.low b hb, fun p _ hp0 hpb => ?_⟩
    have := (h.range p hp0).1
    omega

end Owns
