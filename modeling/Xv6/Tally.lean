/-
# Counting what points where

`f` gives for each pointer what it points at, and `Tally f v n` says that `n`
of them point at `v`, there being finitely many. When one pointer changes, the
count of its old value goes down by one, that of its new value goes up by one,
and no other count changes: this is what a reference count has to follow. A
table of `n` entries has an unused one if fewer than `n` are in use.

Key definitions: `Tally`, `Fewer`.
Key theorems: `Tally.enter`, `Tally.leave`, `Tally.pass`, `fewer_iff`.
-/
import Mathlib.Data.Finset.Card
import Mathlib.Tactic.Common

variable {ι κ : Type*} [DecidableEq ι] {f : ι → κ} {v x : κ} {i : ι} {m n : ℕ}

/-- Exactly `n` of the `f i` are `v`. -/
def Tally (f : ι → κ) (v : κ) (n : ℕ) : Prop := ∃ F : Finset ι, (∀ i, i ∈ F ↔ f i = v) ∧ F.card = n

namespace Tally

omit [DecidableEq ι] in
theorem zero (h : ∀ i, f i ≠ v) : Tally f v 0 := ⟨∅, fun i => by simp [h i], rfl⟩

omit [DecidableEq ι] in
theorem eq_zero (h : Tally f v 0) (i : ι) : f i ≠ v := by
  obtain ⟨F, hF, hc⟩ := h
  rw [Finset.card_eq_zero] at hc
  simp [← hF, hc]

omit [DecidableEq ι] in
theorem pos (h : Tally f v n) (hi : f i = v) : 0 < n := by
  obtain ⟨F, hF, rfl⟩ := h
  exact Finset.card_pos.mpr ⟨i, (hF i).mpr hi⟩

omit [DecidableEq ι] in
/-- A single pointer. -/
theorem one (h : Tally f v 1) {j : ι} (hi : f i = v) (hj : f j = v) : i = j := by
  obtain ⟨F, hF, hc⟩ := h
  obtain ⟨a, rfl⟩ := Finset.card_eq_one.mp hc
  rw [Finset.mem_singleton.mp ((hF i).mpr hi), Finset.mem_singleton.mp ((hF j).mpr hj)]

omit [DecidableEq ι] in
/-- Something points at `v`. -/
theorem exists_of_pos (h : Tally f v n) (hn : 0 < n) : ∃ i, f i = v := by
  obtain ⟨F, hF, rfl⟩ := h
  obtain ⟨i, hi⟩ := Finset.card_pos.mp hn
  exact ⟨i, (hF i).mp hi⟩

/-- A pointer that did not point at `v` does now. -/
theorem enter (h : Tally f v n) (hi : f i ≠ v) : Tally (Function.update f i v) v (n + 1) := by
  obtain ⟨F, hF, rfl⟩ := h
  have hm : i ∉ F := by rwa [hF]
  refine ⟨insert i F, fun j => ?_, Finset.card_insert_of_notMem hm⟩
  by_cases hj : j = i
  · simp [hj]
  · simp [hj, hF]

/-- A pointer that pointed at `v` does no longer. -/
theorem leave (h : Tally f v n) (hi : f i = v) (hx : x ≠ v) : Tally (Function.update f i x) v (n - 1) := by
  obtain ⟨F, hF, rfl⟩ := h
  have hm : i ∈ F := by rwa [hF]
  refine ⟨F.erase i, fun j => ?_, Finset.card_erase_of_mem hm⟩
  by_cases hj : j = i
  · simp [hj, hx]
  · simp [hj, hF]

/-- A pointer that did not point at `v` and does not point at it now. -/
theorem pass (h : Tally f v n) (hi : f i ≠ v) (hx : x ≠ v) : Tally (Function.update f i x) v n := by
  obtain ⟨F, hF, rfl⟩ := h
  refine ⟨F, fun j => ?_, rfl⟩
  by_cases hj : j = i
  · simp [hj, hx, hF, hi]
  · simp [hj, hF]

end Tally

/-- The entries in use are fewer than the `n` there are. -/
def Fewer (Used : ℕ → Prop) (n : ℕ) : Prop := ∃ B : Finset ℕ, (∀ b, b < n → Used b → b ∈ B) ∧ B.card < n

theorem fewer_iff {Used : ℕ → Prop} : Fewer Used n ↔ ∃ b, b < n ∧ ¬ Used b := by
  constructor
  · rintro ⟨B, hB, hcard⟩
    by_contra! hall
    have hsub : Finset.range n ⊆ B := fun b hb =>
      hB b (Finset.mem_range.mp hb) (hall b (Finset.mem_range.mp hb))
    have := Finset.card_le_card hsub
    rw [Finset.card_range] at this
    omega
  · rintro ⟨b, hb, hno⟩
    refine ⟨(Finset.range n).erase b, fun c hc hu => ?_, ?_⟩
    · exact Finset.mem_erase.mpr ⟨fun he => hno (he ▸ hu), Finset.mem_range.mpr hc⟩
    · rw [Finset.card_erase_of_mem (Finset.mem_range.mpr hb), Finset.card_range]
      omega
