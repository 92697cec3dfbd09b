/-
# Blocks that tile regions

Blocks and regions are given by their first byte and their length. `Tiles bs rs` says that the
blocks `bs` are nonempty, do not overlap, and together have exactly the bytes of the regions
`rs`. It does not depend on the order of the blocks, and stays true when a block is cut in
two (`Tiles.split`), when two that touch are put together (`Tiles.merge`) and when a new region
above all others is added as one block (`Tiles.cons`).

Key definitions: `Tiling.Tiles`.
Key theorems: `Tiling.Tiles.split`, `Tiling.Tiles.merge`, `Tiling.Tiles.cons`.
-/
import Mathlib.Algebra.Order.BigOperators.Group.List
import Mathlib.Algebra.Order.Ring.Nat
import Mathlib.Data.List.Pairwise
import Mathlib.Tactic.Common

namespace Tiling

/-- The byte `x` is in the block. -/
def Has (b : ℕ × ℕ) (x : ℕ) : Prop := b.1 ≤ x ∧ x < b.1 + b.2

/-- The blocks do not overlap. -/
def Apart (b c : ℕ × ℕ) : Prop := b.1 + b.2 ≤ c.1 ∨ c.1 + c.2 ≤ b.1

theorem Apart.symm {b c : ℕ × ℕ} (h : Apart b c) : Apart c b := Or.symm h

instance : Std.Symm Apart := ⟨fun _ _ => Apart.symm⟩

structure Tiles (bs rs : List (ℕ × ℕ)) : Prop where
  pos : ∀ b ∈ bs, 0 < b.2
  apart : bs.Pairwise Apart
  cover : ∀ x, (∃ b ∈ bs, Has b x) ↔ ∃ r ∈ rs, Has r x
  sum : (bs.map Prod.snd).sum = (rs.map Prod.snd).sum

theorem tiles_nil : Tiles [] [] := ⟨by simp, .nil, by simp, rfl⟩

variable {bs bs' rs : List (ℕ × ℕ)} {a m k n : ℕ}

theorem has_split {x : ℕ} : Has (a, m + k) x ↔ Has (a, m) x ∨ Has (a + m, k) x := by
  simp only [Has]
  omega

namespace Tiles

theorem perm (h : Tiles bs rs) (hp : bs.Perm bs') : Tiles bs' rs where
  pos b hb := h.pos b (hp.mem_iff.mpr hb)
  apart := (hp.pairwise_iff Apart.symm).mp h.apart
  cover x := by
    rw [← h.cover x]
    exact ⟨fun ⟨b, hb, hx⟩ => ⟨b, hp.mem_iff.mpr hb, hx⟩, fun ⟨b, hb, hx⟩ => ⟨b, hp.mem_iff.mp hb, hx⟩⟩
  sum := by rw [← h.sum, (hp.map Prod.snd).sum_eq]

/-- A block is cut in two. -/
theorem split (h : Tiles ((a, m + k) :: bs) rs) (hm : 0 < m) (hk : 0 < k) : Tiles ((a, m) :: (a + m, k) :: bs) rs := by
  obtain ⟨hhead, hrest⟩ := List.pairwise_cons.mp h.apart
  refine ⟨?_, ?_, fun x => ?_, ?_⟩
  · simp only [List.forall_mem_cons]
    exact ⟨hm, hk, fun b hb => h.pos b (List.mem_cons_of_mem _ hb)⟩
  · simp only [List.pairwise_cons, List.forall_mem_cons]
    refine ⟨⟨Or.inl (Nat.le_refl _), fun b hb => ?_⟩, fun b hb => ?_, hrest⟩
    all_goals
      have := hhead b hb
      simp only [Apart] at this ⊢
      omega
  · rw [← h.cover x]
    simp only [List.exists_mem_cons_iff, has_split, or_assoc]
  · rw [← h.sum]
    simp only [List.map_cons, List.sum_cons, Nat.add_assoc]

/-- Two blocks that touch are put together. -/
theorem merge (h : Tiles ((a, m) :: (a + m, k) :: bs) rs) : Tiles ((a, m + k) :: bs) rs := by
  obtain ⟨hhead, htail⟩ := List.pairwise_cons.mp h.apart
  obtain ⟨hhead', hrest⟩ := List.pairwise_cons.mp htail
  have hm : 0 < m := h.pos _ List.mem_cons_self
  have hpos : ∀ b ∈ bs, 0 < b.2 := fun b hb => h.pos b (List.mem_cons_of_mem _ (List.mem_cons_of_mem _ hb))
  refine ⟨?_, ?_, fun x => ?_, ?_⟩
  · rw [List.forall_mem_cons]
    exact ⟨Nat.add_pos_left hm _, hpos⟩
  · refine List.pairwise_cons.mpr ⟨fun b hb => ?_, hrest⟩
    have h1 := hhead b (List.mem_cons_of_mem _ hb)
    have h2 := hhead' b hb
    have h3 := hpos b hb
    simp only [Apart] at h1 h2 ⊢
    omega
  · rw [← h.cover x]
    simp only [List.exists_mem_cons_iff, has_split, or_assoc]
  · rw [← h.sum]
    simp only [List.map_cons, List.sum_cons, Nat.add_assoc]

theorem apart_of_ne (h : Tiles bs rs) {b c : ℕ × ℕ} (hb : b ∈ bs) (hc : c ∈ bs) (hne : b ≠ c) : Apart b c :=
  h.apart.forall hb hc hne

/-- The blocks end below what is above the regions. -/
theorem le_of_above (h : Tiles bs rs) (ha : ∀ r ∈ rs, r.1 + r.2 ≤ a) {b : ℕ × ℕ} (hb : b ∈ bs) : b.1 + b.2 ≤ a := by
  have hpos := h.pos b hb
  obtain ⟨r, hr, -, hx⟩ := (h.cover (b.1 + b.2 - 1)).mp ⟨b, hb, by simp only [Has]; omega⟩
  have := ha r hr
  omega

/-- A region above the others is added as one block. -/
theorem cons (h : Tiles bs rs) (hn : 0 < n) (ha : ∀ r ∈ rs, r.1 + r.2 ≤ a) : Tiles ((a, n) :: bs) ((a, n) :: rs) where
  pos := List.forall_mem_cons.mpr ⟨hn, h.pos⟩
  apart := List.pairwise_cons.mpr ⟨fun _ hb => Or.inr (h.le_of_above ha hb), h.apart⟩
  cover x := by simp only [List.exists_mem_cons_iff, h.cover x]
  sum := by simp only [List.map_cons, List.sum_cons, h.sum]

theorem le_sum (h : Tiles bs rs) {b : ℕ × ℕ} (hb : b ∈ bs) : b.2 ≤ (rs.map Prod.snd).sum := by
  rw [← h.sum]
  exact List.le_sum_of_mem (List.mem_map_of_mem hb)

end Tiles

end Tiling
