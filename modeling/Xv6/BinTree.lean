/-
# Aligned power-of-two blocks

A node `⟨k, i⟩` is the block of `2 ^ k` leaves that starts at leaf `i * 2 ^ k`;
containment of blocks is the tree order, in which a node lies below its
`parent` and beside its `sib`. A set `U` of used nodes that are pairwise
incomparable determines everything a buddy system keeps about a tree: the
nodes with a used node at or below them (`Busy`), those with a used node
strictly below (`Split`), and the maximal blocks that no used node meets
(`Vacant`). Using a vacant node (`busy_use`, `split_use`, `vacant_use`) and
descending from a node to one of its halves (`busy_half`, `split_half`,
`vacant_half`) change these sets in one place only; read backwards the same
equivalences are releasing and merging. Every leaf lies in exactly one used
or vacant node (`exists_owner`, `owner_unique`).

Key definitions: `BinTree.Node`, `BinTree.Busy`, `BinTree.Split`, `BinTree.Vacant`.
-/
import Mathlib.Data.Set.Insert
import Mathlib.Order.Basic
import Mathlib.Tactic.Ring

namespace BinTree

/-- The block of `2 ^ order` leaves that starts at leaf `idx * 2 ^ order`. -/
@[ext]
structure Node where
  order : ℕ
  idx : ℕ
  deriving DecidableEq

namespace Node

variable {a b c x : Node}

instance : LE Node := ⟨fun a b => a.order ≤ b.order ∧ a.idx / 2 ^ (b.order - a.order) = b.idx⟩

theorem le_def : a ≤ b ↔ a.order ≤ b.order ∧ a.idx / 2 ^ (b.order - a.order) = b.idx := Iff.rfl

theorem eq_of_le_of_order (h : a ≤ b) (ho : a.order = b.order) : a = b := by
  obtain ⟨-, h2⟩ := le_def.mp h
  rw [ho, Nat.sub_self, Nat.pow_zero, Nat.div_one] at h2
  exact Node.ext ho h2

instance : PartialOrder Node where
  le_refl a := ⟨le_rfl, by simp⟩
  le_trans a b c hab hbc := by
    obtain ⟨h1, h2⟩ := hab
    obtain ⟨h3, h4⟩ := hbc
    refine ⟨h1.trans h3, ?_⟩
    rw [← h4, ← h2, Nat.div_div_eq_div_mul, ← Nat.pow_add]
    congr 2
    omega
  le_antisymm a b hab hba := eq_of_le_of_order hab (le_antisymm hab.1 hba.1)

theorem order_lt (h : a < b) : a.order < b.order :=
  lt_of_le_of_ne h.le.1 fun he => h.ne (eq_of_le_of_order h.le he)

/-- The block twice as large that contains it. -/
def parent (a : Node) : Node := ⟨a.order + 1, a.idx / 2⟩

/-- The other half of its parent. -/
def sib (a : Node) : Node := ⟨a.order, if a.idx % 2 = 0 then a.idx + 1 else a.idx - 1⟩

theorem lt_parent (a : Node) : a < a.parent := by
  have h : a ≤ a.parent := ⟨Nat.le_succ _, by simp [parent]⟩
  refine lt_of_le_of_ne h fun he => ?_
  have := congrArg Node.order he
  simp [parent] at this

@[simp] theorem parent_sib (a : Node) : a.sib.parent = a.parent := by
  ext
  · rfl
  · show (if a.idx % 2 = 0 then a.idx + 1 else a.idx - 1) / 2 = a.idx / 2
    split <;> omega

theorem sib_ne (a : Node) : a.sib ≠ a := by
  intro h
  have := congrArg Node.idx h
  simp only [sib] at this
  split at this <;> omega

theorem even_or_sib_even (a : Node) : a.idx % 2 = 0 ∨ a.sib.idx % 2 = 0 := by
  simp only [sib]
  split <;> omega

/-- What lies above a node is the node itself or lies above its parent. -/
theorem le_iff_eq_or_parent_le : a ≤ x ↔ a = x ∨ a.parent ≤ x := by
  constructor
  · intro h
    rcases eq_or_ne a x with he | hne
    · exact .inl he
    refine .inr ⟨order_lt (lt_of_le_of_ne h hne), ?_⟩
    have hlt := order_lt (lt_of_le_of_ne h hne)
    rw [← h.2, parent, Nat.div_div_eq_div_mul, ← Nat.pow_succ']
    congr 2
    simp only
    omega
  · rintro (rfl | h)
    · exact le_rfl
    · exact (lt_parent a).le.trans h

theorem lt_iff_parent_le : a < x ↔ a.parent ≤ x := by
  constructor
  · intro h
    exact (le_iff_eq_or_parent_le.mp h.le).resolve_left h.ne
  · exact fun h => (lt_parent a).trans_le h

/-- Two nodes of one order that contain a common node are equal. -/
theorem eq_of_le_of_le (h1 : x ≤ a) (h2 : x ≤ b) (ho : a.order = b.order) : a = b := by
  refine Node.ext ho ?_
  rw [← h1.2, ← h2.2, ho]

/-- Two nodes that contain a common node are nested. -/
theorem le_total_above (h1 : x ≤ a) (h2 : x ≤ b) : a ≤ b ∨ b ≤ a := by
  wlog ho : a.order ≤ b.order generalizing a b
  · exact (this h2 h1 (Nat.le_of_not_le ho)).symm
  refine .inl ⟨ho, ?_⟩
  have h3 := h1.1
  rw [← h1.2, ← h2.2, Nat.div_div_eq_div_mul, ← Nat.pow_add]
  congr 2
  omega

/-- What lies strictly below a parent lies in one of its halves. -/
theorem lt_parent_iff : x < a.parent ↔ x ≤ a ∨ x ≤ a.sib := by
  constructor
  · intro h
    have ho : x.order ≤ a.order := Nat.lt_succ_iff.mp (order_lt h)
    have h2 : x.idx / 2 ^ (a.order - x.order) / 2 = a.idx / 2 := by
      have := h.le.2
      rw [parent, show a.order + 1 - x.order = (a.order - x.order) + 1 by omega, Nat.pow_succ,
        ← Nat.div_div_eq_div_mul] at this
      exact this
    have hcase : x.idx / 2 ^ (a.order - x.order) = a.idx ∨
        x.idx / 2 ^ (a.order - x.order) = a.sib.idx := by
      simp only [sib]
      split <;> omega
    exact hcase.imp (fun h => ⟨ho, h⟩) (fun h => ⟨ho, h⟩)
  · rintro (h | h)
    · exact h.trans_lt (lt_parent a)
    · exact parent_sib a ▸ h.trans_lt (lt_parent a.sib)

theorem not_le_sib (a : Node) : ¬ a ≤ a.sib := fun h => sib_ne a (eq_of_le_of_order h rfl).symm

theorem not_sib_le (a : Node) : ¬ a.sib ≤ a := fun h => sib_ne a (eq_of_le_of_order h rfl)

/-- The block of order `k` at the start of `a`. -/
def first (a : Node) (k : ℕ) : Node := ⟨k, a.idx * 2 ^ (a.order - k)⟩

theorem first_le {k : ℕ} (h : k ≤ a.order) : a.first k ≤ a :=
  ⟨h, Nat.mul_div_cancel _ (Nat.two_pow_pos _)⟩

@[simp] theorem first_self (a : Node) : a.first a.order = a := by
  simp [first]

end Node

open Node

/-! ### What a set of used nodes determines -/

/-- No used node lies in `a` or contains it. -/
def Apart (U : Set Node) (a : Node) : Prop := ∀ u ∈ U, ¬ u ≤ a ∧ ¬ a ≤ u

/-- A used node lies in `a`, or is `a`. -/
def Busy (U : Set Node) (a : Node) : Prop := ∃ u ∈ U, u ≤ a

/-- A used node lies strictly inside `a`. -/
def Split (U : Set Node) (a : Node) : Prop := ∃ u ∈ U, u < a

/-- A largest block that no used node meets. -/
def Vacant (U : Set Node) (a : Node) : Prop := Apart U a ∧ Busy U a.parent

variable {U : Set Node} {a b c p x : Node}

theorem Busy.mono (h : Busy U a) (hab : a ≤ b) : Busy U b :=
  let ⟨u, hu, hle⟩ := h
  ⟨u, hu, hle.trans hab⟩

theorem busy_insert : Busy (insert b U) a ↔ b ≤ a ∨ Busy U a := by
  simp [Busy]

theorem split_insert : Split (insert b U) a ↔ b < a ∨ Split U a := by
  simp [Split]

theorem apart_insert : Apart (insert b U) a ↔ (¬ b ≤ a ∧ ¬ a ≤ b) ∧ Apart U a := by
  simp [Apart]

theorem Apart.mono (h : Apart U a) (hb : b ≤ a) : Apart U b := by
  intro u hu
  refine ⟨fun hle => (h u hu).1 (hle.trans hb), fun hle => ?_⟩
  rcases le_total_above hb hle with h2 | h2
  · exact (h u hu).2 h2
  · exact (h u hu).1 h2

/-- A block that is neither busy nor inside a used one is apart from all. -/
theorem apart_iff : Apart U a ↔ ¬ Busy U a ∧ ∀ u ∈ U, ¬ a ≤ u := by
  simp only [Apart, Busy, not_exists, not_and]
  exact ⟨fun h => ⟨fun u hu => (h u hu).1, fun u hu => (h u hu).2⟩,
    fun h u hu => ⟨h.1 u hu, h.2 u hu⟩⟩

/-! ### Using a vacant node -/

theorem busy_use (h : Vacant U b) : Busy (insert b U) a ↔ Busy U a ∨ a = b := by
  rw [busy_insert, le_iff_eq_or_parent_le]
  constructor
  · rintro ((rfl | hp) | hb)
    · exact .inr rfl
    · exact .inl (h.2.mono hp)
    · exact .inl hb
  · rintro (hb | rfl)
    · exact .inr hb
    · exact .inl (.inl rfl)

theorem split_use (h : Vacant U b) : Split (insert b U) a ↔ Split U a := by
  rw [split_insert, or_iff_right_iff_imp, lt_iff_parent_le]
  intro hp
  obtain ⟨u, hu, hle⟩ := h.2
  refine ⟨u, hu, lt_of_le_of_ne (hle.trans hp) ?_⟩
  rintro rfl
  exact (h.1 u hu).2 ((lt_parent b).le.trans hp)

theorem vacant_use (h : Vacant U b) : Vacant (insert b U) a ↔ Vacant U a ∧ a ≠ b := by
  unfold Vacant
  rw [apart_insert, busy_insert]
  constructor
  · intro hv
    refine ⟨⟨hv.1.2, hv.2.elim (fun hle => ?_) id⟩, fun he => hv.1.1.1 he.ge⟩
    -- `b` lies below the parent of `a` but is not the parent, so its own parent does too
    have hlt : b < a.parent := lt_of_le_of_ne hle fun he => hv.1.1.2 (he ▸ (lt_parent a).le)
    exact h.2.mono (lt_iff_parent_le.mp hlt)
  · intro hv
    obtain ⟨⟨hap, hbusy⟩, hne⟩ := hv
    refine ⟨⟨⟨fun hle => ?_, fun hle => ?_⟩, hap⟩, .inr hbusy⟩
    · obtain ⟨u, hu, hu'⟩ := h.2.mono (lt_iff_parent_le.mp (lt_of_le_of_ne hle hne.symm))
      exact (hap u hu).1 hu'
    · obtain ⟨u, hu, hu'⟩ := hbusy.mono (lt_iff_parent_le.mp (lt_of_le_of_ne hle hne))
      exact (h.1 u hu).1 hu'

/-! ### Descending to a half -/

theorem busy_half : Busy (insert c U) a ↔ Busy (insert c.parent U) a ∨ a = c := by
  rw [busy_insert, busy_insert, le_iff_eq_or_parent_le, eq_comm]
  tauto

theorem split_half : Split (insert c U) a ↔ Split (insert c.parent U) a ∨ a = c.parent := by
  rw [split_insert, split_insert, lt_iff_parent_le, le_iff_lt_or_eq, eq_comm (a := a)]
  tauto

theorem vacant_half (h : Apart U c.parent) :
    Vacant (insert c U) a ↔ Vacant (insert c.parent U) a ∨ a = c.sib := by
  unfold Vacant
  rw [apart_insert, apart_insert, busy_insert, busy_insert]
  constructor
  · intro hv
    obtain ⟨⟨⟨h1, h2⟩, hap⟩, hb⟩ := hv
    rcases eq_or_ne a c.sib with he | hne
    · exact .inr he
    left
    -- apart from `c` and not its sibling, `a` is apart from the parent
    have hnp : ¬ c.parent ≤ a := fun hle => h1 ((lt_parent c).le.trans hle)
    have hpn : ¬ a ≤ c.parent := by
      intro hle
      have hlt : a < c.parent := lt_of_le_of_ne hle fun he => hnp he.ge
      have hsib : a ≤ c.sib := (lt_parent_iff.mp hlt).resolve_left h2
      have hps : a.parent ≤ c.sib := lt_iff_parent_le.mp (lt_of_le_of_ne hsib hne)
      rcases hb with hb | ⟨u, hu, hle'⟩
      · exact not_le_sib c (hb.trans hps)
      · exact (h u hu).1 (hle'.trans (hps.trans (parent_sib c ▸ (lt_parent c.sib).le)))
    refine ⟨⟨⟨hnp, hpn⟩, hap⟩, hb.imp (fun hle => ?_) id⟩
    exact (le_iff_eq_or_parent_le.mp hle).resolve_left fun he => h2 (he ▸ (lt_parent a).le)
  · rintro (hv | rfl)
    · obtain ⟨⟨⟨h1, h2⟩, hap⟩, hb⟩ := hv
      refine ⟨⟨⟨fun hle => ?_, fun hle => h2 (hle.trans (lt_parent c).le)⟩, hap⟩,
        hb.imp (fun hle => (lt_parent c).le.trans hle) id⟩
      rcases le_iff_eq_or_parent_le.mp hle with rfl | hle'
      · exact h2 (lt_parent c).le
      · exact h1 hle'
    · refine ⟨⟨⟨not_le_sib c, not_sib_le c⟩, h.mono ?_⟩, .inl ?_⟩
      · exact parent_sib c ▸ (lt_parent c.sib).le
      · rw [parent_sib]
        exact (lt_parent c).le

/-! ### Every leaf has one owner -/

/-- The node of order `k` that contains leaf `x`. -/
def above (k x : ℕ) : Node := ⟨k, x / 2 ^ k⟩

theorem leaf_le_above (k x : ℕ) : (⟨0, x⟩ : Node) ≤ above k x := ⟨Nat.zero_le _, rfl⟩

theorem parent_above (k x : ℕ) : (above k x).parent = above (k + 1) x := by
  simp [above, parent, Nat.div_div_eq_div_mul, Nat.pow_succ]

/-- If the block of order `M` over leaf `x` is busy, the leaf lies in a used
node or in a vacant one below that block. -/
theorem exists_owner {M x : ℕ} (h : Busy U (above M x)) :
    (∃ u ∈ U, (⟨0, x⟩ : Node) ≤ u) ∨ ∃ k < M, Vacant U (above k x) := by
  by_cases hx : ∃ u ∈ U, (⟨0, x⟩ : Node) ≤ u
  · exact .inl hx
  right
  -- climb from the leaf to the first busy block
  induction M with
  | zero =>
    obtain ⟨u, hu, hle⟩ := h
    have : above 0 x = ⟨0, x⟩ := by simp [above]
    rw [this] at hle
    have hu0 : u = ⟨0, x⟩ := eq_of_le_of_order hle (Nat.le_zero.mp hle.1)
    exact absurd ⟨u, hu, hu0.ge⟩ hx
  | succ M ih =>
    by_cases hb : Busy U (above M x)
    · obtain ⟨k, hk, hv⟩ := ih hb
      exact ⟨k, hk.trans (Nat.lt_succ_self M), hv⟩
    · refine ⟨M, Nat.lt_succ_self M, apart_iff.mpr ⟨hb, fun u hu hle => ?_⟩, ?_⟩
      · exact hx ⟨u, hu, (leaf_le_above M x).trans hle⟩
      · rwa [parent_above]

/-- Between a node that meets no used one and a busy node above it there is a vacant one. -/
theorem Apart.exists_vacant (h : Apart U a) (hle : a ≤ b) (hb : Busy U b) : ∃ v, a ≤ v ∧ v ≤ b ∧ Vacant U v := by
  -- climb from the node to the last one that is not busy
  induction hn : b.order - a.order generalizing a with
  | zero =>
    obtain rfl := eq_of_le_of_order hle (le_antisymm hle.1 (by omega))
    exact absurd hb (apart_iff.mp h).1
  | succ n ih =>
    have hne : a ≠ b := by
      rintro rfl
      omega
    have hpar : a.parent ≤ b := lt_iff_parent_le.mp (lt_of_le_of_ne hle hne)
    by_cases hbusy : Busy U a.parent
    · exact ⟨a, le_rfl, hle, h, hbusy⟩
    · have hap : Apart U a.parent :=
        apart_iff.mpr ⟨hbusy, fun u hu hle => (h u hu).2 ((lt_parent a).le.trans hle)⟩
      obtain ⟨v, h1, h2, hv⟩ := ih hap hpar (show b.order - (a.order + 1) = n by omega)
      exact ⟨v, (lt_parent a).le.trans h1, h2, hv⟩

/-- Two vacant nodes that share a leaf are equal. -/
theorem owner_unique (ha : Vacant U a) (hb : Vacant U b) (h1 : x ≤ a) (h2 : x ≤ b) : a = b := by
  have key : ∀ {a b : Node}, Vacant U a → Vacant U b → a ≤ b → a = b := by
    intro a b ha hb hle
    by_contra hne
    obtain ⟨u, hu, hu'⟩ := ha.2.mono (lt_iff_parent_le.mp (lt_of_le_of_ne hle hne))
    exact (hb.1 u hu).1 hu'
  rcases le_total_above h1 h2 with h | h
  · exact key ha hb h
  · exact (key hb ha h).symm

/-- A vacant node shares no leaf with a used one. -/
theorem Vacant.not_le (ha : Vacant U a) (hb : b ∈ U) (h1 : x ≤ a) : ¬ x ≤ b := by
  intro h2
  rcases le_total_above h1 h2 with h | h
  · exact (ha.1 b hb).2 h
  · exact (ha.1 b hb).1 h

end BinTree
