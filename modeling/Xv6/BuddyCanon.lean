/-
# The state of the buddy allocator is determined by the blocks in use

`Canon U g m alloc split L` says that the bits and free lists are the ones the
used blocks `U` determine (`BinTree`): a block's alloc bit is set iff a used
block lies in it, its split bit iff one lies strictly inside, and the free list
of each size holds the largest blocks of that size that meet no used one, each
once. A reserved leaf counts as a used block of size 0. Each round of the loops
of `bd_malloc` and `bd_free` takes such a state to another: popping and pushing
back a block (`Canon.use`, `Canon.release`), going down to a half and up to the
merged block (`Canon.half`, `Canon.merge`).

Key definitions: `Buddy.Canon`, `Buddy.Sound`.
Key theorems: `Buddy.bdMalloc_spec`, `Buddy.bdFree_spec`.
-/
import Mathlib.Data.Int.DivMod
import Xv6.BinTree
import Xv6.Buddy

namespace Xv6
namespace Buddy

open Lst Links BinTree

variable {g : Geo} {N A : Node} {U V : Set Node} {k i : ℕ}

/-! ### Blocks and addresses -/

theorem blkSize_pos (k : ℕ) : 0 < blkSize k := by
  simp [blkSize, LEAF_SIZE]

theorem blkSize_add (k d : ℕ) : blkSize (k + d) = 2 ^ d * blkSize k := by
  unfold blkSize
  ring

namespace Geo

/-- The address of a block. -/
def blk (g : Geo) (N : Node) : ℕ := g.bdBase + N.idx * blkSize N.order

/-- `N` is a block of the heap. -/
def Has (g : Geo) (N : Node) : Prop := N.order < g.nsizes ∧ N.idx < g.nblk N.order

theorem nblk_succ (h : k + 1 < g.nsizes) : g.nblk k = 2 * g.nblk (k + 1) := by
  unfold nblk maxsize
  rw [← Nat.pow_succ']
  congr 1
  omega

theorem Has.parent (h : g.Has N) (ho : N.order + 1 < g.nsizes) : g.Has N.parent := by
  refine ⟨ho, ?_⟩
  have h2 := h.2
  rw [nblk_succ ho] at h2
  show N.idx / 2 < g.nblk (N.order + 1)
  omega

theorem Has.sib (h : g.Has N) (ho : N.order + 1 < g.nsizes) : g.Has N.sib := by
  refine ⟨h.1, ?_⟩
  have h2 := h.2
  rw [nblk_succ ho] at h2
  show (if N.idx % 2 = 0 then N.idx + 1 else N.idx - 1) < g.nblk N.order
  rw [nblk_succ ho]
  split <;> omega

/-- A block below a block of the heap is one. -/
theorem Has.mono (h : g.Has A) (hle : N ≤ A) : g.Has N := by
  have ho := hle.1
  refine ⟨ho.trans_lt h.1, ?_⟩
  have h2 := h.2
  rw [← hle.2] at h2
  have hpow : g.nblk N.order = g.nblk A.order * 2 ^ (A.order - N.order) := by
    have := h.1
    unfold nblk maxsize
    rw [← Nat.pow_add]
    congr 1
    omega
  rw [hpow]
  exact (Nat.div_lt_iff_lt_mul (Nat.two_pow_pos _)).mp h2

theorem Has.fits (h : g.Has N) : N.idx * blkSize N.order + blkSize N.order ≤ g.heapSize := by
  have hM : g.maxsize = N.order + (g.maxsize - N.order) := by
    have := h.1
    unfold maxsize
    omega
  calc N.idx * blkSize N.order + blkSize N.order = (N.idx + 1) * blkSize N.order := by ring
    _ ≤ g.nblk N.order * blkSize N.order := Nat.mul_le_mul_right _ h.2
    _ = blkSize (N.order + (g.maxsize - N.order)) := (blkSize_add _ _).symm
    _ = g.heapSize := by rw [← hM]; rfl

/-- The heap's offsets fit an `int`. -/
def Small (g : Geo) : Prop := g.heapSize ≤ 2 ^ 31

end Geo

open Geo

/-- The block of order `k` at or above `N`'s first byte. -/
theorem blkIndex_blk (hs : g.Small) (h : g.Has N) (hle : N ≤ A) :
    blkIndex g A.order (g.blk N) = A.idx := by
  have hfit : N.idx * blkSize N.order < 2 ^ 31 :=
    lt_of_lt_of_le (by have := blkSize_pos N.order; omega) (h.fits.trans hs)
  have hdiff : ((g.blk N : ℕ) : ℤ) - g.bdBase = (N.idx * blkSize N.order : ℕ) := by
    unfold blk
    push_cast
    ring
  have hdiv : N.idx * blkSize N.order / blkSize A.order = A.idx := by
    rw [← hle.2, show A.order = N.order + (A.order - N.order) by have := hle.1; omega, blkSize_add,
      Nat.mul_comm (2 ^ _), ← Nat.div_div_eq_div_mul, Nat.mul_div_cancel _ (blkSize_pos _)]
    simp
  have hle' : A.idx ≤ N.idx * blkSize N.order := hdiv ▸ Nat.div_le_self _ _
  unfold blkIndex
  rw [hdiff, cInt_natCast hfit, ← Int.ofNat_tdiv, hdiv, cInt_natCast (by omega)]

theorem addr_eq (hs : g.Small) (h : g.Has N) : addr g N.order N.idx = g.blk N := by
  have hfit : N.idx * blkSize N.order < 2 ^ 31 :=
    lt_of_lt_of_le (by have := blkSize_pos N.order; omega) (h.fits.trans hs)
  unfold addr blk
  rw [← Int.natCast_mul, cInt_natCast hfit]
  omega

theorem hasBit (h : g.Has N) : g.HasBit N.order N.idx :=
  ⟨h.1, by omega, by exact_mod_cast h.2⟩

theorem buddyOf_idx (N : Node) : buddyOf N.idx = N.sib.idx := by
  unfold buddyOf Node.sib
  simp only
  split <;> split <;> omega

theorem blk_first (g : Geo) (h : k ≤ N.order) : g.blk (N.first k) = g.blk N := by
  have : blkSize N.order = 2 ^ (N.order - k) * blkSize k := by
    rw [← blkSize_add, Nat.add_sub_cancel' h]
  unfold blk Node.first
  rw [this, Nat.mul_assoc]

/-- A first half is at the address of the whole. -/
theorem blk_parent (h : N.idx % 2 = 0) : g.blk N.parent = g.blk N := by
  have hidx : N.idx / 2 * 2 = N.idx := by omega
  show g.bdBase + N.idx / 2 * blkSize (N.order + 1) = g.bdBase + N.idx * blkSize N.order
  rw [blkSize_add, Nat.pow_one, ← Nat.mul_assoc, hidx]

/-- Two blocks at one address are nested. -/
theorem nested_of_blk_eq (h : g.blk N = g.blk A) : N ≤ A ∨ A ≤ N := by
  wlog ho : N.order ≤ A.order generalizing N A
  · exact (this h.symm (Nat.le_of_not_le ho)).symm
  refine .inl ⟨ho, ?_⟩
  unfold blk at h
  have h2 : N.idx * blkSize N.order = A.idx * 2 ^ (A.order - N.order) * blkSize N.order := by
    rw [Nat.mul_assoc, ← blkSize_add, show N.order + (A.order - N.order) = A.order by omega]
    omega
  rw [Nat.eq_of_mul_eq_mul_right (blkSize_pos _) h2, Nat.mul_div_cancel _ (Nat.two_pow_pos _)]

theorem blkIndex_first (hs : g.Small) (hN : g.Has N) (h : k ≤ N.order) :
    blkIndex g k (g.blk N) = (N.first k).idx := by
  have := blkIndex_blk (A := N.first k) hs (hN.mono (Node.first_le h)) le_rfl
  rwa [blk_first g h] at this

theorem put_apply (array : ℕ → ℕ → Bool) (N : Node) (v : Bool) (k i : ℕ) :
    put array N.order N.idx v k i = if (⟨k, i⟩ : Node) = N then v else array k i := by
  unfold put
  rcases eq_or_ne k N.order with rfl | hk
  · rcases eq_or_ne i N.idx with rfl | hi
    · simp
    · have : (⟨N.order, i⟩ : Node) ≠ N := fun h => hi (congrArg Node.idx h)
      simp [hi, this]
  · have : (⟨k, i⟩ : Node) ≠ N := fun h => hk (congrArg Node.order h)
    simp [hk, this]

/-! ### The state the used blocks determine -/

/-- The bits and free lists are those of the used blocks `U`. -/
structure Canon (U : Set Node) (g : Geo) (m : Mem ℕ) (alloc split : ℕ → ℕ → Bool)
    (L : ℕ → List ℕ) : Prop where
  rings : Rings m g.nsizes g.free L
  alloc : ∀ N, g.Has N → (alloc N.order N.idx = true ↔ Busy U N)
  split : ∀ N, g.Has N → 0 < N.order → (split N.order N.idx = true ↔ Split U N)
  mem : ∀ k < g.nsizes, ∀ a, a ∈ L k ↔ ∃ i, g.Has ⟨k, i⟩ ∧ Vacant U ⟨k, i⟩ ∧ a = g.blk ⟨k, i⟩

/-- What is true of the used blocks at all times: they are blocks of a heap
whose offsets fit an `int`, and the list heads lie in reserved leaves. -/
structure Sound (U : Set Node) (g : Geo) : Prop where
  pos : 0 < g.nsizes
  small : g.Small
  has : ∀ u ∈ U, g.Has u
  heads : ∀ k < g.nsizes, ∃ x, (⟨0, x⟩ : Node) ∈ U ∧ g.free k = g.blk ⟨0, x⟩

variable {m m' : Mem ℕ} {al sp : ℕ → ℕ → Bool} {L : ℕ → List ℕ}

theorem Canon.mem_blk (h : Canon U g m al sp L) (hN : g.Has N) :
    g.blk N ∈ L N.order ↔ Vacant U N := by
  rw [h.mem N.order hN.1]
  constructor
  · intro hm
    obtain ⟨i, hi, hv, he⟩ := hm
    have hidx : N.idx = i := by
      unfold blk at he
      exact Nat.eq_of_mul_eq_mul_right (blkSize_pos N.order) (Nat.add_left_cancel he)
    have : N = ⟨N.order, i⟩ := Node.ext rfl hidx
    rwa [this]
  · exact fun hv => ⟨N.idx, hN, hv, rfl⟩

/-- The address of a block that lies in a used one, but apart from the
reserved leaves, is not a node of any list. -/
theorem Canon.fresh (h : Canon V g m al sp L) (hU : Sound U g) (hap : Apart U N)
    (hA : A ∈ V) (hle : N ≤ A) : ∀ j < g.nsizes, g.blk N ∉ g.free j :: L j := by
  intro j hj hmem
  rcases List.mem_cons.mp hmem with he | hm
  · obtain ⟨x, hx, hfree⟩ := hU.heads j hj
    rw [hfree] at he
    have := hap ⟨0, x⟩ hx
    exact (nested_of_blk_eq he).elim this.2 this.1
  · obtain ⟨i, -, hv, he⟩ := (h.mem j hj _).mp hm
    rcases nested_of_blk_eq he with hn | hn
    · exact hv.not_le hA hn hle
    · exact hv.not_le hA le_rfl (hn.trans hle)

/-- Membership after one list has lost or gained a block. -/
theorem Canon.mem_update {P : Node → Prop} (h : Canon V g m al sp L) {l : List ℕ}
    (hl : ∀ a, a ∈ l ↔ ∃ i, g.Has ⟨N.order, i⟩ ∧ P ⟨N.order, i⟩ ∧ a = g.blk ⟨N.order, i⟩)
    (hP : ∀ B : Node, B.order ≠ N.order → (P B ↔ Vacant V B)) :
    ∀ k < g.nsizes, ∀ a, a ∈ Function.update L N.order l k ↔
      ∃ i, g.Has ⟨k, i⟩ ∧ P ⟨k, i⟩ ∧ a = g.blk ⟨k, i⟩ := by
  intro k hk a
  rcases eq_or_ne k N.order with rfl | hne
  · rw [Function.update_self, hl]
  · rw [Function.update_of_ne hne, h.mem k hk]
    have : ∀ i, P ⟨k, i⟩ ↔ Vacant V ⟨k, i⟩ := fun i => hP _ hne
    simp only [this]

/-- The list of `N`'s size with `N` taken off. -/
theorem Canon.mem_erase {P : Node → Prop} (h : Canon V g m al sp L) (hN : g.Has N)
    (hP : ∀ B, P B ↔ Vacant V B ∧ B ≠ N) (k : ℕ) (hk : k < g.nsizes) (a : ℕ) :
    a ∈ Function.update L N.order ((L N.order).erase (g.blk N)) k ↔
      ∃ i, g.Has ⟨k, i⟩ ∧ P ⟨k, i⟩ ∧ a = g.blk ⟨k, i⟩ := by
  refine h.mem_update (fun a => ?_) (fun B hB => ?_) k hk a
  · rw [(List.nodup_cons.mp (h.rings.nodup _ hN.1)).2.mem_erase_iff, h.mem _ hN.1]
    constructor
    · intro ⟨hne, i, hi, hv, he⟩
      refine ⟨i, hi, (hP _).mpr ⟨hv, fun hB => hne ?_⟩, he⟩
      rw [he, hB]
    · intro ⟨i, hi, hv, he⟩
      obtain ⟨hv, hne⟩ := (hP _).mp hv
      refine ⟨fun hh => hne ?_, i, hi, hv, he⟩
      exact Node.ext rfl (Nat.eq_of_mul_eq_mul_right (blkSize_pos N.order)
        (Nat.add_left_cancel (he.symm.trans hh)))
  · rw [hP]
    exact and_iff_left fun he => hB (congrArg Node.order he)

/-- The list of `N`'s size with `N` put on. -/
theorem Canon.mem_cons {P : Node → Prop} (h : Canon V g m al sp L) (hN : g.Has N)
    (hP : ∀ B, P B ↔ Vacant V B ∨ B = N) (k : ℕ) (hk : k < g.nsizes) (a : ℕ) :
    a ∈ Function.update L N.order (g.blk N :: L N.order) k ↔
      ∃ i, g.Has ⟨k, i⟩ ∧ P ⟨k, i⟩ ∧ a = g.blk ⟨k, i⟩ := by
  refine h.mem_update (fun a => ?_) (fun B hB => ?_) k hk a
  · rw [List.mem_cons, h.mem _ hN.1]
    constructor
    · rintro (he | ⟨i, hi, hv, he⟩)
      · exact ⟨N.idx, hN, (hP _).mpr (.inr rfl), he⟩
      · exact ⟨i, hi, (hP _).mpr (.inl hv), he⟩
    · intro ⟨i, hi, hv, he⟩
      rcases (hP _).mp hv with hv | hB
      · exact .inr ⟨i, hi, hv, he⟩
      · exact .inl (he.trans (congrArg g.blk hB))
  · rw [hP]
    exact or_iff_left fun he => hB (congrArg Node.order he)

theorem put_true_iff {a : ℕ → ℕ → Bool} {B : Node} {p : Prop} (h : a B.order B.idx = true ↔ p) :
    put a N.order N.idx true B.order B.idx = true ↔ p ∨ B = N := by
  rw [put_apply, ← h]
  by_cases hB : B = N <;> simp [hB]

theorem put_false_iff {a : ℕ → ℕ → Bool} {B : Node} {p : Prop} (h : a B.order B.idx = true ↔ p) :
    put a N.order N.idx false B.order B.idx = true ↔ p ∧ B ≠ N := by
  rw [put_apply, ← h]
  by_cases hB : B = N <;> simp [hB]

/-! ### One round -/

/-- A vacant block is popped and its alloc bit set. -/
theorem Canon.use (h : Canon U g m al sp L) (hN : g.Has N) (hv : Vacant U N)
    (hr : Rings m' g.nsizes g.free (Function.update L N.order ((L N.order).erase (g.blk N)))) :
    Canon (insert N U) g m' (put al N.order N.idx true) sp
      (Function.update L N.order ((L N.order).erase (g.blk N))) where
  rings := hr
  alloc B hB := (put_true_iff (h.alloc B hB)).trans (busy_use hv).symm
  split B hB h0 := (h.split B hB h0).trans (split_use hv).symm
  mem := h.mem_erase hN fun _ => vacant_use hv

/-- Its inverse: a block whose parent is busy is pushed and its alloc bit cleared. -/
theorem Canon.release (h : Canon (insert N U) g m al sp L) (hN : g.Has N) (hv : Vacant U N)
    (hr : Rings m' g.nsizes g.free (Function.update L N.order (g.blk N :: L N.order))) :
    Canon U g m' (put al N.order N.idx false) sp
      (Function.update L N.order (g.blk N :: L N.order)) where
  rings := hr
  alloc B hB := by
    rw [put_false_iff (h.alloc B hB), busy_use hv]
    constructor
    · exact fun hb => hb.1.resolve_right hb.2
    · exact fun hb => ⟨.inl hb, fun he => (apart_iff.mp hv.1).1 (he ▸ hb)⟩
  split B hB h0 := (h.split B hB h0).trans (split_use hv)
  mem := by
    refine h.mem_cons hN fun B => ?_
    rw [vacant_use hv]
    by_cases hB : B = N
    · simp [hB, hv]
    · simp [hB]

/-- A block in use is split, one half stays in use and the other is pushed. -/
theorem Canon.half (h : Canon (insert N.parent U) g m al sp L) (hN : g.Has N.sib)
    (hap : Apart U N.parent)
    (hr : Rings m' g.nsizes g.free (Function.update L N.order (g.blk N.sib :: L N.order))) :
    Canon (insert N U) g m' (put al N.order N.idx true) (put sp N.parent.order N.parent.idx true)
      (Function.update L N.order (g.blk N.sib :: L N.order)) where
  rings := hr
  alloc B hB := (put_true_iff (h.alloc B hB)).trans busy_half.symm
  split B hB h0 := (put_true_iff (h.split B hB h0)).trans split_half.symm
  mem := h.mem_cons hN fun _ => vacant_half hap

/-- Its inverse: the free buddy is taken off its list and merged with the block. -/
theorem Canon.merge (h : Canon (insert N U) g m al sp L) (hN : g.Has N.sib)
    (hap : Apart U N.parent)
    (hr : Rings m' g.nsizes g.free (Function.update L N.order ((L N.order).erase (g.blk N.sib)))) :
    Canon (insert N.parent U) g m' (put al N.order N.idx false)
      (put sp N.parent.order N.parent.idx false)
      (Function.update L N.order ((L N.order).erase (g.blk N.sib))) where
  rings := hr
  alloc B hB := by
    rw [put_false_iff (h.alloc B hB), busy_half]
    constructor
    · exact fun hb => hb.1.resolve_right hb.2
    · refine fun hb => ⟨.inl hb, fun he => ?_⟩
      rw [he, busy_insert] at hb
      exact hb.elim (fun hle => (Node.lt_parent N).not_ge hle)
        (apart_iff.mp (hap.mono (Node.lt_parent N).le)).1
  split B hB h0 := by
    rw [put_false_iff (h.split B hB h0), split_half]
    constructor
    · exact fun hb => hb.1.resolve_right hb.2
    · refine fun hb => ⟨.inl hb, fun he => ?_⟩
      rw [he, split_insert] at hb
      obtain hlt | ⟨u, hu, hlt⟩ := hb
      · exact lt_irrefl _ hlt
      · exact (hap u hu).1 hlt.le
  mem := by
    refine h.mem_erase hN fun B => ?_
    rw [vacant_half hap]
    by_cases hB : B = N.sib
    · -- the buddy lies inside the merged block
      have hnv : ¬ Vacant (insert N.parent U) N.sib := fun hv =>
        hv.not_le (Set.mem_insert _ _) le_rfl (Node.parent_sib N ▸ (Node.lt_parent N.sib).le)
      simp [hB, hnv]
    · simp [hB]

/-! ### The loops -/

/-- `Canon` of a whole state. -/
def CanonOf (U : Set Node) (s : Sys) (L : ℕ → List ℕ) : Prop :=
  Canon U s.toGeo s.links s.alloc s.split L

theorem bitIsset_ok (h : g.Has N) (a : ℕ → ℕ → Bool) :
    bitIsset g a N.order N.idx = .ok (a N.order N.idx) := by
  rw [bitIsset, if_pos (hasBit h), Int.toNat_natCast]

theorem bitSet_ok (h : g.Has N) (a : ℕ → ℕ → Bool) :
    bitSet g a N.order N.idx = .ok (put a N.order N.idx true) := by
  rw [bitSet, if_pos (hasBit h), Int.toNat_natCast]

theorem bitClear_ok (h : g.Has N) (a : ℕ → ℕ → Bool) :
    bitClear g a N.order N.idx = .ok (put a N.order N.idx false) := by
  rw [bitClear, if_pos (hasBit h), Int.toNat_natCast]

/-- No block that meets no used one is the whole heap. -/
theorem Sound.order_lt (hU : Sound U g) (hN : g.Has N) (hap : Apart U N) :
    N.order + 1 < g.nsizes := by
  by_contra hge
  obtain ⟨x, hx, -⟩ := hU.heads 0 hU.pos
  have hM : N.order = g.maxsize := by
    have := hN.1
    unfold maxsize
    omega
  have hx0 := (hU.has _ hx).2
  have hN0 := hN.2
  simp only [nblk, hM, Nat.sub_self, Nat.sub_zero, Nat.pow_zero, Nat.lt_one_iff] at hx0 hN0
  refine (hap _ hx).1 ⟨Nat.zero_le _, ?_⟩
  rw [hN0, hM]
  exact Nat.div_eq_of_lt hx0

/-- The blocks of smaller sizes at the start of a block in use are not split, its parent is. -/
theorem sizeLoop_spec {s : Sys} {L : ℕ → List ℕ} (hU : Sound U s.toGeo) (hN : s.Has N)
    (hap : Apart U N) (h : CanonOf (insert N U) s L) :
    ∀ f j, j ≤ N.order → N.order < j + f → sizeLoop s (s.blk N) f j = .ok N.order := by
  intro f
  induction f with
  | zero => intro j h1 h2; omega
  | succ f ih =>
    intro j h1 h2
    unfold sizeLoop
    rcases Nat.lt_or_ge j N.order with hlt | hge
    · have hfirst : N.first (j + 1) ≤ N := Node.first_le hlt
      have hhas : s.Has (N.first (j + 1)) := hN.mono hfirst
      have hidx : blkIndex s.toGeo (j + 1) (s.blk N) = (N.first (j + 1)).idx :=
        blkIndex_first hU.small hN hlt
      have hns : s.split (j + 1) (N.first (j + 1)).idx = false := by
        have hiff := h.split (N.first (j + 1)) hhas (Nat.succ_pos j)
        rw [split_insert] at hiff
        refine Bool.eq_false_iff.mpr fun ht => ?_
        rcases hiff.mp ht with hlt' | ⟨u, hu, hlt'⟩
        · exact lt_irrefl _ (hlt'.trans_le hfirst)
        · exact (hap u hu).1 (hlt'.le.trans hfirst)
      have hbit := bitIsset_ok hhas s.split
      rw [show (N.first (j + 1)).order = j + 1 from rfl, hns] at hbit
      rw [hidx, hbit]
      exact ih (j + 1) hlt (by omega)
    · obtain rfl : j = N.order := by omega
      have hpar : s.Has N.parent := hN.parent (hU.order_lt hN hap)
      have hsp : s.split N.parent.order N.parent.idx = true :=
        (h.split N.parent hpar (Nat.succ_pos _)).mpr ⟨N, Set.mem_insert _ _, Node.lt_parent N⟩
      have hbit := bitIsset_ok hpar s.split
      rw [hsp] at hbit
      rw [show N.order + 1 = N.parent.order from rfl,
        blkIndex_blk hU.small hN (Node.lt_parent N).le, hbit]
      rfl

theorem size_spec {s : Sys} {L : ℕ → List ℕ} (hU : Sound U s.toGeo) (hN : s.Has N)
    (hap : Apart U N) (h : CanonOf (insert N U) s L) : size s (s.blk N) = .ok N.order :=
  sizeLoop_spec hU hN hap h _ 0 (Nat.zero_le _) (by simpa using hN.1)

/-- The first half of a block. -/
theorem exists_first_half {fk d : ℕ} (ho : N.order = fk + (d + 1)) (g : Geo) :
    ∃ c : Node, c.order = fk + d ∧ c.parent = N ∧ g.blk c = g.blk N ∧
      g.blk c.sib = g.blk N + blkSize (fk + d) ∧ c.first fk = N.first fk := by
  have hidx : N.idx * 2 ^ (N.order - (fk + d)) = 2 * N.idx := by
    rw [ho, show fk + (d + 1) - (fk + d) = 1 by omega]
    omega
  refine ⟨N.first (fk + d), rfl, Node.ext ho.symm ?_, blk_first g (by omega), ?_, Node.ext rfl ?_⟩
  · show N.idx * 2 ^ (N.order - (fk + d)) / 2 = N.idx
    omega
  · rw [← blk_first g (show fk + d ≤ N.order by omega)]
    simp only [blk, Node.first, Node.sib, hidx, Nat.mul_mod_right, if_true]
    ring
  · show N.idx * 2 ^ (N.order - (fk + d)) * 2 ^ (fk + d - fk) = N.idx * 2 ^ (N.order - fk)
    rw [Nat.mul_assoc, ← Nat.pow_add]
    congr 2
    omega

/-- Splitting a block in use down to size `fk` leaves its first block of that size in use. -/
theorem splitDown_spec {fk p d : ℕ} {s : Sys} {L : ℕ → List ℕ} (hU : Sound U s.toGeo)
    (hN : s.Has N) (ho : N.order = fk + d) (hap : Apart U N) (hp : s.blk N = p)
    (h : CanonOf (insert N U) s L) :
    ∃ s' L', splitDown p fk d s = .ok s' ∧ s'.toGeo = s.toGeo ∧
      CanonOf (insert (N.first fk) U) s' L' := by
  induction d generalizing s N L with
  | zero =>
    refine ⟨s, L, rfl, rfl, ?_⟩
    obtain rfl : N.order = fk := ho
    rwa [Node.first_self]
  | succ d ih =>
    obtain ⟨c, hco, rfl, hcp, hsp, hcf⟩ := exists_first_half ho s.toGeo
    have hcN := (Node.lt_parent c).le
    have hsN : c.sib ≤ c.parent := Node.parent_sib c ▸ (Node.lt_parent c.sib).le
    have hc : s.Has c := hN.mono hcN
    have hsib : s.Has c.sib := hN.mono hsN
    have hr := rings_push h.rings hsib.1 (h.fresh hU (hap.mono hsN) (Set.mem_insert _ U) hsN)
    have hround := h.half hsib hap hr
    have hsplit : bitSet s.toGeo s.split (fk + d + 1) (blkIndex s.toGeo (fk + d + 1) p) =
        .ok (put s.split c.parent.order c.parent.idx true) := by
      rw [← hp, show fk + d + 1 = c.parent.order from ho.symm, blkIndex_blk hU.small hN le_rfl]
      exact bitSet_ok hN s.split
    have halloc : bitSet s.toGeo s.alloc (fk + d) (blkIndex s.toGeo (fk + d) p) =
        .ok (put s.alloc c.order c.idx true) := by
      rw [← hp, ← hcp, ← hco, blkIndex_blk hU.small hc le_rfl]
      exact bitSet_ok hc s.alloc
    obtain ⟨s', L', hs', hgeo, hcan⟩ := ih (s := { s with
        alloc := put s.alloc c.order c.idx true
        split := put s.split c.parent.order c.parent.idx true
        links := lstPush s.links (s.free c.order) (s.blk c.sib) })
      hU hc hco (hap.mono hcN) (hcp.trans hp) hround
    refine ⟨s', L', ?_, hgeo, hcf ▸ hcan⟩
    rw [← hs', splitDown]
    simp only [Nat.add_sub_cancel, hsplit, halloc, hsp, hp, hco]
    rfl

theorem firstkLoop_spec {n M : ℕ} (hn : n ≤ blkSize M) (hM : blkSize M < 2 ^ 64) :
    ∀ f k, k ≤ M → M < k + f → ∃ k', firstkLoop n f k (blkSize k) = some k' ∧ k' ≤ M ∧
      n ≤ blkSize k' ∧ ∀ j, k ≤ j → j < k' → blkSize j < n := by
  intro f
  induction f with
  | zero => intro k h1 h2; omega
  | succ f ih =>
    intro k h1 h2
    unfold firstkLoop
    split
    · rename_i hlt
      have hkM : k < M := by
        by_contra hge
        obtain rfl : k = M := by omega
        omega
      have hpow : 2 * blkSize k = blkSize (k + 1) := (blkSize_add k 1).symm
      have hle : blkSize (k + 1) ≤ blkSize M :=
        Nat.mul_le_mul_right _ (Nat.pow_le_pow_right (by omega) hkM)
      rw [Nat.mul_comm, hpow, Nat.mod_eq_of_lt (hle.trans_lt hM)]
      obtain ⟨k', hk', h3, h4, h5⟩ := ih (k + 1) hkM (by omega)
      refine ⟨k', hk', h3, h4, fun j hj1 hj2 => ?_⟩
      rcases Nat.eq_or_lt_of_le hj1 with rfl | hlt'
      · exact hlt
      · exact h5 j hlt' hj2
    · exact ⟨k, rfl, h1, by omega, fun j h3 h4 => by omega⟩

/-- `firstk(n)` is the first size that holds `n` bytes. -/
theorem firstk_spec {n : ℕ} (hU : Sound U g) (hn : n ≤ g.heapSize) :
    ∃ k, firstk n = some k ∧ k < g.nsizes ∧ n ≤ blkSize k ∧ ∀ j < k, blkSize j < n := by
  have hs : g.heapSize ≤ 2 ^ 31 := hU.small
  have hM : g.maxsize < 65 := by
    have h1 : g.maxsize < 2 ^ g.maxsize := Nat.lt_two_pow_self
    have h2 : 2 ^ g.maxsize < 2 ^ 65 :=
      lt_of_le_of_lt (Nat.le_mul_of_pos_right _ (by decide : 0 < LEAF_SIZE))
        (lt_of_le_of_lt hs (by decide))
    exact (Nat.pow_lt_pow_iff_right (by decide)).mp h2
  obtain ⟨k, hk, h1, h2, h3⟩ := firstkLoop_spec hn (lt_of_le_of_lt hs (by decide)) 65 0
    (Nat.zero_le _) (by omega)
  refine ⟨k, hk, ?_, h2, fun j hj => h3 j (Nat.zero_le _) hj⟩
  have := hU.pos
  unfold maxsize at h1
  omega

/-- **`bd_malloc`** finds no block of a sufficient size and changes nothing,
or takes one that meets no used block into use. -/
theorem bdMalloc_spec {n fk : ℕ} {s : Sys} {L : ℕ → List ℕ} (hU : Sound U s.toGeo)
    (h : CanonOf U s L) (hfk : firstk n = some fk) :
    (bdMalloc n s = .ok (none, s) ∧ ∀ k, fk ≤ k → k < s.nsizes → L k = []) ∨
    ∃ N s' L', bdMalloc n s = .ok (some (s.blk N), s') ∧ s'.toGeo = s.toGeo ∧ N.order = fk ∧
      s.Has N ∧ Apart U N ∧ CanonOf (insert N U) s' L' := by
  unfold bdMalloc
  rw [hfk]
  simp only
  have hempty : ∀ k < s.nsizes, (!lstEmpty s.links (s.free k)) = true ↔ L k ≠ [] := by
    intro k hk
    rw [Bool.not_eq_true', Bool.eq_false_iff, Ne, rings_empty h.rings hk]
  cases hfind : (List.range' fk (s.nsizes - fk)).find? fun k => !lstEmpty s.links (s.free k) with
  | none =>
    left
    refine ⟨rfl, fun k h1 h2 => ?_⟩
    have := List.find?_eq_none.mp hfind k (List.mem_range'_1.mpr ⟨h1, by omega⟩)
    rw [hempty k h2] at this
    exact not_not.mp this
  | some k =>
    right
    have hk := List.mem_range'_1.mp (List.mem_of_find?_eq_some hfind)
    have hkn : k < s.nsizes := by omega
    obtain ⟨p, l, hl⟩ := List.exists_cons_of_ne_nil
      ((hempty k hkn).mp (by simpa using List.find?_some hfind))
    obtain ⟨i, hi, hv, hp⟩ := (h.mem k hkn p).mp (by simp [hl])
    obtain ⟨m', hpop, hr⟩ := rings_pop h.rings hkn hl
    have herase : (L k).erase (s.blk ⟨k, i⟩) = l := by rw [← hp, hl, List.erase_cons_head]
    have hr' : Rings m' s.nsizes s.free (Function.update L k ((L k).erase (s.blk ⟨k, i⟩))) := by
      rw [herase]
      exact hr
    have huse := h.use hi hv hr'
    have ho : (⟨k, i⟩ : Node).order = fk + (k - fk) := by
      show k = fk + (k - fk)
      omega
    have hle : (Node.first ⟨k, i⟩ fk) ≤ (⟨k, i⟩ : Node) := Node.first_le hk.1
    obtain ⟨s', L', hs', hgeo, hcan⟩ := splitDown_spec
      (s := { s with links := m', alloc := put s.alloc k i true }) hU hi ho hv.1 hp.symm huse
    have hset : bitSet s.toGeo s.alloc k (blkIndex s.toGeo k p) = .ok (put s.alloc k i true) := by
      rw [hp]
      have := blkIndex_blk (A := ⟨k, i⟩) hU.small hi le_rfl
      rw [this]
      exact bitSet_ok hi s.alloc
    refine ⟨Node.first ⟨k, i⟩ fk, s', L', ?_, hgeo, rfl, hi.mono hle, hv.1.mono hle, hcan⟩
    rw [blk_first s.toGeo (show fk ≤ (⟨k, i⟩ : Node).order from hk.1), ← hp]
    simp only [hpop, hset, hs', bind, Except.bind]

/-- A block in use whose buddy is not busy can be merged with it. -/
theorem apart_parent (hap : Apart U N) (hb : ¬ Busy U N.sib) : Apart U N.parent := by
  intro u hu
  refine ⟨fun hle => ?_, fun hle => (hap u hu).2 ((Node.lt_parent N).le.trans hle)⟩
  have hlt : u < N.parent := lt_of_le_of_ne hle fun he => (hap u hu).2 (he ▸ (Node.lt_parent N).le)
  rcases Node.lt_parent_iff.mp hlt with h | h
  · exact (hap u hu).1 h
  · exact hb ⟨u, hu, h⟩

/-- The loop of `bd_free` gives up a block in use, merging it as far as buddies are free. -/
theorem freeLoop_spec {f p : ℕ} {s : Sys} {L : ℕ → List ℕ} (hU : Sound U s.toGeo) (hN : s.Has N)
    (hf : N.order + f = s.maxsize) (hap : Apart U N) (hp : s.blk N = p)
    (h : CanonOf (insert N U) s L) :
    ∃ s' L', freeLoop f N.order p s = .ok s' ∧ s'.toGeo = s.toGeo ∧ CanonOf U s' L' := by
  induction f generalizing s N p L with
  | zero =>
    have := hU.order_lt hN hap
    unfold maxsize at hf
    omega
  | succ f ih =>
    have hlt := hU.order_lt hN hap
    have hsib := hN.sib hlt
    have hpar := hN.parent hlt
    have hbi : blkIndex s.toGeo N.order p = N.idx := by
      rw [← hp]
      exact blkIndex_blk hU.small hN le_rfl
    have hclear := bitClear_ok hN s.alloc
    have hbuddy : bitIsset s.toGeo (put s.alloc N.order N.idx false) N.order N.sib.idx =
        .ok (s.alloc N.order N.sib.idx) := by
      have hb := bitIsset_ok hsib (put s.alloc N.order N.idx false)
      rw [put_apply, if_neg (Node.sib_ne N)] at hb
      exact hb
    have hiff : s.alloc N.order N.sib.idx = true ↔ Busy U N.sib := by
      refine (h.alloc N.sib hsib).trans (busy_insert.trans ?_)
      exact or_iff_right (Node.not_le_sib N)
    have hfresh := h.fresh hU hap (Set.mem_insert N U) le_rfl
    unfold freeLoop
    simp only [hbi, buddyOf_idx, hclear, bind, Except.bind, hbuddy]
    by_cases hb : s.alloc N.order N.sib.idx = true
    · -- the buddy is busy: the block goes on its list
      have hv : Vacant U N := ⟨hap, (hiff.mp hb).mono (Node.parent_sib N ▸ (Node.lt_parent N.sib).le)⟩
      have hrel := h.release hN hv (rings_push h.rings hN.1 hfresh)
      rw [if_pos hb, ← hp]
      exact ⟨_, _, rfl, rfl, hrel⟩
    · -- the buddy is free: both become their parent
      have hapP := apart_parent hap (mt hiff.mpr hb)
      have hmem : s.blk N.sib ∈ L N.order :=
        (h.mem_blk hsib).mpr ((vacant_half hapP).mpr (.inr rfl))
      have hmerge := h.merge hsib hapP (rings_remove h.rings hN.1 hmem)
      have hq : addr s.toGeo N.order N.sib.idx = s.blk N.sib := addr_eq hU.small hsib
      have hp' : (if (N.sib.idx : ℤ) % 2 = 0 then s.blk N.sib else p) = s.blk N.parent := by
        split
        · rw [← Node.parent_sib, blk_parent]
          omega
        · rw [← hp, blk_parent]
          have := Node.even_or_sib_even N
          omega
      have hidx : blkIndex s.toGeo N.parent.order (s.blk N.parent) = N.parent.idx :=
        blkIndex_blk hU.small hpar le_rfl
      have hclear' := bitClear_ok hpar s.split
      rw [if_neg hb]
      simp only [hq, hp', hidx, show N.order + 1 = N.parent.order from rfl, hclear']
      exact ih (s := { s with
          alloc := put s.alloc N.order N.idx false
          split := put s.split N.parent.order N.parent.idx false
          links := lstRemove s.links (s.blk N.sib) })
        hU hpar (by show N.order + 1 + f = s.maxsize; omega) hapP rfl hmerge

/-- **`bd_free`** of a block in use gives it up. -/
theorem bdFree_spec {s : Sys} {L : ℕ → List ℕ} (hU : Sound U s.toGeo) (hN : s.Has N)
    (hap : Apart U N) (h : CanonOf (insert N U) s L) :
    ∃ s' L', bdFree (s.blk N) s = .ok s' ∧ s'.toGeo = s.toGeo ∧ CanonOf U s' L' := by
  have hord : N.order + (s.maxsize - N.order) = s.maxsize := by
    have := hN.1
    unfold maxsize
    omega
  obtain ⟨s', L', hs', hgeo, hcan⟩ := freeLoop_spec hU hN hord hap rfl h
  refine ⟨s', L', ?_, hgeo, hcan⟩
  unfold bdFree
  rw [size_spec hU hN hap h]
  exact hs'

end Buddy
end Xv6
