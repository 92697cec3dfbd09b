/-
# For which memories the buddy allocator can be initialised

`bd_init` rounds the memory up to a power of two of leaves, lays its metadata
out at the start, reserves it and what lies beyond the end, and fills the free
lists. When the boundaries lie in the bitmaps at every size and no pair is
looked at twice, the result is the state the reserved leaves determine
(`bdInit_canon`). From seven sizes on the metadata takes at most a quarter of
the heap and this is so unless the memory is a power of two exactly; with six
sizes it is so below 320 bytes, with five never (`init_iff`).

Key definitions: `Buddy.Initialised`, `Buddy.Good`.
Key theorems: `Buddy.bdInit_canon`, `Buddy.init_iff`.
-/
import Mathlib.Tactic.IntervalCases
import Xv6.BuddyMark

namespace Xv6
namespace Buddy

open Lst Links BinTree Geo

variable {g : Geo} {N : Node} {k m r : ℕ}

/-! ### The size of the metadata -/

/-- The bitmaps of the sizes from `a` on, for `n` sizes: about two bits for a block of size `a`. -/
theorem bitmaps_bound (g : Geo) (a p : ℕ) : ∀ c, a + c ≤ g.nsizes →
    p ≤ (List.range' a c).foldl (fun p k => p + bitmapSize g k) p ∧
    8 * (List.range' a c).foldl (fun p k => p + bitmapSize g k) p + 2 ^ (g.nsizes - (a + c)) ≤
      8 * p + 2 ^ (g.nsizes - a) + 7 * c
  | 0, _ => by simp
  | c + 1, hc => by
    obtain ⟨h1, h2⟩ := bitmaps_bound g a p c (by omega)
    rw [List.range'_concat, List.foldl_append]
    simp only [List.foldl_cons, List.foldl_nil, Nat.one_mul]
    have hpow : 2 ^ (g.nsizes - (a + c)) = 2 * g.nblk (a + c) := by
      unfold nblk maxsize
      rw [← Nat.pow_succ']
      congr 1
      omega
    have hpow' : 2 ^ (g.nsizes - (a + (c + 1))) = g.nblk (a + c) := by
      unfold nblk maxsize
      congr 1
      omega
    have hbm : bitmapSize g (a + c) * 8 ≤ g.nblk (a + c) + 7 := by
      unfold bitmapSize roundup
      omega
    omega

/-- The metadata does not depend on where the heap is. -/
theorem metaEnd_eq (g : Geo) : metaEnd g = g.bdBase + metaEnd ⟨g.nsizes, 0, 0⟩ := by
  have hfold : ∀ (f : ℕ → ℕ) (l : List ℕ) (a b : ℕ),
      l.foldl (fun p k => p + f k) (a + b) = a + l.foldl (fun p k => p + f k) b := by
    intro f l
    induction l with
    | nil => exact fun _ _ => rfl
    | cons x l ih =>
      intro a b
      rw [List.foldl_cons, List.foldl_cons, Nat.add_assoc, ih]
  unfold metaEnd
  simp only [Nat.zero_add]
  rw [hfold, hfold]
  rfl

theorem metaEnd_bound (g : Geo) (hn : 0 < g.nsizes) : g.bdBase + 32 * g.nsizes ≤ metaEnd g ∧
    8 * metaEnd g + 2 ≤ 8 * g.bdBase + 270 * g.nsizes + 3 * 2 ^ (g.nsizes - 1) := by
  obtain ⟨h1, h2⟩ := bitmaps_bound g 0 (g.bdBase + szInfoSize * g.nsizes) g.nsizes (by omega)
  obtain ⟨h3, h4⟩ := bitmaps_bound g 1 ((List.range g.nsizes).foldl (fun p k => p + bitmapSize g k)
    (g.bdBase + szInfoSize * g.nsizes)) (g.nsizes - 1) (by omega)
  have hpow : 2 ^ g.nsizes = 2 * 2 ^ (g.nsizes - 1) := by
    rw [← Nat.pow_succ']
    congr 1
    omega
  have e1 : 2 ^ (g.nsizes - (0 + g.nsizes)) = 1 := by simp
  have e2 : 2 ^ (g.nsizes - (1 + (g.nsizes - 1))) = 1 := by
    rw [show g.nsizes - (1 + (g.nsizes - 1)) = 0 by omega, Nat.pow_zero]
  rw [e1, Nat.sub_zero, hpow] at h2
  rw [e2] at h4
  rw [← List.range_eq_range'] at h1 h2
  unfold metaEnd
  simp only
  unfold szInfoSize at *
  omega

theorem le_pow_of_eight_le {n : ℕ} (h : 8 ≤ n) : 270 * n ≤ 26 * 2 ^ (n - 1) := by
  induction n, h using Nat.le_induction with
  | base => decide
  | succ n hn ih =>
    have : 2 ^ (n + 1 - 1) = 2 * 2 ^ (n - 1) := by
      rw [← Nat.pow_succ']
      congr 1
      omega
    omega

/-- The end of the metadata, in leaves. -/
def metaLeaves (g : Geo) : ℕ := (metaEnd ⟨g.nsizes, 0, 0⟩ + 15) / 16

theorem roundup_metaEnd (g : Geo) (hb : g.bdBase % LEAF_SIZE = 0) :
    roundup (metaEnd g) LEAF_SIZE = leaf g (metaLeaves g) := by
  rw [metaEnd_eq]
  unfold roundup leaf metaLeaves LEAF_SIZE at *
  omega

/-- From eight sizes on the metadata takes at most a quarter of the heap; with seven sizes too. -/
theorem metaLeaves_le (hn : 7 ≤ g.nsizes) : metaLeaves g ≤ 2 ^ (g.nsizes - 3) := by
  unfold metaLeaves
  rcases Nat.eq_or_lt_of_le hn with h7 | h8
  · rw [← h7]
    decide
  · have h1 := (metaEnd_bound ⟨g.nsizes, 0, 0⟩ (by show 0 < g.nsizes; omega)).2
    have h2 := le_pow_of_eight_le h8
    have hpow : 2 ^ (g.nsizes - 1) = 4 * 2 ^ (g.nsizes - 3) := by
      rw [show (4 : ℕ) = 2 ^ 2 from rfl, ← Nat.pow_add]
      congr 1
      omega
    simp only at h1
    omega

theorem two_mul_le_metaLeaves (hn : 0 < g.nsizes) : 2 * g.nsizes ≤ metaLeaves g := by
  have h1 := (metaEnd_bound ⟨g.nsizes, 0, 0⟩ hn).1
  simp only at h1
  unfold metaLeaves
  omega

/-! ### `bd_init` -/

/-- The number of sizes: the smallest power of two of leaves that covers the memory. -/
theorem initGeo_size {base limit : ℕ} (h : LEAF_SIZE ≤ limit - roundup base LEAF_SIZE) :
    let g := initGeo base limit
    let e := limit - g.bdBase
    e = g.heapSize ∨ 0 < g.maxsize ∧ blkSize (g.maxsize - 1) < e ∧ e < g.heapSize := by
  have hne : (limit - roundup base LEAF_SIZE) / LEAF_SIZE ≠ 0 := by
    unfold LEAF_SIZE at *
    omega
  have h1 := Nat.log2_self_le hne
  have h2 := @Nat.lt_log2_self ((limit - roundup base LEAF_SIZE) / LEAF_SIZE)
  unfold initGeo
  simp only [heapSize, maxsize, log2, Nat.add_sub_cancel]
  generalize limit - roundup base LEAF_SIZE = e at *
  generalize Nat.log2 (e / LEAF_SIZE) = n at *
  rw [Nat.pow_succ] at h2
  split
  · right
    rename_i hgt
    simp only [Nat.add_sub_cancel, blkSize_add n 1]
    unfold blkSize LEAF_SIZE at *
    omega
  · left
    rename_i hle
    simp only [Nat.add_sub_cancel]
    unfold blkSize LEAF_SIZE at *
    omega

theorem marked_of_marks {s1 s2 : Sys} (hmark : ∀ k i, s1.alloc k i = true ↔
      false = true ∨ (k < g.nsizes ∧ 0 / 2 ^ k ≤ i ∧ i < next k m))
    (hsplit : ∀ k i, s1.split k i = true ↔
      false = true ∨ (0 < k ∧ k < g.nsizes ∧ 0 / 2 ^ k ≤ i ∧ i < next k m))
    (hmark' : ∀ k i, s2.alloc k i = true ↔
      s1.alloc k i = true ∨ (k < g.nsizes ∧ r / 2 ^ k ≤ i ∧ i < next k (g.nblk 0)))
    (hsplit' : ∀ k i, s2.split k i = true ↔
      s1.split k i = true ∨ (0 < k ∧ k < g.nsizes ∧ r / 2 ^ k ≤ i ∧ i < next k (g.nblk 0))) :
    Marked m r g s2.alloc s2.split := by
  have hend : ∀ N, g.Has N → N.idx < next N.order (g.nblk 0) := by
    intro N hN
    rw [lt_next_iff]
    have := (hN.mono (Node.first_le (Nat.zero_le N.order))).2
    simpa [Node.first] using this
  refine ⟨fun N hN => ?_, fun N hN h0 => ?_⟩
  · rw [hmark', hmark, busy_reserved hN, ← lt_next_iff, ← div_le_iff]
    have := hend N hN
    have := hN.1
    simp only [Nat.zero_div, Nat.zero_le, true_and, Bool.false_eq_true, false_or]
    tauto
  · rw [hsplit', hsplit, split_reserved h0, busy_reserved hN, ← lt_next_iff, ← div_le_iff]
    have := hend N hN
    have := hN.1
    simp only [Nat.zero_div, Nat.zero_le, true_and, Bool.false_eq_true, false_or]
    tauto

/-- Up to `bd_initfree`, `bd_init` marks the reserved leaves. -/
theorem bdInit_eq {base limit : ℕ} (hg : g = initGeo base limit) (mem : Mem ℕ)
    (hle : g.bdBase ≤ limit) (he : limit - g.bdBase ≤ g.heapSize) (hs : g.heapSize ≤ 2 ^ 30)
    (hm : metaLeaves g ≤ g.nblk 0) :
    ∃ s0 : Sys, s0.toGeo = g ∧
      Marked (metaLeaves g) ((limit - g.bdBase) / LEAF_SIZE) g s0.alloc s0.split ∧
      Rings s0.links g.nsizes g.free (fun _ => []) ∧
      bdInit mem base limit = bdInitfree (leaf g (metaLeaves g))
          (leaf g ((limit - g.bdBase) / LEAF_SIZE)) s0 >>= fun x =>
        if x.1 ≠ ((limit - g.bdBase) / LEAF_SIZE * LEAF_SIZE : ℕ) - (metaLeaves g * LEAF_SIZE : ℕ)
        then .error (.panic "bd_init: free mem") else .ok x.2 := by
  have hb : g.bdBase % LEAF_SIZE = 0 := by
    rw [hg]
    exact Nat.mul_mod_left _ _
  have hheap : g.nblk 0 * LEAF_SIZE = g.heapSize := rfl
  have hs' : g.heapSize < 2 ^ 31 := by omega
  have hp := roundup_metaEnd g hb
  have hr0 : (limit - g.bdBase) / LEAF_SIZE ≤ g.nblk 0 := by
    unfold LEAF_SIZE at *
    omega
  generalize hmm : metaLeaves g = m at *
  generalize hrr : (limit - g.bdBase) / LEAF_SIZE = r at *
  obtain ⟨s1, h1, hg1, hl1, ha1, hs1⟩ := bdMark_spec (g := g) (x := 0) (y := m)
    (s := { g with
      links := (List.range g.nsizes).foldl (fun m k => lstInit m (g.free k)) mem
      alloc := fun _ _ => false
      split := fun _ _ => false }) rfl hb hs' (Nat.zero_le _) hm
  obtain ⟨s2, h2, hg2, hl2, ha2, hs2⟩ := bdMark_spec (x := r) (y := g.nblk 0) hg1 hb hs' hr0 le_rfl
  have hunavail : (if 0 < cInt ((blkSize g.maxsize : ℤ) - ((limit : ℤ) - g.bdBase)) then
      (roundup (cInt ((blkSize g.maxsize : ℤ) - ((limit : ℤ) - g.bdBase))).toNat LEAF_SIZE : ℤ)
      else cInt ((blkSize g.maxsize : ℤ) - ((limit : ℤ) - g.bdBase))) =
      ((g.nblk 0 - r) * LEAF_SIZE : ℕ) := by
    have hx : (blkSize g.maxsize : ℤ) - ((limit : ℤ) - g.bdBase) =
        (g.heapSize - (limit - g.bdBase) : ℕ) := by
      show ((g.heapSize : ℕ) : ℤ) - _ = _
      omega
    rw [hx, cInt_natCast (by omega), Int.toNat_natCast]
    unfold roundup LEAF_SIZE at *
    split <;> omega
  have hbdEnd : ((g.bdBase : ℤ) + blkSize g.maxsize - ((g.nblk 0 - r) * LEAF_SIZE : ℕ)).toNat =
      leaf g r := by
    have : blkSize g.maxsize = g.nblk 0 * LEAF_SIZE := hheap.symm
    rw [this]
    unfold leaf LEAF_SIZE
    omega
  have hstop : g.bdBase + blkSize g.maxsize = leaf g (g.nblk 0) := rfl
  have hstart : leaf g 0 = g.bdBase := by simp [leaf]
  have hmeta : cInt ((leaf g m : ℤ) - g.bdBase) = (m * LEAF_SIZE : ℕ) := by
    rw [leaf_sub, cInt_natCast (leaf_lt (by omega) hm)]
  rw [hstart] at h1
  refine ⟨s2, hg2, marked_of_marks ha1 hs1 ha2 hs2, ?_, ?_⟩
  · rw [hl2, hl1]
    exact rings_init g mem
  · unfold bdInit bdMarkDataStructures bdMarkUnavailable
    simp only [← hg, hp, hmeta, h1, bind, Except.bind, hg1, hunavail, hbdEnd, hstop, h2, hg2]
    cases hfree : bdInitfree (leaf g m) (leaf g r) s2 with
    | error e => rfl
    | ok v =>
      have hv : v.2.toGeo = g := (bdInitfree_ok hfree).1.trans hg2
      have hsum : ((blkSize g.maxsize : ℕ) : ℤ) - (m * LEAF_SIZE : ℕ) -
          ((g.nblk 0 - r) * LEAF_SIZE : ℕ) = (r * LEAF_SIZE : ℕ) - (m * LEAF_SIZE : ℕ) := by
        have : blkSize g.maxsize = g.nblk 0 * LEAF_SIZE := hheap.symm
        rw [this]
        unfold LEAF_SIZE
        omega
      simp only [hv, hsum]

/-- **`bd_init` sets up the state the reserved leaves determine**, if the pairs it
looks at lie in the bitmaps and no pair is looked at twice. -/
theorem bdInit_canon {base limit : ℕ} (hg : g = initGeo base limit) (mem : Mem ℕ)
    (hle : g.bdBase ≤ limit) (he : limit - g.bdBase < g.heapSize) (hs : g.heapSize ≤ 2 ^ 30)
    (hpos : 0 < g.nsizes) (hmr : metaLeaves g ≤ (limit - g.bdBase) / LEAF_SIZE)
    (hrange : ∀ k < g.maxsize, next k (metaLeaves g) < g.nblk k)
    (htw : ∀ k < g.maxsize, ¬ Twice (metaLeaves g) ((limit - g.bdBase) / LEAF_SIZE) k) :
    ∃ s L, bdInit mem base limit = .ok s ∧ s.toGeo = g ∧
      Sound (reserved g (metaLeaves g) ((limit - g.bdBase) / LEAF_SIZE)) g ∧
      CanonOf (reserved g (metaLeaves g) ((limit - g.bdBase) / LEAF_SIZE)) s L ∧
      ∑ k ∈ Finset.range g.nsizes, (L k).length * blkSize k =
        ((limit - g.bdBase) / LEAF_SIZE - metaLeaves g) * LEAF_SIZE := by
  have hheap : g.nblk 0 * LEAF_SIZE = g.heapSize := rfl
  have hr : (limit - g.bdBase) / LEAF_SIZE < g.nblk 0 := by
    unfold LEAF_SIZE at *
    omega
  have hm0 : metaLeaves g ≤ g.nblk 0 := by omega
  have hm := two_mul_le_metaLeaves hpos
  have hU : Sound (reserved g (metaLeaves g) ((limit - g.bdBase) / LEAF_SIZE)) g :=
    sound_reserved hpos (show g.heapSize ≤ 2 ^ 31 by omega) (by rw [hg]; rfl) hm hm0
  obtain ⟨s0, rfl, hmark, hrings, heq⟩ := bdInit_eq hg mem hle he.le hs hm0
  generalize metaLeaves s0.toGeo = m at *
  generalize (limit - s0.bdBase) / LEAF_SIZE = r at *
  have hq : ∀ k < s0.maxsize, r / 2 ^ k < s0.nblk k := by
    intro k hk
    rw [Nat.div_lt_iff_lt_mul (Nat.two_pow_pos k)]
    have : s0.nblk k * 2 ^ k = s0.nblk 0 := by
      unfold nblk
      rw [← Nat.pow_add]
      congr 1
      omega
    omega
  obtain ⟨mem', hfree, hfill⟩ := bdInitfree_spec hs hmark hU hrings hm0 hr.le
    fun k hk => ⟨hrange k hk, hq k hk⟩
  obtain ⟨L, hL⟩ := hfill htw
  have hsum := sum_hits (show 0 < m by omega) (show r < 2 ^ s0.maxsize from hr) htw
  have hnsz : s0.nsizes = s0.maxsize + 1 := by
    unfold maxsize
    omega
  -- nothing is free at the largest size
  have htop : ∀ i, ¬ (s0.Has ⟨s0.maxsize, i⟩ ∧ Vacant (reserved s0.toGeo m r) ⟨s0.maxsize, i⟩) := by
    intro i ⟨hi, hv⟩
    have := hU.order_lt hi hv.1
    simp only at this
    omega
  refine ⟨{ s0 with links := mem' }, L, ?_, rfl, hU, ⟨hL.rings, hmark.alloc, hmark.split, ?_⟩, ?_⟩
  · rw [heq, hfree]
    show (if _ then _ else _) = _
    rw [hsum, if_neg]
    simp only [ne_eq, not_not]
    have : (r - m) * LEAF_SIZE = r * LEAF_SIZE - m * LEAF_SIZE := Nat.sub_mul _ _ _
    have := Nat.mul_le_mul_right LEAF_SIZE hmr
    omega
  · intro k hk a
    rcases Nat.lt_or_ge k s0.maxsize with hlt | hge
    · exact hL.mem k hlt a
    · have hk' : k < s0.nsizes := hk
      obtain rfl : k = s0.maxsize := by omega
      rw [hL.rest _ le_rfl]
      constructor
      · intro h
        cases h
      · intro ⟨i, hi, hv, _⟩
        exact absurd ⟨hi, hv⟩ (htop i)
  · rw [hnsz, Finset.sum_range_succ, hL.rest _ le_rfl, ← hsum]
    simp only [List.length_nil, Nat.zero_mul, Nat.add_zero]
    exact Finset.sum_congr rfl fun k hk => by rw [hL.count k (Finset.mem_range.mp hk)]

/-! ### For which memories -/

/-- The block lies between the two addresses. -/
def Within (g : Geo) (lo hi : ℕ) (N : Node) : Prop :=
  lo ≤ g.blk N ∧ g.blk N + blkSize N.order ≤ hi

/-- A byte of the block is reserved: before `lo`, or from `hi` on. -/
def Meets (g : Geo) (lo hi : ℕ) (N : Node) : Prop :=
  ∃ x, g.blk N ≤ x ∧ x < g.blk N + blkSize N.order ∧ (x < lo ∨ hi ≤ x)

/-- The state of a heap in which the bytes before `lo` and from `hi` on are
reserved and the others are free. -/
structure Initialised (lo hi : ℕ) (s : Sys) (L : ℕ → List ℕ) : Prop where
  rings : Rings s.links s.nsizes s.free L
  mem : ∀ k < s.nsizes, ∀ a, a ∈ L k ↔ ∃ i, s.Has ⟨k, i⟩ ∧ a = s.blk ⟨k, i⟩ ∧
    Within s.toGeo lo hi ⟨k, i⟩ ∧ ∀ A, s.Has A → ⟨k, i⟩ < A → ¬ Within s.toGeo lo hi A
  alloc : ∀ N, s.Has N → (s.alloc N.order N.idx = true ↔ Meets s.toGeo lo hi N)
  split : ∀ N, s.Has N → 0 < N.order → (s.split N.order N.idx = true ↔ Meets s.toGeo lo hi N)
  total : ∑ k ∈ Finset.range s.nsizes, (L k).length * blkSize k =
    s.heapSize - (lo - s.bdBase) - (s.bdBase + s.heapSize - hi)

theorem blk_eq_leaf (g : Geo) (N : Node) : g.blk N = leaf g (N.idx * 2 ^ N.order) := by
  unfold blk leaf blkSize
  ring

theorem busy_iff_meets (hN : g.Has N) :
    Busy (reserved g m r) N ↔ Meets g (leaf g m) (leaf g r) N := by
  have hpos := blkSize_pos N.order
  have hend : g.blk N + blkSize N.order = leaf g ((N.idx + 1) * 2 ^ N.order) := by
    unfold blk leaf blkSize
    ring
  have hmono : ∀ a b, leaf g a < leaf g b ↔ a < b := by
    intro a b
    unfold leaf LEAF_SIZE
    omega
  rw [busy_reserved hN]
  constructor
  · rintro (h | h)
    · exact ⟨g.blk N, le_rfl, by omega, .inl (by rw [blk_eq_leaf]; exact (hmono _ _).mpr h)⟩
    · have := (hmono _ _).mpr h
      exact ⟨g.blk N + blkSize N.order - 1, by omega, by omega, .inr (by omega)⟩
  · intro ⟨x, h1, h2, h3⟩
    rcases h3 with h3 | h3
    · left
      rw [← hmono, ← blk_eq_leaf]
      omega
    · right
      rw [← hmono, ← hend]
      omega

theorem not_meets_iff {lo hi : ℕ} : ¬ Meets g lo hi N ↔ Within g lo hi N := by
  have hpos := blkSize_pos N.order
  unfold Meets Within
  constructor
  · intro h
    by_contra hn
    rcases Nat.lt_or_ge (g.blk N) lo with hlt | hge
    · exact h ⟨g.blk N, le_rfl, by omega, .inl hlt⟩
    · exact h ⟨g.blk N + blkSize N.order - 1, by omega, by omega, .inr (by omega)⟩
  · intro h ⟨x, h1, h2, h3⟩
    omega

theorem initialised_of_canon {s : Sys} {L : ℕ → List ℕ} (hU : Sound (reserved s.toGeo m r) s.toGeo)
    (h : CanonOf (reserved s.toGeo m r) s L) (hmr : m ≤ r) (hr : r ≤ s.nblk 0)
    (hsum : ∑ k ∈ Finset.range s.nsizes, (L k).length * blkSize k = (r - m) * LEAF_SIZE) :
    Initialised (leaf s.toGeo m) (leaf s.toGeo r) s L where
  rings := h.rings
  mem k hk a := by
    rw [h.mem k hk]
    have hap : ∀ N, s.Has N → (Apart (reserved s.toGeo m r) N ↔
        Within s.toGeo (leaf s.toGeo m) (leaf s.toGeo r) N) := by
      intro N hN
      rw [apart_reserved, busy_iff_meets hN, not_meets_iff]
    constructor
    · intro ⟨i, hi, hv, he⟩
      refine ⟨i, hi, he, (hap _ hi).mp hv.1, fun A hA hlt hw => ?_⟩
      exact (apart_iff.mp ((hap A hA).mpr hw)).1 (hv.2.mono (Node.lt_iff_parent_le.mp hlt))
    · intro ⟨i, hi, he, hw, hmax⟩
      have hpar : s.Has (Node.parent ⟨k, i⟩) := hi.parent (hU.order_lt hi ((hap _ hi).mpr hw))
      refine ⟨i, hi, ⟨(hap _ hi).mpr hw, ?_⟩, he⟩
      by_contra hb
      exact hmax _ hpar (Node.lt_parent _) ((hap _ hpar).mp (apart_reserved.mpr hb))
  alloc N hN := (h.alloc N hN).trans (busy_iff_meets hN)
  split N hN h0 := (h.split N hN h0).trans ((split_reserved h0).trans (busy_iff_meets hN))
  total := by
    rw [hsum]
    have hheap : s.nblk 0 * LEAF_SIZE = s.heapSize := rfl
    unfold leaf LEAF_SIZE at *
    omega

/-- The memory sizes `bd_init` can set up. -/
def Good (e : ℕ) : Prop := 256 < e ∧ e < 320 ∨ 512 < e ∧ ∀ j, e ≠ blkSize j

/-- Metadata that fits needs five sizes at least. -/
theorem metaLeaves_cases (hpos : 0 < g.nsizes) (hfit : metaEnd ⟨g.nsizes, 0, 0⟩ < g.heapSize) :
    g.nsizes = 5 ∧ metaLeaves g = 11 ∨ g.nsizes = 6 ∧ metaLeaves g = 13 ∨ 7 ≤ g.nsizes := by
  rcases Nat.lt_or_ge g.nsizes 7 with hlt | hge
  · unfold heapSize maxsize at hfit
    unfold metaLeaves
    generalize g.nsizes = n at *
    revert hfit
    interval_cases n <;> decide
  · exact .inr (.inr hge)

theorem blkSize_lt_iff {j : ℕ} : blkSize j < blkSize k ↔ j < k := by
  unfold blkSize
  rw [Nat.mul_lt_mul_right (show 0 < LEAF_SIZE by decide),
    Nat.pow_lt_pow_iff_right (show 1 < 2 by decide)]

theorem good_iff_of_seven {e : ℕ} (hn : 7 ≤ g.nsizes)
    (he : e = g.heapSize ∨ 0 < g.maxsize ∧ blkSize (g.maxsize - 1) < e ∧ e < g.heapSize) :
    Good e ↔ e < g.heapSize := by
  have hM : 6 ≤ g.maxsize := by
    unfold maxsize
    omega
  have h512 : 512 ≤ blkSize (g.maxsize - 1) :=
    Nat.mul_le_mul_right (n := 2 ^ 5) LEAF_SIZE
      (Nat.pow_le_pow_right (by decide) (show 5 ≤ g.maxsize - 1 by omega))
  have hlt : blkSize (g.maxsize - 1) < g.heapSize := blkSize_lt_iff.mpr (by omega)
  unfold Good
  constructor
  · rintro (h | ⟨-, h⟩)
    · omega
    · rcases he with rfl | he
      · exact absurd rfl (h g.maxsize)
      · exact he.2.2
  · intro h
    refine .inr ⟨by omega, fun j hj => ?_⟩
    -- strictly between two neighbouring powers of two
    have h1 : blkSize (g.maxsize - 1) < blkSize j := by omega
    have h2 : blkSize j < blkSize g.maxsize := by
      rw [← hj]
      exact h
    have := blkSize_lt_iff.mp h1
    have := blkSize_lt_iff.mp h2
    omega

/-- A quarter of the heap for metadata keeps the boundaries apart at every size. -/
theorem apart_of_quarter {M : ℕ} (hM : 2 ≤ M) (h0 : 0 < m) (hm : m ≤ 2 ^ (M - 2))
    (hr : 2 ^ (M - 1) ≤ r) : ∀ k < M, next k m < 2 ^ (M - k) ∧ ¬ Twice m r k := by
  intro k hk
  have hnext : ∀ j, k ≤ j → m ≤ 2 ^ j → next k m ≤ 2 ^ (j - k) := by
    intro j hj hmj
    by_contra hgt
    have := lt_next_iff.mp (Nat.lt_of_not_le hgt)
    rw [← Nat.pow_add, Nat.sub_add_cancel hj] at this
    omega
  have hpos : 0 < next k m := lt_next_iff.mpr (by omega)
  have hhalf : 2 ^ (M - 2) ≤ 2 ^ (M - 1) := Nat.pow_le_pow_right (by decide) (by omega)
  have h1 := hnext (M - 1) (by omega) (by omega)
  have hlt : 2 ^ (M - 1 - k) < 2 ^ (M - k) := Nat.pow_lt_pow_right (by decide) (by omega)
  refine ⟨by omega, fun htw => ?_⟩
  unfold Twice at htw
  rcases Nat.lt_or_ge k (M - 1) with hk1 | hk1
  · have h2 := hnext (M - 2) (by omega) hm
    have hq : 2 ^ (M - 1 - k) ≤ r / 2 ^ k := by
      rw [Nat.le_div_iff_mul_le (Nat.two_pow_pos k), ← Nat.pow_add, Nat.sub_add_cancel (by omega)]
      exact hr
    have hdbl : 2 ^ (M - 1 - k) = 2 * 2 ^ (M - 2 - k) := by
      rw [← Nat.pow_succ']
      congr 1
      omega
    have hone := Nat.two_pow_pos (M - 2 - k)
    -- the lower boundary is even and positive, so it is at least 2
    omega
  · rw [show M - 1 - k = 0 by omega] at h1
    omega

section Memory

variable {base limit : ℕ}

/-- What `initGeo` gives for a memory in which the metadata fits. -/
theorem initGeo_facts (hfit : metaEnd (initGeo base limit) < limit)
    (hbig : limit - (initGeo base limit).bdBase < 2 ^ 30) :
    let g := initGeo base limit
    0 < g.nsizes ∧ g.bdBase ≤ limit ∧ metaEnd ⟨g.nsizes, 0, 0⟩ < limit - g.bdBase ∧
      g.heapSize ≤ 2 ^ 30 ∧ (limit - g.bdBase = g.heapSize ∨
        0 < g.maxsize ∧ blkSize (g.maxsize - 1) < limit - g.bdBase ∧ limit - g.bdBase < g.heapSize) := by
  have hpos : 0 < (initGeo base limit).nsizes := by
    unfold initGeo
    simp only
    split <;> omega
  have h1 := (metaEnd_bound (initGeo base limit) hpos).1
  have h2 := metaEnd_eq (initGeo base limit)
  have hleaf : LEAF_SIZE ≤ limit - roundup base LEAF_SIZE := by
    show 16 ≤ limit - (initGeo base limit).bdBase
    omega
  have hsize := initGeo_size hleaf
  refine ⟨hpos, by omega, by omega, ?_, hsize⟩
  rcases hsize with h | ⟨h0, h3, -⟩
  · omega
  · have hM : (initGeo base limit).maxsize - 1 < 26 := blkSize_lt_iff.mp (h3.trans hbig)
    exact Nat.mul_le_mul_right LEAF_SIZE
      (Nat.pow_le_pow_right (by decide) (show (initGeo base limit).maxsize ≤ 26 by omega))

/-- If `bd_init` completes, the boundaries lie in the bitmaps. -/
theorem range_of_bdInit_ok {mem : Mem ℕ} {s : Sys} (hg : g = initGeo base limit)
    (hle : g.bdBase ≤ limit) (he : limit - g.bdBase ≤ g.heapSize) (hs : g.heapSize ≤ 2 ^ 30)
    (hm : metaLeaves g ≤ g.nblk 0) (h : bdInit mem base limit = .ok s) :
    ∀ k < g.maxsize, next k (metaLeaves g) < g.nblk k ∧
      (next k (metaLeaves g) < (limit - g.bdBase) / LEAF_SIZE / 2 ^ k →
        (limit - g.bdBase) / LEAF_SIZE / 2 ^ k < g.nblk k) := by
  have hr : (limit - g.bdBase) / LEAF_SIZE ≤ g.nblk 0 := by
    have hheap : g.nblk 0 * LEAF_SIZE = g.heapSize := rfl
    unfold LEAF_SIZE at *
    omega
  obtain ⟨s0, hg0, -, -, heq⟩ := bdInit_eq hg mem hle he hs hm
  rw [heq] at h
  cases hfree : bdInitfree (leaf g (metaLeaves g)) (leaf g ((limit - g.bdBase) / LEAF_SIZE)) s0 with
  | error e =>
    rw [hfree] at h
    cases h
  | ok v =>
    have hbits := (bdInitfree_ok hfree).2
    rw [hg0] at hbits
    intro k hk
    have hb := hbits k hk
    rw [blkIndexNext_leaf (by omega) hm, blkIndex_leaf (by omega) hr] at hb
    refine ⟨by exact_mod_cast hb.1.2.2, fun hlt => ?_⟩
    exact_mod_cast (hb.2 (by exact_mod_cast hlt)).2.2

theorem next_thirteen_lt : ∀ k < 5, next k 13 < 2 ^ (5 - k) := by decide

/-- With 13 leaves of metadata and 32 leaves in all, a pair is looked at twice from 20 on. -/
theorem twice_thirteen : (∀ r < 20, 16 ≤ r → ∀ k < 5, ¬ Twice 13 r k) ∧
    ∀ r < 32, 20 ≤ r → ∑ k ∈ Finset.range 5, hits (next k 13) (r / 2 ^ k) * blkSize k ≠
      (r - 13) * LEAF_SIZE := by
  decide

/-- `bd_init` completes, without a panic or an access outside a bitmap, and leaves
the lists and bits of the range between its metadata and the rounded-down end. -/
def Inits (base limit : ℕ) : Prop :=
  ∀ mem, ∃ s L, bdInit mem base limit = .ok s ∧ s.toGeo = initGeo base limit ∧
    Initialised (roundup (metaEnd (initGeo base limit)) LEAF_SIZE)
      (s.bdBase + (limit - s.bdBase) / LEAF_SIZE * LEAF_SIZE) s L

/-- A memory of a power of two: the upper boundary is past the last leaf. -/
theorem not_inits_full (hfit : metaEnd (initGeo base limit) < limit)
    (hbig : limit - (initGeo base limit).bdBase < 2 ^ 30) (hg : g = initGeo base limit)
    (he : limit - g.bdBase = g.heapSize) (h0 : 0 < g.maxsize) (hm : metaLeaves g < g.nblk 0) :
    ¬ Inits base limit := by
  obtain ⟨-, hle, -, hs, -⟩ := initGeo_facts hfit hbig
  rw [← hg] at hle hs
  intro h
  obtain ⟨s, -, hok, -⟩ := h ⟨id, id⟩
  have hr : (limit - g.bdBase) / LEAF_SIZE = g.nblk 0 := by
    rw [he]
    exact Nat.mul_div_cancel _ (by decide)
  have := (range_of_bdInit_ok hg hle he.le hs hm.le hok 0 h0).2
  rw [hr] at this
  simp only [next, Nat.pow_zero, Nat.sub_self, Nat.add_zero, Nat.div_one] at this
  exact lt_irrefl _ (this hm)

/-- Five sizes: the lower boundary is past the last block of size 3. -/
theorem not_inits_five (hfit : metaEnd (initGeo base limit) < limit)
    (hbig : limit - (initGeo base limit).bdBase < 2 ^ 30) (hg : g = initGeo base limit)
    (h5 : g.nsizes = 5) (hm : metaLeaves g = 11) : ¬ Inits base limit := by
  obtain ⟨-, hle, -, hs, hsize⟩ := initGeo_facts hfit hbig
  rw [← hg] at hle hs hsize
  intro h
  obtain ⟨s, -, hok, -⟩ := h ⟨id, id⟩
  have hM : g.maxsize = 4 := by simp [maxsize, h5]
  have hlt := (range_of_bdInit_ok hg hle (by omega) hs (by rw [hm, nblk, hM]; decide) hok 3
    (by omega)).1
  rw [hm, nblk, hM] at hlt
  exact absurd hlt (by decide)

/-- Six sizes from 320 bytes on: the count is too large, as a pair is met twice. -/
theorem not_inits_six (hfit : metaEnd (initGeo base limit) < limit)
    (hbig : limit - (initGeo base limit).bdBase < 2 ^ 30) (hg : g = initGeo base limit)
    (h6 : g.nsizes = 6) (hm : metaLeaves g = 13) (hlow : 320 ≤ limit - g.bdBase)
    (hlt : limit - g.bdBase < g.heapSize) : ¬ Inits base limit := by
  obtain ⟨hpos, hle, -, hs, -⟩ := initGeo_facts hfit hbig
  rw [← hg] at hpos hle hs
  have hM : g.maxsize = 5 := by simp [maxsize, h6]
  have hn0 : g.nblk 0 = 32 := by simp [nblk, hM]
  have hheap : g.heapSize = 512 := by rw [heapSize, hM]; rfl
  have hr : 20 ≤ (limit - g.bdBase) / LEAF_SIZE ∧ (limit - g.bdBase) / LEAF_SIZE < 32 := by
    unfold LEAF_SIZE
    omega
  intro h
  obtain ⟨s, -, hok, -⟩ := h ⟨id, id⟩
  obtain ⟨s0, hg0, hmark, hrings, heq⟩ := bdInit_eq hg ⟨id, id⟩ hle hlt.le hs (by omega)
  rw [hm] at heq hmark
  generalize (limit - g.bdBase) / LEAF_SIZE = r at *
  subst hg0
  have hU : Sound (reserved s0.toGeo 13 r) s0.toGeo :=
    sound_reserved hpos (show s0.heapSize ≤ 2 ^ 31 by omega) (by rw [hg]; rfl) (by omega) (by omega)
  obtain ⟨mem', hfree, -⟩ := bdInitfree_spec hs hmark hU hrings (by omega) (by omega)
    fun k hk => by
      rw [nblk, hM]
      rw [hM] at hk
      exact ⟨next_thirteen_lt k hk, (Nat.div_lt_iff_lt_mul (Nat.two_pow_pos k)).mpr (by
        rw [← Nat.pow_add, Nat.sub_add_cancel hk.le]
        exact hr.2)⟩
  have hbad : ((∑ k ∈ Finset.range 5, hits (next k 13) (r / 2 ^ k) * blkSize k : ℕ) : ℤ) ≠
      ((r * LEAF_SIZE : ℕ) : ℤ) - (13 * LEAF_SIZE : ℕ) := by
    have hne := twice_thirteen.2 r hr.2 hr.1
    have hle13 := Nat.mul_le_mul_right LEAF_SIZE (show 13 ≤ r by omega)
    rw [Nat.sub_mul] at hne
    omega
  rw [heq, hfree, hM] at hok
  change (if _ then _ else _) = _ at hok
  rw [if_pos hbad] at hok
  cases hok

/-- In a memory of a good size the boundaries lie in the bitmaps and no pair is met twice. -/
theorem apart_of_good (hfit : metaEnd (initGeo base limit) < limit)
    (hbig : limit - (initGeo base limit).bdBase < 2 ^ 30) (hg : g = initGeo base limit)
    (hgood : Good (limit - g.bdBase)) :
    limit - g.bdBase < g.heapSize ∧ metaLeaves g ≤ (limit - g.bdBase) / LEAF_SIZE ∧
      ∀ k < g.maxsize, next k (metaLeaves g) < g.nblk k ∧
        ¬ Twice (metaLeaves g) ((limit - g.bdBase) / LEAF_SIZE) k := by
  obtain ⟨hpos, hle, hmeta, hs, hsize⟩ := initGeo_facts hfit hbig
  rw [← hg] at hpos hle hmeta hs hsize
  rcases metaLeaves_cases hpos (hmeta.trans_le (by omega)) with ⟨h5, -⟩ | ⟨h6, hm⟩ | h7
  · have hheap : g.heapSize = 256 := by rw [heapSize, maxsize, h5]; rfl
    unfold Good at hgood
    omega
  · have hM : g.maxsize = 5 := by simp [maxsize, h6]
    have hheap : g.heapSize = 512 := by rw [heapSize, hM]; rfl
    have he : 256 < limit - g.bdBase ∧ limit - g.bdBase < 320 := by
      unfold Good at hgood
      omega
    have hr : 16 ≤ (limit - g.bdBase) / LEAF_SIZE ∧ (limit - g.bdBase) / LEAF_SIZE < 20 := by
      unfold LEAF_SIZE
      omega
    refine ⟨by omega, by omega, fun k hk => ?_⟩
    rw [hm, nblk, hM]
    rw [hM] at hk
    exact ⟨next_thirteen_lt k hk, twice_thirteen.1 _ hr.2 hr.1 k hk⟩
  · have hlt := (good_iff_of_seven h7 hsize).mp hgood
    have hM : g.maxsize = g.nsizes - 1 := rfl
    have hm0 : 0 < metaLeaves g := lt_of_lt_of_le (by omega) (two_mul_le_metaLeaves hpos)
    have hm : metaLeaves g ≤ 2 ^ (g.maxsize - 2) := metaLeaves_le h7
    have hhalf : 2 ^ (g.maxsize - 2) < 2 ^ (g.maxsize - 1) :=
      Nat.pow_lt_pow_right (by decide) (by omega)
    have hr : 2 ^ (g.maxsize - 1) ≤ (limit - g.bdBase) / LEAF_SIZE := by
      rw [Nat.le_div_iff_mul_le (by decide)]
      rcases hsize with h | ⟨-, h, -⟩
      · omega
      · exact h.le
    exact ⟨hlt, by omega, apart_of_quarter (by omega) hm0 hm hr⟩

/-- **`bd_init` on a memory of a good size.** -/
theorem bdInit_of_good (hfit : metaEnd (initGeo base limit) < limit)
    (hbig : limit - (initGeo base limit).bdBase < 2 ^ 30) (hg : g = initGeo base limit)
    (hgood : Good (limit - g.bdBase)) (mem : Mem ℕ) :
    ∃ s L, bdInit mem base limit = .ok s ∧ s.toGeo = g ∧
      Sound (reserved g (metaLeaves g) ((limit - g.bdBase) / LEAF_SIZE)) g ∧
      CanonOf (reserved g (metaLeaves g) ((limit - g.bdBase) / LEAF_SIZE)) s L ∧
      Initialised (roundup (metaEnd g) LEAF_SIZE)
        (s.bdBase + (limit - s.bdBase) / LEAF_SIZE * LEAF_SIZE) s L := by
  obtain ⟨hpos, hle, -, hs, -⟩ := initGeo_facts hfit hbig
  rw [← hg] at hpos hle hs
  obtain ⟨he, hmr, hap⟩ := apart_of_good hfit hbig hg hgood
  obtain ⟨s, L, hok, hgeo, hU, hcan, hsum⟩ := bdInit_canon hg mem hle he hs hpos hmr
    (fun k hk => (hap k hk).1) fun k hk => (hap k hk).2
  have hb : g.bdBase % LEAF_SIZE = 0 := by
    rw [hg]
    exact Nat.mul_mod_left _ _
  have hr : (limit - g.bdBase) / LEAF_SIZE ≤ g.nblk 0 := by
    have hheap : g.nblk 0 * LEAF_SIZE = g.heapSize := rfl
    unfold LEAF_SIZE at *
    omega
  refine ⟨s, L, hok, hgeo, hU, hcan, ?_⟩
  rw [roundup_metaEnd g hb]
  subst hgeo
  exact initialised_of_canon hU hcan hmr hr hsum

/-- **For which memories `bd_init` works.** If its metadata fits and the memory is
below 2^30 bytes, `bd_init` completes with the lists and bits of the free range
iff the memory has a good size. -/
theorem init_iff (base limit : ℕ) (hfit : metaEnd (initGeo base limit) < limit)
    (hbig : limit - (initGeo base limit).bdBase < 2 ^ 30) :
    Inits base limit ↔ Good (limit - roundup base LEAF_SIZE) := by
  obtain ⟨hpos, hle, hmeta, hs, hsize⟩ := initGeo_facts hfit hbig
  rw [show roundup base LEAF_SIZE = (initGeo base limit).bdBase from rfl]
  constructor
  · intro h
    rcases metaLeaves_cases hpos (hmeta.trans_le (by omega)) with ⟨h5, hm⟩ | ⟨h6, hm⟩ | h7
    · exact absurd h (not_inits_five hfit hbig rfl h5 hm)
    · have hM : (initGeo base limit).maxsize = 5 := by simp [maxsize, h6]
      have hheap : (initGeo base limit).heapSize = 512 := by rw [heapSize, hM]; rfl
      have hhalf : blkSize ((initGeo base limit).maxsize - 1) = 256 := by rw [hM]; rfl
      have hn0 : (initGeo base limit).nblk 0 = 32 := by simp [nblk, hM]
      by_contra hgood
      unfold Good at hgood
      rcases hsize with hfull | ⟨-, hlow, hlt⟩
      · exact not_inits_full hfit hbig rfl hfull (by omega) (by omega) h
      · exact not_inits_six hfit hbig rfl h6 hm (by omega) hlt h
    · rw [good_iff_of_seven h7 hsize]
      have hm : metaLeaves (initGeo base limit) ≤ _ := metaLeaves_le h7
      have hlt : 2 ^ ((initGeo base limit).nsizes - 3) < (initGeo base limit).nblk 0 :=
        Nat.pow_lt_pow_right (by decide) (by unfold maxsize; omega)
      by_contra hge
      exact not_inits_full hfit hbig rfl (by omega) (by unfold maxsize; omega) (by omega) h
  · intro hgood mem
    obtain ⟨s, L, hok, hgeo, -, -, hi⟩ := bdInit_of_good hfit hbig rfl hgood mem
    exact ⟨s, L, hok, hgeo, hi⟩

/-- 320 bytes from 0x1000: the metadata fits, and `bd_init` panics. 1024 bytes: it
reads a bit past the end of a bitmap. -/
theorem init_fails :
    (metaEnd (initGeo 4096 4416) < 4416 ∧ ¬ Inits 4096 4416 ∧
      bdInit ⟨id, id⟩ 4096 4416 = .error (.panic "bd_init: free mem")) ∧
    metaEnd (initGeo 4096 5120) < 5120 ∧ ¬ Inits 4096 5120 ∧
      bdInit ⟨id, id⟩ 4096 5120 = .error .fault := by
  have hpanic : bdInit ⟨id, id⟩ 4096 4416 = .error (.panic "bd_init: free mem") :=
    stopOf_eq_some.mp (by decide +kernel)
  have hfault : bdInit ⟨id, id⟩ 4096 5120 = .error .fault :=
    stopOf_eq_some.mp (by decide +kernel)
  have hno : ∀ {base limit : ℕ} {e : Stop}, bdInit ⟨id, id⟩ base limit = .error e → ¬ Inits base limit := by
    intro base limit e he h
    obtain ⟨s, -, hok, -⟩ := h ⟨id, id⟩
    rw [he] at hok
    cases hok
  exact ⟨⟨by decide, hno hpanic, hpanic⟩, by decide, hno hfault, hfault⟩

/-- 1000 bytes can be set up, 1024 bytes cannot. -/
theorem init_iff_1000 : Inits 4096 5096 ∧ ¬ Inits 4096 5120 := by
  refine ⟨(init_iff 4096 5096 (by decide) (by decide)).mpr (.inr ⟨by decide, fun j hj => ?_⟩),
    fun h => ?_⟩
  · have h1 : blkSize 5 < blkSize j := by rw [← hj]; decide
    have h2 : blkSize j < blkSize 6 := by rw [← hj]; decide
    have := blkSize_lt_iff.mp h1
    have := blkSize_lt_iff.mp h2
    omega
  · have hgood := (init_iff 4096 5120 (by decide) (by decide)).mp h
    unfold Good at hgood
    rcases hgood with hg | ⟨-, hg⟩
    · revert hg
      decide
    · exact hg 6 (by decide)

end Memory

end Buddy
end Xv6
