/-
# Marking reserved leaves and filling the free lists

The two parts of `bd_init` after the metadata is laid out: `bd_mark` sets the
bits of the blocks that meet a range of leaves, `bd_initfree` looks at the pairs
of blocks at two boundaries of each size. In leaves, let `m` be the lower and
`r` the upper boundary. At size `k` the boundaries fall at the blocks `next k m`
and `r / 2 ^ k`; a vacant block of that size is the first block after an odd
lower boundary or the last before an odd upper one. `bd_initfree` pushes these,
and one of them twice if the boundaries are one block apart and the lower one is
even (`Twice`).

Key definitions: `Buddy.reserved`, `Buddy.Marked`, `Buddy.Filled`, `Buddy.Twice`.
Key theorems: `Buddy.bdMark_spec`, `Buddy.initfreeRound_eq`, `Buddy.bdInitfree_spec`.
-/
import Mathlib.Algebra.BigOperators.Intervals
import Xv6.BuddyCanon

namespace Xv6
namespace Buddy

open Lst Links BinTree Geo

variable {g : Geo} {N : Node} {k i m r x y : ℕ}

/-! ### Reserved leaves -/

/-- The leaves before `m` and from `r` on, as blocks of size 0. -/
def reserved (g : Geo) (m r : ℕ) : Set Node :=
  {N | N.order = 0 ∧ N.idx < g.nblk 0 ∧ (N.idx < m ∨ r ≤ N.idx)}

/-- A block of the heap is busy iff it is not between the two boundaries. -/
theorem busy_reserved (hN : g.Has N) :
    Busy (reserved g m r) N ↔ N.idx * 2 ^ N.order < m ∨ r < (N.idx + 1) * 2 ^ N.order := by
  have hpos := Nat.two_pow_pos N.order
  have hexp : (N.idx + 1) * 2 ^ N.order = N.idx * 2 ^ N.order + 2 ^ N.order := by ring
  have hin : ∀ x, x / 2 ^ N.order = N.idx → (⟨0, x⟩ : Node) ≤ N := fun x hx => ⟨Nat.zero_le _, hx⟩
  constructor
  · intro ⟨u, ⟨h0, _, hu⟩, hle⟩
    have hdiv : u.idx / 2 ^ N.order = N.idx := by
      have := hle.2
      rwa [h0, Nat.sub_zero] at this
    have hmod := Nat.div_add_mod u.idx (2 ^ N.order)
    have hlt := Nat.mod_lt u.idx hpos
    rw [hdiv, Nat.mul_comm] at hmod
    omega
  · intro h
    rcases Nat.lt_or_ge (N.idx * 2 ^ N.order) m with hm | hm
    · have hle := hin (N.idx * 2 ^ N.order) (Nat.mul_div_cancel _ hpos)
      exact ⟨_, ⟨rfl, (hN.mono hle).2, .inl hm⟩, hle⟩
    · have hle := hin (N.idx * 2 ^ N.order + (2 ^ N.order - 1)) (by
        rw [Nat.mul_comm, Nat.mul_add_div hpos, Nat.div_eq_of_lt (by omega), Nat.add_zero])
      exact ⟨_, ⟨rfl, (hN.mono hle).2, .inr (by simp only; omega)⟩, hle⟩

theorem split_reserved (h0 : 0 < N.order) :
    Split (reserved g m r) N ↔ Busy (reserved g m r) N := by
  constructor
  · exact fun ⟨u, hu, hlt⟩ => ⟨u, hu, hlt.le⟩
  · refine fun ⟨u, hu, hle⟩ => ⟨u, hu, lt_of_le_of_ne hle fun he => ?_⟩
    have := hu.1
    rw [he] at this
    omega

theorem apart_reserved : Apart (reserved g m r) N ↔ ¬ Busy (reserved g m r) N := by
  rw [apart_iff, and_iff_left_iff_imp]
  intro hb u hu hle
  have ho : N.order = u.order := le_antisymm hle.1 (by rw [hu.1]; exact Nat.zero_le _)
  exact hb ⟨u, hu, (Node.eq_of_le_of_order hle ho).ge⟩

theorem sound_reserved (hpos : 0 < g.nsizes) (hs : g.Small) (hb : g.bdSizes = g.bdBase)
    (hm : 2 * g.nsizes ≤ m) (hm' : m ≤ g.nblk 0) : Sound (reserved g m r) g := by
  refine ⟨hpos, hs, fun u hu => ⟨by rw [hu.1]; exact hpos, by rw [hu.1]; exact hu.2.1⟩,
    fun k hk => ⟨2 * k, ⟨rfl, ?_, .inl ?_⟩, ?_⟩⟩
  · show 2 * k < g.nblk 0
    omega
  · show 2 * k < m
    omega
  · unfold Geo.free blk szInfoSize
    rw [hb, show blkSize (⟨0, 2 * k⟩ : Node).order = 16 from rfl]
    show g.bdBase + k * 32 = g.bdBase + 2 * k * 16
    omega

/-! ### Indices of the boundaries -/

/-- The first block of size `k` that starts at leaf `m` or after it. -/
def next (k m : ℕ) : ℕ := (m + (2 ^ k - 1)) / 2 ^ k

theorem lt_next_iff : i < next k m ↔ i * 2 ^ k < m := by
  have hpos := Nat.two_pow_pos k
  unfold next
  rw [Nat.lt_iff_add_one_le, Nat.le_div_iff_mul_le hpos, Nat.add_mul]
  omega

theorem div_le_iff : r / 2 ^ k ≤ i ↔ r < (i + 1) * 2 ^ k := by
  rw [← Nat.lt_succ_iff, Nat.div_lt_iff_lt_mul (Nat.two_pow_pos k)]

theorem next_succ (k m : ℕ) : next (k + 1) m = (next k m + 1) / 2 := by
  have hpos := Nat.two_pow_pos k
  unfold next
  rw [← Nat.add_div_right _ hpos, Nat.div_div_eq_div_mul, ← Nat.pow_succ]
  congr 1
  rw [Nat.pow_succ]
  omega

theorem next_eq (k x : ℕ) : next k x = if x % 2 ^ k ≠ 0 then x / 2 ^ k + 1 else x / 2 ^ k := by
  have hpos := Nat.two_pow_pos k
  have hdm := Nat.div_add_mod x (2 ^ k)
  have hlt := Nat.mod_lt x hpos
  unfold next
  split
  · refine Nat.div_eq_of_lt_le ?_ ?_
    · rw [Nat.mul_comm, Nat.mul_add]
      omega
    · rw [Nat.mul_comm, Nat.mul_add, Nat.mul_add]
      omega
  · refine Nat.div_eq_of_lt_le ?_ ?_
    · rw [Nat.mul_comm]
      omega
    · rw [Nat.mul_comm, Nat.mul_add]
      omega

/-- The address of leaf `x`. -/
def leaf (g : Geo) (x : ℕ) : ℕ := g.bdBase + x * LEAF_SIZE

theorem leaf_sub (g : Geo) (x : ℕ) : ((leaf g x : ℕ) : ℤ) - g.bdBase = (x * LEAF_SIZE : ℕ) := by
  unfold leaf
  omega

theorem leaf_lt (hs : g.heapSize < 2 ^ 31) (hx : x ≤ g.nblk 0) : x * LEAF_SIZE < 2 ^ 31 :=
  lt_of_le_of_lt (Nat.mul_le_mul_right _ hx) hs

theorem leaf_div (k x : ℕ) : x * LEAF_SIZE / blkSize k = x / 2 ^ k :=
  Nat.mul_div_mul_right _ _ (by decide)

theorem blkIndex_leaf (hs : g.heapSize < 2 ^ 31) (hx : x ≤ g.nblk 0) :
    blkIndex g k (leaf g x) = (x / 2 ^ k : ℕ) := by
  have hlt := leaf_lt hs hx
  have hle := Nat.div_le_self (x * LEAF_SIZE) (blkSize k)
  unfold blkIndex
  rw [leaf_sub, cInt_natCast hlt, ← Int.ofNat_tdiv, cInt_natCast (hle.trans_lt hlt), leaf_div]

theorem blkIndexNext_leaf (hs : g.heapSize < 2 ^ 31) (hx : x ≤ g.nblk 0) :
    blkIndexNext g k (leaf g x) = next k x := by
  have hlt : x * 16 < 2 ^ 31 := leaf_lt hs hx
  have hle : x / 2 ^ k ≤ x := Nat.div_le_self _ _
  have hmod : x * LEAF_SIZE % blkSize k = 0 ↔ x % 2 ^ k = 0 := by
    unfold blkSize
    rw [Nat.mul_mod_mul_right, Nat.mul_eq_zero, or_iff_left (by decide)]
  unfold blkIndexNext
  simp only [leaf_sub, ← Int.ofNat_tdiv, ← Int.ofNat_tmod, leaf_div, next_eq, ne_eq, Int.natCast_eq_zero,
    hmod]
  rw [cInt_natCast (by omega), ← Int.natCast_succ, cInt_natCast (by omega)]
  split <;> rfl

/-! ### Marking -/

/-- One row of a mark sets the bits from `bi` on. -/
theorem markRow_spec (hk : k < g.nsizes) : ∀ (f bi : ℕ) (s : Sys), s.toGeo = g → bi + f ≤ g.nblk k →
    ∃ s', markRow k f bi s = .ok s' ∧ s'.toGeo = g ∧ s'.links = s.links ∧
      (∀ j i, s'.alloc j i = true ↔ s.alloc j i = true ∨ (j = k ∧ bi ≤ i ∧ i < bi + f)) ∧
      (∀ j i, s'.split j i = true ↔ s.split j i = true ∨ (0 < k ∧ j = k ∧ bi ≤ i ∧ i < bi + f))
  | 0, bi, s, hg, _ => ⟨s, rfl, hg, rfl, fun j i => by grind, fun j i => by grind⟩
  | f + 1, bi, s, hg, hle => by
    have hhas : s.Has ⟨k, bi⟩ := by
      rw [hg]
      exact ⟨hk, by show bi < g.nblk k; omega⟩
    have hput : ∀ (a : ℕ → ℕ → Bool) (j i : ℕ),
        put a k bi true j i = true ↔ a j i = true ∨ (j = k ∧ i = bi) := by
      intro a j i
      have := put_true_iff (N := ⟨k, bi⟩) (B := ⟨j, i⟩) (a := a) Iff.rfl
      rwa [Node.mk.injEq] at this
    have hset : ∀ a, bitSet s.toGeo a k bi = .ok (put a k bi true) := bitSet_ok hhas
    by_cases h0 : 0 < k
    · obtain ⟨s', hs', hg', hl', ha', hsp'⟩ := markRow_spec hk f (bi + 1)
        { s with alloc := put s.alloc k bi true, split := put s.split k bi true } hg (by omega)
      refine ⟨s', ?_, hg', hl', fun j i => ?_, fun j i => ?_⟩
      · rw [← hs', markRow, if_pos h0, hset, hset]
        rfl
      · rw [ha', hput]
        grind
      · rw [hsp', hput]
        grind
    · obtain ⟨s', hs', hg', hl', ha', hsp'⟩ := markRow_spec hk f (bi + 1)
        { s with alloc := put s.alloc k bi true } hg (by omega)
      refine ⟨s', ?_, hg', hl', fun j i => ?_, fun j i => ?_⟩
      · rw [← hs', markRow, if_neg h0, hset]
        rfl
      · rw [ha', hput]
        grind
      · rw [hsp']
        grind

theorem next_le (hk : k < g.nsizes) (hx : x ≤ g.nblk 0) : next k x ≤ g.nblk k := by
  have hn : ¬ g.nblk k < next k x := by
    rw [lt_next_iff]
    have : g.nblk k * 2 ^ k = g.nblk 0 := by
      unfold nblk maxsize
      rw [← Nat.pow_add]
      congr 1
      omega
    omega
  omega

theorem div_le_next (k : ℕ) (h : x ≤ y) : x / 2 ^ k ≤ next k y := by
  have h1 : x / 2 ^ k ≤ y / 2 ^ k := Nat.div_le_div_right h
  rw [next_eq]
  split <;> omega

/-- **`bd_mark`** of the leaves from `x` to `y` sets the bits of the blocks from the one
that holds `x` to the last that starts before `y`. -/
theorem bdMark_spec {s : Sys} (hg : s.toGeo = g) (hb : g.bdBase % LEAF_SIZE = 0)
    (hs : g.heapSize < 2 ^ 31) (hxy : x ≤ y) (hy : y ≤ g.nblk 0) :
    ∃ s', bdMark (leaf g x) (leaf g y) s = .ok s' ∧ s'.toGeo = g ∧ s'.links = s.links ∧
      (∀ k i, s'.alloc k i = true ↔
        s.alloc k i = true ∨ (k < g.nsizes ∧ x / 2 ^ k ≤ i ∧ i < next k y)) ∧
      (∀ k i, s'.split k i = true ↔
        s.split k i = true ∨ (0 < k ∧ k < g.nsizes ∧ x / 2 ^ k ≤ i ∧ i < next k y)) := by
  have halign : ∀ z, leaf g z % LEAF_SIZE = 0 := by
    intro z
    unfold leaf
    rw [Nat.add_mul_mod_self_right]
    exact hb
  unfold bdMark
  rw [if_neg (by simp [halign]), hg]
  -- by induction on the number of rows done
  have key : ∀ K ≤ g.nsizes, ∃ s', (List.range K).foldlM (fun (s : Sys) k =>
        markRow k (blkIndexNext s.toGeo k (leaf g y) - blkIndex s.toGeo k (leaf g x)).toNat
          (blkIndex s.toGeo k (leaf g x)) s) s = .ok s' ∧ s'.toGeo = g ∧ s'.links = s.links ∧
      (∀ k i, s'.alloc k i = true ↔
        s.alloc k i = true ∨ (k < K ∧ x / 2 ^ k ≤ i ∧ i < next k y)) ∧
      (∀ k i, s'.split k i = true ↔
        s.split k i = true ∨ (0 < k ∧ k < K ∧ x / 2 ^ k ≤ i ∧ i < next k y)) := by
    intro K
    induction K with
    | zero => exact fun _ => ⟨s, rfl, hg, rfl, by simp, by simp⟩
    | succ K ih =>
      intro hK
      obtain ⟨s1, h1, hg1, hl1, ha1, hs1⟩ := ih (by omega)
      have hdn := div_le_next K hxy
      obtain ⟨s2, h2, hg2, hl2, ha2, hs2⟩ := markRow_spec (g := g) (show K < g.nsizes from hK)
        (next K y - x / 2 ^ K) (x / 2 ^ K) s1 hg1 (by have := next_le (show K < g.nsizes from hK) hy; omega)
      refine ⟨s2, ?_, hg2, hl2.trans hl1, fun k i => ?_, fun k i => ?_⟩
      · rw [List.range_succ, List.foldlM_append, h1]
        show markRow K _ _ s1 >>= pure = _
        rw [hg1, blkIndexNext_leaf hs hy, blkIndex_leaf hs (hxy.trans hy), ← Nat.cast_sub hdn,
          Int.toNat_natCast, h2]
        rfl
      · rw [ha2, ha1, Nat.add_sub_cancel' hdn]
        grind
      · rw [hs2, hs1, Nat.add_sub_cancel' hdn]
        grind
  exact key g.nsizes le_rfl

/-! ### The free lists -/

theorem free_inj {j : ℕ} (h : g.free j = g.free k) : j = k := by
  unfold Geo.free szInfoSize at h
  omega

/-- The list heads after `lst_init` of each. -/
theorem rings_init (g : Geo) (mem : Mem ℕ) :
    Rings ((List.range g.nsizes).foldl (fun m k => lstInit m (g.free k)) mem) g.nsizes g.free
      fun _ => [] := by
  have key : ∀ n, ∀ k < n,
      Linked ((List.range n).foldl (fun m k => lstInit m (g.free k)) mem) (g.free k) (g.free k) := by
    intro n
    induction n with
    | zero => intro k hk; omega
    | succ n ih =>
      intro k hk
      rw [List.range_succ, List.foldl_append]
      simp only [List.foldl_cons, List.foldl_nil]
      generalize (List.range n).foldl (fun m k => lstInit m (g.free k)) mem = m0 at ih
      unfold lstInit
      rcases eq_or_ne k n with rfl | hne
      · exact ⟨by simp, by simp⟩
      · have hk' : k < n := by omega
        have hf : g.free k ≠ g.free n := fun h => hne (free_inj h)
        exact ⟨by simp [Mem.setNext_of_ne _ hf, (ih k hk').1],
          by simp [Mem.setPrev_of_ne _ hf, (ih k hk').2]⟩
  refine ⟨key g.nsizes, fun k _ => by simp, fun j _ k _ hjk x hx => ?_⟩
  rw [List.mem_singleton] at hx ⊢
  rw [hx]
  exact fun h => hjk (free_inj h)

/-- The bits are those of the leaves reserved up to `m` and from `r` on. -/
structure Marked (m r : ℕ) (g : Geo) (alloc split : ℕ → ℕ → Bool) : Prop where
  alloc : ∀ N, g.Has N → (alloc N.order N.idx = true ↔ Busy (reserved g m r) N)
  split : ∀ N, g.Has N → 0 < N.order →
    (split N.order N.idx = true ↔ Split (reserved g m r) N)

theorem Marked.alloc_iff {al sp : ℕ → ℕ → Bool} (h : Marked m r g al sp) (hN : g.Has N) :
    al N.order N.idx = true ↔ N.idx < next N.order m ∨ r / 2 ^ N.order ≤ N.idx := by
  rw [h.alloc N hN, busy_reserved hN, lt_next_iff, div_le_iff]

/-- Both bits of the pair are read. -/
theorem bdInitfreePair_ok {s : Sys} {bi : ℤ} {v : ℤ × Sys} (h : bdInitfreePair k bi s = .ok v) :
    s.HasBit k bi ∧ v.2.toGeo = s.toGeo := by
  unfold bdInitfreePair bitIsset at h
  simp only [bind, Except.bind] at h
  by_cases h1 : s.HasBit k bi
  · refine ⟨h1, ?_⟩
    rw [if_pos h1] at h
    simp only at h
    by_cases h2 : s.HasBit k (buddyOf bi)
    · rw [if_pos h2] at h
      simp only at h
      split at h
      · rw [← Except.ok.inj h]
      · rw [← Except.ok.inj h]
    · rw [if_neg h2] at h
      cases h
  · rw [if_neg h1] at h
    cases h

theorem initfreeRound_ok {s : Sys} {left right : ℕ} {a : ℤ} {v : ℤ × Sys}
    (h : initfreeRound left right k a s = .ok v) :
    v.2.toGeo = s.toGeo ∧ s.HasBit k (blkIndexNext s.toGeo k left) ∧
      (blkIndexNext s.toGeo k left < blkIndex s.toGeo k right →
        s.HasBit k (blkIndex s.toGeo k right)) := by
  unfold initfreeRound at h
  simp only [bind, Except.bind] at h
  cases h1 : bdInitfreePair k (blkIndexNext s.toGeo k left) s with
  | error e =>
    rw [h1] at h
    cases h
  | ok u =>
    obtain ⟨hbit, hgeo⟩ := bdInitfreePair_ok h1
    rw [h1] at h
    simp only at h
    split at h
    · rw [← Except.ok.inj h]
      exact ⟨hgeo, hbit, fun hlt => by omega⟩
    · cases h2 : bdInitfreePair k (blkIndex s.toGeo k right) u.2 with
      | error e =>
        rw [h2] at h
        cases h
      | ok w =>
        obtain ⟨hbit', hgeo'⟩ := bdInitfreePair_ok h2
        rw [h2] at h
        rw [← Except.ok.inj h]
        exact ⟨hgeo'.trans hgeo, hbit, fun _ => hgeo ▸ hbit'⟩

/-- `bd_initfree` reads the bit at each boundary of each size. -/
theorem bdInitfree_ok {s : Sys} {left right : ℕ} {v : ℤ × Sys}
    (h : bdInitfree left right s = .ok v) : v.2.toGeo = s.toGeo ∧
      ∀ k < s.maxsize, s.HasBit k (blkIndexNext s.toGeo k left) ∧
        (blkIndexNext s.toGeo k left < blkIndex s.toGeo k right →
          s.HasBit k (blkIndex s.toGeo k right)) := by
  have key : ∀ K v, (List.range K).foldlM (fun (x : ℤ × Sys) k =>
      initfreeRound left right k x.1 x.2) (0, s) = .ok v → v.2.toGeo = s.toGeo ∧
      ∀ k < K, s.HasBit k (blkIndexNext s.toGeo k left) ∧
        (blkIndexNext s.toGeo k left < blkIndex s.toGeo k right →
          s.HasBit k (blkIndex s.toGeo k right)) := by
    intro K
    induction K with
    | zero =>
      intro v hv
      rw [← Except.ok.inj hv]
      exact ⟨rfl, fun k hk => by omega⟩
    | succ K ih =>
      intro v hv
      rw [List.range_succ, List.foldlM_append] at hv
      cases hK : (List.range K).foldlM (fun (x : ℤ × Sys) k =>
          initfreeRound left right k x.1 x.2) (0, s) with
      | error e =>
        rw [hK] at hv
        cases hv
      | ok w =>
        obtain ⟨hgeo, hbits⟩ := ih w hK
        rw [hK] at hv
        have hv' : initfreeRound left right K w.1 w.2 >>= pure = .ok v := hv
        rw [bind_pure] at hv'
        obtain ⟨h1, h2⟩ := initfreeRound_ok hv'
        rw [hgeo] at h1 h2
        refine ⟨h1, fun k hk => ?_⟩
        rcases Nat.lt_or_eq_of_le (Nat.lt_succ_iff.mp hk) with hlt | rfl
        · exact hbits k hlt
        · exact h2
  exact key s.maxsize v h

theorem bdInitfreePair_eq {s : Sys} (hs : s.heapSize < 2 ^ 31) (hN : s.Has N) (hS : s.Has N.sib) :
    bdInitfreePair N.order N.idx s =
      if s.alloc N.order N.idx = s.alloc N.order N.sib.idx then .ok (0, s)
      else
        let b := s.blk (if s.alloc N.order N.idx = true then N.sib else N)
        .ok (blkSize N.order, { s with links := lstPush s.links (s.free N.order) b }) := by
  have hsmall : s.toGeo.Small := hs.le
  have hsib := bitIsset_ok hS s.alloc
  have haddr := addr_eq hsmall hS
  rw [show N.sib.order = N.order from rfl] at hsib haddr
  have hfit := hN.fits
  have hcast : cInt (blkSize N.order) = blkSize N.order := cInt_natCast (by omega)
  unfold bdInitfreePair
  simp only [buddyOf_idx, bitIsset_ok hN, hsib, haddr, addr_eq hsmall hN, hcast, bind, Except.bind]
  cases s.alloc N.order N.idx <;> cases s.alloc N.order N.sib.idx <;> rfl

/-- The pair at the lower boundary `l` holds a block to push. -/
def LeftHit (l q : ℕ) : Prop := l < q ∧ (l % 2 = 1 ∨ l + 1 = q)

/-- The pair at the upper boundary `q` holds a block to push. -/
def RightHit (l q : ℕ) : Prop := l < q ∧ q % 2 = 1

instance (l q : ℕ) : Decidable (LeftHit l q) := inferInstanceAs (Decidable (_ ∧ _))
instance (l q : ℕ) : Decidable (RightHit l q) := inferInstanceAs (Decidable (_ ∧ _))

/-- How many blocks are pushed. -/
def hits (l q : ℕ) : ℕ := (if LeftHit l q then 1 else 0) + (if RightHit l q then 1 else 0)

/-- The pointers after the round for size `k`. -/
def roundLinks (g : Geo) (mem : Mem ℕ) (k l q : ℕ) : Mem ℕ :=
  let mem := if LeftHit l q then lstPush mem (g.free k) (g.blk ⟨k, l⟩) else mem
  if RightHit l q then lstPush mem (g.free k) (g.blk ⟨k, q - 1⟩) else mem

theorem sib_mk (k i : ℕ) : (⟨k, i⟩ : Node).sib = ⟨k, if i % 2 = 0 then i + 1 else i - 1⟩ := rfl

theorem leftPair_eq {s : Sys} (hs : s.heapSize < 2 ^ 31) (hm : Marked m r s.toGeo s.alloc s.split)
    (hk : k + 1 < s.nsizes) (hl : next k m < s.nblk k) :
    bdInitfreePair k (next k m) s =
      if LeftHit (next k m) (r / 2 ^ k) then .ok (blkSize k, { s with
        links := lstPush s.links (s.free k) (s.blk ⟨k, next k m⟩) }) else .ok (0, s) := by
  have hN : s.Has ⟨k, next k m⟩ := ⟨by show k < _; omega, hl⟩
  have hS := hN.sib hk
  have h1 := hm.alloc_iff hN
  have h2 := hm.alloc_iff hS
  have heq := bdInitfreePair_eq hs hN hS
  rw [sib_mk] at h2 hS heq
  simp only at h1 h2 heq
  rw [heq]
  generalize next k m = l at *
  generalize r / 2 ^ k = q at *
  by_cases hlq : LeftHit l q
  · have hlq' : l < q ∧ (l % 2 = 1 ∨ l + 1 = q) := hlq
    have ha : s.alloc k l = false := by
      rw [Bool.eq_false_iff, Ne, h1]
      omega
    have hb : s.alloc k (if l % 2 = 0 then l + 1 else l - 1) = true := by
      rw [h2]
      split <;> omega
    rw [if_pos hlq, ha, hb]
    rfl
  · have hlq' : ¬ (l < q ∧ (l % 2 = 1 ∨ l + 1 = q)) := hlq
    have hab : s.alloc k l = s.alloc k (if l % 2 = 0 then l + 1 else l - 1) := by
      rw [Bool.eq_iff_iff, h1, h2]
      split <;> omega
    rw [if_neg hlq, if_pos hab]

theorem rightPair_eq {s : Sys} (hs : s.heapSize < 2 ^ 31) (hm : Marked m r s.toGeo s.alloc s.split)
    (hk : k + 1 < s.nsizes) (hq : r / 2 ^ k < s.nblk k) (hlq : next k m < r / 2 ^ k) :
    bdInitfreePair k (r / 2 ^ k : ℕ) s =
      if RightHit (next k m) (r / 2 ^ k) then .ok (blkSize k, { s with
        links := lstPush s.links (s.free k) (s.blk ⟨k, r / 2 ^ k - 1⟩) }) else .ok (0, s) := by
  have hN : s.Has ⟨k, r / 2 ^ k⟩ := ⟨by show k < _; omega, hq⟩
  have hS := hN.sib hk
  have h1 := hm.alloc_iff hN
  have h2 := hm.alloc_iff hS
  have heq := bdInitfreePair_eq hs hN hS
  rw [sib_mk] at h2 hS heq
  simp only at h1 h2 heq
  rw [heq]
  generalize next k m = l at *
  generalize r / 2 ^ k = q at *
  have ha : s.alloc k q = true := by
    rw [h1]
    omega
  by_cases hodd : RightHit l q
  · have hodd' : l < q ∧ q % 2 = 1 := hodd
    have hb : s.alloc k (if q % 2 = 0 then q + 1 else q - 1) = false := by
      rw [Bool.eq_false_iff, Ne, h2]
      split <;> omega
    rw [if_pos hodd, ha, hb]
    simp [hodd.2]
  · have hodd' : ¬ (l < q ∧ q % 2 = 1) := hodd
    have hb : s.alloc k (if q % 2 = 0 then q + 1 else q - 1) = true := by
      rw [h2]
      split <;> omega
    rw [if_neg hodd, ha, hb]
    simp

/-- **A round of `bd_initfree`** pushes the blocks that are free beside a busy buddy. -/
theorem initfreeRound_eq {s : Sys} {a : ℕ} (hs : s.heapSize < 2 ^ 31)
    (hm : Marked m r s.toGeo s.alloc s.split) (hk : k + 1 < s.nsizes)
    (hm0 : m ≤ s.nblk 0) (hr0 : r ≤ s.nblk 0)
    (hl : next k m < s.nblk k) (hq : r / 2 ^ k < s.nblk k) (ha : a + 2 * blkSize k < 2 ^ 31) :
    initfreeRound (leaf s.toGeo m) (leaf s.toGeo r) k a s =
      .ok ((a + hits (next k m) (r / 2 ^ k) * blkSize k : ℕ),
        { s with links := roundLinks s.toGeo s.links k (next k m) (r / 2 ^ k) }) := by
  unfold initfreeRound
  have hcast : ∀ b c : ℕ, b + c < 2 ^ 31 → cInt ((b : ℤ) + c) = (b + c : ℕ) := by
    intro b c h
    rw [← Nat.cast_add]
    exact cInt_natCast h
  have hcast0 : ∀ b : ℕ, b < 2 ^ 31 → cInt ((b : ℤ) + 0) = b := by
    intro b h
    rw [Int.add_zero]
    exact cInt_natCast h
  simp only [blkIndexNext_leaf hs hm0, blkIndex_leaf hs hr0]
  rw [leftPair_eq hs hm hk hl]
  rcases Nat.lt_or_ge (next k m) (r / 2 ^ k) with hlq | hge
  · have hno : ¬ ((r / 2 ^ k : ℕ) : ℤ) ≤ (next k m : ℕ) := by omega
    unfold hits roundLinks
    by_cases h1 : LeftHit (next k m) (r / 2 ^ k)
    · have hright := rightPair_eq (s := { s with
        links := lstPush s.links (s.free k) (s.blk ⟨k, next k m⟩) }) hs hm hk hq hlq
      simp only [h1, if_true, bind, Except.bind, hno, if_false, hright]
      by_cases h2 : RightHit (next k m) (r / 2 ^ k)
      · simp only [h2, if_true, hcast _ _ (show a + blkSize k < 2 ^ 31 by omega),
          hcast _ _ (show a + blkSize k + blkSize k < 2 ^ 31 by omega)]
        congr 3
        omega
      · simp only [h2, if_false, hcast _ _ (show a + blkSize k < 2 ^ 31 by omega),
          hcast0 _ (show a + blkSize k < 2 ^ 31 by omega)]
        congr 3
        omega
    · have hright := rightPair_eq hs hm hk hq hlq
      simp only [h1, if_false, bind, Except.bind, hno, hright]
      by_cases h2 : RightHit (next k m) (r / 2 ^ k)
      · simp only [h2, if_true, hcast0 _ (show a < 2 ^ 31 by omega),
          hcast _ _ (show a + blkSize k < 2 ^ 31 by omega)]
        congr 3
        omega
      · simp only [h2, if_false, hcast0 _ (show a < 2 ^ 31 by omega)]
        congr 3
        omega
  · have hyes : ((r / 2 ^ k : ℕ) : ℤ) ≤ (next k m : ℕ) := by omega
    have h1 : ¬ LeftHit (next k m) (r / 2 ^ k) := fun h => by have := h.1; omega
    have h2 : ¬ RightHit (next k m) (r / 2 ^ k) := fun h => by have := h.1; omega
    unfold hits roundLinks
    simp only [h1, h2, if_false, bind, Except.bind, hyes, if_true, hcast0 _ (show a < 2 ^ 31 by omega)]
    congr 3
    omega

theorem vacant_reserved (hN : g.Has ⟨k, i⟩) (hk : k + 1 < g.nsizes) :
    Vacant (reserved g m r) ⟨k, i⟩ ↔
      LeftHit (next k m) (r / 2 ^ k) ∧ i = next k m ∨
        RightHit (next k m) (r / 2 ^ k) ∧ i = r / 2 ^ k - 1 := by
  have hpar : g.Has ⟨k + 1, i / 2⟩ := hN.parent hk
  have h1 : Busy (reserved g m r) ⟨k, i⟩ ↔ i < next k m ∨ r / 2 ^ k ≤ i := by
    rw [busy_reserved hN, lt_next_iff, div_le_iff]
  have h2 : Busy (reserved g m r) ⟨k + 1, i / 2⟩ ↔
      i / 2 < (next k m + 1) / 2 ∨ r / 2 ^ k / 2 ≤ i / 2 := by
    rw [busy_reserved hpar, ← next_succ, lt_next_iff, Nat.div_div_eq_div_mul, ← Nat.pow_succ,
      div_le_iff]
  unfold Vacant LeftHit RightHit
  rw [apart_reserved, h1, show (⟨k, i⟩ : Node).parent = ⟨k + 1, i / 2⟩ from rfl, h2]
  omega

/-- The address of a vacant block is not a node yet, if the lists hold other vacant blocks. -/
theorem fresh_vacant {U : Set Node} {L : ℕ → List ℕ} (hU : Sound U g) (hv : Vacant U N)
    (hL : ∀ j < g.nsizes, ∀ a ∈ L j, ∃ B, Vacant U B ∧ B ≠ N ∧ a = g.blk B) :
    ∀ j < g.nsizes, g.blk N ∉ g.free j :: L j := by
  intro j hj hmem
  rcases List.mem_cons.mp hmem with he | hm
  · obtain ⟨x, hx, hfree⟩ := hU.heads j hj
    rw [hfree] at he
    have := hv.1 ⟨0, x⟩ hx
    exact (nested_of_blk_eq he).elim this.2 this.1
  · obtain ⟨B, hB, hne, he⟩ := hL j hj _ hm
    rcases nested_of_blk_eq he with hn | hn
    · exact hne (owner_unique hB hv hn le_rfl)
    · exact hne (owner_unique hB hv le_rfl hn)

theorem rings_push_if {mem : Mem ℕ} {n e : ℕ} {H : ℕ → ℕ} {L : ℕ → List ℕ} {p : Prop} [Decidable p]
    (hr : Rings mem n H L) (hk : k < n) (he : p → ∀ j < n, e ∉ H j :: L j) :
    Rings (if p then lstPush mem (H k) e else mem) n H
      (Function.update L k (if p then e :: L k else L k)) := by
  by_cases hp : p
  · rw [if_pos hp, if_pos hp]
    exact rings_push hr hk (he hp)
  · rw [if_neg hp, if_neg hp, Function.update_eq_self]
    exact hr

/-- The two boundaries are one block apart and the lower one is even: the pair
is looked at twice. -/
def Twice (m r k : ℕ) : Prop := next k m % 2 = 0 ∧ next k m + 1 = r / 2 ^ k

instance (m r k : ℕ) : Decidable (Twice m r k) := inferInstanceAs (Decidable (_ ∧ _))

/-- The free lists of the sizes below `K` are filled. -/
structure Filled (m r : ℕ) (g : Geo) (mem : Mem ℕ) (K : ℕ) (L : ℕ → List ℕ) : Prop where
  rings : Rings mem g.nsizes g.free L
  mem : ∀ k < K, ∀ a, a ∈ L k ↔
    ∃ i, g.Has ⟨k, i⟩ ∧ Vacant (reserved g m r) ⟨k, i⟩ ∧ a = g.blk ⟨k, i⟩
  rest : ∀ k, K ≤ k → L k = []
  count : ∀ k < K, (L k).length = hits (next k m) (r / 2 ^ k)

theorem Filled.round {mem : Mem ℕ} {K : ℕ} {L : ℕ → List ℕ} (h : Filled m r g mem K L)
    (hU : Sound (reserved g m r) g) (hK : K + 1 < g.nsizes) (hl : next K m < g.nblk K)
    (hq : r / 2 ^ K < g.nblk K) (htw : ¬ Twice m r K) :
    ∃ L', Filled m r g (roundLinks g mem K (next K m) (r / 2 ^ K)) (K + 1) L' := by
  have hvac : ∀ i, g.Has ⟨K, i⟩ → _ := fun i hi => vacant_reserved (m := m) (r := r) hi hK
  unfold Twice at htw
  generalize hl' : next K m = l at *
  generalize hq' : r / 2 ^ K = q at *
  have hKn : K < g.nsizes := by omega
  have hhas : ∀ i, i < g.nblk K → g.Has ⟨K, i⟩ := fun i hi => ⟨hKn, hi⟩
  have hLK : L K = [] := h.rest K le_rfl
  -- what is on the lists so far is vacant and smaller
  have hold : ∀ N : Node, N.order = K → ∀ j < g.nsizes, ∀ a ∈ L j,
      ∃ B, Vacant (reserved g m r) B ∧ B ≠ N ∧ a = g.blk B := by
    intro N hN j _ a ha
    rcases Nat.lt_or_ge j K with hjK | hjK
    · obtain ⟨i, _, hv, he⟩ := (h.mem j hjK a).mp ha
      refine ⟨⟨j, i⟩, hv, fun hB => ?_, he⟩
      have : j = N.order := congrArg Node.order hB
      omega
    · rw [h.rest j hjK] at ha
      cases ha
  have hleft : LeftHit l q → Vacant (reserved g m r) ⟨K, l⟩ := fun hh =>
    (hvac l (hhas l hl)).mpr (.inl ⟨hh, rfl⟩)
  have hright : RightHit l q → Vacant (reserved g m r) ⟨K, q - 1⟩ := fun hh =>
    (hvac (q - 1) (hhas _ (by omega))).mpr (.inr ⟨hh, rfl⟩)
  have hr1 := rings_push_if (p := LeftHit l q) h.rings hKn
    fun hh => fresh_vacant hU (hleft hh) (hold ⟨K, l⟩ rfl)
  have hr2 := rings_push_if (p := RightHit l q) hr1 hKn (e := g.blk ⟨K, q - 1⟩) (by
    intro hh
    refine fresh_vacant hU (hright hh) fun j hj a ha => ?_
    rcases eq_or_ne j K with rfl | hne
    · rw [Function.update_self, hLK] at ha
      by_cases hlh : LeftHit l q
      · rw [if_pos hlh, List.mem_singleton] at ha
        refine ⟨⟨j, l⟩, hleft hlh, fun hB => htw ?_, ha⟩
        have hlq : l = q - 1 := congrArg Node.idx hB
        have h1 : l < q ∧ q % 2 = 1 := hh
        omega
      · rw [if_neg hlh] at ha
        cases ha
    · rw [Function.update_of_ne hne] at ha
      exact hold _ rfl j hj a ha)
  rw [Function.update_self, Function.update_idem, hLK] at hr2
  refine ⟨_, hr2, fun k hk a => ?_, fun k hk => ?_, fun k hk => ?_⟩
  · rcases Nat.lt_or_eq_of_le (Nat.lt_succ_iff.mp hk) with hlt | rfl
    · rw [Function.update_of_ne hlt.ne]
      exact h.mem k hlt a
    · rw [Function.update_self]
      have hform : (∃ i, g.Has ⟨k, i⟩ ∧ Vacant (reserved g m r) ⟨k, i⟩ ∧ a = g.blk ⟨k, i⟩) ↔
          LeftHit l q ∧ a = g.blk ⟨k, l⟩ ∨ RightHit l q ∧ a = g.blk ⟨k, q - 1⟩ := by
        constructor
        · intro ⟨i, hi, hv, he⟩
          rcases (hvac i hi).mp hv with ⟨hh, rfl⟩ | ⟨hh, rfl⟩
          · exact .inl ⟨hh, he⟩
          · exact .inr ⟨hh, he⟩
        · rintro (⟨hh, he⟩ | ⟨hh, he⟩)
          · exact ⟨l, hhas l hl, hleft hh, he⟩
          · exact ⟨q - 1, hhas _ (by omega), hright hh, he⟩
      rw [hform]
      by_cases h1 : LeftHit l q <;> by_cases h2 : RightHit l q <;> simp [h1, h2, or_comm]
  · rw [Function.update_of_ne (by omega)]
    exact h.rest k (by omega)
  · rcases Nat.lt_or_eq_of_le (Nat.lt_succ_iff.mp hk) with hlt | rfl
    · rw [Function.update_of_ne hlt.ne]
      exact h.count k hlt
    · rw [Function.update_self, hl', hq']
      unfold hits
      by_cases h1 : LeftHit l q <;> by_cases h2 : RightHit l q <;> simp [h1, h2]

open Finset in
/-- **`bd_initfree`** when all its pairs lie in the bitmaps: what it counts, and,
if it looks at no pair twice, the free lists it leaves. -/
theorem bdInitfree_spec {s : Sys} (hs : s.heapSize ≤ 2 ^ 30)
    (hm : Marked m r s.toGeo s.alloc s.split) (hU : Sound (reserved s.toGeo m r) s.toGeo)
    (h0 : Rings s.links s.nsizes s.free fun _ => []) (hm0 : m ≤ s.nblk 0) (hr0 : r ≤ s.nblk 0)
    (hrange : ∀ k < s.maxsize, next k m < s.nblk k ∧ r / 2 ^ k < s.nblk k) :
    ∃ mem', bdInitfree (leaf s.toGeo m) (leaf s.toGeo r) s =
        .ok ((∑ k ∈ range s.maxsize, hits (next k m) (r / 2 ^ k) * blkSize k : ℕ),
          { s with links := mem' }) ∧
      ((∀ k < s.maxsize, ¬ Twice m r k) → ∃ L, Filled m r s.toGeo mem' s.maxsize L) := by
  have key : ∀ K ≤ s.maxsize,
      ∑ k ∈ range K, hits (next k m) (r / 2 ^ k) * blkSize k + 32 ≤ 2 * blkSize K ∧
      ∃ mem', (List.range K).foldlM (fun (x : ℤ × Sys) k =>
          initfreeRound (leaf s.toGeo m) (leaf s.toGeo r) k x.1 x.2) (0, s) =
        .ok ((∑ k ∈ range K, hits (next k m) (r / 2 ^ k) * blkSize k : ℕ),
          { s with links := mem' }) ∧
      ((∀ k < K, ¬ Twice m r k) → ∃ L, Filled m r s.toGeo mem' K L) := by
    intro K
    induction K with
    | zero =>
      intro _
      refine ⟨by rw [sum_range_zero]; decide, s.links, rfl, fun _ => ⟨fun _ => [], h0, ?_, fun _ _ => rfl, ?_⟩⟩
      · intro k hk
        omega
      · intro k hk
        omega
    | succ K ih =>
      intro hK
      obtain ⟨hsum, mem', hfold, hfill⟩ := ih (by omega)
      obtain ⟨hl, hq⟩ := hrange K hK
      have hK' : K + 1 < s.nsizes := by
        unfold maxsize at hK
        omega
      have hbig : blkSize (K + 1) ≤ s.heapSize :=
        Nat.mul_le_mul_right _ (Nat.pow_le_pow_right (by decide) hK)
      have hdbl : blkSize (K + 1) = 2 * blkSize K := blkSize_add K 1
      have hhits : hits (next K m) (r / 2 ^ K) ≤ 2 := by
        unfold hits
        split <;> split <;> omega
      have hstep := Nat.mul_le_mul_right (blkSize K) hhits
      have hround := initfreeRound_eq (s := { s with links := mem' })
        (a := ∑ k ∈ range K, hits (next k m) (r / 2 ^ k) * blkSize k)
        (show s.heapSize < 2 ^ 31 by omega) hm hK' hm0 hr0 hl hq (by omega)
      rw [sum_range_succ]
      refine ⟨by omega, roundLinks s.toGeo mem' K (next K m) (r / 2 ^ K), ?_, fun htw => ?_⟩
      · rw [List.range_succ, List.foldlM_append, hfold]
        show initfreeRound _ _ K _ _ >>= pure = _
        rw [hround]
        rfl
      · obtain ⟨L, hL⟩ := hfill fun k hk => htw k (by omega)
        exact hL.round hU hK' hl hq (htw K (by omega))
  exact (key s.maxsize le_rfl).2

/-- What is left between the boundaries at size `k`, in blocks of that size. -/
theorem hits_add (htw : ¬ Twice m r k) : hits (next k m) (r / 2 ^ k) +
    2 * (r / 2 ^ (k + 1) - next (k + 1) m) = r / 2 ^ k - next k m := by
  have hsucc : r / 2 ^ (k + 1) = r / 2 ^ k / 2 := by
    rw [Nat.div_div_eq_div_mul, Nat.pow_succ]
  rw [next_succ, hsucc]
  unfold Twice at htw
  generalize next k m = l at *
  generalize r / 2 ^ k = q at *
  unfold hits
  by_cases h1 : LeftHit l q <;> by_cases h2 : RightHit l q <;>
    simp only [h1, h2, if_true, if_false] <;> unfold LeftHit at h1 <;> unfold RightHit at h2 <;> omega

open Finset in
/-- Looking at no pair twice, the blocks pushed add up to the leaves between the boundaries. -/
theorem sum_hits {M : ℕ} (hm : 0 < m) (hr : r < 2 ^ M) (htw : ∀ k < M, ¬ Twice m r k) :
    ∑ k ∈ range M, hits (next k m) (r / 2 ^ k) * blkSize k = (r - m) * LEAF_SIZE := by
  have key : ∀ K ≤ M, ∑ k ∈ range K, hits (next k m) (r / 2 ^ k) * blkSize k +
      (r / 2 ^ K - next K m) * blkSize K = (r - m) * LEAF_SIZE := by
    intro K
    induction K with
    | zero =>
      intro _
      simp [next, blkSize]
    | succ K ih =>
      intro hK
      have h1 := ih (by omega)
      have h2 := hits_add (htw K hK)
      rw [sum_range_succ, blkSize_add K 1]
      rw [← h2, Nat.add_mul] at h1
      rw [← h1, Nat.pow_one]
      ring
  have hend : r / 2 ^ M - next M m = 0 := by
    have : 0 < next M m := lt_next_iff.mpr (by omega)
    rw [Nat.div_eq_of_lt hr]
    omega
  have := key M le_rfl
  rwa [hend, Nat.zero_mul, Nat.add_zero] at this

end Buddy
end Xv6
