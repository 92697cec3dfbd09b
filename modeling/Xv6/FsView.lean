/-
# The file system behind the blocks

What the blocks say: the free bits (`bits`), the inodes on disk (`dinodes`) and
the entries of the data blocks read as indirect blocks (`ents`). The areas of
the disk are disjoint, so a write to one of them changes one of the three.
The inode the kernel works with is the copy in the inode table if a slot has
a valid one, else the one on disk (`inodes`).

`balloc` and `bfree` are described once, in these terms.

Key definitions: `Fs.bits`, `Fs.dinodes`, `Fs.ents`, `Fs.inodes`.
-/
import Xv6.Ends
import Xv6.Fs
import Xv6.FsMap

namespace Xv6
namespace Fs

/-- The free map: bit `b` for the blocks of the file system. -/
def bits (sb : Super) (data : ℕ → Block) (b : ℕ) : Bool :=
  b < sb.size ∧ (data (sb.bblock b)).isset (b % BPB)

/-- The inodes on disk. -/
def dinodes (sb : Super) (data : ℕ → Block) (i : ℕ) : Dinode :=
  if i < sb.ninodes then (data (sb.iblock i)).dinode (i % IPB) else .zero

/-- The data blocks, each read as an indirect block. -/
def ents (sb : Super) (data : ℕ → Block) (x j : ℕ) : ℕ :=
  if sb.datastart ≤ x ∧ x < sb.size ∧ j < NINDIRECT then (data x).rd (4 * j) 4 else 0

variable {sb : Super} {data : ℕ → Block}

theorem bits_lt {b : ℕ} (h : bits sb data b = true) : b < sb.size := by
  simp only [bits, Bool.decide_and, Bool.and_eq_true, decide_eq_true_eq] at h
  exact h.1

theorem bits_of_lt {b : ℕ} (h : b < sb.size) : bits sb data b = (data (sb.bblock b)).isset (b % BPB) := by
  simp [bits, h]

/-! ### One write, one change -/

section Writes

variable {v : Block} {x : ℕ}

theorem bits_update (h : ∀ b, b < sb.size → sb.bblock b ≠ x) :
    bits sb (Function.update data x v) = bits sb data := by
  funext b
  by_cases hb : b < sb.size
  · rw [bits_of_lt hb, bits_of_lt hb, Function.update_of_ne (h b hb)]
  · simp [bits, hb]

theorem dinodes_update (h : ∀ i, i < sb.ninodes → sb.iblock i ≠ x) :
    dinodes sb (Function.update data x v) = dinodes sb data := by
  funext i
  unfold dinodes
  by_cases hi : i < sb.ninodes
  · rw [if_pos hi, if_pos hi, Function.update_of_ne (h i hi)]
  · rw [if_neg hi, if_neg hi]

theorem ents_update (h : x < sb.datastart) : ents sb (Function.update data x v) = ents sb data := by
  funext y j
  unfold ents
  by_cases hy : sb.datastart ≤ y ∧ y < sb.size ∧ j < NINDIRECT
  · rw [if_pos hy, if_pos hy, Function.update_of_ne (by omega)]
  · rw [if_neg hy, if_neg hy]

/-! The free map. -/

variable (hL : sb.Layout) {b : ℕ}
include hL

theorem iblock_ne_bblock (b : ℕ) {i : ℕ} (hi : i < sb.ninodes) : sb.iblock i ≠ sb.bblock b := by
  have h1 := hL.inodes i hi
  have h2 : sb.bmapstart ≤ sb.bblock b := Nat.le_add_left _ _
  omega

theorem dinodes_map (b : ℕ) :
    dinodes sb (Function.update data (sb.bblock b) v) = dinodes sb data :=
  dinodes_update fun _ hi => iblock_ne_bblock hL b hi

theorem ents_map (hb : b < sb.size) :
    ents sb (Function.update data (sb.bblock b) v) = ents sb data :=
  ents_update (hL.map b hb)

omit hL in
/-- Bits in one map block are told apart by their position in it. -/
theorem mod_ne {b c : ℕ} (hne : c ≠ b) (h : sb.bblock c = sb.bblock b) : c % BPB ≠ b % BPB := by
  intro hm
  have hd : c / BPB = b / BPB := Nat.add_right_cancel h
  apply hne
  rw [← Nat.div_add_mod c BPB, ← Nat.div_add_mod b BPB, hd, hm]

omit hL in
theorem bits_map (hb : b < sb.size) {t : Bool} (hself : v.isset (b % BPB) = t)
    (hother : ∀ c, c < BPB → c ≠ b % BPB → v.isset c = (data (sb.bblock b)).isset c) :
    bits sb (Function.update data (sb.bblock b) v) = Function.update (bits sb data) b t := by
  funext c
  by_cases hc : c < sb.size
  · by_cases hcb : c = b
    · rw [hcb, bits_of_lt hb, Function.update_self, Function.update_self, hself]
    · rw [Function.update_of_ne hcb, bits_of_lt hc, bits_of_lt hc]
      by_cases hblk : sb.bblock c = sb.bblock b
      · rw [hblk, Function.update_self]
        exact hother _ (Nat.mod_lt _ (by decide)) (mod_ne hcb hblk)
      · rw [Function.update_of_ne hblk]
  · have hcb : c ≠ b := by omega
    rw [Function.update_of_ne hcb]
    simp [bits, hc]

omit hL in
theorem bits_mark (hb : b < sb.size) :
    bits sb (Function.update data (sb.bblock b) ((data (sb.bblock b)).mark (b % BPB))) =
      Function.update (bits sb data) b true := by
  apply bits_map hb
  · rw [Block.isset_mark (Nat.mod_lt _ (by decide))]
    simp
  · intro c hc hne
    simp [Block.isset_mark hc, hne]

omit hL in
theorem bits_unmark (hb : b < sb.size) :
    bits sb (Function.update data (sb.bblock b) ((data (sb.bblock b)).unmark (b % BPB))) =
      Function.update (bits sb data) b false := by
  apply bits_map hb
  · rw [Block.isset_unmark (Nat.mod_lt _ (by decide))]
    simp
  · intro c hc hne
    simp [Block.isset_unmark hc, hne]

/-! Data blocks. -/

theorem bits_data (hx : sb.datastart ≤ x) : bits sb (Function.update data x v) = bits sb data :=
  bits_update fun b hb => by
    have := hL.map b hb
    omega

theorem dinodes_data (hx : sb.datastart ≤ x) (hx' : x < sb.size) :
    dinodes sb (Function.update data x v) = dinodes sb data :=
  dinodes_update fun i hi => by
    have h1 := hL.inodes i hi
    have h2 := hL.map x hx'
    have h3 : sb.bmapstart ≤ sb.bblock x := Nat.le_add_left _ _
    omega

omit hL in
theorem ents_data (hx : sb.datastart ≤ x) (hx' : x < sb.size) :
    ents sb (Function.update data x v) =
      Function.update (ents sb data) x fun j => if j < NINDIRECT then v.rd (4 * j) 4 else 0 := by
  funext y j
  unfold ents
  by_cases hy : y = x
  · rw [hy, Function.update_self, Function.update_self]
    simp only [hx, hx', true_and]
  · rw [Function.update_of_ne hy, Function.update_of_ne hy]

/-! Inode blocks. -/

variable {i : ℕ} (hi : i < sb.ninodes)
include hi

theorem bits_inode : bits sb (Function.update data (sb.iblock i) v) = bits sb data :=
  bits_update fun b _ => (iblock_ne_bblock hL b hi).symm

theorem ents_inode : ents sb (Function.update data (sb.iblock i) v) = ents sb data := by
  by_cases h0 : sb.size = 0
  · funext y j
    unfold ents
    rw [if_neg (by omega), if_neg (by omega)]
  · apply ents_update
    have h1 := hL.inodes i hi
    have h2 := hL.map 0 (by omega)
    have h3 : sb.bmapstart ≤ sb.bblock 0 := Nat.le_add_left _ _
    omega

omit hL in
theorem dinodes_put {d : Dinode} (hd : d.InRange) :
    dinodes sb (Function.update data (sb.iblock i) ((data (sb.iblock i)).putDinode (i % IPB) d)) =
      Function.update (dinodes sb data) i d := by
  funext k
  by_cases hk : k < sb.ninodes
  · unfold dinodes
    by_cases hki : k = i
    · rw [hki, if_pos hi, Function.update_self, Function.update_self,
        Block.dinode_putDinode (Nat.mod_lt _ (by decide)) hd]
    · rw [if_pos hk, Function.update_of_ne hki]
      simp only [if_pos hk]
      by_cases hblk : sb.iblock k = sb.iblock i
      · have hmod : k % IPB ≠ i % IPB := by
          intro hm
          have hq : k / IPB = i / IPB := Nat.add_right_cancel hblk
          exact hki (by rw [← Nat.div_add_mod k IPB, ← Nat.div_add_mod i IPB, hq, hm])
        rw [hblk, Function.update_self, Block.dinode_putDinode_ne (Nat.mod_lt _ (by decide)) hmod]
      · rw [Function.update_of_ne hblk]
  · have hki : k ≠ i := by omega
    rw [Function.update_of_ne hki]
    simp [dinodes, hk]

end Writes

/-! ### The block allocator -/

variable {s s' : Sys} {b : ℕ}

/-- What `balloc` changes when it gives out block `b`. -/
structure Allocated (sb : Super) (b : ℕ) (s s' : Sys) : Prop where
  data : sb.datastart ≤ b
  lt : b < sb.size
  free : bits sb s.data b = false
  itable : s'.itable = s.itable
  bits : bits sb s'.data = Function.update (bits sb s.data) b true
  dinodes : dinodes sb s'.data = dinodes sb s.data
  ents : ents sb s'.data = Function.update (ents sb s.data) b fun _ => 0

theorem scanFree_some {bi : ℕ} (h : scanFree sb s = some (b, bi)) :
    b + bi < sb.size ∧ sb.bblock b = sb.bblock (b + bi) ∧ (b + bi) % BPB = bi ∧
      bits sb s.data (b + bi) = false := by
  obtain ⟨o, -, ho⟩ := List.exists_of_findSome?_eq_some h
  obtain ⟨bi, hf, he⟩ := Option.map_eq_some_iff.mp ho
  obtain ⟨rfl, rfl⟩ := Prod.mk.inj he
  unfold findFree at hf
  have hbi := List.mem_of_find?_eq_some hf
  rw [List.mem_range] at hbi
  have hp := List.find?_some hf
  simp only [decide_eq_true_eq] at hp
  have hpos : 0 < BPB := by decide
  have hdiv : (o * BPB + bi) / BPB = o * BPB / BPB := by
    rw [Nat.mul_comm, Nat.mul_add_div hpos, Nat.div_eq_of_lt hbi, Nat.mul_div_cancel_left _ hpos,
      Nat.add_zero]
  have hblk : sb.bblock (o * BPB) = sb.bblock (o * BPB + bi) := by
    rw [Super.bblock, Super.bblock, hdiv]
  have hmod : (o * BPB + bi) % BPB = bi := by
    rw [Nat.mul_comm, Nat.mul_add_mod, Nat.mod_eq_of_lt hbi]
  refine ⟨hp.1, hblk, hmod, ?_⟩
  rw [bits_of_lt hp.1, ← hblk, hmod]
  exact Bool.eq_false_iff.mpr hp.2

theorem scanFree_none (h : scanFree sb s = none) (hb : b < sb.size) : bits sb s.data b = true := by
  have hpos : 0 < BPB := by decide
  have hdm : b / BPB * BPB + b % BPB = b := by
    rw [Nat.mul_comm]
    exact Nat.div_add_mod b BPB
  have hmem : b / BPB ∈ List.range ((sb.size + BPB - 1) / BPB) := by
    rw [List.mem_range, Nat.div_lt_iff_lt_mul hpos]
    have h1 := Nat.div_add_mod (sb.size + BPB - 1) BPB
    have h2 := Nat.mod_lt (sb.size + BPB - 1) hpos
    rw [Nat.mul_comm] at h1
    omega
  have hfind := List.findSome?_eq_none_iff.mp h _ hmem
  rw [Option.map_eq_none_iff] at hfind
  have hbit := List.find?_eq_none.mp hfind _ (List.mem_range.mpr (Nat.mod_lt b hpos))
  have hblk : sb.bblock (b / BPB * BPB) = sb.bblock b := by
    rw [Super.bblock, Super.bblock, Nat.mul_div_cancel _ hpos]
  rw [hdm, hblk] at hbit
  rw [bits_of_lt hb]
  simpa [hb] using hbit

/-- `balloc` finds a free block if there is one. -/
theorem balloc_spec (hL : sb.Layout) (hlow : ∀ b, b < sb.datastart → bits sb s.data b = true) :
    (balloc sb s = (0, s) ∧ ∀ b, b < sb.size → bits sb s.data b = true) ∨
      ∃ b s', balloc sb s = (b, s') ∧ Allocated sb b s s' := by
  rcases hscan : scanFree sb s with _ | ⟨b, bi⟩
  · exact .inl ⟨by rw [balloc, hscan], fun b hb => scanFree_none hscan hb⟩
  · obtain ⟨hlt, hblk, hmod, hfree⟩ := scanFree_some hscan
    have hdata : sb.datastart ≤ b + bi := by
      by_contra hc
      have := hlow (b + bi) (by omega)
      simp [hfree] at this
    let bno := sb.bblock b
    refine .inr ⟨b + bi, bzero (b + bi) (logWrite bno (s.put bno ((s.data bno).mark bi))),
      by rw [balloc, hscan], hdata, hlt, hfree, rfl, ?_, ?_, ?_⟩ <;>
      simp only [bzero, logWrite, Sys.put, bno]
    · rw [bits_data hL hdata, hblk]
      nth_rewrite 3 [← hmod]
      exact bits_mark hlt
    · rw [dinodes_data hL hdata hlt, dinodes_map hL]
    · rw [ents_data hdata hlt, hblk, ents_map hL hlt]
      simp

/-- What `bfree` changes. -/
structure Freed (sb : Super) (b : ℕ) (s s' : Sys) : Prop where
  itable : s'.itable = s.itable
  bits : bits sb s'.data = Function.update (bits sb s.data) b false
  dinodes : dinodes sb s'.data = dinodes sb s.data
  ents : ents sb s'.data = ents sb s.data

/-- `bfree` of a marked block does not panic. -/
theorem bfree_spec (hL : sb.Layout) (hb : bits sb s.data b = true) :
    ∃ s', bfree sb b s = .ok s' ∧ Freed sb b s s' := by
  have hlt := bits_lt hb
  rw [bits_of_lt hlt] at hb
  exact ⟨_, if_pos hb, rfl, bits_unmark hlt, dinodes_map hL b, ents_map hL hlt⟩

/-! ### The inode table -/

/-- The copy of inode `i` that a slot of the table holds. -/
def Inode.copy (ip : Inode) (i : ℕ) : Option Dinode :=
  if 0 < ip.ref ∧ ip.valid ∧ ip.inum = i then some ip.din else none

/-- Inode `i` as the kernel sees it: the copy in the table, or what is on disk. -/
def inodes (sb : Super) (data : ℕ → Block) (tab : ℕ → Inode) (i : ℕ) : Dinode :=
  ((List.range NINODE).findSome? fun k => (tab k).copy i).getD (dinodes sb data i)

/-- The inode table is in order: a slot in use is the only one of its inode,
and a valid copy is one of an allocated inode. -/
structure TableOk (sb : Super) (data : ℕ → Block) (tab : ℕ → Inode) : Prop where
  unique : ∀ k l, k < NINODE → l < NINODE → 0 < (tab k).ref → 0 < (tab l).ref →
    (tab k).inum = (tab l).inum → k = l
  inum : ∀ k, k < NINODE → 0 < (tab k).ref → (tab k).valid = true →
    1 ≤ (tab k).inum ∧ (tab k).inum < sb.ninodes
  type : ∀ k, k < NINODE → 0 < (tab k).ref → (tab k).valid = true →
    (tab k).din.type ≠ 0 ∧ (dinodes sb data (tab k).inum).type = (tab k).din.type
  range : ∀ k, k < NINODE → 0 < (tab k).ref → (tab k).valid = true → (tab k).din.InRange

variable {tab tab' : ℕ → Inode} {data' : ℕ → Block} {k : ℕ}

theorem copy_eq_some {ip : Inode} {i : ℕ} {d : Dinode} :
    ip.copy i = some d ↔ 0 < ip.ref ∧ ip.valid = true ∧ ip.inum = i ∧ ip.din = d := by
  unfold Inode.copy
  by_cases h : 0 < ip.ref ∧ ip.valid ∧ ip.inum = i
  · simp [h]
  · rw [if_neg h]
    simp only [reduceCtorEq, false_iff]
    exact fun hc => h ⟨hc.1, hc.2.1, hc.2.2.1⟩

theorem inodes_of_none {i : ℕ} (h : ∀ k, k < NINODE → (tab k).copy i = none) :
    inodes sb data tab i = dinodes sb data i := by
  rw [inodes, List.findSome?_eq_none_iff.mpr fun k hk => h k (List.mem_range.mp hk)]
  rfl

theorem TableOk.inodes_of_copy (h : TableOk sb data tab) (hk : k < NINODE) {i : ℕ} {d : Dinode}
    (hc : (tab k).copy i = some d) : inodes sb data' tab i = d := by
  rcases hf : (List.range NINODE).findSome? fun k => (tab k).copy i with _ | d'
  · have := List.findSome?_eq_none_iff.mp hf k (List.mem_range.mpr hk)
    rw [hc] at this
    cases this
  · obtain ⟨l, hl, hcl⟩ := List.exists_of_findSome?_eq_some hf
    obtain ⟨h1, -, h3, h4⟩ := copy_eq_some.mp hc
    obtain ⟨g1, -, g3, g4⟩ := copy_eq_some.mp hcl
    have hkl := h.unique k l hk (List.mem_range.mp hl) h1 g1 (by rw [h3, g3])
    rw [inodes, hf, ← h4, hkl, g4]
    rfl

end Fs
end Xv6
