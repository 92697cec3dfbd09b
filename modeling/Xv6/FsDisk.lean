/-
# The on-disk format of the file system

The structures of `kernel/fs.h` inside a block: an on-disk inode is 64 bytes
of an inode block (`dinode`, `putDinode`), the free map has one bit per block
(`isset`, `mark`, `unmark`), an indirect block is an array of block numbers
(`putWords`, `Block.rd`). What is stored is read back, and the neighbours of
what is stored stay.

Key definitions: `Super`, `Dinode`, `Block.dinode`, `Block.putDinode`,
`Block.isset`, `Block.mark`, `Block.unmark`.
-/
import Xv6.Basic
import Xv6.Disk
import Mathlib.Data.Fintype.Basic
import Mathlib.Data.Nat.Bitwise

namespace Xv6

namespace Fs

def NDIRECT : ℕ := 12
def NINDIRECT : ℕ := BSIZE / 4
def MAXFILE : ℕ := NDIRECT + NINDIRECT
/-- Inodes per block: `sizeof(struct dinode)` is 64. -/
def IPB : ℕ := BSIZE / 64
/-- Bitmap bits per block. -/
def BPB : ℕ := BSIZE * 8
def NINODE : ℕ := 50
def DIRSIZ : ℕ := 14
def T_DIR : ℕ := 1

/-- `struct superblock`, without the magic number. -/
structure Super where
  size : ℕ
  nblocks : ℕ
  ninodes : ℕ
  nlog : ℕ
  logstart : ℕ
  inodestart : ℕ
  bmapstart : ℕ

/-- `IBLOCK(i, sb)`. -/
def Super.iblock (sb : Super) (i : ℕ) : ℕ := i / IPB + sb.inodestart

/-- `BBLOCK(b, sb)`. -/
def Super.bblock (sb : Super) (b : ℕ) : ℕ := b / BPB + sb.bmapstart

/-- The first data block: the data blocks are the last `nblocks`. -/
def Super.datastart (sb : Super) : ℕ := sb.size - sb.nblocks

/-- The areas of the disk follow each other: inodes, free map, data; and
block numbers are C `int`s. -/
structure Super.Layout (sb : Super) : Prop where
  inodes : ∀ i, i < sb.ninodes → sb.iblock i < sb.bmapstart
  map : ∀ b, b < sb.size → sb.bblock b < sb.datastart
  pos : 0 < sb.datastart
  int : sb.size < 2 ^ 31

/-- `struct dinode`; the in-memory inode has the same fields. -/
@[ext]
structure Dinode where
  type : ℕ
  major : ℕ
  minor : ℕ
  nlink : ℕ
  size : ℕ
  addrs : Fin (NDIRECT + 1) → ℕ
deriving DecidableEq

namespace Dinode

/-- `addrs[q]`. -/
def addr (d : Dinode) (q : ℕ) : ℕ := if h : q < NDIRECT + 1 then d.addrs ⟨q, h⟩ else 0

/-- `addrs[q] = a`. -/
def setAddr (d : Dinode) (q a : ℕ) : Dinode :=
  { d with addrs := fun j => if j.val = q then a else d.addrs j }

/-- What `memset(dip, 0, sizeof(*dip))` leaves. -/
def zero : Dinode := ⟨0, 0, 0, 0, 0, fun _ => 0⟩

/-- The fields fit their C types. -/
structure InRange (d : Dinode) : Prop where
  type : d.type < 2 ^ 16
  major : d.major < 2 ^ 16
  minor : d.minor < 2 ^ 16
  nlink : d.nlink < 2 ^ 16
  size : d.size < 2 ^ 32
  addr : ∀ q, d.addr q < 2 ^ 32

theorem addr_setAddr {d : Dinode} {q a : ℕ} (h : q ≤ NDIRECT) (r : ℕ) :
    (d.setAddr q a).addr r = if r = q then a else d.addr r := by
  unfold addr setAddr
  by_cases hr : r < NDIRECT + 1
  · rw [dif_pos hr, dif_pos hr]
  · rw [dif_neg hr, dif_neg hr, if_neg (by omega)]

theorem addr_zero (q : ℕ) : zero.addr q = 0 := by
  unfold addr zero
  split <;> rfl

end Dinode

end Fs

namespace Block

open Fs

/-! ### Arrays of words -/

/-- `f 0 .. f (n - 1)` stored as `uint`s from offset `o` on. -/
def putWords (b : Block) (o : ℕ) (f : ℕ → ℕ) : ℕ → Block
  | 0 => b
  | n + 1 => (putWords b o f n).wr (o + 4 * n) 4 (f n)

theorem rd_putWords_disjoint {b : Block} {o : ℕ} {f : ℕ → ℕ} {p w : ℕ} (hp : p + w ≤ BSIZE) :
    ∀ n, p + w ≤ o ∨ o + 4 * n ≤ p → (putWords b o f n).rd p w = b.rd p w
  | 0, _ => rfl
  | n + 1, h => by
    rw [putWords, rd_wr_disjoint hp (by omega), rd_putWords_disjoint hp n (by omega)]

theorem rd_putWords {b : Block} {o : ℕ} {f : ℕ → ℕ} {i : ℕ} :
    ∀ n, o + 4 * n ≤ BSIZE → i < n → (putWords b o f n).rd (o + 4 * i) 4 = f i % 2 ^ 32
  | n + 1, hn, hi => by
    rw [putWords]
    rcases Nat.lt_succ_iff_lt_or_eq.mp hi with h | h
    · rw [rd_wr_disjoint (by omega) (by omega), rd_putWords n (by omega) h]
    · rw [h, rd_wr (by omega)]
      rfl

/-! ### Inode blocks -/

/-- Inode `k` of an inode block. -/
def dinode (b : Block) (k : ℕ) : Dinode where
  type := b.rd (64 * k) 2
  major := b.rd (64 * k + 2) 2
  minor := b.rd (64 * k + 4) 2
  nlink := b.rd (64 * k + 6) 2
  size := b.rd (64 * k + 8) 4
  addrs := fun q => b.rd (64 * k + 12 + 4 * q) 4

/-- The inode block with inode `k` overwritten by `d`. -/
def putDinode (b : Block) (k : ℕ) (d : Dinode) : Block :=
  (((((b.wr (64 * k) 2 d.type).wr (64 * k + 2) 2 d.major).wr (64 * k + 4) 2 d.minor).wr
    (64 * k + 6) 2 d.nlink).wr (64 * k + 8) 4 d.size).putWords (64 * k + 12) d.addr (NDIRECT + 1)

theorem dinode_inRange (b : Block) (k : ℕ) : (b.dinode k).InRange where
  type := b.rd_lt _ 2
  major := b.rd_lt _ 2
  minor := b.rd_lt _ 2
  nlink := b.rd_lt _ 2
  size := b.rd_lt _ 4
  addr q := by
    unfold Dinode.addr
    split
    · exact b.rd_lt _ 4
    · exact Nat.two_pow_pos 32

theorem dinode_zero (k : ℕ) : Block.zero.dinode k = Dinode.zero := by
  simp [dinode, Dinode.zero]

/-- A field of another inode, or of no inode, is not touched. -/
theorem rd_putDinode_disjoint {b : Block} {k : ℕ} {d : Dinode} {p w : ℕ} (hp : p + w ≤ BSIZE)
    (h : p + w ≤ 64 * k ∨ 64 * k + 64 ≤ p) : (b.putDinode k d).rd p w = b.rd p w := by
  rw [putDinode, rd_putWords_disjoint hp _ (by simp only [NDIRECT]; omega),
    rd_wr_disjoint hp (by omega), rd_wr_disjoint hp (by omega), rd_wr_disjoint hp (by omega),
    rd_wr_disjoint hp (by omega), rd_wr_disjoint hp (by omega)]

theorem dinode_putDinode_ne {b : Block} {k j : ℕ} {d : Dinode} (hj : j < IPB) (h : j ≠ k) :
    (b.putDinode k d).dinode j = b.dinode j := by
  have hj' : j < 16 := hj
  have hrd : ∀ p w, 64 * j ≤ p → p + w ≤ 64 * j + 64 → (b.putDinode k d).rd p w = b.rd p w :=
    fun p w h1 h2 => rd_putDinode_disjoint (by unfold BSIZE; omega) (by omega)
  apply Dinode.ext
  · exact hrd _ _ (by omega) (by omega)
  · exact hrd _ _ (by omega) (by omega)
  · exact hrd _ _ (by omega) (by omega)
  · exact hrd _ _ (by omega) (by omega)
  · exact hrd _ _ (by omega) (by omega)
  · funext q
    have := q.2
    unfold NDIRECT at this
    exact hrd _ _ (by omega) (by omega)

theorem dinode_putDinode {b : Block} {k : ℕ} {d : Dinode} (hk : k < IPB) (hd : d.InRange) :
    (b.putDinode k d).dinode k = d := by
  have hk' : 64 * k + 64 ≤ BSIZE := by
    have : k < 16 := hk
    unfold BSIZE
    omega
  -- a field is stored once, and neither the later fields nor the words meet it
  unfold putDinode
  apply Dinode.ext <;> simp only [dinode]
  · rw [rd_putWords_disjoint (by omega) _ (by omega), rd_wr_disjoint (by omega) (by omega),
      rd_wr_disjoint (by omega) (by omega), rd_wr_disjoint (by omega) (by omega),
      rd_wr_disjoint (by omega) (by omega), rd_wr (by omega)]
    exact Nat.mod_eq_of_lt hd.type
  · rw [rd_putWords_disjoint (by omega) _ (by omega), rd_wr_disjoint (by omega) (by omega),
      rd_wr_disjoint (by omega) (by omega), rd_wr_disjoint (by omega) (by omega), rd_wr (by omega)]
    exact Nat.mod_eq_of_lt hd.major
  · rw [rd_putWords_disjoint (by omega) _ (by omega), rd_wr_disjoint (by omega) (by omega),
      rd_wr_disjoint (by omega) (by omega), rd_wr (by omega)]
    exact Nat.mod_eq_of_lt hd.minor
  · rw [rd_putWords_disjoint (by omega) _ (by omega), rd_wr_disjoint (by omega) (by omega),
      rd_wr (by omega)]
    exact Nat.mod_eq_of_lt hd.nlink
  · rw [rd_putWords_disjoint (by omega) _ (by omega), rd_wr (by omega)]
    exact Nat.mod_eq_of_lt hd.size
  · funext q
    rw [rd_putWords _ (by unfold NDIRECT; omega) q.2, Nat.mod_eq_of_lt (hd.addr q), Dinode.addr,
      dif_pos q.2]

/-! ### Free map blocks -/

/-- `m = 1 << (bi % 8)`. -/
def bmask (bi : ℕ) : UInt8 := 1 <<< (UInt8.ofNat (bi % 8))

/-- Bit `bi` of a free map block. -/
def isset (b : Block) (bi : ℕ) : Bool := b.get (bi / 8) &&& bmask bi ≠ 0

/-- `bp->data[bi/8] |= m`. -/
def mark (b : Block) (bi : ℕ) : Block :=
  of (Function.update b.get (bi / 8) (b.get (bi / 8) ||| bmask bi))

/-- `bp->data[bi/8] &= ~m`. -/
def unmark (b : Block) (bi : ℕ) : Block :=
  of (Function.update b.get (bi / 8) (b.get (bi / 8) &&& ~~~bmask bi))

theorem bmask_toNat (bi : ℕ) : (bmask bi).toNat = 2 ^ (bi % 8) := by
  have h : ∀ i : Fin 8, ((1 : UInt8) <<< (UInt8.ofNat i)).toNat = 2 ^ i.val := by decide
  exact h ⟨bi % 8, Nat.mod_lt _ (by decide)⟩

/-- The test `(bp->data[bi/8] & m) == 0` reads bit `bi % 8`. -/
theorem isset_eq (b : Block) (bi : ℕ) : b.isset bi = (b.get (bi / 8)).toNat.testBit (bi % 8) := by
  have h : (b.get (bi / 8) &&& bmask bi).toNat =
      ((b.get (bi / 8)).toNat.testBit (bi % 8)).toNat * 2 ^ (bi % 8) := by
    rw [UInt8.toNat_and, bmask_toNat, Nat.and_two_pow]
  have h0 : b.get (bi / 8) &&& bmask bi = 0 ↔ (b.get (bi / 8)).toNat.testBit (bi % 8) = false := by
    rw [← UInt8.toNat_inj, h]
    simp
  simp [isset, h0]

/-- Two bits of one byte are told apart by their position in it. -/
theorem isset_of_update {b : Block} {bi bj : ℕ} {x : UInt8} (hj : bj < BPB) :
    (of (Function.update b.get (bi / 8) x)).isset bj =
      if bj / 8 = bi / 8 then x.toNat.testBit (bj % 8) else b.isset bj := by
  have hlt : bj / 8 < BSIZE := by
    unfold BPB at hj
    omega
  rw [isset_eq, get_of hlt]
  by_cases h : bj / 8 = bi / 8
  · rw [if_pos h, h, Function.update_self]
  · rw [if_neg h, Function.update_of_ne h, isset_eq]

theorem isset_mark {b : Block} {bi bj : ℕ} (hj : bj < BPB) :
    (b.mark bi).isset bj = (bj = bi || b.isset bj) := by
  rw [mark, isset_of_update hj]
  by_cases h : bj / 8 = bi / 8
  · have hmod : bi % 8 = bj % 8 ↔ bj = bi := by omega
    rw [if_pos h, UInt8.toNat_or, bmask_toNat, Nat.testBit_or, Nat.testBit_two_pow, ← h, ← isset_eq]
    simp only [hmod, Bool.or_comm]
  · have hne : bj ≠ bi := fun e => h (e ▸ rfl)
    simp [h, hne]

theorem isset_unmark {b : Block} {bi bj : ℕ} (hj : bj < BPB) :
    (b.unmark bi).isset bj = (bj ≠ bi && b.isset bj) := by
  rw [unmark, isset_of_update hj]
  by_cases h : bj / 8 = bi / 8
  · have hmod : bi % 8 = bj % 8 ↔ bj = bi := by omega
    have hlt : bj % 8 < 8 := Nat.mod_lt _ (by decide)
    have hnot : (~~~bmask bi).toNat.testBit (bj % 8) = !decide (bj = bi) := by
      have hpow : 2 ^ (bi % 8) < 2 ^ 8 := Nat.pow_lt_pow_right (by decide) (Nat.mod_lt _ (by decide))
      have hsub : UInt8.size - 1 - 2 ^ (bi % 8) = 2 ^ 8 - (2 ^ (bi % 8) + 1) := by
        simp only [UInt8.size]
        omega
      rw [UInt8.toNat_not, bmask_toNat, hsub, Nat.testBit_two_pow_sub_succ hpow, Nat.testBit_two_pow]
      simp [hlt, hmod]
    rw [if_pos h, UInt8.toNat_and, Nat.testBit_and, hnot, ← h, ← isset_eq]
    simp [Bool.and_comm]
  · have hne : bj ≠ bi := fun e => h (e ▸ rfl)
    simp [h, hne]

end Block

end Xv6
