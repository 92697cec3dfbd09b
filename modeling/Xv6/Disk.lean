/-
# Disk blocks

A disk block is `BSIZE` bytes; `rd` and `wr` are its little-endian fields.
Constants are those of `kernel/fs.h` and `kernel/param.h`.
-/
import Xv6.Bytes

namespace Xv6

def BSIZE : ℕ := 1024
def MAXOPBLOCKS : ℕ := 10
def LOGSIZE : ℕ := MAXOPBLOCKS * 3

/-- `uchar data[BSIZE]`. -/
def Block : Type := Fin BSIZE → UInt8

namespace Block

/-- Byte `i`, for any `i`. -/
def get (b : Block) (i : ℕ) : UInt8 := if h : i < BSIZE then b ⟨i, h⟩ else 0

/-- The block with the bytes of `f`. -/
def of (f : ℕ → UInt8) : Block := fun i => f i

def zero : Block := fun _ => 0

@[simp] theorem get_of {f : ℕ → UInt8} {i : ℕ} (h : i < BSIZE) : (of f).get i = f i := by
  simp [get, of, h]

@[ext] theorem ext {a b : Block} (h : ∀ i < BSIZE, a.get i = b.get i) : a = b := by
  funext i
  simpa [get] using h i i.2

/-- The `w`-byte field at offset `o`. -/
def rd (b : Block) (o w : ℕ) : ℕ := Bytes.le b.get o w

/-- The block with `v` stored in the `w`-byte field at offset `o`. -/
def wr (b : Block) (o w v : ℕ) : Block := of (Bytes.putLe b.get o w v)

theorem rd_lt (b : Block) (o w : ℕ) : b.rd o w < 256 ^ w := Bytes.le_lt _ _ _

theorem rd_of {f : ℕ → UInt8} {o w : ℕ} (h : o + w ≤ BSIZE) : (of f).rd o w = Bytes.le f o w :=
  Bytes.le_congr fun _ _ h2 => get_of (by omega)

theorem rd_wr {b : Block} {o w v : ℕ} (h : o + w ≤ BSIZE) : (b.wr o w v).rd o w = v % 256 ^ w := by
  rw [wr, rd_of h, Bytes.le_putLe]

theorem rd_wr_disjoint {b : Block} {o w v o' w' : ℕ} (h : o' + w' ≤ BSIZE)
    (hd : o' + w' ≤ o ∨ o + w ≤ o') : (b.wr o w v).rd o' w' = b.rd o' w' := by
  rw [wr, rd_of h, Bytes.le_putLe_disjoint hd, rd]

@[simp] theorem rd_zero (o w : ℕ) : zero.rd o w = 0 := by
  induction w generalizing o with
  | zero => rfl
  | succ w ih =>
    have h0 : zero.get o = 0 := by simp [get, zero]
    have := ih (o + 1)
    rw [rd] at this
    rw [rd, Bytes.le, h0, this]
    simp

end Block

/-- A 32-bit field as a C `int`. -/
def toInt32 (x : ℕ) : ℤ := if x < 2 ^ 31 then x else x - 2 ^ 32

theorem toInt32_of_lt {x : ℕ} (h : x < 2 ^ 31) : toInt32 x = x := if_pos h

end Xv6
