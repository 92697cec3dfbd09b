/-
# The two `memmove`s

`kernel/string.c` and `user/ulib.c` each have a `memmove`. Both copy byte by byte,
upwards or downwards, and they choose the direction by different tests: the
kernel goes down only if the destination begins inside the source, the library
whenever the destination does not lie below the source. On ranges that do not
wrap around the address space both are the simultaneous copy.

A loop has copied a part `[lo, hi)` of the destination from the memory before the
call and touched nothing else (`Copied`); going up, a byte of the source is read
before it is overwritten if the source does not lie below the destination or ends
before it, going down if it does not lie above.

Key definitions: `Memmove.Kernel.memmove`, `Memmove.Ulib.memmove`, `Memmove.Copied`.
Key theorems: `Memmove.copied_up`, `Memmove.copied_down`, `Memmove.memmove_simultaneous`.
-/
import Mathlib.Algebra.Order.Ring.Nat
import Mathlib.Tactic.Common

namespace Xv6
namespace Memmove

/-- Memory, a byte at each address. -/
abbrev Mem := UInt64 → UInt8

/-! ### The code -/

/-- `while(n-- > 0) *d++ = *s++;` -/
def up : ℕ → UInt64 → UInt64 → Mem → Mem
  | 0, _, _, m => m
  | n + 1, d, s, m => up n (d + 1) (s + 1) (Function.update m d (m s))

/-- `while(n-- > 0) *--d = *--s;` -/
def down : ℕ → UInt64 → UInt64 → Mem → Mem
  | 0, _, _, m => m
  | n + 1, d, s, m => down n (d - 1) (s - 1) (Function.update m (d - 1) (m (s - 1)))

/-- `memmove` of `kernel/string.c`: the pointer it returns and the memory. -/
def Kernel.memmove (dst src : UInt64) (n : UInt32) (m : Mem) : UInt64 × Mem :=
  if n = 0 then (dst, m)
  else
    let s := src
    let d := dst
    if s < d ∧ d < s + n.toUInt64 then (dst, down n.toNat (d + n.toUInt64) (s + n.toUInt64) m)
    else (dst, up n.toNat d s m)

/-- `memmove` of `user/ulib.c`. -/
def Ulib.memmove (vdst vsrc : UInt64) (n : Int32) (m : Mem) : UInt64 × Mem :=
  let dst := vdst
  let src := vsrc
  if dst < src then (vdst, up n.toInt.toNat dst src m)
  else (vdst, down n.toInt.toNat (dst + n.toInt64.toUInt64) (src + n.toInt64.toUInt64) m)

/-! ### What a loop has copied -/

/-- The bytes `[lo, hi)` of the destination are those of the source in `m0`, and all other
bytes are those of `m0`. -/
def Copied (m0 : Mem) (dst src : UInt64) (lo hi : ℕ) (m : Mem) : Prop :=
  ∀ a : UInt64, m a = if dst.toNat + lo ≤ a.toNat ∧ a.toNat < dst.toNat + hi then m0 (src + (a - dst)) else m0 a

variable {m0 m : Mem} {dst src : UInt64} {lo hi i n : ℕ}

/-- A pointer into a range that does not wrap. -/
theorem toNat_ptr {p : UInt64} (h : p.toNat + i < 2 ^ 64) : (p + UInt64.ofNat i).toNat = p.toNat + i := by
  rw [UInt64.toNat_add, UInt64.toNat_ofNat']
  omega

theorem ptr_succ (p : UInt64) (i : ℕ) : p + UInt64.ofNat i + 1 = p + UInt64.ofNat (i + 1) := by
  rw [UInt64.ofNat_add, UInt64.add_assoc]
  rfl

theorem ptr_pred (p : UInt64) (i : ℕ) : p + UInt64.ofNat (i + 1) - 1 = p + UInt64.ofNat i := by
  rw [← ptr_succ, UInt64.add_sub_cancel]

theorem ptr_sub (p : UInt64) (i : ℕ) : p + UInt64.ofNat i - p = UInt64.ofNat i := by
  rw [UInt64.add_comm, UInt64.add_sub_cancel]

theorem Copied.refl (m0 : Mem) (dst src : UInt64) (lo : ℕ) : Copied m0 dst src lo lo m0 := by
  intro a
  rw [if_neg (by omega)]

/-- One more byte is copied, at one end, which the copy so far has not overwritten. -/
theorem Copied.store (h : Copied m0 dst src lo hi m) (hd : dst.toNat + i < 2 ^ 64) (hs : src.toNat + i < 2 ^ 64)
    (hread : src.toNat + i < dst.toNat + lo ∨ dst.toNat + hi ≤ src.toNat + i) {lo' hi' : ℕ}
    (hends : ∀ j, lo' ≤ j ∧ j < hi' ↔ (lo ≤ j ∧ j < hi) ∨ j = i) :
    Copied m0 dst src lo' hi' (Function.update m (dst + UInt64.ofNat i) (m (src + UInt64.ofNat i))) := by
  intro a
  have hdi := toNat_ptr hd
  have hsi := toNat_ptr hs
  have hrd : m (src + UInt64.ofNat i) = m0 (src + UInt64.ofNat i) := by
    rw [h, hsi, if_neg (by omega)]
  by_cases ha : a = dst + UInt64.ofNat i
  · have hj := (hends i).mpr (Or.inr rfl)
    rw [ha, Function.update_self, hrd, hdi, if_pos (by omega), ptr_sub]
  · have hne : a.toNat ≠ dst.toNat + i := fun he => ha (UInt64.toNat_inj.mp (he.trans hdi.symm))
    rw [Function.update_of_ne ha, h a]
    have hj := hends (a.toNat - dst.toNat)
    by_cases hin : dst.toNat + lo ≤ a.toNat ∧ a.toNat < dst.toNat + hi
    · have hin' := hj.mpr (Or.inl (by omega))
      rw [if_pos hin, if_pos (by omega)]
    · rw [if_neg hin, if_neg]
      rintro ⟨h1, h2⟩
      by_cases hge : dst.toNat ≤ a.toNat
      · rcases hj.mp (by omega) with hc | hc
        · omega
        · omega
      · omega

/-- **Going up**, with `n` bytes to go. -/
theorem copied_up (n : ℕ) (h : Copied m0 dst src 0 i m) (hd : dst.toNat + (i + n) ≤ 2 ^ 64) (hs : src.toNat + (i + n) ≤ 2 ^ 64)
    (hsafe : dst.toNat ≤ src.toNat ∨ src.toNat + (i + n) ≤ dst.toNat) :
    Copied m0 dst src 0 (i + n) (up n (dst + UInt64.ofNat i) (src + UInt64.ofNat i) m) := by
  induction n generalizing i m with
  | zero => exact h
  | succ n ih =>
    have hstore : Copied m0 dst src 0 (i + 1)
        (Function.update m (dst + UInt64.ofNat i) (m (src + UInt64.ofNat i))) :=
      h.store (by omega) (by omega) (by omega) fun j => by omega
    have hnext := ih hstore (by omega) (by omega) (by omega)
    rw [Nat.add_right_comm] at hnext
    rw [up, ptr_succ, ptr_succ]
    exact hnext

/-- **Going down**, with `n` bytes to go. -/
theorem copied_down (n : ℕ) (h : Copied m0 dst src n hi m) (hn : n ≤ hi) (hd : dst.toNat + hi ≤ 2 ^ 64)
    (hs : src.toNat + hi ≤ 2 ^ 64) (hsafe : src.toNat ≤ dst.toNat) :
    Copied m0 dst src 0 hi (down n (dst + UInt64.ofNat n) (src + UInt64.ofNat n) m) := by
  induction n generalizing m with
  | zero => exact h
  | succ n ih =>
    have hstore : Copied m0 dst src n hi (Function.update m (dst + UInt64.ofNat n) (m (src + UInt64.ofNat n))) :=
      h.store (by omega) (by omega) (by omega) fun j => by omega
    rw [down, ptr_pred, ptr_pred]
    exact ih hstore (by omega)

/-! ### The two functions -/

/-- The two ranges of `n` bytes do not wrap around the address space. -/
structure NoWrap (dst src : UInt64) (n : ℕ) : Prop where
  dst : dst.toNat + n ≤ 2 ^ 64
  src : src.toNat + n ≤ 2 ^ 64

theorem up_all (h : NoWrap dst src n) (hsafe : dst.toNat ≤ src.toNat ∨ src.toNat + n ≤ dst.toNat) (m0 : Mem) :
    Copied m0 dst src 0 n (up n dst src m0) := by
  have hup := copied_up n (Copied.refl m0 dst src 0) (by rw [Nat.zero_add]; exact h.dst) (by rw [Nat.zero_add]; exact h.src)
    (by rw [Nat.zero_add]; exact hsafe)
  have h0 : ∀ p : UInt64, p + UInt64.ofNat 0 = p := UInt64.add_zero
  rw [Nat.zero_add, h0, h0] at hup
  exact hup

theorem down_all (h : NoWrap dst src n) (hsafe : src.toNat ≤ dst.toNat) (m0 : Mem) :
    Copied m0 dst src 0 n (down n (dst + UInt64.ofNat n) (src + UInt64.ofNat n) m0) :=
  copied_down n (Copied.refl m0 dst src n) (Nat.le_refl n) h.dst h.src hsafe

theorem kernel_returns (dst src : UInt64) (n : UInt32) (m : Mem) : (Kernel.memmove dst src n m).1 = dst := by
  rw [Kernel.memmove]
  dsimp only
  split
  · rfl
  · split
    · rfl
    · rfl

theorem ulib_returns (vdst vsrc : UInt64) (n : Int32) (m : Mem) : (Ulib.memmove vdst vsrc n m).1 = vdst := by
  rw [Ulib.memmove]
  split
  · rfl
  · rfl

theorem kernel_copies (hn : n < 2 ^ 31) (h : NoWrap dst src n) (m : Mem) :
    Copied m dst src 0 n (Kernel.memmove dst src (.ofNat n) m).2 := by
  have htoNat : (UInt32.ofNat n).toNat = n := by
    rw [UInt32.toNat_ofNat']
    omega
  have hto64 : (UInt32.ofNat n).toUInt64 = UInt64.ofNat n := by
    rw [← UInt64.toNat_inj, UInt32.toNat_toUInt64, htoNat, UInt64.toNat_ofNat']
    omega
  have hd := h.dst
  rw [Kernel.memmove]
  split
  · next h0 =>
    have hn0 : n = 0 := by
      rw [← htoNat, h0]
      rfl
    rw [hn0]
    exact Copied.refl m dst src 0
  · dsimp only
    rw [htoNat, hto64]
    split
    · next hin => exact down_all h (Nat.le_of_lt (UInt64.lt_iff_toNat_lt.mp hin.1)) m
    · next hin =>
      refine up_all h ?_ m
      -- if the source lies below, its end does not wrap
      by_contra hc
      have hlt : src.toNat < dst.toNat := by omega
      refine hin ⟨UInt64.lt_iff_toNat_lt.mpr hlt, UInt64.lt_iff_toNat_lt.mpr ?_⟩
      rw [toNat_ptr (by omega)]
      omega

theorem ulib_copies (hn : n < 2 ^ 31) (h : NoWrap dst src n) (m : Mem) :
    Copied m dst src 0 n (Ulib.memmove dst src (.ofNat n) m).2 := by
  have htoInt : (Int32.ofNat n).toInt = n := Int32.toInt_ofNat_of_lt hn
  have hto64 : (Int32.ofNat n).toInt64.toUInt64 = UInt64.ofNat n := by
    have h64 : (Int32.ofNat n).toInt64 = Int64.ofNat n := by
      rw [← Int64.toInt_inj, Int32.toInt_toInt64, htoInt, Int64.toInt_ofNat_of_lt (by omega)]
    rw [h64]
    rfl
  rw [Ulib.memmove, htoInt, Int.toNat_natCast, hto64]
  split
  · next hlt => exact up_all h (Or.inl (Nat.le_of_lt (UInt64.lt_iff_toNat_lt.mp hlt))) m
  · next hlt => exact down_all h (Nat.not_lt.mp fun hc => hlt (UInt64.lt_iff_toNat_lt.mpr hc)) m

/-- What was copied, byte by byte. -/
theorem Copied.bytes (h : Copied m0 dst src 0 n m) (hw : NoWrap dst src n) :
    (∀ i, i < n → m (dst + UInt64.ofNat i) = m0 (src + UInt64.ofNat i)) ∧
      ∀ a, (∀ i, i < n → a ≠ dst + UInt64.ofNat i) → m a = m0 a := by
  have hd := hw.dst
  constructor
  · intro i hi
    rw [h, toNat_ptr (by omega), if_pos (by omega), ptr_sub]
  · intro a ha
    rw [h, if_neg]
    rintro ⟨h1, h2⟩
    refine ha (a.toNat - dst.toNat) (by omega) (UInt64.toNat_inj.mp ?_)
    rw [toNat_ptr (by omega)]
    omega

/-- **`memmove` is a simultaneous copy**, in the kernel and in the library, so that the
two agree. -/
theorem memmove_simultaneous (hn : n < 2 ^ 31) (h : NoWrap dst src n) (m : Mem) :
    ((∀ i, i < n → (Kernel.memmove dst src (.ofNat n) m).2 (dst + UInt64.ofNat i) = m (src + UInt64.ofNat i)) ∧
      ∀ a, (∀ i, i < n → a ≠ dst + UInt64.ofNat i) → (Kernel.memmove dst src (.ofNat n) m).2 a = m a) ∧
    ((∀ i, i < n → (Ulib.memmove dst src (.ofNat n) m).2 (dst + UInt64.ofNat i) = m (src + UInt64.ofNat i)) ∧
      ∀ a, (∀ i, i < n → a ≠ dst + UInt64.ofNat i) → (Ulib.memmove dst src (.ofNat n) m).2 a = m a) ∧
    Kernel.memmove dst src (.ofNat n) m = Ulib.memmove dst src (.ofNat n) m := by
  refine ⟨(kernel_copies hn h m).bytes h, (ulib_copies hn h m).bytes h, Prod.ext ?_ (funext fun a => ?_)⟩
  · rw [kernel_returns, ulib_returns]
  · rw [kernel_copies hn h m a, ulib_copies hn h m a]

/-- An overlapping move. -/
theorem memmove_simultaneous_overlap : NoWrap 101 100 3 ∧
    (Kernel.memmove 101 100 (.ofNat 3) UInt64.toUInt8).2 103 = 102 ∧
    Kernel.memmove 101 100 (.ofNat 3) UInt64.toUInt8 = Ulib.memmove 101 100 (.ofNat 3) UInt64.toUInt8 := by
  have h : NoWrap 101 100 3 := ⟨by decide, by decide⟩
  obtain ⟨⟨hk, -⟩, -, heq⟩ := memmove_simultaneous (by decide) h UInt64.toUInt8
  exact ⟨h, hk 2 (by decide), heq⟩

end Memmove
end Xv6
