/-
# Formatted output

`printf` of the kernel and `vprintf` of the user library. The two share the chain of
tests that reads a directive (`conv`) and the way an integer is printed: its digits go
into a buffer of 16 bytes, lowest first, and come out backwards (`printintOf`). They
differ in the type of that integer, `long long` in the kernel and `int` in the library,
and in the digits. An access outside the buffer is `Stop.fault`, as is a `va_arg` of
another type than the argument's. The lock of the kernel's `printf` is left out.

`printintOf` prints the numeral of its word with its sign if that has at most 16
characters, and goes past the buffer otherwise (`printintOf_eq`).

Key definitions: `Printf.printintOf`, `Printf.conv`, `Printf.Kernel.printf`, `Printf.User.vprintf`.
Key theorems: `Printf.printintOf_eq`, `Printf.image_eq`.
-/
import Xv6.Basic
import Xv6.Numeral
import Mathlib.Data.List.GetD

namespace Xv6
namespace Printf

open Numeral

/-! ### The code -/

/-- `char buf[16]`. -/
def BUFSIZE : ℕ := 16

abbrev Buf := ℕ → UInt8

def store (buf : Buf) (i : ℕ) (c : UInt8) : Except Stop Buf :=
  if i < BUFSIZE then .ok (Function.update buf i c) else .error .fault

def load (buf : Buf) (i : ℕ) : Except Stop UInt8 := if i < BUFSIZE then .ok (buf i) else .error .fault

def minus : UInt8 := 45
def percent : UInt8 := 37

/-- `do { buf[i++] = digits[x % base]; } while((x /= base) != 0);` -/
def digitLoop (digits : List UInt8) (base : ℕ) : ℕ → ℕ → ℕ → Buf → Except Stop (ℕ × Buf)
  | 0, _, _, _ => .error .blocked
  | f + 1, x, i, buf => do
    let buf ← store buf i (digits.getD (x % base) 0)
    if x / base ≠ 0 then digitLoop digits base f (x / base) (i + 1) buf else .ok (i + 1, buf)

/-- `while(--i >= 0) putc(buf[i]);` -/
def putLoop (buf : Buf) : ℕ → Except Stop (List UInt8)
  | 0 => .ok []
  | i + 1 => do
    let c ← load buf i
    let out ← putLoop buf i
    .ok (c :: out)

/-- `printint`, with an unsigned word `x` of `bits` bits: `-xx` is taken modulo the word, also
for the most negative `xx`. -/
def printintOf (bits : ℕ) (digits : List UInt8) (xx : ℤ) (base : ℕ) (sign : Bool) : Except Stop (List UInt8) := do
  let neg := sign && decide (xx < 0)
  let x := ((if neg then -xx else xx) % 2 ^ bits).toNat
  let (i, buf) ← digitLoop digits base bits x 0 fun _ => 0
  if neg then
    let buf ← store buf i minus
    putLoop buf (i + 1)
  else putLoop buf i

/-- The loop of `printptr`, over the digits from the highest. -/
def ptrLoop (digits : List UInt8) : ℕ → BitVec 64 → List UInt8
  | 0, _ => []
  | n + 1, x => digits.getD (x >>> 60).toNat 0 :: ptrLoop digits n (x <<< 4)

def printptr (digits : List UInt8) (x : BitVec 64) : List UInt8 := chars ['0', 'x'] ++ ptrLoop digits 16 x

/-- An argument after the format. A string is given by what it points to. -/
inductive Arg
  | int (v : BitVec 32)
  | long (v : BitVec 64)
  | str (s : Option (List UInt8))

/-- `va_arg(ap, int)`. -/
def argInt : List Arg → Except Stop (BitVec 32 × List Arg)
  | .int v :: args => .ok (v, args)
  | _ => .error .fault

/-- `va_arg(ap, uint64)`. -/
def argLong : List Arg → Except Stop (BitVec 64 × List Arg)
  | .long v :: args => .ok (v, args)
  | _ => .error .fault

/-- `va_arg(ap, char*)`. -/
def argStr : List Arg → Except Stop (Option (List UInt8) × List Arg)
  | .str s :: args => .ok (s, args)
  | _ => .error .fault

inductive Conv
  | num (long : Bool) (base : ℕ) (sign : Bool)
  | ptr
  | str
  | percent
  | stop
  | unknown
  deriving DecidableEq

/-- What the characters after a `%` ask for, and how many more of them than one they are. -/
def conv (c0 c1 c2 : UInt8) : Conv × ℕ :=
  if c0 = 'd'.toUInt8 then (.num false 10 true, 0)
  else if c0 = 'l'.toUInt8 ∧ c1 = 'd'.toUInt8 then (.num true 10 true, 1)
  else if c0 = 'l'.toUInt8 ∧ c1 = 'l'.toUInt8 ∧ c2 = 'd'.toUInt8 then (.num true 10 true, 2)
  else if c0 = 'u'.toUInt8 then (.num false 10 false, 0)
  else if c0 = 'l'.toUInt8 ∧ c1 = 'u'.toUInt8 then (.num true 10 false, 1)
  else if c0 = 'l'.toUInt8 ∧ c1 = 'l'.toUInt8 ∧ c2 = 'u'.toUInt8 then (.num true 10 false, 2)
  else if c0 = 'x'.toUInt8 then (.num false 16 false, 0)
  else if c0 = 'l'.toUInt8 ∧ c1 = 'x'.toUInt8 then (.num true 16 false, 1)
  else if c0 = 'l'.toUInt8 ∧ c1 = 'l'.toUInt8 ∧ c2 = 'x'.toUInt8 then (.num true 16 false, 2)
  else if c0 = 'p'.toUInt8 then (.ptr, 0)
  else if c0 = 's'.toUInt8 then (.str, 0)
  else if c0 = '%'.toUInt8 then (.percent, 0)
  else if c0 = 0 then (.stop, 0)
  else (.unknown, 0)

/-- What the two libraries have of their own: the width of `printint`'s words, the conversion
of a `uint64` to its parameter, and the digits. -/
structure Lib where
  bits : ℕ
  narrow : BitVec 64 → ℤ
  digits : List UInt8

def Lib.printint (L : Lib) (xx : ℤ) (base : ℕ) (sign : Bool) : Except Stop (List UInt8) :=
  printintOf L.bits L.digits xx base sign

/-- The output for a directive that began with `c0`, and the arguments left. -/
def Lib.convert (L : Lib) (c0 : UInt8) (args : List Arg) : Conv → Except Stop (List UInt8 × List Arg)
  | .num false base sign => do
    let (v, args) ← argInt args
    let out ← L.printint v.toInt base sign
    .ok (out, args)
  | .num true base sign => do
    let (v, args) ← argLong args
    let out ← L.printint (L.narrow v) base sign
    .ok (out, args)
  | .ptr => do
    let (v, args) ← argLong args
    .ok (printptr L.digits v, args)
  | .str => do
    let (s, args) ← argStr args
    .ok (s.getD (chars ['(', 'n', 'u', 'l', 'l', ')']), args)
  | .percent => .ok ([percent], args)
  | .stop | .unknown => .ok ([percent, c0], args)

/-- `kernel/printf.c`: `printint` takes a `long long`. -/
def Kernel.lib : Lib :=
  ⟨64, BitVec.toInt, chars ['0', '1', '2', '3', '4', '5', '6', '7', '8', '9', 'a', 'b', 'c', 'd', 'e', 'f']⟩

/-- `user/printf.c`: `printint` takes an `int`. -/
def User.lib : Lib :=
  ⟨32, fun v => (v.setWidth 32).toInt,
    chars ['0', '1', '2', '3', '4', '5', '6', '7', '8', '9', 'A', 'B', 'C', 'D', 'E', 'F']⟩

/-- The character at offset `k` if `c` is not the NUL. -/
def lookahead (c : UInt8) (fmt : List UInt8) (k : ℕ) : UInt8 := if c ≠ 0 then fmt.getD k 0 else 0

/-- The loop of the kernel's `printf`, over the format before its NUL. -/
def Kernel.printfLoop : ℕ → List UInt8 → List Arg → Except Stop (List UInt8)
  | 0, _, _ => .error .blocked
  | _ + 1, [], _ => .ok []
  | f + 1, cx :: fmt, args =>
    if cx ≠ percent then do
      let out ← Kernel.printfLoop f fmt args
      .ok (cx :: out)
    else
      let c0 := fmt.getD 0 0
      let c1 := lookahead c0 fmt 1
      let c2 := lookahead c1 fmt 2
      let c := conv c0 c1 c2
      if c.1 = .stop then .ok []
      else do
        let (o, args) ← Kernel.lib.convert c0 args c.1
        let out ← Kernel.printfLoop f (fmt.drop (1 + c.2)) args
        .ok (o ++ out)

def Kernel.printf (fmt : List UInt8) (args : List Arg) : Except Stop (List UInt8) :=
  Kernel.printfLoop (fmt.length + 1) fmt args

/-- The loop of `vprintf`; `state` is whether it is after a `%`. -/
def User.vprintfLoop : ℕ → List UInt8 → Bool → List Arg → Except Stop (List UInt8)
  | 0, _, _, _ => .error .blocked
  | _ + 1, [], _, _ => .ok []
  | f + 1, c0 :: fmt, false, args =>
    if c0 = percent then User.vprintfLoop f fmt true args
    else do
      let out ← User.vprintfLoop f fmt false args
      .ok (c0 :: out)
  | f + 1, c0 :: fmt, true, args => do
    let c1 := lookahead c0 fmt 0
    let c2 := lookahead c1 fmt 1
    let c := conv c0 c1 c2
    let (o, args) ← User.lib.convert c0 args c.1
    let out ← User.vprintfLoop f (fmt.drop c.2) false args
    .ok (o ++ out)

def User.vprintf (fmt : List UInt8) (args : List Arg) : Except Stop (List UInt8) :=
  User.vprintfLoop (fmt.length + 1) fmt false args

/-! ### printint -/

/-- The first bytes of the buffer. -/
def Filled (buf : Buf) (l : List UInt8) : Prop := ∀ i, i < l.length → buf i = l.getD i 0

variable {buf : Buf} {l : List UInt8} {digits : List UInt8} {base : ℕ}

theorem Filled.push (h : Filled buf l) (c : UInt8) : Filled (Function.update buf l.length c) (l ++ [c]) := by
  intro i hi
  rw [List.length_append, List.length_singleton] at hi
  by_cases hil : i = l.length
  · rw [hil, Function.update_self, List.getD_append_right _ _ _ _ (Nat.le_refl _), Nat.sub_self]
    rfl
  · have hlt : i < l.length := by omega
    rw [Function.update_of_ne hil, h i hlt, List.getD_append _ _ _ _ hlt]

theorem store_ok {i : ℕ} (h : i < BUFSIZE) (buf : Buf) (c : UInt8) : store buf i c = .ok (Function.update buf i c) := if_pos h

theorem store_fault {i : ℕ} (h : BUFSIZE ≤ i) (buf : Buf) (c : UInt8) : store buf i c = .error .fault :=
  if_neg (Nat.not_lt.mpr h)

/-- The digit characters, lowest first. -/
def lowFirst (digits : List UInt8) (base x : ℕ) : List UInt8 := (numeral (digits.getD · 0) base x).reverse

theorem lowFirst_eq (hb : 1 < base) (x : ℕ) : lowFirst digits base x =
    digits.getD (x % base) 0 :: if x / base = 0 then [] else lowFirst digits base (x / base) := by
  rw [lowFirst, numeral_eq hb, List.reverse_append]
  by_cases hq : x / base = 0
  · rw [if_pos hq, if_pos hq]
    rfl
  · rw [if_neg hq, if_neg hq]
    rfl

/-- The loop fills in the digits, as long as there is room. -/
theorem digitLoop_spec (hb : 1 < base) (f : ℕ) : ∀ (x : ℕ) (l : List UInt8) (buf : Buf), x < 2 ^ f → 0 < f → Filled buf l →
    (l.length + (lowFirst digits base x).length ≤ BUFSIZE → ∃ buf', Filled buf' (l ++ lowFirst digits base x) ∧
      digitLoop digits base f x l.length buf = .ok ((l ++ lowFirst digits base x).length, buf')) ∧
    (BUFSIZE < l.length + (lowFirst digits base x).length → digitLoop digits base f x l.length buf = .error .fault) := by
  induction f with
  | zero => exact fun _ _ _ _ h0 => absurd h0 (Nat.lt_irrefl 0)
  | succ f ih =>
    intro x l buf hx _ hl
    rw [lowFirst_eq hb, digitLoop]
    rcases Nat.lt_or_ge l.length BUFSIZE with hroom | hroom
    · rw [store_ok hroom, ok_bind]
      have hpush := hl.push (digits.getD (x % base) 0)
      by_cases hq : x / base = 0
      · rw [if_pos hq, if_neg (not_not.mpr hq)]
        refine ⟨fun _ => ⟨_, hpush, ?_⟩, fun hbig => ?_⟩
        · rw [List.length_append]
          rfl
        · rw [List.length_singleton] at hbig
          omega
      · rw [if_neg hq, if_pos hq]
        have hsmall : x / base < 2 ^ f := by
          rw [Nat.div_lt_iff_lt_mul (Nat.zero_lt_of_lt hb)]
          calc x < 2 ^ (f + 1) := hx
            _ = 2 ^ f * 2 := Nat.pow_succ ..
            _ ≤ 2 ^ f * base := Nat.mul_le_mul_left _ hb
        have hf : 0 < f := by
          by_contra h0
          rw [Nat.eq_zero_of_not_pos h0, Nat.pow_zero, Nat.lt_one_iff] at hsmall
          exact hq hsmall
        have hnext := ih (x / base) (l ++ [digits.getD (x % base) 0]) _ hsmall hf hpush
        rw [List.length_append, List.length_singleton, List.append_assoc, List.singleton_append] at hnext
        rw [List.length_cons]
        refine ⟨fun hle => hnext.1 (by omega), fun hbig => hnext.2 (by omega)⟩
    · rw [store_fault hroom]
      refine ⟨fun hle => ?_, fun _ => rfl⟩
      rw [List.length_cons] at hle
      omega

theorem putLoop_take (h : Filled buf l) (hl : l.length ≤ BUFSIZE) (n : ℕ) (hn : n ≤ l.length) :
    putLoop buf n = .ok (l.take n).reverse := by
  induction n with
  | zero => rfl
  | succ n ih =>
    have hget : l.getD n 0 = l[n] := List.getD_eq_getElem _ _ hn
    rw [putLoop, load, if_pos (by omega), ok_bind, ih (by omega), ok_bind, h n hn, hget, List.take_succ_eq_append_getElem hn,
      List.reverse_append]
    rfl

theorem putLoop_all (h : Filled buf l) (hl : l.length ≤ BUFSIZE) : putLoop buf l.length = .ok l.reverse := by
  rw [putLoop_take h hl l.length (Nat.le_refl _), List.take_length]

/-- The characters that `printint` is to print: a sign if there is one, and the numeral of the
word. -/
def image (bits : ℕ) (digits : List UInt8) (xx : ℤ) (base : ℕ) (sign : Bool) : List UInt8 :=
  if sign = true ∧ xx < 0 then minus :: numeral (digits.getD · 0) base ((-xx) % 2 ^ bits).toNat
  else numeral (digits.getD · 0) base (xx % 2 ^ bits).toNat

theorem toNat_emod_lt (z : ℤ) (bits : ℕ) : (z % 2 ^ bits).toNat < 2 ^ bits := by
  have hpos : (0 : ℤ) < 2 ^ bits := Int.pow_pos (by decide)
  have hlt := Int.emod_lt_of_pos z hpos
  have hcast : ((2 ^ bits : ℕ) : ℤ) = 2 ^ bits := by norm_cast
  omega

/-- **`printint` prints its word if the characters fit into the buffer.** -/
theorem printintOf_eq (hb : 1 < base) {bits : ℕ} (hbits : 0 < bits) (digits : List UInt8) (xx : ℤ) (sign : Bool) :
    printintOf bits digits xx base sign =
      if (image bits digits xx base sign).length ≤ BUFSIZE then .ok (image bits digits xx base sign) else .error .fault := by
  have hempty : Filled (fun _ => 0) [] := fun i hi => absurd hi (Nat.not_lt_zero i)
  have hloop := fun z : ℤ => @digitLoop_spec digits base hb bits (z % 2 ^ bits).toNat [] (fun _ => 0)
    (toNat_emod_lt z bits) hbits hempty
  simp only [List.length_nil, Nat.zero_add, List.nil_append] at hloop
  have hrev : ∀ x, (lowFirst digits base x).reverse = numeral (digits.getD · 0) base x := fun x => List.reverse_reverse _
  have hlen : ∀ x, (lowFirst digits base x).length = (numeral (digits.getD · 0) base x).length := fun x => List.length_reverse
  rw [printintOf, image]
  by_cases hneg : sign = true ∧ xx < 0
  · have hdec : (sign && decide (xx < 0)) = true := by rw [hneg.1, decide_eq_true hneg.2]; rfl
    rw [if_pos hneg, List.length_cons, ← hlen]
    simp only [hdec, if_true]
    obtain ⟨hfit, hfault⟩ := hloop (-xx)
    by_cases hle : (lowFirst digits base ((-xx) % 2 ^ bits).toNat).length ≤ BUFSIZE
    · obtain ⟨buf, hfill, hr⟩ := hfit hle
      rw [hr, ok_bind]
      dsimp only
      by_cases hroom : (lowFirst digits base ((-xx) % 2 ^ bits).toNat).length + 1 ≤ BUFSIZE
      · have hpush := hfill.push minus
        have hput := putLoop_all hpush (by rw [List.length_append]; exact hroom)
        rw [List.length_append, List.length_singleton, List.reverse_append, hrev] at hput
        rw [if_pos hroom, store_ok hroom, ok_bind]
        exact hput
      · rw [if_neg hroom, store_fault (by omega)]
        rfl
    · rw [hfault (by omega), if_neg (by omega)]
      rfl
  · have hdec : (sign && decide (xx < 0)) = false := by
      rw [Bool.and_eq_false_imp]
      exact fun hs => decide_eq_false fun hlt => hneg ⟨hs, hlt⟩
    rw [if_neg hneg, ← hlen]
    simp only [hdec, Bool.false_eq_true, if_false]
    obtain ⟨hfit, hfault⟩ := hloop xx
    by_cases hle : (lowFirst digits base (xx % 2 ^ bits).toNat).length ≤ BUFSIZE
    · obtain ⟨buf, hfill, hr⟩ := hfit hle
      have hput := putLoop_all hfill hle
      rw [hrev] at hput
      rw [hr, ok_bind, if_pos hle]
      exact hput
    · rw [hfault (by omega), if_neg hle]
      rfl

/-- The integer whose numeral an unsigned word of `bits` bits stands for, or `xx` itself. -/
def seen (bits : ℕ) (xx : ℤ) (sign : Bool) : ℤ := if sign then xx else xx % 2 ^ bits

theorem image_eq {bits : ℕ} (digits : List UInt8) {xx : ℤ} (base : ℕ) (sign : Bool) (hlo : -2 ^ bits < xx) (hhi : xx < 2 ^ bits) :
    image bits digits xx base sign = signed (digits.getD · 0) minus base (seen bits xx sign) := by
  have hpos : (0 : ℤ) < 2 ^ bits := Int.pow_pos (by decide)
  have hmod : 0 ≤ xx % 2 ^ bits := Int.emod_nonneg _ (ne_of_gt hpos)
  rw [image, signed, seen]
  cases sign with
  | false =>
    rw [if_neg fun h => Bool.false_ne_true h.1, if_neg Bool.false_ne_true, if_neg (by omega)]
    congr 1
    omega
  | true =>
    rw [if_pos rfl]
    by_cases hneg : xx < 0
    · rw [if_pos ⟨rfl, hneg⟩, if_pos hneg, Int.emod_eq_of_lt (by omega) (by omega)]
      congr 2
      omega
    · rw [if_neg fun h => hneg h.2, if_neg hneg, Int.emod_eq_of_lt (by omega) hhi]
      congr 1
      omega

end Printf
end Xv6
