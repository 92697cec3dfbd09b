/-
# Numbers in formatted output

A format of literal characters and the nine integer directives, with an argument of the
matching type for each, is a list of pieces. Both loops go through it piece by piece
(`Kernel.printf_pieces`, `User.vprintf_pieces`), so a claim about the output of a format
is one about each of its pieces.

The kernel's `printint` has room for 16 characters, but the numeral of a 64-bit word can
have 20: `%lu` of 10^16 goes past the buffer, and so does `%u` of 2^31, whose argument is
taken as an `int` and sign-extended (`Kernel.printf_in_buffer_iff`). For the same reason `%x` of
2^31 prints 16 digits (`Kernel.printf_exact_iff`). The library's `printint` takes an `int`: the
`l` directives print the low 32 bits of their argument (`User.vprintf_exact_iff`).

Key definitions: `Printf.Piece`, `Printf.Exact`.
Key theorems: `Printf.Kernel.printf_in_buffer_iff`, `Printf.Kernel.printf_exact_iff`, `Printf.User.vprintf_exact_iff`.
-/
import Xv6.Printf

namespace Xv6
namespace Printf

open Numeral

/-! ### Formats and what they ask for -/

inductive Letter
  | d
  | u
  | x

def Letter.char : Letter → UInt8
  | .d => 'd'.toUInt8
  | .u => 'u'.toUInt8
  | .x => 'x'.toUInt8

def Letter.base : Letter → ℕ
  | .d | .u => 10
  | .x => 16

def Letter.sign : Letter → Bool
  | .d => true
  | .u | .x => false

/-- The value of a word under a directive with this letter. -/
def Letter.value {w : ℕ} (k : Letter) (v : BitVec w) : ℤ := if k.sign then v.toInt else v.toNat

/-- A literal character, or a directive with its argument. -/
inductive Piece
  | lit (c : UInt8) (h : c ≠ 0 ∧ c ≠ percent)
  | word (k : Letter) (v : BitVec 32)
  | long (ll : Bool) (k : Letter) (v : BitVec 64)

def Piece.text : Piece → List UInt8
  | .lit c _ => [c]
  | .word k _ => [percent, k.char]
  | .long false k _ => [percent, 'l'.toUInt8, k.char]
  | .long true k _ => [percent, 'l'.toUInt8, 'l'.toUInt8, k.char]

def Piece.arg : Piece → List Arg
  | .lit _ _ => []
  | .word _ v => [.int v]
  | .long _ _ v => [.long v]

/-- The characters a piece stands for: the numeral of the argument as a directive reads it. -/
def Piece.rendering (digits : List UInt8) : Piece → List UInt8
  | .lit c _ => [c]
  | .word k v => signed (digits.getD · 0) minus k.base (k.value v)
  | .long _ k v => signed (digits.getD · 0) minus k.base (k.value v)

def text (ps : List Piece) : List UInt8 := ps.flatMap Piece.text

def args (ps : List Piece) : List Arg := ps.flatMap Piece.arg

def rendering (digits : List UInt8) (ps : List Piece) : List UInt8 := ps.flatMap (Piece.rendering digits)

/-- The output is right at every point of the format. -/
def Exact (print : List UInt8 → List Arg → Except Stop (List UInt8)) (digits : List UInt8) (ps : List Piece) : Prop :=
  ∀ pre, pre <+: ps → print (text pre) (args pre) = .ok (rendering digits pre)

/-! ### The output, piece by piece -/

def Lib.output (L : Lib) : Piece → Except Stop (List UInt8)
  | .lit c _ => .ok [c]
  | .word k v => L.printint v.toInt k.base k.sign
  | .long _ k v => L.printint (L.narrow v) k.base k.sign

/-- One output and then another. -/
def andThen (o out : Except Stop (List UInt8)) : Except Stop (List UInt8) := do
  let a ← o
  let b ← out
  .ok (a ++ b)

def Lib.outputs (L : Lib) : List Piece → Except Stop (List UInt8)
  | [] => .ok []
  | p :: ps => andThen (L.output p) (L.outputs ps)

theorem Conv.num_ne_stop (long : Bool) (base : ℕ) (sign : Bool) : Conv.num long base sign ≠ .stop := by
  intro h
  cases h

theorem conv_word (k : Letter) (c1 c2 : UInt8) : conv k.char c1 c2 = (.num false k.base k.sign, 0) := by
  cases k <;> rfl

theorem conv_long (k : Letter) (c2 : UInt8) : conv 'l'.toUInt8 k.char c2 = (.num true k.base k.sign, 1) := by
  cases k <;> rfl

theorem conv_longlong (k : Letter) : conv 'l'.toUInt8 'l'.toUInt8 k.char = (.num true k.base k.sign, 2) := by
  cases k <;> rfl

theorem lookahead_ne {c : UInt8} (h : c ≠ 0) (fmt : List UInt8) (k : ℕ) : lookahead c fmt k = fmt.getD k 0 := if_pos h

/-- What a directive's argument gives. -/
theorem Lib.convert_word (L : Lib) (c0 : UInt8) (k : Letter) (v : BitVec 32) (as : List Arg) :
    L.convert c0 (.int v :: as) (.num false k.base k.sign) =
      L.output (.word k v) >>= fun o => .ok (o, as) := rfl

theorem Lib.convert_long (L : Lib) (c0 : UInt8) (ll : Bool) (k : Letter) (v : BitVec 64) (as : List Arg) :
    L.convert c0 (.long v :: as) (.num true k.base k.sign) =
      L.output (.long ll k v) >>= fun o => .ok (o, as) := rfl

theorem text_cons (p : Piece) (ps : List Piece) : text (p :: ps) = p.text ++ text ps := List.flatMap_cons

theorem args_cons (p : Piece) (ps : List Piece) : args (p :: ps) = p.arg ++ args ps := List.flatMap_cons

/-- A round of the kernel's loop takes a piece. -/
theorem Kernel.printfLoop_piece (f : ℕ) (p : Piece) (fmt : List UInt8) (as : List Arg) :
    Kernel.printfLoop (f + 1) (p.text ++ fmt) (p.arg ++ as) =
      andThen (Kernel.lib.output p) (Kernel.printfLoop f fmt as) := by
  cases p with
  | lit c h =>
    show (if c ≠ percent then _ else _) = _
    rw [if_pos h.2]
    rfl
  | word k v =>
    have hconv := conv_word k (lookahead k.char (k.char :: fmt) 1) (lookahead (lookahead k.char (k.char :: fmt) 1) (k.char :: fmt) 2)
    simp only [Piece.text, Piece.arg, List.cons_append, List.nil_append, Kernel.printfLoop, List.getD_cons_zero, hconv]
    rw [if_neg (by decide), if_neg (Conv.num_ne_stop _ _ _), Lib.convert_word, bind_assoc]
    rfl
  | long ll k v =>
    cases ll with
    | false =>
      have hconv := conv_long k (lookahead k.char ('l'.toUInt8 :: k.char :: fmt) 2)
      simp only [Piece.text, Piece.arg, List.cons_append, List.nil_append, Kernel.printfLoop, List.getD_cons_zero,
        lookahead_ne (show 'l'.toUInt8 ≠ 0 by decide), List.getD_cons_succ, hconv]
      rw [if_neg (by decide), if_neg (Conv.num_ne_stop _ _ _), Lib.convert_long, bind_assoc]
      rfl
    | true =>
      have hconv := conv_longlong k
      simp only [Piece.text, Piece.arg, List.cons_append, List.nil_append, Kernel.printfLoop, List.getD_cons_zero,
        lookahead_ne (show 'l'.toUInt8 ≠ 0 by decide), List.getD_cons_succ, hconv]
      rw [if_neg (by decide), if_neg (Conv.num_ne_stop _ _ _), Lib.convert_long, bind_assoc]
      rfl

theorem Piece.text_length_pos (p : Piece) : 0 < p.text.length := by
  cases p with
  | lit | word => exact Nat.succ_pos _
  | long ll => cases ll <;> exact Nat.succ_pos _

theorem Kernel.printfLoop_pieces (ps : List Piece) : ∀ f, (text ps).length < f →
    Kernel.printfLoop f (text ps) (args ps) = Kernel.lib.outputs ps := by
  induction ps with
  | nil =>
    intro f hf
    obtain ⟨f, rfl⟩ := Nat.exists_eq_add_one_of_ne_zero (Nat.ne_of_gt hf)
    rfl
  | cons p ps ih =>
    intro f hf
    have hp := p.text_length_pos
    rw [text_cons, List.length_append] at hf
    obtain ⟨f, rfl⟩ := Nat.exists_eq_add_one_of_ne_zero (Nat.ne_of_gt (Nat.zero_lt_of_lt hf))
    rw [text_cons, args_cons, Kernel.printfLoop_piece, ih f (by omega)]
    rfl

/-- **The kernel's `printf` prints a format piece by piece.** -/
theorem Kernel.printf_pieces (ps : List Piece) : Kernel.printf (text ps) (args ps) = Kernel.lib.outputs ps :=
  Kernel.printfLoop_pieces ps _ (Nat.lt_succ_self _)

/-- A literal takes a round of the library's loop. -/
theorem User.vprintfLoop_lit {c : UInt8} (h : c ≠ percent) (f : ℕ) (fmt : List UInt8) (as : List Arg) :
    User.vprintfLoop (f + 1) (c :: fmt) false as = andThen (.ok [c]) (User.vprintfLoop f fmt false as) := by
  rw [User.vprintfLoop, if_neg h]
  rfl

/-- A directive takes two. -/
theorem User.vprintfLoop_word (f : ℕ) (k : Letter) (v : BitVec 32) (fmt : List UInt8) (as : List Arg) :
    User.vprintfLoop (f + 2) ((Piece.word k v).text ++ fmt) false (.int v :: as) =
      andThen (User.lib.output (.word k v)) (User.vprintfLoop f fmt false as) := by
  have hconv := conv_word k (lookahead k.char fmt 0) (lookahead (lookahead k.char fmt 0) fmt 1)
  simp only [Piece.text, List.cons_append, List.nil_append, User.vprintfLoop, if_true, hconv]
  rw [Lib.convert_word, bind_assoc]
  rfl

theorem User.vprintfLoop_long (f : ℕ) (ll : Bool) (k : Letter) (v : BitVec 64) (fmt : List UInt8) (as : List Arg) :
    User.vprintfLoop (f + 2) ((Piece.long ll k v).text ++ fmt) false (.long v :: as) =
      andThen (User.lib.output (.long ll k v)) (User.vprintfLoop f fmt false as) := by
  cases ll with
  | false =>
    have hconv := conv_long k (lookahead k.char (k.char :: fmt) 1)
    simp only [Piece.text, List.cons_append, List.nil_append, User.vprintfLoop, if_true,
      lookahead_ne (show 'l'.toUInt8 ≠ 0 by decide), List.getD_cons_zero, hconv]
    rw [Lib.convert_long _ _ false, bind_assoc]
    rfl
  | true =>
    have hconv := conv_longlong k
    simp only [Piece.text, List.cons_append, List.nil_append, User.vprintfLoop, if_true,
      lookahead_ne (show 'l'.toUInt8 ≠ 0 by decide), List.getD_cons_zero, List.getD_cons_succ, hconv]
    rw [Lib.convert_long _ _ true, bind_assoc]
    rfl

theorem User.vprintfLoop_pieces (ps : List Piece) : ∀ f, (text ps).length < f →
    User.vprintfLoop f (text ps) false (args ps) = User.lib.outputs ps := by
  induction ps with
  | nil =>
    intro f hf
    obtain ⟨f, rfl⟩ := Nat.exists_eq_add_one_of_ne_zero (Nat.ne_of_gt hf)
    rfl
  | cons p ps ih =>
    intro f hf
    rw [text_cons, List.length_append] at hf
    rw [text_cons, args_cons, Lib.outputs]
    cases p with
    | lit c h =>
      obtain ⟨f, rfl⟩ := Nat.exists_eq_add_one_of_ne_zero (Nat.ne_of_gt (Nat.zero_lt_of_lt hf))
      rw [← ih f (by rw [Piece.text, List.length_singleton] at hf; omega)]
      exact User.vprintfLoop_lit h.2 f (text ps) (args ps)
    | word k v =>
      rw [Piece.text, List.length_cons, List.length_singleton] at hf
      obtain ⟨f, rfl⟩ : ∃ g, f = g + 2 := ⟨f - 2, by omega⟩
      rw [← ih f (by omega)]
      exact User.vprintfLoop_word f k v (text ps) (args ps)
    | long ll k v =>
      have hlen : 2 ≤ (Piece.long ll k v).text.length := by cases ll <;> exact Nat.le_add_left 2 _
      obtain ⟨f, rfl⟩ : ∃ g, f = g + 2 := ⟨f - 2, by omega⟩
      rw [← ih f (by omega)]
      exact User.vprintfLoop_long f ll k v (text ps) (args ps)

/-- **`vprintf` prints a format piece by piece.** -/
theorem User.vprintf_pieces (ps : List Piece) : User.vprintf (text ps) (args ps) = User.lib.outputs ps :=
  User.vprintfLoop_pieces ps _ (Nat.lt_succ_self _)

/-! ### From pieces to formats -/

variable {L : Lib}

theorem andThen_ok {o out : Except Stop (List UInt8)} {r : List UInt8} (h : andThen o out = .ok r) :
    ∃ a b, o = .ok a ∧ out = .ok b ∧ r = a ++ b := by
  obtain ⟨a, ha, h⟩ := bind_ok h
  obtain ⟨b, hb, h⟩ := bind_ok h
  cases h
  exact ⟨a, b, ha, hb, rfl⟩

theorem Lib.outputs_append (ps qs : List Piece) : L.outputs (ps ++ qs) = andThen (L.outputs ps) (L.outputs qs) := by
  induction ps with
  | nil =>
    rw [List.nil_append, Lib.outputs, andThen, ok_bind]
    cases L.outputs qs <;> rfl
  | cons p ps ih =>
    rw [List.cons_append, Lib.outputs, Lib.outputs, ih]
    cases L.output p with
    | error => rfl
    | ok a =>
      cases L.outputs ps with
      | error => rfl
      | ok b =>
        cases L.outputs qs with
        | error => rfl
        | ok c => exact congrArg _ (List.append_assoc a b c).symm

/-- A format is printed to its end iff each of its pieces is. -/
theorem Lib.outputs_returns (ps : List Piece) : (∃ out, L.outputs ps = .ok out) ↔ ∀ p ∈ ps, ∃ o, L.output p = .ok o := by
  induction ps with
  | nil => exact iff_of_true ⟨[], rfl⟩ fun p hp => absurd hp List.not_mem_nil
  | cons p ps ih =>
    rw [List.forall_mem_cons, ← ih]
    constructor
    · rintro ⟨out, h⟩
      obtain ⟨a, b, ha, hb, -⟩ := andThen_ok h
      exact ⟨⟨a, ha⟩, b, hb⟩
    · rintro ⟨⟨a, ha⟩, b, hb⟩
      refine ⟨a ++ b, ?_⟩
      rw [Lib.outputs, ha, hb]
      rfl

theorem rendering_append (digits : List UInt8) (ps qs : List Piece) :
    rendering digits (ps ++ qs) = rendering digits ps ++ rendering digits qs := List.flatMap_append

theorem Lib.outputs_rendering {digits : List UInt8} {ps : List Piece} (h : ∀ p ∈ ps, L.output p = .ok (p.rendering digits)) :
    L.outputs ps = .ok (rendering digits ps) := by
  induction ps with
  | nil => rfl
  | cons p ps ih =>
    rw [List.forall_mem_cons] at h
    rw [Lib.outputs, h.1, ih h.2]
    rfl

/-- The output is right at every point of a format iff it is right for each piece. -/
theorem exact_pieces {print : List UInt8 → List Arg → Except Stop (List UInt8)} (digits : List UInt8)
    (hprint : ∀ ps, print (text ps) (args ps) = L.outputs ps) (ps : List Piece) :
    Exact print digits ps ↔ ∀ p ∈ ps, L.output p = .ok (p.rendering digits) := by
  constructor
  · intro h p hp
    obtain ⟨pre, post, rfl⟩ := List.append_of_mem hp
    have hpre := h pre (List.prefix_append _ _)
    have hnext := h (pre ++ [p]) ⟨post, by rw [List.append_assoc]; rfl⟩
    rw [hprint] at hpre hnext
    rw [Lib.outputs_append, hpre, rendering_append] at hnext
    obtain ⟨a, b, ha, hb, heq⟩ := andThen_ok hnext
    cases ha
    obtain ⟨o, e, ho, he, hoe⟩ := andThen_ok hb
    cases he
    have hsingle : rendering digits [p] = p.rendering digits := List.flatMap_singleton ..
    rw [ho, ← hsingle, List.append_cancel_left heq, hoe, List.append_nil]
  · intro h pre hpre
    rw [hprint]
    exact Lib.outputs_rendering fun p hp => h p (hpre.subset hp)

/-! ### Each piece -/

/-- The digits are apart from each other and from the sign. -/
structure Lib.Readable (L : Lib) : Prop where
  bits_pos : 0 < L.bits
  digits_apart : ∀ x < 16, ∀ y < 16, L.digits.getD x 0 = L.digits.getD y 0 → x = y
  sign_apart : ∀ x < 16, L.digits.getD x 0 ≠ minus

theorem Kernel.readable : Kernel.lib.Readable := ⟨by decide, by decide, by decide⟩

theorem User.readable : User.lib.Readable := ⟨by decide, by decide, by decide⟩

theorem Letter.base_bounds (k : Letter) : 1 < k.base ∧ k.base ≤ 16 := by
  cases k <;> decide

/-- A number of at most 16 characters, the sign among them. -/
def Letter.Short (k : Letter) (z : ℤ) : Prop := -(k.base : ℤ) ^ 15 < z ∧ z < (k.base : ℤ) ^ 16

theorem Lib.printint_eq (hbits : 0 < L.bits) {xx : ℤ} (hlo : -2 ^ L.bits < xx) (hhi : xx < 2 ^ L.bits) (k : Letter) :
    (k.Short (seen L.bits xx k.sign) → L.printint xx k.base k.sign =
      .ok (signed (L.digits.getD · 0) minus k.base (seen L.bits xx k.sign))) ∧
    (¬k.Short (seen L.bits xx k.sign) → L.printint xx k.base k.sign = .error .fault) := by
  have hlen : (signed (L.digits.getD · 0) minus k.base (seen L.bits xx k.sign)).length ≤ BUFSIZE ↔
      k.Short (seen L.bits xx k.sign) := length_signed_le k.base_bounds.1 (by decide) _
  rw [Lib.printint, printintOf_eq k.base_bounds.1 hbits, image_eq L.digits k.base k.sign hlo hhi]
  exact ⟨fun h => if_pos (hlen.mpr h), fun h => if_neg fun hle => h (hlen.mp hle)⟩

/-- `printint` returns iff its number is short. -/
theorem Lib.Readable.returns_iff (h : L.Readable) {xx : ℤ} (hlo : -2 ^ L.bits < xx) (hhi : xx < 2 ^ L.bits) (k : Letter) :
    (∃ o, L.printint xx k.base k.sign = .ok o) ↔ k.Short (seen L.bits xx k.sign) := by
  obtain ⟨hok, hfault⟩ := Lib.printint_eq h.bits_pos hlo hhi k
  constructor
  · rintro ⟨o, ho⟩
    by_contra hlong
    rw [hfault hlong] at ho
    cases ho
  · exact fun hs => ⟨_, hok hs⟩

/-- `printint` prints a given number iff it sees that one and it is short. -/
theorem Lib.Readable.prints_iff (h : L.Readable) {xx : ℤ} (hlo : -2 ^ L.bits < xx) (hhi : xx < 2 ^ L.bits) (k : Letter) (z : ℤ) :
    L.printint xx k.base k.sign = .ok (signed (L.digits.getD · 0) minus k.base z) ↔ seen L.bits xx k.sign = z ∧ k.Short z := by
  obtain ⟨hok, -⟩ := Lib.printint_eq h.bits_pos hlo hhi k
  obtain ⟨hb1, hb2⟩ := k.base_bounds
  constructor
  · intro hz
    have hs := (h.returns_iff hlo hhi k).mp ⟨_, hz⟩
    rw [hok hs] at hz
    have heq := signed_inj hb1 (fun x y hx hy => h.digits_apart x (by omega) y (by omega)) (fun x hx => h.sign_apart x (by omega))
      (Except.ok.inj hz)
    exact ⟨heq, heq ▸ hs⟩
  · rintro ⟨rfl, hs⟩
    exact hok hs

/-- A 32-bit word, as an `int` and as an unsigned number. -/
theorem word_bounds (v : BitVec 32) :
    v.toInt = (if v.toNat < 2 ^ 31 then (v.toNat : ℤ) else v.toNat - 2 ^ 32) ∧ v.toNat < 2 ^ 32 := by
  have hlt := v.isLt
  rw [BitVec.toInt_eq_toNat_cond]
  exact ⟨by split_ifs <;> omega, hlt⟩

theorem long_bounds (v : BitVec 64) :
    v.toInt = (if v.toNat < 2 ^ 63 then (v.toNat : ℤ) else v.toNat - 2 ^ 64) ∧ v.toNat < 2 ^ 64 := by
  have hlt := v.isLt
  rw [BitVec.toInt_eq_toNat_cond]
  exact ⟨by split_ifs <;> omega, hlt⟩

/-! ### The kernel -/

namespace Kernel

/-- The arguments whose numeral fits into the kernel's buffer. -/
def InBuffer : Piece → Prop
  | .word .u v => v.toNat < 2 ^ 31
  | .long _ .d v => -10 ^ 15 < v.toInt ∧ v.toInt < 10 ^ 16
  | .long _ .u v => v.toNat < 10 ^ 16
  | _ => True

theorem returns_iff (p : Piece) : (∃ o, lib.output p = .ok o) ↔ InBuffer p := by
  cases p with
  | lit c h => exact iff_of_true ⟨[c], rfl⟩ trivial
  | word k v =>
    obtain ⟨hint, hlt⟩ := word_bounds v
    rw [Lib.output, readable.returns_iff (by rw [hint]; show -2 ^ 64 < _; split_ifs <;> omega)
      (by rw [hint]; show _ < 2 ^ 64; split_ifs <;> omega)]
    cases k with
    | d =>
      refine iff_of_true ?_ trivial
      show -10 ^ 15 < v.toInt ∧ v.toInt < 10 ^ 16
      rw [hint]
      split_ifs <;> omega
    | u =>
      show -10 ^ 15 < v.toInt % 2 ^ 64 ∧ v.toInt % 2 ^ 64 < 10 ^ 16 ↔ v.toNat < 2 ^ 31
      rw [hint]
      split_ifs <;> omega
    | x =>
      refine iff_of_true ?_ trivial
      show -16 ^ 15 < v.toInt % 2 ^ 64 ∧ v.toInt % 2 ^ 64 < 16 ^ 16
      omega
  | long ll k v =>
    obtain ⟨hint, hlt⟩ := long_bounds v
    rw [Lib.output, readable.returns_iff (by show -2 ^ 64 < v.toInt; rw [hint]; split_ifs <;> omega)
      (by show v.toInt < 2 ^ 64; rw [hint]; split_ifs <;> omega)]
    cases k with
    | d => exact Iff.rfl
    | u =>
      show -10 ^ 15 < v.toInt % 2 ^ 64 ∧ v.toInt % 2 ^ 64 < 10 ^ 16 ↔ v.toNat < 10 ^ 16
      rw [hint]
      split_ifs <;> omega
    | x =>
      refine iff_of_true ?_ trivial
      show -16 ^ 15 < v.toInt % 2 ^ 64 ∧ v.toInt % 2 ^ 64 < 16 ^ 16
      omega

/-- **The kernel's `printf` stays inside `printint`'s buffer iff every number is short.** -/
theorem printf_in_buffer_iff (ps : List Piece) :
    (∃ out, printf (text ps) (args ps) = .ok out) ↔ ∀ p ∈ ps, InBuffer p := by
  rw [printf_pieces, Lib.outputs_returns]
  exact forall₂_congr fun p _ => returns_iff p

/-- `%u` of 2^31: the argument is taken as an `int`, and its sign-extension has 20 digits. -/
theorem unsigned_overruns : printf (text [.word .u 0x80000000]) (args [.word .u 0x80000000]) = .error .fault := by
  decide +kernel

/-- The arguments that the kernel prints as they are: those that fit, and a `%x` that is not
negative as an `int`. -/
def Shown : Piece → Prop
  | .word .x v => v.toNat < 2 ^ 31
  | p => InBuffer p

theorem shown_iff (p : Piece) : lib.output p = .ok (p.rendering lib.digits) ↔ Shown p := by
  cases p with
  | lit c h => exact iff_of_true rfl trivial
  | word k v =>
    obtain ⟨hint, hlt⟩ := word_bounds v
    rw [Lib.output, Piece.rendering, readable.prints_iff (by rw [hint]; show -2 ^ 64 < _; split_ifs <;> omega)
      (by rw [hint]; show _ < 2 ^ 64; split_ifs <;> omega)]
    cases k with
    | d =>
      refine iff_of_true ⟨rfl, ?_⟩ trivial
      show -10 ^ 15 < v.toInt ∧ v.toInt < 10 ^ 16
      rw [hint]
      split_ifs <;> omega
    | u =>
      show v.toInt % 2 ^ 64 = v.toNat ∧ -10 ^ 15 < (v.toNat : ℤ) ∧ (v.toNat : ℤ) < 10 ^ 16 ↔ v.toNat < 2 ^ 31
      rw [hint]
      split_ifs <;> omega
    | x =>
      show v.toInt % 2 ^ 64 = v.toNat ∧ -16 ^ 15 < (v.toNat : ℤ) ∧ (v.toNat : ℤ) < 16 ^ 16 ↔ v.toNat < 2 ^ 31
      rw [hint]
      split_ifs <;> omega
  | long ll k v =>
    obtain ⟨hint, hlt⟩ := long_bounds v
    rw [Lib.output, Piece.rendering, readable.prints_iff (by show -2 ^ 64 < v.toInt; rw [hint]; split_ifs <;> omega)
      (by show v.toInt < 2 ^ 64; rw [hint]; split_ifs <;> omega)]
    cases k with
    | d => exact and_iff_right rfl
    | u =>
      show v.toInt % 2 ^ 64 = v.toNat ∧ -10 ^ 15 < (v.toNat : ℤ) ∧ (v.toNat : ℤ) < 10 ^ 16 ↔ v.toNat < 10 ^ 16
      rw [hint]
      split_ifs <;> omega
    | x =>
      refine iff_of_true ?_ trivial
      show v.toInt % 2 ^ 64 = v.toNat ∧ -16 ^ 15 < (v.toNat : ℤ) ∧ (v.toNat : ℤ) < 16 ^ 16
      rw [hint]
      split_ifs <;> omega

/-- **The kernel's `printf` prints the numbers it is given iff they fit into the buffer and
those of `%x` are not negative.** -/
theorem printf_exact_iff (ps : List Piece) : Exact printf lib.digits ps ↔ ∀ p ∈ ps, Shown p := by
  rw [exact_pieces lib.digits printf_pieces]
  exact forall₂_congr fun p _ => shown_iff p

/-- `%x` of 2^31 comes out with eight digits too many. -/
theorem hex_sign_extends : printf (text [.word .x 0x80000000]) (args [.word .x 0x80000000]) =
      .ok (chars ['f', 'f', 'f', 'f', 'f', 'f', 'f', 'f', '8', '0', '0', '0', '0', '0', '0', '0']) ∧
    rendering lib.digits [.word .x 0x80000000] = chars ['8', '0', '0', '0', '0', '0', '0', '0'] := by
  decide +kernel

end Kernel

/-! ### The library -/

namespace User

/-- The arguments that the library prints as they are: those that fit into the word that
`printint` takes. -/
def Shown : Piece → Prop
  | .long _ .d v => -2 ^ 31 ≤ v.toInt ∧ v.toInt < 2 ^ 31
  | .long _ _ v => v.toNat < 2 ^ 32
  | _ => True

theorem shown_iff (p : Piece) : lib.output p = .ok (p.rendering lib.digits) ↔ Shown p := by
  cases p with
  | lit c h => exact iff_of_true rfl trivial
  | word k v =>
    obtain ⟨hint, hlt⟩ := word_bounds v
    rw [Lib.output, Piece.rendering, readable.prints_iff (by rw [hint]; show -2 ^ 32 < _; split_ifs <;> omega)
      (by rw [hint]; show _ < 2 ^ 32; split_ifs <;> omega)]
    refine iff_of_true ?_ trivial
    cases k with
    | d =>
      refine ⟨rfl, ?_⟩
      show -10 ^ 15 < v.toInt ∧ v.toInt < 10 ^ 16
      rw [hint]
      split_ifs <;> omega
    | u =>
      show v.toInt % 2 ^ 32 = v.toNat ∧ -10 ^ 15 < (v.toNat : ℤ) ∧ (v.toNat : ℤ) < 10 ^ 16
      rw [hint]
      split_ifs <;> omega
    | x =>
      show v.toInt % 2 ^ 32 = v.toNat ∧ -16 ^ 15 < (v.toNat : ℤ) ∧ (v.toNat : ℤ) < 16 ^ 16
      rw [hint]
      split_ifs <;> omega
  | long ll k v =>
    -- the low half is what `printint` gets
    obtain ⟨hint, hlt⟩ := long_bounds v
    obtain ⟨hlow, hmod⟩ := word_bounds (v.setWidth 32)
    rw [BitVec.toNat_setWidth] at hlow hmod
    rw [Lib.output, Piece.rendering, readable.prints_iff (by show -2 ^ 32 < (v.setWidth 32).toInt; rw [hlow]; split_ifs <;> omega)
      (by show (v.setWidth 32).toInt < 2 ^ 32; rw [hlow]; split_ifs <;> omega)]
    cases k with
    | d =>
      show (v.setWidth 32).toInt = v.toInt ∧ -10 ^ 15 < v.toInt ∧ v.toInt < 10 ^ 16 ↔ -2 ^ 31 ≤ v.toInt ∧ v.toInt < 2 ^ 31
      rw [hlow, hint]
      split_ifs <;> omega
    | u =>
      show (v.setWidth 32).toInt % 2 ^ 32 = v.toNat ∧ -10 ^ 15 < (v.toNat : ℤ) ∧ (v.toNat : ℤ) < 10 ^ 16 ↔ v.toNat < 2 ^ 32
      rw [hlow]
      split_ifs <;> omega
    | x =>
      show (v.setWidth 32).toInt % 2 ^ 32 = v.toNat ∧ -16 ^ 15 < (v.toNat : ℤ) ∧ (v.toNat : ℤ) < 16 ^ 16 ↔ v.toNat < 2 ^ 32
      rw [hlow]
      split_ifs <;> omega

/-- **The library's `vprintf` prints the numbers it is given iff those of the `l` directives
fit into 32 bits.** -/
theorem vprintf_exact_iff (ps : List Piece) : Exact vprintf lib.digits ps ↔ ∀ p ∈ ps, Shown p := by
  rw [exact_pieces lib.digits vprintf_pieces]
  exact forall₂_congr fun p _ => shown_iff p

/-- `%lu` of 2^32 prints a zero. -/
theorem long_truncated : vprintf (text [.long false .u 0x100000000]) (args [.long false .u 0x100000000]) = .ok (chars ['0']) ∧
    rendering lib.digits [.long false .u 0x100000000] = chars ['4', '2', '9', '4', '9', '6', '7', '2', '9', '6'] := by
  decide +kernel

end User

end Printf
end Xv6
