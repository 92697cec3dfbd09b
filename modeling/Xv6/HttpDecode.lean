/-
# Decoding a response

A response of the server (`Response`) is a status line, header lines, an empty line and a
body of eight bytes and a payload. However it is cut into pieces by `kernel_recvmsg`,
the module gets the code and the payload out of it (`call_response`), as long as it is
shorter than 2^31 bytes: `receive_all` counts in an `int`, and so does `kstrtoint`.

Where `strsep` finds its character it puts a NUL, so what it leaves behind is a string
that ends inside the response (`strsep_found`); the bytes after it are as they were. The
round of the loop for one header line is `parseHeaders_line`.

Key definitions: `Http.Response`.
Key theorems: `Http.strsep_found`, `Http.parseHeaders_line`, `Http.call_response`.
-/
import Mathlib.Data.Nat.Digits.Lemmas
import Xv6.Http

namespace Xv6
namespace Http

/-! ### Strings -/

variable {d : UInt8} {w r lit : List UInt8}

/-- The bytes have neither the character nor a NUL among them. -/
def Clean (d : UInt8) (w : List UInt8) : Prop := ∀ c ∈ w, c ≠ 0 ∧ c ≠ d

theorem Clean.tail {c : UInt8} (h : Clean d (c :: w)) : Clean d w := fun x hx => h x (List.mem_cons_of_mem _ hx)

theorem strpbrk_found (hw : Clean d w) (hd : d ≠ 0) : strpbrk d (w ++ d :: r) = .ok (some w.length) := by
  induction w with
  | nil => simp [strpbrk, hd]
  | cons c w ih =>
    have hc := hw c List.mem_cons_self
    simp only [List.cons_append, strpbrk, hc.1, hc.2, if_false, ih hw.tail]
    rfl

theorem strpbrk_nul (hw : Clean d w) : strpbrk d (w ++ 0 :: r) = .ok none := by
  induction w with
  | nil => rfl
  | cons c w ih =>
    have hc := hw c List.mem_cons_self
    simp only [List.cons_append, strpbrk, hc.1, hc.2, if_false, ih hw.tail]
    rfl

theorem strneq_prefix (hl : 0 ∉ lit) : strneq (w ++ 0 :: r) lit = .ok (lit.isPrefixOf w) := by
  induction lit generalizing w with
  | nil => simp [strneq]
  | cons l lit ih =>
    have hl0 : l ≠ 0 := fun h => hl (h ▸ List.mem_cons_self)
    cases w with
    | nil => simp [strneq, Ne.symm hl0]
    | cons c w =>
      rw [List.cons_append, strneq, ih fun h => hl (List.mem_cons_of_mem _ h)]
      by_cases hc : c = l
      · simp [hc]
      · rw [if_neg hc, List.isPrefixOf, beq_eq_false_iff_ne.mpr (Ne.symm hc), Bool.false_and]

theorem strlen_nul (hw : 0 ∉ w) : strlen (w ++ 0 :: r) = .ok w.length := by
  induction w with
  | nil => rfl
  | cons c w ih =>
    have hc : c ≠ 0 := fun h => hw (h ▸ List.mem_cons_self)
    rw [List.cons_append, strlen, if_neg hc, ih fun h => hw (List.mem_cons_of_mem _ h)]
    rfl

/-! ### Numbers -/

/-- A number in plain decimal. -/
def decimal (n : ℕ) : List UInt8 := (Nat.digits 10 n).reverse.map fun d => UInt8.ofNat (48 + d)

theorem digit_ofNat {n : ℕ} (h : n < 10) : digit (UInt8.ofNat (48 + n)) = some n := by
  have : ∀ n < 10, digit (UInt8.ofNat (48 + n)) = some n := by decide
  exact this n h

/-- A digit is no sign, and is `0` only for 0. -/
theorem ofNat_ne {n : ℕ} (h : n < 10) : UInt8.ofNat (48 + n) ≠ '-'.toUInt8 ∧
    UInt8.ofNat (48 + n) ≠ '+'.toUInt8 ∧ (n ≠ 0 → UInt8.ofNat (48 + n) ≠ '0'.toUInt8) := by
  have : ∀ n < 10, UInt8.ofNat (48 + n) ≠ '-'.toUInt8 ∧ UInt8.ofNat (48 + n) ≠ '+'.toUInt8 ∧
      (n ≠ 0 → UInt8.ofNat (48 + n) ≠ '0'.toUInt8) := by decide
  exact this n h

theorem decimal_clean {n : ℕ} : Clean CR (decimal n) := by
  intro c hc
  obtain ⟨d, hd, rfl⟩ := List.mem_map.mp hc
  have hlt : d < 10 := Nat.digits_lt_base (by decide) (List.mem_reverse.mp hd)
  exact (show ∀ d < 10, UInt8.ofNat (48 + d) ≠ 0 ∧ UInt8.ofNat (48 + d) ≠ CR by decide) d hlt

theorem parseInteger_decimal {ds : List ℕ} (val rv : ℕ) (hd : ∀ d ∈ ds, d < 10) :
    parseInteger 10 val rv (ds.map (fun d => UInt8.ofNat (48 + d)) ++ 0 :: r) =
      .ok (ds.foldl (fun v d => v * 10 + d) val, rv + ds.length, 0 :: r) := by
  induction ds generalizing val rv with
  | nil => rfl
  | cons n ds ih =>
    have hn := hd n List.mem_cons_self
    rw [List.map_cons, List.cons_append, parseInteger, digit_ofNat hn]
    simp only [if_pos hn]
    rw [ih _ _ fun d h => hd d (List.mem_cons_of_mem _ h), List.foldl_cons, List.length_cons, Nat.add_right_comm, Nat.add_assoc]

theorem foldl_digits (n : ℕ) : (Nat.digits 10 n).reverse.foldl (fun v d => v * 10 + d) 0 = n := by
  rw [List.foldl_reverse]
  have h := Nat.ofDigits_digits 10 n
  rw [Nat.ofDigits_eq_foldr] at h
  rw [← h]
  congr 1
  · funext d v
    simp only [Nat.cast_id]
    omega
  · rw [h]

/-- `kstrtoint` reads a number in plain decimal if it fits an `int`. -/
theorem kstrtoint_decimal {n : ℕ} (h0 : 0 < n) :
    kstrtoint (decimal n ++ 0 :: r) = .ok (if n < 2 ^ 31 then some (n : ℤ) else none) := by
  have hdig : ∀ d ∈ (Nat.digits 10 n).reverse, d < 10 := fun d hd =>
    Nat.digits_lt_base (by decide) (List.mem_reverse.mp hd)
  have hparse := parseInteger_decimal 0 0 (r := r) hdig
  rw [foldl_digits] at hparse
  unfold decimal
  generalize hds : (Nat.digits 10 n).reverse = ds at hdig hparse
  cases ds with
  | nil => exact absurd (List.reverse_eq_nil_iff.mp hds) (Nat.digits_ne_nil_iff_ne_zero.mpr h0.ne')
  | cons n0 ds =>
    have hn0 : n0 ≠ 0 := by
      have hdigits : Nat.digits 10 n = ds.reverse ++ [n0] := by
        rw [← List.reverse_reverse (Nat.digits 10 n), hds, List.reverse_cons]
      have hlast := Nat.getLast_digit_ne_zero 10 h0.ne'
      simpa [hdigits] using hlast
    obtain ⟨hminus, hplus, hzero⟩ := ofNat_ne (hdig n0 List.mem_cons_self)
    rw [List.map_cons, List.cons_append] at hparse ⊢
    have hradix : fixupRadix (UInt8.ofNat (48 + n0) :: (ds.map (fun d => UInt8.ofNat (48 + d)) ++ 0 :: r)) =
        .ok (10, UInt8.ofNat (48 + n0) :: (ds.map (fun d => UInt8.ofNat (48 + d)) ++ 0 :: r)) := by
      simp only [fixupRadix, if_neg (hzero hn0)]
    simp only [kstrtoint, if_neg hminus, if_neg hplus, kstrtoull, hradix, hparse, bind, Except.bind]
    by_cases hbig : 2 ^ 64 ≤ n
    · rw [if_pos (.inl hbig), if_neg (by omega)]
      rfl
    · have hend : streq (0 :: r) [] = .ok true := rfl
      rw [if_neg (by simpa using hbig), hend]
      by_cases hint : n < 2 ^ 31
      · simp only [if_true, if_pos hint, Option.map_some]
        rw [Option.filter_some_pos]
        simp
        omega
      · simp only [if_true, if_neg hint, Option.map_some]
        rw [Option.filter_some_neg]
        simp
        omega

/-! ### Memory -/

variable {b b' : Buf} {p : ℕ}

/-- From the address `p` on come the bytes `r`. -/
structure Buf.At (b : Buf) (p : ℕ) (r : List UInt8) : Prop where
  base : b.base ≤ p
  le : p - b.base ≤ b.bytes.length
  drop : b.bytes.drop (p - b.base) = r

namespace Buf.At

theorem suffix (h : b.At p r) : b.suffix p = r := by
  rw [Buf.suffix, if_pos h.base, h.drop]

theorem append (h : b.At p (w ++ r)) : b.At (p + w.length) r := by
  have hlen := congrArg List.length h.drop
  rw [List.length_drop, List.length_append] at hlen
  have hbase := h.base
  have hle := h.le
  refine ⟨by omega, by omega, ?_⟩
  rw [Nat.sub_add_comm h.base, ← List.drop_drop, h.drop, List.drop_left]

theorem store {c x : UInt8} (h : b.At p (w ++ c :: r)) : (b.store (p + w.length) x).At p (w ++ x :: r) := by
  refine ⟨h.base, ?_, ?_⟩
  · rw [Buf.store, List.length_set]
    exact h.le
  · show (b.bytes.set (p + w.length - b.base) x).drop (p - b.base) = _
    rw [Nat.sub_add_comm h.base, List.drop_set, if_neg (Nat.not_lt.mpr (Nat.le_add_right _ _)), h.drop,
      Nat.add_sub_cancel_left, List.set_append_right _ _ le_rfl, Nat.sub_self]
    rfl

theorem next {c : UInt8} (h : b.At p (w ++ c :: r)) : b.At (p + w.length + 1) r :=
  append (w := [c]) (append h)

theorem read {n : ℕ} (h : b.At p r) (hn : n ≤ r.length) : b.read p n = .ok (r.take n) := by
  rw [Buf.read, h.suffix, if_pos hn]

theorem addr (h : b.At p r) : p + r.length = b.base + b.bytes.length := by
  have hlen := congrArg List.length h.drop
  rw [List.length_drop] at hlen
  have hbase := h.base
  have hle := h.le
  omega

end Buf.At

/-- The same memory, perhaps with other contents. -/
def Buf.Like (b b' : Buf) : Prop := b'.base = b.base ∧ b'.bytes.length = b.bytes.length

theorem Buf.Like.trans {b'' : Buf} (h : b.Like b') (h' : b'.Like b'') : b.Like b'' :=
  ⟨h'.1.trans h.1, h'.2.trans h.2⟩

/-- Where `strsep` finds its character, it ends the string there. -/
theorem strsep_found (h : b.At p (w ++ d :: r)) (hp : p ≠ 0) (hw : Clean d w) (hd : d ≠ 0) :
    ∃ b', strsep b p d = .ok (p, b', p + w.length + 1) ∧ b.Like b' ∧ b'.At p (w ++ 0 :: r) := by
  refine ⟨b.store (p + w.length) 0, ?_, ⟨rfl, List.length_set⟩, h.store⟩
  rw [strsep, if_neg hp, h.suffix, strpbrk_found hw hd]
  rfl

/-- Otherwise the string ends where it did. -/
theorem strsep_last (h : b.At p (w ++ 0 :: r)) (hp : p ≠ 0) (hw : Clean d w) : strsep b p d = .ok (p, b, 0) := by
  rw [strsep, if_neg hp, h.suffix, strpbrk_nul hw]
  rfl

/-- A line `l`, the character that ends it, and the rest. -/
structure Splits (bytes l : List UInt8) (x : UInt8) (rest : List UInt8) : Prop where
  eq : bytes = l ++ x :: rest
  clean : Clean CR l
  ends : x = CR ∨ x = 0

/-- `strsep` at the end of a line. -/
theorem strsep_splits {bytes l rest : List UInt8} {x : UInt8} (h : b.At p bytes) (hp : p ≠ 0) (hl : Splits bytes l x rest) :
    ∃ b', strsep b p CR = .ok (p, b', if x = CR then p + l.length + 1 else 0) ∧ b.Like b' ∧ b'.At p (l ++ 0 :: rest) := by
  obtain ⟨rfl, hclean, rfl | rfl⟩ := hl
  · rw [if_pos rfl]
    exact strsep_found h hp hclean (by decide)
  · exact ⟨b, strsep_last h hp hclean, ⟨rfl, rfl⟩, h⟩

/-! ### Header lines -/

theorem contentLength_clean : Clean CR contentLength := by
  have hall : contentLength.all (fun c => c ≠ 0 ∧ c ≠ CR) = true := by decide
  exact fun c hc => of_decide_eq_true (List.all_eq_true.mp hall c hc)

theorem zero_not_mem_contentLength : (0 : UInt8) ∉ contentLength := fun h => (contentLength_clean 0 h).1 rfl

/-- The text of a header: the line without its first character. After an empty line it is what
follows the line. -/
def text (l rest : List UInt8) : List UInt8 := (l ++ 0 :: rest).tail

section

variable (f : ℕ) {l : List UInt8} {x : UInt8} (length : ℤ)

/-- One round of the loop. -/
theorem parseHeaders_round {bytes rest : List UInt8} (h : b.At p bytes) (hp : p ≠ 0) (hl : Splits bytes l x rest) :
    ∃ b', b.Like b' ∧ b'.At (p + l.length + 1) rest ∧
      parseHeaders (f + 1) b p length = (streq (text l rest) [] >>= fun e =>
        if e then .ok (some (b', if x = CR then p + l.length + 1 else 0, length))
        else parseHeader (text l rest) length >>= fun v =>
          v.elim (.ok none) (parseHeaders f b' (if x = CR then p + l.length + 1 else 0))) := by
  obtain ⟨b', hsep, hlike, hat⟩ := strsep_splits h hp hl
  have htext : b'.suffix (p + 1) = text l rest := by
    cases l with
    | nil => exact (Buf.At.append (w := [0]) hat).suffix
    | cons c l => exact (Buf.At.append (w := [c]) hat).suffix
  refine ⟨b', hlike, hat.next, ?_⟩
  rw [parseHeaders, if_neg hp, hsep, ok_bind]
  dsimp only
  rw [htext]

/-- The text of a header line that ends in a NUL. -/
theorem parseHeader_line (l r : List UInt8) (length : ℤ) :
    parseHeader (l ++ 0 :: r) length =
      if contentLength <+: l then kstrtoint ((l ++ 0 :: r).drop 16) else .ok (some length) := by
  rw [parseHeader, strneq_prefix zero_not_mem_contentLength]
  by_cases h : contentLength <+: l
  · rw [if_pos h, List.isPrefixOf_iff_prefix.mpr h]
    rfl
  · rw [if_neg h, Bool.eq_false_iff.mpr fun hh => h (List.isPrefixOf_iff_prefix.mp hh)]
    rfl

/-- The round for a line of at least one character after the first. -/
theorem parseHeaders_line (h : b.At p (x :: l ++ CR :: r)) (hp : p ≠ 0) (hl : Clean CR (x :: l)) (hne : l ≠ []) :
    ∃ b', b.Like b' ∧ b'.At (p + (x :: l).length + 1) r ∧
      parseHeaders (f + 1) b p length = (do
        (← parseHeader (l ++ 0 :: r) length).elim (.ok none) (parseHeaders f b' (p + (x :: l).length + 1))) := by
  obtain ⟨b', hlike, hat, hround⟩ := parseHeaders_round f length h hp ⟨rfl, hl, Or.inl rfl⟩
  have hempty : streq (l ++ 0 :: r) [] = .ok false := by
    cases l with
    | nil => exact absurd rfl hne
    | cons c l => simp [streq, (hl c (by simp)).1]
  refine ⟨b', hlike, hat, ?_⟩
  rw [hround, if_pos rfl, text, List.cons_append, List.tail_cons, hempty, ok_bind, if_neg Bool.false_ne_true]

/-- The round for a line of one character ends the loop. -/
theorem parseHeaders_blank (h : b.At p (x :: CR :: r)) (hp : p ≠ 0) (hx : x ≠ 0 ∧ x ≠ CR) :
    ∃ b', b.Like b' ∧ b'.At (p + 2) r ∧ parseHeaders (f + 1) b p length = .ok (some (b', p + 2, length)) := by
  have hclean : Clean CR [x] := by
    intro c hc
    rw [List.mem_singleton.mp hc]
    exact hx
  obtain ⟨b', hlike, hat, hround⟩ := parseHeaders_round f length h hp ⟨rfl, hclean, Or.inl rfl⟩
  refine ⟨b', hlike, hat, ?_⟩
  rw [hround, if_pos rfl]
  rfl

end

/-! ### Responses -/

def crlf : List UInt8 := [CR, LF]

/-- The eight bytes of an `int64_t`, the lowest first. -/
def le64 (v : ℤ) : List UInt8 := (List.range 8).map fun i => UInt8.ofNat ((v % 2 ^ 64).toNat / 256 ^ i % 256)

/-- A line without CR and NUL. -/
def Plain (l : List UInt8) : Prop := CR ∉ l ∧ 0 ∉ l

theorem Plain.clean {l : List UInt8} (h : Plain l) : Clean CR l :=
  fun _ hc => ⟨fun h0 => h.2 (h0 ▸ hc), fun hcr => h.1 (hcr ▸ hc)⟩

/-- What a server answers with. -/
structure Response where
  /-- The text after the status code. -/
  reason : Option (List UInt8)
  /-- The header lines before the length of the body, and after it. -/
  before : List (List UInt8)
  after : List (List UInt8)
  code : ℤ
  payload : List UInt8
  plain_reason : ∀ t ∈ reason, Plain t
  header : ∀ l ∈ before ++ after, l ≠ [] ∧ Plain l ∧ ¬ contentLength <+: l
  code_range : -2 ^ 63 ≤ code ∧ code < 2 ^ 63

namespace Response

variable (R : Response)

def statusLine : List UInt8 :=
  chars ['H', 'T', 'T', 'P', '/', '1', '.', '1', ' ', '2', '0', '0'] ++ (R.reason.map (SP :: ·)).getD []

/-- The length of the body. -/
def length : ℕ := R.payload.length + 8

def lines : List (List UInt8) := R.before ++ (contentLength ++ decimal R.length) :: R.after

def bytes : List UInt8 :=
  R.statusLine ++ crlf ++ R.lines.flatMap (· ++ crlf) ++ crlf ++ le64 R.code ++ R.payload

end Response

theorem foldr_le (k n : ℕ) :
    ((List.range k).map fun i => UInt8.ofNat (n / 256 ^ i % 256)).foldr (fun c (v : ℤ) => c.toNat + 256 * v) 0 =
      (n % 256 ^ k : ℕ) := by
  induction k generalizing n with
  | zero => simp [Nat.mod_one]
  | succ k ih =>
    have hdiv : ∀ i, n / 256 ^ (i + 1) = n / 256 / 256 ^ i := fun i => by rw [Nat.pow_succ', Nat.div_div_eq_div_mul]
    rw [List.range_succ_eq_map, List.map_cons, List.map_map, List.foldr_cons]
    simp only [Function.comp_def, Nat.succ_eq_add_one, hdiv]
    rw [ih, Nat.pow_succ', Nat.mod_mul, Nat.pow_zero, Nat.div_one, UInt8.toNat_ofNat_of_lt' (Nat.mod_lt _ (by decide))]
    push_cast
    rfl

theorem int64_le64 {v : ℤ} (h : -2 ^ 63 ≤ v ∧ v < 2 ^ 63) : int64 (le64 v) = v := by
  have hfold := foldr_le 8 (v % 2 ^ 64).toNat
  rw [Nat.mod_eq_of_lt (by omega)] at hfold
  rw [int64, le64, hfold]
  omega

/-- The header lines as the loop meets them, each after the LF of the line before. -/
def block (lines : List (List UInt8)) (body : List UInt8) : List UInt8 :=
  lines.flatMap (fun l => LF :: l ++ [CR]) ++ LF :: CR :: LF :: body

theorem flatMap_crlf (lines : List (List UInt8)) (body : List UInt8) :
    LF :: (lines.flatMap (· ++ crlf) ++ crlf ++ body) = block lines body := by
  induction lines with
  | nil => rfl
  | cons l lines ih =>
    unfold block at ih ⊢
    simp only [List.flatMap_cons, crlf, List.append_assoc, List.cons_append, List.nil_append] at ih ⊢
    rw [ih]

theorem Response.bytes_eq (R : Response) : R.bytes = R.statusLine ++ CR :: block R.lines (le64 R.code ++ R.payload) := by
  rw [← flatMap_crlf]
  simp [Response.bytes, crlf]

section

variable (f : ℕ) {lines : List (List UInt8)} {body : List UInt8} (length : ℤ)

/-- The loop goes over lines that do not give the length. -/
theorem parseHeaders_skip {more : List (List UInt8)} (h : b.At p (block (lines ++ more) body)) (hp : p ≠ 0)
    (hl : ∀ l ∈ lines, l ≠ [] ∧ Plain l ∧ ¬ contentLength <+: l) :
    ∃ b' p', p' ≠ 0 ∧ b.Like b' ∧ b'.At p' (block more body) ∧
      parseHeaders (f + lines.length) b p length = parseHeaders f b' p' length := by
  induction lines generalizing b p with
  | nil => exact ⟨b, p, hp, ⟨rfl, rfl⟩, h, rfl⟩
  | cons l lines ih =>
    obtain ⟨hne, hplain, hcl⟩ := hl l List.mem_cons_self
    have hclean : Clean CR (LF :: l) := by
      intro c hc
      rcases List.mem_cons.mp hc with rfl | hc
      · decide
      · exact hplain.clean c hc
    have hat : b.At p (LF :: l ++ CR :: block (lines ++ more) body) := by
      simpa [block] using h
    obtain ⟨b1, hb1, hat1, hround⟩ := parseHeaders_line (f + lines.length) length hat hp hclean hne
    obtain ⟨b2, p2, hp2, hb2, hat2, hrun⟩ := ih hat1 (by omega) fun l' h' => hl l' (List.mem_cons_of_mem _ h')
    refine ⟨b2, p2, hp2, hb1.trans hb2, hat2, ?_⟩
    rw [List.length_cons, ← Nat.add_assoc, hround, parseHeader_line, if_neg hcl]
    exact hrun

/-- The loop over the header lines of a response. -/
theorem parseHeaders_response (R : Response) (h : b.At p (block R.lines body)) (hp : p ≠ 0) (h31 : R.length < 2 ^ 31) :
    ∃ b' p', p' ≠ 0 ∧ b.Like b' ∧ b'.At (p' + 1) body ∧
      parseHeaders (f + R.lines.length + 1) b p length = .ok (some (b', p', R.length)) := by
  have hfuel : f + R.lines.length + 1 = f + 1 + R.after.length + 1 + R.before.length := by
    simp only [Response.lines, List.length_append, List.length_cons]
    omega
  have hbefore : ∀ l ∈ R.before, l ≠ [] ∧ Plain l ∧ ¬ contentLength <+: l :=
    fun l hl => R.header l (List.mem_append_left _ hl)
  have hafter : ∀ l ∈ R.after, l ≠ [] ∧ Plain l ∧ ¬ contentLength <+: l :=
    fun l hl => R.header l (List.mem_append_right _ hl)
  rw [hfuel]
  -- the lines before the length of the body
  obtain ⟨b1, p1, hp1, hb1, hat1, hrun1⟩ := parseHeaders_skip (f + 1 + R.after.length + 1) length h hp hbefore
  rw [hrun1]
  -- the length
  have hline : b1.At p1 (LF :: (contentLength ++ decimal R.length) ++ CR :: block R.after body) := by
    simpa [block] using hat1
  have hclean : Clean CR (LF :: (contentLength ++ decimal R.length)) := by
    intro c hc
    simp only [List.mem_cons, List.mem_append] at hc
    rcases hc with rfl | hc | hc
    · decide
    · exact contentLength_clean c hc
    · exact decimal_clean c hc
  have hne : contentLength ++ decimal R.length ≠ [] := by simp [contentLength, chars]
  obtain ⟨b2, hb2, hat2, hround⟩ := parseHeaders_line (f + 1 + R.after.length) length hline hp1 hclean hne
  have hnum : kstrtoint ((contentLength ++ decimal R.length ++ 0 :: block R.after body).drop 16) = .ok (some (R.length : ℤ)) := by
    rw [List.append_assoc, show (16 : ℕ) = contentLength.length from rfl, List.drop_left,
      kstrtoint_decimal (show 0 < R.length from Nat.succ_pos _), if_pos h31]
  rw [hround, parseHeader_line, if_pos (List.prefix_append _ _), hnum]
  -- the lines after it, and the empty line
  rw [← List.append_nil R.after] at hat2
  obtain ⟨b3, p3, hp3, hb3, hat3, hrun3⟩ := parseHeaders_skip (f + 1) R.length hat2 (by omega) hafter
  obtain ⟨b4, hb4, hat4, hend⟩ := parseHeaders_blank f R.length hat3 hp3 (by decide)
  refine ⟨b4, p3 + 2, by omega, ((hb1.trans hb2).trans hb3).trans hb4, Buf.At.append (w := [LF]) hat4, ?_⟩
  exact hrun3.trans hend

end

/-! ### The status line -/

/-- The field of the status line after the first blank. -/
def statusCode (l : List UInt8) : List UInt8 := (l.dropWhile (· ≠ SP)).tail.takeWhile (· ≠ SP)

/-- What is returned for a status line, if it is not good. -/
def statusError (l : List UInt8) : Option ℤ :=
  if SP ∉ l then some (-6) else if statusCode l = chars ['2', '0', '0'] then none else some (-5)

theorem streq_iff (hw : 0 ∉ w) (hl : 0 ∉ lit) : streq (w ++ 0 :: r) lit = .ok (decide (w = lit)) := by
  induction w generalizing lit with
  | nil =>
    cases lit with
    | nil => rfl
    | cons l lit =>
      have hl0 : (0 : UInt8) ≠ l := fun h => hl (h ▸ List.mem_cons_self)
      simp [streq, hl0]
  | cons c w ih =>
    have hc : c ≠ 0 := fun h => hw (h ▸ List.mem_cons_self)
    cases lit with
    | nil => simp [streq, hc]
    | cons l lit =>
      rw [List.cons_append, streq, ih (fun h => hw (List.mem_cons_of_mem _ h)) fun h => hl (List.mem_cons_of_mem _ h)]
      by_cases hcl : c = l
      · simp [hcl]
      · simp [hcl]

/-- `strsep` at a blank, in a string that ends. -/
theorem strsep_space (h : b.At p (w ++ 0 :: r)) (hp : p ≠ 0) (hw : 0 ∉ w) :
    (SP ∉ w ∧ strsep b p SP = .ok (p, b, 0)) ∨
    ∃ u v b', w = u ++ SP :: v ∧ SP ∉ u ∧ strsep b p SP = .ok (p, b', p + u.length + 1) ∧ b.Like b' ∧
      b'.At p (u ++ 0 :: (v ++ 0 :: r)) := by
  by_cases hsp : SP ∈ w
  · right
    obtain ⟨u, v, rfl, hu⟩ := List.eq_append_cons_of_mem hsp
    have hclean : Clean SP u := fun c hc =>
      ⟨fun h0 => hw (h0 ▸ List.mem_append_left _ hc), fun hs => hu (hs ▸ hc)⟩
    have hat : b.At p (u ++ SP :: (v ++ 0 :: r)) := by simpa using h
    obtain ⟨b', hsep, hlike, hat'⟩ := strsep_found hat hp hclean (by decide)
    exact ⟨u, v, b', rfl, hu, hsep, hlike, hat'⟩
  · left
    have hclean : Clean SP w := fun c hc => ⟨fun h0 => hw (h0 ▸ hc), fun hs => hsp (hs ▸ hc)⟩
    exact ⟨hsp, strsep_last h hp hclean⟩

theorem takeWhile_ne {u v : List UInt8} (hu : d ∉ u) : (u ++ d :: v).takeWhile (· ≠ d) = u := by
  have hall : ∀ c ∈ u, decide (c ≠ d) = true := fun c hc => decide_eq_true (ne_of_mem_of_not_mem hc hu)
  rw [List.takeWhile_append_of_pos hall]
  simp

theorem dropWhile_ne {u v : List UInt8} (hu : d ∉ u) : (u ++ d :: v).dropWhile (· ≠ d) = d :: v := by
  have hall : ∀ c ∈ u, decide (c ≠ d) = true := fun c hc => decide_eq_true (ne_of_mem_of_not_mem hc hu)
  rw [List.dropWhile_append_of_pos hall]
  simp

theorem takeWhile_ne_self {u : List UInt8} (hu : d ∉ u) : u.takeWhile (· ≠ d) = u := by
  have hall : ∀ c ∈ u, decide (c ≠ d) = true := fun c hc => decide_eq_true (ne_of_mem_of_not_mem hc hu)
  rw [← List.append_nil u, List.takeWhile_append_of_pos hall]
  simp

/-- What is done after the status line. -/
def afterStatus (raw b : Buf) (buffer : ℕ) (response : List UInt8) : Except Stop (ℤ × List UInt8) := do
  (← parseHeaders (raw.bytes.length + 1) b buffer (-1)).elim (.ok (-6, response)) fun r =>
    parseBody raw.base raw.bytes.length r.1 (r.2.1 + 1) r.2.2 response

/-- The second field of a line that ends is compared as a whole. -/
theorem statusCode_read (h : b.At p (w ++ 0 :: r)) (hp : p ≠ 0) (hw : 0 ∉ w) :
    ∃ b' q, b.Like b' ∧ b'.At (p + w.length + 1) r ∧ strsep b p SP = .ok (p, b', q) ∧
      (∃ r', b'.suffix p = w.takeWhile (· ≠ SP) ++ 0 :: r') := by
  rcases strsep_space h hp hw with ⟨hsp, hsep⟩ | ⟨u, v, b', rfl, hu, hsep, hlike, hat⟩
  · refine ⟨b, 0, ⟨rfl, rfl⟩, h.next, hsep, r, ?_⟩
    rw [h.suffix, takeWhile_ne_self hsp]
  · refine ⟨b', _, hlike, ?_, hsep, v ++ 0 :: r, ?_⟩
    · have hrest := (hat.next).next
      have haddr : p + (u ++ SP :: v).length + 1 = p + u.length + 1 + v.length + 1 := by
        rw [List.length_append, List.length_cons]
        omega
      rw [haddr]
      exact hrest
    · rw [hat.suffix, takeWhile_ne hu]

/-- The status line, with what `strsep` at its end gave. -/
theorem parse_status {raw b : Buf} {l0 rest : List UInt8} {buffer : ℕ} (response : List UInt8) (h : b.At raw.base (l0 ++ 0 :: rest))
    (hlike : raw.Like b) (hp : raw.base ≠ 0) (hl : 0 ∉ l0) (hsep : strsep raw raw.base CR = .ok (raw.base, b, buffer)) :
    ∃ b', raw.Like b' ∧ b'.At (raw.base + l0.length + 1) rest ∧
      parseHttpResponse raw response =
        (statusError l0).elim (afterStatus raw b' buffer response) fun e => .ok (e, response) := by
  rcases strsep_space h hp hl with ⟨hsp, hsep'⟩ | ⟨u, v, b1, rfl, hu, hsep1, hlike1, hat1⟩
  · refine ⟨b, hlike, h.next, ?_⟩
    rw [parseHttpResponse, hsep, ok_bind]
    dsimp only
    rw [hsep', ok_bind, if_pos rfl, statusError, if_pos hsp]
    rfl
  · have hv : 0 ∉ v := fun h0 => hl (List.mem_append_right _ (List.mem_cons_of_mem _ h0))
    obtain ⟨b2, q, hlike2, hat2, hsep2, r', hr'⟩ := statusCode_read hat1.next (Nat.succ_ne_zero _) hv
    have haddr : raw.base + (u ++ SP :: v).length + 1 = raw.base + u.length + 1 + v.length + 1 := by
      rw [List.length_append, List.length_cons]
      omega
    refine ⟨b2, (hlike.trans hlike1).trans hlike2, by rw [haddr]; exact hat2, ?_⟩
    have hcode : statusCode (u ++ SP :: v) = v.takeWhile (· ≠ SP) := by
      rw [statusCode, dropWhile_ne hu, List.tail_cons]
    have h0 : 0 ∉ v.takeWhile (· ≠ SP) := fun h0 => hv (List.takeWhile_subset _ h0)
    have hmem : ¬ SP ∉ u ++ SP :: v := fun hn => hn (List.mem_append_right _ List.mem_cons_self)
    rw [parseHttpResponse, hsep, ok_bind]
    dsimp only
    rw [hsep1, ok_bind]
    dsimp only
    rw [if_neg (Nat.succ_ne_zero _), hsep2, ok_bind]
    dsimp only
    rw [hr', strlen_nul h0, ok_bind, streq_iff h0 (by decide), ok_bind, statusError, if_neg hmem, hcode]
    by_cases hc : v.takeWhile (· ≠ SP) = chars ['2', '0', '0']
    · rw [if_pos (decide_eq_true hc), if_pos hc]
      rfl
    · rw [if_neg fun hh => hc (of_decide_eq_true hh), if_neg hc]
      rfl

theorem statusError_response (R : Response) : statusError R.statusLine = none := by
  have hu : SP ∉ chars ['H', 'T', 'T', 'P', '/', '1', '.', '1'] := by decide
  have hline : R.statusLine = chars ['H', 'T', 'T', 'P', '/', '1', '.', '1'] ++
      SP :: (chars ['2', '0', '0'] ++ (R.reason.map (SP :: ·)).getD []) := rfl
  have hmem : ¬ SP ∉ R.statusLine := fun hn => hn (hline ▸ List.mem_append_right _ List.mem_cons_self)
  rw [statusError, if_neg hmem, statusCode, hline, dropWhile_ne hu, List.tail_cons]
  cases R.reason with
  | none => rfl
  | some t => rw [Option.map_some, Option.getD_some, takeWhile_ne (by decide), if_pos rfl]

theorem Response.plain_statusLine (R : Response) : Plain R.statusLine := by
  have hfix : Plain (chars ['H', 'T', 'T', 'P', '/', '1', '.', '1', ' ', '2', '0', '0']) := ⟨by decide, by decide⟩
  have hreason : Plain ((R.reason.map (SP :: ·)).getD []) := by
    cases hr : R.reason with
    | none => exact ⟨List.not_mem_nil, List.not_mem_nil⟩
    | some t =>
      have ht := R.plain_reason t hr
      exact ⟨List.not_mem_cons_of_ne_of_not_mem (by decide) ht.1, List.not_mem_cons_of_ne_of_not_mem (by decide) ht.2⟩
  exact ⟨List.not_mem_append hfix.1 hreason.1, List.not_mem_append hfix.2 hreason.2⟩

theorem length_block (lines : List (List UInt8)) (body : List UInt8) :
    lines.length + body.length ≤ (block lines body).length := by
  induction lines with
  | nil =>
    simp only [block, List.flatMap_nil, List.nil_append, List.length_nil, List.length_cons]
    omega
  | cons l lines ih =>
    simp only [block, List.flatMap_cons, List.length_append, List.length_cons] at ih ⊢
    omega

theorem length_le64 (v : ℤ) : (le64 v).length = 8 := rfl

theorem cSize_natCast {n : ℕ} (h : n < 2 ^ 64) : cSize n = n := by
  rw [cSize]
  omega

/-- A body that is there as a whole is delivered. -/
theorem parseBody_ok {a size n : ℕ} {body response : List UInt8} (hat : b.At p body) (h8 : 8 ≤ n) (h31 : n < 2 ^ 31)
    (hend : p + n ≤ a + size) (hmem : a + size < 2 ^ 64) (hbody : n ≤ body.length) (hsize : n - 8 ≤ response.length) :
    parseBody a size b p n response =
      .ok (int64 (body.take 8), (body.drop 8).take (n - 8) ++ response.drop (n - 8)) := by
  have hsum : cSize ((p : ℤ) + n) = p + n := cSize_natCast (n := p + n) (by omega)
  have hn : cSize (n : ℤ) = n := cSize_natCast (by omega)
  have hint : cInt ((n : ℤ) - 8) = (n - 8 : ℕ) := by
    rw [cInt_eq (by omega) (by omega)]
    omega
  have hrest : cSize ((n - 8 : ℕ) : ℤ) = n - 8 := cSize_natCast (by omega)
  have hat8 : b.At (p + 8) (body.drop 8) := by
    have h8' : (body.take 8).length = 8 := List.length_take_of_le (by omega)
    have happ := Buf.At.append (w := body.take 8) (r := body.drop 8) (by rw [List.take_append_drop]; exact hat)
    rwa [h8'] at happ
  have hlen : ((body.drop 8).take (n - 8)).length = n - 8 := List.length_take_of_le (by rw [List.length_drop]; omega)
  rw [parseBody, if_neg (by omega), hsum, Nat.mod_eq_of_lt hmem, if_neg (by omega), hn, if_neg (by omega)]
  dsimp only
  rw [hint, hrest, if_neg (by omega), hat.read (by omega), ok_bind, hat8.read (by rw [List.length_drop]; omega), ok_bind, hlen]

/-- `parse_http_response` on a response. -/
theorem parse_response (R : Response) {raw : Buf} {response : List UInt8} (hraw : raw.bytes = R.bytes) (hp : raw.base ≠ 0)
    (hmem : raw.base + R.bytes.length < 2 ^ 64) (h31 : R.bytes.length < 2 ^ 31) (hpay : R.payload.length ≤ response.length) :
    parseHttpResponse raw response = .ok (R.code, R.payload ++ response.drop R.payload.length) := by
  have hbytes := R.bytes_eq
  have hat : raw.At raw.base (R.statusLine ++ CR :: block R.lines (le64 R.code ++ R.payload)) :=
    ⟨le_rfl, by omega, by rw [Nat.sub_self, hraw, ← hbytes]; rfl⟩
  have hblock := length_block R.lines (le64 R.code ++ R.payload)
  have hlen := congrArg List.length hbytes
  have hbody : (le64 R.code ++ R.payload).length = R.length := by
    rw [List.length_append, length_le64, Response.length, Nat.add_comm]
  rw [hbody] at hblock
  rw [List.length_append, List.length_cons] at hlen
  -- the status line
  obtain ⟨b0, hsep, hlike0, hat0⟩ := strsep_found hat hp R.plain_statusLine.clean (by decide)
  obtain ⟨b1, hlike1, hat1, hstatus⟩ := parse_status response hat0 hlike0 hp R.plain_statusLine.2 hsep
  -- the header lines
  obtain ⟨f, hf⟩ : ∃ f, raw.bytes.length + 1 = f + R.lines.length + 1 := ⟨raw.bytes.length - R.lines.length, by
    rw [hraw]
    omega⟩
  obtain ⟨b2, p2, hp2, hlike2, hat2, hheaders⟩ :=
    parseHeaders_response f (-1) R hat1 (Nat.succ_ne_zero _) (by omega)
  rw [hstatus, statusError_response, Option.elim_none, afterStatus, hf, hheaders, ok_bind, Option.elim_some]
  -- the body
  have haddr := hat2.addr
  rw [(hlike1.trans hlike2).1, (hlike1.trans hlike2).2, hbody] at haddr
  rw [← hraw] at hmem h31 hlen
  have hR : R.length = R.payload.length + 8 := rfl
  have htake : (le64 R.code ++ R.payload).take 8 = le64 R.code := List.take_left' (length_le64 _)
  have hdrop : (le64 R.code ++ R.payload).drop 8 = R.payload := List.drop_left' (length_le64 _)
  rw [parseBody_ok hat2 (by omega) (by omega) (by omega) (by omega) (by omega) (by omega), htake, hdrop,
    int64_le64 R.code_range, hR, Nat.add_sub_cancel, List.take_length]

/-! ### The call -/

/-- However the bytes are cut, they are all received, if an `int` can count them. -/
theorem receiveAll_flatten {size : ℕ} {rets : List (List UInt8)} (buffer : List UInt8) (hne : ∀ chunk ∈ rets, chunk ≠ [])
    (hsize : buffer.length + rets.flatten.length ≤ size) (h31 : buffer.length + rets.flatten.length < 2 ^ 31) :
    receiveAll size (rets.map some) buffer buffer.length =
      .ok ((buffer ++ rets.flatten).length, buffer ++ rets.flatten) := by
  induction rets generalizing buffer with
  | nil => simp [receiveAll]
  | cons chunk rets ih =>
    have hc := hne chunk List.mem_cons_self
    have hpos := List.length_pos_iff.mpr hc
    rw [List.flatten_cons, List.length_append] at hsize h31
    have hread : cSize (buffer.length : ℤ) = buffer.length := cSize_natCast (by omega)
    have hsum : cInt ((buffer.length : ℤ) + chunk.length) = ((buffer ++ chunk).length : ℤ) := by
      rw [List.length_append, cInt_eq (by omega) (by omega)]
      rfl
    have hround : ¬ (chunk = [] ∨ 2 ^ 31 ≤ chunk.length ∨ size - buffer.length < chunk.length) := by
      rintro (h | h | h)
      · exact hc h
      · omega
      · omega
    rw [List.map_cons, receiveAll, hread, if_pos (by omega), if_neg hround, hsum, ih, List.flatten_cons, List.append_assoc]
    · exact fun c h => hne c (List.mem_cons_of_mem _ h)
    · rw [List.length_append]
      omega
    · rw [List.length_append]
      omega

/-- **A response is decoded**: the code is returned and the payload is in the buffer. -/
theorem call_response (R : Response) {raw : ℕ} {rets : List (List UInt8)} {response : List UInt8}
    (hrets : rets.flatten = R.bytes) (hne : ∀ chunk ∈ rets, chunk ≠ []) (hpay : R.payload.length ≤ response.length)
    (hsize : R.bytes.length ≤ response.length + 1024) (hcap : response.length + 1024 < 2 ^ 64)
    (h31 : R.bytes.length < 2 ^ 31) (hraw : raw ≠ 0) (hmem : raw + R.bytes.length < 2 ^ 64) :
    call raw (rets.map some) response = .ok (R.code, R.payload ++ response.drop R.payload.length) := by
  have hrecv : receiveAll (response.length + 1024) (rets.map some) [] (([] : List UInt8).length : ℤ) = _ :=
    receiveAll_flatten [] hne (by simpa [hrets] using hsize) (by simpa [hrets] using h31)
  rw [hrets] at hrecv
  have hnn : ¬ ((([] ++ R.bytes).length : ℕ) : ℤ) < 0 := by omega
  rw [call, Nat.mod_eq_of_lt hcap]
  show (receiveAll (response.length + 1024) (rets.map some) [] (([] : List UInt8).length : ℤ) >>= _) = _
  rw [hrecv, ok_bind]
  dsimp only
  rw [if_neg hnn, Int.toNat_natCast, List.take_length, List.nil_append]
  exact parse_response R rfl hraw hmem h31 hpay

/-- A response with a header line before the length, and CR, LF and NUL in the payload. -/
def smallResponse : Response where
  reason := some (chars ['O', 'K'])
  before := [chars ['A', ':', ' ', 'b']]
  after := []
  code := -7
  payload := [CR, LF, 0]
  plain_reason := by
    intro t ht
    rw [← Option.mem_some.mp ht]
    exact ⟨by decide, by decide⟩
  header := by
    intro l hl
    rw [List.mem_singleton.mp hl]
    exact ⟨by decide, ⟨by decide, by decide⟩, by decide⟩
  code_range := by decide

theorem call_response_small :
    call 4096 ([smallResponse.bytes.take 20, smallResponse.bytes.drop 20].map some) [1, 1, 1, 1] =
      .ok (-7, [CR, LF, 0, 1]) :=
  @call_response smallResponse 4096 [smallResponse.bytes.take 20, smallResponse.bytes.drop 20] [1, 1, 1, 1]
    (by decide +kernel) (by decide +kernel) (by decide +kernel) (by decide +kernel) (by decide +kernel) (by decide +kernel)
    (by decide) (by decide +kernel)

/-! ### Counting in an `int` -/

/-- After 2^31 bytes the number of bytes read is negative, which is more than the size of the
buffer when the two are compared. -/
theorem receiveAll_wraps {size : ℕ} {c1 c2 : List UInt8} (h1 : c1.length = 2 ^ 30) (h2 : c2.length = 2 ^ 30)
    (hle : 2 ^ 31 ≤ size) (hlt : size < 2 ^ 63) (rets : List (Option (List UInt8))) :
    receiveAll size (some c1 :: some c2 :: rets) [] 0 = .ok (-2 ^ 31, c1 ++ c2) := by
  have hne : ∀ l : List UInt8, l.length = 2 ^ 30 → l ≠ [] := by
    rintro l hl rfl
    simp at hl
  have hround : ∀ l : List UInt8, l.length = 2 ^ 30 → ∀ n, n ≤ 2 ^ 30 →
      ¬ (l = [] ∨ 2 ^ 31 ≤ l.length ∨ size - n < l.length) := by
    rintro l hl n hn (h | h | h)
    · exact hne l hl h
    · omega
    · omega
  have hone : cInt (0 + c1.length) = 2 ^ 30 := by
    rw [h1]
    decide
  have htwo : cInt (2 ^ 30 + c2.length) = -2 ^ 31 := by
    rw [h2]
    decide
  have hs0 : cSize 0 = 0 := by decide
  have hs1 : cSize (2 ^ 30) = 2 ^ 30 := by decide
  have hs2 : cSize (-2 ^ 31) = 2 ^ 64 - 2 ^ 31 := by decide
  rw [receiveAll, hs0, if_pos (by omega), if_neg (hround c1 h1 0 (by omega)), hone, receiveAll, hs1, if_pos (by omega),
    if_neg (hround c2 h2 _ le_rfl), htwo, List.nil_append]
  have hout : ¬ cSize (-2 ^ 31) < size := by omega
  cases rets with
  | nil => rw [receiveAll]
  | cons ret rets =>
    cases ret with
    | none => rw [receiveAll, if_neg hout]
    | some chunk => rw [receiveAll, if_neg hout]

/-- A response with a payload of 2^31 bytes. -/
def largeResponse : Response where
  reason := none
  before := []
  after := []
  code := 0
  payload := List.replicate (2 ^ 31) 0
  plain_reason := fun _ ht => absurd ht (Option.not_mem_none _)
  header := fun _ hl => absurd hl List.not_mem_nil
  code_range := by decide

theorem Response.length_bytes {R : Response} (hr : R.reason = none) (hb : R.before = []) (ha : R.after = []) :
    R.bytes.length = 42 + (decimal R.length).length + R.payload.length := by
  have hcl : contentLength.length = 16 := rfl
  have hfix : (chars ['H', 'T', 'T', 'P', '/', '1', '.', '1', ' ', '2', '0', '0']).length = 12 := rfl
  simp only [Response.bytes, Response.lines, Response.statusLine, hr, hb, ha, Option.map_none, Option.getD_none,
    List.flatMap_cons, List.flatMap_nil, List.nil_append, List.append_nil, List.length_append, List.length_cons,
    List.length_nil, length_le64, crlf, hcl, hfix]
  omega

theorem length_largeResponse : largeResponse.bytes.length = 52 + 2 ^ 31 := by
  have hpay : largeResponse.payload.length = 2 ^ 31 := List.length_replicate
  have hdec : (decimal (2 ^ 31 + 8)).length = 10 := by decide +kernel
  rw [Response.length_bytes rfl rfl rfl, Response.length, hpay, hdec]

def largeRets : List (List UInt8) :=
  [largeResponse.bytes.take (2 ^ 30), (largeResponse.bytes.drop (2 ^ 30)).take (2 ^ 30),
    (largeResponse.bytes.drop (2 ^ 30)).drop (2 ^ 30)]

/-- The response that is too long for an `int`, in three pieces, is lost: the code is -4, not 0. -/
theorem call_largeResponse :
    largeRets.flatten = largeResponse.bytes ∧ (∀ chunk ∈ largeRets, chunk ≠ []) ∧
      largeResponse.payload.length ≤ (List.replicate (2 ^ 31) (0 : UInt8)).length ∧
      largeResponse.bytes.length ≤ (List.replicate (2 ^ 31) (0 : UInt8)).length + 1024 ∧
      largeResponse.code = 0 ∧
      call (2 ^ 63) (largeRets.map some) (List.replicate (2 ^ 31) 0) = .ok (-4, List.replicate (2 ^ 31) 0) := by
  have hlen := length_largeResponse
  have hrep : (List.replicate (2 ^ 31) (0 : UInt8)).length = 2 ^ 31 := List.length_replicate
  have h1 : (largeResponse.bytes.take (2 ^ 30)).length = 2 ^ 30 := List.length_take_of_le (by omega)
  have h2 : ((largeResponse.bytes.drop (2 ^ 30)).take (2 ^ 30)).length = 2 ^ 30 :=
    List.length_take_of_le (by rw [List.length_drop]; omega)
  have h3 : ((largeResponse.bytes.drop (2 ^ 30)).drop (2 ^ 30)).length = 52 := by
    rw [List.length_drop, List.length_drop]
    omega
  refine ⟨?_, ?_, ?_, ?_, rfl, ?_⟩
  · simp only [largeRets, List.flatten_cons, List.flatten_nil, List.append_nil, List.take_append_drop]
  · intro chunk hc
    simp only [largeRets, List.mem_cons, List.not_mem_nil, or_false] at hc
    apply List.ne_nil_of_length_pos
    rcases hc with h | h | h
    · rw [h, h1]
      decide
    · rw [h, h2]
      decide
    · rw [h, h3]
      decide
  · rw [hrep]
    exact le_of_eq List.length_replicate
  · rw [hrep, hlen]
    decide
  · rw [call, hrep]
    show (receiveAll ((2 ^ 31 + 1024) % 2 ^ 64) (some _ :: some _ :: _) [] 0 >>= _) = _
    rw [receiveAll_wraps h1 h2 (by decide) (by decide), ok_bind]
    rfl

end Http
end Xv6
