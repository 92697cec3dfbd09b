/-
# What the parser does with any answer

`parse_http_response` takes for granted that a line ends before the bytes that were received
do, that a header line has a first character to skip, and that something follows the empty
line. On bytes from the network none of this holds: with no bytes at all it already reads
outside of them. It also accepts more than a server may send. This module says exactly
when it is safe (`parse_safe_iff`): when the bytes are not `Bad`.

The bytes are followed through the loop by `Passes`, which relates what is left of them
and the length before a number of header lines to what is left after.

Key definitions: `Http.Passes`, `Http.BadEnd`, `Http.Bad`, `Http.Safe`.
Key theorems: `Http.headers_safe_iff`, `Http.parse_safe_iff`.
-/
import Xv6.HttpDecode

namespace Xv6
namespace Http

variable {b b' : Buf} {p : ℕ} {bytes l r rest : List UInt8} {x : UInt8} {n : ℤ}

/-! ### Lines -/

theorem clean_cons {c d : UInt8} {w : List UInt8} (hc : c ≠ 0 ∧ c ≠ d) (hw : Clean d w) : Clean d (c :: w) := by
  intro x hx
  rcases List.mem_cons.mp hx with rfl | hx
  · exact hc
  · exact hw x hx

/-- The bytes have a first line, or it does not end. -/
theorem clean_or_splits (bytes : List UInt8) : Clean CR bytes ∨ ∃ l x rest, Splits bytes l x rest := by
  induction bytes with
  | nil => exact Or.inl fun _ h => absurd h List.not_mem_nil
  | cons c bytes ih =>
    by_cases hc : c = CR ∨ c = 0
    · exact Or.inr ⟨[], c, bytes, rfl, fun _ h => absurd h List.not_mem_nil, hc⟩
    · have hc' : c ≠ 0 ∧ c ≠ CR := ⟨fun h => hc (Or.inr h), fun h => hc (Or.inl h)⟩
      rcases ih with h | ⟨l, x, rest, rfl, hl, hx⟩
      · exact Or.inl (clean_cons hc' h)
      · exact Or.inr ⟨c :: l, x, rest, rfl, clean_cons hc' hl, hx⟩

theorem Splits.not_clean (h : Splits bytes l x rest) : ¬ Clean CR bytes := by
  intro hc
  obtain ⟨h0, hcr⟩ := hc x (by rw [h.eq]; exact List.mem_append_right _ List.mem_cons_self)
  rcases h.ends with hx | hx
  · exact hcr hx
  · exact h0 hx

/-- The first line is unique. -/
theorem Splits.unique {l' rest' : List UInt8} {x' : UInt8} (h : Splits bytes l x rest) (h' : Splits bytes l' x' rest') :
    l = l' ∧ x = x' ∧ rest = rest' := by
  obtain ⟨rfl, hl, hx⟩ := h
  obtain ⟨heq, hl', hx'⟩ := h'
  have hno : ∀ {c : UInt8}, (c = CR ∨ c = 0) → ¬ (c ≠ 0 ∧ c ≠ CR) := fun hc hn => hc.elim hn.2 hn.1
  induction l generalizing l' with
  | nil =>
    cases l' with
    | nil =>
      obtain ⟨rfl, rfl⟩ := List.cons.inj heq
      exact ⟨rfl, rfl, rfl⟩
    | cons c l' =>
      obtain ⟨rfl, -⟩ := List.cons.inj heq
      exact absurd (hl' x List.mem_cons_self) (hno hx)
  | cons c l ih =>
    cases l' with
    | nil =>
      obtain ⟨rfl, -⟩ := List.cons.inj heq
      exact absurd (hl c List.mem_cons_self) (hno hx')
    | cons c' l' =>
      obtain ⟨rfl, htail⟩ := List.cons.inj heq
      obtain ⟨rfl, h2, h3⟩ := ih hl.tail htail hl'.tail
      exact ⟨rfl, h2, h3⟩

theorem strpbrk_open {d : UInt8} {w : List UInt8} (hw : Clean d w) : strpbrk d w = .error .fault := by
  induction w with
  | nil => rfl
  | cons c w ih =>
    have hc := hw c List.mem_cons_self
    simp only [strpbrk, hc.1, hc.2, if_false, ih hw.tail]
    rfl

/-- `strsep` reads on if the line does not end. -/
theorem strsep_open (h : b.At p r) (hp : p ≠ 0) (hr : Clean CR r) : strsep b p CR = .error .fault := by
  rw [strsep, if_neg hp, h.suffix, strpbrk_open hr]
  rfl

/-! ### Numbers -/

theorem kstrtoint_range {cs : List UInt8} {v : ℤ} (h : kstrtoint cs = .ok (some v)) : -2 ^ 31 ≤ v ∧ v < 2 ^ 31 := by
  cases cs with
  | nil => cases h
  | cons c cs =>
    have hin : ∀ val : Option ℤ, val.filter (fun v => -2 ^ 31 ≤ v ∧ v < 2 ^ 31) = some v → -2 ^ 31 ≤ v ∧ v < 2 ^ 31 :=
      fun val hv => of_decide_eq_true (Option.filter_eq_some_iff.mp hv).2
    rw [kstrtoint] at h
    split at h
    · obtain ⟨u, -, hval⟩ := bind_ok h
      exact hin _ (Except.ok.inj hval)
    · obtain ⟨u, -, hval⟩ := bind_ok h
      exact hin _ (Except.ok.inj hval)

theorem parseHeader_range {v : ℤ} (h : parseHeader r n = .ok (some v)) (hn : -2 ^ 31 ≤ n ∧ n < 2 ^ 31) :
    -2 ^ 31 ≤ v ∧ v < 2 ^ 31 := by
  obtain ⟨e, -, he⟩ := bind_ok h
  cases e with
  | true => exact kstrtoint_range he
  | false =>
    obtain rfl := Option.some.inj (Except.ok.inj he)
    exact hn

theorem streq_nil (r : List UInt8) (hr : r ≠ []) : streq r [] = .ok (decide (r.head? = some 0)) := by
  cases r with
  | nil => exact absurd rfl hr
  | cons c r => simp [streq]

/-! ### What can go wrong -/

/-- Header lines that are passed over: what is left and the length, before and after. -/
inductive Passes : List UInt8 → ℤ → List UInt8 → ℤ → Prop
  | refl (rest : List UInt8) (n : ℤ) : Passes rest n rest n
  | line {bytes l rest rest' : List UInt8} {n v n' : ℤ} : Splits bytes l CR rest → (text l rest).head? ≠ some 0 →
      parseHeader (text l rest) n = .ok (some v) → Passes rest v rest' n' → Passes bytes n rest' n'

/-- The length of the payload for an announced length: `length -= sizeof(int64_t)`. -/
def payloadSize (n : ℤ) : ℤ := cInt (n - 8)

/-- A line at which something goes wrong; `good` is whether the bytes are a response, and
`size` is the size of the buffer for the payload. -/
inductive BadEnd (good : Prop) (size : ℕ) (n : ℤ) : List UInt8 → Prop
  /-- The line does not end. -/
  | endless {bytes : List UInt8} : Clean CR bytes → BadEnd good size n bytes
  /-- After an empty line, the text of the header does not end in time. -/
  | overrun {bytes l rest : List UInt8} {x : UInt8} : Splits bytes l x rest → (text l rest).head? ≠ some 0 →
      (∀ v, parseHeader (text l rest) n ≠ .ok v) → BadEnd good size n bytes
  /-- A NUL ends the headers, and so the pointer to the body is null. -/
  | noBody {bytes l rest : List UInt8} : Splits bytes l 0 rest → (text l rest).head? = some 0 →
      8 ≤ n → payloadSize n ≤ size → BadEnd good size n bytes
  /-- The length is so far below 0 that the length of the payload is not, and the body is shorter. -/
  | short {bytes l rest : List UInt8} : Splits bytes l CR rest → (text l rest).head? = some 0 →
      n ≤ rest.tail.length → 0 ≤ payloadSize n → payloadSize n ≤ size → rest.tail.length < payloadSize n + 8 →
      BadEnd good size n bytes
  /-- The code is not negative, but the bytes are no response. -/
  | accepted {bytes l rest : List UInt8} : Splits bytes l CR rest → (text l rest).head? = some 0 →
      n ≤ rest.tail.length → 0 ≤ payloadSize n → payloadSize n ≤ size → 0 ≤ int64 (rest.tail.take 8) → ¬ good →
      BadEnd good size n bytes

/-- The bytes are a response, with nothing after it. -/
def WellFormed (bytes : List UInt8) : Prop := ∃ R : Response, bytes = R.bytes

/-- The bytes on which something goes wrong. -/
def Bad (size : ℕ) (bytes : List UInt8) : Prop :=
  Clean CR bytes ∨ ∃ l rest rest' n, Splits bytes l CR rest ∧ statusError l = none ∧ Passes rest (-1) rest' n ∧
    BadEnd (WellFormed bytes) size n rest'

/-- No read outside of the bytes, no write outside of the buffer of `size` bytes, and a
negative code if the bytes are not good. -/
def Safe (good : Prop) (size : ℕ) (result : Except Stop (ℤ × List UInt8)) : Prop :=
  ∃ v response, result = .ok (v, response) ∧ response.length = size ∧ (¬ good → v < 0)

variable {good : Prop} {size : ℕ} {response : List UInt8}

theorem safe_error (e : Stop) : ¬ Safe good size (.error e) := by
  rintro ⟨v, response, h, -⟩
  cases h

theorem safe_ok {v : ℤ} : Safe good size (.ok (v, response)) ↔ response.length = size ∧ (¬ good → v < 0) := by
  constructor
  · rintro ⟨v', response', h, hsize, hgood⟩
    cases h
    exact ⟨hsize, hgood⟩
  · rintro ⟨hsize, hgood⟩
    exact ⟨v, response, rfl, hsize, hgood⟩

theorem safe_negative {v : ℤ} (hv : v < 0) : Safe good response.length (.ok (v, response)) := safe_ok.mpr ⟨rfl, fun _ => hv⟩

/-! ### The body -/

/-- The body is delivered if its end lies in the bytes as the pointers are compared, and the
payload fits the buffer. -/
theorem parseBody_safe_iff {a s : ℕ} {body : List UInt8} (hbody : b.suffix p = body) (hrest : b.suffix (p + 8) = body.drop 8)
    (hn : -2 ^ 31 ≤ n ∧ n < 2 ^ 31) (hsize : response.length < 2 ^ 63) :
    Safe good response.length (parseBody a s b p n response) ↔
      ¬ (¬ (a + s) % 2 ^ 64 < cSize (p + n) ∧ 0 ≤ payloadSize n ∧ payloadSize n ≤ response.length ∧
        (body.length < payloadSize n + 8 ∨ 0 ≤ int64 (body.take 8) ∧ ¬ good)) := by
  have hpay : payloadSize n = (n - 8 + 2 ^ 31) % 2 ^ 32 - 2 ^ 31 := rfl
  have hcn : cSize n = (n % 2 ^ 64).toNat := rfl
  rw [parseBody]
  by_cases h1 : n = -1
  · rw [if_pos h1]
    refine iff_of_true (safe_negative (by decide)) ?_
    rintro ⟨-, h, -⟩
    omega
  rw [if_neg h1]
  by_cases h2 : (a + s) % 2 ^ 64 < cSize (p + n)
  · rw [if_pos h2]
    exact iff_of_true (safe_negative (by decide)) fun h => h.1 h2
  rw [if_neg h2]
  by_cases h3 : cSize n < 8
  · rw [if_pos h3]
    refine iff_of_true (safe_negative (by decide)) ?_
    rintro ⟨-, h, -⟩
    omega
  rw [if_neg h3]
  show Safe _ _ (if response.length < cSize (payloadSize n) then _ else _) ↔ _
  have hcp : cSize (payloadSize n) = (payloadSize n % 2 ^ 64).toNat := rfl
  by_cases h4 : response.length < cSize (payloadSize n)
  · rw [if_pos h4]
    refine iff_of_true (safe_negative (by decide)) ?_
    rintro ⟨-, h, h', -⟩
    omega
  have h0 : 0 ≤ payloadSize n ∧ payloadSize n ≤ response.length ∧ (cSize (payloadSize n) : ℤ) = payloadSize n := by omega
  rw [if_neg h4]
  show Safe _ _ (b.read p 8 >>= fun value => b.read (p + 8) (cSize (payloadSize n)) >>= fun data => _) ↔ _
  by_cases h5 : body.length < payloadSize n + 8
  · refine iff_of_false ?_ fun h => h ⟨h2, h0.1, h0.2.1, Or.inl h5⟩
    rw [Buf.read, hbody]
    by_cases h8 : 8 ≤ body.length
    · have hlong : ¬ cSize (payloadSize n) ≤ (body.drop 8).length := by
        rw [List.length_drop]
        omega
      rw [if_pos h8, ok_bind, Buf.read, hrest, if_neg hlong]
      exact safe_error _
    · rw [if_neg h8]
      exact safe_error _
  · have hlen : cSize (payloadSize n) ≤ (body.drop 8).length := by
      rw [List.length_drop]
      omega
    rw [Buf.read, hbody, if_pos (by omega), ok_bind, Buf.read, hrest, if_pos hlen, ok_bind, safe_ok, List.length_append,
      List.length_take_of_le hlen, List.length_drop]
    constructor
    · rintro ⟨-, hv⟩ ⟨-, -, -, h | ⟨hv', hgood⟩⟩
      · exact h5 h
      · exact absurd (hv hgood) (by omega)
    · intro h
      refine ⟨by omega, fun hgood => ?_⟩
      by_contra hv
      exact h ⟨h2, h0.1, h0.2.1, Or.inr ⟨by omega, hgood⟩⟩

/-! ### The headers -/

/-- Something goes wrong from here on. -/
def BadFrom (good : Prop) (size : ℕ) (bytes : List UInt8) (n : ℤ) : Prop :=
  ∃ rest n', Passes bytes n rest n' ∧ BadEnd good size n' rest

/-- Where the loop ends, only what is done with the body can go wrong. -/
theorem badFrom_end (h : Splits bytes l x rest) (hend : (text l rest).head? = some 0) :
    BadFrom good size bytes n ↔ BadEnd good size n bytes := by
  constructor
  · rintro ⟨rest', n', hpass, hbad⟩
    cases hpass with
    | refl => exact hbad
    | line h' hne =>
      obtain ⟨rfl, -, rfl⟩ := h.unique h'
      exact absurd hend hne
  · intro hbad
    exact ⟨bytes, n, .refl _ _, hbad⟩

theorem badEnd_nul (h : Splits bytes l 0 rest) (hend : (text l rest).head? = some 0) :
    BadEnd good size n bytes ↔ 8 ≤ n ∧ payloadSize n ≤ size := by
  constructor
  · rintro (h' | ⟨h', hne⟩ | ⟨-, -, h8, hsize⟩ | ⟨h'⟩ | ⟨h'⟩)
    · exact absurd h' h.not_clean
    · obtain ⟨rfl, -, rfl⟩ := h.unique h'
      exact absurd hend hne
    · exact ⟨h8, hsize⟩
    · exact absurd (h.unique h').2.1 (by decide)
    · exact absurd (h.unique h').2.1 (by decide)
  · rintro ⟨h8, hsize⟩
    exact .noBody h hend h8 hsize

theorem badEnd_cr (h : Splits bytes l CR rest) (hend : (text l rest).head? = some 0) :
    BadEnd good size n bytes ↔ n ≤ rest.tail.length ∧ 0 ≤ payloadSize n ∧ payloadSize n ≤ size ∧
      (rest.tail.length < payloadSize n + 8 ∨ 0 ≤ int64 (rest.tail.take 8) ∧ ¬ good) := by
  constructor
  · rintro (h' | ⟨h', hne⟩ | ⟨h'⟩ | ⟨h', -, hn, h0, hs, hshort⟩ | ⟨h', -, hn, h0, hs, hv, hgood⟩)
    · exact absurd h' h.not_clean
    · obtain ⟨rfl, -, rfl⟩ := h.unique h'
      exact absurd hend hne
    · exact absurd (h.unique h').2.1 (by decide)
    · obtain ⟨rfl, -, rfl⟩ := h.unique h'
      exact ⟨hn, h0, hs, Or.inl hshort⟩
    · obtain ⟨rfl, -, rfl⟩ := h.unique h'
      exact ⟨hn, h0, hs, Or.inr ⟨hv, hgood⟩⟩
  · rintro ⟨hn, h0, hs, hshort | ⟨hv, hgood⟩⟩
    · exact .short h hend hn h0 hs hshort
    · exact .accepted h hend hn h0 hs hv hgood

/-- Nothing goes wrong at a line that can be read as a header. -/
theorem not_badEnd_header {v : Option ℤ} (h : Splits bytes l x rest) (hne : (text l rest).head? ≠ some 0)
    (hv : parseHeader (text l rest) n = .ok v) : ¬ BadEnd good size n bytes := by
  rintro (h' | ⟨h', -, hno⟩ | ⟨h', hend⟩ | ⟨h', hend⟩ | ⟨h', hend⟩)
  · exact h.not_clean h'
  · obtain ⟨rfl, -, rfl⟩ := h.unique h'
    exact hno _ hv
  all_goals
    obtain ⟨rfl, -, rfl⟩ := h.unique h'
    exact hne hend

/-- After such a line things go wrong where they do after it. -/
theorem badFrom_line {v : ℤ} (h : Splits bytes l x rest) (hne : (text l rest).head? ≠ some 0)
    (hv : parseHeader (text l rest) n = .ok (some v)) :
    BadFrom good size bytes n ↔ x = CR ∧ BadFrom good size rest v := by
  constructor
  · rintro ⟨rest', n', hpass, hbad⟩
    cases hpass with
    | refl => exact absurd hbad (not_badEnd_header h hne hv)
    | line h' hne' hv' hpass =>
      obtain ⟨rfl, rfl, rfl⟩ := h.unique h'
      obtain rfl := Option.some.inj (Except.ok.inj (hv.symm.trans hv'))
      exact ⟨rfl, rest', n', hpass, hbad⟩
  · rintro ⟨rfl, rest', n', hpass, hbad⟩
    exact ⟨rest', n', .line h hne hv hpass, hbad⟩

/-- A header with a bad number is rejected. -/
theorem not_badFrom_reject (h : Splits bytes l x rest) (hne : (text l rest).head? ≠ some 0)
    (hv : parseHeader (text l rest) n = .ok none) : ¬ BadFrom good size bytes n := by
  rintro ⟨rest', n', hpass, hbad⟩
  cases hpass with
  | refl => exact not_badEnd_header h hne hv hbad
  | line h' hne' hv' hpass =>
    obtain ⟨rfl, rfl, rfl⟩ := h.unique h'
    cases hv.symm.trans hv'

/-- Where the bytes lie: not among the lowest addresses, nor the highest. -/
structure Placed (raw : Buf) : Prop where
  low : 2 ^ 31 ≤ raw.base
  high : raw.base + raw.bytes.length + 2 ^ 31 < 2 ^ 64

/-- The end of the loop at a CR: the body is what follows the next character. -/
theorem body_safe_iff {raw : Buf} (hraw : Placed raw) (hlike : raw.Like b) (hat : b.At p rest)
    (hn : -2 ^ 31 ≤ n ∧ n < 2 ^ 31) (hsize : response.length < 2 ^ 63) :
    Safe good response.length (parseBody raw.base raw.bytes.length b (p + 1) n response) ↔
      ¬ (n ≤ rest.tail.length ∧ 0 ≤ payloadSize n ∧ payloadSize n ≤ response.length ∧
        (rest.tail.length < payloadSize n + 8 ∨ 0 ≤ int64 (rest.tail.take 8) ∧ ¬ good)) := by
  have hsuffix : ∀ k, b.suffix (p + 1 + k) = rest.tail.drop k := by
    intro k
    have hbase := hat.base
    rw [Buf.suffix, if_pos (by omega), ← hat.drop, List.tail_drop, List.drop_drop]
    congr 1
    omega
  rw [parseBody_safe_iff (hsuffix 0) (hsuffix 8) hn hsize]
  have haddr := hat.addr
  have hbase := hat.base
  rw [hlike.1, hlike.2] at haddr
  rw [hlike.1] at hbase
  have hlow := hraw.low
  have hhigh := hraw.high
  have hpay : payloadSize n = (n - 8 + 2 ^ 31) % 2 ^ 32 - 2 ^ 31 := rfl
  have hguard : 0 ≤ payloadSize n →
      (¬ (raw.base + raw.bytes.length) % 2 ^ 64 < cSize ((p + 1 : ℕ) + n) ↔ n ≤ rest.tail.length) := by
    intro h0
    rw [Nat.mod_eq_of_lt (by omega), cSize, List.length_tail]
    omega
  rw [not_iff_not, List.drop_zero]
  constructor
  · rintro ⟨hg, h0, hrest⟩
    exact ⟨(hguard h0).mp hg, h0, hrest⟩
  · rintro ⟨hg, h0, hrest⟩
    exact ⟨(hguard h0).mpr hg, h0, hrest⟩

/-- The end of the loop at a NUL: the body is at the address 1. -/
theorem null_safe_iff {raw : Buf} (hraw : Placed raw) (hlike : raw.Like b) (hn : -2 ^ 31 ≤ n ∧ n < 2 ^ 31)
    (hsize : response.length < 2 ^ 63) :
    Safe good response.length (parseBody raw.base raw.bytes.length b (0 + 1) n response) ↔
      ¬ (8 ≤ n ∧ payloadSize n ≤ response.length) := by
  have hlow := hraw.low
  have hhigh := hraw.high
  have hsuffix : ∀ a, a < 2 ^ 31 → b.suffix a = [] := by
    intro a ha
    rw [Buf.suffix, hlike.1, if_neg (by omega)]
  have hpay : payloadSize n = (n - 8 + 2 ^ 31) % 2 ^ 32 - 2 ^ 31 := rfl
  rw [parseBody_safe_iff (hsuffix _ (by decide)) (hsuffix _ (by decide)) hn hsize, not_iff_not, Nat.mod_eq_of_lt (by omega), cSize]
  constructor
  · rintro ⟨hg, h0, hs, -⟩
    exact ⟨by omega, hs⟩
  · rintro ⟨h8, hs⟩
    exact ⟨by omega, by omega, hs, Or.inl (by rw [List.length_nil]; omega)⟩

/-- The loop, and then the body. -/
theorem headers_safe_iff {raw : Buf} {f : ℕ} (hraw : Placed raw) (hsize : response.length < 2 ^ 63) (hlike : raw.Like b)
    (hat : b.At p bytes) (hp : p ≠ 0) (hn : -2 ^ 31 ≤ n ∧ n < 2 ^ 31) (hf : bytes.length < f) :
    Safe good response.length (parseHeaders f b p n >>= fun r => r.elim (.ok (-6, response)) fun r =>
      parseBody raw.base raw.bytes.length r.1 (r.2.1 + 1) r.2.2 response) ↔ ¬ BadFrom good response.length bytes n := by
  -- each round leaves fewer bytes, and one unit of fuel less
  induction f generalizing b p bytes n with
  | zero => exact absurd hf (Nat.not_lt_zero _)
  | succ f ih =>
    rcases clean_or_splits bytes with hclean | ⟨l, x, rest, hl⟩
    · refine iff_of_false ?_ fun h => h ⟨bytes, n, .refl _ _, .endless hclean⟩
      rw [parseHeaders, if_neg hp, strsep_open hat hp hclean]
      exact safe_error _
    obtain ⟨b', hlike', hat', hround⟩ := parseHeaders_round f n hat hp hl
    rw [hround]
    by_cases htext : text l rest = []
    · have hnot : (text l rest).head? ≠ some 0 := by
        rw [htext]
        intro h
        cases h
      have hno : ∀ v, parseHeader (text l rest) n ≠ .ok v := by
        rw [htext]
        intro v h
        cases h
      refine iff_of_false ?_ fun h => h ⟨bytes, n, .refl _ _, .overrun hl hnot hno⟩
      rw [htext]
      exact safe_error _
    rw [streq_nil _ htext, ok_bind]
    by_cases hend : (text l rest).head? = some 0
    · rw [if_pos (decide_eq_true hend), ok_bind, Option.elim_some, badFrom_end hl hend]
      rcases hl.ends with rfl | rfl
      · rw [if_pos rfl, badEnd_cr hl hend]
        exact body_safe_iff hraw (hlike.trans hlike') hat' hn hsize
      · rw [if_neg (by decide), badEnd_nul hl hend]
        exact null_safe_iff hraw (hlike.trans hlike') hn hsize
    rw [if_neg fun h => hend (of_decide_eq_true h)]
    cases hv : parseHeader (text l rest) n with
    | error e =>
      refine iff_of_false (safe_error _) fun h => h ⟨bytes, n, .refl _ _, .overrun hl hend ?_⟩
      intro v hv'
      cases hv.symm.trans hv'
    | ok v =>
      cases v with
      | none => exact iff_of_true (safe_negative (by decide)) (not_badFrom_reject hl hend hv)
      | some v =>
        rw [ok_bind, Option.elim_some, badFrom_line hl hend hv]
        have hlen : rest.length < f := by
          have := congrArg List.length hl.eq
          rw [List.length_append, List.length_cons] at this
          omega
        rcases hl.ends with rfl | rfl
        · rw [if_pos rfl, ih (hlike.trans hlike') hat' (Nat.succ_ne_zero _) (parseHeader_range hv hn) hlen]
          exact not_congr ⟨fun h => ⟨rfl, h⟩, And.right⟩
        · rw [if_neg (by decide)]
          refine iff_of_true ?_ fun h => absurd h.1 (by decide)
          obtain ⟨f', rfl⟩ : ∃ f', f = f' + 1 := ⟨f - 1, by omega⟩
          exact safe_negative (by decide)

/-- **The parser is safe exactly on the bytes that are not bad.** -/
theorem parse_safe_iff {raw : Buf} {response : List UInt8} (hraw : Placed raw) (hsize : response.length < 2 ^ 63) :
    Safe (WellFormed raw.bytes) response.length (parseHttpResponse raw response) ↔ ¬ Bad response.length raw.bytes := by
  have hp : raw.base ≠ 0 := by
    have := hraw.low
    omega
  have hat : raw.At raw.base raw.bytes := ⟨le_rfl, by omega, by rw [Nat.sub_self]; rfl⟩
  rcases clean_or_splits raw.bytes with hclean | ⟨l, x, rest, hl⟩
  · refine iff_of_false ?_ fun h => h (Or.inl hclean)
    rw [parseHttpResponse, strsep_open hat hp hclean]
    exact safe_error _
  obtain ⟨b0, hsep, hlike0, hat0⟩ := strsep_splits hat hp hl
  obtain ⟨b1, hlike1, hat1, hstatus⟩ := parse_status response hat0 hlike0 hp (fun h => (hl.clean 0 h).1 rfl) hsep
  rw [hstatus]
  cases he : statusError l with
  | some e =>
    have hneg : e < 0 := by
      rw [statusError] at he
      split_ifs at he
      all_goals
        obtain rfl := Option.some.inj he
        decide
    refine iff_of_true (safe_negative hneg) ?_
    rintro (h | ⟨l', rest', rest'', n, hl', hgood, -⟩)
    · exact hl.not_clean h
    · obtain ⟨rfl, -, -⟩ := hl.unique hl'
      cases he.symm.trans hgood
  | none =>
    rcases hl.ends with rfl | rfl
    · have hlen : rest.length < raw.bytes.length + 1 := by
        rw [hl.eq, List.length_append, List.length_cons]
        omega
      rw [if_pos rfl]
      refine (headers_safe_iff hraw hsize hlike1 hat1 (Nat.succ_ne_zero _) (by decide) hlen).trans (not_congr ?_)
      constructor
      · rintro ⟨rest', n, hpass, hbad⟩
        exact Or.inr ⟨l, rest, rest', n, hl, he, hpass, hbad⟩
      · rintro (h | ⟨l', rest1, rest', n, hl', -, hpass, hbad⟩)
        · exact absurd h hl.not_clean
        · obtain ⟨rfl, -, rfl⟩ := hl.unique hl'
          exact ⟨rest', n, hpass, hbad⟩
    · rw [if_neg (by decide)]
      refine iff_of_true (safe_negative (by decide)) ?_
      rintro (h | ⟨l', rest1, rest', n, hl', -⟩)
      · exact hl.not_clean h
      · exact absurd (hl.unique hl').2.1 (by decide)

/-- A server that closes the connection without an answer. -/
theorem parse_safe_nothing : ¬ Safe (WellFormed []) 0 (parseHttpResponse ⟨2 ^ 63, []⟩ []) := by
  intro h
  have hplaced : Placed ⟨2 ^ 63, []⟩ := ⟨by decide, by decide⟩
  have hiff : Safe (WellFormed []) 0 (parseHttpResponse ⟨2 ^ 63, []⟩ []) ↔ ¬ Bad 0 [] := parse_safe_iff hplaced (by decide)
  exact hiff.mp h (Or.inl fun _ hc => absurd hc List.not_mem_nil)

/-- With no bytes, the first read is outside of them; and after a length of 8 a NUL makes the
module read at the address 1. -/
theorem parse_outside :
    parseHttpResponse ⟨2 ^ 63, []⟩ [] = .error .fault ∧
      parseHttpResponse ⟨2 ^ 63, chars ['H', 'T', 'T', 'P', '/', '1', '.', '1', ' ', '2', '0', '0', '\r', '\n'] ++
        contentLength ++ chars ['8', '\r', '\n'] ++ [0]⟩ [] = .error .fault := by
  decide +kernel

end Http
end Xv6
