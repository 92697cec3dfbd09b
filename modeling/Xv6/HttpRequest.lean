/-
# The requests of the HTTP client

`encode` and `fill_request` of `vfs-kernel-module/source/http.c`. The request is put
together with `strcpy` and `strcat` in a buffer of 2048 + 64 bytes; a write behind it is
`Stop.fault`. `sprintf(dst, "%%%02X", c)` writes a percent sign and two upper-case
hexadecimal digits.

An encoded string consists of letters, digits and percent signs. So the separators of a
request are those that `fill_request` put there, and reading its target back recovers what
it was made of (`Call.decode_url`). What is around the target has 51 bytes with the NUL,
which is why the buffer is large enough (`Call.requests_decode`).

Key definitions: `Http.encode`, `Http.fillRequest`, `Http.Call`, `Http.decodeTarget`.
Key theorems: `Http.fillRequest_eq`, `Http.percentDecode_encode`, `Http.Call.requests_decode`.
-/
import Xv6.Http

namespace Xv6
namespace Http

/-! ### The code -/

def alnum (c : UInt8) : Bool :=
  ('0'.toUInt8 ≤ c && c ≤ '9'.toUInt8) || ('a'.toUInt8 ≤ c && c ≤ 'z'.toUInt8) || ('A'.toUInt8 ≤ c && c ≤ 'Z'.toUInt8)

/-- A digit of `%X`. -/
def hexDigit (n : ℕ) : UInt8 := (chars ['0', '1', '2', '3', '4', '5', '6', '7', '8', '9', 'A', 'B', 'C', 'D', 'E', 'F']).getD n 0

/-- `encode`, from the bytes of `src` before its NUL to those of `dst`. -/
def encode : List UInt8 → List UInt8
  | [] => []
  | c :: src =>
    if alnum c then c :: encode src
    else '%'.toUInt8 :: hexDigit (c.toNat / 16) :: hexDigit (c.toNat % 16) :: encode src

/-- A string and its NUL, at an offset. -/
def writeStr (buf : List UInt8) (i : ℕ) (s : List UInt8) : Except Stop (List UInt8) :=
  if i + s.length < buf.length then .ok (buf.take i ++ s ++ 0 :: buf.drop (i + s.length + 1)) else .error .fault

def strcpy (buf s : List UInt8) : Except Stop (List UInt8) := writeStr buf 0 s

def strcat (buf s : List UInt8) : Except Stop (List UInt8) := do writeStr buf (← strlen buf) s

def SERVERIP : List UInt8 := chars ['0', '.', '0', '.', '0', '.', '0']

/-- The loop over the arguments: a key and a value in each round. -/
def fillArgs : ℕ → List (List UInt8) → List UInt8 → Except Stop (List UInt8)
  | 0, _, buf => .ok buf
  | n + 1, key :: value :: args, buf => do
    let buf ← strcat buf (chars ['&'])
    let buf ← strcat buf key
    let buf ← strcat buf (chars ['='])
    let buf ← strcat buf value
    fillArgs n args buf
  | _ + 1, _, _ => .error .fault

/-- `fill_request`: the bytes of `vec`, or `none` for `-ENOMEM`. `alloc` is whether `kzalloc`
returns memory. -/
def fillRequest (alloc : Bool) (token method : List UInt8) (argSize : ℕ) (args : List (List UInt8)) :
    Except Stop (Option (List UInt8)) :=
  if ¬alloc then .ok none
  else do
    let buf ← strcpy (List.replicate (2048 + 64) 0) (chars ['G', 'E', 'T', ' ', '/', 'a', 'p', 'i', '/'])
    let buf ← strcat buf method
    let buf ← strcat buf (chars ['?', 't', 'o', 'k', 'e', 'n', '='])
    let buf ← strcat buf token
    let buf ← fillArgs argSize args buf
    let buf ← strcat buf (chars [' ', 'H', 'T', 'T', 'P', '/', '1', '.', '1', '\r', '\n', 'H', 'o', 's', 't', ':'])
    let buf ← strcat buf SERVERIP
    let buf ← strcat buf (chars ['\r', '\n', 'C', 'o', 'n', 'n', 'e', 'c', 't', 'i', 'o', 'n', ':', ' ', 'c', 'l', 'o', 's', 'e',
      '\r', '\n', '\r', '\n'])
    .ok (some (buf.take (← strlen buf)))

/-! ### The buffer -/

/-- The buffer holds a string. -/
def Holds (buf s : List UInt8) : Prop := (0 : UInt8) ∉ s ∧ s ++ [0] <+: buf

theorem strlen_append {s : List UInt8} (h : (0 : UInt8) ∉ s) (rest : List UInt8) : strlen (s ++ 0 :: rest) = .ok s.length := by
  induction s with
  | nil => rfl
  | cons c s ih =>
    rw [List.mem_cons, not_or] at h
    rw [List.cons_append, strlen, if_neg (Ne.symm h.1), ih h.2]
    rfl

theorem Holds.strlen {buf s : List UInt8} (h : Holds buf s) : strlen buf = .ok s.length := by
  obtain ⟨rest, rfl⟩ := h.2
  rw [List.append_assoc]
  exact strlen_append h.1 rest

theorem Holds.take {buf s : List UInt8} (h : Holds buf s) : buf.take s.length = s := by
  obtain ⟨rest, rfl⟩ := h.2
  rw [List.append_assoc, List.take_left]

theorem Holds.strcat_fault {buf s t : List UInt8} (h : Holds buf s) (hbig : buf.length ≤ (s ++ t).length) :
    strcat buf t = .error .fault := by
  rw [List.length_append] at hbig
  rw [strcat, h.strlen, ok_bind, writeStr, if_neg (Nat.not_lt.mpr hbig)]

theorem Holds.strcat_ok {buf s t : List UInt8} (h : Holds buf s) (ht : (0 : UInt8) ∉ t) (hroom : (s ++ t).length < buf.length) :
    ∃ buf', strcat buf t = .ok buf' ∧ Holds buf' (s ++ t) ∧ buf'.length = buf.length := by
  rw [List.length_append] at hroom
  refine ⟨s ++ t ++ 0 :: buf.drop (s.length + t.length + 1), ?_, ⟨?_, ?_⟩, ?_⟩
  · rw [strcat, h.strlen, ok_bind, writeStr, if_pos hroom, h.take]
  · rw [List.mem_append]
    exact not_or.mpr ⟨h.1, ht⟩
  · exact ⟨_, by rw [List.append_assoc _ [0]]; rfl⟩
  · rw [List.length_append, List.length_append, List.length_cons, List.length_drop]
    omega

/-- A number of strings after each other, as long as there is room. -/
theorem Holds.strcats (parts : List (List UInt8)) : ∀ {buf s : List UInt8}, Holds buf s → (∀ t ∈ parts, (0 : UInt8) ∉ t) →
    ((s ++ parts.flatten).length < buf.length → ∃ buf', parts.foldlM strcat buf = .ok buf' ∧ Holds buf' (s ++ parts.flatten)) ∧
    (s.length < buf.length → buf.length ≤ (s ++ parts.flatten).length → parts.foldlM strcat buf = .error .fault) := by
  induction parts with
  | nil =>
    intro buf s h _
    rw [List.flatten_nil, List.append_nil]
    exact ⟨fun _ => ⟨buf, rfl, h⟩, fun hlt hle => absurd hlt (Nat.not_lt.mpr hle)⟩
  | cons t parts ih =>
    intro buf s h hparts
    obtain ⟨ht, hparts⟩ := List.forall_mem_cons.mp hparts
    rw [List.flatten_cons, ← List.append_assoc, List.foldlM_cons]
    by_cases hroom : (s ++ t).length < buf.length
    · obtain ⟨buf', hcat, hh, hlen⟩ := h.strcat_ok ht hroom
      rw [hcat, ok_bind, ← hlen]
      exact ⟨(ih hh hparts).1, fun _ => (ih hh hparts).2 (hlen ▸ hroom)⟩
    · rw [h.strcat_fault (Nat.le_of_not_lt hroom)]
      refine ⟨fun hlt => absurd hlt ?_, fun _ _ => rfl⟩
      rw [List.length_append] at ⊢
      omega

/-! ### The request -/

/-- The strings of a parameter in the order they are appended. -/
def paramParts (p : List UInt8 × List UInt8) : List (List UInt8) := [chars ['&'], p.1, chars ['='], p.2]

theorem fillArgs_eq (pairs : List (List UInt8 × List UInt8)) : ∀ buf,
    fillArgs pairs.length (pairs.flatMap fun p => [p.1, p.2]) buf = (pairs.flatMap paramParts).foldlM strcat buf := by
  induction pairs with
  | nil => exact fun _ => rfl
  | cons p pairs ih =>
    intro buf
    simp only [List.length_cons, List.flatMap_cons, List.cons_append, List.nil_append, fillArgs, ih, paramParts, List.foldlM_cons]

/-- The part of a request that the buffer has 2048 bytes for. -/
def urlOf (token method : List UInt8) (pairs : List (List UInt8 × List UInt8)) : List UInt8 :=
  chars ['/', 'a', 'p', 'i', '/'] ++ method ++ chars ['?', 't', 'o', 'k', 'e', 'n', '='] ++ token ++
    pairs.flatMap fun p => chars ['&'] ++ p.1 ++ chars ['='] ++ p.2

def beforeUrl : List UInt8 := chars ['G', 'E', 'T', ' ']

def afterUrl : List UInt8 :=
  chars [' ', 'H', 'T', 'T', 'P', '/', '1', '.', '1', '\r', '\n', 'H', 'o', 's', 't', ':'] ++ SERVERIP ++
    chars ['\r', '\n', 'C', 'o', 'n', 'n', 'e', 'c', 't', 'i', 'o', 'n', ':', ' ', 'c', 'l', 'o', 's', 'e', '\r', '\n', '\r', '\n']

/-- The strings after the first in the order they are appended. -/
def requestParts (token method : List UInt8) (pairs : List (List UInt8 × List UInt8)) : List (List UInt8) :=
  [method, chars ['?', 't', 'o', 'k', 'e', 'n', '='], token] ++ pairs.flatMap paramParts ++
    [chars [' ', 'H', 'T', 'T', 'P', '/', '1', '.', '1', '\r', '\n', 'H', 'o', 's', 't', ':'], SERVERIP,
      chars ['\r', '\n', 'C', 'o', 'n', 'n', 'e', 'c', 't', 'i', 'o', 'n', ':', ' ', 'c', 'l', 'o', 's', 'e', '\r', '\n', '\r', '\n']]

theorem flatten_params (pairs : List (List UInt8 × List UInt8)) :
    (pairs.flatMap paramParts).flatten = pairs.flatMap fun p => chars ['&'] ++ p.1 ++ chars ['='] ++ p.2 := by
  induction pairs with
  | nil => rfl
  | cons p pairs ih =>
    rw [List.flatMap_cons, List.flatMap_cons, List.flatten_append, ih]
    simp only [paramParts, List.flatten_cons, List.flatten_nil, List.append_nil, List.append_assoc]

theorem flatten_request (token method : List UInt8) (pairs : List (List UInt8 × List UInt8)) :
    chars ['G', 'E', 'T', ' ', '/', 'a', 'p', 'i', '/'] ++ (requestParts token method pairs).flatten =
      beforeUrl ++ urlOf token method pairs ++ afterUrl := by
  have hstart : chars ['G', 'E', 'T', ' ', '/', 'a', 'p', 'i', '/'] = beforeUrl ++ chars ['/', 'a', 'p', 'i', '/'] := rfl
  rw [requestParts, List.flatten_append, List.flatten_append, flatten_params, hstart, urlOf, afterUrl]
  simp only [List.flatten_cons, List.flatten_nil, List.append_nil, List.append_assoc]

/-- The strings that a request is made of. -/
structure Texts (token method : List UInt8) (pairs : List (List UInt8 × List UInt8)) : Prop where
  token : (0 : UInt8) ∉ token
  method : (0 : UInt8) ∉ method
  pairs : ∀ p ∈ pairs, (0 : UInt8) ∉ p.1 ∧ (0 : UInt8) ∉ p.2

theorem Texts.parts {token method : List UInt8} {pairs : List (List UInt8 × List UInt8)} (h : Texts token method pairs) :
    ∀ t ∈ requestParts token method pairs, (0 : UInt8) ∉ t := by
  intro t ht
  rw [requestParts, List.mem_append, List.mem_append, List.mem_flatMap] at ht
  rcases ht with (ht | ⟨p, hp, ht⟩) | ht
  · rcases List.mem_cons.mp ht with rfl | ht
    · exact h.method
    rcases List.mem_cons.mp ht with rfl | ht
    · decide
    · exact List.mem_singleton.mp ht ▸ h.token
  · rcases List.mem_cons.mp ht with rfl | ht
    · decide
    rcases List.mem_cons.mp ht with rfl | ht
    · exact (h.pairs p hp).1
    rcases List.mem_cons.mp ht with rfl | ht
    · decide
    · exact List.mem_singleton.mp ht ▸ (h.pairs p hp).2
  · revert t
    decide

/-- **`fill_request` puts the request together, or goes past the buffer.** -/
theorem fillRequest_eq {token method : List UInt8} {pairs : List (List UInt8 × List UInt8)} (h : Texts token method pairs) :
    fillRequest true token method pairs.length (pairs.flatMap fun p => [p.1, p.2]) =
      if (beforeUrl ++ urlOf token method pairs ++ afterUrl).length < 2048 + 64
      then .ok (some (beforeUrl ++ urlOf token method pairs ++ afterUrl)) else .error .fault := by
  -- on a buffer of zeros `strcpy` does what `strcat` does
  have hempty : Holds (List.replicate (2048 + 64) 0) [] := ⟨List.not_mem_nil, ⟨List.replicate (2048 + 63) 0, List.replicate_succ.symm⟩⟩
  obtain ⟨buf, hbuf, hholds, hlen⟩ := hempty.strcat_ok (t := chars ['G', 'E', 'T', ' ', '/', 'a', 'p', 'i', '/'])
    (by decide) (by rw [List.length_replicate]; decide)
  rw [strcat, hempty.strlen, ok_bind] at hbuf
  rw [List.length_replicate] at hlen
  rw [List.nil_append] at hholds
  have hparts := hholds.strcats (requestParts token method pairs) h.parts
  rw [flatten_request, hlen] at hparts
  have hfill : fillRequest true token method pairs.length (pairs.flatMap fun p => [p.1, p.2]) =
      (requestParts token method pairs).foldlM strcat buf >>= fun b => strlen b >>= fun n => .ok (some (b.take n)) := by
    rw [fillRequest, if_neg (by decide), show strcpy _ _ = _ from hbuf, ok_bind]
    simp only [requestParts, fillArgs_eq, List.foldlM_append, List.foldlM_cons, List.foldlM_nil, bind_assoc, pure_bind,
      List.cons_append, List.nil_append]
  rw [hfill]
  by_cases hfit : (beforeUrl ++ urlOf token method pairs ++ afterUrl).length < 2048 + 64
  · obtain ⟨buf', hrun, hh⟩ := hparts.1 hfit
    rw [hrun, ok_bind, hh.strlen, ok_bind, hh.take, if_pos hfit]
  · rw [hparts.2 (by decide) (Nat.le_of_not_lt hfit), if_neg hfit]
    rfl

/-! ### Reading a request -/

/-- Percent-decoding; `none` if a percent sign is not followed by two hexadecimal digits. -/
def percentDecode : List UInt8 → Option (List UInt8)
  | [] => some []
  | c :: s =>
    if c = '%'.toUInt8 then
      match s with
      | a :: b :: s => do
        let hi ← digit a
        let lo ← digit b
        let rest ← percentDecode s
        some (UInt8.ofNat (16 * hi + lo) :: rest)
      | _ => none
    else (percentDecode s).map (c :: ·)

/-- A parameter: a key and a value with an equals sign between them. -/
def decodeParam (p : List UInt8) : Option (List UInt8 × List UInt8) :=
  match p.splitOn '='.toUInt8 with
  | [key, value] => do some (← percentDecode key, ← percentDecode value)
  | _ => none

/-- The method, the token and the parameters of a target. -/
def decodeTarget (target : List UInt8) : Option (List UInt8 × List UInt8 × List (List UInt8 × List UInt8)) :=
  match target.splitOn '?'.toUInt8 with
  | [path, query] => do
    if ¬chars ['/', 'a', 'p', 'i', '/'] <+: path then none
    else
      match ← (query.splitOn '&'.toUInt8).mapM decodeParam with
      | (key, token) :: pairs => if key = chars ['t', 'o', 'k', 'e', 'n'] then some (path.drop 5, token, pairs) else none
      | [] => none
  | _ => none

/-- The alphabet of an encoded string. -/
def plain (c : UInt8) : Bool := alnum c || c == '%'.toUInt8

theorem alnum_hexDigit : ∀ n < 16, alnum (hexDigit n) = true ∧ digit (hexDigit n) = some n := by decide

theorem hex_bounds (c : UInt8) : c.toNat / 16 < 16 ∧ c.toNat % 16 < 16 := by
  have := c.toNat_lt
  omega

theorem plain_encode {s : List UInt8} : ∀ c ∈ encode s, plain c = true := by
  have halnum : ∀ {c}, alnum c = true → plain c = true := fun h => by rw [plain, h, Bool.true_or]
  induction s with
  | nil => exact fun c hc => absurd hc List.not_mem_nil
  | cons x s ih =>
    intro c hc
    rw [encode] at hc
    obtain ⟨hhi, hlo⟩ := hex_bounds x
    by_cases hx : alnum x = true
    · rw [if_pos hx, List.mem_cons] at hc
      rcases hc with rfl | hc
      · exact halnum hx
      · exact ih c hc
    · rw [if_neg hx, List.mem_cons, List.mem_cons, List.mem_cons] at hc
      rcases hc with rfl | rfl | rfl | hc
      · decide
      · exact halnum (alnum_hexDigit _ hhi).1
      · exact halnum (alnum_hexDigit _ hlo).1
      · exact ih c hc

theorem percentDecode_cons {c : UInt8} (h : c ≠ '%'.toUInt8) (s : List UInt8) :
    percentDecode (c :: s) = (percentDecode s).map (c :: ·) := by
  rcases s with _ | ⟨a, _ | ⟨b, s⟩⟩ <;> simp only [percentDecode, if_neg h]

/-- **Percent-decoding undoes `encode`.** -/
theorem percentDecode_encode (s : List UInt8) : percentDecode (encode s) = some s := by
  induction s with
  | nil => rfl
  | cons x s ih =>
    rw [encode]
    by_cases hx : alnum x = true
    · have hne : x ≠ '%'.toUInt8 := by
        rintro rfl
        exact absurd hx (by decide)
      rw [if_pos hx, percentDecode_cons hne, ih]
      rfl
    · obtain ⟨hhi, hlo⟩ := hex_bounds x
      have hbyte : UInt8.ofNat (16 * (x.toNat / 16) + x.toNat % 16) = x := by
        rw [Nat.div_add_mod, UInt8.ofNat_toNat]
      rw [if_neg hx, percentDecode, if_pos rfl]
      simp only [(alnum_hexDigit _ hhi).2, (alnum_hexDigit _ hlo).2, ih, Option.bind_eq_bind, Option.bind_some, hbyte]

/-- Neither the NUL nor a separator of a request is in an encoded string. -/
theorem not_mem_encode {d : UInt8} (hd : plain d = false) (s : List UInt8) : d ∉ encode s := by
  intro h
  rw [plain_encode d h] at hd
  cases hd

theorem not_mem_of_alnum {d : UInt8} (hd : alnum d = false) {s : List UInt8} (hs : ∀ c ∈ s, alnum c = true) : d ∉ s := by
  intro h
  rw [hs d h] at hd
  cases hd

/-! ### Calls -/

/-- What a request is made of. -/
@[ext]
structure Call where
  method : List UInt8
  token : List UInt8
  pairs : List (List UInt8 × List UInt8)
  method_alnum : ∀ c ∈ method, alnum c = true
  token_text : (0 : UInt8) ∉ token
  pairs_text : ∀ p ∈ pairs, (0 : UInt8) ∉ p.1 ∧ (0 : UInt8) ∉ p.2

namespace Call

/-- The pairs, passed through `encode`. -/
def encoded (c : Call) : List (List UInt8 × List UInt8) := c.pairs.map fun p => (encode p.1, encode p.2)

def url (c : Call) : List UInt8 := urlOf (encode c.token) c.method c.encoded

/-- `fill_request` for the call, in memory that was allocated. -/
def request (c : Call) : Except Stop (Option (List UInt8)) :=
  fillRequest true (encode c.token) c.method c.encoded.length (c.encoded.flatMap fun p => [p.1, p.2])

theorem texts (c : Call) : Texts (encode c.token) c.method c.encoded where
  token := not_mem_encode (by decide) _
  method := not_mem_of_alnum (by decide) c.method_alnum
  pairs := by
    intro p hp
    obtain ⟨q, _, rfl⟩ := List.mem_map.mp hp
    exact ⟨not_mem_encode (by decide) _, not_mem_encode (by decide) _⟩

theorem request_eq (c : Call) : c.request =
    if (beforeUrl ++ c.url ++ afterUrl).length < 2048 + 64 then .ok (some (beforeUrl ++ c.url ++ afterUrl)) else .error .fault :=
  fillRequest_eq c.texts

/-! #### The target -/

def param (p : List UInt8 × List UInt8) : List UInt8 := p.1 ++ '='.toUInt8 :: p.2

theorem decodeParam_encode (key value : List UInt8) : decodeParam (param (encode key, encode value)) = some (key, value) := by
  have hsplit : (param (encode key, encode value)).splitOn '='.toUInt8 = [encode key, encode value] := by
    rw [param, List.splitOn_append_cons_self_of_not_mem (not_mem_encode (by decide) _),
      List.splitOn_eq_singleton (not_mem_encode (by decide) _)]
  simp only [decodeParam, hsplit, percentDecode_encode, Option.bind_eq_bind, Option.bind_some]

/-- The parameters between the ampersands. -/
theorem splitOn_query {first : List UInt8} (hfirst : '&'.toUInt8 ∉ first) (pairs : List (List UInt8 × List UInt8))
    (h : ∀ p ∈ pairs, '&'.toUInt8 ∉ param p) :
    (first ++ pairs.flatMap fun p => chars ['&'] ++ p.1 ++ chars ['='] ++ p.2).splitOn '&'.toUInt8 = first :: pairs.map param := by
  induction pairs generalizing first with
  | nil =>
    rw [List.flatMap_nil, List.append_nil]
    exact List.splitOn_eq_singleton hfirst
  | cons p pairs ih =>
    obtain ⟨hp, hpairs⟩ := List.forall_mem_cons.mp h
    have hshape : (first ++ (p :: pairs).flatMap fun p => chars ['&'] ++ p.1 ++ chars ['='] ++ p.2) =
        first ++ '&'.toUInt8 :: (param p ++ pairs.flatMap fun p => chars ['&'] ++ p.1 ++ chars ['='] ++ p.2) := by
      rw [List.flatMap_cons, param]
      simp only [List.append_assoc]
      rfl
    rw [hshape, List.splitOn_append_cons_self_of_not_mem hfirst, ih hp hpairs]
    rfl

theorem mapM_decodeParam (pairs : List (List UInt8 × List UInt8)) :
    ((pairs.map fun p => (encode p.1, encode p.2)).map param).mapM decodeParam = some pairs := by
  induction pairs with
  | nil => rfl
  | cons p pairs ih =>
    rw [List.map_cons, List.map_cons, List.mapM_cons, decodeParam_encode, ih]
    rfl

def path (c : Call) : List UInt8 := chars ['/', 'a', 'p', 'i', '/'] ++ c.method

def query (c : Call) : List UInt8 :=
  param (encode (chars ['t', 'o', 'k', 'e', 'n']), encode c.token) ++
    c.encoded.flatMap fun p => chars ['&'] ++ p.1 ++ chars ['='] ++ p.2

theorem url_eq (c : Call) : c.url = c.path ++ '?'.toUInt8 :: c.query := by
  have htoken : chars ['?', 't', 'o', 'k', 'e', 'n', '='] =
      '?'.toUInt8 :: encode (chars ['t', 'o', 'k', 'e', 'n']) ++ ['='.toUInt8] := by decide
  rw [url, urlOf, path, query, param, htoken]
  simp only [List.append_assoc, List.cons_append, List.nil_append]

/-- The characters of a query. -/
def queryChar (c : UInt8) : Bool := plain c || c == '&'.toUInt8 || c == '='.toUInt8

theorem queryChar_encode (s : List UInt8) : ∀ x ∈ encode s, queryChar x = true := by
  intro x hx
  rw [queryChar, plain_encode x hx]
  rfl

theorem queryChar_query (c : Call) : ∀ x ∈ c.query, queryChar x = true := by
  intro x hx
  rw [query, param, List.mem_append, List.mem_append, List.mem_cons, List.mem_flatMap] at hx
  rcases hx with (hx | rfl | hx) | ⟨p, hp, hx⟩
  · exact queryChar_encode _ x hx
  · decide
  · exact queryChar_encode _ x hx
  · obtain ⟨q, _, rfl⟩ := List.mem_map.mp hp
    rw [List.mem_append, List.mem_append, List.mem_append] at hx
    rcases hx with ((hx | hx) | hx) | hx
    · rw [List.mem_singleton.mp hx]
      decide
    · exact queryChar_encode _ x hx
    · rw [List.mem_singleton.mp hx]
      decide
    · exact queryChar_encode _ x hx

/-- A character that neither a method nor a query can have is not in the target, unless
`fill_request` puts it there. -/
theorem not_mem_url (c : Call) {d : UInt8} (halnum : alnum d = false) (hquery : queryChar d = false)
    (hfixed : d ∉ chars ['/', 'a', 'p', 'i', '/', '?']) : d ∉ c.url := by
  rw [url_eq, path]
  intro h
  rw [List.mem_append, List.mem_append, List.mem_cons] at h
  rcases h with (h | h) | rfl | h
  · exact hfixed (List.mem_append_left [_] h)
  · exact not_mem_of_alnum halnum c.method_alnum h
  · exact hfixed (by decide)
  · rw [c.queryChar_query d h] at hquery
    cases hquery

/-- **The target is read back as what it was made of.** -/
theorem decode_url (c : Call) : decodeTarget c.url = some (c.method, c.token, c.pairs) := by
  have hpath : '?'.toUInt8 ∉ c.path := by
    rw [path, List.mem_append]
    exact not_or.mpr ⟨by decide, not_mem_of_alnum (by decide) c.method_alnum⟩
  have hquery : '?'.toUInt8 ∉ c.query := fun h => absurd (c.queryChar_query _ h) (by decide)
  have hsplit : c.url.splitOn '?'.toUInt8 = [c.path, c.query] := by
    rw [url_eq, List.splitOn_append_cons_self_of_not_mem hpath, List.splitOn_eq_singleton hquery]
  have hamp : ∀ key value : List UInt8, '&'.toUInt8 ∉ param (encode key, encode value) := by
    intro key value
    rw [param, List.mem_append, List.mem_cons]
    exact not_or.mpr ⟨not_mem_encode (by decide) _, not_or.mpr ⟨by decide, not_mem_encode (by decide) _⟩⟩
  have hparams : (c.query.splitOn '&'.toUInt8).mapM decodeParam =
      some ((chars ['t', 'o', 'k', 'e', 'n'], c.token) :: c.pairs) := by
    rw [query, splitOn_query (hamp _ _), encoded]
    · exact mapM_decodeParam ((chars ['t', 'o', 'k', 'e', 'n'], c.token) :: c.pairs)
    · intro p hp
      obtain ⟨q, _, rfl⟩ := List.mem_map.mp hp
      exact hamp _ _
  have hdrop : c.path.drop 5 = c.method := rfl
  simp only [decodeTarget, hsplit, hparams, Option.bind_eq_bind, Option.bind_some, if_true, hdrop]
  exact if_neg (not_not.mpr (List.prefix_append _ _))

/-- **A request is read back as the call it was made for, and fits into the buffer if its
target does.** -/
theorem requests_decode (c : Call) :
    (c.url.length ≤ 2048 → ∃ req, c.request = .ok (some req)) ∧
    ∀ req, c.request = .ok (some req) →
      (∃ target, req = beforeUrl ++ target ++ afterUrl ∧ (∀ d ∈ [SP, CR, LF], d ∉ target) ∧
        decodeTarget target = some (c.method, c.token, c.pairs)) ∧
      ∀ c' : Call, c'.request = .ok (some req) → c' = c := by
  have hreq : ∀ (c : Call) req, c.request = .ok (some req) → req = beforeUrl ++ c.url ++ afterUrl := by
    intro c req h
    rw [request_eq] at h
    split_ifs at h
    exact (Option.some.inj (Except.ok.inj h)).symm
  refine ⟨fun hurl => ⟨beforeUrl ++ c.url ++ afterUrl, ?_⟩, fun req h => ⟨⟨c.url, hreq c req h, ?_, c.decode_url⟩, ?_⟩⟩
  · have hbefore : beforeUrl.length = 4 := rfl
    have hafter : afterUrl.length = 46 := rfl
    rw [request_eq, if_pos]
    rw [List.length_append, List.length_append]
    omega
  · intro d hd
    rcases List.mem_cons.mp hd with rfl | hd
    · exact c.not_mem_url (by decide) (by decide) (by decide)
    rcases List.mem_cons.mp hd with rfl | hd
    · exact c.not_mem_url (by decide) (by decide) (by decide)
    · rw [List.mem_singleton.mp hd]
      exact c.not_mem_url (by decide) (by decide) (by decide)
  · intro c' h'
    have hurl : c'.url = c.url := List.append_cancel_left (List.append_cancel_right ((hreq c' req h').symm.trans (hreq c req h)))
    have hdec := c'.decode_url
    rw [hurl, c.decode_url] at hdec
    obtain ⟨hm, hrest⟩ := Prod.mk.inj (Option.some.inj hdec)
    obtain ⟨ht, hp⟩ := Prod.mk.inj hrest
    exact Call.ext hm.symm ht.symm hp.symm

/-- A call whose token and value need encoding. -/
def sample : Call where
  method := chars ['l', 's']
  token := chars ['a', ' ', '&']
  pairs := [(chars ['n'], chars ['x', '=', '\n'])]
  method_alnum := List.all_eq_true.mp (show (chars ['l', 's']).all alnum = true by decide)
  token_text := by decide
  pairs_text := by decide

theorem requests_decode_sample : ∃ req, sample.request = .ok (some req) ∧
    ∃ target, req = beforeUrl ++ target ++ afterUrl ∧ (∀ d ∈ [SP, CR, LF], d ∉ target) ∧
      decodeTarget target = some (sample.method, sample.token, sample.pairs) := by
  obtain ⟨req, hreq⟩ := (requests_decode sample).1 (by decide)
  exact ⟨req, hreq, ((requests_decode sample).2 req hreq).1⟩

end Call

end Http
end Xv6
