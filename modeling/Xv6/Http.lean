/-
# The HTTP client of the file system module

`receive_all` and `parse_http_response` of `vfs-kernel-module/source/http.c`, with the
functions of the kernel that they call, as those are documented: `strsep`, `strcmp`,
`strncmp` and `kstrtoint` go through a string byte by byte and read no further than
they must.

The response lies at an address in memory. Reading it outside the bytes received is
`Stop.fault`, and so is a read through a null pointer or past the end of the buffer that
is written. Pointers are numbers, and null is 0. A string is given by the bytes from its
address to the end of what was received, so that running out of them is the read outside.

Key definitions: `Http.receiveAll`, `Http.parseHttpResponse`.
-/
import Xv6.Basic

namespace Xv6
namespace Http

/-- The conversion to `size_t`. -/
def cSize (x : ℤ) : ℕ := (x % 2 ^ 64).toNat

def ENOSPC : ℤ := 28

def CR : UInt8 := '\r'.toUInt8
def LF : UInt8 := '\n'.toUInt8
def SP : UInt8 := ' '.toUInt8

def contentLength : List UInt8 :=
  chars ['C', 'o', 'n', 't', 'e', 'n', 't', '-', 'L', 'e', 'n', 'g', 't', 'h', ':', ' ']

/-! ### Receiving -/

/-- The rounds of `receive_all`, by what `kernel_recvmsg` returns in each: some bytes, or
`none` for an error; after the last one it returns 0. -/
def receiveAll (size : ℕ) : List (Option (List UInt8)) → List UInt8 → ℤ → Except Stop (ℤ × List UInt8)
  | [], buffer, read => .ok (read, buffer)
  | none :: _, buffer, read => .ok (if cSize read < size then -4 else read, buffer)
  | some chunk :: rets, buffer, read =>
    if cSize read < size then
      -- `kernel_recvmsg` returns an `int`, at most `vec.iov_len`, and not 0 before the end
      if chunk = [] ∨ 2 ^ 31 ≤ chunk.length ∨ size - cSize read < chunk.length then .error .blocked
      else receiveAll size rets (buffer ++ chunk) (cInt (read + chunk.length))
    else .ok (read, buffer)

/-! ### Strings -/

/-- `strpbrk`, for one character. -/
def strpbrk (d : UInt8) : List UInt8 → Except Stop (Option ℕ)
  | [] => .error .fault
  | c :: cs =>
    if c = 0 then .ok none
    else if c = d then .ok (some 0)
    else do .ok ((← strpbrk d cs).map (· + 1))

/-- `strcmp(cs, lit) == 0`. -/
def streq : List UInt8 → List UInt8 → Except Stop Bool
  | [], _ => .error .fault
  | c :: _, [] => .ok (c = 0)
  | c :: cs, l :: lit => if c = l then streq cs lit else .ok false

/-- `strncmp(cs, lit, strlen(lit)) == 0`. -/
def strneq : List UInt8 → List UInt8 → Except Stop Bool
  | _, [] => .ok true
  | [], _ :: _ => .error .fault
  | c :: cs, l :: lit => if c = l then strneq cs lit else .ok false

/-- What `printk` reads for `%s`. -/
def strlen : List UInt8 → Except Stop ℕ
  | [] => .error .fault
  | c :: cs => if c = 0 then .ok 0 else do .ok ((← strlen cs) + 1)

/-- The value of a digit, in the largest base. -/
def digit (c : UInt8) : Option ℕ :=
  if '0'.toUInt8 ≤ c ∧ c ≤ '9'.toUInt8 then some (c.toNat - '0'.toNat)
  else if 'a'.toUInt8 ≤ c ∧ c ≤ 'f'.toUInt8 then some (c.toNat - 'a'.toNat + 10)
  else if 'A'.toUInt8 ≤ c ∧ c ≤ 'F'.toUInt8 then some (c.toNat - 'A'.toNat + 10)
  else none

/-- The digits of a number in base `base`: its value and the number of digits, after
`val` and `rv`, and the bytes after them. -/
def parseInteger (base : ℕ) : ℕ → ℕ → List UInt8 → Except Stop (ℕ × ℕ × List UInt8)
  | _, _, [] => .error .fault
  | val, rv, c :: cs =>
    match digit c with
    | some d => if d < base then parseInteger base (val * base + d) (rv + 1) cs else .ok (val, rv, c :: cs)
    | none => .ok (val, rv, c :: cs)

/-- The base that the first characters of a number give, and the rest after `0x`. -/
def fixupRadix : List UInt8 → Except Stop (ℕ × List UInt8)
  | [] => .error .fault
  | c :: cs =>
    if c = '0'.toUInt8 then
      match cs with
      | [] => .error .fault
      | x :: xs =>
        if x = 'x'.toUInt8 ∨ x = 'X'.toUInt8 then
          match xs with
          | [] => .error .fault
          | y :: _ => if (digit y).isSome then .ok (16, xs) else .ok (8, c :: cs)
        else .ok (8, c :: cs)
    else .ok (10, c :: cs)

/-- An unsigned number, then at most one newline, then the NUL; `none` is an error. -/
def kstrtoull (cs : List UInt8) : Except Stop (Option ℕ) := do
  let (base, cs) ← fixupRadix cs
  let (val, rv, cs) ← parseInteger base 0 0 cs
  if 2 ^ 64 ≤ val ∨ rv = 0 then .ok none
  else if ← streq cs [] then .ok (some val)
  else if ← strneq cs [LF] then
    if ← streq cs.tail [] then .ok (some val) else .ok none
  else .ok none

/-- `kstrtoint(cs, 0, &res)`; `none` is an error. -/
def kstrtoint : List UInt8 → Except Stop (Option ℤ)
  | [] => .error .fault
  | c :: cs => do
    let val ←
      if c = '-'.toUInt8 then do .ok ((← kstrtoull cs).map fun v : ℕ => -(v : ℤ))
      else do .ok ((← kstrtoull (if c = '+'.toUInt8 then cs else c :: cs)).map fun v : ℕ => (v : ℤ))
    .ok (val.filter fun v => -2 ^ 31 ≤ v ∧ v < 2 ^ 31)

/-! ### Memory -/

/-- The bytes received, at the address `base`. -/
structure Buf where
  base : ℕ
  bytes : List UInt8

namespace Buf

/-- The bytes from an address on. -/
def suffix (b : Buf) (a : ℕ) : List UInt8 := if b.base ≤ a then b.bytes.drop (a - b.base) else []

def store (b : Buf) (a : ℕ) (c : UInt8) : Buf := { b with bytes := b.bytes.set (a - b.base) c }

/-- `n` bytes from `a` on, as `memcpy` reads them. -/
def read (b : Buf) (a n : ℕ) : Except Stop (List UInt8) :=
  if n ≤ (b.suffix a).length then .ok ((b.suffix a).take n) else .error .fault

end Buf

/-- `strsep(&p, ct)`, where `ct` is one character: the token, and the string after it, which
is null if this was the last one. -/
def strsep (b : Buf) (p : ℕ) (d : UInt8) : Except Stop (ℕ × Buf × ℕ) :=
  if p = 0 then .ok (0, b, 0)
  else do
    match ← strpbrk d (b.suffix p) with
    | none => .ok (p, b, 0)
    | some i => .ok (p, b.store (p + i) 0, p + i + 1)

/-! ### Parsing -/

/-- The new `length` after a header, or `none` for the return of -6. -/
def parseHeader (header : List UInt8) (length : ℤ) : Except Stop (Option ℤ) := do
  if ← strneq header contentLength then kstrtoint (header.drop 16) else .ok (some length)

/-- The loop over the header lines; each round moves past a CR. `none` is the return of -6,
otherwise the results are the memory, `buffer` and `length`. -/
def parseHeaders : ℕ → Buf → ℕ → ℤ → Except Stop (Option (Buf × ℕ × ℤ))
  | 0, _, _, _ => .error .blocked
  | f + 1, b, buffer, length =>
    if buffer = 0 then .ok none
    else do
      let (header, b, buffer) ← strsep b buffer CR
      let header := header + 1
      if ← streq (b.suffix header) [] then .ok (some (b, buffer, length))
      else (← parseHeader (b.suffix header) length).elim (.ok none) (parseHeaders f b buffer)

/-- The value of eight bytes, the lowest first, as an `int64_t`. -/
def int64 (l : List UInt8) : ℤ :=
  let v : ℤ := l.foldr (fun c v => c.toNat + 256 * v) 0
  (v + 2 ^ 63) % 2 ^ 64 - 2 ^ 63

/-- What is done with the body. -/
def parseBody (raw : ℕ) (size : ℕ) (b : Buf) (buffer : ℕ) (length : ℤ) (response : List UInt8) :
    Except Stop (ℤ × List UInt8) :=
  if length = -1 then .ok (-6, response)
  else if (raw + size) % 2 ^ 64 < cSize (buffer + length) then .ok (-6, response)
  else if cSize length < 8 then .ok (-7, response)
  else
    let length := cInt (length - 8)
    if response.length < cSize length then .ok (-ENOSPC, response)
    else do
      let value ← b.read buffer 8
      let data ← b.read (buffer + 8) (cSize length)
      .ok (int64 value, data ++ response.drop data.length)

/-- The response is at `raw`, and `response` is the contents of the buffer of
`response_size` bytes for the result. -/
def parseHttpResponse (raw : Buf) (response : List UInt8) : Except Stop (ℤ × List UInt8) := do
  let (statusLine, b, buffer) ← strsep raw raw.base CR
  let (_, b, statusLine) ← strsep b statusLine SP
  if statusLine = 0 then .ok (-6, response)
  else
    let (statusCode, b, _) ← strsep b statusLine SP
    let _ ← strlen (b.suffix statusCode)
    if ← streq (b.suffix statusCode) (chars ['2', '0', '0']) then
      (← parseHeaders (raw.bytes.length + 1) b buffer (-1)).elim (.ok (-6, response)) fun r =>
        parseBody raw.base raw.bytes.length r.1 (r.2.1 + 1) r.2.2 response
    else .ok (-5, response)

/-- The end of `vtfs_http_call`: `rets` is what `kernel_recvmsg` returns. -/
def call (raw : ℕ) (rets : List (Option (List UInt8))) (response : List UInt8) : Except Stop (ℤ × List UInt8) := do
  let (readBytes, buffer) ← receiveAll ((response.length + 1024) % 2 ^ 64) rets [] 0
  if readBytes < 0 then .ok (-4, response)
  else parseHttpResponse ⟨raw, buffer.take readBytes.toNat⟩ response

end Http
end Xv6
