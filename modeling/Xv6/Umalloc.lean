/-
# The memory allocator of user programs

`free`, `morecore` and `malloc` of `user/umalloc.c`, over a memory that holds a header at
each address: blocks start with one, and the free blocks are linked by `ptr` into a circular
list with `base`. The addresses are in bytes and a header is 16 of them, so that `p + n` on
headers is `p + 16 * n` here. `size` is a `uint`, in headers.

What `sbrk` answers is part of the action: `none` if it fails, otherwise the region it gives.
It takes an `int`, so what `morecore` asks for is cut to one. The loops have fuel: more than
they may need is given to them by `rounds`.

`regions` and `live` keep the account for the theorems: what `sbrk` has given, and the pointers
the program holds with the number of bytes it asked for.

Key definitions: `Umalloc.free`, `Umalloc.malloc`, `Umalloc.step`.
-/
import Mathlib.Data.List.Basic
import Xv6.Basic

namespace Xv6
namespace Umalloc

structure State where
  /-- The fields of the header at each address. -/
  ptr : ℕ → ℕ
  size : ℕ → ℕ
  freep : ℕ
  /-- The first byte and the number of bytes of each region. -/
  regions : List (ℕ × ℕ)
  live : List (ℕ × ℕ)

namespace State

/-- `p->s.ptr = q`. -/
def setPtr (s : State) (p q : ℕ) : State := { s with ptr := Function.update s.ptr p q }

/-- `p->s.size = n`. -/
def setSize (s : State) (p n : ℕ) : State := { s with size := Function.update s.size p (n % 2 ^ 32) }

/-- `p + p->s.size`. -/
def stop (s : State) (p : ℕ) : ℕ := p + 16 * s.size p

/-- The number of bytes that `sbrk` has given. -/
def total (s : State) : ℕ := (s.regions.map Prod.snd).sum

/-- Rounds enough for any loop over the free blocks. -/
def rounds (s : State) : ℕ := s.total / 8 + 4

end State

/-! ### free -/

/-- The search of `free` for the place of `bp`. -/
def freeLoop : ℕ → State → ℕ → ℕ → Except Stop ℕ
  | 0, _, _, _ => .error .blocked
  | f + 1, s, bp, p =>
    if p < bp ∧ bp < s.ptr p then .ok p
    else if s.ptr p ≤ p ∧ (p < bp ∨ bp < s.ptr p) then .ok p
    else freeLoop f s bp (s.ptr p)

/-- `bp` is linked to what follows `p`, or put together with it. -/
def joinNext (s : State) (bp p : ℕ) : State :=
  if s.stop bp = s.ptr p then
    let s := s.setSize bp (s.size bp + s.size (s.ptr p))
    s.setPtr bp (s.ptr (s.ptr p))
  else s.setPtr bp (s.ptr p)

/-- `p` is linked to `bp`, or put together with it. -/
def joinPrev (s : State) (bp p : ℕ) : State :=
  if s.stop p = bp then
    let s := s.setSize p (s.size p + s.size bp)
    s.setPtr p (s.ptr bp)
  else s.setPtr p bp

def free (s : State) (ap : ℕ) : Except Stop State := do
  let bp := ap - 16
  let p ← freeLoop s.rounds s bp s.freep
  .ok { joinPrev (joinNext s bp p) bp p with freep := p }

/-! ### malloc -/

/-- What `sbrk` is assumed to give when it does not fail: bytes above all earlier ones, which
are above the variables of the program. -/
def Fresh (base : ℕ) (s : State) (hp : ℕ) (n : ℤ) : Prop :=
  0 < n ∧ base + 16 ≤ hp ∧ ∀ r ∈ s.regions, r.1 + r.2 ≤ hp

instance (base : ℕ) (s : State) (hp : ℕ) (n : ℤ) : Decidable (Fresh base s hp n) := by unfold Fresh; infer_instance

/-- The number of headers that `morecore` asks for. -/
def coreUnits (nu : ℕ) : ℕ := if nu < 4096 then 4096 else nu

/-- The new state and the pointer returned. -/
def morecore (base : ℕ) (s : State) (nu : ℕ) (sbrk : Option ℕ) : Except Stop (State × ℕ) :=
  sbrk.elim (.ok (s, 0)) fun hp =>
    -- the argument of `sbrk` is an `int`
    let n := cInt (coreUnits nu * 16)
    if Fresh base s hp n then do
      let s := ({ s with regions := (hp, n.toNat) :: s.regions }).setSize hp (coreUnits nu)
      let s ← free s (hp + 16)
      .ok (s, s.freep)
    else .error .blocked

/-- The number of headers for a block of `nbytes`. -/
def nunits (nbytes : ℕ) : ℕ := (nbytes + 15) / 16 + 1

/-- The block of `n` headers that is taken from the free block `p`. -/
def carve (s : State) (n prevp p : ℕ) : State × ℕ :=
  if s.size p = n then ({ s.setPtr prevp (s.ptr p) with freep := prevp }, p + 16)
  else
    let s := s.setSize p (s.size p - n)
    let p := s.stop p
    ({ s.setSize p n with freep := prevp }, p + 16)

/-- The loop of `malloc`; `sbrk` has the answers to the calls of `sbrk` still to come. -/
def mallocLoop (base n : ℕ) : ℕ → State → List (Option ℕ) → ℕ → ℕ → Except Stop (State × ℕ)
  | 0, _, _, _, _ => .error .blocked
  | f + 1, s, sbrk, prevp, p =>
    if n ≤ s.size p then .ok (carve s n prevp p)
    else if p = s.freep then
      match sbrk with
      | [] => .error .blocked
      | answer :: sbrk => do
        let (s, p) ← morecore base s n answer
        if p = 0 then .ok (s, 0) else mallocLoop base n f s sbrk p (s.ptr p)
    else mallocLoop base n f s sbrk p (s.ptr p)

/-- The list with `base` alone. -/
def start (base : ℕ) (s : State) : State :=
  if s.freep = 0 then ({ s.setPtr base base with freep := base }).setSize base 0 else s

def malloc (base : ℕ) (s : State) (nbytes : ℕ) (sbrk : List (Option ℕ)) : Except Stop (State × ℕ) :=
  let s := start base s
  mallocLoop base (nunits nbytes) s.rounds s sbrk s.freep (s.ptr s.freep)

/-! ### Runs -/

inductive Act where
  /-- `malloc(nbytes)`, with the answer of `sbrk` in case it is called. -/
  | malloc (nbytes : ℕ) (sbrk : Option ℕ)
  | free (ap : ℕ)
  /-- The program writes to the block at `ap`. -/
  | store (ap : ℕ) (ptr size : ℕ → ℕ)

/-- The pointer that `malloc` returns is emitted. -/
def step (base : ℕ) (s : State) : Act → Except Stop (State × List ℕ)
  | .malloc nbytes sbrk =>
    if nbytes < 2 ^ 32 then do
      let (s, ap) ← malloc base s nbytes [sbrk]
      .ok (if ap = 0 then s else { s with live := (ap, nbytes) :: s.live }, [ap])
    else .error .blocked
  | .free ap =>
    if ap ∈ s.live.map Prod.fst then do
      let s ← free s ap
      .ok ({ s with live := s.live.eraseP fun q => q.1 = ap }, [])
    else .error .blocked
  | .store ap ptr size =>
    if ap ∈ s.live.map Prod.fst then
      let inside := fun a => decide (ap ≤ a ∧ a < s.stop (ap - 16))
      .ok ({ s with
        ptr := fun a => if inside a then ptr a else s.ptr a
        size := fun a => if inside a then size a else s.size a }, [])
    else .error .blocked

/-- Before the first call. -/
def boot (ptr size : ℕ → ℕ) : State where
  ptr := ptr
  size := size
  freep := 0
  regions := []
  live := []

end Umalloc
end Xv6
