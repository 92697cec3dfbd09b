/-
# The buddy allocator of `kernel/buddy.c`

A heap of `2 ^ (nsizes - 1)` leaves of `LEAF_SIZE` bytes from `bd_base`. For
each size `k` there is a free list, headed in the array `bd_sizes` and threaded
through the free blocks themselves, and two bitmaps with a bit for each of the
`NBLK(k)` blocks of that size. The lock is held throughout each call, so a call
is one step. Reading or writing a bit outside a bitmap is `Stop.fault`.

The bitmaps are functions of size and index: they lie in the metadata at the
start of the heap, which no block on a free list overlaps, and nothing reads
them but through `bit_isset`. Pointers are numbers; the code only adds to them
and takes differences, and the conversions of a difference to `int` are kept.

Key definitions: `Buddy.bdMalloc`, `Buddy.bdFree`, `Buddy.bdInit`.
-/
import Xv6.List

namespace Xv6
namespace Buddy

open Lst

def LEAF_SIZE : ℕ := 16

/-- `BLK_SIZE(k)`. -/
def blkSize (k : ℕ) : ℕ := 2 ^ k * LEAF_SIZE

/-- `sizeof(Sz_info)`: a list head and two pointers. -/
def szInfoSize : ℕ := 32

/-- Where the allocator's memory is. -/
structure Geo where
  nsizes : ℕ
  bdBase : ℕ
  bdSizes : ℕ

structure Sys extends Geo where
  links : Links.Mem ℕ
  alloc : ℕ → ℕ → Bool
  split : ℕ → ℕ → Bool

namespace Geo

variable (g : Geo)

def maxsize : ℕ := g.nsizes - 1

def heapSize : ℕ := blkSize g.maxsize

def nblk (k : ℕ) : ℕ := 2 ^ (g.maxsize - k)

/-- `&bd_sizes[k].free`. -/
def free (k : ℕ) : ℕ := g.bdSizes + k * szInfoSize

/-- The bitmaps of size `k` have a bit `index`. -/
def HasBit (k : ℕ) (index : ℤ) : Prop := k < g.nsizes ∧ 0 ≤ index ∧ index < g.nblk k

instance (k : ℕ) (index : ℤ) : Decidable (g.HasBit k index) :=
  inferInstanceAs (Decidable (_ ∧ _ ∧ _))

end Geo

variable (g : Geo)

/-! ### Bits and addresses -/

def bitIsset (array : ℕ → ℕ → Bool) (k : ℕ) (index : ℤ) : Except Stop Bool :=
  if g.HasBit k index then .ok (array k index.toNat) else .error .fault

/-- The bitmaps with one bit replaced. -/
def put (array : ℕ → ℕ → Bool) (k i : ℕ) (v : Bool) : ℕ → ℕ → Bool :=
  Function.update array k (Function.update (array k) i v)

def bitSet (array : ℕ → ℕ → Bool) (k : ℕ) (index : ℤ) : Except Stop (ℕ → ℕ → Bool) :=
  if g.HasBit k index then .ok (put array k index.toNat true) else .error .fault

def bitClear (array : ℕ → ℕ → Bool) (k : ℕ) (index : ℤ) : Except Stop (ℕ → ℕ → Bool) :=
  if g.HasBit k index then .ok (put array k index.toNat false) else .error .fault

/-- The loop of `firstk` with a bound on its rounds. -/
def firstkLoop (n : ℕ) : ℕ → ℕ → ℕ → Option ℕ
  | 0, _, _ => none
  | f + 1, k, size => if size < n then firstkLoop n f (k + 1) (size * 2 % 2 ^ 64) else some k

/-- After 60 doublings `size` is 0, so the loop ends within 65 rounds or never. -/
def firstk (n : ℕ) : Option ℕ := firstkLoop n 65 0 LEAF_SIZE

def blkIndex (k p : ℕ) : ℤ := cInt ((cInt ((p : ℤ) - g.bdBase)).tdiv (blkSize k))

def addr (k : ℕ) (bi : ℤ) : ℕ := ((g.bdBase : ℤ) + cInt (bi * blkSize k)).toNat

/-! ### `bd_malloc` -/

/-- `for (; k > fk; k--)`, with `d = k - fk` rounds to go. -/
def splitDown (p fk : ℕ) : ℕ → Sys → Except Stop Sys
  | 0, s => .ok s
  | d + 1, s => do
    let k := fk + d + 1
    let q := p + blkSize (k - 1)
    let split ← bitSet s.toGeo s.split k (blkIndex s.toGeo k p)
    let alloc ← bitSet s.toGeo s.alloc (k - 1) (blkIndex s.toGeo (k - 1) p)
    splitDown p fk d
      { s with alloc := alloc, split := split, links := lstPush s.links (s.free (k - 1)) q }

/-- `none` is the null pointer. -/
def bdMalloc (nbytes : ℕ) (s : Sys) : Except Stop (Option ℕ × Sys) :=
  match firstk nbytes with
  | none => .error .blocked
  | some fk =>
    match (List.range' fk (s.nsizes - fk)).find? fun k => !lstEmpty s.links (s.free k) with
    | none => .ok (none, s)
    | some k => do
      let (p, links) ← lstPop s.links (s.free k)
      let alloc ← bitSet s.toGeo s.alloc k (blkIndex s.toGeo k p)
      let s ← splitDown p fk (k - fk) { s with alloc := alloc, links := links }
      .ok (some p, s)

/-! ### `bd_free` -/

/-- The rounds of `size` from `k` on. -/
def sizeLoop (s : Sys) (p : ℕ) : ℕ → ℕ → Except Stop ℕ
  | 0, _ => .ok 0
  | f + 1, k => do
    if ← bitIsset s.toGeo s.split (k + 1) (blkIndex s.toGeo (k + 1) p) then .ok k
    else sizeLoop s p f (k + 1)

def size (s : Sys) (p : ℕ) : Except Stop ℕ := sizeLoop s p s.nsizes 0

def buddyOf (bi : ℤ) : ℤ := if bi % 2 = 0 then bi + 1 else bi - 1

/-- `for (; k < MAXSIZE; k++)`, with `MAXSIZE - k` rounds to go, and the push after it. -/
def freeLoop : ℕ → ℕ → ℕ → Sys → Except Stop Sys
  | 0, k, p, s => .ok { s with links := lstPush s.links (s.free k) p }
  | f + 1, k, p, s => do
    let bi := blkIndex s.toGeo k p
    let buddy := buddyOf bi
    let alloc ← bitClear s.toGeo s.alloc k bi
    if ← bitIsset s.toGeo alloc k buddy then
      .ok { s with alloc := alloc, links := lstPush s.links (s.free k) p }
    else
      let q := addr s.toGeo k buddy
      let links := lstRemove s.links q
      let p := if buddy % 2 = 0 then q else p
      let split ← bitClear s.toGeo s.split (k + 1) (blkIndex s.toGeo (k + 1) p)
      freeLoop f (k + 1) p { s with alloc := alloc, split := split, links := links }

def bdFree (p : ℕ) (s : Sys) : Except Stop Sys := do
  let k ← size s p
  freeLoop (s.maxsize - k) k p s

/-! ### `bd_init` -/

/-- For `n = 0` the 64-bit `n - 1` wraps and the result is 0, as here. -/
def roundup (n sz : ℕ) : ℕ := (n + (sz - 1)) / sz * sz

def blkIndexNext (k p : ℕ) : ℤ :=
  let d := (p : ℤ) - g.bdBase
  let n := cInt (d.tdiv (blkSize k))
  if d.tmod (blkSize k) ≠ 0 then cInt (n + 1) else n

/-- `_log2`: the number of times `n` can be halved before it is 1. -/
def log2 (n : ℕ) : ℕ := Nat.log2 n

/-- `for (; bi < bj; bi++)`, with `f = bj - bi` rounds to go. -/
def markRow (k : ℕ) : ℕ → ℤ → Sys → Except Stop Sys
  | 0, _, s => .ok s
  | f + 1, bi, s => do
    let split ← if 0 < k then bitSet s.toGeo s.split k bi else .ok s.split
    let alloc ← bitSet s.toGeo s.alloc k bi
    markRow k f (bi + 1) { s with alloc := alloc, split := split }

def bdMark (start stop : ℕ) (s : Sys) : Except Stop Sys :=
  if start % LEAF_SIZE ≠ 0 ∨ stop % LEAF_SIZE ≠ 0 then .error (.panic "bd_mark")
  else (List.range s.nsizes).foldlM (fun s k =>
    let bi := blkIndex s.toGeo k start
    markRow k (blkIndexNext s.toGeo k stop - bi).toNat bi s) s

def bdInitfreePair (k : ℕ) (bi : ℤ) (s : Sys) : Except Stop (ℤ × Sys) := do
  let buddy := buddyOf bi
  let x ← bitIsset s.toGeo s.alloc k bi
  let y ← bitIsset s.toGeo s.alloc k buddy
  if x ≠ y then
    let b := if x then addr s.toGeo k buddy else addr s.toGeo k bi
    .ok (cInt (blkSize k), { s with links := lstPush s.links (s.free k) b })
  else .ok (0, s)

/-- The round for size `k`. -/
def initfreeRound (left right k : ℕ) (free : ℤ) (s : Sys) : Except Stop (ℤ × Sys) := do
  let l := blkIndexNext s.toGeo k left
  let r := blkIndex s.toGeo k right
  let (f, s) ← bdInitfreePair k l s
  let free := cInt (free + f)
  if r ≤ l then .ok (free, s)
  else
    let (f, s) ← bdInitfreePair k r s
    .ok (cInt (free + f), s)

def bdInitfree (left right : ℕ) (s : Sys) : Except Stop (ℤ × Sys) :=
  (List.range s.maxsize).foldlM (fun x k => initfreeRound left right k x.1 x.2) (0, s)

def bdMarkDataStructures (p : ℕ) (s : Sys) : Except Stop (ℤ × Sys) := do
  let metaSz := cInt ((p : ℤ) - s.bdBase)
  let s ← bdMark s.bdBase p s
  .ok (metaSz, s)

def bdMarkUnavailable (limit : ℕ) (s : Sys) : Except Stop (ℤ × Sys) := do
  let unavailable := cInt ((blkSize s.maxsize : ℤ) - ((limit : ℤ) - s.bdBase))
  let unavailable := if 0 < unavailable then (roundup unavailable.toNat LEAF_SIZE : ℤ) else unavailable
  let bdEnd := ((s.bdBase : ℤ) + blkSize s.maxsize - unavailable).toNat
  let s ← bdMark bdEnd (s.bdBase + blkSize s.maxsize) s
  .ok (unavailable, s)

/-- The bytes of a bitmap of size `k`. -/
def bitmapSize (k : ℕ) : ℕ := roundup (g.nblk k) 8 / 8

/-- The free pointer after the `bd_sizes` array and all bitmaps, which start at `bd_base`. -/
def metaEnd : ℕ :=
  let p := g.bdBase + szInfoSize * g.nsizes
  let p := (List.range g.nsizes).foldl (fun p k => p + bitmapSize g k) p
  (List.range' 1 (g.nsizes - 1)).foldl (fun p k => p + bitmapSize g k) p

/-- Where `bd_init base end` puts the heap, and how many sizes it has. -/
def initGeo (base limit : ℕ) : Geo :=
  let p := roundup base LEAF_SIZE
  let n := log2 ((limit - p) / LEAF_SIZE) + 1
  { nsizes := if limit - p > blkSize (n - 1) then n + 1 else n, bdBase := p, bdSizes := p }

/-- `m` is what the memory's pointers are before. -/
def bdInit (m : Links.Mem ℕ) (base limit : ℕ) : Except Stop Sys := do
  let g := initGeo base limit
  let s : Sys := { g with
    links := (List.range g.nsizes).foldl (fun m k => lstInit m (g.free k)) m
    alloc := fun _ _ => false
    split := fun _ _ => false }
  let p := roundup (metaEnd g) LEAF_SIZE
  let (metaSz, s) ← bdMarkDataStructures p s
  let (unavailable, s) ← bdMarkUnavailable limit s
  let bdEnd := ((s.bdBase : ℤ) + blkSize s.maxsize - unavailable).toNat
  let (free, s) ← bdInitfree p bdEnd s
  if free ≠ blkSize s.maxsize - metaSz - unavailable then .error (.panic "bd_init: free mem")
  else .ok s

end Buddy
end Xv6
