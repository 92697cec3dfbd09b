/-
# Virtual memory

`kernel/vm.c` and the page allocator it calls (`kernel/kalloc.c`). Physical
memory is a function from addresses to bytes; the kernel's own mapping is the
identity, so the kernel reads and writes it directly. A page-table page is 512
little-endian words of it.

Addresses are natural numbers, reduced modulo 2^64 where the code's `uint64`
arithmetic could wrap. `deny` says which of the calls of `kalloc` find no page
although there is one in this process's view (another process may have taken
it); `kend` is the linker's `end`. The list of free pages is kept apart from the
bytes: `kalloc` overwrites the link that `kfree` leaves in a page. A kernel
buffer that is copied from or to is not in a user's page, so it is given by
its bytes.

Key definitions: `Vm.Sys`, `Vm.kalloc`, `Vm.kfree`, `Vm.walk`, `Vm.mappages`, `Vm.uvmunmap`,
`Vm.uvmalloc`, `Vm.uvmdealloc`, `Vm.freewalk`, `Vm.uvmcopy`, `Vm.copyout`, `Vm.copyin`, `Vm.copyinstr`.
-/
import Mathlib.Data.Nat.Bitwise
import Xv6.Basic
import Xv6.Bytes

namespace Xv6
namespace Vm

def PGSIZE : ℕ := 4096
def MAXVA : ℕ := 2 ^ (9 + 9 + 9 + 12 - 1)
def KERNBASE : ℕ := 0x80000000
def PHYSTOP : ℕ := KERNBASE + 128 * 1024 * 1024
def TRAMPOLINE : ℕ := MAXVA - PGSIZE
def TRAPFRAME : ℕ := TRAMPOLINE - PGSIZE

def PGROUNDUP (sz : ℕ) : ℕ := (sz + PGSIZE - 1) % 2 ^ 64 / PGSIZE * PGSIZE
def PGROUNDDOWN (a : ℕ) : ℕ := a / PGSIZE * PGSIZE

def PTE_V : ℕ := 1
def PTE_R : ℕ := 2
def PTE_W : ℕ := 4
def PTE_X : ℕ := 8
def PTE_U : ℕ := 16

def PA2PTE (pa : ℕ) : ℕ := pa >>> 12 <<< 10
def PTE2PA (pte : ℕ) : ℕ := (pte >>> 10 <<< 12) % 2 ^ 64
def PTE_FLAGS (pte : ℕ) : ℕ := pte &&& 0x3FF
def PX (level va : ℕ) : ℕ := (va >>> (12 + 9 * level)) &&& 0x1FF

/-- A flag of a page-table entry is set. -/
def has (pte flag : ℕ) : Bool := pte &&& flag ≠ 0

/-! ### Physical memory -/

/-- `memset(p, v, PGSIZE)`. -/
def memset (m : ℕ → UInt8) (p : ℕ) (v : UInt8) : ℕ → UInt8 := fun x =>
  if p ≤ x ∧ x < p + PGSIZE then v else m x

/-- `memmove(dst, src, n)` from a buffer with the bytes `src 0, src 1, ..`. -/
def memmove (m : ℕ → UInt8) (dst : ℕ) (src : ℕ → UInt8) (n : ℕ) : ℕ → UInt8 := fun x =>
  if dst ≤ x ∧ x < dst + n then src (x - dst) else m x

structure Sys where
  mem : ℕ → UInt8
  /-- `kmem.freelist`. -/
  free : List ℕ
  deny : ℕ → Bool
  /-- The number of calls of `kalloc`. -/
  calls : ℕ
  kend : ℕ

namespace Sys

/-- The word at `a`. -/
def ld (s : Sys) (a : ℕ) : ℕ := Bytes.le s.mem a 8

def st (s : Sys) (a v : ℕ) : Sys := { s with mem := Bytes.putLe s.mem a 8 v }

def fill (s : Sys) (p : ℕ) (v : UInt8) : Sys := { s with mem := memset s.mem p v }

end Sys

/-- The page, or none if `kalloc` returns 0. -/
def kalloc (s : Sys) : Option ℕ × Sys :=
  if s.deny s.calls then (none, { s with calls := s.calls + 1 })
  else
    match s.free with
    | [] => (none, { s with calls := s.calls + 1 })
    | p :: l => (some p, { s.fill p 5 with free := l, calls := s.calls + 1 })

def kfree (pa : ℕ) (s : Sys) : Except Stop Sys :=
  if pa % PGSIZE ≠ 0 ∨ pa < s.kend ∨ PHYSTOP ≤ pa then .error (.panic "kfree")
  else .ok { s.fill pa 1 with free := pa :: s.free }

/-! ### Page tables -/

/-- The loop of `walk`, at the page-table page `pt` of a level. -/
def walkFrom (va : ℕ) (alloc : Bool) : ℕ → ℕ → Sys → Option ℕ × Sys
  | 0, pt, s => (some (pt + 8 * PX 0 va), s)
  | level + 1, pt, s =>
    let pte := pt + 8 * PX (level + 1) va
    if has (s.ld pte) PTE_V then walkFrom va alloc level (PTE2PA (s.ld pte)) s
    else if alloc = false then (none, s)
    else
      match kalloc s with
      | (none, s) => (none, s)
      | (some p, s) => walkFrom va alloc level p ((s.fill p 0).st pte (PA2PTE p ||| PTE_V))

/-- The address of the entry, or none for 0. -/
def walk (pt va : ℕ) (alloc : Bool) (s : Sys) : Except Stop (Option ℕ × Sys) :=
  if MAXVA ≤ va then .error (.panic "walk") else .ok (walkFrom va alloc 2 pt s)

/-- `walk(pagetable, va, 0)` of an address below `MAXVA`. -/
def lookup (s : Sys) (pt va : ℕ) : Option ℕ := (walkFrom va false 2 pt s).1

/-- 0 if the address is not mapped for the user. -/
def walkaddr (s : Sys) (pt va : ℕ) : ℕ :=
  if MAXVA ≤ va then 0
  else
    match lookup s pt va with
    | none => 0
    | some pte =>
      if has (s.ld pte) PTE_V = false then 0
      else if has (s.ld pte) PTE_U = false then 0
      else PTE2PA (s.ld pte)

/-- The loop of `mappages`; the fuel is the number of pages. The result is
whether it returns 0. -/
def mapLoop (pt last perm : ℕ) : ℕ → ℕ → ℕ → Sys → Except Stop (Bool × Sys)
  | 0, _, _, _ => .error .fault
  | fuel + 1, a, pa, s => do
    let (r, s) ← walk pt a true s
    match r with
    | none => .ok (false, s)
    | some pte =>
      if has (s.ld pte) PTE_V then .error (.panic "mappages: remap")
      else
        let s := s.st pte (PA2PTE pa ||| perm ||| PTE_V)
        if a = last then .ok (true, s)
        else mapLoop pt last perm fuel ((a + PGSIZE) % 2 ^ 64) ((pa + PGSIZE) % 2 ^ 64) s

def mappages (pt va size pa perm : ℕ) (s : Sys) : Except Stop (Bool × Sys) :=
  if va % PGSIZE ≠ 0 then .error (.panic "mappages: va not aligned")
  else if size % PGSIZE ≠ 0 then .error (.panic "mappages: size not aligned")
  else if size = 0 then .error (.panic "mappages: size")
  else mapLoop pt ((va + size + 2 ^ 64 - PGSIZE) % 2 ^ 64) perm (size / PGSIZE) va pa s

/-- The loop of `uvmunmap` up to the address `bound`. -/
def unmapLoop (pt bound : ℕ) (doFree : Bool) : ℕ → ℕ → Sys → Except Stop Sys
  | 0, _, s => .ok s
  | fuel + 1, a, s =>
    if a < bound then do
      let (r, s) ← walk pt a false s
      match r with
      | none => .error (.panic "uvmunmap: walk")
      | some pte =>
        if has (s.ld pte) PTE_V = false then .error (.panic "uvmunmap: not mapped")
        else if PTE_FLAGS (s.ld pte) = PTE_V then .error (.panic "uvmunmap: not a leaf")
        else do
          let s ← if doFree then kfree (PTE2PA (s.ld pte)) s else .ok s
          unmapLoop pt bound doFree fuel (a + PGSIZE) (s.st pte 0)
    else .ok s

def uvmunmap (pt va npages : ℕ) (doFree : Bool) (s : Sys) : Except Stop Sys :=
  if va % PGSIZE ≠ 0 then .error (.panic "uvmunmap: not aligned")
  else unmapLoop pt ((va + npages * PGSIZE) % 2 ^ 64) doFree npages va s

def uvmcreate (s : Sys) : Option ℕ × Sys :=
  match kalloc s with
  | (none, s) => (none, s)
  | (some pt, s) => (some pt, s.fill pt 0)

/-- The result is the new size. -/
def uvmdealloc (pt oldsz newsz : ℕ) (s : Sys) : Except Stop (ℕ × Sys) :=
  if oldsz ≤ newsz then .ok (oldsz, s)
  else if PGROUNDUP newsz < PGROUNDUP oldsz then do
    -- `npages` is an `int`, and a `uint64` again in the call
    let npages := cInt ((PGROUNDUP oldsz - PGROUNDUP newsz) / PGSIZE : ℕ)
    let s ← uvmunmap pt (PGROUNDUP newsz) (npages % 2 ^ 64).toNat true s
    .ok (newsz, s)
  else .ok (newsz, s)

/-- The loop of `uvmalloc` at address `a`; `fuel` bounds the number of pages. -/
def allocLoop (pt oldsz newsz xperm : ℕ) : ℕ → ℕ → Sys → Except Stop (ℕ × Sys)
  | 0, _, s => .ok (newsz, s)
  | fuel + 1, a, s =>
    if a < newsz then
      match kalloc s with
      | (none, s) => do
        let (_, s) ← uvmdealloc pt a oldsz s
        .ok (0, s)
      | (some p, s) => do
        let (r, s) ← mappages pt a PGSIZE p (PTE_R ||| PTE_U ||| xperm) (s.fill p 0)
        if r then allocLoop pt oldsz newsz xperm fuel (a + PGSIZE) s
        else do
          let s ← kfree p s
          let (_, s) ← uvmdealloc pt a oldsz s
          .ok (0, s)
    else .ok (newsz, s)

/-- The new size, or 0 on error. -/
def uvmalloc (pt oldsz newsz xperm : ℕ) (s : Sys) : Except Stop (ℕ × Sys) :=
  if newsz < oldsz then .ok (oldsz, s)
  else allocLoop pt (PGROUNDUP oldsz) newsz xperm (newsz / PGSIZE + 1) (PGROUNDUP oldsz) s

/-- `freewalk` of a page table with `fuel` levels; deeper recursion faults. -/
def freewalk : ℕ → ℕ → Sys → Except Stop Sys
  | 0, _, _ => .error .fault
  | fuel + 1, pt, s => do
    let s ← (List.range 512).foldlM (fun s i =>
      let pte := s.ld (pt + 8 * i)
      if has pte PTE_V ∧ has pte (PTE_R ||| PTE_W ||| PTE_X) = false then do
        let s ← freewalk fuel (PTE2PA pte) s
        .ok (s.st (pt + 8 * i) 0)
      else if has pte PTE_V then .error (.panic "freewalk: leaf")
      else .ok s) s
    kfree pt s

def uvmfree (pt sz : ℕ) (s : Sys) : Except Stop Sys := do
  let s ← if 0 < sz then uvmunmap pt 0 (PGROUNDUP sz / PGSIZE) true s else .ok s
  freewalk 3 pt s

/-- The loop of `uvmcopy` at address `i`. -/
def copyLoop (old new sz : ℕ) : ℕ → ℕ → Sys → Except Stop (Bool × Sys)
  | 0, _, s => .ok (true, s)
  | fuel + 1, i, s =>
    let err (s : Sys) : Except Stop (Bool × Sys) := do
      let s ← uvmunmap new 0 (i / PGSIZE) true s
      .ok (false, s)
    if i < sz then do
      let (r, s) ← walk old i false s
      match r with
      | none => .error (.panic "uvmcopy: pte should exist")
      | some pte =>
        if has (s.ld pte) PTE_V = false then .error (.panic "uvmcopy: page not present")
        else
          let pa := PTE2PA (s.ld pte)
          let flags := PTE_FLAGS (s.ld pte)
          match kalloc s with
          | (none, s) => err s
          | (some p, s) => do
            let s := { s with mem := memmove s.mem p (fun x => s.mem (pa + x)) PGSIZE }
            let (r, s) ← mappages new i PGSIZE p flags s
            if r then copyLoop old new sz fuel (i + PGSIZE) s
            else do
              let s ← kfree p s
              err s
    else .ok (true, s)

/-- Whether it returns 0. -/
def uvmcopy (old new sz : ℕ) (s : Sys) : Except Stop (Bool × Sys) := copyLoop old new sz (sz / PGSIZE + 1) 0 s

/-- `*pte &= ~PTE_U`. -/
def uvmclear (pt va : ℕ) (s : Sys) : Except Stop Sys := do
  let (r, s) ← walk pt va false s
  match r with
  | none => .error (.panic "uvmclear")
  | some pte => .ok (s.st pte (s.ld pte - (s.ld pte &&& PTE_U)))

/-! ### Copies between the kernel and a user -/

/-- The loop of `copyout`: `len` bytes of `src` from `i` on go to `dstva`. -/
def outLoop (pt : ℕ) (src : ℕ → UInt8) : ℕ → ℕ → ℕ → ℕ → Sys → Bool × Sys
  | 0, _, _, _, s => (true, s)
  | fuel + 1, dstva, i, len, s =>
    if len = 0 then (true, s)
    else
      let va0 := PGROUNDDOWN dstva
      if MAXVA ≤ va0 then (false, s)
      else
        match lookup s pt va0 with
        | none => (false, s)
        | some pte =>
          if has (s.ld pte) PTE_V = false ∨ has (s.ld pte) PTE_U = false ∨ has (s.ld pte) PTE_W = false then
            (false, s)
          else
            let pa0 := PTE2PA (s.ld pte)
            let n := min (PGSIZE - (dstva - va0)) len
            let s := { s with mem := memmove s.mem (pa0 + (dstva - va0)) (fun x => src (i + x)) n }
            outLoop pt src fuel ((va0 + PGSIZE) % 2 ^ 64) (i + n) (len - n) s

/-- Whether it returns 0. Every round moves a byte, so `len` rounds are enough. -/
def copyout (pt dstva : ℕ) (src : ℕ → UInt8) (len : ℕ) (s : Sys) : Bool × Sys := outLoop pt src len dstva 0 len s

/-- The loop of `copyin`: whether it returns 0, and the bytes stored in `dst`. -/
def inLoop (s : Sys) (pt : ℕ) : ℕ → ℕ → ℕ → Bool × List UInt8
  | 0, _, _ => (true, [])
  | fuel + 1, srcva, len =>
    if len = 0 then (true, [])
    else
      let va0 := PGROUNDDOWN srcva
      let pa0 := walkaddr s pt va0
      if pa0 = 0 then (false, [])
      else
        let n := min (PGSIZE - (srcva - va0)) len
        let r := inLoop s pt fuel ((va0 + PGSIZE) % 2 ^ 64) (len - n)
        (r.1, (List.range n).map (fun x => s.mem (pa0 + (srcva - va0) + x)) ++ r.2)

def copyin (s : Sys) (pt srcva len : ℕ) : Bool × List UInt8 := inLoop s pt len srcva len

/-- The inner loop of `copyinstr`: the bytes stored, and `got_null`. -/
def scan (m : ℕ → UInt8) : ℕ → ℕ → List UInt8 × Bool
  | 0, _ => ([], false)
  | n + 1, p =>
    if m p = 0 then ([0], true)
    else
      let r := scan m n (p + 1)
      (m p :: r.1, r.2)

/-- The loop of `copyinstr`: whether it returns 0, the bytes stored in `dst`, and
the user pages read. -/
def strLoop (s : Sys) (pt : ℕ) : ℕ → ℕ → ℕ → Bool × List UInt8 × List ℕ
  | 0, _, _ => (false, [], [])
  | fuel + 1, srcva, max =>
    if max = 0 then (false, [], [])
    else
      let va0 := PGROUNDDOWN srcva
      let pa0 := walkaddr s pt va0
      if pa0 = 0 then (false, [], [])
      else
        let n := min (PGSIZE - (srcva - va0)) max
        let r := scan s.mem n (pa0 + (srcva - va0))
        if r.2 then (true, r.1, [va0])
        else
          let t := strLoop s pt fuel ((va0 + PGSIZE) % 2 ^ 64) (max - n)
          (t.1, r.1 ++ t.2.1, va0 :: t.2.2)

def copyinstr (s : Sys) (pt srcva max : ℕ) : Bool × List UInt8 × List ℕ := strLoop s pt (max + 1) srcva max

end Vm
end Xv6
