/-
# Blocks, inodes and directories

The layers of `kernel/fs.c` below path names, over the buffer cache: `data` is
what `bread` returns. A buffer that is changed and not handed to `log_write`
loses the change when it is recycled, so `stable` keeps what `bread` would
return then; `logged` lists the blocks handed to `log_write`.

A function that can panic or sleep returns `Except Stop`. A process that holds
an inode's sleep-lock sees the inode alone, so a call is one step; `locked`
records the sleep-lock. There is one device.

Key definitions: `Fs.Sys`, `Fs.balloc`, `Fs.bfree`, `Fs.bmap`, `Fs.itrunc`, `Fs.iput`,
`Fs.readi`, `Fs.writei`, `Fs.dirlookup`, `Fs.dirlink`.
-/
import Xv6.FsDisk

namespace Xv6
namespace Fs

/-- `struct inode`: the fields kept in memory only, and a copy of the disk inode. -/
structure Inode where
  inum : ℕ
  ref : ℕ
  locked : Bool
  valid : Bool
  din : Dinode

structure Sys where
  data : ℕ → Block
  stable : ℕ → Block
  logged : List ℕ
  /-- `itable.inode[0 .. NINODE)`; an inode pointer is an index. -/
  itable : ℕ → Inode

/-- The buffer of block `b` gets the content `v`. -/
def Sys.put (s : Sys) (b : ℕ) (v : Block) : Sys := { s with data := Function.update s.data b v }

def Sys.setInode (s : Sys) (k : ℕ) (ip : Inode) : Sys :=
  { s with itable := Function.update s.itable k ip }

/-- The inode with another copy of the disk inode. -/
def Inode.withDin (ip : Inode) (d : Dinode) : Inode := { ip with din := d }

def Sys.setDin (s : Sys) (k : ℕ) (d : Dinode) : Sys := s.setInode k ((s.itable k).withDin d)

/-- `ip->addrs[q] = a`. -/
def Sys.setAddr (s : Sys) (k q a : ℕ) : Sys := s.setDin k ((s.itable k).din.setAddr q a)

def logWrite (b : ℕ) (s : Sys) : Sys :=
  { s with stable := Function.update s.stable b (s.data b), logged := s.logged ++ [b] }

/-! ### Blocks -/

def bzero (b : ℕ) (s : Sys) : Sys := logWrite b (s.put b .zero)

/-- The inner loop of `balloc`: the first clear bit of the map block of `b`. -/
def findFree (sb : Super) (b : ℕ) (s : Sys) : Option ℕ :=
  (List.range BPB).find? fun bi => b + bi < sb.size ∧ ¬ (s.data (sb.bblock b)).isset bi

/-- The loops of `balloc`: a map block, by its first bit, and a clear bit in it. -/
def scanFree (sb : Super) (s : Sys) : Option (ℕ × ℕ) :=
  (List.range ((sb.size + BPB - 1) / BPB)).findSome? fun o =>
    (findFree sb (o * BPB) s).map fun bi => (o * BPB, bi)

/-- A zeroed block, or 0 if the disk is full. -/
def balloc (sb : Super) (s : Sys) : ℕ × Sys :=
  match scanFree sb s with
  | some (b, bi) =>
    let bno := sb.bblock b
    (b + bi, bzero (b + bi) (logWrite bno (s.put bno ((s.data bno).mark bi))))
  | none => (0, s)

def bfree (sb : Super) (b : ℕ) (s : Sys) : Except Stop Sys :=
  let bno := sb.bblock b
  if (s.data bno).isset (b % BPB) then
    .ok (logWrite bno (s.put bno ((s.data bno).unmark (b % BPB))))
  else .error (.panic "freeing free block")

/-! ### Inodes -/

/-- The inode `i` on disk. -/
def Sys.dinode (sb : Super) (s : Sys) (i : ℕ) : Dinode := (s.data (sb.iblock i)).dinode (i % IPB)

/-- Inode `i` of the inode blocks is overwritten. -/
def Sys.putDinode (sb : Super) (s : Sys) (i : ℕ) (d : Dinode) : Sys :=
  logWrite (sb.iblock i) (s.put (sb.iblock i) ((s.data (sb.iblock i)).putDinode (i % IPB) d))

def iget (inum : ℕ) (s : Sys) : Except Stop (ℕ × Sys) :=
  match (List.range NINODE).find? fun k => 0 < (s.itable k).ref ∧ (s.itable k).inum = inum with
  | some k => .ok (k, s.setInode k { s.itable k with ref := (s.itable k).ref + 1 })
  | none =>
    match (List.range NINODE).find? fun k => (s.itable k).ref = 0 with
    | some k => .ok (k, s.setInode k { s.itable k with inum := inum, ref := 1, valid := false })
    | none => .error (.panic "iget: no inodes")

/-- The inode pointer, or none if there is no free inode. -/
def ialloc (sb : Super) (type : UInt16) (s : Sys) : Except Stop (Option ℕ × Sys) :=
  match (List.range' 1 (sb.ninodes - 1)).find? fun i => (s.dinode sb i).type = 0 with
  | some i => do
    let (k, s) ← iget i (s.putDinode sb i { Dinode.zero with type := type.toNat })
    .ok (some k, s)
  | none => .ok (none, s)

def iupdate (sb : Super) (k : ℕ) (s : Sys) : Sys := s.putDinode sb (s.itable k).inum (s.itable k).din

def idup (k : ℕ) (s : Sys) : Sys := s.setInode k { s.itable k with ref := (s.itable k).ref + 1 }

def ilock (sb : Super) (k : ℕ) (s : Sys) : Except Stop Sys :=
  let ip := s.itable k
  if ip.ref < 1 then .error (.panic "ilock")
  else if ip.locked then .error .blocked
  else if ip.valid then .ok (s.setInode k { ip with locked := true })
  else
    let d := s.dinode sb ip.inum
    if d.type = 0 then .error (.panic "ilock: no type")
    else .ok (s.setInode k { ip with locked := true, valid := true, din := d })

def iunlock (k : ℕ) (s : Sys) : Except Stop Sys :=
  let ip := s.itable k
  if ¬ ip.locked ∨ ip.ref < 1 then .error (.panic "iunlock")
  else .ok (s.setInode k { ip with locked := false })

/-- The address of the indirect block, allocated if there is none, or 0. -/
def loadIndirect (sb : Super) (k : ℕ) (s : Sys) : ℕ × Sys :=
  let addr := (s.itable k).din.addr NDIRECT
  if addr = 0 then
    let r := balloc sb s
    if r.1 = 0 then (0, r.2) else (r.1, r.2.setAddr k NDIRECT r.1)
  else (addr, s)

/-- The address of block `bn` of the file, allocated if there is none, or 0 if the disk is full. -/
def bmap (sb : Super) (k bn : ℕ) (s : Sys) : Except Stop (ℕ × Sys) :=
  if bn < NDIRECT then
    let addr := (s.itable k).din.addr bn
    if addr = 0 then
      let r := balloc sb s
      if r.1 = 0 then .ok (0, r.2) else .ok (r.1, r.2.setAddr k bn r.1)
    else .ok (addr, s)
  else if bn - NDIRECT < NINDIRECT then
    let l := loadIndirect sb k s
    if l.1 = 0 then .ok (0, l.2)
    else
      let addr := (l.2.data l.1).rd (4 * (bn - NDIRECT)) 4
      if addr = 0 then
        let r := balloc sb l.2
        if r.1 = 0 then .ok (0, r.2)
        else .ok (r.1, logWrite l.1 (r.2.put l.1 ((r.2.data l.1).wr (4 * (bn - NDIRECT)) 4 r.1)))
      else .ok (addr, l.2)
  else .error (.panic "bmap: out of range")

/-- The loop body of `itrunc` for `addrs[i]`. -/
def truncDirect (sb : Super) (k : ℕ) (s : Sys) (i : ℕ) : Except Stop Sys :=
  let addr := (s.itable k).din.addr i
  if addr = 0 then .ok s
  else do
    let s ← bfree sb addr s
    .ok (s.setAddr k i 0)

/-- The loop body of `itrunc` for `a[j]`, where `a` is block `x`. -/
def truncEntry (sb : Super) (x : ℕ) (s : Sys) (j : ℕ) : Except Stop Sys :=
  let addr := (s.data x).rd (4 * j) 4
  if addr = 0 then .ok s else bfree sb addr s

/-- The part of `itrunc` that frees the indirect block and what it lists. -/
def truncIndirect (sb : Super) (k : ℕ) (s : Sys) : Except Stop Sys :=
  let x := (s.itable k).din.addr NDIRECT
  if x = 0 then .ok s
  else do
    let s ← (List.range NINDIRECT).foldlM (truncEntry sb x) s
    let s ← bfree sb x s
    .ok (s.setAddr k NDIRECT 0)

def itrunc (sb : Super) (k : ℕ) (s : Sys) : Except Stop Sys := do
  let s ← (List.range NDIRECT).foldlM (truncDirect sb k) s
  let s ← truncIndirect sb k s
  .ok (iupdate sb k (s.setDin k { (s.itable k).din with size := 0 }))

def decRef (k : ℕ) (s : Sys) : Sys := s.setInode k { s.itable k with ref := (s.itable k).ref - 1 }

def iput (sb : Super) (k : ℕ) (s : Sys) : Except Stop Sys :=
  let ip := s.itable k
  if ip.ref = 1 ∧ ip.valid ∧ ip.din.nlink = 0 then
    if ip.locked then .error .blocked
    else do
      let s ← itrunc sb k s
      let s := iupdate sb k (s.setDin k { (s.itable k).din with type := 0 })
      .ok (decRef k (s.setInode k { s.itable k with valid := false }))
  else .ok (decRef k s)

/-! ### Inode content -/

/-- How many of the `m` bytes from address `a` on come before the first that
`ok` refuses: `copyin` and `copyout` stop at an unmapped page. -/
def copied (ok : ℕ → Bool) (a m : ℕ) : ℕ := ((List.range m).takeWhile fun i => ok (a + i)).length

/-- `either_copyin(bp->data + o, ..., a, m)`: the block after it, and whether it
succeeded. `src` has the bytes that are mapped. -/
def eitherCopyin (blk : Block) (o : ℕ) (src : ℕ → Option UInt8) (a m : ℕ) : Block × Bool :=
  let c := copied (fun i => (src i).isSome) a m
  (Block.of fun j => if o ≤ j ∧ j < o + c then (src (a + (j - o))).getD 0 else blk.get j, c = m)

/-- The bytes `[o, o + m)` of a block. -/
def slice (blk : Block) (o m : ℕ) : List UInt8 := (List.range m).map fun i => blk.get (o + i)

/-- The loop of `readi`; `out` is what has been copied to `dst`. The result is
`tot`, or none for -1. -/
def readLoop (sb : Super) (k : ℕ) (dst : ℕ → Bool) (a n : ℕ) :
    ℕ → ℕ → ℕ → List UInt8 → Sys → Except Stop ((Option ℕ × List UInt8) × Sys)
  | 0, tot, _, out, s => .ok ((some tot, out), s)
  | fuel + 1, tot, off, out, s =>
    if tot < n then do
      let (addr, s) ← bmap sb k (off / BSIZE) s
      if addr = 0 then .ok ((some tot, out), s)
      else
        let m := min (n - tot) (BSIZE - off % BSIZE)
        let c := copied dst (a + tot) m
        let out := out ++ slice (s.data addr) (off % BSIZE) c
        if c = m then readLoop sb k dst a n fuel (tot + m) (off + m) out s
        else .ok ((none, out), s)
    else .ok ((some tot, out), s)

/-- `dst` tells the mapped destination addresses. The result is `tot`, or none
for -1, and the bytes delivered. Every round of the loop moves a byte, so `n`
rounds are enough. -/
def readi (sb : Super) (k : ℕ) (dst : ℕ → Bool) (a : ℕ) (off n : UInt32) (s : Sys) :
    Except Stop ((Option ℕ × List UInt8) × Sys) :=
  let size := (s.itable k).din.size
  if size < off.toNat ∨ off + n < off then .ok ((some 0, []), s)
  else
    let n := if size < (off + n).toNat then size - off.toNat else n.toNat
    readLoop sb k dst a n n 0 off.toNat [] s

/-- The loop of `writei`; the result is `tot` and `off`. -/
def writeLoop (sb : Super) (k : ℕ) (src : ℕ → Option UInt8) (a n : ℕ) :
    ℕ → ℕ → ℕ → Sys → Except Stop ((ℕ × ℕ) × Sys)
  | 0, tot, off, s => .ok ((tot, off), s)
  | fuel + 1, tot, off, s =>
    if tot < n then do
      let (addr, s) ← bmap sb k (off / BSIZE) s
      if addr = 0 then .ok ((tot, off), s)
      else
        let m := min (n - tot) (BSIZE - off % BSIZE)
        let w := eitherCopyin (s.data addr) (off % BSIZE) src (a + tot) m
        let s := s.put addr w.1
        if w.2 then writeLoop sb k src a n fuel (tot + m) (off + m) (logWrite addr s)
        else .ok ((tot, off), s)
    else .ok ((tot, off), s)

/-- The result is `tot`, or none for -1. -/
def writei (sb : Super) (k : ℕ) (src : ℕ → Option UInt8) (a : ℕ) (off n : UInt32) (s : Sys) :
    Except Stop (Option ℕ × Sys) :=
  if (s.itable k).din.size < off.toNat ∨ off + n < off then .ok (none, s)
  else if MAXFILE * BSIZE < (off + n).toNat then .ok (none, s)
  else do
    let ((tot, off), s) ← writeLoop sb k src a n.toNat n.toNat 0 off.toNat s
    let d := (s.itable k).din
    .ok (some tot, iupdate sb k (s.setDin k (if d.size < off then { d with size := off } else d)))

/-! ### Directories -/

/-- `strncmp`. -/
def strncmp (p q : ℕ → UInt8) : ℕ → ℤ
  | 0 => 0
  | n + 1 =>
    if p 0 ≠ 0 ∧ p 0 = q 0 then strncmp (fun i => p (i + 1)) (fun i => q (i + 1)) n
    else (p 0).toNat - (q 0).toNat

/-- What `strncpy` stores: `t` up to its NUL, then NULs. -/
def strncpy (t : ℕ → UInt8) (i : ℕ) : UInt8 := if (List.range i).any fun j => t j = 0 then 0 else t i

def namecmp (s t : ℕ → UInt8) : ℤ := strncmp s t DIRSIZ

/-- `struct dirent`. -/
structure Dirent where
  inum : ℕ
  name : ℕ → UInt8

def Dirent.size : ℕ := 2 + DIRSIZ

def Dirent.ofBytes (l : List UInt8) : Dirent where
  inum := Bytes.le (fun i => l.getD i 0) 0 2
  name := fun i => l.getD (2 + i) 0

/-- The bytes of a directory entry. -/
def Dirent.bytes (de : Dirent) (i : ℕ) : UInt8 :=
  if i < 2 then .ofNat (de.inum / 256 ^ i) else de.name (i - 2)

/-- The loops of `dirlookup` and `dirlink` over the entries at the offsets of a
list, up to the first entry `p` accepts. -/
def dirScan (sb : Super) (k : ℕ) (msg : String) (p : Dirent → Bool) :
    List ℕ → Sys → Except Stop (Option (ℕ × Dirent) × Sys)
  | [], s => .ok (none, s)
  | off :: l, s => do
    let ((r, bytes), s) ← readi sb k (fun _ => true) 0 (.ofNat off) (.ofNat Dirent.size) s
    if r ≠ some Dirent.size then .error (.panic msg)
    else if p (.ofBytes bytes) then .ok (some (off, .ofBytes bytes), s)
    else dirScan sb k msg p l s

/-- The offsets a loop over the entries visits. -/
def dirOffsets (size : ℕ) : List ℕ :=
  (List.range ((size + Dirent.size - 1) / Dirent.size)).map (· * Dirent.size)

/-- The inode pointer and the offset of the entry of that name. -/
def dirlookup (sb : Super) (k : ℕ) (name : ℕ → UInt8) (s : Sys) :
    Except Stop (Option (ℕ × ℕ) × Sys) :=
  let d := (s.itable k).din
  if d.type ≠ T_DIR then .error (.panic "dirlookup not DIR")
  else do
    let (r, s) ← dirScan sb k "dirlookup read" (fun de => de.inum ≠ 0 ∧ namecmp name de.name = 0)
      (dirOffsets d.size) s
    match r with
    | none => .ok (none, s)
    | some (off, de) => do
      let (j, s) ← iget de.inum s
      .ok (some (j, off), s)

/-- Whether it succeeded. -/
def dirlink (sb : Super) (k : ℕ) (name : ℕ → UInt8) (inum : ℕ) (s : Sys) : Except Stop (Bool × Sys) := do
  let (r, s) ← dirlookup sb k name s
  match r with
  | some (j, _) => do
    let s ← iput sb j s
    .ok (false, s)
  | none => do
    let offs := dirOffsets (s.itable k).din.size
    let (e, s) ← dirScan sb k "dirlink read" (fun de => de.inum = 0) offs s
    let off := match e with
      | some (off, _) => off
      | none => offs.length * Dirent.size
    let de : Dirent := ⟨inum, strncpy name⟩
    let (w, s) ← writei sb k (fun i => some (de.bytes i)) 0 (.ofNat off) (.ofNat Dirent.size) s
    .ok (w = some Dirent.size, s)

end Fs
end Xv6
