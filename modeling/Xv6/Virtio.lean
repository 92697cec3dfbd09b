/-
# The disk driver and the disk

`kernel/virtio_disk.c` and a device, which exchange requests through two
rings. The driver publishes the head of a chain of three descriptors in the
avail ring; the device takes it, works on it, and returns the head in the used
ring; the interrupt handler finds the buffer by the head and marks it done.
Both rings have `NUM` cells under counters of 16 bits that wrap.

A call of `virtio_disk_rw` is named by its buffer: `bread` and `bwrite` call it
with the buffer's sleep-lock held, so a buffer has one call at a time. Driver
code runs under `vdisk_lock`; the device does not take the lock and works
between any two steps. Of the device it is assumed that it takes published
chains in order and completes each of them once, at any time and in any order,
with status 0.

Key definitions: `Virtio.Sys`, `Virtio.step`.
-/
import Xv6.Basic
import Xv6.Ring
import Xv6.Trace

namespace Xv6
namespace Virtio

open TraceSys

def NUM : ℕ := 8

/-- `BSIZE / 512`. -/
def SECTORS : ℕ := 2

/-- What the address in a descriptor is the address of. -/
inductive Addr
  | null
  | ops (i : ℕ)     -- `&disk.ops[i]`
  | data (b : ℕ)    -- `b->data`
  | status (i : ℕ)  -- `&disk.info[i].status`
  deriving DecidableEq

/-- `struct virtq_desc`; the two flags are `VRING_DESC_F_NEXT` and `VRING_DESC_F_WRITE`. -/
structure Desc where
  addr : Addr
  len : ℕ
  hasNext : Bool
  write : Bool
  next : ℕ
  deriving DecidableEq

def Desc.zero : Desc := ⟨.null, 0, false, false, 0⟩

/-- `struct virtio_blk_req`. -/
structure BlkReq where
  out : Bool  -- `VIRTIO_BLK_T_OUT`, a write
  sector : ℕ
  deriving DecidableEq

structure Info where
  b : Option ℕ
  status : ℕ
  deriving DecidableEq

/-- A ring and its index. -/
structure VRing where
  ring : ℕ → ℕ
  idx : UInt16

/-- The descriptors of a request, `idx[0]`, `idx[1]` and `idx[2]`. -/
structure Idx where
  i0 : ℕ
  i1 : ℕ
  i2 : ℕ
  deriving DecidableEq

/-- Where the call for a buffer is. -/
inductive Pc
  | idle
  | start              -- before `acquire(&disk.vdisk_lock)`
  | alloc              -- at `alloc3_desc(idx)`
  | allocSleep         -- in `sleep(&disk.free[0], ...)`
  | format (x : Idx)   -- formats the descriptors
  | ring (x : Idx)     -- at `disk.avail->ring[...] = idx[0]`
  | bump (x : Idx)     -- at `disk.avail->idx += 1`
  | wait (x : Idx)     -- at `while(b->disk == 1)`
  | waitSleep (x : Idx)  -- in `sleep(b, ...)`
  deriving DecidableEq

/-- Who holds `vdisk_lock`. -/
inductive Holder
  | rw (b : ℕ)
  | intr
  deriving DecidableEq

/-- A chain as the device has read it. -/
structure DevReq where
  head : ℕ
  buf : ℕ
  stat : ℕ
  op : BlkReq
  deriving DecidableEq

/-- How far the device has looked in the avail ring, and the chains it works on. -/
structure Device where
  last : UInt16
  pending : List DevReq

/-- `disk`, `b->disk`, and the calls: their arguments, where they are, and
whether their processes sleep. -/
structure Sys where
  desc : ℕ → Desc
  free : ℕ → Bool
  avail : VRing
  used : VRing
  usedIdx : UInt16
  info : ℕ → Info
  ops : ℕ → BlkReq
  disk : ℕ → Bool
  lock : Option Holder
  req : ℕ → BlkReq
  pc : ℕ → Pc
  asleep : ℕ → Bool
  dev : Device

/-- What happens to the request of a buffer. -/
inductive Kind
  | published
  | consumed
  | completed
  | processed
  | returned
  deriving DecidableEq

structure Ev where
  kind : Kind
  b : ℕ
  deriving DecidableEq

namespace Sys

def setPc (s : Sys) (b : ℕ) (pc : Pc) : Sys := { s with pc := Function.update s.pc b pc }

/-- `wakeup(&disk.free[0])`. -/
def wakeupFree (s : Sys) : Sys :=
  { s with asleep := fun b => if s.pc b = .allocSleep then false else s.asleep b }

/-- `wakeup(b)`. -/
def wakeup (s : Sys) (b : ℕ) : Sys := { s with asleep := Function.update s.asleep b false }

/-- `sleep(chan, &disk.vdisk_lock)`. -/
def sleep (s : Sys) (b : ℕ) (pc : Pc) : Sys :=
  { s with lock := none, pc := Function.update s.pc b pc, asleep := Function.update s.asleep b true }

end Sys

/-! ### Descriptors -/

/-- The first free descriptor. -/
def allocDesc (s : Sys) : Option (ℕ × Sys) :=
  match (List.range NUM).find? fun i => s.free i with
  | some i => some (i, { s with free := Function.update s.free i false })
  | none => none

def freeDesc (s : Sys) (i : ℕ) : Except Stop Sys :=
  if NUM ≤ i then .error (.panic "free_desc 1")
  else if s.free i then .error (.panic "free_desc 2")
  else
    .ok ({ s with desc := Function.update s.desc i .zero, free := Function.update s.free i true } : Sys).wakeupFree

/-- The loop of `free_chain`. A descriptor cannot be freed twice, so `NUM + 1`
rounds are more than it can take. -/
def freeChain : ℕ → Sys → ℕ → Except Stop Sys
  | 0, _, _ => .error .fault
  | n + 1, s, i => do
    let s' ← freeDesc s i
    if (s.desc i).hasNext then freeChain n s' (s.desc i).next else .ok s'

def alloc3Desc (s : Sys) : Except Stop (Sys × Option Idx) :=
  match allocDesc s with
  | none => .ok (s, none)
  | some (i0, s) =>
    match allocDesc s with
    | none => do
      let s ← freeDesc s i0
      .ok (s, none)
    | some (i1, s) =>
      match allocDesc s with
      | none => do
        let s ← freeDesc s i0
        let s ← freeDesc s i1
        .ok (s, none)
      | some (i2, s) => .ok (s, some ⟨i0, i1, i2⟩)

/-! ### `virtio_disk_rw` -/

/-- The three descriptors are filled in, and the request is recorded. -/
def format (s : Sys) (b : ℕ) (x : Idx) : Sys :=
  { s with
    ops := Function.update s.ops x.i0 (s.req b)
    desc := Function.update (Function.update (Function.update s.desc
      x.i0 ⟨.ops x.i0, 16, true, false, x.i1⟩)
      x.i1 ⟨.data b, 1024, true, !(s.req b).out, x.i2⟩)
      x.i2 ⟨.status x.i0, 1, false, true, 0⟩
    info := Function.update s.info x.i0 ⟨some b, 0xff⟩
    disk := Function.update s.disk b true }

/-- The next section of the call for buffer `b`, which holds the lock. -/
def rw (s : Sys) (b : ℕ) : Except Stop (Sys × List Ev) :=
  match s.pc b with
  | .alloc => do
    let (s, idx) ← alloc3Desc s
    match idx with
    | some x => .ok (s.setPc b (.format x), [])
    | none => .ok (s.sleep b .allocSleep, [])
  | .format x => .ok ((format s b x).setPc b (.ring x), [])
  | .ring x =>
    .ok ({ s with avail :=
      { s.avail with ring := Function.update s.avail.ring (s.avail.idx.toNat % NUM) x.i0 } }.setPc b (.bump x), [])
  | .bump x => .ok ({ s with avail := { s.avail with idx := s.avail.idx + 1 } }.setPc b (.wait x), [⟨.published, b⟩])
  | .wait x =>
    if s.disk b then .ok (s.sleep b (.waitSleep x), [])
    else do
      let s ← freeChain (NUM + 1) { s with info := Function.update s.info x.i0 { s.info x.i0 with b := none } } x.i0
      .ok ({ s with lock := none }.setPc b .idle, [⟨.returned, b⟩])
  | _ => .error .blocked

/-- The process takes the lock, at the start of a call or when `sleep` returns. -/
def acquire (s : Sys) (b : ℕ) : Except Stop (Sys × List Ev) :=
  if s.lock ≠ none ∨ s.asleep b = true then .error .blocked
  else
    match s.pc b with
    | .start => .ok ({ s with lock := some (.rw b) }.setPc b .alloc, [])
    | .allocSleep => .ok ({ s with lock := some (.rw b) }.setPc b .alloc, [])
    | .waitSleep x => .ok ({ s with lock := some (.rw b) }.setPc b (.wait x), [])
    | _ => .error .blocked

/-! ### `virtio_disk_intr` -/

/-- One iteration of the loop, or its end. -/
def intr (s : Sys) : Except Stop (Sys × List Ev) :=
  if s.usedIdx ≠ s.used.idx then
    let id := s.used.ring (s.usedIdx.toNat % NUM)
    if (s.info id).status ≠ 0 then .error (.panic "virtio_disk_intr status")
    else
      match (s.info id).b with
      | none => .error .fault
      | some b =>
        .ok ({ s with disk := Function.update s.disk b false, usedIdx := s.usedIdx + 1 }.wakeup b, [⟨.processed, b⟩])
  else .ok ({ s with lock := none }, [])

/-! ### The device -/

/-- The device takes the next chain from the avail ring. What it does with a
chain that is not made of a request, data and a status byte is not known. -/
def consume (s : Sys) : Except Stop (Sys × List Ev) :=
  if s.dev.last = s.avail.idx then .error .blocked
  else
    let head := s.avail.ring (s.dev.last.toNat % NUM)
    let d0 := s.desc head
    let d1 := s.desc d0.next
    let d2 := s.desc d1.next
    match d0.addr, d1.addr, d2.addr with
    | .ops i, .data b, .status k =>
      if d0.hasNext ∧ d1.hasNext ∧ ¬ d2.hasNext then
        .ok ({ s with dev := ⟨s.dev.last + 1, s.dev.pending ++ [⟨head, b, k, s.ops i⟩]⟩ }, [⟨.consumed, b⟩])
      else .error .fault
    | _, _, _ => .error .fault

/-- The device completes the `n`th of the chains it works on. -/
def complete (s : Sys) (n : ℕ) : Except Stop (Sys × List Ev) :=
  match s.dev.pending[n]? with
  | none => .error .blocked
  | some r =>
    .ok ({ s with
      dev := { s.dev with pending := s.dev.pending.eraseIdx n }
      info := Function.update s.info r.stat { s.info r.stat with status := 0 }
      used := ⟨Function.update s.used.ring (s.used.idx.toNat % NUM) r.head, s.used.idx + 1⟩ }, [⟨.completed, r.buf⟩])

inductive Act
  | call (b : ℕ) (write : Bool) (blockno : UInt32)
  | acquire (b : ℕ)
  | rw (b : ℕ)
  | kill (b : ℕ)  -- `kill` makes the process run
  | intrAcquire
  | intr
  | consume
  | complete (n : ℕ)

def step (s : Sys) : Act → Except Stop (Sys × List Ev)
  | .call b write blockno =>
    if s.pc b ≠ .idle then .error .blocked
    else
      .ok ({ s with req := Function.update s.req b ⟨write, (blockno * UInt32.ofNat SECTORS).toNat⟩
                    asleep := Function.update s.asleep b false }.setPc b .start, [])
  | .acquire b => acquire s b
  | .rw b => if s.lock ≠ some (.rw b) then .error .blocked else rw s b
  | .kill b => .ok (s.wakeup b, [])
  | .intrAcquire => if s.lock ≠ none then .error .blocked else .ok ({ s with lock := some .intr }, [])
  | .intr => if s.lock ≠ some .intr then .error .blocked else intr s
  | .consume => consume s
  | .complete n => complete s n

/-- The state `virtio_disk_init` leaves. -/
def boot : Sys where
  desc _ := .zero
  free _ := true
  avail := ⟨fun _ => 0, 0⟩
  used := ⟨fun _ => 0, 0⟩
  usedIdx := 0
  info _ := ⟨none, 0⟩
  ops _ := ⟨false, 0⟩
  disk _ := false
  lock := none
  req _ := ⟨false, 0⟩
  pc _ := .idle
  asleep _ := false
  dev := ⟨0, []⟩

/-! ### What the trace says -/

/-- The buffers of the events of a kind, in order. -/
def bufs (k : Kind) (tr : List Ev) : List ℕ := (tr.filter fun e => e.kind = k).map Ev.b

/-- Where the request of a buffer is. -/
inductive Stage
  | idle
  | avail   -- published
  | device  -- taken by the device
  | used    -- completed
  | done    -- seen by the interrupt handler
  deriving DecidableEq

def Kind.source : Kind → Stage
  | .published => .idle
  | .consumed => .avail
  | .completed => .device
  | .processed => .used
  | .returned => .done

def Kind.target : Kind → Stage
  | .published => .avail
  | .consumed => .device
  | .completed => .used
  | .processed => .done
  | .returned => .idle

/-- The stage after one event more; `none` once something has happened out of turn. -/
def note (b : ℕ) (o : Option Stage) (e : Ev) : Option Stage :=
  if e.b ≠ b then o else if o = some e.kind.source then some e.kind.target else none

def stageOf (tr : List Ev) (b : ℕ) : Option Stage := tr.foldl (note b) (some .idle)

end Virtio
end Xv6
