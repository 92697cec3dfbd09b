/-
# The inode table under concurrency

`iget`, `idup`, `ilock`, `iunlock`, `ialloc` and `iput` of `kernel/fs.c` by any
number of processes, at the granularity of their critical sections. A process
has variables that hold pointers to slots of the table; `ref` is to count
them. `iput` lets `itable.lock` go in the middle of freeing an inode, so the
way from its test to the final `ip->ref--` is five steps, and `ialloc` marks
the inode on disk in one step and calls `iget` in another; in between, the
inode may be allocated again and found in its old slot.

A process drops references it holds, and calls `iget` for inodes that have
links, or for the one its own `ialloc` has marked. The holder of a sleep-lock
may change the copy of the inode in the slot, and calls `iupdate` before it
unlocks it.

What the copy in a slot is worth depends on who holds its lock and where that
process is: this is the `Stage` of a slot, and `SlotOk` says what holds in each.

Key definitions: `Itable.Sys`, `Itable.step`, `Itable.Stage`, `Itable.SlotOk`, `Itable.Inv`.
-/
import Xv6.FsDisk
import Xv6.Tally
import Xv6.Trace

namespace Xv6
namespace Itable

open TraceSys Fs

/-- `struct inode`; `lock` is the process that holds the sleep-lock. -/
structure Slot where
  dev : ℕ
  inum : ℕ
  ref : ℕ
  valid : Bool
  lock : Option ℕ
  din : Dinode

/-- Where a process is; `i` is the variable with the pointer it works on. -/
inductive Pc
  | idle
  | ialloc (i dev inum : ℕ)  -- `ialloc`, before `iget(dev, inum)`
  | ilock (i : ℕ)            -- `ilock`, after `acquiresleep`
  | freeing (i : ℕ)          -- `iput`, before `itrunc(ip)`
  | truncated (i : ℕ)        -- `iput`, before `ip->type = 0; iupdate(ip)`
  | freed (i : ℕ)            -- `iput`, before `ip->valid = 0`
  | invalid (i : ℕ)          -- `iput`, before `releasesleep`
  | dropping (i : ℕ)         -- `iput`, before the second `acquire(&itable.lock)`
  deriving DecidableEq

/-- The inodes on disk, `itable.inode[0 .. NINODE)`, the pointers in the
variables of the processes, and where the processes are. -/
structure Sys where
  disk : ℕ → ℕ → Dinode
  slot : ℕ → Slot
  ptr : ℕ × ℕ → Option ℕ
  pc : ℕ → Pc

inductive Ev
  | locked (p k : ℕ)  -- `ilock` has returned
  | frees (p k : ℕ)   -- `iput` has truncated or freed the inode on disk

namespace Sys

def setSlot (s : Sys) (k : ℕ) (x : Slot) : Sys := { s with slot := Function.update s.slot k x }

def setPtr (s : Sys) (v : ℕ × ℕ) (k : Option ℕ) : Sys := { s with ptr := Function.update s.ptr v k }

def setPc (s : Sys) (p : ℕ) (pc : Pc) : Sys := { s with pc := Function.update s.pc p pc }

/-- The inode on disk that slot `k` is for. -/
def dinode (s : Sys) (k : ℕ) : Dinode := s.disk (s.slot k).dev (s.slot k).inum

end Sys

/-- Inode `inum` of device `dev` is overwritten. -/
def putDisk (disk : ℕ → ℕ → Dinode) (dev inum : ℕ) (d : Dinode) : ℕ → ℕ → Dinode :=
  Function.update disk dev (Function.update (disk dev) inum d)

def Sys.setDisk (s : Sys) (dev inum : ℕ) (d : Dinode) : Sys := { s with disk := putDisk s.disk dev inum d }

/-- The copy of the inode in slot `k` goes to disk. -/
def iupdate (s : Sys) (k : ℕ) : Sys := s.setDisk (s.slot k).dev (s.slot k).inum (s.slot k).din

/-- What `itrunc` leaves of the copy. -/
def trunc (d : Dinode) : Dinode := { d with size := 0, addrs := fun _ => 0 }

/-- The slot `iget` returns, and what it becomes. -/
def iget (s : Sys) (dev inum : ℕ) : Except Stop (ℕ × Slot) :=
  match (List.range NINODE).find? fun k =>
      0 < (s.slot k).ref ∧ (s.slot k).dev = dev ∧ (s.slot k).inum = inum with
  | some k => .ok (k, { s.slot k with ref := (s.slot k).ref + 1 })
  | none =>
    match (List.range NINODE).find? fun k => (s.slot k).ref = 0 with
    | some k => .ok (k, { s.slot k with dev := dev, inum := inum, ref := 1, valid := false })
    | none => .error (.panic "iget: no inodes")

/-- The inode has links, on disk or in a copy. -/
def HasLink (s : Sys) (dev inum : ℕ) : Prop :=
  (s.disk dev inum).nlink ≠ 0 ∨
    ∃ k, k < NINODE ∧ 0 < (s.slot k).ref ∧ (s.slot k).dev = dev ∧ (s.slot k).inum = inum ∧
      (s.slot k).valid = true ∧ (s.slot k).din.nlink ≠ 0

instance (s : Sys) (dev inum : ℕ) : Decidable (HasLink s dev inum) :=
  inferInstanceAs (Decidable (_ ∨ ∃ k, k < NINODE ∧ _))

inductive Act
  | iget (p i dev inum : ℕ)
  | idup (p i j : ℕ)
  | ilock (p i : ℕ)
  | iunlock (p i : ℕ)
  | change (p i : ℕ) (d : Dinode)
  | iupdate (p i : ℕ)
  | ialloc (p i dev inum type : ℕ)
  | iput (p i : ℕ)
  | run (p : ℕ)  -- the process goes on with the function it is in

/-- A call begins. The callers keep to the protocol: pointers are held, a
variable that gets a pointer is free, and the fields of an inode are read and
changed under its lock. -/
def begins (s : Sys) (p : ℕ) : Act → Except Stop (Sys × List Ev)
  | .iget _ i dev inum =>
    if s.ptr (p, i) ≠ none ∨ ¬ HasLink s dev inum then .error .blocked
    else do
      let (k, x) ← iget s dev inum
      .ok ((s.setSlot k x).setPtr (p, i) (some k), [])
  | .idup _ i j =>
    match s.ptr (p, i) with
    | some k =>
      if s.ptr (p, j) ≠ none then .error .blocked
      else .ok ((s.setSlot k { s.slot k with ref := (s.slot k).ref + 1 }).setPtr (p, j) (some k), [])
    | none => .error .blocked
  | .ilock _ i =>
    match s.ptr (p, i) with
    | some k =>
      if (s.slot k).ref < 1 then .error (.panic "ilock")
      else if (s.slot k).lock ≠ none then .error .blocked
      else .ok ((s.setSlot k { s.slot k with lock := some p }).setPc p (.ilock i), [])
    | none => .error .blocked
  | .iunlock _ i =>
    match s.ptr (p, i) with
    | some k =>
      if (s.slot k).lock ≠ some p ∨ (s.slot k).ref < 1 then .error (.panic "iunlock")
      -- every change has been followed by `iupdate`
      else if (s.slot k).valid = true ∧ (s.slot k).din ≠ s.dinode k then .error .blocked
      else .ok (s.setSlot k { s.slot k with lock := none }, [])
    | none => .error .blocked
  | .change _ i d =>
    match s.ptr (p, i) with
    | some k =>
      if (s.slot k).lock ≠ some p ∨ (s.slot k).valid = false ∨ d.type = 0 then .error .blocked
      else .ok (s.setSlot k { s.slot k with din := d }, [])
    | none => .error .blocked
  | .iupdate _ i =>
    match s.ptr (p, i) with
    | some k =>
      if (s.slot k).lock ≠ some p ∨ (s.slot k).valid = false then .error .blocked
      else .ok (iupdate s k, [])
    | none => .error .blocked
  -- the scan of `ialloc` stops at some free inode
  | .ialloc _ i dev inum type =>
    if s.ptr (p, i) ≠ none ∨ type = 0 ∨ (s.disk dev inum).type ≠ 0 then .error .blocked
    else .ok ((s.setDisk dev inum { Dinode.zero with type := type }).setPc p (.ialloc i dev inum), [])
  | .iput _ i =>
    match s.ptr (p, i) with
    | some k =>
      if (s.slot k).ref = 1 ∧ (s.slot k).valid = true ∧ (s.slot k).din.nlink = 0 then
        if (s.slot k).lock ≠ none then .error .blocked
        else .ok ((s.setSlot k { s.slot k with lock := some p }).setPc p (.freeing i), [])
      else .ok ((s.setSlot k { s.slot k with ref := (s.slot k).ref - 1 }).setPtr (p, i) none, [])
    | none => .error .blocked
  | .run _ => .error .blocked

/-- The next section of the function process `p` is in. -/
def goesOn (s : Sys) (p : ℕ) : Except Stop (Sys × List Ev) :=
  match s.pc p with
  | .idle => .error .blocked
  | .ialloc i dev inum => do
    let (k, x) ← iget s dev inum
    .ok (((s.setSlot k x).setPtr (p, i) (some k)).setPc p .idle, [])
  | .ilock i =>
    match s.ptr (p, i) with
    | some k =>
      if (s.slot k).valid = true then .ok (s.setPc p .idle, [.locked p k])
      else if (s.dinode k).type = 0 then .error (.panic "ilock: no type")
      else .ok ((s.setSlot k { s.slot k with valid := true, din := s.dinode k }).setPc p .idle, [.locked p k])
    | none => .error .blocked
  | .freeing i =>
    match s.ptr (p, i) with
    | some k =>
      .ok ((iupdate (s.setSlot k { s.slot k with din := trunc (s.slot k).din }) k).setPc p (.truncated i),
        [.frees p k])
    | none => .error .blocked
  | .truncated i =>
    match s.ptr (p, i) with
    | some k =>
      .ok ((iupdate (s.setSlot k { s.slot k with din := { (s.slot k).din with type := 0 } }) k).setPc p (.freed i),
        [.frees p k])
    | none => .error .blocked
  | .freed i =>
    match s.ptr (p, i) with
    | some k => .ok ((s.setSlot k { s.slot k with valid := false }).setPc p (.invalid i), [])
    | none => .error .blocked
  | .invalid i =>
    match s.ptr (p, i) with
    | some k => .ok ((s.setSlot k { s.slot k with lock := none }).setPc p (.dropping i), [])
    | none => .error .blocked
  | .dropping i =>
    match s.ptr (p, i) with
    | some k =>
      .ok (((s.setSlot k { s.slot k with ref := (s.slot k).ref - 1 }).setPtr (p, i) none).setPc p .idle, [])
    | none => .error .blocked

def Act.proc : Act → ℕ
  | .iget p .. | .idup p .. | .ilock p _ | .iunlock p _ | .change p .. | .iupdate p _ | .ialloc p ..
  | .iput p _ | .run p => p

def step (s : Sys) (a : Act) : Except Stop (Sys × List Ev) :=
  match a with
  | .run p => goesOn s p
  | a => if s.pc a.proc ≠ .idle then .error .blocked else begins s a.proc a

/-- An empty table over a disk. -/
def boot (disk : ℕ → ℕ → Dinode) : Sys where
  disk := disk
  slot _ := ⟨0, 0, 0, false, none, .zero⟩
  ptr _ := none
  pc _ := .idle

/-! ### The stages of a slot -/

/-- What the holder of a slot's lock is about. -/
inductive Stage
  | free      -- nobody holds the lock
  | working   -- the holder may have changed the copy
  | loading   -- `ilock` is to read the inode if the copy is not valid
  | freeing   -- `iput` is to free the inode on disk
  | freed     -- `iput` has freed the inode on disk
  | invalid   -- `iput` has cleared `valid`
  deriving DecidableEq

/-- The variable a process in a function that holds a lock works on, and the stage of the slot. -/
def Pc.on : Pc → Option (ℕ × Stage)
  | .ilock i => some (i, .loading)
  | .freeing i => some (i, .freeing)
  | .truncated i => some (i, .freeing)
  | .freed i => some (i, .freed)
  | .invalid i => some (i, .invalid)
  | _ => none

def Sys.stage (s : Sys) (k : ℕ) : Stage :=
  match (s.slot k).lock with
  | none => .free
  | some p =>
    match (s.pc p).on with
    | some (i, st) => if s.ptr (p, i) = some k then st else .working
    | none => .working

/-- What holds of a slot in use, and of its inode on disk, in each stage. -/
def SlotOk : Stage → Slot → Dinode → Prop
  | .free, x, d => x.valid = true → x.din = d ∧ d.type ≠ 0
  | .loading, x, d => x.valid = true → x.din = d ∧ d.type ≠ 0
  | .working, x, d => x.valid = true → x.din.type ≠ 0 ∧ d.type ≠ 0
  | .freeing, x, d => x.valid = true ∧ x.din = d ∧ d.type ≠ 0 ∧ d.nlink = 0 ∧ x.ref = 1
  | .freed, x, _ => x.din.nlink = 0
  | .invalid, x, _ => x.valid = false

/-- The variable whose pointer a process is about to drop, the inode being gone. -/
def Pc.leaving : Pc → Option ℕ
  | .freed i => some i
  | .invalid i => some i
  | .dropping i => some i
  | _ => none

/-- All pointers to the inode belong to processes that have freed it and are about to drop them. -/
def Quiet (s : Sys) (d n : ℕ) : Prop :=
  ∀ q j k, s.ptr (q, j) = some k → (s.slot k).dev = d → (s.slot k).inum = n → (s.pc q).leaving = some j

/-- What holds of an inode that `ialloc` has marked and not yet got from `iget`. -/
structure Marked (s : Sys) (d n : ℕ) : Prop where
  type : (s.disk d n).type ≠ 0
  nlink : (s.disk d n).nlink = 0
  quiet : Quiet s d n
  stale : ∀ k, k < NINODE → 0 < (s.slot k).ref → (s.slot k).dev = d → (s.slot k).inum = n →
    (s.slot k).valid = false ∨ s.stage k = .freed

structure Inv (s : Sys) : Prop where
  unique : ∀ k l, k < NINODE → l < NINODE → 0 < (s.slot k).ref → 0 < (s.slot l).ref →
    (s.slot k).dev = (s.slot l).dev → (s.slot k).inum = (s.slot l).inum → k = l
  refs : ∀ k, k < NINODE → Tally s.ptr (some k) (s.slot k).ref
  range : ∀ v k, s.ptr v = some k → k < NINODE
  busy : ∀ p i st, (s.pc p).on = some (i, st) → ∃ k, s.ptr (p, i) = some k ∧ (s.slot k).lock = some p
  slots : ∀ k, k < NINODE → 0 < (s.slot k).ref → SlotOk (s.stage k) (s.slot k) (s.dinode k)
  zero : ∀ d n, (s.disk d n).type = 0 → (s.disk d n).nlink = 0 ∧ Quiet s d n
  marked : ∀ p i d n, s.pc p = .ialloc i d n → s.ptr (p, i) = none ∧ Marked s d n
  markedBy : ∀ p q i j d n, s.pc p = .ialloc i d n → s.pc q = .ialloc j d n → p = q

/-! ### Who holds the lock -/

variable {s s' : Sys} {p i k : ℕ} {x : Slot} {d : Dinode} {q : Pc}

/-- The stage of a slot whose lock is held by nobody or by a process that works on it. -/
def lockStage (lock : Option ℕ) (pc : Pc) : Stage :=
  match lock with
  | none => .free
  | some _ =>
    match pc.on with
    | some (_, st) => st
    | none => .working

theorem stage_of_lock (hptr : s.ptr (p, i) = some k) (hl : (s.slot k).lock = none ∨ (s.slot k).lock = some p)
    (hon : ∀ j st, (s.pc p).on = some (j, st) → j = i) :
    s.stage k = lockStage (s.slot k).lock (s.pc p) := by
  unfold Sys.stage lockStage
  rcases hl with hl | hl
  · rw [hl]
  · rw [hl]
    rcases ho : (s.pc p).on with _ | ⟨j, st⟩
    · simp only [ho]
    · obtain rfl := hon j st ho
      simp only [ho, if_pos hptr]

/-- The lock is free, or the process holds it and is at rest. -/
theorem stage_free (hl : (s.slot k).lock = none) : s.stage k = .free := by
  unfold Sys.stage
  rw [hl]

theorem stage_working (hl : (s.slot k).lock = some p) (hidle : s.pc p = .idle) : s.stage k = .working := by
  unfold Sys.stage
  rw [hl]
  simp only [hidle, Pc.on]

/-- A slot that a process in the middle of a function works on is in use. -/
theorem Inv.ref_pos (h : Inv s) (hptr : s.ptr (p, i) = some k) : 0 < (s.slot k).ref :=
  (h.refs k (h.range _ k hptr)).pos hptr

/-! ### The changes a step makes -/

theorem putDisk_self (disk : ℕ → ℕ → Dinode) (dev inum : ℕ) : putDisk disk dev inum (disk dev inum) = disk := by
  unfold putDisk
  rw [Function.update_eq_self, Function.update_eq_self]

theorem putDisk_same (disk : ℕ → ℕ → Dinode) (dev inum : ℕ) (d : Dinode) :
    putDisk disk dev inum d dev inum = d := by
  simp [putDisk]

theorem putDisk_other {disk : ℕ → ℕ → Dinode} {dev inum dev' inum' : ℕ} {d : Dinode}
    (h : ¬ (dev' = dev ∧ inum' = inum)) : putDisk disk dev inum d dev' inum' = disk dev' inum' := by
  unfold putDisk
  by_cases h1 : dev' = dev
  · rw [h1, Function.update_self, Function.update_of_ne fun h2 => h ⟨h1, h2⟩]
  · rw [Function.update_of_ne h1]

/-- Process `p` changes slot `k`, its inode on disk, and where it is. -/
def moved (s : Sys) (k : ℕ) (x : Slot) (d : Dinode) (p : ℕ) (q : Pc) : Sys where
  disk := putDisk s.disk (s.slot k).dev (s.slot k).inum d
  slot := Function.update s.slot k x
  ptr := s.ptr
  pc := Function.update s.pc p q

/-- What such a change has to look like: the process has a pointer to the slot,
nobody else holds its lock, and references and identity stay. -/
structure Moves (s : Sys) (k : ℕ) (x : Slot) (d : Dinode) (p i : ℕ) (q : Pc) : Prop where
  ptr : s.ptr (p, i) = some k
  ref : x.ref = (s.slot k).ref
  dev : x.dev = (s.slot k).dev
  inum : x.inum = (s.slot k).inum
  lock : (s.slot k).lock = none ∨ (s.slot k).lock = some p
  lock' : x.lock = none ∨ x.lock = some p
  on : ∀ j st, (s.pc p).on = some (j, st) → j = i
  on' : ∀ j st, q.on = some (j, st) → j = i ∧ x.lock = some p
  noAlloc : ∀ j d n, q ≠ .ialloc j d n
  leaving : ∀ j, (s.pc p).leaving = some j → j = i ∧ q.leaving = some i ∧ d = s.dinode k ∧ x.valid = false
  ok : SlotOk (lockStage x.lock q) x d
  gone : d.type = 0 → d = s.dinode k ∨ (d.nlink = 0 ∧ (s.slot k).ref = 1 ∧ q.leaving = some i)

section Moved

variable (hm : Moves s k x d p i q)
include hm

theorem Moves.slot_dev (l : ℕ) : ((moved s k x d p q).slot l).dev = (s.slot l).dev := by
  by_cases hl : l = k
  · rw [hl]
    simpa [moved] using hm.dev
  · simp [moved, hl]

theorem Moves.slot_inum (l : ℕ) : ((moved s k x d p q).slot l).inum = (s.slot l).inum := by
  by_cases hl : l = k
  · rw [hl]
    simpa [moved] using hm.inum
  · simp [moved, hl]

theorem Moves.slot_ref (l : ℕ) : ((moved s k x d p q).slot l).ref = (s.slot l).ref := by
  by_cases hl : l = k
  · rw [hl]
    simpa [moved] using hm.ref
  · simp [moved, hl]

theorem Moves.stage_self : (moved s k x d p q).stage k = lockStage x.lock q := by
  have hself : (moved s k x d p q).slot k = x := Function.update_self ..
  have hpc : (moved s k x d p q).pc p = q := Function.update_self ..
  have h := stage_of_lock (s := moved s k x d p q) (p := p) (i := i) (k := k) hm.ptr
    (by rw [hself]; exact hm.lock') (by rw [hpc]; exact fun j st h => (hm.on' j st h).1)
  rwa [hself, hpc] at h

theorem Moves.stage_other {l : ℕ} (hl : l ≠ k) : (moved s k x d p q).stage l = s.stage l := by
  have hslot : (moved s k x d p q).slot l = s.slot l := Function.update_of_ne hl ..
  have hptr : s.ptr (p, i) ≠ some l := by
    rw [hm.ptr]
    simpa using Ne.symm hl
  unfold Sys.stage
  rw [hslot]
  cases hlock : (s.slot l).lock with
  | none => rfl
  | some u =>
    by_cases hu : u = p
    · -- the process holds this lock too, and works on another slot
      subst hu
      have hpc : (moved s k x d u q).pc u = q := Function.update_self ..
      have hold : ∀ r : Pc, (∀ j st, r.on = some (j, st) → j = i) →
          (match r.on with
            | some (j, st) => if s.ptr (u, j) = some l then st else Stage.working
            | none => .working) = .working := by
        intro r hr
        rcases ho : r.on with _ | ⟨j, st⟩
        · rfl
        · obtain rfl := hr j st ho
          exact if_neg hptr
      have h1 := hold q fun j st h => (hm.on' j st h).1
      have h2 := hold (s.pc u) hm.on
      simp only [hpc]
      exact h1.trans h2.symm
    · have hpc : (moved s k x d p q).pc u = s.pc u := Function.update_of_ne hu ..
      simp only [hpc]
      rfl

theorem Moves.dinode_self : (moved s k x d p q).dinode k = d := by
  rw [Sys.dinode, hm.slot_dev, hm.slot_inum]
  exact putDisk_same ..

omit hm in
theorem moved_disk_other {d' n : ℕ} (h : ¬ (d' = (s.slot k).dev ∧ n = (s.slot k).inum)) :
    (moved s k x d p q).disk d' n = s.disk d' n := putDisk_other h

theorem Moves.quiet {d' n : ℕ} (h : Quiet s d' n) : Quiet (moved s k x d p q) d' n := by
  intro u j l hptr hdev hinum
  rw [hm.slot_dev] at hdev
  rw [hm.slot_inum] at hinum
  have hlv := h u j l hptr hdev hinum
  by_cases hu : u = p
  · subst hu
    obtain ⟨rfl, hq, -⟩ := hm.leaving j hlv
    have hpc : (moved s k x d u q).pc u = q := Function.update_self ..
    rw [hpc, hq]
  · have hpc : (moved s k x d p q).pc u = s.pc u := Function.update_of_ne hu ..
    rw [hpc, hlv]

end Moved

theorem Inv.move (h : Inv s) (hm : Moves s k x d p i q) : Inv (moved s k x d p q) := by
  have hk := h.range _ k hm.ptr
  have href := h.ref_pos hm.ptr
  have hpcp : (moved s k x d p q).pc p = q := Function.update_self ..
  have hpc : ∀ u, u ≠ p → (moved s k x d p q).pc u = s.pc u := fun u hu => Function.update_of_ne hu ..
  have halloc : ∀ u j d' n, (moved s k x d p q).pc u = .ialloc j d' n → s.pc u = .ialloc j d' n := by
    intro u j d' n hu
    by_cases hup : u = p
    · rw [hup, hpcp] at hu
      exact absurd hu (hm.noAlloc j d' n)
    · rwa [hpc u hup] at hu
  refine ⟨fun l m hl hm' h1 h2 h3 h4 => ?_, fun l hl => ?_, h.range, fun u j st hu => ?_, fun l hl h1 => ?_,
    fun d' n h0 => ?_, fun u j d' n hu => ?_, fun u v j j' d' n hu hv => ?_⟩
  · rw [hm.slot_ref] at h1 h2
    rw [hm.slot_dev, hm.slot_dev] at h3
    rw [hm.slot_inum, hm.slot_inum] at h4
    exact h.unique l m hl hm' h1 h2 h3 h4
  · rw [hm.slot_ref]
    exact h.refs l hl
  · by_cases hup : u = p
    · rw [hup, hpcp] at hu
      obtain ⟨rfl, hlk⟩ := hm.on' j st hu
      exact ⟨k, by rw [hup]; exact hm.ptr, by rw [hup]; simpa [moved] using hlk⟩
    · rw [hpc u hup] at hu
      obtain ⟨l, hl, hlk⟩ := h.busy u j st hu
      refine ⟨l, hl, ?_⟩
      have hlk' : l ≠ k := by
        intro he
        rw [he] at hlk
        rcases hm.lock with h1 | h1
        · simp [h1] at hlk
        · rw [h1] at hlk
          exact hup (Option.some.inj hlk).symm
      have hslot : (moved s k x d p q).slot l = s.slot l := Function.update_of_ne hlk' ..
      rw [hslot, hlk]
  · by_cases hlk : l = k
    · subst hlk
      have hslot : (moved s l x d p q).slot l = x := Function.update_self ..
      rw [hm.stage_self, hm.dinode_self, hslot]
      exact hm.ok
    · rw [hm.slot_ref] at h1
      have hslot : (moved s k x d p q).slot l = s.slot l := Function.update_of_ne hlk ..
      have hdin : (moved s k x d p q).dinode l = s.dinode l := by
        rw [Sys.dinode, hslot]
        refine moved_disk_other fun he => hlk ?_
        exact h.unique l k hl hk h1 href he.1 he.2
      rw [hm.stage_other hlk, hdin, hslot]
      exact h.slots l hl h1
  · by_cases hid : d' = (s.slot k).dev ∧ n = (s.slot k).inum
    · obtain ⟨rfl, rfl⟩ := hid
      have hd : (moved s k x d p q).disk (s.slot k).dev (s.slot k).inum = d := putDisk_same ..
      rw [hd] at h0 ⊢
      rcases hm.gone h0 with he | ⟨hn, h1, hlv⟩
      · have hz := h.zero (s.slot k).dev (s.slot k).inum (by rw [← Sys.dinode, ← he]; exact h0)
        exact ⟨by rw [he]; exact hz.1, hm.quiet hz.2⟩
      · refine ⟨hn, fun u j l hptr hdev hinum => ?_⟩
        rw [hm.slot_dev] at hdev
        rw [hm.slot_inum] at hinum
        have hl := h.range _ l hptr
        obtain rfl : l = k := h.unique l k hl hk (h.ref_pos hptr) href hdev hinum
        have hone := h.refs l hl
        rw [h1] at hone
        obtain ⟨rfl, rfl⟩ := Prod.mk.inj (hone.one hptr hm.ptr)
        rw [hpcp, hlv]
    · rw [moved_disk_other hid] at h0 ⊢
      exact ⟨(h.zero d' n h0).1, hm.quiet (h.zero d' n h0).2⟩
  · obtain ⟨h1, hmk⟩ := h.marked u j d' n (halloc u j d' n hu)
    refine ⟨h1, ?_⟩
    by_cases hid : (s.slot k).dev = d' ∧ (s.slot k).inum = n
    · obtain ⟨rfl, rfl⟩ := hid
      obtain ⟨-, -, hd, hv⟩ := hm.leaving i (hmk.quiet p i k hm.ptr rfl rfl)
      have hdisk : (moved s k x d p q).disk (s.slot k).dev (s.slot k).inum = s.disk (s.slot k).dev (s.slot k).inum := by
        rw [hd]
        exact putDisk_same ..
      refine ⟨by rw [hdisk]; exact hmk.type, by rw [hdisk]; exact hmk.nlink, hm.quiet hmk.quiet, fun l hl h2 h3 h4 => ?_⟩
      rw [hm.slot_ref] at h2
      rw [hm.slot_dev] at h3
      rw [hm.slot_inum] at h4
      obtain rfl : l = k := h.unique l k hl hk h2 href h3 h4
      left
      simpa [moved] using hv
    · have hdisk : (moved s k x d p q).disk d' n = s.disk d' n :=
        moved_disk_other fun he => hid ⟨he.1.symm, he.2.symm⟩
      refine ⟨by rw [hdisk]; exact hmk.type, by rw [hdisk]; exact hmk.nlink, hm.quiet hmk.quiet, fun l hl h2 h3 h4 => ?_⟩
      rw [hm.slot_ref] at h2
      rw [hm.slot_dev] at h3
      rw [hm.slot_inum] at h4
      have hlk : l ≠ k := fun he => hid (he ▸ ⟨h3, h4⟩)
      have hslot : (moved s k x d p q).slot l = s.slot l := Function.update_of_ne hlk ..
      rw [hslot, hm.stage_other hlk]
      exact hmk.stale l hl h2 h3 h4
  · exact h.markedBy u v j j' d' n (halloc u j d' n hu) (halloc v j' d' n hv)

/-! ### Pointers come and go -/

/-- Process `p` gets a pointer to slot `k`, and is at rest. -/
def gained (s : Sys) (k : ℕ) (x : Slot) (p i : ℕ) : Sys where
  disk := s.disk
  slot := Function.update s.slot k x
  ptr := Function.update s.ptr (p, i) (some k)
  pc := Function.update s.pc p .idle

/-- The slot is one in use, or is recycled, for an inode that is no other slot's
and that nobody else is to get from `ialloc`. -/
structure Gains (s : Sys) (k : ℕ) (x : Slot) (p i : ℕ) : Prop where
  lt : k < NINODE
  ptr : s.ptr (p, i) = none
  on : (s.pc p).on = none
  leaving : (s.pc p).leaving = none
  ref : x.ref = (s.slot k).ref + 1
  lock : x.lock = (s.slot k).lock
  slot : (0 < (s.slot k).ref ∧ x.dev = (s.slot k).dev ∧ x.inum = (s.slot k).inum ∧
      x.valid = (s.slot k).valid ∧ x.din = (s.slot k).din ∧ s.stage k ≠ .freeing) ∨
    ((s.slot k).ref = 0 ∧ x.valid = false)
  unique : ∀ l, l < NINODE → l ≠ k → 0 < (s.slot l).ref → ¬ ((s.slot l).dev = x.dev ∧ (s.slot l).inum = x.inum)
  type : (s.disk x.dev x.inum).type ≠ 0
  alone : ∀ u j, u ≠ p → s.pc u ≠ .ialloc j x.dev x.inum

section Gained

/-- A pointer to an inode: an old one, or one to the slot that has changed. -/
theorem gained_ptr {u j l d' n : ℕ} (hptr : (gained s k x p i).ptr (u, j) = some l)
    (hdev : ((gained s k x p i).slot l).dev = d') (hinum : ((gained s k x p i).slot l).inum = n) :
    (s.ptr (u, j) = some l ∧ (s.slot l).dev = d' ∧ (s.slot l).inum = n) ∨ (x.dev = d' ∧ x.inum = n) := by
  by_cases hl : l = k
  · rw [hl] at hdev hinum
    right
    simpa [gained] using And.intro hdev hinum
  · left
    have hne : (u, j) ≠ (p, i) := by
      intro he
      rw [he] at hptr
      simp only [gained, Function.update_self, Option.some.injEq] at hptr
      exact hl hptr.symm
    simp only [gained, Function.update_of_ne hl] at hdev hinum
    exact ⟨by simpa [gained, hne] using hptr, hdev, hinum⟩

variable (hg : Gains s k x p i)
include hg

theorem Gains.stage_eq (l : ℕ) : (gained s k x p i).stage l = s.stage l := by
  have hlock : ((gained s k x p i).slot l).lock = (s.slot l).lock := by
    by_cases hl : l = k
    · rw [hl]
      simpa [gained] using hg.lock
    · simp [gained, hl]
  unfold Sys.stage
  rw [hlock]
  cases hu : (s.slot l).lock with
  | none => rfl
  | some u =>
    by_cases hup : u = p
    · subst hup
      have hpc : (gained s k x u i).pc u = .idle := Function.update_self ..
      simp only [hpc, hg.on]
      rfl
    · have hpc : (gained s k x p i).pc u = s.pc u := Function.update_of_ne hup ..
      have hptr : ∀ j, (gained s k x p i).ptr (u, j) = s.ptr (u, j) := fun j =>
        Function.update_of_ne (fun he => hup (Prod.mk.inj he).1) ..
      simp only [hpc, hptr]

theorem Gains.quiet {d' n : ℕ} (hq : Quiet s d' n) (hid : ¬ (x.dev = d' ∧ x.inum = n)) :
    Quiet (gained s k x p i) d' n := by
  intro u j l hptr hdev hinum
  rcases gained_ptr hptr hdev hinum with ⟨h1, h2, h3⟩ | h1
  · have hlv := hq u j l h1 h2 h3
    by_cases hup : u = p
    · rw [hup, hg.leaving] at hlv
      cases hlv
    · have hpc : (gained s k x p i).pc u = s.pc u := Function.update_of_ne hup ..
      rw [hpc, hlv]
  · exact absurd h1 hid

/-- A slot in use after the step, other than the one that changed, was in use before. -/
theorem Gains.slot_cases {l : ℕ} (hl : l < NINODE) (h1 : 0 < ((gained s k x p i).slot l).ref) :
    (l = k ∧ (gained s k x p i).slot l = x) ∨
      (l ≠ k ∧ (gained s k x p i).slot l = s.slot l ∧ 0 < (s.slot l).ref ∧
        ¬ ((s.slot l).dev = x.dev ∧ (s.slot l).inum = x.inum)) := by
  by_cases hlk : l = k
  · exact .inl ⟨hlk, by rw [hlk]; exact Function.update_self ..⟩
  · have hslot : (gained s k x p i).slot l = s.slot l := Function.update_of_ne hlk ..
    rw [hslot] at h1
    exact .inr ⟨hlk, hslot, h1, hg.unique l hl hlk h1⟩

end Gained

theorem SlotOk.incRef {st : Stage} {x y : Slot} {d : Dinode} (h : SlotOk st x d) (hst : st ≠ .freeing)
    (hv : y.valid = x.valid) (hd : y.din = x.din) : SlotOk st y d := by
  cases st with
  | freeing => exact absurd rfl hst
  | _ =>
    simp only [SlotOk, hv, hd] at h ⊢
    exact h

/-- A slot that nobody has a pointer to is held by nobody in the middle of a function. -/
theorem Inv.stage_unused (h : Inv s) (h0 : (s.slot k).ref = 0) (hk : k < NINODE) :
    s.stage k = .free ∨ s.stage k = .working := by
  have hnone := h.refs k hk
  rw [h0] at hnone
  unfold Sys.stage
  cases hl : (s.slot k).lock with
  | none => exact .inl rfl
  | some u =>
    right
    rcases ho : (s.pc u).on with _ | ⟨j, st⟩
    · simp only [ho]
    · simp only [ho]
      exact if_neg (hnone.eq_zero (u, j))

theorem Inv.gain (h : Inv s) (hg : Gains s k x p i) : Inv (gained s k x p i) := by
  have hpcp : (gained s k x p i).pc p = .idle := Function.update_self ..
  have hpc : ∀ u, u ≠ p → (gained s k x p i).pc u = s.pc u := fun u hu => Function.update_of_ne hu ..
  have halloc : ∀ u j d' n, (gained s k x p i).pc u = .ialloc j d' n → u ≠ p ∧ s.pc u = .ialloc j d' n := by
    intro u j d' n hu
    by_cases hup : u = p
    · rw [hup, hpcp] at hu
      cases hu
    · rw [hpc u hup] at hu
      exact ⟨hup, hu⟩
  have hxk : (gained s k x p i).slot k = x := Function.update_self ..
  refine ⟨fun l m hl hm h1 h2 h3 h4 => ?_, fun l hl => ?_, fun v l hv => ?_, fun u j st hu => ?_,
    fun l hl h1 => ?_, fun d' n h0 => ?_, fun u j d' n hu => ?_, fun u v j j' d' n hu hv => ?_⟩
  · rcases hg.slot_cases hl h1 with ⟨rfl, e1⟩ | ⟨-, e1, r1, n1⟩
    · rcases hg.slot_cases hm h2 with ⟨rfl, -⟩ | ⟨-, e2, -, n2⟩
      · rfl
      · rw [e1, e2] at h3 h4
        exact absurd ⟨h3.symm, h4.symm⟩ n2
    · rcases hg.slot_cases hm h2 with ⟨rfl, e2⟩ | ⟨-, e2, r2, -⟩
      · rw [e1, e2] at h3 h4
        exact absurd ⟨h3, h4⟩ n1
      · rw [e1, e2] at h3 h4
        exact h.unique l m hl hm r1 r2 h3 h4
  · by_cases hlk : l = k
    · rw [hlk, hxk, hg.ref]
      exact (h.refs k hg.lt).enter (by simp [hg.ptr])
    · have hslot : (gained s k x p i).slot l = s.slot l := Function.update_of_ne hlk ..
      rw [hslot]
      exact (h.refs l hl).pass (by simp [hg.ptr]) (by simpa using Ne.symm hlk)
  · by_cases hvp : v = (p, i)
    · rw [hvp] at hv
      simp only [gained, Function.update_self, Option.some.injEq] at hv
      exact hv ▸ hg.lt
    · simp only [gained, Function.update_of_ne hvp] at hv
      exact h.range v l hv
  · by_cases hup : u = p
    · rw [hup, hpcp] at hu
      cases hu
    · rw [hpc u hup] at hu
      obtain ⟨l, hl, hlk⟩ := h.busy u j st hu
      have hne : (u, j) ≠ (p, i) := fun he => hup (Prod.mk.inj he).1
      refine ⟨l, by simpa [gained, hne] using hl, ?_⟩
      by_cases hlk' : l = k
      · rw [hlk', hxk, hg.lock, ← hlk', hlk]
      · simpa [gained, hlk'] using hlk
  · rw [hg.stage_eq]
    by_cases hlk : l = k
    · subst hlk
      rw [Sys.dinode, hxk]
      change SlotOk _ _ (s.disk x.dev x.inum)
      rcases hg.slot with ⟨r, hd, hn, hv, hdin, hst⟩ | ⟨h0, hv⟩
      · rw [hd, hn]
        exact (h.slots l hl r).incRef hst hv hdin
      · rcases h.stage_unused h0 hl with hst | hst <;> rw [hst] <;> simp [SlotOk, hv]
    · have hslot : (gained s k x p i).slot l = s.slot l := Function.update_of_ne hlk ..
      rw [hslot] at h1
      rw [Sys.dinode, hslot]
      exact h.slots l hl h1
  · refine ⟨(h.zero d' n h0).1, hg.quiet (h.zero d' n h0).2 fun hid => hg.type ?_⟩
    rw [hid.1, hid.2]
    exact h0
  · obtain ⟨hup, hu'⟩ := halloc u j d' n hu
    obtain ⟨h1, hmk⟩ := h.marked u j d' n hu'
    have hid : ¬ (x.dev = d' ∧ x.inum = n) := by
      intro hid
      apply hg.alone u j hup
      rw [hid.1, hid.2, hu']
    have hne : (u, j) ≠ (p, i) := fun he => hup (Prod.mk.inj he).1
    refine ⟨by simpa [gained, hne] using h1, hmk.type, hmk.nlink, hg.quiet hmk.quiet hid, fun l hl h2 h3 h4 => ?_⟩
    rcases hg.slot_cases hl h2 with ⟨rfl, e⟩ | ⟨-, e, r, -⟩
    · rw [e] at h3 h4
      exact absurd ⟨h3, h4⟩ hid
    · rw [e] at h3 h4 ⊢
      rw [hg.stage_eq]
      exact hmk.stale l hl r h3 h4
  · exact h.markedBy u v j j' d' n (halloc u j d' n hu).2 (halloc v j' d' n hv).2

/-- Process `p` gives up its pointer to slot `k`, and is at rest. -/
def lost (s : Sys) (k p i : ℕ) : Sys where
  disk := s.disk
  slot := Function.update s.slot k { s.slot k with ref := (s.slot k).ref - 1 }
  ptr := Function.update s.ptr (p, i) none
  pc := Function.update s.pc p .idle

section Lost

variable (hptr : s.ptr (p, i) = some k) (hon : (s.pc p).on = none)

theorem lost_slot (l : ℕ) : ((lost s k p i).slot l).dev = (s.slot l).dev ∧
    ((lost s k p i).slot l).inum = (s.slot l).inum ∧ ((lost s k p i).slot l).valid = (s.slot l).valid ∧
    ((lost s k p i).slot l).lock = (s.slot l).lock ∧ ((lost s k p i).slot l).din = (s.slot l).din ∧
    ((lost s k p i).slot l).ref ≤ (s.slot l).ref := by
  by_cases hl : l = k
  · rw [hl]
    simp [lost]
  · simp [lost, hl]

theorem lost_ptr {v : ℕ × ℕ} {l : ℕ} (hv : (lost s k p i).ptr v = some l) : v ≠ (p, i) ∧ s.ptr v = some l := by
  have hne : v ≠ (p, i) := by
    intro he
    rw [he] at hv
    simp [lost] at hv
  exact ⟨hne, by simpa [lost, hne] using hv⟩

include hon in
theorem lost_stage (l : ℕ) : (lost s k p i).stage l = s.stage l := by
  unfold Sys.stage
  rw [(lost_slot l).2.2.2.1]
  cases hu : (s.slot l).lock with
  | none => rfl
  | some u =>
    by_cases hup : u = p
    · subst hup
      have hpc : (lost s k u i).pc u = .idle := Function.update_self ..
      simp only [hpc, hon]
      rfl
    · have hpc : (lost s k p i).pc u = s.pc u := Function.update_of_ne hup ..
      have hptr : ∀ j, (lost s k p i).ptr (u, j) = s.ptr (u, j) := fun j =>
        Function.update_of_ne (fun he => hup (Prod.mk.inj he).1) ..
      simp only [hpc, hptr]

theorem lost_quiet (hlv : ∀ j, (s.pc p).leaving = some j → j = i) {d' n : ℕ} (hq : Quiet s d' n) :
    Quiet (lost s k p i) d' n := by
  intro u j l hv hdev hinum
  obtain ⟨hne, hv'⟩ := lost_ptr hv
  rw [(lost_slot l).1] at hdev
  rw [(lost_slot l).2.1] at hinum
  have h1 := hq u j l hv' hdev hinum
  have hup : u ≠ p := by
    intro hup
    rw [hup] at h1
    exact hne (by rw [hup, hlv j h1])
  have hpc : (lost s k p i).pc u = s.pc u := Function.update_of_ne hup ..
  rw [hpc, h1]

include hptr hon in
theorem Inv.lose (h : Inv s) (hlv : ∀ j, (s.pc p).leaving = some j → j = i) : Inv (lost s k p i) := by
  have hpcp : (lost s k p i).pc p = .idle := Function.update_self ..
  have hpc : ∀ u, u ≠ p → (lost s k p i).pc u = s.pc u := fun u hu => Function.update_of_ne hu ..
  have halloc : ∀ u j d' n, (lost s k p i).pc u = .ialloc j d' n → u ≠ p ∧ s.pc u = .ialloc j d' n := by
    intro u j d' n hu
    by_cases hup : u = p
    · rw [hup, hpcp] at hu
      cases hu
    · rw [hpc u hup] at hu
      exact ⟨hup, hu⟩
  have href : ∀ l, 0 < ((lost s k p i).slot l).ref → 0 < (s.slot l).ref := fun l h1 =>
    h1.trans_le (lost_slot l).2.2.2.2.2
  refine ⟨fun l m hl hm h1 h2 h3 h4 => ?_, fun l hl => ?_, fun v l hv => h.range v l (lost_ptr hv).2,
    fun u j st hu => ?_, fun l hl h1 => ?_, fun d' n h0 => ⟨(h.zero d' n h0).1, lost_quiet hlv (h.zero d' n h0).2⟩,
    fun u j d' n hu => ?_, fun u v j j' d' n hu hv => ?_⟩
  · rw [(lost_slot l).1, (lost_slot m).1] at h3
    rw [(lost_slot l).2.1, (lost_slot m).2.1] at h4
    exact h.unique l m hl hm (href l h1) (href m h2) h3 h4
  · by_cases hlk : l = k
    · subst hlk
      have hslot : ((lost s l p i).slot l).ref = (s.slot l).ref - 1 := by simp [lost]
      rw [hslot]
      exact (h.refs l hl).leave hptr (by simp)
    · have hslot : (lost s k p i).slot l = s.slot l := Function.update_of_ne hlk ..
      rw [hslot]
      exact (h.refs l hl).pass (by rw [hptr]; simpa using Ne.symm hlk) (by simp)
  · by_cases hup : u = p
    · rw [hup, hpcp] at hu
      cases hu
    · rw [hpc u hup] at hu
      obtain ⟨l, hl, hlk⟩ := h.busy u j st hu
      have hne : (u, j) ≠ (p, i) := fun he => hup (Prod.mk.inj he).1
      exact ⟨l, by simpa [lost, hne] using hl, by rw [(lost_slot l).2.2.2.1, hlk]⟩
  · have hok := h.slots l hl (href l h1)
    have hdin : (lost s k p i).dinode l = s.dinode l := by
      rw [Sys.dinode, (lost_slot l).1, (lost_slot l).2.1]
      rfl
    rw [lost_stage hon, hdin]
    by_cases hst : s.stage l = .freeing
    · -- the only reference is the one of the process that frees the inode
      rw [hst] at hok ⊢
      have hlk : l ≠ k := by
        rintro rfl
        have hone : (s.slot l).ref = 1 := hok.2.2.2.2
        have hslot : ((lost s l p i).slot l).ref = (s.slot l).ref - 1 := by simp [lost]
        omega
      have hslot : (lost s k p i).slot l = s.slot l := Function.update_of_ne hlk ..
      rw [hslot]
      exact hok
    · exact hok.incRef hst (lost_slot l).2.2.1 (lost_slot l).2.2.2.2.1
  · obtain ⟨hup, hu'⟩ := halloc u j d' n hu
    obtain ⟨h1, hmk⟩ := h.marked u j d' n hu'
    have hne : (u, j) ≠ (p, i) := fun he => hup (Prod.mk.inj he).1
    refine ⟨by simpa [lost, hne] using h1, hmk.type, hmk.nlink, lost_quiet hlv hmk.quiet, fun l hl h2 h3 h4 => ?_⟩
    rw [(lost_slot l).1] at h3
    rw [(lost_slot l).2.1] at h4
    rw [(lost_slot l).2.2.1, lost_stage hon]
    exact hmk.stale l hl (href l h2) h3 h4
  · exact h.markedBy u v j j' d' n (halloc u j d' n hu).2 (halloc v j' d' n hv).2

end Lost

end Itable
end Xv6
