/-
# The log

`kernel/log.c` over the buffer cache: operations bracketed by `begin_op` and
`end_op` change cached blocks and record them with `log_write`; the last
operation to end runs `commit`. The disk is a map from block numbers to
contents that only `bwrite` changes, one block at a time. The cache holds the
buffers that have been read; a buffer that is not pinned may be recycled at
any time (`evict`), and then the block is read from the disk again. A crash
can come between any two block writes: the disk stays, the memory is lost,
and the machine starts over in `recover_from_log`.

A step is a section under `log.lock`, or one loop iteration of `write_log` or
`install_trans` (one block write), or one `write_head`.

Key definitions: `Sys`, `step`, `spec`.
-/
import Xv6.Basic
import Xv6.Disk
import Xv6.Redo
import Xv6.Trace

namespace Xv6
namespace Log

open TraceSys Redo

/-- `log.start` and `log.size`, which `initlog` takes from the super block. -/
structure Area where
  start : ℕ
  size : ℕ
  pos : 0 < size

/-- The log on a disk laid out by `mkfs`: `nlog = LOGSIZE` blocks from block 2 on. -/
def mkfsArea : Area := ⟨2, LOGSIZE, by decide⟩

/-- A block of the log area: the header or a log block. -/
def Area.Mem (A : Area) (b : ℕ) : Prop := A.start ≤ b ∧ b < A.start + A.size

instance (A : Area) (b : ℕ) : Decidable (A.Mem b) := inferInstanceAs (Decidable (_ ∧ _))

/-- A block a file system operation may log: a `uint` outside the log area. -/
def Area.Home (A : Area) (b : ℕ) : Prop := ¬ A.Mem b ∧ b < 2 ^ 32

instance (A : Area) (b : ℕ) : Decidable (A.Home b) := inferInstanceAs (Decidable (_ ∧ _))

/-! ### The header block -/

/-- `lh->block[0 .. lh->n)` of a header block. -/
def headList (b : Block) : List ℕ :=
  (List.range (toInt32 (b.rd 0 4)).toNat).map fun i => b.rd (4 + 4 * i) 4

/-- The loop of `write_head`, from index `i` on. -/
def putBlocks : ℕ → List ℕ → Block → Block
  | _, [], b => b
  | i, x :: l, b => putBlocks (i + 1) l (b.wr (4 + 4 * i) 4 x)

/-- The header block with `n` and `block[0 .. n)` overwritten; the rest stays. -/
def putHead (b : Block) (l : List ℕ) : Block := putBlocks 0 l (b.wr 0 4 l.length)

theorem rd_putBlocks_before {o : ℕ} (ho : o + 4 ≤ BSIZE) : ∀ (l : List ℕ) (i : ℕ) (b : Block),
    o + 4 ≤ 4 + 4 * i → (putBlocks i l b).rd o 4 = b.rd o 4
  | [], _, _, _ => rfl
  | x :: l, i, b, h => by
    rw [putBlocks, rd_putBlocks_before ho l (i + 1) _ (by omega), Block.rd_wr_disjoint ho (Or.inl h)]

theorem rd_putBlocks : ∀ (l : List ℕ) (i : ℕ) (b : Block), 4 + 4 * (i + l.length) ≤ BSIZE →
    (∀ x ∈ l, x < 2 ^ 32) → ∀ j (h : j < l.length), (putBlocks i l b).rd (4 + 4 * (i + j)) 4 = l[j]
  | x :: l, i, b, hlen, hlt, j, h => by
    simp only [List.length_cons] at hlen h
    cases j with
    | zero =>
      have hx : x < 256 ^ 4 := hlt x List.mem_cons_self
      change (putBlocks i (x :: l) b).rd (4 + 4 * i) 4 = x
      rw [putBlocks, rd_putBlocks_before (by omega) l (i + 1) _ (by omega), Block.rd_wr (by omega),
        Nat.mod_eq_of_lt hx]
    | succ j =>
      have ih := rd_putBlocks l (i + 1) (b.wr (4 + 4 * i) 4 x) (by omega)
        (fun y hy => hlt y (List.mem_cons_of_mem _ hy)) j (by omega)
      rw [putBlocks, ← Nat.add_assoc, Nat.add_right_comm]
      simpa using ih

/-- `read_head` gets back what `write_head` wrote. -/
theorem headList_putHead (b : Block) {l : List ℕ} (hlen : l.length ≤ LOGSIZE) (hlt : ∀ x ∈ l, x < 2 ^ 32) :
    headList (putHead b l) = l := by
  have h30 : l.length ≤ 30 := hlen
  have hn : (putHead b l).rd 0 4 = l.length := by
    rw [putHead, rd_putBlocks_before (by decide) l 0 _ (by omega), Block.rd_wr (by decide)]
    exact Nat.mod_eq_of_lt (by norm_num; omega)
  rw [headList, hn, toInt32_of_lt (by omega), Int.toNat_natCast]
  refine List.ext_getElem (by simp) fun j h1 h2 => ?_
  have := rd_putBlocks l 0 (b.wr 0 4 l.length) (by unfold BSIZE; omega) hlt j h2
  simpa [putHead] using this

theorem headList_of_zero {b : Block} (h : b.rd 0 4 = 0) : headList b = [] := by simp [headList, toInt32, h]

theorem putHead_nil (b : Block) : (putHead b []).rd 0 4 = 0 := Block.rd_wr (by decide)

/-! ### The machine -/

/-- Where the process that commits, or recovers, is. -/
inductive Phase
  | run                    -- no `commit` is running
  | writeLog (tail : ℕ)    -- `commit`: the loop of `write_log`
  | writeHead              -- `commit`: the first `write_head`
  | install (tail : ℕ)     -- `commit`: the loop of `install_trans(0)`
  | eraseHead              -- `commit`: `log.lh.n = 0; write_head()`
  | finish                 -- `end_op`, after `commit()`
  | recRead                -- `recover_from_log`: `read_head`
  | recInstall (tail : ℕ)  -- `recover_from_log`: the loop of `install_trans(1)`
  | recHead                -- `recover_from_log`: `log.lh.n = 0; write_head()`
  deriving DecidableEq

def Phase.recovering : Phase → Bool
  | .recRead => true
  | .recInstall _ => true
  | .recHead => true
  | _ => false

/-- `commit` is running. -/
def Phase.commits : Phase → Bool
  | .run => false
  | p => !p.recovering

/-- Where a process is, as far as the log is concerned. -/
inductive OpState
  | out      -- not in an operation
  | asleep   -- in `begin_op`, sleeping on `&log`
  | woken    -- in `begin_op`, to test again
  | inOp     -- between `begin_op` and `end_op`
  | commits  -- in the `commit()` of its `end_op`
  deriving DecidableEq

/-- The disk, the cache with its pins, `struct log` and the processes. -/
structure Sys where
  disk : ℕ → Block
  cache : ℕ → Option Block
  pin : ℕ → ℕ
  lh : List ℕ
  outstanding : ℤ
  committing : Bool
  phase : Phase
  op : ℕ → OpState

inductive Ev
  | began (p : ℕ)
  | logged (p b : ℕ) (v : Block)
  | ended (p : ℕ)
  | wroteLog (b : ℕ)  -- `write_log` writes block `b`
  | committed         -- the first `write_head` of `commit` reached the disk
  | crashed

namespace Sys

/-- The data of the buffer `bread` returns. -/
def bread (s : Sys) (b : ℕ) : Block := (s.cache b).getD (s.disk b)

/-- `bread` leaves the block cached. -/
def fill (s : Sys) (b : ℕ) : Sys := { s with cache := Function.update s.cache b (some (s.bread b)) }

/-- The buffer of `b` gets the contents `v` and is written to the disk. -/
def bwrite (s : Sys) (b : ℕ) (v : Block) : Sys :=
  { s with disk := Function.update s.disk b v, cache := Function.update s.cache b (some v) }

/-- `wakeup(&log)`. -/
def wakeup (s : Sys) : Sys :=
  { s with op := fun p => if s.op p = .asleep then .woken else s.op p }

def setOp (s : Sys) (p : ℕ) (o : OpState) : Sys := { s with op := Function.update s.op p o }

end Sys

variable (A : Area)

/-- The body of the loop of `write_log`: log block `tail` gets the cached
contents of `lh.block[tail] = b`. -/
def writeLogBody (s : Sys) (tail b : ℕ) : Sys :=
  let v := s.bread b
  (s.fill b).bwrite (A.start + tail + 1) v

/-- The body of the loop of `install_trans`: block `lh.block[tail] = b` gets
the contents of log block `tail`. -/
def installBody (recovering : Bool) (s : Sys) (tail b : ℕ) : Sys :=
  let v := s.bread (A.start + tail + 1)
  let s1 := (s.fill (A.start + tail + 1)).bwrite b v
  if recovering then s1 else { s1 with pin := Function.update s1.pin b (s1.pin b - 1) }

def readHead (s : Sys) : Sys := { s.fill A.start with lh := headList (s.bread A.start) }

def writeHead (s : Sys) : Sys := s.bwrite A.start (putHead (s.bread A.start) s.lh)

/-- The next step of `commit` or of `recover_from_log`. -/
def tick (s : Sys) : Except Stop (Sys × List Ev) :=
  match s.phase with
  | .run => .error .blocked
  | .writeLog tail =>
    match s.lh[tail]? with
    | some b => .ok ({ writeLogBody A s tail b with phase := .writeLog (tail + 1) },
        [.wroteLog (A.start + tail + 1)])
    | none => .ok ({ s with phase := .writeHead }, [])
  | .writeHead => .ok ({ writeHead A s with phase := .install 0 }, [.committed])
  | .install tail =>
    match s.lh[tail]? with
    | some b => .ok ({ installBody A false s tail b with phase := .install (tail + 1) }, [])
    | none => .ok ({ s with phase := .eraseHead }, [])
  | .eraseHead => .ok ({ writeHead A { s with lh := [] } with phase := .finish }, [])
  | .finish =>
    let s1 := { s with committing := false }.wakeup
    .ok ({ s1 with phase := .run, op := fun p => if s1.op p = .commits then .out else s1.op p }, [])
  | .recRead => .ok ({ readHead A s with phase := .recInstall 0 }, [])
  | .recInstall tail =>
    match s.lh[tail]? with
    | some b => .ok ({ installBody A true s tail b with phase := .recInstall (tail + 1) }, [])
    | none => .ok ({ s with phase := .recHead }, [])
  | .recHead => .ok ({ writeHead A { s with lh := [] } with phase := .run }, [])

/-- One round of the loop of `begin_op`. -/
def beginOp (s : Sys) (p : ℕ) : Except Stop (Sys × List Ev) :=
  if s.phase.recovering = true ∨ (s.op p ≠ .out ∧ s.op p ≠ .woken) then .error .blocked
  else if s.committing = true then .ok (s.setOp p .asleep, [])
  else if (s.lh.length : ℤ) + (s.outstanding + 1) * MAXOPBLOCKS > LOGSIZE then .ok (s.setOp p .asleep, [])
  else .ok ({ s with outstanding := s.outstanding + 1 }.setOp p .inOp, [.began p])

/-- A process in an operation changes the cached block `b` to `v` and calls
`log_write`. -/
def logWrite (s : Sys) (p b : ℕ) (v : Block) : Except Stop (Sys × List Ev) :=
  if s.op p ≠ .inOp ∨ ¬ A.Home b then .error .blocked
  else if s.lh.length ≥ LOGSIZE ∨ (s.lh.length : ℤ) ≥ (A.size : ℤ) - 1 then
    .error (.panic "too big a transaction")
  else if s.outstanding < 1 then .error (.panic "log_write outside of trans")
  else
    let s1 := { s with cache := Function.update s.cache b (some v) }
    -- log absorption: a block that is in the log already is not added again
    if b ∈ s.lh then .ok (s1, [.logged p b v])
    else .ok ({ s1 with lh := s.lh ++ [b], pin := Function.update s.pin b (s.pin b + 1) }, [.logged p b v])

/-- `end_op`, up to `commit()` if it is called. -/
def endOp (s : Sys) (p : ℕ) : Except Stop (Sys × List Ev) :=
  if s.op p ≠ .inOp then .error .blocked
  else
    let s1 := { s with outstanding := s.outstanding - 1 }
    if s.committing = true then .error (.panic "log.committing")
    else if s.outstanding - 1 = 0 then
      .ok ({ s1 with committing := true, phase := if s1.lh = [] then .finish else .writeLog 0 }.setOp p .commits,
        [.ended p])
    else .ok (s1.wakeup.setOp p .out, [.ended p])

/-- A buffer that is not pinned is recycled. -/
def evict (s : Sys) (b : ℕ) : Except Stop (Sys × List Ev) :=
  if s.pin b = 0 then .ok ({ s with cache := Function.update s.cache b none }, []) else .error .blocked

/-- The memory after a reboot, before `recover_from_log`. -/
def boot (disk : ℕ → Block) : Sys :=
  { disk := disk, cache := fun _ => none, pin := fun _ => 0, lh := [], outstanding := 0,
    committing := false, phase := .recRead, op := fun _ => .out }

inductive Act
  | beginOp (p : ℕ)
  | logWrite (p b : ℕ) (v : Block)
  | endOp (p : ℕ)
  | tick
  | evict (b : ℕ)
  | crash

def step (s : Sys) : Act → Except Stop (Sys × List Ev)
  | .beginOp p => beginOp s p
  | .logWrite p b v => logWrite A s p b v
  | .endOp p => endOp s p
  | .tick => tick A s
  | .evict b => evict s b
  | .crash => .ok (boot s.disk, [.crashed])

/-! ### What a step can do -/

section Cases

variable {A} {s s' : Sys} {tr : List Ev} {p b : ℕ} {v : Block}

theorem beginOp_cases (h : beginOp s p = .ok (s', tr)) :
    s.phase.recovering = false ∧ s.op p ≠ .inOp ∧
      ((s' = s.setOp p .asleep ∧ tr = []) ∨
        (s.committing = false ∧ (s.lh.length : ℤ) + (s.outstanding + 1) * MAXOPBLOCKS ≤ LOGSIZE ∧
          s' = { s with outstanding := s.outstanding + 1 }.setOp p .inOp ∧ tr = [.began p])) := by
  unfold beginOp at h
  split at h
  · simp at h
  · rename_i hg
    simp only [not_or, not_and, not_not, Bool.not_eq_true] at hg
    have hout : s.op p ≠ .inOp := by
      intro ho
      have := hg.2 (by rw [ho]; simp)
      rw [ho] at this
      simp at this
    refine ⟨hg.1, hout, ?_⟩
    split at h
    · obtain ⟨rfl, rfl⟩ := Prod.mk.inj (Except.ok.inj h)
      exact Or.inl ⟨rfl, rfl⟩
    · rename_i hc
      split at h
      · obtain ⟨rfl, rfl⟩ := Prod.mk.inj (Except.ok.inj h)
        exact Or.inl ⟨rfl, rfl⟩
      · rename_i hroom
        obtain ⟨rfl, rfl⟩ := Prod.mk.inj (Except.ok.inj h)
        exact Or.inr ⟨by simpa using hc, not_lt.mp hroom, rfl, rfl⟩

theorem logWrite_cases (h : logWrite A s p b v = .ok (s', tr)) :
    s.op p = .inOp ∧ A.Home b ∧ s.lh.length < LOGSIZE ∧ s.lh.length + 1 < A.size ∧ tr = [.logged p b v] ∧
      ((b ∈ s.lh ∧ s' = { s with cache := Function.update s.cache b (some v) }) ∨
        (b ∉ s.lh ∧ s' = { s with
          cache := Function.update s.cache b (some v)
          lh := s.lh ++ [b]
          pin := Function.update s.pin b (s.pin b + 1) })) := by
  unfold logWrite at h
  split at h
  · simp at h
  · rename_i hg
    simp only [not_or, not_not] at hg
    split at h
    · simp at h
    · rename_i hsz
      simp only [not_or, not_le, ge_iff_le] at hsz
      split at h
      · simp at h
      · split at h
        · rename_i hm
          obtain ⟨rfl, rfl⟩ := Prod.mk.inj (Except.ok.inj h)
          exact ⟨hg.1, hg.2, hsz.1, by omega, rfl, Or.inl ⟨hm, rfl⟩⟩
        · rename_i hm
          obtain ⟨rfl, rfl⟩ := Prod.mk.inj (Except.ok.inj h)
          exact ⟨hg.1, hg.2, hsz.1, by omega, rfl, Or.inr ⟨hm, rfl⟩⟩

theorem endOp_cases (h : endOp s p = .ok (s', tr)) :
    s.op p = .inOp ∧ s.committing = false ∧ tr = [.ended p] ∧
      ((s.outstanding - 1 = 0 ∧ s' = { s with
          outstanding := s.outstanding - 1
          committing := true
          phase := if s.lh = [] then .finish else .writeLog 0
          op := Function.update s.op p .commits }) ∨
        (s.outstanding - 1 ≠ 0 ∧
          s' = { s with outstanding := s.outstanding - 1 }.wakeup.setOp p .out)) := by
  unfold endOp at h
  split at h
  · simp at h
  · rename_i hop
    simp only at h
    split at h
    · simp at h
    · rename_i hc
      split at h <;> rename_i h0 <;> obtain ⟨rfl, rfl⟩ := Prod.mk.inj (Except.ok.inj h)
      · exact ⟨not_not.mp hop, by simpa using hc, rfl, Or.inl ⟨h0, rfl⟩⟩
      · exact ⟨not_not.mp hop, by simpa using hc, rfl, Or.inr ⟨h0, rfl⟩⟩

theorem evict_cases (h : evict s b = .ok (s', tr)) :
    s.pin b = 0 ∧ s' = { s with cache := Function.update s.cache b none } ∧ tr = [] := by
  unfold evict at h
  split at h
  · rename_i hb
    obtain ⟨rfl, rfl⟩ := Prod.mk.inj (Except.ok.inj h)
    exact ⟨hb, rfl, rfl⟩
  · simp at h

/-- `commit` and `recover_from_log` do not touch the operations, a commit logs
nothing, and a recovery ends with an empty header. -/
theorem tick_frame (h : tick A s = .ok (s', tr)) :
    (∀ p, s'.op p = .inOp ↔ s.op p = .inOp) ∧ s'.outstanding = s.outstanding ∧
      (s.phase.recovering = false → s'.phase.recovering = false ∧ (s'.lh = s.lh ∨ s'.lh = [])) ∧
      (s.phase.recovering = true → s'.phase.recovering = true ∨ s'.lh = []) ∧
      (∀ b, .wroteLog b ∈ tr → ∃ tail < s.lh.length, b = A.start + tail + 1) := by
  unfold tick at h
  split at h
  · simp at h
  · rename_i tail hp
    split at h <;> rename_i hb <;> obtain ⟨rfl, rfl⟩ := Prod.mk.inj (Except.ok.inj h) <;> rw [hp]
    · refine ⟨fun _ => Iff.rfl, rfl, fun _ => ⟨rfl, Or.inl rfl⟩, fun hr => by simp [Phase.recovering] at hr,
        fun b hb' => ⟨tail, (List.getElem?_eq_some_iff.mp hb).1, ?_⟩⟩
      simpa using hb'
    · exact ⟨fun _ => Iff.rfl, rfl, fun _ => ⟨rfl, Or.inl rfl⟩, fun hr => by simp [Phase.recovering] at hr,
        by simp⟩
  · rename_i hp
    obtain ⟨rfl, rfl⟩ := Prod.mk.inj (Except.ok.inj h)
    rw [hp]
    exact ⟨fun _ => Iff.rfl, rfl, fun _ => ⟨rfl, Or.inl rfl⟩, fun hr => by simp [Phase.recovering] at hr, by simp⟩
  · rename_i tail hp
    split at h <;> rename_i hb <;> obtain ⟨rfl, rfl⟩ := Prod.mk.inj (Except.ok.inj h) <;> rw [hp]
    all_goals
      exact ⟨fun _ => Iff.rfl, rfl, fun _ => ⟨rfl, Or.inl rfl⟩, fun hr => by simp [Phase.recovering] at hr,
        by simp⟩
  · rename_i hp
    obtain ⟨rfl, rfl⟩ := Prod.mk.inj (Except.ok.inj h)
    rw [hp]
    exact ⟨fun _ => Iff.rfl, rfl, fun _ => ⟨rfl, Or.inr rfl⟩, fun hr => by simp [Phase.recovering] at hr, by simp⟩
  · rename_i hp
    obtain ⟨rfl, rfl⟩ := Prod.mk.inj (Except.ok.inj h)
    rw [hp]
    refine ⟨fun p => ?_, rfl, fun _ => ⟨rfl, Or.inl rfl⟩, fun hr => by simp [Phase.recovering] at hr, by simp⟩
    simp only [Sys.wakeup]
    split_ifs <;> simp_all
  · rename_i hp
    obtain ⟨rfl, rfl⟩ := Prod.mk.inj (Except.ok.inj h)
    rw [hp]
    exact ⟨fun _ => Iff.rfl, rfl, fun hr => by simp [Phase.recovering] at hr, fun _ => Or.inl rfl, by simp⟩
  · rename_i tail hp
    split at h <;> rename_i hb <;> obtain ⟨rfl, rfl⟩ := Prod.mk.inj (Except.ok.inj h) <;> rw [hp]
    all_goals
      exact ⟨fun _ => Iff.rfl, rfl, fun hr => by simp [Phase.recovering] at hr, fun _ => Or.inl rfl, by simp⟩
  · rename_i hp
    obtain ⟨rfl, rfl⟩ := Prod.mk.inj (Except.ok.inj h)
    rw [hp]
    exact ⟨fun _ => Iff.rfl, rfl, fun hr => by simp [Phase.recovering] at hr, fun _ => Or.inr rfl, by simp⟩

end Cases

/-! ### What the log is for

A disk on which a group of block writes happens at once, at the commit. -/

structure Spec where
  disk : ℕ → Block
  pending : List (ℕ × Block)

def Spec.next (a : Spec) : Ev → Spec
  | .logged _ b v => { a with pending := a.pending ++ [(b, v)] }
  | .committed => ⟨redo a.pending a.disk, []⟩
  | .crashed => { a with pending := [] }
  | _ => a

/-- The groups committed in `tr` have happened, the writes since are pending. -/
def spec (d : ℕ → Block) (tr : List Ev) : Spec := tr.foldl Spec.next ⟨d, []⟩

theorem spec_append (d : ℕ → Block) (tr tr' : List Ev) :
    spec d (tr ++ tr') = tr'.foldl Spec.next (spec d tr) := by
  rw [spec, List.foldl_append]; rfl

end Log
end Xv6
