/-
# The log is crash-safe

In every state of a run the disk alone determines the committed groups:
`Durable` says that the header block on the disk lists blocks whose contents
are in the log area, and that every other block outside the log area is as
the committed groups left it. A block write of `write_log` touches a log
block while the header on the disk is empty, the first `write_head` turns the
whole group on at once, and a block write of `install_trans`, in `commit` or
in `recover_from_log`, copies what the log area holds (`Covered.install`), so
a crash between any two of them, any number of times, loses nothing.

* `crash_atomicity`: after a crash in any state of any run,
  `recover_from_log` leaves every block outside the log area as the groups
  whose commit header reached the disk left it, and an empty header.

Key definitions: `Durable`, `Inv`.
-/
import Xv6.Log
import Mathlib.Data.Finset.Card

namespace Xv6
namespace Log

open TraceSys Redo

variable {A : Area} {s s' : Sys} {d0 : ℕ → Block} {tr tr' : List Ev}

/-! ### Reading and writing through the cache -/

theorem bread_fill (s : Sys) (b x : ℕ) : (s.fill b).bread x = s.bread x := by
  by_cases h : x = b
  · subst h; simp [Sys.fill, Sys.bread]
  · simp [Sys.fill, Sys.bread, h]

theorem bread_bwrite (s : Sys) (b x : ℕ) (v : Block) :
    (s.bwrite b v).bread x = if x = b then v else s.bread x := by
  by_cases h : x = b
  · subst h; simp [Sys.bwrite, Sys.bread]
  · simp [Sys.bwrite, Sys.bread, h]

/-- A buffer that is not pinned holds what the disk holds. -/
def Clean (s : Sys) : Prop := ∀ b, s.pin b = 0 → ∀ v, s.cache b = some v → v = s.disk b

theorem Clean.bread (h : Clean s) {b : ℕ} (hb : s.pin b = 0) : s.bread b = s.disk b := by
  unfold Sys.bread
  cases hc : s.cache b with
  | none => rfl
  | some v => exact h b hb v hc

theorem Clean.fill (h : Clean s) (b : ℕ) : Clean (s.fill b) := by
  intro x hx v hv
  by_cases hxb : x = b
  · subst hxb
    simp only [Sys.fill, Function.update_self, Option.some.injEq] at hv
    rw [← hv]
    exact h.bread hx
  · simp only [Sys.fill, Function.update_of_ne hxb] at hv
    exact h x hx v hv

theorem Clean.bwrite (h : Clean s) (b : ℕ) (w : Block) : Clean (s.bwrite b w) := by
  intro x hx v hv
  by_cases hxb : x = b
  · subst hxb
    simp only [Sys.bwrite, Function.update_self, Option.some.injEq] at hv ⊢
    exact hv.symm
  · simp only [Sys.bwrite, Function.update_of_ne hxb] at hv ⊢
    exact h x hx v hv

/-! ### The disk between two writes -/

/-- The disk holds the committed state `D`, part of it in the log area. -/
structure Durable (A : Area) (disk D : ℕ → Block) : Prop where
  le : (headList (disk A.start)).length ≤ LOGSIZE
  lt : (headList (disk A.start)).length < A.size
  home : ∀ b ∈ headList (disk A.start), A.Home b
  covered : Covered (fun b => ¬ A.Mem b) (headList (disk A.start)) (fun i => disk (A.start + i + 1)) disk D

theorem Area.mem_start (A : Area) : A.Mem A.start := ⟨le_rfl, Nat.lt_add_of_pos_right A.pos⟩

theorem Area.mem_slot {i : ℕ} (h : i + 1 < A.size) : A.Mem (A.start + i + 1) := ⟨by omega, by omega⟩

theorem Durable.of_head {disk D : ℕ → Block} {l : List ℕ} (hd : headList (disk A.start) = l)
    (hle : l.length ≤ LOGSIZE) (hlt : l.length < A.size) (hl : ∀ x ∈ l, A.Home x)
    (hc : Covered (fun b => ¬ A.Mem b) l (fun i => disk (A.start + i + 1)) disk D) : Durable A disk D := by
  subst hd
  exact ⟨hle, hlt, hl, hc⟩

/-- `write_log` writes a log block while the header on the disk is empty. -/
theorem Durable.slot {disk D : ℕ → Block} (h : Durable A disk D) (h0 : headList (disk A.start) = [])
    {i : ℕ} (hi : i + 1 < A.size) (v : Block) : Durable A (Function.update disk (A.start + i + 1) v) D := by
  have hs : Function.update disk (A.start + i + 1) v A.start = disk A.start :=
    Function.update_of_ne (by omega) _ _
  have hc := h.covered
  rw [h0] at hc
  refine .of_head (l := []) (by rw [hs, h0]) (Nat.zero_le _) A.pos (by simp) ?_
  refine hc.congr (fun j hj => absurd hj (Nat.not_lt_zero _)) fun b hb => Function.update_of_ne ?_ _ _
  rintro rfl
  exact hb (Area.mem_slot hi)

/-- `install_trans` copies a log block to its home. -/
theorem Durable.install {disk D : ℕ → Block} (h : Durable A disk D) {i b : ℕ}
    (hb : (headList (disk A.start))[i]? = some b) :
    Durable A (Function.update disk b (disk (A.start + i + 1))) D := by
  obtain ⟨hle, hlt, hl, hc⟩ := h
  generalize hd : headList (disk A.start) = l at *
  obtain ⟨hi, rfl⟩ := List.getElem?_eq_some_iff.mp hb
  have hne : ∀ x, A.Mem x → x ≠ l[i] := fun x hx he => (hl _ (List.getElem_mem hi)).1 (he ▸ hx)
  refine .of_head (by rw [Function.update_of_ne (hne _ A.mem_start), hd]) hle hlt hl ?_
  refine (hc.install hi).congr (fun j hj => ?_) fun _ _ => rfl
  exact Function.update_of_ne (hne _ (Area.mem_slot (by omega))) _ _

/-- A `write_head` leaves the disk durable if the log it turns on, with the
keys `l`, covers the new committed state. -/
theorem Durable.head {disk D : ℕ → Block} {l : List ℕ} (b : Block) (hle : l.length ≤ LOGSIZE)
    (hlt : l.length < A.size) (hl : ∀ x ∈ l, A.Home x)
    (hc : Covered (fun b => ¬ A.Mem b) l (fun i => disk (A.start + i + 1)) disk D) :
    Durable A (Function.update disk A.start (putHead b l)) D := by
  refine .of_head ?_ hle hlt hl ?_
  · rw [Function.update_self, headList_putHead b hle fun x hx => (hl x hx).2]
  · refine hc.congr (fun i _ => Function.update_of_ne (by omega) _ _) fun x hx => Function.update_of_ne ?_ _ _
    rintro rfl
    exact hx A.mem_start

/-! ### The invariant -/

/-- No commit has reached the disk: the header is empty, and the in-memory
header lists the blocks logged since the last commit, which are pinned. (This
and the predicates below read the disk, the header and the pins only, so a
state that differs elsewhere satisfies them by definition.) -/
structure Pre (A : Area) (disk : ℕ → Block) (lh : List ℕ) (pin : ℕ → ℕ) (a : Spec) : Prop where
  zero : (disk A.start).rd 0 4 = 0
  nodup : lh.Nodup
  pending : ∀ b, b ∈ lh ↔ b ∈ a.pending.map Prod.fst
  pinned : ∀ b ∈ lh, 0 < pin b

theorem Pre.empty {disk : ℕ → Block} {lh : List ℕ} {pin : ℕ → ℕ} {a : Spec} (h : Pre A disk lh pin a) :
    headList (disk A.start) = [] := headList_of_zero h.zero

/-- The first `tail` log blocks hold the new contents. -/
def LogWritten (A : Area) (disk : ℕ → Block) (lh : List ℕ) (a : Spec) (tail : ℕ) : Prop :=
  ∀ i (h : i < lh.length), i < tail → disk (A.start + i + 1) = redo a.pending a.disk lh[i]

/-- The group is committed: the header on the disk is the one in memory, and
the first `tail` blocks have been installed. -/
structure Post (A : Area) (disk : ℕ → Block) (lh : List ℕ) (a : Spec) (tail : ℕ) : Prop where
  none : a.pending = []
  head : headList (disk A.start) = lh
  done : ∀ i (h : i < lh.length), i < tail → disk lh[i] = a.disk lh[i]

/-- What holds at each place of `commit` and of `recover_from_log`. -/
def PhaseInv (A : Area) (disk : ℕ → Block) (lh : List ℕ) (pin : ℕ → ℕ) (a : Spec) : Phase → Prop
  | .run => Pre A disk lh pin a
  | .writeLog tail => Pre A disk lh pin a ∧ LogWritten A disk lh a tail
  | .writeHead => Pre A disk lh pin a ∧ LogWritten A disk lh a lh.length
  | .install tail => Post A disk lh a tail
  | .eraseHead => Post A disk lh a lh.length
  | .finish => Pre A disk lh pin a ∧ lh = []
  | .recRead => a.pending = [] ∧ lh = []
  | .recInstall tail => Post A disk lh a tail
  | .recHead => Post A disk lh a lh.length

/-- The invariant of the log: `a` is what the groups and the pending writes come to. -/
structure Inv (A : Area) (a : Spec) (s : Sys) : Prop where
  durable : Durable A s.disk a.disk
  clean : Clean s
  logFree : ∀ b, A.Mem b → s.pin b = 0
  recFree : s.phase.recovering = true → ∀ b, s.pin b = 0
  le : s.lh.length ≤ LOGSIZE
  lt : s.lh.length < A.size
  home : ∀ b ∈ s.lh, A.Home b
  view : s.phase.recovering = false → ∀ b, ¬ A.Mem b → s.bread b = redo a.pending a.disk b
  ops : ∃ S : Finset ℕ, (∀ p, p ∈ S ↔ s.op p = .inOp) ∧ s.outstanding = S.card
  quiet : s.phase ≠ .run → ∀ p, s.op p ≠ .inOp
  comm : s.committing = s.phase.commits
  phase : PhaseInv A s.disk s.lh s.pin a s.phase

theorem Inv.bread_log {a : Spec} (h : Inv A a s) {b : ℕ} (hb : A.Mem b) : s.bread b = s.disk b :=
  h.clean.bread (h.logFree b hb)

variable {a : Spec}

/-! ### `commit` -/

theorem inv_writeLog {tail b : ℕ} (h : Inv A a s) (hp : s.phase = .writeLog tail)
    (hb : s.lh[tail]? = some b) : Inv A a { writeLogBody A s tail b with phase := .writeLog (tail + 1) } := by
  have hph := h.phase
  simp only [PhaseInv, hp] at hph
  obtain ⟨hpre, hw⟩ := hph
  obtain ⟨hi, rfl⟩ := List.getElem?_eq_some_iff.mp hb
  have hsz := h.lt
  have hview := h.view (by rw [hp]; rfl)
  have hslot : A.Mem (A.start + tail + 1) := Area.mem_slot (by omega)
  refine ⟨h.durable.slot hpre.empty (by omega) _, (h.clean.fill _).bwrite _ _, h.logFree,
    fun hr => absurd hr (by simp [Phase.recovering]), h.le, h.lt, h.home, fun _ x hx => ?_, h.ops,
    fun _ => h.quiet (by rw [hp]; simp), h.comm.trans (by rw [hp]; rfl), ⟨⟨?_, hpre.nodup, hpre.pending, hpre.pinned⟩, fun i hil hit => ?_⟩⟩
  · have hne : x ≠ A.start + tail + 1 := fun he => hx (he ▸ hslot)
    exact (bread_bwrite _ _ _ _).trans ((if_neg hne).trans ((bread_fill _ _ _).trans (hview x hx)))
  · exact (congrArg (Block.rd · 0 4) (Function.update_of_ne (by omega) _ _)).trans hpre.zero
  · -- the slot written last holds what the cache holds of its block
    rcases Nat.lt_succ_iff_lt_or_eq.mp hit with hlt | rfl
    · exact (Function.update_of_ne (by omega) _ _).trans (hw i hil hlt)
    · refine (Function.update_self _ _ _).trans (hview _ ?_)
      exact (h.home _ (List.getElem_mem hil)).1

/-- The first `write_head` of `commit` makes the pending writes happen. -/
theorem inv_writeHead (h : Inv A a s) (hp : s.phase = .writeHead) :
    Inv A ⟨redo a.pending a.disk, []⟩ { writeHead A s with phase := .install 0 } := by
  have hph := h.phase
  simp only [PhaseInv, hp] at hph
  obtain ⟨hpre, hw⟩ := hph
  have hview := h.view (by rw [hp]; rfl)
  have hcov := h.durable.covered
  rw [hpre.empty] at hcov
  -- the log blocks hold the new contents, and a block that is not logged does not change
  have hcov' : Covered (fun b => ¬ A.Mem b) s.lh (fun i => s.disk (A.start + i + 1)) s.disk
      (redo a.pending a.disk) := by
    refine ⟨fun i hi => hw i hi hi, fun b hb hm => ?_⟩
    rw [hcov.home b hb (by simp), redo_of_notMem fun hm' => hm ((hpre.pending b).mpr hm')]
  refine ⟨.head _ h.le h.lt h.home hcov', h.clean.bwrite _ _, h.logFree,
    fun hr => absurd hr (by simp [Phase.recovering]), h.le, h.lt, h.home, fun _ x hx => ?_, h.ops,
    fun _ => h.quiet (by rw [hp]; simp), h.comm.trans (by rw [hp]; rfl), ⟨rfl, ?_, fun _ _ hi => absurd hi (Nat.not_lt_zero _)⟩⟩
  · have hne : x ≠ A.start := fun he => hx (he ▸ A.mem_start)
    exact (bread_bwrite _ _ _ _).trans ((if_neg hne).trans (hview x hx))
  · exact (congrArg headList (Function.update_self _ _ _)).trans
      (headList_putHead _ h.le fun x hx => (h.home x hx).2)

/-- What one block write of `install_trans` does to the disk. -/
theorem Inv.install {tail b : ℕ} (h : Inv A a s) (hpost : Post A s.disk s.lh a tail) (hb : s.lh[tail]? = some b) :
    s.bread (A.start + tail + 1) = a.disk b ∧
      Durable A (Function.update s.disk b (s.bread (A.start + tail + 1))) a.disk ∧
      headList (Function.update s.disk b (s.bread (A.start + tail + 1)) A.start) = s.lh ∧
      ∀ i (_ : i < s.lh.length), i < tail + 1 →
        Function.update s.disk b (s.bread (A.start + tail + 1)) s.lh[i] = a.disk s.lh[i] := by
  obtain ⟨hi, rfl⟩ := List.getElem?_eq_some_iff.mp hb
  have hsz := h.lt
  have hslot : A.Mem (A.start + tail + 1) := Area.mem_slot (by omega)
  have hcov := h.durable.covered
  rw [hpost.head] at hcov
  have hv : s.bread (A.start + tail + 1) = a.disk s.lh[tail] :=
    (h.bread_log hslot).trans (hcov.slot tail hi)
  have hdur := h.durable.install (i := tail) (b := s.lh[tail]) (by rw [hpost.head]; exact hb)
  have hne : A.start ≠ s.lh[tail] := fun he => (h.home _ (List.getElem_mem hi)).1 (he ▸ A.mem_start)
  rw [h.bread_log hslot] at hv ⊢
  refine ⟨hv, hdur, ?_, fun i hil hit => ?_⟩
  · rw [Function.update_of_ne hne, hpost.head]
  · by_cases he : s.lh[i] = s.lh[tail]
    · rw [he, Function.update_self, hv]
    · rw [Function.update_of_ne he]
      refine hpost.done i hil (lt_of_le_of_ne (Nat.lt_succ_iff.mp hit) ?_)
      rintro rfl
      exact he rfl

theorem Clean.setPin (h : Clean s) {b : ℕ} (hb : ∀ v, s.cache b = some v → v = s.disk b) (n : ℕ) :
    Clean { s with pin := Function.update s.pin b n } := by
  intro x hx v hv
  by_cases hxb : x = b
  · subst hxb; exact hb v hv
  · simp only [Function.update_of_ne hxb] at hx
    exact h x hx v hv

theorem inv_install {tail b : ℕ} (h : Inv A a s) (hp : s.phase = .install tail) (hb : s.lh[tail]? = some b) :
    Inv A a { installBody A false s tail b with phase := .install (tail + 1) } := by
  have hpost : Post A s.disk s.lh a tail := by simpa only [PhaseInv, hp] using h.phase
  obtain ⟨hv, hdur, hhead, hdone⟩ := h.install hpost hb
  have hview := h.view (by rw [hp]; rfl)
  have hbm : ¬ A.Mem b := (h.home b (List.mem_of_getElem? hb)).1
  refine ⟨hdur, ?_, fun x hx => ?_, fun hr => absurd hr (by simp [Phase.recovering]), h.le, h.lt, h.home,
    fun _ x hx => ?_, h.ops, fun _ => h.quiet (by rw [hp]; simp), h.comm.trans (by rw [hp]; rfl),
    ⟨hpost.none, hhead, hdone⟩⟩
  · refine Clean.setPin ((h.clean.fill _).bwrite b _) (fun v hc => ?_) _
    simp only [Sys.bwrite, Function.update_self, Option.some.injEq] at hc ⊢
    exact hc.symm
  · have hne : x ≠ b := fun he => hbm (he ▸ hx)
    exact (Function.update_of_ne hne _ _).trans (h.logFree x hx)
  · refine (bread_bwrite _ _ _ _).trans ?_
    split
    · rename_i he
      rw [he, hpost.none, hv, redo_nil]
    · exact (bread_fill _ _ _).trans (hview x hx)

theorem inv_recInstall {tail b : ℕ} (h : Inv A a s) (hp : s.phase = .recInstall tail)
    (hb : s.lh[tail]? = some b) :
    Inv A a { installBody A true s tail b with phase := .recInstall (tail + 1) } := by
  have hpost : Post A s.disk s.lh a tail := by simpa only [PhaseInv, hp] using h.phase
  obtain ⟨-, hdur, hhead, hdone⟩ := h.install hpost hb
  exact ⟨hdur, (h.clean.fill _).bwrite b _, h.logFree, fun _ => h.recFree (by rw [hp]; rfl), h.le, h.lt,
    h.home, fun hr => absurd hr (by simp [Phase.recovering]), h.ops, fun _ => h.quiet (by rw [hp]; simp),
    h.comm.trans (by rw [hp]; rfl), ⟨hpost.none, hhead, hdone⟩⟩

/-- All of the log has been installed: the disk is the committed state. -/
theorem Inv.home_eq (h : Inv A a s) (hpost : Post A s.disk s.lh a s.lh.length) {b : ℕ} (hb : ¬ A.Mem b) :
    s.disk b = a.disk b := by
  have hcov := h.durable.covered
  rw [hpost.head] at hcov
  exact hcov.eq_of_installed (fun i hi => hpost.done i hi hi) hb

/-- The `write_head` that erases the installed log. -/
theorem Inv.erase (h : Inv A a s) (hpost : Post A s.disk s.lh a s.lh.length) (b : Block) :
    Durable A (Function.update s.disk A.start (putHead b [])) a.disk :=
  .head b (Nat.zero_le _) A.pos (by simp) (covered_nil fun _ hb => h.home_eq hpost hb)

theorem rd_erase (disk : ℕ → Block) (b : Block) :
    (Function.update disk A.start (putHead b []) A.start).rd 0 4 = 0 := by
  rw [Function.update_self, putHead_nil]

theorem inv_eraseHead (h : Inv A a s) (hp : s.phase = .eraseHead) :
    Inv A a { writeHead A { s with lh := [] } with phase := .finish } := by
  have hpost : Post A s.disk s.lh a s.lh.length := by simpa only [PhaseInv, hp] using h.phase
  have hview := h.view (by rw [hp]; rfl)
  refine ⟨h.erase hpost _, h.clean.bwrite _ _, h.logFree, fun hr => absurd hr (by simp [Phase.recovering]),
    Nat.zero_le _, A.pos, by simp [writeHead, Sys.bwrite], fun _ x hx => ?_, h.ops,
    fun _ => h.quiet (by rw [hp]; simp), h.comm.trans (by rw [hp]; rfl),
    ⟨rd_erase _ _, List.nodup_nil, fun b => by simp [writeHead, Sys.bwrite, hpost.none],
      by simp [writeHead, Sys.bwrite]⟩, rfl⟩
  have hne : x ≠ A.start := fun he => hx (he ▸ A.mem_start)
  exact (bread_bwrite _ _ _ _).trans ((if_neg hne).trans (hview x hx))

theorem inv_recHead (h : Inv A a s) (hp : s.phase = .recHead) :
    Inv A a { writeHead A { s with lh := [] } with phase := .run } := by
  have hpost : Post A s.disk s.lh a s.lh.length := by simpa only [PhaseInv, hp] using h.phase
  have hfree := h.recFree (by rw [hp]; rfl)
  refine ⟨h.erase hpost _, h.clean.bwrite _ _, h.logFree, fun hr => absurd hr (by simp [Phase.recovering]),
    Nat.zero_le _, A.pos, by simp [writeHead, Sys.bwrite], fun _ x hx => ?_, h.ops,
    fun hr => absurd rfl hr, h.comm.trans (by rw [hp]; rfl),
    ⟨rd_erase _ _, List.nodup_nil, fun b => by simp [writeHead, Sys.bwrite, hpost.none],
      by simp [writeHead, Sys.bwrite]⟩⟩
  -- nothing is pinned, so the cache agrees with the disk
  have hne : x ≠ A.start := fun he => hx (he ▸ A.mem_start)
  refine (bread_bwrite _ _ _ _).trans ((if_neg hne).trans ((h.clean.bread (hfree x)).trans ?_))
  rw [h.home_eq hpost hx, hpost.none, redo_nil]

theorem inv_recRead (h : Inv A a s) (hp : s.phase = .recRead) :
    Inv A a { readHead A s with phase := .recInstall 0 } := by
  have hph := h.phase
  simp only [PhaseInv, hp] at hph
  have hb : s.bread A.start = s.disk A.start := h.bread_log A.mem_start
  have hl : (readHead A s).lh = headList (s.disk A.start) := by rw [← hb]; rfl
  refine ⟨h.durable, h.clean.fill _, h.logFree, fun _ => h.recFree (by rw [hp]; rfl), ?_, ?_, ?_,
    fun hr => absurd hr (by simp [Phase.recovering]), h.ops, fun _ => h.quiet (by rw [hp]; simp),
    h.comm.trans (by rw [hp]; rfl), ⟨hph.1, hl.symm, fun _ _ hi => absurd hi (Nat.not_lt_zero _)⟩⟩
  · exact hl ▸ h.durable.le
  · exact hl ▸ h.durable.lt
  · exact hl ▸ h.durable.home

theorem inv_finish (h : Inv A a s) (hp : s.phase = .finish) :
    Inv A a { { s with committing := false }.wakeup with
      phase := .run
      op := fun p => if ({ s with committing := false }.wakeup).op p = .commits then .out
        else ({ s with committing := false }.wakeup).op p } := by
  have hph := h.phase
  simp only [PhaseInv, hp] at hph
  have hq := h.quiet (by rw [hp]; simp)
  have hq' : ∀ p, (if ({ s with committing := false }.wakeup).op p = .commits then .out
      else ({ s with committing := false }.wakeup).op p) ≠ OpState.inOp := by
    intro p
    have := hq p
    simp only [Sys.wakeup]
    split_ifs <;> simp_all
  obtain ⟨S, hS, hn⟩ := h.ops
  refine ⟨h.durable, h.clean, h.logFree, fun hr => absurd hr (by simp [Phase.recovering]), h.le, h.lt, h.home,
    fun _ => h.view (by rw [hp]; rfl), ⟨S, fun p => ?_, hn⟩, fun hr => absurd rfl hr, rfl, hph.1⟩
  rw [hS]
  exact ⟨fun hp => absurd hp (hq p), fun hp => absurd hp (hq' p)⟩

/-! ### The loops end -/

theorem lh_end {tail : ℕ} (h : s.lh[tail]? = none) : s.lh.length ≤ tail := List.getElem?_eq_none_iff.mp h

theorem inv_writeLog_end {tail : ℕ} (h : Inv A a s) (hp : s.phase = .writeLog tail) (hb : s.lh[tail]? = none) :
    Inv A a { s with phase := .writeHead } := by
  have hph := h.phase
  simp only [PhaseInv, hp] at hph
  have hle := lh_end hb
  exact ⟨h.durable, h.clean, h.logFree, fun hr => absurd hr (by simp [Phase.recovering]), h.le, h.lt, h.home,
    fun _ => h.view (by rw [hp]; rfl), h.ops, fun _ => h.quiet (by rw [hp]; simp), h.comm.trans (by rw [hp]; rfl),
    ⟨hph.1, fun i hi _ => hph.2 i hi (lt_of_lt_of_le hi hle)⟩⟩

theorem inv_install_end {tail : ℕ} (h : Inv A a s) (hp : s.phase = .install tail) (hb : s.lh[tail]? = none) :
    Inv A a { s with phase := .eraseHead } := by
  have hph : Post A s.disk s.lh a tail := by simpa only [PhaseInv, hp] using h.phase
  have hle := lh_end hb
  exact ⟨h.durable, h.clean, h.logFree, fun hr => absurd hr (by simp [Phase.recovering]), h.le, h.lt, h.home,
    fun _ => h.view (by rw [hp]; rfl), h.ops, fun _ => h.quiet (by rw [hp]; simp), h.comm.trans (by rw [hp]; rfl),
    ⟨hph.none, hph.head, fun i hi _ => hph.done i hi (lt_of_lt_of_le hi hle)⟩⟩

theorem inv_recInstall_end {tail : ℕ} (h : Inv A a s) (hp : s.phase = .recInstall tail)
    (hb : s.lh[tail]? = none) : Inv A a { s with phase := .recHead } := by
  have hph : Post A s.disk s.lh a tail := by simpa only [PhaseInv, hp] using h.phase
  have hle := lh_end hb
  exact ⟨h.durable, h.clean, h.logFree, fun _ => h.recFree (by rw [hp]; rfl), h.le, h.lt, h.home,
    fun hr => absurd hr (by simp [Phase.recovering]), h.ops, fun _ => h.quiet (by rw [hp]; simp),
    h.comm.trans (by rw [hp]; rfl), ⟨hph.none, hph.head, fun i hi _ => hph.done i hi (lt_of_lt_of_le hi hle)⟩⟩

theorem inv_tick (h : Inv A a s) (he : tick A s = .ok (s', tr')) : Inv A (tr'.foldl Spec.next a) s' := by
  unfold tick at he
  split at he
  · simp at he
  · rename_i tail hp
    split at he <;> rename_i hb <;> obtain ⟨rfl, rfl⟩ := Prod.mk.inj (Except.ok.inj he)
    · exact inv_writeLog h hp hb
    · exact inv_writeLog_end h hp hb
  · rename_i hp
    obtain ⟨rfl, rfl⟩ := Prod.mk.inj (Except.ok.inj he)
    exact inv_writeHead h hp
  · rename_i tail hp
    split at he <;> rename_i hb <;> obtain ⟨rfl, rfl⟩ := Prod.mk.inj (Except.ok.inj he)
    · exact inv_install h hp hb
    · exact inv_install_end h hp hb
  · rename_i hp
    obtain ⟨rfl, rfl⟩ := Prod.mk.inj (Except.ok.inj he)
    exact inv_eraseHead h hp
  · rename_i hp
    obtain ⟨rfl, rfl⟩ := Prod.mk.inj (Except.ok.inj he)
    exact inv_finish h hp
  · rename_i hp
    obtain ⟨rfl, rfl⟩ := Prod.mk.inj (Except.ok.inj he)
    exact inv_recRead h hp
  · rename_i tail hp
    split at he <;> rename_i hb <;> obtain ⟨rfl, rfl⟩ := Prod.mk.inj (Except.ok.inj he)
    · exact inv_recInstall h hp hb
    · exact inv_recInstall_end h hp hb
  · rename_i hp
    obtain ⟨rfl, rfl⟩ := Prod.mk.inj (Except.ok.inj he)
    exact inv_recHead h hp

/-! ### The operations -/

theorem Phase.eq_run {p : Phase} (hc : p.commits = false) (hr : p.recovering = false) : p = .run := by
  cases p <;> simp_all [Phase.commits, Phase.recovering]

/-- A process outside an operation stays outside: the log does not change. -/
theorem Inv.setOp (h : Inv A a s) {p : ℕ} {o : OpState} (hp : s.op p ≠ .inOp) (ho : o ≠ .inOp) :
    Inv A a (s.setOp p o) := by
  have hiff : ∀ q, Function.update s.op p o q = .inOp ↔ s.op q = .inOp := by
    intro q
    by_cases hq : q = p
    · subst hq; simp [hp, ho]
    · rw [Function.update_of_ne hq]
  obtain ⟨S, hS, hn⟩ := h.ops
  exact ⟨h.durable, h.clean, h.logFree, h.recFree, h.le, h.lt, h.home, h.view,
    ⟨S, fun q => (hS q).trans (hiff q).symm, hn⟩, fun hr q hq => h.quiet hr q ((hiff q).mp hq), h.comm, h.phase⟩

theorem inv_beginOp {p : ℕ} (h : Inv A a s) (he : beginOp s p = .ok (s', tr')) :
    Inv A (tr'.foldl Spec.next a) s' := by
  obtain ⟨hrec, hout, ⟨rfl, rfl⟩ | ⟨hc, -, rfl, rfl⟩⟩ := beginOp_cases he
  · exact h.setOp hout (by simp)
  · -- not committing and not recovering: no phase is left but `run`
    have hrun : s.phase = .run := Phase.eq_run (by rw [← h.comm, hc]) hrec
    obtain ⟨S, hS, hn⟩ := h.ops
    have hpS : p ∉ S := fun hm => hout ((hS p).mp hm)
    refine ⟨h.durable, h.clean, h.logFree, h.recFree, h.le, h.lt, h.home, h.view,
      ⟨insert p S, fun q => ?_, ?_⟩, fun hr => absurd hrun hr, h.comm, h.phase⟩
    · by_cases hq : q = p
      · subst hq; simp [Sys.setOp]
      · simp [Sys.setOp, hq, hS]
    · rw [Finset.card_insert_of_notMem hpS]
      simp [Sys.setOp, hn]

/-- A process in an operation finds no commit running. -/
theorem Inv.run_of_inOp (h : Inv A a s) {p : ℕ} (hop : s.op p = .inOp) : s.phase = .run := by
  by_contra hr
  exact h.quiet hr p hop

theorem Inv.pre (h : Inv A a s) (hrun : s.phase = .run) : Pre A s.disk s.lh s.pin a := by
  simpa only [PhaseInv, hrun] using h.phase

/-- The changed buffer is the only one that need not agree with the disk, and it is pinned. -/
theorem Clean.write (h : Clean s) {b : ℕ} {v : Block} {pin : ℕ → ℕ} (hpin : 0 < pin b)
    (hsame : ∀ x, x ≠ b → pin x = s.pin x) :
    Clean { s with cache := Function.update s.cache b (some v), pin := pin } := by
  intro x hx w hw
  have hxb : x ≠ b := by rintro rfl; simp only at hx; omega
  simp only [Function.update_of_ne hxb] at hw
  exact h x (hsame x hxb ▸ hx) w hw

/-- The changed buffer holds the pending write. -/
theorem bread_write {b : ℕ} {v : Block} {pin : ℕ → ℕ} {l : List ℕ}
    (h : ∀ x, ¬ A.Mem x → s.bread x = redo a.pending a.disk x) : ∀ x, ¬ A.Mem x →
    Sys.bread { s with cache := Function.update s.cache b (some v), pin := pin, lh := l } x =
      redo (a.pending ++ [(b, v)]) a.disk x := by
  intro x hx
  rw [redo_snoc]
  by_cases hxb : x = b
  · subst hxb; simp [Sys.bread]
  · rw [Function.update_of_ne hxb, ← h x hx]
    simp [Sys.bread, hxb]

theorem inv_logWrite {p b : ℕ} {v : Block} (h : Inv A a s) (he : logWrite A s p b v = .ok (s', tr')) :
    Inv A (tr'.foldl Spec.next a) s' := by
  obtain ⟨hop, hbh, hle, hlt, rfl, hcases⟩ := logWrite_cases he
  have hrun := h.run_of_inOp hop
  have hpre := h.pre hrun
  have hview := h.view (by rw [hrun]; rfl)
  have hpend : ∀ x, x ∈ (a.pending ++ [(b, v)]).map Prod.fst ↔ x ∈ s.lh ∨ x = b := by
    intro x
    rw [hpre.pending x]
    simp
  rcases hcases with ⟨hmem, rfl⟩ | ⟨hmem, rfl⟩
  · refine ⟨h.durable, h.clean.write (hpre.pinned b hmem) fun _ _ => rfl, h.logFree, h.recFree, h.le, h.lt,
      h.home, fun _ => bread_write hview, h.ops, h.quiet, h.comm, ?_⟩
    simp only [PhaseInv, hrun]
    refine ⟨hpre.zero, hpre.nodup, fun x => ?_, hpre.pinned⟩
    refine ⟨fun hx => (hpend x).mpr (Or.inl hx), fun hx => ((hpend x).mp hx).elim id fun hx => hx ▸ hmem⟩
  · refine ⟨h.durable, h.clean.write (by simp) fun x hx => Function.update_of_ne hx _ _, fun x hx => ?_,
      fun hr => absurd hr (by simp [hrun, Phase.recovering]), ?_, ?_, fun x hx => ?_, fun _ => bread_write hview,
      h.ops, h.quiet, h.comm, ?_⟩
    · have hxb : x ≠ b := fun he => hbh.1 (he ▸ hx)
      exact (Function.update_of_ne hxb _ _).trans (h.logFree x hx)
    · simp only [List.length_append, List.length_singleton]; omega
    · simp only [List.length_append, List.length_singleton]; omega
    · rcases List.mem_append.mp hx with hx | hx
      · exact h.home x hx
      · exact List.mem_singleton.mp hx ▸ hbh
    · simp only [PhaseInv, hrun]
      refine ⟨hpre.zero, ?_, fun x => ?_, fun x hx => ?_⟩
      · rw [← List.concat_eq_append]
        exact hpre.nodup.concat hmem
      · rw [List.mem_append, List.mem_singleton]
        exact (hpend x).symm
      · by_cases hxb : x = b
        · subst hxb; simp
        · simp only [Function.update_of_ne hxb]
          refine hpre.pinned x ?_
          simpa [hxb] using hx

theorem inv_endOp {p : ℕ} (h : Inv A a s) (he : endOp s p = .ok (s', tr')) :
    Inv A (tr'.foldl Spec.next a) s' := by
  obtain ⟨hop, -, rfl, hcases⟩ := endOp_cases he
  have hrun := h.run_of_inOp hop
  have hpre := h.pre hrun
  have hview := h.view (by rw [hrun]; rfl)
  obtain ⟨S, hS, hn⟩ := h.ops
  have hpS : p ∈ S := (hS p).mpr hop
  have hcard : s.outstanding - 1 = (S.erase p).card := by
    have hpos : 0 < S.card := Finset.card_pos.mpr ⟨p, hpS⟩
    rw [Finset.card_erase_of_mem hpS, hn]
    omega
  have hmem : ∀ (op : ℕ → OpState) (o : OpState), o ≠ .inOp → (∀ q, op q = .inOp ↔ s.op q = .inOp) →
      ∀ q, q ∈ S.erase p ↔ Function.update op p o q = .inOp := by
    intro op o ho hop' q
    by_cases hq : q = p
    · subst hq; simp [ho]
    · rw [Finset.mem_erase, Function.update_of_ne hq, hS, hop']
      simp [hq]
  rcases hcases with ⟨h0, rfl⟩ | ⟨-, rfl⟩
  · -- the last operation ends: nobody is in an operation any more
    have hcommits := hmem s.op .commits (by simp) fun _ => Iff.rfl
    have hnone : ∀ q, Function.update s.op p .commits q ≠ .inOp := by
      intro q hq
      have he : S.erase p = ∅ := Finset.card_eq_zero.mp (by omega)
      have hq' := (hcommits q).mpr hq
      rw [he] at hq'
      simp at hq'
    by_cases hl : s.lh = []
    · rw [if_pos hl]
      exact ⟨h.durable, h.clean, h.logFree, fun hr => absurd hr (by simp [Phase.recovering]), h.le, h.lt, h.home,
        fun _ => hview, ⟨S.erase p, hcommits, hcard⟩, fun _ => hnone, rfl, ⟨hpre, hl⟩⟩
    · rw [if_neg hl]
      exact ⟨h.durable, h.clean, h.logFree, fun hr => absurd hr (by simp [Phase.recovering]), h.le, h.lt, h.home,
        fun _ => hview, ⟨S.erase p, hcommits, hcard⟩, fun _ => hnone, rfl,
        ⟨hpre, fun _ _ hi => absurd hi (Nat.not_lt_zero _)⟩⟩
  · have hwake : ∀ q, (if s.op q = .asleep then .woken else s.op q) = OpState.inOp ↔ s.op q = .inOp := by
      intro q
      split_ifs with hq
      · simp [hq]
      · rfl
    exact ⟨h.durable, h.clean, h.logFree, h.recFree, h.le, h.lt, h.home, h.view,
      ⟨S.erase p, hmem _ .out (by simp) hwake, hcard⟩, fun hr => absurd hrun hr, h.comm, h.phase⟩

theorem inv_evict {b : ℕ} (h : Inv A a s) (he : evict s b = .ok (s', tr')) : Inv A (tr'.foldl Spec.next a) s' := by
  obtain ⟨hb, rfl, rfl⟩ := evict_cases he
  have hbread : ∀ x, Sys.bread { s with cache := Function.update s.cache b none } x = s.bread x := by
    intro x
    by_cases hx : x = b
    · subst hx
      rw [h.clean.bread hb]
      simp [Sys.bread]
    · simp [Sys.bread, hx]
  refine ⟨h.durable, fun x hx v hv => ?_, h.logFree, h.recFree, h.le, h.lt, h.home,
    fun hr x hx => (hbread x).trans (h.view hr x hx), h.ops, h.quiet, h.comm, h.phase⟩
  by_cases hxb : x = b
  · subst hxb; simp at hv
  · simp only [Function.update_of_ne hxb] at hv
    exact h.clean x hx v hv

/-- Whatever is in memory, the disk is durable: so it is after a reboot. -/
theorem inv_boot {disk : ℕ → Block} (h : Durable A disk a.disk) : Inv A { a with pending := [] } (boot disk) where
  durable := h
  clean := fun _ _ _ hv => by simp [boot] at hv
  logFree := fun _ _ => rfl
  recFree := fun _ _ => rfl
  le := Nat.zero_le _
  lt := A.pos
  home := by simp [boot]
  view := fun hr => by simp [boot, Phase.recovering] at hr
  ops := ⟨∅, by simp [boot], rfl⟩
  quiet := fun _ _ => by simp [boot]
  comm := rfl
  phase := ⟨rfl, rfl⟩

theorem inv_step {c : Act} (h : Inv A a s) (he : step A s c = .ok (s', tr')) :
    Inv A (tr'.foldl Spec.next a) s' := by
  cases c with
  | beginOp p => exact inv_beginOp h he
  | logWrite p b v => exact inv_logWrite h he
  | endOp p => exact inv_endOp h he
  | tick => exact inv_tick h he
  | evict b => exact inv_evict h he
  | crash =>
    obtain ⟨rfl, rfl⟩ := Prod.mk.inj (Except.ok.inj he)
    exact inv_boot h.durable

/-! ### Recovery -/

theorem durable_of_zero {disk : ℕ → Block} (h : (disk A.start).rd 0 4 = 0) : Durable A disk disk :=
  .of_head (l := []) (headList_of_zero h) (Nat.zero_le _) A.pos (by simp) (covered_nil fun _ _ => rfl)

theorem inv_run {c : List Act} (h0 : (d0 A.start).rd 0 4 = 0) (h : run (step A) (boot d0) c = .ok (s, tr)) :
    Inv A (spec d0 tr) s := by
  refine run_inv (I := fun s tr => Inv A (spec d0 tr) s) (inv_boot (a := ⟨d0, []⟩) (durable_of_zero h0)) ?_ h
  intro s tr c s' tr' hI hs
  rw [spec_append]
  exact inv_step hI hs

/-- No commit is running and none has to be redone: the disk is the committed state. -/
theorem Inv.disk_eq (h : Inv A a s) (hp : s.phase = .run) :
    (∀ b, ¬ A.Mem b → s.disk b = a.disk b) ∧ (s.disk A.start).rd 0 4 = 0 := by
  have hpre : Pre A s.disk s.lh s.pin a := by simpa only [PhaseInv, hp] using h.phase
  have hcov := h.durable.covered
  rw [hpre.empty] at hcov
  exact ⟨fun b hb => hcov.home b hb (by simp), hpre.zero⟩

/-- The loop of `install_trans(1)` ends, and the header is erased. -/
theorem recInstall_ends : ∀ (k tail : ℕ) (s : Sys), s.phase = .recInstall tail → s.lh.length = tail + k →
    ∃ s', run (step A) s (List.replicate (k + 2) .tick) = .ok (s', []) ∧ s'.phase = .run
  | 0, tail, s, hp, hl => by
    have hn : s.lh[tail]? = none := List.getElem?_eq_none_iff.mpr (by omega)
    simp [List.replicate, run, step, tick, hp, hn]
  | k + 1, tail, s, hp, hl => by
    have hi : tail < s.lh.length := by omega
    obtain ⟨s', hr, hs'⟩ := recInstall_ends k (tail + 1)
      { installBody A true s tail s.lh[tail] with phase := .recInstall (tail + 1) } rfl
      (by change s.lh.length = _; omega)
    refine ⟨s', run_cons.mpr ⟨_, [], [], ?_, hr, rfl⟩, hs'⟩
    simp [step, tick, hp, List.getElem?_eq_getElem hi]

theorem recover_ends (disk : ℕ → Block) : ∃ s',
    run (step A) (boot disk) (List.replicate ((headList (disk A.start)).length + 3) .tick) = .ok (s', []) ∧
      s'.phase = .run := by
  obtain ⟨s', hr, hs'⟩ := recInstall_ends (A := A) (headList (disk A.start)).length 0
    { readHead A (boot disk) with phase := .recInstall 0 } rfl
    (by rw [Nat.zero_add]; rfl)
  exact ⟨s', run_cons.mpr ⟨_, [], [], rfl, hr, rfl⟩, hs'⟩

/-- **The log is crash-safe.** Take any run from a disk with an empty header:
operations, commits, recycled buffers, crashes, recoveries. After a crash in
the state it reaches, `recover_from_log` run to completion leaves every block
outside the log area as the committed groups left it, and an empty header;
and so is the disk in every state in which no commit or recovery is running. -/
theorem crash_atomicity (A : Area) (d0 : ℕ → Block) (h0 : (d0 A.start).rd 0 4 = 0) (c : List Act) (s : Sys)
    (tr : List Ev) (h : run (step A) (boot d0) c = .ok (s, tr)) :
    (∃ s', run (step A) s (.crash :: List.replicate ((headList (s.disk A.start)).length + 3) .tick) =
        .ok (s', [.crashed]) ∧ s'.phase = .run ∧
      (∀ b, ¬ A.Mem b → s'.disk b = (spec d0 tr).disk b) ∧ (s'.disk A.start).rd 0 4 = 0) ∧
    (s.phase = .run → (∀ b, ¬ A.Mem b → s.disk b = (spec d0 tr).disk b) ∧ (s.disk A.start).rd 0 4 = 0) := by
  have hI := inv_run h0 h
  refine ⟨?_, hI.disk_eq⟩
  obtain ⟨s', hr, hp⟩ := recover_ends (A := A) s.disk
  have hrun : run (step A) s (.crash :: List.replicate ((headList (s.disk A.start)).length + 3) .tick) =
      .ok (s', [.crashed]) := run_cons.mpr ⟨_, [.crashed], [], rfl, hr, rfl⟩
  have hI' : Inv A (spec d0 (tr ++ [.crashed])) s' :=
    inv_run h0 (run_append.mpr ⟨s, tr, [.crashed], h, hrun, rfl⟩)
  have hspec : (spec d0 (tr ++ [.crashed])).disk = (spec d0 tr).disk := by rw [spec_append]; rfl
  obtain ⟨h1, h2⟩ := hI'.disk_eq hp
  exact ⟨s', hrun, hp, fun b hb => hspec ▸ h1 b hb, h2⟩

/-- One operation logs block 100, and its commit gets as far as the header. -/
def commitRun : List Act :=
  [.tick, .tick, .tick, .beginOp 0, .logWrite 0 100 fun _ => 1, .endOp 0, .tick, .tick, .tick]

theorem crash_atomicity_commit : ∃ s tr s',
    run (step mkfsArea) (boot fun _ => .zero) commitRun = .ok (s, tr) ∧ s.disk 100 = .zero ∧
      run (step mkfsArea) s (.crash :: List.replicate ((headList (s.disk 2)).length + 3) .tick) =
        .ok (s', [.crashed]) ∧ s'.disk 100 = fun _ => 1 := by
  obtain ⟨s, tr, h, hs, hspec⟩ : ∃ s tr, run (step mkfsArea) (boot fun _ => .zero) commitRun = .ok (s, tr) ∧
      s.disk 100 = .zero ∧ (spec (fun _ => .zero) tr).disk 100 = fun _ => 1 := ⟨_, _, rfl, rfl, rfl⟩
  obtain ⟨⟨s', hr, -, hb, -⟩, -⟩ := crash_atomicity mkfsArea _ (Block.rd_zero 0 4) commitRun s tr h
  exact ⟨s, tr, s', h, hs, hr, (hb 100 (by decide)).trans hspec⟩

end Log
end Xv6
