/-
# Group commit

Several operations share one commit: the last of them to reach `end_op` runs
it while the others are kept out by `committing`, and those that do not fit
into the log sleep on `&log`. `group_isolation` collects what this comes to:
no operation is open while a commit runs, so that a committed group holds the
writes of complete operations only, and nobody sleeps on `&log` without a
reason.

What a step adds to the trace is related to the state by `Opens`: an event of
an operation is followed by the operation's end, or the operation is open.

Key definitions: `Opens`, `Waits`.
-/
import Xv6.LogCrash

namespace Xv6
namespace Log

open TraceSys Redo

variable {A : Area} {s s' : Sys} {d0 : ℕ → Block} {tr tr' : List Ev}

/-! ### Open operations -/

/-- The process whose operation an event belongs to, its end apart. -/
def Ev.by : Ev → Option ℕ
  | .began p => some p
  | .logged p _ _ => some p
  | _ => none

/-- An event of an operation is followed by the operation's end, or by a crash,
or the operation is open. -/
def Opens (s : Sys) (tr : List Ev) : Prop :=
  ∀ pre e post p, tr = pre ++ e :: post → e.by = some p →
    s.op p = .inOp ∨ .ended p ∈ post ∨ .crashed ∈ post

/-- What a step does to the open operations, with the events it emits. -/
structure OpStep (s s' : Sys) (tr' : List Ev) : Prop where
  stays : ∀ p, s.op p = .inOp → s'.op p = .inOp ∨ .ended p ∈ tr' ∨ .crashed ∈ tr'
  opens : ∀ e ∈ tr', ∀ p, e.by = some p → s'.op p = .inOp

theorem Opens.step (h : Opens s tr) (hs : OpStep s s' tr') : Opens s' (tr ++ tr') := by
  intro pre e post p he hp
  rcases List.append_eq_append_iff.mp he with ⟨l, rfl, hl⟩ | ⟨l, rfl, hl⟩
  · exact .inl (hs.opens e (by simp [hl]) p hp)
  · cases l with
    | nil => exact .inl (hs.opens e (by simp at hl; simp [← hl]) p hp)
    | cons x l =>
      obtain ⟨rfl, rfl⟩ := List.cons.inj hl
      rcases h pre e l p rfl hp with h1 | h1 | h1
      · rcases hs.stays p h1 with h2 | h2 | h2
        · exact .inl h2
        · exact .inr (.inl (by simp [h2]))
        · exact .inr (.inr (by simp [h2]))
      · exact .inr (.inl (by simp [h1]))
      · exact .inr (.inr (by simp [h1]))

theorem OpStep.of_iff (h : ∀ p, s'.op p = .inOp ↔ s.op p = .inOp)
    (he : ∀ e ∈ tr', ∀ p, e.by = some p → s.op p = .inOp) : OpStep s s' tr' :=
  ⟨fun p hp => .inl ((h p).mpr hp), fun e hm p hp => (h p).mpr (he e hm p hp)⟩

theorem tick_by (h : tick A s = .ok (s', tr')) : ∀ e ∈ tr', e.by = none := by
  unfold tick at h
  split at h
  all_goals first
    | (obtain ⟨-, rfl⟩ := Prod.mk.inj (Except.ok.inj h); simp [Ev.by])
    | (split at h <;> (obtain ⟨-, rfl⟩ := Prod.mk.inj (Except.ok.inj h); simp [Ev.by]))
    | cases h

theorem opStep_setOp {p : ℕ} {o : OpState} (hp : s.op p ≠ .inOp) (ho : o ≠ .inOp) :
    OpStep s (s.setOp p o) [] := by
  refine .of_iff (fun q => ?_) (by simp)
  by_cases hq : q = p
  · subst hq
    simp [Sys.setOp, hp, ho]
  · simp [Sys.setOp, hq]

theorem opStep_of_step {c : Act} (he : step A s c = .ok (s', tr')) : OpStep s s' tr' := by
  cases c with
  | beginOp p =>
    obtain ⟨-, hout, ⟨rfl, rfl⟩ | ⟨-, -, rfl, rfl⟩⟩ := beginOp_cases he
    · exact opStep_setOp hout (by simp)
    · refine ⟨fun q hq => .inl ?_, ?_⟩
      · have hne : q ≠ p := fun h => hout (h ▸ hq)
        simpa [Sys.setOp, hne] using hq
      · simp [Ev.by, Sys.setOp]
  | logWrite p b v =>
    obtain ⟨hop, -, -, -, rfl, ⟨-, rfl⟩ | ⟨-, rfl⟩⟩ := logWrite_cases he
    all_goals exact .of_iff (fun _ => Iff.rfl) (by simpa [Ev.by] using hop)
  | endOp p =>
    have hend : ∀ o : ℕ → OpState, (∀ q, q ≠ p → s.op q = .inOp → o q = .inOp) →
        OpStep s { s' with op := o } [.ended p] := by
      refine fun o ho => ⟨fun q hq => ?_, by simp [Ev.by]⟩
      by_cases hqp : q = p
      · exact .inr (.inl (by simp [hqp]))
      · exact .inl (ho q hqp hq)
    obtain ⟨-, -, rfl, ⟨-, rfl⟩ | ⟨-, rfl⟩⟩ := endOp_cases he
    · exact hend _ fun q hq h => by simpa [hq] using h
    · refine hend _ fun q hq h => ?_
      simp [Sys.wakeup, hq, h]
  | tick => exact .of_iff (tick_frame he).1 fun e hm p hp => by simp [tick_by he e hm] at hp
  | evict b =>
    obtain ⟨-, rfl, rfl⟩ := evict_cases he
    exact .of_iff (fun _ => Iff.rfl) (by simp)
  | crash =>
    obtain ⟨rfl, rfl⟩ := Prod.mk.inj (Except.ok.inj he)
    exact ⟨fun _ _ => .inr (.inr (by simp)), by simp [Ev.by]⟩

/-! ### Sleeping in `begin_op` -/

/-- A process sleeps in `begin_op` while a commit runs or there is no room for it. -/
structure Waits (s : Sys) : Prop where
  asleep : ∀ p, s.op p = .asleep →
    s.committing = true ∨ (s.lh.length : ℤ) + (s.outstanding + 1) * MAXOPBLOCKS > LOGSIZE
  booting : s.phase.recovering = true → ∀ p, s.op p ≠ .asleep

/-- A step after which nobody new sleeps, and those who do have less reason to be woken. -/
theorem Waits.mono (h : Waits s) (hop : ∀ p, s'.op p = .asleep → s.op p = .asleep)
    (hc : s.committing = true → s'.committing = true) (hl : s.lh.length ≤ s'.lh.length)
    (ho : s.outstanding ≤ s'.outstanding) (hp : s'.phase.recovering = s.phase.recovering) : Waits s' := by
  refine ⟨fun p hs => ?_, fun hr p hs => h.booting (hp ▸ hr) p (hop p hs)⟩
  rcases h.asleep p (hop p hs) with h1 | h1
  · exact .inl (hc h1)
  · right
    have hm : (s.outstanding + 1) * MAXOPBLOCKS ≤ (s'.outstanding + 1) * MAXOPBLOCKS :=
      Int.mul_le_mul_of_nonneg_right (by omega) (by omega)
    omega

theorem tick_asleep {p : ℕ} (h : tick A s = .ok (s', tr')) (hs : s'.op p = .asleep) :
    s.op p = .asleep ∧ s.phase ≠ .run ∧ s'.committing = s.committing := by
  unfold tick at h
  split at h
  case h_6 =>
    -- the end of `end_op` wakes everybody
    obtain ⟨rfl, -⟩ := Prod.mk.inj (Except.ok.inj h)
    simp only [Sys.wakeup] at hs
    split_ifs at hs
    simp_all
  all_goals first
    | (obtain ⟨rfl, -⟩ := Prod.mk.inj (Except.ok.inj h); exact ⟨hs, by simp [*], rfl⟩)
    | (split at h <;> (obtain ⟨rfl, -⟩ := Prod.mk.inj (Except.ok.inj h); exact ⟨hs, by simp [*], rfl⟩))
    | cases h

theorem waits_tick {a : Spec} (hI : Inv A a s) (h : Waits s) (he : tick A s = .ok (s', tr')) : Waits s' := by
  refine ⟨fun p hs => .inl ?_, fun hr p hs => ?_⟩
  · obtain ⟨h1, h2, h3⟩ := tick_asleep he hs
    have hrec : s.phase.recovering = false := by
      by_contra hr
      exact h.booting (by simpa using hr) p h1
    have hcom : s.phase.commits = true := by
      by_contra hc
      exact h2 (Phase.eq_run (by simpa using hc) hrec)
    rw [h3, hI.comm, hcom]
  · obtain ⟨h1, -, -⟩ := tick_asleep he hs
    have hrec : s.phase.recovering = true := by
      by_contra hn
      have := ((tick_frame he).2.2.1 (by simpa using hn)).1
      simp [this] at hr
    exact h.booting hrec p h1

theorem waits_beginOp {p : ℕ} (h : Waits s) (he : beginOp s p = .ok (s', tr')) : Waits s' := by
  unfold beginOp at he
  split at he
  · cases he
  · next hg =>
    simp only [not_or, Bool.not_eq_true] at hg
    have hsleep : (s.committing = true ∨ (s.lh.length : ℤ) + (s.outstanding + 1) * MAXOPBLOCKS > LOGSIZE) →
        Waits (s.setOp p .asleep) := by
      refine fun hw => ⟨fun q hq => ?_, fun hr => absurd hr (by simp [Sys.setOp, hg.1])⟩
      by_cases hqp : q = p
      · exact hw
      · exact h.asleep q (by simpa [Sys.setOp, hqp] using hq)
    split at he
    · next hc =>
      obtain ⟨rfl, -⟩ := Prod.mk.inj (Except.ok.inj he)
      exact hsleep (.inl hc)
    · split at he <;> obtain ⟨rfl, -⟩ := Prod.mk.inj (Except.ok.inj he)
      · next hroom => exact hsleep (.inr hroom)
      · refine h.mono (fun q hq => ?_) id le_rfl (by simp [Sys.setOp]) rfl
        have hqp : q ≠ p := fun hqp => by simp [Sys.setOp, hqp] at hq
        simpa [Sys.setOp, hqp] using hq

theorem waits_endOp {p : ℕ} (he : endOp s p = .ok (s', tr')) : Waits s' := by
  obtain ⟨-, -, -, ⟨-, rfl⟩ | ⟨-, rfl⟩⟩ := endOp_cases he
  · refine ⟨fun q _ => .inl rfl, fun hr => ?_⟩
    dsimp only at hr
    split_ifs at hr <;> simp [Phase.recovering] at hr
  · -- everybody has been woken
    have hnone : ∀ q, ({ s with outstanding := s.outstanding - 1 }.wakeup.setOp p .out).op q ≠ .asleep := by
      intro q hq
      by_cases hqp : q = p
      · simp [Sys.setOp, hqp] at hq
      · simp only [Sys.setOp, Sys.wakeup, Function.update_of_ne hqp] at hq
        split_ifs at hq
        contradiction
    exact ⟨fun q hq => absurd hq (hnone q), fun _ q => hnone q⟩

theorem waits_boot (disk : ℕ → Block) : Waits (boot disk) := by
  constructor <;> simp [boot]

theorem waits_step {a : Spec} {c : Act} (hI : Inv A a s) (h : Waits s) (he : step A s c = .ok (s', tr')) :
    Waits s' := by
  cases c with
  | beginOp p => exact waits_beginOp h he
  | logWrite p b v =>
    obtain ⟨-, -, -, -, -, ⟨-, rfl⟩ | ⟨-, rfl⟩⟩ := logWrite_cases he
    · exact h.mono (fun _ => id) id le_rfl le_rfl rfl
    · exact h.mono (fun _ => id) id (by simp) le_rfl rfl
  | endOp p => exact waits_endOp he
  | tick => exact waits_tick hI h he
  | evict b =>
    obtain ⟨-, rfl, -⟩ := evict_cases he
    exact h.mono (fun _ => id) id le_rfl le_rfl rfl
  | crash =>
    obtain ⟨rfl, -⟩ := Prod.mk.inj (Except.ok.inj he)
    exact waits_boot s.disk

/-! ### The group -/

/-- Block `b` was last logged with the contents `v`, in the present group. -/
def LastLogged (tr : List Ev) (b : ℕ) (v : Block) : Prop :=
  ∃ pre p post, tr = pre ++ .logged p b v :: post ∧ (∀ q w, .logged q b w ∉ post) ∧
    .committed ∉ post ∧ .crashed ∉ post

theorem LastLogged.snoc {b : ℕ} {v : Block} {e : Ev} (h : LastLogged tr b v)
    (he : ∀ q w, e ≠ .logged q b w) (hc : e ≠ .committed) (hx : e ≠ .crashed) :
    LastLogged (tr ++ [e]) b v := by
  obtain ⟨pre, p, post, rfl, h1, h2, h3⟩ := h
  refine ⟨pre, p, post ++ [e], by simp, fun q w hm => ?_, ?_, ?_⟩
  · rcases List.mem_append.mp hm with hm | hm
    · exact h1 q w hm
    · exact he q w (List.mem_singleton.mp hm).symm
  · simp [h2, Ne.symm hc]
  · simp [h3, Ne.symm hx]

/-- The last write to a pending block is the last time the block was logged. -/
theorem pending_last (d : ℕ → Block) (tr : List Ev) {b : ℕ} (hb : b ∈ (spec d tr).pending.map Prod.fst) :
    LastLogged tr b (redo (spec d tr).pending (spec d tr).disk b) := by
  induction tr using List.reverseRecOn with
  | nil => simp [spec] at hb
  | append_singleton tr e ih =>
    rw [spec_append] at hb ⊢
    cases e with
    | logged p x v =>
      simp only [List.foldl_cons, List.foldl_nil, Spec.next, List.map_append, List.mem_append] at hb ⊢
      rw [redo_snoc]
      by_cases hx : b = x
      · subst hx
        rw [Function.update_self]
        exact ⟨tr, p, [], rfl, by simp, by simp, by simp⟩
      · rw [Function.update_of_ne hx]
        exact (ih (hb.resolve_right (by simpa using hx))).snoc (by simp [Ne.symm hx]) (by simp) (by simp)
    | committed => simp [Spec.next] at hb
    | crashed => simp [Spec.next] at hb
    | began p => exact (ih hb).snoc (by simp) (by simp) (by simp)
    | ended p => exact (ih hb).snoc (by simp) (by simp) (by simp)
    | wroteLog x => exact (ih hb).snoc (by simp) (by simp) (by simp)

/-- What the log area holds of a group that is about to be committed. -/
theorem Inv.group (hI : Inv A (spec d0 tr) s) (hO : Opens s tr) (hp : s.phase = .writeHead) {i : ℕ}
    (hi : i < s.lh.length) : ∃ pre p v post, tr = pre ++ .logged p s.lh[i] v :: post ∧
      (∀ q w, .logged q s.lh[i] w ∉ post) ∧ .ended p ∈ post ∧ s.disk (A.start + i + 1) = v := by
  have hph := hI.phase
  rw [hp] at hph
  obtain ⟨hpre, hlog⟩ := hph
  have hmem : s.lh[i] ∈ (spec d0 tr).pending.map Prod.fst :=
    (hpre.pending _).mp (List.getElem_mem hi)
  obtain ⟨pre, p, post, htr, hlast, -, hcrash⟩ := pending_last d0 tr hmem
  refine ⟨pre, p, _, post, htr, hlast, ?_, hlog i hi hi⟩
  rcases hO _ _ _ p htr rfl with h | h | h
  · exact absurd h (hI.quiet (by simp [hp]) p)
  · exact h
  · exact absurd h hcrash

theorem Inv.outstanding_eq_zero {a : Spec} (hI : Inv A a s) (hp : s.phase ≠ .run) : s.outstanding = 0 := by
  obtain ⟨S, hS, ho⟩ := hI.ops
  have hempty : S = ∅ := Finset.eq_empty_of_forall_notMem fun p hm => hI.quiet hp p ((hS p).mp hm)
  rw [ho, hempty]
  rfl

theorem Inv.phase_ne_run {a : Spec} (hI : Inv A a s) (hc : s.committing = true) : s.phase ≠ .run := by
  intro hp
  rw [hI.comm, hp] at hc
  cases hc

/-- The panics of `end_op` and of a `log_write` outside an operation cannot happen. -/
theorem Inv.step_ne_panic {a : Spec} (hI : Inv A a s) (c : Act) :
    step A s c ≠ .error (.panic "log.committing") ∧
      step A s c ≠ .error (.panic "log_write outside of trans") := by
  cases c with
  | beginOp p => simp only [step, beginOp]; split_ifs <;> simp
  | logWrite p b v =>
    simp only [step, logWrite]
    split_ifs with h1 h2 h3
    · simp
    · simp
    · -- the process that calls it is counted in `outstanding`
      obtain ⟨S, hS, ho⟩ := hI.ops
      have hpS : p ∈ S := (hS p).mpr (by simpa using (not_or.mp h1).1)
      have hcard : 0 < S.card := Finset.card_pos.mpr ⟨p, hpS⟩
      omega
    · simp
    · simp
  | endOp p =>
    simp only [step, endOp]
    split_ifs with h1 h2 h3
    · simp
    · exact absurd (not_not.mp h1) (hI.quiet (hI.phase_ne_run h2) p)
    all_goals simp
  | tick =>
    simp only [step, tick]
    split <;> (try split) <;> simp
  | evict b => simp only [step, evict]; split_ifs <;> simp
  | crash => simp [step]

/-- **Group commit isolates operations.** In every state of every run from a
disk with an empty header: while `committing` is set no operation is open,
`outstanding` is 0 and no `log_write` takes effect; the panics of `end_op` and
of a `log_write` outside a transaction are out of reach; when the header of a
group is about to reach the disk, each log block holds what the last
`log_write` of its block left there, every operation that has begun has ended,
and so has the one that wrote the block; and a process sleeps in `begin_op`
only while a commit runs or the log has no room for its operation. -/
theorem group_isolation (A : Area) (d0 : ℕ → Block) (h0 : (d0 A.start).rd 0 4 = 0) (acts : List Act) (s : Sys)
    (tr : List Ev) (h : run (step A) (boot d0) acts = .ok (s, tr)) :
    (s.phase.commits = true → s.committing = true ∧ s.outstanding = 0) ∧
    (s.committing = true → s.outstanding = 0 ∧ ∀ p b v s' tr', logWrite A s p b v ≠ .ok (s', tr')) ∧
    (∀ c, step A s c ≠ .error (.panic "log.committing") ∧
      step A s c ≠ .error (.panic "log_write outside of trans")) ∧
    (s.phase = .writeHead →
      (∀ i (hi : i < s.lh.length), ∃ pre p v post, tr = pre ++ .logged p s.lh[i] v :: post ∧
        (∀ q w, .logged q s.lh[i] w ∉ post) ∧ .ended p ∈ post ∧ s.disk (A.start + i + 1) = v) ∧
      (∀ pre p post, tr = pre ++ .began p :: post → .ended p ∈ post ∨ .crashed ∈ post)) ∧
    (∀ p, s.op p = .asleep →
      s.committing = true ∨ (s.lh.length : ℤ) + (s.outstanding + 1) * MAXOPBLOCKS > LOGSIZE) := by
  have hI : Inv A (spec d0 tr) s := inv_run h0 h
  have hO : Opens s tr := by
    refine run_inv (I := Opens) ?_ (fun _ _ _ _ _ hs he => hs.step (opStep_of_step he)) h
    intro pre e post p he
    simp at he
  have hW : Waits s := by
    refine (run_inv (I := fun s tr => Inv A (spec d0 tr) s ∧ Waits s)
      ⟨inv_boot (a := ⟨d0, []⟩) (durable_of_zero h0), waits_boot d0⟩ ?_ h).2
    intro s tr c s' tr' hs he
    refine ⟨?_, waits_step hs.1 hs.2 he⟩
    rw [spec_append]
    exact inv_step hs.1 he
  refine ⟨fun hc => ?_, fun hc => ?_, hI.step_ne_panic, fun hp => ⟨fun i hi => hI.group hO hp hi, ?_⟩, hW.asleep⟩
  · have hcom : s.committing = true := by rw [hI.comm, hc]
    exact ⟨hcom, hI.outstanding_eq_zero (hI.phase_ne_run hcom)⟩
  · refine ⟨hI.outstanding_eq_zero (hI.phase_ne_run hc), fun p b v s' tr' he => ?_⟩
    exact hI.quiet (hI.phase_ne_run hc) p (logWrite_cases he).1
  · intro pre p post htr
    exact (hO _ _ _ p htr rfl).resolve_left (hI.quiet (by simp [hp]) p)

/-- Two operations log block 100; the second to end commits, while a third waits. -/
def groupRun : List Act :=
  [.tick, .tick, .tick, .beginOp 0, .beginOp 1, .logWrite 0 100 fun _ => 1, .logWrite 1 100 fun _ => 2,
    .endOp 0, .endOp 1, .beginOp 2, .tick, .tick]

theorem group_isolation_sample : ∃ s tr,
    run (step mkfsArea) (boot fun _ => .zero) groupRun = .ok (s, tr) ∧ s.phase = .writeHead ∧
      s.op 2 = .asleep ∧ s.outstanding = 0 ∧ s.disk 3 = fun _ => 2 := by
  refine ⟨_, _, rfl, rfl, rfl, ?_, rfl⟩
  exact ((group_isolation mkfsArea (fun _ => .zero) (Block.rd_zero 0 4) groupRun _ _ rfl).1 rfl).2

end Log
end Xv6
