/-
# Interrupts are kept per thread

`noff` of a CPU is the depth of the thread it runs (`Sound.noff`), also across `sched`: there
`noff` is 1 on both sides, since the scheduler that a thread leaves for holds one lock, and so
does the one it comes back from. `intena` is the thread's own from where its depth leaves 0 to
where it returns there (`Kept.saved`), except between the `swtch` in `sched` and the assignment
after it, where the stack has it. The scheduler has no such property: a thread leaves its
`intena` behind.

Key definitions: `Intr.Effect`, `Intr.Sound`, `Intr.Kept`, `Intr.Inv`.
Key theorems: `Intr.inv_step`, `Intr.interrupts_kept`.
-/
import Xv6.Ends
import Xv6.Intr
import Xv6.Trace

namespace Xv6
namespace Intr

open Procs TraceSys

variable {s s' : Sys} {c d p : ℕ} {k k' : Cpu} {code code' : Code}

/-! ### What a step does to the CPU and the code -/

/-- `push_off` has not yet turned interrupts off. -/
def Pos.Pushing (pos : Pos) : Prop := ∃ old lk, pos = .pushing old lk

/-- The CPU and the code before and after a step of the code. -/
inductive Effect : Cpu → Code → Cpu → Code → Prop
  | quiet {k : Cpu} {code code' : Code} (hdepth : code'.depth = code.depth) (hstarted : code'.started = code.started)
      (hbefore : code'.before = code.before) (hframes : code'.frames = code.frames)
      (hpos : ∀ i, code.pos ≠ .restoring i) (hpos' : ∀ i, code'.pos ≠ .restoring i)
      (hold : ∀ old lk, code'.pos = .pushing old lk → old = k.sie) : Effect k code k code'
  | push {k : Cpu} {code code' : Code} (old : Bool) (lk : Option Lk) (hpos : code.pos = .pushing old lk)
      (hdepth : code'.depth = code.depth + 1) (hstarted : code'.started = code.started)
      (hbefore : code'.before = if code.depth = 0 then k.sie else code.before) (hframes : code'.frames = code.frames)
      (hnext : ¬code'.pos.Pushing) (hpos' : ∀ i, code'.pos ≠ .restoring i) : Effect k code (k.pushOff old) code'
  | pop {k k' : Cpu} {code code' : Code} (hpop : k.popOff = .ok k') (hdepth : code.depth = code'.depth + 1)
      (hpos : ∀ i, code.pos ≠ .restoring i) (hfree : code'.pos = .free) (hbefore : code'.before = code.before)
      (hstarted : code'.started = (code.started || decide (code'.depth = 0))) (hframes : code'.frames = code.frames) :
      Effect k code k' code'
  | switch {k : Cpu} {code code' : Code} (b : Bool) (hdepth : code.depth = 0) (hdepth' : code'.depth = 0)
      (hfree : code'.pos = .free) (hframes : code'.frames = code.frames) : Effect k code { k with sie := b } code'
  | restore {k : Cpu} {code code' : Code} (i : Bool) (hpos : code.pos = .restoring i) (hfree : code'.pos = .free)
      (hdepth : code'.depth = code.depth) (hstarted : code'.started = code.started) (hbefore : code'.before = code.before)
      (hframes : code'.frames = code.frames) : Effect k code { k with intena := i } code'

/-- A step of code on the CPU `c` has its effect there and touches no other CPU; contexts are
only those of new processes. -/
structure Local (s : Sys) (c : ℕ) (code : Code) (s' : Sys) (code' : Code) : Prop where
  effect : Effect (s.cpu c) code (s'.cpu c) code'
  others : ∀ d, d ≠ c → s'.cpu d = s.cpu d
  contexts : ∀ q t, s'.context q = some t → s.context q = some t ∨ t = forkret q

theorem setCpu_self (s : Sys) (c : ℕ) (k : Cpu) : (s.setCpu c k).cpu c = k := Function.update_self ..

theorem setCpu_of_ne (s : Sys) {c d : ℕ} (h : d ≠ c) (k : Cpu) : (s.setCpu c k).cpu d = s.cpu d := Function.update_of_ne h ..

theorem setCpu_setLoc (s : Sys) (c : ℕ) (k : Cpu) (l : Loc) : (s.setCpu c k).setLoc c l = s.setCpu c { k with loc := l } := by
  rw [Sys.setLoc, setCpu_self, Sys.setCpu, Sys.setCpu, Sys.setCpu, Function.update_idem]

theorem setContext_self (s : Sys) (q : ℕ) (t : Option Code) : (s.setContext q t).context q = t := Function.update_self ..

theorem setContext_of_ne (s : Sys) {q r : ℕ} (h : r ≠ q) (t : Option Code) : (s.setContext q t).context r = s.context r :=
  Function.update_of_ne h ..

theorem Local.same {s' : Sys} (h : Effect (s.cpu c) code (s.cpu c) code') (hcpu : s'.cpu = s.cpu) (hctx : s'.context = s.context) :
    Local s c code s' code' where
  effect := hcpu ▸ h
  others d _ := congrFun hcpu d
  contexts _ _ ht := .inl (hctx ▸ ht)

theorem Local.setCpu (h : Effect (s.cpu c) code k' code') : Local s c code (s.setCpu c k') code' where
  effect := (setCpu_self s c k').symm ▸ h
  others _ hd := setCpu_of_ne s hd k'
  contexts _ _ ht := .inl ht

theorem popOff_eq (h : k.popOff = .ok k') :
    k.sie = false ∧ 1 ≤ k.noff ∧ k' = { k with noff := k.noff - 1, sie := decide (k.noff - 1 = 0) && k.intena } := by
  rw [Cpu.popOff] at h
  split_ifs at h with hsie hnoff
  exact ⟨Bool.eq_false_iff.mpr hsie, by omega, (Except.ok.inj h).symm⟩

/-- What is left to do does not matter for the effect. -/
theorem Effect.todo {todo : List Op} (h : Effect k { code with todo := todo } k' code') : Effect k code k' code' := by
  cases h with
  | quiet hdepth hstarted hbefore hframes hpos hpos' hold => exact .quiet hdepth hstarted hbefore hframes hpos hpos' hold
  | push old lk hpos hdepth hstarted hbefore hframes hnext hpos' =>
    exact .push old lk hpos hdepth hstarted hbefore hframes hnext hpos'
  | pop hpop hdepth hpos hfree hbefore hstarted hframes => exact .pop hpop hdepth hpos hfree hbefore hstarted hframes
  | switch b hdepth hdepth' hfree hframes => exact .switch b hdepth hdepth' hfree hframes
  | restore i hpos hfree hdepth hstarted hbefore hframes => exact .restore i hpos hfree hdepth hstarted hbefore hframes

/-! ### What holds of a CPU and its code -/

/-- `noff` counts what the code has to undo, and meanwhile interrupts are off. -/
structure Sound (k : Cpu) (code : Code) : Prop where
  noff : k.noff = code.depth
  off : 0 < code.depth → k.sie = false
  frames : ∀ f ∈ code.frames, f.pos.inside = 0

/-- A thread's interrupt state is known: to the CPU, or to the stack while `sched` returns. -/
structure Kept (k : Cpu) (code : Code) : Prop where
  old : ∀ old lk, code.pos = .pushing old lk → old = k.sie
  frames : ∀ f ∈ code.frames, ∀ old lk, f.pos = .pushing old lk → old = true
  stack : code.started = true → 0 < code.depth → ∀ i, code.pos = .restoring i → i = code.before
  saved : code.started = true → 0 < code.depth → (∀ i, code.pos ≠ .restoring i) → k.intena = code.before

theorem Sound.effect (h : Sound k code) (he : Effect k code k' code') : Sound k' code' := by
  cases he with
  | quiet hdepth hstarted hbefore hframes hpos hpos' hold =>
    exact ⟨hdepth ▸ h.noff, hdepth ▸ h.off, hframes ▸ h.frames⟩
  | push old lk hpos hdepth hstarted hbefore hframes hnext hpos' =>
    refine ⟨?_, fun _ => rfl, hframes ▸ h.frames⟩
    rw [hdepth, ← h.noff]
    rfl
  | pop hpop hdepth hpos hfree hbefore hstarted hframes =>
    obtain ⟨-, -, rfl⟩ := popOff_eq hpop
    have hnoff : k.noff - 1 = code'.depth := by
      rw [h.noff, hdepth]
      rfl
    refine ⟨hnoff, fun hd => ?_, hframes ▸ h.frames⟩
    show (decide (k.noff - 1 = 0) && k.intena) = false
    rw [hnoff, decide_eq_false (Nat.ne_of_gt hd), Bool.false_and]
  | switch b hdepth hdepth' hfree hframes =>
    refine ⟨?_, fun hd => ?_, hframes ▸ h.frames⟩
    · rw [hdepth', ← hdepth]
      exact h.noff
    · rw [hdepth'] at hd
      exact absurd hd (Nat.lt_irrefl 0)
  | restore i hpos hfree hdepth hstarted hbefore hframes =>
    exact ⟨hdepth ▸ h.noff, hdepth ▸ h.off, hframes ▸ h.frames⟩

theorem Kept.effect (hs : Sound k code) (h : Kept k code) (he : Effect k code k' code') : Kept k' code' := by
  cases he with
  | quiet hdepth hstarted hbefore hframes hpos hpos' hold =>
    refine ⟨hold, hframes ▸ h.frames, fun _ _ i hi => absurd hi (hpos' i), fun hst hd _ => ?_⟩
    rw [hbefore]
    exact h.saved (hstarted ▸ hst) (hdepth ▸ hd) hpos
  | push old lk hpos hdepth hstarted hbefore hframes hnext hpos' =>
    refine ⟨fun o l hp => absurd ⟨o, l, hp⟩ hnext, hframes ▸ h.frames, fun _ _ i hi => absurd hi (hpos' i), fun hst _ _ => ?_⟩
    rw [hbefore]
    show (if k.noff = 0 then old else k.intena) = _
    rw [hs.noff]
    by_cases h0 : code.depth = 0
    · rw [if_pos h0, if_pos h0]
      exact h.old old lk hpos
    · rw [if_neg h0, if_neg h0]
      refine h.saved (hstarted ▸ hst) (Nat.pos_of_ne_zero h0) fun i hi => ?_
      rw [hpos] at hi
      cases hi
  | pop hpop hdepth hpos hfree hbefore hstarted hframes =>
    obtain ⟨-, -, rfl⟩ := popOff_eq hpop
    refine ⟨fun o l hp => ?_, hframes ▸ h.frames, fun _ _ i hi => ?_, fun hst hd _ => ?_⟩
    · rw [hfree] at hp
      cases hp
    · rw [hfree] at hi
      cases hi
    · rw [hstarted, decide_eq_false (Nat.ne_of_gt hd), Bool.or_false] at hst
      rw [hbefore]
      exact h.saved hst (by omega) hpos
  | switch b hdepth hdepth' hfree hframes =>
    refine ⟨fun o l hp => ?_, hframes ▸ h.frames, fun _ hd => ?_, fun _ hd => ?_⟩
    · rw [hfree] at hp
      cases hp
    · rw [hdepth'] at hd
      exact absurd hd (Nat.lt_irrefl 0)
    · rw [hdepth'] at hd
      exact absurd hd (Nat.lt_irrefl 0)
  | restore i hpos hfree hdepth hstarted hbefore hframes =>
    refine ⟨fun o l hp => ?_, hframes ▸ h.frames, fun _ _ i hi => ?_, fun hst hd _ => ?_⟩
    · rw [hfree] at hp
      cases hp
    · rw [hfree] at hi
      cases hi
    · rw [hbefore]
      exact h.stack (hstarted ▸ hst) (hdepth ▸ hd) i hpos

/-- When the depth comes back to 0 interrupts are as they were when it left 0. -/
theorem Kept.settles (hs : Sound k code) (h : Kept k code) (he : Effect k code k' code') (hst : code.started = true)
    (hd : 0 < code.depth) (hd' : code'.depth = 0) : k'.sie = code.before := by
  cases he with
  | quiet hdepth => omega
  | push old lk hpos hdepth => omega
  | pop hpop hdepth hpos hfree hbefore hstarted hframes =>
    obtain ⟨-, -, rfl⟩ := popOff_eq hpop
    show (decide (k.noff - 1 = 0) && k.intena) = code.before
    have hnoff : k.noff - 1 = 0 := by
      rw [hs.noff, hdepth, hd']
    rw [decide_eq_true hnoff, Bool.true_and]
    exact h.saved hst hd hpos
  | switch b hdepth => omega
  | restore i hpos hfree hdepth => omega

/-! ### Code that undoes what it has done -/

def PopPanic (e : Stop) : Prop := e = .panic "pop_off - interruptible" ∨ e = .panic "pop_off"

instance (e : Stop) : Decidable (PopPanic e) := inferInstanceAs (Decidable (_ ∨ _))

theorem popOff_ok (hn : 1 ≤ k.noff) (hs : k.sie = false) : ∃ k', k.popOff = .ok k' := by
  rw [Cpu.popOff, if_neg (Bool.eq_false_iff.mp hs), if_neg (Nat.not_lt.mpr hn)]
  exact ⟨_, rfl⟩

theorem Sound.popOff_ok (h : Sound k code) (hd : 0 < code.depth) : ∃ k', k.popOff = .ok k' :=
  Intr.popOff_ok (h.noff ▸ hd) (h.off hd)

theorem start_ends {op : Op} (h : Sound (s.cpu c) code) (hfree : code.pos = .free) :
    Ends (¬PopPanic ·) (start s c code op) fun r => Local s c code r.1 r.2 := by
  have hnot : ∀ i, code.pos ≠ .restoring i := by
    intro i hi
    rw [hfree] at hi
    cases hi
  have hinside : code.pos.inside = 0 := by rw [hfree]; rfl
  cases op with
  | pushOff | acquire =>
    refine Local.same (.quiet ?_ rfl rfl rfl hnot (fun i hi => by cases hi) fun old lk hp => ?_) rfl rfl
    · rw [Code.depth, Code.depth, hinside]
      rfl
    · cases hp
      rfl
  | popOff =>
    rw [start]
    split_ifs with hpushes
    · exact Ends.error (by decide)
    obtain ⟨k', hk⟩ := h.popOff_ok (by rw [Code.depth]; omega)
    rw [hk]
    refine Local.setCpu (.pop hk ?_ hnot hfree rfl rfl rfl)
    show code.pushes + code.held.length + code.pos.inside = code.pushes - 1 + code.held.length + code.pos.inside + 1
    omega
  | release l =>
    rw [start]
    split_ifs with hheld hhold
    · exact Ends.error (by decide)
    · refine Local.same (.quiet ?_ rfl rfl rfl hnot (fun i hi => by cases hi) fun old lk hp => by cases hp) rfl rfl
      have hlen := List.length_erase_of_mem hheld
      have hpos := List.length_pos_of_mem hheld
      show code.pushes + (code.held.erase l).length + 1 = code.pushes + code.held.length + code.pos.inside
      rw [hinside, hlen]
      omega
    · exact Ends.error (by decide)
  | intrOn | intrOff =>
    rw [start]
    split_ifs with hdepth
    · exact Ends.error (by decide)
    · exact Local.setCpu (.switch _ (not_not.mp hdepth) (not_not.mp hdepth) hfree rfl)
  | setState q st =>
    rw [start]
    split_ifs
    · refine Local.same (.quiet rfl rfl rfl rfl hnot hnot fun old lk hp => ?_) rfl rfl
      rw [hfree] at hp
      cases hp
    · exact Ends.error (by decide)
  | setContext q =>
    rw [start]
    split_ifs
    · refine ⟨.quiet rfl rfl rfl rfl hnot hnot fun old lk hp => ?_, fun d _ => rfl, fun r t ht => ?_⟩
      · rw [hfree] at hp
        cases hp
      · by_cases hr : r = q
        · subst hr
          rw [setContext_self] at ht
          exact .inr (Option.some.inj ht).symm
        · rw [setContext_of_ne s hr] at ht
          exact .inl ht
    · exact Ends.error (by decide)
  | sched => exact Ends.error (by decide)

/-- **A step of sound code has one of the effects, or stops without a panic of `pop_off`.** -/
theorem exec_ends (h : Sound (s.cpu c) code) : Ends (¬PopPanic ·) (exec s c code) fun r => Local s c code r.1 r.2 := by
  obtain ⟨pos, todo, frames, pushes, held, started, before⟩ := code
  cases pos with
  | free =>
    cases todo with
    | nil => exact Ends.error (by decide)
    | cons op todo =>
      have h' : Sound (s.cpu c) ⟨.free, todo, frames, pushes, held, started, before⟩ := ⟨h.noff, h.off, h.frames⟩
      exact (start_ends h' rfl).mono fun r hl => ⟨hl.effect.todo, hl.others, hl.contexts⟩
  | pushing old lk =>
    cases lk with
    | none =>
      refine Local.setCpu (.push old none rfl ?_ rfl rfl rfl ?_ fun i hi => by cases hi)
      · show pushes + 1 + held.length + 0 = pushes + held.length + 0 + 1
        omega
      · rintro ⟨o, l, hp⟩
        cases hp
    | some l =>
      rw [exec]
      dsimp only
      by_cases hhold : (s.setCpu c ((s.cpu c).pushOff old)).holding c l = true
      · rw [if_pos hhold]
        exact Ends.error (by decide)
      rw [if_neg hhold]
      refine Local.setCpu (.push old (some l) rfl rfl rfl rfl rfl ?_ fun i hi => by cases hi)
      rintro ⟨o, l, hp⟩
      cases hp
  | spinning l =>
    rw [exec]
    dsimp only
    split_ifs
    · exact Ends.error (by decide)
    refine Local.same (.quiet ?_ rfl rfl rfl (fun i hi => by cases hi) (fun i hi => by cases hi) fun old lk hp => by cases hp) rfl rfl
    show pushes + (held.length + 1) + 0 = pushes + held.length + 1
    omega
  | popping =>
    obtain ⟨k', hk⟩ := h.popOff_ok (Nat.succ_pos _)
    simp only [exec, hk]
    exact Local.setCpu (.pop hk rfl (fun i hi => by cases hi) rfl rfl rfl rfl)
  | restoring i => exact Local.setCpu (.restore i rfl rfl rfl rfl rfl rfl)

/-! ### The invariant -/

/-- A thread that is not on a CPU: it holds its lock, and has its interrupt state on the stack. -/
structure Parked (code : Code) : Prop where
  depth : code.depth = 1
  inside : ∀ f ∈ code.frames, f.pos.inside = 0
  frames : ∀ f ∈ code.frames, ∀ old lk, f.pos = .pushing old lk → old = true
  still : ¬code.pos.Pushing
  stack : code.started = true → code.pos = .restoring code.before

theorem parked_forkret (p : ℕ) : Parked (forkret p) where
  depth := rfl
  inside := fun f hf => absurd hf List.not_mem_nil
  frames := fun f hf => absurd hf List.not_mem_nil
  still := by
    rintro ⟨old, lk, h⟩
    cases h
  stack := fun h => absurd h Bool.false_ne_true

/-- The lock that `scheduler` has taken. -/
def SPos.depth : SPos → ℕ
  | .spinning _ _ | .check _ _ | .chosen _ | .back _ | .release _ _ | .popping _ _ => 1
  | .top | .scan _ _ | .pushing _ _ _ | .idle => 0

/-- The CPU agrees with what it executes. -/
def At (k : Cpu) : Loc → Prop
  | .sched pos => k.noff = pos.depth ∧ (0 < pos.depth → k.sie = false)
  | .handler pos code => pos.depth = 0 ∧ Sound k code
  | .thread _ code => Sound k code ∧ Kept k code

structure Inv (s : Sys) : Prop where
  cpus : ∀ c, At (s.cpu c) (s.cpu c).loc
  contexts : ∀ p code, s.context p = some code → Parked code

theorem inv_boot : Inv boot where
  cpus _ := ⟨rfl, fun h => absurd h (Nat.lt_irrefl 0)⟩
  contexts p code h := by
    replace h : Function.update (fun _ => none) 0 (some (forkret 0)) p = some code := h
    by_cases hp : p = 0
    · rw [hp, Function.update_self] at h
      exact Option.some.inj h ▸ parked_forkret 0
    · rw [Function.update_of_ne hp] at h
      cases h

/-- A step on the CPU `c` leaves it in order and touches no other CPU. -/
structure On (cpu : ℕ → Cpu) (c : ℕ) (s' : Sys) : Prop where
  here : At (s'.cpu c) (s'.cpu c).loc
  others : ∀ d, d ≠ c → s'.cpu d = cpu d
  contexts : ∀ p code, s'.context p = some code → Parked code

theorem On.inv (ho : On s.cpu c s') (h : Inv s) : Inv s' where
  cpus d := by
    by_cases hd : d = c
    · exact hd ▸ ho.here
    · rw [ho.others d hd]
      exact h.cpus d
  contexts := ho.contexts

theorem Inv.setCpu (h : Inv s) (hk : At k k.loc) : On s.cpu c (s.setCpu c k) :=
  ⟨by rw [setCpu_self]; exact hk, fun _ hd => setCpu_of_ne s hd k, h.contexts⟩

/-- It does not matter where the CPU says it is. -/
theorem At.loc {l : Loc} (h : At k l) (l' : Loc) : At { k with loc := l' } l := by
  cases l with
  | sched pos => exact h
  | handler pos code => exact ⟨h.1, h.2.noff, h.2.off, h.2.frames⟩
  | thread p code => exact ⟨⟨h.1.noff, h.1.off, h.1.frames⟩, h.2.old, h.2.frames, h.2.stack, h.2.saved⟩

theorem Inv.setLoc (h : Inv s) {l : Loc} (hl : At (s.cpu c) l) : On s.cpu c (s.setLoc c l) := h.setCpu (hl.loc l)

theorem Inv.setLock (h : Inv s) (l : Lk) (b : Spinlock) : Inv (s.setLock l b) := ⟨h.cpus, h.contexts⟩

theorem Inv.setState (h : Inv s) (q : ℕ) (st : ProcState) : Inv (s.setState q st) := ⟨h.cpus, h.contexts⟩

/-- After a step of its code the CPU goes on with the code. -/
theorem Inv.execed (h : Inv s) {l : Loc} (hloc : Local s c code s' code') (hl : At (s'.cpu c) l) :
    On s.cpu c (s'.setLoc c l) := by
  refine ⟨?_, fun d hd => ?_, fun q t ht => ?_⟩
  · rw [Sys.setLoc, setCpu_self]
    exact hl.loc l
  · rw [Sys.setLoc, setCpu_of_ne _ hd, hloc.others d hd]
  · rcases hloc.contexts q t ht with ht | rfl
    · exact h.contexts q t ht
    · exact parked_forkret q

/-! ### The scheduler -/

theorem Parked.at_thread (h : Parked code) (hn : k.noff = 1) (hs : k.sie = false) (p : ℕ) : At k (.thread p code) where
  left := ⟨hn.trans h.depth.symm, fun _ => hs, h.inside⟩
  right := by
    refine ⟨fun old lk hp => absurd ⟨old, lk, hp⟩ h.still, h.frames, fun hst _ i hi => ?_, fun hst _ hno => ?_⟩
    · rw [h.stack hst] at hi
      exact (Pos.restoring.inj hi).symm
    · exact absurd (h.stack hst) (hno _)

theorem scheduler_ends (h : Inv s) {pos : SPos} (hpos : (s.cpu c).loc = .sched pos) :
    Ends (¬PopPanic ·) (scheduler s c pos) (On s.cpu c) := by
  have hc := h.cpus c
  rw [hpos] at hc
  obtain ⟨hnoff, hsie⟩ := hc
  have h0 : ∀ {P : Prop}, 0 < 0 → P := fun h0 => absurd h0 (Nat.lt_irrefl 0)
  cases pos with
  | top | idle =>
    rw [scheduler, Sys.setSie, setCpu_setLoc]
    exact h.setCpu ⟨hnoff, h0⟩
  | scan i found =>
    rw [scheduler]
    split_ifs <;> exact h.setLoc ⟨hnoff, hsie⟩
  | pushing i found old =>
    rw [scheduler]
    split_ifs
    · exact Ends.error (by decide)
    rw [setCpu_setLoc]
    refine h.setCpu ⟨?_, fun _ => rfl⟩
    show (s.cpu c).noff + 1 = 1
    rw [hnoff]
    rfl
  | spinning i found =>
    rw [scheduler]
    split_ifs
    · exact Ends.error (by decide)
    · exact (h.setLock _ _).setLoc ⟨hnoff, hsie⟩
  | check i found =>
    rw [scheduler]
    split_ifs
    · exact (h.setState _ _).setCpu ⟨hnoff, hsie⟩
    · exact h.setLoc ⟨hnoff, hsie⟩
  | chosen i =>
    cases hi : s.context i with
    | none =>
      simp only [scheduler, hi]
      exact Ends.error (by decide)
    | some code =>
      simp only [scheduler, hi]
      have hparked := h.contexts i code hi
      refine ⟨?_, fun d hd => setCpu_of_ne _ hd _, fun q t ht => ?_⟩
      · rw [setCpu_self]
        exact Parked.at_thread (k := { s.cpu c with context := some i, loc := .thread i code }) hparked hnoff (hsie Nat.one_pos) i
      · by_cases hq : q = i
        · subst hq
          rw [show (Sys.setCpu _ _ _).context q = (s.setContext q none).context q from rfl, setContext_self] at ht
          cases ht
        · rw [show (Sys.setCpu _ _ _).context q = (s.setContext i none).context q from rfl, setContext_of_ne s hq] at ht
          exact h.contexts q t ht
  | back i => exact h.setCpu ⟨hnoff, hsie⟩
  | release i found =>
    rw [scheduler]
    split_ifs
    · exact Ends.error (by decide)
    · exact (h.setLock _ _).setLoc ⟨hnoff, hsie⟩
  | popping i found =>
    obtain ⟨k', hk⟩ := popOff_ok (Nat.le_of_eq hnoff.symm) (hsie Nat.one_pos)
    simp only [scheduler, hk]
    obtain ⟨-, -, rfl⟩ := popOff_eq hk
    rw [ok_bind, setCpu_setLoc]
    refine h.setCpu ⟨?_, h0⟩
    show (s.cpu c).noff - 1 = 0
    rw [hnoff]
    rfl

/-! ### Threads -/

theorem sched_ends (h : Inv s) (hsound : Sound (s.cpu c) code) (hkept : Kept (s.cpu c) code) (hfree : code.pos = .free) :
    Ends (¬PopPanic ·) (sched s c code) (On s.cpu c) := by
  cases hp : (s.cpu c).proc with
  | none =>
    simp only [sched, hp]
    exact Ends.error (by decide)
  | some p =>
    cases hi : (s.cpu c).context with
    | none =>
      simp only [sched, hp, hi]
      exact Ends.error (by decide)
    | some i =>
      simp only [sched, hp, hi]
      split_ifs with hhold hnoff hstate hsie <;> try exact Ends.error (by decide)
      rw [ne_eq, not_not] at hnoff
      have hdepth : code.depth = 1 := by
        rw [← hsound.noff]
        exact hnoff
      have hparked : Parked { code with pos := .restoring (s.cpu c).intena } := by
        refine ⟨?_, hsound.frames, hkept.frames, ?_, fun hst => ?_⟩
        · rw [Code.depth, hfree] at hdepth
          exact hdepth
        · rintro ⟨old, lk, hpos⟩
          cases hpos
        · refine congrArg Pos.restoring (hkept.saved hst (by omega) fun i hi => ?_)
          rw [hfree] at hi
          cases hi
      refine ⟨?_, fun d hd => setCpu_of_ne _ hd _, fun q t ht => ?_⟩
      · rw [Sys.setLoc, setCpu_self]
        exact ⟨hnoff, fun _ => Bool.eq_false_iff.mpr hsie⟩
      · replace ht : (s.setContext p (some { code with pos := .restoring (s.cpu c).intena })).context q = some t := ht
        by_cases hq : q = p
        · rw [hq, setContext_self] at ht
          exact Option.some.inj ht ▸ hparked
        · rw [setContext_of_ne s hq] at ht
          exact h.contexts q t ht

theorem runThread_ends (h : Inv s) (hloc : (s.cpu c).loc = .thread p code) :
    Ends (¬PopPanic ·) (runThread s c p code) (On s.cpu c) := by
  have hc := h.cpus c
  rw [hloc] at hc
  obtain ⟨hsound, hkept⟩ := hc
  rw [runThread]
  split_ifs with hns
  · have hsound' : Sound (s.cpu c) { code with todo := code.todo.tail } := ⟨hsound.noff, hsound.off, hsound.frames⟩
    exact sched_ends h hsound' ⟨hkept.old, hkept.frames, hkept.stack, hkept.saved⟩ hns.1
  · exact (exec_ends hsound).bind fun r hl => h.execed hl ⟨hsound.effect hl.effect, hkept.effect hsound hl.effect⟩

/-! ### Calls and interrupts -/

theorem Code.call_eq {ops : List Op} (h : code.call ops = some code') : code.pos = .free ∧ code' = { code with todo := ops } := by
  rw [Code.call] at h
  split_ifs at h with hfree
  exact ⟨hfree.1, (Option.some.inj h).symm⟩

theorem At.call {l l' : Loc} {ops : List Op} (h : At k l) (hl : l.call ops = some l') : At k l' := by
  cases l with
  | sched pos => cases hl
  | handler pos code =>
    obtain ⟨code', hcode, rfl⟩ := Option.map_eq_some_iff.mp hl
    obtain ⟨-, rfl⟩ := Code.call_eq hcode
    exact ⟨h.1, h.2.noff, h.2.off, h.2.frames⟩
  | thread p code =>
    obtain ⟨code', hcode, rfl⟩ := Option.map_eq_some_iff.mp hl
    obtain ⟨-, rfl⟩ := Code.call_eq hcode
    exact ⟨⟨h.1.noff, h.1.off, h.1.frames⟩, h.2.old, h.2.frames, h.2.stack, h.2.saved⟩

/-- Interrupts are on only where there is nothing to undo. -/
theorem Sound.depth_eq_zero (h : Sound k code) (hsie : k.sie = true) : code.depth = 0 := by
  by_contra hd
  rw [h.off (Nat.pos_of_ne_zero hd)] at hsie
  cases hsie

theorem Code.inside_le (code : Code) : code.pos.inside ≤ code.depth := Nat.le_add_left ..

theorem Code.depth_trap (h : code.depth = 0) : code.trap.depth = 0 := by
  rw [Code.depth] at h
  show code.pushes + code.held.length + 0 = 0
  omega

theorem Sound.trap (h : Sound k code) (hsie : k.sie = true) : Sound { k with sie := false } code.trap := by
  have hd := h.depth_eq_zero hsie
  refine ⟨?_, fun _ => rfl, fun f hf => ?_⟩
  · rw [Code.depth_trap hd, ← hd]
    exact h.noff
  · rcases List.mem_cons.mp hf with rfl | hf
    · have hle := code.inside_le
      show code.pos.inside = 0
      omega
    · exact h.frames f hf

theorem Kept.trap (hs : Sound k code) (h : Kept k code) (hsie : k.sie = true) : Kept { k with sie := false } code.trap := by
  have hd := Code.depth_trap (hs.depth_eq_zero hsie)
  refine ⟨fun old lk hp => (by cases hp), fun f hf old lk hp => ?_, fun _ hpos => ?_, fun _ hpos => ?_⟩
  · rcases List.mem_cons.mp hf with rfl | hf
    · rw [h.old old lk hp]
      exact hsie
    · exact h.frames f hf old lk hp
  · omega
  · omega

theorem Code.done_eq (h : code.done = true) : code.pos = .free ∧ code.depth = 0 :=
  ⟨(of_decide_eq_true h).1, (of_decide_eq_true h).2.2⟩

theorem Code.depth_resume (h : code.done = true) {f : Frame} (hf : f.pos.inside = 0) (fs : List Frame) : (code.resume f fs).depth = 0 := by
  have hd := (Code.done_eq h).2
  rw [Code.depth] at hd
  show code.pushes + code.held.length + f.pos.inside = 0
  omega

theorem Sound.resume (h : Sound k code) (hdone : code.done = true) {f : Frame} {fs : List Frame} (hfs : code.frames = f :: fs) :
    Sound { k with sie := true } (code.resume f fs) := by
  have hinside : ∀ g ∈ f :: fs, g.pos.inside = 0 := hfs ▸ h.frames
  have hd := Code.depth_resume hdone (hinside f List.mem_cons_self) fs
  refine ⟨?_, fun hpos => ?_, fun g hg => hinside g (List.mem_cons_of_mem f hg)⟩
  · rw [hd, ← (Code.done_eq hdone).2]
    exact h.noff
  · omega

theorem Kept.resume (hs : Sound k code) (h : Kept k code) (hdone : code.done = true) {f : Frame} {fs : List Frame}
    (hfs : code.frames = f :: fs) : Kept { k with sie := true } (code.resume f fs) := by
  have hold : ∀ g ∈ f :: fs, ∀ old lk, g.pos = .pushing old lk → old = true := hfs ▸ h.frames
  have hinside : f.pos.inside = 0 := hs.frames f (hfs ▸ List.mem_cons_self)
  have hd := Code.depth_resume hdone hinside fs
  refine ⟨hold f List.mem_cons_self, fun g hg => hold g (List.mem_cons_of_mem f hg), fun _ hpos => ?_, fun _ hpos => ?_⟩
  · omega
  · omega

theorem At.trap {l : Loc} (h : At k l) (hsie : k.sie = true) : At { k with sie := false } l.trap := by
  cases l with
  | sched pos =>
    obtain ⟨hnoff, hoff⟩ := h
    have hd : pos.depth = 0 := by
      by_contra hd
      rw [hoff (Nat.pos_of_ne_zero hd)] at hsie
      cases hsie
    exact ⟨hd, hnoff.trans hd, fun _ => rfl, fun f hf => absurd hf List.not_mem_nil⟩
  | handler pos code => exact ⟨h.1, h.2.trap hsie⟩
  | thread p code => exact ⟨h.1.trap hsie, h.2.trap h.1 hsie⟩

theorem At.trapRet {l l' : Loc} (h : At k l) (hl : l.trapRet = some l') : At { k with sie := true } l' := by
  cases l with
  | sched pos => cases hl
  | handler pos code =>
    rw [Loc.trapRet] at hl
    split_ifs at hl with hdone
    cases hfs : code.frames with
    | nil =>
      simp only [hfs] at hl
      cases hl
      refine ⟨?_, fun hpos => ?_⟩
      · rw [h.1, ← (Code.done_eq hdone).2]
        exact h.2.noff
      · rw [h.1] at hpos
        exact absurd hpos (Nat.lt_irrefl 0)
    | cons f fs =>
      simp only [hfs] at hl
      cases hl
      exact ⟨h.1, h.2.resume hdone hfs⟩
  | thread p code =>
    rw [Loc.trapRet] at hl
    split_ifs at hl with hdone
    cases hfs : code.frames with
    | nil =>
      simp only [hfs] at hl
      cases hl
    | cons f fs =>
      simp only [hfs] at hl
      cases hl
      exact ⟨h.1.resume hdone hfs, h.2.resume h.1 hdone hfs⟩

/-- The CPU that takes the step. -/
def Act.cpu : Act → ℕ
  | .run c | .call c _ | .trap c | .trapRet c => c

/-- **A step keeps its CPU in order and touches no other, or stops without a panic of `pop_off`.** -/
theorem step_ends (h : Inv s) (a : Act) : Ends (¬PopPanic ·) (step s a) fun r => On s.cpu a.cpu r.1 := by
  cases a with
  | run c =>
    cases hloc : (s.cpu c).loc with
    | sched pos =>
      simp only [step, hloc]
      exact (scheduler_ends h hloc).bind fun _ ho => ho
    | handler pos code =>
      simp only [step, hloc]
      have hc := h.cpus c
      rw [hloc] at hc
      exact (exec_ends hc.2).bind fun r hl => h.execed hl ⟨hc.1, hc.2.effect hl.effect⟩
    | thread p code =>
      simp only [step, hloc]
      exact (runThread_ends h hloc).bind fun _ ho => ho
  | call c k =>
    rw [step]
    split
    · next l hl =>
      obtain ⟨ops, -, hcall⟩ := Option.bind_eq_some_iff.mp hl
      exact h.setLoc ((h.cpus c).call hcall)
    · exact Ends.error (by decide)
  | trap c =>
    rw [step]
    split_ifs with hsie
    · rw [Sys.setSie, setCpu_setLoc]
      exact h.setCpu (((h.cpus c).trap hsie).loc _)
    · exact Ends.error (by decide)
  | trapRet c =>
    rw [step]
    split
    · next l hl =>
      rw [Sys.setSie, setCpu_setLoc]
      exact h.setCpu (((h.cpus c).trapRet hl).loc _)
    · exact Ends.error (by decide)

theorem step_on {a : Act} {t : List Unit} (h : Inv s) (hs : step s a = .ok (s', t)) : On s.cpu a.cpu s' :=
  (step_ends h a).of_ok hs

theorem inv_step {a : Act} {t : List Unit} (h : Inv s) (hs : step s a = .ok (s', t)) : Inv s' := (step_on h hs).inv h

theorem step_error {a : Act} {e : Stop} (h : Inv s) (he : step s a = .error e) : ¬PopPanic e := (step_ends h a).of_error he

/-! ### The depth comes back to 0 -/

theorem setLoc_loc (s : Sys) (c : ℕ) (l : Loc) : ((s.setLoc c l).cpu c).loc = l := by
  rw [Sys.setLoc, setCpu_self]

theorem setLoc_sie (s : Sys) (c : ℕ) (l : Loc) : ((s.setLoc c l).cpu c).sie = (s.cpu c).sie := by
  rw [Sys.setLoc, setCpu_self]

/-- If the depth of a thread changes, then by a step of its code. -/
theorem step_thread {a : Act} {t : List Unit} (h : Inv s) (hs : step s a = .ok (s', t)) (hloc : (s.cpu c).loc = .thread p code)
    (hloc' : (s'.cpu c).loc = .thread p code') (hd : code'.depth ≠ code.depth) :
    ∃ k', Effect (s.cpu c) code k' code' ∧ (s'.cpu c).sie = k'.sie := by
  have hc := h.cpus c
  rw [hloc] at hc
  by_cases hca : c = a.cpu
  · cases a with
    | run c' =>
      obtain rfl : c = c' := hca
      simp only [step, hloc] at hs
      obtain ⟨s1, h1, hs⟩ := bind_ok hs
      cases hs
      rw [runThread] at h1
      split_ifs at h1
      · rw [sched] at h1
        split at h1
        · split_ifs at h1
          cases h1
          rw [setLoc_loc] at hloc'
          cases hloc'
        · cases h1
      · obtain ⟨r, hexec, h1⟩ := bind_ok h1
        cases h1
        rw [setLoc_loc] at hloc'
        cases hloc'
        exact ⟨_, ((exec_ends hc.1).of_ok hexec).effect, setLoc_sie r.1 c _⟩
    | call c' k =>
      obtain rfl : c = c' := hca
      rw [step] at hs
      split at hs
      · next l hl =>
        obtain ⟨ops, -, hcall⟩ := Option.bind_eq_some_iff.mp hl
        cases hs
        rw [hloc] at hcall
        obtain ⟨code2, hcode, rfl⟩ := Option.map_eq_some_iff.mp hcall
        rw [setLoc_loc] at hloc'
        cases hloc'
        rw [(Code.call_eq hcode).2] at hd
        exact absurd rfl hd
      · cases hs
    | trap c' =>
      obtain rfl : c = c' := hca
      rw [step] at hs
      split_ifs at hs with hsie
      cases hs
      rw [setLoc_loc, hloc] at hloc'
      cases hloc'
      have h0 := hc.1.depth_eq_zero hsie
      rw [Code.depth_trap h0, h0] at hd
      exact absurd rfl hd
    | trapRet c' =>
      obtain rfl : c = c' := hca
      rw [step] at hs
      split at hs
      · next l hl =>
        cases hs
        rw [setLoc_loc] at hloc'
        rw [hloc, Loc.trapRet] at hl
        split_ifs at hl with hdone
        split at hl
        · cases hl
        · next f fs hfs =>
          rw [hloc'] at hl
          cases hl
          have hinside : f.pos.inside = 0 := hc.1.frames f (hfs ▸ List.mem_cons_self)
          rw [Code.depth_resume hdone hinside fs, (Code.done_eq hdone).2] at hd
          exact absurd rfl hd
      · cases hs
  · rw [(step_on h hs).others c hca, hloc] at hloc'
    cases hloc'
    exact absurd rfl hd

theorem inv_run {as : List Act} {t : List Unit} (h : run step boot as = .ok (s, t)) : Inv s :=
  run_inv (I := fun s _ => Inv s) inv_boot (fun _ _ _ _ _ hi hs => inv_step hi hs) h

/-- **Interrupts are kept per thread.** In every state that any number of CPUs reach: a thread
that holds a spinlock or is inside a `push_off` runs with interrupts off; no `pop_off` panics;
and when a thread's depth comes back to 0, interrupts are as they were when it left 0. -/
theorem interrupts_kept {as : List Act} {t : List Unit} (h : run step boot as = .ok (s, t)) :
    (∀ c p code, (s.cpu c).loc = .thread p code → (code.held ≠ [] ∨ 0 < code.depth) → (s.cpu c).sie = false) ∧
    (∀ a, step s a ≠ .error (.panic "pop_off - interruptible") ∧ step s a ≠ .error (.panic "pop_off")) ∧
    ∀ a s' t', step s a = .ok (s', t') → ∀ c p code code', (s.cpu c).loc = .thread p code → (s'.cpu c).loc = .thread p code' →
      code.started = true → 0 < code.depth → code'.depth = 0 → (s'.cpu c).sie = code.before := by
  have hinv := inv_run h
  refine ⟨fun c p code hloc hheld => ?_, fun a => ⟨fun he => ?_, fun he => ?_⟩, ?_⟩
  · have hc := hinv.cpus c
    rw [hloc] at hc
    refine hc.1.off (hheld.elim (fun hne => ?_) id)
    have hlen := List.length_pos_iff.mpr hne
    rw [Code.depth]
    omega
  · exact step_error hinv he (.inl rfl)
  · exact step_error hinv he (.inr rfl)
  · intro a s' t' hs c p code code' hloc hloc' hst hd hd'
    have hc := hinv.cpus c
    rw [hloc] at hc
    obtain ⟨k', heff, hsie⟩ := step_thread hinv hs hloc hloc' (by omega)
    rw [hsie]
    exact hc.2.settles hc.1 heff hst hd hd'

/-- Init starts on CPU 0 with interrupts on, yields, and goes on at CPU 1 to the end of `release`. -/
def movedYield : List Act :=
  List.replicate 8 (.run 0) ++ .call 0 .yield :: List.replicate 8 (.run 0) ++ List.replicate 8 (.run 1)

theorem interrupts_kept_moved : ∃ s t s' t', run step boot movedYield = .ok (s, t) ∧ step s (.run 1) = .ok (s', t') ∧
    (s.cpu 1).loc = .thread 0 { pos := .popping, before := true } ∧ (s'.cpu 1).loc = .thread 0 { before := true } ∧
    (s'.cpu 1).sie = true := by
  obtain ⟨r, hr, hloc⟩ := okWith_iff.mp (show okWith (run step boot movedYield)
    (fun r => decide ((r.1.cpu 1).loc = .thread 0 { pos := .popping, before := true })) = true by decide +kernel)
  obtain ⟨r', hr', hloc'⟩ := okWith_iff.mp (show okWith (run step boot (movedYield ++ [.run 1]))
    (fun r => decide ((r.1.cpu 1).loc = .thread 0 { before := true })) = true by decide +kernel)
  obtain ⟨s1, t1, t2, h1, h2, -⟩ := run_snoc.mp hr'
  obtain rfl : r = (s1, t1) := Except.ok.inj (hr.symm.trans h1)
  have hkept := (interrupts_kept h1).2.2 (.run 1) r'.1 t2 h2 1 0 _ _ (of_decide_eq_true hloc) (of_decide_eq_true hloc') rfl
    (by decide) rfl
  exact ⟨s1, t1, r'.1, t2, h1, h2, of_decide_eq_true hloc, of_decide_eq_true hloc', hkept⟩

end Intr
end Xv6
