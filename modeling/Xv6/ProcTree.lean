/-
# Parents and children

Who is whose parent, over any interleaving. `Placed` says how the state of an
entry fits the place where its process stands, and that `wait_lock` is held by
the process whose code says so. `Tree` is about the table as a family: kinds of
entries (`Kind`: free, being forked, alive, zombie), parents, forks in progress
and how far `reparent` has got. It is stated of functions, apart from the state
of the system, and has one lemma for each thing that can happen to a family.

`tree_change` is the result: a step of the system does one of these things.

Key definitions: `Procs.Placed`, `Procs.Tree`.
Key theorems: `Procs.placed_change`, `Procs.tree_change`.
-/
import Xv6.Proc

namespace Xv6
namespace Procs

variable {s s' : Sys} {p q j : ℕ} {pc : Pc} {e : Entry} {lk : Option ℕ} {ev : List Ev}

/-! ### Where a process stands and the state of its entry -/

/-- The states that an entry can have while its process stands here. -/
def Pc.Fits : Pc → ProcState → Prop
  | .dead, st => st = .zombie ∨ st = .unused
  | .exitRelease, st | .exitSched, st => st = .zombie
  | .waitSched _, st => st = .sleeping
  | .waitAsleep _, st | .asleep _, st => st = .sleeping ∨ st = .runnable
  | .user, st => st = .used ∨ st = .running ∨ st = .runnable
  | .reparent .., st | .reparentWake .., st | .exitWake .., st | .exitState _, st => st = .running
  | .waitScan .., st | .waitCheck .., st | .waitSleep _, st | .waitRelease _, st | .waitChan _, st => st = .running
  | .forkScan _, st | .forkParent .., st | .forkRun .., st | .exitFiles .., st | .exitLock _, st | .waitLock _, st
  | .kill .., st => st = .running ∨ st = .runnable

/-- The process is in `exit`. -/
def Pc.exits : Pc → Bool
  | .exitFiles .. | .exitLock _ | .reparent .. | .reparentWake .. | .exitWake .. | .exitState _ => true
  | .exitRelease | .exitSched | .dead | .asleep (some _) => true
  | _ => false

/-- The process is in the `sleep` of `wait`, from where a wakeup or the scheduler finds it. -/
def Pc.inWait : Pc → Bool
  | .waitSched _ | .waitAsleep _ => true
  | _ => false

/-- The entry of process `p` fits the place where `p` stands. -/
structure Fit (p : ℕ) (pc : Pc) (e : Entry) : Prop where
  state : pc.Fits e.state
  chan : pc.inWait = true → e.state = .sleeping → e.chan = some (.proc p)
  init : p = 0 → pc.exits = false ∧ e.state ≠ .used
  range : NPROC ≤ p → e.state = .unused

structure Placed (s : Sys) : Prop where
  fit : ∀ p, Fit p (s.pc p) (s.proc p)
  lock : ∀ p, (s.pc p).holdsWait = true ↔ s.waitLock = some p

theorem Fit.dead_of_unused (h : Fit p pc e) (hu : e.state = .unused) : pc = .dead := by
  have hs := h.state
  cases pc <;> simp_all [Pc.Fits]

theorem Fit.user_of_used (h : Fit p pc e) (hu : e.state = .used) : pc = .user := by
  have hs := h.state
  cases pc <;> simp_all [Pc.Fits]

theorem Fit.dead_of_zombie (h : Fit p pc e) (hz : e.state = .zombie) (ho : pc.holdsOwn = false) : pc = .dead := by
  have hs := h.state
  cases pc <;> simp_all [Pc.Fits, Pc.holdsOwn]

/-- The entry of a process that is gone can be freed. -/
theorem Fit.free {e' : Entry} (h : Fit p pc e) (hd : pc = .dead) (hu : e'.state = .unused) : Fit p pc e' := by
  subst hd
  exact ⟨.inr hu, fun hi => (by cases hi), fun hp => ⟨(h.init hp).1, by simp [hu]⟩, fun _ => hu⟩

theorem Fit.lt_of_ne_unused (h : Fit p pc e) (hu : e.state ≠ .unused) : p < NPROC := by
  by_contra hlt
  exact hu (h.range (by omega))

/-- A RUNNING process goes on. -/
theorem Fit.go {pc0 : Pc} (hf : Fit p (s.pc p) (s.proc p)) (h : s.Runs p pc0) (hs : pc.Fits e.state)
    (hc : pc.inWait = false) (he : e.state ≠ .used) (h0 : p = 0 → pc0.exits = false → pc.exits = false) :
    Fit p pc e := by
  refine ⟨hs, fun h => by simp [hc] at h, fun hp => ⟨h0 hp ?_, he⟩, fun hp => ?_⟩
  · rw [← h.pc]
    exact (hf.init hp).1
  · exact absurd (hf.range hp) (by simp [h.running])

theorem resume_fit (h : Fit p pc e) (hr : e.state = .runnable) : Fit p (resume pc e).1 (resume pc e).2 := by
  have hu : e.state ≠ .unused := by simp [hr]
  have hp := h.lt_of_ne_unused hu
  have hs := h.state
  have h0 := h.init
  refine ⟨?_, ?_, ?_, fun hlt => by omega⟩
  all_goals
    cases pc with
    | asleep x => cases x <;> simp_all [resume, Pc.Fits, Pc.inWait, Pc.exits]
    | _ => simp_all [resume, Pc.Fits, Pc.inWait, Pc.exits]

theorem Move.fit (h : Move s p pc e lk ev) (hf : Fit p (s.pc p) (s.proc p)) : Fit p pc e := by
  cases h with
  | dispatch hr ho => exact resume_fit hf hr
  | yield h ho hw =>
    have hs := hf.state
    rw [h.pc, h.running] at hs
    refine hf.go h ?_ ?_ (by simp) (fun _ hx => hx)
    · cases pc <;> simp_all [Pc.Fits, Pc.holdsOwn, Pc.holdsWait]
    · cases pc <;> simp_all [Pc.Fits, Pc.inWait]
  | exit h h0 => exact hf.go h (by simp [Pc.Fits, h.running]) rfl (by simp [h.running]) (fun hp => absurd hp h0)
  | exitRelease h | exitSched h | waitRelease h | waitChan h | waitSched h =>
    obtain ⟨hs, hc, h0, hr⟩ := hf
    rw [h] at hs hc h0
    refine ⟨?_, ?_, ?_, ?_⟩ <;> simp_all [Pc.Fits, Pc.inWait, Pc.exits]
  | fork h | wait h | kill h | tend h | forkNext h | forkFull h | exitClose h | exitCwd h _ | exitLock h _
  | reparentNext h _ | reparentDone h _ | reparentSelf h | reparentWoken h _ | exitSelf h | exitWoken h _
  | waitLock h _ | waitNext h _ | waitFails h _ _ | waitScanned h _ | waitNone h | waitOn h | waitSleep h
  | killNext h | killNone h | sleep h | exitSleep h =>
    exact hf.go h (by simp [Pc.Fits, h.running]) rfl (by simp [h.running]) (fun _ hx => by simp_all [Pc.exits])

theorem resume_holdsWait (pc : Pc) (e : Entry) : (resume pc e).1.holdsWait = pc.holdsWait := by
  cases pc with
  | asleep x => cases x <;> rfl
  | _ => rfl

/-- The lock is taken by who finds it free, and released by who holds it. -/
theorem Move.lock (h : Move s p pc e lk ev) (hl : ∀ r, (s.pc r).holdsWait = true ↔ s.waitLock = some r) :
    (pc.holdsWait = true ↔ lk = some p) ∧ ∀ r, r ≠ p → (lk = some r ↔ s.waitLock = some r) := by
  have hp := hl p
  have hfree : s.waitLock = some p → ∀ r, r ≠ p → (none = some r ↔ s.waitLock = some r) := by
    intro hl r hr
    simp [hl, hr.symm]
  cases h with
  | exitLock h hn | waitLock h hn => simp [Pc.holdsWait, hn, eq_comm]
  | exitRelease h | waitRelease h =>
    rw [h] at hp
    exact ⟨by simp [Pc.holdsWait], hfree (hp.mp rfl)⟩
  | waitFails h _ _ | waitNone h =>
    rw [h.pc] at hp
    exact ⟨by simp [Pc.holdsWait], hfree (hp.mp rfl)⟩
  | dispatch hr ho =>
    rw [resume_holdsWait]
    exact ⟨hp, fun _ _ => Iff.rfl⟩
  | exitSched h | waitChan h | waitSched h =>
    rw [h] at hp
    exact ⟨hp, fun _ _ => Iff.rfl⟩
  | fork h | exit h _ | wait h | kill h | tend h | forkNext h | forkFull h | exitClose h | exitCwd h _
  | reparentNext h _ | reparentDone h _ | reparentSelf h | reparentWoken h _ | exitSelf h | exitWoken h _
  | waitNext h _ | waitScanned h _ | waitOn h | waitSleep h | killNext h | killNone h | sleep h | exitSleep h
  | yield h _ _ =>
    rw [h.pc] at hp
    exact ⟨hp, fun _ _ => Iff.rfl⟩

theorem Placed.move (h : Placed s) (hf : Fit p pc e) (hw : pc.holdsWait = true ↔ lk = some p)
    (hl : ∀ r, r ≠ p → (lk = some r ↔ s.waitLock = some r)) : Placed (s.move p pc e lk) := by
  have hproc : ∀ r, (s.move p pc e lk).proc r = if r = p then e else s.proc r := fun r => Function.update_apply ..
  have hpc : ∀ r, (s.move p pc e lk).pc r = if r = p then pc else s.pc r := fun r => Function.update_apply ..
  refine ⟨fun r => ?_, fun r => ?_⟩
  · rw [hproc, hpc]
    split_ifs with hr
    · exact hr ▸ hf
    · exact h.fit r
  · rw [hpc]
    split_ifs with hr
    · rw [hr]
      exact hw
    · exact (h.lock r).trans (hl r hr).symm

theorem Placed.setPc (h : Placed s) (hf : Fit p pc (s.proc p)) (hw : pc.holdsWait = (s.pc p).holdsWait) :
    Placed (s.setPc p pc) := by
  rw [Sys.setPc_eq_move]
  exact h.move hf (hw ▸ h.lock p) fun _ _ => Iff.rfl

theorem Placed.setProc (h : Placed s) (hf : Fit q (s.pc q) e) : Placed (s.setProc q e) := by
  rw [Sys.setProc_eq_move]
  exact h.move hf (h.lock q) fun _ _ => Iff.rfl

/-- Only its state matters for how an entry fits, and the channel of a sleeper. -/
theorem Fit.congr {e' : Entry} (h : Fit p pc e) (hs : e'.state = e.state) (hc : e'.chan = e.chan) : Fit p pc e' := by
  obtain ⟨h1, h2, h3, h4⟩ := h
  rw [← hs] at h1 h2 h3 h4
  rw [← hc] at h2
  exact ⟨h1, h2, h3, h4⟩

/-- An entry whose lock is free can be woken. -/
theorem Fit.wake {e' : Entry} (h : Fit p pc e) (ho : pc.holdsOwn = false) (hs : e.state = .sleeping)
    (hs' : e'.state = .runnable) : Fit p pc e' := by
  obtain ⟨h1, h2, h3, h4⟩ := h
  rw [hs] at h1 h3 h4
  refine ⟨?_, fun _ h => by simp [hs'] at h, fun hp => ⟨(h3 hp).1, by simp [hs']⟩, fun hp => (by cases h4 hp)⟩
  rw [hs']
  cases pc <;> simp_all [Pc.Fits, Pc.holdsOwn]

theorem Visit.fit (h : Visit s j e p pc ev) (hf : Fit j (s.pc j) (s.proc j)) (ho : s.locked j = false) :
    Fit j (s.pc j) e := by
  have hwake : ∀ c, Fit j (s.pc j) ((s.proc j).wakeup c) := by
    intro c
    unfold Entry.wakeup
    split_ifs with hw
    · exact hf.wake ho hw.1 rfl
    · exact hf
  cases h with
  | kill h hj hp =>
    unfold Entry.kill
    split_ifs with hs
    · exact hf.wake ho hs rfl
    · exact hf.congr rfl rfl
  | _ => exact hwake _

/-- The visitor goes on; `kill` may have visited its own entry. -/
theorem Visit.fit_visitor (h : Visit s j e p pc ev) (hs : Placed s) (ho : s.locked j = false) :
    Fit p pc ((s.setProc j e).proc p) ∧ pc.holdsWait = (s.pc p).holdsWait := by
  have he := h.fit (hs.fit j) ho
  simp only [Sys.setProc, Function.update_apply]
  cases h with
  | other => exact ⟨by simpa using he, rfl⟩
  | reparent h hp | exit h hp =>
    rw [if_neg hp.symm, h.pc]
    exact ⟨(hs.fit p).go h (by simp [Pc.Fits, h.running]) rfl (by simp [h.running]) (fun _ hx => hx), rfl⟩
  | kill h hj hp =>
    rw [h.pc]
    refine ⟨?_, rfl⟩
    split_ifs with hpj
    · subst hpj
      exact (hs.fit p).go h (by simp [Pc.Fits, Entry.kill, h.running]) rfl (by simp [Entry.kill, h.running])
        (fun _ _ => rfl)
    · exact (hs.fit p).go h (by simp [Pc.Fits, h.running]) rfl (by simp [h.running]) (fun _ _ => rfl)

/-- A RUNNING process changes the entry `q` and goes on. -/
theorem Placed.goes {pc0 : Pc} (h : Placed s) (hr : s.Runs p pc0) (hq : Fit q (s.pc q) e)
    (hqp : q = p → e.state = .running) (hp : s'.proc = Function.update s.proc q e)
    (hpc : s'.pc = Function.update s.pc p pc) (hs : pc.Fits .running) (hc : pc.inWait = false)
    (h0 : pc0.exits = false → pc.exits = false) (hw : pc.holdsWait = true ↔ s'.waitLock = some p)
    (hl : ∀ r, r ≠ p → (s'.waitLock = some r ↔ s.waitLock = some r)) : Placed s' := by
  have hrun : (s'.proc p).state = .running := by
    rw [hp, Function.update_apply]
    split_ifs with hpq
    · exact hqp hpq.symm
    · exact hr.running
  refine ⟨fun r => ?_, fun r => ?_⟩
  · rw [hpc, Function.update_apply]
    split_ifs with hrp
    · rw [hrp]
      exact (h.fit p).go hr (hrun ▸ hs) hc (by simp [hrun]) (fun _ => h0)
    · rw [hp, Function.update_apply]
      split_ifs with hrq
      · exact hrq ▸ hq
      · exact h.fit r
  · rw [hpc, Function.update_apply]
    split_ifs with hrp
    · exact hrp ▸ hw
    · exact (h.lock r).trans (hl r hrp).symm

/-- **A step keeps every process in a place that fits.** -/
theorem placed_change (h : Placed s) (hfork : ∀ p np pid, s.pc p = .forkRun np pid → (s.proc np).state = .used)
    (hc : Change s p s' ev) : Placed s' := by
  have hl := h.lock p
  cases hc with
  | move hm =>
    obtain ⟨h1, h2⟩ := hm.lock h.lock
    exact h.move (hm.fit (h.fit p)) h1 h2
  | visit hl hv =>
    obtain ⟨h1, h2⟩ := hv.fit_visitor h hl
    exact (h.setProc (hv.fit (h.fit _) hl)).setPc h1 h2
  | @forkFails _ np n _ hr hu hev =>
    rw [hr.pc] at hl
    have hne : np ≠ p := fun hp => by simp [hp, hr.running] at hu
    exact h.goes hr ((h.fit np).free ((h.fit np).dead_of_unused hu) rfl) (fun hp => absurd hp hne) rfl rfl
      (by simp [Pc.Fits]) rfl (fun _ => rfl) hl fun _ _ => Iff.rfl
  | @forkTakes _ np n hr hn hu =>
    have hd := (h.fit np).dead_of_unused hu
    have hne : np ≠ p := fun hp => by simp [hp, hr.running] at hu
    have hl' := h.lock np
    rw [hd] at hl'
    have hfit : Fit np .user (forkCopy (s.proc p)
        { s.proc np with pid := s.nextpid, state := .used, trapframe := true, pagetable := true }) := by
      refine ⟨.inl rfl, fun hi => (by cases hi), fun h0 => ?_, fun hlt => by omega⟩
      have := ((h.fit np).init h0).1
      simp [hd, Pc.exits] at this
    have h1 : Placed (s.move np .user _ s.waitLock) := h.move hfit hl' fun _ _ => Iff.rfl
    have hr1 : (s.move np .user (forkCopy (s.proc p)
        { s.proc np with pid := s.nextpid, state := .used, trapframe := true, pagetable := true })
        s.waitLock).Runs p (.forkScan np) :=
      ⟨by simp [Sys.move, hne.symm, hr.pc], by simp [Sys.move, hne.symm, hr.running]⟩
    rw [hr.pc] at hl
    refine h1.goes hr1 (h1.fit np) (fun hp => absurd hp hne) ?_ rfl (by simp [Pc.Fits]) rfl (fun _ => rfl) hl
      fun _ _ => Iff.rfl
    exact (Function.update_eq_self np _).symm
  | @forkParent _ np pid hr hn =>
    rw [hr.pc] at hl
    have hfit : Fit np (s.pc np) { s.proc np with parent := some p } := (h.fit np).congr rfl rfl
    exact h.goes hr hfit (fun hp => hp ▸ hr.running) rfl rfl (by simp [Pc.Fits]) rfl
      (fun _ => rfl) hl fun _ _ => Iff.rfl
  | @forkRuns _ np pid hr =>
    rw [hr.pc] at hl
    have hu := hfork p np pid hr.pc
    have hne : np ≠ p := fun hp => by simp [hp, hr.running] at hu
    have hfit : Fit np (s.pc np) { s.proc np with state := .runnable } := by
      rw [(h.fit np).user_of_used hu]
      refine ⟨.inr (.inr rfl), fun hi => (by cases hi), fun h0 => ⟨rfl, by simp⟩, fun hlt => ?_⟩
      have := (h.fit np).range hlt
      simp [hu] at this
    exact h.goes hr hfit (fun hp => absurd hp hne) rfl rfl (by simp [Pc.Fits]) rfl (fun _ => rfl) hl
      fun _ _ => Iff.rfl
  | @reparent _ i status hr hi =>
    rw [hr.pc] at hl
    have hfit : Fit i (s.pc i) { s.proc i with parent := some 0 } := (h.fit i).congr rfl rfl
    exact h.goes hr hfit (fun hp => hp ▸ hr.running) rfl rfl (by simp [Pc.Fits]) rfl
      (fun hx => by cases hx) hl fun _ _ => Iff.rfl
  | @reap _ q addr k hr hp hz hul =>
    rw [hr.pc] at hl
    have hne : q ≠ p := fun hp => by simp [hp, hr.running] at hz
    refine h.goes hr ((h.fit q).free ((h.fit q).dead_of_zombie hz hul) rfl) (fun hp => absurd hp hne) rfl rfl
      (by simp [Pc.Fits]) rfl (fun _ => rfl) (by simp [Pc.holdsWait, Sys.setProc, Sys.setPc]) fun r hrp => ?_
    rw [hl.mp rfl]
    simp [Sys.setProc, Sys.setPc, hrp.symm]
  | @exits _ status hr =>
    rw [hr.pc] at hl
    have hf := h.fit p
    have hfit : Fit p .exitRelease { s.proc p with xstate := status, state := .zombie } := by
      refine ⟨rfl, fun hi => (by cases hi), fun h0 => ?_, fun hlt => ?_⟩
      · have := (hf.init h0).1
        simp [hr.pc, Pc.exits] at this
      · have := hf.range hlt
        simp [hr.running] at this
    exact h.move hfit hl fun _ _ => Iff.rfl

/-! ### The family -/

/-- What an entry is to the others: free, being forked, a process, or what is left of one. -/
inductive Kind
  | free | forked | alive | zombie
  deriving DecidableEq

/-- The family is as `fork`, `exit` and `wait` want it: `K` are the kinds of the
entries, `P` their parents, `F` the forks in progress (the child, and whether it
has been given its parent yet) and `D` the number of entries of which `reparent`
has made sure, for its caller, that they are not its children. -/
structure Tree (K : ℕ → Kind) (P : ℕ → Option ℕ) (F : ℕ → Option (ℕ × Bool)) (D : ℕ → ℕ) : Prop where
  free : ∀ q, K q = .free → P q = none
  parentAlive : ∀ q r, P q = some r → K r = .alive
  hasParent : ∀ q, q ≠ 0 → K q = .alive ∨ K q = .zombie → P q ≠ none
  forks : ∀ p np b, F p = some (np, b) → K np = .forked ∧ (b = true → P np ≠ none)
  forker : ∀ q, K q = .forked → ∃ p b, F p = some (q, b)
  unique : ∀ p p' np b b', F p = some (np, b) → F p' = some (np, b') → p = p'
  disowned : ∀ p q, q < D p → P q ≠ some p

namespace Tree

variable {K : ℕ → Kind} {P : ℕ → Option ℕ} {F : ℕ → Option (ℕ × Bool)} {D D' : ℕ → ℕ} {np : ℕ}

theorem setDisowned (h : Tree K P F D) (hd : ∀ p q, q < D' p → P q ≠ some p) : Tree K P F D' :=
  ⟨h.free, h.parentAlive, h.hasParent, h.forks, h.forker, h.unique, hd⟩

/-- `p` starts to fork into the free entry `np`. -/
theorem take (h : Tree K P F D) (hn : K np = .free) (hp : F p = none) :
    Tree (Function.update K np .forked) P (Function.update F p (some (np, false))) D := by
  obtain ⟨hfree, halive, hpar, hforks, hforker, huniq, hdis⟩ := h
  refine ⟨?_, ?_, ?_, ?_, fun q hq => ?_, ?_, hdis⟩
  case refine_5 =>
    by_cases hqn : q = np
    · exact ⟨p, false, by rw [hqn, Function.update_self]⟩
    · rw [Function.update_of_ne hqn] at hq
      obtain ⟨p', b, hb⟩ := hforker q hq
      have hne : p' ≠ p := by
        rintro rfl
        simp [hp] at hb
      exact ⟨p', b, by rw [Function.update_of_ne hne, hb]⟩
  all_goals grind [Function.update_apply]

/-- `p` becomes the parent of the entry it is forking into. -/
theorem adopt (h : Tree K P F D) (hf : F p = some (np, false)) (hp : K p = .alive) (hd : D p = 0) :
    Tree K (Function.update P np (some p)) (Function.update F p (some (np, true))) D := by
  obtain ⟨hfree, halive, hpar, hforks, hforker, huniq, hdis⟩ := h
  refine ⟨?_, ?_, ?_, ?_, fun q hq => ?_, ?_, ?_⟩
  case refine_5 =>
    obtain ⟨p', b, hb⟩ := hforker q hq
    by_cases hpp : p' = p
    · obtain ⟨rfl, -⟩ : np = q ∧ false = b := by simpa [hpp, hf] using hb
      exact ⟨p, true, Function.update_self ..⟩
    · exact ⟨p', b, by rw [Function.update_of_ne hpp, hb]⟩
  all_goals grind [Function.update_apply]

/-- The fork of `p` is complete. -/
theorem start (h : Tree K P F D) (hf : F p = some (np, true)) :
    Tree (Function.update K np .alive) P (Function.update F p none) D := by
  obtain ⟨hfree, halive, hpar, hforks, hforker, huniq, hdis⟩ := h
  refine ⟨?_, ?_, ?_, ?_, fun q hq => ?_, ?_, hdis⟩
  case refine_5 =>
    have hqn : q ≠ np := by
      rintro rfl
      simp at hq
    rw [Function.update_of_ne hqn] at hq
    obtain ⟨p', b, hb⟩ := hforker q hq
    have hne : p' ≠ p := by
      rintro rfl
      rw [hf] at hb
      exact hqn (Prod.mk.inj (Option.some.inj hb)).1.symm
    exact ⟨p', b, by rw [Function.update_of_ne hne, hb]⟩
  all_goals grind [Function.update_apply]

/-- A child `q` is given to init. -/
theorem reparent (h : Tree K P F D) (hq : P q ≠ none) (h0 : K 0 = .alive) (hd : D 0 = 0) :
    Tree K (Function.update P q (some 0)) F D := by
  obtain ⟨hfree, halive, hpar, hforks, hforker, huniq, hdis⟩ := h
  refine ⟨?_, ?_, ?_, ?_, hforker, huniq, ?_⟩
  all_goals grind [Function.update_apply]

/-- A zombie is freed. -/
theorem reap (h : Tree K P F D) (hq : K q = .zombie) :
    Tree (Function.update K q .free) (Function.update P q none) F D := by
  obtain ⟨hfree, halive, hpar, hforks, hforker, huniq, hdis⟩ := h
  refine ⟨?_, ?_, ?_, ?_, ?_, huniq, ?_⟩
  all_goals grind [Function.update_apply]

/-- A process without children becomes a zombie. -/
theorem die (h : Tree K P F D) (hp : K p = .alive) (h0 : p ≠ 0) (hd : ∀ q, P q ≠ some p) :
    Tree (Function.update K p .zombie) P F D := by
  obtain ⟨hfree, halive, hpar, hforks, hforker, huniq, hdis⟩ := h
  refine ⟨?_, ?_, ?_, ?_, ?_, huniq, hdis⟩
  all_goals grind [Function.update_apply]

end Tree

/-! ### The family of a state -/

def ProcState.kind : ProcState → Kind
  | .unused => .free
  | .used => .forked
  | .sleeping | .runnable | .running => .alive
  | .zombie => .zombie

/-- The fork that is in progress here: the child, and whether it has its parent. -/
def Pc.fork : Pc → Option (ℕ × Bool)
  | .forkParent np _ => some (np, false)
  | .forkRun np _ => some (np, true)
  | _ => none

/-- The entries that `reparent` has dealt with when the process stands here. -/
def Pc.disowned : Pc → ℕ
  | .reparent _ i => i
  | .reparentWake _ i _ => i + 1
  | .exitWake .. | .exitState _ => NPROC
  | _ => 0

namespace Sys

def kind (s : Sys) : ℕ → Kind := (fun e => e.state.kind) ∘ s.proc

def parent (s : Sys) : ℕ → Option ℕ := Entry.parent ∘ s.proc

def fork (s : Sys) : ℕ → Option (ℕ × Bool) := Pc.fork ∘ s.pc

def disowned (s : Sys) : ℕ → ℕ := Pc.disowned ∘ s.pc

/-- The family of the processes of `s`. -/
def Family (s : Sys) : Prop := Tree s.kind s.parent s.fork s.disowned

theorem kind_setProc (s : Sys) (q : ℕ) (e : Entry) : (s.setProc q e).kind = Function.update s.kind q e.state.kind :=
  Function.comp_update ..

theorem parent_setProc (s : Sys) (q : ℕ) (e : Entry) : (s.setProc q e).parent = Function.update s.parent q e.parent :=
  Function.comp_update ..

theorem fork_setPc (s : Sys) (p : ℕ) (pc : Pc) : (s.setPc p pc).fork = Function.update s.fork p pc.fork :=
  Function.comp_update ..

theorem disowned_setPc (s : Sys) (p : ℕ) (pc : Pc) :
    (s.setPc p pc).disowned = Function.update s.disowned p pc.disowned :=
  Function.comp_update ..

end Sys

theorem Tree.family {K : ℕ → Kind} {P : ℕ → Option ℕ} {F : ℕ → Option (ℕ × Bool)} {D : ℕ → ℕ} (h : Tree K P F D)
    (hk : s.kind = K) (hp : s.parent = P) (hf : s.fork = F) (hd : ∀ p q, q < s.disowned p → P q ≠ some p) :
    s.Family := by
  rw [Sys.Family, hk, hp, hf]
  exact h.setDisowned hd

theorem Fit.init_alive (h : Fit 0 pc e) : e.state.kind = .alive ∧ pc.disowned = 0 := by
  have hs := h.state
  obtain ⟨h1, h2⟩ := h.init rfl
  cases pc <;> simp_all [Pc.Fits, Pc.exits, ProcState.kind, Pc.disowned]
  all_goals rcases hs with hs | hs <;> simp [hs]

theorem Fit.ne_zero (h : Fit p pc e) (hx : pc.exits = true) : p ≠ 0 := by
  intro h0
  simp [(h.init h0).1] at hx

theorem resume_kind (hr : e.state = .runnable) :
    (resume pc e).2.state.kind = e.state.kind ∧ (resume pc e).2.parent = e.parent ∧ (resume pc e).1.fork = pc.fork ∧
      (resume pc e).1.disowned = pc.disowned := by
  cases pc with
  | asleep x => cases x <;> simp [resume, hr, ProcState.kind, Pc.fork, Pc.disowned]
  | _ => simp [resume, hr, ProcState.kind, Pc.fork, Pc.disowned]

/-- A process that goes on stays what it is to the others. -/
theorem Move.kin (h : Move s p pc e lk ev) (hf : Fit p (s.pc p) (s.proc p)) :
    e.state.kind = (s.proc p).state.kind ∧ e.parent = (s.proc p).parent ∧ pc.fork = (s.pc p).fork := by
  cases h with
  | dispatch hr ho => exact ⟨(resume_kind hr).1, (resume_kind hr).2.1, (resume_kind hr).2.2.1⟩
  | waitChan h =>
    have hs : (s.proc p).state = .running := by
      have := hf.state
      rwa [h] at this
    exact ⟨by simp [hs, ProcState.kind], rfl, (congrArg Pc.fork h).symm⟩
  | exitRelease h | exitSched h | waitRelease h | waitSched h => exact ⟨rfl, rfl, (congrArg Pc.fork h).symm⟩
  | fork h | exit h _ | wait h | kill h | tend h | forkNext h | forkFull h | exitClose h | exitCwd h _ | exitLock h _
  | reparentNext h _ | reparentDone h _ | reparentSelf h | reparentWoken h _ | exitSelf h | exitWoken h _
  | waitLock h _ | waitNext h _ | waitFails h _ _ | waitScanned h _ | waitNone h | waitOn h | waitSleep h
  | killNext h | killNone h | sleep h | exitSleep h | yield h _ _ =>
    exact ⟨by simp [h.running, ProcState.kind], rfl, (congrArg Pc.fork h.pc).symm⟩

/-- `reparent` passes an entry only when it is not a child. -/
theorem Move.disowned (h : Move s p pc e lk ev) (hd : ∀ q, q < (s.pc p).disowned → (s.proc q).parent ≠ some p) :
    ∀ q, q < pc.disowned → (s.proc q).parent ≠ some p := by
  intro q hq
  cases h with
  | dispatch hr ho =>
    rw [(resume_kind hr).2.2.2] at hq
    exact hd q hq
  | reparentNext h hi =>
    rw [h.pc] at hd
    rcases Nat.lt_succ_iff_lt_or_eq.mp hq with hlt | rfl
    · exact hd q hlt
    · exact hi
  | reparentDone h hi =>
    rw [h.pc] at hd
    have hq' : q < NPROC := hq
    exact hd q (lt_of_lt_of_le hq' (Nat.le_of_not_lt hi))
  | reparentSelf h | reparentWoken h _ | exitSelf h | exitWoken h _ | yield h _ _ =>
    rw [h.pc] at hd
    exact hd q hq
  | _ => exact absurd hq (Nat.not_lt_zero q)

theorem Visit.kin (h : Visit s j e p pc ev) :
    e.state.kind = (s.proc j).state.kind ∧ e.parent = (s.proc j).parent ∧ pc.fork = (s.pc p).fork ∧
      pc.disowned ≤ (s.pc p).disowned := by
  have hwake : ∀ c, ((s.proc j).wakeup c).state.kind = (s.proc j).state.kind ∧
      ((s.proc j).wakeup c).parent = (s.proc j).parent := by
    intro c
    unfold Entry.wakeup
    split_ifs with hw
    · exact ⟨by rw [hw.1]; rfl, rfl⟩
    · exact ⟨rfl, rfl⟩
  cases h with
  | other => exact ⟨(hwake _).1, (hwake _).2, rfl, le_rfl⟩
  | reparent h hp | exit h hp =>
    rw [h.pc]
    exact ⟨(hwake _).1, (hwake _).2, rfl, le_rfl⟩
  | kill h hj hp =>
    rw [h.pc]
    refine ⟨?_, rfl, rfl, le_rfl⟩
    simp only [Entry.kill]
    split_ifs with hs
    · rw [hs]
      rfl
    · rfl

theorem Sys.disowned_setPc_le (hd : pc.disowned ≤ (s.pc p).disowned) (r : ℕ) :
    (s.setPc p pc).disowned r ≤ s.disowned r := by
  rw [Sys.disowned_setPc, Function.update_apply]
  split_ifs with hr
  · exact hr ▸ hd
  · exact le_rfl

theorem Sys.fork_setPc_same (hf : pc.fork = (s.pc p).fork) : (s.setPc p pc).fork = s.fork := by
  rw [Sys.fork_setPc, hf]
  exact Function.update_eq_self p s.fork

theorem Sys.kind_setProc_same (hk : e.state.kind = (s.proc q).state.kind) : (s.setProc q e).kind = s.kind := by
  rw [Sys.kind_setProc, hk]
  exact Function.update_eq_self q s.kind

theorem Sys.parent_setProc_same (hp : e.parent = (s.proc q).parent) : (s.setProc q e).parent = s.parent := by
  rw [Sys.parent_setProc, hp]
  exact Function.update_eq_self q s.parent

/-- **A step keeps the family in order.** -/
theorem family_change (h : s.Family) (hs : Placed s) (hc : Change s p s' ev) : s'.Family := by
  have hle : ∀ {pc : Pc}, pc.disowned = 0 → ∀ r, (s.setPc p pc).disowned r ≤ s.disowned r :=
    fun h0 r => Sys.disowned_setPc_le (by simp [h0]) r
  cases hc with
  | @move _ pc e lk ev hm =>
    obtain ⟨hk, hp, hf⟩ := hm.kin (hs.fit p)
    refine h.family (Sys.kind_setProc_same hk) (Sys.parent_setProc_same hp) (Sys.fork_setPc_same hf) ?_
    intro r q hq
    have hq' : q < (s.setPc p pc).disowned r := hq
    rw [Sys.disowned_setPc, Function.update_apply] at hq'
    split_ifs at hq' with hr
    · subst hr
      exact hm.disowned (h.disowned r) q hq'
    · exact h.disowned r q hq'
  | visit hl hv =>
    obtain ⟨hk, hp, hf, hd⟩ := hv.kin
    refine h.family (Sys.kind_setProc_same hk) (Sys.parent_setProc_same hp) (Sys.fork_setPc_same hf) ?_
    exact fun r q hq => h.disowned r q (lt_of_lt_of_le hq (Sys.disowned_setPc_le hd r))
  | @forkFails _ np n _ hr hu hev =>
    have hfree : (s.proc np).parent = none := h.free np (congrArg ProcState.kind hu)
    exact h.family (Sys.kind_setProc_same (by simp [hu, freeproc])) (Sys.parent_setProc_same hfree.symm)
      (Sys.fork_setPc_same (congrArg Pc.fork hr.pc).symm)
      fun r q hq => h.disowned r q (lt_of_lt_of_le hq (hle rfl r))
  | @forkTakes _ np n hr hn hu =>
    have hd := (hs.fit np).dead_of_unused hu
    have hfork : (s.setPc np .user).fork = s.fork := Sys.fork_setPc_same (congrArg Pc.fork hd).symm
    have hdis : ∀ r, ((s.setPc np .user).setPc p (.forkParent np s.nextpid)).disowned r ≤ s.disowned r := fun r =>
      (Sys.disowned_setPc_le (Nat.zero_le _) r).trans (Sys.disowned_setPc_le (Nat.zero_le _) r)
    have h1 := h.take (congrArg ProcState.kind hu) (congrArg Pc.fork hr.pc)
    refine h1.family (Sys.kind_setProc ..) (Sys.parent_setProc_same rfl) ?_
      fun r q hq => h.disowned r q (lt_of_lt_of_le hq (hdis r))
    rw [← hfork]
    exact Sys.fork_setPc ..
  | @forkParent _ np pid hr hn =>
    have h1 := h.adopt (congrArg Pc.fork hr.pc) (congrArg ProcState.kind hr.running) (congrArg Pc.disowned hr.pc)
    exact h1.family (Sys.kind_setProc_same rfl) (Sys.parent_setProc ..) (Sys.fork_setPc ..)
      fun r q hq => h1.disowned r q (lt_of_lt_of_le hq (hle rfl r))
  | @forkRuns _ np pid hr =>
    have h1 := h.start (congrArg Pc.fork hr.pc)
    exact h1.family (Sys.kind_setProc ..) (Sys.parent_setProc_same rfl) (Sys.fork_setPc ..)
      fun r q hq => h1.disowned r q (lt_of_lt_of_le hq (hle rfl r))
  | @reparent _ i status hr hi =>
    obtain ⟨h0, hd0⟩ := (hs.fit 0).init_alive
    have hp0 : p ≠ 0 := (hs.fit p).ne_zero (by rw [hr.pc]; rfl)
    have h1 := h.reparent (ne_of_eq_of_ne hi (Option.some_ne_none p)) h0 hd0
    refine h1.family (Sys.kind_setProc_same rfl) (Sys.parent_setProc ..)
      (Sys.fork_setPc_same (congrArg Pc.fork hr.pc).symm) fun r q hq => ?_
    have hq' : q < (s.setPc p (.reparentWake status i 0)).disowned r := hq
    rw [Sys.disowned_setPc, Function.update_apply] at hq'
    split_ifs at hq' with hrp
    · by_cases hqi : q = i
      · rw [hqi, Function.update_self, hrp]
        simpa using hp0.symm
      · have hlt : q < i := lt_of_le_of_ne (Nat.le_of_lt_succ hq') hqi
        exact h1.disowned r q (by rw [hrp, Sys.disowned, Function.comp, hr.pc]; exact hlt)
    · exact h1.disowned r q hq'
  | @reap _ q addr k hr hp hz hul =>
    have h1 := h.reap (congrArg ProcState.kind hz)
    exact h1.family (Sys.kind_setProc ..) (Sys.parent_setProc ..)
      (Sys.fork_setPc_same (congrArg Pc.fork hr.pc).symm)
      fun r q hq => h1.disowned r q (lt_of_lt_of_le hq (hle rfl r))
  | @exits _ status hr =>
    have hp0 : p ≠ 0 := (hs.fit p).ne_zero (by rw [hr.pc]; rfl)
    have hnone : ∀ q, s.parent q ≠ some p := by
      intro q
      by_cases hq : q < NPROC
      · exact h.disowned p q (by rw [Sys.disowned, Function.comp, hr.pc]; exact hq)
      · have hu := (hs.fit q).range (Nat.le_of_not_lt hq)
        rw [h.free q (congrArg ProcState.kind hu)]
        simp
    have h1 := h.die (congrArg ProcState.kind hr.running) hp0 hnone
    exact h1.family (Sys.kind_setProc ..) (Sys.parent_setProc_same rfl)
      (Sys.fork_setPc_same (congrArg Pc.fork hr.pc).symm)
      fun r q hq => h1.disowned r q (lt_of_lt_of_le hq (hle rfl r))

end Procs
end Xv6
