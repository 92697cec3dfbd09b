/-
# One CPU to a process

What keeps two CPUs off one kernel stack. A process marks itself RUNNABLE,
SLEEPING or ZOMBIE while it still runs on its stack, but under its lock, and
the lock goes over to the scheduler of the same CPU, which lets it go only once
it is back on its own stack. So whoever takes the lock of a process that is not
RUNNING finds it off every CPU, with its registers in its context.

`Locks` says that the locks are held by the CPUs whose code says so, whoever's
stack they are on. `Exclusive` is the discipline itself, stated of functions:
which process a CPU has as `c->proc` (`J`), whether it is still RUNNING (`R`) or
has left that state (`D`), and whose registers are in the CPU (`O`).

Key definitions: `Sched.Locks`, `Sched.Exclusive`, `Sched.Inv`.
Key theorems: `Sched.inv_step`, `Sched.scheduler_exclusive`.
-/
import Xv6.Sched

namespace Xv6
namespace Sched

open Procs TraceSys

/-! ### Locks held by CPUs -/

/-- The lock of `p` is held by the CPU that is in a section under it; `H` are the locks
that the CPUs hold, each at most one. -/
def Locks (H lock : ℕ → Option ℕ) : Prop := ∀ c p, H c = some p ↔ lock p = some c

namespace Locks

variable {H lock : ℕ → Option ℕ} {c d p : ℕ}

theorem acquire (h : Locks H lock) (hc : H c = none) (hp : lock p = none) :
    Locks (Function.update H c (some p)) (Function.update lock p (some c)) := by
  intro d q
  have hd := h d q
  have hcq := h c q
  simp only [Function.update_apply]
  split_ifs with hdc hqp hqp
  · simp [hdc, hqp]
  · simp [hdc, ← hcq, hc, Ne.symm hqp]
  · subst hqp
    simp [hd, hp, Ne.symm hdc]
  · exact hd

theorem release (h : Locks H lock) (hc : H c = some p) :
    Locks (Function.update H c none) (Function.update lock p none) := by
  intro d q
  have hd := h d q
  have hcp := (h c p).mp hc
  have hcq := h c q
  simp only [Function.update_apply]
  split_ifs with hdc hqp hqp
  · simp
  · simp only [false_iff, hdc]
    rw [← hcq, hc]
    simpa using Ne.symm hqp
  · subst hqp
    simp [hd, hcp, Ne.symm hdc]
  · exact hd

theorem eq_of_holds (h : Locks H lock) (hc : H c = some p) (hd : H d = some p) : c = d :=
  Option.some.inj (((h c p).mp hc).symm.trans ((h d p).mp hd))

end Locks

/-! ### The discipline -/

/-- Each process is served by one CPU at most. `R` are the processes that the CPUs have and
that are RUNNING, `D` those that have left that state but not yet their CPU, `O` those
whose registers are in the CPU; `st` are the states of the processes, and `saved` says
that the context of a process has its registers. -/
structure Exclusive (R D O : ℕ → Option ℕ) (st : ℕ → ProcState) (saved : ℕ → Prop) : Prop where
  one : ∀ c d p, R c = some p ∨ D c = some p → R d = some p ∨ D d = some p → c = d
  runs : ∀ c p, R c = some p → st p = .running
  left : ∀ c p, D c = some p → st p ≠ .running
  cpu : ∀ p, st p = .running → ∃ c, R c = some p
  ctx : ∀ p, st p ≠ .unused → st p ≠ .zombie → (∃ c, O c = some p) ∨ saved p

namespace Exclusive

variable {R D O : ℕ → Option ℕ} {st : ℕ → ProcState} {saved saved' : ℕ → Prop} {c p q : ℕ} {st' : ProcState}

/-- The CPU `c` takes a RUNNABLE process that no CPU has. -/
theorem choose (h : Exclusive R D O st saved) (hp : st p = .runnable) (hn : ∀ d, R d ≠ some p ∧ D d ≠ some p)
    (hr : R c = none) (hd : D c = none) :
    Exclusive (Function.update R c (some p)) D O (Function.update st p .running) saved := by
  obtain ⟨h1, h2, h3, h4, h5⟩ := h
  refine ⟨?_, ?_, ?_, fun q hq => ?_, ?_⟩
  case refine_4 =>
    by_cases hqp : q = p
    · exact ⟨c, by rw [hqp, Function.update_self]⟩
    · rw [Function.update_of_ne hqp] at hq
      obtain ⟨d, hdq⟩ := h4 q hq
      have hdc : d ≠ c := by
        rintro rfl
        simp [hr] at hdq
      exact ⟨d, by rw [Function.update_of_ne hdc, hdq]⟩
  all_goals grind [Function.update_apply]

/-- The registers of `p` are loaded. -/
theorem load (h : Exclusive R D O st saved) (hO : O c = none) (hs : ∀ q, q ≠ p → saved q → saved' q) :
    Exclusive R D (Function.update O c (some p)) st saved' := by
  refine ⟨h.one, h.runs, h.left, h.cpu, fun q hu hz => ?_⟩
  by_cases hqp : q = p
  · exact .inl ⟨c, by rw [hqp, Function.update_self]⟩
  · rcases h.ctx q hu hz with ⟨d, hd⟩ | hsq
    · have hdc : d ≠ c := by
        rintro rfl
        simp [hO] at hd
      exact .inl ⟨d, by rw [Function.update_of_ne hdc, hd]⟩
    · exact .inr (hs q hqp hsq)

/-- The process on `c` is not RUNNING any more, but still on its stack. -/
theorem depart (h : Exclusive R D O st saved) (hr : R c = some p) (hO : O c = some p) (hs : st' ≠ .running) :
    Exclusive (Function.update R c none) (Function.update D c (some p)) O (Function.update st p st') saved := by
  obtain ⟨h1, h2, h3, h4, h5⟩ := h
  refine ⟨?_, ?_, ?_, fun q hq => ?_, ?_⟩
  case refine_4 =>
    have hqp : q ≠ p := by
      rintro rfl
      rw [Function.update_self] at hq
      exact hs hq
    rw [Function.update_of_ne hqp] at hq
    obtain ⟨d, hd⟩ := h4 q hq
    have hdc : d ≠ c := by
      rintro rfl
      rw [hr] at hd
      exact hqp (Option.some.inj hd).symm
    exact ⟨d, by rw [Function.update_of_ne hdc, hd]⟩
  all_goals grind [Function.update_apply]

/-- The registers of `p` are saved. -/
theorem save (h : Exclusive R D O st saved) (hO : O c = some p) (hs : ∀ q, saved q → saved' q) (hp : saved' p) :
    Exclusive R D (Function.update O c none) st saved' := by
  refine ⟨h.one, h.runs, h.left, h.cpu, fun q hu hz => ?_⟩
  rcases h.ctx q hu hz with ⟨d, hd⟩ | hsq
  · by_cases hdc : d = c
    · rw [hdc, hO] at hd
      exact .inr (Option.some.inj hd ▸ hp)
    · exact .inl ⟨d, by rw [Function.update_of_ne hdc, hd]⟩
  · exact .inr (hs q hsq)

/-- The CPU is rid of the process. -/
theorem clear (h : Exclusive R D O st saved) : Exclusive R (Function.update D c none) O st saved := by
  obtain ⟨h1, h2, h3, h4, h5⟩ := h
  refine ⟨?_, h2, ?_, h4, h5⟩
  all_goals grind [Function.update_apply]

/-- The state of `q` changes, neither from nor to RUNNING; what becomes ready to run has
its registers saved. -/
theorem visit (h : Exclusive R D O st saved) (hr : st' = .running ↔ st q = .running)
    (hs : ∀ r, saved r → saved' r)
    (hq : st' ≠ .unused → st' ≠ .zombie → (st q ≠ .unused ∧ st q ≠ .zombie) ∨ saved' q) :
    Exclusive R D O (Function.update st q st') saved' := by
  have hrun : ∀ r, Function.update st q st' r = .running ↔ st r = .running := by
    intro r
    by_cases hrq : r = q
    · rw [hrq, Function.update_self]
      exact hr
    · rw [Function.update_of_ne hrq]
  refine ⟨h.one, fun c r hc => (hrun r).mpr (h.runs c r hc), fun c r hc hst => h.left c r hc ((hrun r).mp hst),
    fun r hst => h.cpu r ((hrun r).mp hst), fun r hu hz => ?_⟩
  have hctx : st r ≠ .unused → st r ≠ .zombie → (∃ c, O c = some r) ∨ saved' r :=
    fun hu hz => (h.ctx r hu hz).imp id (hs r)
  by_cases hrq : r = q
  · rw [hrq, Function.update_self] at hu hz
    subst hrq
    rcases hq hu hz with ⟨h1, h2⟩ | hsq
    · exact hctx h1 h2
    · exact .inr hsq
  · rw [Function.update_of_ne hrq] at hu hz
    exact hctx hu hz

end Exclusive

/-! ### Forks in progress -/

/-- A `fork` of `p` has taken `q`: `L` are the forks in the registers of the CPUs, `X` those in
the contexts of the processes. -/
def Takes (L : ℕ → Option (ℕ × ℕ)) (X : ℕ → Option ℕ) (p q : ℕ) : Prop := (∃ c, L c = some (p, q)) ∨ X p = some q

/-- What a `fork` has taken is USED, and no other `fork` has it. -/
structure Forks (L : ℕ → Option (ℕ × ℕ)) (X : ℕ → Option ℕ) (st : ℕ → ProcState) : Prop where
  used : ∀ p q, Takes L X p q → st q = .used
  unique : ∀ p p' q, Takes L X p q → Takes L X p' q → p = p'

namespace Forks

variable {L L' : ℕ → Option (ℕ × ℕ)} {X X' : ℕ → Option ℕ} {st st' : ℕ → ProcState} {p q : ℕ}

theorem mono (h : Forks L X st) (hT : ∀ p q, Takes L' X' p q → Takes L X p q)
    (hst : ∀ p q, Takes L' X' p q → st q = .used → st' q = .used) : Forks L' X' st' where
  used p q hq := hst p q hq (h.used p q (hT p q hq))
  unique p p' q hp hp' := h.unique p p' q (hT p q hp) (hT p' q hp')

/-- The `fork` of `p` takes `q`. -/
theorem take (h : Forks L X st) (hq : st q ≠ .used) (hT : ∀ p' q', Takes L' X' p' q' → Takes L X p' q' ∨ p' = p ∧ q' = q)
    (hst : ∀ r, r ≠ q → st' r = st r) (hq' : st' q = .used) : Forks L' X' st' := by
  have hno : ∀ r, ¬ Takes L X r q := fun r hr => hq (h.used r q hr)
  refine ⟨fun r u hu => ?_, fun r r' u hr hr' => ?_⟩
  · rcases hT r u hu with ht | ⟨-, rfl⟩
    · have hne : u ≠ q := by
        rintro rfl
        exact hno r ht
      rw [hst u hne]
      exact h.used r u ht
    · exact hq'
  · rcases hT r u hr with ht | ⟨rfl, rfl⟩ <;> rcases hT r' u hr' with ht' | ⟨rfl, hu⟩
    · exact h.unique r r' u ht ht'
    · exact absurd (hu ▸ ht) (hno r)
    · exact absurd ht' (hno r')
    · rfl

end Forks

/-! ### The CPUs -/

/-- The process is not RUNNING any more here. -/
def Pos.leaving : Pos → Bool
  | .sched _ | .off => true
  | _ => false

/-- The lock of the table that a CPU holds, on the stack of `p`. -/
def Pos.holds (p : ℕ) : Pos → Option ℕ
  | .resumed _ | .forkret | .own _ | .sched _ | .off => some p
  | .visit q _ | .release q => some q
  | .free => none

namespace Loc

def holds : Loc → Option ℕ
  | .scan _ => none
  | .intr _ q _ | .intrRelease _ q => some q
  | .check p | .chosen p | .off p | .back p | .release p => some p
  | .thread p t => t.pos.holds p

/-- What `c->proc` is here. -/
def serves : Loc → Option ℕ
  | .chosen p | .off p | .back p | .thread p _ => some p
  | _ => none

def runs : Loc → Option ℕ
  | .chosen p | .off p => some p
  | .thread p t => if t.pos.leaving then none else some p
  | _ => none

def left : Loc → Option ℕ
  | .back p => some p
  | .thread p t => if t.pos.leaving then some p else none
  | _ => none

/-- The process whose registers are in the CPU here. -/
def live : Loc → Option ℕ
  | .thread p t => if t.pos = .off then none else some p
  | _ => none

/-- The process to which `scheduler` has switched, or is about to. -/
def planned : Loc → Option ℕ
  | .off p | .thread p _ => some p
  | _ => none

/-- The fork in progress in the registers. -/
def np : Loc → Option (ℕ × ℕ)
  | .thread p t => t.np.map fun q => (p, q)
  | _ => none

/-- Whoever makes an entry RUNNABLE in `fork` has taken it. -/
def StartOk : Loc → Prop
  | .thread _ ⟨.visit q .start, np⟩ => np = some q
  | _ => True

variable {l : Loc} {p : ℕ}

theorem serves_iff : l.serves = some p ↔ l.runs = some p ∨ l.left = some p := by
  cases l with
  | thread q t =>
    simp only [serves, runs, left]
    split_ifs <;> simp
  | _ => simp [serves, runs, left]

theorem holds_of_left (h : l.left = some p) : l.holds = some p := by
  cases l with
  | thread q t =>
    obtain ⟨pos, np⟩ := t
    cases pos <;> simp_all [left, holds, Pos.leaving, Pos.holds]
  | _ => simp_all [left, holds]

theorem serves_of_live (h : l.live = some p) : l.serves = some p := by
  cases l with
  | thread q t =>
    simp only [live] at h
    split_ifs at h
    exact h
  | _ => cases h

end Loc

/-- The fields of the CPU are what its place says. -/
structure Cpu.Ok (k : Cpu) : Prop where
  proc : k.proc = k.loc.serves
  context : ∀ p, k.loc.planned = some p → k.context = some p
  start : k.loc.StartOk

namespace Sys

def holds (s : Sys) : ℕ → Option ℕ := (fun k => k.loc.holds) ∘ s.cpu

def runs (s : Sys) : ℕ → Option ℕ := (fun k => k.loc.runs) ∘ s.cpu

def left (s : Sys) : ℕ → Option ℕ := (fun k => k.loc.left) ∘ s.cpu

def live (s : Sys) : ℕ → Option ℕ := (fun k => k.loc.live) ∘ s.cpu

def np (s : Sys) : ℕ → Option (ℕ × ℕ) := (fun k => k.loc.np) ∘ s.cpu

def state (s : Sys) : ℕ → ProcState := Entry.state ∘ s.proc

def savedNp (s : Sys) : ℕ → Option ℕ := (fun x => x.bind Thread.np) ∘ s.context

/-- The context of `p` has its registers: it goes on in `forkret`, or after the `swtch` of `sched`. -/
def Saved (s : Sys) (p : ℕ) : Prop :=
  ∃ t, s.context p = some t ∧ (t.pos = .forkret ∨ ∃ k, t.pos = .resumed k)

end Sys

/-- What holds in every state of a run. -/
structure Inv (s : Sys) : Prop where
  cpus : ∀ c, (s.cpu c).Ok
  locks : Locks s.holds s.lock
  fresh : ∀ c p, s.live c = some p → s.context p = none
  excl : Exclusive s.runs s.left s.live s.state s.Saved
  forks : Forks s.np s.savedNp s.state

variable {s s' : Sys} {c d p q : ℕ} {k : Cpu} {l : Loc} {e e' : Entry} {ev : List Ev}

/-- The CPU `c` goes on; what becomes of the locks, the processes and the forks is left
to the caller. -/
theorem Inv.goes {st : ℕ → ProcState} (h : Inv s) (hcpu : s'.cpu = Function.update s.cpu c k) (hk : k.Ok)
    (hst : s'.state = st) (hlocks : Locks (Function.update s.holds c k.loc.holds) s'.lock)
    (hfresh : ∀ d p, Function.update s.live c k.loc.live d = some p → s'.context p = none)
    (hexcl : Exclusive (Function.update s.runs c k.loc.runs) (Function.update s.left c k.loc.left)
      (Function.update s.live c k.loc.live) st s'.Saved)
    (hforks : Forks (Function.update s.np c k.loc.np) s'.savedNp st) : Inv s' := by
  subst hst
  have hcomp : ∀ {β : Type} (f : Cpu → β), f ∘ s'.cpu = Function.update (f ∘ s.cpu) c (f k) := by
    intro β f
    rw [hcpu]
    exact Function.comp_update ..
  refine ⟨fun d => ?_, ?_, ?_, ?_, ?_⟩
  · rw [hcpu, Function.update_apply]
    split_ifs
    · exact hk
    · exact h.cpus d
  · rw [Sys.holds, hcomp]
    exact hlocks
  · rw [Sys.live, hcomp]
    exact hfresh
  · rw [Sys.runs, Sys.left, Sys.live, hcomp, hcomp, hcomp]
    exact hexcl
  · rw [Sys.np, hcomp]
    exact hforks

theorem Cpu.Ok.setLoc (h : k.Ok) (hs : l.serves = k.loc.serves) (hp : ∀ p, l.planned = some p → k.loc.planned = some p)
    (hl : l.StartOk) : { k with loc := l }.Ok :=
  ⟨h.proc.trans hs.symm, fun p hpl => h.context p (hp p hpl), hl⟩

/-- The locks stay as they are. -/
theorem Inv.locks_same (h : Inv s) (hl : l.holds = (s.cpu c).loc.holds) :
    Locks (Function.update s.holds c l.holds) s.lock := by
  rw [hl, show (s.cpu c).loc.holds = s.holds c from rfl, Function.update_eq_self]
  exact h.locks

/-- The role of a place: whom the CPU runs there, whom it is done with, and whose registers it has. -/
def Loc.role (l : Loc) : Option ℕ × Option ℕ × Option ℕ := (l.runs, l.left, l.live)

theorem Takes.of_update {X : ℕ → Option ℕ} {x : Option (ℕ × ℕ)} (hx : x = none ∨ x = s.np c) {p q : ℕ}
    (h : Takes (Function.update s.np c x) X p q) : Takes s.np X p q := by
  rcases h with ⟨d, hd⟩ | hX
  · rw [Function.update_apply] at hd
    split_ifs at hd with hdc
    · rcases hx with rfl | rfl
      · cases hd
      · exact .inl ⟨c, hd⟩
    · exact .inl ⟨d, hd⟩
  · exact .inr hX

/-- The CPU goes on in its role, while the states of the entries change as `Exclusive` and
`Forks` allow. -/
theorem Inv.keeps (h : Inv s) (hcpu : s'.cpu = Function.update s.cpu c k) (hk : k.Ok)
    (hlocks : Locks (Function.update s.holds c k.loc.holds) s'.lock) (hrole : k.loc.role = (s.cpu c).loc.role)
    (hnp : k.loc.np = none ∨ k.loc.np = (s.cpu c).loc.np) (hctx : s'.context = s.context)
    (hexcl : Exclusive s.runs s.left s.live s'.state s.Saved)
    (hst : ∀ q, s.state q = .used → s'.state q = .used) : Inv s' := by
  simp only [Loc.role, Prod.mk.injEq] at hrole
  obtain ⟨h1, h2, h3⟩ := hrole
  have hsaved : s'.Saved = s.Saved := by
    unfold Sys.Saved
    rw [hctx]
  refine h.goes hcpu hk rfl hlocks ?_ ?_ ?_
  · rw [h3, show (s.cpu c).loc.live = s.live c from rfl, Function.update_eq_self, hctx]
    exact h.fresh
  · rw [h1, h2, h3, show (s.cpu c).loc.live = s.live c from rfl, show (s.cpu c).loc.runs = s.runs c from rfl,
      show (s.cpu c).loc.left = s.left c from rfl, Function.update_eq_self, Function.update_eq_self,
      Function.update_eq_self, hsaved]
    exact hexcl
  · rw [Sys.savedNp, hctx]
    exact h.forks.mono (fun p q => Takes.of_update hnp) fun _ q _ => hst q

/-- The CPU goes on in its role and the states of the entries stay as they are. -/
theorem Inv.quiet (h : Inv s) (hcpu : s'.cpu = Function.update s.cpu c k) (hk : k.Ok)
    (hlocks : Locks (Function.update s.holds c k.loc.holds) s'.lock) (hrole : k.loc.role = (s.cpu c).loc.role)
    (hnp : k.loc.np = none ∨ k.loc.np = (s.cpu c).loc.np) (hctx : s'.context = s.context)
    (hst : s'.state = s.state) : Inv s' :=
  h.keeps hcpu hk hlocks hrole hnp hctx (hst ▸ h.excl) (hst ▸ fun _ hq => hq)

theorem Sys.state_setProc (s : Sys) (q : ℕ) (e : Entry) : (s.setProc q e).state = Function.update s.state q e.state :=
  Function.comp_update ..

theorem Sys.state_setProc_same (he : e.state = (s.proc q).state) : (s.setProc q e).state = s.state := by
  rw [Sys.state_setProc, he]
  exact Function.update_eq_self q s.state

/-- What a visit may do to the state of an entry. -/
structure Visited (st st' : ProcState) : Prop where
  running : st' = .running ↔ st = .running
  ready : st' ≠ .unused → st' ≠ .zombie → st ≠ .unused ∧ st ≠ .zombie
  used : st = .used → st' = .used

theorem Visited.refl (st : ProcState) : Visited st st := ⟨Iff.rfl, fun h1 h2 => ⟨h1, h2⟩, id⟩

theorem Visited.wakeup (e : Entry) (ch : Option Chan) : Visited e.state (e.wakeup ch).state := by
  unfold Entry.wakeup
  split_ifs with hw
  · exact ⟨by simp [hw.1], fun _ _ => by simp [hw.1], fun hu => by simp [hw.1] at hu⟩
  · exact .refl _

theorem Visited.kill (e : Entry) : Visited e.state e.kill.state := by
  simp only [Entry.kill]
  split_ifs with hs
  · exact ⟨by simp [hs], fun _ _ => by simp [hs], fun hu => by simp [hs] at hu⟩
  · exact .refl _

/-- A CPU goes on in its role after a visit to the entry `q`. -/
theorem Inv.visit (h : Inv s) (hproc : s'.proc = Function.update s.proc q e)
    (hcpu : s'.cpu = Function.update s.cpu c k) (hk : k.Ok) (hholds : k.loc.holds = (s.cpu c).loc.holds)
    (hrole : k.loc.role = (s.cpu c).loc.role) (hnp : k.loc.np = none ∨ k.loc.np = (s.cpu c).loc.np)
    (hctx : s'.context = s.context) (hlock : s'.lock = s.lock) (hv : Visited (s.proc q).state e.state) : Inv s' := by
  have hst : s'.state = Function.update s.state q e.state := by
    rw [Sys.state, hproc]
    exact Function.comp_update ..
  refine h.keeps hcpu hk (hlock ▸ h.locks_same hholds) hrole hnp hctx ?_ fun r hr => ?_
  · rw [hst]
    exact h.excl.visit hv.running (fun _ hr => hr) fun h1 h2 => .inl (hv.ready h1 h2)
  · rw [hst, Function.update_apply]
    split_ifs with hrq
    · exact hv.used (hrq ▸ hr)
    · exact hr

/-! ### The steps -/

variable {s1 : Sys} {l0 : Loc} {m : Mem}

theorem acquire_ok (h : acquire s c p = .ok s1) : s.lock p = none ∧ s1 = s.setLock p (some c) := by
  unfold acquire at h
  split at h
  · next hl =>
    cases h
    exact ⟨hl, rfl⟩
  · cases h

theorem release_ok (h : release s c p = .ok s1) : s.lock p = some c ∧ s1 = s.setLock p none := by
  unfold release at h
  split_ifs at h with hl
  cases h
  exact ⟨hl, rfl⟩

/-- Two places in the same role: nothing but the lock that the CPU holds may differ. -/
structure Loc.Alike (l l0 : Loc) : Prop where
  serves : l.serves = l0.serves
  planned : l.planned = l0.planned
  role : l.role = l0.role
  np : l.np = l0.np

theorem Cpu.Ok.alike (h : k.Ok) (hk : k.loc = l0) (hl : l.Alike l0) (hs : l.StartOk) : { k with loc := l }.Ok := by
  subst hk
  exact h.setLoc hl.serves (fun p hp => hl.planned ▸ hp) hs

/-- The CPU takes the lock of `p`. -/
theorem Inv.acquire (h : Inv s) (hloc : (s.cpu c).loc = l0) (ha : acquire s c p = .ok s1) (hl : l.Alike l0)
    (hs : l.StartOk) (h0 : l0.holds = none) (hh : l.holds = some p) : Inv (s1.setLoc c l) := by
  obtain ⟨hfree, rfl⟩ := acquire_ok ha
  refine h.quiet rfl ((h.cpus c).alike hloc hl hs) ?_ (hloc ▸ hl.role) (.inr (hloc ▸ hl.np)) rfl rfl
  rw [hh]
  exact h.locks.acquire (by rw [Sys.holds, Function.comp, hloc, h0]) hfree

/-- The CPU lets the lock of `p` go. -/
theorem Inv.release (h : Inv s) (hloc : (s.cpu c).loc = l0) (hr : release s c p = .ok s1) (hl : l.Alike l0)
    (hs : l.StartOk) (hh : l.holds = none) : Inv (s1.setLoc c l) := by
  obtain ⟨hheld, rfl⟩ := release_ok hr
  refine h.quiet rfl ((h.cpus c).alike hloc hl hs) ?_ (hloc ▸ hl.role) (.inr (hloc ▸ hl.np)) rfl rfl
  rw [hh]
  exact h.locks.release ((h.locks c p).mpr hheld)

/-- The CPU goes on under the lock that it holds, and the entry `q` may be visited. -/
theorem Inv.under (h : Inv s) (hloc : (s.cpu c).loc = l0) (hl : l.Alike l0) (hs : l.StartOk)
    (hh : l.holds = l0.holds) (hv : Visited (s.proc q).state e.state) : Inv ((s.setProc q e).setLoc c l) :=
  h.visit rfl rfl ((h.cpus c).alike hloc hl hs) (hloc ▸ hh) (hloc ▸ hl.role) (.inr (hloc ▸ hl.np)) rfl rfl hv

/-- Whoever holds the lock of a process that is not RUNNING, and is not on its way off it,
finds it off every CPU. -/
theorem Inv.off_cpu (h : Inv s) (hc : s.holds c = some q) (hl : s.left c ≠ some q) (hq : s.state q ≠ .running) (d : ℕ) :
    s.runs d ≠ some q ∧ s.left d ≠ some q := by
  refine ⟨fun hr => hq (h.excl.runs d q hr), fun hd => ?_⟩
  obtain rfl : c = d := h.locks.eq_of_holds hc (Loc.holds_of_left hd)
  exact hl hd

/-- `scheduler` chooses a RUNNABLE process. -/
theorem Inv.choose (h : Inv s) (hloc : (s.cpu c).loc = .check p) (hp : (s.proc p).state = .runnable) :
    Inv ((s.setProc p { s.proc p with state := .running }).setCpu c
      { s.cpu c with proc := some p, loc := .chosen p }) := by
  have hruns : s.runs c = none := congrArg Loc.runs hloc
  have hleft : s.left c = none := congrArg Loc.left hloc
  have hlive : Function.update s.live c none = s.live :=
    Function.update_eq_self_iff.mpr (congrArg Loc.live hloc).symm
  have hleft' : Function.update s.left c none = s.left := Function.update_eq_self_iff.mpr hleft.symm
  have hoff := h.off_cpu (congrArg Loc.holds hloc) (by simp [hleft]) (by simp [Sys.state, hp])
  refine h.goes (k := { s.cpu c with proc := some p, loc := .chosen p }) rfl
    ⟨rfl, fun _ hq => (by cases hq), trivial⟩ (Sys.state_setProc ..) (h.locks_same (by rw [hloc]; rfl)) ?_ ?_ ?_
  · rw [show (Loc.chosen p).live = none from rfl, hlive]
    exact h.fresh
  · rw [show (Loc.chosen p).live = none from rfl, hlive, show (Loc.chosen p).left = none from rfl, hleft']
    exact h.excl.choose hp hoff hruns hleft
  · refine h.forks.mono (fun p q => Takes.of_update (.inl rfl)) fun _ q _ hq => ?_
    have hne : q ≠ p := by
      rintro rfl
      simp [Sys.state, hp] at hq
    rw [Function.update_of_ne hne]
    exact hq

/-- `swtch` loads the registers of the process. -/
theorem Inv.load {t : Thread} (h : Inv s) (hloc : (s.cpu c).loc = .off p) (ht : s.context p = some t) :
    Inv ((s.setContext p none).setLoc c (.thread p t)) := by
  have hruns : s.runs c = some p := congrArg Loc.runs hloc
  have hleft : s.left c = none := congrArg Loc.left hloc
  have hlive : s.live c = none := congrArg Loc.live hloc
  -- no other CPU can have them, so they are in the context
  have hready : t.pos = .forkret ∨ ∃ k, t.pos = .resumed k := by
    have hst := h.excl.runs c p hruns
    rcases h.excl.ctx p (by simp [hst]) (by simp [hst]) with ⟨d, hd⟩ | ⟨t', ht', hr⟩
    · have hdc : d = c := h.excl.one d c p (Loc.serves_iff.mp (Loc.serves_of_live hd)) (.inl hruns)
      rw [hdc, hlive] at hd
      cases hd
    · rw [ht, Option.some.injEq] at ht'
      exact ht' ▸ hr
  have hplace : t.pos.holds p = some p ∧ t.pos.leaving = false ∧ t.pos ≠ .off ∧ (Loc.thread p t).StartOk := by
    obtain ⟨pos, np⟩ := t
    rcases hready with rfl | ⟨k, rfl⟩
    · exact ⟨rfl, rfl, by simp, trivial⟩
    · exact ⟨rfl, rfl, by simp, trivial⟩
  obtain ⟨hh, hlv, hno, hstart⟩ := hplace
  have hliveT : (Loc.thread p t).live = some p := by simp [Loc.live, hno]
  have hrunsT : (Loc.thread p t).runs = s.runs c := by simp [Loc.runs, hlv, hruns]
  have hleftT : (Loc.thread p t).left = s.left c := by simp [Loc.left, hlv, hleft]
  refine h.goes (k := { s.cpu c with loc := .thread p t }) rfl ⟨?_, ?_, hstart⟩ rfl
    (h.locks_same (by rw [hloc]; exact hh)) ?_ ?_ ?_
  · rw [(h.cpus c).proc, hloc]
    rfl
  · intro q hq
    exact (h.cpus c).context q (by rw [hloc]; exact hq)
  · intro d q hd
    show Function.update s.context p none q = none
    rw [hliveT, Function.update_apply] at hd
    rw [Function.update_apply]
    split_ifs at hd ⊢ with hqp
    · rfl
    · rfl
    · exact absurd (Option.some.inj hd).symm hqp
    · exact h.fresh d q hd
  · rw [hliveT, hrunsT, hleftT, Function.update_eq_self, Function.update_eq_self]
    refine h.excl.load hlive fun q hq ⟨t', ht', hr⟩ => ⟨t', ?_, hr⟩
    exact (Function.update_of_ne hq ..).trans ht'
  · refine h.forks.mono (fun r q hrq => ?_) fun _ _ _ hq => hq
    rcases hrq with ⟨d, hd⟩ | hX
    · rw [Function.update_apply] at hd
      split_ifs at hd with hdc
      · obtain ⟨u, hu, hpu⟩ := Option.map_eq_some_iff.mp hd
        obtain ⟨rfl, rfl⟩ := Prod.mk.inj hpu
        exact .inr (by simp [Sys.savedNp, ht, hu])
      · exact .inl ⟨d, hd⟩
    · by_cases hrp : r = p
      · simp [Sys.savedNp, Sys.setContext, Sys.setLoc, Sys.setCpu, hrp] at hX
      · exact .inr (by simpa [Sys.savedNp, Sys.setContext, Sys.setLoc, Sys.setCpu, hrp] using hX)

/-- `scheduler` is rid of the process. -/
theorem Inv.clear (h : Inv s) (hloc : (s.cpu c).loc = .back p) :
    Inv (s.setCpu c { s.cpu c with proc := none, loc := .release p }) := by
  have hruns : Function.update s.runs c none = s.runs :=
    Function.update_eq_self_iff.mpr (congrArg Loc.runs hloc).symm
  have hlive : Function.update s.live c none = s.live :=
    Function.update_eq_self_iff.mpr (congrArg Loc.live hloc).symm
  refine h.goes (k := { s.cpu c with proc := none, loc := .release p }) rfl
    ⟨rfl, fun _ hq => (by cases hq), trivial⟩ rfl (h.locks_same (by rw [hloc]; rfl)) ?_ ?_ ?_
  · rw [show (Loc.release p).live = none from rfl, hlive]
    exact h.fresh
  · rw [show (Loc.release p).live = none from rfl, hlive, show (Loc.release p).runs = none from rfl, hruns]
    exact h.excl.clear
  · exact h.forks.mono (fun p q => Takes.of_update (.inl rfl)) fun _ _ _ hq => hq

theorem depart_state (e : Entry) (k : Leave) : (depart e k).state ≠ .running := by
  cases k <;> simp [depart]

/-- A process marks itself as it is about to leave. -/
theorem Inv.depart {np : Option ℕ} {k : Leave} (h : Inv s) (hloc : (s.cpu c).loc = .thread p ⟨.own k, np⟩) :
    Inv ((s.setProc p (depart (s.proc p) k)).setLoc c (.thread p ⟨.sched k, np⟩)) := by
  have hruns : s.runs c = some p := congrArg Loc.runs hloc
  have hlive : s.live c = some p := congrArg Loc.live hloc
  have hlive' : Function.update s.live c (some p) = s.live := Function.update_eq_self_iff.mpr hlive.symm
  refine h.goes (k := { s.cpu c with loc := .thread p ⟨.sched k, np⟩ }) rfl
    ((h.cpus c).setLoc (by rw [hloc]; rfl) (fun q hq => by rw [hloc]; exact hq) trivial) (Sys.state_setProc ..)
    (h.locks_same (by rw [hloc]; rfl)) ?_ ?_ ?_
  · rw [show (Loc.thread p ⟨.sched k, np⟩).live = some p from rfl, hlive']
    exact h.fresh
  · rw [show (Loc.thread p ⟨.sched k, np⟩).live = some p from rfl, hlive']
    exact h.excl.depart hruns hlive (depart_state _ k)
  · refine h.forks.mono (fun r q => Takes.of_update (.inr (congrArg Loc.np hloc).symm)) fun _ q _ hq => ?_
    have hne : q ≠ p := by
      rintro rfl
      rw [h.excl.runs c q hruns] at hq
      cases hq
    rw [Function.update_of_ne hne]
    exact hq

/-- `swtch` saves the registers of the process. -/
theorem Inv.save {np : Option ℕ} {k : Leave} (h : Inv s) (hloc : (s.cpu c).loc = .thread p ⟨.sched k, np⟩) :
    Inv ((s.setContext p (some ⟨.resumed k, np⟩)).setLoc c (.thread p ⟨.off, np⟩)) := by
  have hleft : s.left c = some p := congrArg Loc.left hloc
  have hlive : s.live c = some p := congrArg Loc.live hloc
  have hruns' : Function.update s.runs c none = s.runs :=
    Function.update_eq_self_iff.mpr (congrArg Loc.runs hloc).symm
  have hleft' : Function.update s.left c (some p) = s.left := Function.update_eq_self_iff.mpr hleft.symm
  refine h.goes (k := { s.cpu c with loc := .thread p ⟨.off, np⟩ }) rfl
    ((h.cpus c).setLoc (by rw [hloc]; rfl) (fun q hq => by rw [hloc]; exact hq) trivial) rfl
    (h.locks_same (by rw [hloc]; rfl)) ?_ ?_ ?_
  · intro d q hd
    rw [Function.update_apply] at hd
    split_ifs at hd with hdc
    · cases hd
    · have hqp : q ≠ p := by
        rintro rfl
        exact hdc (h.excl.one d c q (Loc.serves_iff.mp (Loc.serves_of_live hd)) (.inr hleft))
      exact (Function.update_of_ne hqp ..).trans (h.fresh d q hd)
  · rw [show (Loc.thread p ⟨.off, np⟩).runs = none from rfl, hruns',
      show (Loc.thread p ⟨.off, np⟩).left = some p from rfl, hleft']
    refine h.excl.save hlive (fun q hq => ?_) ⟨_, Function.update_self .., .inr ⟨k, rfl⟩⟩
    obtain ⟨t, ht, hr⟩ := hq
    by_cases hqp : q = p
    · exact ⟨_, by rw [hqp]; exact Function.update_self .., .inr ⟨k, rfl⟩⟩
    · exact ⟨t, (Function.update_of_ne hqp ..).trans ht, hr⟩
  · refine h.forks.mono (fun r q hrq => ?_) fun _ _ _ hq => hq
    rcases Takes.of_update (.inr (congrArg Loc.np hloc).symm) hrq with hL | hX
    · exact .inl hL
    · by_cases hrp : r = p
      · have hq : np = some q := by
          simpa [Sys.savedNp, Sys.setContext, Sys.setLoc, Sys.setCpu, hrp] using hX
        exact .inl ⟨c, (congrArg Loc.np hloc).trans (by simp [Loc.np, hq, hrp])⟩
      · exact .inr (by simpa [Sys.savedNp, Sys.setContext, Sys.setLoc, Sys.setCpu, hrp] using hX)

/-- `swtch` loads the registers of `scheduler`. -/
theorem Inv.leaves {np : Option ℕ} (h : Inv s) (hloc : (s.cpu c).loc = .thread p ⟨.off, np⟩) :
    Inv (s.setLoc c (.back p)) :=
  h.quiet (k := { s.cpu c with loc := .back p }) rfl
    ((h.cpus c).setLoc (by rw [hloc]; rfl) (fun q hq => by cases hq) trivial) (h.locks_same (by rw [hloc]; rfl))
    (by rw [hloc]; rfl) (.inl rfl) rfl rfl

/-- `allocproc` sets up the context of an entry that no CPU has. -/
theorem Inv.setContext (h : Inv s) (hoff : ∀ d, s.live d ≠ some q) :
    Inv (s.setContext q (some { pos := .forkret })) := by
  refine ⟨h.cpus, h.locks, fun d r hd => ?_, ?_, ?_⟩
  · have hrq : r ≠ q := by
      rintro rfl
      exact hoff d hd
    exact (Function.update_of_ne hrq ..).trans (h.fresh d r hd)
  · refine ⟨h.excl.one, h.excl.runs, h.excl.left, h.excl.cpu, fun r hu hz => ?_⟩
    refine (h.excl.ctx r hu hz).imp id fun ⟨t, ht, hr⟩ => ?_
    by_cases hrq : r = q
    · exact ⟨_, by rw [hrq]; exact Function.update_self .., .inl rfl⟩
    · exact ⟨t, (Function.update_of_ne hrq ..).trans ht, hr⟩
  · refine h.forks.mono (fun r u hru => ?_) fun _ _ _ hu => hu
    rcases hru with hL | hX
    · exact .inl hL
    · by_cases hrq : r = q
      · simp [Sys.savedNp, Sys.setContext, hrq] at hX
      · exact .inr (by simpa [Sys.savedNp, Sys.setContext, hrq] using hX)

/-- `fork` takes an UNUSED entry whose context is set up. -/
theorem Inv.takes {np : Option ℕ} (h : Inv s) (hloc : (s.cpu c).loc = .thread p ⟨.visit q .fork, np⟩)
    (hu : (s.proc q).state = .unused) (he : e.state = .used) (hs : s.Saved q) :
    Inv ((s.setProc q e).setLoc c (.thread p ⟨.release q, some q⟩)) := by
  have hruns : Function.update s.runs c (some p) = s.runs :=
    Function.update_eq_self_iff.mpr (congrArg Loc.runs hloc).symm
  have hleft : Function.update s.left c none = s.left :=
    Function.update_eq_self_iff.mpr (congrArg Loc.left hloc).symm
  have hlive : Function.update s.live c (some p) = s.live :=
    Function.update_eq_self_iff.mpr (congrArg Loc.live hloc).symm
  refine h.goes (k := { s.cpu c with loc := .thread p ⟨.release q, some q⟩ }) rfl
    ((h.cpus c).setLoc (by rw [hloc]; rfl) (fun q hq => by rw [hloc]; exact hq) trivial) (Sys.state_setProc ..)
    (h.locks_same (by rw [hloc]; rfl)) ?_ ?_ ?_
  · rw [show (Loc.thread p ⟨.release q, some q⟩).live = some p from rfl, hlive]
    exact h.fresh
  · rw [show (Loc.thread p ⟨.release q, some q⟩).live = some p from rfl, hlive,
      show (Loc.thread p ⟨.release q, some q⟩).runs = some p from rfl, hruns,
      show (Loc.thread p ⟨.release q, some q⟩).left = none from rfl, hleft]
    exact h.excl.visit (by simp [he, Sys.state, hu]) (fun _ hr => hr) fun _ _ => .inr hs
  · refine h.forks.take (q := q) (p := p) (by simp [Sys.state, hu]) (fun r u hru => ?_)
      (fun r hr => Function.update_of_ne hr ..) ((Function.update_self ..).trans he)
    rcases hru with ⟨d, hd⟩ | hX
    · rw [Function.update_apply] at hd
      split_ifs at hd with hdc
      · obtain ⟨rfl, rfl⟩ : p = r ∧ q = u := by simpa [Loc.np] using hd
        exact .inr ⟨rfl, rfl⟩
      · exact .inl (.inl ⟨d, hd⟩)
    · exact .inl (.inr hX)

theorem Loc.thread_of_np (h : l.np = some (p, q)) : ∃ t, l = .thread p t := by
  cases l with
  | thread r t =>
    obtain ⟨u, -, hu⟩ := Option.map_eq_some_iff.mp h
    obtain ⟨rfl, -⟩ := Prod.mk.inj hu
    exact ⟨t, rfl⟩
  | _ => cases h

/-- `fork` makes the entry that it has taken RUNNABLE. -/
theorem Inv.starts {np : Option ℕ} (h : Inv s) (hloc : (s.cpu c).loc = .thread p ⟨.visit q .start, np⟩) :
    Inv ((s.setProc q { s.proc q with state := .runnable }).setLoc c (.thread p ⟨.release q, none⟩)) := by
  obtain rfl : np = some q := by
    have := (h.cpus c).start
    rwa [hloc] at this
  have hT : Takes s.np s.savedNp p q := .inl ⟨c, congrArg Loc.np hloc⟩
  have hq := h.forks.used p q hT
  have hruns : s.runs c = some p := congrArg Loc.runs hloc
  have hruns' : Function.update s.runs c (some p) = s.runs := Function.update_eq_self_iff.mpr hruns.symm
  have hleft : Function.update s.left c none = s.left :=
    Function.update_eq_self_iff.mpr (congrArg Loc.left hloc).symm
  have hlive : Function.update s.live c (some p) = s.live :=
    Function.update_eq_self_iff.mpr (congrArg Loc.live hloc).symm
  refine h.goes (k := { s.cpu c with loc := .thread p ⟨.release q, none⟩ }) rfl
    ((h.cpus c).setLoc (by rw [hloc]; rfl) (fun q hq => by rw [hloc]; exact hq) trivial) (Sys.state_setProc ..)
    (h.locks_same (by rw [hloc]; rfl)) ?_ ?_ ?_
  · rw [show (Loc.thread p ⟨.release q, none⟩).live = some p from rfl, hlive]
    exact h.fresh
  · rw [show (Loc.thread p ⟨.release q, none⟩).live = some p from rfl, hlive,
      show (Loc.thread p ⟨.release q, none⟩).runs = some p from rfl, hruns',
      show (Loc.thread p ⟨.release q, none⟩).left = none from rfl, hleft]
    exact h.excl.visit (by simp [hq]) (fun _ hr => hr) fun _ _ => .inl (by simp [hq])
  · -- nobody else has taken it: not another CPU, and the registers of `p` are not in its context
    have hgone : ∀ r, ¬ Takes (Function.update s.np c none) s.savedNp r q := by
      rintro r (⟨d, hd⟩ | hX)
      · rw [Function.update_apply] at hd
        split_ifs at hd with hdc
        obtain rfl : r = p := h.forks.unique r p q (.inl ⟨d, hd⟩) hT
        obtain ⟨t, ht⟩ := Loc.thread_of_np hd
        have hserves : (s.cpu d).loc.serves = some r := by rw [ht]; rfl
        exact hdc (h.excl.one d c r (Loc.serves_iff.mp hserves) (.inl hruns))
      · obtain rfl : r = p := h.forks.unique r p q (.inr hX) hT
        have hnone := h.fresh c r (congrArg Loc.live hloc)
        simp [Sys.savedNp, hnone] at hX
    refine h.forks.mono (fun r u => Takes.of_update (.inl rfl)) fun r u hru hu => ?_
    have hne : u ≠ q := by
      rintro rfl
      exact hgone r hru
    rw [Function.update_of_ne hne]
    exact hu

/-- The CPU goes on under the lock that it holds. -/
theorem Inv.stays (h : Inv s) (hloc : (s.cpu c).loc = l0) (hl : l.Alike l0) (hs : l.StartOk) (hh : l.holds = l0.holds) :
    Inv (s.setLoc c l) :=
  h.quiet (k := { s.cpu c with loc := l }) rfl ((h.cpus c).alike hloc hl hs) (h.locks_same (hloc ▸ hh))
    (hloc ▸ hl.role) (.inr (hloc ▸ hl.np)) rfl rfl

theorem Inv.setProc_same (h : Inv s) (he : e.state = (s.proc q).state) : Inv (s.setProc q e) := by
  have hst := Sys.state_setProc_same he
  refine ⟨h.cpus, h.locks, h.fresh, ?_, ?_⟩
  · rw [hst]
    exact h.excl
  · rw [hst]
    exact h.forks

theorem Inv.setNextpid (h : Inv s) (n : ℤ) : Inv { s with nextpid := n } :=
  ⟨h.cpus, h.locks, h.fresh, h.excl, h.forks⟩

theorem Inv.not_served {np : Option ℕ} {task : Task} (h : Inv s)
    (hloc : (s.cpu c).loc = .thread p ⟨.visit q task, np⟩) (hq : (s.proc q).state ≠ .running) (d : ℕ) :
    (s.cpu d).loc.serves ≠ some q := by
  intro hd
  have hleft : s.left c = none := congrArg Loc.left hloc
  have hoff := h.off_cpu (congrArg Loc.holds hloc) (by simp [hleft]) hq d
  exact (Loc.serves_iff.mp hd).elim hoff.1 hoff.2

theorem allocproc_state {pid : ℤ} {b : Bool} (h : allocproc e pid m = (e', b)) :
    e'.state = if b then .used else .unused := by
  unfold allocproc at h
  split_ifs at h <;> cases h <;> rfl

theorem Inv.work {np : Option ℕ} {task : Task} (h : Inv s) (hloc : (s.cpu c).loc = .thread p ⟨.visit q task, np⟩) :
    Inv ((work s p q np m task).1.setLoc c (.thread p ⟨.release q, (work s p q np m task).2.1⟩)) := by
  have hl : ∀ task, Loc.Alike (.thread p ⟨.release q, np⟩) (.thread p ⟨.visit q task, np⟩) :=
    fun _ => ⟨rfl, rfl, rfl, rfl⟩
  have hstay : Inv (s.setLoc c (.thread p ⟨.release q, np⟩)) := h.stays hloc (hl task) trivial rfl
  cases task with
  | wakeup ch => exact h.under hloc (hl _) trivial rfl (.wakeup ..)
  | kill pid =>
    simp only [Sched.work]
    split_ifs
    · exact h.under hloc (hl _) trivial rfl (.kill _)
    · exact hstay
  | setkilled => exact h.under hloc (hl _) trivial rfl (.refl _)
  | start => exact h.starts hloc
  | wait =>
    simp only [Sched.work]
    split_ifs with hz
    · refine h.under hloc (hl _) trivial rfl ⟨by simp [freeproc, hz.1], fun hu => absurd rfl hu, fun hu => ?_⟩
      simp [hz.1] at hu
    · exact hstay
  | fork =>
    by_cases hu : (s.proc q).state = .unused
    · -- the entry is off every CPU, so its context can be set up
      have hoff : ∀ d, s.live d ≠ some q := fun d hd =>
        h.not_served hloc (by simp [hu]) d (Loc.serves_of_live hd)
      have hfree : ∀ {e : Entry}, e.state = .unused → Visited (s.proc q).state e.state := fun he =>
        ⟨by simp [he, hu], fun h1 => absurd he h1, fun h1 => by simp [hu] at h1⟩
      generalize hal : allocproc (s.proc q) s.nextpid m = r
      obtain ⟨e, b⟩ := r
      have he := allocproc_state hal
      have h1 := h.setNextpid (cInt (s.nextpid + 1))
      have h2 := h1.setContext hoff
      cases b with
      | false =>
        simp only [Sched.work, if_pos hu, hal]
        exact h1.under hloc (hl _) trivial rfl (hfree he)
      | true =>
        simp only [Sched.work, if_pos hu, hal]
        split_ifs
        · exact h2.takes hloc hu he ⟨_, Function.update_self .., .inl rfl⟩
        · exact h2.under hloc (hl _) trivial rfl (hfree rfl)
    · simp only [Sched.work, if_neg hu]
      exact hstay

/-! ### A step keeps the invariant -/

theorem inv_goThread {t : Thread} (h : Inv s) (hloc : (s.cpu c).loc = .thread p t)
    (hs : goThread s c p t m = .ok (s', ev)) : Inv s' := by
  have hproc : (s.cpu c).proc = some p := by
    rw [(h.cpus c).proc, hloc]
    rfl
  have hctx : (s.cpu c).context = some p := (h.cpus c).context p (by rw [hloc]; rfl)
  obtain ⟨pos, np⟩ := t
  cases pos with
  | resumed k =>
    cases k with
    | yield =>
      obtain ⟨s1, hr, hs⟩ := bind_ok hs
      cases hs
      exact h.release hloc hr ⟨rfl, rfl, rfl, rfl⟩ trivial rfl
    | sleep ch =>
      obtain ⟨s1, hr, hs⟩ := bind_ok hs
      cases hs
      have h1 : Inv (s.setProc p { s.proc p with chan := none }) := h.setProc_same rfl
      exact h1.release hloc hr ⟨rfl, rfl, rfl, rfl⟩ trivial rfl
    | exit status => cases hs
  | forkret =>
    simp only [goThread, hproc] at hs
    obtain ⟨s1, hr, hs⟩ := bind_ok hs
    cases hs
    exact h.release hloc hr ⟨rfl, rfl, rfl, rfl⟩ trivial rfl
  | free => cases hs
  | visit q task =>
    cases hs
    exact h.work hloc
  | release q =>
    obtain ⟨s1, hr, hs⟩ := bind_ok hs
    cases hs
    exact h.release hloc hr ⟨rfl, rfl, rfl, rfl⟩ trivial rfl
  | own k =>
    simp only [goThread, hproc] at hs
    cases hs
    exact h.depart hloc
  | sched k =>
    simp only [goThread, hproc] at hs
    split_ifs at hs
    cases hs
    exact h.save hloc
  | off =>
    simp only [goThread, hctx] at hs
    cases hs
    exact h.leaves hloc

theorem inv_go (h : Inv s) (hs : go s c m = .ok (s', ev)) : Inv s' := by
  unfold go at hs
  split at hs
  next i hloc =>
    split_ifs at hs
    · obtain ⟨s1, ha, hs⟩ := bind_ok hs
      cases hs
      exact h.acquire hloc ha ⟨rfl, rfl, rfl, rfl⟩ trivial rfl rfl
    · cases hs
      exact h.stays hloc ⟨rfl, rfl, rfl, rfl⟩ trivial rfl
  next i q ch hloc =>
    cases hs
    exact h.under hloc ⟨rfl, rfl, rfl, rfl⟩ trivial rfl (.wakeup ..)
  next i q hloc =>
    obtain ⟨s1, hr, hs⟩ := bind_ok hs
    cases hs
    exact h.release hloc hr ⟨rfl, rfl, rfl, rfl⟩ trivial rfl
  next p hloc =>
    split_ifs at hs with hp
    · cases hs
      exact h.choose hloc hp
    · cases hs
      exact h.stays hloc ⟨rfl, rfl, rfl, rfl⟩ trivial rfl
  next p hloc =>
    cases hs
    refine h.quiet (k := { s.cpu c with context := some p, loc := .off p }) rfl ⟨?_, fun q hq => hq, trivial⟩
      (h.locks_same (by rw [hloc]; rfl)) (by rw [hloc]; rfl) (.inl rfl) rfl rfl
    rw [(h.cpus c).proc, hloc]
    rfl
  next p hloc =>
    split at hs
    · next t ht =>
      cases hs
      exact h.load hloc ht
    · cases hs
  next p hloc =>
    cases hs
    exact h.clear hloc
  next p hloc =>
    obtain ⟨s1, hr, hs⟩ := bind_ok hs
    cases hs
    exact h.release hloc hr ⟨rfl, rfl, rfl, rfl⟩ trivial rfl
  next p t hloc => exact inv_goThread h hloc hs

theorem visits_start {t : Thread} {task : Task} (h : visits k t q task = true) :
    (Loc.thread p { t with pos := .visit q task }).StartOk := by
  cases task with
  | start => simpa [visits, Loc.StartOk] using h
  | _ => trivial

/-- **A step keeps the invariant.** -/
theorem inv_step {a : Act} (h : Inv s) (hs : step s a = .ok (s', ev)) : Inv s' := by
  cases a with
  | go c m => exact inv_go h hs
  | leave c k =>
    simp only [step] at hs
    split at hs
    · next p t r hloc hr =>
      obtain rfl : r = p := by
        rw [(h.cpus c).proc, hloc] at hr
        exact (Option.some.inj hr).symm
      obtain ⟨pos, np⟩ := t
      split_ifs at hs with hf h0
      obtain ⟨s1, ha, hs⟩ := bind_ok hs
      obtain rfl : pos = .free := hf.1
      cases hs
      exact h.acquire hloc ha ⟨rfl, rfl, rfl, rfl⟩ trivial rfl rfl
    · cases hs
  | visit c q task =>
    simp only [step] at hs
    split at hs
    · next p t hloc =>
      obtain ⟨pos, np⟩ := t
      split_ifs at hs with hf
      obtain ⟨s1, ha, hs⟩ := bind_ok hs
      obtain rfl : pos = .free := hf.1
      cases hs
      exact h.acquire hloc ha ⟨rfl, rfl, rfl, rfl⟩ (visits_start hf.2.2) rfl rfl
    · cases hs
  | intr c q ch =>
    simp only [step] at hs
    split at hs
    · next i hloc =>
      split_ifs at hs
      obtain ⟨s1, ha, hs⟩ := bind_ok hs
      cases hs
      exact h.acquire hloc ha ⟨rfl, rfl, rfl, rfl⟩ trivial rfl rfl
    · cases hs

theorem inv_boot : Inv boot := by
  have hstate : ∀ p, boot.state p = if p = 0 then .runnable else .unused := by
    intro p
    show (Procs.boot.proc p).state = _
    simp only [Procs.boot, Function.update_apply]
    split_ifs <;> rfl
  refine ⟨fun _ => ⟨rfl, fun _ hp => (by cases hp), trivial⟩, fun c p => by simp [Sys.holds, boot, Loc.holds],
    fun c p hp => (by cases hp), ⟨?_, ?_, ?_, fun p hp => ?_, fun p hu hz => ?_⟩, ?_⟩
  · simp [Sys.runs, Sys.left, boot, Loc.runs, Loc.left]
  · simp [Sys.runs, boot, Loc.runs]
  · simp [Sys.left, boot, Loc.left]
  · rw [hstate] at hp
    split_ifs at hp
  · rw [hstate] at hu
    split_ifs at hu with hp
    · subst hp
      exact .inr ⟨{ pos := .forkret }, rfl, .inl rfl⟩
    · exact absurd rfl hu
  · have hno : ∀ p q, ¬ Takes boot.np boot.savedNp p q := by
      rintro p q (⟨c, hc⟩ | hX)
      · cases hc
      · simp only [Sys.savedNp, boot, Function.comp, Function.update_apply] at hX
        split_ifs at hX <;> cases hX
    exact ⟨fun p q hq => absurd hq (hno p q), fun p p' q hq => absurd hq (hno p q)⟩

/-! ### Whole runs -/

theorem work_freed {np : Option ℕ} {task : Task} {r : ℕ} (h : .freed r ∈ (work s p q np m task).2.2) :
    r = q ∧ (s.proc q).state ≠ .running := by
  cases task with
  | fork =>
    by_cases hu : (s.proc q).state = .unused
    · have hq : (s.proc q).state ≠ .running := by simp [hu]
      simp only [work, if_pos hu] at h
      split at h
      · exact ⟨by simpa using h, hq⟩
      · split_ifs at h
        · cases h
        · exact ⟨by simpa using h, hq⟩
    · simp only [work, if_neg hu] at h
      cases h
  | wait =>
    simp only [work] at h
    split_ifs at h with hz
    · exact ⟨by simpa using h, by simp [hz.1]⟩
    · cases h
  | kill pid =>
    simp only [work] at h
    split_ifs at h <;> cases h
  | _ => cases h

theorem goThread_freed {t : Thread} {r : ℕ} (hs : goThread s c p t m = .ok (s', ev)) (hr : .freed r ∈ ev) :
    ∃ task, t.pos = .visit r task ∧ (s.proc r).state ≠ .running := by
  obtain ⟨pos, np⟩ := t
  cases pos with
  | visit q task =>
    cases hs
    obtain ⟨rfl, hst⟩ := work_freed hr
    exact ⟨task, rfl, hst⟩
  | resumed k =>
    cases k with
    | exit status => cases hs
    | _ =>
      obtain ⟨s1, -, hs⟩ := bind_ok hs
      cases hs
      cases hr
  | free => cases hs
  | release q =>
    obtain ⟨s1, -, hs⟩ := bind_ok hs
    cases hs
    cases hr
  | off =>
    simp only [goThread] at hs
    split at hs <;> cases hs
    cases hr
  | forkret =>
    cases hproc : (s.cpu c).proc with
    | none => simp [goThread, hproc] at hs
    | some r =>
      simp only [goThread, hproc] at hs
      obtain ⟨s1, -, hs⟩ := bind_ok hs
      cases hs
      cases hr
  | own k =>
    cases hproc : (s.cpu c).proc with
    | none => simp [goThread, hproc] at hs
    | some r =>
      simp only [goThread, hproc] at hs
      cases hs
      cases hr
  | sched k =>
    cases hproc : (s.cpu c).proc with
    | none => simp [goThread, hproc] at hs
    | some r =>
      simp only [goThread, hproc] at hs
      split_ifs at hs
      cases hs
      cases hr

/-- Only a section on the stack of a process frees an entry, under its lock. -/
theorem step_freed {a : Act} {r : ℕ} (hs : step s a = .ok (s', ev)) (hr : .freed r ∈ ev) :
    ∃ c p task np, (s.cpu c).loc = .thread p ⟨.visit r task, np⟩ ∧ (s.proc r).state ≠ .running := by
  cases a with
  | go c m =>
    simp only [step, go] at hs
    split at hs
    case h_9 p t hloc =>
      obtain ⟨task, hpos, hst⟩ := goThread_freed hs hr
      exact ⟨c, p, task, t.np, by rw [hloc, ← hpos], hst⟩
    case h_1 =>
      split_ifs at hs
      · obtain ⟨s1, -, hs⟩ := bind_ok hs
        cases hs
        cases hr
      · cases hs
        cases hr
    case h_4 =>
      split_ifs at hs <;> cases hs <;> cases hr
    case h_6 =>
      split at hs <;> cases hs
      cases hr
    case h_3 | h_8 =>
      obtain ⟨s1, -, hs⟩ := bind_ok hs
      cases hs
      cases hr
    all_goals
      cases hs
      cases hr
  | leave c k =>
    simp only [step] at hs
    split at hs
    · split_ifs at hs
      obtain ⟨s1, -, hs⟩ := bind_ok hs
      cases hs
      cases hr
    · cases hs
  | visit c q task =>
    simp only [step] at hs
    split at hs
    · split_ifs at hs
      obtain ⟨s1, -, hs⟩ := bind_ok hs
      cases hs
      cases hr
    · cases hs
  | intr c q ch =>
    simp only [step] at hs
    split at hs
    · split_ifs at hs
      obtain ⟨s1, -, hs⟩ := bind_ok hs
      cases hs
      cases hr
    · cases hs

theorem Sys.serves_of_stack (h : s.stack c = some p) : (s.cpu c).loc.serves = some p := by
  unfold Sys.stack at h
  split at h
  · next q t hloc =>
    rw [hloc]
    exact h
  · cases h

/-- No two CPUs have the same process. -/
theorem Inv.serves_unique (h : Inv s) (hc : (s.cpu c).loc.serves = some p) (hd : (s.cpu d).loc.serves = some p) :
    c = d :=
  h.excl.one c d p (Loc.serves_iff.mp hc) (Loc.serves_iff.mp hd)

/-- A CPU that has a process whose lock is free runs it. -/
theorem Inv.runs_of_free (h : Inv s) (hp : s.lock p = none) (hc : (s.cpu c).loc.serves = some p) :
    s.runs c = some p := by
  rcases Loc.serves_iff.mp hc with hr | hl
  · exact hr
  · have hheld := (h.locks c p).mp (Loc.holds_of_left hl)
    rw [hp] at hheld
    cases hheld

theorem inv_run {acts : List Act} {tr : List Ev} (h : run step boot acts = .ok (s, tr)) : Inv s :=
  run_inv (I := fun s _ => Inv s) inv_boot (fun _ _ _ _ _ hi hs => inv_step hi hs) h

variable {acts : List Act} {tr : List Ev}

/-- **One CPU to a process.** In every state of a run no two CPUs are on the same kernel stack;
a process whose lock is free is RUNNING if exactly one CPU has it as `c->proc`, and no CPU
has it otherwise; if it is RUNNABLE, its context is saved; and `freeproc` is applied only
to processes that no CPU has or executes. -/
theorem scheduler_exclusive (h : run step boot acts = .ok (s, tr)) :
    (∀ c d p, s.stack c = some p → s.stack d = some p → c = d) ∧
    (∀ p, s.lock p = none →
      ((s.proc p).state = .running ↔ ∃! c, (s.cpu c).proc = some p) ∧
      ((s.proc p).state ≠ .running → ∀ c, (s.cpu c).proc ≠ some p)) ∧
    (∀ p, s.lock p = none → (s.proc p).state = .runnable → s.Saved p) ∧
    ∀ a s' ev p, step s a = .ok (s', ev) → .freed p ∈ ev → ∀ c, s.stack c ≠ some p ∧ (s.cpu c).proc ≠ some p := by
  have hi := inv_run h
  have hserves : ∀ c, (s.cpu c).proc = (s.cpu c).loc.serves := fun c => (hi.cpus c).proc
  have hnone : ∀ p, s.lock p = none → (s.proc p).state ≠ .running → ∀ c, (s.cpu c).proc ≠ some p := by
    intro p hp hst c hc
    exact hst (hi.excl.runs c p (hi.runs_of_free hp (hserves c ▸ hc)))
  refine ⟨fun c d p hc hd => ?_, fun p hp => ⟨⟨fun hst => ?_, ?_⟩, hnone p hp⟩, fun p hp hst => ?_,
    fun a s' ev p hs hf => ?_⟩
  · exact hi.serves_unique (Sys.serves_of_stack hc) (Sys.serves_of_stack hd)
  · obtain ⟨c, hc⟩ := hi.excl.cpu p hst
    have hc' : (s.cpu c).loc.serves = some p := Loc.serves_iff.mpr (.inl hc)
    exact ⟨c, (hserves c).trans hc', fun d hd => hi.serves_unique (hserves d ▸ hd) hc'⟩
  · rintro ⟨c, hc, -⟩
    by_contra hst
    exact hnone p hp hst c hc
  · rcases hi.excl.ctx p (by simp [Sys.state, hst]) (by simp [Sys.state, hst]) with ⟨c, hc⟩ | hsaved
    · exact absurd ((hserves c).trans (Loc.serves_of_live hc)) (hnone p hp (by simp [hst]) c)
    · exact hsaved
  · obtain ⟨c, q, task, np, hloc, hst⟩ := step_freed hs hf
    intro d
    have hd := hi.not_served hloc hst d
    exact ⟨fun hstack => hd (Sys.serves_of_stack hstack), fun hproc => hd (hserves d ▸ hproc)⟩

/-- init runs on the CPU 0 and forks, and the CPU 1 takes the child. -/
def forkAndRun : List Act :=
  List.replicate 5 (.go 0 {}) ++ [.visit 0 1 .fork] ++ List.replicate 2 (.go 0 {}) ++ [.visit 0 1 .start] ++
    List.replicate 2 (.go 0 {}) ++ List.replicate 8 (.go 1 {})

theorem scheduler_exclusive_sample :
    ∃ s tr, run step boot forkAndRun = .ok (s, tr) ∧ s.stack 0 = some 0 ∧ s.stack 1 = some 1 ∧
      (s.proc 1).state = .running ∧ ∃! c, (s.cpu c).proc = some 1 := by
  obtain ⟨⟨s, tr⟩, hr, hs⟩ := okWith_iff.mp
    (show okWith (run step boot forkAndRun) (fun r => decide (r.1.stack 0 = some 0 ∧ r.1.stack 1 = some 1 ∧
      (r.1.proc 1).state = .running ∧ r.1.lock 1 = none)) = true by decide +kernel)
  simp only [decide_eq_true_eq] at hs
  obtain ⟨h0, h1, hst, hl⟩ := hs
  exact ⟨s, tr, hr, h0, h1, hst, ((scheduler_exclusive hr).2.1 1 hl).1.mp hst⟩

end Sched
end Xv6
