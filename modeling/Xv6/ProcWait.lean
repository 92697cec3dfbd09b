/-
# exit and wait

The protocol of `exit` and `wait` over any interleaving. A parent that has found
no zombie among its children goes to sleep; a child that exits wakes its parent
before it becomes a zombie. That no wakeup is lost rests on `wait_lock`: the
parent lets it go only once it holds its own lock, which `wakeup` needs, and the
child holds it from before the `wakeup` until it is a zombie. `Alert` is what
holds in between: a dozing parent (on its way into the scheduler, or asleep) has
no zombie child, except init while `reparent` is just about to wake it.

The trace tells who has exited and been reaped (`exitOf`); `Told` says that it
agrees with the table. `exit_wait` puts the parts together.

Key definitions: `Procs.Alert`, `Procs.exitOf`, `Procs.Told`.
-/
import Xv6.ProcTree

namespace Xv6
namespace Procs

open TraceSys

/-! ### No lost wakeup, in terms of the family -/

/-- A family in which nobody dozes beside a zombie. `Z` are the processes that
doze in `wait`, `S` the number of entries in which `wait` has found no zombie
child for its caller, `W` the number of entries that the `wakeup` of an exiting
process has visited; `A` says that init is about to be woken. -/
structure Alert (K : ℕ → Kind) (P : ℕ → Option ℕ) (Z : ℕ → Bool) (S W : ℕ → ℕ) (A : Prop) : Prop where
  scanned : ∀ p q, q < S p → P q = some p → K q ≠ .zombie
  asleep : ∀ p q, Z p = true → P q = some p → K q = .zombie → p = 0 ∧ A
  woken : ∀ r p, P r = some p → p < W r → Z p = false

namespace Alert

variable {K : ℕ → Kind} {P : ℕ → Option ℕ} {Z Z' : ℕ → Bool} {S S' W W' : ℕ → ℕ} {A A' : Prop} {k : Kind} {p q : ℕ}

/-- Fewer doze, and whom the bounds do not cover any more does not doze. -/
theorem mono (h : Alert K P Z S W A) (hZ : ∀ r, Z' r = true → Z r = true) (hS : ∀ r, S' r ≤ S r)
    (hW : ∀ r q, P r = some q → q < W' r → q < W r ∨ Z' q = false) (hA : A → A' ∨ Z' 0 = false) :
    Alert K P Z' S' W' A' where
  scanned p q hq := h.scanned p q (lt_of_lt_of_le hq (hS p))
  asleep p q hp hq hz := by
    obtain ⟨rfl, ha⟩ := h.asleep p q (hZ p hp) hq hz
    refine ⟨rfl, (hA ha).resolve_right ?_⟩
    simp [hp]
  woken r p hr hp := by
    rcases hW r p hr hp with hlt | hz
    · have hz := h.woken r p hr hlt
      by_contra hne
      rw [hZ p (by simpa using hne)] at hz
      cases hz
    · exact hz

theorem setKind (h : Alert K P Z S W A) (hk : k ≠ .zombie) : Alert (Function.update K q k) P Z S W A := by
  have hz : ∀ r, Function.update K q k r = .zombie → K r = .zombie := by
    intro r hr
    by_cases hrq : r = q
    · rw [hrq, Function.update_self] at hr
      exact absurd hr hk
    · rwa [Function.update_of_ne hrq] at hr
  refine ⟨fun p r hr hp hzr => ?_, fun p r hp hr hzr => ?_, h.woken⟩
  · exact h.scanned p r hr hp (hz r hzr)
  · exact h.asleep p r hp hr (hz r hzr)

theorem setParent (h : Alert K P Z S W A) (hq : K q ≠ .zombie) (hw : W q = 0) (r : Option ℕ) :
    Alert K (Function.update P q r) Z S W A := by
  obtain ⟨h1, h2, h3⟩ := h
  refine ⟨?_, ?_, ?_⟩
  all_goals grind [Function.update_apply]

/-- A child is given to init, which will be woken. -/
theorem reparent (h : Alert K P Z S W A) (hs : S 0 = 0) (hw : W q = 0) :
    Alert K (Function.update P q (some 0)) Z S W True := by
  obtain ⟨h1, h2, h3⟩ := h
  refine ⟨?_, ?_, ?_⟩
  all_goals grind [Function.update_apply]

/-- A process whose parent does not doze, and does not look for zombies, becomes one. -/
theorem die (h : Alert K P Z S W A) (hp : ∀ r, P p = some r → Z r = false ∧ S r = 0) :
    Alert (Function.update K p .zombie) P Z S W A := by
  obtain ⟨h1, h2, h3⟩ := h
  refine ⟨?_, ?_, h3⟩
  all_goals grind [Function.update_apply]

end Alert

/-! ### The processes that doze -/

/-- A process that stands here, with an entry of this state, has found no zombie
and waits for a wakeup. -/
def Pc.dozes : Pc → ProcState → Bool
  | .waitChan _, _ => true
  | .waitSched _, st | .waitAsleep _, st => decide (st = .sleeping)
  | _, _ => false

/-- The entries in which `wait` has found no zombie child when it stands here. -/
def Pc.scanned : Pc → ℕ
  | .waitScan _ i _ => i
  | .waitCheck .. | .waitSleep _ | .waitRelease _ => NPROC
  | _ => 0

/-- The entries that `wakeup(p->parent)` has visited when `exit` stands here. -/
def Pc.woken : Pc → ℕ
  | .exitWake _ _ j => j
  | .exitState _ => NPROC
  | _ => 0

namespace Sys

def dozes (s : Sys) (p : ℕ) : Bool := (s.pc p).dozes (s.proc p).state

def scanned (s : Sys) (p : ℕ) : ℕ := (s.pc p).scanned

def woken (s : Sys) (p : ℕ) : ℕ := (s.pc p).woken

/-- A `wakeup(initproc)` is about to visit init. -/
def Rousing (s : Sys) : Prop := ∃ p status i, s.pc p = .reparentWake status i 0

end Sys

/-- No process dozes beside a zombie child, and `exit` wakes the parent. -/
structure Watch (s : Sys) : Prop where
  alert : Alert s.kind s.parent s.dozes s.scanned s.woken s.Rousing
  chan : ∀ p status c j, s.pc p = .exitWake status c j → c = (s.proc p).parent.map .proc

variable {s s' : Sys} {p q j : ℕ} {pc : Pc} {e : Entry} {lk : Option ℕ} {a : Act} {ev : List Ev}

theorem ProcState.kind_eq_zombie {st : ProcState} : st.kind = .zombie ↔ st = .zombie := by
  cases st <;> simp [ProcState.kind]

theorem ProcState.kind_eq_free {st : ProcState} : st.kind = .free ↔ st = .unused := by
  cases st <;> simp [ProcState.kind]

theorem ProcState.kind_eq_forked {st : ProcState} : st.kind = .forked ↔ st = .used := by
  cases st <;> simp [ProcState.kind]

theorem Pc.fork_ne {np : ℕ} {b : Bool} (h1 : ∀ pid, pc ≠ .forkParent np pid) (h2 : ∀ pid, pc ≠ .forkRun np pid) :
    pc.fork ≠ some (np, b) := by
  intro h
  cases pc <;> simp_all [Pc.fork]

theorem Pc.holdsWait_of_scanned {n : ℕ} (h : n < pc.scanned) : pc.holdsWait = true := by
  cases pc <;> first | rfl | exact absurd h (Nat.not_lt_zero n)

theorem Pc.holdsWait_of_woken {n : ℕ} (h : n < pc.woken) : pc.holdsWait = true := by
  cases pc <;> first | rfl | exact absurd h (Nat.not_lt_zero n)

theorem Pc.not_dozes_of_holdsWait {st : ProcState} (h : pc.holdsWait = true) : pc.dozes st = false := by
  cases pc <;> first | rfl | cases h

/-! ### A process goes on -/

/-- A process dozes off when it lets `wait_lock` go. -/
theorem Move.dozes (h : Move s p pc e lk ev) (hd : pc.dozes e.state = true) :
    s.dozes p = true ∨ ∃ addr, s.pc p = .waitRelease addr := by
  cases h with
  | waitRelease h => exact .inr ⟨_, h⟩
  | waitChan h => exact .inl (by simp [Sys.dozes, h, Pc.dozes])
  | waitSched h =>
    refine .inl ?_
    rw [Sys.dozes, h]
    exact hd
  | yield h ho hw => cases pc <;> simp_all [Pc.dozes, Pc.holdsOwn]
  | dispatch hr ho =>
    unfold Sys.locked at ho
    cases hpc : s.pc p with
    | asleep x => cases x <;> simp [hpc, resume, Pc.dozes] at hd
    | _ => simp_all [resume, Pc.dozes, Pc.holdsOwn]
  | _ => cases hd

/-- `wait` passes an entry only when it is no zombie child. -/
theorem Move.scanned (h : Move s p pc e lk ev)
    (hs : ∀ q, q < (s.pc p).scanned → (s.proc q).parent = some p → (s.proc q).state ≠ .zombie) :
    ∀ q, q < pc.scanned → (s.proc q).parent = some p → (s.proc q).state ≠ .zombie := by
  intro q hq
  cases h with
  | waitNext h hi =>
    rw [h.pc] at hs
    rcases Nat.lt_succ_iff_lt_or_eq.mp hq with hlt | rfl
    · exact hs q hlt
    · exact hi
  | waitScanned h hi =>
    rw [h.pc] at hs
    have hq' : q < NPROC := hq
    exact hs q (lt_of_lt_of_le hq' (Nat.le_of_not_lt hi))
  | waitOn h | waitSleep h | yield h _ _ =>
    rw [h.pc] at hs
    exact hs q hq
  | dispatch hr ho =>
    have heq : (resume (s.pc p) (s.proc p)).1.scanned = (s.pc p).scanned := by
      cases s.pc p with
      | asleep x => cases x <;> rfl
      | _ => rfl
    exact hs q (heq ▸ hq)
  | _ => exact absurd hq (Nat.not_lt_zero q)

theorem Move.woken (h : Move s p pc e lk ev) {r : ℕ} (hr : r < pc.woken) : r < (s.pc p).woken ∨ r = p := by
  cases h with
  | exitSelf h =>
    rw [h.pc]
    exact Nat.lt_succ_iff_lt_or_eq.mp hr
  | exitWoken h hj =>
    rw [h.pc]
    have hr' : r < NPROC := hr
    exact .inl (lt_of_lt_of_le hr' (Nat.le_of_not_lt hj))
  | yield h _ _ => exact .inl (h.pc ▸ hr)
  | dispatch _ ho =>
    have heq : (resume (s.pc p) (s.proc p)).1.woken = (s.pc p).woken := by
      cases s.pc p with
      | asleep x => cases x <;> rfl
      | _ => rfl
    exact .inl (heq ▸ hr)
  | _ => exact absurd hr (Nat.not_lt_zero r)

/-- `exit` wakes its parent. -/
theorem Move.chan (h : Move s p pc e lk ev)
    (hc : ∀ status c j, s.pc p = .exitWake status c j → c = (s.proc p).parent.map .proc) {status : ℤ}
    {c : Option Chan} (hpc : pc = .exitWake status c j) : c = e.parent.map .proc := by
  cases h with
  | reparentDone h hi =>
    cases hpc
    rfl
  | exitSelf h =>
    cases hpc
    exact hc _ _ _ h.pc
  | yield h _ _ => exact hc _ _ _ (h.pc.trans hpc)
  | dispatch _ ho =>
    cases hp : s.pc p with
    | asleep x => cases x <;> simp [hp, resume] at hpc
    | exitWake st c' j' =>
      simp only [hp, resume, Pc.exitWake.injEq] at hpc
      obtain ⟨-, rfl, -⟩ := hpc
      simpa [hp, resume] using hc _ _ _ hp
    | _ => simp [hp, resume] at hpc
  | _ => cases hpc

theorem Move.not_rousing (h : Move s p pc e lk ev) (hf : Fit p (s.pc p) (s.proc p)) {status : ℤ} {i : ℕ}
    (hpc : s.pc p = .reparentWake status i 0) : pc = .reparentWake status i 0 := by
  have hp0 : p ≠ 0 := hf.ne_zero (by rw [hpc]; rfl)
  cases h with
  | reparentSelf h =>
    have := h.pc.symm.trans hpc
    simp only [Pc.reparentWake.injEq] at this
    exact absurd this.2.2 hp0
  | reparentWoken h hj =>
    have := h.pc.symm.trans hpc
    simp only [Pc.reparentWake.injEq] at this
    exact absurd (this.2.2 ▸ hj) (by decide)
  | dispatch _ ho => rw [hpc]; rfl
  | yield h _ _ => exact h.pc.symm.trans hpc
  | exitRelease h | exitSched h | waitRelease h | waitChan h | waitSched h => simp [hpc] at h
  | fork h | exit h _ | wait h | kill h | tend h | forkNext h | forkFull h | exitClose h | exitCwd h _ | exitLock h _
  | reparentNext h _ | reparentDone h _ | exitSelf h | exitWoken h _
  | waitLock h _ | waitNext h _ | waitFails h _ _ | waitScanned h _ | waitNone h | waitOn h | waitSleep h
  | killNext h | killNone h | sleep h | exitSleep h =>
    have := h.pc.symm.trans hpc
    cases this

theorem Placed.eq_of_holds {r : ℕ} (hs : Placed s) (hp : (s.pc p).holdsWait = true)
    (hr : (s.pc r).holdsWait = true) : p = r :=
  Option.some.inj (((hs.lock p).mp hp).symm.trans ((hs.lock r).mp hr))

theorem Sys.dozes_setPc (r : ℕ) : (s.setPc p pc).dozes r = if r = p then pc.dozes (s.proc p).state else s.dozes r := by
  simp only [Sys.dozes, Sys.setPc, Function.update_apply]
  split_ifs with hr
  · rw [hr]
  · rfl

theorem Sys.dozes_setProc (r : ℕ) : (s.setProc q e).dozes r = if r = q then (s.pc q).dozes e.state else s.dozes r := by
  simp only [Sys.dozes, Sys.setProc, Function.update_apply]
  split_ifs with hr
  · rw [hr]
  · rfl

theorem Sys.scanned_setPc (r : ℕ) : (s.setPc p pc).scanned r = if r = p then pc.scanned else s.scanned r := by
  simp only [Sys.scanned, Sys.setPc, Function.update_apply]
  split_ifs <;> rfl

theorem Sys.woken_setPc (r : ℕ) : (s.setPc p pc).woken r = if r = p then pc.woken else s.woken r := by
  simp only [Sys.woken, Sys.setPc, Function.update_apply]
  split_ifs <;> rfl

theorem Watch.move (h : Watch s) (hs : Placed s) (hm : Move s p pc e lk ev) : Watch (s.move p pc e lk) := by
  have hdoze : ∀ r, (s.move p pc e lk).dozes r = if r = p then pc.dozes e.state else s.dozes r := by
    intro r
    simp only [Sys.dozes, Sys.move, Function.update_apply]
    split_ifs <;> rfl
  have hscan : ∀ r, (s.move p pc e lk).scanned r = if r = p then pc.scanned else s.scanned r := Sys.scanned_setPc
  have hwoken : ∀ r, (s.move p pc e lk).woken r = if r = p then pc.woken else s.woken r := Sys.woken_setPc
  have hrous : s.Rousing → (s.move p pc e lk).Rousing := by
    rintro ⟨r, status, i, hr⟩
    refine ⟨r, status, i, ?_⟩
    simp only [Sys.move, Function.update_apply]
    split_ifs with hrp
    · subst hrp
      exact hm.not_rousing (hs.fit r) hr
    · exact hr
  obtain ⟨hk, hpar, -⟩ := hm.kin (hs.fit p)
  have hkind : (s.move p pc e lk).kind = s.kind := Sys.kind_setProc_same hk
  have hparent : (s.move p pc e lk).parent = s.parent := Sys.parent_setProc_same hpar
  refine ⟨⟨?_, ?_, ?_⟩, ?_⟩
  · rw [hkind, hparent]
    intro r q hq hrq hz
    rw [hscan] at hq
    split_ifs at hq with hrp
    · subst hrp
      refine hm.scanned (fun q hq hp hz => ?_) q hq hrq (ProcState.kind_eq_zombie.mp hz)
      exact h.alert.scanned r q hq hp (ProcState.kind_eq_zombie.mpr hz)
    · exact h.alert.scanned r q hq hrq hz
  · rw [hkind, hparent]
    intro r q hd hrq hz
    have hold : s.dozes r = true → r = 0 ∧ (s.move p pc e lk).Rousing := by
      intro hd
      obtain ⟨h0, ha⟩ := h.alert.asleep r q hd hrq hz
      exact ⟨h0, hrous ha⟩
    rw [hdoze] at hd
    split_ifs at hd with hrp
    · subst hrp
      rcases hm.dozes hd with hd | ⟨addr, hpc⟩
      · exact hold hd
      · -- it has looked at all its children, and held `wait_lock` since
        have hq : q < NPROC := by
          refine (hs.fit q).lt_of_ne_unused ?_
          rw [ProcState.kind_eq_zombie.mp hz]
          simp
        exact absurd hz (h.alert.scanned r q (by rw [Sys.scanned, hpc]; exact hq) hrq)
    · exact hold hd
  · rw [hparent]
    intro r q hr hq
    rw [hwoken] at hq
    rw [hdoze]
    split_ifs at hq ⊢ with hqp hrp hrp
    · exact Pc.not_dozes_of_holdsWait (Pc.holdsWait_of_woken hq)
    · subst hqp
      by_contra hne
      rcases hm.dozes (by simpa using hne) with hd | ⟨addr, hpc⟩
      · rw [h.alert.woken r q hr hq] at hd
        cases hd
      · exact hrp (hs.eq_of_holds (Pc.holdsWait_of_woken hq) (by rw [hpc]; rfl))
    · subst hrp
      rcases hm.woken hq with hlt | hrp
      · exact h.alert.woken r q hr hlt
      · exact absurd hrp hqp
    · exact h.alert.woken r q hr hq
  · intro r status c j hr
    simp only [Sys.move, Function.update_apply] at hr ⊢
    split_ifs at hr ⊢ with hrp
    · subst hrp
      exact hm.chan (fun status c j => h.chan r status c j) hr
    · exact h.chan r status c j hr

/-! ### An entry is visited -/

theorem Visit.state (h : Visit s j e p pc ev) : e.state = (s.proc j).state ∨ e.state = .runnable := by
  have hwake : ∀ c, ((s.proc j).wakeup c).state = (s.proc j).state ∨ ((s.proc j).wakeup c).state = .runnable := by
    intro c
    unfold Entry.wakeup
    split_ifs <;> simp
  cases h with
  | kill h hj hp =>
    simp only [Entry.kill]
    split_ifs <;> simp
  | _ => exact hwake _

theorem Pc.dozes_of_wake {st st' : ProcState} (hst : st' = st ∨ st' = .runnable) (h : pc.dozes st' = true) :
    pc.dozes st = true := by
  rcases hst with rfl | rfl
  · exact h
  · cases pc <;> simp_all [Pc.dozes]

/-- A visit makes nobody doze. -/
theorem Visit.dozes (h : Visit s j e p pc ev) (r : ℕ) (hr : ((s.setProc j e).setPc p pc).dozes r = true) :
    s.dozes r = true := by
  have hj : (s.pc j).dozes e.state = true → s.dozes j = true := Pc.dozes_of_wake h.state
  rw [Sys.dozes_setPc, Sys.dozes_setProc] at hr
  split_ifs at hr with hrp hrj
  · cases h with
    | other => exact hrp ▸ hj (by simpa [Sys.setProc] using hr)
    | _ => cases hr
  · exact hrj ▸ hj hr
  · exact hr

/-- Whom a `wakeup` of its own channel has visited does not doze. -/
theorem Fit.not_dozes_wakeup (h : Fit j pc e) (ho : pc.holdsOwn = false) :
    pc.dozes (e.wakeup (some (.proc j))).state = false := by
  cases pc with
  | waitAsleep addr =>
    by_cases hs : e.state = .sleeping
    · simp [Entry.wakeup, hs, h.chan rfl hs, Pc.dozes]
    · simp [Entry.wakeup, hs, Pc.dozes]
  | waitChan addr | waitSched addr => cases ho
  | _ => rfl

theorem Watch.visit (h : Watch s) (hs : Placed s) (hl : s.locked j = false) (hv : Visit s j e p pc ev) :
    Watch ((s.setProc j e).setPc p pc) := by
  obtain ⟨hk, hpar, -⟩ := hv.kin
  have hkind : ((s.setProc j e).setPc p pc).kind = s.kind := Sys.kind_setProc_same hk
  have hparent : ((s.setProc j e).setPc p pc).parent = s.parent := Sys.parent_setProc_same hpar
  have hself : j ≠ p → e = (s.proc j).wakeup (some (.proc j)) → ((s.setProc j e).setPc p pc).dozes j = false := by
    intro hjp he
    rw [Sys.dozes_setPc, if_neg hjp, Sys.dozes_setProc, if_pos rfl, he]
    exact (hs.fit j).not_dozes_wakeup hl
  refine ⟨?_, fun r status c i hr => ?_⟩
  · rw [hkind, hparent]
    refine h.alert.mono hv.dozes (fun r => ?_) (fun r q hr hq => ?_) ?_
    · rw [Sys.scanned_setPc]
      split_ifs with hrp
      · subst hrp
        cases hv <;> first | exact le_rfl | exact Nat.zero_le _
      · exact le_rfl
    · rw [Sys.woken_setPc] at hq
      split_ifs at hq with hrp
      · subst hrp
        cases hv with
        | other => exact .inl hq
        | @exit _ status c hr' hp =>
          rcases Nat.lt_succ_iff_lt_or_eq.mp hq with hlt | rfl
          · exact .inl (by rw [Sys.woken, hr'.pc]; exact hlt)
          · have hc := h.chan r status c q hr'.pc
            rw [show (s.proc r).parent = some q from hr] at hc
            exact .inr (hself hp (by rw [hc]; rfl))
        | _ => exact absurd hq (Nat.not_lt_zero q)
      · exact .inl hq
    · rintro ⟨r, status, i, hr⟩
      by_cases hrp : r = p
      · subst hrp
        cases hv with
        | other => exact .inl ⟨j, status, i, by simpa [Sys.setPc, Sys.setProc] using hr⟩
        | reparent hr' hp =>
          have h0 := hr'.pc.symm.trans hr
          simp only [Pc.reparentWake.injEq] at h0
          obtain ⟨-, -, rfl⟩ := h0
          exact .inr (hself hp rfl)
        | exit hr' _ | kill hr' _ _ => cases hr'.pc.symm.trans hr
      · exact .inl ⟨r, status, i, (Function.update_of_ne hrp ..).trans hr⟩
  · show c = (((s.setProc j e).setPc p pc).parent r).map .proc
    rw [hparent]
    by_cases hrp : r = p
    · subst hrp
      rw [show ((s.setProc j e).setPc r pc).pc r = pc from Function.update_self ..] at hr
      cases hv with
      | other => exact h.chan j status c i hr
      | exit hr' hp =>
        cases hr
        exact h.chan r status c j hr'.pc
      | _ => cases hr
    · rw [show ((s.setProc j e).setPc p pc).pc r = s.pc r from Function.update_of_ne hrp ..] at hr
      exact h.chan r status c i hr

/-! ### The table changes -/

/-- Where a process stands after it has changed the table: it neither dozes, nor looks
for zombies, nor wakes its parent. -/
def Pc.apart : Pc → Bool
  | .user | .forkParent .. | .forkRun .. | .reparentWake .. | .exitRelease => true
  | _ => false

theorem Pc.apart_spec (h : pc.apart = true) :
    (∀ st, pc.dozes st = false) ∧ pc.scanned = 0 ∧ pc.woken = 0 ∧ ∀ status c j, pc ≠ .exitWake status c j := by
  cases pc <;> first | exact ⟨fun _ => rfl, rfl, rfl, fun _ _ _ hx => by cases hx⟩ | cases h

/-- The process `p` goes on and an entry `q` changes, but does not doze off. What becomes of
the family is left to the caller. -/
theorem Watch.goes {K : ℕ → Kind} {P : ℕ → Option ℕ} {A : Prop} (h : Watch s)
    (hp : s'.proc = Function.update s.proc q e) (hpc : s'.pc = Function.update s.pc p pc)
    (hap : pc.apart = true) (hq : q = p ∨ ((s.pc q).dozes e.state = true → s.dozes q = true))
    (hc : ∀ status c j, s.pc q = .exitWake status c j → e.parent = (s.proc q).parent)
    (hk : s'.kind = K) (hP : s'.parent = P) (hA : A → s'.Rousing)
    (ha : Alert K P s.dozes s.scanned s.woken A) : Watch s' := by
  obtain ⟨hd, hS, hW, hx⟩ := Pc.apart_spec hap
  refine ⟨?_, fun r status c j hr => ?_⟩
  · rw [hk, hP]
    refine ha.mono (fun r hr => ?_) (fun r => ?_) (fun r i _ hi => .inl ?_) (fun ha => .inl (hA ha))
    · simp only [Sys.dozes, hp, hpc, Function.update_apply] at hr ⊢
      split_ifs at hr with hrp hrq hrq
      · simp [hd] at hr
      · simp [hd] at hr
      · subst hrq
        exact hq.resolve_left hrp hr
      · exact hr
    · simp only [Sys.scanned, hpc, Function.update_apply]
      split_ifs
      · simp [hS]
      · exact le_rfl
    · simp only [Sys.woken, hpc, Function.update_apply] at hi ⊢
      split_ifs at hi
      · simp [hW] at hi
      · exact hi
  · rw [hpc, Function.update_apply] at hr
    split_ifs at hr with hrp
    · exact absurd hr (hx status c j)
    · rw [hp, Function.update_apply]
      split_ifs with hrq
      · subst hrq
        rw [hc status c j hr]
        exact h.chan r status c j hr
      · exact h.chan r status c j hr

theorem Sys.Rousing.goes (h : s.Rousing) (hpc : s'.pc = Function.update s.pc p pc)
    (hne : ∀ status i, s.pc p ≠ .reparentWake status i 0) : s'.Rousing := by
  obtain ⟨r, status, i, hr⟩ := h
  have hrp : r ≠ p := by
    rintro rfl
    exact hne status i hr
  exact ⟨r, status, i, by rw [hpc, Function.update_of_ne hrp, hr]⟩

/-- **No step loses a wakeup.** -/
theorem watch_change (h : Watch s) (hs : Placed s) (hf : s.Family) (hc : Change s p s' ev) : Watch s' := by
  cases hc with
  | move hm => exact h.move hs hm
  | visit hl hv => exact h.visit hs hl hv
  | @forkFails _ np n _ hr hu hev =>
    have hd := (hs.fit np).dead_of_unused hu
    have hfree : (s.proc np).parent = none := hf.free np (congrArg ProcState.kind hu)
    exact h.goes rfl rfl rfl (.inr (by simp [hd, Pc.dozes]))
      (fun _ _ _ hx => by cases hd.symm.trans hx)
      (Sys.kind_setProc_same (by simp [hu, freeproc])) (Sys.parent_setProc_same hfree.symm)
      (fun ha => ha.goes rfl fun _ _ hx => by cases hr.pc.symm.trans hx) h.alert
  | @forkTakes _ np n hr hn hu =>
    have hd := (hs.fit np).dead_of_unused hu
    have hne : p ≠ np := fun hp => by simp [← hp, hr.running] at hu
    -- the entry is taken, then its parent goes on
    have h1 : Watch (s.move np .user (forkCopy (s.proc p)
        { s.proc np with pid := s.nextpid, state := .used, trapframe := true, pagetable := true }) s.waitLock) :=
      h.goes rfl rfl rfl (.inl rfl) (fun _ _ _ hx => by cases hd.symm.trans hx) (Sys.kind_setProc ..)
        (Sys.parent_setProc_same rfl) (fun ha => ha.goes rfl fun _ _ hx => by cases hd.symm.trans hx)
        (h.alert.setKind (by simp [forkCopy, ProcState.kind]))
    refine h1.goes (Function.update_eq_self np _).symm rfl rfl (.inr id) (fun _ _ _ _ => rfl) rfl rfl
      (fun ha => ha.goes rfl fun _ _ hx => ?_) h1.alert
    have hpc : Function.update s.pc np .user p = .forkScan np := (Function.update_of_ne hne ..).trans hr.pc
    cases hpc.symm.trans hx
  | @forkParent _ np pid hr hn =>
    have hk := (hf.forks p np false (congrArg Pc.fork hr.pc)).1
    have hd := (hs.fit np).user_of_used (ProcState.kind_eq_forked.mp hk)
    exact h.goes rfl rfl rfl (.inr id) (fun _ _ _ hx => by cases hd.symm.trans hx)
      (Sys.kind_setProc_same rfl) (Sys.parent_setProc ..)
      (fun ha => ha.goes rfl fun _ _ hx => by cases hr.pc.symm.trans hx)
      (h.alert.setParent (by simp [hk]) (congrArg Pc.woken hd) (some p))
  | @forkRuns _ np pid hr =>
    have hk := (hf.forks p np true (congrArg Pc.fork hr.pc)).1
    have hd := (hs.fit np).user_of_used (ProcState.kind_eq_forked.mp hk)
    exact h.goes rfl rfl rfl (.inr (by simp [hd, Pc.dozes]))
      (fun _ _ _ hx => by cases hd.symm.trans hx)
      (Sys.kind_setProc ..) (Sys.parent_setProc_same rfl)
      (fun ha => ha.goes rfl fun _ _ hx => by cases hr.pc.symm.trans hx) (h.alert.setKind (by simp [ProcState.kind]))
  | @reparent _ i status hr hi =>
    have hp0 : p ≠ 0 := (hs.fit p).ne_zero (by rw [hr.pc]; rfl)
    have hholds : (s.pc p).holdsWait = true := by rw [hr.pc]; rfl
    have hS : s.scanned 0 = 0 := by
      by_contra hne
      exact hp0 (hs.eq_of_holds hholds (Pc.holdsWait_of_scanned (Nat.pos_of_ne_zero hne)))
    have hW : s.woken i = 0 := by
      by_contra hne
      have hip := hs.eq_of_holds hholds (Pc.holdsWait_of_woken (Nat.pos_of_ne_zero hne))
      exact hne (by rw [← hip, Sys.woken, hr.pc]; rfl)
    refine h.goes rfl rfl rfl (.inr id) (fun st c j hx => ?_) (Sys.kind_setProc_same rfl) (Sys.parent_setProc ..)
      (fun _ => ⟨p, status, i, Function.update_self ..⟩) (h.alert.reparent hS hW)
    have hip := hs.eq_of_holds hholds (by rw [hx]; rfl)
    cases (hip ▸ hr.pc).symm.trans hx
  | @reap _ q addr k hr hp hz hul =>
    have hd := (hs.fit q).dead_of_zombie hz hul
    have h1 : Alert (Function.update s.kind q .free) (Function.update s.parent q none) s.dozes s.scanned s.woken
        s.Rousing :=
      (h.alert.setKind (by simp)).setParent (by simp) (congrArg Pc.woken hd) none
    exact h.goes rfl rfl rfl (.inr (by simp [hd, Pc.dozes]))
      (fun _ _ _ hx => by cases hd.symm.trans hx)
      (Sys.kind_setProc ..) (Sys.parent_setProc ..)
      (fun ha => ha.goes rfl fun _ _ hx => by cases hr.pc.symm.trans hx) h1
  | @exits _ status hr =>
    refine h.goes rfl rfl rfl (.inl rfl) (fun _ _ _ hx => by cases hr.pc.symm.trans hx) (Sys.kind_setProc ..)
      (Sys.parent_setProc_same rfl) (fun ha => ha.goes rfl fun _ _ hx => by cases hr.pc.symm.trans hx)
      (h.alert.die fun r hpr => ⟨?_, ?_⟩)
    · -- the parent has been visited by `wakeup`, and cannot doze off without `wait_lock`
      have hr' : r < NPROC := by
        refine (hs.fit r).lt_of_ne_unused fun hu => ?_
        have := hf.parentAlive p r hpr
        rw [Sys.kind, Function.comp, hu] at this
        cases this
      exact h.alert.woken p r hpr (by rw [Sys.woken, hr.pc]; exact hr')
    · by_contra hne
      have hrp : p = r := hs.eq_of_holds (by rw [hr.pc]; rfl) (Pc.holdsWait_of_scanned (Nat.pos_of_ne_zero hne))
      exact hne (by rw [← hrp, Sys.scanned, hr.pc]; rfl)

/-! ### What the trace tells of exits -/

/-- The status that a process in `exit` has been given. -/
def Pc.status : Pc → Option ℤ
  | .exitFiles st _ | .exitLock st | .reparent st _ | .reparentWake st _ _ | .exitWake st _ _ | .exitState st => some st
  | .asleep (some (st, _)) => some st
  | _ => none

/-- What is known of the exit of the process of entry `q` after one more event. -/
def note (q : ℕ) (x : Option (ℤ × ℤ)) : Ev → Option (ℤ × ℤ)
  | .exit p pid status => if p = q then some (pid, status) else x
  | .reaped _ r _ _ _ => if r = q then none else x
  | _ => x

/-- The pid and the status of the last call of `exit` by the process of entry `q`, unless
that has been reaped. -/
def exitOf (tr : List Ev) (q : ℕ) : Option (ℤ × ℤ) := tr.foldl (note q) none

/-- What the entry `e` of a process that stands at `pc` tells of its exit. -/
def told (pc : Pc) (e : Entry) : Option (ℤ × ℤ) :=
  if e.state = .zombie then some (e.pid, e.xstate) else pc.status.map fun status => (e.pid, status)

/-- The table agrees with the trace. -/
def Told (s : Sys) (tr : List Ev) : Prop := ∀ q, exitOf tr q = told (s.pc q) (s.proc q)

variable {tr : List Ev}

theorem exitOf_append (tr ev : List Ev) (q : ℕ) : exitOf (tr ++ ev) q = ev.foldl (note q) (exitOf tr q) :=
  List.foldl_append ..

theorem told_congr {pc' : Pc} {e' : Entry} (hpc : pc'.status = pc.status) (hz : e'.state = .zombie ↔ e.state = .zombie)
    (hp : e'.pid = e.pid) (hx : e'.xstate = e.xstate) : told pc' e' = told pc e := by
  simp only [told, hpc, hz, hp, hx]

/-- The process `p` goes on, the entry `q` changes, and the events are about `q`. -/
theorem Told.goes (h : Told s tr) (hp : s'.proc = Function.update s.proc q e) (hpc : s'.pc = Function.update s.pc p pc)
    (hst : p ≠ q → pc.status = (s.pc p).status) (hev : ∀ r x, r ≠ q → ev.foldl (note r) x = x)
    (hq : ev.foldl (note q) (told (s.pc q) (s.proc q)) = told (if q = p then pc else s.pc q) e) :
    Told s' (tr ++ ev) := by
  intro r
  rw [exitOf_append, h r, hp, hpc, Function.update_apply, Function.update_apply]
  by_cases hrq : r = q
  · rw [hrq, hq, if_pos rfl]
  · rw [hev r _ hrq, if_neg hrq]
    split_ifs with hrp
    · subst hrp
      exact told_congr (hst hrq).symm Iff.rfl rfl rfl
    · rfl

theorem Move.told (h : Move s p pc e lk ev) (hf : Fit p (s.pc p) (s.proc p)) :
    (∀ r x, r ≠ p → ev.foldl (note r) x = x) ∧ ev.foldl (note p) (told (s.pc p) (s.proc p)) = told pc e := by
  cases h with
  | exit h h0 =>
    refine ⟨fun r x hr => by simp [note, hr.symm], ?_⟩
    simp [note, Procs.told, h.running, Pc.status]
  | dispatch hr ho =>
    refine ⟨fun r x _ => rfl, ?_⟩
    cases hpc : s.pc p with
    | asleep x => cases x <;> simp [Procs.told, resume, hr, Pc.status]
    | _ => simp [Procs.told, resume, hr, Pc.status]
  | exitRelease h | exitSched h | waitRelease h | waitChan h | waitSched h =>
    refine ⟨fun r x _ => rfl, ?_⟩
    have hs := hf.state
    rw [h] at hs ⊢
    simp_all [Procs.told, Pc.Fits, Pc.status]
  | fork h | wait h | kill h | tend h | forkNext h | forkFull h | exitClose h | exitCwd h _ | exitLock h _
  | reparentNext h _ | reparentDone h _ | reparentSelf h | reparentWoken h _ | exitSelf h | exitWoken h _
  | waitLock h _ | waitNext h _ | waitFails h _ _ | waitScanned h _ | waitNone h | waitOn h | waitSleep h
  | killNext h | killNone h | sleep h | exitSleep h | yield h _ _ =>
    refine ⟨fun r x _ => rfl, ?_⟩
    simp [note, Procs.told, h.running, h.pc, Pc.status]

theorem Visit.told (h : Visit s j e p pc ev) :
    (∀ r x, ev.foldl (note r) x = x) ∧ pc.status = (s.pc p).status ∧
      (e.state = .zombie ↔ (s.proc j).state = .zombie) ∧ e.pid = (s.proc j).pid ∧ e.xstate = (s.proc j).xstate := by
  have hz : e.state = .zombie ↔ (s.proc j).state = .zombie := by
    rw [← ProcState.kind_eq_zombie, h.kin.1, ProcState.kind_eq_zombie]
  have hwake : ∀ c, ((s.proc j).wakeup c).pid = (s.proc j).pid ∧ ((s.proc j).wakeup c).xstate = (s.proc j).xstate := by
    intro c
    unfold Entry.wakeup
    split_ifs <;> exact ⟨rfl, rfl⟩
  cases h with
  | other => exact ⟨fun _ _ => rfl, rfl, hz, hwake _⟩
  | reparent h _ | exit h _ => exact ⟨fun _ _ => rfl, by rw [h.pc]; rfl, hz, hwake _⟩
  | kill h _ _ => exact ⟨fun _ _ => rfl, by rw [h.pc]; rfl, hz, rfl, rfl⟩

theorem told_of_idle (hs : pc.status = none) (hz : e.state ≠ .zombie) : told pc e = none := by
  simp [told, hs, hz]

/-- **A step tells what it does to the exits.** -/
theorem told_change (h : Told s tr) (hs : Placed s) (hf : s.Family) (hc : Change s p s' ev) : Told s' (tr ++ ev) := by
  cases hc with
  | move hm =>
    obtain ⟨h1, h2⟩ := hm.told (hs.fit p)
    exact h.goes rfl rfl (fun hp => absurd rfl hp) h1 (by rw [h2, if_pos rfl])
  | @visit j _ e pc _ hl hv =>
    obtain ⟨h1, hst, hz, hp, hx⟩ := hv.told
    refine h.goes rfl rfl (fun _ => hst) (fun r x _ => h1 r x) ?_
    rw [h1]
    split_ifs with hjp
    · exact (told_congr (hjp ▸ hst) hz hp hx).symm
    · exact (told_congr rfl hz hp hx).symm
  | @forkFails _ np n ev hr hu hev =>
    have hne : np ≠ p := fun hp => by simp [hp, hr.running] at hu
    have hd := (hs.fit np).dead_of_unused hu
    have hnote : ∀ r x, (ev ++ [Ev.ret p (-1)]).foldl (note r) x = x := by
      intro r x
      rcases hev with rfl | rfl <;> rfl
    refine h.goes rfl rfl (fun _ => (congrArg Pc.status hr.pc).symm) (fun r x _ => hnote r x) ?_
    rw [hnote, if_neg hne, hd, told_of_idle rfl (by simp [hu]), told_of_idle rfl (by simp [freeproc])]
  | @forkTakes _ np n hr hn hu =>
    have hne : np ≠ p := fun hp => by simp [hp, hr.running] at hu
    have hd := (hs.fit np).dead_of_unused hu
    have h1 : Told (s.move np .user (forkCopy (s.proc p)
        { s.proc np with pid := s.nextpid, state := .used, trapframe := true, pagetable := true }) s.waitLock)
        (tr ++ []) := by
      refine h.goes rfl rfl (fun hp => absurd rfl hp) (fun _ _ _ => rfl) ?_
      rw [if_pos rfl, hd, List.foldl_nil, told_of_idle rfl (by simp [hu]), told_of_idle rfl (by simp [forkCopy])]
    rw [List.append_nil] at h1
    have hpc : Function.update s.pc np .user p = .forkScan np := (Function.update_of_ne hne.symm ..).trans hr.pc
    refine h1.goes (Function.update_eq_self np _).symm rfl (fun _ => (congrArg Pc.status hpc).symm)
      (fun _ _ _ => rfl) ?_
    rw [if_neg hne]
    rfl
  | @forkParent _ np pid hr hn =>
    have hu := ProcState.kind_eq_forked.mp (hf.forks p np false (congrArg Pc.fork hr.pc)).1
    have hne : np ≠ p := fun hp => by simp [hp, hr.running] at hu
    refine h.goes rfl rfl (fun _ => (congrArg Pc.status hr.pc).symm) (fun _ _ _ => rfl) ?_
    rw [if_neg hne]
    rfl
  | @forkRuns _ np pid hr =>
    have hu := ProcState.kind_eq_forked.mp (hf.forks p np true (congrArg Pc.fork hr.pc)).1
    have hne : np ≠ p := fun hp => by simp [hp, hr.running] at hu
    have hd := (hs.fit np).user_of_used hu
    refine h.goes rfl rfl (fun _ => (congrArg Pc.status hr.pc).symm) (fun _ _ _ => rfl) ?_
    rw [if_neg hne, hd, List.foldl_cons, List.foldl_nil, told_of_idle rfl (by simp [hu])]
    exact (told_of_idle rfl (by simp)).symm
  | @reparent _ i status hr hi =>
    refine h.goes rfl rfl (fun _ => (congrArg Pc.status hr.pc).symm) (fun _ _ _ => rfl) ?_
    split_ifs with hip
    · subst hip
      rw [hr.pc]
      rfl
    · rfl
  | @reap _ q addr k hr hp hz hul =>
    have hne : q ≠ p := fun hp => by simp [hp, hr.running] at hz
    have hd := (hs.fit q).dead_of_zombie hz hul
    refine h.goes rfl rfl (fun _ => (congrArg Pc.status hr.pc).symm) (fun r x hrq => ?_) ?_
    · simp [note, hrq.symm]
    · rw [if_neg hne, hd]
      simp [note, told, freeproc, Pc.status]
  | @exits _ status hr =>
    refine h.goes rfl rfl (fun hp => absurd rfl hp) (fun _ _ _ => rfl) ?_
    rw [if_pos rfl, hr.pc]
    simp [told, hr.running, Pc.status]

/-! ### Reaping -/

/-- What a step of `wait` that frees an entry finds and returns. -/
theorem reaped_event {b addr : ℕ} {pid : ℤ} {x : Option ℤ} (hc : Change s b s' ev)
    (hm : .reaped p q pid addr x ∈ ev) :
    (s.proc q).parent = some p ∧ (s.proc q).state = .zombie ∧ (s.proc q).pid = pid ∧ x = stored addr (s.proc q) ∧
      ev = [.reaped p q pid addr x, .ret p pid] ∧ s'.proc q = freeproc (s.proc q) := by
  cases hc with
  | move h => cases h <;> simp at hm
  | visit _ h => cases h <;> simp at hm
  | forkFails _ _ hev => rcases hev with rfl | rfl <;> simp at hm
  | reap hr hp hz hl =>
    simp only [List.mem_cons, List.not_mem_nil, or_false, Ev.reaped.injEq, reduceCtorEq] at hm
    obtain ⟨rfl, rfl, rfl, rfl, rfl⟩ := hm
    exact ⟨hp, hz, rfl, rfl, rfl, Function.update_self ..⟩
  | _ => simp at hm

/-- A `wait` that cannot store the status leaves the table as it is. -/
theorem copyout_event {b : ℕ} (hc : Change s b s' ev) (hm : .copyoutFailed p q ∈ ev) :
    s'.proc = s.proc ∧ (s.proc q).parent = some p ∧ (s.proc q).state = .zombie := by
  cases hc with
  | move h =>
    cases h with
    | waitFails hr hp hz =>
      simp only [List.mem_cons, List.not_mem_nil, or_false, Ev.copyoutFailed.injEq, reduceCtorEq] at hm
      obtain ⟨rfl, rfl⟩ := hm
      exact ⟨Function.update_eq_self .., hp, hz⟩
    | _ => simp at hm
  | visit _ h => cases h <;> simp at hm
  | forkFails _ _ hev => rcases hev with rfl | rfl <;> simp at hm
  | _ => simp at hm

/-- Every reaping in the trace is that of the last exit of its entry: it returns the pid,
and stores the status if there is an address for it. -/
def Reaps (tr : List Ev) : Prop :=
  ∀ t1 t2 p q pid addr x, tr = t1 ++ .reaped p q pid addr x :: t2 →
    ∃ status, exitOf t1 q = some (pid, status) ∧ x = if addr ≠ 0 then some status else none

theorem exitOf_reaped {b addr : ℕ} {pid : ℤ} {x : Option ℤ} (ht : Told s tr) (hc : Change s b s' ev)
    (hm : .reaped p q pid addr x ∈ ev) :
    ∃ status, exitOf tr q = some (pid, status) ∧ x = if addr ≠ 0 then some status else none := by
  obtain ⟨-, hz, rfl, rfl, -⟩ := reaped_event hc hm
  exact ⟨(s.proc q).xstate, by rw [ht q, told, if_pos hz], rfl⟩

theorem Reaps.change {b : ℕ} (h : Reaps tr) (ht : Told s tr) (hc : Change s b s' ev) : Reaps (tr ++ ev) := by
  intro t1 t2 p q pid addr x heq
  rcases List.append_eq_append_iff.mp heq with ⟨l, rfl, hev⟩ | ⟨l, rfl, hl⟩
  · have hm : .reaped p q pid addr x ∈ ev := by
      rw [hev]
      simp
    have hnil : l = [] := by
      obtain ⟨-, -, -, -, hev', -⟩ := reaped_event hc hm
      rw [hev'] at hev
      rcases l with _ | ⟨y, _ | ⟨z, l⟩⟩
      · rfl
      · simp at hev
      · simp at hev
    rw [hnil, List.append_nil]
    exact exitOf_reaped ht hc hm
  · cases l with
    | nil =>
      have hm : .reaped p q pid addr x ∈ ev := by
        rw [← List.nil_append ev, ← hl]
        simp
      rw [List.append_nil] at ht
      exact exitOf_reaped ht hc hm
    | cons y l =>
      obtain ⟨rfl, -⟩ := List.cons.inj hl
      exact h t1 l p q pid addr x rfl

/-- What is known of an exit was known before, or has happened since. -/
theorem exit_of_note {pid status : ℤ} : ∀ {t : List Ev} {x : Option (ℤ × ℤ)},
    t.foldl (note q) x = some (pid, status) → x = some (pid, status) ∨ .exit q pid status ∈ t
  | [], _, h => .inl h
  | y :: t, x, h => by
    rcases exit_of_note (t := t) h with hy | hm
    · cases y with
      | exit p pid' status' =>
        simp only [note] at hy
        split_ifs at hy with hp
        · cases hy
          exact .inr (by simp [hp])
        · exact .inl hy
      | reaped p r pid' addr x =>
        simp only [note] at hy
        split_ifs at hy
        exact .inl hy
      | _ => exact .inl hy
    · exact .inr (List.mem_cons_of_mem _ hm)

/-! ### Whole runs -/

/-- What holds of every state and trace that a run reaches. -/
structure Inv (s : Sys) (tr : List Ev) : Prop where
  placed : Placed s
  family : s.Family
  watch : Watch s
  told : Told s tr
  reaps : Reaps tr

theorem Inv.step (h : Inv s tr) (hs : step s a = .ok (s', ev)) : Inv s' (tr ++ ev) := by
  have hc := step_change hs
  have hfork : ∀ p np pid, s.pc p = .forkRun np pid → (s.proc np).state = .used := fun p np _ hpc =>
    ProcState.kind_eq_forked.mp (h.family.forks p np true (congrArg Pc.fork hpc)).1
  exact ⟨placed_change h.placed hfork hc, family_change h.family h.placed hc,
    watch_change h.watch h.placed h.family hc, told_change h.told h.placed h.family hc, h.reaps.change h.told hc⟩

theorem boot_pc (p : ℕ) : boot.pc p = if p = 0 then .user else .dead :=
  Function.update_apply (fun _ => Pc.dead) 0 .user p

theorem boot_proc (p : ℕ) : boot.proc p =
    if p = 0 then { (allocproc {} 1 {}).1 with sz := PGSIZE, cwd := some 1, state := .runnable } else {} :=
  Function.update_apply (fun _ => ({} : Entry)) 0 _ p

theorem placed_boot : Placed boot := by
  refine ⟨fun p => ?_, fun p => ?_⟩
  · rw [boot_pc, boot_proc]
    split_ifs with hp
    · exact ⟨.inr (.inr rfl), fun h => (by cases h), fun _ => ⟨rfl, by simp⟩, fun h => absurd (hp ▸ h) (by decide)⟩
    · exact ⟨.inr rfl, fun h => (by cases h), fun h => absurd h hp, fun _ => rfl⟩
  · rw [boot_pc]
    split_ifs <;> simp [Pc.holdsWait, boot]

theorem boot_kind (p : ℕ) : boot.kind p = if p = 0 then .alive else .free := by
  rw [Sys.kind, Function.comp, boot_proc]
  split_ifs <;> rfl

theorem boot_parent (p : ℕ) : boot.parent p = none := by
  rw [Sys.parent, Function.comp, boot_proc]
  split_ifs <;> rfl

theorem family_boot : boot.Family := by
  have hF : ∀ p, boot.fork p = none := by
    intro p
    rw [Sys.fork, Function.comp, boot_pc]
    split_ifs <;> rfl
  have hD : ∀ p, boot.disowned p = 0 := by
    intro p
    rw [Sys.disowned, Function.comp, boot_pc]
    split_ifs <;> rfl
  refine ⟨fun q _ => boot_parent q, ?_, fun q hq h => ?_, ?_, fun q h => ?_, ?_, ?_⟩
  · simp [boot_parent]
  · simp [boot_kind, hq] at h
  · simp [hF]
  · rw [boot_kind] at h
    split_ifs at h
  · simp [hF]
  · simp [hD]

theorem watch_boot : Watch boot := by
  refine ⟨⟨?_, ?_, ?_⟩, fun p status c j h => ?_⟩
  · simp [boot_parent]
  · simp [boot_parent]
  · simp [boot_parent]
  · rw [boot_pc] at h
    split_ifs at h

theorem inv_boot : Inv boot [] := by
  refine ⟨placed_boot, family_boot, watch_boot, fun q => ?_, fun t1 t2 p q pid addr x h => ?_⟩
  · rw [boot_pc, boot_proc]
    split_ifs <;> rfl
  · simp at h

theorem run_inv_exit {acts : List Act} (h : run step boot acts = .ok (s, tr)) : Inv s tr :=
  run_inv inv_boot (fun _ _ _ _ _ hi hs => hi.step hs) h

/-- **The protocol of `exit` and `wait`**, in every state of every run, whatever the processes
call and however they interleave.

A process whose fork is complete, init apart, has a parent that is alive. A reaping is that
of the last exit of its entry, and there is no second one without another exit in between;
it is done by the parent of the zombie, and returns and stores what the zombie left; a
`wait` that fails to store the status leaves the table as it is. While nobody holds
`wait_lock`, no process sleeps in `wait` beside a zombie child. -/
theorem exit_wait {acts : List Act} (h : run step boot acts = .ok (s, tr)) :
    (∀ q, q ≠ 0 → (s.proc q).state ≠ .unused → (∀ p pid, s.pc p ≠ .forkParent q pid ∧ s.pc p ≠ .forkRun q pid) →
      ∃ r, (s.proc q).parent = some r ∧ (s.proc r).state ≠ .unused ∧ (s.proc r).state ≠ .zombie) ∧
    (∀ t1 t2 p q pid addr x, tr = t1 ++ .reaped p q pid addr x :: t2 →
      ∃ status, exitOf t1 q = some (pid, status) ∧ x = if addr ≠ 0 then some status else none) ∧
    (∀ t1 t2 t3 p p' q pid pid' addr addr' x x',
      tr = t1 ++ .reaped p q pid addr x :: (t2 ++ .reaped p' q pid' addr' x' :: t3) →
      ∃ status, .exit q pid' status ∈ t2) ∧
    (∀ a s' ev p q pid addr x, step s a = .ok (s', ev) → .reaped p q pid addr x ∈ ev →
      (s.proc q).parent = some p ∧ (s.proc q).state = .zombie ∧ (s.proc q).pid = pid ∧
      (addr ≠ 0 → x = some (s.proc q).xstate) ∧ ev = [.reaped p q pid addr x, .ret p pid] ∧
      (s'.proc q).state = .unused) ∧
    (∀ a s' ev p q, step s a = .ok (s', ev) → .copyoutFailed p q ∈ ev →
      s'.proc = s.proc ∧ (s.proc q).parent = some p ∧ (s.proc q).state = .zombie) ∧
    (s.waitLock = none → ∀ p q, (s.pc p).inWait = true → (s.proc p).state = .sleeping →
      (s.proc q).parent = some p → (s.proc q).state ≠ .zombie) := by
  have hi := run_inv_exit h
  refine ⟨?_, hi.reaps, ?_, ?_, ?_, ?_⟩
  · intro q h0 hu hf
    have hk : s.kind q = .alive ∨ s.kind q = .zombie := by
      cases hq : s.kind q with
      | free => exact absurd (ProcState.kind_eq_free.mp hq) hu
      | forked =>
        obtain ⟨p, b, hb⟩ := hi.family.forker q hq
        exact absurd hb (Pc.fork_ne (fun pid => (hf p pid).1) (fun pid => (hf p pid).2))
      | alive => exact .inl rfl
      | zombie => exact .inr rfl
    obtain ⟨r, hr⟩ := Option.ne_none_iff_exists'.mp (hi.family.hasParent q h0 hk)
    have hlive : (s.proc r).state.kind = .alive := hi.family.parentAlive q r hr
    refine ⟨r, hr, fun hs => ?_, fun hs => ?_⟩
    · simp [hs, ProcState.kind] at hlive
    · simp [hs, ProcState.kind] at hlive
  · intro t1 t2 t3 p p' q pid pid' addr addr' x x' heq
    obtain ⟨status, hst, -⟩ := hi.reaps (t1 ++ .reaped p q pid addr x :: t2) t3 p' q pid' addr' x' (by simpa using heq)
    rw [exitOf_append, List.foldl_cons] at hst
    have hn : note q (exitOf t1 q) (.reaped p q pid addr x) = none := by simp [note]
    rw [hn] at hst
    exact ⟨status, (exit_of_note hst).resolve_left (by simp)⟩
  · intro a s' ev p q pid addr x hs hm
    obtain ⟨hp, hz, hpid, hx, hev, hq⟩ := reaped_event (step_change hs) hm
    refine ⟨hp, hz, hpid, fun ha => ?_, hev, by rw [hq]; rfl⟩
    rw [hx, stored, if_pos ha]
  · intro a s' ev p q hs hm
    exact copyout_event (step_change hs) hm
  · intro hl p q hw hst hp hz
    have hd : s.dozes p = true := by
      unfold Sys.dozes
      cases hpc : s.pc p <;> simp_all [Pc.inWait, Pc.dozes]
    obtain ⟨-, r, status, i, hr⟩ := hi.watch.alert.asleep p q hd hp (ProcState.kind_eq_zombie.mpr hz)
    have hlock := (hi.placed.lock r).mp (by rw [hr]; rfl)
    simp [hl] at hlock

/-- Init forks and sleeps in `wait`; the child calls `exit(7)`, wakes it and is reaped. -/
def waitForChild : List Act :=
  [.dispatch 0, .call 0 .fork] ++ List.replicate 4 (.go 0 {}) ++ [.call 0 (.wait 4096)] ++
    List.replicate (NPROC + 7) (.go 0 {}) ++ [.dispatch 1, .call 1 (.exit 7)] ++
    List.replicate (NOFILE + 2 + (NPROC + 1) + (NPROC + 1) + 3) (.go 1 {}) ++ [.dispatch 0] ++
    List.replicate 3 (.go 0 {})

theorem exit_wait_sample :
    ∃ s tr, run step boot waitForChild = .ok (s, tr) ∧
      tr = [.allocproc 0 1 false, .ret 0 2, .exit 1 2 7] ++ .reaped 0 1 2 4096 (some 7) :: [.ret 0 2] ∧
      ∃ status, exitOf [.allocproc 0 1 false, .ret 0 2, .exit 1 2 7] 1 = some (2, status) ∧ some 7 = some status := by
  obtain ⟨⟨s, tr⟩, hr, hs⟩ := okWith_iff.mp
    (show okWith (run step boot waitForChild) (fun r => decide (r.2 =
      [.allocproc 0 1 false, .ret 0 2, .exit 1 2 7] ++ .reaped 0 1 2 4096 (some 7) :: [.ret 0 2])) = true by
      decide +kernel)
  simp only [decide_eq_true_eq] at hs
  exact ⟨s, tr, hr, hs, (exit_wait hr).2.1 _ _ _ _ _ _ _ hs⟩

end Procs
end Xv6
