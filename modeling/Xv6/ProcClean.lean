/-
# Free entries of the process table

`allocproc` does not reset an entry: it relies on `freeproc` and `exit` having
cleared it, and on nobody having written to it since. `kill` does write to it.
It compares only the pid, and a free entry has pid 0, so `kill(0)` marks the
first free entry it comes to and returns 0; the next process that is forked into
it starts out killed (`kill_zero_marks_free`).

`KillsUsed` is the condition that excludes this and nothing more: no `kill` that
looks for pid 0 comes to an UNUSED entry. Where it holds, every free entry is
clean in every state, and a step keeps them so if and only if it meets the
condition (`fresh_clean`).

Key definitions: `Procs.Entry.Clean`, `Procs.KillsUsed`, `Procs.Tidy`.
-/
import Xv6.Proc

namespace Xv6
namespace Procs

open TraceSys

/-- What `exit` leaves of the resources of a process. -/
def Entry.Closed (e : Entry) : Prop := (∀ fd, fd < NOFILE → e.ofile fd = none) ∧ e.cwd = none

/-- Nothing of an earlier process is left in the entry. -/
structure Entry.Clean (e : Entry) : Prop where
  pid : e.pid = 0
  killed : e.killed = false
  xstate : e.xstate = 0
  chan : e.chan = none
  sz : e.sz = 0
  pagetable : e.pagetable = false
  trapframe : e.trapframe = false
  closed : e.Closed

/-- No `kill` that looks for pid 0 comes to an UNUSED entry. -/
def KillsUsed (s : Sys) : Act → Prop
  | .go p _ => ∀ i, s.pc p = .kill 0 i → i < NPROC → (s.proc i).state ≠ .unused
  | _ => True

/-- The files that `exit` has closed when it stands here. -/
def Pc.closed : Pc → ℕ
  | .exitFiles _ fd | .asleep (some (_, fd)) => fd
  | .exitLock _ | .reparent .. | .reparentWake .. | .exitWake .. | .exitState _ => NOFILE
  | _ => 0

/-- `exit` has given up the working directory when it stands here. -/
def Pc.left : Pc → Bool
  | .exitLock _ | .reparent .. | .reparentWake .. | .exitWake .. | .exitState _ => true
  | _ => false

/-- A process in `exit` has closed what it says it has. -/
def Closing (pc : Pc) (e : Entry) : Prop :=
  (∀ fd, fd < pc.closed → e.ofile fd = none) ∧ (pc.left = true → e.cwd = none)

/-- Free entries are clean, and the entries on their way there are closed. -/
structure Tidy (s : Sys) : Prop where
  free : ∀ q, (s.proc q).state = .unused → (s.proc q).Clean
  zombie : ∀ q, (s.proc q).state = .zombie → (s.proc q).Closed
  closing : ∀ p, Closing (s.pc p) (s.proc p)

variable {s s' : Sys} {p q j : ℕ} {pc : Pc} {e : Entry} {lk : Option ℕ} {a : Act} {ev : List Ev}

theorem Closing.closed {status : ℤ} (h : Closing (.exitState status) e) : e.Closed :=
  ⟨fun fd hfd => h.1 fd hfd, h.2 rfl⟩

theorem closing_of_idle (hc : pc.closed = 0) (hl : pc.left = false) : Closing pc e :=
  ⟨fun fd hfd => by simp [hc] at hfd, fun h => by simp [hl] at h⟩

theorem Closing.congr {e' : Entry} (h : Closing pc e) (hf : e'.ofile = e.ofile) (hd : e'.cwd = e.cwd) :
    Closing pc e' := by
  rw [Closing, hf, hd]
  exact h

theorem Entry.Closed.clean (h : e.Closed) : (freeproc e).Clean :=
  ⟨rfl, rfl, rfl, rfl, rfl, rfl, rfl, h⟩

/-! ### The steps -/

/-- The state of a free entry or a zombie is not changed by its process. -/
theorem Move.entry (h : Move s p pc e lk ev) :
    e = s.proc p ∨ (e.state ≠ .unused ∧ e.state ≠ .zombie) := by
  cases h with
  | tend h => exact .inr (by simp [h.running])
  | exitClose h => exact .inr (by simp [h.running])
  | exitCwd h => exact .inr (by simp [h.running])
  | dispatch h ho =>
    refine .inr ?_
    unfold resume
    split <;> simp
  | _ => first | exact .inl rfl | exact .inr (by simp)

theorem resume_closing (h : Closing pc e) : Closing (resume pc e).1 (resume pc e).2 := by
  unfold resume
  split
  all_goals exact h

/-- `exit` closes one file after the other, then the directory. -/
theorem Move.closing (h : Move s p pc e lk ev) (hc : Closing (s.pc p) (s.proc p)) : Closing pc e := by
  cases h with
  | @exitClose status fd h =>
    rw [h.pc] at hc
    refine ⟨fun k hk => ?_, fun h => by cases h⟩
    simp only [Pc.closed] at hk
    show Function.update (s.proc p).ofile fd none k = none
    by_cases hkf : k = fd
    · rw [hkf, Function.update_self]
    · rw [Function.update_of_ne hkf]
      exact hc.1 k (by simp only [Pc.closed]; omega)
  | exitCwd h hfd =>
    rw [h.pc] at hc
    refine ⟨fun k hk => hc.1 k ?_, fun _ => rfl⟩
    simp only [Pc.closed] at hk ⊢
    omega
  | dispatch h ho => exact resume_closing hc
  | yield h ho hw =>
    rw [h.pc] at hc
    exact hc
  | exitLock h hl | reparentNext h hi | reparentDone h hi | reparentSelf h | reparentWoken h hj
  | exitSelf h | exitWoken h hj | exitSleep h =>
    rw [h.pc] at hc
    exact hc
  | _ => exact closing_of_idle rfl rfl

/-- A visit leaves the files alone, and a free entry altogether unless it is killed. -/
theorem Visit.entry (h : Visit s j e p pc ev) :
    e.ofile = (s.proc j).ofile ∧ e.cwd = (s.proc j).cwd ∧ (e.state = .zombie → (s.proc j).state = .zombie) ∧
      (e.state = .unused → (s.proc j).state = .unused ∧ (e = s.proc j ∨ .killed p j ∈ ev)) := by
  have hwake : ∀ c, ((s.proc j).wakeup c).ofile = (s.proc j).ofile ∧
      ((s.proc j).wakeup c).cwd = (s.proc j).cwd ∧
      (((s.proc j).wakeup c).state = .zombie → (s.proc j).state = .zombie) ∧
      (((s.proc j).wakeup c).state = .unused →
        (s.proc j).state = .unused ∧ ((s.proc j).wakeup c = s.proc j ∨ .killed p j ∈ ev)) := by
    intro c
    unfold Entry.wakeup
    split_ifs with hw
    · simp
    · exact ⟨rfl, rfl, id, fun hu => ⟨hu, .inl rfl⟩⟩
  cases h with
  | kill h hj hp =>
    refine ⟨rfl, rfl, ?_, fun hu => ⟨?_, .inr (by simp)⟩⟩
    · intro hz
      simp only [Entry.kill] at hz
      split_ifs at hz
      exact hz
    · simp only [Entry.kill] at hu
      split_ifs at hu
      exact hu
  | _ => exact hwake _

theorem Visit.closing (h : Visit s j e p pc ev) (hc : Closing (s.pc p) (s.proc p)) :
    Closing pc (s.proc p) := by
  cases h with
  | other => exact hc
  | kill h hj hp => exact closing_of_idle rfl rfl
  | reparent h hp | exit h hp =>
    rw [h.pc] at hc
    exact hc

theorem Tidy.move (h : Tidy s) (hf : e.state = .unused → e.Clean) (hz : e.state = .zombie → e.Closed)
    (hc : Closing pc e) : Tidy (s.move p pc e lk) := by
  have hproc : ∀ r, (s.move p pc e lk).proc r = if r = p then e else s.proc r := fun r => Function.update_apply ..
  have hpc : ∀ r, (s.move p pc e lk).pc r = if r = p then pc else s.pc r := fun r => Function.update_apply ..
  refine ⟨fun r hr => ?_, fun r hr => ?_, fun r => ?_⟩
  · rw [hproc] at hr ⊢
    split_ifs at hr ⊢
    · exact hf hr
    · exact h.free r hr
  · rw [hproc] at hr ⊢
    split_ifs at hr ⊢
    · exact hz hr
    · exact h.zombie r hr
  · rw [hproc, hpc]
    split_ifs
    · exact hc
    · exact h.closing r

theorem Tidy.setPc (h : Tidy s) (hc : Closing pc (s.proc p)) : Tidy (s.setPc p pc) := by
  rw [Sys.setPc_eq_move]
  exact h.move (h.free p) (h.zombie p) hc

theorem Tidy.setProc (h : Tidy s) (hf : e.state = .unused → e.Clean) (hz : e.state = .zombie → e.Closed)
    (hc : Closing (s.pc q) e) : Tidy (s.setProc q e) := by
  rw [Sys.setProc_eq_move]
  exact h.move hf hz hc

/-- The entry `q` changes, but not its state or its files. -/
theorem Tidy.setProc_same (h : Tidy s) (hf : e.state = .unused → e.Clean)
    (hz : e.state = .zombie → (s.proc q).state = .zombie) (ho : e.ofile = (s.proc q).ofile)
    (hd : e.cwd = (s.proc q).cwd) : Tidy (s.setProc q e) := by
  refine h.setProc hf (fun hs => ?_) ((h.closing q).congr ho hd)
  rw [Entry.Closed, ho, hd]
  exact h.zombie q (hz hs)

theorem Tidy.setParent (h : Tidy s) (r : Option ℕ) : Tidy (s.setProc q { s.proc q with parent := r }) := by
  have hf : (s.proc q).state = .unused → { s.proc q with parent := r }.Clean := by
    intro hs
    obtain ⟨h1, h2, h3, h4, h5, h6, h7, h8⟩ := h.free q hs
    exact ⟨h1, h2, h3, h4, h5, h6, h7, h8⟩
  exact h.setProc_same hf id rfl rfl

theorem Tidy.of_eq (h : Tidy s) (hp : s'.proc = s.proc) (hpc : s'.pc = s.pc) : Tidy s' := by
  refine ⟨?_, ?_, ?_⟩
  · rw [hp]
    exact h.free
  · rw [hp]
    exact h.zombie
  · rw [hp, hpc]
    exact h.closing

/-- **A step keeps the table tidy** unless it kills a free entry. -/
theorem tidy_change (h : Tidy s) (hc : Change s p s' ev)
    (hk : ∀ p q, .killed p q ∈ ev → (s.proc q).state ≠ .unused) : Tidy s' := by
  cases hc with
  | move hm =>
    rcases hm.entry with rfl | ⟨hu, hz⟩
    · exact h.move (h.free p) (h.zombie p) (hm.closing (h.closing p))
    · exact h.move (fun h => absurd h hu) (fun h => absurd h hz) (hm.closing (h.closing p))
  | @visit j _ e pc _ hl hv =>
    obtain ⟨ho, hd, hz, hu⟩ := hv.entry
    refine Tidy.setPc (h.setProc_same (fun hs => ?_) hz ho hd) ?_
    · obtain ⟨hs', he | he⟩ := hu hs
      · rw [he]
        exact h.free j hs'
      · exact absurd hs' (hk p j he)
    · have hcl := hv.closing (h.closing p)
      simp only [Sys.setProc, Function.update_apply]
      split_ifs with hpj
      · subst hpj
        exact hcl.congr ho hd
      · exact hcl
  | @forkFails _ np n _ hr hu hev =>
    have hclean : (freeproc (s.proc np)).Clean := (h.free np hu).closed.clean
    have h' : Tidy { s with nextpid := n } := h.of_eq rfl rfl
    have h1 : Tidy ({ s with nextpid := n }.setProc np (freeproc (s.proc np))) :=
      h'.setProc_same (fun _ => hclean) (fun hz => by cases hz) rfl rfl
    exact h1.setPc (closing_of_idle rfl rfl)
  | @forkTakes _ np n hr hn hu =>
    have h' : Tidy { s with nextpid := n } := h.of_eq rfl rfl
    -- the child starts in `forkret`, with the files of its parent
    have h1 : Tidy ({ s with nextpid := n }.move np .user (forkCopy (s.proc p)
        { s.proc np with pid := s.nextpid, state := .used, trapframe := true, pagetable := true }) s.waitLock) :=
      h'.move (fun hs => by cases hs) (fun hz => by cases hz) (closing_of_idle rfl rfl)
    exact h1.setPc (closing_of_idle rfl rfl)
  | forkParent hr hl => exact (h.setParent (some p)).setPc (closing_of_idle rfl rfl)
  | @forkRuns _ np pid hr =>
    have h1 : Tidy (s.setProc np { s.proc np with state := .runnable }) :=
      h.setProc_same (fun hs => by cases hs) (fun hz => by cases hz) rfl rfl
    exact h1.setPc (closing_of_idle rfl rfl)
  | @reparent _ i status hr hi =>
    refine (h.setParent (some 0)).setPc ?_
    have hcl := h.closing p
    rw [hr.pc] at hcl
    simp only [Sys.setProc, Function.update_apply]
    split_ifs with hpi
    · subst hpi
      exact hcl
    · exact hcl
  | @reap _ q addr k hr hp hz hl =>
    have h' : Tidy { s with waitLock := none } := h.of_eq rfl rfl
    have h1 : Tidy ({ s with waitLock := none }.setProc q (freeproc (s.proc q))) :=
      h'.setProc_same (fun _ => (h.zombie q hz).clean) (fun hz => by cases hz) rfl rfl
    exact h1.setPc (closing_of_idle rfl rfl)
  | @exits _ status hr =>
    have hcl := h.closing p
    rw [hr.pc] at hcl
    have h1 : Tidy (s.setProc p { s.proc p with xstate := status, state := .zombie }) :=
      h.setProc (fun hs => by cases hs) (fun _ => hcl.closed) (hr.pc ▸ hcl)
    exact h1.setPc (closing_of_idle rfl rfl)

/-- A `kill` that returns 0 is a step of its process at the entry that it marks. -/
theorem killed_event (h : step s a = .ok (s', ev)) (hk : .killed p q ∈ ev) :
    (∃ m, a = .go p m) ∧ q < NPROC ∧ s.pc p = .kill (s.proc q).pid q ∧
      s' = (s.setProc q (s.proc q).kill).setPc p .user := by
  have hc := step_change h
  generalize hb : a.proc = b at hc
  cases hc with
  | move hm => cases hm <;> simp at hk
  | visit hl hv =>
    cases hv with
    | kill hr hj hpid =>
      obtain ⟨rfl, rfl⟩ : p = b ∧ q = _ := by simpa using hk
      subst hpid
      refine ⟨?_, hj, hr.pc, rfl⟩
      cases a with
      | go p' m =>
        obtain rfl : p' = p := hb
        exact ⟨m, rfl⟩
      | call p' _ | sleep p' _ =>
        obtain rfl : p' = p := hb
        simp [step, hr.pc] at h
      | wakeup _ _ | yield _ | dispatch _ =>
        simp only [step] at h
        split_ifs at h
        simp at h
    | _ => simp at hk
  | forkFails _ _ hev => rcases hev with rfl | rfl <;> simp at hk
  | _ => simp at hk

theorem killsUsed_iff (ht : Tidy s) (h : step s a = .ok (s', ev)) :
    KillsUsed s a ↔ ∀ p q, .killed p q ∈ ev → (s.proc q).state ≠ .unused := by
  constructor
  · intro hk p q hm hu
    obtain ⟨⟨m, rfl⟩, hq, hpc, -⟩ := killed_event h hm
    rw [(ht.free q hu).pid] at hpc
    exact hk q hpc hq hu
  · intro hk
    cases a with
    | go p m =>
      intro i hpc hi hu
      refine hk p i ?_ hu
      simp only [step, go, hpc, hi, if_true, (ht.free i hu).pid] at h
      split_ifs at h
      cases h
      simp
    | _ => trivial

/-- An UNUSED entry that is killed is not clean. -/
theorem free_iff_killsUsed (ht : Tidy s) (h : step s a = .ok (s', ev)) :
    KillsUsed s a ↔ ∀ q, (s'.proc q).state = .unused → (s'.proc q).Clean := by
  constructor
  · intro hk
    exact (tidy_change ht (step_change h) ((killsUsed_iff ht h).mp hk)).free
  · intro hf
    rw [killsUsed_iff ht h]
    intro p q hm hu
    obtain ⟨-, -, -, rfl⟩ := killed_event h hm
    have he : (((s.setProc q (s.proc q).kill).setPc p .user).proc q) = (s.proc q).kill := Function.update_self ..
    have hclean := hf q (by rw [he]; simp [Entry.kill, hu])
    rw [he] at hclean
    exact absurd hclean.killed (by simp [Entry.kill])

/-- `allocproc` returns the flag that it finds. -/
theorem allocproc_event {np : ℕ} {k : Bool} (hc : Change s q s' ev) (hm : .allocproc p np k ∈ ev) :
    (s.proc np).state = .unused ∧ k = (s.proc np).killed := by
  cases hc with
  | move h => cases h <;> simp at hm
  | visit _ h => cases h <;> simp at hm
  | forkFails _ hu hev =>
    rcases hev with rfl | rfl
    · simp at hm
    · obtain ⟨-, rfl, rfl⟩ : p = q ∧ np = _ ∧ k = _ := by simpa using hm
      exact ⟨hu, rfl⟩
  | forkTakes _ _ hu =>
    obtain ⟨-, rfl, rfl⟩ : p = q ∧ np = _ ∧ k = _ := by simpa using hm
    exact ⟨hu, rfl⟩
  | _ => simp at hm

theorem tidy_boot : Tidy boot := by
  have h : Tidy { boot with proc := fun _ => {}, pc := fun _ => .dead } :=
    ⟨fun _ _ => ⟨rfl, rfl, rfl, rfl, rfl, rfl, rfl, fun _ _ => rfl, rfl⟩, fun _ hz => (by cases hz),
      fun _ => closing_of_idle rfl rfl⟩
  have hinit : Tidy ({ boot with proc := fun _ => {}, pc := fun _ => .dead }.move 0 .user
      { (allocproc {} 1 {}).1 with sz := PGSIZE, cwd := some 1, state := .runnable } none) :=
    h.move (fun hs => by cases hs) (fun hz => by cases hz) (closing_of_idle rfl rfl)
  exact hinit

/-- **Free entries of the table are clean**, in every run in which no `kill` that looks for
pid 0 comes to an UNUSED entry: `allocproc` then never returns a killed process. A further
step keeps the entries clean if and only if it meets the condition, and so does what a
`kill` that returns 0 has marked. -/
theorem fresh_clean {acts : List Act} {tr : List Ev} (h : run step boot acts = .ok (s, tr))
    (hm : Meets step KillsUsed boot acts) :
    (∀ q, (s.proc q).state = .unused → (s.proc q).Clean) ∧
    ∀ a s' ev, step s a = .ok (s', ev) →
      (∀ p np k, .allocproc p np k ∈ ev → k = false) ∧
      (KillsUsed s a ↔ ∀ p q, .killed p q ∈ ev → (s.proc q).state ≠ .unused) ∧
      (KillsUsed s a ↔ ∀ q, (s'.proc q).state = .unused → (s'.proc q).Clean) := by
  have ht : Tidy s := by
    refine run_inv_of_meets (fun s a s' ev ht hk hs => ?_) tidy_boot hm h
    exact tidy_change ht (step_change hs) ((killsUsed_iff ht hs).mp hk)
  refine ⟨ht.free, fun a s' ev hs => ⟨fun p np k hal => ?_, killsUsed_iff ht hs, free_iff_killsUsed ht hs⟩⟩
  obtain ⟨hu, rfl⟩ := allocproc_event (step_change hs) hal
  exact (ht.free np hu).killed

/-- Init calls `kill(0)`: entry 0 has pid 1, and entry 1 is free. -/
def killZero : List Act := [.dispatch 0, .call 0 (.kill 0), .go 0 {}, .go 0 {}]

/-- `kill(0)` returns 0 and leaves an UNUSED entry killed; the process that `fork` then
gets from `allocproc` is killed before it has run. -/
theorem kill_zero_marks_free :
    okWith (run step boot killZero) (fun r =>
      decide ((r.1.proc 1).state = .unused ∧ (r.1.proc 1).killed = true ∧ r.2 = [.killed 0 1, .ret 0 0])) = true ∧
    okWith (run step boot (killZero ++ [.call 0 .fork, .go 0 {}, .go 0 {}])) (fun r =>
      decide (.allocproc 0 1 true ∈ r.2 ∧ (r.1.proc 1).state = .used ∧ (r.1.proc 1).killed = true)) = true := by
  decide +kernel

/-- Init forks and kills its child, whose pid is 2. -/
def killChild : List Act :=
  [.dispatch 0, .call 0 .fork, .go 0 {}, .go 0 {}, .go 0 {}, .go 0 {}, .call 0 (.kill 2), .go 0 {}, .go 0 {}]

theorem fresh_clean_sample :
    ∃ s tr, run step boot killChild = .ok (s, tr) ∧ .killed 0 1 ∈ tr ∧ (s.proc 1).killed = true ∧
      (s.proc 2).Clean := by
  have hm : Meets step KillsUsed boot killChild :=
    .cons rfl trivial <| .cons rfl trivial <| .cons rfl (fun _ h => nomatch h) <|
      .cons rfl (fun _ h => nomatch h) <| .cons rfl (fun _ h => nomatch h) <|
      .cons rfl (fun _ h => nomatch h) <| .cons rfl trivial <|
      .cons rfl (fun _ h => absurd (Pc.kill.inj h).1 (by decide)) <|
      .cons rfl (fun _ h => absurd (Pc.kill.inj h).1 (by decide)) trivial
  obtain ⟨⟨s, tr⟩, hr, hs⟩ := okWith_iff.mp
    (show okWith (run step boot killChild) (fun r => decide (.killed 0 1 ∈ r.2 ∧ (r.1.proc 1).killed = true ∧
      (r.1.proc 2).state = .unused)) = true by decide +kernel)
  simp only [decide_eq_true_eq] at hs
  exact ⟨s, tr, hr, hs.1, hs.2.1, (fresh_clean hr hm).1 2 hs.2.2⟩

end Procs
end Xv6
