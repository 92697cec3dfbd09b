/-
# Runs of a labelled step function

A system is given by a step function: from a state and an action it gives a
new state and the events the action emits, or stops (a blocked action, a
panic). A run is a list of actions; its trace is the events in order.
What is proved about runs goes through these rules: an invariant of states
and traces is kept by a run if one step keeps it (`run_inv`), a run of
`as ++ [a]` is a run of `as` followed by one step (`run_snoc`), and a run
that stops does so at a first step that stops (`run_error`). `Meets` says that
every step of a run is taken under a condition on the state before it.

Key definitions: `TraceSys.run`, `TraceSys.Meets`.
Key theorems: `TraceSys.run_snoc`, `TraceSys.run_induction`, `TraceSys.run_inv`, `TraceSys.run_sim`,
`TraceSys.run_error`.
-/
import Mathlib.Data.List.Induction
import Mathlib.Tactic.Common

namespace TraceSys

variable {σ α ε τ : Type*}

/-- The state and the trace after the actions `as`, or where the run stops. -/
def run (step : σ → α → Except ε (σ × List τ)) : σ → List α → Except ε (σ × List τ)
  | s, [] => .ok (s, [])
  | s, a :: as =>
    match step s a with
    | .error e => .error e
    | .ok (s1, t1) =>
      match run step s1 as with
      | .error e => .error e
      | .ok (s2, t2) => .ok (s2, t1 ++ t2)

variable {step : σ → α → Except ε (σ × List τ)}

theorem run_nil (s : σ) : run step s [] = .ok (s, []) := rfl

theorem run_cons {s s' : σ} {a : α} {as : List α} {t : List τ} :
    run step s (a :: as) = .ok (s', t) ↔
      ∃ s1 t1 t2, step s a = .ok (s1, t1) ∧ run step s1 as = .ok (s', t2) ∧ t = t1 ++ t2 := by
  constructor
  · intro h
    rw [run] at h
    rcases hs : step s a with e | ⟨s1, t1⟩
    · simp [hs] at h
    · rw [hs] at h
      rcases hr : run step s1 as with e | ⟨s2, t2⟩
      · simp [hr] at h
      · simp only [hr, Except.ok.injEq, Prod.mk.injEq] at h
        exact ⟨s1, t1, t2, rfl, by rw [hr, h.1], h.2.symm⟩
  · rintro ⟨s1, t1, t2, h1, h2, rfl⟩
    simp [run, h1, h2]

theorem run_append {s s' : σ} {as bs : List α} {t : List τ} :
    run step s (as ++ bs) = .ok (s', t) ↔
      ∃ s1 t1 t2, run step s as = .ok (s1, t1) ∧ run step s1 bs = .ok (s', t2) ∧ t = t1 ++ t2 := by
  induction as generalizing s t with
  | nil => simp [run_nil]
  | cons a as ih =>
    simp only [List.cons_append, run_cons, ih]
    constructor
    · rintro ⟨s1, t1, t2, h1, ⟨s2, t3, t4, h2, h3, rfl⟩, rfl⟩
      exact ⟨s2, t1 ++ t3, t4, ⟨s1, t1, t3, h1, h2, rfl⟩, h3, by simp⟩
    · rintro ⟨s2, t3, t4, ⟨s1, t1, t2, h1, h2, rfl⟩, h3, rfl⟩
      exact ⟨s1, t1, t2 ++ t4, h1, ⟨s2, t2, t4, h2, h3, rfl⟩, by simp⟩

/-- A run of `as ++ [a]` is a run of `as` and one more step. -/
theorem run_snoc {s s' : σ} {a : α} {as : List α} {t : List τ} :
    run step s (as ++ [a]) = .ok (s', t) ↔
      ∃ s1 t1 t2, run step s as = .ok (s1, t1) ∧ step s1 a = .ok (s', t2) ∧ t = t1 ++ t2 := by
  rw [run_append]
  constructor
  · rintro ⟨s1, t1, t2, h1, h2, rfl⟩
    obtain ⟨s2, t3, t4, h3, h4, rfl⟩ := run_cons.mp h2
    rw [run_nil, Except.ok.injEq, Prod.mk.injEq] at h4
    obtain ⟨rfl, rfl⟩ := h4
    exact ⟨s1, t1, t3, h1, h3, by simp⟩
  · rintro ⟨s1, t1, t2, h1, h2, rfl⟩
    exact ⟨s1, t1, t2, h1, run_cons.mpr ⟨s', t2, [], h2, rfl, by simp⟩, rfl⟩

/-- A run stops where a first step stops. -/
theorem run_error {s : σ} {as : List α} {e : ε} :
    run step s as = .error e ↔
      ∃ pre a post s1 t1, as = pre ++ a :: post ∧ run step s pre = .ok (s1, t1) ∧ step s1 a = .error e := by
  induction as generalizing s with
  | nil => simp [run_nil]
  | cons a as ih =>
    rcases hs : step s a with e' | ⟨s1, t1⟩
    · have hr : run step s (a :: as) = .error e' := by simp [run, hs]
      rw [hr]
      constructor
      · rintro ⟨rfl⟩
        exact ⟨[], a, as, s, [], rfl, rfl, hs⟩
      · rintro ⟨pre, b, post, s2, t2, hb, hp, he⟩
        cases pre with
        | nil =>
          obtain ⟨rfl, rfl⟩ := List.cons.inj hb
          rw [run_nil, Except.ok.injEq, Prod.mk.injEq] at hp
          rw [← hp.1, hs] at he
          rw [Except.error.inj he]
        | cons c pre =>
          obtain ⟨rfl, -⟩ := List.cons.inj hb
          obtain ⟨s3, t3, t4, h3, -⟩ := run_cons.mp hp
          simp [hs] at h3
    · have hr : run step s (a :: as) = .error e ↔ run step s1 as = .error e := by
        rw [run, hs]
        rcases hr : run step s1 as with e' | ⟨s2, t2⟩ <;> simp [hr]
      rw [hr, ih]
      constructor
      · rintro ⟨pre, b, post, s2, t2, rfl, hp, he⟩
        exact ⟨a :: pre, b, post, s2, t1 ++ t2, rfl, run_cons.mpr ⟨s1, t1, t2, hs, hp, rfl⟩, he⟩
      · rintro ⟨pre, b, post, s2, t2, hb, hp, he⟩
        cases pre with
        | nil =>
          obtain ⟨rfl, rfl⟩ := List.cons.inj hb
          rw [run_nil, Except.ok.injEq, Prod.mk.injEq] at hp
          rw [← hp.1, hs] at he
          simp at he
        | cons c pre =>
          obtain ⟨rfl, rfl⟩ := List.cons.inj hb
          obtain ⟨s3, t3, t4, h3, h4, rfl⟩ := run_cons.mp hp
          rw [hs, Except.ok.injEq, Prod.mk.injEq] at h3
          obtain ⟨rfl, rfl⟩ := h3
          exact ⟨pre, b, post, s2, t4, rfl, h4, he⟩

/-- **Induction over a run.** What holds at the start of the empty run, and is
kept by one step more, holds at the end of every run; `as` are the actions so far. -/
theorem run_induction {I : List α → σ → List τ → Prop} {s0 s : σ} {as : List α} {t : List τ}
    (h0 : I [] s0 [])
    (hstep : ∀ as s t a s' t', run step s0 as = .ok (s, t) → I as s t → step s a = .ok (s', t') →
      I (as ++ [a]) s' (t ++ t'))
    (h : run step s0 as = .ok (s, t)) : I as s t := by
  induction as using List.reverseRecOn generalizing s t with
  | nil =>
    rw [run_nil, Except.ok.injEq, Prod.mk.injEq] at h
    obtain ⟨rfl, rfl⟩ := h
    exact h0
  | append_singleton as a ih =>
    obtain ⟨s1, t1, t2, h1, h2, rfl⟩ := run_snoc.mp h
    exact hstep _ _ _ _ _ _ h1 (ih h1) h2

/-- **The invariant rule.** What holds at the start with the empty trace, and
is kept by every step, holds of every state and trace a run reaches. -/
theorem run_inv {I : σ → List τ → Prop} {s0 s : σ} {as : List α} {t : List τ} (h0 : I s0 [])
    (hstep : ∀ s t a s' t', I s t → step s a = .ok (s', t') → I s' (t ++ t'))
    (h : run step s0 as = .ok (s, t)) : I s t :=
  run_induction (I := fun _ => I) h0 (fun _ _ _ _ _ _ _ => hstep _ _ _ _ _) h

/-- Every step of the run of `as` from `s` is taken in a state in which `G` allows it. -/
def Meets (step : σ → α → Except ε (σ × List τ)) (G : σ → α → Prop) : σ → List α → Prop
  | _, [] => True
  | s, a :: as => G s a ∧ ∀ s1 t1, step s a = .ok (s1, t1) → Meets step G s1 as

theorem Meets.cons {G : σ → α → Prop} {s s1 : σ} {a : α} {as : List α} {t1 : List τ}
    (h : step s a = .ok (s1, t1)) (hg : G s a) (hm : Meets step G s1 as) : Meets step G s (a :: as) := by
  refine ⟨hg, fun s2 t2 h2 => ?_⟩
  obtain rfl : s1 = s2 := congrArg Prod.fst (Except.ok.inj (h.symm.trans h2))
  exact hm

/-- **The invariant rule under a condition.** It is enough that the steps taken
under the condition keep the invariant. -/
theorem run_inv_of_meets {G : σ → α → Prop} {I : σ → Prop}
    (hstep : ∀ s a s' t', I s → G s a → step s a = .ok (s', t') → I s') :
    ∀ {as : List α} {s0 s : σ} {t : List τ}, I s0 → Meets step G s0 as →
      run step s0 as = .ok (s, t) → I s
  | [], s0, s, t, h0, _, h => by
    rw [run_nil, Except.ok.injEq, Prod.mk.injEq] at h
    exact h.1 ▸ h0
  | a :: as, s0, s, t, h0, hm, h => by
    obtain ⟨s1, t1, t2, h1, h2, -⟩ := run_cons.mp h
    exact run_inv_of_meets hstep (hstep _ _ _ _ h0 hm.1 h1) (hm.2 _ _ h1) h2

/-- **The rule for runs that stop in known ways.** If every step taken under the
condition stops with an error in `P`, or succeeds and keeps the invariant, so
does every run. -/
theorem run_of_meets {G : σ → α → Prop} {I : σ → Prop} {P : ε → Prop}
    (hstep : ∀ s a, I s → G s a →
      (∃ e, step s a = .error e ∧ P e) ∨ ∃ s' t', step s a = .ok (s', t') ∧ I s') :
    ∀ {as : List α} {s0 : σ}, I s0 → Meets step G s0 as →
      (∃ e, run step s0 as = .error e ∧ P e) ∨ ∃ s t, run step s0 as = .ok (s, t) ∧ I s
  | [], s0, h0, _ => .inr ⟨s0, [], run_nil s0, h0⟩
  | a :: as, s0, h0, hm => by
    rcases hstep s0 a h0 hm.1 with ⟨e, he, hP⟩ | ⟨s1, t1, h1, hi⟩
    · exact .inl ⟨e, run_error.mpr ⟨[], a, as, s0, [], rfl, run_nil s0, he⟩, hP⟩
    rcases run_of_meets hstep hi (hm.2 s1 t1 h1) with ⟨e, he, hP⟩ | ⟨s, t, h2, hs⟩
    · obtain ⟨pre, b, post, s2, t2, rfl, hpre, hb⟩ := run_error.mp he
      exact .inl ⟨e, run_error.mpr
        ⟨a :: pre, b, post, s2, _, rfl, run_cons.mpr ⟨s1, t1, t2, h1, hpre, rfl⟩, hb⟩, hP⟩
    · exact .inr ⟨s, t1 ++ t, run_cons.mpr ⟨s1, t1, t, h1, h2, rfl⟩, hs⟩

/-- **The rule for runs that do not stop.** If every step taken under the condition succeeds
and keeps the invariant, so does every run. -/
theorem run_ok_of_meets {G : σ → α → Prop} {I : σ → Prop}
    (hstep : ∀ s a, I s → G s a → ∃ s' t', step s a = .ok (s', t') ∧ I s') {as : List α} {s0 : σ}
    (h0 : I s0) (hm : Meets step G s0 as) : ∃ s t, run step s0 as = .ok (s, t) ∧ I s :=
  (run_of_meets (P := fun _ => False) (fun s a h hg => .inr (hstep s a h hg)) h0 hm).resolve_left
    fun ⟨_, _, hf⟩ => hf

/-- **Forward simulation.** If a second system can follow every step with the same trace, it can
follow every run. -/
theorem run_sim {σ' : Type*} {step' : σ' → α → Except ε (σ' × List τ)} {R : σ → σ' → Prop}
    (hstep : ∀ s q a s' t, R s q → step s a = .ok (s', t) → ∃ q', step' q a = .ok (q', t) ∧ R s' q') :
    ∀ {as : List α} {s s' : σ} {q : σ'} {t : List τ}, R s q → run step s as = .ok (s', t) →
      ∃ q', run step' q as = .ok (q', t) ∧ R s' q'
  | [], s, s', q, t, hr, h => by
    rw [run_nil, Except.ok.injEq, Prod.mk.injEq] at h
    exact ⟨q, by rw [run_nil, h.2], h.1 ▸ hr⟩
  | a :: as, s, s', q, t, hr, h => by
    obtain ⟨s1, t1, t2, h1, h2, rfl⟩ := run_cons.mp h
    obtain ⟨q1, hq1, hr1⟩ := hstep _ _ _ _ _ hr h1
    obtain ⟨q2, hq2, hr2⟩ := run_sim hstep hr1 h2
    exact ⟨q2, run_cons.mpr ⟨q1, t1, t2, hq1, hq2, rfl⟩, hr2⟩

end TraceSys
