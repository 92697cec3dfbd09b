/-
# How a computation that may stop ends

`Ends E r Q` says that `r` returns a value with `Q`, or stops with an error
with `E`. It is a triple whose precondition is the context: the rules are those
of sequencing (`Ends.bind`), consequence (`Ends.mono`) and the counted loop
(`Ends.foldlM_range`).

Key definitions: `Ends`.
-/
import Mathlib.Data.List.Basic
import Mathlib.Tactic.Common

universe u v

variable {ε : Type u} {α β : Type v} {E : ε → Prop} {Q : α → Prop} {R : β → Prop}

/-- `r` returns a value that satisfies `Q` or stops with an error that satisfies `E`. -/
def Ends (E : ε → Prop) (r : Except ε α) (Q : α → Prop) : Prop :=
  match r with
  | .ok a => Q a
  | .error e => E e

namespace Ends

theorem ok {a : α} (h : Q a) : Ends E (.ok a) Q := h

theorem error {e : ε} (h : E e) : Ends E (.error e : Except ε α) Q := h

theorem of_ok {r : Except ε α} {a : α} (h : Ends E r Q) (hr : r = .ok a) : Q a := by
  subst hr
  exact h

theorem of_error {r : Except ε α} {e : ε} (h : Ends E r Q) (hr : r = .error e) : E e := by
  subst hr
  exact h

/-- A computation that cannot stop returns. -/
theorem returns_iff {r : Except ε α} : Ends (fun _ => False) r Q ↔ ∃ a, r = .ok a ∧ Q a := by
  cases r with
  | ok a => exact ⟨fun h => ⟨a, rfl, h⟩, fun ⟨_, ha, h⟩ => by cases ha; exact h⟩
  | error e => exact ⟨False.elim, fun ⟨_, ha, _⟩ => by cases ha⟩

theorem mono {r : Except ε α} {Q' : α → Prop} (h : Ends E r Q) (hQ : ∀ a, Q a → Q' a) :
    Ends E r Q' := by
  cases r with
  | ok a => exact hQ a h
  | error e => exact h

theorem bind {r : Except ε α} {f : α → Except ε β} (h : Ends E r Q) (hf : ∀ a, Q a → Ends E (f a) R) :
    Ends E (r >>= f) R := by
  cases r with
  | ok a => exact hf a h
  | error e => exact h

/-- The counted loop: what holds before round `0` and is kept by each round holds after the last. -/
theorem foldlM_range {f : β → ℕ → Except ε β} {I : ℕ → β → Prop} {b : β} (h0 : I 0 b) :
    ∀ n, (∀ i, i < n → ∀ b, I i b → Ends E (f b i) (I (i + 1))) →
      Ends E ((List.range n).foldlM f b) (I n)
  | 0, _ => h0
  | n + 1, hf => by
    rw [List.range_succ, List.foldlM_append]
    apply Ends.bind (foldlM_range h0 n fun i hi => hf i (by omega))
    intro b hb
    rw [List.foldlM_cons]
    exact Ends.bind (hf n (by omega) b hb) fun _ h => h

end Ends
