/-
# Redo logs

A store maps keys to values, an update is a list of key/value pairs, and
`redo` applies it in order.

A redo log holds the keys `l` of an update and, in its slots, their new
values. `Covered` says that the log makes up for what the store lacks of the
state `D`: the slots hold `D` at the keys of the log, and everywhere else the
store is `D` already. Installing any slot, any number of times, keeps a store
covered (`Covered.install`), and a covered store in which every key of the
log has been installed is `D` (`Covered.eq_of_installed`): this is why a
replay may be cut short by a crash and run again.

Key definitions: `Redo.redo`, `Redo.Covered`.
-/
import Mathlib.Logic.Function.Basic
import Mathlib.Data.List.Basic
import Mathlib.Tactic.Common

namespace Redo

variable {κ β : Type*}

section Update

variable [DecidableEq κ]

/-- The store after the updates `u`, in order. -/
def redo (u : List (κ × β)) (d : κ → β) : κ → β :=
  u.foldl (fun d p => Function.update d p.1 p.2) d

@[simp] theorem redo_nil (d : κ → β) : redo [] d = d := rfl

theorem redo_cons (p : κ × β) (u : List (κ × β)) (d : κ → β) :
    redo (p :: u) d = redo u (Function.update d p.1 p.2) := rfl

@[simp] theorem redo_snoc (u : List (κ × β)) (p : κ × β) (d : κ → β) :
    redo (u ++ [p]) d = Function.update (redo u d) p.1 p.2 := by
  simp [redo]

theorem redo_of_notMem {u : List (κ × β)} {d : κ → β} {k : κ} (h : k ∉ u.map Prod.fst) :
    redo u d k = d k := by
  induction u generalizing d with
  | nil => rfl
  | cons p u ih =>
    simp only [List.map_cons, List.mem_cons, not_or] at h
    rw [redo_cons, ih h.2, Function.update_of_ne h.1]

end Update

/-- The keys `H` of the store `home` are covered by a log with the keys `l`
and the values `slot`: what the store lacks of `D` is in the log. -/
structure Covered (H : κ → Prop) (l : List κ) (slot : ℕ → β) (home D : κ → β) : Prop where
  slot : ∀ i (h : i < l.length), slot i = D l[i]
  home : ∀ k, H k → k ∉ l → home k = D k

variable {H : κ → Prop} {l : List κ} {slot : ℕ → β} {home D : κ → β}

/-- An empty log covers the state itself. -/
theorem covered_nil (h : ∀ k, H k → home k = D k) : Covered H [] slot home D :=
  ⟨fun _ hi => absurd hi (Nat.not_lt_zero _), fun k hk _ => h k hk⟩

theorem Covered.install [DecidableEq κ] (h : Covered H l slot home D) {i : ℕ} (hi : i < l.length) :
    Covered H l slot (Function.update home l[i] (slot i)) D := by
  refine ⟨h.slot, fun k hk hm => ?_⟩
  rw [Function.update_of_ne (ne_of_mem_of_not_mem (List.getElem_mem hi) hm).symm]
  exact h.home k hk hm

theorem Covered.eq_of_installed (h : Covered H l slot home D)
    (hl : ∀ i (hi : i < l.length), home l[i] = D l[i]) {k : κ} (hk : H k) : home k = D k := by
  by_cases hm : k ∈ l
  · obtain ⟨i, hi, rfl⟩ := List.getElem_of_mem hm
    exact hl i hi
  · exact h.home k hk hm

/-- A covered store stays covered when only other keys change. -/
theorem Covered.congr (h : Covered H l slot home D) {slot' : ℕ → β} {home' : κ → β}
    (hs : ∀ i < l.length, slot' i = slot i) (hh : ∀ k, H k → home' k = home k) :
    Covered H l slot' home' D :=
  ⟨fun i hi => (hs i hi).trans (h.slot i hi), fun k hk hm => (hh k hk).trans (h.home k hk hm)⟩

end Redo
