/-
# A circular array under free-running counters holds a queue

A ring of `c` cells is indexed by a read and a write counter that only grow;
cell `k % c` is the one counter value `k` addresses. When the counters
themselves are kept modulo some `M` that `c` divides, the cell is the same
(`index_wrap`). `Holds c data r q` says that the cells from counter `r` on
hold the queue `q`: storing at the write counter appends to the queue
(`Holds.push`), reading at the read counter takes its head (`Holds.pop`).

Key definitions: `RingBuf.Holds`.
Key theorems: `RingBuf.Holds.push`, `RingBuf.Holds.pop`, `RingBuf.sub_wrap`.
-/
import Mathlib.Logic.Function.Basic
import Mathlib.Data.Nat.ModEq
import Mathlib.Tactic.Common

namespace RingBuf

variable {β : Type*} {c r : ℕ}

/-- The cells from counter value `r` on hold `q`, which is no longer than the ring. -/
structure Holds (c : ℕ) (data : ℕ → β) (r : ℕ) (q : List β) : Prop where
  fits : q.length ≤ c
  cell : ∀ i (h : i < q.length), data ((r + i) % c) = q[i]

theorem Holds.nil (data : ℕ → β) (r : ℕ) : Holds c data r [] :=
  ⟨Nat.zero_le _, fun _ h => absurd h (Nat.not_lt_zero _)⟩

/-- Two counter values less than a ring apart address different cells. -/
theorem index_ne {i j : ℕ} (hij : i < j) (hj : j < c) : (r + i) % c ≠ (r + j) % c := by
  intro h
  have h1 : i ≡ j [MOD c] := Nat.ModEq.add_left_cancel' r h
  rw [Nat.ModEq, Nat.mod_eq_of_lt (by omega), Nat.mod_eq_of_lt hj] at h1
  omega

/-- A store at the write counter `r + q.length` touches no cell of the queue. -/
theorem Holds.store {data : ℕ → β} {q : List β} (h : Holds c data r q) (hlt : q.length < c) (x : β) :
    Holds c (Function.update data ((r + q.length) % c) x) r q := by
  refine ⟨h.fits, fun i hi => ?_⟩
  rw [Function.update_of_ne (index_ne hi hlt), h.cell i hi]

/-- The queue takes in the cell at the write counter. -/
theorem Holds.extend {data : ℕ → β} {q : List β} {x : β} (h : Holds c data r q) (hlt : q.length < c)
    (hx : data ((r + q.length) % c) = x) : Holds c data r (q ++ [x]) := by
  refine ⟨by simp only [List.length_append, List.length_singleton]; omega, fun i hi => ?_⟩
  rw [List.length_append, List.length_singleton] at hi
  rcases Nat.lt_or_ge i q.length with hlt' | hge
  · rw [h.cell i hlt', List.getElem_append_left]
  · obtain rfl : i = q.length := by omega
    simpa using hx

/-- Storing at the write counter `r + q.length` appends. -/
theorem Holds.push {data : ℕ → β} {q : List β} (h : Holds c data r q) (hlt : q.length < c) (x : β) :
    Holds c (Function.update data ((r + q.length) % c) x) r (q ++ [x]) :=
  (h.store hlt x).extend hlt (Function.update_self ..)

/-- The last bytes are forgotten. -/
theorem Holds.of_append {data : ℕ → β} {q p : List β} (h : Holds c data r (q ++ p)) : Holds c data r q := by
  refine ⟨?_, fun i hi => ?_⟩
  · have := h.fits
    rw [List.length_append] at this
    omega
  · rw [h.cell i (by rw [List.length_append]; omega), List.getElem_append_left]

/-- The cell at the read counter is the head, and the next counter value holds the tail. -/
theorem Holds.pop {data : ℕ → β} {x : β} {q : List β} (h : Holds c data r (x :: q)) :
    data (r % c) = x ∧ Holds c data (r + 1) q := by
  refine ⟨h.cell 0 (Nat.succ_pos _), ?_, fun i hi => ?_⟩
  · have := h.fits
    simp only [List.length_cons] at this
    omega
  · have := h.cell (i + 1) (by simpa using hi)
    rw [List.getElem_cons_succ] at this
    rw [← this, Nat.add_assoc, Nat.add_comm 1 i]

/-- A counter kept modulo `M` addresses the same cell if the ring divides `M`. -/
theorem index_wrap {M : ℕ} (hM : c ∣ M) (k : ℕ) : k % M % c = k % c :=
  Nat.mod_mod_of_dvd k hM

/-- The distance of two wrapped counters less than `M` apart is the true distance. -/
theorem sub_wrap {M k : ℕ} (hk : k < M) : ((r + k) % M + (M - r % M)) % M = k := by
  have hM : 0 < M := by omega
  have h1 : (r + k) % M + (M - r % M) ≡ k [MOD M] := by
    have h2 : (r + k) % M + (M - r % M) ≡ (r % M + k) + (M - r % M) [MOD M] :=
      Nat.ModEq.add_right _ ((Nat.mod_modEq _ _).trans (Nat.ModEq.add_right _ (Nat.mod_modEq _ _).symm))
    have h3 : r % M + k + (M - r % M) = k + M := by
      have := Nat.mod_lt r hM
      omega
    rw [h3] at h2
    exact h2.trans (by simp [Nat.ModEq])
  rw [Nat.ModEq, Nat.mod_eq_of_lt hk] at h1
  exact h1

end RingBuf
