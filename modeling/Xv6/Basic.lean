/-
# What the models share

How a modelled kernel function can stop without a result: it blocks (a
process that has to wait for a lock or a wakeup cannot take the step now), the
kernel panics, or it accesses an array outside its bounds, after which C says
nothing. `cInt` is the conversion to a C `int`; `chars` are the bytes of a string constant.
-/
import Mathlib.Algebra.Order.Ring.Int
import Mathlib.Tactic.Common

namespace Xv6

/-- Why a step of a model gives no new state. -/
inductive Stop
  | blocked
  | panic (msg : String)
  | fault
  deriving DecidableEq, Repr

/-- Where a computation stops, if it does. -/
def stopOf {α : Type} : Except Stop α → Option Stop
  | .ok _ => none
  | .error e => some e

theorem stopOf_eq_some {α : Type} {x : Except Stop α} {e : Stop} :
    stopOf x = some e ↔ x = .error e := by
  cases x <;> simp [stopOf]

theorem stopOf_eq_none {α : Type} {x : Except Stop α} : stopOf x = none ↔ ∃ a, x = .ok a := by
  cases x <;> simp [stopOf]

/-- The computation returns a value that passes the test. -/
def okWith {α : Type} (x : Except Stop α) (p : α → Bool) : Bool :=
  match x with
  | .ok a => p a
  | .error _ => false

theorem okWith_iff {α : Type} {x : Except Stop α} {p : α → Bool} :
    okWith x p = true ↔ ∃ a, x = .ok a ∧ p a = true := by
  cases x <;> simp [okWith]

theorem ok_bind {α β : Type} (a : α) (f : α → Except Stop β) : (.ok a : Except Stop α) >>= f = f a := rfl

theorem bind_ok {α β : Type} {x : Except Stop α} {f : α → Except Stop β} {b : β} (h : x >>= f = .ok b) :
    ∃ a, x = .ok a ∧ f a = .ok b := by
  cases x with
  | error e => cases h
  | ok a => exact ⟨a, rfl, h⟩

/-- The 32-bit two's complement value of `x`. -/
def cInt (x : ℤ) : ℤ := (x + 2 ^ 31) % 2 ^ 32 - 2 ^ 31

theorem cInt_eq {x : ℤ} (h1 : -2 ^ 31 ≤ x) (h2 : x < 2 ^ 31) : cInt x = x := by
  rw [cInt, Int.emod_eq_of_lt (by omega) (by omega)]
  omega

theorem cInt_natCast {n : ℕ} (h : n < 2 ^ 31) : cInt n = n := cInt_eq (by omega) (by omega)

/-- A string constant, without its NUL. -/
def chars (l : List Char) : List UInt8 := l.map Char.toUInt8

end Xv6
