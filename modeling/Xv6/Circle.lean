/-
# Circular singly linked lists

`Circle next a l` says that following `next` from `a` goes through the nodes `l` and is then
back at `a`. It comes apart wherever the list does (`circle_append`), so that linking a node in
(`Circle.link`) or out (`Circle.unlink`) is one change of `next`. One can start anywhere on it
(`Circle.rotate`): a loop that follows `next` from one of its nodes and stops at one other
finds it in one round (`Circle.walk_eq`).

Key definitions: `Circular.Circle`, `Circular.walk`.
Key theorems: `Circular.circle_append`, `Circular.Circle.rotate`, `Circular.Circle.walk_eq`.
-/
import Mathlib.Data.List.Chain
import Mathlib.Data.List.Nodup
import Mathlib.Tactic.Common

namespace Circular

variable {α : Type*} {next : α → α} {a b c x y : α} {l u v : List α}

/-- Each of the nodes is followed by the next one of the list. -/
def Linked (next : α → α) (l : List α) : Prop := l.IsChain fun x y => next x = y

theorem linked_append :
    Linked next (u ++ v) ↔ Linked next u ∧ Linked next v ∧ ∀ x ∈ u.getLast?, ∀ y ∈ v.head?, next x = y :=
  List.isChain_append

theorem Linked.tail (h : Linked next (a :: l)) : Linked next l := List.IsChain.tail h

/-- From `a` through `l` and back. -/
def Circle (next : α → α) (a : α) (l : List α) : Prop := Linked next (a :: (l ++ [a]))

theorem getLast?_cons (a : α) (u : List α) : (a :: u).getLast? = some (u.getLastD a) := by
  cases u with
  | nil => rfl
  | cons x u => rw [List.getLast?_cons, List.getLastD_eq_getLast?]

theorem head?_append (a : α) (v : List α) : (v ++ [a]).head? = some (v.headD a) := by
  cases v with
  | nil => rfl
  | cons x v => rfl

theorem linked_concat : Linked next (a :: (u ++ [c])) ↔ Linked next (a :: u) ∧ next (u.getLastD a) = c := by
  rw [← List.cons_append, linked_append, getLast?_cons]
  simp [Linked]

theorem linked_cons : Linked next (c :: (v ++ [a])) ↔ next c = v.headD a ∧ Linked next (v ++ [a]) := by
  cases v with
  | nil => exact List.isChain_cons_cons
  | cons x v => exact List.isChain_cons_cons

/-- A circle comes apart into the two parts of its list. -/
theorem circle_append :
    Circle next a (u ++ v) ↔ Linked next (a :: u) ∧ Linked next (v ++ [a]) ∧ next (u.getLastD a) = v.headD a := by
  rw [Circle, List.append_assoc, ← List.cons_append, linked_append, getLast?_cons, head?_append]
  simp

/-- Nodes but the last are read. -/
theorem Linked.congr {next' : α → α} (h : Linked next l) (heq : ∀ x ∈ l.dropLast, next' x = next x) : Linked next' l := by
  induction l with
  | nil => exact List.isChain_nil
  | cons a l ih =>
    cases l with
    | nil => exact List.isChain_singleton _
    | cons b l =>
      obtain ⟨hab, htail⟩ := List.isChain_cons_cons.mp h
      refine List.isChain_cons_cons.mpr ⟨?_, ih htail fun x hx => heq x ?_⟩
      · rw [heq a (by simp)]
        exact hab
      · rw [List.dropLast_cons_of_ne_nil (List.cons_ne_nil _ _)]
        exact List.mem_cons_of_mem _ hx

theorem dropLast_concat_getLastD (a : α) (u : List α) : (a :: u).dropLast ++ [u.getLastD a] = a :: u := by
  rw [← List.getLast_eq_getLastD (List.cons_ne_nil _ _), List.dropLast_append_getLast]

/-- The last node of a list without repetition is not among the others. -/
theorem getLastD_notMem_dropLast (h : (a :: u).Nodup) : u.getLastD a ∉ (a :: u).dropLast := by
  rw [← dropLast_concat_getLastD, List.nodup_append] at h
  intro hmem
  exact h.2.2 _ hmem _ List.mem_cons_self rfl

section

variable [DecidableEq α]

theorem Linked.update (h : Linked next l) (hc : c ∉ l.dropLast) : Linked (Function.update next c x) l :=
  h.congr fun _ hy => Function.update_of_ne (ne_of_mem_of_not_mem hy hc) _ _

/-- Two parts become a circle when the last node of the first is linked to the second. -/
theorem circle_close (hu : Linked next (a :: u)) (hv : Linked next (v ++ [a])) (hnd : (a :: (u ++ v)).Nodup) :
    Circle (Function.update next (u.getLastD a) (v.headD a)) a (u ++ v) := by
  have hmem : u.getLastD a ∈ a :: u := List.getLastD_mem_cons
  rw [← List.cons_append, List.nodup_append] at hnd
  refine circle_append.mpr ⟨hu.update (getLastD_notMem_dropLast hnd.1), hv.update ?_, Function.update_self _ _ _⟩
  rw [List.dropLast_concat]
  intro h
  exact hnd.2.2 _ hmem _ h rfl

end

/-- From a node of a circle through the others. -/
theorem Circle.rotate (h : Circle next a l) (hc : c ∈ a :: l) : ∃ l', Circle next c l' ∧ (c :: l').Perm (a :: l) := by
  rcases List.mem_cons.mp hc with rfl | hc
  · exact ⟨l, h, .refl _⟩
  obtain ⟨u, v, rfl⟩ := List.append_of_mem hc
  refine ⟨v ++ a :: u, ?_, ?_⟩
  · obtain ⟨hu, hv, hlast⟩ := circle_append.mp h
    obtain ⟨hcv, hback⟩ := linked_concat.mp hv
    exact circle_append.mpr ⟨hcv, linked_concat.mpr ⟨hu, hlast⟩, hback⟩
  · rw [← List.cons_append, ← List.cons_append]
    exact List.perm_append_comm

/-- The loop that follows `next` from `a` until `stop`. -/
def walk (next : α → α) (stop : α → Bool) : ℕ → α → Option α
  | 0, _ => none
  | f + 1, a => if stop a then some a else walk next stop f (next a)

theorem Linked.walk_eq {stop : α → Bool} {f : ℕ} (h : Linked next (a :: l)) (hx : x ∈ a :: l) (hstop : stop x = true)
    (hne : ∀ y ∈ a :: l, y ≠ x → stop y = false) (hf : l.length < f) : walk next stop f a = some x := by
  induction f generalizing a l with
  | zero => exact absurd hf (Nat.not_lt_zero _)
  | succ f ih =>
    by_cases hax : a = x
    · rw [walk, if_pos (hax ▸ hstop), hax]
    · have hgo : ¬ stop a = true := by
        rw [hne a List.mem_cons_self hax]
        exact Bool.false_ne_true
      rw [walk, if_neg hgo]
      cases l with
      | nil => exact absurd (List.mem_singleton.mp hx).symm hax
      | cons b l =>
        obtain ⟨rfl, htail⟩ := List.isChain_cons_cons.mp h
        refine ih htail ?_ (fun y hy => hne y (List.mem_cons_of_mem _ hy)) (Nat.lt_of_succ_lt_succ hf)
        exact (List.mem_cons.mp hx).resolve_left fun h => hax h.symm

/-- A loop that stops at one node of a circle finds it in one round. -/
theorem Circle.walk_eq {stop : α → Bool} {f : ℕ} (h : Circle next a l) (hc : c ∈ a :: l) (hx : x ∈ a :: l)
    (hstop : stop x = true) (hne : ∀ y ∈ a :: l, y ≠ x → stop y = false) (hf : l.length < f) :
    walk next stop f c = some x := by
  obtain ⟨l', h', hperm⟩ := h.rotate hc
  have hlen := hperm.length_eq
  rw [List.length_cons, List.length_cons] at hlen
  exact (linked_concat.mp h').1.walk_eq (hperm.mem_iff.mpr hx) hstop (fun y hy => hne y (hperm.mem_iff.mp hy)) (by omega)

/-- What follows a node of a circle is the node after it in the list, or the first one. -/
theorem Circle.next_cases (h : Circle next a l) (hx : x ∈ a :: l) :
    (∃ u v, a :: l = u ++ x :: next x :: v) ∨ x = l.getLastD a ∧ next x = a := by
  obtain ⟨u, v, huv⟩ := List.append_of_mem hx
  have hlist : Linked next (u ++ x :: (v ++ [a])) := by
    have : a :: (l ++ [a]) = u ++ x :: (v ++ [a]) := by rw [← List.cons_append, huv, List.append_assoc, List.cons_append]
    rw [← this]
    exact h
  have hxv := (linked_append.mp hlist).2.1
  cases v with
  | nil =>
    right
    refine ⟨?_, (List.isChain_cons_cons.mp hxv).1⟩
    have hlast := congrArg List.getLast? huv
    rw [getLast?_cons, List.getLast?_concat] at hlast
    exact (Option.some.inj hlast).symm
  | cons y v =>
    left
    rw [(List.isChain_cons_cons.mp hxv).1]
    exact ⟨u, v, huv⟩

theorem Circle.next_mem (h : Circle next a l) (hx : x ∈ a :: l) : next x ∈ a :: l := by
  rcases h.next_cases hx with ⟨u, v, huv⟩ | ⟨-, hback⟩
  · rw [huv]
    simp
  · rw [hback]
    exact List.mem_cons_self

theorem Linked.exists_iterate (h : Linked next (a :: l)) (hx : x ∈ a :: l) : ∃ k, next^[k] a = x := by
  induction l generalizing a with
  | nil => exact ⟨0, (List.mem_singleton.mp hx).symm⟩
  | cons b l ih =>
    obtain ⟨rfl, htail⟩ := List.isChain_cons_cons.mp h
    rcases List.mem_cons.mp hx with rfl | hx
    · exact ⟨0, rfl⟩
    · obtain ⟨k, hk⟩ := ih htail hx
      exact ⟨k + 1, hk⟩

/-- The nodes of a circle are those that one comes to from any of them. -/
theorem Circle.mem_iff_iterate (h : Circle next a l) (hc : c ∈ a :: l) : x ∈ a :: l ↔ ∃ k, next^[k] c = x := by
  constructor
  · intro hx
    obtain ⟨l', h', hperm⟩ := h.rotate hc
    exact (linked_concat.mp h').1.exists_iterate (hperm.mem_iff.mpr hx)
  · rintro ⟨k, rfl⟩
    induction k generalizing c with
    | zero => exact hc
    | succ k ih => exact ih (h.next_mem hc)

/-- The circle comes apart after each of its nodes. -/
theorem Circle.split_after (h : Circle next a l) (hc : c ∈ a :: l) (hne : next c ≠ a) :
    ∃ u v, l = u ++ next c :: v ∧ u.getLastD a = c := by
  rcases h.next_cases hc with ⟨u, v, huv⟩ | ⟨-, hback⟩
  · cases u with
    | nil =>
      obtain ⟨rfl, htail⟩ := List.cons.inj huv
      exact ⟨[], v, htail, rfl⟩
    | cons b u =>
      obtain ⟨rfl, htail⟩ := List.cons.inj huv
      refine ⟨u ++ [c], v, ?_, List.getLastD_concat⟩
      rw [List.append_assoc, List.singleton_append]
      exact htail
  · exact absurd hback hne

end Circular
