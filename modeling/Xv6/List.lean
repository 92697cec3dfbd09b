/-
# The circular lists of `kernel/list.c`

`struct list` is a pair of pointers; a list is headed by one and its elements
begin with one. The functions are translated store by store. On a memory of
rings (`Links.Rings`) each is the operation on sequences its name says:
`lst_push` adds at the front, `lst_pop` takes from the front, `lst_remove`
deletes an element of which only the address is given.

Key definitions: `Lst.lstPush`, `Lst.lstPop`, `Lst.lstRemove`.
Key theorems: `Lst.rings_push`, `Lst.rings_pop`, `Lst.rings_remove`.
-/
import Xv6.Basic
import Xv6.Links

namespace Xv6
namespace Lst

open Links

variable {α : Type} [DecidableEq α]

def lstInit (m : Mem α) (lst : α) : Mem α := (m.setNext lst lst).setPrev lst lst

def lstEmpty (m : Mem α) (lst : α) : Bool := m.next lst = lst

/-- `e->prev->next = e->next; e->next->prev = e->prev;` -/
def lstRemove (m : Mem α) (e : α) : Mem α :=
  let m := m.setNext (m.prev e) (m.next e)
  m.setPrev (m.next e) (m.prev e)

def lstPop (m : Mem α) (lst : α) : Except Stop (α × Mem α) :=
  if m.next lst = lst then .error (.panic "lst_pop")
  else .ok (m.next lst, lstRemove m (m.next lst))

def lstPush (m : Mem α) (lst e : α) : Mem α :=
  let m := m.setNext e (m.next lst)
  let m := m.setPrev e lst
  let m := m.setPrev (m.next lst) e
  m.setNext lst e

variable {m : Mem α} {n k : ℕ} {H : ℕ → α} {L : ℕ → List α} {e : α}

theorem rings_empty (hr : Rings m n H L) (hk : k < n) : lstEmpty m (H k) = true ↔ L k = [] := by
  rw [lstEmpty, decide_eq_true_iff]
  exact hr.isEmpty_iff hk

theorem rings_push (hr : Rings m n H L) (hk : k < n) (he : ∀ j < n, e ∉ H j :: L j) :
    Rings (lstPush m (H k) e) n H (Function.update L k (e :: L k)) := by
  have hne : H k ≠ e := fun hh => he k hk (by simp [hh])
  have hpush : lstPush m (H k) e = linkAfter m (H k) e := by
    unfold lstPush linkAfter
    simp only [Mem.setPrev_next, Mem.setNext_of_ne _ hne]
  rw [hpush]
  exact hr.link hk he

theorem rings_remove (hr : Rings m n H L) (hk : k < n) (he : e ∈ L k) :
    Rings (lstRemove m e) n H (Function.update L k ((L k).erase e)) := by
  -- the element is not its own predecessor, so the first store leaves its `next` alone
  have hne : e ≠ m.prev e := by
    intro hh
    obtain ⟨l₁, l₂, hl⟩ := List.append_of_mem he
    have hnd := hr.nodup k hk
    have hpath := hr.path k hk
    rw [hl] at hnd hpath
    have hmem := (path_append.mp hpath).1.prev_mem
    rw [← hh] at hmem
    rw [← List.cons_append, List.nodup_append] at hnd
    exact hnd.2.2 e hmem e (by simp) rfl
  have hrem : lstRemove m e = cut m e := by
    unfold lstRemove cut
    simp only [Mem.setNext_prev, Mem.setNext_of_ne _ hne]
  rw [hrem]
  exact hr.unlink hk he

theorem rings_pop (hr : Rings m n H L) (hk : k < n) {l : List α} (hl : L k = e :: l) :
    ∃ m', lstPop m (H k) = .ok (e, m') ∧ Rings m' n H (Function.update L k l) := by
  have hnext : m.next (H k) = e := by rw [(hr.path k hk).next_eq, hl, List.headD_cons]
  have hne : m.next (H k) ≠ H k := by
    rw [Ne, hr.isEmpty_iff hk, hl]
    simp
  have hrem := rings_remove hr hk (e := e) (by simp [hl])
  rw [hl, List.erase_cons_head] at hrem
  exact ⟨lstRemove m e, by rw [lstPop, if_neg hne, hnext], hrem⟩

end Lst
end Xv6
