/-
# Intrusive lists in memory

The functions of `kernel/list.c` over plain memory: a `struct list` at an address
is two words, `next` at the address and `prev` 8 bytes on, so that a store through
a pointer could hit anything. In a memory of circular lists whose structures do
not overlap (`Lists`) it does not: the functions do what those of `Xv6.Lst` do to
pointer fields (`view_push`, `view_remove`), and write nothing outside the
structures of the one list.

Key definitions: `Lst.Words.Lists`, `Lst.Words.OnlyIn`.
Key theorems: `Lst.Words.lists_push`, `Lst.Words.lists_pop`, `Lst.Words.lists_remove`,
`Lst.Words.lists_refine_sequences`.
-/
import Xv6.List

namespace Xv6
namespace Lst
namespace Words

open Links

/-- Memory, a word at each address. -/
abbrev Words := ℕ → ℕ

/-- The offset of `prev` in `struct list`. -/
def PREV : ℕ := 8

/-- `sizeof(struct list)`. -/
def SIZE : ℕ := 16

/-! ### The code -/

def lstInit (w : Words) (lst : ℕ) : Words :=
  let w := Function.update w lst lst
  Function.update w (lst + PREV) lst

def lstEmpty (w : Words) (lst : ℕ) : Bool := w lst = lst

def lstRemove (w : Words) (e : ℕ) : Words :=
  let w := Function.update w (w (e + PREV)) (w e)
  Function.update w (w e + PREV) (w (e + PREV))

def lstPop (w : Words) (lst : ℕ) : Except Stop (ℕ × Words) :=
  if w lst = lst then .error (.panic "lst_pop")
  else
    let p := w lst
    .ok (p, lstRemove w p)

def lstPush (w : Words) (lst p : ℕ) : Words :=
  let e := p
  let w := Function.update w e (w lst)
  let w := Function.update w (e + PREV) lst
  let w := Function.update w (w lst + PREV) p
  Function.update w lst e

/-! ### Lists -/

/-- The pointer fields of the structures. -/
def view (w : Words) : Mem ℕ := ⟨w, fun a => w (a + PREV)⟩

/-- The structures at two addresses do not overlap. -/
def Apart (x y : ℕ) : Prop := x + SIZE ≤ y ∨ y + SIZE ≤ x

/-- A head or an element of one of the lists. -/
def Node (n : ℕ) (H : ℕ → ℕ) (L : ℕ → List ℕ) (x : ℕ) : Prop := ∃ j, j < n ∧ x ∈ H j :: L j

/-- **A memory of circular lists** with heads `H` and elements `L`, whose structures do not
overlap. -/
structure Lists (w : Words) (n : ℕ) (H : ℕ → ℕ) (L : ℕ → List ℕ) : Prop where
  rings : Rings (view w) n H L
  apart : ∀ x y, Node n H L x → Node n H L y → x ≠ y → Apart x y

/-- Nothing differs outside the structures at these addresses. -/
def OnlyIn (l : List ℕ) (w w' : Words) : Prop := ∀ b, (∀ x ∈ l, b < x ∨ x + SIZE ≤ b) → w' b = w b

variable {w : Words} {n k e : ℕ} {H : ℕ → ℕ} {L : ℕ → List ℕ}

theorem Apart.symm {x y : ℕ} (h : Apart x y) : Apart y x := Or.symm h

/-- Two structures that do not overlap have no field in common. -/
theorem Apart.fields {x y : ℕ} (h : Apart x y) : x ≠ y ∧ x ≠ y + PREV ∧ x + PREV ≠ y ∧ x + PREV ≠ y + PREV := by
  have hs : SIZE = 16 := rfl
  have hp : PREV = 8 := rfl
  rw [Apart, hs] at h
  rw [hp]
  omega

/-- A field of a structure of the list is not outside it. -/
theorem OnlyIn.update {l : List ℕ} {w w' : Words} (h : OnlyIn l w w') {x a : ℕ} (hx : x ∈ l) (ha : a = x ∨ a = x + PREV) (v : ℕ) :
    OnlyIn l w (Function.update w' a v) := by
  intro b hb
  have hbx := hb x hx
  have hs : SIZE = 16 := rfl
  have hp : PREV = 8 := rfl
  rw [hs] at hbx
  rw [hp] at ha
  rw [Function.update_of_ne (by omega), h b hb]

theorem OnlyIn.refl (l : List ℕ) (w : Words) : OnlyIn l w w := fun _ _ => rfl

/-- Structures that are apart tell their fields apart. -/
theorem fields_of_apart {x y : ℕ} (h : x ≠ y → Apart x y) :
    x ≠ y + PREV ∧ x + PREV ≠ y ∧ (x + PREV = y + PREV ↔ x = y) := by
  have hp : PREV = 8 := rfl
  by_cases hxy : x = y
  · rw [hxy, hp]
    exact ⟨by omega, by omega, iff_of_true rfl rfl⟩
  · obtain ⟨-, h2, h3, h4⟩ := (h hxy).fields
    exact ⟨h2, h3, iff_of_false h4 hxy⟩

/-- The memory has the pointer fields of `m` in the structures of `P`. -/
def Sees (P : ℕ → Prop) (w : Words) (m : Mem ℕ) : Prop := ∀ x, P x → w x = m.next x ∧ w (x + PREV) = m.prev x

section

variable {P : ℕ → Prop} {m : Mem ℕ} {a v : ℕ}

/-- A store to the `next` field of a structure. -/
theorem Sees.setNext (h : Sees P w m) (hP : ∀ x y, P x → P y → x ≠ y → Apart x y) (ha : P a) :
    Sees P (Function.update w a v) (m.setNext a v) := by
  intro x hx
  have hf := fields_of_apart (hP x a hx ha)
  obtain ⟨h1, h2⟩ := h x hx
  rw [Function.update_of_ne hf.2.1, h2]
  refine ⟨?_, rfl⟩
  by_cases hxa : x = a
  · rw [hxa, Function.update_self, Mem.setNext_self]
  · rw [Function.update_of_ne hxa, Mem.setNext_of_ne _ hxa, h1]

/-- A store to the `prev` field of a structure. -/
theorem Sees.setPrev (h : Sees P w m) (hP : ∀ x y, P x → P y → x ≠ y → Apart x y) (ha : P a) :
    Sees P (Function.update w (a + PREV) v) (m.setPrev a v) := by
  intro x hx
  have hf := fields_of_apart (hP x a hx ha)
  obtain ⟨h1, h2⟩ := h x hx
  rw [Function.update_of_ne hf.1, h1]
  refine ⟨rfl, ?_⟩
  by_cases hxa : x = a
  · rw [hxa, Function.update_self, Mem.setPrev_self]
  · rw [Function.update_of_ne (fun hc => hxa (hf.2.2.mp hc)), Mem.setPrev_of_ne _ hxa, h2]

/-- `lst_push`, seen in the structures of `P`. -/
theorem Sees.push (h : Sees P w m) (hP : ∀ x y, P x → P y → x ≠ y → Apart x y) {lst : ℕ} (hlst : P lst) (he : P e)
    (hne : lst ≠ e) (hnext : P (m.next lst)) : Sees P (lstPush w lst e) (Lst.lstPush m lst e) := by
  have h2 := (h.setNext hP he (v := m.next lst)).setPrev hP he (v := lst)
  have hread : ((m.setNext e (m.next lst)).setPrev e lst).next lst = m.next lst := by
    rw [Mem.setPrev_next, Mem.setNext_of_ne _ hne]
  have h4 := (h2.setPrev hP hnext (v := e)).setNext hP hlst (v := e)
  unfold lstPush Lst.lstPush
  dsimp only
  rw [(h lst hlst).1, (h2 lst hlst).1, hread]
  exact h4

/-- `lst_remove`, seen in the structures of `P`. -/
theorem Sees.remove (h : Sees P w m) (hP : ∀ x y, P x → P y → x ≠ y → Apart x y) (he : P e) (hprev : P (m.prev e))
    (hnext : P (m.next e)) (hne : e ≠ m.prev e) : Sees P (lstRemove w e) (Lst.lstRemove m e) := by
  have h1 := h.setNext hP hprev (v := m.next e)
  have hread : (m.setNext (m.prev e) (m.next e)).next e = m.next e := Mem.setNext_of_ne _ hne
  have h2 := h1.setPrev hP hnext (v := m.prev e)
  unfold lstRemove Lst.lstRemove
  dsimp only
  rw [(h e he).1, (h e he).2, (h1 e he).1, (h1 e he).2, hread, Mem.setNext_prev]
  exact h2

end

/-! ### The operations on sequences -/

/-- An address whose structure overlaps none of the lists'. -/
def Fresh (n : ℕ) (H : ℕ → ℕ) (L : ℕ → List ℕ) (e : ℕ) : Prop := ∀ x, Node n H L x → Apart e x

theorem Lists.node_head (hk : k < n) : Node n H L (H k) := ⟨k, hk, List.mem_cons_self ..⟩

theorem Lists.sees (w : Words) (P : ℕ → Prop) : Sees P w (view w) := fun _ _ => ⟨rfl, rfl⟩

/-- What is seen in all structures of some lists is what the lists are. -/
theorem Sees.rings {P : ℕ → Prop} {m : Mem ℕ} (h : Sees P w m) (hr : Rings m n H L) (hP : ∀ x, Node n H L x → P x) :
    Rings (view w) n H L := by
  refine hr.congr fun j hj x hx => ?_
  obtain ⟨h1, h2⟩ := h x (hP x ⟨j, hj, hx⟩)
  exact ⟨h1, h2⟩

/-- The element after one of a list, or its head. -/
theorem next_mem (hr : Rings (view w) n H L) (hk : k < n) (he : e ∈ H k :: L k) : (view w).next e ∈ H k :: L k := by
  have hpath := hr.path k hk
  rcases List.mem_cons.mp he with rfl | he
  · rw [hpath.next_eq]
    cases L k with
    | nil => exact List.mem_cons_self ..
    | cons y l => exact List.mem_cons_of_mem _ (List.mem_cons_self ..)
  · obtain ⟨l₁, l₂, hl⟩ := List.append_of_mem he
    rw [hl] at hpath ⊢
    rw [(path_append.mp hpath).2.next_eq]
    cases l₂ with
    | nil => exact List.mem_cons_self ..
    | cons y l =>
      rw [List.headD_cons]
      simp only [List.mem_cons, List.mem_append]
      exact Or.inr (Or.inr (Or.inr (Or.inl trivial)))

/-- The element before one of a list is another. -/
theorem prev_mem (hr : Rings (view w) n H L) (hk : k < n) (he : e ∈ L k) :
    (view w).prev e ∈ H k :: L k ∧ e ≠ (view w).prev e := by
  obtain ⟨l₁, l₂, hl⟩ := List.append_of_mem he
  have hnd := hr.nodup k hk
  have hpath := hr.path k hk
  rw [hl] at hnd hpath ⊢
  have hmem := (path_append.mp hpath).1.prev_mem
  rw [← List.cons_append] at hnd ⊢
  refine ⟨List.mem_append_left _ hmem, fun hh => ?_⟩
  rw [← hh] at hmem
  exact (List.nodup_append.mp hnd).2.2 e hmem e (List.mem_cons_self ..) rfl

/-- **`lst_push` of a fresh element** adds it at the front. -/
theorem lists_push (h : Lists w n H L) (hk : k < n) (he : Fresh n H L e) :
    Lists (lstPush w (H k) e) n H (Function.update L k (e :: L k)) ∧ OnlyIn (e :: H k :: L k) w (lstPush w (H k) e) := by
  have hself : ∀ x, Node n H L x → x ≠ e := fun x hx hxe => (he x hx).fields.1 hxe.symm
  have hhead : Node n H L (H k) := Lists.node_head hk
  have hnext := next_mem h.rings hk (List.mem_cons_self ..)
  -- the structures of the lists and of the element
  have hP : ∀ x y, Node n H L x ∨ x = e → Node n H L y ∨ y = e → x ≠ y → Apart x y := by
    rintro x y (hx | rfl) (hy | rfl) hne
    · exact h.apart x y hx hy hne
    · exact (he x hx).symm
    · exact he y hy
    · exact absurd rfl hne
  have hnode : ∀ x, Node n H (Function.update L k (e :: L k)) x → Node n H L x ∨ x = e := by
    rintro x ⟨j, hj, hx⟩
    by_cases hjk : j = k
    · rw [hjk, Function.update_self] at hx
      rcases List.mem_cons.mp hx with rfl | hx
      · exact Or.inl hhead
      · rcases List.mem_cons.mp hx with rfl | hx
        · exact Or.inr rfl
        · exact Or.inl ⟨k, hk, List.mem_cons_of_mem _ hx⟩
    · rw [Function.update_of_ne hjk] at hx
      exact Or.inl ⟨j, hj, hx⟩
  have hsees := (Lists.sees w fun x => Node n H L x ∨ x = e).push hP (Or.inl hhead) (Or.inr rfl) (hself _ hhead)
    (Or.inl ⟨k, hk, hnext⟩)
  have hr := rings_push h.rings hk fun j hj hm => hself e ⟨j, hj, hm⟩ rfl
  refine ⟨⟨hsees.rings hr hnode, fun x y hx hy => hP x y (hnode x hx) (hnode y hy)⟩, ?_⟩
  have hread : Function.update (Function.update w e (w (H k))) (e + PREV) (H k) (H k) = w (H k) := by
    have hf := fields_of_apart (hP (H k) e (Or.inl hhead) (Or.inr rfl))
    rw [Function.update_of_ne hf.1, Function.update_of_ne (hself _ hhead)]
  unfold lstPush
  dsimp only
  rw [hread]
  exact ((((OnlyIn.refl _ w).update (List.mem_cons_self ..) (Or.inl rfl) _).update (List.mem_cons_self ..) (Or.inr rfl) _).update
    (List.mem_cons_of_mem _ hnext) (Or.inr rfl) _).update (List.mem_cons_of_mem _ (List.mem_cons_self ..)) (Or.inl rfl) _

/-- **`lst_remove` of an element**, given its address alone, deletes it from its list. -/
theorem lists_remove (h : Lists w n H L) (hk : k < n) (he : e ∈ L k) :
    Lists (lstRemove w e) n H (Function.update L k ((L k).erase e)) ∧ OnlyIn (H k :: L k) w (lstRemove w e) := by
  have hown : ∀ x, x ∈ H k :: L k → Node n H L x := fun x hx => ⟨k, hk, hx⟩
  have hmem : e ∈ H k :: L k := List.mem_cons_of_mem _ he
  have hnext := next_mem h.rings hk hmem
  obtain ⟨hprev, hne⟩ := prev_mem h.rings hk he
  have hnode : ∀ x, Node n H (Function.update L k ((L k).erase e)) x → Node n H L x := by
    rintro x ⟨j, hj, hx⟩
    by_cases hjk : j = k
    · rw [hjk, Function.update_self] at hx
      refine hown x ?_
      rcases List.mem_cons.mp hx with rfl | hx
      · exact List.mem_cons_self ..
      · exact List.mem_cons_of_mem _ (List.mem_of_mem_erase hx)
    · rw [Function.update_of_ne hjk] at hx
      exact ⟨j, hj, hx⟩
  have hsees := (Lists.sees w (Node n H L)).remove h.apart (hown e hmem) (hown _ hprev) (hown _ hnext) hne
  refine ⟨⟨hsees.rings (rings_remove h.rings hk he) hnode, fun x y hx hy => h.apart x y (hnode x hx) (hnode y hy)⟩, ?_⟩
  have hread : Function.update w (w (e + PREV)) (w e) e = w e := Function.update_of_ne hne ..
  unfold lstRemove
  dsimp only
  rw [hread]
  exact ((OnlyIn.refl _ w).update hprev (Or.inl rfl) _).update hnext (Or.inr rfl) _

/-- **`lst_pop` of a list that is not empty** takes its first element. -/
theorem lists_pop (h : Lists w n H L) (hk : k < n) {l : List ℕ} (hl : L k = e :: l) :
    ∃ w', lstPop w (H k) = .ok (e, w') ∧ Lists w' n H (Function.update L k l) ∧ OnlyIn (H k :: L k) w w' := by
  have hnext : w (H k) = e := by
    have hn := (h.rings.path k hk).next_eq
    rw [hl, List.headD_cons] at hn
    exact hn
  have hne : w (H k) ≠ H k := by
    intro hc
    have hempty := (h.rings.isEmpty_iff hk).mp hc
    rw [hl] at hempty
    cases hempty
  obtain ⟨hlists, honly⟩ := lists_remove h hk (by rw [hl]; exact List.mem_cons_self ..)
  have herase : (L k).erase e = l := by rw [hl, List.erase_cons_head]
  rw [herase] at hlists
  refine ⟨lstRemove w e, ?_, hlists, honly⟩
  rw [lstPop, if_neg hne, hnext]

/-- **Intrusive lists refine sequences**: each operation changes the one list as a sequence, and
no memory but its structures. -/
theorem lists_refine_sequences (h : Lists w n H L) (hk : k < n) :
    (∀ e, Fresh n H L e → Lists (lstPush w (H k) e) n H (Function.update L k (e :: L k)) ∧
      OnlyIn (e :: H k :: L k) w (lstPush w (H k) e)) ∧
    (∀ e l, L k = e :: l → ∃ w', lstPop w (H k) = .ok (e, w') ∧ Lists w' n H (Function.update L k l) ∧
      OnlyIn (H k :: L k) w w') ∧
    ∀ e ∈ L k, Lists (lstRemove w e) n H (Function.update L k ((L k).erase e)) ∧ OnlyIn (H k :: L k) w (lstRemove w e) :=
  ⟨fun _ he => lists_push h hk he, fun _ _ hl => lists_pop h hk hl, fun _ he => lists_remove h hk he⟩

/-- Two empty lists, initialised. -/
def twoEmpty : Words := lstInit (lstInit (fun _ => 0) 0) 16

theorem twoEmpty_lists : Lists twoEmpty 2 (fun j => j * 16) fun _ => [] := by
  have hnode : ∀ x, Node 2 (fun j => j * 16) (fun _ => []) x → x = 0 ∨ x = 16 := by
    rintro x ⟨j, hj, hx⟩
    have hxj : x = j * 16 := List.mem_singleton.mp hx
    omega
  refine ⟨⟨fun j hj => ?_, fun j _ => List.nodup_singleton _, fun j hj j' hj' hne x hx hx' => ?_⟩, fun x y hx hy hne => ?_⟩
  · have hcase : j = 0 ∨ j = 1 := by omega
    rcases hcase with rfl | rfl
    · exact ⟨rfl, rfl⟩
    · exact ⟨rfl, rfl⟩
  · have h1 : x = j * 16 := List.mem_singleton.mp hx
    have h2 : x = j' * 16 := List.mem_singleton.mp hx'
    omega
  · have hs : SIZE = 16 := rfl
    rw [Apart, hs]
    rcases hnode x hx with rfl | rfl
    · rcases hnode y hy with rfl | rfl
      · exact absurd rfl hne
      · exact Or.inl (Nat.le_refl _)
    · rcases hnode y hy with rfl | rfl
      · exact Or.inr (Nat.le_refl _)
      · exact absurd rfl hne

theorem lists_refine_sequences_two : Lists twoEmpty 2 (fun j => j * 16) (fun _ => []) ∧
    Fresh 2 (fun j => j * 16) (fun _ => []) 64 ∧
    Lists (lstPush twoEmpty (1 * 16) 64) 2 (fun j => j * 16) (Function.update (fun _ => []) 1 [64]) := by
  have hfresh : Fresh 2 (fun j => j * 16) (fun _ => []) 64 := by
    rintro x ⟨j, hj, hx⟩
    have hxj : x = j * 16 := List.mem_singleton.mp hx
    have hs : SIZE = 16 := rfl
    rw [Apart, hs]
    omega
  exact ⟨twoEmpty_lists, hfresh, ((lists_refine_sequences twoEmpty_lists (by decide)).1 64 hfresh).1⟩

end Words
end Lst
end Xv6
