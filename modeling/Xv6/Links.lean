/-
# Circular doubly linked lists in memory

Nodes live at addresses and hold a `next` and a `prev` pointer. `Path m a l b`
says that following `next` from `a` visits the nodes `l` and arrives at `b`,
and that `prev` leads back the same way; a ring is a path from its head to
itself. `Rings m n H L` is a memory of `n` rings with heads `H k` and elements
`L k`, no node in two places: storing outside their nodes leaves it as it is
(`Rings.congr`), and linking a fresh node in after a head (`Rings.link`) or
unlinking a node from wherever it is (`Rings.unlink`) changes one list. A loop
that follows `next`, or `prev`, from the head of a ring until it is back there
goes through the list, or through its reverse (`Path.search_next`,
`Path.search_prev`).

Key definitions: `Links.Mem`, `Links.Path`, `Links.Rings`, `Links.search`.
Key theorems: `Links.Rings.link`, `Links.Rings.unlink`, `Links.Rings.congr`.
-/
import Mathlib.Data.List.Nodup
import Mathlib.Data.List.Count
import Mathlib.Tactic.Common

namespace Links

variable {α : Type*}

/-- The pointers of the nodes at each address. -/
@[ext]
structure Mem (α : Type*) where
  next : α → α
  prev : α → α

namespace Mem

variable [DecidableEq α]

/-- `a->next = b`. -/
def setNext (m : Mem α) (a b : α) : Mem α := { m with next := Function.update m.next a b }

/-- `a->prev = b`. -/
def setPrev (m : Mem α) (a b : α) : Mem α := { m with prev := Function.update m.prev a b }

variable (m : Mem α) (a b : α)

@[simp] theorem setNext_prev : (m.setNext a b).prev = m.prev := rfl
@[simp] theorem setPrev_next : (m.setPrev a b).next = m.next := rfl
@[simp] theorem setNext_self : (m.setNext a b).next a = b := by simp [setNext]
@[simp] theorem setPrev_self : (m.setPrev a b).prev a = b := by simp [setPrev]

variable {a b} {x : α}

theorem setNext_of_ne (h : x ≠ a) : (m.setNext a b).next x = m.next x := by simp [setNext, h]
theorem setPrev_of_ne (h : x ≠ a) : (m.setPrev a b).prev x = m.prev x := by simp [setPrev, h]

end Mem

variable {m m' : Mem α} {a b e h x : α} {l l₁ l₂ : List α}

/-- `b` follows `a`, in both directions. -/
def Linked (m : Mem α) (a b : α) : Prop := m.next a = b ∧ m.prev b = a

/-- From `a` through `l` to `b`. -/
def Path (m : Mem α) : α → List α → α → Prop
  | a, [], b => Linked m a b
  | a, x :: l, b => Linked m a x ∧ Path m x l b

theorem path_append : Path m a (l₁ ++ x :: l₂) b ↔ Path m a l₁ x ∧ Path m x l₂ b := by
  induction l₁ generalizing a with
  | nil => rfl
  | cons y l ih => simp only [List.cons_append, Path, ih, and_assoc]

/-- A path reads `next` at its nodes but the last and `prev` at its nodes but the first. -/
theorem Path.congr (hp : Path m a l b) (hn : ∀ x ∈ a :: l, m'.next x = m.next x)
    (hv : ∀ x ∈ b :: l, m'.prev x = m.prev x) : Path m' a l b := by
  induction l generalizing a with
  | nil =>
    refine ⟨?_, ?_⟩
    · rw [hn a (by simp)]
      exact hp.1
    · rw [hv b (by simp)]
      exact hp.2
  | cons y l ih =>
    refine ⟨⟨?_, ?_⟩, ih hp.2 (fun x hx => hn x (List.mem_cons_of_mem _ hx)) fun x hx => hv x ?_⟩
    · rw [hn a (by simp)]
      exact hp.1.1
    · rw [hv y (by simp)]
      exact hp.1.2
    · simp only [List.mem_cons] at hx ⊢
      tauto

/-- The node before the end of a path is one of its nodes. -/
theorem Path.prev_mem (hp : Path m a l b) : m.prev b ∈ a :: l := by
  induction l generalizing a with
  | nil => simp [hp.2]
  | cons y l ih => exact List.mem_cons_of_mem _ (ih hp.2)

/-- The node after the start of a path is its first node, or the end. -/
theorem Path.next_eq (hp : Path m a l b) : m.next a = l.headD b := by
  cases l with
  | nil => exact hp.1
  | cons y l => exact hp.1.1

/-- A path determines its list, if it does not pass its end. -/
theorem Path.unique (h1 : Path m a l₁ b) (h2 : Path m a l₂ b) (hb1 : b ∉ l₁) (hb2 : b ∉ l₂) :
    l₁ = l₂ := by
  induction l₁ generalizing a l₂ with
  | nil =>
    cases l₂ with
    | nil => rfl
    | cons y l =>
      have : y = b := h2.1.1.symm.trans h1.1
      exact absurd this (fun he => hb2 (by simp [he]))
  | cons x l ih =>
    cases l₂ with
    | nil =>
      have : x = b := h1.1.1.symm.trans h2.1
      exact absurd this (fun he => hb1 (by simp [he]))
    | cons y l' =>
      obtain rfl : x = y := h1.1.1.symm.trans h2.1.1
      rw [ih h1.2 h2.2 (fun hm => hb1 (List.mem_cons_of_mem _ hm))
        (fun hm => hb2 (List.mem_cons_of_mem _ hm))]

/-! ### Going round a ring -/

/-- The memory with the two directions exchanged. -/
def Mem.swap (m : Mem α) : Mem α := ⟨m.prev, m.next⟩

theorem Path.swap (hp : Path m a l b) : Path m.swap b l.reverse a := by
  induction l generalizing a with
  | nil => exact ⟨hp.2, hp.1⟩
  | cons y l ih =>
    rw [List.reverse_cons]
    exact path_append.mpr ⟨ih hp.2, hp.1.2, hp.1.1⟩

section Search

variable [DecidableEq α]

/-- `for(; x != h; x = f(x)) if(p(x)) return x;` in at most `n` rounds: none if
the loop has not ended by then. -/
def search (f : α → α) (h : α) (p : α → Bool) : ℕ → α → Option (Option α)
  | 0, _ => none
  | n + 1, x => if x = h then some none else if p x then some (some x) else search f h p n (f x)

theorem Path.search_next (hp : Path m a l h) (hl : h ∉ l) (p : α → Bool) :
    search m.next h p (l.length + 1) (m.next a) = some (l.find? p) := by
  induction l generalizing a with
  | nil => simp [search, show m.next a = h from hp.1]
  | cons y l ih =>
    have hy : m.next a = y := hp.1.1
    have hne : y ≠ h := fun he => hl (by simp [he])
    rw [List.length_cons, search, hy, if_neg hne, List.find?_cons]
    by_cases hpy : p y = true
    · rw [if_pos hpy, hpy]
    · rw [if_neg hpy, ih hp.2 fun hm => hl (List.mem_cons_of_mem _ hm)]
      simp [hpy]

theorem Path.search_prev (hp : Path m h l a) (hl : h ∉ l) (p : α → Bool) :
    search m.prev h p (l.length + 1) (m.prev a) = some (l.reverse.find? p) := by
  have := hp.swap.search_next (by rwa [List.mem_reverse]) p
  rwa [List.length_reverse] at this

end Search

/-! ### A memory of several rings -/

/-- `n` rings with heads `H k` and elements `L k`; no node is in two places. -/
structure Rings (m : Mem α) (n : ℕ) (H : ℕ → α) (L : ℕ → List α) : Prop where
  path : ∀ k < n, Path m (H k) (L k) (H k)
  nodup : ∀ k < n, (H k :: L k).Nodup
  disjoint : ∀ j < n, ∀ k < n, j ≠ k → ∀ x ∈ H j :: L j, x ∉ H k :: L k

variable {n k : ℕ} {H : ℕ → α} {L : ℕ → List α}

/-- Only the pointers of the nodes matter. -/
theorem Rings.congr (hr : Rings m n H L)
    (hn : ∀ k < n, ∀ x ∈ H k :: L k, m'.next x = m.next x ∧ m'.prev x = m.prev x) :
    Rings m' n H L :=
  ⟨fun k hk => (hr.path k hk).congr (fun x hx => (hn k hk x hx).1) fun x hx => (hn k hk x hx).2,
    hr.nodup, hr.disjoint⟩

theorem Rings.isEmpty_iff (hr : Rings m n H L) (hk : k < n) : m.next (H k) = H k ↔ L k = [] := by
  rw [(hr.path k hk).next_eq]
  have hnd := (List.nodup_cons.mp (hr.nodup k hk)).1
  cases hl : L k with
  | nil => simp
  | cons y l =>
    rw [hl] at hnd
    simp only [List.headD_cons, reduceCtorEq, iff_false]
    exact fun hh => hnd (by simp [hh])

/-- A memory of rings determines the lists. -/
theorem Rings.unique {L' : ℕ → List α} (h : Rings m n H L) (h' : Rings m n H L') :
    ∀ k < n, L k = L' k := fun k hk =>
  (h.path k hk).unique (h'.path k hk) (List.nodup_cons.mp (h.nodup k hk)).1
    (List.nodup_cons.mp (h'.nodup k hk)).1

/-- Replacing list `k` by a list of the same nodes and perhaps a fresh one. -/
theorem Rings.update (hr : Rings m n H L) (hk : k < n) {l : List α}
    (hpath : Path m' (H k) l (H k)) (hnodup : (H k :: l).Nodup)
    (hnew : ∀ x ∈ l, x ∈ L k ∨ ∀ j < n, x ∉ H j :: L j)
    (hframe : ∀ j < n, j ≠ k → ∀ x ∈ H j :: L j, m'.next x = m.next x ∧ m'.prev x = m.prev x) :
    Rings m' n H (Function.update L k l) := by
  have hL : ∀ j, j ≠ k → Function.update L k l j = L j := fun j hj => Function.update_of_ne hj _ _
  have hin : ∀ j < n, j ≠ k → ∀ x ∈ H k :: l, x ∉ H j :: L j := by
    intro j hj hjk x hx
    rcases List.mem_cons.mp hx with rfl | hx
    · exact hr.disjoint k hk j hj hjk.symm _ (by simp)
    · rcases hnew x hx with h1 | h1
      · exact hr.disjoint k hk j hj hjk.symm x (List.mem_cons_of_mem _ h1)
      · exact h1 j hj
  refine ⟨fun j hj => ?_, fun j hj => ?_, fun i hi j hj hij x hx => ?_⟩
  · rcases eq_or_ne j k with rfl | hjk
    · simpa using hpath
    · rw [hL j hjk]
      exact (hr.path j hj).congr (fun x hx => (hframe j hj hjk x hx).1) fun x hx =>
        (hframe j hj hjk x hx).2
  · rcases eq_or_ne j k with rfl | hjk
    · simpa using hnodup
    · rw [hL j hjk]
      exact hr.nodup j hj
  · rcases eq_or_ne i k with rfl | hik
    · rw [Function.update_self] at hx
      rw [hL j hij.symm]
      exact hin j hj hij.symm x hx
    · rw [hL i hik] at hx
      rcases eq_or_ne j k with rfl | hjk
      · rw [Function.update_self]
        exact fun hm => hin i hi hij x hm hx
      · rw [hL j hjk]
        exact hr.disjoint i hi j hj hij x hx

/-! ### Linking and unlinking one node -/

variable [DecidableEq α]

/-- The node `e` between `h` and what follows it. -/
def linkAfter (m : Mem α) (h e : α) : Mem α :=
  (((m.setNext e (m.next h)).setPrev e h).setPrev (m.next h) e).setNext h e

/-- The neighbours of `e` joined past it. -/
def cut (m : Mem α) (e : α) : Mem α :=
  (m.setNext (m.prev e) (m.next e)).setPrev (m.next e) (m.prev e)

theorem Path.linkAfter (hp : Path m h l h) (hd : (h :: l).Nodup) (he : e ∉ h :: l) :
    Path (linkAfter m h e) h (e :: l) h := by
  have heh : e ≠ h := fun hh => he (by simp [hh])
  have hhl : h ∉ l := (List.nodup_cons.mp hd).1
  have hnext : ∀ x, x ≠ e → x ≠ h → (Links.linkAfter m h e).next x = m.next x := by
    intro x h1 h2
    simp [Links.linkAfter, Mem.setNext_of_ne _ h2, Mem.setNext_of_ne _ h1]
  have hprev : ∀ x, x ≠ e → x ≠ m.next h → (Links.linkAfter m h e).prev x = m.prev x := by
    intro x h1 h2
    simp [Links.linkAfter, Mem.setPrev_of_ne _ h2, Mem.setPrev_of_ne _ h1]
  have hfirst : (Links.linkAfter m h e).prev (m.next h) = e := by simp [Links.linkAfter]
  have hnx := hp.next_eq
  have hne : m.next h ≠ e := by
    rw [hnx]
    cases l with
    | nil => exact heh.symm
    | cons y l => exact fun hh => he (by simp [show y = e from hh])
  have hhead : Linked (Links.linkAfter m h e) h e := by
    refine ⟨by simp [Links.linkAfter], ?_⟩
    simp [Links.linkAfter, Mem.setPrev_of_ne _ hne.symm]
  have hsecond : Linked (Links.linkAfter m h e) e (m.next h) := by
    refine ⟨?_, hfirst⟩
    simp [Links.linkAfter, Mem.setNext_of_ne _ heh]
  refine ⟨hhead, ?_⟩
  cases l with
  | nil =>
    rw [hnx] at hsecond
    exact hsecond
  | cons y l =>
    rw [hnx] at hsecond
    refine ⟨hsecond, hp.2.congr (fun x hx => hnext x ?_ ?_) (fun x hx => hprev x ?_ ?_)⟩
    · exact fun hh => he (hh ▸ List.mem_cons_of_mem _ hx)
    · exact fun hh => hhl (hh ▸ hx)
    · rcases List.mem_cons.mp hx with rfl | hx
      · exact heh.symm
      · exact fun hh => he (hh ▸ List.mem_cons_of_mem _ (List.mem_cons_of_mem _ hx))
    · rw [hnx]
      have hyl : y ∉ l := (List.nodup_cons.mp (List.nodup_cons.mp hd).2).1
      rcases List.mem_cons.mp hx with rfl | hx
      · exact fun hh => hhl (by simp [show x = y from hh])
      · intro hh
        have hxy : x = y := hh
        exact hyl (hxy ▸ hx)

/-- Cutting out `e` leads the path that ended at `e` to what follows `e`. -/
theorem Path.cut_left (hp : Path m a l e) (hd : (a :: l).Nodup) (hb : m.next e ∉ l) :
    Path (cut m e) a l (m.next e) := by
  induction l generalizing a with
  | nil =>
    have ha : m.prev e = a := hp.2
    refine ⟨by simp [cut, ha], by simp [cut, ha]⟩
  | cons y l ih =>
    have hmem : m.prev e ∈ y :: l := hp.2.prev_mem
    have hne : a ≠ m.prev e := fun hh => (List.nodup_cons.mp hd).1 (hh ▸ hmem)
    have hy : y ≠ m.next e := fun hh => hb (by simp [hh])
    refine ⟨⟨?_, ?_⟩, ih hp.2 (List.nodup_cons.mp hd).2 fun hh => hb (List.mem_cons_of_mem _ hh)⟩
    · simp [cut, Mem.setNext_of_ne _ hne, hp.1.1]
    · simp [cut, Mem.setPrev_of_ne _ hy, hp.1.2]

/-- Cutting out `e` starts the path that started at `e` from what precedes `e`. -/
theorem Path.cut_right (hp : Path m e l b) (hd : (b :: l).Nodup) (ha : m.prev e ∉ l) :
    Path (cut m e) (m.prev e) l b := by
  cases l with
  | nil =>
    have hb : m.next e = b := hp.1
    exact ⟨by simp [cut, hb], by simp [cut, hb]⟩
  | cons y l =>
    have hy : m.next e = y := hp.1.1
    refine ⟨⟨by simp [cut, hy], by simp [cut, hy]⟩, hp.2.congr (fun x hx => ?_) (fun x hx => ?_)⟩
    · have hne : x ≠ m.prev e := fun hh => ha (hh ▸ hx)
      simp [cut, Mem.setNext_of_ne _ hne]
    · have hne : x ≠ m.next e := by
        rw [hy]
        rcases List.mem_cons.mp hx with rfl | hx
        · exact fun hh => (List.nodup_cons.mp hd).1 (by simp [hh])
        · exact fun hh => (List.nodup_cons.mp (List.nodup_cons.mp hd).2).1 (hh ▸ hx)
      simp [cut, Mem.setPrev_of_ne _ hne]

/-- Joining a path to the node before `e` with a path from it. -/
theorem Path.cut (h1 : Path m h l₁ e) (h2 : Path m e l₂ h) (hd : (h :: (l₁ ++ e :: l₂)).Nodup) :
    Path (cut m e) h (l₁ ++ l₂) h := by
  have hd' : h ∉ l₁ ∧ h ≠ e ∧ h ∉ l₂ ∧ l₁.Nodup ∧ e ∉ l₂ ∧ l₂.Nodup ∧ e ∉ l₁ ∧
      ∀ x ∈ l₁, x ∉ l₂ := by
    simp only [List.nodup_cons, List.mem_append, List.mem_cons, List.nodup_append, not_or] at hd
    grind
  obtain ⟨d1, d2, d3, d4, d5, d6, d7, d8⟩ := hd'
  have hnext : m.next e ∉ l₁ := by
    rw [h2.next_eq]
    cases l₂ with
    | nil => exact d1
    | cons y l => exact fun hh => d8 y hh (by simp)
  have hprev : m.prev e ∉ l₂ := by
    rcases List.mem_cons.mp h1.prev_mem with hh | hh
    · rw [hh]; exact d3
    · exact d8 _ hh
  have hleft := h1.cut_left (List.nodup_cons.mpr ⟨d1, d4⟩) hnext
  have hright := h2.cut_right (List.nodup_cons.mpr ⟨d3, d6⟩) hprev
  cases l₂ with
  | nil =>
    rw [List.append_nil]
    have hb : m.next e = h := h2.1
    rwa [hb] at hleft
  | cons y l =>
    have hy : m.next e = y := h2.1.1
    rw [hy] at hleft
    exact path_append.mpr ⟨hleft, hright.2⟩

/-! ### Linking and unlinking in a memory of rings -/

/-- **Linking in.** A fresh node linked after a head becomes the first element. -/
theorem Rings.link (hr : Rings m n H L) (hk : k < n) (he : ∀ j < n, e ∉ H j :: L j) :
    Rings (linkAfter m (H k) e) n H (Function.update L k (e :: L k)) := by
  have hnd := hr.nodup k hk
  have hnx := (hr.path k hk).next_eq
  refine hr.update hk ((hr.path k hk).linkAfter hnd (he k hk)) ?_ (fun x hx => ?_)
    fun j hj hjk x hx => ?_
  · have hek := he k hk
    simp only [List.nodup_cons, List.mem_cons, not_or] at hnd hek ⊢
    exact ⟨⟨fun hh => hek.1 hh.symm, hnd.1⟩, hek.2, hnd.2⟩
  · rcases List.mem_cons.mp hx with rfl | hx
    · exact .inr he
    · exact .inl hx
  · have hxe : x ≠ e := fun hh => he j hj (hh ▸ hx)
    have hxk : x ∉ H k :: L k := hr.disjoint j hj k hk hjk x hx
    have hxh : x ≠ H k := fun hh => hxk (by simp [hh])
    have hxn : x ≠ m.next (H k) := by
      rw [hnx]
      intro hh
      apply hxk
      rw [hh]
      cases hl : L k <;> simp
    simp [linkAfter, Mem.setNext_of_ne _ hxh, Mem.setNext_of_ne _ hxe, Mem.setPrev_of_ne _ hxn,
      Mem.setPrev_of_ne _ hxe]

/-- **Unlinking.** Cutting a node out, given only its address, deletes it from its list. -/
theorem Rings.unlink (hr : Rings m n H L) (hk : k < n) (he : e ∈ L k) :
    Rings (Links.cut m e) n H (Function.update L k ((L k).erase e)) := by
  obtain ⟨l₁, l₂, hl⟩ := List.append_of_mem he
  have hnd := hr.nodup k hk
  have hpath := hr.path k hk
  rw [hl] at hnd hpath
  obtain ⟨hp1, hp2⟩ := path_append.mp hpath
  have he1 : e ∉ l₁ := by
    intro hm
    have := (List.nodup_cons.mp hnd).2
    rw [List.nodup_append] at this
    exact this.2.2 e hm e (by simp) rfl
  have herase : (L k).erase e = l₁ ++ l₂ := by
    rw [hl, List.erase_append_right _ he1, List.erase_cons_head]
  have hsub : ∀ x ∈ l₁ ++ l₂, x ∈ L k := by
    intro x hx
    rw [hl]
    simp only [List.mem_append, List.mem_cons] at hx ⊢
    tauto
  rw [herase]
  refine hr.update hk (hp1.cut hp2 hnd) ?_ (fun x hx => .inl (hsub x hx)) fun j hj hjk x hx => ?_
  · refine hnd.sublist (List.Sublist.cons_cons _ ?_)
    exact (List.Sublist.refl l₁).append (List.sublist_cons_self e l₂)
  · have hxk : x ∉ H k :: L k := hr.disjoint j hj k hk hjk x hx
    have hprev : m.prev e ∈ H k :: L k := by
      have := hp1.prev_mem
      rw [hl]
      simp only [List.mem_append, List.mem_cons] at this ⊢
      tauto
    have hnext : m.next e ∈ H k :: L k := by
      rw [hp2.next_eq, hl]
      cases l₂ <;> simp
    have h1 : x ≠ m.prev e := fun hh => hxk (hh ▸ hprev)
    have h2 : x ≠ m.next e := fun hh => hxk (hh ▸ hnext)
    simp [Links.cut, Mem.setNext_of_ne _ h1, Mem.setPrev_of_ne _ h2]

end Links
