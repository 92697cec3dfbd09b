/-
# Tries made of linked nodes

A trie is given by a function `child` that says which node a slot of a node
links to. A node is addressed by the list of indices that leads to it from the
root (`descend`). In a trie of depth `n` that links every node once, two paths
of at most `n` steps never meet (`LinkedOnce`).

Linking a fresh node into an empty slot adds that node and moves no other
(`Inserted.descend_iff`), and the trie still links every node once. The nodes
can be listed, each after the nodes below it (`nodes`).

Key definitions: `Trie.descend`, `Trie.Reach`, `Trie.LinkedOnce`, `Trie.Inserted`, `Trie.nodes`.
-/
import Mathlib.Data.List.Basic
import Mathlib.Data.List.Nodup
import Mathlib.Data.List.Flatten
import Mathlib.Data.List.Induction
import Mathlib.Tactic.Common

namespace Trie

variable {α ι : Type*}

/-- The node a path leads to. -/
def descend (child : α → ι → Option α) : α → List ι → Option α
  | p, [] => some p
  | p, i :: π => (child p i).bind fun q => descend child q π

variable {child child' : α → ι → Option α} {I : List ι} {n : ℕ} {root p q z : α} {π σ : List ι} {i j : ι}

theorem descend_cons_eq_some : descend child p (i :: π) = some q ↔
    ∃ r, child p i = some r ∧ descend child r π = some q := Option.bind_eq_some_iff

theorem descend_append : descend child p (π ++ σ) = (descend child p π).bind fun q => descend child q σ := by
  induction π generalizing p with
  | nil => rfl
  | cons i π ih =>
    rcases h : child p i with _ | r
    · simp [descend, h]
    · simp [descend, h, ih]

theorem descend_concat_eq_some : descend child p (π ++ [i]) = some q ↔
    ∃ r, descend child p π = some r ∧ child r i = some q := by
  rw [descend_append, Option.bind_eq_some_iff]
  refine exists_congr fun r => and_congr_right fun _ => ?_
  rw [descend_cons_eq_some]
  constructor
  · rintro ⟨t, ht, h⟩
    rw [ht, ← h]
    rfl
  · intro ht
    exact ⟨q, ht, rfl⟩

/-- A path of at most `n` steps with indices of `I` leads from `root` to `p`. -/
structure Reach (child : α → ι → Option α) (I : List ι) (n : ℕ) (root : α) (π : List ι) (p : α) : Prop where
  len : π.length ≤ n
  idx : ∀ i ∈ π, i ∈ I
  eq : descend child root π = some p

theorem Reach.nil (child : α → ι → Option α) (I : List ι) (n : ℕ) (root : α) : Reach child I n root [] root :=
  ⟨Nat.zero_le _, by simp, rfl⟩

theorem Reach.cons (h : Reach child I n q π p) (hi : i ∈ I) (hc : child root i = some q) :
    Reach child I (n + 1) root (i :: π) p :=
  ⟨Nat.succ_le_succ h.len, by simpa [hi] using h.idx, descend_cons_eq_some.mpr ⟨q, hc, h.eq⟩⟩

/-- No two paths of at most `n` steps lead to one node. -/
def LinkedOnce (child : α → ι → Option α) (I : List ι) (n : ℕ) (root : α) : Prop :=
  ∀ π σ p, Reach child I n root π p → Reach child I n root σ p → π = σ

/-- The part below a node links every node once. -/
theorem LinkedOnce.sub (h : LinkedOnce child I (n + 1) root) (hi : i ∈ I) (hc : child root i = some q) :
    LinkedOnce child I n q := fun π σ p hp hs =>
  (List.cons.inj (h (i :: π) (i :: σ) p (hp.cons hi hc) (hs.cons hi hc))).2

/-- Tries that agree at the nodes above depth `n` have the same paths of `n` steps. -/
theorem descend_congr : ∀ {n : ℕ} {root : α} {π : List ι},
    (∀ σ p i, Reach child I n root σ p → σ.length < n → i ∈ I → child' p i = child p i) →
    π.length ≤ n → (∀ i ∈ π, i ∈ I) → descend child' root π = descend child root π
  | n, root, [], _, _, _ => rfl
  | 0, root, i :: π, _, hl, _ => absurd hl (Nat.not_succ_le_zero _)
  | n + 1, root, i :: π, h, hl, hI => by
    have hi : i ∈ I := hI i (List.mem_cons_self ..)
    rw [descend, descend, h [] root i (.nil ..) (Nat.succ_pos _) hi]
    rcases hc : child root i with _ | q
    · rfl
    · refine descend_congr (n := n) (fun σ p j hr hlt hj => ?_) (Nat.le_of_succ_le_succ hl)
        fun j hj => hI j (List.mem_cons_of_mem _ hj)
      exact h (i :: σ) p j (hr.cons hi hc) (Nat.succ_lt_succ hlt) hj

/-! ### Linking a node -/

/-- The fresh node `z` is linked into the empty slot `i` of the node at `π`. -/
structure Inserted (child child' : α → ι → Option α) (I : List ι) (n : ℕ) (root : α) (π : List ι) (p : α) (i : ι)
    (z : α) : Prop where
  reach : Reach child I n root π p
  short : π.length < n
  idx : i ∈ I
  empty : child p i = none
  new : child' p i = some z
  leaf : ∀ j ∈ I, child' z j = none
  fresh : ∀ σ, ¬ Reach child I n root σ z
  same : ∀ σ q j, Reach child I n root σ q → j ∈ I → ¬ (q = p ∧ j = i) → child' q j = child q j

namespace Inserted

variable (h : Inserted child child' I n root π p i z) (ho : LinkedOnce child I n root)

include h ho

/-- The new node is at its place, and every other node where it was. -/
theorem descend_iff (σ : List ι) (q : α) (hl : σ.length ≤ n) (hI : ∀ j ∈ σ, j ∈ I) :
    descend child' root σ = some q ↔ descend child root σ = some q ∨ σ = π ++ [i] ∧ q = z := by
  induction σ using List.reverseRecOn generalizing q with
  | nil => simp [descend]
  | append_singleton σ j ih =>
    rw [List.length_append, List.length_singleton] at hl
    have hj : j ∈ I := hI j (by simp)
    have hσ : ∀ k ∈ σ, k ∈ I := fun k hk => hI k (List.mem_append_left _ hk)
    rw [descend_concat_eq_some, descend_concat_eq_some]
    constructor
    · rintro ⟨r, hr, hc⟩
      rcases (ih r (by omega) hσ).mp hr with hr | ⟨-, rfl⟩
      · have hreach : Reach child I n root σ r := ⟨by omega, hσ, hr⟩
        by_cases hslot : r = p ∧ j = i
        · obtain ⟨rfl, rfl⟩ := hslot
          obtain rfl := ho σ π r hreach h.reach
          exact .inr ⟨rfl, Option.some.inj (hc.symm.trans h.new)⟩
        · rw [h.same σ r j hreach hj hslot] at hc
          exact .inl ⟨r, hr, hc⟩
      · rw [h.leaf j hj] at hc
        cases hc
    · rintro (⟨r, hr, hc⟩ | ⟨he, rfl⟩)
      · have hreach : Reach child I n root σ r := ⟨by omega, hσ, hr⟩
        refine ⟨r, (ih r (by omega) hσ).mpr (.inl hr), ?_⟩
        rw [h.same σ r j hreach hj fun ⟨hp, hji⟩ => ?_, hc]
        subst hp hji
        rw [h.empty] at hc
        cases hc
      · obtain ⟨rfl, hji⟩ := List.append_inj' he rfl
        obtain rfl : j = i := List.singleton_inj.mp hji
        exact ⟨p, (ih p (by omega) hσ).mpr (.inl h.reach.eq), h.new⟩

theorem reach_iff (σ : List ι) (q : α) :
    Reach child' I n root σ q ↔ Reach child I n root σ q ∨ σ = π ++ [i] ∧ q = z := by
  constructor
  · intro hr
    rcases (h.descend_iff ho σ q hr.len hr.idx).mp hr.eq with h1 | h1
    · exact .inl ⟨hr.len, hr.idx, h1⟩
    · exact .inr h1
  · rintro (hr | ⟨rfl, rfl⟩)
    · exact ⟨hr.len, hr.idx, (h.descend_iff ho σ q hr.len hr.idx).mpr (.inl hr.eq)⟩
    · have hl : (π ++ [i]).length ≤ n := by
        rw [List.length_append, List.length_singleton]
        exact h.short
      have hI : ∀ j ∈ π ++ [i], j ∈ I := by
        intro j hj
        rcases List.mem_append.mp hj with hj | hj
        · exact h.reach.idx j hj
        · rw [List.mem_singleton.mp hj]
          exact h.idx
      exact ⟨hl, hI, (h.descend_iff ho _ _ hl hI).mpr (.inr ⟨rfl, rfl⟩)⟩

theorem linkedOnce : LinkedOnce child' I n root := by
  intro σ τ q hs ht
  rcases (h.reach_iff ho σ q).mp hs with h1 | ⟨rfl, rfl⟩
  · rcases (h.reach_iff ho τ q).mp ht with h2 | ⟨rfl, rfl⟩
    · exact ho σ τ q h1 h2
    · exact absurd h1 (h.fresh σ)
  · rcases (h.reach_iff ho τ q).mp ht with h2 | ⟨rfl, -⟩
    · exact absurd h2 (h.fresh τ)
    · rfl

end Inserted

/-! ### The nodes -/

/-- The nodes at most `n` steps below `p`, each after those below it. -/
def nodes (child : α → ι → Option α) (I : List ι) : ℕ → α → List α
  | 0, p => [p]
  | n + 1, p => (I.flatMap fun i => (child p i).elim [] (nodes child I n)) ++ [p]

theorem mem_nodes : ∀ {n : ℕ} {p q : α}, q ∈ nodes child I n p ↔ ∃ π, Reach child I n p π q
  | 0, p, q => by
    rw [nodes, List.mem_singleton]
    constructor
    · rintro rfl
      exact ⟨[], .nil ..⟩
    · rintro ⟨π, hr⟩
      obtain rfl : π = [] := List.eq_nil_of_length_eq_zero (Nat.le_zero.mp hr.len)
      exact (Option.some.inj hr.eq).symm
  | n + 1, p, q => by
    rw [nodes, List.mem_append, List.mem_singleton, List.mem_flatMap]
    constructor
    · rintro (⟨i, hi, hq⟩ | rfl)
      · rcases hc : child p i with _ | r
        · simp [hc] at hq
        · rw [hc, Option.elim_some] at hq
          obtain ⟨π, hr⟩ := mem_nodes.mp hq
          exact ⟨i :: π, hr.cons hi hc⟩
      · exact ⟨[], .nil ..⟩
    · rintro ⟨_ | ⟨i, π⟩, hr⟩
      · exact .inr (Option.some.inj hr.eq).symm
      · obtain ⟨r, hc, hd⟩ := descend_cons_eq_some.mp hr.eq
        refine .inl ⟨i, hr.idx i (List.mem_cons_self ..), ?_⟩
        rw [hc, Option.elim_some]
        exact mem_nodes.mpr ⟨π, Nat.le_of_succ_le_succ hr.len, fun j hj => hr.idx j (List.mem_cons_of_mem _ hj), hd⟩

/-- The root is not a node below itself. -/
theorem LinkedOnce.root_notMem (h : LinkedOnce child I (n + 1) p) (hi : i ∈ I) (hc : child p i = some q) :
    p ∉ nodes child I n q := by
  intro hp
  obtain ⟨π, hπ⟩ := mem_nodes.mp hp
  cases h _ _ p (hπ.cons hi hc) (.nil ..)

/-- The parts below two slots have no node in common. -/
theorem LinkedOnce.eq_of_mem {r x : α} (h : LinkedOnce child I (n + 1) p) (hi : i ∈ I) (hj : j ∈ I)
    (hci : child p i = some q) (hcj : child p j = some r) (hx : x ∈ nodes child I n q) (hy : x ∈ nodes child I n r) :
    i = j := by
  obtain ⟨π, hπ⟩ := mem_nodes.mp hx
  obtain ⟨σ, hσ⟩ := mem_nodes.mp hy
  exact (List.cons.inj (h _ _ x (hπ.cons hi hci) (hσ.cons hj hcj))).1

theorem nodup_nodes (hI : I.Nodup) : ∀ {n : ℕ} {p : α}, LinkedOnce child I n p → (nodes child I n p).Nodup
  | 0, p, _ => List.nodup_singleton p
  | n + 1, p, h => by
    rw [nodes, List.nodup_append]
    refine ⟨List.nodup_flatMap.mpr ⟨fun i hi => ?_, ?_⟩, List.nodup_singleton p, ?_⟩
    · rcases hc : child p i with _ | q
      · simp
      · exact nodup_nodes hI (h.sub hi hc)
    · refine hI.imp_of_mem fun {i j} hi hj hij x hx hy => hij ?_
      rcases hci : child p i with _ | q
      · simp [hci] at hx
      rcases hcj : child p j with _ | r
      · simp [hcj] at hy
      simp only [hci, Option.elim_some] at hx
      simp only [hcj, Option.elim_some] at hy
      exact h.eq_of_mem hi hj hci hcj hx hy
    · rintro x hx y hy rfl
      rw [List.mem_singleton] at hy
      obtain ⟨i, hi, hxi⟩ := List.mem_flatMap.mp hx
      rcases hc : child p i with _ | q
      · simp [hc] at hxi
      rw [hc, Option.elim_some] at hxi
      subst hy
      exact h.root_notMem hi hc hxi

/-- Tries that agree at the nodes above depth `n` have the same nodes. -/
theorem nodes_congr : ∀ {n : ℕ} {root : α},
    (∀ σ p i, Reach child I n root σ p → σ.length < n → i ∈ I → child' p i = child p i) →
    nodes child' I n root = nodes child I n root
  | 0, root, _ => rfl
  | n + 1, root, h => by
    rw [nodes, nodes]
    congr 1
    refine List.flatMap_congr fun i hi => ?_
    rw [h [] root i (.nil ..) (Nat.succ_pos _) hi]
    rcases hc : child root i with _ | q
    · rfl
    · exact nodes_congr fun σ p j hr hlt hj => h (i :: σ) p j (hr.cons hi hc) (Nat.succ_lt_succ hlt) hj

end Trie
