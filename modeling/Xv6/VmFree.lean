/-
# Freeing a page table

`freewalk` frees the pages of a page table that maps nothing, each after the
pages below it (`freewalk_spec`). By induction over the levels: freeing the part
below one slot leaves the parts below the other slots as they are, because every
page is linked once.

Key definitions: `Vm.Sub`, `Vm.Freed`.
-/
import Xv6.VmSpace

namespace Xv6
namespace Vm

open Trie

variable {s t : Sys} {root p q n i : ℕ} {L N : List ℕ}

/-- What the loop of `freewalk` does with slot `i`. -/
def freeSlot (fuel p : ℕ) (s : Sys) (i : ℕ) : Except Stop Sys :=
  let pte := s.ld (p + 8 * i)
  if has pte PTE_V ∧ has pte (PTE_R ||| PTE_W ||| PTE_X) = false then do
    let s ← freewalk fuel (PTE2PA pte) s
    .ok (s.st (p + 8 * i) 0)
  else if has pte PTE_V then .error (.panic "freewalk: leaf")
  else .ok s

theorem freewalk_succ (fuel p : ℕ) (s : Sys) :
    freewalk (fuel + 1) p s = (List.range 512).foldlM (freeSlot fuel p) s >>= kfree p := rfl

/-- A part of a page table with `n` levels below its top, that maps nothing. -/
structure Sub (s : Sys) (n p : ℕ) : Prop where
  aligned : p % PGSIZE = 0
  once : LinkedOnce (child s) idx n p
  plain : ∀ π q i e, Reach (child s) idx n p π q → π.length < n → i < 512 → entry s q i = some e → e.2 = PTE_V
  bare : ∀ π q i, Reach (child s) idx n p π q → π.length = n → i < 512 → entry s q i = none
  freeable : ∀ q ∈ nodes (child s) idx n p, Freeable s q

/-- The pages `N` were freed; nothing else changed. -/
structure Freed (s t : Sys) (N : List ℕ) : Prop where
  free : t.free.Perm (N ++ s.free)
  mem : ∀ x, (∀ q ∈ N, ¬ InPage q x) → t.mem x = s.mem x
  kend : t.kend = s.kend

theorem nodes_same (h : ∀ q ∈ nodes (child s) idx n p, ∀ x, InPage q x → t.mem x = s.mem x) :
    nodes (child t) idx n p = nodes (child s) idx n p :=
  nodes_congr fun σ q _ hr _ hi => child_congr (mem_idx.mp hi) (h q (mem_nodes.mpr ⟨σ, hr⟩))

theorem Sub.congr (h : Sub s n p) (hm : ∀ q ∈ nodes (child s) idx n p, ∀ x, InPage q x → t.mem x = s.mem x)
    (hk : t.kend = s.kend) : Sub t n p := by
  have hmem : ∀ {σ q}, Reach (child s) idx n p σ q → ∀ x, InPage q x → t.mem x = s.mem x := fun hr =>
    hm _ (mem_nodes.mpr ⟨_, hr⟩)
  have hreach : ∀ {σ q}, Reach (child t) idx n p σ q → Reach (child s) idx n p σ q := fun hr =>
    (reach_congr fun _ _ hq => hmem hq).mp hr
  refine ⟨h.aligned, fun σ τ q hσ hτ => h.once σ τ q (hreach hσ) (hreach hτ), fun σ q i e hr hlt hi he => ?_,
    fun σ q i hr hlen hi => ?_, fun q hq => ?_⟩
  · rw [entry_congr hi (hmem (hreach hr))] at he
    exact h.plain σ q i e (hreach hr) hlt hi he
  · rw [entry_congr hi (hmem (hreach hr))]
    exact h.bare σ q i (hreach hr) hlen hi
  · rw [Freeable, hk]
    exact h.freeable q (nodes_same hm ▸ hq)

theorem mem_nodes_of_child (hi : i ∈ idx) (hc : child s p i = some q) {r : ℕ} (hr : r ∈ nodes (child s) idx n q) :
    r ∈ nodes (child s) idx (n + 1) p := by
  obtain ⟨π, hπ⟩ := mem_nodes.mp hr
  exact mem_nodes.mpr ⟨i :: π, hπ.cons hi hc⟩

/-- The part below a slot. -/
theorem Sub.child (h : Sub s (n + 1) p) (hi : i < 512) (hc : child s p i = some q) : Sub s n q := by
  have hidx := mem_idx.mpr hi
  refine ⟨child_aligned hc, h.once.sub hidx hc, fun π r j e hr hlt => ?_, fun π r j hr hlen => ?_, fun r hr => ?_⟩
  · exact h.plain (i :: π) r j e (hr.cons hidx hc) (Nat.succ_lt_succ hlt)
  · exact h.bare (i :: π) r j (hr.cons hidx hc) (congrArg (· + 1) hlen)
  · exact h.freeable r (mem_nodes_of_child hidx hc hr)

/-- The pages below the slots `L`. -/
def below (s : Sys) (n p : ℕ) (L : List ℕ) : List ℕ := L.flatMap fun i => (child s p i).elim [] (nodes (child s) idx n)

theorem mem_below : q ∈ below s n p L ↔ ∃ i ∈ L, ∃ r, child s p i = some r ∧ q ∈ nodes (child s) idx n r := by
  rw [below, List.mem_flatMap]
  refine exists_congr fun i => and_congr_right fun _ => ?_
  rcases hc : child s p i with _ | r
  · simp
  · simp

/-- The loop over the slots that are left, when `s` agrees with `s₀` there. -/
theorem freeSlots_spec {s₀ : Sys} (h : Sub s₀ (n + 1) p)
    (ih : ∀ q s, Sub s n q → ∃ t, freewalk (n + 1) q s = .ok t ∧ Freed s t (nodes (child s) idx n q)) :
    ∀ (L : List ℕ) (s : Sys), L.Nodup → (∀ i ∈ L, i < 512) → (∀ i ∈ L, s.ld (p + 8 * i) = s₀.ld (p + 8 * i)) →
      (∀ q ∈ below s₀ n p L, ∀ x, InPage q x → s.mem x = s₀.mem x) → s.kend = s₀.kend →
      ∃ t, L.foldlM (freeSlot (n + 1) p) s = .ok t ∧ t.free.Perm (below s₀ n p L ++ s.free) ∧
        (∀ x, ¬ InPage p x → (∀ q ∈ below s₀ n p L, ¬ InPage q x) → t.mem x = s.mem x) ∧ t.kend = s.kend := by
  intro L
  induction L with
  | nil => exact fun s _ _ _ _ _ => ⟨s, rfl, .refl _, fun _ _ _ => rfl, rfl⟩
  | cons i L ihL =>
    intro s hn hi hld hmem hk
    have hi0 : i < 512 := hi i (List.mem_cons_self ..)
    have hni : i ∉ L := (List.nodup_cons.mp hn).1
    have hslot := hld i (List.mem_cons_self ..)
    have hcons : below s₀ n p (i :: L) = (child s₀ p i).elim [] (nodes (child s₀) idx n) ++ below s₀ n p L :=
      List.flatMap_cons
    rw [List.foldlM_cons]
    rcases hc : child s₀ p i with _ | q
    · -- an empty slot
      have hv := child_eq_none.mp hc
      have hstep : freeSlot (n + 1) p s i = .ok s := by
        rw [freeSlot, hslot]
        simp [hv]
      rw [hstep, ok_bind, hcons, hc]
      rw [hcons, hc] at hmem
      exact ihL s hn.of_cons (fun j hj => hi j (List.mem_cons_of_mem _ hj))
        (fun j hj => hld j (List.mem_cons_of_mem _ hj)) hmem hk
    · -- the pages below the slot are freed, and the slot is cleared
      obtain ⟨hv, hq⟩ := child_eq_some.mp hc
      have hidx := mem_idx.mpr hi0
      have hflags : has (s₀.ld (p + 8 * i)) (PTE_R ||| PTE_W ||| PTE_X) = false := by
        have he : entry s₀ p i = some (PTE2PA (s₀.ld (p + 8 * i)), PTE_FLAGS (s₀.ld (p + 8 * i))) :=
          decode_eq_some.mpr ⟨hv, rfl⟩
        have hfl := h.plain [] p i _ (.nil ..) (Nat.succ_pos _) hi0 he
        rw [← has_flags _ (by decide), show PTE_FLAGS (s₀.ld (p + 8 * i)) = PTE_V from hfl]
        decide
      rw [hcons, hc, Option.elim_some] at hmem ⊢
      have hsub := h.child hi0 hc
      have hsame : ∀ r ∈ nodes (child s₀) idx n q, ∀ x, InPage r x → s.mem x = s₀.mem x := fun r hr =>
        hmem r (List.mem_append_left _ hr)
      obtain ⟨t, he, hfreed⟩ := ih q s (hsub.congr hsame hk)
      rw [nodes_same hsame] at hfreed
      have hstep : freeSlot (n + 1) p s i = .ok (t.st (p + 8 * i) 0) := by
        rw [freeSlot, hslot]
        simp only [hv, hflags, and_self, if_true, ← hq, he, ok_bind]
      have hpage : ∀ r ∈ nodes (child s₀) idx n q, ∀ x, InPage p x → ¬ InPage r x := by
        intro r hr x hpx hrx
        obtain ⟨σ, hσ⟩ := mem_nodes.mp hr
        have hra : r % PGSIZE = 0 := (h.freeable r (mem_nodes_of_child hidx hc hr)).1
        exact h.once.root_notMem hidx hc (InPage.unique h.aligned hra hpx hrx ▸ hr)
      have hld' : ∀ j ∈ L, (t.st (p + 8 * i) 0).ld (p + 8 * j) = s₀.ld (p + 8 * j) := by
        intro j hj
        have hj512 := hi j (List.mem_cons_of_mem _ hj)
        have hne : ¬ (p = p ∧ j = i) := fun e => hni (e.2 ▸ hj)
        rw [ld_st _ h.aligned h.aligned hj512 hi0, if_neg hne,
          ld_congr hj512 fun x hx => hfreed.mem x fun r hr => hpage r hr x hx, hld j (List.mem_cons_of_mem _ hj)]
      have hmem' : ∀ r ∈ below s₀ n p L, ∀ x, InPage r x → (t.st (p + 8 * i) 0).mem x = s₀.mem x := by
        intro r hr x hx
        obtain ⟨j, hj, q', hc', hr'⟩ := mem_below.mp hr
        have hjidx := mem_idx.mpr (hi j (List.mem_cons_of_mem _ hj))
        have hra : r % PGSIZE = 0 := (h.freeable r (mem_nodes_of_child hjidx hc' hr')).1
        have hxp : ¬ InPage p x := fun hpx =>
          h.once.root_notMem hjidx hc' (InPage.unique h.aligned hra hpx hx ▸ hr')
        rw [st_mem hi0 hxp, hfreed.mem x fun r' hr'' hx' => ?_, hmem r (List.mem_append_right _ hr) x hx]
        have hra' : r' % PGSIZE = 0 := (h.freeable r' (mem_nodes_of_child hidx hc hr'')).1
        obtain rfl := InPage.unique hra hra' hx hx'
        exact hni (h.once.eq_of_mem hidx hjidx hc hc' hr'' hr' ▸ hj)
      obtain ⟨u, hu, hperm, hmemu, hku⟩ := ihL (t.st (p + 8 * i) 0) hn.of_cons
        (fun j hj => hi j (List.mem_cons_of_mem _ hj)) hld' hmem' (hfreed.kend.trans hk)
      rw [hstep, ok_bind]
      refine ⟨u, hu, ?_, fun x h1 h2 => ?_, hku.trans hfreed.kend⟩
      · refine hperm.trans ((List.Perm.append_left _ hfreed.free).trans ?_)
        rw [← List.append_assoc]
        exact List.Perm.append_right _ List.perm_append_comm
      · rw [hmemu x h1 fun r hr => h2 r (List.mem_append_right _ hr), st_mem hi0 h1,
          hfreed.mem x fun r hr => h2 r (List.mem_append_left _ hr)]

/-- The slots of the last level are empty. -/
theorem freeSlots_bare (h : ∀ i < 512, entry s p i = none) (fuel : ℕ) :
    ∀ L : List ℕ, (∀ i ∈ L, i < 512) → L.foldlM (freeSlot fuel p) s = .ok s := by
  intro L
  induction L with
  | nil => exact fun _ => rfl
  | cons i L ih =>
    intro hi
    have hv := decode_eq_none.mp (h i (hi i (List.mem_cons_self ..)))
    have hstep : freeSlot fuel p s i = .ok s := by
      rw [freeSlot]
      simp [hv]
    rw [List.foldlM_cons, hstep, ok_bind]
    exact ih fun j hj => hi j (List.mem_cons_of_mem _ hj)

/-- **`freewalk` frees the pages of a page table that maps nothing.** -/
theorem freewalk_sub (n : ℕ) : ∀ p s, Sub s n p →
    ∃ t, freewalk (n + 1) p s = .ok t ∧ Freed s t (nodes (child s) idx n p) := by
  induction n with
  | zero =>
    intro p s h
    have hp : p ∈ nodes (child s) idx 0 p := List.mem_singleton.mpr rfl
    have hbare : ∀ i < 512, entry s p i = none := fun i hi => h.bare [] p i (.nil ..) rfl hi
    refine ⟨freed s p, ?_, .refl _, fun x hx => freed_mem (hx p hp), rfl⟩
    rw [freewalk_succ, freeSlots_bare hbare 0 _ fun i hi => List.mem_range.mp hi, ok_bind,
      kfree_of_freeable (h.freeable p hp)]
  | succ n ih =>
    intro p s h
    have hp : p ∈ nodes (child s) idx (n + 1) p := mem_nodes.mpr ⟨[], .nil ..⟩
    obtain ⟨t, he, hperm, hmem, hk⟩ := freeSlots_spec h ih idx s List.nodup_range (fun i hi => mem_idx.mp hi)
      (fun _ _ => rfl) (fun _ _ _ _ => rfl) rfl
    have hok : Freeable t p := by
      rw [Freeable, hk]
      exact h.freeable p hp
    refine ⟨freed t p, ?_, ?_, fun x hx => ?_, hk⟩
    · rw [freewalk_succ, ← idx, he, ok_bind, kfree_of_freeable hok]
    · rw [nodes, freed, List.append_assoc]
      refine (List.Perm.cons p hperm).trans ?_
      exact List.perm_middle.symm
    · have hx' : ∀ q ∈ below s n p idx, ¬ InPage q x := fun q hq => hx q (List.mem_append_left _ hq)
      exact (freed_mem (hx p hp)).trans (hmem x (hx p hp) hx')

/-- The address with given indices. -/
theorem exists_va {i j k : ℕ} (hi : i < 512) (hj : j < 512) (hk : k < 512) :
    ∃ x < 2 ^ 39, PX 2 x = i ∧ PX 1 x = j ∧ PX 0 x = k := by
  refine ⟨(i * 512 + j) * 2097152 + k * 4096, by omega, ?_, ?_, ?_⟩
  all_goals
    rw [PX_eq]
    omega

theorem freewalk_spec (h : Tree s root) (hp : Plain s root) (hb : ∀ x < 2 ^ 39, trans s root x = none)
    (hf : ∀ q ∈ tables s root, Freeable s q) : ∃ t, freewalk 3 root s = .ok t ∧ Freed s t (tables s root) := by
  refine freewalk_sub 2 root s ⟨h.aligned, h.once, hp, fun π q k hr hlen hk => ?_, hf⟩
  -- an entry of the last level is the translation of some address
  obtain ⟨i, j, rfl⟩ : ∃ i j, π = [i, j] := List.length_eq_two.mp hlen
  have hi := mem_idx.mp (hr.idx i (by simp))
  have hj := mem_idx.mp (hr.idx j (by simp))
  obtain ⟨x, hx, h2, h1, h0⟩ := exists_va hi hj hk
  have := hb x hx
  rwa [trans_eq, h2, h1, h0, hr.eq, Option.bind_some] at this

end Vm
end Xv6
