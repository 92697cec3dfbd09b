/-
# sbrk

`growproc` of `kernel/proc.c`, which changes the size of a process. The new size
is computed in `uint64`. A size that would be negative is a large number there,
so that `uvmdealloc` does nothing, and `growproc` reports success: the call is
exact iff the new size is not negative (`growproc_exact_iff`).

Key definitions: `Vm.Proc`, `Vm.growproc`, `Vm.Sbrk`.
-/
import Xv6.VmSpace

namespace Xv6
namespace Vm

/-- What `growproc` uses of a process. -/
structure Proc where
  pagetable : ℕ
  sz : ℕ
deriving DecidableEq

/-- Whether it returns 0, and the process after it. -/
def growproc (n : ℤ) (p : Proc) (s : Sys) : Except Stop (Bool × Proc × Sys) :=
  let newsz := ((p.sz + n) % 2 ^ 64).toNat
  if 0 < n then do
    let (sz, s) ← uvmalloc p.pagetable p.sz newsz PTE_W s
    if sz = 0 then .ok (false, p, s) else .ok (true, { p with sz := sz }, s)
  else if n < 0 then do
    let (sz, s) ← uvmdealloc p.pagetable p.sz newsz s
    .ok (true, { p with sz := sz }, s)
  else .ok (true, p, s)

/-- The process has its new size, its pages are mapped and no others, those that stay are
unchanged, and new ones are zero. -/
structure Grew (n : ℤ) (p : Proc) (s : Sys) (p' : Proc) (s' : Sys) : Prop where
  pagetable : p'.pagetable = p.pagetable
  sz : (p'.sz : ℤ) = p.sz + n
  mapped : ∀ x < TRAPFRAME, (trans s' p.pagetable x).isSome = true ↔ x < pages p'.sz * PGSIZE
  same : ∀ x, x < pages p.sz * PGSIZE → x < pages p'.sz * PGSIZE →
    trans s' p.pagetable x = trans s p.pagetable x ∧ s'.mem (phys s' p.pagetable x) = s.mem (phys s p.pagetable x)
  zero : ∀ x, pages p.sz * PGSIZE ≤ x → x < pages p'.sz * PGSIZE → s'.mem (phys s' p.pagetable x) = 0

/-- What a call of `growproc` should do: change the size by `n`, or fail and change nothing. -/
def Sbrk (n : ℤ) (p : Proc) (s : Sys) (r : Bool) (p' : Proc) (s' : Sys) : Prop :=
  if r then Grew n p s p' s' else p' = p ∧ ∀ x < MAXVA, trans s' p.pagetable x = trans s p.pagetable x

variable {s t : Sys} {root n m x : ℕ}

theorem Space.isSome_trans (h : Space s root n) (hx : x < n * PGSIZE) : (trans s root x).isSome = true := by
  have hk : x / PGSIZE < n := Nat.div_lt_of_lt_mul (Nat.mul_comm n _ ▸ hx)
  obtain ⟨e, he, -⟩ := h.leaf _ hk
  have hp : x / PGSIZE = x / PGSIZE * PGSIZE / PGSIZE := (Nat.mul_div_cancel _ (by decide)).symm
  rw [trans_page hp, he]
  rfl

theorem Space.mapped_iff (h : Space s root n) (hx : x < TRAPFRAME) :
    (trans s root x).isSome = true ↔ x < n * PGSIZE := by
  refine ⟨fun hs => ?_, h.isSome_trans⟩
  by_contra hge
  rw [h.gap x (by omega) hx] at hs
  cases hs

theorem Resize.same (hr : Resize root s n t m) (h : Space s root n) (h1 : x < n * PGSIZE) (h2 : x < m * PGSIZE) :
    Vm.trans t root x = Vm.trans s root x ∧ t.mem (phys t root x) = s.mem (phys s root x) := by
  have htr := hr.user x h1 h2
  have hphys : phys t root x = phys s root x := by rw [phys, phys, frame, frame, htr]
  have hk : ∀ {n}, x < n * PGSIZE → x / PGSIZE < n := fun h => Nat.div_lt_of_lt_mul (Nat.mul_comm _ PGSIZE ▸ h)
  rw [hphys]
  exact ⟨htr, hr.bytes h (hk h1) (hk h2) (inPage_phys s root x)⟩

/-- A space that has its old size again has its old map. -/
theorem Resize.trans_eq (hr : Resize root s n t n) (h : Space s root n) (h' : Space t root n) (hx : x < 2 ^ 39) :
    Vm.trans t root x = Vm.trans s root x := by
  rcases Nat.lt_or_ge x (n * PGSIZE) with h1 | h1
  · exact hr.user x h1 h1
  · rcases Nat.lt_or_ge x TRAPFRAME with h2 | h2
    · rw [h.gap x h1 h2, h'.gap x h1 h2]
    · exact hr.high x h2 hx

theorem grew_of_resize (fl : ℕ) {z : ℤ} {p : Proc} {new : ℕ} (h : Space s p.pagetable (pages p.sz))
    (h' : Space t p.pagetable (pages new)) (hr : Resize p.pagetable s (pages p.sz) t (pages new))
    (hnew : (new : ℤ) = p.sz + z) (hz : Zeroed t p.pagetable (pages p.sz) (pages new) fl) :
    Grew z p s { p with sz := new } t := by
  refine ⟨rfl, hnew, fun x hx => h'.mapped_iff hx, fun x h1 h2 => hr.same h h1 h2, fun x h1 h2 => ?_⟩
  have hk : x / PGSIZE < pages new := Nat.div_lt_of_lt_mul (Nat.mul_comm _ PGSIZE ▸ h2)
  have hk' : pages p.sz ≤ x / PGSIZE := (Nat.le_div_iff_mul_le (by decide)).mpr h1
  obtain ⟨q, hq, hzero⟩ := hz _ hk' hk
  have hin := inPage_phys t p.pagetable x
  rw [frame_eq hq] at hin
  exact hzero _ hin

/-- **`growproc` is exact iff the new size is not negative.** -/
theorem growproc_exact_iff (n : ℤ) (hlo : -2 ^ 31 ≤ n) (hhi : n < 2 ^ 31) (p : Proc) (s : Sys)
    (h : Space s p.pagetable (pages p.sz)) :
    ∃ r p' s', growproc n p s = .ok (r, p', s') ∧ (Sbrk n p s r p' s' ↔ 0 ≤ p.sz + n) := by
  have hsz := h.size_lt
  have hT : TRAPFRAME < 2 ^ 39 := by decide
  unfold growproc
  rcases lt_trichotomy n 0 with hn | rfl | hn
  · rw [if_neg (by omega), if_pos hn]
    by_cases hneg : 0 ≤ p.sz + n
    · -- the size shrinks
      obtain ⟨new, hnew⟩ : ∃ new : ℕ, (new : ℤ) = p.sz + n := ⟨(p.sz + n).toNat, Int.toNat_of_nonneg hneg⟩
      have hmod : ((p.sz + n) % 2 ^ 64).toNat = new := by omega
      obtain ⟨t, he, h', hr⟩ := uvmdealloc_spec h (show new ≤ p.sz by omega)
      have hpages : pages new ≤ pages p.sz := pages_le_iff.mpr (le_trans (by omega) (pages_le_iff.mp le_rfl))
      refine ⟨true, { p with sz := new }, t, ?_, iff_of_true ?_ hneg⟩
      · simp only [hmod, he, ok_bind]
      · exact grew_of_resize PTE_V h h' hr hnew fun k h1 h2 => absurd h1 (by omega)
    · -- the size wraps, and nothing happens
      have hmod : p.sz ≤ ((p.sz + n) % 2 ^ 64).toNat := by omega
      refine ⟨true, p, s, ?_, iff_of_false (fun hg => ?_) hneg⟩
      · simp only [uvmdealloc, if_pos hmod, ok_bind]
      · have := (show Grew n p s p s from hg).sz
        omega
  · rw [if_neg (by decide), if_neg (by decide)]
    refine ⟨true, p, s, rfl, iff_of_true ?_ (by omega)⟩
    exact grew_of_resize PTE_V h h (.refl ..) (by omega) fun k h1 h2 => absurd h1 (by omega)
  · rw [if_pos hn]
    obtain ⟨new, hnew⟩ : ∃ new : ℕ, (new : ℤ) = p.sz + n := ⟨(p.sz + n).toNat, Int.toNat_of_nonneg (by omega)⟩
    have hmod : ((p.sz + n) % 2 ^ 64).toNat = new := by omega
    obtain ⟨r, t, he, hend⟩ := uvmalloc_spec h (show PTE_W < 1024 by decide) (show p.sz ≤ new by omega)
    simp only [hmod, he, ok_bind]
    cases hend with
    | yes _ h' hr hz =>
      refine ⟨true, { p with sz := new }, t, by rw [if_neg (by omega)], iff_of_true ?_ (by omega)⟩
      exact grew_of_resize _ h h' hr hnew hz
    | no _ h' hr =>
      refine ⟨false, p, t, by rw [if_pos rfl], iff_of_true ?_ (by omega)⟩
      have hM : MAXVA < 2 ^ 39 := by decide
      exact ⟨rfl, fun x hx => hr.trans_eq h h' (by omega)⟩

/-- An empty process. -/
theorem blank_space : Space blank KERNBASE 0 where
  tree := blank_table.toTree
  plain π p i e hr hlt hi he := by
    obtain ⟨-, rfl⟩ := reach_of_empty blank_empty hr
    rw [blank_empty i hi] at he
    cases he
  nodup := by
    refine List.nodup_append.mpr ⟨.nil, List.nodup_append.mpr ⟨blank_table.nodup_tables, blank_table.nodup, ?_⟩, ?_⟩
    · rintro q hq _ hq' rfl
      exact blank_table.fresh q hq' hq
    · intro q hq
      cases hq
  freeable p hp := by
    rcases List.mem_append.mp hp with hp | hp
    · cases hp
    · rcases List.mem_append.mp hp with hp | hp
      · rw [(mem_tables_of_empty blank_empty).mp hp]
        unfold Freeable
        decide
      · exact blank_table.pages p hp
  leaf k hk := absurd hk (Nat.not_lt_zero k)
  gap x _ _ := trans_of_empty blank_empty x

theorem growproc_exact_blank : ∃ r p' s', growproc 1 ⟨KERNBASE, 0⟩ blank = .ok (r, p', s') ∧
    (Sbrk 1 ⟨KERNBASE, 0⟩ blank r p' s' ↔ 0 ≤ ((0 : ℕ) : ℤ) + 1) :=
  growproc_exact_iff 1 (by decide) (by decide) ⟨KERNBASE, 0⟩ blank blank_space

/-- A process without memory gives up a byte: `growproc` reports success. -/
theorem growproc_negative : Space blank KERNBASE (pages 0) ∧
    growproc (-1) ⟨KERNBASE, 0⟩ blank = .ok (true, ⟨KERNBASE, 0⟩, blank) ∧
    ¬ Sbrk (-1) ⟨KERNBASE, 0⟩ blank true ⟨KERNBASE, 0⟩ blank := by
  refine ⟨blank_space, rfl, fun hg => ?_⟩
  have := (show Grew (-1) ⟨KERNBASE, 0⟩ blank ⟨KERNBASE, 0⟩ blank from hg).sz
  omega

end Vm
end Xv6
