/-
# Page tables of processes

`proc_pagetable` and `proc_freepagetable` of `kernel/proc.c`. A process's page
table has its user pages, the page of its trapframe and, at the top, the
trampoline (`Image`). Making one takes pages from the free list, and freeing it
puts its frames and its page-table pages back: whatever happens on the way,
the pages of the pool are the same (`Kept`).

Key definitions: `Vm.procPagetable`, `Vm.procFreepagetable`, `Vm.Image`, `Vm.Kept`.
-/
import Xv6.VmFree

namespace Xv6
namespace Vm

/-- `proc_pagetable` of a process with its trapframe at `trapframe`. -/
def procPagetable (trampoline trapframe : ℕ) (s : Sys) : Except Stop (Option ℕ × Sys) :=
  match uvmcreate s with
  | (none, s) => .ok (none, s)
  | (some pt, s) => do
    let (r, s) ← mappages pt TRAMPOLINE PGSIZE trampoline (PTE_R ||| PTE_X) s
    if r = false then
      let s ← uvmfree pt 0 s
      .ok (none, s)
    else
      let (r, s) ← mappages pt TRAPFRAME PGSIZE trapframe (PTE_R ||| PTE_W) s
      if r = false then
        let s ← uvmunmap pt TRAMPOLINE 1 false s
        let s ← uvmfree pt 0 s
        .ok (none, s)
      else .ok (some pt, s)

def procFreepagetable (pt sz : ℕ) (s : Sys) : Except Stop Sys := do
  let s ← uvmunmap pt TRAMPOLINE 1 false s
  let s ← uvmunmap pt TRAPFRAME 1 false s
  uvmfree pt sz s

variable {s t u : Sys} {root p n m k tf tramp : ℕ}

/-- What is mapped from the trapframe on. -/
def topMap (tf tramp x : ℕ) : Option (ℕ × ℕ) :=
  if x < TRAMPOLINE then some (tf, PTE_R ||| PTE_W ||| PTE_V)
  else if x < MAXVA then some (tramp, PTE_R ||| PTE_X ||| PTE_V) else none

/-- The page table of a process with `n` user pages. -/
structure Image (s : Sys) (root n tf tramp : ℕ) : Prop extends Space s root n where
  top : ∀ x, TRAPFRAME ≤ x → x < 2 ^ 39 → trans s root x = topMap tf tramp x

/-- The free pages are distinct pages of memory. -/
structure Alloc (s : Sys) : Prop where
  nodup : s.free.Nodup
  pages : ∀ p ∈ s.free, Freeable s p
  kend : 0 < s.kend

/-- The pool has the same pages, and the memory outside it is unchanged. -/
structure Kept (root : ℕ) (s : Sys) (n : ℕ) (t : Sys) (m : ℕ) : Prop where
  perm : (pool t root m).Perm (pool s root n)
  mem : ∀ x, (∀ p ∈ pool s root n, ¬ InPage p x) → t.mem x = s.mem x
  kend : t.kend = s.kend

theorem Kept.trans {l : ℕ} (h : Kept root s n t m) (h' : Kept root t m u l) : Kept root s n u l :=
  ⟨h'.perm.trans h.perm, fun x hx => (h'.mem x fun p hp => hx p (h.perm.mem_iff.mp hp)).trans (h.mem x hx),
    h'.kend.trans h.kend⟩

theorem mem_pool_free (h : p ∈ s.free) : p ∈ pool s root n := List.mem_append_right _ (List.mem_append_right _ h)

theorem mem_pool_tables (h : p ∈ tables s root) : p ∈ pool s root n :=
  List.mem_append_right _ (List.mem_append_left _ h)

theorem mem_pool_frame (hk : k < n) : frame s root (k * PGSIZE) ∈ pool s root n :=
  List.mem_append_left _ (mem_frames_zero.mpr ⟨k, hk, rfl⟩)

theorem pool_zero (s : Sys) (root : ℕ) : pool s root 0 = tables s root ++ s.free := by
  rw [pool, frames, List.range_zero, List.map_nil, List.nil_append]

theorem Resize.kept (h : Resize root s n t m) : Kept root s n t m :=
  ⟨h.perm, fun x hx => h.mem x (fun p hp => hx p (mem_pool_free hp)) (fun p hp => hx p (mem_pool_tables hp))
    fun _ _ hk => hx _ (mem_pool_frame hk), h.kend⟩

/-- A change outside the page table, with other free pages. -/
theorem Space.with_pages (h : Space s root n) (hm : ∀ q ∈ tables s root, ∀ x, InPage q x → t.mem x = s.mem x)
    (hn : t.free.Nodup) (hok : ∀ p ∈ t.free, Freeable s p)
    (hd : ∀ p ∈ t.free, p ∉ frames s root 0 n ∧ p ∉ tables s root) (hk : t.kend = s.kend) :
    Space t root n ∧ pool t root n = frames s root 0 n ++ (tables s root ++ t.free) ∧
      ∀ x, trans t root x = trans s root x := by
  have htr : ∀ x, trans t root x = trans s root x := trans_congr hm
  have hpool : pool t root n = frames s root 0 n ++ (tables s root ++ t.free) := by
    rw [pool, tables_congr hm, frames_congr fun k _ => htr _]
  obtain ⟨hnf, hnr, hdf⟩ := List.nodup_append.mp h.nodup
  have hnodup : (pool t root n).Nodup := by
    rw [hpool]
    refine List.nodup_append.mpr ⟨hnf, List.nodup_append.mpr ⟨(List.nodup_append.mp hnr).1, hn, ?_⟩, ?_⟩
    · rintro q hq _ hq' rfl
      exact (hd q hq').2 hq
    · rintro q hq p hp rfl
      rcases List.mem_append.mp hp with hp | hp
      · exact hdf q hq q (List.mem_append_left _ hp) rfl
      · exact (hd q hp).1 hq
  refine ⟨⟨h.tree.congr hm, h.plain.congr hm, hnodup, fun p hp => ?_, fun k hk => ?_, fun x h1 h2 => ?_⟩, hpool, htr⟩
  · rw [Freeable, hk]
    rw [hpool] at hp
    rcases List.mem_append.mp hp with hp | hp
    · exact h.freeable p (List.mem_append_left _ hp)
    · rcases List.mem_append.mp hp with hp | hp
      · exact h.freeable p (mem_pool_tables hp)
      · exact hok p hp
  · rw [htr]
    exact h.leaf k hk
  · rw [htr]
    exact h.gap x h1 h2

/-- A change outside the page table, and pages `L` that were freed. -/
theorem Space.with_free {L : List ℕ} (h : Space s root n)
    (hm : ∀ q ∈ tables s root, ∀ x, InPage q x → t.mem x = s.mem x) (hfree : t.free = L ++ s.free)
    (hn : (L ++ pool s root n).Nodup) (hok : ∀ p ∈ L, Freeable s p) (hk : t.kend = s.kend) :
    Space t root n ∧ (pool t root n).Perm (L ++ pool s root n) ∧ ∀ x, trans t root x = trans s root x := by
  have hperm : (frames s root 0 n ++ (tables s root ++ t.free)).Perm (L ++ pool s root n) := by
    rw [pool, hfree]
    refine List.perm_iff_count.mpr fun q => ?_
    simp only [List.count_append]
    omega
  obtain ⟨-, hnr, hdf⟩ := List.nodup_append.mp (hperm.nodup_iff.mpr hn)
  obtain ⟨-, hnt, hdt⟩ := List.nodup_append.mp hnr
  have hpages : ∀ p ∈ t.free, Freeable s p := by
    intro p hp
    rw [hfree] at hp
    rcases List.mem_append.mp hp with hp | hp
    · exact hok p hp
    · exact h.table.pages p hp
  have hd : ∀ p ∈ t.free, p ∉ frames s root 0 n ∧ p ∉ tables s root := fun p hp =>
    ⟨fun hq => hdf p hq p (List.mem_append_right _ hp) rfl, fun hq => hdt p hq p hp rfl⟩
  obtain ⟨hspace, hpool, htr⟩ := h.with_pages hm hnt hpages hd hk
  refine ⟨hspace, ?_, htr⟩
  rw [hpool]
  exact hperm

/-! ### The top of the address space -/

/-- An operation on the top of the address space leaves the user pages alone. -/
theorem Space.of_high {new : List ℕ} (h : Space s root n) (htree : Tree t root) (hplain : Plain t root)
    (htab : (tables t root).Perm (new ++ tables s root)) (hfree : s.free = new ++ t.free)
    (htr : ∀ x < TRAPFRAME, trans t root x = trans s root x)
    (hmem : ∀ x, (∀ q ∈ tables t root, ¬ InPage q x) → t.mem x = s.mem x) (hk : t.kend = s.kend) :
    Space t root n ∧ Kept root s n t n := by
  have hpos : 0 < PGSIZE := by decide
  have hbelow := h.below
  have hlt : ∀ k < n, k * PGSIZE < TRAPFRAME := fun k hk =>
    lt_of_lt_of_le (Nat.mul_lt_mul_of_pos_right hk hpos) hbelow
  have hperm : (pool t root n).Perm (pool s root n) := by
    rw [pool, pool, hfree, frames_congr fun k hk => htr _ ?_]
    · refine List.perm_iff_count.mpr fun q => ?_
      simp only [List.count_append, htab.count_eq]
      omega
    · rw [Nat.zero_add]
      exact hlt k hk
  refine ⟨h.of_perm htree hplain hperm hk (fun k hk => ?_) (fun x h1 h2 => ?_), hperm, fun x hx => hmem x fun q hq => ?_, hk⟩
  · rw [htr _ (hlt k hk)]
    exact h.leaf k hk
  · rw [htr x h2]
    exact h.gap x h1 h2
  · exact hx q (hperm.mem_iff.mp (mem_pool_tables hq))

theorem Mapped.space {pa fl : ℕ} {va N : ℕ} {r : Bool} {new : List ℕ} (h : Space s root n)
    (hm : Mapped root s t va pa fl N k r new) (hva : TRAPFRAME ≤ va) : Space t root n ∧ Kept root s n t n := by
  refine h.of_high hm.grown.table.toTree (hm.grown.plain h.plain) (hm.grown.perm h.table) hm.grown.free (fun x hx => ?_)
    hm.grown.mem hm.grown.kend
  rw [hm.trans x (lt_of_TRAPFRAME hx), overlay, if_neg (by omega)]

theorem Unmapped.space {va N : ℕ} (h : Space s root n) (hu : Unmapped root s t va N false) (hva : TRAPFRAME ≤ va) :
    Space t root n ∧ Kept root s n t n := by
  have htab : (Vm.tables t root).Perm ([] ++ Vm.tables s root) := by rw [hu.tables, List.nil_append]
  have hfree : s.free = [] ++ t.free := by simp [hu.free]
  refine h.of_high hu.tree (hu.plain h.plain) htab hfree (fun x hx => ?_)
    (fun x hx => hu.mem x (by rwa [hu.tables] at hx) fun h => by cases h) hu.kend
  rw [hu.trans x (lt_of_TRAPFRAME hx), erase, if_neg (by omega)]

/-! ### proc_freepagetable -/

/-- The pages of the pool are all free. -/
structure Gone (root : ℕ) (s : Sys) (n : ℕ) (t : Sys) : Prop where
  free : t.free.Perm (pool s root n)
  mem : ∀ x, (∀ p ∈ pool s root n, ¬ InPage p x) → t.mem x = s.mem x
  kend : t.kend = s.kend

theorem Gone.of_kept (h : Kept root s n t m) (h' : Gone root t m u) : Gone root s n u :=
  ⟨h'.free.trans h.perm, fun x hx => (h'.mem x fun p hp => hx p (h.perm.mem_iff.mp hp)).trans (h.mem x hx),
    h'.kend.trans h.kend⟩

theorem uvmfree_eq (root sz : ℕ) (s : Sys) : uvmfree root sz s =
    (if 0 < sz then uvmunmap root 0 (PGROUNDUP sz / PGSIZE) true s else .ok s) >>= freewalk 3 root := by
  rw [uvmfree]
  split
  · rfl
  · rw [ok_bind]

/-- `uvmfree` of a space with nothing mapped at the top. -/
theorem uvmfree_spec {sz : ℕ} (h : Space s root (pages sz))
    (htop : ∀ x, TRAPFRAME ≤ x → x < 2 ^ 39 → trans s root x = none) :
    ∃ t, uvmfree root sz s = .ok t ∧ Gone root s (pages sz) t := by
  have hT : TRAPFRAME < 2 ^ 39 := by decide
  have hsz := h.size_lt
  -- first the user pages
  obtain ⟨t, he, hspace, hres⟩ : ∃ t, (if 0 < sz then uvmunmap root 0 (PGROUNDUP sz / PGSIZE) true s else .ok s) = .ok t ∧
      Space t root 0 ∧ Resize root s (pages sz) t 0 := by
    by_cases hpos : 0 < sz
    · rw [if_pos hpos, PGROUNDUP_eq (by omega), Nat.mul_div_cancel _ (by decide)]
      simpa using h.pop (Nat.zero_le _)
    · obtain rfl : sz = 0 := by omega
      rw [show pages 0 = 0 by decide] at h ⊢
      exact ⟨s, rfl, h, .refl ..⟩
  have hbare : ∀ x < 2 ^ 39, trans t root x = none := by
    intro x hx
    rcases Nat.lt_or_ge x TRAPFRAME with h1 | h1
    · exact hspace.gap x (by omega) h1
    · rw [hres.high x h1 hx, htop x h1 hx]
  obtain ⟨u, hu, hfreed⟩ := freewalk_spec hspace.tree hspace.plain hbare fun q hq => hspace.freeable q (mem_pool_tables hq)
  have hgone : Gone root t 0 u :=
    ⟨by rw [pool_zero]; exact hfreed.free, fun x hx => hfreed.mem x fun q hq => hx q (mem_pool_tables hq), hfreed.kend⟩
  refine ⟨u, ?_, .of_kept hres.kept hgone⟩
  rw [uvmfree_eq, he, ok_bind, hu]

/-- One page at the top is unmapped. -/
theorem Space.unmap_top {va : ℕ} (h : Space s root n) (hva : va % PGSIZE = 0) (hlo : TRAPFRAME ≤ va)
    (hhi : va + PGSIZE ≤ MAXVA) (hleaf : ∃ e, trans s root va = some e ∧ e.2 ≠ PTE_V) :
    ∃ t, uvmunmap root va 1 false s = .ok t ∧ Unmapped root s t va 1 false ∧ Space t root n ∧ Kept root s n t n := by
  have hr : ∀ k < 1, Removable s root (va + k * PGSIZE) false := by
    intro k hk
    obtain rfl : k = 0 := by omega
    rw [Nat.zero_mul, Nat.add_zero]
    exact ⟨hleaf, by simp, by simp⟩
  obtain ⟨t, he, hu⟩ := uvmunmap_spec h.tree hva (by omega) hr
  exact ⟨t, he, hu, hu.space h hlo⟩

theorem topMap_leaf {x : ℕ} (tf tramp : ℕ) (hx : x < MAXVA) : ∃ e, topMap tf tramp x = some e ∧ e.2 ≠ PTE_V := by
  unfold topMap
  split
  · exact ⟨_, rfl, show PTE_R ||| PTE_W ||| PTE_V ≠ PTE_V by decide⟩
  · exact ⟨_, rfl, show PTE_R ||| PTE_X ||| PTE_V ≠ PTE_V by decide⟩

/-- The trampoline and the trapframe are unmapped, then everything is freed. -/
theorem procFreepagetable_spec {sz : ℕ} (h : Image s root (pages sz) tf tramp) :
    ∃ t, procFreepagetable root sz s = .ok t ∧ Gone root s (pages sz) t := by
  have hTT : TRAMPOLINE = TRAPFRAME + PGSIZE := by decide
  have hM : MAXVA = TRAMPOLINE + PGSIZE := by decide
  have hM39 : MAXVA < 2 ^ 39 := by decide
  have hpos : 0 < PGSIZE := by decide
  obtain ⟨s₁, he₁, hu₁, hspace₁, hkept₁⟩ := h.toSpace.unmap_top (show TRAMPOLINE % PGSIZE = 0 by decide) (by omega)
    (by omega) (by rw [h.top _ (by omega) (by omega)]; exact topMap_leaf _ _ (by omega))
  have htop₁ : trans s₁ root TRAPFRAME = topMap tf tramp TRAPFRAME := by
    rw [hu₁.trans _ (by omega), erase, if_neg (by omega), h.top _ le_rfl (by omega)]
  obtain ⟨s₂, he₂, hu₂, hspace₂, hkept₂⟩ := hspace₁.unmap_top (show TRAPFRAME % PGSIZE = 0 by decide) le_rfl (by omega)
    (by rw [htop₁]; exact topMap_leaf _ _ (by omega))
  obtain ⟨t, he, hgone⟩ := uvmfree_spec hspace₂ fun x h1 h2 => by
    rw [hu₂.trans x h2, erase]
    split
    · rfl
    · rw [hu₁.trans x h2, erase]
      split
      · rfl
      · rw [h.top x h1 h2, topMap, if_neg (by omega), if_neg (by omega)]
  refine ⟨t, ?_, .of_kept (hkept₁.trans hkept₂) hgone⟩
  rw [procFreepagetable, he₁, ok_bind, he₂, ok_bind, he]

/-! ### proc_pagetable -/

/-- A page table without user pages was made from the free pages of `s`. -/
structure Drawn (s t : Sys) (root : ℕ) : Prop where
  perm : (pool t root 0).Perm s.free
  mem : ∀ x, (∀ p ∈ s.free, ¬ InPage p x) → t.mem x = s.mem x
  kend : t.kend = s.kend

theorem Drawn.kept (h : Drawn s t root) (h' : Kept root t 0 u 0) : Drawn s u root :=
  ⟨h'.perm.trans h.perm, fun x hx => (h'.mem x fun p hp => hx p (h.perm.mem_iff.mp hp)).trans (h.mem x hx),
    h'.kend.trans h.kend⟩

/-- `uvmcreate` makes a space without pages. -/
theorem Alloc.create {l : List ℕ} (h : Alloc s) (hf : s.free = root :: l) (ht : t = (grab s root l).fill root 0) :
    Space t root 0 ∧ (∀ x, trans t root x = none) ∧ Drawn s t root ∧
      t.calls + t.free.length = s.calls + s.free.length := by
  have hroot : root ∈ s.free := by simp [hf]
  have hok := h.pages root hroot
  have hfree : t.free = l := by rw [ht]; rfl
  have hcalls : t.calls = s.calls + 1 := by rw [ht]; rfl
  have hkend : t.kend = s.kend := by rw [ht]; rfl
  have hempty : ∀ j < 512, entry t root j = none := by
    intro j hj
    rw [ht, entry, ld_zero hj fun x hx => if_pos hx, decode_zero]
  have hmemt : ∀ q, q ∈ tables t root ↔ q = root := fun q => mem_tables_of_empty hempty
  have htree : Tree t root := .of_empty hok.1 hempty
  have hone : tables t root = [root] := by
    refine List.perm_singleton.mp ((List.perm_ext_iff_of_nodup htree.nodup_tables (List.nodup_singleton _)).mpr fun q => ?_)
    rw [hmemt, List.mem_singleton]
  have hpool : pool t root 0 = s.free := by rw [pool_zero, hone, hfree, hf, List.singleton_append]
  refine ⟨⟨htree, fun π q i e hr hlt hi he => ?_, hpool ▸ h.nodup, fun p hp => ?_, fun k hk => absurd hk (Nat.not_lt_zero k),
    fun x _ _ => trans_of_empty hempty x⟩, trans_of_empty hempty, ⟨.of_eq hpool, fun x hx => ?_, hkend⟩, ?_⟩
  · obtain ⟨-, rfl⟩ := reach_of_empty hempty hr
    rw [hempty i hi] at he
    cases he
  · rw [Freeable, hkend]
    exact h.pages p (hpool ▸ hp)
  · rw [ht, fill_mem 0 (hx root hroot), grab_mem l (hx root hroot)]
  · rw [hcalls, hfree, hf, List.length_cons]
    omega

/-- The two ends of `proc_pagetable`. -/
inductive Made (s : Sys) (tf tramp : ℕ) : Option ℕ → Sys → Prop
  | yes (root : ℕ) (t : Sys) (image : Image t root 0 tf tramp) (drawn : Drawn s t root)
      (paid : t.calls + t.free.length = s.calls + s.free.length) : Made s tf tramp (some root) t
  | no (t : Sys) (free : t.free.Perm s.free) (mem : ∀ x, (∀ p ∈ s.free, ¬ InPage p x) → t.mem x = s.mem x)
      (kend : t.kend = s.kend) : Made s tf tramp none t

/-- One page at the top is mapped. -/
theorem Space.map_top {va pa perm : ℕ} (h : Space s root n) (hva : va % PGSIZE = 0) (hlo : TRAPFRAME ≤ va)
    (hhi : va + PGSIZE ≤ MAXVA) (hpa : pa % PGSIZE = 0) (hlt : pa < 2 ^ 56) (hperm : perm < 1024)
    (hn : ∀ x, va ≤ x → x < va + PGSIZE → trans s root x = none) :
    ∃ r t k new, mappages root va PGSIZE pa perm s = .ok (r, t) ∧ (k = if r then 1 else 0) ∧
      Mapped root s t va pa (perm ||| PTE_V) 1 k r new ∧ Space t root n ∧ Kept root s n t n := by
  have h1 : (0 + 1) * PGSIZE = PGSIZE := by decide
  obtain ⟨r, t, k, new, he, hm⟩ := mappages_spec (n := 0) h.table hva hpa (by omega) hlt hperm (by rwa [h1])
  have hdone := hm.done
  refine ⟨r, t, k, new, h1 ▸ he, ?_, hm, hm.space h hlo⟩
  cases r
  · exact Nat.lt_one_iff.mp hdone
  · exact hdone

theorem Mapped.paid {va pa fl N : ℕ} {new : List ℕ} (h : Mapped root s t va pa fl N k true new) :
    t.calls + t.free.length = s.calls + s.free.length := by
  rw [h.calls, h.grown.free, List.length_append, if_pos rfl]
  omega

/-- `uvmfree(pagetable, 0)` when nothing is mapped at the top. -/
theorem Space.discard (tf tramp : ℕ) (h : Space t root 0) (hd : Drawn s t root)
    (htop : ∀ x, TRAPFRAME ≤ x → x < 2 ^ 39 → trans t root x = none) :
    ∃ u, uvmfree root 0 t = .ok u ∧ Made s tf tramp none u := by
  have h0 : Space t root (pages 0) := by rwa [show pages 0 = 0 by decide]
  obtain ⟨u, he, hgone⟩ := uvmfree_spec h0 htop
  rw [show pages 0 = 0 by decide] at hgone
  refine ⟨u, he, .no u (hgone.free.trans hd.perm) (fun x hx => ?_) (hgone.kend.trans hd.kend)⟩
  rw [hgone.mem x fun p hp => hx p (hd.perm.mem_iff.mp hp), hd.mem x hx]

theorem topMap_eq {x : ℕ} (tf tramp : ℕ) (hx : TRAPFRAME ≤ x) :
    (if x / PGSIZE = TRAPFRAME / PGSIZE then some (tf, PTE_R ||| PTE_W ||| PTE_V)
      else if x / PGSIZE = TRAMPOLINE / PGSIZE then some (tramp, PTE_R ||| PTE_X ||| PTE_V) else none) =
      topMap tf tramp x := by
  unfold topMap
  by_cases h1 : x < TRAMPOLINE
  · rw [if_pos h1, if_pos]
    unfold TRAPFRAME TRAMPOLINE MAXVA PGSIZE at *
    omega
  · rw [if_neg h1, if_neg]
    · refine if_congr ?_ rfl rfl
      unfold TRAPFRAME TRAMPOLINE MAXVA PGSIZE at *
      omega
    · unfold TRAPFRAME TRAMPOLINE MAXVA PGSIZE at *
      omega

/-- The trapframe is mapped below the trampoline, or everything is undone. -/
theorem map_trapframe (hspace : Space t root 0) (hd : Drawn s t root)
    (hpaid : t.calls + t.free.length = s.calls + s.free.length) (htf : tf % PGSIZE = 0) (htf' : tf < 2 ^ 56)
    (htop : ∀ x < 2 ^ 39, trans t root x = overlay (fun _ => none) TRAMPOLINE tramp (PTE_R ||| PTE_X ||| PTE_V) 1 x) :
    ∃ r u, (do
      let (r, s) ← mappages root TRAPFRAME PGSIZE tf (PTE_R ||| PTE_W) t
      if r = false then
        let s ← uvmunmap root TRAMPOLINE 1 false s
        let s ← uvmfree root 0 s
        .ok (none, s)
      else .ok (some root, s)) = .ok (r, u) ∧ Made s tf tramp r u := by
  have hTT : TRAMPOLINE = TRAPFRAME + PGSIZE := by decide
  have hM : MAXVA = TRAMPOLINE + PGSIZE := by decide
  have hM39 : MAXVA < 2 ^ 39 := by decide
  have hpos : 0 < PGSIZE := by decide
  obtain ⟨r, t', k, new, he, hk, hm, hspace', hkept⟩ := hspace.map_top (show TRAPFRAME % PGSIZE = 0 by decide)
    le_rfl (by omega) htf htf' (show PTE_R ||| PTE_W < 1024 by decide) fun x h1 h2 => by
      rw [htop x (by omega), overlay, if_neg (by omega)]
  simp only [he, ok_bind]
  cases r
  · obtain rfl : k = 0 := hk
    have htop' : ∀ x < 2 ^ 39, trans t' root x = trans t root x := fun x hx => by
      rw [hm.trans x hx, overlay_zero]
    have hleaf : ∃ e, trans t' root TRAMPOLINE = some e ∧ e.2 ≠ PTE_V := by
      rw [htop' _ (by omega), htop _ (by omega), overlay_one (by decide), if_pos rfl]
      exact ⟨_, rfl, show PTE_R ||| PTE_X ||| PTE_V ≠ PTE_V by decide⟩
    obtain ⟨t'', he', hu, hspace'', hkept'⟩ := hspace'.unmap_top (show TRAMPOLINE % PGSIZE = 0 by decide) (by omega)
      (by omega) hleaf
    obtain ⟨u, hfree, hmade⟩ := hspace''.discard tf tramp ((hd.kept hkept).kept hkept') fun x _ hx => by
      rw [hu.trans x hx, erase]
      split
      · rfl
      · rw [htop' x hx, htop x hx, overlay, if_neg (by omega)]
    refine ⟨none, u, ?_, hmade⟩
    simp only [if_true, he', hfree, ok_bind]
  · obtain rfl : k = 1 := hk
    refine ⟨some root, t', by simp only [Bool.true_eq_false, if_false], .yes root t' ⟨hspace', fun x h1 h2 => ?_⟩
      (hd.kept hkept) (hm.paid.trans hpaid)⟩
    rw [hm.trans x h2, overlay_one (by decide), htop x h2, overlay_one (by decide)]
    exact topMap_eq tf tramp h1

/-- `proc_pagetable` makes the page table of a process without memory, or gives back every page it
took. -/
theorem procPagetable_spec (h : Alloc s) (htf : tf % PGSIZE = 0) (htf' : tf < 2 ^ 56) (htr : tramp % PGSIZE = 0)
    (htr' : tramp < 2 ^ 56) : ∃ r t, procPagetable tramp tf s = .ok (r, t) ∧ Made s tf tramp r t := by
  have hTT : TRAMPOLINE = TRAPFRAME + PGSIZE := by decide
  have hM : MAXVA = TRAMPOLINE + PGSIZE := by decide
  unfold procPagetable uvmcreate
  rcases kalloc_cases s with ⟨root, l, hf, hk⟩ | hk
  · simp only [hk]
    obtain ⟨hspace, hnone, hd, hpaid⟩ := h.create hf rfl
    obtain ⟨r, t, k, new, he, hkr, hm, hspace', hkept⟩ := hspace.map_top (show TRAMPOLINE % PGSIZE = 0 by decide)
      (by omega) (by omega) htr htr' (show PTE_R ||| PTE_X < 1024 by decide) fun x _ _ => hnone x
    simp only [he, ok_bind]
    cases r
    · obtain rfl : k = 0 := hkr
      obtain ⟨u, hu, hmade⟩ := hspace'.discard tf tramp (hd.kept hkept) fun x _ hx => by
        rw [hm.trans x hx, overlay_zero, hnone]
      refine ⟨none, u, ?_, hmade⟩
      simp only [if_true, hu, ok_bind]
    · obtain rfl : k = 1 := hkr
      simp only [Bool.true_eq_false, if_false]
      refine map_trapframe hspace' (hd.kept hkept) (hm.paid.trans hpaid) htf htf' fun x hx => ?_
      rw [hm.trans x hx]
      unfold overlay
      rw [hnone]
  · simp only [hk]
    exact ⟨none, _, rfl, .no _ (.refl _) (fun _ _ => rfl) rfl⟩

end Vm
end Xv6
