/-
# User address spaces

A process's page table with `n` user pages (`Space`): pages 0 to `n - 1` are
mapped to frames of their own, nothing else is mapped below the trapframe. The
frames, the page-table pages and the free pages together are distinct pages
(`pool`). Growing and shrinking the space permutes that list (`Resize`): no page
is lost and none is used twice, and the pages that stay keep their bytes.

Key definitions: `Vm.pages`, `Vm.pool`, `Vm.Space`, `Vm.Resize`.
-/
import Mathlib.Data.List.Perm.Subperm
import Xv6.VmMap
import Xv6.VmCopy

namespace Xv6
namespace Vm

variable {s t u : Sys} {root p n m l k : ℕ}

/-- The number of pages of a process of `sz` bytes. -/
def pages (sz : ℕ) : ℕ := (sz + PGSIZE - 1) / PGSIZE

theorem pages_le_iff {sz m : ℕ} : pages sz ≤ m ↔ sz ≤ m * PGSIZE := by
  unfold pages PGSIZE
  omega

theorem pages_mul (m : ℕ) : pages (m * PGSIZE) = m := by
  unfold pages PGSIZE
  omega

theorem PGROUNDUP_eq {sz : ℕ} (h : sz < 2 ^ 63) : PGROUNDUP sz = pages sz * PGSIZE := by
  unfold PGROUNDUP pages PGSIZE
  rw [Nat.mod_eq_of_lt (by omega)]

/-- The pages a space has to do with: its frames, its page-table pages, and the free ones. -/
def pool (s : Sys) (root n : ℕ) : List ℕ := frames s root 0 n ++ (tables s root ++ s.free)

/-- A page table with `n` user pages. -/
structure Space (s : Sys) (root n : ℕ) : Prop where
  tree : Tree s root
  plain : Plain s root
  nodup : (pool s root n).Nodup
  freeable : ∀ p ∈ pool s root n, Freeable s p
  leaf : ∀ k < n, ∃ e, trans s root (k * PGSIZE) = some e ∧ e.2 ≠ PTE_V
  gap : ∀ x, n * PGSIZE ≤ x → x < TRAPFRAME → trans s root x = none

/-! ### Pages -/

theorem frames_add (s : Sys) (root va m n : ℕ) :
    frames s root va (m + n) = frames s root va m ++ frames s root (va + m * PGSIZE) n := by
  rw [frames, frames, frames, List.range_add, List.map_append, List.map_map]
  refine congrArg _ (List.map_congr_left fun k _ => ?_)
  rw [Function.comp_apply, Nat.add_mul, Nat.add_assoc]

theorem mem_frames {va : ℕ} : p ∈ frames s root va n ↔ ∃ k < n, p = frame s root (va + k * PGSIZE) := by
  rw [frames, List.mem_map]
  constructor
  · rintro ⟨k, hk, rfl⟩
    exact ⟨k, List.mem_range.mp hk, rfl⟩
  · rintro ⟨k, hk, rfl⟩
    exact ⟨k, List.mem_range.mpr hk, rfl⟩

theorem mem_frames_zero : p ∈ frames s root 0 n ↔ ∃ k < n, p = frame s root (k * PGSIZE) := by
  simp only [mem_frames, Nat.zero_add]

theorem length_frames (s : Sys) (root va n : ℕ) : (frames s root va n).length = n := by
  rw [frames, List.length_map, List.length_range]

/-- There are only so many pages of memory. -/
theorem length_le_of_freeable {L : List ℕ} (hn : L.Nodup) (hf : ∀ p ∈ L, Freeable s p) :
    L.length ≤ PHYSTOP / PGSIZE := by
  have hinj : (L.map (· / PGSIZE)).Nodup := by
    refine hn.map_on fun p hp q hq e => ?_
    have h1 := (hf p hp).1
    have h2 := (hf q hq).1
    unfold PGSIZE at *
    omega
  have hsub : L.map (· / PGSIZE) ⊆ List.range (PHYSTOP / PGSIZE) := by
    intro y hy
    obtain ⟨p, hp, rfl⟩ := List.mem_map.mp hy
    obtain ⟨h1, -, h2⟩ := hf p hp
    rw [List.mem_range]
    unfold PHYSTOP KERNBASE PGSIZE at *
    omega
  have hlen := (List.subperm_of_subset hinj hsub).length_le
  rwa [List.length_map, List.length_range] at hlen

namespace Space

variable (h : Space s root n)

include h

theorem pool_le : n + s.free.length ≤ PHYSTOP / PGSIZE := by
  have hl := length_le_of_freeable h.nodup h.freeable
  rw [pool, List.length_append, List.length_append, length_frames] at hl
  omega

theorem frame_free (hk : k < n) : frame s root (k * PGSIZE) ∉ s.free := by
  intro hf
  have hd := (List.nodup_append.mp h.nodup).2.2
  exact hd _ (mem_frames_zero.mpr ⟨k, hk, rfl⟩) _ (List.mem_append_right _ hf) rfl

theorem frame_tables (hk : k < n) : frame s root (k * PGSIZE) ∉ tables s root := by
  intro hf
  have hd := (List.nodup_append.mp h.nodup).2.2
  exact hd _ (mem_frames_zero.mpr ⟨k, hk, rfl⟩) _ (List.mem_append_left _ hf) rfl

theorem frame_inj {j : ℕ} (hj : j < n) (hk : k < n) (e : frame s root (j * PGSIZE) = frame s root (k * PGSIZE)) :
    j = k := by
  have hn := (List.nodup_append.mp h.nodup).1
  rw [frames] at hn
  refine List.inj_on_of_nodup_map hn (List.mem_range.mpr hj) (List.mem_range.mpr hk) ?_
  simpa using e

theorem table : Table s root := by
  have hr := (List.nodup_append.mp h.nodup).2.1
  refine ⟨h.tree, (List.nodup_append.mp hr).2.1, fun p hp => h.freeable p ?_, fun p hp hq => ?_⟩
  · exact List.mem_append_right _ (List.mem_append_right _ hp)
  · exact (List.nodup_append.mp hr).2.2 p hq p hp rfl

end Space

/-! ### Growing and shrinking -/

/-- A space of `n` pages became one of `m` pages. -/
structure Resize (root : ℕ) (s : Sys) (n : ℕ) (t : Sys) (m : ℕ) : Prop where
  perm : (pool t root m).Perm (pool s root n)
  tables : ∀ q ∈ tables s root, q ∈ tables t root
  user : ∀ x, x < n * PGSIZE → x < m * PGSIZE → trans t root x = trans s root x
  high : ∀ x, TRAPFRAME ≤ x → x < 2 ^ 39 → trans t root x = trans s root x
  mem : ∀ x, (∀ p ∈ s.free, ¬ InPage p x) → (∀ q ∈ Vm.tables s root, ¬ InPage q x) →
    (∀ k, m ≤ k → k < n → ¬ InPage (frame s root (k * PGSIZE)) x) → t.mem x = s.mem x
  kend : t.kend = s.kend

namespace Resize

theorem refl (root : ℕ) (s : Sys) (n : ℕ) : Resize root s n s n :=
  ⟨.refl _, fun _ h => h, fun _ _ _ => rfl, fun _ _ _ => rfl, fun _ _ _ _ => rfl, rfl⟩

theorem frame_eq (h : Resize root s n t m) (hn : k < n) (hm : k < m) :
    frame t root (k * PGSIZE) = frame s root (k * PGSIZE) := by
  have hpos : 0 < PGSIZE := by decide
  rw [frame, frame, h.user _ (Nat.mul_lt_mul_of_pos_right hn hpos) (Nat.mul_lt_mul_of_pos_right hm hpos)]

/-- A page that changes hands was free or a page-table page before, or a frame beyond what stays. -/
theorem origin (h : Resize root s n t m) (hp : p ∈ pool t root m)
    (hnot : ∀ k < n, k < m → p ≠ frame t root (k * PGSIZE)) :
    p ∈ s.free ∨ p ∈ Vm.tables s root ∨ ∃ k, m ≤ k ∧ k < n ∧ p = frame s root (k * PGSIZE) := by
  have hps := h.perm.mem_iff.mp hp
  rcases List.mem_append.mp hps with hf | hf
  · obtain ⟨k, hk, rfl⟩ := mem_frames_zero.mp hf
    refine .inr (.inr ⟨k, ?_, hk, rfl⟩)
    by_contra hlt
    exact hnot k hk (by omega) (h.frame_eq hk (by omega)).symm
  · rcases List.mem_append.mp hf with hf | hf
    · exact .inr (.inl hf)
    · exact .inl hf

theorem trans (h : Resize root s n t m) (h' : Resize root t m u l) (ht : Space t root m) (hm : n ≤ m ∨ l ≤ m) :
    Resize root s n u l := by
  have hpos : 0 < PGSIZE := by decide
  refine ⟨h'.perm.trans h.perm, fun q hq => h'.tables q (h.tables q hq), fun x h1 h2 => ?_, fun x h1 h2 => ?_,
    fun x h1 h2 h3 => ?_, h'.kend.trans h.kend⟩
  · have hx : x < m * PGSIZE := by
      rcases hm with hm | hm
      · exact lt_of_lt_of_le h1 (Nat.mul_le_mul_right _ hm)
      · exact lt_of_lt_of_le h2 (Nat.mul_le_mul_right _ hm)
    rw [h'.user x hx h2, h.user x h1 hx]
  · rw [h'.high x h1 h2, h.high x h1 h2]
  · -- a page of the middle state comes from one that may change
    have hout : ∀ p ∈ pool t root m, (∀ k < n, k < m → k < l → p ≠ frame t root (k * PGSIZE)) → ¬ InPage p x := by
      intro p hp hnot
      by_cases hstay : ∃ k, k < n ∧ k < m ∧ p = frame t root (k * PGSIZE)
      · obtain ⟨k, hkn, hkm, rfl⟩ := hstay
        have hkl : l ≤ k := by
          by_contra hlt
          exact hnot k hkn hkm (by omega) rfl
        rw [h.frame_eq hkn hkm]
        exact h3 k hkl hkn
      · rcases h.origin hp fun k h1 h2 e => hstay ⟨k, h1, h2, e⟩ with hf | hf | ⟨k, hkm, hkn, rfl⟩
        · exact h1 p hf
        · exact h2 p hf
        · exact h3 k (by omega) hkn
    refine (h'.mem x (fun p hp => ?_) (fun p hp => ?_) fun k hlk hkm => ?_).trans
      (h.mem x h1 h2 fun k hmk hkn => h3 k (by omega) hkn)
    · refine hout p (List.mem_append_right _ (List.mem_append_right _ hp)) fun k _ hkm _ e => ?_
      exact ht.frame_free hkm (e ▸ hp)
    · refine hout p (List.mem_append_right _ (List.mem_append_left _ hp)) fun k _ hkm _ e => ?_
      exact ht.frame_tables hkm (e ▸ hp)
    · refine hout _ (List.mem_append_left _ (mem_frames_zero.mpr ⟨k, hkm, rfl⟩)) fun j _ hjm hjl e => ?_
      have := ht.frame_inj hkm hjm e
      omega

/-- The pages that stay keep their bytes. -/
theorem bytes (h : Resize root s n t m) (hs : Space s root n) (hn : k < n) (hm : k < m) {x : ℕ}
    (hx : InPage (frame s root (k * PGSIZE)) x) : t.mem x = s.mem x := by
  have hal := frame_aligned s root (k * PGSIZE)
  refine h.mem x (fun p hp hin => ?_) (fun p hp hin => ?_) fun j hmj hjn hin => ?_
  · have hpa := (hs.table.pages p hp).1
    exact hs.frame_free hn (InPage.unique hal hpa hx hin ▸ hp)
  · obtain ⟨σ, hσ⟩ := mem_tables.mp hp
    exact hs.frame_tables hn (InPage.unique hal (hs.tree.reach_aligned hσ) hx hin ▸ hp)
  · have := hs.frame_inj hn hjn (InPage.unique hal (frame_aligned ..) hx hin)
    omega

end Resize

/-- A space with the same pages. -/
theorem Space.of_perm (h : Space s root n) (tree : Tree t root) (plain : Plain t root)
    (perm : (pool t root m).Perm (pool s root n)) (kend : t.kend = s.kend)
    (leaf : ∀ k < m, ∃ e, trans t root (k * PGSIZE) = some e ∧ e.2 ≠ PTE_V)
    (gap : ∀ x, m * PGSIZE ≤ x → x < TRAPFRAME → trans t root x = none) : Space t root m := by
  refine ⟨tree, plain, perm.nodup_iff.mpr h.nodup, fun p hp => ?_, leaf, gap⟩
  rw [Freeable, kend]
  exact h.freeable p (perm.mem_iff.mp hp)

theorem frames_congr {va : ℕ} (h : ∀ k < n, trans t root (va + k * PGSIZE) = trans s root (va + k * PGSIZE)) :
    frames t root va n = frames s root va n :=
  List.map_congr_left fun k hk => by rw [frame, frame, h k (List.mem_range.mp hk)]

theorem Tree.nodup_tables (h : Tree s root) : (tables s root).Nodup := Trie.nodup_nodes List.nodup_range h.once

/-- The pages of a page table that grew. -/
theorem Grown.perm {new : List ℕ} (h : Grown root s t new) (hs : Table s root) :
    (Vm.tables t root).Perm (new ++ Vm.tables s root) := by
  have hfree := hs.nodup
  rw [h.free] at hfree
  refine (List.perm_ext_iff_of_nodup h.table.nodup_tables ?_).mpr fun q => ?_
  · refine List.nodup_append.mpr ⟨(List.nodup_append.mp hfree).1, hs.nodup_tables, ?_⟩
    rintro q hq _ hq' rfl
    exact hs.fresh q (by rw [h.free]; exact List.mem_append_left _ hq) hq'
  · rw [h.tables q, List.mem_append]

/-- The state after `kalloc` took the page `p`, which was then filled in some way. -/
structure Taken (s t : Sys) (p : ℕ) : Prop where
  free : s.free = p :: t.free
  mem : ∀ x, ¬ InPage p x → t.mem x = s.mem x
  kend : t.kend = s.kend
  calls : t.calls = s.calls + 1

namespace Taken

variable (ht : Taken s t p)

include ht

theorem same (h : Table s root) : ∀ q ∈ tables s root, ∀ x, InPage q x → t.mem x = s.mem x := by
  intro q hq x hx
  have hp : p ∈ s.free := by simp [ht.free]
  refine ht.mem x fun hpx => h.fresh p hp ?_
  obtain ⟨σ, hσ⟩ := mem_tables.mp hq
  rwa [InPage.unique (h.pages p hp).1 (h.reach_aligned hσ) hpx hx]

theorem table (h : Table s root) : Table t root := by
  have hn := h.nodup
  rw [ht.free] at hn
  have hsub : ∀ q ∈ t.free, q ∈ s.free := fun q hq => by
    rw [ht.free]
    exact List.mem_cons_of_mem _ hq
  refine ⟨h.toTree.congr (ht.same h), hn.of_cons, fun q hq => ?_, fun q hq => ?_⟩
  · rw [Freeable, ht.kend]
    exact h.pages q (hsub q hq)
  · rw [tables_congr (ht.same h)]
    exact h.fresh q (hsub q hq)

end Taken

/-- The two ends of mapping one more page. -/
inductive Pushed (root : ℕ) (s : Sys) (n : ℕ) (t₀ : Sys) (p fl : ℕ) : Bool → Sys → Prop
  | yes (t : Sys) (space : Space t root (n + 1)) (resize : Resize root s n t (n + 1))
      (trans : trans t root (n * PGSIZE) = some (p, fl)) (bytes : ∀ x, InPage p x → t.mem x = t₀.mem x)
      (paid : t.calls + t.free.length = s.calls + s.free.length) :
      Pushed root s n t₀ p fl true t
  | no (t u : Sys) (kfree : kfree p t = .ok u) (space : Space u root n) (resize : Resize root s n u n) :
      Pushed root s n t₀ p fl false t

/-- `mappages` of the page `p` at the end of a space, where `k` is 1 if the page was mapped and 0
if not. -/
structure Mid (root : ℕ) (s : Sys) (n : ℕ) (u : Sys) (p fl k : ℕ) (new : List ℕ) : Prop where
  table : Table u root
  plain : Plain u root
  perm : (tables u root).Perm (new ++ tables s root)
  free : s.free = p :: (new ++ u.free)
  trans : ∀ x < 2 ^ 39, trans u root x = overlay (trans s root) (n * PGSIZE) p fl k x
  mem : ∀ x, (∀ p ∈ s.free, ¬ InPage p x) → (∀ q ∈ tables s root, ¬ InPage q x) → u.mem x = s.mem x
  kend : u.kend = s.kend
  paid : k = 1 → u.calls + u.free.length = s.calls + s.free.length

/-- There is room for one more page below the trapframe. -/
theorem Space.room (h : Space s root n) (hf : s.free ≠ []) : (n + 1) * PGSIZE ≤ TRAPFRAME := by
  have hpool := h.pool_le
  have hpos := List.length_pos_iff.mpr hf
  unfold TRAPFRAME TRAMPOLINE MAXVA PHYSTOP KERNBASE PGSIZE at *
  omega

theorem Space.mid {fl : ℕ} (h : Space s root n) (ht : Taken s t p) (hfl : fl < 1024) :
    ∃ r u k new, mappages root (n * PGSIZE) PGSIZE p fl t = .ok (r, u) ∧ (if r then k = 1 else k = 0) ∧
      Mid root s n u p (fl ||| PTE_V) k new ∧ ∀ x, InPage p x → u.mem x = t.mem x := by
  have hp : p ∈ s.free := by simp [ht.free]
  have hpok := h.table.pages p hp
  have hsame := ht.same h.table
  have htab : Vm.tables t root = Vm.tables s root := tables_congr hsame
  have htr : ∀ x, Vm.trans t root x = Vm.trans s root x := trans_congr hsame
  have hle := h.room (by simp [ht.free])
  have hTM : TRAPFRAME < MAXVA := by decide
  have hP : (n + 1) * PGSIZE = n * PGSIZE + PGSIZE := Nat.succ_mul ..
  have hmul : n * PGSIZE % PGSIZE = 0 := Nat.mul_mod_left ..
  obtain ⟨r, u, k, new, he, hm⟩ := mappages_spec (n := 0) (ht.table h.table) hmul hpok.1 (by omega)
    (lt_trans hpok.2.2 (by decide)) hfl fun x h1 h2 => by
      rw [htr]
      exact h.gap x h1 (by omega)
  rw [show (0 + 1) * PGSIZE = PGSIZE by rfl] at he
  have hfree : s.free = p :: (new ++ u.free) := by rw [ht.free, hm.grown.free]
  have hdone := hm.done
  refine ⟨r, u, k, new, he, ?_, ⟨hm.grown.table, hm.grown.plain (h.plain.congr hsame), ?_, hfree, fun x hx => ?_,
    fun x h1 h2 => ?_, hm.grown.kend.trans ht.kend, fun hk => ?_⟩, fun x hx => hm.grown.mem x fun q hq hqx => ?_⟩
  · cases r
    · exact Nat.lt_one_iff.mp hdone
    · exact hdone
  · rw [← htab]
    exact hm.grown.perm (ht.table h.table)
  · rw [hm.trans x hx]
    unfold overlay
    rw [htr]
  · refine (hm.grown.mem x fun q hq => ?_).trans (ht.mem x (h1 p hp))
    rcases (hm.grown.tables q).mp hq with hq | hq
    · refine h1 q ?_
      rw [hfree]
      exact List.mem_cons_of_mem _ (List.mem_append_left _ hq)
    · exact h2 q (htab ▸ hq)
  · cases r
    · exact absurd (Nat.lt_one_iff.mp hdone) (by omega)
    · rw [hm.calls, ht.calls, hfree, List.length_cons, List.length_append, if_pos rfl]
      omega
  · -- `p` is no page of the table: it was the first free page
    have hqa : q % PGSIZE = 0 := by
      obtain ⟨σ, hσ⟩ := mem_tables.mp hq
      exact hm.grown.table.reach_aligned hσ
    obtain rfl := InPage.unique hpok.1 hqa hx hqx
    rcases (hm.grown.tables p).mp hq with hq | hq
    · have hn := h.table.nodup
      rw [hfree] at hn
      exact (List.nodup_cons.mp hn).1 (List.mem_append_left _ hq)
    · exact h.table.fresh p hp (htab ▸ hq)

theorem lt_of_TRAPFRAME {x : ℕ} (h : x < TRAPFRAME) : x < 2 ^ 39 := lt_trans h (by decide)

/-- Below the page a mapping changes nothing, nor above it. -/
theorem Mid.trans_of_ne {fl : ℕ} {new : List ℕ} (hm : Mid root s n u p fl k new) {x : ℕ} (hx : x < 2 ^ 39)
    (hout : x < n * PGSIZE ∨ (n + k) * PGSIZE ≤ x) : Vm.trans u root x = Vm.trans s root x := by
  have hP : (n + k) * PGSIZE = n * PGSIZE + k * PGSIZE := Nat.add_mul ..
  rw [hm.trans x hx, overlay, if_neg (by omega)]

theorem Mid.yes {fl : ℕ} {new : List ℕ} (h : Space s root n) (hm : Mid root s n u p fl 1 new) (hleaf : fl ≠ PTE_V) :
    Space u root (n + 1) ∧ Resize root s n u (n + 1) ∧ Vm.trans u root (n * PGSIZE) = some (p, fl) := by
  have hpos : 0 < PGSIZE := by decide
  have hle := h.room (by simp [hm.free])
  have hP : (n + 1) * PGSIZE = n * PGSIZE + PGSIZE := Nat.succ_mul ..
  have hlast : Vm.trans u root (n * PGSIZE) = some (p, fl) := by
    rw [hm.trans _ (lt_of_TRAPFRAME (by omega)), overlay_one (Nat.mul_mod_left ..), if_pos rfl]
  have huser : ∀ x < n * PGSIZE, Vm.trans u root x = Vm.trans s root x := fun x hx =>
    hm.trans_of_ne (lt_of_TRAPFRAME (by omega)) (.inl hx)
  have hframes : frames u root 0 (n + 1) = frames s root 0 n ++ [p] := by
    rw [frames_add, frames_one, Nat.zero_add, frame_eq hlast, frames_congr fun k hk => huser _ ?_]
    rw [Nat.zero_add]
    exact Nat.mul_lt_mul_of_pos_right hk hpos
  have hperm : (pool u root (n + 1)).Perm (pool s root n) := by
    rw [pool, pool, hframes, hm.free]
    refine List.perm_iff_count.mpr fun q => ?_
    simp only [List.count_append, List.count_cons, List.count_nil, hm.perm.count_eq]
    omega
  have hgap : ∀ x, (n + 1) * PGSIZE ≤ x → x < 2 ^ 39 → Vm.trans u root x = Vm.trans s root x := fun x h1 h2 =>
    hm.trans_of_ne h2 (.inr h1)
  refine ⟨h.of_perm hm.table.toTree hm.plain hperm hm.kend (fun k hk => ?_) fun x h1 h2 => ?_,
    ⟨hperm, fun q hq => hm.perm.mem_iff.mpr (List.mem_append_right _ hq), fun x h1 _ => huser x h1,
      fun x h1 h2 => hgap x (by omega) h2, fun x h1 h2 _ => hm.mem x h1 h2, hm.kend⟩, hlast⟩
  · rcases Nat.lt_or_ge k n with hkn | hkn
    · rw [huser _ (Nat.mul_lt_mul_of_pos_right hkn hpos)]
      exact h.leaf k hkn
    · obtain rfl : k = n := by omega
      exact ⟨_, hlast, hleaf⟩
  · rw [hgap x h1 (lt_of_TRAPFRAME h2)]
    exact h.gap x (by omega) h2

/-- The page is given back when it could not be mapped. -/
theorem Mid.no {fl : ℕ} {new : List ℕ} (h : Space s root n) (hm : Mid root s n u p fl 0 new) :
    ∃ v, kfree p u = .ok v ∧ Space v root n ∧ Resize root s n v n := by
  have hp : p ∈ s.free := by simp [hm.free]
  have hok : Freeable u p := by
    rw [Freeable, hm.kend]
    exact h.table.pages p hp
  have hnot : p ∉ Vm.tables u root := by
    rw [hm.perm.mem_iff, List.mem_append]
    rintro (hq | hq)
    · have hn := h.table.nodup
      rw [hm.free] at hn
      exact (List.nodup_cons.mp hn).1 (List.mem_append_left _ hq)
    · exact h.table.fresh p hp hq
  have hsame := hm.table.toTree.freed_mem hok.1 hnot
  have htr : ∀ x < 2 ^ 39, Vm.trans (freed u p) root x = Vm.trans s root x := fun x hx => by
    rw [trans_congr hsame, hm.trans x hx, overlay_zero]
  have hpos : 0 < PGSIZE := by decide
  have hle := h.room (by simp [hm.free])
  have hP : (n + 1) * PGSIZE = n * PGSIZE + PGSIZE := Nat.succ_mul ..
  have hlt : ∀ k < n, k * PGSIZE < TRAPFRAME := fun k hk => by
    have := Nat.mul_lt_mul_of_pos_right hk hpos
    omega
  have hperm : (pool (freed u p) root n).Perm (pool s root n) := by
    rw [pool, pool, tables_congr hsame, frames_congr fun k hk => htr _ (lt_of_TRAPFRAME ?_), hm.free]
    · refine List.perm_iff_count.mpr fun q => ?_
      rw [freed]
      simp only [List.count_append, List.count_cons, hm.perm.count_eq]
      omega
    · rw [Nat.zero_add]
      exact hlt k hk
  refine ⟨freed u p, kfree_of_freeable hok, h.of_perm (hm.table.toTree.congr hsame) (hm.plain.congr hsame) hperm hm.kend
    (fun k hk => ?_) (fun x h1 h2 => ?_), hperm, fun q hq => ?_, fun x h1 _ => ?_, fun x _ h2 => htr x h2,
    fun x h1 h2 _ => ?_, hm.kend⟩
  · rw [htr _ (lt_of_TRAPFRAME (hlt k hk))]
    exact h.leaf k hk
  · rw [htr x (lt_of_TRAPFRAME h2)]
    exact h.gap x h1 h2
  · rw [tables_congr hsame, hm.perm.mem_iff]
    exact List.mem_append_right _ hq
  · exact htr x (lt_of_TRAPFRAME (by omega))
  · exact (freed_mem (h1 p hp)).trans (hm.mem x h1 h2)

/-- One more page at the end of a space, or a page given back. -/
theorem Space.push {fl : ℕ} (h : Space s root n) (ht : Taken s t p) (hfl : fl < 1024) (hleaf : fl ||| PTE_V ≠ PTE_V) :
    ∃ r u, mappages root (n * PGSIZE) PGSIZE p fl t = .ok (r, u) ∧ Pushed root s n t p (fl ||| PTE_V) r u := by
  obtain ⟨r, u, k, new, he, hk, hm, hmem⟩ := h.mid ht hfl
  refine ⟨r, u, he, ?_⟩
  cases r
  · obtain rfl : k = 0 := hk
    obtain ⟨v, h1, h2, h3⟩ := hm.no h
    exact .no u v h1 h2 h3
  · obtain rfl : k = 1 := hk
    obtain ⟨h1, h2, h3⟩ := hm.yes h hleaf
    exact .yes u h1 h2 h3 hmem (hm.paid rfl)

theorem Space.below (h : Space s root n) : n * PGSIZE ≤ TRAPFRAME := by
  have hpool := h.pool_le
  unfold TRAPFRAME TRAMPOLINE MAXVA PHYSTOP KERNBASE PGSIZE at *
  omega

theorem Space.removable (h : Space s root n) (m : ℕ) (hk : m + k < n) :
    Removable s root (m * PGSIZE + k * PGSIZE) true := by
  rw [← Nat.add_mul]
  refine ⟨h.leaf _ hk, fun _ => h.freeable _ ?_, fun _ => h.frame_tables hk⟩
  exact List.mem_append_left _ (mem_frames_zero.mpr ⟨_, hk, rfl⟩)

/-- The last pages of a space are removed and freed. -/
theorem Space.pop (h : Space s root n) (hm : m ≤ n) :
    ∃ t, uvmunmap root (m * PGSIZE) (n - m) true s = .ok t ∧ Space t root m ∧ Resize root s n t m := by
  have hpos : 0 < PGSIZE := by decide
  have hle := h.below
  have hTM : TRAPFRAME < MAXVA := by decide
  have hsum : m * PGSIZE + (n - m) * PGSIZE = n * PGSIZE := by rw [← Nat.add_mul, Nat.add_sub_cancel' hm]
  have hmax : m * PGSIZE + (n - m) * PGSIZE ≤ MAXVA := by omega
  obtain ⟨t, he, hu⟩ := uvmunmap_spec h.tree (Nat.mul_mod_left ..) hmax fun k hk => h.removable m (by omega)
  have htr : ∀ x < 2 ^ 39, x < m * PGSIZE ∨ n * PGSIZE ≤ x → Vm.trans t root x = Vm.trans s root x := by
    intro x hx hout
    rw [hu.trans x hx, erase, if_neg (by omega)]
  have huser : ∀ x < m * PGSIZE, Vm.trans t root x = Vm.trans s root x := fun x hx =>
    htr x (lt_of_TRAPFRAME (by omega)) (.inl hx)
  have hperm : (pool t root m).Perm (pool s root n) := by
    have hsplit := frames_add s root 0 m (n - m)
    rw [Nat.add_sub_cancel' hm, Nat.zero_add] at hsplit
    rw [pool, pool, hu.tables, hu.free, hsplit, frames_congr fun k hk => huser _ ?_]
    · refine List.perm_iff_count.mpr fun q => ?_
      simp only [if_true, List.count_append, List.count_reverse]
      omega
    · rw [Nat.zero_add]
      exact Nat.mul_lt_mul_of_pos_right hk hpos
  refine ⟨t, he, h.of_perm hu.tree (hu.plain h.plain) hperm hu.kend (fun k hk => ?_) (fun x h1 h2 => ?_), hperm,
    fun q hq => by rwa [hu.tables], fun x _ h2 => huser x h2, fun x h1 h2 => htr x h2 (.inr (by omega)),
    fun x h1 h2 h3 => hu.mem x h2 fun _ p hp => ?_, hu.kend⟩
  · rw [huser _ (Nat.mul_lt_mul_of_pos_right hk hpos)]
    exact h.leaf k (by omega)
  · rw [hu.trans x (lt_of_TRAPFRAME h2), erase]
    split
    · rfl
    · exact h.gap x (by omega) h2
  · obtain ⟨k, hk, rfl⟩ := mem_frames.mp hp
    rw [← Nat.add_mul]
    exact h3 _ (by omega) (by omega)

/-! ### uvmdealloc and uvmalloc -/

theorem Space.size_lt {sz : ℕ} (h : Space s root (pages sz)) : sz ≤ TRAPFRAME := by
  have hle := h.below
  exact le_trans (pages_le_iff.mp le_rfl) hle

theorem uvmdealloc_spec {old new : ℕ} (h : Space s root (pages old)) (hle : new ≤ old) :
    ∃ t, uvmdealloc root old new s = .ok (new, t) ∧ Space t root (pages new) ∧
      Resize root s (pages old) t (pages new) := by
  have hT : TRAPFRAME < 2 ^ 39 := by decide
  have hsz := h.size_lt
  have hbelow := h.below
  have hpos : 0 < PGSIZE := by decide
  unfold uvmdealloc
  by_cases heq : old ≤ new
  · obtain rfl : old = new := by omega
    exact ⟨s, by rw [if_pos heq], h, .refl ..⟩
  rw [if_neg heq, PGROUNDUP_eq (by omega), PGROUNDUP_eq (by omega)]
  have hpages : pages new ≤ pages old := pages_le_iff.mpr (le_trans hle (pages_le_iff.mp le_rfl))
  by_cases hlt : pages new < pages old
  · rw [if_pos (Nat.mul_lt_mul_of_pos_right hlt hpos), ← Nat.sub_mul, Nat.mul_div_cancel _ hpos]
    have hn : (cInt ((pages old - pages new : ℕ) : ℤ) % 2 ^ 64).toNat = pages old - pages new := by
      have : pages old < 2 ^ 27 := by
        unfold TRAPFRAME TRAMPOLINE MAXVA PGSIZE at *
        omega
      rw [cInt_natCast (by omega)]
      omega
    obtain ⟨t, he, hspace, hres⟩ := h.pop hpages
    refine ⟨t, ?_, hspace, hres⟩
    simp only [hn, he, ok_bind]
  · have heq : pages old = pages new := by omega
    rw [if_neg (by rw [heq]; exact Nat.lt_irrefl _)]
    rw [heq] at h ⊢
    exact ⟨s, rfl, h, .refl ..⟩

/-- A failed call of `kalloc` changes no space. -/
theorem Space.refuse (h : Space s root n) : Space (refuse s) root n ∧ Resize root s n (refuse s) n := by
  have hsame : ∀ q ∈ tables s root, ∀ x, InPage q x → (Vm.refuse s).mem x = s.mem x := fun _ _ _ _ => rfl
  have htr : ∀ x, trans (Vm.refuse s) root x = trans s root x := trans_congr hsame
  have hperm : (pool (Vm.refuse s) root n).Perm (pool s root n) := by
    rw [pool, pool, tables_congr hsame, frames_congr fun k _ => htr _]
    rfl
  refine ⟨h.of_perm (h.tree.congr hsame) (h.plain.congr hsame) hperm rfl (fun k hk => ?_) (fun x h1 h2 => ?_), hperm,
    fun q hq => ?_, fun x _ _ => htr x, fun x _ _ => htr x, fun _ _ _ _ => rfl, rfl⟩
  · rw [htr]
    exact h.leaf k hk
  · rw [htr]
    exact h.gap x h1 h2
  · rwa [tables_congr hsame]

theorem taken_grab {l : List ℕ} (h : s.free = p :: l) (m : ℕ → UInt8) (hm : ∀ x, ¬ InPage p x → m x = s.mem x) :
    Taken s { grab s p l with mem := m } p := ⟨h, hm, rfl, rfl⟩

/-- The pages from `n` to `m` are mapped with the flags `fl`, and zero. -/
def Zeroed (t : Sys) (root n m fl : ℕ) : Prop :=
  ∀ k, n ≤ k → k < m → ∃ p, trans t root (k * PGSIZE) = some (p, fl) ∧ ∀ x, InPage p x → t.mem x = 0

/-- The flags of a page that `uvmalloc` maps. -/
def userFlags (xperm : ℕ) : ℕ := PTE_R ||| PTE_U ||| xperm ||| PTE_V

/-- The two ends of `uvmalloc`. -/
inductive Alloced (root : ℕ) (s : Sys) (n newsz xperm : ℕ) : ℕ → Sys → Prop
  | yes (t : Sys) (space : Space t root (pages newsz)) (resize : Resize root s n t (pages newsz))
      (zero : Zeroed t root n (pages newsz) (userFlags xperm)) : Alloced root s n newsz xperm newsz t
  | no (t : Sys) (space : Space t root n) (resize : Resize root s n t n) : Alloced root s n newsz xperm 0 t

theorem userFlags_lt {xperm : ℕ} (h : xperm < 1024) : PTE_R ||| PTE_U ||| xperm < 1024 :=
  Nat.or_lt_two_pow (n := 10) (by decide) h

theorem userFlags_leaf (xperm : ℕ) : userFlags xperm ≠ PTE_V := by
  unfold userFlags
  have h1 : PTE_R ||| PTE_U ≤ PTE_R ||| PTE_U ||| xperm := Nat.left_le_or
  have h2 : PTE_R ||| PTE_U ||| xperm ≤ PTE_R ||| PTE_U ||| xperm ||| PTE_V := Nat.left_le_or
  have h3 : PTE_V < PTE_R ||| PTE_U := by decide
  omega

/-- A failed `uvmalloc` goes back to the old size. -/
theorem Space.undo (newsz xperm : ℕ) (h : Space t root m) (hr : Resize root s n t m) (hn : n ≤ m) :
    ∃ u, uvmdealloc root (m * PGSIZE) (n * PGSIZE) t = .ok (n * PGSIZE, u) ∧ Alloced root s n newsz xperm 0 u := by
  have h' : Space t root (pages (m * PGSIZE)) := by rwa [pages_mul]
  obtain ⟨u, he, hspace, hres⟩ := uvmdealloc_spec h' (Nat.mul_le_mul_right PGSIZE hn)
  rw [pages_mul] at hspace
  rw [pages_mul, pages_mul] at hres
  exact ⟨u, he, .no u hspace (hr.trans hres h (.inl hn))⟩

theorem allocLoop_spec {xperm : ℕ} (hx : xperm < 1024) (newsz fuel : ℕ) : ∀ m t, newsz ≤ (m + fuel) * PGSIZE →
    n ≤ m → m ≤ pages newsz → Space t root m → Resize root s n t m → Zeroed t root n m (userFlags xperm) →
    ∃ r u, allocLoop root (n * PGSIZE) newsz xperm fuel (m * PGSIZE) t = .ok (r, u) ∧
      Alloced root s n newsz xperm r u := by
  induction fuel with
  | zero =>
    intro m t hfuel hn hm h hr hz
    obtain rfl : m = pages newsz := le_antisymm hm (pages_le_iff.mpr hfuel)
    exact ⟨newsz, t, rfl, .yes t h hr hz⟩
  | succ fuel ih =>
    intro m t hfuel hn hm h hr hz
    rw [allocLoop]
    by_cases hlt : m * PGSIZE < newsz
    · rw [if_pos hlt]
      rcases kalloc_cases t with ⟨z, l, hf, hk⟩ | hk
      · simp only [hk]
        have htk : Taken t ((grab t z l).fill z 0) z :=
          taken_grab hf _ fun x hx => (fill_mem 0 hx).trans (grab_mem l hx)
        obtain ⟨r, u, he, hpush⟩ := h.push htk (userFlags_lt hx) (userFlags_leaf xperm)
        simp only [he, ok_bind]
        cases hpush with
        | yes _ hspace hres htrans hbytes _ =>
          have hm1 : m + 1 ≤ pages newsz := by
            by_contra hge
            have := pages_le_iff.mp (show pages newsz ≤ m by omega)
            omega
          obtain ⟨r, v, he', hend⟩ := ih (m + 1) u (by rwa [Nat.add_right_comm]) (by omega) hm1 hspace
            (hr.trans hres h (.inl hn)) fun k h1 h2 => by
              rcases Nat.lt_or_ge k m with hkm | hkm
              · obtain ⟨q, hq, hzero⟩ := hz k h1 hkm
                have hpos : 0 < PGSIZE := by decide
                refine ⟨q, ?_, fun x hin => ?_⟩
                · rw [hres.user _ (Nat.mul_lt_mul_of_pos_right hkm hpos) (Nat.mul_lt_mul_of_pos_right h2 hpos), hq]
                · rw [hres.bytes h hkm h2 (show InPage (frame t root (k * PGSIZE)) x by rwa [frame_eq hq])]
                  exact hzero x hin
              · obtain rfl : k = m := by omega
                refine ⟨z, htrans, fun x hin => ?_⟩
                rw [hbytes x hin]
                exact if_pos hin
          rw [Nat.succ_mul] at he'
          exact ⟨r, v, he', hend⟩
        | no _ v hfree hspace hres =>
          obtain ⟨w, he', hend⟩ := hspace.undo newsz xperm (hr.trans hres h (.inl hn)) hn
          refine ⟨0, w, ?_, hend⟩
          simp only [Bool.false_eq_true, if_false, hfree, ok_bind, he']
      · simp only [hk]
        obtain ⟨hspace, hres⟩ := h.refuse
        obtain ⟨w, he', hend⟩ := hspace.undo newsz xperm (hr.trans hres h (.inl hn)) hn
        refine ⟨0, w, ?_, hend⟩
        simp only [he', ok_bind]
    · rw [if_neg hlt]
      obtain rfl : m = pages newsz := le_antisymm hm (pages_le_iff.mpr (by omega))
      exact ⟨newsz, t, rfl, .yes t h hr hz⟩

theorem uvmalloc_spec {xperm old new : ℕ} (h : Space s root (pages old)) (hx : xperm < 1024) (hle : old ≤ new) :
    ∃ r t, uvmalloc root old new xperm s = .ok (r, t) ∧ Alloced root s (pages old) new xperm r t := by
  have hT : TRAPFRAME < 2 ^ 39 := by decide
  have hsz := h.size_lt
  have hpages : pages old ≤ pages new := pages_le_iff.mpr (le_trans hle (pages_le_iff.mp le_rfl))
  obtain ⟨r, t, he, hend⟩ := allocLoop_spec hx new (new / PGSIZE + 1) (pages old) s
    (by unfold PGSIZE; omega) le_rfl hpages h (.refl ..) fun k h1 h2 => absurd h1 (by omega)
  refine ⟨r, t, ?_, hend⟩
  rw [uvmalloc, if_neg (by omega), PGROUNDUP_eq (by omega), he]

end Vm
end Xv6
