/-
# Page tables as tries

The page-table pages of a page table are the nodes of a trie of depth two: slot
`i` of a page links to the page its entry points at (`child`). `Tree` says that
a page table is well formed: each of its pages is linked once. A virtual
address leads to the page of its last level by two of its indices, and to the
entry by the third; so the entries of different virtual pages are different
words.

Everything a page table says depends on its own pages only (`Tree.congr`).

Key definitions: `Vm.decode`, `Vm.child`, `Vm.tables`, `Vm.trans`, `Vm.Tree`.
-/
import Xv6.Trie
import Xv6.Vm

namespace Xv6
namespace Vm

open Trie

/-! ### Words and flags -/

theorem has_V (pte : ℕ) : has pte PTE_V = decide (pte % 2 = 1) := by
  unfold has PTE_V
  rw [Nat.and_one_is_mod]
  have := Nat.mod_two_eq_zero_or_one pte
  rcases this with h | h <;> simp [h]

theorem PX_eq (level va : ℕ) : PX level va = va / 2 ^ (12 + 9 * level) % 512 := by
  rw [PX, Nat.shiftRight_eq_div_pow, show (0x1FF : ℕ) = 2 ^ 9 - 1 by rfl, Nat.and_two_pow_sub_one_eq_mod]

theorem PX_lt (level va : ℕ) : PX level va < 512 := by
  rw [PX_eq]
  exact Nat.mod_lt _ (by decide)

theorem PTE_FLAGS_eq (pte : ℕ) : PTE_FLAGS pte = pte % 1024 := by
  rw [PTE_FLAGS, show (0x3FF : ℕ) = 2 ^ 10 - 1 by rfl, Nat.and_two_pow_sub_one_eq_mod]

theorem PTE2PA_eq (pte : ℕ) : PTE2PA pte = pte / 1024 * 4096 % 2 ^ 64 := by
  rw [PTE2PA, Nat.shiftRight_eq_div_pow, Nat.shiftLeft_eq]

theorem PTE2PA_aligned (pte : ℕ) : PTE2PA pte % PGSIZE = 0 := by
  rw [PTE2PA_eq, PGSIZE]
  omega

/-- The flags `perm | PTE_V`. -/
theorem or_V_lt {perm : ℕ} (h : perm < 1024) : perm ||| PTE_V < 1024 :=
  Nat.or_lt_two_pow (n := 10) h (by decide)

/-- An entry for the page `pa`: its address and its flags. -/
theorem mkPte_eq (pa : ℕ) {fl : ℕ} (h : fl < 1024) : PA2PTE pa ||| fl = pa / 4096 * 1024 + fl := by
  rw [PA2PTE, Nat.shiftRight_eq_div_pow, Nat.shiftLeft_eq, Nat.mul_comm]
  exact (Nat.two_pow_add_eq_or_of_lt (i := 10) h _).symm

/-- What is stored in an entry is read back. -/
theorem mkPte_spec {pa fl : ℕ} (hpa : pa % PGSIZE = 0) (hlt : pa < 2 ^ 64) (hfl : fl < 1024) :
    PTE2PA (PA2PTE pa ||| fl) = pa ∧ PTE_FLAGS (PA2PTE pa ||| fl) = fl ∧ PA2PTE pa ||| fl < 2 ^ 64 := by
  rw [PTE2PA_eq, PTE_FLAGS_eq, mkPte_eq pa hfl]
  unfold PGSIZE at hpa
  omega

theorem has_or_V {fl : ℕ} (pa : ℕ) (h : fl < 1024) : has (PA2PTE pa ||| (fl ||| PTE_V)) PTE_V = true := by
  rw [has_V, mkPte_eq pa (or_V_lt h), decide_eq_true_eq]
  have h1 : (fl ||| PTE_V) % 2 = 1 := by
    rw [← Nat.and_one_is_mod, Nat.and_or_distrib_right]
    have : PTE_V &&& 1 = 1 := rfl
    rw [this, Nat.and_one_is_mod]
    rcases Nat.mod_two_eq_zero_or_one fl with h | h <;> rw [h] <;> rfl
  omega

/-! ### Pages of memory -/

/-- The address is in the page that starts at `p`. -/
def InPage (p x : ℕ) : Prop := p ≤ x ∧ x < p + PGSIZE

theorem InPage.unique {p q x : ℕ} (hp : p % PGSIZE = 0) (hq : q % PGSIZE = 0) (h1 : InPage p x)
    (h2 : InPage q x) : p = q := by
  unfold InPage PGSIZE at *
  omega

theorem ld_congr {s s' : Sys} {p i : ℕ} (hi : i < 512) (h : ∀ x, InPage p x → s'.mem x = s.mem x) :
    s'.ld (p + 8 * i) = s.ld (p + 8 * i) := by
  refine Bytes.le_congr fun x h1 h2 => h x ⟨by omega, ?_⟩
  unfold PGSIZE
  omega

/-- Entries of pages are different words. -/
theorem ld_st {s : Sys} {p q i k : ℕ} (v : ℕ) (hp : p % PGSIZE = 0) (hq : q % PGSIZE = 0) (hi : i < 512)
    (hk : k < 512) : (s.st (q + 8 * k) v).ld (p + 8 * i) =
      if p = q ∧ i = k then v % 2 ^ 64 else s.ld (p + 8 * i) := by
  unfold PGSIZE at hp hq
  split
  · next h =>
    obtain ⟨rfl, rfl⟩ := h
    exact Bytes.le_putLe s.mem _ 8 v
  · next h => exact Bytes.le_putLe_disjoint (by omega)

theorem st_mem {s : Sys} {p k v x : ℕ} (hk : k < 512) (h : ¬ InPage p x) :
    (s.st (p + 8 * k) v).mem x = s.mem x := by
  refine Bytes.putLe_of_disjoint ?_
  unfold InPage PGSIZE at h
  omega

theorem fill_mem {s : Sys} {p x : ℕ} (v : UInt8) (h : ¬ InPage p x) : (s.fill p v).mem x = s.mem x := if_neg h

/-- A page that was filled with zeros has no entries. -/
theorem ld_zero {s : Sys} {p i : ℕ} (hi : i < 512) (h : ∀ x, InPage p x → s.mem x = 0) : s.ld (p + 8 * i) = 0 := by
  have hz : Bytes.le s.mem (p + 8 * i) 8 = Bytes.le (fun _ => 0) (p + 8 * i) 8 :=
    Bytes.le_congr fun x h1 h2 => h x ⟨by omega, by unfold PGSIZE; omega⟩
  exact hz.trans (by simp [Bytes.le])

/-! ### The trie -/

def idx : List ℕ := List.range 512

theorem mem_idx {i : ℕ} : i ∈ idx ↔ i < 512 := List.mem_range

theorem PX_mem (level va : ℕ) : PX level va ∈ idx := mem_idx.mpr (PX_lt level va)

/-- What an entry says: a physical page and flags. -/
def decode (pte : ℕ) : Option (ℕ × ℕ) := if has pte PTE_V then some (PTE2PA pte, PTE_FLAGS pte) else none

/-- Slot `i` of the page-table page `p`. -/
def entry (s : Sys) (p i : ℕ) : Option (ℕ × ℕ) := decode (s.ld (p + 8 * i))

/-- The page-table page that the slot links to. -/
def child (s : Sys) (p i : ℕ) : Option ℕ := (entry s p i).map Prod.fst

/-- The pages of the page table, each after those it links to. -/
def tables (s : Sys) (root : ℕ) : List ℕ := nodes (child s) idx 2 root

/-- Where `va` is translated to: the physical page and the flags. -/
def trans (s : Sys) (root va : ℕ) : Option (ℕ × ℕ) :=
  (lookup s root va).bind fun pte => decode (s.ld pte)

/-- A well-formed page table: each of its pages is linked once. -/
structure Tree (s : Sys) (root : ℕ) : Prop where
  aligned : root % PGSIZE = 0
  once : LinkedOnce (child s) idx 2 root

theorem decode_eq_some {pte : ℕ} {e : ℕ × ℕ} :
    decode pte = some e ↔ has pte PTE_V = true ∧ e = (PTE2PA pte, PTE_FLAGS pte) := by
  unfold decode
  split
  · next h => simp [h, eq_comm]
  · next h => simp [h]

theorem decode_eq_none {pte : ℕ} : decode pte = none ↔ has pte PTE_V = false := by simp [decode]

theorem decode_zero : decode 0 = none := rfl

/-- What `mappages` stores. -/
theorem decode_mkPte {pa perm : ℕ} (hpa : pa % PGSIZE = 0) (hlt : pa < 2 ^ 64) (hp : perm < 1024) :
    decode (PA2PTE pa ||| perm ||| PTE_V) = some (pa, perm ||| PTE_V) := by
  obtain ⟨h1, h2, -⟩ := mkPte_spec hpa hlt (or_V_lt hp)
  rw [Nat.or_assoc, decode_eq_some, h1, h2]
  exact ⟨has_or_V pa hp, rfl⟩

variable {s s' : Sys} {root p q i va : ℕ} {π : List ℕ} {n : ℕ}

theorem child_eq_some : child s p i = some q ↔
    has (s.ld (p + 8 * i)) PTE_V = true ∧ q = PTE2PA (s.ld (p + 8 * i)) := by
  unfold child entry decode
  split
  · next h => simp [h, eq_comm]
  · next h => simp [h]

theorem child_eq_none : child s p i = none ↔ has (s.ld (p + 8 * i)) PTE_V = false := by
  rw [child, Option.map_eq_none_iff, entry, decode_eq_none]

theorem child_aligned (h : child s p i = some q) : q % PGSIZE = 0 :=
  (child_eq_some.mp h).2 ▸ PTE2PA_aligned _

theorem Tree.reach_aligned (h : Tree s root) (hr : Reach (child s) idx n root π p) : p % PGSIZE = 0 := by
  induction π using List.reverseRecOn generalizing p with
  | nil => exact Option.some.inj hr.eq ▸ h.aligned
  | append_singleton π i _ =>
    obtain ⟨r, -, hc⟩ := descend_concat_eq_some.mp hr.eq
    exact child_aligned hc

theorem entry_congr (hi : i < 512) (h : ∀ x, InPage p x → s'.mem x = s.mem x) : entry s' p i = entry s p i :=
  congrArg decode (ld_congr hi h)

theorem child_congr (hi : i < 512) (h : ∀ x, InPage p x → s'.mem x = s.mem x) : child s' p i = child s p i :=
  congrArg (Option.map Prod.fst) (entry_congr hi h)

/-- `walk` without allocation goes down the trie and changes nothing. -/
theorem walkFrom_false (va root : ℕ) (s : Sys) : walkFrom va false 2 root s =
    ((descend (child s) root [PX 2 va, PX 1 va]).map (· + 8 * PX 0 va), s) := by
  have h0 : ∀ pt, walkFrom va false 0 pt s = (some (pt + 8 * PX 0 va), s) := fun _ => rfl
  have hl : ∀ level pt, walkFrom va false (level + 1) pt s =
      (child s pt (PX (level + 1) va)).elim (none, s) fun q => walkFrom va false level q s := by
    intro level pt
    rw [walkFrom]
    rcases hc : child s pt (PX (level + 1) va) with _ | q
    · simp only [child_eq_none.mp hc]
      rfl
    · obtain ⟨hv, rfl⟩ := child_eq_some.mp hc
      simp only [hv, if_true, Option.elim_some]
  rw [hl 1]
  rcases h2 : child s root (PX 2 va) with _ | q
  · simp [descend, h2]
  · rw [Option.elim_some, hl 0]
    rcases h1 : child s q (PX 1 va) with _ | r
    · simp [descend, h2, h1]
    · simp [descend, h2, h1, h0]

theorem lookup_eq (s : Sys) (root va : ℕ) :
    lookup s root va = (descend (child s) root [PX 2 va, PX 1 va]).map (· + 8 * PX 0 va) := by
  rw [lookup, walkFrom_false]

theorem lookup_eq_some {a : ℕ} : lookup s root va = some a ↔
    ∃ q, Reach (child s) idx 2 root [PX 2 va, PX 1 va] q ∧ a = q + 8 * PX 0 va := by
  rw [lookup_eq, Option.map_eq_some_iff]
  constructor
  · rintro ⟨q, hq, rfl⟩
    exact ⟨q, ⟨le_rfl, by simp [PX_mem], hq⟩, rfl⟩
  · rintro ⟨q, hq, rfl⟩
    exact ⟨q, hq.eq, rfl⟩

theorem trans_eq (s : Sys) (root va : ℕ) : trans s root va =
    (descend (child s) root [PX 2 va, PX 1 va]).bind fun q => entry s q (PX 0 va) := by
  rw [trans, lookup_eq, Option.bind_map]
  rfl

theorem walk_false (h : va < MAXVA) (root : ℕ) (s : Sys) : walk root va false s = .ok (lookup s root va, s) := by
  rw [walk, if_neg (by omega), lookup, walkFrom_false]

/-- The indices tell the page. -/
theorem px_inj {va va' : ℕ} (h : va < 2 ^ 39) (h' : va' < 2 ^ 39) (h2 : PX 2 va = PX 2 va')
    (h1 : PX 1 va = PX 1 va') (h0 : PX 0 va = PX 0 va') : va / PGSIZE = va' / PGSIZE := by
  rw [PX_eq, PX_eq] at h0 h1 h2
  unfold PGSIZE
  omega

theorem px_congr {va va' : ℕ} (h : va / PGSIZE = va' / PGSIZE) (level : ℕ) : PX level va = PX level va' := by
  unfold PGSIZE at h
  rw [PX_eq, PX_eq, Nat.pow_add, ← Nat.div_div_eq_div_mul, ← Nat.div_div_eq_div_mul]
  have e : (2 : ℕ) ^ 12 = 4096 := rfl
  rw [e, h]

/-- A page table depends on its own pages only. -/
theorem reach_congr (h : ∀ σ q, Reach (child s) idx n root σ q → ∀ x, InPage q x → s'.mem x = s.mem x) :
    Reach (child s') idx n root π p ↔ Reach (child s) idx n root π p := by
  have hd : π.length ≤ n → (∀ i ∈ π, i ∈ idx) → descend (child s') root π = descend (child s) root π :=
    descend_congr fun σ q i hr _ hi => child_congr (mem_idx.mp hi) (h σ q hr)
  constructor
  · exact fun hr => ⟨hr.len, hr.idx, hd hr.len hr.idx ▸ hr.eq⟩
  · exact fun hr => ⟨hr.len, hr.idx, (hd hr.len hr.idx).trans hr.eq⟩

theorem mem_tables : p ∈ tables s root ↔ ∃ π, Reach (child s) idx 2 root π p := mem_nodes

section Congr

variable (h : ∀ q ∈ tables s root, ∀ x, InPage q x → s'.mem x = s.mem x)

include h

theorem Tree.congr (ht : Tree s root) : Tree s' root := by
  refine ⟨ht.aligned, fun π σ p hp hs => ?_⟩
  have hr : ∀ {π : List ℕ} {p : ℕ}, Reach (child s') idx 2 root π p ↔ Reach (child s) idx 2 root π p :=
    reach_congr fun σ q hq => h q (mem_tables.mpr ⟨σ, hq⟩)
  exact ht.once π σ p (hr.mp hp) (hr.mp hs)

theorem tables_congr : tables s' root = tables s root :=
  nodes_congr fun σ q _ hr _ hi => child_congr (mem_idx.mp hi) (h q (mem_tables.mpr ⟨σ, hr⟩))

theorem descend_px_congr (va : ℕ) :
    descend (child s') root [PX 2 va, PX 1 va] = descend (child s) root [PX 2 va, PX 1 va] :=
  descend_congr (n := 2) (I := idx)
    (fun σ q _ hr _ hi => child_congr (mem_idx.mp hi) (h q (mem_tables.mpr ⟨σ, hr⟩))) le_rfl (by simp [PX_mem])

theorem lookup_congr (va : ℕ) : lookup s' root va = lookup s root va := by
  rw [lookup_eq, lookup_eq, descend_px_congr h]

theorem trans_congr (va : ℕ) : trans s' root va = trans s root va := by
  rw [trans_eq, trans_eq, descend_px_congr h]
  rcases hd : descend (child s) root [PX 2 va, PX 1 va] with _ | q
  · rw [Option.bind_none, Option.bind_none]
  · have hq : q ∈ tables s root := mem_tables.mpr ⟨_, le_rfl, by simp [PX_mem], hd⟩
    rw [Option.bind_some, Option.bind_some, entry_congr (PX_lt 0 va) (h q hq)]

end Congr

/-- The translation of an address is that of its page. -/
theorem trans_page {va va' : ℕ} (h : va / PGSIZE = va' / PGSIZE) : trans s root va = trans s root va' := by
  rw [trans, trans, lookup_eq, lookup_eq, px_congr h, px_congr h, px_congr h]

end Vm
end Xv6
