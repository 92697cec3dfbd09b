/-
# Mapping and unmapping

A page table as a partial map from virtual pages to physical pages and flags
(`trans`). `walk` may link new page-table pages, which changes no translation
(`walk_true`); storing into the entry of a page changes the translation of that
page only (`Tree.stored`). So `mappages` extends the map on the range, or on a
proper prefix of it when a page-table page is missing (`mapLoop_spec`), and
`uvmunmap` removes the range from it (`unmapLoop_spec`).

Key definitions: `Vm.Table`, `Vm.Linked`, `Vm.Grown`, `Vm.Stored`, `Vm.overlay`, `Vm.erase`.
-/
import Xv6.VmTable

namespace Xv6
namespace Vm

open Trie

variable {s s' s'' t : Sys} {root p q i z va a : ℕ} {π new new' : List ℕ}

/-- A page that `kfree` takes. -/
def Freeable (s : Sys) (p : ℕ) : Prop := p % PGSIZE = 0 ∧ s.kend ≤ p ∧ p < PHYSTOP

/-- A well-formed page table beside the free pages: these are distinct, and none
of them is one of its pages. -/
structure Table (s : Sys) (root : ℕ) : Prop extends Tree s root where
  nodup : s.free.Nodup
  pages : ∀ p ∈ s.free, Freeable s p
  fresh : ∀ p ∈ s.free, p ∉ tables s root

/-- The entries above the last level have no flag but `PTE_V`. -/
def Plain (s : Sys) (root : ℕ) : Prop := ∀ π p i e, Reach (child s) idx 2 root π p → π.length < 2 → i < 512 →
  entry s p i = some e → e.2 = PTE_V

theorem Plain.congr (h : ∀ q ∈ tables s root, ∀ x, InPage q x → s'.mem x = s.mem x) (hp : Plain s root) :
    Plain s' root := by
  intro π p i e hr hlt hi he
  have hr' : Reach (child s) idx 2 root π p :=
    (reach_congr fun σ q hq => h q (mem_tables.mpr ⟨σ, hq⟩)).mp hr
  rw [entry_congr hi (h p (mem_tables.mpr ⟨π, hr'⟩))] at he
  exact hp π p i e hr' hlt hi he

/-! ### Allocation -/

/-- The state after `kalloc` returned `z`. -/
def grab (s : Sys) (z : ℕ) (l : List ℕ) : Sys := { s.fill z 5 with free := l, calls := s.calls + 1 }

/-- The state after `kalloc` returned 0. -/
def refuse (s : Sys) : Sys := { s with calls := s.calls + 1 }

theorem kalloc_cases (s : Sys) : (∃ z l, s.free = z :: l ∧ kalloc s = (some z, grab s z l)) ∨
    kalloc s = (none, refuse s) := by
  unfold kalloc
  split
  · exact .inr rfl
  · rcases hf : s.free with _ | ⟨z, l⟩
    · exact .inr (by rw [refuse, hf])
    · exact .inl ⟨z, l, rfl, rfl⟩

theorem grab_mem {x : ℕ} (l : List ℕ) (h : ¬ InPage z x) : (grab s z l).mem x = s.mem x := fill_mem 5 h

/-! ### Linking a page-table page -/

/-- The empty page `z` is linked into slot `i` of the page `p`. -/
structure Linked (s s' : Sys) (p i z : ℕ) : Prop where
  zero : ∀ j < 512, entry s' z j = none
  new : entry s' p i = some (z, PTE_V)
  same : ∀ q j, q % PGSIZE = 0 → q ≠ z → j < 512 → ¬ (q = p ∧ j = i) → entry s' q j = entry s q j

/-- What `walk` does with a page it got from `kalloc`. -/
theorem linked_st (hz : z % PGSIZE = 0) (hp : p % PGSIZE = 0) (hlt : z < 2 ^ 64) (hne : z ≠ p) (hi : i < 512)
    (ht : ∀ x, ¬ InPage z x → t.mem x = s.mem x) :
    Linked s ((t.fill z 0).st (p + 8 * i) (PA2PTE z ||| PTE_V)) p i z := by
  refine ⟨fun j hj => ?_, ?_, fun q j hq hqz hj hqp => ?_⟩
  · rw [entry, ld_st _ hz hp hj hi, if_neg (fun h => hne h.1), ld_zero hj fun x hx => if_pos hx, decode_zero]
  · obtain ⟨h1, h2, h3⟩ := mkPte_spec hz hlt (show PTE_V < 1024 by decide)
    rw [entry, ld_st _ hp hp hi hi, if_pos ⟨rfl, rfl⟩, Nat.mod_eq_of_lt h3, decode_eq_some, h1, h2]
    exact ⟨has_or_V z (show 0 < 1024 by decide), rfl⟩
  · rw [entry, ld_st _ hq hp hj hi, if_neg hqp]
    refine congrArg decode (ld_congr hj fun x hx => ?_)
    have hxz : ¬ InPage z x := fun h => hqz (InPage.unique hq hz hx h)
    exact (fill_mem 0 hxz).trans (ht x hxz)

section Linked

variable (h : Linked s s' p i z) (hs : Tree s root) (hr : Reach (child s) idx 2 root π p) (hl : π.length < 2)
  (hi : i < 512) (hc : child s p i = none) (hz : z ∉ tables s root)

include h hs hr hl hi hc hz

theorem Linked.inserted : Inserted (child s) (child s') idx 2 root π p i z where
  reach := hr
  short := hl
  idx := mem_idx.mpr hi
  empty := hc
  new := by rw [child, h.new]; rfl
  leaf j hj := by rw [child, h.zero j (mem_idx.mp hj)]; rfl
  fresh σ hσ := hz (mem_tables.mpr ⟨σ, hσ⟩)
  same σ q j hq hj hne := by
    have hqz : q ≠ z := fun e => hz (mem_tables.mpr ⟨σ, e ▸ hq⟩)
    rw [child, child, h.same q j (hs.reach_aligned hq) hqz (mem_idx.mp hj) hne]

theorem Linked.tree : Tree s' root := ⟨hs.aligned, (h.inserted hs hr hl hi hc hz).linkedOnce hs.once⟩

theorem Linked.reach_iff {σ : List ℕ} {r : ℕ} :
    Reach (child s') idx 2 root σ r ↔ Reach (child s) idx 2 root σ r ∨ σ = π ++ [i] ∧ r = z :=
  (h.inserted hs hr hl hi hc hz).reach_iff hs.once σ r

theorem Linked.mem_tables {r : ℕ} : r ∈ tables s' root ↔ r = z ∨ r ∈ tables s root := by
  rw [Vm.mem_tables, Vm.mem_tables]
  constructor
  · rintro ⟨σ, hσ⟩
    rcases (h.reach_iff hs hr hl hi hc hz).mp hσ with h1 | ⟨-, rfl⟩
    · exact .inr ⟨σ, h1⟩
    · exact .inl rfl
  · rintro (rfl | ⟨σ, hσ⟩)
    · exact ⟨_, (h.reach_iff hs hr hl hi hc hz).mpr (.inr ⟨rfl, rfl⟩)⟩
    · exact ⟨σ, (h.reach_iff hs hr hl hi hc hz).mpr (.inl hσ)⟩

theorem Linked.plain (hp : Plain s root) : Plain s' root := by
  intro σ r j e hσ hlt hj he
  rcases (h.reach_iff hs hr hl hi hc hz).mp hσ with h1 | ⟨-, rfl⟩
  · by_cases hslot : r = p ∧ j = i
    · obtain ⟨rfl, rfl⟩ := hslot
      rw [h.new] at he
      rw [← Option.some.inj he]
    · have hrz : r ≠ z := fun e => hz (Vm.mem_tables.mpr ⟨σ, e ▸ h1⟩)
      rw [h.same r j (hs.reach_aligned h1) hrz hj hslot] at he
      exact hp σ r j e h1 hlt hj he
  · rw [h.zero j hj] at he
    cases he

/-- The new page translates nothing, and every other entry of the last level is as it was. -/
theorem Linked.trans_eq (x : ℕ) : trans s' root x = trans s root x := by
  have hI : ∀ j ∈ [PX 2 x, PX 1 x], j ∈ idx := by simp [PX_mem]
  have hd := fun q => (h.inserted hs hr hl hi hc hz).descend_iff hs.once [PX 2 x, PX 1 x] q le_rfl hI
  rw [Vm.trans_eq, Vm.trans_eq]
  rcases hq : descend (child s) root [PX 2 x, PX 1 x] with _ | q
  · rcases hq' : descend (child s') root [PX 2 x, PX 1 x] with _ | r
    · rw [Option.bind_none, Option.bind_none]
    · rcases (hd r).mp hq' with h1 | ⟨-, rfl⟩
      · rw [hq] at h1
        cases h1
      · rw [Option.bind_some, h.zero _ (PX_lt 0 x), Option.bind_none]
  · have hreach : Reach (child s) idx 2 root [PX 2 x, PX 1 x] q := ⟨le_rfl, hI, hq⟩
    have hqz : q ≠ z := fun e => hz (Vm.mem_tables.mpr ⟨_, e ▸ hreach⟩)
    -- `p` is above the last level
    have hqp : q ≠ p := by
      rintro rfl
      rw [hs.once _ _ q hr hreach] at hl
      exact absurd hl (by simp)
    rw [(hd q).mpr (.inl hq), Option.bind_some, Option.bind_some,
      h.same q _ (hs.reach_aligned hreach) hqz (PX_lt 0 x) fun e => hqp e.1]

end Linked

/-! ### Growing a page table -/

/-- The free pages `new` became page-table pages; nothing outside the page table
changed. -/
structure Grown (root : ℕ) (s s' : Sys) (new : List ℕ) : Prop where
  table : Table s' root
  free : s.free = new ++ s'.free
  tables : ∀ q, q ∈ tables s' root ↔ q ∈ new ∨ q ∈ tables s root
  mem : ∀ x, (∀ q ∈ Vm.tables s' root, ¬ InPage q x) → s'.mem x = s.mem x
  plain : Plain s root → Plain s' root
  kend : s'.kend = s.kend
  deny : s'.deny = s.deny

theorem Grown.refl (h : Table s root) : Grown root s s [] where
  table := h
  free := rfl
  tables q := by simp
  mem _ _ := rfl
  plain := id
  kend := rfl
  deny := rfl

theorem Grown.trans (h : Grown root s s' new) (h' : Grown root s' s'' new') : Grown root s s'' (new ++ new') where
  table := h'.table
  free := by rw [h.free, h'.free, List.append_assoc]
  tables q := by rw [h'.tables, h.tables, List.mem_append, or_left_comm, or_assoc]
  mem x hx := (h'.mem x hx).trans (h.mem x fun q hq => hx q ((h'.tables q).mpr (.inr hq)))
  plain hp := h'.plain (h.plain hp)
  kend := h'.kend.trans h.kend
  deny := h'.deny.trans h.deny

/-- A call of `kalloc` that fails. -/
theorem Grown.refuse (h : Table s root) : Grown root s (refuse s) [] := by
  have hm : ∀ q ∈ Vm.tables s root, ∀ x, InPage q x → (Vm.refuse s).mem x = s.mem x := fun _ _ _ _ => rfl
  have ht : Vm.tables (Vm.refuse s) root = Vm.tables s root := tables_congr hm
  refine ⟨⟨h.toTree.congr hm, h.nodup, h.pages, ?_⟩, rfl, fun q => ?_, fun _ _ => rfl, Plain.congr hm, rfl, rfl⟩
  · rw [ht]
    exact h.fresh
  · rw [ht]
    simp

/-- `walk` links a page that it allocated. -/
theorem Grown.link {l : List ℕ} (h : Table s root) (hr : Reach (child s) idx 2 root π p) (hl : π.length < 2)
    (hi : i < 512) (hc : child s p i = none) (hf : s.free = z :: l) (hs' : s' =
      ((grab s z l).fill z 0).st (p + 8 * i) (PA2PTE z ||| PTE_V)) :
    Grown root s s' [z] ∧ Reach (child s') idx 2 root (π ++ [i]) z ∧ ∀ x, Vm.trans s' root x = Vm.trans s root x := by
  have hzf : z ∈ s.free := by simp [hf]
  have hz := h.fresh z hzf
  obtain ⟨hza, -, hzt⟩ := h.pages z hzf
  have hpa := h.reach_aligned hr
  have hne : z ≠ p := fun e => hz (mem_tables.mpr ⟨π, e ▸ hr⟩)
  have hL : Linked s s' p i z := by
    rw [hs']
    exact linked_st hza hpa (lt_trans hzt (by decide)) hne hi fun x hx => grab_mem l hx
  have htab : ∀ r, r ∈ Vm.tables s' root ↔ r = z ∨ r ∈ Vm.tables s root := fun r =>
    hL.mem_tables h.toTree hr hl hi hc hz
  have hfree : s'.free = l := by rw [hs']; rfl
  have hkend : s'.kend = s.kend := by rw [hs']; rfl
  have hn : (z :: l).Nodup := hf ▸ h.nodup
  refine ⟨?_, (hL.reach_iff h.toTree hr hl hi hc hz).mpr (.inr ⟨rfl, rfl⟩), hL.trans_eq h.toTree hr hl hi hc hz⟩
  refine ⟨⟨hL.tree h.toTree hr hl hi hc hz, hfree ▸ hn.of_cons, fun r hrf => ?_, fun r hrf => ?_⟩, ?_, fun r => ?_,
    fun x hx => ?_, hL.plain h.toTree hr hl hi hc hz, hkend, by rw [hs']; rfl⟩
  · rw [Freeable, hkend]
    exact h.pages r (by rw [hf]; exact List.mem_cons_of_mem _ (hfree ▸ hrf))
  · rw [hfree] at hrf
    rintro hrt
    rcases (htab r).mp hrt with rfl | hrt
    · exact (List.nodup_cons.mp hn).1 hrf
    · exact h.fresh r (by rw [hf]; exact List.mem_cons_of_mem _ hrf) hrt
  · rw [hf, hfree]
    rfl
  · rw [htab, List.mem_singleton]
  · have hxz : ¬ InPage z x := hx z ((htab z).mpr (.inl rfl))
    have hxp : ¬ InPage p x := hx p ((htab p).mpr (.inr (mem_tables.mpr ⟨π, hr⟩)))
    rw [hs', st_mem hi hxp, fill_mem 0 hxz, grab_mem l hxz]

/-- The indices of `va` at the levels above the last, from a level down. -/
def trail (va : ℕ) : ℕ → List ℕ
  | 0 => []
  | level + 1 => PX (level + 1) va :: trail va level

/-- What an allocating `walk` from a page of the table leaves behind: the path to
the entry, unless a page is missing. -/
structure Walked (root va : ℕ) (s s' : Sys) (r : Option ℕ) (new : List ℕ) : Prop where
  grown : Grown root s s' new
  trans : ∀ x, trans s' root x = trans s root x
  calls : s'.calls = s.calls + new.length + if r.isSome then 0 else 1
  entry : ∀ a, r = some a → lookup s' root va = some a

theorem walkFrom_true (va level : ℕ) : ∀ (p : ℕ) (s : Sys) (π : List ℕ), π ++ trail va level = trail va 2 →
    Table s root → Reach (child s) idx 2 root π p →
    ∃ r s' new, walkFrom va true level p s = (r, s') ∧ Walked root va s s' r new := by
  induction level with
  | zero =>
    intro p s π hπ h hr
    rw [trail, List.append_nil] at hπ
    subst hπ
    refine ⟨_, s, [], rfl, .refl h, fun _ => rfl, rfl, fun a ha => ?_⟩
    exact lookup_eq_some.mpr ⟨p, hr, (Option.some.inj ha).symm⟩
  | succ level ih =>
    intro p s π hπ h hr
    have hπ' : (π ++ [PX (level + 1) va]) ++ trail va level = trail va 2 := by
      rw [List.append_assoc]
      exact hπ
    have hlen : (π ++ [PX (level + 1) va]).length ≤ 2 := by
      have := congrArg List.length hπ'
      rw [List.length_append] at this
      exact le_of_le_of_eq (Nat.le_add_right _ _) this
    have hl : π.length < 2 := by
      rw [List.length_append, List.length_singleton] at hlen
      omega
    have hi := PX_lt (level + 1) va
    rw [walkFrom]
    rcases hc : child s p (PX (level + 1) va) with _ | q
    · rw [if_neg (by rw [child_eq_none.mp hc]; decide), if_neg (by decide)]
      rcases kalloc_cases s with ⟨z, l, hf, hk⟩ | hk
      · obtain ⟨hg, hreach, htr⟩ := Grown.link h hr hl hi hc hf rfl
        obtain ⟨r, s', new, he, hw⟩ := ih z _ _ hπ' hg.table hreach
        refine ⟨r, s', [z] ++ new, ?_, hg.trans hw.grown, fun x => (hw.trans x).trans (htr x), ?_, hw.entry⟩
        · simp only [hk, he]
        · rw [hw.calls, List.length_append, List.length_singleton]
          change s.calls + 1 + _ + _ = _
          omega
      · simp only [hk]
        exact ⟨none, _, [], rfl, .refuse h, trans_congr fun _ _ _ _ => rfl, rfl, by simp⟩
    · obtain ⟨hv, rfl⟩ := child_eq_some.mp hc
      rw [if_pos hv]
      refine ih _ s _ hπ' h ⟨hlen, fun j hj => ?_, ?_⟩
      · rcases List.mem_append.mp hj with hj | hj
        · exact hr.idx j hj
        · rw [List.mem_singleton.mp hj]
          exact PX_mem _ _
      · exact descend_concat_eq_some.mpr ⟨p, hr.eq, hc⟩

theorem walk_true (h : Table s root) (hva : va < MAXVA) :
    ∃ r s' new, walk root va true s = .ok (r, s') ∧ Walked root va s s' r new := by
  obtain ⟨r, s', new, he, hw⟩ := walkFrom_true va 2 root s [] rfl h (.nil ..)
  exact ⟨r, s', new, by rw [walk, if_neg (by omega), he], hw⟩

/-! ### Storing an entry -/

/-- The translation of the page of `va` became `e`. -/
structure Stored (root : ℕ) (s s' : Sys) (va : ℕ) (e : Option (ℕ × ℕ)) : Prop where
  tree : Tree s' root
  tables : tables s' root = tables s root
  trans : ∀ x < 2 ^ 39, trans s' root x = if x / PGSIZE = va / PGSIZE then e else trans s root x
  mem : ∀ x, (∀ q ∈ Vm.tables s root, ¬ InPage q x) → s'.mem x = s.mem x
  plain : Plain s root → Plain s' root

/-- A store into the entry of `va` changes no other translation. -/
theorem Tree.stored (h : Tree s root) (hl : lookup s root va = some a) (hva : va < 2 ^ 39) (v : ℕ) :
    Stored root s (s.st a v) va (decode (v % 2 ^ 64)) := by
  obtain ⟨q, hq, rfl⟩ := lookup_eq_some.mp hl
  have hqa := h.reach_aligned hq
  have hent : ∀ p j, p % PGSIZE = 0 → j < 512 → entry (s.st (q + 8 * PX 0 va) v) p j =
      if p = q ∧ j = PX 0 va then decode (v % 2 ^ 64) else entry s p j := by
    intro p j hp hj
    rw [entry, ld_st _ hp hqa hj (PX_lt 0 va), apply_ite decode]
    rfl
  -- the pages above the last level are not `q`
  have htop : ∀ σ p j, Reach (child s) idx 2 root σ p → σ.length < 2 → j < 512 →
      entry (s.st (q + 8 * PX 0 va) v) p j = entry s p j := by
    intro σ p j hp hlt hj
    rw [hent p j (h.reach_aligned hp) hj, if_neg]
    rintro ⟨rfl, -⟩
    rw [h.once σ _ p hp hq] at hlt
    exact absurd hlt (by simp)
  have hchild : ∀ σ p j, Reach (child s) idx 2 root σ p → σ.length < 2 → j ∈ idx →
      child (s.st (q + 8 * PX 0 va) v) p j = child s p j := fun σ p j hp hlt hj =>
    congrArg (Option.map Prod.fst) (htop σ p j hp hlt (mem_idx.mp hj))
  have hdesc : ∀ {σ : List ℕ}, σ.length ≤ 2 → (∀ j ∈ σ, j ∈ idx) →
      descend (child (s.st (q + 8 * PX 0 va) v)) root σ = descend (child s) root σ := descend_congr hchild
  have hreach : ∀ {σ : List ℕ} {p : ℕ}, Reach (child (s.st (q + 8 * PX 0 va) v)) idx 2 root σ p →
      Reach (child s) idx 2 root σ p := fun hp => ⟨hp.len, hp.idx, hdesc hp.len hp.idx ▸ hp.eq⟩
  refine ⟨⟨h.aligned, fun σ τ p hσ hτ => h.once σ τ p (hreach hσ) (hreach hτ)⟩, nodes_congr hchild, fun x hx => ?_,
    fun x hx => st_mem (PX_lt 0 va) (hx q (mem_tables.mpr ⟨_, hq⟩)), fun hp σ p j e hσ hlt hj he => ?_⟩
  · have hI : ∀ j ∈ [PX 2 x, PX 1 x], j ∈ idx := by simp [PX_mem]
    rw [trans_eq, trans_eq, hdesc le_rfl hI]
    by_cases hpage : x / PGSIZE = va / PGSIZE
    · rw [if_pos hpage, px_congr hpage, px_congr hpage, px_congr hpage, hq.eq, Option.bind_some,
        hent q _ hqa (PX_lt 0 va), if_pos ⟨rfl, rfl⟩]
    · rw [if_neg hpage]
      rcases hd : descend (child s) root [PX 2 x, PX 1 x] with _ | r
      · rw [Option.bind_none, Option.bind_none]
      · have hr : Reach (child s) idx 2 root [PX 2 x, PX 1 x] r := ⟨le_rfl, hI, hd⟩
        rw [Option.bind_some, Option.bind_some, hent r _ (h.reach_aligned hr) (PX_lt 0 x), if_neg]
        rintro ⟨rfl, h0⟩
        obtain ⟨h2, h1⟩ := List.cons.inj (h.once _ _ r hr hq)
        exact hpage (px_inj hx hva h2 (List.cons.inj h1).1 h0)
  · have hσ' := hreach hσ
    rw [htop σ p j hσ' hlt hj] at he
    exact hp σ p j e hσ' hlt hj he

/-! ### mappages -/

/-- The map `f` with `n` pages from `va` on mapped to those from `pa` on. -/
def overlay (f : ℕ → Option (ℕ × ℕ)) (va pa fl n x : ℕ) : Option (ℕ × ℕ) :=
  if va ≤ x ∧ x < va + n * PGSIZE then some (pa + (PGROUNDDOWN x - va), fl) else f x

/-- `mappages` of `n` pages: `k` of them are mapped, all if it returns 0. If it
returns -1, one call of `kalloc` found no page. -/
structure Mapped (root : ℕ) (s s' : Sys) (va pa fl n k : ℕ) (r : Bool) (new : List ℕ) : Prop where
  grown : Grown root s s' new
  trans : ∀ x < 2 ^ 39, trans s' root x = overlay (trans s root) va pa fl k x
  done : if r then k = n else k < n
  calls : s'.calls = s.calls + new.length + if r then 0 else 1

theorem Grown.stored {e : Option (ℕ × ℕ)} {v : ℕ} (h : Table s root) (hst : Stored root s (s.st a v) va e) :
    Grown root s (s.st a v) [] where
  table := ⟨hst.tree, h.nodup, h.pages, fun p hp => by rw [hst.tables]; exact h.fresh p hp⟩
  free := rfl
  tables q := by simp [hst.tables]
  mem x hx := hst.mem x (by rwa [hst.tables] at hx)
  plain := hst.plain
  kend := rfl
  deny := rfl

theorem overlay_zero (f : ℕ → Option (ℕ × ℕ)) (va pa fl x : ℕ) : overlay f va pa fl 0 x = f x :=
  if_neg (by omega)

/-- The first page, then the others. -/
theorem overlay_succ {f g : ℕ → Option (ℕ × ℕ)} {va pa fl x : ℕ} (n : ℕ) (hva : va % PGSIZE = 0)
    (hg : g x = if x / PGSIZE = va / PGSIZE then some (pa, fl) else f x) :
    overlay g (va + PGSIZE) (pa + PGSIZE) fl n x = overlay f va pa fl (n + 1) x := by
  unfold overlay PGROUNDDOWN PGSIZE at *
  by_cases hx : x / 4096 = va / 4096
  · have e : x / 4096 * 4096 - va = 0 := by omega
    rw [if_neg (by omega), hg, if_pos hx, if_pos (by omega), e, Nat.add_zero]
  · by_cases hin : va + 4096 ≤ x ∧ x < va + 4096 + n * 4096
    · have e : pa + 4096 + (x / 4096 * 4096 - (va + 4096)) = pa + (x / 4096 * 4096 - va) := by omega
      rw [if_pos hin, if_pos (by omega), e]
    · rw [if_neg hin, hg, if_neg hx, if_neg (by omega)]

theorem overlay_one {f : ℕ → Option (ℕ × ℕ)} {va pa fl x : ℕ} (hva : va % PGSIZE = 0) :
    overlay f va pa fl 1 x = if x / PGSIZE = va / PGSIZE then some (pa, fl) else f x := by
  rw [← overlay_succ (g := fun x => if x / PGSIZE = va / PGSIZE then some (pa, fl) else f x) 0 hva rfl, overlay_zero]

theorem trans_eq_decode (h : lookup s root va = some a) : trans s root va = decode (s.ld a) := by
  rw [Vm.trans, h, Option.bind_some]

/-- One round: a page-table page is missing, or the page at `va` is mapped. -/
theorem mapLoop_round {perm pa : ℕ} (h : Table s root) (hva : va % PGSIZE = 0) (hlt : va < MAXVA)
    (hpa : pa % PGSIZE = 0) (hpa' : pa < 2 ^ 64) (hperm : perm < 1024) (hn : trans s root va = none)
    (last fuel : ℕ) :
    (∃ s' new, mapLoop root last perm (fuel + 1) va pa s = .ok (false, s') ∧
      Mapped root s s' va pa (perm ||| PTE_V) 1 0 false new) ∨
    ∃ s' new, (mapLoop root last perm (fuel + 1) va pa s = if va = last then .ok (true, s') else
        mapLoop root last perm fuel ((va + PGSIZE) % 2 ^ 64) ((pa + PGSIZE) % 2 ^ 64) s') ∧
      Mapped root s s' va pa (perm ||| PTE_V) 1 1 true new := by
  have hva39 : va < 2 ^ 39 := lt_trans hlt (by decide)
  obtain ⟨r, s₁, new, hw, hwalk⟩ := walk_true h hlt
  rw [mapLoop, hw]
  rcases r with _ | a
  · refine .inl ⟨s₁, new, rfl, hwalk.grown, fun x _ => ?_, Nat.one_pos, hwalk.calls⟩
    rw [overlay_zero, hwalk.trans]
  · have hl := hwalk.entry a rfl
    have hv : has (s₁.ld a) PTE_V = false := by
      rw [← decode_eq_none, ← trans_eq_decode hl, hwalk.trans, hn]
    obtain ⟨-, -, hlt64⟩ := mkPte_spec hpa hpa' (or_V_lt hperm)
    have hst := hwalk.grown.table.toTree.stored hl hva39 (PA2PTE pa ||| perm ||| PTE_V)
    rw [Nat.or_assoc, Nat.mod_eq_of_lt hlt64, ← Nat.or_assoc, decode_mkPte hpa hpa' hperm] at hst
    refine .inr ⟨s₁.st a (PA2PTE pa ||| perm ||| PTE_V), new, ?_, ?_, fun x hx => ?_, rfl, hwalk.calls⟩
    · rw [ok_bind]
      simp only [hv, Bool.false_eq_true, if_false]
    · have hg := hwalk.grown.trans (.stored hwalk.grown.table hst)
      rwa [List.append_nil] at hg
    · rw [hst.trans x hx, hwalk.trans, overlay_one hva]

theorem mapLoop_spec {perm : ℕ} (hperm : perm < 1024) : ∀ (n va pa : ℕ) (s : Sys), Table s root → va % PGSIZE = 0 →
    pa % PGSIZE = 0 → va + (n + 1) * PGSIZE ≤ MAXVA → pa + (n + 1) * PGSIZE < 2 ^ 64 →
    (∀ x, va ≤ x → x < va + (n + 1) * PGSIZE → trans s root x = none) →
    ∃ r s' k new, mapLoop root (va + n * PGSIZE) perm (n + 1) va pa s = .ok (r, s') ∧
      Mapped root s s' va pa (perm ||| PTE_V) (n + 1) k r new := by
  intro n
  induction n with
  | zero =>
    intro va pa s h hva hpa hmax hpa' hn
    unfold PGSIZE at hmax hpa'
    rcases mapLoop_round h hva (by omega) hpa (by omega) hperm (hn va le_rfl (by unfold PGSIZE; omega))
      (va + 0 * PGSIZE) 0 with ⟨s', new, he, hm⟩ | ⟨s', new, he, hm⟩
    · exact ⟨false, s', 0, new, he, hm⟩
    · rw [if_pos (by omega)] at he
      exact ⟨true, s', 1, new, he, hm⟩
  | succ n ih =>
    intro va pa s h hva hpa hmax hpa' hn
    have hP : (n + 1) * PGSIZE = n * PGSIZE + PGSIZE := Nat.succ_mul ..
    have hP' : (n + 1 + 1) * PGSIZE = n * PGSIZE + PGSIZE + PGSIZE := by rw [Nat.succ_mul, hP]
    have hpos : 0 < PGSIZE := by decide
    have hM : MAXVA < 2 ^ 64 := by decide
    have hva' : (va + PGSIZE) % PGSIZE = 0 := by rw [Nat.add_mod_right, hva]
    have hpa'' : (pa + PGSIZE) % PGSIZE = 0 := by rw [Nat.add_mod_right, hpa]
    rcases mapLoop_round h hva (by omega) hpa (by omega) hperm (hn va le_rfl (by omega)) (va + (n + 1) * PGSIZE) (n + 1)
      with ⟨s', new, he, hm⟩ | ⟨s₁, new, he, hm⟩
    · exact ⟨false, s', 0, new, he, hm.grown, hm.trans, Nat.succ_pos _, hm.calls⟩
    · rw [if_neg (by omega), Nat.mod_eq_of_lt (by omega), Nat.mod_eq_of_lt (by omega)] at he
      have hone : ∀ x < 2 ^ 39, Vm.trans s₁ root x =
          if x / PGSIZE = va / PGSIZE then some (pa, perm ||| PTE_V) else Vm.trans s root x := fun x hx =>
        (hm.trans x hx).trans (overlay_one hva)
      have hn₁ : ∀ x, va + PGSIZE ≤ x → x < va + PGSIZE + (n + 1) * PGSIZE → Vm.trans s₁ root x = none := by
        intro x h1 h2
        have hx : x < 2 ^ 39 := by
          have : MAXVA < 2 ^ 39 := by decide
          omega
        rw [hone x hx, if_neg, hn x (by omega) (by omega)]
        unfold PGSIZE at *
        omega
      obtain ⟨r, s', k, new', he', hm'⟩ := ih (va + PGSIZE) (pa + PGSIZE) s₁ hm.grown.table hva' hpa'' (by omega)
        (by omega) hn₁
      refine ⟨r, s', k + 1, new ++ new', ?_, hm.grown.trans hm'.grown, fun x hx => ?_, ?_, ?_⟩
      · rw [he, show va + (n + 1) * PGSIZE = va + PGSIZE + n * PGSIZE by omega]
        exact he'
      · rw [hm'.trans x hx]
        exact overlay_succ k hva (hone x hx)
      · have := hm'.done
        cases r
        · exact Nat.succ_lt_succ this
        · exact congrArg (· + 1) this
      · rw [hm'.calls, hm.calls, List.length_append, if_pos rfl]
        omega

theorem mappages_spec {perm pa n : ℕ} (h : Table s root) (hva : va % PGSIZE = 0) (hpa : pa % PGSIZE = 0)
    (hmax : va + (n + 1) * PGSIZE ≤ MAXVA) (hlt : pa < 2 ^ 56) (hperm : perm < 1024)
    (hn : ∀ x, va ≤ x → x < va + (n + 1) * PGSIZE → trans s root x = none) :
    ∃ r s' k new, mappages root va ((n + 1) * PGSIZE) pa perm s = .ok (r, s') ∧
      Mapped root s s' va pa (perm ||| PTE_V) (n + 1) k r new := by
  have hpos : 0 < PGSIZE := by decide
  have hM : MAXVA = 2 ^ 38 := by decide
  have hP : (n + 1) * PGSIZE = n * PGSIZE + PGSIZE := Nat.succ_mul ..
  obtain ⟨r, s', k, new, he, hm⟩ := mapLoop_spec hperm n va pa s h hva hpa hmax (by omega) hn
  refine ⟨r, s', k, new, ?_, hm⟩
  have hlast : (va + (n + 1) * PGSIZE + 2 ^ 64 - PGSIZE) % 2 ^ 64 = va + n * PGSIZE := by
    rw [hP] at hmax ⊢
    omega
  rw [mappages, if_neg (by simp [hva]), if_neg (by simp), if_neg (by omega), hlast, Nat.mul_div_cancel _ hpos, he]

/-! ### uvmunmap -/

/-- The map `f` without `n` pages from `va` on. -/
def erase (f : ℕ → Option (ℕ × ℕ)) (va n x : ℕ) : Option (ℕ × ℕ) :=
  if va ≤ x ∧ x < va + n * PGSIZE then none else f x

/-- The physical page of `x`. -/
def frame (s : Sys) (root x : ℕ) : ℕ := ((trans s root x).map Prod.fst).getD 0

/-- The physical pages of `n` pages from `va` on. -/
def frames (s : Sys) (root va n : ℕ) : List ℕ := (List.range n).map fun k => frame s root (va + k * PGSIZE)

/-- The page of `x` is mapped, and `uvmunmap` can remove it: the entry is a leaf, and a
page that is to be freed is one that `kfree` takes and not a page of the page table. -/
structure Removable (s : Sys) (root x : ℕ) (doFree : Bool) : Prop where
  leaf : ∃ e, trans s root x = some e ∧ e.2 ≠ PTE_V
  freeable : doFree = true → Freeable s (frame s root x)
  apart : doFree = true → frame s root x ∉ tables s root

/-- `uvmunmap` removed `n` pages from `va` on. -/
structure Unmapped (root : ℕ) (s s' : Sys) (va n : ℕ) (doFree : Bool) : Prop where
  tree : Tree s' root
  tables : tables s' root = tables s root
  trans : ∀ x < 2 ^ 39, trans s' root x = erase (trans s root) va n x
  free : s'.free = (if doFree then (frames s root va n).reverse else []) ++ s.free
  mem : ∀ x, (∀ q ∈ Vm.tables s root, ¬ InPage q x) →
    (doFree = true → ∀ p ∈ frames s root va n, ¬ InPage p x) → s'.mem x = s.mem x
  plain : Plain s root → Plain s' root
  kend : s'.kend = s.kend
  deny : s'.deny = s.deny
  calls : s'.calls = s.calls

/-- The state after `kfree(p)`. -/
def freed (s : Sys) (p : ℕ) : Sys := { s.fill p 1 with free := p :: s.free }

theorem kfree_of_freeable (h : Freeable s p) : kfree p s = .ok (freed s p) := by
  obtain ⟨h1, h2, h3⟩ := h
  rw [kfree, if_neg (by omega), freed]

theorem frame_eq {e : ℕ × ℕ} (h : trans s root va = some e) : frame s root va = e.1 := by
  rw [frame, h]
  rfl

theorem frames_one (s : Sys) (root va : ℕ) : frames s root va 1 = [frame s root va] := by simp [frames]

theorem frames_succ (s : Sys) (root va n : ℕ) :
    frames s root va (n + 1) = frame s root va :: frames s root (va + PGSIZE) n := by
  rw [frames, frames, List.range_succ_eq_map, List.map_cons, List.map_map, Nat.zero_mul, Nat.add_zero]
  refine congrArg _ (List.map_congr_left fun k _ => ?_)
  rw [Function.comp_apply, Nat.succ_mul, Nat.add_comm (k * PGSIZE), Nat.add_assoc]

theorem freed_mem {x : ℕ} (h : ¬ InPage p x) : (freed s p).mem x = s.mem x := fill_mem 1 h

/-- Freeing a page that is not one of its own leaves a page table as it is. -/
theorem Tree.freed_mem (h : Tree s root) (hp : p % PGSIZE = 0) (hnot : p ∉ tables s root) :
    ∀ q ∈ tables s root, ∀ x, InPage q x → (freed s p).mem x = s.mem x := by
  intro q hq x hx
  obtain ⟨σ, hσ⟩ := mem_tables.mp hq
  refine Vm.freed_mem fun hpx => hnot ?_
  rwa [InPage.unique hp (h.reach_aligned hσ) hpx hx]

theorem erase_one {f : ℕ → Option (ℕ × ℕ)} {x : ℕ} (hva : va % PGSIZE = 0) :
    erase f va 1 x = if x / PGSIZE = va / PGSIZE then none else f x := by
  unfold erase PGSIZE at *
  refine if_congr ?_ rfl rfl
  omega

theorem erase_succ {f g : ℕ → Option (ℕ × ℕ)} {x : ℕ} (n : ℕ) (hg : g x = erase f va 1 x) :
    erase g (va + PGSIZE) n x = erase f va (n + 1) x := by
  unfold erase PGSIZE at *
  by_cases hin : va + 4096 ≤ x ∧ x < va + 4096 + n * 4096
  · rw [if_pos hin, if_pos (by omega)]
  · rw [if_neg hin, hg]
    refine if_congr ?_ rfl rfl
    omega

/-- A page that is removed may be freed first. -/
def release (doFree : Bool) (p : ℕ) (s : Sys) : Sys := if doFree then freed s p else s

theorem release_same {doFree : Bool} (h : Tree s root) (hr : Removable s root va doFree) :
    ∀ q ∈ tables s root, ∀ x, InPage q x → (release doFree (frame s root va) s).mem x = s.mem x := by
  cases doFree
  · exact fun _ _ _ _ => rfl
  · exact h.freed_mem (hr.freeable rfl).1 (hr.apart rfl)

/-- One round of `uvmunmap`. -/
theorem unmapLoop_round {bound : ℕ} {doFree : Bool} (h : Tree s root) (hva : va % PGSIZE = 0) (hlt : va < MAXVA)
    (hr : Removable s root va doFree) (hb : va < bound) (fuel : ℕ) :
    ∃ s', unmapLoop root bound doFree (fuel + 1) va s = unmapLoop root bound doFree fuel (va + PGSIZE) s' ∧
      Unmapped root s s' va 1 doFree := by
  obtain ⟨e, he, hleaf⟩ := hr.leaf
  obtain ⟨a, hl, hd⟩ : ∃ a, lookup s root va = some a ∧ decode (s.ld a) = some e := Option.bind_eq_some_iff.mp he
  obtain ⟨hv, rfl⟩ := decode_eq_some.mp hd
  have hfr : frame s root va = PTE2PA (s.ld a) := frame_eq he
  have ht := release_same h hr
  have hst := (h.congr ht).stored ((lookup_congr ht va).trans hl) (lt_trans hlt (by decide)) 0
  refine ⟨(release doFree (frame s root va) s).st a 0, ?_, hst.tree, ?_, fun x hx => ?_, ?_, fun x h1 h2 => ?_,
    fun hp => hst.plain (hp.congr ht), ?_, ?_, ?_⟩
  · rw [unmapLoop, if_pos hb, walk_false hlt, hl, ok_bind]
    simp only [hv, Bool.true_eq_false, if_false, if_neg hleaf, ← hfr]
    cases doFree
    · rfl
    · rw [if_pos rfl, kfree_of_freeable (hr.freeable rfl), ok_bind, release, if_pos rfl]
  · rw [hst.tables, tables_congr ht]
  · rw [hst.trans x hx, trans_congr ht, erase_one hva]
    rfl
  · rw [frames_one]
    cases doFree <;> rfl
  · rw [hst.mem x (by rwa [tables_congr ht])]
    cases doFree
    · rfl
    · exact freed_mem (h2 rfl _ (by rw [frames_one]; exact List.mem_singleton.mpr rfl))
  all_goals cases doFree <;> rfl

/-- A removed page changes nothing for the pages that are still to be removed. -/
theorem Removable.mono {doFree : Bool} {n x : ℕ} (hr : Removable s root x doFree) (hu : Unmapped root s s' va n doFree)
    (hx : x < 2 ^ 39) (hout : va + n * PGSIZE ≤ x) : Removable s' root x doFree := by
  have ht : trans s' root x = trans s root x := (hu.trans x hx).trans (if_neg (by omega))
  have hf : frame s' root x = frame s root x := by rw [frame, frame, ht]
  refine ⟨?_, ?_, ?_⟩
  · rw [ht]
    exact hr.leaf
  · rw [hf, Freeable, hu.kend]
    exact hr.freeable
  · rw [hf, hu.tables]
    exact hr.apart

/-- **The loop of `uvmunmap` removes a mapped range, and nothing else.** -/
theorem unmapLoop_spec {doFree : Bool} : ∀ (n va : ℕ) (s : Sys), Tree s root → va % PGSIZE = 0 →
    va + n * PGSIZE ≤ MAXVA → (∀ k < n, Removable s root (va + k * PGSIZE) doFree) →
    ∃ s', unmapLoop root (va + n * PGSIZE) doFree n va s = .ok s' ∧ Unmapped root s s' va n doFree := by
  intro n
  induction n with
  | zero =>
    intro va s h _ _ _
    refine ⟨s, rfl, h, rfl, fun x _ => (if_neg (by omega)).symm, ?_, fun _ _ _ => rfl, id, rfl, rfl, rfl⟩
    cases doFree <;> rfl
  | succ n ih =>
    intro va s h hva hmax hr
    have hP : (n + 1) * PGSIZE = n * PGSIZE + PGSIZE := Nat.succ_mul ..
    have hpos : 0 < PGSIZE := by decide
    have hM : MAXVA < 2 ^ 39 := by decide
    have hr0 : Removable s root va doFree := by simpa using hr 0 (Nat.succ_pos _)
    obtain ⟨s₁, he, hu⟩ := unmapLoop_round h hva (by omega) hr0 (show va < va + (n + 1) * PGSIZE by omega) n
    have hr₁ : ∀ k < n, Removable s₁ root (va + PGSIZE + k * PGSIZE) doFree := by
      intro k hk
      have hkn : (k + 1) * PGSIZE < (n + 1) * PGSIZE := Nat.mul_lt_mul_of_pos_right (by omega) hpos
      have hk1 : va + (k + 1) * PGSIZE = va + PGSIZE + k * PGSIZE := by rw [Nat.succ_mul]; omega
      rw [← hk1]
      exact (hr (k + 1) (by omega)).mono hu (by omega) (by rw [hk1]; omega)
    obtain ⟨s', he', hu'⟩ := ih (va + PGSIZE) s₁ hu.tree (by rw [Nat.add_mod_right, hva]) (by omega) hr₁
    have hfr : frames s₁ root (va + PGSIZE) n = frames s root (va + PGSIZE) n := by
      refine List.map_congr_left fun k hk => ?_
      have hkn : (k + 1) * PGSIZE < (n + 1) * PGSIZE :=
        Nat.mul_lt_mul_of_pos_right (by have := List.mem_range.mp hk; omega) hpos
      rw [Nat.succ_mul] at hkn
      rw [frame, frame, hu.trans _ (by omega), erase, if_neg (by omega)]
    refine ⟨s', ?_, hu'.tree, hu'.tables.trans hu.tables, fun x hx => ?_, ?_, fun x h1 h2 => ?_,
      fun hp => hu'.plain (hu.plain hp), hu'.kend.trans hu.kend, hu'.deny.trans hu.deny, hu'.calls.trans hu.calls⟩
    · rw [he, ← he', show va + (n + 1) * PGSIZE = va + PGSIZE + n * PGSIZE by omega]
    · rw [hu'.trans x hx]
      exact erase_succ n (hu.trans x hx)
    · rw [hu'.free, hu.free, hfr, frames_one, frames_succ]
      cases doFree <;> simp
    · rw [frames_succ] at h2
      rw [hu'.mem x (by rwa [hu.tables]) fun hd p hp => h2 hd p (List.mem_cons_of_mem _ (hfr ▸ hp)),
        hu.mem x h1 fun hd p hp => h2 hd p ?_]
      rw [frames_one, List.mem_singleton] at hp
      exact hp ▸ List.mem_cons_self ..

theorem uvmunmap_spec {doFree : Bool} {n : ℕ} (h : Tree s root) (hva : va % PGSIZE = 0)
    (hmax : va + n * PGSIZE ≤ MAXVA) (hr : ∀ k < n, Removable s root (va + k * PGSIZE) doFree) :
    ∃ s', uvmunmap root va n doFree s = .ok s' ∧ Unmapped root s s' va n doFree := by
  have hM : MAXVA < 2 ^ 64 := by decide
  obtain ⟨s', he, hu⟩ := unmapLoop_spec n va s h hva hmax hr
  exact ⟨s', by rw [uvmunmap, if_neg (by simp [hva]), Nat.mod_eq_of_lt (by omega), he], hu⟩

/-! ### The page table as a partial map -/

/-- A page table that has no entries has one page. -/
theorem reach_of_empty (hz : ∀ j < 512, entry s root j = none) (hr : Reach (child s) idx 2 root π p) :
    π = [] ∧ p = root := by
  rcases π with _ | ⟨j, π⟩
  · exact ⟨rfl, (Option.some.inj hr.eq).symm⟩
  · obtain ⟨q, hq, -⟩ := descend_cons_eq_some.mp hr.eq
    have hj : j < 512 := mem_idx.mp (hr.idx j (List.mem_cons_self ..))
    rw [child, hz j hj] at hq
    cases hq

theorem Tree.of_empty (ha : root % PGSIZE = 0) (hz : ∀ j < 512, entry s root j = none) : Tree s root :=
  ⟨ha, fun _ _ _ hσ hτ => (reach_of_empty hz hσ).1.trans (reach_of_empty hz hτ).1.symm⟩

theorem mem_tables_of_empty (hz : ∀ j < 512, entry s root j = none) : p ∈ tables s root ↔ p = root := by
  rw [mem_tables]
  constructor
  · rintro ⟨π, hr⟩
    exact (reach_of_empty hz hr).2
  · rintro rfl
    exact ⟨[], .nil ..⟩

theorem trans_of_empty (hz : ∀ j < 512, entry s root j = none) (x : ℕ) : trans s root x = none := by
  rw [trans_eq, descend, child, hz _ (PX_lt 2 x), Option.map_none, Option.bind_none, Option.bind_none]

/-- **A page table is a partial map.** `mappages` of a range that is not mapped adds
exactly that range to the map, or a proper prefix of it when a call of `kalloc` finds no
page. `uvmunmap` of a range of leaves removes exactly that range. -/
theorem mappages_uvmunmap_exact (s : Sys) (root va size : ℕ) (hva : va % PGSIZE = 0) (hsize : size % PGSIZE = 0)
    (hpos : size ≠ 0) (hmax : va + size ≤ MAXVA) :
    (Table s root → ∀ pa perm, pa % PGSIZE = 0 → pa < 2 ^ 56 → perm < 1024 →
      (∀ x, va ≤ x → x < va + size → trans s root x = none) →
      ∃ r s' k new, mappages root va size pa perm s = .ok (r, s') ∧
        (if r then k = size / PGSIZE else k < size / PGSIZE) ∧
        s.free = new ++ s'.free ∧ s'.calls = s.calls + new.length + (if r then 0 else 1) ∧ Table s' root ∧
        ∀ x < MAXVA, trans s' root x = overlay (trans s root) va pa (perm ||| PTE_V) k x) ∧
    (Tree s root → ∀ doFree, (∀ k < size / PGSIZE, Removable s root (va + k * PGSIZE) doFree) →
      ∃ s', uvmunmap root va (size / PGSIZE) doFree s = .ok s' ∧ Tree s' root ∧
        ∀ x < MAXVA, trans s' root x = erase (trans s root) va (size / PGSIZE) x) := by
  have hM : MAXVA ≤ 2 ^ 39 := by decide
  obtain ⟨n, rfl⟩ : ∃ n, size = n * PGSIZE := ⟨size / PGSIZE, (Nat.div_mul_cancel (Nat.dvd_of_mod_eq_zero hsize)).symm⟩
  rw [Nat.mul_div_cancel _ (show 0 < PGSIZE by decide)]
  refine ⟨fun h pa perm hpa hlt hperm hn => ?_, fun h doFree hr => ?_⟩
  · obtain ⟨m, rfl⟩ : ∃ m, n = m + 1 := Nat.exists_eq_succ_of_ne_zero (by rintro rfl; simp at hpos)
    obtain ⟨r, s', k, new, he, hm⟩ := mappages_spec h hva hpa hmax hlt hperm hn
    exact ⟨r, s', k, new, he, hm.done, hm.grown.free, hm.calls, hm.grown.table, fun x hx => hm.trans x (by omega)⟩
  · obtain ⟨s', he, hu⟩ := uvmunmap_spec h hva hmax hr
    exact ⟨s', he, hu.tree, fun x hx => hu.trans x (by omega)⟩

/-- An empty page table at `KERNBASE`, and two free pages. -/
def blank : Sys where
  mem _ := 0
  free := [KERNBASE + PGSIZE, KERNBASE + 2 * PGSIZE]
  deny _ := false
  calls := 0
  kend := KERNBASE

theorem blank_empty (j : ℕ) (hj : j < 512) : entry blank KERNBASE j = none := by
  rw [entry, ld_zero hj fun _ _ => rfl, decode_zero]

theorem blank_table : Table blank KERNBASE where
  toTree := .of_empty (by decide) blank_empty
  nodup := by decide
  pages := by unfold Freeable; decide
  fresh p hp h := by
    rw [mem_tables_of_empty blank_empty] at h
    subst h
    revert hp
    decide

/-- A page of `blank` is mapped. -/
theorem blank_maps (pa perm : ℕ) (hpa : pa % PGSIZE = 0) (hlt : pa < 2 ^ 56) (hperm : perm < 1024)
    (hr : okWith (mappages KERNBASE 0 PGSIZE pa perm blank) (fun r => r.1) = true) :
    ∃ s new, mappages KERNBASE 0 PGSIZE pa perm blank = .ok (true, s) ∧
      Mapped KERNBASE blank s 0 pa (perm ||| PTE_V) 1 1 true new := by
  obtain ⟨r, s, k, new, he, hm⟩ := mappages_spec (n := 0) blank_table (show 0 % PGSIZE = 0 by rfl) hpa (by decide) hlt hperm
    fun x _ _ => trans_of_empty blank_empty x
  rw [show (0 + 1) * PGSIZE = PGSIZE by rfl] at he
  obtain ⟨r', he', hr'⟩ := okWith_iff.mp hr
  rw [he] at he'
  cases he'
  obtain rfl : r = true := hr'
  obtain rfl : k = 1 := hm.done
  exact ⟨s, new, he, hm⟩

theorem Mapped.first {pa fl n : ℕ} {r : Bool} (h : Mapped root s s' va pa fl n 1 r new) (hva : va % PGSIZE = 0)
    (hlt : va < 2 ^ 39) : Vm.trans s' root va = some (pa, fl) := by
  rw [h.trans va hlt, overlay_one hva, if_pos rfl]

theorem mappages_uvmunmap_exact_blank :
    (∃ r s' k new, mappages KERNBASE 0 PGSIZE 0 PTE_R blank = .ok (r, s') ∧
      (if r then k = PGSIZE / PGSIZE else k < PGSIZE / PGSIZE) ∧
      blank.free = new ++ s'.free ∧ s'.calls = blank.calls + new.length + (if r then 0 else 1) ∧ Table s' KERNBASE ∧
      ∀ x < MAXVA, trans s' KERNBASE x = overlay (trans blank KERNBASE) 0 0 (PTE_R ||| PTE_V) k x) ∧
    ∃ s s', uvmunmap KERNBASE 0 (PGSIZE / PGSIZE) false s = .ok s' ∧ Tree s' KERNBASE ∧
      ∀ x < MAXVA, trans s' KERNBASE x = erase (trans s KERNBASE) 0 (PGSIZE / PGSIZE) x := by
  refine ⟨(mappages_uvmunmap_exact blank KERNBASE 0 PGSIZE rfl rfl (by decide) (by decide)).1 blank_table 0 PTE_R rfl
    (by decide) (by decide) fun x _ _ => trans_of_empty blank_empty x, ?_⟩
  obtain ⟨s, new, -, hm⟩ := blank_maps 0 PTE_R rfl (by decide) (by decide) (by decide +kernel)
  refine ⟨s, (mappages_uvmunmap_exact s KERNBASE 0 PGSIZE rfl rfl (by decide) (by decide)).2 hm.grown.table.toTree false
    fun k hk => ?_⟩
  obtain rfl : k = 0 := Nat.lt_one_iff.mp hk
  exact ⟨⟨(0, PTE_R ||| PTE_V), hm.first rfl (by decide), by decide⟩, by simp, by simp⟩

/-- A page that is mapped with no flag but `PTE_V` is taken for a page-table page:
`uvmunmap` of the mapped page panics. -/
theorem uvmunmap_flagless : ∃ s, mappages KERNBASE 0 PGSIZE 0 0 blank = .ok (true, s) ∧ Table s KERNBASE ∧
    trans s KERNBASE 0 = some (0, PTE_V) ∧
    uvmunmap KERNBASE 0 1 false s = .error (.panic "uvmunmap: not a leaf") := by
  obtain ⟨s, new, he, hm⟩ := blank_maps 0 0 rfl (by decide) (by decide) (by decide +kernel)
  have hs : trans s KERNBASE 0 = some (0, PTE_V) := hm.first rfl (by decide)
  refine ⟨s, he, hm.grown.table, hs, ?_⟩
  obtain ⟨a, hl, hd⟩ : ∃ a, lookup s KERNBASE 0 = some a ∧ decode (s.ld a) = some (0, PTE_V) :=
    Option.bind_eq_some_iff.mp hs
  obtain ⟨hv, hfl⟩ := decode_eq_some.mp hd
  obtain ⟨-, hfl⟩ := Prod.mk.inj hfl
  rw [uvmunmap, if_neg (by decide), unmapLoop, if_pos (by decide), walk_false (by decide), hl, ok_bind]
  simp only [hv, ← hfl, Bool.true_eq_false, if_false, if_true]

end Vm
end Xv6
