/-
# Runs of the buddy allocator

A client calls `bd_malloc` and `bd_free` and stores into the blocks it holds.
It keeps the pointers it got with the sizes it asked for. From a well-formed
heap, over every run, the state is the one the live blocks and the reserved
leaves determine (`Inv`). So live blocks, free blocks and the reserved ranges
partition the heap (`partition_run`), and once all blocks are freed, in
whatever order, the lists and bits are those of the start (`coalesce_run`).
What was live before leaves no trace (`heap_of_live`),
and a call of `bd_malloc` fails only when no block of its size fits anywhere
(`malloc_null_iff`). A request of more than `2 ^ 63` bytes never returns
(`served_iff`). The order of a live block, which the client does not pass to
`bd_free`, is found again from the bits (`size_recovers`).

Key definitions: `Buddy.Client`, `Buddy.call`, `Buddy.WellFormed`, `Buddy.Partition`.
Key theorems: `Buddy.partition_run`, `Buddy.coalesce_run`, `Buddy.heap_of_live`, `Buddy.malloc_null_iff`,
`Buddy.served_iff`, `Buddy.size_recovers`.
-/
import Xv6.Trace
import Xv6.BuddyInit

namespace Xv6
namespace Buddy

open Lst Links BinTree Geo TraceSys

/-- A user of the allocator. -/
structure Client where
  heap : Sys
  /-- The pointers it got and did not free, each with the number of bytes it asked for. -/
  live : List (ℕ × ℕ)

inductive Act
  | malloc (n : ℕ)
  | free (p : ℕ)
  /-- Storing two words into a live block, where a list node would be. -/
  | store (a next prev : ℕ)

/-- The block that `bd_malloc(n)` returning `p` has handed out. -/
def blockOf (g : Geo) (e : ℕ × ℕ) : Node :=
  ⟨(firstk e.2).getD 0, (e.1 - g.bdBase) / blkSize ((firstk e.2).getD 0)⟩

/-- What a client may do: ask for at most the heap, free what is live, store into what is live. -/
def Permitted (c : Client) : Act → Prop
  | .malloc n => n ≤ c.heap.heapSize
  | .free p => ∃ e ∈ c.live, e.1 = p
  | .store a _ _ => (a - c.heap.bdBase) % LEAF_SIZE = 0 ∧ c.heap.bdBase ≤ a ∧ ∃ e ∈ c.live,
      e.1 ≤ a ∧ a < e.1 + blkSize (blockOf c.heap.toGeo e).order

instance (c : Client) : DecidablePred (Permitted c)
  | .malloc _ => inferInstanceAs (Decidable (_ ≤ _))
  | .free _ => inferInstanceAs (Decidable (∃ e ∈ c.live, _))
  | .store _ _ _ => inferInstanceAs (Decidable (_ ∧ _ ∧ ∃ e ∈ c.live, _))

/-- One call; the trace holds what `bd_malloc` returns. -/
def call (c : Client) (a : Act) : Except Stop (Client × List (Option ℕ)) :=
  if Permitted c a then
    match a with
    | .malloc n => do
      let (p, s) ← bdMalloc n c.heap
      match p with
      | none => .ok ({ c with heap := s }, [none])
      | some p => .ok ({ heap := s, live := (p, n) :: c.live }, [some p])
    | .free p => do
      let s ← bdFree p c.heap
      .ok ({ heap := s, live := c.live.eraseP (·.1 = p) }, [])
    | .store a x y =>
      .ok ({ c with heap := { c.heap with links := (c.heap.links.setNext a x).setPrev a y } }, [])
  else .error .blocked

/-- A heap as `bd_init` sets it up: the leaves before `m`, which hold the list
heads, and those from `r` on are reserved, the others are free. -/
structure WellFormed (m r : ℕ) (s : Sys) : Prop where
  pos : 0 < s.nsizes
  small : s.toGeo.Small
  sizes : s.bdSizes = s.bdBase
  heads : 2 * s.nsizes ≤ m
  le : m ≤ r
  fits : r ≤ s.nblk 0
  canon : ∃ L, CanonOf (reserved s.toGeo m r) s L

/-! ### The invariant -/

/-- The live blocks and the reserved leaves. -/
def used (g : Geo) (m r : ℕ) (live : List (ℕ × ℕ)) : Set Node :=
  {N | ∃ e ∈ live, N = blockOf g e} ∪ reserved g m r

/-- Neither block contains the other. -/
def Unrelated (a b : Node) : Prop := ¬ a ≤ b ∧ ¬ b ≤ a

theorem Unrelated.symm {a b : Node} (h : Unrelated a b) : Unrelated b a := ⟨h.2, h.1⟩

/-- The live blocks are blocks of the heap, of the size asked for, apart from
each other and from the reserved leaves. -/
structure Live (m r : ℕ) (g : Geo) (live : List (ℕ × ℕ)) : Prop where
  has : ∀ e ∈ live, g.Has (blockOf g e)
  ptr : ∀ e ∈ live, g.blk (blockOf g e) = e.1
  size : ∀ e ∈ live, firstk e.2 = some (blockOf g e).order ∧ e.2 ≤ blkSize (blockOf g e).order
  pairwise : live.Pairwise fun e e' => Unrelated (blockOf g e) (blockOf g e')
  apart : ∀ e ∈ live, Apart (reserved g m r) (blockOf g e)

/-- The state is the one the live blocks and the reserved leaves determine. -/
structure Inv (m r : ℕ) (c : Client) : Prop where
  sound : Sound (reserved c.heap.toGeo m r) c.heap.toGeo
  le : m ≤ r
  fits : r ≤ c.heap.nblk 0
  live : Live m r c.heap.toGeo c.live
  canon : ∃ L, CanonOf (used c.heap.toGeo m r c.live) c.heap L

variable {g : Geo} {m r : ℕ} {live : List (ℕ × ℕ)} {c c' : Client} {t : List (Option ℕ)}

theorem used_nil : used g m r [] = reserved g m r := by
  ext N
  simp [used]

theorem used_cons (e : ℕ × ℕ) : used g m r (e :: live) = insert (blockOf g e) (used g m r live) := by
  ext N
  simp only [used, List.mem_cons, Set.mem_union, Set.mem_ofPred_eq, Set.mem_insert_iff]
  constructor
  · rintro (⟨e', rfl | he, rfl⟩ | h)
    · exact .inl rfl
    · exact .inr (.inl ⟨e', he, rfl⟩)
    · exact .inr (.inr h)
  · rintro (rfl | ⟨e', he, rfl⟩ | h)
    · exact .inl ⟨e, .inl rfl, rfl⟩
    · exact .inl ⟨e', .inr he, rfl⟩
    · exact .inr h

theorem used_perm {l l' : List (ℕ × ℕ)} (h : l.Perm l') : used g m r l = used g m r l' := by
  unfold used
  simp only [h.mem_iff]

theorem Live.sound (h : Live m r g live) (hs : Sound (reserved g m r) g) :
    Sound (used g m r live) g := by
  refine ⟨hs.pos, hs.small, ?_, fun k hk => ?_⟩
  · rintro u (⟨e, he, rfl⟩ | hu)
    · exact h.has e he
    · exact hs.has u hu
  · obtain ⟨x, hx, hfree⟩ := hs.heads k hk
    exact ⟨x, .inr hx, hfree⟩

theorem Live.perm {l l' : List (ℕ × ℕ)} (h : Live m r g l) (hp : l.Perm l') : Live m r g l' where
  has e he := h.has e (hp.mem_iff.mpr he)
  ptr e he := h.ptr e (hp.mem_iff.mpr he)
  size e he := h.size e (hp.mem_iff.mpr he)
  pairwise := h.pairwise.perm hp fun h => h.symm
  apart e he := h.apart e (hp.mem_iff.mpr he)

theorem Live.unrelated {e e' : ℕ × ℕ} (h : Live m r g live) (he : e ∈ live) (he' : e' ∈ live)
    (hne : e ≠ e') : Unrelated (blockOf g e) (blockOf g e') := by
  have : Std.Symm fun e e' => Unrelated (blockOf g e) (blockOf g e') := ⟨fun _ _ h => h.symm⟩
  exact h.pairwise.forall he he' hne

/-- The first of the live blocks is apart from everything else in use. -/
theorem Live.tail {e : ℕ × ℕ} (h : Live m r g (e :: live)) :
    Live m r g live ∧ Apart (used g m r live) (blockOf g e) := by
  obtain ⟨hp1, hp2⟩ := List.pairwise_cons.mp h.pairwise
  refine ⟨⟨fun e he => h.has e (.tail _ he), fun e he => h.ptr e (.tail _ he),
    fun e he => h.size e (.tail _ he), hp2, fun e he => h.apart e (.tail _ he)⟩, ?_⟩
  rintro u (⟨e', he', rfl⟩ | hu)
  · exact (hp1 e' he').symm
  · exact h.apart e (.head _) u hu

theorem Live.cons {p n k : ℕ} {N : Node} (h : Live m r g live) (hN : g.Has N)
    (hp : g.blk N = p) (hk : firstk n = some k) (ho : N.order = k) (hn : n ≤ blkSize k)
    (hap : Apart (used g m r live) N) :
    blockOf g (p, n) = N ∧ Live m r g ((p, n) :: live) := by
  have hblock : blockOf g (p, n) = N := by
    unfold blockOf
    simp only [hk, Option.getD_some]
    refine Node.ext ho.symm ?_
    rw [← hp, ← ho]
    unfold blk
    rw [Nat.add_sub_cancel_left, Nat.mul_div_cancel _ (blkSize_pos _)]
  refine ⟨hblock, ?_, ?_, ?_, List.pairwise_cons.mpr ⟨fun e he => ?_, h.pairwise⟩, ?_⟩
  · rintro e (_ | ⟨_, he⟩)
    · exact hblock ▸ hN
    · exact h.has e he
  · rintro e (_ | ⟨_, he⟩)
    · exact hblock ▸ hp
    · exact h.ptr e he
  · rintro e (_ | ⟨_, he⟩)
    · rw [hblock, ho]
      exact ⟨hk, hn⟩
    · exact h.size e he
  · rw [hblock]
    exact ((hap _ (.inl ⟨e, he, rfl⟩)).symm)
  · rintro e (_ | ⟨_, he⟩)
    · rw [hblock]
      exact fun u hu => hap u (.inr hu)
    · exact h.apart e he

/-! ### A call keeps the invariant -/

/-- What a call of `bd_malloc` whose `firstk` ends can do. -/
theorem malloc_cases {n fk : ℕ} (h : Inv m r c) (hfk : firstk n = some fk) (hle : n ≤ blkSize fk) :
    bdMalloc n c.heap = .ok (none, c.heap) ∨
    ∃ p s', bdMalloc n c.heap = .ok (some p, s') ∧ Inv m r ⟨s', (p, n) :: c.live⟩ ∧ s'.toGeo = c.heap.toGeo := by
  obtain ⟨L, hcan⟩ := h.canon
  rcases bdMalloc_spec (h.live.sound h.sound) hcan hfk with ⟨hnone, -⟩ | ⟨N, s', L', hsome, hgeo, ho, hN, hap, hcan'⟩
  · exact .inl hnone
  · obtain ⟨hblock, hlive⟩ := h.live.cons hN rfl hfk ho hle hap
    refine .inr ⟨c.heap.blk N, s', hsome, ?_, hgeo⟩
    rw [← hblock, ← used_cons] at hcan'
    rw [← hgeo] at hlive hcan'
    refine ⟨hgeo ▸ h.sound, h.le, hgeo ▸ h.fits, ?_, L', ?_⟩
    · simpa only [hgeo] using hlive
    · simpa only [hgeo] using hcan'

theorem inv_malloc {n : ℕ} (h : Inv m r c) (hn : n ≤ c.heap.heapSize) :
    ∃ c' t, call c (.malloc n) = .ok (c', t) ∧ Inv m r c' ∧ c'.heap.toGeo = c.heap.toGeo := by
  obtain ⟨fk, hfk, -, hle, -⟩ := firstk_spec (h.live.sound h.sound) hn
  unfold call
  rw [if_pos (show Permitted c (.malloc n) from hn)]
  rcases malloc_cases h hfk hle with hnone | ⟨p, s', hsome, hinv, hgeo⟩
  · refine ⟨c, [none], ?_, h, rfl⟩
    simp only [hnone, bind, Except.bind]
  · refine ⟨⟨s', (p, n) :: c.live⟩, [some p], ?_, hinv, hgeo⟩
    simp only [hsome, bind, Except.bind]

theorem inv_free {p : ℕ} (h : Inv m r c) (hp : ∃ e ∈ c.live, e.1 = p) :
    ∃ c' t, call c (.free p) = .ok (c', t) ∧ Inv m r c' ∧ c'.heap.toGeo = c.heap.toGeo := by
  obtain ⟨L, hcan⟩ := h.canon
  unfold call
  rw [if_pos (show Permitted c (.free p) from hp)]
  obtain ⟨e, he, rfl⟩ := hp
  obtain ⟨e', l₁, l₂, -, he', hlive, herase⟩ :=
    List.exists_of_eraseP he (p := (fun x => decide (x.1 = e.1))) (by simp)
  have hperm : c.live.Perm (e' :: c.live.eraseP fun x => decide (x.1 = e.1)) := by
    rw [herase, hlive]
    exact List.perm_middle
  obtain ⟨hrest, hap⟩ := (h.live.perm hperm).tail
  rw [used_perm hperm, used_cons] at hcan
  have hmem : e' ∈ c.live := hperm.mem_iff.mpr (.head _)
  obtain ⟨s', L', hfree, hgeo, hcan'⟩ := bdFree_spec (hrest.sound h.sound) (h.live.has e' hmem) hap hcan
  rw [show c.heap.blk (blockOf c.heap.toGeo e') = e'.1 from h.live.ptr e' hmem,
    show e'.1 = e.1 by simpa using he'] at hfree
  refine ⟨⟨s', c.live.eraseP fun x => decide (x.1 = e.1)⟩, [], ?_, ?_, hgeo⟩
  · simp only [hfree, bind, Except.bind]
  · exact ⟨hgeo ▸ h.sound, h.le, hgeo ▸ h.fits, by simpa only [hgeo] using hrest, L',
      by simpa only [hgeo] using hcan'⟩

/-- A byte lies in a block iff its leaf does. -/
theorem mem_blk_iff {x : ℕ} {N : Node} (hx : g.bdBase ≤ x) :
    g.blk N ≤ x ∧ x < g.blk N + blkSize N.order ↔
      (⟨0, (x - g.bdBase) / LEAF_SIZE⟩ : Node) ≤ N := by
  have hpos := blkSize_pos N.order
  have hdiv : (x - g.bdBase) / LEAF_SIZE / 2 ^ N.order = (x - g.bdBase) / blkSize N.order := by
    rw [Nat.div_div_eq_div_mul, Nat.mul_comm]
    rfl
  rw [Node.le_def, Nat.sub_zero, hdiv, Nat.div_eq_iff hpos]
  unfold blk
  simp only [Nat.zero_le, true_and]
  omega

theorem inv_store {a x y : ℕ} (h : Inv m r c) (ha : Permitted c (.store a x y)) :
    ∃ c' t, call c (.store a x y) = .ok (c', t) ∧ Inv m r c' ∧ c'.heap.toGeo = c.heap.toGeo := by
  obtain ⟨L, hcan⟩ := h.canon
  unfold call
  rw [if_pos ha]
  refine ⟨_, _, rfl, ⟨h.sound, h.le, h.fits, h.live, L, ?_, hcan.alloc, hcan.split, hcan.mem⟩, rfl⟩
  obtain ⟨halign, hbase, e, he, h1, h2⟩ := ha
  -- the address is that of a leaf of a live block, so it is no list node
  have hleaf : (⟨0, (a - c.heap.bdBase) / LEAF_SIZE⟩ : Node) ≤ blockOf c.heap.toGeo e := by
    rw [← mem_blk_iff (g := c.heap.toGeo) hbase, h.live.ptr e he]
    exact ⟨h1, h2⟩
  have hblk : c.heap.blk ⟨0, (a - c.heap.bdBase) / LEAF_SIZE⟩ = a := by
    show c.heap.bdBase + (a - c.heap.bdBase) / LEAF_SIZE * (2 ^ 0 * LEAF_SIZE) = a
    unfold LEAF_SIZE at *
    omega
  have hfresh := hcan.fresh h.sound ((h.live.apart e he).mono hleaf) (.inl ⟨e, he, rfl⟩) hleaf
  rw [hblk] at hfresh
  refine hcan.rings.congr fun k hk z hz => ?_
  have hne : z ≠ a := fun hh => hfresh k hk (hh ▸ hz)
  exact ⟨by simp [Mem.setNext_of_ne _ hne], by simp [Mem.setPrev_of_ne _ hne]⟩

/-- **A permitted call returns and keeps the invariant.** -/
theorem inv_call {a : Act} (h : Inv m r c) (ha : Permitted c a) :
    ∃ c' t, call c a = .ok (c', t) ∧ Inv m r c' ∧ c'.heap.toGeo = c.heap.toGeo := by
  cases a with
  | malloc n => exact inv_malloc h ha
  | free p => exact inv_free h ha
  | store a x y => exact inv_store h ha

theorem permitted_of_ok {a : Act} (h : call c a = .ok (c', t)) : Permitted c a := by
  unfold call at h
  split at h
  · assumption
  · cases h

theorem WellFormed.inv {s : Sys} (h : WellFormed m r s) : Inv m r ⟨s, []⟩ where
  sound := sound_reserved h.pos h.small h.sizes h.heads (h.le.trans h.fits)
  le := h.le
  fits := h.fits
  live := ⟨by simp, by simp, by simp, List.Pairwise.nil, by simp⟩
  canon := by
    obtain ⟨L, hL⟩ := h.canon
    exact ⟨L, by rw [used_nil]; exact hL⟩

theorem inv_run {s0 : Sys} {acts : List Act} (h0 : WellFormed m r s0)
    (h : run call ⟨s0, []⟩ acts = .ok (c, t)) : Inv m r c ∧ c.heap.toGeo = s0.toGeo := by
  refine run_inv (I := fun c _ => Inv m r c ∧ c.heap.toGeo = s0.toGeo) ⟨h0.inv, rfl⟩ ?_ h
  intro c _ a c' t' hI hstep
  obtain ⟨c2, t2, hcall, hinv, hgeo⟩ := inv_call hI.1 (permitted_of_ok hstep)
  rw [hcall, Except.ok.injEq, Prod.mk.injEq] at hstep
  rw [← hstep.1]
  exact ⟨hinv, hgeo.trans hI.2⟩

/-! ### The partition of the heap -/

/-- What a byte of the heap can belong to. -/
inductive Owner
  | live (e : ℕ × ℕ)
  | free (k a : ℕ)
  | metadata
  | unavailable

/-- The bytes an owner has, when the free lists are `L`. -/
def Owner.Has (m r : ℕ) (c : Client) (L : ℕ → List ℕ) (x : ℕ) : Owner → Prop
  | .live e => e ∈ c.live ∧ e.1 ≤ x ∧ ∃ k, firstk e.2 = some k ∧ x < e.1 + blkSize k
  | .free k a => k < c.heap.nsizes ∧ a ∈ L k ∧ a ≤ x ∧ x < a + blkSize k
  | .metadata => c.heap.bdBase ≤ x ∧ x < leaf c.heap.toGeo m
  | .unavailable => leaf c.heap.toGeo r ≤ x ∧ x < c.heap.bdBase + c.heap.heapSize

/-- Live blocks, free blocks and the reserved ranges partition the heap; a live
block holds the bytes asked for and is aligned to its size. -/
structure Partition (m r : ℕ) (c : Client) (L : ℕ → List ℕ) : Prop where
  lists : Rings c.heap.links c.heap.nsizes c.heap.free L
  nodup : c.live.Nodup
  block : ∀ e ∈ c.live, ∃ k, firstk e.2 = some k ∧ e.2 ≤ blkSize k ∧
    c.heap.bdBase ≤ e.1 ∧ blkSize k ∣ e.1 - c.heap.bdBase
  inHeap : ∀ x o, Owner.Has m r c L x o →
    c.heap.bdBase ≤ x ∧ x < c.heap.bdBase + c.heap.heapSize
  cover : ∀ x, c.heap.bdBase ≤ x → x < c.heap.bdBase + c.heap.heapSize →
    ∃! o, Owner.Has m r c L x o

/-- The block an owner of a byte stands for. -/
def Owner.Is (m r : ℕ) (c : Client) (N : Node) : Owner → Prop
  | .live e => e ∈ c.live ∧ N = blockOf c.heap.toGeo e
  | .free k a => k = N.order ∧ a = c.heap.blk N ∧ Vacant (used c.heap.toGeo m r c.live) N
  | .metadata => N ∈ reserved c.heap.toGeo m r ∧ N.idx < m
  | .unavailable => N ∈ reserved c.heap.toGeo m r ∧ r ≤ N.idx

section

variable {L : ℕ → List ℕ} {x : ℕ} {o o' : Owner} {N N' : Node}

/-- The leaf of byte `x`. -/
def leafOf (g : Geo) (x : ℕ) : Node := ⟨0, (x - g.bdBase) / LEAF_SIZE⟩

theorem owner_node (h : Inv m r c) (hcan : CanonOf (used c.heap.toGeo m r c.live) c.heap L)
    (ho : Owner.Has m r c L x o) :
    c.heap.bdBase ≤ x ∧ ∃ N, c.heap.Has N ∧ leafOf c.heap.toGeo x ≤ N ∧ Owner.Is m r c N o := by
  cases o with
  | live e =>
    obtain ⟨he, h1, k, hk, h2⟩ := ho
    have hptr := h.live.ptr e he
    have hbase : c.heap.bdBase ≤ x := by
      unfold blk at hptr
      omega
    refine ⟨hbase, blockOf c.heap.toGeo e, h.live.has e he, ?_, he, rfl⟩
    apply (mem_blk_iff (g := c.heap.toGeo) hbase).mp
    have hord : (blockOf c.heap.toGeo e).order = k :=
      Option.some.inj ((h.live.size e he).1.symm.trans hk)
    rw [hptr, hord]
    exact ⟨h1, h2⟩
  | free k a =>
    obtain ⟨hk, ha, h1, h2⟩ := ho
    obtain ⟨i, hi, hv, rfl⟩ := (hcan.mem k hk a).mp ha
    have hbase : c.heap.bdBase ≤ x := by
      unfold blk at h1
      omega
    exact ⟨hbase, ⟨k, i⟩, hi, (mem_blk_iff (g := c.heap.toGeo) hbase).mp ⟨h1, h2⟩, rfl, rfl, hv⟩
  | metadata =>
    obtain ⟨h1, h2⟩ := ho
    have hlt : (x - c.heap.bdBase) / LEAF_SIZE < m := by
      unfold leaf LEAF_SIZE at *
      omega
    have hfit := lt_of_lt_of_le hlt (h.le.trans h.fits)
    exact ⟨h1, leafOf c.heap.toGeo x, ⟨h.sound.pos, hfit⟩, le_rfl, ⟨rfl, hfit, .inl hlt⟩, hlt⟩
  | unavailable =>
    obtain ⟨h1, h2⟩ := ho
    have hheap : c.heap.nblk 0 * LEAF_SIZE = c.heap.heapSize := rfl
    have hlt : r ≤ (x - c.heap.bdBase) / LEAF_SIZE ∧
        (x - c.heap.bdBase) / LEAF_SIZE < c.heap.nblk 0 ∧ c.heap.bdBase ≤ x := by
      unfold leaf LEAF_SIZE at *
      omega
    exact ⟨hlt.2.2, leafOf c.heap.toGeo x, ⟨h.sound.pos, hlt.2.1⟩, le_rfl,
      ⟨rfl, hlt.2.1, .inr hlt.1⟩, hlt.1⟩

/-- An owner stands for a used block or for a vacant one. -/
theorem Owner.Is.used_or_vacant (h : Owner.Is m r c N o) :
    N ∈ used c.heap.toGeo m r c.live ∨ Vacant (used c.heap.toGeo m r c.live) N := by
  cases o with
  | live e => exact .inl (.inl ⟨e, h.1, h.2⟩)
  | free k a => exact .inr h.2.2
  | metadata => exact .inl (.inr h.1)
  | unavailable => exact .inl (.inr h.1)

/-- Different used blocks share no leaf. -/
theorem Live.antichain (h : Live m r g live) {y : Node} (hN : N ∈ used g m r live)
    (hN' : N' ∈ used g m r live) (h1 : y ≤ N) (h2 : y ≤ N') : N = N' := by
  have hcomp := Node.le_total_above h1 h2
  rcases hN with ⟨e, he, rfl⟩ | hu
  · rcases hN' with ⟨e', he', rfl⟩ | hu'
    · by_contra hne
      have := h.unrelated he he' fun hh => hne (by rw [hh])
      exact hcomp.elim this.1 this.2
    · have := h.apart e he N' hu'
      exact absurd hcomp (not_or.mpr ⟨this.2, this.1⟩)
  · rcases hN' with ⟨e', he', rfl⟩ | hu'
    · have := h.apart e' he' N hu
      exact absurd hcomp (not_or.mpr this)
    · exact Node.eq_of_le_of_le h1 h2 (hu.1.trans hu'.1.symm)

/-- Owners of a common leaf stand for the same block. -/
theorem owner_node_unique (h : Inv m r c) {y : Node} (ho : Owner.Is m r c N o)
    (ho' : Owner.Is m r c N' o') (h1 : y ≤ N) (h2 : y ≤ N') : N = N' := by
  rcases ho.used_or_vacant with hu | hv
  · rcases ho'.used_or_vacant with hu' | hv'
    · exact h.live.antichain hu hu' h1 h2
    · exact absurd h1 (hv'.not_le hu h2)
  · rcases ho'.used_or_vacant with hu' | hv'
    · exact absurd h2 (hv.not_le hu' h1)
    · exact owner_unique hv hv' h1 h2

/-- A block stands for one owner only. -/
theorem owner_det (h : Inv m r c) (ho : Owner.Is m r c N o) (ho' : Owner.Is m r c N o') : o = o' := by
  have hnv : N ∈ used c.heap.toGeo m r c.live → ¬ Vacant (used c.heap.toGeo m r c.live) N :=
    fun hu hv => (hv.1 N hu).1 le_rfl
  have hlr : ∀ e ∈ c.live, N = blockOf c.heap.toGeo e → N ∉ reserved c.heap.toGeo m r := by
    intro e he hN hu
    exact (h.live.apart e he N hu).1 hN.le
  have hle := h.le
  cases o with
  | live e =>
    cases o' with
    | live e' =>
      by_contra hne
      have := h.live.unrelated ho.1 ho'.1 fun hh => hne (by rw [hh])
      exact this.1 (ho.2.symm.trans ho'.2).le
    | free k a => exact absurd ho'.2.2 (hnv (.inl ⟨e, ho.1, ho.2⟩))
    | metadata => exact absurd ho'.1 (hlr e ho.1 ho.2)
    | unavailable => exact absurd ho'.1 (hlr e ho.1 ho.2)
  | free k a =>
    cases o' with
    | live e' => exact absurd ho.2.2 (hnv (.inl ⟨e', ho'.1, ho'.2⟩))
    | free k' a' => rw [ho.1, ho'.1, ho.2.1, ho'.2.1]
    | metadata => exact absurd ho.2.2 (hnv (.inr ho'.1))
    | unavailable => exact absurd ho.2.2 (hnv (.inr ho'.1))
  | metadata =>
    cases o' with
    | live e' => exact absurd ho.1 (hlr e' ho'.1 ho'.2)
    | free k a => exact absurd ho'.2.2 (hnv (.inr ho.1))
    | metadata => rfl
    | unavailable =>
      have h1 := ho.2
      have h2 := ho'.2
      omega
  | unavailable =>
    cases o' with
    | live e' => exact absurd ho.1 (hlr e' ho'.1 ho'.2)
    | free k a => exact absurd ho'.2.2 (hnv (.inr ho.1))
    | metadata =>
      have h1 := ho.2
      have h2 := ho'.2
      omega
    | unavailable => rfl

theorem exists_owner_of_byte (h : Inv m r c)
    (hcan : CanonOf (used c.heap.toGeo m r c.live) c.heap L) (h1 : c.heap.bdBase ≤ x)
    (h2 : x < c.heap.bdBase + c.heap.heapSize) : ∃ o, Owner.Has m r c L x o := by
  have hheap : c.heap.nblk 0 * LEAF_SIZE = c.heap.heapSize := rfl
  have hn0 : c.heap.nblk 0 = 2 ^ c.heap.maxsize := rfl
  have hleaf : (x - c.heap.bdBase) / LEAF_SIZE < c.heap.nblk 0 := by
    unfold LEAF_SIZE at *
    omega
  -- the whole heap is busy: the list heads are reserved
  have hroot : Busy (used c.heap.toGeo m r c.live) (above c.heap.maxsize ((x - c.heap.bdBase) / LEAF_SIZE)) := by
    obtain ⟨y, hy, -⟩ := h.sound.heads 0 h.sound.pos
    refine ⟨⟨0, y⟩, .inr hy, Nat.zero_le _, ?_⟩
    show y / 2 ^ c.heap.maxsize = (x - c.heap.bdBase) / LEAF_SIZE / 2 ^ c.heap.maxsize
    rw [← hn0, Nat.div_eq_of_lt (show y < _ from hy.2.1), Nat.div_eq_of_lt hleaf]
  rcases exists_owner hroot with ⟨u, ⟨e, he, rfl⟩ | hu, hle⟩ | ⟨k, hk, hv⟩
  · have hptr := h.live.ptr e he
    have hsize := h.live.size e he
    rw [← mem_blk_iff (g := c.heap.toGeo) h1, hptr] at hle
    exact ⟨.live e, he, hle.1, _, hsize.1, hle.2⟩
  · have hx : (x - c.heap.bdBase) / LEAF_SIZE = u.idx := by
      have := hle.2
      rwa [hu.1, Nat.sub_self, Nat.pow_zero, Nat.div_one] at this
    rcases hu.2.2 with hm | hr
    · refine ⟨.metadata, h1, ?_⟩
      unfold leaf LEAF_SIZE at *
      omega
    · refine ⟨.unavailable, ?_, h2⟩
      unfold leaf LEAF_SIZE at *
      omega
  · have hk' : k < c.heap.nsizes := by
      unfold maxsize at hk
      omega
    have hhas : c.heap.Has (above k ((x - c.heap.bdBase) / LEAF_SIZE)) := by
      refine ⟨hk', ?_⟩
      show (x - c.heap.bdBase) / LEAF_SIZE / 2 ^ k < c.heap.nblk k
      rw [Nat.div_lt_iff_lt_mul (Nat.two_pow_pos k), nblk, ← Nat.pow_add, Nat.sub_add_cancel hk.le]
      exact hleaf
    have hmem := (hcan.mem_blk hhas).mpr hv
    have hin := (mem_blk_iff (g := c.heap.toGeo) h1).mpr (leaf_le_above k _)
    exact ⟨.free k _, hk', hmem, hin⟩

theorem partition_of_inv (h : Inv m r c)
    (hcan : CanonOf (used c.heap.toGeo m r c.live) c.heap L) : Partition m r c L where
  lists := hcan.rings
  nodup := h.live.pairwise.imp fun hun he => hun.1 (by rw [he])
  block e he := by
    have hptr := h.live.ptr e he
    have hsize := h.live.size e he
    unfold blk at hptr
    refine ⟨_, hsize.1, hsize.2, by omega, (blockOf c.heap.toGeo e).idx, ?_⟩
    rw [← hptr, Nat.add_sub_cancel_left, Nat.mul_comm]
  inHeap x o ho := by
    obtain ⟨hbase, N, hN, hle, -⟩ := owner_node h hcan ho
    have hin := (mem_blk_iff (g := c.heap.toGeo) hbase).mpr hle
    have hfit := hN.fits
    unfold blk at hin
    omega
  cover x h1 h2 := by
    obtain ⟨o, ho⟩ := exists_owner_of_byte h hcan h1 h2
    refine ⟨o, ho, fun o' ho' => ?_⟩
    obtain ⟨-, N, -, hle, hN⟩ := owner_node h hcan ho
    obtain ⟨-, N', -, hle', hN'⟩ := owner_node h hcan ho'
    obtain rfl := owner_node_unique h hN' hN hle' hle
    exact owner_det h hN' hN

end

/-- **The heap stays partitioned.** After every sequence of calls from a
well-formed heap, live blocks, the blocks on the free lists and the reserved
ranges partition the heap, and every call a client may make returns. -/
theorem partition_run {s0 : Sys} (h0 : WellFormed m r s0) (acts : List Act)
    (h : run call ⟨s0, []⟩ acts = .ok (c, t)) :
    (∃ L, Partition m r c L) ∧ ∀ a, Permitted c a → ∃ c' t', call c a = .ok (c', t') := by
  obtain ⟨hI, -⟩ := inv_run h0 h
  obtain ⟨L, hcan⟩ := hI.canon
  refine ⟨⟨L, partition_of_inv hI hcan⟩, fun a ha => ?_⟩
  obtain ⟨c', t', hcall, -⟩ := inv_call hI ha
  exact ⟨c', t', hcall⟩

/-- A heap set up by `bd_init` on a memory of a good size is well-formed. -/
theorem wellFormed_bdInit {base limit : ℕ} (hfit : metaEnd (initGeo base limit) < limit)
    (hbig : limit - (initGeo base limit).bdBase < 2 ^ 30)
    (hgood : Good (limit - (initGeo base limit).bdBase)) (mem : Mem ℕ) {s : Sys}
    (hs : bdInit mem base limit = .ok s) :
    WellFormed (metaLeaves s.toGeo) ((limit - s.bdBase) / LEAF_SIZE) s := by
  obtain ⟨s', L, hok, hgeo, hU, hcan, -⟩ := bdInit_of_good hfit hbig rfl hgood mem
  obtain ⟨he, hmr, -⟩ := apart_of_good hfit hbig rfl hgood
  rw [hs, Except.ok.injEq] at hok
  subst hok
  have hbase : s.bdSizes = s.bdBase := by rw [hgeo]; rfl
  rw [← hgeo] at hU hcan he hmr
  have hheap : s.nblk 0 * LEAF_SIZE = s.heapSize := rfl
  refine ⟨hU.pos, hU.small, hbase, two_mul_le_metaLeaves hU.pos, hmr, ?_, L, hcan⟩
  unfold LEAF_SIZE at *
  omega

theorem good_1000 : metaEnd (initGeo 4096 5096) < 5096 ∧
    5096 - (initGeo 4096 5096).bdBase < 2 ^ 30 ∧ Good (5096 - (initGeo 4096 5096).bdBase) := by
  refine ⟨by decide, by decide, .inr ⟨by decide, fun j hj => ?_⟩⟩
  have h1 : blkSize 5 < blkSize j := by rw [← hj]; decide
  have h2 : blkSize j < blkSize 6 := by rw [← hj]; decide
  have := blkSize_lt_iff.mp h1
  have := blkSize_lt_iff.mp h2
  omega

/-- Two blocks are taken, the smaller is freed and the other written to, then freed. -/
def sampleRun : List Act :=
  [.malloc 20, .malloc 100, .free 5056, .store 4864 1 2, .free 4864]

/-- The first `n` calls of the sample run, after `bd_init` of 1000 bytes. -/
def sample (n : ℕ) : Except Stop (Client × List (Option ℕ)) := do
  let s ← bdInit ⟨id, id⟩ 4096 5096
  run call ⟨s, []⟩ (sampleRun.take n)

theorem sample_ok {n : ℕ} (h : stopOf (sample n) = none) : ∃ s c t,
    bdInit ⟨id, id⟩ 4096 5096 = .ok s ∧ sample n = .ok (c, t) ∧
      run call ⟨s, []⟩ (sampleRun.take n) = .ok (c, t) := by
  unfold sample at h ⊢
  cases hs : bdInit ⟨id, id⟩ 4096 5096 with
  | error e =>
    rw [hs] at h
    cases h
  | ok s =>
    rw [hs] at h
    cases hr : run call ⟨s, []⟩ (sampleRun.take n) with
    | error e =>
      simp only [bind, Except.bind, hr] at h
      cases h
    | ok v => exact ⟨s, v.1, v.2, rfl, hr, hr⟩

theorem partition_run_sample : ∃ s c t, bdInit ⟨id, id⟩ 4096 5096 = .ok s ∧
    sample 3 = .ok (c, t) ∧ ∃ L, Partition (metaLeaves s.toGeo) ((5096 - s.bdBase) / LEAF_SIZE) c L := by
  obtain ⟨s, c, t, hs, hsample, hrun⟩ := sample_ok (n := 3) (by decide +kernel)
  have hwf := wellFormed_bdInit good_1000.1 good_1000.2.1 good_1000.2.2 _ hs
  exact ⟨s, c, t, hs, hsample, (partition_run hwf _ hrun).1⟩

/-! ### Coalescing -/

/-- Buddies are not both vacant. -/
theorem not_vacant_sib {U : Set Node} {N : Node} (h : Vacant U N) : ¬ Vacant U N.sib := by
  intro h'
  obtain ⟨u, hu, hle⟩ := h.2
  have hlt : u < N.parent := lt_of_le_of_ne hle fun he => (h.1 u hu).2 (he ▸ (Node.lt_parent N).le)
  rcases Node.lt_parent_iff.mp hlt with h1 | h1
  · exact (h.1 u hu).1 h1
  · exact (h'.1 u hu).1 h1

/-- The free lists of a state, and its bits, are determined by the blocks in use. -/
theorem canon_unique {U : Set Node} {s s' : Sys} {L L' : ℕ → List ℕ} (h : CanonOf U s L)
    (h' : CanonOf U s' L') (hg : s'.toGeo = s.toGeo) :
    (∀ k < s.nsizes, (L' k).Perm (L k)) ∧ ∀ N, s.Has N →
      s'.alloc N.order N.idx = s.alloc N.order N.idx ∧
      (0 < N.order → s'.split N.order N.idx = s.split N.order N.idx) := by
  unfold CanonOf at h'
  rw [hg] at h'
  refine ⟨fun k hk => ?_, fun N hN => ⟨?_, fun h0 => ?_⟩⟩
  · have hd := (List.nodup_cons.mp (h.rings.nodup k hk)).2
    have hd' := (List.nodup_cons.mp (h'.rings.nodup k hk)).2
    exact (List.perm_ext_iff_of_nodup hd' hd).mpr fun a => (h'.mem k hk a).trans (h.mem k hk a).symm
  · rw [Bool.eq_iff_iff, h'.alloc N hN, h.alloc N hN]
  · rw [Bool.eq_iff_iff, h'.split N hN h0, h.split N hN h0]

/-- **Freeing everything restores the heap.** If no block is live after a
sequence of calls from a well-formed heap, each free list holds what it held at
the start and every bit is what it was; and at no time are two buddies on a
free list. -/
theorem coalesce_run {s0 : Sys} (h0 : WellFormed m r s0) (acts : List Act)
    (h : run call ⟨s0, []⟩ acts = .ok (c, t)) :
    c.heap.toGeo = s0.toGeo ∧ ∀ L, Rings c.heap.links c.heap.nsizes c.heap.free L →
      (c.live = [] → ∀ L0, Rings s0.links s0.nsizes s0.free L0 →
        (∀ k < s0.nsizes, (L k).Perm (L0 k)) ∧ ∀ N, s0.Has N →
          c.heap.alloc N.order N.idx = s0.alloc N.order N.idx ∧
          (0 < N.order → c.heap.split N.order N.idx = s0.split N.order N.idx)) ∧
      ∀ k < c.heap.nsizes, ∀ i, c.heap.Has ⟨k, i⟩ →
        ¬ (c.heap.blk ⟨k, i⟩ ∈ L k ∧ c.heap.blk (Node.sib ⟨k, i⟩) ∈ L k) := by
  obtain ⟨hI, hgeo⟩ := inv_run h0 h
  obtain ⟨L', hcan⟩ := hI.canon
  refine ⟨hgeo, fun L hL => ?_⟩
  have hLL := hL.unique hcan.rings
  refine ⟨fun hlive L0 hL0 => ?_, fun k hk i hi => ?_⟩
  · obtain ⟨L0', hcan0⟩ := h0.canon
    rw [hlive, used_nil, hgeo] at hcan
    obtain ⟨hlists, hbits⟩ := canon_unique hcan0 hcan hgeo
    refine ⟨fun k hk => ?_, hbits⟩
    rw [hLL k (hgeo ▸ hk), hL0.unique hcan0.rings k hk]
    exact hlists k hk
  · rw [hLL k hk]
    intro ⟨h1, h2⟩
    have hv := (hcan.mem_blk hi).mp h1
    have hv' := (hcan.mem_blk (hi.sib (hI.live.sound hI.sound |>.order_lt hi hv.1))).mp h2
    exact not_vacant_sib hv hv'

theorem coalesce_run_sample : ∃ s c t, bdInit ⟨id, id⟩ 4096 5096 = .ok s ∧
    sample 5 = .ok (c, t) ∧ c.live = [] ∧
    ∀ N, s.Has N → c.heap.alloc N.order N.idx = s.alloc N.order N.idx := by
  obtain ⟨s, c, t, hs, hsample, hrun⟩ := sample_ok (n := 5) (by decide +kernel)
  have hlive : c.live = [] := by
    have h : (match sample 5 with | .ok v => v.1.live.length | .error _ => 1) = 0 := by
      decide +kernel
    rw [hsample] at h
    exact List.length_eq_zero_iff.mp h
  have hwf := wellFormed_bdInit good_1000.1 good_1000.2.1 good_1000.2.2 _ hs
  obtain ⟨L, hL⟩ := hwf.canon
  obtain ⟨L', hpart⟩ := (inv_run hwf hrun).1.canon
  refine ⟨s, c, t, hs, hsample, hlive, fun N hN => ?_⟩
  exact (((coalesce_run hwf _ hrun).2 L' hpart.rings).1 hlive L hL.rings).2 N hN |>.1

/-- **The heap has no memory of its past.** Two sequences of calls from a
well-formed heap that leave the same blocks live leave the same bits, and the
same blocks on each free list. -/
theorem heap_of_live {s0 : Sys} {acts acts' : List Act} {t' : List (Option ℕ)} {L L' : ℕ → List ℕ}
    (h0 : WellFormed m r s0) (h : run call ⟨s0, []⟩ acts = .ok (c, t)) (h' : run call ⟨s0, []⟩ acts' = .ok (c', t'))
    (hlive : c'.live.Perm c.live) (hL : Rings c.heap.links c.heap.nsizes c.heap.free L)
    (hL' : Rings c'.heap.links c'.heap.nsizes c'.heap.free L') :
    (∀ k < s0.nsizes, (L' k).Perm (L k)) ∧ ∀ N, s0.Has N →
      c'.heap.alloc N.order N.idx = c.heap.alloc N.order N.idx ∧
      (0 < N.order → c'.heap.split N.order N.idx = c.heap.split N.order N.idx) := by
  obtain ⟨hI, hg⟩ := inv_run h0 h
  obtain ⟨hI', hg'⟩ := inv_run h0 h'
  obtain ⟨K, hcan⟩ := hI.canon
  obtain ⟨K', hcan'⟩ := hI'.canon
  rw [hg', ← hg, used_perm hlive] at hcan'
  obtain ⟨hlists, hbits⟩ := canon_unique hcan hcan' (hg'.trans hg.symm)
  refine ⟨fun k hk => ?_, hg ▸ hbits⟩
  rw [hL.unique hcan.rings k (hg ▸ hk), hL'.unique hcan'.rings k (hg' ▸ hk)]
  exact hlists k (hg ▸ hk)

/-- A block that was split off and merged again has left no trace. -/
theorem heap_of_live_sample : ∃ s c t c' t', bdInit ⟨id, id⟩ 4096 5096 = .ok s ∧
    run call ⟨s, []⟩ [.malloc 20, .malloc 100, .free 5056] = .ok (c, t) ∧
    run call ⟨s, []⟩ [.malloc 100] = .ok (c', t') ∧
    ∀ N, s.Has N → c'.heap.alloc N.order N.idx = c.heap.alloc N.order N.idx := by
  obtain ⟨s, hs, hrest⟩ := okWith_iff.mp (show okWith (bdInit ⟨id, id⟩ 4096 5096)
    (fun s => okWith (run call ⟨s, []⟩ [.malloc 20, .malloc 100, .free 5056]) fun r =>
      okWith (run call ⟨s, []⟩ [.malloc 100]) fun r' => decide (r'.1.live = r.1.live)) = true by decide +kernel)
  obtain ⟨⟨c, t⟩, h, hrest⟩ := okWith_iff.mp hrest
  obtain ⟨⟨c', t'⟩, h', hlive⟩ := okWith_iff.mp hrest
  have hwf := wellFormed_bdInit good_1000.1 good_1000.2.1 good_1000.2.2 _ hs
  obtain ⟨L, hcan⟩ := (inv_run hwf h).1.canon
  obtain ⟨L', hcan'⟩ := (inv_run hwf h').1.canon
  exact ⟨s, c, t, c', t', hs, h, h', fun N hN => ((heap_of_live hwf h h' (.of_eq (of_decide_eq_true hlive))
    hcan.rings hcan'.rings).2 N hN).1⟩

/-! ### When there is no block -/

/-- The byte at `x` lies in no live block and in no reserved range. -/
def Idle (m r : ℕ) (c : Client) (x : ℕ) : Prop :=
  (∀ e ∈ c.live, ∀ k, firstk e.2 = some k → ¬ (e.1 ≤ x ∧ x < e.1 + blkSize k)) ∧
    ¬ x < leaf c.heap.toGeo m ∧ ¬ leaf c.heap.toGeo r ≤ x

/-- The leaf of a byte that is not idle lies in a block in use. -/
theorem not_idle_iff {x : ℕ} (h : Inv m r c) (h1 : c.heap.bdBase ≤ x) (h2 : x < c.heap.bdBase + c.heap.heapSize) :
    ¬ Idle m r c x ↔ ∃ u ∈ used c.heap.toGeo m r c.live, leafOf c.heap.toGeo x ≤ u := by
  have hlive : ∀ e ∈ c.live, ∀ k, firstk e.2 = some k →
      (e.1 ≤ x ∧ x < e.1 + blkSize k ↔ leafOf c.heap.toGeo x ≤ blockOf c.heap.toGeo e) := by
    intro e he k hk
    obtain rfl : (blockOf c.heap.toGeo e).order = k := Option.some.inj ((h.live.size e he).1.symm.trans hk)
    rw [leafOf, ← mem_blk_iff (g := c.heap.toGeo) h1, h.live.ptr e he]
  have hres : (x < leaf c.heap.toGeo m ∨ leaf c.heap.toGeo r ≤ x) ↔
      leafOf c.heap.toGeo x ∈ reserved c.heap.toGeo m r := by
    have hheap : c.heap.nblk 0 * LEAF_SIZE = c.heap.heapSize := rfl
    simp only [reserved, leafOf, leaf, LEAF_SIZE, Set.mem_ofPred_eq, true_and] at hheap ⊢
    omega
  constructor
  · intro hi
    by_cases hr : x < leaf c.heap.toGeo m ∨ leaf c.heap.toGeo r ≤ x
    · exact ⟨_, .inr (hres.mp hr), le_rfl⟩
    · by_contra hno
      refine hi ⟨fun e he k hk hx => hno ⟨_, .inl ⟨e, he, rfl⟩, (hlive e he k hk).mp hx⟩, ?_⟩
      exact not_or.mp hr
  · rintro ⟨u, ⟨e, he, rfl⟩ | hu, hle⟩ hi
    · exact hi.1 e he _ (h.live.size e he).1 ((hlive e he _ (h.live.size e he).1).mpr hle)
    · have hleaf : leafOf c.heap.toGeo x = u :=
        Node.eq_of_le_of_order hle (le_antisymm hle.1 (by rw [hu.1]; exact Nat.zero_le _))
      exact (hres.mpr (hleaf ▸ hu)).elim hi.2.1 hi.2.2

/-- A block meets no block in use iff all its bytes are idle. -/
theorem apart_iff_idle {N : Node} (h : Inv m r c) (hN : c.heap.Has N) :
    Apart (used c.heap.toGeo m r c.live) N ↔
      ∀ x, c.heap.blk N ≤ x → x < c.heap.blk N + blkSize N.order → Idle m r c x := by
  have hfit := hN.fits
  have hbase : ∀ x, c.heap.blk N ≤ x → c.heap.bdBase ≤ x := fun x hx => (Nat.le_add_right _ _).trans hx
  have hend : ∀ x, x < c.heap.blk N + blkSize N.order → x < c.heap.bdBase + c.heap.heapSize := by
    intro x hx
    unfold blk at hx
    omega
  constructor
  · intro hap x h1 h2
    by_contra hx
    obtain ⟨u, hu, hle⟩ := (not_idle_iff h (hbase x h1) (hend x h2)).mp hx
    have hN' := (mem_blk_iff (g := c.heap.toGeo) (hbase x h1)).mp ⟨h1, h2⟩
    exact (Node.le_total_above hle hN').elim (hap u hu).1 (hap u hu).2
  · intro hidle u hu
    -- the first byte of the smaller one of two nested blocks lies in both
    have hmeets : ∀ A : Node, A ≤ N → A ≤ u → False := by
      intro A hAN hAu
      have hA : leafOf c.heap.toGeo (c.heap.blk A) ≤ A :=
        (mem_blk_iff (g := c.heap.toGeo) (Nat.le_add_right _ _)).mp
          ⟨le_rfl, Nat.lt_add_of_pos_right (blkSize_pos _)⟩
      have hin : c.heap.blk N ≤ c.heap.blk A ∧ c.heap.blk A < c.heap.blk N + blkSize N.order :=
        (mem_blk_iff (g := c.heap.toGeo) (Nat.le_add_right _ _)).mpr (hA.trans hAN)
      exact (not_idle_iff h (hbase _ hin.1) (hend _ hin.2)).mpr ⟨u, hu, hA.trans hAu⟩ (hidle _ hin.1 hin.2)
    exact ⟨fun hle => hmeets u hle le_rfl, fun hle => hmeets N le_rfl hle⟩

/-- Some aligned place for a block of size `k` meets no live block and no reserved range. -/
def Room (m r : ℕ) (c : Client) (k : ℕ) : Prop :=
  ∃ off, blkSize k ∣ off ∧ off + blkSize k ≤ c.heap.heapSize ∧
    ∀ x, c.heap.bdBase + off ≤ x → x < c.heap.bdBase + off + blkSize k → Idle m r c x

theorem room_iff {k : ℕ} (h : Inv m r c) (hk : k < c.heap.nsizes) :
    Room m r c k ↔ ∃ N, N.order = k ∧ c.heap.Has N ∧ Apart (used c.heap.toGeo m r c.live) N := by
  constructor
  · rintro ⟨off, ⟨i, rfl⟩, hfit, hidle⟩
    have hheap : c.heap.heapSize = blkSize k * c.heap.nblk k := by
      have hM : c.heap.maxsize = k + (c.heap.maxsize - k) := by
        unfold maxsize
        omega
      rw [heapSize, hM, blkSize_add, Nat.mul_comm]
      rfl
    have hN : c.heap.Has ⟨k, i⟩ := by
      refine ⟨hk, Nat.lt_of_mul_lt_mul_left (a := blkSize k) ?_⟩
      show blkSize k * i < blkSize k * c.heap.nblk k
      rw [← hheap]
      exact lt_of_lt_of_le (Nat.lt_add_of_pos_right (blkSize_pos k)) hfit
    refine ⟨⟨k, i⟩, rfl, hN, (apart_iff_idle h hN).mpr ?_⟩
    rw [show c.heap.blk ⟨k, i⟩ = c.heap.bdBase + blkSize k * i by rw [Nat.mul_comm]; rfl]
    exact hidle
  · rintro ⟨N, rfl, hN, hap⟩
    exact ⟨N.idx * blkSize N.order, ⟨N.idx, Nat.mul_comm ..⟩, hN.fits, (apart_iff_idle h hN).mp hap⟩

/-- The whole heap is busy: the list heads are reserved. -/
theorem Inv.root_busy (h : Inv m r c) : Busy (used c.heap.toGeo m r c.live) ⟨c.heap.maxsize, 0⟩ := by
  obtain ⟨y, hy, -⟩ := h.sound.heads 0 h.sound.pos
  exact ⟨⟨0, y⟩, .inr hy, Nat.zero_le _, Nat.div_eq_of_lt hy.2.1⟩

/-- **`bd_malloc` fails only when it must.** After every sequence of calls from a
well-formed heap it returns null iff there is no room for a block of the size, and
then nothing has changed. -/
theorem malloc_null_iff {s0 : Sys} {n : ℕ} (h0 : WellFormed m r s0) (acts : List Act)
    (h : run call ⟨s0, []⟩ acts = .ok (c, t)) (hn : n ≤ c.heap.heapSize) :
    ∃ k p s, firstk n = some k ∧ bdMalloc n c.heap = .ok (p, s) ∧ (p = none ↔ ¬ Room m r c k) ∧
      (p = none → s = c.heap) := by
  obtain ⟨hI, -⟩ := inv_run h0 h
  obtain ⟨L, hcan⟩ := hI.canon
  have hU := hI.live.sound hI.sound
  obtain ⟨k, hk, hlt, -, -⟩ := firstk_spec hU hn
  rcases bdMalloc_spec hU hcan hk with ⟨hnone, hempty⟩ | ⟨N, s, -, hsome, -, ho, hN, hap, -⟩
  · refine ⟨k, none, c.heap, hk, hnone, iff_of_true rfl fun hroom => ?_, fun _ => rfl⟩
    obtain ⟨N, rfl, hN, hap⟩ := (room_iff hI hlt).mp hroom
    -- a block with room lies in a free one, which is on a list
    have hroot : N ≤ ⟨c.heap.maxsize, 0⟩ := by
      refine ⟨?_, Nat.div_eq_of_lt hN.2⟩
      show N.order ≤ c.heap.nsizes - 1
      omega
    obtain ⟨v, hNv, hv, hvac⟩ := hap.exists_vacant hroot hI.root_busy
    have hroot' : c.heap.Has ⟨c.heap.maxsize, 0⟩ := ⟨Nat.sub_lt hI.sound.pos Nat.one_pos, Nat.two_pow_pos _⟩
    have hhas : c.heap.Has v := hroot'.mono hv
    have hmem := (hcan.mem_blk hhas).mpr hvac
    rw [hempty v.order hNv.1 hhas.1] at hmem
    cases hmem
  · refine ⟨k, some (c.heap.blk N), s, hk, hsome, iff_of_false (by simp) ?_, fun hp => by cases hp⟩
    exact not_not.mpr ((room_iff hI hlt).mpr ⟨N, ho, hN, hap⟩)

/-- In a heap of 1000 bytes no block of 1024 can be had. -/
theorem malloc_null_iff_sample : ∃ s c t, bdInit ⟨id, id⟩ 4096 5096 = .ok s ∧ sample 3 = .ok (c, t) ∧
    ∃ k p s', firstk 1024 = some k ∧ bdMalloc 1024 c.heap = .ok (p, s') ∧ (p = none ↔ ¬ Room
      (metaLeaves s.toGeo) ((5096 - s.bdBase) / LEAF_SIZE) c k) ∧ (p = none → s' = c.heap) := by
  obtain ⟨s, c, t, hs, hsample, hrun⟩ := sample_ok (n := 3) (by decide +kernel)
  have hwf := wellFormed_bdInit good_1000.1 good_1000.2.1 good_1000.2.2 _ hs
  have hheap : 1024 ≤ c.heap.heapSize := by
    have h : (match sample 3 with | .ok v => decide (1024 ≤ v.1.heap.heapSize) | .error _ => false) = true := by
      decide +kernel
    rw [hsample] at h
    exact of_decide_eq_true h
  exact ⟨s, c, t, hs, hsample, malloc_null_iff hwf _ hrun hheap⟩

/-! ### Requests that are too large -/

/-- `size` is 0 after it wrapped, and stays 0. -/
theorem firstkLoop_zero {n : ℕ} (hn : 0 < n) (f : ℕ) : ∀ k, firstkLoop n f k 0 = none := by
  induction f with
  | zero => exact fun _ => rfl
  | succ f ih =>
    intro k
    rw [firstkLoop, if_pos hn]
    exact ih (k + 1)

/-- Above `2 ^ 63` the loop of `firstk` does not end. -/
theorem firstkLoop_large {n : ℕ} (hn : 2 ^ 63 < n) (f : ℕ) : ∀ k ≤ 59, firstkLoop n f k (blkSize k) = none := by
  induction f with
  | zero => exact fun _ _ => rfl
  | succ f ih =>
    intro k hk
    have hle : blkSize k ≤ 2 ^ 63 := by
      calc blkSize k ≤ blkSize 59 := Nat.mul_le_mul_right _ (Nat.pow_le_pow_right (by decide) hk)
        _ = 2 ^ 63 := by decide
    have hdouble : blkSize k * 2 = blkSize (k + 1) := by
      rw [blkSize_add, Nat.pow_one, Nat.mul_comm]
    rw [firstkLoop, if_pos (lt_of_le_of_lt hle hn), hdouble]
    rcases Nat.lt_or_ge k 59 with hlt | hge
    · have hsmall : blkSize (k + 1) < 2 ^ 64 := by
        calc blkSize (k + 1) ≤ blkSize 59 := Nat.mul_le_mul_right _ (Nat.pow_le_pow_right (by decide) hlt)
          _ < 2 ^ 64 := by decide
      rw [Nat.mod_eq_of_lt hsmall]
      exact ih (k + 1) hlt
    · obtain rfl : k = 59 := by omega
      rw [show blkSize (59 + 1) % 2 ^ 64 = 0 by decide]
      exact firstkLoop_zero (by omega) f _

/-- `firstk(n)` ends with the least size for `n` bytes; `bd_malloc(n)` returns, and returns
0 if `n` is more than the heap. -/
structure Served (c : Client) (n : ℕ) : Prop where
  first : ∃ f k, firstkLoop n f 0 LEAF_SIZE = some k ∧ n ≤ blkSize k ∧ ∀ j < k, blkSize j < n
  returns : ∃ p s, bdMalloc n c.heap = .ok (p, s) ∧ (c.heap.heapSize < n → p = none)

/-- **A request is served iff it is at most `2 ^ 63` bytes.** -/
theorem served_iff {s0 : Sys} (h0 : WellFormed m r s0) (acts : List Act) (h : run call ⟨s0, []⟩ acts = .ok (c, t))
    (n : ℕ) : Served c n ↔ n ≤ 2 ^ 63 := by
  constructor
  · intro hs
    by_contra hgt
    obtain ⟨f, k, hk, -⟩ := hs.first
    have hnone := firstkLoop_large (Nat.lt_of_not_le hgt) f 0 (Nat.zero_le _)
    rw [show blkSize 0 = LEAF_SIZE by decide, hk] at hnone
    cases hnone
  · intro hn
    obtain ⟨hI, -⟩ := inv_run h0 h
    obtain ⟨L, hcan⟩ := hI.canon
    have hU := hI.live.sound hI.sound
    obtain ⟨k, hk, -, hle, hleast⟩ := firstkLoop_spec (M := 59) (n := n) (le_trans hn (by decide)) (by decide) 65 0
      (Nat.zero_le _) (by decide)
    have hfk : firstk n = some k := hk
    refine ⟨⟨65, k, hk, hle, fun j hj => hleast j (Nat.zero_le _) hj⟩, ?_⟩
    rcases bdMalloc_spec hU hcan hfk with ⟨hnone, -⟩ | ⟨N, s, -, hsome, -, ho, hN, -⟩
    · exact ⟨none, c.heap, hnone, fun _ => rfl⟩
    · refine ⟨_, s, hsome, fun hbig => ?_⟩
      -- a block of the heap is not larger than the heap
      have hord : k ≤ c.heap.maxsize := by
        rw [← ho]
        exact Nat.le_sub_one_of_lt hN.1
      have hheap : blkSize k ≤ c.heap.heapSize := Nat.mul_le_mul_right _ (Nat.pow_le_pow_right (by decide) hord)
      omega

theorem served_iff_sample : ∃ s c t, bdInit ⟨id, id⟩ 4096 5096 = .ok s ∧ sample 3 = .ok (c, t) ∧
    (Served c (2 ^ 32) ↔ 2 ^ 32 ≤ 2 ^ 63) := by
  obtain ⟨s, c, t, hs, hsample, hrun⟩ := sample_ok (n := 3) (by decide +kernel)
  have hwf := wellFormed_bdInit good_1000.1 good_1000.2.1 good_1000.2.2 _ hs
  exact ⟨s, c, t, hs, hsample, served_iff hwf _ hrun (2 ^ 32)⟩

/-- `bd_malloc(2^63 + 1)` in a heap of 1000 bytes. -/
theorem firstk_endless : ∃ s, bdInit ⟨id, id⟩ 4096 5096 = .ok s ∧ ¬ Served ⟨s, []⟩ (2 ^ 63 + 1) := by
  obtain ⟨s, c, t, hs, -, -⟩ := sample_ok (n := 0) (by decide +kernel)
  refine ⟨s, hs, fun hserved => ?_⟩
  obtain ⟨f, k, hk, -⟩ := hserved.first
  have hnone := firstkLoop_large (show 2 ^ 63 < 2 ^ 63 + 1 by decide) f 0 (Nat.zero_le _)
  rw [show blkSize 0 = LEAF_SIZE by decide, hk] at hnone
  cases hnone

/-! ### The size of a live block -/

/-- A call as in `call`, with any number of bytes to ask for. -/
def request (c : Client) : Act → Except Stop (Client × List (Option ℕ))
  | .malloc n => do
    let (p, s) ← bdMalloc n c.heap
    match p with
    | none => .ok ({ c with heap := s }, [none])
    | some p => .ok ({ heap := s, live := (p, n) :: c.live }, [some p])
  | .free p => call c (.free p)
  | .store a x y => call c (.store a x y)

/-- If `firstk` ends, the block it says is large enough. -/
theorem le_of_firstk {n fk : ℕ} (h : firstk n = some fk) : n ≤ blkSize fk := by
  by_cases hn : n ≤ 2 ^ 63
  · obtain ⟨k, hk, -, hle, -⟩ := firstkLoop_spec (M := 59) (n := n) (le_trans hn (by decide)) (by decide) 65 0
      (Nat.zero_le _) (by decide)
    have hfk : firstk n = some k := hk
    obtain rfl := Option.some.inj (h.symm.trans hfk)
    exact hle
  · have hnone := firstkLoop_large (Nat.lt_of_not_le hn) 65 0 (Nat.zero_le _)
    rw [show blkSize 0 = LEAF_SIZE by decide] at hnone
    have hfk : firstk n = none := hnone
    rw [hfk] at h
    cases h

theorem inv_request {a : Act} (h : Inv m r c) (hr : request c a = .ok (c', t)) : Inv m r c' := by
  have hcall : call c a = .ok (c', t) → Inv m r c' := by
    intro hc
    obtain ⟨c2, t2, hcall, hinv, -⟩ := inv_call h (permitted_of_ok hc)
    rw [hcall, Except.ok.injEq, Prod.mk.injEq] at hc
    rw [← hc.1]
    exact hinv
  cases a with
  | malloc n =>
    rw [request] at hr
    cases hfk : firstk n with
    | none =>
      rw [bdMalloc, hfk] at hr
      cases hr
    | some fk =>
      rcases malloc_cases h hfk (le_of_firstk hfk) with hnone | ⟨p, s', hsome, hinv, -⟩
      · rw [hnone] at hr
        obtain ⟨rfl, -⟩ := Prod.mk.inj (Except.ok.inj hr)
        exact h
      · rw [hsome] at hr
        obtain ⟨rfl, -⟩ := Prod.mk.inj (Except.ok.inj hr)
        exact hinv
  | free p => exact hcall hr
  | store a x y => exact hcall hr

/-- The order of a live block is found again. -/
theorem Inv.size_eq (h : Inv m r c) {e : ℕ × ℕ} (he : e ∈ c.live) :
    size c.heap e.1 = .ok (blockOf c.heap.toGeo e).order ∧ (blockOf c.heap.toGeo e).order + 1 < c.heap.nsizes := by
  obtain ⟨L, hcan⟩ := h.canon
  have hperm : c.live.Perm (e :: c.live.erase e) := List.perm_cons_erase he
  obtain ⟨hrest, hap⟩ := (h.live.perm hperm).tail
  have hU := hrest.sound h.sound
  have hN := h.live.has e he
  rw [used_perm hperm, used_cons] at hcan
  have hsize := size_spec hU hN hap hcan
  rw [show c.heap.blk (blockOf c.heap.toGeo e) = e.1 from h.live.ptr e he] at hsize
  exact ⟨hsize, hU.order_lt hN hap⟩

/-- **`size` recovers the order at which a live block was allocated**, with its loop ended
below `MAXSIZE`: at every live pointer, in every state that calls reach. -/
theorem size_recovers {s0 : Sys} (h0 : WellFormed m r s0) (acts : List Act) (h : run request ⟨s0, []⟩ acts = .ok (c, t))
    {p n : ℕ} (hp : (p, n) ∈ c.live) : ∃ k, firstk n = some k ∧ size c.heap p = .ok k ∧ k + 1 ≤ c.heap.maxsize := by
  have hI : Inv m r c := run_inv (I := fun c _ => Inv m r c) h0.inv (fun _ _ _ _ _ hI hstep => inv_request hI hstep) h
  obtain ⟨hsize, hlt⟩ := hI.size_eq hp
  exact ⟨_, (hI.live.size _ hp).1, hsize, Nat.le_sub_one_of_lt hlt⟩

theorem size_recovers_sample : ∃ s c t, bdInit ⟨id, id⟩ 4096 5096 = .ok s ∧
    run request ⟨s, []⟩ [.malloc 20, .malloc 2000] = .ok (c, t) ∧ (5056, 20) ∈ c.live ∧
    ∃ k, firstk 20 = some k ∧ size c.heap 5056 = .ok k ∧ k + 1 ≤ c.heap.maxsize := by
  obtain ⟨s, hs, hrest⟩ := okWith_iff.mp (show okWith (bdInit ⟨id, id⟩ 4096 5096)
    (fun s => okWith (run request ⟨s, []⟩ [.malloc 20, .malloc 2000]) fun r => decide ((5056, 20) ∈ r.1.live)) = true by
      decide +kernel)
  obtain ⟨⟨c, t⟩, hrun, hmem⟩ := okWith_iff.mp hrest
  have hwf := wellFormed_bdInit good_1000.1 good_1000.2.1 good_1000.2.2 _ hs
  have hp : (5056, 20) ∈ c.live := of_decide_eq_true hmem
  exact ⟨s, c, t, hs, hrun, hp, size_recovers hwf _ hrun hp⟩

end Buddy
end Xv6
