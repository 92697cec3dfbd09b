/-
# The free list of the allocator

`Heap base s l us` is the invariant: `l` are the free blocks in the order of their addresses,
`us` the others. The free blocks are linked into a circle with `base`, between two of them
there is always a gap, and all blocks together tile the regions that `sbrk` has given.

`free` finds the place of a block (`freeLoop_eq`) since on the circle there is only one node
before it, from which the next one is after it or `base` again; then `joinNext` and `joinPrev`
keep the blocks apart (`free_spec`). `malloc` goes round once, and once more if there is a new
region, and then it does find a block (`malloc_spec`).

This is so as long as sizes fit their types. The argument of `sbrk` is an `int`, so for more
than that `morecore` gets less than it takes itself to have (`malloc_huge`).

Key definitions: `Umalloc.Heap`, `Umalloc.Represents`, `Umalloc.Fits`.
Key theorems: `Umalloc.free_spec`, `Umalloc.malloc_spec`, `Umalloc.malloc_represents`.
-/
import Xv6.Circle
import Xv6.Tiling
import Xv6.Trace
import Xv6.Umalloc

namespace Xv6
namespace Umalloc

open Circular Tiling

variable {base bp : ℕ} {s s' : State} {l u v us : List ℕ}

namespace State

/-- The block at an address, in bytes. -/
def block (s : State) (a : ℕ) : ℕ × ℕ := (a, 16 * s.size a)

variable (s) (p q n : ℕ)

@[simp] theorem setPtr_size : (s.setPtr p q).size = s.size := rfl
@[simp] theorem setSize_ptr : (s.setSize p n).ptr = s.ptr := rfl
@[simp] theorem setPtr_ptr : (s.setPtr p q).ptr = Function.update s.ptr p q := rfl
@[simp] theorem setSize_size : (s.setSize p n).size = Function.update s.size p (n % 2 ^ 32) := rfl

end State

/-- The headers are the same at the addresses of a list, so the blocks are too. -/
theorem map_block (h : ∀ a ∈ l, s'.size a = s.size a) : l.map s'.block = l.map s.block :=
  List.map_congr_left fun a ha => by rw [State.block, State.block, h a ha]

/-! ### The invariant -/

structure Heap (base : ℕ) (s : State) (l us : List ℕ) : Prop where
  circle : Circle s.ptr base l
  freep : s.freep ∈ base :: l
  base_size : s.size base = 0
  gaps : l.Pairwise fun a b => s.stop a < b
  low : ∀ a ∈ l ++ us, base + 16 ≤ a
  aligned : ∀ a ∈ l ++ us, a % 16 = 0
  tiles : Tiles ((l ++ us).map s.block) s.regions

theorem tiles_pos {bs : List ℕ} (h : Tiles (bs.map s.block) s.regions) {a : ℕ} (ha : a ∈ bs) : 0 < s.size a := by
  have := h.pos _ (List.mem_map_of_mem ha)
  simp only [State.block] at this
  omega

theorem tiles_nodup {bs : List ℕ} (h : Tiles (bs.map s.block) s.regions) : bs.Nodup := by
  have hpos : ∀ a ∈ bs, 0 < s.size a := fun a ha => tiles_pos h ha
  refine (List.pairwise_map.mp h.apart).imp_of_mem fun {a b} ha _ hab heq => ?_
  have := hpos a ha
  subst heq
  simp only [Apart, State.block] at hab
  omega

/-- There are no more blocks than headers. -/
theorem length_le_total {bs : List ℕ} (h : Tiles (bs.map s.block) s.regions) : 16 * bs.length ≤ s.total := by
  have hsum : ∀ cs : List ℕ, (∀ a ∈ cs, 0 < s.size a) → 16 * cs.length ≤ ((cs.map s.block).map Prod.snd).sum := by
    intro cs
    induction cs with
    | nil => exact fun _ => Nat.le_refl _
    | cons a cs ih =>
      intro hc
      have h1 := ih fun b hb => hc b (List.mem_cons_of_mem _ hb)
      have h2 := hc a List.mem_cons_self
      simp only [List.map_cons, List.sum_cons, List.length_cons, State.block] at h1 ⊢
      omega
  rw [State.total, ← h.sum]
  exact hsum bs fun a ha => tiles_pos h ha

theorem Heap.lt (h : Heap base s l us) : l.Pairwise (· < ·) :=
  h.gaps.imp fun {a b} hab => by
    simp only [State.stop] at hab
    omega

theorem Heap.nodup (h : Heap base s l us) : (base :: l).Nodup := by
  refine List.nodup_cons.mpr ⟨fun hb => ?_, h.lt.imp Nat.ne_of_lt⟩
  have := h.low base (List.mem_append_left _ hb)
  omega

/-! ### The search of free -/

/-- Where the search stops. -/
def stopsAt (s : State) (bp p : ℕ) : Bool :=
  decide ((p < bp ∧ bp < s.ptr p) ∨ (s.ptr p ≤ p ∧ (p < bp ∨ bp < s.ptr p)))

theorem freeLoop_walk {f p q : ℕ} (h : walk s.ptr (stopsAt s bp) f p = some q) : freeLoop f s bp p = .ok q := by
  induction f generalizing p with
  | zero => cases h
  | succ f ih =>
    rw [walk] at h
    rw [freeLoop]
    by_cases h1 : p < bp ∧ bp < s.ptr p
    · rw [if_pos (by simp [stopsAt, h1])] at h
      rw [if_pos h1, Option.some.inj h]
    by_cases h2 : s.ptr p ≤ p ∧ (p < bp ∨ bp < s.ptr p)
    · rw [if_pos (by simp [stopsAt, h2])] at h
      rw [if_neg h1, if_pos h2, Option.some.inj h]
    · rw [if_neg (by simp [stopsAt, h1, h2])] at h
      rw [if_neg h1, if_neg h2]
      exact ih h

/-- The free blocks below an address, and those above it. -/
theorem exists_split (h : l.Pairwise (· < ·)) (hb : bp ∉ l) :
    ∃ u v, l = u ++ v ∧ (∀ x ∈ u, x < bp) ∧ ∀ x ∈ v, bp < x := by
  induction l with
  | nil => exact ⟨[], [], rfl, by simp, by simp⟩
  | cons a l ih =>
    obtain ⟨ha, hl⟩ := List.pairwise_cons.mp h
    obtain ⟨hab, hbl⟩ : bp ≠ a ∧ bp ∉ l := by simpa using hb
    rcases Nat.lt_or_gt_of_ne hab with hlt | hgt
    · refine ⟨[], a :: l, rfl, by simp, ?_⟩
      simp only [List.forall_mem_cons]
      exact ⟨hlt, fun x hx => hlt.trans (ha x hx)⟩
    · obtain ⟨u, v, rfl, hu, hv⟩ := ih hl hbl
      refine ⟨a :: u, v, rfl, ?_, hv⟩
      simp only [List.forall_mem_cons]
      exact ⟨hgt, hu⟩

theorem le_getLastD {a x : ℕ} (h : (a :: u).Pairwise (· < ·)) (hx : x ∈ a :: u) : x ≤ u.getLastD a := by
  rw [← dropLast_concat_getLastD] at h hx
  rcases List.mem_append.mp hx with hx | hx
  · exact ((List.pairwise_append.mp h).2.2 x hx _ List.mem_cons_self).le
  · exact (List.mem_singleton.mp hx).le

/-- **The search finds the block before `bp`.** -/
theorem freeLoop_eq (h : Heap base s (u ++ v) (bp :: us)) (hu : ∀ x ∈ u, x < bp) (hv : ∀ x ∈ v, bp < x) :
    freeLoop s.rounds s bp s.freep = .ok (u.getLastD base) := by
  have hbase : base < bp := by
    have := h.low bp (by simp)
    omega
  have hu' : ∀ x ∈ base :: u, x < bp := List.forall_mem_cons.mpr ⟨hbase, hu⟩
  have hlt : ((base :: u) ++ v).Pairwise (· < ·) := by
    refine List.pairwise_cons.mpr ⟨fun x hx => ?_, h.lt⟩
    have := h.low x (List.mem_append_left _ hx)
    omega
  have hltu := (List.pairwise_append.mp hlt).1
  have hmem : u.getLastD base ∈ base :: u := List.getLastD_mem_cons
  obtain ⟨-, -, hnext⟩ := circle_append.mp h.circle
  apply freeLoop_walk
  refine h.circle.walk_eq h.freep (List.mem_append_left v hmem) ?_ ?_ ?_
  · -- the next node is above, or the list is at its end
    apply decide_eq_true
    cases v with
    | nil => exact Or.inr ⟨hnext.le.trans (le_getLastD hltu List.mem_cons_self), Or.inl (hu' _ hmem)⟩
    | cons y v => exact Or.inl ⟨hu' _ hmem, hnext ▸ hv y List.mem_cons_self⟩
  · intro x hx hne
    apply decide_eq_false
    rcases h.circle.next_cases hx with ⟨w, w', hw⟩ | ⟨rfl, hback⟩
    · -- a node and the next one are on the same side of `bp`
      have hpair := hlt
      rw [List.cons_append, hw] at hpair
      obtain ⟨-, hpair, hbefore⟩ := List.pairwise_append.mp hpair
      obtain ⟨hxafter, hpair⟩ := List.pairwise_cons.mp hpair
      obtain ⟨hyafter, -⟩ := List.pairwise_cons.mp hpair
      have hxy : x < s.ptr x := hxafter _ List.mem_cons_self
      rintro (⟨h1, h2⟩ | ⟨h1, -⟩)
      · have hxu : x ∈ base :: u := by
          rcases List.mem_append.mp (show x ∈ (base :: u) ++ v from hx) with hx | hx
          · exact hx
          · exact absurd (hv x hx) (by omega)
        have hle := le_getLastD hltu hxu
        have hlast : u.getLastD base ∈ w ++ x :: s.ptr x :: w' := by
          rw [← hw]
          exact List.mem_append_left v hmem
        have hbp := hu' _ hmem
        simp only [List.mem_append, List.mem_cons] at hlast
        rcases hlast with hl | hl | hl | hl
        · have := hbefore _ hl x List.mem_cons_self
          omega
        · exact hne hl.symm
        · omega
        · have := hyafter _ hl
          omega
      · omega
    · -- the last node is above `bp`
      have hxv : (u ++ v).getLastD base ∈ v := by
        rcases List.mem_append.mp (show (u ++ v).getLastD base ∈ (base :: u) ++ v from hx) with hx | hx
        · have h1 := le_getLastD hltu hx
          have h2 := le_getLastD hlt (List.mem_append_left v hmem)
          exact absurd (Nat.le_antisymm h1 h2) hne
        · exact hx
      have := hv _ hxv
      omega
  · have hlen := length_le_total h.tiles
    rw [State.rounds]
    simp only [List.length_append, List.length_cons] at hlen ⊢
    omega

/-! ### Putting blocks together -/

/-- Blocks end before the blocks after them. -/
theorem stop_le {bs : List ℕ} (h : Tiles (bs.map s.block) s.regions) {a b : ℕ} (ha : a ∈ bs) (hb : b ∈ bs) (hab : a < b) :
    s.stop a ≤ b := by
  have hne : s.block a ≠ s.block b := fun h => Nat.ne_of_lt hab (congrArg Prod.fst h)
  have hapart := h.apart_of_ne (List.mem_map_of_mem ha) (List.mem_map_of_mem hb) hne
  simp only [Apart, State.block, State.stop] at hapart ⊢
  omega

/-- Two blocks that touch, when the first one gets the size of both. -/
theorem tiles_join {a b : ℕ} {bs : List ℕ} (h : Tiles ((a :: b :: bs).map s.block) s.regions) (hab : s.stop a = b)
    (ht : s.total < 2 ^ 36) :
    (s.setSize a (s.size a + s.size b)).size a = s.size a + s.size b ∧
      Tiles ((a :: bs).map (s.setSize a (s.size a + s.size b)).block) s.regions := by
  have hsize : (s.setSize a (s.size a + s.size b)).size a = s.size a + s.size b := by
    have hsum := h.sum
    simp only [List.map_cons, List.sum_cons, State.block] at hsum
    rw [State.total, ← hsum] at ht
    rw [State.setSize_size, Function.update_self]
    omega
  refine ⟨hsize, ?_⟩
  have hnot : a ∉ b :: bs := (List.nodup_cons.mp (tiles_nodup h)).1
  have hrest : ∀ c ∈ bs, (s.setSize a (s.size a + s.size b)).size c = s.size c := fun c hc =>
    Function.update_of_ne (ne_of_mem_of_not_mem (List.mem_cons_of_mem _ hc) hnot) _ _
  have htiles : Tiles ((a, 16 * s.size a) :: (a + 16 * s.size a, 16 * s.size b) :: bs.map s.block) s.regions := by
    have hb : (a + 16 * s.size a, 16 * s.size b) = s.block b := by rw [State.block, ← hab, State.stop]
    rw [hb]
    exact h
  rw [List.map_cons, map_block hrest, State.block, hsize, Nat.mul_add]
  exact htiles.merge

theorem gaps_congr (h : l.Pairwise fun a b => s.stop a < b) (heq : ∀ a ∈ l, s'.size a = s.size a) :
    l.Pairwise fun a b => s'.stop a < b :=
  h.imp_of_mem fun {a b} ha _ hab => by
    rw [State.stop, heq a ha]
    exact hab

/-- The block `bp` is linked to the free blocks after it, but not yet from those before. -/
structure Mid (base : ℕ) (s : State) (u v us : List ℕ) (bp : ℕ) : Prop where
  left : Linked s.ptr (base :: u)
  right : Linked s.ptr (v ++ [base])
  link : s.ptr bp = v.headD base
  base_size : s.size base = 0
  gaps : (u ++ v).Pairwise fun a b => s.stop a < b
  below : ∀ x ∈ u, x < bp
  above : ∀ y ∈ v, s.stop bp < y
  low : ∀ a ∈ bp :: (u ++ v ++ us), base + 16 ≤ a
  aligned : ∀ a ∈ bp :: (u ++ v ++ us), a % 16 = 0
  tiles : Tiles ((bp :: (u ++ v ++ us)).map s.block) s.regions

theorem perm_bp (u v us : List ℕ) (bp : ℕ) : (u ++ v ++ bp :: us).Perm (bp :: (u ++ v ++ us)) := List.perm_middle

/-- Only the header of the block itself changes. -/
theorem joinNext_frame (s : State) (bp p : ℕ) :
    (∀ a, a ≠ bp → (joinNext s bp p).size a = s.size a) ∧ (joinNext s bp p).regions = s.regions ∧
      (joinNext s bp p).live = s.live := by
  rw [joinNext]
  split
  · exact ⟨fun a ha => Function.update_of_ne ha _ _, rfl, rfl⟩
  · exact ⟨fun _ _ => rfl, rfl, rfl⟩

theorem joinPrev_frame (s : State) (bp p : ℕ) :
    (∀ a, a ≠ p → (joinPrev s bp p).size a = s.size a) ∧ (joinPrev s bp p).regions = s.regions ∧
      (joinPrev s bp p).live = s.live := by
  rw [joinPrev]
  split
  · exact ⟨fun a ha => Function.update_of_ne ha _ _, rfl, rfl⟩
  · exact ⟨fun _ _ => rfl, rfl, rfl⟩

/-- What `free` has found out about the block and its place. -/
structure Placed (base : ℕ) (s : State) (u v us : List ℕ) (bp : ℕ) : Prop where
  heap : Heap base s (u ++ v) (bp :: us)
  below : ∀ x ∈ u, x < bp
  above : ∀ x ∈ v, bp < x

namespace Placed

variable (h : Placed base s u v us bp)

include h

theorem tiles : Tiles ((bp :: (u ++ v ++ us)).map s.block) s.regions := h.heap.tiles.perm ((perm_bp u v us bp).map _)

theorem notMem : bp ∉ u ++ v ++ us := (List.nodup_cons.mp (tiles_nodup h.tiles)).1

theorem low : ∀ a ∈ bp :: (u ++ v ++ us), base + 16 ≤ a := fun a ha => h.heap.low a ((perm_bp u v us bp).mem_iff.mpr ha)

theorem aligned : ∀ a ∈ bp :: (u ++ v ++ us), a % 16 = 0 := fun a ha => h.heap.aligned a ((perm_bp u v us bp).mem_iff.mpr ha)

theorem base_ne : base ≠ bp := by
  have := h.low bp List.mem_cons_self
  omega

/-- The header of `bp` is not read on the way through the others. -/
theorem left (x : ℕ) : Linked (Function.update s.ptr bp x) (base :: u) := by
  refine (circle_append.mp h.heap.circle).1.update fun hm => ?_
  rcases List.mem_cons.mp (List.dropLast_subset _ hm) with hm | hm
  · exact h.base_ne hm.symm
  · exact h.notMem (List.mem_append_left _ (List.mem_append_left _ hm))

theorem right (x : ℕ) : Linked (Function.update s.ptr bp x) (v ++ [base]) := by
  refine (circle_append.mp h.heap.circle).2.1.update fun hm => ?_
  rw [List.dropLast_concat] at hm
  exact h.notMem (List.mem_append_left _ (List.mem_append_right _ hm))

theorem next : s.ptr (u.getLastD base) = v.headD base := (circle_append.mp h.heap.circle).2.2

end Placed

/-- `bp` is linked to the next block. -/
theorem joinNext_link (h : Placed base s u v us bp) (hne : s.stop bp ≠ v.headD base) :
    Mid base (joinNext s bp (u.getLastD base)) u v us bp ∧ s.size bp ≤ (joinNext s bp (u.getLastD base)).size bp := by
  rw [joinNext, h.next, if_neg hne]
  refine ⟨⟨h.left _, h.right _, Function.update_self _ _ _, h.heap.base_size, h.heap.gaps, h.below, ?_, h.low, h.aligned,
    h.tiles⟩, Nat.le_refl _⟩
  intro y hy
  cases v with
  | nil => cases hy
  | cons y' v =>
    -- the first block after `bp` does not start where it ends, and the others start later
    have hle : s.stop bp ≤ y' := stop_le h.tiles List.mem_cons_self (by simp) (h.above y' List.mem_cons_self)
    have hlt : s.stop bp < y' := Nat.lt_of_le_of_ne hle hne
    rcases List.mem_cons.mp hy with rfl | hy
    · exact hlt
    · exact hlt.trans ((List.pairwise_cons.mp (List.pairwise_append.mp h.heap.lt).2.1).1 y hy)

/-- `bp` is put together with the next block. -/
theorem joinNext_merge {y : ℕ} (h : Placed base s u (y :: v) us bp) (hy : s.stop bp = y) (ht : s.total < 2 ^ 36) :
    Mid base (joinNext s bp (u.getLastD base)) u v us bp ∧ s.size bp ≤ (joinNext s bp (u.getLastD base)).size bp := by
  have hswap : (bp :: (u ++ y :: v ++ us)).Perm (bp :: y :: (u ++ v ++ us)) := by
    rw [List.append_assoc, List.append_assoc]
    exact .cons _ List.perm_middle
  obtain ⟨hsize, htiles⟩ := tiles_join (h.tiles.perm (hswap.map _)) hy ht
  have hmem : ∀ a ∈ bp :: (u ++ v ++ us), a ∈ bp :: (u ++ y :: v ++ us) := fun a ha => by
    rw [hswap.mem_iff]
    exact List.mem_cons.mpr ((List.mem_cons.mp ha).imp_right (List.mem_cons_of_mem _))
  have hnot : bp ∉ u ++ v ++ us := (List.nodup_cons.mp (tiles_nodup htiles)).1
  have hother : ∀ a ∈ u ++ v, (s.setSize bp (s.size bp + s.size y)).size a = s.size a := fun a ha =>
    Function.update_of_ne (ne_of_mem_of_not_mem (List.mem_append_left _ ha) hnot) _ _
  obtain ⟨hgu, hgv, hguv⟩ := List.pairwise_append.mp h.heap.gaps
  obtain ⟨hgy, hgv⟩ := List.pairwise_cons.mp hgv
  have hnext : s.ptr y = v.headD base := (linked_cons.mp (circle_append.mp h.heap.circle).2.1).1
  rw [joinNext, h.next, List.headD_cons, if_pos hy]
  dsimp only
  rw [State.setSize_ptr, h.next, List.headD_cons]
  refine ⟨⟨h.left _, (h.right _).tail, ?_, ?_, ?_, h.below, ?_, fun a ha => h.low a (hmem a ha),
    fun a ha => h.aligned a (hmem a ha), htiles⟩, ?_⟩
  · rw [State.setPtr_ptr, Function.update_self, hnext]
  · rw [State.setPtr_size, State.setSize_size, Function.update_of_ne h.base_ne]
    exact h.heap.base_size
  · exact gaps_congr (List.pairwise_append.mpr ⟨hgu, hgv, fun a ha b hb => hguv a ha b (List.mem_cons_of_mem _ hb)⟩) hother
  · intro z hz
    have hz' := hgy z hz
    rw [State.stop, State.setPtr_size, hsize]
    rw [State.stop] at hy hz'
    omega
  · rw [State.setPtr_size, hsize]
    exact Nat.le_add_right _ _

/-- The blocks before `bp` end before it. -/
theorem Mid.stop_le (h : Mid base s u v us bp) {x : ℕ} (hx : x ∈ u) : s.stop x ≤ bp :=
  Umalloc.stop_le h.tiles (List.mem_cons_of_mem _ (List.mem_append_left _ (List.mem_append_left _ hx))) List.mem_cons_self
    (h.below x hx)

theorem perm_mid (u v us : List ℕ) (bp : ℕ) : (bp :: (u ++ v ++ us)).Perm (u ++ bp :: v ++ us) := by
  rw [List.append_assoc, List.append_assoc]
  exact List.perm_middle.symm

theorem Mid.nodup (h : Mid base s u v us bp) : (base :: (u ++ bp :: v)).Nodup := by
  have hnd := (perm_mid u v us bp).nodup_iff.mp (tiles_nodup h.tiles)
  refine List.nodup_cons.mpr ⟨fun hb => ?_, hnd.of_append_left⟩
  have := h.low base ((perm_mid u v us bp).mem_iff.mpr (List.mem_append_left _ hb))
  omega

/-- The block before is linked to `bp`. -/
theorem joinPrev_link (h : Mid base s u v us bp) (hne : s.stop (u.getLastD base) ≠ bp) :
    Heap base { joinPrev s bp (u.getLastD base) with freep := u.getLastD base } (u ++ bp :: v) us := by
  have hperm := perm_mid u v us bp
  obtain ⟨hgu, hgv, hguv⟩ := List.pairwise_append.mp h.gaps
  rw [joinPrev, if_neg hne]
  refine ⟨circle_close h.left (linked_cons.mpr ⟨h.link, h.right⟩) h.nodup, ?_, h.base_size, ?_,
    fun a ha => h.low a (hperm.mem_iff.mpr ha), fun a ha => h.aligned a (hperm.mem_iff.mpr ha), h.tiles.perm (hperm.map _)⟩
  · exact List.mem_append_left (bp :: v) List.getLastD_mem_cons
  · refine List.pairwise_append.mpr ⟨hgu, List.pairwise_cons.mpr ⟨h.above, hgv⟩, fun a ha b hb => ?_⟩
    rcases List.mem_cons.mp hb with rfl | hb
    · refine Nat.lt_of_le_of_ne (h.stop_le ha) fun heq => ?_
      -- only the last of the blocks before can end at `bp`
      rcases List.eq_nil_or_concat' u with rfl | ⟨u, c, rfl⟩
      · cases ha
      · rw [List.getLastD_concat] at hne
        rcases List.mem_append.mp ha with ha | ha
        · have h1 : s.stop a < c := (List.pairwise_append.mp hgu).2.2 a ha c List.mem_cons_self
          have h2 := h.below c (List.mem_append_right _ List.mem_cons_self)
          change s.stop a = b at heq
          omega
        · exact hne (List.mem_singleton.mp ha ▸ heq)
    · exact hguv a ha b hb

/-- The block before is put together with `bp`. -/
theorem joinPrev_merge {c : ℕ} (h : Mid base s (u ++ [c]) v us bp) (hc : s.stop c = bp) (ht : s.total < 2 ^ 36) :
    Heap base { joinPrev s bp c with freep := c } (u ++ [c] ++ v) us ∧ s.size bp ≤ (joinPrev s bp c).size c := by
  have hswap : (u ++ [c] ++ v ++ us).Perm (c :: (u ++ v ++ us)) := by
    rw [List.append_assoc u, List.singleton_append]
    exact (perm_mid u v us c).symm
  have hperm : (bp :: (u ++ [c] ++ v ++ us)).Perm (c :: bp :: (u ++ v ++ us)) :=
    (hswap.cons bp).trans (.swap _ _ _)
  obtain ⟨hsize, htiles⟩ := tiles_join (h.tiles.perm (hperm.map _)) hc ht
  have hcu : c ∈ bp :: (u ++ [c] ++ v ++ us) := by simp
  have hbase : base ≠ c := by
    have := h.low c hcu
    omega
  have hnot : c ∉ u ++ v ++ us := (List.nodup_cons.mp (tiles_nodup htiles)).1
  have hother : ∀ a ∈ u ++ v, (s.setSize c (s.size c + s.size bp)).size a = s.size a := fun a ha =>
    Function.update_of_ne (ne_of_mem_of_not_mem (List.mem_append_left _ ha) hnot) _ _
  have hnd : (base :: (u ++ [c] ++ v)).Nodup := by
    refine h.nodup.sublist (.cons_cons _ ?_)
    exact (List.Sublist.refl (u ++ [c])).append (List.sublist_cons_self bp v)
  have hcircle := circle_close h.left h.right hnd
  rw [List.getLastD_concat, ← h.link] at hcircle
  obtain ⟨hgu, hgv, hguv⟩ := List.pairwise_append.mp h.gaps
  obtain ⟨hgu, -, hguc⟩ := List.pairwise_append.mp hgu
  have hstop : (s.setSize c (s.size c + s.size bp)).stop c = s.stop bp := by
    rw [State.stop, hsize, State.stop]
    rw [State.stop] at hc
    omega
  rw [joinPrev, if_pos hc]
  refine ⟨⟨hcircle, ?_, ?_, ?_, fun a ha => h.low a (List.mem_cons_of_mem _ ha),
    fun a ha => h.aligned a (List.mem_cons_of_mem _ ha), htiles.perm (hswap.symm.map _)⟩, ?_⟩
  · simp
  · show Function.update s.size c _ base = 0
    rw [Function.update_of_ne hbase]
    exact h.base_size
  · -- the block at `c` now ends where `bp` did, below the blocks after it
    have hleft : ∀ a ∈ u, (s.setSize c (s.size c + s.size bp)).stop a = s.stop a := fun a ha => by
      rw [State.stop, hother a (List.mem_append_left _ ha), State.stop]
    refine List.pairwise_append.mpr ⟨List.pairwise_append.mpr ⟨?_, List.pairwise_singleton _ _, ?_⟩, ?_, ?_⟩
    · exact gaps_congr hgu fun a ha => hother a (List.mem_append_left _ ha)
    · intro a ha b hb
      exact (hleft a ha).trans_lt (hguc a ha b hb)
    · exact gaps_congr hgv fun a ha => hother a (List.mem_append_right _ ha)
    · intro a ha b hb
      rcases List.mem_append.mp ha with hu | hc
      · exact (hleft a hu).trans_lt (hguv a ha b hb)
      · rw [List.mem_singleton.mp hc]
        exact hstop.trans_lt (h.above b hb)
  · show s.size bp ≤ (s.setSize c (s.size c + s.size bp)).size c
    rw [hsize]
    exact Nat.le_add_left _ _

theorem joinNext_spec (h : Placed base s u v us bp) (ht : s.total < 2 ^ 36) :
    ∃ v', v'.length ≤ v.length ∧ Mid base (joinNext s bp (u.getLastD base)) u v' us bp ∧
      s.size bp ≤ (joinNext s bp (u.getLastD base)).size bp := by
  by_cases hy : s.stop bp = v.headD base
  · cases v with
    | nil =>
      have hlow := h.low bp List.mem_cons_self
      rw [List.headD_nil, State.stop] at hy
      omega
    | cons y v => exact ⟨v, Nat.le_succ _, joinNext_merge h hy ht⟩
  · exact ⟨v, Nat.le_refl _, joinNext_link h hy⟩

theorem joinPrev_spec (h : Mid base s u v us bp) (ht : s.total < 2 ^ 36) :
    ∃ l', l'.length ≤ u.length + v.length + 1 ∧
      Heap base { joinPrev s bp (u.getLastD base) with freep := u.getLastD base } l' us ∧
      ∃ a ∈ l', s.size bp ≤ (joinPrev s bp (u.getLastD base)).size a := by
  by_cases hc : s.stop (u.getLastD base) = bp
  · rcases List.eq_nil_or_concat' u with rfl | ⟨u, c, rfl⟩
    · have hlow := h.low bp List.mem_cons_self
      rw [List.getLastD_nil, State.stop, h.base_size] at hc
      omega
    · rw [List.getLastD_concat] at hc ⊢
      obtain ⟨hheap, hsize⟩ := joinPrev_merge h hc ht
      exact ⟨_, by rw [List.length_append]; omega, hheap, c, by simp, hsize⟩
  · refine ⟨_, by simp [Nat.add_assoc], joinPrev_link h hc, bp, by simp, ?_⟩
    rw [joinPrev, if_neg hc]
    exact Nat.le_refl _

/-- **`free` keeps the invariant**, and what it frees is in one of the free blocks after it. -/
theorem free_spec (h : Heap base s l (bp :: us)) (ht : s.total < 2 ^ 36) :
    ∃ s' l', free s (bp + 16) = .ok s' ∧ l'.length ≤ l.length + 1 ∧ Heap base s' l' us ∧ (∀ a ∈ us, s'.size a = s.size a) ∧
      s'.regions = s.regions ∧ s'.live = s.live ∧ ∃ a ∈ l', s.size bp ≤ s'.size a := by
  have hnd := tiles_nodup h.tiles
  have hbp : bp ∉ l := fun hm => (List.nodup_append.mp hnd).2.2 bp hm bp List.mem_cons_self rfl
  obtain ⟨u, v, rfl, hu, hv⟩ := exists_split h.lt hbp
  have hplaced : Placed base s u v us bp := ⟨h, hu, hv⟩
  obtain ⟨v', hlen, hmid, hsize⟩ := joinNext_spec hplaced ht
  obtain ⟨hnsize, hnregions, hnlive⟩ := joinNext_frame s bp (u.getLastD base)
  obtain ⟨l', hlen', hheap, a, ha, hle⟩ := joinPrev_spec hmid (by rw [State.total, hnregions]; exact ht)
  obtain ⟨hpsize, hpregions, hplive⟩ := joinPrev_frame (joinNext s bp (u.getLastD base)) bp (u.getLastD base)
  refine ⟨_, l', ?_, ?_, hheap, fun b hb => ?_, hpregions.trans hnregions, hplive.trans hnlive, a, ha, hsize.trans hle⟩
  · rw [free, Nat.add_sub_cancel, freeLoop_eq h hu hv, ok_bind]
  · rw [List.length_append]
    omega
  · have hb' : b ≠ bp := ne_of_mem_of_not_mem (List.mem_append_right _ hb) hplaced.notMem
    have hlow : base + 16 ≤ b := h.low b (List.mem_append_right _ (List.mem_cons_of_mem _ hb))
    have hc : b ≠ u.getLastD base := by
      rintro rfl
      rcases List.mem_cons.mp (List.getLastD_mem_cons : u.getLastD base ∈ base :: u) with hc | hc
      · omega
      · exact (List.nodup_append.mp hnd).2.2 _ (List.mem_append_left _ hc) _ (List.mem_cons_of_mem _ hb) rfl
    exact (hpsize b hc).trans (hnsize b hb')

/-! ### Taking a block -/

section

variable {n prevp p : ℕ}

/-- A block is cut in two: the first part keeps its header, the second part gets one. -/
theorem tiles_cut {bs : List ℕ} (h : Tiles ((p :: bs).map s.block) s.regions) (hn : 0 < n) (hlt : n < s.size p)
    (ht : s.total < 2 ^ 36) (hs' : s' = (s.setSize p (s.size p - n)).setSize (p + 16 * (s.size p - n)) n) :
    s'.size p = s.size p - n ∧ s'.size (p + 16 * (s.size p - n)) = n ∧ (∀ c ∈ bs, s'.size c = s.size c) ∧
      Tiles ((p :: (p + 16 * (s.size p - n)) :: bs).map s'.block) s.regions := by
  have hle : 16 * s.size p ≤ s.total := h.le_sum (List.mem_map_of_mem List.mem_cons_self)
  have hnot : p ∉ bs := (List.nodup_cons.mp (tiles_nodup h)).1
  have hnew : p + 16 * (s.size p - n) ∉ bs := fun hm => by
    have hne : s.block p ≠ s.block (p + 16 * (s.size p - n)) := fun heq => by
      have : p = p + 16 * (s.size p - n) := congrArg Prod.fst heq
      omega
    have hapart := h.apart_of_ne (List.mem_map_of_mem List.mem_cons_self) (List.mem_map_of_mem (List.mem_cons_of_mem _ hm)) hne
    simp only [Apart, State.block] at hapart
    omega
  have h1 : s'.size p = s.size p - n := by
    rw [hs', State.setSize_size, Function.update_of_ne (by omega), State.setSize_size, Function.update_self,
      Nat.mod_eq_of_lt (by omega)]
  have h2 : s'.size (p + 16 * (s.size p - n)) = n := by
    rw [hs', State.setSize_size, Function.update_self, Nat.mod_eq_of_lt (by omega)]
  have h3 : ∀ c ∈ bs, s'.size c = s.size c := fun c hc => by
    rw [hs', State.setSize_size, Function.update_of_ne (ne_of_mem_of_not_mem hc hnew), State.setSize_size,
      Function.update_of_ne (ne_of_mem_of_not_mem hc hnot)]
  refine ⟨h1, h2, h3, ?_⟩
  have hsum : 16 * s.size p = 16 * (s.size p - n) + 16 * n := by omega
  rw [List.map_cons, State.block, hsum] at h
  rw [List.map_cons, List.map_cons, map_block h3, State.block, State.block, h1, h2]
  exact h.split (by omega) (by omega)

/-- A free block is taken as a whole. -/
theorem carve_exact (h : Heap base s l us) (hprev : prevp ∈ base :: l) (hp : s.ptr prevp = p) (hpl : p ∈ l)
    (hsize : s.size p = n) : ∃ l', Heap base (carve s n prevp p).1 l' (p :: us) := by
  have hbase : p ≠ base := fun heq => (List.nodup_cons.mp h.nodup).1 (heq ▸ hpl)
  obtain ⟨u, v, rfl, hlast⟩ := h.circle.split_after hprev (hp ▸ hbase)
  rw [hp] at h hprev
  obtain ⟨hleft, hright, -⟩ := circle_append.mp h.circle
  obtain ⟨hnext, hright⟩ := linked_cons.mp hright
  have hsub : (u ++ v).Sublist (u ++ p :: v) := (List.Sublist.refl u).append (List.sublist_cons_self p v)
  have hcircle := circle_close hleft hright (h.nodup.sublist (hsub.cons_cons _))
  have hperm : (u ++ p :: v ++ us).Perm (u ++ v ++ p :: us) := (perm_mid u v us p).symm.trans (perm_bp u v us p).symm
  rw [hlast, ← hnext] at hcircle
  refine ⟨u ++ v, ?_⟩
  rw [carve, if_pos hsize]
  exact ⟨hcircle, hlast ▸ List.mem_append_left v List.getLastD_mem_cons, h.base_size, h.gaps.sublist hsub,
    fun a ha => h.low a (hperm.mem_iff.mpr ha), fun a ha => h.aligned a (hperm.mem_iff.mpr ha), h.tiles.perm (hperm.map _)⟩

theorem carve_frame (s : State) (n prevp p : ℕ) :
    (carve s n prevp p).1.regions = s.regions ∧ (carve s n prevp p).1.live = s.live := by
  rw [carve]
  split
  · exact ⟨rfl, rfl⟩
  · exact ⟨rfl, rfl⟩

/-- The end of a free block is taken. -/
theorem carve_split {b : ℕ} (h : Heap base s l us) (hprev : prevp ∈ base :: l) (hpl : p ∈ l) (hn : 0 < n)
    (hlt : n < s.size p) (ht : s.total < 2 ^ 36) (hb : b = p + 16 * (s.size p - n)) :
    Heap base (carve s n prevp p).1 l (b :: us) ∧ (carve s n prevp p).2 = b + 16 ∧
      (carve s n prevp p).1.size b = n ∧ ∀ a ∈ us, (carve s n prevp p).1.size a = s.size a := by
  obtain ⟨u, v, rfl⟩ := List.append_of_mem hpl
  have hperm := perm_mid u v us p
  have hle : 16 * s.size p ≤ s.total := h.tiles.le_sum (List.mem_map_of_mem (List.mem_append_left _ hpl))
  have hstop : (s.setSize p (s.size p - n)).stop p = b := by
    rw [State.stop, State.setSize_size, Function.update_self, Nat.mod_eq_of_lt (by omega), hb]
  obtain ⟨h1, h2, h3, htiles⟩ := tiles_cut (h.tiles.perm (hperm.symm.map _)) hn hlt ht rfl
  rw [← hb] at h1 h2 h3 htiles
  have hlow := h.low p (List.mem_append_left _ hpl)
  have halign := h.aligned p (List.mem_append_left _ hpl)
  have hcarve : carve s n prevp p = ({ (s.setSize p (s.size p - n)).setSize b n with freep := prevp }, b + 16) := by
    rw [carve, if_neg (by omega), ← hstop]
  rw [hcarve]
  have hmem : ∀ {a : ℕ}, a ∈ u ++ p :: v ++ b :: us → a = b ∨ a ∈ u ++ p :: v ++ us := fun ha => by
    rw [List.perm_middle.mem_iff] at ha
    exact List.mem_cons.mp ha
  have hperm' : (p :: b :: (u ++ v ++ us)).Perm (u ++ p :: v ++ b :: us) :=
    (List.Perm.swap _ _ _).trans ((hperm.cons b).trans List.perm_middle.symm)
  refine ⟨⟨h.circle, hprev, ?_, ?_, ?_, ?_, htiles.perm (hperm'.map _)⟩, rfl, h2, fun a ha => h3 a (List.mem_append_right _ ha)⟩
  · show Function.update (Function.update s.size p _) b _ base = 0
    rw [Function.update_of_ne (by omega), Function.update_of_ne (by omega)]
    exact h.base_size
  · -- no block ends later than before
    refine h.gaps.imp_of_mem fun {a c} ha _ hac => Nat.lt_of_le_of_lt ?_ hac
    rcases List.mem_cons.mp (List.perm_middle.mem_iff.mp ha) with rfl | ha
    · show a + 16 * ((s.setSize a (s.size a - n)).setSize b n).size a ≤ s.stop a
      rw [h1, State.stop]
      omega
    · show a + 16 * ((s.setSize p (s.size p - n)).setSize b n).size a ≤ s.stop a
      rw [h3 a (List.mem_append_left _ ha), State.stop]
  · intro a ha
    rcases hmem ha with rfl | ha
    · omega
    · exact h.low a ha
  · intro a ha
    rcases hmem ha with rfl | ha
    · omega
    · exact h.aligned a ha

/-- **A block of the size asked for is taken from the free block `p`.** -/
theorem carve_spec (h : Heap base s l us) (hprev : prevp ∈ base :: l) (hp : s.ptr prevp = p) (hpl : p ∈ l) (hn : 0 < n)
    (hle : n ≤ s.size p) (ht : s.total < 2 ^ 36) :
    ∃ l' b, Heap base (carve s n prevp p).1 l' (b :: us) ∧ (carve s n prevp p).2 = b + 16 ∧
      (carve s n prevp p).1.size b = n ∧ ∀ a ∈ us, (carve s n prevp p).1.size a = s.size a := by
  rcases Nat.eq_or_lt_of_le hle with heq | hlt
  · obtain ⟨l', hheap⟩ := carve_exact h hprev hp hpl heq.symm
    refine ⟨l', p, hheap, ?_⟩
    rw [carve, if_pos heq.symm]
    exact ⟨rfl, heq.symm, fun _ _ => rfl⟩
  · exact ⟨l, _, carve_split h hprev hpl hn hlt ht rfl⟩

/-! ### malloc -/

/-- A loop that looks through the free list from `prevp` as `malloc` does, up to `freep`. -/
structure Search {R : Type} (s : State) (n : ℕ) (loop : ℕ → ℕ → ℕ → R) (ret : State × ℕ → R) : Prop where
  found : ∀ {f prevp p : ℕ}, n ≤ s.size p → loop (f + 1) prevp p = ret (carve s n prevp p)
  next : ∀ {f prevp p : ℕ}, ¬ n ≤ s.size p → p ≠ s.freep → loop (f + 1) prevp p = loop f p (s.ptr p)

section

variable {R : Type} {loop : ℕ → ℕ → ℕ → R} {ret : State × ℕ → R}

/-- One round of the loop: it takes the first block that is large enough, or comes back to
where it began. -/
theorem Search.round {w : List ℕ} (hs : Search s n loop ret) (hl : Linked s.ptr (prevp :: (w ++ [s.freep])))
    (hw : s.freep ∉ w) (k : ℕ) :
    (∃ q p, q ∈ prevp :: w ∧ s.ptr q = p ∧ n ≤ s.size p ∧
      loop (w.length + (k + 1)) prevp (s.ptr prevp) = ret (carve s n q p)) ∨
    (∀ p ∈ w ++ [s.freep], s.size p < n) ∧
      ∃ q, loop (w.length + (k + 1)) prevp (s.ptr prevp) = loop (k + 1) q s.freep := by
  induction w generalizing prevp with
  | nil =>
    obtain ⟨hnext, -⟩ := linked_cons.mp hl
    rw [List.headD_nil] at hnext
    rw [List.length_nil, Nat.zero_add, hnext]
    by_cases hn : n ≤ s.size s.freep
    · exact Or.inl ⟨prevp, s.freep, List.mem_cons_self, hnext, hn, hs.found hn⟩
    · refine Or.inr ⟨fun p hp => ?_, prevp, rfl⟩
      rw [List.mem_singleton.mp hp]
      omega
  | cons x w ih =>
    obtain ⟨hnext, htail⟩ := linked_cons.mp hl
    rw [List.headD_cons] at hnext
    have hx : x ≠ s.freep := fun h => hw (h ▸ List.mem_cons_self)
    rw [hnext, List.length_cons, Nat.add_right_comm]
    by_cases hn : n ≤ s.size x
    · exact Or.inl ⟨prevp, x, List.mem_cons_self, hnext, hn, hs.found hn⟩
    · rw [hs.next hn hx]
      rcases ih htail fun h => hw (List.mem_cons_of_mem _ h) with ⟨q, p, hq, hqp, hle, hrun⟩ | ⟨hall, q, hrun⟩
      · exact Or.inl ⟨q, p, List.mem_cons_of_mem _ hq, hqp, hle, hrun⟩
      · refine Or.inr ⟨fun p hp => ?_, q, hrun⟩
        rcases List.mem_cons.mp hp with rfl | hp
        · omega
        · exact hall p hp

/-- The same, for the free list. -/
theorem Search.heap (hs : Search s n loop ret) (h : Heap base s l us) (hn : 0 < n) (k : ℕ) (ht : s.total < 2 ^ 36) :
    (∃ s' l' b, loop (l.length + (k + 1)) s.freep (s.ptr s.freep) = ret (s', b + 16) ∧
      Heap base s' l' (b :: us) ∧ s'.size b = n ∧ (∀ a ∈ us, s'.size a = s.size a) ∧ s'.regions = s.regions ∧
      s'.live = s.live ∧ ∃ p ∈ l, n ≤ s.size p) ∨
    (∀ p ∈ l, s.size p < n) ∧ ∃ q, loop (l.length + (k + 1)) s.freep (s.ptr s.freep) = loop (k + 1) q s.freep := by
  obtain ⟨w, hcircle, hperm⟩ := h.circle.rotate h.freep
  have hnd := hperm.nodup_iff.mpr h.nodup
  have hlen := hperm.length_eq
  rw [List.length_cons, List.length_cons] at hlen
  rw [← Nat.succ.inj hlen]
  rcases hs.round hcircle (List.nodup_cons.mp hnd).1 k with ⟨q, p, hq, hqp, hle, hrun⟩ | ⟨hall, q, hrun⟩
  · left
    have hpb : s.ptr q ≠ base := fun heq => by
      rw [← hqp, heq, h.base_size] at hle
      exact absurd hn (Nat.not_lt.mpr hle)
    have hq' := hperm.mem_iff.mp hq
    have hpl : p ∈ l := by
      obtain ⟨u, v, huv, -⟩ := h.circle.split_after hq' hpb
      rw [huv, hqp]
      simp
    obtain ⟨l', b, hheap, hb, hsize, hus⟩ := carve_spec h hq' hqp hpl hn hle ht
    obtain ⟨hregions, hlive⟩ := carve_frame s n q p
    refine ⟨_, l', b, ?_, hheap, hsize, hus, hregions, hlive, p, hpl, hle⟩
    rw [hrun, ← hb]
  · refine Or.inr ⟨fun p hp => hall p ?_, q, hrun⟩
    have hp' := hperm.mem_iff.mpr (List.mem_cons_of_mem base hp)
    rw [List.mem_append, List.mem_singleton]
    exact (List.mem_cons.mp hp').symm

end

/-- Back at `freep` the loop has found nothing. -/
theorem Heap.freep_small (h : Heap base s l us) (hn : 0 < n) (hall : ∀ p ∈ l, s.size p < n) : ¬ n ≤ s.size s.freep := by
  rcases List.mem_cons.mp h.freep with hf | hf
  · rw [hf, h.base_size]
    omega
  · have := hall _ hf
    omega

theorem Heap.freep_ne (h : Heap base s l us) (hb : 0 < base) : s.freep ≠ 0 := by
  rcases List.mem_cons.mp h.freep with hf | hf
  · omega
  · have := h.low _ (List.mem_append_left _ hf)
    omega

/-- The rounds are enough to come back to `freep` and, with a new block, to go round again. -/
theorem Heap.rounds_eq (h : Heap base s l us) : ∃ k, s.rounds = l.length + (l.length + 2 + k + 1) := by
  have hlen := length_le_total h.tiles
  rw [List.length_append] at hlen
  refine ⟨s.rounds - (2 * l.length + 3), ?_⟩
  rw [State.rounds]
  omega

theorem mallocLoop_search (sbrk : List (Option ℕ)) :
    Search s n (fun f prevp p => mallocLoop base n f s sbrk prevp p) Except.ok where
  found hn := by
    cases sbrk with
    | nil => rw [mallocLoop, if_pos hn]
    | cons answer sbrk => rw [mallocLoop, if_pos hn]
  next hn hp := by
    cases sbrk with
    | nil => rw [mallocLoop, if_neg hn, if_neg hp]
    | cons answer sbrk => rw [mallocLoop, if_neg hn, if_neg hp]

/-- An answer of `sbrk` as it is assumed, to a request that fits the types. -/
structure Grants (base : ℕ) (s : State) (n hp : ℕ) : Prop where
  fresh : Fresh base s hp (coreUnits n * 16)
  aligned : hp % 16 = 0
  request : coreUnits n * 16 < 2 ^ 31
  total : s.total + coreUnits n * 16 < 2 ^ 36

theorem le_coreUnits (n : ℕ) : n ≤ coreUnits n ∧ 0 < coreUnits n := by
  rw [coreUnits]
  split
  · omega
  · omega

/-- The state with a new region that begins with a header. -/
def State.withRegion (s : State) (hp nu : ℕ) : State :=
  ({ s with regions := (hp, nu * 16) :: s.regions }).setSize hp nu

/-- **A new region is added as a free block.** -/
theorem region_spec {hp nu : ℕ} (h : Heap base s l us) (hlow : base + 16 ≤ hp) (habove : ∀ r ∈ s.regions, r.1 + r.2 ≤ hp)
    (halign : hp % 16 = 0) (hpos : 0 < nu) (htotal : s.total + nu * 16 < 2 ^ 36) :
    ∃ s' l', free (s.withRegion hp nu) (hp + 16) = .ok s' ∧ l'.length ≤ l.length + 1 ∧ Heap base s' l' us ∧
      (∀ a ∈ us, s'.size a = s.size a) ∧ s'.regions = (hp, nu * 16) :: s.regions ∧ s'.live = s.live ∧
      ∃ a ∈ l', nu ≤ s'.size a := by
  have hend : ∀ a ∈ l ++ us, s.stop a ≤ hp := fun a ha => h.tiles.le_of_above habove (List.mem_map_of_mem ha)
  have hne : ∀ a ∈ l ++ us, a ≠ hp := fun a ha => by
    have h1 := hend a ha
    have h2 := tiles_pos h.tiles ha
    rw [State.stop] at h1
    omega
  -- the region as a block in use
  have hsize : (s.withRegion hp nu).size hp = nu := by
    rw [State.withRegion, State.setSize_size, Function.update_self, Nat.mod_eq_of_lt (by omega)]
  have hother : ∀ a ∈ l ++ us, (s.withRegion hp nu).size a = s.size a := fun a ha => Function.update_of_ne (hne a ha) _ _
  have hmem : ∀ {a : ℕ}, a ∈ l ++ hp :: us → a = hp ∨ a ∈ l ++ us := fun ha => by
    rw [List.perm_middle.mem_iff] at ha
    exact List.mem_cons.mp ha
  have htiles : Tiles ((hp :: (l ++ us)).map (s.withRegion hp nu).block) ((hp, nu * 16) :: s.regions) := by
    rw [List.map_cons, map_block hother, State.block, hsize, Nat.mul_comm]
    exact h.tiles.cons (by omega) habove
  have hheap : Heap base (s.withRegion hp nu) l (hp :: us) := by
    refine ⟨h.circle, h.freep, ?_, gaps_congr h.gaps fun a ha => hother a (List.mem_append_left _ ha), fun a ha => ?_,
      fun a ha => ?_, htiles.perm (List.perm_middle.symm.map _)⟩
    · show Function.update s.size hp _ base = 0
      rw [Function.update_of_ne (by omega)]
      exact h.base_size
    · rcases hmem ha with rfl | ha
      · exact hlow
      · exact h.low a ha
    · rcases hmem ha with rfl | ha
      · exact halign
      · exact h.aligned a ha
  have ht : (s.withRegion hp nu).total < 2 ^ 36 := by
    rw [Nat.add_comm] at htotal
    exact htotal
  obtain ⟨s', l', hfree, hlen, hheap', hus, hregions, hlive, a, ha, hle⟩ := free_spec hheap ht
  refine ⟨s', l', hfree, hlen, hheap', fun b hb => ?_, hregions, hlive, a, ha, ?_⟩
  · rw [hus b hb, hother b (List.mem_append_right _ hb)]
  · rw [hsize] at hle
    exact hle

theorem total_cons {r : ℕ × ℕ} (h : s'.regions = r :: s.regions) : s'.total = s.total + r.2 := by
  rw [State.total, h, List.map_cons, List.sum_cons, Nat.add_comm]
  rfl

theorem morecore_spec {hp : ℕ} (h : Heap base s l us) (hg : Grants base s n hp) :
    ∃ s' l', morecore base s n (some hp) = .ok (s', s'.freep) ∧ l'.length ≤ l.length + 1 ∧ Heap base s' l' us ∧
      (∀ a ∈ us, s'.size a = s.size a) ∧ s'.total = s.total + coreUnits n * 16 ∧ s'.live = s.live ∧
      ∃ a ∈ l', n ≤ s'.size a := by
  have hreq := hg.request
  have hcore := le_coreUnits n
  have hint : cInt (coreUnits n * 16) = ((coreUnits n * 16 : ℕ) : ℤ) := by
    rw [cInt_eq (by omega) (by omega)]
    push_cast
    rfl
  obtain ⟨-, hlow, habove⟩ := hg.fresh
  obtain ⟨s', l', hfree, hlen, hheap, hus, hregions, hlive, a, ha, hle⟩ :=
    region_spec h hlow habove hg.aligned hcore.2 hg.total
  refine ⟨s', l', ?_, hlen, hheap, hus, total_cons hregions, hlive, a, ha, hcore.1.trans hle⟩
  have hfresh : Fresh base s hp ((coreUnits n * 16 : ℕ) : ℤ) := by
    push_cast
    exact hg.fresh
  rw [morecore, Option.elim_some]
  dsimp only
  rw [hint, if_pos hfresh, Int.toNat_natCast]
  show (free (s.withRegion hp (coreUnits n)) (hp + 16) >>= _) = _
  rw [hfree, ok_bind]

/-- **The loop of `malloc`** returns 0 only if `sbrk` fails. -/
theorem mallocLoop_spec (h : Heap base s l us) (hb : 0 < base) (hn : 0 < n) (ht : s.total < 2 ^ 36) {answer : Option ℕ}
    (hans : ∀ hp ∈ answer, Grants base s n hp) :
    (answer = none ∧ mallocLoop base n s.rounds s [answer] s.freep (s.ptr s.freep) = .ok (s, 0)) ∨
    ∃ s' l' b, mallocLoop base n s.rounds s [answer] s.freep (s.ptr s.freep) = .ok (s', b + 16) ∧
      Heap base s' l' (b :: us) ∧ s'.size b = n ∧ (∀ a ∈ us, s'.size a = s.size a) ∧ s'.total < 2 ^ 36 ∧
      s'.live = s.live := by
  obtain ⟨k, hk⟩ := h.rounds_eq
  rw [hk]
  rcases (mallocLoop_search [answer]).heap h hn (l.length + 2 + k) ht with
      ⟨s', l', b, hrun, hheap, hsize, hus, hregions, hlive, -⟩ | ⟨hall, q, hrun⟩
  · exact Or.inr ⟨s', l', b, hrun, hheap, hsize, hus, by rw [State.total, hregions]; exact ht, hlive⟩
  rw [hrun, mallocLoop, if_neg (h.freep_small hn hall), if_pos rfl]
  cases answer with
  | none => exact Or.inl ⟨rfl, rfl⟩
  | some hp =>
    right
    have hg := hans hp rfl
    obtain ⟨s1, l1, hcore, hlen1, hheap1, hus1, htotal1, hlive1, a, ha, hle⟩ := morecore_spec h hg
    obtain ⟨k1, hk1⟩ : ∃ k1, l.length + 2 + k = l1.length + (k1 + 1) := ⟨l.length + 1 + k - l1.length, by omega⟩
    rw [hcore, ok_bind]
    dsimp only
    rw [if_neg (hheap1.freep_ne hb), hk1]
    have ht1 : s1.total < 2 ^ 36 := htotal1 ▸ hg.total
    rcases (mallocLoop_search []).heap hheap1 hn k1 ht1 with ⟨s', l', b, hrun', hheap, hsize, hus, hregions, hlive, -⟩ |
        ⟨hall', -⟩
    · refine ⟨s', l', b, hrun', hheap, hsize, fun c hc => (hus c hc).trans (hus1 c hc), ?_, hlive.trans hlive1⟩
      rw [State.total, hregions]
      exact ht1
    · exact absurd (hall' a ha) (Nat.not_lt.mpr hle)

end

/-! ### Runs -/

/-- The blocks the program holds. -/
def State.used (s : State) : List ℕ := s.live.map fun q => q.1 - 16

/-- Before the first call of `malloc` there is no list; after it there is one. -/
def Inv (base : ℕ) (s : State) : Prop :=
  (s.freep = 0 ∧ s.regions = [] ∧ s.live = []) ∨
    ∃ l, Heap base s l s.used ∧ (∀ q ∈ s.live, s.size (q.1 - 16) = nunits q.2) ∧ s.total < 2 ^ 36

theorem Heap.perm {us' : List ℕ} (h : Heap base s l us) (hp : us.Perm us') : Heap base s l us' where
  circle := h.circle
  freep := h.freep
  base_size := h.base_size
  gaps := h.gaps
  low a ha := h.low a ((hp.append_left l).mem_iff.mpr ha)
  aligned a ha := h.aligned a ((hp.append_left l).mem_iff.mpr ha)
  tiles := h.tiles.perm ((hp.append_left l).map _)

/-- Only the headers of the blocks count, and the links of the free ones. -/
theorem Heap.congr (h : Heap base s l us) (hptr : ∀ a ∈ base :: l, s'.ptr a = s.ptr a)
    (hsize : ∀ a ∈ base :: (l ++ us), s'.size a = s.size a) (hfreep : s'.freep = s.freep) (hregions : s'.regions = s.regions) :
    Heap base s' l us where
  circle := by
    refine h.circle.congr fun x hx => hptr x ?_
    rwa [← List.cons_append, List.dropLast_concat] at hx
  freep := hfreep ▸ h.freep
  base_size := (hsize base List.mem_cons_self).trans h.base_size
  gaps := gaps_congr h.gaps fun a ha => hsize a (List.mem_cons_of_mem _ (List.mem_append_left _ ha))
  low := h.low
  aligned := h.aligned
  tiles := by
    rw [map_block fun a ha => hsize a (List.mem_cons_of_mem _ ha), hregions]
    exact h.tiles

/-- The list is there when `malloc` looks at it. -/
theorem Inv.start (h : Inv base s) (hb : 0 < base) :
    ∃ l, Heap base (start base s) l s.used ∧ (∀ q ∈ s.live, (start base s).size (q.1 - 16) = nunits q.2) ∧
      (start base s).total = s.total ∧ s.total < 2 ^ 36 ∧ (start base s).live = s.live ∧
      (start base s).regions = s.regions := by
  rw [Umalloc.start]
  rcases h with ⟨hf, hr, hl⟩ | ⟨l, hheap, hlive, ht⟩
  · have hused : s.used = [] := by rw [State.used, hl, List.map_nil]
    rw [if_pos hf]
    refine ⟨[], ?_, fun q hq => ?_, rfl, ?_, rfl, rfl⟩
    · rw [hused]
      refine ⟨?_, List.mem_cons_self, Function.update_self _ _ _, .nil, fun a ha => absurd ha List.not_mem_nil,
        fun a ha => absurd ha List.not_mem_nil, ?_⟩
      · exact linked_cons.mpr ⟨Function.update_self _ _ _, List.isChain_singleton _⟩
      · show Tiles [] s.regions
        rw [hr]
        exact tiles_nil
    · rw [hl] at hq
      cases hq
    · rw [State.total, hr]
      decide
  · rw [if_neg (hheap.freep_ne hb)]
    exact ⟨l, hheap, hlive, rfl, ht, rfl, rfl⟩

theorem Inv.of_start (h : Inv base s) (hb : 0 < base) : Inv base (Umalloc.start base s) := by
  obtain ⟨l, hheap, hlive, htotal, ht, hsame, -⟩ := h.start hb
  refine Or.inr ⟨l, ?_, ?_, htotal ▸ ht⟩
  · rw [State.used, hsame]
    exact hheap
  · rw [hsame]
    exact hlive

/-- What a call is assumed to be given: a live pointer, or answers of `sbrk` that fit. -/
def Allowed (base : ℕ) (s : State) : Act → Prop
  | .malloc nbytes sbrk => nbytes < 2 ^ 32 ∧ ∀ hp ∈ sbrk, Grants base s (nunits nbytes) hp
  | .free ap => ap ∈ s.live.map Prod.fst
  | .store ap _ _ => ap ∈ s.live.map Prod.fst

/-- A block of `n` headers at `b` has been taken. -/
structure Taken (base : ℕ) (s : State) (n : ℕ) (s' : State) (b : ℕ) : Prop where
  heap : ∃ l, Heap base s' l (b :: s.used)
  size : s'.size b = n
  live : s'.live = s.live
  kept : ∀ q ∈ s.live, s'.size (q.1 - 16) = nunits q.2
  total : s'.total < 2 ^ 36

theorem Taken.hold {nbytes b : ℕ} (h : Taken base s (nunits nbytes) s' b) :
    Inv base { s' with live := (b + 16, nbytes) :: s'.live } := by
  obtain ⟨l, hheap⟩ := h.heap
  have hused : b :: s.used = ((b + 16, nbytes) :: s'.live).map fun q => q.1 - 16 := by
    rw [h.live, List.map_cons, Nat.add_sub_cancel]
    rfl
  rw [hused] at hheap
  refine Or.inr ⟨l, hheap.congr (fun _ _ => rfl) (fun _ _ => rfl) rfl rfl, fun q hq => ?_, h.total⟩
  rw [h.live] at hq
  rcases List.mem_cons.mp hq with rfl | hq
  · rw [Nat.add_sub_cancel]
    exact h.size
  · exact h.kept q hq

theorem inv_malloc {nbytes : ℕ} {sbrk : Option ℕ} (h : Inv base s) (hb : 0 < base)
    (ha : Allowed base s (.malloc nbytes sbrk)) : ∃ s' t, step base s (.malloc nbytes sbrk) = .ok (s', t) ∧ Inv base s' := by
  obtain ⟨hn, hgrants⟩ := ha
  obtain ⟨l, hheap, hlive, htotal, ht, hsame, hregions⟩ := h.start hb
  have hg : ∀ hp ∈ sbrk, Grants base (start base s) (nunits nbytes) hp := fun hp hm => by
    obtain ⟨⟨h1, h2, h3⟩, h4, h5, h6⟩ := hgrants hp hm
    exact ⟨⟨h1, h2, by rw [hregions]; exact h3⟩, h4, h5, by rw [htotal]; exact h6⟩
  have hpos : 0 < nunits nbytes := Nat.succ_pos _
  rw [step, if_pos hn, malloc]
  rcases mallocLoop_spec hheap hb hpos (htotal ▸ ht) hg with ⟨-, hrun⟩ | ⟨s', l', b, hrun, hheap', hsize, hus, ht', hlive'⟩
  · refine ⟨_, _, by rw [hrun, ok_bind], ?_⟩
    rw [if_pos rfl]
    exact h.of_start hb
  · refine ⟨_, _, by rw [hrun, ok_bind], ?_⟩
    rw [if_neg (Nat.succ_ne_zero _)]
    have htaken : Taken base s (nunits nbytes) s' b := by
      refine ⟨⟨l', hheap'⟩, hsize, hlive'.trans hsame, fun q hq => ?_, ht'⟩
      exact (hus _ (List.mem_map_of_mem hq)).trans (hlive q hq)
    exact htaken.hold

theorem Inv.heap (h : Inv base s) {ap : ℕ} (ha : ap ∈ s.live.map Prod.fst) :
    ∃ l, Heap base s l s.used ∧ (∀ q ∈ s.live, s.size (q.1 - 16) = nunits q.2) ∧ s.total < 2 ^ 36 := by
  rcases h with ⟨-, -, hl⟩ | h
  · rw [hl] at ha
    cases ha
  · exact h

/-- A live pointer comes after the header of its block. -/
theorem Heap.live_eq (h : Heap base s l s.used) {q : ℕ × ℕ} (hq : q ∈ s.live) : q.1 - 16 + 16 = q.1 := by
  have := h.low (q.1 - 16) (List.mem_append_right _ (List.mem_map_of_mem hq))
  omega

theorem inv_free {ap : ℕ} (h : Inv base s) (ha : ap ∈ s.live.map Prod.fst) :
    ∃ s' t, step base s (.free ap) = .ok (s', t) ∧ Inv base s' := by
  obtain ⟨l, hheap, hlive, ht⟩ := h.heap ha
  obtain ⟨q0, hq0, heq⟩ := List.mem_map.mp ha
  obtain ⟨q, l1, l2, -, hq, hsplit, herase⟩ := List.exists_of_eraseP (p := fun q => q.1 = ap) hq0 (decide_eq_true heq)
  have hq1 : q.1 = ap := of_decide_eq_true hq
  have hperm : s.used.Perm ((q :: (l1 ++ l2)).map fun q => q.1 - 16) := by
    rw [State.used, hsplit]
    exact List.perm_middle.map _
  obtain ⟨s', l', hfree, -, hheap', hus, hregions, hsame, -⟩ := free_spec (hheap.perm hperm) ht
  rw [hheap.live_eq (hsplit ▸ List.mem_append_right _ List.mem_cons_self), hq1] at hfree
  have hlive' : (s'.live.eraseP fun q => q.1 = ap) = l1 ++ l2 := by rw [hsame, herase]
  refine ⟨{ s' with live := l1 ++ l2 }, [], ?_, Or.inr ⟨l', ?_, fun r hr => ?_, ?_⟩⟩
  · rw [step, if_pos ha, hfree, ok_bind, hlive']
  · exact hheap'.congr (fun _ _ => rfl) (fun _ _ => rfl) rfl rfl
  · have hr' : r ∈ s.live := by
      rw [hsplit]
      exact List.perm_middle.mem_iff.mpr (List.mem_cons_of_mem _ hr)
    exact (hus _ (List.mem_map_of_mem hr)).trans (hlive r hr')
  · show (s'.regions.map Prod.snd).sum < 2 ^ 36
    rw [hregions]
    exact ht

/-- What the program writes to a block is not read by the allocator. -/
theorem inv_store {ap : ℕ} {ptr size : ℕ → ℕ} (h : Inv base s) (ha : ap ∈ s.live.map Prod.fst) :
    ∃ s' t, step base s (.store ap ptr size) = .ok (s', t) ∧ Inv base s' := by
  obtain ⟨l, hheap, hlive, ht⟩ := h.heap ha
  obtain ⟨q, hq, rfl⟩ := List.mem_map.mp ha
  have hused : q.1 - 16 ∈ l ++ s.used := List.mem_append_right _ (List.mem_map_of_mem hq)
  have hout : ∀ a ∈ base :: (l ++ s.used), ¬ (q.1 ≤ a ∧ a < s.stop (q.1 - 16)) := by
    rintro a ha ⟨h1, h2⟩
    have hlow := hheap.low _ hused
    rcases List.mem_cons.mp ha with rfl | ha
    · omega
    · exact absurd (stop_le hheap.tiles hused ha (by omega)) (Nat.not_le.mpr h2)
  refine ⟨_, [], if_pos ha, ?_⟩
  refine Or.inr ⟨l, hheap.congr (fun a ha => ?_) (fun a ha => ?_) rfl rfl, fun r hr => ?_, ht⟩
  · have hcons : a ∈ base :: (l ++ s.used) := List.mem_append_left s.used ha
    exact if_neg fun hh => hout a hcons (of_decide_eq_true hh)
  · exact if_neg fun hh => hout a ha (of_decide_eq_true hh)
  · rw [← hlive r hr]
    exact if_neg fun hh => hout _ (List.mem_cons_of_mem _ (List.mem_append_right _ (List.mem_map_of_mem hr))) (of_decide_eq_true hh)

/-- The free list `l` and the blocks in use. -/
structure Represents (base : ℕ) (s : State) (l : List ℕ) : Prop where
  /-- Following `ptr` from `base` goes through `l` and comes back; `freep` is on this circle. -/
  circle : Circle s.ptr base l
  freep : s.freep ∈ base :: l
  ascending : (base :: l).Pairwise (· < ·)
  /-- A free block ends before the next one starts, with a gap. -/
  gaps : l.Pairwise fun a b => s.stop a < b
  /-- The header of a live block has its size, which is enough, and the pointer is aligned. -/
  header : ∀ q ∈ s.live, s.size (q.1 - 16) = nunits q.2 ∧ q.2 ≤ 16 * (s.size (q.1 - 16) - 1) ∧ q.1 % 16 = 0
  /-- The blocks do not overlap and are together what `sbrk` has given. -/
  tiles : Tiles ((l ++ s.used).map s.block) s.regions

theorem Inv.represents (h : Inv base s) : s.freep = 0 ∧ s.regions = [] ∧ s.live = [] ∨ ∃ l, Represents base s l := by
  rcases h with h | ⟨l, hheap, hlive, -⟩
  · exact Or.inl h
  refine Or.inr ⟨l, hheap.circle, hheap.freep, List.pairwise_cons.mpr ⟨fun a ha => ?_, hheap.lt⟩, hheap.gaps, fun q hq => ?_,
    hheap.tiles⟩
  · have := hheap.low a (List.mem_append_left _ ha)
    omega
  · have hsize := hlive q hq
    have hmem : q.1 - 16 ∈ l ++ s.used := List.mem_append_right _ (List.mem_map_of_mem hq)
    have halign := hheap.aligned _ hmem
    have hlow := hheap.low _ hmem
    refine ⟨hsize, ?_, by omega⟩
    rw [hsize, nunits]
    omega

/-- **The allocator keeps its representation**, and no call runs forever. -/
theorem malloc_represents {base : ℕ} {ptr size : ℕ → ℕ} {as : List Act} (hb : 0 < base)
    (hm : TraceSys.Meets (step base) (Allowed base) (boot ptr size) as) :
    ∃ s t, TraceSys.run (step base) (boot ptr size) as = .ok (s, t) ∧
      (s.freep = 0 ∧ s.regions = [] ∧ s.live = [] ∨ ∃ l, Represents base s l) := by
  have hstep : ∀ s a, Inv base s → Allowed base s a → ∃ s' t', step base s a = .ok (s', t') ∧ Inv base s' := by
    intro s a hi ha
    cases a with
    | malloc nbytes sbrk => exact inv_malloc hi hb ha
    | free ap => exact inv_free hi ha
    | store ap ptr size => exact inv_store hi ha
  obtain ⟨s, t, hrun, hi⟩ := TraceSys.run_ok_of_meets hstep (Or.inl ⟨rfl, rfl, rfl⟩) hm
  exact ⟨s, t, hrun, hi.represents⟩

/-- Memory that is all zero. -/
def zeroBoot : State := boot (fun _ => 0) fun _ => 0

/-- A block is taken and freed. -/
theorem malloc_represents_sample :
    ∃ s t, TraceSys.run (step 4096) zeroBoot [.malloc 100 (some 8192), .free 73616] = .ok (s, t) ∧
      (s.freep = 0 ∧ s.regions = [] ∧ s.live = [] ∨ ∃ l, Represents 4096 s l) := by
  obtain ⟨⟨s1, t1⟩, h1, hlive⟩ := okWith_iff.mp
    (show okWith (step 4096 zeroBoot (.malloc 100 (some 8192))) (fun r => decide (73616 ∈ r.1.live.map Prod.fst)) = true by
      decide +kernel)
  have hgrants : Grants 4096 zeroBoot (nunits 100) 8192 := by
    refine ⟨⟨by decide, by decide, ?_⟩, by decide, by decide, by decide⟩
    exact fun r hr => absurd hr List.not_mem_nil
  have hmalloc : Allowed 4096 zeroBoot (.malloc 100 (some 8192)) :=
    ⟨by decide, fun hp hm => Option.mem_some.mp hm ▸ hgrants⟩
  have hfree : 73616 ∈ s1.live.map Prod.fst := of_decide_eq_true hlive
  exact malloc_represents (by decide) (.cons h1 hmalloc ⟨hfree, fun _ _ _ => trivial⟩)

/-- For the largest `nbytes`, `sbrk` is asked for 16 bytes, and `malloc` returns a pointer to
what it takes for a block of 4 GiB. -/
theorem malloc_huge :
    ∃ s t, TraceSys.run (step 4096) zeroBoot [.malloc 4294967295 (some 8192)] = .ok (s, t) ∧
      s.live = [(8208, 4294967295)] ∧ s.regions = [(8192, 16)] ∧ s.freep = 4096 ∧ ∀ l, ¬ Represents 4096 s l := by
  obtain ⟨⟨s, t⟩, hrun, hs⟩ := okWith_iff.mp
    (show okWith (TraceSys.run (step 4096) zeroBoot [.malloc 4294967295 (some 8192)]) (fun r => decide
      (r.1.live = [(8208, 4294967295)] ∧ r.1.regions = [(8192, 16)] ∧ r.1.freep = 4096 ∧ 1 < r.1.size 8192)) = true by
      decide +kernel)
  obtain ⟨hlive, hregions, hfreep, hsize⟩ := of_decide_eq_true hs
  refine ⟨s, t, hrun, hlive, hregions, hfreep, fun l h => ?_⟩
  -- the first byte after the header is in the block, but not in the region
  have hmem : s.block 8192 ∈ (l ++ s.used).map s.block := by
    refine List.mem_map_of_mem (List.mem_append_right _ ?_)
    rw [State.used, hlive]
    exact List.mem_cons_self
  have hhas : Has (s.block 8192) 8208 := by
    simp only [Has, State.block] at hsize ⊢
    omega
  obtain ⟨r, hr, hlo, hhi⟩ := (h.tiles.cover 8208).mp ⟨_, hmem, hhas⟩
  rw [hregions] at hr
  rw [List.mem_singleton.mp hr] at hhi
  exact absurd hhi (by decide)

end Umalloc
end Xv6
