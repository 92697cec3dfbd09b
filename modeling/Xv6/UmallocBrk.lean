/-
# The allocator and the break of its process

`malloc` again, now with the size of the process in the state and `sbrk` as `sys_sbrk` and
`growproc` compute it. `sbrk` takes an `int`: a negative one makes the process smaller, and
zero leaves it as it is. In both cases `sbrk` returns the old size, so for a request that does
not fit an `int` `morecore` puts its header on memory that the process may not have.

The answer `room` says whether `uvmalloc` finds the pages. All of them are pages of physical
memory, so a process is never larger than that.

What `morecore` takes `sbrk` to have given is kept in `regions`. The free list is then sound
for these regions whatever `sbrk` has done (`malloc_outcome`), and the question is whether they
are below the break.

Key definitions: `Umalloc.Break.sbrk`, `Umalloc.Break.malloc`, `Umalloc.Break.Sound`, `Umalloc.Break.Safe`.
Key theorems: `Umalloc.Break.malloc_outcome`, `Umalloc.Break.malloc_sound_iff`.
-/
import Xv6.UmallocRun
import Xv6.Vm

namespace Xv6
namespace Umalloc
namespace Break

open Tiling

structure Proc where
  heap : State
  sz : ℕ

/-- The bytes of physical memory. -/
def memory : ℕ := Vm.PHYSTOP - Vm.KERNBASE

/-- The new size of a process of `sz` bytes. -/
def growproc (sz : ℕ) (n : ℤ) (room : Bool) : Option ℕ :=
  let newsz := ((sz + n) % 2 ^ 64).toNat
  if 0 < n then if room ∧ newsz ≤ memory then some newsz else none
  -- `uvmdealloc` does not make it larger
  else if n < 0 then some (if sz ≤ newsz then sz else newsz)
  else some sz

/-- What `sbrk` returns, with the new size. -/
def sbrk (sz : ℕ) (n : ℤ) (room : Bool) : Option (ℕ × ℕ) :=
  (growproc sz n room).map fun newsz => (sz, newsz)

/-- The bytes that `morecore` asks for. -/
def request (nu : ℕ) : ℕ := coreUnits nu * 16

def morecore (s : Proc) (nu : ℕ) (room : Bool) : Except Stop (Proc × ℕ) :=
  (sbrk s.sz (cInt (request nu)) room).elim (.ok (s, 0)) fun r =>
    -- the header is at the old break
    if r.1 + 16 ≤ Vm.PGROUNDUP r.2 then do
      let heap ← free (s.heap.withRegion r.1 (coreUnits nu)) (r.1 + 16)
      .ok ({ heap := heap, sz := r.2 }, heap.freep)
    else .error .fault

/-- The loop of `malloc`; `rooms` has the answers for the calls of `sbrk` still to come. -/
def mallocLoop (n : ℕ) : ℕ → Proc → List Bool → ℕ → ℕ → Except Stop (Proc × ℕ)
  | 0, _, _, _, _ => .error .blocked
  | f + 1, s, rooms, prevp, p =>
    if n ≤ s.heap.size p then
      let r := carve s.heap n prevp p
      .ok ({ s with heap := r.1 }, r.2)
    else if p = s.heap.freep then
      match rooms with
      | [] => .error .blocked
      | room :: rooms => do
        let (s, p) ← morecore s n room
        if p = 0 then .ok (s, 0) else mallocLoop n f s rooms p (s.heap.ptr p)
    else mallocLoop n f s rooms p (s.heap.ptr p)

def malloc (base : ℕ) (s : Proc) (nbytes : ℕ) (room : Bool) : Except Stop (Proc × ℕ) :=
  let heap := start base s.heap
  mallocLoop (nunits nbytes) heap.rounds { s with heap := heap } [room] heap.freep (heap.ptr heap.freep)

/-! ### Runs -/

inductive Act where
  /-- `malloc(nbytes)`, with the answer of `uvmalloc` in case it is called. -/
  | malloc (nbytes : ℕ) (room : Bool)
  | free (ap : ℕ)
  /-- The program writes to the block at `ap`. -/
  | store (ap : ℕ) (ptr size : ℕ → ℕ)

/-- The block is held by the program. -/
def hold (s : Proc) (ap nbytes : ℕ) : Proc :=
  if ap = 0 then s else { s with heap := { s.heap with live := (ap, nbytes) :: s.heap.live } }

/-- The pointer that `malloc` returns is emitted. -/
def step (base : ℕ) (s : Proc) : Act → Except Stop (Proc × List ℕ)
  | .malloc nbytes room =>
    if nbytes < 2 ^ 32 then do
      let (s, ap) ← malloc base s nbytes room
      .ok (hold s ap nbytes, [ap])
    else .error .blocked
  | .free ap => do
    let (heap, t) ← Umalloc.step base s.heap (.free ap)
    .ok ({ s with heap := heap }, t)
  | .store ap ptr size => do
    let (heap, t) ← Umalloc.step base s.heap (.store ap ptr size)
    .ok ({ s with heap := heap }, t)

/-- The process before its first call, with the size that `exec` gave it. -/
def boot (ptr size : ℕ → ℕ) (sz : ℕ) : Proc where
  heap := Umalloc.boot ptr size
  sz := sz

/-! ### The property -/

/-- `malloc` returns, with the process no smaller, and it returns 0 or a pointer whose bytes
are below the break and in no block that is held already. -/
def Sound (s : Proc) (nbytes : ℕ) (r : Except Stop (Proc × ℕ)) : Prop :=
  ∃ s' ap, r = .ok (s', ap) ∧ s.sz ≤ s'.sz ∧
    (ap = 0 ∨ ap + nbytes ≤ s'.sz ∧
      ∀ q ∈ s.heap.live, ap + nbytes ≤ q.1 - 16 ∨ q.1 - 16 + 16 * nunits q.2 ≤ ap)

/-- A block of the free list is large enough. -/
def Fits (s : Proc) (nbytes : ℕ) : Prop :=
  s.heap.freep ≠ 0 ∧ ∃ k, nunits nbytes ≤ s.heap.size (s.heap.ptr^[k] s.heap.freep)

/-- The list has a block, or `sbrk` fails, or the request fits an `int`. -/
def Safe (s : Proc) (nbytes : ℕ) (room : Bool) : Prop :=
  Fits s nbytes ∨ growproc s.sz (cInt (request (nunits nbytes))) room = none ∨ request (nunits nbytes) < 2 ^ 31

/-- What a call is assumed to be given: a live pointer, or a request that is safe. -/
def Allowed (s : Proc) : Act → Prop
  | .malloc nbytes room => nbytes < 2 ^ 32 ∧ Safe s nbytes room
  | .free ap => ap ∈ s.heap.live.map Prod.fst
  | .store ap _ _ => ap ∈ s.heap.live.map Prod.fst

/-! ### What malloc does -/

structure Inv (base : ℕ) (s : Proc) : Prop where
  heap : Umalloc.Inv base s.heap
  low : base + 16 ≤ s.sz
  aligned : s.sz % 16 = 0
  above : ∀ r ∈ s.heap.regions, r.1 + r.2 ≤ s.sz
  total : s.heap.total ≤ s.sz
  memory : s.sz ≤ memory

variable {base n : ℕ} {s s' : Proc} {l us : List ℕ}

/-- The free list that `malloc` goes through has the block. -/
theorem fits_iff {nbytes : ℕ} (h : Heap base (start base s.heap) l us) :
    Fits s nbytes ↔ ∃ p ∈ l, nunits nbytes ≤ (start base s.heap).size p := by
  have hpos : 0 < nunits nbytes := Nat.succ_pos _
  by_cases hf : s.heap.freep = 0
  · have hself : (start base s.heap).ptr base = base := by
      rw [start, if_pos hf]
      exact Function.update_self _ _ _
    have hnil : l = [] := by
      cases l with
      | nil => rfl
      | cons x l =>
        have hx : (start base s.heap).ptr base = x := (Circular.linked_cons.mp h.circle).1
        rw [hself] at hx
        exact absurd (hx ▸ List.mem_cons_self) (List.nodup_cons.mp h.nodup).1
    rw [hnil]
    refine ⟨fun hfits => absurd hf hfits.1, ?_⟩
    rintro ⟨p, hp, -⟩
    exact absurd hp List.not_mem_nil
  · rw [start, if_neg hf] at h ⊢
    constructor
    · rintro ⟨-, k, hk⟩
      have hmem := (h.circle.mem_iff_iterate h.freep).mpr ⟨k, rfl⟩
      rcases List.mem_cons.mp hmem with hbase | hmem
      · rw [hbase, h.base_size] at hk
        exact absurd hpos (Nat.not_lt.mpr hk)
      · exact ⟨_, hmem, hk⟩
    · rintro ⟨p, hp, hle⟩
      obtain ⟨k, hk⟩ := (h.circle.mem_iff_iterate h.freep).mp (List.mem_cons_of_mem _ hp)
      exact ⟨hf, k, hk ▸ hle⟩

theorem mallocLoop_search (rooms : List Bool) :
    Search s.heap n (fun f prevp p => mallocLoop n f s rooms prevp p) fun r => .ok ({ s with heap := r.1 }, r.2) where
  found hn := by
    cases rooms with
    | nil => rw [mallocLoop, if_pos hn]
    | cons room rooms => rw [mallocLoop, if_pos hn]
  next hn hp := by
    cases rooms with
    | nil => rw [mallocLoop, if_neg hn, if_neg hp]
    | cons room rooms => rw [mallocLoop, if_neg hn, if_neg hp]

theorem request_le {nbytes : ℕ} (hn : nbytes < 2 ^ 32) : request (nunits nbytes) ≤ 2 ^ 32 + 16 := by
  rw [request, coreUnits, nunits]
  split
  · decide
  · omega

theorem nbytes_le (nbytes : ℕ) : nbytes + 16 ≤ 16 * nunits nbytes ∧ 16 * nunits nbytes ≤ nbytes + 31 := by
  rw [nunits]
  omega

/-- The call when there is no free block that fits: what `morecore` does decides. -/
structure Grown (base : ℕ) (s : Proc) (nbytes newsz : ℕ) (r : Except Stop (Proc × ℕ)) : Prop where
  fault : ¬ s.sz + 16 ≤ Vm.PGROUNDUP newsz → r = .error .fault
  grown : s.sz + 16 ≤ Vm.PGROUNDUP newsz → ∃ heap b, r = .ok (⟨heap, newsz⟩, b + 16) ∧
    Taken base s.heap (nunits nbytes) heap b ∧ heap.regions = (s.sz, request (nunits nbytes)) :: s.heap.regions

/-- **What `malloc` does.** -/
inductive Outcome (base : ℕ) (s : Proc) (nbytes : ℕ) (room : Bool) (r : Except Stop (Proc × ℕ)) : Prop
  | found (heap : State) (b : ℕ) (fits : Fits s nbytes) (eq : r = .ok ({ s with heap := heap }, b + 16))
      (taken : Taken base s.heap (nunits nbytes) heap b) (regions : heap.regions = s.heap.regions)
  | failed (full : ¬ Fits s nbytes) (none : growproc s.sz (cInt (request (nunits nbytes))) room = none)
      (eq : r = .ok ({ s with heap := start base s.heap }, 0))
  | grown (newsz : ℕ) (full : ¬ Fits s nbytes) (some : growproc s.sz (cInt (request (nunits nbytes))) room = some newsz)
      (grown : Grown base s nbytes newsz r)

theorem malloc_outcome {nbytes : ℕ} (h : Inv base s) (hb : 0 < base) (hn : nbytes < 2 ^ 32) (room : Bool) :
    Outcome base s nbytes room (malloc base s nbytes room) := by
  obtain ⟨l, hheap, hlive, htotal, ht, hsame, hregions⟩ := h.heap.start hb
  have hpos : 0 < nunits nbytes := Nat.succ_pos _
  have hcore := le_coreUnits (nunits nbytes)
  have hreq := request_le hn
  have hmem : memory = 2 ^ 27 := by decide
  have hsz := h.memory
  have hle := h.total
  obtain ⟨k, hk⟩ := hheap.rounds_eq
  have kept : ∀ {heap : State}, (∀ a ∈ s.heap.used, heap.size a = (start base s.heap).size a) →
      ∀ q ∈ s.heap.live, heap.size (q.1 - 16) = nunits q.2 := fun hus q hq =>
    (hus _ (List.mem_map_of_mem hq)).trans (hlive q hq)
  rw [malloc]
  rw [hk]
  rcases (mallocLoop_search (s := { s with heap := start base s.heap }) [room]).heap hheap hpos (l.length + 2 + k)
      (htotal ▸ ht) with ⟨heap, l', b, hrun, hheap', hsize, hus, hregions', hlive', hfit⟩ | ⟨hall, q, hrun⟩
  · refine .found heap b ((fits_iff hheap).mpr hfit) hrun ⟨⟨l', hheap'⟩, hsize, hlive'.trans hsame, kept hus, ?_⟩
      (hregions'.trans hregions)
    rw [State.total, hregions', hregions]
    exact ht
  have hfull : ¬ Fits s nbytes := fun hfits => by
    obtain ⟨p, hp, hle⟩ := (fits_iff hheap).mp hfits
    exact absurd (hall p hp) (Nat.not_lt.mpr hle)
  dsimp only at hrun
  rw [hrun, mallocLoop, if_neg (hheap.freep_small hpos hall), if_pos rfl, morecore, sbrk]
  cases hgrow : growproc s.sz (cInt (request (nunits nbytes))) room with
  | none => exact .failed hfull hgrow rfl
  | some newsz =>
    refine .grown newsz hfull hgrow ⟨fun hfault => ?_, fun hok => ?_⟩
    · rw [Option.map_some, Option.elim_some, if_neg hfault]
      rfl
    have habove : ∀ r ∈ (start base s.heap).regions, r.1 + r.2 ≤ s.sz := by
      rw [hregions]
      exact h.above
    have htotal' : (start base s.heap).total + coreUnits (nunits nbytes) * 16 < 2 ^ 36 := by
      rw [request] at hreq
      omega
    obtain ⟨heap, l1, hfree, hlen, hheap1, hus1, hregions1, hlive1, a, ha, hbig⟩ :=
      region_spec hheap h.low habove h.aligned hcore.2 htotal'
    have ht1 : heap.total < 2 ^ 36 := by
      rw [total_cons hregions1]
      exact htotal'
    obtain ⟨k1, hk1⟩ : ∃ k1, l.length + 2 + k = l1.length + (k1 + 1) := ⟨l.length + 1 + k - l1.length, by omega⟩
    rw [Option.map_some, Option.elim_some, if_pos hok, hfree, ok_bind, ok_bind]
    dsimp only
    rw [if_neg (hheap1.freep_ne hb), hk1]
    rcases (mallocLoop_search (s := ⟨heap, newsz⟩) []).heap hheap1 hpos k1 ht1 with
        ⟨heap', l', b, hrun', hheap', hsize, hus, hregions', hlive', -⟩ | ⟨hall', -⟩
    · refine ⟨heap', b, hrun', ⟨⟨l', hheap'⟩, hsize, (hlive'.trans hlive1).trans hsame, ?_, ?_⟩, ?_⟩
      · exact kept fun c hc => (hus c hc).trans (hus1 c hc)
      · rw [State.total, hregions']
        exact ht1
      · rw [hregions', hregions1, hregions, request]
    · exact absurd (hall' a ha) (Nat.not_lt.mpr (hcore.1.trans hbig))

/-! ### The requests -/

theorem growproc_int {sz newsz req : ℕ} {room : Bool} (hsz : sz ≤ memory) (hpos : 0 < req) (hreq : req < 2 ^ 31)
    (h : growproc sz (cInt req) room = some newsz) : newsz = sz + req ∧ newsz ≤ memory := by
  have hmem : memory = 2 ^ 27 := by decide
  have hnew : (((sz : ℤ) + req) % 2 ^ 64).toNat = sz + req := by omega
  rw [growproc, cInt_natCast hreq] at h
  rw [if_pos (by omega), hnew] at h
  split at h
  · rename_i hroom
    cases h
    exact ⟨rfl, hroom.2⟩
  · cases h

/-- A request that does not fit an `int` gives the process no more than 16 bytes. -/
theorem growproc_large {sz newsz req : ℕ} {room : Bool} (hsz : sz ≤ memory) (hlo : 2 ^ 31 ≤ req) (hhi : req ≤ 2 ^ 32 + 16)
    (h : growproc sz (cInt req) room = some newsz) : newsz ≤ sz + 16 := by
  have hmem : memory = 2 ^ 27 := by decide
  have hint : cInt req ≤ 16 := by
    rw [cInt]
    omega
  rw [growproc] at h
  split at h
  · have hnew : (((sz : ℤ) + cInt req) % 2 ^ 64).toNat ≤ sz + 16 := by omega
    split at h
    · rw [← Option.some.inj h]
      exact hnew
    · cases h
  · split at h
    · rw [← Option.some.inj h]
      split
      · omega
      · omega
    · rw [← Option.some.inj h]
      omega

theorem le_PGROUNDUP {sz : ℕ} (h : sz < 2 ^ 63) : sz ≤ Vm.PGROUNDUP sz := by
  unfold Vm.PGROUNDUP Vm.PGSIZE
  rw [Nat.mod_eq_of_lt (by omega)]
  omega

/-- A large request is for many bytes. -/
theorem le_nbytes {nbytes : ℕ} (h : 2 ^ 31 ≤ request (nunits nbytes)) : 2 ^ 31 ≤ nbytes + 31 := by
  have hle := (nbytes_le nbytes).2
  rw [request, coreUnits] at h
  split at h
  · omega
  · omega

/-- A block that was taken is below the break if the regions are, and apart from the others. -/
theorem taken_sound {nbytes sz b : ℕ} {heap : State} (h : Taken base s.heap (nunits nbytes) heap b)
    (habove : ∀ r ∈ heap.regions, r.1 + r.2 ≤ sz) :
    b + 16 + nbytes ≤ sz ∧
      ∀ q ∈ s.heap.live, b + 16 + nbytes ≤ q.1 - 16 ∨ q.1 - 16 + 16 * nunits q.2 ≤ b + 16 := by
  obtain ⟨l, hheap⟩ := h.heap
  have hbytes := (nbytes_le nbytes).1
  have hblock : heap.block b = (b, 16 * nunits nbytes) := by rw [State.block, h.size]
  have hmem : heap.block b ∈ (l ++ b :: s.heap.used).map heap.block :=
    List.mem_map_of_mem (List.mem_append_right _ List.mem_cons_self)
  have hend := hheap.tiles.le_of_above habove hmem
  rw [hblock] at hend
  refine ⟨by omega, fun q hq => ?_⟩
  have happart := (List.pairwise_append.mp (List.pairwise_map.mp hheap.tiles.apart)).2.1
  have hq' := (List.pairwise_cons.mp happart).1 _ (List.mem_map_of_mem hq)
  rw [hblock, State.block, h.kept q hq, Apart] at hq'
  omega

theorem grown_sound {nbytes newsz : ℕ} {room : Bool} {r : Except Stop (Proc × ℕ)} (h : Inv base s)
    (hreq : request (nunits nbytes) < 2 ^ 31)
    (hgrow : growproc s.sz (cInt (request (nunits nbytes))) room = some newsz) (hr : Grown base s nbytes newsz r) :
    ∃ heap b, r = .ok (⟨heap, newsz⟩, b + 16) ∧ Taken base s.heap (nunits nbytes) heap b ∧
      Inv base (hold ⟨heap, newsz⟩ (b + 16) nbytes) ∧ Sound s nbytes r := by
  have hmem : memory = 2 ^ 27 := by decide
  have hcore : 4096 ≤ coreUnits (nunits nbytes) := by
    rw [coreUnits]
    split
    · exact Nat.le_refl _
    · omega
  have hrequest : request (nunits nbytes) = coreUnits (nunits nbytes) * 16 := rfl
  obtain ⟨hnew, hle⟩ := growproc_int h.memory (by omega) hreq hgrow
  have hround : newsz ≤ Vm.PGROUNDUP newsz := le_PGROUNDUP (by omega)
  obtain ⟨heap, b, hr', htaken, hregions⟩ := hr.grown (by omega)
  have habove : ∀ r ∈ heap.regions, r.1 + r.2 ≤ newsz := by
    intro r hr
    rw [hregions] at hr
    rcases List.mem_cons.mp hr with rfl | hr
    · exact Nat.le_of_eq hnew.symm
    · have := h.above r hr
      omega
  refine ⟨heap, b, hr', htaken, ?_, ⟨heap, newsz⟩, b + 16, hr', by dsimp only; omega, Or.inr (taken_sound htaken habove)⟩
  rw [hold, if_neg (Nat.succ_ne_zero _)]
  have hlow := h.low
  have haligned := h.aligned
  have htotal := h.total
  refine ⟨htaken.hold, by dsimp only; omega, by dsimp only; omega, habove, ?_, hle⟩
  show heap.total ≤ newsz
  rw [total_cons hregions, hnew]
  exact Nat.add_le_add_right htotal _

theorem found_inv {nbytes b : ℕ} {heap : State} (h : Inv base s) (htaken : Taken base s.heap (nunits nbytes) heap b)
    (hregions : heap.regions = s.heap.regions) : Inv base (hold { s with heap := heap } (b + 16) nbytes) := by
  rw [hold, if_neg (Nat.succ_ne_zero _)]
  refine ⟨htaken.hold, h.low, h.aligned, ?_, ?_, h.memory⟩
  · show ∀ r ∈ heap.regions, _
    rw [hregions]
    exact h.above
  · show (heap.regions.map Prod.snd).sum ≤ s.sz
    rw [hregions]
    exact h.total

theorem failed_inv (h : Inv base s) (hb : 0 < base) : Inv base { s with heap := start base s.heap } := by
  obtain ⟨-, -, -, htotal, -, -, hregions⟩ := h.heap.start hb
  refine ⟨h.heap.of_start hb, h.low, h.aligned, ?_, ?_, h.memory⟩
  · show ∀ r ∈ (start base s.heap).regions, _
    rw [hregions]
    exact h.above
  · show (start base s.heap).total ≤ s.sz
    rw [htotal]
    exact h.total

/-- **The call is sound just when it is safe.** -/
theorem sound_iff {nbytes : ℕ} (h : Inv base s) (hb : 0 < base) (hn : nbytes < 2 ^ 32) (room : Bool) :
    Sound s nbytes (malloc base s nbytes room) ↔ Safe s nbytes room := by
  have hmem : memory = 2 ^ 27 := by decide
  have hsz := h.memory
  cases malloc_outcome h hb hn room with
  | found heap b fits eq taken regions =>
    refine iff_of_true ?_ (Or.inl fits)
    exact ⟨_, b + 16, eq, Nat.le_refl _, Or.inr (taken_sound taken (regions ▸ h.above))⟩
  | failed full none eq => exact iff_of_true ⟨_, 0, eq, Nat.le_refl _, Or.inl rfl⟩ (Or.inr (Or.inl none))
  | grown newsz full some grown =>
    rcases Nat.lt_or_ge (request (nunits nbytes)) (2 ^ 31) with hreq | hreq
    · obtain ⟨-, -, -, -, -, hsound⟩ := grown_sound h hreq some grown
      exact iff_of_true hsound (Or.inr (Or.inr hreq))
    · -- the pointer is to more bytes than there are
      have hle := growproc_large hsz hreq (request_le hn) some
      have hbytes := le_nbytes hreq
      refine iff_of_false ?_ ?_
      · rintro ⟨s', ap, hok, -, hap⟩
        by_cases hfault : s.sz + 16 ≤ Vm.PGROUNDUP newsz
        · obtain ⟨heap, b, heq, -, -⟩ := grown.grown hfault
          rw [heq] at hok
          cases hok
          rcases hap with hap | ⟨hap, -⟩
          · exact absurd hap (Nat.succ_ne_zero _)
          · dsimp only at hap
            omega
        · rw [grown.fault hfault] at hok
          cases hok
      · rintro (hfits | hnone | hsmall)
        · exact full hfits
        · rw [some] at hnone
          cases hnone
        · omega

/-! ### Every run -/

theorem inv_malloc {nbytes : ℕ} {room : Bool} (h : Inv base s) (hb : 0 < base) (ha : Allowed s (.malloc nbytes room)) :
    ∃ s' t, step base s (.malloc nbytes room) = .ok (s', t) ∧ Inv base s' := by
  obtain ⟨hn, hsafe⟩ := ha
  rw [step, if_pos hn]
  cases malloc_outcome h hb hn room with
  | found heap b fits eq taken regions => exact ⟨_, _, by rw [eq, ok_bind], found_inv h taken regions⟩
  | failed full none eq =>
    refine ⟨_, _, by rw [eq, ok_bind], ?_⟩
    rw [hold, if_pos rfl]
    exact failed_inv h hb
  | grown newsz full some grown =>
    have hreq : request (nunits nbytes) < 2 ^ 31 := by
      rcases hsafe with hfits | hnone | hreq
      · exact absurd hfits full
      · rw [some] at hnone
        cases hnone
      · exact hreq
    obtain ⟨heap, b, eq, -, hinv, -⟩ := grown_sound h hreq some grown
    exact ⟨_, _, by rw [eq, ok_bind], hinv⟩

theorem inv_heap {heap : State} (h : Inv base s) (hinv : Umalloc.Inv base heap) (hregions : heap.regions = s.heap.regions) :
    Inv base { s with heap := heap } where
  heap := hinv
  low := h.low
  aligned := h.aligned
  above r hr := h.above r (hregions ▸ hr)
  total := by
    show (heap.regions.map Prod.snd).sum ≤ s.sz
    rw [hregions]
    exact h.total
  memory := h.memory

theorem free_regions {heap heap' : State} {ap : ℕ} (h : free heap ap = .ok heap') : heap'.regions = heap.regions := by
  rw [free] at h
  obtain ⟨p, -, h⟩ := bind_ok h
  cases h
  exact (joinPrev_frame _ _ _).2.1.trans (joinNext_frame _ _ _).2.1

theorem inv_free {ap : ℕ} (h : Inv base s) (ha : ap ∈ s.heap.live.map Prod.fst) :
    ∃ s' t, step base s (.free ap) = .ok (s', t) ∧ Inv base s' := by
  obtain ⟨heap, t, hstep, hinv⟩ := Umalloc.inv_free h.heap ha
  refine ⟨_, t, by rw [step, hstep, ok_bind], inv_heap h hinv ?_⟩
  rw [Umalloc.step, if_pos ha] at hstep
  obtain ⟨heap', hfree, hstep⟩ := bind_ok hstep
  cases hstep
  show heap'.regions = s.heap.regions
  exact free_regions hfree

theorem inv_store {ap : ℕ} {ptr size : ℕ → ℕ} (h : Inv base s) (ha : ap ∈ s.heap.live.map Prod.fst) :
    ∃ s' t, step base s (.store ap ptr size) = .ok (s', t) ∧ Inv base s' := by
  obtain ⟨heap, t, hstep, hinv⟩ : ∃ heap t, Umalloc.step base s.heap (.store ap ptr size) = .ok (heap, t) ∧
      Umalloc.Inv base heap := Umalloc.inv_store h.heap ha
  refine ⟨_, t, by rw [step, hstep, ok_bind], inv_heap h hinv ?_⟩
  rw [Umalloc.step, if_pos ha] at hstep
  cases hstep
  rfl

/-- The process that `exec` has built: `base` is one of its variables. -/
structure Start (base sz : ℕ) : Prop where
  base_pos : 0 < base
  low : base + 16 ≤ sz
  aligned : sz % 16 = 0
  memory : sz ≤ memory

theorem inv_boot {sz : ℕ} (h : Start base sz) (ptr size : ℕ → ℕ) : Inv base (boot ptr size sz) where
  heap := Or.inl ⟨rfl, rfl, rfl⟩
  low := h.low
  aligned := h.aligned
  above _ hr := absurd hr List.not_mem_nil
  total := Nat.zero_le _
  memory := h.memory

/-- **`malloc` hands out memory that it has just when it is safe to call it**, in every state
that safe calls lead to. -/
theorem malloc_sound_iff {base sz : ℕ} {ptr size : ℕ → ℕ} {as : List Act} (h : Start base sz)
    (hm : TraceSys.Meets (step base) Allowed (boot ptr size sz) as) :
    ∃ s t, TraceSys.run (step base) (boot ptr size sz) as = .ok (s, t) ∧
      ∀ nbytes < 2 ^ 32, ∀ room, Sound s nbytes (malloc base s nbytes room) ↔ Safe s nbytes room := by
  have hstep : ∀ s a, Inv base s → Allowed s a → ∃ s' t', step base s a = .ok (s', t') ∧ Inv base s' := by
    intro s a hi ha
    cases a with
    | malloc nbytes room => exact inv_malloc hi h.base_pos ha
    | free ap => exact inv_free hi ha
    | store ap ptr size => exact inv_store hi ha
  obtain ⟨s, t, hrun, hi⟩ := TraceSys.run_ok_of_meets hstep (inv_boot h ptr size) hm
  exact ⟨s, t, hrun, fun nbytes hn room => sound_iff hi h.base_pos hn room⟩

/-- Memory that is all zero, and five pages. -/
def zeroBoot : Proc := boot (fun _ => 0) (fun _ => 0) 20480

theorem start_sample : Start 4096 20480 := ⟨by decide, by decide, by decide, by decide⟩

/-- After a block was taken and freed. -/
theorem malloc_sound_iff_sample :
    ∃ s t, TraceSys.run (step 4096) zeroBoot [.malloc 100 true, .free 85904] = .ok (s, t) ∧
      ∀ nbytes < 2 ^ 32, ∀ room, Sound s nbytes (malloc 4096 s nbytes room) ↔ Safe s nbytes room := by
  obtain ⟨⟨s1, t1⟩, h1, hlive⟩ := okWith_iff.mp
    (show okWith (step 4096 zeroBoot (.malloc 100 true)) (fun r => decide (85904 ∈ r.1.heap.live.map Prod.fst)) = true by
      decide +kernel)
  have hmalloc : Allowed zeroBoot (.malloc 100 true) := ⟨by decide, Or.inr (Or.inr (by decide))⟩
  have hfree : 85904 ∈ s1.heap.live.map Prod.fst := of_decide_eq_true hlive
  exact malloc_sound_iff start_sample (.cons h1 hmalloc ⟨hfree, fun _ _ _ => trivial⟩)

/-- For the largest `nbytes` the process grows by 16 bytes, and `malloc` returns a pointer to its
end. -/
theorem malloc_unsound : ∃ s, malloc 4096 zeroBoot 4294967295 true = .ok (s, 20496) ∧ s.sz = 20496 ∧
    ¬ Sound zeroBoot 4294967295 (malloc 4096 zeroBoot 4294967295 true) := by
  obtain ⟨⟨s, ap⟩, hrun, hs⟩ := okWith_iff.mp
    (show okWith (malloc 4096 zeroBoot 4294967295 true) (fun r => decide (r.2 = 20496 ∧ r.1.sz = 20496)) = true by
      decide +kernel)
  obtain ⟨rfl, hsz⟩ : ap = 20496 ∧ s.sz = 20496 := of_decide_eq_true hs
  refine ⟨s, hrun, hsz, ?_⟩
  rintro ⟨s', ap, hok, -, hap⟩
  rw [hrun] at hok
  cases hok
  rcases hap with hap | ⟨hap, -⟩
  · exact absurd hap (by decide)
  · omega

end Break
end Umalloc
end Xv6
