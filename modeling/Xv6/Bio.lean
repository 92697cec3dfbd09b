/-
# The buffer cache

`kernel/bio.c` at the granularity of its critical sections. The buffers and
`bcache.head` are nodes of a doubly linked list that `brelse` keeps in order
of use; `bget` looks for a block from the front and recycles from the back. A
buffer's sleep-lock is taken and let go outside `bcache.lock`, so `bget` and
`brelse` are two steps each: a process is between them while it waits for the
lock of a buffer it has been counted for, or while it is still counted for a
buffer whose lock it has let go.

The callers keep to the protocol of the file system: a process releases
buffers it holds, and pins and unpins buffers while it holds them, as
`log_write` and `install_trans` do. `pins` counts the pins not taken back.

* `bcache_representation`: the list has every buffer once in both directions,
  no block is cached twice, `refcnt` counts the processes and the pins, and
  `bget` recycles the unused buffer that was released longest ago.

Key definitions: `Bio.Sys`, `Bio.step`, `Bio.lastRelease`, `Bio.Inv`.
-/
import Xv6.Basic
import Xv6.Disk
import Xv6.Links
import Xv6.Tally
import Xv6.Trace

namespace Xv6
namespace Bio

open TraceSys Links

def NBUF : ℕ := MAXOPBLOCKS * 3

/-- `&bcache.head`; the other nodes are the buffers `bcache.buf[0 .. NBUF)`. -/
def head : ℕ := NBUF

/-- `struct buf`, without the links and the data; `owner` is the process that
holds the sleep-lock. -/
structure Buf where
  valid : Bool
  dev : UInt32
  blockno : UInt32
  refcnt : ℕ
  owner : Option ℕ

/-- Where a process is. -/
inductive Pc
  | idle
  | bget (b : ℕ)    -- in `acquiresleep(&b->lock)` at the end of `bget`
  | brelse (b : ℕ)  -- in `brelse`, after `releasesleep(&b->lock)`
  deriving DecidableEq

structure Sys where
  links : Mem ℕ
  buf : ℕ → Buf
  pins : ℕ → ℕ
  pc : ℕ → Pc

inductive Ev
  | recycled (p b : ℕ)
  | released (p b : ℕ)

/-! ### The code -/

/-- The four stores that put `b` at the front of the list. -/
def pushFront (m : Mem ℕ) (b : ℕ) : Mem ℕ :=
  let m := m.setNext b (m.next head)
  let m := m.setPrev b head
  let m := m.setPrev (m.next head) b
  m.setNext head b

/-- The two stores of `brelse` that take `b` out of the list. -/
def takeOut (m : Mem ℕ) (b : ℕ) : Mem ℕ :=
  let m := m.setPrev (m.next b) (m.prev b)
  m.setNext (m.prev b) (m.next b)

def binitLinks : Mem ℕ :=
  let m : Mem ℕ := ⟨fun _ => 0, fun _ => 0⟩
  (List.range NBUF).foldl pushFront ((m.setPrev head head).setNext head head)

/-- The cache after `binit`: the buffers are as the loader left them, all zero. -/
def binit : Sys where
  links := binitLinks
  buf _ := ⟨false, 0, 0, 0, none⟩
  pins _ := 0
  pc _ := .idle

def Sys.setBuf (s : Sys) (b : ℕ) (x : Buf) : Sys := { s with buf := Function.update s.buf b x }

def Sys.setPc (s : Sys) (p : ℕ) (pc : Pc) : Sys := { s with pc := Function.update s.pc p pc }

/-- The first loop of `bget`. -/
def findCached (s : Sys) (dev blockno : UInt32) : Option (Option ℕ) :=
  search s.links.next head (fun b => (s.buf b).dev = dev ∧ (s.buf b).blockno = blockno) (NBUF + 1)
    (s.links.next head)

/-- The second loop of `bget`. -/
def findUnused (s : Sys) : Option (Option ℕ) :=
  search s.links.prev head (fun b => (s.buf b).refcnt = 0) (NBUF + 1) (s.links.prev head)

/-- `bget`, up to `acquiresleep`. A loop that does not come back to the head gets no further. -/
def bget (s : Sys) (p : ℕ) (dev blockno : UInt32) : Except Stop (Sys × List Ev) :=
  if s.pc p ≠ .idle then .error .blocked
  else
    match findCached s dev blockno with
    | none => .error .blocked
    | some (some b) =>
      .ok ((s.setBuf b { s.buf b with refcnt := (s.buf b).refcnt + 1 }).setPc p (.bget b), [])
    | some none =>
      match findUnused s with
      | none => .error .blocked
      | some (some b) =>
        .ok ((s.setBuf b { s.buf b with dev := dev, blockno := blockno, valid := false, refcnt := 1 }).setPc p
          (.bget b), [.recycled p b])
      | some none => .error (.panic "bget: no buffers")

/-- `acquiresleep`, at the end of `bget`. -/
def acquiresleep (s : Sys) (p : ℕ) : Except Stop (Sys × List Ev) :=
  match s.pc p with
  | .bget b =>
    if (s.buf b).owner ≠ none then .error .blocked
    else .ok ((s.setBuf b { s.buf b with owner := some p }).setPc p .idle, [])
  | _ => .error .blocked

/-- The end of `bread`: the block has been read from the disk. -/
def fill (s : Sys) (p b : ℕ) : Except Stop (Sys × List Ev) :=
  if s.pc p ≠ .idle ∨ (s.buf b).owner ≠ some p then .error .blocked
  else .ok (s.setBuf b { s.buf b with valid := true }, [])

/-- `brelse`, up to `acquire(&bcache.lock)`. -/
def brelse (s : Sys) (p b : ℕ) : Except Stop (Sys × List Ev) :=
  if s.pc p ≠ .idle then .error .blocked
  else if (s.buf b).owner ≠ some p then .error (.panic "brelse")
  else .ok ((s.setBuf b { s.buf b with owner := none }).setPc p (.brelse b), [])

/-- The critical section of `brelse`. -/
def unref (s : Sys) (p : ℕ) : Except Stop (Sys × List Ev) :=
  match s.pc p with
  | .brelse b =>
    let s1 := (s.setBuf b { s.buf b with refcnt := (s.buf b).refcnt - 1 }).setPc p .idle
    if (s.buf b).refcnt - 1 = 0 then
      .ok ({ s1 with links := pushFront (takeOut s1.links b) b }, [.released p b])
    else .ok (s1, [.released p b])
  | _ => .error .blocked

/-- `bpin` of a buffer the process holds. -/
def bpin (s : Sys) (p b : ℕ) : Except Stop (Sys × List Ev) :=
  if s.pc p ≠ .idle ∨ (s.buf b).owner ≠ some p then .error .blocked
  else .ok ({ s.setBuf b { s.buf b with refcnt := (s.buf b).refcnt + 1 } with
    pins := Function.update s.pins b (s.pins b + 1) }, [])

/-- `bunpin` of a pinned buffer the process holds. -/
def bunpin (s : Sys) (p b : ℕ) : Except Stop (Sys × List Ev) :=
  if s.pc p ≠ .idle ∨ (s.buf b).owner ≠ some p ∨ s.pins b = 0 then .error .blocked
  else .ok ({ s.setBuf b { s.buf b with refcnt := (s.buf b).refcnt - 1 } with
    pins := Function.update s.pins b (s.pins b - 1) }, [])

inductive Act
  | bget (p : ℕ) (dev blockno : UInt32)
  | acquiresleep (p : ℕ)
  | fill (p b : ℕ)
  | brelse (p b : ℕ)
  | unref (p : ℕ)
  | bpin (p b : ℕ)
  | bunpin (p b : ℕ)

def step (s : Sys) : Act → Except Stop (Sys × List Ev)
  | .bget p dev blockno => bget s p dev blockno
  | .acquiresleep p => acquiresleep s p
  | .fill p b => fill s p b
  | .brelse p b => brelse s p b
  | .unref p => unref s p
  | .bpin p b => bpin s p b
  | .bunpin p b => bunpin s p b

/-! ### When a buffer was released -/

def Ev.isRelease (b : ℕ) : Ev → Bool
  | .released _ c => c = b
  | .recycled _ _ => false

/-- When `b` was last released: the number of events up to then, 0 if it never was. -/
def lastRelease (tr : List Ev) (b : ℕ) : ℕ := tr.length - tr.reverse.findIdx (·.isRelease b)

theorem lastRelease_snoc (tr : List Ev) (e : Ev) (b : ℕ) :
    lastRelease (tr ++ [e]) b = if e.isRelease b then tr.length + 1 else lastRelease tr b := by
  rw [lastRelease, List.reverse_append, List.reverse_singleton, List.singleton_append, List.findIdx_cons,
    List.length_append, List.length_singleton]
  cases e.isRelease b with
  | true => simp
  | false =>
    simp only [cond_false, Bool.false_eq_true, if_false, lastRelease]
    omega

theorem lastRelease_le (tr : List Ev) (b : ℕ) : lastRelease tr b ≤ tr.length := Nat.sub_le ..

/-! ### The list -/

/-- The links make a list of all buffers, in both directions, in which the
unused ones stand in the order of their last release. -/
def Lru (m : Mem ℕ) (refcnt last : ℕ → ℕ) : Prop :=
  ∃ l, l.Perm (List.range NBUF) ∧ Path m head l head ∧
    l.Pairwise fun x y => refcnt x = 0 → refcnt y = 0 → last y ≤ last x

variable {m : Mem ℕ} {refcnt refcnt' last last' : ℕ → ℕ} {b c : ℕ}

theorem mem_of_perm {l : List ℕ} (h : l.Perm (List.range NBUF)) : b ∈ l ↔ b < NBUF := by
  rw [h.mem_iff, List.mem_range]

theorem nodup_of_perm {l : List ℕ} (h : l.Perm (List.range NBUF)) : (head :: l).Nodup := by
  refine List.nodup_cons.mpr ⟨?_, h.nodup_iff.mpr List.nodup_range⟩
  rw [mem_of_perm h]
  exact Nat.lt_irrefl _

theorem Lru.mono (h : Lru m refcnt last)
    (hx : ∀ x, refcnt' x = 0 → refcnt x = 0 ∧ last' x = last x) : Lru m refcnt' last' := by
  obtain ⟨l, hperm, hpath, hord⟩ := h
  refine ⟨l, hperm, hpath, hord.imp fun hxy h1 h2 => ?_⟩
  rw [(hx _ h1).2, (hx _ h2).2]
  exact hxy (hx _ h1).1 (hx _ h2).1

theorem pushFront_eq (hb : b ≠ head) : pushFront m b = linkAfter m head b := by
  unfold pushFront linkAfter
  simp only [Mem.setPrev_next, Mem.setNext_of_ne _ (Ne.symm hb)]

theorem takeOut_eq (hb : b ≠ m.next b) : takeOut m b = cut m b := by
  unfold takeOut cut
  simp only [Mem.setPrev_next, Mem.setPrev_of_ne _ hb]
  rfl

/-- Buffer `b` goes to the front: it was released last. -/
theorem Lru.front (h : Lru m refcnt last) (hb : b < NBUF)
    (hne : ∀ x, x ≠ b → refcnt' x = refcnt x ∧ last' x = last x) (hlast : ∀ x, last' x ≤ last' b) :
    Lru (pushFront (takeOut m b) b) refcnt' last' := by
  obtain ⟨l, hperm, hpath, hord⟩ := h
  have hnd := nodup_of_perm hperm
  have hmem : b ∈ l := (mem_of_perm hperm).mpr hb
  obtain ⟨l₁, l₂, rfl⟩ := List.append_of_mem hmem
  obtain ⟨hp1, hp2⟩ := path_append.mp hpath
  have hnd' : (b :: (l₁ ++ l₂)).Nodup := (List.perm_middle.nodup_iff).mp (List.nodup_cons.mp hnd).2
  have hbn : b ≠ m.next b := by
    rw [hp2.next_eq]
    cases l₂ with
    | nil => exact Nat.ne_of_lt hb
    | cons y l => exact fun he => (List.nodup_cons.mp hnd').1 (by simp [show b = y from he])
  have hcut : Path (takeOut m b) head (l₁ ++ l₂) head := by
    rw [takeOut_eq hbn]
    exact hp1.cut hp2 hnd
  have hhead : head ∉ l₁ ++ l₂ := by
    have := (List.nodup_cons.mp hnd).1
    simp only [List.mem_append, List.mem_cons, not_or] at this ⊢
    exact ⟨this.1, this.2.2⟩
  refine ⟨b :: (l₁ ++ l₂), List.perm_middle.symm.trans hperm, ?_, ?_⟩
  · rw [pushFront_eq (Nat.ne_of_lt hb)]
    refine hcut.linkAfter (List.nodup_cons.mpr ⟨hhead, (List.nodup_cons.mp hnd').2⟩) ?_
    simp only [List.mem_cons, not_or]
    exact ⟨Nat.ne_of_lt hb, (List.nodup_cons.mp hnd').1⟩
  · refine List.pairwise_cons.mpr ⟨fun y _ _ _ => hlast y, ?_⟩
    have hsub : (l₁ ++ l₂).Sublist (l₁ ++ b :: l₂) := (List.Sublist.refl l₁).append (List.sublist_cons_self b l₂)
    refine (hord.sublist hsub).imp_of_mem fun {x y} hx hy hxy h1 h2 => ?_
    have hxb : x ≠ b := fun he => (List.nodup_cons.mp hnd').1 (he ▸ hx)
    have hyb : y ≠ b := fun he => (List.nodup_cons.mp hnd').1 (he ▸ hy)
    rw [(hne x hxb).2, (hne y hyb).2]
    exact hxy ((hne x hxb).1 ▸ h1) ((hne y hyb).1 ▸ h2)

/-- The first loop of `bget` finds the buffer if there is one. -/
theorem Lru.search_next (h : Lru m refcnt last) (p : ℕ → Bool) : ∃ r,
    search m.next head p (NBUF + 1) (m.next head) = some r ∧
      (∀ b, r = some b → b < NBUF ∧ p b = true) ∧ (r = none → ∀ b, b < NBUF → p b = false) := by
  obtain ⟨l, hperm, hpath, -⟩ := h
  have hs := hpath.search_next (List.nodup_cons.mp (nodup_of_perm hperm)).1 p
  rw [hperm.length_eq, List.length_range] at hs
  refine ⟨l.find? p, hs, fun b hb => ?_, fun hn b hb => ?_⟩
  · exact ⟨(mem_of_perm hperm).mp (List.mem_of_find?_eq_some hb), List.find?_some hb⟩
  · have := List.find?_eq_none.mp hn b ((mem_of_perm hperm).mpr hb)
    simpa using this

/-- The second loop of `bget` finds the unused buffer that was released longest ago. -/
theorem Lru.search_prev (h : Lru m refcnt last) : ∃ r,
    search m.prev head (fun b => refcnt b = 0) (NBUF + 1) (m.prev head) = some r ∧
      (∀ b, r = some b → b < NBUF ∧ refcnt b = 0 ∧ ∀ c, c < NBUF → refcnt c = 0 → last b ≤ last c) ∧
      (r = none → ∀ b, b < NBUF → refcnt b ≠ 0) := by
  obtain ⟨l, hperm, hpath, hord⟩ := h
  have hs := hpath.search_prev (List.nodup_cons.mp (nodup_of_perm hperm)).1 fun b => refcnt b = 0
  rw [hperm.length_eq, List.length_range] at hs
  refine ⟨_, hs, fun b hb => ?_, fun hn b hb h0 => ?_⟩
  rotate_left
  · have := List.find?_eq_none.mp hn b (List.mem_reverse.mpr ((mem_of_perm hperm).mpr hb))
    simp [h0] at this
  have hmem := List.mem_reverse.mp (List.mem_of_find?_eq_some hb)
  have hb0 : refcnt b = 0 := by simpa using List.find?_some hb
  refine ⟨(mem_of_perm hperm).mp hmem, hb0, fun c hc hc0 => ?_⟩
  -- everything behind `b` in the list is in use
  obtain ⟨-, as, bs, hl, has⟩ := List.find?_eq_some_iff_append.mp hb
  have hl' : l = bs.reverse ++ b :: as.reverse := by
    rw [← List.reverse_reverse l, hl]
    simp
  rw [hl'] at hord
  have hcl : c ∈ l := (mem_of_perm hperm).mpr hc
  rw [hl'] at hcl
  rcases List.mem_append.mp hcl with h1 | h1
  · exact (List.pairwise_append.mp hord).2.2 c h1 b (by simp) hc0 hb0
  · rcases List.mem_cons.mp h1 with rfl | h1
    · exact le_rfl
    · have := has c (List.mem_reverse.mp h1)
      simp [hc0] at this

theorem path_binit : Path binitLinks head (List.range NBUF).reverse head := by
  have h : ∀ n, n ≤ NBUF → Path ((List.range n).foldl pushFront
      (((⟨fun _ => 0, fun _ => 0⟩ : Mem ℕ).setPrev head head).setNext head head)) head (List.range n).reverse head := by
    intro n
    induction n with
    | zero => exact fun _ => ⟨by simp, by simp⟩
    | succ n ih =>
      intro hn
      have hlt : ∀ x ∈ (List.range n).reverse, x < n := fun x hx => List.mem_range.mp (List.mem_reverse.mp hx)
      have hhead : head ∉ (List.range n).reverse := fun hm => absurd (hlt _ hm) (by unfold head; omega)
      rw [List.range_succ, List.foldl_append, List.foldl_cons, List.foldl_nil, List.reverse_append,
        List.reverse_singleton, List.singleton_append, pushFront_eq (Nat.ne_of_lt hn)]
      refine (ih (by omega)).linkAfter (List.nodup_cons.mpr ⟨hhead, ?_⟩) ?_
      · exact List.nodup_reverse.mpr List.nodup_range
      · rw [List.mem_cons, not_or]
        exact ⟨Nat.ne_of_lt hn, fun hm => absurd (hlt _ hm) (Nat.lt_irrefl n)⟩
  exact h NBUF le_rfl

theorem lru_binit : Lru binitLinks (fun _ => 0) (fun _ => 0) :=
  ⟨(List.range NBUF).reverse, List.reverse_perm _, path_binit, List.pairwise_of_forall fun _ _ _ _ => le_rfl⟩

/-! ### Identities and counts -/

/-- No block of a device other than 0 is cached twice. -/
def Ident (buf : ℕ → Buf) : Prop :=
  ∀ b c, b < NBUF → c < NBUF → (buf b).dev ≠ 0 → (buf b).dev = (buf c).dev →
    (buf b).blockno = (buf c).blockno → b = c

/-- `refcnt` counts the processes that wait for the buffer, hold it or are
about to give it up, and the pins. -/
structure Refs (buf : ℕ → Buf) (pins : ℕ → ℕ) (pc : ℕ → Pc) : Prop where
  count : ∀ b, b < NBUF → ∃ w r, Tally pc (.bget b) w ∧ Tally pc (.brelse b) r ∧
    (buf b).refcnt = w + r + (if (buf b).owner = none then 0 else 1) + pins b
  bgetLt : ∀ p b, pc p = .bget b → b < NBUF
  brelseLt : ∀ p b, pc p = .brelse b → b < NBUF
  ownerLt : ∀ p b, (buf b).owner = some p → b < NBUF
  excl : ∀ p b, pc p = .brelse b → (buf b).owner ≠ some p

structure Inv (s : Sys) (tr : List Ev) : Prop where
  lru : Lru s.links (fun b => (s.buf b).refcnt) (lastRelease tr)
  ident : Ident s.buf
  refs : Refs s.buf s.pins s.pc

variable {s s' : Sys} {tr tr' : List Ev} {buf : ℕ → Buf} {pins pins' : ℕ → ℕ} {pc : ℕ → Pc} {x : Buf} {p : ℕ}
  {q : Pc}

theorem Ident.set (h : Ident buf) (hd : x.dev = (buf b).dev) (hn : x.blockno = (buf b).blockno) :
    Ident (Function.update buf b x) := by
  have hdev : ∀ c, (Function.update buf b x c).dev = (buf c).dev := by
    intro c
    by_cases hc : c = b
    · rw [hc, Function.update_self, hd]
    · rw [Function.update_of_ne hc]
  have hno : ∀ c, (Function.update buf b x c).blockno = (buf c).blockno := by
    intro c
    by_cases hc : c = b
    · rw [hc, Function.update_self, hn]
    · rw [Function.update_of_ne hc]
  intro c d hc hd h1 h2 h3
  rw [hdev] at h1 h2
  rw [hdev] at h2
  rw [hno, hno] at h3
  exact h c d hc hd h1 h2 h3

/-- A buffer gets the identity of a block that is not cached. -/
theorem Ident.recycle (h : Ident buf)
    (hx : ∀ c, c < NBUF → ¬ ((buf c).dev = x.dev ∧ (buf c).blockno = x.blockno)) :
    Ident (Function.update buf b x) := by
  intro c d hc hd h1 h2 h3
  by_cases hcb : c = b
  · by_cases hdb : d = b
    · rw [hcb, hdb]
    · rw [hcb, Function.update_self, Function.update_of_ne hdb] at h2 h3
      exact absurd ⟨h2.symm, h3.symm⟩ (hx d hd)
  · rw [Function.update_of_ne hcb] at h1 h2 h3
    by_cases hdb : d = b
    · rw [hdb, Function.update_self] at h2 h3
      exact absurd ⟨h2, h3⟩ (hx c hc)
    · rw [Function.update_of_ne hdb] at h2 h3
      exact h c d hc hd h1 h2 h3

/-- The places of a process that have to do with no other buffer than `b`. -/
def Pc.About (b : ℕ) (q : Pc) : Prop := q = .idle ∨ q = .bget b ∨ q = .brelse b

theorem Pc.About.bget_ne (h : q.About b) (hc : c ≠ b) : q ≠ .bget c := by
  rcases h with rfl | rfl | rfl <;> simp [Ne.symm hc]

theorem Pc.About.brelse_ne (h : q.About b) (hc : c ≠ b) : q ≠ .brelse c := by
  rcases h with rfl | rfl | rfl <;> simp [Ne.symm hc]

/-- A step of process `p` that has to do with buffer `b` only: the counts of the others stay. -/
theorem Refs.set (h : Refs buf pins pc) (hb : b < NBUF) (hp : (pc p).About b) (hq : q.About b)
    (hpins : ∀ c, c ≠ b → pins' c = pins c)
    (hcount : ∃ w r, Tally (Function.update pc p q) (.bget b) w ∧ Tally (Function.update pc p q) (.brelse b) r ∧
      x.refcnt = w + r + (if x.owner = none then 0 else 1) + pins' b)
    (hexcl : ∀ u, Function.update pc p q u = .brelse b → x.owner ≠ some u) :
    Refs (Function.update buf b x) pins' (Function.update pc p q) := by
  refine ⟨fun c hc => ?_, fun u c hu => ?_, fun u c hu => ?_, fun u c hu => ?_, fun u c hu => ?_⟩
  · by_cases hcb : c = b
    · rw [hcb, Function.update_self]
      exact hcount
    · obtain ⟨w, r, hw, hr, he⟩ := h.count c hc
      refine ⟨w, r, hw.pass (hp.bget_ne hcb) (hq.bget_ne hcb), hr.pass (hp.brelse_ne hcb) (hq.brelse_ne hcb), ?_⟩
      rw [Function.update_of_ne hcb, hpins c hcb]
      exact he
  · by_cases hcb : c = b
    · rwa [hcb]
    · by_cases hup : u = p
      · rw [hup, Function.update_self] at hu
        exact absurd hu (hq.bget_ne hcb)
      · rw [Function.update_of_ne hup] at hu
        exact h.bgetLt u c hu
  · by_cases hcb : c = b
    · rwa [hcb]
    · by_cases hup : u = p
      · rw [hup, Function.update_self] at hu
        exact absurd hu (hq.brelse_ne hcb)
      · rw [Function.update_of_ne hup] at hu
        exact h.brelseLt u c hu
  · by_cases hcb : c = b
    · rwa [hcb]
    · rw [Function.update_of_ne hcb] at hu
      exact h.ownerLt u c hu
  · by_cases hcb : c = b
    · rw [hcb] at hu ⊢
      rw [Function.update_self]
      exact hexcl u hu
    · rw [Function.update_of_ne hcb]
      by_cases hup : u = p
      · rw [hup, Function.update_self] at hu
        exact absurd hu (hq.brelse_ne hcb)
      · rw [Function.update_of_ne hup] at hu
        exact h.excl u c hu

/-- The same, for a process that is at rest before and after. -/
theorem Refs.setIdle (h : Refs buf pins pc) (hb : b < NBUF) (hp : pc p = .idle)
    (hpins : ∀ c, c ≠ b → pins' c = pins c) (howner : x.owner = (buf b).owner)
    (hcount : (buf b).refcnt + pins' b = x.refcnt + pins b) :
    Refs (Function.update buf b x) pins' pc := by
  have hidle : Function.update pc p .idle = pc := by
    rw [← hp]
    exact Function.update_eq_self p pc
  obtain ⟨w, r, hw, hr, he⟩ := h.count b hb
  have hset := h.set (p := p) (q := .idle) (x := x) hb (.inl hp) (.inl rfl) hpins
    ⟨w, r, by rwa [hidle], by rwa [hidle], by rw [howner]; omega⟩ (fun u hu => by
      rw [hidle] at hu
      rw [howner]
      exact h.excl u b hu)
  rwa [hidle] at hset

/-! ### The steps -/

/-- The list when the links stay and only `b` may have become used. -/
theorem Inv.lruSet (h : Inv s tr) (hx : x.refcnt = 0 → (s.buf b).refcnt = 0) :
    Lru s.links (fun c => (Function.update s.buf b x c).refcnt) (lastRelease tr) := by
  refine h.lru.mono fun c hc => ⟨?_, rfl⟩
  by_cases hcb : c = b
  · rw [hcb, Function.update_self] at hc
    rw [hcb]
    exact hx hc
  · rwa [Function.update_of_ne hcb] at hc

theorem inv_bget {dev blockno : UInt32} (h : Inv s tr) (he : bget s p dev blockno = .ok (s', tr')) :
    Inv s' (tr ++ tr') := by
  unfold bget at he
  split at he
  · cases he
  · next hidle =>
    rw [not_not] at hidle
    obtain ⟨r, hr, hfound, hnone⟩ := h.lru.search_next fun b => (s.buf b).dev = dev ∧ (s.buf b).blockno = blockno
    have hcached : findCached s dev blockno = some r := hr
    rw [hcached] at he
    cases r with
    | some b =>
      obtain ⟨rfl, rfl⟩ := Prod.mk.inj (Except.ok.inj he)
      have hb := (hfound b rfl).1
      obtain ⟨w, r, hw, hr, hcnt⟩ := h.refs.count b hb
      rw [List.append_nil]
      refine ⟨h.lruSet (by simp), h.ident.set rfl rfl, ?_⟩
      refine h.refs.set hb (.inl hidle) (.inr (.inl rfl)) (fun _ _ => rfl)
        ⟨w + 1, r, hw.enter (by simp [hidle]), hr.pass (by simp [hidle]) (by simp), ?_⟩ fun u hu => ?_
      · simp only [Sys.setPc, Sys.setBuf]
        omega
      · have hup : u ≠ p := fun hup => by simp [hup] at hu
        rw [Function.update_of_ne hup] at hu
        exact h.refs.excl u b hu
    | none =>
      obtain ⟨r, hr', hold, -⟩ := h.lru.search_prev
      have hunused : findUnused s = some r := hr'
      simp only [hunused] at he
      cases r with
      | none => cases he
      | some b =>
        obtain ⟨rfl, rfl⟩ := Prod.mk.inj (Except.ok.inj he)
        obtain ⟨hb, h0, -⟩ := hold b rfl
        obtain ⟨w, r, hw, hr, hcnt⟩ := h.refs.count b hb
        have hlast : lastRelease (tr ++ [.recycled p b]) = lastRelease tr := by
          funext c
          rw [lastRelease_snoc]
          rfl
        refine ⟨?_, h.ident.recycle fun c hc => ?_, ?_⟩
        · rw [hlast]
          exact h.lruSet (by simp)
        · have := hnone rfl c hc
          simpa using this
        · rw [h0] at hcnt
          refine h.refs.set hb (.inl hidle) (.inr (.inl rfl)) (fun _ _ => rfl)
            ⟨w + 1, r, hw.enter (by simp [hidle]), hr.pass (by simp [hidle]) (by simp), ?_⟩ fun u hu => ?_
          · simp only [Sys.setPc, Sys.setBuf]
            omega
          · have hup : u ≠ p := fun hup => by simp [hup] at hu
            rw [Function.update_of_ne hup] at hu
            exact h.refs.excl u b hu

theorem inv_acquiresleep (h : Inv s tr) (he : acquiresleep s p = .ok (s', tr')) : Inv s' (tr ++ tr') := by
  unfold acquiresleep at he
  split at he
  · next b hpc =>
    split at he
    · cases he
    · next hfree =>
      rw [not_not] at hfree
      obtain ⟨rfl, rfl⟩ := Prod.mk.inj (Except.ok.inj he)
      have hb := h.refs.bgetLt p b hpc
      obtain ⟨w, r, hw, hr, hcnt⟩ := h.refs.count b hb
      have hpos := hw.pos hpc
      rw [List.append_nil]
      refine ⟨h.lruSet id, h.ident.set rfl rfl, ?_⟩
      refine h.refs.set hb (.inr (.inl hpc)) (.inl rfl) (fun _ _ => rfl)
        ⟨w - 1, r, hw.leave hpc (by simp), hr.pass (by simp [hpc]) (by simp), ?_⟩ fun u hu hup => ?_
      · rw [hfree] at hcnt
        simp only [Sys.setPc, Sys.setBuf, reduceCtorEq, if_true, if_false] at hcnt ⊢
        omega
      · obtain rfl : p = u := Option.some.inj hup
        simp at hu
  · cases he

theorem inv_fill (h : Inv s tr) (he : fill s p b = .ok (s', tr')) : Inv s' (tr ++ tr') := by
  unfold fill at he
  split at he
  · cases he
  · next hg =>
    simp only [not_or, not_not] at hg
    obtain ⟨rfl, rfl⟩ := Prod.mk.inj (Except.ok.inj he)
    rw [List.append_nil]
    exact ⟨h.lruSet id, h.ident.set rfl rfl,
      h.refs.setIdle (h.refs.ownerLt p b hg.2) hg.1 (fun _ _ => rfl) rfl rfl⟩

theorem inv_brelse (h : Inv s tr) (he : brelse s p b = .ok (s', tr')) : Inv s' (tr ++ tr') := by
  unfold brelse at he
  split at he
  · cases he
  · next hidle =>
    rw [not_not] at hidle
    split at he
    · cases he
    · next howner =>
      rw [not_not] at howner
      obtain ⟨rfl, rfl⟩ := Prod.mk.inj (Except.ok.inj he)
      have hb := h.refs.ownerLt p b howner
      obtain ⟨w, r, hw, hr, hcnt⟩ := h.refs.count b hb
      rw [List.append_nil]
      refine ⟨h.lruSet id, h.ident.set rfl rfl, ?_⟩
      refine h.refs.set hb (.inl hidle) (.inr (.inr rfl)) (fun _ _ => rfl)
        ⟨w, r + 1, hw.pass (by simp [hidle]) (by simp), hr.enter (by simp [hidle]), ?_⟩ fun u _ hu => nomatch hu
      rw [howner] at hcnt
      simp only [Sys.setPc, Sys.setBuf, reduceCtorEq, if_true, if_false] at hcnt ⊢
      omega

theorem inv_unref (h : Inv s tr) (he : unref s p = .ok (s', tr')) : Inv s' (tr ++ tr') := by
  unfold unref at he
  split at he
  · next b hpc =>
    have hb := h.refs.brelseLt p b hpc
    obtain ⟨w, r, hw, hr, hcnt⟩ := h.refs.count b hb
    have hpos := hr.pos hpc
    have hlast : ∀ c, c ≠ b → lastRelease (tr ++ [.released p b]) c = lastRelease tr c := by
      intro c hc
      rw [lastRelease_snoc]
      simp [Ev.isRelease, Ne.symm hc]
    have hself : lastRelease (tr ++ [.released p b]) b = tr.length + 1 := by
      rw [lastRelease_snoc]
      simp [Ev.isRelease]
    have hident : Ident (Function.update s.buf b { s.buf b with refcnt := (s.buf b).refcnt - 1 }) :=
      h.ident.set rfl rfl
    have hrefs : Refs (Function.update s.buf b { s.buf b with refcnt := (s.buf b).refcnt - 1 }) s.pins
        (Function.update s.pc p .idle) := by
      refine h.refs.set hb (.inr (.inr hpc)) (.inl rfl) (fun _ _ => rfl)
        ⟨w, r - 1, hw.pass (by simp [hpc]) (by simp), hr.leave hpc (by simp), ?_⟩ fun u hu => ?_
      · simp only
        omega
      · have hup : u ≠ p := fun hup => by simp [hup] at hu
        rw [Function.update_of_ne hup] at hu
        exact h.refs.excl u b hu
    simp only at he
    split at he
    · next h0 =>
      -- nobody is left: the buffer goes to the front
      obtain ⟨rfl, rfl⟩ := Prod.mk.inj (Except.ok.inj he)
      refine ⟨h.lru.front hb (fun c hc => ⟨?_, hlast c hc⟩) fun c => ?_, hident, hrefs⟩
      · simp [Sys.setPc, Sys.setBuf, hc]
      · rw [hself]
        have := lastRelease_le (tr ++ [.released p b]) c
        simpa using this
    · next h0 =>
      obtain ⟨rfl, rfl⟩ := Prod.mk.inj (Except.ok.inj he)
      refine ⟨h.lru.mono fun c hc => ?_, hident, hrefs⟩
      have hcb : c ≠ b := fun hcb => h0 (by simpa [Sys.setPc, Sys.setBuf, hcb] using hc)
      refine ⟨?_, hlast c hcb⟩
      simpa [Sys.setPc, Sys.setBuf, hcb] using hc
  · cases he

theorem inv_bpin (h : Inv s tr) (he : bpin s p b = .ok (s', tr')) : Inv s' (tr ++ tr') := by
  unfold bpin at he
  split at he
  · cases he
  · next hg =>
    simp only [not_or, not_not] at hg
    obtain ⟨rfl, rfl⟩ := Prod.mk.inj (Except.ok.inj he)
    rw [List.append_nil]
    refine ⟨h.lruSet (by simp), h.ident.set rfl rfl, ?_⟩
    refine h.refs.setIdle (h.refs.ownerLt p b hg.2) hg.1 (fun c hc => Function.update_of_ne hc ..) rfl ?_
    simp only [Function.update_self]
    omega

theorem inv_bunpin (h : Inv s tr) (he : bunpin s p b = .ok (s', tr')) : Inv s' (tr ++ tr') := by
  unfold bunpin at he
  split at he
  · cases he
  · next hg =>
    simp only [not_or, not_not] at hg
    obtain ⟨hidle, howner, hpin⟩ := hg
    obtain ⟨rfl, rfl⟩ := Prod.mk.inj (Except.ok.inj he)
    have hb := h.refs.ownerLt p b howner
    obtain ⟨w, r, -, -, hcnt⟩ := h.refs.count b hb
    rw [howner] at hcnt
    simp only [reduceCtorEq, if_false] at hcnt
    rw [List.append_nil]
    -- the holder is counted too, so the buffer stays in use
    refine ⟨h.lruSet fun h0 => absurd h0 (by simp only; omega), h.ident.set rfl rfl, ?_⟩
    refine h.refs.setIdle hb hidle (fun c hc => Function.update_of_ne hc ..) rfl ?_
    simp only [Function.update_self]
    omega

theorem inv_step {a : Act} (h : Inv s tr) (he : step s a = .ok (s', tr')) : Inv s' (tr ++ tr') := by
  cases a with
  | bget p dev blockno => exact inv_bget h he
  | acquiresleep p => exact inv_acquiresleep h he
  | fill p b => exact inv_fill h he
  | brelse p b => exact inv_brelse h he
  | unref p => exact inv_unref h he
  | bpin p b => exact inv_bpin h he
  | bunpin p b => exact inv_bunpin h he

theorem inv_binit : Inv binit [] where
  lru := lru_binit
  ident := fun b c _ _ h => absurd rfl h
  refs := ⟨fun b _ => ⟨0, 0, .zero (by simp [binit]), .zero (by simp [binit]), rfl⟩, by simp [binit],
    by simp [binit], by simp [binit], by simp [binit]⟩

/-! ### What the cache is -/

/-- Whether process `p` has buffer `b`: it holds the lock, or is on its way out of `brelse`. -/
def Sys.Holds (s : Sys) (p b : ℕ) : Prop := (s.buf b).owner = some p ∨ s.pc p = .brelse b

/-- The holders and the waiters, told apart. -/
theorem Refs.holders (h : Refs s.buf s.pins s.pc) (hb : b < NBUF) : ∃ W H : Finset ℕ,
    (∀ p, p ∈ W ↔ s.pc p = .bget b) ∧ (∀ p, p ∈ H ↔ s.Holds p b) ∧
      (s.buf b).refcnt = H.card + W.card + s.pins b := by
  obtain ⟨-, -, ⟨W, hW, rfl⟩, ⟨L, hL, rfl⟩, he⟩ := h.count b hb
  cases ho : (s.buf b).owner with
  | none =>
    refine ⟨W, L, hW, fun p => ?_, ?_⟩
    · rw [hL, Sys.Holds, ho]
      simp
    · rw [ho] at he
      simp only [if_true] at he
      omega
  | some u =>
    have hu : u ∉ L := fun hm => h.excl u b ((hL u).mp hm) ho
    refine ⟨W, insert u L, hW, fun p => ?_, ?_⟩
    · rw [Finset.mem_insert, hL, Sys.Holds, ho, Option.some.injEq, eq_comm]
    · rw [ho] at he
      simp only [reduceCtorEq, if_false] at he
      rw [Finset.card_insert_of_notMem hu]
      omega

/-- The buffers carry the same blocks. -/
def Same (buf buf' : ℕ → Buf) : Prop := ∀ b, (buf' b).dev = (buf b).dev ∧ (buf' b).blockno = (buf b).blockno

theorem same_set (hd : x.dev = (buf c).dev) (hn : x.blockno = (buf c).blockno) :
    Same buf (Function.update buf c x) := by
  intro b
  by_cases hb : b = c
  · rw [hb, Function.update_self]
    exact ⟨hd, hn⟩
  · rw [Function.update_of_ne hb]
    exact ⟨rfl, rfl⟩

/-- A step leaves the identities alone, or it recycles what the second loop of `bget` finds. -/
theorem step_cases {a : Act} (he : step s a = .ok (s', tr')) :
    (Same s.buf s'.buf ∧ ∀ p b, .recycled p b ∉ tr') ∨
      ∃ p b, findUnused s = some (some b) ∧ tr' = [.recycled p b] ∧ ∀ c, c ≠ b → s'.buf c = s.buf c := by
  cases a with
  | bget p dev blockno =>
    simp only [step, bget] at he
    split at he
    · cases he
    · split at he
      · cases he
      · obtain ⟨rfl, rfl⟩ := Prod.mk.inj (Except.ok.inj he)
        exact .inl ⟨same_set rfl rfl, by simp⟩
      · split at he
        · cases he
        · next b hb =>
          obtain ⟨rfl, rfl⟩ := Prod.mk.inj (Except.ok.inj he)
          exact .inr ⟨p, b, hb, rfl, fun c hc => Function.update_of_ne hc ..⟩
        · cases he
  | acquiresleep p =>
    simp only [step, acquiresleep] at he
    split at he
    · split at he
      · cases he
      · obtain ⟨rfl, rfl⟩ := Prod.mk.inj (Except.ok.inj he)
        exact .inl ⟨same_set rfl rfl, by simp⟩
    · cases he
  | fill p b =>
    simp only [step, fill] at he
    split at he
    · cases he
    · obtain ⟨rfl, rfl⟩ := Prod.mk.inj (Except.ok.inj he)
      exact .inl ⟨same_set rfl rfl, by simp⟩
  | brelse p b =>
    simp only [step, brelse] at he
    split at he
    · cases he
    · split at he
      · cases he
      · obtain ⟨rfl, rfl⟩ := Prod.mk.inj (Except.ok.inj he)
        exact .inl ⟨same_set rfl rfl, by simp⟩
  | unref p =>
    simp only [step, unref] at he
    split at he
    · split at he <;> obtain ⟨rfl, rfl⟩ := Prod.mk.inj (Except.ok.inj he) <;>
        exact .inl ⟨same_set rfl rfl, by simp⟩
    · cases he
  | bpin p b =>
    simp only [step, bpin] at he
    split at he
    · cases he
    · obtain ⟨rfl, rfl⟩ := Prod.mk.inj (Except.ok.inj he)
      exact .inl ⟨same_set rfl rfl, by simp⟩
  | bunpin p b =>
    simp only [step, bunpin] at he
    split at he
    · cases he
    · obtain ⟨rfl, rfl⟩ := Prod.mk.inj (Except.ok.inj he)
      exact .inl ⟨same_set rfl rfl, by simp⟩

/-- A buffer that is recycled is unused, and was released longest ago. -/
theorem Inv.recycles {a : Act} (h : Inv s tr) (he : step s a = .ok (s', tr'))
    (hne : (s'.buf b).dev ≠ (s.buf b).dev ∨ (s'.buf b).blockno ≠ (s.buf b).blockno ∨
      ∃ p, .recycled p b ∈ tr') :
    (s.buf b).refcnt = 0 ∧ ∀ c, c < NBUF → (s.buf c).refcnt = 0 → lastRelease tr b ≤ lastRelease tr c := by
  rcases step_cases he with ⟨hsame, hno⟩ | ⟨p, d, hd, rfl, hother⟩
  · rcases hne with h1 | h1 | ⟨p, h1⟩
    · exact absurd (hsame b).1 h1
    · exact absurd (hsame b).2 h1
    · exact absurd h1 (hno p b)
  · obtain rfl : b = d := by
      by_contra hbd
      rw [hother b hbd] at hne
      simp [hbd] at hne
    obtain ⟨r, hr, hold, -⟩ := h.lru.search_prev
    have hbr : some r = some (some b) := hr.symm.trans hd
    exact (hold b (Option.some.inj hbr)).2

/-- **The buffer cache.** In every state of every run from `binit`: the links
make a list of all buffers, each once, in both directions; no block of a
device other than 0 is cached twice; `refcnt` is the number of the processes
that hold the buffer or wait for it, plus the pins; and a step that recycles
a buffer, or changes its identity, finds it with `refcnt` 0 and released no
later than any other buffer with `refcnt` 0. -/
theorem bcache_representation (acts : List Act) (s : Sys) (tr : List Ev)
    (h : run step binit acts = .ok (s, tr)) :
    (∃ l, l.Perm (List.range NBUF) ∧ Path s.links head l head) ∧
    (∀ b c, b < NBUF → c < NBUF → (s.buf b).dev ≠ 0 → (s.buf b).dev = (s.buf c).dev →
      (s.buf b).blockno = (s.buf c).blockno → b = c) ∧
    (∀ b, b < NBUF → ∃ W H : Finset ℕ, (∀ p, p ∈ W ↔ s.pc p = .bget b) ∧ (∀ p, p ∈ H ↔ s.Holds p b) ∧
      (s.buf b).refcnt = H.card + W.card + s.pins b) ∧
    (∀ a s' tr', step s a = .ok (s', tr') → ∀ b, b < NBUF →
      ((s'.buf b).dev ≠ (s.buf b).dev ∨ (s'.buf b).blockno ≠ (s.buf b).blockno ∨ ∃ p, .recycled p b ∈ tr') →
      (s.buf b).refcnt = 0 ∧
        ∀ c, c < NBUF → (s.buf c).refcnt = 0 → lastRelease tr b ≤ lastRelease tr c) := by
  have hI : Inv s tr := run_inv inv_binit (fun _ _ _ _ _ => inv_step) h
  obtain ⟨l, hperm, hpath, -⟩ := hI.lru
  exact ⟨⟨l, hperm, hpath⟩, hI.ident, fun b hb => hI.refs.holders hb,
    fun a s' tr' he b _ hne => hI.recycles he hne⟩

/-- Block 7 is read, pinned, released, read again, unpinned and released; then block 8 is read. -/
def sampleRun : List Act :=
  [.bget 0 1 7, .acquiresleep 0, .bpin 0 0, .brelse 0 0, .unref 0, .bget 1 1 7, .acquiresleep 1, .bunpin 1 0,
    .brelse 1 0, .unref 1, .bget 0 1 8]

theorem bcache_representation_sample : ∃ s tr, run step binit sampleRun = .ok (s, tr) ∧
    (s.buf 0).blockno = 7 ∧ s.pc 0 = .bget 1 ∧ s.links.next head = 0 ∧
    ∃ l, l.Perm (List.range NBUF) ∧ Path s.links head l head := by
  obtain ⟨⟨s, tr⟩, hr, h⟩ := okWith_iff.mp (show okWith (run step binit sampleRun) (fun r =>
    (r.1.buf 0).blockno = 7 ∧ r.1.pc 0 = .bget 1 ∧ r.1.links.next head = 0) = true by decide +kernel)
  simp only [decide_eq_true_eq] at h
  exact ⟨s, tr, hr, h.1, h.2.1, h.2.2, (bcache_representation sampleRun s tr hr).1⟩

/-! ### Whether there are buffers enough -/

/-- A process holds buffer `b`, gives it up or waits for it, or the log has it pinned. -/
def Sys.Used (s : Sys) (b : ℕ) : Prop := (∃ p, s.Holds p b ∨ s.pc p = .bget b) ∨ 0 < s.pins b

theorem Refs.unused_iff (h : Refs s.buf s.pins s.pc) (hb : b < NBUF) : (s.buf b).refcnt = 0 ↔ ¬ s.Used b := by
  obtain ⟨W, H, hW, hH, he⟩ := h.holders hb
  unfold Sys.Used
  simp only [← hW, ← hH]
  constructor
  · intro h0
    have hH0 : H = ∅ := Finset.card_eq_zero.mp (by omega)
    have hW0 : W = ∅ := Finset.card_eq_zero.mp (by omega)
    simp only [hH0, hW0, Finset.notMem_empty, or_self, exists_false, false_or]
    omega
  · intro hno
    have hH0 : H = ∅ := Finset.eq_empty_of_forall_notMem fun p hp => hno (.inl ⟨p, .inl hp⟩)
    have hW0 : W = ∅ := Finset.eq_empty_of_forall_notMem fun p hp => hno (.inl ⟨p, .inr hp⟩)
    have hp0 : ¬ 0 < s.pins b := fun hp => hno (.inr hp)
    rw [he, hH0, hW0]
    simpa using hp0

/-- The buffer of the block, or one that nobody uses. -/
theorem Inv.bget_finds (h : Inv s tr) (hidle : s.pc p = .idle) (dev blockno : UInt32) :
    bget s p dev blockno ≠ .error (.panic "bget: no buffers") ↔
      (∃ b, b < NBUF ∧ (s.buf b).dev = dev ∧ (s.buf b).blockno = blockno) ∨
        ∃ b, b < NBUF ∧ (s.buf b).refcnt = 0 := by
  obtain ⟨r, hr, hfound, hnone⟩ := h.lru.search_next fun b => (s.buf b).dev = dev ∧ (s.buf b).blockno = blockno
  obtain ⟨r', hr', hold, hfull⟩ := h.lru.search_prev
  have hcached : findCached s dev blockno = some r := hr
  have hunused : findUnused s = some r' := hr'
  unfold bget
  rw [if_neg (not_not.mpr hidle), hcached]
  cases r with
  | some b => exact iff_of_true (by simp) (.inl ⟨b, by simpa using hfound b rfl⟩)
  | none =>
    simp only [hunused]
    cases r' with
    | some b => exact iff_of_true (by simp) (.inr ⟨b, (hold b rfl).1, (hold b rfl).2.1⟩)
    | none =>
      refine iff_of_false (by simp) ?_
      rintro (⟨b, hb, hblock⟩ | ⟨b, hb, h0⟩)
      · simpa [hblock] using hnone rfl b hb
      · exact hfull rfl b hb h0

/-- **In every state of every run, `bget` gets a buffer exactly if the block is
cached, or fewer than `NBUF` buffers are held, given up or waited for by
processes or pinned by the log.** -/
theorem bget_finds_iff {acts : List Act} (hr : run step binit acts = .ok (s, tr)) (hidle : s.pc p = .idle)
    (dev blockno : UInt32) :
    step s (.bget p dev blockno) ≠ .error (.panic "bget: no buffers") ↔
      (∃ b, b < NBUF ∧ (s.buf b).dev = dev ∧ (s.buf b).blockno = blockno) ∨ Fewer s.Used NBUF := by
  have h : Inv s tr := run_inv inv_binit (fun _ _ _ _ _ => inv_step) hr
  rw [fewer_iff]
  refine (h.bget_finds hidle dev blockno).trans (or_congr_right (exists_congr fun b => ?_))
  exact and_congr_right fun hb => h.refs.unused_iff hb

theorem bget_finds_sample : ∃ s tr, run step binit sampleRun = .ok (s, tr) ∧ s.pc 1 = .idle ∧
    step s (.bget 1 1 9) ≠ .error (.panic "bget: no buffers") := by
  obtain ⟨⟨s, tr⟩, hr, h⟩ := okWith_iff.mp (show okWith (run step binit sampleRun) (fun r =>
    r.1.pc 1 = .idle ∧ (r.1.buf 2).refcnt = 0) = true by decide +kernel)
  simp only [decide_eq_true_eq] at h
  have hI : Inv s tr := run_inv inv_binit (fun _ _ _ _ _ => inv_step) hr
  have hfew : Fewer s.Used NBUF := fewer_iff.mpr ⟨2, by decide, (hI.refs.unused_iff (by decide)).mp h.2⟩
  exact ⟨s, tr, hr, h.1, (bget_finds_iff hr h.1 1 9).mpr (.inr hfew)⟩

/-- Processes `0 .. n` have got buffers for blocks `0 .. n` of device 1. -/
def reading (n : ℕ) : Sys where
  links := binitLinks
  buf b := if b < n then ⟨false, 1, .ofNat b, 1, none⟩ else ⟨false, 0, 0, 0, none⟩
  pins _ := 0
  pc p := if p < n then .bget p else .idle

theorem reading_pc (n : ℕ) : (reading n).pc n = .idle := by simp [reading]

section Reading

variable {n : ℕ} (hn : n ≤ NBUF)
include hn

theorem findCached_reading : findCached (reading n) 1 (.ofNat n) = some none := by
  have hs := path_binit.search_next (by simp [head]) fun b =>
    ((reading n).buf b).dev = 1 ∧ ((reading n).buf b).blockno = .ofNat n
  rw [List.length_reverse, List.length_range] at hs
  refine hs.trans (congrArg some (List.find?_eq_none.mpr fun b _ => ?_))
  rw [decide_eq_true_eq]
  by_cases hb : b < n
  · simp only [reading, hb, if_true]
    rintro ⟨-, he⟩
    have := congrArg UInt32.toNat he
    rw [UInt32.toNat_ofNat', UInt32.toNat_ofNat'] at this
    simp only [NBUF, MAXOPBLOCKS] at hn
    omega
  · simp [reading, hb]

theorem findUnused_reading : findUnused (reading n) = some (if n < NBUF then some n else none) := by
  have hs := path_binit.search_prev (by simp [head]) fun b => ((reading n).buf b).refcnt = 0
  rw [List.length_reverse, List.length_range, List.reverse_reverse] at hs
  refine hs.trans (congrArg some ?_)
  split
  · next hlt =>
    rw [List.find?_range_eq_some]
    simp only [reading]
    refine ⟨by simp, by simpa using hlt, fun b hb => by simp [hb]⟩
  · refine List.find?_eq_none.mpr fun b hb => ?_
    have := List.mem_range.mp hb
    simp [reading, show b < n by omega]

theorem run_reading : ∃ tr, run step binit ((List.range n).map fun p => .bget p 1 (.ofNat p)) =
    .ok (reading n, tr) := by
  induction n with
  | zero => exact ⟨[], by simp [run_nil, binit, reading]⟩
  | succ n ih =>
    obtain ⟨tr, hr⟩ := ih (by omega)
    have hstep : step (reading n) (.bget n 1 (.ofNat n)) = .ok (reading (n + 1), [.recycled n n]) := by
      have hle : n ≤ NBUF := by omega
      have hcached := findCached_reading hle
      have hunused : findUnused (reading n) = some (some n) := by
        rw [findUnused_reading hle, if_pos (by omega)]
      simp only [step, bget, reading_pc, hcached, hunused, ne_eq, not_true_eq_false, if_false, Except.ok.injEq,
        Prod.mk.injEq, and_true]
      unfold Sys.setPc Sys.setBuf reading
      simp only [Sys.mk.injEq, true_and]
      have hlt : ∀ b, b ≠ n → (b < n + 1 ↔ b < n) := fun b hb => by omega
      constructor
      · funext b
        by_cases hb : b = n
        · simp [hb]
        · simp only [Function.update_of_ne hb, hlt b hb]
      · funext b
        by_cases hb : b = n
        · simp [hb]
        · simp only [Function.update_of_ne hb, hlt b hb]
    rw [List.range_succ, List.map_append]
    exact ⟨_, run_snoc.mpr ⟨_, _, _, hr, hstep, rfl⟩⟩

end Reading

/-- Thirty processes read thirty blocks; there is no buffer for the next one. -/
theorem bget_no_buffers : ∃ s tr, run step binit ((List.range 30).map fun p => .bget p 1 (.ofNat p)) = .ok (s, tr) ∧
    s.pc 30 = .idle ∧ (∀ b, s.pins b = 0) ∧ step s (.bget 30 1 30) = .error (.panic "bget: no buffers") := by
  obtain ⟨tr, hr⟩ := run_reading (n := 30) le_rfl
  refine ⟨_, tr, hr, rfl, fun _ => rfl, ?_⟩
  have hcached : findCached (reading 30) 1 30 = some none := findCached_reading le_rfl
  have hunused : findUnused (reading 30) = some none := findUnused_reading le_rfl
  simp only [step, bget, reading_pc, hcached, hunused, ne_eq, not_true_eq_false, if_false]

end Bio
end Xv6
