/-
# Files as byte arrays

What a file is to a process: a list of bytes (`content`). `readi` delivers a
part of it, `writei` overwrites and extends it, and no other file changes.

The loops work block by block, so the bytes of all files are followed
through each part of a round: `Spares i W s s'` says that from `s` to `s'` no
byte of any file changed but those of file `i` in `W`. `bmap` may put fresh
blocks into the map, and changes no byte at all.

`writei` needs a free block for every place of the map it comes to and finds
empty (`missing`); it stops short when there is none.

Key definitions: `Fs.content`, `Fs.Spares`, `Fs.Enough`.
-/
import Mathlib.Data.Finset.Union
import Mathlib.Data.List.TakeWhile
import Mathlib.Order.Interval.Finset.Nat
import Xv6.FsRun

namespace Xv6
namespace Fs

open TraceSys

/-- Byte `j` of file `i`; the byte of a block that is not there is 0. -/
def byteAt (sb : Super) (s : Sys) (i j : ℕ) : UInt8 :=
  if s.held sb (i, blockPlace (j / BSIZE)) = 0 then 0
  else (s.data (s.held sb (i, blockPlace (j / BSIZE)))).get (j % BSIZE)

/-- The bytes of file `i`. -/
def content (sb : Super) (s : Sys) (i : ℕ) : List UInt8 :=
  (List.range (inodes sb s.data s.itable i).size).map (byteAt sb s i)

def freeBlocks (sb : Super) (data : ℕ → Block) : Finset ℕ :=
  (Finset.range sb.size).filter fun b => bits sb data b = false

/-- The places `bmap` looks at for block `n` of a file. -/
def filePlaces (n : ℕ) : Finset ℕ := if n < NDIRECT then {n} else {NDIRECT, blockPlace n}

/-- The places of the blocks with the bytes `[off, off + n)`. -/
def touched (off n : ℕ) : Finset ℕ := (Finset.Ico off (off + n)).biUnion fun j => filePlaces (j / BSIZE)

/-- The places of `Q` in which file `i` has no block. -/
def missing (sb : Super) (s : Sys) (i : ℕ) (Q : Finset ℕ) : Finset ℕ :=
  Q.filter fun q => s.held sb (i, q) = 0

/-- There is a free block for every place of `Q` in which file `i` has none. -/
def Enough (sb : Super) (s : Sys) (i : ℕ) (Q : Finset ℕ) : Prop :=
  (missing sb s i Q).card ≤ (freeBlocks sb s.data).card

/-- No byte has changed but those of file `i` in `W`. -/
structure Spares (sb : Super) (i : ℕ) (W : ℕ → Prop) (s s' : Sys) : Prop where
  inode : ∀ l, l ≠ i → inodes sb s'.data s'.itable l = inodes sb s.data s.itable l
  held : ∀ p, s.held sb p ≠ 0 → s'.held sb p = s.held sb p
  byte : ∀ l j, s.held sb (l, blockPlace (j / BSIZE)) ≠ 0 → (l = i → ¬ W j) →
    byteAt sb s' l j = byteAt sb s l j

variable {sb : Super} {s s' s1 : Sys} {i k b : ℕ} {W : ℕ → Prop}

namespace Spares

theorem refl (sb : Super) (i : ℕ) (W : ℕ → Prop) (s : Sys) : Spares sb i W s s :=
  ⟨fun _ _ => rfl, fun _ _ => rfl, fun _ _ _ _ => rfl⟩

theorem trans (h : Spares sb i W s s1) (h' : Spares sb i W s1 s') : Spares sb i W s s' where
  inode l hl := (h'.inode l hl).trans (h.inode l hl)
  held p hp := by rw [h'.held p (by rwa [h.held p hp]), h.held p hp]
  byte l j hb hW := by rw [h'.byte l j (by rwa [h.held _ hb]) hW, h.byte l j hb hW]

theorem mono {V : ℕ → Prop} (h : Spares sb i W s s') (hV : ∀ j, W j → V j) : Spares sb i V s s' :=
  ⟨h.inode, h.held, fun l j hb hnV => h.byte l j hb fun hl hw => hnV hl (hV j hw)⟩

/-- The bytes are those of the blocks held before. -/
theorem of_data (hi : ∀ l, l ≠ i → inodes sb s'.data s'.itable l = inodes sb s.data s.itable l)
    (hh : ∀ p, s.held sb p ≠ 0 → s'.held sb p = s.held sb p)
    (hd : ∀ l j, s.held sb (l, blockPlace (j / BSIZE)) ≠ 0 → (l = i → ¬ W j) →
      (s'.data (s.held sb (l, blockPlace (j / BSIZE)))).get (j % BSIZE) =
        (s.data (s.held sb (l, blockPlace (j / BSIZE)))).get (j % BSIZE)) : Spares sb i W s s' := by
  refine ⟨hi, hh, fun l j hb hW => ?_⟩
  rw [byteAt, byteAt, hh _ hb, if_neg hb, if_neg hb]
  exact hd l j hb hW

end Spares

theorem FsOk.owns (h : FsOk sb s.data s.itable) :
    Owns (s.held sb) (bits sb s.data) sb.datastart sb.size := h.fs.owns

/-! ### Allocation -/

/-- `balloc` changes no other data block than the one it gives out. -/
theorem balloc_data (hL : sb.Layout) (h : balloc sb s = (b, s')) {x : ℕ} (hx : sb.datastart ≤ x)
    (hne : x ≠ b) : s'.data x = s.data x := by
  rcases hscan : scanFree sb s with _ | ⟨c, bi⟩
  · rw [balloc, hscan] at h
    obtain ⟨-, rfl⟩ := Prod.mk.inj h
    rfl
  · obtain ⟨hlt, hblk, -, -⟩ := scanFree_some hscan
    have hmap := hL.map _ hlt
    rw [balloc, hscan] at h
    obtain ⟨rfl, rfl⟩ := Prod.mk.inj h
    simp only [bzero, logWrite, Sys.put]
    rw [Function.update_of_ne hne, Function.update_of_ne (by omega)]

theorem inodes_other {f : Dinode} (ht : s'.itable = Function.update s.itable k ((s.itable k).withDin f))
    (hd : dinodes sb s'.data = dinodes sb s.data) {l : ℕ} (hl : l ≠ (s.itable k).inum) :
    inodes sb s'.data s'.itable l = inodes sb s.data s.itable l := by
  rw [ht]
  refine inodes_congr (fun m => copy_update ?_) (congrFun hd l)
  have hnone : ((s.itable k).withDin f).copy l = none := copy_of_ne (Ne.symm hl)
  rw [hnone, copy_of_ne (Ne.symm hl)]

/-- What putting the fresh block `b` into place `q` of the file in slot `k` changes. -/
structure Placed (sb : Super) (k q b : ℕ) (s s' : Sys) : Prop where
  grows : Grows sb k s s'
  new : s'.held sb ((s.itable k).inum, q) = b
  none : s.held sb ((s.itable k).inum, q) = 0
  lt : b < sb.size
  pos : b ≠ 0
  free : bits sb s.data b = false
  bits : bits sb s'.data = Function.update (bits sb s.data) b true
  dinodes : dinodes sb s'.data = dinodes sb s.data
  data : ∀ x, sb.datastart ≤ x → x ≠ b → x ≠ s.held sb ((s.itable k).inum, NDIRECT) →
    s'.data x = s.data x

theorem Placed.spares {q : ℕ} (h : FsOk sb s.data s.itable) (hp : Placed sb k q b s s') :
    Spares sb (s.itable k).inum W s s' := by
  obtain ⟨f, hf⟩ := hp.grows.table
  refine .of_data (fun l hl => inodes_other hf hp.dinodes hl) hp.grows.kept fun l j hb _ => ?_
  have hr := h.owns.range _ hb
  rw [hp.data _ hr.1 (h.owns.ne_of_free hp.free hb) fun he => ?_]
  exact blockPlace_ne _ (Prod.mk.inj (h.owns.unique _ _ hb he)).2

/-- One place less is missing and one block less is free. -/
theorem Placed.enough {q : ℕ} {Q : Finset ℕ} (hp : Placed sb k q b s s') (hq : q ∈ Q)
    (he : Enough sb s (s.itable k).inum Q) : Enough sb s' (s.itable k).inum Q := by
  have hfree : freeBlocks sb s'.data = (freeBlocks sb s.data).erase b := by
    ext x
    simp only [freeBlocks, Finset.mem_filter, Finset.mem_erase, hp.bits]
    by_cases hx : x = b
    · simp [hx]
    · simp [hx]
  have hbm : b ∈ freeBlocks sb s.data := by
    simp [freeBlocks, hp.lt, hp.free]
  have hqm : q ∈ missing sb s (s.itable k).inum Q := by
    simp [missing, hq, hp.none]
  have hsub : missing sb s' (s.itable k).inum Q ⊆ (missing sb s (s.itable k).inum Q).erase q := by
    intro r hr
    obtain ⟨hrQ, hr0⟩ := Finset.mem_filter.mp hr
    refine Finset.mem_erase.mpr ⟨fun hrq => ?_, Finset.mem_filter.mpr ⟨hrQ, ?_⟩⟩
    · rw [hrq, hp.new] at hr0
      exact hp.pos hr0
    · by_contra hne
      rw [hp.grows.kept _ hne] at hr0
      exact hne hr0
  unfold Enough at he ⊢
  have h1 := Finset.card_le_card hsub
  rw [Finset.card_erase_of_mem hqm] at h1
  rw [hfree, Finset.card_erase_of_mem hbm]
  omega

/-- A place that is missing can be filled if there are enough blocks. -/
theorem Enough.not_full {q : ℕ} {Q : Finset ℕ} (he : Enough sb s i Q) (hq : q ∈ Q)
    (h0 : s.held sb (i, q) = 0) : ¬ ∀ b, b < sb.size → bits sb s.data b = true := by
  intro hfull
  have hfree : freeBlocks sb s.data = ∅ := by
    refine Finset.filter_eq_empty_iff.mpr fun b hb => ?_
    simp [hfull b (Finset.mem_range.mp hb)]
  have hqm : q ∈ missing sb s i Q := Finset.mem_filter.mpr ⟨hq, h0⟩
  unfold Enough at he
  rw [hfree, Finset.card_empty, Nat.le_zero, Finset.card_eq_zero] at he
  simp [he] at hqm

/-- The block is put into `addrs[q]`. -/
theorem placed_setAddr (hL : sb.Layout) (h : FsOk sb s.data s.itable) (hk : Valid s.itable k) {q : ℕ}
    (hq : q ≤ NDIRECT) (h0 : (s.itable k).din.addr q = 0) (hb : balloc sb s = (b, s1))
    (ha : Allocated sb b s s1) : Placed sb k q b s (s1.setAddr k q b) := by
  obtain ⟨-, hg, hnew⟩ := setAddr_spec hL h hk hq h0 ha
  have hdata := ha.data
  have hpos := hL.pos
  refine ⟨hg, hnew, by rw [h.held_direct hk hq, h0], ha.lt, by omega, ha.free, ha.bits, ha.dinodes, ?_⟩
  exact fun x hx hne _ => balloc_data hL hb hx hne

/-- The block is put into entry `j` of the indirect block. -/
theorem placed_setEntry (hL : sb.Layout) (h : FsOk sb s.data s.itable) (hk : Valid s.itable k) {j x : ℕ}
    (hj : j < NINDIRECT) (hx : (s.itable k).din.addr NDIRECT = x) (hx0 : x ≠ 0)
    (h0 : (s.data x).rd (4 * j) 4 = 0) (hb : balloc sb s = (b, s1)) (ha : Allocated sb b s s1) :
    Placed sb k (NDIRECT + 1 + j) b s (logWrite x (s1.put x ((s1.data x).wr (4 * j) 4 b))) := by
  obtain ⟨-, hg, hnew⟩ := setEntry_spec hL h hk hj hx hx0 h0 ha rfl
  have hdata := ha.data
  have hpos := hL.pos
  have hheld : s.held sb ((s.itable k).inum, NDIRECT) = x := by rw [h.held_direct hk le_rfl, hx]
  obtain ⟨hx1, hx2⟩ := h.owns.range ((s.itable k).inum, NDIRECT) (by rwa [hheld])
  rw [hheld] at hx1 hx2
  refine ⟨hg, hnew, ?_, ha.lt, by omega, ha.free, ?_, ?_, fun y hy hyb hyx => ?_⟩
  · rw [h.held_entry hk hj, hx, if_neg hx0, h0]
  · exact (bits_data hL hx1).trans ha.bits
  · exact (dinodes_data hL hx1 hx2).trans ha.dinodes
  · rw [hheld] at hyx
    exact (Function.update_of_ne hyx ..).trans (balloc_data hL hb hy hyb)

/-! ### `bmap` -/

/-- What `bmap` does to the bytes of the files, and when it finds a block. -/
structure Fills (sb : Super) (k : ℕ) (P : Finset ℕ) (s : Sys) (a : ℕ) (s' : Sys) : Prop where
  spares : Spares sb (s.itable k).inum (fun _ => False) s s'
  enough : ∀ Q, P ⊆ Q → Enough sb s (s.itable k).inum Q → a ≠ 0 ∧ Enough sb s' (s.itable k).inum Q
  dinodes : dinodes sb s'.data = dinodes sb s.data

theorem Fills.refl {P : Finset ℕ} {a : ℕ} (ha : a ≠ 0) : Fills sb k P s a s :=
  ⟨.refl .., fun _ _ h => ⟨ha, h⟩, rfl⟩

/-- The disk is full, and a place is missing. -/
theorem Fills.full {P : Finset ℕ} {q : ℕ} (hq : q ∈ P) (h0 : s.held sb ((s.itable k).inum, q) = 0)
    (hfull : ∀ b, b < sb.size → bits sb s.data b = true) : Fills sb k P s 0 s :=
  ⟨.refl .., fun _ hPQ h => absurd hfull (h.not_full (hPQ hq) h0), rfl⟩

theorem Placed.fills {P : Finset ℕ} {q : ℕ} (h : FsOk sb s.data s.itable) (hp : Placed sb k q b s s')
    (hq : q ∈ P) : Fills sb k P s b s' :=
  ⟨hp.spares h, fun _ hPQ he => ⟨hp.pos, hp.enough (hPQ hq) he⟩, hp.dinodes⟩

theorem Fills.trans {P : Finset ℕ} {x a : ℕ} (hx : Fills sb k P s x s1) (ha : Fills sb k P s1 a s')
    (hi : (s1.itable k).inum = (s.itable k).inum) : Fills sb k P s a s' := by
  obtain ⟨hs, he, hd⟩ := ha
  rw [hi] at hs he
  exact ⟨hx.spares.trans hs, fun Q hPQ h => he Q hPQ (hx.enough Q hPQ h).2, hd.trans hx.dinodes⟩

theorem loadIndirect_fills (hL : sb.Layout) (h : FsOk sb s.data s.itable) (hk : Valid s.itable k)
    {P : Finset ℕ} (hP : NDIRECT ∈ P) : Fills sb k P s (loadIndirect sb k s).1 (loadIndirect sb k s).2 := by
  have hheld := h.held_direct hk (le_refl NDIRECT)
  unfold loadIndirect
  by_cases h0 : (s.itable k).din.addr NDIRECT = 0
  · simp only [h0, if_true]
    rw [h0] at hheld
    rcases balloc_spec hL h.low with ⟨hb, hfull⟩ | ⟨b, s1, hb, ha⟩
    · rw [hb]
      exact .full hP hheld hfull
    · have hp := placed_setAddr hL h hk le_rfl h0 hb ha
      rw [hb]
      simp only [hp.pos, if_false]
      exact hp.fills h hP
  · simp only [h0, if_false]
    exact .refl h0

theorem bmap_fills (hL : sb.Layout) (h : FsOk sb s.data s.itable) (hk : Valid s.itable k) {bn a : ℕ}
    (hr : bmap sb k bn s = .ok (a, s')) : Fills sb k (filePlaces bn) s a s' := by
  unfold bmap at hr
  split at hr
  · next hbn =>
    have hP : bn ∈ filePlaces bn := by simp [filePlaces, hbn]
    have hheld := h.held_direct hk hbn.le
    by_cases h0 : (s.itable k).din.addr bn = 0
    · simp only [h0, if_true] at hr
      rw [h0] at hheld
      rcases balloc_spec hL h.low with ⟨hb, hfull⟩ | ⟨b, s1, hb, ha⟩
      · rw [hb] at hr
        obtain ⟨rfl, rfl⟩ := Prod.mk.inj (Except.ok.inj hr)
        exact .full hP hheld hfull
      · have hp := placed_setAddr hL h hk hbn.le h0 hb ha
        rw [hb] at hr
        simp only [hp.pos, if_false] at hr
        obtain ⟨rfl, rfl⟩ := Prod.mk.inj (Except.ok.inj hr)
        exact hp.fills h hP
    · simp only [h0, if_false] at hr
      obtain ⟨rfl, rfl⟩ := Prod.mk.inj (Except.ok.inj hr)
      exact .refl h0
  · next hbn =>
    split at hr
    · next hj =>
      have hpl : blockPlace bn = NDIRECT + 1 + (bn - NDIRECT) := by
        rw [blockPlace, if_neg hbn]
        omega
      have hP : NDIRECT ∈ filePlaces bn := by simp [filePlaces, hbn]
      have hP' : NDIRECT + 1 + (bn - NDIRECT) ∈ filePlaces bn := by simp [filePlaces, hbn, hpl]
      have hx := loadIndirect_fills hL h hk hP
      obtain ⟨x, s2, hl, hok, hg, hx1, -⟩ := loadIndirect_spec hL h hk
      rw [hl] at hx hr
      by_cases hx0 : x = 0
      · simp only [hx0, if_true] at hr
        obtain ⟨rfl, rfl⟩ := Prod.mk.inj (Except.ok.inj hr)
        exact hx0 ▸ hx
      · simp only [hx0, if_false] at hr
        refine hx.trans ?_ hg.inum
        have hk2 := hg.valid hk
        have hheld := hok.held_entry hk2 hj
        rw [hx1 hx0, if_neg hx0] at hheld
        by_cases h0 : (s2.data x).rd (4 * (bn - NDIRECT)) 4 = 0
        · simp only [h0, if_true] at hr
          rw [h0] at hheld
          rcases balloc_spec hL hok.low with ⟨hb, hfull⟩ | ⟨b, s1, hb, ha⟩
          · rw [hb] at hr
            obtain ⟨rfl, rfl⟩ := Prod.mk.inj (Except.ok.inj hr)
            exact .full hP' hheld hfull
          · have hp := placed_setEntry hL hok hk2 hj (hx1 hx0) hx0 h0 hb ha
            rw [hb] at hr
            simp only [hp.pos, if_false] at hr
            obtain ⟨rfl, rfl⟩ := Prod.mk.inj (Except.ok.inj hr)
            exact hp.fills hok hP'
        · simp only [h0, if_false] at hr
          obtain ⟨rfl, rfl⟩ := Prod.mk.inj (Except.ok.inj hr)
          exact .refl h0
    · cases hr

/-! ### What is logged -/

/-- Every change of a buffer has been handed to `log_write`. -/
def Sys.Clean (s : Sys) : Prop := s.stable = s.data

theorem Sys.Clean.write (h : s.Clean) (b : ℕ) (v : Block) : (logWrite b (s.put b v)).Clean := by
  unfold Sys.Clean at h ⊢
  simp only [logWrite, Sys.put, h, Function.update_self]

theorem Sys.Clean.balloc (h : s.Clean) (hb : balloc sb s = (b, s1)) : s1.Clean := by
  rcases hscan : scanFree sb s with _ | ⟨c, bi⟩
  · rw [Fs.balloc, hscan] at hb
    obtain ⟨-, rfl⟩ := Prod.mk.inj hb
    exact h
  · rw [Fs.balloc, hscan] at hb
    obtain ⟨-, rfl⟩ := Prod.mk.inj hb
    exact (h.write _ _).write _ _

theorem Sys.Clean.setAddr (h : s.Clean) (k q a : ℕ) : (s.setAddr k q a).Clean := h

theorem Sys.Clean.loadIndirect (h : s.Clean) : (loadIndirect sb k s).2.Clean := by
  unfold Fs.loadIndirect
  simp only
  split
  · split
    · exact h.balloc rfl
    · exact (h.balloc rfl).setAddr ..
  · exact h

theorem Sys.Clean.bmap (h : s.Clean) {bn a : ℕ} (hr : bmap sb k bn s = .ok (a, s')) : s'.Clean := by
  unfold Fs.bmap at hr
  simp only at hr
  split at hr
  · split at hr
    · split at hr <;> obtain ⟨-, rfl⟩ := Prod.mk.inj (Except.ok.inj hr)
      · exact h.balloc rfl
      · exact (h.balloc rfl).setAddr ..
    · obtain ⟨-, rfl⟩ := Prod.mk.inj (Except.ok.inj hr)
      exact h
  · split at hr
    · split at hr
      · obtain ⟨-, rfl⟩ := Prod.mk.inj (Except.ok.inj hr)
        exact h.loadIndirect
      · split at hr
        · split at hr <;> obtain ⟨-, rfl⟩ := Prod.mk.inj (Except.ok.inj hr)
          · exact h.loadIndirect.balloc rfl
          · exact (h.loadIndirect.balloc rfl).write _ _
        · obtain ⟨-, rfl⟩ := Prod.mk.inj (Except.ok.inj hr)
          exact h.loadIndirect
    · cases hr

/-! ### One round of a copying loop -/

theorem blockPlace_inj {m n : ℕ} (h : blockPlace m = blockPlace n) : m = n := by
  unfold blockPlace at h
  split at h <;> split at h <;> omega

/-- The bytes a round moves are in one block. -/
theorem round_div {off r : ℕ} (h : off % BSIZE + r < BSIZE) :
    (off + r) / BSIZE = off / BSIZE ∧ (off + r) % BSIZE = off % BSIZE + r := by
  have h1 := Nat.div_add_mod off BSIZE
  have h2 : off + r = BSIZE * (off / BSIZE) + (off % BSIZE + r) := by omega
  have hpos : 0 < BSIZE := by decide
  constructor
  · rw [h2, Nat.mul_add_div hpos, Nat.div_eq_of_lt h, Nat.add_zero]
  · rw [h2, Nat.mul_add_mod, Nat.mod_eq_of_lt h]

theorem copied_le (ok : ℕ → Bool) (a m : ℕ) : copied ok a m ≤ m := by
  unfold copied
  have := (List.takeWhile_prefix (p := fun i => ok (a + i)) (l := List.range m)).length_le
  rwa [List.length_range] at this

theorem copied_of_forall {ok : ℕ → Bool} {a m : ℕ} (h : ∀ j, j < m → ok (a + j) = true) :
    copied ok a m = m := by
  have : (List.range m).takeWhile (fun i => ok (a + i)) = List.range m := by
    rw [List.takeWhile_eq_self_iff]
    exact fun j hj => h j (List.mem_range.mp hj)
  rw [copied, this, List.length_range]

/-- The bytes before the first that is refused. -/
theorem copied_spec (ok : ℕ → Bool) (a : ℕ) : ∀ m, (∀ j, j < copied ok a m → ok (a + j) = true) ∧
    (copied ok a m < m → ok (a + copied ok a m) = false)
  | 0 => ⟨fun j hj => absurd (hj.trans_le (copied_le ok a 0)) (Nat.not_lt_zero _), fun h => absurd h (Nat.not_lt_zero _)⟩
  | m + 1 => by
    obtain ⟨h1, h2⟩ := copied_spec ok a m
    have hle := copied_le ok a m
    have hsucc : copied ok a (m + 1) =
        if copied ok a m = m then (if ok (a + m) = true then m + 1 else m) else copied ok a m := by
      rw [copied, List.range_succ, List.takeWhile_append, List.length_range, ← copied]
      split
      · rw [List.length_append, List.length_range, List.takeWhile_cons]
        split <;> simp
      · rfl
    rw [hsucc]
    by_cases hm : copied ok a m = m
    · rw [hm] at h1
      rw [if_pos hm]
      by_cases ho : ok (a + m) = true
      · rw [if_pos ho]
        refine ⟨fun j hj => ?_, fun h => absurd h (lt_irrefl _)⟩
        rcases Nat.lt_succ_iff_lt_or_eq.mp hj with hj | rfl
        · exact h1 j hj
        · exact ho
      · rw [if_neg ho]
        exact ⟨h1, fun _ => by simpa using ho⟩
    · rw [if_neg hm]
      exact ⟨h1, fun _ => h2 (by omega)⟩

theorem eitherCopyin_get (blk : Block) (o : ℕ) (src : ℕ → Option UInt8) (a m : ℕ) {r : ℕ} (hr : r < BSIZE) :
    (eitherCopyin blk o src a m).1.get r =
      if o ≤ r ∧ r < o + copied (fun i => (src i).isSome) a m then (src (a + (r - o))).getD 0
      else blk.get r := by
  rw [eitherCopyin, Block.get_of hr]

/-- A block of file `i` is overwritten in part. -/
theorem put_spares (hL : sb.Layout) (h : FsOk sb s.data s.itable) {off c : ℕ}
    (hb : s.held sb (i, blockPlace (off / BSIZE)) = b) (hb0 : b ≠ 0) {v : Block}
    (hv : ∀ r, r < BSIZE → ¬ (off % BSIZE ≤ r ∧ r < off % BSIZE + c) → v.get r = (s.data b).get r) :
    Spares sb i (fun j => off ≤ j ∧ j < off + c) s (s.put b v) := by
  obtain ⟨-, hheld⟩ := put_spec hL h hb hb0 (blockPlace_ne _) v
  obtain ⟨hx1, hx2⟩ := h.owns.range _ (hb ▸ hb0)
  rw [hb] at hx1 hx2
  refine .of_data (fun l _ => ?_) (fun p _ => by rw [hheld]) fun l j hlj hW => ?_
  · exact inodes_congr (fun _ => rfl) (congrFun (dinodes_data hL hx1 hx2) l)
  · by_cases he : s.held sb (l, blockPlace (j / BSIZE)) = b
    · obtain ⟨rfl, hpl⟩ := Prod.mk.inj (h.owns.unique _ _ hlj (he.trans hb.symm))
      have hdiv := blockPlace_inj hpl
      rw [he]
      have hput : (s.put b v).data b = v := Function.update_self ..
      rw [hput]
      apply hv _ (Nat.mod_lt _ (by decide))
      intro hr
      apply hW rfl
      have h1 := Nat.div_add_mod off BSIZE
      have h2 := Nat.div_add_mod j BSIZE
      rw [hdiv] at h2
      omega
    · have hput : (s.put b v).data (s.held sb (l, blockPlace (j / BSIZE))) =
          s.data (s.held sb (l, blockPlace (j / BSIZE))) := Function.update_of_ne he ..
      rw [hput]

/-- The bytes that were copied into the block are there. -/
theorem put_bytes (hL : sb.Layout) (h : FsOk sb s.data s.itable) {off a m r : ℕ} {src : ℕ → Option UInt8}
    (hb : s.held sb (i, blockPlace (off / BSIZE)) = b) (hb0 : b ≠ 0) (hm : off % BSIZE + m ≤ BSIZE)
    (hc : copied (fun i => (src i).isSome) a m = m) (hr : r < m) :
    (s.put b (eitherCopyin (s.data b) (off % BSIZE) src a m).1).held sb
        (i, blockPlace ((off + r) / BSIZE)) ≠ 0 ∧
      byteAt sb (s.put b (eitherCopyin (s.data b) (off % BSIZE) src a m).1) i (off + r) =
        (src (a + r)).getD 0 := by
  obtain ⟨-, hheld⟩ := put_spec hL h hb hb0 (blockPlace_ne _) (eitherCopyin (s.data b) (off % BSIZE) src a m).1
  obtain ⟨hdiv, hmod⟩ := round_div (show off % BSIZE + r < BSIZE by omega)
  rw [byteAt, hheld, hdiv, hmod, hb, if_neg hb0]
  refine ⟨hb0, ?_⟩
  have hput : (s.put b (eitherCopyin (s.data b) (off % BSIZE) src a m).1).data b =
      (eitherCopyin (s.data b) (off % BSIZE) src a m).1 := Function.update_self ..
  rw [hput, eitherCopyin_get _ _ _ _ _ (by omega), hc, if_pos (by omega), Nat.add_sub_cancel_left]

theorem Enough.mono {P Q : Finset ℕ} (h : Enough sb s i Q) (hPQ : P ⊆ Q) : Enough sb s i P :=
  (Finset.card_le_card (Finset.filter_subset_filter _ hPQ)).trans h

theorem touched_mono {off off' n n' : ℕ} (h1 : off ≤ off') (h2 : off' + n' ≤ off + n) :
    touched off' n' ⊆ touched off n :=
  Finset.biUnion_subset_biUnion_of_subset_left _ (Finset.Ico_subset_Ico h1 h2)

theorem filePlaces_subset {off n : ℕ} (hn : 0 < n) : filePlaces (off / BSIZE) ⊆ touched off n :=
  Finset.subset_biUnion_of_mem (fun j => filePlaces (j / BSIZE)) (Finset.mem_Ico.mpr ⟨le_rfl, by omega⟩)

/-! ### `writei` -/

/-- The bytes `[tot, tot')` of the source have been written to the file in slot
`k` at `[off, off')`, and everything that changed has been logged. -/
structure Wrote (sb : Super) (k : ℕ) (src : ℕ → Option UInt8) (a tot tot' off off' : ℕ) (s s' : Sys) : Prop where
  ok : FsOk sb s'.data s'.itable
  grows : Grows sb k s s'
  clean : s.Clean → s'.Clean
  le : tot ≤ tot'
  sum : off' + tot = off + tot'
  spares : Spares sb (s.itable k).inum (fun j => off ≤ j ∧ j < off') s s'
  bytes : ∀ j, j < tot' - tot → (src (a + tot + j)).isSome = true ∧
    s'.held sb ((s.itable k).inum, blockPlace ((off + j) / BSIZE)) ≠ 0 ∧
    byteAt sb s' (s.itable k).inum (off + j) = (src (a + tot + j)).getD 0
  dinodes : dinodes sb s'.data = dinodes sb s.data
  /-- Blocks are taken only for the places up to `off'`. -/
  enough : ∀ Q, (∀ j, off ≤ j → j ≤ off' → filePlaces (j / BSIZE) ⊆ Q) → Enough sb s (s.itable k).inum Q →
    Enough sb s' (s.itable k).inum Q

/-- A round at byte `tot` of the source that copies `c` bytes into block `b` of
file `i` and then comes to an unmapped one. The block is not logged. -/
structure Faults (sb : Super) (i : ℕ) (src : ℕ → Option UInt8) (a n tot off c b : ℕ) (s s' : Sys) : Prop where
  lt : tot + c < n
  mapped : ∀ j, j < c → (src (a + tot + j)).isSome = true
  unmapped : src (a + tot + c) = none
  room : off % BSIZE + c < BSIZE
  held : s.held sb (i, blockPlace (off / BSIZE)) = b
  pos : b ≠ 0
  put : ∃ v, s' = s.put b v ∧ ∀ r, r < BSIZE → v.get r =
    if off % BSIZE ≤ r ∧ r < off % BSIZE + c then (src (a + tot + (r - off % BSIZE))).getD 0
    else (s.data b).get r

/-- How the loop of `writei` ends: it is done, the disk is full, or a copy
fails. The second happens only at a block the file did not have. -/
inductive Ends (sb : Super) (k : ℕ) (src : ℕ → Option UInt8) (a n tot tot' off off' : ℕ) (s s1 : Sys) : Sys → Prop
  | done (h : tot' = n) : Ends sb k src a n tot tot' off off' s s1 s1
  | full (hlt : tot' < n) (h0 : s.held sb ((s.itable k).inum, blockPlace (off' / BSIZE)) = 0)
      (he : ¬ Enough sb s (s.itable k).inum (touched off (n - tot))) : Ends sb k src a n tot tot' off off' s s1 s1
  | fault {c b : ℕ} {s' : Sys} (hal : tot' = tot ∨ off' % BSIZE = 0)
      (h : Faults sb (s.itable k).inum src a n tot' off' c b s1 s') : Ends sb k src a n tot tot' off off' s s1 s'

theorem Wrote.refl {src : ℕ → Option UInt8} {a tot off : ℕ} (h : FsOk sb s.data s.itable) :
    Wrote sb k src a tot tot off off s s :=
  ⟨h, .refl .., id, le_rfl, rfl, .refl .., fun j hj => by omega, rfl, fun _ _ he => he⟩

/-- Overwriting a block of a file takes no free block. -/
theorem Enough.put (hL : sb.Layout) (h : FsOk sb s.data s.itable) {i n : ℕ} {Q : Finset ℕ}
    (hb : s.held sb (i, blockPlace n) = b) (hb0 : b ≠ 0) (v : Block) (he : Enough sb s i Q) :
    Enough sb (logWrite b (s.put b v)) i Q := by
  obtain ⟨-, hheld⟩ := put_spec hL h hb hb0 (blockPlace_ne _) v
  have hr := (h.owns.range _ (hb ▸ hb0)).1
  rw [hb] at hr
  have hbits : bits sb (s.put b v).data = bits sb s.data := bits_data hL hr
  have hfree : freeBlocks sb (s.put b v).data = freeBlocks sb s.data := by rw [freeBlocks, freeBlocks, hbits]
  have hmiss : missing sb (s.put b v) i Q = missing sb s i Q := by rw [missing, missing, hheld]
  change Enough sb (s.put b v) i Q
  unfold Enough
  rw [hfree, hmiss]
  exact he

/-- A round that copies all its bytes. -/
theorem wrote_round (hL : sb.Layout) {src : ℕ → Option UInt8} {a tot off m : ℕ}
    (hm : Mapped sb k (off / BSIZE) s b s1) (hfill : Fills sb k (filePlaces (off / BSIZE)) s b s1)
    (hclean : s.Clean → s1.Clean) (hb0 : b ≠ 0) (hmB : off % BSIZE + m ≤ BSIZE)
    (hc : copied (fun i => (src i).isSome) (a + tot) m = m) :
    Wrote sb k src a tot (tot + m) off (off + m) s
      (logWrite b (s1.put b (eitherCopyin (s1.data b) (off % BSIZE) src (a + tot) m).1)) := by
  have hheld := hm.held hb0
  obtain ⟨v, hv⟩ : ∃ v, (eitherCopyin (s1.data b) (off % BSIZE) src (a + tot) m).1 = v := ⟨_, rfl⟩
  obtain ⟨hput, hheld'⟩ := put_spec hL hm.ok hheld hb0 (blockPlace_ne _) v
  rw [hv]
  refine ⟨hput, ⟨hm.grows.table, fun p hp => ?_⟩, fun h => (hclean h).write b v, Nat.le_add_right .., by omega, ?_,
    fun j hj => ?_, ?_, fun Q hQ he => ?_⟩
  · exact (congrFun hheld' p).trans (hm.grows.kept p hp)
  · have hsp : Spares sb (s.itable k).inum (fun j => off ≤ j ∧ j < off + m) s1 (s1.put b v) := by
      apply put_spares hL hm.ok hheld hb0
      intro r hr hout
      rw [← hv, eitherCopyin_get _ _ _ _ _ hr, hc, if_neg hout]
    have := (hfill.spares.mono fun _ h => h.elim).trans hsp
    exact ⟨this.inode, this.held, this.byte⟩
  · have hjm : j < m := by omega
    obtain ⟨h1, h2⟩ := put_bytes hL hm.ok hheld hb0 hmB hc hjm
    rw [hv] at h1 h2
    exact ⟨(copied_spec _ _ m).1 j (by rwa [hc]), h1, h2⟩
  · obtain ⟨hlo, hhi⟩ := hm.ok.owns.range ((s.itable k).inum, blockPlace (off / BSIZE)) (by rwa [hheld])
    rw [hheld] at hlo hhi
    exact (dinodes_data hL hlo hhi).trans hfill.dinodes
  · exact (hfill.enough Q (hQ off le_rfl (Nat.le_add_right ..)) he).2.put hL hm.ok hheld hb0 v

theorem Wrote.trans {src : ℕ → Option UInt8} {a t0 t1 t2 o0 o1 o2 : ℕ}
    (h : Wrote sb k src a t0 t1 o0 o1 s s1) (h' : Wrote sb k src a t1 t2 o1 o2 s1 s') :
    Wrote sb k src a t0 t2 o0 o2 s s' := by
  have hi := h.grows.inum
  have h1 := h.sum
  have h2 := h'.sum
  have h3 := h.le
  have h4 := h'.le
  have hsp := h'.spares
  have hby := h'.bytes
  rw [hi] at hsp hby
  have hen := h'.enough
  rw [hi] at hen
  refine ⟨h'.ok, h.grows.trans h'.grows, fun hc => h'.clean (h.clean hc), h3.trans h4, by omega, ?_, fun j hj => ?_,
    h'.dinodes.trans h.dinodes, fun Q hQ he => ?_⟩
  · exact (h.spares.mono fun j hj => ⟨hj.1, by omega⟩).trans (hsp.mono fun j hj => ⟨by omega, hj.2⟩)
  · rcases Nat.lt_or_ge j (t1 - t0) with hlt | hge
    · -- a byte of the first part, which the second spares
      obtain ⟨hsrc, hheld, hbyte⟩ := h.bytes j hlt
      refine ⟨hsrc, ?_, ?_⟩
      · rw [hsp.held _ hheld]
        exact hheld
      · rw [hsp.byte _ _ hheld fun _ hj' => by omega, hbyte]
    · have hlate := hby (j - (t1 - t0)) (by omega)
      have e1 : o1 + (j - (t1 - t0)) = o0 + j := by omega
      have e2 : a + t1 + (j - (t1 - t0)) = a + t0 + j := by omega
      rwa [e1, e2] at hlate
  · have h1 := h.enough Q (fun j hj hj' => hQ j hj (by omega)) he
    exact hen Q (fun j hj hj' => hQ j (by omega) hj') h1

/-- The next block boundary. -/
theorem round_mod (off : ℕ) : (off + (BSIZE - off % BSIZE)) % BSIZE = 0 := by
  have hB : BSIZE = 1024 := rfl
  rw [hB]
  omega

/-- The end of the loop, seen from a round earlier. -/
theorem Ends.before {src : ℕ → Option UInt8} {a n t0 t1 t2 o0 o1 o2 : ℕ} {s0 : Sys}
    (h : Ends sb k src a n t1 t2 o1 o2 s s1 s') (hW : Wrote sb k src a t0 t1 o0 o1 s0 s)
    (hW' : Wrote sb k src a t1 t2 o1 o2 s s1)
    (he : Enough sb s0 (s0.itable k).inum (touched o0 (n - t0)) →
      Enough sb s (s0.itable k).inum (touched o1 (n - t1)))
    (hal : t1 < n → o1 % BSIZE = 0) : Ends sb k src a n t0 t2 o0 o2 s0 s1 s' := by
  have hi := hW.grows.inum
  cases h with
  | done h => exact .done h
  | full hlt h0 hne =>
    rw [hi] at h0 hne
    refine .full hlt ?_ fun h => hne (he h)
    by_contra hc
    exact hc ((hW.grows.kept _ hc).symm.trans h0)
  | fault hal' hf =>
    rw [hi] at hf
    refine .fault (.inr ?_) hf
    rcases hal' with rfl | h0
    · have := hW'.sum
      have hlt := hf.lt
      obtain rfl : o2 = o1 := by omega
      exact hal (by omega)
    · exact h0

/-- The loop of `writei` writes its bytes in order, until it is done, the disk is
full, or a copy fails. -/
theorem writeLoop_ends (hL : sb.Layout) (src : ℕ → Option UInt8) (a n : ℕ) :
    ∀ (fuel tot off : ℕ) (s : Sys), FsOk sb s.data s.itable → Valid s.itable k → tot ≤ n → n - tot ≤ fuel →
    off + (n - tot) ≤ MAXFILE * BSIZE →
    ∃ tot' off' s1 s', writeLoop sb k src a n fuel tot off s = .ok ((tot', off'), s') ∧
      Wrote sb k src a tot tot' off off' s s1 ∧ Ends sb k src a n tot tot' off off' s s1 s'
  | 0, tot, off, s, h, _, hle, hf, _ =>
    ⟨tot, off, s, s, rfl, .refl h, .done (by omega)⟩
  | fuel + 1, tot, off, s, h, hk, hle, hf, hsz => by
    unfold writeLoop
    by_cases hlt : tot < n
    · rw [if_pos hlt]
      obtain ⟨b, s1, hb, hm⟩ := bmap_spec hL h hk (div_lt_maxfile hsz (by omega))
      have hfill := bmap_fills hL h hk hb
      have hclean : s.Clean → s1.Clean := fun hc => hc.bmap hb
      have hsub : filePlaces (off / BSIZE) ⊆ touched off (n - tot) := filePlaces_subset (by omega)
      have hW1 : Wrote sb k src a tot tot off off s s1 :=
        ⟨hm.ok, hm.grows, hclean, le_rfl, rfl, hfill.spares.mono fun _ hj => hj.elim, fun j hj => by omega, hfill.dinodes,
          fun Q hQ he => (hfill.enough Q (hQ off le_rfl le_rfl) he).2⟩
      rw [hb]
      simp only [ok_bind]
      by_cases hb0 : b = 0
      · refine ⟨tot, off, s1, s1, by rw [if_pos hb0], hW1, .full hlt ?_ fun he => (hfill.enough _ hsub he).1 hb0⟩
        by_contra hne
        exact (hm.old hne).1 hb0
      rw [if_neg hb0]
      have hmod := Nat.mod_lt off (show 0 < BSIZE by decide)
      obtain ⟨m, hmdef⟩ : ∃ m, m = min (n - tot) (BSIZE - off % BSIZE) := ⟨_, rfl⟩
      rw [← hmdef]
      have hm1 : m ≤ n - tot := by omega
      have hm2 : off % BSIZE + m ≤ BSIZE := by omega
      obtain ⟨c, hc⟩ : ∃ c, copied (fun i => (src i).isSome) (a + tot) m = c := ⟨_, rfl⟩
      have hw2 : (eitherCopyin (s1.data b) (off % BSIZE) src (a + tot) m).2 = decide (c = m) := by
        rw [eitherCopyin, hc]
      rw [hw2]
      by_cases hcm : c = m
      · rw [if_pos (by simpa using hcm)]
        have hW := wrote_round hL hm hfill hclean hb0 hm2 (hc.trans hcm)
        obtain ⟨tot', off', s2, s', hr, hW', hend⟩ := writeLoop_ends hL src a n fuel (tot + m) (off + m) _
          hW.ok (hW.grows.valid hk) (by omega) (by omega) (by omega)
        refine ⟨tot', off', s2, s', hr, hW.trans hW', hend.before hW hW' (fun he => ?_) fun hlt' => ?_⟩
        · exact ((hfill.enough _ hsub he).2.put hL hm.ok (hm.held hb0) hb0 _).mono
            (touched_mono (by omega) (by omega))
        · rw [show m = BSIZE - off % BSIZE by omega]
          exact round_mod off
      · rw [if_neg (by simpa using hcm)]
        have hcle := copied_le (fun i => (src i).isSome) (a + tot) m
        obtain ⟨h1, h2⟩ := copied_spec (fun i => (src i).isSome) (a + tot) m
        rw [hc] at h1 h2 hcle
        refine ⟨tot, off, s1, _, rfl, hW1, .fault (.inl rfl) ⟨by omega, h1, ?_, by omega, hm.held hb0, hb0, _, rfl,
          fun r hr => ?_⟩⟩
        · have h3 := h2 (by omega)
          simpa using h3
        · rw [eitherCopyin_get _ _ _ _ _ hr, hc]
    · rw [if_neg hlt]
      exact ⟨tot, off, s, s, rfl, .refl h, .done (by omega)⟩

/-- The loop of `writei` changes the bytes it is asked to, in full if it gets the
bytes and the blocks. -/
theorem writeLoop_bytes (hL : sb.Layout) (src : ℕ → Option UInt8) (a n : ℕ) {off : ℕ}
    (h : FsOk sb s.data s.itable) (hk : Valid s.itable k) (hsz : off + n ≤ MAXFILE * BSIZE) :
    ∃ tot' off' s', writeLoop sb k src a n n 0 off s = .ok ((tot', off'), s') ∧
      Spares sb (s.itable k).inum (fun j => off ≤ j ∧ j < off + n) s s' ∧
      ((∀ j, j < n → (src (a + j)).isSome = true) → Enough sb s (s.itable k).inum (touched off n) →
        tot' = n ∧ off' = off + n ∧
          ∀ j, j < n → s'.held sb ((s.itable k).inum, blockPlace ((off + j) / BSIZE)) ≠ 0 ∧
            byteAt sb s' (s.itable k).inum (off + j) = (src (a + j)).getD 0) := by
  obtain ⟨tot', off', s1, s', hr, hW, hend⟩ := writeLoop_ends hL src a n n 0 off s h hk (Nat.zero_le _) (by omega)
    (by omega)
  have hsum := hW.sum
  have hle := hW.le
  cases hend with
  | done h =>
    subst h
    refine ⟨tot', off', _, hr, hW.spares.mono fun j hj => ⟨hj.1, by omega⟩, fun _ _ => ⟨rfl, by omega, fun j hj => ?_⟩⟩
    exact (hW.bytes j hj).2
  | full hlt h0 hne =>
    refine ⟨tot', off', _, hr, hW.spares.mono fun j hj => ⟨hj.1, by omega⟩, fun _ he => absurd he hne⟩
  | @fault c b _ hal hf =>
    obtain ⟨v, rfl, hv⟩ := hf.put
    have hlt := hf.lt
    have hsp := put_spares hL hW.ok hf.held hf.pos (c := c) fun r hr hout => by rw [hv r hr, if_neg hout]
    refine ⟨tot', off', _, hr, (hW.spares.mono fun j hj => ⟨hj.1, by omega⟩).trans
      (hsp.mono fun j hj => ⟨by omega, by omega⟩), fun hsrc _ => ?_⟩
    have h0 := hf.unmapped
    have h1 := hsrc (tot' + c) hlt
    rw [← Nat.add_assoc, h0] at h1
    cases h1

/-- What storing fields of the inode other than its type and blocks, and writing it back, changes. -/
structure Restored (sb : Super) (k : ℕ) (d : Dinode) (s s' : Sys) : Prop where
  inodes : inodes sb s'.data s'.itable = Function.update (inodes sb s.data s.itable) (s.itable k).inum d
  dinodes : dinodes sb s'.data = Function.update (dinodes sb s.data) (s.itable k).inum d
  held : s'.held sb = s.held sb
  bits : bits sb s'.data = bits sb s.data
  /-- The data blocks are the same. -/
  data : ∀ x, sb.datastart ≤ x → x < sb.size → s'.data x = s.data x

theorem iupdate_restored (hL : sb.Layout) (h : FsOk sb s.data s.itable) (hk : Valid s.itable k) {d : Dinode}
    (ht : d.type = (s.itable k).din.type) (ha : d.addrs = (s.itable k).din.addrs) (hr : d.InRange) :
    Restored sb k d s (iupdate sb k (s.setDin k d)) := by
  have htab : TableOk sb (s.setDin k d).data (s.setDin k d).itable := h.table.setDin hk ht hr
  have hself : (s.setDin k d).itable k = (s.itable k).withDin d := Function.update_self ..
  have hk1 : Valid (s.setDin k d).itable k := by
    refine ⟨hk.lt, ?_, ?_⟩ <;> rw [hself]
    · exact hk.ref
    · exact hk.valid
  have hinum : ((s.setDin k d).itable k).inum = (s.itable k).inum := by
    rw [hself]
    rfl
  have hdin : ((s.setDin k d).itable k).din = d := by
    rw [hself]
    rfl
  have hi : ((s.setDin k d).itable k).inum < sb.ninodes := (htab.inum k hk1.lt hk1.ref hk1.valid).2
  have hino : Fs.inodes sb (iupdate sb k (s.setDin k d)).data (iupdate sb k (s.setDin k d)).itable =
      Function.update (Fs.inodes sb s.data s.itable) (s.itable k).inum d :=
    (iupdate_inodes hL htab hk1).trans (h.table.inodes_setDin hk ht hr)
  have hents : ents sb (iupdate sb k (s.setDin k d)).data = ents sb s.data := ents_inode hL hi
  refine ⟨hino, ?_, ?_, bits_inode hL hi, fun x hx hx' => ?_⟩
  · obtain ⟨-, -, hd⟩ := putDinode_view (s := s.setDin k d) hL hi hr
    rw [iupdate, hdin, hd, hinum]
    rfl
  · have hin := h.table.inodes_self hk
    rw [Sys.held, hino, hents]
    exact Consistent.target_resize (by rw [hin, ht]) (by rw [hin, ha])
  · have h1 := hL.inodes _ hi
    have h2 := hL.map _ hx'
    have h3 : sb.bmapstart ≤ sb.bblock x := Nat.le_add_left _ _
    have hne : x ≠ sb.iblock ((s.setDin k d).itable k).inum := by omega
    exact Function.update_of_ne hne ..

/-- Storing the size and writing the inode back changes no byte. -/
theorem iupdate_spares (hL : sb.Layout) (h : FsOk sb s.data s.itable) (hk : Valid s.itable k) {d : Dinode}
    (ht : d.type = (s.itable k).din.type) (ha : d.addrs = (s.itable k).din.addrs) (hr : d.InRange) :
    Spares sb (s.itable k).inum (fun _ => False) s (iupdate sb k (s.setDin k d)) ∧
      inodes sb (iupdate sb k (s.setDin k d)).data (iupdate sb k (s.setDin k d)).itable (s.itable k).inum =
        d := by
  have hres := iupdate_restored hL h hk ht ha hr
  refine ⟨.of_data (fun l hl => ?_) (fun p _ => by rw [hres.held]) fun l j hb _ => ?_, ?_⟩
  · rw [hres.inodes, Function.update_of_ne hl]
  · obtain ⟨hlo, hhi⟩ := h.owns.range _ hb
    rw [hres.data _ hlo hhi]
  · rw [hres.inodes, Function.update_self]

/-- Every byte of a file is in a block. -/
theorem FsOk.held_ne_zero (h : FsOk sb s.data s.itable) (hi : Alloc sb (inodes sb s.data s.itable) i) {j : ℕ}
    (hj : j < (inodes sb s.data s.itable i).size) : s.held sb (i, blockPlace (j / BSIZE)) ≠ 0 := by
  apply h.fs.noHoles i _ hi
  have := Nat.div_mul_le_self j BSIZE
  omega

theorem Spares.content (h : FsOk sb s.data s.itable) (hs : Spares sb i W s s') {l : ℕ} (hl : l ≠ i) :
    content sb s' l = content sb s l := by
  unfold Fs.content
  rw [hs.inode l hl]
  refine List.map_congr_left fun j hj => ?_
  rw [List.mem_range] at hj
  by_cases hal : Alloc sb (inodes sb s.data s.itable) l
  · exact hs.byte l j (h.held_ne_zero hal hj) fun he => absurd he hl
  · -- a free inode has no blocks, before and after
    have hal' : ¬ Alloc sb (inodes sb s'.data s'.itable) l := by rwa [Alloc, hs.inode l hl]
    have h0 : s.held sb (l, blockPlace (j / BSIZE)) = 0 := target_of_not_alloc hal _
    have h0' : s'.held sb (l, blockPlace (j / BSIZE)) = 0 := target_of_not_alloc hal' _
    rw [byteAt, byteAt, if_pos h0, if_pos h0']

/-- The size is extended to `off'`. -/
theorem resized {d e : Dinode} {off' : ℕ} (hr : d.InRange) (hoff : off' ≤ MAXFILE * BSIZE)
    (he : (if d.size < off' then { d with size := off' } else d) = e) :
    e.type = d.type ∧ e.addrs = d.addrs ∧ e.InRange ∧ e.size = max d.size off' := by
  have hlt : off' < 2 ^ 32 := by
    have : MAXFILE * BSIZE < 2 ^ 32 := by decide
    omega
  rw [← he]
  split
  · exact ⟨rfl, rfl, { hr with size := hlt, addr := hr.addr }, by simp only; omega⟩
  · exact ⟨rfl, rfl, hr, by omega⟩

/-- What `writei` does when it gets past its checks. -/
theorem writei_bytes (hL : sb.Layout) (h : FsOk sb s.data s.itable) (hk : Valid s.itable k)
    (src : ℕ → Option UInt8) (a : ℕ) {off n : UInt32} (hoff : off.toNat ≤ (s.itable k).din.size)
    (hn : ¬ off + n < off) (hmax : off.toNat + n.toNat ≤ MAXFILE * BSIZE) :
    ∃ r s', writei sb k src a off n s = .ok (some r, s') ∧
      Spares sb (s.itable k).inum (fun j => off.toNat ≤ j ∧ j < off.toNat + n.toNat) s s' ∧
      ((∀ j, j < n.toNat → (src (a + j)).isSome = true) →
        Enough sb s (s.itable k).inum (touched off.toNat n.toNat) →
        r = n.toNat ∧ (inodes sb s'.data s'.itable (s.itable k).inum).size =
            max (s.itable k).din.size (off.toNat + n.toNat) ∧
          ∀ j, j < n.toNat →
            byteAt sb s' (s.itable k).inum (off.toNat + j) = (src (a + j)).getD 0) := by
  obtain ⟨tot, off', s1, hr, hok, hg, hsz, hmap⟩ :=
    writeLoop_spec hL src a n.toNat n.toNat 0 off.toNat s h hk (by omega) fun m hm => by
      apply h.fs.noHoles _ _ (h.alloc hk)
      rw [h.table.inodes_self hk]
      omega
  obtain ⟨tot2, off2, s2, hr2, hsp, hfull⟩ :=
    writeLoop_bytes hL src a n.toNat h hk hmax
  obtain ⟨he, rfl⟩ := Prod.mk.inj (Except.ok.inj (hr.symm.trans hr2))
  obtain ⟨rfl, rfl⟩ := Prod.mk.inj he
  have hk1 := hg.valid hk
  have hr1 := hok.table.range k hk1.lt hk1.ref hk1.valid
  obtain ⟨d, hd⟩ : ∃ d, (if (s1.itable k).din.size < off' then { (s1.itable k).din with size := off' }
      else (s1.itable k).din) = d := ⟨_, rfl⟩
  have hd1 := resized hr1 hsz hd
  rw [hg.size] at hd1
  obtain ⟨hend, hin⟩ := iupdate_spares hL hok hk1 hd1.1 hd1.2.1 hd1.2.2.1
  rw [hg.inum] at hend hin
  refine ⟨tot, iupdate sb k (s1.setDin k d), ?_, ?_, fun hsrc he => ?_⟩
  · unfold writei
    rw [if_neg (not_or.mpr ⟨by omega, hn⟩), uint_add hn, if_neg (by omega), hr]
    simp only [bind, Except.bind, hd]
  · have hsp' := hsp.trans (hend.mono fun _ hj => hj.elim)
    simpa using hsp'
  · obtain ⟨htot, hoff', hbytes⟩ := hfull hsrc he
    refine ⟨htot, ?_, fun j hj => ?_⟩
    · rw [hin, hd1.2.2.2, hoff']
    · obtain ⟨hheld, hbyte⟩ := hbytes j (by omega)
      rw [hend.byte _ _ hheld fun _ hf => hf, hbyte]

theorem length_content (sb : Super) (s : Sys) (i : ℕ) :
    (content sb s i).length = (inodes sb s.data s.itable i).size := by
  rw [content, List.length_map, List.length_range]

/-- The content after a write of `n` bytes at `off` that succeeds. -/
theorem content_write (h : FsOk sb s.data s.itable) (hi : Alloc sb (inodes sb s.data s.itable) i)
    {off n : ℕ} {f : ℕ → UInt8} (hoff : off ≤ (inodes sb s.data s.itable i).size)
    (hs : Spares sb i (fun j => off ≤ j ∧ j < off + n) s s')
    (hsz : (inodes sb s'.data s'.itable i).size = max (inodes sb s.data s.itable i).size (off + n))
    (hb : ∀ j, j < n → byteAt sb s' i (off + j) = f j) :
    content sb s' i =
      (content sb s i).take off ++ (List.range n).map f ++ (content sb s i).drop (off + n) := by
  have hlen := length_content sb s i
  refine List.ext_getElem ?_ fun j h1 h2 => ?_
  · rw [length_content, hsz]
    simp only [List.length_append, List.length_take, List.length_drop, List.length_map, List.length_range,
      hlen]
    omega
  · rw [length_content, hsz] at h1
    have hold : j < (inodes sb s.data s.itable i).size → ¬ (off ≤ j ∧ j < off + n) →
        byteAt sb s' i j = byteAt sb s i j := fun hj hout =>
      hs.byte i j (h.held_ne_zero hi hj) fun _ => hout
    simp only [List.getElem_append, List.length_append, List.length_take, List.length_map, List.length_range,
      List.getElem_take, List.getElem_drop, List.getElem_map, List.getElem_range, content,
      Nat.min_eq_left hoff]
    split_ifs with h3 h4
    · exact hold (by omega) (by omega)
    · rw [← hb (j - off) (by omega), Nat.add_sub_cancel' (by omega)]
    · rw [Nat.add_sub_cancel' (by omega)]
      exact hold (by omega) (by omega)

/-! ### `readi` -/

/-- What a round of `readi` copies out. -/
theorem slice_eq {off m : ℕ} (hb : s.held sb (i, blockPlace (off / BSIZE)) = b) (hb0 : b ≠ 0)
    (hm : off % BSIZE + m ≤ BSIZE) :
    slice (s.data b) (off % BSIZE) m = (List.range m).map fun r => byteAt sb s i (off + r) := by
  refine List.map_congr_left fun r hr => ?_
  rw [List.mem_range] at hr
  obtain ⟨hdiv, hmod⟩ := round_div (show off % BSIZE + r < BSIZE by omega)
  rw [byteAt, hdiv, hmod, hb, if_neg hb0]

theorem readLoop_bytes (hL : sb.Layout) (h : FsOk sb s.data s.itable) (hk : Valid s.itable k)
    {dst : ℕ → Bool} {a n : ℕ} (hdst : ∀ j, j < n → dst (a + j) = true) :
    ∀ (fuel tot off : ℕ) (out : List UInt8), n - tot ≤ fuel → tot ≤ n →
    off + (n - tot) ≤ MAXFILE * BSIZE →
    (∀ m, m * BSIZE < off + (n - tot) → s.held sb ((s.itable k).inum, blockPlace m) ≠ 0) →
    readLoop sb k dst a n fuel tot off out s =
      .ok ((some n, out ++ (List.range (n - tot)).map fun j => byteAt sb s (s.itable k).inum (off + j)), s)
  | 0, tot, off, out, hf, hle, _, _ => by
    obtain rfl : tot = n := by omega
    simp [readLoop]
  | fuel + 1, tot, off, out, hf, hle, hsz, hmap => by
    unfold readLoop
    by_cases hlt : tot < n
    · rw [if_pos hlt]
      obtain ⟨b, s1, hb, hm⟩ := bmap_spec hL h hk (div_lt_maxfile hsz (by omega))
      have hhere : off / BSIZE * BSIZE < off + (n - tot) := by
        have := Nat.div_mul_le_self off BSIZE
        omega
      obtain ⟨hb0, hs1⟩ := hm.old (hmap _ hhere)
      have hheld := hm.held hb0
      rw [hs1] at hheld
      rw [hb, hs1]
      simp only [bind, Except.bind, hb0, if_false]
      have hmod := Nat.mod_lt off (show 0 < BSIZE by decide)
      obtain ⟨m, hmdef⟩ : ∃ m, m = min (n - tot) (BSIZE - off % BSIZE) := ⟨_, rfl⟩
      rw [← hmdef]
      have hm0 : 0 < m := by omega
      have hm1 : m ≤ n - tot := by omega
      have hc : copied dst (a + tot) m = m := copied_of_forall fun j hj => by
        rw [Nat.add_assoc]
        exact hdst _ (by omega)
      rw [hc, if_pos rfl, slice_eq hheld hb0 (by omega)]
      rw [readLoop_bytes hL h hk hdst fuel (tot + m) (off + m) _ (by omega) (by omega) (by omega)
        fun l hl => hmap l (by omega)]
      have hsplit : n - tot = m + (n - (tot + m)) := by omega
      rw [hsplit, List.range_add, List.map_append, List.map_map, List.append_assoc]
      simp only [Function.comp_def, Nat.add_assoc]
    · rw [if_neg hlt]
      obtain rfl : tot = n := by omega
      simp

/-- `readi` delivers a part of the content. -/
theorem readi_bytes (hL : sb.Layout) (h : FsOk sb s.data s.itable) (hk : Valid s.itable k)
    (dst : ℕ → Bool) (a : ℕ) (off n : UInt32)
    (hdst : ∀ j, j < min n.toNat ((s.itable k).din.size - off.toNat) → dst (a + j) = true) :
    ∃ bytes, readi sb k dst a off n s = .ok ((some bytes.length, bytes), s) ∧
      bytes = if off + n < off then []
        else ((content sb s (s.itable k).inum).drop off.toNat).take n.toNat := by
  have hself := h.table.inodes_self hk
  have hlen := length_content sb s (s.itable k).inum
  rw [hself] at hlen
  unfold readi
  by_cases hc : (s.itable k).din.size < off.toNat ∨ off + n < off
  · simp only [hc, if_true]
    refine ⟨[], rfl, ?_⟩
    split_ifs with hw
    · rfl
    · rw [List.drop_eq_nil_of_le (by have := hc.resolve_right hw; omega), List.take_nil]
  · simp only [hc, if_false]
    rw [not_or, Nat.not_lt] at hc
    have hadd := uint_add hc.2
    have hmin : (if (s.itable k).din.size < (off + n).toNat then (s.itable k).din.size - off.toNat
        else n.toNat) = min n.toNat ((s.itable k).din.size - off.toNat) := by
      split <;> omega
    have hsmall := h.fs.small _ (h.alloc hk)
    rw [hself] at hsmall
    rw [hmin]
    obtain ⟨m, hm⟩ : ∃ m, m = min n.toNat ((s.itable k).din.size - off.toNat) := ⟨_, rfl⟩
    rw [← hm] at hdst ⊢
    rw [readLoop_bytes hL h hk hdst m 0 off.toNat [] (by omega) (Nat.zero_le _) (by omega) fun l hl => by
      apply h.fs.noHoles _ _ (h.alloc hk)
      rw [hself]
      omega]
    refine ⟨(List.range m).map fun j => byteAt sb s (s.itable k).inum (off.toNat + j), by simp, ?_⟩
    rw [if_neg hc.2]
    refine List.ext_getElem ?_ fun j h1 h2 => ?_
    · simp only [List.length_map, List.length_range, List.length_take, List.length_drop, hlen]
      omega
    · simp [content]

/-- A file of three bytes. -/
def threeBytes : List Call :=
  [.ialloc 2, .ilock 0, .setFields 0 0 0 1, .iupdate 0, .writei 0 (fun _ => some 7) 0 0 3]

/-- What `files_are_byte_arrays` asks for before three more bytes are written at offset 2. -/
def ReadyToWrite (s : Sys) : Prop :=
  Held s 0 ∧ (s.itable 0).inum = 1 ∧ (s.itable 0).din.size = 3 ∧ content smallSuper s 1 = [7, 7, 7] ∧
    (missing smallSuper s 1 (touched 2 3)).card ≤ (freeBlocks smallSuper s.data).card

instance (s : Sys) : Decidable (ReadyToWrite s) := inferInstanceAs (Decidable (_ ∧ _ ∧ _ ∧ _ ∧ _))

theorem threeBytes_ready : ∃ s t, run (call smallSuper) emptyFs threeBytes = .ok (s, t) ∧ ReadyToWrite s := by
  obtain ⟨⟨s, t⟩, hr, h⟩ := okWith_iff.mp
    (show okWith (run (call smallSuper) emptyFs threeBytes) (fun r => ReadyToWrite r.1) = true by decide +kernel)
  exact ⟨s, t, hr, of_decide_eq_true h⟩

end Fs
end Xv6
