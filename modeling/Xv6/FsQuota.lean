/-
# The log space of one write

`filewrite` cuts a write into chunks so that each fits into the `MAXOPBLOCKS`
blocks that `begin_op` reserves. A round of the loop of `writei` hands to
`log_write` the data block and, if the block is new, the block of the free map
it was found in. The file's indirect block, the map block it was found in and
the inode's block come in at most once. An unaligned chunk touches one data
block more than an aligned one, and that block is there already because the
file has no holes.

Nothing here needs the file system to be consistent: block numbers are only
counted.

Key definitions: `Fs.filewriteRound`, `Fs.NoHoles`, `Fs.Charged`.
-/
import Xv6.Fs
import Mathlib.Data.Finset.Card

namespace Xv6
namespace Fs

/-- `max` in `filewrite`, the bytes of a chunk. -/
def maxChunk : ℕ := ((MAXOPBLOCKS - 1 - 1 - 2) / 2) * BSIZE

/-- The loop body of `filewrite` between `begin_op` and `end_op`: `i` of `n` bytes
are written and the file is in slot `k`. The result is `r` and `f->off`. -/
def filewriteRound (sb : Super) (k : ℕ) (src : ℕ → Option UInt8) (addr i n : ℕ) (off : UInt32) (s : Sys) :
    Except Stop ((Option ℕ × UInt32) × Sys) := do
  let n1 := if maxChunk < n - i then maxChunk else n - i
  let s ← ilock sb k s
  let (r, s) ← writei sb k src (addr + i) off (.ofNat n1) s
  let s ← iunlock k s
  .ok ((r, off + .ofNat (r.getD 0)), s)

/-- The address of block `bn` of the file in slot `k`, 0 if it has none. -/
def fileBlock (s : Sys) (k bn : ℕ) : ℕ :=
  if bn < NDIRECT then (s.itable k).din.addr bn
  else if (s.itable k).din.addr NDIRECT = 0 then 0
  else (s.data ((s.itable k).din.addr NDIRECT)).rd (4 * (bn - NDIRECT)) 4

/-- Every block that has bytes of the file is there. -/
def NoHoles (s : Sys) (k : ℕ) : Prop := ∀ bn, bn * BSIZE < (s.itable k).din.size → fileBlock s k bn ≠ 0

/-! ### What a step logs -/

/-- The indirect block of the file in slot `k`. -/
def indirect (s : Sys) (k : ℕ) : ℕ := (s.itable k).din.addr NDIRECT

/-- The blocks logged from `s` to `s'` are in `F`, the indirect block apart. -/
structure Charged (k : ℕ) (F : Finset ℕ) (s s' : Sys) : Prop where
  logged : ∃ l, s'.logged = s.logged ++ l ∧ ∀ x ∈ l, x ∈ F ∨ x = indirect s' k ∧ x ≠ 0
  kept : indirect s k ≠ 0 → indirect s' k = indirect s k
  locked : (s'.itable k).locked = (s.itable k).locked
  ref : (s'.itable k).ref = (s.itable k).ref

/-- The map block that finding an indirect block will cost. -/
def slack (s : Sys) (k : ℕ) : ℕ := if indirect s k = 0 then 1 else 0

theorem slack_le (s : Sys) (k : ℕ) : slack s k ≤ 1 := by
  unfold slack
  split <;> omega

variable {sb : Super} {s s' s1 : Sys} {k a b : ℕ} {F G : Finset ℕ}

theorem Charged.refl (k : ℕ) (F : Finset ℕ) (s : Sys) : Charged k F s s :=
  ⟨⟨[], (List.append_nil _).symm, by simp⟩, fun _ => rfl, rfl, rfl⟩

theorem Charged.trans (h : Charged k F s s1) (h' : Charged k G s1 s') : Charged k (F ∪ G) s s' := by
  obtain ⟨⟨l, hl, hF⟩, hk, hlock, href⟩ := h
  obtain ⟨⟨l', hl', hG⟩, hk', hlock', href'⟩ := h'
  refine ⟨⟨l ++ l', by rw [hl', hl, List.append_assoc], fun x hx => ?_⟩, fun h0 => ?_,
    hlock'.trans hlock, href'.trans href⟩
  · rcases List.mem_append.mp hx with hx | hx
    · rcases hF x hx with hxF | ⟨rfl, h0⟩
      · exact .inl (Finset.mem_union_left _ hxF)
      · exact .inr ⟨(hk' h0).symm, h0⟩
    · rcases hG x hx with hxG | hx
      · exact .inl (Finset.mem_union_right _ hxG)
      · exact .inr hx
  · rw [hk' (by rwa [hk h0]), hk h0]

/-- A block of `F` is overwritten and logged. -/
theorem charged_write (k : ℕ) (hb : b ∈ F) (v : Block) : Charged k F s (logWrite b (s.put b v)) :=
  ⟨⟨[b], rfl, by simpa using .inl hb⟩, fun _ => rfl, rfl, rfl⟩

/-- `balloc` logs a block of the free map and the block it gives out. -/
theorem balloc_logged (h : balloc sb s = (b, s1)) :
    s1.itable = s.itable ∧ ∃ m, s1.logged = s.logged ∨ s1.logged = s.logged ++ [m, b] := by
  rcases hscan : scanFree sb s with _ | ⟨c, bi⟩
  · rw [balloc, hscan] at h
    obtain ⟨-, rfl⟩ := Prod.mk.inj h
    exact ⟨rfl, 0, .inl rfl⟩
  · rw [balloc, hscan] at h
    obtain ⟨rfl, rfl⟩ := Prod.mk.inj h
    exact ⟨rfl, sb.bblock c, .inr (List.append_assoc ..)⟩

theorem balloc_charged (k : ℕ) (h : balloc sb s = (b, s1)) :
    ∃ m, Charged k {m, b} s s1 ∧ indirect s1 k = indirect s k := by
  obtain ⟨ht, m, hl⟩ := balloc_logged h
  have hind : indirect s1 k = indirect s k := by rw [indirect, ht, indirect]
  refine ⟨m, ⟨?_, fun _ => hind, by rw [ht], by rw [ht]⟩, hind⟩
  rcases hl with hl | hl
  · exact ⟨[], by rw [hl, List.append_nil], by simp⟩
  · exact ⟨[m, b], hl, by simp⟩

/-- A step that logs two blocks more, or three if it finds the indirect block. -/
def Costs (k c a : ℕ) (s s' : Sys) : Prop :=
  ∃ F, Charged k F s s' ∧ a ∈ F ∧ F.card + slack s' k ≤ c + slack s k

theorem balloc_costs (h : balloc sb s = (b, s1)) : Costs k 2 b s s1 := by
  obtain ⟨m, hc, hind⟩ := balloc_charged k h
  refine ⟨{m, b}, hc, by simp, ?_⟩
  rw [slack, slack, hind]
  have := Finset.card_le_two (a := m) (b := b)
  omega

theorem setAddr_self (s : Sys) (k q b : ℕ) :
    (s.setAddr k q b).itable k = (s.itable k).withDin ((s.itable k).din.setAddr q b) := Function.update_self ..

/-- A direct block is put into the inode. -/
theorem Costs.setAddr {q : ℕ} (hq : q < NDIRECT) (h : Costs k 2 b s s1) :
    Costs k 2 b s (s1.setAddr k q b) := by
  obtain ⟨F, ⟨hl, hk, hlock, href⟩, hb, hc⟩ := h
  have hself := setAddr_self s1 k q b
  have hind : indirect (s1.setAddr k q b) k = indirect s1 k := by
    rw [indirect, hself, Inode.withDin, Dinode.addr_setAddr hq.le, if_neg (by omega)]
    rfl
  refine ⟨F, ⟨?_, by rwa [hind], by rwa [hself], by rwa [hself]⟩, hb, by rwa [slack, hind]⟩
  obtain ⟨l, hl, hF⟩ := hl
  exact ⟨l, hl, by rwa [hind]⟩

/-- Loading the indirect block logs it and at most one map block, paid by the slack. -/
theorem loadIndirect_charged (sb : Super) (k : ℕ) (s : Sys) : ∃ F, Charged k F s (loadIndirect sb k s).2 ∧
    ((loadIndirect sb k s).1 = 0 → Costs k 2 0 s (loadIndirect sb k s).2) ∧
    ((loadIndirect sb k s).1 ≠ 0 → indirect (loadIndirect sb k s).2 k = (loadIndirect sb k s).1 ∧
      F.card ≤ slack s k) := by
  unfold loadIndirect
  by_cases h0 : (s.itable k).din.addr NDIRECT = 0
  · simp only [h0, if_true]
    obtain ⟨x, s1, hb⟩ : ∃ x s1, balloc sb s = (x, s1) := ⟨_, _, rfl⟩
    rw [hb]
    by_cases hx0 : x = 0
    · subst hx0
      simp only [if_true]
      obtain ⟨F, hF, -⟩ := balloc_costs (k := k) hb
      exact ⟨F, hF, fun _ => balloc_costs hb, fun h => absurd rfl h⟩
    · simp only [hx0, if_false]
      obtain ⟨ht, m, hl⟩ := balloc_logged hb
      have hself := setAddr_self s1 k NDIRECT x
      have hind : indirect (s1.setAddr k NDIRECT x) k = x := by
        rw [indirect, hself, Inode.withDin, Dinode.addr_setAddr le_rfl, if_pos rfl]
      refine ⟨{m}, ⟨?_, fun h => absurd h0 h, by rw [hself, ht]; rfl, by rw [hself, ht]; rfl⟩, fun h => h.elim, fun _ => ⟨hind, ?_⟩⟩
      · rcases hl with hl | hl
        · exact ⟨[], by simpa [Sys.setAddr, Sys.setDin, Sys.setInode] using hl, by simp⟩
        · exact ⟨[m, x], hl, by simp [hind, hx0]⟩
      · rw [slack, indirect, if_pos h0, Finset.card_singleton]
  · simp only [h0, if_false]
    exact ⟨∅, .refl .., fun h => h.elim, fun _ => ⟨rfl, by simp⟩⟩

/-- A part of `bmap` is followed by one that finds the block. -/
theorem Costs.after (h : Charged k F s s1) (hF : F.card ≤ slack s k) (hs : slack s1 k = 0)
    (h' : Costs k 2 a s1 s') : Costs k 2 a s s' := by
  obtain ⟨G, hG, ha, hc⟩ := h'
  refine ⟨F ∪ G, h.trans hG, Finset.mem_union_right _ ha, ?_⟩
  have := Finset.card_union_le F G
  omega

theorem Costs.refl (k a : ℕ) (s : Sys) : Costs k 1 a s s :=
  ⟨{a}, .refl .., Finset.mem_singleton_self a, by rw [Finset.card_singleton]⟩

theorem Costs.mono {c c' : ℕ} (h : Costs k c a s s') (hc : c ≤ c') : Costs k c' a s s' := by
  obtain ⟨F, hF, ha, hn⟩ := h
  exact ⟨F, hF, ha, by omega⟩

/-- The indirect block is written after an entry was found for it. -/
theorem Costs.entry {x : ℕ} {v : Block} (hx : indirect s k = x) (hx0 : x ≠ 0) (h : Costs k 2 b s s1) :
    Costs k 2 b s (logWrite x (s1.put x v)) := by
  obtain ⟨F, ⟨⟨l, hl, hF⟩, hk, hlock, href⟩, hb, hc⟩ := h
  have h1 : indirect s1 k = x := (hk (by rwa [hx])).trans hx
  have h2 : indirect (logWrite x (s1.put x v)) k = x := h1
  refine ⟨F, ⟨⟨l ++ [x], ?_, fun y hy => ?_⟩, fun _ => h2.trans hx.symm, hlock, href⟩, hb, hc⟩
  · rw [← List.append_assoc, ← hl]
    rfl
  · rcases List.mem_append.mp hy with hy | hy
    · exact hF y hy
    · rw [List.mem_singleton] at hy
      exact .inr ⟨hy.trans h2.symm, by rwa [hy]⟩

/-- **What `bmap` logs**: the block and the map block it was found in, and once
the indirect block with its own. -/
theorem bmap_costs (sb : Super) (k : ℕ) (s : Sys) {bn : ℕ} (hbn : bn < MAXFILE) :
    ∃ a s', bmap sb k bn s = .ok (a, s') ∧ Costs k 2 a s s' := by
  unfold bmap
  by_cases hd : bn < NDIRECT
  · rw [if_pos hd]
    by_cases h0 : (s.itable k).din.addr bn = 0
    · simp only [h0, if_true]
      obtain ⟨b, s1, hb⟩ : ∃ b s1, balloc sb s = (b, s1) := ⟨_, _, rfl⟩
      rw [hb]
      by_cases hb0 : b = 0
      · exact ⟨0, s1, by rw [if_pos hb0], hb0 ▸ balloc_costs hb⟩
      · exact ⟨b, _, by rw [if_neg hb0], (balloc_costs hb).setAddr hd⟩
    · simp only [h0, if_false]
      exact ⟨_, s, rfl, (Costs.refl k _ s).mono (by omega)⟩
  · have hj : bn - NDIRECT < NINDIRECT := by
      unfold MAXFILE at hbn
      omega
    rw [if_neg hd, if_pos hj]
    obtain ⟨F, hF, hzero, hsome⟩ := loadIndirect_charged sb k s
    rcases hl : loadIndirect sb k s with ⟨x, s1⟩
    rw [hl] at hF hzero hsome
    by_cases hx0 : x = 0
    · exact ⟨0, s1, by simp only [hx0, if_true], hzero hx0⟩
    · obtain ⟨hx, hcard⟩ := hsome hx0
      simp only at hx hcard
      have hs1 : slack s1 k = 0 := if_neg (by rwa [hx])
      simp only [hx0, if_false]
      by_cases h0 : (s1.data x).rd (4 * (bn - NDIRECT)) 4 = 0
      · simp only [h0, if_true]
        obtain ⟨b, s2, hb⟩ : ∃ b s2, balloc sb s1 = (b, s2) := ⟨_, _, rfl⟩
        rw [hb]
        by_cases hb0 : b = 0
        · exact ⟨0, s2, by rw [if_pos hb0], .after hF hcard hs1 (hb0 ▸ balloc_costs hb)⟩
        · exact ⟨b, _, by rw [if_neg hb0], .after hF hcard hs1 ((balloc_costs hb).entry hx hx0)⟩
      · simp only [h0, if_false]
        exact ⟨_, s1, rfl, .after hF hcard hs1 ((Costs.refl k _ s1).mono (by omega))⟩

/-- A block that is there costs nothing but itself. -/
theorem bmap_exists {bn : ℕ} (hbn : bn < MAXFILE) (h0 : fileBlock s k bn ≠ 0) :
    bmap sb k bn s = .ok (fileBlock s k bn, s) := by
  unfold fileBlock at h0 ⊢
  unfold bmap
  by_cases hd : bn < NDIRECT
  · simp only [if_pos hd] at h0 ⊢
    rw [if_neg h0]
  · have hj : bn - NDIRECT < NINDIRECT := by
      unfold MAXFILE at hbn
      omega
    simp only [if_neg hd, if_pos hj] at h0 ⊢
    have hx : (s.itable k).din.addr NDIRECT ≠ 0 := fun hx => h0 (if_pos hx)
    simp only [if_neg hx] at h0 ⊢
    simp only [loadIndirect, hx, if_false, h0]

/-! ### The loop of `writei` -/

/-- One round of the loop of `writei`: it stops, or the next round goes on. -/
theorem writeLoop_round (src : ℕ → Option UInt8) (addr fuel : ℕ) {n tot off c : ℕ} (hlt : tot < n)
    (hb : bmap sb k (off / BSIZE) s = .ok (a, s1)) (hc : Costs k c a s s1) :
    ∃ s2, Costs k c a s s2 ∧
      (writeLoop sb k src addr n (fuel + 1) tot off s = .ok ((tot, off), s2) ∨
        writeLoop sb k src addr n (fuel + 1) tot off s =
          writeLoop sb k src addr n fuel (tot + min (n - tot) (BSIZE - off % BSIZE))
            (off + min (n - tot) (BSIZE - off % BSIZE)) s2) := by
  rw [writeLoop, if_pos hlt, hb]
  simp only [ok_bind]
  by_cases ha0 : a = 0
  · exact ⟨s1, hc, .inl (if_pos ha0)⟩
  simp only [if_neg ha0]
  obtain ⟨w, hw⟩ : ∃ w, w = eitherCopyin (s1.data a) (off % BSIZE) src (addr + tot)
    (min (n - tot) (BSIZE - off % BSIZE)) := ⟨_, rfl⟩
  rw [← hw]
  obtain ⟨F, hF, ha, hn⟩ := hc
  cases w.2 with
  | true =>
    have hwr := hF.trans (charged_write k ha w.1)
    rw [Finset.union_self] at hwr
    exact ⟨_, ⟨F, hwr, ha, hn⟩, .inr rfl⟩
  | false => exact ⟨s1.put a w.1, ⟨F, ⟨hF.logged, hF.kept, hF.locked, hF.ref⟩, ha, hn⟩, .inl rfl⟩

theorem Costs.trans_charged {c d : ℕ} {F : Finset ℕ} (h : Costs k c a s s1) (hF : Charged k F s1 s')
    (hd : F.card + slack s' k ≤ d + slack s1 k) :
    ∃ G, Charged k G s s' ∧ G.card + slack s' k ≤ c + d + slack s k := by
  obtain ⟨G, hG, -, hc⟩ := h
  refine ⟨G ∪ F, hG.trans hF, ?_⟩
  have := Finset.card_union_le G F
  omega

/-- The rounds from a block boundary on. -/
theorem writeLoop_aligned (sb : Super) (k : ℕ) (src : ℕ → Option UInt8) (addr n : ℕ) :
    ∀ (fuel tot off : ℕ) (s : Sys), (n ≤ tot ∨ off % BSIZE = 0) → off + (n - tot) ≤ MAXFILE * BSIZE →
    ∃ r s' F, writeLoop sb k src addr n fuel tot off s = .ok (r, s') ∧ Charged k F s s' ∧
      F.card + slack s' k ≤ 2 * ((n - tot + BSIZE - 1) / BSIZE) + slack s k
  | 0, tot, off, s, _, _ => ⟨_, s, ∅, rfl, .refl .., by simp⟩
  | fuel + 1, tot, off, s, hal, hmax => by
    by_cases hlt : tot < n
    · have h0 : off % BSIZE = 0 := hal.resolve_left (by omega)
      have hbn : off / BSIZE < MAXFILE := Nat.div_lt_of_lt_mul (by rw [Nat.mul_comm]; omega)
      obtain ⟨a, s1, hb, hc⟩ := bmap_costs sb k s hbn
      obtain ⟨s2, hc2, hstop | hgo⟩ := writeLoop_round src addr fuel hlt hb hc
      · obtain ⟨F, hF, -, hn⟩ := hc2
        refine ⟨_, s2, F, hstop, hF, ?_⟩
        have h1 : 1 ≤ (n - tot + BSIZE - 1) / BSIZE := (Nat.one_le_div_iff (by decide)).mpr (by omega)
        omega
      · rw [h0, Nat.sub_zero] at hgo
        have hB : 0 < BSIZE := by decide
        obtain ⟨m, hm⟩ : ∃ m, min (n - tot) BSIZE = m := ⟨_, rfl⟩
        rw [hm] at hgo
        obtain ⟨r, s', F, hr, hF, hn⟩ := writeLoop_aligned sb k src addr n fuel (tot + m) (off + m) s2
          (by
            by_cases hle : n - tot ≤ BSIZE
            · exact .inl (by omega)
            · right
              rw [show m = BSIZE by omega, Nat.add_mod_right, h0])
          (by omega)
        obtain ⟨G, hG, hcard⟩ := hc2.trans_charged hF hn
        refine ⟨r, s', G, hgo.trans hr, hG, ?_⟩
        -- a round takes off one block, or all that is left
        have hdiv : (n - (tot + m) + BSIZE - 1) / BSIZE + 1 ≤ (n - tot + BSIZE - 1) / BSIZE := by
          rcases Nat.le_total (n - tot) BSIZE with hle | hle
          · rw [show n - (tot + m) + BSIZE - 1 = BSIZE - 1 by omega, Nat.div_eq_of_lt (by omega), Nat.zero_add]
            exact (Nat.one_le_div_iff hB).mpr (by omega)
          · rw [← Nat.add_div_right _ hB]
            apply Nat.div_le_div_right
            omega
        omega
    · refine ⟨(tot, off), s, ∅, ?_, .refl .., by simp⟩
      rw [writeLoop, if_neg hlt]

/-- The whole loop: an unaligned start is in a block that is there. -/
theorem writeLoop_charged (sb : Super) (src : ℕ → Option UInt8) (addr : ℕ) {n off : ℕ} (hn : n ≤ maxChunk)
    (hoff : off ≤ (s.itable k).din.size) (hmax : off + n ≤ MAXFILE * BSIZE) (hh : NoHoles s k) :
    ∃ r s' F, writeLoop sb k src addr n n 0 off s = .ok (r, s') ∧ Charged k F s s' ∧
      F.card + slack s' k ≤ 7 + slack s k := by
  have hB : BSIZE = 1024 := rfl
  have hC : maxChunk = 3072 := rfl
  by_cases hal : n ≤ 0 ∨ off % BSIZE = 0
  · obtain ⟨r, s', F, hr, hF, hc⟩ := writeLoop_aligned sb k src addr n n 0 off s hal hmax
    refine ⟨r, s', F, hr, hF, ?_⟩
    have hdiv : (n - 0 + BSIZE - 1) / BSIZE ≤ 3 := by
      rw [hB]
      omega
    omega
  · rw [not_or] at hal
    obtain ⟨fuel, rfl⟩ : ∃ fuel, n = fuel + 1 := ⟨n - 1, by omega⟩
    have hlt : off / BSIZE * BSIZE < (s.itable k).din.size := by
      have := Nat.div_add_mod off BSIZE
      have := Nat.mul_comm BSIZE (off / BSIZE)
      omega
    have hbn : off / BSIZE < MAXFILE := Nat.div_lt_of_lt_mul (by rw [Nat.mul_comm]; omega)
    obtain ⟨s2, hc2, hstop | hgo⟩ := writeLoop_round src addr fuel
      (Nat.succ_pos fuel) (bmap_exists hbn (hh _ hlt)) (Costs.refl k _ s)
    · obtain ⟨F, hF, -, hc⟩ := hc2
      exact ⟨_, s2, F, hstop, hF, by omega⟩
    · obtain ⟨m, hm⟩ : ∃ m, min (fuel + 1 - 0) (BSIZE - off % BSIZE) = m := ⟨_, rfl⟩
      rw [hm] at hgo
      obtain ⟨r, s', F, hr, hF, hc⟩ := writeLoop_aligned sb k src addr (fuel + 1) fuel (0 + m)
        (off + m) s2 (by rw [hB] at hm ⊢; omega) (by omega)
      obtain ⟨G, hG, hcard⟩ := hc2.trans_charged hF hc
      refine ⟨r, s', G, hgo.trans hr, hG, ?_⟩
      have hdiv : (fuel + 1 - (0 + m) + BSIZE - 1) / BSIZE ≤ 3 := by
        rw [hB]
        omega
      omega

/-- The block numbers a call hands to `log_write`. -/
def newlyLogged (s s' : Sys) : Finset ℕ := (s'.logged.drop s.logged.length).toFinset

/-- With the indirect block and the block of the inode. -/
theorem Charged.card_iupdate (h : Charged k F s s') (hc : F.card + slack s' k ≤ 7 + slack s k) (d : Dinode) :
    (newlyLogged s (iupdate sb k (s'.setDin k d))).card ≤ MAXOPBLOCKS := by
  obtain ⟨⟨l, hl, hF⟩, -, -, -⟩ := h
  obtain ⟨i, hi⟩ : ∃ i, (iupdate sb k (s'.setDin k d)).logged = s.logged ++ (l ++ [i]) :=
    ⟨_, by rw [← List.append_assoc, ← hl]; rfl⟩
  rw [newlyLogged, hi, List.drop_left]
  have hsub : (l ++ [i]).toFinset ⊆ F ∪ {indirect s' k, i} := by
    intro x hx
    rcases List.mem_append.mp (List.mem_toFinset.mp hx) with hx | hx
    · rcases hF x hx with hxF | ⟨hx, -⟩
      · exact Finset.mem_union_left _ hxF
      · exact Finset.mem_union_right _ (by simp [hx])
    · exact Finset.mem_union_right _ (by simp [List.mem_singleton.mp hx])
  have h1 := (Finset.card_le_card hsub).trans (Finset.card_union_le F _)
  have h2 : ({indirect s' k, i} : Finset ℕ).card ≤ 2 := Finset.card_le_two
  have h3 := slack_le s k
  have h4 : MAXOPBLOCKS = 10 := rfl
  omega

theorem writei_quota (sb : Super) (src : ℕ → Option UInt8) (addr : ℕ) (off : UInt32) {n : UInt32}
    (hn : n.toNat ≤ maxChunk) (hh : NoHoles s k) :
    ∃ r s', writei sb k src addr off n s = .ok (r, s') ∧ (newlyLogged s s').card ≤ MAXOPBLOCKS ∧
      (s'.itable k).locked = (s.itable k).locked ∧ (s'.itable k).ref = (s.itable k).ref := by
  have hnone : (newlyLogged s s).card ≤ MAXOPBLOCKS := by simp [newlyLogged]
  unfold writei
  by_cases h1 : (s.itable k).din.size < off.toNat ∨ off + n < off
  · exact ⟨none, s, if_pos h1, hnone, rfl, rfl⟩
  rw [if_neg h1]
  by_cases h2 : MAXFILE * BSIZE < (off + n).toNat
  · exact ⟨none, s, if_pos h2, hnone, rfl, rfl⟩
  rw [if_neg h2]
  rw [not_or, Nat.not_lt, UInt32.lt_iff_toNat_lt, UInt32.toNat_add] at h1
  rw [UInt32.toNat_add] at h2
  have hn0 := n.toNat_lt
  have hoff0 := off.toNat_lt
  obtain ⟨⟨tot, off'⟩, s1, F, hr, hF, hc⟩ := writeLoop_charged sb src addr hn h1.1 (by omega) hh
  rw [hr]
  refine ⟨some tot, _, rfl, hF.card_iupdate hc _, ?_, ?_⟩
  · rw [← hF.locked]
    simp only [iupdate, Sys.putDinode, logWrite, Sys.put, Sys.setDin, Sys.setInode, Function.update_self,
      Inode.withDin]
  · rw [← hF.ref]
    simp only [iupdate, Sys.putDinode, logWrite, Sys.put, Sys.setDin, Sys.setInode, Function.update_self,
      Inode.withDin]

/-- What `ilock` leaves: nothing was logged, and the slot is locked. -/
theorem ilock_locked (h : ilock sb k s = .ok s1) :
    s1.logged = s.logged ∧ (s1.itable k).locked = true ∧ 1 ≤ (s1.itable k).ref := by
  have hset : ∀ ip : Inode, ip.locked = true → 1 ≤ ip.ref →
      ((s.setInode k ip).itable k).locked = true ∧ 1 ≤ ((s.setInode k ip).itable k).ref := by
    intro ip h1 h2
    simp only [Sys.setInode, Function.update_self]
    exact ⟨h1, h2⟩
  unfold ilock at h
  simp only at h
  split at h
  · cases h
  · next href =>
    split at h
    · cases h
    · split at h
      · obtain rfl := Except.ok.inj h
        exact ⟨rfl, hset _ rfl (by simp only; omega)⟩
      · split at h
        · cases h
        · obtain rfl := Except.ok.inj h
          exact ⟨rfl, hset _ rfl (by simp only; omega)⟩

/-- **A chunk of a write fits in one operation.** Whatever the free map and the
file are, a round of the loop of `filewrite` on a file without holes hands at
most `MAXOPBLOCKS` block numbers to `log_write`. -/
theorem filewrite_fits (sb : Super) (src : ℕ → Option UInt8) (addr i n k : ℕ) (off : UInt32) (s s1 : Sys)
    (hl : ilock sb k s = .ok s1) (hh : NoHoles s1 k) :
    ∃ r s', filewriteRound sb k src addr i n off s = .ok (r, s') ∧
      (newlyLogged s s').card ≤ MAXOPBLOCKS := by
  obtain ⟨hlog, hlock, href⟩ := ilock_locked hl
  obtain ⟨n1, hn1⟩ : ∃ n1, (if maxChunk < n - i then maxChunk else n - i) = n1 := ⟨_, rfl⟩
  have hn : (UInt32.ofNat n1).toNat ≤ maxChunk := by
    have h1 : n1 ≤ maxChunk := by
      rw [← hn1]
      split <;> omega
    exact (UInt32.toNat_ofNat (n := n1) ▸ Nat.mod_le n1 _).trans h1
  obtain ⟨r, s2, hw, hcard, hlock2, href2⟩ := writei_quota sb src (addr + i) off hn hh
  have hun : iunlock k s2 = .ok (s2.setInode k { s2.itable k with locked := false }) := by
    rw [iunlock, if_neg]
    rw [hlock2, hlock, href2]
    simp
    omega
  refine ⟨(r, off + .ofNat (r.getD 0)), s2.setInode k { s2.itable k with locked := false }, ?_, ?_⟩
  · rw [filewriteRound, hn1]
    simp only [hl, ok_bind, hw, hun]
  · rw [newlyLogged, hlog] at hcard
    exact hcard

/-- A file of seven bytes in block 50, in a slot nobody has locked. -/
def sevenBytes : Sys where
  data := fun _ => .zero
  stable := fun _ => .zero
  logged := []
  itable := fun _ => ⟨1, 1, false, true, { Dinode.zero.setAddr 0 50 with type := 2, nlink := 1, size := 7 }⟩

theorem filewrite_fits_sevenBytes : ∃ r s', filewriteRound ⟨2000, 1954, 200, 30, 2, 32, 45⟩ 0
    (fun _ => some 1) 0 0 5000 7 sevenBytes = .ok (r, s') ∧ (newlyLogged sevenBytes s').card ≤ MAXOPBLOCKS := by
  refine filewrite_fits _ _ 0 0 5000 0 7 sevenBytes _ rfl fun bn hbn => ?_
  have h0 : bn * 1024 < 7 := hbn
  obtain rfl : bn = 0 := by omega
  decide

end Fs
end Xv6
