/-
# Disk block ownership

Every function of `fs.c` that touches the block maps keeps the ownership
invariant (`FsOk`): `bmap` may add a block and its indirect block
(`bmap_spec`), `writei` adds blocks below the size it sets (`writei_spec`),
`itrunc` gives all of them back (`itrunc_spec`). As no block below a file's
size is missing, `readi` never allocates (`readi_spec`), and a block that
is freed is marked, so `bfree` does not panic.

Key definitions: `Fs.FsOk`, `Fs.Grows`, `Fs.Emptied`.
Key theorems: `Fs.bmap_spec`, `Fs.readi_spec`, `Fs.writei_spec`, `Fs.itrunc_spec`.
-/
import Xv6.FsView

namespace Xv6
namespace Fs

/-- The ownership invariant, and an inode table in order. -/
structure FsOk (sb : Super) (data : ℕ → Block) (tab : ℕ → Inode) : Prop where
  fs : Consistent sb (inodes sb data tab) (ents sb data) (bits sb data)
  table : TableOk sb data tab

/-- Slot `k` holds a valid copy of an inode. -/
structure Valid (tab : ℕ → Inode) (k : ℕ) : Prop where
  lt : k < NINODE
  ref : 0 < (tab k).ref
  valid : (tab k).valid = true

/-- The block number in a place of an inode, as the kernel sees it. -/
def Sys.held (sb : Super) (s : Sys) : ℕ × ℕ → ℕ :=
  target sb (inodes sb s.data s.itable) (ents sb s.data)

variable {sb : Super} {data data' : ℕ → Block} {tab tab' : ℕ → Inode} {s s' s1 : Sys} {k b : ℕ}

/-! ### The inode table -/

/-- What the kernel sees of inode `i` depends on the copies and on the disk inode. -/
theorem inodes_congr {i : ℕ} (hc : ∀ l, (tab' l).copy i = (tab l).copy i)
    (hd : dinodes sb data' i = dinodes sb data i) : inodes sb data' tab' i = inodes sb data tab i := by
  simp only [inodes, hc, hd]

theorem copy_update {ip : Inode} {i l : ℕ} (h : ip.copy i = (tab k).copy i) :
    (Function.update tab k ip l).copy i = (tab l).copy i := by
  by_cases hl : l = k
  · rw [hl, Function.update_self, h]
  · rw [Function.update_of_ne hl]

theorem Valid.copy_self (hk : Valid tab k) : (tab k).copy (tab k).inum = some (tab k).din :=
  copy_eq_some.mpr ⟨hk.ref, hk.valid, rfl, rfl⟩

/-- A slot has a copy of one inode only. -/
theorem copy_of_ne {ip : Inode} {i : ℕ} (h : ip.inum ≠ i) : ip.copy i = none := if_neg fun hc => h hc.2.2

theorem TableOk.inodes_self (h : TableOk sb data tab) (hk : Valid tab k) :
    inodes sb data tab (tab k).inum = (tab k).din := h.inodes_of_copy hk.lt hk.copy_self

/-- A slot changes, and the rest of the table stays. -/
theorem TableOk.set (h : TableOk sb data tab) {ip : Inode}
    (hu : 0 < ip.ref → ∀ l, l < NINODE → l ≠ k → 0 < (tab l).ref → (tab l).inum ≠ ip.inum)
    (hv : 0 < ip.ref → ip.valid = true → (1 ≤ ip.inum ∧ ip.inum < sb.ninodes) ∧
      (ip.din.type ≠ 0 ∧ (dinodes sb data ip.inum).type = ip.din.type) ∧ ip.din.InRange) :
    TableOk sb data (Function.update tab k ip) := by
  have hne : ∀ l, l ≠ k → Function.update tab k ip l = tab l := fun l hl => Function.update_of_ne hl ..
  have hself : Function.update tab k ip k = ip := Function.update_self ..
  refine ⟨fun l m hl hm h1 h2 he => ?_, fun l hl h1 h2 => ?_, fun l hl h1 h2 => ?_, fun l hl h1 h2 => ?_⟩
  · by_cases hlk : l = k
    · by_cases hmk : m = k
      · rw [hlk, hmk]
      · rw [hlk, hself] at h1 he
        rw [hne m hmk] at h2 he
        exact absurd he.symm (hu h1 m hm hmk h2)
    · rw [hne l hlk] at h1 he
      by_cases hmk : m = k
      · rw [hmk, hself] at h2 he
        exact absurd he (hu h2 l hl hlk h1)
      · rw [hne m hmk] at h2 he
        exact h.unique l m hl hm h1 h2 he
  · by_cases hlk : l = k
    · rw [hlk, hself] at h1 h2 ⊢
      exact (hv h1 h2).1
    · rw [hne l hlk] at h1 h2 ⊢
      exact h.inum l hl h1 h2
  · by_cases hlk : l = k
    · rw [hlk, hself] at h1 h2 ⊢
      exact (hv h1 h2).2.1
    · rw [hne l hlk] at h1 h2 ⊢
      exact h.type l hl h1 h2
  · by_cases hlk : l = k
    · rw [hlk, hself] at h1 h2 ⊢
      exact (hv h1 h2).2.2
    · rw [hne l hlk] at h1 h2 ⊢
      exact h.range l hl h1 h2

/-- The table depends on the types of the disk inodes only. -/
theorem TableOk.congr (h : TableOk sb data tab)
    (hd : ∀ l, Valid tab l →
      (dinodes sb data' (tab l).inum).type = (dinodes sb data (tab l).inum).type) :
    TableOk sb data' tab where
  unique := h.unique
  inum := h.inum
  type l hl h1 h2 := by
    rw [hd l ⟨hl, h1, h2⟩]
    exact h.type l hl h1 h2
  range := h.range

/-- The copy in slot `k` changes. -/
theorem TableOk.setDin (h : TableOk sb data tab) (hk : Valid tab k) {d : Dinode}
    (ht : d.type = (tab k).din.type) (hr : d.InRange) :
    TableOk sb data (Function.update tab k ((tab k).withDin d)) := by
  refine h.set (fun h1 l hl hlk h2 e => hlk (h.unique l k hl hk.lt h2 h1 e)) fun h1 h2 => ?_
  obtain ⟨g1, g2⟩ := h.type k hk.lt h1 h2
  exact ⟨h.inum k hk.lt h1 h2, ⟨ht ▸ g1, ht ▸ g2⟩, hr⟩

theorem TableOk.inodes_setDin (h : TableOk sb data tab) (hk : Valid tab k) {d : Dinode}
    (ht : d.type = (tab k).din.type) (hr : d.InRange) :
    inodes sb data (Function.update tab k ((tab k).withDin d)) =
      Function.update (inodes sb data tab) (tab k).inum d := by
  have h' := h.setDin hk ht hr
  have hself : Function.update tab k ((tab k).withDin d) k = (tab k).withDin d :=
    Function.update_self ..
  have hk' : Valid (Function.update tab k ((tab k).withDin d)) k :=
    ⟨hk.lt, by rw [hself]; exact hk.ref, by rw [hself]; exact hk.valid⟩
  funext i
  by_cases hi : i = (tab k).inum
  · have := h'.inodes_self hk'
    rw [hself] at this
    rw [hi, Function.update_self]
    exact this
  · rw [Function.update_of_ne hi]
    refine inodes_congr (fun l => copy_update ?_) rfl
    have hnone : ((tab k).withDin d).copy i = none := copy_of_ne (Ne.symm hi)
    rw [hnone, copy_of_ne (Ne.symm hi)]

theorem FsOk.alloc (h : FsOk sb data tab) (hk : Valid tab k) :
    Alloc sb (inodes sb data tab) (tab k).inum := by
  obtain ⟨h1, h2⟩ := h.table.inum k hk.lt hk.ref hk.valid
  refine ⟨h1, h2, ?_⟩
  rw [h.table.inodes_self hk]
  exact (h.table.type k hk.lt hk.ref hk.valid).1

/-! ### `bmap` -/

/-- What `bmap` on slot `k` does to the rest: other slots and the other fields
of the inode stay, and no place loses its block. -/
structure Grows (sb : Super) (k : ℕ) (s s' : Sys) : Prop where
  table : ∃ f, s'.itable =
    Function.update s.itable k ((s.itable k).withDin { (s.itable k).din with addrs := f })
  kept : ∀ p, s.held sb p ≠ 0 → s'.held sb p = s.held sb p

namespace Grows

theorem refl (sb : Super) (k : ℕ) (s : Sys) : Grows sb k s s :=
  ⟨⟨(s.itable k).din.addrs, (Function.update_eq_self k s.itable).symm⟩, fun _ _ => rfl⟩

theorem trans (h : Grows sb k s s1) (h' : Grows sb k s1 s') : Grows sb k s s' := by
  obtain ⟨⟨f, hf⟩, hk⟩ := h
  obtain ⟨⟨g, hg⟩, hk'⟩ := h'
  refine ⟨⟨g, ?_⟩, fun p hp => ?_⟩
  · rw [hg, hf, Function.update_self, Function.update_idem]
    rfl
  · rw [hk' p (by rwa [hk p hp]), hk p hp]

/-- The fields of the slot other than the block numbers. -/
theorem slot (h : Grows sb k s s') : ∃ f,
    s'.itable k = (s.itable k).withDin { (s.itable k).din with addrs := f } := by
  obtain ⟨⟨f, hf⟩, -⟩ := h
  exact ⟨f, by rw [hf, Function.update_self]⟩

theorem valid (h : Grows sb k s s') (hk : Valid s.itable k) : Valid s'.itable k := by
  obtain ⟨f, hf⟩ := h.slot
  exact ⟨hk.lt, by rw [hf]; exact hk.ref, by rw [hf]; exact hk.valid⟩

theorem inum (h : Grows sb k s s') : (s'.itable k).inum = (s.itable k).inum := by
  obtain ⟨f, hf⟩ := h.slot
  rw [hf]
  rfl

theorem size (h : Grows sb k s s') : (s'.itable k).din.size = (s.itable k).din.size := by
  obtain ⟨f, hf⟩ := h.slot
  rw [hf]
  rfl

end Grows

theorem FsOk.low (h : FsOk sb s.data s.itable) : ∀ b, b < sb.datastart → bits sb s.data b = true :=
  h.fs.owns.low

theorem inRange_setAddr {d : Dinode} {q a : ℕ} (h : d.InRange) (hq : q ≤ NDIRECT) (ha : a < 2 ^ 32) :
    (d.setAddr q a).InRange where
  type := h.type
  major := h.major
  minor := h.minor
  nlink := h.nlink
  size := h.size
  addr r := by
    rw [Dinode.addr_setAddr hq]
    split
    · exact ha
    · exact h.addr r

theorem Super.Layout.lt_uint (hL : sb.Layout) (hb : b < sb.size) : b < 2 ^ 32 := by
  have := hL.int
  omega

/-- `addrs[q]` gets a block that `balloc` has just given out. -/
theorem setAddr_spec (hL : sb.Layout) (h : FsOk sb s.data s.itable) (hk : Valid s.itable k) {q : ℕ}
    (hq : q ≤ NDIRECT) (h0 : (s.itable k).din.addr q = 0) (ha : Allocated sb b s s1) :
    FsOk sb (s1.setAddr k q b).data (s1.setAddr k q b).itable ∧ Grows sb k s (s1.setAddr k q b) ∧
      (s1.setAddr k q b).held sb ((s.itable k).inum, q) = b := by
  have htab : (s1.setAddr k q b).itable =
      Function.update s.itable k ((s.itable k).withDin ((s.itable k).din.setAddr q b)) := by
    unfold Sys.setAddr Sys.setDin Sys.setInode
    rw [ha.itable]
  have hdata : (s1.setAddr k q b).data = s1.data := rfl
  have hself := h.table.inodes_self hk
  have ht : ((s.itable k).din.setAddr q b).type = (s.itable k).din.type := rfl
  have hr := inRange_setAddr (h.table.range k hk.lt hk.ref hk.valid) hq (hL.lt_uint ha.lt)
  have hino : inodes sb s1.data (s1.setAddr k q b).itable =
      Function.update (inodes sb s.data s.itable) (s.itable k).inum
        ((inodes sb s.data s.itable (s.itable k).inum).setAddr q b) := by
    rw [htab, hself, ← h.table.inodes_setDin hk ht hr]
    funext i
    exact inodes_congr (fun _ => rfl) (congrFun ha.dinodes i)
  have h0' : (inodes sb s.data s.itable (s.itable k).inum).addr q = 0 := by rw [hself, h0]
  have hal := h.alloc hk
  have htgt : (s1.setAddr k q b).held sb =
      Function.update (s.held sb) ((s.itable k).inum, q) b := by
    rw [Sys.held, hdata, hino, ha.ents]
    exact h.fs.target_assign hal hq h0' ha.free
  have hfree : s.held sb ((s.itable k).inum, q) = 0 := by
    rw [Sys.held, target_of_alloc hal (by unfold NPLACE; omega), place_direct _ hq, h0']
  refine ⟨⟨?_, ?_⟩, ⟨⟨_, htab⟩, fun p hp => ?_⟩, by rw [htgt, Function.update_self]⟩
  · rw [hdata, hino, ha.ents, ha.bits]
    exact h.fs.assign hal hq h0' ha.lt ha.free
  · rw [hdata, htab]
    exact (h.table.setDin hk ht hr).congr fun l _ => by rw [ha.dinodes]
  · rw [htgt]
    apply Function.update_of_ne
    rintro rfl
    exact hp hfree

/-- An entry of the indirect block gets a block that `balloc` has just given out. -/
theorem setEntry_spec (hL : sb.Layout) (h : FsOk sb s.data s.itable) (hk : Valid s.itable k) {j x : ℕ}
    (hj : j < NINDIRECT) (hx : (s.itable k).din.addr NDIRECT = x) (hx0 : x ≠ 0)
    (h0 : (s.data x).rd (4 * j) 4 = 0) (ha : Allocated sb b s s1)
    (hs' : s' = logWrite x (s1.put x ((s1.data x).wr (4 * j) 4 b))) :
    FsOk sb s'.data s'.itable ∧ Grows sb k s s' ∧
      s'.held sb ((s.itable k).inum, NDIRECT + 1 + j) = b := by
  have htab : s'.itable = s.itable := by
    rw [hs']
    exact ha.itable
  have hself := h.table.inodes_self hk
  have hal := h.alloc hk
  have hxi : (inodes sb s.data s.itable (s.itable k).inum).addr NDIRECT = x := by rw [hself, hx]
  have hheld := target_indirect (ents sb s.data) hal
  rw [hxi] at hheld
  obtain ⟨hx1, hx2⟩ := h.fs.owns.range ((s.itable k).inum, NDIRECT) (by rwa [hheld])
  rw [hheld] at hx1 hx2
  have hxb : x ≠ b := by
    rw [← hxi]
    exact h.fs.indirect_ne_free ha.free hal (by rwa [hxi])
  have hent0 : ∀ l, l < NINDIRECT → ents sb s.data x l = (s.data x).rd (4 * l) 4 :=
    fun l hl => if_pos ⟨hx1, hx2, hl⟩
  have hino : inodes sb s'.data s'.itable = inodes sb s.data s.itable := by
    rw [htab, hs']
    funext i
    refine inodes_congr (fun _ => rfl) ?_
    simp only [logWrite, Sys.put]
    rw [dinodes_data hL hx1 hx2, ha.dinodes]
  have hbits : bits sb s'.data = Function.update (bits sb s.data) b true := by
    rw [hs']
    simp only [logWrite, Sys.put]
    rw [bits_data hL hx1, ha.bits]
  have hents : ents sb s'.data = Function.update (Function.update (ents sb s.data) b fun _ => 0) x
      (Function.update (ents sb s.data x) j b) := by
    rw [hs']
    simp only [logWrite, Sys.put]
    rw [ents_data hx1 hx2, ha.ents]
    congr 1
    funext l
    have hlt : 4 * j + 4 ≤ BSIZE := by
      unfold NINDIRECT at hj
      omega
    by_cases hlj : l = j
    · rw [hlj, if_pos hj, Function.update_self, Block.rd_wr hlt]
      exact Nat.mod_eq_of_lt (hL.lt_uint ha.lt)
    · rw [Function.update_of_ne hlj]
      by_cases hl : l < NINDIRECT
      · have hl' : 4 * l + 4 ≤ BSIZE := by
          unfold NINDIRECT at hl
          omega
        have hb : ents sb s1.data x l = ents sb s.data x l := by
          rw [ha.ents, Function.update_of_ne hxb]
        rw [if_pos hl, Block.rd_wr_disjoint hl' (by omega), ← hb]
        exact (if_pos ⟨hx1, hx2, hl⟩).symm
      · rw [if_neg hl]
        exact (if_neg fun hc => hl hc.2.2).symm
  have htgt : s'.held sb = Function.update (s.held sb) ((s.itable k).inum, NDIRECT + 1 + j) b := by
    rw [Sys.held, hino, hents, ← hxi]
    exact h.fs.target_assignEntry hal (by rwa [hxi]) hj ha.free
  have hfree : s.held sb ((s.itable k).inum, NDIRECT + 1 + j) = 0 := by
    rw [Sys.held, target_of_alloc hal (by unfold NPLACE; omega), place_entry (by rwa [hxi]), hxi,
      hent0 j hj, h0]
  refine ⟨⟨?_, ?_⟩, ⟨⟨(s.itable k).din.addrs, ?_⟩, fun p hp => ?_⟩, by rw [htgt, Function.update_self]⟩
  · rw [hino, hents, hbits, ← hxi]
    exact h.fs.assignEntry hal (by rwa [hxi]) hj (by rw [hxi, hent0 j hj, h0]) ha.lt ha.free
  · rw [htab]
    refine h.table.congr fun l _ => ?_
    rw [hs']
    simp only [logWrite, Sys.put]
    rw [dinodes_data hL hx1 hx2, ha.dinodes]
  · rw [htab]
    exact (Function.update_eq_self k s.itable).symm
  · rw [htgt]
    apply Function.update_of_ne
    rintro rfl
    exact hp hfree

theorem FsOk.held_direct (h : FsOk sb s.data s.itable) (hk : Valid s.itable k) {q : ℕ} (hq : q ≤ NDIRECT) :
    s.held sb ((s.itable k).inum, q) = (s.itable k).din.addr q := by
  rw [Sys.held, target_of_alloc (h.alloc hk) (by unfold NPLACE; omega), place_direct _ hq,
    h.table.inodes_self hk]

theorem FsOk.held_entry (h : FsOk sb s.data s.itable) (hk : Valid s.itable k) {j : ℕ} (hj : j < NINDIRECT) :
    s.held sb ((s.itable k).inum, NDIRECT + 1 + j) =
      if (s.itable k).din.addr NDIRECT = 0 then 0
      else (s.data ((s.itable k).din.addr NDIRECT)).rd (4 * j) 4 := by
  have hself := h.table.inodes_self hk
  rw [Sys.held, target_of_alloc (h.alloc hk) (by unfold NPLACE; omega)]
  by_cases h0 : (s.itable k).din.addr NDIRECT = 0
  · rw [if_pos h0, place_above _ (by omega), hself, if_pos h0]
  · have hr := h.fs.owns.range ((s.itable k).inum, NDIRECT) (by
      rwa [target_indirect _ (h.alloc hk), hself])
    rw [target_indirect _ (h.alloc hk), hself] at hr
    rw [if_neg h0, place_entry (by rwa [hself]), hself]
    exact if_pos ⟨hr.1, hr.2, hj⟩

/-- What `bmap` gives for block `bn` of the inode in slot `k`. -/
structure Mapped (sb : Super) (k bn : ℕ) (s : Sys) (a : ℕ) (s' : Sys) : Prop where
  ok : FsOk sb s'.data s'.itable
  grows : Grows sb k s s'
  held : a ≠ 0 → s'.held sb ((s.itable k).inum, blockPlace bn) = a
  old : s.held sb ((s.itable k).inum, blockPlace bn) ≠ 0 → a ≠ 0 ∧ s' = s

theorem loadIndirect_spec (hL : sb.Layout) (h : FsOk sb s.data s.itable) (hk : Valid s.itable k) :
    ∃ x s', loadIndirect sb k s = (x, s') ∧ FsOk sb s'.data s'.itable ∧ Grows sb k s s' ∧
      (x ≠ 0 → (s'.itable k).din.addr NDIRECT = x) ∧
      ((s.itable k).din.addr NDIRECT ≠ 0 → x ≠ 0 ∧ s' = s) := by
  unfold loadIndirect
  by_cases h0 : (s.itable k).din.addr NDIRECT = 0
  · simp only [h0, if_true]
    rcases balloc_spec hL h.low with ⟨hb, -⟩ | ⟨b, s1, hb, ha⟩
    · rw [hb]
      exact ⟨0, s, by simp, h, .refl .., fun hc => absurd rfl hc, fun hc => absurd rfl hc⟩
    · have hb0 : b ≠ 0 := by
        have := hL.pos
        have := ha.data
        omega
      obtain ⟨hok, hg, -⟩ := setAddr_spec hL h hk le_rfl h0 ha
      rw [hb]
      refine ⟨b, s1.setAddr k NDIRECT b, by simp [hb0], hok, hg, fun _ => ?_, fun hc => absurd rfl hc⟩
      simp [Sys.setAddr, Sys.setDin, Sys.setInode, Inode.withDin, Dinode.addr_setAddr]
  · exact ⟨_, s, by simp [h0], h, .refl .., fun _ => rfl, fun _ => ⟨h0, rfl⟩⟩

theorem bmap_direct (hL : sb.Layout) (h : FsOk sb s.data s.itable) (hk : Valid s.itable k) {bn : ℕ}
    (hbn : bn < NDIRECT) : ∃ a s', bmap sb k bn s = .ok (a, s') ∧ Mapped sb k bn s a s' := by
  have hp : blockPlace bn = bn := if_pos hbn
  have hheld := h.held_direct hk hbn.le
  unfold bmap
  rw [if_pos hbn]
  by_cases h0 : (s.itable k).din.addr bn = 0
  · simp only [h0, if_true]
    rcases balloc_spec hL h.low with ⟨hb, -⟩ | ⟨b, s1, hb, ha⟩
    · rw [hb]
      refine ⟨0, s, by simp, h, .refl .., fun hc => absurd rfl hc, fun hc => ?_⟩
      rw [hp, hheld] at hc
      exact absurd h0 hc
    · have hb0 : b ≠ 0 := by
        have := hL.pos
        have := ha.data
        omega
      obtain ⟨hok, hg, hnew⟩ := setAddr_spec hL h hk hbn.le h0 ha
      rw [hb]
      refine ⟨b, s1.setAddr k bn b, by simp [hb0], hok, hg, fun _ => by rwa [hp], fun hc => ?_⟩
      rw [hp, hheld] at hc
      exact absurd h0 hc
  · exact ⟨_, s, by simp [h0], h, .refl .., fun _ => by rw [hp, hheld], fun _ => ⟨h0, rfl⟩⟩

theorem bmap_indirect (hL : sb.Layout) (h : FsOk sb s.data s.itable) (hk : Valid s.itable k) {j : ℕ}
    (hj : j < NINDIRECT) :
    ∃ a s', bmap sb k (NDIRECT + j) s = .ok (a, s') ∧ Mapped sb k (NDIRECT + j) s a s' := by
  have hp : blockPlace (NDIRECT + j) = NDIRECT + 1 + j := by
    rw [blockPlace, if_neg (by omega)]
    omega
  obtain ⟨x, s2, hl, hok, hg, hx, hold⟩ := loadIndirect_spec hL h hk
  have hk2 := hg.valid hk
  have hheld := hok.held_entry hk2 hj
  -- a block that was there already, before the indirect block was loaded
  have hback : s.held sb ((s.itable k).inum, NDIRECT + 1 + j) ≠ 0 → x ≠ 0 ∧ s2 = s := by
    intro hc
    apply hold
    intro h0
    rw [h.held_entry hk hj, if_pos h0] at hc
    exact hc rfl
  unfold bmap
  rw [if_neg (by omega), Nat.add_sub_cancel_left, if_pos hj, hl]
  by_cases hx0 : x = 0
  · refine ⟨0, s2, by simp [hx0], hok, hg, fun hc => absurd rfl hc, fun hc => ?_⟩
    rw [hp] at hc
    exact absurd hx0 (hback hc).1
  · rw [hx hx0, if_neg hx0] at hheld
    simp only [hx0, if_false]
    by_cases h0 : (s2.data x).rd (4 * j) 4 = 0
    · simp only [h0, if_true]
      rw [h0] at hheld
      have hnone : s.held sb ((s.itable k).inum, blockPlace (NDIRECT + j)) = 0 := by
        by_contra hc
        rw [hp] at hc
        rw [(hback hc).2] at hheld
        exact hc hheld
      rcases balloc_spec hL hok.low with ⟨hb, -⟩ | ⟨b, s1, hb, ha⟩
      · rw [hb]
        exact ⟨0, s2, by simp, hok, hg, fun hc => absurd rfl hc, fun hc => absurd hnone hc⟩
      · have hb0 : b ≠ 0 := by
          have := hL.pos
          have := ha.data
          omega
        obtain ⟨hok', hg', hnew⟩ := setEntry_spec hL hok hk2 hj (hx hx0) hx0 h0 ha rfl
        rw [hb]
        refine ⟨b, _, by simp only [hb0, if_false], hok', hg.trans hg', fun _ => ?_,
          fun hc => absurd hnone hc⟩
        rw [hp, ← hg.inum]
        exact hnew
    · refine ⟨(s2.data x).rd (4 * j) 4, s2, by simp [h0], hok, hg, fun _ => ?_, fun hc => ?_⟩
      · rw [hp, ← hg.inum, hheld]
      · rw [hp] at hc
        exact ⟨h0, (hback hc).2⟩

/-- **`bmap`** gives the block it has, or a fresh one, or 0 and the map it had. -/
theorem bmap_spec (hL : sb.Layout) (h : FsOk sb s.data s.itable) (hk : Valid s.itable k) {bn : ℕ}
    (hbn : bn < MAXFILE) : ∃ a s', bmap sb k bn s = .ok (a, s') ∧ Mapped sb k bn s a s' := by
  rcases Nat.lt_or_ge bn NDIRECT with hlt | hge
  · exact bmap_direct hL h hk hlt
  · obtain ⟨j, rfl⟩ := Nat.exists_eq_add_of_le hge
    apply bmap_indirect hL h hk
    unfold MAXFILE at hbn
    omega

/-! ### `readi` -/

/-- Block `off / BSIZE` is below `MAXFILE` while there are bytes left. -/
theorem div_lt_maxfile {off r : ℕ} (h : off + r ≤ MAXFILE * BSIZE) (hr : 0 < r) : off / BSIZE < MAXFILE :=
  Nat.div_lt_of_lt_mul (by rw [Nat.mul_comm]; omega)

/-- One round of a copying loop ends inside the block it is in. -/
theorem round_le (off r : ℕ) : off + min r (BSIZE - off % BSIZE) ≤ (off / BSIZE + 1) * BSIZE := by
  have h1 := Nat.div_add_mod off BSIZE
  have h2 := Nat.mod_lt off (show 0 < BSIZE by decide)
  rw [Nat.add_mul, Nat.mul_comm (off / BSIZE), Nat.one_mul]
  omega

theorem lt_of_round {off m n : ℕ} (h : n * BSIZE < off + m) (hm : off + m ≤ (off / BSIZE + 1) * BSIZE) :
    n * BSIZE < off ∨ n = off / BSIZE := by
  have hn : n < off / BSIZE + 1 := Nat.lt_of_mul_lt_mul_right (h.trans_le hm)
  rcases Nat.lt_succ_iff_lt_or_eq.mp hn with h1 | h1
  · left
    have h2 : (n + 1) * BSIZE ≤ off / BSIZE * BSIZE := Nat.mul_le_mul_right _ h1
    have h3 := Nat.div_mul_le_self off BSIZE
    have h4 : 0 < BSIZE := by decide
    rw [Nat.add_mul] at h2
    omega
  · exact .inr h1

/-- The loop of `readi` finds every block it asks for, so it leaves the state alone. -/
theorem readLoop_spec (hL : sb.Layout) (h : FsOk sb s.data s.itable) (hk : Valid s.itable k)
    {dst : ℕ → Bool} {a n : ℕ} : ∀ (fuel tot off : ℕ) (out : List UInt8),
    off + (n - tot) ≤ MAXFILE * BSIZE →
    (∀ m, m * BSIZE < off + (n - tot) → s.held sb ((s.itable k).inum, blockPlace m) ≠ 0) →
    ∃ r, readLoop sb k dst a n fuel tot off out s = .ok (r, s)
  | 0, _, _, _, _, _ => ⟨_, rfl⟩
  | fuel + 1, tot, off, out, hsz, hmap => by
    unfold readLoop
    by_cases hlt : tot < n
    · rw [if_pos hlt]
      obtain ⟨b, s1, hb, hm⟩ := bmap_spec hL h hk (div_lt_maxfile hsz (by omega))
      have hhere : off / BSIZE * BSIZE < off + (n - tot) := by
        have := Nat.div_mul_le_self off BSIZE
        omega
      obtain ⟨hb0, hs1⟩ := hm.old (hmap _ hhere)
      rw [hb, hs1]
      simp only [bind, Except.bind, hb0, if_false]
      split
      · have hle : min (n - tot) (BSIZE - off % BSIZE) ≤ n - tot := Nat.min_le_left ..
        generalize min (n - tot) (BSIZE - off % BSIZE) = m at *
        exact readLoop_spec hL h hk fuel (tot + m) (off + m) _ (by omega) fun l hl =>
          hmap l (by omega)
      · exact ⟨_, rfl⟩
    · rw [if_neg hlt]
      exact ⟨_, rfl⟩

/-- A sum of `uint`s that has not wrapped. -/
theorem uint_add {a b : UInt32} (h : ¬ a + b < a) : (a + b).toNat = a.toNat + b.toNat := by
  rw [UInt32.lt_iff_toNat_lt, UInt32.toNat_add] at h
  have h1 := a.toNat_lt
  have h2 := b.toNat_lt
  rw [UInt32.toNat_add]
  omega

/-- **`readi` never allocates**: it changes nothing. -/
theorem readi_spec (hL : sb.Layout) (h : FsOk sb s.data s.itable) (hk : Valid s.itable k)
    (dst : ℕ → Bool) (a : ℕ) (off n : UInt32) : ∃ r, readi sb k dst a off n s = .ok (r, s) := by
  unfold readi
  have hself := h.table.inodes_self hk
  have hsmall := h.fs.small _ (h.alloc hk)
  rw [hself] at hsmall
  simp only
  split
  · exact ⟨_, rfl⟩
  · next hc =>
    rw [not_or, Nat.not_lt] at hc
    have hle : off.toNat + (if (s.itable k).din.size < (off + n).toNat
        then (s.itable k).din.size - off.toNat else n.toNat) ≤ (s.itable k).din.size := by
      split
      · omega
      · have := uint_add hc.2
        omega
    refine readLoop_spec hL h hk _ _ _ _ (by omega) fun m hm => ?_
    apply h.fs.noHoles _ _ (h.alloc hk)
    rw [hself]
    omega

/-! ### `iupdate` and `writei` -/

/-- What overwriting the disk inode `i` changes. -/
theorem putDinode_view (hL : sb.Layout) {i : ℕ} (hi : i < sb.ninodes) {d : Dinode} (hd : d.InRange) :
    bits sb (s.putDinode sb i d).data = bits sb s.data ∧
      ents sb (s.putDinode sb i d).data = ents sb s.data ∧
      dinodes sb (s.putDinode sb i d).data = Function.update (dinodes sb s.data) i d :=
  ⟨bits_inode hL hi, ents_inode hL hi, dinodes_put hi hd⟩

/-- Writing the copy in a slot back to disk changes nothing the kernel sees. -/
theorem iupdate_inodes (hL : sb.Layout) (h : TableOk sb s.data s.itable) (hk : Valid s.itable k) :
    inodes sb (iupdate sb k s).data (iupdate sb k s).itable = inodes sb s.data s.itable := by
  have hr := h.range k hk.lt hk.ref hk.valid
  have hi := (h.inum k hk.lt hk.ref hk.valid).2
  obtain ⟨-, -, hd⟩ := putDinode_view (s := s) hL hi hr
  funext i
  by_cases hik : i = (s.itable k).inum
  · rw [hik, h.inodes_self hk]
    exact h.inodes_of_copy hk.lt hk.copy_self
  · refine inodes_congr (fun _ => rfl) ?_
    rw [iupdate, hd, Function.update_of_ne hik]

theorem iupdate_table (hL : sb.Layout) (h : TableOk sb s.data s.itable) (hk : Valid s.itable k) :
    TableOk sb (iupdate sb k s).data (iupdate sb k s).itable := by
  have hr := h.range k hk.lt hk.ref hk.valid
  have hi := (h.inum k hk.lt hk.ref hk.valid).2
  obtain ⟨-, -, hd⟩ := putDinode_view (s := s) hL hi hr
  change TableOk sb (iupdate sb k s).data s.itable
  refine h.congr fun l hl => ?_
  rw [iupdate, hd]
  by_cases hlk : (s.itable l).inum = (s.itable k).inum
  · rw [hlk, Function.update_self]
    exact (h.type k hk.lt hk.ref hk.valid).2.symm
  · rw [Function.update_of_ne hlk]

theorem iupdate_saved (hL : sb.Layout) (h : TableOk sb s.data s.itable) (hk : Valid s.itable k) :
    dinodes sb (iupdate sb k s).data (s.itable k).inum = (s.itable k).din := by
  have hi := (h.inum k hk.lt hk.ref hk.valid).2
  obtain ⟨-, -, hd⟩ := putDinode_view (s := s) hL hi (h.range k hk.lt hk.ref hk.valid)
  rw [iupdate, hd, Function.update_self]

theorem iupdate_spec (hL : sb.Layout) (h : FsOk sb s.data s.itable) (hk : Valid s.itable k) :
    FsOk sb (iupdate sb k s).data (iupdate sb k s).itable := by
  have hr := h.table.range k hk.lt hk.ref hk.valid
  have hi := (h.table.inum k hk.lt hk.ref hk.valid).2
  obtain ⟨hb, he, -⟩ := putDinode_view (s := s) hL hi hr
  refine ⟨?_, iupdate_table hL h.table hk⟩
  rw [iupdate_inodes hL h.table hk, iupdate, hb, he]
  exact h.fs

/-- Fields other than the type and the block numbers of an inode change. -/
theorem resize_spec (h : FsOk sb s.data s.itable) (hk : Valid s.itable k) {d : Dinode}
    (ht : d.type = (s.itable k).din.type) (ha : d.addrs = (s.itable k).din.addrs) (hr : d.InRange)
    (hsmall : d.size ≤ MAXFILE * BSIZE)
    (hmap : ∀ n, n * BSIZE < d.size → s.held sb ((s.itable k).inum, blockPlace n) ≠ 0) :
    FsOk sb (s.setDin k d).data (s.setDin k d).itable := by
  have hself := h.table.inodes_self hk
  refine ⟨?_, h.table.setDin hk ht hr⟩
  have hino : inodes sb (s.setDin k d).data (s.setDin k d).itable =
      Function.update (inodes sb s.data s.itable) (s.itable k).inum d := h.table.inodes_setDin hk ht hr
  rw [hino]
  exact h.fs.resize (by rw [hself, ht]) (by rw [hself, ha]) hsmall hmap

/-- A file's data block is overwritten. -/
theorem put_spec (hL : sb.Layout) (h : FsOk sb s.data s.itable) {p : ℕ × ℕ} {x : ℕ} (hx : s.held sb p = x)
    (hx0 : x ≠ 0) (hp : p.2 ≠ NDIRECT) (v : Block) :
    FsOk sb (s.put x v).data s.itable ∧ (s.put x v).held sb = s.held sb := by
  obtain ⟨hx1, hx2⟩ := h.fs.owns.range p (by rwa [← Sys.held, hx])
  rw [← Sys.held, hx] at hx1 hx2
  have hd : dinodes sb (s.put x v).data = dinodes sb s.data := dinodes_data hL hx1 hx2
  have hino : inodes sb (s.put x v).data s.itable = inodes sb s.data s.itable := by
    funext i
    exact inodes_congr (fun _ => rfl) (congrFun hd i)
  have hents : ents sb (s.put x v).data = Function.update (ents sb s.data) (s.held sb p)
      fun j => if j < NINDIRECT then v.rd (4 * j) 4 else 0 := by
    rw [hx]
    exact ents_data hx1 hx2
  have hbits : bits sb (s.put x v).data = bits sb s.data := bits_data hL hx1
  refine ⟨⟨?_, h.table.congr fun l _ => by rw [hd]⟩, ?_⟩
  · rw [hino, hents, hbits]
    exact h.fs.overwrite hp _
  · have htab : (s.put x v).itable = s.itable := rfl
    rw [Sys.held, htab, hino, hents]
    exact h.fs.target_overwrite hp _

/-- The loop of `writei`: all blocks before the offset it has reached are there. -/
theorem writeLoop_spec (hL : sb.Layout) (src : ℕ → Option UInt8) (a n : ℕ) :
    ∀ (fuel tot off : ℕ) (s : Sys), FsOk sb s.data s.itable → Valid s.itable k →
    off + (n - tot) ≤ MAXFILE * BSIZE →
    (∀ m, m * BSIZE < off → s.held sb ((s.itable k).inum, blockPlace m) ≠ 0) →
    ∃ tot' off' s', writeLoop sb k src a n fuel tot off s = .ok ((tot', off'), s') ∧
      FsOk sb s'.data s'.itable ∧ Grows sb k s s' ∧ off' ≤ MAXFILE * BSIZE ∧
      ∀ m, m * BSIZE < off' → s'.held sb ((s.itable k).inum, blockPlace m) ≠ 0
  | 0, tot, off, s, h, _, hsz, hmap => ⟨tot, off, s, rfl, h, .refl .., by omega, hmap⟩
  | fuel + 1, tot, off, s, h, hk, hsz, hmap => by
    unfold writeLoop
    by_cases hlt : tot < n
    · rw [if_pos hlt]
      obtain ⟨b, s1, hb, hm⟩ := bmap_spec hL h hk (div_lt_maxfile hsz (by omega))
      have hmap1 : ∀ m, m * BSIZE < off → s1.held sb ((s.itable k).inum, blockPlace m) ≠ 0 := by
        intro m hmo
        rw [hm.grows.kept _ (hmap m hmo)]
        exact hmap m hmo
      rw [hb]
      simp only [bind, Except.bind]
      by_cases hb0 : b = 0
      · exact ⟨tot, off, s1, by rw [if_pos hb0], hm.ok, hm.grows, by omega, hmap1⟩
      rw [if_neg hb0]
      have hround := round_le off (n - tot)
      have hle : min (n - tot) (BSIZE - off % BSIZE) ≤ n - tot := Nat.min_le_left ..
      generalize min (n - tot) (BSIZE - off % BSIZE) = m at *
      -- the block is overwritten, in full or up to the first byte that cannot be copied
      generalize eitherCopyin (s1.data b) (off % BSIZE) src (a + tot) m = w
      obtain ⟨hput, hheld⟩ := put_spec hL hm.ok (hm.held hb0) hb0 (blockPlace_ne _) w.1
      have hg : Grows sb k s (s1.put b w.1) :=
        hm.grows.trans ⟨⟨(s1.itable k).din.addrs, (Function.update_eq_self k s1.itable).symm⟩,
          fun p _ => by rw [hheld]⟩
      by_cases hw : w.2 = true
      · simp only [hw, if_true]
        have hinum : ((logWrite b (s1.put b w.1)).itable k).inum = (s.itable k).inum := hm.grows.inum
        have hsz1 : off + m + (n - (tot + m)) ≤ MAXFILE * BSIZE := by omega
        have hmap2 : ∀ l, l * BSIZE < off + m → (logWrite b (s1.put b w.1)).held sb
            (((logWrite b (s1.put b w.1)).itable k).inum, blockPlace l) ≠ 0 := by
          intro l hl
          rw [hinum]
          change (s1.put b w.1).held sb _ ≠ 0
          rw [hheld]
          rcases lt_of_round hl hround with h1 | h1
          · exact hmap1 l h1
          · rw [h1, hm.held hb0]
            exact hb0
        obtain ⟨tot', off', s', hr, hok, hg', hsz', hmap'⟩ :=
          writeLoop_spec hL src a n fuel (tot + m) (off + m) (logWrite b (s1.put b w.1)) hput
            (hm.grows.valid hk) hsz1 hmap2
        have hg1 : Grows sb k s (logWrite b (s1.put b w.1)) := ⟨hg.table, hg.kept⟩
        exact ⟨tot', off', s', hr, hok, hg1.trans hg', hsz', by rwa [hinum] at hmap'⟩
      · refine ⟨tot, off, s1.put b w.1, by simp [hw], hput, hg, by omega, fun l hl => ?_⟩
        rw [hheld]
        exact hmap1 l hl
    · rw [if_neg hlt]
      exact ⟨tot, off, s, rfl, h, .refl .., by omega, hmap⟩

/-- **`writei`** keeps the invariant: whatever part of the write succeeds. -/
theorem writei_spec (hL : sb.Layout) (h : FsOk sb s.data s.itable) (hk : Valid s.itable k)
    (src : ℕ → Option UInt8) (a : ℕ) (off n : UInt32) :
    ∃ r s', writei sb k src a off n s = .ok (r, s') ∧ FsOk sb s'.data s'.itable := by
  have hself := h.table.inodes_self hk
  unfold writei
  split
  · exact ⟨_, s, rfl, h⟩
  next hc =>
  split
  · exact ⟨_, s, rfl, h⟩
  next hmax =>
  rw [not_or, Nat.not_lt] at hc
  rw [Nat.not_lt, uint_add hc.2] at hmax
  obtain ⟨tot, off', s1, hr, hok, hg, hsz, hmap⟩ :=
    writeLoop_spec hL src a n.toNat n.toNat 0 off.toNat s h hk (by omega) fun m hm => by
      apply h.fs.noHoles _ _ (h.alloc hk)
      rw [hself]
      omega
  rw [hr]
  refine ⟨some tot, _, rfl, ?_⟩
  have hk1 := hg.valid hk
  have hr1 := hok.table.range k hk1.lt hk1.ref hk1.valid
  have hself1 := hok.table.inodes_self hk1
  have hfs : FsOk sb (s1.setDin k (if (s1.itable k).din.size < off' then
      { (s1.itable k).din with size := off' } else (s1.itable k).din)).data
      (s1.setDin k (if (s1.itable k).din.size < off' then
        { (s1.itable k).din with size := off' } else (s1.itable k).din)).itable := by
    split
    · have hlt : off' < 2 ^ 32 := by
        have : MAXFILE * BSIZE < 2 ^ 32 := by decide
        omega
      refine resize_spec hok hk1 rfl rfl { hr1 with size := hlt, addr := hr1.addr } hsz ?_
      rw [hg.inum]
      exact hmap
    · refine resize_spec hok hk1 rfl rfl hr1 ?_ fun m hm => ?_
      · have := hok.fs.small _ (hok.alloc hk1)
        rwa [hself1] at this
      · apply hok.fs.noHoles _ _ (hok.alloc hk1)
        rwa [hself1]
  refine iupdate_spec hL hfs ⟨hk.lt, ?_, ?_⟩ <;>
    simp only [Sys.setDin, Sys.setInode, Function.update_self, Inode.withDin]
  · exact hk1.ref
  · exact hk1.valid

end Fs
end Xv6
