/-
# What a write changes

`Edits sb k s s' l` says all that a write to the file in slot `k` does: the file
has the bytes `l` afterwards, its inode is written back with its other fields
as they were, and no other inode and no other slot has changed. `writei` from
mapped memory does that, with as many bytes as there are blocks for
(`writei_edits`), and if what it writes lies in one block, with all of them or
none (`writei_block`).

Between two calls every copy in the inode table is what is on disk (`Saved`), so
that a change of the table alone changes nothing of the files
(`content_of_saved`).

Key definitions: `Fs.Edits`, `Fs.Saved`.
Key theorems: `Fs.writei_edits`, `Fs.writei_block`.
-/
import Xv6.FsWrite

namespace Xv6
namespace Fs

variable {sb : Super} {s s' s1 : Sys} {i k : ℕ} {l : List UInt8}

/-! ### The table and the disk -/

/-- Every copy in the inode table is what is on disk. -/
def Saved (sb : Super) (s : Sys) : Prop :=
  ∀ k, Valid s.itable k → dinodes sb s.data (s.itable k).inum = (s.itable k).din

theorem Saved.inodes_eq (hs : Saved sb s) (h : FsOk sb s.data s.itable) : inodes sb s.data s.itable = dinodes sb s.data := by
  funext i
  by_cases hc : ∃ k, k < NINODE ∧ (s.itable k).copy i ≠ none
  · obtain ⟨k, hk, hcopy⟩ := hc
    obtain ⟨d, hd⟩ := Option.ne_none_iff_exists'.mp hcopy
    obtain ⟨href, hvalid, hinum, hdin⟩ := copy_eq_some.mp hd
    rw [h.table.inodes_of_copy hk hd, ← hinum, hs k ⟨hk, href, hvalid⟩, hdin]
  · refine inodes_of_none fun k hk => ?_
    by_contra hne
    exact hc ⟨k, hk, hne⟩

theorem held_of_inodes (hd : s'.data = s.data) (hin : inodes sb s'.data s'.itable = inodes sb s.data s.itable) :
    s'.held sb = s.held sb := by rw [Sys.held, Sys.held, hin, hd]

theorem content_of_inodes (hd : s'.data = s.data) (hin : inodes sb s'.data s'.itable = inodes sb s.data s.itable) :
    content sb s' = content sb s := by
  funext i
  rw [content, content, hin]
  refine List.map_congr_left fun j _ => ?_
  rw [byteAt, byteAt, held_of_inodes hd hin, hd]

/-- What is in the files depends on the disk alone. -/
theorem content_of_saved (h : FsOk sb s.data s.itable) (hs : Saved sb s) (h' : FsOk sb s'.data s'.itable) (hs' : Saved sb s')
    (hd : s'.data = s.data) : inodes sb s'.data s'.itable = inodes sb s.data s.itable ∧ content sb s' = content sb s := by
  have hin : inodes sb s'.data s'.itable = inodes sb s.data s.itable := by
    rw [hs'.inodes_eq h', hs.inodes_eq h, hd]
  exact ⟨hin, content_of_inodes hd hin⟩

/-! ### One slot -/

theorem setInode_self (s : Sys) (k : ℕ) (ip : Inode) : (s.setInode k ip).itable k = ip := Function.update_self ..

theorem setInode_of_ne (s : Sys) {k l : ℕ} (h : l ≠ k) (ip : Inode) : (s.setInode k ip).itable l = s.itable l :=
  Function.update_of_ne h ..

theorem decRef_self (s : Sys) (k : ℕ) : (decRef k s).itable k = { s.itable k with ref := (s.itable k).ref - 1 } :=
  Function.update_self ..

theorem decRef_of_ne (s : Sys) {k l : ℕ} (h : l ≠ k) : (decRef k s).itable l = s.itable l := Function.update_of_ne h ..

/-! ### The lock -/

/-- The lock of a slot is taken or given back. -/
def Sys.setLock (s : Sys) (k : ℕ) (b : Bool) : Sys := s.setInode k { s.itable k with locked := b }

theorem setLock_self (s : Sys) (k : ℕ) (b : Bool) : (s.setLock k b).itable k = { s.itable k with locked := b } :=
  Function.update_self ..

theorem setLock_spec (h : FsOk sb s.data s.itable) (hk : Valid s.itable k) (b : Bool) :
    FsOk sb (s.setLock k b).data (s.setLock k b).itable ∧ Valid (s.setLock k b).itable k ∧
      content sb (s.setLock k b) = content sb s ∧
      ∀ i Q, Enough sb (s.setLock k b) i Q ↔ Enough sb s i Q := by
  have hcopy : ∀ i l, ((s.setLock k b).itable l).copy i = (s.itable l).copy i := fun i l => copy_update rfl
  have hin : inodes sb (s.setLock k b).data (s.setLock k b).itable = inodes sb s.data s.itable := by
    funext i
    exact inodes_congr (hcopy i) rfl
  refine ⟨h.touch hk.lt rfl rfl rfl Iff.rfl, ⟨hk.lt, ?_, ?_⟩, ?_, fun i Q => ?_⟩
  · rw [setLock_self]
    exact hk.ref
  · rw [setLock_self]
    exact hk.valid
  · exact content_of_inodes rfl hin
  · have hheld : (s.setLock k b).held sb = s.held sb := held_of_inodes rfl hin
    rw [Enough, Enough, missing, missing, hheld]
    rfl

theorem ilock_eq (hk : Valid s.itable k) (hl : (s.itable k).locked = false) : ilock sb k s = .ok (s.setLock k true) := by
  have hr := hk.ref
  rw [ilock]
  dsimp only
  rw [if_neg (by omega), if_neg (by rw [hl]; exact Bool.false_ne_true), if_pos hk.valid]
  rfl

theorem iunlock_eq (hk : Valid s.itable k) (hl : (s.itable k).locked = true) : iunlock k s = .ok (s.setLock k false) := by
  have hr := hk.ref
  rw [iunlock, if_neg]
  · rfl
  · rw [not_or, not_not]
    exact ⟨hl, by omega⟩

/-! ### Edits -/

structure Edits (sb : Super) (k : ℕ) (s s' : Sys) (l : List UInt8) : Prop where
  ok : FsOk sb s'.data s'.itable
  slot : ∃ f z, s'.itable = Function.update s.itable k ((s.itable k).withDin { (s.itable k).din with addrs := f, size := z })
  inodes : ∀ i, i ≠ (s.itable k).inum → inodes sb s'.data s'.itable i = inodes sb s.data s.itable i
  dinodes : dinodes sb s'.data = Function.update (dinodes sb s.data) (s.itable k).inum (s'.itable k).din
  content : content sb s' (s.itable k).inum = l
  others : ∀ i, i ≠ (s.itable k).inum → Fs.content sb s' i = Fs.content sb s i

namespace Edits

theorem other_slot (h : Edits sb k s s' l) {j : ℕ} (hj : j ≠ k) : s'.itable j = s.itable j := by
  obtain ⟨f, z, hslot⟩ := h.slot
  rw [hslot, Function.update_of_ne hj]

/-- The fields of the slot other than the block numbers and the size. -/
theorem own_slot (h : Edits sb k s s' l) :
    ∃ f z, s'.itable k = (s.itable k).withDin { (s.itable k).din with addrs := f, size := z } := by
  obtain ⟨f, z, hslot⟩ := h.slot
  exact ⟨f, z, by rw [hslot, Function.update_self]⟩

theorem inum (h : Edits sb k s s' l) (j : ℕ) : (s'.itable j).inum = (s.itable j).inum := by
  by_cases hj : j = k
  · obtain ⟨f, z, hown⟩ := h.own_slot
    rw [hj, hown]
    rfl
  · rw [h.other_slot hj]

theorem ref (h : Edits sb k s s' l) (j : ℕ) : (s'.itable j).ref = (s.itable j).ref := by
  by_cases hj : j = k
  · obtain ⟨f, z, hown⟩ := h.own_slot
    rw [hj, hown]
    rfl
  · rw [h.other_slot hj]

theorem locked (h : Edits sb k s s' l) (j : ℕ) : (s'.itable j).locked = (s.itable j).locked := by
  by_cases hj : j = k
  · obtain ⟨f, z, hown⟩ := h.own_slot
    rw [hj, hown]
    rfl
  · rw [h.other_slot hj]

theorem valid_eq (h : Edits sb k s s' l) (j : ℕ) : (s'.itable j).valid = (s.itable j).valid := by
  by_cases hj : j = k
  · obtain ⟨f, z, hown⟩ := h.own_slot
    rw [hj, hown]
    rfl
  · rw [h.other_slot hj]

theorem valid_iff (h : Edits sb k s s' l) (j : ℕ) : Valid s'.itable j ↔ Valid s.itable j := by
  constructor
  · rintro ⟨h1, h2, h3⟩
    exact ⟨h1, h.ref j ▸ h2, h.valid_eq j ▸ h3⟩
  · rintro ⟨h1, h2, h3⟩
    exact ⟨h1, (h.ref j).symm ▸ h2, (h.valid_eq j).symm ▸ h3⟩

/-- The size is the number of bytes. -/
theorem size (h : Edits sb k s s' l) (hk : Valid s.itable k) : (s'.itable k).din.size = l.length := by
  have hself := h.ok.table.inodes_self ((h.valid_iff k).mpr hk)
  rw [h.inum] at hself
  rw [← hself, ← h.content, length_content]

end Edits

/-! ### writei -/

/-- `writei` past its checks, with a source that is all mapped. -/
theorem writei_edits (hL : sb.Layout) (h : FsOk sb s.data s.itable) (hk : Valid s.itable k) (src : ℕ → Option UInt8) (a : ℕ)
    {off n : UInt32} (hsrc : ∀ j, j < n.toNat → (src (a + j)).isSome = true) (hoff : off.toNat ≤ (s.itable k).din.size)
    (hmax : off.toNat + n.toNat ≤ MAXFILE * BSIZE) :
    ∃ tot s', writei sb k src a off n s = .ok (some tot, s') ∧ tot ≤ n.toNat ∧
      Edits sb k s s' (written (content sb s (s.itable k).inum) src a off.toNat tot) ∧
      (Enough sb s (s.itable k).inum (touched off.toNat n.toNat) → tot = n.toNat) ∧
      ∀ Q, (∀ j, off.toNat ≤ j → j ≤ off.toNat + tot → filePlaces (j / BSIZE) ⊆ Q) → Enough sb s (s.itable k).inum Q →
        Enough sb s' (s.itable k).inum Q := by
  have hbig : MAXFILE * BSIZE < 2 ^ 32 := by decide
  have hn : ¬ off + n < off := by
    rw [UInt32.lt_iff_toNat_lt, UInt32.toNat_add]
    omega
  obtain ⟨tot, off', s1, s2, hr, hW, hend⟩ := writeLoop_ends hL src a n.toNat n.toNat 0 off.toNat s h hk
    (Nat.zero_le _) (by omega) (by omega)
  -- nothing fails but the allocation of a block
  obtain ⟨rfl, hle, hfull⟩ : s2 = s1 ∧ tot ≤ n.toNat ∧
      (Enough sb s (s.itable k).inum (touched off.toNat n.toNat) → tot = n.toNat) := by
    cases hend with
    | done hdone => exact ⟨rfl, Nat.le_of_eq hdone, fun _ => hdone⟩
    | full hlt h0 hne => exact ⟨rfl, Nat.le_of_lt hlt, fun he => absurd he hne⟩
    | fault hal hf =>
      have hunmapped := hf.unmapped
      have hmapped := hsrc _ hf.lt
      rw [Nat.add_assoc] at hunmapped
      rw [hunmapped] at hmapped
      cases hmapped
  have hsum := hW.sum
  have hk1 := hW.grows.valid hk
  obtain ⟨d, hd⟩ : ∃ d, (if (s2.itable k).din.size < off' then { (s2.itable k).din with size := off' }
      else (s2.itable k).din) = d := ⟨_, rfl⟩
  obtain ⟨ht, ha, hdr, hdsz⟩ := resized (hW.ok.table.range k hk1.lt hk1.ref hk1.valid) (by omega) hd
  rw [hW.grows.size] at hdsz
  have hres := iupdate_restored hL hW.ok hk1 ht ha hdr
  obtain ⟨hspare, -⟩ := iupdate_spares hL hW.ok hk1 ht ha hdr
  have hinum := hW.grows.inum
  rw [hinum] at hspare
  have hwrite : writei sb k src a off n s = .ok (some tot, iupdate sb k (s2.setDin k d)) := by
    unfold writei
    rw [if_neg (not_or.mpr ⟨by omega, hn⟩), uint_add hn, if_neg (by omega), hr]
    simp only [ok_bind, hd]
  have hself : (iupdate sb k (s2.setDin k d)).itable k = (s2.itable k).withDin d := Function.update_self ..
  have hspares := (hW.spares.mono fun _ hj => hj).trans (hspare.mono fun _ hj => hj.elim)
  refine ⟨tot, _, hwrite, hle, ⟨?_, ?_, hspares.inode, ?_, ?_, fun i hi => hspares.content h hi⟩, hfull, fun Q hQ he => ?_⟩
  · obtain ⟨r, s', hw, hok⟩ := writei_spec hL h hk src a off n
    obtain ⟨-, rfl⟩ := Prod.mk.inj (Except.ok.inj (hw.symm.trans hwrite))
    exact hok
  · obtain ⟨f, hf⟩ := hW.grows.table
    refine ⟨f, d.size, ?_⟩
    show Function.update s2.itable k ((s2.itable k).withDin d) = _
    have hdf : d = { (s.itable k).din with addrs := f, size := d.size } := by
      have hs2 : (s2.itable k).din = { (s.itable k).din with addrs := f } := by
        rw [hf, Function.update_self]
        rfl
      rw [← hd, hs2]
      split
      · rfl
      · rfl
    rw [hf, Function.update_idem, Function.update_self]
    conv_lhs => rw [hdf]
    rfl
  · rw [hres.dinodes, hW.dinodes, hinum, hself]
    rfl
  · exact hW.content hL h hk hoff ht ha hdr hdsz
  · have h1 := hW.enough Q (fun j hj hj' => hQ j hj (by omega)) he
    unfold Enough missing freeBlocks at h1 ⊢
    rw [hres.held, hres.bits]
    exact h1

/-- Bytes of a file can be overwritten without a free block. -/
theorem enough_of_le (h : FsOk sb s.data s.itable) (hk : Valid s.itable k) {off n : ℕ} (hle : off + n ≤ (s.itable k).din.size) :
    Enough sb s (s.itable k).inum (touched off n) := by
  have hal := h.alloc hk
  have hempty : missing sb s (s.itable k).inum (touched off n) = ∅ := by
    refine Finset.filter_eq_empty_iff.mpr fun q hq h0 => ?_
    obtain ⟨j, hj, hq⟩ := Finset.mem_biUnion.mp hq
    rw [Finset.mem_Ico] at hj
    have hne : s.held sb ((s.itable k).inum, blockPlace (j / BSIZE)) ≠ 0 :=
      h.held_ne_zero hal (by rw [h.table.inodes_self hk]; omega)
    rw [filePlaces] at hq
    split at hq
    · next hd =>
      rw [Finset.mem_singleton] at hq
      rw [blockPlace, if_pos hd, ← hq] at hne
      exact hne h0
    · next hd =>
      rw [Finset.mem_insert, Finset.mem_singleton] at hq
      rcases hq with hq | hq
      · -- a block behind the indirect block
        rw [hq, Sys.held, target_indirect _ hal] at h0
        apply hne
        rw [Sys.held, target]
        split
        · rw [blockPlace, if_neg hd, place_above _ (by omega), if_pos h0]
        · rfl
      · rw [hq] at h0
        exact hne h0
  rw [Enough, hempty, Finset.card_empty]
  exact Nat.zero_le _

/-- The loop of `writei` ends at its bound. -/
theorem writeLoop_stop (src : ℕ → Option UInt8) (a n fuel off : ℕ) (s : Sys) :
    writeLoop sb k src a n fuel n off s = .ok ((n, off), s) := by
  cases fuel with
  | zero => rfl
  | succ fuel => rw [writeLoop, if_neg (Nat.lt_irrefl n)]

/-- In one block there is one round. -/
theorem writeLoop_block {src : ℕ → Option UInt8} {a n off tot off' : ℕ} (hblock : off % BSIZE + n ≤ BSIZE)
    (h : writeLoop sb k src a n n 0 off s = .ok ((tot, off'), s')) : tot = 0 ∨ tot = n := by
  cases n with
  | zero =>
    cases h
    exact Or.inl rfl
  | succ n =>
    rw [writeLoop, if_pos (Nat.succ_pos n)] at h
    obtain ⟨⟨b, s1⟩, -, h⟩ := bind_ok h
    dsimp only at h
    rw [Nat.sub_zero, Nat.min_eq_left (by omega), Nat.zero_add] at h
    split at h
    · cases h
      exact Or.inl rfl
    · split at h
      · rw [writeLoop_stop] at h
        cases h
        exact Or.inr rfl
      · cases h
        exact Or.inl rfl

/-- A write inside one block is done in full or not at all. -/
theorem writei_block (hL : sb.Layout) (h : FsOk sb s.data s.itable) (hk : Valid s.itable k) (src : ℕ → Option UInt8) (a : ℕ)
    {off n : UInt32} (hsrc : ∀ j, j < n.toNat → (src (a + j)).isSome = true) (hoff : off.toNat ≤ (s.itable k).din.size)
    (hmax : off.toNat + n.toNat ≤ MAXFILE * BSIZE) (hblock : off.toNat % BSIZE + n.toNat ≤ BSIZE) :
    ∃ tot s', writei sb k src a off n s = .ok (some tot, s') ∧ (tot = 0 ∨ tot = n.toNat) ∧
      Edits sb k s s' (written (content sb s (s.itable k).inum) src a off.toNat tot) := by
  obtain ⟨tot, s', hw, -, hedits, -, -⟩ := writei_edits hL h hk src a hsrc hoff hmax
  refine ⟨tot, s', hw, ?_, hedits⟩
  rw [writei] at hw
  split at hw
  · cases hw
  · split at hw
    · cases hw
    · obtain ⟨⟨⟨t, o⟩, s1⟩, hloop, hw⟩ := bind_ok hw
      cases hw
      exact writeLoop_block hblock hloop

end Fs
end Xv6
