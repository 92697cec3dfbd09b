/-
# Runs of file system calls

Processes call the functions of `fs.c` in any order, under the protocol its
comments state: a function that reads or changes an inode is called with the
inode's lock held, a field that lives on disk is written back before the last
reference goes. Over every run the ownership invariant holds, `readi` changes
nothing and `bfree` does not panic (`block_ownership`).

Key definitions: `Fs.Call`, `Fs.Permitted`, `Fs.call`.
Key theorems: `Fs.itrunc_spec`, `Fs.iput_spec`, `Fs.block_ownership`.
-/
import Xv6.Trace
import Xv6.FsOwn

namespace Xv6
namespace Fs

open TraceSys

variable {sb : Super} {s s' s1 : Sys} {k b i : ℕ}

/-! ### `itrunc` -/

/-- On the way through `itrunc` of inode `i`: the blocks in the places `F` have been freed. -/
structure Emptied (sb : Super) (s : Sys) (i : ℕ) (F : ℕ → Prop) (s1 : Sys) : Prop where
  bits : ∀ b, bits sb s1.data b = true ↔
    bits sb s.data b = true ∧ ∀ q, F q → s.held sb (i, q) ≠ 0 → s.held sb (i, q) ≠ b
  dinodes : dinodes sb s1.data = dinodes sb s.data
  ents : ents sb s1.data = ents sb s.data

namespace Emptied

variable {F F' : ℕ → Prop} {q : ℕ}

theorem start (sb : Super) (s : Sys) (i : ℕ) : Emptied sb s i (fun _ => False) s :=
  ⟨fun b => by simp, rfl, rfl⟩

/-- A place that holds nothing is passed over. -/
theorem skip (h : Emptied sb s i F s1) (hF : ∀ r, F' r ↔ F r ∨ r = q) (h0 : s.held sb (i, q) = 0) :
    Emptied sb s i F' s1 := by
  refine ⟨fun b => (h.bits b).trans (and_congr_right fun _ => ?_), h.dinodes, h.ents⟩
  constructor
  · intro hall r hr hr0
    rcases (hF r).1 hr with hr | rfl
    · exact hall r hr hr0
    · exact absurd h0 hr0
  · exact fun hall r hr => hall r ((hF r).2 (.inl hr))

/-- The block in a place not freed yet is marked, so `bfree` does not panic. -/
theorem free (hL : sb.Layout) (hok : FsOk sb s.data s.itable) (h : Emptied sb s i F s1)
    (hF : ∀ r, F' r ↔ F r ∨ r = q) (hq : ¬ F q) (h0 : s.held sb (i, q) ≠ 0) :
    ∃ s2, bfree sb (s.held sb (i, q)) s1 = .ok s2 ∧ s2.itable = s1.itable ∧ Emptied sb s i F' s2 := by
  have hmark : Fs.bits sb s1.data (s.held sb (i, q)) = true := by
    refine (h.bits _).2 ⟨hok.fs.owns.marked _ h0, fun r hr hr0 he => hq ?_⟩
    have := hok.fs.owns.unique _ _ hr0 he
    rwa [← (Prod.mk.inj this).2]
  obtain ⟨s2, hs2, hf⟩ := bfree_spec hL hmark
  refine ⟨s2, hs2, hf.itable, fun b => ?_, hf.dinodes.trans h.dinodes, hf.ents.trans h.ents⟩
  rw [hf.bits]
  by_cases hb : b = s.held sb (i, q)
  · rw [hb, Function.update_self]
    simp only [Bool.false_eq_true, false_iff, not_and]
    exact fun _ hall => hall q ((hF q).2 (.inr rfl)) h0 rfl
  · rw [Function.update_of_ne hb, h.bits b]
    refine and_congr_right fun _ => ⟨fun hall r hr hr0 => ?_, fun hall r hr => hall r ((hF r).2 (.inl hr))⟩
    rcases (hF r).1 hr with hr | rfl
    · exact hall r hr hr0
    · exact Ne.symm hb

end Emptied

/-- The inode after `n` rounds of the loop of `itrunc` over `addrs`. -/
def Dinode.cut (d : Dinode) (n : ℕ) : Dinode := { d with addrs := fun q => if q.val < n then 0 else d.addrs q }

theorem Dinode.cut_zero (d : Dinode) : d.cut 0 = d := by simp [cut]

theorem Dinode.addr_cut (d : Dinode) (n q : ℕ) : (d.cut n).addr q = if q < n then 0 else d.addr q := by
  simp only [cut, addr]
  split <;> simp

theorem Dinode.cut_succ {d : Dinode} {n : ℕ} (h : d.addr n = 0) : d.cut (n + 1) = d.cut n := by
  unfold cut
  congr 1
  funext q
  by_cases hq : q.val = n
  · have : d.addrs q = 0 := by
      rw [← hq, addr, dif_pos q.2] at h
      exact h
    simp [hq, this]
  · have : q.val < n + 1 ↔ q.val < n := by omega
    simp only [this]

theorem Dinode.cut_setAddr (d : Dinode) (n : ℕ) : (d.cut n).setAddr n 0 = d.cut (n + 1) := by
  unfold cut setAddr
  congr 1
  funext q
  by_cases hq : q.val = n
  · simp [hq]
  · have : q.val < n + 1 ↔ q.val < n := by omega
    simp only [hq, if_false, this]

/-- The inode in slot `k` is cut, the other slots stay. -/
def cutTable (tab : ℕ → Inode) (k n : ℕ) : ℕ → Inode :=
  Function.update tab k ((tab k).withDin ((tab k).din.cut n))

theorem cutTable_self (tab : ℕ → Inode) (k n : ℕ) :
    cutTable tab k n k = (tab k).withDin ((tab k).din.cut n) := Function.update_self ..

theorem cutTable_zero (tab : ℕ → Inode) (k : ℕ) : cutTable tab k 0 = tab := by
  rw [cutTable, Dinode.cut_zero]
  exact Function.update_eq_self k tab

theorem setAddr_cutTable {tab : ℕ → Inode} {n : ℕ} (h : s.itable = cutTable tab k n) :
    (s.setAddr k n 0).itable = cutTable tab k (n + 1) := by
  have hk := cutTable_self tab k n
  rw [← h] at hk
  unfold Sys.setAddr Sys.setDin Sys.setInode
  simp only [hk]
  rw [h, cutTable, cutTable, Function.update_idem]
  congr 1
  exact congrArg (tab k).withDin (Dinode.cut_setAddr ..)

theorem truncDirect_spec (hL : sb.Layout) (h : FsOk sb s.data s.itable) (hk : Valid s.itable k) {n : ℕ}
    (hn : n < NDIRECT) (he : Emptied sb s (s.itable k).inum (· < n) s1)
    (ht : s1.itable = cutTable s.itable k n) :
    ∃ s2, truncDirect sb k s1 n = .ok s2 ∧ Emptied sb s (s.itable k).inum (· < n + 1) s2 ∧
      s2.itable = cutTable s.itable k (n + 1) := by
  have hF : ∀ r, r < n + 1 ↔ r < n ∨ r = n := fun r => by omega
  have hheld := h.held_direct hk hn.le
  have haddr : (s1.itable k).din.addr n = s.held sb ((s.itable k).inum, n) := by
    rw [ht, cutTable_self, Inode.withDin, Dinode.addr_cut, if_neg (Nat.lt_irrefl n), hheld]
  unfold truncDirect
  rw [haddr]
  by_cases h0 : s.held sb ((s.itable k).inum, n) = 0
  · rw [hheld] at h0
    exact ⟨s1, by simp [hheld, h0], he.skip hF (by rw [hheld, h0]), by rw [ht, cutTable, cutTable, Dinode.cut_succ h0]⟩
  · obtain ⟨s2, hs2, htab, he2⟩ := he.free hL h hF (Nat.lt_irrefl n) h0
    refine ⟨s2.setAddr k n 0, by simp [h0, hs2, bind, Except.bind], ⟨he2.bits, he2.dinodes, he2.ents⟩, ?_⟩
    exact setAddr_cutTable (htab.trans ht)

theorem truncEntry_spec (hL : sb.Layout) (h : FsOk sb s.data s.itable) (hk : Valid s.itable k) {n : ℕ}
    (hn : n < NINDIRECT) (hx : (s.itable k).din.addr NDIRECT ≠ 0)
    (he : Emptied sb s (s.itable k).inum (fun q => q < NDIRECT + 1 + n ∧ q ≠ NDIRECT) s1) :
    ∃ s2, truncEntry sb ((s.itable k).din.addr NDIRECT) s1 n = .ok s2 ∧
      Emptied sb s (s.itable k).inum (fun q => q < NDIRECT + 1 + (n + 1) ∧ q ≠ NDIRECT) s2 ∧
      s2.itable = s1.itable := by
  have hF : ∀ r, (r < NDIRECT + 1 + (n + 1) ∧ r ≠ NDIRECT) ↔
      (r < NDIRECT + 1 + n ∧ r ≠ NDIRECT) ∨ r = NDIRECT + 1 + n := fun r => by omega
  have hheld := h.held_entry hk hn
  rw [if_neg hx] at hheld
  -- freeing blocks does not change the indirect block
  have hrd : (s1.data ((s.itable k).din.addr NDIRECT)).rd (4 * n) 4 =
      s.held sb ((s.itable k).inum, NDIRECT + 1 + n) := by
    have hr := h.fs.owns.range ((s.itable k).inum, NDIRECT) (by
      rwa [← Sys.held, h.held_direct hk le_rfl])
    rw [← Sys.held, h.held_direct hk le_rfl] at hr
    have := congrFun (congrFun he.ents ((s.itable k).din.addr NDIRECT)) n
    unfold ents at this
    rw [if_pos ⟨hr.1, hr.2, hn⟩, if_pos ⟨hr.1, hr.2, hn⟩] at this
    rw [this, hheld]
  unfold truncEntry
  rw [hrd]
  by_cases h0 : s.held sb ((s.itable k).inum, NDIRECT + 1 + n) = 0
  · exact ⟨s1, by simp [h0], he.skip hF h0, rfl⟩
  · obtain ⟨s2, hs2, htab, he2⟩ := he.free hL h hF (by omega) h0
    exact ⟨s2, by simp [h0, hs2], he2, htab⟩

theorem cut_all (d : Dinode) (q : ℕ) : (d.cut (NDIRECT + 1)).addr q = 0 := by
  rw [Dinode.addr_cut]
  split
  · rfl
  · next h => exact dif_neg h

theorem inRange_cut {d : Dinode} (h : d.InRange) : ({ d.cut (NDIRECT + 1) with size := 0 } : Dinode).InRange where
  type := h.type
  major := h.major
  minor := h.minor
  nlink := h.nlink
  size := Nat.two_pow_pos 32
  addr q := by
    change (d.cut (NDIRECT + 1)).addr q < 2 ^ 32
    rw [cut_all]
    decide

theorem truncLoop_spec (hL : sb.Layout) (h : FsOk sb s.data s.itable) (hk : Valid s.itable k) :
    ∃ s2, (List.range NDIRECT).foldlM (truncDirect sb k) s = .ok s2 ∧
      Emptied sb s (s.itable k).inum (· < NDIRECT) s2 ∧ s2.itable = cutTable s.itable k NDIRECT := by
  rw [← Ends.returns_iff]
  refine Ends.foldlM_range (I := fun n s1 => Emptied sb s (s.itable k).inum (· < n) s1 ∧
    s1.itable = cutTable s.itable k n) ⟨?_, (cutTable_zero ..).symm⟩ NDIRECT fun n hn s1 hs1 => ?_
  · simpa using Emptied.start sb s (s.itable k).inum
  · exact Ends.returns_iff.mpr (truncDirect_spec hL h hk hn hs1.1 hs1.2)

theorem truncIndirect_spec (hL : sb.Layout) (h : FsOk sb s.data s.itable) (hk : Valid s.itable k)
    (he : Emptied sb s (s.itable k).inum (· < NDIRECT) s1) (ht : s1.itable = cutTable s.itable k NDIRECT) :
    ∃ s2, truncIndirect sb k s1 = .ok s2 ∧ Emptied sb s (s.itable k).inum (· < NPLACE) s2 ∧
      s2.itable = cutTable s.itable k (NDIRECT + 1) := by
  have haddr : (s1.itable k).din.addr NDIRECT = (s.itable k).din.addr NDIRECT := by
    rw [ht, cutTable_self, Inode.withDin, Dinode.addr_cut, if_neg (Nat.lt_irrefl _)]
  have hheld := h.held_direct hk (le_refl NDIRECT)
  unfold truncIndirect
  rw [haddr]
  by_cases hx : (s.itable k).din.addr NDIRECT = 0
  · refine ⟨s1, by simp [hx], ?_, by rw [ht, cutTable, cutTable, Dinode.cut_succ hx]⟩
    -- without an indirect block the other places hold nothing
    refine ⟨fun b => (he.bits b).trans (and_congr_right fun _ => ?_), he.dinodes, he.ents⟩
    refine ⟨fun hall q hq hq0 => ?_, fun hall q hq => hall q ?_⟩
    · rcases Nat.lt_trichotomy q NDIRECT with hlt | heq | hgt
      · exact hall q hlt hq0
      · rw [heq, hheld, hx] at hq0
        exact absurd rfl hq0
      · obtain ⟨j, rfl⟩ : ∃ j, q = NDIRECT + 1 + j := ⟨q - (NDIRECT + 1), by omega⟩
        rw [h.held_entry hk (by unfold NPLACE at hq; omega), if_pos hx] at hq0
        exact absurd rfl hq0
    · unfold NPLACE
      omega
  · have hloop : ∃ s2, (List.range NINDIRECT).foldlM
        (truncEntry sb ((s.itable k).din.addr NDIRECT)) s1 = .ok s2 ∧
        Emptied sb s (s.itable k).inum (fun q => q < NDIRECT + 1 + NINDIRECT ∧ q ≠ NDIRECT) s2 ∧
        s2.itable = s1.itable := by
      rw [← Ends.returns_iff]
      refine Ends.foldlM_range (I := fun n s2 => Emptied sb s (s.itable k).inum
        (fun q => q < NDIRECT + 1 + n ∧ q ≠ NDIRECT) s2 ∧ s2.itable = s1.itable) ⟨?_, rfl⟩ NINDIRECT
        fun n hn s2 hs2 => ?_
      · have hF : (fun q => q < NDIRECT + 1 + 0 ∧ q ≠ NDIRECT) = fun q => q < NDIRECT := by
          funext q
          exact propext (by omega)
        rw [hF]
        exact he
      · obtain ⟨s3, hs3, he3, ht3⟩ := truncEntry_spec hL h hk hn hx hs2.1
        exact Ends.returns_iff.mpr ⟨s3, hs3, he3, ht3.trans hs2.2⟩
    obtain ⟨s2, hs2, he2, ht2⟩ := hloop
    have hF : ∀ r, r < NPLACE ↔ (r < NDIRECT + 1 + NINDIRECT ∧ r ≠ NDIRECT) ∨ r = NDIRECT := by
      intro r
      unfold NPLACE
      omega
    obtain ⟨s3, hs3, ht3, he3⟩ := he2.free hL h hF (fun hc => hc.2 rfl) (by rwa [hheld])
    rw [hheld] at hs3
    refine ⟨s3.setAddr k NDIRECT 0, by simp [hx, hs2, hs3, bind, Except.bind], ?_,
      setAddr_cutTable (ht3.trans (ht2.trans ht))⟩
    exact ⟨he3.bits, he3.dinodes, he3.ents⟩

/-- **`itrunc`** gives back every block of the inode. -/
theorem itrunc_spec (hL : sb.Layout) (h : FsOk sb s.data s.itable) (hk : Valid s.itable k) :
    ∃ s', itrunc sb k s = .ok s' ∧ FsOk sb s'.data s'.itable ∧
      s'.itable = Function.update s.itable k
        ((s.itable k).withDin { (s.itable k).din.cut (NDIRECT + 1) with size := 0 }) ∧
      dinodes sb s'.data (s'.itable k).inum = (s'.itable k).din := by
  obtain ⟨s1, hs1, he1, ht1⟩ := truncLoop_spec hL h hk
  obtain ⟨s2, hs2, he2, ht2⟩ := truncIndirect_spec hL h hk he1 ht1
  have hself := h.table.inodes_self hk
  have hr := h.table.range k hk.lt hk.ref hk.valid
  have htab : (s2.setDin k { (s2.itable k).din with size := 0 }).itable = Function.update s.itable k
      ((s.itable k).withDin { (s.itable k).din.cut (NDIRECT + 1) with size := 0 }) := by
    unfold Sys.setDin Sys.setInode
    rw [ht2, cutTable_self, cutTable, Function.update_idem]
    rfl
  have hfs : FsOk sb s2.data (s2.setDin k { (s2.itable k).din with size := 0 }).itable := by
    rw [htab]
    have ht : ({ (s.itable k).din.cut (NDIRECT + 1) with size := 0 } : Dinode).type =
      (s.itable k).din.type := rfl
    have hino := h.table.inodes_setDin hk ht (inRange_cut hr)
    have hcongr : inodes sb s2.data (Function.update s.itable k
        ((s.itable k).withDin { (s.itable k).din.cut (NDIRECT + 1) with size := 0 })) =
        inodes sb s.data (Function.update s.itable k
          ((s.itable k).withDin { (s.itable k).din.cut (NDIRECT + 1) with size := 0 })) := by
      funext i
      exact inodes_congr (fun _ => rfl) (congrFun he2.dinodes i)
    refine ⟨?_, (h.table.setDin hk ht (inRange_cut hr)).congr fun l _ => by rw [he2.dinodes]⟩
    rw [hcongr, hino, he2.ents]
    refine h.fs.clear (cut_all _) rfl fun b => (he2.bits b).trans (and_congr_right fun _ => ?_)
    refine ⟨fun hall q hq0 => hall q ?_ hq0, fun hall q _ => hall q⟩
    by_contra hq
    exact hq0 (if_neg fun hc => hq hc.2)
  have hk2 : Valid (s2.setDin k { (s2.itable k).din with size := 0 }).itable k := by
    refine ⟨hk.lt, ?_, ?_⟩ <;> rw [htab, Function.update_self]
    · exact hk.ref
    · exact hk.valid
  refine ⟨iupdate sb k (s2.setDin k { (s2.itable k).din with size := 0 }), ?_,
    iupdate_spec hL hfs hk2, htab, iupdate_saved hL hfs.table hk2⟩
  unfold itrunc
  simp only [hs1, hs2, bind, Except.bind]

/-! ### References -/

/-- The stops a call may end in: all but the panic of `bfree`. -/
def Fine (e : Stop) : Prop := e ≠ .panic "freeing free block"

/-- Locks and reference counts do not matter while the slot stays in use. -/
theorem FsOk.touch {data : ℕ → Block} {tab : ℕ → Inode} (h : FsOk sb data tab) (hk : k < NINODE)
    {ip : Inode} (hi : ip.inum = (tab k).inum) (hv : ip.valid = (tab k).valid) (hd : ip.din = (tab k).din)
    (hr : 0 < ip.ref ↔ 0 < (tab k).ref) : FsOk sb data (Function.update tab k ip) := by
  have hcopy : ∀ i, ip.copy i = (tab k).copy i := by
    intro i
    simp only [Inode.copy, hr, hv, hi, hd]
  have hino : inodes sb data (Function.update tab k ip) = inodes sb data tab := by
    funext i
    exact inodes_congr (fun _ => copy_update (hcopy i)) rfl
  refine ⟨by rw [hino]; exact h.fs, h.table.set (fun h1 l hl hlk h2 e => ?_) fun h1 h2 => ?_⟩
  · exact hlk (h.table.unique l k hl hk h2 (hr.1 h1) (e.trans hi))
  · rw [hv] at h2
    rw [hi, hd]
    exact ⟨h.table.inum k hk (hr.1 h1) h2, h.table.type k hk (hr.1 h1) h2,
      h.table.range k hk (hr.1 h1) h2⟩

/-- A slot without a valid copy becomes, or stays, one without a valid copy. -/
theorem FsOk.setInvalid {data : ℕ → Block} {tab : ℕ → Inode} (h : FsOk sb data tab) {ip : Inode}
    (hold : ¬ (0 < (tab k).ref ∧ (tab k).valid = true)) (hnew : ¬ (0 < ip.ref ∧ ip.valid = true))
    (hu : 0 < ip.ref → ∀ l, l < NINODE → l ≠ k → 0 < (tab l).ref → (tab l).inum ≠ ip.inum) :
    FsOk sb data (Function.update tab k ip) := by
  have hcopy : ∀ i, ip.copy i = (tab k).copy i := by
    intro i
    rw [Inode.copy, Inode.copy, if_neg fun hc => hnew ⟨hc.1, hc.2.1⟩, if_neg fun hc => hold ⟨hc.1, hc.2.1⟩]
  have hino : inodes sb data (Function.update tab k ip) = inodes sb data tab := by
    funext i
    exact inodes_congr (fun _ => copy_update (hcopy i)) rfl
  exact ⟨by rw [hino]; exact h.fs, h.table.set hu fun h1 h2 => absurd ⟨h1, h2⟩ hnew⟩

/-- A slot in use to which `iget` has just added a reference: the last
reference, if it is the only one, has no valid copy yet. -/
structure Fresh (tab : ℕ → Inode) (k : ℕ) : Prop where
  lt : k < NINODE
  ref : 0 < (tab k).ref
  invalid : (tab k).ref = 1 → (tab k).valid = false

theorem iget_spec (h : FsOk sb s.data s.itable) (inum : ℕ) :
    Ends Fine (iget inum s) fun r => FsOk sb r.2.data r.2.itable ∧ Fresh r.2.itable r.1 := by
  unfold iget
  rcases hf : (List.range NINODE).find? (fun k => 0 < (s.itable k).ref ∧ (s.itable k).inum = inum)
    with _ | k
  · rcases he : (List.range NINODE).find? (fun k => (s.itable k).ref = 0) with _ | k
    · exact Ends.error (by simp [Fine])
    · have hk := List.mem_range.mp (List.mem_of_find?_eq_some he)
      have h0 := List.find?_some he
      simp only [decide_eq_true_eq] at h0
      refine Ends.ok ⟨h.setInvalid (by omega) (by simp) fun _ l hl _ hl0 => ?_, hk, ?_, ?_⟩
      · have := List.find?_eq_none.mp hf l (List.mem_range.mpr hl)
        simp only [decide_eq_true_eq, not_and] at this
        exact this hl0
      · simp [Sys.setInode]
      · simp [Sys.setInode]
  · have hk := List.mem_range.mp (List.mem_of_find?_eq_some hf)
    have h0 := List.find?_some hf
    simp only [decide_eq_true_eq] at h0
    refine Ends.ok ⟨h.touch hk rfl rfl rfl ?_, hk, ?_, ?_⟩
    · simp [h0.1]
    · simp [Sys.setInode]
    · have hne : (s.itable k).ref ≠ 0 := by omega
      simp [Sys.setInode, hne]

/-- A slot without a valid copy gets one from the disk. -/
theorem FsOk.load {data : ℕ → Block} {tab : ℕ → Inode} (h : FsOk sb data tab) (hk : k < NINODE)
    (href : 0 < (tab k).ref) (hval : (tab k).valid ≠ true) {ip : Inode} (hinum : ip.inum = (tab k).inum)
    (hi : 1 ≤ ip.inum ∧ ip.inum < sb.ninodes) (hd : ip.din = dinodes sb data ip.inum)
    (ht : ip.din.type ≠ 0) (hr : ip.din.InRange) : FsOk sb data (Function.update tab k ip) := by
  have hnone : inodes sb data tab (tab k).inum = dinodes sb data (tab k).inum := by
    refine inodes_of_none fun l hl => ?_
    by_contra hc
    obtain ⟨d, hd⟩ := Option.ne_none_iff_exists'.mp hc
    obtain ⟨h1, h2, h3, -⟩ := copy_eq_some.mp hd
    have hlk := h.table.unique l k hl hk h1 href h3
    rw [hlk] at h2
    exact hval h2
  have htab : TableOk sb data (Function.update tab k ip) := by
    refine h.table.set (fun _ l hl hlk h2 e => ?_) fun _ _ => ⟨hi, ⟨ht, by rw [← hd]⟩, hr⟩
    exact hlk (h.table.unique l k hl hk h2 href (e.trans hinum))
  have hino : inodes sb data (Function.update tab k ip) = inodes sb data tab := by
    funext i
    by_cases hik : ip.inum = i
    · by_cases hc : 0 < ip.ref ∧ ip.valid = true
      · have hcopy : (Function.update tab k ip k).copy i = some ip.din := by
          rw [Function.update_self]
          exact copy_eq_some.mpr ⟨hc.1, hc.2, hik, rfl⟩
        rw [htab.inodes_of_copy hk hcopy, ← hik, hinum, hnone, hd, hinum]
      · refine inodes_congr (fun l => copy_update ?_) rfl
        rw [Inode.copy, Inode.copy, if_neg fun h' => hc ⟨h'.1, h'.2.1⟩, if_neg fun h' => hval h'.2.1]
    · refine inodes_congr (fun l => copy_update ?_) rfl
      rw [copy_of_ne hik, copy_of_ne (hinum ▸ hik)]
  exact ⟨by rw [hino]; exact h.fs, htab⟩

theorem ilock_spec (h : FsOk sb s.data s.itable) (hk : k < NINODE)
    (hi : 1 ≤ (s.itable k).inum ∧ (s.itable k).inum < sb.ninodes) :
    Ends Fine (ilock sb k s) fun s' => FsOk sb s'.data s'.itable := by
  have hd : s.dinode sb (s.itable k).inum = dinodes sb s.data (s.itable k).inum := (if_pos hi.2).symm
  unfold ilock
  simp only
  split
  · exact Ends.error (by simp [Fine])
  next href =>
  split
  · exact Ends.error (by simp [Fine])
  split
  · exact Ends.ok (h.touch hk rfl rfl rfl Iff.rfl)
  next hval =>
  split
  · exact Ends.error (by simp [Fine])
  next ht =>
  exact Ends.ok (h.load hk (Nat.not_lt.mp href) hval rfl hi hd ht (Block.dinode_inRange ..))

theorem iunlock_spec (h : FsOk sb s.data s.itable) (hk : k < NINODE) :
    Ends Fine (iunlock k s) fun s' => FsOk sb s'.data s'.itable := by
  unfold iunlock
  simp only
  split
  · exact Ends.error (by simp [Fine])
  · exact Ends.ok (h.touch hk rfl rfl rfl Iff.rfl)

theorem idup_spec (h : FsOk sb s.data s.itable) (hk : k < NINODE) (hr : 0 < (s.itable k).ref) :
    FsOk sb (idup k s).data (idup k s).itable := by
  refine h.touch hk rfl rfl rfl ?_
  simp [hr]

/-! ### Allocating and freeing inodes -/

/-- Disk inode `i`, of which no slot has a valid copy, is overwritten by an empty one. -/
theorem FsOk.putEmpty (hL : sb.Layout) (h : FsOk sb s.data s.itable) (hi : i < sb.ninodes) {d : Dinode}
    (hd : d.InRange) (ha : ∀ q, d.addr q = 0) (hs : d.size = 0)
    (hnone : ∀ l, l < NINODE → (s.itable l).copy i = none)
    (hheld : ∀ q, s.held sb (i, q) = 0) :
    FsOk sb (s.putDinode sb i d).data (s.putDinode sb i d).itable := by
  obtain ⟨hb, he, hdi⟩ := putDinode_view (s := s) hL hi hd
  have htab : (s.putDinode sb i d).itable = s.itable := rfl
  have hino : inodes sb (s.putDinode sb i d).data s.itable =
      Function.update (inodes sb s.data s.itable) i d := by
    funext j
    by_cases hj : j = i
    · rw [hj, Function.update_self, inodes_of_none hnone, hdi, Function.update_self]
    · rw [Function.update_of_ne hj]
      exact inodes_congr (fun _ => rfl) (by rw [hdi, Function.update_of_ne hj])
  rw [htab]
  refine ⟨?_, h.table.congr fun l hl => ?_⟩
  · rw [hino, hb, he]
    refine h.fs.clear ha hs fun b => ⟨fun hb => ⟨hb, fun q hq => absurd (hheld q) hq⟩, fun hb => hb.1⟩
  · have hne : (s.itable l).inum ≠ i := by
      intro e
      have := hnone l hl.lt
      rw [← e, hl.copy_self] at this
      cases this
    rw [hdi, Function.update_of_ne hne]

theorem ialloc_spec (hL : sb.Layout) (h : FsOk sb s.data s.itable) (type : UInt16) :
    Ends Fine (ialloc sb type s) fun r => FsOk sb r.2.data r.2.itable := by
  unfold ialloc
  rcases hf : (List.range' 1 (sb.ninodes - 1)).find? (fun i => (s.dinode sb i).type = 0) with _ | i
  · exact Ends.ok h
  · have hmem := List.mem_of_find?_eq_some hf
    have htype := List.find?_some hf
    rw [List.mem_range'_1] at hmem
    simp only [decide_eq_true_eq] at htype
    have hi : i < sb.ninodes := by omega
    have hd : s.dinode sb i = dinodes sb s.data i := (if_pos hi).symm
    rw [hd] at htype
    -- a valid copy would be one of an allocated inode
    have hnone : ∀ l, l < NINODE → (s.itable l).copy i = none := by
      intro l hl
      by_contra hc
      obtain ⟨d, hd⟩ := Option.ne_none_iff_exists'.mp hc
      obtain ⟨h1, h2, h3, -⟩ := copy_eq_some.mp hd
      obtain ⟨g1, g2⟩ := h.table.type l hl h1 h2
      rw [h3, htype] at g2
      exact g1 g2.symm
    have hheld : ∀ q, s.held sb (i, q) = 0 := by
      refine target_of_not_alloc fun hal => hal.2.2 ?_
      rw [inodes_of_none hnone, htype]
    have hr : ({ Dinode.zero with type := type.toNat } : Dinode).InRange :=
      ⟨type.toNat_lt, Nat.two_pow_pos 16, Nat.two_pow_pos 16, Nat.two_pow_pos 16, Nat.two_pow_pos 32,
        fun q => lt_of_eq_of_lt (Dinode.addr_zero q) (Nat.two_pow_pos 32)⟩
    have hput := h.putEmpty hL hi hr Dinode.addr_zero rfl hnone hheld
    exact Ends.bind (iget_spec hput i) fun r hr => Ends.ok hr.1

/-- The last reference to an inode that is saved on disk goes. -/
theorem FsOk.drop {data : ℕ → Block} {tab : ℕ → Inode} (h : FsOk sb data tab) (hk : Valid tab k)
    (hsaved : dinodes sb data (tab k).inum = (tab k).din) {ip : Inode} (h0 : ip.ref = 0) :
    FsOk sb data (Function.update tab k ip) := by
  have hnew : ∀ i, ip.copy i = none := fun i => if_neg fun hc => by omega
  have htab : TableOk sb data (Function.update tab k ip) :=
    h.table.set (fun h1 => by omega) fun h1 => by omega
  have hino : inodes sb data (Function.update tab k ip) = inodes sb data tab := by
    funext i
    by_cases hik : (tab k).inum = i
    · rw [inodes_of_none, ← hik, hsaved, h.table.inodes_self hk]
      intro l hl
      by_cases hlk : l = k
      · rw [hlk, Function.update_self, hnew]
      · rw [Function.update_of_ne hlk]
        by_contra hc
        obtain ⟨d, hd⟩ := Option.ne_none_iff_exists'.mp hc
        obtain ⟨h1, -, h3, -⟩ := copy_eq_some.mp hd
        exact hlk (h.table.unique l k hl hk.lt h1 hk.ref (h3.trans hik.symm))
    · refine inodes_congr (fun l => copy_update ?_) rfl
      rw [hnew, copy_of_ne hik]
  exact ⟨by rw [hino]; exact h.fs, htab⟩

/-- `iput` frees an inode without links with its last reference. -/
theorem iput_free (hL : sb.Layout) (h : FsOk sb s.data s.itable) (hk : Valid s.itable k) :
    Ends Fine (do
        let s ← itrunc sb k s
        let s := iupdate sb k (s.setDin k { (s.itable k).din with type := 0 })
        .ok (decRef k (s.setInode k { s.itable k with valid := false })))
      fun s' => (s.itable k).ref = 1 → FsOk sb s'.data s'.itable := by
  obtain ⟨s1, hs1, hok, htab, hsaved⟩ := itrunc_spec hL h hk
  rw [hs1]
  refine Ends.ok fun href => ?_
  have hself : s1.itable k = (s.itable k).withDin
      { (s.itable k).din.cut (NDIRECT + 1) with size := 0 } := by rw [htab, Function.update_self]
  have hk1 : Valid s1.itable k :=
    ⟨hk.lt, by rw [hself]; exact hk.ref, by rw [hself]; exact hk.valid⟩
  have hrange := inRange_cut (h.table.range k hk.lt hk.ref hk.valid)
  -- the slot is given up first, the disk inode is freed then: the order does not matter
  let d : Dinode := { (s1.itable k).din with type := 0 }
  let ip : Inode := { s1.itable k with din := d, valid := false, ref := (s1.itable k).ref - 1 }
  have h0 : ip.ref = 0 := by
    change (s1.itable k).ref - 1 = 0
    rw [hself]
    change (s.itable k).ref - 1 = 0
    omega
  have haddr : ∀ q, d.addr q = 0 := by
    intro q
    change (s1.itable k).din.addr q = 0
    rw [hself]
    exact cut_all _ q
  have hdrop := hok.drop hk1 hsaved h0
  have hi := (hok.table.inum k hk1.lt hk1.ref hk1.valid).2
  have hnone : ∀ l, l < NINODE → (Function.update s1.itable k ip l).copy (s1.itable k).inum = none := by
    intro l hl
    by_cases hlk : l = k
    · rw [hlk, Function.update_self]
      exact if_neg fun hc => by omega
    · rw [Function.update_of_ne hlk]
      by_contra hc
      obtain ⟨d, hd⟩ := Option.ne_none_iff_exists'.mp hc
      obtain ⟨h1, -, h3, -⟩ := copy_eq_some.mp hd
      exact hlk (hok.table.unique l k hl hk1.lt h1 hk1.ref h3)
  have hr : d.InRange := by
    have hr1 := hok.table.range k hk1.lt hk1.ref hk1.valid
    exact { hr1 with type := Nat.two_pow_pos 16, addr := hr1.addr }
  have hput := FsOk.putEmpty (s := { s1 with itable := Function.update s1.itable k ip }) hL hdrop hi hr
    haddr (by change (s1.itable k).din.size = 0; rw [hself]; rfl) hnone fun q => by
      unfold Sys.held target
      split
      · simp only
        rw [inodes_of_none hnone, hsaved]
        unfold Dinode.place
        simp [show ∀ q, (s1.itable k).din.addr q = 0 from haddr]
      · rfl
  convert hput using 1
  · simp [decRef, iupdate, Sys.setInode, Sys.setDin, Inode.withDin, Sys.putDinode, logWrite, Sys.put, d]
  · simp [decRef, iupdate, Sys.setInode, Sys.setDin, Inode.withDin, Sys.putDinode, logWrite, Sys.put, d, ip]

/-- **`iput`** keeps the invariant if a linked inode was saved before its last reference goes. -/
theorem iput_spec (hL : sb.Layout) (h : FsOk sb s.data s.itable) (hk : k < NINODE)
    (href : 0 < (s.itable k).ref)
    (hsaved : (s.itable k).ref = 1 → (s.itable k).valid = true → (s.itable k).din.nlink ≠ 0 →
      dinodes sb s.data (s.itable k).inum = (s.itable k).din) :
    Ends Fine (iput sb k s) fun s' => FsOk sb s'.data s'.itable := by
  unfold iput
  simp only
  split
  · next hc =>
    split
    · exact Ends.error (by simp [Fine])
    · exact (iput_free hL h ⟨hk, href, hc.2.1⟩).mono fun s' hs' => hs' hc.1
  · next hc =>
    refine Ends.ok ?_
    by_cases h1 : (s.itable k).ref = 1
    · by_cases hv : (s.itable k).valid = true
      · have hn : (s.itable k).din.nlink ≠ 0 := fun hn => hc ⟨h1, hv, hn⟩
        refine h.drop ⟨hk, href, hv⟩ (hsaved h1 hv hn) ?_
        change (s.itable k).ref - 1 = 0
        omega
      · refine h.setInvalid (fun hc' => hv hc'.2) (fun hc' => hv hc'.2) fun hc' => ?_
        change 0 < (s.itable k).ref - 1 at hc'
        omega
    · refine h.touch hk rfl rfl rfl ?_
      change 0 < (s.itable k).ref - 1 ↔ _
      omega

/-! ### Directories -/

theorem dirScan_spec (hL : sb.Layout) (h : FsOk sb s.data s.itable) (hk : Valid s.itable k)
    {msg : String} (hmsg : msg ≠ "freeing free block") {p : Dirent → Bool} :
    ∀ l : List ℕ, Ends Fine (dirScan sb k msg p l s) fun r => r.2 = s
  | [] => rfl
  | off :: l => by
    obtain ⟨⟨r, bytes⟩, hr⟩ := readi_spec hL h hk (fun _ => true) 0 (.ofNat off) (.ofNat Dirent.size)
    unfold dirScan
    rw [hr]
    simp only [bind, Except.bind]
    split
    · exact Ends.error (by simpa [Fine] using hmsg)
    · split
      · exact Ends.ok rfl
      · exact dirScan_spec hL h hk hmsg l

theorem dirlookup_spec (hL : sb.Layout) (h : FsOk sb s.data s.itable) (hk : Valid s.itable k)
    (name : ℕ → UInt8) :
    Ends Fine (dirlookup sb k name s) fun r =>
      match r.1 with
      | none => r.2 = s
      | some (j, _) => FsOk sb r.2.data r.2.itable ∧ Fresh r.2.itable j := by
  unfold dirlookup
  simp only
  split
  · exact Ends.error (by simp [Fine])
  · refine Ends.bind (dirScan_spec hL h hk (by decide) _) ?_
    intro ⟨e, s1⟩ hs1
    obtain rfl : s1 = s := hs1
    rcases e with _ | ⟨off, de⟩
    · exact Ends.ok rfl
    · exact Ends.bind (iget_spec h de.inum) fun r hr => Ends.ok hr

theorem writei_ends (hL : sb.Layout) (h : FsOk sb s.data s.itable) (hk : Valid s.itable k)
    (src : ℕ → Option UInt8) (a : ℕ) (off n : UInt32) :
    Ends Fine (writei sb k src a off n s) fun r => FsOk sb r.2.data r.2.itable := by
  obtain ⟨r, s', hr, hok⟩ := writei_spec hL h hk src a off n
  rw [hr]
  exact Ends.ok hok

/-- **`dirlink`** keeps the invariant. -/
theorem dirlink_spec (hL : sb.Layout) (h : FsOk sb s.data s.itable) (hk : Valid s.itable k)
    (name : ℕ → UInt8) (inum : ℕ) :
    Ends Fine (dirlink sb k name inum s) fun r => FsOk sb r.2.data r.2.itable := by
  unfold dirlink
  refine Ends.bind (dirlookup_spec hL h hk name) ?_
  intro ⟨r, s1⟩ hr
  rcases r with _ | ⟨j, off⟩
  · obtain rfl : s1 = s := hr
    refine Ends.bind (dirScan_spec hL h hk (by decide) _) ?_
    intro ⟨e, s2⟩ hs2
    obtain rfl : s2 = s1 := hs2
    exact Ends.bind (writei_ends hL h hk _ _ _ _) fun r hr => Ends.ok hr
  · obtain ⟨hok, hf⟩ := hr
    refine Ends.bind (iput_spec hL hok hf.lt hf.ref fun h1 hv => ?_) fun s2 hs2 => Ends.ok hs2
    rw [hf.invalid h1] at hv
    cases hv

/-! ### Runs -/

/-- A call of a function of `fs.c` by some process; `setFields` is the assignment
of an inode's other fields, which `sysfile.c` does. -/
inductive Call
  | iget (inum : ℕ)
  | idup (k : ℕ)
  | ilock (k : ℕ)
  | iunlock (k : ℕ)
  | iput (k : ℕ)
  | ialloc (type : UInt16)
  | iupdate (k : ℕ)
  | setFields (k : ℕ) (major minor nlink : UInt16)
  | bmap (k bn : ℕ)
  | itrunc (k : ℕ)
  | readi (k : ℕ) (dst : ℕ → Bool) (a : ℕ) (off n : UInt32)
  | writei (k : ℕ) (src : ℕ → Option UInt8) (a : ℕ) (off n : UInt32)
  | dirlink (k : ℕ) (name : ℕ → UInt8) (inum : ℕ)

/-- A process holds the lock of the inode in slot `k`. -/
def Held (s : Sys) (k : ℕ) : Prop :=
  k < NINODE ∧ 0 < (s.itable k).ref ∧ (s.itable k).valid = true ∧ (s.itable k).locked = true

instance (s : Sys) (k : ℕ) : Decidable (Held s k) := inferInstanceAs (Decidable (_ ∧ _ ∧ _ ∧ _))

/-- The protocol of the callers: inodes are examined and changed under their
lock, pointers come from `iget`, numbers are those of inodes of the file system,
and a linked inode is written back before its last reference goes. -/
def Permitted (sb : Super) (s : Sys) : Call → Prop
  | .iget _ | .ialloc _ => True
  | .idup k => k < NINODE ∧ 0 < (s.itable k).ref
  | .ilock k => k < NINODE ∧ 1 ≤ (s.itable k).inum ∧ (s.itable k).inum < sb.ninodes
  | .iunlock k => k < NINODE
  | .iput k => k < NINODE ∧ 0 < (s.itable k).ref ∧ ((s.itable k).ref = 1 → (s.itable k).valid = true →
      (s.itable k).din.nlink ≠ 0 → s.dinode sb (s.itable k).inum = (s.itable k).din)
  | .iupdate k | .setFields k .. | .bmap k _ | .itrunc k | .readi k .. | .writei k .. | .dirlink k .. =>
    Held s k

instance (sb : Super) (s : Sys) : DecidablePred (Permitted sb s)
  | .iget _ | .ialloc _ => inferInstanceAs (Decidable True)
  | .idup _ => inferInstanceAs (Decidable (_ ∧ _))
  | .ilock _ => inferInstanceAs (Decidable (_ ∧ _ ∧ _))
  | .iunlock _ => inferInstanceAs (Decidable (_ < _))
  | .iput _ => inferInstanceAs (Decidable (_ ∧ _ ∧ (_ → _ → _ → _)))
  | .iupdate k | .setFields k .. | .bmap k _ | .itrunc k | .readi k .. | .writei k .. | .dirlink k .. =>
    inferInstanceAs (Decidable (Held s k))

/-- The state after a call. -/
def exec (sb : Super) (s : Sys) : Call → Except Stop Sys
  | .iget inum => (iget inum s).map Prod.snd
  | .idup k => .ok (idup k s)
  | .ilock k => ilock sb k s
  | .iunlock k => iunlock k s
  | .iput k => iput sb k s
  | .ialloc type => (ialloc sb type s).map Prod.snd
  | .iupdate k => .ok (iupdate sb k s)
  | .setFields k major minor nlink => .ok (s.setDin k { (s.itable k).din with
      major := major.toNat, minor := minor.toNat, nlink := nlink.toNat })
  | .bmap k bn => (bmap sb k bn s).map Prod.snd
  | .itrunc k => itrunc sb k s
  | .readi k dst a off n => (readi sb k dst a off n s).map Prod.snd
  | .writei k src a off n => (writei sb k src a off n s).map Prod.snd
  | .dirlink k name inum => (dirlink sb k name inum s).map Prod.snd

/-- One permitted call. -/
def call (sb : Super) (s : Sys) (c : Call) : Except Stop (Sys × List Unit) :=
  if Permitted sb s c then (exec sb s c).map fun s' => (s', []) else .error .blocked

theorem Held.toValid (h : Held s k) : Valid s.itable k := ⟨h.1, h.2.1, h.2.2.1⟩

theorem bmap_ends (hL : sb.Layout) (h : FsOk sb s.data s.itable) (hk : Valid s.itable k) (bn : ℕ) :
    Ends Fine (bmap sb k bn s) fun r => FsOk sb r.2.data r.2.itable := by
  by_cases hbn : bn < MAXFILE
  · obtain ⟨a, s', hr, hm⟩ := bmap_spec hL h hk hbn
    rw [hr]
    exact Ends.ok hm.ok
  · unfold MAXFILE at hbn
    unfold bmap
    rw [if_neg (by omega), if_neg (by omega)]
    exact Ends.error (by simp [Fine])

theorem setFields_spec (h : FsOk sb s.data s.itable) (hk : Valid s.itable k) (major minor nlink : UInt16) :
    FsOk sb s.data (s.setDin k { (s.itable k).din with
      major := major.toNat, minor := minor.toNat, nlink := nlink.toNat }).itable := by
  have hr := h.table.range k hk.lt hk.ref hk.valid
  have hself := h.table.inodes_self hk
  refine resize_spec h hk rfl rfl ?_ ?_ fun n hn => ?_
  · exact ⟨hr.type, major.toNat_lt, minor.toNat_lt, nlink.toNat_lt, hr.size, hr.addr⟩
  · have := h.fs.small _ (h.alloc hk)
    rwa [hself] at this
  · apply h.fs.noHoles _ _ (h.alloc hk)
    rwa [hself]

theorem Ends.map_snd {α : Type} {r : Except Stop (α × Sys)} {Q : Sys → Prop}
    (h : Ends Fine r fun x => Q x.2) : Ends Fine (r.map Prod.snd) Q := by
  cases r with
  | ok x => exact h
  | error e => exact h

/-- One call keeps the invariant, and does not run into the panic of `bfree`. -/
theorem exec_spec (hL : sb.Layout) (h : FsOk sb s.data s.itable) {c : Call} (hp : Permitted sb s c) :
    Ends Fine (exec sb s c) fun s' => FsOk sb s'.data s'.itable := by
  cases c with
  | iget inum => exact Ends.map_snd ((iget_spec h inum).mono fun _ hr => hr.1)
  | idup k => exact Ends.ok (idup_spec h hp.1 hp.2)
  | ilock k => exact ilock_spec h hp.1 hp.2
  | iunlock k => exact iunlock_spec h hp
  | iput k =>
    refine iput_spec hL h hp.1 hp.2.1 fun h1 hv hn => ?_
    have hi := (h.table.inum k hp.1 hp.2.1 hv).2
    exact (if_pos hi).trans (hp.2.2 h1 hv hn)
  | ialloc type => exact Ends.map_snd (ialloc_spec hL h type)
  | iupdate k => exact Ends.ok (iupdate_spec hL h (Held.toValid hp))
  | setFields k major minor nlink => exact Ends.ok (setFields_spec h (Held.toValid hp) ..)
  | bmap k bn => exact Ends.map_snd (bmap_ends hL h (Held.toValid hp) bn)
  | itrunc k =>
    obtain ⟨s', hs', hok, -⟩ := itrunc_spec hL h (Held.toValid hp)
    simp only [exec, hs']
    exact Ends.ok hok
  | readi k dst a off n =>
    obtain ⟨r, hr⟩ := readi_spec hL h (Held.toValid hp) dst a off n
    simp only [exec, hr]
    exact Ends.ok h
  | writei k src a off n => exact Ends.map_snd (writei_ends hL h (Held.toValid hp) ..)
  | dirlink k name inum => exact Ends.map_snd (dirlink_spec hL h (Held.toValid hp) name inum)

theorem call_spec (hL : sb.Layout) (h : FsOk sb s.data s.itable) (c : Call) :
    Ends Fine (call sb s c) fun r => FsOk sb r.1.data r.1.itable := by
  unfold call
  split
  · next hp =>
    have he := exec_spec hL h hp
    cases hr : exec sb s c with
    | ok s' => exact Ends.ok (he.of_ok hr)
    | error e => exact Ends.error (he.of_error hr)
  · exact Ends.error (by simp [Fine])

theorem run_ok (hL : sb.Layout) (h : FsOk sb s.data s.itable) {cs : List Call} {t : List Unit}
    (hr : run (call sb) s cs = .ok (s', t)) : FsOk sb s'.data s'.itable :=
  run_inv (I := fun s _ => FsOk sb s.data s.itable) h
    (fun _ _ c _ _ hs hc => (call_spec hL hs c).of_ok hc) hr

/-- **Disk block ownership.** From a file system in which it holds, the ownership
invariant holds after every run of calls; `readi` then changes nothing, so it
allocates nothing; and no run ends in the panic of `bfree`. -/
theorem block_ownership (hL : sb.Layout) (h0 : FsOk sb s.data s.itable) (cs : List Call) :
    (∀ s' t, run (call sb) s cs = .ok (s', t) →
      Consistent sb (inodes sb s'.data s'.itable) (ents sb s'.data) (bits sb s'.data) ∧
      ∀ k dst a off n, Held s' k → ∃ r, readi sb k dst a off n s' = .ok (r, s')) ∧
    run (call sb) s cs ≠ .error (.panic "freeing free block") := by
  refine ⟨fun s' t hr => ?_, fun hr => ?_⟩
  · have hok := run_ok hL h0 hr
    exact ⟨hok.fs, fun k dst a off n hk => readi_spec hL hok hk.toValid dst a off n⟩
  · obtain ⟨pre, c, -, s1, t1, -, hpre, hc⟩ := run_error.mp hr
    exact (call_spec hL (run_ok hL h0 hpre) c).of_error hc rfl

/-- A small disk: the inode block is 3, the map block is 4, the data blocks are `[6, 40)`. -/
def smallSuper : Super := ⟨40, 34, 16, 1, 2, 3, 4⟩

/-- The small disk without files, and an empty inode table. -/
def emptyFs : Sys where
  data b := if b = 4 then Block.of fun j => if j = 0 then 63 else 0 else .zero
  stable b := if b = 4 then Block.of fun j => if j = 0 then 63 else 0 else .zero
  logged := []
  itable _ := ⟨0, 0, false, false, .zero⟩

theorem smallSuper_layout : smallSuper.Layout where
  inodes := by decide
  map := by decide
  pos := by decide
  int := by decide

theorem emptyFs_ok : FsOk smallSuper emptyFs.data emptyFs.itable := by
  have hcopy : ∀ l i, (emptyFs.itable l).copy i = none := fun _ _ => rfl
  have hino : ∀ i, inodes smallSuper emptyFs.data emptyFs.itable i = .zero := by
    intro i
    rw [inodes_of_none fun l _ => hcopy l i]
    unfold dinodes
    split
    · next h =>
      have hblk : smallSuper.iblock i = 3 := by
        have : i / 16 = 0 := Nat.div_eq_of_lt h
        rw [Super.iblock, show IPB = 16 from rfl, this]
        rfl
      rw [hblk]
      exact Block.dinode_zero _
    · rfl
  have hal : ∀ i, ¬ Alloc smallSuper (inodes smallSuper emptyFs.data emptyFs.itable) i := by
    intro i h
    exact h.2.2 (by rw [hino]; rfl)
  have htgt : ∀ p, target smallSuper (inodes smallSuper emptyFs.data emptyFs.itable)
      (ents smallSuper emptyFs.data) p = 0 := fun p => target_of_not_alloc (hal p.1) p.2
  have hbits : ∀ b, b < 40 → bits smallSuper emptyFs.data b = decide (b < 6) := by decide +kernel
  refine ⟨⟨⟨by decide, fun p hp => absurd (htgt p) hp, fun p _ hp => absurd (htgt p) hp,
    fun p hp => absurd (htgt p) hp, fun b h1 h2 hb => ?_, fun b hb => ?_⟩,
    fun i hi => absurd hi (hal i), fun i _ hi => absurd hi (hal i)⟩, ?_⟩
  · rw [hbits b h2, decide_eq_true_eq] at hb
    have : 6 ≤ b := h1
    omega
  · have h6 : b < 6 := hb
    rw [hbits b (by omega), decide_eq_true_eq]
    exact h6
  · exact ⟨fun k l _ _ h => absurd h (Nat.lt_irrefl 0), fun k _ h => absurd h (Nat.lt_irrefl 0),
      fun k _ h => absurd h (Nat.lt_irrefl 0), fun k _ h => absurd h (Nat.lt_irrefl 0)⟩

/-- A file of three bytes with a block behind them, through the indirect block. -/
def sampleCalls : List Call :=
  [.ialloc 2, .ilock 0, .setFields 0 0 0 1, .iupdate 0, .writei 0 (fun _ => some 7) 0 0 3, .bmap 0 13]

theorem block_ownership_sample : ∃ s t, run (call smallSuper) emptyFs sampleCalls = .ok (s, t) ∧
    Consistent smallSuper (inodes smallSuper s.data s.itable) (ents smallSuper s.data)
      (bits smallSuper s.data) := by
  obtain ⟨⟨s, t⟩, hr⟩ := stopOf_eq_none.mp
    (show stopOf (run (call smallSuper) emptyFs sampleCalls) = none by decide +kernel)
  exact ⟨s, t, hr, ((block_ownership smallSuper_layout emptyFs_ok sampleCalls).1 s t hr).1⟩

end Fs
end Xv6
