/-
# Who holds which block

What the file system is about, below file contents: inodes, indirect entries
and free bits, without the blocks they are stored in. The places of an inode
are `addrs[0 .. NDIRECT]` and the entries of its indirect block; `target` is
the block number in a place. `Consistent` is the ownership invariant: the
places of the allocated inodes hold distinct data blocks, which are exactly
the data blocks marked in the free map, and no block below a file's size is
missing. The changes the code makes keep it: a fresh block goes to an empty
place (`assign`, `assignEntry`), an inode is emptied (`clear`), a file's data
are overwritten (`overwrite`), other fields change (`resize`).

Key definitions: `Fs.Dinode.place`, `Fs.target`, `Fs.Consistent`.
-/
import Xv6.FsDisk
import Xv6.Own

namespace Xv6
namespace Fs

/-- `addrs[0 .. NDIRECT]` and the entries of the indirect block. -/
def NPLACE : ℕ := NDIRECT + 1 + NINDIRECT

/-- The block number in place `q` of an inode; `ent x j` is entry `j` of block `x`. -/
def Dinode.place (d : Dinode) (ent : ℕ → ℕ → ℕ) (q : ℕ) : ℕ :=
  if q ≤ NDIRECT then d.addr q
  else if d.addr NDIRECT = 0 then 0 else ent (d.addr NDIRECT) (q - (NDIRECT + 1))

/-- The place of block `n` of a file. -/
def blockPlace (n : ℕ) : ℕ := if n < NDIRECT then n else n + 1

/-- Inode `i` is in use. -/
def Alloc (sb : Super) (ino : ℕ → Dinode) (i : ℕ) : Prop := 1 ≤ i ∧ i < sb.ninodes ∧ (ino i).type ≠ 0

instance (sb : Super) (ino : ℕ → Dinode) (i : ℕ) : Decidable (Alloc sb ino i) :=
  inferInstanceAs (Decidable (_ ∧ _ ∧ _))

/-- The block number in place `p.2` of inode `p.1`, if that inode is in use. -/
def target (sb : Super) (ino : ℕ → Dinode) (ent : ℕ → ℕ → ℕ) (p : ℕ × ℕ) : ℕ :=
  if Alloc sb ino p.1 ∧ p.2 < NPLACE then (ino p.1).place ent p.2 else 0

/-- The ownership invariant of the disk blocks. -/
structure Consistent (sb : Super) (ino : ℕ → Dinode) (ent : ℕ → ℕ → ℕ) (bit : ℕ → Bool) : Prop where
  owns : Owns (target sb ino ent) bit sb.datastart sb.size
  small : ∀ i, Alloc sb ino i → (ino i).size ≤ MAXFILE * BSIZE
  noHoles : ∀ i n, Alloc sb ino i → n * BSIZE < (ino i).size → target sb ino ent (i, blockPlace n) ≠ 0

variable {sb : Super} {ino ino' : ℕ → Dinode} {ent ent' : ℕ → ℕ → ℕ} {bit bit' : ℕ → Bool} {i : ℕ}

theorem blockPlace_ne (n : ℕ) : blockPlace n ≠ NDIRECT := by
  unfold blockPlace
  split <;> omega

theorem target_of_alloc (h : Alloc sb ino i) {q : ℕ} (hq : q < NPLACE) :
    target sb ino ent (i, q) = (ino i).place ent q := if_pos ⟨h, hq⟩

theorem target_of_not_alloc (h : ¬ Alloc sb ino i) (q : ℕ) : target sb ino ent (i, q) = 0 :=
  if_neg fun hc => h hc.1

theorem place_direct (d : Dinode) {q : ℕ} (h : q ≤ NDIRECT) : d.place ent q = d.addr q := if_pos h

theorem place_above (d : Dinode) {q : ℕ} (h : NDIRECT < q) :
    d.place ent q = if d.addr NDIRECT = 0 then 0 else ent (d.addr NDIRECT) (q - (NDIRECT + 1)) :=
  if_neg (by omega)

theorem place_entry {d : Dinode} (h : d.addr NDIRECT ≠ 0) (j : ℕ) :
    d.place ent (NDIRECT + 1 + j) = ent (d.addr NDIRECT) j := by
  rw [place_above _ (by omega), if_neg h, Nat.add_sub_cancel_left]

/-- The places read the entries of the inode's own indirect block only. -/
theorem place_congr {d : Dinode} (h : d.addr NDIRECT ≠ 0 → ent' (d.addr NDIRECT) = ent (d.addr NDIRECT))
    (q : ℕ) : d.place ent' q = d.place ent q := by
  unfold Dinode.place
  by_cases h0 : d.addr NDIRECT = 0
  · rw [if_pos h0, if_pos h0]
  · rw [h h0]

/-- A zeroed block goes to an empty place of `addrs`; if it is the indirect block, its entries are 0. -/
theorem place_setAddr {d : Dinode} {q b : ℕ} (hq : q ≤ NDIRECT) (h0 : d.addr q = 0)
    (hb : d.addr NDIRECT ≠ 0 → d.addr NDIRECT ≠ b) (r : ℕ) :
    (d.setAddr q b).place (Function.update ent b fun _ => 0) r = if r = q then b else d.place ent r := by
  rcases Nat.lt_or_ge NDIRECT r with hlt | hle
  · rw [if_neg (by omega), place_above _ hlt, place_above _ hlt, Dinode.addr_setAddr hq]
    by_cases hqn : NDIRECT = q
    · rw [if_pos hqn, hqn, h0, Function.update_self]
      simp
    · rw [if_neg hqn]
      by_cases hn : d.addr NDIRECT = 0
      · rw [if_pos hn, if_pos hn]
      · rw [if_neg hn, if_neg hn, Function.update_of_ne (hb hn)]
  · rw [place_direct _ hle, place_direct _ hle, Dinode.addr_setAddr hq]

theorem target_indirect (ent : ℕ → ℕ → ℕ) (h : Alloc sb ino i) : target sb ino ent (i, NDIRECT) = (ino i).addr NDIRECT := by
  rw [target_of_alloc h (by decide), place_direct _ le_rfl]

namespace Consistent

/-- Places that hold something go on doing so, and sizes do not change. -/
theorem grow (h : Consistent sb ino ent bit)
    (hown : Owns (target sb ino' ent') bit' sb.datastart sb.size)
    (hkeep : ∀ p, target sb ino ent p ≠ 0 → target sb ino' ent' p ≠ 0)
    (hsz : ∀ i, Alloc sb ino' i → Alloc sb ino i ∧ (ino' i).size = (ino i).size) :
    Consistent sb ino' ent' bit' where
  owns := hown
  small i hi := by
    rw [(hsz i hi).2]
    exact h.small i (hsz i hi).1
  noHoles i n hi hn := by
    rw [(hsz i hi).2] at hn
    exact hkeep _ (h.noHoles i n (hsz i hi).1 hn)

/-- No inode has an unmarked block as its indirect block. -/
theorem indirect_ne_free (h : Consistent sb ino ent bit) {b : ℕ} (hf : bit b = false) (hi : Alloc sb ino i)
    (h0 : (ino i).addr NDIRECT ≠ 0) : (ino i).addr NDIRECT ≠ b := by
  rw [← target_indirect ent hi] at h0 ⊢
  exact h.owns.ne_of_free hf h0

/-! ### A fresh block in `addrs` -/

theorem target_assign (h : Consistent sb ino ent bit) {q b : ℕ} (hi : Alloc sb ino i) (hq : q ≤ NDIRECT)
    (h0 : (ino i).addr q = 0) (hf : bit b = false) :
    target sb (Function.update ino i ((ino i).setAddr q b)) (Function.update ent b fun _ => 0) =
      Function.update (target sb ino ent) (i, q) b := by
  funext ⟨k, r⟩
  by_cases hki : k = i
  · subst hki
    have hal : Alloc sb (Function.update ino k ((ino k).setAddr q b)) k := by
      simpa [Alloc, Dinode.setAddr] using hi
    by_cases hr : r < NPLACE
    · rw [target_of_alloc hal hr, Function.update_self, place_setAddr hq h0 (h.indirect_ne_free hf hi)]
      by_cases hrq : r = q
      · rw [if_pos hrq, hrq, Function.update_self]
      · rw [if_neg hrq, Function.update_of_ne (by simpa using hrq), target_of_alloc hi hr]
    · have hrq : r ≠ q := by
        unfold NPLACE at hr
        omega
      rw [Function.update_of_ne (by simpa using hrq), target, target, if_neg (fun hc => hr hc.2),
        if_neg (fun hc => hr hc.2)]
  · have hal : Alloc sb (Function.update ino i ((ino i).setAddr q b)) k ↔ Alloc sb ino k := by
      rw [Alloc, Alloc, Function.update_of_ne hki]
    rw [Function.update_of_ne (by simp [hki])]
    unfold target
    rw [Function.update_of_ne hki]
    by_cases hc : Alloc sb ino k ∧ r < NPLACE
    · rw [if_pos ⟨hal.mpr hc.1, hc.2⟩, if_pos hc]
      exact place_congr (fun h1 => Function.update_of_ne (h.indirect_ne_free hf hc.1 h1) ..) r
    · rw [if_neg (by rwa [hal]), if_neg hc]

/-- A fresh, zeroed block goes to an empty place of `addrs`. -/
theorem assign (h : Consistent sb ino ent bit) {q b : ℕ} (hi : Alloc sb ino i) (hq : q ≤ NDIRECT)
    (h0 : (ino i).addr q = 0) (hb : b < sb.size) (hf : bit b = false) :
    Consistent sb (Function.update ino i ((ino i).setAddr q b)) (Function.update ent b fun _ => 0)
      (Function.update bit b true) := by
  have ht := h.target_assign hi hq h0 hf
  have hfree : target sb ino ent (i, q) = 0 := by
    have : q < NPLACE := by
      unfold NPLACE
      omega
    rw [target_of_alloc hi this, place_direct _ hq, h0]
  refine h.grow (ht ▸ h.owns.link hfree hb hf) (fun p hp => ?_) fun k hk => ?_
  · have hne : p ≠ (i, q) := fun e => hp (e ▸ hfree)
    rwa [ht, Function.update_of_ne hne]
  · by_cases hki : k = i
    · subst hki
      simpa [Dinode.setAddr] using hi
    · rw [Alloc, Function.update_of_ne hki] at hk
      exact ⟨hk, by rw [Function.update_of_ne hki]⟩

/-! ### A fresh block in the indirect block -/

/-- Two inodes have different indirect blocks. -/
theorem indirect_unique (h : Consistent sb ino ent bit) {k : ℕ} (hk : Alloc sb ino k) (hi : Alloc sb ino i)
    (h0 : (ino k).addr NDIRECT ≠ 0) (he : (ino k).addr NDIRECT = (ino i).addr NDIRECT) : k = i := by
  rw [← target_indirect ent hk] at h0 he
  rw [← target_indirect ent hi] at he
  exact (Prod.mk.inj (h.owns.unique _ _ h0 he)).1

theorem target_assignEntry (h : Consistent sb ino ent bit) {j b : ℕ} (hi : Alloc sb ino i)
    (hx : (ino i).addr NDIRECT ≠ 0) (hj : j < NINDIRECT) (hf : bit b = false) :
    target sb ino (Function.update (Function.update ent b fun _ => 0) ((ino i).addr NDIRECT)
        (Function.update (ent ((ino i).addr NDIRECT)) j b)) =
      Function.update (target sb ino ent) (i, NDIRECT + 1 + j) b := by
  funext ⟨k, r⟩
  by_cases hc : Alloc sb ino k ∧ r < NPLACE
  · rw [target_of_alloc hc.1 hc.2]
    by_cases hki : k = i
    · subst hki
      rcases Nat.lt_or_ge NDIRECT r with hlt | hle
      · obtain ⟨l, rfl⟩ : ∃ l, r = NDIRECT + 1 + l := ⟨r - (NDIRECT + 1), by omega⟩
        rw [place_entry hx, Function.update_self]
        by_cases hlj : l = j
        · rw [hlj, Function.update_self, Function.update_self]
        · rw [Function.update_of_ne hlj, Function.update_of_ne (by simpa using hlj),
            target_of_alloc hc.1 hc.2, place_entry hx]
      · have hne : (k, r) ≠ (k, NDIRECT + 1 + j) := by
          intro e
          have := (Prod.mk.inj e).2
          omega
        rw [Function.update_of_ne hne, target_of_alloc hc.1 hc.2, place_direct _ hle,
          place_direct _ hle]
    · rw [Function.update_of_ne (by simp [hki]), target_of_alloc hc.1 hc.2]
      refine place_congr (fun h0 => ?_) r
      rw [Function.update_of_ne (fun e => hki (h.indirect_unique hc.1 hi h0 e)),
        Function.update_of_ne (h.indirect_ne_free hf hc.1 h0)]
  · have hne : (k, r) ≠ (i, NDIRECT + 1 + j) := by
      rintro ⟨rfl, rfl⟩
      exact hc ⟨hi, by unfold NPLACE; omega⟩
    rw [Function.update_of_ne hne, target, target, if_neg hc, if_neg hc]

/-- A fresh, zeroed block goes to an empty entry of an inode's indirect block. -/
theorem assignEntry (h : Consistent sb ino ent bit) {j b : ℕ} (hi : Alloc sb ino i)
    (hx : (ino i).addr NDIRECT ≠ 0) (hj : j < NINDIRECT) (h0 : ent ((ino i).addr NDIRECT) j = 0)
    (hb : b < sb.size) (hf : bit b = false) :
    Consistent sb ino (Function.update (Function.update ent b fun _ => 0) ((ino i).addr NDIRECT)
        (Function.update (ent ((ino i).addr NDIRECT)) j b)) (Function.update bit b true) := by
  have ht := h.target_assignEntry hi hx hj hf
  have hfree : target sb ino ent (i, NDIRECT + 1 + j) = 0 := by
    rw [target_of_alloc hi (by unfold NPLACE; omega), place_entry hx, h0]
  refine h.grow (ht ▸ h.owns.link hfree hb hf) (fun p hp => ?_) fun k hk => ⟨hk, rfl⟩
  have hne : p ≠ (i, NDIRECT + 1 + j) := fun e => hp (e ▸ hfree)
  rwa [ht, Function.update_of_ne hne]

/-! ### Changes that keep the block map -/

/-- A file's data block is no indirect block, so its content does not matter. -/
theorem target_overwrite (h : Consistent sb ino ent bit) {p : ℕ × ℕ} (hq : p.2 ≠ NDIRECT) (f : ℕ → ℕ) :
    target sb ino (Function.update ent (target sb ino ent p) f) = target sb ino ent := by
  funext ⟨k, r⟩
  by_cases hc : Alloc sb ino k ∧ r < NPLACE
  · rw [target_of_alloc hc.1 hc.2, target_of_alloc hc.1 hc.2]
    refine place_congr (fun h0 => Function.update_of_ne (fun e => ?_) ..) r
    rw [← target_indirect ent hc.1] at h0 e
    exact hq (congrArg Prod.snd (h.owns.unique _ _ h0 e)).symm
  · exact (if_neg hc).trans (if_neg hc).symm

theorem overwrite (h : Consistent sb ino ent bit) {p : ℕ × ℕ} (hq : p.2 ≠ NDIRECT) (f : ℕ → ℕ) :
    Consistent sb ino (Function.update ent (target sb ino ent p) f) bit := by
  have ht := h.target_overwrite hq f
  refine h.grow ?_ (fun p hp => by rwa [ht]) fun k hk => ⟨hk, rfl⟩
  rw [ht]
  exact h.owns

theorem target_resize {d : Dinode} (ht : d.type = (ino i).type) (ha : d.addrs = (ino i).addrs) :
    target sb (Function.update ino i d) ent = target sb ino ent := by
  have hal : ∀ k, Alloc sb (Function.update ino i d) k ↔ Alloc sb ino k := by
    intro k
    by_cases hki : k = i
    · rw [Alloc, Alloc, hki, Function.update_self, ht]
    · rw [Alloc, Alloc, Function.update_of_ne hki]
  funext ⟨k, r⟩
  unfold target
  simp only [hal]
  by_cases hki : k = i
  · simp only [hki, Function.update_self, Dinode.place, Dinode.addr, ha]
  · rw [Function.update_of_ne hki]

/-- Fields other than the type and the block numbers change. -/
theorem resize (h : Consistent sb ino ent bit) {d : Dinode} (ht : d.type = (ino i).type)
    (ha : d.addrs = (ino i).addrs) (hsmall : d.size ≤ MAXFILE * BSIZE)
    (hmap : ∀ n, n * BSIZE < d.size → target sb ino ent (i, blockPlace n) ≠ 0) :
    Consistent sb (Function.update ino i d) ent bit := by
  have htgt : target sb (Function.update ino i d) ent = target sb ino ent := target_resize ht ha
  refine ⟨htgt ▸ h.owns, fun k hk => ?_, fun k n hk hn => ?_⟩
  · by_cases hki : k = i
    · rwa [hki, Function.update_self]
    · rw [Alloc, Function.update_of_ne hki] at hk
      rw [Function.update_of_ne hki]
      exact h.small k hk
  · rw [htgt]
    by_cases hki : k = i
    · rw [hki, Function.update_self] at hn
      exact hki ▸ hmap n hn
    · rw [Function.update_of_ne hki] at hn
      rw [Alloc, Function.update_of_ne hki] at hk
      exact h.noHoles k n hk hn

/-! ### Emptying an inode -/

theorem target_clear {d : Dinode} (ha : ∀ q, d.addr q = 0) (p : ℕ × ℕ) :
    target sb (Function.update ino i d) ent p = if p.1 = i then 0 else target sb ino ent p := by
  obtain ⟨k, r⟩ := p
  by_cases hki : k = i
  · have hplace : d.place ent r = 0 := by
      unfold Dinode.place
      simp [ha]
    simp [target, hki, hplace]
  · rw [if_neg hki]
    unfold target Alloc
    simp only [Function.update_of_ne hki]

/-- Inode `i` gets empty, and exactly the blocks it held are unmarked. -/
theorem clear (h : Consistent sb ino ent bit) {d : Dinode} (ha : ∀ q, d.addr q = 0) (hs : d.size = 0)
    (hbit : ∀ b, bit' b = true ↔
      bit b = true ∧ ∀ q, target sb ino ent (i, q) ≠ 0 → target sb ino ent (i, q) ≠ b) :
    Consistent sb (Function.update ino i d) ent bit' := by
  have ht : ∀ p, target sb (Function.update ino i d) ent p = if p.1 = i then 0 else target sb ino ent p :=
    target_clear ha
  refine ⟨h.owns.release (S := {p | p.1 = i}) (fun p hp => ?_) (fun p hp => ?_) fun b => ?_,
    fun k hk => ?_, fun k n hk hn => ?_⟩
  · exact (ht p).trans (if_pos hp)
  · exact (ht p).trans (if_neg hp)
  · rw [hbit b]
    refine and_congr_right fun _ => ⟨fun hall p hp => ?_, fun hall q => hall (i, q) rfl⟩
    obtain ⟨k, q⟩ := p
    obtain rfl : k = i := hp
    exact hall q
  · by_cases hki : k = i
    · rw [hki, Function.update_self, hs]
      exact Nat.zero_le _
    · rw [Alloc, Function.update_of_ne hki] at hk
      rw [Function.update_of_ne hki]
      exact h.small k hk
  · by_cases hki : k = i
    · rw [hki, Function.update_self, hs] at hn
      exact absurd hn (Nat.not_lt_zero _)
    · rw [Function.update_of_ne hki] at hn
      rw [Alloc, Function.update_of_ne hki] at hk
      rw [ht, if_neg hki]
      exact h.noHoles k n hk hn

end Consistent

end Fs
end Xv6
