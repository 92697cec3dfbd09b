/-
# Directories are finite maps

The bytes of a directory are entries of 16 bytes, of which those with an inode
number are live. Names are compared, copied and cut to `DIRSIZ` bytes, up to a
NUL, by `strncmp` and `strncpy` alike, so an entry has one name (`fileName`). If
the live entries have different names, the directory is a finite map from names
to inode numbers (`dirMap`): `dirlookup` looks a name up, `dirlink` adds one or
leaves the map as it is, and overwriting an entry with zeros removes its name.

Key definitions: `Fs.fileName`, `Fs.entryAt`, `Fs.dirMap`, `Fs.Distinct`.
Key theorems: `Fs.strncmp_eq_zero`, `Fs.dirScan_eq`, `Fs.dirlookup_eq`, `Fs.directories_are_maps`.
-/
import Xv6.FsEdit

namespace Xv6
namespace Fs

open TraceSys

variable {sb : Super} {s s' : Sys} {k : ℕ}

/-! ### Names -/

/-- The first `n` bytes, up to a NUL. -/
def nameOf : ℕ → (ℕ → UInt8) → List UInt8
  | 0, _ => []
  | n + 1, f => if f 0 = 0 then [] else f 0 :: nameOf n fun i => f (i + 1)

/-- A string in memory, with its NUL. -/
def cstr (l : List UInt8) (i : ℕ) : UInt8 := l.getD i 0

/-- The name that a buffer of `DIRSIZ` bytes or a longer string stands for. -/
def fileName (f : ℕ → UInt8) : List UInt8 := nameOf DIRSIZ f

theorem strncmp_eq_zero (n : ℕ) (p q : ℕ → UInt8) : strncmp p q n = 0 ↔ nameOf n p = nameOf n q := by
  induction n generalizing p q with
  | zero => exact iff_of_true rfl rfl
  | succ n ih =>
    rw [strncmp, nameOf, nameOf]
    by_cases hpq : p 0 = q 0
    · by_cases h0 : p 0 = 0
      · rw [if_neg (fun h => h.1 h0), if_pos h0, if_pos (hpq ▸ h0), hpq]
        exact iff_of_true (Int.sub_self _) rfl
      · rw [if_pos ⟨h0, hpq⟩, if_neg h0, if_neg (hpq ▸ h0), ih, hpq, List.cons.injEq]
        exact (and_iff_right rfl).symm
    · rw [if_neg fun h => hpq h.2]
      refine iff_of_false (fun h => hpq (UInt8.toNat_inj.mp (by omega))) fun h => ?_
      by_cases h0 : p 0 = 0
      · by_cases h1 : q 0 = 0
        · exact hpq (h0.trans h1.symm)
        · rw [if_pos h0, if_neg h1] at h
          cases h
      · by_cases h1 : q 0 = 0
        · rw [if_neg h0, if_pos h1] at h
          cases h
        · rw [if_neg h0, if_neg h1] at h
          exact hpq (List.cons.inj h).1

theorem namecmp_eq_zero {p q : ℕ → UInt8} : namecmp p q = 0 ↔ fileName p = fileName q := strncmp_eq_zero DIRSIZ p q

/-- The bytes after a NUL do not matter. -/
theorem nameOf_congr {n : ℕ} {f g : ℕ → UInt8} (h : ∀ i, i < n → (∀ j, j < i → f j ≠ 0) → f i = g i) :
    nameOf n f = nameOf n g := by
  induction n generalizing f g with
  | zero => rfl
  | succ n ih =>
    have h0 : f 0 = g 0 := h 0 (Nat.succ_pos n) fun j hj => absurd hj (Nat.not_lt_zero j)
    rw [nameOf, nameOf, ← h0]
    by_cases hz : f 0 = 0
    · rw [if_pos hz, if_pos hz]
    · rw [if_neg hz, if_neg hz]
      congr 1
      refine ih fun i hi hne => h (i + 1) (Nat.succ_lt_succ hi) fun j hj => ?_
      cases j with
      | zero => exact hz
      | succ j => exact hne j (Nat.lt_of_succ_lt_succ hj)

/-- `strncpy` copies the name. -/
theorem fileName_strncpy (t : ℕ → UInt8) : fileName (strncpy t) = fileName t := by
  refine nameOf_congr fun i _ hne => ?_
  rw [strncpy, if_neg]
  intro hany
  obtain ⟨j, hj, hz⟩ := List.any_eq_true.mp hany
  rw [List.mem_range] at hj
  refine hne j hj ?_
  rw [strncpy]
  split
  · rfl
  · exact of_decide_eq_true hz

/-! ### Entries -/

/-- Entry `m` of a directory. -/
def entryAt (l : List UInt8) (m : ℕ) : Dirent := .ofBytes ((l.drop (m * Dirent.size)).take Dirent.size)

/-- The number of entries. -/
def entryCount (l : List UInt8) : ℕ := l.length / Dirent.size

/-- The bytes that are written for an entry. -/
def Dirent.toBytes (de : Dirent) : List UInt8 := (List.range Dirent.size).map de.bytes

theorem length_toBytes (de : Dirent) : de.toBytes.length = Dirent.size := by
  rw [Dirent.toBytes, List.length_map, List.length_range]

theorem getD_toBytes (de : Dirent) {i : ℕ} (h : i < Dirent.size) : de.toBytes.getD i 0 = de.bytes i := by
  rw [Dirent.toBytes, List.getD_eq_getElem?_getD, List.getElem?_map, List.getElem?_range h]
  rfl

/-- What is written for an entry is read back. -/
theorem ofBytes_toBytes (de : Dirent) (hi : de.inum < 2 ^ 16) :
    (Dirent.ofBytes de.toBytes).inum = de.inum ∧ fileName (Dirent.ofBytes de.toBytes).name = fileName de.name := by
  have hsize : Dirent.size = 16 := rfl
  constructor
  · show Bytes.le (fun i => de.toBytes.getD i 0) 0 2 = de.inum
    have hle : Bytes.le (fun i => de.toBytes.getD i 0) 0 2 = Bytes.le (Bytes.putLe (fun _ => 0) 0 2 de.inum) 0 2 := by
      refine Bytes.le_congr fun j _ hj => ?_
      rw [getD_toBytes de (by omega), Dirent.bytes, if_pos (by omega), Bytes.putLe, if_pos ⟨Nat.zero_le _, hj⟩, Nat.sub_zero]
    rw [hle, Bytes.le_putLe]
    exact Nat.mod_eq_of_lt hi
  · refine nameOf_congr fun i hi' _ => ?_
    show de.toBytes.getD (2 + i) 0 = de.name i
    have hlt : i < 14 := hi'
    rw [getD_toBytes de (by omega), Dirent.bytes, if_neg (by omega), Nat.add_sub_cancel_left]

/-- The bytes with entry `m` overwritten, or added at the end. -/
def setEntry (l : List UInt8) (m : ℕ) (de : Dirent) : List UInt8 :=
  l.take (m * Dirent.size) ++ de.toBytes ++ l.drop (m * Dirent.size + Dirent.size)

section

variable {l : List UInt8} {m : ℕ} {de : Dirent}

theorem length_setEntry (hl : l.length % Dirent.size = 0) (hm : m ≤ entryCount l) :
    (setEntry l m de).length = max (entryCount l) (m + 1) * Dirent.size := by
  have hsize : Dirent.size = 16 := rfl
  rw [setEntry, List.length_append, List.length_append, List.length_take, List.length_drop, length_toBytes]
  rw [entryCount] at hm ⊢
  rw [hsize] at hl hm ⊢
  omega

theorem entryCount_setEntry (hl : l.length % Dirent.size = 0) (hm : m ≤ entryCount l) :
    entryCount (setEntry l m de) = max (entryCount l) (m + 1) := by
  rw [entryCount, length_setEntry hl hm, Nat.mul_div_cancel _ (by decide)]

theorem mul_le_length (hm : m ≤ entryCount l) : m * Dirent.size ≤ l.length :=
  Nat.le_trans (Nat.mul_le_mul_right _ hm) (Nat.div_mul_le_self ..)

theorem entryAt_setEntry_self (hm : m ≤ entryCount l) : entryAt (setEntry l m de) m = .ofBytes de.toBytes := by
  have hlen : (l.take (m * Dirent.size)).length = m * Dirent.size := by
    rw [List.length_take]
    exact Nat.min_eq_left (mul_le_length hm)
  rw [entryAt, setEntry, List.append_assoc]
  nth_rewrite 1 [← hlen]
  rw [List.drop_left, ← length_toBytes de, List.take_left]

theorem entryAt_setEntry_of_ne (hm : m ≤ entryCount l) {m' : ℕ} (hne : m' ≠ m) :
    entryAt (setEntry l m de) m' = entryAt l m' := by
  have hsize : Dirent.size = 16 := rfl
  have hle := mul_le_length hm
  rw [entryAt, entryAt]
  congr 1
  refine List.ext_getElem? fun i => ?_
  rw [List.getElem?_take, List.getElem?_take, List.getElem?_drop, List.getElem?_drop]
  by_cases hi : i < Dirent.size
  · rw [if_pos hi, if_pos hi, setEntry]
    rw [hsize] at hle hi ⊢
    rcases Nat.lt_or_gt_of_ne hne with hlt | hgt
    · rw [List.append_assoc, List.getElem?_append_left (by rw [List.length_take]; omega), List.getElem?_take,
        if_pos (by omega)]
    · rw [List.getElem?_append_right (by rw [List.length_append, List.length_take, length_toBytes, hsize]; omega),
        List.length_append, List.length_take, length_toBytes, hsize, List.getElem?_drop]
      congr 1
      omega
  · rw [if_neg hi, if_neg hi]

end

/-! ### The map -/

/-- The place of the live entry of that name. -/
def dirFind (l : List UInt8) (nm : List UInt8) : Option ℕ :=
  (List.range (entryCount l)).find? fun m => (entryAt l m).inum ≠ 0 ∧ fileName (entryAt l m).name = nm

/-- **The map that a directory is.** -/
def dirMap (l : List UInt8) (nm : List UInt8) : Option ℕ := (dirFind l nm).map fun m => (entryAt l m).inum

/-- Live entries have different names. -/
def Distinct (l : List UInt8) : Prop :=
  ∀ m m', m < entryCount l → m' < entryCount l → (entryAt l m).inum ≠ 0 → (entryAt l m').inum ≠ 0 →
    fileName (entryAt l m).name = fileName (entryAt l m').name → m = m'

section

variable {l l' : List UInt8} {nm : List UInt8} {m i : ℕ} {de : Dirent}

theorem dirFind_some (h : dirFind l nm = some m) :
    m < entryCount l ∧ (entryAt l m).inum ≠ 0 ∧ fileName (entryAt l m).name = nm := by
  obtain ⟨h0, hn⟩ := of_decide_eq_true
    (List.find?_some (p := fun m => decide ((entryAt l m).inum ≠ 0 ∧ fileName (entryAt l m).name = nm)) h)
  exact ⟨List.mem_range.mp (List.mem_of_find?_eq_some h), h0, hn⟩

theorem dirFind_none : dirFind l nm = none ↔ ∀ m, m < entryCount l → (entryAt l m).inum ≠ 0 → fileName (entryAt l m).name ≠ nm := by
  rw [dirFind, List.find?_eq_none]
  constructor
  · intro h m hm h0 hn
    exact h m (List.mem_range.mpr hm) (decide_eq_true ⟨h0, hn⟩)
  · intro h m hm hp
    exact h m (List.mem_range.mp hm) (of_decide_eq_true hp).1 (of_decide_eq_true hp).2

theorem dirMap_none : dirMap l nm = none ↔ ∀ m, m < entryCount l → (entryAt l m).inum ≠ 0 → fileName (entryAt l m).name ≠ nm := by
  rw [dirMap, Option.map_eq_none_iff, dirFind_none]

/-- With different names the place does not matter. -/
theorem dirMap_some (hd : Distinct l) :
    dirMap l nm = some i ↔ ∃ m, m < entryCount l ∧ (entryAt l m).inum = i ∧ i ≠ 0 ∧ fileName (entryAt l m).name = nm := by
  rw [dirMap, Option.map_eq_some_iff]
  constructor
  · rintro ⟨m, hm, rfl⟩
    obtain ⟨h1, h2, h3⟩ := dirFind_some hm
    exact ⟨m, h1, rfl, h2, h3⟩
  · rintro ⟨m, hm, rfl, h0, hn⟩
    cases hf : dirFind l nm with
    | none => exact absurd hn (dirFind_none.mp hf m hm h0)
    | some m' =>
      obtain ⟨h1, h2, h3⟩ := dirFind_some hf
      exact ⟨m', rfl, by rw [hd m m' hm h1 h0 h2 (hn.trans h3.symm)]⟩

/-- A directory in which only entry `m` is new. -/
structure OneNew (l : List UInt8) (m : ℕ) (l' : List UInt8) : Prop where
  le : m ≤ entryCount l
  count : entryCount l' = max (entryCount l) (m + 1)
  other : ∀ m', m' ≠ m → entryAt l' m' = entryAt l m'

theorem OneNew.lt (h : OneNew l m l') {m' : ℕ} (hne : m' ≠ m) : m' < entryCount l' ↔ m' < entryCount l := by
  have h1 := h.le
  rw [h.count]
  omega

/-- A free entry is taken for a name that is not there. -/
theorem OneNew.add (h : OneNew l m l') (hd : Distinct l) (hfree : m < entryCount l → (entryAt l m).inum = 0)
    (hnew : dirMap l (fileName (entryAt l' m).name) = none) (hlive : (entryAt l' m).inum ≠ 0) :
    Distinct l' ∧ dirMap l' = Function.update (dirMap l) (fileName (entryAt l' m).name) (some (entryAt l' m).inum) := by
  have hmlt : m < entryCount l' := by
    rw [h.count]
    omega
  have hother : ∀ a, a ≠ m → a < entryCount l' → (entryAt l' a).inum ≠ 0 →
      fileName (entryAt l' a).name ≠ fileName (entryAt l' m).name := by
    intro a ha hlt h0
    rw [h.other a ha] at h0 ⊢
    exact dirMap_none.mp hnew a ((h.lt ha).mp hlt) h0
  have hd' : Distinct l' := by
    intro a b hal hbl ha hb hn
    by_cases ham : a = m
    · by_cases hbm : b = m
      · rw [ham, hbm]
      · rw [ham] at hn
        exact absurd hn.symm (hother b hbm hbl hb)
    · by_cases hbm : b = m
      · rw [hbm] at hn
        exact absurd hn (hother a ham hal ha)
      · rw [h.other a ham] at ha hn
        rw [h.other b hbm] at hb hn
        exact hd a b ((h.lt ham).mp hal) ((h.lt hbm).mp hbl) ha hb hn
  refine ⟨hd', funext fun nm => ?_⟩
  by_cases hnm : nm = fileName (entryAt l' m).name
  · rw [hnm, Function.update_self, dirMap_some hd']
    exact ⟨m, hmlt, rfl, hlive, rfl⟩
  · rw [Function.update_of_ne hnm]
    refine Option.ext fun i => ?_
    rw [dirMap_some hd', dirMap_some hd]
    constructor
    · rintro ⟨a, hal, hi, h0, hn⟩
      have ham : a ≠ m := fun ham => hnm (by rw [← hn, ham])
      rw [h.other a ham] at hi hn
      exact ⟨a, (h.lt ham).mp hal, hi, h0, hn⟩
    · rintro ⟨a, hal, hi, h0, hn⟩
      have ham : a ≠ m := fun ham => h0 (by rw [← hi, ham]; exact hfree (ham ▸ hal))
      rw [← h.other a ham] at hi hn
      exact ⟨a, (h.lt ham).mpr hal, hi, h0, hn⟩

/-- A live entry is overwritten by one that is not. -/
theorem OneNew.remove (h : OneNew l m l') (hd : Distinct l) (hm : m < entryCount l) (hlive : (entryAt l m).inum ≠ 0)
    (hdead : (entryAt l' m).inum = 0) :
    Distinct l' ∧ dirMap l' = Function.update (dirMap l) (fileName (entryAt l m).name) none := by
  have hd' : Distinct l' := by
    intro a b hal hbl ha hb hn
    have ham : a ≠ m := fun ham => ha (ham ▸ hdead)
    have hbm : b ≠ m := fun hbm => hb (hbm ▸ hdead)
    rw [h.other a ham] at ha hn
    rw [h.other b hbm] at hb hn
    exact hd a b ((h.lt ham).mp hal) ((h.lt hbm).mp hbl) ha hb hn
  refine ⟨hd', funext fun nm => ?_⟩
  by_cases hnm : nm = fileName (entryAt l m).name
  · rw [hnm, Function.update_self, dirMap_none]
    intro a hal h0 hn
    have ham : a ≠ m := fun ham => h0 (ham ▸ hdead)
    rw [h.other a ham] at h0 hn
    exact ham (hd a m ((h.lt ham).mp hal) hm h0 hlive hn)
  · rw [Function.update_of_ne hnm]
    refine Option.ext fun i => ?_
    rw [dirMap_some hd', dirMap_some hd]
    constructor
    · rintro ⟨a, hal, hi, h0, hn⟩
      have ham : a ≠ m := fun ham => h0 (by rw [← hi, ham]; exact hdead)
      rw [h.other a ham] at hi hn
      exact ⟨a, (h.lt ham).mp hal, hi, h0, hn⟩
    · rintro ⟨a, hal, hi, h0, hn⟩
      have ham : a ≠ m := fun ham => hnm (by rw [← hn, ham])
      rw [← h.other a ham] at hi hn
      exact ⟨a, (h.lt ham).mpr hal, hi, h0, hn⟩

theorem oneNew_setEntry (hl : l.length % Dirent.size = 0) (hm : m ≤ entryCount l) (de : Dirent) : OneNew l m (setEntry l m de) :=
  ⟨hm, entryCount_setEntry hl hm, fun _ hne => entryAt_setEntry_of_ne hm hne⟩

end

/-! ### iget -/

/-- What `iget` does: the slot of the inode gets one more reference, or a free
slot is taken, without a copy. -/
inductive Got (i : ℕ) (s : Sys) (j : ℕ) : Sys → Prop
  | again (hlt : j < NINODE) (href : 0 < (s.itable j).ref) (hinum : (s.itable j).inum = i) :
    Got i s j (s.setInode j { s.itable j with ref := (s.itable j).ref + 1 })
  | fresh (hlt : j < NINODE) (href : (s.itable j).ref = 0)
    (hnone : ∀ l, l < NINODE → 0 < (s.itable l).ref → (s.itable l).inum ≠ i) :
    Got i s j (s.setInode j { s.itable j with inum := i, ref := 1, valid := false })

/-- No slot has the inode, and none is free. -/
def TableFull (i : ℕ) (s : Sys) : Prop := ∀ l, l < NINODE → 0 < (s.itable l).ref ∧ (s.itable l).inum ≠ i

theorem iget_cases (i : ℕ) (s : Sys) :
    (∃ j s', iget i s = .ok (j, s') ∧ Got i s j s') ∨
      (iget i s = .error (.panic "iget: no inodes") ∧ TableFull i s) := by
  rw [iget]
  cases hf : (List.range NINODE).find? fun k => 0 < (s.itable k).ref ∧ (s.itable k).inum = i with
  | some j =>
    have hp := List.find?_some hf
    simp only [decide_eq_true_eq] at hp
    exact Or.inl ⟨j, _, rfl, .again (List.mem_range.mp (List.mem_of_find?_eq_some hf)) hp.1 hp.2⟩
  | none =>
    have hnone : ∀ l, l < NINODE → 0 < (s.itable l).ref → (s.itable l).inum ≠ i := by
      intro l hl href hi
      exact List.find?_eq_none.mp hf l (List.mem_range.mpr hl) (decide_eq_true ⟨href, hi⟩)
    cases he : (List.range NINODE).find? fun k => (s.itable k).ref = 0 with
    | some j =>
      have hp := List.find?_some he
      simp only [decide_eq_true_eq] at hp
      exact Or.inl ⟨j, _, rfl, .fresh (List.mem_range.mp (List.mem_of_find?_eq_some he)) hp hnone⟩
    | none =>
      refine Or.inr ⟨rfl, fun l hl => ?_⟩
      have href : 0 < (s.itable l).ref := by
        by_contra h0
        exact List.find?_eq_none.mp he l (List.mem_range.mpr hl) (decide_eq_true (by omega))
      exact ⟨href, hnone l hl href⟩

theorem iget_got {i j : ℕ} (h : iget i s = .ok (j, s')) : Got i s j s' := by
  rcases iget_cases i s with ⟨j', s1, hr, hg⟩ | ⟨he, -⟩
  · obtain ⟨rfl, rfl⟩ := Prod.mk.inj (Except.ok.inj (hr.symm.trans h))
    exact hg
  · rw [he] at h
    cases h

namespace Got

variable {i j : ℕ}

theorem lt (h : Got i s j s') : j < NINODE := by
  cases h with
  | again hlt _ _ => exact hlt
  | fresh hlt _ _ => exact hlt

theorem data (h : Got i s j s') : s'.data = s.data := by
  cases h with
  | again _ _ _ => rfl
  | fresh _ _ _ => rfl

theorem other (h : Got i s j s') {l : ℕ} (hl : l ≠ j) : s'.itable l = s.itable l := by
  cases h with
  | again _ _ _ => exact Function.update_of_ne hl ..
  | fresh _ _ _ => exact Function.update_of_ne hl ..

theorem inum (h : Got i s j s') : (s'.itable j).inum = i := by
  cases h with
  | again _ _ hinum =>
    rw [setInode_self]
    exact hinum
  | fresh _ _ _ => rw [setInode_self]

theorem ref (h : Got i s j s') : (s'.itable j).ref = (s.itable j).ref + 1 := by
  cases h with
  | again _ _ _ => rw [setInode_self]
  | fresh _ href _ => rw [setInode_self, href]

theorem locked (h : Got i s j s') : (s'.itable j).locked = (s.itable j).locked := by
  cases h with
  | again _ _ _ => rw [setInode_self]
  | fresh _ _ _ => rw [setInode_self]

/-- A slot in use stays as it is but for the reference. -/
theorem live (h : Got i s j s') {l : ℕ} (hl : 0 < (s.itable l).ref) :
    (s'.itable l).inum = (s.itable l).inum ∧ (s'.itable l).valid = (s.itable l).valid ∧ (s'.itable l).din = (s.itable l).din ∧
      0 < (s'.itable l).ref := by
  by_cases hlj : l = j
  · subst hlj
    cases h with
    | again _ _ _ =>
      rw [setInode_self]
      exact ⟨rfl, rfl, rfl, Nat.succ_pos _⟩
    | fresh _ href _ => omega
  · rw [h.other hlj]
    exact ⟨rfl, rfl, rfl, hl⟩

theorem copy (h : Got i s j s') (a l : ℕ) : (s'.itable l).copy a = (s.itable l).copy a := by
  cases h with
  | again _ href _ =>
    refine copy_update ?_
    rw [Inode.copy, Inode.copy]
    simp only [Nat.succ_pos, href, true_and]
  | fresh _ href _ =>
    refine copy_update ?_
    rw [Inode.copy, Inode.copy, if_neg (fun hc => absurd hc.2.1 Bool.false_ne_true), if_neg (fun hc => by omega)]

theorem inodes (h : Got i s j s') : inodes sb s'.data s'.itable = inodes sb s.data s.itable :=
  funext fun a => inodes_congr (h.copy a) (by rw [h.data])

theorem content (h : Got i s j s') : content sb s' = content sb s := content_of_inodes h.data h.inodes

theorem fsOk (h : Got i s j s') (hok : FsOk sb s.data s.itable) : FsOk sb s'.data s'.itable := by
  cases h with
  | again hlt href _ =>
    exact hok.touch hlt rfl rfl rfl (iff_of_true (Nat.succ_pos _) href)
  | fresh _ href hnone =>
    refine hok.setInvalid (fun hc => by omega) (fun hc => absurd hc.2 Bool.false_ne_true) fun _ l hl _ hl0 => ?_
    exact hnone l hl hl0

theorem saved (h : Got i s j s') (hs : Saved sb s) : Saved sb s' := by
  intro l hl
  have hcopy := h.copy (s'.itable l).inum l
  rw [copy_eq_some.mpr ⟨hl.ref, hl.valid, rfl, rfl⟩] at hcopy
  obtain ⟨h1, h2, h3, h4⟩ := copy_eq_some.mp hcopy.symm
  rw [h.data, ← h3, hs l ⟨hl.lt, h1, h2⟩, h4]

end Got

/-- A state that differs in free slots of the table only. -/
structure Unmoved (s s' : Sys) : Prop where
  rest : s' = { s with itable := s'.itable }
  slot : ∀ l, s'.itable l = s.itable l ∨ (s.itable l).ref = 0 ∧ (s'.itable l).ref = 0

/-- The reference that `iget` has added is given back; the inode is not freed. -/
theorem Got.iput (sb : Super) {i j : ℕ} (h : Got i s j s') : iput sb j s' = .ok (decRef j s') ∧ Unmoved s (decRef j s') := by
  cases h with
  | again hlt href hinum =>
    refine ⟨?_, rfl, fun l => Or.inl ?_⟩
    · rw [Fs.iput, if_neg]
      rw [setInode_self]
      intro hc
      have h1 : (s.itable j).ref + 1 = 1 := hc.1
      omega
    · by_cases hl : l = j
      · rw [hl, decRef_self, setInode_self]
        rfl
      · rw [decRef_of_ne _ hl, setInode_of_ne _ hl]
  | fresh hlt href hnone =>
    refine ⟨?_, rfl, fun l => ?_⟩
    · rw [Fs.iput, if_neg]
      rw [setInode_self]
      intro hc
      exact Bool.false_ne_true hc.2.1
    · by_cases hl : l = j
      · rw [hl, decRef_self, setInode_self]
        exact Or.inr ⟨href, rfl⟩
      · rw [decRef_of_ne _ hl, setInode_of_ne _ hl]
        exact Or.inl rfl

/-! ### dirlookup -/

/-- The bytes of the file in a slot. -/
def file (sb : Super) (s : Sys) (k : ℕ) : List UInt8 := content sb s (s.itable k).inum

/-- Slot `k` has a directory of whole entries. -/
structure Directory (sb : Super) (s : Sys) (k : ℕ) : Prop where
  ok : FsOk sb s.data s.itable
  slot : Valid s.itable k
  type : (s.itable k).din.type = T_DIR
  whole : (s.itable k).din.size % Dirent.size = 0

namespace Directory

theorem length (h : Directory sb s k) : (file sb s k).length = (s.itable k).din.size := by
  rw [file, length_content, h.ok.table.inodes_self h.slot]

theorem small (h : Directory sb s k) : (file sb s k).length ≤ MAXFILE * BSIZE := by
  rw [file, length_content]
  exact h.ok.fs.small _ (h.ok.alloc h.slot)

theorem whole_file (h : Directory sb s k) : (file sb s k).length % Dirent.size = 0 := h.length ▸ h.whole

theorem count_mul (h : Directory sb s k) : entryCount (file sb s k) * Dirent.size = (file sb s k).length := by
  have hmod := Nat.div_add_mod (file sb s k).length Dirent.size
  rw [h.whole_file, Nat.add_zero, Nat.mul_comm] at hmod
  exact hmod

theorem offsets (h : Directory sb s k) :
    dirOffsets (s.itable k).din.size = (List.range (entryCount (file sb s k))).map (· * Dirent.size) := by
  have hsize : Dirent.size = 16 := rfl
  have hwhole := h.whole
  rw [dirOffsets, entryCount, h.length]
  rw [hsize] at hwhole ⊢
  have hdiv : ((s.itable k).din.size + 16 - 1) / 16 = (s.itable k).din.size / 16 := by omega
  rw [hdiv]

/-- The loop over some entries. -/
theorem scan (hL : sb.Layout) (h : Directory sb s k) (msg : String) (p : Dirent → Bool) (ms : List ℕ)
    (hms : ∀ m ∈ ms, m < entryCount (file sb s k)) :
    dirScan sb k msg p (ms.map (· * Dirent.size)) s =
      .ok ((ms.find? fun m => p (entryAt (file sb s k) m)).map fun m => (m * Dirent.size, entryAt (file sb s k) m), s) := by
  induction ms with
  | nil => rfl
  | cons m ms ih =>
    have hsize : Dirent.size = 16 := rfl
    have hcount := h.count_mul
    have hsmall := h.small
    have hm := hms m (List.mem_cons_self ..)
    have hbig : MAXFILE * BSIZE < 2 ^ 32 := by decide
    have hle : m * Dirent.size + Dirent.size ≤ (file sb s k).length := by
      rw [← hcount, ← Nat.succ_mul]
      exact Nat.mul_le_mul_right _ hm
    have hoff : (UInt32.ofNat (m * Dirent.size)).toNat = m * Dirent.size := by
      rw [UInt32.toNat_ofNat']
      exact Nat.mod_eq_of_lt (by omega)
    have hn : (UInt32.ofNat Dirent.size).toNat = Dirent.size := rfl
    obtain ⟨bytes, hread, hbytes⟩ := readi_bytes hL h.ok h.slot (fun _ => true) 0 (.ofNat (m * Dirent.size))
      (.ofNat Dirent.size) fun _ _ => rfl
    rw [if_neg (by rw [UInt32.lt_iff_toNat_lt, UInt32.toNat_add, hoff, hn]; omega), hoff, hn] at hbytes
    have hlen : bytes.length = Dirent.size := by
      rw [hbytes, List.length_take, List.length_drop]
      show min Dirent.size ((file sb s k).length - _) = _
      omega
    have hentry : Dirent.ofBytes bytes = entryAt (file sb s k) m := by rw [hbytes, entryAt, file]
    rw [List.map_cons, dirScan, hread]
    simp only [ok_bind]
    rw [hlen, if_neg (fun hne => hne rfl), hentry, List.find?_cons]
    cases hp : p (entryAt (file sb s k) m) with
    | true => rfl
    | false =>
      rw [if_neg Bool.false_ne_true]
      exact ih fun a ha => hms a (List.mem_cons_of_mem _ ha)

theorem scan_all (hL : sb.Layout) (h : Directory sb s k) (msg : String) (p : Dirent → Bool) :
    dirScan sb k msg p (dirOffsets (s.itable k).din.size) s =
      .ok (((List.range (entryCount (file sb s k))).find? fun m => p (entryAt (file sb s k) m)).map
        fun m => (m * Dirent.size, entryAt (file sb s k) m), s) := by
  rw [h.offsets]
  exact h.scan hL msg p _ fun m hm => List.mem_range.mp hm

theorem find_name (l : List UInt8) (name : ℕ → UInt8) :
    ((List.range (entryCount l)).find? fun m => decide ((entryAt l m).inum ≠ 0 ∧ namecmp name (entryAt l m).name = 0)) =
      dirFind l (fileName name) := by
  rw [dirFind]
  congr 1
  funext m
  rw [decide_eq_decide, namecmp_eq_zero, eq_comm (a := fileName name)]

/-- **`dirlookup` of a name that is not there.** -/
theorem lookup_none (hL : sb.Layout) (h : Directory sb s k) {name : ℕ → UInt8}
    (hn : dirFind (file sb s k) (fileName name) = none) : dirlookup sb k name s = .ok (none, s) := by
  rw [dirlookup]
  dsimp only
  rw [if_neg (fun hne => hne h.type), h.scan_all hL, find_name, hn]
  rfl

/-- **`dirlookup` of the name of entry `m`.** -/
theorem lookup_some (hL : sb.Layout) (h : Directory sb s k) {name : ℕ → UInt8} {m : ℕ}
    (hm : dirFind (file sb s k) (fileName name) = some m) :
    dirlookup sb k name s = (iget (entryAt (file sb s k) m).inum s).map fun r => (some (r.1, m * Dirent.size), r.2) := by
  rw [dirlookup]
  dsimp only
  rw [if_neg (fun hne => hne h.type), h.scan_all hL, find_name, hm]
  simp only [ok_bind, Option.map_some]
  cases iget (entryAt (file sb s k) m).inum s with
  | error e => rfl
  | ok r => rfl

end Directory

/-! ### dirlink -/

/-- The entry that `dirlink` takes: the first free one, or a new one. -/
def freeEntry (l : List UInt8) : ℕ :=
  ((List.range (entryCount l)).find? fun m => (entryAt l m).inum = 0).getD (entryCount l)

theorem freeEntry_le (l : List UInt8) : freeEntry l ≤ entryCount l := by
  rw [freeEntry]
  cases hf : (List.range (entryCount l)).find? fun m => (entryAt l m).inum = 0 with
  | none => exact Nat.le_refl _
  | some m => exact Nat.le_of_lt (List.mem_range.mp (List.mem_of_find?_eq_some hf))

theorem freeEntry_free {l : List UInt8} (h : freeEntry l < entryCount l) : (entryAt l (freeEntry l)).inum = 0 := by
  rw [freeEntry] at h ⊢
  cases hf : (List.range (entryCount l)).find? fun m => (entryAt l m).inum = 0 with
  | none =>
    rw [hf] at h
    exact absurd h (Nat.lt_irrefl _)
  | some m =>
    have hp := List.find?_some hf
    simp only [decide_eq_true_eq] at hp
    exact hp

theorem written_zero (l : List UInt8) (src : ℕ → Option UInt8) (a off : ℕ) : written l src a off 0 = l := by
  rw [written, List.range_zero, List.map_nil, List.append_nil, Nat.add_zero, List.take_append_drop]

theorem written_entry (l : List UInt8) (m : ℕ) (de : Dirent) :
    written l (fun i => some (de.bytes i)) 0 (m * Dirent.size) Dirent.size = setEntry l m de := by
  rw [written, setEntry, Dirent.toBytes]
  simp only [Nat.zero_add, Option.getD_some]

/-- An entry is written: in full, or not at all for want of a block or because
the file has its greatest size. -/
theorem writei_entry (hL : sb.Layout) (h : Directory sb s k) (de : Dirent) {m : ℕ} (hm : m ≤ entryCount (file sb s k)) :
    ∃ w s', writei sb k (fun i => some (de.bytes i)) 0 (.ofNat (m * Dirent.size)) (.ofNat Dirent.size) s = .ok (w, s') ∧
      (w = some Dirent.size ∧ Edits sb k s s' (setEntry (file sb s k) m de) ∨
        m = entryCount (file sb s k) ∧ w ≠ some Dirent.size ∧ (s' = s ∨ Edits sb k s s' (file sb s k))) := by
  have hsize : Dirent.size = 16 := rfl
  have hblock : BSIZE = 1024 := rfl
  have hbig : MAXFILE * BSIZE < 2 ^ 32 - 16 := by decide
  have hcount := h.count_mul
  have hsmall := h.small
  have hle : m * Dirent.size ≤ (file sb s k).length := mul_le_length hm
  have hoff : (UInt32.ofNat (m * Dirent.size)).toNat = m * Dirent.size := by
    rw [UInt32.toNat_ofNat']
    exact Nat.mod_eq_of_lt (by omega)
  have hn : (UInt32.ofNat Dirent.size).toNat = Dirent.size := rfl
  by_cases hmax : m * Dirent.size + Dirent.size ≤ MAXFILE * BSIZE
  · have hsrc : ∀ j, j < (UInt32.ofNat Dirent.size).toNat → (some (de.bytes (0 + j))).isSome = true := fun _ _ => rfl
    have hstart : (UInt32.ofNat (m * Dirent.size)).toNat ≤ (s.itable k).din.size := by
      rw [hoff, ← h.length]
      exact hle
    have hend : (UInt32.ofNat (m * Dirent.size)).toNat + (UInt32.ofNat Dirent.size).toNat ≤ MAXFILE * BSIZE := by
      rw [hoff, hn]
      exact hmax
    obtain ⟨tot, s', hw, htot, hedits⟩ := writei_block hL h.ok h.slot (fun i => some (de.bytes i)) 0 hsrc hstart hend
      (by rw [hoff, hn, hsize, hblock]; omega)
    rw [hn] at htot
    rw [hoff] at hedits
    refine ⟨some tot, s', hw, ?_⟩
    rcases htot with htot | htot
    · rw [htot, written_zero] at hedits
      refine Or.inr ⟨?_, by rw [htot]; decide, Or.inr hedits⟩
      -- inside the file there is a block
      by_contra hne
      have hlt : m + 1 ≤ entryCount (file sb s k) := by omega
      have hin : m * Dirent.size + Dirent.size ≤ (s.itable k).din.size := by
        rw [← h.length, ← hcount, ← Nat.succ_mul]
        exact Nat.mul_le_mul_right _ hlt
      obtain ⟨tot', s1, hw', -, -, hfull, -⟩ := writei_edits hL h.ok h.slot (fun i => some (de.bytes i)) 0 hsrc hstart hend
      rw [hoff, hn] at hfull
      have hall := hfull (enough_of_le h.ok h.slot hin)
      have heq := (Prod.mk.inj (Except.ok.inj (hw.symm.trans hw'))).1
      rw [Option.some.injEq] at heq
      omega
    · rw [htot, written_entry] at hedits
      exact Or.inl ⟨by rw [htot], hedits⟩
  · have hsum : (UInt32.ofNat (m * Dirent.size) + UInt32.ofNat Dirent.size).toNat = m * Dirent.size + Dirent.size := by
      rw [UInt32.toNat_add, hoff, hn]
      exact Nat.mod_eq_of_lt (by omega)
    refine ⟨none, s, ?_, Or.inr ⟨?_, by decide, Or.inl rfl⟩⟩
    · rw [writei, if_neg, if_pos (by rw [hsum]; omega)]
      rw [not_or, UInt32.lt_iff_toNat_lt, hsum, hoff, ← h.length]
      omega
    · by_contra hne
      have hlt : m + 1 ≤ entryCount (file sb s k) := by omega
      have hin := Nat.mul_le_mul_right Dirent.size hlt
      rw [hcount, Nat.succ_mul] at hin
      omega

theorem Edits.file_eq {l : List UInt8} (h : Edits sb k s s' l) : file sb s' k = l := by
  rw [file, h.inum]
  exact h.content

theorem Edits.directory {l : List UInt8} (h : Edits sb k s s' l) (hd : Directory sb s k) (hl : l.length % Dirent.size = 0) :
    Directory sb s' k where
  ok := h.ok
  slot := (h.valid_iff k).mpr hd.slot
  type := by
    obtain ⟨f, z, hown⟩ := h.own_slot
    rw [hown]
    exact hd.type
  whole := by rwa [h.size hd.slot]

namespace Directory

/-- **`dirlink` of a name that is not there.** -/
theorem link_none (hL : sb.Layout) (h : Directory sb s k) {name : ℕ → UInt8}
    (hn : dirFind (file sb s k) (fileName name) = none) (inum : ℕ) :
    ∃ b s', dirlink sb k name inum s = .ok (b, s') ∧
      (b = true ∧ Edits sb k s s' (setEntry (file sb s k) (freeEntry (file sb s k)) ⟨inum, strncpy name⟩) ∨
        b = false ∧ (s' = s ∨ Edits sb k s s' (file sb s k))) := by
  obtain ⟨w, s', hw, hcases⟩ := writei_entry hL h ⟨inum, strncpy name⟩ (freeEntry_le (file sb s k))
  refine ⟨decide (w = some Dirent.size), s', ?_, ?_⟩
  · rw [dirlink, h.lookup_none hL hn]
    simp only [ok_bind]
    rw [h.scan_all hL]
    simp only [ok_bind]
    rw [freeEntry] at hw
    cases hf : (List.range (entryCount (file sb s k))).find? fun m => decide ((entryAt (file sb s k) m).inum = 0) with
    | some m =>
      rw [hf] at hw
      simp only [Option.map_some]
      rw [Option.getD_some] at hw
      rw [hw]
      rfl
    | none =>
      rw [hf] at hw
      simp only [Option.map_none]
      rw [Option.getD_none] at hw
      rw [h.offsets, List.length_map, List.length_range, hw]
      rfl
  · rcases hcases with ⟨hall, hedits⟩ | ⟨-, hne, hrest⟩
    · exact Or.inl ⟨decide_eq_true hall, hedits⟩
    · exact Or.inr ⟨decide_eq_false hne, hrest⟩

/-- **`dirlink` of a name that is there.** -/
theorem link_some (hL : sb.Layout) (h : Directory sb s k) {name : ℕ → UInt8} {m : ℕ}
    (hm : dirFind (file sb s k) (fileName name) = some m) (inum : ℕ) :
    dirlink sb k name inum s = (iget (entryAt (file sb s k) m).inum s).map fun r => (false, decRef r.1 r.2) := by
  rw [dirlink, h.lookup_some hL hm]
  cases hg : iget (entryAt (file sb s k) m).inum s with
  | error e => rfl
  | ok r =>
    have hput := ((iget_got hg).iput sb).1
    show (do let s ← iput sb r.1 r.2; Except.ok (false, s)) = _
    rw [hput]
    rfl

end Directory

/-! ### The map -/

/-- The entry that `sys_unlink` writes. -/
def Dirent.zero : Dirent := ⟨0, fun _ => 0⟩

/-- A free entry gets a name that is not there. -/
theorem distinct_link {l : List UInt8} (hl : l.length % Dirent.size = 0) (hd : Distinct l) {name : ℕ → UInt8} {inum : ℕ}
    (hn : dirMap l (fileName name) = none) (h0 : 0 < inum) (hlt : inum < 2 ^ 16) :
    Distinct (setEntry l (freeEntry l) ⟨inum, strncpy name⟩) ∧
      dirMap (setEntry l (freeEntry l) ⟨inum, strncpy name⟩) = Function.update (dirMap l) (fileName name) (some inum) := by
  have hnew := oneNew_setEntry hl (freeEntry_le l) ⟨inum, strncpy name⟩
  obtain ⟨hinum, hname⟩ := ofBytes_toBytes ⟨inum, strncpy name⟩ hlt
  rw [← entryAt_setEntry_self (freeEntry_le l)] at hinum hname
  have hname' := hname.trans (fileName_strncpy name)
  have hadd := hnew.add hd freeEntry_free (by rw [hname']; exact hn) (by rw [hinum]; exact Nat.ne_of_gt h0)
  rw [hname', hinum] at hadd
  exact hadd

/-- The entry of a name is overwritten with zeros. -/
theorem distinct_unlink {l : List UInt8} (hl : l.length % Dirent.size = 0) (hd : Distinct l) {nm : List UInt8} {m : ℕ}
    (hm : dirFind l nm = some m) :
    Distinct (setEntry l m .zero) ∧ dirMap (setEntry l m .zero) = Function.update (dirMap l) nm none := by
  obtain ⟨hlt, hlive, hname⟩ := dirFind_some hm
  have hnew := oneNew_setEntry hl (Nat.le_of_lt hlt) .zero
  have hdead := (ofBytes_toBytes .zero (by decide)).1
  rw [← entryAt_setEntry_self (Nat.le_of_lt hlt)] at hdead
  have hrem := hnew.remove hd hlt hlive hdead
  rwa [hname] at hrem

theorem length_setEntry_mod {l : List UInt8} (hl : l.length % Dirent.size = 0) {m : ℕ} (hm : m ≤ entryCount l) (de : Dirent) :
    (setEntry l m de).length % Dirent.size = 0 := by
  rw [length_setEntry hl hm]
  exact Nat.mul_mod_left ..

/-- `iget` changes no directory. -/
theorem Got.directory {i j : ℕ} (h : Got i s j s') (hd : Directory sb s k) : Directory sb s' k ∧ file sb s' k = file sb s k := by
  obtain ⟨hinum, hvalid, hdin, href⟩ := h.live hd.slot.ref
  refine ⟨⟨h.fsOk hd.ok, ⟨hd.slot.lt, href, hvalid.trans hd.slot.valid⟩, hdin ▸ hd.type, hdin ▸ hd.whole⟩, ?_⟩
  rw [file, file, hinum, h.content]

/-- **A directory is a finite map from names to inode numbers.** A name that is
not there is not found, and can be added unless the file cannot grow; one that is
there is found and cannot be added, and its entry can be cleared. `iget`, which
`dirlookup` ends with, panics if the inode table is full. -/
theorem directories_are_maps (hL : sb.Layout) (hd : Directory sb s k) (hdist : Distinct (file sb s k)) (name : ℕ → UInt8)
    {inum : ℕ} (h0 : 0 < inum) (hlt : inum < 2 ^ 16) :
    (dirMap (file sb s k) (fileName name) = none →
      dirlookup sb k name s = .ok (none, s) ∧
      ∃ b s', dirlink sb k name inum s = .ok (b, s') ∧ Directory sb s' k ∧ Distinct (file sb s' k) ∧
        dirMap (file sb s' k) =
          if b then Function.update (dirMap (file sb s k)) (fileName name) (some inum) else dirMap (file sb s k)) ∧
    ∀ t, dirMap (file sb s k) (fileName name) = some t →
      ∃ m, m < entryCount (file sb s k) ∧ (entryAt (file sb s k) m).inum = t ∧
        fileName (entryAt (file sb s k) m).name = fileName name ∧
        dirlookup sb k name s = ((iget t s).map fun r => (some (r.1, m * Dirent.size), r.2)) ∧
        dirlink sb k name inum s = ((iget t s).map fun r => (false, decRef r.1 r.2)) ∧
        ((∃ j s1, iget t s = .ok (j, s1) ∧ (s1.itable j).inum = t ∧ Directory sb s1 k ∧ file sb s1 k = file sb s k ∧
            Unmoved s (decRef j s1)) ∨
          (iget t s = .error (.panic "iget: no inodes") ∧ TableFull t s)) ∧
        ∀ s1, Directory sb s1 k → file sb s1 k = file sb s k →
          ∃ s', writei sb k (fun i => some (Dirent.zero.bytes i)) 0 (.ofNat (m * Dirent.size)) (.ofNat Dirent.size) s1 =
              .ok (some Dirent.size, s') ∧
            Directory sb s' k ∧ Distinct (file sb s' k) ∧
            dirMap (file sb s' k) = Function.update (dirMap (file sb s k)) (fileName name) none := by
  constructor
  · intro hn
    have hfind : dirFind (file sb s k) (fileName name) = none := Option.map_eq_none_iff.mp hn
    refine ⟨hd.lookup_none hL hfind, ?_⟩
    obtain ⟨b, s', hlink, hcases⟩ := hd.link_none hL hfind inum
    refine ⟨b, s', hlink, ?_⟩
    rcases hcases with ⟨rfl, hedits⟩ | ⟨rfl, rfl | hedits⟩
    · rw [hedits.file_eq, if_pos rfl]
      exact ⟨hedits.directory hd (length_setEntry_mod hd.whole_file (freeEntry_le _) _),
        distinct_link hd.whole_file hdist hn h0 hlt⟩
    · exact ⟨hd, hdist, rfl⟩
    · rw [hedits.file_eq]
      exact ⟨hedits.directory hd hd.whole_file, hdist, rfl⟩
  · intro t ht
    obtain ⟨m, hm, rfl⟩ := Option.map_eq_some_iff.mp ht
    obtain ⟨hmlt, -, hname⟩ := dirFind_some hm
    refine ⟨m, hmlt, rfl, hname, hd.lookup_some hL hm, hd.link_some hL hm inum, ?_, fun s1 hd1 hfile => ?_⟩
    · rcases iget_cases (entryAt (file sb s k) m).inum s with ⟨j, s1, hr, hg⟩ | hfull
      · obtain ⟨hd1, hfile⟩ := hg.directory hd
        exact Or.inl ⟨j, s1, hr, hg.inum, hd1, hfile, (hg.iput sb).2⟩
      · exact Or.inr hfull
    · rw [← hfile] at hm hmlt hdist ⊢
      obtain ⟨w, s', hw, ⟨rfl, hedits⟩ | ⟨hend, -⟩⟩ := writei_entry hL hd1 .zero (Nat.le_of_lt hmlt)
      · refine ⟨s', hw, hedits.directory hd1 (length_setEntry_mod hd1.whole_file (Nat.le_of_lt hmlt) _), ?_⟩
        rw [hedits.file_eq]
        exact distinct_unlink hd1.whole_file hdist hm
      · omega

/-- A directory with one entry. -/
def oneEntry : List Call :=
  [.ialloc 1, .ilock 0, .setFields 0 0 0 1, .iupdate 0, .dirlink 0 (cstr (chars ['.'])) 1]

/-- What `directories_are_maps` asks for before `dirlink` of another name. -/
def ReadyToLink (s : Sys) : Prop :=
  Held s 0 ∧ (s.itable 0).din.type = T_DIR ∧ (s.itable 0).din.size % Dirent.size = 0 ∧ entryCount (file smallSuper s 0) = 1 ∧
    dirMap (file smallSuper s 0) [97] = none

instance (s : Sys) : Decidable (ReadyToLink s) := inferInstanceAs (Decidable (_ ∧ _ ∧ _ ∧ _ ∧ _))

theorem directories_are_maps_entry : ∃ s, Directory smallSuper s 0 ∧ Distinct (file smallSuper s 0) ∧
    ∃ b s', dirlink smallSuper 0 (cstr (chars ['a'])) 2 s = .ok (b, s') ∧ Distinct (file smallSuper s' 0) ∧
      dirMap (file smallSuper s' 0) =
        if b then Function.update (dirMap (file smallSuper s 0)) [97] (some 2) else dirMap (file smallSuper s 0) := by
  obtain ⟨⟨s, t⟩, hr, h⟩ := okWith_iff.mp
    (show okWith (run (call smallSuper) emptyFs oneEntry) (fun r => ReadyToLink r.1) = true by decide +kernel)
  obtain ⟨hheld, htype, hwhole, hone, hnone⟩ := of_decide_eq_true h
  have hd : Directory smallSuper s 0 := ⟨run_ok smallSuper_layout emptyFs_ok hr, hheld.toValid, htype, hwhole⟩
  have hdist : Distinct (file smallSuper s 0) := by
    intro m m' hm hm' _ _ _
    dsimp only at hone
    omega
  have hname : fileName (cstr (chars ['a'])) = [97] := by decide
  have h0 : 0 < 2 := by decide
  obtain ⟨-, b, s', hlink, -, hdist', hmap⟩ :=
    (directories_are_maps smallSuper_layout hd hdist (cstr (chars ['a'])) h0 (by decide)).1 (hname ▸ hnone)
  rw [hname] at hmap
  exact ⟨s, hd, hdist, b, s', hlink, hdist', hmap⟩

end Fs
end Xv6
