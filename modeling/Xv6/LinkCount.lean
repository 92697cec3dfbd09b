/-
# Link counts

`sys_link` and `sys_unlink` of `kernel/sysfile.c` on the names of one inode that
is not a directory. `nlink` is a `short` that `sys_link` increments without a
check, and the number of entries that name the inode is limited only by the
directories (`MAXFILE * BSIZE / 16` entries each) and by the blocks of the disk.

A directory is the list of its entries, as `readi` and `writei` see it; the
directories do not change otherwise, and a path is given by the directory and
the name it ends in. Entries are written from kernel memory, so a write stops
short only for want of blocks: a data block for every 64 entries, and the
indirect block once.

* `link_counts`: while no call links an inode that has 32767 names, `nlink` is
  the number of names, no call panics, and the inode is freed only when it has
  no name left.
* `link_counts_wrap`: a run of 32767 links after which `nlink` is -32768.

Key definitions: `LinkCount.step`, `LinkCount.names`, `LinkCount.Fits`.
-/
import Mathlib.Algebra.BigOperators.Group.Finset.Basic
import Mathlib.Algebra.BigOperators.Fin
import Xv6.FsDisk
import Xv6.Trace

namespace Xv6
namespace LinkCount

open TraceSys Fs

/-- A file name, without the NULs that pad it to `DIRSIZ`. -/
abbrev Name := List UInt8

/-- `struct dirent`; a free entry has inode number 0. -/
structure Dirent where
  inum : ℕ
  name : Name
  deriving DecidableEq

/-- The entries of a directory, and whether it has its indirect block. -/
structure Dir where
  ents : List Dirent
  ind : Bool

/-- `n` directories and one inode. `ref` counts the references that no call in
progress holds. -/
structure Sys (n : ℕ) where
  dirs : Fin n → Dir
  /-- The free blocks of the disk. -/
  free : ℕ
  type : ℕ
  nlink : Int16
  ref : ℕ

/-- Entries per block: `sizeof(struct dirent)` is 16. -/
def EPB : ℕ := BSIZE / 16

variable {n : ℕ}

def Sys.setDir (s : Sys n) (d : Fin n) (dir : Dir) : Sys n := { s with dirs := Function.update s.dirs d dir }

/-- `dirlookup`: the place of the entry of that name. -/
def Dir.lookup (dir : Dir) (name : Name) : Option ℕ := dir.ents.findIdx? fun e => e.inum ≠ 0 ∧ e.name = name

/-- The inode number of entry `k`. -/
def Dir.inum (dir : Dir) (k : ℕ) : ℕ := (dir.ents[k]?.map Dirent.inum).getD 0

/-- `writei` of an entry at the end of the directory, with `free` free blocks:
whether all of it was written, the directory and the free blocks. -/
def Dir.append (dir : Dir) (e : Dirent) (free : ℕ) : Bool × Dir × ℕ :=
  let len := dir.ents.length
  if MAXFILE * BSIZE < (len + 1) * 16 then (false, dir, free)
  else
    let needInd := NDIRECT ≤ len / EPB ∧ dir.ind = false
    if needInd ∧ free = 0 then (false, dir, free)
    else
      let ind := if needInd then true else dir.ind
      let free := if needInd then free - 1 else free
      if len % EPB = 0 then
        if free = 0 then (false, ⟨dir.ents, ind⟩, free) else (true, ⟨dir.ents ++ [e], ind⟩, free - 1)
      else (true, ⟨dir.ents ++ [e], ind⟩, free)

/-- Whether the entry was made. -/
def dirlink (d : Fin n) (name : Name) (inum : ℕ) (s : Sys n) : Bool × Sys n :=
  match (s.dirs d).lookup name with
  | some _ => (false, s)
  | none =>
    match (s.dirs d).ents.findIdx? fun e => e.inum = 0 with
    | some k => (true, s.setDir d ⟨(s.dirs d).ents.set k ⟨inum, name⟩, (s.dirs d).ind⟩)
    | none =>
      let r := (s.dirs d).append ⟨inum, name⟩ s.free
      (r.1, { s.setDir d r.2.1 with free := r.2.2 })

/-- `iput` by a call: the inode is freed if nobody else refers to it and it has no links. -/
def iput (s : Sys n) : Sys n := if s.ref = 0 ∧ s.nlink = 0 then { s with type := 0 } else s

/-- A path whose last component is to be looked up in a directory; none if a
component before it is missing. -/
abbrev Path (n : ℕ) := Option (Fin n × Name)

def namei (path : Path n) (s : Sys n) : Option ℕ :=
  path.bind fun p => ((s.dirs p.1).lookup p.2).map (s.dirs p.1).inum

/-- The label `bad` of `sys_link`. -/
def linkBad (s : Sys n) : Bool × Sys n := (false, iput { s with nlink := s.nlink - 1 })

/-- `link(old, new)` of the inode `i`. A call on another inode is none of this
system. -/
def sysLink (i : ℕ) (old new : Path n) (s : Sys n) : Except Stop (Bool × Sys n) :=
  match namei old s with
  | none => .ok (false, s)
  | some inum =>
    if inum ≠ i then .error .blocked
    else if s.type = 0 then .error (.panic "ilock: no type")
    else if s.type = T_DIR then .ok (false, iput s)
    else
      let s := { s with nlink := s.nlink + 1 }
      match new with
      | none => .ok (linkBad s)
      | some (d, name) =>
        let r := dirlink d name i s
        if r.1 then .ok (true, iput r.2) else .ok (linkBad r.2)

/-- `unlink(path)` of a name of the inode `i`, which is not a directory. -/
def sysUnlink (i : ℕ) (path : Path n) (s : Sys n) : Except Stop (Bool × Sys n) :=
  match path with
  | none => .ok (false, s)
  | some (d, name) =>
    if name = chars ['.'] ∨ name = chars ['.', '.'] then .ok (false, s)
    else
      match (s.dirs d).lookup name with
      | none => .ok (false, s)
      | some k =>
        if (s.dirs d).inum k ≠ i ∨ s.type = T_DIR then .error .blocked
        else if s.type = 0 then .error (.panic "ilock: no type")
        else if s.nlink < 1 then .error (.panic "unlink: nlink < 1")
        else
          let s := s.setDir d ⟨(s.dirs d).ents.set k ⟨0, []⟩, (s.dirs d).ind⟩
          .ok (true, iput { s with nlink := s.nlink - 1 })

/-- `hold` and `drop`: a process opens the file by a name, or closes it. -/
inductive Call (n : ℕ)
  | link (old new : Path n)
  | unlink (path : Path n)
  | hold (path : Path n)
  | drop

def step (i : ℕ) (s : Sys n) : Call n → Except Stop (Sys n × List Bool)
  | .link old new => do
    let (r, s) ← sysLink i old new s
    .ok (s, [r])
  | .unlink path => do
    let (r, s) ← sysUnlink i path s
    .ok (s, [r])
  | .hold path =>
    if namei path s = some i then .ok ({ s with ref := s.ref + 1 }, [true]) else .error .blocked
  | .drop => if s.ref = 0 then .error .blocked else .ok (iput { s with ref := s.ref - 1 }, [true])

/-- The number of directory entries that name the inode `i`. -/
def names (i : ℕ) (s : Sys n) : ℕ := ∑ d, (s.dirs d).ents.countP fun e => e.inum = i

/-- The call would make an entry for the inode. -/
def Adds (i : ℕ) (s : Sys n) : Call n → Prop
  | .link old (some (d, name)) => namei old s = some i ∧ (dirlink d name i s).1 = true
  | _ => False

/-- The call makes no entry beyond the 32767th. -/
def Fits (i : ℕ) (s : Sys n) (c : Call n) : Prop := Adds i s c → names i s < 32767

/-- What the calls keep: the inode is no directory, `nlink` counts its names, and
it is free only when it has none. -/
structure Inv (i : ℕ) (s : Sys n) : Prop where
  type : s.type ≠ T_DIR
  nlink : s.nlink.toInt = names i s
  free : s.type = 0 → names i s = 0

/-! ### Entries -/

variable {i : ℕ} {s s' : Sys n}

theorem names_setDir (d : Fin n) (dir : Dir) :
    names i (s.setDir d dir) + (s.dirs d).ents.countP (fun e => e.inum = i) =
      names i s + dir.ents.countP fun e => e.inum = i := by
  unfold names Sys.setDir
  rw [← Finset.add_sum_erase _ _ (Finset.mem_univ d), ← Finset.add_sum_erase Finset.univ _ (Finset.mem_univ d)]
  have hrest : ∑ x ∈ Finset.univ.erase d, (Function.update s.dirs d dir x).ents.countP (fun e => e.inum = i) =
      ∑ x ∈ Finset.univ.erase d, (s.dirs x).ents.countP fun e => e.inum = i := by
    refine Finset.sum_congr rfl fun x hx => ?_
    rw [Function.update_of_ne (Finset.ne_of_mem_erase hx)]
  rw [hrest]
  simp only [Function.update_self]
  omega

/-- What an entry made by `append` adds. -/
theorem append_ents (dir : Dir) (e : Dirent) (free : ℕ) :
    (dir.append e free).2.1.ents = if (dir.append e free).1 then dir.ents ++ [e] else dir.ents := by
  unfold Dir.append
  simp only
  split
  · rfl
  · split
    · rfl
    · split
      · split <;> split <;> rfl
      · rfl

/-- `dirlink` makes one entry or none, and leaves the inode alone. -/
theorem dirlink_spec (hi : i ≠ 0) (d : Fin n) (name : Name) (s : Sys n) :
    names i (dirlink d name i s).2 = names i s + (if (dirlink d name i s).1 then 1 else 0) ∧
      (dirlink d name i s).2.type = s.type ∧ (dirlink d name i s).2.nlink = s.nlink ∧
      (dirlink d name i s).2.ref = s.ref := by
  unfold dirlink
  split
  · exact ⟨rfl, rfl, rfl, rfl⟩
  · split
    · next k hk =>
      refine ⟨?_, rfl, rfl, rfl⟩
      obtain ⟨hlt, hp, -⟩ := List.findIdx?_eq_some_iff_getElem.mp hk
      have h0 : (s.dirs d).ents[k].inum ≠ i := fun he => hi (he.symm.trans (of_decide_eq_true hp))
      have h1 := names_setDir (i := i) (s := s) d ⟨(s.dirs d).ents.set k ⟨i, name⟩, (s.dirs d).ind⟩
      rw [List.countP_set hlt] at h1
      simp only [h0, decide_false, decide_true, if_true, Bool.false_eq_true, if_false, Nat.sub_zero] at h1 ⊢
      omega
    · refine ⟨?_, rfl, rfl, rfl⟩
      have h1 := names_setDir (i := i) (s := s) d ((s.dirs d).append ⟨i, name⟩ s.free).2.1
      rw [append_ents] at h1
      change names i (s.setDir d ((s.dirs d).append ⟨i, name⟩ s.free).2.1) = _
      split at h1
      · next hok =>
        simp only [hok, if_true]
        rw [List.countP_append, List.countP_singleton] at h1
        simp only [decide_true, if_true] at h1
        omega
      · next hok =>
        simp only [hok, Bool.false_eq_true, if_false]
        omega

/-- Whether an entry can be made does not depend on the count. -/
theorem dirlink_nlink (d : Fin n) (name : Name) (s : Sys n) (x : Int16) :
    (dirlink d name i { s with nlink := x }).1 = (dirlink d name i s).1 := by
  rcases h1 : (s.dirs d).lookup name with _ | k
  · rcases h2 : (s.dirs d).ents.findIdx? fun e => e.inum = 0 with _ | k
    · simp only [dirlink, h1, h2]
    · simp only [dirlink, h1, h2]
  · simp only [dirlink, h1]

/-- An entry that names the inode is cleared. -/
theorem names_clear (hi : i ≠ 0) {d : Fin n} {name : Name} {k : ℕ} {b : Bool}
    (hk : (s.dirs d).lookup name = some k) (hinum : (s.dirs d).inum k = i) :
    names i (s.setDir d ⟨(s.dirs d).ents.set k ⟨0, []⟩, b⟩) + 1 = names i s := by
  obtain ⟨hlt, -, -⟩ := List.findIdx?_eq_some_iff_getElem.mp hk
  have hin : (s.dirs d).ents[k].inum = i := by
    rwa [Dir.inum, List.getElem?_eq_getElem hlt] at hinum
  have hpos : 0 < (s.dirs d).ents.countP fun e => e.inum = i :=
    List.countP_pos_iff.mpr ⟨_, List.getElem_mem hlt, by simpa using hin⟩
  have h1 := names_setDir (i := i) (s := s) d ⟨(s.dirs d).ents.set k ⟨0, []⟩, b⟩
  rw [List.countP_set hlt] at h1
  simp only [hin, decide_true, if_true, Ne.symm hi, decide_false, Bool.false_eq_true, if_false,
    Nat.add_zero] at h1
  omega

/-! ### Calls -/

theorem names_iput (i : ℕ) (s : Sys n) : names i (iput s) = names i s := by
  unfold iput
  split <;> rfl

/-- `iput` frees the inode only if `nlink` is 0. -/
theorem Inv.iput (ht : s.type ≠ T_DIR) (h0 : s.type ≠ 0) (hn : s.nlink.toInt = names i s) :
    Inv i (LinkCount.iput s) := by
  unfold LinkCount.iput
  split
  · next hc =>
    refine ⟨show (0 : ℕ) ≠ T_DIR by decide, hn, fun _ => ?_⟩
    rw [hc.2] at hn
    change names i s = 0
    have : (0 : Int16).toInt = 0 := rfl
    omega
  · exact ⟨ht, hn, fun h => absurd h h0⟩

theorem nlink_succ {x : Int16} {m : ℕ} (h : x.toInt = m) (hm : m < 32767) : (x + 1).toInt = (m + 1 : ℕ) := by
  rw [Int16.toInt_add, h]
  have h1 : (1 : Int16).toInt = 1 := rfl
  rw [h1, Int.bmod_eq_of_le (by omega) (by omega)]
  rfl

theorem nlink_pred {x : Int16} {m : ℕ} (h : x.toInt = (m + 1 : ℕ)) : (x - 1).toInt = m := by
  have h2 := x.toInt_lt
  rw [Int16.toInt_sub, h]
  have h1 : (1 : Int16).toInt = 1 := rfl
  rw [h1, Int.bmod_eq_of_le (by omega) (by omega)]
  omega

/-- A link that fails gives back what it counted, also after a wrap. -/
theorem nlink_back (x : Int16) : x + 1 - 1 = x := by
  rw [Int16.sub_eq_add_neg, Int16.add_assoc, Int16.add_right_neg, Int16.add_zero]

/-- A name that is found is a name. -/
theorem names_pos_of_namei (hi : i ≠ 0) {path : Path n} (h : namei path s = some i) : 0 < names i s := by
  obtain ⟨⟨d, name⟩, -, hp⟩ := Option.bind_eq_some_iff.mp h
  obtain ⟨k, hk, hin⟩ := Option.map_eq_some_iff.mp hp
  have := names_clear (b := true) hi hk hin
  omega

/-- What `link` does to an inode that is counted right. -/
theorem sysLink_spec (hi : i ≠ 0) (h : Inv i s) (old new : Path n) (hf : Fits i s (.link old new)) :
    sysLink i old new s = .error .blocked ∨ ∃ r s', sysLink i old new s = .ok (r, s') ∧ Inv i s' := by
  unfold sysLink
  split
  · exact .inr ⟨_, _, rfl, h⟩
  · next inum hnm =>
    by_cases hin : inum ≠ i
    · exact .inl (if_pos hin)
    · rw [not_not] at hin
      subst hin
      have hpos := names_pos_of_namei hi hnm
      have h0 : s.type ≠ 0 := fun h0 => by
        have := h.free h0
        omega
      simp only [ne_eq, not_true_eq_false, if_false, h0, h.type]
      right
      cases new with
      | none =>
        refine ⟨_, _, rfl, .iput h.type h0 ?_⟩
        change (s.nlink + 1 - 1).toInt = _
        rw [nlink_back]
        exact h.nlink
      | some p =>
        obtain ⟨d, name⟩ := p
        -- the entry is made in the directories; the count does not matter for it
        obtain ⟨hn, ht, hl, hr⟩ := dirlink_spec hi d name { s with nlink := s.nlink + 1 }
        simp only at ht hl hr ⊢
        by_cases hok : (dirlink d name inum { s with nlink := s.nlink + 1 }).1 = true
        · rw [if_pos hok]
          rw [if_pos hok] at hn
          have hlt : names inum s < 32767 := hf ⟨hnm, by rwa [dirlink_nlink] at hok⟩
          refine ⟨_, _, rfl, .iput (by rw [ht]; exact h.type) (by rw [ht]; exact h0) ?_⟩
          rw [hl, hn]
          exact nlink_succ h.nlink hlt
        · rw [if_neg hok]
          rw [if_neg hok] at hn
          refine ⟨_, _, rfl, .iput (by change (dirlink d name inum _).2.type ≠ _; rw [ht]; exact h.type)
            (by change (dirlink d name inum _).2.type ≠ _; rw [ht]; exact h0) ?_⟩
          change ((dirlink d name inum { s with nlink := s.nlink + 1 }).2.nlink - 1).toInt =
            names inum (dirlink d name inum { s with nlink := s.nlink + 1 }).2
          rw [hl, hn, nlink_back]
          exact h.nlink

theorem sysUnlink_spec (hi : i ≠ 0) (h : Inv i s) (path : Path n) :
    sysUnlink i path s = .error .blocked ∨ ∃ r s', sysUnlink i path s = .ok (r, s') ∧ Inv i s' := by
  cases path with
  | none => exact .inr ⟨_, _, rfl, h⟩
  | some p =>
    obtain ⟨d, name⟩ := p
    simp only [sysUnlink]
    by_cases hdot : name = chars ['.'] ∨ name = chars ['.', '.']
    · exact .inr ⟨_, _, if_pos hdot, h⟩
    · rw [if_neg hdot]
      rcases hk : (s.dirs d).lookup name with _ | k
      · exact .inr ⟨_, _, rfl, h⟩
      · by_cases hin : (s.dirs d).inum k ≠ i ∨ s.type = T_DIR
        · exact .inl (if_pos hin)
        · simp only [if_neg hin]
          rw [not_or, not_not] at hin
          have hclear := names_clear (b := (s.dirs d).ind) hi hk hin.1
          have hn := h.nlink
          have h0 : s.type ≠ 0 := fun h0 => by
            have := h.free h0
            omega
          have h1 : ¬ s.nlink < 1 := by
            rw [Int16.lt_iff_toInt_lt, hn]
            have : (1 : Int16).toInt = 1 := rfl
            omega
          rw [if_neg h0, if_neg h1]
          refine .inr ⟨_, _, rfl, .iput h.type h0 (nlink_pred ?_)⟩
          rw [← hclear] at hn
          exact hn

/-- One call under the condition keeps the count, and does not panic. -/
theorem inv_step (hi : i ≠ 0) (h : Inv i s) {c : Call n} (hf : Fits i s c) :
    step i s c = .error .blocked ∨ ∃ s' t, step i s c = .ok (s', t) ∧ Inv i s' := by
  cases c with
  | link old new =>
    rcases sysLink_spec hi h old new hf with hb | ⟨r, s', hr, hs⟩
    · exact .inl (by rw [step, hb]; rfl)
    · exact .inr ⟨s', [r], by rw [step, hr]; rfl, hs⟩
  | unlink path =>
    rcases sysUnlink_spec hi h path with hb | ⟨r, s', hr, hs⟩
    · exact .inl (by rw [step, hb]; rfl)
    · exact .inr ⟨s', [r], by rw [step, hr]; rfl, hs⟩
  | hold path =>
    by_cases hp : namei path s = some i
    · exact .inr ⟨_, _, if_pos hp, h.type, h.nlink, h.free⟩
    · exact .inl (if_neg hp)
  | drop =>
    by_cases hr : s.ref = 0
    · exact .inl (if_pos hr)
    · refine .inr ⟨_, _, if_neg hr, ?_⟩
      by_cases h0 : s.type = 0
      · -- an inode that is free stays free
        have hn := h.free h0
        unfold LinkCount.iput
        split
        · exact ⟨show (0 : ℕ) ≠ T_DIR by decide, h.nlink, fun _ => hn⟩
        · exact ⟨h.type, h.nlink, fun _ => hn⟩
      · exact .iput h.type h0 h.nlink

/-- A call that makes a 32768th name turns the count over. -/
theorem link_wraps (hi : i ≠ 0) (h : Inv i s) {old : Path n} {d : Fin n} {name : Name}
    (ha : Adds i s (.link old (some (d, name)))) (hn : names i s = 32767) :
    ∃ s', step i s (.link old (some (d, name))) = .ok (s', [true]) ∧ names i s' = 32768 ∧
      s'.nlink.toInt = -32768 := by
  obtain ⟨hnm, hok⟩ := ha
  have h0 : s.type ≠ 0 := fun h0 => by
    have := h.free h0
    omega
  obtain ⟨hcount, -, hl, -⟩ := dirlink_spec hi d name { s with nlink := s.nlink + 1 }
  rw [← dirlink_nlink d name s (s.nlink + 1)] at hok
  rw [if_pos hok] at hcount
  refine ⟨iput (dirlink d name i { s with nlink := s.nlink + 1 }).2, ?_, ?_, ?_⟩
  · simp only [step, sysLink, hnm, ne_eq, not_true_eq_false, if_false, h0, h.type, hok, if_true]
    rfl
  · rw [names_iput, hcount]
    change names i s + 1 = _
    omega
  · have hput : ∀ s : Sys n, (iput s).nlink = s.nlink := fun s => by
      unfold iput
      split <;> rfl
    have hx := h.nlink
    rw [hn] at hx
    obtain hx : s.nlink = 32767 := Int16.toInt_inj.mp hx
    rw [hput, hl]
    simp only [hx]
    rfl

/-- **Link counts.** Let `nlink` count the names of an inode that is not a
directory. In every sequence of calls of which none makes a 32768th name for
it, `nlink` is the number of its names after every call, the inode is free only
when it has no name, and no call panics; and a call that makes one leaves
`nlink` wrong. -/
theorem link_counts (hi : i ≠ 0) (s0 : Sys n) (h0 : Inv i s0) (cs : List (Call n))
    (hm : Meets (step i) (Fits i) s0 cs) :
    (∀ s t, run (step i) s0 cs = .ok (s, t) →
      s.nlink.toInt = names i s ∧ (s.type = 0 → names i s = 0)) ∧
    (∀ msg, run (step i) s0 cs ≠ .error (.panic msg)) ∧
    ∀ (s : Sys n) (c : Call n), Inv i s → ¬ Fits i s c →
      ∃ s' t, step i s c = .ok (s', t) ∧ s'.nlink.toInt ≠ names i s' := by
  have hexact : ∀ (s : Sys n) (c : Call n), Inv i s → ¬ Fits i s c →
      ∃ s' t, step i s c = .ok (s', t) ∧ s'.nlink.toInt ≠ names i s' := by
    intro s c hs hf
    obtain ⟨ha, hn⟩ := Classical.not_imp.mp hf
    have hmax := s.nlink.toInt_lt
    rw [hs.nlink] at hmax
    rcases c with ⟨old, _ | ⟨d, name⟩⟩ | _ | _ | _
    · exact ha.elim
    · obtain ⟨s', hr, h1, h2⟩ := link_wraps hi hs ha (by omega)
      exact ⟨s', _, hr, by omega⟩
    all_goals exact ha.elim
  have hrun := run_of_meets (I := Inv i) (P := fun e => e = .blocked)
    (fun s c hs hf => (inv_step hi hs hf).imp (fun h => ⟨_, h, rfl⟩) id) h0 hm
  rcases hrun with ⟨e, he, rfl⟩ | ⟨s, t, hr, hs⟩
  · refine ⟨fun s t h => ?_, fun msg h => ?_, hexact⟩
    · cases he.symm.trans h
    · cases he.symm.trans h
  · refine ⟨fun s1 t1 h => ?_, fun msg h => ?_, hexact⟩
    · obtain ⟨rfl, rfl⟩ := Prod.mk.inj (Except.ok.inj (hr.symm.trans h))
      exact ⟨hs.nlink, hs.free⟩
    · cases hr.symm.trans h

/-! ### A run that wraps -/

/-- The blocks of a directory with `len` entries. -/
def blocks (len : ℕ) : ℕ := (len + 63) / 64 + if 768 < len then 1 else 0

/-- An entry is appended where there is room. -/
theorem append_ok (dir : Dir) (e : Dirent) (free : ℕ) (hlen : dir.ents.length < 17152)
    (hind : dir.ind = decide (768 < dir.ents.length)) (hfree : 2 ≤ free) :
    ∃ free', dir.append e free = (true, ⟨dir.ents ++ [e], decide (768 < dir.ents.length + 1)⟩, free') ∧
      free' + blocks (dir.ents.length + 1) = free + blocks dir.ents.length := by
  obtain ⟨len, hl⟩ : ∃ len, dir.ents.length = len := ⟨_, rfl⟩
  have hmax : ¬ MAXFILE * BSIZE < (len + 1) * 16 := by
    have : MAXFILE * BSIZE = 274432 := rfl
    omega
  have hE : EPB = 64 := rfl
  have hN : NDIRECT = 12 := rfl
  unfold Dir.append blocks
  simp only [hl, if_neg hmax, hind, hE, hN, decide_eq_false_iff_not]
  rw [if_neg (by omega)]
  by_cases hneed : 12 ≤ len / 64 ∧ ¬ 768 < len
  · have h768 : len = 768 := by omega
    subst h768
    refine ⟨free - 1 - 1, ?_, ?_⟩
    · simp
      omega
    · simp
      omega
  · simp only [if_neg hneed]
    have hdec : decide (768 < len) = decide (768 < len + 1) := by
      rw [decide_eq_decide]
      omega
    by_cases hmod : len % 64 = 0
    · refine ⟨free - 1, ?_, ?_⟩
      · rw [if_pos hmod, if_neg (by omega), hdec]
      · split <;> split <;> omega
    · refine ⟨free, ?_, ?_⟩
      · rw [if_neg hmod, hdec]
      · split <;> split <;> omega

/-- The name `k` of the run: four letters. -/
def letters (k : ℕ) : Name :=
  [.ofNat (97 + k % 26), .ofNat (97 + k / 26 % 26), .ofNat (97 + k / 676 % 26), .ofNat (97 + k / 17576 % 26)]

theorem letters_inj {j k : ℕ} (hj : j < 456976) (hk : k < 456976) (h : letters j = letters k) : j = k := by
  have hof : ∀ {x y : ℕ}, x < 26 → y < 26 → UInt8.ofNat (97 + x) = UInt8.ofNat (97 + y) → x = y := by
    intro x y hx hy he
    have := congrArg UInt8.toNat he
    simp only [UInt8.toNat_ofNat'] at this
    omega
  simp only [letters, List.cons.injEq, and_true] at h
  have h1 := hof (Nat.mod_lt _ (by omega)) (Nat.mod_lt _ (by omega)) h.1
  have h2 := hof (Nat.mod_lt _ (by omega)) (Nat.mod_lt _ (by omega)) h.2.1
  have h3 := hof (Nat.mod_lt _ (by omega)) (Nat.mod_lt _ (by omega)) h.2.2.1
  have h4 := hof (Nat.mod_lt _ (by omega)) (Nat.mod_lt _ (by omega)) h.2.2.2
  omega

/-- The entries of the root directory and of its directory `sub` that are not
the file's: inode 1 is the root, inode 2 is `sub`. -/
def base (d : Fin 2) : List Dirent :=
  if d = 0 then [⟨1, chars ['.']⟩, ⟨1, chars ['.', '.']⟩, ⟨2, chars ['s', 'u', 'b']⟩]
  else [⟨2, chars ['.']⟩, ⟨1, chars ['.', '.']⟩]

/-- The entries of directory `d` when inode 7 has the names `letters 0 .. letters (m - 1)`,
17000 of them in each directory. -/
def linked (m : ℕ) (d : Fin 2) : List Dirent :=
  base d ++ (List.range (min (m - 17000 * d) 17000)).map fun j => ⟨7, letters (17000 * d + j)⟩

/-- A new file with the name `letters 0` in the root directory. -/
def newFile : Sys 2 where
  dirs := fun d => ⟨linked 1 d, false⟩
  free := 1900
  type := 2
  nlink := 1
  ref := 0

/-- The directory for the name `letters m`. -/
def target (m : ℕ) : Fin 2 := if m < 17000 then 0 else 1

/-- The name `letters m` is made. -/
def linkCall (m : ℕ) : Call 2 := .link (some (0, letters 0)) (some (target m, letters m))

/-- The state in which the file has `m` names. -/
structure Grown (m : ℕ) (s : Sys 2) : Prop where
  ents : ∀ d, (s.dirs d).ents = linked m d
  ind : ∀ d, (s.dirs d).ind = decide (768 < (linked m d).length)
  free : s.free + blocks (linked m 0).length + blocks (linked m 1).length = 1902
  type : s.type = 2
  names : names 7 s = m

theorem mem_linked {m : ℕ} {d : Fin 2} {e : Dirent} (h : e ∈ linked m d) :
    e.inum ≠ 0 ∧ (e.name.length ≠ 4 ∨ e.inum = 7 ∧ ∃ j, j < m ∧ j < 34000 ∧ e.name = letters j) := by
  rcases List.mem_append.mp h with h | h
  · have hb : ∀ d : Fin 2, ∀ e ∈ base d, e.inum ≠ 0 ∧ e.name.length ≠ 4 := by decide
    exact ⟨(hb d e h).1, .inl (hb d e h).2⟩
  · obtain ⟨j, hj, rfl⟩ := List.mem_map.mp h
    rw [List.mem_range] at hj
    have hd := d.isLt
    exact ⟨show (7 : ℕ) ≠ 0 by decide, .inr ⟨rfl, _, by omega, by omega, rfl⟩⟩

theorem length_letters (k : ℕ) : (letters k).length = 4 := rfl

/-- A name that only entries of inode `i` have is found. -/
theorem namei_of_mem {d : Fin n} {name : Name} {e : Dirent} (he : e ∈ (s.dirs d).ents) (h0 : e.inum ≠ 0)
    (hname : e.name = name) (hall : ∀ x ∈ (s.dirs d).ents, x.name = name → x.inum = i) :
    namei (some (d, name)) s = some i := by
  have hsome : ((s.dirs d).lookup name).isSome = true := by
    rw [Dir.lookup, List.findIdx?_isSome, List.any_eq_true]
    exact ⟨e, he, by simp [h0, hname]⟩
  obtain ⟨k, hk⟩ := Option.isSome_iff_exists.mp hsome
  obtain ⟨hlt, hp, -⟩ := List.findIdx?_eq_some_iff_getElem.mp hk
  have hin : (s.dirs d).inum k = i := by
    rw [Dir.inum, List.getElem?_eq_getElem hlt]
    exact hall _ (List.getElem_mem hlt) (of_decide_eq_true hp).2
  simp [namei, hk, hin]

theorem target_val {m : ℕ} (hm : m < 34000) : (target m : ℕ) = m / 17000 := by
  unfold target
  split
  · rw [Nat.div_eq_of_lt (by assumption)]
    rfl
  · rw [show m / 17000 = 1 by omega]
    rfl

theorem linked_target {m : ℕ} (hm : m < 34000) :
    linked (m + 1) (target m) = linked m (target m) ++ [⟨7, letters m⟩] := by
  have hd := target_val hm
  have e1 : min (m + 1 - 17000 * (target m : ℕ)) 17000 = min (m - 17000 * (target m : ℕ)) 17000 + 1 := by omega
  have e2 : 17000 * (target m : ℕ) + min (m - 17000 * (target m : ℕ)) 17000 = m := by omega
  rw [linked, e1, List.range_succ, List.map_append, ← List.append_assoc]
  simp only [List.map_cons, List.map_nil, e2]
  rfl

theorem linked_other {m : ℕ} (hm : m < 34000) {d : Fin 2} (hd : d ≠ target m) :
    linked (m + 1) d = linked m d := by
  have ht := target_val hm
  have hne : (d : ℕ) ≠ m / 17000 := fun h => hd (Fin.ext (h.trans ht.symm))
  have hlt := d.isLt
  have e1 : min (m + 1 - 17000 * (d : ℕ)) 17000 = min (m - 17000 * (d : ℕ)) 17000 := by omega
  rw [linked, e1]
  rfl

theorem length_linked_le (m : ℕ) (d : Fin 2) : (linked m d).length ≤ 17003 := by
  have hb : ∀ d : Fin 2, (base d).length ≤ 3 := by decide
  have := hb d
  simp only [linked, List.length_append, List.length_map, List.length_range]
  omega

theorem blocks_le {len : ℕ} (h : len ≤ 17003) : blocks len ≤ 267 := by
  unfold blocks
  split <;> omega

/-- The first name is there. -/
theorem Grown.namei {m : ℕ} {s : Sys 2} (h : Grown m s) (h1 : 1 ≤ m) :
    LinkCount.namei (some (0, letters 0)) s = some 7 := by
  refine namei_of_mem (e := ⟨7, letters 0⟩) ?_ (by decide) rfl fun x hx hname => ?_
  · rw [h.ents, linked]
    refine List.mem_append_right _ (List.mem_map.mpr ⟨0, List.mem_range.mpr ?_, rfl⟩)
    simp
    omega
  · rw [h.ents] at hx
    obtain ⟨-, hlen | ⟨hin, -⟩⟩ := mem_linked hx
    · rw [hname, length_letters] at hlen
      exact absurd rfl hlen
    · exact hin

/-- One link more. -/
theorem Grown.succ {m : ℕ} {s : Sys 2} (h : Grown m s) (h1 : 1 ≤ m) (hm : m < 34000)
    (hn : s.nlink + 1 ≠ 0) :
    ∃ s', step 7 s (linkCall m) = .ok (s', [true]) ∧ Grown (m + 1) s' ∧ s'.nlink = s.nlink + 1 := by
  have hnew : (s.dirs (target m)).lookup (letters m) = none := by
    rw [Dir.lookup, List.findIdx?_eq_none_iff, h.ents]
    intro e he
    obtain ⟨-, hlen | ⟨-, j, hj, hj', hname⟩⟩ := mem_linked he
    · have : e.name ≠ letters m := fun hn => hlen (by rw [hn, length_letters])
      simp [this]
    · have : e.name ≠ letters m := fun hn =>
        absurd (letters_inj (by omega) (by omega) (hname.symm.trans hn)) (by omega)
      simp [this]
  have hfull : (s.dirs (target m)).ents.findIdx? (fun e => decide (e.inum = 0)) = none := by
    rw [List.findIdx?_eq_none_iff, h.ents]
    intro e he
    simp [(mem_linked he).1]
  have hold := h.namei h1
  have hlen := length_linked_le m (target m)
  have hb0 := blocks_le (length_linked_le m 0)
  have hb1 := blocks_le (length_linked_le m 1)
  have hfree := h.free
  obtain ⟨free', happ, hcost⟩ := append_ok (s.dirs (target m)) ⟨7, letters m⟩ s.free
    (by rw [h.ents]; omega) (by rw [h.ents, h.ind]) (by omega)
  have hlink : ∀ x, dirlink (target m) (letters m) 7 { s with nlink := x } =
      (true, { s with
        dirs := Function.update s.dirs (target m)
          ⟨(s.dirs (target m)).ents ++ [⟨7, letters m⟩], decide (768 < (s.dirs (target m)).ents.length + 1)⟩
        free := free'
        nlink := x }) := fun x => by
    simp only [dirlink, hnew, hfull, happ]
    rfl
  obtain ⟨hcount, -, -, -⟩ := dirlink_spec (i := 7) (by decide) (target m) (letters m) { s with nlink := s.nlink + 1 }
  rw [hlink, if_pos rfl] at hcount
  have hput : ∀ s : Sys 2, s.nlink ≠ 0 → iput s = s := fun s h => if_neg fun hc => h hc.2
  refine ⟨{ s with
      dirs := Function.update s.dirs (target m)
        ⟨(s.dirs (target m)).ents ++ [⟨7, letters m⟩], decide (768 < (s.dirs (target m)).ents.length + 1)⟩
      free := free'
      nlink := s.nlink + 1 }, ?_,
    ⟨fun d => ?_, fun d => ?_, ?_, h.type, hcount.trans (congrArg (· + 1) h.names)⟩, rfl⟩
  · have h2 : s.type ≠ 0 := by rw [h.type]; decide
    have h3 : s.type ≠ T_DIR := by rw [h.type]; decide
    simp only [step, linkCall, sysLink, hold, hlink, ne_eq, not_true_eq_false, if_false, if_true, h2, h3, ok_bind]
    rw [hput _ hn]
  · by_cases hd : d = target m
    · subst hd
      simp only [Function.update_self]
      rw [linked_target hm, h.ents]
    · simp only [Function.update_of_ne hd]
      rw [linked_other hm hd, h.ents]
  · by_cases hd : d = target m
    · subst hd
      simp only [Function.update_self]
      rw [linked_target hm, h.ents, List.length_append]
      rfl
    · simp only [Function.update_of_ne hd]
      rw [linked_other hm hd, h.ind]
  · simp only
    rw [h.ents] at hcost
    have hlen' : (linked (m + 1) (target m)).length = (linked m (target m)).length + 1 := by
      rw [linked_target hm, List.length_append]
      rfl
    rcases (show target m = 0 ∨ target m = 1 by unfold target; split <;> simp) with ht | ht
    · rw [ht] at hcost hlen'
      rw [hlen', linked_other hm (d := 1) (by rw [ht]; decide)]
      omega
    · rw [ht] at hcost hlen'
      rw [hlen', linked_other hm (d := 0) (by rw [ht]; decide)]
      omega

theorem ofNat_succ_ne_zero {m : ℕ} (hm : m + 1 < 65536) : Int16.ofNat m + 1 ≠ 0 := by
  intro h
  have h1 : Int16.ofNat (m + 1) = 0 := (Int16.ofNat_add m 1).trans h
  have h2 := congrArg Int16.toInt h1
  rw [Int16.toInt_ofNat'] at h2
  have h3 : (0 : Int16).toInt = 0 := rfl
  have hsize : Int16.size = 65536 := rfl
  rw [h3, Int.bmod_def, hsize] at h2
  split at h2 <;> omega

theorem grown_newFile : Grown 1 newFile := by
  refine ⟨fun _ => rfl, ?_, ?_, rfl, ?_⟩ <;> decide

/-- The names `letters 1 .. letters k` are made, one after the other. -/
theorem run_links : ∀ k, k < 33999 → ∃ s t, run (step 7) newFile ((List.range' 1 k).map linkCall) = .ok (s, t) ∧
    Grown (k + 1) s ∧ s.nlink = Int16.ofNat (k + 1)
  | 0, _ => ⟨newFile, [], rfl, grown_newFile, rfl⟩
  | k + 1, hk => by
    obtain ⟨s, t, hr, hg, hn⟩ := run_links k (by omega)
    obtain ⟨s', hstep, hg', hn'⟩ := hg.succ (by omega) (by omega)
      (by rw [hn]; exact ofNat_succ_ne_zero (by omega))
    refine ⟨s', t ++ [true], ?_, hg', ?_⟩
    · rw [List.range'_concat, List.map_append]
      refine run_snoc.mpr ⟨s, t, [true], hr, ?_, rfl⟩
      rw [Nat.one_mul, Nat.add_comm 1 k]
      exact hstep
    · rw [hn', hn]
      exact (Int16.ofNat_add (k + 1) 1).symm

/-- **A count that is wrong.** After 32767 links of a new file, 17000 names in one
directory and the others in the next, `nlink` is -32768, and `unlink` of a name
panics. -/
theorem link_counts_wrap : ∃ s t, run (step 7) newFile ((List.range' 1 32767).map linkCall) = .ok (s, t) ∧
    names 7 s = 32768 ∧ s.nlink.toInt = -32768 ∧
    step 7 s (.unlink (some (0, letters 0))) = .error (.panic "unlink: nlink < 1") := by
  obtain ⟨s, t, hr, hg, hn⟩ := run_links 32767 (by decide)
  have hneg : s.nlink = -32768 := hn
  refine ⟨s, t, hr, hg.names, by rw [hneg]; rfl, ?_⟩
  obtain ⟨⟨d, name⟩, hp, hnm⟩ := Option.bind_eq_some_iff.mp (hg.namei (by decide))
  obtain ⟨rfl, rfl⟩ := Prod.mk.inj (Option.some.inj hp)
  obtain ⟨k, hk, hin⟩ := Option.map_eq_some_iff.mp hnm
  have hdot : ¬ (letters 0 = chars ['.'] ∨ letters 0 = chars ['.', '.']) := by decide
  have h2 : ¬ ((s.dirs 0).inum k ≠ 7 ∨ s.type = T_DIR) := by rw [hin, hg.type]; decide
  have h3 : s.type ≠ 0 := by rw [hg.type]; decide
  have h4 : s.nlink < 1 := by rw [hneg]; decide
  simp only [step, sysUnlink, if_neg hdot, hk, if_neg h2, h3, if_false, if_pos h4]
  rfl

/-- A file that gets a second name and loses the first. -/
theorem link_counts_two : ∃ s t, run (step 7) newFile [linkCall 1, .unlink (some (0, letters 0))] = .ok (s, t) ∧
    s.nlink.toInt = names 7 s := by
  obtain ⟨⟨s, t⟩, hr, -⟩ := okWith_iff.mp
    (show okWith (run (step 7) newFile [linkCall 1, .unlink (some (0, letters 0))]) (fun _ => true) = true by decide)
  refine ⟨s, t, hr, ((link_counts (by decide) newFile ⟨by decide, by decide, by decide⟩ _ ?_).1 s t hr).1⟩
  refine ⟨fun _ => by decide, fun s1 t1 h1 => ⟨fun h => h.elim, fun _ _ _ => trivial⟩⟩

end LinkCount
end Xv6
