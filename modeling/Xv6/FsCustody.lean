/-
# The references and locks a call holds

A call of the kernel that walks through the file system takes references to
slots of the inode table and locks on them, and gives them back. `Custody sb s0 s
H L` says that in `s` the call that began in `s0` has the references `H`, each a
slot with its inode number, and the locks `L`, and that all else of the table is
as it was. Every function of `fs.c` that deals with the table moves from one such
statement to the next; `iput` does not free an inode that is linked or has
another reference.

Key definitions: `Fs.Custody`.
Key theorems: `Fs.Custody.iget`, `Fs.Custody.ilock`, `Fs.Custody.iput`.
-/
import Xv6.FsDir

namespace Xv6
namespace Fs

variable {sb : Super} {s0 s s' : Sys} {H : List (ℕ × ℕ)} {L : List ℕ} {i j k : ℕ}

def iunlockput (sb : Super) (k : ℕ) (s : Sys) : Except Stop Sys := do
  let s ← iunlock k s
  iput sb k s

/-- From `s0` on, the references `H` and the locks `L` were taken and not given back. -/
structure Custody (sb : Super) (s0 s : Sys) (H : List (ℕ × ℕ)) (L : List ℕ) : Prop where
  ok : FsOk sb s.data s.itable
  saved : Saved sb s
  ref : ∀ j, (s.itable j).ref = (s0.itable j).ref + (H.map Prod.fst).count j
  inum : ∀ j, 0 < (s0.itable j).ref → (s.itable j).inum = (s0.itable j).inum
  held : ∀ p ∈ H, p.1 < NINODE ∧ (s.itable p.1).inum = p.2
  locked : ∀ j, j < NINODE → (s.itable j).locked = decide (j ∈ L)

namespace Custody

theorem ref_pos (h : Custody sb s0 s H L) (hm : (j, i) ∈ H) : 0 < (s.itable j).ref := by
  have hc : 0 < (H.map Prod.fst).count j := List.count_pos_iff.mpr (List.mem_map_of_mem (f := Prod.fst) hm)
  rw [h.ref]
  omega

theorem slot_lt (h : Custody sb s0 s H L) (hm : (j, i) ∈ H) : j < NINODE := (h.held _ hm).1

theorem slot_inum (h : Custody sb s0 s H L) (hm : (j, i) ∈ H) : (s.itable j).inum = i := (h.held _ hm).2

theorem swap {p q : ℕ × ℕ} (h : Custody sb s0 s (p :: q :: H) L) : Custody sb s0 s (q :: p :: H) L where
  ok := h.ok
  saved := h.saved
  ref j := by
    rw [h.ref, List.map_cons, List.map_cons, List.map_cons, List.map_cons]
    congr 1
    exact (List.Perm.swap ..).count_eq j
  inum := h.inum
  held r hr := h.held r ((List.Perm.swap ..).mem_iff.mp hr)
  locked := h.locked

/-- The table is changed in ways that matter to nobody. -/
theorem congr (h : Custody sb s0 s H L) (hok : FsOk sb s'.data s'.itable) (hsaved : Saved sb s')
    (href : ∀ j, (s'.itable j).ref = (s.itable j).ref) (hinum : ∀ j, (s'.itable j).inum = (s.itable j).inum)
    (hlocked : ∀ j, (s'.itable j).locked = (s.itable j).locked) : Custody sb s0 s' H L where
  ok := hok
  saved := hsaved
  ref j := (href j).trans (h.ref j)
  inum j hj := (hinum j).trans (h.inum j hj)
  held p hp := ⟨(h.held p hp).1, (hinum p.1).trans (h.held p hp).2⟩
  locked j hj := (hlocked j).trans (h.locked j hj)

/-! ### References -/

theorem iget (h : Custody sb s0 s H L) (hg : Got i s j s') : Custody sb s0 s' ((j, i) :: H) L where
  ok := hg.fsOk h.ok
  saved := hg.saved h.saved
  ref l := by
    rw [List.map_cons, List.count_cons]
    by_cases hl : l = j
    · rw [hl, hg.ref, h.ref, beq_self_eq_true, if_pos rfl, Nat.add_assoc]
    · rw [hg.other hl, h.ref, if_neg (fun hb => hl (eq_of_beq hb).symm), Nat.add_zero]
  inum l hl := by
    have hpos : 0 < (s.itable l).ref := by
      rw [h.ref]
      omega
    rw [(hg.live hpos).1, h.inum l hl]
  held p hp := by
    rcases List.mem_cons.mp hp with rfl | hp
    · exact ⟨hg.lt, hg.inum⟩
    · exact ⟨(h.held p hp).1, by rw [(hg.live (h.ref_pos hp)).1]; exact (h.held p hp).2⟩
  locked l hlt := by
    by_cases hl : l = j
    · rw [hl, hg.locked, h.locked j hg.lt]
    · rw [hg.other hl, h.locked l hlt]

theorem idup (h : Custody sb s0 s H L) (hj : j < NINODE) (href : 0 < (s.itable j).ref) :
    Custody sb s0 (Fs.idup j s) ((j, (s.itable j).inum) :: H) L := h.iget (.again hj href rfl)

theorem decRef_ref (s : Sys) (j l : ℕ) : ((decRef j s).itable l).ref = (s.itable l).ref - if j = l then 1 else 0 := by
  by_cases hl : l = j
  · rw [hl, decRef_self, if_pos rfl]
  · rw [decRef_of_ne _ hl, if_neg (Ne.symm hl), Nat.sub_zero]

theorem decRef_rest (s : Sys) (j l : ℕ) : ((decRef j s).itable l).inum = (s.itable l).inum ∧
    ((decRef j s).itable l).locked = (s.itable l).locked ∧ ((decRef j s).itable l).valid = (s.itable l).valid ∧
    ((decRef j s).itable l).din = (s.itable l).din := by
  by_cases hl : l = j
  · rw [hl, decRef_self]
    exact ⟨rfl, rfl, rfl, rfl⟩
  · rw [decRef_of_ne _ hl]
    exact ⟨rfl, rfl, rfl, rfl⟩

/-- A reference is given back that is not the last to an inode without links. -/
theorem iput (hL : sb.Layout) (h : Custody sb s0 s ((j, i) :: H) L)
    (hkept : 0 < (s0.itable j).ref ∨ (dinodes sb s.data i).nlink ≠ 0) :
    Fs.iput sb j s = .ok (decRef j s) ∧ Custody sb s0 (decRef j s) H L := by
  have hmem : (j, i) ∈ (j, i) :: H := List.mem_cons_self ..
  have hpos := h.ref_pos hmem
  have hsaved : (s.itable j).valid = true → dinodes sb s.data (s.itable j).inum = (s.itable j).din := fun hv =>
    h.saved j ⟨h.slot_lt hmem, hpos, hv⟩
  have hput : Fs.iput sb j s = .ok (decRef j s) := by
    rw [Fs.iput]
    dsimp only
    rw [if_neg]
    rintro ⟨hone, hv, hn⟩
    rcases hkept with hb | hb
    · have href := h.ref j
      rw [List.map_cons, List.count_cons_self] at href
      omega
    · rw [← h.slot_inum hmem, hsaved hv] at hb
      exact hb hn
  have hspec := iput_spec hL h.ok (h.slot_lt hmem) hpos fun _ hv _ => hsaved hv
  rw [hput] at hspec
  refine ⟨hput, hspec, ?_, fun l => ?_, fun l hl => ?_, fun p hp => ?_, fun l hl => ?_⟩
  · intro l hl
    obtain ⟨h1, -, h3, h4⟩ := decRef_rest s j l
    have href := hl.ref
    rw [decRef_ref] at href
    rw [h1, h4]
    exact h.saved l ⟨hl.lt, by omega, h3 ▸ hl.valid⟩
  · rw [decRef_ref, h.ref, List.map_cons, List.count_cons]
    by_cases hl : j = l
    · rw [hl, if_pos rfl, beq_self_eq_true, if_pos rfl]
      omega
    · rw [if_neg hl, if_neg (fun hb => hl (eq_of_beq hb)), Nat.sub_zero, Nat.add_zero]
  · rw [(decRef_rest s j l).1, h.inum l hl]
  · rw [(decRef_rest s j p.1).1]
    exact h.held p (List.mem_cons_of_mem _ hp)
  · rw [(decRef_rest s j l).2.1, h.locked l hl]

/-! ### Locks -/

theorem setLock_ref (s : Sys) (j : ℕ) (b : Bool) (l : ℕ) : ((s.setLock j b).itable l).ref = (s.itable l).ref ∧
    ((s.setLock j b).itable l).inum = (s.itable l).inum ∧ ((s.setLock j b).itable l).valid = (s.itable l).valid ∧
    ((s.setLock j b).itable l).din = (s.itable l).din ∧
    ((s.setLock j b).itable l).locked = if l = j then b else (s.itable l).locked := by
  by_cases hl : l = j
  · rw [hl, setLock_self, if_pos rfl]
    exact ⟨rfl, rfl, rfl, rfl, rfl⟩
  · rw [Sys.setLock, setInode_of_ne _ hl, if_neg hl]
    exact ⟨rfl, rfl, rfl, rfl, rfl⟩

theorem lock_eq {b : Bool} {L' : List ℕ} (h : Custody sb s0 s H L) (hj : j < NINODE)
    (hL' : ∀ l, (if l = j then b else decide (l ∈ L)) = decide (l ∈ L')) : Custody sb s0 (s.setLock j b) H L' where
  ok := h.ok.touch hj rfl rfl rfl Iff.rfl
  saved l hl := by
    obtain ⟨h1, h2, h3, h4, -⟩ := setLock_ref s j b l
    rw [h2, h4]
    exact h.saved l ⟨hl.lt, h1 ▸ hl.ref, h3 ▸ hl.valid⟩
  ref l := by rw [(setLock_ref s j b l).1, h.ref]
  inum l hl := by rw [(setLock_ref s j b l).2.1, h.inum l hl]
  held p hp := by
    rw [(setLock_ref s j b p.1).2.1]
    exact h.held p hp
  locked l hl := by
    rw [(setLock_ref s j b l).2.2.2.2, h.locked l hl]
    exact hL' l

/-- The copy of an inode in use is loaded. -/
theorem load (h : Custody sb s0 s H L) (hm : (j, i) ∈ H) (hal : Alloc sb (dinodes sb s.data) i)
    (hval : (s.itable j).valid ≠ true) {ip : Inode}
    (hip : ip = { s.itable j with valid := true, din := dinodes sb s.data i }) : Custody sb s0 (s.setInode j ip) H L := by
  have hinum := h.slot_inum hm
  have hslot : ∀ l, ((s.setInode j ip).itable l).ref = (s.itable l).ref ∧
      ((s.setInode j ip).itable l).inum = (s.itable l).inum ∧ ((s.setInode j ip).itable l).locked = (s.itable l).locked := by
    intro l
    by_cases hl : l = j
    · rw [hl, setInode_self, hip]
      exact ⟨rfl, rfl, rfl⟩
    · rw [setInode_of_ne _ hl]
      exact ⟨rfl, rfl, rfl⟩
  refine h.congr ?_ (fun l hl => ?_) (fun l => (hslot l).1) (fun l => (hslot l).2.1) fun l => (hslot l).2.2
  · have hd : dinodes sb s.data i = s.dinode sb i := if_pos hal.2.1
    refine h.ok.load (h.slot_lt hm) (h.ref_pos hm) hval ?_ ?_ ?_ ?_ ?_
    · rw [hip]
    · rw [hip]
      dsimp only
      rw [hinum]
      exact ⟨hal.1, hal.2.1⟩
    · rw [hip]
      dsimp only
      rw [hinum]
    · rw [hip]
      exact hal.2.2
    · rw [hip]
      dsimp only
      rw [hd]
      exact Block.dinode_inRange ..
  · by_cases hlj : l = j
    · rw [hlj, setInode_self, hip]
      dsimp only
      rw [hinum]
      rfl
    · have hold : Valid s.itable l := by
        refine ⟨hl.lt, (hslot l).1 ▸ hl.ref, ?_⟩
        have hv := hl.valid
        rwa [setInode_of_ne _ hlj] at hv
      rw [setInode_of_ne _ hlj]
      exact h.saved l hold

/-- **`ilock` of an inode in use** gets the lock and a copy of what is on disk. -/
theorem ilock (h : Custody sb s0 s H L) (hm : (j, i) ∈ H) (hfree : j ∉ L) (hal : Alloc sb (dinodes sb s.data) i) :
    ∃ s', Fs.ilock sb j s = .ok s' ∧ s'.data = s.data ∧ Valid s'.itable j ∧ (s'.itable j).din = dinodes sb s.data i ∧
      Custody sb s0 s' H (j :: L) := by
  have hpos := h.ref_pos hm
  have hinum := h.slot_inum hm
  have hlocked : (s.itable j).locked = false := by rw [h.locked j (h.slot_lt hm), decide_eq_false hfree]
  have hL' : ∀ l, (if l = j then true else decide (l ∈ L)) = decide (l ∈ j :: L) := by
    intro l
    by_cases hl : l = j
    · rw [if_pos hl, hl]
      exact (decide_eq_true (List.mem_cons_self ..)).symm
    · rw [if_neg hl, decide_eq_decide, List.mem_cons]
      exact (or_iff_right hl).symm
  rw [Fs.ilock]
  dsimp only
  rw [if_neg (by omega), hlocked, if_neg Bool.false_ne_true]
  by_cases hval : (s.itable j).valid = true
  · have hk : Valid s.itable j := ⟨h.slot_lt hm, hpos, hval⟩
    have hdin := h.saved j hk
    rw [hinum] at hdin
    rw [if_pos hval]
    refine ⟨s.setLock j true, rfl, rfl, ⟨hk.lt, ?_, ?_⟩, ?_, h.lock_eq (h.slot_lt hm) hL'⟩
    · rw [setLock_self]
      exact hk.ref
    · rw [setLock_self]
      exact hval
    · rw [setLock_self]
      exact hdin.symm
  · have hd : s.dinode sb (s.itable j).inum = dinodes sb s.data i := by
      rw [hinum]
      exact (if_pos hal.2.1).symm
    have hload := (h.load hm hal hval rfl).lock_eq (h.slot_lt hm) hL'
    rw [if_neg hval, hd, if_neg hal.2.2]
    refine ⟨_, rfl, rfl, ⟨h.slot_lt hm, ?_, ?_⟩, ?_, ?_⟩
    · rw [setInode_self]
      exact hpos
    · rw [setInode_self]
    · rw [setInode_self]
    · rw [Sys.setLock, setInode_self] at hload
      simp only [Sys.setInode, Function.update_idem] at hload ⊢
      exact hload

theorem iunlock (h : Custody sb s0 s H (j :: L)) (hm : (j, i) ∈ H) (hfree : j ∉ L) :
    Fs.iunlock j s = .ok (s.setLock j false) ∧ Custody sb s0 (s.setLock j false) H L := by
  have hpos := h.ref_pos hm
  have hlocked : (s.itable j).locked = true := by
    rw [h.locked j (h.slot_lt hm)]
    exact decide_eq_true (List.mem_cons_self ..)
  refine ⟨?_, h.lock_eq (h.slot_lt hm) fun l => ?_⟩
  · rw [Fs.iunlock, if_neg]
    · rfl
    · rw [not_or, not_not]
      exact ⟨hlocked, by omega⟩
  · by_cases hl : l = j
    · rw [if_pos hl, hl]
      exact (decide_eq_false hfree).symm
    · rw [if_neg hl, decide_eq_decide, List.mem_cons]
      exact or_iff_right hl

theorem iunlockput (hL : sb.Layout) (h : Custody sb s0 s ((j, i) :: H) (j :: L)) (hfree : j ∉ L)
    (hkept : 0 < (s0.itable j).ref ∨ (dinodes sb s.data i).nlink ≠ 0) :
    ∃ s', Fs.iunlockput sb j s = .ok s' ∧ s'.data = s.data ∧ Custody sb s0 s' H L := by
  obtain ⟨hun, h1⟩ := h.iunlock (List.mem_cons_self ..) hfree
  obtain ⟨hput, h2⟩ := h1.iput hL hkept
  refine ⟨decRef j (s.setLock j false), ?_, rfl, h2⟩
  rw [Fs.iunlockput, hun, ok_bind, hput]

end Custody

end Fs
end Xv6
