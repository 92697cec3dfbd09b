/-
# What the inode table guarantees

Every step of the inode table is one of four changes: a process moves on at a
slot it has a pointer to (`Inv.move`), gets a pointer (`Inv.gain`), gives one
up (`Inv.lose`), or marks an inode on disk (`Inv.mark`); so the invariant holds
in every state of every run.

* `inode_table`: no inode has two slots, `ref` counts the pointers, a slot with
  a reference is not recycled, a valid copy that nobody has locked is what is on
  disk, `iput` frees an inode only if it has no links and no other references,
  and every `ilock` returns with the inode that is on disk.

The table keeps a valid copy when the last reference to a linked inode goes.
Such a copy is out of date once the inode is changed through another slot; as
long as nobody changes inodes, it too is what is on disk (`Still`).

Key definitions: `Itable.Still`.
-/
import Xv6.Itable

namespace Xv6
namespace Itable

open TraceSys Fs

variable {s s' : Sys} {tr : List Ev} {p i k : ℕ} {x : Slot} {d : Dinode} {q : Pc}

/-! ### The four changes -/

/-- `ialloc` marks a free inode. -/
def allocated (s : Sys) (p i dev inum type : ℕ) : Sys :=
  (s.setDisk dev inum { Dinode.zero with type := type }).setPc p (.ialloc i dev inum)

section Allocated

variable {dev inum type : ℕ}

theorem allocated_pc_on (hidle : s.pc p = .idle) (u : ℕ) :
    ((allocated s p i dev inum type).pc u).on = (s.pc u).on ∧
      ((allocated s p i dev inum type).pc u).leaving = (s.pc u).leaving := by
  by_cases hu : u = p
  · rw [hu, hidle]
    simp [allocated, Sys.setPc, Pc.on, Pc.leaving]
  · simp [allocated, Sys.setPc, Sys.setDisk, hu]

theorem allocated_stage (hidle : s.pc p = .idle) (l : ℕ) :
    (allocated s p i dev inum type).stage l = s.stage l := by
  unfold Sys.stage
  simp only [(allocated_pc_on hidle _).1]
  rfl

theorem allocated_quiet (hidle : s.pc p = .idle) {d' n : ℕ} (hq : Quiet s d' n) :
    Quiet (allocated s p i dev inum type) d' n := by
  intro u j l hptr hdev hinum
  rw [(allocated_pc_on hidle u).2]
  exact hq u j l hptr hdev hinum

theorem allocated_disk_other {d' n : ℕ} (h : ¬ (d' = dev ∧ n = inum)) :
    (allocated s p i dev inum type).disk d' n = s.disk d' n := putDisk_other h

theorem allocated_disk : (allocated s p i dev inum type).disk dev inum = { Dinode.zero with type := type } :=
  putDisk_same ..

/-- The copy in a slot of a free inode is not valid, or its inode has just been freed. -/
theorem SlotOk.stale {st : Stage} (h : SlotOk st x d) (h0 : d.type = 0) : x.valid = false ∨ st = .freed := by
  cases st with
  | free => exact .inl (by by_contra hv; exact (h (by simpa using hv)).2 h0)
  | loading => exact .inl (by by_contra hv; exact (h (by simpa using hv)).2 h0)
  | working => exact .inl (by by_contra hv; exact (h (by simpa using hv)).2 h0)
  | freeing => exact absurd h0 h.2.2.1
  | freed => exact .inr rfl
  | invalid => exact .inl h

theorem SlotOk.of_stale {st : Stage} {d' : Dinode} (h : SlotOk st x d) (hs : x.valid = false ∨ st = .freed) :
    SlotOk st x d' := by
  rcases hs with hv | rfl
  · cases st with
    | freeing => exact absurd (h.1.symm.trans hv) (by simp)
    | _ => simp_all [SlotOk]
  · exact h

theorem Inv.mark (h : Inv s) (hidle : s.pc p = .idle) (hptr : s.ptr (p, i) = none) (htype : type ≠ 0)
    (hfree : (s.disk dev inum).type = 0) : Inv (allocated s p i dev inum type) := by
  have hstale : ∀ l, l < NINODE → 0 < (s.slot l).ref → (s.slot l).dev = dev → (s.slot l).inum = inum →
      (s.slot l).valid = false ∨ s.stage l = .freed := by
    intro l hl h1 h2 h3
    apply (h.slots l hl h1).stale
    rw [Sys.dinode, h2, h3]
    exact hfree
  have hmark : ∀ u j d' n, s.pc u = .ialloc j d' n → ¬ (d' = dev ∧ n = inum) := by
    rintro u j d' n hu ⟨rfl, rfl⟩
    exact (h.marked u j d' n hu).2.type hfree
  have hpc : ∀ u j d' n, (allocated s p i dev inum type).pc u = .ialloc j d' n →
      (u = p ∧ j = i ∧ d' = dev ∧ n = inum) ∨ (u ≠ p ∧ s.pc u = .ialloc j d' n) := by
    intro u j d' n hu
    by_cases hup : u = p
    · rw [hup] at hu
      simp only [allocated, Sys.setPc, Function.update_self, Pc.ialloc.injEq] at hu
      exact .inl ⟨hup, hu.1.symm, hu.2.1.symm, hu.2.2.symm⟩
    · right
      simpa [allocated, Sys.setPc, Sys.setDisk, hup] using And.intro hup hu
  refine ⟨h.unique, h.refs, h.range, fun u j st hu => ?_, fun l hl h1 => ?_, fun d' n h0 => ?_,
    fun u j d' n hu => ?_, fun u v j j' d' n hu hv => ?_⟩
  · rw [(allocated_pc_on hidle u).1] at hu
    exact h.busy u j st hu
  · have hok := h.slots l hl h1
    rw [allocated_stage hidle]
    by_cases hid : (s.slot l).dev = dev ∧ (s.slot l).inum = inum
    · exact hok.of_stale (hstale l hl h1 hid.1 hid.2)
    · have hdin : (allocated s p i dev inum type).dinode l = s.dinode l := allocated_disk_other hid
      rw [hdin]
      exact hok
  · by_cases hid : d' = dev ∧ n = inum
    · rw [hid.1, hid.2, allocated_disk] at h0
      exact absurd h0 htype
    · rw [allocated_disk_other hid] at h0 ⊢
      exact ⟨(h.zero d' n h0).1, allocated_quiet hidle (h.zero d' n h0).2⟩
  · rcases hpc u j d' n hu with ⟨rfl, rfl, rfl, rfl⟩ | ⟨-, hu'⟩
    · refine ⟨hptr, by rw [allocated_disk]; exact htype, by rw [allocated_disk]; rfl,
        allocated_quiet hidle (h.zero d' n hfree).2, fun l hl h1 h2 h3 => ?_⟩
      rw [allocated_stage hidle]
      exact hstale l hl h1 h2 h3
    · obtain ⟨h1, hmk⟩ := h.marked u j d' n hu'
      have hdisk : (allocated s p i dev inum type).disk d' n = s.disk d' n := allocated_disk_other (hmark u j d' n hu')
      refine ⟨h1, by rw [hdisk]; exact hmk.type, by rw [hdisk]; exact hmk.nlink,
        allocated_quiet hidle hmk.quiet, fun l hl h2 h3 h4 => ?_⟩
      rw [allocated_stage hidle]
      exact hmk.stale l hl h2 h3 h4
  · rcases hpc u j d' n hu with ⟨rfl, -, rfl, rfl⟩ | ⟨-, hu'⟩
    · rcases hpc v j' d' n hv with ⟨rfl, -⟩ | ⟨-, hv'⟩
      · rfl
      · exact absurd ⟨rfl, rfl⟩ (hmark v j' d' n hv')
    · rcases hpc v j' d' n hv with ⟨rfl, -, rfl, rfl⟩ | ⟨-, hv'⟩
      · exact absurd ⟨rfl, rfl⟩ (hmark u j d' n hu')
      · exact h.markedBy u v j j' d' n hu' hv'

end Allocated

/-! ### `iget` -/

/-- What `iget` returns: the slot of the inode, or a recycled one. -/
theorem iget_cases {dev inum : ℕ} (h : Inv s) (he : iget s dev inum = .ok (k, x)) :
    k < NINODE ∧ x.dev = dev ∧ x.inum = inum ∧ x.ref = (s.slot k).ref + 1 ∧ x.lock = (s.slot k).lock ∧
      (∀ l, l < NINODE → l ≠ k → 0 < (s.slot l).ref → ¬ ((s.slot l).dev = dev ∧ (s.slot l).inum = inum)) ∧
      ((0 < (s.slot k).ref ∧ (s.slot k).dev = dev ∧ (s.slot k).inum = inum ∧ x.valid = (s.slot k).valid ∧
          x.din = (s.slot k).din) ∨
        ((s.slot k).ref = 0 ∧ x.valid = false)) := by
  unfold iget at he
  split at he
  · next l hl =>
    obtain ⟨rfl, rfl⟩ := Prod.mk.inj (Except.ok.inj he)
    have hlt := List.mem_range.mp (List.mem_of_find?_eq_some hl)
    have hp := List.find?_some hl
    simp only [decide_eq_true_eq] at hp
    obtain ⟨hr, rfl, rfl⟩ := hp
    refine ⟨hlt, rfl, rfl, rfl, rfl, fun m hm hne h1 h2 => hne ?_, .inl ⟨hr, rfl, rfl, rfl, rfl⟩⟩
    exact h.unique m l hm hlt h1 hr h2.1 h2.2
  · next hnone =>
    split at he
    · next l hl =>
      obtain ⟨rfl, rfl⟩ := Prod.mk.inj (Except.ok.inj he)
      have hlt := List.mem_range.mp (List.mem_of_find?_eq_some hl)
      have h0 : (s.slot l).ref = 0 := by simpa using List.find?_some hl
      refine ⟨hlt, rfl, rfl, by rw [h0], rfl, fun m hm _ h1 h2 => ?_, .inr ⟨h0, rfl⟩⟩
      have := List.find?_eq_none.mp hnone m (List.mem_range.mpr hm)
      simp only [decide_eq_true_eq] at this
      exact this ⟨h1, h2⟩
    · cases he

/-- An inode with links is no free one, nobody is about to get it from `ialloc`
and nobody is freeing it. -/
theorem Inv.linked (h : Inv s) {dev inum : ℕ} (hl : HasLink s dev inum) :
    (s.disk dev inum).type ≠ 0 ∧ (∀ u j, s.pc u ≠ .ialloc j dev inum) ∧
      ∀ k, k < NINODE → 0 < (s.slot k).ref → (s.slot k).dev = dev → (s.slot k).inum = inum →
        s.stage k ≠ .freeing := by
  have hstale : (∀ k, k < NINODE → 0 < (s.slot k).ref → (s.slot k).dev = dev → (s.slot k).inum = inum →
      (s.slot k).valid = false ∨ s.stage k = .freed) → (s.disk dev inum).nlink = 0 → False := by
    intro hst h0
    rcases hl with hl | ⟨k, hk, h1, h2, h3, hv, hn⟩
    · exact hl h0
    · rcases hst k hk h1 h2 h3 with h4 | h4
      · simp [hv] at h4
      · have := h.slots k hk h1
        rw [h4] at this
        exact hn this
  refine ⟨fun h0 => ?_, fun u j hu => ?_, fun k hk h1 h2 h3 hst => ?_⟩
  · refine hstale (fun k hk h1 h2 h3 => ?_) (h.zero dev inum h0).1
    apply (h.slots k hk h1).stale
    rw [Sys.dinode, h2, h3]
    exact h0
  · have hmk := (h.marked u j dev inum hu).2
    exact hstale hmk.stale hmk.nlink
  · have hok := h.slots k hk h1
    rw [hst, Sys.dinode, h2, h3] at hok
    rcases hl with hl | ⟨l, hl, g1, g2, g3, -, hn⟩
    · exact hl hok.2.2.2.1
    · obtain rfl : l = k := h.unique l k hl hk g1 h1 (g2.trans h2.symm) (g3.trans h3.symm)
      rw [hok.2.1] at hn
      exact hn hok.2.2.2.1

theorem gains_of_link (h : Inv s) {dev inum : ℕ} (hidle : s.pc p = .idle) (hptr : s.ptr (p, i) = none)
    (hl : HasLink s dev inum) (he : iget s dev inum = .ok (k, x)) : Gains s k x p i := by
  obtain ⟨hk, rfl, rfl, hr, hlk, hu, hc⟩ := iget_cases h he
  obtain ⟨htype, halone, hst⟩ := h.linked hl
  refine ⟨hk, hptr, by rw [hidle]; rfl, by rw [hidle]; rfl, hr, hlk, ?_, hu, htype, fun u j _ => halone u j⟩
  rcases hc with ⟨h1, h2, h3, h4, h5⟩ | hc
  · exact .inl ⟨h1, h2.symm, h3.symm, h4, h5, hst k hk h1 h2 h3⟩
  · exact .inr hc

theorem gains_of_ialloc (h : Inv s) {dev inum : ℕ} (hpc : s.pc p = .ialloc i dev inum)
    (he : iget s dev inum = .ok (k, x)) : Gains s k x p i := by
  obtain ⟨hk, rfl, rfl, hr, hlk, hu, hc⟩ := iget_cases h he
  obtain ⟨hptr, hmk⟩ := h.marked p i _ _ hpc
  refine ⟨hk, hptr, by rw [hpc]; rfl, by rw [hpc]; rfl, hr, hlk, ?_, hu, hmk.type, fun u j hup hu => ?_⟩
  · rcases hc with ⟨h1, h2, h3, h4, h5⟩ | hc
    · refine .inl ⟨h1, h2.symm, h3.symm, h4, h5, fun hst => ?_⟩
      have hok := h.slots k hk h1
      rw [hst] at hok
      rcases hmk.stale k hk h1 h2 h3 with h6 | h6
      · exact absurd (hok.1.symm.trans h6) (by simp)
      · rw [hst] at h6
        cases h6
    · exact .inr hc
  · exact hup (h.markedBy u p j i _ _ hu hpc)

theorem gains_of_idup (h : Inv s) {j : ℕ} (hidle : s.pc p = .idle) (hptr : s.ptr (p, i) = some k)
    (hj : s.ptr (p, j) = none) : Gains s k { s.slot k with ref := (s.slot k).ref + 1 } p j := by
  have hk := h.range _ k hptr
  have href := h.ref_pos hptr
  have hlv : (s.pc p).leaving ≠ some i := by
    rw [hidle]
    simp [Pc.leaving]
  refine ⟨hk, hj, by rw [hidle]; rfl, by rw [hidle]; rfl, rfl, rfl, .inl ⟨href, rfl, rfl, rfl, rfl, fun hst => ?_⟩,
    fun l hl hlk h1 h2 => hlk (h.unique l k hl hk h1 href h2.1 h2.2), fun h0 => ?_, fun u j' _ hu => ?_⟩
  · -- the process that frees the inode has the only reference, and is not at rest
    have hok := h.slots k hk href
    rw [hst] at hok
    have hone := h.refs k hk
    rw [hok.2.2.2.2] at hone
    unfold Sys.stage at hst
    split at hst
    · cases hst
    · next u hu =>
      rcases ho : (s.pc u).on with _ | ⟨m, st⟩
      · simp [ho] at hst
      · simp only [ho] at hst
        split at hst
        · next hm =>
          obtain ⟨rfl, rfl⟩ := Prod.mk.inj (hone.one hm hptr)
          rw [hidle] at ho
          simp [Pc.on] at ho
        · cases hst
  · exact hlv ((h.zero _ _ h0).2 p i k hptr rfl rfl)
  · exact hlv ((h.marked u j' _ _ hu).2.quiet p i k hptr rfl rfl)

/-! ### The steps -/

/-- Unless the inode has just been freed, a valid copy is what is on disk. -/
def CopyOk (s : Sys) (k : ℕ) : Prop :=
  (s.slot k).valid = true → s.stage k ≠ .freed → (s.slot k).din = s.dinode k

/-- What an event says about the slot. -/
def EvOk (s : Sys) (k : ℕ) (x : Slot) (d : Dinode) (p : ℕ) (e : Ev) : Prop :=
  (e = .locked p k ∧ x.valid = true ∧ x.din = d ∧ d.type ≠ 0) ∨
    (e = .frees p k ∧ (s.slot k).ref = 1 ∧ (s.slot k).din.nlink = 0 ∧ (s.dinode k).nlink = 0)

/-- The calls that write an inode to disk, other than to free it. -/
def Act.writes : Act → Bool
  | .iupdate .. => true
  | .ialloc .. => true
  | _ => false

/-- What a step can do. -/
inductive Change (s : Sys) (a : Act) : Sys → List Ev → Prop
  | move {k : ℕ} {x : Slot} {d : Dinode} {p i : ℕ} {q : Pc} {tr : List Ev} (hm : Moves s k x d p i q)
      (hev : ∀ e ∈ tr, EvOk s k x d p e)
      (hdisk : d ≠ s.dinode k → (d.type ≠ 0 ∧ a.writes = true) ∨ .frees p k ∈ tr)
      (hcopy : (∀ p i d, a ≠ .change p i d) → CopyOk s k →
        (x.valid = true → lockStage x.lock q ≠ .freed → x.din = d) ∧
          (d = s.dinode k ∨ (s.dinode k).nlink = 0)) : Change s a (moved s k x d p q) tr
  | gain {k : ℕ} {x : Slot} {p i : ℕ} (hg : Gains s k x p i)
      (hid : HasLink s x.dev x.inum ∨ s.pc p = .ialloc i x.dev x.inum ∨
        0 < (s.slot k).ref ∧ x.dev = (s.slot k).dev ∧ x.inum = (s.slot k).inum) :
      Change s a (gained s k x p i) []
  | lose {k p i : ℕ} (hptr : s.ptr (p, i) = some k) (hon : (s.pc p).on = none)
      (hlv : ∀ j, (s.pc p).leaving = some j → j = i) : Change s a (lost s k p i) []
  | mark {p i dev inum type : ℕ} (hidle : s.pc p = .idle) (hptr : s.ptr (p, i) = none) (htype : type ≠ 0)
      (hfree : (s.disk dev inum).type = 0) (ha : a.writes = true) : Change s a (allocated s p i dev inum type) []

theorem Change.inv {a : Act} (h : Inv s) (hc : Change s a s' tr) : Inv s' := by
  cases hc with
  | move hm _ _ _ => exact h.move hm
  | gain hg _ => exact h.gain hg
  | lose hptr hon hlv => exact h.lose hptr hon hlv
  | mark hidle hptr htype hfree _ => exact h.mark hidle hptr htype hfree

theorem setSlot_eq_moved : (s.setSlot k x).setPc p q = moved s k x (s.dinode k) p q := by
  unfold moved Sys.dinode
  rw [putDisk_self]
  rfl

theorem setPc_self (hpc : s.pc p = q) : s.setPc p q = s := by
  unfold Sys.setPc
  rw [← hpc, Function.update_eq_self]

theorem setSlot_self : s.setSlot k (s.slot k) = s := by
  unfold Sys.setSlot
  rw [Function.update_eq_self]

theorem iupdate_eq_moved :
    (iupdate (s.setSlot k { s.slot k with din := d }) k).setPc p q = moved s k { s.slot k with din := d } d p q := by
  have hself : (s.setSlot k { s.slot k with din := d }).slot k = { s.slot k with din := d } := Function.update_self ..
  unfold iupdate
  rw [hself]
  rfl

/-- The process takes the free lock of a slot. -/
theorem moves_lock (hidle : s.pc p = .idle) (hptr : s.ptr (p, i) = some k) (hl : (s.slot k).lock = none)
    (hon : ∀ j st, q.on = some (j, st) → j = i) (halloc : ∀ j d n, q ≠ .ialloc j d n)
    (hok : SlotOk (lockStage (some p) q) { s.slot k with lock := some p } (s.dinode k)) :
    Moves s k { s.slot k with lock := some p } (s.dinode k) p i q where
  ptr := hptr
  ref := rfl
  dev := rfl
  inum := rfl
  lock := .inl hl
  lock' := .inr rfl
  on := by simp [hidle, Pc.on]
  on' := fun j st hj => ⟨hon j st hj, rfl⟩
  noAlloc := halloc
  leaving := by simp [hidle, Pc.leaving]
  ok := hok
  gone := fun _ => .inl rfl

/-- The holder of a lock, at rest, changes the copy, the inode on disk or the lock. -/
theorem moves_holder (hidle : s.pc p = .idle) (hptr : s.ptr (p, i) = some k) (hl : (s.slot k).lock = some p)
    (hx : x.ref = (s.slot k).ref ∧ x.dev = (s.slot k).dev ∧ x.inum = (s.slot k).inum)
    (hlock : x.lock = none ∨ x.lock = some p) (hok : SlotOk (lockStage x.lock .idle) x d)
    (htype : d.type = 0 → d = s.dinode k) : Moves s k x d p i .idle where
  ptr := hptr
  ref := hx.1
  dev := hx.2.1
  inum := hx.2.2
  lock := .inr hl
  lock' := hlock
  on := by simp [hidle, Pc.on]
  on' := by simp [Pc.on]
  noAlloc := by simp
  leaving := by simp [hidle, Pc.leaving]
  ok := hok
  gone := fun h0 => .inl (htype h0)

section Busy

variable {st : Stage} (h : Inv s) (hon : (s.pc p).on = some (i, st)) (hptr : s.ptr (p, i) = some k)
include h hon hptr

theorem Inv.busy_lock : (s.slot k).lock = some p := by
  obtain ⟨l, hl, hlock⟩ := h.busy p i st hon
  rw [hptr] at hl
  obtain rfl := Option.some.inj hl
  exact hlock

theorem Inv.busy_stage : s.stage k = st := by
  have hl := h.busy_lock hon hptr
  rw [stage_of_lock hptr (.inr hl) (fun j st' hj => by rw [hon] at hj; cases hj; rfl), hl]
  simp only [lockStage, hon]

/-- What is known of the slot a process works on. -/
theorem Inv.busy_ok : SlotOk st (s.slot k) (s.dinode k) := by
  have hok := h.slots k (h.range _ k hptr) (h.ref_pos hptr)
  rwa [h.busy_stage hon hptr] at hok

/-- The holder of a lock goes on with the function it is in. -/
theorem moves_on (hx : x.ref = (s.slot k).ref ∧ x.dev = (s.slot k).dev ∧ x.inum = (s.slot k).inum)
    (hlock : x.lock = none ∨ x.lock = some p) (hq : ∀ j st, q.on = some (j, st) → j = i ∧ x.lock = some p)
    (halloc : ∀ j d n, q ≠ .ialloc j d n)
    (hlv : ∀ j, (s.pc p).leaving = some j → j = i ∧ q.leaving = some i ∧ d = s.dinode k ∧ x.valid = false)
    (hok : SlotOk (lockStage x.lock q) x d)
    (hgone : d.type = 0 → d = s.dinode k ∨ (d.nlink = 0 ∧ (s.slot k).ref = 1 ∧ q.leaving = some i)) :
    Moves s k x d p i q where
  ptr := hptr
  ref := hx.1
  dev := hx.2.1
  inum := hx.2.2
  lock := .inr (h.busy_lock hon hptr)
  lock' := hlock
  on := fun j st' hj => by
    rw [hon] at hj
    cases hj
    rfl
  on' := hq
  noAlloc := halloc
  leaving := hlv
  ok := hok
  gone := hgone

end Busy

/-! ### One step of a process at rest -/

section Begins

variable {a : Act} (h : Inv s) (hidle : s.pc p = .idle)
include h hidle

theorem change_iget {u dev inum : ℕ} (he : begins s p (.iget u i dev inum) = .ok (s', tr)) : Change s a s' tr := by
  simp only [begins] at he
  split_ifs at he with hg
  rw [not_or, not_not, not_not] at hg
  cases hi : iget s dev inum with
  | error e => simp [hi, bind, Except.bind] at he
  | ok r =>
    obtain ⟨k, x⟩ := r
    simp only [hi, bind, Except.bind] at he
    obtain ⟨rfl, rfl⟩ := Prod.mk.inj (Except.ok.inj he)
    have hx := iget_cases h hi
    have hgain : (s.setSlot k x).setPtr (p, i) (some k) = gained s k x p i := by
      unfold gained
      rw [← hidle, Function.update_eq_self]
      rfl
    rw [hgain]
    refine .gain (gains_of_link h hidle hg.1 hg.2 hi) (.inl ?_)
    rw [hx.2.1, hx.2.2.1]
    exact hg.2

theorem change_idup {u j : ℕ} (he : begins s p (.idup u i j) = .ok (s', tr)) : Change s a s' tr := by
  simp only [begins] at he
  split at he
  · next k hptr =>
    split_ifs at he with hj
    obtain ⟨rfl, rfl⟩ := Prod.mk.inj (Except.ok.inj he)
    have hgain : (s.setSlot k { s.slot k with ref := (s.slot k).ref + 1 }).setPtr (p, j) (some k) =
        gained s k { s.slot k with ref := (s.slot k).ref + 1 } p j := by
      unfold gained
      rw [← hidle, Function.update_eq_self]
      rfl
    rw [hgain]
    exact .gain (gains_of_idup h hidle hptr (not_not.mp hj)) (.inr (.inr ⟨h.ref_pos hptr, rfl, rfl⟩))
  · cases he

theorem change_ilock {u : ℕ} (he : begins s p (.ilock u i) = .ok (s', tr)) : Change s a s' tr := by
  simp only [begins] at he
  split at he
  · next k hptr =>
    split_ifs at he with h1 h2
    obtain ⟨rfl, rfl⟩ := Prod.mk.inj (Except.ok.inj he)
    have hl := not_not.mp h2
    have hst := stage_free hl
    have hok := h.slots k (h.range _ k hptr) (h.ref_pos hptr)
    rw [hst] at hok
    rw [setSlot_eq_moved]
    refine .move (moves_lock hidle hptr hl ?_ (by simp) hok) (by simp) (fun hne => absurd rfl hne) fun _ hc =>
      ⟨fun hv _ => hc hv (by rw [hst]; simp), .inl rfl⟩
    intro j st hj
    simp only [Pc.on, Option.some.injEq, Prod.mk.injEq] at hj
    exact hj.1.symm
  · cases he

theorem change_iunlock {u : ℕ} (he : begins s p (.iunlock u i) = .ok (s', tr)) : Change s a s' tr := by
  simp only [begins] at he
  split at he
  · next k hptr =>
    split_ifs at he with h1 h2
    obtain ⟨rfl, rfl⟩ := Prod.mk.inj (Except.ok.inj he)
    have hl : (s.slot k).lock = some p := not_not.mp fun hl => h1 (.inl hl)
    have hok := h.slots k (h.range _ k hptr) (h.ref_pos hptr)
    rw [stage_working hl hidle] at hok
    have heq : (s.slot k).valid = true → (s.slot k).din = s.dinode k := fun hv =>
      not_not.mp fun hne => h2 ⟨hv, hne⟩
    rw [← setPc_self (s := s.setSlot k { s.slot k with lock := none }) hidle, setSlot_eq_moved]
    refine .move (moves_holder hidle hptr hl ⟨rfl, rfl, rfl⟩ (.inl rfl) (fun hv => ⟨heq hv, (hok hv).2⟩) fun _ => rfl)
      (by simp) (fun hne => absurd rfl hne) fun _ _ => ⟨fun hv _ => heq hv, .inl rfl⟩
  · cases he

theorem change_change {u : ℕ} (he : begins s p (.change u i d) = .ok (s', tr)) :
    Change s (.change u i d) s' tr := by
  simp only [begins] at he
  split at he
  · next k hptr =>
    split_ifs at he with h1
    obtain ⟨rfl, rfl⟩ := Prod.mk.inj (Except.ok.inj he)
    rw [not_or, not_or, not_not] at h1
    obtain ⟨hl, -, htype⟩ := h1
    have hok := h.slots k (h.range _ k hptr) (h.ref_pos hptr)
    rw [stage_working hl hidle] at hok
    rw [← setPc_self (s := s.setSlot k { s.slot k with din := d }) hidle, setSlot_eq_moved]
    refine .move (moves_holder hidle hptr hl ⟨rfl, rfl, rfl⟩ (.inr hl) ?_ fun _ => rfl)
      (by simp) (fun hne => absurd rfl hne) fun hne _ => absurd rfl (hne u i d)
    rw [hl]
    exact fun hv => ⟨htype, (hok hv).2⟩
  · cases he

theorem change_iupdate {u : ℕ} (he : begins s p (.iupdate u i) = .ok (s', tr)) :
    Change s (.iupdate u i) s' tr := by
  simp only [begins] at he
  split at he
  · next k hptr =>
    split_ifs at he with h1
    obtain ⟨rfl, rfl⟩ := Prod.mk.inj (Except.ok.inj he)
    rw [not_or, not_not, Bool.not_eq_false] at h1
    obtain ⟨hl, hv⟩ := h1
    have hst := stage_working hl hidle
    have hok := h.slots k (h.range _ k hptr) (h.ref_pos hptr)
    rw [hst] at hok
    have hmoved : iupdate s k = moved s k (s.slot k) (s.slot k).din p .idle := by
      have hup := iupdate_eq_moved (s := s) (k := k) (d := (s.slot k).din) (p := p) (q := .idle)
      rwa [setSlot_self, setPc_self] at hup
      exact hidle
    rw [hmoved]
    refine .move (moves_holder hidle hptr hl ⟨rfl, rfl, rfl⟩ (.inr hl) ?_ fun h0 => absurd h0 (hok hv).1)
      (by simp) (fun _ => .inl ⟨(hok hv).1, rfl⟩) fun _ hc => ⟨fun _ _ => rfl, .inl (hc hv (by rw [hst]; simp))⟩
    rw [hl]
    exact fun _ => ⟨(hok hv).1, (hok hv).1⟩
  · cases he

omit h in
theorem change_ialloc {u dev inum type : ℕ} (he : begins s p (.ialloc u i dev inum type) = .ok (s', tr)) :
    Change s (.ialloc u i dev inum type) s' tr := by
  simp only [begins] at he
  split_ifs at he with h1
  obtain ⟨rfl, rfl⟩ := Prod.mk.inj (Except.ok.inj he)
  rw [not_or, not_or, not_not, not_not] at h1
  exact .mark hidle h1.1 h1.2.1 h1.2.2 rfl

theorem change_iput {u : ℕ} (he : begins s p (.iput u i) = .ok (s', tr)) : Change s a s' tr := by
  simp only [begins] at he
  split at he
  · next k hptr =>
    split_ifs at he with h1 h2
    · obtain ⟨rfl, rfl⟩ := Prod.mk.inj (Except.ok.inj he)
      obtain ⟨href, hv, hn⟩ := h1
      have hl := not_not.mp h2
      have hst := stage_free hl
      have hok := h.slots k (h.range _ k hptr) (h.ref_pos hptr)
      rw [hst] at hok
      obtain ⟨hd, htype⟩ := hok hv
      rw [setSlot_eq_moved]
      refine .move (moves_lock hidle hptr hl ?_ (by simp) ⟨hv, hd, htype, by rw [← hd]; exact hn, href⟩) (by simp)
        (fun hne => absurd rfl hne) fun _ _ => ⟨fun _ _ => hd, .inl rfl⟩
      intro j st hj
      simp only [Pc.on, Option.some.injEq, Prod.mk.injEq] at hj
      exact hj.1.symm
    · obtain ⟨rfl, rfl⟩ := Prod.mk.inj (Except.ok.inj he)
      have hlost : (s.setSlot k { s.slot k with ref := (s.slot k).ref - 1 }).setPtr (p, i) none = lost s k p i := by
        unfold lost
        rw [← hidle, Function.update_eq_self]
        rfl
      rw [hlost]
      exact .lose hptr (by rw [hidle]; rfl) (by simp [hidle, Pc.leaving])
  · cases he

end Begins

/-! ### One step inside a function -/

section GoesOn

variable {a : Act} (h : Inv s) (he : goesOn s p = .ok (s', tr))
include h he

theorem change_run_ialloc {dev inum : ℕ} (hpc : s.pc p = .ialloc i dev inum) : Change s a s' tr := by
  simp only [goesOn, hpc] at he
  cases hi : iget s dev inum with
  | error e => simp [hi, bind, Except.bind] at he
  | ok r =>
    obtain ⟨k, x⟩ := r
    simp only [hi, bind, Except.bind] at he
    obtain ⟨rfl, rfl⟩ := Prod.mk.inj (Except.ok.inj he)
    have hx := iget_cases h hi
    exact .gain (gains_of_ialloc h hpc hi) (.inr (.inl (by rw [hx.2.1, hx.2.2.1]; exact hpc)))

theorem change_run_ilock (hpc : s.pc p = .ilock i) : Change s a s' tr := by
  have hon : (s.pc p).on = some (i, .loading) := by rw [hpc]; rfl
  have hlv : (s.pc p).leaving = none := by rw [hpc]; rfl
  simp only [goesOn, hpc] at he
  split at he
  · next k hptr =>
    have hok := h.busy_ok hon hptr
    have hl := h.busy_lock hon hptr
    split_ifs at he with hv htype
    · obtain ⟨rfl, rfl⟩ := Prod.mk.inj (Except.ok.inj he)
      obtain ⟨hd, htype⟩ := hok hv
      have hmoved : s.setPc p .idle = moved s k (s.slot k) (s.dinode k) p .idle := by
        rw [← setSlot_eq_moved, setSlot_self]
      rw [hmoved]
      refine .move (moves_on h hon hptr ⟨rfl, rfl, rfl⟩ (.inr hl) (by simp [Pc.on]) (by simp) (by simp [hlv]) ?_
        fun _ => .inl rfl) (fun e he => .inl ⟨by simpa using he, hv, hd, htype⟩) (fun hne => absurd rfl hne)
        fun _ _ => ⟨fun _ _ => hd, .inl rfl⟩
      rw [hl]
      exact fun _ => ⟨by rw [hd]; exact htype, htype⟩
    · obtain ⟨rfl, rfl⟩ := Prod.mk.inj (Except.ok.inj he)
      rw [setSlot_eq_moved]
      refine .move (moves_on h hon hptr ⟨rfl, rfl, rfl⟩ (.inr hl) (by simp [Pc.on]) (by simp) (by simp [hlv]) ?_
        fun _ => .inl rfl) (fun e he => .inl ⟨by simpa using he, rfl, rfl, htype⟩) (fun hne => absurd rfl hne)
        fun _ _ => ⟨fun _ _ => rfl, .inl rfl⟩
      rw [hl]
      exact fun _ => ⟨htype, htype⟩
  · cases he

theorem change_run_freeing (hpc : s.pc p = .freeing i) : Change s a s' tr := by
  have hon : (s.pc p).on = some (i, .freeing) := by rw [hpc]; rfl
  have hlv : (s.pc p).leaving = none := by rw [hpc]; rfl
  simp only [goesOn, hpc] at he
  split at he
  · next k hptr =>
    obtain ⟨rfl, rfl⟩ := Prod.mk.inj (Except.ok.inj he)
    obtain ⟨hv, hd, htype, hn, href⟩ := h.busy_ok hon hptr
    have hl := h.busy_lock hon hptr
    have htype' : (trunc (s.slot k).din).type ≠ 0 := by
      rw [hd]
      exact htype
    rw [iupdate_eq_moved]
    refine .move (moves_on h hon hptr ⟨rfl, rfl, rfl⟩ (.inr hl) ?_ (by simp) (by simp [hlv]) ?_
      fun h0 => absurd h0 htype') (fun e he => .inr ⟨by simpa using he, href, by rw [hd]; exact hn, hn⟩)
      (fun _ => by simp) fun _ _ => ⟨fun _ _ => rfl, .inr hn⟩
    · intro j st hj
      simp only [Pc.on, Option.some.injEq, Prod.mk.injEq] at hj
      exact ⟨hj.1.symm, hl⟩
    · rw [hl]
      exact ⟨hv, rfl, htype', by change (s.slot k).din.nlink = 0; rw [hd]; exact hn, href⟩
  · cases he

theorem change_run_truncated (hpc : s.pc p = .truncated i) : Change s a s' tr := by
  have hon : (s.pc p).on = some (i, .freeing) := by rw [hpc]; rfl
  have hlv : (s.pc p).leaving = none := by rw [hpc]; rfl
  simp only [goesOn, hpc] at he
  split at he
  · next k hptr =>
    obtain ⟨rfl, rfl⟩ := Prod.mk.inj (Except.ok.inj he)
    obtain ⟨hv, hd, htype, hn, href⟩ := h.busy_ok hon hptr
    have hl := h.busy_lock hon hptr
    have hn' : (s.slot k).din.nlink = 0 := by
      rw [hd]
      exact hn
    rw [iupdate_eq_moved]
    refine .move (moves_on h hon hptr ⟨rfl, rfl, rfl⟩ (.inr hl) ?_ (by simp) (by simp [hlv]) ?_
      fun _ => .inr ⟨hn', href, rfl⟩) (fun e he => .inr ⟨by simpa using he, href, hn', hn⟩)
      (fun _ => by simp) fun _ _ => ⟨fun _ _ => rfl, .inr hn⟩
    · intro j st hj
      simp only [Pc.on, Option.some.injEq, Prod.mk.injEq] at hj
      exact ⟨hj.1.symm, hl⟩
    · rw [hl]
      exact hn'
  · cases he

theorem change_run_freed (hpc : s.pc p = .freed i) : Change s a s' tr := by
  have hon : (s.pc p).on = some (i, .freed) := by rw [hpc]; rfl
  have hlv : (s.pc p).leaving = some i := by rw [hpc]; rfl
  simp only [goesOn, hpc] at he
  split at he
  · next k hptr =>
    obtain ⟨rfl, rfl⟩ := Prod.mk.inj (Except.ok.inj he)
    have hl := h.busy_lock hon hptr
    rw [setSlot_eq_moved]
    refine .move (moves_on h hon hptr ⟨rfl, rfl, rfl⟩ (.inr hl) ?_ (by simp) ?_ ?_ fun _ => .inl rfl) (by simp)
      (fun hne => absurd rfl hne) fun _ _ => ⟨by simp, .inl rfl⟩
    · intro j st hj
      simp only [Pc.on, Option.some.injEq, Prod.mk.injEq] at hj
      exact ⟨hj.1.symm, hl⟩
    · intro j hj
      rw [hlv] at hj
      exact ⟨(Option.some.inj hj).symm, rfl, rfl, rfl⟩
    · rw [hl]
      rfl
  · cases he

theorem change_run_invalid (hpc : s.pc p = .invalid i) : Change s a s' tr := by
  have hon : (s.pc p).on = some (i, .invalid) := by rw [hpc]; rfl
  have hlv : (s.pc p).leaving = some i := by rw [hpc]; rfl
  simp only [goesOn, hpc] at he
  split at he
  · next k hptr =>
    obtain ⟨rfl, rfl⟩ := Prod.mk.inj (Except.ok.inj he)
    have hv : (s.slot k).valid = false := h.busy_ok hon hptr
    rw [setSlot_eq_moved]
    refine .move (moves_on h hon hptr ⟨rfl, rfl, rfl⟩ (.inl rfl) (by simp [Pc.on]) (by simp) ?_ ?_ fun _ => .inl rfl)
      (by simp) (fun hne => absurd rfl hne) fun _ _ => ⟨by simp [hv], .inl rfl⟩
    · intro j hj
      rw [hlv] at hj
      exact ⟨(Option.some.inj hj).symm, rfl, rfl, hv⟩
    · simp [lockStage, SlotOk, hv]
  · cases he

omit h in
theorem change_run_dropping (hpc : s.pc p = .dropping i) : Change s a s' tr := by
  simp only [goesOn, hpc] at he
  split at he
  · next k hptr =>
    obtain ⟨rfl, rfl⟩ := Prod.mk.inj (Except.ok.inj he)
    refine .lose hptr (by rw [hpc]; rfl) fun j hj => ?_
    rw [hpc] at hj
    exact (Option.some.inj hj).symm
  · cases he

end GoesOn

/-- **Every step is one of the four changes**. -/
theorem step_change {a : Act} (h : Inv s) (he : step s a = .ok (s', tr)) : Change s a s' tr := by
  cases a with
  | run p =>
    simp only [step] at he
    cases hpc : s.pc p with
    | idle => simp [goesOn, hpc] at he
    | ialloc i dev inum => exact change_run_ialloc h he hpc
    | ilock i => exact change_run_ilock h he hpc
    | freeing i => exact change_run_freeing h he hpc
    | truncated i => exact change_run_truncated h he hpc
    | freed i => exact change_run_freed h he hpc
    | invalid i => exact change_run_invalid h he hpc
    | dropping i => exact change_run_dropping he hpc
  | _ =>
    simp only [step] at he
    split_ifs at he with hidle
    rw [not_not] at hidle
    first
      | exact change_iget h hidle he
      | exact change_idup h hidle he
      | exact change_ilock h hidle he
      | exact change_iunlock h hidle he
      | exact change_change h hidle he
      | exact change_iupdate h hidle he
      | exact change_ialloc hidle he
      | exact change_iput h hidle he

theorem inv_step (s : Sys) (a : Act) (s' : Sys) (tr : List Ev) (h : Inv s) (he : step s a = .ok (s', tr)) : Inv s' :=
  (step_change h he).inv h

theorem inv_boot {disk : ℕ → ℕ → Dinode} (h0 : ∀ d n, (disk d n).type = 0 → (disk d n).nlink = 0) :
    Inv (boot disk) where
  unique _ _ _ _ h := absurd h (by simp [boot])
  refs _ _ := Tally.zero fun _ => by simp [boot]
  range _ _ h := by simp [boot] at h
  busy _ _ _ h := by simp [boot, Pc.on] at h
  slots _ _ h := by simp [boot] at h
  zero d n h := ⟨h0 d n h, fun _ _ _ h => by simp [boot] at h⟩
  marked _ _ _ _ h := by simp [boot] at h
  markedBy _ _ _ _ _ _ h := by simp [boot] at h

theorem inv_run {disk : ℕ → ℕ → Dinode} (h0 : ∀ d n, (disk d n).type = 0 → (disk d n).nlink = 0)
    {acts : List Act} (hr : run step (boot disk) acts = .ok (s, tr)) : Inv s :=
  run_inv (I := fun s _ => Inv s) (inv_boot h0) (fun s _ a s' t' h he => inv_step s a s' t' h he) hr

/-! ### While nobody changes inodes -/

/-- No slot in use is for the inode, and nobody is about to get it from `ialloc`. -/
def Forgotten (s : Sys) (dev inum : ℕ) : Prop :=
  (∀ l, l < NINODE → 0 < (s.slot l).ref → ¬ ((s.slot l).dev = dev ∧ (s.slot l).inum = inum)) ∧
    ∀ u j, s.pc u ≠ .ialloc j dev inum

/-- Every valid copy is what is on disk. One without references may be of an
inode that has no links, if its last reference went while it was being freed
for the second time; nobody finds that inode again. -/
structure Still (s : Sys) : Prop where
  used : ∀ k, k < NINODE → 0 < (s.slot k).ref → CopyOk s k
  unused : ∀ k, k < NINODE → (s.slot k).ref = 0 → (s.slot k).valid = true →
    (s.slot k).din = s.dinode k ∧ (s.dinode k).type ≠ 0 ∧
      ((s.dinode k).nlink = 0 → Forgotten s (s.slot k).dev (s.slot k).inum)

theorem Still.move (hs : Still s) (h : Inv s) (hm : Moves s k x d p i q)
    (hx : x.valid = true → lockStage x.lock q ≠ .freed → x.din = d)
    (hd : d = s.dinode k ∨ (s.dinode k).nlink = 0) : Still (moved s k x d p q) := by
  have hk := h.range _ k hm.ptr
  have href := h.ref_pos hm.ptr
  refine ⟨fun l hl h1 => ?_, fun l hl h1 hv => ?_⟩
  · rw [hm.slot_ref] at h1
    by_cases hlk : l = k
    · subst hlk
      have hslot : (moved s l x d p q).slot l = x := Function.update_self ..
      unfold CopyOk
      rw [hm.stage_self, hm.dinode_self, hslot]
      exact hx
    · have hslot : (moved s k x d p q).slot l = s.slot l := Function.update_of_ne hlk ..
      have hdin : (moved s k x d p q).dinode l = s.dinode l := by
        rw [Sys.dinode, hslot]
        exact moved_disk_other fun he => hlk (h.unique l k hl hk h1 href he.1 he.2)
      unfold CopyOk
      rw [hm.stage_other hlk, hdin, hslot]
      exact hs.used l hl h1
  · rw [hm.slot_ref] at h1
    have hlk : l ≠ k := by
      rintro rfl
      omega
    have hslot : (moved s k x d p q).slot l = s.slot l := Function.update_of_ne hlk ..
    rw [hslot] at hv
    obtain ⟨heq, htype, hfor⟩ := hs.unused l hl h1 hv
    have hdin : (moved s k x d p q).dinode l = s.dinode l := by
      rw [Sys.dinode, hslot]
      by_cases hid : (s.slot l).dev = (s.slot k).dev ∧ (s.slot l).inum = (s.slot k).inum
      · have hsame : s.dinode l = s.dinode k := by
          unfold Sys.dinode
          rw [hid.1, hid.2]
        rcases hd with hd | hd
        · rw [hid.1, hid.2, hsame, ← hd]
          exact putDisk_same ..
        · -- the inode has no links and is in use
          rw [← hsame] at hd
          exact absurd ⟨hid.1.symm, hid.2.symm⟩ ((hfor hd).1 k hk href)
      · exact moved_disk_other hid
    rw [hdin, hslot]
    refine ⟨heq, htype, fun hn => ⟨fun m hm' h2 => ?_, fun u j hu => ?_⟩⟩
    · rw [hm.slot_ref] at h2
      rw [hm.slot_dev, hm.slot_inum]
      exact (hfor hn).1 m hm' h2
    · by_cases hup : u = p
      · rw [hup] at hu
        simp only [moved, Function.update_self] at hu
        exact hm.noAlloc _ _ _ hu
      · simp only [moved, Function.update_of_ne hup] at hu
        exact (hfor hn).2 u j hu

theorem Still.gain (hs : Still s) (hg : Gains s k x p i)
    (hid : HasLink s x.dev x.inum ∨ s.pc p = .ialloc i x.dev x.inum ∨
      0 < (s.slot k).ref ∧ x.dev = (s.slot k).dev ∧ x.inum = (s.slot k).inum) : Still (gained s k x p i) := by
  have hxk : (gained s k x p i).slot k = x := Function.update_self ..
  refine ⟨fun l hl h1 => ?_, fun l hl h1 hv => ?_⟩
  · unfold CopyOk
    rw [hg.stage_eq, Sys.dinode]
    rcases hg.slot_cases hl h1 with ⟨rfl, e⟩ | ⟨-, e, h1, -⟩
    · rw [e]
      rcases hg.slot with ⟨r, hd, hn, hv, hdin, -⟩ | ⟨-, hv⟩
      · rw [hd, hn, hv, hdin]
        exact hs.used l hl r
      · simp [hv]
    · rw [e]
      exact hs.used l hl h1
  · have hlk : l ≠ k := by
      rintro rfl
      rw [hxk, hg.ref] at h1
      omega
    have hslot : (gained s k x p i).slot l = s.slot l := Function.update_of_ne hlk ..
    rw [hslot] at h1 hv
    rw [Sys.dinode, hslot]
    obtain ⟨heq, htype, hfor⟩ := hs.unused l hl h1 hv
    refine ⟨heq, htype, fun hn => ?_⟩
    obtain ⟨hused, halloc⟩ := hfor hn
    refine ⟨fun m hm h2 hsame => ?_, fun u j hu => ?_⟩
    · rcases hg.slot_cases hm h2 with ⟨rfl, e⟩ | ⟨-, e, h2, -⟩
      · rw [e] at hsame
        rw [hsame.1, hsame.2] at hid
        rcases hid with (hl' | ⟨n, hn', g1, g2, g3, -⟩) | hid | ⟨g1, g2, g3⟩
        · exact hl' hn
        · exact hused n hn' g1 ⟨g2, g3⟩
        · exact halloc p i hid
        · exact hused m hm g1 ⟨g2.symm, g3.symm⟩
      · rw [e] at hsame
        exact hused m hm h2 hsame
    · by_cases hup : u = p
      · rw [hup] at hu
        simp [gained] at hu
      · simp only [gained, Function.update_of_ne hup] at hu
        exact halloc u j hu

theorem Still.lose (hs : Still s) (h : Inv s) (hptr : s.ptr (p, i) = some k) (hon : (s.pc p).on = none)
    (h' : Inv (lost s k p i)) : Still (lost s k p i) := by
  have hk := h.range _ k hptr
  have href := h.ref_pos hptr
  have hdin : ∀ l, (lost s k p i).dinode l = s.dinode l := by
    intro l
    rw [Sys.dinode, (lost_slot l).1, (lost_slot l).2.1]
    rfl
  have hle : ∀ l, 0 < ((lost s k p i).slot l).ref → 0 < (s.slot l).ref := fun l h1 =>
    h1.trans_le (lost_slot l).2.2.2.2.2
  have halloc : ∀ u j d' n, (lost s k p i).pc u = .ialloc j d' n → s.pc u = .ialloc j d' n := by
    intro u j d' n hu
    by_cases hup : u = p
    · rw [hup] at hu
      simp [lost] at hu
    · simpa only [lost, Function.update_of_ne hup] using hu
  refine ⟨fun l hl h1 => ?_, fun l hl h1 hv => ?_⟩
  · unfold CopyOk
    rw [lost_stage hon, hdin, (lost_slot l).2.2.1, (lost_slot l).2.2.2.2.1]
    exact hs.used l hl (hle l h1)
  · have hst := h'.stage_unused h1 hl
    rw [lost_stage hon] at hst
    rw [(lost_slot l).2.2.1] at hv
    rw [hdin, (lost_slot l).2.2.2.2.1, (lost_slot l).1, (lost_slot l).2.1]
    by_cases h0 : (s.slot l).ref = 0
    · obtain ⟨heq, htype, hfor⟩ := hs.unused l hl h0 hv
      refine ⟨heq, htype, fun hn => ⟨fun m hm h2 => ?_, fun u j hu => (hfor hn).2 u j (halloc _ _ _ _ hu)⟩⟩
      rw [(lost_slot m).1, (lost_slot m).2.1]
      exact (hfor hn).1 m hm (hle m h2)
    · -- the last reference to slot `l` has gone
      have h0 : 0 < (s.slot l).ref := Nat.pos_of_ne_zero h0
      have hok := h.slots l hl h0
      have hnf : s.stage l ≠ .freed := by
        rcases hst with hst | hst <;> simp [hst]
      refine ⟨hs.used l hl h0 hv hnf, ?_, fun hn => ⟨fun m hm h2 hsame => ?_, fun u j hu => ?_⟩⟩
      · rcases hst with hst | hst
        · rw [hst] at hok
          exact (hok hv).2
        · rw [hst] at hok
          exact (hok hv).2
      · rw [(lost_slot m).1, (lost_slot m).2.1] at hsame
        obtain rfl := h.unique m l hm hl (hle m h2) h0 hsame.1 hsame.2
        omega
      · have hmk := (h.marked u j _ _ (halloc _ _ _ _ hu)).2
        rcases hmk.stale l hl h0 rfl rfl with h3 | h3
        · simp [hv] at h3
        · exact hnf h3

theorem Still.mark (hs : Still s) (h : Inv s) {dev inum type : ℕ} (hidle : s.pc p = .idle)
    (hfree : (s.disk dev inum).type = 0) : Still (allocated s p i dev inum type) := by
  refine ⟨fun l hl h1 => ?_, fun l hl h1 hv => ?_⟩
  · unfold CopyOk
    rw [allocated_stage hidle]
    by_cases hid : (s.slot l).dev = dev ∧ (s.slot l).inum = inum
    · have hok := h.slots l hl h1
      have h0 : (s.dinode l).type = 0 := by
        rw [Sys.dinode, hid.1, hid.2]
        exact hfree
      intro hv hst
      rcases hok.stale h0 with h2 | h2
      · rw [show ((allocated s p i dev inum type).slot l).valid = (s.slot l).valid from rfl, h2] at hv
        cases hv
      · exact absurd h2 hst
    · have hdin : (allocated s p i dev inum type).dinode l = s.dinode l := allocated_disk_other hid
      rw [hdin]
      exact hs.used l hl h1
  · obtain ⟨heq, htype, hfor⟩ := hs.unused l hl h1 hv
    have hid : ¬ ((s.slot l).dev = dev ∧ (s.slot l).inum = inum) := by
      intro hid
      rw [Sys.dinode, hid.1, hid.2] at htype
      exact htype hfree
    have hdin : (allocated s p i dev inum type).dinode l = s.dinode l := allocated_disk_other hid
    rw [hdin]
    refine ⟨heq, htype, fun hn => ⟨(hfor hn).1, fun u j hu => ?_⟩⟩
    by_cases hup : u = p
    · rw [hup] at hu
      simp only [allocated, Sys.setPc, Function.update_self, Pc.ialloc.injEq] at hu
      exact hid ⟨hu.2.1.symm, hu.2.2.symm⟩
    · simp only [allocated, Sys.setPc, Function.update_of_ne hup] at hu
      exact (hfor hn).2 u j hu

theorem still_step {a : Act} (h : Inv s) (hs : Still s) (hne : ∀ p i d, a ≠ .change p i d)
    (he : step s a = .ok (s', tr)) : Still s' := by
  cases step_change h he with
  | move hm _ _ hcopy =>
    obtain ⟨hx, hd⟩ := hcopy hne (hs.used _ (h.range _ _ hm.ptr) (h.ref_pos hm.ptr))
    exact hs.move h hm hx hd
  | gain hg hid => exact hs.gain hg hid
  | lose hptr hon hlv => exact hs.lose h hptr hon (h.lose hptr hon hlv)
  | mark hidle _ _ hfree _ => exact hs.mark h hidle hfree

/-! ### What one step does -/

section OneStep

variable {a : Act} (hc : Change s a s' tr)
include hc

/-- A slot with a reference keeps its inode. -/
theorem Change.ident (h1 : 0 < (s.slot k).ref) :
    (s'.slot k).dev = (s.slot k).dev ∧ (s'.slot k).inum = (s.slot k).inum := by
  cases hc with
  | move hm _ _ _ => exact ⟨hm.slot_dev k, hm.slot_inum k⟩
  | @gain l x p i hg _ =>
    by_cases hkl : k = l
    · subst hkl
      have hslot : (gained s k x p i).slot k = x := Function.update_self ..
      rw [hslot]
      rcases hg.slot with ⟨-, hd, hn, -⟩ | ⟨h0, -⟩
      · exact ⟨hd, hn⟩
      · omega
    · have hslot : (gained s l x p i).slot k = s.slot k := Function.update_of_ne hkl ..
      rw [hslot]
      exact ⟨rfl, rfl⟩
  | lose _ _ _ => exact ⟨(lost_slot k).1, (lost_slot k).2.1⟩
  | mark _ _ _ _ _ => exact ⟨rfl, rfl⟩

/-- `iput` frees an inode without links whose only reference is that of its caller. -/
theorem Change.frees (he : .frees p k ∈ tr) :
    (s.slot k).ref = 1 ∧ (∃ i, s.ptr (p, i) = some k) ∧ (s.slot k).din.nlink = 0 ∧ (s.dinode k).nlink = 0 := by
  cases hc with
  | move hm hev _ _ =>
    rcases hev _ he with ⟨hl, -⟩ | ⟨hf, href, hn, hd⟩
    · cases hl
    · obtain ⟨rfl, rfl⟩ := Ev.frees.inj hf
      exact ⟨href, ⟨_, hm.ptr⟩, hn, hd⟩
  | gain _ _ => cases he
  | lose _ _ _ => cases he
  | mark _ _ _ _ _ => cases he

/-- `ilock` returns with the inode that is on disk. -/
theorem Change.locked (he : .locked p k ∈ tr) :
    (s'.slot k).valid = true ∧ (s'.slot k).din = s'.dinode k ∧ (s'.dinode k).type ≠ 0 := by
  cases hc with
  | @move l x d u i q tr hm hev _ _ =>
    rcases hev _ he with ⟨hl, hv, hd, ht⟩ | ⟨hf, -⟩
    · obtain ⟨rfl, rfl⟩ := Ev.locked.inj hl
      have hslot : (moved s k x d p q).slot k = x := Function.update_self ..
      rw [hm.dinode_self, hslot]
      exact ⟨hv, hd, ht⟩
    · cases hf
  | gain _ _ => cases he
  | lose _ _ _ => cases he
  | mark _ _ _ _ _ => cases he

/-- An inode on disk is written by `iupdate` or `ialloc`, which do not free it, or freed by `iput`. -/
theorem Change.disk {dev inum : ℕ} (hne : s'.disk dev inum ≠ s.disk dev inum) :
    ((s'.disk dev inum).type ≠ 0 ∧ a.writes = true) ∨
      ∃ p k, .frees p k ∈ tr ∧ (s.slot k).dev = dev ∧ (s.slot k).inum = inum := by
  cases hc with
  | @move k x d p i q tr hm _ hdisk _ =>
    have hid : dev = (s.slot k).dev ∧ inum = (s.slot k).inum := by
      by_contra hid
      exact hne (moved_disk_other hid)
    obtain ⟨rfl, rfl⟩ := hid
    have hd : (moved s k x d p q).disk (s.slot k).dev (s.slot k).inum = d := putDisk_same ..
    rw [hd] at hne ⊢
    rcases hdisk hne with hw | hf
    · exact .inl hw
    · exact .inr ⟨p, k, hf, rfl, rfl⟩
  | gain _ _ => exact absurd rfl hne
  | lose _ _ _ => exact absurd rfl hne
  | @mark p i dev' inum' type _ _ htype _ ha =>
    have hid : dev = dev' ∧ inum = inum' := by
      by_contra hid
      exact hne (allocated_disk_other hid)
    obtain ⟨rfl, rfl⟩ := hid
    rw [allocated_disk]
    exact .inl ⟨htype, ha⟩

end OneStep

/-! ### The inode table -/

/-- In a run in which nobody changes an inode every valid copy is what is on disk. -/
theorem still_run {disk : ℕ → ℕ → Dinode} (h0 : ∀ d n, (disk d n).type = 0 → (disk d n).nlink = 0) {acts : List Act}
    (hne : ∀ a ∈ acts, ∀ p i d, a ≠ .change p i d) (hr : run step (boot disk) acts = .ok (s, tr)) : Still s := by
  have hboot : Still (boot disk) := ⟨fun _ _ h => by simp [boot] at h, fun _ _ _ h => by simp [boot] at h⟩
  have hI : Inv s ∧ ((∀ a ∈ acts, ∀ p i d, a ≠ .change p i d) → Still s) := by
    refine run_induction (I := fun acts s _ => Inv s ∧ ((∀ a ∈ acts, ∀ p i d, a ≠ Act.change p i d) → Still s))
      ⟨inv_boot h0, fun _ => hboot⟩ (fun as s t a s' t' _ ih he => ⟨inv_step _ _ _ _ ih.1 he, fun hall => ?_⟩) hr
    exact still_step ih.1 (ih.2 fun b hb => hall b (List.mem_append_left _ hb)) (hall a (by simp)) he
  exact hI.2 hne

/-- **The inode table.** In every state a run reaches no inode has two slots
with references, `ref` counts the pointers to a slot, and a valid copy that
nobody has locked is what is on disk if the slot has references; if no process
has changed the fields of an inode, then also if it has none. In every next
step a slot with references keeps its inode; an inode on disk is truncated or
freed only by `iput`, if it has no links and the caller the only reference; and
an `ilock` that returns does so with the inode that is on disk. -/
theorem inode_table {disk : ℕ → ℕ → Dinode} (h0 : ∀ d n, (disk d n).type = 0 → (disk d n).nlink = 0)
    {acts : List Act} (hr : run step (boot disk) acts = .ok (s, tr)) :
    (∀ k l, k < NINODE → l < NINODE → 0 < (s.slot k).ref → 0 < (s.slot l).ref →
      (s.slot k).dev = (s.slot l).dev → (s.slot k).inum = (s.slot l).inum → k = l) ∧
    (∀ k, k < NINODE → Tally s.ptr (some k) (s.slot k).ref) ∧
    (∀ k, k < NINODE → (s.slot k).valid = true → (s.slot k).lock = none →
      (0 < (s.slot k).ref ∨ ∀ a ∈ acts, ∀ p i d, a ≠ .change p i d) → (s.slot k).din = s.dinode k) ∧
    ∀ a s' tr', step s a = .ok (s', tr') →
      (∀ k, 0 < (s.slot k).ref → (s'.slot k).dev = (s.slot k).dev ∧ (s'.slot k).inum = (s.slot k).inum) ∧
      (∀ dev inum, s'.disk dev inum ≠ s.disk dev inum →
        ((s'.disk dev inum).type ≠ 0 ∧ a.writes = true) ∨
          ∃ p k, .frees p k ∈ tr' ∧ (s.slot k).dev = dev ∧ (s.slot k).inum = inum) ∧
      (∀ p k, .frees p k ∈ tr' →
        (s.slot k).ref = 1 ∧ (∃ i, s.ptr (p, i) = some k) ∧ (s.slot k).din.nlink = 0 ∧ (s.dinode k).nlink = 0) ∧
      (∀ p k, .locked p k ∈ tr' →
        (s'.slot k).valid = true ∧ (s'.slot k).din = s'.dinode k ∧ (s'.dinode k).type ≠ 0) := by
  have h := inv_run h0 hr
  refine ⟨h.unique, h.refs, fun k hk hv hl hor => ?_, fun a s' tr' he => ?_⟩
  · by_cases href : 0 < (s.slot k).ref
    · have hok := h.slots k hk href
      rw [stage_free hl] at hok
      exact (hok hv).1
    · rcases hor with h1 | hne
      · exact absurd h1 href
      · exact ((still_run h0 hne hr).unused k hk (by omega) hv).1
  · have hc := step_change h he
    exact ⟨fun k h1 => hc.ident h1, fun dev inum hne => hc.disk hne, fun p k hf => hc.frees hf,
      fun p k hl => hc.locked hl⟩

/-- Process 0 frees inode 7 of device 1; process 1 allocates it again, finds
the old slot, which process 0 has not yet let go, and loads the new inode. -/
def freedAndReused : List Act :=
  [.ialloc 0 0 1 7 2, .run 0, .ilock 0 0, .run 0, .iunlock 0 0, .iput 0 0, .run 0, .run 0, .ialloc 1 0 1 7 3, .run 1,
    .run 0, .run 0, .ilock 1 0, .run 0]

theorem inode_table_sample : ∃ s tr s' tr', run step (boot fun _ _ => .zero) freedAndReused = .ok (s, tr) ∧
    s.ptr (1, 0) = some 0 ∧ (s.slot 0).ref = 1 ∧ Tally s.ptr (some 0) 1 ∧
    step s (.run 1) = .ok (s', tr') ∧ .locked 1 0 ∈ tr' ∧ (s'.slot 0).din = s'.dinode 0 ∧ (s'.dinode 0).type = 3 := by
  obtain ⟨⟨s, tr⟩, hr, hs⟩ := okWith_iff.mp (show okWith (run step (boot fun _ _ => .zero) freedAndReused)
    (fun r => decide (r.1.ptr (1, 0) = some 0 ∧ (r.1.slot 0).ref = 1 ∧ r.1.pc 1 = .ilock 0 ∧
      (r.1.slot 0).valid = false ∧ (r.1.dinode 0).type = 3)) = true by decide +kernel)
  simp only [decide_eq_true_eq] at hs
  obtain ⟨hptr, href, hpc, hv, htype⟩ := hs
  obtain ⟨-, hrefs, -, hstep⟩ := inode_table (fun _ _ _ => rfl) hr
  have he : step s (.run 1) = .ok ((s.setSlot 0 { s.slot 0 with valid := true, din := s.dinode 0 }).setPc 1 .idle,
      [.locked 1 0]) := by
    simp [step, goesOn, hpc, hptr, hv, htype]
  have htally := hrefs 0 (by decide)
  rw [href] at htally
  refine ⟨s, tr, _, _, hr, hptr, href, htally, he, by simp, ((hstep _ _ _ he).2.2.2 1 0 (by simp)).2.1, ?_⟩
  simpa [Sys.dinode, Sys.setSlot, Sys.setPc] using htype

/-! ### Whether there are slots enough -/

/-- A variable of a process points to slot `k`. -/
def Sys.Used (s : Sys) (k : ℕ) : Prop := ∃ v, s.ptr v = some k

theorem Inv.unused_iff (h : Inv s) (hk : k < NINODE) : (s.slot k).ref = 0 ↔ ¬ s.Used k := by
  constructor
  · rintro h0 ⟨v, hv⟩
    have := (h.refs k hk).pos hv
    omega
  · intro hno
    by_contra h0
    exact hno ((h.refs k hk).exists_of_pos (Nat.pos_of_ne_zero h0))

/-- **In every state of every run, `iget` finds the inode or a free slot
exactly if the inode is in the table, or the processes have pointers to fewer
than `NINODE` inodes.** -/
theorem iget_finds_iff {disk : ℕ → ℕ → Dinode} (h0 : ∀ d n, (disk d n).type = 0 → (disk d n).nlink = 0)
    {acts : List Act} (hr : run step (boot disk) acts = .ok (s, tr)) (dev inum : ℕ) :
    iget s dev inum ≠ .error (.panic "iget: no inodes") ↔
      (∃ k, k < NINODE ∧ s.Used k ∧ (s.slot k).dev = dev ∧ (s.slot k).inum = inum) ∨ Fewer s.Used NINODE := by
  have h := inv_run h0 hr
  have hused : ∀ k, k < NINODE → (0 < (s.slot k).ref ↔ s.Used k) := fun k hk => by
    rw [Nat.pos_iff_ne_zero, ne_eq, h.unused_iff hk, not_not]
  rw [fewer_iff]
  unfold iget
  split
  · next k hf =>
    have hk := List.mem_range.mp (List.mem_of_find?_eq_some hf)
    have hslot := List.find?_some hf
    rw [decide_eq_true_eq] at hslot
    obtain ⟨href, hid⟩ := hslot
    exact iff_of_true (by simp) (.inl ⟨k, hk, (hused k hk).mp href, hid⟩)
  · next hnone =>
    split
    · next k hf =>
      have hk := List.mem_range.mp (List.mem_of_find?_eq_some hf)
      have hfree := List.find?_some hf
      rw [decide_eq_true_eq] at hfree
      exact iff_of_true (by simp) (.inr ⟨k, hk, (h.unused_iff hk).mp hfree⟩)
    · next hfull =>
      refine iff_of_false (by simp) ?_
      rintro (⟨k, hk, hu, hid⟩ | ⟨k, hk, hno⟩)
      · exact List.find?_eq_none.mp hnone k (List.mem_range.mpr hk) (decide_eq_true ⟨(hused k hk).mpr hu, hid⟩)
      · exact List.find?_eq_none.mp hfull k (List.mem_range.mpr hk) (decide_eq_true ((h.unused_iff hk).mpr hno))

/-- Every inode is a file with a link. -/
def allFiles (_ _ : ℕ) : Dinode := { Dinode.zero with type := 2, nlink := 1 }

/-- The root directory is somebody's working directory, and `n` files are
opened by processes with thirteen descriptors each. -/
def openMany (n : ℕ) : List Act :=
  .iget 0 16 1 1 :: (List.range n).map fun j => .iget (j / 13) (3 + j % 13) 1 (2 + j)

theorem iget_finds_sample : ∃ s tr, run step (boot allFiles) (openMany 2) = .ok (s, tr) ∧
    iget s 1 9 ≠ .error (.panic "iget: no inodes") := by
  obtain ⟨⟨s, tr⟩, hr, h⟩ := okWith_iff.mp (show okWith (run step (boot allFiles) (openMany 2))
    (fun r => (r.1.slot 3).ref = 0) = true by decide +kernel)
  have hdisk : ∀ d n, (allFiles d n).type = 0 → (allFiles d n).nlink = 0 := fun _ _ h => by cases h
  have hI := inv_run hdisk hr
  have hfew : Fewer s.Used NINODE :=
    fewer_iff.mpr ⟨3, by decide, (hI.unused_iff (by decide)).mp (of_decide_eq_true h)⟩
  exact ⟨s, tr, hr, (iget_finds_iff hdisk hr 1 9).mpr (.inr hfew)⟩

/-- Four processes open fifty files. -/
theorem iget_no_inodes : (∀ a ∈ openMany 50, a.proc < 4) ∧
    stopOf (run step (boot allFiles) (openMany 50)) = some (.panic "iget: no inodes") :=
  ⟨by decide, by decide +kernel⟩

end Itable
end Xv6
