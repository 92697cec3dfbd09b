/-
# Requests to the disk

`Flight` says where the buffers are whose requests are out: some are in the
avail ring, some at the device and some in the used ring, and a buffer is in
at most one of the three places. Since each has the head of its chain to
itself (`Chains.length_le`), at most `NUM` are out at a time, and neither ring
ever runs over.

* `virtio_protocol`: chains of different calls have no descriptor in common,
  the rings carry every request once, the interrupt handler finds the buffer of
  every completed request, and `virtio_disk_rw` returns after the request of its
  buffer has been completed and processed; nothing panics.

Key definitions: `Virtio.Flight`, `Virtio.Counts`, `Virtio.Inv`.
-/
import Xv6.Ends
import Xv6.VirtioChain

namespace Xv6
namespace Virtio

open TraceSys

/-! ### Requests that are out -/

/-- What the device reads of the chain of `b`. -/
def Sys.devReq (s : Sys) (b : ℕ) : DevReq := ⟨s.head b, b, s.head b, s.req b⟩

/-- Where the request of `b` is, if `U`, `P` and `V` are those in the avail
ring, at the device and in the used ring. -/
def place (U P V : List ℕ) (s : Sys) (b : ℕ) : Stage :=
  if b ∈ U then .avail else if b ∈ P then .device else if b ∈ V then .used
  else if (s.pc b).sent then .done else .idle

/-- `U`, `P` and `V` are the buffers whose requests are in the avail ring, at the
device and in the used ring. -/
structure Flight (s : Sys) (tr : List Ev) (U P V : List ℕ) : Prop where
  nodup : (U ++ P ++ V).Nodup
  out : ∀ b, b ∈ U ++ P ++ V ↔ (s.pc b).sent = true ∧ s.disk b = true
  avail : bufs .published tr = bufs .consumed tr ++ U
  used : bufs .completed tr = bufs .processed tr ++ V
  availRing : RingBuf.Holds NUM s.avail.ring (bufs .consumed tr).length (U.map s.head)
  usedRing : RingBuf.Holds NUM s.used.ring (bufs .processed tr).length (V.map s.head)
  pending : s.dev.pending = P.map s.devReq
  status : ∀ b ∈ V, (s.info (s.head b)).status = 0
  stage : ∀ b, stageOf tr b = some (place U P V s b)

/-- The counters count modulo 2^16. -/
structure Counts (s : Sys) (tr : List Ev) : Prop where
  avail : s.avail.idx.toNat = (bufs .published tr).length % 2 ^ 16
  last : s.dev.last.toNat = (bufs .consumed tr).length % 2 ^ 16
  used : s.used.idx.toNat = (bufs .completed tr).length % 2 ^ 16
  usedIdx : s.usedIdx.toNat = (bufs .processed tr).length % 2 ^ 16

structure Inv (s : Sys) (tr : List Ev) : Prop where
  chains : Chains s
  flight : ∃ U P V, Flight s tr U P V
  counts : Counts s tr

variable {s s' : Sys} {tr tr' : List Ev} {b : ℕ} {x : Idx} {pc : Pc} {U P V : List ℕ}

/-- A step that no request that is out notices. -/
theorem Flight.quiet (h : Flight s tr U P V) (hsent : ∀ u, (s'.pc u).sent = (s.pc u).sent)
    (hout : ∀ u, (s.pc u).sent = true → s'.head u = s.head u ∧ s'.req u = s.req u ∧ s'.disk u = s.disk u ∧
      (s'.info (s.head u)).status = (s.info (s.head u)).status)
    (havail : s'.avail.ring = s.avail.ring) (hused : s'.used.ring = s.used.ring)
    (hdev : s'.dev.pending = s.dev.pending) : Flight s' tr U P V := by
  have hmem : ∀ u ∈ U ++ P ++ V, (s.pc u).sent = true := fun u hu => ((h.out u).mp hu).1
  have hU : U.map s'.head = U.map s.head :=
    List.map_congr_left fun u hu => (hout u (hmem u (by simp [hu]))).1
  have hV : V.map s'.head = V.map s.head :=
    List.map_congr_left fun u hu => (hout u (hmem u (by simp [hu]))).1
  have hP : P.map s'.devReq = P.map s.devReq := by
    refine List.map_congr_left fun u hu => ?_
    obtain ⟨h1, h2, -⟩ := hout u (hmem u (by simp [hu]))
    unfold Sys.devReq
    rw [h1, h2]
  refine ⟨h.nodup, fun u => ?_, h.avail, h.used, ?_, ?_, ?_, fun u hu => ?_, fun u => ?_⟩
  · rw [hsent, h.out u]
    refine and_congr_right fun hu => ?_
    rw [(hout u hu).2.2.1]
  · rw [hU, havail]
    exact h.availRing
  · rw [hV, hused]
    exact h.usedRing
  · rw [hP, hdev]
    exact h.pending
  · obtain ⟨h1, -, -, h4⟩ := hout u (hmem u (by simp [hu]))
    rw [h1, h4]
    exact h.status u hu
  · unfold place
    rw [hsent]
    exact h.stage u

theorem Flight.setPc (h : Flight s tr U P V) (hsent : pc.sent = (s.pc b).sent)
    (hidx : pc.sent = true → pc.idx = (s.pc b).idx) : Flight (s.setPc b pc) tr U P V := by
  refine h.quiet (fun u => ?_) (fun u hu => ⟨?_, rfl, rfl, rfl⟩) rfl rfl rfl
  · by_cases hub : u = b
    · subst hub
      simpa only [Sys.setPc, Function.update_self] using hsent
    · simp only [Sys.setPc, Function.update_of_ne hub]
  · unfold Sys.head
    by_cases hub : u = b
    · subst hub
      simp only [Sys.setPc, Function.update_self, hidx (hsent.trans hu)]
    · simp only [Sys.setPc, Function.update_of_ne hub]

/-- `Flight` is not about descriptors, the lock or who sleeps. -/
theorem Flight.frame (h : Flight s tr U P V) (d : ℕ → Desc) (f a : ℕ → Bool) (l : Option Holder) :
    Flight { s with desc := d, free := f, asleep := a, lock := l } tr U P V :=
  ⟨h.nodup, h.out, h.avail, h.used, h.availRing, h.usedRing, h.pending, h.status, h.stage⟩

/-! ### Events -/

theorem bufs_same (k : Kind) (tr : List Ev) (b : ℕ) : bufs k (tr ++ [⟨k, b⟩]) = bufs k tr ++ [b] := by
  simp [bufs]

theorem bufs_other {k k' : Kind} (h : k' ≠ k) (tr : List Ev) (b : ℕ) : bufs k (tr ++ [⟨k', b⟩]) = bufs k tr := by
  simp [bufs, h]

/-- The request of one buffer takes the step that is its turn. -/
theorem stage_snoc {p p' : ℕ → Stage} {k : Kind} (h : ∀ u, stageOf tr u = some (p u)) (hb : p b = k.source)
    (hb' : p' b = k.target) (hu : ∀ u, u ≠ b → p' u = p u) (u : ℕ) : stageOf (tr ++ [⟨k, b⟩]) u = some (p' u) := by
  have hsnoc : stageOf (tr ++ [⟨k, b⟩]) u = note u (stageOf tr u) ⟨k, b⟩ := by simp [stageOf, List.foldl_append]
  rw [hsnoc, h]
  by_cases hub : u = b
  · subst hub
    simp [note, hb, hb']
  · simp [note, Ne.symm hub, hu u hub]

theorem succ_wrap {a : UInt16} {n : ℕ} (h : a.toNat = n % 2 ^ 16) : (a + 1).toNat = (n + 1) % 2 ^ 16 := by
  rw [UInt16.toNat_add, h]
  simp

/-- A request that is out has its chain. -/
theorem Flight.formatted (h : Flight s tr U P V) (hc : Chains s) (hb : b ∈ U ++ P ++ V) :
    ∃ x, (s.pc b).idx = some x ∧ Formatted s b x := by
  obtain ⟨x, hx, hidx⟩ := Pc.formatted_of_sent ((h.out b).mp hb).1
  exact ⟨x, hidx, hc.chain b x hx⟩

theorem Flight.idx_ne (h : Flight s tr U P V) (hb : b ∈ U ++ P ++ V) : (s.pc b).idx ≠ none := by
  obtain ⟨x, -, hidx⟩ := Pc.formatted_of_sent ((h.out b).mp hb).1
  simp [hidx]

/-- The cell the driver writes next is not one of those the device has still to read. -/
theorem Flight.avail_room (h : Flight s tr U P V) (hc : Chains s) (hb : (s.pc b).unsent = true) : U.length < NUM := by
  have hnot : b ∉ U := by
    intro hU
    have := ((h.out b).mp (by simp [hU])).1
    cases hpc : s.pc b <;> simp_all [Pc.unsent, Pc.sent]
  have hn : (b :: U).Nodup :=
    List.nodup_cons.mpr ⟨hnot, (List.nodup_append.mp (List.nodup_append.mp h.nodup).1).1⟩
  have hle := hc.length_le hn fun u hu => by
    rcases List.mem_cons.mp hu with rfl | hu
    · cases hpc : s.pc u <;> simp_all [Pc.unsent, Pc.idx]
    · exact h.idx_ne (by simp [hu])
  exact hle

theorem Flight.avail_index (h : Flight s tr U P V) (hn : Counts s tr) :
    s.avail.idx.toNat % NUM = ((bufs .consumed tr).length + (U.map s.head).length) % NUM := by
  rw [hn.avail, h.avail, List.length_append, List.length_map]
  exact RingBuf.index_wrap (by decide) _

/-- The driver publishes the request of `b`. -/
theorem Flight.publish (h : Flight s tr U P V) (hc : Chains s) (hn : Counts s tr) (hpc : s.pc b = .bump x) :
    Flight ({ s with avail := { s.avail with idx := s.avail.idx + 1 } }.setPc b (.wait x))
      (tr ++ [⟨.published, b⟩]) (U ++ [b]) P V := by
  set s' := { s with avail := { s.avail with idx := s.avail.idx + 1 } }.setPc b (.wait x) with hs'
  have hpcb : s'.pc b = .wait x := Function.update_self ..
  have hpcu : ∀ u, u ≠ b → s'.pc u = s.pc u := fun u hub => Function.update_of_ne hub ..
  have hhead : s'.head = s.head := by
    funext u
    unfold Sys.head
    by_cases hub : u = b
    · rw [hub, hpcb, hpc]
      rfl
    · rw [hpcu u hub]
  have hreq : s'.devReq = s.devReq := by
    funext u
    unfold Sys.devReq
    rw [hhead]
    rfl
  have hunsent : (s.pc b).unsent = true := by simp [hpc, Pc.unsent]
  have hout : b ∉ U ++ P ++ V := by
    intro hb
    have := ((h.out b).mp hb).1
    simp [hpc, Pc.sent] at this
  have hroom := h.avail_room hc hunsent
  have hperm : (U ++ [b] ++ P ++ V).Perm (b :: (U ++ P ++ V)) := by
    simp
  refine ⟨hperm.nodup_iff.mpr (List.nodup_cons.mpr ⟨hout, h.nodup⟩), fun u => ?_, ?_, ?_, ?_, ?_, ?_, ?_, ?_⟩
  · rw [hperm.mem_iff, List.mem_cons]
    by_cases hub : u = b
    · subst hub
      have hflag : s'.disk u = true := hc.flag u hunsent
      simp [hpcb, Pc.sent, hflag]
    · rw [hpcu u hub, or_iff_right hub]
      exact h.out u
  · rw [bufs_same, bufs_other (by decide), h.avail, List.append_assoc]
  · rw [bufs_other (by decide), bufs_other (by decide)]
    exact h.used
  · rw [bufs_other (by decide), hhead, List.map_append]
    refine h.availRing.extend (by simpa using hroom) ?_
    rw [← h.avail_index hn, head_of_idx (x := x) (by simp [hpc, Pc.idx])]
    exact hc.cell b x hpc
  · rw [bufs_other (by decide), hhead]
    exact h.usedRing
  · rw [hreq]
    exact h.pending
  · rw [hhead]
    exact h.status
  · refine stage_snoc h.stage ?_ ?_ fun u hub => ?_
    · simp only [List.mem_append, not_or] at hout
      simp [place, hout.1.1, hout.1.2, hout.2, hpc, Pc.sent, Kind.source]
    · simp [place, Kind.target]
    · simp [place, hub, hpcu u hub]

/-- The device takes the first request of the avail ring. -/
theorem Flight.consume (h : Flight s tr (b :: U) P V) :
    Flight { s with dev := ⟨s.dev.last + 1, s.dev.pending ++ [s.devReq b]⟩ }
      (tr ++ [⟨.consumed, b⟩]) U (P ++ [b]) V := by
  have hperm : (U ++ (P ++ [b]) ++ V).Perm (b :: U ++ P ++ V) := by
    have h1 : (U ++ P ++ b :: V).Perm (b :: (U ++ P ++ V)) := List.perm_middle
    simpa using h1
  have hnodup := h.nodup
  have hbU : b ∉ U ∧ b ∉ P ∧ b ∉ V := by
    simp only [List.cons_append, List.nodup_cons, List.mem_append, not_or] at hnodup
    exact ⟨hnodup.1.1.1, hnodup.1.1.2, hnodup.1.2⟩
  refine ⟨hperm.nodup_iff.mpr h.nodup, fun u => hperm.mem_iff.trans (h.out u), ?_, ?_, ?_, ?_, ?_, h.status, ?_⟩
  · rw [bufs_same, bufs_other (by decide), h.avail]
    simp
  · rw [bufs_other (by decide), bufs_other (by decide)]
    exact h.used
  · rw [bufs_same, List.length_append, List.length_singleton]
    exact h.availRing.pop.2
  · rw [bufs_other (by decide)]
    exact h.usedRing
  · rw [List.map_append, h.pending]
    rfl
  · refine stage_snoc h.stage ?_ ?_ fun u hub => ?_
    · simp [place, Kind.source]
    · simp [place, hbU, Kind.target]
    · simp [place, hub]

/-- The device completes the `n`th request it works on. -/
theorem Flight.complete (h : Flight s tr U P V) (hc : Chains s) (hn : Counts s tr) {n : ℕ} (hb : P[n]? = some b) :
    Flight { s with
      dev := { s.dev with pending := s.dev.pending.eraseIdx n }
      info := Function.update s.info (s.head b) { s.info (s.head b) with status := 0 }
      used := ⟨Function.update s.used.ring (s.used.idx.toNat % NUM) (s.head b), s.used.idx + 1⟩ }
      (tr ++ [⟨.completed, b⟩]) U (P.eraseIdx n) (V ++ [b]) := by
  obtain ⟨hlt, hPn⟩ := List.getElem?_eq_some_iff.mp hb
  have hP : P.Perm (b :: P.eraseIdx n) := by
    rw [← hPn]
    exact (List.getElem_cons_eraseIdx_perm hlt).symm
  have h1 : (U ++ P.eraseIdx n ++ (V ++ [b])).Perm (b :: (U ++ P.eraseIdx n ++ V)) := by
    rw [← List.append_assoc]
    exact List.perm_append_singleton b _
  have hperm : (U ++ P.eraseIdx n ++ (V ++ [b])).Perm (U ++ P ++ V) := by
    have h2 : (U ++ b :: P.eraseIdx n ++ V).Perm (b :: (U ++ P.eraseIdx n ++ V)) :=
      List.perm_middle.append_right V
    exact h1.trans (h2.symm.trans ((hP.symm.append_left U).append_right V))
  have hnodup := hperm.nodup_iff.mpr h.nodup
  have hbU : b ∉ U ∧ b ∉ P.eraseIdx n ∧ b ∉ V := by
    have hn' := h1.nodup_iff.mp hnodup
    simp only [List.nodup_cons, List.mem_append, not_or] at hn'
    exact ⟨hn'.1.1.1, hn'.1.1.2, hn'.1.2⟩
  have hroom : V.length < NUM := by
    have hle := hc.length_le (L := V ++ [b]) (List.nodup_append.mp hnodup).2.1 fun u hu => by
      refine h.idx_ne (hperm.mem_iff.mp ?_)
      simp only [List.mem_append] at hu ⊢
      exact .inr hu
    rw [List.length_append, List.length_singleton] at hle
    omega
  have hindex : s.used.idx.toNat % NUM = ((bufs .processed tr).length + (V.map s.head).length) % NUM := by
    rw [hn.used, h.used, List.length_append, List.length_map]
    exact RingBuf.index_wrap (by decide) _
  refine ⟨hnodup, fun u => hperm.mem_iff.trans (h.out u), ?_, ?_, ?_, ?_, ?_, fun u hu => ?_, ?_⟩
  · rw [bufs_other (by decide), bufs_other (by decide)]
    exact h.avail
  · rw [bufs_same, bufs_other (by decide), h.used, List.append_assoc]
  · rw [bufs_other (by decide)]
    exact h.availRing
  · rw [bufs_other (by decide), List.map_append]
    have := h.usedRing.push (by simpa using hroom) (s.head b)
    rw [← hindex] at this
    exact this
  · change s.dev.pending.eraseIdx n = (P.eraseIdx n).map s.devReq
    rw [h.pending, List.eraseIdx_map]
  · change (Function.update s.info (s.head b) { s.info (s.head b) with status := 0 } (s.head u)).status = 0
    by_cases hub : s.head u = s.head b
    · rw [hub]
      simp
    · rw [Function.update_of_ne hub]
      refine h.status u ?_
      rcases List.mem_append.mp hu with hu | hu
      · exact hu
      · exact absurd (by rw [List.mem_singleton.mp hu]) hub
  · refine stage_snoc h.stage ?_ ?_ fun u hub => ?_
    · simp [place, hbU, hP.mem_iff, Kind.source]
    · simp [place, hbU, Kind.target]
    · simp [place, hub, hP.mem_iff]

/-- The interrupt handler sees the first request of the used ring. -/
theorem Flight.process (h : Flight s tr U P (b :: V)) (a : ℕ → Bool) :
    Flight { s with disk := Function.update s.disk b false, usedIdx := s.usedIdx + 1, asleep := a }
      (tr ++ [⟨.processed, b⟩]) U P V := by
  have hperm : (U ++ P ++ b :: V).Perm (b :: (U ++ P ++ V)) := List.perm_middle
  have hnodup := List.nodup_cons.mp (hperm.nodup_iff.mp h.nodup)
  have hsent := ((h.out b).mp (by simp)).1
  have hbU : b ∉ U ∧ b ∉ P ∧ b ∉ V := by
    have := hnodup.1
    simp only [List.mem_append, not_or] at this
    exact ⟨this.1.1, this.1.2, this.2⟩
  refine ⟨hnodup.2, fun u => ?_, ?_, ?_, ?_, ?_, h.pending, fun u hu => h.status u (by simp [hu]), ?_⟩
  · by_cases hub : u = b
    · subst hub
      simpa using hbU
    · have := h.out u
      rw [hperm.mem_iff, List.mem_cons, or_iff_right hub] at this
      simpa [hub] using this
  · rw [bufs_other (by decide), bufs_other (by decide)]
    exact h.avail
  · rw [bufs_same, bufs_other (by decide), h.used]
    simp
  · rw [bufs_other (by decide)]
    exact h.availRing
  · rw [bufs_same, List.length_append, List.length_singleton]
    exact h.usedRing.pop.2
  · refine stage_snoc h.stage ?_ ?_ fun u hub => ?_
    · simp [place, hbU, Kind.source]
    · simp [place, hbU, hsent, Kind.target]
    · simp [place, hub]

/-- The call for `b` returns. -/
theorem Flight.finish (h : Flight s tr U P V) (hsent : (s.pc b).sent = true) (hdisk : s.disk b = false)
    (i : ℕ → Info) (hi : ∀ u, u ≠ b → (s.pc u).sent = true → i (s.head u) = s.info (s.head u)) :
    Flight ({ s with info := i }.setPc b .idle) (tr ++ [⟨.returned, b⟩]) U P V := by
  set s' := { s with info := i }.setPc b .idle with hs'
  have hpcb : s'.pc b = .idle := Function.update_self ..
  have hpcu : ∀ u, u ≠ b → s'.pc u = s.pc u := fun u hub => Function.update_of_ne hub ..
  have hout : b ∉ U ++ P ++ V := by
    intro hb
    have := ((h.out b).mp hb).2
    simp [hdisk] at this
  have hne : ∀ u ∈ U ++ P ++ V, u ≠ b := by
    rintro u hu rfl
    exact hout hu
  have hhead : ∀ u ∈ U ++ P ++ V, s'.head u = s.head u := by
    intro u hu
    unfold Sys.head
    rw [hpcu u (hne u hu)]
  have hU : U.map s'.head = U.map s.head := List.map_congr_left fun u hu => hhead u (by simp [hu])
  have hV : V.map s'.head = V.map s.head := List.map_congr_left fun u hu => hhead u (by simp [hu])
  have hP : P.map s'.devReq = P.map s.devReq := by
    refine List.map_congr_left fun u hu => ?_
    unfold Sys.devReq
    rw [hhead u (by simp [hu])]
    rfl
  refine ⟨h.nodup, fun u => ?_, ?_, ?_, ?_, ?_, ?_, fun u hu => ?_, ?_⟩
  · by_cases hub : u = b
    · subst hub
      simp only [hpcb, Pc.sent, Bool.false_eq_true, false_and, iff_false]
      exact hout
    · rw [hpcu u hub]
      exact h.out u
  · rw [bufs_other (by decide), bufs_other (by decide)]
    exact h.avail
  · rw [bufs_other (by decide), bufs_other (by decide)]
    exact h.used
  · rw [bufs_other (by decide), hU]
    exact h.availRing
  · rw [bufs_other (by decide), hV]
    exact h.usedRing
  · rw [hP]
    exact h.pending
  · have hmem : u ∈ U ++ P ++ V := by simp [hu]
    rw [hhead u hmem]
    change (i (s.head u)).status = 0
    rw [hi u (hne u hmem) ((h.out u).mp hmem).1]
    exact h.status u hu
  · refine stage_snoc h.stage ?_ ?_ fun u hub => ?_
    · simp only [List.mem_append, not_or] at hout
      simp [place, hout.1.1, hout.1.2, hout.2, hsent, Kind.source]
    · simp only [List.mem_append, not_or] at hout
      simp [place, hout.1.1, hout.1.2, hout.2, hpcb, Pc.sent, Kind.target]
    · simp [place, hpcu u hub]

theorem Counts.quiet (h : Counts s tr) (havail : s'.avail.idx = s.avail.idx) (hlast : s'.dev.last = s.dev.last)
    (hused : s'.used.idx = s.used.idx) (hidx : s'.usedIdx = s.usedIdx) : Counts s' tr :=
  ⟨by rw [havail, h.avail], by rw [hlast, h.last], by rw [hused, h.used], by rw [hidx, h.usedIdx]⟩

/-- With each event its counter goes up. -/
theorem Counts.snoc (h : Counts s tr) (k : Kind) (b : ℕ)
    (havail : s'.avail.idx = if k = .published then s.avail.idx + 1 else s.avail.idx)
    (hlast : s'.dev.last = if k = .consumed then s.dev.last + 1 else s.dev.last)
    (hused : s'.used.idx = if k = .completed then s.used.idx + 1 else s.used.idx)
    (hidx : s'.usedIdx = if k = .processed then s.usedIdx + 1 else s.usedIdx) : Counts s' (tr ++ [⟨k, b⟩]) := by
  have hcount : ∀ (k' : Kind) (i i' : UInt16), i.toNat = (bufs k' tr).length % 2 ^ 16 →
      (i' = if k = k' then i + 1 else i) → i'.toNat = (bufs k' (tr ++ [⟨k, b⟩])).length % 2 ^ 16 := by
    intro k' i i' hi hi'
    split_ifs at hi' with hk
    · rw [hi', hk, bufs_same, List.length_append, List.length_singleton]
      exact succ_wrap hi
    · rw [hi', bufs_other hk, hi]
  exact ⟨hcount _ _ _ h.avail havail, hcount _ _ _ h.last hlast, hcount _ _ _ h.used hused,
    hcount _ _ _ h.usedIdx hidx⟩

/-! ### The steps of the driver -/

/-- What a step may do: it goes on with the invariant, or is not possible now. -/
def Goes (tr : List Ev) (r : Except Stop (Sys × List Ev)) : Prop :=
  Ends (fun e => e = .blocked) r fun x => Inv x.1 (tr ++ x.2)

theorem Inv.goes (h : Inv s' tr) : Goes tr (.ok (s', [])) := by
  change Inv s' (tr ++ [])
  rw [List.append_nil]
  exact h

theorem goes_call (h : Inv s tr) (b : ℕ) (write : Bool) (n : UInt32) : Goes tr (step s (.call b write n)) := by
  simp only [step]
  split_ifs with hidle
  · exact rfl
  · rw [not_not] at hidle
    obtain ⟨U, P, V, hf⟩ := h.flight
    have hc := h.chains
    refine Inv.goes ⟨?_, ⟨U, P, V, ?_⟩, h.counts.quiet rfl rfl rfl rfl⟩
    · refine Chains.setPc ⟨hc.own, hc.apart, fun u y hu => ?_, hc.holder, hc.cell, hc.flag⟩ (by simp [Pc.idx])
        (by simp [Pc.formatted]) (by simp [Pc.locked]) (by simp) (by simp [Pc.unsent])
      have hub : u ≠ b := by
        rintro rfl
        simp [hidle, Pc.formatted] at hu
      have hf := hc.chain u y hu
      refine ⟨hf.d0, ?_, hf.d2, hf.info, ?_⟩
      · simpa [hub] using hf.d1
      · simpa [hub] using hf.op
    · refine Flight.setPc (hf.quiet (fun _ => rfl) (fun u hu => ⟨rfl, ?_, rfl, rfl⟩) rfl rfl rfl)
        (by simp [hidle, Pc.sent]) (by simp [Pc.sent])
      have hub : u ≠ b := by
        rintro rfl
        simp [hidle, Pc.sent] at hu
      simp [hub]

theorem goes_acquire (h : Inv s tr) (b : ℕ) : Goes tr (acquire s b) := by
  obtain ⟨U, P, V, hf⟩ := h.flight
  have hc := h.chains
  unfold acquire
  split_ifs with hg
  · exact rfl
  · rw [not_or, not_not] at hg
    have hlock := hc.setLock (some (.rw b)) (hc.unlocked (by simp [hg.1]))
    have hflight : Flight { s with lock := some (.rw b) } tr U P V := hf.frame s.desc s.free s.asleep _
    split
    · next hpc =>
      exact Inv.goes ⟨hlock.setPc (by simp [Pc.idx]) (by simp [Pc.formatted]) (fun _ => rfl) (by simp)
        (by simp [Pc.unsent]), ⟨U, P, V, hflight.setPc (by simp [hpc, Pc.sent]) (by simp [Pc.sent])⟩, h.counts.quiet rfl rfl rfl rfl⟩
    · next hpc =>
      exact Inv.goes ⟨hlock.setPc (by simp [Pc.idx]) (by simp [Pc.formatted]) (fun _ => rfl) (by simp)
        (by simp [Pc.unsent]), ⟨U, P, V, hflight.setPc (by simp [hpc, Pc.sent]) (by simp [Pc.sent])⟩, h.counts.quiet rfl rfl rfl rfl⟩
    · next x hpc =>
      exact Inv.goes ⟨hlock.setPc (by simp [hpc, Pc.idx]) (by simp [hpc, Pc.formatted]) (fun _ => rfl) (by simp)
        (by simp [Pc.unsent]), ⟨U, P, V, hflight.setPc (by simp [hpc, Pc.sent]) (by simp [hpc, Pc.idx])⟩, h.counts.quiet rfl rfl rfl rfl⟩
    · exact rfl

section Locked

variable (h : Inv s tr) (hl : s.lock = some (.rw b))
include h hl

theorem goes_alloc (hpc : s.pc b = .alloc) : Goes tr (rw s b) := by
  obtain ⟨U, P, V, hf⟩ := h.flight
  have hc := h.chains
  simp only [rw, hpc]
  rcases alloc3Desc_cases s with ⟨x, f, hfree, ho, hused, he⟩ | ⟨d, a, hd, he⟩
  · simp only [he, bind, Except.bind]
    refine Inv.goes ⟨hc.take hl hfree ho hused, ⟨U, P, V, ?_⟩, h.counts.quiet rfl rfl rfl rfl⟩
    exact (hf.frame s.desc f s.asleep s.lock).setPc (by simp [hpc, Pc.sent]) (by simp [Pc.sent])
  · simp only [he, bind, Except.bind]
    have hc1 : Chains ({ s with desc := d, asleep := a }.setPc b .allocSleep) :=
      (hc.scrub a hd).setPc (by simp [Pc.idx]) (by simp [Pc.formatted]) (by simp [Pc.locked]) (by simp)
        (by simp [Pc.unsent])
    have hunlocked := hc1.released (b := b) hl (by simp [Sys.setPc, Pc.locked])
    refine Inv.goes ⟨(hc1.setLock none hunlocked).scrub _ fun _ _ => rfl, ⟨U, P, V, ?_⟩, h.counts.quiet rfl rfl rfl rfl⟩
    exact ((hf.frame d s.free a s.lock).setPc (by simp [hpc, Pc.sent]) (by simp [Pc.sent])).frame d s.free _ none

theorem goes_format (hpc : s.pc b = .format x) : Goes tr (rw s b) := by
  obtain ⟨U, P, V, hf⟩ := h.flight
  have hc := h.chains
  simp only [rw, hpc]
  have hidx : (s.pc b).idx = some x := by simp [hpc, Pc.idx]
  refine Inv.goes ⟨hc.format hpc, ⟨U, P, V, ?_⟩, h.counts.quiet rfl rfl rfl rfl⟩
  refine Flight.setPc (hf.quiet (fun _ => rfl) (fun u hu => ⟨rfl, rfl, ?_, ?_⟩) rfl rfl rfl)
    (by simp [format, hpc, Pc.sent]) (by simp [Pc.sent])
  · have hub : u ≠ b := by
      rintro rfl
      simp [hpc, Pc.sent] at hu
    simp [format, hub]
  · obtain ⟨y, -, hy⟩ := Pc.formatted_of_sent hu
    have hub : u ≠ b := by
      rintro rfl
      simp [hpc, Pc.sent] at hu
    have hne : y.i0 ≠ x.i0 := fun he => hc.apart u b y x hub hy hidx y.i0 (.inl rfl) (.inl he)
    rw [head_of_idx hy]
    simp [format, hne]

theorem goes_ring (hpc : s.pc b = .ring x) : Goes tr (rw s b) := by
  obtain ⟨U, P, V, hf⟩ := h.flight
  have hc := h.chains
  simp only [rw, hpc]
  have hroom := hf.avail_room hc (b := b) (by simp [hpc, Pc.unsent])
  have hstore := hf.availRing.store (by simpa using hroom) x.i0
  rw [← hf.avail_index h.counts] at hstore
  refine Inv.goes ⟨?_, ⟨U, P, V, Flight.setPc ?_ (by simp [hpc, Pc.sent]) (by simp [Pc.sent])⟩, h.counts.quiet rfl rfl rfl rfl⟩
  · refine Chains.setPc ⟨hc.own, hc.apart, fun u y hu => ?_, hc.holder, fun u y hu => ?_, hc.flag⟩
      (by simp [hpc, Pc.idx]) (by simp [hpc, Pc.formatted]) (fun _ => hl) ?_ fun _ => hc.flag b (by simp [hpc, Pc.unsent])
    · have hf := hc.chain u y hu
      exact ⟨hf.d0, hf.d1, hf.d2, hf.info, hf.op⟩
    · -- only one call is between its store and its increment
      have := hc.holder u (by rw [show s.pc u = .bump y from hu]; rfl)
      rw [hl] at this
      obtain rfl : b = u := by simpa using this
      rw [show s.pc b = .bump y from hu] at hpc
      cases hpc
    · intro y hy
      obtain rfl := Pc.bump.inj hy
      exact Function.update_self ..
  · exact ⟨hf.nodup, hf.out, hf.avail, hf.used, hstore, hf.usedRing, hf.pending, hf.status, hf.stage⟩

theorem goes_bump (hpc : s.pc b = .bump x) : Goes tr (rw s b) := by
  obtain ⟨U, P, V, hf⟩ := h.flight
  have hc := h.chains
  have hn := h.counts
  simp only [rw, hpc]
  refine ⟨?_, ⟨U ++ [b], P, V, hf.publish hc hn hpc⟩, hn.snoc .published b rfl rfl rfl rfl⟩
  · have hpc' : (s.setPc b (.wait x)).pc b = .wait x := Function.update_self ..
    have hc1 : Chains (s.setPc b (.wait x)) := hc.setPc (by simp [hpc, Pc.idx]) (by simp [hpc, Pc.formatted])
      (fun _ => hl) (by simp) (by simp [Pc.unsent])
    refine ⟨hc1.own, hc1.apart, fun u y hu => ?_, hc1.holder, fun u y hu => ?_, hc1.flag⟩
    · have hf := hc1.chain u y hu
      exact ⟨hf.d0, hf.d1, hf.d2, hf.info, hf.op⟩
    · have := hc1.holder u (by rw [show (s.setPc b (.wait x)).pc u = .bump y from hu]; rfl)
      rw [show (s.setPc b (.wait x)).lock = some (.rw b) from hl] at this
      obtain rfl : b = u := by simpa using this
      rw [show (s.setPc b (.wait x)).pc b = .bump y from hu] at hpc'
      cases hpc'

theorem goes_wait (hpc : s.pc b = .wait x) : Goes tr (rw s b) := by
  obtain ⟨U, P, V, hf⟩ := h.flight
  have hc := h.chains
  have hn := h.counts
  have hidx : (s.pc b).idx = some x := by simp [hpc, Pc.idx]
  simp only [rw, hpc]
  split_ifs with hdisk
  · have hc1 : Chains (s.setPc b (.waitSleep x)) := hc.setPc (by simp [hpc, Pc.idx]) (by simp [hpc, Pc.formatted])
      (by simp [Pc.locked]) (by simp) (by simp [Pc.unsent])
    have hunlocked := hc1.released (b := b) hl (by simp [Sys.setPc, Pc.locked])
    refine Inv.goes ⟨(hc1.setLock none hunlocked).scrub _ fun _ _ => rfl, ⟨U, P, V, ?_⟩, hn.quiet rfl rfl rfl rfl⟩
    exact (hf.setPc (by simp [hpc, Pc.sent]) (by simp [hpc, Pc.idx])).frame s.desc s.free _ none
  · have hform : Formatted s b x := hc.chain b x (by simp [hpc, Pc.formatted])
    set i := Function.update s.info x.i0 { s.info x.i0 with b := none } with hi
    obtain ⟨d, f, a, hd, he⟩ := freeChain_ok (s := { s with info := i }) (x := x) (hc.own b x hidx)
      (by simp [hform.d0]) (by simp [hform.d1]) (by simp [hform.d2])
    simp only [he, bind, Except.bind]
    have hdisk : s.disk b = false := by simpa using hdisk
    have hne : ∀ u, u ≠ b → (s.pc u).sent = true → i (s.head u) = s.info (s.head u) := by
      intro u hub hu
      obtain ⟨y, -, hy⟩ := Pc.formatted_of_sent hu
      rw [head_of_idx hy]
      exact Function.update_of_ne (fun he => hc.apart u b y x hub hy hidx y.i0 (.inl rfl) (.inl he)) ..
    have hc1 : Chains ({ s with info := i, desc := d, free := f, asleep := a }.setPc b .idle) :=
      hc.give hidx rfl hd (fun j hj => Function.update_of_ne hj ..) rfl rfl rfl rfl rfl
    have hunlocked := hc1.released (b := b) hl (by simp [Sys.setPc, Pc.locked])
    refine ⟨hc1.setLock none hunlocked, ⟨U, P, V, ?_⟩, hn.snoc .returned b rfl rfl rfl rfl⟩
    exact (hf.finish (by simp [hpc, Pc.sent]) hdisk i hne).frame d f a none

end Locked

theorem goes_rw (h : Inv s tr) (hl : s.lock = some (.rw b)) : Goes tr (rw s b) := by
  cases hpc : s.pc b with
  | alloc => exact goes_alloc h hl hpc
  | format x => exact goes_format h hl hpc
  | ring x => exact goes_ring h hl hpc
  | bump x => exact goes_bump h hl hpc
  | wait x => exact goes_wait h hl hpc
  | _ =>
    simp only [rw, hpc]
    exact rfl

/-! ### The interrupt handler and the device -/

/-- The first entry of the used ring that has not been processed. -/
theorem Flight.used_first (h : Flight s tr U P V) (hc : Chains s) (hn : Counts s tr) (hne : s.usedIdx ≠ s.used.idx) :
    ∃ b V', V = b :: V' ∧ s.used.ring (s.usedIdx.toNat % NUM) = s.head b ∧ (s.info (s.head b)).b = some b := by
  cases V with
  | nil =>
    refine absurd (UInt16.toNat_inj.mp ?_) hne
    rw [hn.usedIdx, hn.used, h.used, List.append_nil]
  | cons b V' =>
    obtain ⟨x, hidx, hform⟩ := h.formatted hc (b := b) (by simp)
    refine ⟨b, V', rfl, ?_, by rw [head_of_idx hidx]; exact hform.info⟩
    rw [hn.usedIdx, RingBuf.index_wrap (by decide)]
    exact h.usedRing.pop.1

theorem goes_intr (h : Inv s tr) (hl : s.lock = some .intr) : Goes tr (intr s) := by
  obtain ⟨U, P, V, hf⟩ := h.flight
  have hc := h.chains
  have hn := h.counts
  unfold intr
  by_cases hne : s.usedIdx ≠ s.used.idx
  · obtain ⟨b, V', rfl, hring, hinfo⟩ := hf.used_first hc hn hne
    have hsent := ((hf.out b).mp (by simp)).1
    simp only [if_pos hne, hring, hf.status b (by simp), hinfo]
    refine ⟨⟨hc.own, hc.apart, fun u y hu => ?_, hc.holder, hc.cell, fun u hu => ?_⟩, ⟨U, P, V', hf.process _⟩,
      hn.snoc .processed b rfl rfl rfl rfl⟩
    · have hf := hc.chain u y hu
      exact ⟨hf.d0, hf.d1, hf.d2, hf.info, hf.op⟩
    · have hub : u ≠ b := by
        rintro rfl
        change (s.pc u).unsent = true at hu
        cases hpc : s.pc u <;> simp_all [Pc.unsent, Pc.sent]
      simpa [Sys.wakeup, hub] using hc.flag u hu
  · rw [if_neg hne]
    exact Inv.goes ⟨hc.setLock none (hc.unlocked (by simp [hl])), ⟨U, P, V, hf.frame s.desc s.free s.asleep none⟩,
      hn.quiet rfl rfl rfl rfl⟩

theorem goes_consume (h : Inv s tr) : Goes tr (consume s) := by
  obtain ⟨U, P, V, hf⟩ := h.flight
  have hc := h.chains
  have hn := h.counts
  unfold consume
  by_cases hlast : s.dev.last = s.avail.idx
  · rw [if_pos hlast]
    exact rfl
  · cases U with
    | nil =>
      refine absurd (UInt16.toNat_inj.mp ?_) hlast
      rw [hn.last, hn.avail, hf.avail, List.append_nil]
    | cons b U' =>
      obtain ⟨x, hidx, hform⟩ := hf.formatted hc (b := b) (by simp)
      have hring : s.avail.ring (s.dev.last.toNat % NUM) = x.i0 := by
        rw [hn.last, RingBuf.index_wrap (by decide), ← head_of_idx hidx]
        exact hf.availRing.pop.1
      have hreq : (⟨x.i0, b, x.i0, s.ops x.i0⟩ : DevReq) = s.devReq b := by
        rw [Sys.devReq, head_of_idx hidx, hform.op]
      simp only [if_neg hlast, hring, hform.d0, hform.d1, hform.d2, hreq]
      refine ⟨⟨hc.own, hc.apart, fun u y hu => ?_, hc.holder, hc.cell, hc.flag⟩, ⟨U', P ++ [b], V, hf.consume⟩,
        hn.snoc .consumed b rfl rfl rfl rfl⟩
      have hf := hc.chain u y hu
      exact ⟨hf.d0, hf.d1, hf.d2, hf.info, hf.op⟩

theorem goes_complete (h : Inv s tr) (n : ℕ) : Goes tr (complete s n) := by
  obtain ⟨U, P, V, hf⟩ := h.flight
  have hc := h.chains
  have hn := h.counts
  unfold complete
  rw [hf.pending, List.getElem?_map]
  cases hb : P[n]? with
  | none => exact rfl
  | some b =>
    have hcomp := hf.complete hc hn hb
    rw [hf.pending] at hcomp
    refine ⟨⟨hc.own, hc.apart, fun u y hu => ?_, hc.holder, hc.cell, hc.flag⟩, ⟨U, P.eraseIdx n, V ++ [b], hcomp⟩,
      hn.snoc .completed b rfl rfl rfl rfl⟩
    have hf := hc.chain u y hu
    refine ⟨hf.d0, hf.d1, hf.d2, ?_, hf.op⟩
    change (Function.update s.info (s.head b) { s.info (s.head b) with status := 0 } y.i0).b = some u
    by_cases he : y.i0 = s.head b
    · rw [he, Function.update_self, ← he]
      exact hf.info
    · rw [Function.update_of_ne he]
      exact hf.info

/-! ### Runs -/

theorem goes_step (h : Inv s tr) (a : Act) : Goes tr (step s a) := by
  cases a with
  | call b write n => exact goes_call h b write n
  | acquire b => exact goes_acquire h b
  | rw b =>
    simp only [step]
    split_ifs with hl
    · exact rfl
    · exact goes_rw h (not_not.mp hl)
  | kill b =>
    obtain ⟨U, P, V, hf⟩ := h.flight
    exact Inv.goes ⟨h.chains.scrub _ fun _ _ => rfl, ⟨U, P, V, hf.frame s.desc s.free _ s.lock⟩,
      h.counts.quiet rfl rfl rfl rfl⟩
  | intrAcquire =>
    simp only [step]
    split_ifs with hl
    · exact rfl
    · obtain ⟨U, P, V, hf⟩ := h.flight
      have hc := h.chains
      exact Inv.goes ⟨hc.setLock _ (hc.unlocked (by simp [not_not.mp hl])),
        ⟨U, P, V, hf.frame s.desc s.free s.asleep _⟩, h.counts.quiet rfl rfl rfl rfl⟩
  | intr =>
    simp only [step]
    split_ifs with hl
    · exact rfl
    · exact goes_intr h (not_not.mp hl)
  | consume => exact goes_consume h
  | complete n => exact goes_complete h n

theorem inv_boot : Inv boot [] where
  chains :=
    ⟨by simp [boot, Pc.idx], by simp [boot, Pc.idx], by simp [boot, Pc.formatted], by simp [boot, Pc.locked],
      by simp [boot], by simp [boot, Pc.unsent]⟩
  flight := ⟨[], [], [], by simp, by simp [boot, Pc.sent], rfl, rfl, .nil _ _, .nil _ _, rfl, by simp,
    fun b => by simp [stageOf, place, boot, Pc.sent]⟩
  counts := ⟨rfl, rfl, rfl, rfl⟩

/-- The distance of the two counters of a ring is the number of entries between them. -/
theorem distance_eq {i j : UInt16} {m n : ℕ} (hi : i.toNat = m % 2 ^ 16) (hj : j.toNat = (m + n) % 2 ^ 16)
    (hn : n ≤ NUM) : (j - i).toNat = n := by
  rw [UInt16.toNat_sub, hi, hj]
  have : n < 2 ^ 16 := lt_of_le_of_lt hn (by decide)
  omega

/-- **The request protocol.** In every state a run reaches:
the descriptors of a call that has some are not free and no other call's;
the requests taken by the device are the first of those published, `U` of
them are still in the avail ring, and a call about to store the head of its
chain there does not overwrite one of these; the requests seen by the interrupt
handler are the first of those completed, `V` of them are still in the used
ring, and the next of them has its buffer in `info`; the request of a buffer is
published, taken, completed, processed and returned from in turn; and no step
panics or uses a null pointer. -/
theorem virtio_protocol {acts : List Act} (hr : run step boot acts = .ok (s, tr)) :
    (∀ b x, (s.pc b).idx = some x → (∀ i, x.Has i → i < NUM ∧ s.free i = false) ∧
      ∀ b' x', b ≠ b' → (s.pc b').idx = some x' → ∀ i, x.Has i → ¬ x'.Has i) ∧
    (∃ U, bufs .published tr = bufs .consumed tr ++ U ∧ U.length = (s.avail.idx - s.dev.last).toNat ∧
      ∀ b x, s.pc b = .ring x → ∀ n, n < U.length → (s.dev.last.toNat + n) % NUM ≠ s.avail.idx.toNat % NUM) ∧
    (∃ V, bufs .completed tr = bufs .processed tr ++ V ∧ V.length = (s.used.idx - s.usedIdx).toNat ∧
      (s.usedIdx ≠ s.used.idx →
        ∃ b V', V = b :: V' ∧ (s.info (s.used.ring (s.usedIdx.toNat % NUM))).b = some b)) ∧
    (∀ b, ∃ st, stageOf tr b = some st) ∧
    ∀ a e, step s a = .error e → e = .blocked := by
  have h : Inv s tr := run_inv (I := Inv) inv_boot (fun s t a s' t' h he => (goes_step h a).of_ok he) hr
  obtain ⟨U, P, V, hf⟩ := h.flight
  have hc := h.chains
  have hn := h.counts
  have hU : U.length = (s.avail.idx - s.dev.last).toNat := by
    refine (distance_eq hn.last ?_ (by simpa using hf.availRing.fits)).symm
    rw [← List.length_append, ← hf.avail]
    exact hn.avail
  have hV : V.length = (s.used.idx - s.usedIdx).toNat := by
    refine (distance_eq hn.usedIdx ?_ (by simpa using hf.usedRing.fits)).symm
    rw [← List.length_append, ← hf.used]
    exact hn.used
  refine ⟨fun b x hx => ⟨fun i hi => ⟨(hc.own b x hx).lt i hi, (hc.own b x hx).used i hi⟩,
    fun b' x' hne hx' => hc.apart b b' x x' hne hx hx'⟩, ⟨U, hf.avail, hU, fun b x hpc n hlt => ?_⟩,
    ⟨V, hf.used, hV, fun hne => ?_⟩, fun b => ⟨_, hf.stage b⟩, fun a e he => (goes_step h a).of_error he⟩
  · have hroom := hf.avail_room hc (b := b) (by simp [hpc, Pc.unsent])
    rw [hf.avail_index hn, List.length_map, hn.last, Nat.add_mod, RingBuf.index_wrap (by decide), ← Nat.add_mod]
    exact RingBuf.index_ne hlt hroom
  · obtain ⟨b, V', rfl, hring, hinfo⟩ := hf.used_first hc hn hne
    exact ⟨b, V', rfl, by rw [hring]; exact hinfo⟩

/-- The calls for buffers 3 and 4 are out together; the device completes the second first. -/
def twoRequests : List Act :=
  [.call 3 true 5, .acquire 3, .rw 3, .rw 3, .rw 3, .rw 3, .rw 3, .call 4 false 6, .acquire 4, .rw 4, .rw 4, .rw 4,
    .rw 4, .consume, .rw 4, .consume, .complete 1, .intrAcquire, .intr, .complete 0, .intr, .intr, .acquire 3, .rw 3,
    .acquire 4, .rw 4]

theorem virtio_protocol_sample :
    (∃ s tr, run step boot (twoRequests.take 17) = .ok (s, tr) ∧ bufs .published tr = [3, 4] ∧
      bufs .completed tr = [4] ∧ bufs .processed tr = [] ∧ (s.used.idx - s.usedIdx).toNat = 1 ∧
      (s.info (s.used.ring 0)).b = some 4) ∧
    ∃ s tr, run step boot twoRequests = .ok (s, tr) ∧ bufs .returned tr = [3, 4] ∧ ∃ st, stageOf tr 3 = some st := by
  constructor
  · obtain ⟨⟨s, tr⟩, hr, hs⟩ := okWith_iff.mp (show okWith (run step boot (twoRequests.take 17))
      (fun r => decide (bufs .published r.2 = [3, 4] ∧ bufs .completed r.2 = [4] ∧ bufs .processed r.2 = [] ∧
        r.1.usedIdx = 0 ∧ r.1.used.idx = 1)) = true by decide +kernel)
    simp only [decide_eq_true_eq] at hs
    obtain ⟨hpub, hcomp, hproc, hidx, hused⟩ := hs
    obtain ⟨-, -, ⟨V, hV, -, hfirst⟩, -⟩ := virtio_protocol hr
    obtain ⟨b, V', rfl, hinfo⟩ := hfirst (by rw [hidx, hused]; decide)
    rw [hcomp, hproc, List.nil_append] at hV
    obtain ⟨rfl, -⟩ := List.cons.inj hV
    rw [hidx] at hinfo
    exact ⟨s, tr, hr, hpub, hcomp, hproc, by rw [hidx, hused]; decide, hinfo⟩
  · obtain ⟨⟨s, tr⟩, hr, hs⟩ := okWith_iff.mp (show okWith (run step boot twoRequests)
      (fun r => decide (bufs .returned r.2 = [3, 4])) = true by decide +kernel)
    simp only [decide_eq_true_eq] at hs
    obtain ⟨-, -, -, hstage, -⟩ := virtio_protocol hr
    exact ⟨s, tr, hr, hs, hstage 3⟩

end Virtio
end Xv6
