/-
# Reference counts of open files

Each call that makes or drops descriptors keeps the invariant of `Xv6.File`,
and a call that fails gives back exactly what it took (`Returns`). The
functions change counts and descriptors in different orders, which does not
matter (`fileclose_setOfile`).

* `file_references`: between calls `ref` is the number of descriptors, a pipe
  has its ends open as long as their files are, its page is freed once, with the
  second end, and a call that fails leaves descriptors, counts and pipes as they
  were; `filedup` and `fileclose` do not panic.

Key definitions: `Files.Same`, `Files.Returns`, `Files.Fresh`.
-/
import Xv6.File

namespace Xv6
namespace Files

open TraceSys

variable {s s' : Sys} {loc : List ℕ} {p f fd : ℕ}

/-! ### The calls -/

/-- Descriptors, counts, pipes and processes are as before. -/
structure Same (s s' : Sys) : Prop where
  ofile : s'.ofile = s.ofile
  ref : ∀ f, (s'.file f).ref = (s.file f).ref
  pipe : s'.pipe = s.pipe
  proc : s'.proc = s.proc

theorem Same.refl (s : Sys) : Same s s := ⟨rfl, fun _ => rfl, rfl, rfl⟩

/-- A call returns in a state with the invariant, and if it fails, with nothing changed. -/
def Returns (s : Sys) (r : Except Stop (Sys × ℤ)) : Prop :=
  Ends (fun e => e = .blocked) r fun x => Inv [] x.1 ∧ (x.2 = -1 → Same s x.1)

theorem returns_same (h : Inv [] s) : Returns s (.ok (s, -1)) := ⟨h, fun _ => .refl s⟩

theorem returns_nat {n : ℕ} (h : Inv [] s') : Returns s (.ok (s', (n : ℤ))) := ⟨h, fun hn => by omega⟩

theorem Inv.entry_pos (h : Inv loc s) {v : ℕ × ℕ} (hv : s.ofile v = some f) : 1 ≤ (s.file f).ref := by
  obtain ⟨n, hn, hr⟩ := h.refs f (h.range v f hv).1
  have := hn.pos hv
  omega

theorem returns_dup (h : Inv [] s) (hp : s.proc p = .used) (x : ℤ) : Returns s (sysDup s p x) := by
  unfold sysDup
  split
  · exact returns_same h
  · next n f ha =>
    have hv := argfd_some ha
    split
    · exact returns_same h
    · next fd s1 hd =>
      obtain ⟨hlt, hnone, rfl⟩ := fdalloc_some hd
      have hpos : ¬ ((s.setOfile (p, fd) (some f)).file f).ref < 1 := not_lt.mpr (h.entry_pos hv)
      simp only [filedup, if_neg hpos]
      exact returns_nat (h.addRef.setOfile hnone (h.range _ f hv).1 hlt hp)

theorem returns_close (h : Inv [] s) (x : ℤ) : Returns s (sysClose s p x) := by
  unfold sysClose
  split
  · exact returns_same h
  · next n f ha =>
    have hv := argfd_some ha
    obtain ⟨s1, he, hI, -⟩ := (h.clearOfile hv).fileclose (h.range _ f hv).1
    simp only [he, bind, Except.bind]
    exact returns_nat (n := 0) hI

/-- The last reference to a slot of no type goes. -/
theorem fileclose_last (h1 : (s.file f).ref = 1) (ht : (s.file f).type = .none) :
    fileclose s f = .ok (s.setFile f { s.file f with ref := 0, type := .none }) := by
  simp [fileclose, h1, ht]

/-- A slot that has just been allocated is given back. -/
theorem fileclose_fresh (h0 : (s.file f).ref = 0) (ht : (s.file f).type = .none) :
    ∃ s', fileclose (s.setFile f { s.file f with ref := 1 }) f = .ok s' ∧ Same s s' := by
  refine ⟨_, fileclose_last (by simp [Sys.setFile]) (by simp [Sys.setFile, ht]), rfl, fun g => ?_, rfl, rfl⟩
  by_cases hg : g = f
  · rw [hg]
    simp [Sys.setFile, h0]
  · simp [Sys.setFile, hg]

theorem returns_open (h : Inv [] s) (hp : s.proc p = .used) (omode : ℕ) (found : Option Found) :
    Returns s (sysOpen s p omode found) := by
  unfold sysOpen
  split
  · exact returns_same h
  · next i =>
    split_ifs
    · exact returns_same h
    · split
      · exact returns_same h
      · next f s1 hf =>
        obtain ⟨hlt, h0, ht, rfl, hI⟩ := h.filealloc hf
        split
        · obtain ⟨s2, he, hI2, -⟩ := hI.fileclose hlt
          obtain ⟨s3, he3, hsame⟩ := fileclose_fresh h0 ht
          obtain rfl : s2 = s3 := Except.ok.inj (he.symm.trans he3)
          simp only [he, bind, Except.bind]
          exact ⟨hI2, fun _ => hsame⟩
        · next fd s2 hfd =>
          obtain ⟨hfdlt, hnone, rfl⟩ := fdalloc_some hfd
          refine returns_nat ((hI.setOfile hnone hlt hfdlt hp).retype (f := f) ?_ rfl ?_ ?_)
          · simp [Sys.setOfile, Sys.setFile]
          · simp [Sys.setOfile, Sys.setFile, ht]
          · unfold opened
            split_ifs <;> simp

/-! ### `pipe` -/

/-- Closing the two ends of a new pipe frees it. -/
theorem fileclose_both {f0 f1 pg : ℕ} (hne : f0 ≠ f1) (h0 : (s.file f0).ref = 1) (h1 : (s.file f1).ref = 1)
    (ht0 : (s.file f0).type = .pipe) (ht1 : (s.file f1).type = .pipe) (hp0 : (s.file f0).pipe = pg)
    (hp1 : (s.file f1).pipe = pg) (hw0 : (s.file f0).writable = false) (hw1 : (s.file f1).writable = true)
    (hpg : s.pipe pg = some ⟨true, true⟩) :
    ∃ s1 s2, fileclose s f0 = .ok s1 ∧ fileclose s1 f1 = .ok s2 ∧ s2.ofile = s.ofile ∧ s2.proc = s.proc ∧
      s2.pipe = Function.update s.pipe pg none ∧
      ∀ g, (s2.file g).ref = if g = f0 ∨ g = f1 then 0 else (s.file g).ref := by
  have hclose0 : fileclose s f0 = .ok ((s.setFile f0 { s.file f0 with ref := 0, type := .none }).setPipe pg
      (some ⟨false, true⟩)) := by
    simp [fileclose, h0, ht0, hp0, hw0, pipeclose, Sys.setFile, hpg, Pipe.shut]
  set s1 := (s.setFile f0 { s.file f0 with ref := 0, type := .none }).setPipe pg (some ⟨false, true⟩) with hs1
  have hfile : s1.file f1 = s.file f1 := Function.update_of_ne (Ne.symm hne) ..
  have hpg1 : s1.pipe pg = some ⟨false, true⟩ := Function.update_self ..
  have hclose1 : fileclose s1 f1 = .ok (kfree (s1.setFile f1 { s1.file f1 with ref := 0, type := .none }) pg) := by
    simp [fileclose, hfile, h1, ht1, hp1, hw1, pipeclose, Sys.setFile, hpg1, Pipe.shut]
  refine ⟨_, _, hclose0, hclose1, rfl, rfl, ?_, fun g => ?_⟩
  · simp [kfree, hs1, Sys.setFile, Sys.setPipe]
  · by_cases hg1 : g = f1
    · simp [kfree, Sys.setFile, hg1]
    · by_cases hg0 : g = f0
      · simp [kfree, hs1, Sys.setFile, Sys.setPipe, hg0, hne]
      · simp [kfree, hs1, Sys.setFile, Sys.setPipe, hg0, hg1]

/-- `pipealloc` has made a pipe in page `pg`; nothing else has changed. -/
structure Fresh (s s' : Sys) (f0 f1 pg : ℕ) : Prop where
  inv : Inv [f0, f1] s'
  ne : f0 ≠ f1
  lt0 : f0 < NFILE
  lt1 : f1 < NFILE
  file0 : (s'.file f0).ref = 1 ∧ (s'.file f0).type = .pipe ∧ (s'.file f0).pipe = pg ∧ (s'.file f0).writable = false
  file1 : (s'.file f1).ref = 1 ∧ (s'.file f1).type = .pipe ∧ (s'.file f1).pipe = pg ∧ (s'.file f1).writable = true
  ref : ∀ g, (s.file g).ref = if g = f0 ∨ g = f1 then 0 else (s'.file g).ref
  unused : s.pipe pg = none
  pipe : s'.pipe = Function.update s.pipe pg (some ⟨true, true⟩)
  ofile : s'.ofile = s.ofile
  proc : s'.proc = s.proc

/-- The pipe is given up; descriptors may have been made and cleared in between. -/
theorem Fresh.close {f0 f1 pg : ℕ} {t : Sys} (hf : Fresh s s' f0 f1 pg) (hI : Inv [f0, f1] t)
    (hfile : t.file = s'.file) (hpipe : t.pipe = s'.pipe) (hproc : t.proc = s'.proc) (hofile : t.ofile = s.ofile) :
    ∃ s1 s2, fileclose t f0 = .ok s1 ∧ fileclose s1 f1 = .ok s2 ∧ Inv [] s2 ∧ Same s s2 := by
  obtain ⟨s1, he1, hI1, -⟩ := hI.fileclose hf.lt0
  obtain ⟨s2, he2, hI2, -⟩ := hI1.fileclose hf.lt1
  refine ⟨s1, s2, he1, he2, hI2, ?_⟩
  obtain ⟨r0, t0, p0, w0⟩ := hf.file0
  obtain ⟨r1, t1, p1, w1⟩ := hf.file1
  rw [← hfile] at r0 t0 p0 w0 r1 t1 p1 w1
  obtain ⟨u1, u2, hu1, hu2, hof, hpr, hpi, href⟩ := fileclose_both hf.ne r0 r1 t0 t1 p0 p1 w0 w1
    (by rw [hpipe, hf.pipe]; exact Function.update_self ..)
  obtain rfl : s1 = u1 := Except.ok.inj (he1.symm.trans hu1)
  obtain rfl : s2 = u2 := Except.ok.inj (he2.symm.trans hu2)
  refine ⟨hof.trans hofile, fun g => ?_, ?_, by rw [hpr, hproc, hf.proc]⟩
  · rw [href, hfile, hf.ref]
  · rw [hpi, hpipe, hf.pipe, Function.update_idem, ← hf.unused, Function.update_eq_self]

theorem pipealloc_ends (h : Inv [] s) (page : Option ℕ) :
    Ends (fun e => e = .blocked) (pipealloc s page) fun x =>
      match x.2 with
      | none => Inv [] x.1 ∧ Same s x.1
      | some (f0, f1) => ∃ pg, Fresh s x.1 f0 f1 pg := by
  unfold pipealloc
  split
  · exact ⟨h, .refl s⟩
  · next f0 s1 ha =>
    obtain ⟨hlt0, h0, ht0, rfl, hI1⟩ := h.filealloc ha
    split
    · obtain ⟨s2, he, hI2, -⟩ := hI1.fileclose hlt0
      obtain ⟨s3, he3, hsame⟩ := fileclose_fresh h0 ht0
      obtain rfl : s2 = s3 := Except.ok.inj (he.symm.trans he3)
      simp only [he, bind, Except.bind]
      exact ⟨hI2, hsame⟩
    · next f1 s2 hb =>
      obtain ⟨hlt1, h1, ht1, rfl, hI2⟩ := hI1.filealloc hb
      have hne : f0 ≠ f1 := by
        rintro rfl
        simp [Sys.setFile] at h1
      have hfile1 : (s.setFile f0 { s.file f0 with ref := 1 }).file f1 = s.file f1 :=
        Function.update_of_ne (Ne.symm hne) ..
      rw [hfile1] at h1 ht1
      set s2 := (s.setFile f0 { s.file f0 with ref := 1 }).setFile f1
        { (s.setFile f0 { s.file f0 with ref := 1 }).file f1 with ref := 1 } with hs2
      have href : ∀ g, (s2.file g).ref = if g = f0 ∨ g = f1 then 1 else (s.file g).ref := by
        intro g
        by_cases hg1 : g = f1
        · simp [hs2, Sys.setFile, hg1]
        · by_cases hg0 : g = f0
          · simp [hs2, Sys.setFile, hg0, hne]
          · simp [hs2, Sys.setFile, hg0, hg1]
      have href0 : ∀ g, (s.file g).ref = if g = f0 ∨ g = f1 then 0 else (s2.file g).ref := by
        intro g
        rw [href]
        split_ifs with hg
        · rcases hg with rfl | rfl
          · exact h0
          · exact h1
        · rfl
      have htype0 : (s2.file f0).type = .none := by simp [hs2, Sys.setFile, hne, ht0]
      have htype1 : (s2.file f1).type = .none := by simp [hs2, Sys.setFile, Ne.symm hne, ht1]
      split
      · obtain ⟨s3, he3, hI3, -⟩ := (hI2.perm (.swap f0 f1 [])).fileclose hlt0
        obtain ⟨s4, he4, hI4, -⟩ := hI3.fileclose hlt1
        simp only [he3, he4, bind, Except.bind]
        refine ⟨hI4, ?_⟩
        obtain rfl := Except.ok.inj (he3.symm.trans (fileclose_last (by simp [href]) htype0))
        have hfile : (s2.setFile f0 { s2.file f0 with ref := 0, type := .none }).file f1 = s2.file f1 :=
          Function.update_of_ne (Ne.symm hne) ..
        obtain rfl := Except.ok.inj (he4.symm.trans (fileclose_last (by simp [hfile, href]) (by rw [hfile, htype1])))
        refine ⟨rfl, fun g => ?_, rfl, rfl⟩
        by_cases hg1 : g = f1
        · simp [Sys.setFile, hg1, h1]
        · by_cases hg0 : g = f0
          · simp [Sys.setFile, hg0, hne, h0]
          · simp [Sys.setFile, hg0, hg1, href]
      · next pg =>
        split_ifs with hpg
        · exact rfl
        · have hpg : s.pipe pg = none := not_not.mp hpg
          have hI3 := (hI2.perm (.swap f0 f1 [])).connect hne hlt0 hlt1 htype0 htype1 (by simp [href]) (by simp [href]) hpg
          refine ⟨pg, hI3, hne, hlt0, hlt1, ⟨by simp [connect_ref, href], ?_⟩, ⟨by simp [connect_ref, href], ?_⟩,
            fun g => by rw [connect_ref]; exact href0 g, hpg, rfl, rfl, rfl⟩
          · simp [connect, kalloc, Sys.setFile, hne]
          · simp [connect, kalloc, Sys.setFile, Ne.symm hne]

theorem returns_pipe (h : Inv [] s) (hp : s.proc p = .used) (page : Option ℕ) (copied : Bool) :
    Returns s (sysPipe s p page copied) := by
  refine Ends.bind (pipealloc_ends h page) ?_
  rintro ⟨s1, _ | ⟨rf, wf⟩⟩ hx
  · exact ⟨hx.1, fun _ => hx.2⟩
  · obtain ⟨pg, hf⟩ := hx
    have hp1 : s1.proc p = .used := by rw [hf.proc, hp]
    simp only
    split
    · obtain ⟨u1, u2, hu1, hu2, hI, hsame⟩ := hf.close hf.inv rfl rfl rfl hf.ofile
      simp only [hu1, hu2, bind, Except.bind]
      exact ⟨hI, fun _ => hsame⟩
    · next fd0 s2 hd0 =>
      obtain ⟨hlt0, hnone0, rfl⟩ := fdalloc_some hd0
      have hI0 := hf.inv.setOfile hnone0 hf.lt0 hlt0 hp1
      have hself0 : (s1.setOfile (p, fd0) (some rf)).ofile (p, fd0) = some rf := Function.update_self ..
      split
      · have hback : ((s1.setOfile (p, fd0) (some rf)).setOfile (p, fd0) none).ofile = s.ofile := by
          rw [← hf.ofile]
          simp only [Sys.setOfile, Function.update_idem]
          rw [← hnone0, Function.update_eq_self]
        obtain ⟨u1, u2, hu1, hu2, hI, hsame⟩ := hf.close (hI0.clearOfile hself0) rfl rfl rfl hback
        simp only [hu1, hu2, bind, Except.bind]
        exact ⟨hI, fun _ => hsame⟩
      · next fd1 s3 hd1 =>
        obtain ⟨hlt1, hnone1, rfl⟩ := fdalloc_some hd1
        have hne : fd1 ≠ fd0 := by
          rintro rfl
          simp [hself0] at hnone1
        have hI1 := hI0.setOfile hnone1 hf.lt1 hlt1 hp1
        split_ifs
        · exact returns_nat (n := 0) hI1
        · set t := (s1.setOfile (p, fd0) (some rf)).setOfile (p, fd1) (some wf) with ht
          have hrf : t.ofile (p, fd0) = some rf := by simp [ht, Sys.setOfile, Ne.symm hne]
          have hwf : (t.setOfile (p, fd0) none).ofile (p, fd1) = some wf := by simp [ht, Sys.setOfile, hne]
          have hnone1' : s1.ofile (p, fd1) = none := by simpa [Sys.setOfile, hne] using hnone1
          have hback : ((t.setOfile (p, fd0) none).setOfile (p, fd1) none).ofile = s.ofile := by
            rw [← hf.ofile]
            funext v
            by_cases hv1 : v = (p, fd1)
            · rw [hv1, hnone1']
              simp [Sys.setOfile]
            · by_cases hv0 : v = (p, fd0)
              · rw [hv0, hnone0]
                simp [Sys.setOfile, Ne.symm hne]
              · simp [ht, Sys.setOfile, hv0, hv1]
          have hI2 := ((hI1.clearOfile hrf).clearOfile hwf).perm (.swap rf wf [])
          obtain ⟨u1, u2, hu1, hu2, hI, hsame⟩ := hf.close hI2 rfl rfl rfl hback
          simp only [hu1, hu2, bind, Except.bind]
          exact ⟨hI, fun _ => hsame⟩

/-! ### `fork` and `exit` -/

theorem Inv.setProc {st : ProcState} (h : Inv loc s) (hp : p < NPROC)
    (hst : st = .used ∨ ∀ fd f, s.ofile (p, fd) ≠ some f) : Inv loc (s.setProc p st) := by
  refine { h with range := fun v f hv => ?_, slots := fun q hq => ?_ }
  · obtain ⟨h1, h2, h3⟩ := h.range v f hv
    refine ⟨h1, h2, ?_⟩
    by_cases hvp : v.1 = p
    · rcases hst with rfl | hnone
      · simp [Sys.setProc, hvp]
      · exact absurd hv (by rw [← hvp] at hnone; exact hnone v.2 f)
    · simpa [Sys.setProc, hvp] using h3
  · by_cases hqp : q = p
    · exact hqp ▸ hp
    · simp only [Sys.setProc, Function.update_of_ne hqp] at hq
      exact h.slots q hq

theorem returns_fork (h : Inv [] s) (hp : s.proc p = .used) (memory : Bool) : Returns s (fork s p memory) := by
  unfold fork
  split
  · exact returns_same h
  · next np hnp =>
    have hlt := List.mem_range.mp (List.mem_of_find?_eq_some hnp)
    have hun : s.proc np = .unused := by simpa using List.find?_some hnp
    have hne : p ≠ np := by
      rintro rfl
      simp [hp] at hun
    split_ifs
    · exact returns_same h
    · have hfree : ∀ fd, s.ofile (np, fd) = none := by
        intro fd
        by_contra hfd
        obtain ⟨f, hf⟩ := Option.ne_none_iff_exists'.mp hfd
        have := (h.range _ f hf).2.2
        simp [hun] at this
      -- before round `i` the child has the first `i` descriptors of its parent
      refine Ends.bind (Q := fun t => Inv [] t) ?_ fun t ht => returns_nat ht
      refine Ends.mono (Ends.foldlM_range (I := fun i t => Inv [] t ∧ t.proc np = .used ∧
        ∀ fd, i ≤ fd → t.ofile (np, fd) = none) ⟨h.setProc hlt (.inl rfl), by simp [Sys.setProc], fun fd _ => hfree fd⟩
        NOFILE fun i hi t ht => ?_) fun t ht => ht.1
      obtain ⟨hI, hused, hnone⟩ := ht
      unfold forkFd
      split
      · exact ⟨hI, hused, fun fd hfd => hnone fd (by omega)⟩
      · next f hf =>
        have hpos : ¬ (t.file f).ref < 1 := not_lt.mpr (hI.entry_pos hf)
        simp only [filedup, if_neg hpos, bind, Except.bind]
        refine ⟨hI.addRef.setOfile (hnone i le_rfl) (hI.range _ f hf).1 hi hused, hused, fun fd hfd => ?_⟩
        have : fd ≠ i := by omega
        simpa [Sys.setOfile, Sys.setFile, this] using hnone fd (by omega)

theorem pipeclose_setOfile (v : ℕ × ℕ) (o : Option ℕ) (pg : ℕ) (w : Bool) :
    pipeclose (s.setOfile v o) pg w = (pipeclose s pg w).map fun t => t.setOfile v o := by
  unfold pipeclose
  rw [show (s.setOfile v o).pipe = s.pipe from rfl]
  cases s.pipe pg with
  | none => rfl
  | some pi =>
    simp only
    split_ifs <;> rfl

/-- Closing a file and clearing its descriptor can be done in either order. -/
theorem fileclose_setOfile (v : ℕ × ℕ) (o : Option ℕ) :
    fileclose (s.setOfile v o) f = (fileclose s f).map fun t => t.setOfile v o := by
  unfold fileclose
  rw [show (s.setOfile v o).file = s.file from rfl]
  by_cases h1 : (s.file f).ref < 1
  · rw [if_pos h1, if_pos h1]
    rfl
  · rw [if_neg h1, if_neg h1]
    by_cases h2 : 0 < (s.file f).ref - 1
    · rw [if_pos h2, if_pos h2]
      rfl
    · rw [if_neg h2, if_neg h2]
      cases (s.file f).type with
      | pipe => exact pipeclose_setOfile (s := s.setFile f { s.file f with ref := 0, type := .none }) v o _ _
      | _ => rfl

theorem exit_ends (h : Inv [] s) (hp : s.proc p = .used) :
    Ends (fun e => e = .panic "init exiting") (exit s p) (Inv []) := by
  unfold exit
  split_ifs
  · exact rfl
  · -- before round `i` the first `i` descriptors are cleared
    refine Ends.bind (Ends.mono (Ends.foldlM_range (I := fun i t => Inv [] t ∧ t.proc p = .used ∧
      ∀ fd, fd < i → t.ofile (p, fd) = none) ⟨h, hp, by simp⟩ NOFILE fun i hi t ht => ?_) fun t ht => ht) ?_
    · obtain ⟨hI, hused, hnone⟩ := ht
      unfold exitFd
      split
      · next hi0 =>
        refine ⟨hI, hused, fun fd hfd => ?_⟩
        by_cases hfi : fd = i
        · rw [hfi, hi0]
        · exact hnone fd (by omega)
      · next f hf =>
        obtain ⟨t1, he, hI1, hof, hpr⟩ := (hI.clearOfile hf).fileclose (hI.range _ f hf).1
        rw [fileclose_setOfile] at he
        cases hc : fileclose t f with
        | error e => simp [hc, Except.map] at he
        | ok t2 =>
          rw [hc] at he
          obtain rfl := Except.ok.inj he
          refine ⟨hI1, ?_, fun fd hfd => ?_⟩
          · rw [hpr]
            exact hused
          · rw [hof]
            by_cases hfi : fd = i
            · simp [Sys.setOfile, hfi]
            · simpa [Sys.setOfile, hfi] using hnone fd (by omega)
    · intro t ht
      obtain ⟨hI, hused, hnone⟩ := ht
      refine hI.setProc (hI.slots p (by simp [hused])) (.inr fun fd f hf => ?_)
      have := hnone fd (hI.range _ f hf).2.1
      simp [this] at hf

/-! ### Runs -/

/-- What a step does: it keeps the invariant, a call that returns -1 changes
nothing, and a step stops only if it is not possible or `init` exits. -/
theorem step_ends (h : Inv [] s) (a : Act) :
    Ends (fun e => e = .blocked ∨ e = .panic "init exiting") (step s a)
      fun x => Inv [] x.1 ∧ (.ret (-1) ∈ x.2 → Same s x.1) := by
  have hcall : ∀ {p : ℕ} {r : Except Stop (Sys × ℤ)}, (s.proc p = .used → Returns s r) →
      Ends (fun e => e = .blocked ∨ e = .panic "init exiting")
        (if s.proc p ≠ .used then .error .blocked else returns r)
        fun x => Inv [] x.1 ∧ (.ret (-1) ∈ x.2 → Same s x.1) := by
    intro p r hr
    split_ifs with hp
    · exact .inl rfl
    · have hr := hr (not_not.mp hp)
      cases r with
      | error e => exact .inl hr
      | ok x => exact ⟨hr.1, fun he => hr.2 (by simpa [eq_comm] using he)⟩
  cases a with
  | openFile p omode found => exact hcall fun hp => returns_open h hp omode found
  | dup p x => exact hcall fun hp => returns_dup h hp x
  | close p x => exact hcall fun _ => returns_close h x
  | pipe p page copied => exact hcall fun hp => returns_pipe h hp page copied
  | fork p memory => exact hcall fun hp => returns_fork h hp memory
  | exit p =>
    simp only [step]
    split_ifs with hp
    · exact .inl rfl
    · have he := exit_ends h (not_not.mp hp)
      cases hr : exit s p with
      | error e =>
        rw [hr] at he
        exact .inr he
      | ok t =>
        rw [hr] at he
        exact ⟨he, by simp⟩
  | reap p =>
    simp only [step]
    split_ifs with hp
    · exact .inl rfl
    · have hz : s.proc p = .zombie := not_not.mp hp
      refine ⟨h.setProc (h.slots p (by simp [hz])) (.inr fun fd f hf => ?_), by simp⟩
      have := (h.range _ f hf).2.2
      simp [hz] at this

theorem inv_boot : Inv [] boot where
  refs _ _ := ⟨0, Tally.zero fun _ => by simp [boot], rfl⟩
  range _ _ h := by simp [boot] at h
  closed _ _ _ := rfl
  one _ _ _ _ h := by simp [End, boot] at h
  ends _ _ := by simp [End, boot]
  half _ _ h := by simp [boot] at h
  heap _ := rfl
  slots p h := by
    by_cases hp : p = 0
    · rw [hp]
      decide
    · simp [boot, hp] at h

/-- **Reference counts of open files.** In every state between calls the `ref`
of a slot is the number of descriptors that point to it, over all processes,
and a slot without references has no type and no descriptor. An end of a pipe
is open exactly while it has a file, which is then the only one and has
references; a page is allocated exactly while an end of its pipe is open, and
the allocations and releases of a page alternate. A call that returns -1 leaves
descriptors, counts and pipes as they were, and no call panics, `exit` of
`init` apart, or uses a pipe that has been freed. -/
theorem file_references {acts : List Act} {tr : List Ev} (hr : run step boot acts = .ok (s, tr)) :
    (∀ f, f < NFILE → Tally s.ofile (some f) (s.file f).ref) ∧
    (∀ f, f < NFILE → (s.file f).ref = 0 → (s.file f).type = .none ∧ ∀ v, s.ofile v ≠ some f) ∧
    (∀ v f, s.ofile v = some f → f < NFILE) ∧
    (∀ pg pi w, s.pipe pg = some pi →
      (pi.isOpen w = true ↔ ∃ f, End s pg w f ∧ 0 < (s.file f).ref) ∧
      ∀ f g, End s pg w f → End s pg w g → f = g) ∧
    (∀ pg, replay pg s.heap = some (s.pipe pg).isSome ∧ ((s.pipe pg).isSome = true ↔ ∃ w f, End s pg w f)) ∧
    ∀ a,
      (∀ s' tr', step s a = .ok (s', tr') → .ret (-1) ∈ tr' →
        s'.ofile = s.ofile ∧ (∀ f, (s'.file f).ref = (s.file f).ref) ∧ s'.pipe = s.pipe) ∧
      ∀ e, step s a = .error e → e = .blocked ∨ e = .panic "init exiting" := by
  have h : Inv [] s := run_inv (I := fun s _ => Inv [] s) inv_boot
    (fun s _ a s' t' h he => ((step_ends h a).of_ok he).1) hr
  have hrefs : ∀ f, f < NFILE → Tally s.ofile (some f) (s.file f).ref := by
    intro f hf
    obtain ⟨n, hn, hr⟩ := h.refs f hf
    rw [hr]
    exact hn
  have hpos : ∀ pg w f, End s pg w f → 0 < (s.file f).ref := by
    intro pg w f hf
    by_contra h0
    have := h.closed f hf.1 (by omega)
    rw [hf.2.1] at this
    cases this
  refine ⟨hrefs, fun f hf h0 => ⟨h.closed f hf h0, fun v => ?_⟩, fun v f hv => (h.range v f hv).1,
    fun pg pi w hpi => ⟨?_, h.one pg w⟩, fun pg => ⟨h.heap pg, ?_⟩, fun a => ⟨fun s' tr' he hret => ?_, fun e he => ?_⟩⟩
  · have hz := hrefs f hf
    rw [h0] at hz
    exact hz.eq_zero v
  · have hends := h.ends pg w
    simp only [hpi, Option.some.injEq, exists_eq_left'] at hends
    rw [← hends]
    exact exists_congr fun f => ⟨fun hf => ⟨hf, hpos pg w f hf⟩, fun hf => hf.1⟩
  · rw [Option.isSome_iff_exists]
    constructor
    · rintro ⟨pi, hpi⟩
      obtain ⟨w, hw⟩ := h.half pg pi hpi
      exact ⟨w, (h.ends pg w).mpr ⟨pi, hpi, hw⟩⟩
    · rintro ⟨w, hf⟩
      obtain ⟨pi, hpi, -⟩ := (h.ends pg w).mp hf
      exact ⟨pi, hpi⟩
  · have hsame := ((step_ends h a).of_ok he).2 hret
    exact ⟨hsame.ofile, hsame.ref, hsame.pipe⟩
  · exact (step_ends h a).of_error he

/-- A process makes a pipe and a child, which share it; then both close it. -/
def sharedPipe : List Act :=
  [.pipe 0 (some 7) true, .fork 0 true, .pipe 1 (some 8) false, .close 0 0, .exit 1, .close 0 1]

theorem file_references_sample :
    (∃ s tr, run step boot (sharedPipe.take 3) = .ok (s, tr) ∧ s.ofile (1, 1) = some 1 ∧ Tally s.ofile (some 1) 2 ∧
      replay 7 s.heap = some true) ∧
    ∃ s tr, run step boot sharedPipe = .ok (s, tr) ∧ s.heap = [.kalloc 7, .kalloc 8, .kfree 8, .kfree 7] ∧
      Tally s.ofile (some 1) 0 := by
  constructor
  · obtain ⟨⟨s, tr⟩, hr, hs⟩ := okWith_iff.mp (show okWith (run step boot (sharedPipe.take 3))
      (fun r => decide (r.1.ofile (1, 1) = some 1 ∧ (r.1.file 1).ref = 2 ∧ (r.1.pipe 7).isSome = true)) = true by
        decide +kernel)
    simp only [decide_eq_true_eq] at hs
    obtain ⟨hof, href, hpg⟩ := hs
    obtain ⟨hrefs, -, -, -, hheap, -⟩ := file_references hr
    have htally := hrefs 1 (by decide)
    rw [href] at htally
    exact ⟨s, tr, hr, hof, htally, by rw [(hheap 7).1, hpg]⟩
  · obtain ⟨⟨s, tr⟩, hr, hs⟩ := okWith_iff.mp (show okWith (run step boot sharedPipe)
      (fun r => decide ((r.1.file 1).ref = 0 ∧ r.1.heap = [.kalloc 7, .kalloc 8, .kfree 8, .kfree 7])) = true by
        decide +kernel)
    simp only [decide_eq_true_eq] at hs
    have htally := (file_references hr).1 1 (by decide)
    rw [hs.1] at htally
    exact ⟨s, tr, hr, hs.2, htally⟩

end Files
end Xv6
