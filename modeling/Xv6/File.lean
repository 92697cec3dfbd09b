/-
# Open files

`kernel/file.c`, the allocation and closing of pipes in `kernel/pipe.c`, the
calls of `kernel/sysfile.c` that make and drop descriptors, and what `fork` and
`exit` do with them. A call runs to its end before the next one begins; whether
the memory, the path or the user address it needs is there is part of the call.

A reference to a slot of `ftable` is a descriptor or, inside a call, a local
variable, and `ref` counts both: `Inv loc` is the invariant in the middle of a
call that has the references `loc` in its variables.

Key definitions: `Files.Sys`, `Files.step`, `Files.Inv`.
Key theorems: `Files.Inv.fileclose`, `Files.Inv.connect`.
-/
import Xv6.Basic
import Xv6.Ends
import Xv6.FsDisk
import Xv6.Tally
import Xv6.Trace

namespace Xv6
namespace Files

open TraceSys Fs

def NFILE : ℕ := 100

def NOFILE : ℕ := 16

def NPROC : ℕ := 64

def NDEV : ℕ := 10

def T_DEVICE : ℕ := 3

inductive FdType
  | none
  | pipe
  | inode
  | device
  deriving DecidableEq

/-- `struct file`. -/
structure File where
  type : FdType
  ref : ℕ
  readable : Bool
  writable : Bool
  pipe : ℕ  -- the page of the pipe
  ip : ℕ
  off : ℕ
  major : ℤ

/-- The flags of `struct pipe`. -/
structure Pipe where
  readopen : Bool
  writeopen : Bool
  deriving DecidableEq

/-- `kalloc` and `kfree` of pages for pipes. -/
inductive HeapEv
  | kalloc (pg : ℕ)
  | kfree (pg : ℕ)
  deriving DecidableEq

inductive ProcState
  | unused
  | used
  | zombie
  deriving DecidableEq

/-- `ftable`, the descriptors of all processes, the pipes in allocated pages,
the pages allocated and freed so far, and the process table. -/
structure Sys where
  file : ℕ → File
  ofile : ℕ × ℕ → Option ℕ
  pipe : ℕ → Option Pipe
  heap : List HeapEv
  proc : ℕ → ProcState

namespace Sys

def setFile (s : Sys) (f : ℕ) (x : File) : Sys := { s with file := Function.update s.file f x }

def setOfile (s : Sys) (v : ℕ × ℕ) (o : Option ℕ) : Sys := { s with ofile := Function.update s.ofile v o }

def setPipe (s : Sys) (pg : ℕ) (pi : Option Pipe) : Sys := { s with pipe := Function.update s.pipe pg pi }

def setProc (s : Sys) (p : ℕ) (st : ProcState) : Sys := { s with proc := Function.update s.proc p st }

end Sys

/-! ### `file.c` and `pipe.c` -/

/-- The first slot without references. -/
def filealloc (s : Sys) : Option (ℕ × Sys) :=
  match (List.range NFILE).find? fun f => (s.file f).ref = 0 with
  | some f => some (f, s.setFile f { s.file f with ref := 1 })
  | none => none

def filedup (s : Sys) (f : ℕ) : Except Stop Sys :=
  if (s.file f).ref < 1 then .error (.panic "filedup")
  else .ok (s.setFile f { s.file f with ref := (s.file f).ref + 1 })

/-- The pipe is made in the page that `kalloc` has returned. -/
def kalloc (s : Sys) (pg : ℕ) : Sys :=
  { s with pipe := Function.update s.pipe pg (some ⟨true, true⟩), heap := s.heap ++ [.kalloc pg] }

def kfree (s : Sys) (pg : ℕ) : Sys :=
  { s with pipe := Function.update s.pipe pg none, heap := s.heap ++ [.kfree pg] }

def Pipe.shut (pi : Pipe) (writable : Bool) : Pipe :=
  if writable then { pi with writeopen := false } else { pi with readopen := false }

/-- A page that is no pipe any more must not be used. -/
def pipeclose (s : Sys) (pg : ℕ) (writable : Bool) : Except Stop Sys :=
  match s.pipe pg with
  | none => .error .fault
  | some pi =>
    if (pi.shut writable).readopen = false ∧ (pi.shut writable).writeopen = false then .ok (kfree s pg)
    else .ok (s.setPipe pg (some (pi.shut writable)))

def fileclose (s : Sys) (f : ℕ) : Except Stop Sys :=
  if (s.file f).ref < 1 then .error (.panic "fileclose")
  else if 0 < (s.file f).ref - 1 then .ok (s.setFile f { s.file f with ref := (s.file f).ref - 1 })
  else
    match (s.file f).type with
    | .pipe => pipeclose (s.setFile f { s.file f with ref := 0, type := .none }) (s.file f).pipe (s.file f).writable
    -- `iput(ff.ip)` for an inode or a device
    | _ => .ok (s.setFile f { s.file f with ref := 0, type := .none })

/-- The two files become the ends of a new pipe. -/
def connect (s : Sys) (f0 f1 pg : ℕ) : Sys :=
  let s := kalloc s pg
  let s := s.setFile f0 { s.file f0 with type := .pipe, readable := true, writable := false, pipe := pg }
  s.setFile f1 { s.file f1 with type := .pipe, readable := false, writable := true, pipe := pg }

/-- `page` is what `kalloc` returns: a page that nobody uses. -/
def pipealloc (s : Sys) (page : Option ℕ) : Except Stop (Sys × Option (ℕ × ℕ)) :=
  match filealloc s with
  | none => .ok (s, none)
  | some (f0, s) =>
    match filealloc s with
    | none => do
      let s ← fileclose s f0
      .ok (s, none)
    | some (f1, s) =>
      match page with
      | none => do
        let s ← fileclose s f0
        let s ← fileclose s f1
        .ok (s, none)
      | some pg =>
        if s.pipe pg ≠ none then .error .blocked
        else .ok (connect s f0 f1 pg, some (f0, f1))

/-! ### `sysfile.c` -/

def argfd (s : Sys) (p : ℕ) (fd : ℤ) : Option (ℕ × ℕ) :=
  if fd < 0 ∨ (NOFILE : ℤ) ≤ fd then none
  else
    match s.ofile (p, fd.toNat) with
    | none => none
    | some f => some (fd.toNat, f)

/-- The first free descriptor. -/
def fdalloc (s : Sys) (p f : ℕ) : Option (ℕ × Sys) :=
  match (List.range NOFILE).find? fun fd => s.ofile (p, fd) = none with
  | some fd => some (fd, s.setOfile (p, fd) (some f))
  | none => none

def sysDup (s : Sys) (p : ℕ) (fd : ℤ) : Except Stop (Sys × ℤ) :=
  match argfd s p fd with
  | none => .ok (s, -1)
  | some (_, f) =>
    match fdalloc s p f with
    | none => .ok (s, -1)
    | some (fd', s) => do
      let s ← filedup s f
      .ok (s, fd')

def sysClose (s : Sys) (p : ℕ) (fd : ℤ) : Except Stop (Sys × ℤ) :=
  match argfd s p fd with
  | none => .ok (s, -1)
  | some (n, f) => do
    let s ← fileclose (s.setOfile (p, n) none) f
    .ok (s, 0)

/-- The inode that `create` or `namei` has found. -/
structure Found where
  ip : ℕ
  type : ℕ
  major : ℤ

def O_WRONLY : ℕ := 0x001

def O_RDWR : ℕ := 0x002

def O_CREATE : ℕ := 0x200

/-- The tests on the inode that come before `filealloc`. -/
def openable (omode : ℕ) (i : Found) : Bool :=
  (omode &&& O_CREATE ≠ 0 ∨ ¬ (i.type = T_DIR ∧ omode ≠ 0)) ∧
    ¬ (i.type = T_DEVICE ∧ (i.major < 0 ∨ (NDEV : ℤ) ≤ i.major))

/-- What `sys_open` writes into the slot. -/
def opened (x : File) (omode : ℕ) (i : Found) : File where
  type := if i.type = T_DEVICE then .device else .inode
  ref := x.ref
  readable := decide (omode &&& O_WRONLY = 0)
  writable := decide (omode &&& O_WRONLY ≠ 0 ∨ omode &&& O_RDWR ≠ 0)
  pipe := x.pipe
  ip := i.ip
  off := if i.type = T_DEVICE then x.off else 0
  major := if i.type = T_DEVICE then i.major else x.major

/-- `found` is `none` if the path cannot be read, or nothing is found or created. -/
def sysOpen (s : Sys) (p omode : ℕ) (found : Option Found) : Except Stop (Sys × ℤ) :=
  match found with
  | none => .ok (s, -1)
  | some i =>
    if openable omode i = false then .ok (s, -1)
    else
      match filealloc s with
      | none => .ok (s, -1)
      | some (f, s) =>
        match fdalloc s p f with
        | none => do
          let s ← fileclose s f
          .ok (s, -1)
        | some (fd, s) =>
          .ok (s.setFile f (opened (s.file f) omode i), fd)

/-- `copied` says whether both calls of `copyout` succeed. -/
def sysPipe (s : Sys) (p : ℕ) (page : Option ℕ) (copied : Bool) : Except Stop (Sys × ℤ) := do
  let (s, ends) ← pipealloc s page
  match ends with
  | none => .ok (s, -1)
  | some (rf, wf) =>
    match fdalloc s p rf with
    | none => do
      let s ← fileclose s rf
      let s ← fileclose s wf
      .ok (s, -1)
    | some (fd0, s) =>
      match fdalloc s p wf with
      | none => do
        let s ← fileclose (s.setOfile (p, fd0) none) rf
        let s ← fileclose s wf
        .ok (s, -1)
      | some (fd1, s) =>
        if copied then .ok (s, 0)
        else do
          let s ← fileclose ((s.setOfile (p, fd0) none).setOfile (p, fd1) none) rf
          let s ← fileclose s wf
          .ok (s, -1)

/-! ### `fork` and `exit` -/

/-- One round of the loop of `fork` over the descriptors. -/
def forkFd (p np : ℕ) (s : Sys) (i : ℕ) : Except Stop Sys :=
  match s.ofile (p, i) with
  | none => .ok s
  | some f => do
    let s ← filedup s f
    .ok (s.setOfile (np, i) (some f))

/-- `memory` says whether `allocproc` and `uvmcopy` get the pages they need. -/
def fork (s : Sys) (p : ℕ) (memory : Bool) : Except Stop (Sys × ℤ) :=
  match (List.range NPROC).find? fun q => s.proc q = .unused with
  | none => .ok (s, -1)
  | some np =>
    if memory = false then .ok (s, -1)
    else do
      let s ← (List.range NOFILE).foldlM (forkFd p np) (s.setProc np .used)
      .ok (s, np)

/-- One round of the loop of `exit` over the descriptors. -/
def exitFd (p : ℕ) (s : Sys) (fd : ℕ) : Except Stop Sys :=
  match s.ofile (p, fd) with
  | none => .ok s
  | some f => do
    let s ← fileclose s f
    .ok (s.setOfile (p, fd) none)

/-- `init` is the process in slot 0. -/
def exit (s : Sys) (p : ℕ) : Except Stop Sys :=
  if p = 0 then .error (.panic "init exiting")
  else do
    let s ← (List.range NOFILE).foldlM (exitFd p) s
    .ok (s.setProc p .zombie)

inductive Act
  | openFile (p omode : ℕ) (found : Option Found)
  | dup (p : ℕ) (fd : ℤ)
  | close (p : ℕ) (fd : ℤ)
  | pipe (p : ℕ) (page : Option ℕ) (copied : Bool)
  | fork (p : ℕ) (memory : Bool)
  | exit (p : ℕ)
  | reap (p : ℕ)  -- `wait` frees the process

/-- A call has returned. -/
inductive Ev
  | ret (v : ℤ)
  deriving DecidableEq

def returns (r : Except Stop (Sys × ℤ)) : Except Stop (Sys × List Ev) :=
  match r with
  | .error e => .error e
  | .ok (s, v) => .ok (s, [.ret v])

def step (s : Sys) : Act → Except Stop (Sys × List Ev)
  | .openFile p omode found => if s.proc p ≠ .used then .error .blocked else returns (sysOpen s p omode found)
  | .dup p fd => if s.proc p ≠ .used then .error .blocked else returns (sysDup s p fd)
  | .close p fd => if s.proc p ≠ .used then .error .blocked else returns (sysClose s p fd)
  | .pipe p page copied => if s.proc p ≠ .used then .error .blocked else returns (sysPipe s p page copied)
  | .fork p memory => if s.proc p ≠ .used then .error .blocked else returns (fork s p memory)
  | .exit p =>
    if s.proc p ≠ .used then .error .blocked
    else do
      let s ← exit s p
      .ok (s, [])
  | .reap p => if s.proc p ≠ .zombie then .error .blocked else .ok (s.setProc p .unused, [])

/-- `init` runs and no file is open. -/
def boot : Sys where
  file _ := ⟨.none, 0, false, false, 0, 0, 0, 0⟩
  ofile _ := none
  pipe _ := none
  heap := []
  proc p := if p = 0 then .used else .unused

/-! ### The invariant -/

/-- Slot `f` is the file of an end of the pipe in page `pg`: of the end for
writing or of the one for reading. -/
def End (s : Sys) (pg : ℕ) (w : Bool) (f : ℕ) : Prop :=
  f < NFILE ∧ (s.file f).type = .pipe ∧ (s.file f).pipe = pg ∧ (s.file f).writable = w

def Pipe.isOpen (pi : Pipe) (w : Bool) : Bool := if w then pi.writeopen else pi.readopen

/-- Whether page `pg` is allocated after one event more; `none` once it has
been allocated twice in a row, or freed when it was not allocated. -/
def note (pg : ℕ) : Option Bool → HeapEv → Option Bool
  | some b, .kalloc q => if q ≠ pg then some b else if b then none else some true
  | some b, .kfree q => if q ≠ pg then some b else if b then some false else none
  | none, _ => none

/-- Whether page `pg` is allocated after the events. -/
def replay (pg : ℕ) (h : List HeapEv) : Option Bool := h.foldl (note pg) (some false)

/-- What holds in the middle of a call that has the references `loc` in local variables. -/
structure Inv (loc : List ℕ) (s : Sys) : Prop where
  refs : ∀ f, f < NFILE → ∃ n, Tally s.ofile (some f) n ∧ (s.file f).ref = n + loc.count f
  range : ∀ v f, s.ofile v = some f → f < NFILE ∧ v.2 < NOFILE ∧ s.proc v.1 = .used
  closed : ∀ f, f < NFILE → (s.file f).ref = 0 → (s.file f).type = .none
  one : ∀ pg w f g, End s pg w f → End s pg w g → f = g
  ends : ∀ pg w, (∃ f, End s pg w f) ↔ ∃ pi, s.pipe pg = some pi ∧ pi.isOpen w = true
  half : ∀ pg pi, s.pipe pg = some pi → ∃ w, pi.isOpen w = true
  heap : ∀ pg, replay pg s.heap = some (s.pipe pg).isSome
  slots : ∀ p, s.proc p ≠ .unused → p < NPROC

variable {s s' : Sys} {loc : List ℕ} {p f fd : ℕ}

theorem Inv.perm {loc' : List ℕ} (h : Inv loc s) (hp : loc.Perm loc') : Inv loc' s := by
  refine { h with refs := fun f hf => ?_ }
  obtain ⟨n, hn, hr⟩ := h.refs f hf
  exact ⟨n, hn, by rw [hr, hp.count_eq]⟩

/-! ### References and descriptors -/

/-- The slot changes, but stays or becomes no end of a pipe that it was not. -/
theorem end_setFile {x : File} (htype : x.type = (s.file f).type) (hpipe : x.pipe = (s.file f).pipe)
    (hw : x.writable = (s.file f).writable) (pg : ℕ) (w : Bool) (g : ℕ) :
    End (s.setFile f x) pg w g ↔ End s pg w g := by
  unfold End
  by_cases hg : g = f
  · rw [hg]
    simp [Sys.setFile, htype, hpipe, hw]
  · simp [Sys.setFile, hg]

/-- The count of a slot in use follows the local references. -/
theorem Inv.setRef {loc' : List ℕ} {n : ℕ} (h : Inv loc s) (hpos : 0 < n)
    (hself : n + loc.count f = (s.file f).ref + loc'.count f) (hother : ∀ g, g ≠ f → loc'.count g = loc.count g) :
    Inv loc' (s.setFile f { s.file f with ref := n }) := by
  have hend : ∀ pg w g, End (s.setFile f { s.file f with ref := n }) pg w g ↔ End s pg w g := end_setFile rfl rfl rfl
  refine ⟨fun g hg => ?_, h.range, fun g hg h0 => ?_, fun pg w g g' h1 h2 => ?_, fun pg w => ?_, h.half, h.heap, h.slots⟩
  · obtain ⟨m, hm, hr⟩ := h.refs g hg
    refine ⟨m, hm, ?_⟩
    by_cases hgf : g = f
    · subst hgf
      simp only [Sys.setFile, Function.update_self]
      omega
    · simp only [Sys.setFile, Function.update_of_ne hgf, hr, hother g hgf]
  · by_cases hgf : g = f
    · rw [hgf] at h0
      simp only [Sys.setFile, Function.update_self] at h0
      omega
    · simp only [Sys.setFile, Function.update_of_ne hgf] at h0 ⊢
      exact h.closed g hg h0
  · exact h.one pg w g g' ((hend _ _ _).mp h1) ((hend _ _ _).mp h2)
  · simp only [hend]
    exact h.ends pg w

theorem Inv.addRef (h : Inv loc s) : Inv (f :: loc) (s.setFile f { s.file f with ref := (s.file f).ref + 1 }) := by
  apply h.setRef (Nat.succ_pos _)
  · rw [List.count_cons_self]
    omega
  · intro g hg
    exact List.count_cons_of_ne (Ne.symm hg)

theorem Inv.dropRef (h : Inv (f :: loc) s) (h1 : 0 < (s.file f).ref - 1) :
    Inv loc (s.setFile f { s.file f with ref := (s.file f).ref - 1 }) := by
  apply h.setRef h1
  · rw [List.count_cons_self]
    omega
  · intro g hg
    exact (List.count_cons_of_ne (Ne.symm hg)).symm

/-- A descriptor takes a reference over. -/
theorem Inv.setOfile (h : Inv (f :: loc) s) {v : ℕ × ℕ} (hv : s.ofile v = none) (hf : f < NFILE) (h2 : v.2 < NOFILE)
    (hp : s.proc v.1 = .used) : Inv loc (s.setOfile v (some f)) := by
  refine { h with refs := fun g hg => ?_, range := fun u g hu => ?_ }
  · obtain ⟨n, hn, hr⟩ := h.refs g hg
    by_cases hgf : g = f
    · subst hgf
      rw [List.count_cons_self] at hr
      exact ⟨n + 1, hn.enter (by simp [hv]), by change (s.file g).ref = _; omega⟩
    · rw [List.count_cons_of_ne (Ne.symm hgf)] at hr
      exact ⟨n, hn.pass (by simp [hv]) (by simpa using Ne.symm hgf), hr⟩
  · by_cases huv : u = v
    · rw [huv] at hu ⊢
      simp only [Sys.setOfile, Function.update_self, Option.some.injEq] at hu
      exact ⟨hu ▸ hf, h2, hp⟩
    · simp only [Sys.setOfile, Function.update_of_ne huv] at hu
      exact h.range u g hu

/-- A local variable takes over the reference of a descriptor. -/
theorem Inv.clearOfile (h : Inv loc s) {v : ℕ × ℕ} (hv : s.ofile v = some f) : Inv (f :: loc) (s.setOfile v none) := by
  refine { h with refs := fun g hg => ?_, range := fun u g hu => ?_ }
  · obtain ⟨n, hn, hr⟩ := h.refs g hg
    by_cases hgf : g = f
    · subst hgf
      have hpos := hn.pos hv
      refine ⟨n - 1, hn.leave hv (by simp), ?_⟩
      rw [List.count_cons_self]
      change (s.file g).ref = _
      omega
    · rw [List.count_cons_of_ne (Ne.symm hgf)]
      exact ⟨n, hn.pass (by simpa [hv] using Ne.symm hgf) (by simp), hr⟩
  · by_cases huv : u = v
    · rw [huv] at hu
      simp [Sys.setOfile] at hu
    · simp only [Sys.setOfile, Function.update_of_ne huv] at hu
      exact h.range u g hu

/-- A reference that is held is counted. -/
theorem Inv.ref_pos (h : Inv (f :: loc) s) (hf : f < NFILE) : 1 ≤ (s.file f).ref := by
  obtain ⟨n, -, hr⟩ := h.refs f hf
  rw [List.count_cons_self] at hr
  omega

/-! ### Closing -/

/-- The slot of a file that is no pipe is given up. -/
theorem Inv.dropSlot (h : Inv (f :: loc) s) (h1 : (s.file f).ref = 1) (hf : f < NFILE) :
    (∀ g, g < NFILE → ∃ n, Tally s.ofile (some g) n ∧
      ((s.setFile f { s.file f with ref := 0, type := .none }).file g).ref = n + loc.count g) ∧
    ∀ g, g < NFILE → ((s.setFile f { s.file f with ref := 0, type := .none }).file g).ref = 0 →
      ((s.setFile f { s.file f with ref := 0, type := .none }).file g).type = .none := by
  refine ⟨fun g hg => ?_, fun g hg h0 => ?_⟩
  · obtain ⟨n, hn, hr⟩ := h.refs g hg
    refine ⟨n, hn, ?_⟩
    by_cases hgf : g = f
    · subst hgf
      rw [List.count_cons_self] at hr
      simp only [Sys.setFile, Function.update_self]
      omega
    · rw [List.count_cons_of_ne (Ne.symm hgf)] at hr
      simpa only [Sys.setFile, Function.update_of_ne hgf] using hr
  · by_cases hgf : g = f
    · rw [hgf]
      simp [Sys.setFile]
    · simp only [Sys.setFile, Function.update_of_ne hgf] at h0 ⊢
      exact h.closed g hg h0

/-- The ends that remain when slot `f` is given up. -/
theorem end_dropSlot (pg : ℕ) (w : Bool) (g : ℕ) :
    End (s.setFile f { s.file f with ref := 0, type := .none }) pg w g ↔ g ≠ f ∧ End s pg w g := by
  unfold End
  by_cases hg : g = f
  · rw [hg]
    simp [Sys.setFile]
  · simp [Sys.setFile, hg]

theorem replay_snoc (pg : ℕ) (l : List HeapEv) (e : HeapEv) : replay pg (l ++ [e]) = note pg (replay pg l) e := by
  simp [replay, List.foldl_append]

theorem isOpen_shut (pi : Pipe) (w w' : Bool) : (pi.shut w).isOpen w' = true ↔ w' ≠ w ∧ pi.isOpen w' = true := by
  cases w <;> cases w' <;> simp [Pipe.shut, Pipe.isOpen]

theorem isOpen_any (pi : Pipe) : (∃ w, pi.isOpen w = true) ↔ ¬ (pi.readopen = false ∧ pi.writeopen = false) := by
  rw [Bool.exists_bool]
  cases hr : pi.readopen <;> cases hw : pi.writeopen <;> simp [Pipe.isOpen, hr, hw]

/-- The pipe of a file is open at its end. -/
theorem Inv.pipe_of_file (h : Inv loc s) (hf : f < NFILE) (htype : (s.file f).type = .pipe) :
    ∃ pi, s.pipe (s.file f).pipe = some pi ∧ pi.isOpen (s.file f).writable = true :=
  (h.ends _ _).mp ⟨f, hf, htype, rfl, rfl⟩

/-- The ends that remain when the slot of one is given up. -/
theorem Inv.ends_dropSlot (h : Inv loc s) (hf : f < NFILE) (htype : (s.file f).type = .pipe) (pg : ℕ) (w : Bool) :
    (∃ g, g ≠ f ∧ End s pg w g) ↔
      ¬ (pg = (s.file f).pipe ∧ w = (s.file f).writable) ∧ ∃ pi, s.pipe pg = some pi ∧ pi.isOpen w = true := by
  have hself : End s (s.file f).pipe (s.file f).writable f := ⟨hf, htype, rfl, rfl⟩
  rw [← h.ends]
  constructor
  · rintro ⟨g, hne, hg⟩
    refine ⟨?_, g, hg⟩
    rintro ⟨rfl, rfl⟩
    exact hne (h.one _ _ _ _ hg hself)
  · rintro ⟨hne, g, hg⟩
    refine ⟨g, ?_, hg⟩
    rintro rfl
    exact hne ⟨hg.2.2.1.symm, hg.2.2.2.symm⟩

section LastReference

variable (h : Inv (f :: loc) s) (h1 : (s.file f).ref = 1) (hf : f < NFILE)
include h h1 hf

/-- The slot of a file that is no pipe is given up. -/
theorem Inv.closeOther (htype : (s.file f).type ≠ .pipe) :
    Inv loc (s.setFile f { s.file f with ref := 0, type := .none }) := by
  obtain ⟨hrefs, hclosed⟩ := h.dropSlot h1 hf
  have hend : ∀ pg w g, End (s.setFile f { s.file f with ref := 0, type := .none }) pg w g ↔ End s pg w g := by
    intro pg w g
    rw [end_dropSlot]
    refine and_iff_right_of_imp fun hg he => htype ?_
    rw [← he]
    exact hg.2.1
  refine ⟨hrefs, h.range, hclosed, fun pg w g g' hg hg' => ?_, fun pg w => ?_, h.half, h.heap, h.slots⟩
  · exact h.one pg w g g' ((hend _ _ _).mp hg) ((hend _ _ _).mp hg')
  · simp only [hend]
    exact h.ends pg w

/-- The slot of an end of a pipe is given up, and the pipe changes with it. -/
theorem Inv.closeEnd (htype : (s.file f).type = .pipe) {pipe : ℕ → Option Pipe} {heap : List HeapEv}
    (hopen : ∀ pg w, (∃ pi, pipe pg = some pi ∧ pi.isOpen w = true) ↔
      ¬ (pg = (s.file f).pipe ∧ w = (s.file f).writable) ∧ ∃ pi, s.pipe pg = some pi ∧ pi.isOpen w = true)
    (hhalf : ∀ pg pi, pipe pg = some pi → ∃ w, pi.isOpen w = true)
    (hheap : ∀ pg, replay pg heap = some (pipe pg).isSome) :
    Inv loc { s.setFile f { s.file f with ref := 0, type := .none } with pipe := pipe, heap := heap } := by
  obtain ⟨hrefs, hclosed⟩ := h.dropSlot h1 hf
  refine ⟨hrefs, h.range, hclosed, fun pg w g g' hg hg' => ?_, fun pg w => ?_, hhalf, hheap, h.slots⟩
  · exact h.one pg w g g' ((end_dropSlot _ _ _).mp hg).2 ((end_dropSlot _ _ _).mp hg').2
  · rw [hopen, ← h.ends_dropSlot hf htype]
    exact exists_congr fun g => end_dropSlot pg w g

theorem Inv.closePipe (htype : (s.file f).type = .pipe) :
    ∃ s', pipeclose (s.setFile f { s.file f with ref := 0, type := .none }) (s.file f).pipe (s.file f).writable = .ok s' ∧
      Inv loc s' ∧ s'.ofile = s.ofile ∧ s'.proc = s.proc := by
  obtain ⟨pi, hpi, -⟩ := h.pipe_of_file hf htype
  have hheap := h.heap (s.file f).pipe
  rw [hpi] at hheap
  have hpi' : (s.setFile f { s.file f with ref := 0, type := .none }).pipe (s.file f).pipe = some pi := hpi
  simp only [pipeclose, hpi']
  split_ifs with hc
  · -- the second end is closed and the page is freed
    have hnone : ∀ w, ¬ (w ≠ (s.file f).writable ∧ pi.isOpen w = true) := by
      intro w hw
      exact (isOpen_any _).mp ⟨w, (isOpen_shut pi _ w).mpr hw⟩ hc
    refine ⟨_, rfl, h.closeEnd h1 hf htype (fun pg w => ?_) (fun pg pi' hpg => ?_) (fun pg => ?_), rfl, rfl⟩
    · by_cases hpg : pg = (s.file f).pipe
      · subst hpg
        have := hnone w
        simp only [Function.update_self, hpi]
        simpa using this
      · simp [Sys.setFile, hpg]
    · by_cases hpg' : pg = (s.file f).pipe
      · simp [hpg'] at hpg
      · simp only [Sys.setFile, Function.update_of_ne hpg'] at hpg
        exact h.half pg pi' hpg
    · rw [replay_snoc]
      by_cases hpg : pg = (s.file f).pipe
      · subst hpg
        simp [Sys.setFile, hheap, note]
      · simp [Sys.setFile, h.heap pg, note, hpg, Ne.symm hpg]
  · refine ⟨_, rfl, h.closeEnd h1 hf htype (fun pg w => ?_) (fun pg pi' hpg => ?_) (fun pg => ?_), rfl, rfl⟩
    · by_cases hpg : pg = (s.file f).pipe
      · subst hpg
        simp only [Function.update_self, Option.some.injEq, exists_eq_left', isOpen_shut, hpi]
        simp
      · simp [Sys.setFile, hpg]
    · by_cases hpg' : pg = (s.file f).pipe
      · subst hpg'
        simp only [Function.update_self, Option.some.injEq] at hpg
        exact hpg ▸ (isOpen_any _).mpr hc
      · simp only [Sys.setFile, Function.update_of_ne hpg'] at hpg
        exact h.half pg pi' hpg
    · by_cases hpg : pg = (s.file f).pipe
      · subst hpg
        simpa [Sys.setFile] using hheap
      · simpa [Sys.setFile, hpg] using h.heap pg

end LastReference

/-- `fileclose` gives up a reference that its caller holds. -/
theorem Inv.fileclose (h : Inv (f :: loc) s) (hf : f < NFILE) :
    ∃ s', fileclose s f = .ok s' ∧ Inv loc s' ∧ s'.ofile = s.ofile ∧ s'.proc = s.proc := by
  have hpos := h.ref_pos hf
  unfold Files.fileclose
  rw [if_neg (by omega)]
  by_cases h1 : 0 < (s.file f).ref - 1
  · rw [if_pos h1]
    exact ⟨_, rfl, h.dropRef h1, rfl, rfl⟩
  · rw [if_neg h1]
    have h1 : (s.file f).ref = 1 := by omega
    cases htype : (s.file f).type with
    | pipe => exact h.closePipe h1 hf htype
    | _ => exact ⟨_, rfl, h.closeOther h1 hf (by simp [htype]), rfl, rfl⟩

/-! ### Making files and descriptors -/

theorem Inv.filealloc (h : Inv loc s) (he : filealloc s = some (f, s')) :
    f < NFILE ∧ (s.file f).ref = 0 ∧ (s.file f).type = .none ∧ s' = s.setFile f { s.file f with ref := 1 } ∧
      Inv (f :: loc) s' := by
  unfold Files.filealloc at he
  split at he
  · next g hg =>
    obtain ⟨rfl, rfl⟩ := Prod.mk.inj (Option.some.inj he)
    have hlt := List.mem_range.mp (List.mem_of_find?_eq_some hg)
    have h0 : (s.file g).ref = 0 := by simpa using List.find?_some hg
    have hI := h.addRef (f := g)
    rw [h0] at hI
    exact ⟨hlt, h0, h.closed g hlt h0, rfl, hI⟩
  · cases he

theorem fdalloc_some (he : fdalloc s p f = some (fd, s')) :
    fd < NOFILE ∧ s.ofile (p, fd) = none ∧ s' = s.setOfile (p, fd) (some f) := by
  unfold fdalloc at he
  split at he
  · next n hn =>
    obtain ⟨rfl, rfl⟩ := Prod.mk.inj (Option.some.inj he)
    exact ⟨List.mem_range.mp (List.mem_of_find?_eq_some hn), by simpa using List.find?_some hn, rfl⟩
  · cases he

theorem argfd_some {n : ℕ} {x : ℤ} (he : argfd s p x = some (n, f)) : s.ofile (p, n) = some f := by
  unfold argfd at he
  split_ifs at he
  split at he
  · cases he
  · next g hg =>
    obtain ⟨rfl, rfl⟩ := Prod.mk.inj (Option.some.inj he)
    exact hg

/-- A slot in use that is no end of a pipe gets other contents, and is none after that either. -/
theorem Inv.retype {x : File} (h : Inv loc s) (hpos : 0 < (s.file f).ref) (href : x.ref = (s.file f).ref)
    (h0 : (s.file f).type ≠ .pipe) (h1 : x.type ≠ .pipe) : Inv loc (s.setFile f x) := by
  have hend : ∀ pg w g, End (s.setFile f x) pg w g ↔ End s pg w g := by
    intro pg w g
    unfold End
    by_cases hg : g = f
    · rw [hg]
      simp [Sys.setFile, h0, h1]
    · simp [Sys.setFile, hg]
  refine ⟨fun g hg => ?_, h.range, fun g hg hr => ?_, fun pg w g g' hg hg' => ?_, fun pg w => ?_, h.half, h.heap, h.slots⟩
  · obtain ⟨n, hn, hr⟩ := h.refs g hg
    refine ⟨n, hn, ?_⟩
    by_cases hgf : g = f
    · rw [hgf] at hr ⊢
      simpa only [Sys.setFile, Function.update_self, href] using hr
    · simpa only [Sys.setFile, Function.update_of_ne hgf] using hr
  · by_cases hgf : g = f
    · rw [hgf] at hr
      simp only [Sys.setFile, Function.update_self, href] at hr
      omega
    · simp only [Sys.setFile, Function.update_of_ne hgf] at hr ⊢
      exact h.closed g hg hr
  · exact h.one pg w g g' ((hend _ _ _).mp hg) ((hend _ _ _).mp hg')
  · simp only [hend]
    exact h.ends pg w

section Connect

variable {f0 f1 pg : ℕ} (hne : f0 ≠ f1) (hlt0 : f0 < NFILE) (hlt1 : f1 < NFILE)
  (ht0 : (s.file f0).type = .none) (ht1 : (s.file f1).type = .none)
include hne

omit hne in
theorem connect_ref (g : ℕ) : ((connect s f0 f1 pg).file g).ref = (s.file g).ref := by
  unfold connect kalloc Sys.setFile
  by_cases h1 : g = f1
  · subst h1
    by_cases h0 : g = f0
    · subst h0
      simp
    · simp [h0]
  · by_cases h0 : g = f0
    · subst h0
      simp [h1]
    · simp [h0, h1]

include hlt0 hlt1 ht0 ht1 in
theorem end_connect (pg' : ℕ) (w : Bool) (g : ℕ) :
    End (connect s f0 f1 pg) pg' w g ↔
      End s pg' w g ∨ (pg' = pg ∧ ((w = false ∧ g = f0) ∨ (w = true ∧ g = f1))) := by
  have hold : (g = f0 ∨ g = f1) → ¬ End s pg' w g := by
    rintro (rfl | rfl) hg
    · exact absurd (ht0.symm.trans hg.2.1) (by simp)
    · exact absurd (ht1.symm.trans hg.2.1) (by simp)
  by_cases h1 : g = f1
  · subst h1
    simp only [hold (.inr rfl), false_or]
    simp [End, connect, kalloc, Sys.setFile, hlt1, Ne.symm hne, eq_comm]
  · by_cases h0 : g = f0
    · subst h0
      simp only [hold (.inl rfl), false_or]
      simp [End, connect, kalloc, Sys.setFile, hlt0, hne, eq_comm]
    · simp [End, connect, kalloc, Sys.setFile, h0, h1]

include hlt0 hlt1 ht0 ht1 in
theorem Inv.connect (h : Inv loc s) (hpos0 : 0 < (s.file f0).ref) (hpos1 : 0 < (s.file f1).ref)
    (hpg : s.pipe pg = none) : Inv loc (connect s f0 f1 pg) := by
  have hnone : ∀ w g, ¬ End s pg w g := by
    intro w g hg
    obtain ⟨pi, hpi, -⟩ := (h.ends pg w).mp ⟨g, hg⟩
    simp [hpg] at hpi
  have hend : ∀ pg' w g, End (Files.connect s f0 f1 pg) pg' w g ↔
      End s pg' w g ∨ (pg' = pg ∧ ((w = false ∧ g = f0) ∨ (w = true ∧ g = f1))) :=
    end_connect hne hlt0 hlt1 ht0 ht1
  refine ⟨fun g hg => ?_, h.range, fun g hg hr => ?_, fun pg' w g g' hg hg' => ?_, fun pg' w => ?_,
    fun pg' pi hpi => ?_, fun pg' => ?_, h.slots⟩
  · rw [connect_ref]
    exact h.refs g hg
  · rw [connect_ref] at hr
    have h0 : g ≠ f0 := by
      rintro rfl
      omega
    have h1 : g ≠ f1 := by
      rintro rfl
      omega
    have hfile : (Files.connect s f0 f1 pg).file g = s.file g := by
      simp [Files.connect, kalloc, Sys.setFile, h0, h1]
    rw [hfile]
    exact h.closed g hg hr
  · rw [hend] at hg hg'
    rcases hg with hg | ⟨rfl, hg⟩
    · rcases hg' with hg' | ⟨rfl, -⟩
      · exact h.one pg' w g g' hg hg'
      · exact absurd hg (hnone w g)
    · rcases hg' with hg' | ⟨-, hg'⟩
      · exact absurd hg' (hnone w g')
      · rcases hg with ⟨rfl, rfl⟩ | ⟨rfl, rfl⟩ <;> simpa [eq_comm] using hg'
  · simp only [hend]
    by_cases hpg' : pg' = pg
    · subst hpg'
      cases w <;> simp [hnone, Files.connect, kalloc, Sys.setFile, Pipe.isOpen]
    · simpa [hpg', Files.connect, kalloc, Sys.setFile] using h.ends pg' w
  · by_cases hpg' : pg' = pg
    · subst hpg'
      simp only [Files.connect, kalloc, Sys.setFile, Function.update_self, Option.some.injEq] at hpi
      exact ⟨true, by rw [← hpi]; rfl⟩
    · simp only [Files.connect, kalloc, Sys.setFile, Function.update_of_ne hpg'] at hpi
      exact h.half pg' pi hpi
  · have hheap := h.heap pg'
    rw [show (Files.connect s f0 f1 pg).heap = s.heap ++ [.kalloc pg] from rfl, replay_snoc, hheap]
    by_cases hpg' : pg' = pg
    · subst hpg'
      simp [note, hpg, Files.connect, kalloc, Sys.setFile]
    · simp [note, Ne.symm hpg', hpg', Files.connect, kalloc, Sys.setFile]

end Connect

end Files
end Xv6
