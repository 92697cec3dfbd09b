/-
# The process table

`fork`, `exit`, `wait`, `kill`, `sleep` and `wakeup` of `proc.c`, run by any
number of processes. A process is where its kernel code stands (`Pc`) and its
entry of `proc[]`; one step is one section of the code between lock operations,
so `exit`, `reparent`, `wait`, `wakeup` and `kill` go through the table one
entry a step, and other processes run in between. `wait_lock` is a field of the state.
`p->lock` is held across steps only by `p` itself, on its way into `sched`
(`Pc.holdsOwn`), until the scheduler lets it go; every other use of it is one
section. `dispatch` is the scheduler's choice of a RUNNABLE process and `yield`
the timer's, which is why no CPU is in the model.

The calls of other parts of the kernel that can fail (`kalloc`, `uvmcopy`,
`copyout`) succeed or fail as `Mem` says. `nextpid` wraps as a 32-bit integer does.

`step_change` says once what a step can do: a process goes on (`Move`), an entry
is visited by `wakeup` or `kill`, or the table changes in one of six ways (`Change`).

Key definitions: `Procs.Entry`, `Procs.Pc`, `Procs.Sys`, `Procs.step`, `Procs.Change`.
Key theorems: `Procs.step_change`.
-/
import Xv6.Basic
import Xv6.Trace
import Mathlib.Logic.Function.Basic

namespace Xv6
namespace Procs

/-- The size of the process table. -/
def NPROC : ℕ := 64

/-- The open files a process can have. -/
def NOFILE : ℕ := 16

def PGSIZE : ℕ := 4096

/-- `enum procstate`. -/
inductive ProcState
  | unused | used | sleeping | runnable | running | zombie
  deriving DecidableEq, Repr

/-- An address to sleep on: that of an entry of the table, on which its process
waits for a child, or that of something else in the kernel. -/
inductive Chan
  | proc (p : ℕ)
  | other (a : ℕ)
  deriving DecidableEq, Repr

/-- `struct proc`: null pointers are `none`, and of a page table and a trapframe
it matters only whether there is one. -/
structure Entry where
  state : ProcState := .unused
  chan : Option Chan := none
  killed : Bool := false
  xstate : ℤ := 0
  pid : ℤ := 0
  parent : Option ℕ := none
  sz : ℕ := 0
  pagetable : Bool := false
  trapframe : Bool := false
  ofile : ℕ → Option ℕ := fun _ => none
  cwd : Option ℕ := none

/-- Where a process stands: in user space or in another part of the kernel
(`user`), or before a section of one of the functions of `proc.c`. The arguments
are the local variables that are live there. -/
inductive Pc
  | user
  | forkScan (i : ℕ)
  | forkParent (np : ℕ) (pid : ℤ)
  | forkRun (np : ℕ) (pid : ℤ)
  | exitFiles (status : ℤ) (fd : ℕ)
  | exitLock (status : ℤ)
  | reparent (status : ℤ) (i : ℕ)
  | reparentWake (status : ℤ) (i j : ℕ)
  | exitWake (status : ℤ) (chan : Option Chan) (j : ℕ)
  | exitState (status : ℤ)
  | exitRelease
  | exitSched
  | dead
  | waitLock (addr : ℕ)
  | waitScan (addr i : ℕ) (havekids : Bool)
  | waitCheck (addr : ℕ) (havekids : Bool)
  | waitSleep (addr : ℕ)
  | waitRelease (addr : ℕ)
  | waitChan (addr : ℕ)
  | waitSched (addr : ℕ)
  | waitAsleep (addr : ℕ)
  -- asleep in another part of the kernel: called from user space, or by
  -- `exit`, which sleeps for the log and for inodes while it closes its files
  | asleep (exiting : Option (ℤ × ℕ))
  | kill (pid : ℤ) (i : ℕ)
  deriving DecidableEq, Repr

/-- The process holds its own lock here. -/
def Pc.holdsOwn : Pc → Bool
  | .exitRelease | .exitSched | .waitRelease _ | .waitChan _ | .waitSched _ => true
  | _ => false

/-- The process holds `wait_lock` here. -/
def Pc.holdsWait : Pc → Bool
  | .reparent .. | .reparentWake .. | .exitWake .. | .exitState _ | .exitRelease => true
  | .waitScan .. | .waitCheck .. | .waitSleep _ | .waitRelease _ => true
  | _ => false

structure Sys where
  proc : ℕ → Entry
  pc : ℕ → Pc
  waitLock : Option ℕ
  nextpid : ℤ

/-- What the rest of the kernel and the callers can see of a step. -/
inductive Ev
  | ret (p : ℕ) (v : ℤ)
  /-- `allocproc` gives `p` the entry `np`, with this `killed` flag. -/
  | allocproc (p np : ℕ) (killed : Bool)
  /-- The process of entry `p` calls `exit(status)`. -/
  | exit (p : ℕ) (pid status : ℤ)
  /-- A `wait(addr)` of `p` frees the entry `q` and returns `pid`; what it stored at `addr`. -/
  | reaped (p q : ℕ) (pid : ℤ) (addr : ℕ) (stored : Option ℤ)
  | copyoutFailed (p q : ℕ)
  /-- A `kill` of `p` has marked the entry `q` and returns 0. -/
  | killed (p q : ℕ)
  deriving DecidableEq, Repr

/-- Which of the calls that need memory, or a user address, succeed. -/
structure Mem where
  trapframe : Bool := true
  pagetable : Bool := true
  uvmcopy : Bool := true
  copyout : Bool := true

namespace Sys

def setPc (s : Sys) (p : ℕ) (pc : Pc) : Sys := { s with pc := Function.update s.pc p pc }

def setProc (s : Sys) (p : ℕ) (e : Entry) : Sys := { s with proc := Function.update s.proc p e }

/-- The call of `p` returns `v`. -/
def ret (s : Sys) (p : ℕ) (v : ℤ) : Sys × List Ev := (s.setPc p .user, [.ret p v])

/-- `p->lock` is held between two steps. -/
def locked (s : Sys) (p : ℕ) : Bool := (s.pc p).holdsOwn

/-- A CPU executes `p`: it is RUNNING, or it has given that up but not yet reached the scheduler. -/
def executes (s : Sys) (p : ℕ) : Bool := decide ((s.proc p).state = .running) || (s.pc p).holdsOwn

end Sys

/-! ### allocproc, freeproc, fork -/

def freeproc (e : Entry) : Entry :=
  { e with
    trapframe := false, pagetable := false, sz := 0, pid := 0, parent := none, chan := none
    killed := false, xstate := 0, state := .unused }

/-- `allocproc` once it has found the UNUSED entry `e`: the entry it leaves, and
whether it returns it. -/
def allocproc (e : Entry) (pid : ℤ) (m : Mem) : Entry × Bool :=
  let e := { e with pid := pid, state := .used }
  if !m.trapframe then (freeproc e, false)
  else
    let e := { e with trapframe := true }
    if !m.pagetable then (freeproc e, false)
    else ({ e with pagetable := true }, true)

/-- What `fork` copies from the parent's entry into the child's. -/
def forkCopy (p np : Entry) : Entry :=
  { np with
    sz := p.sz
    ofile := fun fd => if fd < NOFILE ∧ p.ofile fd ≠ none then p.ofile fd else np.ofile fd
    cwd := p.cwd }

/-- `fork` of `p` with the UNUSED entry `np`, up to the release of its lock. -/
def forkAt (s : Sys) (p np : ℕ) (m : Mem) : Sys × List Ev :=
  let pid := s.nextpid
  let s := { s with nextpid := cInt (pid + 1) }
  match allocproc (s.proc np) pid m with
  | (e, false) => (s.setProc np e).ret p (-1)
  | (e, true) =>
    if m.uvmcopy then
      -- the context that `allocproc` has set up starts the child in `forkret`
      (((s.setProc np (forkCopy (s.proc p) e)).setPc np .user).setPc p (.forkParent np pid),
        [.allocproc p np e.killed])
    else ((s.setProc np (freeproc e)).setPc p .user, [.allocproc p np e.killed, .ret p (-1)])

/-! ### wakeup -/

/-- What `wakeup(c)` does to an entry whose lock it has taken. -/
def Entry.wakeup (e : Entry) (c : Option Chan) : Entry :=
  if e.state = .sleeping ∧ e.chan = c then { e with state := .runnable } else e

/-- One round of the loop of `wakeup(c)`, called by `p`. -/
def wakeupAt (s : Sys) (p : ℕ) (c : Option Chan) (j : ℕ) : Except Stop Sys :=
  if j = p then .ok s
  else if s.locked j then .error .blocked
  else .ok (s.setProc j ((s.proc j).wakeup c))

/-! ### The sections of fork, exit, wait and kill -/

/-- What `kill` does to the entry it looks for. -/
def Entry.kill (e : Entry) : Entry :=
  { e with killed := true, state := if e.state = .sleeping then .runnable else e.state }

/-- What `wait(addr)` stores for its caller when it frees the entry `e`. -/
def stored (addr : ℕ) (e : Entry) : Option ℤ := if addr ≠ 0 then some e.xstate else none

/-- `p` executes its next section. -/
def go (s : Sys) (p : ℕ) (m : Mem) : Except Stop (Sys × List Ev) :=
  match s.pc p with
  | .forkScan i =>
    if i < NPROC then
      if s.locked i then .error .blocked
      else if (s.proc i).state = .unused then .ok (forkAt s p i m)
      else .ok (s.setPc p (.forkScan (i + 1)), [])
    else .ok (s.ret p (-1))
  | .forkParent np pid =>
    if s.waitLock = none then
      .ok ((s.setProc np { s.proc np with parent := some p }).setPc p (.forkRun np pid), [])
    else .error .blocked
  | .forkRun np pid =>
    if s.locked np then .error .blocked
    else .ok ((s.setProc np { s.proc np with state := .runnable }).ret p pid)
  | .exitFiles status fd =>
    let e := s.proc p
    if fd < NOFILE then
      .ok ((s.setProc p { e with ofile := Function.update e.ofile fd none }).setPc p (.exitFiles status (fd + 1)), [])
    else .ok ((s.setProc p { e with cwd := none }).setPc p (.exitLock status), [])
  | .exitLock status =>
    if s.waitLock = none then .ok ({ s with waitLock := some p }.setPc p (.reparent status 0), [])
    else .error .blocked
  | .reparent status i =>
    if i < NPROC then
      if (s.proc i).parent = some p then
        .ok ((s.setProc i { s.proc i with parent := some 0 }).setPc p (.reparentWake status i 0), [])
      else .ok (s.setPc p (.reparent status (i + 1)), [])
    else .ok (s.setPc p (.exitWake status ((s.proc p).parent.map .proc) 0), [])
  | .reparentWake status i j =>
    if j < NPROC then do
      let s ← wakeupAt s p (some (.proc 0)) j
      .ok (s.setPc p (.reparentWake status i (j + 1)), [])
    else .ok (s.setPc p (.reparent status (i + 1)), [])
  | .exitWake status c j =>
    if j < NPROC then do
      let s ← wakeupAt s p c j
      .ok (s.setPc p (.exitWake status c (j + 1)), [])
    else .ok (s.setPc p (.exitState status), [])
  | .exitState status =>
    .ok ((s.setProc p { s.proc p with xstate := status, state := .zombie }).setPc p .exitRelease, [])
  | .exitRelease => .ok ({ s with waitLock := none }.setPc p .exitSched, [])
  -- the scheduler releases `p->lock`, and never runs the process again
  | .exitSched => .ok (s.setPc p .dead, [])
  | .waitLock addr =>
    if s.waitLock = none then .ok ({ s with waitLock := some p }.setPc p (.waitScan addr 0 false), [])
    else .error .blocked
  | .waitScan addr i havekids =>
    if i < NPROC then
      if (s.proc i).parent = some p then
        if s.locked i then .error .blocked
        else if (s.proc i).state = .zombie then
          if addr ≠ 0 ∧ m.copyout = false then
            .ok ({ s with waitLock := none }.setPc p .user, [.copyoutFailed p i, .ret p (-1)])
          else
            let e := s.proc i
            .ok ({ s with waitLock := none }.setProc i (freeproc e) |>.setPc p .user,
              [.reaped p i e.pid addr (stored addr e), .ret p e.pid])
        else .ok (s.setPc p (.waitScan addr (i + 1) true), [])
      else .ok (s.setPc p (.waitScan addr (i + 1) havekids), [])
    else .ok (s.setPc p (.waitCheck addr havekids), [])
  | .waitCheck addr havekids =>
    if !havekids || (s.proc p).killed then .ok ({ s with waitLock := none }.ret p (-1))
    else .ok (s.setPc p (.waitSleep addr), [])
  -- `sleep(p, &wait_lock)` takes `p->lock` before it lets `wait_lock` go
  | .waitSleep addr => .ok (s.setPc p (.waitRelease addr), [])
  | .waitRelease addr => .ok ({ s with waitLock := none }.setPc p (.waitChan addr), [])
  | .waitChan addr =>
    .ok ((s.setProc p { s.proc p with chan := some (.proc p), state := .sleeping }).setPc p (.waitSched addr), [])
  | .waitSched addr => .ok (s.setPc p (.waitAsleep addr), [])
  | .kill pid i =>
    if i < NPROC then
      if s.locked i then .error .blocked
      else if (s.proc i).pid = pid then
        .ok ((s.setProc i (s.proc i).kill).setPc p .user, [.killed p i, .ret p 0])
      else .ok (s.setPc p (.kill pid (i + 1)), [])
    else .ok (s.ret p (-1))
  | .user | .dead | .waitAsleep _ | .asleep _ => .error .blocked

/-- What a process in user space, or in a system call not modelled here, does
next: a call of `proc.c`, or a change of its own entry. -/
inductive Call
  | fork
  | exit (status : ℤ)
  | wait (addr : ℕ)
  | kill (pid : ℤ)
  | setkilled
  | setOfile (fd : ℕ) (f : Option ℕ)
  | setCwd (ip : ℕ)
  | growproc (sz : ℕ)

def call (s : Sys) (p : ℕ) : Call → Except Stop (Sys × List Ev)
  | .fork => .ok (s.setPc p (.forkScan 0), [])
  | .exit status =>
    if p = 0 then .error (.panic "init exiting")
    else .ok (s.setPc p (.exitFiles status 0), [.exit p (s.proc p).pid status])
  | .wait addr => .ok (s.setPc p (.waitLock addr), [])
  | .kill pid => .ok (s.setPc p (.kill pid 0), [])
  | .setkilled => .ok (s.setProc p { s.proc p with killed := true }, [])
  | .setOfile fd f =>
    if fd < NOFILE then .ok (s.setProc p { s.proc p with ofile := Function.update (s.proc p).ofile fd f }, [])
    else .error .fault
  | .setCwd ip => .ok (s.setProc p { s.proc p with cwd := some ip }, [])
  | .growproc sz => .ok (s.setProc p { s.proc p with sz := sz }, [])

/-- Where a process that the scheduler picks goes on, and its entry: a process
that slept tidies up its channel before it lets its lock go. -/
def resume (pc : Pc) (e : Entry) : Pc × Entry :=
  match pc with
  | .waitAsleep addr => (.waitLock addr, { e with state := .running, chan := none })
  | .asleep none => (.user, { e with state := .running, chan := none })
  | .asleep (some (status, fd)) => (.exitFiles status fd, { e with state := .running, chan := none })
  | pc => (pc, { e with state := .running })

inductive Act
  | call (p : ℕ) (c : Call)
  | go (p : ℕ) (m : Mem)
  /-- `p` sleeps in another part of the kernel. -/
  | sleep (p a : ℕ)
  /-- One round of a `wakeup` by another part of the kernel or an interrupt handler. -/
  | wakeup (a j : ℕ)
  | yield (p : ℕ)
  | dispatch (p : ℕ)

/-- The process that takes the step, or whose entry is visited. -/
def Act.proc : Act → ℕ
  | .call p _ | .go p _ | .sleep p _ | .yield p | .dispatch p => p
  | .wakeup _ j => j

def step (s : Sys) : Act → Except Stop (Sys × List Ev)
  | .call p c => if s.pc p = .user ∧ (s.proc p).state = .running then call s p c else .error .blocked
  | .go p m => if s.executes p then go s p m else .error .blocked
  | .sleep p a =>
    if (s.proc p).state = .running then
      let s' := s.setProc p { s.proc p with chan := some (.other a), state := .sleeping }
      match s.pc p with
      | .user => .ok (s'.setPc p (.asleep none), [])
      | .exitFiles status fd => .ok (s'.setPc p (.asleep (some (status, fd))), [])
      | _ => .error .blocked
    else .error .blocked
  | .wakeup a j =>
    if s.locked j then .error .blocked
    else .ok (s.setProc j ((s.proc j).wakeup (some (.other a))), [])
  | .yield p =>
    -- interrupts are off while a lock is held
    if (s.proc p).state = .running ∧ (s.pc p).holdsOwn = false ∧ (s.pc p).holdsWait = false then
      .ok (s.setProc p { s.proc p with state := .runnable }, [])
    else .error .blocked
  | .dispatch p =>
    if (s.proc p).state = .runnable ∧ s.locked p = false then
      let r := resume (s.pc p) (s.proc p)
      .ok ((s.setProc p r.2).setPc p r.1, [])
    else .error .blocked

/-- After `procinit` and `userinit`: init, process 1, is entry 0. -/
def boot : Sys where
  proc := Function.update (fun _ => {}) 0
    { (allocproc {} 1 {}).1 with sz := PGSIZE, cwd := some 1, state := .runnable }
  pc := Function.update (fun _ => .dead) 0 .user
  waitLock := none
  nextpid := 2

/-! ### What a step can do -/

variable {s s' : Sys} {p q : ℕ} {m : Mem} {a : Act} {ev : List Ev}

namespace Sys

/-- `p` is RUNNING and stands at `pc`. -/
structure Runs (s : Sys) (p : ℕ) (pc : Pc) : Prop where
  pc : s.pc p = pc
  running : (s.proc p).state = .running

/-- `p` goes on at `pc`, with the entry `e`, and leaves `wait_lock` as `lk`. -/
def move (s : Sys) (p : ℕ) (pc : Pc) (e : Entry) (lk : Option ℕ) : Sys :=
  { s with proc := Function.update s.proc p e, pc := Function.update s.pc p pc, waitLock := lk }

theorem setPc_eq_move (s : Sys) (p : ℕ) (pc : Pc) : s.setPc p pc = s.move p pc (s.proc p) s.waitLock := by
  rw [move, Function.update_eq_self]
  rfl

theorem setProc_eq_move (s : Sys) (p : ℕ) (e : Entry) : s.setProc p e = s.move p (s.pc p) e s.waitLock := by
  rw [move, Function.update_eq_self]
  rfl

end Sys

/-- The sections that touch no entry but that of the process that executes them:
where it goes on, its entry, the holder of `wait_lock` and the events after it. -/
inductive Move (s : Sys) (p : ℕ) : Pc → Entry → Option ℕ → List Ev → Prop
  | fork (h : s.Runs p .user) : Move s p (.forkScan 0) (s.proc p) s.waitLock []
  | exit {status : ℤ} (h : s.Runs p .user) (h0 : p ≠ 0) :
    Move s p (.exitFiles status 0) (s.proc p) s.waitLock [.exit p (s.proc p).pid status]
  | wait {addr : ℕ} (h : s.Runs p .user) : Move s p (.waitLock addr) (s.proc p) s.waitLock []
  | kill {pid : ℤ} (h : s.Runs p .user) : Move s p (.kill pid 0) (s.proc p) s.waitLock []
  | tend {k : Bool} {n : ℕ} {f : ℕ → Option ℕ} {ip : Option ℕ} (h : s.Runs p .user) :
    Move s p .user { s.proc p with killed := k, sz := n, ofile := f, cwd := ip } s.waitLock []
  | forkNext {i : ℕ} (h : s.Runs p (.forkScan i)) : Move s p (.forkScan (i + 1)) (s.proc p) s.waitLock []
  | forkFull {i : ℕ} (h : s.Runs p (.forkScan i)) : Move s p .user (s.proc p) s.waitLock [.ret p (-1)]
  | exitClose {status : ℤ} {fd : ℕ} (h : s.Runs p (.exitFiles status fd)) :
    Move s p (.exitFiles status (fd + 1))
      { s.proc p with ofile := Function.update (s.proc p).ofile fd none } s.waitLock []
  | exitCwd {status : ℤ} {fd : ℕ} (h : s.Runs p (.exitFiles status fd)) (hfd : ¬ fd < NOFILE) :
    Move s p (.exitLock status) { s.proc p with cwd := none } s.waitLock []
  | exitLock {status : ℤ} (h : s.Runs p (.exitLock status)) (hl : s.waitLock = none) :
    Move s p (.reparent status 0) (s.proc p) (some p) []
  | reparentNext {status : ℤ} {i : ℕ} (h : s.Runs p (.reparent status i)) (hi : (s.proc i).parent ≠ some p) :
    Move s p (.reparent status (i + 1)) (s.proc p) s.waitLock []
  | reparentDone {status : ℤ} {i : ℕ} (h : s.Runs p (.reparent status i)) (hi : ¬ i < NPROC) :
    Move s p (.exitWake status ((s.proc p).parent.map .proc) 0) (s.proc p) s.waitLock []
  | reparentSelf {status : ℤ} {i : ℕ} (h : s.Runs p (.reparentWake status i p)) :
    Move s p (.reparentWake status i (p + 1)) (s.proc p) s.waitLock []
  | reparentWoken {status : ℤ} {i j : ℕ} (h : s.Runs p (.reparentWake status i j)) (hj : ¬ j < NPROC) :
    Move s p (.reparent status (i + 1)) (s.proc p) s.waitLock []
  | exitSelf {status : ℤ} {c : Option Chan} (h : s.Runs p (.exitWake status c p)) :
    Move s p (.exitWake status c (p + 1)) (s.proc p) s.waitLock []
  | exitWoken {status : ℤ} {c : Option Chan} {j : ℕ} (h : s.Runs p (.exitWake status c j)) (hj : ¬ j < NPROC) :
    Move s p (.exitState status) (s.proc p) s.waitLock []
  | exitRelease (h : s.pc p = .exitRelease) : Move s p .exitSched (s.proc p) none []
  | exitSched (h : s.pc p = .exitSched) : Move s p .dead (s.proc p) s.waitLock []
  | waitLock {addr : ℕ} (h : s.Runs p (.waitLock addr)) (hl : s.waitLock = none) :
    Move s p (.waitScan addr 0 false) (s.proc p) (some p) []
  | waitNext {addr i : ℕ} {k k' : Bool} (h : s.Runs p (.waitScan addr i k))
      (hi : (s.proc i).parent = some p → (s.proc i).state ≠ .zombie) :
    Move s p (.waitScan addr (i + 1) k') (s.proc p) s.waitLock []
  | waitFails {addr i : ℕ} {k : Bool} (h : s.Runs p (.waitScan addr i k)) (hp : (s.proc i).parent = some p)
      (hz : (s.proc i).state = .zombie) :
    Move s p .user (s.proc p) none [.copyoutFailed p i, .ret p (-1)]
  | waitScanned {addr i : ℕ} {k : Bool} (h : s.Runs p (.waitScan addr i k)) (hi : ¬ i < NPROC) :
    Move s p (.waitCheck addr k) (s.proc p) s.waitLock []
  | waitNone {addr : ℕ} {k : Bool} (h : s.Runs p (.waitCheck addr k)) :
    Move s p .user (s.proc p) none [.ret p (-1)]
  | waitOn {addr : ℕ} {k : Bool} (h : s.Runs p (.waitCheck addr k)) :
    Move s p (.waitSleep addr) (s.proc p) s.waitLock []
  | waitSleep {addr : ℕ} (h : s.Runs p (.waitSleep addr)) :
    Move s p (.waitRelease addr) (s.proc p) s.waitLock []
  | waitRelease {addr : ℕ} (h : s.pc p = .waitRelease addr) : Move s p (.waitChan addr) (s.proc p) none []
  | waitChan {addr : ℕ} (h : s.pc p = .waitChan addr) :
    Move s p (.waitSched addr) { s.proc p with chan := some (.proc p), state := .sleeping } s.waitLock []
  | waitSched {addr : ℕ} (h : s.pc p = .waitSched addr) :
    Move s p (.waitAsleep addr) (s.proc p) s.waitLock []
  | killNext {pid : ℤ} {i : ℕ} (h : s.Runs p (.kill pid i)) :
    Move s p (.kill pid (i + 1)) (s.proc p) s.waitLock []
  | killNone {pid : ℤ} {i : ℕ} (h : s.Runs p (.kill pid i)) :
    Move s p .user (s.proc p) s.waitLock [.ret p (-1)]
  | sleep {a : ℕ} (h : s.Runs p .user) :
    Move s p (.asleep none) { s.proc p with chan := some (.other a), state := .sleeping } s.waitLock []
  | exitSleep {status : ℤ} {fd a : ℕ} (h : s.Runs p (.exitFiles status fd)) :
    Move s p (.asleep (some (status, fd)))
      { s.proc p with chan := some (.other a), state := .sleeping } s.waitLock []
  | yield {pc : Pc} (h : s.Runs p pc) (ho : pc.holdsOwn = false) (hw : pc.holdsWait = false) :
    Move s p pc { s.proc p with state := .runnable } s.waitLock []
  | dispatch (h : (s.proc p).state = .runnable) (ho : s.locked p = false) :
    Move s p (resume (s.pc p) (s.proc p)).1 (resume (s.pc p) (s.proc p)).2 s.waitLock []

/-- Who visits the entry `j`, to wake it or to kill it, and where the visitor goes on. -/
inductive Visit (s : Sys) (j : ℕ) : Entry → ℕ → Pc → List Ev → Prop
  | other {a : ℕ} : Visit s j ((s.proc j).wakeup (some (.other a))) j (s.pc j) []
  | reparent {p : ℕ} {status : ℤ} {i : ℕ} (h : s.Runs p (.reparentWake status i j)) (hp : j ≠ p) :
    Visit s j ((s.proc j).wakeup (some (.proc 0))) p (.reparentWake status i (j + 1)) []
  | exit {p : ℕ} {status : ℤ} {c : Option Chan} (h : s.Runs p (.exitWake status c j)) (hp : j ≠ p) :
    Visit s j ((s.proc j).wakeup c) p (.exitWake status c (j + 1)) []
  | kill {p : ℕ} {pid : ℤ} (h : s.Runs p (.kill pid j)) (hj : j < NPROC) (hp : (s.proc j).pid = pid) :
    Visit s j (s.proc j).kill p .user [.killed p j, .ret p 0]

/-- **What a step can do.** A process goes on, an entry is visited, or the table
changes: `fork` fails after it has taken an entry, or takes one, or gives it its
parent, or sets it going; `reparent` gives a child to init, `wait` frees a
zombie, `exit` makes one. -/
inductive Change (s : Sys) : ℕ → Sys → List Ev → Prop
  | move {p : ℕ} {pc : Pc} {e : Entry} {lk : Option ℕ} {ev : List Ev} (h : Move s p pc e lk ev) :
    Change s p (s.move p pc e lk) ev
  | visit {j p : ℕ} {e : Entry} {pc : Pc} {ev : List Ev} (hl : s.locked j = false) (h : Visit s j e p pc ev) :
    Change s p ((s.setProc j e).setPc p pc) ev
  | forkFails {p np : ℕ} {n : ℤ} {ev : List Ev} (h : s.Runs p (.forkScan np))
      (hu : (s.proc np).state = .unused) (hev : ev = [] ∨ ev = [.allocproc p np (s.proc np).killed]) :
    Change s p (({ s with nextpid := n }.setProc np (freeproc (s.proc np))).setPc p .user) (ev ++ [.ret p (-1)])
  | forkTakes {p np : ℕ} {n : ℤ} (h : s.Runs p (.forkScan np)) (hn : np < NPROC)
      (hu : (s.proc np).state = .unused) :
    Change s p
      ((({ s with nextpid := n }.setProc np (forkCopy (s.proc p)
        { s.proc np with pid := s.nextpid, state := .used, trapframe := true, pagetable := true })).setPc
          np .user).setPc p (.forkParent np s.nextpid))
      [.allocproc p np (s.proc np).killed]
  | forkParent {p np : ℕ} {pid : ℤ} (h : s.Runs p (.forkParent np pid)) (hl : s.waitLock = none) :
    Change s p ((s.setProc np { s.proc np with parent := some p }).setPc p (.forkRun np pid)) []
  | forkRuns {p np : ℕ} {pid : ℤ} (h : s.Runs p (.forkRun np pid)) :
    Change s p ((s.setProc np { s.proc np with state := .runnable }).setPc p .user) [.ret p pid]
  | reparent {p i : ℕ} {status : ℤ} (h : s.Runs p (.reparent status i)) (hi : (s.proc i).parent = some p) :
    Change s p ((s.setProc i { s.proc i with parent := some 0 }).setPc p (.reparentWake status i 0)) []
  | reap {p q addr : ℕ} {k : Bool} (h : s.Runs p (.waitScan addr q k)) (hp : (s.proc q).parent = some p)
      (hz : (s.proc q).state = .zombie) (hl : s.locked q = false) :
    Change s p (({ s with waitLock := none }.setProc q (freeproc (s.proc q))).setPc p .user)
      [.reaped p q (s.proc q).pid addr (stored addr (s.proc q)), .ret p (s.proc q).pid]
  | exits {p : ℕ} {status : ℤ} (h : s.Runs p (.exitState status)) :
    Change s p ((s.setProc p { s.proc p with xstate := status, state := .zombie }).setPc p .exitRelease) []

theorem Change.of_forkAt {np : ℕ} (h : s.Runs p (.forkScan np)) (hn : np < NPROC)
    (hu : (s.proc np).state = .unused) : Change s p (forkAt s p np m).1 (forkAt s p np m).2 := by
  by_cases ht : m.trapframe = true
  · by_cases hg : m.pagetable = true
    · by_cases hc : m.uvmcopy = true
      · simpa [forkAt, allocproc, ht, hg, hc] using Change.forkTakes h hn hu
      · simpa [forkAt, allocproc, freeproc, ht, hg, hc] using Change.forkFails h hu (.inr rfl)
    · simpa [forkAt, allocproc, freeproc, Sys.ret, ht, hg] using Change.forkFails h hu (.inl rfl)
  · simpa [forkAt, allocproc, freeproc, Sys.ret, ht] using Change.forkFails h hu (.inl rfl)

theorem Change.setPc {pc : Pc} (h : Move s p pc (s.proc p) s.waitLock ev) : Change s p (s.setPc p pc) ev := by
  rw [Sys.setPc_eq_move]
  exact .move h

theorem Change.of_wakeupAt {s1 : Sys} {c : Option Chan} {j : ℕ} {pc : Pc}
    (hs : j = p → Move s p pc (s.proc p) s.waitLock [])
    (hv : j ≠ p → Visit s j ((s.proc j).wakeup c) p pc []) (h : wakeupAt s p c j = .ok s1) :
    Change s p (s1.setPc p pc) [] := by
  unfold wakeupAt at h
  split_ifs at h with hj hl
  · cases h
    exact .setPc (hs hj)
  · cases h
    exact .visit (by simpa using hl) (hv hj)

theorem go_change (hx : s.executes p = true) (h : go s p m = .ok (s', ev)) : Change s p s' ev := by
  have hruns : ∀ pc, s.pc p = pc → pc.holdsOwn = false → s.Runs p pc := by
    rintro pc rfl ho
    refine ⟨rfl, ?_⟩
    simpa [Sys.executes, ho] using hx
  unfold go at h
  split at h
  next i hpc =>
    have hr := hruns _ hpc rfl
    split_ifs at h with h1 h2 h3
    · obtain ⟨rfl, rfl⟩ := Prod.mk.inj (Except.ok.inj h)
      exact .of_forkAt hr h1 h3
    · cases h
      exact .setPc (.forkNext hr)
    · cases h
      exact .setPc (.forkFull hr)
  next np pid hpc =>
    have hr := hruns _ hpc rfl
    split_ifs at h with h1
    cases h
    exact .forkParent hr h1
  next np pid hpc =>
    have hr := hruns _ hpc rfl
    split_ifs at h with h1
    cases h
    exact .forkRuns hr
  next status fd hpc =>
    have hr := hruns _ hpc rfl
    split_ifs at h with h1
    · cases h
      exact .move (.exitClose hr)
    · cases h
      exact .move (.exitCwd hr h1)
  next status hpc =>
    have hr := hruns _ hpc rfl
    split_ifs at h with h1
    cases h
    rw [Sys.setPc_eq_move]
    exact .move (.exitLock hr h1)
  next status i hpc =>
    have hr := hruns _ hpc rfl
    split_ifs at h with h1 h2
    · cases h
      exact .reparent hr h2
    · cases h
      exact .setPc (.reparentNext hr h2)
    · cases h
      exact .setPc (.reparentDone hr h1)
  next status i j hpc =>
    have hr := hruns _ hpc rfl
    split_ifs at h with h1
    · obtain ⟨s1, hw, h⟩ := bind_ok h
      cases h
      exact .of_wakeupAt (fun hj => by subst hj; exact .reparentSelf hr) (fun hj => .reparent hr hj) hw
    · cases h
      exact .setPc (.reparentWoken hr h1)
  next status c j hpc =>
    have hr := hruns _ hpc rfl
    split_ifs at h with h1
    · obtain ⟨s1, hw, h⟩ := bind_ok h
      cases h
      exact .of_wakeupAt (fun hj => by subst hj; exact .exitSelf hr) (fun hj => .exit hr hj) hw
    · cases h
      exact .setPc (.exitWoken hr h1)
  next status hpc =>
    cases h
    exact .exits (hruns _ hpc rfl)
  next hpc =>
    cases h
    rw [Sys.setPc_eq_move]
    exact .move (.exitRelease hpc)
  next hpc =>
    cases h
    exact .setPc (.exitSched hpc)
  next addr hpc =>
    have hr := hruns _ hpc rfl
    split_ifs at h with h1
    cases h
    rw [Sys.setPc_eq_move]
    exact .move (.waitLock hr h1)
  next addr i k hpc =>
    have hr := hruns _ hpc rfl
    split_ifs at h with h1 h2 h3 h4 h5
    · cases h
      rw [Sys.setPc_eq_move]
      exact .move (.waitFails hr h2 h4)
    · cases h
      exact .reap hr h2 h4 (by simpa using h3)
    · cases h
      exact .setPc (.waitNext hr fun _ => h4)
    · cases h
      exact .setPc (.waitNext hr fun hp => absurd hp h2)
    · cases h
      exact .setPc (.waitScanned hr h1)
  next addr k hpc =>
    have hr := hruns _ hpc rfl
    split_ifs at h with h1
    · cases h
      rw [Sys.setPc_eq_move]
      exact .move (.waitNone hr)
    · cases h
      exact .setPc (.waitOn hr)
  next addr hpc =>
    cases h
    exact .setPc (.waitSleep (hruns _ hpc rfl))
  next addr hpc =>
    cases h
    rw [Sys.setPc_eq_move]
    exact .move (.waitRelease hpc)
  next addr hpc =>
    cases h
    exact .move (.waitChan hpc)
  next addr hpc =>
    cases h
    exact .setPc (.waitSched hpc)
  next pid i hpc =>
    have hr := hruns _ hpc rfl
    split_ifs at h with h1 h2 h3
    · cases h
      exact .visit (by simpa using h2) (.kill hr h1 h3)
    · cases h
      exact .setPc (.killNext hr)
    · cases h
      exact .setPc (.killNone hr)
  all_goals cases h

theorem call_change {c : Call} (hr : s.Runs p .user) (h : call s p c = .ok (s', ev)) : Change s p s' ev := by
  cases c with
  | fork =>
    cases h
    exact .setPc (.fork hr)
  | exit status =>
    simp only [call] at h
    split_ifs at h with h0
    cases h
    exact .setPc (.exit hr h0)
  | wait addr =>
    cases h
    exact .setPc (.wait hr)
  | kill pid =>
    cases h
    exact .setPc (.kill hr)
  | setOfile fd f =>
    simp only [call] at h
    split_ifs at h with h1
    cases h
    rw [Sys.setProc_eq_move, hr.pc]
    exact .move (.tend hr)
  | setkilled | setCwd ip | growproc sz =>
    cases h
    rw [Sys.setProc_eq_move, hr.pc]
    exact .move (.tend hr)

theorem step_change (h : step s a = .ok (s', ev)) : Change s a.proc s' ev := by
  cases a with
  | call p c =>
    simp only [step] at h
    split_ifs at h with hr
    exact call_change ⟨hr.1, hr.2⟩ h
  | go p m =>
    simp only [step] at h
    split_ifs at h with hx
    exact go_change hx h
  | sleep p a =>
    simp only [step] at h
    split_ifs at h with hr
    split at h
    next hpc =>
      cases h
      exact .move (.sleep ⟨hpc, hr⟩)
    next status fd hpc =>
      cases h
      exact .move (.exitSleep ⟨hpc, hr⟩)
    next => cases h
  | wakeup a j =>
    simp only [step] at h
    split_ifs at h with hl
    cases h
    have hv := Change.visit (by simpa using hl) (Visit.other (s := s) (j := j) (a := a))
    rwa [show (s.setProc j ((s.proc j).wakeup (some (.other a)))).setPc j (s.pc j) =
      s.setProc j ((s.proc j).wakeup (some (.other a))) from
      congrArg (fun f => { s.setProc j ((s.proc j).wakeup (some (.other a))) with pc := f })
        (Function.update_eq_self j s.pc)] at hv
  | yield p =>
    simp only [step] at h
    split_ifs at h with hr
    cases h
    rw [Sys.setProc_eq_move]
    exact .move (.yield ⟨rfl, hr.1⟩ hr.2.1 hr.2.2)
  | dispatch p =>
    simp only [step] at h
    split_ifs at h with hr
    cases h
    exact .move (.dispatch hr.1 hr.2)

end Procs
end Xv6
