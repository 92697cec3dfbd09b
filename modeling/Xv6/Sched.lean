/-
# CPUs, kernel stacks and the scheduler

`scheduler`, `sched`, `yield`, `sleep`, `forkret` and the sections of `exit`,
`fork`, `wait`, `kill` and `wakeup` that take a lock of the process table, run by
any number of CPUs. Here a step is finer than in the model of the table
(`Xv6.Proc`): taking `p->lock`, the work under it and letting it go are steps of
their own, and so are the two halves of `swtch`, which saves the registers into
one context and loads them from another. A CPU is on its own stack, in
`scheduler`, or on the kernel stack of a process (`Loc`); what the registers hold
of a process is its thread (`Thread`), and `p->context` has it only from the
first half of the `swtch` away from the process to the second half of the
`swtch` to it. `p->lock` is held by a CPU, not by a process, so it is handed
over in `swtch` without any operation on the lock.

Left open, so that every choice is covered: which entries the loops of `wakeup`,
`kill`, `allocproc` and `wait` visit and in which order, whether an entry that
`wait` finds is a child of the caller, and what `wait_lock` and the locks passed
to `sleep` protect. `sched` also panics if another spinlock is held or interrupts
are on; neither is in the model.

Key definitions: `Sched.Loc`, `Sched.Sys`, `Sched.step`.
-/
import Xv6.Proc

namespace Xv6
namespace Sched

open Procs

/-- Why a process leaves its CPU, with the arguments of the function that does it. -/
inductive Leave
  | yield
  | sleep (chan : Option Chan)
  | exit (status : ℤ)
  deriving DecidableEq, Repr

def Leave.exits : Leave → Bool
  | .exit _ => true
  | _ => false

/-- What a section does to the entry whose lock it has taken: one round of
`wakeup`, `kill`, `allocproc` in `fork`, or `wait`; `setkilled`; or the section of
`fork` that makes the child RUNNABLE. -/
inductive Task
  | wakeup (chan : Option Chan)
  | kill (pid : ℤ)
  | setkilled
  | fork
  | start
  | wait
  deriving DecidableEq, Repr

/-- Where a process stands in its kernel code. -/
inductive Pos
  /-- It has come back from the `swtch` in `sched`, and holds its own lock. -/
  | resumed (k : Leave)
  /-- The first thing that a new process runs. -/
  | forkret
  /-- It holds no lock of the table. -/
  | free
  | visit (q : ℕ) (task : Task)
  | release (q : ℕ)
  /-- It has taken its own lock to leave the CPU. -/
  | own (k : Leave)
  | sched (k : Leave)
  /-- The first half of `swtch` is done. -/
  | off
  deriving DecidableEq, Repr

/-- What the registers hold of a process: where it stands, and the entry that its
`fork` has taken but not yet made RUNNABLE. -/
structure Thread where
  pos : Pos
  np : Option ℕ := none
  deriving DecidableEq, Repr

/-- Where a CPU executes: in `scheduler` on its own stack, or on the stack of a process. -/
inductive Loc
  | scan (i : ℕ)
  /-- An interrupt handler, in a round of `wakeup`. -/
  | intr (i q : ℕ) (chan : Option Chan)
  | intrRelease (i q : ℕ)
  | check (p : ℕ)
  | chosen (p : ℕ)
  /-- The first half of the `swtch` to `p` is done. -/
  | off (p : ℕ)
  /-- It has come back from that `swtch`. -/
  | back (p : ℕ)
  | release (p : ℕ)
  | thread (p : ℕ) (t : Thread)
  deriving DecidableEq, Repr

/-- `struct cpu`, with its registers; of `c->context` only the variable `p` of `scheduler` matters. -/
structure Cpu where
  proc : Option ℕ := none
  context : Option ℕ := none
  loc : Loc := .scan 0

structure Sys where
  proc : ℕ → Entry
  lock : ℕ → Option ℕ
  context : ℕ → Option Thread
  cpu : ℕ → Cpu
  nextpid : ℤ

/-- `freeproc` is applied to the entry `q`. -/
inductive Ev
  | freed (q : ℕ)
  deriving DecidableEq, Repr

namespace Sys

def setProc (s : Sys) (p : ℕ) (e : Entry) : Sys := { s with proc := Function.update s.proc p e }

def setCpu (s : Sys) (c : ℕ) (k : Cpu) : Sys := { s with cpu := Function.update s.cpu c k }

def setContext (s : Sys) (p : ℕ) (t : Option Thread) : Sys := { s with context := Function.update s.context p t }

def setLock (s : Sys) (p : ℕ) (o : Option ℕ) : Sys := { s with lock := Function.update s.lock p o }

/-- The CPU `c` goes on at `l`. -/
def setLoc (s : Sys) (c : ℕ) (l : Loc) : Sys := s.setCpu c { s.cpu c with loc := l }

/-- The process whose stack the CPU `c` is on. -/
def stack (s : Sys) (c : ℕ) : Option ℕ :=
  match (s.cpu c).loc with
  | .thread p _ => some p
  | _ => none

end Sys

/-- `acquire(&proc[p].lock)` on the CPU `c`. -/
def acquire (s : Sys) (c p : ℕ) : Except Stop Sys :=
  match s.lock p with
  | none => .ok (s.setLock p (some c))
  | some d => .error (if d = c then .panic "acquire" else .blocked)

/-- `release(&proc[p].lock)` on the CPU `c`. -/
def release (s : Sys) (c p : ℕ) : Except Stop Sys :=
  if s.lock p = some c then .ok (s.setLock p none) else .error (.panic "release")

/-! ### The sections on a process's stack -/

/-- The section `task` of the process `p` at the entry `q`; `np` is what a `fork` of
`p` has taken before and after. -/
def work (s : Sys) (p q : ℕ) (np : Option ℕ) (m : Mem) : Task → Sys × Option ℕ × List Ev
  | .wakeup chan => (s.setProc q ((s.proc q).wakeup chan), np, [])
  | .kill pid => if (s.proc q).pid = pid then (s.setProc q (s.proc q).kill, np, []) else (s, np, [])
  | .setkilled => (s.setProc q { s.proc q with killed := true }, np, [])
  | .fork =>
    if (s.proc q).state = .unused then
      let pid := s.nextpid
      let s := { s with nextpid := cInt (pid + 1) }
      match allocproc (s.proc q) pid m with
      | (e, false) => (s.setProc q e, np, [.freed q])
      | (e, true) =>
        let s := s.setContext q (some { pos := .forkret })
        if m.uvmcopy then (s.setProc q (forkCopy (s.proc p) e), some q, [])
        else (s.setProc q (freeproc e), np, [.freed q])
    else (s, np, [])
  | .start => (s.setProc q { s.proc q with state := .runnable }, none, [])
  | .wait =>
    if (s.proc q).state = .zombie ∧ m.copyout = true then (s.setProc q (freeproc (s.proc q)), np, [.freed q])
    else (s, np, [])

/-- What a process does to its own entry before it calls `sched`. -/
def depart (e : Entry) : Leave → Entry
  | .yield => { e with state := .runnable }
  | .sleep chan => { e with chan := chan, state := .sleeping }
  | .exit status => { e with xstate := status, state := .zombie }

/-- The next section of the CPU `c` on the stack of `p`. -/
def goThread (s : Sys) (c p : ℕ) (t : Thread) (m : Mem) : Except Stop (Sys × List Ev) :=
  let next (s : Sys) (pos : Pos) : Sys × List Ev := (s.setLoc c (.thread p { t with pos := pos }), [])
  match t.pos, (s.cpu c).proc with
  | .resumed .yield, _ => do .ok (next (← release s c p) .free)
  | .resumed (.sleep _), _ => do .ok (next (← release (s.setProc p { s.proc p with chan := none }) c p) .free)
  | .resumed (.exit _), _ => .error (.panic "zombie exit")
  | .forkret, some r => do .ok (next (← release s c r) .free)
  | .free, _ => .error .blocked
  | .visit q task, _ =>
    let r := work s p q t.np m task
    .ok (r.1.setLoc c (.thread p { pos := .release q, np := r.2.1 }), r.2.2)
  | .release q, _ => do .ok (next (← release s c q) .free)
  | .own k, some r => .ok (next (s.setProc r (depart (s.proc r) k)) (.sched k))
  | .sched k, some r =>
    if s.lock r ≠ some c then .error (.panic "sched p->lock")
    else if (s.proc r).state = .running then .error (.panic "sched running")
    else .ok (next (s.setContext r (some { t with pos := .resumed k })) .off)
  | .off, _ =>
    match (s.cpu c).context with
    | some r => .ok (s.setLoc c (.back r), [])
    | none => .error .fault
  -- `myproc()` is null
  | _, none => .error .fault

/-! ### The scheduler -/

/-- The next section of the CPU `c`. -/
def go (s : Sys) (c : ℕ) (m : Mem) : Except Stop (Sys × List Ev) :=
  match (s.cpu c).loc with
  | .scan i =>
    if i < NPROC then do .ok ((← acquire s c i).setLoc c (.check i), [])
    else .ok (s.setLoc c (.scan 0), [])
  | .intr i q chan => .ok ((s.setProc q ((s.proc q).wakeup chan)).setLoc c (.intrRelease i q), [])
  | .intrRelease i q => do .ok ((← release s c q).setLoc c (.scan i), [])
  | .check p =>
    if (s.proc p).state = .runnable then
      .ok ((s.setProc p { s.proc p with state := .running }).setCpu c
        { s.cpu c with proc := some p, loc := .chosen p }, [])
    else .ok (s.setLoc c (.release p), [])
  -- `swtch(&c->context, &p->context)`
  | .chosen p => .ok (s.setCpu c { s.cpu c with context := some p, loc := .off p }, [])
  | .off p =>
    match s.context p with
    | some t => .ok ((s.setContext p none).setLoc c (.thread p t), [])
    | none => .error .fault
  | .back p => .ok (s.setCpu c { s.cpu c with proc := none, loc := .release p }, [])
  | .release p => do .ok ((← release s c p).setLoc c (.scan (p + 1)), [])
  | .thread p t => goThread s c p t m

/-- The process may execute such a section now: `wakeup` does not visit the process
that calls it, a `fork` that has taken an entry goes on to make that RUNNABLE, and
meanwhile only interrupt handlers run. -/
def visits (k : Cpu) (t : Thread) (q : ℕ) : Task → Bool
  | .wakeup _ => decide (k.proc ≠ some q)
  | .start => decide (t.np = some q)
  | _ => decide (t.np = none)

inductive Act
  | go (c : ℕ) (m : Mem)
  /-- The process on the CPU `c` takes its own lock in `yield`, `sleep` or `exit`. -/
  | leave (c : ℕ) (k : Leave)
  | visit (c q : ℕ) (task : Task)
  /-- An interrupt handler on the stack of the scheduler visits `q` in a `wakeup`. -/
  | intr (c q : ℕ) (chan : Option Chan)

def step (s : Sys) : Act → Except Stop (Sys × List Ev)
  | .go c m => go s c m
  | .leave c k =>
    match (s.cpu c).loc, (s.cpu c).proc with
    | .thread p t, some r =>
      if t.pos = .free ∧ (k = .yield ∨ t.np = none) then
        if r = 0 ∧ k.exits then .error (.panic "init exiting")
        else do .ok ((← acquire s c r).setLoc c (.thread p { t with pos := .own k }), [])
      else .error .blocked
    | _, _ => .error .blocked
  | .visit c q task =>
    match (s.cpu c).loc with
    | .thread p t =>
      if t.pos = .free ∧ q < NPROC ∧ visits (s.cpu c) t q task then do
        .ok ((← acquire s c q).setLoc c (.thread p { t with pos := .visit q task }), [])
      else .error .blocked
    | _ => .error .blocked
  | .intr c q chan =>
    match (s.cpu c).loc with
    | .scan i =>
      if q < NPROC then do .ok ((← acquire s c q).setLoc c (.intr i q chan), [])
      else .error .blocked
    | _ => .error .blocked

/-- Every CPU enters `scheduler`, and init is ready to run. -/
def boot : Sys where
  proc := Procs.boot.proc
  lock := fun _ => none
  context := Function.update (fun _ => none) 0 (some { pos := .forkret })
  cpu := fun _ => {}
  nextpid := Procs.boot.nextpid

end Sched
end Xv6
