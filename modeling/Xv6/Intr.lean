/-
# Interrupts and kernel threads

`push_off`, `pop_off`, `acquire` and `release` of `kernel/spinlock.c` with `scheduler`,
`sched`, `yield` and `sleep` of `kernel/proc.c`, on any number of CPUs. `noff` and `intena`
belong to a CPU, and a kernel thread can leave its CPU in `sched` and go on at another one.

A thread does what it likes with spinlocks and `push_off`, as long as it undoes only what it
has done, in any order; it changes `p->state` and makes a new process under the lock of that
entry; and it turns interrupts on and off while it has none of these (`usertrap`,
`usertrapret`). An interrupt comes whenever interrupts are on, also between the first two
lines of `push_off`, and its handler is such code again, on the same stack. What a thread
has not undone yet is its `depth`. Two variables of the proof go with a thread: whether it
is past the `release` of `forkret`, and whether interrupts were on when its depth last left 0.

The steps on one CPU between a `push_off` and the matching `pop_off` are taken together
where they touch nothing but that CPU. `noff` does not overflow.

Key definitions: `Intr.Code`, `Intr.Cpu`, `Intr.step`.
-/
import Xv6.Proc

namespace Xv6
namespace Intr

open Procs

inductive Lk
  | proc (p : ℕ)
  | other (n : ℕ)
  deriving DecidableEq

/-- `struct spinlock`. -/
structure Spinlock where
  locked : Bool := false
  cpu : Option ℕ := none

inductive Op
  | pushOff
  | popOff
  | acquire (l : Lk)
  | release (l : Lk)
  | intrOn
  | intrOff
  /-- `p->state` is changed under `p->lock`. -/
  | setState (q : ℕ) (st : ProcState)
  /-- `allocproc` sets up the context of a new process. -/
  | setContext (q : ℕ)
  | sched
  deriving DecidableEq

/-- Where a thread stands inside one of these. -/
inductive Pos
  | free
  /-- `push_off` has read whether interrupts are on; it is called by `acquire` for a lock. -/
  | pushing (old : Bool) (lk : Option Lk)
  | spinning (l : Lk)
  /-- `release` has let the lock go and calls `pop_off`. -/
  | popping
  /-- `swtch` has returned to `sched`. -/
  | restoring (intena : Bool)
  deriving DecidableEq

/-- What an interrupt has put aside. -/
structure Frame where
  pos : Pos
  todo : List Op
  deriving DecidableEq

/-- What is on a kernel stack: where the code stands, what is left of the function it has called,
and the code that interrupts have put aside. -/
structure Code where
  pos : Pos := .free
  todo : List Op := []
  frames : List Frame := []
  /-- The calls of `push_off` to be undone. -/
  pushes : ℕ := 0
  held : List Lk := []
  started : Bool := true
  before : Bool := false
  deriving DecidableEq

/-- In `acquire` after `push_off`, or in `release` before `pop_off`. -/
def Pos.inside : Pos → ℕ
  | .spinning _ | .popping => 1
  | _ => 0

def Code.depth (code : Code) : ℕ := code.pushes + code.held.length + code.pos.inside

/-- The code of a new process. -/
def forkret (p : ℕ) : Code := { todo := [.release (.proc p)], held := [.proc p], started := false }

/-- Where `scheduler` stands; `found` is its variable. -/
inductive SPos
  | top
  | scan (i : ℕ) (found : Bool)
  | pushing (i : ℕ) (found old : Bool)
  | spinning (i : ℕ) (found : Bool)
  | check (i : ℕ) (found : Bool)
  | chosen (i : ℕ)
  | back (i : ℕ)
  | release (i : ℕ) (found : Bool)
  | popping (i : ℕ) (found : Bool)
  | idle
  deriving DecidableEq

/-- Where a CPU executes: in `scheduler`, in an interrupt handler on the stack of the
scheduler, or on the stack of a process. -/
inductive Loc
  | sched (pos : SPos)
  | handler (pos : SPos) (code : Code)
  | thread (p : ℕ) (code : Code)
  deriving DecidableEq

/-- `struct cpu` and the bit SIE of `sstatus`; of `c->context` the variable `p` of `scheduler`
matters. -/
structure Cpu where
  proc : Option ℕ := none
  context : Option ℕ := none
  noff : ℕ := 0
  intena : Bool := false
  sie : Bool := false
  loc : Loc := .sched .top

structure Sys where
  cpu : ℕ → Cpu
  lock : Lk → Spinlock
  state : ℕ → ProcState
  context : ℕ → Option Code

namespace Sys

def setCpu (s : Sys) (c : ℕ) (k : Cpu) : Sys := { s with cpu := Function.update s.cpu c k }

def setLock (s : Sys) (l : Lk) (k : Spinlock) : Sys := { s with lock := Function.update s.lock l k }

def setState (s : Sys) (p : ℕ) (st : ProcState) : Sys := { s with state := Function.update s.state p st }

def setContext (s : Sys) (p : ℕ) (t : Option Code) : Sys := { s with context := Function.update s.context p t }

def setLoc (s : Sys) (c : ℕ) (l : Loc) : Sys := s.setCpu c { s.cpu c with loc := l }

def setSie (s : Sys) (c : ℕ) (b : Bool) : Sys := s.setCpu c { s.cpu c with sie := b }

def holding (s : Sys) (c : ℕ) (l : Lk) : Bool := (s.lock l).locked && decide ((s.lock l).cpu = some c)

end Sys

/-! ### push_off and pop_off -/

/-- `push_off`, after `old = intr_get()`. -/
def Cpu.pushOff (k : Cpu) (old : Bool) : Cpu :=
  { k with sie := false, intena := if k.noff = 0 then old else k.intena, noff := k.noff + 1 }

def Cpu.popOff (k : Cpu) : Except Stop Cpu :=
  if k.sie then .error (.panic "pop_off - interruptible")
  else if k.noff < 1 then .error (.panic "pop_off")
  else .ok { k with noff := k.noff - 1, sie := decide (k.noff - 1 = 0) && k.intena }

/-! ### Threads -/

/-- The depth of the code may have come back to 0. -/
def Code.popped (code : Code) : Code := { code with started := code.started || decide (code.depth = 0) }

/-- The CPU `c` begins with `op`. Code that would undo what it has not done is no code of the
kernel, nor is code that touches an entry of the table without its lock. -/
def start (s : Sys) (c : ℕ) (code : Code) : Op → Except Stop (Sys × Code)
  | .pushOff => .ok (s, { code with pos := .pushing (s.cpu c).sie none })
  | .acquire l => .ok (s, { code with pos := .pushing (s.cpu c).sie (some l) })
  | .popOff =>
    if code.pushes = 0 then .error .blocked
    else do .ok (s.setCpu c (← (s.cpu c).popOff), { code with pushes := code.pushes - 1 }.popped)
  | .release l =>
    if l ∉ code.held then .error .blocked
    else if !s.holding c l then .error (.panic "release")
    else .ok (s.setLock l {}, { code with held := code.held.erase l, pos := .popping })
  | .intrOn => if code.depth ≠ 0 then .error .blocked else .ok (s.setSie c true, code)
  | .intrOff => if code.depth ≠ 0 then .error .blocked else .ok (s.setSie c false, code)
  | .setState q st => if .proc q ∉ code.held then .error .blocked else .ok (s.setState q st, code)
  | .setContext q => if .proc q ∉ code.held then .error .blocked else .ok (s.setContext q (some (forkret q)), code)
  -- `myproc()` is null
  | .sched => .error .fault

/-- The CPU `c` goes on with the code. -/
def exec (s : Sys) (c : ℕ) (code : Code) : Except Stop (Sys × Code) :=
  match code.pos with
  | .pushing old lk =>
    let before := if code.depth = 0 then (s.cpu c).sie else code.before
    let s := s.setCpu c ((s.cpu c).pushOff old)
    match lk with
    | none => .ok (s, { code with pos := .free, pushes := code.pushes + 1, before := before })
    | some l =>
      if s.holding c l then .error (.panic "acquire")
      else .ok (s, { code with pos := .spinning l, before := before })
  | .spinning l =>
    if (s.lock l).locked then .error .blocked
    else .ok (s.setLock l ⟨true, some c⟩, { code with pos := .free, held := l :: code.held })
  | .popping => do .ok (s.setCpu c (← (s.cpu c).popOff), { code with pos := .free }.popped)
  | .restoring intena => .ok (s.setCpu c { s.cpu c with intena := intena }, { code with pos := .free })
  | .free =>
    match code.todo with
    | [] => .error .blocked
    | op :: todo => start s c { code with todo := todo } op

/-- `sched`, with `code` to be gone on with after it. -/
def sched (s : Sys) (c : ℕ) (code : Code) : Except Stop Sys :=
  match (s.cpu c).proc, (s.cpu c).context with
  | some p, some i =>
    if !s.holding c (.proc p) then .error (.panic "sched p->lock")
    else if (s.cpu c).noff ≠ 1 then .error (.panic "sched locks")
    else if s.state p = .running then .error (.panic "sched running")
    else if (s.cpu c).sie then .error (.panic "sched interruptible")
    else .ok ((s.setContext p (some { code with pos := .restoring (s.cpu c).intena })).setLoc c (.sched (.back i)))
  | _, _ => .error .fault

def runThread (s : Sys) (c p : ℕ) (code : Code) : Except Stop Sys :=
  if code.pos = .free ∧ code.todo.head? = some .sched then sched s c { code with todo := code.todo.tail }
  else do
    let (s, code) ← exec s c code
    .ok (s.setLoc c (.thread p code))

/-! ### The scheduler -/

def scheduler (s : Sys) (c : ℕ) : SPos → Except Stop Sys
  | .top => .ok ((s.setSie c true).setLoc c (.sched (.scan 0 false)))
  | .scan i found =>
    if i < NPROC then .ok (s.setLoc c (.sched (.pushing i found (s.cpu c).sie)))
    else .ok (s.setLoc c (.sched (if found then .top else .idle)))
  | .pushing i found old =>
    let s := s.setCpu c ((s.cpu c).pushOff old)
    if s.holding c (.proc i) then .error (.panic "acquire") else .ok (s.setLoc c (.sched (.spinning i found)))
  | .spinning i found =>
    if (s.lock (.proc i)).locked then .error .blocked
    else .ok ((s.setLock (.proc i) ⟨true, some c⟩).setLoc c (.sched (.check i found)))
  | .check i found =>
    if s.state i = .runnable then
      .ok ((s.setState i .running).setCpu c { s.cpu c with proc := some i, loc := .sched (.chosen i) })
    else .ok (s.setLoc c (.sched (.release i found)))
  -- `swtch(&c->context, &p->context)`
  | .chosen i =>
    match s.context i with
    | some code => .ok ((s.setContext i none).setCpu c { s.cpu c with context := some i, loc := .thread i code })
    | none => .error .fault
  | .back i => .ok (s.setCpu c { s.cpu c with proc := none, loc := .sched (.release i true) })
  | .release i found =>
    if !s.holding c (.proc i) then .error (.panic "release")
    else .ok ((s.setLock (.proc i) {}).setLoc c (.sched (.popping i found)))
  | .popping i found => do .ok ((s.setCpu c (← (s.cpu c).popOff)).setLoc c (.sched (.scan (i + 1) found)))
  -- `wfi`
  | .idle => .ok ((s.setSie c true).setLoc c (.sched .top))

/-! ### Steps -/

/-- What code calls next. -/
inductive Call
  | one (op : Op)
  | yield
  | sleep (lk : Lk)

/-- The operations of a call, for the process `p` of the CPU. -/
def Call.ops : Option ℕ → Call → Option (List Op)
  | _, .one op => some [op]
  | some p, .yield => some [.acquire (.proc p), .setState p .runnable, .sched, .release (.proc p)]
  | some p, .sleep lk =>
    some [.acquire (.proc p), .release lk, .setState p .sleeping, .sched, .release (.proc p), .acquire lk]
  | none, _ => none

def Code.call (code : Code) (ops : List Op) : Option Code :=
  if code.pos = .free ∧ code.todo = [] then some { code with todo := ops } else none

/-- An interrupt puts the code aside, and its handler starts. -/
def Code.trap (code : Code) : Code :=
  { code with pos := .free, todo := [], frames := ⟨code.pos, code.todo⟩ :: code.frames }

/-- The handler is done: it has undone everything. -/
def Code.done (code : Code) : Bool := decide (code.pos = .free ∧ code.todo = [] ∧ code.depth = 0)

def Code.resume (code : Code) (f : Frame) (frames : List Frame) : Code :=
  { code with pos := f.pos, todo := f.todo, frames := frames }

inductive Act
  | run (c : ℕ)
  | call (c : ℕ) (k : Call)
  | trap (c : ℕ)
  | trapRet (c : ℕ)

/-- The new place of the CPU after an interrupt. -/
def Loc.trap : Loc → Loc
  | .sched pos => .handler pos {}
  | .handler pos code => .handler pos code.trap
  | .thread p code => .thread p code.trap

/-- And after the return from it. -/
def Loc.trapRet : Loc → Option Loc
  | .sched _ => none
  | .handler pos code =>
    if code.done then
      match code.frames with
      | [] => some (.sched pos)
      | f :: fs => some (.handler pos (code.resume f fs))
    else none
  | .thread p code =>
    if code.done then
      match code.frames with
      | [] => none
      | f :: fs => some (.thread p (code.resume f fs))
    else none

def Loc.call (ops : List Op) : Loc → Option Loc
  | .sched _ => none
  | .handler pos code => (code.call ops).map (.handler pos)
  | .thread p code => (code.call ops).map (.thread p)

def step (s : Sys) : Act → Except Stop (Sys × List Unit)
  | .run c =>
    match (s.cpu c).loc with
    | .sched pos => do .ok (← scheduler s c pos, [])
    | .handler pos code => do
      let (s, code) ← exec s c code
      .ok (s.setLoc c (.handler pos code), [])
    | .thread p code => do .ok (← runThread s c p code, [])
  | .call c k =>
    match (k.ops (s.cpu c).proc).bind fun ops => (s.cpu c).loc.call ops with
    | some l => .ok (s.setLoc c l, [])
    | none => .error .blocked
  | .trap c =>
    if (s.cpu c).sie then .ok ((s.setSie c false).setLoc c (s.cpu c).loc.trap, []) else .error .blocked
  | .trapRet c =>
    match (s.cpu c).loc.trapRet with
    | some l => .ok ((s.setSie c true).setLoc c l, [])
    | none => .error .blocked

/-- Every CPU enters `scheduler`, and init is ready to run. -/
def boot : Sys where
  cpu := fun _ => {}
  lock := fun _ => {}
  state := Function.update (fun _ => .unused) 0 .runnable
  context := Function.update (fun _ => none) 0 (some (forkret 0))

end Intr
end Xv6
