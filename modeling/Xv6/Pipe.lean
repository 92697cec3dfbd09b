/-
# Pipes

`kernel/pipe.c`: a ring of `PIPESIZE` bytes under two counters `nread` and
`nwrite` that are never reset and wrap modulo 2^32. Any number of calls of
`pipewrite`, `piperead` and `pipeclose` work on one pipe; a call holds
`pi->lock` except while it sleeps, so the system steps from one loop
iteration of the call that holds the lock to the next, and `kill` can land
between any two of them.

* `stream_integrity`: the bytes taken out are at every moment a prefix of the
  bytes put in, each `pipewrite` puts its buffer in in order, and at most
  `PIPESIZE` bytes are buffered. The counters' wrap is harmless because
  `PIPESIZE` divides 2^32 (`RingBuf.index_wrap`).

Key definitions: `step`, `Inv`.
-/
import Xv6.Basic
import Xv6.Trace
import Xv6.Ring

namespace Xv6
namespace Pipes

open TraceSys

def PIPESIZE : ℕ := 512

/-- `struct pipe`, without its lock. -/
structure Pipe where
  data : ℕ → UInt8
  nread : UInt32
  nwrite : UInt32
  readopen : Bool
  writeopen : Bool

/-- The two channels processes sleep on, `&pi->nread` and `&pi->nwrite`. -/
inductive Chan
  | nread
  | nwrite
  deriving DecidableEq

/-- A call on the pipe. `src i` is the byte at the user address `addr + i`,
`none` if `copyin` fails there; `dst i` says whether `copyout` to `addr + i`
succeeds. -/
inductive Call
  | pipewrite (src : ℕ → Option UInt8) (n : ℤ)
  | piperead (dst : ℕ → Bool) (n : ℤ)
  | pipeclose (writable : Bool)

/-- Where a call is. -/
inductive Pc
  | start               -- before `acquire(&pi->lock)`
  | write (i : ℕ)       -- `pipewrite`, at `while(i < n)`
  | writeSleep (i : ℕ)  -- in `sleep(&pi->nwrite, &pi->lock)`
  | readWait            -- `piperead`, at `while(pi->nread == pi->nwrite && pi->writeopen)`
  | readSleep           -- in `sleep(&pi->nread, &pi->lock)`
  | read (i : ℕ)        -- `piperead`, at `for(i = 0; i < n; i++)`
  | close               -- `pipeclose`, with the lock
  | ret (r : ℤ)
  deriving DecidableEq

/-- The process that makes a call. -/
structure Thread where
  pc : Pc
  sleeping : Bool
  killed : Bool

structure Sys where
  pi : Pipe
  lock : Option ℕ
  freed : Bool
  thr : ℕ → Thread

/-- A byte enters the ring (byte `i` of the buffer of call `t`), or leaves it. -/
inductive Ev
  | put (t i : ℕ) (ch : UInt8)
  | take (t : ℕ) (ch : UInt8)

def Pc.chan : Pc → Option Chan
  | .writeSleep _ => some .nwrite
  | .readSleep => some .nread
  | _ => none

/-- `pi->data[pi->nwrite++ % PIPESIZE] = ch`. -/
def Pipe.put (p : Pipe) (ch : UInt8) : Pipe :=
  { p with data := Function.update p.data (p.nwrite.toNat % PIPESIZE) ch, nwrite := p.nwrite + 1 }

/-- `ch = pi->data[pi->nread++ % PIPESIZE]`. -/
def Pipe.take (p : Pipe) : UInt8 × Pipe :=
  (p.data (p.nread.toNat % PIPESIZE), { p with nread := p.nread + 1 })

namespace Sys

def setPc (s : Sys) (t : ℕ) (pc : Pc) : Sys :=
  { s with thr := Function.update s.thr t { s.thr t with pc := pc } }

/-- `wakeup(chan)`: every process sleeping on the channel becomes runnable. -/
def wakeup (s : Sys) (c : Chan) : Sys :=
  { s with thr := fun t =>
      if (s.thr t).sleeping ∧ (s.thr t).pc.chan = some c then { s.thr t with sleeping := false }
      else s.thr t }

/-- `sleep(chan, &pi->lock)`: the lock is released and the process sleeps. -/
def sleep (s : Sys) (t : ℕ) (pc : Pc) : Sys :=
  { s with lock := none, thr := Function.update s.thr t { s.thr t with pc := pc, sleeping := true } }

/-- `release(&pi->lock); return r`. -/
def ret (s : Sys) (t : ℕ) (r : ℤ) : Sys := { s.setPc t (.ret r) with lock := none }

end Sys

/-- One iteration of the loop of `pipewrite`, or its end. -/
def pipewrite (s : Sys) (t : ℕ) (src : ℕ → Option UInt8) (n : ℤ) (i : ℕ) : Sys × List Ev :=
  if (i : ℤ) < n then
    if s.pi.readopen = false ∨ (s.thr t).killed = true then (s.ret t (-1), [])
    else if s.pi.nwrite = s.pi.nread + .ofNat PIPESIZE then
      ((s.wakeup .nread).sleep t (.writeSleep i), [])
    else
      match src i with
      | none => ((s.wakeup .nread).ret t i, [])
      | some ch => ({ s with pi := s.pi.put ch }.setPc t (.write (i + 1)), [.put t i ch])
  else ((s.wakeup .nread).ret t i, [])

/-- The loop of `piperead` that waits for a byte. -/
def pipereadWait (s : Sys) (t : ℕ) : Sys :=
  if s.pi.nread = s.pi.nwrite ∧ s.pi.writeopen = true then
    if (s.thr t).killed = true then s.ret t (-1) else s.sleep t .readSleep
  else s.setPc t (.read 0)

/-- One iteration of the copying loop of `piperead`, or its end. -/
def piperead (s : Sys) (t : ℕ) (dst : ℕ → Bool) (n : ℤ) (i : ℕ) : Sys × List Ev :=
  if (i : ℤ) < n then
    if s.pi.nread = s.pi.nwrite then ((s.wakeup .nwrite).ret t i, [])
    else
      let ch := s.pi.take.1
      let s1 := { s with pi := s.pi.take.2 }
      -- the byte has left the ring whether or not `copyout` takes it
      if dst i then (s1.setPc t (.read (i + 1)), [.take t ch])
      else ((s1.wakeup .nwrite).ret t i, [.take t ch])
  else ((s.wakeup .nwrite).ret t i, [])

/-- `pipeclose`, with the lock; the pipe is freed when both ends are closed. -/
def pipeclose (s : Sys) (t : ℕ) (writable : Bool) : Sys :=
  let s1 :=
    if writable then { s with pi := { s.pi with writeopen := false } }.wakeup .nread
    else { s with pi := { s.pi with readopen := false } }.wakeup .nwrite
  if s1.pi.readopen = false ∧ s1.pi.writeopen = false then { s1.ret t 0 with freed := true }
  else s1.ret t 0

inductive Act
  | acquire (t : ℕ)
  | run (t : ℕ)
  | kill (t : ℕ)

/-- The call `t` takes the free lock: it enters, or comes back from `sleep`. -/
def acquire (call : ℕ → Call) (s : Sys) (t : ℕ) : Except Stop (Sys × List Ev) :=
  if s.lock ≠ none ∨ s.freed = true ∨ (s.thr t).sleeping = true then .error .blocked
  else
    let enter (pc : Pc) := .ok ({ s.setPc t pc with lock := some t }, [])
    match (s.thr t).pc, call t with
    | .start, .pipewrite _ _ => enter (.write 0)
    | .start, .piperead _ _ => enter .readWait
    | .start, .pipeclose _ => enter .close
    | .writeSleep i, _ => enter (.write i)
    | .readSleep, _ => enter .readWait
    | _, _ => .error .blocked

/-- The call that holds the lock goes on by one iteration. -/
def runThread (call : ℕ → Call) (s : Sys) (t : ℕ) : Except Stop (Sys × List Ev) :=
  if s.lock ≠ some t then .error .blocked
  else
    match (s.thr t).pc, call t with
    | .write i, .pipewrite src n => .ok (pipewrite s t src n i)
    | .readWait, .piperead _ _ => .ok (pipereadWait s t, [])
    | .read i, .piperead dst n => .ok (piperead s t dst n i)
    | .close, .pipeclose w => .ok (pipeclose s t w, [])
    | _, _ => .error .blocked

/-- `kill`: the process is marked and, if it sleeps, made runnable. -/
def kill (s : Sys) (t : ℕ) : Sys :=
  { s with thr := Function.update s.thr t { s.thr t with killed := true, sleeping := false } }

def step (call : ℕ → Call) (s : Sys) : Act → Except Stop (Sys × List Ev)
  | .acquire t => acquire call s t
  | .run t => runThread call s t
  | .kill t => .ok (kill s t, [])

/-- The pipe as `pipealloc` leaves it, in a page full of junk; no call has begun. -/
def pipealloc (junk : ℕ → UInt8) : Sys :=
  { pi := ⟨junk, 0, 0, true, true⟩, lock := none, freed := false, thr := fun _ => ⟨.start, false, false⟩ }

/-! ### The stream -/

/-- The bytes put into the ring, in order. -/
def puts (tr : List Ev) : List UInt8 :=
  tr.filterMap fun e => match e with
    | .put _ _ ch => some ch
    | .take _ _ => none

/-- The bytes taken out of the ring, in order. -/
def takes (tr : List Ev) : List UInt8 :=
  tr.filterMap fun e => match e with
    | .put _ _ _ => none
    | .take _ ch => some ch

/-- The bytes call `t` put into the ring, in order. -/
def putsBy (t : ℕ) (tr : List Ev) : List UInt8 :=
  tr.filterMap fun e => match e with
    | .put u _ ch => if u = t then some ch else none
    | .take _ _ => none

/-- The buffer of a `pipewrite`. -/
def Call.src : Call → ℕ → Option UInt8
  | .pipewrite src _ => src
  | _ => fun _ => none

/-- The number of bytes a call has put in, where its place tells it. -/
def Pc.stored : Pc → Option ℕ
  | .start => some 0
  | .write i => some i
  | .writeSleep i => some i
  | _ => none

/-- What every state keeps, with the trace that led to it: the ring holds the
bytes put in and not yet taken out, the counters count both modulo 2^32, and
each call has put in a front part of its buffer. -/
structure Inv (call : ℕ → Call) (s : Sys) (tr : List Ev) : Prop where
  ring : ∃ q, puts tr = takes tr ++ q ∧ RingBuf.Holds PIPESIZE s.pi.data (takes tr).length q
  nread : s.pi.nread.toNat = (takes tr).length % 2 ^ 32
  nwrite : s.pi.nwrite.toNat = (puts tr).length % 2 ^ 32
  order : ∀ t, ∃ k, (putsBy t tr).map some = (List.range k).map (call t).src ∧
    ∀ i, (s.thr t).pc.stored = some i → k = i

/-- A change that leaves the ring alone and moves no call to a place that tells more. -/
structure Quiet (s s' : Sys) : Prop where
  data : s'.pi.data = s.pi.data
  nread : s'.pi.nread = s.pi.nread
  nwrite : s'.pi.nwrite = s.pi.nwrite
  stored : ∀ t i, (s'.thr t).pc.stored = some i → (s.thr t).pc.stored = some i

theorem Quiet.trans {s s' s'' : Sys} (h : Quiet s s') (h' : Quiet s' s'') : Quiet s s'' :=
  ⟨h'.data.trans h.data, h'.nread.trans h.nread, h'.nwrite.trans h.nwrite,
    fun t i hi => h.stored t i (h'.stored t i hi)⟩

theorem Inv.quiet {call : ℕ → Call} {s s' : Sys} {tr : List Ev} (h : Inv call s tr) (hq : Quiet s s') :
    Inv call s' tr where
  ring := by rw [hq.data]; exact h.ring
  nread := by rw [hq.nread]; exact h.nread
  nwrite := by rw [hq.nwrite]; exact h.nwrite
  order := fun t => by
    obtain ⟨k, hk, hi⟩ := h.order t
    exact ⟨k, hk, fun i h' => hi i (hq.stored t i h')⟩

/-- A call moves to a place that tells no more than the one it was at. -/
theorem quiet_setPc {s : Sys} {t : ℕ} {pc : Pc} (h : ∀ i, pc.stored = some i → (s.thr t).pc.stored = some i) :
    Quiet s (s.setPc t pc) := by
  refine ⟨rfl, rfl, rfl, fun u i hi => ?_⟩
  by_cases hu : u = t
  · subst hu
    simp only [Sys.setPc, Function.update_self] at hi
    exact h i hi
  · simpa only [Sys.setPc, Function.update_of_ne hu] using hi

theorem quiet_wakeup (s : Sys) (c : Chan) : Quiet s (s.wakeup c) := by
  refine ⟨rfl, rfl, rfl, fun t i hi => ?_⟩
  simp only [Sys.wakeup] at hi
  split at hi <;> exact hi

theorem quiet_ret (s : Sys) (t : ℕ) (r : ℤ) : Quiet s (s.ret t r) := by
  have h : Quiet s (s.setPc t (.ret r)) := quiet_setPc fun i hi => by simp [Pc.stored] at hi
  exact ⟨h.data, h.nread, h.nwrite, h.stored⟩

theorem quiet_sleep {s : Sys} {t : ℕ} {pc : Pc} (h : ∀ i, pc.stored = some i → (s.thr t).pc.stored = some i) :
    Quiet s (s.sleep t pc) := by
  refine ⟨rfl, rfl, rfl, fun u i hi => ?_⟩
  by_cases hu : u = t
  · subst hu
    simp only [Sys.sleep, Function.update_self] at hi
    exact h i hi
  · simpa only [Sys.sleep, Function.update_of_ne hu] using hi

/-- The ring is full exactly when the write counter is `PIPESIZE` ahead. -/
theorem Inv.lt_of_not_full {call : ℕ → Call} {s : Sys} {tr : List Ev} (h : Inv call s tr)
    (hf : s.pi.nwrite ≠ s.pi.nread + .ofNat PIPESIZE) {q : List UInt8} (hq : puts tr = takes tr ++ q)
    (hlen : q.length ≤ PIPESIZE) : q.length < PIPESIZE := by
  refine lt_of_le_of_ne hlen fun he => hf (UInt32.toNat_inj.mp ?_)
  have hw := h.nwrite
  rw [hq, List.length_append, he] at hw
  have hsz : (UInt32.ofNat PIPESIZE).toNat = 512 := rfl
  rw [hw, UInt32.toNat_add, h.nread, hsz, PIPESIZE]
  omega

/-- The ring is empty only when the counters agree. -/
theorem Inv.ne_nil {call : ℕ → Call} {s : Sys} {tr : List Ev} (h : Inv call s tr)
    (hne : s.pi.nread ≠ s.pi.nwrite) {q : List UInt8} (hq : puts tr = takes tr ++ q) : q ≠ [] := by
  rintro rfl
  refine hne (UInt32.toNat_inj.mp ?_)
  rw [h.nread, h.nwrite, hq, List.append_nil]

/-- Call `t` puts byte `i` of its buffer into a ring that is not full. -/
theorem Inv.put {call : ℕ → Call} {s : Sys} {tr : List Ev} (h : Inv call s tr) {t i : ℕ} {ch : UInt8}
    (hpc : (s.thr t).pc = .write i) (hsrc : (call t).src i = some ch)
    (hf : s.pi.nwrite ≠ s.pi.nread + .ofNat PIPESIZE) :
    Inv call ({ s with pi := s.pi.put ch }.setPc t (.write (i + 1))) (tr ++ [.put t i ch]) := by
  obtain ⟨q, hq, hr⟩ := h.ring
  have hputs : puts (tr ++ [.put t i ch]) = puts tr ++ [ch] := by simp [puts]
  have htakes : takes (tr ++ [.put t i ch]) = takes tr := by simp [takes]
  have hidx : s.pi.nwrite.toNat % PIPESIZE = ((takes tr).length + q.length) % PIPESIZE := by
    rw [h.nwrite, RingBuf.index_wrap (by decide : PIPESIZE ∣ 2 ^ 32), hq, List.length_append]
  refine ⟨⟨q ++ [ch], ?_, ?_⟩, ?_, ?_, fun u => ?_⟩
  · rw [hputs, htakes, hq, List.append_assoc]
  · rw [htakes]
    simp only [Sys.setPc, Pipe.put]
    rw [hidx]
    exact hr.push (h.lt_of_not_full hf hq hr.fits) ch
  · rw [htakes]
    exact h.nread
  · rw [hputs, List.length_append, List.length_singleton]
    simp only [Sys.setPc, Pipe.put, UInt32.toNat_add, h.nwrite]
    simp
  · obtain ⟨k, hk, hi⟩ := h.order u
    by_cases hu : u = t
    · subst hu
      -- the place of the call says that it has put in exactly `i` bytes
      obtain rfl : k = i := hi i (by rw [hpc]; rfl)
      refine ⟨k + 1, ?_, fun j hj => ?_⟩
      · have : putsBy u (tr ++ [.put u k ch]) = putsBy u tr ++ [ch] := by simp [putsBy]
        rw [this, List.map_append, hk, List.range_succ, List.map_append, List.map_singleton,
          List.map_singleton, hsrc]
      · simpa [Sys.setPc, Pc.stored] using hj
    · refine ⟨k, ?_, fun j hj => hi j ?_⟩
      · have : putsBy u (tr ++ [.put t i ch]) = putsBy u tr := by simp [putsBy, Ne.symm hu]
        rw [this, hk]
      · simpa [Sys.setPc, hu] using hj

/-- A byte leaves a ring that is not empty. -/
theorem Inv.take {call : ℕ → Call} {s : Sys} {tr : List Ev} (h : Inv call s tr) (t : ℕ)
    (hne : s.pi.nread ≠ s.pi.nwrite) :
    Inv call { s with pi := s.pi.take.2 } (tr ++ [.take t s.pi.take.1]) := by
  obtain ⟨q, hq, hr⟩ := h.ring
  obtain ⟨x, q, rfl⟩ := List.exists_cons_of_ne_nil (h.ne_nil hne hq)
  obtain ⟨hx, hr'⟩ := hr.pop
  have hch : s.pi.take.1 = x := by
    rw [← hx, Pipe.take, h.nread, RingBuf.index_wrap (by decide : PIPESIZE ∣ 2 ^ 32)]
  have hputs : puts (tr ++ [.take t s.pi.take.1]) = puts tr := by simp [puts]
  have htakes : takes (tr ++ [.take t s.pi.take.1]) = takes tr ++ [x] := by simp [takes, hch]
  refine ⟨⟨q, ?_, ?_⟩, ?_, ?_, fun u => ?_⟩
  · rw [hputs, htakes, hq, List.append_assoc, List.singleton_append]
  · rw [htakes, List.length_append, List.length_singleton]
    exact hr'
  · rw [htakes, List.length_append, List.length_singleton]
    simp only [Pipe.take, UInt32.toNat_add, h.nread]
    simp
  · rw [hputs]
    exact h.nwrite
  · have : putsBy u (tr ++ [.take t s.pi.take.1]) = putsBy u tr := by simp [putsBy]
    rw [this]
    exact h.order u

theorem inv_pipewrite {call : ℕ → Call} {s s' : Sys} {tr tr' : List Ev} {t i : ℕ}
    {src : ℕ → Option UInt8} {n : ℤ} (h : Inv call s tr) (hc : call t = .pipewrite src n)
    (hpc : (s.thr t).pc = .write i) (he : pipewrite s t src n i = (s', tr')) : Inv call s' (tr ++ tr') := by
  have hend : Inv call ((s.wakeup .nread).ret t i) tr := h.quiet ((quiet_wakeup s .nread).trans (quiet_ret _ t i))
  unfold pipewrite at he
  split at he
  · split at he
    · obtain ⟨rfl, rfl⟩ := Prod.mk.inj he
      simpa using h.quiet (quiet_ret s t (-1))
    · split at he
      · obtain ⟨rfl, rfl⟩ := Prod.mk.inj he
        have hw := quiet_wakeup s .nread
        have hpc' : ((s.wakeup .nread).thr t).pc = .write i := by
          rw [← hpc]; simp only [Sys.wakeup]; split <;> rfl
        simpa using h.quiet (hw.trans (quiet_sleep fun j hj => by rw [hpc']; exact hj))
      · rename_i hnf
        split at he
        · obtain ⟨rfl, rfl⟩ := Prod.mk.inj he
          simpa using hend
        · rename_i ch hch
          obtain ⟨rfl, rfl⟩ := Prod.mk.inj he
          exact h.put hpc (by rw [hc]; exact hch) hnf
  · obtain ⟨rfl, rfl⟩ := Prod.mk.inj he
    simpa using hend

theorem inv_pipereadWait {call : ℕ → Call} {s : Sys} {tr : List Ev} (t : ℕ) (h : Inv call s tr) :
    Inv call (pipereadWait s t) tr := by
  unfold pipereadWait
  split
  · split
    · exact h.quiet (quiet_ret s t (-1))
    · exact h.quiet (quiet_sleep fun j hj => by simp [Pc.stored] at hj)
  · exact h.quiet (quiet_setPc fun j hj => by simp [Pc.stored] at hj)

theorem inv_piperead {call : ℕ → Call} {s s' : Sys} {tr tr' : List Ev} {t i : ℕ} {dst : ℕ → Bool} {n : ℤ}
    (h : Inv call s tr) (he : piperead s t dst n i = (s', tr')) : Inv call s' (tr ++ tr') := by
  have hend : Inv call ((s.wakeup .nwrite).ret t i) tr :=
    h.quiet ((quiet_wakeup s .nwrite).trans (quiet_ret _ t i))
  unfold piperead at he
  split at he
  · split at he
    · obtain ⟨rfl, rfl⟩ := Prod.mk.inj he
      simpa using hend
    · rename_i hne
      have ht := h.take t hne
      simp only at he
      split at he
      · obtain ⟨rfl, rfl⟩ := Prod.mk.inj he
        exact ht.quiet (quiet_setPc fun j hj => by simp [Pc.stored] at hj)
      · obtain ⟨rfl, rfl⟩ := Prod.mk.inj he
        exact ht.quiet ((quiet_wakeup _ .nwrite).trans (quiet_ret _ t i))
  · obtain ⟨rfl, rfl⟩ := Prod.mk.inj he
    simpa using hend

theorem inv_pipeclose {call : ℕ → Call} {s : Sys} {tr : List Ev} (t : ℕ) (w : Bool) (h : Inv call s tr) :
    Inv call (pipeclose s t w) tr := by
  have hr : ∀ s1 : Sys, Inv call s1 tr →
      Inv call (if s1.pi.readopen = false ∧ s1.pi.writeopen = false then { s1.ret t 0 with freed := true }
        else s1.ret t 0) tr := by
    intro s1 h1
    have h2 := h1.quiet (quiet_ret s1 t 0)
    split
    · exact h2.quiet ⟨rfl, rfl, rfl, fun _ _ hi => hi⟩
    · exact h2
  unfold pipeclose
  refine hr _ ?_
  split
  · have hq : Quiet s { s with pi := { s.pi with writeopen := false } } := ⟨rfl, rfl, rfl, fun _ _ hi => hi⟩
    exact h.quiet (hq.trans (quiet_wakeup _ .nread))
  · have hq : Quiet s { s with pi := { s.pi with readopen := false } } := ⟨rfl, rfl, rfl, fun _ _ hi => hi⟩
    exact h.quiet (hq.trans (quiet_wakeup _ .nwrite))

theorem inv_acquire {call : ℕ → Call} {s s' : Sys} {tr tr' : List Ev} {t : ℕ} (h : Inv call s tr)
    (he : acquire call s t = .ok (s', tr')) : Inv call s' (tr ++ tr') := by
  have henter : ∀ pc : Pc, (∀ i, pc.stored = some i → (s.thr t).pc.stored = some i) →
      Inv call { s.setPc t pc with lock := some t } tr := fun pc hpc =>
    (h.quiet (quiet_setPc hpc)).quiet ⟨rfl, rfl, rfl, fun _ _ hi => hi⟩
  unfold acquire at he
  split at he
  · simp at he
  · split at he <;> simp only [Except.ok.injEq, Prod.mk.injEq, reduceCtorEq] at he <;>
      obtain ⟨rfl, rfl⟩ := he <;> rw [List.append_nil] <;> refine henter _ fun j hj => ?_ <;>
      simp_all [Pc.stored]

theorem inv_step {call : ℕ → Call} {s s' : Sys} {tr tr' : List Ev} {a : Act} (h : Inv call s tr)
    (he : step call s a = .ok (s', tr')) : Inv call s' (tr ++ tr') := by
  cases a with
  | acquire t => exact inv_acquire h he
  | kill t =>
    simp only [step, Except.ok.injEq, Prod.mk.injEq] at he
    obtain ⟨rfl, rfl⟩ := he
    rw [List.append_nil]
    refine h.quiet ⟨rfl, rfl, rfl, fun u i hi => ?_⟩
    by_cases hu : u = t
    · subst hu; simpa [kill] using hi
    · simpa [kill, hu] using hi
  | run t =>
    simp only [step, runThread] at he
    split at he
    · simp at he
    · split at he
      · rename_i i src n hpc hc
        exact inv_pipewrite h hc hpc (Except.ok.inj he)
      · obtain ⟨rfl, rfl⟩ := Prod.mk.inj (Except.ok.inj he)
        rw [List.append_nil]
        exact inv_pipereadWait t h
      · exact inv_piperead h (Except.ok.inj he)
      · obtain ⟨rfl, rfl⟩ := Prod.mk.inj (Except.ok.inj he)
        rw [List.append_nil]
        exact inv_pipeclose t _ h
      · simp at he

theorem inv_pipealloc (call : ℕ → Call) (junk : ℕ → UInt8) : Inv call (pipealloc junk) [] where
  ring := ⟨[], rfl, .nil _ _⟩
  nread := rfl
  nwrite := rfl
  order := fun t => ⟨0, rfl, fun i hi => by simpa [pipealloc, Pc.stored] using hi⟩

/-- **The pipe is a queue of bytes.** In every run of any number of calls, the
bytes taken out are a front part of the bytes put in, each call has put in a
front part of its buffer in order, and the counters' distance modulo 2^32 is
the number of bytes in between, at most `PIPESIZE`. -/
theorem stream_integrity (call : ℕ → Call) (junk : ℕ → UInt8) (as : List Act) (s : Sys) (tr : List Ev)
    (h : run (step call) (pipealloc junk) as = .ok (s, tr)) :
    takes tr <+: puts tr ∧
      (∀ t, ∃ k, (putsBy t tr).map some = (List.range k).map (call t).src) ∧
      (s.pi.nwrite - s.pi.nread).toNat = (puts tr).length - (takes tr).length ∧
      (s.pi.nwrite - s.pi.nread).toNat ≤ PIPESIZE := by
  have hI : Inv call s tr := run_inv (inv_pipealloc call junk) (fun _ _ _ _ _ => inv_step) h
  obtain ⟨q, hq, hr⟩ := hI.ring
  have hfit : q.length ≤ 512 := hr.fits
  have hdist : (s.pi.nwrite - s.pi.nread).toNat = q.length := by
    rw [UInt32.toNat_sub, hI.nwrite, hI.nread, hq, List.length_append, Nat.add_comm]
    exact RingBuf.sub_wrap (by omega)
  refine ⟨⟨q, hq.symm⟩, fun t => ?_, ?_, hdist ▸ hr.fits⟩
  · obtain ⟨k, hk, -⟩ := hI.order t
    exact ⟨k, hk⟩
  · rw [hdist, hq, List.length_append, Nat.add_sub_cancel_left]

/-- Call 0 writes the two bytes of `hi`, every other call reads one byte. -/
def hiCall (t : ℕ) : Call :=
  if t = 0 then .pipewrite (fun i => [104, 105][i]?) 2 else .piperead (fun _ => true) 1

/-- The reader enters first, sleeps on the empty pipe, and is woken by the writer. -/
def hiRun : List Act :=
  [.acquire 1, .run 1, .acquire 0, .run 0, .run 0, .run 0, .acquire 1, .run 1, .run 1, .run 1]

theorem stream_integrity_hi : ∃ s tr, run (step hiCall) (pipealloc fun _ => 5) hiRun = .ok (s, tr) ∧
    takes tr = [104] ∧ takes tr <+: puts tr ∧ (s.pi.nwrite - s.pi.nread).toNat ≤ PIPESIZE := by
  refine ⟨_, _, rfl, rfl, ?_⟩
  have h := stream_integrity hiCall (fun _ => 5) hiRun _ _ rfl
  exact ⟨h.1, h.2.2.2⟩

end Pipes
end Xv6
