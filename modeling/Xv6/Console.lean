/-
# The console

`consoleintr` and `consoleread` of `kernel/console.c`: a ring of 128 bytes under three counters
that wrap modulo 2^32. The interrupt handler moves `e`, back too when the line is edited, and
commits a line by moving `w` there; readers move `r`. A call of `consoleread` holds `cons.lock`
from one `sleep` to the next, so a step of a reader is all that it does until it sleeps or
returns. Readers are not killed and their copies to user memory succeed.

The device is a parameter of the system of calls (`Device`): with the ring it is the model of
the code, with two lists of bytes, the committed ones and the pending line, it is what the
console is for. The first one does what the second does (`console_is_queue`).

Key definitions: `Console.consoleintr`, `Console.readLoop`, `Console.Line`, `Console.step`, `Console.Shows`.
Key theorems: `Console.shows_intr`, `Console.shows_read`, `Console.console_is_queue`.
-/
import Mathlib.Data.List.Basic
import Xv6.Basic
import Xv6.Ring
import Xv6.Trace

namespace Xv6
namespace Console

open TraceSys

def INPUT_BUF_SIZE : ℕ := 128

/-- `C('P')`. -/
def ctrlP : UInt8 := 16
/-- `C('U')`. -/
def ctrlU : UInt8 := 21
/-- `C('H')`. -/
def ctrlH : UInt8 := 8
/-- `C('D')`. -/
def ctrlD : UInt8 := 4
/-- `'\x7f'`. -/
def del : UInt8 := 0x7f
/-- `'\r'`. -/
def cr : UInt8 := 13
/-- `'\n'`. -/
def newline : UInt8 := 10

/-! ### The code -/

/-- `cons`, without its lock. -/
structure Cons where
  buf : ℕ → UInt8
  r : UInt32
  w : UInt32
  e : UInt32

/-- `cons.buf[i % INPUT_BUF_SIZE]`. -/
def Cons.at (s : Cons) (i : UInt32) : UInt8 := s.buf (i.toNat % INPUT_BUF_SIZE)

/-- The loop of `^U`, which goes round at most `cons.e - cons.w` times. -/
def killLine : ℕ → Cons → Cons
  | 0, s => s
  | f + 1, s => if s.e ≠ s.w ∧ s.at (s.e - 1) ≠ newline then killLine f { s with e := s.e - 1 } else s

/-- The new state, and whether readers are woken up. The echo and the process list are left
out. -/
def consoleintr (c : UInt8) (s : Cons) : Cons × Bool :=
  if c = ctrlP then (s, false)
  else if c = ctrlU then (killLine (s.e - s.w).toNat s, false)
  else if c = ctrlH ∨ c = del then (if s.e ≠ s.w then { s with e := s.e - 1 } else s, false)
  else if c ≠ 0 ∧ (s.e - s.r).toNat < INPUT_BUF_SIZE then
    let c := if c = cr then newline else c
    let s := { s with buf := Function.update s.buf (s.e.toNat % INPUT_BUF_SIZE) c, e := s.e + 1 }
    if c = newline ∨ c = ctrlD ∨ (s.e - s.r).toNat = INPUT_BUF_SIZE then ({ s with w := s.e }, true)
    else (s, false)
  else (s, false)

/-- The loop of `consoleread` with `n` bytes to go: the bytes that it copies, and whether it
returns. Otherwise it sleeps. -/
def readLoop (target : ℕ) : ℕ → Cons → Cons × List UInt8 × Bool
  | 0, s => (s, [], true)
  | n + 1, s =>
    if s.r = s.w then (s, [], false)
    else
      let c := s.at s.r
      let s := { s with r := s.r + 1 }
      if c = ctrlD then (if n + 1 < target then { s with r := s.r - 1 } else s, [], true)
      else if c = newline then (s, [c], true)
      else
        let out := readLoop target n s
        (out.1, c :: out.2.1, out.2.2)

/-! ### The queue -/

/-- What the console is for: bytes that can be read, and a line that can be edited. -/
structure Line where
  committed : List UInt8
  pending : List UInt8

namespace Line

/-- The number of bytes held. -/
def held (q : Line) : ℕ := q.committed.length + q.pending.length

/-- The line can be read. -/
def commit (q : Line) : Line := ⟨q.committed ++ q.pending, []⟩

def append (q : Line) (c : UInt8) : Line := { q with pending := q.pending ++ [c] }

/-- A character is typed. -/
def intr (c : UInt8) (q : Line) : Line × Bool :=
  if c = ctrlP then (q, false)
  else if c = ctrlU then ({ q with pending := [] }, false)
  else if c = ctrlH ∨ c = del then ({ q with pending := q.pending.dropLast }, false)
  else if c = 0 ∨ q.held = INPUT_BUF_SIZE then (q, false)
  else
    let c := if c = cr then newline else c
    let q := q.append c
    if c = newline ∨ c = ctrlD ∨ q.held = INPUT_BUF_SIZE then (q.commit, true) else (q, false)

/-- The bytes up to a newline, and before any `^D`. -/
def upTo : List UInt8 → List UInt8
  | [] => []
  | c :: q => if c = ctrlD then [] else if c = newline then [c] else c :: upTo q

/-- A reader that has `n` bytes of `target` to go takes the next bytes. It returns after `n` bytes or a
newline, or before a `^D`, which it takes if it is the first; otherwise it waits for more. -/
def read (target n : ℕ) (q : Line) : Line × List UInt8 × Bool :=
  let b := (upTo q.committed).take n
  let rest := q.committed.drop b.length
  if b.length = n ∨ b.getLast? = some newline then ({ q with committed := rest }, b, true)
  else if rest.head? = some ctrlD then
    ({ q with committed := if b = [] ∧ n = target then rest.tail else rest }, b, true)
  else ({ q with committed := rest }, b, false)

end Line

/-! ### The calls -/

/-- What a console does with a character, and with a reader that has so many bytes to go of what
it asked for. -/
structure Device (σ : Type) where
  intr : UInt8 → σ → σ × Bool
  read : ℕ → ℕ → σ → σ × List UInt8 × Bool

def console : Device Cons := ⟨consoleintr, readLoop⟩

def queue : Device Line := ⟨Line.intr, Line.read⟩

inductive Status
  | ready
  | asleep
  | done
  deriving DecidableEq

/-- A call of `consoleread` for `target` bytes, with those it has. -/
structure Call where
  target : ℕ
  got : List UInt8
  status : Status

/-- `wakeup(&cons.r)`, for one of the readers. -/
def Call.wake (c : Call) : Call := if c.status = .asleep then { c with status := .ready } else c

structure Sys (σ : Type) where
  dev : σ
  calls : ℕ → Option Call

inductive Act
  | intr (c : UInt8)
  /-- `t` calls `consoleread` for `n` bytes. -/
  | call (t : ℕ) (n : ℤ)
  /-- `t` runs until it sleeps or returns. -/
  | go (t : ℕ)

/-- The reader `t` has taken bytes, and has returned or not. -/
structure Ev where
  t : ℕ
  bytes : List UInt8
  done : Bool
  deriving DecidableEq

def Call.after (c : Call) (b : List UInt8) (done : Bool) : Call :=
  { c with got := c.got ++ b, status := if done then .done else .asleep }

variable {σ : Type}

def goStep (D : Device σ) (s : Sys σ) (t : ℕ) (c : Call) : Except Stop (Sys σ × List Ev) :=
  if c.status = .ready then
    let r := D.read c.target (c.target - c.got.length) s.dev
    .ok (⟨r.1, Function.update s.calls t (some (c.after r.2.1 r.2.2))⟩, [⟨t, r.2.1, r.2.2⟩])
  else .error .blocked

def step (D : Device σ) (s : Sys σ) : Act → Except Stop (Sys σ × List Ev)
  | .intr c =>
    let r := D.intr c s.dev
    .ok (⟨r.1, if r.2 then fun t => (s.calls t).map Call.wake else s.calls⟩, [])
  | .call t n =>
    if (s.calls t).all fun c => c.status = .done then
      .ok ({ s with calls := Function.update s.calls t (some ⟨n.toNat, [], .ready⟩) }, [])
    else .error .blocked
  | .go t => (s.calls t).elim (.error .blocked) (goStep D s t)

/-- The ring is empty and there is no call. -/
def boot (buf : ℕ → UInt8) : Sys Cons := ⟨⟨buf, 0, 0, 0⟩, fun _ => none⟩

/-- The same, for the queue. -/
def empty : Sys Line := ⟨⟨[], []⟩, fun _ => none⟩

/-! ### The ring holds the queue -/

/-- The bytes from `r` to `w` are the committed ones, those from `w` to `e` the pending line. -/
structure Shows (s : Cons) (q : Line) : Prop where
  w : s.w = s.r + UInt32.ofNat q.committed.length
  e : s.e = s.r + UInt32.ofNat q.held
  /-- There are at most 128 bytes, and none of them is overwritten. -/
  holds : RingBuf.Holds INPUT_BUF_SIZE s.buf s.r.toNat (q.committed ++ q.pending)
  /-- The pending line has no newline: it would have been committed. -/
  open_ : newline ∉ q.pending

variable {s : Cons} {q : Line}

theorem Shows.held_le (h : Shows s q) : q.held ≤ INPUT_BUF_SIZE := by
  rw [Line.held, ← List.length_append]
  exact h.holds.fits

theorem toNat_ofNat_small {n : ℕ} (h : n ≤ INPUT_BUF_SIZE) : (UInt32.ofNat n).toNat = n := by
  rw [UInt32.toNat_ofNat']
  exact Nat.mod_eq_of_lt (Nat.lt_of_le_of_lt h (by decide))

theorem ofNat_inj {m n : ℕ} (hm : m ≤ INPUT_BUF_SIZE) (hn : n ≤ INPUT_BUF_SIZE) :
    UInt32.ofNat m = UInt32.ofNat n ↔ m = n := by
  rw [← UInt32.toNat_inj, toNat_ofNat_small hm, toNat_ofNat_small hn]

/-- The distance of `e` from `r` is the number of bytes held. -/
theorem Shows.size (h : Shows s q) : (s.e - s.r).toNat = q.held := by
  rw [h.e, UInt32.add_comm, UInt32.add_sub_cancel]
  exact toNat_ofNat_small h.held_le

/-- The byte that the counter `i` bytes after `r` addresses. -/
theorem Shows.at_eq (h : Shows s q) {i : ℕ} (hi : i < (q.committed ++ q.pending).length) :
    s.at (s.r + UInt32.ofNat i) = (q.committed ++ q.pending).get ⟨i, hi⟩ := by
  have hle : i ≤ INPUT_BUF_SIZE := Nat.le_of_lt (Nat.lt_of_lt_of_le hi h.holds.fits)
  rw [Cons.at, UInt32.toNat_add, toNat_ofNat_small hle, RingBuf.index_wrap (by decide : INPUT_BUF_SIZE ∣ 2 ^ 32)]
  exact h.holds.cell i hi

/-! ### Editing -/

theorem Shows.e_eq_w (h : Shows s q) : s.e = s.w ↔ q.pending = [] := by
  have hle := h.held_le
  rw [Line.held] at hle
  rw [h.e, h.w, UInt32.add_right_inj, ofNat_inj h.held_le (by omega), Line.held, ← List.length_eq_zero_iff]
  omega

theorem ofNat_succ_sub (r : UInt32) (k : ℕ) : r + UInt32.ofNat (k + 1) - 1 = r + UInt32.ofNat k := by
  rw [UInt32.ofNat_add, ← UInt32.add_assoc]
  exact UInt32.add_sub_cancel _ _

/-- The last byte of the line is taken back. -/
theorem Shows.back {p : List UInt8} {c : UInt8} (h : Shows s q) (hp : q.pending = p ++ [c]) :
    s.at (s.e - 1) = c ∧ Shows { s with e := s.e - 1 } { q with pending := p } := by
  have hheld : q.held = q.committed.length + p.length + 1 := by
    rw [Line.held, hp, List.length_append, List.length_singleton, Nat.add_assoc]
  have he : s.e - 1 = s.r + UInt32.ofNat (q.committed.length + p.length) := by
    rw [h.e, hheld]
    exact ofNat_succ_sub _ _
  refine ⟨?_, h.w, he, ?_, fun hm => h.open_ (hp ▸ List.mem_append_left _ hm)⟩
  · have hi : q.committed.length + p.length < (q.committed ++ q.pending).length := by
      rw [List.length_append, ← Line.held, hheld]
      omega
    rw [he, h.at_eq hi]
    simp [hp]
  · have hholds := h.holds
    rw [hp, ← List.append_assoc] at hholds
    exact hholds.of_append

theorem Shows.e_sub_w (h : Shows s q) : (s.e - s.w).toNat = q.pending.length := by
  have hle := h.held_le
  rw [Line.held] at hle
  have he : s.e = s.w + UInt32.ofNat q.pending.length := by
    rw [h.e, h.w, Line.held, UInt32.ofNat_add, UInt32.add_assoc]
  rw [he, UInt32.add_comm, UInt32.add_sub_cancel]
  exact toNat_ofNat_small (by omega)

/-- `^U` takes back the whole line: there is no newline in it at which it would stop. -/
theorem shows_killLine {f : ℕ} (h : Shows s q) (hf : q.pending.length = f) :
    Shows (killLine f s) { q with pending := [] } := by
  induction f generalizing s q with
  | zero =>
    rw [killLine, ← List.length_eq_zero_iff.mp hf]
    exact h
  | succ f ih =>
    rcases List.eq_nil_or_concat' q.pending with hnil | ⟨p, c, hp⟩
    · rw [hnil] at hf
      cases hf
    · have hne : s.e ≠ s.w := fun he => by
        rw [h.e_eq_w.mp he] at hf
        cases hf
      obtain ⟨hc, hback⟩ := h.back hp
      have hnl : s.at (s.e - 1) ≠ newline := by
        rw [hc]
        rintro rfl
        exact h.open_ (hp ▸ List.mem_append_right _ List.mem_cons_self)
      rw [killLine, if_pos ⟨hne, hnl⟩]
      rw [hp, List.length_append] at hf
      exact ih (q := { q with pending := p }) hback (Nat.succ.inj hf)

theorem held_append (q : Line) (c : UInt8) : (q.append c).held = q.held + 1 := by
  rw [Line.held, Line.append, List.length_append, Line.held, Nat.add_assoc]
  rfl

/-- The store at `e` appends to the line. -/
theorem Shows.store (h : Shows s q) (hlt : q.held < INPUT_BUF_SIZE) (c : UInt8) :
    RingBuf.Holds INPUT_BUF_SIZE (Function.update s.buf (s.e.toNat % INPUT_BUF_SIZE) c) s.r.toNat
        (q.committed ++ (q.append c).pending) ∧
      s.e + 1 = s.r + UInt32.ofNat (q.append c).held := by
  have hlen : (q.committed ++ q.pending).length = q.held := List.length_append
  constructor
  · have hidx : s.e.toNat % INPUT_BUF_SIZE = (s.r.toNat + (q.committed ++ q.pending).length) % INPUT_BUF_SIZE := by
      rw [hlen, h.e, UInt32.toNat_add, toNat_ofNat_small h.held_le,
        RingBuf.index_wrap (by decide : INPUT_BUF_SIZE ∣ 2 ^ 32)]
    rw [hidx, Line.append, ← List.append_assoc]
    exact h.holds.push (by omega) c
  · rw [h.e, held_append, UInt32.ofNat_add, UInt32.add_assoc]
    rfl

/-- **A character is typed.** -/
theorem shows_intr (h : Shows s q) (c : UInt8) :
    Shows (consoleintr c s).1 (q.intr c).1 ∧ (consoleintr c s).2 = (q.intr c).2 := by
  rw [consoleintr, Line.intr]
  by_cases hP : c = ctrlP
  · rw [if_pos hP, if_pos hP]
    exact ⟨h, rfl⟩
  rw [if_neg hP, if_neg hP]
  by_cases hU : c = ctrlU
  · rw [if_pos hU, if_pos hU]
    exact ⟨shows_killLine h h.e_sub_w.symm, rfl⟩
  rw [if_neg hU, if_neg hU]
  by_cases hH : c = ctrlH ∨ c = del
  · rw [if_pos hH, if_pos hH]
    refine ⟨?_, rfl⟩
    dsimp only
    rcases List.eq_nil_or_concat' q.pending with hnil | ⟨p, x, hp⟩
    · rw [if_neg (not_not.mpr (h.e_eq_w.mpr hnil)), hnil, List.dropLast_nil, ← hnil]
      exact h
    · have hne : s.e ≠ s.w := fun he => by
        rw [h.e_eq_w.mp he] at hp
        simp at hp
      rw [if_pos hne, hp, List.dropLast_concat]
      exact (h.back hp).2
  rw [if_neg hH, if_neg hH, h.size]
  have hle := h.held_le
  by_cases hfull : c = 0 ∨ q.held = INPUT_BUF_SIZE
  · have hno : ¬ (c ≠ 0 ∧ q.held < INPUT_BUF_SIZE) := by
      rintro ⟨h0, hlt⟩
      exact hfull.elim h0 (Nat.ne_of_lt hlt)
    rw [if_neg hno, if_pos hfull]
    exact ⟨h, rfl⟩
  obtain ⟨h0, hne⟩ := not_or.mp hfull
  have hlt : q.held < INPUT_BUF_SIZE := Nat.lt_of_le_of_ne hle hne
  rw [if_pos ⟨h0, hlt⟩, if_neg hfull]
  generalize (if c = cr then newline else c) = b
  obtain ⟨hholds, he⟩ := h.store hlt b
  have hsize : (s.e + 1 - s.r).toNat = (q.append b).held := by
    rw [he, UInt32.add_comm, UInt32.add_sub_cancel]
    exact toNat_ofNat_small (by rw [held_append]; omega)
  dsimp only
  rw [hsize]
  by_cases hcommit : b = newline ∨ b = ctrlD ∨ (q.append b).held = INPUT_BUF_SIZE
  · rw [if_pos hcommit, if_pos hcommit]
    refine ⟨⟨?_, ?_, ?_, List.not_mem_nil⟩, rfl⟩
    · show s.e + 1 = _
      rw [he, Line.held, ← List.length_append]
      rfl
    · show s.e + 1 = _
      rw [he, Line.held, Line.held, ← List.length_append]
      rfl
    · rw [Line.commit, List.append_nil]
      exact hholds
  · rw [if_neg hcommit, if_neg hcommit]
    refine ⟨⟨h.w, he, hholds, fun hm => ?_⟩, rfl⟩
    rcases List.mem_append.mp hm with hm | hm
    · exact h.open_ hm
    · exact hcommit (Or.inl (List.mem_singleton.mp hm).symm)

/-! ### Reading -/

theorem Shows.r_eq_w (h : Shows s q) : s.r = s.w ↔ q.committed = [] := by
  have hle := h.held_le
  rw [Line.held] at hle
  have hzero : s.r = s.r + UInt32.ofNat 0 := (UInt32.add_zero _).symm
  rw [h.w]
  nth_rewrite 1 [hzero]
  rw [UInt32.add_right_inj, ofNat_inj (Nat.zero_le _) (by omega), ← List.length_eq_zero_iff]
  exact eq_comm

/-- A reader takes the first byte. -/
theorem Shows.take {c : UInt8} {rest : List UInt8} (h : Shows s q) (hq : q.committed = c :: rest) :
    s.at s.r = c ∧ Shows { s with r := s.r + 1 } { q with committed := rest } := by
  have hholds := h.holds
  rw [hq, List.cons_append] at hholds
  obtain ⟨hc, htail⟩ := hholds.pop
  have hheld : q.held = 1 + (rest.length + q.pending.length) := by
    rw [Line.held, hq, List.length_cons]
    omega
  refine ⟨hc, ?_, ?_, ?_, h.open_⟩
  · show s.w = s.r + 1 + _
    rw [h.w, hq, List.length_cons, Nat.add_comm, UInt32.ofNat_add, UInt32.add_assoc]
    rfl
  · show s.e = s.r + 1 + _
    rw [h.e, hheld, UInt32.ofNat_add, UInt32.add_assoc]
    rfl
  · -- the counter may wrap here; the cells are the same
    refine ⟨htail.fits, fun i hi => ?_⟩
    rw [← htail.cell i hi]
    show s.buf (((s.r + 1).toNat + i) % INPUT_BUF_SIZE) = _
    have hcell : ((s.r + 1).toNat + i) % INPUT_BUF_SIZE = (s.r.toNat + 1 + i) % INPUT_BUF_SIZE := by
      rw [UInt32.toNat_add, Nat.add_mod, RingBuf.index_wrap (by decide : INPUT_BUF_SIZE ∣ 2 ^ 32), ← Nat.add_mod]
      rfl
    rw [hcell]

namespace Line

variable {c : UInt8} {rest pending : List UInt8} {target n : ℕ}

theorem read_zero (target : ℕ) (q : Line) : q.read target 0 = (q, [], true) := by
  simp [read]

theorem read_nil : read target (n + 1) ⟨[], pending⟩ = (⟨[], pending⟩, [], false) := by
  simp [read, upTo]

theorem read_ctrlD : read target (n + 1) ⟨ctrlD :: rest, pending⟩ =
    (⟨if n + 1 = target then rest else ctrlD :: rest, pending⟩, [], true) := by
  simp [read, upTo]

theorem read_newline : read target (n + 1) ⟨newline :: rest, pending⟩ = (⟨rest, pending⟩, [newline], true) := by
  simp [read, upTo, newline, ctrlD]

/-- Any other byte is one of the answer, and the rest follows. -/
theorem read_cons (hD : c ≠ ctrlD) (hN : c ≠ newline) (hn : n < target) :
    read target (n + 1) ⟨c :: rest, pending⟩ =
      ((read target n ⟨rest, pending⟩).1, c :: (read target n ⟨rest, pending⟩).2.1, (read target n ⟨rest, pending⟩).2.2) := by
  have hup : (upTo (c :: rest)).take (n + 1) = c :: (upTo rest).take n := by
    rw [upTo, if_neg hD, if_neg hN, List.take_succ_cons]
  have hlast : ∀ b : List UInt8, (c :: b).getLast? = some newline ↔ b.getLast? = some newline := by
    intro b
    cases b with
    | nil => simp [hN]
    | cons x b => rw [List.getLast?_cons_cons]
  simp only [read, hup, List.length_cons, List.drop_succ_cons, Nat.add_right_cancel_iff, hlast]
  generalize (upTo rest).take n = b
  by_cases hstop : b.length = n ∨ b.getLast? = some newline
  · rw [if_pos hstop, if_pos hstop]
  · rw [if_neg hstop, if_neg hstop]
    by_cases hnext : (rest.drop b.length).head? = some ctrlD
    · have h1 : ¬ (c :: b = [] ∧ n + 1 = target) := fun h => List.cons_ne_nil _ _ h.1
      have h2 : ¬ (b = [] ∧ n = target) := fun h => Nat.ne_of_lt hn h.2
      rw [if_pos hnext, if_pos hnext, if_neg h1, if_neg h2]
    · rw [if_neg hnext, if_neg hnext]

end Line

/-- **A reader runs until it sleeps or returns.** -/
theorem shows_read {target n : ℕ} (h : Shows s q) (hn : n ≤ target) :
    Shows (readLoop target n s).1 (q.read target n).1 ∧ (readLoop target n s).2 = (q.read target n).2 := by
  induction n generalizing s q with
  | zero =>
    rw [readLoop, Line.read_zero]
    exact ⟨h, rfl⟩
  | succ n ih =>
    obtain ⟨committed, pending⟩ := q
    rw [readLoop]
    cases committed with
    | nil =>
      rw [if_pos (h.r_eq_w.mpr rfl), Line.read_nil]
      exact ⟨h, rfl⟩
    | cons c rest =>
      have hne : s.r ≠ s.w := fun he => List.cons_ne_nil _ _ (h.r_eq_w.mp he)
      obtain ⟨hc, htake⟩ := h.take rfl
      rw [if_neg hne, hc]
      dsimp only
      by_cases hD : c = ctrlD
      · rw [if_pos hD, hD, Line.read_ctrlD]
        refine ⟨?_, rfl⟩
        by_cases hlt : n + 1 < target
        · -- the `^D` is put back
          rw [if_pos hlt, if_neg (Nat.ne_of_lt hlt), UInt32.add_sub_cancel, ← hD]
          exact h
        · rw [if_neg hlt, if_pos (by omega)]
          exact htake
      rw [if_neg hD]
      by_cases hN : c = newline
      · rw [if_pos hN, hN, Line.read_newline]
        exact ⟨htake, rfl⟩
      · obtain ⟨hshows, heq⟩ := ih htake (by omega)
        rw [if_neg hN, Line.read_cons hD hN (by omega), heq]
        exact ⟨hshows, rfl⟩

/-! ### The answers -/

namespace Line

theorem upTo_spec (q : List UInt8) :
    ctrlD ∉ upTo q ∧ newline ∉ (upTo q).dropLast ∧
      (newline ∈ upTo q ∨ q.drop (upTo q).length = [] ∨ (q.drop (upTo q).length).head? = some ctrlD) := by
  induction q with
  | nil => simp [upTo]
  | cons c q ih =>
    obtain ⟨hD, hN, hrest⟩ := ih
    rw [upTo]
    by_cases hc : c = ctrlD
    · simp [hc]
    rw [if_neg hc]
    by_cases hn : c = newline
    · simp [hn, newline, ctrlD]
    rw [if_neg hn]
    refine ⟨fun h => (List.mem_cons.mp h).elim (fun h => hc h.symm) hD, ?_, ?_⟩
    · cases hu : upTo q with
      | nil => simp
      | cons x u =>
        rw [hu] at hN
        rw [List.dropLast_cons_of_ne_nil (List.cons_ne_nil _ _)]
        exact fun h => (List.mem_cons.mp h).elim (fun h => hn h.symm) hN
    · rw [List.length_cons, List.drop_succ_cons]
      exact hrest.imp_left (List.mem_cons_of_mem _)

/-- The bytes a reader takes, and that it waits only when there are no more. -/
theorem read_spec (target n : ℕ) (q : Line) {b : List UInt8} {done : Bool} (h : (q.read target n).2 = (b, done)) :
    b.length ≤ n ∧ ctrlD ∉ b ∧ newline ∉ b.dropLast ∧
      (done = false → newline ∉ b ∧ (q.read target n).1.committed = []) := by
  obtain ⟨hD, hN, hrest⟩ := upTo_spec q.committed
  have hb : b = (upTo q.committed).take n := by
    have hfst : (q.read target n).2.1 = b := by rw [h]
    rw [← hfst, read]
    split
    · rfl
    · split
      · rfl
      · rfl
  have hpre : b <+: upTo q.committed := hb ▸ List.take_prefix _ _
  have hdrop : newline ∉ b.dropLast := fun hm => by
    obtain ⟨v, hv⟩ := hpre
    rcases List.eq_nil_or_concat' v with hnil | ⟨w, x, hw⟩
    · rw [hnil, List.append_nil] at hv
      exact hN (hv ▸ hm)
    · rw [← hv, hw, ← List.append_assoc, List.dropLast_concat] at hN
      exact hN (List.mem_append_left _ ((List.dropLast_subset b) hm))
  refine ⟨by rw [hb, List.length_take]; exact Nat.min_le_left _ _, fun hm => hD (hpre.subset hm), hdrop, fun hdone => ?_⟩
  have hsnd : (q.read target n).2.2 = false := by rw [h]; exact hdone
  rw [read, ← hb] at hsnd ⊢
  by_cases hstop : b.length = n ∨ b.getLast? = some newline
  · rw [if_pos hstop] at hsnd
    cases hsnd
  by_cases hnext : (q.committed.drop b.length).head? = some ctrlD
  · rw [if_neg hstop, if_pos hnext] at hsnd
    cases hsnd
  rw [if_neg hstop, if_neg hnext]
  obtain ⟨hlen, hlast⟩ := not_or.mp hstop
  -- fewer than `n` bytes: all up to the stop
  have hall : b = upTo q.committed := by
    rw [hb, List.length_take] at hlen
    rw [hb, List.take_of_length_le (by omega)]
  have hno : newline ∉ b := by
    rcases List.eq_nil_or_concat' b with hnil | ⟨u, x, hu⟩
    · rw [hnil]
      exact List.not_mem_nil
    · rw [hu, List.dropLast_concat] at hdrop
      rw [hu, List.getLast?_concat] at hlast
      rw [hu, List.mem_append, List.mem_singleton, not_or]
      exact ⟨hdrop, fun hx => hlast (hx ▸ rfl)⟩
  rw [← hall] at hrest
  exact ⟨hno, (hrest.resolve_left hno).resolve_right hnext⟩

theorem read_empty (target n : ℕ) {q : Line} (h : q.committed = []) : (q.read target n).1.committed = [] := by
  obtain ⟨committed, pending⟩ := q
  obtain rfl : committed = [] := h
  cases n with
  | zero => rw [read_zero]
  | succ n => rw [read_nil]

theorem intr_quiet {c : UInt8} {q : Line} (h : (q.intr c).2 = false) : (q.intr c).1.committed = q.committed := by
  revert h
  simp only [intr]
  split_ifs <;> simp [append]

end Line

/-- What holds of a call: it has at most the bytes asked for, no `^D`, and at most one newline, the
last byte, with which it returns. It sleeps only while there is nothing to read. -/
structure Call.Ok (c : Call) (q : Line) : Prop where
  le : c.got.length ≤ c.target
  eof : ctrlD ∉ c.got
  line : newline ∉ c.got.dropLast
  going : c.status ≠ .done → newline ∉ c.got
  waits : c.status = .asleep → q.committed = []

theorem Call.Ok.wake {c : Call} {q q' : Line} (h : c.Ok q) : c.wake.Ok q' := by
  rw [Call.wake]
  by_cases ha : c.status = .asleep
  · rw [if_pos ha]
    exact ⟨h.le, h.eof, h.line, fun _ => h.going (by rw [ha]; decide), fun hs => by cases hs⟩
  · rw [if_neg ha]
    exact ⟨h.le, h.eof, h.line, h.going, fun hs => absurd hs ha⟩

/-- Nothing to read stays nothing to read. -/
theorem Call.Ok.mono {c : Call} {q q' : Line} (h : c.Ok q) (hq : q.committed = [] → q'.committed = []) : c.Ok q' :=
  ⟨h.le, h.eof, h.line, h.going, fun hs => hq (h.waits hs)⟩

theorem Call.Ok.after {c : Call} {q : Line} (h : c.Ok q) (hready : c.status = .ready) {b : List UInt8} {done : Bool}
    (hread : (q.read c.target (c.target - c.got.length)).2 = (b, done)) :
    (c.after b done).Ok (q.read c.target (c.target - c.got.length)).1 := by
  obtain ⟨hlen, hD, hN, hwait⟩ := Line.read_spec _ _ q hread
  have hgot : newline ∉ c.got := h.going (by rw [hready]; decide)
  have hle := h.le
  have hfalse : (c.after b done).status ≠ .done → done = false := by
    rw [Call.after]
    cases done with
    | true => exact fun hs => absurd rfl hs
    | false => exact fun _ => rfl
  refine ⟨?_, ?_, ?_, fun hs => ?_, fun hs => ?_⟩
  · rw [Call.after, List.length_append]
    dsimp only
    omega
  · exact fun hm => (List.mem_append.mp hm).elim h.eof hD
  · show newline ∉ (c.got ++ b).dropLast
    rcases List.eq_nil_or_concat' b with hnil | ⟨u, x, hu⟩
    · rw [hnil, List.append_nil]
      exact h.line
    · rw [hu, ← List.append_assoc, List.dropLast_concat]
      rw [hu, List.dropLast_concat] at hN
      exact fun hm => (List.mem_append.mp hm).elim hgot hN
  · exact fun hm => (List.mem_append.mp hm).elim hgot (hwait (hfalse hs)).1
  · exact (hwait (hfalse (by rw [hs]; decide))).2

/-! ### Every run -/

/-- The two systems agree. -/
structure Agrees (s : Sys Cons) (q : Sys Line) : Prop where
  dev : Shows s.dev q.dev
  calls : s.calls = q.calls
  ok : ∀ t, ∀ c ∈ q.calls t, c.Ok q.dev

theorem agrees_intr {s : Sys Cons} {q : Sys Line} (h : Agrees s q) (c : UInt8) {s' : Sys Cons} {t : List Ev}
    (hstep : step console s (.intr c) = .ok (s', t)) : ∃ q', step queue q (.intr c) = .ok (q', t) ∧ Agrees s' q' := by
  obtain ⟨hshows, hwake⟩ := shows_intr h.dev c
  cases hstep
  refine ⟨_, rfl, hshows, ?_, fun t d hd => ?_⟩
  · show (if (consoleintr c s.dev).2 = true then _ else _) = if (q.dev.intr c).2 = true then _ else _
    rw [hwake, h.calls]
  · cases hw : (q.dev.intr c).2 with
    | true =>
      have hd' : d ∈ (q.calls t).map Call.wake := by
        have : d ∈ (if (q.dev.intr c).2 = true then fun t => (q.calls t).map Call.wake else q.calls) t := hd
        rw [hw, if_pos rfl] at this
        exact this
      obtain ⟨d0, hd0, rfl⟩ := Option.mem_map.mp hd'
      exact (h.ok t d0 hd0).wake
    | false =>
      have hd' : d ∈ q.calls t := by
        have : d ∈ (if (q.dev.intr c).2 = true then fun t => (q.calls t).map Call.wake else q.calls) t := hd
        rw [hw, if_neg Bool.false_ne_true] at this
        exact this
      exact (h.ok t d hd').mono fun hnil => (Line.intr_quiet hw).trans hnil

theorem agrees_call {s : Sys Cons} {q : Sys Line} (h : Agrees s q) (t : ℕ) (n : ℤ) {s' : Sys Cons} {l : List Ev}
    (hstep : step console s (.call t n) = .ok (s', l)) :
    ∃ q', step queue q (.call t n) = .ok (q', l) ∧ Agrees s' q' := by
  rw [step, h.calls] at hstep
  split at hstep
  · rename_i hfree
    cases hstep
    refine ⟨_, if_pos hfree, h.dev, rfl, fun u c hc => ?_⟩
    by_cases hu : u = t
    · have hc : c ∈ Function.update q.calls t (some ⟨n.toNat, [], .ready⟩) u := hc
      rw [hu, Function.update_self] at hc
      cases hc
      exact ⟨Nat.zero_le _, List.not_mem_nil, List.not_mem_nil, fun _ => List.not_mem_nil, fun hs => by cases hs⟩
    · have hc : c ∈ Function.update q.calls t (some ⟨n.toNat, [], .ready⟩) u := hc
      rw [Function.update_of_ne hu] at hc
      exact h.ok u c hc
  · cases hstep

theorem step_go {D : Device σ} {s : Sys σ} {t : ℕ} {c : Call} (hc : s.calls t = some c) :
    step D s (.go t) = goStep D s t c := by
  rw [step, hc, Option.elim_some]

theorem agrees_go {s : Sys Cons} {q : Sys Line} (h : Agrees s q) (t : ℕ) {s' : Sys Cons} {l : List Ev}
    (hstep : step console s (.go t) = .ok (s', l)) : ∃ q', step queue q (.go t) = .ok (q', l) ∧ Agrees s' q' := by
  cases hc : q.calls t with
  | none =>
    rw [step, h.calls, hc] at hstep
    cases hstep
  | some c =>
    rw [step_go (h.calls ▸ hc), goStep] at hstep
    by_cases hready : c.status = .ready
    · obtain ⟨hshows, heq⟩ : Shows (console.read c.target (c.target - c.got.length) s.dev).1
            (queue.read c.target (c.target - c.got.length) q.dev).1 ∧
          (console.read c.target (c.target - c.got.length) s.dev).2 =
            (queue.read c.target (c.target - c.got.length) q.dev).2 := shows_read h.dev (Nat.sub_le _ _)
      have hok := (h.ok t c hc).after hready rfl
      have hempty := Line.read_empty c.target (c.target - c.got.length) (q := q.dev)
      rw [if_pos hready] at hstep
      dsimp only at hstep
      rw [heq] at hstep
      cases hstep
      rw [step_go hc, goStep, if_pos hready]
      refine ⟨_, rfl, hshows, by rw [h.calls], fun u d hd => ?_⟩
      by_cases hu : u = t
      · rw [hu] at hd
        dsimp only at hd
        rw [Function.update_self, Option.mem_some] at hd
        rw [← hd]
        exact hok
      · dsimp only at hd
        rw [Function.update_of_ne hu] at hd
        exact (h.ok u d hd).mono hempty
    · rw [if_neg hready] at hstep
      cases hstep

/-- **The console is a queue with a line that can be edited**, for any interleaving of characters
and readers. -/
theorem console_is_queue {buf : ℕ → UInt8} {as : List Act} {s : Sys Cons} {t : List Ev}
    (h : run (step console) (boot buf) as = .ok (s, t)) :
    ∃ q, run (step queue) empty as = .ok (q, t) ∧ Shows s.dev q.dev ∧ s.calls = q.calls ∧
      ∀ u, ∀ c ∈ s.calls u, c.Ok q.dev := by
  have hboot : Agrees (boot buf) empty := by
    refine ⟨⟨rfl, rfl, RingBuf.Holds.nil _ _, List.not_mem_nil⟩, rfl, fun t c hc => ?_⟩
    cases hc
  have hstep : ∀ (s : Sys Cons) (q : Sys Line) (a : Act) (s' : Sys Cons) (t : List Ev), Agrees s q →
      step console s a = .ok (s', t) → ∃ q', step queue q a = .ok (q', t) ∧ Agrees s' q' := by
    intro s q a s' t hag hs
    cases a with
    | intr c => exact agrees_intr hag c hs
    | call t n => exact agrees_call hag t n hs
    | go t => exact agrees_go hag t hs
  obtain ⟨q, hq, hag⟩ := run_sim hstep hboot h
  refine ⟨q, hq, hag.dev, hag.calls, ?_⟩
  rw [hag.calls]
  exact hag.ok

/-- A line is typed with a correction while a reader waits for it. -/
theorem console_is_queue_line :
    ∃ s, run (step console) (boot fun _ => 0) [.call 0 5, .go 0, .intr 97, .intr 98, .intr 127, .intr 13, .go 0] =
        .ok (s, [⟨0, [], false⟩, ⟨0, [97, 10], true⟩]) ∧
      ∃ q, run (step queue) empty [.call 0 5, .go 0, .intr 97, .intr 98, .intr 127, .intr 13, .go 0] =
          .ok (q, [⟨0, [], false⟩, ⟨0, [97, 10], true⟩]) ∧ Shows s.dev q.dev ∧ s.calls = q.calls ∧
        ∀ u, ∀ c ∈ s.calls u, c.Ok q.dev := by
  obtain ⟨⟨s, t⟩, hrun, ht⟩ := okWith_iff.mp
    (show okWith (run (step console) (boot fun _ => 0)
        [.call 0 5, .go 0, .intr 97, .intr 98, .intr 127, .intr 13, .go 0])
      (fun r => decide (r.2 = [⟨0, [], false⟩, ⟨0, [97, 10], true⟩])) = true by decide +kernel)
  have ht' : t = [⟨0, [], false⟩, ⟨0, [97, 10], true⟩] := of_decide_eq_true ht
  rw [ht'] at hrun
  exact ⟨s, hrun, console_is_queue hrun⟩

end Console
end Xv6
