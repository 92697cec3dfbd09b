/-
# The grammar of command lines

    line  ::= pipe '&'* [';' line]
    pipe  ::= cmd ['|' pipe]
    cmd   ::= '(' line ')' redir* | redir* (word redir*)*
    redir ::= ('<' | '>' | '>>') word

A derivation is a value of `Line`, with the tokens it derives (`Line.toks`) and the
command it stands for (`Line.tree`); `Line.Fits` bounds the words of each simple
command. A line has the tokens `lex` splits it into.

The recursive descent over tokens is what the parser of the shell does, freed of its
cursor and of the memory of the line. It finds a derivation whenever there is one
(`parseLine_complete`), so there is at most one, and it finds nothing else
(`parseLine_sound`).

Key definitions: `Shell.lex`, `Shell.Line`, `Shell.parseLine`.
Key theorems: `Shell.parseLine_complete`, `Shell.parseLine_sound`.
-/
import Xv6.Shell

namespace Xv6
namespace Shell

inductive Tok
  | word (w : List UInt8)
  | lt
  | gt
  | gtgt
  | bar
  | amp
  | semi
  | lpar
  | rpar
  deriving DecidableEq, Repr

/-- The operators of one character, other than `>`. -/
def opOf (c : UInt8) : Option Tok :=
  if c = '<'.toUInt8 then some .lt
  else if c = '|'.toUInt8 then some .bar
  else if c = '&'.toUInt8 then some .amp
  else if c = ';'.toUInt8 then some .semi
  else if c = '('.toUInt8 then some .lpar
  else if c = ')'.toUInt8 then some .rpar
  else none

/-- The tokens of a line: words are maximal, and `>>` is one token. -/
def lex : List UInt8 → List Tok
  | [] => []
  | c :: cs =>
    if isSpace c then lex cs
    else if c = '>'.toUInt8 then
      if cs.head? = some '>'.toUInt8 then .gtgt :: lex cs.tail else .gt :: lex cs
    else
      match opOf c with
      | some t => t :: lex cs
      | none => .word (c :: cs.takeWhile isWord) :: lex (cs.dropWhile isWord)
termination_by cs => cs.length
decreasing_by
  · simp
  · simp only [List.length_tail, List.length_cons]
    omega
  · simp
  · simp
  · exact Nat.lt_succ_of_le (List.dropWhile_sublist _).length_le

/-! ### Derivations -/

inductive RedirOp
  | lt
  | gt
  | gtgt
  deriving DecidableEq, Repr

def RedirOp.tok : RedirOp → Tok
  | .lt => .lt
  | .gt => .gt
  | .gtgt => .gtgt

structure Redir where
  op : RedirOp
  file : List UInt8
  deriving DecidableEq, Repr

def Redir.toks (r : Redir) : List Tok := [r.op.tok, .word r.file]

/-- A word of a simple command with the redirections after it. -/
structure Arg where
  word : List UInt8
  redirs : List Redir
  deriving DecidableEq, Repr

def Arg.toks (a : Arg) : List Tok := .word a.word :: a.redirs.flatMap Redir.toks

mutual

/-- `pipe '&'* [';' line]`; the number is that of the `&`. -/
inductive Line
  | last (p : Pipe) (n : ℕ)
  | semi (p : Pipe) (n : ℕ) (l : Line)

inductive Pipe
  | one (c : Comm)
  | bar (c : Comm) (p : Pipe)

/-- A `cmd` of the grammar. -/
inductive Comm
  | block (l : Line) (rs : List Redir)
  | simple (rs : List Redir) (args : List Arg)

end

mutual

def Line.toks : Line → List Tok
  | .last p n => p.toks ++ List.replicate n .amp
  | .semi p n l => p.toks ++ (List.replicate n .amp ++ .semi :: l.toks)

def Pipe.toks : Pipe → List Tok
  | .one c => c.toks
  | .bar c p => c.toks ++ .bar :: p.toks

def Comm.toks : Comm → List Tok
  | .block l rs => .lpar :: (l.toks ++ .rpar :: rs.flatMap Redir.toks)
  | .simple rs args => rs.flatMap Redir.toks ++ args.flatMap Arg.toks

end

mutual

/-- Each simple command has fewer than `MAXARGS` words. -/
def Line.Fits : Line → Prop
  | .last p _ => p.Fits
  | .semi p _ l => p.Fits ∧ l.Fits

def Pipe.Fits : Pipe → Prop
  | .one c => c.Fits
  | .bar c p => c.Fits ∧ p.Fits

def Comm.Fits : Comm → Prop
  | .block l _ => l.Fits
  | .simple _ args => args.length ≤ MAXARGS - 1

end

/-! ### The command of a derivation -/

def RedirOp.mode : RedirOp → ℕ
  | .lt => O_RDONLY
  | .gt => O_WRONLY ||| O_CREATE ||| O_TRUNC
  | .gtgt => O_WRONLY ||| O_CREATE

def RedirOp.fd : RedirOp → ℕ
  | .lt => 0
  | _ => 1

namespace Tree

def wrap (t : Tree) (r : Redir) : Tree := .redir t r.file r.op.mode r.op.fd

/-- The redirections around the command, the first one innermost. -/
def wraps (t : Tree) (rs : List Redir) : Tree := rs.foldl wrap t

def backs (t : Tree) (n : ℕ) : Tree := Tree.back^[n] t

end Tree

mutual

def Line.tree : Line → Tree
  | .last p n => p.tree.backs n
  | .semi p n l => .list (p.tree.backs n) l.tree

def Pipe.tree : Pipe → Tree
  | .one c => c.tree
  | .bar c p => .pipe c.tree p.tree

def Comm.tree : Comm → Tree
  | .block l rs => l.tree.wraps rs
  | .simple rs args => (Tree.exec (args.map Arg.word)).wraps (rs ++ args.flatMap Arg.redirs)

end

/-! ### Recursive descent over tokens -/

def redirOp : Tok → Option RedirOp
  | .lt => some .lt
  | .gt => some .gt
  | .gtgt => some .gtgt
  | _ => none

def parseRedirs : ℕ → List Tok → Except Stop (List Redir × List Tok)
  | 0, _ => .error .blocked
  | _ + 1, [] => .ok ([], [])
  | f + 1, t :: ts =>
    match redirOp t with
    | none => .ok ([], t :: ts)
    | some op =>
      match ts with
      | .word w :: ts => do
        let (rs, ts) ← parseRedirs f ts
        .ok (⟨op, w⟩ :: rs, ts)
      | _ => .error (.panic "missing file for redirection")

/-- The token ends a simple command. -/
def Tok.stops : Tok → Bool
  | .bar | .rpar | .amp | .semi => true
  | _ => false

def parseArgs : ℕ → ℕ → List Tok → Except Stop (List Arg × List Tok)
  | 0, _, _ => .error .blocked
  | _ + 1, _, [] => .ok ([], [])
  | f + 1, argc, t :: ts =>
    if t.stops then .ok ([], t :: ts)
    else
      match t with
      | .word w =>
        if MAXARGS ≤ argc + 1 then .error (.panic "too many args")
        else do
          let (rs, ts) ← parseRedirs f ts
          let (args, ts) ← parseArgs f (argc + 1) ts
          .ok (⟨w, rs⟩ :: args, ts)
      | _ => .error (.panic "syntax")

def parseAmps : ℕ → List Tok → Except Stop (ℕ × List Tok)
  | 0, _ => .error .blocked
  | f + 1, .amp :: ts => do
    let (n, ts) ← parseAmps f ts
    .ok (n + 1, ts)
  | _ + 1, ts => .ok (0, ts)

mutual

def parseLine : ℕ → List Tok → Except Stop (Line × List Tok)
  | 0, _ => .error .blocked
  | f + 1, ts => do
    let (p, ts) ← parsePipe f ts
    let (n, ts) ← parseAmps f ts
    match ts with
    | .semi :: ts => do
      let (l, ts) ← parseLine f ts
      .ok (.semi p n l, ts)
    | ts => .ok (.last p n, ts)

def parsePipe : ℕ → List Tok → Except Stop (Pipe × List Tok)
  | 0, _ => .error .blocked
  | f + 1, ts => do
    let (c, ts) ← parseComm f ts
    match ts with
    | .bar :: ts => do
      let (p, ts) ← parsePipe f ts
      .ok (.bar c p, ts)
    | ts => .ok (.one c, ts)

def parseComm : ℕ → List Tok → Except Stop (Comm × List Tok)
  | 0, _ => .error .blocked
  | f + 1, .lpar :: ts => parseBlock f ts
  | f + 1, ts => do
    let (rs, ts) ← parseRedirs f ts
    let (args, ts) ← parseArgs f 0 ts
    .ok (.simple rs args, ts)

/-- The rest of a block. -/
def parseBlock : ℕ → List Tok → Except Stop (Comm × List Tok)
  | 0, _ => .error .blocked
  | f + 1, ts => do
    let (l, ts) ← parseLine f ts
    match ts with
    | .rpar :: ts => do
      let (rs, ts) ← parseRedirs f ts
      .ok (.block l rs, ts)
    | _ => .error (.panic "syntax - missing )")

end

theorem parseComm_simple {f : ℕ} {ts : List Tok} (h : ts.head? ≠ some .lpar) :
    parseComm (f + 1) ts = (do
      let (rs, ts) ← parseRedirs f ts
      let (args, ts) ← parseArgs f 0 ts
      .ok (.simple rs args, ts)) := by
  cases ts with
  | nil => rfl
  | cons t ts =>
    cases t with
    | lpar => exact absurd rfl h
    | _ => rfl

theorem parseAmps_stop {f : ℕ} {ts : List Tok} (h : ts.head? ≠ some .amp) : parseAmps (f + 1) ts = .ok (0, ts) := by
  cases ts with
  | nil => rfl
  | cons t ts =>
    cases t with
    | amp => exact absurd rfl h
    | _ => rfl

/-! ### What it finds is a derivation -/

/-- The computation finds some `a` with the tokens `toks a` at the front of `ts`, or panics. -/
def Derived {α : Type} (toks : α → List Tok) (P : α → Prop) (ts : List Tok) : Except Stop (α × List Tok) → Prop
  | .ok (a, rest) => ts = toks a ++ rest ∧ P a
  | .error e => ∃ msg, e = .panic msg

section

variable {α β : Type} {toks : α → List Tok} {P : α → Prop} {toks' : β → List Tok} {P' : β → Prop}
  {ts : List Tok}

theorem Derived.bind {x : Except Stop (α × List Tok)} {g : α × List Tok → Except Stop (β × List Tok)} {ts' : List Tok}
    (h : Derived toks P ts x) (hg : ∀ a rest, ts = toks a ++ rest → P a → Derived toks' P' ts' (g (a, rest))) :
    Derived toks' P' ts' (x >>= g) := by
  cases x with
  | error e => exact h
  | ok r => exact hg r.1 r.2 h.1 h.2

end

theorem redirOp_tok {t : Tok} {op : RedirOp} (h : redirOp t = some op) : t = op.tok := by
  cases t <;> cases h <;> rfl

theorem parseRedirs_sound (f : ℕ) (ts : List Tok) (hf : ts.length < f) :
    Derived (List.flatMap Redir.toks) (fun _ => True) ts (parseRedirs f ts) := by
  induction f generalizing ts with
  | zero => omega
  | succ f ih =>
    cases ts with
    | nil => exact ⟨rfl, trivial⟩
    | cons t ts =>
      simp only [List.length_cons] at hf
      unfold parseRedirs
      split
      · exact ⟨rfl, trivial⟩
      · next op hop =>
        split
        · next w ts =>
          simp only [List.length_cons] at hf
          refine (ih ts (by omega)).bind fun rs rest hts _ => ⟨?_, trivial⟩
          rw [redirOp_tok hop, hts]
          rfl
        · exact ⟨_, rfl⟩

theorem parseArgs_sound (f argc : ℕ) (ts : List Tok) (hf : ts.length < f) (ha : argc ≤ MAXARGS - 1) :
    Derived (List.flatMap Arg.toks) (fun args => argc + args.length ≤ MAXARGS - 1) ts (parseArgs f argc ts) := by
  induction f generalizing argc ts with
  | zero => omega
  | succ f ih =>
    cases ts with
    | nil => exact ⟨rfl, ha⟩
    | cons t ts =>
      simp only [List.length_cons] at hf
      unfold parseArgs
      by_cases hs : t.stops = true
      · rw [if_pos hs]
        exact ⟨rfl, ha⟩
      · rw [if_neg hs]
        split
        · next w =>
          by_cases hmax : MAXARGS ≤ argc + 1
          · rw [if_pos hmax]
            exact ⟨_, rfl⟩
          · rw [if_neg hmax]
            refine (parseRedirs_sound f ts (by omega)).bind fun rs rest hts _ => ?_
            have hlen : rest.length ≤ ts.length := by simp [hts]
            refine (ih (argc + 1) rest (by omega) (by omega)).bind fun args rest' hrest hle => ⟨?_, ?_⟩
            · rw [hts, hrest]
              simp [Arg.toks]
            · simp only [List.length_cons]
              omega
        · exact ⟨_, rfl⟩

theorem parseAmps_sound (f : ℕ) (ts : List Tok) (hf : ts.length < f) :
    Derived (fun n => List.replicate n .amp) (fun _ => True) ts (parseAmps f ts) := by
  induction f generalizing ts with
  | zero => omega
  | succ f ih =>
    by_cases ha : ts.head? = some .amp
    · obtain ⟨ts, rfl⟩ := List.head?_eq_some_iff.mp ha
      simp only [List.length_cons] at hf
      refine (ih ts (by omega)).bind fun n rest hts _ => ⟨?_, trivial⟩
      rw [hts]
      rfl
    · rw [parseAmps_stop ha]
      exact ⟨rfl, trivial⟩

/-- The four functions of the descent find derivations, given enough rounds. -/
structure Descent (f : ℕ) : Prop where
  line : ∀ ts : List Tok, 4 * ts.length + 4 ≤ f → Derived Line.toks Line.Fits ts (parseLine f ts)
  pipe : ∀ ts : List Tok, 4 * ts.length + 3 ≤ f → Derived Pipe.toks Pipe.Fits ts (parsePipe f ts)
  comm : ∀ ts : List Tok, 4 * ts.length + 2 ≤ f → Derived Comm.toks Comm.Fits ts (parseComm f ts)
  block : ∀ ts : List Tok, 4 * ts.length + 5 ≤ f → Derived Comm.toks Comm.Fits (.lpar :: ts) (parseBlock f ts)

theorem descent (f : ℕ) : Descent f := by
  induction f with
  | zero => exact ⟨fun _ h => by omega, fun _ h => by omega, fun _ h => by omega, fun _ h => by omega⟩
  | succ f ih =>
    refine ⟨fun ts hf => ?_, fun ts hf => ?_, fun ts hf => ?_, fun ts hf => ?_⟩
    · unfold parseLine
      refine (ih.pipe ts (by omega)).bind fun p r1 h1 hp => ?_
      have hl1 : r1.length ≤ ts.length := by simp [h1]
      refine (parseAmps_sound f r1 (by omega)).bind fun n r2 h2 _ => ?_
      have hl2 : r2.length ≤ r1.length := by simp [h2]
      subst h1 h2
      dsimp only
      split
      · next r2 =>
        simp only [List.length_cons] at hl2
        refine (ih.line r2 (by omega)).bind fun l r3 h3 hl => ⟨?_, hp, hl⟩
        rw [h3]
        simp [Line.toks]
      · exact ⟨by simp [Line.toks], hp⟩
    · unfold parsePipe
      refine (ih.comm ts (by omega)).bind fun c r1 h1 hc => ?_
      have hl1 : r1.length ≤ ts.length := by simp [h1]
      subst h1
      dsimp only
      split
      · next r1 =>
        simp only [List.length_cons] at hl1
        refine (ih.pipe r1 (by omega)).bind fun p r2 h2 hp => ⟨?_, hc, hp⟩
        rw [h2]
        simp [Pipe.toks]
      · exact ⟨rfl, hc⟩
    · by_cases hl : ts.head? = some .lpar
      · obtain ⟨ts, rfl⟩ := List.head?_eq_some_iff.mp hl
        simp only [List.length_cons] at hf
        exact ih.block ts (by omega)
      · rw [parseComm_simple hl]
        refine (parseRedirs_sound f ts (by omega)).bind fun rs r1 h1 _ => ?_
        have hl1 : r1.length ≤ ts.length := by simp [h1]
        refine (parseArgs_sound f 0 r1 (by omega) (Nat.zero_le _)).bind fun args r2 h2 ha => ⟨?_, ?_⟩
        · rw [h1, h2]
          simp [Comm.toks]
        · simpa [Comm.Fits] using ha
    · unfold parseBlock
      refine (ih.line ts (by omega)).bind fun l r1 h1 hl => ?_
      have hl1 : r1.length ≤ ts.length := by simp [h1]
      subst h1
      dsimp only
      split
      · next r1 =>
        simp only [List.length_cons] at hl1
        refine (parseRedirs_sound f r1 (by omega)).bind fun rs r2 h2 _ => ⟨?_, hl⟩
        rw [h2]
        simp [Comm.toks]
      · exact ⟨_, rfl⟩

/-- **The descent finds a derivation of a part of the tokens, or panics.** -/
theorem parseLine_sound {f : ℕ} {ts : List Tok} (hf : 4 * ts.length + 4 ≤ f) :
    Derived Line.toks Line.Fits ts (parseLine f ts) :=
  (descent f).line ts hf

/-! ### It finds every derivation -/

/-- The tokens go on with one that `S` accepts, or are at their end. -/
def Follows (S : Tok → Bool) (ts : List Tok) : Prop := ∀ t, ts.head? = some t → S t = true

theorem Follows.cons {S : Tok → Bool} {t : Tok} {ts : List Tok} (h : S t = true) : Follows S (t :: ts) := by
  rintro _ ⟨⟩
  exact h

theorem Follows.mono {S S' : Tok → Bool} {ts : List Tok} (h : Follows S ts) (hS : ∀ t, S t = true → S' t = true) :
    Follows S' ts :=
  fun t ht => hS t (h t ht)

theorem Follows.ne {S : Tok → Bool} {t : Tok} {ts : List Tok} (h : Follows S ts) (ht : S t = false) :
    ts.head? ≠ some t := by
  intro hts
  simp [h t hts] at ht

/-- After a command in a pipe, after a pipe, and after a line. -/
def afterComm (t : Tok) : Bool := t.stops
def afterPipe (t : Tok) : Bool := t.stops && t ≠ .bar
def afterLine (t : Tok) : Bool := t = .rpar

theorem parseRedirs_complete {f : ℕ} (rs : List Redir) {rest : List Tok}
    (hr : Follows (fun t => redirOp t = none) rest) (hf : (rs.flatMap Redir.toks).length < f) :
    parseRedirs f (rs.flatMap Redir.toks ++ rest) = .ok (rs, rest) := by
  induction rs generalizing f with
  | nil =>
    obtain ⟨f, rfl⟩ := Nat.exists_eq_succ_of_ne_zero (Nat.ne_zero_of_lt hf)
    cases rest with
    | nil => rfl
    | cons t ts =>
      have ht : redirOp t = none := by simpa using hr t rfl
      show parseRedirs (f + 1) (t :: ts) = _
      simp only [parseRedirs, ht]
  | cons r rs ih =>
    obtain ⟨f, rfl⟩ := Nat.exists_eq_succ_of_ne_zero (Nat.ne_zero_of_lt hf)
    have hop : redirOp r.op.tok = some r.op := by cases r.op <;> rfl
    have hlen : (rs.flatMap Redir.toks).length < f := by
      simp only [List.flatMap_cons, Redir.toks, List.length_append, List.length_cons, List.length_nil] at hf
      omega
    show parseRedirs (f + 1) (r.op.tok :: .word r.file :: (rs.flatMap Redir.toks ++ rest)) = _
    simp only [parseRedirs, hop, ih hlen]
    rfl

theorem follows_args (args : List Arg) {rest : List Tok} (hr : Follows afterComm rest) :
    Follows (fun t => redirOp t = none) (args.flatMap Arg.toks ++ rest) := by
  cases args with
  | nil =>
    refine hr.mono fun t ht => ?_
    cases t <;> first | rfl | cases ht
  | cons a args => exact Follows.cons rfl

theorem parseArgs_complete {f argc : ℕ} (args : List Arg) {rest : List Tok} (hr : Follows afterComm rest)
    (ha : argc + args.length ≤ MAXARGS - 1) (hf : (args.flatMap Arg.toks).length < f) :
    parseArgs f argc (args.flatMap Arg.toks ++ rest) = .ok (args, rest) := by
  induction args generalizing f argc with
  | nil =>
    obtain ⟨f, rfl⟩ := Nat.exists_eq_succ_of_ne_zero (Nat.ne_zero_of_lt hf)
    cases rest with
    | nil => rfl
    | cons t ts =>
      have ht : t.stops = true := hr t rfl
      show parseArgs (f + 1) argc (t :: ts) = _
      simp only [parseArgs, ht, if_true]
  | cons a args ih =>
    obtain ⟨f, rfl⟩ := Nat.exists_eq_succ_of_ne_zero (Nat.ne_zero_of_lt hf)
    simp only [List.length_cons] at ha
    have hmax : ¬ MAXARGS ≤ argc + 1 := by
      unfold MAXARGS at ha ⊢
      omega
    have hlen : (a.redirs.flatMap Redir.toks).length < f ∧ (args.flatMap Arg.toks).length < f := by
      simp only [List.flatMap_cons, Arg.toks, List.length_append, List.length_cons] at hf
      omega
    have hrs := parseRedirs_complete a.redirs (follows_args args hr) hlen.1
    have hargs : parseArgs f (argc + 1) (args.flatMap Arg.toks ++ rest) = .ok (args, rest) := ih (by omega) hlen.2
    have htoks : (a :: args).flatMap Arg.toks ++ rest =
        .word a.word :: (a.redirs.flatMap Redir.toks ++ (args.flatMap Arg.toks ++ rest)) := by
      simp [Arg.toks]
    rw [htoks, parseArgs, if_neg (by simp [Tok.stops]), if_neg hmax, hrs]
    simp only [bind, Except.bind, hargs]

theorem parseAmps_complete {f : ℕ} (n : ℕ) {rest : List Tok} (hr : rest.head? ≠ some .amp) (hf : n < f) :
    parseAmps f (List.replicate n .amp ++ rest) = .ok (n, rest) := by
  induction n generalizing f with
  | zero =>
    obtain ⟨f, rfl⟩ := Nat.exists_eq_succ_of_ne_zero (Nat.ne_zero_of_lt hf)
    exact parseAmps_stop hr
  | succ n ih =>
    obtain ⟨f, rfl⟩ := Nat.exists_eq_succ_of_ne_zero (Nat.ne_zero_of_lt hf)
    show parseAmps (f + 1) (.amp :: (List.replicate n .amp ++ rest)) = _
    simp only [parseAmps, ih (Nat.lt_of_succ_lt_succ hf)]
    rfl

theorem follows_amps {n : ℕ} {rest : List Tok} (hr : Follows afterPipe rest) :
    Follows afterPipe (List.replicate n .amp ++ rest) := by
  cases n with
  | zero => exact hr
  | succ n => exact Follows.cons rfl

theorem afterPipe_of_afterLine {t : Tok} (h : afterLine t = true) : afterPipe t = true := by
  cases t <;> first | rfl | cases h

theorem head_ne_lpar {rs : List Redir} {args : List Arg} {rest : List Tok} (hr : Follows afterComm rest) :
    (rs.flatMap Redir.toks ++ (args.flatMap Arg.toks ++ rest)).head? ≠ some .lpar := by
  cases rs with
  | nil =>
    cases args with
    | nil => exact hr.ne rfl
    | cons a args => exact (Follows.cons (S := (· ≠ .lpar)) rfl).ne rfl
  | cons r rs =>
    have hop : decide (r.op.tok ≠ .lpar) = true := by cases r.op <;> rfl
    exact (Follows.cons (S := (· ≠ .lpar)) hop).ne rfl

mutual

/-- **The descent finds every derivation.** -/
theorem parseLine_complete (l : Line) {f : ℕ} {rest : List Tok} (hl : l.Fits) (hr : Follows afterLine rest)
    (hf : 4 * l.toks.length + 4 ≤ f) : parseLine f (l.toks ++ rest) = .ok (l, rest) := by
  obtain ⟨f, rfl⟩ := Nat.exists_eq_succ_of_ne_zero (show f ≠ 0 by omega)
  have hr' : Follows afterPipe rest := hr.mono fun _ => afterPipe_of_afterLine
  cases l with
  | last p n =>
    simp only [Line.toks, List.length_append, List.length_replicate] at hf
    have hp := parsePipe_complete p (f := f) hl (follows_amps (n := n) hr') (by omega)
    have hn := parseAmps_complete (f := f) n (hr.ne (t := .amp) rfl) (by omega)
    rw [Line.toks, List.append_assoc, parseLine, hp]
    simp only [bind, Except.bind, hn]
    split
    · exact absurd rfl (hr.ne (t := .semi) rfl)
    · rfl
  | semi p n l =>
    simp only [Line.toks, List.length_append, List.length_replicate, List.length_cons] at hf
    have hsemi : Follows afterPipe (.semi :: (l.toks ++ rest)) := Follows.cons rfl
    have hp := parsePipe_complete p (f := f) hl.1 (follows_amps (n := n) hsemi) (by omega)
    have hn : parseAmps f (List.replicate n .amp ++ .semi :: (l.toks ++ rest)) = _ :=
      parseAmps_complete n (by simp) (by omega)
    have hrec := parseLine_complete l (f := f) hl.2 hr (by omega)
    rw [Line.toks, List.append_assoc, List.append_assoc, List.cons_append, parseLine, hp]
    simp only [bind, Except.bind, hn, hrec]

theorem parsePipe_complete (p : Pipe) {f : ℕ} {rest : List Tok} (hp : p.Fits) (hr : Follows afterPipe rest)
    (hf : 4 * p.toks.length + 3 ≤ f) : parsePipe f (p.toks ++ rest) = .ok (p, rest) := by
  obtain ⟨f, rfl⟩ := Nat.exists_eq_succ_of_ne_zero (show f ≠ 0 by omega)
  cases p with
  | one c =>
    simp only [Pipe.toks] at hf
    have hc := parseComm_complete c (f := f) hp (hr.mono fun t ht => (Bool.and_eq_true_iff.mp ht).1) (by omega)
    rw [Pipe.toks, parsePipe, hc]
    simp only [bind, Except.bind]
    split
    · exact absurd rfl (hr.ne (t := .bar) rfl)
    · rfl
  | bar c p =>
    simp only [Pipe.toks, List.length_append, List.length_cons] at hf
    have hbar : Follows afterComm (.bar :: (p.toks ++ rest)) := Follows.cons rfl
    have hc := parseComm_complete c (f := f) hp.1 hbar (by omega)
    have hrec := parsePipe_complete p (f := f) hp.2 hr (by omega)
    rw [Pipe.toks, List.append_assoc, List.cons_append, parsePipe, hc]
    simp only [bind, Except.bind, hrec]

theorem parseComm_complete (c : Comm) {f : ℕ} {rest : List Tok} (hc : c.Fits) (hr : Follows afterComm rest)
    (hf : 4 * c.toks.length + 2 ≤ f) : parseComm f (c.toks ++ rest) = .ok (c, rest) := by
  obtain ⟨f, rfl⟩ := Nat.exists_eq_succ_of_ne_zero (show f ≠ 0 by omega)
  cases c with
  | block l rs =>
    obtain ⟨f, rfl⟩ := Nat.exists_eq_succ_of_ne_zero (show f ≠ 0 by omega)
    simp only [Comm.toks, List.length_append, List.length_cons] at hf
    have hrpar : Follows afterLine (.rpar :: (rs.flatMap Redir.toks ++ rest)) := Follows.cons rfl
    have hl := parseLine_complete l (f := f) hc hrpar (by omega)
    have hrs := parseRedirs_complete (f := f) rs (follows_args [] hr) (by omega)
    have htoks : (Comm.block l rs).toks ++ rest =
        .lpar :: (l.toks ++ .rpar :: (rs.flatMap Redir.toks ++ rest)) := by
      simp [Comm.toks]
    rw [htoks]
    show parseBlock (f + 1) _ = _
    rw [parseBlock, hl]
    simp only [bind, Except.bind]
    rw [show rs.flatMap Redir.toks ++ rest = rs.flatMap Redir.toks ++ ([].flatMap Arg.toks ++ rest) from rfl, hrs]
    rfl
  | simple rs args =>
    simp only [Comm.toks, List.length_append] at hf
    have hrs := parseRedirs_complete (f := f) rs (follows_args args hr) (by omega)
    have hargs : parseArgs f 0 (args.flatMap Arg.toks ++ rest) = _ :=
      parseArgs_complete args hr (by simpa [Comm.Fits] using hc) (by omega)
    rw [Comm.toks, List.append_assoc, parseComm_simple (head_ne_lpar hr), hrs]
    simp only [bind, Except.bind, hargs]

end

/-- Tokens have at most one derivation. -/
theorem line_unique {l l' : Line} (h : l.Fits) (h' : l'.Fits) (ht : l.toks = l'.toks) : l = l' := by
  have hend : Follows afterLine [] := by
    rintro t ⟨⟩
  have h1 := parseLine_complete l (f := 4 * l'.toks.length + 4) h hend (by rw [ht])
  have h2 := parseLine_complete l' h' hend le_rfl
  rw [ht, h2, Except.ok.injEq, Prod.mk.injEq] at h1
  exact h1.1.symm

end Shell
end Xv6
