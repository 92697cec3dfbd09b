/-
# The parser of the shell

`gettoken`, `peek` and the recursive descent of `user/sh.c` over a line in memory.
The line is the bytes before its terminating NUL; a pointer into it is an index,
and an access beyond the NUL is `Stop.fault`. The five parsing functions share the
cursor `*ps`, which here each of them takes and returns. They recurse and loop with
a bound on the rounds, and run out of it with `Stop.blocked`.

The nodes of the tree point into the line until `nulterminate` writes a NUL after
each word, so a command is read back (`Cmd.strings`) from the memory after that.
`malloc` is taken to return memory.

Key definitions: `Shell.gettoken`, `Shell.peek`, `Shell.parseline`, `Shell.parsecmd`.
-/
import Xv6.Basic

namespace Xv6
namespace Shell

def MAXARGS : ℕ := 10

def O_RDONLY : ℕ := 0x000
def O_WRONLY : ℕ := 0x001
def O_CREATE : ℕ := 0x200
def O_TRUNC : ℕ := 0x400

def whitespace : List UInt8 := chars [' ', '\t', '\r', '\n', '\x0b']

def symbols : List UInt8 := chars ['<', '|', '>', '&', ';', '(', ')']

/-- A parsed command; words are given by the addresses of their first byte and of the byte after them. -/
inductive Cmd
  | exec (argv : List (ℕ × ℕ))
  | redir (cmd : Cmd) (file efile mode fd : ℕ)
  | pipe (left right : Cmd)
  | list (left right : Cmd)
  | back (cmd : Cmd)
  deriving DecidableEq, Repr

/-- `cmd->argv[argc] = q; cmd->eargv[argc] = eq`, where `cmd` is the `execcmd` that the
redirections have been wrapped around. -/
def Cmd.addArg (a : ℕ × ℕ) : Cmd → Cmd
  | .exec argv => .exec (argv ++ [a])
  | .redir cmd file efile mode fd => .redir (cmd.addArg a) file efile mode fd
  | cmd => cmd

/-! ### Tokens -/

section

variable (s : List UInt8)

/-- `*p`. -/
def load (p : ℕ) : Except Stop UInt8 :=
  if h : p < s.length then .ok s[p] else if p = s.length then .ok 0 else .error .fault

/-- `while(s < es && ...) s++`, with `es - s` rounds to go. -/
def skipLoop (P : UInt8 → Bool) : ℕ → ℕ → Except Stop ℕ
  | 0, p => .ok p
  | f + 1, p => do if P (← load s p) then skipLoop P f (p + 1) else .ok p

def skip (P : UInt8 → Bool) (p : ℕ) : Except Stop ℕ := skipLoop s P (s.length - p) p

/-- `strchr(whitespace, c)`. -/
def isSpace (c : UInt8) : Bool := whitespace.contains c

def isWord (c : UInt8) : Bool := !whitespace.contains c && !symbols.contains c

/-- What `gettoken` returns, also through its pointers: the kind of the token, where it
starts and ends, and the new cursor. -/
structure Token where
  ret : UInt8
  q : ℕ
  eq : ℕ
  next : ℕ

def gettoken (p : ℕ) : Except Stop Token := do
  let q ← skip s isSpace p
  let c ← load s q
  let (ret, eq) ←
    if c = 0 then .ok (c, q)
    else if c ∈ chars ['|', '(', ')', ';', '&', '<'] then .ok (c, q + 1)
    else if c = '>'.toUInt8 then do
      if (← load s (q + 1)) = '>'.toUInt8 then .ok ('+'.toUInt8, q + 2) else .ok (c, q + 1)
    else do .ok ('a'.toUInt8, ← skip s isWord q)
  .ok { ret := ret, q := q, eq := eq, next := ← skip s isSpace eq }

def peek (p : ℕ) (toks : List UInt8) : Except Stop (Bool × ℕ) := do
  let p ← skip s isSpace p
  let c ← load s p
  .ok (c ≠ 0 ∧ c ∈ toks, p)

/-! ### The parser -/

/-- The loop of `parseredirs`. -/
def parseredirs : ℕ → Cmd → ℕ → Except Stop (Cmd × ℕ)
  | 0, _, _ => .error .blocked
  | f + 1, cmd, p => do
    let (more, p) ← peek s p (chars ['<', '>'])
    if more then
      let tok ← gettoken s p
      let t ← gettoken s tok.next
      if t.ret ≠ 'a'.toUInt8 then .error (.panic "missing file for redirection")
      else
        let cmd :=
          if tok.ret = '<'.toUInt8 then Cmd.redir cmd t.q t.eq O_RDONLY 0
          else if tok.ret = '>'.toUInt8 then Cmd.redir cmd t.q t.eq (O_WRONLY ||| O_CREATE ||| O_TRUNC) 1
          else if tok.ret = '+'.toUInt8 then Cmd.redir cmd t.q t.eq (O_WRONLY ||| O_CREATE) 1
          else cmd
        parseredirs f cmd t.next
    else .ok (cmd, p)

/-- The loop of `parseexec`. -/
def parseargs : ℕ → ℕ → Cmd → ℕ → Except Stop (Cmd × ℕ)
  | 0, _, _, _ => .error .blocked
  | f + 1, argc, ret, p => do
    let (stop, p) ← peek s p (chars ['|', ')', '&', ';'])
    if stop then .ok (ret, p)
    else
      let t ← gettoken s p
      if t.ret = 0 then .ok (ret, t.next)
      else if t.ret ≠ 'a'.toUInt8 then .error (.panic "syntax")
      else if MAXARGS ≤ argc + 1 then .error (.panic "too many args")
      else
        let (ret, p) ← parseredirs s f (ret.addArg (t.q, t.eq)) t.next
        parseargs f (argc + 1) ret p

/-- The loop of `parseline` over `&`. -/
def parseback : ℕ → Cmd → ℕ → Except Stop (Cmd × ℕ)
  | 0, _, _ => .error .blocked
  | f + 1, cmd, p => do
    let (more, p) ← peek s p (chars ['&'])
    if more then
      let t ← gettoken s p
      parseback f (.back cmd) t.next
    else .ok (cmd, p)

mutual

def parseline : ℕ → ℕ → Except Stop (Cmd × ℕ)
  | 0, _ => .error .blocked
  | f + 1, p => do
    let (cmd, p) ← parsepipe f p
    let (cmd, p) ← parseback s f cmd p
    let (more, p) ← peek s p (chars [';'])
    if more then
      let t ← gettoken s p
      let (right, p) ← parseline f t.next
      .ok (.list cmd right, p)
    else .ok (cmd, p)

def parsepipe : ℕ → ℕ → Except Stop (Cmd × ℕ)
  | 0, _ => .error .blocked
  | f + 1, p => do
    let (cmd, p) ← parseexec f p
    let (more, p) ← peek s p (chars ['|'])
    if more then
      let t ← gettoken s p
      let (right, p) ← parsepipe f t.next
      .ok (.pipe cmd right, p)
    else .ok (cmd, p)

def parseexec : ℕ → ℕ → Except Stop (Cmd × ℕ)
  | 0, _ => .error .blocked
  | f + 1, p => do
    let (block, p) ← peek s p (chars ['('])
    if block then parseblock f p
    else
      let (ret, p) ← parseredirs s f (.exec []) p
      parseargs s f 0 ret p

def parseblock : ℕ → ℕ → Except Stop (Cmd × ℕ)
  | 0, _ => .error .blocked
  | f + 1, p => do
    let (opened, p) ← peek s p (chars ['('])
    if !opened then .error (.panic "parseblock")
    else
      let t ← gettoken s p
      let (cmd, p) ← parseline f t.next
      let (closed, p) ← peek s p (chars [')'])
      if !closed then .error (.panic "syntax - missing )")
      else
        let t ← gettoken s p
        parseredirs s f cmd t.next

end

end

/-! ### The strings of a command -/

def nulterminate : Cmd → List UInt8 → List UInt8
  | .exec argv, mem => argv.foldl (fun mem a => mem.set a.2 0) mem
  | .redir cmd _ efile _ _, mem => (nulterminate cmd mem).set efile 0
  | .pipe left right, mem => nulterminate right (nulterminate left mem)
  | .list left right, mem => nulterminate right (nulterminate left mem)
  | .back cmd, mem => nulterminate cmd mem

/-- The line `s`, parsed with at most `fuel` rounds of each loop: the tree and the memory of the line. -/
def parsecmd (fuel : ℕ) (s : List UInt8) : Except Stop (Cmd × List UInt8) := do
  let (cmd, p) ← parseline s fuel 0
  let (_, p) ← peek s p []
  if p ≠ s.length then .error (.panic "syntax")
  else .ok (cmd, nulterminate cmd (s ++ [0]))

/-- A command by the words themselves. -/
inductive Tree
  | exec (argv : List (List UInt8))
  | redir (cmd : Tree) (file : List UInt8) (mode fd : ℕ)
  | pipe (left right : Tree)
  | list (left right : Tree)
  | back (cmd : Tree)
  deriving DecidableEq, Repr

/-- The command with each word given by `w`. -/
def Cmd.tree (w : ℕ × ℕ → List UInt8) : Cmd → Tree
  | .exec argv => .exec (argv.map w)
  | .redir cmd file efile mode fd => .redir (cmd.tree w) (w (file, efile)) mode fd
  | .pipe left right => .pipe (left.tree w) (right.tree w)
  | .list left right => .list (left.tree w) (right.tree w)
  | .back cmd => .back (cmd.tree w)

/-- The command as `runcmd` sees it: each word is the string at its address. -/
def Cmd.strings (mem : List UInt8) : Cmd → Tree := Cmd.tree fun a => (mem.drop a.1).takeWhile (· ≠ 0)

end Shell
end Xv6
