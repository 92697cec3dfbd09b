/-
# What the parser of the shell accepts

The parser follows the recursive descent over the tokens of the line. At a cursor
the tokens to come are `lex` of the bytes from there on; `peek` keeps them and looks
at the first one, and `gettoken` takes it off (`peek_spec`, `gettoken_spec`). So each
parsing function does to the cursor what its counterpart does to the tokens (`Sim`),
and `parsecmd` accepts the lines that the grammar derives.

Key theorem: `Shell.parsecmd_derives`.
-/
import Mathlib.Data.List.TakeWhile
import Xv6.ShellGrammar

namespace Xv6
namespace Shell

variable {s : List UInt8} {p q : ℕ} {r : List UInt8} {P : UInt8 → Bool}

/-! ### Bytes from the cursor on -/

theorem load_spec (hp : p ≤ s.length) : load s p = .ok ((s.drop p).head?.getD 0) := by
  unfold load
  rw [List.head?_drop]
  split_ifs with h1 h2
  · rw [List.getElem?_eq_getElem h1]
    rfl
  · rw [List.getElem?_eq_none (by omega)]
    rfl
  · omega

theorem skipLoop_spec (f : ℕ) (hp : p + f = s.length) :
    skipLoop s P f p = .ok (p + ((s.drop p).takeWhile P).length) := by
  induction f generalizing p with
  | zero =>
    rw [List.drop_eq_nil_of_le (by omega)]
    rfl
  | succ f ih =>
    have hlt : p < s.length := by omega
    have hload : load s p = .ok s[p] := dif_pos hlt
    rw [skipLoop, hload, List.drop_eq_getElem_cons hlt]
    show (if P s[p] = true then skipLoop s P f (p + 1) else .ok p) = _
    by_cases hP : P s[p] = true
    · rw [if_pos hP, ih (by omega), List.takeWhile_cons_of_pos hP, List.length_cons, Nat.add_right_comm, Nat.add_assoc]
    · rw [if_neg hP, List.takeWhile_cons_of_neg hP]
      rfl

theorem skip_spec (hp : p ≤ s.length) : skip s P p = .ok (p + ((s.drop p).takeWhile P).length) :=
  skipLoop_spec _ (by omega)

theorem drop_length_takeWhile (l : List UInt8) : l.drop (l.takeWhile P).length = l.dropWhile P := by
  conv_lhs =>
    arg 2
    rw [← List.takeWhile_append_dropWhile (p := P) (l := l)]
  exact List.drop_left

/-- `p` is a cursor in the line with the bytes `r` to come. -/
structure Rest (s : List UInt8) (p : ℕ) (r : List UInt8) : Prop where
  le : p ≤ s.length
  drop : s.drop p = r

theorem Rest.skip (h : Rest s p r) :
    skip s P p = .ok (p + (r.takeWhile P).length) ∧ Rest s (p + (r.takeWhile P).length) (r.dropWhile P) := by
  obtain ⟨hp, rfl⟩ := h
  refine ⟨skip_spec hp, ?_, ?_⟩
  · have h1 := (List.takeWhile_sublist P (l := s.drop p)).length_le
    rw [List.length_drop] at h1
    omega
  · rw [← List.drop_drop, drop_length_takeWhile]

theorem Rest.load (h : Rest s p r) : load s p = .ok (r.head?.getD 0) := by
  rw [load_spec h.le, h.drop]

theorem Rest.next {c : UInt8} {cs : List UInt8} (h : Rest s p (c :: cs)) : Rest s (p + 1) cs := by
  have hlt : p < s.length := by
    by_contra hge
    have := h.drop
    rw [List.drop_eq_nil_of_le (by omega)] at this
    cases this
  refine ⟨hlt, ?_⟩
  rw [← List.drop_drop, h.drop]
  rfl

/-! ### Tokens from the cursor on -/

theorem lex_space {c : UInt8} {cs : List UInt8} (h : isSpace c = true) : lex (c :: cs) = lex cs := by
  rw [lex, if_pos h]

theorem lex_dropWhile (r : List UInt8) : lex (r.dropWhile isSpace) = lex r := by
  induction r with
  | nil => rfl
  | cons c cs ih =>
    by_cases h : isSpace c = true
    · rw [List.dropWhile_cons_of_pos h, lex_space h, ih]
    · rw [List.dropWhile_cons_of_neg h]

/-- What `gettoken` returns for a token. -/
def Tok.code : Tok → UInt8
  | .word _ => 'a'.toUInt8
  | .lt => '<'.toUInt8
  | .gt => '>'.toUInt8
  | .gtgt => '+'.toUInt8
  | .bar => '|'.toUInt8
  | .amp => '&'.toUInt8
  | .semi => ';'.toUInt8
  | .lpar => '('.toUInt8
  | .rpar => ')'.toUInt8

/-- The first character of an operator. -/
def Tok.lead : Tok → Option UInt8
  | .word _ => none
  | .gtgt => some '>'.toUInt8
  | t => some t.code

theorem opOf_some {c : UInt8} {t : Tok} (h : opOf c = some t) :
    c ∈ chars ['|', '(', ')', ';', '&', '<'] ∧ t.code = c ∧ t.lead = some c ∧ (∀ w, t ≠ .word w) ∧ c ≠ 0 := by
  unfold opOf at h
  split_ifs at h with h1 h2 h3 h4 h5 h6
  all_goals
    cases h
    subst_vars
    exact ⟨by decide, rfl, rfl, fun w => by simp, by decide⟩

theorem opOf_none {c : UInt8} (h : opOf c = none) (hg : c ≠ '>'.toUInt8) :
    c ∉ chars ['|', '(', ')', ';', '&', '<'] ∧ c ∉ symbols := by
  unfold opOf at h
  split_ifs at h with h1 h2 h3 h4 h5 h6
  simp [chars, symbols, *]

/-- The word at an address, up to the next byte that cannot be in a word. -/
def text (s : List UInt8) (a : ℕ × ℕ) : List UInt8 := (s.drop a.1).takeWhile isWord

/-- The two addresses are the ends of a word of the line. -/
def Span (s : List UInt8) (a : ℕ × ℕ) : Prop := a.1 ≤ s.length ∧ a.2 = a.1 + (text s a).length

/-- `p` is a cursor in the line with the tokens `ts` to come. -/
structure At (s : List UInt8) (p : ℕ) (ts : List Tok) : Prop where
  le : p ≤ s.length
  lex : lex (s.drop p) = ts

theorem Rest.at_lex (h : Rest s p r) : At s p (lex r) := ⟨h.le, by rw [h.drop]⟩

/-- The first token to come starts with one of `toks`. -/
def peeks (toks : List UInt8) : List Tok → Bool
  | [] => false
  | t :: _ => (t.lead.map toks.contains).getD false

theorem not_space_of_dropWhile {c : UInt8} {cs : List UInt8} (h : r.dropWhile isSpace = c :: cs) :
    isSpace c = false := by
  have h1 := List.head?_dropWhile_not isSpace r
  rw [h] at h1
  simpa using h1

/-- What the first byte after the blanks says of the token there. -/
inductive Scan (c : UInt8) (cs : List UInt8) : Tok → List UInt8 → Prop
  | op {t : Tok} : opOf c = some t → Scan c cs t cs
  | gt : c = '>'.toUInt8 → cs.head? ≠ some '>'.toUInt8 → Scan c cs .gt cs
  | gtgt {cs' : List UInt8} : c = '>'.toUInt8 → cs = '>'.toUInt8 :: cs' → Scan c cs .gtgt cs'
  | word : c ≠ '>'.toUInt8 → opOf c = none → isWord c = true →
      Scan c cs (.word (c :: cs.takeWhile isWord)) (cs.dropWhile isWord)

theorem lex_scan {c : UInt8} (cs : List UInt8) (hc : isSpace c = false) :
    ∃ t rest, Scan c cs t rest ∧ lex (c :: cs) = t :: lex rest := by
  rw [lex, if_neg (by simp [hc])]
  by_cases hg : c = '>'.toUInt8
  · rw [if_pos hg]
    by_cases hh : cs.head? = some '>'.toUInt8
    · obtain ⟨cs', rfl⟩ := List.head?_eq_some_iff.mp hh
      rw [if_pos hh]
      exact ⟨_, _, .gtgt hg rfl, rfl⟩
    · rw [if_neg hh]
      exact ⟨_, _, .gt hg hh, rfl⟩
  · rw [if_neg hg]
    cases ho : opOf c with
    | some t => exact ⟨_, _, .op ho, rfl⟩
    | none =>
      have hw : isWord c = true := by
        have hs : whitespace.contains c = false := hc
        rw [isWord, hs]
        simpa using (opOf_none ho hg).2
      exact ⟨_, _, .word hg ho hw, rfl⟩

theorem Scan.lead {c : UInt8} {cs rest : List UInt8} {t : Tok} (h : Scan c cs t rest) (toks : List UInt8)
    (ht : toks ⊆ symbols) : (t.lead.map toks.contains).getD false = toks.contains c := by
  cases h with
  | op ho => simp [(opOf_some ho).2.2.1]
  | gt hc => simp [Tok.lead, Tok.code, hc]
  | gtgt hc => simp [Tok.lead, hc]
  | word hg ho =>
    have hn : c ∉ toks := fun hm => (opOf_none ho hg).2 (ht hm)
    simp [Tok.lead, hn]

theorem gettoken_nil (h : At s p []) : ∃ g, gettoken s p = .ok g ∧ g.ret = 0 ∧ At s g.next [] := by
  obtain ⟨hp, hl⟩ := h
  obtain ⟨hskip, hrest⟩ := Rest.skip (P := isSpace) ⟨hp, rfl⟩
  obtain ⟨hskip', hrest'⟩ := hrest.skip (P := isSpace)
  generalize hr : (s.drop p).dropWhile isSpace = r at hrest hrest' hskip'
  cases r with
  | nil =>
    unfold gettoken
    rw [hskip]
    simp only [bind, Except.bind, hrest.load, List.head?_nil, Option.getD_none, if_true, hskip']
    exact ⟨_, rfl, rfl, by simpa [lex] using hrest'.at_lex⟩
  | cons c cs =>
    obtain ⟨t, rest, -, hlex⟩ := lex_scan cs (not_space_of_dropWhile hr)
    rw [← lex_dropWhile, hr, hlex] at hl
    cases hl

section

variable (hs : 0 ∉ s)

include hs

theorem Rest.ne_zero {c : UInt8} {cs : List UInt8} (h : Rest s p (c :: cs)) : c ≠ 0 := by
  rintro rfl
  exact hs (List.mem_of_mem_drop (h.drop ▸ List.mem_cons_self))

/-- **`peek`** looks at the first token. -/
theorem peek_spec {ts : List Tok} (toks : List UInt8) (h : At s p ts) (ht : toks ⊆ symbols) :
    ∃ q, peek s p toks = .ok (peeks toks ts, q) ∧ At s q ts := by
  obtain ⟨hp, rfl⟩ := h
  obtain ⟨hskip, hrest⟩ := Rest.skip (P := isSpace) ⟨hp, rfl⟩
  have hat := hrest.at_lex
  rw [lex_dropWhile] at hat
  refine ⟨_, ?_, hat⟩
  unfold peek
  rw [hskip]
  simp only [bind, Except.bind, hrest.load]
  rw [← lex_dropWhile]
  generalize hr : (s.drop p).dropWhile isSpace = r at hrest
  cases r with
  | nil => simp [lex, peeks]
  | cons c cs =>
    obtain ⟨t, rest, hscan, hlex⟩ := lex_scan cs (not_space_of_dropWhile hr)
    have hc := hrest.ne_zero hs
    simp only [hlex, peeks, hscan.lead toks ht]
    simp [hc]

/-- **`gettoken`** takes the first token off. -/
theorem gettoken_spec {t : Tok} {ts : List Tok} (h : At s p (t :: ts)) :
    ∃ g, gettoken s p = .ok g ∧ g.ret = t.code ∧ At s g.next ts ∧
      ∀ w, t = .word w → Span s (g.q, g.eq) ∧ text s (g.q, g.eq) = w := by
  obtain ⟨hp, hl⟩ := h
  obtain ⟨hskip, hrest⟩ := Rest.skip (P := isSpace) ⟨hp, rfl⟩
  generalize hq : p + ((s.drop p).takeWhile isSpace).length = q at hskip hrest
  generalize hr : (s.drop p).dropWhile isSpace = r at hrest
  rw [← lex_dropWhile, hr] at hl
  cases r with
  | nil => simp [lex] at hl
  | cons c cs =>
    obtain ⟨t', rest, hscan, hlex⟩ := lex_scan cs (not_space_of_dropWhile hr)
    rw [hlex, List.cons.injEq] at hl
    obtain ⟨rfl, rfl⟩ := hl
    have hc := hrest.ne_zero hs
    -- the blanks after the token do not change the tokens to come
    have hafter : ∀ {e : ℕ} {r : List UInt8}, Rest s e r → ∃ n, skip s isSpace e = .ok n ∧ At s n (lex r) := by
      intro e r he
      obtain ⟨hskip, hrest⟩ := he.skip (P := isSpace)
      have hat := hrest.at_lex
      rw [lex_dropWhile] at hat
      exact ⟨_, hskip, hat⟩
    unfold gettoken
    rw [hskip]
    simp only [bind, Except.bind, hrest.load, List.head?_cons, Option.getD_some, if_neg hc]
    cases hscan with
    | op ho =>
      obtain ⟨hmem, hcode, -, hword, -⟩ := opOf_some ho
      obtain ⟨n, hn, hat⟩ := hafter hrest.next
      rw [if_pos hmem]
      simp only [hn]
      exact ⟨_, rfl, hcode.symm, hat, fun w hw => absurd hw (hword w)⟩
    | gt hg hh =>
      subst hg
      obtain ⟨n, hn, hat⟩ := hafter hrest.next
      have hne : cs.head?.getD 0 ≠ '>'.toUInt8 := by
        cases cs with
        | nil => decide
        | cons d ds => simpa using hh
      rw [if_neg (by decide), if_pos rfl]
      simp only [hrest.next.load, if_neg hne, hn]
      exact ⟨_, rfl, rfl, hat, fun w hw => by cases hw⟩
    | gtgt hg hh =>
      subst hg hh
      obtain ⟨n, hn, hat⟩ := hafter hrest.next.next
      rw [if_neg (by decide), if_pos rfl]
      simp only [hrest.next.load, List.head?_cons, Option.getD_some, if_true, hn]
      exact ⟨_, rfl, rfl, hat, fun w hw => by cases hw⟩
    | word hg ho hw =>
      obtain ⟨hword, hend⟩ := hrest.skip (P := isWord)
      rw [List.dropWhile_cons_of_pos hw] at hend
      obtain ⟨n, hn, hat⟩ := hafter hend
      rw [if_neg (opOf_none ho hg).1, if_neg hg]
      simp only [hword, hn]
      have htext : ∀ e, text s (q, e) = c :: cs.takeWhile isWord := by
        intro e
        rw [text, hrest.drop, List.takeWhile_cons_of_pos hw]
      refine ⟨_, rfl, rfl, hat, fun w hw' => ⟨⟨hrest.le, ?_⟩, ?_⟩⟩
      · rw [htext, List.takeWhile_cons_of_pos hw]
      · rw [htext]
        exact Tok.word.inj hw'

end

/-! ### Commands -/

/-- The words of a command. -/
def Cmd.words : Cmd → List (ℕ × ℕ)
  | .exec argv => argv
  | .redir cmd file efile _ _ => cmd.words ++ [(file, efile)]
  | .pipe left right => left.words ++ right.words
  | .list left right => left.words ++ right.words
  | .back cmd => cmd.words

/-- The command is `t`, once its words are read from the line. -/
structure Means (s : List UInt8) (cmd : Cmd) (t : Tree) : Prop where
  tree : cmd.tree (text s) = t
  spans : ∀ a ∈ cmd.words, Span s a

section

variable {cmd cmd' : Cmd} {t t' : Tree} {a : ℕ × ℕ}

theorem Means.redir {mode fd : ℕ} (h : Means s cmd t) (ha : Span s a) :
    Means s (.redir cmd a.1 a.2 mode fd) (.redir t (text s a) mode fd) where
  tree := by
    rw [Cmd.tree, h.tree]
  spans b hb := by
    rcases List.mem_append.mp hb with hb | hb
    · exact h.spans b hb
    · exact List.mem_singleton.mp hb ▸ ha

theorem Means.back (h : Means s cmd t) : Means s (.back cmd) (.back t) :=
  ⟨congrArg Tree.back h.tree, h.spans⟩

theorem Means.pipe (h : Means s cmd t) (h' : Means s cmd' t') : Means s (.pipe cmd cmd') (.pipe t t') :=
  ⟨congrArg₂ Tree.pipe h.tree h'.tree, fun a ha => (List.mem_append.mp ha).elim (h.spans a) (h'.spans a)⟩

theorem Means.list (h : Means s cmd t) (h' : Means s cmd' t') : Means s (.list cmd cmd') (.list t t') :=
  ⟨congrArg₂ Tree.list h.tree h'.tree, fun a ha => (List.mem_append.mp ha).elim (h.spans a) (h'.spans a)⟩

def Tree.addArg (w : List UInt8) : Tree → Tree
  | .exec argv => .exec (argv ++ [w])
  | .redir cmd file mode fd => .redir (cmd.addArg w) file mode fd
  | cmd => cmd

theorem Cmd.tree_addArg (w : ℕ × ℕ → List UInt8) (a : ℕ × ℕ) (cmd : Cmd) :
    (cmd.addArg a).tree w = (cmd.tree w).addArg (w a) := by
  induction cmd with
  | exec argv => simp [Cmd.addArg, Cmd.tree, Tree.addArg]
  | redir cmd file efile mode fd ih => simp [Cmd.addArg, Cmd.tree, Tree.addArg, ih]
  | _ => rfl

theorem Cmd.mem_words_addArg {b : ℕ × ℕ} (h : b ∈ (cmd.addArg a).words) : b ∈ cmd.words ∨ b = a := by
  induction cmd with
  | exec argv => simpa [Cmd.addArg, Cmd.words] using h
  | redir cmd file efile mode fd ih =>
    simp only [Cmd.addArg, Cmd.words, List.mem_append, List.mem_singleton] at h ⊢
    rcases h with h | h
    · exact (ih h).imp .inl id
    · exact .inl (.inr h)
  | _ => exact .inl h

theorem Means.addArg (h : Means s cmd t) (ha : Span s a) : Means s (cmd.addArg a) (t.addArg (text s a)) :=
  ⟨by rw [Cmd.tree_addArg, h.tree], fun b hb => (Cmd.mem_words_addArg hb).elim (h.spans b) fun he => he ▸ ha⟩

end

/-! ### The parser follows the descent over tokens -/

/-- The parser and the descent end alike: with a command and what it means, with the tokens
to come where the cursor is, or with the same error. -/
def Sim {α : Type} (s : List UInt8) (tree : α → Tree) :
    Except Stop (Cmd × ℕ) → Except Stop (α × List Tok) → Prop
  | .ok (cmd, p), .ok (a, ts) => Means s cmd (tree a) ∧ At s p ts
  | .error e, .error e' => e = e'
  | _, _ => False

section

variable {α β : Type} {tree : α → Tree} {tree' : β → Tree} {x : Except Stop (Cmd × ℕ)}
  {y : Except Stop (α × List Tok)}

theorem Sim.bind {g : Cmd × ℕ → Except Stop (Cmd × ℕ)} {h : α × List Tok → Except Stop (β × List Tok)}
    (hxy : Sim s tree x y)
    (hgh : ∀ cmd p a ts, Means s cmd (tree a) → At s p ts → Sim s tree' (g (cmd, p)) (h (a, ts))) :
    Sim s tree' (x >>= g) (y >>= h) := by
  cases x with
  | error e =>
    cases y with
    | error e' => exact hxy
    | ok b => exact hxy.elim
  | ok c =>
    cases y with
    | error e' => exact hxy.elim
    | ok b => exact hgh c.1 c.2 b.1 b.2 hxy.1 hxy.2

/-- The descent puts together what it has found; the parser has done so before. -/
theorem Sim.map {k : α → β} (hxy : Sim s tree x y) (hk : ∀ a, tree a = tree' (k a)) :
    Sim s tree' x (y >>= fun b => .ok (k b.1, b.2)) := by
  cases x with
  | error e =>
    cases y with
    | error e' => exact hxy
    | ok b => exact hxy.elim
  | ok c =>
    cases y with
    | error e' => exact hxy.elim
    | ok b => exact ⟨hk b.1 ▸ hxy.1, hxy.2⟩

end

section

variable (hs : 0 ∉ s) {cmd : Cmd} {t : Tree} {ts : List Tok}

include hs

/-- `gettoken` where a word is asked for. -/
theorem gettoken_word (hp : At s p ts) :
    (∃ w ts' g, ts = .word w :: ts' ∧ gettoken s p = .ok g ∧ g.ret = 'a'.toUInt8 ∧ At s g.next ts' ∧
      Span s (g.q, g.eq) ∧ text s (g.q, g.eq) = w) ∨
    (∀ w ts', ts ≠ .word w :: ts') ∧ ∃ g, gettoken s p = .ok g ∧ g.ret ≠ 'a'.toUInt8 := by
  cases ts with
  | nil =>
    obtain ⟨g, hg, hret, -⟩ := gettoken_nil hp
    exact .inr ⟨fun w ts' h => (by cases h), g, hg, by rw [hret]; decide⟩
  | cons t ts =>
    obtain ⟨g, hg, hret, hat, hw⟩ := gettoken_spec hs hp
    cases t with
    | word w => exact .inl ⟨w, ts, g, rfl, hg, hret, hat, hw w rfl⟩
    | _ => exact .inr ⟨fun w ts' h => (by cases h), g, hg, by rw [hret]; decide⟩

theorem parseredirs_sim (f : ℕ) (hp : At s p ts) (hc : Means s cmd t) :
    Sim s t.wraps (parseredirs s f cmd p) (parseRedirs f ts) := by
  induction f generalizing p ts cmd t with
  | zero => rfl
  | succ f ih =>
    obtain ⟨q, hq, hat⟩ := peek_spec hs (chars ['<', '>']) hp (by decide)
    rw [parseredirs, hq]
    cases ts with
    | nil => exact ⟨hc, hat⟩
    | cons t0 ts =>
      cases hop : redirOp t0 with
      | none =>
        have hno : peeks (chars ['<', '>']) (t0 :: ts) = false := by
          cases t0 <;> first | rfl | cases hop
        simp only [bind, Except.bind, hno, parseRedirs, hop]
        exact ⟨hc, hat⟩
      | some op =>
        have hyes : peeks (chars ['<', '>']) (t0 :: ts) = true := by
          cases t0 <;> first | rfl | cases hop
        obtain ⟨g, hg, hret, hat1, -⟩ := gettoken_spec hs hat
        simp only [bind, Except.bind, hyes, if_true, hg, parseRedirs, hop]
        rcases gettoken_word hs hat1 with ⟨w, ts', g', rfl, hg', hret', hat', hspan, rfl⟩ | ⟨hno, g', hg', hret'⟩
        · have hwrap : Means s (if g.ret = '<'.toUInt8 then Cmd.redir cmd g'.q g'.eq O_RDONLY 0
              else if g.ret = '>'.toUInt8 then Cmd.redir cmd g'.q g'.eq (O_WRONLY ||| O_CREATE ||| O_TRUNC) 1
              else if g.ret = '+'.toUInt8 then Cmd.redir cmd g'.q g'.eq (O_WRONLY ||| O_CREATE) 1
              else cmd) (t.wrap ⟨op, text s (g'.q, g'.eq)⟩) := by
            rw [hret]
            cases t0 <;> cases hop <;> exact hc.redir hspan
          simp only [hg', hret', ne_eq, not_true, if_false]
          exact (ih hat' hwrap).map fun rs => rfl
        · simp only [hg', ne_eq, hret', not_false_iff, if_true]
          rfl

theorem parseargs_sim (f argc : ℕ) (hp : At s p ts) (hc : Means s cmd t) :
    Sim s (List.foldl (fun t (a : Arg) => (t.addArg a.word).wraps a.redirs) t) (parseargs s f argc cmd p)
      (parseArgs f argc ts) := by
  induction f generalizing argc p ts cmd t with
  | zero => rfl
  | succ f ih =>
    obtain ⟨q, hq, hat⟩ := peek_spec hs (chars ['|', ')', '&', ';']) hp (by decide)
    rw [parseargs, hq]
    cases ts with
    | nil =>
      obtain ⟨g, hg, hret, hat1⟩ := gettoken_nil hat
      simp only [bind, Except.bind, peeks, hg, hret, if_true]
      exact ⟨hc, hat1⟩
    | cons t0 ts =>
      have hstop : peeks (chars ['|', ')', '&', ';']) (t0 :: ts) = t0.stops := by
        cases t0 <;> rfl
      simp only [bind, Except.bind, hstop, parseArgs]
      by_cases hst : t0.stops = true
      · rw [if_pos hst, if_pos hst]
        exact ⟨hc, hat⟩
      · rw [if_neg hst, if_neg hst]
        obtain ⟨g, hg, hret, hat1, hw⟩ := gettoken_spec hs hat
        simp only [hg]
        cases t0 with
        | word w =>
          obtain ⟨hspan, rfl⟩ := hw w rfl
          have hword : g.ret = 'a'.toUInt8 := hret
          rw [if_neg (by rw [hword]; decide), if_neg (by rw [hword]; decide)]
          dsimp only
          by_cases hmax : MAXARGS ≤ argc + 1
          · rw [if_pos hmax, if_pos hmax]
            rfl
          · rw [if_neg hmax, if_neg hmax]
            refine (parseredirs_sim hs f hat1 (hc.addArg hspan)).bind fun cmd p rs ts hc hp => ?_
            exact (ih (argc + 1) hp hc).map fun args => rfl
        | _ =>
          rw [if_neg (by rw [hret]; decide), if_pos (by rw [hret]; decide)]
          rfl

theorem parseback_sim (f : ℕ) (hp : At s p ts) (hc : Means s cmd t) :
    Sim s t.backs (parseback s f cmd p) (parseAmps f ts) := by
  induction f generalizing p ts cmd t with
  | zero => rfl
  | succ f ih =>
    obtain ⟨q, hq, hat⟩ := peek_spec hs (chars ['&']) hp (by decide)
    rw [parseback, hq]
    by_cases ha : ts.head? = some .amp
    · obtain ⟨ts, rfl⟩ := List.head?_eq_some_iff.mp ha
      obtain ⟨g, hg, -, hat1, -⟩ := gettoken_spec hs hat
      simp only [bind, Except.bind, hg, show peeks (chars ['&']) (.amp :: ts) = true from rfl, if_true]
      exact (ih hat1 hc.back).map fun n => rfl
    · have hno : peeks (chars ['&']) ts = false := by
        cases ts with
        | nil => rfl
        | cons t ts =>
          cases t with
          | amp => exact absurd rfl ha
          | _ => rfl
      simp only [bind, Except.bind, hno, parseAmps_stop ha]
      exact ⟨hc, hat⟩

omit hs in
/-- `peek` for the character of an operator that no other token starts with. -/
theorem peeks_head {c : Char} {t : Tok} (h : ∀ t' : Tok, (t'.lead.map (chars [c]).contains).getD false = decide (t' = t)) :
    peeks (chars [c]) ts = decide (ts.head? = some t) := by
  cases ts with
  | nil => rfl
  | cons t' ts => simp only [peeks, h, List.head?_cons, Option.some.injEq]

omit hs in
theorem addArg_wraps (t : Tree) (rs : List Redir) (w : List UInt8) : (t.wraps rs).addArg w = (t.addArg w).wraps rs := by
  induction rs generalizing t with
  | nil => rfl
  | cons r rs ih => exact ih (t.wrap r)

omit hs in
/-- The arguments of a simple command go into its innermost node. -/
theorem foldl_addArg (args : List Arg) (ws : List (List UInt8)) (rs : List Redir) :
    args.foldl (fun t a => (t.addArg a.word).wraps a.redirs) ((Tree.exec ws).wraps rs) =
      (Tree.exec (ws ++ args.map Arg.word)).wraps (rs ++ args.flatMap Arg.redirs) := by
  induction args generalizing ws rs with
  | nil => simp
  | cons a args ih =>
    have hstep : (((Tree.exec ws).wraps rs).addArg a.word).wraps a.redirs =
        (Tree.exec (ws ++ [a.word])).wraps (rs ++ a.redirs) := by
      rw [addArg_wraps]
      exact (List.foldl_append ..).symm
    rw [List.foldl_cons, hstep, ih]
    simp

/-- The four functions follow the descent. -/
structure Tracks (s : List UInt8) (f : ℕ) : Prop where
  line : ∀ {p : ℕ} {ts : List Tok}, At s p ts → Sim s Line.tree (parseline s f p) (parseLine f ts)
  pipe : ∀ {p : ℕ} {ts : List Tok}, At s p ts → Sim s Pipe.tree (parsepipe s f p) (parsePipe f ts)
  comm : ∀ {p : ℕ} {ts : List Tok}, At s p ts → Sim s Comm.tree (parseexec s f p) (parseComm f ts)
  block : ∀ {p : ℕ} {ts : List Tok}, At s p (.lpar :: ts) → Sim s Comm.tree (parseblock s f p) (parseBlock f ts)

theorem tracks (f : ℕ) : Tracks s f := by
  induction f with
  | zero =>
    refine ⟨fun _ => ?_, fun _ => ?_, fun _ => ?_, fun _ => ?_⟩
    · rw [parseline, parseLine]
      rfl
    · rw [parsepipe, parsePipe]
      rfl
    · rw [parseexec, parseComm]
      rfl
    · rw [parseblock, parseBlock]
      rfl
  | succ f ih =>
    refine ⟨fun {p ts} hp => ?_, fun {p ts} hp => ?_, fun {p ts} hp => ?_, fun {p ts} hp => ?_⟩
    · rw [parseline, parseLine]
      refine (ih.pipe hp).bind fun cmd p pl ts hc hp => ?_
      refine (parseback_sim hs f hp hc).bind fun cmd p n ts hc hp => ?_
      obtain ⟨q, hq, hat⟩ := peek_spec hs (chars [';']) hp (by decide)
      rw [peeks_head (t := .semi) fun t' => by cases t' <;> rfl] at hq
      simp only [hq]
      by_cases hsemi : ts.head? = some .semi
      · obtain ⟨ts, rfl⟩ := List.head?_eq_some_iff.mp hsemi
        obtain ⟨g, hg, -, hat1, -⟩ := gettoken_spec hs hat
        simp only [bind, Except.bind, hg, List.head?_cons, decide_true, if_true]
        exact (ih.line hat1).bind fun right p l ts hr hp => ⟨hc.list hr, hp⟩
      · simp only [bind, Except.bind, hsemi, decide_false, Bool.false_eq_true, if_false]
        split
        · exact absurd rfl hsemi
        · exact ⟨hc, hat⟩
    · rw [parsepipe, parsePipe]
      refine (ih.comm hp).bind fun cmd p c ts hc hp => ?_
      obtain ⟨q, hq, hat⟩ := peek_spec hs (chars ['|']) hp (by decide)
      rw [peeks_head (t := .bar) fun t' => by cases t' <;> rfl] at hq
      simp only [hq]
      by_cases hbar : ts.head? = some .bar
      · obtain ⟨ts, rfl⟩ := List.head?_eq_some_iff.mp hbar
        obtain ⟨g, hg, -, hat1, -⟩ := gettoken_spec hs hat
        simp only [bind, Except.bind, hg, List.head?_cons, decide_true, if_true]
        exact (ih.pipe hat1).bind fun right p l ts hr hp => ⟨hc.pipe hr, hp⟩
      · simp only [bind, Except.bind, hbar, decide_false, Bool.false_eq_true, if_false]
        split
        · exact absurd rfl hbar
        · exact ⟨hc, hat⟩
    · obtain ⟨q, hq, hat⟩ := peek_spec hs (chars ['(']) hp (by decide)
      rw [peeks_head (t := .lpar) fun t' => by cases t' <;> rfl] at hq
      rw [parseexec, hq]
      by_cases hl : ts.head? = some .lpar
      · obtain ⟨ts, rfl⟩ := List.head?_eq_some_iff.mp hl
        exact ih.block hat
      · simp only [bind, Except.bind, hl, decide_false, Bool.false_eq_true, if_false]
        rw [parseComm_simple hl]
        have hexec : Means s (.exec []) (.exec []) := ⟨rfl, fun a ha => (by cases ha)⟩
        refine (parseredirs_sim hs f hat hexec).bind fun cmd p rs ts hc hp => ?_
        refine (parseargs_sim hs f 0 hp hc).map fun args => ?_
        exact foldl_addArg args [] rs
    · obtain ⟨q, hq, hat⟩ := peek_spec hs (chars ['(']) hp (by decide)
      obtain ⟨g, hg, -, hat1, -⟩ := gettoken_spec hs hat
      rw [peeks_head (t := .lpar) fun t' => by cases t' <;> rfl] at hq
      rw [parseblock, hq, parseBlock]
      simp only [bind, Except.bind, hg, List.head?_cons, decide_true, Bool.not_true, Bool.false_eq_true, if_false]
      refine (ih.line hat1).bind fun cmd p l ts hc hp => ?_
      obtain ⟨q, hq, hat⟩ := peek_spec hs (chars [')']) hp (by decide)
      rw [peeks_head (t := .rpar) fun t' => by cases t' <;> rfl] at hq
      simp only [hq]
      by_cases hr : ts.head? = some .rpar
      · obtain ⟨ts, rfl⟩ := List.head?_eq_some_iff.mp hr
        obtain ⟨g, hg, -, hat1, -⟩ := gettoken_spec hs hat
        simp only [hg, List.head?_cons, decide_true, Bool.not_true, Bool.false_eq_true, if_false]
        exact (parseredirs_sim hs f hat1 hc).map fun rs => rfl
      · simp only [hr, decide_false, Bool.not_false, if_true]
        split
        · exact absurd rfl hr
        · rfl

end

/-! ### The memory of the line -/

theorem nulterminate_eq (cmd : Cmd) (mem : List UInt8) :
    nulterminate cmd mem = cmd.words.foldl (fun mem a => mem.set a.2 0) mem := by
  induction cmd generalizing mem with
  | exec argv => rfl
  | redir cmd file efile mode fd ih => rw [nulterminate, ih, Cmd.words, List.foldl_append]; rfl
  | pipe left right ihl ihr => rw [nulterminate, ihr, ihl, Cmd.words, List.foldl_append]
  | list left right ihl ihr => rw [nulterminate, ihr, ihl, Cmd.words, List.foldl_append]
  | back cmd ih => exact ih mem

/-- Bytes after words become 0, and the others stay. -/
theorem foldl_set_getElem? (l : List (ℕ × ℕ)) (mem : List UInt8) (i : ℕ) :
    (i ∉ l.map Prod.snd → (l.foldl (fun mem a => mem.set a.2 0) mem)[i]? = mem[i]?) ∧
      (i ∈ l.map Prod.snd → ∀ c, (l.foldl (fun mem a => mem.set a.2 0) mem)[i]? = some c → c = 0) := by
  induction l generalizing mem with
  | nil => exact ⟨fun _ => rfl, fun h => by cases h⟩
  | cons a l ih =>
    obtain ⟨h1, h2⟩ := ih (mem.set a.2 0)
    simp only [List.map_cons, List.mem_cons, List.foldl_cons, not_or]
    refine ⟨fun h => ?_, fun h => ?_⟩
    · rw [h1 h.2, List.getElem?_set_ne (Ne.symm h.1)]
    · by_cases hl : i ∈ l.map Prod.snd
      · exact h2 hl
      · intro c hc
        obtain rfl : i = a.2 := h.resolve_right hl
        rw [h1 hl, List.getElem?_set', if_pos rfl] at hc
        obtain ⟨-, -, rfl⟩ := Option.map_eq_some_iff.mp hc
        rfl

theorem Cmd.tree_congr {w w' : ℕ × ℕ → List UInt8} (cmd : Cmd) (h : ∀ a ∈ cmd.words, w a = w' a) :
    cmd.tree w = cmd.tree w' := by
  induction cmd with
  | exec argv => exact congrArg Tree.exec (List.map_congr_left h)
  | redir cmd file efile mode fd ih =>
    rw [Cmd.tree, Cmd.tree, ih fun a ha => h a (List.mem_append_left _ ha),
      h (file, efile) (List.mem_append_right _ (List.mem_singleton_self _))]
  | pipe left right ihl ihr =>
    rw [Cmd.tree, Cmd.tree, ihl fun a ha => h a (List.mem_append_left _ ha),
      ihr fun a ha => h a (List.mem_append_right _ ha)]
  | list left right ihl ihr =>
    rw [Cmd.tree, Cmd.tree, ihl fun a ha => h a (List.mem_append_left _ ha),
      ihr fun a ha => h a (List.mem_append_right _ ha)]
  | back cmd ih => exact congrArg Tree.back (ih h)

/-- The bytes of a word can be in words, and the byte after it cannot. -/
theorem Span.maximal {a : ℕ × ℕ} (h : Span s a) :
    (∀ i < (text s a).length, ∃ c, s[a.1 + i]? = some c ∧ (text s a)[i]? = some c ∧ isWord c = true) ∧
      ∀ c, s[a.2]? = some c → isWord c = false := by
  have happ := List.takeWhile_append_dropWhile (p := isWord) (l := s.drop a.1)
  have hget : ∀ i, s[a.1 + i]? = (text s a ++ (s.drop a.1).dropWhile isWord)[i]? := by
    intro i
    rw [text, happ, List.getElem?_drop]
  constructor
  · intro i hi
    have hc := List.getElem?_eq_getElem hi
    refine ⟨_, ?_, hc, List.mem_takeWhile_imp (List.getElem_mem hi)⟩
    rw [hget, List.getElem?_append_left hi, hc]
  · intro c hc
    rw [h.2, hget, List.getElem?_append_right le_rfl, Nat.sub_self, ← List.head?_eq_getElem?] at hc
    have := List.head?_dropWhile_not isWord (s.drop a.1)
    rw [hc] at this
    simpa using this

theorem takeWhile_eq_of_getElem? {l w : List UInt8} (hw : ∀ i < w.length, ∃ c, l[i]? = some c ∧ w[i]? = some c ∧ P c = true)
    (hend : ∀ c, l[w.length]? = some c → P c = false) : l.takeWhile P = w := by
  induction w generalizing l with
  | nil =>
    cases l with
    | nil => rfl
    | cons c l => exact List.takeWhile_cons_of_neg (by simp [hend c rfl])
  | cons d w ih =>
    obtain ⟨c, hc, hd, hP⟩ := hw 0 (Nat.zero_lt_succ _)
    cases l with
    | nil => cases hc
    | cons c' l =>
      cases hc
      cases hd
      rw [List.takeWhile_cons_of_pos hP, ih (fun i hi => hw (i + 1) (Nat.succ_lt_succ hi)) hend]

/-- After `nulterminate` a word is the string at its address. -/
theorem Means.string {cmd : Cmd} {t : Tree} {a : ℕ × ℕ} (hs : 0 ∉ s) (h : Means s cmd t) (ha : a ∈ cmd.words) :
    ((nulterminate cmd (s ++ [0])).drop a.1).takeWhile (· ≠ 0) = text s a := by
  have hspan := h.spans a ha
  obtain ⟨hin, hout⟩ := hspan.maximal
  rw [nulterminate_eq]
  refine takeWhile_eq_of_getElem? (fun i hi => ?_) fun c hc => ?_
  · obtain ⟨c, hc, htext, hP⟩ := hin i hi
    -- a byte in a word is not the end of one
    have hne : a.1 + i ∉ cmd.words.map Prod.snd := by
      rintro hm
      obtain ⟨b, hb, hbe⟩ := List.mem_map.mp hm
      rw [(h.spans b hb).maximal.2 c (hbe ▸ hc)] at hP
      cases hP
    have hlt : a.1 + i < s.length := by
      by_contra hge
      rw [List.getElem?_eq_none (by omega)] at hc
      cases hc
    refine ⟨c, ?_, htext, ?_⟩
    · rw [List.getElem?_drop, (foldl_set_getElem? ..).1 hne, List.getElem?_append_left hlt, hc]
    · have hc0 : c ≠ 0 := fun h0 => hs (h0 ▸ List.mem_of_getElem? hc)
      simpa using hc0
  · have hend : a.2 ∈ cmd.words.map Prod.snd := List.mem_map_of_mem ha
    rw [List.getElem?_drop, ← hspan.2] at hc
    simp [(foldl_set_getElem? ..).2 hend c hc]

theorem Means.strings {cmd : Cmd} {t : Tree} (hs : 0 ∉ s) (h : Means s cmd t) :
    cmd.strings (nulterminate cmd (s ++ [0])) = t := by
  rw [← h.tree]
  exact cmd.tree_congr fun a ha => h.string hs ha

/-! ### The whole line -/

theorem length_lex_le (s : List UInt8) : (lex s).length ≤ s.length := by
  fun_induction lex s with
  | case1 => rfl
  | case2 c cs _ ih => exact ih.trans (Nat.le_succ _)
  | case3 cs _ _ ih =>
    simp only [List.length_cons, List.length_tail] at ih ⊢
    omega
  | case4 cs _ _ ih => exact Nat.succ_le_succ ih
  | case5 c cs _ _ t _ ih => exact Nat.succ_le_succ ih
  | case6 c cs _ _ _ ih => exact Nat.succ_le_succ (ih.trans (List.dropWhile_sublist _).length_le)

/-- At the end of the tokens `peek` moves the cursor to the end of the line. -/
theorem peek_end (toks : List UInt8) (h : At s p []) : ∃ b, peek s p toks = .ok (b, s.length) := by
  obtain ⟨hp, hl⟩ := h
  obtain ⟨hskip, hrest⟩ := Rest.skip (P := isSpace) ⟨hp, rfl⟩
  have hnil : (s.drop p).dropWhile isSpace = [] := by
    cases hr : (s.drop p).dropWhile isSpace with
    | nil => rfl
    | cons c cs =>
      obtain ⟨t, rest, -, hlex⟩ := lex_scan cs (not_space_of_dropWhile hr)
      rw [← lex_dropWhile, hr, hlex] at hl
      cases hl
  have hend : p + ((s.drop p).takeWhile isSpace).length = s.length := by
    have h1 := congrArg List.length (List.takeWhile_append_dropWhile (p := isSpace) (l := s.drop p))
    rw [hnil, List.append_nil, List.length_drop] at h1
    omega
  have hload := hrest.load
  rw [hend] at hskip hload
  unfold peek
  rw [hskip]
  simp only [bind, Except.bind, hload]
  exact ⟨_, rfl⟩

/-- The derivation is one of the line, and within the bound on words. -/
def Line.Derives (l : Line) (s : List UInt8) : Prop := l.toks = lex s ∧ l.Fits

/-- **The parser accepts the lines of the grammar.** On a line without NULs it ends without
reading past the NUL after it. If the line has a derivation, then just one, and the result
is its command; otherwise the parser panics. -/
theorem parsecmd_derives {fuel : ℕ} (hs : 0 ∉ s) (hf : 4 * s.length + 4 ≤ fuel) :
    (∃ l : Line, l.Derives s ∧ (∀ l' : Line, l'.Derives s → l' = l) ∧
      ∃ cmd mem, parsecmd fuel s = .ok (cmd, mem) ∧ cmd.strings mem = l.tree) ∨
    (∀ l : Line, ¬ l.Derives s) ∧ ∃ msg, parsecmd fuel s = .error (.panic msg) := by
  have hlen := length_lex_le s
  have hsim := (tracks hs fuel).line (show At s 0 (lex s) from ⟨Nat.zero_le _, rfl⟩)
  have hsound : Derived Line.toks Line.Fits (lex s) (parseLine fuel (lex s)) := parseLine_sound (by omega)
  have hcomplete : ∀ l : Line, l.Derives s → parseLine fuel (lex s) = .ok (l, []) := by
    intro l ⟨ht, hl⟩
    have hend : Follows afterLine [] := by
      rintro t ⟨⟩
    have := parseLine_complete l (f := fuel) hl hend (by rw [ht]; omega)
    rwa [List.append_nil, ht] at this
  unfold parsecmd
  cases hpl : parseLine fuel (lex s) with
  | error e =>
    rw [hpl] at hsim hsound
    obtain ⟨msg, rfl⟩ := hsound
    cases hpc : parseline s fuel 0 with
    | ok r => exact (hpc ▸ hsim).elim
    | error e =>
      rw [hpc] at hsim
      obtain rfl : e = .panic msg := hsim
      refine .inr ⟨fun l hl => ?_, msg, rfl⟩
      rw [hcomplete l hl] at hpl
      cases hpl
  | ok r =>
    obtain ⟨l, rest⟩ := r
    rw [hpl] at hsim hsound
    cases hpc : parseline s fuel 0 with
    | error e => exact (hpc ▸ hsim).elim
    | ok r =>
      obtain ⟨cmd, p⟩ := r
      rw [hpc] at hsim
      obtain ⟨hmeans, hat⟩ := hsim
      by_cases hrest : rest = []
      · subst hrest
        obtain ⟨b, hb⟩ := peek_end [] hat
        have hl : l.Derives s := ⟨by rw [hsound.1, List.append_nil], hsound.2⟩
        refine .inl ⟨l, hl, fun l' hl' => line_unique hl'.2 hl.2 (hl'.1.trans hl.1.symm), cmd, _, ?_, hmeans.strings hs⟩
        simp [bind, Except.bind, hb]
      · obtain ⟨q, hq, hat'⟩ := peek_spec hs [] hat (by simp)
        have hne : q ≠ s.length := by
          rintro rfl
          have := hat'.lex
          rw [List.drop_length, lex] at this
          exact hrest this.symm
        refine .inr ⟨fun l' hl' => ?_, "syntax", by simp [bind, Except.bind, hq, hne]⟩
        rw [hcomplete l' hl', Except.ok.injEq, Prod.mk.injEq] at hpl
        exact hrest hpl.2.symm

/-- The line `ls <a|(b;c)&`. -/
def sampleLine : List UInt8 :=
  chars ['l', 's', ' ', '<', 'a', '|', '(', 'b', ';', 'c', ')', '&']

theorem parsecmd_derives_sample :
    (∃ cmd mem, parsecmd 60 sampleLine = .ok (cmd, mem) ∧ cmd.strings mem =
      .back (.pipe (.redir (.exec [chars ['l', 's']]) (chars ['a']) O_RDONLY 0)
        (.list (.exec [chars ['b']]) (.exec [chars ['c']])))) ∧
    ∃ l : Line, l.Derives sampleLine := by
  obtain ⟨⟨cmd, mem⟩, hr, hs⟩ := okWith_iff.mp
    (show okWith (parsecmd 60 sampleLine) (fun r => decide (r.1.strings r.2 =
      .back (.pipe (.redir (.exec [chars ['l', 's']]) (chars ['a']) O_RDONLY 0)
        (.list (.exec [chars ['b']]) (.exec [chars ['c']]))))) = true by decide +kernel)
  rcases @parsecmd_derives sampleLine 60 (by decide) (by decide) with ⟨l, hl, -⟩ | ⟨-, msg, hno⟩
  · exact ⟨⟨cmd, mem, hr, of_decide_eq_true hs⟩, l, hl⟩
  · rw [hno] at hr
    cases hr

end Shell
end Xv6
