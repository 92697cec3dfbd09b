/-
# The words of a command in memory

`nulterminate` writes its NULs into the line itself, each over the byte after a word. That
byte cannot be in a word, so no NUL falls into another word, and every pointer in the tree
is a string again, the word that was read there (`parsecmd_words`). An `execcmd` has room
for `MAXARGS` pointers, and `parseexec` gives up before the last one is used.

Key definitions: `Shell.Cmd.execs`, `Shell.WordsKept`.
Key theorems: `Shell.fits`, `Shell.parsecmd_words`.
-/
import Xv6.ShellParse

namespace Xv6
namespace Shell

/-! ### The number of arguments -/

/-- Whatever the computation finds has the property. -/
def Finds {α : Type} (P : α → Prop) (x : Except Stop (α × List Tok)) : Prop := ∀ r, x = .ok r → P r.1

section

variable {α β : Type} {P : α → Prop} {Q : β → Prop}

theorem Finds.bind {x : Except Stop (α × List Tok)} {g : α × List Tok → Except Stop (β × List Tok)} (h : Finds P x)
    (hg : ∀ a ts, P a → Finds Q (g (a, ts))) : Finds Q (x >>= g) := by
  intro r hr
  obtain ⟨a, ha, hr⟩ := bind_ok hr
  exact hg a.1 a.2 (h a ha) r hr

theorem Finds.error (e : Stop) : Finds P (.error e) := by
  intro r hr
  cases hr

theorem Finds.ok {a : α} (h : P a) (ts : List Tok) : Finds P (.ok (a, ts)) := by
  intro r hr
  cases hr
  exact h

theorem finds_true (x : Except Stop (α × List Tok)) : Finds (fun _ => True) x := fun _ _ => trivial

end

theorem parseArgs_finds (f argc : ℕ) (ts : List Tok) (ha : argc ≤ MAXARGS - 1) :
    Finds (fun args => argc + args.length ≤ MAXARGS - 1) (parseArgs f argc ts) := by
  induction f generalizing argc ts with
  | zero => exact Finds.error _
  | succ f ih =>
    cases ts with
    | nil =>
      apply Finds.ok
      exact ha
    | cons t ts =>
      unfold parseArgs
      by_cases hs : t.stops = true
      · rw [if_pos hs]
        apply Finds.ok
        exact ha
      · rw [if_neg hs]
        split
        · by_cases hmax : MAXARGS ≤ argc + 1
          · rw [if_pos hmax]
            exact Finds.error _
          · rw [if_neg hmax]
            refine (finds_true _).bind fun rs ts _ => (ih (argc + 1) ts (by omega)).bind fun args ts hle => Finds.ok ?_ ts
            rw [List.length_cons]
            omega
        · exact Finds.error _

/-- The four functions keep to the bound on words, however many rounds they are given. -/
structure Fit (f : ℕ) : Prop where
  line : ∀ ts : List Tok, Finds Line.Fits (parseLine f ts)
  pipe : ∀ ts : List Tok, Finds Pipe.Fits (parsePipe f ts)
  comm : ∀ ts : List Tok, Finds Comm.Fits (parseComm f ts)
  block : ∀ ts : List Tok, Finds Comm.Fits (parseBlock f ts)

theorem fits (f : ℕ) : Fit f := by
  induction f with
  | zero =>
    refine ⟨fun ts => ?_, fun ts => ?_, fun ts => ?_, fun ts => ?_⟩
    · rw [parseLine]
      exact Finds.error _
    · rw [parsePipe]
      exact Finds.error _
    · rw [parseComm]
      exact Finds.error _
    · rw [parseBlock]
      exact Finds.error _
  | succ f ih =>
    refine ⟨fun ts => ?_, fun ts => ?_, fun ts => ?_, fun ts => ?_⟩
    · rw [parseLine]
      refine (ih.pipe ts).bind fun p ts hp => (finds_true _).bind fun n ts _ => ?_
      dsimp only
      split
      · exact (ih.line _).bind fun l ts hl => Finds.ok ⟨hp, hl⟩ ts
      · apply Finds.ok
        exact hp
    · rw [parsePipe]
      refine (ih.comm ts).bind fun c ts hc => ?_
      dsimp only
      split
      · exact (ih.pipe _).bind fun p ts hp => Finds.ok ⟨hc, hp⟩ ts
      · apply Finds.ok
        exact hc
    · by_cases hl : ts.head? = some .lpar
      · obtain ⟨ts, rfl⟩ := List.head?_eq_some_iff.mp hl
        exact ih.block ts
      · rw [parseComm_simple hl]
        refine (finds_true _).bind fun rs ts _ => (parseArgs_finds f 0 ts (Nat.zero_le _)).bind fun args ts ha => Finds.ok ?_ ts
        rwa [Nat.zero_add] at ha
    · rw [parseBlock]
      refine (ih.line ts).bind fun l ts hl => ?_
      dsimp only
      split
      · refine (finds_true _).bind fun rs ts _ => ?_
        apply Finds.ok
        exact hl
      · exact Finds.error _

/-! ### The argument vectors -/

/-- The arguments of the EXEC nodes. -/
def Cmd.execs : Cmd → List (List (ℕ × ℕ))
  | .exec argv => [argv]
  | .redir cmd _ _ _ _ => cmd.execs
  | .pipe left right => left.execs ++ right.execs
  | .list left right => left.execs ++ right.execs
  | .back cmd => cmd.execs

/-- `argv[i]`. The pointers after the arguments are null. -/
def argvAt (argv : List (ℕ × ℕ)) (i : ℕ) : Option ℕ := argv[i]?.map Prod.fst

/-- The numbers of arguments. -/
def Tree.counts : Tree → List ℕ
  | .exec argv => [argv.length]
  | .redir cmd _ _ _ => cmd.counts
  | .pipe left right => left.counts ++ right.counts
  | .list left right => left.counts ++ right.counts
  | .back cmd => cmd.counts

theorem Cmd.counts_tree (w : ℕ × ℕ → List UInt8) (cmd : Cmd) : (cmd.tree w).counts = cmd.execs.map List.length := by
  induction cmd with
  | exec argv => rw [Cmd.tree, Tree.counts, Cmd.execs, List.length_map]; rfl
  | redir cmd file efile mode fd ih => exact ih
  | pipe left right ihl ihr => rw [Cmd.tree, Tree.counts, Cmd.execs, ihl, ihr, List.map_append]
  | list left right ihl ihr => rw [Cmd.tree, Tree.counts, Cmd.execs, ihl, ihr, List.map_append]
  | back cmd ih => exact ih

theorem Cmd.mem_words_of_execs {cmd : Cmd} {argv : List (ℕ × ℕ)} (h : argv ∈ cmd.execs) : ∀ a ∈ argv, a ∈ cmd.words := by
  induction cmd with
  | exec argv' => exact List.mem_singleton.mp h ▸ fun a ha => ha
  | redir cmd file efile mode fd ih => exact fun a ha => List.mem_append_left _ (ih h a ha)
  | pipe left right ihl ihr =>
    rcases List.mem_append.mp h with h | h
    · exact fun a ha => List.mem_append_left _ (ihl h a ha)
    · exact fun a ha => List.mem_append_right _ (ihr h a ha)
  | list left right ihl ihr =>
    rcases List.mem_append.mp h with h | h
    · exact fun a ha => List.mem_append_left _ (ihl h a ha)
    · exact fun a ha => List.mem_append_right _ (ihr h a ha)
  | back cmd ih => exact ih h

theorem Tree.counts_wraps (t : Tree) (rs : List Redir) : (t.wraps rs).counts = t.counts := by
  induction rs generalizing t with
  | nil => rfl
  | cons r rs ih => exact ih (t.wrap r)

theorem Tree.counts_backs (t : Tree) (n : ℕ) : (t.backs n).counts = t.counts := by
  induction n generalizing t with
  | zero => rfl
  | succ n ih => exact ih (.back t)

mutual

theorem Line.counts_lt (l : Line) (h : l.Fits) : ∀ n ∈ l.tree.counts, n < MAXARGS := by
  cases l with
  | last p k =>
    rw [Line.tree, Tree.counts_backs]
    exact p.counts_lt h
  | semi p k l =>
    rw [Line.tree, Tree.counts, Tree.counts_backs]
    intro n hn
    rcases List.mem_append.mp hn with hn | hn
    · exact p.counts_lt h.1 n hn
    · exact l.counts_lt h.2 n hn

theorem Pipe.counts_lt (p : Pipe) (h : p.Fits) : ∀ n ∈ p.tree.counts, n < MAXARGS := by
  cases p with
  | one c => exact c.counts_lt h
  | bar c p =>
    intro n hn
    rcases List.mem_append.mp hn with hn | hn
    · exact c.counts_lt h.1 n hn
    · exact p.counts_lt h.2 n hn

theorem Comm.counts_lt (c : Comm) (h : c.Fits) : ∀ n ∈ c.tree.counts, n < MAXARGS := by
  cases c with
  | block l rs =>
    rw [Comm.tree, Tree.counts_wraps]
    exact l.counts_lt h
  | simple rs args =>
    rw [Comm.tree, Tree.counts_wraps, Tree.counts]
    intro n hn
    rw [List.mem_singleton.mp hn, List.length_map]
    exact Nat.lt_of_le_pred (by decide) h

end

/-! ### The words -/

/-- The string at an address. -/
def cstring (mem : List UInt8) (p : ℕ) : List UInt8 := (mem.drop p).takeWhile (· ≠ 0)

/-- The word that `gettoken` found between `*q` and `*eq`. -/
def wordAt (s : List UInt8) (a : ℕ × ℕ) : List UInt8 := (s.drop a.1).take (a.2 - a.1)

/-- The tree of a line `s` and the memory of the line after `nulterminate`: each argument and
file is a string, the word read there; the NULs are outside the words; and each argument
vector ends with a null pointer. -/
structure WordsKept (s mem : List UInt8) (cmd : Cmd) : Prop where
  strings : ∀ a ∈ cmd.words, cstring mem a.1 = wordAt s a
  nuls : ∀ a ∈ cmd.words, a.1 ≤ a.2 ∧ mem[a.2]? = some 0
  apart : ∀ a ∈ cmd.words, ∀ b ∈ cmd.words, ¬(a.1 ≤ b.2 ∧ b.2 < a.2)
  others : ∀ i, (∀ a ∈ cmd.words, i ≠ a.2) → mem[i]? = (s ++ [0])[i]?
  argv : ∀ argv ∈ cmd.execs, ∃ argc < MAXARGS, argvAt argv argc = none ∧
    ∀ i < argc, ∃ a ∈ cmd.words, argvAt argv i = some a.1

variable {s : List UInt8}

theorem Span.wordAt_eq {a : ℕ × ℕ} (h : Span s a) : wordAt s a = text s a := by
  have happ := List.takeWhile_append_dropWhile (p := isWord) (l := s.drop a.1)
  rw [wordAt, h.2, Nat.add_sub_cancel_left]
  rw [← happ]
  exact List.take_left

theorem Span.le {a : ℕ × ℕ} (h : Span s a) : a.2 ≤ s.length := by
  have hlen : (text s a).length ≤ (s.drop a.1).length := (List.takeWhile_sublist _).length_le
  rw [List.length_drop] at hlen
  have h1 := h.1
  rw [h.2]
  omega

theorem foldl_set_length (l : List (ℕ × ℕ)) (mem : List UInt8) :
    (l.foldl (fun mem a => mem.set a.2 0) mem).length = mem.length := by
  induction l generalizing mem with
  | nil => rfl
  | cons a l ih => rw [List.foldl_cons, ih, List.length_set]

/-- The end of a word is in no word. -/
theorem Span.apart {a b : ℕ × ℕ} (ha : Span s a) (hb : Span s b) : ¬(a.1 ≤ b.2 ∧ b.2 < a.2) := by
  rintro ⟨hle, hlt⟩
  rw [ha.2] at hlt
  obtain ⟨c, hc, -, hword⟩ := ha.maximal.1 (b.2 - a.1) (by omega)
  rw [Nat.add_sub_cancel' hle] at hc
  rw [hb.maximal.2 c hc] at hword
  cases hword

theorem Means.wordsKept {cmd : Cmd} {l : Line} (hs : 0 ∉ s) (h : Means s cmd l.tree) (hl : l.Fits) :
    WordsKept s (nulterminate cmd (s ++ [0])) cmd where
  strings a ha := by
    rw [(h.spans a ha).wordAt_eq]
    exact h.string hs ha
  nuls a ha := by
    have hend : a.2 ∈ cmd.words.map Prod.snd := List.mem_map_of_mem ha
    have hle := (h.spans a ha).le
    obtain ⟨c, hc⟩ : ∃ c, (cmd.words.foldl (fun mem a => mem.set a.2 0) (s ++ [0]))[a.2]? = some c := by
      refine ⟨_, List.getElem?_eq_getElem ?_⟩
      rw [foldl_set_length, List.length_append, List.length_singleton]
      omega
    refine ⟨?_, ?_⟩
    · rw [(h.spans a ha).2]
      exact Nat.le_add_right _ _
    · rw [nulterminate_eq, hc, (foldl_set_getElem? ..).2 hend c hc]
  apart a ha b hb := (h.spans a ha).apart (h.spans b hb)
  others i hi := by
    rw [nulterminate_eq]
    apply (foldl_set_getElem? ..).1
    intro hm
    obtain ⟨a, ha, rfl⟩ := List.mem_map.mp hm
    exact hi a ha rfl
  argv argv hargv := by
    have hcount : argv.length ∈ l.tree.counts := by
      rw [← h.tree, Cmd.counts_tree]
      exact List.mem_map_of_mem hargv
    refine ⟨argv.length, l.counts_lt hl _ hcount, ?_, fun i hi => ?_⟩
    · rw [argvAt, List.getElem?_eq_none (Nat.le_refl _)]
      rfl
    · refine ⟨argv[i], Cmd.mem_words_of_execs hargv _ (List.getElem_mem hi), ?_⟩
      rw [argvAt, List.getElem?_eq_getElem hi]
      rfl

/-- **After `parsecmd` every word is the string at its address.** -/
theorem parsecmd_words {fuel : ℕ} {cmd : Cmd} {mem : List UInt8} (hs : 0 ∉ s) (h : parsecmd fuel s = .ok (cmd, mem)) :
    WordsKept s mem cmd := by
  have hsim := (tracks hs fuel).line (show At s 0 (lex s) from ⟨Nat.zero_le _, rfl⟩)
  obtain ⟨r, hr, h⟩ := bind_ok h
  obtain ⟨q, -, h⟩ := bind_ok h
  dsimp only at h
  split_ifs at h
  cases h
  rw [hr] at hsim
  cases hl : parseLine fuel (lex s) with
  | error e =>
    rw [hl] at hsim
    exact hsim.elim
  | ok r' =>
    rw [hl] at hsim
    exact hsim.1.wordsKept hs ((fits fuel).line _ _ hl)

theorem parsecmd_words_sample : ∃ cmd mem, parsecmd 60 sampleLine = .ok (cmd, mem) ∧ cmd.words.length = 4 ∧
    WordsKept sampleLine mem cmd := by
  obtain ⟨⟨cmd, mem⟩, hr, hn⟩ := okWith_iff.mp
    (show okWith (parsecmd 60 sampleLine) (fun r => decide (r.1.words.length = 4)) = true by decide +kernel)
  exact ⟨cmd, mem, hr, of_decide_eq_true hn, parsecmd_words (by decide) hr⟩

end Shell
end Xv6
