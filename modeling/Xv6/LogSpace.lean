/-
# Log space

`begin_op` admits an operation when the blocks logged so far and
`MAXOPBLOCKS` for every operation in progress, this one included, fit in
`LOGSIZE` blocks. `mkfs` makes the log `LOGSIZE` blocks long, header
included, so that only `LOGSIZE - 1` blocks can be logged, and `log_write`
panics once they are, even if the block is in the log already: an operation
admitted to a completely reserved log can run out of space.

* `space_iff`: a run reaches `panic("too big a transaction")` exactly if it
  calls `log_write` in a group that has `LOGSIZE - 1` blocks already; it never
  does if `begin_op` leaves two blocks unreserved. In no run does `write_log`
  write past the log.
* `log_overrun`: three operations of `MAXOPBLOCKS` blocks each reach the panic.

Key definitions: `groupBlocks`, `opBlocks`, `Reserved`.
-/
import Xv6.LogCrash
import Mathlib.Algebra.BigOperators.Group.Finset.Basic
import Mathlib.Algebra.Order.BigOperators.Group.Finset

namespace Xv6
namespace Log

open TraceSys Redo

variable {A : Area} {s s' : Sys} {d0 : ℕ → Block} {tr tr' : List Ev} {acts : List Act}

/-- The distinct blocks logged since the last commit. -/
def groupBlocks (tr : List Ev) : Finset ℕ :=
  tr.foldl (fun S e => match e with
    | .logged _ b _ => insert b S
    | .committed => ∅
    | .crashed => ∅
    | _ => S) ∅

/-- The distinct blocks process `p` has passed to `log_write` since its last `begin_op`. -/
def opBlocks (p : ℕ) (acts : List Act) : Finset ℕ :=
  acts.foldl (fun S e => match e with
    | .beginOp q => if q = p then ∅ else S
    | .logWrite q b _ => if q = p then insert b S else S
    | .crash => ∅
    | _ => S) ∅

/-- Every operation passes at most `MAXOPBLOCKS` distinct blocks to `log_write`. -/
def OpsBounded (acts : List Act) : Prop :=
  ∀ n p b v, acts[n]? = some (.logWrite p b v) → (opBlocks p (acts.take (n + 1))).card ≤ MAXOPBLOCKS

/-! ### The group -/

theorem groupBlocks_eq (d : ℕ → Block) (tr : List Ev) :
    groupBlocks tr = ((spec d tr).pending.map Prod.fst).toFinset := by
  induction tr using List.reverseRecOn with
  | nil => rfl
  | append_singleton tr e ih =>
    rw [spec_append]
    have hs : groupBlocks (tr ++ [e]) = (match e with
        | .logged _ b _ => insert b (groupBlocks tr)
        | .committed => ∅
        | .crashed => ∅
        | _ => groupBlocks tr) := by
      rw [groupBlocks, List.foldl_append]
      rfl
    rw [hs]
    cases e with
    | logged p b v =>
      simp only [ih, List.foldl_cons, List.foldl_nil, Spec.next, List.map_append, List.toFinset_append]
      rw [Finset.union_comm]
      rfl
    | _ => first | exact ih | rfl

/-- While no commit has reached the disk, the header lists the group's blocks, each once. -/
theorem Pre.card {disk : ℕ → Block} {lh : List ℕ} {pin : ℕ → ℕ}
    (h : Pre A disk lh pin (spec d0 tr)) : lh.length = (groupBlocks tr).card := by
  rw [groupBlocks_eq d0, ← List.toFinset_card_of_nodup h.nodup]
  congr 1
  ext b
  simp only [List.mem_toFinset, h.pending b]

/-- A `log_write` that is called panics with "too big a transaction" exactly when
the group has `LOGSIZE - 1` blocks or more. -/
theorem tooBig_iff {p b : ℕ} {v : Block} (h : Inv mkfsArea (spec d0 tr) s)
    (hcall : step mkfsArea s (.logWrite p b v) ≠ .error .blocked) :
    step mkfsArea s (.logWrite p b v) = .error (.panic "too big a transaction") ↔
      ¬ (groupBlocks tr).card < LOGSIZE - 1 := by
  simp only [step, logWrite] at hcall ⊢
  by_cases hg : s.op p ≠ .inOp ∨ ¬ mkfsArea.Home b
  · rw [if_pos hg] at hcall
    exact absurd rfl hcall
  · rw [if_neg hg]
    simp only [not_or, not_not] at hg
    have hrun : s.phase = .run := by
      by_contra hr
      exact h.quiet hr p hg.1
    have hpre : Pre mkfsArea s.disk s.lh s.pin (spec d0 tr) := by simpa only [PhaseInv, hrun] using h.phase
    have hsz : (mkfsArea.size : ℤ) = 30 := rfl
    have hlog : LOGSIZE = 30 := rfl
    rw [← hpre.card, hsz, hlog]
    by_cases hbig : s.lh.length ≥ 30 ∨ (s.lh.length : ℤ) ≥ 30 - 1
    · rw [if_pos hbig]
      simp only [true_iff, not_lt]
      omega
    · rw [if_neg hbig]
      have hlt : s.lh.length < 30 - 1 := by omega
      simp only [hlt, not_true_eq_false, iff_false]
      split_ifs <;> simp

/-! ### `write_log` stays in the log -/

theorem wroteLog_lt (h0 : (d0 A.start).rd 0 4 = 0) (h : run (step A) (boot d0) acts = .ok (s, tr)) {b : ℕ}
    (hb : .wroteLog b ∈ tr) : b < A.start + A.size := by
  suffices ∀ b, .wroteLog b ∈ tr → b < A.start + A.size from this b hb
  refine run_induction (I := fun _ _ tr => ∀ b, .wroteLog b ∈ tr → b < A.start + A.size) (by simp) ?_ h
  intro acts s tr a s' tr' hr hI hs b hb
  rcases List.mem_append.mp hb with hb | hb
  · exact hI b hb
  · have hlt := (inv_run h0 hr).lt
    cases a with
    | tick =>
      obtain ⟨tail, ht, rfl⟩ := (tick_frame hs).2.2.2.2 b hb
      omega
    | beginOp p => obtain ⟨-, -, ⟨-, rfl⟩ | ⟨-, -, -, rfl⟩⟩ := beginOp_cases hs <;> simp at hb
    | logWrite p x v => obtain ⟨-, -, -, -, rfl, -⟩ := logWrite_cases hs; simp at hb
    | endOp p => obtain ⟨-, -, rfl, -⟩ := endOp_cases hs; simp at hb
    | evict x => obtain ⟨-, -, rfl⟩ := evict_cases hs; simp at hb
    | crash =>
      obtain ⟨-, rfl⟩ := Prod.mk.inj (Except.ok.inj hs)
      simp at hb

/-! ### Reservation -/

theorem opBlocks_snoc (p : ℕ) (acts : List Act) (e : Act) : opBlocks p (acts ++ [e]) = (match e with
    | .beginOp q => if q = p then ∅ else opBlocks p acts
    | .logWrite q b _ => if q = p then insert b (opBlocks p acts) else opBlocks p acts
    | .crash => ∅
    | _ => opBlocks p acts) := by
  rw [opBlocks, List.foldl_append]
  rfl

/-- The blocks logged, and those the operations in progress may still log,
fit in `K` blocks. -/
def Reserved (K : ℕ) (acts : List Act) (s : Sys) : Prop :=
  ∃ S : Finset ℕ, (∀ p, p ∈ S ↔ s.op p = .inOp) ∧ s.outstanding = S.card ∧
    (∀ p ∈ S, opBlocks p acts ⊆ s.lh.toFinset) ∧
    (s.phase.recovering = false → s.lh.length + ∑ p ∈ S, (MAXOPBLOCKS - (opBlocks p acts).card) ≤ K)

/-- `begin_op` admits an operation only if the reservation fits in `K` blocks. -/
def AdmitsWithin (K : ℕ) (A : Area) (d0 : ℕ → Block) (acts : List Act) : Prop :=
  ∀ n p s tr, acts[n]? = some (.beginOp p) → run (step A) (boot d0) (acts.take n) = .ok (s, tr) →
    (s.lh.length : ℤ) + (s.outstanding + 1) * MAXOPBLOCKS ≤ LOGSIZE →
    (s.lh.length : ℤ) + (s.outstanding + 1) * MAXOPBLOCKS ≤ K

theorem sum_congr_opBlocks {S : Finset ℕ} {acts acts' : List Act} (h : ∀ p ∈ S, opBlocks p acts' = opBlocks p acts) :
    ∑ p ∈ S, (MAXOPBLOCKS - (opBlocks p acts').card) = ∑ p ∈ S, (MAXOPBLOCKS - (opBlocks p acts).card) :=
  Finset.sum_congr rfl fun p hp => by rw [h p hp]

theorem reserved_beginOp {K p : ℕ} (h : Reserved K acts s) (he : beginOp s p = .ok (s', tr'))
    (hK : (s.lh.length : ℤ) + (s.outstanding + 1) * MAXOPBLOCKS ≤ LOGSIZE →
      (s.lh.length : ℤ) + (s.outstanding + 1) * MAXOPBLOCKS ≤ K) : Reserved K (acts ++ [.beginOp p]) s' := by
  obtain ⟨S, hS, hn, hsub, hsum⟩ := h
  obtain ⟨hrec, hout, hcases⟩ := beginOp_cases he
  have hpS : p ∉ S := fun hm => hout ((hS p).mp hm)
  have hother : ∀ q ∈ S, opBlocks q (acts ++ [.beginOp p]) = opBlocks q acts := by
    intro q hq
    rw [opBlocks_snoc]
    exact if_neg fun (he : p = q) => hpS (he ▸ hq)
  rcases hcases with ⟨rfl, -⟩ | ⟨-, hroom, rfl, -⟩
  · refine ⟨S, fun q => ?_, hn, fun q hq => hother q hq ▸ hsub q hq, fun hr => ?_⟩
    · by_cases hq : q = p
      · subst hq; simp [Sys.setOp, hpS]
      · simp [Sys.setOp, hq, hS]
    · rw [sum_congr_opBlocks hother]
      exact hsum hr
  · have hself : opBlocks p (acts ++ [.beginOp p]) = ∅ := by
      rw [opBlocks_snoc]
      exact if_pos rfl
    refine ⟨insert p S, fun q => ?_, ?_, fun q hq => ?_, fun _ => ?_⟩
    · by_cases hq : q = p
      · subst hq; simp [Sys.setOp]
      · simp [Sys.setOp, hq, hS]
    · rw [Finset.card_insert_of_notMem hpS]
      simp [Sys.setOp, hn]
    · rcases Finset.mem_insert.mp hq with rfl | hq
      · rw [hself]; exact Finset.empty_subset _
      · rw [hother q hq]; exact hsub q hq
    · -- every operation in progress has at most `MAXOPBLOCKS` blocks to go
      rw [Finset.sum_insert hpS, hself, sum_congr_opBlocks hother]
      have hle : ∑ q ∈ S, (MAXOPBLOCKS - (opBlocks q acts).card) ≤ S.card * MAXOPBLOCKS := by
        rw [← Nat.nsmul_eq_mul]
        exact Finset.sum_le_card_nsmul _ _ _ fun q _ => Nat.sub_le _ _
      have hK := hK hroom
      have hM : MAXOPBLOCKS = 10 := rfl
      simp only [Sys.setOp, Finset.card_empty]
      rw [hn, hM] at hK
      rw [hM] at hle ⊢
      omega

theorem reserved_logWrite {K p b : ℕ} {v : Block} (h : Reserved K acts s)
    (he : logWrite A s p b v = .ok (s', tr'))
    (hops : (opBlocks p (acts ++ [.logWrite p b v])).card ≤ MAXOPBLOCKS) :
    Reserved K (acts ++ [.logWrite p b v]) s' := by
  obtain ⟨S, hS, hn, hsub, hsum⟩ := h
  obtain ⟨hop, -, -, -, -, hcases⟩ := logWrite_cases he
  have hpS : p ∈ S := (hS p).mpr hop
  have hother : ∀ q ∈ S.erase p, opBlocks q (acts ++ [.logWrite p b v]) = opBlocks q acts := by
    intro q hq
    rw [opBlocks_snoc]
    exact if_neg (Finset.ne_of_mem_erase hq).symm
  have hself : opBlocks p (acts ++ [.logWrite p b v]) = insert b (opBlocks p acts) := by
    rw [opBlocks_snoc]
    exact if_pos rfl
  rw [hself] at hops
  have hsum' : ∀ acts', ∑ q ∈ S, (MAXOPBLOCKS - (opBlocks q acts').card) =
      (MAXOPBLOCKS - (opBlocks p acts').card) + ∑ q ∈ S.erase p, (MAXOPBLOCKS - (opBlocks q acts').card) :=
    fun acts' => (Finset.add_sum_erase S _ hpS).symm
  -- the block is in the log afterwards, and the log has grown only if the operation's share has shrunk
  have key : ∀ l : List ℕ, s.lh.toFinset ⊆ l.toFinset → b ∈ l.toFinset →
      l.length + (MAXOPBLOCKS - (insert b (opBlocks p acts)).card) ≤
        s.lh.length + (MAXOPBLOCKS - (opBlocks p acts).card) → s'.lh = l → s'.op = s.op →
      s'.outstanding = s.outstanding → s'.phase = s.phase → Reserved K (acts ++ [.logWrite p b v]) s' := by
    intro l hl hb hlen h1 h2 h3 h4
    refine ⟨S, fun q => by rw [h2, hS], h3 ▸ hn, fun q hq => ?_, fun hr => ?_⟩
    · rw [h1]
      by_cases hqp : q = p
      · subst hqp
        rw [hself]
        exact Finset.insert_subset hb ((hsub q hq).trans hl)
      · rw [hother q (Finset.mem_erase.mpr ⟨hqp, hq⟩)]
        exact (hsub q hq).trans hl
    · have := hsum (h4 ▸ hr)
      rw [hsum', hself, sum_congr_opBlocks hother, h1]
      rw [hsum'] at this
      omega
  rcases hcases with ⟨hm, rfl⟩ | ⟨hm, rfl⟩
  · refine key s.lh subset_rfl (by simpa using hm) ?_ rfl rfl rfl rfl
    have := Finset.card_le_card (Finset.subset_insert b (opBlocks p acts))
    omega
  · have hbn : b ∉ opBlocks p acts := fun hb => hm (by simpa using hsub p hpS hb)
    rw [Finset.card_insert_of_notMem hbn] at hops
    refine key (s.lh ++ [b]) (by simp) (by simp) ?_ rfl rfl rfl rfl
    rw [List.length_append, List.length_singleton, Finset.card_insert_of_notMem hbn]
    omega

theorem reserved_endOp {K p : ℕ} (h : Reserved K acts s) (hp : s.phase.recovering = false)
    (he : endOp s p = .ok (s', tr')) : Reserved K (acts ++ [.endOp p]) s' := by
  obtain ⟨S, hS, hn, hsub, hsum⟩ := h
  obtain ⟨hop, -, -, hcases⟩ := endOp_cases he
  have hpS : p ∈ S := (hS p).mpr hop
  have hsame : ∀ q, opBlocks q (acts ++ [.endOp p]) = opBlocks q acts := fun q => opBlocks_snoc q acts _
  have hcard : s.outstanding - 1 = (S.erase p).card := by
    have hpos : 0 < S.card := Finset.card_pos.mpr ⟨p, hpS⟩
    rw [Finset.card_erase_of_mem hpS, hn]
    omega
  have key : s'.lh = s.lh → s'.outstanding = s.outstanding - 1 →
      (∀ q, q ∈ S.erase p ↔ s'.op q = .inOp) → Reserved K (acts ++ [.endOp p]) s' := by
    intro h1 h2 h3
    refine ⟨S.erase p, h3, h2.trans hcard, fun q hq => ?_, fun _ => ?_⟩
    · rw [hsame, h1]
      exact hsub q (Finset.mem_of_mem_erase hq)
    · have := hsum hp
      rw [sum_congr_opBlocks fun q _ => hsame q, h1]
      have hle := Finset.sum_le_sum_of_subset (f := fun q => MAXOPBLOCKS - (opBlocks q acts).card)
        (Finset.erase_subset p S)
      omega
  rcases hcases with ⟨-, rfl⟩ | ⟨-, rfl⟩
  · refine key rfl rfl fun q => ?_
    by_cases hq : q = p
    · subst hq; simp
    · simp [hq, hS]
  · refine key rfl rfl fun q => ?_
    by_cases hq : q = p
    · subst hq; simp [Sys.setOp]
    · have : (if s.op q = .asleep then .woken else s.op q) = OpState.inOp ↔ s.op q = .inOp := by
        split_ifs with ha
        · simp [ha]
        · rfl
      simp [Sys.setOp, Sys.wakeup, hq, hS, this]

/-- In every run that admits within `K`, the blocks logged and reserved fit in `K`. -/
theorem reserved_run {K : ℕ} (h0 : (d0 A.start).rd 0 4 = 0) (hops : OpsBounded acts)
    (hK : AdmitsWithin K A d0 acts) (h : run (step A) (boot d0) acts = .ok (s, tr)) : Reserved K acts s := by
  induction acts using List.reverseRecOn generalizing s tr with
  | nil =>
    rw [run_nil, Except.ok.injEq, Prod.mk.injEq] at h
    obtain ⟨rfl, -⟩ := h
    exact ⟨∅, by simp [boot], rfl, by simp, fun hr => by simp [boot, Phase.recovering] at hr⟩
  | append_singleton acts e ih =>
    obtain ⟨s1, t1, t2, h1, h2, rfl⟩ := run_snoc.mp h
    have hI := inv_run h0 h1
    have hlast : (acts ++ [e])[acts.length]? = some e := by simp
    have hR : Reserved K acts s1 := by
      refine ih (fun n p b v hn => ?_) (fun n p s tr hn hr => ?_) h1
      · have hlt := (List.getElem?_eq_some_iff.mp hn).1
        have := hops n p b v (by rw [List.getElem?_append_left hlt]; exact hn)
        rwa [List.take_append_of_le_length (by omega)] at this
      · have hlt := (List.getElem?_eq_some_iff.mp hn).1
        exact hK n p s tr (by rw [List.getElem?_append_left hlt]; exact hn)
          (by rwa [List.take_append_of_le_length (by omega)])
    cases e with
    | beginOp p =>
      exact reserved_beginOp hR h2 (hK acts.length p s1 t1 hlast (by rwa [List.take_left']; rfl))
    | logWrite p b v =>
      refine reserved_logWrite hR h2 ?_
      have := hops acts.length p b v hlast
      rwa [List.take_of_length_le (by simp)] at this
    | endOp p =>
      have hrun := hI.run_of_inOp (endOp_cases h2).1
      exact reserved_endOp hR (by rw [hrun]; rfl) h2
    | tick =>
      obtain ⟨S, hS, hn, hsub, hsum⟩ := hR
      obtain ⟨hop, hout, hf, hr, -⟩ := tick_frame h2
      have hphase : s1.phase ≠ .run := by
        intro hrun
        simp [step, tick, hrun] at h2
      have hempty : ∀ p, p ∉ S := fun p hp => hI.quiet hphase p ((hS p).mp hp)
      obtain rfl : S = ∅ := Finset.eq_empty_of_forall_notMem hempty
      refine ⟨∅, fun p => by rw [hS, hop], hout ▸ hn, by simp, fun hrec => ?_⟩
      simp only [Finset.sum_empty, Nat.add_zero] at hsum ⊢
      cases hrec1 : s1.phase.recovering with
      | false =>
        rcases (hf hrec1).2 with hl | hl
        · rw [hl]; exact hsum hrec1
        · simp [hl]
      | true =>
        rcases hr hrec1 with hrec' | hl
        · simp [hrec'] at hrec
        · simp [hl]
    | evict b =>
      obtain ⟨-, rfl, -⟩ := evict_cases h2
      obtain ⟨S, hS, hn, hsub, hsum⟩ := hR
      have hsame : ∀ q, opBlocks q (acts ++ [.evict b]) = opBlocks q acts := fun q => opBlocks_snoc q acts _
      exact ⟨S, hS, hn, fun p hp => hsame p ▸ hsub p hp, fun hr =>
        (sum_congr_opBlocks fun q _ => hsame q) ▸ hsum hr⟩
    | crash =>
      obtain ⟨rfl, -⟩ := Prod.mk.inj (Except.ok.inj h2)
      exact ⟨∅, by simp [boot], rfl, by simp, fun hr => by simp [boot, Phase.recovering] at hr⟩

/-! ### The claim about space -/

/-- `sb.inodestart` on a disk laid out by `mkfs`. -/
def inodestart : ℕ := 2 + LOGSIZE

/-- The run `acts` never reaches `panic("too big a transaction")`, and `write_log`
writes below the inode blocks. -/
def Fits (d0 : ℕ → Block) (acts : List Act) : Prop :=
  run (step mkfsArea) (boot d0) acts ≠ .error (.panic "too big a transaction") ∧
    ∀ n s tr, run (step mkfsArea) (boot d0) (acts.take n) = .ok (s, tr) →
      ∀ b, .wroteLog b ∈ tr → b < inodestart

/-- Every `log_write` that is called finds fewer than `LOGSIZE - 1` blocks in its group. -/
def GroupsBounded (d0 : ℕ → Block) (acts : List Act) : Prop :=
  ∀ n p b v s tr, acts[n]? = some (.logWrite p b v) →
    run (step mkfsArea) (boot d0) (acts.take n) = .ok (s, tr) →
    step mkfsArea s (.logWrite p b v) ≠ .error .blocked → (groupBlocks tr).card < LOGSIZE - 1

/-- Only `log_write` panics with this message. -/
theorem tooBig_logWrite {e : Act} (h : step A s e = .error (.panic "too big a transaction")) :
    ∃ p b v, e = .logWrite p b v := by
  cases e with
  | logWrite p b v => exact ⟨p, b, v, rfl⟩
  | beginOp p => simp only [step, beginOp] at h; split_ifs at h; simp at h
  | endOp p => simp only [step, endOp] at h; split_ifs at h <;> simp at h
  | tick => simp only [step, tick] at h; split at h <;> (try split at h) <;> simp at h
  | evict b => simp only [step, evict] at h; split_ifs at h; simp at h
  | crash => simp [step] at h

/-- **When the log is large enough.** For every interleaving in which each
operation logs at most `MAXOPBLOCKS` distinct blocks, the log never overflows
exactly if no `log_write` is called in a group that has `LOGSIZE - 1` blocks;
it is enough that `begin_op` leaves two of the `LOGSIZE` blocks unreserved. -/
theorem space_iff (d0 : ℕ → Block) (h0 : (d0 2).rd 0 4 = 0) (acts : List Act) (hops : OpsBounded acts) :
    (Fits d0 acts ↔ GroupsBounded d0 acts) ∧ (AdmitsWithin (LOGSIZE - 2) mkfsArea d0 acts → Fits d0 acts) := by
  have hwrites : ∀ n s tr, run (step mkfsArea) (boot d0) (acts.take n) = .ok (s, tr) →
      ∀ b, .wroteLog b ∈ tr → b < inodestart := fun n s tr hr b hb => wroteLog_lt h0 hr hb
  have hiff : Fits d0 acts ↔ GroupsBounded d0 acts := by
    constructor
    · rintro ⟨hno, -⟩ n p b v s tr hn hr hcall
      by_contra hbig
      have hpanic := (tooBig_iff (inv_run h0 hr) hcall).mpr hbig
      have hlt := (List.getElem?_eq_some_iff.mp hn).1
      have hsplit : acts = acts.take n ++ .logWrite p b v :: acts.drop (n + 1) := by
        have hd := List.drop_eq_getElem_cons hlt
        rw [(List.getElem?_eq_some_iff.mp hn).2] at hd
        rw [← hd, List.take_append_drop]
      exact hno (run_error.mpr ⟨_, _, _, s, tr, hsplit, hr, hpanic⟩)
    · intro hG
      refine ⟨fun hpanic => ?_, hwrites⟩
      obtain ⟨pre, e, post, s, tr, rfl, hr, he⟩ := run_error.mp hpanic
      obtain ⟨p, b, v, rfl⟩ := tooBig_logWrite he
      have hcall : step mkfsArea s (.logWrite p b v) ≠ .error .blocked := by rw [he]; simp
      have := hG pre.length p b v s tr (by simp) (by rwa [List.take_left']; rfl) hcall
      exact (tooBig_iff (inv_run h0 hr) hcall).mp he this
  refine ⟨hiff, fun hK => hiff.mpr fun n p b v s tr hn hr hcall => ?_⟩
  -- with two blocks to spare the header never lists more than `LOGSIZE - 2`
  have hlt := (List.getElem?_eq_some_iff.mp hn).1
  have hI := inv_run h0 hr
  have hR : Reserved (LOGSIZE - 2) (acts.take n) s := by
    refine reserved_run h0 (fun m q x w hm => ?_) (fun m q s' tr' hm hr' => ?_) hr
    · have hmn : m < n := by
        have := (List.getElem?_eq_some_iff.mp hm).1
        rw [List.length_take] at this
        omega
      rw [List.getElem?_take_of_lt hmn] at hm
      have := hops m q x w hm
      rwa [List.take_take, Nat.min_eq_left (by omega)]
    · have hmn : m < n := by
        have := (List.getElem?_eq_some_iff.mp hm).1
        rw [List.length_take] at this
        omega
      rw [List.getElem?_take_of_lt hmn] at hm
      rw [List.take_take, Nat.min_eq_left (by omega)] at hr'
      exact hK m q s' tr' hm hr'
  have hop : s.op p = .inOp := by
    by_contra hno
    exact hcall (by simp [step, logWrite, hno])
  have hrun := hI.run_of_inOp hop
  obtain ⟨S, -, -, -, hsum⟩ := hR
  have hle := hsum (by rw [hrun]; rfl)
  rw [← (hI.pre hrun).card]
  have hlog : LOGSIZE = 30 := rfl
  omega

/-- Three operations begin together, and each logs `MAXOPBLOCKS` blocks of its own. -/
def overrun : List Act :=
  [.tick, .tick, .tick, .beginOp 0, .beginOp 1, .beginOp 2] ++
    (List.range 30).map fun i => .logWrite (i / 10) (100 + i) .zero

/-- The write at `n` is within the blocks of its operation. -/
def overrunFits (n : ℕ) : Bool :=
  match overrun[n]? with
  | some (.logWrite p _ _) => decide ((opBlocks p (overrun.take (n + 1))).card ≤ MAXOPBLOCKS)
  | _ => true

theorem overrun_bounded : OpsBounded overrun := by
  intro n p b v hn
  have hall : (List.range overrun.length).all overrunFits = true := by decide +kernel
  rw [List.all_eq_true] at hall
  have hfits := hall n (List.mem_range.mpr (List.getElem?_eq_some_iff.mp hn).1)
  rw [overrunFits, hn] at hfits
  exact of_decide_eq_true hfits

theorem overrun_panics : run (step mkfsArea) (boot fun _ => .zero) overrun =
    .error (.panic "too big a transaction") := rfl

theorem log_overrun : OpsBounded overrun ∧ ¬ Fits (fun _ => .zero) overrun :=
  ⟨overrun_bounded, fun h => h.1 overrun_panics⟩

theorem space_iff_overrun : OpsBounded overrun ∧ ¬ GroupsBounded (fun _ => .zero) overrun :=
  ⟨overrun_bounded, fun h =>
    ((space_iff (fun _ => .zero) (Block.rd_zero 0 4) overrun overrun_bounded).1.mpr h).1 overrun_panics⟩

end Log
end Xv6
