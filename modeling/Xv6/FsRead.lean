/-
# Reading through a descriptor

`fileread` of `kernel/file.c` for a file that is an inode. Its count is an `int`,
and `readi` takes a `uint`: a negative count becomes a large one, and the only
guard is that `off + n` must not wrap. So a read of a negative count from an
offset below `-n` delivers the rest of the file (`fileread_bounded_iff`).

Key definitions: `Fs.OpenFile`, `Fs.fileread`, `Fs.Bounded`.
-/
import Xv6.FsContent

namespace Xv6
namespace Fs

open TraceSys

/-- A `struct file` of type `FD_INODE`; `ip` is a slot of the inode table. -/
structure OpenFile where
  readable : Bool
  ip : ℕ
  off : UInt32

/-- The result is `r`, the file, and the bytes stored in user memory. -/
def fileread (sb : Super) (f : OpenFile) (dst : ℕ → Bool) (addr : ℕ) (n : ℤ) (s : Sys) :
    Except Stop ((ℤ × OpenFile × List UInt8) × Sys) :=
  if f.readable = false then .ok ((-1, f, []), s)
  else do
    let s ← ilock sb f.ip s
    let ((tot, out), s) ← readi sb f.ip dst addr f.off (.ofNat (n % 2 ^ 32).toNat) s
    let r : ℤ := tot.elim (-1) fun tot => cInt tot
    let s ← iunlock f.ip s
    .ok ((r, if 0 < r then { f with off := f.off + .ofNat r.toNat } else f, out), s)

/-- A read of `n` bytes stores no more than that, and moves the offset by what it returns. -/
structure Bounded (n : ℤ) (f : OpenFile) (r : ℤ) (f' : OpenFile) (out : List UInt8) : Prop where
  stored : (out.length : ℤ) ≤ max n 0
  moved : f'.off.toNat = f.off.toNat + r.toNat
  negative : n < 0 → r = 0 ∨ r = -1

variable {sb : Super} {s s1 : Sys} {k : ℕ}

/-- The loop of `readi` below the size, whatever part of the destination is mapped. -/
theorem readLoop_ends (hL : sb.Layout) (h : FsOk sb s.data s.itable) (hk : Valid s.itable k) (dst : ℕ → Bool) (a n : ℕ)
    (fuel : ℕ) : ∀ tot off out, n - tot ≤ fuel → tot ≤ n → off + (n - tot) ≤ (s.itable k).din.size →
    ∃ r more, readLoop sb k dst a n fuel tot off out s = .ok ((r, out ++ more), s) ∧
      (r = none ∧ tot + more.length < n ∨ r = some n ∧ tot + more.length = n) ∧
      (tot < n → (more = [] ↔ dst (a + tot) = false)) := by
  have hself := h.table.inodes_self hk
  have hsmall : (s.itable k).din.size ≤ MAXFILE * BSIZE := by
    have := h.fs.small _ (h.alloc hk)
    rwa [hself] at this
  induction fuel with
  | zero =>
    intro tot off out hf hle _
    obtain rfl : tot = n := by omega
    exact ⟨some tot, [], by rw [readLoop, List.append_nil], .inr ⟨rfl, rfl⟩, fun hlt => absurd hlt (Nat.lt_irrefl _)⟩
  | succ fuel ih =>
    intro tot off out hf hle hsz
    rw [readLoop]
    by_cases hlt : tot < n
    swap
    · obtain rfl : tot = n := by omega
      refine ⟨some tot, [], ?_, .inr ⟨rfl, rfl⟩, fun hlt => absurd hlt (Nat.lt_irrefl _)⟩
      rw [if_neg hlt, List.append_nil]
    rw [if_pos hlt]
    obtain ⟨b, s1, hb, hm⟩ := bmap_spec hL h hk (div_lt_maxfile (show off + (n - tot) ≤ MAXFILE * BSIZE by omega) (by omega))
    have hhere : off / BSIZE * BSIZE < (inodes sb s.data s.itable (s.itable k).inum).size := by
      have := Nat.div_mul_le_self off BSIZE
      rw [hself]
      omega
    obtain ⟨hb0, hs1⟩ := hm.old (h.fs.noHoles _ _ (h.alloc hk) hhere)
    rw [hb, hs1, ok_bind]
    simp only [hb0, if_false]
    have hmod := Nat.mod_lt off (show 0 < BSIZE by decide)
    generalize hm' : min (n - tot) (BSIZE - off % BSIZE) = m
    have hm0 : 0 < m := by omega
    have hc := copied_le dst (a + tot) m
    have hfirst : copied dst (a + tot) m = 0 ↔ dst (a + tot) = false := by
      obtain ⟨h1, h2⟩ := copied_spec dst (a + tot) m
      constructor
      · intro h0
        rw [h0] at h2
        exact h2 hm0
      · intro hfalse
        by_contra hne
        have htrue : dst (a + tot) = true := h1 0 (Nat.pos_of_ne_zero hne)
        rw [hfalse] at htrue
        cases htrue
    generalize hout : slice (s.data b) (off % BSIZE) (copied dst (a + tot) m) = got
    have hlen : got.length = copied dst (a + tot) m := by
      rw [← hout, slice, List.length_map, List.length_range]
    rw [← hlen] at hfirst hc ⊢
    by_cases hall : got.length = m
    · rw [if_pos hall]
      obtain ⟨r, more, he, hr, -⟩ := ih (tot + m) (off + m) (out ++ got) (by omega) (by omega) (by omega)
      refine ⟨r, got ++ more, ?_, ?_, fun _ => ?_⟩
      · rw [he, List.append_assoc]
      · rw [List.length_append, hall, ← Nat.add_assoc]
        exact hr
      · rw [← hfirst, List.length_eq_zero_iff, List.append_eq_nil_iff]
        exact and_iff_left_of_imp fun h0 => absurd (h0 ▸ hall : ([] : List UInt8).length = m) (Nat.ne_of_lt hm0)
    · rw [if_neg hall]
      refine ⟨none, got, rfl, .inl ⟨rfl, by omega⟩, fun _ => ?_⟩
      rw [← hfirst, List.length_eq_zero_iff]

/-- What `readi` delivers of `n` bytes at `off`: at most what is asked for and there, and
nothing only if there is nothing or the first byte of the destination is not mapped. -/
theorem readi_ends (hL : sb.Layout) (h : FsOk sb s.data s.itable) (hk : Valid s.itable k) (dst : ℕ → Bool) (a : ℕ)
    (off n : UInt32) : ∃ r out m, readi sb k dst a off n s = .ok ((r, out), s) ∧
      m = (if off + n < off then 0 else min n.toNat ((s.itable k).din.size - off.toNat)) ∧
      (r = none ∧ out.length < m ∨ r = some m ∧ out.length = m) ∧ (0 < m → (out = [] ↔ dst a = false)) := by
  unfold readi
  by_cases hc : (s.itable k).din.size < off.toNat ∨ off + n < off
  · refine ⟨some 0, [], 0, if_pos hc, ?_, .inr ⟨rfl, rfl⟩, fun h0 => absurd h0 (Nat.lt_irrefl 0)⟩
    split
    · rfl
    · next hw =>
      have := hc.resolve_right hw
      omega
  · simp only [hc, if_false]
    rw [not_or, Nat.not_lt] at hc
    have hadd := uint_add hc.2
    rw [if_neg hc.2]
    have hmin : (if (s.itable k).din.size < (off + n).toNat then (s.itable k).din.size - off.toNat
        else n.toNat) = min n.toNat ((s.itable k).din.size - off.toNat) := by
      split <;> omega
    rw [hmin]
    generalize hm : min n.toNat ((s.itable k).din.size - off.toNat) = m
    obtain ⟨r, more, he, hr, hfirst⟩ := readLoop_ends hL h hk dst a m m 0 off.toNat [] (by omega)
      (Nat.zero_le _) (by omega)
    rw [List.nil_append] at he
    rw [Nat.zero_add] at hr
    exact ⟨r, more, m, he, rfl, hr, hfirst⟩

/-- A slot that has just been locked. -/
theorem ilock_valid (h : FsOk sb s.data s.itable) (hk : k < NINODE)
    (hi : 1 ≤ (s.itable k).inum ∧ (s.itable k).inum < sb.ninodes) (hl : ilock sb k s = .ok s1) :
    FsOk sb s1.data s1.itable ∧ Valid s1.itable k ∧ (s1.itable k).locked = true := by
  have hok := (ilock_spec h hk hi).of_ok hl
  have hvalid : (s1.itable k).valid = true ∧ 0 < (s1.itable k).ref ∧ (s1.itable k).locked = true := by
    unfold ilock at hl
    simp only at hl
    split at hl
    · cases hl
    next href =>
    split at hl
    · cases hl
    split at hl
    · next hv =>
      obtain rfl := Except.ok.inj hl
      simp only [Sys.setInode, Function.update_self]
      exact ⟨hv, by omega, trivial⟩
    split at hl
    · cases hl
    · obtain rfl := Except.ok.inj hl
      simp only [Sys.setInode, Function.update_self]
      exact ⟨trivial, by omega, trivial⟩
  exact ⟨hok, ⟨hk, hvalid.2.1, hvalid.1⟩, hvalid.2.2⟩

/-- The offset moves by what is returned. -/
theorem moved_off (f : OpenFile) {r : ℤ} (h : (f.off.toNat : ℤ) + r < 2 ^ 32) :
    (if 0 < r then { f with off := f.off + .ofNat r.toNat } else f).off.toNat = f.off.toNat + r.toNat := by
  split
  · show (f.off + .ofNat r.toNat).toNat = _
    rw [UInt32.toNat_add, UInt32.toNat_ofNat', Nat.mod_eq_of_lt (by omega), Nat.mod_eq_of_lt (by omega)]
  · omega

/-- The bytes that a count of `n` asks for, of a file with `size` bytes. -/
def wanted (n : ℤ) (off size : ℕ) : ℕ :=
  if 2 ^ 32 ≤ off + (n % 2 ^ 32).toNat then 0 else min (n % 2 ^ 32).toNat (size - off)

theorem wanted_nonneg {n : ℤ} (off size : ℕ) (h0 : 0 ≤ n) (hn : n < 2 ^ 31) : (wanted n off size : ℤ) ≤ n := by
  unfold wanted
  split <;> omega

/-- A negative count asks for the rest of the file, unless the sum with the offset wraps. -/
theorem wanted_negative {n : ℤ} {size : ℕ} (off : ℕ) (h0 : n < 0) (hn : -2 ^ 31 ≤ n) (hs : size < 2 ^ 31) :
    wanted n off size = 0 ↔ -n ≤ off ∨ size ≤ off := by
  unfold wanted
  split <;> omega

theorem wanted_le (n : ℤ) (off size : ℕ) : wanted n off size ≤ size - off := by
  unfold wanted
  split <;> omega

theorem bounded_iff {n v : ℤ} {out : List UInt8} {size : ℕ} {d : Bool} (f : OpenFile) (hlo : -2 ^ 31 ≤ n)
    (hhi : n < 2 ^ 31) (hsize : size < 2 ^ 31)
    (hval : v = -1 ∧ out.length < wanted n f.off.toNat size ∨
      v = wanted n f.off.toNat size ∧ out.length = wanted n f.off.toNat size)
    (hfirst : 0 < wanted n f.off.toNat size → (out = [] ↔ d = false)) :
    Bounded n f v (if 0 < v then { f with off := f.off + .ofNat v.toNat } else f) out ↔
      0 ≤ n ∨ -n ≤ f.off.toNat ∨ size ≤ f.off.toNat ∨ d = false := by
  have hoff : f.off.toNat < 2 ^ 32 := f.off.toNat_lt
  have hle := wanted_le n f.off.toNat size
  have hmoved := moved_off f (r := v) (by omega)
  rcases lt_or_ge n 0 with hneg | hpos
  · have hzero := wanted_negative f.off.toNat hneg hlo hsize
    have hempty : out = [] ↔ wanted n f.off.toNat size = 0 ∨ d = false := by
      rcases Nat.eq_zero_or_pos (wanted n f.off.toNat size) with h0 | hpos
      · exact iff_of_true (List.length_eq_zero_iff.mp (by omega)) (.inl h0)
      · rw [hfirst hpos, or_iff_right (Nat.ne_of_gt hpos)]
    -- nothing may be delivered
    have hbounded : Bounded n f v (if 0 < v then { f with off := f.off + .ofNat v.toNat } else f) out ↔ out = [] := by
      constructor
      · intro hb
        have := hb.stored
        exact List.length_eq_zero_iff.mp (by omega)
      · rintro rfl
        refine ⟨le_max_right n 0, hmoved, fun _ => ?_⟩
        rw [List.length_nil] at hval
        omega
    rw [hbounded, hempty, hzero, or_assoc, or_iff_right (Int.not_le.mpr hneg)]
  · refine iff_of_true ⟨?_, hmoved, fun hlt => absurd hlt (Int.not_lt.mpr hpos)⟩ (.inl hpos)
    have := wanted_nonneg f.off.toNat size hpos hhi
    rw [max_eq_left hpos]
    omega

/-- **A read is bounded iff** its count is not negative, or is too far below zero for the offset, or
there is nothing to read, or the destination is not mapped. -/
theorem fileread_bounded_iff (hL : sb.Layout) (h : FsOk sb s.data s.itable) (f : OpenFile) (hk : f.ip < NINODE)
    (hi : 1 ≤ (s.itable f.ip).inum ∧ (s.itable f.ip).inum < sb.ninodes) (hl : ilock sb f.ip s = .ok s1)
    (dst : ℕ → Bool) (addr : ℕ) (n : ℤ) (hlo : -2 ^ 31 ≤ n) (hhi : n < 2 ^ 31) :
    ∃ r f' out s', fileread sb f dst addr n s = .ok ((r, f', out), s') ∧ (Bounded n f r f' out ↔
      f.readable = false ∨ 0 ≤ n ∨ -n ≤ f.off.toNat ∨ (s1.itable f.ip).din.size ≤ f.off.toNat ∨ dst addr = false) := by
  by_cases hread : f.readable = false
  · refine ⟨-1, f, [], s, if_pos hread, iff_of_true ⟨?_, rfl, fun _ => .inr rfl⟩ (.inl hread)⟩
    exact le_max_right n 0
  obtain ⟨hok, hv, hlock⟩ := ilock_valid h hk hi hl
  have hself := hok.table.inodes_self hv
  have hsmall : (s1.itable f.ip).din.size ≤ MAXFILE * BSIZE := by
    have := hok.fs.small _ (hok.alloc hv)
    rwa [hself] at this
  have hmax : MAXFILE * BSIZE < 2 ^ 31 := by decide
  obtain ⟨r, out, m, he, hm, hr, hfirst⟩ := readi_ends hL hok hv dst addr f.off (.ofNat (n % 2 ^ 32).toNat)
  have hun : iunlock f.ip s1 = .ok (s1.setInode f.ip { s1.itable f.ip with locked := false }) := by
    rw [iunlock, if_neg]
    rw [hlock]
    have := hv.ref
    simp
    omega
  have hmle : m ≤ (s1.itable f.ip).din.size - f.off.toNat := by
    rw [hm]
    split <;> omega
  have hcount : (UInt32.ofNat (n % 2 ^ 32).toNat).toNat = (n % 2 ^ 32).toNat := by
    rw [UInt32.toNat_ofNat', Nat.mod_eq_of_lt (by omega)]
  have hwrap : f.off + .ofNat (n % 2 ^ 32).toNat < f.off ↔ 2 ^ 32 ≤ f.off.toNat + (n % 2 ^ 32).toNat := by
    have hoff : f.off.toNat < 2 ^ 32 := f.off.toNat_lt
    rw [UInt32.lt_iff_toNat_lt, UInt32.toNat_add, hcount]
    omega
  have hwanted : m = wanted n f.off.toNat (s1.itable f.ip).din.size := by
    rw [hm, wanted, hcount]
    simp only [hwrap]
  rw [hwanted] at hr hfirst
  obtain ⟨v, hv⟩ : ∃ v, v = r.elim (-1 : ℤ) fun tot => cInt tot := ⟨_, rfl⟩
  refine ⟨v, if 0 < v then { f with off := f.off + .ofNat v.toNat } else f, out,
    s1.setInode f.ip { s1.itable f.ip with locked := false }, ?_, ?_⟩
  · rw [fileread, if_neg hread]
    simp only [hl, he, hun, ok_bind, ← hv]
  rw [or_iff_right hread]
  refine bounded_iff f hlo hhi (by omega) ?_ hfirst
  rcases hr with ⟨rfl, hlt⟩ | ⟨rfl, heq⟩
  · exact .inl ⟨hv, hlt⟩
  · refine .inr ⟨?_, heq⟩
    rw [hv, Option.elim_some]
    exact cInt_natCast (by omega)

/-- The file of three bytes, with nobody holding its lock. -/
theorem threeBytes_read : ∃ s t s1, run (call smallSuper) emptyFs (threeBytes ++ [.iunlock 0]) = .ok (s, t) ∧
    (s.itable 0).inum = 1 ∧ ilock smallSuper 0 s = .ok s1 ∧
    ∃ r, fileread smallSuper ⟨true, 0, 0⟩ (fun _ => true) 0 (-1) s = .ok r ∧ r.1.2.2 = [7, 7, 7] := by
  obtain ⟨⟨s, t⟩, hr, h⟩ := okWith_iff.mp (show okWith (run (call smallSuper) emptyFs (threeBytes ++ [.iunlock 0]))
    (fun r => decide ((r.1.itable 0).inum = 1) && (okWith (ilock smallSuper 0 r.1) fun _ => true) &&
      okWith (fileread smallSuper ⟨true, 0, 0⟩ (fun _ => true) 0 (-1) r.1) fun r => decide (r.1.2.2 = [7, 7, 7])) = true by
        decide +kernel)
  rw [Bool.and_eq_true, Bool.and_eq_true] at h
  obtain ⟨⟨hi, hl⟩, hf⟩ := h
  obtain ⟨s1, hs1, -⟩ := okWith_iff.mp hl
  obtain ⟨r, hfr, hout⟩ := okWith_iff.mp hf
  exact ⟨s, t, s1, hr, of_decide_eq_true hi, hs1, r, hfr, of_decide_eq_true hout⟩

theorem fileread_bounded_sample : ∃ s s1 r f' out s', ilock smallSuper 0 s = .ok s1 ∧
    fileread smallSuper ⟨true, 0, 0⟩ (fun _ => true) 0 2 s = .ok ((r, f', out), s') ∧
    (Bounded 2 ⟨true, 0, 0⟩ r f' out ↔ true = false ∨ (0 : ℤ) ≤ 2 ∨ -(2 : ℤ) ≤ (0 : UInt32).toNat ∨
      (s1.itable 0).din.size ≤ (0 : UInt32).toNat ∨ true = false) := by
  obtain ⟨s, t, s1, hr, hi, hl, -⟩ := threeBytes_read
  obtain ⟨r, f', out, s', he, hb⟩ := fileread_bounded_iff smallSuper_layout (run_ok smallSuper_layout emptyFs_ok hr)
    ⟨true, 0, 0⟩ (by decide) (by rw [hi]; decide) hl (fun _ => true) 0 2 (by decide) (by decide)
  exact ⟨s, s1, r, f', out, s', hl, he, hb⟩

/-- `read(fd, buf, -1)` at the start of a file of three bytes stores all of them. -/
theorem fileread_negative : ∃ s r, FsOk smallSuper s.data s.itable ∧
    fileread smallSuper ⟨true, 0, 0⟩ (fun _ => true) 0 (-1) s = .ok r ∧
    ¬ Bounded (-1) ⟨true, 0, 0⟩ r.1.1 r.1.2.1 r.1.2.2 := by
  obtain ⟨s, t, s1, hr, -, -, r, hf, hout⟩ := threeBytes_read
  refine ⟨s, r, run_ok smallSuper_layout emptyFs_ok hr, hf, fun hb => ?_⟩
  have := hb.stored
  rw [hout] at this
  exact absurd this (by decide)

end Fs
end Xv6
