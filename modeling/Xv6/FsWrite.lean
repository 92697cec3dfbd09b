/-
# What `writei` reports

`writei` returns the number of bytes it has written. It copies straight into
the cached block, and `copyin` copies the bytes it can before it fails: a block
that was overwritten in part is then released without `log_write`, and its
bytes are not counted. Through the buffer cache the file then has bytes that
`writei` did not report, and they vanish when the buffer is recycled.

* `writei_reports_iff`: the contents are the old ones with the reported bytes
  written, through the cache and after the eviction of every buffer, exactly
  when no such byte shows (`Unsplit`).

Key definitions: `Fs.Sys.evicted`, `Fs.written`, `Fs.Unsplit`.
-/
import Xv6.FsContent

namespace Xv6
namespace Fs

open TraceSys

/-- Every buffer has been recycled, and the blocks are read again. -/
def Sys.evicted (s : Sys) : Sys := { s with data := s.stable }

/-- The content with the first `tot` bytes of the source written at `off`. -/
def written (l : List UInt8) (src : ℕ → Option UInt8) (a off tot : ℕ) : List UInt8 :=
  l.take off ++ (List.range tot).map (fun j => (src (a + j)).getD 0) ++ l.drop (off + tot)

/-- `writei` refuses the request. -/
def Refused (size : ℕ) (off n : UInt32) : Prop :=
  size < off.toNat ∨ off + n < off ∨ MAXFILE * BSIZE < (off + n).toNat

/-- The source bytes that lie in one block with the first unmapped byte, before
it, and inside the file are already there. -/
def Unsplit (sb : Super) (s : Sys) (i size : ℕ) (src : ℕ → Option UInt8) (a off n : ℕ) : Prop :=
  ∀ u, u < n → src (a + u) = none → (∀ j, j < u → (src (a + j)).isSome = true) →
    ∀ j, j < u → (off + j) / BSIZE = (off + u) / BSIZE → off + j < size →
      src (a + j) = some (byteAt sb s i (off + j))

variable {sb : Super} {s s' s1 : Sys} {i k b : ℕ}

theorem content_congr (hd : s'.data = s.data) (ht : s'.itable = s.itable) :
    content sb s' i = content sb s i := by
  obtain ⟨data, stable, logged, itable⟩ := s
  obtain ⟨data', stable', logged', itable'⟩ := s'
  obtain rfl : data' = data := hd
  obtain rfl : itable' = itable := ht
  rfl

theorem evicted_of_clean (h : s.Clean) : content sb s.evicted i = content sb s i := content_congr h rfl

/-- `iupdate` logs the block it writes. -/
theorem iupdate_clean (d : Dinode) (h : s.Clean) : (iupdate sb k (s.setDin k d)).Clean :=
  Sys.Clean.write (s := s.setDin k d) h _ _

/-- The inode is written back after block `b` was overwritten and not logged: on
disk is what would be there without that block. -/
theorem evicted_put (h : s.Clean) (d : Dinode) (v : Block) (hb : b ≠ sb.iblock (s.itable k).inum) :
    content sb (iupdate sb k ((s.put b v).setDin k d)).evicted i =
      content sb (iupdate sb k (s.setDin k d)) i := by
  have hinum : ∀ s : Sys, ((s.setDin k d).itable k).inum = (s.itable k).inum := fun s => by
    simp only [Sys.setDin, Sys.setInode, Function.update_self, Inode.withDin]
  refine content_congr ?_ rfl
  unfold Sys.Clean at h
  simp only [Sys.evicted, iupdate, Sys.putDinode, logWrite, Sys.put, hinum, Function.update_self]
  simp only [Sys.setDin, Sys.setInode, Function.update_of_ne hb.symm, h]

/-- A round that fails keeps the file system consistent. -/
theorem Faults.spec (hL : sb.Layout) (h : FsOk sb s.data s.itable) {src : ℕ → Option UInt8}
    {a n tot off c : ℕ} (hf : Faults sb i src a n tot off c b s s') :
    FsOk sb s'.data s'.itable ∧ s'.held sb = s.held sb ∧ s'.itable = s.itable := by
  obtain ⟨v, rfl, -⟩ := hf.put
  obtain ⟨hok, hheld⟩ := put_spec hL h hf.held hf.pos (blockPlace_ne _) v
  exact ⟨hok, hheld, rfl⟩

/-- The bytes after a round that fails. -/
theorem Faults.byteAt (hL : sb.Layout) (h : FsOk sb s.data s.itable) {src : ℕ → Option UInt8}
    {a n tot off c : ℕ} (hf : Faults sb i src a n tot off c b s s') {p : ℕ}
    (hp : s.held sb (i, blockPlace (p / BSIZE)) ≠ 0) :
    Fs.byteAt sb s' i p =
      if off ≤ p ∧ p < off + c then (src (a + tot + (p - off))).getD 0 else Fs.byteAt sb s i p := by
  obtain ⟨v, rfl, hv⟩ := hf.put
  obtain ⟨-, hheld⟩ := put_spec hL h hf.held hf.pos (blockPlace_ne _) v
  have hroom := hf.room
  split
  · next hin =>
    obtain ⟨r, rfl⟩ : ∃ r, p = off + r := ⟨p - off, by omega⟩
    obtain ⟨hdiv, hmod⟩ := round_div (show off % BSIZE + r < BSIZE by omega)
    have hput : (s.put b v).data b = v := Function.update_self ..
    rw [Fs.byteAt, hheld, hdiv, hmod, hf.held, if_neg hf.pos, hput, hv _ (by omega), if_pos (by omega)]
    congr 2
    omega
  · next hout =>
    have hsp := put_spares hL h hf.held hf.pos (c := c) fun r hr hout => by rw [hv r hr, if_neg hout]
    exact hsp.byte i p hp fun _ => hout

/-- The inode's block is no data block. -/
theorem FsOk.held_ne_iblock (hL : sb.Layout) (h : FsOk sb s.data s.itable) (hk : Valid s.itable k) {p : ℕ × ℕ}
    (hp : s.held sb p ≠ 0) : s.held sb p ≠ sb.iblock (s.itable k).inum := by
  have hr := h.owns.range _ hp
  have h1 := hL.inodes _ (h.table.inum k hk.lt hk.ref hk.valid).2
  have h2 := hL.map _ hr.2
  have h3 : sb.bmapstart ≤ sb.bblock (s.held sb p) := Nat.le_add_left _ _
  omega

/-- The size is stored and the inode written back after the loop of `writei`. -/
theorem Wrote.content (hL : sb.Layout) (h : FsOk sb s.data s.itable) (hk : Valid s.itable k)
    {src : ℕ → Option UInt8} {a tot off off' : ℕ} {d : Dinode}
    (hW : Wrote sb k src a 0 tot off off' s s1) (hoff : off ≤ (s.itable k).din.size)
    (ht : d.type = (s1.itable k).din.type) (ha : d.addrs = (s1.itable k).din.addrs) (hr : d.InRange)
    (hsz : d.size = max (s.itable k).din.size off') :
    Fs.content sb (iupdate sb k (s1.setDin k d)) (s.itable k).inum =
      written (Fs.content sb s (s.itable k).inum) src a off tot := by
  obtain ⟨hend, hin⟩ := iupdate_spares hL hW.ok (hW.grows.valid hk) ht ha hr
  rw [hW.grows.inum] at hend hin
  have hsum := hW.sum
  obtain rfl : off' = off + tot := by omega
  have hself := h.table.inodes_self hk
  refine content_write h (h.alloc hk) (by rwa [hself]) (hW.spares.trans (hend.mono fun _ hj => hj.elim)) ?_
    fun j hj => ?_
  · rw [hin, hsz, hself]
  · obtain ⟨-, hheld, hbyte⟩ := hW.bytes j (by omega)
    rw [hend.byte _ _ hheld fun _ hf => hf, hbyte, Nat.add_zero]

/-- The bytes that a failed round has copied show in the content, unless the file had them. -/
theorem Faults.content_iff (hL : sb.Layout) (h : FsOk sb s.data s.itable) (hk : Valid s.itable k)
    {src : ℕ → Option UInt8} {a n tot off c : ℕ} {d : Dinode}
    (hf : Faults sb (s.itable k).inum src a n tot off c b s s')
    (ht : d.type = (s.itable k).din.type) (ha : d.addrs = (s.itable k).din.addrs) (hr : d.InRange)
    (hheld : ∀ p, p < d.size → s.held sb ((s.itable k).inum, blockPlace (p / BSIZE)) ≠ 0) :
    Fs.content sb (iupdate sb k (s'.setDin k d)) (s.itable k).inum =
        Fs.content sb (iupdate sb k (s.setDin k d)) (s.itable k).inum ↔
      ∀ r, r < c → off + r < d.size →
        (src (a + tot + r)).getD 0 = Fs.byteAt sb s (s.itable k).inum (off + r) := by
  obtain ⟨hend, hin⟩ := iupdate_spares hL h hk ht ha hr
  obtain ⟨hok, hheld', htab⟩ := hf.spec hL h
  obtain ⟨hend', hin'⟩ := iupdate_spares (d := d) hL hok (by rwa [htab]) (by rwa [htab]) (by rwa [htab]) hr
  rw [htab] at hend' hin'
  rw [Fs.content, Fs.content, hin, hin', List.map_inj_left]
  have hbyte : ∀ p, p < d.size → Fs.byteAt sb (iupdate sb k (s'.setDin k d)) (s.itable k).inum p =
      if off ≤ p ∧ p < off + c then (src (a + tot + (p - off))).getD 0
      else Fs.byteAt sb s (s.itable k).inum p := fun p hp => by
    rw [hend'.byte _ _ (by rw [hheld']; exact hheld p hp) fun _ hf => hf, hf.byteAt hL h (hheld p hp)]
  have hbyte0 : ∀ p, p < d.size → Fs.byteAt sb (iupdate sb k (s.setDin k d)) (s.itable k).inum p =
      Fs.byteAt sb s (s.itable k).inum p := fun p hp => hend.byte _ _ (hheld p hp) fun _ hf => hf
  constructor
  · intro hall r hr hlt
    have h1 := hall (off + r) (List.mem_range.mpr hlt)
    rw [hbyte _ hlt, hbyte0 _ hlt, if_pos (by omega), Nat.add_sub_cancel_left] at h1
    exact h1
  · intro hall p hp
    rw [List.mem_range] at hp
    rw [hbyte _ hp, hbyte0 _ hp]
    split
    · next hin =>
      have h1 := hall (p - off) (by omega) (by omega)
      rwa [Nat.add_sub_cancel' hin.1] at h1
    · rfl

/-- The condition at the place where the copy fails. -/
theorem Faults.unsplit_iff {src : ℕ → Option UInt8} {a n tot off c : ℕ}
    (hf : Faults sb i src a n tot off c b s s') (off0 size : ℕ) (hal : tot = 0 ∨ off % BSIZE = 0) (hoff : off = off0 + tot)
    (hsrc : ∀ j, j < tot → (src (a + j)).isSome = true) (g : ℕ → UInt8) :
    (∀ u, u < n → src (a + u) = none → (∀ j, j < u → (src (a + j)).isSome = true) →
      ∀ j, j < u → (off0 + j) / BSIZE = (off0 + u) / BSIZE → off0 + j < size → src (a + j) = some (g (off0 + j))) ↔
    ∀ r, r < c → off + r < size → (src (a + tot + r)).getD 0 = g (off + r) := by
  have hroom := hf.room
  have hfirst : ∀ j, j < tot + c → (src (a + j)).isSome = true := fun j hj => by
    rcases Nat.lt_or_ge j tot with h1 | h1
    · exact hsrc j h1
    · have := hf.mapped (j - tot) (by omega)
      rwa [show a + tot + (j - tot) = a + j by omega] at this
  constructor
  · intro hall r hr hlt
    have h1 := hall (tot + c) hf.lt (by rw [← Nat.add_assoc]; exact hf.unmapped) hfirst (tot + r) (by omega) ?_ (by omega)
    · rw [← Nat.add_assoc] at h1
      rw [h1, hoff, Nat.add_assoc]
      rfl
    · rw [← Nat.add_assoc, ← Nat.add_assoc, ← hoff, (round_div (show off % BSIZE + r < BSIZE by omega)).1,
        (round_div (show off % BSIZE + c < BSIZE by omega)).1]
  · intro hall u hu hnone hbefore j hj hblk hlt
    -- the first unmapped byte is where the copy stopped
    obtain rfl : u = tot + c := by
      rcases Nat.lt_trichotomy u (tot + c) with h1 | h1 | h1
      · have := hfirst u h1
        rw [hnone] at this
        cases this
      · exact h1
      · have := hbefore (tot + c) h1
        rw [← Nat.add_assoc, hf.unmapped] at this
        cases this
    have hdiv := (round_div (show off % BSIZE + c < BSIZE by omega)).1
    rw [← Nat.add_assoc, ← hoff, hdiv] at hblk
    have hjt : tot ≤ j := by
      rcases hal with h0 | h0
      · omega
      · by_contra hlt'
        have h1 := Nat.div_add_mod off BSIZE
        have h2 := Nat.div_add_mod (off0 + j) BSIZE
        rw [hblk] at h2
        omega
    obtain ⟨x, hx⟩ := Option.isSome_iff_exists.mp (hfirst j hj)
    have h1 := hall (j - tot) (by omega) (by omega)
    rw [show a + tot + (j - tot) = a + j by omega, show off + (j - tot) = off0 + j by omega, hx] at h1
    rw [hx, ← h1]
    rfl

/-- After `writei` has reported `tot` bytes, what can be read of the file in slot `k`. -/
structure Reported (sb : Super) (k : ℕ) (src : ℕ → Option UInt8) (a off n : ℕ) (s : Sys) (tot : ℕ) (s' : Sys) :
    Prop where
  size : (inodes sb s'.data s'.itable (s.itable k).inum).size = max (s.itable k).din.size (off + tot)
  disk : content sb s'.evicted (s.itable k).inum = written (content sb s (s.itable k).inum) src a off tot
  cache : content sb s' (s.itable k).inum = written (content sb s (s.itable k).inum) src a off tot ↔
    Unsplit sb s (s.itable k).inum (s.itable k).din.size src a off n

section

variable {src : ℕ → Option UInt8} {a n tot off off' : ℕ} {d : Dinode}

/-- The loop ends with every change logged. -/
theorem reported_quiet (hL : sb.Layout) (h : FsOk sb s.data s.itable) (hk : Valid s.itable k) (hclean : s.Clean)
    (hW : Wrote sb k src a 0 tot off off' s s1) (hoff : off ≤ (s.itable k).din.size)
    (ht : d.type = (s1.itable k).din.type) (ha : d.addrs = (s1.itable k).din.addrs) (hr : d.InRange)
    (hsz : d.size = max (s.itable k).din.size off')
    (hU : Unsplit sb s (s.itable k).inum (s.itable k).din.size src a off n) :
    Reported sb k src a off n s tot (iupdate sb k (s1.setDin k d)) := by
  have hwr := hW.content hL h hk hoff ht ha hr hsz
  obtain ⟨-, hin⟩ := iupdate_spares hL hW.ok (hW.grows.valid hk) ht ha hr
  rw [hW.grows.inum] at hin
  have hsum := hW.sum
  refine ⟨?_, ?_, iff_of_true hwr hU⟩
  · rw [hin, hsz, show off' = off + tot by omega]
  · rw [evicted_of_clean (iupdate_clean d (hW.clean hclean)), hwr]

/-- The loop ends in a round that fails. -/
theorem reported_fault {c : ℕ} (hL : sb.Layout) (h : FsOk sb s.data s.itable) (hk : Valid s.itable k)
    (hclean : s.Clean) (hW : Wrote sb k src a 0 tot off off' s s1) (hoff : off ≤ (s.itable k).din.size)
    (ht : d.type = (s1.itable k).din.type) (ha : d.addrs = (s1.itable k).din.addrs) (hr : d.InRange)
    (hsz : d.size = max (s.itable k).din.size off') (hal : tot = 0 ∨ off' % BSIZE = 0)
    (hf : Faults sb (s.itable k).inum src a n tot off' c b s1 s') :
    Reported sb k src a off n s tot (iupdate sb k (s'.setDin k d)) := by
  have hwr := hW.content hL h hk hoff ht ha hr hsz
  have hk1 := hW.grows.valid hk
  have hinum := hW.grows.inum
  have hsum := hW.sum
  obtain ⟨v, hv, -⟩ := hf.put
  have hf1 := hf
  rw [← hinum] at hf1
  -- the bytes of the old file, and those written
  have hold : ∀ p, p < (s.itable k).din.size → s.held sb ((s.itable k).inum, blockPlace (p / BSIZE)) ≠ 0 :=
    fun p hp => h.held_ne_zero (h.alloc hk) (by rwa [h.table.inodes_self hk])
  have hheld : ∀ p, p < d.size → s1.held sb ((s1.itable k).inum, blockPlace (p / BSIZE)) ≠ 0 := by
    intro p hp
    rw [hinum]
    rcases Nat.lt_or_ge p (s.itable k).din.size with hps | hps
    · rw [hW.grows.kept _ (hold p hps)]
      exact hold p hps
    · have hb := (hW.bytes (p - off) (by omega)).2.1
      rwa [Nat.add_sub_cancel' (by omega)] at hb
  have hiff := hf1.content_iff hL hW.ok hk1 ht ha hr hheld
  rw [hinum, hwr] at hiff
  have hU := hf.unsplit_iff off (s.itable k).din.size hal (by omega)
    (fun j hj => by simpa using (hW.bytes j (by omega)).1) (byteAt sb s (s.itable k).inum)
  refine ⟨?_, ?_, hiff.trans ?_⟩
  · obtain ⟨hok, -, htab⟩ := hf.spec hL hW.ok
    obtain ⟨-, hin⟩ := iupdate_spares (d := d) hL hok (by rwa [htab]) (by rwa [htab]) (by rwa [htab]) hr
    rw [htab, hinum] at hin
    rw [hin, hsz, show off' = off + tot by omega]
  · have hne : b ≠ sb.iblock (s1.itable k).inum := by
      have := hW.ok.held_ne_iblock hL hk1 (p := ((s.itable k).inum, blockPlace (off' / BSIZE)))
        (by rw [hf.held]; exact hf.pos)
      rwa [hf.held] at this
    rw [hv, evicted_put (hW.clean hclean) d v hne, hwr]
  · refine Iff.trans (forall_congr' fun r => ?_) hU.symm
    refine forall_congr' fun hrc => ?_
    constructor
    · intro h1 hlt
      rw [h1 (by omega)]
      exact hW.spares.byte _ _ (hold _ hlt) fun _ hj => by omega
    · intro h1 hlt
      have hlt' : off' + r < (s.itable k).din.size := by omega
      rw [h1 hlt']
      exact (hW.spares.byte _ _ (hold _ hlt') fun _ hj => by omega).symm

end

/-- What `writei` reports when it gets past its checks. -/
theorem writei_reported (hL : sb.Layout) (h : FsOk sb s.data s.itable) (hk : Valid s.itable k) (hclean : s.Clean)
    (src : ℕ → Option UInt8) (a : ℕ) {off n : UInt32} (hoff : off.toNat ≤ (s.itable k).din.size)
    (hn : ¬ off + n < off) (hmax : off.toNat + n.toNat ≤ MAXFILE * BSIZE) :
    ∃ tot s', writei sb k src a off n s = .ok (some tot, s') ∧
      Reported sb k src a off.toNat n.toNat s tot s' := by
  obtain ⟨tot, off', s1, s2, hr, hW, hend⟩ := writeLoop_ends hL src a n.toNat n.toNat 0 off.toNat s h hk
    (Nat.zero_le _) (by omega) (by omega)
  have hsum := hW.sum
  have hk1 := hW.grows.valid hk
  have hr1 := hW.ok.table.range k hk1.lt hk1.ref hk1.valid
  obtain ⟨d, hd⟩ : ∃ d, (if (s1.itable k).din.size < off' then { (s1.itable k).din with size := off' }
      else (s1.itable k).din) = d := ⟨_, rfl⟩
  have hw : s2.itable = s1.itable →
      writei sb k src a off n s = .ok (some tot, iupdate sb k (s2.setDin k d)) := fun htab => by
    unfold writei
    rw [if_neg (not_or.mpr ⟨by omega, hn⟩), uint_add hn, if_neg (by omega), hr]
    simp only [ok_bind, htab, hd]
  have hmapped : ∀ j, j < tot → (src (a + j)).isSome = true := fun j hj => by
    simpa using (hW.bytes j (by omega)).1
  cases hend with
  | done hdone =>
    obtain ⟨ht, ha, hdr, hdsz⟩ := resized hr1 (by omega) hd
    rw [hW.grows.size] at hdsz
    refine ⟨tot, _, hw rfl, reported_quiet hL h hk hclean hW hoff ht ha hdr hdsz fun u hu hnone => ?_⟩
    have := hmapped u (by omega)
    rw [hnone] at this
    cases this
  | full hlt h0 _ =>
    obtain ⟨ht, ha, hdr, hdsz⟩ := resized hr1 (by omega) hd
    rw [hW.grows.size] at hdsz
    refine ⟨tot, _, hw rfl, reported_quiet hL h hk hclean hW hoff ht ha hdr hdsz
      fun u hu hnone _ j hj hblk hjs => ?_⟩
    -- the block that could not be found, and all after it, are beyond the end of the file
    have hut : tot ≤ u := by
      by_contra hc
      have := hmapped u (by omega)
      rw [hnone] at this
      cases this
    have hend : (s.itable k).din.size ≤ off' / BSIZE * BSIZE := by
      by_contra hc
      apply h.fs.noHoles _ _ (h.alloc hk) _ h0
      rw [h.table.inodes_self hk]
      omega
    have h1 : off' / BSIZE ≤ (off.toNat + j) / BSIZE := hblk ▸ Nat.div_le_div_right (by omega)
    have h2 := Nat.mul_le_mul_right BSIZE h1
    have h3 := Nat.div_mul_le_self (off.toNat + j) BSIZE
    omega
  | fault hal hf =>
    have hlt := hf.lt
    obtain ⟨ht, ha, hdr, hdsz⟩ := resized hr1 (by omega) hd
    rw [hW.grows.size] at hdsz
    obtain ⟨v, hv, -⟩ := hf.put
    exact ⟨tot, _, hw (by rw [hv]; rfl), reported_fault hL h hk hclean hW hoff ht ha hdr hdsz hal hf⟩

/-- **What `writei` reports.** In a consistent file system in which every change
has been logged, `writei` returns, and the content of the file, both through
the buffer cache and after every buffer was recycled, is what its result says
exactly when it refuses the request or no byte of a failed copy shows. -/
theorem writei_reports_iff (hL : sb.Layout) (h : FsOk sb s.data s.itable) (hk : Valid s.itable k)
    (hclean : s.Clean) (src : ℕ → Option UInt8) (a : ℕ) (off n : UInt32) :
    ∃ r s', writei sb k src a off n s = .ok (r, s') ∧
      ((content sb s' (s.itable k).inum =
            r.elim (content sb s (s.itable k).inum) (written (content sb s (s.itable k).inum) src a off.toNat) ∧
          content sb s'.evicted (s.itable k).inum =
            r.elim (content sb s (s.itable k).inum) (written (content sb s (s.itable k).inum) src a off.toNat) ∧
          (inodes sb s'.data s'.itable (s.itable k).inum).size =
            r.elim (s.itable k).din.size fun tot => max (s.itable k).din.size (off.toNat + tot)) ↔
        Refused (s.itable k).din.size off n ∨
          Unsplit sb s (s.itable k).inum (s.itable k).din.size src a off.toNat n.toNat) := by
  by_cases hc : Refused (s.itable k).din.size off n
  · have hw : writei sb k src a off n s = .ok (none, s) := by
      unfold writei
      rcases hc with h1 | h1 | h1
      · rw [if_pos (.inl h1)]
      · rw [if_pos (.inr h1)]
      · rw [if_pos h1, ite_self]
    refine ⟨none, s, hw, iff_of_true ⟨rfl, evicted_of_clean hclean, ?_⟩ (.inl hc)⟩
    rw [h.table.inodes_self hk]
    rfl
  · have hc' := hc
    rw [Refused, not_or, not_or, Nat.not_lt, Nat.not_lt] at hc'
    obtain ⟨hoff, hn, hmax⟩ := hc'
    rw [uint_add hn] at hmax
    obtain ⟨tot, s', hw, hrep⟩ := writei_reported hL h hk hclean src a hoff hn hmax
    refine ⟨some tot, s', hw, ?_⟩
    simp only [Option.elim_some, hrep.disk, hrep.size, hrep.cache, hc, false_or, and_true]

/-- The state with all its changes logged. -/
def Sys.asLogged (s : Sys) : Sys := { s with stable := s.data }

/-- A source of which only the first byte is mapped. -/
def splitSrc (j : ℕ) : Option UInt8 := if j = 0 then some 9 else none

/-- The file `7 7 7` before a write of three bytes at its start. -/
theorem threeBytes_split : ∃ s t, run (call smallSuper) emptyFs threeBytes = .ok (s, t) ∧ ReadyToWrite s ∧
    ∃ s', writei smallSuper 0 splitSrc 0 0 3 s.asLogged = .ok (some 0, s') ∧
      content smallSuper s' 1 = [9, 7, 7] ∧ content smallSuper s'.evicted 1 = [7, 7, 7] := by
  obtain ⟨⟨s, t⟩, hr, h⟩ := okWith_iff.mp
    (show okWith (run (call smallSuper) emptyFs threeBytes) (fun r => decide (ReadyToWrite r.1) &&
      okWith (writei smallSuper 0 splitSrc 0 0 3 r.1.asLogged) fun q => q.1 = some 0 ∧
        content smallSuper q.2 1 = [9, 7, 7] ∧ content smallSuper q.2.evicted 1 = [7, 7, 7]) = true by decide +kernel)
  rw [Bool.and_eq_true] at h
  obtain ⟨⟨r, s'⟩, hw, hq⟩ := okWith_iff.mp h.2
  obtain ⟨hr0, h1, h2⟩ := of_decide_eq_true hq
  obtain rfl : r = some 0 := hr0
  exact ⟨s, t, hr, of_decide_eq_true h.1, s', hw, h1, h2⟩

/-- Three bytes that are all mapped are reported and written. -/
theorem writei_reports_sample : ∃ s r s', content smallSuper s 1 = [7, 7, 7] ∧
    writei smallSuper 0 (fun _ => some 9) 0 2 3 s = .ok (r, s') ∧
    content smallSuper s'.evicted 1 = r.elim [7, 7, 7] (written [7, 7, 7] (fun _ => some 9) 0 2) := by
  obtain ⟨s, t, hr, ⟨hheld, hinum, hsize, hcont, -⟩, -⟩ := threeBytes_split
  have hok := run_ok smallSuper_layout emptyFs_ok hr
  obtain ⟨r, s', hw, hiff⟩ := writei_reports_iff (s := s.asLogged) smallSuper_layout hok hheld.toValid rfl
    (fun _ => some 9) 0 2 3
  have hcont' : content smallSuper s.asLogged 1 = [7, 7, 7] := hcont
  have hinum' : (s.asLogged.itable 0).inum = 1 := hinum
  rw [hinum', hcont'] at hiff
  refine ⟨s.asLogged, r, s', hcont', hw, (hiff.mpr (.inr fun u _ hu => ?_)).2.1⟩
  cases hu

/-- **`writei` changes bytes it does not report.** It returns 0 for a source of
which one byte is mapped, and that byte can be read in the file until its
buffer is recycled. -/
theorem writei_unreported : ∃ s s', FsOk smallSuper s.data s.itable ∧ Valid s.itable 0 ∧ s.Clean ∧
    content smallSuper s 1 = [7, 7, 7] ∧ writei smallSuper 0 splitSrc 0 0 3 s = .ok (some 0, s') ∧
    written [7, 7, 7] splitSrc 0 0 0 = [7, 7, 7] ∧
    content smallSuper s' 1 = [9, 7, 7] ∧ content smallSuper s'.evicted 1 = [7, 7, 7] := by
  obtain ⟨s, t, hr, ⟨hheld, -, -, hcont, -⟩, s', hw, h1, h2⟩ := threeBytes_split
  have hok := run_ok smallSuper_layout emptyFs_ok hr
  exact ⟨s.asLogged, s', hok, hheld.toValid, rfl, hcont, hw, rfl, h1, h2⟩

end Fs
end Xv6
