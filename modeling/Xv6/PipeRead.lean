/-
# What a read from a pipe consumes

The copying loop of `piperead` takes a byte out of the ring before it tries to
store it, and leaves when `copyout` fails: the byte is then in neither place.
`copyLoop` is the loop with the bytes it stores in user memory; the reader
holds `pi->lock` from the first round to its return, so the steps of `Pipe`
that it makes are the rounds of `copyLoop` (`run_copyLoop`).

* `piperead_consumes_iff`: the bytes taken are the bytes stored exactly when
  `copyout` would succeed for every byte the loop comes to.

Key definitions: `Pipes.copyLoop`.
-/
import Xv6.Pipe

namespace Xv6
namespace Pipes

open TraceSys

/-- The `for` loop of `piperead` with `m` rounds to go at round `i`: the value
returned, the bytes stored from `addr + i` on, and the pipe. -/
def copyLoop (dst : ℕ → Bool) : ℕ → ℕ → Pipe → ℕ × List UInt8 × Pipe
  | 0, i, p => (i, [], p)
  | m + 1, i, p =>
    if p.nread = p.nwrite then (i, [], p)
    else if dst i then
      let r := copyLoop dst m (i + 1) p.take.2
      (r.1, p.take.1 :: r.2.1, r.2.2)
    else (i, [], p.take.2)

/-- The bytes in the ring, as the counters have it. -/
def Pipe.avail (p : Pipe) : ℕ := (p.nwrite - p.nread).toNat

theorem Pipe.avail_eq_zero (p : Pipe) : p.avail = 0 ↔ p.nread = p.nwrite := by
  rw [Pipe.avail, UInt32.toNat_sub, ← UInt32.toNat_inj]
  have h1 := p.nread.toNat_lt
  have h2 := p.nwrite.toNat_lt
  omega

theorem Pipe.avail_take {p : Pipe} (h : p.nread ≠ p.nwrite) : p.avail = p.take.2.avail + 1 := by
  have hne : p.nread.toNat ≠ p.nwrite.toNat := fun he => h (UInt32.toNat_inj.mp he)
  have h1 := p.nread.toNat_lt
  have h2 := p.nwrite.toNat_lt
  have h3 : (p.nread + 1).toNat = (p.nread.toNat + 1) % 2 ^ 32 := UInt32.toNat_add ..
  simp only [Pipe.avail, Pipe.take, UInt32.toNat_sub, h3]
  omega

/-- Every round that stores a byte adds one to the value returned. -/
theorem copyLoop_ret (dst : ℕ → Bool) : ∀ (m i : ℕ) (p : Pipe),
    (copyLoop dst m i p).1 = i + (copyLoop dst m i p).2.1.length
  | 0, i, p => rfl
  | m + 1, i, p => by
    unfold copyLoop
    split_ifs
    · rfl
    · simp only [List.length_cons, copyLoop_ret dst m (i + 1) p.take.2]
      omega
    · rfl

/-- A reader that holds the lock makes one round. -/
theorem step_read {call : ℕ → Call} {t i : ℕ} {dst : ℕ → Bool} {n : ℤ} {s : Sys}
    (hc : call t = .piperead dst n) (hl : s.lock = some t) (hpc : (s.thr t).pc = .read i) :
    step call s (.run t) = .ok (piperead s t dst n i) := by
  simp only [step, runThread, hl, hpc, hc, ne_eq, not_true_eq_false, if_false]

theorem run_one {call : ℕ → Call} {s s' : Sys} {t : ℕ} {tr : List Ev}
    (h : step call s (.run t) = .ok (s', tr)) : run (step call) s (List.replicate 1 (.run t)) = .ok (s', tr) :=
  run_cons.mpr ⟨s', tr, [], h, rfl, (List.append_nil tr).symm⟩

/-- The reader returns, and wakes the writers. -/
theorem pc_wakeup_ret (s : Sys) (c : Chan) (t : ℕ) (r : ℤ) : (((s.wakeup c).ret t r).thr t).pc = .ret r := by
  simp [Sys.ret, Sys.setPc]

/-- The rounds of a reader that holds the lock. What it takes out is what it
stores and at most one byte more, which is lost. -/
theorem run_copyLoop {call : ℕ → Call} {t : ℕ} {dst : ℕ → Bool} {n : ℤ} (hc : call t = .piperead dst n) :
    ∀ (m i : ℕ) (s : Sys), (n - i).toNat = m → s.lock = some t → (s.thr t).pc = .read i →
    ∃ k s' tr lost, run (step call) s (List.replicate k (.run t)) = .ok (s', tr) ∧
      (s'.thr t).pc = .ret (copyLoop dst m i s.pi).1 ∧ s'.pi = (copyLoop dst m i s.pi).2.2 ∧
      takes tr = (copyLoop dst m i s.pi).2.1 ++ lost ∧
      s'.pi.nread = s.pi.nread + .ofNat (takes tr).length ∧
      (lost = [] ↔ ∀ j, j < m → j < s.pi.avail → dst (i + j) = true)
  | 0, i, s, hm, hl, hpc => by
    have hn : ¬ (i : ℤ) < n := by omega
    have hstep := step_read hc hl hpc
    rw [piperead, if_neg hn] at hstep
    refine ⟨1, _, _, [], run_one hstep, pc_wakeup_ret .., rfl, rfl, ?_, by simp⟩
    exact (UInt32.add_zero _).symm
  | m + 1, i, s, hm, hl, hpc => by
    have hn : (i : ℤ) < n := by omega
    have hstep := step_read hc hl hpc
    rw [piperead, if_pos hn] at hstep
    unfold copyLoop
    by_cases he : s.pi.nread = s.pi.nwrite
    · rw [if_pos he] at hstep
      simp only [if_pos he]
      refine ⟨1, _, _, [], run_one hstep, pc_wakeup_ret .., rfl, rfl, ?_, ?_⟩
      · exact (UInt32.add_zero _).symm
      · simp [(Pipe.avail_eq_zero s.pi).mpr he]
    rw [if_neg he] at hstep
    simp only [if_neg he]
    have hav := Pipe.avail_take he
    by_cases hd : dst i = true
    · simp only [hd, if_true] at hstep ⊢
      obtain ⟨k, s', tr, lost, hr, hret, hpi, htk, hnr, hlost⟩ :=
        run_copyLoop hc m (i + 1) ({ s with pi := s.pi.take.2 }.setPc t (.read (i + 1))) (by omega) hl
          (by simp [Sys.setPc])
      have hpi1 : ({ s with pi := s.pi.take.2 }.setPc t (.read (i + 1))).pi = s.pi.take.2 := rfl
      rw [hpi1] at hret hpi htk hnr hlost
      refine ⟨k + 1, s', _, lost, run_cons.mpr ⟨_, _, _, hstep, hr, rfl⟩, hret, hpi, ?_, ?_, ?_⟩
      · exact congrArg (s.pi.take.1 :: ·) htk
      · have hlen : (takes ([.take t s.pi.take.1] ++ tr)).length = (takes tr).length + 1 := rfl
        have h1 : s.pi.take.2.nread = s.pi.nread + 1 := rfl
        rw [hnr, h1, hlen, UInt32.ofNat_add, UInt32.add_assoc, UInt32.add_comm 1]
        rfl
      · rw [hlost]
        -- round `j` of the rest is round `j + 1` from here
        constructor
        · rintro h (_ | j) hj hja
          · exact hd
          · rw [show i + (j + 1) = i + 1 + j by omega]
            exact h j (by omega) (by omega)
        · intro h j hj hja
          rw [show i + 1 + j = i + (j + 1) by omega]
          exact h (j + 1) (by omega) (by omega)
    · simp only [hd] at hstep ⊢
      refine ⟨1, _, _, [s.pi.take.1], run_one hstep, pc_wakeup_ret .., rfl, rfl, rfl, ?_⟩
      simp only [List.cons_ne_nil, false_iff]
      exact fun h => hd (h 0 (by omega) (by omega))

/-- **A read consumes only what it delivers, if all of it can be delivered.** A
reader that finds the pipe empty and open leaves it alone. Otherwise it copies
to its end under the lock; the bytes it takes out of the pipe are those it
stores in user memory, as many as it returns, exactly when `copyout` succeeds
for each of the first `n` of the bytes that are there. -/
theorem piperead_consumes_iff (call : ℕ → Call) (t : ℕ) (dst : ℕ → Bool) (n : ℤ) (s : Sys)
    (hc : call t = .piperead dst n) (hl : s.lock = some t) (hpc : (s.thr t).pc = .readWait) :
    (s.pi.nread = s.pi.nwrite ∧ s.pi.writeopen = true → (pipereadWait s t).pi = s.pi) ∧
    (¬ (s.pi.nread = s.pi.nwrite ∧ s.pi.writeopen = true) →
      ∃ k s' tr r stored, run (step call) s (List.replicate k (.run t)) = .ok (s', tr) ∧
        copyLoop dst n.toNat 0 s.pi = (r, stored, s'.pi) ∧ (s'.thr t).pc = .ret r ∧
        s'.pi.nread = s.pi.nread + .ofNat (takes tr).length ∧
        (((takes tr).length = stored.length ∧ stored.length = r) ↔
          ∀ i : ℕ, (i : ℤ) < n → i < s.pi.avail → dst i = true)) := by
  refine ⟨fun hw => ?_, fun hw => ?_⟩
  · rw [pipereadWait, if_pos hw]
    split <;> rfl
  · have hstep : step call s (.run t) = .ok (s.setPc t (.read 0), []) := by
      simp only [step, runThread, hl, hpc, hc, ne_eq, not_true_eq_false, if_false, pipereadWait, if_neg hw]
    obtain ⟨k, s', tr, lost, hr, hret, hpi, htk, hnr, hlost⟩ :=
      run_copyLoop hc n.toNat 0 (s.setPc t (.read 0)) (by omega) hl (by simp [Sys.setPc])
    have hpi0 : (s.setPc t (.read 0)).pi = s.pi := rfl
    have hrs := copyLoop_ret dst n.toNat 0 s.pi
    rw [hpi0] at hret hpi htk hnr hlost
    rcases hcopy : copyLoop dst n.toNat 0 s.pi with ⟨r, stored, p⟩
    rw [hcopy] at hret hpi htk hrs
    subst hpi
    refine ⟨k + 1, s', tr, r, stored, run_cons.mpr ⟨_, _, _, hstep, hr, rfl⟩, rfl, hret, hnr, ?_⟩
    have hbound : (∀ i : ℕ, (i : ℤ) < n → i < s.pi.avail → dst i = true) ↔
        ∀ j, j < n.toNat → j < s.pi.avail → dst (0 + j) = true := by
      refine forall_congr' fun j => ?_
      rw [Nat.zero_add, Int.lt_toNat]
    rw [hbound, ← hlost, htk, List.length_append, ← List.length_eq_zero_iff]
    simp only at hrs ⊢
    omega

/-- A full buffer of one byte, and a reader whose buffer takes it. -/
def oneByte : Sys :=
  { pi := ⟨fun _ => 7, 0, 1, true, true⟩, lock := some 0, freed := false
    thr := fun _ => ⟨.readWait, false, false⟩ }

theorem piperead_consumes_one : ∃ k s' tr,
    run (step fun _ => .piperead (fun _ => true) 1) oneByte (List.replicate k (.run 0)) = .ok (s', tr) ∧
      (takes tr).length = (copyLoop (fun _ => true) 1 0 oneByte.pi).2.1.length := by
  obtain ⟨k, s', tr, r, stored, hr, hcopy, -, -, hiff⟩ :=
    (piperead_consumes_iff (fun _ => .piperead (fun _ => true) 1) 0 (fun _ => true) 1 oneByte rfl rfl
      rfl).2 (by decide)
  refine ⟨k, s', tr, hr, ?_⟩
  have hcopy' : copyLoop (fun _ => true) 1 0 oneByte.pi = (r, stored, s'.pi) := hcopy
  rw [hcopy']
  exact (hiff.mpr fun _ _ _ => rfl).1

/-- **A read at a bad address loses a byte.** The byte has left the pipe, no
byte was stored, and the read returns 0. -/
theorem piperead_loses : ∃ s' tr,
    run (step fun _ => .piperead (fun _ => false) 1) oneByte (List.replicate 2 (.run 0)) = .ok (s', tr) ∧
      (s'.thr 0).pc = .ret 0 ∧ s'.pi.nread = oneByte.pi.nread + 1 ∧ (takes tr).length = 1 ∧
      (copyLoop (fun _ => false) 1 0 oneByte.pi).2.1.length = 0 ∧ s'.pi.avail = 0 :=
  ⟨_, _, rfl, by decide, by decide, by decide, by decide, by decide⟩

end Pipes
end Xv6
