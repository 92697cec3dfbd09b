/-
# Copies between the kernel and a user

`copyout`, `copyin` and `copyinstr` go through a range of user addresses page by
page, a part of the first page, whole pages, a part of the last (`span`). They
stop at the first page that is not mapped as they need it, so what they have
moved is the range up to a page boundary (`Upto`).

`copyout` writes into the user's pages; it does what it should as long as none
of the bytes it writes is a byte of the page table. Where two pages of the
range are mapped to one frame, the later one wins.

Key definitions: `Vm.UserMapped`, `Vm.Writable`, `Vm.phys`, `Vm.userBytes`, `Vm.Upto`, `Vm.Put`.
-/
import Xv6.VmMap

namespace Xv6
namespace Vm

variable {s s' : Sys} {root va len x y : ℕ}

/-! ### User addresses -/

/-- The page of `x` is mapped for the user, as `walkaddr` has it: the physical address 0
stands for a page that is not mapped. -/
def UserMapped (s : Sys) (root x : ℕ) : Prop :=
  x < MAXVA ∧ ∃ e, trans s root x = some e ∧ has e.2 PTE_U = true ∧ e.1 ≠ 0

/-- The page of `x` is mapped with `PTE_V`, `PTE_U` and `PTE_W`. -/
def Writable (s : Sys) (root x : ℕ) : Prop :=
  x < MAXVA ∧ ∃ e, trans s root x = some e ∧ has e.2 PTE_U = true ∧ has e.2 PTE_W = true

/-- The physical address of `x`. -/
def phys (s : Sys) (root x : ℕ) : ℕ := frame s root x + x % PGSIZE

/-- The bytes of a user from `va` on. -/
def userBytes (s : Sys) (root va n : ℕ) : List UInt8 := (List.range n).map fun k => s.mem (phys s root (va + k))

theorem has_flags {f : ℕ} (pte : ℕ) (hf : 0x3FF &&& f = f) : has (PTE_FLAGS pte) f = has pte f := by
  rw [has, has, PTE_FLAGS, Nat.and_assoc, hf]

theorem frame_page (h : x / PGSIZE = y / PGSIZE) : frame s root x = frame s root y := by
  rw [frame, frame, trans_page h]

theorem frame_aligned (s : Sys) (root x : ℕ) : frame s root x % PGSIZE = 0 := by
  rw [frame]
  rcases ht : trans s root x with _ | e
  · rfl
  · obtain ⟨a, -, hd⟩ : ∃ a, lookup s root x = some a ∧ decode (s.ld a) = some e := Option.bind_eq_some_iff.mp ht
    rw [(decode_eq_some.mp hd).2]
    exact PTE2PA_aligned _

/-- The page of a physical address. -/
theorem inPage_phys (s : Sys) (root x : ℕ) : InPage (frame s root (x / PGSIZE * PGSIZE)) (phys s root x) := by
  have hp : x / PGSIZE = x / PGSIZE * PGSIZE / PGSIZE := (Nat.mul_div_cancel _ (by decide)).symm
  have hlt : x % PGSIZE < PGSIZE := Nat.mod_lt _ (by decide)
  rw [phys, frame_page hp]
  exact ⟨Nat.le_add_right _ _, by omega⟩

theorem lt_MAXVA_of_page (h : x / PGSIZE = y / PGSIZE) (hx : x < MAXVA) : y < MAXVA := by
  unfold PGSIZE at h
  unfold MAXVA at *
  omega

theorem UserMapped.page (h : UserMapped s root x) (hp : x / PGSIZE = y / PGSIZE) : UserMapped s root y :=
  ⟨lt_MAXVA_of_page hp h.1, trans_page hp ▸ h.2⟩

theorem Writable.page (h : Writable s root x) (hp : x / PGSIZE = y / PGSIZE) : Writable s root y :=
  ⟨lt_MAXVA_of_page hp h.1, trans_page hp ▸ h.2⟩

theorem userBytes_add (s : Sys) (root va m n : ℕ) :
    userBytes s root va (m + n) = userBytes s root va m ++ userBytes s root (va + m) n := by
  rw [userBytes, userBytes, userBytes, List.range_add, List.map_append, List.map_map]
  refine congrArg _ (List.map_congr_left fun k _ => ?_)
  rw [Function.comp_apply, Nat.add_assoc]

/-- `walkaddr` is 0 where the page is not mapped for the user. -/
theorem walkaddr_eq_zero (h : ¬ UserMapped s root x) : walkaddr s root x = 0 := by
  unfold walkaddr
  split
  · rfl
  · next hx =>
    rcases hl : lookup s root x with _ | a
    · rfl
    · simp only
      split
      · rfl
      · next hv =>
        rw [Bool.not_eq_false] at hv
        split
        · rfl
        · next hu =>
          rw [Bool.not_eq_false, ← has_flags _ (by decide)] at hu
          by_contra hne
          exact h ⟨by omega, _, (trans_eq_decode hl).trans (decode_eq_some.mpr ⟨hv, rfl⟩), hu, hne⟩

theorem walkaddr_of_mapped (h : UserMapped s root x) : walkaddr s root x = frame s root x ∧ walkaddr s root x ≠ 0 := by
  obtain ⟨hx, e, he, hu, hne⟩ := h
  obtain ⟨a, hl, hd⟩ : ∃ a, lookup s root x = some a ∧ decode (s.ld a) = some e := Option.bind_eq_some_iff.mp he
  have hw : walkaddr s root x = e.1 := by
    obtain ⟨hv, rfl⟩ := decode_eq_some.mp hd
    rw [has_flags _ (by decide)] at hu
    rw [walkaddr, if_neg (by omega), hl]
    simp only [hv, hu, Bool.true_eq_false, if_false]
  rw [hw, frame_eq he]
  exact ⟨rfl, hne⟩

/-! ### Parts of a range -/

/-- What is handled in one round at `va`: the rest of the page, or of the range. -/
def span (va len : ℕ) : ℕ := min (PGSIZE - (va - PGROUNDDOWN va)) len

theorem span_le (va len : ℕ) : span va len ≤ len := Nat.min_le_right ..

theorem span_pos (va : ℕ) (h : len ≠ 0) : 0 < span va len := by
  unfold span PGROUNDDOWN PGSIZE
  omega

theorem span_page {k : ℕ} (h : k < span va len) : (va + k) / PGSIZE = va / PGSIZE := by
  unfold span PGROUNDDOWN PGSIZE at *
  omega

/-- The next round starts at the next page. -/
theorem span_next (h : span va len < len) : PGROUNDDOWN va + PGSIZE = va + span va len := by
  unfold span PGROUNDDOWN PGSIZE at *
  omega

/-- Below `MAXVA` the address does not wrap. -/
theorem next_eq (hva : va < MAXVA) (h : span va len < len) :
    (PGROUNDDOWN va + PGSIZE) % 2 ^ 64 = va + span va len := by
  have hM : MAXVA = 2 ^ 38 := by decide
  rw [Nat.mod_eq_of_lt (by unfold PGROUNDDOWN PGSIZE; omega), span_next h]

theorem rounddown_page (va : ℕ) : PGROUNDDOWN va / PGSIZE = va / PGSIZE :=
  Nat.mul_div_cancel _ (by decide)

theorem phys_span {k : ℕ} (h : k < span va len) :
    phys s root (va + k) = frame s root (PGROUNDDOWN va) + (va - PGROUNDDOWN va) + k := by
  rw [phys, frame_page ((span_page h).trans (rounddown_page va).symm)]
  unfold span PGROUNDDOWN PGSIZE at *
  omega

/-- `P` holds on the first `m` addresses of a range, and these are all of it or end at a
page where `P` does not hold. -/
structure Upto (P : ℕ → Prop) (va len m : ℕ) : Prop where
  le : m ≤ len
  all : ∀ k < m, P (va + k)
  stop : m < len → ¬ P (va + m) ∧ (m = 0 ∨ (va + m) % PGSIZE = 0)

namespace Upto

variable {P : ℕ → Prop} {m : ℕ}

theorem eq_iff (h : Upto P va len m) : m = len ↔ ∀ k < len, P (va + k) := by
  constructor
  · rintro rfl
    exact h.all
  · intro hall
    by_contra hne
    have hlt : m < len := Nat.lt_of_le_of_ne h.le hne
    exact (h.stop hlt).1 (hall m hlt)

theorem empty (P : ℕ → Prop) (va : ℕ) : Upto P va 0 0 :=
  ⟨le_rfl, fun k hk => absurd hk (Nat.not_lt_zero k), fun h => absurd h (Nat.lt_irrefl 0)⟩

theorem bad (h : ¬ P va) : Upto P va len 0 :=
  ⟨Nat.zero_le _, fun k hk => absurd hk (Nat.not_lt_zero k), fun _ => ⟨h, .inl rfl⟩⟩

/-- One round, then the rest. -/
theorem round (hpage : ∀ x, x / PGSIZE = va / PGSIZE → P x)
    (h : Upto P ((PGROUNDDOWN va + PGSIZE) % 2 ^ 64) (len - span va len) m) (hva : va < MAXVA) :
    Upto P va len (span va len + m) := by
  have hle := span_le va len
  have hone : ∀ k < span va len, P (va + k) := fun k hk => hpage _ (span_page hk)
  by_cases hlast : span va len < len
  · have hal : (va + span va len) % PGSIZE = 0 := by
      rw [← span_next hlast, PGROUNDDOWN, Nat.add_mod_right, Nat.mul_mod_left]
    rw [next_eq hva hlast] at h
    have hm := h.le
    refine ⟨by omega, fun k hk => ?_, fun hlt => ?_⟩
    · rcases Nat.lt_or_ge k (span va len) with hk' | hk'
      · exact hone k hk'
      · have := h.all (k - span va len) (by omega)
        rwa [show va + span va len + (k - span va len) = va + k by omega] at this
    · rw [← Nat.add_assoc]
      obtain ⟨hbad, hend⟩ := h.stop (by omega)
      refine ⟨hbad, .inr ?_⟩
      rcases hend with rfl | hend
      · exact hal
      · exact hend
  · have hm : m = 0 := by
      have := h.le
      omega
    subst hm
    exact ⟨by omega, hone, fun hlt => absurd hlt (by omega)⟩

end Upto

/-! ### copyin -/

/-- The bytes of one round, then the rest. -/
theorem userBytes_round {m : ℕ} (hva : va < MAXVA) (hm : m ≤ len - span va len) :
    userBytes s root va (span va len + m) =
      (List.range (span va len)).map (fun k => s.mem (frame s root (PGROUNDDOWN va) + (va - PGROUNDDOWN va) + k)) ++
        userBytes s root ((PGROUNDDOWN va + PGSIZE) % 2 ^ 64) m := by
  have hone : userBytes s root va (span va len) =
      (List.range (span va len)).map (fun k => s.mem (frame s root (PGROUNDDOWN va) + (va - PGROUNDDOWN va) + k)) :=
    List.map_congr_left fun k hk => by rw [phys_span (List.mem_range.mp hk)]
  rw [userBytes_add, hone]
  by_cases hlast : span va len < len
  · rw [next_eq hva hlast]
  · obtain rfl : m = 0 := by omega
    simp [userBytes]

theorem inLoop_round {fuel : ℕ} (hlen : len ≠ 0) (hw : walkaddr s root (PGROUNDDOWN va) ≠ 0) :
    inLoop s root (fuel + 1) va len =
      ((inLoop s root fuel ((PGROUNDDOWN va + PGSIZE) % 2 ^ 64) (len - span va len)).1,
        (List.range (span va len)).map
          (fun k => s.mem (walkaddr s root (PGROUNDDOWN va) + (va - PGROUNDDOWN va) + k)) ++
        (inLoop s root fuel ((PGROUNDDOWN va + PGSIZE) % 2 ^ 64) (len - span va len)).2) := by
  rw [inLoop, if_neg hlen]
  exact if_neg hw

theorem inLoop_spec (s : Sys) (root fuel : ℕ) : ∀ va len, len ≤ fuel →
    ∃ m, Upto (UserMapped s root) va len m ∧ inLoop s root fuel va len = (decide (m = len), userBytes s root va m) := by
  induction fuel with
  | zero =>
    intro va len hf
    obtain rfl : len = 0 := Nat.le_zero.mp hf
    exact ⟨0, .empty .., rfl⟩
  | succ fuel ih =>
    intro va len hf
    by_cases hlen : len = 0
    · subst hlen
      exact ⟨0, .empty .., by rw [inLoop, if_pos rfl]; rfl⟩
    by_cases hu : UserMapped s root va
    · obtain ⟨hw, hne⟩ := walkaddr_of_mapped (hu.page (rounddown_page va).symm)
      have hpos := span_pos va hlen
      have hle := span_le va len
      obtain ⟨m, hm, he⟩ := ih ((PGROUNDDOWN va + PGSIZE) % 2 ^ 64) (len - span va len) (by omega)
      refine ⟨_, Upto.round (fun x hx => hu.page hx.symm) hm hu.1, ?_⟩
      have hall : (m = len - span va len) = (span va len + m = len) := propext (by omega)
      rw [inLoop_round hlen hne, he, userBytes_round hu.1 hm.le, hw]
      simp only [hall]
    · have hw := walkaddr_eq_zero fun h => hu (h.page (rounddown_page va))
      refine ⟨0, .bad hu, ?_⟩
      rw [inLoop, if_neg hlen, decide_eq_false (Ne.symm hlen)]
      exact if_pos hw

/-! ### copyout -/

section Congr

variable (h : ∀ q ∈ tables s root, ∀ x, InPage q x → s'.mem x = s.mem x)

include h

theorem frame_congr (x : ℕ) : frame s' root x = frame s root x := by rw [frame, frame, trans_congr h]

theorem phys_congr (x : ℕ) : phys s' root x = phys s root x := by rw [phys, phys, frame_congr h]

theorem writable_congr (x : ℕ) : Writable s' root x ↔ Writable s root x := by rw [Writable, Writable, trans_congr h]

theorem userMapped_congr (x : ℕ) : UserMapped s' root x ↔ UserMapped s root x := by
  rw [UserMapped, UserMapped, trans_congr h]

end Congr

/-- No byte of the range is in a page of the page table. -/
def OffTable (s : Sys) (root va len : ℕ) : Prop :=
  ∀ k < len, Writable s root (va + k) → ∀ q ∈ tables s root, ¬ InPage q (phys s root (va + k))

/-- `m` bytes of `src` from `i` on went to the user addresses from `va` on. -/
structure Put (root : ℕ) (src : ℕ → UInt8) (s s' : Sys) (va i m : ℕ) : Prop where
  other : ∀ y, (∀ k < m, y ≠ phys s root (va + k)) → s'.mem y = s.mem y
  bytes : (∀ j < m, ∀ k < m, phys s root (va + j) = phys s root (va + k) → j = k) →
    ∀ k < m, s'.mem (phys s root (va + k)) = src (i + k)
  rest : s' = { s with mem := s'.mem }

theorem Put.none (root : ℕ) (src : ℕ → UInt8) (s : Sys) (va i : ℕ) : Put root src s s va i 0 :=
  ⟨fun _ _ => rfl, fun _ k hk => absurd hk (Nat.not_lt_zero k), rfl⟩

theorem Put.append {src : ℕ → UInt8} {s₁ : Sys} {i m n : ℕ} (h : Put root src s s₁ va i n)
    (h' : Put root src s₁ s' (va + n) (i + n) m) (hp : ∀ x, phys s₁ root x = phys s root x) :
    Put root src s s' va i (n + m) := by
  have hsub : ∀ k < m, phys s₁ root (va + n + k) = phys s root (va + (n + k)) := fun k _ => by
    rw [hp, Nat.add_assoc]
  refine ⟨fun y hy => ?_, fun hd k hk => ?_, ?_⟩
  · rw [h'.other y fun k hk => ?_, h.other y fun k hk => hy k (by omega)]
    rw [hsub k hk]
    exact hy _ (by omega)
  · rcases Nat.lt_or_ge k n with hk' | hk'
    · rw [h'.other _ fun j hj e => ?_]
      · exact h.bytes (fun j hj k hk => hd j (by omega) k (by omega)) k hk'
      · rw [hsub j hj] at e
        have := hd _ (by omega) _ (by omega) e
        omega
    · obtain ⟨j, rfl⟩ := Nat.exists_eq_add_of_le hk'
      have hj : j < m := by omega
      rw [← hsub j hj, h'.bytes ?_ j hj, Nat.add_assoc]
      intro a ha b hb e
      rw [hsub a ha, hsub b hb] at e
      have := hd _ (by omega) _ (by omega) e
      omega
  · rw [h'.rest, h.rest]

/-- The memory after one round at `va`. -/
def moved (root : ℕ) (src : ℕ → UInt8) (s : Sys) (va i len : ℕ) : Sys :=
  let dst := frame s root (PGROUNDDOWN va) + (va - PGROUNDDOWN va)
  { s with mem := memmove s.mem dst (fun x => src (i + x)) (span va len) }

theorem Put.moved (root : ℕ) (src : ℕ → UInt8) (s : Sys) (va i len : ℕ) :
    Put root src s (moved root src s va i len) va i (span va len) := by
  refine ⟨fun y hy => if_neg ?_, fun _ k hk => ?_, rfl⟩
  · rintro ⟨h1, h2⟩
    obtain ⟨k, rfl⟩ := Nat.exists_eq_add_of_le h1
    have hk : k < span va len := by omega
    exact hy k hk (phys_span hk).symm
  · rw [phys_span hk, Vm.moved]
    refine (if_pos (by omega)).trans ?_
    rw [Nat.add_sub_cancel_left]

theorem outLoop_zero (root : ℕ) (src : ℕ → UInt8) (fuel va i : ℕ) (s : Sys) : outLoop root src fuel va i 0 s = (true, s) := by
  cases fuel
  · rfl
  · rw [outLoop, if_pos rfl]

theorem outLoop_round {src : ℕ → UInt8} {fuel i : ℕ} (hlen : len ≠ 0) (hw : Writable s root va) :
    outLoop root src (fuel + 1) va i len s = outLoop root src fuel ((PGROUNDDOWN va + PGSIZE) % 2 ^ 64)
      (i + span va len) (len - span va len) (moved root src s va i len) := by
  obtain ⟨hx, e, he, hu, hwr⟩ := hw.page (rounddown_page va).symm
  obtain ⟨a, hl, hd⟩ : ∃ a, lookup s root (PGROUNDDOWN va) = some a ∧ decode (s.ld a) = some e :=
    Option.bind_eq_some_iff.mp he
  have hfr := frame_eq he
  obtain ⟨hv, rfl⟩ := decode_eq_some.mp hd
  rw [has_flags _ (by decide)] at hu hwr
  rw [outLoop, if_neg hlen]
  simp only [if_neg (show ¬ MAXVA ≤ PGROUNDDOWN va by omega), hl, hv, hu, hwr, Bool.true_eq_false, or_self, if_false]
  rw [moved, hfr]
  rfl

theorem outLoop_stop {src : ℕ → UInt8} {fuel i : ℕ} (hlen : len ≠ 0) (hw : ¬ Writable s root va) :
    outLoop root src (fuel + 1) va i len s = (false, s) := by
  have hw0 : ¬ Writable s root (PGROUNDDOWN va) := fun h => hw (h.page (rounddown_page va))
  rw [outLoop, if_neg hlen]
  by_cases hx : MAXVA ≤ PGROUNDDOWN va
  · exact if_pos hx
  · simp only [if_neg hx]
    rcases hl : lookup s root (PGROUNDDOWN va) with _ | a
    · rfl
    · refine if_pos ?_
      by_contra hall
      simp only [not_or, Bool.not_eq_false] at hall
      obtain ⟨hv, hu, hwr⟩ := hall
      rw [← has_flags _ (by decide)] at hu hwr
      exact hw0 ⟨by omega, _, (trans_eq_decode hl).trans (decode_eq_some.mpr ⟨hv, rfl⟩), hu, hwr⟩

theorem outLoop_spec (root : ℕ) (src : ℕ → UInt8) (fuel : ℕ) : ∀ va i len s, len ≤ fuel → OffTable s root va len →
    ∃ m s', Upto (Writable s root) va len m ∧ outLoop root src fuel va i len s = (decide (m = len), s') ∧
      Put root src s s' va i m := by
  induction fuel with
  | zero =>
    intro va i len s hf _
    obtain rfl : len = 0 := Nat.le_zero.mp hf
    exact ⟨0, s, .empty .., rfl, .none ..⟩
  | succ fuel ih =>
    intro va i len s hf hoff
    by_cases hlen : len = 0
    · subst hlen
      exact ⟨0, s, .empty .., by rw [outLoop_zero]; rfl, .none ..⟩
    by_cases hw : Writable s root va
    · have hpos := span_pos va hlen
      have hle := span_le va len
      have hput := Put.moved root src s va i len
      -- the page table is the same after the round
      have hsame : ∀ q ∈ tables s root, ∀ x, InPage q x → (moved root src s va i len).mem x = s.mem x := by
        intro q hq x hx
        refine hput.other x fun k hk e => ?_
        exact hoff k (by omega) (hw.page (span_page hk).symm) q hq (e ▸ hx)
      rw [outLoop_round hlen hw]
      by_cases hlast : span va len < len
      · rw [next_eq hw.1 hlast]
        obtain ⟨m, s', hm, he, hp⟩ := ih (va + span va len) (i + span va len) (len - span va len)
          (moved root src s va i len) (by omega) fun k hk hwk q hq => by
            rw [phys_congr hsame, Nat.add_assoc]
            rw [writable_congr hsame, Nat.add_assoc] at hwk
            rw [tables_congr hsame] at hq
            exact hoff _ (by omega) hwk q hq
        have hm' : Upto (Writable s root) (va + span va len) (len - span va len) m :=
          ⟨hm.le, fun k hk => (writable_congr hsame _).mp (hm.all k hk),
            fun hlt => ⟨fun h => (hm.stop hlt).1 ((writable_congr hsame _).mpr h), (hm.stop hlt).2⟩⟩
        rw [← next_eq hw.1 hlast] at hm'
        refine ⟨_, s', Upto.round (fun x hx => hw.page hx.symm) hm' hw.1, ?_, hput.append hp (phys_congr hsame)⟩
        have hall : (m = len - span va len) = (span va len + m = len) := propext (by omega)
        rw [he]
        simp only [hall]
      · have heq : span va len = len := by omega
        rw [heq, Nat.sub_self, outLoop_zero]
        rw [heq] at hput
        refine ⟨len, _, ⟨le_rfl, fun k hk => ?_, fun hlt => absurd hlt (Nat.lt_irrefl _)⟩, by simp, hput⟩
        exact hw.page (span_page (heq.symm ▸ hk)).symm
    · refine ⟨0, s, .bad hw, ?_, .none ..⟩
      rw [outLoop_stop hlen hw, decide_eq_false (Ne.symm hlen)]

/-- The pages of the range are mapped to distinct frames. -/
def DistinctFrames (s : Sys) (root va len : ℕ) : Prop :=
  ∀ j < len, ∀ k < len, frame s root (va + j) = frame s root (va + k) → (va + j) / PGSIZE = (va + k) / PGSIZE

theorem DistinctFrames.phys_inj (h : DistinctFrames s root va len) :
    ∀ j < len, ∀ k < len, phys s root (va + j) = phys s root (va + k) → j = k := by
  intro j hj k hk e
  have hfj := frame_aligned s root (va + j)
  have hfk := frame_aligned s root (va + k)
  have hf : frame s root (va + j) = frame s root (va + k) := by
    unfold phys PGSIZE at *
    omega
  have hp := h j hj k hk hf
  rw [phys, phys, hf] at e
  unfold PGSIZE at *
  omega

/-- A byte that `copyout` wrote is the user's byte there. -/
theorem Put.userBytes {src : ℕ → UInt8} {m : ℕ} (h : Put root src s s' va 0 m) (hd : DistinctFrames s root va m)
    (hp : ∀ x, phys s' root x = phys s root x) : userBytes s' root va m = (List.range m).map src := by
  refine List.map_congr_left fun k hk => ?_
  rw [hp, h.bytes hd.phys_inj k (List.mem_range.mp hk), Nat.zero_add]

/-- **Copies respect the page table.** `copyin` moves the range up to the first page that is not
mapped for the user, and returns 0 iff that is all of it. So does `copyout` with the pages that
are writable for the user, as long as no byte of the range is in the page table itself; it
changes no other byte of memory. With distinct frames the user then has the bytes of the
source, and `copyin` returns them. -/
theorem user_copies (s : Sys) (root va len : ℕ) :
    ((copyin s root va len).1 = true ↔ ∀ k < len, UserMapped s root (va + k)) ∧
    (∃ m, Upto (UserMapped s root) va len m ∧ (copyin s root va len).2 = userBytes s root va m) ∧
    (OffTable s root va len → ∀ src, ∃ ok s' m, copyout root va src len s = (ok, s') ∧
      (ok = true ↔ ∀ k < len, Writable s root (va + k)) ∧
      Upto (Writable s root) va len m ∧
      (∀ y, (∀ k < m, y ≠ phys s root (va + k)) → s'.mem y = s.mem y) ∧
      (DistinctFrames s root va len → (∀ k < m, s'.mem (phys s root (va + k)) = src k) ∧
        (ok = true → (∀ k < len, frame s root (va + k) ≠ 0) →
          copyin s' root va len = (true, (List.range len).map src)))) := by
  have hin : ∀ t : Sys, ∃ m, Upto (UserMapped t root) va len m ∧
      copyin t root va len = (decide (m = len), userBytes t root va m) := fun t => inLoop_spec t root len va len le_rfl
  obtain ⟨m, hm, he⟩ := hin s
  refine ⟨?_, ⟨m, hm, by rw [he]⟩, fun hoff src => ?_⟩
  · rw [he, decide_eq_true_eq]
    exact hm.eq_iff
  obtain ⟨m, s', hm, he, hput⟩ := outLoop_spec root src len va 0 len s le_rfl hoff
  refine ⟨decide (m = len), s', m, he, ?_, hm, hput.other, fun hd => ⟨fun k hk => ?_, fun hok hnz => ?_⟩⟩
  · rw [decide_eq_true_eq]
    exact hm.eq_iff
  · have hinj : ∀ i < m, ∀ j < m, phys s root (va + i) = phys s root (va + j) → i = j := fun i hi j hj =>
      hd.phys_inj i (lt_of_lt_of_le hi hm.le) j (lt_of_lt_of_le hj hm.le)
    rw [hput.bytes hinj k hk, Nat.zero_add]
  · obtain rfl := of_decide_eq_true hok
    have hsame : ∀ q ∈ tables s root, ∀ x, InPage q x → s'.mem x = s.mem x := fun q hq x hx =>
      hput.other x fun k hk e => hoff k hk (hm.all k hk) q hq (e ▸ hx)
    obtain ⟨n, hn, he'⟩ := hin s'
    have hall : ∀ k < m, UserMapped s' root (va + k) := by
      intro k hk
      rw [userMapped_congr hsame]
      obtain ⟨hx, e, ht, hu, -⟩ := hm.all k hk
      exact ⟨hx, e, ht, hu, frame_eq ht ▸ hnz k hk⟩
    obtain rfl := hn.eq_iff.mpr hall
    rw [he', hput.userBytes hd (phys_congr hsame), decide_eq_true rfl]

/-- The flags of a user's page. -/
def RWU : ℕ := PTE_R ||| PTE_W ||| PTE_U

/-- The pages of a page table that was built in `blank`. -/
theorem blank_tables {new : List ℕ} {q : ℕ} (h : Grown KERNBASE blank s new) (hq : q ∈ tables s KERNBASE) :
    q ≤ KERNBASE + 2 * PGSIZE := by
  have hfree : ∀ q ∈ blank.free, q ≤ KERNBASE + 2 * PGSIZE := by decide
  rcases (h.tables q).mp hq with hq | hq
  · refine hfree q ?_
    rw [h.free]
    exact List.mem_append_left _ hq
  · rw [(mem_tables_of_empty blank_empty).mp hq]
    decide

theorem user_copies_two : ∃ s s' : Sys, copyout KERNBASE 0 (fun k => UInt8.ofNat k) 2 s = (true, s') ∧
    copyin s' KERNBASE 0 2 = (true, [0, 1]) := by
  obtain ⟨s, new, -, hm⟩ :=
    blank_maps (KERNBASE + 3 * PGSIZE) RWU (by decide) (by decide) (by decide) (by decide +kernel)
  have ht0 := hm.first rfl (by decide)
  have hpage : ∀ k < 2, (0 + k) / PGSIZE = 0 / PGSIZE := by decide
  have hfr : ∀ k < 2, frame s KERNBASE (0 + k) = KERNBASE + 3 * PGSIZE := fun k hk => by
    rw [frame_page (hpage k hk), frame_eq ht0]
  have hw : ∀ k < 2, Writable s KERNBASE (0 + k) := fun k hk =>
    Writable.page ⟨by decide, _, ht0, by decide, by decide⟩ (hpage k hk).symm
  have hoff : OffTable s KERNBASE 0 2 := by
    intro k hk _ q hq hin
    rw [phys, hfr k hk] at hin
    have hle := blank_tables hm.grown hq
    unfold InPage PGSIZE at *
    omega
  obtain ⟨-, -, h⟩ := user_copies s KERNBASE 0 2
  obtain ⟨ok, s', m, he, hok, -, -, hd⟩ := h hoff fun k => UInt8.ofNat k
  obtain rfl : ok = true := hok.mpr hw
  refine ⟨s, s', he, (hd fun j hj k hk _ => (hpage j hj).trans (hpage k hk).symm).2 rfl fun k hk => ?_⟩
  rw [hfr k hk]
  decide

/-- Two pages mapped to one frame: `copyout` returns 0, but the byte that it wrote to the first
page is gone. -/
theorem copyout_aliased : ∃ (s s' : Sys) (src : ℕ → UInt8), Tree s KERNBASE ∧
    (∀ k < PGSIZE + 1, Writable s KERNBASE k) ∧ copyout KERNBASE 0 src (PGSIZE + 1) s = (true, s') ∧
    s'.mem (phys s KERNBASE 0) ≠ src 0 := by
  have hF : (KERNBASE + 3 * PGSIZE) % PGSIZE = 0 := by decide
  have heval : okWith (do
      let r ← mappages KERNBASE 0 PGSIZE (KERNBASE + 3 * PGSIZE) RWU blank
      let r ← mappages KERNBASE PGSIZE PGSIZE (KERNBASE + 3 * PGSIZE) RWU r.2
      .ok (r.1, copyout KERNBASE 0 (fun k => UInt8.ofNat (k / PGSIZE)) (PGSIZE + 1) r.2))
      (fun r => decide (r.1 = true ∧ r.2.1 = true ∧ r.2.2.mem (KERNBASE + 3 * PGSIZE) = 1)) = true := by
    decide +kernel
  obtain ⟨s₁, new, h₁, hm₁⟩ := blank_maps (KERNBASE + 3 * PGSIZE) RWU hF (by decide) (by decide) (by decide +kernel)
  have hn : ∀ x, PGSIZE ≤ x → x < PGSIZE + (0 + 1) * PGSIZE → trans s₁ KERNBASE x = none := by
    intro x h1 h2
    rw [hm₁.trans x (lt_trans h2 (by decide)), overlay_one rfl, if_neg, trans_of_empty blank_empty]
    unfold PGSIZE at *
    omega
  obtain ⟨r, s, k, new', h₂, hm⟩ := mappages_spec hm₁.grown.table (by rfl) hF (by decide) (by decide)
    (show RWU < 1024 by decide) hn
  rw [show (0 + 1) * PGSIZE = PGSIZE by rfl] at h₂
  rw [h₁, ok_bind] at heval
  simp only [h₂] at heval
  obtain ⟨t, ht, hall⟩ := okWith_iff.mp heval
  obtain rfl := Except.ok.inj ht
  obtain ⟨hr, hok, hmem⟩ := of_decide_eq_true hall
  subst hr
  obtain rfl : k = 1 := hm.done
  have ht1 : trans s KERNBASE PGSIZE = some (KERNBASE + 3 * PGSIZE, RWU ||| PTE_V) := hm.first rfl (by decide)
  have ht0 : trans s KERNBASE 0 = some (KERNBASE + 3 * PGSIZE, RWU ||| PTE_V) := by
    rw [hm.trans 0 (by decide), overlay_one rfl]
    exact hm₁.first rfl (by decide)
  refine ⟨s, _, fun k => UInt8.ofNat (k / PGSIZE), hm.grown.table.toTree, fun k hk => ?_, Prod.ext hok rfl, ?_⟩
  · by_cases hk0 : k < PGSIZE
    · refine Writable.page ⟨by decide, _, ht0, by decide, by decide⟩ ?_
      rw [Nat.div_eq_of_lt hk0]
      rfl
    · obtain rfl : k = PGSIZE := by omega
      exact ⟨by decide, _, ht1, by decide, by decide⟩
  · rw [phys, frame_eq ht0]
    exact fun e => absurd (hmem.symm.trans e) (by decide)

/-! ### Two processes -/

theorem Upto.unique {P : ℕ → Prop} {m n : ℕ} (h : Upto P va len m) (h' : Upto P va len n) : m = n := by
  rcases Nat.lt_trichotomy m n with hlt | heq | hlt
  · exact absurd (h'.all m hlt) (h.stop (lt_of_lt_of_le hlt h'.le)).1
  · exact heq
  · exact absurd (h.all n hlt) (h'.stop (lt_of_lt_of_le hlt h.le)).1

theorem Upto.congr {P Q : ℕ → Prop} {m : ℕ} (h : Upto P va len m) (hpq : ∀ x, P x ↔ Q x) : Upto Q va len m :=
  ⟨h.le, fun k hk => (hpq _).mp (h.all k hk), fun hlt => ⟨fun hq => (h.stop hlt).1 ((hpq _).mpr hq), (h.stop hlt).2⟩⟩

/-- What is written through the page table at `r` is not in a page table, nor in memory that is
mapped for the user at `r'`. -/
structure Sealed (s : Sys) (r r' : ℕ) : Prop where
  own : ∀ x, Writable s r x → ∀ q ∈ tables s r, ¬ InPage q (phys s r x)
  table : ∀ x, Writable s r x → ∀ q ∈ tables s r', ¬ InPage q (phys s r x)
  bytes : ∀ x y, Writable s r x → UserMapped s r' y → phys s r x ≠ phys s r' y

variable {r r' : ℕ}

theorem Sealed.congr (h : Sealed s r r') (hr : ∀ q ∈ tables s r, ∀ x, InPage q x → s'.mem x = s.mem x)
    (hr' : ∀ q ∈ tables s r', ∀ x, InPage q x → s'.mem x = s.mem x) : Sealed s' r r' := by
  refine ⟨fun x hx q hq => ?_, fun x hx q hq => ?_, fun x y hx hy => ?_⟩
  · rw [phys_congr hr]
    rw [tables_congr hr] at hq
    exact h.own x ((writable_congr hr x).mp hx) q hq
  · rw [phys_congr hr]
    rw [tables_congr hr'] at hq
    exact h.table x ((writable_congr hr x).mp hx) q hq
  · rw [phys_congr hr, phys_congr hr']
    exact h.bytes x y ((writable_congr hr x).mp hx) ((userMapped_congr hr' y).mp hy)

/-- A copy through `r` changes neither page table, and no byte that is mapped at `r'`. -/
theorem Sealed.copyout_mem (h : Sealed s r r') (va len : ℕ) (src : ℕ → UInt8) :
    (∀ q ∈ tables s r, ∀ x, InPage q x → (copyout r va src len s).2.mem x = s.mem x) ∧
    (∀ q ∈ tables s r', ∀ x, InPage q x → (copyout r va src len s).2.mem x = s.mem x) ∧
    ∀ y, UserMapped s r' y → (copyout r va src len s).2.mem (phys s r' y) = s.mem (phys s r' y) := by
  obtain ⟨m, t, hm, he, hput⟩ := outLoop_spec r src len va 0 len s le_rfl fun k _ hw => h.own _ hw
  rw [copyout, he]
  refine ⟨fun q hq x hx => hput.other x fun k hk e => ?_, fun q hq x hx => hput.other x fun k hk e => ?_,
    fun y hy => hput.other _ fun k hk e => ?_⟩
  · exact h.own _ (hm.all k hk) q hq (e ▸ hx)
  · exact h.table _ (hm.all k hk) q hq (e ▸ hx)
  · exact h.bytes _ y (hm.all k hk) hy e.symm

/-- So `copyin` through `r'` returns what it did before. -/
theorem Sealed.copyin_eq (h : Sealed s r r') (va len : ℕ) (src : ℕ → UInt8) (va' len' : ℕ) :
    copyin (copyout r va src len s).2 r' va' len' = copyin s r' va' len' := by
  obtain ⟨-, hr', hbytes⟩ := h.copyout_mem va len src
  obtain ⟨m, hm, he⟩ := inLoop_spec s r' len' va' len' le_rfl
  obtain ⟨n, hn, he'⟩ := inLoop_spec (copyout r va src len s).2 r' len' va' len' le_rfl
  obtain rfl := hm.unique (hn.congr (userMapped_congr hr'))
  rw [copyin, copyin, he, he']
  refine congrArg _ (List.map_congr_left fun k hk => ?_)
  rw [phys_congr hr', hbytes _ (hm.all k (List.mem_range.mp hk))]

/-- Two processes whose memory is apart. -/
def Apart (s : Sys) (r r' : ℕ) : Prop := Sealed s r r' ∧ Sealed s r' r

theorem Apart.symm (h : Apart s r r') : Apart s r' r := ⟨h.2, h.1⟩

theorem Apart.copyout (h : Apart s r r') (va len : ℕ) (src : ℕ → UInt8) : Apart (copyout r va src len s).2 r r' := by
  obtain ⟨h1, h2, -⟩ := h.1.copyout_mem va len src
  exact ⟨h.1.congr h1 h2, h.2.congr h2 h1⟩

/-- Copies into the one and into the other. -/
def outs (r r' : ℕ) : List (Bool × ℕ × (ℕ → UInt8) × ℕ) → Sys → Sys
  | [], s => s
  | (b, va, src, len) :: L, s => outs r r' L (copyout (if b then r else r') va src len s).2

theorem Apart.outs (L : List (Bool × ℕ × (ℕ → UInt8) × ℕ)) : ∀ {s : Sys}, Apart s r r' → Apart (outs r r' L s) r r' := by
  induction L with
  | nil => exact fun h => h
  | cons c L ih =>
    obtain ⟨b, va, src, len⟩ := c
    intro s h
    cases b
    · exact ih (h.symm.copyout va len src).symm
    · exact ih (h.copyout va len src)

/-! ### copyinstr -/

theorem scan_spec (m : ℕ → UInt8) (n : ℕ) : ∀ p,
    (∃ k < n, m (p + k) = 0 ∧ (∀ j < k, m (p + j) ≠ 0) ∧
      scan m n p = ((List.range (k + 1)).map (fun j => m (p + j)), true)) ∨
    ((∀ j < n, m (p + j) ≠ 0) ∧ scan m n p = ((List.range n).map (fun j => m (p + j)), false)) := by
  induction n with
  | zero => exact fun p => .inr ⟨fun j hj => absurd hj (Nat.not_lt_zero j), rfl⟩
  | succ n ih =>
    intro p
    rw [scan]
    by_cases h0 : m p = 0
    · refine .inl ⟨0, Nat.succ_pos _, h0, fun j hj => absurd hj (Nat.not_lt_zero j), ?_⟩
      simp [h0]
    · have hshift : ∀ j, m (p + 1 + j) = m (p + (j + 1)) := fun j => by rw [Nat.add_assoc, Nat.add_comm 1]
      have hcons : ∀ k, (List.range (k + 1)).map (fun j => m (p + j)) =
          m p :: (List.range k).map fun j => m (p + 1 + j) := by
        intro k
        rw [List.range_succ_eq_map, List.map_cons, List.map_map]
        refine congrArg _ (List.map_congr_left fun j _ => ?_)
        rw [hshift, Function.comp_apply]
      have hne : ∀ {k}, (∀ j < k, m (p + 1 + j) ≠ 0) → ∀ j < k + 1, m (p + j) ≠ 0 := by
        rintro k hk (_ | j) hj
        · exact h0
        · rw [← hshift]
          exact hk j (by omega)
      simp only [if_neg h0]
      rcases ih (p + 1) with ⟨k, hk, hz, hbefore, he⟩ | ⟨hall, he⟩
      · refine .inl ⟨k + 1, by omega, by rw [← hshift, hz], hne hbefore, ?_⟩
        rw [he, hcons]
      · refine .inr ⟨hne hall, ?_⟩
        rw [he, hcons]

/-- The user's bytes from `va` on up to the one at `k` are a string with its NUL. -/
structure IsStr (s : Sys) (root va k : ℕ) : Prop where
  mapped : ∀ j ≤ k, UserMapped s root (va + j)
  nul : s.mem (phys s root (va + k)) = 0
  nonzero : ∀ j < k, s.mem (phys s root (va + j)) ≠ 0

theorem IsStr.unique {j k : ℕ} (hj : IsStr s root va j) (hk : IsStr s root va k) : j = k := by
  rcases Nat.lt_trichotomy j k with h | h | h
  · exact absurd hj.nul (hk.nonzero j h)
  · exact h
  · exact absurd hk.nul (hj.nonzero k h)

/-- A page that may be read: one of the first `max` addresses is in it, it is mapped, and so
is every page before it, without a NUL. -/
structure MayRead (s : Sys) (root va max p : ℕ) : Prop where
  page : ∃ j < max, p = PGROUNDDOWN (va + j)
  mapped : UserMapped s root p
  before : ∀ x, va ≤ x → x < p → UserMapped s root x ∧ s.mem (phys s root x) ≠ 0

/-- What `copyinstr` returns, stores and reads. -/
inductive StrEnd (s : Sys) (root va max : ℕ) : Bool × List UInt8 × List ℕ → Prop
  | found (k : ℕ) (pages : List ℕ) (hk : k < max) (h : IsStr s root va k)
      (hp : ∀ p ∈ pages, MayRead s root va max p) : StrEnd s root va max (true, userBytes s root va (k + 1), pages)
  | stopped (m : ℕ) (pages : List ℕ) (hm : Upto (UserMapped s root) va max m)
      (h : ∀ j < m, s.mem (phys s root (va + j)) ≠ 0) (hp : ∀ p ∈ pages, MayRead s root va max p) :
      StrEnd s root va max (false, userBytes s root va m, pages)

theorem MayRead.first {max : ℕ} (hu : UserMapped s root va) (hmax : max ≠ 0) : MayRead s root va max (PGROUNDDOWN va) := by
  refine ⟨⟨0, Nat.pos_of_ne_zero hmax, rfl⟩, hu.page (rounddown_page va).symm, fun x h1 h2 => ?_⟩
  unfold PGROUNDDOWN PGSIZE at h2
  omega

theorem MayRead.next {max n p : ℕ} (h : MayRead s root (va + n) (max - n) p)
    (hu : ∀ j < n, UserMapped s root (va + j) ∧ s.mem (phys s root (va + j)) ≠ 0) : MayRead s root va max p := by
  obtain ⟨j, hj, hp⟩ := h.page
  refine ⟨⟨n + j, by omega, by rw [hp, Nat.add_assoc]⟩, h.mapped, fun x h1 h2 => ?_⟩
  rcases Nat.lt_or_ge x (va + n) with hx | hx
  · obtain ⟨i, rfl⟩ := Nat.exists_eq_add_of_le h1
    exact hu i (by omega)
  · exact h.before x hx h2

theorem strLoop_zero (s : Sys) (root fuel va : ℕ) : strLoop s root fuel va 0 = (false, [], []) := by
  cases fuel
  · rfl
  · rw [strLoop, if_pos rfl]

theorem strLoop_round {fuel max : ℕ} (hmax : max ≠ 0) (hu : UserMapped s root va) :
    strLoop s root (fuel + 1) va max =
      let r := scan s.mem (span va max) (frame s root (PGROUNDDOWN va) + (va - PGROUNDDOWN va))
      if r.2 then (true, r.1, [PGROUNDDOWN va])
      else
        let t := strLoop s root fuel ((PGROUNDDOWN va + PGSIZE) % 2 ^ 64) (max - span va max)
        (t.1, r.1 ++ t.2.1, PGROUNDDOWN va :: t.2.2) := by
  obtain ⟨hw, hne⟩ := walkaddr_of_mapped (hu.page (rounddown_page va).symm)
  rw [strLoop, if_neg hmax]
  rw [hw] at hne
  simp only [hw, if_neg hne]
  rfl

/-- One page without a NUL, then the rest. -/
theorem StrEnd.round {max : ℕ} {t : Bool × List UInt8 × List ℕ} (hu : UserMapped s root va) (hlast : span va max < max)
    (hne : ∀ j < span va max, s.mem (phys s root (va + j)) ≠ 0)
    (h : StrEnd s root (va + span va max) (max - span va max) t) :
    StrEnd s root va max (t.1, userBytes s root va (span va max) ++ t.2.1, PGROUNDDOWN va :: t.2.2) := by
  have hboth : ∀ j < span va max, UserMapped s root (va + j) ∧ s.mem (phys s root (va + j)) ≠ 0 := fun j hj =>
    ⟨hu.page (span_page hj).symm, hne j hj⟩
  have hnz : ∀ {k}, (∀ j < k, s.mem (phys s root (va + span va max + j)) ≠ 0) →
      ∀ j < span va max + k, s.mem (phys s root (va + j)) ≠ 0 := by
    intro k hk j hj
    rcases Nat.lt_or_ge j (span va max) with hj' | hj'
    · exact hne j hj'
    · obtain ⟨i, rfl⟩ := Nat.exists_eq_add_of_le hj'
      rw [← Nat.add_assoc]
      exact hk i (by omega)
  have hpages : ∀ {pages : List ℕ}, (∀ p ∈ pages, MayRead s root (va + span va max) (max - span va max) p) →
      ∀ p ∈ PGROUNDDOWN va :: pages, MayRead s root va max p := by
    intro pages hp p hmem
    rcases List.mem_cons.mp hmem with rfl | hmem
    · exact .first hu (by omega)
    · exact (hp p hmem).next hboth
  cases h with
  | found k pages hk h hp =>
    rw [← userBytes_add, ← Nat.add_assoc]
    refine .found (span va max + k) _ (by omega) ⟨fun j hj => ?_, ?_, hnz h.nonzero⟩ (hpages hp)
    · rcases Nat.lt_or_ge j (span va max) with hj' | hj'
      · exact (hboth j hj').1
      · obtain ⟨i, rfl⟩ := Nat.exists_eq_add_of_le hj'
        rw [← Nat.add_assoc]
        exact h.mapped i (by omega)
    · rw [← Nat.add_assoc]
      exact h.nul
  | stopped m pages hm h hp =>
    rw [← userBytes_add]
    rw [← next_eq hu.1 hlast] at hm
    exact .stopped _ _ (Upto.round (fun x hx => hu.page hx.symm) hm hu.1) (hnz h) (hpages hp)

theorem strLoop_spec (s : Sys) (root fuel : ℕ) : ∀ va max, max < fuel → StrEnd s root va max (strLoop s root fuel va max) := by
  induction fuel with
  | zero => exact fun va max h => absurd h (Nat.not_lt_zero _)
  | succ fuel ih =>
    intro va max hf
    have hstop : ¬ UserMapped s root va ∨ max = 0 → StrEnd s root va max (false, [], []) := by
      intro h
      refine .stopped 0 [] ?_ (fun j hj => absurd hj (Nat.not_lt_zero j)) (by simp)
      rcases h with h | rfl
      · exact .bad h
      · exact .empty ..
    by_cases hmax : max = 0
    · rw [strLoop, if_pos hmax]
      exact hstop (.inr hmax)
    by_cases hu : UserMapped s root va
    · have hpos := span_pos va hmax
      have hle := span_le va max
      have hmap : ∀ j < span va max, UserMapped s root (va + j) := fun j hj => hu.page (span_page hj).symm
      rw [strLoop_round hmax hu]
      rcases scan_spec s.mem (span va max) (frame s root (PGROUNDDOWN va) + (va - PGROUNDDOWN va)) with
        ⟨k, hk, hz, hbefore, he⟩ | ⟨hall, he⟩
      · have hbytes : (List.range (k + 1)).map
            (fun j => s.mem (frame s root (PGROUNDDOWN va) + (va - PGROUNDDOWN va) + j)) = userBytes s root va (k + 1) :=
          List.map_congr_left fun j hj => by
            have hjk := List.mem_range.mp hj
            rw [phys_span (show j < span va max by omega)]
        simp only [he, if_true, hbytes]
        refine .found k _ (by omega) ⟨fun j hj => hmap j (by omega), by rw [phys_span hk, hz], fun j hj => ?_⟩ fun p hp => ?_
        · rw [phys_span (show j < span va max by omega)]
          exact hbefore j hj
        · rw [List.mem_singleton.mp hp]
          exact .first hu hmax
      · have hne : ∀ j < span va max, s.mem (phys s root (va + j)) ≠ 0 := fun j hj => by
          rw [phys_span hj]
          exact hall j hj
        have hbytes : (List.range (span va max)).map
            (fun j => s.mem (frame s root (PGROUNDDOWN va) + (va - PGROUNDDOWN va) + j)) = userBytes s root va (span va max) :=
          List.map_congr_left fun j hj => by rw [phys_span (List.mem_range.mp hj)]
        simp only [he, Bool.false_eq_true, if_false, hbytes]
        by_cases hlast : span va max < max
        · rw [next_eq hu.1 hlast]
          exact (ih (va + span va max) (max - span va max) (by omega)).round hu hlast hne
        · have heq : span va max = max := by omega
          rw [heq] at hmap hne
          rw [heq, Nat.sub_self, strLoop_zero, List.append_nil]
          refine .stopped max _ ⟨le_rfl, hmap, fun h => absurd h (Nat.lt_irrefl _)⟩ hne fun p hp => ?_
          rw [List.mem_singleton.mp hp]
          exact .first hu hmax
    · have hw := walkaddr_eq_zero fun h => hu (h.page (rounddown_page va))
      have he : strLoop s root (fuel + 1) va max = (false, [], []) := by
        rw [strLoop, if_neg hmax]
        exact if_pos hw
      rw [he]
      exact hstop (.inl hu)

/-- **`copyinstr` copies exactly a bounded string.** It returns 0 iff a string ends within
the first `max` addresses; then it has stored that string. It stores at most `max` bytes,
and reads no page after one that is not mapped or that holds a NUL. -/
theorem copyinstr_exact (s : Sys) (root va max : ℕ) :
    ((copyinstr s root va max).1 = true ↔ ∃ k < max, IsStr s root va k) ∧
    (∀ k < max, IsStr s root va k → (copyinstr s root va max).2.1 = userBytes s root va (k + 1)) ∧
    (copyinstr s root va max).2.1.length ≤ max ∧
    ∀ p ∈ (copyinstr s root va max).2.2, MayRead s root va max p := by
  have h := strLoop_spec s root (max + 1) va max (Nat.lt_succ_self max)
  rw [← copyinstr] at h
  generalize copyinstr s root va max = r at h
  cases h with
  | found k pages hk hstr hp =>
    refine ⟨iff_of_true rfl ⟨k, hk, hstr⟩, fun j _ hj => ?_, ?_, hp⟩
    · rw [hj.unique hstr]
    · rw [userBytes, List.length_map, List.length_range]
      exact hk
  | stopped m pages hm hne hp =>
    have hnone : ∀ k < max, ¬ IsStr s root va k := by
      intro k hk hstr
      rcases Nat.lt_or_ge k m with hkm | hkm
      · exact hne k hkm hstr.nul
      · exact (hm.stop (by omega)).1 (hstr.mapped m hkm)
    refine ⟨iff_of_false (by simp) fun ⟨k, hk, hstr⟩ => hnone k hk hstr, fun k hk hstr => absurd hstr (hnone k hk), ?_, hp⟩
    rw [userBytes, List.length_map, List.length_range]
    exact hm.le

theorem copyinstr_exact_empty : ∃ s : Sys, IsStr s KERNBASE 0 0 ∧ (copyinstr s KERNBASE 0 1).1 = true ∧
    (copyinstr s KERNBASE 0 1).2.1 = userBytes s KERNBASE 0 1 := by
  obtain ⟨s, new, -, hm⟩ :=
    blank_maps (KERNBASE + 3 * PGSIZE) RWU (by decide) (by decide) (by decide) (by decide +kernel)
  have ht0 := hm.first rfl (by decide)
  have hstr : IsStr s KERNBASE 0 0 := by
    refine ⟨fun j hj => ?_, ?_, fun j hj => absurd hj (Nat.not_lt_zero j)⟩
    · obtain rfl : j = 0 := Nat.le_zero.mp hj
      exact ⟨by decide, _, ht0, by decide, by decide⟩
    · rw [phys, frame_eq ht0, hm.grown.mem _ fun q hq hin => ?_]
      · rfl
      · have hle := blank_tables hm.grown hq
        unfold InPage PGSIZE at *
        omega
  obtain ⟨h1, h2, -, -⟩ := copyinstr_exact s KERNBASE 0 1
  exact ⟨s, hstr, h1.mpr ⟨0, Nat.one_pos, hstr⟩, h2 0 Nat.one_pos hstr⟩

end Vm
end Xv6
