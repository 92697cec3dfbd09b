/-
# Chains of descriptors

Each call of `virtio_disk_rw` has three descriptors of its own from
`alloc3_desc` on, which are not free, and once it has formatted them they are
a chain for its buffer. Descriptors are handed out only if they are free, and
`free_chain` follows the chain, so what one call does leaves the chains of the
others alone, and `free_desc` never finds a free descriptor.

Key definitions: `Virtio.Chains`.
Key theorems: `Virtio.alloc3Desc_cases`, `Virtio.freeChain_ok`, `Virtio.Chains.take`,
`Virtio.Chains.format`, `Virtio.Chains.give`.
-/
import Mathlib.Data.List.Perm.Subperm
import Mathlib.Data.List.Nodup
import Xv6.Virtio

namespace Xv6
namespace Virtio

/-! ### Chains -/

def Idx.Has (x : Idx) (i : ℕ) : Prop := i = x.i0 ∨ i = x.i1 ∨ i = x.i2

/-- The descriptors a call has. -/
def Pc.idx : Pc → Option Idx
  | .format x | .ring x | .bump x | .wait x | .waitSleep x => some x
  | _ => none

/-- The descriptors, once they are formatted. -/
def Pc.formatted : Pc → Option Idx
  | .ring x | .bump x | .wait x | .waitSleep x => some x
  | _ => none

/-- The request has been published. -/
def Pc.sent : Pc → Bool
  | .wait _ | .waitSleep _ => true
  | _ => false

/-- The request is formatted and not yet published. -/
def Pc.unsent : Pc → Bool
  | .ring _ | .bump _ => true
  | _ => false

/-- The call is in a section with the lock. -/
def Pc.locked : Pc → Bool
  | .alloc | .format _ | .ring _ | .bump _ | .wait _ => true
  | _ => false

/-- Three different descriptors that are not free. -/
structure Owned (free : ℕ → Bool) (x : Idx) : Prop where
  lt : ∀ i, x.Has i → i < NUM
  used : ∀ i, x.Has i → free i = false
  ne01 : x.i0 ≠ x.i1
  ne02 : x.i0 ≠ x.i2
  ne12 : x.i1 ≠ x.i2

/-- The descriptors are a chain for the request of buffer `b`. -/
structure Formatted (s : Sys) (b : ℕ) (x : Idx) : Prop where
  d0 : s.desc x.i0 = ⟨.ops x.i0, 16, true, false, x.i1⟩
  d1 : s.desc x.i1 = ⟨.data b, 1024, true, !(s.req b).out, x.i2⟩
  d2 : s.desc x.i2 = ⟨.status x.i0, 1, false, true, 0⟩
  info : (s.info x.i0).b = some b
  op : s.ops x.i0 = s.req b

structure Chains (s : Sys) : Prop where
  own : ∀ b x, (s.pc b).idx = some x → Owned s.free x
  apart : ∀ b b' x x', b ≠ b' → (s.pc b).idx = some x → (s.pc b').idx = some x' → ∀ i, x.Has i → ¬ x'.Has i
  chain : ∀ b x, (s.pc b).formatted = some x → Formatted s b x
  holder : ∀ b, (s.pc b).locked = true → s.lock = some (.rw b)
  cell : ∀ b x, s.pc b = .bump x → s.avail.ring (s.avail.idx.toNat % NUM) = x.i0
  flag : ∀ b, (s.pc b).unsent = true → s.disk b = true

/-- The head of the chain of a call. -/
def Sys.head (s : Sys) (b : ℕ) : ℕ :=
  match (s.pc b).idx with
  | some x => x.i0
  | none => 0

variable {s s' : Sys} {b : ℕ} {x : Idx} {pc : Pc}

/-! ### The places of a call -/

theorem Pc.idx_of_formatted (h : pc.formatted = some x) : pc.idx = some x := by
  cases pc <;> simp_all [Pc.formatted, Pc.idx]

theorem Pc.formatted_of_sent (h : pc.sent = true) : ∃ x, pc.formatted = some x ∧ pc.idx = some x := by
  cases pc <;> simp_all [Pc.formatted, Pc.idx, Pc.sent]

theorem head_of_idx (h : (s.pc b).idx = some x) : s.head b = x.i0 := by
  simp [Sys.head, h]

/-- A call moves on with the lock it has and the descriptors it has, if any. -/
theorem Chains.setPc (h : Chains s) (hidx : ∀ x, pc.idx = some x → (s.pc b).idx = some x)
    (hform : ∀ x, pc.formatted = some x → (s.pc b).formatted = some x)
    (hlock : pc.locked = true → s.lock = some (.rw b))
    (hcell : ∀ x, pc = .bump x → s.avail.ring (s.avail.idx.toNat % NUM) = x.i0)
    (hflag : pc.unsent = true → s.disk b = true) : Chains (s.setPc b pc) := by
  have hpc : ∀ {β : Type} (f : Pc → Option β) (hf : ∀ y, f pc = some y → f (s.pc b) = some y) (u : ℕ) (y : β),
      f ((s.setPc b pc).pc u) = some y → f (s.pc u) = some y := by
    intro β f hf u y hu
    by_cases hub : u = b
    · subst hub
      simp only [Sys.setPc, Function.update_self] at hu
      exact hf y hu
    · simpa only [Sys.setPc, Function.update_of_ne hub] using hu
  refine ⟨fun u y hu => h.own u y (hpc _ hidx u y hu), fun u v y z huv hu hv => ?_,
    fun u y hu => ?_, fun u hu => ?_, fun u y hu => ?_, fun u hu => ?_⟩
  · exact h.apart u v y z huv (hpc _ hidx u y hu) (hpc _ hidx v z hv)
  · have hf := h.chain u y (hpc _ hform u y hu)
    exact ⟨hf.d0, hf.d1, hf.d2, hf.info, hf.op⟩
  · by_cases hub : u = b
    · subst hub
      simp only [Sys.setPc, Function.update_self] at hu
      exact hlock hu
    · simp only [Sys.setPc, Function.update_of_ne hub] at hu
      exact h.holder u hu
  · by_cases hub : u = b
    · subst hub
      simp only [Sys.setPc, Function.update_self] at hu
      exact hcell y hu
    · simp only [Sys.setPc, Function.update_of_ne hub] at hu
      exact h.cell u y hu
  · by_cases hub : u = b
    · subst hub
      simp only [Sys.setPc, Function.update_self] at hu
      exact hflag hu
    · simp only [Sys.setPc, Function.update_of_ne hub] at hu
      exact h.flag u hu

/-- The lock changes hands when no call is in a section with it. -/
theorem Chains.setLock (h : Chains s) (l : Option Holder) (hl : ∀ b, (s.pc b).locked = false) :
    Chains { s with lock := l } := by
  refine ⟨h.own, h.apart, fun u y hu => ?_, fun u hu => ?_, h.cell, h.flag⟩
  · have hf := h.chain u y hu
    exact ⟨hf.d0, hf.d1, hf.d2, hf.info, hf.op⟩
  · have := hl u
    simp_all

theorem Chains.unlocked (h : Chains s) (hl : ∀ b, s.lock ≠ some (.rw b)) (b : ℕ) : (s.pc b).locked = false := by
  by_contra hb
  exact hl b (h.holder b (by simpa using hb))

/-- The call that had the lock is in no section with it any more. -/
theorem Chains.released (h : Chains s) (hl : s.lock = some (.rw b)) (hb : (s.pc b).locked = false) (u : ℕ) :
    (s.pc u).locked = false := by
  by_contra hu
  have := h.holder u (by simpa using hu)
  rw [hl] at this
  obtain rfl : b = u := by simpa using this
  exact hu hb

/-! ### Descriptors -/

theorem allocDesc_some {i : ℕ} (he : allocDesc s = some (i, s')) :
    i < NUM ∧ s.free i = true ∧ s' = { s with free := Function.update s.free i false } := by
  unfold allocDesc at he
  split at he
  · next j hj =>
    obtain ⟨rfl, rfl⟩ := Prod.mk.inj (Option.some.inj he)
    exact ⟨List.mem_range.mp (List.mem_of_find?_eq_some hj), List.find?_some hj, rfl⟩
  · cases he

/-- A descriptor that is not free is freed; of the rest, only sleepers notice. -/
theorem freeDesc_ok {i : ℕ} (hi : i < NUM) (hf : s.free i = false) :
    ∃ a, freeDesc s i = .ok { s with desc := Function.update s.desc i .zero
                                     free := Function.update s.free i true, asleep := a } := by
  unfold freeDesc
  rw [if_neg (by omega), if_neg (by simp [hf])]
  exact ⟨_, rfl⟩

/-- `alloc3_desc` takes three free descriptors, or leaves all as they were. -/
theorem alloc3Desc_cases (s : Sys) :
    (∃ x f, (∀ i, x.Has i → s.free i = true) ∧ Owned f x ∧ (∀ i, s.free i = false → f i = false) ∧
      alloc3Desc s = .ok ({ s with free := f }, some x)) ∨
    ∃ d a, (∀ i, s.free i = false → d i = s.desc i) ∧
      alloc3Desc s = .ok ({ s with desc := d, asleep := a }, none) := by
  unfold alloc3Desc
  rcases h0 : allocDesc s with _ | ⟨i0, s0⟩
  · exact .inr ⟨s.desc, s.asleep, fun _ _ => rfl, rfl⟩
  · obtain ⟨lt0, f0, rfl⟩ := allocDesc_some h0
    simp only
    rcases h1 : allocDesc { s with free := Function.update s.free i0 false } with _ | ⟨i1, s1⟩
    · obtain ⟨a, ha⟩ := freeDesc_ok (s := { s with free := Function.update s.free i0 false }) lt0 (by simp)
      refine .inr ⟨Function.update s.desc i0 .zero, a, fun i hi => ?_, ?_⟩
      · rw [Function.update_of_ne]
        rintro rfl
        simp [f0] at hi
      · simp only [ha, bind, Except.bind, Function.update_idem]
        rw [← f0, Function.update_eq_self]
    · obtain ⟨lt1, f1, rfl⟩ := allocDesc_some h1
      have hne01 : i0 ≠ i1 := by
        rintro rfl
        simp at f1
      have f1 : s.free i1 = true := by simpa [Ne.symm hne01] using f1
      simp only
      rcases h2 : allocDesc { s with free := Function.update (Function.update s.free i0 false) i1 false } with
        _ | ⟨i2, s2⟩
      · obtain ⟨a, ha⟩ := freeDesc_ok
          (s := { s with free := Function.update (Function.update s.free i0 false) i1 false }) lt0 (by simp [hne01])
        obtain ⟨a', ha'⟩ := freeDesc_ok
          (s := { s with
            free := Function.update (Function.update (Function.update s.free i0 false) i1 false) i0 true
            desc := Function.update s.desc i0 .zero, asleep := a }) lt1 (by simp [Ne.symm hne01])
        refine .inr ⟨Function.update (Function.update s.desc i0 .zero) i1 .zero, a', fun i hi => ?_, ?_⟩
        · have hi0 : i ≠ i0 := by
            rintro rfl
            simp [f0] at hi
          have hi1 : i ≠ i1 := by
            rintro rfl
            simp [f1] at hi
          rw [Function.update_of_ne hi1, Function.update_of_ne hi0]
        · have hback : Function.update (Function.update (Function.update (Function.update s.free i0 false) i1 false)
              i0 true) i1 true = s.free := by
            funext i
            by_cases hi1 : i = i1
            · simp [hi1, f1]
            · by_cases hi0 : i = i0
              · simp [hi0, hne01, f0]
              · simp [hi0, hi1]
          simp only [ha, ha', bind, Except.bind, hback]
      · obtain ⟨lt2, f2, rfl⟩ := allocDesc_some h2
        have hne02 : i0 ≠ i2 := by
          rintro rfl
          simp [hne01] at f2
        have hne12 : i1 ≠ i2 := by
          rintro rfl
          simp at f2
        have f2 : s.free i2 = true := by simpa [Ne.symm hne02, Ne.symm hne12] using f2
        refine .inl ⟨⟨i0, i1, i2⟩, _, fun i hi => ?_, ⟨fun i hi => ?_, fun i hi => ?_, hne01, hne02, hne12⟩,
          fun i hi => ?_, rfl⟩
        · rcases hi with rfl | rfl | rfl <;> assumption
        · rcases hi with rfl | rfl | rfl <;> assumption
        · rcases hi with rfl | rfl | rfl <;> simp [hne01, hne02, hne12]
        · by_cases hi2 : i = i2
          · simp [hi2]
          · by_cases hi1 : i = i1
            · simp [hi1, hne12]
            · by_cases hi0 : i = i0
              · simp [hi0, hne01, hne02]
              · simp [hi0, hi1, hi2, hi]

/-- `free_chain` frees the three descriptors of a chain. -/
theorem freeChain_ok (ho : Owned s.free x) (hd0 : (s.desc x.i0).hasNext = true ∧ (s.desc x.i0).next = x.i1)
    (hd1 : (s.desc x.i1).hasNext = true ∧ (s.desc x.i1).next = x.i2) (hd2 : (s.desc x.i2).hasNext = false) :
    ∃ d f a, (∀ i, ¬ x.Has i → d i = s.desc i ∧ f i = s.free i) ∧
      freeChain (NUM + 1) s x.i0 = .ok { s with desc := d, free := f, asleep := a } := by
  obtain ⟨a0, h0⟩ := freeDesc_ok (ho.lt x.i0 (.inl rfl)) (ho.used x.i0 (.inl rfl))
  obtain ⟨a1, h1⟩ := freeDesc_ok
    (s := { s with desc := Function.update s.desc x.i0 .zero, free := Function.update s.free x.i0 true, asleep := a0 })
    (ho.lt x.i1 (.inr (.inl rfl))) (by simp [Ne.symm ho.ne01, ho.used x.i1 (.inr (.inl rfl))])
  obtain ⟨a2, h2⟩ := freeDesc_ok
    (s := { s with
      desc := Function.update (Function.update s.desc x.i0 .zero) x.i1 .zero
      free := Function.update (Function.update s.free x.i0 true) x.i1 true, asleep := a1 })
    (ho.lt x.i2 (.inr (.inr rfl)))
    (by simp [Ne.symm ho.ne02, Ne.symm ho.ne12, ho.used x.i2 (.inr (.inr rfl))])
  have hd1' : Function.update s.desc x.i0 Desc.zero x.i1 = s.desc x.i1 := Function.update_of_ne (Ne.symm ho.ne01) ..
  have hd2' : Function.update (Function.update s.desc x.i0 Desc.zero) x.i1 Desc.zero x.i2 = s.desc x.i2 := by
    rw [Function.update_of_ne (Ne.symm ho.ne12), Function.update_of_ne (Ne.symm ho.ne02)]
  refine ⟨Function.update (Function.update (Function.update s.desc x.i0 .zero) x.i1 .zero) x.i2 .zero,
    Function.update (Function.update (Function.update s.free x.i0 true) x.i1 true) x.i2 true, a2, fun i hi => ?_, ?_⟩
  · have hne0 : i ≠ x.i0 := fun h => hi (.inl h)
    have hne1 : i ≠ x.i1 := fun h => hi (.inr (.inl h))
    have hne2 : i ≠ x.i2 := fun h => hi (.inr (.inr h))
    simp [hne0, hne1, hne2]
  · simp only [NUM, freeChain, h0, hd0, h1, hd1', hd1, h2, hd2', hd2, bind, Except.bind]
    rfl

/-! ### Chains come and go -/

theorem Idx.mk_has (x : Idx) : x.Has x.i0 ∧ x.Has x.i1 ∧ x.Has x.i2 := ⟨.inl rfl, .inr (.inl rfl), .inr (.inr rfl)⟩

/-- Descriptors that no call has may be overwritten. -/
theorem Chains.scrub (h : Chains s) {d : ℕ → Desc} (a : ℕ → Bool) (hd : ∀ i, s.free i = false → d i = s.desc i) :
    Chains { s with desc := d, asleep := a } := by
  refine ⟨h.own, h.apart, fun u y hu => ?_, h.holder, h.cell, h.flag⟩
  have hf := h.chain u y hu
  have ho := h.own u y (Pc.idx_of_formatted hu)
  obtain ⟨h0, h1, h2⟩ := y.mk_has
  exact ⟨(hd _ (ho.used _ h0)).trans hf.d0, (hd _ (ho.used _ h1)).trans hf.d1, (hd _ (ho.used _ h2)).trans hf.d2,
    hf.info, hf.op⟩

/-- A call gets descriptors that were free. -/
theorem Chains.take (h : Chains s) {f : ℕ → Bool} (hl : s.lock = some (.rw b)) (hfree : ∀ i, x.Has i → s.free i = true)
    (ho : Owned f x) (hf : ∀ i, s.free i = false → f i = false) :
    Chains ({ s with free := f }.setPc b (.format x)) := by
  have hpc : ∀ u y, (({ s with free := f }.setPc b (.format x)).pc u).idx = some y →
      (u = b ∧ y = x) ∨ (u ≠ b ∧ (s.pc u).idx = some y) := by
    intro u y hu
    by_cases hub : u = b
    · subst hub
      simp only [Sys.setPc, Function.update_self, Pc.idx, Option.some.injEq] at hu
      exact .inl ⟨rfl, hu.symm⟩
    · simp only [Sys.setPc, Function.update_of_ne hub] at hu
      exact .inr ⟨hub, hu⟩
  have hnew : ∀ u y, (s.pc u).idx = some y → ∀ i, y.Has i → ¬ x.Has i := by
    intro u y hu i hi hx
    have := (h.own u y hu).used i hi
    simp [hfree i hx] at this
  refine ⟨fun u y hu => ?_, fun u v y z huv hu hv i hi hz => ?_, fun u y hu => ?_, fun u hu => ?_, fun u y hu => ?_,
    fun u hu => ?_⟩
  · rcases hpc u y hu with ⟨-, rfl⟩ | ⟨-, hu⟩
    · exact ho
    · have := h.own u y hu
      exact ⟨this.lt, fun i hi => hf i (this.used i hi), this.ne01, this.ne02, this.ne12⟩
  · rcases hpc u y hu with ⟨rfl, rfl⟩ | ⟨-, hu'⟩
    · rcases hpc v z hv with ⟨rfl, -⟩ | ⟨-, hv'⟩
      · exact huv rfl
      · exact hnew v z hv' i hz hi
    · rcases hpc v z hv with ⟨rfl, rfl⟩ | ⟨-, hv'⟩
      · exact hnew u y hu' i hi hz
      · exact h.apart u v y z huv hu' hv' i hi hz
  · have hub : u ≠ b := by
      rintro rfl
      simp [Sys.setPc, Pc.formatted] at hu
    simp only [Sys.setPc, Function.update_of_ne hub] at hu
    have hf := h.chain u y hu
    exact ⟨hf.d0, hf.d1, hf.d2, hf.info, hf.op⟩
  · by_cases hub : u = b
    · rw [hub]
      exact hl
    · simp only [Sys.setPc, Function.update_of_ne hub] at hu
      exact h.holder u hu
  · have hub : u ≠ b := by
      rintro rfl
      simp [Sys.setPc] at hu
    simp only [Sys.setPc, Function.update_of_ne hub] at hu
    exact h.cell u y hu
  · have hub : u ≠ b := by
      rintro rfl
      simp [Sys.setPc, Pc.unsent] at hu
    simp only [Sys.setPc, Function.update_of_ne hub] at hu
    exact h.flag u hu

/-- A call formats its descriptors. -/
theorem Chains.format (h : Chains s) (hpc : s.pc b = .format x) : Chains ((format s b x).setPc b (.ring x)) := by
  have hidx : (s.pc b).idx = some x := by simp [hpc, Pc.idx]
  have ho := h.own b x hidx
  have hpcu : ∀ u, u ≠ b → ((Virtio.format s b x).setPc b (.ring x)).pc u = s.pc u := fun u hub =>
    Function.update_of_ne hub ..
  have hpcb : ((Virtio.format s b x).setPc b (.ring x)).pc b = .ring x := Function.update_self ..
  have hidx' : ∀ u, (((Virtio.format s b x).setPc b (.ring x)).pc u).idx = (s.pc u).idx := by
    intro u
    by_cases hub : u = b
    · rw [hub, hpcb, hpc]
      rfl
    · rw [hpcu u hub]
  refine ⟨fun u y hu => ?_, fun u v y z huv hu hv => ?_, fun u y hu => ?_, fun u hu => ?_, fun u y hu => ?_,
    fun u hu => ?_⟩
  · rw [hidx'] at hu
    exact h.own u y hu
  · rw [hidx'] at hu hv
    exact h.apart u v y z huv hu hv
  · by_cases hub : u = b
    · subst hub
      rw [hpcb] at hu
      obtain rfl : x = y := by simpa [Pc.formatted] using hu
      constructor <;> simp [Virtio.format, Sys.setPc, ho.ne01, ho.ne02, ho.ne12]
    · rw [hpcu u hub] at hu
      have hf := h.chain u y hu
      have hap := h.apart u b y x hub (Pc.idx_of_formatted hu) hidx
      have hne : ∀ i, y.Has i → i ≠ x.i0 ∧ i ≠ x.i1 ∧ i ≠ x.i2 := fun i hi =>
        ⟨fun he => hap i hi (.inl he), fun he => hap i hi (.inr (.inl he)), fun he => hap i hi (.inr (.inr he))⟩
      obtain ⟨h0, h1, h2⟩ := y.mk_has
      refine ⟨?_, ?_, ?_, ?_, ?_⟩
      · simpa [Virtio.format, Sys.setPc, hne _ h0] using hf.d0
      · simpa [Virtio.format, Sys.setPc, hne _ h1] using hf.d1
      · simpa [Virtio.format, Sys.setPc, hne _ h2] using hf.d2
      · simpa [Virtio.format, Sys.setPc, hne _ h0] using hf.info
      · simpa [Virtio.format, Sys.setPc, hne _ h0] using hf.op
  · by_cases hub : u = b
    · subst hub
      exact h.holder u (by simp [hpc, Pc.locked])
    · rw [hpcu u hub] at hu
      exact h.holder u hu
  · have hub : u ≠ b := by
      rintro rfl
      simp [hpcb] at hu
    rw [hpcu u hub] at hu
    exact h.cell u y hu
  · by_cases hub : u = b
    · rw [hub]
      simp [Virtio.format, Sys.setPc]
    · rw [hpcu u hub] at hu
      simpa [Virtio.format, Sys.setPc, hub] using h.flag u hu

/-- A call gives its descriptors back. -/
theorem Chains.give (h : Chains s) (hidx : (s.pc b).idx = some x) (hpc : s'.pc = Function.update s.pc b .idle)
    (hdesc : ∀ i, ¬ x.Has i → s'.desc i = s.desc i ∧ s'.free i = s.free i)
    (hinfo : ∀ i, i ≠ x.i0 → s'.info i = s.info i) (hops : s'.ops = s.ops) (hreq : s'.req = s.req)
    (hlock : s'.lock = s.lock) (havail : s'.avail = s.avail) (hdisk : s'.disk = s.disk) : Chains s' := by
  have hpcb : s'.pc b = .idle := by simp [hpc]
  have hpcu : ∀ u, u ≠ b → s'.pc u = s.pc u := fun u hub => by simp [hpc, hub]
  have hidx' : ∀ u y, (s'.pc u).idx = some y → u ≠ b ∧ (s.pc u).idx = some y := by
    intro u y hu
    have hub : u ≠ b := by
      rintro rfl
      simp [hpcb, Pc.idx] at hu
    rw [hpcu u hub] at hu
    exact ⟨hub, hu⟩
  refine ⟨fun u y hu => ?_, fun u v y z huv hu hv => ?_, fun u y hu => ?_, fun u hu => ?_, fun u y hu => ?_,
    fun u hu => ?_⟩
  · obtain ⟨hub, hu⟩ := hidx' u y hu
    have ho := h.own u y hu
    refine ⟨ho.lt, fun i hi => ?_, ho.ne01, ho.ne02, ho.ne12⟩
    rw [(hdesc i (h.apart u b y x hub hu hidx i hi)).2]
    exact ho.used i hi
  · exact h.apart u v y z huv (hidx' u y hu).2 (hidx' v z hv).2
  · obtain ⟨hub, hu'⟩ := hidx' u y (Pc.idx_of_formatted hu)
    rw [hpcu u hub] at hu
    have hf := h.chain u y hu
    have hap := h.apart u b y x hub hu' hidx
    obtain ⟨h0, h1, h2⟩ := y.mk_has
    have hne : y.i0 ≠ x.i0 := fun he => hap _ h0 (.inl he)
    refine ⟨?_, ?_, ?_, ?_, ?_⟩
    · rw [(hdesc _ (hap _ h0)).1, hf.d0]
    · rw [(hdesc _ (hap _ h1)).1, hf.d1, hreq]
    · rw [(hdesc _ (hap _ h2)).1, hf.d2]
    · rw [hinfo _ hne, hf.info]
    · rw [hops, hreq, hf.op]
  · have hub : u ≠ b := by
      rintro rfl
      simp [hpcb, Pc.locked] at hu
    rw [hpcu u hub] at hu
    rw [hlock]
    exact h.holder u hu
  · have hub : u ≠ b := by
      rintro rfl
      simp [hpcb] at hu
    rw [hpcu u hub] at hu
    rw [havail]
    exact h.cell u y hu
  · have hub : u ≠ b := by
      rintro rfl
      simp [hpcb, Pc.unsent] at hu
    rw [hpcu u hub] at hu
    rw [hdisk]
    exact h.flag u hu

/-- Each request that is out has the head of its chain to itself. -/
theorem Chains.length_le (h : Chains s) {L : List ℕ} (hn : L.Nodup) (hL : ∀ u ∈ L, (s.pc u).idx ≠ none) :
    L.length ≤ NUM := by
  have hinj : ∀ u ∈ L, ∀ v ∈ L, s.head u = s.head v → u = v := by
    intro u hu v hv he
    by_contra huv
    obtain ⟨y, hy⟩ := Option.ne_none_iff_exists'.mp (hL u hu)
    obtain ⟨z, hz⟩ := Option.ne_none_iff_exists'.mp (hL v hv)
    rw [head_of_idx hy, head_of_idx hz] at he
    exact h.apart u v y z huv hy hz y.i0 (.inl rfl) (.inl he)
  have hsub : (L.map s.head) ⊆ List.range NUM := by
    intro i hi
    obtain ⟨u, hu, rfl⟩ := List.mem_map.mp hi
    obtain ⟨y, hy⟩ := Option.ne_none_iff_exists'.mp (hL u hu)
    rw [head_of_idx hy, List.mem_range]
    exact (h.own u y hy).lt _ (.inl rfl)
  have hnodup : (L.map s.head).Nodup := hn.map_on hinj
  have := (hnodup.subperm hsub).length_le
  simpa using this

end Virtio
end Xv6
