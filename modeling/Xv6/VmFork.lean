/-
# fork

The memory of `fork` of `kernel/proc.c`: `allocproc`, `freeproc` and the copy of
the parent's memory and trapframe. What `fork` does with the open files is in
`File`, and the process tree in `Proc`.

The child is made of free pages only, so the parent and every other page table
are left alone (`uvmcopy_spec`); when a page is missing, everything that was
taken is given back, as it is by `freeproc` of the child (`fork_freeproc`).

Key definitions: `Vm.Slot`, `Vm.Kern`, `Vm.allocproc`, `Vm.freeproc`, `Vm.fork`, `Vm.Source`, `Vm.CopyOf`.
-/
import Xv6.VmProc

namespace Xv6
namespace Vm

def NPROC : ℕ := 64

inductive PState
  | unused
  | used
  | sleeping
  | runnable
  | running
  | zombie
deriving DecidableEq

/-- An entry of the process table; 0 is a null pointer. -/
structure Slot where
  state : PState
  pid : ℤ
  pagetable : ℕ
  trapframe : ℕ
  sz : ℕ
  parent : Option ℕ
deriving DecidableEq

structure Kern where
  sys : Sys
  proc : ℕ → Slot
  nextpid : ℤ
  /-- The physical page of the trampoline. -/
  trampoline : ℕ

def Kern.set (K : Kern) (i : ℕ) (p : Slot) : Kern := { K with proc := Function.update K.proc i p }

/-- The entry after `freeproc`. -/
def noProc : Slot := ⟨.unused, 0, 0, 0, 0, none⟩

def freeproc (i : ℕ) (K : Kern) : Except Stop Kern := do
  let p := K.proc i
  let s ← if p.trapframe ≠ 0 then kfree p.trapframe K.sys else .ok K.sys
  let s ← if p.pagetable ≠ 0 then procFreepagetable p.pagetable p.sz s else .ok s
  .ok ({ K with sys := s }.set i noProc)

/-- The entry, or none if it returns 0. -/
def allocproc (K : Kern) : Except Stop (Option ℕ × Kern) :=
  match (List.range NPROC).find? (fun i => (K.proc i).state = .unused) with
  | none => .ok (none, K)
  | some i =>
    let p := { K.proc i with pid := K.nextpid, state := .used }
    let K := { K with nextpid := K.nextpid + 1 }
    match kalloc K.sys with
    | (none, s) => do
      let K ← freeproc i ({ K with sys := s }.set i { p with trapframe := 0 })
      .ok (none, K)
    | (some tf, s) => do
      let (pt, s) ← procPagetable K.trampoline tf s
      match pt with
      | none =>
        let K ← freeproc i ({ K with sys := s }.set i { p with trapframe := tf, pagetable := 0 })
        .ok (none, K)
      | some pt => .ok (some i, { K with sys := s }.set i { p with trapframe := tf, pagetable := pt })

/-- `sizeof(struct trapframe)` and the offset of `a0`. -/
def tfSize : ℕ := 288
def tfA0 : ℕ := 112

/-- `*(np->trapframe) = *(p->trapframe); np->trapframe->a0 = 0`. -/
def copyTrapframe (src dst : ℕ) (s : Sys) : Sys :=
  ({ s with mem := memmove s.mem dst (fun x => s.mem (src + x)) tfSize }).st (dst + tfA0) 0

/-- The child's pid, or none for -1. -/
def fork (i : ℕ) (K : Kern) : Except Stop (Option ℤ × Kern) := do
  let (r, K) ← allocproc K
  match r with
  | none => .ok (none, K)
  | some j =>
    let p := K.proc i
    let np := K.proc j
    let (r, s) ← uvmcopy p.pagetable np.pagetable p.sz K.sys
    if r = false then
      let K ← freeproc j { K with sys := s }
      .ok (none, K)
    else
      let s := copyTrapframe p.trapframe np.trapframe s
      .ok (some np.pid, { K with sys := s }.set j { np with sz := p.sz, parent := some i, state := .runnable })

/-! ### uvmcopy -/

variable {s t u : Sys} {old new root p n m k tf tramp : ℕ} {P : List ℕ}

/-- A page table with `n` user pages, none of whose pages is in `P`. -/
structure Source (s : Sys) (old n : ℕ) (P : List ℕ) : Prop where
  tree : Tree s old
  leaf : ∀ k < n, ∃ e, trans s old (k * PGSIZE) = some e ∧ e.2 ≠ PTE_V
  tables : ∀ q ∈ tables s old, q ∉ P
  frames : ∀ k < n, frame s old (k * PGSIZE) ∉ P
  pages : ∀ p ∈ P, p % PGSIZE = 0

namespace Source

variable (h : Source s old n P) (hm : ∀ x, (∀ p ∈ P, ¬ InPage p x) → t.mem x = s.mem x)

include h hm

/-- It does not change with the pages of `P`. -/
theorem same : ∀ q ∈ Vm.tables s old, ∀ x, InPage q x → t.mem x = s.mem x := by
  intro q hq x hx
  refine hm x fun p hp hpx => h.tables q hq ?_
  obtain ⟨σ, hσ⟩ := mem_tables.mp hq
  rwa [← InPage.unique (h.pages p hp) (h.tree.reach_aligned hσ) hpx hx]

theorem bytes (hk : k < n) {x : ℕ} (hx : InPage (frame s old (k * PGSIZE)) x) : t.mem x = s.mem x := by
  refine hm x fun p hp hpx => h.frames k hk ?_
  rwa [← InPage.unique (h.pages p hp) (frame_aligned ..) hpx hx]

end Source

/-- Page `k` of `new` has the flags and the bytes of page `k` of `old`. -/
def CopyOf (s : Sys) (old : ℕ) (t : Sys) (new k : ℕ) : Prop :=
  ∃ q q' fl, trans s old (k * PGSIZE) = some (q, fl) ∧ trans t new (k * PGSIZE) = some (q', fl) ∧
    ∀ o < PGSIZE, t.mem (q' + o) = s.mem (q + o)

/-- The two ends of `uvmcopy`. -/
inductive Copied (s : Sys) (old new n : ℕ) : Bool → Sys → Prop
  | yes (t : Sys) (space : Space t new n) (resize : Resize new s 0 t n) (copy : ∀ k < n, CopyOf s old t new k)
      (paid : t.calls + t.free.length = s.calls + s.free.length) : Copied s old new n true t
  | no (t : Sys) (space : Space t new 0) (resize : Resize new s 0 t 0) : Copied s old new n false t

theorem or_V_of_valid {pte : ℕ} (h : has pte PTE_V = true) : PTE_FLAGS pte ||| PTE_V = PTE_FLAGS pte := by
  have hb : PTE_FLAGS pte % 2 = 1 := by
    rw [has_V, decide_eq_true_eq] at h
    rw [PTE_FLAGS_eq]
    omega
  refine Nat.eq_of_testBit_eq fun i => ?_
  rw [Nat.testBit_or]
  cases i with
  | zero => simp [Nat.testBit_zero, hb]
  | succ i => simp [PTE_V, Nat.testBit_succ]

/-- The pages that were copied are taken back. -/
theorem Space.uncopy (h : Space t new m) (hr : Resize new s 0 t m) :
    ∃ u, uvmunmap new 0 (m * PGSIZE / PGSIZE) true t = .ok u ∧ Copied s old new n false u := by
  obtain ⟨u, he, hspace, hres⟩ := h.pop (Nat.zero_le m)
  refine ⟨u, ?_, .no u hspace (hr.trans hres h (.inl (Nat.zero_le m)))⟩
  rw [Nat.mul_div_cancel _ (by decide)]
  simpa using he

theorem CopyOf.mono {v : Sys} (h : CopyOf s old t new k) (ht : Space t new m) (hr : Resize new t m v (m + 1)) (hk : k < m) :
    CopyOf s old v new k := by
  obtain ⟨q, q', fl, h1, h2, h3⟩ := h
  have hpos : 0 < PGSIZE := by decide
  refine ⟨q, q', fl, h1, ?_, fun o ho => ?_⟩
  · rw [hr.user _ (Nat.mul_lt_mul_of_pos_right hk hpos) (Nat.mul_lt_mul_of_pos_right (by omega) hpos), h2]
  · rw [hr.bytes ht hk (by omega), h3 o ho]
    rw [frame_eq h2]
    exact ⟨Nat.le_add_right _ _, by omega⟩

theorem copyLoop_spec {sz : ℕ} (hsrc : Source s old (pages sz) (pool s new 0)) (hmax : sz ≤ MAXVA) (fuel : ℕ) :
    ∀ m t, sz ≤ (m + fuel) * PGSIZE → m ≤ pages sz → Space t new m → Resize new s 0 t m →
    (∀ k < m, CopyOf s old t new k) → t.calls + t.free.length = s.calls + s.free.length →
    ∃ r u, copyLoop old new sz fuel (m * PGSIZE) t = .ok (r, u) ∧ Copied s old new (pages sz) r u := by
  induction fuel with
  | zero =>
    intro m t hfuel hm h hr hc hp
    obtain rfl : m = pages sz := le_antisymm hm (pages_le_iff.mpr hfuel)
    exact ⟨true, t, rfl, .yes t h hr hc hp⟩
  | succ fuel ih =>
    intro m t hfuel hm h hr hc hp
    by_cases hlt : m * PGSIZE < sz
    · have hmem := hr.kept.mem
      have hmlt : m < pages sz := by
        by_contra hge
        have := pages_le_iff.mp (show pages sz ≤ m by omega)
        omega
      -- the parent's entry
      obtain ⟨e, he, hleaf⟩ := hsrc.leaf m hmlt
      have het : trans t old (m * PGSIZE) = some e := (trans_congr (hsrc.same hmem) _).trans he
      obtain ⟨a, hl, hd⟩ : ∃ a, lookup t old (m * PGSIZE) = some a ∧ decode (t.ld a) = some e :=
        Option.bind_eq_some_iff.mp het
      obtain ⟨hv, rfl⟩ := decode_eq_some.mp hd
      have hor := or_V_of_valid hv
      have hfl : PTE_FLAGS (t.ld a) < 1024 := by
        rw [PTE_FLAGS_eq]
        omega
      rw [copyLoop]
      simp only [if_pos hlt, walk_false (show m * PGSIZE < MAXVA by omega), hl, hv, ok_bind, Bool.true_eq_false, if_false]
      rcases kalloc_cases t with ⟨z, l, hf, hk⟩ | hk
      · simp only [hk]
        have htk : Taken t { grab t z l with
            mem := memmove (grab t z l).mem z (fun x => (grab t z l).mem (PTE2PA (t.ld a) + x)) PGSIZE } z :=
          taken_grab hf _ fun x hx => (if_neg hx).trans (grab_mem l hx)
        obtain ⟨r, u, hmap, hpush⟩ := h.push htk hfl (by rw [hor]; exact hleaf)
        simp only [hmap, ok_bind]
        cases hpush with
        | yes _ hspace hres htrans hbytes hpaid =>
          have hcopy : CopyOf s old u new m := by
            refine ⟨_, z, _, he, hor ▸ htrans, fun o ho => ?_⟩
            have hin : InPage z (z + o) := ⟨Nat.le_add_right _ _, by omega⟩
            have hsame : InPage (frame s old (m * PGSIZE)) (PTE2PA (t.ld a) + o) := by
              rw [frame_eq he]
              exact ⟨Nat.le_add_right _ _, by omega⟩
            have hz : ¬ InPage z (PTE2PA (t.ld a) + o) := by
              intro hzx
              have hzf : z ∈ t.free := by simp [hf]
              have hza := (h.table.pages z hzf).1
              have := InPage.unique hza (frame_aligned ..) hzx hsame
              exact hsrc.frames m hmlt (this ▸ hr.perm.mem_iff.mp (mem_pool_free hzf))
            rw [hbytes _ hin]
            refine (if_pos hin).trans ?_
            rw [Nat.add_sub_cancel_left, grab_mem l hz]
            exact hsrc.bytes hmem hmlt hsame
          obtain ⟨r, v, he', hend⟩ := ih (m + 1) u (by rwa [Nat.add_right_comm]) hmlt hspace
            (hr.trans hres h (.inl (Nat.zero_le m))) (fun k hk => by
              rcases Nat.lt_or_ge k m with hkm | hkm
              · exact (hc k hkm).mono h hres hkm
              · obtain rfl : k = m := by omega
                exact hcopy) (hpaid.trans hp)
          rw [Nat.succ_mul] at he'
          exact ⟨r, v, he', hend⟩
        | no _ v hfree hspace hres =>
          obtain ⟨w, he', hend⟩ := hspace.uncopy (hr.trans hres h (.inl (Nat.zero_le m)))
          refine ⟨false, w, ?_, hend⟩
          simp only [Bool.false_eq_true, if_false, hfree, ok_bind, he']
      · simp only [hk]
        obtain ⟨hspace, hres⟩ := h.refuse
        obtain ⟨w, he', hend⟩ := hspace.uncopy (hr.trans hres h (.inl (Nat.zero_le m)))
        refine ⟨false, w, ?_, hend⟩
        simp only [he', ok_bind]
    · rw [copyLoop]
      simp only [if_neg hlt]
      obtain rfl : m = pages sz := le_antisymm hm (pages_le_iff.mpr (by omega))
      exact ⟨true, t, rfl, .yes t h hr hc hp⟩

/-- `uvmcopy` into an empty space. -/
theorem uvmcopy_spec {sz : ℕ} (h : Space s new 0) (hsrc : Source s old (pages sz) (pool s new 0)) (hmax : sz ≤ MAXVA) :
    ∃ r t, uvmcopy old new sz s = .ok (r, t) ∧ Copied s old new (pages sz) r t := by
  have hfuel : sz ≤ (0 + (sz / PGSIZE + 1)) * PGSIZE := by
    unfold PGSIZE
    omega
  obtain ⟨r, t, he, hend⟩ := copyLoop_spec hsrc hmax _ 0 s hfuel (Nat.zero_le _) h (.refl ..)
    (fun k hk => absurd hk (Nat.not_lt_zero k)) rfl
  rw [Nat.zero_mul] at he
  exact ⟨r, t, he, hend⟩

/-! ### allocproc and freeproc -/

/-- A process that can be forked: its page table is well formed beside the free pages, and its
trapframe is a page of its own. An unused entry of the process table holds no pages. -/
structure Ready (K : Kern) (i : ℕ) : Prop where
  active : (K.proc i).state ≠ .unused
  image : Image K.sys (K.proc i).pagetable (pages (K.proc i).sz) (K.proc i).trapframe K.trampoline
  trapframe : (K.proc i).trapframe % PGSIZE = 0 ∧
    (K.proc i).trapframe ∉ pool K.sys (K.proc i).pagetable (pages (K.proc i).sz)
  unused : ∀ j, (K.proc j).state = .unused →
    (K.proc j).pagetable = 0 ∧ (K.proc j).trapframe = 0 ∧ (K.proc j).sz = 0
  tramp : K.trampoline % PGSIZE = 0 ∧ K.trampoline < K.sys.kend
  kend : 0 < K.sys.kend ∧ K.sys.kend ≤ PHYSTOP

theorem Ready.alloc {K : Kern} {i : ℕ} (h : Ready K i) : Alloc K.sys :=
  ⟨h.image.table.nodup, h.image.table.pages, h.kend.1⟩

theorem Ready.tramp_lt {K : Kern} {i : ℕ} (h : Ready K i) : K.trampoline < 2 ^ 56 :=
  lt_trans (lt_of_lt_of_le h.tramp.2 h.kend.2) (by decide)

/-- The free pages are as before, and nothing else changed. -/
structure Restored (s t : Sys) : Prop where
  free : t.free.Perm s.free
  mem : ∀ x, (∀ p ∈ s.free, ¬ InPage p x) → t.mem x = s.mem x

/-- Entry `j` is unused again, and the others are as before. -/
structure Undone (K K' : Kern) : Prop where
  sys : Restored K.sys K'.sys
  proc : K'.proc = K.proc ∨
    ∃ j < NPROC, (K.proc j).state = .unused ∧ K'.proc = Function.update K.proc j noProc

/-- A new process without memory in entry `j`. -/
structure Fresh (K : Kern) (j : ℕ) (K' : Kern) (tf root : ℕ) : Prop where
  slot : j < NPROC ∧ (K.proc j).state = .unused
  proc : K'.proc = Function.update K.proc j
    { K.proc j with state := .used, pid := K.nextpid, pagetable := root, trapframe := tf }
  tramp : K'.trampoline = K.trampoline
  image : Image K'.sys root 0 tf K.trampoline
  perm : (tf :: pool K'.sys root 0).Perm K.sys.free
  mem : ∀ x, (∀ p ∈ K.sys.free, ¬ InPage p x) → K'.sys.mem x = K.sys.mem x
  kend : K'.sys.kend = K.sys.kend
  paid : K'.sys.calls + K'.sys.free.length = K.sys.calls + K.sys.free.length

theorem Alloc.grab {l : List ℕ} (h : Alloc s) (hf : s.free = p :: l) : Alloc (grab s p l) := by
  have hn := h.nodup
  rw [hf] at hn
  exact ⟨hn.of_cons, fun q hq => h.pages q (by rw [hf]; exact List.mem_cons_of_mem _ hq), h.kend⟩

theorem Alloc.grab_mem {l : List ℕ} (hf : s.free = p :: l) {x : ℕ} (hx : ∀ q ∈ s.free, ¬ InPage q x) :
    (Vm.grab s p l).mem x = s.mem x := Vm.grab_mem l (hx p (by simp [hf]))

/-- `freeproc` of an entry without memory. -/
theorem freeproc_bare {K : Kern} {i : ℕ} {p : Slot} (hp : K.proc i = p) (h0 : p.pagetable = 0) (htf : p.trapframe = 0) :
    freeproc i K = .ok (K.set i noProc) := by
  rw [freeproc, hp]
  simp only [htf, h0, ne_eq, not_true_eq_false, if_false, ok_bind]

/-- `freeproc` of an entry that has only a trapframe. -/
theorem freeproc_trapframe {K : Kern} {i : ℕ} {p : Slot} (hp : K.proc i = p) (h0 : p.pagetable = 0)
    (htf : p.trapframe ≠ 0) (hok : Freeable K.sys p.trapframe) :
    freeproc i K = .ok ({ K with sys := freed K.sys p.trapframe }.set i noProc) := by
  rw [freeproc, hp]
  simp only [ne_eq, htf, not_false_eq_true, if_true, kfree_of_freeable hok, ok_bind, h0, not_true_eq_false, if_false]

theorem Kern.set_proc (K : Kern) (i : ℕ) (p : Slot) : (K.set i p).proc i = p := Function.update_self ..

theorem allocproc_spec {K : Kern} {i : ℕ} (h : Ready K i) : ∃ r K', allocproc K = .ok (r, K') ∧
    r.elim (Undone K K') fun j => ∃ tf root, Fresh K j K' tf root := by
  unfold allocproc
  rcases hfind : (List.range NPROC).find? (fun i => (K.proc i).state = .unused) with _ | j
  · exact ⟨none, K, rfl, ⟨⟨.refl _, fun _ _ => rfl⟩, .inl rfl⟩⟩
  have hj : j < NPROC := List.mem_range.mp (List.mem_of_find?_eq_some hfind)
  have hun : (K.proc j).state = .unused := by simpa using List.find?_some hfind
  obtain ⟨hpt, htf0, hsz⟩ := h.unused j hun
  simp only
  rcases kalloc_cases K.sys with ⟨tf, l, hf, hk⟩ | hk
  · have hmemtf : tf ∈ K.sys.free := by simp [hf]
    have hok := h.alloc.pages tf hmemtf
    obtain ⟨r, t, he, hmade⟩ := procPagetable_spec (h.alloc.grab hf) hok.1 (lt_trans hok.2.2 (by decide)) h.tramp.1 h.tramp_lt
    have hsub : ∀ x, (∀ p ∈ K.sys.free, ¬ InPage p x) → ∀ p ∈ (grab K.sys tf l).free, ¬ InPage p x := fun x hx p hp =>
      hx p (by rw [hf]; exact List.mem_cons_of_mem _ hp)
    simp only [hk, he, ok_bind]
    cases hmade with
    | yes root _ image drawn paid =>
      refine ⟨some j, _, rfl, tf, root, ⟨hj, hun⟩, rfl, rfl, image, ?_, fun x hx => ?_, drawn.kend, ?_⟩
      · rw [hf]
        exact List.Perm.cons tf drawn.perm
      · exact (drawn.mem x (hsub x hx)).trans (Alloc.grab_mem hf hx)
      · refine paid.trans ?_
        rw [hf, List.length_cons]
        change K.sys.calls + 1 + l.length = _
        omega
    | no _ free mem kend =>
      have hne : tf ≠ 0 := by
        have := hok.2.1
        have := h.kend.1
        omega
      have hok' : Freeable t tf := by
        rw [Freeable, kend]
        exact hok
      have hfp := freeproc_trapframe (Kern.set_proc { K with nextpid := K.nextpid + 1, sys := t } j
        { K.proc j with pid := K.nextpid, state := .used, trapframe := tf, pagetable := 0 }) rfl hne hok'
      simp only [hfp, ok_bind]
      refine ⟨none, _, rfl, ⟨?_, fun x hx => ?_⟩, .inr ⟨j, hj, hun, Function.update_idem ..⟩⟩
      · rw [hf]
        exact List.Perm.cons tf free
      · exact (freed_mem (hx tf hmemtf)).trans ((mem x (hsub x hx)).trans (Alloc.grab_mem hf hx))
  · simp only [hk]
    have hfp := freeproc_bare (Kern.set_proc { K with nextpid := K.nextpid + 1, sys := refuse K.sys } j
      { K.proc j with pid := K.nextpid, state := .used, trapframe := 0 }) hpt rfl
    simp only [hfp, ok_bind]
    exact ⟨none, _, rfl, ⟨.refl _, fun _ _ => rfl⟩, .inr ⟨j, hj, hun, Function.update_idem ..⟩⟩

/-- `freeproc` of an entry whose pages were free in `s` gives them back. -/
theorem freeproc_restores {K : Kern} {i : ℕ} {q : Slot} (h : Alloc s) (hq : K.proc i = q) (hsz : pages q.sz = n)
    (himage : Image K.sys q.pagetable n q.trapframe tramp)
    (hperm : (q.trapframe :: pool K.sys q.pagetable n).Perm s.free) (hkend : K.sys.kend = s.kend)
    (hmem : ∀ x, (∀ p ∈ s.free, ¬ InPage p x) → K.sys.mem x = s.mem x) :
    ∃ t, freeproc i K = .ok ({ K with sys := t }.set i noProc) ∧ Restored s t := by
  subst hsz
  have hok : ∀ p ∈ q.trapframe :: pool K.sys q.pagetable (pages q.sz), Freeable K.sys p ∧ p ≠ 0 := by
    intro p hp
    have hp := h.pages p (hperm.mem_iff.mp hp)
    rw [Freeable, hkend]
    have := h.kend
    have := hp.2.1
    exact ⟨hp, by omega⟩
  obtain ⟨htf, htf0⟩ := hok _ (List.mem_cons_self ..)
  have hroot := (hok _ (List.mem_cons_of_mem _ (mem_pool_tables (mem_tables.mpr ⟨[], .nil ..⟩)))).2
  have hn : ([q.trapframe] ++ pool K.sys q.pagetable (pages q.sz)).Nodup := hperm.nodup_iff.mpr h.nodup
  have hnt : q.trapframe ∉ Vm.tables K.sys q.pagetable := fun ht => (List.nodup_cons.mp hn).1 (mem_pool_tables ht)
  obtain ⟨hspace, hpool, htr⟩ := himage.toSpace.with_free (t := freed K.sys q.trapframe)
    (himage.tree.freed_mem htf.1 hnt) rfl hn (fun p hp => List.mem_singleton.mp hp ▸ htf) rfl
  obtain ⟨t, he, hgone⟩ := procFreepagetable_spec (s := freed K.sys q.trapframe)
    ⟨hspace, fun x h1 h2 => (htr x).trans (himage.top x h1 h2)⟩
  have hfree := hpool.trans hperm
  refine ⟨t, ?_, hgone.free.trans hfree, fun x hx => ?_⟩
  · rw [freeproc, hq]
    simp only [ne_eq, htf0, hroot, not_false_eq_true, if_true, kfree_of_freeable htf, ok_bind, he]
  · rw [hgone.mem x fun p hp => hx p (hfree.mem_iff.mp hp), ← hmem x hx]
    exact freed_mem (hx _ (hperm.mem_iff.mp (List.mem_cons_self ..)))

theorem Source.transfer {Q : List ℕ} (h : Source s old n P) (hm : ∀ x, (∀ p ∈ P, ¬ InPage p x) → t.mem x = s.mem x)
    (hsub : ∀ p ∈ Q, p ∈ P) : Source t old n Q := by
  have hsame := h.same hm
  refine ⟨h.tree.congr hsame, fun k hk => ?_, fun q hq hQ => ?_, fun k hk hQ => ?_, fun p hp => h.pages p (hsub p hp)⟩
  · rw [trans_congr hsame]
    exact h.leaf k hk
  · rw [tables_congr hsame] at hq
    exact h.tables q hq (hsub q hQ)
  · rw [frame_congr hsame] at hQ
    exact h.frames k hk (hsub _ hQ)

/-- A space beside the free pages. -/
theorem Space.source (h : Space s root n) : Source s root n s.free :=
  ⟨h.tree, h.leaf, fun q hq hf => h.table.fresh q hf hq, fun _ hk => h.frame_free hk, fun p hp => (h.table.pages p hp).1⟩

theorem copyTrapframe_mem {src dst x : ℕ} (h : ¬ InPage dst x) : (copyTrapframe src dst s).mem x = s.mem x := by
  unfold InPage at h
  have h1 : ¬ (dst ≤ x ∧ x < dst + tfSize) := by
    unfold tfSize PGSIZE at *
    omega
  refine (Bytes.putLe_of_disjoint ?_).trans (if_neg h1)
  unfold tfA0 PGSIZE at *
  omega

/-- The registers are the parent's, but for `a0`. -/
theorem copyTrapframe_at (src dst : ℕ) (s : Sys) {o : ℕ} (ho : o < tfSize) :
    (copyTrapframe src dst s).mem (dst + o) = if tfA0 ≤ o ∧ o < tfA0 + 8 then 0 else s.mem (src + o) := by
  rw [copyTrapframe, Sys.st]
  by_cases h : tfA0 ≤ o ∧ o < tfA0 + 8
  · rw [if_pos h]
    refine (if_pos (by omega)).trans ?_
    rw [Nat.zero_div]
    rfl
  · rw [if_neg h]
    refine (Bytes.putLe_of_disjoint (by omega)).trans ((if_pos (by omega)).trans ?_)
    rw [Nat.add_sub_cancel_left]

/-- The child of a `fork` is in entry `j`, with its page table at `root` and its trapframe at `tf`. -/
structure Forked (K : Kern) (i j : ℕ) (K' : Kern) (root tf : ℕ) : Prop where
  slot : j < NPROC ∧ (K.proc j).state = .unused
  proc : K'.proc = Function.update K.proc j ⟨.runnable, K.nextpid, root, tf, (K.proc i).sz, some i⟩
  image : Image K'.sys root (pages (K.proc i).sz) tf K.trampoline
  copy : ∀ k < pages (K.proc i).sz, CopyOf K.sys (K.proc i).pagetable K'.sys root k
  /-- The child's pages were free, and the free pages are the others. -/
  perm : (tf :: pool K'.sys root (pages (K.proc i).sz)).Perm K.sys.free
  mem : ∀ x, (∀ p ∈ K.sys.free, ¬ InPage p x) → K'.sys.mem x = K.sys.mem x
  trapframe : ∀ o < tfSize, K'.sys.mem (tf + o) =
    if tfA0 ≤ o ∧ o < tfA0 + 8 then 0 else K.sys.mem ((K.proc i).trapframe + o)
  /-- Every call of `kalloc` gave a page. -/
  paid : K'.sys.calls + K'.sys.free.length = K.sys.calls + K.sys.free.length

/-- The child after its memory was copied: its trapframe is filled in. -/
theorem forked_of_copied {K K' K₂ : Kern} {i j : ℕ} (h : Ready K i) (hf : Fresh K j K' tf root)
    (hc : Copied K'.sys (K.proc i).pagetable root (pages (K.proc i).sz) true t)
    (hsys : K₂.sys = copyTrapframe (K.proc i).trapframe tf t)
    (hproc : K₂.proc = Function.update K.proc j ⟨.runnable, K.nextpid, root, tf, (K.proc i).sz, some i⟩) :
    Forked K i j K₂ root tf := by
  cases hc with
  | yes _ space resize copy paid =>
    have hperm : (tf :: pool t root (pages (K.proc i).sz)).Perm K.sys.free :=
      (List.Perm.cons tf resize.perm).trans hf.perm
    have hn : (tf :: pool t root (pages (K.proc i).sz)).Nodup := hperm.nodup_iff.mpr h.alloc.nodup
    have hfree : ∀ p ∈ tf :: pool t root (pages (K.proc i).sz), p ∈ K.sys.free := fun p hp => hperm.mem_iff.mp hp
    have hmem : ∀ p ∈ pool t root (pages (K.proc i).sz), ∀ x, InPage p x → K₂.sys.mem x = t.mem x := by
      intro p hp x hx
      rw [hsys]
      refine copyTrapframe_mem fun htx => (List.nodup_cons.mp hn).1 ?_
      rwa [InPage.unique (h.alloc.pages tf (hfree tf (List.mem_cons_self ..))).1 (space.freeable p hp).1 htx hx]
    obtain ⟨hspace, hpool, htr⟩ := space.with_free (L := []) (fun q hq => hmem q (mem_pool_tables hq))
      (by rw [hsys]; rfl) space.nodup (fun p hp => by cases hp) (by rw [hsys]; rfl)
    -- outside the pages that were free nothing changes
    have hout : ∀ x, (∀ p ∈ K.sys.free, ¬ InPage p x) → t.mem x = K.sys.mem x := by
      intro x hx
      rw [resize.kept.mem x fun p hp => hx p (hf.perm.mem_iff.mp (List.mem_cons_of_mem _ hp)), hf.mem x hx]
    have hsrc := h.image.toSpace.source
    refine ⟨hf.slot, hproc, ⟨hspace, fun x h1 h2 => ?_⟩, fun k hk => ?_, ?_, fun x hx => ?_, fun o ho => ?_, ?_⟩
    · rw [htr, resize.high x h1 h2, hf.image.top x h1 h2]
    · obtain ⟨q, q', fl, h1, h2, h3⟩ := copy k hk
      have h1' : trans K.sys (K.proc i).pagetable (k * PGSIZE) = some (q, fl) := by
        rw [← h1, trans_congr (hsrc.same hf.mem)]
      refine ⟨q, q', fl, h1', (htr _).trans h2, fun o ho => ?_⟩
      have hin : ∀ a, InPage a (a + o) := fun a => ⟨Nat.le_add_right _ _, by omega⟩
      have hq' : q' ∈ pool t root (pages (K.proc i).sz) := by
        rw [← show frame t root (k * PGSIZE) = q' from frame_eq h2]
        exact mem_pool_frame hk
      have hq : InPage (frame K.sys (K.proc i).pagetable (k * PGSIZE)) (q + o) := by
        rw [frame_eq h1']
        exact hin q
      rw [hmem q' hq' _ (hin q'), h3 o ho, hsrc.bytes hf.mem hk hq]
    · exact (List.Perm.cons tf hpool).trans hperm
    · rw [hsys, copyTrapframe_mem (hx tf (hfree tf (List.mem_cons_self ..))), hout x hx]
    · -- the parent's trapframe is not a free page
      rw [hsys, copyTrapframe_at _ _ _ ho, hout]
      intro p hp hin
      have htf : InPage (K.proc i).trapframe ((K.proc i).trapframe + o) :=
        ⟨Nat.le_add_right _ _, Nat.add_lt_add_left (lt_trans ho (by decide)) _⟩
      refine h.trapframe.2 (mem_pool_free ?_)
      rwa [InPage.unique h.trapframe.1 (h.alloc.pages p hp).1 htf hin]
    · rw [hsys]
      exact paid.trans hf.paid

/-- No memory for the child's pages: what was taken for it is given back. -/
theorem undone_of_copied {K K' : Kern} {i j : ℕ} (h : Ready K i) (hf : Fresh K j K' tf root)
    (hc : Copied K'.sys (K.proc i).pagetable root (pages (K.proc i).sz) false t) :
    ∃ K₂, freeproc j { K' with sys := t } = .ok K₂ ∧ Undone K K₂ := by
  cases hc with
  | no _ space resize =>
    have hslot : K'.proc j = { K.proc j with state := .used, pid := K.nextpid, pagetable := root, trapframe := tf } := by
      rw [hf.proc, Function.update_self]
    have hsz : pages (K.proc j).sz = 0 := by
      rw [(h.unused j hf.slot.2).2.2]
      decide
    have himage : Image t root 0 tf K.trampoline := by
      refine ⟨space, fun x h1 h2 => ?_⟩
      rw [resize.high x h1 h2, hf.image.top x h1 h2]
    obtain ⟨u, he, hu⟩ := freeproc_restores (K := { K' with sys := t }) h.alloc hslot hsz himage
      ((List.Perm.cons tf resize.perm).trans hf.perm) (resize.kend.trans hf.kend) fun x hx =>
        (resize.kept.mem x fun p hp => hx p (hf.perm.mem_iff.mp (List.mem_cons_of_mem _ hp))).trans (hf.mem x hx)
    refine ⟨_, he, hu, .inr ⟨j, hf.slot.1, hf.slot.2, ?_⟩⟩
    rw [Kern.set, hf.proc, Function.update_idem]

theorem fork_ends {K : Kern} {i : ℕ} (h : Ready K i) : ∃ r K', fork i K = .ok (r, K') ∧
    r.elim (Undone K K') fun pid => pid = K.nextpid ∧
      ∃ j root tf, Forked K i j K' root tf ∧ K'.sys.kend = K.sys.kend := by
  obtain ⟨r, K', he, hend⟩ := allocproc_spec h
  rcases r with _ | j
  · refine ⟨none, K', ?_, hend⟩
    simp only [fork, he, ok_bind]
  obtain ⟨tf, root, hf⟩ := hend
  have hij : i ≠ j := fun e => h.active (e ▸ hf.slot.2)
  have hi : K'.proc i = K.proc i := by rw [hf.proc, Function.update_of_ne hij]
  have hj : K'.proc j = { K.proc j with state := .used, pid := K.nextpid, pagetable := root, trapframe := tf } := by
    rw [hf.proc, Function.update_self]
  have hsrc : Source K'.sys (K.proc i).pagetable (pages (K.proc i).sz) (pool K'.sys root 0) :=
    h.image.toSpace.source.transfer hf.mem fun p hp => hf.perm.mem_iff.mp (List.mem_cons_of_mem _ hp)
  obtain ⟨r, t, hcopy, hend⟩ := uvmcopy_spec hf.image.toSpace hsrc (le_trans h.image.size_lt (by decide))
  simp only [fork, he, ok_bind, hi, hj, hcopy]
  cases r with
  | false =>
    obtain ⟨K₂, he', hundone⟩ := undone_of_copied h hf hend
    refine ⟨none, K₂, ?_, hundone⟩
    simp only [if_true, he', ok_bind]
  | true =>
    refine ⟨some K.nextpid, _, if_neg (by decide), rfl, j, root, tf, forked_of_copied h hf hend rfl ?_, ?_⟩
    · rw [Kern.set, hf.proc, Function.update_idem]
    · cases hend with
      | yes _ _ resize => exact resize.kend.trans hf.kend

theorem fork_spec {K : Kern} {i : ℕ} (h : Ready K i) : ∃ r K', fork i K = .ok (r, K') ∧
    r.elim (Undone K K') fun pid => pid = K.nextpid ∧ ∃ j root tf, Forked K i j K' root tf := by
  obtain ⟨r, K', he, hend⟩ := fork_ends h
  refine ⟨r, K', he, ?_⟩
  cases r with
  | none => exact hend
  | some pid =>
    obtain ⟨hpid, j, root, tf, hf, -⟩ := hend
    exact ⟨hpid, j, root, tf, hf⟩

/-! ### Parent and child -/

/-- What is mapped: the first `n` pages, the trapframe and the trampoline. -/
theorem Image.mapped {x : ℕ} {e : ℕ × ℕ} (h : Image s root n tf tramp) (hx : x < 2 ^ 39) (he : trans s root x = some e) :
    (x / PGSIZE < n ∧ e.1 = frame s root (x / PGSIZE * PGSIZE)) ∨ e = (tf, PTE_R ||| PTE_W ||| PTE_V) ∨
      e = (tramp, PTE_R ||| PTE_X ||| PTE_V) := by
  rcases Nat.lt_or_ge x TRAPFRAME with hlow | hhigh
  · refine .inl ⟨?_, ?_⟩
    · by_contra hge
      have hle : n * PGSIZE ≤ x :=
        le_trans (Nat.mul_le_mul_right _ (Nat.le_of_not_lt hge)) (Nat.div_mul_le_self x PGSIZE)
      rw [h.gap x hle hlow] at he
      cases he
    · rw [← frame_page (Nat.mul_div_cancel (x / PGSIZE) (by decide)).symm, frame_eq he]
  · rw [h.top x hhigh hx, topMap] at he
    refine .inr ?_
    split at he
    · exact .inl (Option.some.inj he).symm
    · split at he
      · exact .inr (Option.some.inj he).symm
      · cases he

/-- What is mapped for the user is one of the first `n` pages. -/
theorem Image.user_page {x : ℕ} {e : ℕ × ℕ} (h : Image s root n tf tramp) (hx : x < MAXVA)
    (he : trans s root x = some e) (hu : has e.2 PTE_U = true) : x / PGSIZE < n := by
  rcases h.mapped (lt_trans hx (by decide)) he with ⟨hk, -⟩ | rfl | rfl
  · exact hk
  · exact absurd hu (show ¬ has (PTE_R ||| PTE_W ||| PTE_V) PTE_U = true by decide)
  · exact absurd hu (show ¬ has (PTE_R ||| PTE_X ||| PTE_V) PTE_U = true by decide)

theorem Image.user_frame {x : ℕ} {e : ℕ × ℕ} (h : Image s root n tf tramp) (hx : x < MAXVA)
    (he : trans s root x = some e) (hu : has e.2 PTE_U = true) : frame s root x ∈ frames s root 0 n :=
  mem_frames_zero.mpr ⟨_, h.user_page hx he hu, frame_page (Nat.mul_div_cancel _ (by decide)).symm⟩

/-- The frames that the one writes are neither page-table pages nor frames that the other reads. -/
theorem Sealed.of_frames {r r' : ℕ} {F G : List ℕ} (hr : Tree s r) (hr' : Tree s r')
    (hF : ∀ x, Writable s r x → frame s r x ∈ F) (hG : ∀ x, UserMapped s r' x → frame s r' x ∈ G)
    (hown : ∀ p ∈ F, p ∉ tables s r) (htable : ∀ p ∈ F, p ∉ tables s r') (hbytes : ∀ p ∈ F, p ∉ G) : Sealed s r r' := by
  have hin : ∀ root x, InPage (frame s root x) (phys s root x) := fun root x =>
    ⟨Nat.le_add_right _ _, Nat.add_lt_add_left (Nat.mod_lt _ (by decide)) _⟩
  have hat : ∀ {root x q}, Tree s root → q ∈ tables s root → InPage q (phys s r x) → frame s r x = q := by
    intro root x q ht hq hx
    obtain ⟨σ, hσ⟩ := mem_tables.mp hq
    exact InPage.unique (frame_aligned ..) (ht.reach_aligned hσ) (hin r x) hx
  refine ⟨fun x hx q hq hp => ?_, fun x hx q hq hp => ?_, fun x y hx hy e => ?_⟩
  · exact hown _ (hF x hx) ((hat hr hq hp).symm ▸ hq)
  · exact htable _ (hF x hx) ((hat hr' hq hp).symm ▸ hq)
  · have hsame : frame s r x = frame s r' y :=
      InPage.unique (frame_aligned ..) (frame_aligned ..) (hin r x) (e.symm ▸ hin r' y)
    exact hbytes _ (hF x hx) (hsame.symm ▸ hG y hy)

/-- A page table beside the free pages: it neither uses nor maps one. -/
structure Beside (s : Sys) (root : ℕ) : Prop where
  tree : Tree s root
  tables : ∀ q ∈ tables s root, q ∉ s.free
  maps : ∀ x < 2 ^ 39, ∀ e, trans s root x = some e → e.1 ∉ s.free

theorem Ready.tramp_free {K : Kern} {i : ℕ} (h : Ready K i) : K.trampoline ∉ K.sys.free := fun hf =>
  absurd h.tramp.2 (Nat.not_lt.mpr (h.alloc.pages _ hf).2.1)

theorem Ready.beside {K : Kern} {i : ℕ} (h : Ready K i) : Beside K.sys (K.proc i).pagetable := by
  refine ⟨h.image.tree, fun q hq hf => h.image.table.fresh q hf hq, fun x hx e he => ?_⟩
  rcases h.image.mapped hx he with ⟨hk, hfr⟩ | rfl | rfl
  · rw [hfr]
    exact h.image.frame_free hk
  · exact fun hf => h.trapframe.2 (mem_pool_free hf)
  · exact h.tramp_free

/-- What `fork` leaves alone: the page tables beside the free pages, and the memory that is not free. -/
structure Intact (s t : Sys) : Prop where
  trans : ∀ root, Beside s root → ∀ x, trans t root x = trans s root x
  mem : ∀ x, (∀ p ∈ s.free, ¬ InPage p x) → t.mem x = s.mem x

theorem Ready.same {K : Kern} {i : ℕ} (h : Ready K i) (hm : ∀ x, (∀ p ∈ K.sys.free, ¬ InPage p x) → t.mem x = K.sys.mem x)
    (hr : Beside K.sys root) : ∀ q ∈ tables K.sys root, ∀ x, InPage q x → t.mem x = K.sys.mem x := by
  intro q hq x hx
  refine hm x fun p hp hpx => hr.tables q hq ?_
  obtain ⟨σ, hσ⟩ := mem_tables.mp hq
  rwa [← InPage.unique (h.alloc.pages p hp).1 (hr.tree.reach_aligned hσ) hpx hx]

/-- Page `k` of the page table at `root` is mapped there only, and in none of the other page tables. -/
structure Alone (s t : Sys) (root k : ℕ) : Prop where
  once : ∀ x < 2 ^ 39, ∀ e, trans t root x = some e → e.1 = frame t root (k * PGSIZE) → x / PGSIZE = k
  others : ∀ r, Beside s r → ∀ x < 2 ^ 39, ∀ e, trans t r x = some e → e.1 ≠ frame t root (k * PGSIZE)

section Child

variable {K K' : Kern} {i j : ℕ}

theorem Forked.frame_mem (hf : Forked K i j K' root tf) (hk : k < pages (K.proc i).sz) :
    frame K'.sys root (k * PGSIZE) ∈ K.sys.free := hf.perm.mem_iff.mp (List.mem_cons_of_mem _ (mem_pool_frame hk))

variable (h : Ready K i) (hf : Forked K i j K' root tf)

include h hf

theorem Forked.alone (hk : k < pages (K.proc i).sz) : Alone K.sys K'.sys root k := by
  have hfree := hf.frame_mem hk
  constructor
  · intro x hx e he heq
    rcases hf.image.mapped hx he with ⟨hk', hfr⟩ | rfl | rfl
    · exact hf.image.frame_inj hk' hk (hfr.symm.trans heq)
    · -- the trapframe is a page of its own
      have hn := hf.perm.nodup_iff.mpr h.alloc.nodup
      have heq : tf = frame K'.sys root (k * PGSIZE) := heq
      have hmem : tf ∈ pool K'.sys root (pages (K.proc i).sz) := by
        rw [heq]
        exact mem_pool_frame hk
      exact absurd hmem (List.nodup_cons.mp hn).1
    · rw [← heq] at hfree
      exact absurd hfree h.tramp_free
  · intro r hr x hx e he heq
    rw [trans_congr (h.same hf.mem hr)] at he
    exact hr.maps x hx e he (heq ▸ hfree)

/-- Parent and child share no memory that the user can write. -/
theorem Forked.apart : Apart K'.sys root (K.proc i).pagetable := by
  have hsame := h.same hf.mem h.beside
  have htree : Tree K'.sys (K.proc i).pagetable := h.image.tree.congr hsame
  have hcF : ∀ x, x < MAXVA → ∀ e, trans K'.sys root x = some e → has e.2 PTE_U = true →
      frame K'.sys root x ∈ frames K'.sys root 0 (pages (K.proc i).sz) := fun x hx e he hu => hf.image.user_frame hx he hu
  have hpF : ∀ x, x < MAXVA → ∀ e, trans K'.sys (K.proc i).pagetable x = some e → has e.2 PTE_U = true →
      frame K'.sys (K.proc i).pagetable x ∈ frames K.sys (K.proc i).pagetable 0 (pages (K.proc i).sz) := by
    intro x hx e he hu
    rw [frame_congr hsame]
    rw [trans_congr hsame] at he
    exact h.image.user_frame hx he hu
  have hcfree : ∀ p ∈ frames K'.sys root 0 (pages (K.proc i).sz), p ∈ K.sys.free := by
    intro p hp
    obtain ⟨k, hk, rfl⟩ := mem_frames_zero.mp hp
    exact hf.frame_mem hk
  have htfree : ∀ p ∈ tables K'.sys root, p ∈ K.sys.free := fun p hp =>
    hf.perm.mem_iff.mp (List.mem_cons_of_mem _ (mem_pool_tables hp))
  have hpfree : ∀ p ∈ frames K.sys (K.proc i).pagetable 0 (pages (K.proc i).sz), p ∉ K.sys.free := by
    intro p hp
    obtain ⟨k, hk, rfl⟩ := mem_frames_zero.mp hp
    exact h.image.frame_free hk
  have hptab : ∀ p ∈ tables K'.sys (K.proc i).pagetable, p ∉ K.sys.free := by
    rw [tables_congr hsame]
    exact h.beside.tables
  constructor
  · refine .of_frames hf.image.tree htree (fun x hx => ?_) (fun x hx => ?_) (fun p hp => ?_)
      (fun p hp hq => hptab p hq (hcfree p hp)) (fun p hp hq => hpfree p hq (hcfree p hp))
    · obtain ⟨hx, e, he, hu, -⟩ := hx
      exact hcF x hx e he hu
    · obtain ⟨hx, e, he, hu, -⟩ := hx
      exact hpF x hx e he hu
    · obtain ⟨k, hk, rfl⟩ := mem_frames_zero.mp hp
      exact hf.image.frame_tables hk
  · refine .of_frames htree hf.image.tree (fun x hx => ?_) (fun x hx => ?_) (fun p hp => ?_)
      (fun p hp hq => hpfree p hp (htfree p hq)) (fun p hp hq => hpfree p hp (hcfree p hq))
    · obtain ⟨hx, e, he, hu, -⟩ := hx
      exact hpF x hx e he hu
    · obtain ⟨hx, e, he, hu, -⟩ := hx
      exact hcF x hx e he hu
    · rw [tables_congr hsame]
      obtain ⟨k, hk, rfl⟩ := mem_frames_zero.mp hp
      exact h.image.frame_tables hk

end Child

/-- Copies into two processes never change what is read from the other one. -/
def Independent (s : Sys) (r r' : ℕ) : Prop := ∀ L va src len va' len',
  copyin (copyout r va src len (outs r r' L s)).2 r' va' len' = copyin (outs r r' L s) r' va' len' ∧
  copyin (copyout r' va src len (outs r r' L s)).2 r va' len' = copyin (outs r r' L s) r va' len'

theorem Apart.independent {r r' : ℕ} (h : Apart s r r') : Independent s r r' := fun L va src len va' len' =>
  ⟨(h.outs L).1.copyin_eq va len src va' len', (h.outs L).2.copyin_eq va len src va' len'⟩

/-- **fork**. The parent is left as it is. Either the child has a copy of each of its pages, mapped
nowhere else, and of its trapframe, with `a0` 0, and every `kalloc` gave a page; or the free pages and
the process table are as before. -/
theorem fork_copies_exactly {K : Kern} {i : ℕ} (h : Ready K i) : ∃ r K', fork i K = .ok (r, K') ∧
    K'.proc i = K.proc i ∧ Beside K.sys (K.proc i).pagetable ∧ Intact K.sys K'.sys ∧
    r.elim (Undone K K' ∧ K'.sys.free.length = K.sys.free.length) fun pid => pid = K.nextpid ∧
      ∃ j root tf, Forked K i j K' root tf ∧ (∀ k < pages (K.proc i).sz, Alone K.sys K'.sys root k) ∧
        Independent K'.sys root (K.proc i).pagetable := by
  obtain ⟨r, K', he, hend⟩ := fork_spec h
  refine ⟨r, K', he, ?_⟩
  cases r with
  | none =>
    have hend : Undone K K' := hend
    refine ⟨?_, h.beside, ⟨fun root hr => trans_congr (h.same hend.sys.mem hr), hend.sys.mem⟩, hend, hend.sys.free.length_eq⟩
    rcases hend.proc with hp | ⟨j, -, hj, hp⟩
    · rw [hp]
    · have hij : i ≠ j := fun e => h.active (e ▸ hj)
      rw [hp, Function.update_of_ne hij]
  | some pid =>
    obtain ⟨hpid, j, root, tf, hf⟩ := hend
    have hij : i ≠ j := fun e => h.active (e ▸ hf.slot.2)
    refine ⟨?_, h.beside, ⟨fun root hr => trans_congr (h.same hf.mem hr), hf.mem⟩, hpid, j, root, tf, hf,
      fun k hk => hf.alone h hk, (hf.apart h).independent⟩
    rw [hf.proc, Function.update_of_ne hij]

/-- The trampoline at `KERNBASE`, a trapframe, and sixteen free pages. -/
def bare : Sys where
  mem _ := 0
  free := (List.range 16).map fun k => KERNBASE + (k + 2) * PGSIZE
  deny _ := false
  calls := 0
  kend := KERNBASE + PGSIZE

/-- One process, with a page of memory. -/
def oneProc (root : ℕ) (s : Sys) : Kern where
  sys := s
  proc i := if i = 0 then ⟨.running, 1, root, KERNBASE + PGSIZE, 1, none⟩ else noProc
  nextpid := 2
  trampoline := KERNBASE

theorem oneProc_ready (hp : procPagetable KERNBASE (KERNBASE + PGSIZE) bare = .ok (some root, s))
    (hg : uvmalloc root 0 1 PTE_W s = .ok (1, t)) : Ready (oneProc root t) 0 := by
  have halloc : Alloc bare := by
    refine ⟨by decide, ?_, by decide⟩
    unfold Freeable
    decide
  have hmade : Made bare (KERNBASE + PGSIZE) KERNBASE (some root) s := by
    obtain ⟨_, _, hp', hmade⟩ := procPagetable_spec halloc (show (KERNBASE + PGSIZE) % PGSIZE = 0 by decide) (by decide)
      (show KERNBASE % PGSIZE = 0 by decide) (by decide)
    obtain ⟨rfl, rfl⟩ := Prod.mk.inj (Except.ok.inj (hp'.symm.trans hp))
    exact hmade
  cases hmade with
  | yes _ _ image drawn _ =>
    have hend : Alloced root s (pages 0) 1 PTE_W 1 t := by
      obtain ⟨_, _, hg', hend⟩ := uvmalloc_spec image.toSpace (show PTE_W < 1024 by decide) (Nat.zero_le 1)
      obtain ⟨rfl, rfl⟩ := Prod.mk.inj (Except.ok.inj (hg'.symm.trans hg))
      exact hend
    cases hend with
    | yes _ space resize _ =>
      have hkend : t.kend = KERNBASE + PGSIZE := resize.kend.trans drawn.kend
      have hrun : (PState.running : PState) ≠ .unused := by decide
      refine ⟨hrun, ⟨space, fun x h1 h2 => ?_⟩, ⟨show (KERNBASE + PGSIZE) % PGSIZE = 0 by decide, fun hmem => ?_⟩,
        fun j hj => ?_, ⟨show KERNBASE % PGSIZE = 0 by decide, ?_⟩, ?_⟩
      · exact (resize.high x h1 h2).trans (image.top x h1 h2)
      · have hbare := drawn.perm.mem_iff.mp (resize.perm.mem_iff.mp hmem)
        exact absurd hbare (show KERNBASE + PGSIZE ∉ bare.free by decide)
      · have hne : j ≠ 0 := by
          rintro rfl
          exact hrun hj
        rw [show (oneProc root t).proc j = noProc from if_neg hne]
        exact ⟨rfl, rfl, rfl⟩
      · rw [show (oneProc root t).sys.kend = KERNBASE + PGSIZE from hkend]
        exact Nat.lt_add_of_pos_right (by decide)
      · rw [show (oneProc root t).sys.kend = KERNBASE + PGSIZE from hkend]
        decide

theorem fork_copies_exactly_one : ∃ root s t, procPagetable KERNBASE (KERNBASE + PGSIZE) bare = .ok (some root, s) ∧
    uvmalloc root 0 1 PTE_W s = .ok (1, t) ∧ ∃ r K', fork 0 (oneProc root t) = .ok (r, K') ∧
      Intact (oneProc root t).sys K'.sys ∧
      r.elim (Undone (oneProc root t) K') fun _ => ∃ j root' tf, Forked (oneProc root t) 0 j K' root' tf := by
  obtain ⟨⟨sz, t⟩, he, hsz⟩ := okWith_iff.mp (show okWith (do
    let r ← procPagetable KERNBASE (KERNBASE + PGSIZE) bare
    if r.1 = none then .error .blocked else uvmalloc (r.1.getD 0) 0 1 PTE_W r.2)
      (fun r => decide (r.1 = 1)) = true by decide +kernel)
  obtain rfl : sz = 1 := of_decide_eq_true hsz
  obtain ⟨⟨root, s⟩, hp, hg⟩ := bind_ok he
  rcases root with _ | root
  · cases hg
  obtain ⟨r, K', hf, -, -, hintact, hend⟩ := fork_copies_exactly (oneProc_ready hp hg)
  refine ⟨root, s, t, hp, hg, r, K', hf, hintact, ?_⟩
  cases r with
  | none => exact hend.1
  | some pid =>
    obtain ⟨-, j, root', tf, hforked, -⟩ := hend
    exact ⟨j, root', tf, hforked⟩

/-- **A child leaves nothing behind.** If `fork` has made a child, `freeproc` of its entry gives back
the pages that were taken for it, and the memory that was not free and the process table are as before. -/
theorem fork_freeproc {K K' : Kern} {i : ℕ} {pid : ℤ} (h : Ready K i) (hf : fork i K = .ok (some pid, K')) :
    ∃ j K₂, (K'.proc j).pid = pid ∧ (K'.proc j).parent = some i ∧ freeproc j K' = .ok K₂ ∧ Undone K K₂ := by
  obtain ⟨r, K₁, he, hend⟩ := fork_ends h
  obtain ⟨rfl, rfl⟩ := Prod.mk.inj (Except.ok.inj (he.symm.trans hf))
  obtain ⟨rfl, j, root, tf, hchild, hkend⟩ := hend
  have hslot : K₁.proc j = ⟨.runnable, K.nextpid, root, tf, (K.proc i).sz, some i⟩ := by
    rw [hchild.proc, Function.update_self]
  obtain ⟨t, hfree, ht⟩ := freeproc_restores h.alloc hslot rfl hchild.image hchild.perm hkend hchild.mem
  refine ⟨j, _, by rw [hslot], by rw [hslot], hfree, ht, .inr ⟨j, hchild.slot.1, hchild.slot.2, ?_⟩⟩
  rw [Kern.set, hchild.proc, Function.update_idem]

theorem fork_freeproc_one : ∃ root t K', fork 0 (oneProc root t) = .ok (some 2, K') ∧
    ∃ j K₂, (K'.proc j).pid = 2 ∧ freeproc j K' = .ok K₂ ∧ K₂.sys.free.Perm t.free := by
  obtain ⟨⟨r, s⟩, hp, hrest⟩ := okWith_iff.mp (show okWith (procPagetable KERNBASE (KERNBASE + PGSIZE) bare) (fun r =>
    decide (r.1 ≠ none) && okWith (uvmalloc (r.1.getD 0) 0 1 PTE_W r.2) fun u =>
      decide (u.1 = 1) && okWith (fork 0 (oneProc (r.1.getD 0) u.2)) fun v => decide (v.1 = some 2)) = true by
    decide +kernel)
  obtain ⟨hr, hrest⟩ := Bool.and_eq_true_iff.mp hrest
  obtain ⟨root, rfl⟩ := Option.ne_none_iff_exists'.mp (of_decide_eq_true hr)
  obtain ⟨⟨sz, t⟩, hg, hrest⟩ := okWith_iff.mp hrest
  obtain ⟨hsz, hrest⟩ := Bool.and_eq_true_iff.mp hrest
  obtain rfl : sz = 1 := of_decide_eq_true hsz
  obtain ⟨⟨pid, K'⟩, hf, hpid⟩ := okWith_iff.mp hrest
  obtain rfl : pid = some 2 := of_decide_eq_true hpid
  obtain ⟨j, K₂, h1, -, h2, hu⟩ := fork_freeproc (oneProc_ready hp hg) hf
  exact ⟨root, t, K', hf, j, K₂, h1, h2, hu.sys.free⟩

end Vm
end Xv6
