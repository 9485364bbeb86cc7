import Dmaos.Memory.Boot

/-!
# From the start of a program to its end

A program that has been started can move its break up while there are pages
(`Settled.sbrk_returns`) and down (`Settled.sbrk_shrinks`), and when it has ended its
pages are given back (`Settled.waitProcess_returns`).  The machine of `Boot` goes
through all of this (`machine_lives`).
-/

namespace Dmaos

open Fault Function

namespace Machine

/-- The slot is taken by a process, that may have exited. -/
def Live (s : Machine) (p : Fin PROCS_MAX) : Prop := (s.k.procs p).state ≠ .unused

/-- The number of pages by which the heap of `p` grows. -/
def heapPages (s : Machine) (p : Fin PROCS_MAX) (inc : Int) : Nat :=
  pagesBetween (s.space p).heapEnd ((s.space p).heapEnd + inc).toNat

/-- The number of pages that takes, with the second-level tables that are missing. -/
def pagesNeeded (s : Machine) (p : Fin PROCS_MAX) (inc : Int) : Nat :=
  missingTables s.mem.ram ((s.space p).pageTable.getD 0)
    (tablesFor (pagesUpTo (s.space p).heapEnd) (s.heapPages p inc)) + s.heapPages p inc

end Machine

open Machine

/-! ## Calls that return -/

section Returns

variable {R : Ram} {copy : ArgCopy} {s : Machine} {own : Roles} {p : Fin PROCS_MAX} {inc : Int}

theorem Settled.root (h : Settled R s own) (hlive : s.Live p) :
    ∃ r, (s.space p).pageTable = some (R.page r) ∧ own r = .root p := (h.live p hlive).root

/-- A call for more memory gets all pages it asks for, or it stops the kernel. -/
theorem sbrk_grows (hcur : s.k.current = some p) (hinc : 0 < inc)
    (hlt : (s.space p).heapEnd + inc < 0x80000000) :
    (∃ m' s', addPages R ((s.space p).pageTable.getD 0) (s.heapPages p inc)
        (alignUp (s.space p).heapEnd) s.mem = .ok true m' ∧
      sbrk R inc s = .ok (s.space p).heapEnd s') ∨
    ∃ m', addPages R ((s.space p).pageTable.getD 0) (s.heapPages p inc)
        (alignUp (s.space p).heapEnd) s.mem = .error (.pages 1) m' ∧
      sbrk R inc s = .error (.pages 1) { s with mem := m' } := by
  have hget : (get : Mach Machine) s = .ok s s := rfl
  have hbrk : (((s.space p).heapEnd + inc) % 2 ^ 32).toNat = ((s.space p).heapEnd + inc).toNat := by
    omega
  rw [sbrk, run_bind (onKern_currentProcess hcur), run_bind hget, if_neg (by omega), if_pos hinc,
    hbrk,
    if_neg (by omega), heapPages]
  rcases addPages_cases R s.mem ((s.space p).pageTable.getD 0) (pagesUpTo (s.space p).heapEnd)
    (pagesBetween (s.space p).heapEnd ((s.space p).heapEnd + inc).toNat) with ⟨m', hok⟩ | ⟨m', hno⟩
  · rw [← alignUp_eq] at hok
    exact .inl ⟨m', _, hok, run_bind (onMem_run hok)⟩
  · rw [← alignUp_eq] at hno
    refine .inr ⟨m', hno, run_bind_error ?_⟩
    rw [onMem, hno]

/-- The loop gets its pages if there are enough of them. -/
theorem Settled.addPages_iff (h : Settled R s own) (hlive : s.Live p) (hinc : 0 < inc)
    (hlt : (s.space p).heapEnd + inc < 0x80000000) :
    (∃ m', addPages R ((s.space p).pageTable.getD 0) (s.heapPages p inc)
        (alignUp (s.space p).heapEnd) s.mem = .ok true m') ↔
      s.pagesNeeded p inc ≤ s.mem.freeLeft := by
  obtain ⟨r, hr, hroot⟩ := h.root hlive
  have htop : pagesUpTo (s.space p).heapEnd + s.heapPages p inc ≤ 2 ^ 20 := by
    have hbetween := pagesBetween_eq (s.space p).heapEnd ((s.space p).heapEnd + inc).toNat
    rw [heapPages, hbetween]
    simp only [pagesUpTo, PAGE_SIZE]
    omega
  rw [pagesNeeded, hr, Option.getD_some, alignUp_eq]
  exact addPages_returns_iff (h.pages.twoLevel hroot) htop

/-- What a call of `sbrk` that succeeds leaves. -/
structure BreakAt (s : Machine) (p : Fin PROCS_MAX) (inc : Int) (s' : Machine) : Prop where
  kern : s'.k = { s.k with current := some p }
  start : (s'.space p).heapStart = (s.space p).heapStart
  stop : ((s'.space p).heapEnd : Int) = (s.space p).heapEnd + inc

theorem Settled.breakAt {s' : Machine} (h : Settled R s own)
    (hrunnable : (s.k.procs p).state = .runnable) (hlt : (s.space p).heapEnd + inc < 0x80000000)
    (hge : 0 ≤ (s.space p).heapEnd + inc)
    (hrun : sbrk R inc { s with k := { s.k with current := some p } } =
      .ok (s.space p).heapEnd s') :
    Machine.step R copy p (.sbrk inc) s = .ok (s.space p).heapEnd s' ∧ BreakAt s p inc s' := by
  have hlive : s.Live p := by simp [Live, hrunnable]
  have h₁ : Settled R { s with k := { s.k with current := some p } } own :=
    h.of_states rfl rfl fun _ => Iff.rfl
  rcases sbrk_cases h₁.pages rfl (h₁.live p hlive) hrun with
    ⟨hfail, -⟩ | ⟨-, brk, own', hmoved, -, hbrk, -⟩
  · omega
  · refine ⟨(step_act hrunnable).trans hrun, hmoved.kern, ?_, ?_⟩ <;>
      rw [hmoved.spaces, update_self]
    dsimp only at *
    omega

/-- With pages enough the break is moved up. -/
theorem Settled.sbrk_returns (copy : ArgCopy) (inc : Int) (h : Settled R s own)
    (hrunnable : (s.k.procs p).state = .runnable)
    (hinc : 0 < inc) (hlt : (s.space p).heapEnd + inc < 0x80000000)
    (henough : s.pagesNeeded p inc ≤ s.mem.freeLeft) :
    ∃ s', Machine.step R copy p (.sbrk inc) s = .ok (s.space p).heapEnd s' ∧
      BreakAt s p inc s' := by
  have hlive : s.Live p := by simp [Live, hrunnable]
  rcases sbrk_grows (R := R) (s := { s with k := { s.k with current := some p } }) rfl hinc hlt with
    ⟨-, s', -, hok⟩ | ⟨m', hno, -⟩
  · exact ⟨s', h.breakAt hrunnable hlt (by omega) hok⟩
  · obtain ⟨m₁, hok⟩ := (h.addPages_iff hlive hinc hlt).mpr henough
    cases hok.symm.trans hno

/-- The break is moved down to the start of the heap at most. -/
theorem Settled.sbrk_shrinks (copy : ArgCopy) (inc : Int) (h : Settled R s own)
    (hrunnable : (s.k.procs p).state = .runnable)
    (hinc : inc < 0) (hstart : (s.space p).heapStart ≤ (s.space p).heapEnd + inc) :
    ∃ s', Machine.step R copy p (.sbrk inc) s = .ok (s.space p).heapEnd s' ∧
      BreakAt s p inc s' := by
  have hspace := h.live p (by simp [hrunnable])
  have hend := hspace.heapEnd_le h.pages
  simp only [USER_BASE, NUM_PAGES, PAGE_SIZE] at hend
  have hbrk : (((s.space p).heapEnd + inc) % 2 ^ 32).toNat = ((s.space p).heapEnd + inc).toNat := by
    omega
  obtain ⟨m', own', hun, -⟩ := shrinks (s := { s with k := { s.k with current := some p } })
    ((s.space p).heapEnd + inc).toNat h.pages hspace (by dsimp only; omega)
    (by dsimp only; omega)
  have hrun : ∃ s', sbrk R inc { s with k := { s.k with current := some p } } =
      .ok (s.space p).heapEnd s' := by
    rw [sbrk, run_bind (onKern_currentProcess rfl), run_bind (show (get : Mach Machine)
      { s with k := { s.k with current := some p } } = .ok _ _ from rfl), if_pos hinc, hbrk,
      if_neg (by dsimp only; omega), run_bind (onMem_run hun)]
    exact ⟨_, rfl⟩
  obtain ⟨s', hrun⟩ := hrun
  exact ⟨s', h.breakAt hrunnable (by omega) (by omega) hrun⟩

/-- A process that has ended is reaped. -/
theorem Settled.waitProcess_returns {pid : Int} {k₁ k₂ : KState} (h : Settled R s own)
    (hfind : findPid s.k pid = some p) (hexited : (s.k.procs p).state = .exited)
    (hdrop : dropCwd p s.k = .ok () k₁)
    (hclose : closeAll p (List.finRange NUM_FILES_PER_PROCESS) k₁ = .ok () k₂) :
    ∃ s', Machine.waitProcess R pid s = .ok 0 s' ∧ ¬ s'.Live p := by
  obtain ⟨r, hr, hroot⟩ := h.root (p := p) (by simp [Live, hexited])
  obtain ⟨a₁, a', hfree₁, hfree₂, -⟩ := freeTables_all h.pages hroot
  have hpages : freeProcessPages R p s = .ok () ⟨k₂, ⟨s.mem.ram, a'⟩,
      update s.space p { s.space p with pageTable := none }⟩ := by
    rw [freeProcessPages, run_bind (onKern_run hdrop), run_bind (onKern_run hclose)]
    refine (run_bind (show (get : Mach Machine) ⟨k₂, s.mem, s.space⟩ = .ok _ _ from rfl)).trans ?_
    simp only [hr]
    refine (run_bind (onMem_run (s := ⟨k₂, s.mem, s.space⟩) hfree₁)).trans ?_
    exact run_bind (onMem_run (s := ⟨k₂, ⟨s.mem.ram, a₁⟩, s.space⟩) hfree₂)
  rw [Machine.waitProcess, run_bind (show (get : Mach Machine) s = .ok s s from rfl)]
  simp only [hfind, if_pos hexited]
  rw [run_bind hpages]
  refine ⟨_, rfl, ?_⟩
  simp [Live, putProc_self]

end Returns

/-! ## The life of a program -/

theorem Mem.UpTo.freeLeft {m : Mem} {n : Nat} (h : m.UpTo n) : NUM_PAGES ≤ m.freeLeft + n := by
  have hsub : Finset.range NUM_PAGES ⊆
      ((Finset.range NUM_PAGES).filter fun i => m.allocated i = false) ∪ Finset.range n := by
    intro i hi
    by_cases hin : i < n
    · exact Finset.mem_union_right _ (Finset.mem_range.mpr hin)
    · exact Finset.mem_union_left _ (Finset.mem_filter.mpr ⟨hi, by rw [h i, decide_eq_false hin]⟩)
  have hcard := (Finset.card_le_card hsub).trans (Finset.card_union_le _ _)
  simpa [Mem.freeLeft] using hcard

/-- At most one table is missing for each page. -/
theorem Machine.pagesNeeded_le (s : Machine) (p : Fin PROCS_MAX) (inc : Int) :
    s.pagesNeeded p inc ≤ 2 * s.heapPages p inc := by
  have hmissing : missingTables s.mem.ram ((s.space p).pageTable.getD 0)
      (tablesFor (pagesUpTo (s.space p).heapEnd) (s.heapPages p inc)) ≤ s.heapPages p inc := by
    refine (Finset.card_filter_le _ _).trans (Finset.card_image_le.trans ?_)
    simp
  rw [pagesNeeded]
  omega

/-- Process 1 starts a program, which moves its break up and down and exits, and then
process 1 waits for it. -/
structure Life (R : Ram) (copy : ArgCopy) (P : Cond) (s s₁ s₂ s₃ s₄ s₅ : Machine) : Prop where
  spawn : Machine.step R copy 1 (.call (.spawn shortLine)) s = .ok 3 s₁
  grow : Machine.step R copy 2 (.sbrk 5000) s₁ = .ok (s₁.space 2).heapEnd s₂
  shrink : Machine.step R copy 2 (.sbrk (-4096)) s₂ = .ok (s₂.space 2).heapEnd s₃
  exit : ∃ r, Machine.step R copy 2 (.call .exit) s₃ = .ok r s₄
  wait : Machine.step R copy 1 (.call (.wait 3)) s₄ = .ok 0 s₅
  reached : ∀ t ∈ [s, s₁, s₂, s₃, s₄, s₅], Machine.Reached R copy machine P t
  live : ∀ t ∈ [s₁, s₂, s₃, s₄], t.Live 2
  dead : ∀ t ∈ [s, s₅], ¬ t.Live 2

theorem machine_lives (R : Ram) {copy : ArgCopy} {P : Cond}
    (hstore : Storable R copy 96 (argv shortLine.1))
    (hP : ∀ p a s r, P p a s r → SpawnConfined copy p a s) (hspawn : ∀ s : Machine,
      programSize { s.k with current := some 1 } (argv shortLine.1) = some 96 →
      P 1 (.call (.spawn shortLine)) s 3)
    (hsbrk : ∀ p inc s r, P p (.sbrk inc) s r) (hexits : ∀ p s r, P p (.call .exit) s r)
    (hwaits : ∀ p pid s r, P p (.call (.wait pid)) s r) :
    ∃ s s₁ s₂ s₃ s₄ s₅, Life R copy P s s₁ s₂ s₃ s₄ s₅ := by
  have hwords : argv shortLine.1 = [slash] :: [[0x61]] := by decide
  rw [hwords] at hstore
  obtain ⟨s, n, d, m, sp, b, k, hboot, hrunnable, hunused, hroom, himaged, -, -, hsize, hstate,
    hend, h₁⟩ := machine_spawns R hwords hstore
  obtain ⟨r, k₁, k₂, k₃, hexit, hstate₁, hfind, hexited, hdrop, hclose⟩ := hend
  have hr : Machine.Reached R copy machine P s := .boot hboot
  have hr₁ := hr.step (hspawn s hsize) h₁
  obtain ⟨own₁, hs₁, -⟩ := hr₁.settled hP
  generalize hm₁ : (⟨k, { m with ram := b }, _⟩ : Machine) = s₁ at h₁ hr₁ hs₁
  have hk₁ : s₁.k = k := by rw [← hm₁]
  have hfree : 4 ≤ s₁.mem.freeLeft := by
    obtain ⟨n', hn', -, hup⟩ := himaged.upTo
    have := Mem.UpTo.freeLeft hup
    have hsame : s₁.mem.freeLeft = m.freeLeft := by
      rw [← hm₁]
      exact Mem.freeLeft_congr rfl
    omega
  have hrun₁ : (s₁.k.procs 2).state = .runnable := by rw [hk₁, hstate]
  have hend₁ := (hs₁.live 2 (by simp [hrun₁])).heapEnd_le hs₁.pages
  simp only [USER_BASE, NUM_PAGES, PAGE_SIZE] at hend₁
  have hpages : s₁.heapPages 2 5000 ≤ 2 := by
    simp only [heapPages, pagesBetween, alignUp, PAGE_SIZE]
    omega
  have hneeded := s₁.pagesNeeded_le 2 5000
  obtain ⟨s₂, h₂, hb₂⟩ := hs₁.sbrk_returns copy 5000 hrun₁ (by decide)
    (by omega) (by omega)
  have hr₂ := hr₁.step (hsbrk _ _ _ _) h₂
  obtain ⟨own₂, hs₂, -⟩ := hr₂.settled hP
  have hrun₂ : (s₂.k.procs 2).state = .runnable := by rw [hb₂.kern]; exact hrun₁
  have hle := (hs₁.live 2 (by simp [hrun₁])).le
  obtain ⟨s₃, h₃, hb₃⟩ := hs₂.sbrk_shrinks copy (-4096) hrun₂ (by decide)
    (by have := hb₂.start; have := hb₂.stop; omega)
  have hr₃ := hr₂.step (hsbrk _ _ _ _) h₃
  have hk₃ : { s₃.k with current := some 2 } = { k with current := some 2 } := by
    rw [hb₃.kern, hb₂.kern, hk₁]
  have hrun₃ : (s₃.k.procs 2).state = .runnable := by rw [hb₃.kern]; exact hrun₂
  have h₄ : Machine.step R copy 2 (.call .exit) s₃ = .ok r { s₃ with k := k₁ } := by
    rw [step_act hrun₃, hk₃]
    exact onKern_run (s := { s₃ with k := { k with current := some 2 } }) hexit
  have hr₄ := hr₃.step (hexits _ _ _) h₄
  obtain ⟨own₄, hs₄, -⟩ := hr₄.settled hP
  have hs₄' : Settled R { s₃ with k := { k₁ with current := some 1 } } own₄ :=
    hs₄.of_states rfl rfl fun _ => Iff.rfl
  obtain ⟨s₅, h₅, hdead⟩ := hs₄'.waitProcess_returns hfind hexited hdrop hclose
  have h₅ : Machine.step R copy 1 (.call (.wait 3)) { s₃ with k := k₁ } = .ok 0 s₅ :=
    (step_act hstate₁).trans h₅
  refine ⟨s, s₁, s₂, s₃, _, s₅, h₁, h₂, h₃, ⟨r, h₄⟩, h₅, ?_, ?_, ?_⟩
  · simp only [List.forall_mem_cons]
    exact ⟨hr, hr₁, hr₂, hr₃, hr₄, hr₄.step (hwaits _ _ _ _) h₅, by simp⟩
  · simp [Live, hrun₁, hrun₂, hrun₃, hexited]
  · simp only [List.forall_mem_cons]
    exact ⟨fun hlive => hlive hunused, hdead, by simp⟩

end Dmaos
