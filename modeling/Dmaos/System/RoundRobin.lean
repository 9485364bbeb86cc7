import Dmaos.Handle.Steady
import Dmaos.Lib.Approach
import Dmaos.System.Ownership

/-!
# The scheduler

`yield` gives the processor to the next process that can run: it looks at the slots of
the process table in turn, beginning after the slot of the current process, and at the
end at that slot itself.  The place where it begins is computed from the pid of the
current process, which is the number of its slot plus one, but zero for the idle process.

Processes are created, end and are reaped between two calls of `yield`.  As long as a
process can run, no other one gets the processor twice before it does (`round_robin`):
in cyclic order every choice is closer to the slot of the process that waits.
-/

namespace Dmaos

open Fault Function

variable {s s' t : KState} {c p q idle : Fin PROCS_MAX} {u : Unit} {d0 d1 : Device}
  {qs : List (Fin PROCS_MAX)}

/-! ## `yield` -/

/-- `&procs[n]`. -/
def procIndex (n : Int) : Kern (Fin PROCS_MAX) :=
  if h : 0 ≤ n ∧ n < PROCS_MAX then return ⟨n.toNat, by omega⟩
  else throw (.outOfBounds n.toNat)

/-- The loop of `yield`, from turn `i` on. -/
def yieldLoop (pid : Int) : Nat → Nat → Kern (Option (Fin PROCS_MAX))
  | 0, _ => return none
  | k + 1, i => do
    let q ← procIndex ((pid + i).tmod PROCS_MAX)
    let s ← get
    if (s.procs q).state = .runnable ∧ 0 < (s.procs q).pid then return some q
    else yieldLoop pid k (i + 1)

/-- `yield`: the process that gets the processor.  The switch to its address space and
its stack is left out. -/
def yield (idle : Fin PROCS_MAX) : Kern (Fin PROCS_MAX) := do
  let p ← currentProcess
  let s ← get
  let found ← yieldLoop (s.procs p).pid PROCS_MAX 0
  let next := found.getD idle
  if next = p then return next
  else
    modify fun s => { s with current := some next }
    return next

/-! ## Runs -/

/-- A stretch of a run, with the processes that `yield` chose.  All states of it have
property `J`.  Between calls of `yield` the current process makes system calls; the idle
process makes none. -/
inductive Stretch (idle : Fin PROCS_MAX) (J : KState → Prop) :
    KState → List (Fin PROCS_MAX) → KState → Prop where
  | done {s : KState} (hJ : J s) : Stretch idle J s [] s
  | yield {s s' t : KState} {q : Fin PROCS_MAX} {qs : List (Fin PROCS_MAX)} (hJ : J s)
      (hx : yield idle s = .ok q s') (h : Stretch idle J s' qs t) : Stretch idle J s (q :: qs) t
  | call {s s' t : KState} {p : Fin PROCS_MAX} {c : Syscall} {r : Int}
      {qs : List (Fin PROCS_MAX)} (hJ : J s) (hp : s.current = some p) (hne : p ≠ idle)
      (hrun : (s.procs p).state = .runnable) (hx : handleSyscall c s = .ok r s')
      (h : Stretch idle J s' qs t) : Stretch idle J s qs t

/-! ## The search -/

/-- How many slots are passed on the way from slot `c` to slot `p`. -/
def gap (c p : Fin PROCS_MAX) : Nat := (p + (PROCS_MAX - 1) - c) % PROCS_MAX

section Search

theorem PROCS_MAX_eq : PROCS_MAX = 8 := rfl

/-- A slot that is met before `p` is closer to `p`. -/
theorem gap_lt (hne : q ≠ p) (h : gap c q ≤ gap c p) : gap q p < gap c p := by
  have hval : (q : Nat) ≠ p := fun he => hne (Fin.ext he)
  have hc := c.isLt
  have hp := p.isLt
  have hq := q.isLt
  simp only [gap, PROCS_MAX_eq] at *
  omega

theorem gap_lt_max (c p : Fin PROCS_MAX) : gap c p < PROCS_MAX := Nat.mod_lt _ (by decide)

/-- Slot `n`, counted in a circle. -/
def slotAt (n : Nat) : Fin PROCS_MAX := ⟨n % PROCS_MAX, Nat.mod_lt n (by decide)⟩

theorem procIndex_slotAt (n i : Nat) (s : KState) :
    procIndex (((n : Int) + i).tmod PROCS_MAX) s = .ok (slotAt (n + i)) s := by
  have hmod : ((n : Int) + i).tmod PROCS_MAX = ((n + i) % PROCS_MAX : Nat) := by
    rw [← Int.natCast_add, ← Int.ofNat_tmod]
  have hlt : (n + i) % PROCS_MAX < PROCS_MAX := Nat.mod_lt _ (by decide)
  rw [hmod, procIndex, dif_pos ⟨by omega, by omega⟩]
  rfl

/-- A process that the search takes. -/
def Eligible (s : KState) (q : Fin PROCS_MAX) : Prop :=
  (s.procs q).state = .runnable ∧ 0 < (s.procs q).pid

/-- What the search found: the first slot it can take. -/
def Found (s : KState) (n i k : Nat) : Option (Fin PROCS_MAX) → Prop
  | none => ∀ j, i ≤ j → j < i + k → ¬ Eligible s (slotAt (n + j))
  | some q => ∃ j, i ≤ j ∧ j < i + k ∧ q = slotAt (n + j) ∧ Eligible s q ∧
      ∀ l, i ≤ l → l < j → ¬ Eligible s (slotAt (n + l))

theorem yieldLoop_run (n : Nat) (s : KState) :
    ∀ {k i : Nat}, ∃ o, yieldLoop n k i s = .ok o s ∧ Found s n i k o
  | 0, i => ⟨none, rfl, fun j h1 h2 => by omega⟩
  | k + 1, i => by
      rw [yieldLoop, run_bind (procIndex_slotAt n i s), 
        run_bind (show (get : Kern KState) s = .ok s s from rfl)]
      split_ifs with htake
      · exact ⟨_, rfl, i, Nat.le_refl i, by omega, rfl, htake, fun l h1 h2 => by omega⟩
      · have hskip : ∀ {l : Nat}, i ≤ l → ¬ i + 1 ≤ l → ¬ Eligible s (slotAt (n + l)) := by
          intro l h1 h2
          obtain rfl : l = i := by omega
          exact htake
        obtain ⟨o, hrun, hfound⟩ := yieldLoop_run n s (k := k) (i := i + 1)
        refine ⟨o, hrun, ?_⟩
        cases o with
        | none =>
            intro j h1 h2
            by_cases hj : i + 1 ≤ j
            · exact hfound j hj (by omega)
            · exact hskip h1 hj
        | some q =>
            obtain ⟨j, h1, h2, hq, hel, hbefore⟩ := hfound
            refine ⟨j, by omega, by omega, hq, hel, fun l hl hlt => ?_⟩
            by_cases hl' : i + 1 ≤ l
            · exact hbefore l hl' hlt
            · exact hskip hl hl'

end Search

/-! ## Pids -/

/-- The idle process is in slot 0 and has the pid 0.  The pid of any other process that
can run, and of the current one, is the number of its slot plus one. -/
structure Numbered (s : KState) : Prop where
  idle_pid : (s.procs 0).pid = 0
  idle_runs : (s.procs 0).state = .runnable
  pid : ∀ p, p ≠ 0 → (s.procs p).state = .runnable → (s.procs p).pid = (p : Nat) + 1
  current : ∃ c, s.current = some c ∧ (c ≠ 0 → (s.procs c).pid = (c : Nat) + 1)

namespace Numbered

theorem eligible_iff (h : Numbered s) : Eligible s q ↔ q ≠ 0 ∧ (s.procs q).state = .runnable := by
  constructor
  · rintro ⟨hrun, hpos⟩
    refine ⟨?_, hrun⟩
    rintro rfl
    rw [h.idle_pid] at hpos
    exact absurd hpos (by decide)
  · rintro ⟨hne, hrun⟩
    refine ⟨hrun, ?_⟩
    rw [h.pid q hne hrun]
    omega

/-- Nothing happens to the processes. -/
theorem steady (h : Numbered s) (hs : Steady s s') : Numbered s' where
  idle_pid := (hs.pid 0).trans h.idle_pid
  idle_runs := (hs.state 0).trans h.idle_runs
  pid p hne hrun := by
    rw [hs.state] at hrun
    rw [hs.pid]
    exact h.pid p hne hrun
  current := by
    obtain ⟨c, hc, hpid⟩ := h.current
    exact ⟨c, hs.current.trans hc, fun hne => (hs.pid c).trans (hpid hne)⟩

/-- The entry of a process other than the idle process changes. -/
theorem putProc (h : Numbered s) (hne : p ≠ 0) {Q : Process}
    (hpid : Q.pid = (p : Nat) + 1 ∨ Q.pid = (s.procs p).pid ∧ Q.state ≠ .runnable) :
    Numbered (s.putProc p Q) := by
  have hother : ∀ q, q ≠ p → (s.putProc p Q).procs q = s.procs q :=
    fun q hq => update_of_ne hq ..
  obtain ⟨c, hc, hcpid⟩ := h.current
  refine ⟨?_, ?_, fun q hq hrun => ?_, c, hc, fun hc0 => ?_⟩
  · rw [hother 0 (Ne.symm hne)]
    exact h.idle_pid
  · rw [hother 0 (Ne.symm hne)]
    exact h.idle_runs
  · by_cases hqp : q = p
    · subst hqp
      rw [putProc_self] at hrun ⊢
      exact hpid.resolve_right fun hno => hno.2 hrun
    · rw [hother q hqp] at hrun ⊢
      exact h.pid q hq hrun
  · by_cases hcp : c = p
    · subst hcp
      rw [putProc_self]
      rcases hpid with hpid | ⟨hpid, -⟩
      · exact hpid
      · exact hpid.trans (hcpid hc0)
    · rw [hother c hcp]
      exact hcpid hc0

theorem createProcess (h : Numbered s) {prog : Program} {o : Option (Fin PROCS_MAX)}
    (hx : createProcess prog s = .ok o s') : Numbered s' := by
  obtain ⟨t, hs, ⟨-, rfl⟩ | ⟨p, -, hfree, rfl⟩⟩ := createProcess_enters hx
  · exact h.steady hs
  · refine (h.steady hs).putProc ?_ (.inl rfl)
    rintro rfl
    have hunused : (s.procs 0).state = .unused := by simpa using List.find?_some hfree
    rw [h.idle_runs] at hunused
    cases hunused

theorem reap (h : Numbered s) (hexited : (s.procs q).state = .exited)
    (hx : Dmaos.reap q s = .ok u s') : Numbered s' := by
  obtain ⟨t, hs, rfl⟩ := reap_frees hx
  refine (h.steady hs).putProc ?_ (.inr ⟨rfl, nofun⟩)
  rintro rfl
  rw [h.idle_runs] at hexited
  cases hexited

theorem exitCurrentProcess (h : Numbered s) (hp : s.current = some p) (hne : p ≠ 0)
    (hx : exitCurrentProcess s = .ok u s') : Numbered s' := by
  obtain ⟨q, t, hc, hx⟩ := bind_ok.mp hx
  replace hc := get_then hc
  rw [hp] at hc
  obtain ⟨rfl, rfl⟩ := pure_ok.mp hc
  obtain ⟨-, rfl⟩ := modify_ok.mp hx
  exact h.putProc hne (.inr ⟨rfl, nofun⟩)

/-- A system call keeps the numbers. -/
theorem handleSyscall (h : Numbered s) {call : Syscall} {r : Int} (hp : s.current = some p)
    (hne : p ≠ 0) (hx : handleSyscall call s = .ok r s') : Numbered s' := by
  cases call with
  | spawn cmdline =>
      replace hx : spawnProcess cmdline.1 s = .ok r s' := hx
      unfold spawnProcess at hx
      split_ifs at hx
      · obtain ⟨-, rfl⟩ := pure_ok.mp hx
        exact h
      · obtain ⟨o, t, hc, hx⟩ := bind_ok.mp hx
        cases o with
        | none =>
            obtain ⟨-, rfl⟩ := pure_ok.mp hx
            exact h.createProcess hc
        | some q =>
            replace hx := get_then hx
            obtain ⟨-, rfl⟩ := pure_ok.mp hx
            exact h.createProcess hc
  | exit =>
      obtain ⟨u, t, hexit, hx⟩ := bind_ok.mp hx
      obtain ⟨-, rfl⟩ := pure_ok.mp hx
      exact h.exitCurrentProcess hp hne hexit
  | wait pid =>
      obtain rfl | ⟨q, u, hexited, hreap⟩ := waitProcess_reaps hx
      · exact h
      · exact h.reap hexited hreap
  | _ => exact h.steady (.of_call hx trivial)

/-- After boot the idle process has the processor. -/
theorem boot (hx : boot (coldState d0 d1) = .ok u s) : Numbered s ∧ s.current = some 0 := by
  obtain ⟨u₁, t, h₁, hx⟩ := bind_ok.mp hx
  have hunused : ∀ q, (t.procs q).state = .unused := (Steady.fsInit.of_ok h₁).state
  obtain ⟨o, t₁, h₂, hx⟩ := bind_ok.mp hx
  obtain ⟨t₂, hs, ⟨rfl, -⟩ | ⟨p, rfl, hfree, rfl⟩⟩ := createProcess_enters h₂
  · cases hx
  · rw [findProc_zero (hunused 0)] at hfree
    cases hfree
    replace hx := modify_then hx
    obtain ⟨o, t₄, h₄, hx⟩ := bind_ok.mp hx
    obtain ⟨-, rfl⟩ := pure_ok.mp hx
    refine ⟨createProcess ⟨?_, ?_, fun p hne hrun => ?_, 0, rfl, fun h => absurd rfl h⟩ h₄,
      (Sized.of_ok .createProcess h₄).current⟩
    · exact congrArg Process.pid (putProc_self _)
    · exact (congrArg Process.state (putProc_self _)).trans
        (congrArg Process.state (putProc_self _))
    · -- no other slot is in use yet
      have hother : ∀ Q Q', ((t₂.putProc 0 Q).putProc 0 Q').procs p = t₂.procs p := fun Q Q' =>
        (update_of_ne hne ..).trans (update_of_ne hne ..)
      have hstate : (t₂.procs p).state = .unused := (hs.state p).trans (hunused p)
      have hstate' : (t₂.procs p).state = .runnable :=
        (congrArg Process.state (hother _ _)).symm.trans hrun
      rw [hstate] at hstate'
      cases hstate'

end Numbered

/-! ## What `yield` chooses -/

/-- The choice of `yield` when slot `c` is current: the first slot in the circle that can
run, and the idle process if there is none. -/
def Chooses (s : KState) (c q : Fin PROCS_MAX) : Prop :=
  q = 0 ∧ (∀ p, p ≠ 0 → (s.procs p).state ≠ .runnable) ∨
  q ≠ 0 ∧ (s.procs q).state = .runnable ∧
    ∀ p, p ≠ 0 → (s.procs p).state = .runnable → gap c q ≤ gap c p

section Choice

/-- Every slot is met. -/
theorem exists_slotAt (n : Nat) (p : Fin PROCS_MAX) : ∃ j < PROCS_MAX, p = slotAt (n + j) := by
  have hp := p.isLt
  refine ⟨(p + (PROCS_MAX - n % PROCS_MAX)) % PROCS_MAX, Nat.mod_lt _ (by decide), Fin.ext ?_⟩
  simp only [slotAt, PROCS_MAX_eq] at hp ⊢
  omega

/-- The slots are met in the order of the circle. -/
theorem gap_slotAt_le {n i j : Nat} (hn : n = (c : Nat) + 1 ∨ n = 0 ∧ c = 0) (hij : i ≤ j)
    (hj : j < PROCS_MAX) (h0 : slotAt (n + i) ≠ 0) :
    gap c (slotAt (n + i)) ≤ gap c (slotAt (n + j)) := by
  have hc := c.isLt
  have hi : (n + i) % PROCS_MAX ≠ 0 := fun he => h0 (Fin.ext he)
  simp only [gap, slotAt, PROCS_MAX_eq] at *
  rcases hn with rfl | ⟨rfl, rfl⟩
  · omega
  · simp only [Fin.val_zero]
    omega

/-- `yield` returns, and makes its choice. -/
theorem Numbered.yield_run (h : Numbered s) : ∃ c q, s.current = some c ∧
    yield 0 s = .ok q { s with current := some q } ∧ Chooses s c q := by
  obtain ⟨c, hc, hcpid⟩ := h.current
  obtain ⟨n, hpid, hn⟩ : ∃ n : Nat, (s.procs c).pid = n ∧ (n = (c : Nat) + 1 ∨ n = 0 ∧ c = 0) := by
    by_cases hc0 : c = 0
    · subst hc0
      exact ⟨0, h.idle_pid, .inr ⟨rfl, rfl⟩⟩
    · exact ⟨c + 1, hcpid hc0, .inl rfl⟩
  obtain ⟨o, hloop, hfound⟩ := yieldLoop_run n s (k := PROCS_MAX) (i := 0)
  refine ⟨c, o.getD 0, hc, ?_, ?_⟩
  · rw [yield, run_bind (currentProcess_run hc),
      run_bind (show (get : Kern KState) s = .ok s s from rfl), hpid,
      run_bind hloop]
    by_cases hsame : o.getD 0 = c
    · simp only [hsame, if_true, ← hc]
      rfl
    · simp only [hsame, if_false]
      rfl
  · cases o with
    | none =>
        refine .inl ⟨rfl, fun p hne hrun => ?_⟩
        obtain ⟨j, hj, rfl⟩ := exists_slotAt n p
        exact hfound j (Nat.zero_le j) (by omega) (h.eligible_iff.mpr ⟨hne, hrun⟩)
    | some q =>
        obtain ⟨i, -, hi, rfl, hel, hbefore⟩ := hfound
        obtain ⟨hne, hrun⟩ := h.eligible_iff.mp hel
        refine .inr ⟨hne, hrun, fun p hp hprun => ?_⟩
        obtain ⟨j, hj, rfl⟩ := exists_slotAt n p
        refine gap_slotAt_le hn ?_ hj hne
        by_contra hlt
        exact hbefore j (Nat.zero_le j) (by omega) (h.eligible_iff.mpr ⟨hp, hprun⟩)

theorem Numbered.yield_ok (h : Numbered s) (hc : s.current = some c) (hx : yield 0 s = .ok q s') :
    s' = { s with current := some q } ∧ Chooses s c q := by
  obtain ⟨c', q', hc', hrun, hchoice⟩ := h.yield_run
  rw [hc] at hc'
  cases hc'
  rw [hx] at hrun
  cases hrun
  exact ⟨rfl, hchoice⟩

theorem Numbered.yield (h : Numbered s) (hx : yield 0 s = .ok q s') : Numbered s' := by
  obtain ⟨c, hc, -⟩ := h.current
  obtain ⟨rfl, hchoice⟩ := h.yield_ok hc hx
  refine ⟨h.idle_pid, h.idle_runs, h.pid, q, rfl, fun hne => ?_⟩
  rcases hchoice with ⟨h0, -⟩ | ⟨-, hrun, -⟩
  · exact absurd h0 hne
  · exact h.pid q hne hrun

/-- The choice is the process that waits, or closer to it. -/
theorem Chooses.approaches (h : Chooses s c q) (hp : p ≠ 0)
    (hrun : (s.procs p).state = .runnable) : q = p ∨ gap q p < gap c p := by
  rcases h with ⟨-, hnone⟩ | ⟨-, -, hfirst⟩
  · exact absurd hrun (hnone p hp)
  · by_cases hq : q = p
    · exact .inl hq
    · exact .inr (gap_lt hq (hfirst p hp hrun))

end Choice

/-! ## Stretches -/

section Runs

variable {J : KState → Prop} {s₀ : KState}

theorem Numbered.stretch (hs : Numbered s) (h : Stretch 0 J s qs t) : Numbered t := by
  induction h with
  | done _ => exact hs
  | yield _ hx _ ih => exact ih (hs.yield hx)
  | call _ hp hne _ hx _ ih => exact ih (hs.handleSyscall hp hne hx)

/-- As long as a process waits, the choices approach it. -/
theorem Stretch.approaches
    (h : Stretch 0 (fun s => (s.procs p).state = .runnable) s qs t) (hs : Numbered s)
    (hp : p ≠ 0) (hc : s.current = some c) : Approaches p (gap · p) c qs := by
  induction h generalizing c with
  | done _ => exact .nil
  | @yield s s' t q qs hJ hx _ ih =>
      obtain ⟨hs', hchoice⟩ := hs.yield_ok hc hx
      exact .cons (hchoice.approaches hp hJ) (ih (hs.yield hx) (by rw [hs']))
  | call hJ hcur hne _ hx _ ih =>
      exact ih (hs.handleSyscall hcur hne hx) ((Sized.of_ok .handleSyscall hx).current.trans hc)

/-- In every run from boot on, `yield` returns.  It chooses the idle process only if no
other process can run.  In every stretch in which a process other than the idle process
can run, another one is chosen twice only if that process is chosen in between, and it is
among any eight choices. -/
theorem round_robin (hb : boot (coldState d0 d1) = .ok u s₀) (hidle : s₀.current = some idle)
    (hrun : Stretch idle (fun _ => True) s₀ qs s) :
    (∃ q s', yield idle s = .ok q s') ∧
    (∀ s', yield idle s = .ok idle s' → ∀ p, p ≠ idle → (s.procs p).state ≠ .runnable) ∧
    ∀ p, p ≠ idle → ∀ xs t, Stretch idle (fun s => (s.procs p).state = .runnable) s xs t →
      (∀ q, q ≠ p → ∀ as bs cs, xs = as ++ q :: (bs ++ q :: cs) → p ∈ bs) ∧
      (PROCS_MAX ≤ xs.length → p ∈ xs) := by
  obtain ⟨hs₀, hcur⟩ := Numbered.boot hb
  rw [hcur] at hidle
  cases hidle
  have hs := hs₀.stretch hrun
  obtain ⟨c, q, hc, hyield, -⟩ := hs.yield_run
  refine ⟨⟨q, _, hyield⟩, fun s' hx => ?_, fun p hp xs t h => ?_⟩
  · rcases (hs.yield_ok hc hx).2 with ⟨-, hnone⟩ | ⟨hne, -⟩
    · exact hnone
    · exact absurd rfl hne
  · have happ := h.approaches hs hp hc
    refine ⟨fun q hq as bs cs hxs => ?_, fun hlen => ?_⟩
    · rw [hxs] at happ
      exact happ.mem_between hq
    · by_contra hno
      have hle := happ.length_le hno
      have hlt := gap_lt_max c p
      omega

end Runs

/-- The shell gets the processor and starts a second process, which waits. -/
theorem round_robin_spawn : ∃ s₀ s₁ s₂, boot (coldState systemDisk emptyDisk) = .ok () s₀ ∧
    yield 0 s₀ = .ok 1 s₁ ∧ handleSyscall (.spawn ⟨[slash], by decide⟩) s₁ = .ok 3 s₂ ∧
    ∀ xs t, Stretch 0 (fun s => (s.procs 2).state = .runnable) s₂ xs t →
      ∀ q, q ≠ 2 → ∀ as bs cs, xs = as ++ q :: (bs ++ q :: cs) → 2 ∈ bs := by
  have hval : value ((do
      boot
      let q ← yield 0
      let r ← handleSyscall (.spawn ⟨[slash], by decide⟩)
      return (q, r) : Kern (Fin PROCS_MAX × Int)) (coldState systemDisk emptyDisk))
      = some (1, 3) := by decide +kernel
  obtain ⟨s₂, hx⟩ := ok_of_value hval
  obtain ⟨u, s₀, hb, hx⟩ := bind_ok.mp hx
  obtain ⟨q, s₁, hy, hx⟩ := bind_ok.mp hx
  obtain ⟨r, t, hcall, hx⟩ := bind_ok.mp hx
  obtain ⟨hpair, rfl⟩ := pure_ok.mp hx
  cases hpair
  obtain ⟨hs₀, hcur⟩ := Numbered.boot hb
  obtain ⟨rfl, ⟨h0, -⟩ | ⟨-, hrun, -⟩⟩ := hs₀.yield_ok hcur hy
  · cases h0
  · have hstretch : Stretch 0 (fun _ => True) s₀ [1] t :=
      .yield trivial hy (.call trivial rfl (by decide) hrun hcall (.done trivial))
    exact ⟨s₀, _, t, hb, hy, hcall, fun xs t' h =>
      ((round_robin hb hcur hstretch).2.2 2 (by decide) xs t' h).1⟩

end Dmaos
