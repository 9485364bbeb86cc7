import Dmaos.Handle.Steady
import Dmaos.Lib.Actions
import Dmaos.System.Coherence
import Dmaos.System.References

/-!
# Waiting for a process

`wait_process` looks for the process with a pid, gives up the processor while it
runs, and looks for the pid again.  Other calls are made in between.  A pid is the
number of a slot, and a slot is used again once its process has been reaped, so
the process found may be another one than before.

Each process that is created is given a number here, which the kernel does not
have: `inst` is the number of the process in a slot.  A call of `wait` is for the
process that had the pid when the call began, its `target`.

The target has ended when the call returns, and no process is reaped twice, in all
runs.  But a call may wait for another process and reap it (`wait_for_another`),
if the slot is used again while the call is in progress.  If this does not happen,
a call has to do with its target only (`waits_for_target`).
-/

namespace Dmaos

open Fault Actions Function

variable {p q : Fin PROCS_MAX} {c : Syscall} {pid : Int} {σ σ' : Sched} {k : KState} {w : Waiting}
  {u : Unit} {a : SchedAction}

/-! ## Calls of `wait` in progress -/

/-- A call of `wait_process`, and the process it was made for. -/
structure Waiting where
  pid : Int
  target : Nat
  deriving DecidableEq

/-- The kernel, the calls of `wait` in progress, and what has happened. -/
structure Sched where
  k : KState
  /-- The process in a slot. -/
  inst : Fin PROCS_MAX → Nat
  /-- The number of the next process. -/
  clock : Nat
  waiting : Fin PROCS_MAX → Option Waiting
  /-- The processes that have ended. -/
  exited : List Nat
  /-- The process each turn of a call of `wait` has found. -/
  turns : List (Waiting × Nat)
  reaped : List Nat
  /-- The calls that have returned 0. -/
  returned : List Waiting

namespace Sched

/-- A system call of process `p` has led to state `k`. -/
def after (σ : Sched) (p : Fin PROCS_MAX) (k : KState) : Sched :=
  { σ with
    k := k
    inst := fun q =>
      if (σ.k.procs q).state = .unused ∧ (k.procs q).state ≠ .unused then σ.clock else σ.inst q
    clock := σ.clock + 1
    exited := if (k.procs p).state = .exited then σ.inst p :: σ.exited else σ.exited }

/-- One turn of the loop of `wait_process`. -/
def turn (σ : Sched) (p : Fin PROCS_MAX) (w : Waiting) : Option Sched :=
  match findPid σ.k w.pid with
  | none =>
    some { σ with
      waiting := update σ.waiting p none
      returned := w :: σ.returned }
  | some q =>
    if (σ.k.procs q).state = .exited then
      match reap q σ.k with
      | .ok _ k =>
        some { σ with
          k := k
          waiting := update σ.waiting p none
          turns := (w, σ.inst q) :: σ.turns
          reaped := σ.inst q :: σ.reaped
          returned := w :: σ.returned }
      | .error _ _ => none
    else
      -- `yield`
      some { σ with
        waiting := update σ.waiting p (some w)
        turns := (w, σ.inst q) :: σ.turns }

end Sched

/-- A process that can run goes on. -/
inductive SchedAction where
  /-- It makes a system call other than `wait`. -/
  | call (p : Fin PROCS_MAX) (c : Syscall)
  /-- It calls `wait`. -/
  | wait (p : Fin PROCS_MAX) (pid : Int)
  /-- It comes back from `yield` in `wait`. -/
  | resume (p : Fin PROCS_MAX)

namespace Syscall

/-- Is it a call of `wait`? -/
def isWait : Syscall → Bool
  | .wait _ => true
  | _ => false

end Syscall

namespace Sched

def next : SchedAction → Sched → Option Sched
  | .call p c, σ =>
    if σ.waiting p = none ∧ c.isWait = false then
      match step p c σ.k with
      | .ok _ k => some (σ.after p k)
      | .error _ _ => none
    else none
  | .wait p pid, σ =>
    if σ.waiting p = none ∧ (σ.k.procs p).state = .runnable then
      match findPid σ.k pid with
      | none => some σ
      | some q => σ.turn p ⟨pid, σ.inst q⟩
    else none
  | .resume p, σ =>
    match σ.waiting p with
    | none => none
    | some w => if (σ.k.procs p).state = .runnable then σ.turn p w else none

/-- No call has been made yet. -/
def initial (k : KState) : Sched where
  k := k
  inst q := q
  clock := PROCS_MAX
  waiting _ := none
  exited := []
  turns := []
  reaped := []
  returned := []

/-- A slot is not used again while a call of `wait` for its pid is in progress. -/
def Keeps : SchedAction → Sched → Prop
  | .call _ c, σ =>
    c.isSpawn = true → ∀ q ∈ findProc σ.k, ∀ p, ∀ w ∈ σ.waiting p, w.pid ≠ (q : Nat) + 1
  | _, _ => True

instance (a : SchedAction) (σ : Sched) : Decidable (Keeps a σ) := by
  unfold Keeps
  split <;> infer_instance

end Sched

/-! ## What a call does to the processes -/

/-- What a call of process `p` may make of the entry of process `q`. -/
inductive Becomes (p : Fin PROCS_MAX) (c : Syscall) (s s' : KState) (q : Fin PROCS_MAX) :
    Prop where
  | kept (pid : (s'.procs q).pid = (s.procs q).pid) (state : (s'.procs q).state = (s.procs q).state)
  | ended (self : q = p) (before : (s.procs q).state = .runnable)
      (after : (s'.procs q).state = .exited) (pid : (s'.procs q).pid = (s.procs q).pid)
  | made (spawns : c.isSpawn = true) (free : findProc s = some q)
    (after : (s'.procs q).state = .runnable)
      (pid : (s'.procs q).pid = (q : Nat) + 1)

section Becomes

variable {s s' : KState} {r : Int}

theorem step_becomes (hc : c.isWait = false) (hx : step p c s = .ok r s') (q : Fin PROCS_MAX) :
    Becomes p c s s' q := by
  have hrun := step_runnable hx
  rw [step_eq hrun] at hx
  cases c with
  | spawn cmdline =>
      obtain hs | ⟨n, hn, hs, hstate, hpid⟩ := spawnProcess_procs hx
      · exact .kept (hs.pid q) (hs.state q)
      · by_cases hq : q = n
        · subst hq
          exact .made rfl hn hstate hpid
        · exact .kept (hs.pid q hq) (hs.state q hq)
  | exit =>
      obtain ⟨u, t, he, hx⟩ := bind_ok.mp hx
      obtain ⟨-, rfl⟩ := pure_ok.mp hx
      obtain ⟨hs, hstate, hpid⟩ := exitCurrentProcess_procs rfl he
      by_cases hq : q = p
      · subst hq
        exact .ended rfl hrun hstate hpid
      · exact .kept (hs.pid q hq) (hs.state q hq)
  | wait pid => cases hc
  | _ =>
      have hs := Steady.of_call hx trivial
      exact .kept (hs.pid q) (hs.state q)

theorem findPid_some (h : findPid s pid = some q) :
    (s.procs q).state ≠ .unused ∧ (s.procs q).pid = pid := by
  simpa using List.find?_some h

theorem findPid_none (h : findPid s pid = none) (hu : (s.procs q).state ≠ .unused) :
    (s.procs q).pid ≠ pid := by
  have := List.find?_eq_none.mp h q (List.mem_finRange q)
  simpa [hu] using this

end Becomes

/-! ## In all runs -/

namespace Sched

/-- What holds in all runs. -/
structure Inv (σ : Sched) : Prop where
  /-- The pid of a process is that of its slot; the idle process has pid 0. -/
  pids : ∀ q, (σ.k.procs q).state ≠ .unused →
    (σ.k.procs q).pid = (q : Nat) + 1 ∨ q = 0 ∧ (σ.k.procs q).pid = 0
  inj : ∀ q r, σ.inst q = σ.inst r → q = r
  lt : ∀ q, σ.inst q < σ.clock
  exited : ∀ q, (σ.k.procs q).state = .exited → σ.inst q ∈ σ.exited
  reaped : ∀ i ∈ σ.reaped, i < σ.clock ∧ ∀ q, σ.inst q = i → (σ.k.procs q).state = .unused
  nodup : σ.reaped.Nodup
  /-- The target of a call has ended or is still there. -/
  targets : ∀ p w, σ.waiting p = some w → w.target ∈ σ.exited ∨
    ∃ q, σ.inst q = w.target ∧ (σ.k.procs q).state ≠ .unused ∧ (σ.k.procs q).pid = w.pid
  returned : ∀ w ∈ σ.returned, w.target ∈ σ.exited

section Inv

variable {r : Fin PROCS_MAX}

/-- No two processes have the same pid. -/
theorem Inv.pid_inj (h : σ.Inv) (hq : (σ.k.procs q).state ≠ .unused)
    (hr : (σ.k.procs r).state ≠ .unused) (heq : (σ.k.procs q).pid = (σ.k.procs r).pid) : q = r := by
  have h1 := h.pids q hq
  have h2 := h.pids r hr
  rw [heq] at h1
  omega

/-- A call leaves a process in its slot or makes a new one. -/
theorem after_cases (hb : Becomes p c σ.k k q) :
    (σ.after p k).inst q = σ.inst q ∧ (k.procs q).pid = (σ.k.procs q).pid ∧
        ((k.procs q).state = .unused ↔ (σ.k.procs q).state = .unused) ∧
        ((k.procs q).state = .exited → (σ.k.procs q).state = .exited ∨ q = p) ∨
      (σ.after p k).inst q = σ.clock ∧ findProc σ.k = some q ∧ (k.procs q).state = .runnable ∧
        (k.procs q).pid = (q : Nat) + 1 ∧ c.isSpawn = true := by
  have hinst : (σ.after p k).inst q =
      if (σ.k.procs q).state = .unused ∧ (k.procs q).state ≠ .unused then σ.clock
      else σ.inst q := rfl
  cases hb with
  | kept pid state =>
      refine Or.inl ⟨?_, pid, by rw [state], fun he => Or.inl (by rw [← state, he])⟩
      rw [hinst, state, if_neg fun hc => hc.2 hc.1]
  | ended self before after pid =>
      refine Or.inl ⟨?_, pid, by simp [before, after], fun _ => Or.inr self⟩
      rw [hinst, before, if_neg fun hc => by cases hc.1]
  | made spawns free after pid =>
      refine Or.inr ⟨?_, free, after, pid, spawns⟩
      rw [hinst, if_pos ⟨findProc_unused free, by simp [after]⟩]

theorem mem_exited_after {i : Nat} (hi : i ∈ σ.exited) : i ∈ (σ.after p k).exited := by
  show i ∈ if (k.procs p).state = .exited then σ.inst p :: σ.exited else σ.exited
  split_ifs
  · exact List.mem_cons_of_mem _ hi
  · exact hi

theorem Inv.after (h : σ.Inv) (hb : ∀ q, Becomes p c σ.k k q) : (σ.after p k).Inv where
  pids q hq := by
    obtain ⟨-, hpid, hun, -⟩ | ⟨-, -, -, hpid, -⟩ := after_cases (hb q)
    · have := h.pids q fun hu => hq (hun.mpr hu)
      rwa [← hpid] at this
    · exact Or.inl hpid
  inj q r heq := by
    obtain ⟨hq, -⟩ | ⟨hq, hfree, -⟩ := after_cases (hb q)
    · obtain ⟨hr, -⟩ | ⟨hr, -⟩ := after_cases (hb r)
      · exact h.inj q r (by rw [← hq, heq, hr])
      · have := h.lt q
        omega
    · obtain ⟨hr, -⟩ | ⟨hr, hfree', -⟩ := after_cases (hb r)
      · have := h.lt r
        omega
      · rw [hfree] at hfree'
        exact Option.some.inj hfree'
  lt q := by
    show (σ.after p k).inst q < σ.clock + 1
    obtain ⟨hq, -⟩ | ⟨hq, -⟩ := after_cases (hb q)
    · have := h.lt q
      omega
    · omega
  exited q hq := by
    replace hq : (k.procs q).state = .exited := hq
    obtain ⟨hinst, -, -, hstate⟩ | ⟨-, -, hrun, -⟩ := after_cases (hb q)
    · rw [hinst]
      cases hstate hq with
      | inl hold => exact mem_exited_after (h.exited q hold)
      | inr hself =>
          show σ.inst q ∈ if (k.procs p).state = .exited then σ.inst p :: σ.exited else σ.exited
          rw [← hself, if_pos hq]
          exact List.mem_cons_self
    · rw [hrun] at hq
      cases hq
  reaped i hi := by
    obtain ⟨hlt, hun⟩ := h.reaped i hi
    refine ⟨Nat.lt_succ_of_lt hlt, fun q hq => ?_⟩
    obtain ⟨hinst, -, hiff, -⟩ | ⟨hinst, -⟩ := after_cases (hb q)
    · exact hiff.mpr (hun q (by rw [← hinst, hq]))
    · omega
  nodup := h.nodup
  targets p' w hw := by
    obtain hex | ⟨q, hq, hu, hpid⟩ := h.targets p' w hw
    · exact Or.inl (mem_exited_after hex)
    · obtain ⟨hinst, hp, hiff, -⟩ | ⟨-, hfree, -⟩ := after_cases (hb q)
      · exact Or.inr ⟨q, by rw [hinst, hq], fun h0 => hu (hiff.mp h0), hp.trans hpid⟩
      · exact absurd (findProc_unused hfree) hu
  returned w hw := mem_exited_after (h.returned w hw)

/-- The process a call of `wait` is for. -/
def Target (σ : Sched) (w : Waiting) : Prop :=
  w.target ∈ σ.exited ∨
    ∃ q, σ.inst q = w.target ∧ (σ.k.procs q).state ≠ .unused ∧ (σ.k.procs q).pid = w.pid

/-- If the process found has ended, so has the target. -/
theorem Inv.target_exited (h : σ.Inv) (hw : σ.Target w) (hf : findPid σ.k w.pid = some q)
    (hex : (σ.k.procs q).state = .exited) : w.target ∈ σ.exited := by
  obtain hmem | ⟨r, hr, hu, hpid⟩ := hw
  · exact hmem
  · obtain ⟨hq, hqpid⟩ := findPid_some hf
    obtain rfl := h.pid_inj hu hq (hpid.trans hqpid.symm)
    rw [← hr]
    exact h.exited _ hex

theorem Inv.reap (h : σ.Inv) (hw : σ.Target w) (hf : findPid σ.k w.pid = some q)
    (hex : (σ.k.procs q).state = .exited) (hx : Dmaos.reap q σ.k = .ok u k) :
    Inv { σ with
      k := k
      waiting := update σ.waiting p none
      turns := (w, σ.inst q) :: σ.turns
      reaped := σ.inst q :: σ.reaped
      returned := w :: σ.returned } := by
  obtain ⟨hs, hfree⟩ := reap_procs hx
  have hstate : ∀ r, (k.procs r).state ≠ .unused → r ≠ q ∧
      (k.procs r).pid = (σ.k.procs r).pid ∧ (k.procs r).state = (σ.k.procs r).state := by
    intro r hr
    have hne : r ≠ q := by
      rintro rfl
      exact hr hfree
    exact ⟨hne, hs.pid r hne, hs.state r hne⟩
  exact
    { pids := fun r hr => by
        obtain ⟨-, hpid, hst⟩ := hstate r hr
        rw [hpid]
        exact h.pids r (by rwa [← hst])
      inj := h.inj
      lt := h.lt
      exited := fun r hr => by
        obtain ⟨-, -, hst⟩ := hstate r (by rw [hr]; decide)
        exact h.exited r (by rw [← hst, hr])
      reaped := fun i hi => by
        cases hi with
        | head =>
            refine ⟨h.lt q, fun r hr => ?_⟩
            rw [h.inj r q hr]
            exact hfree
        | tail _ hi =>
            obtain ⟨hlt, hun⟩ := h.reaped i hi
            refine ⟨hlt, fun r hr => ?_⟩
            by_contra hu
            obtain ⟨-, -, hst⟩ := hstate r hu
            exact hu (by rw [hst, hun r hr])
      nodup := by
        refine List.nodup_cons.mpr ⟨fun hmem => ?_, h.nodup⟩
        have := (h.reaped _ hmem).2 q rfl
        rw [hex] at this
        cases this
      targets := fun p' w' hw' => by
        replace hw' : update σ.waiting p none p' = some w' := hw'
        rw [update_apply] at hw'
        split_ifs at hw' with hp
        obtain hmem | ⟨r, hr, hu, hpid⟩ := h.targets p' w' hw'
        · exact Or.inl hmem
        · by_cases hrq : r = q
          · subst hrq
            exact Or.inl (hr ▸ h.exited _ hex)
          · refine Or.inr ⟨r, hr, ?_, (hs.pid r hrq).trans hpid⟩
            show (k.procs r).state ≠ .unused
            rwa [hs.state r hrq]
      returned := fun w' hw' => by
        cases hw' with
        | head => exact h.target_exited hw hf hex
        | tail _ hw' => exact h.returned w' hw' }

theorem Inv.turn (h : σ.Inv) (hw : σ.Target w) (hx : σ.turn p w = some σ') : σ'.Inv := by
  unfold Sched.turn at hx
  split at hx
  · next hnone =>
      cases hx
      refine ⟨h.pids, h.inj, h.lt, h.exited, h.reaped, h.nodup, fun p' w' hw' => ?_,
        fun w' hw' => ?_⟩
      · replace hw' : update σ.waiting p none p' = some w' := hw'
        rw [update_apply] at hw'
        split_ifs at hw' with hp
        exact h.targets p' w' hw'
      · cases hw' with
        | head =>
            obtain hmem | ⟨q, -, hu, hpid⟩ := hw
            · exact hmem
            · exact absurd hpid (findPid_none hnone hu)
        | tail _ hw' => exact h.returned w' hw'
  · next q hf =>
      split at hx
      · next hex =>
          split at hx
          · next u k hr =>
              cases hx
              exact h.reap hw hf hex hr
          · cases hx
      · cases hx
        refine ⟨h.pids, h.inj, h.lt, h.exited, h.reaped, h.nodup, fun p' w' hw' => ?_, h.returned⟩
        replace hw' : update σ.waiting p (some w) p' = some w' := hw'
        rw [update_apply] at hw'
        split_ifs at hw' with hp
        · cases hw'
          exact hw
        · exact h.targets p' w' hw'

theorem Inv.next (h : σ.Inv) (hx : next a σ = some σ') : σ'.Inv := by
  cases a with
  | call p c =>
      simp only [Sched.next] at hx
      split at hx
      · next hc =>
          split at hx
          · next r k hk =>
              cases hx
              exact h.after (step_becomes hc.2 hk)
          · cases hx
      · cases hx
  | wait p pid =>
      simp only [Sched.next] at hx
      split at hx
      · split at hx
        · cases hx
          exact h
        · next q hf =>
            obtain ⟨hu, hpid⟩ := findPid_some hf
            exact h.turn (Or.inr ⟨q, rfl, hu, hpid⟩) hx
      · cases hx
  | resume p =>
      simp only [Sched.next] at hx
      split at hx
      · cases hx
      · next w hw =>
          split at hx
          · exact h.turn (h.targets p w hw) hx
          · cases hx

end Inv

/-! ## While no slot is used again too soon -/

/-- The calls of `wait` have to do with their targets only. -/
structure Sole (σ : Sched) : Prop where
  waiting : ∀ p w, σ.waiting p = some w → ∀ q, (σ.k.procs q).state ≠ .unused →
    (σ.k.procs q).pid = w.pid → σ.inst q = w.target
  turns : ∀ t ∈ σ.turns, t.2 = t.1.target

section Sole

theorem Sole.after (h : σ.Sole) (hk : Keeps (.call p c) σ) (hb : ∀ q, Becomes p c σ.k k q) :
    (σ.after p k).Sole := by
  refine ⟨fun p' w hw q hq hpid => ?_, h.turns⟩
  replace hpid : (k.procs q).pid = w.pid := hpid
  obtain ⟨hinst, hp, hiff, -⟩ | ⟨-, hfree, -, hp, hspawn⟩ := after_cases (hb q)
  · rw [hinst]
    exact h.waiting p' w hw q (fun hu => hq (hiff.mpr hu)) (by rw [← hp, hpid])
  · exact absurd (hpid.symm.trans hp) (hk hspawn q hfree p' w hw)

theorem Sole.turn (h : σ.Sole)
    (hw : ∀ q, (σ.k.procs q).state ≠ .unused → (σ.k.procs q).pid = w.pid → σ.inst q = w.target)
    (hx : σ.turn p w = some σ') : σ'.Sole := by
  unfold Sched.turn at hx
  split at hx
  · cases hx
    refine ⟨fun p' w' hw' => ?_, h.turns⟩
    replace hw' : update σ.waiting p none p' = some w' := hw'
    rw [update_apply] at hw'
    split_ifs at hw' with hp
    exact h.waiting p' w' hw'
  · next q hf =>
      obtain ⟨hu, hpid⟩ := findPid_some hf
      have hturns : ∀ t ∈ (w, σ.inst q) :: σ.turns, t.2 = t.1.target :=
        List.forall_mem_cons.mpr ⟨hw q hu hpid, h.turns⟩
      split at hx
      · split at hx
        · next u k hr =>
            cases hx
            obtain ⟨hs, hfree⟩ := reap_procs hr
            refine ⟨fun p' w' hw' r hr hrpid => ?_, hturns⟩
            replace hw' : update σ.waiting p none p' = some w' := hw'
            rw [update_apply] at hw'
            split_ifs at hw' with hp
            have hne : r ≠ q := by
              rintro rfl
              exact hr hfree
            refine h.waiting p' w' hw' r ?_ ((hs.pid r hne).symm.trans hrpid)
            rw [← hs.state r hne]
            exact hr
        · cases hx
      · cases hx
        refine ⟨fun p' w' hw' => ?_, hturns⟩
        replace hw' : update σ.waiting p (some w) p' = some w' := hw'
        rw [update_apply] at hw'
        split_ifs at hw' with hp
        · cases hw'
          exact hw
        · exact h.waiting p' w' hw'

theorem Sole.next (h : σ.Sole) (hI : σ.Inv) (hk : Keeps a σ)
    (hx : next a σ = some σ') : σ'.Sole := by
  cases a with
  | call p c =>
      simp only [Sched.next] at hx
      split at hx
      · next hc =>
          split at hx
          · next r k hstep =>
              cases hx
              exact h.after hk (step_becomes hc.2 hstep)
          · cases hx
      · cases hx
  | wait p pid =>
      simp only [Sched.next] at hx
      split at hx
      · split at hx
        · cases hx
          exact h
        · next q hf =>
            obtain ⟨hu, hpid⟩ := findPid_some hf
            refine h.turn (fun r hr hrpid => ?_) hx
            rw [hI.pid_inj hr hu (hrpid.trans hpid.symm)]
      · cases hx
  | resume p =>
      simp only [Sched.next] at hx
      split at hx
      · cases hx
      · next w hw =>
          split at hx
          · exact h.turn (h.waiting p w hw) hx
          · cases hx

end Sole

end Sched

/-! ## From boot on -/

section Boot

variable {d0 d1 : Device}

/-- After boot no process has ended, and each has the pid of its slot but the idle
process. -/
theorem boot_procs (hx : boot (coldState d0 d1) = .ok u k) (q : Fin PROCS_MAX) :
    (k.procs q).state = .unused ∨ (k.procs q).state = .runnable ∧
      ((k.procs q).pid = (q : Nat) + 1 ∨ q = 0 ∧ (k.procs q).pid = 0) := by
  obtain ⟨u₁, t, h₁, hx⟩ := bind_ok.mp hx
  have hunused : ∀ q, (t.procs q).state = .unused := (Steady.fsInit.of_ok h₁).state
  obtain ⟨o, t₁, h₂, hx⟩ := bind_ok.mp hx
  obtain ⟨rfl, -⟩ | ⟨p, rfl, hfree, hs, hrun, -⟩ := createProcess_procs h₂
  · cases hx
  · -- The idle process is in the first slot.
    rw [findProc_zero (hunused 0)] at hfree
    cases hfree
    replace hx := modify_then hx
    have hidle : ∀ q, (t₁.procs q).state = .unused ∨ q = 0 := by
      intro q
      by_cases hq : q = 0
      · exact Or.inr hq
      · exact Or.inl (by rw [hs.state q hq, hunused])
    have ht₂ : ∀ q, (t₁.putProc 0 { t₁.procs 0 with pid := 0 }).procs q =
        if q = 0 then { t₁.procs 0 with pid := 0 } else t₁.procs q :=
      fun q => update_apply ..
    have hprocs : ∀ q, ((t₁.putProc 0 { t₁.procs 0 with pid := 0 }).procs q).state = .unused ∨
        q = 0 ∧ ((t₁.putProc 0 { t₁.procs 0 with pid := 0 }).procs q).state = .runnable ∧
          ((t₁.putProc 0 { t₁.procs 0 with pid := 0 }).procs q).pid = 0 := by
      intro q
      rw [ht₂]
      split_ifs with hq
      · exact Or.inr ⟨hq, hrun, rfl⟩
      · exact Or.inl ((hidle q).resolve_right hq)
    obtain ⟨o, t₃, h₄, hx⟩ := bind_ok.mp hx
    obtain ⟨-, rfl⟩ := pure_ok.mp hx
    have hkeep : (t₃.procs q).state =
          ((t₁.putProc 0 { t₁.procs 0 with pid := 0 }).procs q).state →
        (t₃.procs q).pid = ((t₁.putProc 0 { t₁.procs 0 with pid := 0 }).procs q).pid →
        (t₃.procs q).state = .unused ∨ (t₃.procs q).state = .runnable ∧
          ((t₃.procs q).pid = (q : Nat) + 1 ∨ q = 0 ∧ (t₃.procs q).pid = 0) := by
      intro hstate hpid
      rw [hstate, hpid]
      obtain hu | ⟨hq, hr, hp⟩ := hprocs q
      · exact Or.inl hu
      · exact Or.inr ⟨hr, Or.inr ⟨hq, hp⟩⟩
    obtain ⟨-, hs₃⟩ | ⟨p, -, -, hs₃, hrun₃, hpid₃⟩ := createProcess_procs h₄
    · exact hkeep (hs₃.state q) (hs₃.pid q)
    · by_cases hq : q = p
      · subst hq
        exact Or.inr ⟨hrun₃, Or.inl hpid₃⟩
      · exact hkeep (hs₃.state q hq) (hs₃.pid q hq)

theorem Sched.Inv.initial (hx : boot (coldState d0 d1) = .ok u k) : (initial k).Inv where
  pids q hq := by
    obtain hu | ⟨-, hpid⟩ := boot_procs hx q
    · exact absurd hu hq
    · exact hpid
  inj q r heq := Fin.ext heq
  lt q := q.isLt
  exited q hq := by
    replace hq : (k.procs q).state = .exited := hq
    obtain hu | ⟨hr, -⟩ := boot_procs hx q
    · rw [hu] at hq
      cases hq
    · rw [hr] at hq
      cases hq
  reaped i hi := by cases hi
  nodup := List.nodup_nil
  targets p w hw := by cases hw
  returned w hw := by cases hw

/-- In every run in which no slot is used again while a call of `wait` for its pid
is in progress: a call returns 0 only when its target has ended, it waits for and
reaps its target only, and no process is reaped twice. -/
theorem waits_for_target (hx : boot (coldState d0 d1) = .ok u k)
    (h : Reaches Sched.next Sched.Keeps (.initial k) σ) :
    (∀ w ∈ σ.returned, w.target ∈ σ.exited) ∧ (∀ t ∈ σ.turns, t.2 = t.1.target) ∧
      σ.reaped.Nodup := by
  have hinv : σ.Inv ∧ σ.Sole := by
    refine h.invariant (I := fun σ => σ.Inv ∧ σ.Sole) ⟨.initial hx, ?_, ?_⟩
      fun ⟨hI, hS⟩ hP hx => ⟨hI.next hx, hS.next hI hP hx⟩
    · intro p w hw
      cases hw
    · intro t ht
      cases ht
  exact ⟨hinv.1.returned, hinv.2.turns, hinv.1.nodup⟩

end Boot

/-- The program `/home/a`. -/
def programA : Syscall := .spawn pathA

/-- The shell spawns a process and waits for it; while it waits, the process spawns
another one and ends. -/
theorem waits_for_target_child :
    ∃ k σ, boot (coldState systemDisk emptyDisk) = .ok () k ∧
      Reaches Sched.next Sched.Keeps (.initial k) σ ∧
      σ.returned = [⟨3, 9⟩] ∧ σ.reaped = [9] ∧ ∀ t ∈ σ.turns, t.2 = t.1.target := by
  have hrun : (match boot (coldState systemDisk emptyDisk) with
      | .ok _ k => (perform Sched.next Sched.Keeps
          [.call 1 (.open pathA (FILECTRL_WRITEONLY ||| FILECTRL_CREATE)), .call 1 programA,
            .wait 1 3, .call 2 programA, .resume 1, .call 2 .exit, .resume 1]
          (.initial k)).any fun σ => decide (σ.returned = [⟨3, 9⟩] ∧ σ.reaped = [9])
      | .error _ _ => false) = true := by decide +kernel
  cases hb : boot (coldState systemDisk emptyDisk) with
  | error e k =>
      rw [hb] at hrun
      cases hrun
  | ok u k =>
      simp only [hb] at hrun
      obtain ⟨σ, hσ, hQ⟩ := Reaches.of_perform hrun
      obtain ⟨hret, hreap⟩ := of_decide_eq_true hQ
      exact ⟨k, σ, rfl, hσ, hret, hreap, (waits_for_target hb hσ).2.1⟩

/-- The shell and a process wait for the same process, number 9.  When it ends, the
other process reaps it and spawns a new one, number 13, which gets its slot and its
pid.  The call of the shell waits for the new process and reaps it. -/
theorem wait_for_another :
    ∃ k σ, boot (coldState systemDisk emptyDisk) = .ok () k ∧
      Reaches Sched.next (fun _ _ => True) (.initial k) σ ∧
      σ.turns.take 2 = [(⟨3, 9⟩, 13), (⟨3, 9⟩, 13)] ∧ σ.reaped = [13, 9] ∧
      σ.returned = [⟨3, 9⟩, ⟨3, 9⟩] := by
  have hrun : (match boot (coldState systemDisk emptyDisk) with
      | .ok _ k => (perform Sched.next (fun _ _ => True)
          [.call 1 (.open pathA (FILECTRL_WRITEONLY ||| FILECTRL_CREATE)), .call 1 programA,
            .call 1 programA, .wait 1 3, .call 2 .other, .wait 3 3, .resume 1, .call 2 .exit,
            .resume 3, .call 3 programA, .call 3 .other, .resume 1, .call 2 .exit, .call 3 .other,
            .resume 1]
          (.initial k)).any fun σ => decide (σ.turns.take 2 = [(⟨3, 9⟩, 13), (⟨3, 9⟩, 13)] ∧
            σ.reaped = [13, 9] ∧ σ.returned = [⟨3, 9⟩, ⟨3, 9⟩])
      | .error _ _ => false) = true := by decide +kernel
  cases hb : boot (coldState systemDisk emptyDisk) with
  | error e k =>
      rw [hb] at hrun
      cases hrun
  | ok u k =>
      simp only [hb] at hrun
      obtain ⟨σ, hσ, hQ⟩ := Reaches.of_perform hrun
      exact ⟨k, σ, rfl, hσ, of_decide_eq_true hQ⟩

end Dmaos
