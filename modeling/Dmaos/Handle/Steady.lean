import Dmaos.Handle.Policy
import Dmaos.Refine.Frees

/-!
# What no call changes

No call changes the size of a device.  Which processes there are and in which
states they are is changed by three calls only: `spawn` makes a process, `exit`
ends one, and `wait` removes one that has ended.
-/

namespace Dmaos

open Fault Function

variable {prog : Program} {o : Option (Fin PROCS_MAX)} {u : Unit}

theorem Steady.fsInit : Within Steady fsInit := by
  have hsb : ∀ {dev}, Within Steady (readSuperblock dev) :=
    .bind .readBlock fun _ => .bind
      (.modify fun _ => ⟨fun _ => rfl, fun _ => rfl, fun _ => rfl, rfl⟩)
      fun _ => .ite .pure (.throw trivial)
  exact .bind hsb fun _ => .bind hsb fun _ => .bind .namei fun
    | none => .throw trivial
    | some _ => .bind .inodeAt fun _ =>
        .bind (.modify fun _ => ⟨fun _ => rfl, fun _ => rfl, fun _ => rfl, rfl⟩) fun _ => .iput

section Procs

variable {s s' : KState} {p : Fin PROCS_MAX} {r : Int}

theorem Steady.of_call {c : Syscall} (hx : Dmaos.handleSyscall c s = .ok r s')
    (hc : c.KeepsProcs) : Steady s s' :=
  .of_ok (.keepsProcs hc) hx

theorem putProc_self (Q : Process) : (s.putProc p Q).procs p = Q := update_self ..

/-- Only the entry of process `p` is not as before, and the devices have the sizes
they had. -/
structure SteadyBut (p : Fin PROCS_MAX) (s s' : KState) : Prop where
  capacity : ∀ d, (s'.disk d).capacity = (s.disk d).capacity
  pid : ∀ q, q ≠ p → (s'.procs q).pid = (s.procs q).pid
  state : ∀ q, q ≠ p → (s'.procs q).state = (s.procs q).state

theorem Steady.but (h : Steady s s') (p : Fin PROCS_MAX) : SteadyBut p s s' :=
  ⟨h.capacity, fun q _ => h.pid q, fun q _ => h.state q⟩

theorem SteadyBut.putProc {t : KState} (h : SteadyBut p s t) (Q : Process) :
    SteadyBut p s (t.putProc p Q) where
  capacity := h.capacity
  pid q hq := by
    rw [← h.pid q hq]
    exact congrArg Process.pid (update_of_ne hq ..)
  state q hq := by
    rw [← h.state q hq]
    exact congrArg Process.state (update_of_ne hq ..)

/-- `create_process` enters the process in the first free slot at its end. -/
theorem createProcess_enters (hx : createProcess prog s = .ok o s') :
    ∃ t, Steady s t ∧ (o = none ∧ s' = t ∨ ∃ p, o = some p ∧ findProc s = some p ∧
      s' = t.putProc p { t.procs p with pid := (p : Nat) + 1, state := .runnable }) := by
  replace hx := get_then hx
  cases hf : findProc s with
  | none =>
      simp only [hf] at hx
      cases hx
  | some p =>
      simp only [hf] at hx
      obtain ⟨u, t₁, h₁, hx⟩ := bind_ok.mp hx
      obtain ⟨u, t₂, h₂, hx⟩ := bind_ok.mp hx
      obtain ⟨cwd, t₃, h₃, hx⟩ := bind_ok.mp hx
      obtain ⟨u, t₄, h₄, hx⟩ := bind_ok.mp hx
      obtain ⟨ok, t₅, h₅, hx⟩ := bind_ok.mp hx
      have hs : Steady s t₅ := by
        have hs₁ : Steady s t₁ := by
          obtain ⟨-, rfl⟩ := modify_ok.mp h₁
          exact Tasking.putProc rfl rfl
        have hs₂ := trans_of Steady hs₁ (.of_ok .openConsole h₂)
        have hs₃ := trans_of Steady hs₂ (.of_ok .inheritCwd h₃)
        have hs₄ : Steady t₃ t₄ := by
          obtain ⟨-, rfl⟩ := modify_ok.mp h₄
          exact Tasking.putProc rfl rfl
        exact trans_of Steady (trans_of Steady hs₃ hs₄) (.of_ok .loadProgram h₅)
      refine ⟨t₅, hs, ?_⟩
      split_ifs at hx with hok
      · replace hx := modify_then hx
        obtain ⟨rfl, rfl⟩ := pure_ok.mp hx
        exact Or.inr ⟨p, rfl, rfl, rfl⟩
      · obtain ⟨rfl, rfl⟩ := pure_ok.mp hx
        exact Or.inl ⟨rfl, rfl⟩

/-- `create_process` makes a process in the first free slot, or changes nothing. -/
theorem createProcess_procs (hx : createProcess prog s = .ok o s') :
    o = none ∧ Steady s s' ∨
      ∃ p, o = some p ∧ findProc s = some p ∧ SteadyBut p s s' ∧
        (s'.procs p).state = .runnable ∧ (s'.procs p).pid = (p : Nat) + 1 := by
  obtain ⟨t, hs, ⟨rfl, rfl⟩ | ⟨p, rfl, hf, rfl⟩⟩ := createProcess_enters hx
  · exact Or.inl ⟨rfl, hs⟩
  · refine Or.inr ⟨p, rfl, hf, (hs.but p).putProc _, ?_, ?_⟩
    · rw [putProc_self]
    · rw [putProc_self]

theorem findProc_zero (h : (s.procs 0).state = .unused) : findProc s = some 0 := by
  simp [findProc, List.finRange_succ, h]

/-- What `spawn` does to the processes. -/
theorem spawnProcess_procs {cmdline : List Byte} (hx : spawnProcess cmdline s = .ok r s') :
    Steady s s' ∨
      ∃ p, findProc s = some p ∧ SteadyBut p s s' ∧ (s'.procs p).state = .runnable ∧
        (s'.procs p).pid = (p : Nat) + 1 := by
  unfold spawnProcess at hx
  split_ifs at hx
  · obtain ⟨-, rfl⟩ := pure_ok.mp hx
    exact Or.inl (refl_of Steady s)
  · obtain ⟨o, t, hc, hx⟩ := bind_ok.mp hx
    obtain ⟨rfl, hs⟩ | ⟨p, rfl, hp⟩ := createProcess_procs hc
    · obtain ⟨-, rfl⟩ := pure_ok.mp hx
      exact Or.inl hs
    · replace hx := get_then hx
      obtain ⟨-, rfl⟩ := pure_ok.mp hx
      exact Or.inr ⟨p, hp⟩

theorem exitCurrentProcess_procs (hp : s.current = some p) (hx : exitCurrentProcess s = .ok u s') :
    SteadyBut p s s' ∧ (s'.procs p).state = .exited ∧ (s'.procs p).pid = (s.procs p).pid := by
  obtain ⟨q, t, hc, hx⟩ := bind_ok.mp hx
  replace hc := get_then hc
  rw [hp] at hc
  obtain ⟨rfl, rfl⟩ := pure_ok.mp hc
  obtain ⟨-, rfl⟩ := modify_ok.mp hx
  refine ⟨((refl_of Steady s).but p).putProc _, ?_, ?_⟩
  · rw [putProc_self]
  · rw [putProc_self]

/-- The slot is made free at the end. -/
theorem reap_frees (hx : reap p s = .ok u s') :
    ∃ t, Steady s t ∧ s' = t.putProc p { t.procs p with state := .unused } := by
  obtain ⟨u, t, h₁, hx⟩ := bind_ok.mp hx
  obtain ⟨u, t', h₂, hx⟩ := bind_ok.mp hx
  obtain ⟨-, rfl⟩ := modify_ok.mp hx
  exact ⟨t', trans_of Steady (.of_ok .dropCwd h₁) (.of_ok .closeAll h₂), rfl⟩

theorem reap_procs (hx : reap p s = .ok u s') :
    SteadyBut p s s' ∧ (s'.procs p).state = .unused := by
  obtain ⟨t, hs, rfl⟩ := reap_frees hx
  exact ⟨(hs.but p).putProc _, by rw [putProc_self]⟩

/-- A turn of the loop of `wait_process` reaps a process that has ended, or changes
nothing. -/
theorem waitProcess_reaps {pid : Int} (hx : waitProcess pid s = .ok r s') :
    s' = s ∨ ∃ q u, (s.procs q).state = .exited ∧ reap q s = .ok u s' := by
  replace hx := get_then hx
  cases hf : findPid s pid with
  | none =>
      simp only [hf] at hx
      exact .inl (pure_ok.mp hx).2.symm
  | some q =>
      simp only [hf] at hx
      split_ifs at hx with hexited
      · obtain ⟨u, t, h₁, hx⟩ := bind_ok.mp hx
        obtain ⟨-, rfl⟩ := pure_ok.mp hx
        exact .inr ⟨q, u, hexited, h₁⟩
      · exact .inl (pure_ok.mp hx).2.symm

theorem boot_capacity (hx : boot s = .ok u s') (d : Nat) :
    (s'.disk d).capacity = (s.disk d).capacity := by
  obtain ⟨u, t, h₁, hx⟩ := bind_ok.mp hx
  obtain ⟨o, t₁, h₂, hx⟩ := bind_ok.mp hx
  rw [← (Steady.fsInit.of_ok h₁).capacity, ← (Sized.of_ok .createProcess h₂).capacity]
  cases o with
  | none => cases hx
  | some p =>
      replace hx := modify_then hx
      obtain ⟨o, t₃, h₄, hx⟩ := bind_ok.mp hx
      obtain ⟨-, rfl⟩ := pure_ok.mp hx
      exact (Sized.of_ok .createProcess h₄).capacity d

end Procs

end Dmaos
