import Mathlib.Tactic.Common

/-!
# Systems that act

A system is given by what each of its actions does to a state, if it can be done
there.  `Reaches next P s₀` are the states a run from `s₀` leads to, when each
action is done in a state that meets the condition `P`.
-/

namespace Actions

variable {α σ : Type} {next : α → σ → Option σ} {P Q : α → σ → Prop} {s₀ s s' : σ}

/-- The states reached from `s₀` by actions that meet the condition `P`. -/
inductive Reaches (next : α → σ → Option σ) (P : α → σ → Prop) (s₀ : σ) : σ → Prop where
  | start : Reaches next P s₀ s₀
  | act {a : α} {s s' : σ} (before : Reaches next P s₀ s) (cond : P a s)
      (done : next a s = some s') : Reaches next P s₀ s'

/-- What every action keeps holds in every state reached. -/
theorem Reaches.invariant {I : σ → Prop} (h0 : I s₀)
    (hstep : ∀ {a s s'}, I s → P a s → next a s = some s' → I s')
    (h : Reaches next P s₀ s) : I s := by
  induction h with
  | start => exact h0
  | act before cond done ih => exact hstep ih cond done

/-- Actions done one after the other, each in a state that meets the condition. -/
def perform (next : α → σ → Option σ) (P : α → σ → Prop) [∀ a s, Decidable (P a s)] :
    List α → σ → Option σ
  | [], s => some s
  | a :: as, s => if P a s then (next a s).bind (perform next P as) else none

variable [∀ a s, Decidable (P a s)]

theorem Reaches.perform {as : List α} (h : Reaches next P s₀ s)
    (hx : perform next P as s = some s') : Reaches next P s₀ s' := by
  induction as generalizing s with
  | nil =>
      cases hx
      exact h
  | cons a as ih =>
      unfold Actions.perform at hx
      split at hx
      case isTrue hP =>
          obtain ⟨t, ha, hx⟩ := Option.bind_eq_some_iff.mp hx
          exact ih (h.act hP ha) hx
      case isFalse => cases hx

/-- A run that can be performed reaches a state. -/
theorem Reaches.of_perform {as : List α} {R : σ → Bool}
    (h : (Actions.perform next P as s₀).any R = true) : ∃ s, Reaches next P s₀ s ∧ R s = true := by
  cases hs : Actions.perform next P as s₀ with
  | none =>
      rw [hs] at h
      cases h
  | some s =>
      rw [hs] at h
      exact ⟨s, Reaches.start.perform hs, h⟩

end Actions
