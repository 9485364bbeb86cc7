import Mathlib.Tactic.Common

/-!
# Sequences that approach a point

Elements are chosen one after the other.  Each choice is the point `p`, or it is closer
to `p` than the choice before.  Then nothing else is chosen twice before `p` is, and `p`
is chosen soon.
-/

namespace Dmaos

variable {α : Type} {p : α} {μ : α → Nat}

/-- After `c` the elements of a list are chosen, each of them `p` or closer to `p` than
the one before. -/
inductive Approaches (p : α) (μ : α → Nat) : α → List α → Prop where
  | nil {c : α} : Approaches p μ c []
  | cons {c x : α} {xs : List α} (hx : x = p ∨ μ x < μ c) (h : Approaches p μ x xs) :
      Approaches p μ c (x :: xs)

namespace Approaches

variable {c q : α} {xs ys zs : List α}

/-- As long as `p` is not chosen the distance becomes smaller. -/
theorem lt_of_not_mem (h : Approaches p μ c (ys ++ q :: zs)) (hp : p ∉ ys) (hq : q ≠ p) :
    μ q < μ c := by
  induction ys generalizing c with
  | nil =>
      cases h with
      | cons hx _ => exact hx.resolve_left hq
  | cons y ys ih =>
      obtain ⟨hy, hys⟩ := not_or.mp (mt List.mem_cons.mpr hp)
      cases h with
      | cons hx h => exact Nat.lt_trans (ih h hys) (hx.resolve_left (Ne.symm hy))

theorem tail (h : Approaches p μ c (xs ++ q :: ys)) : Approaches p μ q ys := by
  induction xs generalizing c with
  | nil =>
      cases h with
      | cons _ h => exact h
  | cons x xs ih =>
      cases h with
      | cons _ h => exact ih h

/-- Between two choices of the same element `p` is chosen. -/
theorem mem_between (h : Approaches p μ c (xs ++ q :: (ys ++ q :: zs))) (hq : q ≠ p) : p ∈ ys := by
  by_contra hp
  exact Nat.lt_irrefl _ (h.tail.lt_of_not_mem hp hq)

/-- Only so many choices are made without `p`. -/
theorem length_le (h : Approaches p μ c xs) (hp : p ∉ xs) : xs.length ≤ μ c := by
  induction h with
  | nil => exact Nat.zero_le _
  | cons hx h ih =>
      obtain ⟨hne, hrest⟩ := not_or.mp (mt List.mem_cons.mpr hp)
      have hlt := hx.resolve_left (Ne.symm hne)
      have hlen := ih hrest
      rw [List.length_cons]
      omega

end Approaches

end Dmaos
