import Mathlib.Tactic.Ring

/-!
# Stepping through a range with a truncated step

To go through `0, …, w - 1` in `D` steps, a fixed-point accumulator with unit `F`
is advanced by `w * F / D`, truncated.  After `x` steps its integer part is the
exact quotient `x * w / D`, or one less, as long as there are no more steps than
there are units in one.
-/

namespace Dmaos.Stepping

variable {w F D x y : Nat}

/-- The integer part after `x` steps. -/
def coordinate (w F D x : Nat) : Nat := x * (w * F / D) / F

theorem coordinate_mono (h : x ≤ y) : coordinate w F D x ≤ coordinate w F D y :=
  Nat.div_le_div_right (Nat.mul_le_mul_right _ h)

/-- Truncating the step loses at most `x` units in `x` steps. -/
theorem mul_le_add (hD : 0 < D) : x * w * F ≤ (x * (w * F / D) + x) * D := by
  have hstep : w * F ≤ (w * F / D + 1) * D := by
    have hmod := Nat.mod_lt (w * F) hD
    have hdiv := Nat.div_add_mod' (w * F) D
    rw [Nat.add_mul, Nat.one_mul]
    omega
  calc x * w * F = x * (w * F) := Nat.mul_assoc _ _ _
    _ ≤ x * ((w * F / D + 1) * D) := Nat.mul_le_mul_left x hstep
    _ = (x * (w * F / D) + x) * D := by ring

theorem step_mul_le (w F D x : Nat) : x * (w * F / D) * D ≤ x * w * F := by
  rw [Nat.mul_assoc, Nat.mul_assoc]
  exact Nat.mul_le_mul_left x (Nat.div_mul_le_self _ _)

/-- The accumulator is never ahead. -/
theorem coordinate_le (hF : 0 < F) (hD : 0 < D) : coordinate w F D x ≤ x * w / D := by
  rw [Nat.le_div_iff_mul_le hD]
  refine Nat.le_of_mul_le_mul_right ?_ hF
  calc coordinate w F D x * D * F = coordinate w F D x * F * D := Nat.mul_right_comm _ _ _
    _ ≤ x * (w * F / D) * D := Nat.mul_le_mul_right D (Nat.div_mul_le_self _ _)
    _ ≤ x * w * F := step_mul_le w F D x

/-- It is behind by one at most. -/
theorem le_coordinate_add_one (hF : 0 < F) (hD : 0 < D) (hx : x ≤ F) :
    x * w / D ≤ coordinate w F D x + 1 := by
  have hquot : x * w / D * F ≤ x * (w * F / D) + x := by
    refine Nat.le_of_mul_le_mul_right ?_ hD
    calc x * w / D * F * D = x * w / D * D * F := Nat.mul_right_comm _ _ _
      _ ≤ x * w * F := Nat.mul_le_mul_right F (Nat.div_mul_le_self _ _)
      _ ≤ (x * (w * F / D) + x) * D := mul_le_add hD
  have hle : x * w / D * F ≤ x * (w * F / D) + F := Nat.le_trans hquot (Nat.add_le_add_left hx _)
  calc x * w / D = x * w / D * F / F := (Nat.mul_div_cancel _ hF).symm
    _ ≤ (x * (w * F / D) + F) / F := Nat.div_le_div_right hle
    _ = coordinate w F D x + 1 := Nat.add_div_right _ hF

/-- No step leaves the range. -/
theorem coordinate_lt (hF : 0 < F) (hD : 0 < D) (hw : 0 < w) (hx : x < D) :
    coordinate w F D x < w := by
  refine Nat.lt_of_le_of_lt (coordinate_le hF hD) ((Nat.div_lt_iff_lt_mul hD).mpr ?_)
  rw [Nat.mul_comm w D]
  exact Nat.mul_lt_mul_of_pos_right hx hw

/-- The accumulator stays within `w` units. -/
theorem accumulator_le (h : x ≤ D) : x * (w * F / D) ≤ w * F :=
  Nat.le_trans (Nat.mul_le_mul_right _ h) (Nat.mul_div_le _ _)

end Dmaos.Stepping
