import Mathlib.Algebra.BigOperators.Group.Finset.Basic
import Mathlib.Algebra.BigOperators.Ring.Finset
import Mathlib.Algebra.Order.BigOperators.Group.Finset
import Mathlib.Data.Fintype.BigOperators

/-!
# Counting the holders of a thing

A table of holders gives each holder at most one thing.  `count g a` is the
number of holders that hold `a`.  A reference count is right when it is at
least the count over the table.
-/

namespace Tally

open Function

open scoped BigOperators

variable {ι α : Type} [DecidableEq α]

/-- One if a holder holds `a`. -/
def unit (o : Option α) (a : α) : Int := if o = some a then 1 else 0

@[simp] theorem unit_none (a : α) : unit (none : Option α) a = 0 := if_neg (by simp)

@[simp] theorem unit_self (a : α) : unit (some a) a = 1 := if_pos rfl

theorem unit_of_ne {a b : α} (h : b ≠ a) : unit (some b) a = 0 := if_neg (by simpa using h)

theorem unit_nonneg (o : Option α) (a : α) : 0 ≤ unit o a := by
  unfold unit
  split_ifs <;> omega

variable [Fintype ι]

/-- How many holders hold `a`. -/
def count (g : ι → Option α) (a : α) : Int := ∑ i, unit (g i) a

theorem count_nonneg (g : ι → Option α) (a : α) : 0 ≤ count g a :=
  Finset.sum_nonneg fun i _ => unit_nonneg (g i) a

/-- A thing that is held counts. -/
theorem count_pos {g : ι → Option α} {i : ι} {a : α} (h : g i = some a) : 1 ≤ count g a := by
  have := Finset.single_le_sum (fun j _ => unit_nonneg (g j) a) (Finset.mem_univ i)
  rw [h, unit_self] at this
  exact this

theorem count_none (a : α) : count (fun _ : ι => (none : Option α)) a = 0 := by
  simp [count]

/-- The count is the number of holders. -/
theorem count_eq_card (g : ι → Option α) (a : α) :
    count g a = (Finset.univ.filter fun i => g i = some a).card := by
  rw [Finset.natCast_card_filter]
  rfl

/-- Holders with several places each. -/
theorem sum_count {κ : Type} [Fintype κ] (g : κ → ι → Option α) (a : α) :
    ∑ k, count (g k) a = count (fun h : κ × ι => g h.1 h.2) a :=
  (Fintype.sum_prod_type fun h : κ × ι => unit (g h.1 h.2) a).symm

variable [DecidableEq ι]

/-- One holder changes what it holds. -/
theorem count_update (g : ι → Option α) (i : ι) (o : Option α) (a : α) :
    count (update g i o) a = count g a - unit (g i) a + unit o a := by
  have hrest : ∑ j ∈ Finset.univ.erase i, unit (update g i o j) a =
      ∑ j ∈ Finset.univ.erase i, unit (g j) a :=
    Finset.sum_congr rfl fun j hj => by
      rw [update_of_ne (Finset.ne_of_mem_erase hj)]
  have hnew := Finset.add_sum_erase Finset.univ (fun j => unit (update g i o j) a)
    (Finset.mem_univ i)
  have hold := Finset.add_sum_erase Finset.univ (fun j => unit (g j) a) (Finset.mem_univ i)
  rw [update_self, hrest] at hnew
  unfold count
  omega

end Tally
