import Mathlib.Tactic.Common
import Mathlib.Tactic.SplitIfs
import Mathlib.Algebra.GroupWithZero.Nat

/-!
# The words of a list

`words p l` are the longest parts of a list between separators, the elements
with property `p`.  Empty parts do not count, so separators may stand at either
end and next to each other.
-/

namespace List

variable {α : Type} {p : α → Bool} {a : α} {l x : List α}

/-! ## Sizes -/

/-- The size of some words, each with a separator. -/
def weight (ws : List (List α)) : Nat := (ws.map fun w => w.length + 1).sum

theorem weight_cons (w : List α) (ws : List (List α)) :
    weight (w :: ws) = w.length + 1 + weight ws := by
  simp [weight]

theorem weight_append (ws vs : List (List α)) : weight (ws ++ vs) = weight ws + weight vs := by
  simp [weight]

theorem Sublist.weight_le {ws vs : List (List α)} (h : ws.Sublist vs) : weight ws ≤ weight vs := by
  induction h with
  | slnil => exact Nat.le_refl _
  | cons w h ih =>
      rw [weight_cons]
      omega
  | cons_cons w h ih =>
      rw [weight_cons, weight_cons]
      omega

theorem weight_splitOnP (p : α → Bool) (l : List α) : weight (l.splitOnP p) = l.length + 1 := by
  induction l with
  | nil => rfl
  | cons a l ih =>
      rw [splitOnP_cons_eq_if_modifyHead]
      split_ifs
      · rw [weight_cons, ih, length_cons, length_nil]
        omega
      · cases hs : l.splitOnP p with
        | nil => exact absurd hs (splitOnP_ne_nil p l)
        | cons y ys =>
            rw [hs, weight_cons] at ih
            rw [modifyHead_cons, weight_cons, length_cons, length_cons]
            omega

/-- The parts of a list between separators, without the empty ones. -/
def words [DecidableEq α] (p : α → Bool) (l : List α) : List (List α) :=
  (l.splitOnP p).filter (· ≠ [])

variable [DecidableEq α]

@[simp] theorem words_nil : words p [] = [] := by simp [words]

theorem words_append_sep (x l : List α) (ha : p a = true) :
    words p (x ++ a :: l) = words p x ++ words p l := by
  rw [words, splitOnP_append_cons x l ha, filter_append]
  rfl

theorem words_sep (l : List α) (ha : p a = true) : words p (a :: l) = words p l := by
  have := words_append_sep [] l ha
  rwa [words_nil, nil_append, nil_append] at this

/-- A list without separators is one word. -/
theorem words_single (hx : x ≠ []) (h : ∀ b ∈ x, p b = false) : words p x = [x] := by
  rw [words, splitOnP_eq_singleton h]
  simp [hx]

theorem words_dropWhile (l : List α) : words p (l.dropWhile p) = words p l := by
  induction l with
  | nil => rfl
  | cons a l ih =>
      cases ha : p a with
      | true => rw [dropWhile_cons_of_pos ha, ih, words_sep l ha]
      | false => rw [dropWhile_cons_of_neg (by simp [ha])]

/-- The first word of a list that does not begin with a separator. -/
theorem words_cons (l : List α) (ha : p a = false) :
    words p (a :: l) =
      (a :: l).takeWhile (fun b => !p b) :: words p ((a :: l).dropWhile fun b => !p b) := by
  have hsplit := takeWhile_append_dropWhile (p := fun b => !p b) (l := a :: l)
  have hne : (a :: l).takeWhile (fun b => !p b) ≠ [] := by
    rw [takeWhile_cons_of_pos (by simp [ha])]
    exact cons_ne_nil _ _
  have hall : ∀ b ∈ (a :: l).takeWhile (fun b => !p b), p b = false := by
    intro b hb
    simpa using (all_eq_true.mp (all_takeWhile (p := fun b => !p b))) b hb
  generalize (a :: l).takeWhile (fun b => !p b) = x at hsplit hne hall ⊢
  cases hr : (a :: l).dropWhile (fun b => !p b) with
  | nil =>
      rw [hr, append_nil] at hsplit
      rw [← hsplit, words_single hne hall, words_nil]
  | cons c r =>
      -- The list goes on after the word because of a separator.
      have hc : p c = true := by
        have := head?_dropWhile_not (fun b => !p b) (a :: l)
        rw [hr] at this
        simpa using this
      rw [hr] at hsplit
      rw [← hsplit, words_append_sep x r hc, words_single hne hall, words_sep r hc]
      rfl

theorem dropWhile_eq_nil_iff_words : l.dropWhile p = [] ↔ words p l = [] := by
  rw [← words_dropWhile]
  cases hl : l.dropWhile p with
  | nil => simp
  | cons a r =>
      have ha : p a = false := by
        have := head?_dropWhile_not p l
        rw [hl] at this
        simpa using this
      simp [words_cons r ha]

/-- A word is not empty, and its elements are elements of the list that are no
separators. -/
theorem mem_words (h : x ∈ words p l) : x ≠ [] ∧ ∀ b ∈ x, p b = false ∧ b ∈ l := by
  obtain ⟨hmem, hne⟩ := mem_filter.mp h
  refine ⟨by simpa using hne, ?_⟩
  clear h hne
  induction l generalizing x with
  | nil =>
      obtain rfl : x = [] := by simpa using hmem
      simp
  | cons a l ih =>
      have later : ∀ y ∈ l.splitOnP p, ∀ b ∈ y, p b = false ∧ b ∈ a :: l := fun y hy b hb =>
        ⟨(ih hy b hb).1, mem_cons_of_mem a (ih hy b hb).2⟩
      rw [splitOnP_cons_eq_if_modifyHead] at hmem
      split_ifs at hmem with ha
      · rcases mem_cons.mp hmem with rfl | hmem
        · simp
        · exact later x hmem
      · cases hs : l.splitOnP p with
        | nil => exact absurd hs (splitOnP_ne_nil p l)
        | cons y ys =>
            rw [hs, modifyHead_cons] at hmem
            rw [hs] at later
            rcases mem_cons.mp hmem with rfl | hmem
            · intro b hb
              rcases mem_cons.mp hb with rfl | hb
              · exact ⟨by simpa using ha, mem_cons_self⟩
              · exact later y mem_cons_self b hb
            · exact later x (mem_cons_of_mem y hmem)

/-- The words are not longer than the list. -/
theorem weight_words_le (l : List α) : weight (words p l) ≤ l.length + 1 := by
  rw [← weight_splitOnP p l]
  exact filter_sublist.weight_le

/-! ## Parts of a list -/

end List
