import Mathlib.Logic.Function.Basic
import Mathlib.Data.List.Range

/-!
# Finite maps in slots

A finite map is kept in a row of slots.  A slot is empty or holds a key and its
value; empty slots may stand anywhere.  As long as no key stands in two slots,
writing one slot updates the map at one key.
-/

namespace Dmaos.Slots

open Function

variable {κ β : Type} {slot slot' : Nat → Option (κ × β)} {n n' k : Nat} {x : κ}

/-- No key stands in two slots. -/
def Distinct (slot : Nat → Option (κ × β)) (n : Nat) : Prop :=
  ∀ i < n, ∀ j < n, ∀ x v w, slot i = some (x, v) → slot j = some (x, w) → i = j

theorem distinct_of_keys (h : ∀ i < n, ∀ j < n, ∀ x ∈ (slot i).map Prod.fst,
    (slot j).map Prod.fst = some x → i = j) : Distinct slot n := fun i hi j hj x v w hiv hjw =>
  h i hi j hj x (by rw [hiv]; rfl) (by rw [hjw]; rfl)

/-- Slot `k` has been written, and slots may have been added up to it. -/
structure Write (slot slot' : Nat → Option (κ × β)) (n n' k : Nat) : Prop where
  le : k ≤ n
  count : n' = max n (k + 1)
  others : ∀ i < n, i ≠ k → slot' i = slot i

/-- The keys in slot `k` before and after are `x`, and no other slot has it. -/
structure At (slot slot' : Nat → Option (κ × β)) (n k : Nat) (x : κ) : Prop where
  before : k < n → ∀ y v, slot k = some (y, v) → y = x
  after : ∀ y v, slot' k = some (y, v) → y = x
  only : ∀ i < n, i ≠ k → ∀ v, slot i ≠ some (x, v)

theorem Write.cases (h : Write slot slot' n n' k) {i : Nat} (hi : i < n') :
    i = k ∨ i ≠ k ∧ i < n ∧ slot' i = slot i := by
  cases Decidable.em (i = k) with
  | inl heq => exact .inl heq
  | inr hne =>
      have hlt : i < n := by
        have hle := h.le
        have hcount := h.count
        omega
      exact .inr ⟨hne, hlt, h.others i hlt hne⟩

/-- Writing a slot keeps the keys apart. -/
theorem Distinct.write (h : Distinct slot n) (hw : Write slot slot' n n' k)
    (hx : At slot slot' n k x) : Distinct slot' n' := by
  intro i hi j hj y v w hiy hjy
  rcases hw.cases hi with rfl | ⟨hik, hi', hieq⟩
  · rcases hw.cases hj with rfl | ⟨hjk, hj', hjeq⟩
    · rfl
    · rw [hx.after y v hiy] at hjy
      exact absurd (hjeq ▸ hjy) (hx.only j hj' hjk w)
  · rcases hw.cases hj with rfl | ⟨hjk, hj', hjeq⟩
    · rw [hx.after y w hjy] at hiy
      exact absurd (hieq ▸ hiy) (hx.only i hi' hik v)
    · rw [hieq] at hiy
      rw [hjeq] at hjy
      exact h i hi' j hj' y v w hiy hjy

variable [DecidableEq κ]

/-- The value of the first slot with a key. -/
def find (slot : Nat → Option (κ × β)) (n : Nat) (x : κ) : Option β :=
  (((List.range n).filterMap slot).find? fun e => decide (e.1 = x)).map Prod.snd

theorem find_eq_none_iff : find slot n x = none ↔ ∀ i < n, ∀ v, slot i ≠ some (x, v) := by
  simp only [find, Option.map_eq_none_iff, List.find?_eq_none, List.mem_filterMap, List.mem_range,
    decide_eq_true_eq]
  constructor
  · intro h i hi v hv
    exact h (x, v) ⟨i, hi, hv⟩ rfl
  · rintro h ⟨y, v⟩ ⟨i, hi, hv⟩ rfl
    exact h i hi v hv

/-- The map has the pairs that stand in the slots. -/
theorem find_eq_some_iff (h : Distinct slot n) {v : β} :
    find slot n x = some v ↔ ∃ i < n, slot i = some (x, v) := by
  have hsome : ∀ {w}, find slot n x = some w → ∃ i < n, slot i = some (x, w) := by
    intro w hw
    obtain ⟨⟨y, w'⟩, hfind, rfl⟩ := Option.map_eq_some_iff.mp hw
    have hy : y = x := by simpa using List.find?_some hfind
    obtain ⟨i, hi, hslot⟩ := List.mem_filterMap.mp (List.mem_of_find?_eq_some hfind)
    exact ⟨i, List.mem_range.mp hi, hy ▸ hslot⟩
  refine ⟨hsome, ?_⟩
  rintro ⟨i, hi, hslot⟩
  cases hf : find slot n x with
  | none => exact absurd hslot (find_eq_none_iff.mp hf i hi v)
  | some w =>
      obtain ⟨j, hj, hslot'⟩ := hsome hf
      have hij := h i hi j hj x v w hslot hslot'
      rw [← hij, hslot] at hslot'
      cases hslot'
      rfl

/-- Writing a slot is an update of the map at its key. -/
theorem find_write (h : Distinct slot n) (hw : Write slot slot' n n' k) (hx : At slot slot' n k x) :
    find slot' n' = update (find slot n) x ((slot' k).map Prod.snd) := by
  have h' := h.write hw hx
  have hk : k < n' := by
    have hcount := hw.count
    omega
  funext y
  refine Option.ext fun v => ?_
  rw [find_eq_some_iff h']
  cases Decidable.em (y = x) with
  | inl heq =>
      subst heq
      rw [update_self]
      constructor
      · rintro ⟨i, hi, hslot⟩
        rcases hw.cases hi with rfl | ⟨hik, hi', hieq⟩
        · rw [hslot]
          rfl
        · exact absurd (hieq ▸ hslot) (hx.only i hi' hik v)
      · intro hv
        obtain ⟨⟨z, v'⟩, hslot, rfl⟩ := Option.map_eq_some_iff.mp hv
        obtain rfl := hx.after z v' hslot
        exact ⟨k, hk, hslot⟩
  | inr hne =>
      rw [update_of_ne hne, find_eq_some_iff h]
      constructor
      · rintro ⟨i, hi, hslot⟩
        rcases hw.cases hi with rfl | ⟨-, hi', hieq⟩
        · exact absurd (hx.after y v hslot) hne
        · exact ⟨i, hi', hieq ▸ hslot⟩
      · rintro ⟨i, hi, hslot⟩
        have hik : i ≠ k := by
          rintro rfl
          exact hne (hx.before hi y v hslot)
        have hcount := hw.count
        exact ⟨i, by omega, (hw.others i hi hik).trans hslot⟩

end Dmaos.Slots
