import Mathlib.Tactic.Common
import Mathlib.Tactic.SplitIfs

/-!
# Positions of the block map

The block map of a file is a tree of pointers.  Fourteen pointers stand in the
inode: twelve to data blocks, one to a table of 256 pointers to data blocks,
one to a table of 256 pointers to such tables.  A `Slot` names one of these
positions by the way to it from the inode.

The *rank* of a position is the first file block that needs it.  A file of `n`
blocks uses the positions of rank below `n` and no others: a data position has
the number of its file block as rank, and a table has the rank of its first
entry.
-/

namespace Dmaos

variable {i k bn : Nat} {t σ τ : Slot}

/-- A position of the block map: a pointer of the inode, or an entry of the
table another position points to. -/
inductive Slot where
  | top (i : Nat)
  | ent (t : Slot) (i : Nat)
deriving DecidableEq

namespace Slot

/-- The positions that point to a table. -/
def IsTable : Slot → Prop
  | top i => i = 12 ∨ i = 13
  | ent (top i) k => i = 13 ∧ k < 256
  | ent (ent _ _) _ => False

/-- The positions a block map has. -/
def Valid : Slot → Prop
  | top i => i < 14
  | ent t i => t.IsTable ∧ i < 256

/-- The positions that point to a data block. -/
def Leaf (σ : Slot) : Prop := σ.Valid ∧ ¬ σ.IsTable

/-- The first file block that needs a position. -/
def rank : Slot → Nat
  | top i => if i = 13 then 268 else i
  | ent (top i) k => if i = 13 then 268 + 256 * k else 12 + k
  | ent (ent _ k) j => 268 + 256 * k + j

/-- The position of file block `bn`. -/
def ofBlock (bn : Nat) : Slot :=
  if bn < 12 then top bn
  else if bn < 268 then ent (top 12) (bn - 12)
  else ent (ent (top 13) ((bn - 268) / 256)) ((bn - 268) % 256)

/-- `σ.On τ`: position `σ` lies on the way to `τ`, ends included. -/
def On (σ : Slot) : Slot → Prop
  | top i => σ = top i
  | ent t i => σ = ent t i ∨ σ.On t

/-! ## Shapes -/

theorem IsTable.valid : ∀ {σ : Slot}, σ.IsTable → σ.Valid
  | top i, h => by
      simp only [IsTable] at h
      simp only [Valid]
      omega
  | ent (top i) k, h => by
      simp only [IsTable] at h
      exact ⟨Or.inr h.1, h.2⟩
  | ent (ent _ _) _, h => h.elim

theorem valid_top (h : i < 14) : (top i).Valid := h

theorem Valid.table (h : (ent t i).Valid) : t.IsTable := h.1

theorem Valid.parent (h : (ent t i).Valid) : t.Valid := h.1.valid

theorem Leaf.valid (h : σ.Leaf) : σ.Valid := h.1

/-- A data position is one of three shapes. -/
theorem Leaf.cases (h : σ.Leaf) :
    (∃ i, i < 12 ∧ σ = top i) ∨ (∃ i, i < 256 ∧ σ = ent (top 12) i) ∨
      ∃ k i, k < 256 ∧ i < 256 ∧ σ = ent (ent (top 13) k) i := by
  obtain ⟨hv, ht⟩ := h
  match σ with
  | top i =>
      simp only [Valid, IsTable] at hv ht
      exact Or.inl ⟨i, by omega, rfl⟩
  | ent (top j) i =>
      simp only [Valid, IsTable] at hv ht
      obtain rfl : j = 12 := by omega
      exact Or.inr (Or.inl ⟨i, hv.2, rfl⟩)
  | ent (ent (top j) k) i =>
      simp only [Valid, IsTable] at hv
      obtain ⟨⟨rfl, hk⟩, hi⟩ := hv
      exact Or.inr (Or.inr ⟨k, i, hk, hi, rfl⟩)
  | ent (ent (ent _ _) _) _ => exact hv.1.elim

/-- A table position is one of three shapes. -/
theorem IsTable.cases (h : σ.IsTable) :
    σ = top 12 ∨ σ = top 13 ∨ ∃ k, k < 256 ∧ σ = ent (top 13) k := by
  match σ with
  | top i =>
      rcases h with rfl | rfl
      · exact Or.inl rfl
      · exact Or.inr (Or.inl rfl)
  | ent (top i) k =>
      obtain ⟨rfl, hk⟩ := h
      exact Or.inr (Or.inr ⟨k, hk, rfl⟩)
  | ent (ent _ _) _ => exact h.elim

theorem leaf_direct (h : i < 12) : (top i).Leaf := by
  refine ⟨?_, ?_⟩ <;> simp only [Valid, IsTable] <;> omega

theorem leaf_single (h : i < 256) : (ent (top 12) i).Leaf :=
  ⟨⟨Or.inl rfl, h⟩, by simp [IsTable]⟩

theorem leaf_double (hk : k < 256) (hi : i < 256) : (ent (ent (top 13) k) i).Leaf :=
  ⟨⟨⟨rfl, hk⟩, hi⟩, by simp [IsTable]⟩

theorem leaf_ofBlock (h : bn < 65804) : (ofBlock bn).Leaf := by
  unfold ofBlock
  split_ifs with h1 h2
  · exact leaf_direct h1
  · exact leaf_single (by omega)
  · exact leaf_double (by omega) (by omega)

theorem valid_ofBlock (h : bn < 65804) : (ofBlock bn).Valid := (leaf_ofBlock h).valid

/-! ## Ranks -/

theorem rank_direct (h : i < 12) : (top i).rank = i := if_neg (by omega)

theorem rank_single_top : (top 12).rank = 12 := rfl

theorem rank_double_top : (top 13).rank = 268 := rfl

theorem rank_single (i : Nat) : (ent (top 12) i).rank = 12 + i := by
  simp [rank]

theorem rank_table (k : Nat) : (ent (top 13) k).rank = 268 + 256 * k := by
  simp [rank]

theorem rank_double (t : Slot) (k i : Nat) : (ent (ent t k) i).rank = 268 + 256 * k + i := by
  simp only [rank]

@[simp] theorem rank_ofBlock (bn : Nat) : (ofBlock bn).rank = bn := by
  unfold ofBlock
  split_ifs with h1 h2
  · simp only [rank]
    split_ifs <;> omega
  · simp only [rank, Nat.reduceEqDiff, if_false]
    omega
  · simp only [rank]
    omega

theorem ofBlock_rank (h : σ.Leaf) : ofBlock σ.rank = σ := by
  rcases h.cases with ⟨i, hi, rfl⟩ | ⟨i, hi, rfl⟩ | ⟨k, i, hk, hi, rfl⟩
  · rw [rank_direct hi, ofBlock, if_pos hi]
  · rw [rank_single, ofBlock, if_neg (by omega), if_pos (by omega)]
    congr 1
    omega
  · have hk' : (268 + 256 * k + i - 268) / 256 = k := by omega
    have hi' : (268 + 256 * k + i - 268) % 256 = i := by omega
    rw [rank_double, ofBlock, if_neg (by omega), if_neg (by omega), hk', hi']

theorem rank_lt_of_leaf (h : σ.Leaf) : σ.rank < 65804 := by
  rcases h.cases with ⟨i, hi, rfl⟩ | ⟨i, hi, rfl⟩ | ⟨k, i, hk, hi, rfl⟩
  · rw [rank_direct hi]
    omega
  · rw [rank_single]
    omega
  · rw [rank_double]
    omega

theorem ofBlock_injective {a b : Nat} (h : ofBlock a = ofBlock b) : a = b := by
  have := congrArg rank h
  simpa using this

/-! ## The way to a position -/

theorem On.refl : ∀ (σ : Slot), σ.On σ
  | top _ => rfl
  | ent _ _ => Or.inl rfl

theorem On.of_parent (h : σ.On t) : σ.On (ent t i) := Or.inr h

theorem On.trans {ρ : Slot} (h : ρ.On σ) : ∀ {τ : Slot}, σ.On τ → ρ.On τ
  | top _, hon => by cases hon; exact h
  | ent t i, hon => by
      rcases hon with rfl | hon
      · exact h
      · exact (h.trans hon).of_parent

/-- No position lies strictly below itself. -/
theorem not_on_of_ent_on : ∀ {t σ : Slot} {i : Nat}, (ent t i).On σ → ¬ σ.On t := by
  intro t σ i h hs
  have size : ∀ {a b : Slot}, a.On b → sizeOf a ≤ sizeOf b := by
    intro a b
    induction b with
    | top j => rintro rfl; exact Nat.le_refl _
    | ent u j ih =>
        rintro (rfl | h)
        · exact Nat.le_refl _
        · have := ih h
          simp only [ent.sizeOf_spec]
          omega
  have h1 := size h
  have h2 := size hs
  simp only [ent.sizeOf_spec] at h1
  omega

/-- A position below a leaf is the leaf itself. -/
theorem On.eq_of_leaf (hσ : σ.Leaf) (hτ : τ.Valid) (h : σ.On τ) : σ = τ := by
  match τ with
  | top i => exact h
  | ent t i =>
      rcases h with h | h
      · exact h
      · exfalso
        -- Then `σ` lies on the way to a table, so it is a table.
        rcases hτ.table.cases with rfl | rfl | ⟨k, hk, rfl⟩
        · cases h; exact hσ.2 (Or.inl rfl)
        · cases h; exact hσ.2 (Or.inr rfl)
        · rcases h with h | h
          · cases h; exact hσ.2 ⟨rfl, hk⟩
          · cases h; exact hσ.2 (Or.inr rfl)

/-- A second-level table is on the way to its own entries only. -/
theorem table_on_entry {l j : Nat} (h : (ent (top 13) k).On (ent (ent (top 13) l) j)) : k = l := by
  rcases h with h | h | h
  · cases h
  · cases h
    rfl
  · cases h

/-- The positions on the way to file block `bn` have at most its rank. -/
theorem On.rank_le (h : σ.On (ofBlock bn)) : σ.rank ≤ bn := by
  unfold ofBlock at h
  split_ifs at h with h1 h2
  · cases h
    simp only [rank]
    split_ifs <;> omega
  · rcases h with h | h
    · subst h
      simp only [rank, Nat.reduceEqDiff, if_false]
      omega
    · cases h
      simp only [rank, Nat.reduceEqDiff, if_false]
      omega
  · rcases h with h | h | h
    · subst h
      simp only [rank]
      omega
    · subst h
      simp only [rank, if_true]
      omega
    · cases h
      simp only [rank, if_true]
      omega

/-- The first block a position serves lies below it. -/
theorem on_ofBlock_rank (h : σ.Valid) : σ.On (ofBlock σ.rank) := by
  by_cases ht : σ.IsTable
  · rcases ht.cases with rfl | rfl | ⟨k, hk, rfl⟩
    · have hr : ofBlock (top 12).rank = ent (top 12) 0 := by decide
      rw [hr]
      exact (On.refl _).of_parent
    · have hr : ofBlock (top 13).rank = ent (ent (top 13) 0) 0 := by decide
      rw [hr]
      exact (On.refl _).of_parent.of_parent
    · have hr : ofBlock (ent (top 13) k).rank = ent (ent (top 13) k) 0 := by
        have hk' : (268 + 256 * k - 268) / 256 = k := by omega
        have hi' : (268 + 256 * k - 268) % 256 = 0 := by omega
        rw [rank_table, ofBlock, if_neg (by omega), if_neg (by omega), hk', hi']
      rw [hr]
      exact (On.refl _).of_parent
  · rw [ofBlock_rank ⟨h, ht⟩]
    exact On.refl σ

/-- The positions a direct block is the first to need. -/
theorem rank_eq_direct (hσ : σ.Valid) (hk : k < 12) : σ.rank = k ↔ σ = top k := by
  constructor
  · rintro rfl
    have h := on_ofBlock_rank hσ
    rwa [ofBlock, if_pos hk] at h
  · rintro rfl
    exact rank_direct hk

theorem rank_eq_single (hσ : σ.Valid) (hlo : 12 ≤ k) (hhi : k < 268) :
    σ.rank = k ↔ σ = ent (top 12) (k - 12) ∨ σ = top 12 ∧ k = 12 := by
  constructor
  · rintro rfl
    have h := on_ofBlock_rank hσ
    rw [ofBlock, if_neg (by omega), if_pos hhi] at h
    rcases h with h | h
    · exact Or.inl h
    · cases h
      exact Or.inr ⟨rfl, rfl⟩
  · rintro (rfl | ⟨rfl, rfl⟩)
    · rw [rank_single]
      omega
    · rfl

theorem rank_eq_double (hσ : σ.Valid) (hlo : 268 ≤ k) :
    σ.rank = k ↔ σ = ent (ent (top 13) ((k - 268) / 256)) ((k - 268) % 256) ∨
      σ = top 13 ∧ k = 268 ∨ σ = ent (top 13) ((k - 268) / 256) ∧ (k - 268) % 256 = 0 := by
  constructor
  · intro hk
    have h := on_ofBlock_rank hσ
    rw [hk, ofBlock, if_neg (by omega), if_neg (by omega)] at h
    rcases h with h | h | h
    · exact Or.inl h
    · rw [h, rank_table] at hk
      exact Or.inr (Or.inr ⟨h, by omega⟩)
    · cases h
      exact Or.inr (Or.inl ⟨rfl, hk.symm⟩)
  · rintro (rfl | ⟨rfl, rfl⟩ | ⟨rfl, hk⟩)
    · rw [rank_double]
      omega
    · rfl
    · rw [rank_table]
      omega

theorem On.rank_mono (h : σ.On τ) (hτ : τ.Valid) : σ.rank ≤ τ.rank :=
  (h.trans (on_ofBlock_rank hτ)).rank_le

end Slot

end Dmaos
