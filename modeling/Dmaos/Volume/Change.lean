import Dmaos.Volume.Own

/-!
# How the maps of a volume change

`Extend` relates a volume to a later one in which inode `n` has gained blocks:
no position loses its block, and new blocks were free before.  `Grow` adds
that no data block changes and that new data blocks are zero.  `Written` adds
instead that `len` bytes from offset `off` on have been replaced.

`Reduce` relates a volume to a later one in which inode `n` has lost blocks.
`Tidy` adds that a block it has lost is no longer marked.

All of them compose, so what a loop does to a volume follows from what one
turn of it does.
-/

namespace Dmaos

open Function Vol

variable {m N off len len' : Nat} {τ σ : Slot} {src : Buf}

/-- Two inodes that differ in their size and their pointers at most. -/
def DView.Same (d e : DView) : Prop := d.type = e.type ∧ d.nlink = e.nlink

theorem DView.Same.refl (d : DView) : d.Same d := ⟨rfl, rfl⟩

theorem DView.Same.trans {d e f : DView} (h₁ : d.Same e) (h₂ : e.Same f) : d.Same f :=
  ⟨h₁.1.trans h₂.1, h₁.2.trans h₂.2⟩

/-- Byte `i` of the file of inode `n`. -/
def Vol.byteAt (V : Vol) (n i : Nat) : Byte :=
  V.data (V.ptr n (Slot.ofBlock (i / 1024))) (i % 1024)

/-- Inode `n` has gained blocks, at positions with property `P`. -/
structure Extend (R S : Nat → Prop) (n : Nat) (P : Slot → Prop) (V V' : Vol) : Prop where
  own : Own R S V'
  /-- No position loses its block. -/
  keep : ∀ {m : Nat} {τ : Slot}, S m → τ.Valid → V.ptr m τ ≠ 0 → V'.ptr m τ = V.ptr m τ
  /-- A position that gets a block gets a free one. -/
  new : ∀ {m : Nat} {τ : Slot}, S m → τ.Valid → V.ptr m τ = 0 → V'.ptr m τ ≠ 0 →
    m = n ∧ P τ ∧ V.bm (V'.ptr m τ) = false
  /-- The data blocks of other inodes do not change. -/
  other : ∀ {m : Nat} {τ : Slot}, m ≠ n → S m → τ.Leaf → V.ptr m τ ≠ 0 →
    V'.data (V.ptr m τ) = V.data (V.ptr m τ)
  mark : ∀ {b : Nat}, V.bm b = true → V'.bm b = true
  /-- A new mark belongs to a block of inode `n`. -/
  bits : ∀ {b : Nat}, V'.bm b = true →
    V.bm b = true ∨ ∃ τ : Slot, τ.Valid ∧ V'.ptr n τ = b ∧ b ≠ 0
  ino : ∀ {m : Nat}, m ≠ n → V'.ino m = V.ino m
  same : (V'.ino n).Same (V.ino n)

/-- Inode `n` has gained blocks, and its data has not changed. -/
structure Grow (R S : Nat → Prop) (n : Nat) (P : Slot → Prop) (V V' : Vol) : Prop
    extends Extend R S n P V V' where
  data : ∀ {τ : Slot}, τ.Leaf → V.ptr n τ ≠ 0 → V'.data (V.ptr n τ) = V.data (V.ptr n τ)
  zero : ∀ {τ : Slot}, τ.Leaf → V.ptr n τ = 0 → V'.ptr n τ ≠ 0 →
    V'.data (V'.ptr n τ) = Buf.zero
  size : (V'.ino n).size = (V.ino n).size

/-- Inode `n` has gained blocks, and the `len` bytes from offset `off` on are
those of `src`. -/
structure Written (R S : Nat → Prop) (n off len : Nat) (src : Buf) (P : Slot → Prop)
    (V V' : Vol) : Prop extends Extend R S n P V V' where
  /-- Bytes outside the range do not change. -/
  old : ∀ {i : Nat}, i / 1024 < 65804 → V.ptr n (Slot.ofBlock (i / 1024)) ≠ 0 →
    ¬ (off ≤ i ∧ i < off + len) → V'.byteAt n i = V.byteAt n i
  /-- The range has been written. -/
  here : ∀ {i : Nat}, off ≤ i → i < off + len →
    V'.ptr n (Slot.ofBlock (i / 1024)) ≠ 0 ∧ V'.byteAt n i = src (i - off)

/-- Inode `n` has lost blocks. -/
structure Reduce (R S : Nat → Prop) (n : Nat) (V V' : Vol) : Prop where
  own : Own R S V'
  sub : ∀ {m : Nat} {τ : Slot}, S m → τ.Valid →
    V'.ptr m τ = V.ptr m τ ∨ m = n ∧ V'.ptr m τ = 0
  /-- The data blocks that are left do not change. -/
  data : ∀ {m : Nat} {τ : Slot}, S m → τ.Leaf → V'.ptr m τ ≠ 0 →
    V'.data (V'.ptr m τ) = V.data (V'.ptr m τ)
  bits : ∀ {b : Nat}, V'.bm b = true → V.bm b = true
  /-- A mark that is cleared belongs to a block of inode `n`. -/
  freed : ∀ {b : Nat}, V.bm b = true → V'.bm b = false →
    ∃ τ : Slot, τ.Valid ∧ V.ptr n τ = b ∧ b ≠ 0
  ino : ∀ {m : Nat}, m ≠ n → V'.ino m = V.ino m
  same : (V'.ino n).Same (V.ino n)

/-- Every block inode `n` has lost is free. -/
def Tidy (n : Nat) (V V' : Vol) : Prop :=
  ∀ τ : Slot, τ.Valid → V.ptr n τ ≠ 0 → V'.ptr n τ = 0 → V'.bm (V.ptr n τ) = false

variable {R S : Nat → Prop} {n : Nat} {P Q : Slot → Prop} {V V' V'' : Vol}

/-! ## Composition -/

namespace Extend

theorem refl (h : Own R S V) : Extend R S n P V V where
  own := h
  keep _ _ _ := rfl
  new _ _ h0 h1 := absurd h0 h1
  other _ _ _ _ := rfl
  mark hb := hb
  bits hb := Or.inl hb
  ino _ := rfl
  same := DView.Same.refl _

theorem trans (hn : S n) (h₁ : Extend R S n P V V') (h₂ : Extend R S n P V' V'') :
    Extend R S n P V V'' where
  own := h₂.own
  keep hm hτ h0 := by
    have h' := h₁.keep hm hτ h0
    rw [h₂.keep hm hτ (by rwa [h']), h']
  new := by
    intro m τ hm hτ h0 h2
    by_cases h1 : V'.ptr m τ = 0
    · obtain ⟨hmn, hP, hb⟩ := h₂.new hm hτ h1 h2
      refine ⟨hmn, hP, ?_⟩
      by_contra hb'
      rw [h₁.mark (by simpa using hb')] at hb
      cases hb
    · rw [h₂.keep hm hτ h1]
      exact h₁.new hm hτ h0 h1
  other hmn hm hτ h0 := by
    have h' := h₁.keep hm hτ.valid h0
    rw [← h₁.other hmn hm hτ h0, ← h', h₂.other hmn hm hτ (by rwa [h'])]
  mark hb := h₂.mark (h₁.mark hb)
  bits := by
    intro b hb
    rcases h₂.bits hb with hb | hb
    · rcases h₁.bits hb with hb | ⟨τ, hτ, he, h0⟩
      · exact Or.inl hb
      · exact Or.inr ⟨τ, hτ, by rw [h₂.keep hn hτ (by rwa [he]), he], h0⟩
    · exact Or.inr hb
  ino hm := by rw [h₂.ino hm, h₁.ino hm]
  same := h₂.same.trans h₁.same

theorem mono (h : Extend R S n P V V') (hPQ : ∀ τ, P τ → Q τ) : Extend R S n Q V V' where
  own := h.own
  keep := h.keep
  new hm hτ h0 h1 := by
    obtain ⟨h2, h3, h4⟩ := h.new hm hτ h0 h1
    exact ⟨h2, hPQ _ h3, h4⟩
  other := h.other
  mark := h.mark
  bits := h.bits
  ino := h.ino
  same := h.same

/-- A used position stays used. -/
theorem ptr_ne (h : Extend R S n P V V') (hm : S m) (hτ : τ.Valid)
    (h0 : V.ptr m τ ≠ 0) : V'.ptr m τ ≠ 0 := by
  rwa [h.keep hm hτ h0]

/-- The map of another inode does not change. -/
theorem ptr_other (h : Extend R S n P V V') (hmn : m ≠ n) (hm : S m)
    (hτ : τ.Valid) : V'.ptr m τ = V.ptr m τ := by
  by_cases h0 : V.ptr m τ = 0
  · rw [h0]
    by_contra h1
    exact hmn (h.new hm hτ h0 h1).1
  · exact h.keep hm hτ h0

theorem reserved (h : Extend R S n P V V') (hr : Reserved R N V) : Reserved R N V' :=
  fun b hb hR => h.mark (hr b hb hR)

end Extend

namespace Grow

theorem refl (h : Own R S V) : Grow R S n P V V where
  toExtend := .refl h
  data _ _ := rfl
  zero _ h0 h1 := absurd h0 h1
  size := rfl

theorem trans (hn : S n) (h₁ : Grow R S n P V V') (h₂ : Grow R S n P V' V'') :
    Grow R S n P V V'' where
  toExtend := h₁.toExtend.trans hn h₂.toExtend
  data hτ h0 := by
    have h' := h₁.keep hn hτ.valid h0
    rw [← h₁.data hτ h0, ← h', h₂.data hτ (by rwa [h'])]
  zero := by
    intro τ hτ h0 h2
    by_cases h1 : V'.ptr n τ = 0
    · exact h₂.zero hτ h1 h2
    · rw [h₂.keep hn hτ.valid h1, h₂.data hτ h1, h₁.zero hτ h0 h1]
  size := h₂.size.trans h₁.size

theorem mono (h : Grow R S n P V V') (hPQ : ∀ τ, P τ → Q τ) : Grow R S n Q V V' where
  toExtend := h.toExtend.mono hPQ
  data := h.data
  zero := h.zero
  size := h.size

end Grow

namespace Reduce

theorem refl (h : Own R S V) : Reduce R S n V V where
  own := h
  sub _ _ := Or.inl rfl
  data _ _ _ := rfl
  bits hb := hb
  freed h1 h2 := by rw [h1] at h2; cases h2
  ino _ := rfl
  same := DView.Same.refl _

/-- A position that is still used holds what it held. -/
theorem ptr_eq (h : Reduce R S n V V') (hm : S m) (hτ : τ.Valid)
    (h0 : V'.ptr m τ ≠ 0) : V'.ptr m τ = V.ptr m τ := by
  rcases h.sub hm hτ with h1 | ⟨_, h1⟩
  · exact h1
  · exact absurd h1 h0

theorem trans (hn : S n) (h₁ : Reduce R S n V V') (h₂ : Reduce R S n V' V'') :
    Reduce R S n V V'' where
  own := h₂.own
  sub := by
    intro m τ hm hτ
    rcases h₂.sub hm hτ with h2 | h2
    · rw [h2]
      exact h₁.sub hm hτ
    · exact Or.inr h2
  data := by
    intro m τ hm hτ h0
    have h2 := h₂.ptr_eq hm hτ.valid h0
    rw [h₂.data hm hτ h0, h2, h₁.data hm hτ (by rwa [← h2])]
  bits hb := h₁.bits (h₂.bits hb)
  freed := by
    intro b hb hb2
    cases hb1 : V'.bm b with
    | false => exact h₁.freed hb hb1
    | true =>
        obtain ⟨τ, hτ, he, h0⟩ := h₂.freed hb1 hb2
        exact ⟨τ, hτ, by rw [← h₁.ptr_eq hn hτ (by rwa [he]), he], h0⟩
  ino hm := by rw [h₂.ino hm, h₁.ino hm]
  same := h₂.same.trans h₁.same

/-- The map of another inode does not change. -/
theorem ptr_other (h : Reduce R S n V V') (hmn : m ≠ n) (hm : S m)
    (hτ : τ.Valid) : V'.ptr m τ = V.ptr m τ := by
  rcases h.sub hm hτ with h1 | ⟨h1, _⟩
  · exact h1
  · exact absurd h1 hmn

/-- Only blocks of the region are freed. -/
theorem reserved (hn : S n) (ho : Own R S V) (h : Reduce R S n V V')
    (hr : Reserved R N V) : Reserved R N V' := by
  intro b hb hR
  by_contra hfree
  obtain ⟨τ, hτ, rfl, h0⟩ := h.freed (hr b hb hR) (by simpa using hfree)
  exact hR (ho.region hn hτ h0)

end Reduce

theorem Tidy.refl : Tidy n V V := by
  intro τ _ h0 h1
  exact absurd h1 h0

theorem Tidy.trans (hn : S n) (r₁ : Reduce R S n V V') (r₂ : Reduce R S n V' V'')
    (h₁ : Tidy n V V') (h₂ : Tidy n V' V'') : Tidy n V V'' := by
  intro τ hτ h0 h2
  by_cases h1 : V'.ptr n τ = 0
  · by_contra hb
    have hb' := r₂.bits (by simpa using hb)
    rw [h₁ τ hτ h0 h1] at hb'
    cases hb'
  · rw [← r₁.ptr_eq hn hτ h1]
    exact h₂ τ hτ h1 h2

/-! ## One position -/

/-- A fresh block at an empty position. -/
theorem Own.grow_allocCell {b : Nat} (h : Own R S V) (hn : S n) (hσ : σ.Valid)
    (h0 : V.ptr n σ = 0) (hp : ∀ t i, σ = .ent t i → V.ptr n t ≠ 0) (hb : V.bm b = false)
    (hb0 : b ≠ 0) (hlt : b < 2 ^ 32) (hR : R b) : Grow R S n (· = σ) V (V.allocCell n σ b) := by
  have hptr : ∀ {m : Nat} {τ : Slot}, S m → τ.Valid →
      (V.allocCell n σ b).ptr m τ = if m = n ∧ τ = σ then b else V.ptr m τ :=
    fun hm hτ => h.ptr_allocCell hn hσ h0 hp hb hb0 hlt hm hτ
  have hbm : (V.allocCell n σ b).bm = update V.bm b true := by
    unfold allocCell
    rw [setCell_bm]
    rfl
  -- A block that is in use keeps its data, unless it is the rewritten table.
  have hdata : ∀ {m : Nat} {τ : Slot}, S m → τ.Leaf → V.ptr m τ ≠ 0 →
      (V.allocCell n σ b).data (V.ptr m τ) = V.data (V.ptr m τ) := by
    intro m τ hm hτ hne
    refine h.allocCell_data_of_ne hn hσ hb (h.ptr_ne_of_free hm hτ.valid hb hne) ?_
    rintro t i rfl he
    obtain ⟨-, rfl⟩ := h.inj hm hn hτ.valid hσ.parent hne he
    exact hτ.2 hσ.table
  refine
    { own := ⟨?_, ?_, ?_⟩, keep := ?_, new := ?_, other := fun _ hm hτ hne => hdata hm hτ hne,
      mark := ?_, bits := ?_, ino := ?_, same := ?_, data := fun hτ hne => hdata hn hτ hne,
      zero := ?_, size := (setCell_ino_same (V.fresh b) n σ b).2.2 }
  · -- `b` was free, so it stands nowhere else.
    intro k m τ ρ hk hm hτ hρ hne he
    rw [hptr hk hτ] at hne he
    rw [hptr hm hρ] at he
    split_ifs at hne he with h1 h2 h2
    · exact ⟨h1.1.trans h2.1.symm, h1.2.trans h2.2.symm⟩
    · exact absurd he.symm (h.ptr_ne_of_free hm hρ hb (by rwa [← he]))
    · exact absurd he (h.ptr_ne_of_free hk hτ hb hne)
    · exact h.inj hk hm hτ hρ hne he
  · intro m τ hm hτ hne
    rw [hptr hm hτ] at hne ⊢
    split_ifs at hne ⊢ with h1
    · exact hR
    · exact h.region hm hτ hne
  · intro m τ hm hτ hne
    rw [hptr hm hτ] at hne ⊢
    rw [hbm]
    split_ifs at hne ⊢ with h1
    · exact update_self ..
    · rw [update_of_ne (h.ptr_ne_of_free hm hτ hb hne)]
      exact h.marked hm hτ hne
  · intro m τ hm hτ hne
    rw [hptr hm hτ, if_neg]
    rintro ⟨rfl, rfl⟩
    exact hne h0
  · intro m τ hm hτ hz hne
    rw [hptr hm hτ] at hne ⊢
    split_ifs at hne ⊢ with h1
    · exact ⟨h1.1, h1.2, hb⟩
    · exact absurd hz hne
  · intro c hc
    rw [hbm]
    by_cases hcb : c = b
    · rw [hcb]
      exact update_self ..
    · rwa [update_of_ne hcb]
  · intro c hc
    rw [hbm] at hc
    by_cases hcb : c = b
    · exact Or.inr ⟨σ, hσ, by rw [hptr hn hσ, if_pos ⟨rfl, rfl⟩, hcb], by rwa [hcb]⟩
    · rw [update_of_ne hcb] at hc
      exact Or.inl hc
  · intro m hm
    unfold allocCell
    rw [setCell_ino_of_ne hm]
    rfl
  · obtain ⟨ht, hl, -⟩ := setCell_ino_same (V.fresh b) n σ b
    exact ⟨ht, hl⟩
  · intro τ hτ hz hne
    rw [hptr hn hτ.valid] at hne ⊢
    split_ifs at hne ⊢ with h1
    · exact h.allocCell_data_self hn hσ hp hb
    · exact absurd hz hne

/-- A position is freed. -/
theorem Own.reduce_freeCell (h : Own R S V) (hn : S n) (hσ : σ.Valid)
    (h0 : V.ptr n σ ≠ 0) : Reduce R S n V (V.freeCell n σ) := by
  classical
  have hptr : ∀ {m : Nat} {τ : Slot}, S m → τ.Valid →
      (V.freeCell n σ).ptr m τ = if m = n ∧ σ.On τ then 0 else V.ptr m τ :=
    fun hm hτ => h.ptr_freeCell hn hσ h0 hm hτ
  have hbm : (V.freeCell n σ).bm = update V.bm (V.ptr n σ) false := by
    unfold freeCell
    rw [setCell_bm]
    rfl
  refine
    { own := ⟨?_, ?_, ?_⟩, sub := ?_, data := ?_, bits := ?_, freed := ?_, ino := ?_, same := ?_ }
  · intro k m τ ρ hk hm hτ hρ hne he
    rw [hptr hk hτ] at hne he
    rw [hptr hm hρ] at he
    split_ifs at hne he with h1 h2
    · exact absurd rfl hne
    · exact absurd rfl hne
    · exact absurd he hne
    · exact h.inj hk hm hτ hρ hne he
  · intro m τ hm hτ hne
    rw [hptr hm hτ] at hne ⊢
    split_ifs at hne ⊢ with h1
    · exact absurd rfl hne
    · exact h.region hm hτ hne
  · intro m τ hm hτ hne
    rw [hptr hm hτ] at hne ⊢
    rw [hbm]
    split_ifs at hne ⊢ with h1
    · exact absurd rfl hne
    · -- The freed block stands only at `σ`, which is now empty.
      rw [update_of_ne]
      · exact h.marked hm hτ hne
      · intro he
        obtain ⟨rfl, rfl⟩ := h.inj hm hn hτ hσ hne he
        exact h1 ⟨rfl, Slot.On.refl _⟩
  · intro m τ hm hτ
    rw [hptr hm hτ]
    split_ifs with h1
    · exact Or.inr ⟨h1.1, rfl⟩
    · exact Or.inl rfl
  · intro m τ hm hτ hne
    have he := hptr hm hτ.valid
    rw [he] at hne ⊢
    split_ifs at hne ⊢ with h1
    · exact absurd rfl hne
    · unfold freeCell
      rw [setCell_data_of_ne]
      · rfl
      · rintro t i rfl he
        rw [ptr_clear] at he
        obtain ⟨-, rfl⟩ := h.inj hm hn hτ.valid hσ.parent hne he
        exact hτ.2 hσ.table
  · intro b hb
    rw [hbm] at hb
    by_cases hbσ : b = V.ptr n σ
    · rw [hbσ, update_self] at hb
      cases hb
    · rwa [update_of_ne hbσ] at hb
  · intro b hb hb'
    rw [hbm] at hb'
    by_cases hbσ : b = V.ptr n σ
    · exact ⟨σ, hσ, hbσ.symm, by rwa [hbσ]⟩
    · rw [update_of_ne hbσ, hb] at hb'
      cases hb'
  · intro m hm
    unfold freeCell
    rw [setCell_ino_of_ne hm]
    rfl
  · obtain ⟨ht, hl, -⟩ := setCell_ino_same (V.clear (V.ptr n σ)) n σ 0
    exact ⟨ht, hl⟩

/-- A position with nothing below it is freed without loss. -/
theorem Own.tidy_freeCell (h : Own R S V) (hn : S n) (hσ : σ.Valid) (h0 : V.ptr n σ ≠ 0)
    (hbelow : ∀ τ : Slot, τ.Valid → σ.On τ → τ ≠ σ → V.ptr n τ = 0) :
    Tidy n V (V.freeCell n σ) := by
  classical
  intro τ hτ hne hz
  rw [h.ptr_freeCell hn hσ h0 hn hτ] at hz
  split_ifs at hz with h1
  · by_cases hτσ : τ = σ
    · unfold freeCell
      rw [setCell_bm, hτσ]
      exact update_self ..
    · exact absurd (hbelow τ hτ h1.2 hτσ) hne
  · exact absurd hz hne

/-! ## Writing into a data block -/

/-- Writing into a data block changes no map. -/
theorem Own.ptr_setData (h : Own R S V) (hn : S n) (hτ : τ.Leaf)
    (h0 : V.ptr n τ ≠ 0) (buf : Buf) (hm : S m) (hσ : σ.Valid) :
    (V.setData (V.ptr n τ) buf).ptr m σ = V.ptr m σ := by
  have hino : ((V.setData (V.ptr n τ) buf).ino m).addr = (V.ino m).addr := rfl
  refine ptr_congr hino ?_ hσ
  intro t ht hne
  refine update_of_ne (fun he => ?_) _ _
  obtain ⟨-, rfl⟩ := h.inj hm hn ht.valid hτ.valid hne he
  exact hτ.2 ht

/-- Ownership does not read data blocks that are no tables. -/
theorem Own.setData (h : Own R S V) (hn : S n) (hτ : τ.Leaf)
    (h0 : V.ptr n τ ≠ 0) (buf : Buf) : Own R S (V.setData (V.ptr n τ) buf) := by
  have hptr : ∀ {m : Nat} {σ : Slot}, S m → σ.Valid →
      (V.setData (V.ptr n τ) buf).ptr m σ = V.ptr m σ :=
    fun hm hσ => h.ptr_setData hn hτ h0 buf hm hσ
  exact h.congr hptr rfl

/-- One turn of a write: the block of the current offset is found or
allocated, and gets a new content with the next `len'` bytes.  What is before
them is kept, and what is after them is kept if the file had the block. -/
theorem Written.put {buf : Buf} (hn : S n)
    (h : Written R S n off len src P V V') (hg : Grow R S n P V' V'')
    (hbn : (off + len) / 1024 < 65804) (h0 : V''.ptr n (Slot.ofBlock ((off + len) / 1024)) ≠ 0)
    (hlen : (off + len) % 1024 + len' ≤ 1024)
    (hin : ∀ i < len', buf ((off + len) % 1024 + i) = src (len + i))
    (hout : ∀ j, j < (off + len) % 1024 ∨ (off + len) % 1024 + len' ≤ j ∧
        V.ptr n (Slot.ofBlock ((off + len) / 1024)) ≠ 0 →
      buf j = V''.data (V''.ptr n (Slot.ofBlock ((off + len) / 1024))) j) :
    Written R S n off (len + len') src P V
      (V''.setData (V''.ptr n (Slot.ofBlock ((off + len) / 1024))) buf) := by
  set τ := Slot.ofBlock ((off + len) / 1024) with hτdef
  have hleaf : τ.Leaf := Slot.leaf_ofBlock hbn
  have hext := h.toExtend.trans hn hg.toExtend
  have hptr : ∀ {m : Nat} {σ : Slot}, S m → σ.Valid →
      (V''.setData (V''.ptr n τ) buf).ptr m σ = V''.ptr m σ :=
    fun hm hσ => hg.own.ptr_setData hn hleaf h0 buf hm hσ
  have hdata : ∀ {b : Nat}, b ≠ V''.ptr n τ → (V''.setData (V''.ptr n τ) buf).data b = V''.data b :=
    fun hb => update_of_ne hb _ _
  -- The bytes of inode `n` afterwards: the new ones, and those that are kept.
  have hnew : ∀ {i : Nat}, off + len ≤ i → i < off + len + len' →
      (V''.setData (V''.ptr n τ) buf).byteAt n i = src (i - off) := by
    intro i hlo hhi
    have hi : i / 1024 = (off + len) / 1024 := by omega
    unfold byteAt
    rw [hi, hptr hn hleaf.valid]
    show update V''.data (V''.ptr n τ) buf (V''.ptr n τ) (i % 1024) = _
    rw [update_self, show i % 1024 = (off + len) % 1024 + (i - (off + len)) by omega,
      hin _ (by omega)]
    congr 1
    omega
  have hkeep : ∀ {i : Nat}, i / 1024 < 65804 → V''.ptr n (Slot.ofBlock (i / 1024)) ≠ 0 →
      i < off + len ∨ off + len + len' ≤ i ∧ V.ptr n (Slot.ofBlock (i / 1024)) ≠ 0 →
      (V''.setData (V''.ptr n τ) buf).byteAt n i = V''.byteAt n i := by
    intro i hi hne hold
    unfold byteAt
    rw [hptr hn (Slot.valid_ofBlock hi)]
    by_cases hsame : i / 1024 = (off + len) / 1024
    · rw [hsame] at hold ⊢
      show update V''.data (V''.ptr n τ) buf (V''.ptr n τ) (i % 1024) = _
      rw [update_self]
      refine hout _ ?_
      rcases hold with hlt | ⟨hge, hold⟩
      · exact Or.inl (by omega)
      · exact Or.inr ⟨by omega, hold⟩
    · rw [hdata]
      intro he
      have hc := (hg.own.inj hn hn (Slot.valid_ofBlock hi) hleaf.valid hne he).2
      exact hsame (Slot.ofBlock_injective hc)
  refine
    { own := hg.own.setData hn hleaf h0 buf, keep := ?_, new := ?_, other := ?_,
      mark := hext.mark, bits := ?_, ino := hext.ino, same := hext.same, old := ?_, here := ?_ }
  · intro m σ hm hσ hne
    rw [hptr hm hσ]
    exact hext.keep hm hσ hne
  · intro m σ hm hσ hz hne
    rw [hptr hm hσ] at hne ⊢
    exact hext.new hm hσ hz hne
  · intro m σ hmn hm hσ hne
    rw [hdata, hext.other hmn hm hσ hne]
    intro he
    have hk := hext.keep hm hσ.valid hne
    exact hmn (hg.own.inj hm hn hσ.valid hleaf.valid (by rwa [hk]) (hk.trans he)).1
  · intro b hb
    rcases hext.bits hb with hb | ⟨σ, hσ, he, hb0⟩
    · exact Or.inl hb
    · exact Or.inr ⟨σ, hσ, by rw [hptr hn hσ, he], hb0⟩
  · intro i hi hne hrange
    have h1 := h.toExtend.ptr_ne hn (Slot.valid_ofBlock hi) hne
    have h2 := hg.toExtend.ptr_ne hn (Slot.valid_ofBlock hi) h1
    rw [hkeep hi h2 (by omega), ← h.old hi hne (by omega)]
    unfold byteAt
    rw [hg.keep hn (Slot.valid_ofBlock hi) h1, hg.data (Slot.leaf_ofBlock hi) h1]
  · intro i hlo hhi
    by_cases hlt : i < off + len
    · have hi : i / 1024 < 65804 := by omega
      obtain ⟨h1, hb⟩ := h.here hlo hlt
      have h2 := hg.toExtend.ptr_ne hn (Slot.valid_ofBlock hi) h1
      rw [hptr hn (Slot.valid_ofBlock hi), hkeep hi h2 (Or.inl hlt)]
      refine ⟨h2, ?_⟩
      rw [← hb]
      unfold byteAt
      rw [hg.keep hn (Slot.valid_ofBlock hi) h1, hg.data (Slot.leaf_ofBlock hi) h1]
    · have hi : i / 1024 = (off + len) / 1024 := by omega
      rw [hptr hn (Slot.valid_ofBlock (by omega)), hnew (by omega) (by omega), hi]
      exact ⟨h0, rfl⟩

/-- One turn of a write: the block of the current offset is found or
allocated, and `len'` bytes of it are replaced. -/
theorem Written.step (hn : S n) (h : Written R S n off len src P V V') (hg : Grow R S n P V' V'')
    (hbn : (off + len) / 1024 < 65804) (h0 : V''.ptr n (Slot.ofBlock ((off + len) / 1024)) ≠ 0)
    (hlen : (off + len) % 1024 + len' ≤ 1024) :
    Written R S n off (len + len') src P V
      (V''.setData (V''.ptr n (Slot.ofBlock ((off + len) / 1024)))
        ((V''.data (V''.ptr n (Slot.ofBlock ((off + len) / 1024)))).copy ((off + len) % 1024)
          (fun i => src (len + i)) len')) := by
  refine h.put hn hg hbn h0 hlen (fun i hi => ?_) fun j hj => ?_
  · rw [Buf.copy_of_mem (by omega), Nat.add_sub_cancel_left]
  · exact Buf.copy_of_not_mem (by omega)

/-! ## Sizes -/

theorem Own.setSize (h : Own R S V) (n size : Nat) : Own R S (V.setSize n size) :=
  h.congr (fun _ _ => ptr_setSize ..) rfl

@[simp] theorem Vol.byteAt_setSize (V : Vol) (n size m i : Nat) :
    (V.setSize n size).byteAt m i = V.byteAt m i := by
  unfold byteAt
  rw [ptr_setSize, setSize_data]

theorem Written.setSize (h : Written R S n off len src P V V')
    (size : Nat) : Written R S n off len src P V (V'.setSize n size) where
  own := h.own.setSize n size
  keep hm hτ h0 := by rw [ptr_setSize]; exact h.keep hm hτ h0
  new hm hτ h0 h1 := by
    rw [ptr_setSize] at h1 ⊢
    exact h.new hm hτ h0 h1
  other := h.other
  mark := h.mark
  bits hb := by
    simp only [ptr_setSize]
    exact h.bits hb
  ino hm := (setSize_ino_of_ne hm).trans (h.ino hm)
  same := by rw [setSize_ino_self]; exact h.same
  old hi h0 hout := by rw [byteAt_setSize]; exact h.old hi h0 hout
  here h1 h2 := by
    rw [byteAt_setSize, ptr_setSize]
    exact h.here h1 h2

theorem Reduce.setSize (h : Reduce R S n V V') (size : Nat) :
    Reduce R S n V (V'.setSize n size) where
  own := h.own.setSize n size
  sub hm hτ := by rw [ptr_setSize]; exact h.sub hm hτ
  data hm hτ h0 := by
    rw [ptr_setSize] at h0 ⊢
    exact h.data hm hτ h0
  bits := h.bits
  freed := h.freed
  ino hm := (setSize_ino_of_ne hm).trans (h.ino hm)
  same := by rw [setSize_ino_self]; exact h.same

theorem Tidy.setSize (h : Tidy n V V') (size : Nat) : Tidy n V (V'.setSize n size) := by
  intro τ hτ h0 h1
  rw [ptr_setSize] at h1
  exact h τ hτ h0 h1

theorem Written.refl (h : Own R S V) : Written R S n off 0 src P V V where
  toExtend := .refl h
  old _ _ _ := rfl
  here h1 h2 := by omega

end Dmaos
