import Dmaos.Volume.Change

/-!
# Giving blocks back

`dropBlock` frees the position of one file block and, when that leaves a
second-level table without entries, the table.  `Dropped` says what has
happened once the blocks from `lo` up to `hi` have been dropped one after the
other: the positions of rank below `lo` hold what they held, and the data
positions from `lo` on are empty.

The map of an inode is *exact* when it uses the positions of rank below the
number of its blocks and no others.  Dropping keeps a map exact and loses no
block (`Dropped.exact`, `Dropped.tidy`).
-/

namespace Dmaos

namespace Vol

/-- Free a position if it is in use. -/
def freeAt (V : Vol) (n : Nat) (σ : Slot) : Vol := if V.ptr n σ = 0 then V else V.freeCell n σ

/-- The table at position `t` has no entries. -/
def TableEmpty (V : Vol) (n : Nat) (t : Slot) : Prop := ∀ i < 256, V.ptr n (.ent t i) = 0

instance (V : Vol) (n : Nat) (t : Slot) : Decidable (V.TableEmpty n t) :=
  Nat.decidableBallLT 256 fun i _ => V.ptr n (.ent t i) = 0

/-- Free a table if it has no entries. -/
def sweep (V : Vol) (n : Nat) (t : Slot) : Vol := if V.TableEmpty n t then V.freeAt n t else V

/-- Free a file block and the second-level table it leaves empty. -/
def dropBlock (V : Vol) (n bn : Nat) : Vol :=
  if bn < 268 then V.freeAt n (Slot.ofBlock bn)
  else (V.freeAt n (Slot.ofBlock bn)).sweep n (.ent (.top 13) ((bn - 268) / 256))

/-- No second-level table is without entries. -/
def Full (V : Vol) (n : Nat) : Prop :=
  ∀ k < 256, V.ptr n (.ent (.top 13) k) ≠ 0 → ¬ V.TableEmpty n (.ent (.top 13) k)

/-- The map of the inode uses the positions of rank below `size` and no others. -/
def Exact (V : Vol) (n size : Nat) : Prop := ∀ σ : Slot, σ.Valid → (V.ptr n σ ≠ 0 ↔ σ.rank < size)

theorem Exact.full {V : Vol} {n size : Nat} (h : V.Exact n size) : V.Full n := by
  intro k hk h0 hempty
  have hlt := (h (.ent (.top 13) k) ⟨Or.inr rfl, hk⟩).mp h0
  rw [Slot.rank_table] at hlt
  have hv : (Slot.ent (.ent (.top 13) k) 0).Valid := (Slot.leaf_double hk (by omega)).valid
  refine (h _ hv).mpr ?_ (hempty 0 (by omega))
  rwa [Slot.rank_double, Nat.add_zero]

end Vol

section Free

variable {R S : Nat → Prop} {n : Nat} {V V' V'' : Vol} {σ : Slot}

theorem Own.reduce_freeAt (h : Own R S V) (hn : S n) (hσ : σ.Valid) :
    Reduce R S n V (V.freeAt n σ) := by
  unfold Vol.freeAt
  split_ifs with h0
  · exact .refl h
  · exact h.reduce_freeCell hn hσ h0

/-- The position and what is below it are empty now; the rest is as before. -/
theorem Own.ptr_freeAt (h : Own R S V) (hn : S n) (hσ : σ.Valid) {τ : Slot} (hτ : τ.Valid)
    [Decidable (σ.On τ)] : (V.freeAt n σ).ptr n τ = if σ.On τ then 0 else V.ptr n τ := by
  classical
  unfold Vol.freeAt
  split_ifs with h0 hon hon
  · exact Vol.ptr_eq_zero_of_on h0 hon
  · rfl
  · rw [h.ptr_freeCell hn hσ h0 hn hτ, if_pos ⟨rfl, hon⟩]
  · rw [h.ptr_freeCell hn hσ h0 hn hτ, if_neg (fun hc => hon hc.2)]

theorem Own.ptr_freeAt_of_not_on (h : Own R S V) (hn : S n) (hσ : σ.Valid) {τ : Slot}
    (hτ : τ.Valid) (hon : ¬ σ.On τ) : (V.freeAt n σ).ptr n τ = V.ptr n τ := by
  classical
  rw [h.ptr_freeAt hn hσ hτ, if_neg hon]

theorem Own.ptr_freeAt_of_on (h : Own R S V) (hn : S n) (hσ : σ.Valid) {τ : Slot}
    (hτ : τ.Valid) (hon : σ.On τ) : (V.freeAt n σ).ptr n τ = 0 := by
  classical
  rw [h.ptr_freeAt hn hσ hτ, if_pos hon]

theorem Own.tidy_freeAt (h : Own R S V) (hn : S n) (hσ : σ.Valid)
    (hbelow : ∀ τ : Slot, τ.Valid → σ.On τ → τ ≠ σ → V.ptr n τ = 0) : Tidy n V (V.freeAt n σ) := by
  unfold Vol.freeAt
  split_ifs with h0
  · exact Tidy.refl
  · exact h.tidy_freeCell hn hσ h0 hbelow

/-- Nothing is below a data position. -/
theorem Own.tidy_freeAt_leaf (h : Own R S V) (hn : S n) (hσ : σ.Leaf) : Tidy n V (V.freeAt n σ) :=
  h.tidy_freeAt hn hσ.valid fun _ hτ hon hne => absurd (hon.eq_of_leaf hσ hτ).symm hne

/-- The entries of an empty table, and so all that is below it, are empty. -/
theorem Vol.TableEmpty.below {t : Slot} (h : V.TableEmpty n t) {τ : Slot} (hτ : τ.Valid)
    (hon : t.On τ) (hne : τ ≠ t) : V.ptr n τ = 0 := by
  induction τ with
  | top i => exact absurd hon.symm hne
  | ent u i ih =>
      rcases hon with hon | hon
      · exact absurd hon.symm hne
      · by_cases hu : u = t
        · subst hu
          exact h i hτ.2
        · exact Vol.ptr_ent_of_eq (ih hτ.parent hon hu)

theorem Own.reduce_sweep {t : Slot} (h : Own R S V) (hn : S n) (ht : t.Valid) :
    Reduce R S n V (V.sweep n t) := by
  unfold Vol.sweep
  split_ifs
  · exact h.reduce_freeAt hn ht
  · exact .refl h

theorem Own.tidy_sweep {t : Slot} (h : Own R S V) (hn : S n) (ht : t.Valid) :
    Tidy n V (V.sweep n t) := by
  unfold Vol.sweep
  split_ifs with hempty
  · exact h.tidy_freeAt hn ht fun τ hτ hon hne => hempty.below hτ hon hne
  · exact Tidy.refl

theorem Own.ptr_sweep_of_not_on {t : Slot} (h : Own R S V) (hn : S n) (ht : t.Valid) {τ : Slot}
    (hτ : τ.Valid) (hon : ¬ t.On τ) : (V.sweep n t).ptr n τ = V.ptr n τ := by
  unfold Vol.sweep
  split_ifs
  · exact h.ptr_freeAt_of_not_on hn ht hτ hon
  · rfl

/-- A table that is swept is empty afterwards or has entries. -/
theorem Own.sweep_full {t : Slot} (h : Own R S V) (hn : S n) (ht : t.Valid)
    (h0 : (V.sweep n t).ptr n t ≠ 0) : V.sweep n t = V ∧ ¬ V.TableEmpty n t := by
  unfold Vol.sweep at h0 ⊢
  split_ifs at h0 ⊢ with hempty
  · exact absurd (h.ptr_freeAt_of_on hn ht ht (Slot.On.refl t)) h0
  · exact ⟨rfl, hempty⟩

end Free

/-! ## Dropping a range of blocks -/

/-- The blocks from `lo` up to `hi` of inode `n` have been dropped. -/
structure Dropped (R S : Nat → Prop) (n lo hi : Nat) (V V' : Vol) : Prop where
  reduce : Reduce R S n V V'
  /-- The positions below `lo` hold what they held. -/
  keep : ∀ {σ : Slot}, σ.Valid → σ.rank < lo → V'.ptr n σ = V.ptr n σ
  /-- The data positions of the range are empty. -/
  gone : ∀ {b : Nat}, lo ≤ b → b < hi → V'.ptr n (Slot.ofBlock b) = 0
  tidy : Tidy n V V'
  full : V.Full n → V'.Full n

namespace Dropped

variable {R S : Nat → Prop} {n lo hi : Nat} {V V' : Vol}

theorem refl (h : Own R S V) : Dropped R S n lo lo V V where
  reduce := .refl h
  keep _ _ := rfl
  gone h1 h2 := by omega
  tidy := .refl
  full h := h

/-- One more block is dropped. -/
theorem step (hn : S n) (h : Dropped R S n lo hi V V') (hlo : lo ≤ hi) (hhi : hi < 65804)
    (hcov : ∀ b < lo, V.ptr n (Slot.ofBlock b) ≠ 0) :
    Dropped R S n lo (hi + 1) V (V'.dropBlock n hi) := by
  have hown := h.reduce.own
  have hleaf := Slot.leaf_ofBlock hhi
  set W := V'.freeAt n (Slot.ofBlock hi) with hW
  have hr := hown.reduce_freeAt hn hleaf.valid
  have hptr : ∀ {τ : Slot}, τ.Valid → τ ≠ Slot.ofBlock hi → W.ptr n τ = V'.ptr n τ :=
    fun hτ hne => hown.ptr_freeAt_of_not_on hn hleaf.valid hτ
      fun hon => hne (hon.eq_of_leaf hleaf hτ).symm
  have hW0 : W.ptr n (Slot.ofBlock hi) = 0 :=
    hown.ptr_freeAt_of_on hn hleaf.valid hleaf.valid (Slot.On.refl _)
  have hkeep : ∀ {σ : Slot}, σ.Valid → σ.rank < lo → W.ptr n σ = V.ptr n σ := by
    intro σ hσ hlt
    rw [hptr hσ, h.keep hσ hlt]
    rintro rfl
    rw [Slot.rank_ofBlock] at hlt
    omega
  have hgone : ∀ {b : Nat}, lo ≤ b → b < hi + 1 → W.ptr n (Slot.ofBlock b) = 0 := by
    intro b h1 h2
    by_cases hb : b = hi
    · rw [hb, hW0]
    · rw [hptr (Slot.valid_ofBlock (by omega)) (fun he => hb (Slot.ofBlock_injective he)),
        h.gone h1 (by omega)]
  have htidy := Tidy.trans hn h.reduce hr h.tidy (hown.tidy_freeAt_leaf hn hleaf)
  -- A second-level table keeps its entries unless `hi` is one of them.
  have hother : ∀ k < 256, ¬ (268 ≤ hi ∧ k = (hi - 268) / 256) →
      V'.Full n → W.ptr n (.ent (.top 13) k) ≠ 0 → ¬ W.TableEmpty n (.ent (.top 13) k) := by
    intro k hk hne hfull h0 hempty
    have hv : (Slot.ent (.top 13) k).Valid := ⟨Or.inr rfl, hk⟩
    rw [hptr hv (fun he => hleaf.2 (he ▸ ⟨rfl, hk⟩))] at h0
    refine hfull k hk h0 fun j hj => ?_
    have hvj := (Slot.leaf_double hk hj).valid
    rw [← hptr hvj, hempty j hj]
    intro he
    have hrank := congrArg Slot.rank he
    rw [Slot.rank_double, Slot.rank_ofBlock] at hrank
    omega
  unfold Vol.dropBlock
  rw [← hW]
  split_ifs with hsmall
  · exact ⟨h.reduce.trans hn hr, hkeep, hgone, htidy,
      fun hf k hk => hother k hk (by omega) (h.full hf)⟩
  · set t := Slot.ent (.top 13) ((hi - 268) / 256) with ht
    have htv : t.Valid := ⟨Or.inr rfl, by omega⟩
    have hrt : t.rank ≤ hi := by
      rw [ht, Slot.rank_table]
      omega
    refine ⟨(h.reduce.trans hn hr).trans hn (hr.own.reduce_sweep hn htv), ?_, ?_,
      Tidy.trans hn (h.reduce.trans hn hr) (hr.own.reduce_sweep hn htv) htidy
        (hr.own.tidy_sweep hn htv), ?_⟩
    · intro σ hσ hlt
      rw [← hkeep hσ hlt]
      by_cases hon : t.On σ
      · -- The first block of the table is below `lo`, so the table is not empty.
        have hlo' : t.rank < lo := Nat.lt_of_le_of_lt (hon.rank_mono hσ) hlt
        have hfirst : W.ptr n (Slot.ofBlock t.rank) ≠ 0 := by
          rw [hkeep (Slot.valid_ofBlock (by omega)) (by rwa [Slot.rank_ofBlock])]
          exact hcov _ hlo'
        have hne : ¬ W.TableEmpty n t := by
          have hfl := Slot.leaf_ofBlock (by omega : t.rank < 65804)
          intro hempty
          refine hfirst (hempty.below hfl.valid (Slot.on_ofBlock_rank htv) fun he => ?_)
          rw [he] at hfl
          exact hfl.2 ⟨rfl, by omega⟩
        unfold Vol.sweep
        rw [if_neg hne]
      · exact hr.own.ptr_sweep_of_not_on hn htv hσ hon
    · intro b h1 h2
      rcases (hr.own.reduce_sweep hn htv).sub hn (Slot.valid_ofBlock (by omega : b < 65804)) with
        he | ⟨_, he⟩
      · rw [he, hgone h1 h2]
      · exact he
    · intro hf k hk h0 hempty
      have hv : (Slot.ent (.top 13) k).Valid := ⟨Or.inr rfl, hk⟩
      by_cases hkt : k = (hi - 268) / 256
      · subst hkt
        obtain ⟨he, hne⟩ := hr.own.sweep_full hn htv h0
        rw [he] at hempty
        exact hne hempty
      · rw [hr.own.ptr_sweep_of_not_on hn htv hv] at h0
        · refine hother k hk (fun hc => hkt hc.2) (h.full hf) h0 fun j hj => ?_
          rw [← hr.own.ptr_sweep_of_not_on hn htv (Slot.leaf_double hk hj).valid, hempty j hj]
          exact fun hon => hkt (Slot.table_on_entry hon).symm
        · rintro (hon | hon)
          · have hrank := congrArg Slot.rank hon
            rw [ht, Slot.rank_table, Slot.rank_table] at hrank
            omega
          · rw [ht] at hon
            cases hon

/-- When the map was exact, the positions from `lo` on are empty, but for the
two tables the inode points to. -/
theorem ptr_eq_zero (hn : S n) (h : Dropped R S n lo hi V V') (hex : V.Exact n hi) {σ : Slot}
    (hσ : σ.Valid) (hlo : lo ≤ σ.rank) (h12 : σ ≠ .top 12) (h13 : σ ≠ .top 13) :
    V'.ptr n σ = 0 := by
  have hleaf : ∀ {τ : Slot}, τ.Leaf → lo ≤ τ.rank → V'.ptr n τ = 0 := by
    intro τ hτ hlo'
    by_cases hlt : τ.rank < hi
    · rw [← Slot.ofBlock_rank hτ, h.gone hlo' hlt]
    · have h0 : V.ptr n τ = 0 := by
        by_contra h0
        exact hlt ((hex τ hτ.valid).mp h0)
      rcases h.reduce.sub hn hτ.valid with he | ⟨_, he⟩
      · rw [he, h0]
      · exact he
  by_cases ht : σ.IsTable
  · rcases ht.cases with rfl | rfl | ⟨k, hk, rfl⟩
    · exact absurd rfl h12
    · exact absurd rfl h13
    · -- A second-level table without entries is not kept.
      by_contra h0
      refine h.full hex.full k hk h0 fun j hj => hleaf (Slot.leaf_double hk hj) ?_
      rw [Slot.rank_table] at hlo
      rw [Slot.rank_double]
      omega
  · exact hleaf ⟨hσ, ht⟩ hlo

end Dropped

/-! ## Dropping the end of a file -/

/-- Free the tables of the inode that `lo` blocks do not need. -/
def Vol.dropTables (V : Vol) (n lo : Nat) : Vol :=
  let W := if lo ≤ 12 then V.freeAt n (.top 12) else V
  if lo ≤ 268 then W.freeAt n (.top 13) else W

/-- Inode `n` has been cut to its first `lo` blocks. -/
structure Truncated (R S : Nat → Prop) (n lo hi : Nat) (V V' : Vol) : Prop where
  reduce : Reduce R S n V V'
  keep : ∀ {σ : Slot}, σ.Valid → σ.rank < lo → V'.ptr n σ = V.ptr n σ
  /-- An exact map stays exact, and the blocks it loses are free. -/
  exact : V.Exact n hi → Tidy n V V' ∧ V'.Exact n lo

section Truncate

variable {R S : Nat → Prop} {n lo hi : Nat} {V V' : Vol}

/-- Free one of the two tables of the inode, when all below it is empty. -/
theorem Tidy.freeAt_top {i : Nat} (hn : S n) (hi : i = 12 ∨ i = 13) (hr : Reduce R S n V V')
    (ht : Tidy n V V')
    (h0 : ∀ σ : Slot, σ.Valid → (Slot.top i).On σ → σ ≠ .top i → V'.ptr n σ = 0) :
    Tidy n V (V'.freeAt n (.top i)) := by
  have hv : (Slot.top i).Valid := by
    show i < 14
    omega
  exact Tidy.trans hn hr (hr.own.reduce_freeAt hn hv) ht (hr.own.tidy_freeAt hn hv h0)

theorem Slot.On.le_rank {σ τ : Slot} (hon : σ.On τ) (hτ : τ.Valid) (hlo : lo ≤ σ.rank) :
    lo ≤ τ.rank :=
  Nat.le_trans hlo (hon.rank_mono hτ)

theorem Dropped.truncated (hn : S n) (hlohi : lo ≤ hi) (h : Dropped R S n lo hi V V') :
    Truncated R S n lo hi V (V'.dropTables n lo) := by
  have h12 : (Slot.top 12).Valid := Slot.IsTable.valid (Or.inl rfl)
  have h13 : (Slot.top 13).Valid := Slot.IsTable.valid (Or.inr rfl)
  -- `W` is the volume after the single-indirect table has been looked at.
  obtain ⟨W, hW, hWr, hWptr, hWtidy⟩ : ∃ W,
      W = (if lo ≤ 12 then V'.freeAt n (.top 12) else V') ∧ Reduce R S n V W ∧
      (∀ {σ : Slot}, σ.Valid → W.ptr n σ = V'.ptr n σ ∨
        lo ≤ 12 ∧ (Slot.top 12).On σ ∧ W.ptr n σ = 0) ∧
      (V.Exact n hi → Tidy n V W ∧ (lo ≤ 12 → W.ptr n (.top 12) = 0)) := by
    refine ⟨_, rfl, ?_⟩
    split_ifs with hlo
    · refine ⟨h.reduce.trans hn (h.reduce.own.reduce_freeAt hn h12), fun {σ} hσ => ?_,
        fun hex => ⟨?_, fun _ => ?_⟩⟩
      · classical
        rw [h.reduce.own.ptr_freeAt hn h12 hσ]
        split_ifs with hon
        · exact Or.inr ⟨hlo, hon, rfl⟩
        · exact Or.inl rfl
      · refine Tidy.freeAt_top hn (Or.inl rfl) h.reduce h.tidy fun σ hσ hon hne => ?_
        refine h.ptr_eq_zero hn hex hσ (hon.le_rank hσ hlo) hne ?_
        rintro rfl
        cases hon
      · exact h.reduce.own.ptr_freeAt_of_on hn h12 h12 (Slot.On.refl _)
    · exact ⟨h.reduce, fun _ => Or.inl rfl, fun _ => ⟨h.tidy, fun hc => absurd hc hlo⟩⟩
  have hWkeep : ∀ {σ : Slot}, σ.Valid → σ.rank < lo → W.ptr n σ = V.ptr n σ := by
    intro σ hσ hlt
    rcases hWptr hσ with he | ⟨hlo, hon, _⟩
    · rw [he, h.keep hσ hlt]
    · exact absurd (hon.le_rank hσ hlo) (by omega)
  have hWzero : V.Exact n hi → ∀ {σ : Slot}, σ.Valid → lo ≤ σ.rank → σ ≠ .top 13 →
      W.ptr n σ = 0 := by
    intro hex σ hσ hlo hne
    by_cases h12' : σ = .top 12
    · subst h12'
      exact (hWtidy hex).2 hlo
    · rcases hWptr hσ with he | ⟨_, _, he⟩
      · rw [he, h.ptr_eq_zero hn hex hσ hlo h12' hne]
      · exact he
  show Truncated R S n lo hi V (if lo ≤ 268 then _ else _)
  rw [← hW]
  have hexact : ∀ W' : Vol, V.Exact n hi →
      (∀ {σ : Slot}, σ.Valid → σ.rank < lo → W'.ptr n σ = V.ptr n σ) →
      (∀ {σ : Slot}, σ.Valid → lo ≤ σ.rank → W'.ptr n σ = 0) → W'.Exact n lo := by
    intro W' hex hk hz σ hσ
    by_cases hlt : σ.rank < lo
    · rw [hk hσ hlt]
      exact ⟨fun _ => hlt, fun _ => (hex σ hσ).mpr (by omega)⟩
    · exact ⟨fun h0 => absurd (hz hσ (by omega)) h0, fun h1 => absurd h1 hlt⟩
  split_ifs with hlo
  · have hfree := hWr.own.reduce_freeAt hn h13
    have hkeep' : ∀ {σ : Slot}, σ.Valid → σ.rank < lo →
        (W.freeAt n (.top 13)).ptr n σ = V.ptr n σ := by
      intro σ hσ hlt
      rw [hWr.own.ptr_freeAt_of_not_on hn h13 hσ, hWkeep hσ hlt]
      exact fun hon => absurd (hon.le_rank hσ hlo) (by omega)
    refine ⟨hWr.trans hn hfree, hkeep', fun hex => ⟨?_, hexact _ hex hkeep' ?_⟩⟩
    · refine Tidy.freeAt_top hn (Or.inr rfl) hWr (hWtidy hex).1 fun σ hσ hon hne => ?_
      exact hWzero hex hσ (hon.le_rank hσ hlo) hne
    · intro σ hσ hlo'
      by_cases h13' : σ = .top 13
      · subst h13'
        exact hWr.own.ptr_freeAt_of_on hn h13 h13 (Slot.On.refl _)
      · rcases hfree.sub hn hσ with he | ⟨_, he⟩
        · rw [he, hWzero hex hσ hlo' h13']
        · exact he
  · refine ⟨hWr, hWkeep, fun hex => ⟨(hWtidy hex).1, hexact _ hex hWkeep ?_⟩⟩
    intro σ hσ hlo'
    refine hWzero hex hσ hlo' ?_
    rintro rfl
    exact hlo hlo'

end Truncate

end Dmaos
