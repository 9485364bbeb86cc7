import Dmaos.Lib.Buf
import Dmaos.Volume.Slot
import Mathlib.Logic.Function.Basic

/-!
# Volumes and the ownership of blocks

A *volume* is a device as the file system means it: the data blocks, the free
map and the inodes, as three independent components.  `Vol.ptr` follows the
block map of an inode.

`Own R S V` says that the inodes in `S` own their blocks: every block number
their maps hold lies in the data region `R`, is marked in the free map, and
stands at one position of one inode only.

A map changes one position at a time.  `allocCell` puts a fresh block, zeroed
and marked, at an empty position.  `freeCell` clears a position and the mark
of its block.  `ptr_allocCell` and `ptr_freeCell` say that no other position
of any inode changes, which rests on ownership: the table block that is
rewritten belongs to one position.
-/

namespace Dmaos

open Function

variable {V V' : Vol} {n i m v b : Nat} {t σ τ : Slot} {R S : Nat → Prop}

/-- The fields of an inode the file system uses. -/
@[ext]
structure DView where
  type : Nat
  nlink : Nat
  size : Nat
  addr : Nat → Nat

/-- A volume: data blocks, free map and inodes. -/
@[ext]
structure Vol where
  data : Nat → Buf
  bm : Nat → Bool
  ino : Nat → DView

namespace Vol

/-! ## Following the block map -/

/-- The block number at a position of the map of inode `n`; zero when the
position, or a table on the way to it, is empty. -/
def ptr (V : Vol) (n : Nat) : Slot → Nat
  | .top i => (V.ino n).addr i
  | .ent t i => if V.ptr n t = 0 then 0 else (V.data (V.ptr n t)).le32 (4 * i)

@[simp] theorem ptr_top (V : Vol) (n i : Nat) : V.ptr n (.top i) = (V.ino n).addr i := rfl

theorem ptr_ent (V : Vol) (n : Nat) (t : Slot) (i : Nat) :
    V.ptr n (.ent t i) = if V.ptr n t = 0 then 0 else (V.data (V.ptr n t)).le32 (4 * i) := rfl

theorem ptr_ent_of_ne (h : V.ptr n t ≠ 0) :
    V.ptr n (.ent t i) = (V.data (V.ptr n t)).le32 (4 * i) := if_neg h

theorem ptr_ent_of_eq (h : V.ptr n t = 0) :
    V.ptr n (.ent t i) = 0 := if_pos h

theorem ptr_parent_ne (h : V.ptr n (.ent t i) ≠ 0) :
    V.ptr n t ≠ 0 := fun h0 => h (ptr_ent_of_eq h0)

/-- Below an empty position everything is empty. -/
theorem ptr_eq_zero_of_on (h : V.ptr n σ = 0) :
    ∀ {τ : Slot}, σ.On τ → V.ptr n τ = 0
  | .top _, hon => by cases hon; exact h
  | .ent t i, hon => by
      rcases hon with rfl | hon
      · exact h
      · exact ptr_ent_of_eq (ptr_eq_zero_of_on h hon)

/-- On the way to a used position everything is used. -/
theorem ptr_ne_of_on (hon : σ.On τ) (h : V.ptr n τ ≠ 0) :
    V.ptr n σ ≠ 0 := fun h0 => h (ptr_eq_zero_of_on h0 hon)

/-- The map of an inode depends only on the inode and on its table blocks. -/
theorem ptr_congr (hino : (V'.ino n).addr = (V.ino n).addr)
    (hdata : ∀ t : Slot, t.IsTable → V.ptr n t ≠ 0 → V'.data (V.ptr n t) = V.data (V.ptr n t)) :
    ∀ {τ : Slot}, τ.Valid → V'.ptr n τ = V.ptr n τ
  | .top i, _ => by simp [hino]
  | .ent t i, hv => by
      have ht := ptr_congr hino hdata hv.parent
      by_cases h0 : V.ptr n t = 0
      · rw [ptr_ent_of_eq h0, ptr_ent_of_eq (ht.trans h0)]
      · rw [ptr_ent_of_ne h0, ptr_ent_of_ne (by rwa [ht]), ht, hdata t hv.table h0]

/-! ## Updates -/

/-- Replace a data block. -/
def setData (V : Vol) (b : Nat) (buf : Buf) : Vol :=
  { V with data := update V.data b buf }

/-- Mark a block and fill it with zeros, as `balloc` does. -/
def fresh (V : Vol) (b : Nat) : Vol :=
  { V with bm := update V.bm b true, data := update V.data b Buf.zero }

/-- Clear the mark of a block, as `bfree` does. -/
def clear (V : Vol) (b : Nat) : Vol := { V with bm := update V.bm b false }

/-- Replace an inode. -/
def setIno (V : Vol) (n : Nat) (d : DView) : Vol := { V with ino := update V.ino n d }

end Vol

/-- An inode with one pointer replaced. -/
def DView.setAddr (d : DView) (i v : Nat) : DView :=
  { d with addr := update d.addr i v }

namespace Vol

/-- Store `v` at a position of the map of inode `n`. -/
def setCell (V : Vol) (n : Nat) : Slot → Nat → Vol
  | .top i, v => V.setIno n ((V.ino n).setAddr i v)
  | .ent t i, v => V.setData (V.ptr n t) ((V.data (V.ptr n t)).put32 (4 * i) v)

theorem setCell_ent (V : Vol) (n : Nat) (t : Slot) (i v : Nat) :
    V.setCell n (.ent t i) v =
      V.setData (V.ptr n t) ((V.data (V.ptr n t)).put32 (4 * i) v) := rfl

/-- Set the size of an inode. -/
def setSize (V : Vol) (n size : Nat) : Vol := V.setIno n { V.ino n with size := size }

/-- Put a fresh block at a position. -/
def allocCell (V : Vol) (n : Nat) (σ : Slot) (b : Nat) : Vol := (V.fresh b).setCell n σ b

theorem allocCell_ino_ent (V : Vol) (n : Nat) (t : Slot) (i b : Nat) :
    (V.allocCell n (.ent t i) b).ino = V.ino := rfl

/-- Free the block at a position. -/
def freeCell (V : Vol) (n : Nat) (σ : Slot) : Vol := (V.clear (V.ptr n σ)).setCell n σ 0

@[simp] theorem setCell_bm (V : Vol) (n : Nat) (σ : Slot) (v : Nat) :
    (V.setCell n σ v).bm = V.bm := by
  cases σ <;> rfl

theorem setCell_ino_of_ne (h : m ≠ n) : (V.setCell n σ v).ino m = V.ino m := by
  cases σ with
  | top i => exact update_of_ne h _ _
  | ent t i => rfl

theorem setCell_ino_same (V : Vol) (n : Nat) (σ : Slot) (v : Nat) :
    ((V.setCell n σ v).ino n).type = (V.ino n).type ∧
      ((V.setCell n σ v).ino n).nlink = (V.ino n).nlink ∧
      ((V.setCell n σ v).ino n).size = (V.ino n).size := by
  cases σ with
  | top i => simp [setCell, setIno, DView.setAddr]
  | ent t i => exact ⟨rfl, rfl, rfl⟩

/-- A block other than the table that is rewritten keeps its content. -/
theorem setCell_data_of_ne :
    ∀ {σ : Slot}, (∀ t i, σ = .ent t i → b ≠ V.ptr n t) → (V.setCell n σ v).data b = V.data b
  | .top _, _ => rfl
  | .ent t i, h => update_of_ne (h t i rfl) _ _

@[simp] theorem ptr_clear (V : Vol) (b n : Nat) (σ : Slot) : (V.clear b).ptr n σ = V.ptr n σ := by
  induction σ with
  | top i => rfl
  | ent t i ih => rw [ptr_ent, ptr_ent, ih]; rfl

theorem setSize_ino_of_ne {size : Nat} (h : m ≠ n) :
    (V.setSize n size).ino m = V.ino m := update_of_ne h _ _

theorem setSize_ino_self (V : Vol) (n size : Nat) :
    (V.setSize n size).ino n = { V.ino n with size := size } := update_self ..

@[simp] theorem setSize_data (V : Vol) (n size : Nat) : (V.setSize n size).data = V.data := rfl

@[simp] theorem setSize_bm (V : Vol) (n size : Nat) : (V.setSize n size).bm = V.bm := rfl

/-- The map reads the pointers of an inode only. -/
theorem ptr_setIno {d : DView} (hd : d.addr = (V.ino n).addr) (m : Nat)
    (σ : Slot) : (V.setIno n d).ptr m σ = V.ptr m σ := by
  induction σ with
  | top i =>
      by_cases hm : m = n
      · subst hm
        simp only [ptr_top, setIno, update_self, hd]
      · simp only [ptr_top, setIno, update_of_ne hm]
  | ent t i ih => rw [ptr_ent, ptr_ent, ih]; rfl

/-- The map does not read sizes. -/
@[simp] theorem ptr_setSize (V : Vol) (n size m : Nat) (σ : Slot) :
    (V.setSize n size).ptr m σ = V.ptr m σ :=
  ptr_setIno (d := { V.ino n with size := size }) rfl m σ

end Vol

/-! ## Ownership -/

/-- The inodes in `S` own the blocks their maps hold. -/
structure Own (R S : Nat → Prop) (V : Vol) : Prop where
  /-- A block stands at one position only. -/
  inj : ∀ {n m : Nat} {σ τ : Slot}, S n → S m → σ.Valid → τ.Valid → V.ptr n σ ≠ 0 →
    V.ptr n σ = V.ptr m τ → n = m ∧ σ = τ
  /-- It lies in the data region. -/
  region : ∀ {n : Nat} {σ : Slot}, S n → σ.Valid → V.ptr n σ ≠ 0 → R (V.ptr n σ)
  /-- It is marked. -/
  marked : ∀ {n : Nat} {σ : Slot}, S n → σ.Valid → V.ptr n σ ≠ 0 → V.bm (V.ptr n σ) = true

/-- Ownership is a matter of the maps and the marks. -/
theorem Own.congr (h : Own R S V)
    (hptr : ∀ {n : Nat} {σ : Slot}, S n → σ.Valid → V'.ptr n σ = V.ptr n σ) (hbm : V'.bm = V.bm) :
    Own R S V' := by
  refine ⟨?_, ?_, ?_⟩
  · intro n m σ τ hn hm hσ hτ h0 he
    rw [hptr hn hσ] at h0 he
    rw [hptr hm hτ] at he
    exact h.inj hn hm hσ hτ h0 he
  · intro n σ hn hσ h0
    rw [hptr hn hσ] at h0 ⊢
    exact h.region hn hσ h0
  · intro n σ hn hσ h0
    rw [hptr hn hσ] at h0 ⊢
    rw [hbm]
    exact h.marked hn hσ h0

/-- The blocks below `N` outside the region are marked, so that none of them
is handed out. -/
def Reserved (R : Nat → Prop) (N : Nat) (V : Vol) : Prop := ∀ b, b < N → ¬ R b → V.bm b = true

section Cells

/-- A block that is not marked stands at no position. -/
theorem Own.ptr_ne_of_free (h : Own R S V) (hm : S m) (hτ : τ.Valid)
    (hb : V.bm b = false) (h0 : V.ptr m τ ≠ 0) : V.ptr m τ ≠ b := by
  rintro rfl
  rw [h.marked hm hτ h0] at hb
  cases hb

/-- A fresh block changes no map. -/
theorem Own.ptr_fresh (h : Own R S V) (hm : S m) (hτ : τ.Valid)
    (hb : V.bm b = false) : (V.fresh b).ptr m τ = V.ptr m τ := by
  have hino : ((V.fresh b).ino m).addr = (V.ino m).addr := rfl
  refine Vol.ptr_congr hino ?_ hτ
  intro t ht h0
  exact update_of_ne (h.ptr_ne_of_free hm ht.valid hb h0) _ _

/-- Storing at a position changes no position that is not below it. -/
theorem Own.ptr_setCell_of_not_on (h : Own R S V) (hn : S n) (hσ : σ.Valid)
    (hp : ∀ t i, σ = .ent t i → V.ptr n t ≠ 0) (hm : S m) :
    ∀ {τ : Slot}, τ.Valid → ¬ (m = n ∧ σ.On τ) → (V.setCell n σ v).ptr m τ = V.ptr m τ
  | .top j, _, hon => by
      cases σ with
      | top i =>
          by_cases hmn : m = n
          · subst hmn
            have hij : j ≠ i := fun hij => hon ⟨rfl, by rw [hij]; rfl⟩
            simp [Vol.setCell, Vol.setIno, DView.setAddr, update_of_ne hij]
          · simp only [Vol.ptr_top, Vol.setCell_ino_of_ne hmn]
      | ent t i => rfl
  | .ent u j, hτ, hon => by
      have hu : (V.setCell n σ v).ptr m u = V.ptr m u :=
        h.ptr_setCell_of_not_on hn hσ hp hm hτ.parent fun ⟨h1, h2⟩ => hon ⟨h1, h2.of_parent⟩
      by_cases h0 : V.ptr m u = 0
      · rw [Vol.ptr_ent_of_eq h0, Vol.ptr_ent_of_eq (hu.trans h0)]
      · rw [Vol.ptr_ent_of_ne h0, Vol.ptr_ent_of_ne (by rwa [hu]), hu]
        cases σ with
        | top i => rfl
        | ent t i =>
            by_cases hb : V.ptr m u = V.ptr n t
            · -- The rewritten table is the one that holds `τ`: another entry of it.
              obtain ⟨rfl, rfl⟩ := h.inj hm hn hτ.parent hσ.parent h0 hb
              have hij : j ≠ i := fun hij => hon ⟨rfl, Or.inl (by rw [hij])⟩
              have hd : (V.setCell m (.ent u i) v).data (V.ptr m u) =
                  (V.data (V.ptr m u)).put32 (4 * i) v := update_self ..
              rw [hd, Buf.le32_put32_of_disjoint (by omega)]
            · have hd : (V.setCell n (.ent t i) v).data (V.ptr m u) = V.data (V.ptr m u) :=
                update_of_ne hb _ _
              rw [hd]

/-- What is stored at a position is read back from it. -/
theorem Own.ptr_setCell_self (h : Own R S V) (hn : S n) (hσ : σ.Valid)
    (hp : ∀ t i, σ = .ent t i → V.ptr n t ≠ 0) (hv : v < 2 ^ 32) :
    (V.setCell n σ v).ptr n σ = v := by
  cases σ with
  | top i => simp [Vol.setCell, Vol.setIno, DView.setAddr]
  | ent t i =>
      have h0 := hp t i rfl
      have ht : (V.setCell n (.ent t i) v).ptr n t = V.ptr n t :=
        h.ptr_setCell_of_not_on hn hσ hp hn hσ.parent
          fun ⟨_, hon⟩ => Slot.not_on_of_ent_on hon (Slot.On.refl t)
      have hd : (V.setCell n (.ent t i) v).data (V.ptr n t) =
          (V.data (V.ptr n t)).put32 (4 * i) v := update_self ..
      rw [Vol.ptr_ent_of_ne (by rwa [ht]), ht, hd, Buf.le32_put32, Nat.mod_eq_of_lt hv]

/-- A fresh block at an empty position: no other position changes. -/
theorem Own.ptr_allocCell (h : Own R S V) (hn : S n) (hσ : σ.Valid) (h0 : V.ptr n σ = 0)
    (hp : ∀ t i, σ = .ent t i → V.ptr n t ≠ 0) (hb : V.bm b = false)
    (hb0 : b ≠ 0) (hlt : b < 2 ^ 32) (hm : S m) (hτ : τ.Valid) :
    (V.allocCell n σ b).ptr m τ = if m = n ∧ τ = σ then b else V.ptr m τ := by
  -- The map of `V.fresh b` is that of `V`, and the inodes own it as well.
  have hfr : ∀ {k : Nat} {ρ : Slot}, S k → ρ.Valid → (V.fresh b).ptr k ρ = V.ptr k ρ :=
    fun hk hρ => h.ptr_fresh hk hρ hb
  have hown : Own R S (V.fresh b) := by
    refine ⟨?_, ?_, ?_⟩
    · intro k l ρ π hk hl hρ hπ hne heq
      rw [hfr hk hρ] at hne heq
      rw [hfr hl hπ] at heq
      exact h.inj hk hl hρ hπ hne heq
    · intro k ρ hk hρ hne
      rw [hfr hk hρ] at hne ⊢
      exact h.region hk hρ hne
    · intro k ρ hk hρ hne
      rw [hfr hk hρ] at hne ⊢
      show update V.bm b true _ = true
      rw [update_of_ne (h.ptr_ne_of_free hk hρ hb hne)]
      exact h.marked hk hρ hne
  have hp' : ∀ t i, σ = .ent t i → (V.fresh b).ptr n t ≠ 0 := by
    intro t i ht
    subst ht
    rw [hfr hn hσ.parent]
    exact hp t i rfl
  unfold Vol.allocCell
  by_cases hon : m = n ∧ σ.On τ
  · obtain ⟨rfl, hon⟩ := hon
    clear hm
    induction τ with
    | top j =>
        cases hon
        rw [if_pos ⟨rfl, rfl⟩]
        exact hown.ptr_setCell_self hn hσ hp' hlt
    | ent u j ih =>
        rcases hon with rfl | hon
        · rw [if_pos ⟨rfl, rfl⟩]
          exact hown.ptr_setCell_self hn hσ hp' hlt
        · have hne : Slot.ent u j ≠ σ := by
            rintro rfl
            exact Slot.not_on_of_ent_on hon (Slot.On.refl u)
          rw [if_neg (fun hc => hne hc.2), Vol.ptr_ent_of_eq (Vol.ptr_eq_zero_of_on h0 hon)]
          have ihu := ih hτ.parent hon
          by_cases huσ : u = σ
          · -- An entry of the fresh table.
            subst huσ
            rw [if_pos ⟨rfl, rfl⟩] at ihu
            rw [Vol.ptr_ent_of_ne (by rwa [ihu]), ihu, Vol.setCell_data_of_ne]
            · show (update V.data b Buf.zero b).le32 _ = 0
              rw [update_self]
              rfl
            · intro t i ht
              subst ht
              rw [hfr hn hσ.parent]
              exact (h.ptr_ne_of_free hn hσ.parent hb (hp t i rfl)).symm
          · rw [if_neg (fun hc => huσ hc.2), Vol.ptr_eq_zero_of_on h0 hon] at ihu
            exact Vol.ptr_ent_of_eq ihu
  · rw [if_neg (fun hc => hon ⟨hc.1, by rw [hc.2]; exact Slot.On.refl σ⟩),
      hown.ptr_setCell_of_not_on hn hσ hp' hm hτ hon, hfr hm hτ]

/-- The content of the fresh block. -/
theorem Own.allocCell_data_self (h : Own R S V) (hn : S n) (hσ : σ.Valid)
    (hp : ∀ t i, σ = .ent t i → V.ptr n t ≠ 0) (hb : V.bm b = false) :
    (V.allocCell n σ b).data b = Buf.zero := by
  unfold Vol.allocCell
  rw [Vol.setCell_data_of_ne]
  · exact update_self ..
  · rintro t i rfl
    rw [h.ptr_fresh hn hσ.parent hb]
    exact (h.ptr_ne_of_free hn hσ.parent hb (hp t i rfl)).symm

/-- The table that holds the position. -/
theorem Own.allocCell_data_table (h : Own R S V) (hn : S n)
    (hσ : (Slot.ent t i).Valid) (hp : V.ptr n t ≠ 0) (hb : V.bm b = false) :
    (V.allocCell n (.ent t i) b).data (V.ptr n t) = (V.data (V.ptr n t)).put32 (4 * i) b := by
  unfold Vol.allocCell
  rw [Vol.setCell_ent, h.ptr_fresh hn hσ.parent hb]
  have hfr : (V.fresh b).data (V.ptr n t) = V.data (V.ptr n t) :=
    update_of_ne (h.ptr_ne_of_free hn hσ.parent hb hp) _ _
  rw [hfr]
  exact update_self ..

/-- No other block changes. -/
theorem Own.allocCell_data_of_ne (h : Own R S V) (hn : S n) (hσ : σ.Valid) {c : Nat}
    (hb : V.bm b = false) (hc : c ≠ b) (ht : ∀ t i, σ = .ent t i → c ≠ V.ptr n t) :
    (V.allocCell n σ b).data c = V.data c := by
  unfold Vol.allocCell
  rw [Vol.setCell_data_of_ne]
  · exact update_of_ne hc _ _
  · rintro t i rfl
    rw [h.ptr_fresh hn hσ.parent hb]
    exact ht t i rfl

/-- A freed position and what is below it become empty, and nothing else changes. -/
theorem Own.ptr_freeCell (h : Own R S V) (hn : S n) (hσ : σ.Valid) (h0 : V.ptr n σ ≠ 0) (hm : S m)
    (hτ : τ.Valid) [Decidable (m = n ∧ σ.On τ)] :
    (V.freeCell n σ).ptr m τ = if m = n ∧ σ.On τ then 0 else V.ptr m τ := by
  have hp : ∀ t i, σ = .ent t i → V.ptr n t ≠ 0 := by
    rintro t i rfl
    exact Vol.ptr_parent_ne h0
  -- Clearing the mark and storing zero commute, and the map does not read marks.
  have hsame : (V.freeCell n σ).ptr m τ = (V.setCell n σ 0).ptr m τ := by
    have : V.freeCell n σ = (V.setCell n σ 0).clear (V.ptr n σ) := by
      cases σ with
      | top i => rfl
      | ent t i =>
          simp only [Vol.freeCell, Vol.setCell, Vol.ptr_clear]
          rfl
    rw [this, Vol.ptr_clear]
  rw [hsame]
  by_cases hon : m = n ∧ σ.On τ
  · obtain ⟨rfl, hon'⟩ := hon
    rw [if_pos ⟨rfl, hon'⟩]
    exact Vol.ptr_eq_zero_of_on (h.ptr_setCell_self hn hσ hp (by omega)) hon'
  · rw [if_neg hon, h.ptr_setCell_of_not_on hn hσ hp hm hτ hon]

end Cells

end Dmaos
