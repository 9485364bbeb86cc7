import Dmaos.System.Descriptor
import Dmaos.Refine.Frees

/-!
# Truncation

`itrunc` clears in the free map the blocks a shorter file does not need, and no
others: data blocks, second-level tables without entries, and the two tables of
the inode (`itrunc_frees`).
-/

namespace Dmaos

open Fault

/-! ## What is given back -/

/-- The blocks of inode `n` that its first `lo` file blocks do not need. -/
inductive GivenBack (V : Vol) (n lo : Nat) : Nat → Prop where
  | data {bn : Nat} (lo_le : lo ≤ bn) (lt : bn < blocks (V.ino n).size) :
      GivenBack V n lo (V.ptr n (Slot.ofBlock bn))
  /-- A second-level table without an entry below `lo`. -/
  | table {k : Nat} (lt : k < 256) (used : V.ptr n (.ent (.top 13) k) ≠ 0)
      (left : ∀ i < 256, V.ptr n (.ent (.ent (.top 13) k) i) ≠ 0 → lo ≤ 268 + 256 * k + i) :
      GivenBack V n lo (V.ptr n (.ent (.top 13) k))
  | single (lo_le : lo ≤ 12) (used : V.ptr n (.top 12) ≠ 0) : GivenBack V n lo (V.ptr n (.top 12))
  | double (lo_le : lo ≤ 268) (used : V.ptr n (.top 13) ≠ 0) :
      GivenBack V n lo (V.ptr n (.top 13))

section GivenBack

variable {L : Layout} {S : Nat → Prop} {n size lo b : Nat} {V V' : Vol}

/-- These are the blocks at the positions from rank `lo` on. -/
theorem givenBack_iff (hs : V.Shaped n) : GivenBack V n lo b ↔
    ∃ σ : Slot, σ.Valid ∧ lo ≤ σ.rank ∧ V.ptr n σ ≠ 0 ∧ V.ptr n σ = b := by
  constructor
  · intro h
    cases h with
    | @data bn lo_le lt =>
        have hmax := blocks_le hs.size_le
        exact ⟨_, Slot.valid_ofBlock (by omega), by rwa [Slot.rank_ofBlock],
          hs.covered.ptr_ne lt, rfl⟩
    | @table k lt used left =>
        have hv : (Slot.ent (.top 13) k).Valid := ⟨Or.inr rfl, lt⟩
        refine ⟨_, hv, ?_, used, rfl⟩
        -- A table in use has its first entry.
        have hrank := (hs.exact _ hv).mp used
        rw [Slot.rank_table] at hrank ⊢
        refine left 0 (by omega) ((hs.exact _ (Slot.leaf_double lt (by omega)).valid).mpr ?_)
        rwa [Slot.rank_double, Nat.add_zero]
    | single lo_le used => exact ⟨.top 12, Slot.IsTable.valid (Or.inl rfl), lo_le, used, rfl⟩
    | double lo_le used => exact ⟨.top 13, Slot.IsTable.valid (Or.inr rfl), lo_le, used, rfl⟩
  · rintro ⟨σ, hσ, hlo, h0, rfl⟩
    cases Classical.em σ.IsTable with
    | inl ht =>
        rcases ht.cases with rfl | rfl | ⟨k, hk, rfl⟩
        · exact .single hlo h0
        · exact .double hlo h0
        · refine .table hk h0 fun i _ _ => ?_
          rw [Slot.rank_table] at hlo
          omega
    | inr ht =>
        have hlt := (hs.exact σ hσ).mp h0
        rw [← Slot.ofBlock_rank ⟨hσ, ht⟩]
        exact .data hlo hlt

/-- A cut clears the marks of the blocks given back, and no others. -/
theorem Cut.bm_iff (h : Cut L S n size V V') (hn : S n) (hs : V.Shaped n) :
    V'.bm b = true ↔ V.bm b = true ∧ ¬ GivenBack V n (blocks size) b := by
  obtain ⟨htidy, hex⟩ := h.toTruncated.exact hs.exact
  rw [givenBack_iff hs]
  constructor
  · intro hb
    refine ⟨h.reduce.bits hb, ?_⟩
    rintro ⟨σ, hσ, hlo, h0, rfl⟩
    have hz : V'.ptr n σ = 0 := by
      by_contra hne
      exact absurd ((hex σ hσ).mp hne) (by omega)
    rw [htidy σ hσ h0 hz] at hb
    cases hb
  · rintro ⟨hb, hkept⟩
    by_contra hfree
    obtain ⟨τ, hτ, rfl, h0⟩ := h.reduce.freed hb (by simpa using hfree)
    refine hkept ⟨τ, hτ, ?_, h0, rfl⟩
    -- A block that is still needed is still marked.
    by_contra hlt
    have hkeep := h.toTruncated.keep hτ (by omega)
    exact hfree (hkeep ▸ h.reduce.own.marked hn hτ (by rwa [hkeep]))

/-- What is given back was marked. -/
theorem GivenBack.marked (h : GivenBack V n lo b) (hn : S n) (hown : Own L.IsData S V)
    (hs : V.Shaped n) : V.bm b = true := by
  obtain ⟨σ, hσ, -, h0, rfl⟩ := (givenBack_iff hs).mp h
  exact hown.marked hn hσ h0

end GivenBack

section Frees

variable {L : Layout} {S : Nat → Prop} {dev n size : Nat} {ip : Fin NINODE} {s : KState}

/-- Truncation frees exactly what it must.  On an inode that has exactly its
blocks, `itrunc` to a smaller size returns; it clears the marks of the blocks
given back, each of which was set, and no others; the way to every block that is
left is as before, and no pointer that is left refers to a block given back. -/
theorem itrunc_frees (h : Sound L S dev s) (hh : Holds dev n ip s) (ho : Served L dev s)
    (hlt : n < L.ninodes) (hS : S n) (hs : (s.vol L dev).Shaped n)
    (hsize : size < ((s.vol L dev).ino n).size) :
    ∃ s', itrunc ip size s = .ok () s' ∧ ((s'.vol L dev).ino n).size = size ∧
      (∀ b, (s'.vol L dev).bm b = true ↔
        (s.vol L dev).bm b = true ∧ ¬ GivenBack (s.vol L dev) n (blocks size) b) ∧
      (∀ b, GivenBack (s.vol L dev) n (blocks size) b → (s.vol L dev).bm b = true) ∧
      (∀ bn < blocks size, ∀ σ : Slot, σ.On (Slot.ofBlock bn) → σ.Valid →
        (s'.vol L dev).ptr n σ = (s.vol L dev).ptr n σ) ∧
      (∀ bn, blocks size ≤ bn → bn < MAXFILE → (s'.vol L dev).ptr n (Slot.ofBlock bn) = 0) ∧
      ∀ σ : Slot, σ.Valid → (s'.vol L dev).ptr n σ ≠ 0 →
        ¬ GivenBack (s.vol L dev) n (blocks size) ((s'.vol L dev).ptr n σ) := by
  have hret : Returns (itrunc ip size) s :=
    itrunc_stops (E := fun _ _ => False) h hh (.inr ho) hlt hS hs.covered
  obtain ⟨u, s', hx⟩ := hret.exists_ok
  obtain ⟨-, ⟨hle, -⟩ | ⟨hless, hsz, htr⟩⟩ :=
    itrunc_ok h hh.dev_eq hh.inum_eq hlt hS hs.covered hx
  · omega
  · have hcut : Cut L S n size (s.vol L dev) (s'.vol L dev) := ⟨htr, hless, hsz⟩
    have hbm : ∀ b, _ := fun b => hcut.bm_iff (b := b) hS hs
    refine ⟨s', hx, hsz, hbm, fun b hb => hb.marked hS h.own hs, ?_, ?_, ?_⟩
    · intro bn hbn σ hon hσ
      exact htr.keep hσ (Nat.lt_of_le_of_lt hon.rank_le hbn)
    · intro bn hlo hmax
      by_contra hne
      have := (((htr.exact hs.exact).2) _ (Slot.valid_ofBlock hmax)).mp hne
      rw [Slot.rank_ofBlock] at this
      omega
    · intro σ hσ h0
      exact ((hbm _).mp (hcut.reduce.own.marked hS hσ h0)).2

/-- A file of 3000 bytes is cut to 1000: two of its three blocks are given back. -/
theorem itrunc_frees_file :
    ∃ s s', Reached (Orderly formattedLayout) systemDisk emptyDisk s ∧
      blocks ((s.vol formattedLayout 1).ino 2).size = 3 ∧ itrunc 2 1000 s = .ok () s' ∧
      ∀ b, (s'.vol formattedLayout 1).bm b = true ↔
        (s.vol formattedLayout 1).bm b = true ∧
          ¬ GivenBack (s.vol formattedLayout 1) 2 (blocks 1000) b := by
  have hrun : (playFrom (WritesFiles formattedLayout) systemDisk emptyDisk
      [(1, .open pathA (FILECTRL_WRITEONLY ||| FILECTRL_CREATE)),
        (1, .write 3 (fun _ => 1) 3000)]).any (fun s =>
      decide (0 < (s.inodeTable 2).ref ∧ (s.inodeTable 2).dev = 1 ∧ (s.inodeTable 2).inum = 2 ∧
        ((s.vol formattedLayout 1).ino 2).size = 3000 ∧ (s.disk 1).capacity = 16)) = true := by
    decide +kernel
  obtain ⟨s, hs, hQ⟩ := Reached.of_playFrom hrun
  obtain ⟨href, hdev, hinum, hsize, hcap⟩ := of_decide_eq_true hQ
  have hs' := hs.orderly rfl
  obtain ⟨hsb, S, hd⟩ := hs'.disk emptyDisk_consistent
  have hholds : Holds 1 2 2 s := ⟨href, hdev, hinum⟩
  have hserved : Served formattedLayout 1 s :=
    { dev_lt := by decide
      inode := by rw [hsb, hcap]; exact formatted_iblock_lt
      data := by rw [hcap]; exact fun hb => hb.2
      bmap := by rw [hsb, hcap]; decide }
  have hS : S 2 := (hd.held hholds).1
  obtain ⟨s', hx, -, hbm, -⟩ := itrunc_frees hd.sound hholds hserved (by decide) hS
    (hd.wf.shaped hS) (show 1000 < _ by rw [hsize]; decide)
  exact ⟨s, s', hs', by rw [hsize]; rfl, hx, hbm⟩

end Frees

end Dmaos
