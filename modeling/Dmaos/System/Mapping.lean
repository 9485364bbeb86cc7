import Mathlib.Data.Finset.Card
import Mathlib.Data.Finset.Range
import Dmaos.System.Compose

/-!
# `bmap_alloc` and `bmap`

`bmap` looks for a block of a file and `bmap_alloc` adds it, and both are written out
for the three kinds of positions.  They agree: what `bmap_alloc` returned, `bmap` finds,
and every other block of the file is found or missing as before (`Agrees`).

`bmap_alloc` returns if the free map has a block for each position on the way to the
block that is empty (`bmapAlloc_returns`).
-/

namespace Dmaos

open Fault Vol

variable {b dev n i bn : Nat} {L : Layout} {S : Nat → Prop} {ip : Fin NINODE} {s s' : KState}
  {σ : Slot}

/-! ## Free blocks -/

/-- The number of free blocks that `balloc` can find. -/
def Vol.freeBlocks (V : Vol) (nblocks : Nat) : Nat :=
  ((Finset.range nblocks).filter fun b => V.bm b = false).card

/-- The number of positions on the way to `σ` that are empty. -/
def Vol.missing (V : Vol) (n : Nat) : Slot → Nat
  | .top i => if V.ptr n (.top i) = 0 then 1 else 0
  | .ent t i => V.missing n t + if V.ptr n (.ent t i) = 0 then 1 else 0

section Free

variable {V V' : Vol} {N : Nat}

theorem Vol.exists_free (h : 0 < V.freeBlocks N) : ∃ b < N, V.bm b = false := by
  obtain ⟨b, hb⟩ := Finset.card_pos.mp h
  obtain ⟨hlt, hfree⟩ := Finset.mem_filter.mp hb
  exact ⟨b, Finset.mem_range.mp hlt, hfree⟩

/-- One block at most is taken. -/
theorem Vol.freeBlocks_le (h : ∀ c, V.bm c = false → V'.bm c = true → c = b) :
    V.freeBlocks N ≤ V'.freeBlocks N + 1 := by
  have hsub : (Finset.range N).filter (fun c => V.bm c = false)
      ⊆ insert b ((Finset.range N).filter fun c => V'.bm c = false) := by
    intro c hc
    obtain ⟨hlt, hfree⟩ := Finset.mem_filter.mp hc
    cases hbit : V'.bm c with
    | true => exact Finset.mem_insert.mpr (.inl (h c hfree hbit))
    | false => exact Finset.mem_insert_of_mem (Finset.mem_filter.mpr ⟨hlt, hbit⟩)
  exact Nat.le_trans (Finset.card_le_card hsub) (Finset.card_insert_le _ _)

/-- No block is taken. -/
theorem Vol.freeBlocks_mono (h : ∀ c, V.bm c = false → V'.bm c = false) :
    V.freeBlocks N ≤ V'.freeBlocks N :=
  Finset.card_le_card (Finset.monotone_filter_right _ fun c _ hc => h c hc)

end Free

section Returns

theorem ballocScan_returns {buf : Buf} (hlt : b < 8192) (hfree : buf.testBit b = false) :
    ∀ {k i : Nat}, i ≤ b → b < i + k → Returns (ballocScan buf k i) s
  | 0, i, hi, hb => by omega
  | k + 1, i, hi, hb => by
      unfold ballocScan
      rw [BSIZE_eq, if_neg (by omega)]
      split_ifs with hbit
      · refine ballocScan_returns hlt hfree (Nat.lt_of_le_of_ne hi ?_) (by omega)
        rintro rfl
        rw [hfree] at hbit
        exact absurd hbit (by decide)
      · exact .pure

/-- `balloc` returns if there is a free block. -/
theorem balloc_returns (hs : Sound L S dev s) (ho : Served L dev s)
    (hroom : 0 < (s.vol L dev).freeBlocks (s.sb dev).nblocks) : Returns (balloc dev) s := by
  obtain ⟨b, hb, hfree⟩ := exists_free hroom
  have hdata : ∀ c, c < (s.sb dev).nblocks → (s.vol L dev).bm c = false → L.IsData c := by
    intro c hc hbit
    by_contra hno
    rw [hs.reserved c hc hno] at hbit
    exact absurd hbit (by decide)
  have hmod : (s.sb dev).bmapstart % 2 ^ 31 < (s.disk dev).capacity := by
    rw [Nat.mod_eq_of_lt hs.fits.bmap_lt]
    exact ho.bmap
  refine .bind superblock_returns fun sb t hsb => ?_
  obtain ⟨rfl, rfl⟩ := superblock_ok hsb
  refine .bind (readBlock_returns ho.dev_lt hmod) fun buf t hr => ?_
  obtain ⟨rfl, rfl⟩ := readBlock_ok hr
  rw [Nat.mod_eq_of_lt hs.fits.bmap_lt]
  refine .bind (ballocScan_returns (hs.fits.data_lt (hdata b hb hfree)) hfree (Nat.zero_le b)
    (by omega)) fun c t hscan => ?_
  obtain ⟨rfl, -, hc, hbit⟩ := ballocScan_ok hscan
  refine .bind (writeBlock_returns ho.dev_lt hmod) fun u t hw => ?_
  obtain rfl := writeBlock_ok hw
  have hdc := hdata c (by omega) hbit
  have hlt := hs.fits.data_lt hdc
  refine .bind (writeBlock_returns ho.dev_lt ?_) fun _ _ _ => .pure
  rw [Nat.mod_eq_of_lt (by omega), KState.putBlock_capacity]
  exact ho.data hdc

/-- A block is taken for a position that was empty. -/
theorem Grown.freeBlocks (h : Grown L S dev n ip (· = σ) σ b s s')
    (hown : Own L.IsData S (s.vol L dev)) (N : Nat) :
    (s.vol L dev).freeBlocks N
      ≤ (s'.vol L dev).freeBlocks N + if (s.vol L dev).ptr n σ = 0 then 1 else 0 := by
  -- a new mark is for a new block of the inode, and `σ` alone has a new block
  have hnew : ∀ c, (s.vol L dev).bm c = false → (s'.vol L dev).bm c = true →
      (s.vol L dev).ptr n σ = 0 ∧ c = b := by
    intro c hfree hbit
    rcases h.grow.bits hbit with hold | ⟨τ, hτ, hptr, h0⟩
    · rw [hfree] at hold
      exact absurd hold (by decide)
    · cases Decidable.em ((s.vol L dev).ptr n τ = 0) with
      | inl hempty =>
          obtain ⟨-, rfl, -⟩ := h.grow.new h.mem hτ hempty (by rwa [hptr])
          exact ⟨hempty, by rw [← hptr, h.ptr_eq]⟩
      | inr hused =>
          have hold := hown.marked h.mem hτ hused
          rw [← h.grow.keep h.mem hτ hused, hptr, hfree] at hold
          exact absurd hold (by decide)
  split_ifs with h0
  · exact freeBlocks_le fun c hc hc' => (hnew c hc hc').2
  · refine freeBlocks_mono fun c hc => ?_
    cases hbit : (s'.vol L dev).bm c with
    | false => rfl
    | true => exact absurd (hnew c hc hbit).1 h0

/-- A position that is used stays used. -/
theorem Grown.empty_le {P : Slot → Prop} {τ : Slot}
    (h : Grown L S dev n ip P σ b s s') (hτ : τ.Valid) :
    (if (s'.vol L dev).ptr n τ = 0 then 1 else 0)
      ≤ if (s.vol L dev).ptr n τ = 0 then 1 else 0 := by
  split_ifs with h1 h2
  · exact Nat.le_refl 1
  · exact absurd h1 (h.grow.ptr_ne h.mem hτ h2)
  · exact Nat.zero_le _
  · exact Nat.zero_le _

theorem addrAlloc_returns (h : Owner L S dev n ip s) (ho : Served L dev s) (hi : i < 14)
    (hroom : (if (s.vol L dev).ptr n (.top i) = 0 then 1 else 0)
      ≤ (s.vol L dev).freeBlocks (s.sb dev).nblocks) : Returns (addrAlloc ip i) s := by
  refine .bind inodeAt_returns fun I t hI => ?_
  obtain ⟨rfl, rfl⟩ := inodeAt_ok hI
  rw [h.dev_eq, h.addr hi]
  split_ifs at hroom ⊢ with h0
  · refine .bind (balloc_returns h.toSound ho hroom) fun b t hb => ?_
    have ht := LocalOn.balloc.of_ok h.dev_eq hb
    have ho' := ho.next (.of_ok .balloc hb) ht
    refine .bind (.of_ok (a := ()) rfl) fun _ t' hset => ?_
    have ht' := LocalOn.of_ok (LocalOn.setDinode _) (ht.slot_dev.trans h.dev_eq) hset
    obtain rfl := setDinode_ok hset
    refine .bind (iupdate_returns ?_ (ho'.toOnline.congr rfl rfl)
      ((h.toHolds.of_touches ht).of_touches ht') h.lt) fun _ _ _ => .pure
    rw [KState.putInode_sb, ht.sb]
    exact h.fits
  · exact .pure

theorem entryAlloc_returns (h : Owner L S dev n ip s) (ho : Served L dev s) {t : Slot}
    (htab : t.IsTable) (h0 : (s.vol L dev).ptr n t ≠ 0)
    (hroom : (if (s.vol L dev).ptr n (.ent t i) = 0 then 1 else 0)
      ≤ (s.vol L dev).freeBlocks (s.sb dev).nblocks) :
    Returns (entryAlloc ip ((s.vol L dev).ptr n t) i) s := by
  refine .bind inodeAt_returns fun I t' hI => ?_
  obtain ⟨rfl, rfl⟩ := inodeAt_ok hI
  rw [h.dev_eq]
  refine .bind (h.readBlock_returns ho.toOnline htab.valid h0) fun buf t' hb => ?_
  obtain ⟨rfl, -, he⟩ := h.readEntry_ok htab h0 hb i
  rw [he]
  split_ifs at hroom ⊢ with hempty
  · refine .bind (balloc_returns h.toSound ho hroom) fun b t' hb => ?_
    have ho' := ho.next (.of_ok .balloc hb) (LocalOn.balloc.of_ok h.dev_eq hb)
    refine .bind (writeBlock_returns ho.dev_lt ?_) fun _ _ _ => .pure
    rw [(h.readBlock_ptr htab.valid h0).1]
    exact ho'.data (h.own.region h.mem htab.valid h0)
  · exact .pure

/-- `bmap_alloc` returns if there are enough free blocks. -/
theorem bmapAlloc_returns (h : Owner L S dev n ip s) (ho : Served L dev s)
    (hbn : bn < 65804) (hroom : (s.vol L dev).missing n (Slot.ofBlock bn)
      ≤ (s.vol L dev).freeBlocks (s.sb dev).nblocks) : Returns (bmapAlloc ip bn) s := by
  unfold bmapAlloc
  rw [NDIRECT_eq, NINDIRECT_eq, NDINDIRECT_eq]
  unfold Slot.ofBlock at hroom
  split_ifs with h1 h2 h3
  · rw [if_pos h1] at hroom
    exact addrAlloc_returns h ho (by omega) hroom
  · rw [if_neg h1, if_pos (by omega), missing, missing] at hroom
    refine .bind (addrAlloc_returns h ho (by omega) (by omega)) fun table t ht => ?_
    have g := addrAlloc_ok h (by omega) ht
    have hloc := LocalOn.addrAlloc.of_ok h.dev_eq ht
    have hfree := g.freeBlocks h.own (s.sb dev).nblocks
    have hent := g.empty_le (τ := .ent (.top 12) (bn - 12)) ⟨.inl rfl, by omega⟩
    rw [← g.ptr_eq]
    refine entryAlloc_returns g.toOwner (ho.next (.of_ok .addrAlloc ht) hloc) (.inl rfl)
      (by rw [g.ptr_eq]; exact g.ne) ?_
    rw [hloc.sb]
    omega
  · rw [if_neg h1, if_neg (by omega), missing, missing, missing] at hroom
    rw [show bn - 12 - 256 = bn - 268 by omega, show 12 + 1 = 13 from rfl]
    have htab : (Slot.ent (.top 13) ((bn - 268) / 256)).IsTable := ⟨rfl, by omega⟩
    have hleaf : (Slot.ent (.ent (.top 13) ((bn - 268) / 256)) ((bn - 268) % 256)).Valid :=
      ⟨htab, by omega⟩
    refine .bind (addrAlloc_returns h ho (by omega) (by omega)) fun root t ht => ?_
    have g := addrAlloc_ok h (by omega) ht
    have hloc := LocalOn.addrAlloc.of_ok h.dev_eq ht
    have ho' := ho.next (.of_ok .addrAlloc ht) hloc
    have hfree := g.freeBlocks h.own (s.sb dev).nblocks
    have hent := g.empty_le htab.valid
    have hent' := g.empty_le hleaf
    rw [← g.ptr_eq]
    refine .bind (entryAlloc_returns g.toOwner ho' (.inr rfl) (by rw [g.ptr_eq]; exact g.ne) ?_)
      fun table t' ht' => ?_
    · rw [hloc.sb]
      omega
    have g' := entryAlloc_ok g.toOwner (t := .top 13) (.inr rfl) (by omega) rfl
      (by rw [g.ptr_eq]; exact g.ne) ht'
    have hloc' := LocalOn.entryAlloc.of_ok g.dev_eq ht'
    have hfree' := g'.freeBlocks g.own (s.sb dev).nblocks
    have hent'' := g'.empty_le hleaf
    rw [← g'.ptr_eq]
    refine entryAlloc_returns g'.toOwner (ho'.next (.of_ok .entryAlloc ht') hloc') htab
      (by rw [g'.ptr_eq]; exact g'.ne) ?_
    rw [hloc'.sb, hloc.sb]
    omega
  · omega

end Returns

/-! ## Agreement -/

/-- `bmap` does not find file block `b`. -/
def Unmapped (ip : Fin NINODE) (b : Nat) (s : KState) : Prop := ∀ a t, bmap ip b s ≠ .ok a t

/-- What `bmap_alloc` has done for file block `bn` of inode `n`. -/
structure Agrees (L : Layout) (dev n : Nat) (ip : Fin NINODE) (bn addr : Nat) (s s' : KState) :
    Prop where
  addr_eq : (s'.vol L dev).ptr n (Slot.ofBlock bn) = addr
  /-- `bmap` finds the block. -/
  found : bmap ip bn s' = .ok addr s'
  /-- A second call finds it as well and changes nothing. -/
  again : bmapAlloc ip bn s' = .ok addr s'
  /-- The other blocks of the file are where they were. -/
  mapped : ∀ b a t, b ≠ bn → bmap ip b s = .ok a t → bmap ip b s' = .ok a s'
  unmapped : ∀ b, b ≠ bn → Unmapped ip b s → Unmapped ip b s'
  /-- The block and the tables on the way to it were free, if they are new. -/
  free : ∀ σ : Slot, σ.On (Slot.ofBlock bn) → (s.vol L dev).ptr n σ = 0 →
    (s'.vol L dev).ptr n σ ≠ 0 ∧ (s.vol L dev).bm ((s'.vol L dev).ptr n σ) = false
  /-- They are different blocks. -/
  distinct : ∀ σ τ : Slot, σ.On (Slot.ofBlock bn) → τ.On (Slot.ofBlock bn) → σ ≠ τ →
    (s'.vol L dev).ptr n σ ≠ (s'.vol L dev).ptr n τ
  /-- A block that was there has its content, and a new block is filled with zeros. -/
  content : ∀ a t, bmap ip bn s = .ok a t → addr = a ∧ s'.blk dev addr = s.blk dev addr
  zero : Unmapped ip bn s → s'.blk dev addr = Buf.zero

section Agreement

/-- What `bmap` finds. -/
theorem bmap_iff (h : Owner L S dev n ip s) (ho : Online L dev s) {a : Nat} :
    bmap ip bn s = .ok a s' ↔ s' = s ∧ bn < 65804 ∧ a = (s.vol L dev).ptr n (Slot.ofBlock bn) ∧
      a ≠ 0 := by
  constructor
  · intro hx
    obtain ⟨rfl, hlt, ha, h0⟩ := bmap_ok h hx
    exact ⟨rfl, hlt, ha, h0⟩
  · rintro ⟨rfl, hlt, rfl, h0⟩
    exact (h.loads ho).bmap hlt h0

theorem unmapped_iff (h : Owner L S dev n ip s) (ho : Online L dev s)
    (hlt : bn < 65804) : Unmapped ip bn s ↔ (s.vol L dev).ptr n (Slot.ofBlock bn) = 0 := by
  constructor
  · intro hno
    by_contra h0
    exact hno _ _ ((bmap_iff h ho).mpr ⟨rfl, hlt, rfl, h0⟩)
  · intro h0 a t hx
    obtain ⟨-, -, ha, hne⟩ := (bmap_iff h ho).mp hx
    exact hne (ha.trans h0)

theorem Slot.Valid.of_on : ∀ {τ : Slot}, τ.Valid → σ.On τ → σ.Valid
  | .top i, hτ, hon => by
      cases hon
      exact hτ
  | .ent t i, hτ, hon => by
      rcases hon with rfl | hon
      · exact hτ
      · exact hτ.parent.of_on hon

/-- `bmap_alloc` and `bmap` agree. -/
theorem bmapAlloc_agrees (h : Owner L S dev n ip s) (ho : Served L dev s)
    (hbn : bn < MAXFILE) (hroom : (s.vol L dev).missing n (Slot.ofBlock bn)
      ≤ (s.vol L dev).freeBlocks (s.sb dev).nblocks) :
    ∃ addr s', bmapAlloc ip bn s = .ok addr s' ∧ Agrees L dev n ip bn addr s s' := by
  have hlt : bn < 65804 := hbn
  obtain ⟨addr, s', hx⟩ := (bmapAlloc_returns h ho hlt hroom).exists_ok
  obtain ⟨-, g⟩ := bmapAlloc_ok h hx
  have ho' := ho.next (.of_ok .bmapAlloc hx) (LocalOn.bmapAlloc.of_ok h.dev_eq hx)
  have hleaf := Slot.leaf_ofBlock hlt
  have hptr := g.ptr_eq
  have h0 : (s'.vol L dev).ptr n (Slot.ofBlock bn) ≠ 0 := by
    rw [hptr]
    exact g.ne
  have hblk : s'.blk dev addr = (s'.vol L dev).data addr := by
    rw [← hptr]
    exact (g.readBlock_ptr hleaf.valid h0).2
  refine ⟨addr, s', hx, hptr, ?_, ?_, ?_, ?_, ?_, ?_, ?_, ?_⟩
  · exact (bmap_iff g.toOwner ho'.toOnline).mpr ⟨rfl, hlt, hptr.symm, g.ne⟩
  · rw [← hptr]
    exact bmapAlloc_mapped g.toOwner ho'.toOnline hlt h0
  · intro b a t hb hbmap
    obtain ⟨-, hblt, rfl, ha⟩ := (bmap_iff h ho.toOnline).mp hbmap
    refine (bmap_iff g.toOwner ho'.toOnline).mpr ⟨rfl, hblt, ?_, ha⟩
    exact (g.grow.keep h.mem (Slot.valid_ofBlock hblt) ha).symm
  · intro b hb hno a t hbmap
    obtain ⟨rfl, hblt, rfl, ha⟩ := (bmap_iff g.toOwner ho'.toOnline).mp hbmap
    have hempty := (unmapped_iff h ho.toOnline hblt).mp hno
    -- a position that is filled is on the way to `bn`, and a leaf only on the way to itself
    obtain ⟨-, hon, -⟩ := g.grow.new h.mem (Slot.valid_ofBlock hblt) hempty ha
    exact hb (Slot.ofBlock_injective (hon.eq_of_leaf (Slot.leaf_ofBlock hblt) hleaf.valid))
  · intro σ hon hempty
    have hσ := hleaf.valid.of_on hon
    have hne := ptr_ne_of_on hon h0
    exact ⟨hne, (g.grow.new h.mem hσ hempty hne).2.2⟩
  · intro σ τ hσ hτ hne heq
    exact hne (g.own.inj h.mem h.mem (hleaf.valid.of_on hσ) (hleaf.valid.of_on hτ)
      (ptr_ne_of_on hσ h0) heq).2
  · intro a t hbmap
    obtain ⟨-, -, rfl, ha⟩ := (bmap_iff h ho.toOnline).mp hbmap
    have hkeep := g.grow.keep h.mem hleaf.valid ha
    have hsame : addr = (s.vol L dev).ptr n (Slot.ofBlock bn) := hptr.symm.trans hkeep
    refine ⟨hsame, ?_⟩
    rw [hblk, hsame, g.grow.data hleaf ha]
    exact (h.readBlock_ptr hleaf.valid ha).2.symm
  · intro hno
    have hempty := (unmapped_iff h ho.toOnline hlt).mp hno
    rw [hblk, ← hptr]
    exact g.grow.zero hleaf hempty h0

end Agreement

/-- A block behind the double-indirect table is added to the root directory of a formatted
device. -/
theorem bmapAlloc_agrees_rootHeld : ∃ s addr s', ilock 0 rootHeld = .ok () s ∧
    bmapAlloc 0 300 s = .ok addr s' ∧ Agrees formattedLayout 1 1 0 300 addr s s' := by
  obtain ⟨u, s, hl⟩ := (ilock_returns rootHeld_holds formatted_fits rootHeld_online
    (by decide)).exists_ok
  have hown : Owner formattedLayout (fun n => 0 < n ∧ n ≤ 1) 1 1 0 s :=
    .of_ilock hl rootHeld_consistent.toSound rfl rfl (by decide) ⟨by decide, by decide⟩
  have htouches : Touches 1 0 rootHeld s := LocalOn.ilock.of_ok rfl hl
  have hserved : Served formattedLayout 1 s :=
    Served.next (s := rootHeld) { rootHeld_online with bmap := by decide }
      (.of_ok .ilock hl) htouches
  have hvol : s.vol formattedLayout 1 = rootHeld.vol formattedLayout 1 := ilock_vol hl
  have hlt : 300 < MAXFILE := by decide
  have hroom : (s.vol formattedLayout 1).missing 1 (Slot.ofBlock 300)
      ≤ (s.vol formattedLayout 1).freeBlocks (s.sb 1).nblocks := by
    rw [hvol, htouches.sb]
    decide +kernel
  obtain ⟨addr, s', hx, hagrees⟩ := bmapAlloc_agrees hown hserved hlt hroom
  exact ⟨s, addr, s', hl, hx, hagrees⟩

end Dmaos
