import Dmaos.Refine.Confined
import Dmaos.Refine.Progress
import Dmaos.Refine.Trunc

/-!
# Truncating does not stop the kernel

`bfree` stops the kernel at a block that is not marked, and leaves its buffer at
one that is too large.  `itrunc` returns on every inode that has its blocks, so it
frees no block twice.

The blocks that are read and written must be on the device.  No function on
inodes changes the size of a device (`Steady`).  Where nothing is known about that,
`itrunc` can stop at a block that is not there, but no other way (`Backed`).
-/

namespace Dmaos

open Fault

variable {L : Layout} {dev d b i bn : Nat} {ip : Fin NINODE} {s s' : KState}
  {E : Halt → KState → Prop} {buf : Buf} {σ : Slot}

/-! ## What stays -/

/-- The block of the free map is on the device, too. -/
structure Served (L : Layout) (dev : Nat) (s : KState) : Prop extends Online L dev s where
  bmap : (s.sb dev).bmapstart < (s.disk dev).capacity

theorem Served.next
    (h : Served L dev s) (hs : Steady s s') (ht : Touches d ip s s') : Served L dev s' where
  toOnline := h.toOnline.congr ht.sb (hs.capacity dev)
  bmap := by rw [ht.sb, hs.capacity]; exact h.bmap

/-- The blocks are on the device, or it is among the errors `E` that one is not. -/
def Backed (E : Halt → KState → Prop) (L : Layout) (dev : Nat) (s : KState) : Prop :=
  Plain E ∨ Served L dev s

theorem Backed.next (h : Backed E L dev s) (hs : Steady s s') (ht : Touches d ip s s') :
    Backed E L dev s' :=
  h.imp id fun h => h.next hs ht

/-! ## Freeing does not stop the kernel -/

section Returns

variable {S : Nat → Prop} {n : Nat}

theorem writeBlock_returns (hd : dev < 2)
    (hb : b % 2 ^ 31 < (s.disk dev).capacity) : Returns (writeBlock dev b buf) s :=
  .of_ok (a := ()) (if_pos ⟨hd, hb⟩)

/-- A block that is on the device if the others are. -/
theorem Backed.readBlock (ho : Backed E L dev s)
    (hb : Served L dev s → b % 2 ^ 31 < (s.disk dev).capacity) : Stops E (readBlock dev b) s := by
  rcases ho with hE | ho
  · exact Confined.stops (R := Anyhow) .readBlock
  · exact (readBlock_returns ho.dev_lt (hb ho)).stops

theorem Backed.writeBlock (ho : Backed E L dev s)
    (hb : Served L dev s → b % 2 ^ 31 < (s.disk dev).capacity) :
    Stops E (writeBlock dev b buf) s := by
  rcases ho with hE | ho
  · exact Confined.stops (R := Anyhow) .writeBlock
  · exact (writeBlock_returns ho.dev_lt (hb ho)).stops

/-- `bfree` returns on a block that is marked. -/
theorem bfree_stops (hL : L.Fits (s.sb dev)) (ho : Backed E L dev s) (hb : L.IsData b)
    (hm : (s.vol L dev).bm b = true) : Stops E (bfree dev b) s := by
  have hlt := hL.data_lt hb
  refine .bind superblock_returns.stops fun sb t hsb => ?_
  obtain ⟨rfl, rfl⟩ := superblock_ok hsb
  have hmod : Served L dev s → (s.sb dev).bmapstart % 2 ^ 31 < (s.disk dev).capacity := by
    intro ho
    rw [Nat.mod_eq_of_lt hL.bmap_lt]
    exact ho.bmap
  refine .bind (ho.readBlock hmod) fun buf t hr => ?_
  obtain ⟨rfl, rfl⟩ := readBlock_ok hr
  have hbit : (s.blk dev (s.sb dev).bmapstart).testBit b = true := hm
  rw [Nat.mod_eq_of_lt hL.bmap_lt, BSIZE_eq, if_neg (by omega), if_pos hbit]
  exact ho.writeBlock hmod

section Positions

variable (h : Pending L S dev n ip s) (ho : Backed E L dev s)

include h ho

/-- The block at a position in use can be freed. -/
theorem Pending.bfree_stops (hσ : σ.Valid) (h0 : (s.pend L dev n ip).ptr n σ ≠ 0) :
    Stops E (bfree dev ((s.pend L dev n ip).ptr n σ)) s :=
  Dmaos.bfree_stops h.fits ho (h.own.region h.mem hσ h0) (h.own.marked h.mem hσ h0)

theorem Pending.readBlock_stops (hσ : σ.Valid) (h0 : (s.pend L dev n ip).ptr n σ ≠ 0) :
    Stops E (readBlock dev ((s.pend L dev n ip).ptr n σ)) s := by
  refine ho.readBlock fun ho => ?_
  rw [(h.readBlock_ptr hσ h0).1]
  exact ho.data (h.own.region h.mem hσ h0)

/-- The table at a position in use can be written, also in a later state. -/
theorem Pending.writeBlock_stops (hσ : σ.Valid)
    (h0 : (s.pend L dev n ip).ptr n σ ≠ 0) (hs : Steady s s') :
    Stops E (writeBlock dev ((s.pend L dev n ip).ptr n σ) buf) s' := by
  rcases ho with hE | ho
  · exact Confined.stops (R := Anyhow) .writeBlock
  · refine (writeBlock_returns ho.dev_lt ?_).stops
    rw [(h.readBlock_ptr hσ h0).1, hs.capacity]
    exact ho.data (h.own.region h.mem hσ h0)

theorem freeTable_stops (hi : i < 14) : Stops E (freeTable ip i) s := by
  refine .inodeAt ?_
  rw [h.dev_eq, h.addr hi]
  dsimp only
  split_ifs with h0
  · exact .pure
  · exact .bind (h.bfree_stops ho hi h0) fun _ _ _ => .of_ok rfl

theorem freeSingle_stops (hi : i < 256) : Stops E (freeSingle ip i) s := by
  have htab : (Slot.top 12).IsTable := Or.inl rfl
  refine .inodeAt ?_
  rw [h.dev_eq, NDIRECT_eq, h.addr (by omega)]
  dsimp only
  split_ifs with ht0
  · exact .pure
  · refine .bind (h.readBlock_stops ho htab.valid ht0) fun buf t hr => ?_
    obtain ⟨rfl, rfl⟩ := h.readTable_ok htab ht0 hr
    rw [entry_data ht0]
    split_ifs with h0
    · exact .pure
    · exact .bind (h.bfree_stops ho ⟨htab, hi⟩ h0) fun _ _ hb =>
        h.writeBlock_stops ho htab.valid ht0 (.of_ok .bfree hb)

theorem freeEntry_stops {t : Slot} (htab : t.IsTable) (hi : i < 256)
    (ht0 : (s.pend L dev n ip).ptr n t ≠ 0) :
    Stops E (freeEntry dev ((s.pend L dev n ip).ptr n t)
      ((s.pend L dev n ip).data ((s.pend L dev n ip).ptr n t)) i) s := by
  unfold freeEntry
  rw [entry_data ht0]
  dsimp only
  split_ifs with h0
  · exact .pure
  · exact .bind (h.bfree_stops ho ⟨htab, hi⟩ h0) fun _ _ hb =>
      .bind (h.writeBlock_stops ho htab.valid ht0 (.of_ok .bfree hb)) fun _ _ _ => .pure

theorem freeDouble_stops {dfbn : Nat} (hd : dfbn < 65536) : Stops E (freeDouble ip dfbn) s := by
  have hroot : (Slot.top 13).IsTable := Or.inr rfl
  refine .inodeAt ?_
  have hk : ¬ 256 ≤ dfbn / 256 := by omega
  rw [h.dev_eq, NDIRECT_eq, NINDIRECT_eq, h.addr (by omega)]
  simp only [if_neg hk]
  split_ifs with hr0
  · exact .pure
  · refine .bind (h.readBlock_stops ho hroot.valid hr0) fun dbuf t hr => ?_
    obtain ⟨rfl, rfl⟩ := h.readTable_ok (t := .top 13) hroot hr0 hr
    rw [entry_data hr0]
    split_ifs with ht0
    · exact .pure
    · have htab : (Slot.ent (.top 13) (dfbn / 256)).IsTable := ⟨rfl, by omega⟩
      refine .bind (h.readBlock_stops ho htab.valid ht0) fun buf t hr' => ?_
      obtain ⟨rfl, rfl⟩ := h.readTable_ok htab ht0 hr'
      have hj : dfbn % 256 < 256 := by omega
      refine .bind (freeEntry_stops h ho htab hj ht0) fun buf w he => ?_
      have hst := Steady.of_ok .freeEntry he
      have htouch : Touches dev ip s w := LocalOn.freeEntry.of_ok h.dev_eq he
      obtain ⟨hp, hptr, -⟩ := freeEntry_ok h htab hj ht0 he
      have hw : Pending L S dev n ip w :=
        h.of_reduce htouch (by rw [hp]; exact h.own.reduce_freeAt h.mem ⟨htab, hj⟩)
      split_ifs
      · rw [← hptr] at ht0 ⊢
        exact .bind (hw.bfree_stops (ho.next hst htouch) htab.valid ht0) fun _ _ hb =>
          h.writeBlock_stops ho hroot.valid hr0 (trans_of Steady hst (.of_ok .bfree hb))
      · exact .pure

theorem freeBlock_stops (hbn : bn < 65804) : Stops E (freeBlock ip bn) s := by
  unfold freeBlock
  rw [NDIRECT_eq, NINDIRECT_eq]
  split_ifs with h1 h2
  · exact freeTable_stops h ho (by omega)
  · exact freeSingle_stops h ho (by omega)
  · exact freeDouble_stops h ho (by omega)

end Positions

/-- Dropping a block loses blocks of inode `n` only. -/
theorem Own.reduce_dropBlock {R : Nat → Prop} {V : Vol} (h : Own R S V) (hn : S n)
    (hbn : bn < 65804) : Reduce R S n V (V.dropBlock n bn) := by
  have hr := h.reduce_freeAt hn (Slot.valid_ofBlock hbn)
  unfold Vol.dropBlock
  split_ifs with hsmall
  · exact hr
  · exact hr.trans hn (hr.own.reduce_sweep hn ⟨Or.inr rfl, by omega⟩)

theorem itruncLoop_stops : ∀ {k bn : Nat} {s : KState}, Pending L S dev n ip s →
    Backed E L dev s → bn + k ≤ 65804 → Stops E (itruncLoop ip k bn) s
  | 0, _, _, _, _, _ => .pure
  | k + 1, bn, s, h, ho, hmax => by
      refine .bind (freeBlock_stops h ho (by omega)) fun u t hb => ?_
      have htouch : Touches dev ip s t := LocalOn.freeBlock.of_ok h.dev_eq hb
      refine itruncLoop_stops ?_ (ho.next (.of_ok .freeBlock hb) htouch) (by omega)
      refine h.of_reduce htouch ?_
      rw [freeBlock_ok h hb]
      exact h.own.reduce_dropBlock h.mem (by omega)

theorem onlyIf_freeTable_stops (h : Pending L S dev n ip s) (ho : Backed E L dev s) {c : Prop}
    [Decidable c] (hi : i < 14) : Stops E (onlyIf c (freeTable ip i)) s := by
  unfold onlyIf
  split_ifs
  · exact freeTable_stops h ho hi
  · exact .pure

theorem itruncBlocks_stops (h : Pending L S dev n ip s) (ho : Backed E L dev s) {lo hi : Nat}
    (hlohi : lo ≤ hi) (hmax : hi ≤ 65804)
    (hcov : ∀ b < lo, (s.pend L dev n ip).ptr n (Slot.ofBlock b) ≠ 0) :
    Stops E (itruncBlocks ip hi lo) s := by
  refine .bind (itruncLoop_stops h ho (by omega)) fun u t₁ hl => ?_
  obtain ⟨h₁, -⟩ := itruncLoop_ok hcov h le_rfl (by omega) (.refl h.own) hl
  have ho₁ := ho.next (Steady.of_ok .itruncLoop hl) (LocalOn.itruncLoop.of_ok h.dev_eq hl)
  rw [NDIRECT_eq, NINDIRECT_eq]
  refine .bind (onlyIf_freeTable_stops h₁ ho₁ (by omega)) fun u t₂ h12 => ?_
  obtain ⟨h₂, -⟩ := onlyIf_freeTable_ok h₁ (by omega) h12
  refine onlyIf_freeTable_stops h₂ ?_ (by omega)
  exact ho₁.next (Steady.of_ok (.onlyIf .freeTable) h12)
    ((LocalOn.onlyIf LocalOn.freeTable).of_ok h₁.dev_eq h12)

theorem iupdate_returns (hL : L.Fits (s.sb dev)) (ho : Online L dev s) (hh : Holds dev n ip s)
    (hlt : n < L.ninodes) : Returns (iupdate ip) s := by
  have hmod : iblock (s.sb dev) n % 2 ^ 31 < (s.disk dev).capacity := by
    rw [Nat.mod_eq_of_lt (hL.inode_lt hlt)]
    exact ho.inode hlt
  refine .bind inodeAt_returns fun I t hI => ?_
  obtain ⟨rfl, rfl⟩ := inodeAt_ok hI
  rw [hh.dev_eq, hh.inum_eq]
  refine .bind superblock_returns fun sb t hsb => ?_
  obtain ⟨rfl, rfl⟩ := superblock_ok hsb
  refine .bind (readBlock_returns ho.dev_lt hmod) fun buf t hr => ?_
  obtain ⟨rfl, -⟩ := readBlock_ok hr
  exact writeBlock_returns ho.dev_lt hmod

/-- `itrunc` does not stop at an inode that has its blocks. -/
theorem itrunc_stops {size : Nat} (h : Sound L S dev s) (hh : Holds dev n ip s)
    (ho : Backed E L dev s) (hlt : n < L.ninodes) (hS : S n) (hc : Covered (s.vol L dev) n) :
    Stops E (itrunc ip size) s := by
  have hlock : Stops E (ilock ip) s := by
    rcases ho with hE | ho
    · exact Confined.stops (R := Anyhow) .ilock
    · exact (ilock_returns hh h.fits ho.toOnline hlt).stops
  refine .bind hlock fun u t hl => ?_
  have hown := Owner.of_ilock hl h hh.dev_eq hh.inum_eq hlt hS
  have hvol : t.vol L dev = s.vol L dev := ilock_vol hl
  have hot := ho.next (.of_ok .ilock hl) (LocalOn.ilock.of_ok hh.dev_eq hl)
  refine .inodeAt ?_
  rw [hown.size, hvol]
  have hmax := hc.size_le
  split_ifs with hsize
  · exact .pure
  · rw [blocksFor_eq hmax, blocksFor_eq (by omega)]
    have hpend : t.pend L dev n ip = s.vol L dev := by rw [hown.pend_eq, hvol]
    have hmono : blocks size ≤ blocks ((s.vol L dev).ino n).size := blocks_mono (by omega)
    have hblocks : Stops E (itruncBlocks ip (blocks ((s.vol L dev).ino n).size) (blocks size)) t :=
      itruncBlocks_stops hown.pending hot hmono (blocks_le hmax)
        (by rw [hpend]; exact fun b hb => hc.ptr_ne (by omega))
    have hcut : Stops E (onlyIf (blocks size < blocks ((s.vol L dev).ino n).size)
        (itruncBlocks ip (blocks ((s.vol L dev).ino n).size) (blocks size))) t := by
      unfold onlyIf
      split_ifs
      · exact hblocks
      · exact .pure
    refine .bind hcut fun u t₁ hb => .bind (.of_ok rfl) fun u t₂ hset => ?_
    have ht₁ : Touches dev ip t t₁ := LocalOn.of_ok (.onlyIf .itruncBlocks) hown.dev_eq hb
    have ht₂ : Touches dev ip t₁ t₂ :=
      LocalOn.of_ok (.setDinode _) (by rw [ht₁.slot_dev, hown.dev_eq]) hset
    have hs₂ : Steady t t₂ :=
      trans_of Steady (.of_ok (.onlyIf .itruncBlocks) hb) (.of_ok .setDinode hset)
    have ht := ht₁.trans ht₂
    rcases hot.next hs₂ ht with hE | ho₂
    · exact Confined.stops (R := Anyhow) .iupdate
    · exact (iupdate_returns (by rw [ht.sb]; exact hown.fits) ho₂.toOnline
        (hown.toHolds.of_touches ht) hlt).stops

end Returns

end Dmaos
