import Dmaos.Volume.Change
import Dmaos.Kernel.Inode

/-!
# The volume on a device

A device holds a volume when its regions do not overlap.  The superblock says
where the inode table starts and which block is the free map; a `Layout` says
how many inodes there are and which blocks are data blocks.  `volOf` reads the
volume off the blocks.

Each kind of write changes one component of the volume: a data block
(`volOf_data`), the free map (`volOf_bmap`) or one inode (`volOf_inode`).
-/

namespace Dmaos

open Function

variable {d : Dinode} {i v type b n : Nat} {L : Layout} {sb : Superblock}

/-! ## Inodes -/

/-- The fields of an inode the file system uses. -/
def Dinode.view (d : Dinode) : DView where
  type := d.type
  nlink := d.nlink
  size := d.size
  addr i := if i < 14 then d.addr i else 0

/-- An inode that holds nothing. -/
def DView.blank : DView := ⟨0, 0, 0, fun _ => 0⟩

namespace Dinode

theorem view_congr {e : Dinode} (h : ∀ i < dinodeSize, d i = e i) : d.view = e.view := by
  have h16 : ∀ {o : Nat}, o + 1 < 128 → d.le16 o = e.le16 o :=
    fun ho => Buf.le16_congr (h _ (by simp only [dinodeSize]; omega))
      (h _ (by simp only [dinodeSize]; omega))
  have h32 : ∀ {o : Nat}, o + 3 < 128 → d.le32 o = e.le32 o :=
    fun ho => Buf.le32_congr fun i hi => h _ (by simp only [dinodeSize]; omega)
  apply DView.ext
  · exact h16 (by omega)
  · exact h16 (by omega)
  · exact h32 (by omega)
  · funext i
    show (if i < 14 then d.addr i else 0) = if i < 14 then e.addr i else 0
    split_ifs with hi
    · exact h32 (by omega)
    · rfl

theorem view_addr (h : i < 14) : d.view.addr i = d.addr i := if_pos h

theorem view_setAddr (d : Dinode) (hi : i < 14) (hv : v < 2 ^ 32) :
    (d.setAddr i v).view = d.view.setAddr i v := by
  apply DView.ext
  · exact Buf.le16_put32_of_disjoint (by omega)
  · exact Buf.le16_put32_of_disjoint (by omega)
  · exact Buf.le32_put32_of_disjoint (by omega)
  · funext j
    show (if j < 14 then _ else _) = update d.view.addr i v j
    by_cases hj : j = i
    · subst hj
      rw [update_self, if_pos hi]
      show Buf.le32 _ _ = v
      rw [Dinode.setAddr, Buf.le32_put32, Nat.mod_eq_of_lt hv]
    · rw [update_of_ne hj]
      refine if_congr Iff.rfl ?_ rfl
      exact Buf.le32_put32_of_disjoint (by omega)

theorem view_setSize (d : Dinode) (hv : v < 2 ^ 32) :
    (d.setSize v).view = { d.view with size := v } := by
  apply DView.ext
  · exact Buf.le16_put32_of_disjoint (by omega)
  · exact Buf.le16_put32_of_disjoint (by omega)
  · show Buf.le32 _ _ = v
    rw [Dinode.setSize, Buf.le32_put32, Nat.mod_eq_of_lt hv]
  · funext j
    refine if_congr Iff.rfl ?_ rfl
    exact Buf.le32_put32_of_disjoint (by omega)

theorem view_setType (d : Dinode) (hv : v < 2 ^ 16) :
    (d.setType v).view = { d.view with type := v } := by
  apply DView.ext
  · show Buf.le16 _ _ = v
    rw [Dinode.setType, Buf.le16_put16, Nat.mod_eq_of_lt hv]
  · exact Buf.le16_put16_of_disjoint (by omega)
  · exact Buf.le32_put16_of_disjoint (by omega)
  · funext j
    refine if_congr Iff.rfl ?_ rfl
    exact Buf.le32_put16_of_disjoint (by omega)

theorem view_setNlink (d : Dinode) (hv : v < 2 ^ 16) :
    (d.setNlink v).view = { d.view with nlink := v } := by
  apply DView.ext
  · exact Buf.le16_put16_of_disjoint (by omega)
  · show Buf.le16 _ _ = v
    rw [Dinode.setNlink, Buf.le16_put16, Nat.mod_eq_of_lt hv]
  · exact Buf.le32_put16_of_disjoint (by omega)
  · funext j
    refine if_congr Iff.rfl ?_ rfl
    exact Buf.le32_put16_of_disjoint (by omega)

theorem view_clearAddrs (d : Dinode) : d.clearAddrs.view = { d.view with addr := fun _ => 0 } := by
  apply DView.ext
  · exact Buf.le16_congr (Buf.copy_of_not_mem (by omega)) (Buf.copy_of_not_mem (by omega))
  · exact Buf.le16_congr (Buf.copy_of_not_mem (by omega)) (Buf.copy_of_not_mem (by omega))
  · exact Buf.le32_congr fun i hi => Buf.copy_of_not_mem (by omega)
  · funext j
    show (if j < 14 then d.clearAddrs.addr j else 0) = 0
    split_ifs with hj
    · have : d.clearAddrs.addr j = Buf.zero.le32 (12 + 4 * j) :=
        Buf.le32_congr fun i hi => Buf.copy_of_mem (by omega)
      rw [this, Buf.le32_zero]
    · rfl

theorem view_zero : Dinode.view Buf.zero = DView.blank := by
  apply DView.ext
  · rfl
  · rfl
  · rfl
  · funext i
    show (if i < 14 then Dinode.addr Buf.zero i else 0) = 0
    split_ifs <;> rfl

/-- The inode `ialloc` stores on the device. -/
theorem view_newDinode (h : type < 2 ^ 16) :
    (newDinode type).view = { DView.blank with type := type, nlink := 1 } := by
  unfold newDinode
  rw [view_setNlink _ (by omega), view_setType _ h, view_zero]

/-- The inode `ialloc` stores in the cache has the same fields. -/
theorem view_ialloc (d : Dinode) (h : type < 2 ^ 16) :
    (((d.setType type).setNlink 1).setSize 0).clearAddrs.view =
      { DView.blank with type := type, nlink := 1 } := by
  rw [view_clearAddrs, view_setSize _ (by omega), view_setNlink _ (by omega), view_setType _ h]
  rfl

theorem size_lt (d : Dinode) : d.size < 2 ^ 32 := Buf.le32_lt _ _

end Dinode

/-! ## Layouts -/

/-- What a device is divided into: how many inodes the inode table has room
for, and where the data blocks are. -/
structure Layout where
  ninodes : Nat
  datastart : Nat
  dataend : Nat

namespace Layout

/-- The data region. -/
def IsData (L : Layout) (b : Nat) : Prop := L.datastart ≤ b ∧ b < L.dataend

instance (L : Layout) (b : Nat) : Decidable (L.IsData b) := by
  unfold IsData
  infer_instance

/-- The regions of a device do not overlap: the superblock in block 1, the
inode table, the block of the free map, and the data blocks.  Block 0 is no
data block, and one block of bits covers the data blocks. -/
structure Fits (L : Layout) (sb : Superblock) : Prop where
  data_pos : 0 < L.datastart
  data_le : L.dataend ≤ 8 * BSIZE
  inode_lt : ∀ {n : Nat}, n < L.ninodes → iblock sb n < 2 ^ 31
  bmap_lt : sb.bmapstart < 2 ^ 31
  super_inode : ∀ {n : Nat}, n < L.ninodes → iblock sb n ≠ 1
  super_bmap : sb.bmapstart ≠ 1
  super_data : ¬ L.IsData 1
  inode_bmap : ∀ {n : Nat}, n < L.ninodes → iblock sb n ≠ sb.bmapstart
  inode_data : ∀ {n : Nat}, n < L.ninodes → ¬ L.IsData (iblock sb n)
  bmap_data : ¬ L.IsData sb.bmapstart

theorem Fits.data_lt (h : L.Fits sb) (hb : L.IsData b) : b < 8192 := by
  have h1 := h.data_le
  have h2 := hb.2
  simp only [BSIZE] at h1
  omega

theorem Fits.data_ne_zero (h : L.Fits sb) (hb : L.IsData b) : b ≠ 0 := by
  have h1 := h.data_pos
  have h2 := hb.1
  omega

end Layout

/-! ## The volume -/

/-- The bytes of inode `n` on a device. -/
def dinodeAt (sb : Superblock) (blk : Nat → Buf) (n : Nat) : Dinode :=
  fun i => blk (iblock sb n) (ioffset n + i)

/-- The volume a device holds. -/
def volOf (L : Layout) (sb : Superblock) (blk : Nat → Buf) : Vol where
  data b := if L.IsData b then blk b else Buf.zero
  bm b := (blk sb.bmapstart).testBit b
  ino n := if n < L.ninodes then (dinodeAt sb blk n).view else DView.blank

/-- Two inodes in one block occupy different bytes. -/
theorem ioffset_disjoint {m : Nat} (hne : m ≠ n) (hb : iblock sb m = iblock sb n) :
    ioffset m + dinodeSize ≤ ioffset n ∨ ioffset n + dinodeSize ≤ ioffset m := by
  simp only [iblock, ioffset, inodesPerBlock, BSIZE, dinodeSize] at hb ⊢
  omega

section Writes

variable {blk : Nat → Buf}

theorem volOf_ino (h : n < L.ninodes) :
    (volOf L sb blk).ino n = (dinodeAt sb blk n).view := if_pos h

theorem volOf_data_of (h : L.IsData b) : (volOf L sb blk).data b = blk b := if_pos h

/-- A data block is written. -/
theorem volOf_data (hL : L.Fits sb) (hb : L.IsData b) (buf : Buf) :
    volOf L sb (update blk b buf) = (volOf L sb blk).setData b buf := by
  apply Vol.ext
  · funext c
    show (if L.IsData c then update blk b buf c else Buf.zero) =
      update (volOf L sb blk).data b buf c
    by_cases hc : c = b
    · subst hc
      rw [if_pos hb, update_self, update_self]
    · rw [update_of_ne hc, update_of_ne hc]
      rfl
  · have hne : sb.bmapstart ≠ b := by
      rintro rfl
      exact hL.bmap_data hb
    funext c
    show (update blk b buf sb.bmapstart).testBit c = _
    rw [update_of_ne hne]
    rfl
  · funext n
    refine ite_congr rfl (fun hn => ?_) fun _ => rfl
    have hne : iblock sb n ≠ b := by
      rintro rfl
      exact hL.inode_data hn hb
    unfold dinodeAt
    rw [update_of_ne hne]

/-- The block of the free map is written. -/
theorem volOf_bmap (hL : L.Fits sb) (buf : Buf) :
    volOf L sb (update blk sb.bmapstart buf) =
      { volOf L sb blk with bm := fun b => buf.testBit b } := by
  apply Vol.ext
  · funext c
    refine ite_congr rfl (fun hc => ?_) fun _ => rfl
    rw [update_of_ne]
    rintro rfl
    exact hL.bmap_data hc
  · funext c
    show (update blk sb.bmapstart buf sb.bmapstart).testBit c = _
    rw [update_self]
  · funext n
    refine ite_congr rfl (fun hn => ?_) fun _ => rfl
    unfold dinodeAt
    rw [update_of_ne (hL.inode_bmap hn)]

/-- A block of the inode table is written back with one inode replaced. -/
theorem volOf_inode (hL : L.Fits sb) (hn : n < L.ninodes) (d : Dinode) :
    volOf L sb (update blk (iblock sb n)
        ((blk (iblock sb n)).copy (ioffset n) d dinodeSize)) =
      (volOf L sb blk).setIno n d.view := by
  set buf := (blk (iblock sb n)).copy (ioffset n) d dinodeSize with hbuf
  apply Vol.ext
  · funext c
    refine ite_congr rfl (fun hc => ?_) fun _ => rfl
    rw [update_of_ne]
    rintro rfl
    exact hL.inode_data hn hc
  · funext c
    show (update blk (iblock sb n) buf sb.bmapstart).testBit c = _
    rw [update_of_ne (hL.inode_bmap hn).symm]
    rfl
  · funext m
    show (if m < L.ninodes then (dinodeAt sb (update blk (iblock sb n) buf) m).view
      else DView.blank) = update (volOf L sb blk).ino n d.view m
    by_cases hm : m = n
    · subst hm
      rw [update_self, if_pos hn]
      apply Dinode.view_congr
      intro i hi
      unfold dinodeAt
      rw [update_self, hbuf, Buf.copy_of_mem (by omega)]
      congr 1
      omega
    · rw [update_of_ne hm]
      refine ite_congr rfl (fun hm' => ?_) fun _ => rfl
      apply Dinode.view_congr
      intro i hi
      unfold dinodeAt
      by_cases hb : iblock sb m = iblock sb n
      · -- The other inodes of the block keep their bytes.
        have hd := ioffset_disjoint hm hb
        rw [hb, update_self, hbuf, Buf.copy_of_not_mem (by omega)]
      · rw [update_of_ne hb]

/-- The bit of a block is set and the block is filled with zeros. -/
theorem volOf_fresh (hL : L.Fits sb) (hb : L.IsData b) :
    volOf L sb (update (update blk sb.bmapstart ((blk sb.bmapstart).setBit b))
        b Buf.zero) = (volOf L sb blk).fresh b := by
  rw [volOf_data hL hb, volOf_bmap hL]
  refine Vol.ext rfl ?_ rfl
  funext c
  show ((blk sb.bmapstart).setBit b).testBit c = update (volOf L sb blk).bm b true c
  rw [Buf.testBit_setBit]
  by_cases hc : c = b
  · subst hc
    simp
  · simp only [update_of_ne hc, hc, decide_false, Bool.or_false]
    rfl

/-- The bit of a block is cleared. -/
theorem volOf_clear (hL : L.Fits sb) (b : Nat) :
    volOf L sb (update blk sb.bmapstart ((blk sb.bmapstart).clearBit b)) =
      (volOf L sb blk).clear b := by
  rw [volOf_bmap hL]
  refine Vol.ext rfl ?_ rfl
  funext c
  show ((blk sb.bmapstart).clearBit b).testBit c = update (volOf L sb blk).bm b false c
  rw [Buf.testBit_clearBit]
  by_cases hc : c = b
  · subst hc
    simp
  · simp only [update_of_ne hc, hc, decide_false, Bool.not_false, Bool.and_true]
    rfl

end Writes

end Dmaos
