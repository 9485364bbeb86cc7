import Dmaos.Volume.Image
import Dmaos.Kernel.Name
import Mathlib.Data.List.GetD

/-!
# Formatted devices

A device with a given list of directories: the superblock in block 1, an inode
table of `k + 1` blocks of eight inodes from block 2 on, the free map after it, and
then the data blocks.  Directory `n` is inode `n` and has the `n`-th data block.
The kernel can be run on such a device, and `formatted_own` says that its inodes own
their blocks.  The small device has one block of inodes.
-/

namespace Dmaos

open Function

/-- The entries of a directory: inode numbers and names. -/
abbrev Listing := List (Nat × List Byte)

/-- The block that holds the entries of a directory. -/
def Listing.block (l : Listing) : Buf :=
  Buf.ofList (l.flatMap fun e => (newDirent e.2 e.1).slice 0 direntSize)

/-- The inode of a directory with `k` entries in one block. -/
def Listing.inode (k block : Nat) : Dinode :=
  (((Dinode.setType Buf.zero FT_DIRECTORY).setNlink 1).setSize (32 * k)).setAddr 0 block

/-- The number of blocks of the inode table. -/
abbrev tableBlocks (k : Fin 7) : Nat := k + 1

theorem tableBlocks_le (k : Fin 7) : 0 < tableBlocks k ∧ tableBlocks k ≤ 7 :=
  ⟨Nat.succ_pos _, k.isLt⟩

/-- Inode `n` of the device. -/
def formattedInode (k : Fin 7) (dirs : List Listing) (n : Nat) : Dinode :=
  if 0 < n ∧ n ≤ dirs.length then
    Listing.inode (dirs.getD (n - 1) []).length (2 + tableBlocks k + n)
  else Buf.zero

/-- The superblock of the device. -/
def superOf (k : Fin 7) : Buf :=
  (((((Buf.zero.put32 0 0x10203040).put32 4 (16 * tableBlocks k)).put32 8
    (16 * tableBlocks k)).put32 12 (8 * tableBlocks k)).put32 16 2).put32 20 (2 + tableBlocks k)

/-- A device with the given directories. -/
def formattedOn (k : Fin 7) (dirs : List Listing) : Device where
  capacity := 16 * tableBlocks k
  blk b :=
    if b = 1 then superOf k
    else if 2 ≤ b ∧ b < 2 + tableBlocks k then
      fun i => formattedInode k dirs ((b - 2) * 8 + i / 128) (i % 128)
    else if b = 2 + tableBlocks k then
      fun i => BitVec.ofNat 8 ((2 ^ (3 + tableBlocks k + dirs.length) - 1) / 2 ^ (8 * i))
    else if 3 + tableBlocks k ≤ b then (dirs.getD (b - (3 + tableBlocks k)) []).block
    else Buf.zero

/-- The layout of the device. -/
def layoutOf (k : Fin 7) : Layout := ⟨8 * tableBlocks k, 3 + tableBlocks k, 16 * tableBlocks k⟩

/-- The volume on the device. -/
def volumeOf (k : Fin 7) (dirs : List Listing) : Vol :=
  volOf (layoutOf k) (Superblock.ofBuf (superOf k)) (formattedOn k dirs).blk

abbrev formattedSuper : Buf := superOf 0
abbrev formatted : List Listing → Device := formattedOn 0
abbrev formattedLayout : Layout := layoutOf 0
abbrev formattedVol : List Listing → Vol := volumeOf 0

section Formatted

variable {k : Fin 7} {dirs : List Listing} {n : Nat}

theorem superOf_eq : Superblock.ofBuf (superOf k) =
    ⟨0x10203040, 16 * tableBlocks k, 16 * tableBlocks k, 8 * tableBlocks k, 2,
      2 + tableBlocks k⟩ := by
  revert k
  decide

theorem iblock_superOf : iblock (Superblock.ofBuf (superOf k)) n = 2 + n / 8 := by
  rw [superOf_eq]
  rfl

theorem formatted_fits : (layoutOf k).Fits (Superblock.ofBuf (superOf k)) := by
  have hk := tableBlocks_le k
  have hbmap : (Superblock.ofBuf (superOf k)).bmapstart = 2 + tableBlocks k := by rw [superOf_eq]
  refine ⟨?_, ?_, fun h => ?_, ?_, fun h => ?_, ?_, ?_, fun h => ?_, fun h => ?_, ?_⟩ <;>
    simp only [iblock_superOf, hbmap, layoutOf, Layout.IsData, BSIZE] at * <;> omega

theorem formatted_iblock_lt (h : n < 8 * tableBlocks k) :
    iblock (Superblock.ofBuf (superOf k)) n < 16 * tableBlocks k := by
  rw [iblock_superOf]
  omega

theorem Listing.view_inode {k block : Nat} (hk : k ≤ 32) (hb : block < 2 ^ 32) :
    (Listing.inode k block).view =
      { type := FT_DIRECTORY, nlink := 1, size := 32 * k,
        addr := update (fun _ => 0) 0 block } := by
  unfold Listing.inode
  rw [Dinode.view_setAddr _ (by omega) hb, Dinode.view_setSize _ (by omega),
    Dinode.view_setNlink _ (by omega), Dinode.view_setType _ (by decide), Dinode.view_zero]
  rfl

/-- The inodes on the device. -/
theorem formatted_ino (hlen : dirs.length < 8 * tableBlocks k) (hdirs : ∀ l ∈ dirs, l.length ≤ 32)
    (n : Nat) :
    (volumeOf k dirs).ino n =
      if 0 < n ∧ n ≤ dirs.length then
        { type := FT_DIRECTORY, nlink := 1, size := 32 * (dirs.getD (n - 1) []).length,
          addr := update (fun _ => 0) 0 (2 + tableBlocks k + n) }
      else DView.blank := by
  have hk := tableBlocks_le k
  by_cases hn : n < 8 * tableBlocks k
  · have hd : ∀ i < dinodeSize, dinodeAt (Superblock.ofBuf (superOf k)) (formattedOn k dirs).blk n i
        = formattedInode k dirs n i := by
      intro i hi
      simp only [dinodeAt, iblock_superOf, formattedOn, dinodeSize, ioffset, inodesPerBlock,
        BSIZE] at hi ⊢
      rw [if_neg (by omega), if_pos (by omega)]
      congr 1
      · omega
      · omega
    unfold volumeOf
    rw [volOf_ino hn, Dinode.view_congr hd]
    unfold formattedInode
    split_ifs with h
    · refine Listing.view_inode ?_ (by omega)
      rw [List.getD_eq_getElem _ _ (by omega)]
      exact hdirs _ (List.getElem_mem _)
    · exact Dinode.view_zero
  · rw [if_neg (by omega)]
    exact if_neg hn

/-- Each directory has one block. -/
theorem formatted_ptr (hlen : dirs.length < 8 * tableBlocks k) (hdirs : ∀ l ∈ dirs, l.length ≤ 32) 
    (hn : 0 < n ∧ n ≤ dirs.length) {σ : Slot} (hσ : σ.Valid) :
    (volumeOf k dirs).ptr n σ = if σ = .top 0 then 2 + tableBlocks k + n else 0 := by
  have htop (i : Nat) :
      (volumeOf k dirs).ptr n (.top i) = if i = 0 then 2 + tableBlocks k + n else 0 := by
    rw [Vol.ptr_top, formatted_ino hlen hdirs, if_pos hn]
    simp only [update_apply]
  have hent : ∀ t i, t.IsTable → (volumeOf k dirs).ptr n (.ent t i) = 0 := by
    intro t i ht
    apply Vol.ptr_ent_of_eq
    rcases ht.cases with rfl | rfl | ⟨k, -, rfl⟩
    · rw [htop, if_neg (by omega)]
    · rw [htop, if_neg (by omega)]
    · exact Vol.ptr_ent_of_eq (by rw [htop, if_neg (by omega)])
  cases σ with
  | top i =>
      rw [htop]
      simp only [Slot.top.injEq]
  | ent t i => rw [hent t i hσ.table, if_neg (by simp)]

/-- The blocks that are marked. -/
theorem formatted_bm (b : Nat) :
    (volumeOf k dirs).bm b = decide (b < 3 + tableBlocks k + dirs.length) := by
  show ((formattedOn k dirs).blk (Superblock.ofBuf (superOf k)).bmapstart).testBit b = _
  rw [superOf_eq]
  simp only [formattedOn, Buf.testBit]
  rw [if_neg (by omega), if_neg (by omega), if_pos trivial, BitVec.getLsbD_ofNat,
    Nat.testBit_div_two_pow, Nat.testBit_two_pow_sub_one]
  have h : b % 8 < 8 := Nat.mod_lt _ (by omega)
  rw [decide_eq_true h, Bool.true_and, Nat.mod_add_div]

/-- The directories own their blocks. -/
theorem formatted_own (hlen : dirs.length < 8 * tableBlocks k) (hdirs : ∀ l ∈ dirs, l.length ≤ 32) :
    Own (layoutOf k).IsData (fun n => 0 < n ∧ n ≤ dirs.length) (volumeOf k dirs) := by
  have hptr : ∀ {n : Nat} {σ : Slot}, (0 < n ∧ n ≤ dirs.length) → σ.Valid →
      (volumeOf k dirs).ptr n σ = if σ = .top 0 then 2 + tableBlocks k + n else 0 :=
    fun hn hσ => formatted_ptr hlen hdirs hn hσ
  refine ⟨?_, ?_, ?_⟩
  · intro n m σ τ hn hm hσ hτ h0 he
    rw [hptr hn hσ] at h0 he
    rw [hptr hm hτ] at he
    split_ifs at h0 he with h1 h2
    · exact ⟨by omega, h1.trans h2.symm⟩
    · exact absurd he (by omega)
    · exact absurd rfl h0
    · exact absurd rfl h0
  · intro n σ hn hσ h0
    rw [hptr hn hσ] at h0 ⊢
    split_ifs at h0 ⊢ with h1
    · show 3 + tableBlocks k ≤ _ ∧ _ < 16 * tableBlocks k
      omega
    · exact absurd rfl h0
  · intro n σ hn hσ h0
    rw [hptr hn hσ] at h0 ⊢
    split_ifs at h0 ⊢ with h1
    · rw [formatted_bm, decide_eq_true_eq]
      omega
    · exact absurd rfl h0

/-- The blocks that are no data blocks are marked. -/
theorem formatted_reserved :
    Reserved (layoutOf k).IsData (Superblock.ofBuf (superOf k)).nblocks (volumeOf k dirs) := by
  intro b hb hR
  rw [superOf_eq] at hb
  dsimp only at hb
  have : ¬ (3 + tableBlocks k ≤ b ∧ b < 16 * tableBlocks k) := hR
  rw [formatted_bm, decide_eq_true_eq]
  omega

end Formatted

end Dmaos
