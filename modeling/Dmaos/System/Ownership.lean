import Dmaos.System.Run

/-!
# Who owns the blocks

`FsInv` is the consistency of the block maps: the inodes in use have exactly
the blocks and tables their sizes call for, each block stands at one position
of one inode, lies in the data region and is marked in the free map.  Every run
of system calls keeps it (`fsInv_of_reached`).
-/

namespace Dmaos

open Fault Function Vol

variable {L : Layout} {V V' : Vol} {n bn : Nat} {S : Nat → Prop} {d : Device}

/-! ## The invariant -/

/-- What the block map of inode `n` has for file block `bn`. -/
def Vol.entry (V : Vol) (n bn : Nat) : Nat :=
  if bn < MAXFILE then V.ptr n (.ofBlock bn) else 0

/-- The block maps of the inodes in use are consistent. -/
structure FsInv (L : Layout) (V : Vol) : Prop where
  /-- The blocks that are mapped are those below the size. -/
  mapped : ∀ {n : Nat}, InUse V n → ∀ bn, V.entry n bn ≠ 0 ↔ bn < blocks (V.ino n).size
  /-- The single-indirect table exists if more than 12 blocks are mapped. -/
  single : ∀ {n : Nat}, InUse V n → (V.ptr n (.top 12) ≠ 0 ↔ 12 < blocks (V.ino n).size)
  /-- The double-indirect root exists if more than 268 blocks are mapped. -/
  double : ∀ {n : Nat}, InUse V n → (V.ptr n (.top 13) ≠ 0 ↔ 268 < blocks (V.ino n).size)
  /-- A second-level table exists if it serves a block that is mapped. -/
  second : ∀ {n k : Nat}, InUse V n → k < 256 →
    (V.ptr n (.ent (.top 13) k) ≠ 0 ↔ ∃ j < 256, V.entry n (268 + 256 * k + j) ≠ 0)
  own : Own L.IsData (InUse V) V

section Shape

theorem Vol.entry_of_lt (h : bn < 65804) : V.entry n bn = V.ptr n (.ofBlock bn) :=
  if_pos h

theorem Vol.entry_of_ge (h : 65804 ≤ bn) : V.entry n bn = 0 :=
  if_neg (Nat.not_lt.mpr h)

theorem FsInv.shaped (h : FsInv L V) (hn : InUse V n) : V.Shaped n := by
  refine ⟨?_, fun σ hσ => ?_⟩
  · -- No block is mapped beyond the largest file.
    by_contra hsize
    have hlt : 65804 < blocks (V.ino n).size := by
      simp only [maxSize, blocks] at hsize ⊢
      omega
    exact (h.mapped hn 65804).mpr hlt (entry_of_ge le_rfl)
  · by_cases ht : σ.IsTable
    · rcases ht.cases with rfl | rfl | ⟨k, hk, rfl⟩
      · exact h.single hn
      · exact h.double hn
      · rw [h.second hn hk, Slot.rank_table]
        constructor
        · rintro ⟨j, -, hj⟩
          have := (h.mapped hn _).mp hj
          omega
        · intro hlt
          exact ⟨0, by omega, (h.mapped hn _).mpr hlt⟩
    · have hleaf : σ.Leaf := ⟨hσ, ht⟩
      rw [← h.mapped hn σ.rank, entry_of_lt (Slot.rank_lt_of_leaf hleaf),
        Slot.ofBlock_rank hleaf]

theorem FsInv.of_shaped (hs : ∀ {n : Nat}, InUse V n → V.Shaped n)
    (hown : Own L.IsData (InUse V) V) : FsInv L V := by
  have hmapped : ∀ {n : Nat}, InUse V n → ∀ bn, V.entry n bn ≠ 0 ↔ bn < blocks (V.ino n).size := by
    intro n hn bn
    by_cases hbn : bn < 65804
    · rw [entry_of_lt hbn, (hs hn).exact _ (Slot.valid_ofBlock hbn), Slot.rank_ofBlock]
    · have := blocks_le (hs hn).size_le
      rw [entry_of_ge (Nat.le_of_not_lt hbn)]
      omega
  refine ⟨hmapped, fun hn => (hs hn).exact (.top 12) (show _ < 14 by decide),
    fun hn => (hs hn).exact (.top 13) (show _ < 14 by decide), fun {n k} hn hk => ?_, hown⟩
  rw [(hs hn).exact (.ent (.top 13) k) ⟨Or.inr rfl, hk⟩, Slot.rank_table]
  constructor
  · intro hlt
    exact ⟨0, by omega, (hmapped hn _).mpr hlt⟩
  · rintro ⟨j, -, hj⟩
    have := (hmapped hn _).mp hj
    omega

theorem Own.mono {R T : Nat → Prop} (h : Own R S V) (hT : ∀ {n : Nat}, T n → S n) : Own R T V :=
  ⟨fun hn hm => h.inj (hT hn) (hT hm), fun hn => h.region (hT hn), fun hn => h.marked (hT hn)⟩

theorem WF.fsInv (h : WF L S V) : FsInv L V :=
  .of_shaped (fun hn => h.shaped (h.used hn)) (h.own.mono h.used)

end Shape

/-! ## Runs -/

/-- The root directory is in use, and so is every inode a directory names. -/
structure Vol.Closed (V : Vol) : Prop where
  root : InUse V 1
  entries : ∀ {n k : Nat}, V.IsDir n → k < V.nents n → (V.ent n k).1 ≠ 0 → InUse V (V.ent n k).1

section Runs

variable {d0 d1 : Device} {s : KState}

theorem InUse.lt (h : InUse (d.vol L) n) : n < L.ninodes := by
  by_contra hn
  have h0 : inUse (d.vol L) n = true := h
  have hino : (d.vol L).ino n = DView.blank := if_neg hn
  rw [inUse, hino] at h0
  cases h0

theorem Device.Consistent.of_fsInv (hfits : L.Fits d.super)
    (hinv : FsInv L (d.vol L)) (hres : Reserved L.IsData d.super.nblocks (d.vol L))
    (hclosed : (d.vol L).Closed) : d.Consistent L where
  fits := hfits
  reserved := hres
  wf :=
    { own := hinv.own, lt := InUse.lt, shaped := hinv.shaped, used := id, root := hclosed.root,
      entries := hclosed.entries }

/-- Every run of system calls in which no directory is written to through a
descriptor keeps the block maps consistent. -/
theorem fsInv_of_reached (hfits : L.Fits d1.super) (hn : d1.super.ninodes = L.ninodes)
    (hinv : FsInv L (d1.vol L)) (hres : Reserved L.IsData d1.super.nblocks (d1.vol L))
    (hclosed : (d1.vol L).Closed) (h : Reached (Tame L) d0 d1 s) : FsInv L (s.vol L 1) := by
  obtain ⟨-, S, hd, -⟩ := h.invariant (J := fun _ _ => True)
    (.of_fsInv hfits hinv hres hclosed)
    (fun htame hsb => ⟨fun _ => Or.inl (by rw [hsb, hn]), htame.write⟩) trivial
    (fun _ _ _ _ _ => trivial)
  exact hd.wf.fsInv

end Runs

/-! ## Formatted devices -/

section Formatted

variable {k : Fin 7} {dirs : List Listing}

theorem formatted_inUse (hlen : dirs.length < 8 * tableBlocks k)
    (hdirs : ∀ l ∈ dirs, l.length ≤ 32) : InUse (volumeOf k dirs) n ↔ 0 < n ∧ n ≤ dirs.length := by
  unfold InUse inUse
  rw [formatted_ino hlen hdirs]
  split_ifs with h
  · exact iff_of_true rfl h
  · exact iff_of_false (by decide) h

theorem formatted_fsInv (hlen : dirs.length < 8 * tableBlocks k)
    (hdirs : ∀ l ∈ dirs, 0 < l.length ∧ l.length ≤ 32) : FsInv (layoutOf k) (volumeOf k dirs) := by
  have hdirs' : ∀ l ∈ dirs, l.length ≤ 32 := fun l hl => (hdirs l hl).2
  refine .of_shaped (fun {n} hn => ?_)
    ((formatted_own hlen hdirs').mono fun hn => (formatted_inUse hlen hdirs').mp hn)
  rw [formatted_inUse hlen hdirs'] at hn
  have hsize : ((volumeOf k dirs).ino n).size = 32 * (dirs.getD (n - 1) []).length := by
    rw [formatted_ino hlen hdirs', if_pos hn]
  obtain ⟨h1, h2⟩ := hdirs (dirs.getD (n - 1) []) (by
    rw [List.getD_eq_getElem _ _ (by omega)]
    exact List.getElem_mem _)
  refine ⟨by rw [hsize]; simp only [maxSize]; omega, fun σ hσ => ?_⟩
  -- One block is mapped, the first.
  have hblocks : blocks ((volumeOf k dirs).ino n).size = 1 := by
    rw [hsize, blocks]
    omega
  rw [formatted_ptr hlen hdirs' hn hσ, hblocks]
  constructor
  · intro h0
    split_ifs at h0 with ht
    · rw [ht]
      decide
    · exact absurd rfl h0
  · intro hr
    have hb : σ = .top 0 := by
      have := Slot.on_ofBlock_rank hσ
      rw [show σ.rank = 0 by omega] at this
      exact this
    rw [if_pos hb]
    omega

theorem formatted_closed (hlen : dirs.length < 8 * tableBlocks k)
    (hdirs : ∀ l ∈ dirs, l.length ≤ 32)
    (hroot : 0 < dirs.length) (hent : ∀ n < 8 * tableBlocks k, ∀ i < (volumeOf k dirs).nents n,
      ((volumeOf k dirs).ent n i).1 ≤ dirs.length) : (volumeOf k dirs).Closed := by
  refine ⟨(formatted_inUse hlen hdirs).mpr ⟨by decide, hroot⟩, fun {n i} hd hi h0 => ?_⟩
  have hn := (formatted_inUse hlen hdirs).mp hd.inUse
  exact (formatted_inUse hlen hdirs).mpr ⟨Nat.pos_of_ne_zero h0, hent n (by omega) i hi⟩

end Formatted

/-- The device with an empty root directory. -/
def emptyDisk : Device := formatted [[(1, dot), (1, dotdot)]]

/-- The path `"/home/a"`. -/
def pathA : CString := ⟨homePath ++ [0x2f, 0x61], by decide⟩

/-- The path `"/home/b"`. -/
def pathB : CString := ⟨homePath ++ [0x2f, 0x62], by decide⟩

theorem emptyDisk_consistent : emptyDisk.Consistent formattedLayout :=
  .of_fsInv formatted_fits (formatted_fsInv (by decide) (by decide)) formatted_reserved
    (formatted_closed (by decide) (by decide) (by decide) (by decide +kernel))

theorem systemDisk_consistent : systemDisk.Consistent formattedLayout :=
  .of_fsInv formatted_fits (formatted_fsInv (by decide) (by decide)) formatted_reserved
    (formatted_closed (by decide) (by decide) (by decide) (by decide +kernel))

/-- A directory is made on the empty device. -/
theorem fsInv_of_reached_mkdir :
    ∃ s, Reached (Tame formattedLayout) systemDisk emptyDisk s ∧
      ((s.vol formattedLayout 1).ino 2).size = 64 ∧
      FsInv formattedLayout (s.vol formattedLayout 1) := by
  have hrun : (playFrom (Tame formattedLayout) systemDisk emptyDisk [(1, .mkdir pathA)]).any
      (fun s => ((s.vol formattedLayout 1).ino 2).size == 64) = true := by decide +kernel
  obtain ⟨s, hs, hsize⟩ := Reached.of_playFrom hrun
  have hfits : formattedLayout.Fits emptyDisk.super := formatted_fits
  refine ⟨s, hs, by simpa using hsize, fsInv_of_reached hfits rfl ?_ formatted_reserved ?_ hs⟩
  · exact formatted_fsInv (by decide) (by decide)
  · exact formatted_closed (by decide) (by decide) (by decide) (by decide +kernel)

/-! ## What the image must satisfy -/

section Images

theorem FsInv.sameFile (h : FsInv L V) (hn : InUse V n) (hino : V'.ino n = V.ino n)
    (hdata : ∀ b, V'.data b = V.data b) : SameFile V V' n := by
  have hptr : ∀ {σ : Slot}, σ.Valid → V'.ptr n σ = V.ptr n σ := fun hσ =>
    ptr_congr (congrArg DView.addr hino) (fun _ _ _ => hdata _) hσ
  exact ⟨hino, hptr, ((h.shaped hn).covered.content_eq hino hptr fun _ _ => hdata _).2⟩

/-- Inodes that are not in use do not matter. -/
theorem FsInv.congr (h : FsInv L V) (hino : ∀ n, InUse V' n → V'.ino n = V.ino n)
    (hdata : ∀ b, V'.data b = V.data b)
    (hbm : ∀ n σ, InUse V n → σ.Valid → V.ptr n σ ≠ 0 → V'.bm (V.ptr n σ) = true) : FsInv L V' := by
  have hused : ∀ {n}, InUse V' n → InUse V n := by
    intro n hn
    have hn' := hn
    unfold InUse inUse at hn' ⊢
    rwa [← hino n hn]
  have hsame : ∀ {n}, InUse V' n → SameFile V V' n :=
    fun hn => h.sameFile (hused hn) (hino _ hn) hdata
  refine .of_shaped (fun hn => (hsame hn).shaped (h.shaped (hused hn))) ⟨?_, ?_, ?_⟩
  · intro n m σ τ hn hm hσ hτ h0 he
    rw [(hsame hn).ptr hσ] at h0 he
    rw [(hsame hm).ptr hτ] at he
    exact h.own.inj (hused hn) (hused hm) hσ hτ h0 he
  · intro n σ hn hσ h0
    rw [(hsame hn).ptr hσ] at h0 ⊢
    exact h.own.region (hused hn) hσ h0
  · intro n σ hn hσ h0
    rw [(hsame hn).ptr hσ] at h0 ⊢
    exact hbm n σ (hused hn) hσ h0

/-- Only which inodes are in use and what the directories are matters. -/
theorem Vol.Closed.congr (h : V.Closed) (hinv : FsInv L V)
    (hused : ∀ n, InUse V' n ↔ InUse V n) (hino : ∀ n, V'.IsDir n → V'.ino n = V.ino n)
    (hdata : ∀ b, V'.data b = V.data b) : V'.Closed := by
  refine ⟨(hused 1).mpr h.root, fun {n k} hd hk h0 => ?_⟩
  have hs := hinv.sameFile ((hused n).mp hd.inUse) (hino n hd) hdata
  rw [hs.nents] at hk
  rw [hs.ent hk] at h0 ⊢
  exact (hused _).mpr (h.entries (hs.isDir.mp hd) hk h0)

end Images

/-- The empty device, with only the block of the root directory marked. -/
def unmarkedDisk : Device :=
  { emptyDisk with blk := update emptyDisk.blk 3 (Buf.ofList [0x10]) }

/-- A device whose root directory has an entry `x` for inode 2, which is not
in use and still points to block 2, where the inodes are. -/
def strayDisk : Device :=
  let d := formatted [[(1, dot), (1, dotdot), (2, [0x78])]]
  { d with
    blk := update d.blk 2
      ((d.blk 2).copy (ioffset 2) (Dinode.setAddr Buf.zero 0 2) dinodeSize) }

theorem unmarkedDisk_vol : unmarkedDisk.vol formattedLayout =
    { formattedVol [[(1, dot), (1, dotdot)]] with bm := fun b => (Buf.ofList [0x10]).testBit b } :=
  volOf_bmap formatted_fits _

theorem strayDisk_vol : strayDisk.vol formattedLayout =
    (formattedVol [[(1, dot), (1, dotdot), (2, [0x78])]]).setIno 2
      (Dinode.setAddr Buf.zero 0 2).view :=
  volOf_inode formatted_fits (n := 2) (by decide) _

theorem unmarkedDisk_fsInv : FsInv formattedLayout (unmarkedDisk.vol formattedLayout) := by
  rw [unmarkedDisk_vol]
  refine (formatted_fsInv (by decide) (by decide)).congr (fun n _ => rfl) (fun b => rfl) ?_
  intro n σ hn hσ h0
  have hn' := (formatted_inUse (by decide) (by decide)).mp hn
  obtain rfl : n = 1 := Nat.le_antisymm hn'.2 hn'.1
  rw [formatted_ptr (by decide) (by decide) hn' hσ] at h0 ⊢
  split_ifs at h0 ⊢ with ht
  · decide
  · exact absurd rfl h0

theorem unmarkedDisk_closed : (unmarkedDisk.vol formattedLayout).Closed := by
  rw [unmarkedDisk_vol]
  exact (formatted_closed (by decide) (by decide) (by decide) (by decide +kernel)).congr
    (formatted_fsInv (by decide) (by decide)) (fun n => Iff.rfl) (fun n _ => rfl) (fun b => rfl)

theorem strayDisk_fsInv : FsInv formattedLayout (strayDisk.vol formattedLayout) := by
  rw [strayDisk_vol]
  have h : FsInv formattedLayout (formattedVol [[(1, dot), (1, dotdot), (2, [0x78])]]) :=
    formatted_fsInv (by decide) (by decide)
  refine h.congr (fun n hn => ?_) (fun b => rfl) fun n σ hn hσ h0 => h.own.marked hn hσ h0
  refine update_of_ne ?_ _ _
  rintro rfl
  exact absurd hn (by decide +kernel)

theorem strayDisk_reserved : Reserved formattedLayout.IsData strayDisk.super.nblocks
    (strayDisk.vol formattedLayout) := by
  rw [strayDisk_vol]
  exact formatted_reserved

/-- On an image that only has consistent block maps a run can break them: when
blocks outside the data region are not marked, and when a directory names an
inode that is not in use. -/
theorem fsInv_not_kept :
    (formattedLayout.Fits unmarkedDisk.super ∧
        unmarkedDisk.super.ninodes = formattedLayout.ninodes ∧
        FsInv formattedLayout (unmarkedDisk.vol formattedLayout) ∧
        (unmarkedDisk.vol formattedLayout).Closed ∧
        ∃ s, Reached (Tame formattedLayout) systemDisk unmarkedDisk s ∧
          ¬ FsInv formattedLayout (s.vol formattedLayout 1)) ∧
      (formattedLayout.Fits strayDisk.super ∧
        strayDisk.super.ninodes = formattedLayout.ninodes ∧
        FsInv formattedLayout (strayDisk.vol formattedLayout) ∧
        Reserved formattedLayout.IsData strayDisk.super.nblocks (strayDisk.vol formattedLayout) ∧
        ∃ s, Reached (Tame formattedLayout) systemDisk strayDisk s ∧
          ¬ FsInv formattedLayout (s.vol formattedLayout 1)) := by
  -- In both runs a block outside the data region comes to stand in a block map.
  have broken : ∀ {s : KState} {n : Nat},
      (inUse (s.vol formattedLayout 1) n &&
        decide ((s.vol formattedLayout 1).ptr n (.top 0) ≠ 0 ∧
          ¬ formattedLayout.IsData ((s.vol formattedLayout 1).ptr n (.top 0)))) = true →
      ¬ FsInv formattedLayout (s.vol formattedLayout 1) := by
    intro s n hn h
    rw [Bool.and_eq_true, decide_eq_true_eq] at hn
    exact hn.2.2 (h.own.region hn.1 (show 0 < 14 by decide) hn.2.1)
  refine ⟨⟨formatted_fits, rfl, unmarkedDisk_fsInv, unmarkedDisk_closed, ?_⟩, formatted_fits, rfl,
    strayDisk_fsInv, strayDisk_reserved, ?_⟩
  · have hrun : (playFrom (Tame formattedLayout) systemDisk unmarkedDisk [(1, .mkdir pathA)]).any
        (fun s => inUse (s.vol formattedLayout 1) 2 &&
          decide ((s.vol formattedLayout 1).ptr 2 (.top 0) ≠ 0 ∧
            ¬ formattedLayout.IsData ((s.vol formattedLayout 1).ptr 2 (.top 0)))) = true := by
      decide +kernel
    obtain ⟨s, hs, hbad⟩ := Reached.of_playFrom hrun
    exact ⟨s, hs, broken hbad⟩
  · have hrun : (playFrom (Tame formattedLayout) systemDisk strayDisk
        [(1, .open ⟨homePath ++ [0x2f, 0x78], by decide⟩ FILECTRL_WRITEONLY),
          (1, .write 3 (fun _ => 1) 1024)]).any
        (fun s => inUse (s.vol formattedLayout 1) 3 &&
          decide ((s.vol formattedLayout 1).ptr 3 (.top 0) ≠ 0 ∧
            ¬ formattedLayout.IsData ((s.vol formattedLayout 1).ptr 3 (.top 0)))) = true := by
      decide +kernel
    obtain ⟨s, hs, hbad⟩ := Reached.of_playFrom hrun
    exact ⟨s, hs, broken hbad⟩

end Dmaos
