import Dmaos.System.Ownership

/-!
# The inode cache is coherent

Between system calls no two slots in use are for the same inode, and a slot
that has been read holds the fields of the inode on the device.  For device 1
this is part of `Disk`.  Device 0 is never written, so a slot for one of its
inodes only has to stay as it was read; `coherent` is the policy that says so.
-/

namespace Dmaos

open Fault Function KState

/-! ## Device 0 -/

/-- The slots for inodes of device 0 hold what the device holds. -/
def Unstale (s : KState) : Prop :=
  ∀ i, 0 < (s.inodeTable i).ref → (s.inodeTable i).valid = true → (s.inodeTable i).dev = 0 →
    (s.inodeTable i).dinode = (s.fetched i).dinode

section Unstale

variable {s s' : KState} {d : Nat}

theorem Unstale.of_same {i : Fin NINODE} (h : Unstale s)
    (hi : (s.inodeTable i).Same (s'.inodeTable i)) (hd : (s'.inodeTable i).dev = 0)
    (hdisk : s'.disk 0 = s.disk 0) (hsb : s'.sb = s.sb) :
    (s'.inodeTable i).dinode = (s'.fetched i).dinode := by
  rw [hi.dev] at hd
  rw [hi.dinode, h i hi.ref hi.valid hd, hi.fetched (by rw [hd, hdisk]) hsb]

theorem Unstale.still (h : Unstale s) (hs : Still s s') : Unstale s' := by
  intro i hr hv hd
  rcases hs.slot i hr hv with hi | hi
  · exact hi
  · exact h.of_same hi hd (by rw [hs.disk]) hs.sb

theorem Unstale.onDev (h : Unstale s) (hd : d ≠ 0) (hs : OnDev d s s') : Unstale s' := by
  intro i hr hv h0
  rcases hs.slot i hr hv (by rw [h0]; exact hd.symm) with hi | hi
  · exact hi
  · exact h.of_same hi h0 (hs.disk 0 hd.symm) hs.sb

end Unstale

/-- Device 0 and its superblock are as before. -/
structure SameSystem (s s' : KState) : Prop where
  disk : s'.disk 0 = s.disk 0
  sb : s'.sb = s.sb

instance : IsPreorder KState SameSystem where
  refl _ := ⟨rfl, rfl⟩
  trans _ _ _ h₁ h₂ := ⟨h₂.disk.trans h₁.disk, h₂.sb.trans h₁.sb⟩

/-- The cache agrees with device 0, and no file on it is open for writing. -/
def coherent : Policy where
  Inv s := Writable s ∧ Unstale s
  Rel := SameSystem
  unwritten h := ⟨by rw [h.disk], h.sb⟩
  putFile f _ h hip := ⟨readOnly.putFile f h.1 hip, h.2⟩
  putIp f _ h hip hv hdev := ⟨readOnly.putIp f h.1 hip hv hdev, h.2⟩
  putProc p Q h := ⟨readOnly.putProc p Q h.1, h.2⟩
  setCurrent c h := ⟨readOnly.setCurrent c h.1, h.2⟩
  calm h hc := ⟨readOnly.calm h.1 hc, h.2.still hc.still⟩
  iput h hx := ⟨readOnly.iput h.1 hx, h.2.still (.of_ok .iput hx)⟩
  iget hr h hk hx := ⟨readOnly.iget hr h.1 hk hx, h.2.still (.of_ok .iget hx)⟩
  namex hr h hx := ⟨readOnly.namex hr h.1 hx, h.2.still (.of_ok .namex hx)⟩

instance : Shield coherent where
  writable h := h.1
  rel hd h := ⟨h.disk 0 hd.symm, h.sb⟩
  inv hd h ho hs := ⟨Shield.inv (P := readOnly) hd h.1 ho hs, h.2.onDev hd ho⟩

/-! ## Runs -/

section Runs

variable {L : Layout} {d0 d1 : Device} {s : KState}
  {P : Fin PROCS_MAX → Syscall → KState → Prop}

theorem Reached.sameSystem (h : Reached P d0 d1 s) :
    Guard coherent [] s ∧ SameSystem (loadedState d0 d1) s := by
  induction h with
  | boot run =>
      have h0 : coherent.Inv (loadedState d0 d1) :=
        ⟨fun f ip hf => (by cases hf), fun i hr => absurd hr (lt_irrefl 0)⟩
      exact boot_guard h0 (fun h _ => h) run
  | step before cond run ih =>
      obtain ⟨hs, hg⟩ := (Serves.step .anySyscall _ ih.1).of_ok run
      exact ⟨hg, trans_of SameSystem ih.2 hs⟩

/-- If the inode table has room for all inodes, no call runs out of it. -/
theorem Reached.room (hn : d1.super.ninodes ≤ L.ninodes) (h : Reached P d0 d1 s) :
    Reached (fun p c s => P p c s ∧ (c.MayCreate → Room L s)) d0 d1 s := by
  induction h with
  | boot run => exact .boot run
  | step before cond run ih =>
      exact .step ih ⟨cond, fun _ => Or.inl (by rw [ih.sameSystem.2.sb]; exact hn)⟩ run

/-- Whatever the images are, the cache agrees with device 0, and device 0 is
as it was at boot. -/
theorem Reached.system (h : Reached P d0 d1 s) : Unstale s ∧ s.disk 0 = d0 ∧ s.sb 0 = d0.super := by
  obtain ⟨hg, hs⟩ := h.sameSystem
  exact ⟨hg.inv.2, hs.disk, by rw [hs.sb]; rfl⟩

/-- The call does not write to a directory of device 1 through a descriptor. -/
def WritesFiles (L : Layout) (p : Fin PROCS_MAX) (c : Syscall) (s : KState) : Prop :=
  ∀ n, c.writeTarget s p = some (1, n) → ¬ (s.vol L 1).IsDir n

instance (L : Layout) (p : Fin PROCS_MAX) (c : Syscall) (s : KState) :
    Decidable (WritesFiles L p c s) :=
  decidable_of_iff (∀ t ∈ c.writeTarget s p, t.1 = 1 → ¬ (s.vol L 1).IsDir t.2)
    ⟨fun h n hn => h (1, n) hn rfl, fun h t ht h1 => h t.2 (by rw [← h1]; exact ht)⟩

/-- No two slots in use are for the same inode, and a slot that has been read
has the fields of the inode on the device. -/
structure Coherent (s : KState) : Prop where
  uniq : ∀ {i j : Fin NINODE}, 0 < (s.inodeTable i).ref → 0 < (s.inodeTable j).ref →
    (s.inodeTable i).dev = (s.inodeTable j).dev →
    (s.inodeTable i).inum = (s.inodeTable j).inum → i = j
  read : ∀ {i : Fin NINODE}, 0 < (s.inodeTable i).ref → (s.inodeTable i).valid = true →
    (s.inodeTable i).dinode.view = (s.fetched i).dinode.view

/-- In every run from a consistent image in which no directory is written to
through a descriptor, the cache is coherent. -/
theorem coherent_of_reached (hfits : L.Fits d1.super) (hn : d1.super.ninodes = L.ninodes)
    (hinv : FsInv L (d1.vol L)) (hres : Reserved L.IsData d1.super.nblocks (d1.vol L))
    (hclosed : (d1.vol L).Closed) (h : Reached (WritesFiles L) d0 d1 s) : Coherent s := by
  obtain ⟨-, S, hd, -⟩ := h.invariant (J := fun _ _ => True) (.of_fsInv hfits hinv hres hclosed)
    (fun hw hsb => ⟨fun _ => Or.inl (by rw [hsb, hn]), hw⟩) trivial (fun _ _ _ _ _ => trivial)
  refine ⟨hd.uniq, fun {i} hr hv => ?_⟩
  rcases hd.known hr with h0 | ⟨h1, hS⟩
  · rw [h.system.1 i hr hv h0]
  · have hlt := hd.wf.lt hS.1
    rw [hd.coh hr hv h1 hlt, hd.fits.fetched_view h1 hlt]

end Runs

/-- A file is made and written to, and stays open. -/
theorem coherent_of_reached_write :
    ∃ s, Reached (WritesFiles formattedLayout) systemDisk emptyDisk s ∧
      ((s.vol formattedLayout 1).ino 2).size = 2000 ∧ Coherent s := by
  have hrun : (playFrom (WritesFiles formattedLayout) systemDisk emptyDisk
      [(1, .open pathA (FILECTRL_WRITEONLY ||| FILECTRL_CREATE)),
        (1, .write 3 (fun _ => 1) 2000)]).any
      (fun s => ((s.vol formattedLayout 1).ino 2).size == 2000) = true := by decide +kernel
  obtain ⟨s, hs, hsize⟩ := Reached.of_playFrom hrun
  have hfits : formattedLayout.Fits emptyDisk.super := formatted_fits
  refine ⟨s, hs, by simpa using hsize, coherent_of_reached hfits rfl ?_ formatted_reserved ?_ hs⟩
  · exact formatted_fsInv (by decide) (by decide)
  · exact formatted_closed (by decide) (by decide) (by decide) (by decide +kernel)

/-! ## What the image must satisfy -/

/-- A device with a file `x`, inode 2, whose only block is block 2, where the
inodes are. -/
def crossedDisk : Device :=
  let d := formatted [[(1, dot), (1, dotdot), (2, [0x78])], [(2, dot), (1, dotdot)]]
  { d with
    blk := update d.blk 2 ((d.blk 2).copy (ioffset 2)
      (((Dinode.setType Buf.zero FT_FILE).setSize 1024).setAddr 0 2) dinodeSize) }

theorem crossedDisk_vol : crossedDisk.vol formattedLayout =
    (formattedVol [[(1, dot), (1, dotdot), (2, [0x78])], [(2, dot), (1, dotdot)]]).setIno 2
      (Dinode.view (((Dinode.setType Buf.zero FT_FILE).setSize 1024).setAddr 0 2)) :=
  volOf_inode formatted_fits (n := 2) (by decide) _

theorem crossedDisk_reserved : Reserved formattedLayout.IsData crossedDisk.super.nblocks
    (crossedDisk.vol formattedLayout) := by
  rw [crossedDisk_vol]
  exact formatted_reserved

theorem crossedDisk_closed : (crossedDisk.vol formattedLayout).Closed := by
  rw [crossedDisk_vol]
  refine (formatted_closed (by decide) (by decide) (by decide) (by decide +kernel)).congr
    (formatted_fsInv (by decide) (by decide)) (fun n => ?_) (fun n hn => ?_) (fun b => rfl)
  · by_cases hn : n = 2
    · subst hn
      exact iff_of_true (by decide +kernel) (by decide +kernel)
    · have hino : ∀ {V : Vol} {v : DView}, (V.setIno 2 v).ino n = V.ino n :=
        update_of_ne hn _ _
      unfold InUse inUse
      rw [hino]
  · refine update_of_ne ?_ _ _
    rintro rfl
    exact absurd hn (by decide +kernel)

/-- Does a slot disagree with the device about the type of its inode? -/
def KState.stale (s : KState) : Bool :=
  (List.finRange NINODE).any fun i =>
    decide (0 < (s.inodeTable i).ref) && (s.inodeTable i).valid &&
      (s.inodeTable i).dinode.type != (s.fetched i).dinode.type

theorem KState.stale.not_coherent {s : KState} (h : s.stale = true) : ¬ Coherent s := by
  intro hc
  obtain ⟨i, -, hi⟩ := List.any_eq_true.mp h
  simp only [Bool.and_eq_true, decide_eq_true_eq, bne_iff_ne] at hi
  exact hi.2 (congrArg DView.type (hc.read hi.1.1 hi.1.2))

/-- Regions that do not overlap are not enough: blocks outside the data region
may be handed out when they are not marked, an entry may name an inode that is
not in use, and a block map may lead into the inode table. -/
theorem coherent_not_kept :
    (formattedLayout.Fits unmarkedDisk.super ∧
        unmarkedDisk.super.ninodes = formattedLayout.ninodes ∧
        FsInv formattedLayout (unmarkedDisk.vol formattedLayout) ∧
        (unmarkedDisk.vol formattedLayout).Closed ∧
        ∃ s, Reached (WritesFiles formattedLayout) systemDisk unmarkedDisk s ∧ ¬ Coherent s) ∧
      (formattedLayout.Fits strayDisk.super ∧
        strayDisk.super.ninodes = formattedLayout.ninodes ∧
        FsInv formattedLayout (strayDisk.vol formattedLayout) ∧
        Reserved formattedLayout.IsData strayDisk.super.nblocks (strayDisk.vol formattedLayout) ∧
        ∃ s, Reached (WritesFiles formattedLayout) systemDisk strayDisk s ∧ ¬ Coherent s) ∧
      (formattedLayout.Fits crossedDisk.super ∧
        crossedDisk.super.ninodes = formattedLayout.ninodes ∧
        Reserved formattedLayout.IsData crossedDisk.super.nblocks
          (crossedDisk.vol formattedLayout) ∧
        (crossedDisk.vol formattedLayout).Closed ∧
        ∃ s, Reached (WritesFiles formattedLayout) systemDisk crossedDisk s ∧ ¬ Coherent s) := by
  refine ⟨⟨formatted_fits, rfl, unmarkedDisk_fsInv, unmarkedDisk_closed, ?_⟩,
    ⟨formatted_fits, rfl, strayDisk_fsInv, strayDisk_reserved, ?_⟩,
    formatted_fits, rfl, crossedDisk_reserved, crossedDisk_closed, ?_⟩
  · -- The second directory is handed the block of the inodes.
    have hrun : (playFrom (WritesFiles formattedLayout) systemDisk unmarkedDisk
        [(1, .open pathA (FILECTRL_WRITEONLY ||| FILECTRL_CREATE)),
          (1, .mkdir ⟨homePath ++ [0x2f, 0x62], by decide⟩),
          (1, .mkdir ⟨homePath ++ [0x2f, 0x63], by decide⟩)]).any stale = true := by
      decide +kernel
    obtain ⟨s, hs, hbad⟩ := Reached.of_playFrom hrun
    exact ⟨s, hs, stale.not_coherent hbad⟩
  · have hrun : (playFrom (WritesFiles formattedLayout) systemDisk strayDisk
        [(1, .chdir ⟨homePath, by decide⟩),
          (1, .open ⟨homePath ++ [0x2f, 0x78], by decide⟩ FILECTRL_WRITEONLY),
          (1, .write 3 (fun _ => 1) 1024)]).any stale = true := by decide +kernel
    obtain ⟨s, hs, hbad⟩ := Reached.of_playFrom hrun
    exact ⟨s, hs, stale.not_coherent hbad⟩
  · have hrun : (playFrom (WritesFiles formattedLayout) systemDisk crossedDisk
        [(1, .open ⟨homePath ++ [0x2f, 0x78], by decide⟩ FILECTRL_WRITEONLY),
          (1, .write 3 (fun _ => 1) 1024)]).any stale = true := by decide +kernel
    obtain ⟨s, hs, hbad⟩ := Reached.of_playFrom hrun
    exact ⟨s, hs, stale.not_coherent hbad⟩

end Dmaos
