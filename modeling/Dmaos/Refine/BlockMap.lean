import Dmaos.Refine.Cache

/-!
# The free map and the block map

What `balloc`, `bfree`, `bmap` and `bmap_alloc` do, said of the volume.
`balloc` takes a free data block, which rests on the free map marking every
block outside the data region.  `bmap_alloc` grows the map of its inode along
the way to one file block (`bmapAlloc_ok`), one position at a time.

`Sound L S dev s` collects what the file system needs of a device: the cache
agrees with it, and the inodes in `S` own their blocks.  `Owner L S dev n ip s`
adds that slot `ip` is ready for inode `n`, one of them.
-/

namespace Dmaos

open Fault KState

variable {L : Layout} {dev b bn i table : Nat} {s s' : KState} {buf : Buf} {ip : Fin NINODE}
  {u : Unit} {P Q : Slot → Prop} {σ t : Slot}

/-! ## The free map -/

section FreeMap

theorem ballocScan_ok :
    ∀ {k i : Nat}, ballocScan buf k i s = .ok b s' →
      s = s' ∧ i ≤ b ∧ b < i + k ∧ buf.testBit b = false
  | 0, i, h => absurd h throw_ok
  | k + 1, i, h => by
      unfold ballocScan at h
      split_ifs at h with h1 h2
      · exact absurd h throw_ok
      · obtain ⟨rfl, h3, h4, h5⟩ := ballocScan_ok h
        exact ⟨rfl, by omega, by omega, h5⟩
      · obtain ⟨rfl, rfl⟩ := pure_ok.mp h
        exact ⟨rfl, by omega, by omega, by simpa using h2⟩

theorem LocalOn.ballocScan :
    ∀ {k i : Nat}, LocalOn dev ip (ballocScan buf k i)
  | 0, _ => throw _
  | _ + 1, _ => ite (throw _) (ite .ballocScan pure)

theorem LocalOn.balloc : LocalOn dev ip (balloc dev) :=
  bind (superblock _) fun _ => bind (readBlock _ _) fun _ => bind .ballocScan fun _ =>
    bind (writeBlock _ _) fun _ => bind (writeBlock _ _) fun _ => pure

/-- `balloc` takes a free data block and fills it with zeros. -/
theorem balloc_ok (h : balloc dev s = .ok b s') (hL : L.Fits (s.sb dev))
    (hres : Reserved L.IsData (s.sb dev).nblocks (s.vol L dev)) :
    L.IsData b ∧ (s.vol L dev).bm b = false ∧ s'.vol L dev = (s.vol L dev).fresh b ∧
      s'.inodeTable = s.inodeTable := by
  unfold balloc at h
  replace h := superblock_then h
  replace h := readBlock_then h
  obtain ⟨c, t, hscan, h⟩ := bind_ok.mp h
  obtain ⟨rfl, -, hlt, hbit⟩ := ballocScan_ok hscan
  obtain ⟨u, t₁, hw₁, h⟩ := bind_ok.mp h
  obtain ⟨u', t₂, hw₂, h⟩ := bind_ok.mp h
  obtain ⟨rfl, rfl⟩ := pure_ok.mp h
  have h₁ := writeBlock_ok hw₁
  have h₂ := writeBlock_ok hw₂
  rw [Nat.mod_eq_of_lt hL.bmap_lt] at hbit h₁
  have hfree : (s.vol L dev).bm c = false := hbit
  have hdata : L.IsData c := by
    by_contra hc
    rw [hres c (by omega) hc] at hfree
    cases hfree
  have hc := hL.data_lt hdata
  rw [Nat.mod_eq_of_lt (by omega)] at h₂
  subst h₁ h₂
  refine ⟨hdata, hfree, ?_, rfl⟩
  unfold vol
  rw [putBlock_blk, putBlock_blk]
  exact volOf_fresh hL hdata

theorem LocalOn.bfree : LocalOn dev ip (bfree dev b) :=
  bind (superblock _) fun _ => bind (readBlock _ _) fun _ =>
    ite (throw _) (ite (writeBlock _ _) (throw _))

/-- `bfree` clears the mark of a marked block. -/
theorem bfree_ok (h : bfree dev b s = .ok u s') (hL : L.Fits (s.sb dev)) :
    s'.vol L dev = (s.vol L dev).clear b ∧ s'.inodeTable = s.inodeTable := by
  unfold bfree at h
  replace h := superblock_then h
  replace h := readBlock_then h
  split_ifs at h
  · exact absurd h throw_ok
  · have hs' := writeBlock_ok h
    rw [Nat.mod_eq_of_lt hL.bmap_lt] at hs'
    subst hs'
    refine ⟨?_, rfl⟩
    unfold vol
    rw [putBlock_blk]
    exact volOf_clear hL b
  · exact absurd h throw_ok

end FreeMap

/-! ## Owners -/

/-- The cache agrees with device `dev`, the inodes in `S` own their blocks, and
only data blocks are handed out. -/
structure Sound (L : Layout) (S : Nat → Prop) (dev : Nat) (s : KState) : Prop
    extends Cached L dev s where
  own : Own L.IsData S (s.vol L dev)
  reserved : Reserved L.IsData (s.sb dev).nblocks (s.vol L dev)

/-- Moreover slot `ip` is ready for inode `n`, one of the inodes in `S`. -/
structure Owner (L : Layout) (S : Nat → Prop) (dev n : Nat) (ip : Fin NINODE) (s : KState) :
    Prop extends Ready L dev n ip s, Sound L S dev s where
  mem : S n

section BlockMap

variable {S : Nat → Prop} {n : Nat}

theorem Owner.of_grow (h : Owner L S dev n ip s) (ht : Touches dev ip s s')
    (hr : Ready L dev n ip s') (hg : Extend L.IsData S n P (s.vol L dev) (s'.vol L dev)) :
    Owner L S dev n ip s' where
  toReady := hr
  mem := h.mem
  own := hg.own
  reserved := by
    rw [ht.sb]
    exact hg.reserved h.reserved

/-- `ilock` makes a slot of one of the inodes in `S` ready. -/
theorem Owner.of_ilock (hl : ilock ip s = .ok u s') (h : Sound L S dev s)
    (hd : (s.inodeTable ip).dev = dev) (hn : (s.inodeTable ip).inum = n)
    (hlt : n < L.ninodes) (hS : S n) : Owner L S dev n ip s' where
  toReady := Ready.of_ilock hl h.toCached hd hn hlt
  mem := hS
  own := by
    rw [ilock_vol hl]
    exact h.own
  reserved := by
    rw [ilock_vol hl, (LocalOn.ilock.of_ok hd hl).sb]
    exact h.reserved

/-- The device is read where a position of the map points. -/
theorem Owner.readBlock_ptr (h : Owner L S dev n ip s) (hσ : σ.Valid)
    (h0 : (s.vol L dev).ptr n σ ≠ 0) :
    (s.vol L dev).ptr n σ % 2 ^ 31 = (s.vol L dev).ptr n σ ∧
      s.blk dev ((s.vol L dev).ptr n σ) = (s.vol L dev).data ((s.vol L dev).ptr n σ) := by
  have hR := h.own.region h.mem hσ h0
  have := h.fits.data_lt hR
  exact ⟨Nat.mod_eq_of_lt (by omega), (volOf_data_of hR).symm⟩

/-! ## `bmap` -/

theorem NDIRECT_eq : NDIRECT = 12 := rfl

theorem NINDIRECT_eq : NINDIRECT = 256 := rfl

theorem NDINDIRECT_eq : NDINDIRECT = 65536 := rfl

theorem nonzero_ok {inum addr : Nat} (h : nonzero inum bn addr s = .ok b s') :
    s = s' ∧ b = addr ∧ addr ≠ 0 := by
  unfold nonzero at h
  split_ifs at h with h0
  · exact absurd h throw_ok
  · obtain ⟨rfl, rfl⟩ := pure_ok.mp h
    exact ⟨rfl, rfl, h0⟩

/-- The entry read from the table a position points to. -/
theorem Owner.readEntry_ok (h : Owner L S dev n ip s) (ht : t.IsTable)
    (h0 : (s.vol L dev).ptr n t ≠ 0)
    (hb : readBlock dev ((s.vol L dev).ptr n t) s = .ok buf s') (i : Nat) :
    s = s' ∧ buf = (s.vol L dev).data ((s.vol L dev).ptr n t) ∧
      entry buf i = (s.vol L dev).ptr n (.ent t i) := by
  obtain ⟨rfl, rfl⟩ := readBlock_ok hb
  obtain ⟨hmod, hdata⟩ := h.readBlock_ptr ht.valid h0
  rw [hmod, hdata, Vol.ptr_ent_of_ne h0]
  exact ⟨rfl, rfl, rfl⟩

/-- `bmap` follows the map to the position of file block `bn`. -/
theorem bmap_ok (h : Owner L S dev n ip s) (hb : bmap ip bn s = .ok b s') :
    s = s' ∧ bn < 65804 ∧ b = (s.vol L dev).ptr n (Slot.ofBlock bn) ∧ b ≠ 0 := by
  unfold bmap at hb
  replace hb := inodeAt_then hb
  rw [h.dev_eq] at hb
  rw [NDIRECT_eq, NINDIRECT_eq, NDINDIRECT_eq] at hb
  unfold Slot.ofBlock
  split_ifs at hb with h1 h2 h3
  · obtain ⟨rfl, rfl, h0⟩ := nonzero_ok hb
    rw [if_pos h1, ← h.addr (by omega)]
    exact ⟨rfl, by omega, rfl, h0⟩
  · obtain ⟨table, t', ht, hb⟩ := bind_ok.mp hb
    obtain ⟨rfl, rfl, h0⟩ := nonzero_ok ht
    rw [h.addr (by omega)] at h0 hb
    obtain ⟨buf, t'', hr, hb⟩ := bind_ok.mp hb
    obtain ⟨rfl, -, he⟩ := h.readEntry_ok (t := .top 12) (Or.inl rfl) h0 hr (bn - 12)
    obtain ⟨rfl, rfl, h0'⟩ := nonzero_ok hb
    rw [if_neg h1, if_pos (by omega), ← he]
    exact ⟨rfl, by omega, rfl, h0'⟩
  · obtain ⟨root, t', ht, hb⟩ := bind_ok.mp hb
    obtain ⟨rfl, rfl, h0⟩ := nonzero_ok ht
    rw [h.addr (by omega)] at h0 hb
    obtain ⟨buf, t'', hr, hb⟩ := bind_ok.mp hb
    obtain ⟨rfl, -, he⟩ := h.readEntry_ok (t := .top 13) (Or.inr rfl) h0 hr ((bn - 268) / 256)
    obtain ⟨table, t', ht, hb⟩ := bind_ok.mp hb
    obtain ⟨rfl, rfl, h0'⟩ := nonzero_ok ht
    rw [show bn - 12 - 256 = bn - 268 by omega] at h0' hb
    rw [he] at h0' hb
    obtain ⟨buf', t'', hr, hb⟩ := bind_ok.mp hb
    obtain ⟨rfl, -, he'⟩ := h.readEntry_ok (t := .ent (.top 13) ((bn - 268) / 256))
      ⟨rfl, by omega⟩ h0' hr ((bn - 268) % 256)
    obtain ⟨rfl, rfl, h0''⟩ := nonzero_ok hb
    rw [if_neg h1, if_neg (by omega), ← he']
    exact ⟨rfl, by omega, rfl, h0''⟩
  · exact absurd hb throw_ok

/-! ## `bmap_alloc` -/

theorem LocalOn.addrAlloc : LocalOn dev ip (addrAlloc ip i) := by
  refine inodeAt fun I hI => ite ?_ pure
  rw [hI]
  exact bind .balloc fun _ => bind (setDinode _) fun _ => bind .iupdate fun _ =>
    pure

theorem LocalOn.entryAlloc : LocalOn dev ip (entryAlloc ip table i) := by
  refine inodeAt fun I hI => bind (readBlock _ _) fun _ => ite ?_ pure
  rw [hI]
  exact bind .balloc fun _ => bind (writeBlock _ _) fun _ => pure

theorem LocalOn.bmapAlloc : LocalOn dev ip (bmapAlloc ip bn) :=
  ite .addrAlloc (ite (bind .addrAlloc fun _ => .entryAlloc)
    (ite (bind .addrAlloc fun _ => bind .entryAlloc fun _ => .entryAlloc)
      (throw _)))

/-- The map of the inode has grown at positions with property `P`, and `σ` now
holds `b`. -/
structure Grown (L : Layout) (S : Nat → Prop) (dev n : Nat) (ip : Fin NINODE) (P : Slot → Prop)
    (σ : Slot) (b : Nat) (s s' : KState) : Prop extends Owner L S dev n ip s' where
  grow : Grow L.IsData S n P (s.vol L dev) (s'.vol L dev)
  ptr_eq : (s'.vol L dev).ptr n σ = b
  ne : b ≠ 0

/-- A position that is in use is left alone. -/
theorem Grown.refl (h : Owner L S dev n ip s) (h0 : (s.vol L dev).ptr n σ ≠ 0) :
    Grown L S dev n ip P σ ((s.vol L dev).ptr n σ) s s :=
  ⟨h, .refl h.own, rfl, h0⟩

theorem Grown.trans {τ : Slot} {c : Nat} {t : KState}
    (h₁ : Grown L S dev n ip P σ b s t) (h₂ : Grown L S dev n ip Q τ c t s')
    (hPQ : ∀ ρ, P ρ → Q ρ) : Grown L S dev n ip Q τ c s s' :=
  ⟨h₂.toOwner, (h₁.grow.mono hPQ).trans h₁.mem h₂.grow, h₂.ptr_eq, h₂.ne⟩

theorem Grown.mono (h : Grown L S dev n ip P σ b s s')
    (hPQ : ∀ ρ, P ρ → Q ρ) : Grown L S dev n ip Q σ b s s' :=
  ⟨h.toOwner, h.grow.mono hPQ, h.ptr_eq, h.ne⟩

/-- A fresh block is stored at an empty position. -/
theorem Grown.of_allocCell (h : Owner L S dev n ip s)
    (ht : Touches dev ip s s') (hr : Ready L dev n ip s') (hσ : σ.Valid)
    (h0 : (s.vol L dev).ptr n σ = 0)
    (hp : ∀ t i, σ = .ent t i → (s.vol L dev).ptr n t ≠ 0) (hb : L.IsData b)
    (hfree : (s.vol L dev).bm b = false) (hvol : s'.vol L dev = (s.vol L dev).allocCell n σ b) :
    Grown L S dev n ip (· = σ) σ b s s' := by
  have hb0 := h.fits.data_ne_zero hb
  have hlt := h.fits.data_lt hb
  have hg := h.own.grow_allocCell h.mem hσ h0 hp hfree hb0 (by omega) hb
  rw [← hvol] at hg
  refine ⟨h.of_grow ht hr hg.toExtend, hg, ?_, hb0⟩
  rw [hvol, h.own.ptr_allocCell h.mem hσ h0 hp hfree hb0 (by omega) h.mem hσ, if_pos ⟨rfl, rfl⟩]

/-- A pointer of the inode is found or allocated. -/
theorem addrAlloc_ok (h : Owner L S dev n ip s) (hi : i < 14)
    (ha : addrAlloc ip i s = .ok b s') : Grown L S dev n ip (· = .top i) (.top i) b s s' := by
  have ht := LocalOn.addrAlloc.of_ok h.dev_eq ha
  unfold addrAlloc at ha
  replace ha := inodeAt_then ha
  rw [h.dev_eq, h.addr hi] at ha
  split_ifs at ha with h0
  · obtain ⟨c, t₁, hb, ha⟩ := bind_ok.mp ha
    obtain ⟨u, t₂, hset, ha⟩ := bind_ok.mp ha
    obtain ⟨v, t₃, hup, ha⟩ := bind_ok.mp ha
    obtain ⟨rfl, rfl⟩ := pure_ok.mp ha
    obtain ⟨hdata, hfree, hvol, htab⟩ := balloc_ok hb h.fits h.reserved
    -- `balloc` leaves the inodes alone.
    have hr₁ : Ready L dev n ip t₁ := by
      refine h.toReady.next (LocalOn.balloc.of_ok h.dev_eq hb) (fun m _ => by rw [hvol]; rfl) ?_
      rw [htab, hvol, h.view]
      rfl
    obtain ⟨hr₃, hvol₃⟩ := hr₁.setDinode_iupdate hset hup
    refine Grown.of_allocCell h ht hr₃ hi h0 (by rintro _ _ ⟨⟩) hdata hfree ?_
    have := h.fits.data_lt hdata
    rw [hvol₃, Dinode.view_setAddr _ hi (by omega), hr₁.view, hvol]
    rfl
  · obtain ⟨rfl, rfl⟩ := pure_ok.mp ha
    exact Grown.refl h h0

/-- An entry of a table is found or allocated. -/
theorem entryAlloc_ok (h : Owner L S dev n ip s) (htab : t.IsTable)
    (hi : i < 256) (hp : (s.vol L dev).ptr n t = table) (hp0 : table ≠ 0)
    (ha : entryAlloc ip table i s = .ok b s') :
    Grown L S dev n ip (· = .ent t i) (.ent t i) b s s' := by
  subst hp
  have hσ : (Slot.ent t i).Valid := ⟨htab, hi⟩
  have ht := LocalOn.entryAlloc.of_ok h.dev_eq ha
  unfold entryAlloc at ha
  replace ha := inodeAt_then ha
  rw [h.dev_eq] at ha
  obtain ⟨buf, t₁, hr, ha⟩ := bind_ok.mp ha
  obtain ⟨rfl, hbuf, he⟩ := h.readEntry_ok htab hp0 hr i
  rw [he] at ha
  split_ifs at ha with h0
  · obtain ⟨c, t₂, hb, ha⟩ := bind_ok.mp ha
    obtain ⟨u, t₃, hw, ha⟩ := bind_ok.mp ha
    obtain ⟨rfl, rfl⟩ := pure_ok.mp ha
    obtain ⟨hdata, hfree, hvol, htab'⟩ := balloc_ok hb h.fits h.reserved
    have hs' := writeBlock_ok hw
    rw [(h.readBlock_ptr htab.valid hp0).1] at hs'
    -- The fresh block is not the table, so the table is where it was.
    have hne := h.own.ptr_ne_of_free h.mem htab.valid hfree hp0
    have hvol' : t₃.vol L dev = (s.vol L dev).allocCell n (.ent t i) c := by
      have hsb : t₂.sb = s.sb := (LocalOn.balloc.of_ok h.dev_eq hb).sb
      have h1 : t₃.vol L dev = (t₂.vol L dev).setData ((s.vol L dev).ptr n t)
          (setEntry buf i c) := by
        rw [hs']
        unfold vol
        rw [putBlock_sb, putBlock_blk]
        exact volOf_data (by rw [hsb]; exact h.fits) (h.own.region h.mem htab.valid hp0) _
      have h2 : ((s.vol L dev).fresh c).data ((s.vol L dev).ptr n t) =
          (s.vol L dev).data ((s.vol L dev).ptr n t) := Function.update_of_ne hne _ _
      rw [h1, hvol, hbuf]
      unfold Vol.allocCell
      rw [Vol.setCell_ent, h.own.ptr_fresh h.mem htab.valid hfree, h2]
      rfl
    have hr' : Ready L dev n ip t₃ := by
      have hino : (t₃.vol L dev).ino = (s.vol L dev).ino := by rw [hvol']; rfl
      have hslot : t₃.inodeTable = s.inodeTable := by rw [hs', ← htab']; rfl
      refine h.toReady.next ht (fun m _ => by rw [hino]) ?_
      rw [hslot, hino, h.view]
    refine Grown.of_allocCell h ht hr' hσ h0 ?_ hdata hfree hvol'
    rintro _ _ ⟨⟩
    exact hp0
  · obtain ⟨rfl, rfl⟩ := pure_ok.mp ha
    exact Grown.refl h h0

/-- `bmap_alloc` grows the map along the way to file block `bn`. -/
theorem bmapAlloc_ok (h : Owner L S dev n ip s) (ha : bmapAlloc ip bn s = .ok b s') :
    bn < 65804 ∧ Grown L S dev n ip (·.On (Slot.ofBlock bn)) (Slot.ofBlock bn) b s s' := by
  unfold bmapAlloc at ha
  rw [NDIRECT_eq, NINDIRECT_eq, NDINDIRECT_eq] at ha
  unfold Slot.ofBlock
  split_ifs at ha with h1 h2 h3
  · rw [if_pos h1]
    refine ⟨by omega, (addrAlloc_ok h (by omega) ha).mono ?_⟩
    rintro _ rfl
    exact Slot.On.refl _
  · rw [if_neg h1, if_pos (by omega)]
    obtain ⟨table, t, ht, ha⟩ := bind_ok.mp ha
    have g₁ := addrAlloc_ok h (by omega) ht
    have g₂ := entryAlloc_ok g₁.toOwner (t := .top 12) (Or.inl rfl) (by omega) g₁.ptr_eq g₁.ne ha
    refine ⟨by omega, (g₁.mono ?_).trans (g₂.mono ?_) fun _ hρ => hρ⟩
    · rintro _ rfl
      exact (Slot.On.refl _).of_parent
    · rintro _ rfl
      exact Slot.On.refl _
  · rw [if_neg h1, if_neg (by omega)]
    obtain ⟨root, t, ht, ha⟩ := bind_ok.mp ha
    obtain ⟨table, t', ht', ha⟩ := bind_ok.mp ha
    rw [show bn - 12 - 256 = bn - 268 by omega] at ht' ha
    have g₁ := addrAlloc_ok h (by omega) ht
    have g₂ := entryAlloc_ok g₁.toOwner (t := .top 13) (Or.inr rfl) (by omega) g₁.ptr_eq g₁.ne ht'
    have g₃ := entryAlloc_ok g₂.toOwner (t := .ent (.top 13) ((bn - 268) / 256))
      ⟨rfl, by omega⟩ (by omega) g₂.ptr_eq g₂.ne ha
    refine ⟨by omega, ((g₁.mono ?_).trans (g₂.mono ?_) fun _ hρ => hρ).trans (g₃.mono ?_)
      fun _ hρ => hρ⟩
    · rintro _ rfl
      exact (Slot.On.refl _).of_parent.of_parent
    · rintro _ rfl
      exact (Slot.On.refl _).of_parent
    · rintro _ rfl
      exact Slot.On.refl _
  · exact absurd ha throw_ok

end BlockMap

end Dmaos
