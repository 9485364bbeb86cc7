import Dmaos.Volume.Image

/-!
# The inode cache and the volume

`Cached L dev s`: the slots in use name different inodes, and a slot that has
been read holds the fields the device holds.  `Ready L dev n ip s`: moreover
slot `ip` is in use for inode `n` and has been read.

A function on one inode changes only the device and the slot of that inode,
wherever it ends.  `Touches` relates two states that differ so much, and
`LocalOn` says it of a computation.  It composes, so for each function it
follows from the shape of its body.  `Ready.next` is the rule by which such a
function keeps the cache coherent: it need only say what the slot holds and
that the other inodes of the volume are as before.
-/

namespace Dmaos

open Fault Function KState

variable {s s' : KState} {dev d n : Nat} {buf : Buf} {ip : Fin NINODE} {I : Inode} {u : Unit}
  {f : Dinode → Dinode} {c : Prop} {L : Layout}

/-- The volume on a device of the running kernel. -/
def KState.vol (s : KState) (L : Layout) (dev : Nat) : Vol := volOf L (s.sb dev) (s.blk dev)

/-! ## The state after one update -/

namespace KState

variable {b : Nat} {j : Fin NINODE}

@[simp] theorem putBlock_sb : (s.putBlock dev b buf).sb = s.sb := rfl

@[simp] theorem putBlock_inodeTable : (s.putBlock dev b buf).inodeTable = s.inodeTable := rfl

@[simp] theorem putBlock_blk : (s.putBlock dev b buf).blk dev = update (s.blk dev) b buf := by
  simp [putBlock, blk]

theorem putBlock_disk_of_ne (h : d ≠ dev) : (s.putBlock dev b buf).disk d = s.disk d :=
  update_of_ne h _ _

@[simp] theorem putInode_sb : (s.putInode ip I).sb = s.sb := rfl

@[simp] theorem putInode_self : (s.putInode ip I).inodeTable ip = I := update_self ..

theorem putInode_of_ne (h : j ≠ ip) : (s.putInode ip I).inodeTable j = s.inodeTable j :=
  update_of_ne h _ _

@[simp] theorem putInode_vol (L : Layout) : (s.putInode ip I).vol L dev = s.vol L dev := rfl

end KState

/-! ## Reading and writing blocks -/

section Primitives

variable {block : Nat}

theorem readBlock_ok (h : readBlock dev block s = .ok buf s') :
    s = s' ∧ buf = s.blk dev (block % 2 ^ 31) := by
  unfold readBlock at h
  split_ifs at h
  cases h
  exact ⟨rfl, rfl⟩

theorem writeBlock_ok (h : writeBlock dev block buf s = .ok u s') :
    s' = s.putBlock dev (block % 2 ^ 31) buf := by
  unfold writeBlock at h
  split_ifs at h
  cases h
  rfl

theorem inodeAt_ok (h : inodeAt ip s = .ok I s') : s = s' ∧ I = s.inodeTable ip := by
  cases h
  exact ⟨rfl, rfl⟩

theorem inodeAt_then {α : Type} {f : Inode → Kern α}
    {r : EStateM.Result Halt KState α} (h : (inodeAt ip >>= f) s = r) :
    f (s.inodeTable ip) s = r := h

theorem superblock_ok {sb : Superblock} (h : superblock dev s = .ok sb s') :
    s = s' ∧ sb = s.sb dev := by
  cases h
  exact ⟨rfl, rfl⟩

theorem superblock_then {α : Type} {f : Superblock → Kern α}
    {r : EStateM.Result Halt KState α} (h : (superblock dev >>= f) s = r) : f (s.sb dev) s = r := h

theorem readBlock_then {α : Type} {a : α} {f : Buf → Kern α}
    (h : (readBlock dev block >>= f) s = .ok a s') :
    f (s.blk dev (block % 2 ^ 31)) s = .ok a s' := by
  obtain ⟨buf, t, hb, h⟩ := bind_ok.mp h
  obtain ⟨rfl, rfl⟩ := readBlock_ok hb
  exact h

theorem setDinode_ok (h : setDinode ip f s = .ok u s') :
    s' = s.putInode ip { s.inodeTable ip with dinode := f (s.inodeTable ip).dinode } := by
  cases h
  rfl

end Primitives

/-! ## What a function on one inode leaves alone -/

/-- Only device `dev` and slot `ip` change, and the slot stays in use for the
same inode. -/
structure Touches (dev : Nat) (ip : Fin NINODE) (s s' : KState) : Prop where
  sb : s'.sb = s.sb
  mounts : s'.mounts = s.mounts
  fileTable : s'.fileTable = s.fileTable
  procs : s'.procs = s.procs
  current : s'.current = s.current
  disk : ∀ d, d ≠ dev → s'.disk d = s.disk d
  writes : ∃ ws, s'.writes = s.writes ++ ws ∧ ∀ w ∈ ws, w.dev = dev
  slots : ∀ j, j ≠ ip → s'.inodeTable j = s.inodeTable j
  slot_dev : (s'.inodeTable ip).dev = (s.inodeTable ip).dev
  slot_inum : (s'.inodeTable ip).inum = (s.inodeTable ip).inum
  slot_ref : (s'.inodeTable ip).ref = (s.inodeTable ip).ref
  slot_valid : (s.inodeTable ip).valid = true → (s'.inodeTable ip).valid = true

namespace Touches

variable {s'' : KState}

theorem refl (s : KState) : Touches dev ip s s :=
  ⟨rfl, rfl, rfl, rfl, rfl, fun _ _ => rfl, ⟨[], by simp⟩, fun _ _ => rfl, rfl, rfl, rfl,
    id⟩

theorem trans (h₁ : Touches dev ip s s') (h₂ : Touches dev ip s' s'') : Touches dev ip s s'' where
  sb := h₂.sb.trans h₁.sb
  mounts := h₂.mounts.trans h₁.mounts
  fileTable := h₂.fileTable.trans h₁.fileTable
  procs := h₂.procs.trans h₁.procs
  current := h₂.current.trans h₁.current
  disk d hd := (h₂.disk d hd).trans (h₁.disk d hd)
  writes := by
    obtain ⟨ws, hw, hd⟩ := h₁.writes
    obtain ⟨ws', hw', hd'⟩ := h₂.writes
    refine ⟨ws ++ ws', by rw [hw', hw, List.append_assoc], ?_⟩
    intro w hmem
    rcases List.mem_append.mp hmem with hmem | hmem
    · exact hd w hmem
    · exact hd' w hmem
  slots j hj := (h₂.slots j hj).trans (h₁.slots j hj)
  slot_dev := h₂.slot_dev.trans h₁.slot_dev
  slot_inum := h₂.slot_inum.trans h₁.slot_inum
  slot_ref := h₂.slot_ref.trans h₁.slot_ref
  slot_valid h := h₂.slot_valid (h₁.slot_valid h)

theorem putBlock (s : KState) (b : Nat) (buf : Buf) : Touches dev ip s (s.putBlock dev b buf) :=
  ⟨rfl, rfl, rfl, rfl, rfl, fun _ hd => putBlock_disk_of_ne hd,
    ⟨[⟨dev, b, buf⟩], rfl, by simp⟩, fun _ _ => rfl, rfl, rfl, rfl, id⟩

theorem putInode (s : KState) (hd : I.dev = (s.inodeTable ip).dev)
    (hn : I.inum = (s.inodeTable ip).inum) (hr : I.ref = (s.inodeTable ip).ref)
    (hv : (s.inodeTable ip).valid = true → I.valid = true) : Touches dev ip s (s.putInode ip I) :=
  ⟨rfl, rfl, rfl, rfl, rfl, fun _ _ => rfl, ⟨[], by simp [KState.putInode]⟩,
    fun j hj => putInode_of_ne hj, by rwa [putInode_self],
    by rwa [putInode_self], by rwa [putInode_self],
    by rwa [putInode_self]⟩

/-- Every slot stays in use for the same inode. -/
theorem slot (h : Touches dev ip s s') (j : Fin NINODE) :
    (s'.inodeTable j).dev = (s.inodeTable j).dev ∧
      (s'.inodeTable j).inum = (s.inodeTable j).inum ∧
      (s'.inodeTable j).ref = (s.inodeTable j).ref := by
  by_cases hj : j = ip
  · subst hj
    exact ⟨h.slot_dev, h.slot_inum, h.slot_ref⟩
  · rw [h.slots j hj]
    exact ⟨rfl, rfl, rfl⟩

end Touches

/-- Wherever `x` ends, it has changed device `dev` and slot `ip` only, if that
slot is for an inode of `dev`. -/
def LocalOn (dev : Nat) (ip : Fin NINODE) {α : Type} (x : Kern α) : Prop :=
  ∀ s : KState, (s.inodeTable ip).dev = dev → Stays (Touches dev ip s) x s

namespace LocalOn

variable {α β : Type}

theorem bind {x : Kern α} {f : α → Kern β} (hx : LocalOn dev ip x)
    (hf : ∀ a, LocalOn dev ip (f a)) : LocalOn dev ip (x >>= f) := by
  intro s hs
  refine .bind (hx s hs) fun a t _ ht => ?_
  have h := hf a t (by rw [ht.slot_dev, hs])
  unfold Stays at h ⊢
  exact ht.trans h

/-- What is read from the slot is for device `dev`. -/
theorem inodeAt {f : Inode → Kern β} (hf : ∀ I : Inode, I.dev = dev → LocalOn dev ip (f I)) :
    LocalOn dev ip (inodeAt ip >>= f) := by
  intro s hs
  have h : (Dmaos.inodeAt ip >>= f) s = f (s.inodeTable ip) s := rfl
  unfold Stays
  rw [h]
  exact hf _ hs s hs

theorem pure {a : α} : LocalOn dev ip (pure a : Kern α) := fun s _ => Touches.refl s

theorem throw (e : Halt) : LocalOn dev ip (throw e : Kern α) := fun s _ => Touches.refl s

theorem superblock (d : Nat) : LocalOn dev ip (superblock d) := fun s _ => Touches.refl s

theorem readBlock (d b : Nat) : LocalOn dev ip (readBlock d b) := by
  intro s _
  unfold Stays Dmaos.readBlock
  split_ifs <;> exact .refl s

theorem writeBlock (b : Nat) (buf : Buf) : LocalOn dev ip (writeBlock dev b buf) := by
  intro s _
  unfold Stays Dmaos.writeBlock
  split_ifs
  · exact .putBlock s _ _
  · exact .refl s

theorem setDinode (f : Dinode → Dinode) : LocalOn dev ip (setDinode ip f) :=
  fun s _ => .putInode s rfl rfl rfl id

theorem ite [Decidable c] {x y : Kern α} (hx : LocalOn dev ip x)
    (hy : LocalOn dev ip y) : LocalOn dev ip (if c then x else y) := by
  split_ifs
  · exact hx
  · exact hy

theorem onlyIf [Decidable c] {x : Kern Unit} (hx : LocalOn dev ip x) :
    LocalOn dev ip (onlyIf c x) := ite hx pure

theorem of_ok {x : Kern α} {a : α} (h : LocalOn dev ip x)
    (hs : (s.inodeTable ip).dev = dev) (hx : x s = .ok a s') : Touches dev ip s s' :=
  (h s hs).of_ok hx

end LocalOn

/-! ## Coherence -/

/-- The cache agrees with device `dev`. -/
structure Cached (L : Layout) (dev : Nat) (s : KState) : Prop where
  fits : L.Fits (s.sb dev)
  /-- The slots in use are for different inodes. -/
  uniq : ∀ {i j : Fin NINODE}, 0 < (s.inodeTable i).ref → 0 < (s.inodeTable j).ref →
    (s.inodeTable i).dev = (s.inodeTable j).dev →
    (s.inodeTable i).inum = (s.inodeTable j).inum → i = j
  /-- A slot that has been read holds what the device holds. -/
  coh : ∀ {i : Fin NINODE}, 0 < (s.inodeTable i).ref → (s.inodeTable i).valid = true →
    (s.inodeTable i).dev = dev → (s.inodeTable i).inum < L.ninodes →
    (s.inodeTable i).dinode.view = (s.vol L dev).ino (s.inodeTable i).inum

/-- The cache stays coherent if the inodes of the other slots do not change
and slot `ip` is coherent. -/
theorem Cached.next (h : Cached L dev s) (ht : Touches dev ip s s')
    (hino : ∀ j, j ≠ ip → 0 < (s.inodeTable j).ref → (s.inodeTable j).dev = dev →
      (s'.vol L dev).ino (s.inodeTable j).inum = (s.vol L dev).ino (s.inodeTable j).inum)
    (hip : (s'.inodeTable ip).valid = true → (s'.inodeTable ip).inum < L.ninodes →
      (s'.inodeTable ip).dinode.view = (s'.vol L dev).ino (s'.inodeTable ip).inum) :
    Cached L dev s' where
  fits := by rw [ht.sb]; exact h.fits
  uniq := by
    intro i j hi hj hd hn
    obtain ⟨hid, hin, hir⟩ := ht.slot i
    obtain ⟨hjd, hjn, hjr⟩ := ht.slot j
    rw [hir] at hi
    rw [hjr] at hj
    rw [hid, hjd] at hd
    rw [hin, hjn] at hn
    exact h.uniq hi hj hd hn
  coh := by
    intro i hi hv hd hn
    by_cases he : i = ip
    · subst he
      exact hip hv hn
    · rw [ht.slots i he] at hi hv hd hn ⊢
      rw [h.coh hi hv hd hn, hino i he hi hd]

/-- Slot `ip` is in use for inode `n` of device `dev`. -/
structure Holds (dev n : Nat) (ip : Fin NINODE) (s : KState) : Prop where
  ref : 0 < (s.inodeTable ip).ref
  dev_eq : (s.inodeTable ip).dev = dev
  inum_eq : (s.inodeTable ip).inum = n

theorem Holds.of_touches {jp : Fin NINODE}
    (h : Holds d n jp s) (ht : Touches dev ip s s') : Holds d n jp s' := by
  obtain ⟨hd, hn, hr⟩ := ht.slot jp
  exact ⟨by rw [hr]; exact h.ref, by rw [hd]; exact h.dev_eq, by rw [hn]; exact h.inum_eq⟩

/-- Slot `ip` is in use for inode `n` of device `dev` and has been read. -/
structure Ready (L : Layout) (dev n : Nat) (ip : Fin NINODE) (s : KState) : Prop
    extends Cached L dev s, Holds dev n ip s where
  lt : n < L.ninodes
  valid : (s.inodeTable ip).valid = true

namespace Ready

/-- The slot holds the fields of the inode. -/
theorem view (h : Ready L dev n ip s) : (s.inodeTable ip).dinode.view = (s.vol L dev).ino n := by
  have := h.coh h.ref h.valid h.dev_eq (by rw [h.inum_eq]; exact h.lt)
  rwa [h.inum_eq] at this

theorem size (h : Ready L dev n ip s) :
    (s.inodeTable ip).dinode.size = ((s.vol L dev).ino n).size := by
  rw [← h.view]
  rfl

theorem type (h : Ready L dev n ip s) :
    (s.inodeTable ip).dinode.type = ((s.vol L dev).ino n).type := by
  rw [← h.view]
  rfl

theorem addr (h : Ready L dev n ip s) {i : Nat} (hi : i < 14) :
    (s.inodeTable ip).dinode.addr i = (s.vol L dev).ptr n (.top i) := by
  rw [Vol.ptr_top, ← h.view, Dinode.view_addr hi]

/-- The rule by which a function on one inode keeps the cache coherent. -/
theorem next (h : Ready L dev n ip s) (ht : Touches dev ip s s')
    (hino : ∀ m, m ≠ n → (s'.vol L dev).ino m = (s.vol L dev).ino m)
    (hview : (s'.inodeTable ip).dinode.view = (s'.vol L dev).ino n) : Ready L dev n ip s' where
  toCached := by
    refine h.toCached.next ht (fun j hj hr hd => hino _ fun he => ?_) fun _ _ => ?_
    · -- Another slot is for another inode.
      exact hj (h.uniq hr h.ref (hd.trans h.dev_eq.symm) (he.trans h.inum_eq.symm))
    · rw [ht.slot_inum, h.inum_eq]
      exact hview
  toHolds := h.toHolds.of_touches ht
  lt := h.lt
  valid := ht.slot_valid h.valid

end Ready

/-! ## `ilock` and `iupdate` -/

/-- A slot as `ilock` reads it from the device. -/
def KState.fetched (s : KState) (i : Fin NINODE) : Inode :=
  { s.inodeTable i with
    dinode := fun j =>
      s.blk (s.inodeTable i).dev
        (iblock (s.sb (s.inodeTable i).dev) (s.inodeTable i).inum % 2 ^ 31)
        (ioffset (s.inodeTable i).inum + j)
    valid := true }

section Lock

/-- The slot read from the device holds the fields of the inode. -/
theorem Layout.Fits.fetched_view (h : L.Fits (s.sb dev)) (hd : (s.inodeTable ip).dev = dev)
    (hlt : (s.inodeTable ip).inum < L.ninodes) :
    (s.fetched ip).dinode.view = (s.vol L dev).ino (s.inodeTable ip).inum := by
  unfold fetched
  rw [hd, Nat.mod_eq_of_lt (h.inode_lt hlt)]
  exact (volOf_ino hlt).symm

/-- `ilock` reads the slot when it has not been read. -/
theorem ilock_ok (h : ilock ip s = .ok u s') :
    0 < (s.inodeTable ip).ref ∧
      ((s.inodeTable ip).valid = true ∧ s' = s ∨ s' = s.putInode ip (s.fetched ip)) := by
  unfold ilock at h
  replace h := inodeAt_then h
  split_ifs at h with href hval
  · exact absurd h throw_ok
  · obtain ⟨-, rfl⟩ := pure_ok.mp h
    exact ⟨by omega, Or.inl ⟨hval, rfl⟩⟩
  · replace h := superblock_then h
    replace h := readBlock_then h
    exact ⟨by omega, Or.inr (modify_ok.mp h)⟩

/-- After `ilock` the slot has been read. -/
theorem ilock_valid (h : ilock ip s = .ok u s') :
    0 < (s'.inodeTable ip).ref ∧ (s'.inodeTable ip).valid = true := by
  obtain ⟨hpos, hcase⟩ := ilock_ok h
  rcases hcase with ⟨hv, rfl⟩ | rfl
  · exact ⟨hpos, hv⟩
  · rw [putInode_self]
    exact ⟨hpos, rfl⟩

theorem LocalOn.ilock : LocalOn dev ip (ilock ip) := by
  intro s hs
  refine .bind (.refl s) fun I t hI _ => ?_
  obtain ⟨rfl, rfl⟩ := inodeAt_ok hI
  split_ifs
  · exact .refl _
  · exact .refl _
  · refine Stays.bind (LocalOn.superblock _ s hs) fun sb t hsb _ => ?_
    obtain ⟨rfl, rfl⟩ := superblock_ok hsb
    refine Stays.bind (LocalOn.readBlock _ _ s hs) fun buf t hb _ => ?_
    obtain ⟨rfl, rfl⟩ := readBlock_ok hb
    exact .modify (.putInode _ rfl rfl rfl fun _ => rfl)

/-- After `ilock` the slot has been read. -/
theorem Ready.of_ilock (h : ilock ip s = .ok u s') (hc : Cached L dev s)
    (hd : (s.inodeTable ip).dev = dev) (hn : (s.inodeTable ip).inum = n)
    (hlt : n < L.ninodes) : Ready L dev n ip s' := by
  have ht : Touches dev ip s s' := LocalOn.ilock.of_ok hd h
  obtain ⟨href, h⟩ := ilock_ok h
  rcases h with ⟨hv, rfl⟩ | hs'
  · exact { toCached := hc, ref := href, dev_eq := hd, inum_eq := hn, lt := hlt, valid := hv }
  · have hvol : s'.vol L dev = s.vol L dev := by rw [hs', putInode_vol]
    refine
      { toCached := hc.next ht (fun j _ _ _ => by rw [hvol]) fun _ _ => ?_,
        toHolds := Holds.of_touches ⟨href, hd, hn⟩ ht,
        lt := hlt,
        valid := by rw [hs', putInode_self]; rfl }
    rw [ht.slot_inum, hvol, hs', putInode_self]
    exact hc.fits.fetched_view hd (by rwa [hn])

/-- `ilock` leaves a slot alone that has been read. -/
theorem ilock_of_valid (hr : 0 < (s.inodeTable ip).ref) (hv : (s.inodeTable ip).valid = true) :
    ilock ip s = .ok () s := by
  unfold ilock
  rw [run_bind (show inodeAt ip s = .ok (s.inodeTable ip) s from rfl), if_neg (by omega),
    if_pos hv]
  rfl

/-- `ilock` does not change the device. -/
theorem ilock_disk (h : ilock ip s = .ok u s') : s'.disk = s.disk ∧ s'.writes = s.writes := by
  rcases (ilock_ok h).2 with ⟨-, rfl⟩ | rfl <;> exact ⟨rfl, rfl⟩

theorem ilock_vol (h : ilock ip s = .ok u s') : s'.vol L dev = s.vol L dev := by
  rcases (ilock_ok h).2 with ⟨-, rfl⟩ | rfl <;> rfl

theorem LocalOn.iupdate : LocalOn dev ip (iupdate ip) := by
  refine inodeAt fun I hI => bind (superblock _) fun sb => bind (readBlock _ _) fun buf => ?_
  rw [hI]
  exact writeBlock _ _

/-- `iupdate` stores the cached inode on the device. -/
theorem iupdate_ok (h : iupdate ip s = .ok u s')
    (hL : L.Fits (s.sb dev)) (hd : (s.inodeTable ip).dev = dev)
    (hn : (s.inodeTable ip).inum = n) (hlt : n < L.ninodes) :
    s'.vol L dev = (s.vol L dev).setIno n (s.inodeTable ip).dinode.view ∧
      s'.inodeTable = s.inodeTable := by
  unfold iupdate at h
  replace h := inodeAt_then h
  replace h := superblock_then h
  replace h := readBlock_then h
  have hs' := writeBlock_ok h
  rw [hd, hn, Nat.mod_eq_of_lt (hL.inode_lt hlt)] at hs'
  subst hs'
  refine ⟨?_, rfl⟩
  unfold vol
  rw [putBlock_sb, putBlock_blk]
  exact volOf_inode hL hlt _

/-- The slot is changed and stored: the inode changes as the slot does. -/
theorem Ready.setDinode_iupdate (h : Ready L dev n ip s) {t : KState}
    {v : Unit} (hset : setDinode ip f s = .ok u t) (hup : iupdate ip t = .ok v s') :
    Ready L dev n ip s' ∧
      s'.vol L dev = (s.vol L dev).setIno n (f (s.inodeTable ip).dinode).view := by
  have ht := setDinode_ok hset
  have htouch : Touches dev ip s t := LocalOn.of_ok (LocalOn.setDinode f) h.dev_eq hset
  have hd : (t.inodeTable ip).dev = dev := by rw [htouch.slot_dev, h.dev_eq]
  have hn : (t.inodeTable ip).inum = n := by rw [htouch.slot_inum, h.inum_eq]
  obtain ⟨hvol, htab⟩ := iupdate_ok hup (by rw [htouch.sb]; exact h.fits) hd hn
    h.lt
  have hslot : t.inodeTable ip = { s.inodeTable ip with dinode := f (s.inodeTable ip).dinode } := by
    rw [ht, putInode_self]
  have hvol' : s'.vol L dev = (s.vol L dev).setIno n (f (s.inodeTable ip).dinode).view := by
    rw [hvol, hslot, ht, putInode_vol]
  refine ⟨h.next (htouch.trans (LocalOn.iupdate.of_ok hd hup)) ?_ ?_, hvol'⟩
  · intro m hm
    rw [hvol']
    exact update_of_ne hm _ _
  · rw [htab, hslot, hvol']
    exact (update_self n (f (s.inodeTable ip).dinode).view (s.vol L dev).ino).symm

end Lock

end Dmaos
