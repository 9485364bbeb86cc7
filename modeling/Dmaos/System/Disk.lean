import Dmaos.System.Files
import Dmaos.Handle.Policy

/-!
# The user's disk in the running kernel

`Disk L S s` is the invariant of the kernel about device 1: the volume on it
is well formed, the inode cache agrees with it, and every slot in use is for an
inode in `S`.  This module says how the operations on inodes keep it.
`Disk.recache` is the rule for operations that change the cache only,
`Worked.disk` the rule for those that write to the inode of one slot, and
`ialloc_ok` is about the allocation of an inode.
-/

namespace Dmaos

open Fault KState

variable {S : Nat → Prop} {n m dev inum d off len size : Nat} {L : Layout} {s s' t : KState}
  {ip i : Fin NINODE} {u : Unit} {src : Buf} {r : Int}

/-- Inode `n` is in `S`, and so is the inode that the 16 bits of a directory
entry for it name. -/
def Named (S : Nat → Prop) (n : Nat) : Prop := S n ∧ (n % 2 ^ 16 ≠ 0 → S (n % 2 ^ 16))

theorem Named.of_lt (h : S n) (hn : n < 2 ^ 16) : Named S n :=
  ⟨h, fun _ => by rwa [Nat.mod_eq_of_lt hn]⟩

theorem Named.also (h : Named S n) : Named (Also S m) n :=
  ⟨Or.inl h.1, fun h0 => Or.inl (h.2 h0)⟩

/-- The kernel may use inode `n` of device `dev`. -/
def Known (S : Nat → Prop) (dev n : Nat) : Prop := dev = 0 ∨ dev = 1 ∧ Named S n

theorem Known.also (h : Known S dev n) : Known (Also S m) dev n :=
  h.imp id fun h => ⟨h.1, h.2.also⟩

/-- The kernel's view of device 1 is consistent. -/
structure Disk (L : Layout) (S : Nat → Prop) (s : KState) : Prop extends Cached L 1 s where
  reserved : Reserved L.IsData (s.sb 1).nblocks (s.vol L 1)
  wf : WF L S (s.vol L 1)
  /-- The slots in use are for inodes of device 0 or inodes in `S`. -/
  known : ∀ {i : Fin NINODE}, 0 < (s.inodeTable i).ref →
    Known S (s.inodeTable i).dev (s.inodeTable i).inum
  mounts : ∀ m ∈ s.mounts, m.childDev = 1 ∧ Known S m.parentDev m.parentInum

section Cache

theorem Disk.held (h : Disk L S s) (hi : Holds 1 n i s) : Named S n := by
  have hk := h.known hi.ref
  rw [hi.dev_eq, hi.inum_eq] at hk
  exact (hk.resolve_left (by decide)).2

theorem Disk.sound (h : Disk L S s) : Sound L S 1 s :=
  { toCached := h.toCached, own := h.wf.own, reserved := h.reserved }

theorem KState.vol_congr (hdisk : s'.disk dev = s.disk dev) (hsb : s'.sb = s.sb) :
    s'.vol L dev = s.vol L dev := by
  unfold vol blk
  rw [hdisk, hsb]

/-- Only the cache changes, and the slots in use were in use for the same
inodes before. -/
theorem Cached.recache (h : Cached L dev s) (hdisk : s'.disk dev = s.disk dev) (hsb : s'.sb = s.sb)
    (hslot : ∀ i, 0 < (s'.inodeTable i).ref → 0 < (s.inodeTable i).ref ∧
      (s'.inodeTable i).dev = (s.inodeTable i).dev ∧
      (s'.inodeTable i).inum = (s.inodeTable i).inum ∧
      ((s'.inodeTable i).valid = true → (s.inodeTable i).dev = dev →
        (s.inodeTable i).inum < L.ninodes →
        (s'.inodeTable i).dinode.view = (s.vol L dev).ino (s.inodeTable i).inum)) :
    Cached L dev s' where
  fits := by rw [hsb]; exact h.fits
  uniq := by
    intro i j hi hj hd hn
    obtain ⟨hi', hid, hin, -⟩ := hslot i hi
    obtain ⟨hj', hjd, hjn, -⟩ := hslot j hj
    rw [hid, hjd] at hd
    rw [hin, hjn] at hn
    exact h.uniq hi' hj' hd hn
  coh := by
    intro i hi hv hd hn
    obtain ⟨-, hid, hin, hview⟩ := hslot i hi
    rw [hid] at hd
    rw [hin] at hn ⊢
    rw [vol_congr hdisk hsb]
    exact hview hv hd hn

theorem Cached.of_calm (h : Cached L dev s) (hc : Calm s s') : Cached L dev s' := by
  refine h.recache (by rw [hc.disk]) hc.sb fun i hi => ?_
  rw [hc.ref] at hi
  refine ⟨hi, hc.dev i, hc.inum i, fun hv hd hn => ?_⟩
  rcases hc.slot i with he | he
  · rw [he] at hv ⊢
    exact h.coh hi hv hd hn
  · rw [he]
    exact h.fits.fetched_view hd hn

theorem Cached.iput (h : Cached L dev s) (hx : iput ip s = .ok u s') : Cached L dev s' := by
  obtain ⟨hpos, rfl⟩ := iput_ok hx
  refine h.recache rfl rfl fun i hi => ?_
  by_cases hip : i = ip
  · subst hip
    rw [putInode_self]
    exact ⟨hpos, rfl, rfl, fun hv hd hn => h.coh hpos hv hd hn⟩
  · rw [putInode_of_ne hip] at hi ⊢
    exact ⟨hi, rfl, rfl, fun hv hd hn => h.coh hi hv hd hn⟩

/-- The slots `iget` leaves alone, and the one it returns. -/
theorem iget_slots (hx : iget dev inum s = .ok i s')
    (huniq : ∀ {i j : Fin NINODE}, 0 < (s.inodeTable i).ref → 0 < (s.inodeTable j).ref →
      (s.inodeTable i).dev = (s.inodeTable j).dev →
      (s.inodeTable i).inum = (s.inodeTable j).inum → i = j) :
    (∀ j, j ≠ i → s'.inodeTable j = s.inodeTable j ∧ ¬ Holds dev inum j s) ∧
      ((s'.inodeTable i).valid = true →
        Holds dev inum i s ∧ (s.inodeTable i).valid = true ∧
          (s'.inodeTable i).dinode = (s.inodeTable i).dinode) := by
  rcases iget_ok hx with ⟨h1, h2, h3, rfl⟩ | ⟨hnone, -, rfl⟩
  · refine ⟨fun j hj => ⟨putInode_of_ne hj, fun hh => ?_⟩, fun hv => ?_⟩
    · exact hj (huniq hh.ref h1 (hh.dev_eq.trans h2.symm) (hh.inum_eq.trans h3.symm))
    · rw [putInode_self] at hv ⊢
      exact ⟨⟨h1, h2, h3⟩, hv, rfl⟩
  · refine ⟨fun j hj => ⟨putInode_of_ne hj, fun hh => ?_⟩, fun hv => ?_⟩
    · exact hnone j hh.ref hh.dev_eq hh.inum_eq
    · rw [putInode_self] at hv
      cases hv

theorem Cached.iget (h : Cached L d s) (hx : iget dev inum s = .ok i s') : Cached L d s' := by
  have hidle := Idle.iget.of_ok hx
  have hhold := iget_holds hx
  obtain ⟨hother, hself⟩ := iget_slots hx h.uniq
  have hvol : s'.vol L d = s.vol L d := vol_congr (by rw [hidle.disk]) hidle.sb
  refine ⟨by rw [hidle.sb]; exact h.fits, ?_, ?_⟩
  · -- A slot other than the one returned is for another inode.
    have key : ∀ j, j ≠ i → 0 < (s'.inodeTable j).ref →
        (s'.inodeTable j).dev = (s'.inodeTable i).dev →
        (s'.inodeTable j).inum ≠ (s'.inodeTable i).inum := by
      intro j hj hr hd hn
      obtain ⟨he, hno⟩ := hother j hj
      rw [hhold.dev_eq] at hd
      rw [hhold.inum_eq] at hn
      rw [he] at hr hd hn
      exact hno ⟨hr, hd, hn⟩
    intro j k hj hk hd hn
    by_cases hji : j = i
    · subst hji
      by_contra hkj
      exact key k (Ne.symm hkj) hk hd.symm hn.symm
    · by_cases hki : k = i
      · subst hki
        exact absurd hn (key j hji hj hd)
      · rw [(hother j hji).1] at hj hd hn
        rw [(hother k hki).1] at hk hd hn
        exact h.uniq hj hk hd hn
  · intro j hj hv hd hn
    by_cases hji : j = i
    · subst hji
      obtain ⟨hold, hval, hdin⟩ := hself hv
      rw [hhold.inum_eq] at hn ⊢
      rw [hdin, hvol]
      have := h.coh hold.ref hval (hold.dev_eq.trans (hhold.dev_eq.symm.trans hd))
        (by rw [hold.inum_eq]; exact hn)
      rwa [hold.inum_eq] at this
    · rw [(hother j hji).1] at hj hv hd hn ⊢
      rw [hvol]
      exact h.coh hj hv hd hn

/-- Only the cache changes, and the slots in use were in use for the same
inodes before. -/
theorem Disk.recache (h : Disk L S s) (hc : Cached L 1 s') (hdisk : s'.disk 1 = s.disk 1)
    (hsb : s'.sb = s.sb) (hmounts : s'.mounts = s.mounts)
    (hslot : ∀ i, 0 < (s'.inodeTable i).ref → 0 < (s.inodeTable i).ref ∧
      (s'.inodeTable i).dev = (s.inodeTable i).dev ∧
      (s'.inodeTable i).inum = (s.inodeTable i).inum) : Disk L S s' where
  toCached := hc
  reserved := by
    rw [vol_congr hdisk hsb, hsb]
    exact h.reserved
  wf := by
    rw [vol_congr hdisk hsb]
    exact h.wf
  known := by
    intro i hi
    obtain ⟨hi', hid, hin⟩ := hslot i hi
    rw [hid, hin]
    exact h.known hi'
  mounts := by rw [hmounts]; exact h.mounts

/-- The tables of files and processes do not matter. -/
theorem Disk.tables (h : Disk L S s) (hdisk : s'.disk = s.disk) (hsb : s'.sb = s.sb)
    (hmounts : s'.mounts = s.mounts) (hino : s'.inodeTable = s.inodeTable) : Disk L S s' := by
  have hd : s'.disk 1 = s.disk 1 := by rw [hdisk]
  refine h.recache (h.toCached.recache hd hsb fun i hi => ?_) hd hsb hmounts fun i hi => ?_
  · rw [hino] at hi ⊢
    exact ⟨hi, rfl, rfl, fun hv hd hn => h.coh hi hv hd hn⟩
  · rw [hino] at hi ⊢
    exact ⟨hi, rfl, rfl⟩

theorem Disk.of_calm (h : Disk L S s) (hc : Calm s s') : Disk L S s' := by
  refine h.recache (h.toCached.of_calm hc) (by rw [hc.disk]) hc.sb hc.mounts fun i hi => ?_
  rw [hc.ref] at hi
  exact ⟨hi, hc.dev i, hc.inum i⟩

theorem Disk.iput (h : Disk L S s) (hx : iput ip s = .ok u s') : Disk L S s' := by
  have hc := h.toCached.iput hx
  obtain ⟨hpos, rfl⟩ := iput_ok hx
  refine h.recache hc rfl rfl rfl fun i hi => ?_
  by_cases hip : i = ip
  · subst hip
    rw [putInode_self]
    exact ⟨hpos, rfl, rfl⟩
  · rw [putInode_of_ne hip] at hi ⊢
    exact ⟨hi, rfl, rfl⟩

/-- A computation on the inode of a slot that is not on device 1. -/
theorem Disk.of_other (h : Disk L S s) (ht : Touches d ip s s') (hd : d ≠ 1)
    (hip : (s.inodeTable ip).dev = d) : Disk L S s' := by
  have hdisk := ht.disk 1 hd.symm
  refine h.recache (h.toCached.recache hdisk ht.sb fun i hi => ?_) hdisk ht.sb ht.mounts
    fun i hi => ?_
  · obtain ⟨hdev, hinum, href⟩ := ht.slot i
    rw [href] at hi
    refine ⟨hi, hdev, hinum, fun hv hd1 hn => ?_⟩
    have hne : i ≠ ip := by
      rintro rfl
      exact hd (hip.symm.trans hd1)
    rw [ht.slots i hne] at hv ⊢
    exact h.coh hi hv hd1 hn
  · obtain ⟨hdev, hinum, href⟩ := ht.slot i
    exact ⟨href ▸ hi, hdev, hinum⟩

theorem Disk.iget (h : Disk L S s)
    (hx : iget dev inum s = .ok i s') (hS : Known S dev inum) : Disk L S s' := by
  have hidle := Idle.iget.of_ok hx
  have hhold := iget_holds hx
  obtain ⟨hother, -⟩ := iget_slots hx h.uniq
  have hvol : s'.vol L 1 = s.vol L 1 := vol_congr (by rw [hidle.disk]) hidle.sb
  refine
    { toCached := h.toCached.iget hx, reserved := by rw [hvol, hidle.sb]; exact h.reserved,
      wf := by rw [hvol]; exact h.wf, known := fun {j} hj => ?_,
      mounts := by rw [hidle.mounts]; exact h.mounts }
  by_cases hji : j = i
  · subst hji
    rw [hhold.dev_eq, hhold.inum_eq]
    exact hS
  · rw [(hother j hji).1] at hj ⊢
    exact h.known hj

end Cache

/-! ## Writing to the inode of a slot -/

/-- The inode `n` of slot `ip` has been worked on. -/
structure Worked (L : Layout) (S : Nat → Prop) (n : Nat) (ip : Fin NINODE) (s s' : KState) :
    Prop extends Owner L S 1 n ip s' where
  touches : Touches 1 ip s s'

section Slot

theorem Worked.disk (h : Worked L S n ip s s') (hs : Disk L S s) (hwf : WF L S (s'.vol L 1)) :
    Disk L S s' where
  toCached := h.toCached
  reserved := h.reserved
  wf := hwf
  known := by
    intro i hi
    obtain ⟨hd, hn, hr⟩ := h.touches.slot i
    rw [hd, hn]
    exact hs.known (hr ▸ hi)
  mounts := by rw [h.touches.mounts]; exact hs.mounts

theorem writei_pos (hx : writei ip src off len s = .ok r s') : 0 < (s.inodeTable ip).ref := by
  obtain ⟨u, t, hl, -⟩ := bind_ok.mp hx
  exact (ilock_ok hl).1

theorem itrunc_pos (hx : itrunc ip size s = .ok u s') : 0 < (s.inodeTable ip).ref := by
  obtain ⟨u, t, hl, -⟩ := bind_ok.mp hx
  exact (ilock_ok hl).1

/-- `writei` on a slot for an inode of device 1. -/
theorem Disk.writei (h : Disk L S s)
    (hd : (s.inodeTable ip).dev = 1) (hn : (s.inodeTable ip).inum = n)
    (hx : writei ip src off len s = .ok r s') :
    S n ∧ Worked L S n ip s s' ∧
      (r = -1 ∧ s'.vol L 1 = s.vol L 1 ∧
          ¬ (off ≤ ((s.vol L 1).ino n).size ∧ off + len ≤ maxSize) ∨
        r = len ∧ Wrote L S n off len src (s.vol L 1) (s'.vol L 1)) := by
  have hS : S n := (h.held ⟨writei_pos hx, hd, hn⟩).1
  have ht : Touches 1 ip s s' := LocalOn.writei.of_ok hd hx
  obtain ⟨ho, hcase⟩ := writei_ok h.sound hd hn (h.wf.lt hS) hS hx
  refine ⟨hS, ⟨ho, ht⟩, ?_⟩
  rcases hcase with ⟨hout, hr, hdisk⟩ | ⟨hin, hr, hw, hsize⟩
  · exact Or.inl ⟨hr, ht.vol_eq hdisk, hout⟩
  · exact Or.inr ⟨hr, hw, hin.1, hin.2, hsize⟩

/-- `itrunc` on a slot for an inode of device 1. -/
theorem Disk.itrunc (h : Disk L S s) (hd : (s.inodeTable ip).dev = 1)
    (hn : (s.inodeTable ip).inum = n) (hx : itrunc ip size s = .ok u s') :
    S n ∧ Worked L S n ip s s' ∧ Disk L S s' ∧
      (((s.vol L 1).ino n).size ≤ size ∧ s'.vol L 1 = s.vol L 1 ∨
        Cut L S n size (s.vol L 1) (s'.vol L 1)) := by
  have hS : S n := (h.held ⟨itrunc_pos hx, hd, hn⟩).1
  have ht : Touches 1 ip s s' := LocalOn.itrunc.of_ok hd hx
  obtain ⟨ho, hcase⟩ := itrunc_ok h.sound hd hn (h.wf.lt hS) hS (h.wf.shaped hS).covered hx
  have hw : Worked L S n ip s s' := ⟨ho, ht⟩
  rcases hcase with ⟨hle, hdisk⟩ | ⟨hlt, hsize, htr⟩
  · have hvol : s'.vol L 1 = s.vol L 1 := ht.vol_eq hdisk
    exact ⟨hS, hw, hw.disk h (by rw [hvol]; exact h.wf), Or.inl ⟨hle, hvol⟩⟩
  · have hcut : Cut L S n size (s.vol L 1) (s'.vol L 1) := ⟨htr, hlt, hsize⟩
    exact ⟨hS, hw, hw.disk h (hcut.wf hS h.wf), Or.inr hcut⟩

/-- The inode of a slot is retired. -/
theorem Disk.retire {v : Unit} (h : Disk L S s) (hr : Ready L 1 n ip s) (hS : S n)
    (hset : setDinode ip (·.setType FT_UNUSED) s = .ok u t) (hup : iupdate ip t = .ok v s') :
    Worked L S n ip s s' ∧ Disk L S s' ∧ s'.vol L 1 = (s.vol L 1).retireIno n := by
  obtain ⟨hr', hvol⟩ := hr.setDinode_iupdate hset hup
  have ht1 : Touches 1 ip s t := LocalOn.of_ok (LocalOn.setDinode _) hr.dev_eq hset
  have ht2 : Touches 1 ip t s' := LocalOn.iupdate.of_ok (by rw [ht1.slot_dev, hr.dev_eq]) hup
  have ht := ht1.trans ht2
  have hvol' : s'.vol L 1 = (s.vol L 1).retireIno n := by
    rw [hvol, Dinode.view_setType _ (by decide), hr.view]
    rfl
  have hwf : WF L S (s'.vol L 1) := by
    rw [hvol']
    exact h.wf.retire hS
  have hw : Worked L S n ip s s' :=
    { toReady := hr', own := hwf.own, mem := hS, touches := ht,
      reserved := by
        rw [hvol', ht.sb]
        exact h.reserved }
  exact ⟨hw, hw.disk h hwf, hvol'⟩

end Slot

/-! ## Allocating an inode -/

/-- An inode is found for a new file before the scan leaves the inode table: the
table has room for all inodes, or one of those it has room for is unused. -/
def Room (L : Layout) (s : KState) : Prop :=
  (s.sb 1).ninodes ≤ L.ninodes ∨
    ∃ m, 0 < m ∧ m < L.ninodes ∧ inUse (s.vol L 1) m = false

/-- `ialloc` has made inode `n` a new file of the given type, in slot `ip`. -/
structure Allocated (L : Layout) (S : Nat → Prop) (n type : Nat) (ip : Fin NINODE)
    (s s' : KState) : Prop extends Disk L (Also S n) s', Holds 1 n ip s' where
  pos : 0 < n
  lt : n < L.ninodes
  free : inUse (s.vol L 1) n = false
  /-- It is the first unused inode. -/
  first : ∀ m, 0 < m → m < n → inUse (s.vol L 1) m = true
  vol : s'.vol L 1 = (s.vol L 1).allocIno n type
  valid : (s'.inodeTable ip).valid = true
  sb : s'.sb = s.sb
  slots : ∀ j, j ≠ ip → s'.inodeTable j = s.inodeTable j

section Alloc

variable {type : Nat}

/-- The part of `ialloc` after a free inode is found. -/
theorem Allocated.of_steps {t' : KState} (h : Disk L S s) (hn0 : 0 < n)
    (hn : n < L.ninodes) (hfree : inUse (s.vol L 1) n = false)
    (hfirst : ∀ m, 0 < m → m < n → inUse (s.vol L 1) m = true) (htype : type < 2 ^ 16)
    (hw : writeBlock 1 (iblock (s.sb 1) n)
      ((s.blk 1 (iblock (s.sb 1) n % 2 ^ 31)).copy (ioffset n) (newDinode type) dinodeSize) s =
        .ok u t)
    (hg : iget 1 n t = .ok ip t') (hs' : s' = t'.putInode ip { t'.inodeTable ip with
      dinode := ((((t'.inodeTable ip).dinode.setType type).setNlink 1).setSize 0).clearAddrs
      valid := true }) : Allocated L S n type ip s s' := by
  rw [Nat.mod_eq_of_lt (h.fits.inode_lt hn)] at hw
  have ht := writeBlock_ok hw
  rw [Nat.mod_eq_of_lt (h.fits.inode_lt hn)] at ht
  have hidle := Idle.iget.of_ok hg
  have hhold := iget_holds hg
  have htab : t.inodeTable = s.inodeTable := by rw [ht]; rfl
  obtain ⟨hother, -⟩ := iget_slots hg (by rw [htab]; exact h.uniq)
  rw [htab] at hother
  -- The volume, and the slots.
  have hsb : s'.sb = s.sb := by rw [hs', putInode_sb, hidle.sb, ht, putBlock_sb]
  have hvol : s'.vol L 1 = (s.vol L 1).allocIno n type := by
    rw [hs', putInode_vol, vol_congr (by rw [hidle.disk]) hidle.sb, ht]
    unfold KState.vol
    rw [putBlock_sb, putBlock_blk, volOf_inode h.fits hn,
      Dinode.view_newDinode htype]
    rfl
  have hslot : ∀ j, j ≠ ip → s'.inodeTable j = s.inodeTable j ∧ ¬ Holds 1 n j s := by
    intro j hj
    obtain ⟨h1, h2⟩ := hother j hj
    refine ⟨by rw [hs', putInode_of_ne hj, h1], fun hh => h2 ?_⟩
    exact ⟨htab ▸ hh.ref, htab ▸ hh.dev_eq, htab ▸ hh.inum_eq⟩
  have hip : Holds 1 n ip s' := by
    refine ⟨?_, ?_, ?_⟩ <;> rw [hs', putInode_self]
    · exact hhold.ref
    · exact hhold.dev_eq
    · exact hhold.inum_eq
  have hino : ∀ m, m ≠ n → (s'.vol L 1).ino m = (s.vol L 1).ino m := by
    intro m hm
    rw [hvol]
    exact Function.update_of_ne hm _ _
  -- A slot in use other than `ip` is for another inode.
  have key : ∀ j, j ≠ ip → 0 < (s'.inodeTable j).ref → (s'.inodeTable j).dev = 1 →
      (s'.inodeTable j).inum ≠ n := by
    intro j hj hr hd hjn
    obtain ⟨he, hno⟩ := hslot j hj
    rw [he] at hr hd hjn
    exact hno ⟨hr, hd, hjn⟩
  refine
    { fits := by rw [hsb]; exact h.fits, uniq := ?_, coh := ?_, reserved := ?_,
      wf := by rw [hvol]; exact h.wf.alloc hn, known := ?_, mounts := ?_, toHolds := hip,
      pos := hn0, lt := hn, free := hfree, first := hfirst, vol := hvol, valid := ?_, sb := hsb,
      slots := fun j hj => (hslot j hj).1 }
  · intro j k hj hk hd hjk
    by_cases hji : j = ip
    · subst hji
      by_contra hkj
      exact key k (Ne.symm hkj) hk (hd ▸ hip.dev_eq) (hjk ▸ hip.inum_eq)
    · by_cases hki : k = ip
      · subst hki
        exact absurd (hjk.trans hip.inum_eq) (key j hji hj (hd.trans hip.dev_eq))
      · rw [(hslot j hji).1] at hj hd hjk
        rw [(hslot k hki).1] at hk hd hjk
        exact h.uniq hj hk hd hjk
  · intro j hj hv hd hjn
    by_cases hji : j = ip
    · subst hji
      rw [hip.inum_eq, hvol, allocIno_ino_self, hs', putInode_self]
      exact Dinode.view_ialloc _ htype
    · rw [hino _ (key j hji hj hd)]
      rw [(hslot j hji).1] at hj hv hd hjn ⊢
      exact h.coh hj hv hd hjn
  · rw [hvol, hsb]
    exact h.reserved
  · intro j hj
    by_cases hji : j = ip
    · subst hji
      rw [hip.dev_eq, hip.inum_eq]
      refine Or.inr ⟨rfl, Or.inr rfl, fun h0 => ?_⟩
      -- The inodes below the first unused one are in use.
      by_cases hlt : n < 2 ^ 16
      · exact Or.inr (Nat.mod_eq_of_lt hlt)
      · exact Or.inl (h.wf.used (hfirst _ (by omega) (by omega)))
    · rw [(hslot j hji).1] at hj ⊢
      exact (h.known hj).also
  · intro m hm
    have hm' : m ∈ s.mounts := by
      have : s'.mounts = s.mounts := by rw [hs']; show t'.mounts = _; rw [hidle.mounts, ht]; rfl
      rwa [this] at hm
    obtain ⟨h1, h2⟩ := h.mounts m hm'
    exact ⟨h1, h2.also⟩
  · rw [hs', putInode_self]

/-- The scan of `ialloc` from inode `i` on. -/
theorem iallocScan_ok (h : Disk L S s) (htype : type < 2 ^ 16) :
    ∀ {k i : Nat} {o : Option (Fin NINODE)} {s' : KState}, 0 < i →
      (∀ m, 0 < m → m < i → inUse (s.vol L 1) m = true) →
      (i + k ≤ L.ninodes ∨ ∃ m, i ≤ m ∧ m < L.ninodes ∧ inUse (s.vol L 1) m = false) →
      iallocScan 1 type k i s = .ok o s' →
      o = none ∧ s = s' ∨ ∃ ip n, o = some ip ∧ Allocated L S n type ip s s'
  | 0, i, o, s', _, _, _, hx => by
      obtain ⟨rfl, rfl⟩ := pure_ok.mp hx
      exact Or.inl ⟨rfl, rfl⟩
  | k + 1, i, o, s', hi, hfirst, hroom, hx => by
      have hlt : i < L.ninodes := by
        rcases hroom with hroom | ⟨m, h1, h2, -⟩ <;> omega
      unfold iallocScan at hx
      replace hx := superblock_then hx
      replace hx := readBlock_then hx
      -- The type that is read is that of inode `i`.
      have htyp : Dinode.type (fun j => s.blk 1 (iblock (s.sb 1) i % 2 ^ 31) (ioffset i + j)) =
          ((s.vol L 1).ino i).type := by
        rw [Nat.mod_eq_of_lt (h.fits.inode_lt hlt)]
        exact (congrArg DView.type (volOf_ino hlt)).symm
      rw [htyp] at hx
      split_ifs at hx with hfree
      · obtain ⟨u, t, hw, hx⟩ := bind_ok.mp hx
        obtain ⟨ip, t', hg, hx⟩ := bind_ok.mp hx
        obtain ⟨v, t'', hm, hx⟩ := bind_ok.mp hx
        obtain ⟨rfl, rfl⟩ := pure_ok.mp hx
        refine Or.inr ⟨ip, i, rfl, .of_steps h hi hlt ?_ hfirst htype hw hg (modify_ok.mp hm)⟩
        simp [inUse, hfree]
      · have hused : inUse (s.vol L 1) i = true := by simp [inUse, hfree]
        refine iallocScan_ok h htype (by omega) (fun m h0 hm => ?_) ?_ hx
        · by_cases hmi : m = i
          · rw [hmi]
            exact hused
          · exact hfirst m h0 (by omega)
        rcases hroom with hroom | ⟨m, h1, h2, h3⟩
        · exact Or.inl (by omega)
        · refine Or.inr ⟨m, ?_, h2, h3⟩
          have hne : m ≠ i := by
            rintro rfl
            rw [hused] at h3
            cases h3
          omega

/-- `ialloc` finds no inode and changes nothing, or makes one a new file. -/
theorem ialloc_ok {o : Option (Fin NINODE)} (h : Disk L S s) (hroom : Room L s)
    (htype : type < 2 ^ 16) (hx : ialloc 1 type s = .ok o s') :
    o = none ∧ s = s' ∨ ∃ ip n, o = some ip ∧ Allocated L S n type ip s s' := by
  replace hx := superblock_then hx
  by_cases hzero : (s.sb 1).ninodes = 0
  · rw [hzero] at hx
    obtain ⟨rfl, rfl⟩ := pure_ok.mp hx
    exact Or.inl ⟨rfl, rfl⟩
  · refine iallocScan_ok h htype (by omega) (fun m h0 h1 => by omega) ?_ hx
    rcases hroom with hroom | hroom
    · exact Or.inl (by omega)
    · exact Or.inr hroom

end Alloc

end Dmaos
