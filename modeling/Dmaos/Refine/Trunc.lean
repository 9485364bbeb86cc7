import Dmaos.Refine.Content
import Dmaos.Volume.Trunc

/-!
# Truncating files

`itrunc` clears pointers of the inode in the cache and writes the inode back
at the end.  Until then the file is described by the *pending* volume: the
device with the cached inode in place of the stored one.  Each turn of the
loop of `itrunc` drops one block of it (`freeBlock_ok`), and the clean-up
drops the tables that are no longer needed (`itruncBlocks_ok`).
-/

namespace Dmaos

open Fault Function KState Vol

variable {dev i dfbn bn hi lo size n b : Nat} {ip : Fin NINODE} {buf : Buf} {L : Layout}
  {S : Nat → Prop} {s s' : KState} {σ t : Slot} {V : Vol} {u v : Unit}

/-- The device with the inode that slot `ip` holds in place of inode `n`. -/
def KState.pend (s : KState) (L : Layout) (dev n : Nat) (ip : Fin NINODE) : Vol :=
  (s.vol L dev).setIno n (s.inodeTable ip).dinode.view

section Frames

theorem LocalOn.freeTable : LocalOn dev ip (freeTable ip i) := by
  refine inodeAt fun I hI => ite pure (bind ?_ fun _ => setDinode _)
  rw [hI]
  exact .bfree

theorem LocalOn.freeSingle : LocalOn dev ip (freeSingle ip i) := by
  refine inodeAt fun I hI => ite pure (bind (readBlock _ _) fun _ => ite pure ?_)
  rw [hI]
  exact bind .bfree fun _ => writeBlock _ _

theorem LocalOn.freeEntry {table : Nat} : LocalOn dev ip (freeEntry dev table buf i) :=
  ite pure (bind .bfree fun _ => bind (writeBlock _ _) fun _ => pure)

theorem LocalOn.freeDouble : LocalOn dev ip (freeDouble ip dfbn) := by
  refine inodeAt fun I hI => ite pure (bind (readBlock _ _) fun _ => ite (throw _)
    (ite pure (bind (readBlock _ _) fun _ => ?_)))
  rw [hI]
  exact bind .freeEntry fun _ => ite (bind .bfree fun _ => writeBlock _ _) pure

theorem LocalOn.freeBlock : LocalOn dev ip (freeBlock ip bn) :=
  ite .freeTable (ite .freeSingle .freeDouble)

theorem LocalOn.itruncLoop : ∀ {k bn : Nat}, LocalOn dev ip (itruncLoop ip k bn)
  | 0, _ => pure
  | _ + 1, _ => bind .freeBlock fun _ => .itruncLoop

theorem LocalOn.itruncBlocks : LocalOn dev ip (itruncBlocks ip hi lo) :=
  bind .itruncLoop fun _ => bind (onlyIf .freeTable) fun _ =>
    onlyIf .freeTable

theorem LocalOn.itrunc : LocalOn dev ip (itrunc ip size) :=
  bind .ilock fun _ => inodeAt fun _ _ => ite pure
    (bind (onlyIf .itruncBlocks) fun _ => bind (setDinode _) fun _ => .iupdate)

end Frames

/-! ## The pending volume -/

/-- The inodes in `S` own their blocks in the pending volume. -/
structure Pending (L : Layout) (S : Nat → Prop) (dev n : Nat) (ip : Fin NINODE) (s : KState) :
    Prop where
  fits : L.Fits (s.sb dev)
  dev_eq : (s.inodeTable ip).dev = dev
  mem : S n
  own : Own L.IsData S (s.pend L dev n ip)

section Pend

theorem KState.pend_ino_self : (s.pend L dev n ip).ino n = (s.inodeTable ip).dinode.view :=
  update_self ..

/-- A slot that is ready has nothing pending. -/
theorem Ready.pend_eq (h : Ready L dev n ip s) : s.pend L dev n ip = s.vol L dev := by
  unfold pend
  rw [h.view]
  unfold setIno
  rw [update_eq_self]

theorem Owner.pending (h : Owner L S dev n ip s) : Pending L S dev n ip s :=
  ⟨h.fits, h.dev_eq, h.mem, by rw [h.pend_eq]; exact h.own⟩

theorem Pending.addr (_h : Pending L S dev n ip s) (hi : i < 14) :
    (s.inodeTable ip).dinode.addr i = (s.pend L dev n ip).ptr n (.top i) := by
  rw [ptr_top, pend_ino_self, Dinode.view_addr hi]

theorem Pending.of_reduce (h : Pending L S dev n ip s) (ht : Touches dev ip s s')
    (hr : Reduce L.IsData S n (s.pend L dev n ip) (s'.pend L dev n ip)) : Pending L S dev n ip s' :=
  ⟨by rw [ht.sb]; exact h.fits, by rw [ht.slot_dev]; exact h.dev_eq, h.mem, hr.own⟩

theorem Pending.readBlock_ptr (h : Pending L S dev n ip s) (hσ : σ.Valid)
    (h0 : (s.pend L dev n ip).ptr n σ ≠ 0) :
    (s.pend L dev n ip).ptr n σ % 2 ^ 31 = (s.pend L dev n ip).ptr n σ ∧
      s.blk dev ((s.pend L dev n ip).ptr n σ) =
        (s.pend L dev n ip).data ((s.pend L dev n ip).ptr n σ) := by
  have hR := h.own.region h.mem hσ h0
  have := h.fits.data_lt hR
  refine ⟨Nat.mod_eq_of_lt (by omega), ?_⟩
  show _ = (s.vol L dev).data _
  exact (volOf_data_of hR).symm

/-- The table a position points to is read. -/
theorem Pending.readTable_ok (h : Pending L S dev n ip s) (ht : t.IsTable)
    (h0 : (s.pend L dev n ip).ptr n t ≠ 0)
    (hb : readBlock dev ((s.pend L dev n ip).ptr n t) s = .ok buf s') :
    s = s' ∧ buf = (s.pend L dev n ip).data ((s.pend L dev n ip).ptr n t) := by
  obtain ⟨rfl, rfl⟩ := readBlock_ok hb
  obtain ⟨hmod, hdata⟩ := h.readBlock_ptr ht.valid h0
  rw [hmod, hdata]
  exact ⟨rfl, rfl⟩

theorem entry_data (h0 : V.ptr n t ≠ 0) (i : Nat) :
    entry (V.data (V.ptr n t)) i = V.ptr n (.ent t i) := (ptr_ent_of_ne h0).symm

theorem bfree_pend (h : Pending L S dev n ip s)
    (hf : bfree dev b s = .ok u s') : s'.pend L dev n ip = (s.pend L dev n ip).clear b := by
  obtain ⟨hvol, htab⟩ := bfree_ok hf h.fits
  unfold pend
  rw [hvol, htab]
  rfl

/-- The block at a position of the inode is freed and the pointer cleared. -/
theorem freeTop_ok (h : Pending L S dev n ip s) (hi : i < 14) {t : KState}
    (h0 : (s.pend L dev n ip).ptr n (.top i) ≠ 0)
    (hf : bfree dev ((s.pend L dev n ip).ptr n (.top i)) s = .ok u t)
    (hset : setDinode ip (·.setAddr i 0) t = .ok v s') :
    s'.pend L dev n ip = (s.pend L dev n ip).freeAt n (.top i) := by
  have hp := bfree_pend h hf
  have hs' := setDinode_ok hset
  unfold freeAt freeCell
  rw [if_neg h0, ← hp, hs']
  unfold pend setCell
  rw [putInode_vol, putInode_self, Dinode.view_setAddr _ hi (by omega)]
  simp only [setIno, update_self, update_idem]

/-- The block at an entry of a table is freed and the entry cleared. -/
theorem freeEnt_ok (h : Pending L S dev n ip s) (ht : t.IsTable)
    {w : KState} (h0 : (s.pend L dev n ip).ptr n (.ent t i) ≠ 0)
    (hf : bfree dev ((s.pend L dev n ip).ptr n (.ent t i)) s = .ok u w)
    (hw : writeBlock dev ((s.pend L dev n ip).ptr n t)
      (setEntry ((s.pend L dev n ip).data ((s.pend L dev n ip).ptr n t)) i 0) w = .ok v s') :
    s'.pend L dev n ip = (s.pend L dev n ip).freeAt n (.ent t i) := by
  have hp := bfree_pend h hf
  have ht0 := ptr_parent_ne h0
  have hs' := writeBlock_ok hw
  rw [(h.readBlock_ptr ht.valid ht0).1] at hs'
  have hsb : w.sb = s.sb := (LocalOn.bfree.of_ok h.dev_eq hf).sb
  have h1 : s'.pend L dev n ip = (w.pend L dev n ip).setData ((s.pend L dev n ip).ptr n t)
      (setEntry ((s.pend L dev n ip).data ((s.pend L dev n ip).ptr n t)) i 0) := by
    unfold pend vol
    rw [hs', putBlock_sb, putBlock_blk, putBlock_inodeTable,
      volOf_data (by rw [hsb]; exact h.fits) (h.own.region h.mem ht.valid ht0)]
    rfl
  unfold freeAt freeCell
  rw [if_neg h0, h1, hp, setCell_ent, ptr_clear]
  rfl

end Pend

/-! ## One turn of the loop -/

section Loop

theorem Vol.freeAt_of_eq (h : V.ptr n σ = 0) : V.freeAt n σ = V := if_pos h

/-- `freeTable` and the direct branch of the loop free a pointer of the inode. -/
theorem freeTable_ok (h : Pending L S dev n ip s) (hi : i < 14) (hf : freeTable ip i s = .ok u s') :
    s'.pend L dev n ip = (s.pend L dev n ip).freeAt n (.top i) := by
  unfold freeTable at hf
  replace hf := inodeAt_then hf
  rw [h.dev_eq, h.addr hi] at hf
  split_ifs at hf with h0
  · obtain ⟨-, rfl⟩ := pure_ok.mp hf
    rw [freeAt_of_eq h0]
  · obtain ⟨v, t, hb, hf⟩ := bind_ok.mp hf
    exact freeTop_ok h hi h0 hb hf

theorem freeSingle_ok (h : Pending L S dev n ip s) (hf : freeSingle ip i s = .ok u s') :
    s'.pend L dev n ip = (s.pend L dev n ip).freeAt n (.ent (.top 12) i) := by
  have htab : (Slot.top 12).IsTable := Or.inl rfl
  unfold freeSingle at hf
  replace hf := inodeAt_then hf
  rw [h.dev_eq, NDIRECT_eq, h.addr (by omega)] at hf
  split_ifs at hf with ht0
  · obtain ⟨-, rfl⟩ := pure_ok.mp hf
    rw [freeAt_of_eq (ptr_ent_of_eq ht0)]
  · obtain ⟨buf, t, hr, hf⟩ := bind_ok.mp hf
    obtain ⟨rfl, rfl⟩ := h.readTable_ok htab ht0 hr
    rw [entry_data ht0] at hf
    split_ifs at hf with h0
    · obtain ⟨-, rfl⟩ := pure_ok.mp hf
      rw [freeAt_of_eq h0]
    · obtain ⟨v, t, hb, hf⟩ := bind_ok.mp hf
      exact freeEnt_ok h htab h0 hb hf

/-- `freeEntry` returns the table as it is afterwards. -/
theorem freeEntry_ok (h : Pending L S dev n ip s) (htab : t.IsTable)
    (hi : i < 256) (ht0 : (s.pend L dev n ip).ptr n t ≠ 0)
    (hf : freeEntry dev ((s.pend L dev n ip).ptr n t)
      ((s.pend L dev n ip).data ((s.pend L dev n ip).ptr n t)) i s = .ok buf s') :
    s'.pend L dev n ip = (s.pend L dev n ip).freeAt n (.ent t i) ∧
      (s'.pend L dev n ip).ptr n t = (s.pend L dev n ip).ptr n t ∧
      buf = (s'.pend L dev n ip).data ((s.pend L dev n ip).ptr n t) := by
  unfold freeEntry at hf
  rw [entry_data ht0] at hf
  split_ifs at hf with h0
  · obtain ⟨rfl, rfl⟩ := pure_ok.mp hf
    exact ⟨(freeAt_of_eq h0).symm, rfl, rfl⟩
  · obtain ⟨v, w, hb, hf⟩ := bind_ok.mp hf
    obtain ⟨v', w', hw, hf⟩ := bind_ok.mp hf
    obtain ⟨rfl, rfl⟩ := pure_ok.mp hf
    have hp := freeEnt_ok h htab h0 hb hw
    refine ⟨hp, ?_, ?_⟩
    · have hv : (Slot.ent t i).Valid := ⟨htab, hi⟩
      rw [hp, h.own.ptr_freeAt_of_not_on h.mem hv htab.valid]
      exact fun hon => Slot.not_on_of_ent_on hon (Slot.On.refl t)
    · rw [hp, freeAt, if_neg h0, freeCell, setCell_ent, ptr_clear]
      unfold setData
      simp only [update_self]
      rfl

theorem tableEmpty_iff (h0 : V.ptr n t ≠ 0) :
    tableEmpty (V.data (V.ptr n t)) = true ↔ V.TableEmpty n t := by
  unfold tableEmpty Vol.TableEmpty
  rw [List.all_eq_true, NINDIRECT_eq]
  constructor
  · intro h i hi
    have := h i (List.mem_range.mpr hi)
    rwa [beq_iff_eq, entry_data h0] at this
  · intro h i hi
    rw [beq_iff_eq, entry_data h0]
    exact h i (List.mem_range.mp hi)

theorem freeDouble_ok (h : Pending L S dev n ip s) (hf : freeDouble ip dfbn s = .ok u s') :
    s'.pend L dev n ip =
      ((s.pend L dev n ip).freeAt n (.ent (.ent (.top 13) (dfbn / 256)) (dfbn % 256))).sweep n
        (.ent (.top 13) (dfbn / 256)) := by
  have hroot : (Slot.top 13).IsTable := Or.inr rfl
  -- Without the second-level table there is nothing to free.
  have hnone : (s.pend L dev n ip).ptr n (.ent (.top 13) (dfbn / 256)) = 0 →
      s.pend L dev n ip =
        ((s.pend L dev n ip).freeAt n (.ent (.ent (.top 13) (dfbn / 256)) (dfbn % 256))).sweep n
          (.ent (.top 13) (dfbn / 256)) := by
    intro h0
    rw [freeAt_of_eq (ptr_ent_of_eq h0)]
    unfold sweep
    split_ifs
    · rw [freeAt_of_eq h0]
    · rfl
  unfold freeDouble at hf
  replace hf := inodeAt_then hf
  rw [h.dev_eq, NDIRECT_eq, NINDIRECT_eq, h.addr (by omega)] at hf
  split_ifs at hf with hr0 hk
  · obtain ⟨-, rfl⟩ := pure_ok.mp hf
    exact hnone (ptr_ent_of_eq hr0)
  · obtain ⟨dbuf, t, -, hf⟩ := bind_ok.mp hf
    exact absurd hf throw_ok
  · obtain ⟨dbuf, t, hr, hf⟩ := bind_ok.mp hf
    obtain ⟨rfl, rfl⟩ := h.readTable_ok (t := .top 13) hroot hr0 hr
    rw [entry_data hr0] at hf
    split_ifs at hf with ht0
    · obtain ⟨-, rfl⟩ := pure_ok.mp hf
      exact hnone ht0
    · have htab : (Slot.ent (.top 13) (dfbn / 256)).IsTable := ⟨rfl, by omega⟩
      obtain ⟨buf, t, hr', hf⟩ := bind_ok.mp hf
      obtain ⟨rfl, rfl⟩ := h.readTable_ok htab ht0 hr'
      obtain ⟨buf, w, he, hf⟩ := bind_ok.mp hf
      have hj : dfbn % 256 < 256 := by omega
      have hv : (Slot.ent (.ent (.top 13) (dfbn / 256)) (dfbn % 256)).Valid := ⟨htab, hj⟩
      obtain ⟨hp, hptr, hbuf⟩ := freeEntry_ok h htab hj ht0 he
      have hw : Pending L S dev n ip w :=
        h.of_reduce (LocalOn.freeEntry.of_ok h.dev_eq he)
          (by rw [hp]; exact h.own.reduce_freeAt h.mem hv)
      rw [← hptr] at hbuf ht0
      have hempty := tableEmpty_iff (n := n) ht0
      rw [← hbuf] at hempty
      rw [← hp]
      unfold sweep
      split_ifs at hf with hc
      · obtain ⟨v, w', hb, hf⟩ := bind_ok.mp hf
        rw [if_pos (hempty.mp hc)]
        -- The root is where it was, with the entries it had.
        have hrv := hroot.valid
        have hroot_eq : (w.pend L dev n ip).ptr n (.top 13) =
            (s.pend L dev n ip).ptr n (.top 13) := by
          rw [hp, h.own.ptr_freeAt_of_not_on h.mem hv hrv]
          rintro ⟨⟩
        have hroot_data : (w.pend L dev n ip).data ((s.pend L dev n ip).ptr n (.top 13)) =
            (s.pend L dev n ip).data ((s.pend L dev n ip).ptr n (.top 13)) := by
          rw [hp]
          unfold freeAt
          split_ifs with he0
          · rfl
          · unfold freeCell
            rw [setCell_data_of_ne]
            · rfl
            · rintro t' i ⟨⟩ hcon
              rw [ptr_clear] at hcon
              cases (h.own.inj h.mem h.mem hrv htab.valid hr0 hcon).2
        rw [← hptr] at hb
        rw [← hroot_eq] at hf hroot_data
        rw [← hroot_data] at hf
        exact freeEnt_ok hw hroot ht0 hb hf
      · obtain ⟨-, rfl⟩ := pure_ok.mp hf
        rw [if_neg (fun hc' => hc (hempty.mpr hc'))]

/-- One turn of the loop drops one block. -/
theorem freeBlock_ok (h : Pending L S dev n ip s) (hf : freeBlock ip bn s = .ok u s') :
    s'.pend L dev n ip = (s.pend L dev n ip).dropBlock n bn := by
  unfold freeBlock at hf
  rw [NDIRECT_eq, NINDIRECT_eq] at hf
  unfold dropBlock Slot.ofBlock
  split_ifs at hf with h1 h2
  · rw [if_pos (by omega), if_pos h1]
    exact freeTable_ok h (by omega) hf
  · rw [if_pos (by omega), if_neg h1, if_pos (by omega)]
    exact freeSingle_ok h hf
  · rw [show bn - 12 - 256 = bn - 268 by omega] at hf
    rw [if_neg (by omega), if_neg h1, if_neg (by omega)]
    exact freeDouble_ok h hf

/-- The loop of `itrunc`. -/
theorem itruncLoop_ok (hcov : ∀ b < lo, V.ptr n (Slot.ofBlock b) ≠ 0) :
    ∀ {k bn : Nat} {s : KState} {u : Unit}, Pending L S dev n ip s → lo ≤ bn →
      bn + k ≤ 65804 → Dropped L.IsData S n lo bn V (s.pend L dev n ip) →
      itruncLoop ip k bn s = .ok u s' →
      Pending L S dev n ip s' ∧ Dropped L.IsData S n lo (bn + k) V (s'.pend L dev n ip)
  | 0, bn, s, u, h, hlo, hmax, hd, hf => by
      obtain ⟨-, rfl⟩ := pure_ok.mp hf
      exact ⟨h, hd⟩
  | k + 1, bn, s, u, h, hlo, hmax, hd, hf => by
      obtain ⟨v, t, hb, hf⟩ := bind_ok.mp hf
      have hstep := hd.step h.mem hlo (by omega) hcov
      rw [← freeBlock_ok h hb] at hstep
      have ht := LocalOn.freeBlock.of_ok h.dev_eq hb
      have hp : Pending L S dev n ip t :=
        ⟨by rw [ht.sb]; exact h.fits, by rw [ht.slot_dev]; exact h.dev_eq, h.mem,
          hstep.reduce.own⟩
      have := itruncLoop_ok hcov hp (by omega) (by omega) hstep hf
      rwa [show bn + 1 + k = bn + (k + 1) by omega] at this

/-- The clean-up of one table. -/
theorem onlyIf_freeTable_ok (h : Pending L S dev n ip s) {c : Prop} [Decidable c]
    (hi : i < 14) (hf : onlyIf c (freeTable ip i) s = .ok u s') :
    Pending L S dev n ip s' ∧ s'.pend L dev n ip =
      if c then (s.pend L dev n ip).freeAt n (.top i) else s.pend L dev n ip := by
  unfold onlyIf at hf
  split_ifs at hf ⊢ with hc
  · have hp := freeTable_ok h hi hf
    refine ⟨h.of_reduce (LocalOn.freeTable.of_ok h.dev_eq hf) ?_, hp⟩
    rw [hp]
    exact h.own.reduce_freeAt h.mem hi
  · obtain ⟨-, rfl⟩ := pure_ok.mp hf
    exact ⟨h, rfl⟩

theorem itruncBlocks_ok (h : Pending L S dev n ip s) (hlohi : lo ≤ hi)
    (hmax : hi ≤ 65804) (hcov : ∀ b < lo, (s.pend L dev n ip).ptr n (Slot.ofBlock b) ≠ 0)
    (hf : itruncBlocks ip hi lo s = .ok u s') :
    Pending L S dev n ip s' ∧
      Truncated L.IsData S n lo hi (s.pend L dev n ip) (s'.pend L dev n ip) := by
  unfold itruncBlocks at hf
  rw [NDIRECT_eq, NINDIRECT_eq] at hf
  obtain ⟨v, t₁, hloop, hf⟩ := bind_ok.mp hf
  obtain ⟨h₁, hd⟩ := itruncLoop_ok hcov h le_rfl (by omega) (.refl h.own) hloop
  rw [show lo + (hi - lo) = hi by omega] at hd
  obtain ⟨v', t₂, h12, h13⟩ := bind_ok.mp hf
  obtain ⟨h₂, hp₂⟩ := onlyIf_freeTable_ok h₁ (by omega) h12
  obtain ⟨h₃, hp₃⟩ := onlyIf_freeTable_ok h₂ (by omega) h13
  have htr := hd.truncated h.mem hlohi
  unfold dropTables at htr
  rw [← hp₂, ← hp₃] at htr
  exact ⟨h₃, htr⟩

end Loop

/-! ## `itrunc` -/

section Itrunc

theorem blocksFor_eq (h : size ≤ maxSize) : blocksFor size = blocks size := by
  unfold blocksFor blocks
  simp only [maxSize] at h
  rw [BSIZE_eq, Nat.mod_eq_of_lt (by omega)]
  omega

theorem blocks_mono {a : Nat} (h : a ≤ b) : blocks a ≤ blocks b :=
  Nat.div_le_div_right (by omega)

theorem blocks_le (h : size ≤ maxSize) : blocks size ≤ 65804 := by
  unfold blocks
  simp only [maxSize] at h
  omega

/-- `itrunc` cuts a file that is longer than `size` to its first `size` bytes. -/
theorem itrunc_ok (h : Sound L S dev s)
    (hd : (s.inodeTable ip).dev = dev) (hn : (s.inodeTable ip).inum = n)
    (hlt : n < L.ninodes) (hS : S n) (hcov : Covered (s.vol L dev) n)
    (hf : itrunc ip size s = .ok u s') :
    Owner L S dev n ip s' ∧
      (((s.vol L dev).ino n).size ≤ size ∧ s'.disk = s.disk ∨
        size < ((s.vol L dev).ino n).size ∧
          ((s'.vol L dev).ino n).size = size ∧
          Truncated L.IsData S n (blocks size) (blocks ((s.vol L dev).ino n).size) (s.vol L dev)
            (s'.vol L dev)) := by
  have htouch := LocalOn.itrunc.of_ok hd hf
  unfold itrunc at hf
  obtain ⟨v, t, hl, hf⟩ := bind_ok.mp hf
  have ho := Owner.of_ilock hl h hd hn hlt hS
  have hvol : t.vol L dev = s.vol L dev := ilock_vol hl
  replace hf := inodeAt_then hf
  rw [ho.size, hvol] at hf
  split_ifs at hf with hsize
  · obtain ⟨-, rfl⟩ := pure_ok.mp hf
    exact ⟨ho, Or.inl ⟨hsize, (ilock_disk hl).1⟩⟩
  · have hmax := hcov.size_le
    rw [blocksFor_eq hmax, blocksFor_eq (by omega)] at hf
    obtain ⟨w, t₁, hb, hf⟩ := bind_ok.mp hf
    obtain ⟨w', t₂, hset, hup⟩ := bind_ok.mp hf
    have hmono : blocks size ≤ blocks ((s.vol L dev).ino n).size := blocks_mono (by omega)
    -- The blocks are given back.
    obtain ⟨hp₁, htr⟩ : Pending L S dev n ip t₁ ∧
        Truncated L.IsData S n (blocks size) (blocks ((s.vol L dev).ino n).size) (s.vol L dev)
          (t₁.pend L dev n ip) := by
      have hpend : t.pend L dev n ip = s.vol L dev := by rw [ho.pend_eq, hvol]
      unfold onlyIf at hb
      split_ifs at hb with hless
      · have := itruncBlocks_ok ho.pending hmono (blocks_le hmax)
          (by rw [hpend]; exact fun b hb => hcov.ptr_ne (by omega)) hb
        rwa [hpend] at this
      · obtain ⟨-, rfl⟩ := pure_ok.mp hb
        rw [hpend]
        refine ⟨ho.pending, .refl h.own, fun _ _ => rfl, fun hex => ⟨.refl, ?_⟩⟩
        rwa [show blocks size = blocks ((s.vol L dev).ino n).size by omega]
    -- The inode is written back with the new size.
    have htouch₁ : Touches dev ip s t₁ :=
      (LocalOn.ilock.of_ok hd hl).trans
        (LocalOn.of_ok (.onlyIf .itruncBlocks) ho.dev_eq hb)
    have htouch₂ : Touches dev ip s t₂ :=
      htouch₁.trans (LocalOn.of_ok (.setDinode _) hp₁.dev_eq hset)
    have hs₂ := setDinode_ok hset
    obtain ⟨hvol', htab⟩ := iupdate_ok (L := L) (n := n) hup (by rw [htouch₂.sb]; exact h.fits)
      (by rw [htouch₂.slot_dev, hd]) (by rw [htouch₂.slot_inum, hn]) hlt
    have hsmall : size < 2 ^ 32 := by
      simp only [maxSize] at hmax
      omega
    have hview : (t₂.inodeTable ip).dinode.view =
        { (t₁.inodeTable ip).dinode.view with size := size } := by
      rw [hs₂, putInode_self, Dinode.view_setSize _ hsmall]
    have hvol'' : s'.vol L dev = (t₁.pend L dev n ip).setSize n size := by
      rw [hvol', hview, hs₂, putInode_vol]
      unfold pend setSize setIno
      simp only [update_self, update_idem]
    have htr' : Truncated L.IsData S n (blocks size) (blocks ((s.vol L dev).ino n).size)
        (s.vol L dev) (s'.vol L dev) := by
      rw [hvol'']
      refine ⟨htr.reduce.setSize size, fun hσ hlt => ?_, fun hex => ?_⟩
      · rw [ptr_setSize]
        exact htr.keep hσ hlt
      · obtain ⟨h1, h2⟩ := htr.exact hex
        refine ⟨h1.setSize size, fun σ hσ => ?_⟩
        rw [ptr_setSize]
        exact h2 σ hσ
    refine ⟨{ toReady := ?_, mem := hS, own := htr'.reduce.own, reserved := ?_ },
      Or.inr ⟨by omega, ?_, htr'⟩⟩
    · have hready : Ready L dev n ip t := ho.toReady
      have htouch' : Touches dev ip t s' :=
        ((LocalOn.of_ok (.onlyIf .itruncBlocks) ho.dev_eq hb).trans
          (LocalOn.of_ok (.setDinode _) hp₁.dev_eq hset)).trans
          (LocalOn.iupdate.of_ok (by rw [htouch₂.slot_dev, hd]) hup)
      refine hready.next htouch' (fun m hm => ?_) ?_
      · rw [htr'.reduce.ino hm, hvol]
      · rw [htab, hview, hvol'', setSize_ino_self, pend_ino_self]
    · rw [htouch.sb]
      exact htr'.reduce.reserved hS h.own h.reserved
    · rw [hvol'', setSize_ino_self]

end Itrunc

end Dmaos
