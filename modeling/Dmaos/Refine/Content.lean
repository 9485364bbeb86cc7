import Dmaos.Refine.BlockMap

/-!
# Reading and writing files

What `readi` and `writei` do, said of the volume.  A turn of the loop of
`writei` finds or allocates one block and replaces a part of it; the turns
add up to `Written` (`writeiLoop_ok`).  `readi` returns the bytes of the file
(`readi_ok`).

`Covered` says that an inode has all the blocks its size calls for.  Reading
needs it: `bmap` stops the kernel at a missing block.  Writing keeps it.
-/

namespace Dmaos

open Fault KState Vol

variable {V : Vol} {n dev bn offset off len : Nat} {ip : Fin NINODE} {src : Buf} {L : Layout}
  {S : Nat → Prop} {s s' : KState}

/-- The blocks a file of `size` bytes needs. -/
def blocks (size : Nat) : Nat := (size + 1023) / 1024

/-- The size of the largest file: `MAXFILE * BSIZE`. -/
abbrev maxSize : Nat := 65804 * 1024

theorem BSIZE_eq : BSIZE = 1024 := rfl

theorem MAXFILE_mul_BSIZE : MAXFILE * BSIZE = maxSize := rfl

/-- The inode has all the blocks its size calls for. -/
structure Covered (V : Vol) (n : Nat) : Prop where
  size_le : (V.ino n).size ≤ maxSize
  ptr_ne : ∀ {bn : Nat}, bn < blocks (V.ino n).size → V.ptr n (Slot.ofBlock bn) ≠ 0

/-- The bytes of a file. -/
def Vol.content (V : Vol) (n : Nat) : List Byte :=
  (List.range (V.ino n).size).map (V.byteAt n)

@[simp] theorem Vol.length_content (V : Vol) (n : Nat) : (V.content n).length = (V.ino n).size := by
  simp [content]

theorem Vol.getElem_content {i : Nat} (h : i < (V.content n).length) :
    (V.content n)[i] = V.byteAt n i := by
  simp [content]

/-- The part of a block that is read are bytes of the file, and the others
follow. -/
theorem Vol.slice_append_bytes (V : Vol) (n offset len : Nat) :
    (V.data (V.ptr n (Slot.ofBlock (offset / 1024)))).slice (offset % 1024)
        (min (1024 - offset % 1024) len) ++
      (List.range (len - min (1024 - offset % 1024) len)).map
        (fun i => V.byteAt n (offset + min (1024 - offset % 1024) len + i)) =
      (List.range len).map fun i => V.byteAt n (offset + i) := by
  set m := min (1024 - offset % 1024) len with hm
  have hsplit : len = m + (len - m) := by omega
  conv_rhs => rw [hsplit, List.range_add, List.map_append, List.map_map]
  refine congrArg₂ (· ++ ·) (List.map_congr_left fun i hi => ?_)
    (List.map_congr_left fun i hi => ?_)
  · have hi' := List.mem_range.mp hi
    have h1 : (offset + i) / 1024 = offset / 1024 := by omega
    have h2 : (offset + i) % 1024 = offset % 1024 + i := by omega
    unfold byteAt
    rw [h1, h2]
  · show _ = V.byteAt n (offset + (m + i))
    rw [Nat.add_assoc]

section Frames

theorem LocalOn.nonzero {inum addr : Nat} : LocalOn dev ip (nonzero inum bn addr) :=
  ite (throw _) pure

theorem LocalOn.bmap : LocalOn dev ip (bmap ip bn) :=
  inodeAt fun _ _ => ite .nonzero
    (ite (bind .nonzero fun _ => bind (readBlock _ _) fun _ => .nonzero)
      (ite (bind .nonzero fun _ => bind (readBlock _ _) fun _ =>
          bind .nonzero fun _ => bind (readBlock _ _) fun _ => .nonzero)
        (throw _)))

theorem LocalOn.readiLoop : ∀ {k offset n : Nat}, LocalOn dev ip (readiLoop ip k offset n)
  | 0, _, _ => pure
  | _ + 1, _, _ => ite pure (inodeAt fun _ _ => bind .bmap fun _ =>
      bind (readBlock _ _) fun _ => bind .readiLoop fun _ => pure)

theorem LocalOn.readi : LocalOn dev ip (readi ip offset n) :=
  bind .ilock fun _ => inodeAt fun _ _ => ite pure (ite pure
    (bind .readiLoop fun _ => pure))

theorem LocalOn.writeiLoop :
    ∀ {k tot offset : Nat}, LocalOn dev ip (writeiLoop ip src n k tot offset)
  | 0, _, _ => pure
  | _ + 1, _, _ => by
      refine ite pure (inodeAt fun I hI => bind .bmapAlloc fun _ =>
        bind (readBlock _ _) fun _ => bind ?_ fun _ => .writeiLoop)
      rw [hI]
      exact writeBlock _ _

theorem LocalOn.writei : LocalOn dev ip (writei ip src offset n) :=
  bind .ilock fun _ => inodeAt fun _ _ => ite pure (ite pure
    (bind .writeiLoop fun _ => inodeAt fun _ _ =>
      ite (bind (setDinode _) fun _ => bind .iupdate fun _ => pure) pure))

end Frames

/-! ## `writei` -/

section Write

/-- The block found by `bmap_alloc` is written. -/
theorem Owner.writeBlock_leaf (h : Owner L S dev n ip s) {τ : Slot} (hτ : τ.Leaf)
    (h0 : (s.vol L dev).ptr n τ ≠ 0) {buf : Buf} {u : Unit}
    (hw : writeBlock dev ((s.vol L dev).ptr n τ) buf s = .ok u s') :
    s'.vol L dev = (s.vol L dev).setData ((s.vol L dev).ptr n τ) buf ∧
      Owner L S dev n ip s' := by
  have ht : Touches dev ip s s' := LocalOn.of_ok (LocalOn.writeBlock _ _) h.dev_eq hw
  have hs' := writeBlock_ok hw
  rw [(h.readBlock_ptr hτ.valid h0).1] at hs'
  have hvol : s'.vol L dev = (s.vol L dev).setData ((s.vol L dev).ptr n τ) buf := by
    rw [hs']
    unfold vol
    rw [putBlock_sb, putBlock_blk]
    exact volOf_data h.fits (h.own.region h.mem hτ.valid h0) _
  have htab : s'.inodeTable = s.inodeTable := by rw [hs']; rfl
  refine ⟨hvol, { toReady := ?_, mem := h.mem, own := ?_, reserved := ?_ }⟩
  · refine h.toReady.next ht (fun m _ => by rw [hvol]; rfl) ?_
    rw [htab, hvol, h.view]
    rfl
  · rw [hvol]
    exact h.own.setData h.mem hτ h0 buf
  · rw [ht.sb, hvol]
    exact h.reserved

/-- The loop of `writei`.  `V` is the volume before it; `tot` bytes have been
written. -/
theorem writeiLoop_ok (hmax : off + len ≤ maxSize) :
    ∀ {k tot stop : Nat} {s : KState}, Owner L S dev n ip s → tot ≤ len → len - tot ≤ k →
      Written L.IsData S n off tot src (·.rank < blocks (off + len)) V (s.vol L dev) →
      writeiLoop ip src len k tot (off + tot) s = .ok stop s' →
      Owner L S dev n ip s' ∧ stop = off + len ∧
        Written L.IsData S n off len src (·.rank < blocks (off + len)) V (s'.vol L dev) ∧
        ((s'.vol L dev).ino n).size = ((s.vol L dev).ino n).size
  | 0, tot, stop, s, ho, htot, hk, hW, h => by
      obtain ⟨rfl, rfl⟩ := pure_ok.mp h
      have : tot = len := by omega
      subst this
      exact ⟨ho, rfl, hW, rfl⟩
  | k + 1, tot, stop, s, ho, htot, hk, hW, h => by
      unfold writeiLoop at h
      split_ifs at h with hdone
      · obtain ⟨rfl, rfl⟩ := pure_ok.mp h
        have : tot = len := by omega
        subst this
        exact ⟨ho, rfl, hW, rfl⟩
      · replace h := inodeAt_then h
        rw [ho.dev_eq, BSIZE_eq] at h
        obtain ⟨b, t₁, hb, h⟩ := bind_ok.mp h
        obtain ⟨hbn, hg⟩ := bmapAlloc_ok ho hb
        replace h := readBlock_then h
        obtain ⟨u, t₃, hw, h⟩ := bind_ok.mp h
        have hleaf := Slot.leaf_ofBlock hbn
        have h0 : (t₁.vol L dev).ptr n (Slot.ofBlock ((off + tot) / 1024)) ≠ 0 := by
          rw [hg.ptr_eq]
          exact hg.ne
        rw [← hg.ptr_eq, (hg.toOwner.readBlock_ptr hleaf.valid h0).1,
          (hg.toOwner.readBlock_ptr hleaf.valid h0).2] at hw
        obtain ⟨hvol, ho'⟩ := hg.toOwner.writeBlock_leaf hleaf h0 hw
        -- The positions on the way to the block are below the end of the write.
        have hgrow : Grow L.IsData S n (·.rank < blocks (off + len)) (s.vol L dev)
            (t₁.vol L dev) := by
          refine hg.grow.mono fun ρ hρ => ?_
          have := hρ.rank_le
          simp only [blocks]
          omega
        have hm : (off + tot) % 1024 + min (1024 - (off + tot) % 1024) (len - tot) ≤ 1024 := by
          omega
        have hstep := hW.step ho.mem hgrow hbn h0 hm
        rw [← hvol] at hstep
        rw [Nat.add_assoc] at h
        obtain ⟨h1, h2, h3, h4⟩ := writeiLoop_ok hmax ho' (by omega) (by omega) hstep h
        refine ⟨h1, h2, h3, h4.trans ?_⟩
        rw [hvol]
        exact hgrow.size

/-- `writei` outside the bounds of a file changes nothing; inside them it
writes the bytes and lets the file grow. -/
theorem writei_ok {r : Int} (h : Sound L S dev s)
    (hd : (s.inodeTable ip).dev = dev) (hn : (s.inodeTable ip).inum = n)
    (hlt : n < L.ninodes) (hS : S n) (hw : writei ip src off len s = .ok r s') :
    Owner L S dev n ip s' ∧
      (¬ (off ≤ ((s.vol L dev).ino n).size ∧ off + len ≤ maxSize) ∧ r = -1 ∧ s'.disk = s.disk ∨
        (off ≤ ((s.vol L dev).ino n).size ∧ off + len ≤ maxSize) ∧ r = len ∧
          Written L.IsData S n off len src (·.rank < blocks (off + len)) (s.vol L dev)
            (s'.vol L dev) ∧
          ((s'.vol L dev).ino n).size = max ((s.vol L dev).ino n).size (off + len)) := by
  unfold writei at hw
  obtain ⟨u, t, hl, hw⟩ := bind_ok.mp hw
  have ho := Owner.of_ilock hl h hd hn hlt hS
  have hvol : t.vol L dev = s.vol L dev := ilock_vol hl
  replace hw := inodeAt_then hw
  rw [ho.size, hvol, MAXFILE_mul_BSIZE] at hw
  split_ifs at hw with h1 h2
  · obtain ⟨rfl, rfl⟩ := pure_ok.mp hw
    exact ⟨ho, Or.inl ⟨by simp only [maxSize]; omega, rfl, (ilock_disk hl).1⟩⟩
  · obtain ⟨rfl, rfl⟩ := pure_ok.mp hw
    exact ⟨ho, Or.inl ⟨by omega, rfl, (ilock_disk hl).1⟩⟩
  · obtain ⟨stop, t₁, hloop, hw⟩ := bind_ok.mp hw
    have h0 : Written L.IsData S n off 0 src (·.rank < blocks (off + len)) (s.vol L dev)
        (t.vol L dev) := by
      rw [hvol]
      exact .refl h.own
    obtain ⟨ho₁, rfl, hW, hsize⟩ :=
      writeiLoop_ok (by omega) ho (Nat.zero_le len) (by omega) h0 hloop
    rw [hvol] at hsize
    replace hw := inodeAt_then hw
    rw [ho₁.size, hsize] at hw
    split_ifs at hw with hgrow
    · obtain ⟨u₁, t₃, hset, hw⟩ := bind_ok.mp hw
      obtain ⟨u₂, t₄, hup, hw⟩ := bind_ok.mp hw
      obtain ⟨rfl, rfl⟩ := pure_ok.mp hw
      obtain ⟨hr, hvol₄⟩ := ho₁.toReady.setDinode_iupdate hset hup
      rw [Dinode.view_setSize _ (by simp only [maxSize] at h2; omega), ho₁.view] at hvol₄
      have hvol₄' : t₄.vol L dev = (t₁.vol L dev).setSize n (off + len) := hvol₄
      have hW' := hW.setSize (off + len)
      rw [← hvol₄'] at hW'
      have ht : Touches dev ip t₁ t₄ :=
        (LocalOn.of_ok (LocalOn.setDinode _) ho₁.dev_eq hset).trans
          (LocalOn.iupdate.of_ok
            (by rw [(LocalOn.of_ok (LocalOn.setDinode _) ho₁.dev_eq hset).slot_dev, ho₁.dev_eq])
            hup)
      refine ⟨{ toReady := hr, mem := hS, own := hW'.own, reserved := ?_ },
        Or.inr ⟨by omega, rfl, hW', ?_⟩⟩
      · rw [ht.sb, hvol₄', Reserved, setSize_bm]
        exact ho₁.reserved
      · rw [hvol₄', setSize_ino_self]
        show off + len = _
        omega
    · obtain ⟨rfl, rfl⟩ := pure_ok.mp hw
      exact ⟨ho₁, Or.inr ⟨by omega, rfl, hW, by rw [hsize]; omega⟩⟩

end Write

/-! ## `readi` -/

section Read

theorem readiLoop_ok (ho : Owner L S dev n ip s) :
    ∀ {k offset len : Nat} {bytes : List Byte} {s' : KState}, len ≤ k →
      readiLoop ip k offset len s = .ok bytes s' →
      s = s' ∧ bytes = (List.range len).map fun i => (s.vol L dev).byteAt n (offset + i)
  | 0, offset, len, bytes, s', hk, h => by
      obtain ⟨rfl, rfl⟩ := pure_ok.mp h
      have : len = 0 := by omega
      subst this
      exact ⟨rfl, rfl⟩
  | k + 1, offset, len, bytes, s', hk, h => by
      unfold readiLoop at h
      split_ifs at h with hdone
      · obtain ⟨rfl, rfl⟩ := pure_ok.mp h
        subst hdone
        exact ⟨rfl, rfl⟩
      · replace h := inodeAt_then h
        rw [ho.dev_eq, BSIZE_eq] at h
        obtain ⟨b, t₁, hb, h⟩ := bind_ok.mp h
        obtain ⟨rfl, hbn, hptr, hb0⟩ := bmap_ok ho hb
        replace h := readBlock_then h
        obtain ⟨rest, t₃, hloop, h⟩ := bind_ok.mp h
        obtain ⟨rfl, hrest⟩ := readiLoop_ok ho (by omega) hloop
        obtain ⟨rfl, rfl⟩ := pure_ok.mp h
        refine ⟨rfl, ?_⟩
        rw [hptr] at hb0
        obtain ⟨hmod, hdata⟩ := ho.readBlock_ptr (Slot.valid_ofBlock hbn) hb0
        rw [hptr, hmod, hdata, hrest]
        exact slice_append_bytes ..

/-- `readi` returns the bytes of the file from the offset on. -/
theorem readi_ok {r : Int × List Byte} (h : Sound L S dev s)
    (hd : (s.inodeTable ip).dev = dev) (hn : (s.inodeTable ip).inum = n)
    (hlt : n < L.ninodes) (hS : S n) (hlen : len < 2 ^ 32) (hr : readi ip off len s = .ok r s') :
    Owner L S dev n ip s' ∧ s'.disk = s.disk ∧ s'.writes = s.writes ∧
      r = if ((s.vol L dev).ino n).type ≠ 0 ∧ off ≤ ((s.vol L dev).ino n).size ∧
            off + len < 2 ^ 32 then
          (((min len (((s.vol L dev).ino n).size - off) : Nat) : Int),
            (((s.vol L dev).content n).drop off).take len)
        else (-1, []) := by
  unfold readi at hr
  obtain ⟨u, t, hl, hr⟩ := bind_ok.mp hr
  have ho := Owner.of_ilock hl h hd hn hlt hS
  have hvol : t.vol L dev = s.vol L dev := ilock_vol hl
  replace hr := inodeAt_then hr
  have hsize := (t.inodeTable ip).dinode.size_lt
  rw [ho.size, hvol] at hsize
  rw [ho.size, ho.type, hvol] at hr
  rw [show FT_UNUSED = 0 from rfl] at hr
  split_ifs at hr with h1 h2 h3
  · obtain ⟨rfl, rfl⟩ := pure_ok.mp hr
    exact ⟨ho, (ilock_disk hl).1, (ilock_disk hl).2, by rw [if_neg (by tauto)]⟩
  · obtain ⟨rfl, rfl⟩ := pure_ok.mp hr
    exact ⟨ho, (ilock_disk hl).1, (ilock_disk hl).2, by rw [if_neg (by omega)]⟩
  all_goals
    obtain ⟨bytes, t₁, hloop, hr⟩ := bind_ok.mp hr
    obtain ⟨rfl, hbytes⟩ := readiLoop_ok ho le_rfl hloop
    obtain ⟨rfl, rfl⟩ := pure_ok.mp hr
    refine ⟨ho, (ilock_disk hl).1, (ilock_disk hl).2, ?_⟩
    rw [if_pos ⟨h1, by omega, by omega⟩, hbytes, hvol]
    refine Prod.ext ?_ ?_
    · show ((_ : Nat) : Int) = ((_ : Nat) : Int)
      congr 1
      omega
    · apply List.ext_getElem
      · simp
        omega
      · intro i hi1 hi2
        simp only [List.getElem_map, List.getElem_range, List.getElem_take, List.getElem_drop,
          getElem_content]

end Read

end Dmaos
