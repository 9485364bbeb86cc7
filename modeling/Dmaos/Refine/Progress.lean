import Dmaos.Refine.Content

/-!
# Reading does not stop the kernel

The specifications of `ilock`, `bmap` and `readi` say what they do when they
return.  They return on every inode that has its blocks, if the blocks of the
inode table and the data blocks are on the device.
-/

namespace Dmaos

open Fault Vol

/-- The device exists, and it is large enough for the layout. -/
structure Online (L : Layout) (dev : Nat) (s : KState) : Prop where
  dev_lt : dev < 2
  inode : ∀ {n : Nat}, n < L.ninodes → iblock (s.sb dev) n < (s.disk dev).capacity
  data : ∀ {b : Nat}, L.IsData b → b < (s.disk dev).capacity

theorem Online.congr {L : Layout} {dev : Nat} {s s' : KState} (h : Online L dev s)
    (hsb : s'.sb = s.sb) (hcap : (s'.disk dev).capacity = (s.disk dev).capacity) :
    Online L dev s' where
  dev_lt := h.dev_lt
  inode hn := by rw [hsb, hcap]; exact h.inode hn
  data hb := by rw [hcap]; exact h.data hb

section Returns

variable {L : Layout} {S : Nat → Prop} {dev n : Nat} {ip : Fin NINODE} {s : KState}

theorem inodeAt_returns : Returns (inodeAt ip) s := .of_ok rfl

theorem superblock_returns : Returns (superblock dev) s := .of_ok rfl

theorem readBlock_returns {b : Nat} (hd : dev < 2) (hb : b % 2 ^ 31 < (s.disk dev).capacity) :
    Returns (readBlock dev b) s :=
  .of_ok (a := s.blk dev (b % 2 ^ 31)) (t := s) (if_pos ⟨hd, hb⟩)

/-- Slot `ip` holds inode `n` of the volume `V`, and the blocks of the inode are
on device `dev`. -/
structure Loads (V : Vol) (dev n : Nat) (ip : Fin NINODE) (s : KState) : Prop where
  dev_eq : (s.inodeTable ip).dev = dev
  view : (s.inodeTable ip).dinode.view = V.ino n
  block : ∀ {σ : Slot}, σ.Valid → V.ptr n σ ≠ 0 →
    readBlock dev (V.ptr n σ) s = .ok (V.data (V.ptr n σ)) s

theorem Owner.loads (h : Owner L S dev n ip s) (ho : Online L dev s) :
    Loads (s.vol L dev) dev n ip s where
  dev_eq := h.dev_eq
  view := h.view
  block hσ h0 := by
    obtain ⟨hmod, hdata⟩ := h.readBlock_ptr hσ h0
    rw [← hdata]
    unfold readBlock
    rw [hmod, if_pos ⟨ho.dev_lt, ho.data (h.own.region h.mem hσ h0)⟩]

theorem nonzero_eq {inum bn addr : Nat} (h : addr ≠ 0) : nonzero inum bn addr s = .ok addr s := by
  unfold nonzero
  rw [if_neg h]
  rfl

section Loads

variable {V : Vol}

theorem Loads.addr (h : Loads V dev n ip s) {i : Nat} (hi : i < 14) :
    (s.inodeTable ip).dinode.addr i = V.ptr n (.top i) := by
  rw [ptr_top, ← h.view, Dinode.view_addr hi]

/-- An entry of a table of the map. -/
theorem entry_ptr {t : Slot} (h0 : V.ptr n t ≠ 0) (i : Nat) :
    entry (V.data (V.ptr n t)) i = V.ptr n (.ent t i) := (ptr_ent_of_ne h0).symm

/-- `bmap` follows the map to a block the file has. -/
theorem Loads.bmap (h : Loads V dev n ip s) {bn : Nat} (hbn : bn < 65804)
    (h0 : V.ptr n (Slot.ofBlock bn) ≠ 0) : bmap ip bn s = .ok (V.ptr n (Slot.ofBlock bn)) s := by
  unfold Dmaos.bmap
  rw [run_bind (show inodeAt ip s = .ok (s.inodeTable ip) s from rfl), h.dev_eq, NDIRECT_eq,
    NINDIRECT_eq, NDINDIRECT_eq]
  rcases Nat.lt_or_ge bn 12 with h1 | h1
  · have hslot : Slot.ofBlock bn = .top bn := if_pos h1
    rw [hslot] at h0 ⊢
    rw [if_pos h1, h.addr (by omega)]
    exact nonzero_eq h0
  rcases Nat.lt_or_ge bn 268 with h2 | h2
  · -- Through the single-indirect table.
    have hslot : Slot.ofBlock bn = .ent (.top 12) (bn - 12) := by
      rw [Slot.ofBlock, if_neg (by omega), if_pos h2]
    rw [hslot] at h0 ⊢
    have h0' := ptr_parent_ne h0
    rw [if_neg (by omega), if_pos (by omega), h.addr (by omega), run_bind (nonzero_eq h0'),
      run_bind (h.block (Slot.valid_top (by omega)) h0'), entry_ptr h0']
    exact nonzero_eq h0
  · -- Through the double-indirect table.
    have hslot : Slot.ofBlock bn =
        .ent (.ent (.top 13) ((bn - 268) / 256)) ((bn - 268) % 256) := by
      rw [Slot.ofBlock, if_neg (by omega), if_neg (by omega)]
    rw [hslot] at h0 ⊢
    have h0' := ptr_parent_ne h0
    have h0'' := ptr_parent_ne h0'
    have htable : Slot.IsTable (.ent (.top 13) ((bn - 268) / 256)) := ⟨rfl, by omega⟩
    rw [if_neg (by omega), if_neg (by omega), if_pos (by omega), h.addr (by omega),
      Nat.sub_sub bn 12 256, run_bind (nonzero_eq h0''),
      run_bind (h.block (Slot.valid_top (by omega)) h0''), entry_ptr h0'',
      run_bind (nonzero_eq h0'), run_bind (h.block htable.valid h0'), entry_ptr h0']
    exact nonzero_eq h0

theorem Loads.readiLoop (h : Loads V dev n ip s) (hc : Covered V n) :
    ∀ {k offset len : Nat}, len ≤ k → offset + len ≤ (V.ino n).size →
      readiLoop ip k offset len s =
        .ok ((List.range len).map fun i => V.byteAt n (offset + i)) s
  | 0, offset, len, hk, hlen => by
      obtain rfl : len = 0 := by omega
      rfl
  | k + 1, offset, len, hk, hlen => by
      unfold Dmaos.readiLoop
      split_ifs with h0
      · rw [h0]
        rfl
      · have hmax := hc.size_le
        simp only [maxSize] at hmax
        have hptr : V.ptr n (Slot.ofBlock (offset / 1024)) ≠ 0 :=
          hc.ptr_ne (by simp only [blocks]; omega)
        have hbn : offset / 1024 < 65804 := by omega
        rw [run_bind (show inodeAt ip s = .ok (s.inodeTable ip) s from rfl), h.dev_eq, BSIZE_eq,
          run_bind (h.bmap hbn hptr), run_bind (h.block (Slot.valid_ofBlock hbn) hptr),
          run_bind (h.readiLoop hc (by omega) (by omega)), slice_append_bytes]
        rfl

/-- `readi` reads a whole file. -/
theorem Loads.readi (h : Loads V dev n ip s) (hc : Covered V n)
    (href : 1 ≤ (s.inodeTable ip).ref) (hvalid : (s.inodeTable ip).valid = true)
    (htype : (V.ino n).type ≠ FT_UNUSED) :
    readi ip 0 (V.ino n).size s = .ok ((V.ino n).size, V.content n) s := by
  have hmax := hc.size_le
  simp only [maxSize] at hmax
  have hty : (s.inodeTable ip).dinode.type = (V.ino n).type := by rw [← h.view]; rfl
  have hsz : (s.inodeTable ip).dinode.size = (V.ino n).size := by rw [← h.view]; rfl
  unfold Dmaos.readi
  rw [run_bind (ilock_of_valid href hvalid),
    run_bind (show inodeAt ip s = .ok (s.inodeTable ip) s from rfl), hty, hsz, if_neg htype,
    if_neg (by omega), if_neg (by omega)]
  rw [run_bind (h.readiLoop hc le_rfl (by omega))]
  simp only [Nat.zero_add]
  rfl

end Loads

/-- The block a position of the map points to can be read. -/
theorem Owner.readBlock_returns (h : Owner L S dev n ip s) (ho : Online L dev s) {σ : Slot}
    (hσ : σ.Valid) (h0 : (s.vol L dev).ptr n σ ≠ 0) :
    Returns (readBlock dev ((s.vol L dev).ptr n σ)) s := .of_ok ((h.loads ho).block hσ h0)

/-- `bmap` returns on a block the file has. -/
theorem bmap_returns (h : Owner L S dev n ip s) (ho : Online L dev s) {bn : Nat}
    (hbn : bn < 65804) (h0 : (s.vol L dev).ptr n (Slot.ofBlock bn) ≠ 0) :
    Returns (bmap ip bn) s := .of_ok ((h.loads ho).bmap hbn h0)

theorem readiLoop_returns (h : Owner L S dev n ip s) (ho : Online L dev s)
    (hc : Covered (s.vol L dev) n) :
    ∀ {k offset len : Nat}, offset + len ≤ ((s.vol L dev).ino n).size →
      Returns (readiLoop ip k offset len) s
  | 0, offset, len, hlen => .pure
  | k + 1, offset, len, hlen => by
      unfold readiLoop
      split_ifs with h0
      · exact .pure
      · have hmax := hc.size_le
        simp only [maxSize] at hmax
        have hptr : (s.vol L dev).ptr n (Slot.ofBlock (offset / 1024)) ≠ 0 :=
          hc.ptr_ne (by simp only [blocks]; omega)
        have hbn : offset / 1024 < 65804 := by omega
        refine .bind inodeAt_returns fun I t hI => ?_
        obtain ⟨rfl, rfl⟩ := inodeAt_ok hI
        rw [h.dev_eq, BSIZE_eq]
        refine .bind (bmap_returns h ho hbn hptr) fun b t hb => ?_
        obtain ⟨rfl, -, rfl, -⟩ := bmap_ok h hb
        refine .bind (h.readBlock_returns ho (Slot.valid_ofBlock hbn) hptr) fun buf t hr => ?_
        obtain ⟨rfl, -⟩ := readBlock_ok hr
        refine .bind (readiLoop_returns h ho hc ?_) fun rest t _ => .pure
        omega

/-- `ilock` returns on a slot in use whose inode is in a block of the device. -/
theorem Holds.ilock_returns (h : Holds dev n ip s) (hd : dev < 2)
    (hb : iblock (s.sb dev) n % 2 ^ 31 < (s.disk dev).capacity) : Returns (ilock ip) s := by
  refine .bind inodeAt_returns fun I t hI => ?_
  obtain ⟨rfl, rfl⟩ := inodeAt_ok hI
  have href := h.ref
  split_ifs with h1 h2
  · omega
  · exact .pure
  · rw [h.dev_eq, h.inum_eq]
    refine .bind superblock_returns fun sb t hsb => ?_
    obtain ⟨rfl, rfl⟩ := superblock_ok hsb
    exact .bind (readBlock_returns hd hb) fun buf t _ => .modify _

theorem ilock_returns (h : Holds dev n ip s) (hL : L.Fits (s.sb dev)) (ho : Online L dev s)
    (hlt : n < L.ninodes) : Returns (ilock ip) s :=
  h.ilock_returns ho.dev_lt (by rw [Nat.mod_eq_of_lt (hL.inode_lt hlt)]; exact ho.inode hlt)

/-- `readi` returns on an inode that has its blocks. -/
theorem readi_returns {off len : Nat} (h : Sound L S dev s) (hh : Holds dev n ip s)
    (ho : Online L dev s) (hlt : n < L.ninodes) (hS : S n) (hc : Covered (s.vol L dev) n) :
    Returns (readi ip off len) s := by
  refine .bind (ilock_returns hh h.fits ho hlt) fun u t hl => ?_
  have hown := Owner.of_ilock hl h hh.dev_eq hh.inum_eq hlt hS
  have hvol : t.vol L dev = s.vol L dev := ilock_vol hl
  have ho' : Online L dev t :=
    ho.congr (LocalOn.ilock.of_ok hh.dev_eq hl).sb (by rw [(ilock_disk hl).1])
  refine .bind inodeAt_returns fun I t' hI => ?_
  obtain ⟨rfl, rfl⟩ := inodeAt_ok hI
  have hsize := (t.inodeTable ip).dinode.size_lt
  split_ifs with h1 h2
  · exact .pure
  · exact .pure
  all_goals
    refine .bind (readiLoop_returns hown ho' (by rwa [hvol]) ?_) fun _ _ _ => .pure
    rw [← hown.size]
    omega

end Returns

end Dmaos
