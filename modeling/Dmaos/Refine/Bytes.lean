import Dmaos.Refine.Progress
import Dmaos.Refine.Trunc
import Dmaos.Volume.Format
import Dmaos.Kernel.Run

/-!
# Files are byte arrays

The file system keeps the contents of files in blocks, found through the block
map.  To its callers a file is a list of bytes.  `FileOp.content` and
`FileOp.result` say what writing, truncating and reading mean for such a list.
The code refines them: `FileOp.exec_ok` for one operation on one inode, with
the other files unchanged, and `execAll_refines` for a run of operations.
-/

namespace Dmaos

open Fault Function Vol

variable {S : Nat → Prop} {n size m hi : Nat} {op : FileOp}

/-! ## Contents -/

section Contents

variable {R : Nat → Prop} {V V' : Vol}

theorem byte_block_lt {i : Nat} (hi : i < size) : i / 1024 < blocks size := by
  unfold blocks
  omega

/-- Two files with the same size and the same bytes. -/
theorem Vol.content_congr (hsize : (V'.ino n).size = (V.ino n).size)
    (hbyte : ∀ i < (V.ino n).size, V'.byteAt n i = V.byteAt n i) : V'.content n = V.content n := by
  unfold content
  rw [hsize]
  exact List.map_congr_left fun i hi => hbyte i (List.mem_range.mp hi)

/-- A file that keeps its blocks keeps its contents. -/
theorem Covered.content_eq (h : Covered V n) (hino : V'.ino n = V.ino n)
    (hptr : ∀ {σ : Slot}, σ.Valid → V'.ptr n σ = V.ptr n σ)
    (hdata : ∀ {σ : Slot}, σ.Leaf → V.ptr n σ ≠ 0 → V'.data (V.ptr n σ) = V.data (V.ptr n σ)) :
    Covered V' n ∧ V'.content n = V.content n := by
  have hmax := h.size_le
  simp only [maxSize] at hmax
  have hlt : ∀ {bn : Nat}, bn < blocks (V.ino n).size → bn < 65804 := by
    intro bn hbn
    have := blocks_le h.size_le
    omega
  refine ⟨⟨by rw [hino]; exact h.size_le, fun {bn} hbn => ?_⟩,
    content_congr (by rw [hino]) fun i hi => ?_⟩
  · rw [hino] at hbn
    rw [hptr (Slot.valid_ofBlock (hlt hbn))]
    exact h.ptr_ne hbn
  · have hbn := byte_block_lt hi
    unfold byteAt
    rw [hptr (Slot.valid_ofBlock (hlt hbn)),
      hdata (Slot.leaf_ofBlock (hlt hbn)) (h.ptr_ne hbn)]

variable {P : Slot → Prop} {off len : Nat} {src : Buf}

/-- Growing one file leaves the others alone. -/
theorem Extend.content_other (h : Extend R S n P V V') (hmn : m ≠ n) (hm : S m)
    (hc : Covered V m) : Covered V' m ∧ V'.content m = V.content m :=
  hc.content_eq (h.ino hmn) (h.ptr_other hmn hm) (h.other hmn hm)

/-- Shrinking one file leaves the others alone. -/
theorem Reduce.content_other (h : Reduce R S n V V') (hmn : m ≠ n) (hm : S m)
    (hc : Covered V m) : Covered V' m ∧ V'.content m = V.content m := by
  refine hc.content_eq (h.ino hmn) (h.ptr_other hmn hm) fun hσ h0 => ?_
  have he := h.ptr_other hmn hm hσ.valid
  have := h.data hm hσ (by rwa [he])
  rwa [he] at this

theorem Written.covered (hn : S n) (h : Written R S n off len src P V V') (hc : Covered V n)
    (hoff : off ≤ (V.ino n).size) (hmax : off + len ≤ maxSize)
    (hsize : (V'.ino n).size = max (V.ino n).size (off + len)) : Covered V' n := by
  have hle := hc.size_le
  refine ⟨by rw [hsize]; omega, fun {bn} hbn => ?_⟩
  rw [hsize] at hbn
  by_cases hold : bn < blocks (V.ino n).size
  · have := blocks_le hle
    exact h.toExtend.ptr_ne hn (Slot.valid_ofBlock (by omega)) (hc.ptr_ne hold)
  · -- The first byte of a new block has been written.
    have h1 : off ≤ bn * 1024 ∧ bn * 1024 < off + len := by
      unfold blocks at hbn hold
      omega
    have := (h.here h1.1 h1.2).1
    rwa [Nat.mul_div_cancel bn (by omega)] at this

/-- A write replaces a stretch of the file, which grows if it must. -/
theorem Written.content (h : Written R S n off len src P V V') (hc : Covered V n)
    (hoff : off ≤ (V.ino n).size) (hsize : (V'.ino n).size = max (V.ino n).size (off + len)) :
    V'.content n = (V.content n).take off ++ src.slice 0 len ++ (V.content n).drop (off + len) := by
  have hle := hc.size_le
  apply List.ext_getElem
  · simp [hsize]
    omega
  · intro i h1 h2
    rw [length_content, hsize] at h1
    rw [getElem_content]
    by_cases hlo : i < off
    · rw [List.getElem_append_left (by simp; omega), List.getElem_append_left (by simp; omega),
        List.getElem_take, getElem_content]
      have hbn := byte_block_lt (Nat.lt_of_lt_of_le hlo hoff)
      have := blocks_le hle
      exact h.old (by omega) (hc.ptr_ne hbn) (by omega)
    · by_cases hhi : i < off + len
      · rw [(h.here (by omega) hhi).2, List.getElem_append_left (by simp; omega),
          List.getElem_append_right (by simp; omega)]
        simp only [Buf.slice, List.getElem_map, List.getElem_range, List.length_take,
          length_content, Nat.zero_add]
        congr 1
        omega
      · have hi : i < (V.ino n).size := by omega
        have hbn := byte_block_lt hi
        have := blocks_le hle
        rw [h.old (by omega) (hc.ptr_ne hbn) (by omega), List.getElem_append_right (by simp; omega),
          List.getElem_drop, getElem_content]
        congr 1
        simp
        omega

theorem Truncated.covered (h : Truncated R S n (blocks size) hi V V')
    (hc : Covered V n) (hlt : size < (V.ino n).size) (hsize : (V'.ino n).size = size) :
    Covered V' n := by
  have hle := hc.size_le
  refine ⟨by omega, fun {bn} hbn => ?_⟩
  rw [hsize] at hbn
  have hmono : blocks size ≤ blocks (V.ino n).size := blocks_mono (by omega)
  have := blocks_le hle
  rw [h.keep (Slot.valid_ofBlock (by omega)) (by rwa [Slot.rank_ofBlock])]
  exact hc.ptr_ne (by omega)

theorem Truncated.content (hn : S n) (h : Truncated R S n (blocks size) hi V V') (hc : Covered V n)
    (hlt : size < (V.ino n).size) (hsize : (V'.ino n).size = size) :
    V'.content n = (V.content n).take size := by
  have hle := hc.size_le
  apply List.ext_getElem
  · simp [hsize]
    omega
  · intro i h1 h2
    rw [length_content, hsize] at h1
    rw [getElem_content, List.getElem_take, getElem_content]
    have hbn := byte_block_lt h1
    have hmono : blocks size ≤ blocks (V.ino n).size := blocks_mono (by omega)
    have := blocks_le hle
    have hv : (Slot.ofBlock (i / 1024)).Leaf := Slot.leaf_ofBlock (by omega)
    have he := h.keep hv.valid (by rwa [Slot.rank_ofBlock])
    have hd := h.reduce.data hn hv (by rw [he]; exact hc.ptr_ne (by omega))
    unfold byteAt
    rw [hd, he]

end Contents

/-! ## Operations on a list of bytes -/

/-- A call of `writei`, `itrunc` or `readi`. -/
inductive FileOp where
  | write (src : Buf) (off len : UInt32)
  | trunc (size : UInt32)
  | read (off len : UInt32)

namespace FileOp

/-- The bytes of the file afterwards. -/
def content : FileOp → List Byte → List Byte
  | write src off len, c =>
    if off.toNat ≤ c.length ∧ off.toNat + len.toNat ≤ MAXFILE * BSIZE then
      c.take off.toNat ++ src.slice 0 len.toNat ++ c.drop (off.toNat + len.toNat)
    else c
  | trunc size, c => c.take size.toNat
  | read _ _, c => c

/-- The value returned and the bytes read; `used` says that the inode is in use. -/
def result (used : Bool) : FileOp → List Byte → Int × List Byte
  | write _ off len, c =>
    if off.toNat ≤ c.length ∧ off.toNat + len.toNat ≤ MAXFILE * BSIZE then (len.toNat, [])
    else (-1, [])
  | trunc _, _ => (0, [])
  | read off len, c =>
    if used ∧ off.toNat ≤ c.length ∧ off.toNat + len.toNat < 2 ^ 32 then
      (((min len.toNat (c.length - off.toNat) : Nat) : Int), (c.drop off.toNat).take len.toNat)
    else (-1, [])

/-- The operations that have nothing to do: reading, writing outside the
bounds, truncating to a larger size. -/
def Quiet : FileOp → List Byte → Prop
  | write _ off len, c => ¬ (off.toNat ≤ c.length ∧ off.toNat + len.toNat ≤ MAXFILE * BSIZE)
  | trunc size, c => c.length ≤ size.toNat
  | read _ _, _ => True

/-- The operation as the kernel performs it. -/
def exec (ip : Fin NINODE) : FileOp → Kern (Int × List Byte)
  | write src off len => do
    let r ← writei ip src off.toNat len.toNat
    return (r, [])
  | trunc size => do
    itrunc ip size.toNat
    return (0, [])
  | read off len => readi ip off.toNat len.toNat

end FileOp

/-- A run of operations, each on a slot of the inode cache. -/
def execAll : List (Fin NINODE × FileOp) → Kern (List (Int × List Byte))
  | [] => return []
  | (ip, op) :: ops => do
    let r ← op.exec ip
    let rs ← execAll ops
    return r :: rs

/-- A run of operations on byte arrays: the arrays afterwards and the results. -/
def applyAll (used : Nat → Bool) :
    List (Nat × FileOp) → (Nat → List Byte) → (Nat → List Byte) × List (Int × List Byte)
  | [], F => (F, [])
  | (n, op) :: ops, F =>
    let rest := applyAll used ops (update F n (op.content (F n)))
    (rest.1, op.result (used n) (F n) :: rest.2)

/-! ## Refinement -/

/-- Is inode `n` in use? -/
def inUse (V : Vol) (n : Nat) : Bool := (V.ino n).type != FT_UNUSED

/-- Device `dev` is consistent: the regions do not overlap, every block that
an inode in `S` refers to is a marked data block referred to once, these inodes
have the blocks their sizes call for, and the inodes in use are among them. -/
structure Consistent (L : Layout) (S : Nat → Prop) (dev : Nat) (s : KState) : Prop
    extends Sound L S dev s where
  lt : ∀ {n : Nat}, S n → n < L.ninodes
  covered : ∀ {n : Nat}, S n → Covered (s.vol L dev) n
  used : ∀ {n : Nat}, inUse (s.vol L dev) n = true → S n

section Refinement

variable {L : Layout} {dev : Nat} {ip : Fin NINODE} {s s' : KState}

theorem LocalOn.exec : LocalOn dev ip (op.exec ip) := by
  cases op with
  | write src off len => exact bind .writei fun _ => pure
  | trunc size => exact bind .itrunc fun _ => pure
  | read off len => exact .readi

/-- The device is as before. -/
theorem Touches.vol_eq (h : Touches dev ip s s') (hdisk : s'.disk = s.disk) :
    s'.vol L dev = s.vol L dev := by
  unfold KState.vol KState.blk
  rw [h.sb, hdisk]

/-- What an operation on inode `n` leaves of a consistent device. -/
theorem Consistent.next (h : Consistent L S dev s) (hS : S n)
    (ho : Owner L S dev n ip s') (hcov : Covered (s'.vol L dev) n)
    (hother : ∀ m, m ≠ n → (s'.vol L dev).ino m = (s.vol L dev).ino m ∧
      (S m → Covered (s'.vol L dev) m)) : Consistent L S dev s' where
  toSound := ho.toSound
  lt hm := h.lt hm
  covered := by
    intro m hm
    by_cases hmn : m = n
    · rw [hmn]
      exact hcov
    · exact (hother m hmn).2 hm
  used := by
    intro m hm
    by_cases hmn : m = n
    · rw [hmn]
      exact hS
    · unfold inUse at hm
      rw [(hother m hmn).1] at hm
      exact h.used hm

/-- One operation. -/
theorem FileOp.exec_ok {r : Int × List Byte} (h : Consistent L S dev s)
    (hd : (s.inodeTable ip).dev = dev) (hn : (s.inodeTable ip).inum = n) (hS : S n)
    (hx : op.exec ip s = .ok r s') :
    Consistent L S dev s' ∧
      r = op.result (inUse (s.vol L dev) n) ((s.vol L dev).content n) ∧
      (s'.vol L dev).content n = op.content ((s.vol L dev).content n) ∧
      (∀ m, S m → m ≠ n → (s'.vol L dev).content m = (s.vol L dev).content m) ∧
      (∀ m, ((s'.vol L dev).ino m).type = ((s.vol L dev).ino m).type) ∧
      (op.Quiet ((s.vol L dev).content n) → s'.disk = s.disk) := by
  have ht := LocalOn.exec.of_ok hd hx
  have hlt := h.lt hS
  have hcov := h.covered hS
  -- An operation that leaves the device alone.
  have quiet : Owner L S dev n ip s' → s'.disk = s.disk → Consistent L S dev s' ∧
      s'.vol L dev = s.vol L dev := by
    intro ho hdisk
    have hvol := ht.vol_eq (L := L) hdisk
    exact ⟨h.next hS ho (by rw [hvol]; exact hcov)
      fun m _ => ⟨by rw [hvol], fun hm => by rw [hvol]; exact h.covered hm⟩, hvol⟩
  cases op with
  | write src off len =>
      obtain ⟨r', t, hw, hx⟩ := bind_ok.mp hx
      obtain ⟨rfl, rfl⟩ := pure_ok.mp hx
      have hspec := writei_ok h.toSound hd hn hlt hS hw
      rw [← MAXFILE_mul_BSIZE] at hspec
      simp only [FileOp.content, FileOp.result, FileOp.Quiet, length_content]
      obtain ⟨ho, ⟨hout, rfl, hdisk⟩ | ⟨hin, rfl, hW, hsize⟩⟩ := hspec
      · obtain ⟨hc, hvol⟩ := quiet ho hdisk
        rw [if_neg hout, if_neg hout, hvol]
        exact ⟨hc, rfl, rfl, fun _ _ _ => rfl, fun _ => rfl, fun _ => hdisk⟩
      · rw [if_pos hin, if_pos hin]
        refine ⟨?_, rfl, hW.content hcov hin.1 hsize,
          fun m hm hmn => (hW.content_other hmn hm (h.covered hm)).2, fun m => ?_,
          fun hc => absurd hin hc⟩
        · exact h.next hS ho (hW.covered hS hcov hin.1 hin.2 hsize)
            fun m hmn => ⟨hW.ino hmn, fun hm => (hW.content_other hmn hm (h.covered hm)).1⟩
        · by_cases hmn : m = n
          · rw [hmn, hW.same.1]
          · rw [hW.ino hmn]
  | trunc size =>
      obtain ⟨u, t, hf, hx⟩ := bind_ok.mp hx
      obtain ⟨rfl, rfl⟩ := pure_ok.mp hx
      have hspec := itrunc_ok h.toSound hd hn hlt hS hcov hf
      simp only [FileOp.content, FileOp.result, FileOp.Quiet, length_content]
      obtain ⟨ho, ⟨hle, hdisk⟩ | ⟨hless, hsize, htr⟩⟩ := hspec
      · obtain ⟨hc, hvol⟩ := quiet ho hdisk
        rw [hvol, List.take_of_length_le (by rw [length_content]; exact hle)]
        exact ⟨hc, trivial, rfl, fun _ _ _ => rfl, fun _ => rfl, fun _ => hdisk⟩
      · refine ⟨?_, trivial, htr.content hS hcov hless hsize,
          fun m hm hmn => (htr.reduce.content_other hmn hm (h.covered hm)).2, fun m => ?_,
          fun hc => ?_⟩
        · exact h.next hS ho (htr.covered hcov hless hsize)
            fun m hmn => ⟨htr.reduce.ino hmn,
              fun hm => (htr.reduce.content_other hmn hm (h.covered hm)).1⟩
        · by_cases hmn : m = n
          · rw [hmn, htr.reduce.same.1]
          · rw [htr.reduce.ino hmn]
        · omega
  | read off len =>
      obtain ⟨ho, hdisk, -, hr⟩ := readi_ok h.toSound hd hn hlt hS len.toNat_lt hx
      obtain ⟨hc, hvol⟩ := quiet ho hdisk
      refine ⟨hc, ?_, by rw [hvol]; rfl, fun _ _ _ => by rw [hvol], fun _ => by rw [hvol],
        fun _ => hdisk⟩
      rw [hr]
      simp only [FileOp.result, length_content, inUse, bne_iff_ne]
      rfl

/-- A run of operations, from any point of a run on. -/
theorem execAll_ok {used : Nat → Bool} (num : Fin NINODE → Nat) :
    ∀ {ops : List (Fin NINODE × FileOp)} {rs : List (Int × List Byte)} {F : Nat → List Byte}
      {s s' : KState}, Consistent L S dev s →
      (∀ m, inUse (s.vol L dev) m = used m) →
      (∀ o ∈ ops, (s.inodeTable o.1).dev = dev ∧ (s.inodeTable o.1).inum = num o.1 ∧
        S (num o.1)) →
      (∀ m, S m → (s.vol L dev).content m = F m) → execAll ops s = .ok rs s' →
      Consistent L S dev s' ∧ (∀ ip, (s'.inodeTable ip).dev = (s.inodeTable ip).dev ∧
        (s'.inodeTable ip).inum = (s.inodeTable ip).inum) ∧
        (∀ m, inUse (s'.vol L dev) m = used m) ∧
        rs = (applyAll used (ops.map fun o => (num o.1, o.2)) F).2 ∧
        ∀ m, S m → (s'.vol L dev).content m =
          (applyAll used (ops.map fun o => (num o.1, o.2)) F).1 m
  | [], rs, F, s, s', h, hused, _, hF, hx => by
      obtain ⟨rfl, rfl⟩ := pure_ok.mp hx
      exact ⟨h, fun _ => ⟨rfl, rfl⟩, hused, rfl, hF⟩
  | (ip, op) :: ops, rs, F, s, s', h, hused, hops, hF, hx => by
      obtain ⟨r, t, hop, hx⟩ := bind_ok.mp hx
      obtain ⟨rs', t', hrest, hx⟩ := bind_ok.mp hx
      obtain ⟨rfl, rfl⟩ := pure_ok.mp hx
      obtain ⟨hd, hn, hS⟩ := hops (ip, op) List.mem_cons_self
      obtain ⟨hc, hr, hself, hother, htype, -⟩ := FileOp.exec_ok h hd hn hS hop
      have ht := LocalOn.exec.of_ok hd hop
      have hused' : ∀ m, inUse (t.vol L dev) m = used m := by
        intro m
        rw [← hused m]
        unfold inUse
        rw [htype m]
      have hops' : ∀ o ∈ ops, (t.inodeTable o.1).dev = dev ∧
          (t.inodeTable o.1).inum = num o.1 ∧ S (num o.1) := by
        intro o ho
        obtain ⟨h1, h2, h3⟩ := hops o (List.mem_cons_of_mem _ ho)
        obtain ⟨h4, h5, -⟩ := ht.slot o.1
        exact ⟨h4.trans h1, h5.trans h2, h3⟩
      have hF' : ∀ m, S m → (t.vol L dev).content m =
          update F (num ip) (op.content (F (num ip))) m := by
        intro m hm
        by_cases hmn : m = num ip
        · rw [hmn, update_self, hself, hF _ hS]
        · rw [update_of_ne hmn, hother m hm hmn, hF m hm]
      obtain ⟨h1, h2, h3, h4, h5⟩ := execAll_ok num hc hused' hops' hF' hrest
      refine ⟨h1, fun jp => ?_, h3, ?_, h5⟩
      · obtain ⟨h6, h7, -⟩ := ht.slot jp
        exact ⟨(h2 jp).1.trans h6, (h2 jp).2.trans h7⟩
      · show r :: rs' = op.result (used (num ip)) (F (num ip)) :: _
        rw [hr, hused, hF _ hS, h4]

/-- The block-level file system refines byte arrays.  A run of operations on
inodes of a consistent device that returns gives the results, and leaves the
contents, that the run has on byte arrays.  After it, an operation that has
nothing to do leaves the device as it is. -/
theorem execAll_refines {ops : List (Fin NINODE × FileOp)} {rs : List (Int × List Byte)}
    (h : Consistent L S dev s)
    (hops : ∀ o ∈ ops, (s.inodeTable o.1).dev = dev ∧ S (s.inodeTable o.1).inum)
    (hx : execAll ops s = .ok rs s') :
    rs = (applyAll (inUse (s.vol L dev)) (ops.map fun o => ((s.inodeTable o.1).inum, o.2))
        (s.vol L dev).content).2 ∧
      (∀ m, S m → (s'.vol L dev).content m =
        (applyAll (inUse (s.vol L dev)) (ops.map fun o => ((s.inodeTable o.1).inum, o.2))
          (s.vol L dev).content).1 m) ∧
      (∀ m, inUse (s'.vol L dev) m = inUse (s.vol L dev) m) ∧
      ∀ (ip : Fin NINODE) (op : FileOp) (r : Int × List Byte) (s'' : KState),
        (s.inodeTable ip).dev = dev → S (s.inodeTable ip).inum →
        op.Quiet ((s'.vol L dev).content (s.inodeTable ip).inum) → op.exec ip s' = .ok r s'' →
        s''.disk = s'.disk := by
  obtain ⟨h1, h2, h3, h4, h5⟩ := execAll_ok (fun ip => (s.inodeTable ip).inum) h
    (fun _ => rfl) (fun o ho => ⟨(hops o ho).1, rfl, (hops o ho).2⟩) (fun _ _ => rfl) hx
  refine ⟨h4, h5, h3, fun ip op r s'' hd hS hq hop => ?_⟩
  have hn := (h2 ip).2
  refine (FileOp.exec_ok h1 ((h2 ip).1.trans hd) hn hS hop).2.2.2.2.2 hq

end Refinement

/-- A state in which slot 0 is for the root directory of a formatted device. -/
def rootHeld : KState :=
  { coldState (formatted []) (formatted [[(1, dot), (1, dotdot)]]) with
    sb := fun _ => Superblock.ofBuf formattedSuper
    inodeTable := fun i =>
      { dev := 1, inum := 1, ref := if i = 0 then 1 else 0, valid := false, dinode := Buf.zero } }

theorem rootHeld_vol : rootHeld.vol formattedLayout 1 = formattedVol [[(1, dot), (1, dotdot)]] :=
  rfl

theorem rootHeld_online : Online formattedLayout 1 rootHeld :=
  ⟨by decide, formatted_iblock_lt, fun hb => hb.2⟩

theorem rootHeld_holds : Holds 1 1 0 rootHeld := ⟨by decide, rfl, rfl⟩

theorem rootHeld_consistent : Consistent formattedLayout (fun n => 0 < n ∧ n ≤ 1) 1 rootHeld := by
  have hdirs : ∀ l ∈ [[(1, dot), (1, dotdot)]], l.length ≤ 32 := by simp
  refine
    { fits := formatted_fits, uniq := ?_, coh := fun _ hv => (nomatch hv), own := ?_,
      reserved := formatted_reserved, lt := ?_, covered := ?_, used := ?_ }
  · intro i j hi hj _ _
    have key : ∀ k : Fin NINODE, 0 < (rootHeld.inodeTable k).ref → k = 0 := by
      intro k hk
      by_contra h
      simp [rootHeld, h] at hk
    rw [key i hi, key j hj]
  · exact formatted_own (by decide) hdirs
  · intro n hn
    show n < 8
    omega
  · intro n hn
    obtain rfl : n = 1 := by omega
    have hino := formatted_ino (k := 0) (by decide) hdirs 1
    rw [if_pos (by decide)] at hino
    refine ⟨?_, fun hbn => ?_⟩
    · rw [rootHeld_vol, hino]
      decide
    · rw [rootHeld_vol, hino] at hbn
      rw [rootHeld_vol, formatted_ptr (by decide) hdirs (by decide)
        (Slot.valid_ofBlock (by simp [blocks] at hbn; omega))]
      simp [blocks] at hbn
      subst hbn
      decide
  · intro n hn
    unfold inUse at hn
    rw [rootHeld_vol, formatted_ino (k := 0) (by decide) hdirs] at hn
    split_ifs at hn with h
    · exact h
    · cases hn

/-- Four operations on the root directory of a formatted device. -/
theorem execAll_refines_rootHeld :
    ∃ rs s', execAll [(0, .write (Buf.ofList [1, 2, 3]) 62 3), (0, .read 60 9), (0, .trunc 63),
        (0, .write Buf.zero 64 1)] rootHeld = .ok rs s' ∧
      rs = (applyAll (inUse (rootHeld.vol formattedLayout 1))
        [(1, .write (Buf.ofList [1, 2, 3]) 62 3), (1, .read 60 9), (1, .trunc 63),
          (1, .write Buf.zero 64 1)] (rootHeld.vol formattedLayout 1).content).2 := by
  have hok : returned (execAll [(0, .write (Buf.ofList [1, 2, 3]) 62 3), (0, .read 60 9),
      (0, .trunc 63), (0, .write Buf.zero 64 1)] rootHeld) = true := by
    decide +kernel
  obtain ⟨rs, s', h⟩ := exists_ok hok
  refine ⟨rs, s', h, (execAll_refines rootHeld_consistent ?_ h).1⟩
  intro o _
  exact ⟨rfl, Nat.one_pos, Nat.le_refl 1⟩

end Dmaos
