import Dmaos.Refine.Bytes

/-!
# Well-formed volumes

`WF L S V` is the invariant of the file system on a volume: the inodes in `S`
own their blocks and have exactly the blocks their sizes call for, every inode
in use is in `S`, and so is every inode that an entry of a directory names.

The set `S` is larger than the set of inodes in use.  An inode that has been
removed while it was open is still written and read through its descriptors,
so it must not lose the ownership of its blocks.  `S` grows when an inode is
allocated and never shrinks.

A volume changes in four ways: bytes are written to an inode (`Wrote`), an
inode is cut (`Cut`), an inode is allocated (`Vol.allocIno`) or retired
(`Vol.retireIno`).  Each keeps the invariant, and leaves the other files as
they are (`SameFile`).
-/

namespace Dmaos

open Function Vol

variable {V V' : Vol} {n m k : Nat} {d e : Dirent} {L : Layout} {S : Nat → Prop}

/-! ## Directory entries -/

/-- Entry `k` of directory `n`. -/
def Vol.dirent (V : Vol) (n k : Nat) : Dirent := fun i => V.byteAt n (32 * k + i)

/-- The number of entries of directory `n`. -/
def Vol.nents (V : Vol) (n : Nat) : Nat := (V.ino n).size / 32

/-- The inode number and the name of an entry. -/
def Vol.ent (V : Vol) (n k : Nat) : Nat × List Byte :=
  ((V.dirent n k).inum, cstr (V.dirent n k).name DIRSIZ)

/-- Is inode `n` a directory? -/
def Vol.IsDir (V : Vol) (n : Nat) : Prop := (V.ino n).type = FT_DIRECTORY

instance (V : Vol) (n : Nat) : Decidable (V.IsDir n) := by
  unfold Vol.IsDir
  infer_instance

theorem Vol.IsDir.type_eq (h : V.IsDir n) :
    (V.ino n).type = FT_DIRECTORY := h

theorem Vol.IsDir.inUse (h : V.IsDir n) : inUse V n = true := by
  simp only [Dmaos.inUse, bne_iff_ne]
  rw [h]
  decide

/-- The inode number and the name depend on the 32 bytes of an entry only. -/
theorem Dirent.inum_congr (h : ∀ i < 32, d i = e i) : d.inum = e.inum :=
  Buf.le16_congr (h 0 (by omega)) (h 1 (by omega))

theorem Dirent.name_congr (h : ∀ i < 32, d i = e i) : cstr d.name DIRSIZ = cstr e.name DIRSIZ := by
  unfold cstr
  congr 1
  refine Buf.slice_congr fun i hi => h _ ?_
  simp only [DIRSIZ] at hi
  omega

/-! ## The invariant -/

/-- The inode has exactly the blocks its size calls for. -/
structure Vol.Shaped (V : Vol) (n : Nat) : Prop where
  size_le : (V.ino n).size ≤ maxSize
  exact : V.Exact n (blocks (V.ino n).size)

theorem Vol.Shaped.covered (h : V.Shaped n) : Covered V n := by
  refine ⟨h.size_le, fun {bn} hbn => ?_⟩
  have := blocks_le h.size_le
  rw [h.exact _ (Slot.valid_ofBlock (by omega)), Slot.rank_ofBlock]
  exact hbn

/-- The inodes in `S` are well formed, and include those in use and those
directories name. -/
structure WF (L : Layout) (S : Nat → Prop) (V : Vol) : Prop where
  own : Own L.IsData S V
  lt : ∀ {n : Nat}, S n → n < L.ninodes
  shaped : ∀ {n : Nat}, S n → V.Shaped n
  used : ∀ {n : Nat}, inUse V n = true → S n
  root : S 1
  entries : ∀ {n k : Nat}, V.IsDir n → k < V.nents n → (V.ent n k).1 ≠ 0 → S (V.ent n k).1

/-- File `m` is the same in two volumes. -/
structure SameFile (V V' : Vol) (m : Nat) : Prop where
  ino : V'.ino m = V.ino m
  ptr : ∀ {σ : Slot}, σ.Valid → V'.ptr m σ = V.ptr m σ
  content : V'.content m = V.content m

section Same

variable {V'' : Vol}

theorem SameFile.refl (V : Vol) (m : Nat) : SameFile V V m := ⟨rfl, fun _ => rfl, rfl⟩

theorem SameFile.trans (h₁ : SameFile V V' m) (h₂ : SameFile V' V'' m) : SameFile V V'' m :=
  ⟨h₂.ino.trans h₁.ino, fun hσ => (h₂.ptr hσ).trans (h₁.ptr hσ), h₂.content.trans h₁.content⟩

theorem SameFile.byte (h : SameFile V V' m) {i : Nat} (hi : i < (V.ino m).size) :
    V'.byteAt m i = V.byteAt m i := by
  have h1 : i < (V'.content m).length := by rwa [length_content, h.ino]
  have h2 : i < (V.content m).length := by rwa [length_content]
  rw [← getElem_content h1, ← getElem_content h2]
  exact List.getElem_of_eq h.content h1

theorem SameFile.nents (h : SameFile V V' m) : V'.nents m = V.nents m := by
  unfold Vol.nents
  rw [h.ino]

theorem SameFile.dirent (h : SameFile V V' m) (hk : k < V.nents m) :
    ∀ i < 32, V'.dirent m k i = V.dirent m k i := by
  intro i hi
  refine h.byte ?_
  unfold Vol.nents at hk
  omega

theorem SameFile.ent (h : SameFile V V' m) (hk : k < V.nents m) : V'.ent m k = V.ent m k :=
  Prod.ext (Dirent.inum_congr (h.dirent hk)) (Dirent.name_congr (h.dirent hk))

theorem SameFile.shaped (h : SameFile V V' m) (hs : V.Shaped m) : V'.Shaped m := by
  refine ⟨by rw [h.ino]; exact hs.size_le, fun σ hσ => ?_⟩
  rw [h.ptr hσ, h.ino]
  exact hs.exact σ hσ

theorem SameFile.inUse (h : SameFile V V' m) : inUse V' m = inUse V m := by
  unfold Dmaos.inUse
  rw [h.ino]

theorem SameFile.isDir (h : SameFile V V' m) : V'.IsDir m ↔ V.IsDir m := by
  unfold Vol.IsDir
  rw [h.ino]

end Same

/-- The rule by which a change of inode `n` keeps the invariant. -/
theorem WF.next (h : WF L S V)
    (hown : Own L.IsData S V') (hn : S n) (hino : ∀ m, m ≠ n → V'.ino m = V.ino m)
    (hother : ∀ m, m ≠ n → S m → SameFile V V' m) (hshaped : V'.Shaped n)
    (hent : V'.IsDir n → ∀ k < V'.nents n, (V'.ent n k).1 ≠ 0 → S (V'.ent n k).1) : WF L S V' where
  own := hown
  lt := h.lt
  shaped := by
    intro m hm
    by_cases hmn : m = n
    · rw [hmn]
      exact hshaped
    · exact (hother m hmn hm).shaped (h.shaped hm)
  used := by
    intro m hm
    by_cases hmn : m = n
    · rw [hmn]
      exact hn
    · simp only [inUse, hino m hmn] at hm
      exact h.used hm
  root := h.root
  entries := by
    intro m k hd hk h0
    by_cases hmn : m = n
    · subst hmn
      exact hent hd k hk h0
    · have hd' : V.IsDir m := by
        unfold Vol.IsDir at hd ⊢
        rwa [← hino m hmn]
      have hs := hother m hmn (h.used hd'.inUse)
      rw [hs.nents] at hk
      rw [hs.ent hk] at h0 ⊢
      exact h.entries hd' hk h0

/-! ## Writing -/

/-- `len` bytes have been written to inode `n` at offset `off`. -/
structure Wrote (L : Layout) (S : Nat → Prop) (n off len : Nat) (src : Buf) (V V' : Vol) : Prop
    extends Written L.IsData S n off len src (·.rank < blocks (off + len)) V V' where
  off_le : off ≤ (V.ino n).size
  end_le : off + len ≤ maxSize
  size : (V'.ino n).size = max (V.ino n).size (off + len)

namespace Wrote

variable {off len : Nat} {src : Buf}

theorem sameFile (h : Wrote L S n off len src V V') (hmn : m ≠ n) (hm : S m)
    (hs : V.Shaped m) : SameFile V V' m :=
  ⟨h.ino hmn, h.toExtend.ptr_other hmn hm, (h.toExtend.content_other hmn hm hs.covered).2⟩

theorem type_eq (h : Wrote L S n off len src V V') : (V'.ino n).type = (V.ino n).type :=
  h.toExtend.same.1

theorem shaped (h : Wrote L S n off len src V V') (hn : S n) (hs : V.Shaped n) : V'.Shaped n := by
  have hc := h.toWritten.covered hn hs.covered h.off_le h.end_le h.size
  refine ⟨hc.size_le, fun σ hσ => ⟨fun h0 => ?_, fun hr => ?_⟩⟩
  · rw [h.size]
    by_cases hold : V.ptr n σ = 0
    · have := (h.new hn hσ hold h0).2.1
      exact Nat.lt_of_lt_of_le this (blocks_mono (by omega))
    · have := (hs.exact σ hσ).mp hold
      exact Nat.lt_of_lt_of_le this (blocks_mono (by omega))
  · exact ptr_ne_of_on (Slot.on_ofBlock_rank hσ) (hc.ptr_ne hr)

theorem wf (h : Wrote L S n off len src V V') (hn : S n) (hw : WF L S V)
    (hent : V.IsDir n → ∀ k < V'.nents n, (V'.ent n k).1 ≠ 0 → S (V'.ent n k).1) : WF L S V' := by
  refine hw.next h.own hn (fun m hm => h.ino hm) (fun m hmn hm => h.sameFile hmn hm (hw.shaped hm))
    (h.shaped hn (hw.shaped hn)) fun hd => hent ?_
  unfold Vol.IsDir at hd ⊢
  rwa [← h.type_eq]

/-- One entry of a directory has been written. -/
theorem nents (h : Wrote L S n (32 * k) 32 src V V') : V'.nents n = max (V.nents n) (k + 1) := by
  have h1 := h.off_le
  unfold Vol.nents
  rw [h.size]
  omega

theorem ent_self (h : Wrote L S n (32 * k) 32 src V V') :
    V'.ent n k = (Dirent.inum src, cstr (Dirent.name src) DIRSIZ) := by
  have hb : ∀ i < 32, V'.dirent n k i = src i := by
    intro i hi
    have := (h.here (show 32 * k ≤ 32 * k + i by omega) (by omega)).2
    rwa [Nat.add_sub_cancel_left] at this
  exact Prod.ext (Dirent.inum_congr hb) (Dirent.name_congr hb)

theorem ent_of_ne {j : Nat} (h : Wrote L S n (32 * k) 32 src V V') (hs : V.Shaped n)
    (hj : j < V'.nents n) (hjk : j ≠ k) : j < V.nents n ∧ V'.ent n j = V.ent n j := by
  have h1 := h.off_le
  have h2 := hs.size_le
  have hj' : j < V.nents n := by
    rw [h.nents] at hj
    unfold Vol.nents at hj ⊢
    omega
  refine ⟨hj', ?_⟩
  have hb : ∀ i < 32, V'.dirent n j i = V.dirent n j i := by
    intro i hi
    unfold Vol.nents at hj'
    have hbn := byte_block_lt (show 32 * j + i < (V.ino n).size by omega)
    have := blocks_le h2
    exact h.old (by omega) (hs.covered.ptr_ne hbn) (by omega)
  exact Prod.ext (Dirent.inum_congr hb) (Dirent.name_congr hb)

/-- Writing an entry keeps the invariant when it is free or names an inode in `S`. -/
theorem wf_ent (h : Wrote L S n (32 * k) 32 src V V') (hn : S n) (hw : WF L S V)
    (hsrc : Dirent.inum src ≠ 0 → S (Dirent.inum src)) : WF L S V' := by
  refine h.wf hn hw fun hd j hj h0 => ?_
  by_cases hjk : j = k
  · subst hjk
    rw [h.ent_self] at h0 ⊢
    exact hsrc h0
  · obtain ⟨hj', he⟩ := h.ent_of_ne (hw.shaped hn) hj hjk
    rw [he] at h0 ⊢
    exact hw.entries hd hj' h0

end Wrote

/-! ## Cutting -/

/-- Inode `n` has been cut to `size` bytes. -/
structure Cut (L : Layout) (S : Nat → Prop) (n size : Nat) (V V' : Vol) : Prop
    extends Truncated L.IsData S n (blocks size) (blocks (V.ino n).size) V V' where
  lt : size < (V.ino n).size
  size_eq : (V'.ino n).size = size

namespace Cut

variable {size : Nat}

theorem sameFile (h : Cut L S n size V V') (hmn : m ≠ n) (hm : S m) (hs : V.Shaped m) :
    SameFile V V' m :=
  ⟨h.reduce.ino hmn, h.reduce.ptr_other hmn hm,
    (h.reduce.content_other hmn hm hs.covered).2⟩

theorem type_eq (h : Cut L S n size V V') : (V'.ino n).type = (V.ino n).type := h.reduce.same.1

theorem shaped (h : Cut L S n size V V') (hs : V.Shaped n) : V'.Shaped n := by
  have h1 := hs.size_le
  have h2 := h.lt
  refine ⟨by rw [h.size_eq]; omega, ?_⟩
  rw [h.size_eq]
  exact (h.toTruncated.exact hs.exact).2

/-- The entries that are left are the same. -/
theorem ent (h : Cut L S n size V V') (hn : S n) (hs : V.Shaped n)
    (hk : k < V'.nents n) : k < V.nents n ∧ V'.ent n k = V.ent n k := by
  have hlt := h.lt
  have hc := h.toTruncated.content hn hs.covered hlt h.size_eq
  unfold nents at hk ⊢
  rw [h.size_eq] at hk
  refine ⟨by omega, ?_⟩
  have hb : ∀ i < 32, V'.dirent n k i = V.dirent n k i := by
    intro i hi
    have h1 : 32 * k + i < (V'.content n).length := by
      rw [length_content, h.size_eq]
      omega
    have h2 : 32 * k + i < (V.content n).length := by
      rw [length_content]
      omega
    unfold dirent
    rw [← getElem_content h1, ← getElem_content h2, List.getElem_of_eq hc h1,
      List.getElem_take]
  exact Prod.ext (Dirent.inum_congr hb) (Dirent.name_congr hb)

theorem wf (h : Cut L S n size V V') (hn : S n) (hw : WF L S V) : WF L S V' := by
  refine hw.next h.reduce.own hn (fun m hm => h.reduce.ino hm)
    (fun m hmn hm => h.sameFile hmn hm (hw.shaped hm)) (h.shaped (hw.shaped hn)) ?_
  intro hd k hk h0
  obtain ⟨hk', he⟩ := h.ent hn (hw.shaped hn) hk
  rw [he] at h0 ⊢
  refine hw.entries ?_ hk' h0
  unfold Vol.IsDir at hd ⊢
  rwa [← h.type_eq]

end Cut

/-! ## Allocating and retiring inodes -/

/-- Inode `n` becomes a new, empty file of the given type. -/
def Vol.allocIno (V : Vol) (n type : Nat) : Vol :=
  V.setIno n { DView.blank with type := type, nlink := 1 }

/-- Inode `n` becomes unused. -/
def Vol.retireIno (V : Vol) (n : Nat) : Vol := V.setIno n { V.ino n with type := FT_UNUSED }

section Inodes

variable {type : Nat}

/-- Replacing an inode leaves the other files alone. -/
theorem sameFile_setIno (V : Vol) (d : DView) (hmn : m ≠ n) (hs : V.Shaped m) :
    SameFile V (V.setIno n d) m := by
  have hino : (V.setIno n d).ino m = V.ino m := update_of_ne hmn _ _
  have hptr : ∀ {σ : Slot}, σ.Valid → (V.setIno n d).ptr m σ = V.ptr m σ :=
    fun hσ => ptr_congr (congrArg DView.addr hino) (fun _ _ _ => rfl) hσ
  exact ⟨hino, hptr, (hs.covered.content_eq hino hptr fun _ _ => rfl).2⟩

theorem allocIno_ino_self (V : Vol) (n type : Nat) :
    (V.allocIno n type).ino n = { DView.blank with type := type, nlink := 1 } :=
  update_self ..

/-- A new file has no blocks. -/
theorem ptr_allocIno_self (V : Vol) (n type : Nat) (σ : Slot) :
    (V.allocIno n type).ptr n σ = 0 := by
  induction σ with
  | top i => rw [ptr_top, allocIno_ino_self]; rfl
  | ent t i ih => exact ptr_ent_of_eq ih

theorem allocIno_shaped (V : Vol) (n type : Nat) : (V.allocIno n type).Shaped n := by
  refine ⟨by rw [allocIno_ino_self]; exact Nat.zero_le _, fun σ _ => ?_⟩
  rw [ptr_allocIno_self, allocIno_ino_self]
  simp [blocks, DView.blank]

theorem allocIno_nents (V : Vol) (n type : Nat) : (V.allocIno n type).nents n = 0 := by
  unfold nents
  rw [allocIno_ino_self]
  exact Nat.zero_div 32

/-- `S` with one inode more. -/
def Also (S : Nat → Prop) (n : Nat) : Nat → Prop := fun m => S m ∨ m = n

/-- An unused inode is allocated.  It owns nothing yet. -/
theorem WF.alloc (h : WF L S V) (hn : n < L.ninodes) : WF L (Also S n) (V.allocIno n type) := by
  have hsame : ∀ m, m ≠ n → S m → SameFile V (V.allocIno n type) m :=
    fun m hmn hm => sameFile_setIno V _ hmn (h.shaped hm)
  have hino : ∀ m, m ≠ n → (V.allocIno n type).ino m = V.ino m :=
    fun m hmn => update_of_ne hmn _ _
  -- Every block an inode has in the new volume, it had in the old one.
  have hold : ∀ {m : Nat} {σ : Slot}, Also S n m → σ.Valid → (V.allocIno n type).ptr m σ ≠ 0 →
      S m ∧ m ≠ n ∧ (V.allocIno n type).ptr m σ = V.ptr m σ := by
    intro m σ hm hσ h0
    by_cases hmn : m = n
    · subst hmn
      exact absurd (ptr_allocIno_self V m type σ) h0
    · have hm' := hm.resolve_right hmn
      exact ⟨hm', hmn, (hsame m hmn hm').ptr hσ⟩
  refine ⟨⟨?_, ?_, ?_⟩, ?_, ?_, ?_, Or.inl h.root, ?_⟩
  · intro k m σ τ hk hm hσ hτ h0 he
    obtain ⟨hk', -, hpk⟩ := hold hk hσ h0
    obtain ⟨hm', -, hpm⟩ := hold hm hτ (by rwa [← he])
    rw [hpk] at h0 he
    rw [hpm] at he
    exact h.own.inj hk' hm' hσ hτ h0 he
  · intro m σ hm hσ h0
    obtain ⟨hm', -, hp⟩ := hold hm hσ h0
    rw [hp] at h0 ⊢
    exact h.own.region hm' hσ h0
  · intro m σ hm hσ h0
    obtain ⟨hm', -, hp⟩ := hold hm hσ h0
    rw [hp] at h0 ⊢
    exact h.own.marked hm' hσ h0
  · rintro m (hm | rfl)
    · exact h.lt hm
    · exact hn
  · intro m hm
    by_cases hmn : m = n
    · rw [hmn]
      exact allocIno_shaped V n type
    · have hm' := hm.resolve_right hmn
      exact (hsame m hmn hm').shaped (h.shaped hm')
  · intro m hm
    by_cases hmn : m = n
    · exact Or.inr hmn
    · simp only [inUse, hino m hmn] at hm
      exact Or.inl (h.used hm)
  · intro m k hd hk h0
    by_cases hmn : m = n
    · subst hmn
      rw [allocIno_nents] at hk
      exact absurd hk (Nat.not_lt_zero k)
    · have hd' : V.IsDir m := by
        unfold Vol.IsDir at hd ⊢
        rwa [← hino m hmn]
      have hs := hsame m hmn (h.used hd'.inUse)
      rw [hs.nents] at hk
      rw [hs.ent hk] at h0 ⊢
      exact Or.inl (h.entries hd' hk h0)

theorem retireIno_ino_self (V : Vol) (n : Nat) :
    (V.retireIno n).ino n = { V.ino n with type := FT_UNUSED } := update_self ..

/-- The map does not read the type. -/
theorem ptr_retireIno (V : Vol) (n m : Nat) (σ : Slot) : (V.retireIno n).ptr m σ = V.ptr m σ := by
  induction σ with
  | top i =>
      by_cases hm : m = n
      · subst hm
        rw [ptr_top, retireIno_ino_self, ptr_top]
      · exact congrArg (fun d : DView => d.addr i) (update_of_ne hm _ _)
  | ent t i ih => rw [ptr_ent, ptr_ent, ih]; rfl

theorem not_inUse_retireIno (V : Vol) (n : Nat) : inUse (V.retireIno n) n = false := by
  simp only [inUse, retireIno_ino_self]
  rfl

/-- An inode is retired. -/
theorem WF.retire (h : WF L S V) (hn : S n) : WF L S (V.retireIno n) := by
  refine h.next ⟨?_, ?_, ?_⟩ hn (fun m hmn => update_of_ne hmn _ _)
    (fun m hmn hm => sameFile_setIno V _ hmn (h.shaped hm)) ?_ fun hd => ?_
  · intro k m σ τ hk hm hσ hτ h0 he
    rw [ptr_retireIno] at h0 he
    rw [ptr_retireIno] at he
    exact h.own.inj hk hm hσ hτ h0 he
  · intro m σ hm hσ h0
    rw [ptr_retireIno] at h0 ⊢
    exact h.own.region hm hσ h0
  · intro m σ hm hσ h0
    rw [ptr_retireIno] at h0 ⊢
    exact h.own.marked hm hσ h0
  · refine ⟨by rw [retireIno_ino_self]; exact (h.shaped hn).size_le, fun σ hσ => ?_⟩
    rw [ptr_retireIno, retireIno_ino_self]
    exact (h.shaped hn).exact σ hσ
  · have := hd.inUse
    rw [not_inUse_retireIno] at this
    cases this

end Inodes

end Dmaos
