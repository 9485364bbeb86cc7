import Dmaos.Lib.Hierarchy
import Dmaos.System.Directories
import Dmaos.System.Naming

/-!
# The name space is a tree

The directories of a volume are a `Hierarchy`: `create` puts a new node into it
(`Creates.grows`), and `rm` takes one out (`Removes.shrinks`), so the name space stays a tree
(`tree_of_reached`).  There is always room for a new entry, since a directory cannot be larger
than the data region.

`rm` does not look at the name it is given.  With `.` for the last component it removes the
directory the entry is in, but not the entry for that directory; the root of the device can be
removed in this way, too (`tree_not_kept`).
-/

namespace Dmaos

open Fault Function

variable {L : Layout} {S : Nat → Prop} {V V' V₁ V₂ : Vol} {n i d k m : Nat} {sb : Superblock}
  {x name y : List Byte}

/-- The directories of a volume.  Entries with inode number zero are free. -/
def Vol.hierarchy (V : Vol) : Hierarchy Nat Nat (List Byte) where
  used := InUse V
  dir := V.IsDir
  entry d k n x := V.IsDir d ∧ k < V.nents d ∧ V.ent d k = (n, x) ∧ n ≠ 0
  used_of_dir h := h.inUse
  dir_of_entry h := h.1
  single h h' := Prod.mk.inj (h.2.2.1.symm.trans h'.2.2.1)

/-- The name space of a volume is a tree, with inode 1 as its root. -/
def Vol.Tree (V : Vol) : Prop := V.hierarchy.Tree dot dotdot 1

/-- No entry other than `.` and `..` names the root. -/
def Vol.Rooted (V : Vol) : Prop := V.hierarchy.Rooted dot dotdot 1

/-! ## Sizes -/

section Size

/-- A file has no more blocks than the data region. -/
theorem WF.blocks_le (h : WF L S V) (hn : S n) : blocks (V.ino n).size ≤ L.dataend := by
  have hs := h.shaped hn
  have hmax := Dmaos.blocks_le hs.size_le
  let f : Fin (blocks (V.ino n).size) → Fin L.dataend := fun i =>
    ⟨V.ptr n (.ofBlock i), (h.own.region hn (Slot.valid_ofBlock (by omega))
      (hs.covered.ptr_ne i.isLt)).2⟩
  have hf : Injective f := by
    intro i j hij
    have hptr : V.ptr n (.ofBlock i) = V.ptr n (.ofBlock j) := congrArg Fin.val hij
    have hslot := (h.own.inj hn hn (Slot.valid_ofBlock (by omega)) (Slot.valid_ofBlock (by omega))
      (hs.covered.ptr_ne i.isLt) hptr).2
    have hrank := congrArg Slot.rank hslot
    rw [Slot.rank_ofBlock, Slot.rank_ofBlock] at hrank
    exact Fin.ext hrank
  simpa using Fintype.card_le_of_injective f hf

/-- A directory that consists of whole entries has room for another one. -/
theorem WholeEntries.room (h : WholeEntries V) (hw : WF L S V) (hfits : L.Fits sb)
    (hd : V.IsDir n) : ¬ NoRoom V n := by
  have hblocks := hw.blocks_le (hw.used hd.inUse)
  have hend := hfits.data_le
  have hwhole := h n hd
  simp only [NoRoom, blocks, BSIZE, maxSize] at *
  omega

end Size

/-! ## Names -/

section Names

variable {s d : Buf}

theorem ofList_ne_zero (h0 : 0 ∉ x) : Buf.ofList x i ≠ 0 ↔ i < x.length := by
  constructor
  · intro h
    by_contra hi
    exact h (List.getD_eq_default _ _ (Nat.not_lt.mp hi))
  · intro hi h
    have hxi : Buf.ofList x i = x[i] := List.getD_eq_getElem _ _ hi
    rw [hxi] at h
    exact h0 (h ▸ List.getElem_mem hi)

/-- `strncmp` reads the first string up to its end. -/
theorem strncmpEq_of_agree (h0 : 0 ∉ x) (h : ∀ j ≤ x.length, s j = Buf.ofList x j) :
    ∀ {m i : Nat}, i ≤ x.length → strncmpEq s d m i = strncmpEq (Buf.ofList x) d m i
  | 0, _, _ => rfl
  | m + 1, i, hi => by
      rw [strncmpEq, strncmpEq, h i hi]
      by_cases hc : Buf.ofList x i ≠ 0 ∧ Buf.ofList x i = d i
      · rw [if_pos hc, if_pos hc]
        exact strncmpEq_of_agree h0 h ((ofList_ne_zero h0).mp hc.1)
      · rw [if_neg hc, if_neg hc]

/-- Where `strncmp` finds no difference, the bytes are the same up to the end. -/
theorem agree_of_strncmpEq (h0 : 0 ∉ x) :
    ∀ {m i j : Nat}, strncmpEq (Buf.ofList x) d m i = true → i ≤ j → j < i + m → j ≤ x.length →
      d j = Buf.ofList x j
  | 0, i, j, _, h1, h2, _ => by omega
  | m + 1, i, j, h, h1, h2, h3 => by
      rw [strncmpEq] at h
      split_ifs at h with hc
      · rcases Nat.eq_or_lt_of_le h1 with rfl | hlt
        · exact hc.2.symm
        · exact agree_of_strncmpEq h0 h hlt (by omega) h3
      · have heq : Buf.ofList x i = d i := by simpa using h
        -- The first string ends here.
        have hend : ¬ i < x.length := fun hi => hc ⟨(ofList_ne_zero h0).mpr hi, heq⟩
        obtain rfl : i = j := by omega
        exact heq.symm

/-- A name whose entry is called `x` matches all entries that are. -/
theorem matches_of_newDirent {de : Dirent} (h0 : 0 ∉ x) (hx : x.length < 29)
    (h : cstr (newDirent name n).name DIRSIZ = x) (hde : cstr de.name DIRSIZ = x) :
    Matches name de := by
  have hlen : x.length < DIRSIZ := Nat.lt_succ_of_lt hx
  have hnew : Matches x (newDirent name n) := (matches_iff h0 hlen).mpr h
  have hagree : ∀ j ≤ x.length, Buf.ofList name j = Buf.ofList x j := by
    intro j hj
    rw [← agree_of_strncmpEq h0 hnew (Nat.zero_le j) (by simp only [DIRSIZ] at *; omega) hj]
    exact (newDirent_name_of_lt (by omega) name n).symm
  rw [Matches, strncmpEq_of_agree h0 hagree (Nat.zero_le _)]
  exact (matches_iff h0 hlen).mpr hde

/-- The name of an entry of a new directory. -/
theorem name_specialDirent (h0 : 0 ∉ x) (hx : x.length < 29) (n : Nat) :
    cstr (Dirent.name (specialDirent x n)) DIRSIZ = x := by
  rw [← matches_iff h0 (Nat.lt_succ_of_lt hx), Matches, strncmpEq_congr (d := Buf.ofList x),
    strncmpEq_self]
  intro j _ hj
  simp only [DIRSIZ] at hj
  cases Decidable.em (j = 29) with
  | inl heq =>
      -- the last byte has not been written, and the name does not reach it
      have hlast : Buf.ofList x 29 = 0 := List.getD_eq_default _ _ (Nat.le_of_lt hx)
      rw [heq, hlast]
      unfold Dirent.name specialDirent strncpy
      rw [Buf.copy_of_not_mem (by decide)]
      rfl
  | inr hne =>
      have hcopy : Dirent.name (specialDirent x n) j = Buf.ofList x (2 + j - 2) :=
        Buf.copy_of_mem (by simp only [DIRSIZ]; omega)
      rw [hcopy, Nat.add_sub_cancel_left]

end Names

/-! ## Effects -/

section Entries

variable {src : Buf}

theorem Vol.entry_congr (ht : (V'.ino d).type = (V.ino d).type)
    (hk : k < V'.nents d ↔ k < V.nents d) (he : k < V.nents d → V'.ent d k = V.ent d k) :
    V'.hierarchy.entry d k m y ↔ V.hierarchy.entry d k m y := by
  constructor
  · rintro ⟨h1, h2, h3, h4⟩
    have h2' := hk.mp h2
    exact ⟨h1.of_type ht.symm, h2', (he h2').symm.trans h3, h4⟩
  · rintro ⟨h1, h2, h3, h4⟩
    exact ⟨h1.of_type ht, hk.mpr h2, (he h2).trans h3, h4⟩

theorem SameFile.entry_iff (h : SameFile V V' d) :
    V'.hierarchy.entry d k m y ↔ V.hierarchy.entry d k m y :=
  Vol.entry_congr (by rw [h.ino]) (by rw [h.nents]) h.ent

/-- Writing an entry leaves the others as they are. -/
theorem Wrote.entry_iff (h : Wrote L S d (32 * k) 32 src V V') (hs : V.Shaped d)
    (hk : k ≤ V.nents d) (hik : i ≠ k) :
    V'.hierarchy.entry d i m y ↔ V.hierarchy.entry d i m y := by
  have hcount := h.nents
  exact Vol.entry_congr h.type_eq (by omega) fun hi => (h.ent_kept hs hi hik).2

/-- The entry that is written. -/
theorem Wrote.entry_self (h : Wrote L S d (32 * k) 32 src V V') (hd : V.IsDir d) :
    V'.hierarchy.entry d k m y ↔
      m = Dirent.inum src ∧ y = cstr (Dirent.name src) DIRSIZ ∧ m ≠ 0 := by
  have hlt : k < V'.nents d := by
    rw [h.nents]
    omega
  constructor
  · rintro ⟨-, -, h3, h4⟩
    rw [h.ent_self] at h3
    obtain ⟨rfl, rfl⟩ := Prod.mk.inj h3
    exact ⟨rfl, rfl, h4⟩
  · rintro ⟨rfl, rfl, h4⟩
    exact ⟨hd.of_type h.type_eq, hlt, h.ent_self, h4⟩

end Entries

section Create

variable {type : Nat}

theorem Born.ino_of_ne (h : Born L S d n V type V₁) (hm : m ≠ n) : V₁.ino m = V.ino m := by
  have halloc : ∀ type, (V.allocIno n type).ino m = V.ino m := fun type =>
    update_of_ne hm _ _
  cases h with
  | file => exact halloc _
  | dir self parent => rw [parent.ino hm, self.ino hm, halloc]

theorem Creates.type_of_ne (h : Creates L S d n type name V V₁ V') (hm : m ≠ n) :
    (V'.ino m).type = (V.ino m).type := by
  rw [← h.born.ino_of_ne hm]
  rcases h.link with ⟨rfl, -⟩ | ⟨k, -, hwrote⟩
  · rfl
  · cases Decidable.em (m = d) with
    | inl heq => rw [heq, hwrote.type_eq]
    | inr hne => rw [hwrote.ino hne]

/-- The entries of a new directory. -/
theorem entry_newDir
    (hself : Wrote L S n (32 * 0) 32 (specialDirent dot n) (V.allocIno n FT_DIRECTORY) V₁)
    (hparent : Wrote L S n (32 * 1) 32 (specialDirent dotdot d) V₁ V₂) (hS : S n) (hn : n < 2 ^ 16)
    (hd : d < 2 ^ 16) (hn0 : n ≠ 0) (hd0 : d ≠ 0) :
    V₂.hierarchy.entry n k m y ↔ k = 0 ∧ m = n ∧ y = dot ∨ k = 1 ∧ m = d ∧ y = dotdot := by
  have hshaped : (V.allocIno n FT_DIRECTORY).Shaped n := allocIno_shaped V n _
  have hdir : (V.allocIno n FT_DIRECTORY).IsDir n := congrArg DView.type (allocIno_ino_self V n _)
  have hnone : (V.allocIno n FT_DIRECTORY).nents n = 0 := allocIno_nents V n _
  have hone : V₁.nents n = 1 := by rw [hself.nents, hnone]; rfl
  match k with
  | 0 =>
      rw [hparent.entry_iff (hself.shaped hS hshaped) (by omega) (by decide), hself.entry_self hdir,
        specialDirent_inum, Nat.mod_eq_of_lt hn, name_specialDirent (by decide) (by decide)]
      constructor
      · rintro ⟨rfl, rfl, -⟩
        exact Or.inl ⟨rfl, rfl, rfl⟩
      · rintro (⟨-, rfl, rfl⟩ | ⟨h, -⟩)
        · exact ⟨rfl, rfl, hn0⟩
        · cases h
  | 1 =>
      rw [hparent.entry_self (hdir.of_type hself.type_eq), specialDirent_inum, Nat.mod_eq_of_lt hd,
        name_specialDirent (by decide) (by decide)]
      constructor
      · rintro ⟨rfl, rfl, -⟩
        exact Or.inr ⟨rfl, rfl, rfl⟩
      · rintro (⟨h, -⟩ | ⟨-, rfl, rfl⟩)
        · cases h
        · exact ⟨rfl, rfl, hd0⟩
  | k + 2 =>
      rw [hparent.entry_iff (hself.shaped hS hshaped) (by omega) (by omega),
        hself.entry_iff hshaped (by omega) (by omega)]
      constructor
      · rintro ⟨-, hk, -⟩
        omega
      · rintro (⟨h, -⟩ | ⟨h, -⟩) <;> cases h

theorem Born.shaped (h : Born L S d n V type V₁) (hS : S n) : V₁.Shaped n := by
  have halloc : ∀ type, (V.allocIno n type).Shaped n := fun type => allocIno_shaped V n type
  cases h with
  | file => exact halloc _
  | dir self parent => exact parent.shaped hS (self.shaped hS (halloc _))

theorem Born.inUse (h : Born L (Also S n) d n V type V₁) : Dmaos.inUse V₁ n = true := by
  rw [Dmaos.inUse, h.type_eq]
  cases h with
  | file => rfl
  | dir self parent => rfl

/-- The entries of a new inode. -/
theorem Born.entries (h : Born L (Also S n) d n V type V₁) (hn : n < 2 ^ 16) (hd : d < 2 ^ 16)
    (hn0 : n ≠ 0) (hd0 : d ≠ 0) :
    (∀ {k : Nat} {m : Nat} {y : List Byte}, V₁.hierarchy.entry n k m y →
      y = dot ∧ m = n ∨ y = dotdot ∧ m = d) ∧
    (V₁.IsDir n → (∃ k, V₁.hierarchy.entry n k n dot) ∧ ∃ k, V₁.hierarchy.entry n k d dotdot) := by
  cases h with
  | file =>
      have hfile : ¬ (V.allocIno n FT_FILE).IsDir n := fun hdir => by
        rw [Vol.IsDir, allocIno_ino_self] at hdir
        cases hdir
      exact ⟨fun he => absurd he.1 hfile, fun hdir => absurd hdir hfile⟩
  | dir self parent =>
      have hiff {k m : Nat} {y : List Byte} := entry_newDir (k := k) (m := m) (y := y) self parent
        (Or.inr rfl) hn hd hn0 hd0
      refine ⟨fun he => ?_, fun _ => ⟨⟨0, hiff.mpr (Or.inl ⟨rfl, rfl, rfl⟩)⟩,
        1, hiff.mpr (Or.inr ⟨rfl, rfl, rfl⟩)⟩⟩
      exact (hiff.mp he).imp (fun h => ⟨h.2.2, h.2.1⟩) fun h => ⟨h.2.2, h.2.1⟩

/-- Making a file or directory puts a new node into the hierarchy. -/
theorem Creates.grows (h : Creates L S d n type name V V₁ V') (hw : WF L S V)
    (htree : V.Tree) (hroom : ¬ NoRoom V₁ d) (h16 : L.ninodes ≤ 2 ^ 16) :
    ∃ k x, V.hierarchy.Grows dot dotdot V'.hierarchy d k n x := by
  have hSd := hw.used h.isDir.inUse
  have hn := Nat.lt_of_lt_of_le h.lt h16
  have hd := Nat.lt_of_lt_of_le (hw.lt hSd) h16
  have hnd : n ≠ d := (h.isDir.ne_of_free h.free).symm
  have hd0 : d ≠ 0 := by
    obtain ⟨k, hk⟩ := (htree.own_tells h.isDir).exist
    exact hk.2.2.2
  obtain ⟨k, hk, hwrote⟩ : ∃ k, FreeEntry V₁ d k ∧
      Wrote L (Also S n) d (32 * k) 32 (newDirent name n) V₁ V' :=
    h.link.resolve_left fun hno => hroom hno.2
  have hbefore := h.before hw
  have hdir₁ : V₁.IsDir d := hbefore.isDir.mpr h.isDir
  have hshaped := hbefore.shaped (hw.shaped hSd)
  have hnew : SameFile V₁ V' n := hwrote.sameFile hnd (Or.inr rfl) (h.born.shaped (Or.inr rfl))
  have hborn := h.born.entries hn hd (Nat.pos_iff_ne_zero.mp h.pos) hd0
  -- The name is not that of another entry.
  have hproper : ∀ {x : List Byte} {m : Nat}, 0 ∉ x → x.length < 29 → V.hierarchy.Tells d x m →
      cstr (Dirent.name (newDirent name n)) DIRSIZ ≠ x := by
    intro x m h0 hx htells hname
    obtain ⟨j, -, hj, he, hm⟩ := htells.exist
    have hent : cstr (V.dirent d j).name DIRSIZ = x := congrArg Prod.snd he
    refine h.fresh j ⟨hj, ?_, matches_of_newDirent h0 hx hname hent⟩
    rw [he]
    exact hm
  obtain ⟨p, -, hup⟩ := htree.up_tells h.isDir
  refine ⟨k, cstr (Dirent.name (newDirent name n)) DIRSIZ, h.isDir, fun hu => ?_,
    ⟨hproper (by decide) (by decide) (htree.own_tells h.isDir),
      hproper (by decide) (by decide) hup⟩,
    fun {m} => ?_, fun {m} hm => ?_, fun {d' m k' y} hd' => ?_, fun he => ?_, fun hdir => ?_⟩
  · have hfree := h.free
    rw [show inUse V n = true from hu] at hfree
    cases hfree
  · cases Decidable.em (m = n) with
    | inl heq =>
        subst heq
        refine iff_of_true ?_ (Or.inr rfl)
        change inUse V' m = true
        rw [hnew.inUse]
        exact h.born.inUse
    | inr hne =>
        have htype := h.type_of_ne hne
        change inUse V' m = true ↔ inUse V m = true ∨ m = n
        rw [inUse, htype, ← inUse, or_iff_left hne]
  · change (V'.ino m).type = _ ↔ (V.ino m).type = _
    rw [h.type_of_ne hm]
  · cases Decidable.em (d' = d) with
    | inl heq =>
        subst heq
        rw [← hbefore.entry_iff]
        cases Decidable.em (k' = k) with
        | inl heq =>
            subst heq
            rw [hwrote.entry_self hdir₁, inum_newDirent, Nat.mod_eq_of_lt hn]
            constructor
            · rintro ⟨rfl, rfl, -⟩
              exact Or.inr ⟨rfl, rfl, rfl, rfl⟩
            · rintro (⟨-, hlt, he, hm⟩ | ⟨-, -, rfl, rfl⟩)
              · have h0 := hk.inum_eq hlt
                rw [he] at h0
                exact absurd h0 hm
              · exact ⟨rfl, rfl, Nat.pos_iff_ne_zero.mp h.pos⟩
        | inr hne =>
            rw [hwrote.entry_iff hshaped hk.le hne, or_iff_left fun hr => hne hr.2.1]
    | inr hne =>
        rw [or_iff_left fun hr => hne hr.1]
        cases Decidable.em (V.IsDir d') with
        | inl hdir => exact (h.sameFile hw (hw.used hdir.inUse) hd' hne).entry_iff
        | inr hno =>
            exact iff_of_false (fun he => hno (he.1.of_type (h.type_of_ne hd').symm))
              fun he => hno he.1
  · exact hborn.1 (hnew.entry_iff.mp he)
  · obtain ⟨⟨i, hi⟩, j, hj⟩ := hborn.2 (hnew.isDir.mp hdir)
    exact ⟨⟨i, hnew.entry_iff.mpr hi⟩, j, hnew.entry_iff.mpr hj⟩

end Create

section Remove

variable {v : Nat}

theorem Removes.type_of_ne (h : Removes L S d k v name V V₁ V₂ V') (hm : m ≠ v) :
    (V'.ino m).type = (V.ino m).type := by
  have h₃ : V'.ino m = V₂.ino m := by
    rw [h.retired]
    exact update_of_ne hm _ _
  have h₂ : V₂.ino m = V₁.ino m := by
    rcases h.cut with ⟨rfl, -⟩ | hcut
    · rfl
    · exact hcut.reduce.ino hm
  rw [h₃, h₂]
  cases Decidable.em (m = d) with
  | inl heq => rw [heq, h.wrote.type_eq]
  | inr hne => rw [h.wrote.ino hne]

theorem Removes.not_inUse (h : Removes L S d k v name V V₁ V₂ V') : inUse V' v = false := by
  rw [h.retired]
  exact not_inUse_retireIno V₂ v

/-- Removing a file or directory takes a node out of the hierarchy. -/
theorem Removes.shrinks (h : Removes L S d k v name V V₁ V₂ V') (hw : WF L S V)
    (hproper : Proper (V.ent d k)) : V.hierarchy.Shrinks dot dotdot V'.hierarchy d k v := by
  have hnamed : V.hierarchy.Names dot dotdot d k v :=
    ⟨(V.ent d k).2, ⟨h.isDir, h.named.lt, Prod.ext h.inum rfl, h.inum ▸ h.named.inum_ne⟩,
      hproper.2⟩
  have hempty : ∀ {k' m : Nat}, ¬ V.hierarchy.Names dot dotdot v k' m := by
    rintro k' m ⟨y, ⟨hdir, hlt, he, hm⟩, hy⟩
    refine h.empty hdir k' hlt ?_
    rw [he]
    exact ⟨hm, hy⟩
  have hdv : d ≠ v := by
    rintro rfl
    exact hempty hnamed
  have hgone : ¬ InUse V' v := by
    rw [InUse, h.not_inUse]
    exact Bool.false_ne_true
  refine ⟨hnamed, hempty, fun {m} => ?_, fun {m} => ?_, fun {d' m k' y} => ?_⟩
  · cases Decidable.em (m = v) with
    | inl heq =>
        subst heq
        exact iff_of_false hgone fun h => h.2 rfl
    | inr hne =>
        rw [and_iff_left hne]
        change inUse V' m = true ↔ inUse V m = true
        rw [inUse, h.type_of_ne hne, ← inUse]
  · cases Decidable.em (m = v) with
    | inl heq =>
        subst heq
        exact iff_of_false (fun hd => hgone hd.inUse) fun h => h.2 rfl
    | inr hne =>
        rw [and_iff_left hne]
        change (V'.ino m).type = _ ↔ (V.ino m).type = _
        rw [h.type_of_ne hne]
  · cases Decidable.em (d' = v) with
    | inl heq =>
        subst heq
        exact iff_of_false (fun he => hgone he.1.inUse) fun h => h.2.1 rfl
    | inr hne =>
        rw [and_iff_right hne]
        cases Decidable.em (d' = d) with
        | inl heq =>
            subst heq
            rw [(h.after hw hdv).entry_iff]
            cases Decidable.em (k' = k) with
            | inl heq =>
                subst heq
                rw [h.wrote.entry_self h.isDir]
                exact iff_of_false (fun he => he.2.2 he.1) fun h => h.2 ⟨rfl, rfl⟩
            | inr hne =>
                rw [h.wrote.entry_iff (hw.shaped (hw.used h.isDir.inUse))
                  (Nat.le_of_lt h.named.lt) hne,
                  and_iff_left fun hr => hne hr.2]
        | inr hne' =>
            rw [and_iff_left fun hr => hne' hr.1]
            cases Decidable.em (V.IsDir d') with
            | inl hdir => exact (h.sameFile hw (hw.used hdir.inUse) hne' hne).entry_iff
            | inr hno =>
                exact iff_of_false (fun he => hno (he.1.of_type (h.type_of_ne hne).symm))
                  fun he => hno he.1

end Remove

/-! ## Runs -/

/-- The call does not remove anything under the names `.` and `..`. -/
def Syscall.SparesDots : Syscall → Prop
  | .rm path => lastName path.1 ≠ dot ∧ lastName path.1 ≠ dotdot
  | _ => True

instance : (c : Syscall) → Decidable c.SparesDots
  | .rm path => inferInstanceAs (Decidable (lastName path.1 ≠ dot ∧ lastName path.1 ≠ dotdot))
  | .open _ _ | .read _ _ | .write _ _ _ | .close _ | .lseek _ _ _ | .ftruncate _ _
  | .getFileName _ _ | .getFileSize _ | .stat _ | .chdir _ | .mkdir _ | .spawn _ | .exit | .wait _
  | .other => .isTrue trivial

/-- The last component of a path, as it is looked up. -/
theorem lastName_short {path : List Byte} (h0 : 0 ∉ path) :
    0 ∉ lastName path ∧ (lastName path).length < DIRSIZ := by
  rw [lastName, lastNameLoop_eq (Nat.lt_add_one _)]
  cases hlast : (pathNames path).getLast? with
  | none => exact ⟨List.not_mem_nil, by decide⟩
  | some x =>
      have hname := isName_of_mem_pathNames (List.mem_of_getLast? hlast) h0
      exact ⟨hname.noNul, hname.short⟩

section Runs

variable {S' : Nat → Prop} {d0 d1 : Device} {s : KState} {a : Act}

/-- Bytes of files are not part of the hierarchy. -/
theorem hierarchy_of_file (htype : ∀ m, (V'.ino m).type = (V.ino m).type)
    (hsame : ∀ m, m ≠ n → V.IsDir m → SameFile V V' m) (hn : ¬ V.IsDir n) :
    V'.hierarchy = V.hierarchy := by
  have hused : V'.hierarchy.used = V.hierarchy.used := funext fun m => by
    change (inUse V' m = true) = (inUse V m = true)
    rw [inUse, htype, ← inUse]
  have hdir : V'.hierarchy.dir = V.hierarchy.dir := funext fun m => by
    change ((V'.ino m).type = _) = ((V.ino m).type = _)
    rw [htype]
  have hentry : V'.hierarchy.entry = V.hierarchy.entry := by
    funext d k m y
    refine propext ?_
    cases Decidable.em (V.IsDir d) with
    | inl hd =>
        refine (hsame d ?_ hd).entry_iff
        rintro rfl
        exact hn hd
    | inr hd => exact iff_of_false (fun he => hd (he.1.of_type (htype d).symm)) fun he => hd he.1
  exact Hierarchy.ext hused hdir hentry

/-- Every effect keeps the tree, if bytes are written to and cut from files only, and what is
removed is not found as `.` or `..`. -/
theorem Vol.Tree.effect (h : V.Tree) (hr : V.Rooted) (hwhole : WholeEntries V)
    (hw : WF L S V) (hfits : L.Fits sb) (h16 : L.ninodes ≤ 2 ^ 16)
    (hfile : ∀ n, a = .write n ∨ a = .cut n → ¬ V.IsDir n)
    (hname : ∀ d v name, a = .remove d v name →
      (0 ∉ name ∧ name.length < DIRSIZ) ∧ name ≠ dot ∧ name ≠ dotdot)
    (he : Effect L S V a S' V') : V'.Tree ∧ V'.Rooted := by
  have hfiles {n : Nat} (htype : ∀ m, (V'.ino m).type = (V.ino m).type)
      (hsame : ∀ m, m ≠ n → V.IsDir m → SameFile V V' m) (hn : ¬ V.IsDir n) :
      V'.Tree ∧ V'.Rooted := by
    rw [Vol.Tree, Vol.Rooted, hierarchy_of_file htype hsame hn]
    exact ⟨h, hr⟩
  cases he with
  | none => exact ⟨h, hr⟩
  | @write n _ _ _ _ mem wrote =>
      refine hfiles (fun m => ?_) (fun m hmn hd => ?_) (hfile n (Or.inl rfl))
      · cases Decidable.em (m = n) with
        | inl heq => rw [heq, wrote.type_eq]
        | inr hne => rw [wrote.ino hne]
      · have hS := hw.used hd.inUse
        exact wrote.sameFile hmn hS (hw.shaped hS)
  | @cut n _ _ mem cut =>
      refine hfiles (fun m => ?_) (fun m hmn hd => ?_) (hfile n (Or.inr rfl))
      · cases Decidable.em (m = n) with
        | inl heq => rw [heq, cut.type_eq]
        | inr hne => rw [cut.reduce.ino hne]
      · have hS := hw.used hd.inUse
        exact cut.sameFile hmn hS (hw.shaped hS)
  | @create d n _ name V₁ _ creates =>
      have hroom : ¬ NoRoom V₁ d := by
        rw [NoRoom, (creates.before hw).ino]
        exact hwhole.room hw hfits creates.isDir
      obtain ⟨k, x, hgrows⟩ := creates.grows hw h hroom h16
      exact ⟨Hierarchy.Tree.grow h hgrows (by decide), Hierarchy.Rooted.grow hr hgrows h.root_dir⟩
  | @remove d k v name _ _ _ removes =>
      obtain ⟨⟨h0, hlen⟩, hdot, hdotdot⟩ := hname d v name rfl
      have heq : (V.ent d k).2 = name := (matches_iff h0 hlen).mp removes.named.named
      have hshrinks := removes.shrinks hw ⟨removes.named.inum_ne, heq ▸ hdot, heq ▸ hdotdot⟩
      have hv : v ≠ 1 := by
        rintro rfl
        exact hr d k hshrinks.named
      exact ⟨Hierarchy.Tree.shrink h hshrinks hv, Hierarchy.Rooted.shrink hr hshrinks⟩

/-- The calls that keep the name space a tree. -/
def TreeSafe (L : Layout) (p : Fin PROCS_MAX) (c : Syscall) (s : KState) : Prop :=
  Tame L p c s ∧ c.SparesDots

instance (L : Layout) (p : Fin PROCS_MAX) (c : Syscall) (s : KState) :
    Decidable (TreeSafe L p c s) := by
  unfold TreeSafe
  infer_instance

/-- In every run in which no directory is changed through a descriptor and nothing is removed
as `.` or `..`, the name space stays a tree. -/
theorem tree_of_reached (himg : d1.Consistent L) (hn : d1.super.ninodes = L.ninodes)
    (h16 : d1.super.ninodes ≤ 2 ^ 16) (hwhole : WholeEntries (d1.vol L))
    (hroot : (d1.vol L).Rooted) (htree : (d1.vol L).Tree) (h : Reached (TreeSafe L) d0 d1 s) :
    (s.vol L 1).Tree := by
  have hstep : ∀ {p c t a S S' V'}, Disk L S t →
      (WholeEntries (t.vol L 1) ∧ (t.vol L 1).Tree ∧ (t.vol L 1).Rooted) → TreeSafe L p c t →
      Does L p c t a → Effect L S (t.vol L 1) a S' V' →
      WholeEntries V' ∧ V'.Tree ∧ V'.Rooted := by
    rintro p c t a S S' V' hd ⟨hw, ht, hr⟩ hP hA he
    have hfile : ∀ n, a = .write n ∨ a = .cut n → ¬ (t.vol L 1).IsDir n :=
      hA.not_isDir hP.1
    refine ⟨hw.effect hfile he, ht.effect hr hw hd.wf hd.fits (hn ▸ h16) hfile ?_ he⟩
    rintro d v name rfl
    obtain ⟨path, rfl, hon⟩ := hA
    rw [hon.name_eq]
    exact ⟨lastName_short path.2, hP.2⟩
  obtain ⟨-, S, -, -, hJ, -⟩ := h.invariant (J := fun _ V => WholeEntries V ∧ V.Tree ∧ V.Rooted)
    himg (fun hP hsb => ⟨fun _ => Or.inl (by rw [hsb, hn]), hP.1.write⟩) ⟨hwhole, htree, hroot⟩
      hstep
  exact hJ

end Runs

/-! ## The empty device -/

section Empty

theorem emptyDisk_isDir : (emptyDisk.vol formattedLayout).IsDir n ↔ n = 1 := by
  constructor
  · intro h
    have huse := (formatted_inUse (by decide) (by decide)).mp h.inUse
    simp only [List.length_cons, List.length_nil] at huse
    omega
  · rintro rfl
    decide +kernel

/-- The directories of the empty device. -/
theorem emptyDisk_entry :
    (emptyDisk.vol formattedLayout).hierarchy.entry d k n x ↔
      d = 1 ∧ n = 1 ∧ (k = 0 ∧ x = dot ∨ k = 1 ∧ x = dotdot) := by
  have hcount : (emptyDisk.vol formattedLayout).nents 1 = 2 := by decide +kernel
  have h0 : (emptyDisk.vol formattedLayout).ent 1 0 = (1, dot) := by decide +kernel
  have h1 : (emptyDisk.vol formattedLayout).ent 1 1 = (1, dotdot) := by decide +kernel
  constructor
  · rintro ⟨hd, hk, he, -⟩
    obtain rfl := emptyDisk_isDir.mp hd
    rw [hcount] at hk
    match k with
    | 0 =>
        obtain ⟨rfl, rfl⟩ := Prod.mk.inj (h0.symm.trans he)
        exact ⟨rfl, rfl, Or.inl ⟨rfl, rfl⟩⟩
    | 1 =>
        obtain ⟨rfl, rfl⟩ := Prod.mk.inj (h1.symm.trans he)
        exact ⟨rfl, rfl, Or.inr ⟨rfl, rfl⟩⟩
  · rintro ⟨rfl, rfl, ⟨rfl, rfl⟩ | ⟨rfl, rfl⟩⟩
    · exact ⟨emptyDisk_isDir.mpr rfl, by omega, h0, by decide⟩
    · exact ⟨emptyDisk_isDir.mpr rfl, by omega, h1, by decide⟩

theorem emptyDisk_rooted : (emptyDisk.vol formattedLayout).Rooted := by
  rintro d k ⟨x, hx, hdot, hdotdot⟩
  obtain ⟨-, -, ⟨-, rfl⟩ | ⟨-, rfl⟩⟩ := emptyDisk_entry.mp hx
  · exact hdot rfl
  · exact hdotdot rfl

theorem emptyDisk_tree : (emptyDisk.vol formattedLayout).Tree := by
  refine ⟨emptyDisk_isDir.mpr rfl, fun {n} hn hne => ?_, fun he => ?_, fun {d} hd => ?_,
    fun {d} hd => ?_⟩
  · have huse := (formatted_inUse (by decide) (by decide)).mp hn
    simp only [List.length_cons, List.length_nil] at huse
    omega
  · obtain ⟨-, rfl, -⟩ := emptyDisk_entry.mp he
    exact (emptyDisk_isDir.mpr rfl).inUse
  · obtain rfl := emptyDisk_isDir.mp hd
    refine ⟨⟨0, emptyDisk_entry.mpr ⟨rfl, rfl, Or.inl ⟨rfl, rfl⟩⟩⟩, fun he => ?_⟩
    exact (emptyDisk_entry.mp he).2.1
  · obtain rfl := emptyDisk_isDir.mp hd
    refine ⟨1, Or.inl ⟨rfl, rfl⟩, ⟨1, emptyDisk_entry.mpr ⟨rfl, rfl, Or.inr ⟨rfl, rfl⟩⟩⟩,
      fun he => ?_⟩
    exact (emptyDisk_entry.mp he).2.1

/-- `/home/a/f`. -/
def pathAF : CString := ⟨homePath ++ [0x2f, 0x61, 0x2f, 0x66], by decide⟩

/-- `/home/.`. -/
def pathDot : CString := ⟨homePath ++ [0x2f, 0x2e], by decide⟩

/-- `/home/a/.`. -/
def pathADot : CString := ⟨homePath ++ [0x2f, 0x61, 0x2f, 0x2e], by decide⟩

/-- A directory and a file in it are made, and the file is removed. -/
theorem tree_of_reached_removed :
    ∃ s, Reached (TreeSafe formattedLayout) systemDisk emptyDisk s ∧
      (s.vol formattedLayout 1).IsDir 2 ∧ (s.vol formattedLayout 1).Tree := by
  have hrun : (playFrom (TreeSafe formattedLayout) systemDisk emptyDisk
      [(1, .mkdir pathA), (1, .open pathAF FILECTRL_CREATE), (1, .rm pathAF)]).any (fun s =>
        decide ((s.vol formattedLayout 1).IsDir 2)) = true := by decide +kernel
  obtain ⟨s, hs, hdir⟩ := Reached.of_playFrom hrun
  exact ⟨s, hs, of_decide_eq_true hdir, tree_of_reached emptyDisk_consistent rfl (by decide)
    (formatted_wholeEntries (by decide) (by decide)) emptyDisk_rooted emptyDisk_tree hs⟩

/-- Removing `/home/.` removes the root of the device.  Removing `/home/a/.` removes the
directory `/home/a`, but not the entry for it. -/
theorem tree_not_kept :
    (emptyDisk.vol formattedLayout).Tree ∧
    (∃ s, Reached (Tame formattedLayout) systemDisk emptyDisk s ∧
      ¬ InUse (s.vol formattedLayout 1) 1 ∧ ¬ (s.vol formattedLayout 1).Tree) ∧
    ∃ s, Reached (Tame formattedLayout) systemDisk emptyDisk s ∧
      (s.vol formattedLayout 1).IsDir 1 ∧ ((s.vol formattedLayout 1).ent 1 2).1 = 2 ∧
      ¬ InUse (s.vol formattedLayout 1) 2 ∧ ¬ (s.vol formattedLayout 1).Tree := by
  refine ⟨emptyDisk_tree, ?_, ?_⟩
  · have hrun : (playFrom (Tame formattedLayout) systemDisk emptyDisk
        [(1, .rm pathDot)]).any (fun s =>
          decide (¬ InUse (s.vol formattedLayout 1) 1)) = true := by decide +kernel
    obtain ⟨s, hs, hroot⟩ := Reached.of_playFrom hrun
    have hroot := of_decide_eq_true hroot
    exact ⟨s, hs, hroot, fun ht => hroot ht.root_dir.inUse⟩
  · have hrun : (playFrom (Tame formattedLayout) systemDisk emptyDisk
        [(1, .mkdir pathA), (1, .rm pathADot)]).any (fun s =>
          decide ((s.vol formattedLayout 1).IsDir 1 ∧ 2 < (s.vol formattedLayout 1).nents 1 ∧
            ((s.vol formattedLayout 1).ent 1 2).1 = 2 ∧
            ¬ InUse (s.vol formattedLayout 1) 2)) = true := by decide +kernel
    obtain ⟨s, hs, hQ⟩ := Reached.of_playFrom hrun
    obtain ⟨hdir, hlt, hent, hfree⟩ := of_decide_eq_true hQ
    refine ⟨s, hs, hdir, hent, hfree, fun ht => hfree ?_⟩
    exact ht.entries (d := 1) (k := 2) (n := 2) ⟨hdir, hlt, Prod.ext hent rfl, by decide⟩

end Empty

end Dmaos
