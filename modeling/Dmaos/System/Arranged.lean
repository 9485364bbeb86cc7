import Dmaos.System.Hierarchy
import Dmaos.System.Apart

/-!
# Volumes on which every file has one path

`Vol.Arranged` says that the name space of a volume is a tree in which every inode in use has a path
from the root, and that the names in a directory are different.  Then the path is the only one, and
it leads to this inode only.  The calls keep this (`Reached.arranged`), if none changes a directory
through a descriptor, none removes anything as `.` or `..`, and there is an inode in the table for
what is made.
-/

namespace Dmaos

open Fault

variable {L : Layout} {S S' : Nat → Prop} {sb : Superblock} {V' : Vol} {d n v : Nat}
  {name : List Byte} {a : Act}

/-- The name space of the volume is a tree in which every file has one path. -/
structure Vol.Arranged (V : Vol) : Prop where
  whole : WholeEntries V
  tree : V.Tree
  rooted : V.Rooted
  connected : V.hierarchy.Connected dot dotdot 1
  distinct : V.hierarchy.Distinct dot dotdot

/-- An image on which the file system can run, and on which every file has one path. -/
structure Device.Arranged (L : Layout) (d : Device) : Prop extends d.Consistent L where
  small : L.ninodes ≤ 2 ^ 16
  arranged : (d.vol L).Arranged

/-- A name that fits into an entry. -/
abbrev Fit (name : List Byte) : Prop := 0 ∉ name ∧ name.length < DIRSIZ

/-- The calls that keep the volume arranged. -/
def Careful (L : Layout) (p : Fin PROCS_MAX) (c : Syscall) (s : KState) : Prop :=
  TreeSafe L p c s ∧ (c.MayCreate → Room L s)

instance (L : Layout) (s : KState) : Decidable (Room L s) :=
  decidable_of_iff ((s.sb 1).ninodes ≤ L.ninodes ∨
      ∃ m, m < L.ninodes ∧ 0 < m ∧ inUse (s.vol L 1) m = false)
    (or_congr_right (exists_congr fun _ => and_left_comm))

instance : (c : Syscall) → Decidable c.MayCreate
  | .open _ flags => inferInstanceAs (Decidable (hasFlag flags FILECTRL_CREATE = true))
  | .mkdir _ => .isTrue trivial
  | .rm _ | .read _ _ | .write _ _ _ | .close _ | .lseek _ _ _ | .ftruncate _ _
  | .getFileName _ _ | .getFileSize _ | .stat _ | .chdir _ | .spawn _ | .exit | .wait _
  | .other => .isFalse id

instance (L : Layout) (p : Fin PROCS_MAX) (c : Syscall) (s : KState) :
    Decidable (Careful L p c s) := by
  unfold Careful
  infer_instance

/-! ## Effects -/

section Effects

variable {V V₁ V₂ : Vol} {k type : Nat}

/-- The entry of a new file has the name that was asked for. -/
theorem name_newDirent_eq (hname : Fit name) (inum : Nat) :
    cstr (Dirent.name (newDirent name inum)) DIRSIZ = name := by
  cases name with
  | nil =>
      have hzero : Dirent.name (newDirent [] inum) 0 = 0 := newDirent_name_of_lt (by decide) [] inum
      simp [cstr, Buf.slice, DIRSIZ, List.range_succ_eq_map, hzero]
  | cons b bs =>
      exact Short.name_newDirent ⟨hname.1, Nat.le_add_left 1 _, Nat.le_of_lt_succ hname.2⟩ inum

/-- The new node stands in its directory under the name that was asked for. -/
theorem Creates.grows_as (h : Creates L S d n type name V V₁ V') (hw : WF L S V)
    (hV : V.Arranged) (hfits : L.Fits sb) (h16 : L.ninodes ≤ 2 ^ 16) (hname : Fit name) :
    ∃ k, V.hierarchy.Grows dot dotdot V'.hierarchy d k n name := by
  have hroom : ¬ NoRoom V₁ d := by
    rw [NoRoom, (h.before hw).ino]
    exact hV.whole.room hw hfits h.isDir
  obtain ⟨k, x, hgrows⟩ := h.grows hw hV.tree hroom h16
  obtain ⟨j, hj, hwrote⟩ : ∃ j, FreeEntry V₁ d j ∧
      Wrote L (Also S n) d (32 * j) 32 (newDirent name n) V₁ V' :=
    h.link.resolve_left fun hno => hroom hno.2
  -- The entry that is written is the one the new node stands at.
  have hentry : V'.hierarchy.entry d j n name := by
    refine (hwrote.entry_self ((h.before hw).isDir.mpr h.isDir)).mpr ⟨?_, ?_, ?_⟩
    · rw [inum_newDirent, Nat.mod_eq_of_lt (Nat.lt_of_lt_of_le h.lt h16)]
    · exact (name_newDirent_eq hname n).symm
    · exact Nat.pos_iff_ne_zero.mp h.pos
  rcases (hgrows.entry hgrows.dir_ne).mp hentry with hold | ⟨-, -, -, rfl⟩
  · exact absurd (hV.tree.entries hold) hgrows.free
  · exact ⟨k, hgrows⟩

theorem Creates.fresh_name (h : Creates L S d n type name V V₁ V')
    (hname : Fit name) {j m : Nat} : ¬ V.hierarchy.entry d j m name := by
  rintro ⟨-, hj, he, hm⟩
  refine h.fresh j ⟨hj, ?_, (matches_iff hname.1 hname.2).mpr (congrArg Prod.snd he)⟩
  exact fun h0 => hm ((congrArg Prod.fst he).symm.trans h0)

theorem Removes.shrinks_as (h : Removes L S d k v name V V₁ V₂ V') (hw : WF L S V)
    (hname : Fit name ∧ name ≠ dot ∧ name ≠ dotdot) :
    V.hierarchy.Shrinks dot dotdot V'.hierarchy d k v := by
  have heq : (V.ent d k).2 = name := (matches_iff hname.1.1 hname.1.2).mp h.named.named
  exact h.shrinks hw ⟨h.named.inum_ne, heq ▸ hname.2.1, heq ▸ hname.2.2⟩

theorem Removes.ne_root (h : Removes L S d k v name V V₁ V₂ V') (hw : WF L S V) (hV : V.Arranged)
    (hname : Fit name ∧ name ≠ dot ∧ name ≠ dotdot) : v ≠ 1 := by
  rintro rfl
  exact hV.rooted d k (h.shrinks_as hw hname).named

/-- Bytes of files are not part of the hierarchy. -/
theorem Effect.hierarchy_eq (he : Effect L S V a S' V') (hw : WF L S V)
    (hfile : ∀ n, a = .write n ∨ a = .cut n → ¬ V.IsDir n)
    (ha : ∃ n, a = .write n ∨ a = .cut n) : V'.hierarchy = V.hierarchy := by
  cases he with
  | @write n _ _ _ _ mem wrote =>
      refine hierarchy_of_file (fun m => ?_) (fun m hmn hd =>
        wrote.sameFile hmn (hw.used hd.inUse) (hw.shaped (hw.used hd.inUse)))
        (hfile n (Or.inl rfl))
      by_cases hm : m = n
      · rw [hm, wrote.type_eq]
      · rw [wrote.ino hm]
  | @cut n _ _ mem cut =>
      refine hierarchy_of_file (fun m => ?_) (fun m hmn hd =>
        cut.sameFile hmn (hw.used hd.inUse) (hw.shaped (hw.used hd.inUse)))
        (hfile n (Or.inr rfl))
      by_cases hm : m = n
      · rw [hm, cut.type_eq]
      · rw [cut.reduce.ino hm]
  | _ => simp at ha

end Effects

/-! ## Runs -/

section Runs

variable {s : KState} {p : Fin PROCS_MAX} {c : Syscall} {d0 d1 : Device}

theorem Does.created (h : Does L p c s (.create d n name)) : Fit name := by
  obtain ⟨-, path, -, hon⟩ := h
  rw [hon.name_eq]
  exact lastName_short path.2

theorem Does.removed (h : Does L p c s (.remove d v name))
    (hs : c.SparesDots) : Fit name ∧ name ≠ dot ∧ name ≠ dotdot := by
  obtain ⟨path, rfl, hon⟩ := h
  rw [hon.name_eq]
  exact ⟨lastName_short path.2, hs⟩

/-- Every effect of a call keeps the volume arranged. -/
theorem Vol.Arranged.effect (h : (s.vol L 1).Arranged) (hw : WF L S (s.vol L 1))
    (hfits : L.Fits sb) (h16 : L.ninodes ≤ 2 ^ 16) (hc : Careful L p c s) (hdo : Does L p c s a)
    (he : Effect L S (s.vol L 1) a S' V') : V'.Arranged := by
  have hfile := hdo.not_isDir hc.1.1
  have hwhole := h.whole.effect hfile he
  obtain ⟨htree, hrooted⟩ := h.tree.effect h.rooted h.whole hw hfits h16 hfile
    (fun d v name ha => Does.removed (ha ▸ hdo) hc.1.2) he
  have hsame (ha : ∃ n, a = .write n ∨ a = .cut n) : V'.Arranged := by
    have heq := he.hierarchy_eq hw hfile ha
    exact ⟨hwhole, htree, hrooted, by rw [heq]; exact h.connected, by rw [heq]; exact h.distinct⟩
  cases he with
  | none => exact h
  | @write n => exact hsame ⟨n, Or.inl rfl⟩
  | @cut n => exact hsame ⟨n, Or.inr rfl⟩
  | create creates =>
      obtain ⟨k, hg⟩ := creates.grows_as hw h hfits h16 hdo.created
      exact ⟨hwhole, htree, hrooted, Hierarchy.Connected.grow h.connected hg,
        Hierarchy.Distinct.grow h.distinct hg (creates.fresh_name hdo.created)⟩
  | remove removes =>
      have hname := hdo.removed hc.1.2
      have hg := removes.shrinks_as hw hname
      exact ⟨hwhole, htree, hrooted,
        Hierarchy.Connected.shrink h.connected hg h.tree (removes.ne_root hw h hname),
        Hierarchy.Distinct.shrink h.distinct hg⟩

/-- The volume stays arranged. -/
theorem Reached.arranged (himg : d1.Arranged L) (h : Reached (Careful L) d0 d1 s) :
    ∃ S, Disk L S s ∧ (s.vol L 1).Arranged :=
  (h.invariant (J := fun _ => Vol.Arranged) himg.toConsistent (fun hP _ => ⟨hP.2, hP.1.1.write⟩)
    himg.arranged fun hd hV hP hA he => hV.effect hd.wf hd.fits himg.small hP hA he).2

end Runs

/-- The empty device. -/
theorem emptyDisk_arranged : emptyDisk.Arranged formattedLayout where
  toConsistent := emptyDisk_consistent
  small := by decide
  arranged :=
    { whole := formatted_wholeEntries (by decide) (by decide)
      tree := emptyDisk_tree
      rooted := emptyDisk_rooted
      connected := by
        intro n hn
        have huse := (formatted_inUse (by decide) (by decide)).mp hn
        obtain rfl : n = 1 := by
          simp only [List.length_cons, List.length_nil] at huse
          omega
        exact ⟨[], .root⟩
      distinct := fun he he' _ _ =>
        (emptyDisk_entry.mp he).2.1.trans (emptyDisk_entry.mp he').2.1.symm }

end Dmaos
