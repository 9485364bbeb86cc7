import Dmaos.System.Name

/-!
# What a system call does to the volume

The calls that write to device 1 change its volume in one of four ways.
`Effect` lists them: bytes are written to an inode, an inode is cut, a new
inode is filled and linked into a directory (`Creates`), an entry of a
directory is cleared and its inode retired (`Removes`).  Every invariant of
runs is shown by going through these cases.
-/

namespace Dmaos

/-! ## New files and directories -/

/-- A new inode before it has a name: an empty file, or a directory with
entries for itself and for the directory `d` it is made in. -/
inductive Born (L : Layout) (S : Nat → Prop) (d n : Nat) (V : Vol) : Nat → Vol → Prop where
  | file : Born L S d n V FT_FILE (V.allocIno n FT_FILE)
  | dir {V₁ V₂ : Vol}
      (self : Wrote L S n 0 32 (specialDirent dot n) (V.allocIno n FT_DIRECTORY) V₁)
      (parent : Wrote L S n 32 32 (specialDirent dotdot d) V₁ V₂) :
      Born L S d n V FT_DIRECTORY V₂

/-- Directory `d` has no room for an entry: its last entry is cut off, or it has
the largest size. -/
def NoRoom (V : Vol) (d : Nat) : Prop :=
  (V.ino d).size % 32 ≠ 0 ∨ maxSize < (V.ino d).size + 32

/-- Inode `n` has been made a new file or directory, and linked into directory
`d` unless there is no room for the entry. -/
structure Creates (L : Layout) (S : Nat → Prop) (d n type : Nat) (name : List Byte)
    (V V₁ V' : Vol) : Prop where
  isDir : V.IsDir d
  /-- No entry has the name yet. -/
  fresh : ∀ i, ¬ EntryNamed V d name i
  pos : 0 < n
  lt : n < L.ninodes
  free : inUse V n = false
  first : ∀ m, 0 < m → m < n → inUse V m = true
  born : Born L (Also S n) d n V type V₁
  link : V' = V₁ ∧ NoRoom V₁ d ∨
    ∃ k, FreeEntry V₁ d k ∧ Wrote L (Also S n) d (32 * k) 32 (newDirent name n) V₁ V'

/-- Entry `k` of directory `d`, which names inode `v`, has been cleared, and `v`
has been emptied and retired. -/
structure Removes (L : Layout) (S : Nat → Prop) (d k v : Nat) (name : List Byte)
    (V V₁ V₂ V' : Vol) : Prop where
  isDir : V.IsDir d
  named : EntryNamed V d name k
  inum : (V.ent d k).1 = v
  /-- A directory that is removed has no proper entries. -/
  empty : V.IsDir v → ∀ i < V.nents v, ¬ Proper (V.ent v i)
  wrote : Wrote L S d (32 * k) 32 Buf.zero V V₁
  cut : V₂ = V₁ ∧ (V₁.ino v).size = 0 ∨ Cut L S v 0 V₁ V₂
  retired : V' = V₂.retireIno v

/-- What a call does to the volume, in short. -/
inductive Act where
  | none
  /-- Bytes are written to inode `n`. -/
  | write (n : Nat)
  /-- Inode `n` gets shorter. -/
  | cut (n : Nat)
  /-- Inode `n` is made in directory `d`. -/
  | create (d n : Nat) (name : List Byte)
  /-- Inode `v` is removed from directory `d`. -/
  | remove (d v : Nat) (name : List Byte)

/-- What a call does to the volume and to the set of known inodes. -/
inductive Effect (L : Layout) (S : Nat → Prop) (V : Vol) :
    Act → (Nat → Prop) → Vol → Prop where
  | none : Effect L S V .none S V
  | write {n off len : Nat} {src : Buf} {V' : Vol} (mem : S n)
      (wrote : Wrote L S n off len src V V') : Effect L S V (.write n) S V'
  | cut {n size : Nat} {V' : Vol} (mem : S n) (cut : Cut L S n size V V') :
      Effect L S V (.cut n) S V'
  | create {d n type : Nat} {name : List Byte} {V₁ V' : Vol}
      (creates : Creates L S d n type name V V₁ V') :
      Effect L S V (.create d n name) (Also S n) V'
  | remove {d k v : Nat} {name : List Byte} {V₁ V₂ V' : Vol}
      (removes : Removes L S d k v name V V₁ V₂ V') : Effect L S V (.remove d v name) S V'

/-! ## The entries of a new directory -/

theorem specialDirent_inum (name : List Byte) (inum : Nat) :
    Dirent.inum (specialDirent name inum) = inum % 2 ^ 16 := by
  rw [← Buf.le16_put16 Buf.zero 0 inum]
  refine Buf.le16_congr ?_ ?_
  · unfold specialDirent strncpy
    exact Buf.copy_of_not_mem (by omega)
  · unfold specialDirent strncpy
    exact Buf.copy_of_not_mem (by omega)

section Born

variable {L : Layout} {S : Nat → Prop} {d n type : Nat} {V V₁ : Vol}

/-- A directory that is in use is not the new inode. -/
theorem Vol.IsDir.ne_of_free (hd : V.IsDir d) (hfree : Dmaos.inUse V n = false) : d ≠ n := by
  rintro rfl
  rw [hd.inUse] at hfree
  cases hfree

/-- The other files are the same while the new inode is filled. -/
theorem Born.sameFile (h : Born L (Also S n) d n V type V₁) (hw : WF L S V)
    (hn : n < L.ninodes) {m : Nat} (hm : S m) (hmn : m ≠ n) : SameFile V V₁ m := by
  have hm' : Also S n m := Or.inl hm
  have halloc : ∀ type, SameFile V (V.allocIno n type) m :=
    fun type => sameFile_setIno V _ hmn (hw.shaped hm)
  cases h with
  | file => exact halloc _
  | dir self parent =>
      have hw₁ : WF L (Also S n) (V.allocIno n FT_DIRECTORY) := hw.alloc hn
      have h₁ := self.sameFile hmn hm' (hw₁.shaped hm')
      have h₂ := parent.sameFile hmn hm' (h₁.shaped (hw₁.shaped hm'))
      exact ((halloc _).trans h₁).trans h₂

/-- The new inode has the type asked for. -/
theorem Born.type_eq (h : Born L (Also S n) d n V type V₁) : (V₁.ino n).type = type := by
  cases h with
  | file => rw [allocIno_ino_self]
  | dir self parent => rw [parent.type_eq, self.type_eq, allocIno_ino_self]

end Born

end Dmaos
