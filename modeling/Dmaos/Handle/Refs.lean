import Dmaos.Lib.Tally
import Dmaos.Refine.Confined
import Dmaos.Refine.Trunc

/-!
# Reference counts

A slot of the inode cache may be recycled when its reference count is zero.
`Refs l s` says that the counts are large enough: the count of a slot covers
the open files on it, the processes whose working directory it is, and the
references `l` the running call holds.  So a slot somebody refers to is never
recycled.
-/

namespace Dmaos

open Fault KState

variable {I I' I'' : Inode} {s s' : KState} {i ip : Fin NINODE} {l : List (Fin NINODE)} {d : Nat}
  {u : Unit}

/-! ## Effects -/

/-- The tables other than the inode cache do not change. -/
structure Tables (s s' : KState) : Prop where
  sb : s'.sb = s.sb
  mounts : s'.mounts = s.mounts
  fileTable : s'.fileTable = s.fileTable
  procs : s'.procs = s.procs
  current : s'.current = s.current

instance : IsPreorder KState Tables where
  refl _ := ⟨rfl, rfl, rfl, rfl, rfl⟩
  trans _ _ _ h₁ h₂ := ⟨h₂.sb.trans h₁.sb, h₂.mounts.trans h₁.mounts,
    h₂.fileTable.trans h₁.fileTable, h₂.procs.trans h₁.procs, h₂.current.trans h₁.current⟩

/-- Only the inode cache changes. -/
structure Idle (s s' : KState) : Prop extends Tables s s' where
  disk : s'.disk = s.disk
  writes : s'.writes = s.writes

instance : IsPreorder KState Idle where
  refl _ := ⟨refl_of Tables _, rfl, rfl⟩
  trans _ _ _ h₁ h₂ := ⟨trans_of Tables h₁.toTables h₂.toTables, h₂.disk.trans h₁.disk,
    h₂.writes.trans h₁.writes⟩

/-- A slot in use is as it was. -/
structure Inode.Same (I I' : Inode) : Prop where
  ref : 0 < I.ref
  valid : I.valid = true
  dev : I'.dev = I.dev
  inum : I'.inum = I.inum
  dinode : I'.dinode = I.dinode

theorem Inode.Same.trans (h₁ : I.Same I') (h₂ : I'.Same I'') : I.Same I'' :=
  ⟨h₁.ref, h₁.valid, h₂.dev.trans h₁.dev, h₂.inum.trans h₁.inum, h₂.dinode.trans h₁.dinode⟩

/-- What is read from the device again is the same. -/
theorem Inode.Same.fetched (h : (s.inodeTable i).Same (s'.inodeTable i))
    (hdisk : s'.disk (s.inodeTable i).dev = s.disk (s.inodeTable i).dev) (hsb : s'.sb = s.sb) :
    (s'.fetched i).dinode = (s.fetched i).dinode := by
  unfold KState.fetched KState.blk
  rw [h.dev, h.inum, hdisk, hsb]

/-- A slot changes only by being read from the device. -/
structure Calm (s s' : KState) : Prop extends Idle s s' where
  slot : ∀ i, s'.inodeTable i = s.inodeTable i ∨ s'.inodeTable i = s.fetched i

/-- What is read from the device again is the same. -/
theorem Calm.fetched (h : Calm s s') (i : Fin NINODE) : s'.fetched i = s.fetched i := by
  unfold KState.fetched KState.blk
  rw [h.disk, h.sb]
  rcases h.slot i with hi | hi <;> rw [hi]
  unfold KState.fetched KState.blk
  rfl

instance : IsPreorder KState Calm where
  refl _ := ⟨refl_of Idle _, fun _ => Or.inl rfl⟩
  trans _ _ _ h₁ h₂ := by
    refine ⟨trans_of Idle h₁.toIdle h₂.toIdle, fun i => ?_⟩
    rcases h₂.slot i with h | h
    · rw [h]
      exact h₁.slot i
    · rw [h, h₁.fetched]
      exact Or.inr rfl

/-- Only the inode cache changes, and a slot that is in use and has been read
holds what it held before or what the device holds. -/
structure Still (s s' : KState) : Prop extends Idle s s' where
  slot : ∀ i, 0 < (s'.inodeTable i).ref → (s'.inodeTable i).valid = true →
    (s'.inodeTable i).dinode = (s'.fetched i).dinode ∨ (s.inodeTable i).Same (s'.inodeTable i)

instance : IsPreorder KState Still where
  refl _ := ⟨refl_of Idle _, fun _ hr hv => Or.inr ⟨hr, hv, rfl, rfl, rfl⟩⟩
  trans _ _ _ h₁ h₂ := by
    refine ⟨trans_of Idle h₁.toIdle h₂.toIdle, fun i hr hv => ?_⟩
    rcases h₂.slot i hr hv with h | h
    · exact Or.inl h
    · rcases h₁.slot i h.ref h.valid with h' | h'
      · left
        rw [h.dinode, h', h.fetched (by rw [h₂.disk]) h₂.sb]
      · exact Or.inr (h'.trans h)

namespace Calm

theorem refl (s : KState) : Calm s s := refl_of Calm s

theorem dev (h : Calm s s') (i : Fin NINODE) : (s'.inodeTable i).dev = (s.inodeTable i).dev := by
  rcases h.slot i with hi | hi
  · rw [hi]
  · rw [hi]
    rfl

theorem inum (h : Calm s s') (i : Fin NINODE) : (s'.inodeTable i).inum = (s.inodeTable i).inum := by
  rcases h.slot i with hi | hi
  · rw [hi]
  · rw [hi]
    rfl

theorem ref (h : Calm s s') (i : Fin NINODE) : (s'.inodeTable i).ref = (s.inodeTable i).ref := by
  rcases h.slot i with hi | hi
  · rw [hi]
  · rw [hi]
    rfl

theorem still (h : Calm s s') : Still s s' := by
  refine ⟨h.toIdle, fun i hr hv => ?_⟩
  rw [h.ref] at hr
  rcases h.slot i with hi | hi
  · rw [hi] at hv ⊢
    exact Or.inr ⟨hr, hv, rfl, rfl, rfl⟩
  · left
    rw [h.fetched, hi]

theorem valid (h : Calm s s') (hv : (s.inodeTable i).valid = true) :
    (s'.inodeTable i).valid = true := by
  rcases h.slot i with hi | hi
  · rwa [hi]
  · rw [hi]
    rfl

end Calm

instance : Fetching Calm where
  fetch s ip := by
    refine ⟨⟨⟨rfl, rfl, rfl, rfl, rfl⟩, rfl, rfl⟩, fun i => ?_⟩
    by_cases hi : i = ip
    · subst hi
      exact Or.inr putInode_self
    · exact Or.inl (putInode_of_ne hi)

theorem Calm.of_ok {α : Type} {x : Kern α} {a : α} (h : Within Calm x)
    (hx : x s = .ok a s') : Calm s s' := Confined.of_ok h hx

theorem Calm.ilock : Within Calm (ilock ip) := .ilock

/-! ## Reference counts -/

/-- The open files on a slot. -/
def fileRefs (s : KState) (i : Fin NINODE) : Int := Tally.count (fun f => (s.fileTable f).ip) i

/-- The processes whose working directory a slot is. -/
def cwdRefs (s : KState) (i : Fin NINODE) : Int := Tally.count (fun p => (s.procs p).cwd) i

/-- The references to a slot, those of the running call included. -/
def refsTo (l : List (Fin NINODE)) (s : KState) (i : Fin NINODE) : Int :=
  fileRefs s i + cwdRefs s i + l.count i

/-- The reference counts are large enough. -/
def Refs (l : List (Fin NINODE)) (s : KState) : Prop := ∀ i, refsTo l s i ≤ (s.inodeTable i).ref

/-- A slot is for the same inode as before, and has been read if it had. -/
structure Inode.Kept (I I' : Inode) : Prop where
  dev : I'.dev = I.dev
  inum : I'.inum = I.inum
  valid : I.valid = true → I'.valid = true

theorem Inode.Kept.refl (I : Inode) : I.Kept I := ⟨rfl, rfl, id⟩

theorem Inode.Kept.trans (h₁ : I.Kept I') (h₂ : I'.Kept I'') : I.Kept I'' :=
  ⟨h₂.dev.trans h₁.dev, h₂.inum.trans h₁.inum, fun h => h₂.valid (h₁.valid h)⟩

/-- The slots referred to are kept. -/
def Stable (l : List (Fin NINODE)) (s s' : KState) : Prop :=
  ∀ i, 0 < refsTo l s i → (s.inodeTable i).Kept (s'.inodeTable i)

section Refs

variable {l' : List (Fin NINODE)} {s'' : KState}

theorem refsTo_append : refsTo (l ++ l') s i = refsTo l s i + l'.count i := by
  unfold refsTo
  rw [List.count_append]
  omega

theorem refsTo_cons : refsTo (ip :: l) s i = refsTo l s i + if ip = i then 1 else 0 := by
  unfold refsTo
  rw [List.count_cons]
  split_ifs <;> simp_all
  omega

theorem refsTo_nonneg : 0 ≤ refsTo l s i := by
  have h1 := Tally.count_nonneg (fun f => (s.fileTable f).ip) i
  have h2 := Tally.count_nonneg (fun p => (s.procs p).cwd) i
  unfold refsTo fileRefs cwdRefs
  omega

theorem refsTo_pos_of_mem (h : i ∈ l) : 0 < refsTo l s i := by
  have h1 := Tally.count_nonneg (fun f => (s.fileTable f).ip) i
  have h2 := Tally.count_nonneg (fun p => (s.procs p).cwd) i
  have h3 := List.count_pos_iff.mpr h
  unfold refsTo fileRefs cwdRefs
  omega

theorem Tables.refsTo_eq (h : Tables s s') : refsTo l s' i = refsTo l s i := by
  unfold refsTo fileRefs cwdRefs
  rw [h.fileTable, h.procs]

theorem Refs.perm (h : Refs l s) (hp : l.Perm l') : Refs l' s := by
  intro i
  have := h i
  unfold refsTo at this ⊢
  rwa [← hp.count_eq]

theorem Calm.refs (h : Calm s s') (hr : Refs l s) : Refs l s' := by
  intro i
  rw [h.toTables.refsTo_eq, h.ref]
  exact hr i

/-- References may be forgotten. -/
theorem Refs.sub (h : Refs (l' ++ l) s) : Refs l s := by
  intro i
  have h1 := h i
  have h2 := refsTo_nonneg (l := []) (s := s) (i := i)
  unfold refsTo at h1 ⊢
  rw [List.count_append] at h1
  omega

/-- A slot the call refers to is in use. -/
theorem Refs.pos (h : Refs l s) (hi : i ∈ l) : 0 < (s.inodeTable i).ref :=
  Int.lt_of_lt_of_le (refsTo_pos_of_mem hi) (h i)

theorem Stable.trans (ht : Tables s s') (h₁ : Stable l s s') (h₂ : Stable l s' s'') :
    Stable l s s'' := by
  intro i hi
  exact (h₁ i hi).trans (h₂ i (by rwa [ht.refsTo_eq]))

theorem Touches.tables (h : Touches d ip s s') :
    Tables s s' := ⟨h.sb, h.mounts, h.fileTable, h.procs, h.current⟩

theorem Touches.kept (h : Touches d ip s s')
    (i : Fin NINODE) : (s.inodeTable i).Kept (s'.inodeTable i) := by
  refine ⟨(h.slot i).1, (h.slot i).2.1, fun hv => ?_⟩
  by_cases hi : i = ip
  · subst hi
    exact h.slot_valid hv
  · rwa [h.slots i hi]

theorem Touches.refs (h : Touches d ip s s') (hr : Refs l s) : Refs l s' := by
  intro i
  rw [h.tables.refsTo_eq, (h.slot i).2.2]
  exact hr i

end Refs

/-! ## `iget` and `iput` -/

section Cache

variable {dev inum : Nat}

/-- `iget` finds the slot of the inode, or takes a free one. -/
theorem iget_ok (h : iget dev inum s = .ok i s') :
    (0 < (s.inodeTable i).ref ∧ (s.inodeTable i).dev = dev ∧ (s.inodeTable i).inum = inum ∧
      s' = s.putInode i { s.inodeTable i with ref := (s.inodeTable i).ref + 1 }) ∨
    ((∀ j, 0 < (s.inodeTable j).ref → (s.inodeTable j).dev = dev →
        (s.inodeTable j).inum ≠ inum) ∧ (s.inodeTable i).ref = 0 ∧
      s' = s.putInode i
        { dev := dev, inum := inum, ref := 1, valid := false,
          dinode := (s.inodeTable i).dinode }) := by
  unfold iget at h
  split at h
  · next j hj =>
      cases h
      have := List.find?_some hj
      simp only [Bool.and_eq_true, decide_eq_true_eq, beq_iff_eq] at this
      exact Or.inl ⟨this.1.1, this.1.2, this.2, rfl⟩
  · next hnone =>
      split at h
      · next j hj =>
          cases h
          have hfree := List.find?_some hj
          refine Or.inr ⟨fun k hk hd hn => ?_, by simpa using hfree, rfl⟩
          have := List.find?_eq_none.mp hnone k (List.mem_finRange k)
          simp [hk, hd, hn] at this
      · cases h

/-- The slot `iget` returns is in use for the inode. -/
theorem iget_holds (h : iget dev inum s = .ok i s') : Holds dev inum i s' := by
  rcases iget_ok h with ⟨h1, h2, h3, rfl⟩ | ⟨-, -, rfl⟩
  · refine ⟨?_, ?_, ?_⟩ <;> rw [putInode_self]
    · show 0 < (s.inodeTable i).ref + 1
      omega
    · exact h2
    · exact h3
  · refine ⟨?_, ?_, ?_⟩ <;> rw [putInode_self]
    exact Int.zero_lt_one

theorem Idle.putInode (s : KState) (i : Fin NINODE) (I : Inode) : Idle s (s.putInode i I) :=
  ⟨⟨rfl, rfl, rfl, rfl, rfl⟩, rfl, rfl⟩

theorem Still.putInode
    (h : 0 < I.ref → I.valid = true → (s.inodeTable i).Same I) : Still s (s.putInode i I) := by
  refine ⟨Idle.putInode s i I, fun j hr hv => Or.inr ?_⟩
  by_cases hj : j = i
  · subst hj
    rw [putInode_self] at hr hv ⊢
    exact h hr hv
  · rw [putInode_of_ne hj] at hr hv ⊢
    exact ⟨hr, hv, rfl, rfl, rfl⟩

instance : Counting Still where
  fetch s ip := (Fetching.fetch (R := Calm) s ip).still
  iget dev inum s := by
    unfold iget
    split
    · next j hj =>
        have := List.find?_some hj
        simp only [Bool.and_eq_true, decide_eq_true_eq] at this
        exact .putInode fun _ hv => ⟨this.1.1, hv, rfl, rfl, rfl⟩
    · split
      · exact .putInode fun _ hv => by cases hv
      · exact refl_of Still s
  iput ip s := by
    unfold iput
    split_ifs with h
    · exact refl_of Still s
    · exact .putInode fun _ hv => ⟨by omega, hv, rfl, rfl, rfl⟩

theorem Still.of_ok {α : Type} {x : Kern α} {a : α} (h : Within Still x)
    (hx : x s = .ok a s') : Still s s' := Confined.of_ok h hx

theorem Idle.iget : Within Idle (iget dev inum) := Confined.mono (R := Still) .iget Still.toIdle

theorem Idle.iput : Within Idle (iput ip) := Confined.mono (R := Still) .iput Still.toIdle

theorem iput_ok (h : iput ip s = .ok u s') :
    0 < (s.inodeTable ip).ref ∧
      s' = s.putInode ip { s.inodeTable ip with ref := (s.inodeTable ip).ref - 1 } := by
  unfold iput at h
  split_ifs at h with h0
  cases h
  exact ⟨by omega, rfl⟩

/-- `iput` leaves a slot as it is but for its references. -/
theorem iput_kept (h : iput ip s = .ok u s') (i : Fin NINODE) :
    (s.inodeTable i).Kept (s'.inodeTable i) := by
  obtain ⟨-, rfl⟩ := iput_ok h
  by_cases hi : i = ip
  · subst hi
    rw [putInode_self]
    exact ⟨rfl, rfl, id⟩
  · rw [putInode_of_ne hi]
    exact .refl _

end Cache

end Dmaos
