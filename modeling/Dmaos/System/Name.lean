import Dmaos.System.Dir

/-!
# Path resolution and the disk invariant

`namex` takes references to inodes and gives them back; it reads directories
on both devices, crosses from one to the other at the mount point, and keeps
the invariant `Disk`.  When it is asked for the parent directory, the slot it
returns has been read, and is for a directory if it is on device 1.

So `Disk` is a policy, and all calls that only resolve names and move
references keep it.
-/

namespace Dmaos

open Fault

variable {L : Layout} {S : Nat → Prop} {dp ip : Fin NINODE} {s s' : KState} {name path : List Byte}
  {o : Option (Fin NINODE)}

section Lookup

/-- On either device, `dirlookup` reads, and takes a reference to an inode of the
device of the directory if it finds the name. -/
theorem dirlookupLoop_shape :
    ∀ {k off : Nat} {o : Option (Fin NINODE × Nat)} {s : KState},
      dirlookupLoop dp name k off s = .ok o s' →
      ∃ t, Calm s t ∧ (o = none ∧ t = s' ∨
        ∃ ip i m, o = some (ip, i) ∧ iget (s.inodeTable dp).dev m t = .ok ip s')
  | 0, off, o, s, hx => by
      obtain ⟨rfl, rfl⟩ := pure_ok.mp hx
      exact ⟨s, .refl s, Or.inl ⟨rfl, rfl⟩⟩
  | k + 1, off, o, s, hx => by
      unfold dirlookupLoop at hx
      replace hx := inodeAt_then hx
      split_ifs at hx with hsize
      · obtain ⟨rfl, rfl⟩ := pure_ok.mp hx
        exact ⟨s, .refl s, Or.inl ⟨rfl, rfl⟩⟩
      · obtain ⟨o', t, hr, hx⟩ := bind_ok.mp hx
        have hc := Calm.of_ok .readDirent hr
        have next : dirlookupLoop dp name k (off + direntSize) t = .ok o s' →
            ∃ t, Calm s t ∧ (o = none ∧ t = s' ∨
              ∃ ip i m, o = some (ip, i) ∧ iget (s.inodeTable dp).dev m t = .ok ip s') := by
          intro hrest
          obtain ⟨t', hc', hcase⟩ := dirlookupLoop_shape hrest
          rw [hc.dev] at hcase
          exact ⟨t', trans_of Calm hc hc', hcase⟩
        cases o' with
        | none =>
            obtain ⟨rfl, rfl⟩ := pure_ok.mp hx
            exact ⟨_, hc, Or.inl ⟨rfl, rfl⟩⟩
        | some de =>
            simp only at hx
            split_ifs at hx with h0 hm
            · exact next hx
            · obtain ⟨ip, t', hg, hx⟩ := bind_ok.mp hx
              obtain ⟨rfl, rfl⟩ := pure_ok.mp hx
              exact ⟨t, hc, Or.inr ⟨ip, _, _, rfl, hg⟩⟩
            · exact next hx

/-- The inode found is on the device of the directory. -/
theorem dirlookup_dev {off : Nat} (hx : dirlookup dp name s = .ok (some (ip, off)) s') :
    (s'.inodeTable ip).dev = (s.inodeTable dp).dev := by
  replace hx := inodeAt_then hx
  split_ifs at hx with htype
  · obtain ⟨ho, -⟩ := pure_ok.mp hx
    cases ho
  · obtain ⟨u, t, hl, hx⟩ := bind_ok.mp hx
    replace hx := inodeAt_then hx
    obtain ⟨t', -, ⟨ho, -⟩ | ⟨ip', i, m, ho, hg⟩⟩ := dirlookupLoop_shape hx
    · cases ho
    · cases ho
      rw [(iget_holds hg).dev_eq, (Calm.ilock.of_ok hl).dev]

/-- `dirlookup` keeps the invariant, if the slot has been read. -/
theorem Disk.dirlookup {o : Option (Fin NINODE × Nat)} (h : Disk L S s)
    (hv : 0 < (s.inodeTable dp).ref ∧ (s.inodeTable dp).valid = true)
    (hx : dirlookup dp name s = .ok o s') : Disk L S s' := by
  by_cases hd : (s.inodeTable dp).dev = 1
  · -- On device 1 the entry names an inode in `S`.
    obtain ⟨hr, hval⟩ := hv
    have hS : S (s.inodeTable dp).inum := (h.held ⟨hr, hd, rfl⟩).1
    by_cases hdir : (s.vol L 1).IsDir (s.inodeTable dp).inum
    · have hat : DirAt L (s.inodeTable dp).inum dp s :=
        { ref := hr, dev_eq := hd, inum_eq := rfl, valid := hval, isDir := hdir }
      obtain ⟨t, hc, hcase⟩ := dirlookup_ok (hat.on h) hx
      rcases hcase with ⟨-, rfl, -⟩ | ⟨ip, i, -, hi, -, hg⟩
      · exact h.of_calm hc
      · exact (h.of_calm hc).iget hg (Or.inr ⟨rfl, hi.mem h.wf hdir⟩)
    · have hrd : Ready L 1 (s.inodeTable dp).inum dp s :=
        { toCached := h.toCached, ref := hr, dev_eq := hd, inum_eq := rfl, lt := h.wf.lt hS,
          valid := hval }
      unfold Dmaos.dirlookup at hx
      replace hx := inodeAt_then hx
      have hne : ((s.vol L 1).ino (s.inodeTable dp).inum).type ≠ FT_DIRECTORY := hdir
      rw [hrd.type, if_pos hne] at hx
      obtain ⟨-, rfl⟩ := pure_ok.mp hx
      exact h
  · unfold Dmaos.dirlookup at hx
    replace hx := inodeAt_then hx
    split_ifs at hx with htype
    · obtain ⟨-, rfl⟩ := pure_ok.mp hx
      exact h
    · obtain ⟨u, t, hl, hx⟩ := bind_ok.mp hx
      have hc := Calm.ilock.of_ok hl
      replace hx := inodeAt_then hx
      obtain ⟨t', hc', hcase⟩ := dirlookupLoop_shape hx
      have hs' := (h.of_calm hc).of_calm hc'
      rcases hcase with ⟨-, rfl⟩ | ⟨ip, i, m, -, hg⟩
      · exact hs'
      · rw [hc.dev] at hg
        exact hs'.iget hg (Or.inl ((h.known hv.1).resolve_right fun h1 => hd h1.1))

end Lookup

/-! ## Mount points -/

section Mounts

theorem Disk.mountParent (h : Disk L S s)
    (hx : mountParent ip name s = .ok o s') : Disk L S s' := by
  unfold Dmaos.mountParent at hx
  replace hx := inodeAt_then hx
  split_ifs at hx with hcond
  · replace hx := get_then hx
    cases hm : s.mounts.find? (fun m => m.childDev == (s.inodeTable ip).dev) with
    | none =>
        simp only [hm] at hx
        obtain ⟨-, rfl⟩ := pure_ok.mp hx
        exact h
    | some m =>
        simp only [hm] at hx
        have hmem := List.mem_of_find?_eq_some hm
        obtain ⟨pm, t₁, hg, hx⟩ := bind_ok.mp hx
        have h₁ := h.iget hg (h.mounts m hmem).2
        obtain ⟨u, t₂, hl, hx⟩ := bind_ok.mp hx
        have h₂ := h₁.of_calm (Calm.ilock.of_ok hl)
        obtain ⟨o', t₃, hlook, hx⟩ := bind_ok.mp hx
        have h₃ := h₂.dirlookup (ilock_valid hl) hlook
        obtain ⟨u, t₄, hp, hx⟩ := bind_ok.mp hx
        obtain ⟨-, rfl⟩ := pure_ok.mp hx
        exact h₃.iput hp
  · obtain ⟨-, rfl⟩ := pure_ok.mp hx
    exact h

theorem Disk.mountChild {i : Fin NINODE} (h : Disk L S s) (hx : mountChild ip s = .ok i s') :
    Disk L S s' := by
  unfold Dmaos.mountChild at hx
  replace hx := inodeAt_then hx
  replace hx := get_then hx
  cases hm : s.mounts.find? (fun m => m.parentDev == (s.inodeTable ip).dev &&
      m.parentInum == (s.inodeTable ip).inum) with
  | none =>
      simp only [hm] at hx
      obtain ⟨-, rfl⟩ := pure_ok.mp hx
      exact h
  | some m =>
      simp only [hm] at hx
      obtain ⟨u, t₁, hp, hx⟩ := bind_ok.mp hx
      exact (h.iput hp).iget hx (Or.inr ⟨(h.mounts m (List.mem_of_find?_eq_some hm)).1,
        .of_lt h.wf.root (by decide)⟩)

end Mounts

/-! ## `namex` -/

section Names

variable {l : List (Fin NINODE)} {parent : Bool}

theorem skipto_length {rest : List Byte} (h : skipto path = some (name, rest)) :
    rest.length < path.length := by
  unfold skipto at h
  have h1 := (List.dropWhile_sublist (p := (· = slash)) (l := path)).length_le
  cases hp : path.dropWhile (· = slash) with
  | nil =>
      rw [hp] at h
      cases h
  | cons b p =>
      have hb : b ≠ slash := by
        have := List.head?_dropWhile_not (· = slash) path
        rw [hp] at this
        simpa using this
      rw [hp] at h h1
      cases h
      have h2 := (List.dropWhile_sublist (p := (· ≠ slash)) (l := p)).length_le
      have h3 := (List.dropWhile_sublist (p := (· = slash))
        (l := (b :: p).dropWhile (· ≠ slash))).length_le
      have h4 : (b :: p).dropWhile (fun c => decide (c ≠ slash)) =
          p.dropWhile (fun c => decide (c ≠ slash)) := by
        rw [List.dropWhile_cons_of_pos (by simpa using hb)]
      rw [h4] at h3
      rw [h4]
      simp only [List.length_cons] at h1
      omega

theorem Disk.namexNext (h : Disk L S s) (hr : Refs (ip :: l) s)
    (hv : 0 < (s.inodeTable ip).ref ∧ (s.inodeTable ip).valid = true)
    (hx : namexNext ip name s = .ok o s') : Disk L S s' := by
  obtain ⟨o', t, hm, hx⟩ := bind_ok.mp hx
  have ht := h.mountParent hm
  cases o' with
  | some next =>
      obtain ⟨-, rfl⟩ := pure_ok.mp hx
      exact ht
  | none =>
      obtain ⟨o', t', hl, hx⟩ := bind_ok.mp hx
      obtain ⟨-, rfl⟩ := pure_ok.mp hx
      refine ht.dirlookup ?_ hl
      -- The slot is referred to, so it is still the same.
      obtain ⟨hrefs, hstable⟩ := Nets.mountParent.refs hr hm
      exact ⟨hrefs.pos (by simp), (hstable ip (refsTo_pos_of_mem (by simp))).valid hv.2⟩

/-- The loop of `namex`. -/
theorem Disk.namexLoop :
    ∀ {k : Nat} {path : List Byte} {ip : Fin NINODE} {name : List Byte}
      {r : Option (Fin NINODE) × List Byte} {s : KState}, path.length < k → Disk L S s →
      Refs (ip :: l) s → namexLoop parent k path ip name s = .ok r s' →
      Disk L S s' ∧ (parent = true → ∀ dp, r.1 = some dp → (s'.inodeTable dp).dev = 1 →
        DirAt L (s'.inodeTable dp).inum dp s')
  | 0, path, ip, name, r, s, hk, h, hr, hx => by omega
  | k + 1, path, ip, name, r, s, hk, h, hr, hx => by
      unfold Dmaos.namexLoop at hx
      cases hskip : skipto path with
      | none =>
        simp only [hskip] at hx
        split_ifs at hx with hp
        · obtain ⟨u, t, hput, hx⟩ := bind_ok.mp hx
          obtain ⟨rfl, rfl⟩ := pure_ok.mp hx
          exact ⟨h.iput hput, fun _ dp hdp => by cases hdp⟩
        · obtain ⟨rfl, rfl⟩ := pure_ok.mp hx
          exact ⟨h, fun hp' => absurd hp' hp⟩
      | some step =>
          obtain ⟨c, rest⟩ := step
          simp only [hskip] at hx
          have hlen := skipto_length hskip
          obtain ⟨u, t, hl, hx⟩ := bind_ok.mp hx
          have hc := Calm.ilock.of_ok hl
          have ht := h.of_calm hc
          have hrt := hc.refs hr
          have hval := ilock_valid hl
          replace hx := inodeAt_then hx
          split_ifs at hx with htype hlast
          · obtain ⟨u, t₂, hput, hx⟩ := bind_ok.mp hx
            obtain ⟨rfl, rfl⟩ := pure_ok.mp hx
            exact ⟨ht.iput hput, fun _ dp hdp => by cases hdp⟩
          · -- The parent directory.
            obtain ⟨rfl, rfl⟩ := pure_ok.mp hx
            refine ⟨ht, fun _ dp hdp hd => ?_⟩
            cases hdp
            have hS := (ht.held ⟨hval.1, hd, rfl⟩).1
            have hrd : Ready L 1 (t.inodeTable ip).inum ip t :=
              { toCached := ht.toCached, ref := hval.1, dev_eq := hd, inum_eq := rfl,
                lt := ht.wf.lt hS, valid := hval.2 }
            refine { toHolds := hrd.toHolds, valid := hval.2, isDir := ?_ }
            unfold Vol.IsDir
            rw [← hrd.type]
            exact not_not.mp htype
          · obtain ⟨o, t₂, hnext, hx⟩ := bind_ok.mp hx
            have ht₂ := ht.namexNext hrt hval hnext
            obtain ⟨hr₂, -⟩ := Nets.namexNext.refs hrt hnext
            cases o with
            | none =>
                obtain ⟨u, t₃, hput, hx⟩ := bind_ok.mp hx
                obtain ⟨rfl, rfl⟩ := pure_ok.mp hx
                exact ⟨ht₂.iput hput, fun _ dp hdp => by cases hdp⟩
            | some next =>
                obtain ⟨next', t₃, hmc, hx⟩ := bind_ok.mp hx
                have ht₃ := ht₂.mountChild hmc
                obtain ⟨hr₃, -⟩ := Nets.mountChild.refs (l := ip :: l) hr₂ hmc
                obtain ⟨u, t₄, hput, hx⟩ := bind_ok.mp hx
                have ht₄ := ht₃.iput hput
                obtain ⟨hr₄, -⟩ := Nets.iput_second.refs (l := l) hr₃ hput
                exact Disk.namexLoop (by omega) ht₄ hr₄ hx

/-- `namex` keeps the invariant, and the parent directory it returns has been
read. -/
theorem Disk.namex {r : Option (Fin NINODE) × List Byte} (h : Disk L S s) (hr : Refs l s)
    (hx : namex path parent s = .ok r s') :
    Disk L S s' ∧ (parent = true → ∀ dp, r.1 = some dp → (s'.inodeTable dp).dev = 1 →
      DirAt L (s'.inodeTable dp).inum dp s') := by
  obtain ⟨ip, t, hstart, hx⟩ := bind_ok.mp hx
  obtain ⟨hrt, -⟩ := Nets.namexStart.refs (l := l) hr hstart
  refine Disk.namexLoop (Nat.lt_add_one _) ?_ hrt hx
  replace hstart := get_then hstart
  split_ifs at hstart with habs
  · exact h.iget hstart (Or.inl rfl)
  · cases hcwd : s.current.bind (fun p => (s.procs p).cwd) with
    | some cwd =>
        simp only [hcwd] at hstart
        obtain ⟨p, -, hp⟩ := Option.bind_eq_some_iff.mp hcwd
        have hpos := Int.lt_of_lt_of_le (refsTo_pos_of_cwd hp) (hr cwd)
        exact h.iget hstart (h.known hpos)
    | none =>
        simp only [hcwd] at hstart
        exact h.iget hstart (Or.inl rfl)

/-! ## The last component of a path -/

/-- The last component of a path, or `name` if it has none. -/
def lastNameLoop : Nat → List Byte → List Byte → List Byte
  | 0, _, name => name
  | k + 1, path, name =>
    match skipto path with
    | none => name
    | some (name, path) => lastNameLoop k path name

/-- The last component of a path, as `namex` leaves it for the caller. -/
def lastName (path : List Byte) : List Byte := lastNameLoop (path.length + 1) path []

theorem lastNameLoop_nil (k : Nat) (name : List Byte) : lastNameLoop k [] name = name := by
  cases k with
  | zero => rfl
  | succ k => rfl

theorem namexLoop_name :
    ∀ {k : Nat} {path : List Byte} {ip : Fin NINODE} {name : List Byte}
      {r : Option (Fin NINODE) × List Byte} {s : KState}, r.1 = some dp →
      namexLoop true k path ip name s = .ok r s' → r.2 = lastNameLoop k path name
  | 0, path, ip, name, r, s, hr, hx => by
      obtain ⟨rfl, -⟩ := pure_ok.mp hx
      rfl
  | k + 1, path, ip, name, r, s, hr, hx => by
      unfold Dmaos.namexLoop at hx
      cases hskip : skipto path with
      | none =>
          simp only [hskip] at hx
          obtain ⟨u, t, -, hx⟩ := bind_ok.mp hx
          obtain ⟨rfl, -⟩ := pure_ok.mp hx
          cases hr
      | some step =>
          obtain ⟨c, rest⟩ := step
          simp only [hskip] at hx
          simp only [lastNameLoop, hskip]
          obtain ⟨u, t, -, hx⟩ := bind_ok.mp hx
          obtain ⟨I, t, -, hx⟩ := bind_ok.mp hx
          split_ifs at hx with htype hlast
          · obtain ⟨u, t₂, -, hx⟩ := bind_ok.mp hx
            obtain ⟨rfl, -⟩ := pure_ok.mp hx
            cases hr
          · obtain ⟨rfl, -⟩ := pure_ok.mp hx
            rw [hlast.2, lastNameLoop_nil]
          · obtain ⟨o, t₂, -, hx⟩ := bind_ok.mp hx
            cases o with
            | none =>
                obtain ⟨u, t₃, -, hx⟩ := bind_ok.mp hx
                obtain ⟨rfl, -⟩ := pure_ok.mp hx
                cases hr
            | some next =>
                obtain ⟨next', t₃, -, hx⟩ := bind_ok.mp hx
                obtain ⟨u, t₄, -, hx⟩ := bind_ok.mp hx
                exact namexLoop_name hr hx

/-- The name `namex` leaves with the parent directory. -/
theorem namex_name (hx : namex path true s = .ok (some dp, name) s') : name = lastName path := by
  obtain ⟨ip, t, -, hx⟩ := bind_ok.mp hx
  exact namexLoop_name rfl hx

/-- What `namex` does with the last component when it is not asked for the
parent directory. -/
def namexEnd (dp : Fin NINODE) (name : List Byte) : Kern (Option (Fin NINODE) × List Byte) := do
  match ← namexNext dp name with
  | none =>
    iput dp
    return (none, name)
  | some next =>
    let next ← mountChild next
    iput dp
    return (some next, name)

theorem namexLoop_nil (k : Nat) (ip : Fin NINODE) (name : List Byte) :
    namexLoop false k [] ip name = pure (some ip, name) := by
  cases k with
  | zero => rfl
  | succ k => rfl

theorem namexLoop_of_parent :
    ∀ {k : Nat} {path : List Byte} {ip : Fin NINODE} {y : List Byte} {s : KState},
      path.length < k → namexLoop true k path ip y s = .ok (some dp, name) s' →
      namexLoop false k path ip y s = namexEnd dp name s'
  | 0, path, ip, y, s, hk, hx => by omega
  | k + 1, path, ip, y, s, hk, hx => by
      unfold Dmaos.namexLoop at hx ⊢
      cases hskip : skipto path with
      | none =>
          simp only [hskip] at hx
          obtain ⟨u, t, -, hx⟩ := bind_ok.mp hx
          obtain ⟨hdp, -⟩ := pure_ok.mp hx
          cases hdp
      | some step =>
          obtain ⟨c, rest⟩ := step
          simp only [hskip] at hx ⊢
          have hlen := skipto_length hskip
          obtain ⟨u, t, hl, hx⟩ := bind_ok.mp hx
          obtain ⟨I, t₁, hI, hx⟩ := bind_ok.mp hx
          rw [run_bind hl, run_bind hI]
          split_ifs at hx with htype hlast
          · obtain ⟨u, t₂, -, hx⟩ := bind_ok.mp hx
            obtain ⟨hdp, -⟩ := pure_ok.mp hx
            cases hdp
          · -- The last component.
            obtain ⟨hdp, rfl⟩ := pure_ok.mp hx
            cases hdp
            obtain ⟨-, rfl⟩ := hlast
            rw [if_neg htype, if_neg (by simp)]
            simp only [namexLoop_nil]
            rfl
          · rw [if_neg htype, if_neg (by simp)]
            obtain ⟨o, t₂, hnext, hx⟩ := bind_ok.mp hx
            rw [run_bind hnext]
            cases o with
            | none =>
                obtain ⟨u, t₃, -, hx⟩ := bind_ok.mp hx
                obtain ⟨hdp, -⟩ := pure_ok.mp hx
                cases hdp
            | some next =>
                obtain ⟨next', t₃, hmc, hx⟩ := bind_ok.mp hx
                obtain ⟨u, t₄, hput, hx⟩ := bind_ok.mp hx
                dsimp only
                rw [run_bind hmc, run_bind hput]
                exact namexLoop_of_parent (by omega) hx

/-- `namei` resolves all components but the last as `namex` does for the parent
directory. -/
theorem namei_of_parent (hx : namex path true s = .ok (some dp, name) s') :
    namei path s = (do
      let (ip, _) ← namexEnd dp name
      return ip : Kern (Option (Fin NINODE))) s' := by
  obtain ⟨ip, t, hstart, hx⟩ := bind_ok.mp hx
  have hloop := namexLoop_of_parent (Nat.lt_add_one _) hx
  unfold namei Dmaos.namex
  show ((namexStart path >>= fun ip => Dmaos.namexLoop false (path.length + 1) path ip []) >>=
    fun r => pure r.1) s = (namexEnd dp name >>= fun r => pure r.1) s'
  rw [bind_assoc, run_bind hstart]
  show EStateM.bind _ _ _ = EStateM.bind _ _ _
  rw [EStateM.bind, EStateM.bind, hloop]

end Names

/-! ## The policy -/

/-- No block is written and the superblocks stay. -/
def SameDisk (s s' : KState) : Prop := s'.disk = s.disk ∧ s'.sb = s.sb

instance : IsPreorder KState SameDisk where
  refl _ := ⟨rfl, rfl⟩
  trans _ _ _ h₁ h₂ := ⟨h₂.1.trans h₁.1, h₂.2.trans h₁.2⟩

/-- The calls that write to no device keep the invariant. -/
def diskPolicy (L : Layout) (S : Nat → Prop) : Policy where
  Inv := Disk L S
  Rel := SameDisk
  unwritten h := ⟨h.disk, h.sb⟩
  putFile _ _ h _ := h.tables rfl rfl rfl rfl
  putIp _ _ h _ _ _ := h.tables rfl rfl rfl rfl
  putProc _ _ h := h.tables rfl rfl rfl rfl
  setCurrent _ h := h.tables rfl rfl rfl rfl
  calm h hc := h.of_calm hc
  iput h hx := h.iput hx
  iget := by
    intro l s s' dev inum i hr h hcase hx
    refine h.iget hx ?_
    rcases hcase with rfl | ⟨j, hj⟩
    · exact Or.inl rfl
    · rw [← hj.dev_eq, ← hj.inum_eq]
      exact h.known hj.ref
  namex hr h hx := (h.namex hr hx).1

end Dmaos
