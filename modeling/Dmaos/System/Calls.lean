import Dmaos.System.Effect
import Dmaos.Handle.ReadOnly

/-!
# The effect of each system call

Every system call that returns has one of the effects of `Effect` on the
volume, and keeps the invariant `Disk` (`handleSyscall_performs`).  `Does`
says which call can have which effect.
-/

namespace Dmaos

open Fault KState

variable {s t s' t' : KState} {path name : List Byte} {d flags k : Nat} {L : Layout}
  {S : Nat → Prop} {A : Act → Prop} {p : Fin PROCS_MAX} {r : Int} {ip dp : Fin NINODE} {b : Bool}
  {c : Syscall}

/-! ## Acts of a call -/

/-- The slot behind a descriptor of process `p`. -/
def KState.fdSlot (s : KState) (p : Fin PROCS_MAX) (fd : Int) : Option (Fin NINODE) :=
  if h : 0 ≤ fd ∧ fd < NUM_FILES_PER_PROCESS then
    ((s.procs p).ofile ⟨fd.toNat, descriptor_lt h⟩).bind fun f => (s.fileTable f).ip
  else none

/-- The device and the number of the inode behind a descriptor of process `p`. -/
def KState.fdInode (s : KState) (p : Fin PROCS_MAX) (fd : Int) : Option (Nat × Nat) :=
  (s.fdSlot p fd).map fun ip => ((s.inodeTable ip).dev, (s.inodeTable ip).inum)

/-- The calls that make a new file or directory. -/
def Syscall.MayCreate : Syscall → Prop
  | .open _ flags => hasFlag flags FILECTRL_CREATE = true
  | .mkdir _ => True
  | _ => False

/-- The path of a call that opens, makes or removes what an entry of a directory names. -/
def Syscall.entryPath : Syscall → Option CString
  | .open path _ => some path
  | .mkdir path => some path
  | .rm path => some path
  | _ => none

/-- The directory of device 1 that holds the last component of a path. -/
def ParentOn (s : KState) (path : List Byte) (d : Nat) (name : List Byte) : Prop :=
  ∃ dp t, namex path true s = .ok (some dp, name) t ∧
    (t.inodeTable dp).dev = 1 ∧ (t.inodeTable dp).inum = d

theorem ParentOn.name_eq (h : ParentOn s path d name) : name = lastName path := by
  obtain ⟨dp, t, hx, -⟩ := h
  exact namex_name hx

/-- What call `c` of process `p` may do to the volume, in the directory `namex` has found for its
path. -/
def Does (L : Layout) (p : Fin PROCS_MAX) (c : Syscall) (s : KState) : Act → Prop
  | .none => True
  | .write n => ∃ fd buf len, c = .write fd buf len ∧ s.fdInode p fd = some (1, n)
  | .cut n => (∃ path flags, c = .open path flags) ∧ ((s.vol L 1).ino n).type = FT_FILE ∨
      ∃ fd len, c = .ftruncate fd len ∧ s.fdInode p fd = some (1, n)
  | .create d _ name => c.MayCreate ∧ ∃ path, c.entryPath = some path ∧
      ParentOn { s with current := some p } path.1 d name
  | .remove d _ name => ∃ path, c = .rm path ∧ ParentOn { s with current := some p } path.1 d name

/-- The volume changes by an act in `A`, and the invariant is kept. -/
def Performs (L : Layout) (S : Nat → Prop) (A : Act → Prop) (s s' : KState) : Prop :=
  ∃ a S', A a ∧ Effect L S (s.vol L 1) a S' (s'.vol L 1) ∧ Disk L S' s' ∧ s'.sb = s.sb

section Frame

variable {α : Type} {p : List (Fin NINODE)} {q : α → List (Fin NINODE)} {x : Kern α} {a : α}

theorem Performs.idle (h : Disk L S s') (hvol : s'.vol L 1 = s.vol L 1) (hsb : s'.sb = s.sb)
    (hA : A .none) : Performs L S A s s' := by
  refine ⟨.none, S, hA, ?_, h, hsb⟩
  rw [hvol]
  exact .none

theorem Performs.pure {y r : Int} (h : Disk L S s) (hA : A .none)
    (hx : (pure y : Kern Int) s = .ok r s') : Performs L S A s s' := by
  obtain ⟨-, rfl⟩ := pure_ok.mp hx
  exact .idle h rfl rfl hA

theorem Idle.vol_eq {dev : Nat} (h : Idle s s') :
    s'.vol L dev = s.vol L dev := vol_congr (by rw [h.disk]) h.sb

/-- What keeps every policy can come after. -/
theorem Performs.after (h : Performs L S A s t) (hr : Refs p t) (ha : x t = .ok a s')
    (hx : ∀ S', Guard (diskPolicy L S') p t → ServesAt (diskPolicy L S') t x (fun _ => [])) :
    Performs L S A s s' := by
  obtain ⟨act, S', hA, he, hd, hsb'⟩ := h
  obtain ⟨⟨hdisk, hsb⟩, hg⟩ := (hx S' ⟨hr, hd⟩).of_ok ha
  refine ⟨act, S', hA, ?_, hg.inv, hsb.trans hsb'⟩
  rwa [vol_congr (by rw [hdisk]) hsb]

/-- What keeps every policy can come before. -/
theorem Performs.before (hdisk : t.disk = s.disk) (hsb : t.sb = s.sb)
    (h : Performs L S A t s') : Performs L S A s s' := by
  unfold Performs at h ⊢
  rwa [vol_congr (by rw [hdisk]) hsb, hsb] at h

theorem TakesOn.of_ok {l : List (Fin NINODE)} (h : TakesOn d p x q)
    (hr : Refs (p ++ l) s) (hp : AllOn d p s) (ha : x s = .ok a s') :
    Refs (q a ++ l) s' ∧ Stable l s s' :=
  have h' := (h l s hr hp).2 a s' ha
  ⟨h'.1, h'.2.1⟩

end Frame

/-! ## `write` and `ftruncate` -/

section Descriptors

variable {fd n length : Int} {buf : Buf}

theorem fdFile_ok {o : Option (Fin PROCS_MAX × Fin NUM_FILES_PER_PROCESS ×
    Fin GLOBAL_OPEN_FILE_LIMIT)} (hp : s.current = some p) (hx : fdFile fd s = .ok o s') :
    s = s' ∧ ∀ q i f, o = some (q, i, f) → s.fdSlot p fd = (s.fileTable f).ip := by
  obtain ⟨p', t, hc, hx⟩ := bind_ok.mp hx
  replace hc := get_then hc
  rw [hp] at hc
  obtain ⟨rfl, rfl⟩ := pure_ok.mp hc
  replace hx := get_then hx
  split_ifs at hx with hfd
  · obtain ⟨rfl, rfl⟩ := pure_ok.mp hx
    refine ⟨rfl, fun q i f ho => ?_⟩
    obtain ⟨g, hf, he⟩ := Option.map_eq_some_iff.mp ho
    cases he
    simp only [fdSlot, dif_pos hfd, hf, Option.bind_some]
  · obtain ⟨rfl, rfl⟩ := pure_ok.mp hx
    exact ⟨rfl, fun q i f ho => by cases ho⟩

/-- A call on a descriptor goes on without a file, or with one. -/
theorem fdFile_then {f : Option (Fin PROCS_MAX × Fin NUM_FILES_PER_PROCESS ×
    Fin GLOBAL_OPEN_FILE_LIMIT) → Kern α} {a : α} (hp : s.current = some p)
    (hx : (fdFile fd >>= f) s = .ok a s') : f none s = .ok a s' ∨
      ∃ q i g, s.fdSlot p fd = (s.fileTable g).ip ∧ f (some (q, i, g)) s = .ok a s' := by
  obtain ⟨o, t, ho, hx⟩ := bind_ok.mp hx
  obtain ⟨rfl, hslot⟩ := fdFile_ok hp ho
  rcases o with _ | ⟨q, i, g⟩
  · exact .inl hx
  · exact .inr ⟨q, i, g, hslot q i g rfl, hx⟩

/-- Work on the inode of a slot that is not for device 1. -/
theorem Performs.other (h : Disk L S s) (hd : (s.inodeTable ip).dev ≠ 1)
    (ht : Touches (s.inodeTable ip).dev ip s s') (hA : A .none) : Performs L S A s s' :=
  .idle (h.of_other ht hd rfl) (vol_congr (ht.disk 1 hd.symm) ht.sb) ht.sb hA

theorem fsWrite_performs (h : Disk L S s) (hr : Refs [] s) (hp : s.current = some p)
    (htame : ∀ m, s.fdInode p fd = some (1, m) → ¬ (s.vol L 1).IsDir m) (hnone : A .none)
    (hwrite : ∀ m, s.fdInode p fd = some (1, m) → A (.write m))
    (hx : fsWrite fd buf n s = .ok r s') : Performs L S A s s' := by
  obtain hx | ⟨q, i, f, hslot, hx⟩ := fdFile_then hp hx
  · exact .pure h hnone hx
  replace hx := get_then hx
  dsimp only at hx
  split_ifs at hx with htype hw
  · exact .pure h hnone hx
  · exact .pure h hnone hx
  cases hft : (s.fileTable f).type with
  | none => exact absurd hft htype
  | console =>
      simp only [hft] at hx
      exact .pure h hnone hx
  | inode =>
      simp only [hft] at hx
      cases hip : (s.fileTable f).ip with
      | none =>
          simp only [hip] at hx
          exact .pure h hnone hx
      | some ip =>
          simp only [hip] at hx hslot
          obtain ⟨w, t, hwr, hx⟩ := bind_ok.mp hx
          have hpos := writei_pos hwr
          have ht : Touches (s.inodeTable ip).dev ip s t := LocalOn.writei.of_ok rfl hwr
          -- What comes after `writei` only moves the offset.
          refine Performs.after (t := t) ?_ (ht.refs hr) hx fun S' hS' => by
            split_ifs
            · exact Serves.bind .setOff (fun _ => .pure rfl) t hS'
            · exact .pure hS'
            · exact .pure hS'
          rcases h.known hpos with hd | ⟨hd, -⟩
          · exact .other h (by rw [hd]; decide) ht hnone
          · have hfd : s.fdInode p fd = some (1, (s.inodeTable ip).inum) := by
              rw [fdInode, hslot, Option.map_some, hd]
            obtain ⟨hS, hwork, hcase⟩ := h.writei hd rfl hwr
            rcases hcase with ⟨-, hvol, -⟩ | ⟨-, hwrote⟩
            · refine .idle (hwork.disk h ?_) hvol ht.sb hnone
              rw [hvol]
              exact h.wf
            · refine ⟨.write (s.inodeTable ip).inum, S, hwrite _ hfd, .write hS hwrote,
                hwork.disk h (hwrote.wf hS h.wf fun hdir => ?_), ht.sb⟩
              exact absurd hdir (htame _ hfd)

theorem fsFtruncate_performs (h : Disk L S s) (hp : s.current = some p)
    (hnone : A .none) (hcut : ∀ m, s.fdInode p fd = some (1, m) → A (.cut m))
    (hx : fsFtruncate fd length s = .ok r s') : Performs L S A s s' := by
  obtain hx | ⟨q, i, f, hslot, hx⟩ := fdFile_then hp hx
  · exact .pure h hnone hx
  replace hx := get_then hx
  split_ifs at hx with hw htype hlen
  · exact .pure h hnone hx
  · exact .pure h hnone hx
  · exact .pure h hnone hx
  cases hft : (s.fileTable f).type with
  | none => exact absurd hft htype
  | console =>
      simp only [hft] at hx
      exact .pure h hnone hx
  | inode =>
      cases hip : (s.fileTable f).ip with
      | none =>
          simp only [hft, hip] at hx
          cases hx
      | some ip =>
          simp only [hft, hip] at hx hslot
          obtain ⟨u, t, htr, hx⟩ := bind_ok.mp hx
          obtain ⟨-, rfl⟩ := pure_ok.mp hx
          have hpos := itrunc_pos htr
          have ht : Touches (s.inodeTable ip).dev ip s t := LocalOn.itrunc.of_ok rfl htr
          rcases h.known hpos with hd | ⟨hd, -⟩
          · exact .other h (by rw [hd]; decide) ht hnone
          · obtain ⟨hS, -, h₁, ⟨-, hvol⟩ | hshorter⟩ := h.itrunc hd rfl htr
            · exact .idle h₁ hvol ht.sb hnone
            · refine ⟨.cut _, S, hcut _ ?_, .cut hS hshorter, h₁, ht.sb⟩
              rw [fdInode, hslot, Option.map_some, hd]

end Descriptors

/-! ## `open` -/

section Open

variable {path : CString}

/-- A slot for an inode of device 1 that has been read. -/
theorem Disk.ready (h : Disk L S s) (hd : (s.inodeTable ip).dev = 1)
    (hv : 0 < (s.inodeTable ip).ref ∧ (s.inodeTable ip).valid = true) :
    Ready L 1 (s.inodeTable ip).inum ip s :=
  { toCached := h.toCached, ref := hv.1, dev_eq := hd, inum_eq := rfl,
    lt := h.wf.lt (h.held ⟨hv.1, hd, rfl⟩).1, valid := hv.2 }

theorem Disk.dev_eq (h : Disk L S s) (hr : 0 < (s.inodeTable ip).ref)
    (hd : (s.inodeTable ip).dev ≠ 0) : (s.inodeTable ip).dev = 1 :=
  ((h.known hr).resolve_left hd).1

/-- A regular file is emptied and opened. -/
theorem truncate_performs {u : Unit} (h : Disk L S s) (hd : (s.inodeTable ip).dev = 1)
    (hv : 0 < (s.inodeTable ip).ref ∧ (s.inodeTable ip).valid = true)
    (htype : (s.inodeTable ip).dinode.type = FT_FILE)
    (hnone : A .none) (hcut : ((s.vol L 1).ino (s.inodeTable ip).inum).type = FT_FILE →
      A (.cut (s.inodeTable ip).inum))
    (hx : itrunc ip 0 s = .ok u t) : Performs L S A s t := by
  rw [(h.ready hd hv).type] at htype
  obtain ⟨hS, hwork, h₁, ⟨-, hvol⟩ | hshort⟩ := h.itrunc hd rfl hx
  · exact .idle h₁ hvol hwork.touches.sb hnone
  · exact ⟨.cut _, S, hcut htype, .cut hS hshort, h₁, hwork.touches.sb⟩

/-- `fs_open` cuts no file but the one the path leads to. -/
theorem fsOpen_performs {path : List Byte} (h : Disk L S s) (hr : Refs [] s) (hnone : A .none)
    (hcut : ∀ {ip t}, namei path s = .ok (some ip) t → (t.inodeTable ip).dev = 1 →
      ((s.vol L 1).ino (t.inodeTable ip).inum).type = FT_FILE → A (.cut (t.inodeTable ip).inum))
    (hx : fsOpen path flags s = .ok r s') : Performs L S A s s' := by
  have idle : Performs L S A s s := .idle h rfl rfl hnone
  unfold fsOpen at hx
  split_ifs at hx with hcons
  · refine idle.after hr hx fun S' hS' => ?_
    refine Serves.bind .fileCreate (fun o => ?_) s hS'
    cases o with
    | none => exact .pure rfl
    | some f => exact .installFd
  · obtain ⟨o, t, hn, hx⟩ := bind_ok.mp hx
    obtain ⟨⟨hdisk, hsb⟩, hr₁, h₁⟩ := (Serves.namei (P := diskPolicy L S) s ⟨hr, h⟩).of_ok hn
    have hvol : t.vol L 1 = s.vol L 1 := vol_congr (by rw [hdisk]) hsb
    cases o with
    | none =>
        obtain ⟨-, rfl⟩ := pure_ok.mp hx
        exact .idle h₁ hvol hsb hnone
    | some ip =>
        obtain ⟨u, t₂, hl, hx⟩ := bind_ok.mp hx
        have hc := Calm.ilock.of_ok hl
        have h₂ : Disk L S t₂ := Disk.of_calm h₁ hc
        have hr₂ : Refs [ip] t₂ := hc.refs hr₁
        have hv := ilock_valid hl
        have hvol₂ : t₂.vol L 1 = s.vol L 1 := hc.vol_eq.trans hvol
        have idle₂ : Performs L S A s t₂ := .idle h₂ hvol₂ (hc.sb.trans hsb) hnone
        replace hx := inodeAt_then hx
        split_ifs at hx with hperm htrunc
        · refine idle₂.after hr₂ hx fun S' hS' => ?_
          exact Serves.bind .iput (fun _ => .pure rfl) t₂ hS'
        · -- Only `FILECTRL_TRUNCATE` on a regular file of device 1 gets here.
          have hd0 : (t₂.inodeTable ip).dev ≠ 0 :=
            fun h0 => hperm ⟨h0, hasFlag_mono htrunc.1 (by decide)⟩
          have hd := h₂.dev_eq hv.1 hd0
          obtain ⟨u, t₄, htr, hx⟩ := bind_ok.mp hx
          have ht : Touches (t₂.inodeTable ip).dev ip t₂ t₄ := LocalOn.itrunc.of_ok rfl htr
          refine Performs.after (t := t₄) ?_ (ht.refs hr₂) hx fun S' hS' =>
            .allocFileDescriptor hS' (ht.slot_valid hv.2) fun _ => by rwa [ht.slot_dev]
          refine .before (hc.disk.trans hdisk) (hc.sb.trans hsb)
            (truncate_performs h₂ hd hv htrunc.2
            hnone (fun htype => ?_) htr)
          rw [hvol₂, hc.inum] at htype
          rw [hc.inum]
          exact hcut hn (by rw [← hc.dev, hd]) htype
        · exact idle₂.after hr₂ hx fun S' hS' =>
            .allocFileDescriptor hS' hv.2 fun hw h0 => hperm ⟨h0, hasFlag_mono hw (by decide)⟩

end Open

/-! ## Calls in a parent directory -/

/-- `namex` has found the parent directory `dp` of a path. -/
structure Parent (L : Layout) (S : Nat → Prop) (path : List Byte) (dp : Fin NINODE)
    (name : List Byte) (s t : KState) : Prop extends Disk L S t where
  refs : Refs [dp] t
  same : SameDisk s t
  name_eq : name = lastName path
  dir : (t.inodeTable dp).dev ≠ 0 → DirAt L (t.inodeTable dp).inum dp t

section Parents

theorem namex_parent (h : Disk L S s) (hr : Refs [] s)
    (hx : namex path true s = .ok (some dp, name) t) : Parent L S path dp name s t := by
  obtain ⟨h₁, hdir⟩ := h.namex hr hx
  obtain ⟨hr₁, -⟩ := Nets.namex.refs (l := []) hr hx
  have hidle := Still.of_ok .namex hx
  refine ⟨h₁, hr₁, ⟨hidle.disk, hidle.sb⟩, namex_name hx, fun hd => ?_⟩
  exact hdir rfl dp rfl (h₁.dev_eq (hr₁.pos (by simp)) hd)

theorem Parent.vol_eq (h : Parent L S path dp name s t) : t.vol L 1 = s.vol L 1 :=
  vol_congr (by rw [h.same.1]) h.same.2

end Parents

/-! ## Making files and directories -/

/-- Inode `n` has been allocated, in slot `ip`, for an entry `name` of directory
`d`; before, the state was `s`. -/
structure Fresh (L : Layout) (S : Nat → Prop) (d n : Nat) (dp ip : Fin NINODE)
    (name : List Byte) (s t : KState) : Prop extends Disk L (Also S n) t where
  refs : Refs [ip, dp] t
  dir : DirAt L d dp t
  hold : Holds 1 n ip t
  sb : t.sb = s.sb
  wf_before : WF L S (s.vol L 1)
  isDir : (s.vol L 1).IsDir d
  fresh : ∀ i, ¬ EntryNamed (s.vol L 1) d name i
  pos : 0 < n
  lt : n < L.ninodes
  free : inUse (s.vol L 1) n = false
  first : ∀ m, 0 < m → m < n → inUse (s.vol L 1) m = true

section Create

variable {n type : Nat}

theorem DirAt.allOn (h : DirAt L d dp s) : AllOn 1 [dp] s := by
  intro i hi
  rw [List.mem_singleton.mp hi]
  exact h.dev_eq

theorem Fresh.of_ialloc (h : Disk L S s) (hr : Refs [dp] s) (hdir : DirAt L d dp s)
    (hroom : Room L s) (hfresh : ∀ i, ¬ EntryNamed (s.vol L 1) d name i) (htype : type < 2 ^ 16)
    (hx : ialloc 1 type s = .ok (some ip) t) :
    ∃ n, Fresh L S d n dp ip name s t ∧
      t.vol L 1 = (s.vol L 1).allocIno n type := by
  obtain ⟨hr', hstable⟩ := TakesOn.ialloc.of_ok (p := []) (l := [dp]) hr (fun _ h => by cases h) hx
  rcases ialloc_ok h hroom htype hx with ⟨ho, -⟩ | ⟨ip', n, ho, ha⟩
  · cases ho
  · cases ho
    have hne := hdir.isDir.ne_of_free ha.free
    have hsame : SameFile (s.vol L 1) (t.vol L 1) d := by
      rw [ha.vol]
      exact sameFile_setIno _ _ hne (h.wf.shaped (hdir.mem h))
    refine ⟨n, ⟨ha.toDisk, hr', ?_, ha.toHolds, ha.sb, h.wf, hdir.isDir, hfresh, ha.pos, ha.lt,
      ha.free,
      ha.first⟩, ha.vol⟩
    exact hdir.of_kept (hstable dp (refsTo_pos_of_mem (by simp))) (hr'.pos (by simp))
      (hsame.isDir.mpr hdir.isDir)

/-- An entry is written into the new inode. -/
theorem Fresh.writei {src : Buf} (h : Fresh L S d n dp ip name s t)
    (hle : 32 * k ≤ ((t.vol L 1).ino n).size) (hmax : 32 * k + 32 ≤ maxSize)
    (hsrc : Dirent.inum src ≠ 0 → Also S n (Dirent.inum src))
    (hx : writei ip src (32 * k) 32 t = .ok r t') :
    r = 32 ∧ Fresh L S d n dp ip name s t' ∧
      Wrote L (Also S n) n (32 * k) 32 src (t.vol L 1) (t'.vol L 1) := by
  obtain ⟨hS, hwork, ⟨-, -, hout⟩ | ⟨hw, hwrote⟩⟩ :=
    h.toDisk.writei h.hold.dev_eq h.hold.inum_eq hx
  · exact absurd ⟨hle, hmax⟩ hout
  · have hd := hwork.disk h.toDisk (hwrote.wf_ent hS h.wf hsrc)
    have hSd : Also S n d := (h.toDisk.held h.dir.toHolds).1
    have hsame : SameFile (t.vol L 1) (t'.vol L 1) d :=
      hwrote.sameFile (h.isDir.ne_of_free h.free) hSd (h.wf.shaped hSd)
    have hr := hwork.touches.refs h.refs
    refine ⟨hw, ⟨hd, hr, ?_, hwork.toHolds, hwork.touches.sb.trans h.sb, h.wf_before, h.isDir,
      h.fresh, h.pos, h.lt, h.free, h.first⟩, hwrote⟩
    exact h.dir.of_kept (hwork.touches.kept dp) (hr.pos (by simp)) (hsame.isDir.mpr h.dir.isDir)

/-- The new inode gets its name. -/
theorem Fresh.link (h : Fresh L S d n dp ip name s t)
    (hborn : Born L (Also S n) d n (s.vol L 1) type (t.vol L 1)) (hA : A (.create d n name))
    (hx : dirlink dp name n t = .ok r t') : Performs L S A s t' ∧ Refs [dp, ip] t' := by
  have hr : Refs [dp, ip] t := h.refs.perm (.swap _ _ [])
  refine ⟨?_, (TakesOn.dirlink.of_ok (l := [ip]) hr h.dir.allOn hx).1⟩
  have hon := (TakesOn.dirlink [ip] t hr h.dir.allOn).1.of_ok hx
  obtain ⟨hd, hcase⟩ := dirlink_ok h.toDisk h.dir (h.toDisk.held h.hold).2 hx
  refine ⟨.create d n name, Also S n, hA, .create
    ⟨h.isDir, h.fresh, h.pos, h.lt, h.free, h.first, hborn, ?_⟩, hd, hon.sb.trans h.sb⟩
  rcases hcase with ⟨-, hvol, ⟨i, hi⟩ | ⟨hroom, -⟩⟩ | ⟨-, k, hk, hwrote⟩
  · -- The name is still not there.
    have hSd := h.wf_before.used h.isDir.inUse
    have hsame := hborn.sameFile h.wf_before h.lt hSd (h.isDir.ne_of_free h.free)
    exact absurd (hi.congr hsame) (h.fresh i)
  · exact Or.inl ⟨hvol, hroom⟩
  · exact Or.inr ⟨k, hk, hwrote⟩

/-- `dirlookup` in a directory of device 1 that does not find the name. -/
theorem dirlookup_none (h : Disk L S s) (hr : Refs [dp] s) (hdir : DirAt L d dp s)
    (hx : dirlookup dp name s = .ok none t) :
    Calm s t ∧ Refs [dp] t ∧ ∀ i, ¬ EntryNamed (t.vol L 1) d name i := by
  obtain ⟨t', hc, hcase⟩ := dirlookup_ok (hdir.on h) hx
  rcases hcase with ⟨-, rfl, hnone⟩ | ⟨ip, i, ho, -⟩
  · refine ⟨hc, (Nets.dirlookup.refs (l := [dp]) hr hx).1, ?_⟩
    rw [hc.vol_eq]
    exact hnone
  · cases ho

/-- `dirlookup` in a directory of device 1 that finds the name. -/
theorem dirlookup_some {off : Nat} (h : Disk L S s) (hr : Refs [dp] s) (hdir : DirAt L d dp s)
    (hx : dirlookup dp name s = .ok (some (ip, off)) t) :
    Disk L S t ∧ Refs [ip, dp] t ∧ SameDisk s t ∧ DirAt L d dp t ∧
      ∃ k, off = 32 * k ∧ EntryNamed (s.vol L 1) d name k ∧
        (∀ j < k, ¬ EntryNamed (s.vol L 1) d name j) ∧
        Holds 1 ((s.vol L 1).ent d k).1 ip t := by
  have hidle := Still.of_ok .dirlookup hx
  have hvol : t.vol L 1 = s.vol L 1 := vol_congr (by rw [hidle.disk]) hidle.sb
  obtain ⟨hr', hstable⟩ := Nets.dirlookup.refs (l := [dp]) hr hx
  refine ⟨h.dirlookup ⟨hdir.ref, hdir.valid⟩ hx, hr', ⟨hidle.disk, hidle.sb⟩, ?_, ?_⟩
  · refine hdir.of_kept (hstable dp (refsTo_pos_of_mem (by simp))) (hr'.pos (by simp)) ?_
    rw [hvol]
    exact hdir.isDir
  · obtain ⟨t', hc, hcase⟩ := dirlookup_ok (hdir.on h) hx
    rcases hcase with ⟨ho, -⟩ | ⟨ip', k, ho, hk, hfirst, hg⟩
    · cases ho
    · cases ho
      exact ⟨k, rfl, hk, hfirst, iget_holds hg⟩

theorem Room.of_calm (h : Room L s) (hc : Calm s t) : Room L t := by
  unfold Room at h ⊢
  rwa [hc.sb, hc.vol_eq]

/-- The directory is given back and the inode opened. -/
theorem Performs.opened (hp : Performs L S A s t) (hr : Refs [dp, ip] t)
    (hd : (t.inodeTable ip).dev = 1) (hv : (t.inodeTable ip).valid = true)
    (hx : (iput dp >>= fun _ => allocFileDescriptor ip flags) t = .ok r s') :
    Performs L S A s s' := by
  refine hp.after hr hx fun S' hS' => .bind (Serves.iput t hS') fun u t₁ hput ht₁ => ?_
  have hkept := iput_kept hput ip
  refine .allocFileDescriptor ht₁ (hkept.valid hv) fun _ => ?_
  rw [hkept.dev, hd]
  decide

/-- The new inode `n` has been given to `dirlink`. -/
structure Attached (L : Layout) (S : Nat → Prop) (d n : Nat) (dp ip : Fin NINODE)
    (name : List Byte) (s t t' : KState) (w : Int) : Prop extends Fresh L S d n dp ip name s t where
  vol : t.vol L 1 = (s.vol L 1).allocIno n FT_FILE
  valid : (t.inodeTable ip).valid = true
  tables : Tables s t
  link : dirlink dp name n t = .ok w t'

section Attached

variable {w : Int}

theorem Attached.refs_swap (h : Attached L S d n dp ip name s t t' w) : Refs [dp, ip] t :=
  h.refs.perm (.swap _ _ [])

/-- The slot is still for the new inode. -/
theorem Attached.kept (h : Attached L S d n dp ip name s t t' w) :
    (t.inodeTable ip).Kept (t'.inodeTable ip) :=
  (TakesOn.dirlink.of_ok (l := [ip]) h.refs_swap h.dir.allOn h.link).2 ip
    (refsTo_pos_of_mem (by simp))

theorem Attached.tables' (h : Attached L S d n dp ip name s t t' w) : Tables s t' :=
  trans_of Tables h.tables
    ((TakesOn.dirlink [ip] t h.refs_swap h.dir.allOn).1.of_ok h.link).toTables

end Attached

/-- What `fs_create` can do in a directory: there is no inode for a new file, there is
one, or the name is there, and the file is cut if it is to be. -/
inductive Create (L : Layout) (S : Nat → Prop) (d flags : Nat) (dp : Fin NINODE) (name : List Byte)
    (s : KState) (r : Int) (s' : KState) : Prop where
  | full {t : KState} (calm : Calm s t) (refs : Refs [dp] t) (neg : r < 0)
      (put : iput dp t = .ok () s')
  | new {t t₁ t₂ : KState} {ip : Fin NINODE} {n : Nat} {w : Int} (calm : Calm s t)
      (linked : Attached L S d n dp ip name t t₁ t₂ w)
      (rest : w < 0 ∧ r < 0 ∧ (iput ip >>= fun _ => iput dp) t₂ = .ok () s' ∨
        0 ≤ w ∧ (iput dp >>= fun _ => allocFileDescriptor ip flags) t₂ = .ok r s')
  | old {t₁ t₂ : KState} {ip : Fin NINODE} {k : Nat} (idle : Idle s t₁) (disk : Disk L S t₁)
      (refs : Refs [ip, dp] t₁) (ready : Ready L 1 ((s.vol L 1).ent d k).1 ip t₁)
      (named : EntryNamed (s.vol L 1) d name k)
      (first : ∀ j < k, ¬ EntryNamed (s.vol L 1) d name j)
      (cut : t₂ = t₁ ∨ (hasFlag flags FILECTRL_TRUNCATE = true ∧
        (t₁.inodeTable ip).dinode.type = FT_FILE) ∧ itrunc ip 0 t₁ = .ok () t₂)
      (rest : (iput dp >>= fun _ => allocFileDescriptor ip flags) t₂ = .ok r s')

theorem fsCreateIn_cases (h : Disk L S s) (hr : Refs [dp] s) (hdir : DirAt L d dp s)
    (hroom : Room L s) (hx : fsCreateIn dp name flags s = .ok r s') :
    Create L S d flags dp name s r s' := by
  replace hx := inodeAt_then hx
  obtain ⟨o, t, hl, hx⟩ := bind_ok.mp hx
  rcases o with _ | ⟨ip, off⟩
  · obtain ⟨hc, hrt, hfresh⟩ := dirlookup_none h hr hdir hl
    rw [hdir.dev_eq] at hx
    obtain ⟨o, t₁, ha, hx⟩ := bind_ok.mp hx
    cases o with
    | none =>
        rcases ialloc_ok (h.of_calm hc) (hroom.of_calm hc) (by decide) ha with ⟨-, rfl⟩ |
          ⟨ip, n, ho, -⟩
        · obtain ⟨u, t₂, hput, hx⟩ := bind_ok.mp hx
          obtain ⟨rfl, rfl⟩ := pure_ok.mp hx
          exact .full hc hrt (by decide) hput
        · cases ho
    | some ip =>
        obtain ⟨n, hf, hvol⟩ := Fresh.of_ialloc (h.of_calm hc) hrt (hdir.of_calm hc)
          (hroom.of_calm hc) hfresh (by decide) ha
        replace hx := inodeAt_then hx
        rw [hf.hold.inum_eq] at hx
        obtain ⟨w, t₂, hlink, hx⟩ := bind_ok.mp hx
        refine .new hc ⟨hf, hvol, ialloc_valid ha,
          ((TakesOn.ialloc [dp] t hrt fun _ h => by cases h).1.of_ok ha).toTables, hlink⟩ ?_
        split_ifs at hx with hneg
        · obtain ⟨u, t₃, hput, hx⟩ := bind_ok.mp hx
          obtain ⟨u, t₄, hput', hx⟩ := bind_ok.mp hx
          obtain ⟨rfl, rfl⟩ := pure_ok.mp hx
          exact Or.inl ⟨hneg, by decide, (run_bind hput).trans hput'⟩
        · exact Or.inr ⟨Int.not_lt.mp hneg, hx⟩
  · obtain ⟨h₁, hr₁, -, -, k, rfl, hk, hfirst, hold⟩ := dirlookup_some h hr hdir hl
    obtain ⟨u, t₁, hlk, hx⟩ := bind_ok.mp hx
    have hc := Calm.ilock.of_ok hlk
    have hready : Ready L 1 _ ip t₁ :=
      (h₁.of_calm hc).ready (by rw [hc.dev, hold.dev_eq]) (ilock_valid hlk)
    rw [hc.inum, hold.inum_eq] at hready
    replace hx := inodeAt_then hx
    have hidle : Idle s t₁ := trans_of Idle (Still.of_ok .dirlookup hl).toIdle hc.toIdle
    split_ifs at hx with htrunc
    · obtain ⟨u, t₂, htr, hx⟩ := bind_ok.mp hx
      exact .old hidle (h₁.of_calm hc) (hc.refs hr₁) hready hk hfirst (.inr ⟨htrunc, htr⟩) hx
    · exact .old hidle (h₁.of_calm hc) (hc.refs hr₁) hready hk hfirst (.inl rfl) hx

theorem fsCreateIn_performs (h : Disk L S s) (hr : Refs [dp] s)
    (hdir : DirAt L d dp s) (hroom : Room L s) (hnone : A .none)
    (hcreate : ∀ n, A (.create d n name))
    (hcut : ∀ k, EntryNamed (s.vol L 1) d name k → (∀ j < k, ¬ EntryNamed (s.vol L 1) d name j) →
      ((s.vol L 1).ino ((s.vol L 1).ent d k).1).type = FT_FILE → A (.cut ((s.vol L 1).ent d k).1))
    (hx : fsCreateIn dp name flags s = .ok r s') : Performs L S A s s' := by
  cases fsCreateIn_cases h hr hdir hroom hx with
  | @full t calm refs neg put =>
      refine .before calm.disk calm.sb (Performs.after (.idle (h.of_calm calm) rfl rfl hnone) refs
        put
        fun S' hS' => Serves.iput t hS')
  | @new t t₁ t₂ ip n w calm linked rest =>
      refine .before calm.disk calm.sb ?_
      obtain ⟨hp, hr₂⟩ := linked.toFresh.link (by rw [linked.vol]; exact .file) (hcreate n)
        linked.link
      rcases rest with ⟨-, -, hx⟩ | ⟨-, hx⟩
      · exact hp.after (hr₂.perm (.swap _ _ [])) hx fun S' hS' =>
          Serves.bind .iput (fun _ => .iput) t₂ hS'
      · exact hp.opened hr₂ (by rw [linked.kept.dev, linked.hold.dev_eq])
          (linked.kept.valid linked.valid) hx
  | @old t₁ t₂ ip k idle disk refs ready named first cut rest =>
      refine .before idle.disk idle.sb ?_
      have hrefs := refs.perm (.swap _ _ [])
      rcases cut with rfl | ⟨⟨-, htype⟩, htr⟩
      · exact Performs.opened (.idle disk rfl rfl hnone) hrefs ready.dev_eq ready.valid rest
      · have ht : Touches (t₁.inodeTable ip).dev ip t₁ t₂ := LocalOn.itrunc.of_ok rfl htr
        refine Performs.opened (truncate_performs disk ready.dev_eq ⟨ready.ref, ready.valid⟩ htype
          hnone (fun htype => ?_) htr) (ht.refs hrefs) (by rw [ht.slot_dev, ready.dev_eq])
          (ht.slot_valid ready.valid) rest
        rw [ready.inum_eq] at htype ⊢
        rw [idle.vol_eq] at htype
        exact hcut k named first htype

/-- A new directory gets its two entries, and then `dirlink` is called for its name. -/
theorem fsMkdirFill_links (hf : Fresh L S d n dp ip name s t)
    (hvol : t.vol L 1 = (s.vol L 1).allocIno n FT_DIRECTORY)
    (hx : fsMkdirFill dp ip name t = .ok b s') :
    ∃ t₂ w, Fresh L S d n dp ip name s t₂ ∧
      Born L (Also S n) d n (s.vol L 1) FT_DIRECTORY (t₂.vol L 1) ∧
      dirlink dp name n t₂ = .ok w s' ∧ (b = true → 0 ≤ w) := by
  replace hx := inodeAt_then hx
  replace hx := inodeAt_then hx
  rw [hf.hold.inum_eq, hf.dir.inum_eq] at hx
  obtain ⟨w, t₁, hw, hx⟩ := bind_ok.mp hx
  obtain ⟨rfl, hf₁, hself⟩ := hf.writei (k := 0) (Nat.zero_le _) (by decide) (by
    rw [specialDirent_inum]
    exact (hf.toDisk.held hf.hold).2) hw
  rw [if_neg (by simp [direntSize_eq])] at hx
  obtain ⟨w, t₂, hw, hx⟩ := bind_ok.mp hx
  have hsize : ((t₁.vol L 1).ino n).size = 32 := by
    rw [hself.size, hvol, allocIno_ino_self]
    rfl
  obtain ⟨rfl, hf₂, hparent⟩ := hf₁.writei (k := 1) (by rw [hsize]) (by decide) (by
    rw [specialDirent_inum]
    exact (hf₁.toDisk.held hf₁.dir.toHolds).2) hw
  rw [if_neg (by simp [direntSize_eq])] at hx
  obtain ⟨w, t₃, hlink, hx⟩ := bind_ok.mp hx
  rw [hvol] at hself
  refine ⟨t₂, w, hf₂, .dir hself hparent, ?_⟩
  split_ifs at hx with hneg
  · obtain ⟨rfl, rfl⟩ := pure_ok.mp hx
    exact ⟨hlink, fun hb => by cases hb⟩
  · obtain ⟨-, rfl⟩ := pure_ok.mp hx
    exact ⟨hlink, fun _ => Int.not_lt.mp hneg⟩

theorem fsMkdirIn_performs (h : Disk L S s) (hr : Refs [dp] s) (hdir : DirAt L d dp s)
    (hroom : Room L s) (hnone : A .none) (hcreate : ∀ n, A (.create d n name))
    (hx : fsMkdirIn dp name s = .ok r s') : Performs L S A s s' := by
  replace hx := inodeAt_then hx
  obtain ⟨o, t, hl, hx⟩ := bind_ok.mp hx
  cases o with
  | none =>
      obtain ⟨hc, hrt, hfresh⟩ := dirlookup_none h hr hdir hl
      have ht := h.of_calm hc
      rw [hdir.dev_eq] at hx
      refine .before hc.disk hc.sb ?_
      obtain ⟨o, t₁, ha, hx⟩ := bind_ok.mp hx
      cases o with
      | none =>
          rcases ialloc_ok ht (hroom.of_calm hc) (by decide) ha with ⟨-, rfl⟩ | ⟨ip, n, ho, -⟩
          · refine Performs.after (.idle ht rfl rfl hnone) hrt hx fun S' hS' => ?_
            exact Serves.bind .iput (fun _ => .pure rfl) t hS'
          · cases ho
      | some ip =>
          obtain ⟨n, hf, hvol⟩ := Fresh.of_ialloc ht hrt (hdir.of_calm hc) (hroom.of_calm hc)
            hfresh (by decide) ha
          obtain ⟨b, t₂, hfill, hx⟩ := bind_ok.mp hx
          obtain ⟨t₃, w, hf₃, hborn, hlink, -⟩ := fsMkdirFill_links hf hvol hfill
          obtain ⟨hp, hr₂⟩ := hf₃.link hborn (hcreate n) hlink
          refine hp.after (hr₂.perm (.swap _ _ [])) hx fun S' hS' => ?_
          exact Serves.bind .iput (fun _ => .bind (q := fun _ => []) .iput fun _ =>
            .ite (.pure rfl) (.pure rfl)) t₂ hS'
  | some o =>
      obtain ⟨ip, off⟩ := o
      obtain ⟨h₁, hr₁, hsame, -⟩ := dirlookup_some h hr hdir hl
      refine .before hsame.1 hsame.2
        (Performs.after (.idle h₁ rfl rfl hnone) hr₁ hx fun S' hS' => ?_)
      exact Serves.bind .iput (fun _ => .bind .iput fun _ => .pure rfl) t hS'

end Create

/-! ## Removing -/

section Remove

variable {v : Nat}

/-- A directory may be removed if it is empty. -/
theorem removable_ok (h : Disk L S s) (hold : Holds 1 v ip s) (hx : removable ip s = .ok b t) :
    Calm s t ∧ (b = true → (s.vol L 1).IsDir v → ∀ i < (s.vol L 1).nents v,
      ¬ Proper ((s.vol L 1).ent v i)) := by
  obtain ⟨u, t₁, hl, hx⟩ := bind_ok.mp hx
  have hc := Calm.ilock.of_ok hl
  have hv := ilock_valid hl
  have hd : (t₁.inodeTable ip).dev = 1 := by rw [hc.dev, hold.dev_eq]
  have hn : (t₁.inodeTable ip).inum = v := by rw [hc.inum, hold.inum_eq]
  have hrd := (h.of_calm hc).ready hd hv
  replace hx := inodeAt_then hx
  rw [hrd.type, hn, hc.vol_eq] at hx
  split_ifs at hx with htype
  · refine ⟨trans_of Calm hc (.of_ok .isDirEmpty hx), fun hb _ => ?_⟩
    have hat : DirAt L v ip t₁ := ⟨⟨hv.1, hd, hn⟩, hv.2, by rw [hc.vol_eq]; exact htype⟩
    have := (isDirEmpty_ok (h.of_calm hc) hat hx).1 hb
    rwa [hc.vol_eq] at this
  · obtain ⟨-, rfl⟩ := pure_ok.mp hx
    exact ⟨hc, fun _ hdir => absurd hdir htype⟩

/-- An entry is overwritten with zeros. -/
theorem entry_erased (h : Disk L S s) (hdir : DirAt L d dp s) (hk : EntryNamed (s.vol L 1) d name k)
    (hw : writei dp Buf.zero (32 * k) direntSize s = .ok r t) :
    Worked L S d dp s t ∧ (r = direntSize ∧
      Wrote L S d (32 * k) direntSize Buf.zero (s.vol L 1) (t.vol L 1)) ∧ Disk L S t := by
  obtain ⟨hSd, hwork, hcase⟩ := h.writei hdir.dev_eq hdir.inum_eq hw
  have hlt := hk.lt
  have hmax := (h.wf.shaped hSd).size_le
  unfold Vol.nents at hlt
  obtain ⟨hr, hwrote⟩ := hcase.resolve_left fun hc => hc.2.2 (by rw [direntSize_eq]; omega)
  exact ⟨hwork, ⟨hr, hwrote⟩, hwork.disk h (hwrote.wf_ent hSd h.wf fun h0 => absurd rfl h0)⟩

theorem fsRmEntry_performs (h : Disk L S s) (hr : Refs [ip, dp] s) (hdir : DirAt L d dp s)
    (hold : Holds 1 v ip s) (hk : EntryNamed (s.vol L 1) d name k)
    (hinum : ((s.vol L 1).ent d k).1 = v)
    (hempty : (s.vol L 1).IsDir v → ∀ i < (s.vol L 1).nents v, ¬ Proper ((s.vol L 1).ent v i))
    (hA : A (.remove d v name)) (hx : fsRmEntry dp ip (32 * k) s = .ok r s') :
    Performs L S A s s' := by
  obtain ⟨w, t₁, hw, hx⟩ := bind_ok.mp hx
  obtain ⟨hwork, ⟨rfl, hwrote⟩, h₁⟩ := entry_erased h hdir hk hw
  rw [if_neg (by simp)] at hx
  have hr₁ := hwork.touches.refs hr
  obtain ⟨hd₁, hn₁, -⟩ := hwork.touches.slot ip
  rw [hold.dev_eq] at hd₁
  rw [hold.inum_eq] at hn₁
  -- The inode is emptied.
  obtain ⟨u, t₂, htr, hx⟩ := bind_ok.mp hx
  obtain ⟨hSv, hwork₂, h₂, hcut⟩ := h₁.itrunc hd₁ hn₁ htr
  have hr₂ := hwork₂.touches.refs hr₁
  -- It becomes unused.
  obtain ⟨u, t₃, hset, hx⟩ := bind_ok.mp hx
  obtain ⟨u, t₄, hup, hx⟩ := bind_ok.mp hx
  obtain ⟨hwork₃, h₃, hvol⟩ := h₂.retire hwork₂.toReady hSv hset hup
  have hp : Performs L S A s t₄ := by
    refine ⟨.remove d v name, S, hA, .remove ⟨hdir.isDir, hk, hinum, hempty, hwrote, ?_, hvol⟩, h₃,
      hwork₃.touches.sb.trans (hwork₂.touches.sb.trans hwork.touches.sb)⟩
    exact hcut.imp (fun hq => ⟨hq.2, Nat.le_zero.mp hq.1⟩) id
  refine hp.after (hwork₃.touches.refs hr₂) hx fun S' hS' => ?_
  exact Serves.bind .iput (fun _ => .bind .iput fun _ => .pure rfl) t₄ hS'

theorem fsRmIn_performs (h : Disk L S s) (hr : Refs [dp] s) (hdir : DirAt L d dp s)
    (hnone : A .none) (hremove : ∀ k, EntryNamed (s.vol L 1) d name k →
      (∀ j < k, ¬ EntryNamed (s.vol L 1) d name j) → A (.remove d ((s.vol L 1).ent d k).1 name))
    (hx : fsRmIn dp name s = .ok r s') : Performs L S A s s' := by
  obtain ⟨o, t, hl, hx⟩ := bind_ok.mp hx
  cases o with
  | none =>
      obtain ⟨hc, hrt, -⟩ := dirlookup_none h hr hdir hl
      refine Performs.after (.idle (h.of_calm hc) hc.vol_eq hc.sb hnone) hrt hx fun S' hS' => ?_
      exact Serves.bind .iput (fun _ => .pure rfl) t hS'
  | some o =>
      obtain ⟨ip, off⟩ := o
      obtain ⟨h₁, hr₁, hsame, hdir₁, k, rfl, hk, hfirst, hold⟩ := dirlookup_some h hr hdir hl
      have hvol : t.vol L 1 = s.vol L 1 := vol_congr (by rw [hsame.1]) hsame.2
      have hact := hremove k hk hfirst
      rw [← hvol] at hk hold hact
      obtain ⟨b, t₁, hrm, hx⟩ := bind_ok.mp hx
      obtain ⟨hc, hempty⟩ := removable_ok h₁ hold hrm
      have hr₂ : Refs [ip, dp] t₁ := hc.refs hr₁
      have h₂ := h₁.of_calm hc
      refine .before (hc.disk.trans hsame.1) (hc.sb.trans hsame.2) ?_
      split_ifs at hx with hb
      · refine fsRmEntry_performs h₂ hr₂ (hdir₁.of_calm hc) ⟨?_, ?_, ?_⟩ (by rwa [hc.vol_eq])
          (by rw [hc.vol_eq]) (by rw [hc.vol_eq]; exact hempty hb) hact hx
        · rw [hc.ref]
          exact hold.ref
        · rw [hc.dev]
          exact hold.dev_eq
        · rw [hc.inum]
          exact hold.inum_eq
      · refine Performs.after (.idle h₂ rfl rfl hnone) hr₂ hx fun S' hS' => ?_
        exact Serves.bind .iput (fun _ => .bind .iput fun _ => .pure rfl) t₁ hS'

end Remove

/-! ## All calls -/

/-- The device and the number of the inode a call writes bytes to. -/
def Syscall.writeTarget (c : Syscall) (s : KState) (p : Fin PROCS_MAX) : Option (Nat × Nat) :=
  match c with
  | .write fd _ _ => s.fdInode p fd
  | _ => none

/-- The device and the number of the inode a call writes bytes to or cuts
through a descriptor. -/
def Syscall.target (c : Syscall) (s : KState) (p : Fin PROCS_MAX) : Option (Nat × Nat) :=
  match c with
  | .ftruncate fd _ => s.fdInode p fd
  | c => c.writeTarget s p

/-- The call does not change a directory of device 1 through a descriptor. -/
def Tame (L : Layout) (p : Fin PROCS_MAX) (c : Syscall) (s : KState) : Prop :=
  ∀ n, c.target s p = some (1, n) → ¬ (s.vol L 1).IsDir n

instance (L : Layout) (p : Fin PROCS_MAX) (c : Syscall) (s : KState) : Decidable (Tame L p c s) :=
  decidable_of_iff (∀ t ∈ c.target s p, t.1 = 1 → ¬ (s.vol L 1).IsDir t.2)
    ⟨fun h n hn => h (1, n) hn rfl, fun h t ht h1 => h t.2 (by rw [← h1]; exact ht)⟩

theorem Tame.write (h : Tame L p c s)
    (n : Nat) (hn : c.writeTarget s p = some (1, n)) : ¬ (s.vol L 1).IsDir n := by
  cases c with
  | write fd buf len => exact h n hn
  | _ => cases hn

section Calls

/-- A call that resolves the parent directory, refuses device 0, and goes on
in that directory. -/
theorem inParent_performs {x : Fin NINODE → List Byte → Kern Int} {a b : Int} {R : Inode → Prop}
    [DecidablePred R] (h : Disk L S s) (hr : Refs [] s)
    (hnone : A .none) (hR : ∀ D : Inode, D.dev = 0 → R D)
    (hin : ∀ {dp name t}, Parent L S path dp name s t → DirAt L (t.inodeTable dp).inum dp t →
      ParentOn s path (t.inodeTable dp).inum name → x dp name t = .ok r s' → Performs L S A t s')
    (hx : (do
      match ← namex path true with
      | (none, _) => return a
      | (some dp, name) =>
        let D ← inodeAt dp
        if R D then
          iput dp
          return b
        else x dp name) s = .ok r s') : Performs L S A s s' := by
  obtain ⟨o, t, hn, hx⟩ := bind_ok.mp hx
  rcases o with ⟨_ | dp, name⟩
  · obtain ⟨-, rfl⟩ := pure_ok.mp hx
    have hidle := Still.of_ok .namex hn
    exact .idle (h.namex hr hn).1 (vol_congr (by rw [hidle.disk]) hidle.sb)
      hidle.sb hnone
  · have hpar := namex_parent h hr hn
    refine .before hpar.same.1 hpar.same.2 ?_
    replace hx := inodeAt_then hx
    split_ifs at hx with h0
    · refine Performs.after (.idle hpar.toDisk rfl rfl hnone) hpar.refs hx fun S' hS' => ?_
      exact Serves.bind .iput (fun _ => .pure rfl) t hS'
    · have hdir := hpar.dir fun hd => h0 (hR _ hd)
      exact hin hpar hdir ⟨dp, t, hn, hdir.dev_eq, rfl⟩ hx

theorem Room.of_same (h : Room L s) (hs : SameDisk s t) : Room L t := by
  unfold Room at h ⊢
  rwa [hs.2, vol_congr (by rw [hs.1]) hs.2]

/-- Every call that returns has one of the effects it may have. -/
theorem handleSyscall_performs (h : Disk L S s) (hr : Refs [] s) (hp : s.current = some p)
    (hroom : c.MayCreate → Room L s)
    (htame : ∀ n, c.writeTarget s p = some (1, n) → ¬ (s.vol L 1).IsDir n)
    (hx : handleSyscall c s = .ok r s') : Performs L S (Does L p c s) s s' := by
  have hcur : { s with current := some p } = s := by rw [← hp]
  by_cases hc : c.Writes
  · cases c with
    | «open» path flags =>
        rw [handleSyscall] at hx
        split_ifs at hx with hf
        · refine inParent_performs h hr trivial
            (fun D hD => ⟨hD, hasFlag_mono hf (by decide)⟩) ?_ hx
          intro dp name t hpar hdir hon hx
          refine fsCreateIn_performs hpar.toDisk hpar.refs hdir ((hroom hf).of_same hpar.same)
            trivial
            (fun _ => ⟨hf, path, rfl, by rwa [hcur]⟩)
            (fun _ _ _ htype => Or.inl ⟨⟨path, flags, rfl⟩, ?_⟩) hx
          rwa [hpar.vol_eq] at htype ⊢
        · exact fsOpen_performs h hr trivial
            (fun _ _ htype => Or.inl ⟨⟨path, flags, rfl⟩, htype⟩) hx
    | write fd buf n =>
        exact fsWrite_performs h hr hp htame trivial (fun _ hfd => ⟨fd, buf, n, rfl, hfd⟩) hx
    | ftruncate fd length =>
        exact fsFtruncate_performs h hp trivial (fun _ hfd => Or.inr ⟨fd, length, rfl, hfd⟩) hx
    | mkdir path =>
        refine inParent_performs h hr trivial (fun _ hD => hD) ?_ hx
        intro dp name t hpar hdir hon hx
        exact fsMkdirIn_performs hpar.toDisk hpar.refs hdir ((hroom trivial).of_same hpar.same)
          trivial
          (fun _ => ⟨trivial, path, rfl, by rwa [hcur]⟩) hx
    | rm path =>
        refine inParent_performs h hr trivial (fun _ hD => hD) ?_ hx
        intro dp name t hpar hdir hon hx
        exact fsRmIn_performs hpar.toDisk hpar.refs hdir trivial
          (fun _ _ _ => ⟨path, rfl, by rwa [hcur]⟩) hx
    | _ => exact hc.elim
  · exact Performs.after (.idle h rfl rfl trivial) hr hx fun S' hS' => Serves.handleSyscall hc s hS'

/-- Every step that returns has one of the effects its call may have. -/
theorem step_performs (h : Disk L S s) (hr : Refs [] s) (hroom : c.MayCreate → Room L s)
    (htame : ∀ n, c.writeTarget s p = some (1, n) → ¬ (s.vol L 1).IsDir n)
    (hx : step p c s = .ok r s') : Performs L S (Does L p c s) s s' := by
  replace hx := get_then hx
  split_ifs at hx with hrun
  · replace hx := modify_then hx
    exact handleSyscall_performs (s := { s with current := some p })
      (h.tables rfl rfl rfl rfl) hr rfl hroom htame hx
  · cases hx

end Calls

end Dmaos
