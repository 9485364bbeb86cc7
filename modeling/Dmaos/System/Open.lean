import Dmaos.System.Coherence
import Dmaos.System.References

/-!
# A failed `open`

`fs_open` and `fs_create` empty or make the file before
`alloc_file_descriptor` looks for a place in the two tables, so an `open` that
fails there has changed the disk all the same (`open_not_undone`).  If there is a
place whenever the call has something to change (`OpenFits`), a failed `open`
leaves no trace (`open_all_or_nothing`).

The devices, the processes and the open files are followed along each failing
path (`Quiet`); that the reference counts are as before then follows from the
books, which are right before and after.
-/

namespace Dmaos

open Fault Function

variable {s t s' : KState} {p : Fin PROCS_MAX} {ip : Fin NINODE} {flags : Nat} {r : Int} {u : Unit}
  {L : Layout}

/-! ## No trace -/

/-- The devices, the processes and the open files are as before. -/
structure Quiet (s s' : KState) : Prop where
  disk : s'.disk = s.disk
  procs : s'.procs = s.procs
  file : ∀ f, (s.fileTable f).ref ≠ 0 → s'.fileTable f = s.fileTable f

/-- A call has left no trace. -/
structure Unaltered (s s' : KState) : Prop extends Quiet s s' where
  fileRef : ∀ f, (s'.fileTable f).ref = (s.fileTable f).ref
  inodeRef : ∀ i, (s'.inodeTable i).ref = (s.inodeTable i).ref

section Quiet

theorem Quiet.trans (h₁ : Quiet s t) (h₂ : Quiet t s') : Quiet s s' where
  disk := h₂.disk.trans h₁.disk
  procs := h₂.procs.trans h₁.procs
  file f hf := by
    have hf₁ := h₁.file f hf
    rw [h₂.file f (by rwa [hf₁]), hf₁]

theorem Idle.quiet (h : Idle s s') : Quiet s s' :=
  ⟨h.disk, h.procs, fun f _ => by rw [h.fileTable]⟩

/-- The counts follow from the tables, by the books. -/
theorem Quiet.unaltered {U V : Fin PROCS_MAX → Prop} {l : List (Fin NINODE)}
    {fs : List (Fin GLOBAL_OPEN_FILE_LIMIT)} (h : Quiet s s') (hb : Books U l fs s)
    (hb' : Books V l fs s') : Unaltered s s' := by
  have hfile : ∀ f, (s'.fileTable f).ref = (s.fileTable f).ref := by
    intro f
    have hdesc : descRefs s' f = descRefs s f := descRefs_congr fun q => by rw [h.procs]
    rw [hb.file, hb'.file, hdesc]
  have hip : ∀ f, (s'.fileTable f).ip = (s.fileTable f).ip := by
    intro f
    by_cases hf : (s.fileTable f).ref = 0
    · rw [hb.free f hf, hb'.free f ((hfile f).trans hf)]
    · rw [h.file f hf]
  refine ⟨h, hfile, fun i => ?_⟩
  rw [hb.ino, hb'.ino]
  simp only [refsTo, fileRefs, cwdRefs, hip, h.procs]

end Quiet

/-! ## Finding a descriptor -/

/-- There is a free slot of the file table and a free descriptor of process `p`. -/
def KState.HasRoom (s : KState) (p : Fin PROCS_MAX) : Prop :=
  (findFile s).isSome ∧ (findFd s p).isSome

section Descriptors

variable {f : Fin GLOBAL_OPEN_FILE_LIMIT}

theorem KState.HasRoom.congr (hf : s'.fileTable = s.fileTable) (hp : s'.procs = s.procs) :
    s'.HasRoom p ↔ s.HasRoom p := by
  simp only [KState.HasRoom, findFile, findFd, hf, hp]

theorem KState.putFile_putFile (s : KState) (f : Fin GLOBAL_OPEN_FILE_LIMIT) (F G : File) :
    (s.putFile f F).putFile f G = s.putFile f G := by
  unfold KState.putFile
  rw [update_idem]

/-- `file_close` changes the file it is called for, and the inode cache. -/
theorem fileClose_frame (hx : fileClose f s = .ok u s') :
    s'.disk = s.disk ∧ s'.procs = s.procs ∧ ∀ g, g ≠ f → s'.fileTable g = s.fileTable g := by
  replace hx := get_then hx
  have hput : ∀ (t : KState) (F : File) (g : Fin GLOBAL_OPEN_FILE_LIMIT), g ≠ f →
      (t.putFile f F).fileTable g = t.fileTable g := fun t F g hg => update_of_ne hg _ _
  split_ifs at hx with h0 h1
  · cases hx
  · cases hip : (s.fileTable f).ip with
    | none =>
        simp only [hip] at hx
        rw [modify_ok.mp hx]
        exact ⟨rfl, rfl, fun g hg => hput s _ g hg⟩
    | some ip =>
        simp only [hip] at hx
        obtain ⟨u, t, hi, hx⟩ := bind_ok.mp hx
        have hidle := Idle.iput.of_ok hi
        rw [modify_ok.mp hx]
        exact ⟨hidle.disk, hidle.procs, fun g hg => by rw [hput t _ g hg, hidle.fileTable]⟩
  · rw [modify_ok.mp hx]
    exact ⟨rfl, rfl, fun g hg => hput s _ g hg⟩

/-- No descriptor is free for the new file in slot `f`. -/
theorem installFd_neg {F : File} (hp : s.current = some p) (h0 : (s.fileTable f).ref = 0)
    (hx : installFd f (s.putFile f F) = .ok r s') (hr : r < 0) : Quiet s s' ∧ ¬ s.HasRoom p := by
  obtain ⟨p', t', hc, hx⟩ := bind_ok.mp hx
  replace hc := get_then hc
  rw [show (s.putFile f F).current = some p from hp] at hc
  obtain ⟨rfl, rfl⟩ := pure_ok.mp hc
  replace hx := get_then hx
  rw [show findFd (s.putFile f F) p = findFd s p from rfl] at hx
  cases hfd : findFd s p with
  | some fd =>
      simp only [hfd] at hx
      obtain ⟨u, t'', -, hx⟩ := bind_ok.mp hx
      obtain ⟨rfl, -⟩ := pure_ok.mp hx
      omega
  | none =>
      simp only [hfd] at hx
      obtain ⟨u, t'', hclose, hx⟩ := bind_ok.mp hx
      obtain ⟨-, rfl⟩ := pure_ok.mp hx
      obtain ⟨h1, h2, h3⟩ := fileClose_frame hclose
      refine ⟨⟨h1, h2, fun g hg => ?_⟩, fun hroom => ?_⟩
      · have hgf : g ≠ f := fun he => hg (by rw [he]; exact h0)
        rw [h3 g hgf]
        exact update_of_ne hgf _ _
      · have := hroom.2
        rw [hfd] at this
        cases this

theorem Idle.hasRoom (h : Idle s s') : s'.HasRoom p ↔ s.HasRoom p :=
  KState.HasRoom.congr h.fileTable h.procs

/-- `alloc_file_descriptor` fails only for want of room, and undoes what it has
done. -/
theorem allocFileDescriptor_neg (hp : s.current = some p)
    (hx : allocFileDescriptor ip flags s = .ok r s') (hr : r < 0) : Quiet s s' ∧ ¬ s.HasRoom p := by
  obtain ⟨o, t, hc, hx⟩ := bind_ok.mp hx
  unfold fileCreate at hc
  cases hfind : findFile s with
  | none =>
      simp only [hfind] at hc
      cases hc
      obtain ⟨u, t', hi, hx⟩ := bind_ok.mp hx
      obtain ⟨-, rfl⟩ := pure_ok.mp hx
      refine ⟨(Idle.iput.of_ok hi).quiet, fun hroom => ?_⟩
      have := hroom.1
      rw [hfind] at this
      cases this
  | some f =>
      simp only [hfind] at hc
      cases hc
      replace hx := inodeAt_then hx
      obtain ⟨u, t', hm, hx⟩ := bind_ok.mp hx
      rw [modify_ok.mp hm] at hx
      have h0 : (s.fileTable f).ref = 0 := by simpa using List.find?_some hfind
      exact installFd_neg hp h0 (by rwa [KState.putFile_putFile] at hx) hr

end Descriptors

/-! ## What an `open` changes -/

/-- The inode of device 1 that an `open` finds. -/
inductive Finds (L : Layout) (s : KState) (path : List Byte) (flags n : Nat) : Prop where
  /-- `fs_open` looks up the whole path. -/
  | path {ip : Fin NINODE} {t : KState} (plain : hasFlag flags FILECTRL_CREATE = false)
      (noConsole : path ≠ consolePath) (run : namei path s = .ok (some ip) t)
      (dev : (t.inodeTable ip).dev = 1) (inum : (t.inodeTable ip).inum = n)
  /-- `fs_create` looks up the last component in its directory. -/
  | entry {d k : Nat} {name : List Byte} (create : hasFlag flags FILECTRL_CREATE = true)
      (parent : ParentOn s path d name) (named : EntryNamed (s.vol L 1) d name k)
      (first : ∀ j < k, ¬ EntryNamed (s.vol L 1) d name j) (inum : ((s.vol L 1).ent d k).1 = n)

/-- The directory of device 1 an `open` makes a new file in. -/
structure MakesIn (L : Layout) (s : KState) (path : List Byte) (flags d : Nat) : Prop where
  create : hasFlag flags FILECTRL_CREATE = true
  lacks : ∃ name, ParentOn s path d name ∧ ∀ k, ¬ EntryNamed (s.vol L 1) d name k
  unused : ∃ n, 0 < n ∧ n < L.ninodes ∧ inUse (s.vol L 1) n = false

/-- An `open` of process `p` that empties or makes a file finds room in the
tables, and for a new entry also in the directory. -/
structure OpenFits (L : Layout) (p : Fin PROCS_MAX) (path : List Byte) (flags : Nat)
    (s : KState) : Prop where
  empties : ∀ n, Finds L s path flags n → hasFlag flags FILECTRL_TRUNCATE = true →
    ((s.vol L 1).ino n).type = FT_FILE → 0 < ((s.vol L 1).ino n).size → s.HasRoom p
  makes : ∀ d, MakesIn L s path flags d →
    s.HasRoom p ∧ ∃ k, FreeEntry (s.vol L 1) d k ∧ 32 * k + 32 ≤ maxSize

section Failing

variable {S : Nat → Prop} {path name : List Byte} {d : Nat} {dp : Fin NINODE}

/-- A call that neither empties nor makes files fits. -/
theorem OpenFits.of_flags (ht : hasFlag flags FILECTRL_TRUNCATE = false)
    (hc : hasFlag flags FILECTRL_CREATE = false) : OpenFits L p path flags s where
  empties _ _ h := by
    rw [ht] at h
    cases h
  makes _ h := by
    have := h.create
    rw [hc] at this
    cases this

theorem FreeEntry.congr {V V' : Vol} {n k : Nat} (h : FreeEntry V n k) (hs : SameFile V V' n) :
    FreeEntry V' n k where
  le := by rw [hs.nents]; exact h.le
  inum_eq hk := by
    rw [hs.nents] at hk
    rw [hs.ent hk]
    exact h.inum_eq hk
  size_eq hk := by
    rw [hs.nents] at hk
    rw [hs.ino]
    exact h.size_eq hk

/-- `itrunc` leaves an empty file alone. -/
theorem itrunc_room (h : Disk L S s) (hd : (s.inodeTable ip).dev = 1)
    (hv : 0 < (s.inodeTable ip).ref ∧ (s.inodeTable ip).valid = true)
    (hroom : 0 < ((s.vol L 1).ino (s.inodeTable ip).inum).size → s.HasRoom p)
    (hx : itrunc ip 0 s = .ok u t) : Quiet s t ∨ t.HasRoom p := by
  rcases Nat.eq_zero_or_pos ((s.vol L 1).ino (s.inodeTable ip).inum).size with h0 | hpos
  · left
    obtain ⟨u, t₁, hl, hx⟩ := bind_ok.mp hx
    have hc := Calm.ilock.of_ok hl
    replace hx := inodeAt_then hx
    rw [((h.ready hd hv).of_calm hc).size, hc.vol_eq, h0, if_pos le_rfl] at hx
    obtain ⟨-, rfl⟩ := pure_ok.mp hx
    exact hc.toIdle.quiet
  · right
    have ht : Touches 1 ip s t := LocalOn.itrunc.of_ok hd hx
    exact (KState.HasRoom.congr ht.fileTable ht.procs).mpr (hroom hpos)

/-- No descriptor is found after what changes the volume only if there is room. -/
theorem Quiet.before (h : Quiet s t ∨ t.HasRoom p) (hneg : Quiet t s' ∧ ¬ t.HasRoom p) :
    Quiet s s' := by
  rcases h with hq | hroom
  · exact hq.trans hneg.1
  · exact absurd hroom hneg.2

theorem fsOpen_neg (h : Disk L S s) (hr : Refs [] s) (hp : s.current = some p)
    (hc : hasFlag flags FILECTRL_CREATE = false) (hfit : OpenFits L p path flags s)
    (hx : fsOpen path flags s = .ok r s') (hneg : r < 0) : Quiet s s' := by
  unfold fsOpen at hx
  split_ifs at hx with hcons
  · obtain ⟨o, t, hf, hx⟩ := bind_ok.mp hx
    rcases fileCreate_ok hf with ⟨rfl, ht⟩ | ⟨f, F, rfl, h0, rfl, -⟩
    · obtain ⟨-, rfl⟩ := pure_ok.mp hx
      rw [ht]
      exact (refl_of Idle s).quiet
    · exact (installFd_neg hp h0 hx hneg).1
  · obtain ⟨o, t, hn, hx⟩ := bind_ok.mp hx
    obtain ⟨-, hr₁, h₁⟩ := (Serves.namei (P := diskPolicy L S) s ⟨hr, h⟩).of_ok hn
    have hidle := (Still.of_ok .namei hn).toIdle
    cases o with
    | none =>
        obtain ⟨-, rfl⟩ := pure_ok.mp hx
        exact hidle.quiet
    | some ip =>
        obtain ⟨u, t₂, hl, hx⟩ := bind_ok.mp hx
        have hc₂ := Calm.ilock.of_ok hl
        have hidle₂ : Idle s t₂ := trans_of Idle hidle hc₂.toIdle
        have h₂ : Disk L S t₂ := Disk.of_calm h₁ hc₂
        have hv := ilock_valid hl
        have hp₂ : t₂.current = some p := by rw [hidle₂.current, hp]
        replace hx := inodeAt_then hx
        split_ifs at hx with hperm htrunc
        · obtain ⟨u, t₃, hi, hx⟩ := bind_ok.mp hx
          obtain ⟨-, rfl⟩ := pure_ok.mp hx
          exact hidle₂.quiet.trans (Idle.iput.of_ok hi).quiet
        · have hd0 : (t₂.inodeTable ip).dev ≠ 0 :=
            fun h0 => hperm ⟨h0, hasFlag_mono htrunc.1 (by decide)⟩
          have hd := h₂.dev_eq hv.1 hd0
          have htype := htrunc.2
          rw [(h₂.ready hd hv).type, hc₂.vol_eq] at htype
          obtain ⟨u, t₄, htr, hx⟩ := bind_ok.mp hx
          have ht : Touches 1 ip t₂ t₄ := LocalOn.itrunc.of_ok hd htr
          refine hidle₂.quiet.trans (.before (itrunc_room h₂ hd hv (fun hpos => ?_) htr)
            (allocFileDescriptor_neg (by rw [ht.current, hp₂]) hx hneg))
          rw [hidle₂.vol_eq] at hpos
          rw [hidle₂.hasRoom]
          refine hfit.empties _ (.path hc hcons hn ?_ rfl) htrunc.1 ?_ ?_
          · rw [← hc₂.dev, hd]
          · rw [← hc₂.inum, ← hidle.vol_eq]
            exact htype
          · rw [← hc₂.inum]
            exact hpos
        · exact hidle₂.quiet.trans (allocFileDescriptor_neg hp₂ hx hneg).1

/-- `fs_create` in a directory of device 1. -/
theorem fsCreateIn_neg (h : Disk L S s) (hr : Refs [dp] s) (hp : s.current = some p)
    (hdir : DirAt L d dp s) (hroom : Room L s) (hempty : ∀ k, EntryNamed (s.vol L 1) d name k →
      (∀ j < k, ¬ EntryNamed (s.vol L 1) d name j) → hasFlag flags FILECTRL_TRUNCATE = true →
      ((s.vol L 1).ino ((s.vol L 1).ent d k).1).type = FT_FILE →
      0 < ((s.vol L 1).ino ((s.vol L 1).ent d k).1).size → s.HasRoom p)
    (hmake : (∀ k, ¬ EntryNamed (s.vol L 1) d name k) →
      (∃ n, 0 < n ∧ n < L.ninodes ∧ inUse (s.vol L 1) n = false) →
      s.HasRoom p ∧ ∃ k, FreeEntry (s.vol L 1) d k ∧ 32 * k + 32 ≤ maxSize)
    (hx : fsCreateIn dp name flags s = .ok r s') (hneg : r < 0) : Quiet s s' := by
  cases fsCreateIn_cases h hr hdir hroom hx with
  | full calm refs neg put => exact calm.toIdle.quiet.trans (Idle.iput.of_ok put).quiet
  | @new t t₁ t₂ ip n w calm linked rest =>
      -- An inode is allocated: then there is room, and the call does not fail.
      exfalso
      have ht := h.of_calm calm
      have hsame : SameFile (t.vol L 1) (t₁.vol L 1) d := by
        rw [linked.vol]
        exact sameFile_setIno _ _ (linked.isDir.ne_of_free linked.free)
          (ht.wf.shaped ((hdir.of_calm calm).mem ht))
      rw [← calm.vol_eq] at hmake
      obtain ⟨hplace, k, hk, hmax⟩ := hmake linked.fresh ⟨n, linked.pos, linked.lt, linked.free⟩
      obtain ⟨-, ⟨-, -, ⟨i, hi⟩ | ⟨-, hfull⟩⟩ | ⟨rfl, -⟩⟩ :=
        dirlink_ok linked.toDisk linked.dir (linked.toDisk.held linked.hold).2 linked.link
      · exact linked.fresh i (hi.congr hsame)
      · have := hfull k (hk.congr hsame)
        omega
      · obtain ⟨-, hx⟩ := rest.resolve_left fun hr => absurd hr.1 (by decide)
        obtain ⟨u, t₃, hi, hx⟩ := bind_ok.mp hx
        have hput := Idle.iput.of_ok hi
        have hon := linked.tables'
        refine (allocFileDescriptor_neg (p := p) ?_ hx hneg).2 ?_
        · rw [hput.current, hon.current, calm.current, hp]
        · rwa [hput.hasRoom, KState.HasRoom.congr hon.fileTable hon.procs, calm.toIdle.hasRoom]
  | @old t₁ t₂ ip k idle disk refs ready named first cut rest =>
      obtain ⟨u, t₃, hi, hx⟩ := bind_ok.mp rest
      have hput := Idle.iput.of_ok hi
      rcases cut with rfl | ⟨⟨hflag, htype⟩, htr⟩
      · have hidle := trans_of Idle idle hput
        exact hidle.quiet.trans
          (allocFileDescriptor_neg (p := p) (by rw [hidle.current, hp]) hx hneg).1
      · have ht : Touches 1 ip t₁ t₂ := LocalOn.itrunc.of_ok ready.dev_eq htr
        have hlast := allocFileDescriptor_neg (p := p)
          (by rw [hput.current, ht.current, idle.current, hp]) hx hneg
        rw [hput.hasRoom] at hlast
        refine idle.quiet.trans (.before (itrunc_room disk ready.dev_eq ⟨ready.ref, ready.valid⟩
          (fun hpos => ?_) htr) ⟨hput.quiet.trans hlast.1, hlast.2⟩)
        rw [ready.type, idle.vol_eq] at htype
        rw [idle.vol_eq, ready.inum_eq] at hpos
        rw [idle.hasRoom]
        exact hempty k named first hflag htype hpos

theorem fsCreate_neg (h : Disk L S s) (hr : Refs [] s) (hp : s.current = some p)
    (hc : hasFlag flags FILECTRL_CREATE = true) (hroom : Room L s)
    (hfit : OpenFits L p path flags s) (hx : fsCreate path flags s = .ok r s') (hneg : r < 0) :
    Quiet s s' := by
  obtain ⟨⟨o, name⟩, t, hn, hx⟩ := bind_ok.mp hx
  have hidle := (Still.of_ok .namex hn).toIdle
  cases o with
  | none =>
      obtain ⟨-, rfl⟩ := pure_ok.mp hx
      exact hidle.quiet
  | some dp =>
      have hpar := namex_parent h hr hn
      replace hx := inodeAt_then hx
      split_ifs at hx with hperm
      · obtain ⟨u, t₁, hi, hx⟩ := bind_ok.mp hx
        obtain ⟨-, rfl⟩ := pure_ok.mp hx
        exact hidle.quiet.trans (Idle.iput.of_ok hi).quiet
      · have hd0 : (t.inodeTable dp).dev ≠ 0 :=
          fun h0 => hperm ⟨h0, hasFlag_mono hc (by decide)⟩
        have hdir := hpar.dir hd0
        have hon : ParentOn s path (t.inodeTable dp).inum name := ⟨dp, t, hn, hdir.dev_eq, rfl⟩
        refine hidle.quiet.trans (fsCreateIn_neg hpar.toDisk hpar.refs (by rw [hidle.current, hp])
          hdir (hroom.of_same hpar.same) ?_ ?_ hx hneg)
        · rw [hidle.vol_eq, hidle.hasRoom]
          exact fun k hk hfirst => hfit.empties _ (.entry hc hon hk hfirst rfl)
        · rw [hidle.vol_eq, hidle.hasRoom]
          exact fun hlacks hfree => hfit.makes _ ⟨hc, ⟨name, hon, hlacks⟩, hfree⟩

end Failing

/-! ## Runs -/

/-- The condition on the calls of a run.  The first two keep the volume in order. -/
structure OpenPolicy (L : Layout) (p : Fin PROCS_MAX) (c : Syscall) (s : KState) : Prop where
  writes : WritesFiles L p c s
  room : c.MayCreate → Room L s
  fits : ∀ path flags, c = .open path flags →
    OpenFits L p path.1 flags { s with current := some p }

section Runs

variable {d0 d1 : Device} {path : CString}

/-- In every state reached, an `open` that fails leaves no trace. -/
theorem open_all_or_nothing (himg : d1.Consistent L) (h : Reached (OpenPolicy L) d0 d1 s)
    (hP : OpenPolicy L p (.open path flags) s) (hx : step p (.open path flags) s = .ok r s')
    (hneg : r < 0) : Unaltered s s' := by
  obtain ⟨-, S, hd, -⟩ := h.invariant (J := fun _ _ => True) himg
    (fun hP _ => ⟨hP.room, hP.writes⟩) trivial fun _ _ _ _ _ => trivial
  obtain ⟨l, fs, hb⟩ := h.tallied
  have hrun := step_runnable hx
  have hb₁ := hb.setCurrent hrun
  rw [step_eq hrun] at hx
  have hb' := ((BalancedAt.handleSyscall hb₁ rfl hrun rfl).1 r s' hx).1
  have hd₁ : Disk L S { s with current := some p } := hd.tables rfl rfl rfl rfl
  have hr₁ : Refs [] { s with current := some p } := h.guard.refs
  have hfit := hP.fits path flags rfl
  have hq : Quiet { s with current := some p } s' := by
    rw [handleSyscall] at hx
    split_ifs at hx with hc
    · exact fsCreate_neg hd₁ hr₁ rfl hc (hP.room hc) hfit hx hneg
    · exact fsOpen_neg hd₁ hr₁ rfl (by simpa using hc) hfit hx hneg
  obtain ⟨h1, h2, h3⟩ := hq.unaltered hb₁ hb'
  exact ⟨⟨h1.disk, h1.procs, h1.file⟩, h2, h3⟩

/-- The calls that open a file and neither empty nor make one. -/
def Syscall.PlainOpen : Syscall → Prop
  | .open _ flags => hasFlag flags FILECTRL_TRUNCATE = false ∧ hasFlag flags FILECTRL_CREATE = false
  | _ => False

instance (c : Syscall) : Decidable c.PlainOpen := by
  cases c <;> unfold Syscall.PlainOpen <;> infer_instance

theorem OpenPolicy.of_plainOpen {c : Syscall} (h : c.PlainOpen) : OpenPolicy L p c s := by
  cases c with
  | «open» path flags =>
      refine ⟨fun n hn => (by cases hn), fun hc => ?_, ?_⟩
      · have := h.2.symm.trans hc
        cases this
      · rintro path' flags' ⟨⟩
        exact .of_flags h.1 h.2
  | _ => exact h.elim

/-- The shell opens the console until it has no descriptor left, and then `/home`. -/
theorem open_all_or_nothing_full :
    ∃ s r s', Reached (OpenPolicy formattedLayout) systemDisk emptyDisk s ∧
      step 1 (.open ⟨homePath, by decide⟩ FILECTRL_READONLY) s = .ok r s' ∧ r = ERR_NO_SPACE ∧
      Unaltered s s' := by
  have hrun : (playFrom (fun _ c _ => c.PlainOpen) systemDisk emptyDisk
      (List.replicate 13 (1, .open ⟨consolePath, by decide⟩ FILECTRL_READONLY))).any (fun s =>
        yields (step 1 (.open ⟨homePath, by decide⟩ FILECTRL_READONLY))
          (fun r _ => r == ERR_NO_SPACE) s) = true := by decide +kernel
  obtain ⟨s, hs, hQ⟩ := Reached.of_playFrom hrun
  replace hs := hs.mono (Q := OpenPolicy formattedLayout) fun _ _ _ => .of_plainOpen
  obtain ⟨r, s', hx, hr⟩ := exists_ok_of_yields hQ
  obtain rfl := beq_iff_eq.mp hr
  exact ⟨s, _, s', hs, hx, rfl,
    open_all_or_nothing emptyDisk_consistent hs (.of_plainOpen (by decide)) hx (by decide)⟩

/-- The shell makes a file with one byte and opens the console until it has no
descriptor left.  Then it opens the file with `FILECTRL_TRUNCATE`: the call fails,
and the byte is gone. -/
theorem open_not_undone :
    emptyDisk.Consistent formattedLayout ∧
      ∃ s r s', Reached (WritesFiles formattedLayout) systemDisk emptyDisk s ∧
        step 1 (.open pathA (FILECTRL_WRITEONLY ||| FILECTRL_TRUNCATE)) s = .ok r s' ∧ r < 0 ∧
        ((s.vol formattedLayout 1).ino 2).size = 1 ∧
        ((s'.vol formattedLayout 1).ino 2).size = 0 := by
  refine ⟨emptyDisk_consistent, ?_⟩
  have hrun : (playFrom (WritesFiles formattedLayout) systemDisk emptyDisk
      ((1, .open pathA (FILECTRL_WRITEONLY ||| FILECTRL_CREATE)) :: (1, .write 3 Buf.zero 1) ::
        List.replicate 12 (1, .open ⟨consolePath, by decide⟩ FILECTRL_READONLY))).any (fun s =>
        yields (step 1 (.open pathA (FILECTRL_WRITEONLY ||| FILECTRL_TRUNCATE)))
          (fun r s' => decide (r < 0 ∧ ((s.vol formattedLayout 1).ino 2).size = 1 ∧
            ((s'.vol formattedLayout 1).ino 2).size = 0)) s) = true := by decide +kernel
  obtain ⟨s, hs, hQ⟩ := Reached.of_playFrom hrun
  obtain ⟨r, s', hx, hQ⟩ := exists_ok_of_yields hQ
  exact ⟨s, r, s', hs, hx, of_decide_eq_true hQ⟩

end Runs

end Dmaos
