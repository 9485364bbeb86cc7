import Dmaos.Lib.Actions
import Dmaos.System.Apart
import Dmaos.System.Read

/-!
# Handles and the files they are for

An inode number is used again: `fs_rm` retires an inode whether or not it is open, and
`ialloc` takes the first one that is not in use.  A handle that was obtained on the old
file is then on the new one.

Each time an inode comes into use it holds another file, so a file is given here by its
inode and the number of times the inode has come into use before, its `life`.  `meant` is
the file a handle was obtained on, and `behind` the file it is on now; the kernel has
neither.  They agree in every run in which no call makes a file of an inode that is
behind a handle (`handles_keep_files`).  Otherwise they do not (`handle_changes_file`).
-/

namespace Dmaos

open Fault Actions

variable {s s' k : KState} {p : Fin PROCS_MAX} {c : Syscall} {r fd : Int} {L : Layout}
  {d0 d1 : Device} {σ : Track} {u : Unit} {S : Nat → Prop} {bytes : List Byte}

/-! ## Files -/

/-- A file: the inode that holds it, and how often the inode had come into use. -/
structure FileId where
  dev : Nat
  inum : Nat
  life : Nat
  deriving DecidableEq

/-- The kernel, and the files its handles were obtained on. -/
structure Track where
  k : KState
  /-- How often an inode of device 1 has come into use.  Those of device 0 never do. -/
  life : Nat → Nat
  meant : Fin PROCS_MAX → Handle → Option FileId

/-- The handles a call of process `p` that returned `r` has closed or replaced. -/
def Drops (p : Fin PROCS_MAX) (c : Syscall) (r : Int) (s : KState) (q : Fin PROCS_MAX)
    (h : Handle) : Prop :=
  match c with
  | .close fd => r = 0 ∧ q = p ∧ ∃ i, h = .fd i ∧ ((i : Nat) : Int) = fd
  | .chdir _ => r = 0 ∧ q = p ∧ h = .cwd
  | .wait _ => (s.procs q).state = .exited
  | .spawn _ => findProc s = some q
  | _ => False

instance (p : Fin PROCS_MAX) (r : Int) (s : KState) (q : Fin PROCS_MAX) (h : Handle) :
    (c : Syscall) → Decidable (Drops p c r s q h)
  | .close fd => inferInstanceAs
      (Decidable (r = 0 ∧ q = p ∧ ∃ i, h = .fd i ∧ ((i : Nat) : Int) = fd))
  | .chdir _ => inferInstanceAs (Decidable (r = 0 ∧ q = p ∧ h = .cwd))
  | .wait _ => inferInstanceAs (Decidable ((s.procs q).state = .exited))
  | .spawn _ => inferInstanceAs (Decidable (findProc s = some q))
  | .open _ _ | .read _ _ | .write _ _ _ | .lseek _ _ _ | .ftruncate _ _ | .getFileName _ _
  | .getFileSize _ | .stat _ | .mkdir _ | .rm _ | .exit | .other => .isFalse id

namespace Track

/-- The file in a slot of the inode cache. -/
def fileAt (σ : Track) (i : Fin NINODE) : FileId where
  dev := (σ.k.inodeTable i).dev
  inum := (σ.k.inodeTable i).inum
  life := if (σ.k.inodeTable i).dev = 1 then σ.life (σ.k.inodeTable i).inum else 0

/-- The file a handle is on. -/
def behind (σ : Track) (q : Fin PROCS_MAX) (h : Handle) : Option FileId :=
  (σ.k.slotOf q h).map σ.fileAt

/-- A call of process `p` has returned `r` and led to state `k`. -/
def after (L : Layout) (σ : Track) (p : Fin PROCS_MAX) (c : Syscall) (r : Int) (k : KState) :
    Track :=
  let life := fun n =>
    if inUse (σ.k.vol L 1) n = false ∧ inUse (k.vol L 1) n = true then σ.life n + 1 else σ.life n
  { k := k
    life := life
    meant := fun q h =>
      if Drops p c r σ.k q h ∨ σ.meant q h = none then behind ⟨k, life, σ.meant⟩ q h
      else σ.meant q h }

/-- Process `p` makes call `c`. -/
def next (L : Layout) : Fin PROCS_MAX × Syscall → Track → Option Track
  | (p, c), σ =>
    match step p c σ.k with
    | .ok r k => some (σ.after L p c r k)
    | .error _ _ => none

/-- No call has been made yet. -/
def initial (k : KState) : Track where
  k := k
  life _ := 0
  meant := behind ⟨k, fun _ => 0, fun _ _ => none⟩

/-- The calls keep device 1 in order, and none makes a file of an inode that is behind a
handle. -/
structure Unreused (L : Layout) (a : Fin PROCS_MAX × Syscall) (σ : Track) : Prop where
  orderly : Orderly L a.1 a.2 σ.k
  unheld : a.2.MayCreate → ∀ n, FirstFree (σ.k.vol L 1) n → ∀ q h i,
    σ.k.slotOf q h = some i → ¬ ((σ.k.inodeTable i).dev = 1 ∧ (σ.k.inodeTable i).inum = n)

end Track

/-! ## Calls and handles -/

section Handles

variable {path : List Byte}

/-- A `close` that fails changes nothing. -/
theorem fsClose_fails (hp : s.current = some p) (hx : fsClose fd s = .ok r s') (hr : r ≠ 0) :
    s' = s := by
  obtain hx | ⟨q, i, f, -, hx⟩ := fdFile_then hp hx
  · exact (pure_ok.mp hx).2.symm
  replace hx := get_then hx
  split_ifs at hx
  · exact (pure_ok.mp hx).2.symm
  · obtain ⟨u, t₁, -, hx⟩ := bind_ok.mp hx
    obtain ⟨u, t₂, -, hx⟩ := bind_ok.mp hx
    exact absurd (pure_ok.mp hx).1.symm hr

/-- A `chdir` that fails keeps all handles. -/
theorem sysChdir_fails (h : Tallied s) (hx : sysChdir path s = .ok r s') (hr : r ≠ 0) :
    Keeps (fun _ _ => False) s s' := by
  obtain ⟨l, fs, hb⟩ := h
  obtain ⟨⟨r', o⟩, t, hc, hx⟩ := bind_ok.mp hx
  cases o with
  | none =>
      obtain ⟨-, rfl⟩ := pure_ok.mp hx
      exact ((Balanced.nets Nets.fsChdir s hb).1 _ _ hc).2.keeps
  | some ip =>
      obtain ⟨q, t₁, -, hx⟩ := bind_ok.mp hx
      obtain ⟨u, t₂, -, hx⟩ := bind_ok.mp hx
      obtain ⟨u, t₃, -, hx⟩ := bind_ok.mp hx
      obtain ⟨u, t₄, -, hx⟩ := bind_ok.mp hx
      exact absurd (pure_ok.mp hx).1.symm hr

/-- A call keeps the handles it does not close or replace. -/
theorem step_keeps (h : Tallied s) (hx : step p c s = .ok r s') : Keeps (Drops p c r s) s s' := by
  have hminds := (step_tallied h hx).2.keeps
  have hrun := step_runnable hx
  have hcall := hx
  rw [step_eq hrun] at hcall
  cases c with
  | close fd =>
      by_cases hr : r = 0
      · exact hminds.mono fun q a ha => ⟨hr, ha.resolve_right fun hs => by cases hs.1⟩
      · obtain rfl := fsClose_fails rfl hcall hr
        exact .refl _
  | chdir path =>
      by_cases hr : r = 0
      · exact hminds.mono fun q a ha => ⟨hr, ha.resolve_right fun hs => by cases hs.1⟩
      · exact (sysChdir_fails (h.setCurrent hrun) hcall hr).mono fun _ _ => False.elim
  | wait pid => exact hminds.mono fun q a ha => ha.resolve_right fun hs => by cases hs.1
  | spawn cmdline => exact hminds.mono fun q a ha => (ha.resolve_left id).2
  | _ => exact hminds.mono fun q a ha => (ha.resolve_right fun hs => by cases hs.1).elim

end Handles

/-! ## Runs -/

namespace Track

variable {k' : KState} {σ' : Track}

theorem next_ok (hx : next L (p, c) σ = some σ') :
    ∃ r k, step p c σ.k = .ok r k ∧ σ' = σ.after L p c r k := by
  unfold next at hx
  cases hstep : step p c σ.k with
  | error e k =>
      simp only [hstep] at hx
      cases hx
  | ok r k =>
      simp only [hstep] at hx
      exact ⟨r, k, rfl, (Option.some.inj hx).symm⟩

/-- The kernel makes the calls of the run. -/
theorem reached {P : Fin PROCS_MAX → Syscall → KState → Prop}
    {Q : Fin PROCS_MAX × Syscall → Track → Prop} (hQ : ∀ {p c σ}, Q (p, c) σ → P p c σ.k)
    (hb : boot (coldState d0 d1) = .ok u k) (h : Reaches (next L) Q (initial k) σ) :
    Reached P d0 d1 σ.k := by
  induction h with
  | start => exact .boot hb
  | @act a σ σ' before cond done ih =>
      obtain ⟨p, c⟩ := a
      obtain ⟨r, k, hstep, rfl⟩ := next_ok done
      exact .step ih (hQ cond) hstep

/-- No inode that is behind a handle comes into use. -/
theorem Unreused.life_eq (hP : Unreused L (p, c) σ) (hd : Disk L S σ.k)
    (hr : Refs [] σ.k) (hx : step p c σ.k = .ok r k) {q : Fin PROCS_MAX} {h : Handle}
    {i : Fin NINODE} (hi : σ.k.slotOf q h = some i) (hdev : (σ.k.inodeTable i).dev = 1) :
    (σ.after L p c r k).life (σ.k.inodeTable i).inum = σ.life (σ.k.inodeTable i).inum := by
  refine if_neg ?_
  rintro ⟨hfree, hused⟩
  obtain ⟨a, S', hA, he, hd', -⟩ := step_performs hd hr hP.orderly.room hP.orderly.writes hx
  obtain ⟨d, name, rfl⟩ := he.made hd.wf hd'.wf hfree hused
  cases he with
  | create creates =>
      exact hP.unheld hA.1 _ ⟨creates.pos, creates.free, creates.first⟩ q h i hi ⟨hdev, rfl⟩

/-- Every handle is on the file it was obtained on. -/
def Faithful (σ : Track) : Prop := ∀ q h, σ.behind q h = σ.meant q h

theorem Faithful.after (hσ : σ.Faithful) (hP : Unreused L (p, c) σ)
    (hd : Disk L S σ.k) (ht : Tallied σ.k) (hx : step p c σ.k = .ok r k) :
    (σ.after L p c r k).Faithful := by
  intro q h
  by_cases hdrop : Drops p c r σ.k q h ∨ σ.meant q h = none
  · exact (if_pos hdrop).symm
  · have hmeant : (σ.after L p c r k).meant q h = σ.meant q h := if_neg hdrop
    rw [not_or] at hdrop
    rw [hmeant, ← hσ q h]
    rw [← hσ q h] at hdrop
    -- the handle stays on its slot, and the slot on its inode
    obtain ⟨F, hF⟩ := Option.ne_none_iff_exists'.mp hdrop.2
    obtain ⟨i, hi, -⟩ := Option.map_eq_some_iff.mp hF
    obtain ⟨hi', hkept⟩ := step_keeps ht hx q h i hdrop.1 hi
    have hbehind' : (σ.after L p c r k).behind q h = some ((σ.after L p c r k).fileAt i) := by
      rw [behind, show (σ.after L p c r k).k.slotOf q h = some i from hi', Option.map_some]
    have hbehind : σ.behind q h = some (σ.fileAt i) := by
      rw [behind, hi, Option.map_some]
    have hfile : (σ.after L p c r k).fileAt i = σ.fileAt i := by
      unfold fileAt
      rw [show ((σ.after L p c r k).k.inodeTable i).dev = _ from hkept.dev,
        show ((σ.after L p c r k).k.inodeTable i).inum = _ from hkept.inum]
      congr 1
      exact if_ctx_congr Iff.rfl (fun hdev => hP.life_eq hd ht.refs hx hi hdev) fun _ => rfl
    rw [hbehind', hbehind, hfile]

theorem faithful (himg : d1.Consistent L) (hb : boot (coldState d0 d1) = .ok u k)
    (h : Reaches (next L) (Unreused L) (initial k) σ) : σ.Faithful := by
  induction h with
  | start => exact fun q h => rfl
  | @act a σ σ' before cond done ih =>
      obtain ⟨p, c⟩ := a
      obtain ⟨r, k', hstep, rfl⟩ := next_ok done
      have hreached : Reached (Orderly L) d0 d1 σ.k := reached (fun hP => hP.orderly) hb before
      obtain ⟨-, S, hd⟩ := hreached.disk himg
      exact ih.after cond hd hreached.tallied hstep

end Track

/-! ## What is done through a handle -/

/-- The descriptor a call works through. -/
def Syscall.descriptor : Syscall → Option Int
  | .read fd _ => some fd
  | .write fd _ _ => some fd
  | .lseek fd _ _ => some fd
  | .ftruncate fd _ => some fd
  | _ => none

/-- What is done through a handle has to do with the inode behind it only. -/
structure ThroughHandles (L : Layout) (s : KState) : Prop where
  /-- The files of device 1 behind other handles, or behind none, stay as they are. -/
  others : ∀ p c fd r s' n, c.descriptor = some fd → WritesFiles L p c s →
    step p c s = .ok r s' → InUse (s.vol L 1) n → s.fdInode p fd ≠ some (1, n) →
    SameFile (s.vol L 1) (s'.vol L 1) n
  /-- What is read stands in the file. -/
  reads : ∀ p fd len r bytes s' n, fsRead fd len { s with current := some p } = .ok (r, bytes) s' →
    s.fdInode p fd = some (1, n) → bytes <:+: (s.vol L 1).content n
  /-- A relative path is followed from the working directory. -/
  starts : ∀ p path i ip s', path.head? ≠ some slash → s.slotOf p .cwd = some i →
    namexStart path { s with current := some p } = .ok ip s' →
    (s'.inodeTable ip).dev = (s.inodeTable i).dev ∧
      (s'.inodeTable ip).inum = (s.inodeTable i).inum

section Through

variable {len : Int} {n : Nat}

/-- A write or a cut leaves the other files alone. -/
theorem Performs.sameFile_of (h : Performs L S (fun a => a = .none ∨ ∃ m, m ≠ n ∧
      (a = .write m ∨ a = .cut m)) s s') (hd : Disk L S s) (hn : InUse (s.vol L 1) n) :
    SameFile (s.vol L 1) (s'.vol L 1) n := by
  have hS := hd.wf.used hn
  obtain ⟨a, S', hA, he, -⟩ := h
  generalize s'.vol L 1 = V' at he ⊢
  cases he with
  | none => exact .refl _ _
  | write mem wrote =>
      obtain ⟨m, hmn, ha⟩ := hA.resolve_left nofun
      obtain rfl := Act.write.inj (ha.resolve_right nofun)
      exact wrote.sameFile hmn.symm hS (hd.wf.shaped hS)
  | cut mem cut =>
      obtain ⟨m, hmn, ha⟩ := hA.resolve_left nofun
      obtain rfl := Act.cut.inj (ha.resolve_left nofun)
      exact cut.sameFile hmn.symm hS (hd.wf.shaped hS)
  | create => obtain ⟨m, -, ha | ha⟩ := hA.resolve_left nofun <;> cases ha
  | remove => obtain ⟨m, -, ha | ha⟩ := hA.resolve_left nofun <;> cases ha

theorem descriptor_others (hd : Disk L S s) (hr : Refs [] s) (hfd : c.descriptor = some fd)
    (hw : WritesFiles L p c s) (hx : step p c s = .ok r s') (hn : InUse (s.vol L 1) n)
    (hne : s.fdInode p fd ≠ some (1, n)) : SameFile (s.vol L 1) (s'.vol L 1) n := by
  have hd' : Disk L S { s with current := some p } := hd.tables rfl rfl rfl rfl
  rw [step_eq (step_runnable hx)] at hx
  have hother (m : Nat) (hm : s.fdInode p fd = some (1, m)) : m ≠ n := by
    rintro rfl
    exact hne hm
  have hquiet (hc : ¬ c.Writes) : SameFile (s.vol L 1) (s'.vol L 1) n := by
    obtain ⟨hsame, -⟩ := (Serves.handleSyscall (P := diskPolicy L S) hc
      { s with current := some p } ⟨hr, hd'⟩).of_ok hx
    rw [show s'.vol L 1 = s.vol L 1 from KState.vol_congr (by rw [hsame.1]) hsame.2]
    exact .refl _ _
  cases c with
  | read => exact hquiet id
  | lseek => exact hquiet id
  | write =>
      obtain rfl := Option.some.inj hfd
      have hperf := fsWrite_performs (p := p)
        (A := fun a => a = .none ∨ ∃ m, m ≠ n ∧ (a = .write m ∨ a = .cut m)) hd' hr rfl hw
        (.inl rfl)
        (fun m hm => .inr ⟨m, hother m hm, .inl rfl⟩) hx
      exact hperf.sameFile_of hd' hn
  | ftruncate =>
      obtain rfl := Option.some.inj hfd
      have hperf := fsFtruncate_performs (p := p)
        (A := fun a => a = .none ∨ ∃ m, m ≠ n ∧ (a = .write m ∨ a = .cut m)) hd' rfl (.inl rfl)
        (fun m hm => .inr ⟨m, hother m hm, .inr rfl⟩) hx
      exact hperf.sameFile_of hd' hn
  | _ => cases hfd

/-- What `readi` returns are bytes of the file, if there are any. -/
theorem Disk.readi_infix {ip : Fin NINODE} {off k : Nat} (hd : Disk L S s)
    (hh : Holds 1 n ip s) (hk : k < 2 ^ 32) (hx : readi ip off k s = .ok (r, bytes) s') :
    bytes <:+: (s.vol L 1).content n := by
  have hS := (hd.held hh).1
  obtain ⟨-, -, -, hret⟩ := readi_ok hd.sound hh.dev_eq hh.inum_eq (hd.wf.lt hS) hS hk hx
  split_ifs at hret
  · rw [(Prod.mk.inj hret).2]
    exact (List.take_prefix _ _).isInfix.trans (List.drop_suffix _ _).isInfix
  · rw [(Prod.mk.inj hret).2]
    exact List.nil_infix

theorem fsRead_reads (hd : Disk L S s) (hr : Refs [] s)
    (hp : s.current = some p) (hx : fsRead fd len s = .ok (r, bytes) s')
    (hfd : s.fdInode p fd = some (1, n)) : bytes <:+: (s.vol L 1).content n := by
  have hnil {x : Int} {t : KState} (hx : (pure (x, []) : Kern (Int × List Byte)) t
      = .ok (r, bytes) s') : bytes <:+: (s.vol L 1).content n := by
    rw [← (Prod.mk.inj (pure_ok.mp hx).1).2]
    exact List.nil_infix
  obtain hx | ⟨q, i, f, hslot, hx⟩ := fdFile_then hp hx
  · exact hnil hx
  replace hx := get_then hx
  dsimp only at hx
  split_ifs at hx with htype hread
  · exact hnil hx
  · exact hnil hx
  cases hft : (s.fileTable f).type with
  | none => exact absurd hft htype
  | console =>
      simp only [hft] at hx
      exact hnil hx
  | inode =>
      simp only [hft] at hx
      cases hip : (s.fileTable f).ip with
      | none =>
          simp only [hip] at hx
          exact hnil hx
      | some ip =>
          simp only [hip] at hx hslot
          obtain ⟨⟨w, bs⟩, t, hrd, hx⟩ := bind_ok.mp hx
          obtain rfl : bs = bytes := by
            dsimp only at hx
            split_ifs at hx
            · obtain ⟨u, t', -, hx⟩ := bind_ok.mp hx
              exact (Prod.mk.inj (pure_ok.mp hx).1).2
            · exact (Prod.mk.inj (pure_ok.mp hx).1).2
          rw [KState.fdInode, hslot, Option.map_some, Option.some.injEq, Prod.mk.injEq] at hfd
          have hpos : 0 < (s.inodeTable ip).ref :=
            lt_of_lt_of_le (refsTo_pos_of_file hip) (hr ip)
          have hlen : toU32 len < 2 ^ 32 := by
            unfold toU32
            omega
          exact hd.readi_infix ⟨hpos, hfd.1, hfd.2⟩ hlen hrd

theorem Disk.throughHandles (hd : Disk L S s) (hr : Refs [] s) : ThroughHandles L s where
  others _ _ _ _ _ _ hfd hw hx hn hne := descriptor_others hd hr hfd hw hx hn hne
  reads p _ _ _ _ _ _ hx hfd :=
    fsRead_reads (s := { s with current := some p }) (hd.tables rfl rfl rfl rfl) hr rfl hx hfd
  starts p path i ip s' hpath hi hx := by
    replace hx := get_then hx
    replace hi : (s.procs p).cwd = some i := hi
    rw [if_neg hpath] at hx
    simp only [Option.bind_some, hi] at hx
    have hh := iget_holds hx
    exact ⟨hh.dev_eq, hh.inum_eq⟩

end Through

/-- In every run in which no call makes a file of an inode that is behind a handle, each
handle is on the file it was obtained on, and what is done through it has to do with that
file only. -/
theorem handles_keep_files (himg : d1.Consistent L) (hb : boot (coldState d0 d1) = .ok u k)
    (h : Reaches (Track.next L) (Track.Unreused L) (.initial k) σ) :
    (∀ q h, σ.behind q h = σ.meant q h) ∧ ThroughHandles L σ.k := by
  have hreached : Reached (Orderly L) d0 d1 σ.k := Track.reached (fun hP => hP.orderly) hb h
  obtain ⟨-, S, hd⟩ := hreached.disk himg
  exact ⟨Track.faithful himg hb h, hd.throughHandles hreached.guard.refs⟩

/-! ## Two runs -/

namespace Track

/-- No slot in use is for an inode that has been removed. -/
def Live (L : Layout) (a : Fin PROCS_MAX × Syscall) (σ : Track) : Prop :=
  WritesFiles L a.1 a.2 σ.k ∧ ∀ i, 0 < (σ.k.inodeTable i).ref → (σ.k.inodeTable i).dev = 1 →
    InUse (σ.k.vol L 1) (σ.k.inodeTable i).inum

instance (L : Layout) (a : Fin PROCS_MAX × Syscall) (σ : Track) : Decidable (Live L a σ) := by
  unfold Live
  infer_instance

theorem Live.unreused {a : Fin PROCS_MAX × Syscall} (h : Live L a σ) (hroom : Room L σ.k)
    (hr : Refs [] σ.k) : Unreused L a σ where
  orderly := ⟨h.1, fun _ => hroom⟩
  unheld _ n hn q x i hi hslot := by
    have hpos : 0 < (σ.k.inodeTable i).ref := lt_of_lt_of_le (refsTo_pos_of_slotOf hi) (hr i)
    have hused := h.2 i hpos hslot.1
    rw [hslot.2, InUse, hn.free] at hused
    cases hused

theorem reaches_unreused (himg : d1.Consistent L) (hn : d1.super.ninodes = L.ninodes)
    (hb : boot (coldState d0 d1) = .ok u k) (h : Reaches (next L) (Live L) (initial k) σ) :
    Reaches (next L) (Unreused L) (initial k) σ := by
  induction h with
  | start => exact .start
  | @act a σ σ' before cond done ih =>
      have hreached : Reached (Orderly L) d0 d1 σ.k := reached (fun hP => hP.orderly) hb ih
      have hroom : Room L σ.k := Or.inl (by rw [(hreached.disk himg).1, hn])
      exact ih.act (cond.unreused hroom hreached.guard.refs) done

end Track

/-- A file is made, closed and removed, and the next file gets its inode. -/
theorem handles_keep_files_reopened : ∃ k σ, boot (coldState systemDisk emptyDisk) = .ok () k ∧
    Reaches (Track.next formattedLayout) (Track.Unreused formattedLayout) (.initial k) σ ∧
      σ.meant 1 (.fd 3) = some ⟨1, 2, 2⟩ ∧ σ.behind 1 (.fd 3) = some ⟨1, 2, 2⟩ := by
  have hrun : yields boot (fun _ k => (perform (Track.next formattedLayout)
      (Track.Live formattedLayout)
      [(1, .open pathA (FILECTRL_CREATE ||| FILECTRL_WRITEONLY)), (1, .close 3), (1, .rm pathA),
        (1, .open pathB (FILECTRL_CREATE ||| FILECTRL_WRITEONLY)), (1, .write 3 Buf.zero 1)]
      (.initial k)).any fun σ => σ.meant 1 (.fd 3) == some ⟨1, 2, 2⟩)
      (coldState systemDisk emptyDisk) = true := by
    decide +kernel
  obtain ⟨u, k, hb, hrun⟩ := exists_ok_of_yields hrun
  obtain ⟨σ, hσ, hmeant⟩ := Reaches.of_perform hrun
  have hσ' := Track.reaches_unreused emptyDisk_consistent rfl hb hσ
  have hmeant := beq_iff_eq.mp hmeant
  refine ⟨k, σ, hb, hσ', hmeant, ?_⟩
  rw [(handles_keep_files emptyDisk_consistent hb hσ').1, hmeant]

/-- A file is removed while it is open, and the next file gets its inode.  A byte that is
written through the old descriptor is then in the new file. -/
theorem handle_changes_file : ∃ k σ k', boot (coldState systemDisk emptyDisk) = .ok () k ∧
    Reaches (Track.next formattedLayout) (fun _ _ => True) (.initial k) σ ∧
      σ.meant 1 (.fd 3) = some ⟨1, 2, 1⟩ ∧ σ.meant 1 (.fd 4) = some ⟨1, 2, 2⟩ ∧
      σ.behind 1 (.fd 3) = some ⟨1, 2, 2⟩ ∧ ((σ.k.vol formattedLayout 1).ino 2).size = 0 ∧
      step 1 (.write 3 Buf.zero 1) σ.k = .ok 1 k' ∧
      ((k'.vol formattedLayout 1).ino 2).size = 1 := by
  have hrun : yields boot (fun _ k => (perform (Track.next formattedLayout) (fun _ _ => True)
      [(1, .open pathA (FILECTRL_CREATE ||| FILECTRL_WRITEONLY)), (1, .rm pathA),
        (1, .open pathB (FILECTRL_CREATE ||| FILECTRL_WRITEONLY))]
      (.initial k)).any fun σ => decide (σ.meant 1 (.fd 3) = some ⟨1, 2, 1⟩ ∧
        σ.meant 1 (.fd 4) = some ⟨1, 2, 2⟩ ∧ σ.behind 1 (.fd 3) = some ⟨1, 2, 2⟩ ∧
        ((σ.k.vol formattedLayout 1).ino 2).size = 0) &&
        answers 1 (.write 3 Buf.zero 1) (fun r k' => r == 1 &&
          ((k'.vol formattedLayout 1).ino 2).size == 1) σ.k)
      (coldState systemDisk emptyDisk) = true := by
    decide +kernel
  obtain ⟨u, k, hb, hrun⟩ := exists_ok_of_yields hrun
  obtain ⟨σ, hσ, hQ⟩ := Reaches.of_perform hrun
  rw [Bool.and_eq_true, decide_eq_true_eq] at hQ
  obtain ⟨⟨hold, hnew, hbehind, hempty⟩, hwrite⟩ := hQ
  obtain ⟨r, k', hx, hsize⟩ := exists_ok_of_answers hwrite
  rw [Bool.and_eq_true, beq_iff_eq, beq_iff_eq] at hsize
  obtain ⟨rfl, hsize⟩ := hsize
  exact ⟨k, σ, k', hb, hσ, hold, hnew, hbehind, hempty, hx, hsize⟩

end Dmaos
