import Dmaos.Refine.Frees
import Dmaos.System.Descriptor

/-!
# Staying inside the buffers

Some functions of the kernel access a buffer at an index they do not check:
`bfree` and `balloc` the block of the free map, `itrunc` the root of the
double-indirect blocks, `fs_normalize_path` the path it works on.  The kernel goes
on after an access outside, with its memory changed, so that anything may follow
(`Possible`).

On a consistent device all blocks that are freed are in the free map, so no call
leaves a buffer (`handleSyscall_contained`) as long as no directory is written to
through a descriptor.  Such runs write nothing to device 0
(`system_disk_read_only`), and their reference counts are exact
(`references_exact`).  A file that is written into a directory as an inode makes
`rm` leave the free map.
-/

namespace Dmaos

open Fault KState

variable {L : Layout} {s : KState} {p : Fin PROCS_MAX} {flags : Nat} {c : Syscall} {d0 : Device}

/-! ## Calls that stay inside -/

/-- An access outside a buffer is the scan of a free map that is larger than its
block. -/
def Contained (e : Halt) (s : KState) : Prop :=
  ∀ i, e = .outOfBounds i → ∃ dev, 8 * BSIZE < (s.sb dev).nblocks

instance : Plain Contained where
  plain h := by
    rintro i rfl
    exact h.elim

instance : Miscount Contained where
  iput _ h := by cases h
  fileClose _ h := by cases h

instance : Scanning Contained where
  scan {dev b s} hb hlt i _ := ⟨dev, by omega⟩

/-- Relative to a working directory whose path fills its buffer, `fs_normalize_path`
reads the byte behind it. -/
def Syscall.relative : Syscall → Bool
  | .chdir path => path.1.head? != some slash
  | _ => false

/-- The call does not change the directory relative to such a path. -/
def ShortCwd (p : Fin PROCS_MAX) (c : Syscall) (s : KState) : Prop :=
  c.relative = true → (s.procs p).cwdPath.length < MAX_PATH - 1

instance (p : Fin PROCS_MAX) (c : Syscall) (s : KState) : Decidable (ShortCwd p c s) := by
  unfold ShortCwd
  infer_instance

section Calls

variable {S : Nat → Prop} {ip dp : Fin NINODE} {name path : List Byte} {d : Nat}

theorem contained {α : Type} {x : Kern α} (h : Fault.Confined Anyhow Contained x) :
    Stops Contained x s := h.stops

theorem itrunc_contained {size : Nat} (h : Disk L S s) (hd : (s.inodeTable ip).dev ≠ 0) :
    Stops Contained (itrunc ip size) s := by
  by_cases hr : 0 < (s.inodeTable ip).ref
  · have hold : Holds 1 (s.inodeTable ip).inum ip s := ⟨hr, h.dev_eq hr hd, rfl⟩
    have hS := (h.held hold).1
    exact itrunc_stops h.sound hold (.inl inferInstance) (h.wf.lt hS) hS (h.wf.shaped hS).covered
  · refine .bind (contained .ilock) fun u t hl => absurd ?_ hr
    rw [← (Calm.ilock.of_ok hl).ref]
    exact (ilock_valid hl).1

theorem fsFtruncate_contained {fd length : Int} (h : Disk L S s) (hw : Writable s)
    (hp : s.current = some p) : Stops Contained (fsFtruncate fd length) s := by
  refine .bind (contained .fdFile) fun o t hf => ?_
  obtain ⟨rfl, -⟩ := fdFile_ok hp hf
  rcases o with _ | ⟨q, i, f⟩
  · exact .pure
  · show Stops Contained (if (s.fileTable f).writable = false then _ else _) s
    split_ifs with hwr
    · exact .pure
    · exact .pure
    · exact .pure
    · split
      · next ip _ hip =>
          exact .bind (itrunc_contained h (hw f ip hip (by simpa using hwr))) fun _ _ _ => .pure
      · exact contained (.plain trivial)
      · exact .pure

theorem fsOpen_contained (h : Disk L S s) (hr : Refs [] s) :
    Stops Contained (fsOpen path flags) s := by
  unfold fsOpen
  split_ifs
  · exact contained (.bind .fileCreate fun
      | none => .pure
      | some _ => .installFd)
  · refine .bind (contained .namei) fun o t hn => ?_
    obtain ⟨-, -, h₁⟩ := (Serves.namei (P := diskPolicy L S) s ⟨hr, h⟩).of_ok hn
    cases o with
    | none => exact .pure
    | some ip =>
        refine .bind (contained .ilock) fun u t₂ hl => ?_
        have h₂ : Disk L S t₂ := Disk.of_calm h₁ (Calm.ilock.of_ok hl)
        refine .inodeAt ?_
        split_ifs with hperm htrunc
        · exact contained (.bind .iput fun _ => .pure)
        · -- Files of device 0 are not cut.
          exact .bind (itrunc_contained h₂ fun h0 => hperm ⟨h0, hasFlag_mono htrunc.1 (by decide)⟩)
            fun _ _ _ => contained .allocFileDescriptor
        · exact contained .allocFileDescriptor

theorem fsCreateIn_contained (h : Disk L S s) (hr : Refs [dp] s)
    (hdir : DirAt L d dp s) : Stops Contained (fsCreateIn dp name flags) s := by
  refine .inodeAt ?_
  refine .bind (contained .dirlookup) fun o t hl => ?_
  rcases o with _ | ⟨ip, off⟩
  · exact contained (.bind .ialloc fun
      | none => .bind .iput fun _ => .pure
      | some _ => .bind .inodeAt fun _ => .bind .dirlink fun _ =>
          .ite (.bind .iput fun _ => .bind .iput fun _ => .pure)
            (.bind .iput fun _ => .allocFileDescriptor))
  · obtain ⟨h₁, -, -, -, k, -, -, -, hold⟩ := dirlookup_some h hr hdir hl
    refine .bind (contained .ilock) fun u t₁ hlk => ?_
    have hc := Calm.ilock.of_ok hlk
    refine .inodeAt ?_
    have hopen : Fault.Confined Anyhow Contained
        (iput dp >>= fun _ => allocFileDescriptor ip flags) :=
      .bind .iput fun _ => .allocFileDescriptor
    split_ifs
    · refine .bind (itrunc_contained (h₁.of_calm hc) ?_) fun _ _ _ => contained hopen
      rw [hc.dev, hold.dev_eq]
      decide
    · exact contained hopen

theorem fsRmIn_contained (h : Disk L S s) (hr : Refs [dp] s) (hdir : DirAt L d dp s) :
    Stops Contained (fsRmIn dp name) s := by
  have hback : ∀ {ip : Fin NINODE} {r : Int}, Fault.Confined Anyhow Contained
      (iput ip >>= fun _ => iput dp >>= fun _ => pure r) :=
    .bind .iput fun _ => .bind .iput fun _ => .pure
  refine .bind (contained .dirlookup) fun o t hl => ?_
  rcases o with _ | ⟨ip, off⟩
  · exact contained (.bind .iput fun _ => .pure)
  · obtain ⟨h₁, hr₁, hsame, hdir₁, k, rfl, hk, -, hold⟩ := dirlookup_some h hr hdir hl
    have hvol : t.vol L 1 = s.vol L 1 := vol_congr (by rw [hsame.1]) hsame.2
    refine .bind (contained .removable) fun b t₁ hrm => ?_
    have hc : Calm t t₁ := .of_ok .removable hrm
    have h₂ := h₁.of_calm hc
    split_ifs
    · rw [← hvol, ← hc.vol_eq] at hk
      refine .bind (contained .writei) fun w t₂ hw => ?_
      obtain ⟨hwork, -, h₃⟩ := entry_erased h₂ (hdir₁.of_calm hc) hk hw
      have hdev : (t₂.inodeTable ip).dev ≠ 0 := by
        rw [(hwork.touches.slot ip).1, hc.dev, hold.dev_eq]
        decide
      split_ifs
      · exact contained hback
      · exact .bind (itrunc_contained h₃ hdev) fun _ _ _ => contained (.bind .setDinode fun _ =>
          .bind .iupdate fun _ => hback)
    · exact contained hback

/-- A call in a parent directory. -/
theorem inParent_contained {x : Fin NINODE → List Byte → Kern Int} {a b : Int}
    {R : Inode → Prop} [DecidablePred R] (h : Disk L S s) (hr : Refs [] s)
    (hR : ∀ D : Inode, D.dev = 0 → R D)
    (hin : ∀ {dp name t}, Parent L S path dp name s t → DirAt L (t.inodeTable dp).inum dp t →
      Stops Contained (x dp name) t) :
    Stops Contained (do
      match ← namex path true with
      | (none, _) => return a
      | (some dp, name) =>
        let D ← inodeAt dp
        if R D then
          iput dp
          return b
        else x dp name) s := by
  refine .bind (contained .namex) fun o t hn => ?_
  rcases o with ⟨_ | dp, name⟩
  · exact .pure
  · have hpar := namex_parent h hr hn
    refine .inodeAt ?_
    split_ifs with h0
    · exact contained (.bind .iput fun _ => .pure)
    · exact hin hpar (hpar.dir fun hd => h0 (hR _ hd))

theorem sysChdir_contained {path : CString} (hp : s.current = some p)
    (hc : ShortCwd p (.chdir path) s) : Stops Contained (sysChdir path.1) s := by
  refine .bind (contained .fsChdir) fun r t hf => ?_
  have hs : SameProcs s t := Confined.of_ok (E := fun _ _ => True) .fsChdir hf
  rcases r with ⟨r, _ | ip⟩
  · exact .pure
  · have hcur : currentProcess t = .ok p t := currentProcess_run (by rw [hs.current, hp])
    refine .bind (.of_ok hcur) fun q t₁ hq => ?_
    rw [hcur] at hq
    cases hq
    refine .bind (.bind (contained .get) fun u t₁ hu => ?_) fun _ _ _ => contained
      (.bind .dropCwd fun _ => .bind (.modify fun _ => trivial) fun _ => .pure)
    obtain ⟨rfl, rfl⟩ := get_ok.mp hu
    refine .bind (.bind ?_ fun _ _ _ => .pure) fun _ _ _ => .modify _
    unfold joinPath
    split_ifs with habs hlong
    · exact .pure
    · have := hc (by simpa [Syscall.relative] using habs)
      rw [← hs.procs] at this
      omega
    · exact .pure
    · exact .pure

/-- No call leaves a buffer on a device that is in order. -/
theorem handleSyscall_contained (h : Disk L S s) (hr : Refs [] s)
    (hw : Writable s) (hp : s.current = some p) (hc : ShortCwd p c s) :
    Stops Contained (handleSyscall c) s := by
  cases c with
  | «open» path flags =>
      show Stops Contained (if hasFlag flags FILECTRL_CREATE = true then _ else _) s
      split_ifs with hf
      · exact inParent_contained h hr (fun _ hD => ⟨hD, hasFlag_mono hf (by decide)⟩)
          fun hpar hdir => fsCreateIn_contained hpar.toDisk hpar.refs hdir
      · exact fsOpen_contained h hr
  | read fd n => exact contained (.ite .pure (.bind .fsRead fun _ => .pure))
  | write fd buf n => exact contained .fsWrite
  | close fd => exact contained .fsClose
  | lseek fd offset whence => exact contained .fsLseek
  | ftruncate fd length => exact fsFtruncate_contained h hw hp
  | getFileName index bufLen =>
      exact contained (.ite .pure (.bind .fsGetFileName fun _ => .pure))
  | getFileSize index => exact contained .fsGetFileSize
  | stat path => exact contained (.bind .fsStat fun _ => .pure)
  | chdir path => exact sysChdir_contained hp hc
  | mkdir path => exact contained .fsMkdir
  | rm path =>
      exact inParent_contained h hr (fun _ hD => hD)
        fun hpar hdir => fsRmIn_contained hpar.toDisk hpar.refs hdir
  | spawn cmdline => exact contained .spawnProcess
  | exit => exact contained (.bind .exitCurrentProcess fun _ => .pure)
  | wait pid => exact contained .waitProcess
  | other => exact .pure

theorem step_contained (h : Disk L S s) (hg : Guard readOnly [] s)
    (hc : ShortCwd p c s) : Stops Contained (step p c) s := by
  refine .get ?_
  split_ifs
  · refine .bind (.modify _) fun u t hm => ?_
    obtain rfl := modify_ok.mp hm
    exact handleSyscall_contained (s := { s with current := some p }) (h.tables rfl rfl rfl rfl)
      hg.refs hg.inv rfl hc
  · exact contained (.plain trivial)

end Calls

/-! ## Runs -/

/-- The kernel has accessed memory outside a buffer. -/
def outside : EStateM.Result Halt KState Int → Bool
  | .error (.outOfBounds _) _ => true
  | _ => false

/-- A state the kernel may come to by calls that meet the condition `P`.  After an
access outside a buffer that is any state. -/
inductive Possible (P : Fin PROCS_MAX → Syscall → KState → Prop) (d0 d1 : Device) :
    KState → Prop where
  | boot {u : Unit} {s : KState} (run : boot (coldState d0 d1) = .ok u s) : Possible P d0 d1 s
  | step {p : Fin PROCS_MAX} {c : Syscall} {r : Int} {s s' : KState} (before : Possible P d0 d1 s)
      (cond : P p c s) (run : step p c s = .ok r s') : Possible P d0 d1 s'
  | astray {p : Fin PROCS_MAX} {c : Syscall} {s s' : KState} (before : Possible P d0 d1 s)
      (cond : P p c s) (run : outside (step p c s) = true) : Possible P d0 d1 s'

/-- The conditions under which the kernel stays inside its buffers. -/
def InBounds (L : Layout) (p : Fin PROCS_MAX) (c : Syscall) (s : KState) : Prop :=
  Orderly L p c s ∧ ShortCwd p c s

/-- Nothing has been written to device 0. -/
structure Untouched (d0 : Device) (s : KState) : Prop where
  writes : ∀ w ∈ s.writes, w.dev ≠ 0
  disk : s.disk 0 = d0

theorem Untouched.safe {s' : KState} (h : Untouched d0 s) (hs : Safe s s') : Untouched d0 s' where
  writes w hw := by
    obtain ⟨ws, hws, hdev⟩ := hs.writes
    rw [hws] at hw
    exact (List.mem_append.mp hw).elim (h.writes w) (hdev w)
  disk := hs.disk.trans h.disk

section Runs

variable {d1 : Device} {P : Fin PROCS_MAX → Syscall → KState → Prop}

/-- Runs that never leave a buffer are those of the model. -/
theorem Possible.reached
    (hP : ∀ {p c s}, Reached P d0 d1 s → P p c s → outside (Dmaos.step p c s) = false)
    (h : Possible P d0 d1 s) : Reached P d0 d1 s := by
  induction h with
  | boot run => exact .boot run
  | step before cond run ih => exact .step ih cond run
  | astray before cond run ih => exact absurd run (by rw [hP ih cond]; exact Bool.false_ne_true)

section Contained

variable (h0 : d0.super.nblocks ≤ 8 * BSIZE) (h1 : d1.super.nblocks ≤ 8 * BSIZE)
  (himg : d1.Consistent L)

include h0 h1 himg

theorem Reached.inside (hP : ∀ {p c s}, P p c s → InBounds L p c s) (h : Reached P d0 d1 s)
    (hc : InBounds L p c s) : outside (Dmaos.step p c s) = false := by
  obtain ⟨-, S, hd⟩ := Reached.disk himg (h.mono fun _ _ _ hp => (hP hp).1)
  cases hx : Dmaos.step p c s with
  | ok r t => rfl
  | error e t =>
      have hin := step_contained hd h.guard hc.2 e t hx
      cases e with
      | outOfBounds i =>
          -- The superblocks are those of the images.
          obtain ⟨dev, hlt⟩ := hin i rfl
          have hsb : t.sb = (loadedState d0 d1).sb := by
            have hsame : Stays (SameSystem s) (Dmaos.step p c) s :=
              (Serves.step .anySyscall s h.sameSystem.1).1
            rw [Stays, hx] at hsame
            exact hsame.sb.trans h.sameSystem.2.sb
          rw [hsb] at hlt
          refine absurd hlt (Nat.not_lt.mpr ?_)
          unfold loadedState
          simp only [Function.update_apply]
          split_ifs
          · exact h1
          · exact h0
          · exact Nat.zero_le _
      | _ => rfl

end Contained

end Runs

end Dmaos
