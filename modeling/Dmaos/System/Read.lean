import Dmaos.Handle.Steady
import Dmaos.System.Descriptor

/-!
# Reading through a descriptor

In every state that is reached, the slot of an open file has been read from its
device, so that `fs_read` changes nothing but the offset of the descriptor.

`readi` takes an offset after the end of the file for an error.  `fs_lseek` lets
the offset go there, and `fs_ftruncate` through another descriptor lets it stay
there: `fs_read` then returns -1, and not 0 as at the end of the file
(`read_follows_iff`).
-/

namespace Dmaos

open Fault Function KState

variable {s s' : KState} {f : Fin GLOBAL_OPEN_FILE_LIMIT} {L : Nat → Layout} {d0 d1 : Device}
  {p : Fin PROCS_MAX} {i : Fin NUM_FILES_PER_PROCESS} {ip : Fin NINODE} {n : Nat} {S : Nat → Prop}

/-! ## The slots of open files -/

/-- The slots of the open files have been read. -/
def FilesRead (s : KState) : Prop :=
  ∀ f ip, (s.fileTable f).ip = some ip → (s.inodeTable ip).valid = true

section FilesRead

theorem FilesRead.of_stable (h : FilesRead s) (ht : Tables s s') (hs : Stable [] s s') :
    FilesRead s' := by
  intro f ip hf
  rw [ht.fileTable] at hf
  exact (hs ip (refsTo_pos_of_file hf)).valid (h f ip hf)

theorem FilesRead.nets {α : Type} {x : Kern α} {q : α → List (Fin NINODE)}
    {l : List (Fin NINODE)} {a : α} (hx : Nets [] x q) (he : Within Still x) (hr : Refs l s)
    (h : FilesRead s) (ha : x s = .ok a s') : FilesRead s' := by
  have hr' : Refs (l ++ []) s := by rwa [List.append_nil]
  exact h.of_stable (he.of_ok ha).toTables (hx.refs hr'.sub ha).2

theorem FilesRead.putFile {F : File} (h : FilesRead s)
    (hF : ∀ ip, F.ip = some ip → (s.inodeTable ip).valid = true) : FilesRead (s.putFile f F) := by
  intro g ip hg
  by_cases hgf : g = f
  · subst hgf
    simp only [putFile, update_self] at hg
    exact hF ip hg
  · simp only [KState.putFile, update_of_ne hgf] at hg
    exact h g ip hg

end FilesRead

/-- The slots of the open files have been read, and no file on device 0 is open for
writing. -/
def filesRead : Policy where
  Inv s := Writable s ∧ FilesRead s
  Rel := Safe
  unwritten h := h.safe
  putFile f _ h hip := by
    refine ⟨readOnly.putFile f h.1 hip, h.2.putFile fun ip hF => ?_⟩
    rcases hip with hip | ⟨hip, -⟩
    · rw [hip] at hF
      cases hF
    · exact h.2 f ip (by rw [← hip, hF])
  putIp f _ h hip hv hdev := by
    refine ⟨readOnly.putIp f h.1 hip hv hdev, h.2.putFile fun ip hF => ?_⟩
    rw [hip] at hF
    cases hF
    exact hv
  putProc p Q h := ⟨readOnly.putProc p Q h.1, h.2⟩
  setCurrent c h := ⟨readOnly.setCurrent c h.1, h.2⟩
  calm h hc := ⟨readOnly.calm h.1 hc,
    h.2.of_stable hc.toTables fun i _ => ⟨hc.dev i, hc.inum i, hc.valid⟩⟩
  iput h hx := ⟨readOnly.iput h.1 hx,
    h.2.of_stable (Idle.iput.of_ok hx).toTables fun i _ => iput_kept hx i⟩
  iget hr h hk hx := ⟨readOnly.iget hr h.1 hk hx, h.2.nets .iget .iget hr hx⟩
  namex hr h hx := ⟨readOnly.namex hr h.1 hx, h.2.nets .namex .namex hr hx⟩

instance : Shield filesRead where
  writable h := h.1
  rel hd h := h.safe hd
  inv hd h ho hs := ⟨Shield.inv (P := readOnly) hd h.1 ho hs, h.2.of_stable ho.toTables hs⟩

/-! ## Runs -/

/-- A consistent image on a device with all the blocks of its layout. -/
structure Device.Whole (L : Layout) (d : Device) : Prop extends d.Consistent L where
  inode : ∀ {n : Nat}, n < L.ninodes → iblock d.super n < d.capacity
  data : ∀ {b : Nat}, L.IsData b → b < d.capacity

section Runs

variable {P : Fin PROCS_MAX → Syscall → KState → Prop}

theorem Reached.filesRead (h : Reached P d0 d1 s) : FilesRead s := by
  have hg : Guard Dmaos.filesRead [] s := by
    induction h with
    | boot run =>
        have h0 : Dmaos.filesRead.Inv (loadedState d0 d1) :=
          ⟨fun f ip hf => (by cases hf), fun f ip hf => (by cases hf)⟩
        exact (boot_guard h0 (fun h _ => h) run).1
    | step before cond run ih => exact ((Serves.step .anySyscall _ ih).of_ok run).2
  exact hg.inv.2

theorem Reached.capacity (h : Reached P d0 d1 s) (d : Nat) :
    (s.disk d).capacity = ((coldState d0 d1).disk d).capacity := by
  induction h with
  | boot run => exact boot_capacity run d
  | @step p c r s s' before cond run ih =>
      rw [step_eq (step_runnable run)] at run
      rw [← ih]
      exact (Sized.of_ok .handleSyscall run).capacity d

/-- The slot of an open file has a reference. -/
theorem Opened.ref_pos (ho : Opened s p i f ip)
    (h : Reached P d0 d1 s) : 0 < (s.inodeTable ip).ref :=
  lt_of_lt_of_le (refsTo_pos_of_file ho.ip_eq) (h.guard.refs ip)

/-- What reading a file in use needs holds of the slots on both devices. -/
structure Readable (L : Layout) (S : Nat → Prop) (dev n : Nat) (s : KState) : Prop extends
    Sound L S dev s where
  online : Online L dev s
  lt : n < L.ninodes
  mem : S n
  shaped : (s.vol L dev).Shaped n

/-- Device 0 is as it was at boot. -/
theorem Reached.readable_system (h0 : d0.Whole (L 0)) (h1 : d1.Consistent (L 1))
    (h : Reached (Orderly (L 1)) d0 d1 s) (hn : ((s.vol (L 0) 0).ino n).type ≠ FT_UNUSED) :
    Readable (L 0) (InUse (d0.vol (L 0))) 0 n s := by
  obtain ⟨hstale, hdisk, hsb⟩ := h.system
  obtain ⟨-, S, hd⟩ := h.disk h1
  have hvol : s.vol (L 0) 0 = d0.vol (L 0) := by
    unfold vol blk
    rw [hdisk, hsb]
    rfl
  rw [hvol] at hn
  have hmem : InUse (d0.vol (L 0)) n := by
    unfold InUse inUse
    exact bne_iff_ne.mpr hn
  have hfits : (L 0).Fits (s.sb 0) := by rw [hsb]; exact h0.fits
  exact {
    fits := hfits
    uniq := hd.uniq
    coh := fun {i} hr hv hdev hlt => by
      rw [hstale i hr hv hdev, hfits.fetched_view hdev hlt]
    own := by rw [hvol]; exact h0.wf.own
    reserved := by rw [hvol, hsb]; exact h0.reserved
    online := {
      dev_lt := by decide
      inode := fun hlt => by rw [hdisk, hsb]; exact h0.inode hlt
      data := fun hb => by rw [hdisk]; exact h0.data hb }
    lt := h0.wf.lt hmem
    mem := hmem
    shaped := by rw [hvol]; exact h0.wf.shaped hmem }

theorem Reached.readable_home (h1 : d1.Whole (L 1))
    (h : Reached (Orderly (L 1)) d0 d1 s) (hip : Holds 1 n ip s) : ∃ S, Readable (L 1) S 1 n s := by
  obtain ⟨hsb, S, hd⟩ := h.disk h1.toConsistent
  have hS := (hd.held hip).1
  have hcap : (s.disk 1).capacity = d1.capacity := h.capacity 1
  exact ⟨S, {
    hd.sound with
    online := {
      dev_lt := by decide
      inode := fun hlt => by rw [hcap, hsb]; exact h1.inode hlt
      data := fun hb => by rw [hcap]; exact h1.data hb }
    lt := hd.wf.lt hS
    mem := hS
    shaped := hd.wf.shaped hS }⟩

end Runs

/-! ## `fs_read` -/

section Read

variable {off len : Nat}

/-- `readi` on a slot that has been read leaves the state as it is. -/
theorem readi_state {r : Int × List Byte} (hr : 0 < (s.inodeTable ip).ref)
    (hv : (s.inodeTable ip).valid = true) (hx : readi ip off len s = .ok r s') : s' = s := by
  unfold readi at hx
  rw [run_bind (ilock_of_valid hr hv)] at hx
  refine Confined.of_ok (R := fun s s' : KState => s' = s) (E := fun _ _ => True) ?_ hx
  exact .bind .inodeAt fun _ =>
    .ite .pure (.ite .pure (.bind .readiLoop fun _ => .pure))

/-- `readi` returns, and what it returns is told by the volume. -/
theorem Readable.readi {L : Layout} {dev : Nat} (h : Readable L S dev n s)
    (off len : Nat) (hh : Holds dev n ip s) (hv : (s.inodeTable ip).valid = true)
    (hlen : len < 2 ^ 31) (ht : ((s.vol L dev).ino n).type ≠ FT_UNUSED) :
    Dmaos.readi ip off len s = .ok
      (if off ≤ ((s.vol L dev).ino n).size then
        (((min len (((s.vol L dev).ino n).size - off) : Nat) : Int),
          (((s.vol L dev).content n).drop off).take len)
      else (-1, [])) s := by
  have hret : Returns (Dmaos.readi ip off len) s :=
    readi_returns h.toSound hh h.online h.lt h.mem h.shaped.covered
  obtain ⟨r, s', hx⟩ := hret.exists_ok
  obtain ⟨-, -, -, hr⟩ := readi_ok h.toSound hh.dev_eq hh.inum_eq h.lt h.mem (by omega) hx
  rw [hx, hr, readi_state hh.ref hv hx]
  have hsize := h.shaped.size_le
  rw [show maxSize = 67383296 from rfl] at hsize
  congr 1
  exact if_congr ⟨fun hc => hc.2.1, fun hc => ⟨ht, hc, by omega⟩⟩ rfl rfl

/-- `fs_read` through a readable descriptor is `readi` at the offset. -/
theorem Opened.fsRead {n : Int} (h : Opened s p i f ip) (hp : s.current = some p)
    (hr : (s.fileTable f).readable = true) :
    fsRead (i : Nat) n s = (do
      let (r, bytes) ← Dmaos.readi ip (s.fileTable f).off (toU32 n)
      if 0 < r then
        modify fun s => s.putFile f
          { s.fileTable f with off := ((s.fileTable f).off + r.toNat) % 2 ^ 32 }
        return (r, bytes)
      else return (r, bytes) : Kern (Int × List Byte)) s := by
  unfold Dmaos.fsRead
  rw [run_bind (h.fdFile hp)]
  dsimp only
  rw [run_bind (get_ok.mpr ⟨rfl, rfl⟩)]
  simp [hr, h.type, h.ip_eq]

theorem KState.putFile_self : s.putFile f (s.fileTable f) = s := by
  unfold putFile
  rw [update_eq_self]

/-- What `fs_read` returns is what `readi` returns, and the offset moves by it. -/
theorem Opened.fsRead_ok {n r : Int} {bytes : List Byte} (h : Opened s p i f ip)
    (hp : s.current = some p) (hr : (s.fileTable f).readable = true)
    (hx : Dmaos.readi ip (s.fileTable f).off (toU32 n) s = .ok (r, bytes) s)
    (hlt : 0 < r → (s.fileTable f).off + r.toNat < 2 ^ 32) :
    Dmaos.fsRead (i : Nat) n s = .ok (r, bytes)
      (s.putFile f { s.fileTable f with off := (s.fileTable f).off + r.toNat }) := by
  rw [h.fsRead hp hr, run_bind hx]
  dsimp only
  by_cases hpos : 0 < r
  · rw [if_pos hpos, run_bind (modify_ok (u := ()).mpr rfl), Nat.mod_eq_of_lt (hlt hpos)]
    rfl
  · rw [if_neg hpos, Int.toNat_of_nonpos (by omega), Nat.add_zero]
    exact congrArg (EStateM.Result.ok _) putFile_self.symm

/-- `fs_read` of `n` bytes through descriptor `i` of process `p` follows the file:
it returns the number `k` of bytes from the offset up to the end, or `n`, stores these
bytes, and moves the offset by `k`. -/
def Follows (L : Layout) (p : Fin PROCS_MAX) (i : Fin NUM_FILES_PER_PROCESS)
    (f : Fin GLOBAL_OPEN_FILE_LIMIT) (ip : Fin NINODE) (n : Nat) (s : KState) : Prop :=
  let t := { s with current := some p }
  let V := s.vol L (s.inodeTable ip).dev
  let off := (s.fileTable f).off
  let k := min n ((V.ino (s.inodeTable ip).inum).size - off)
  fsRead (i : Nat) n t = .ok ((k : Int), ((V.content (s.inodeTable ip).inum).drop off).take k)
    (t.putFile f { t.fileTable f with off := off + k })

theorem Readable.follows_iff {L : Layout}
    (h : Readable L S (s.inodeTable ip).dev (s.inodeTable ip).inum s)
    (ho : Opened s p i f ip) (hpos : 0 < (s.inodeTable ip).ref)
    (hv : (s.inodeTable ip).valid = true) (hr : (s.fileTable f).readable = true)
    (ht : ((s.vol L (s.inodeTable ip).dev).ino (s.inodeTable ip).inum).type ≠ FT_UNUSED)
    (hn : n < 2 ^ 31) :
    Follows L p i f ip n s ↔ (s.fileTable f).off ≤
      ((s.vol L (s.inodeTable ip).dev).ino (s.inodeTable ip).inum).size := by
  have ho' : Opened { s with current := some p } p i f ip := ⟨ho.fd, ho.type, ho.ip_eq⟩
  have hmod : toU32 n = n := by
    unfold toU32
    omega
  have hsize := h.shaped.size_le
  rw [show maxSize = 67383296 from rfl] at hsize
  have h' : Readable L S (s.inodeTable ip).dev (s.inodeTable ip).inum
      { s with current := some p } :=
    ⟨⟨⟨h.fits, h.uniq, h.coh⟩, h.own, h.reserved⟩, h.online.congr rfl rfl, h.lt, h.mem, h.shaped⟩
  have hread := h'.readi (s.fileTable f).off n ⟨hpos, rfl, rfl⟩ hv hn ht
  rw [← hmod, show ({ s with current := some p } : KState).vol L _ = s.vol L _ from rfl] at hread
  by_cases hoff : (s.fileTable f).off ≤
      ((s.vol L (s.inodeTable ip).dev).ino (s.inodeTable ip).inum).size
  · refine iff_of_true ?_ hoff
    rw [if_pos hoff] at hread
    unfold Follows
    dsimp only
    rw [ho'.fsRead_ok rfl hr hread (fun _ => by simp only [Int.toNat_natCast]; omega), hmod,
      Int.toNat_natCast, List.take_eq_take_min, List.length_drop, Vol.length_content]
  · refine iff_of_false (fun hf => ?_) hoff
    rw [if_neg hoff] at hread
    unfold Follows at hf
    dsimp only at hf
    rw [ho'.fsRead_ok rfl hr hread (fun hneg => absurd hneg (by decide))] at hf
    injection hf with hf
    injection hf with hf
    omega

/-- In every state reached, `fs_read` through a readable descriptor of a regular file
follows the file if and only if the offset is not after the end of the file. -/
theorem read_follows_iff (h0 : d0.Whole (L 0))
    (h1 : d1.Whole (L 1)) (h : Reached (Orderly (L 1)) d0 d1 s) (ho : Opened s p i f ip)
    (hr : (s.fileTable f).readable = true)
    (ht : ((s.vol (L (s.inodeTable ip).dev) (s.inodeTable ip).dev).ino
      (s.inodeTable ip).inum).type = FT_FILE) (hn : n < 2 ^ 31) :
    Follows (L (s.inodeTable ip).dev) p i f ip n s ↔ (s.fileTable f).off ≤
      ((s.vol (L (s.inodeTable ip).dev) (s.inodeTable ip).dev).ino
        (s.inodeTable ip).inum).size := by
  have hpos := ho.ref_pos h
  have hv := h.filesRead f ip ho.ip_eq
  have htype : ((s.vol (L (s.inodeTable ip).dev) (s.inodeTable ip).dev).ino
      (s.inodeTable ip).inum).type ≠ FT_UNUSED := by
    rw [ht]
    decide
  obtain ⟨S, hR⟩ : ∃ S, Readable (L (s.inodeTable ip).dev) S (s.inodeTable ip).dev
      (s.inodeTable ip).inum s := by
    obtain ⟨-, S, hd⟩ := h.disk h1.toConsistent
    rcases hd.known hpos with hdev | ⟨hdev, -⟩
    · rw [hdev] at htype ⊢
      exact ⟨_, h.readable_system h0 h1.toConsistent htype⟩
    · rw [hdev]
      exact h.readable_home h1 ⟨hpos, hdev, rfl⟩
  exact hR.follows_iff ho hpos hv hr htype hn

end Read

theorem formatted_whole {dirs : List (List (Nat × List Byte))}
    (h : (formatted dirs).Consistent formattedLayout) : (formatted dirs).Whole formattedLayout :=
  ⟨h, formatted_iblock_lt, fun hb => hb.2⟩

/-- A file of 5 bytes is read from its third byte on. -/
theorem read_follows_iff_middle :
    ∃ s, Reached (Orderly formattedLayout) systemDisk emptyDisk s ∧ (s.fileTable 3).off = 2 ∧
      ((s.vol formattedLayout 1).ino 2).size = 5 ∧ Follows formattedLayout 1 3 3 2 10 s := by
  have hrun : (playFrom (WritesFiles formattedLayout) systemDisk emptyDisk
      [(1, .open pathA (FILECTRL_READONLY ||| FILECTRL_WRITEONLY ||| FILECTRL_CREATE)),
        (1, .write 3 (fun i => if i < 3 then 1 else 2) 5), (1, .lseek 3 2 0)]).any (fun s =>
      decide (Opened s 1 3 3 2 ∧ (s.fileTable 3).readable = true ∧ (s.inodeTable 2).dev = 1 ∧
        (s.inodeTable 2).inum = 2 ∧ ((s.vol formattedLayout 1).ino 2).type = FT_FILE ∧
        ((s.vol formattedLayout 1).ino 2).size = 5 ∧ (s.fileTable 3).off = 2)) = true := by
    decide +kernel
  obtain ⟨s, hs, hQ⟩ := Reached.of_playFrom hrun
  obtain ⟨ho, hr, hdev, hn, htype, hsize, hoff⟩ := of_decide_eq_true hQ
  have hs' := hs.orderly rfl
  have h := read_follows_iff (L := fun _ => formattedLayout) (n := 10)
    (formatted_whole systemDisk_consistent) (formatted_whole emptyDisk_consistent) hs' ho hr
    (by rw [hdev, hn, htype]) (by decide)
  rw [hdev, hn, hsize, hoff] at h
  exact ⟨s, hs', hoff, hsize, h.mpr (by decide)⟩

/-- The offset of a descriptor of an empty file is set to 1: `read` returns -1. -/
theorem read_past_end :
    systemDisk.Whole formattedLayout ∧ emptyDisk.Whole formattedLayout ∧
      ∃ s s', Reached (Orderly formattedLayout) systemDisk emptyDisk s ∧ Opened s 1 3 3 2 ∧
        (s.fileTable 3).readable = true ∧ (s.inodeTable 2).dev = 1 ∧ (s.inodeTable 2).inum = 2 ∧
        ((s.vol formattedLayout 1).ino 2).type = FT_FILE ∧
        step 1 (.read 3 1) s = .ok (-1) s' ∧ ¬ Follows formattedLayout 1 3 3 2 1 s := by
  refine ⟨formatted_whole systemDisk_consistent, formatted_whole emptyDisk_consistent, ?_⟩
  have hrun : (playFrom (WritesFiles formattedLayout) systemDisk emptyDisk
      [(1, .open pathA (FILECTRL_READONLY ||| FILECTRL_WRITEONLY ||| FILECTRL_CREATE)),
        (1, .lseek 3 1 0)]).any (fun s =>
      decide (Opened s 1 3 3 2 ∧ (s.fileTable 3).readable = true ∧ (s.inodeTable 2).dev = 1 ∧
        (s.inodeTable 2).inum = 2 ∧ ((s.vol formattedLayout 1).ino 2).type = FT_FILE) &&
      answers 1 (.read 3 1) (fun r _ => r == -1) s) = true := by
    decide +kernel
  obtain ⟨s, hs, hQ⟩ := Reached.of_playFrom hrun
  rw [Bool.and_eq_true, decide_eq_true_eq] at hQ
  obtain ⟨⟨ho, hr, hdev, hn, htype⟩, hret⟩ := hQ
  obtain ⟨r, s', hx, hr'⟩ := exists_ok_of_answers hret
  obtain rfl := beq_iff_eq.mp hr'
  refine ⟨s, s', hs.orderly rfl, ho, hr, hdev, hn, htype, hx, fun hf => ?_⟩
  -- `read` would return the number of bytes read.
  obtain ⟨-, hx⟩ := ho.step hx
  unfold Follows at hf
  change (do let (r, _) ← fsRead ((3 : Fin NUM_FILES_PER_PROCESS) : Nat) (1 : Nat)
             return r : Kern Int) _ = _ at hx
  rw [run_bind hf] at hx
  obtain ⟨hk, -⟩ := pure_ok.mp hx
  omega

end Dmaos
