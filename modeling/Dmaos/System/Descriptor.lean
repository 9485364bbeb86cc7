import Dmaos.System.Coherence
import Dmaos.System.References

/-!
# Calls on a descriptor

A descriptor leads to an entry of the file table, and that to a slot of the inode
cache.  What `fs_write` and `fs_ftruncate` do to the bytes of the file is what
`writei` and `itrunc` do.

`itrunc` leaves a file alone that is no longer than the size asked for, and
`fs_ftruncate` returns 0 then, too: the file does not grow (`ftruncate_sets_iff`).
The offset of a descriptor is set to the end of the file when it is opened with
`FILECTRL_APPEND`, and not again: bytes another descriptor has appended in the
meantime are overwritten (`append_overwrites`).
-/

namespace Dmaos

open Fault

variable {L : Layout} {p : Fin PROCS_MAX} {n r : Int} {buf : Buf} {s s' : KState} {d0 d1 : Device}
  {S : Nat → Prop} {i : Fin NUM_FILES_PER_PROCESS} {f : Fin GLOBAL_OPEN_FILE_LIMIT}
  {ip : Fin NINODE} {c : Syscall}

/-- Descriptor `i` of process `p` refers to entry `f` of the file table, which is
open on the inode of slot `ip`. -/
structure Opened (s : KState) (p : Fin PROCS_MAX) (i : Fin NUM_FILES_PER_PROCESS)
    (f : Fin GLOBAL_OPEN_FILE_LIMIT) (ip : Fin NINODE) : Prop where
  fd : (s.procs p).ofile i = some f
  type : (s.fileTable f).type = .inode
  ip_eq : (s.fileTable f).ip = some ip

instance (s : KState) (p : Fin PROCS_MAX) (i : Fin NUM_FILES_PER_PROCESS)
    (f : Fin GLOBAL_OPEN_FILE_LIMIT) (ip : Fin NINODE) : Decidable (Opened s p i f ip) :=
  decidable_of_iff ((s.procs p).ofile i = some f ∧ (s.fileTable f).type = .inode ∧
    (s.fileTable f).ip = some ip) ⟨fun h => ⟨h.1, h.2.1, h.2.2⟩, fun h => ⟨h.1, h.2, h.3⟩⟩

/-- The calls keep device 1 in order: none writes to a directory through a
descriptor, and one that may create finds an inode in the inode table. -/
structure Orderly (L : Layout) (p : Fin PROCS_MAX) (c : Syscall) (s : KState) : Prop where
  writes : WritesFiles L p c s
  room : c.MayCreate → Room L s

theorem Orderly.write {fd : Int}
    (h : WritesFiles L p (.write fd buf n) s) : Orderly L p (.write fd buf n) s :=
  ⟨h, fun hc => hc.elim⟩

section Runs

theorem Reached.disk (himg : d1.Consistent L) (h : Reached (Orderly L) d0 d1 s) :
    s.sb 1 = d1.super ∧ ∃ S, Disk L S s := by
  obtain ⟨hsb, S, hd, -⟩ := h.invariant (J := fun _ _ => True) himg
    (fun hP _ => ⟨hP.room, hP.writes⟩) trivial fun _ _ _ _ _ => trivial
  exact ⟨hsb, S, hd⟩

theorem Reached.orderly (hn : d1.super.ninodes = L.ninodes) (h : Reached (WritesFiles L) d0 d1 s) :
    Reached (Orderly L) d0 d1 s :=
  (h.room hn.le).mono fun _ _ _ hP => ⟨hP.1, hP.2⟩

end Runs

section Calls

variable {length : Int}

theorem Opened.fdFile (h : Opened s p i f ip) (hp : s.current = some p) :
    fdFile (i : Nat) s = .ok (some (p, i, f)) s := by
  have hi : (0 : Int) ≤ (i : Nat) ∧ ((i : Nat) : Int) < NUM_FILES_PER_PROCESS := by
    have := i.isLt
    omega
  unfold Dmaos.fdFile
  rw [run_bind (currentProcess_run hp), run_bind (get_ok.mpr ⟨rfl, rfl⟩), dif_pos hi]
  have he : (⟨((i : Nat) : Int).toNat, by omega⟩ : Fin NUM_FILES_PER_PROCESS) = i :=
    Fin.ext (Int.toNat_natCast _)
  simp only [he, h.fd, Option.map_some]
  rfl

/-- `fs_ftruncate` through a writable descriptor is `itrunc`. -/
theorem Opened.fsFtruncate (h : Opened s p i f ip) (hp : s.current = some p)
    (hw : (s.fileTable f).writable = true) (hlen : 0 ≤ length) :
    fsFtruncate (i : Nat) length s = (do itrunc ip (toU32 length); return 0 : Kern Int) s := by
  unfold Dmaos.fsFtruncate
  rw [run_bind (h.fdFile hp)]
  dsimp only
  rw [run_bind (get_ok.mpr ⟨rfl, rfl⟩)]
  simp [hw, h.type, h.ip_eq, hlen.not_gt]

/-- `fs_write` through a writable descriptor is `writei` at the offset. -/
theorem Opened.fsWrite (h : Opened s p i f ip) (hp : s.current = some p)
    (hw : (s.fileTable f).writable = true) :
    fsWrite (i : Nat) buf n s = (do
      let w ← writei ip buf (s.fileTable f).off (toU32 n)
      if 0 < w then
        modify fun s => s.putFile f
          { s.fileTable f with off := ((s.fileTable f).off + w.toNat) % 2 ^ 32 }
        return w
      else if w < 0 then return ERR_NO_SPACE
      else return w : Kern Int) s := by
  unfold Dmaos.fsWrite
  rw [run_bind (h.fdFile hp)]
  dsimp only
  rw [run_bind (get_ok.mpr ⟨rfl, rfl⟩)]
  simp [hw, h.type, h.ip_eq]

/-- The call behind a step, on the state in which `p` is the current process. -/
theorem Opened.step (h : Opened s p i f ip) (hx : step p c s = .ok r s') :
    Opened { s with current := some p } p i f ip ∧
      handleSyscall c { s with current := some p } = .ok r s' := by
  rw [step_eq (step_runnable hx)] at hx
  exact ⟨⟨h.fd, h.type, h.ip_eq⟩, hx⟩

end Calls

/-! ## `ftruncate` -/

/-- File `n` has been given the length `length`: the bytes up to there are as
before, and those after its old end are zero. -/
def SetsLength (n length : Nat) (V V' : Vol) : Prop :=
  (V'.ino n).size = length ∧
    V'.content n = (V.content n).take length ++ List.replicate (length - (V.ino n).size) 0

section Ftruncate

variable {n length : Nat}

theorem Cut.setsLength (h : Cut L S n length (s.vol L 1) (s'.vol L 1)) (hd : Disk L S s)
    (hS : S n) : SetsLength n length (s.vol L 1) (s'.vol L 1) := by
  have hlt := h.lt
  refine ⟨h.size_eq, ?_⟩
  rw [h.toTruncated.content hS (hd.wf.shaped hS).covered hlt h.size_eq,
    Nat.sub_eq_zero_of_le hlt.le, List.replicate_zero, List.append_nil]

/-- `itrunc` sets the length of a file unless it would have to grow. -/
theorem Disk.itrunc_sets_iff {u : Unit} (hd : Disk L S s) (h1 : (s.inodeTable ip).dev = 1)
    (hn : (s.inodeTable ip).inum = n) (hx : Dmaos.itrunc ip length s = .ok u s') :
    SetsLength n length (s.vol L 1) (s'.vol L 1) ↔ length ≤ ((s.vol L 1).ino n).size := by
  obtain ⟨hS, -, -, ⟨hle, hvol⟩ | hcut⟩ := hd.itrunc h1 hn hx
  · rw [hvol]
    constructor
    · rintro ⟨hsize, -⟩
      omega
    · intro hge
      obtain rfl : length = ((s.vol L 1).ino n).size := by omega
      refine ⟨rfl, ?_⟩
      rw [Nat.sub_self, List.replicate_zero, List.append_nil, List.take_of_length_le (by simp)]
  · exact iff_of_true (hcut.setsLength hd hS) hcut.lt.le

/-- In every state reached, `ftruncate` through a writable descriptor sets the
length of the file if and only if the file is at least that long. -/
theorem ftruncate_sets_iff (himg : d1.Consistent L) (h : Reached (Orderly L) d0 d1 s)
    (ho : Opened s p i f ip) (hw : (s.fileTable f).writable = true)
    (hlen : length ≤ MAXFILE * BSIZE) (hx : step p (.ftruncate (i : Nat) length) s = .ok 0 s') :
    (s.inodeTable ip).dev = 1 ∧
      (SetsLength (s.inodeTable ip).inum length (s.vol L 1) (s'.vol L 1) ↔
        length ≤ ((s.vol L 1).ino (s.inodeTable ip).inum).size) := by
  obtain ⟨-, S, hd⟩ := h.disk himg
  have hd₁ : Disk L S { s with current := some p } := hd.tables rfl rfl rfl rfl
  obtain ⟨ho₁, hx⟩ := ho.step hx
  have hmod : toU32 length = length := by
    unfold toU32
    rw [show MAXFILE * BSIZE = 67383296 from rfl] at hlen
    omega
  change fsFtruncate _ _ _ = _ at hx
  rw [ho₁.fsFtruncate rfl hw (Int.natCast_nonneg _), hmod] at hx
  obtain ⟨u, t, htr, hr⟩ := bind_ok.mp hx
  obtain ⟨-, rfl⟩ := pure_ok.mp hr
  have hdev := hd₁.dev_eq (itrunc_pos htr) (h.guard.inv f ip ho.ip_eq hw)
  exact ⟨hdev, hd₁.itrunc_sets_iff hdev rfl htr⟩

end Ftruncate

/-- The call returns, and `Q` holds of its result and the state afterwards. -/
def answers (p : Fin PROCS_MAX) (c : Syscall) (Q : Int → KState → Bool) (s : KState) : Bool :=
  yields (step p c) Q s

theorem exists_ok_of_answers {Q : Int → KState → Bool} (h : answers p c Q s = true) :
    ∃ r s', step p c s = .ok r s' ∧ Q r s' = true :=
  exists_ok_of_yields h

/-- A file of 2000 bytes is cut to 100. -/
theorem ftruncate_sets_iff_shrink :
    ∃ s s', Reached (Orderly formattedLayout) systemDisk emptyDisk s ∧
      step 1 (.ftruncate 3 100) s = .ok 0 s' ∧
      SetsLength 2 100 (s.vol formattedLayout 1) (s'.vol formattedLayout 1) := by
  have hrun : (playFrom (WritesFiles formattedLayout) systemDisk emptyDisk
      [(1, .open pathA (FILECTRL_WRITEONLY ||| FILECTRL_CREATE)),
        (1, .write 3 (fun _ => 1) 2000)]).any (fun s =>
      decide (Opened s 1 3 3 2 ∧ (s.fileTable 3).writable = true ∧ (s.inodeTable 2).inum = 2 ∧
        ((s.vol formattedLayout 1).ino 2).size = 2000) &&
      answers 1 (.ftruncate 3 100) (fun r _ => r == 0) s) = true := by decide +kernel
  obtain ⟨s, hs, hQ⟩ := Reached.of_playFrom hrun
  rw [Bool.and_eq_true, decide_eq_true_eq] at hQ
  obtain ⟨⟨ho, hw, hn, hsize⟩, hret⟩ := hQ
  obtain ⟨r, s', hx, hr⟩ := exists_ok_of_answers hret
  obtain rfl := beq_iff_eq.mp hr
  have hs' := hs.orderly rfl
  have hmax : 100 ≤ MAXFILE * BSIZE := by decide
  have h := (ftruncate_sets_iff emptyDisk_consistent hs' ho hw hmax hx).2
  rw [hn, hsize] at h
  exact ⟨s, s', hs', hx, h.mpr (by decide)⟩

/-- An empty file is to become 5 bytes long: the call returns 0, and the file is
as before. -/
theorem ftruncate_not_set :
    emptyDisk.Consistent formattedLayout ∧
      ∃ s s', Reached (Orderly formattedLayout) systemDisk emptyDisk s ∧ Opened s 1 3 3 2 ∧
        (s.fileTable 3).writable = true ∧ (s.inodeTable 2).inum = 2 ∧
        ((s.vol formattedLayout 1).ino 2).type = FT_FILE ∧
        step 1 (.ftruncate 3 5) s = .ok 0 s' ∧ ((s'.vol formattedLayout 1).ino 2).size = 0 ∧
        ¬ SetsLength 2 5 (s.vol formattedLayout 1) (s'.vol formattedLayout 1) := by
  refine ⟨emptyDisk_consistent, ?_⟩
  have hrun : (playFrom (WritesFiles formattedLayout) systemDisk emptyDisk
      [(1, .open pathA (FILECTRL_WRITEONLY ||| FILECTRL_CREATE))]).any (fun s =>
      decide (Opened s 1 3 3 2 ∧ (s.fileTable 3).writable = true ∧ (s.inodeTable 2).inum = 2 ∧
        ((s.vol formattedLayout 1).ino 2).type = FT_FILE) &&
      answers 1 (.ftruncate 3 5)
        (fun r s' => r == 0 && ((s'.vol formattedLayout 1).ino 2).size == 0) s) = true := by
    decide +kernel
  obtain ⟨s, hs, hQ⟩ := Reached.of_playFrom hrun
  rw [Bool.and_eq_true, decide_eq_true_eq] at hQ
  obtain ⟨⟨ho, hw, hn, htype⟩, hret⟩ := hQ
  obtain ⟨r, s', hx, hr⟩ := exists_ok_of_answers hret
  rw [Bool.and_eq_true, beq_iff_eq, beq_iff_eq] at hr
  obtain ⟨rfl, hsize⟩ := hr
  refine ⟨s, s', hs.orderly rfl, ho, hw, hn, htype, hx, hsize, ?_⟩
  rintro ⟨h5, -⟩
  rw [hsize] at h5
  cases h5

/-! ## Appending -/

/-- A write through a descriptor: its offset and the size of the file before, and
the bytes. -/
structure Append where
  off : Nat
  size : Nat
  bytes : List Byte

/-- A run in which the file with inode `n` of device 1 changes only by writes
through descriptors, each of which succeeds; the writes in order. -/
inductive Appends (L : Layout) (n : Nat) : KState → List Append → KState → Prop where
  | nil {s : KState} : Appends L n s [] s
  | write {s t s' : KState} {p : Fin PROCS_MAX} {i : Fin NUM_FILES_PER_PROCESS}
      {f : Fin GLOBAL_OPEN_FILE_LIMIT} {ip : Fin NINODE} {buf : Buf} {len r : Int}
      {ws : List Append} (opened : Opened s p i f ip) (writable : (s.fileTable f).writable = true)
      (inum : (s.inodeTable ip).inum = n) (cond : Orderly L p (.write (i : Nat) buf len) s)
      (run : step p (.write (i : Nat) buf len) s = .ok r t) (success : 0 ≤ r)
      (rest : Appends L n t ws s') :
      Appends L n s
        (⟨(s.fileTable f).off, ((s.vol L 1).ino n).size, buf.slice 0 r.toNat⟩ :: ws) s'
  /-- Any other call, if it leaves the bytes of the file alone. -/
  | other {s t s' : KState} {p : Fin PROCS_MAX} {c : Syscall} {r : Int} {ws : List Append}
      (cond : Orderly L p c s) (run : step p c s = .ok r t)
      (same : (t.vol L 1).content n = (s.vol L 1).content n) (rest : Appends L n t ws s') :
      Appends L n s ws s'

section Appends

variable {n : Nat} {len : Int} {ws : List Append}

/-- A write that succeeds replaces the bytes at the offset of the descriptor. -/
theorem Opened.wrote (ho : Opened s p i f ip) (hd : Disk L S s) (hg : Writable s)
    (hw : (s.fileTable f).writable = true) (hn : (s.inodeTable ip).inum = n)
    (hx : Dmaos.step p (.write (i : Nat) buf len) s = .ok r s') (hr : 0 ≤ r) :
    S n ∧ Wrote L S n (s.fileTable f).off r.toNat buf (s.vol L 1) (s'.vol L 1) := by
  have hd₁ : Disk L S { s with current := some p } := hd.tables rfl rfl rfl rfl
  obtain ⟨ho₁, hx⟩ := ho.step hx
  change Dmaos.fsWrite _ _ _ _ = _ at hx
  rw [ho₁.fsWrite rfl hw] at hx
  obtain ⟨w, t, hwr, hx⟩ := bind_ok.mp hx
  have hdev := hd₁.dev_eq (writei_pos hwr) (hg f ip ho.ip_eq hw)
  obtain ⟨hS, -, ⟨rfl, -⟩ | ⟨rfl, hwrote⟩⟩ := hd₁.writei hdev hn hwr
  · -- A write outside the bounds of the file is an error.
    rw [if_neg (by decide), if_pos (by decide)] at hx
    obtain ⟨rfl, -⟩ := pure_ok.mp hx
    exact absurd hr (by decide)
  · split_ifs at hx with hpos hneg
    · replace hx := modify_then hx
      obtain ⟨rfl, rfl⟩ := pure_ok.mp hx
      exact ⟨hS, by rw [Int.toNat_natCast]; exact hwrote⟩
    · omega
    · obtain ⟨rfl, rfl⟩ := pure_ok.mp hx
      exact ⟨hS, by rw [Int.toNat_natCast]; exact hwrote⟩

/-- The bytes after a write at the end of the file, or of no bytes. -/
theorem Wrote.append {off k : Nat} {V V' : Vol} (h : Wrote L S n off k buf V V')
    (hs : V.Shaped n) (hend : buf.slice 0 k = [] ∨ off = (V.ino n).size) :
    V'.content n = V.content n ++ buf.slice 0 k := by
  rw [h.toWritten.content hs.covered h.off_le h.size]
  cases hend with
  | inl hnil =>
      have hk : k = 0 := by simpa [Buf.slice] using hnil
      rw [hnil, hk, List.append_nil, List.append_nil, Nat.add_zero, List.take_append_drop]
  | inr hoff =>
      rw [List.take_of_length_le (by simp [hoff]), List.drop_of_length_le (by simp [hoff]),
        List.append_nil]

/-- In a run of writes the file grows by no more than the bytes written, and by
as many only if each write is at the end of the file. -/
theorem Appends.length_le (himg : d1.Consistent L) (hs : Reached (Orderly L) d0 d1 s)
    (h : Appends L n s ws s') :
    ((s'.vol L 1).content n).length ≤
        ((s.vol L 1).content n).length + (ws.flatMap Append.bytes).length ∧
      (((s'.vol L 1).content n).length =
          ((s.vol L 1).content n).length + (ws.flatMap Append.bytes).length →
        ∀ w ∈ ws, w.bytes = [] ∨ w.off = w.size) := by
  induction h with
  | nil => simp
  | @write s t s' p i f ip buf len r ws opened writable inum cond run success rest ih =>
      obtain ⟨hle, heq⟩ := ih (hs.step cond run)
      obtain ⟨-, S, hd⟩ := hs.disk himg
      obtain ⟨-, hwrote⟩ := opened.wrote hd hs.guard.inv writable inum run success
      have hoff := hwrote.off_le
      have hsize := hwrote.size
      have hlen : (buf.slice 0 r.toNat).length = r.toNat := by simp [Buf.slice]
      simp only [Vol.length_content, List.flatMap_cons, List.length_append, hlen] at hle heq ⊢
      refine ⟨by omega, fun htotal w hw => ?_⟩
      cases hw with
      | head =>
          rw [← List.length_eq_zero_iff, hlen]
          dsimp only
          omega
      | tail _ hw => exact heq (by omega) w hw
  | other cond run same rest ih =>
      rw [← same]
      exact ih (hs.step cond run)

theorem Appends.content_eq (himg : d1.Consistent L) (hs : Reached (Orderly L) d0 d1 s)
    (h : Appends L n s ws s') (hend : ∀ w ∈ ws, w.bytes = [] ∨ w.off = w.size) :
    (s'.vol L 1).content n = (s.vol L 1).content n ++ ws.flatMap Append.bytes := by
  induction h with
  | nil => simp
  | write opened writable inum cond run success rest ih =>
      rw [List.forall_mem_cons] at hend
      obtain ⟨-, S, hd⟩ := hs.disk himg
      obtain ⟨hS, hwrote⟩ := opened.wrote hd hs.guard.inv writable inum run success
      rw [ih (hs.step cond run) hend.2, hwrote.append (hd.wf.shaped hS) hend.1, List.flatMap_cons,
        List.append_assoc]
  | other cond run same rest ih =>
      rw [← same]
      exact ih (hs.step cond run) hend

/-- In every run, the writes through descriptors of a file append to it in order
if and only if each of them finds the offset of its descriptor at the end of the
file. -/
theorem appends_iff (himg : d1.Consistent L) (hs : Reached (Orderly L) d0 d1 s)
    (h : Appends L n s ws s') :
    (s'.vol L 1).content n = (s.vol L 1).content n ++ ws.flatMap Append.bytes ↔
      ∀ w ∈ ws, w.bytes = [] ∨ w.off = w.size := by
  constructor
  · intro heq
    exact (h.length_le himg hs).2 (by rw [heq, List.length_append])
  · exact h.content_eq himg hs

end Appends

/-- Process `p` writes through descriptor `i` to inode 2, and `Q` holds afterwards. -/
def writesNext (p : Fin PROCS_MAX) (ip : Fin NINODE) (i : Fin NUM_FILES_PER_PROCESS)
    (f : Fin GLOBAL_OPEN_FILE_LIMIT) (w : Append) (Q : KState → Bool) (s : KState) : Bool :=
  decide (Opened s p i f ip ∧ (s.fileTable f).writable = true ∧ (s.inodeTable ip).inum = 2 ∧
    (s.fileTable f).off = w.off ∧ ((s.vol formattedLayout 1).ino 2).size = w.size ∧
    WritesFiles formattedLayout p (.write i (Buf.ofList w.bytes) w.bytes.length) s) &&
  answers p (.write i (Buf.ofList w.bytes) w.bytes.length)
    (fun r t => r == w.bytes.length && Q t) s

theorem Appends.of_writesNext {i : Fin NUM_FILES_PER_PROCESS} {f : Fin GLOBAL_OPEN_FILE_LIMIT}
    {w : Append} {Q : KState → Bool} (h : writesNext p ip i f w Q s = true) :
    ∃ t, Q t = true ∧ ∀ {ws s'}, Appends formattedLayout 2 t ws s' →
      Appends formattedLayout 2 s (w :: ws) s' := by
  rw [writesNext, Bool.and_eq_true, decide_eq_true_eq] at h
  obtain ⟨⟨ho, hw, hn, hoff, hsize, hcond⟩, hret⟩ := h
  obtain ⟨r, t, hx, hr⟩ := exists_ok_of_answers hret
  rw [Bool.and_eq_true, beq_iff_eq] at hr
  obtain ⟨rfl, hQ⟩ := hr
  refine ⟨t, hQ, fun {ws s'} hrest => ?_⟩
  have happ := Appends.write ho hw hn (.write hcond) hx (Int.natCast_nonneg _) hrest
  rwa [hoff, hsize, Int.toNat_natCast, Buf.slice_ofList] at happ

/-- A file of 3 bytes is opened with `FILECTRL_APPEND` and written to; it is opened
again, and written to through the new descriptor. -/
theorem appends_iff_twice :
    ∃ s s', Reached (Orderly formattedLayout) systemDisk emptyDisk s ∧
      Appends formattedLayout 2 s [⟨3, 3, [2, 2]⟩, ⟨5, 5, [4]⟩] s' ∧
      (s'.vol formattedLayout 1).content 2
        = (s.vol formattedLayout 1).content 2 ++ [2, 2, 4] := by
  have hrun : (playFrom (WritesFiles formattedLayout) systemDisk emptyDisk
      [(1, .open pathA (FILECTRL_WRITEONLY ||| FILECTRL_CREATE)),
        (1, .write 3 (fun _ => 1) 3),
        (1, .open pathA (FILECTRL_WRITEONLY ||| FILECTRL_APPEND))]).any
      (writesNext 1 2 4 4 ⟨3, 3, [2, 2]⟩ fun t =>
        decide (WritesFiles formattedLayout 1
          (.open pathA (FILECTRL_WRITEONLY ||| FILECTRL_APPEND)) t) &&
        answers 1 (.open pathA (FILECTRL_WRITEONLY ||| FILECTRL_APPEND)) (fun _ t' =>
          (t'.vol formattedLayout 1).content 2 == (t.vol formattedLayout 1).content 2 &&
          writesNext 1 2 5 5 ⟨5, 5, [4]⟩ (fun _ => true) t') t) = true := by
    decide +kernel
  obtain ⟨s, hs, hQ⟩ := Reached.of_playFrom hrun
  obtain ⟨t, hQ, hfirst⟩ := Appends.of_writesNext hQ
  rw [Bool.and_eq_true, decide_eq_true_eq] at hQ
  obtain ⟨hcond, hret⟩ := hQ
  obtain ⟨r, t', hx, hQ⟩ := exists_ok_of_answers hret
  rw [Bool.and_eq_true, beq_iff_eq] at hQ
  obtain ⟨hsame, hQ⟩ := hQ
  obtain ⟨s', -, hsecond⟩ := Appends.of_writesNext hQ
  have hs' := hs.orderly rfl
  have hopens : Orderly formattedLayout 1
      (.open pathA (FILECTRL_WRITEONLY ||| FILECTRL_APPEND)) t := ⟨hcond, fun hc => by cases hc⟩
  have happ := hfirst (.other hopens hx hsame (hsecond .nil))
  exact ⟨s, s', hs', happ, (appends_iff emptyDisk_consistent hs' happ).mpr (by simp)⟩

/-- A file is opened twice with `FILECTRL_APPEND`, and a byte is written through
each of the two descriptors: the second write replaces the first byte. -/
theorem append_overwrites :
    emptyDisk.Consistent formattedLayout ∧
      ∃ s s', playFrom (WritesFiles formattedLayout) systemDisk emptyDisk
          [(1, .open pathA (FILECTRL_WRITEONLY ||| FILECTRL_CREATE ||| FILECTRL_APPEND)),
            (1, .open pathA (FILECTRL_WRITEONLY ||| FILECTRL_APPEND))] = some s ∧
        Reached (Orderly formattedLayout) systemDisk emptyDisk s ∧
        Appends formattedLayout 2 s [⟨0, 0, [1]⟩, ⟨0, 1, [2]⟩] s' ∧
        (s.vol formattedLayout 1).content 2 = [] ∧
        (s'.vol formattedLayout 1).content 2 = [2] := by
  refine ⟨emptyDisk_consistent, ?_⟩
  have hrun : (playFrom (WritesFiles formattedLayout) systemDisk emptyDisk
      [(1, .open pathA (FILECTRL_WRITEONLY ||| FILECTRL_CREATE ||| FILECTRL_APPEND)),
        (1, .open pathA (FILECTRL_WRITEONLY ||| FILECTRL_APPEND))]).any (fun s =>
      (s.vol formattedLayout 1).content 2 == [] &&
      writesNext 1 2 3 3 ⟨0, 0, [1]⟩ (writesNext 1 2 4 4 ⟨0, 1, [2]⟩ fun s' =>
        (s'.vol formattedLayout 1).content 2 == [2]) s) = true := by
    decide +kernel
  obtain ⟨s, hs, hQ⟩ := Option.any_eq_true _ _ |>.mp hrun
  rw [Bool.and_eq_true, beq_iff_eq] at hQ
  obtain ⟨hempty, hQ⟩ := hQ
  obtain ⟨t, hQ, hfirst⟩ := Appends.of_writesNext hQ
  obtain ⟨s', hQ, hsecond⟩ := Appends.of_writesNext hQ
  exact ⟨s, s', hs, (Reached.of_playFrom_eq hs).orderly rfl, hfirst (hsecond .nil), hempty,
    beq_iff_eq.mp hQ⟩

end Dmaos
