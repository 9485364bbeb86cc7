import Dmaos.Handle.Policy

/-!
# Exact reference counts: open files and processes

`Books U l fs s` says that the counts of the two tables add up: a slot of the
inode cache is counted once for each open file on it, each process whose
working directory it is and each reference in `l`; an open file is counted
once for each descriptor on it and each reference in `fs`.  The lists hold
what the running call refers to; both are empty between calls.  Free slots of
the file table and of the process table refer to nothing, the processes in
`U` apart: `create_process` fills in a slot before it marks it used.

A handle is a descriptor or a working directory.  Since the counts are right,
a call leaves every handle it does not release on its inode (`Keeps`).

`Balanced U X l fs x q gs` types a computation by the references it starts
and ends with, as `Nets` does, where `X` are the handles it may release.
-/

namespace Dmaos

open Fault Function KState

variable {X : Fin PROCS_MAX → Handle → Prop} {s s' : KState} {l r : List (Fin NINODE)}
  {q : Fin PROCS_MAX} {i ip : Fin NINODE} {U : Fin PROCS_MAX → Prop}
  {fs gs : List (Fin GLOBAL_OPEN_FILE_LIMIT)} {f : Fin GLOBAL_OPEN_FILE_LIMIT}
  {fd : Fin NUM_FILES_PER_PROCESS} {Q : Process} {F : File}

/-! ## Handles -/

/-- What a process can refer to an inode with. -/
inductive Handle where
  | fd (i : Fin NUM_FILES_PER_PROCESS)
  | cwd
deriving DecidableEq

/-- The slot of the inode cache behind a handle. -/
def KState.slotOf (s : KState) (q : Fin PROCS_MAX) : Handle → Option (Fin NINODE)
  | .fd i => ((s.procs q).ofile i).bind fun f => (s.fileTable f).ip
  | .cwd => (s.procs q).cwd

/-- The handles outside `X` stay on their inode. -/
def Keeps (X : Fin PROCS_MAX → Handle → Prop) (s s' : KState) : Prop :=
  ∀ q h i, ¬ X q h → s.slotOf q h = some i →
    s'.slotOf q h = some i ∧ (s.inodeTable i).Kept (s'.inodeTable i)

section Keeps

variable {Y : Fin PROCS_MAX → Handle → Prop} {s'' : KState}

theorem Keeps.refl (s : KState) : Keeps X s s := fun _ _ _ _ h => ⟨h, .refl _⟩

theorem Keeps.trans (h₁ : Keeps X s s') (h₂ : Keeps X s' s'') : Keeps X s s'' := by
  intro q h i hX hi
  obtain ⟨h3, h4⟩ := h₁ q h i hX hi
  obtain ⟨h5, h6⟩ := h₂ q h i hX h3
  exact ⟨h5, h4.trans h6⟩

theorem Keeps.mono (h : Keeps X s s') (hXY : ∀ q a, X q a → Y q a) : Keeps Y s s' :=
  fun q a i hY hi => h q a i (fun hX => hY (hXY q a hX)) hi

/-- A handle refers to its slot. -/
theorem refsTo_pos_of_slotOf {h : Handle} (hi : s.slotOf q h = some i) : 0 < refsTo l s i := by
  cases h with
  | fd k =>
      obtain ⟨f, -, hf⟩ := Option.bind_eq_some_iff.mp hi
      exact refsTo_pos_of_file hf
  | cwd => exact refsTo_pos_of_cwd hi

/-- Only the inode cache changes, and slots referred to are kept. -/
theorem Keeps.of_tables (ht : Tables s s') (hs : Stable l s s') : Keeps X s s' := by
  intro q h i _ hi
  refine ⟨?_, hs i (refsTo_pos_of_slotOf hi)⟩
  rw [← hi]
  cases h <;> simp only [slotOf, ht.procs, ht.fileTable]

/-- The inode cache does not change. -/
theorem Keeps.of_slotOf (hi : s'.inodeTable = s.inodeTable)
    (h : ∀ q a i, ¬ X q a → s.slotOf q a = some i → s'.slotOf q a = some i) : Keeps X s s' :=
  fun q a i hX ha => ⟨h q a i hX ha, by rw [hi]; exact .refl _⟩

end Keeps

/-! ## The books -/

/-- The descriptors on an open file. -/
def descRefs (s : KState) (f : Fin GLOBAL_OPEN_FILE_LIMIT) : Int :=
  ∑ q, Tally.count (s.procs q).ofile f

/-- The process refers to nothing. -/
def Process.Empty (P : Process) : Prop := P.cwd = none ∧ ∀ fd, P.ofile fd = none

/-- The reference counts are right. -/
structure Books (U : Fin PROCS_MAX → Prop) (l : List (Fin NINODE))
    (fs : List (Fin GLOBAL_OPEN_FILE_LIMIT)) (s : KState) : Prop where
  ino : ∀ i, (s.inodeTable i).ref = refsTo l s i
  file : ∀ f, (s.fileTable f).ref = descRefs s f + fs.count f
  free : ∀ f, (s.fileTable f).ref = 0 → (s.fileTable f).ip = none
  unused : ∀ q, (s.procs q).state = .unused → U q ∨ (s.procs q).Empty
  current : ∀ q, s.current = some q → (s.procs q).state = .unused → U q

section Books

variable {l' : List (Fin NINODE)} {g : Fin GLOBAL_OPEN_FILE_LIMIT} {p : Fin PROCS_MAX}

theorem descRefs_nonneg : 0 ≤ descRefs s f :=
  Finset.sum_nonneg fun q _ => Tally.count_nonneg (s.procs q).ofile f

/-- A descriptor counts. -/
theorem one_le_descRefs (h : (s.procs q).ofile fd = some f) : 1 ≤ descRefs s f := by
  have h1 := Tally.count_pos h
  have h2 := Finset.single_le_sum (fun r _ => Tally.count_nonneg (s.procs r).ofile f)
    (Finset.mem_univ q)
  unfold descRefs
  omega

theorem descRefs_congr (h : ∀ q, (s'.procs q).ofile = (s.procs q).ofile) :
    descRefs s' f = descRefs s f :=
  Finset.sum_congr rfl fun q _ => by rw [h]

/-- One process changes its descriptors. -/
theorem descRefs_putProc (Q : Process) :
    descRefs (s.putProc p Q) f =
      descRefs s f - Tally.count (s.procs p).ofile f + Tally.count Q.ofile f := by
  have hrest : ∑ q ∈ Finset.univ.erase p, Tally.count ((s.putProc p Q).procs q).ofile f =
      ∑ q ∈ Finset.univ.erase p, Tally.count (s.procs q).ofile f :=
    Finset.sum_congr rfl fun q hq => by
      simp [putProc, Finset.ne_of_mem_erase hq]
  have hnew := Finset.add_sum_erase Finset.univ
    (fun q => Tally.count ((s.putProc p Q).procs q).ofile f) (Finset.mem_univ p)
  have hold := Finset.add_sum_erase Finset.univ
    (fun q => Tally.count (s.procs q).ofile f) (Finset.mem_univ p)
  rw [hrest] at hnew
  have hp : (s.putProc p Q).procs p = Q := by simp [putProc]
  simp only [hp] at hnew
  unfold descRefs
  omega

/-- One descriptor changes. -/
theorem descRefs_setFd (fd : Fin NUM_FILES_PER_PROCESS) (o : Option (Fin GLOBAL_OPEN_FILE_LIMIT))
    (hQ : Q.ofile = update (s.procs p).ofile fd o) :
    descRefs (s.putProc p Q) f =
      descRefs s f - Tally.unit ((s.procs p).ofile fd) f + Tally.unit o f := by
  rw [descRefs_putProc, hQ, Tally.count_update]
  omega

/-- Two descriptors on a file count twice. -/
theorem two_le_descRefs {k : Fin NUM_FILES_PER_PROCESS} (h : (s.procs p).ofile fd = some f)
    (h' : (s.procs q).ofile k = some f) (hne : p ≠ q ∨ fd ≠ k) : 2 ≤ descRefs s f := by
  -- Without the first descriptor the second still counts.
  have hcount := descRefs_setFd (s := s) (f := f) (p := p) fd none
    (Q := { s.procs p with ofile := update (s.procs p).ofile fd none }) rfl
  have hpos : 1 ≤ descRefs (s.putProc p
      { s.procs p with ofile := update (s.procs p).ofile fd none }) f := by
    refine one_le_descRefs (show ((s.putProc p _).procs q).ofile k = some f from ?_)
    by_cases hq : q = p
    · subst hq
      have hk : k ≠ fd := fun hk => (hne.resolve_left fun h => h rfl) hk.symm
      simp [putProc, hk, h']
    · simp [putProc, hq, h']
  rw [h, Tally.unit_self, Tally.unit_none] at hcount
  omega

theorem List.count_cons_unit {α : Type} [DecidableEq α] (a b : α) (l : List α) :
    (((a :: l).count b : Nat) : Int) = l.count b + Tally.unit (some a) b := by
  rw [List.count_cons]
  by_cases h : a = b
  · subst h
    simp
  · rw [Tally.unit_of_ne h]
    simp [h]

theorem refsTo_cons_unit : refsTo (ip :: l) s i = refsTo l s i + Tally.unit (some ip) i := by
  unfold refsTo
  rw [List.count_cons_unit]
  omega

theorem Books.refs (h : Books U l fs s) : Refs l s := fun i => (h.ino i).ge

theorem Books.covers (h : Books U (l' ++ l) fs s) : Covers l' s := by
  intro i
  have := refsTo_nonneg (l := l) (s := s) (i := i)
  rw [h.ino]
  unfold refsTo at this ⊢
  rw [List.count_append]
  push_cast
  omega

theorem Books.mono {V : Fin PROCS_MAX → Prop} (h : Books U l fs s) (hUV : ∀ q, U q → V q) :
    Books V l fs s :=
  ⟨h.ino, h.file, h.free, fun q hq => (h.unused q hq).imp (hUV q) id,
    fun q hc hq => hUV q (h.current q hc hq)⟩

/-- A file the call holds is in use. -/
theorem Books.file_pos (h : Books U l (f :: fs) s) : 0 < (s.fileTable f).ref := by
  have := descRefs_nonneg (s := s) (f := f)
  rw [h.file, List.count_cons_unit, Tally.unit_self]
  omega

/-- The references `l'` are exchanged. -/
theorem Books.trades (h : Books U (l' ++ l) fs s) (ht : Trades l' r s s') :
    Books U (r ++ l) fs s' where
  ino := by
    intro i
    have := h.ino i
    rw [ht.ref, this, ht.toTables.refsTo_eq]
    unfold refsTo
    rw [List.count_append, List.count_append]
    push_cast
    omega
  file := by
    intro f
    have hd : descRefs s' f = descRefs s f := descRefs_congr fun q => by rw [ht.procs]
    rw [ht.fileTable, hd]
    exact h.file f
  free := by
    rw [ht.fileTable]
    exact h.free
  unused := by
    rw [ht.procs]
    exact h.unused
  current := by
    rw [ht.procs, ht.toTables.current]
    exact h.current

theorem Trades.keeps (h : Books U (l' ++ l) fs s) (ht : Trades l' r s s') : Keeps X s s' := by
  refine .of_tables (l := []) ht.toTables fun i hi => ht.kept i ?_
  have := h.ino i
  unfold refsTo at this hi
  rw [List.count_append] at this
  simp at hi
  push_cast at this
  omega

theorem putFile_ref (hr : F.ref = (s.fileTable f).ref) :
    ((s.putFile f F).fileTable g).ref = (s.fileTable g).ref := by
  by_cases hg : g = f
  · subst hg
    simp [putFile, hr]
  · simp [putFile, hg]

/-- A file changes, but neither its count nor its inode. -/
theorem Books.putFile (h : Books U l fs s) (hr : F.ref = (s.fileTable f).ref)
    (hi : F.ip = (s.fileTable f).ip) : Books U l fs (s.putFile f F) where
  ino := by
    intro i
    rw [refsTo_putFile, hi]
    show (s.inodeTable i).ref = _
    rw [h.ino]
    omega
  file := by
    intro g
    show _ = descRefs s g + _
    rw [← h.file, putFile_ref hr]
  free := by
    intro g hg
    by_cases hgf : g = f
    · subst hgf
      simp only [putFile, update_self] at hg ⊢
      rw [hi]
      exact h.free g (hr ▸ hg)
    · simp only [KState.putFile, update_of_ne hgf] at hg ⊢
      exact h.free g hg
  unused := h.unused
  current := h.current

theorem Keeps.putFile
    (hi : (s.fileTable f).ip = none ∨ F.ip = (s.fileTable f).ip) : Keeps X s (s.putFile f F) := by
  refine .of_slotOf rfl fun q a i _ ha => ?_
  cases a with
  | cwd => exact ha
  | fd k =>
      obtain ⟨g, hg, hgi⟩ := Option.bind_eq_some_iff.mp ha
      refine Option.bind_eq_some_iff.mpr ⟨g, hg, ?_⟩
      by_cases hgf : g = f
      · subst hgf
        rcases hi with hi | hi
        · rw [hi] at hgi
          cases hgi
        · simpa [putFile, hi] using hgi
      · simpa [KState.putFile, hgf] using hgi

/-- A reference of the call becomes that of an open file it has just made. -/
theorem Books.putIp (h : Books U (ip :: l) (f :: fs) s)
    (h0 : (s.fileTable f).ip = none) (hr : F.ref = (s.fileTable f).ref) (hip : F.ip = some ip) :
    Books U l (f :: fs) (s.putFile f F) where
  ino := by
    intro i
    rw [refsTo_putFile, h0, hip, Tally.unit_none]
    show (s.inodeTable i).ref = _
    rw [h.ino, refsTo_cons_unit]
    omega
  file := by
    intro g
    show _ = descRefs s g + _
    rw [← h.file, putFile_ref hr]
  free := by
    intro g hg
    by_cases hgf : g = f
    · subst hgf
      have := h.file_pos
      simp only [KState.putFile, update_self] at hg
      omega
    · simp only [KState.putFile, update_of_ne hgf] at hg ⊢
      exact h.free g hg
  unused := h.unused
  current := h.current

/-- A process changes.  What it gives up or takes is in the lists. -/
theorem Books.putProc (h : Books U l fs s)
    (hcwd : ∀ i, Tally.unit Q.cwd i + l'.count i = Tally.unit (s.procs p).cwd i + l.count i)
    (hfd : ∀ f, Tally.count Q.ofile f + gs.count f = Tally.count (s.procs p).ofile f + fs.count f)
    (hstate : Q.state = .unused → U p ∨ s.current ≠ some p ∧ Q.Empty) :
    Books U l' gs (s.putProc p Q) where
  ino := by
    intro i
    have h1 := hcwd i
    have h2 := h.ino i
    rw [refsTo_putProc]
    show (s.inodeTable i).ref = _
    unfold refsTo at h2 ⊢
    omega
  file := by
    intro f
    have h1 := hfd f
    have h2 := h.file f
    rw [descRefs_putProc]
    show (s.fileTable f).ref = _
    omega
  free := h.free
  unused := by
    intro q hq
    by_cases hqp : q = p
    · subst hqp
      simp only [putProc, update_self] at hq ⊢
      exact (hstate hq).imp id And.right
    · simp only [KState.putProc, update_of_ne hqp] at hq ⊢
      exact h.unused q hq
  current := by
    intro q hc hq
    by_cases hqp : q = p
    · subst hqp
      simp only [putProc, update_self] at hq
      exact (hstate hq).resolve_right fun h => h.1 hc
    · simp only [KState.putProc, update_of_ne hqp] at hq
      exact h.current q hc hq

theorem Keeps.putProc (hcwd : X p .cwd ∨ (s.procs p).cwd = none ∨ Q.cwd = (s.procs p).cwd)
    (hfd : ∀ fd, X p (.fd fd) ∨ (s.procs p).ofile fd = none ∨ Q.ofile fd = (s.procs p).ofile fd) :
    Keeps X s (s.putProc p Q) := by
  refine .of_slotOf rfl fun q a i hX ha => ?_
  by_cases hq : q = p
  · subst hq
    cases a with
    | cwd =>
        rcases hcwd with hc | hc | hc
        · exact absurd hc hX
        · have : (s.procs q).cwd = some i := ha
          rw [hc] at this
          cases this
        · simpa [slotOf, putProc, hc] using ha
    | fd k =>
        rcases hfd k with hc | hc | hc
        · exact absurd hc hX
        · simp [slotOf, hc] at ha
        · simpa [slotOf, putProc, hc] using ha
  · cases a <;> simpa [KState.slotOf, KState.putProc, hq] using ha

end Books

/-! ## Closing a file -/

section Close

variable {t : KState}

/-- What `file_close` changes: the count goes down by one, and the last one
gives the inode back. -/
structure Closed (f : Fin GLOBAL_OPEN_FILE_LIMIT) (s t : KState) : Prop where
  procs : t.procs = s.procs
  current : t.current = s.current
  others : ∀ g, g ≠ f → t.fileTable g = s.fileTable g
  ref : (t.fileTable f).ref = (s.fileTable f).ref - 1
  last : (t.fileTable f).ref = 0 → (t.fileTable f).ip = none
  more : (t.fileTable f).ref ≠ 0 → (t.fileTable f).ip = (s.fileTable f).ip
  ino : ∀ i, (t.inodeTable i).ref = (s.inodeTable i).ref - Tally.unit (s.fileTable f).ip i +
    Tally.unit (t.fileTable f).ip i
  kept : ∀ i, (s.inodeTable i).Kept (t.inodeTable i)

/-- The count of a file goes down, and it keeps its inode. -/
theorem Closed.of_putFile (hr : F.ref = (s.fileTable f).ref - 1)
    (hi : F.ip = (s.fileTable f).ip) (h0 : F.ref = 0 → F.ip = none) :
    Closed f s (s.putFile f F) := by
  have hf : (s.putFile f F).fileTable f = F := by simp [putFile]
  refine ⟨rfl, rfl, fun g hg => by simp [putFile, hg], by rw [hf, hr],
    fun h => by rw [hf] at h ⊢; exact h0 h, fun _ => by rw [hf, hi], fun i => ?_,
    fun _ => .refl _⟩
  rw [hf, hi]
  show (s.inodeTable i).ref = _
  omega

theorem fileClose_ok {u : Unit} (h : fileClose f s = .ok u t) : Closed f s t := by
  replace h := get_then h
  change (if (s.fileTable f).ref ≤ 0 then throw .fileClose else _ : Kern Unit) s = _ at h
  split_ifs at h with h0 h1
  · exact absurd h throw_ok
  · cases hip : (s.fileTable f).ip with
    | none =>
        simp only [hip] at h
        rw [modify_ok.mp h]
        exact .of_putFile h1.symm hip.symm fun _ => rfl
    | some ip =>
        simp only [hip] at h
        obtain ⟨v, t', ht', h⟩ := bind_ok.mp h
        obtain ⟨-, rfl⟩ := iput_ok ht'
        rw [modify_ok.mp h]
        have hf : ∀ (s : KState) (F : File), (s.putFile f F).fileTable f = F := by
          intro s F
          simp [putFile]
        refine ⟨rfl, rfl, fun g hg => ?_, ?_, fun _ => ?_, fun h => ?_, fun i => ?_, fun i => ?_⟩
        · simp [putFile, putInode, hg]
        · rw [hf]
          exact h1.symm
        · rw [hf]
        · rw [hf] at h
          exact absurd rfl h
        · rw [hf, Tally.unit_none, hip]
          show ((s.putInode ip _).inodeTable i).ref = _
          by_cases hi : i = ip
          · subst hi
            rw [putInode_self, Tally.unit_self]
            show (s.inodeTable i).ref - 1 = _
            omega
          · rw [putInode_of_ne hi, Tally.unit_of_ne (Ne.symm hi)]
            omega
        · show (s.inodeTable i).Kept ((s.putInode ip _).inodeTable i)
          by_cases hi : i = ip
          · subst hi
            rw [putInode_self]
            exact ⟨rfl, rfl, id⟩
          · rw [putInode_of_ne hi]
            exact .refl _
  · rw [modify_ok.mp h]
    exact .of_putFile rfl rfl fun h => absurd h h1

/-- `file_close` of a file that is counted does not stop the kernel. -/
theorem fileClose_fair {e : Halt} (hs : Books U l fs s) (h0 : 0 < (s.fileTable f).ref)
    (h : fileClose f s = .error e t) : e.Fair := by
  change (if (s.fileTable f).ref ≤ 0 then throw .fileClose else _ : Kern Unit) s = _ at h
  split_ifs at h with h1 h2
  · omega
  · cases hip : (s.fileTable f).ip with
    | none =>
        simp only [hip] at h
        cases h
    | some ip =>
        simp only [hip] at h
        -- The inode is counted for the file.
        have hpos := refsTo_pos_of_file (l := l) hip
        rw [← hs.ino] at hpos
        have hput : iput ip s =
            .ok () (s.putInode ip { s.inodeTable ip with ref := (s.inodeTable ip).ref - 1 }) :=
          if_neg (by omega)
        rw [run_bind hput] at h
        cases h
  · cases h

/-- A file is closed, and the descriptor on it or the reference of the call is
gone. -/
theorem Closed.books (h : Closed f s t) (hs : Books U l fs s)
    (hino : s'.inodeTable = t.inodeTable) (hfile : s'.fileTable = t.fileTable)
    (hcwd : ∀ q, (s'.procs q).cwd = (s.procs q).cwd)
    (hstate : ∀ q, (s'.procs q).state = (s.procs q).state)
    (hempty : ∀ q, (s.procs q).Empty → (s'.procs q).Empty) (hcur : s'.current = s.current)
    (hdesc : ∀ g, descRefs s' g + gs.count g =
      descRefs s g + fs.count g - Tally.unit (some f) g) : Books U l gs s' where
  ino := by
    intro i
    have h1 : refsTo l s' i = refsTo l (s.putFile f (t.fileTable f)) i := by
      unfold refsTo fileRefs cwdRefs
      have hip : (fun g => (s'.fileTable g).ip) =
          fun g => ((s.putFile f (t.fileTable f)).fileTable g).ip := by
        funext g
        rw [hfile]
        by_cases hg : g = f
        · subst hg
          simp [putFile]
        · simp [putFile, hg, h.others g hg]
      rw [hip, funext hcwd]
      rfl
    rw [h1, refsTo_putFile, hino, h.ino, hs.ino]
  file := by
    intro g
    rw [hdesc, hfile]
    by_cases hg : g = f
    · subst hg
      rw [h.ref, hs.file, Tally.unit_self]
    · rw [h.others g hg, hs.file, Tally.unit_of_ne (Ne.symm hg)]
      omega
  free := by
    intro g
    rw [hfile]
    by_cases hg : g = f
    · subst hg
      exact h.last
    · rw [h.others g hg]
      exact hs.free g
  unused := by
    intro q
    rw [hstate]
    intro hq
    exact (hs.unused q hq).imp id (hempty q)
  current := by
    intro q
    rw [hstate, hcur]
    exact hs.current q

/-- The handles on other files, and on a file with further descriptors, stay. -/
theorem Closed.keeps (h : Closed f s t)
    (hino : s'.inodeTable = t.inodeTable) (hfile : s'.fileTable = t.fileTable)
    (hcwd : ∀ q, (s'.procs q).cwd = (s.procs q).cwd)
    (hfd : ∀ q fd, ¬ X q (.fd fd) → (s'.procs q).ofile fd = (s.procs q).ofile fd)
    (hmore : ∀ q fd, ¬ X q (.fd fd) → (s.procs q).ofile fd = some f → 2 ≤ (s.fileTable f).ref) :
    Keeps X s s' := by
  intro q a i hX ha
  refine ⟨?_, by rw [hino]; exact h.kept i⟩
  cases a with
  | cwd =>
      rw [← ha]
      exact hcwd q
  | fd k =>
      obtain ⟨g, hg, hgi⟩ := Option.bind_eq_some_iff.mp ha
      refine Option.bind_eq_some_iff.mpr ⟨g, (hfd q k hX).trans hg, ?_⟩
      rw [hfile]
      by_cases hgf : g = f
      · subst hgf
        have h2 := hmore q k hX hg
        rw [h.more (by rw [h.ref]; omega)]
        exact hgi
      · rw [h.others g hgf]
        exact hgi

end Close

end Dmaos
