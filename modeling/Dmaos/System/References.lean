import Dmaos.Handle.Balance
import Dmaos.System.Ownership
import Mathlib.Algebra.BigOperators.Fin

/-!
# Reference counts are exact

Between system calls the reference count of a slot of the inode cache is the
number of open files and working directories on it, and that of an open file
is the number of descriptors on it.  This holds on every path through every
call but one: a spawn that fails keeps what `create_process` had acquired.
`Contained` has what it takes that no access leaves its buffer.
-/

namespace Dmaos

open Fault Function KState

variable {U : Fin PROCS_MAX → Prop} {X : Fin PROCS_MAX → Handle → Prop} {l : List (Fin NINODE)}
  {fs : List (Fin GLOBAL_OPEN_FILE_LIMIT)} {s s' : KState} {p : Fin PROCS_MAX} {prog : Program}
  {u : Unit} {o : Option (Fin PROCS_MAX)} {e : Halt} {c : Syscall} {r : Int} {cmdline : List Byte}
  {d0 d1 : Device}

/-! ## Process creation -/

section Create

/-- The files of a table of descriptors. -/
def heldFiles (ofile : Fin NUM_FILES_PER_PROCESS → Option (Fin GLOBAL_OPEN_FILE_LIMIT)) :
    List (Fin GLOBAL_OPEN_FILE_LIMIT) := (List.finRange NUM_FILES_PER_PROCESS).filterMap ofile

theorem count_filterMap {ι α : Type} [DecidableEq α] (g : ι → Option α) (a : α) (js : List ι) :
    (((js.filterMap g).count a : Nat) : Int) = (js.map fun j => Tally.unit (g j) a).sum := by
  induction js with
  | nil => rfl
  | cons j js ih =>
      rw [List.map_cons, List.sum_cons, ← ih]
      cases hj : g j with
      | none => rw [List.filterMap_cons_none hj, Tally.unit_none, zero_add]
      | some b => rw [List.filterMap_cons_some hj, List.count_cons_unit, add_comm]

theorem count_heldFiles (ofile : Fin NUM_FILES_PER_PROCESS → Option (Fin GLOBAL_OPEN_FILE_LIMIT))
    (f : Fin GLOBAL_OPEN_FILE_LIMIT) :
    (((heldFiles ofile).count f : Nat) : Int) = Tally.count ofile f := by
  unfold heldFiles Tally.count
  rw [count_filterMap, Fin.sum_univ_def]

/-- The processes do not change. -/
structure SameProcs (s s' : KState) : Prop where
  procs : s'.procs = s.procs
  current : s'.current = s.current

instance : IsPreorder KState SameProcs where
  refl _ := ⟨rfl, rfl⟩
  trans _ _ _ h₁ h₂ := ⟨h₂.procs.trans h₁.procs, h₂.current.trans h₁.current⟩

instance : Storing SameProcs where
  putBlock := ⟨rfl, rfl⟩
  putInode := ⟨rfl, rfl⟩
  putFile := ⟨rfl, rfl⟩

theorem SameProcs.consoleFiles : Within SameProcs consoleFiles := .consoleFiles

theorem Balanced.fileCloseOpt : ∀ {o : Option (Fin GLOBAL_OPEN_FILE_LIMIT)},
    Balanced U X l (o.toList ++ fs) (fileCloseOpt o) (fun _ => l) (fun _ => fs)
  | none => .pure rfl rfl
  | some _ => .fileClose

/-- The order of the files the call holds does not matter. -/
theorem Balanced.files {α : Type} {x : Kern α} {gs : List (Fin GLOBAL_OPEN_FILE_LIMIT)}
    {q : α → List (Fin NINODE)} {hs : α → List (Fin GLOBAL_OPEN_FILE_LIMIT)}
    (h : Balanced U X l gs x q hs) (hc : ∀ f, fs.count f = gs.count f) : Balanced U X l fs x q hs :=
  fun s hb => h s (hb.files hc)

theorem Balanced.consoleFiles :
    Balanced U X l fs consoleFiles (fun _ => l) (fun ofile => heldFiles ofile ++ fs) := by
  refine .bind .fileCreate fun f0 => .bind .fileCreate fun f1 => .bind .fileCreate fun f2 => ?_
  split
  · next f0 f1 f2 =>
      intro s hs
      refine .pure (hs.files fun f => ?_)
      -- The table is the empty one with three descriptors set.
      have htab : (fun fd => if fd = 0 then some f0 else if fd = 1 then some f1
          else if fd = 2 then some f2 else none : Fin NUM_FILES_PER_PROCESS → _) =
          update (update (update (fun _ => none) 2 (some f2))
            1 (some f1)) 0 (some f0) := by
        funext fd
        simp only [update_apply]
      have h1 : update (fun _ => none) (2 : Fin NUM_FILES_PER_PROCESS) (some f2) 1
          = none :=
        update_of_ne (by decide) _ _
      have h0 : update (update (fun _ => none)
          (2 : Fin NUM_FILES_PER_PROCESS) (some f2)) 1 (some f1) 0 = none := by
        rw [update_of_ne (by decide), update_of_ne (by decide)]
      have hcount := count_heldFiles (update (update (update
        (fun _ => none) 2 (some f2)) 1 (some f1)) 0 (some f0)) f
      rw [Tally.count_update, Tally.count_update, Tally.count_update, Tally.count_none, h1, h0,
        ← htab] at hcount
      have hlist : (((f2 :: f1 :: f0 :: fs).count f : Nat) : Int) =
          fs.count f + Tally.unit (some f0) f + Tally.unit (some f1) f
            + Tally.unit (some f2) f := by
        rw [List.count_cons_unit, List.count_cons_unit, List.count_cons_unit]
      simp only [Tally.unit_none] at hcount
      show (f2 :: f1 :: f0 :: fs).count f = _
      rw [List.count_append]
      omega
  · have hclose : Balanced U X l (f0.toList ++ (f1.toList ++ (f2.toList ++ fs))) _ _ _ :=
      .fileCloseOpt
    refine .bind (.files hclose fun f => ?_) fun _ => .bind .fileCloseOpt fun _ =>
      .bind .fileCloseOpt fun _ => .pure rfl rfl
    simp only [List.count_append]
    omega

theorem BalancedAt.openConsole (hs : Books U l fs s) (hU : U p) (hX : ∀ h, X p h)
    (hno : ∀ fd, (s.procs p).ofile fd = none) :
    BalancedAt U X s (openConsole prog p) (fun _ => l) (fun _ => fs) := by
  have hopen : BalancedAt U X s (do
      let ofile ← Dmaos.consoleFiles
      modify fun s => s.putProc p { s.procs p with ofile := ofile })
      (fun _ => l) (fun _ => fs) := by
    refine .bind (Balanced.consoleFiles s hs) fun ofile t h ht => ?_
    have hp := SameProcs.consoleFiles.of_ok h
    refine .update l fs (ht.setProc (fun _ => hU) rfl (fun i => rfl) fun f => ?_)
      (.putProc (Or.inl (hX _)) (fun fd => Or.inl (hX _)) (Or.inl (hX _)))
    have h0 : Tally.count (t.procs p).ofile f = 0 := by
      rw [hp.procs, show (s.procs p).ofile = fun _ => none from funext hno, Tally.count_none]
    have hheld := count_heldFiles ofile f
    rw [List.count_append]
    push_cast
    omega
  cases prog with
  | idle => exact .pure hs
  | image => exact hopen
  | named path => exact hopen

/-- Opening the console changes the descriptors of the slot only. -/
theorem openConsole_ok (h : openConsole prog p s = .ok u s') :
    s'.current = s.current ∧
      ∃ ofile, s'.procs = update s.procs p { s.procs p with ofile := ofile } := by
  have hopen : ∀ {u : Unit}, (do
      let ofile ← consoleFiles
      modify fun s => s.putProc p { s.procs p with ofile := ofile } : Kern Unit) s = .ok u s' →
      s'.current = s.current ∧
        ∃ ofile, s'.procs = update s.procs p { s.procs p with ofile := ofile } := by
    intro u h
    obtain ⟨ofile, t, ht, h⟩ := bind_ok.mp h
    have hsame := SameProcs.consoleFiles.of_ok ht
    rw [modify_ok.mp h, ← hsame.procs]
    exact ⟨hsame.current, ofile, rfl⟩
  cases prog with
  | idle =>
      obtain ⟨-, rfl⟩ := pure_ok.mp h
      exact ⟨rfl, (s.procs p).ofile, (update_eq_self p s.procs).symm⟩
  | image => exact hopen h
  | named path => exact hopen h

/-- The descriptors of a slot are forgotten. -/
theorem Books.clearFds (hs : Books U l fs s) (hU : U p) :
    Books U l (heldFiles (s.procs p).ofile ++ fs)
      (s.putProc p { s.procs p with ofile := fun _ => none }) := by
  refine hs.setProc (fun _ => hU) rfl (fun i => rfl) fun f => ?_
  have hheld := count_heldFiles (s.procs p).ofile f
  rw [List.count_append, Tally.count_none]
  push_cast
  omega

/-- Whether the program is found or not, only slot `p` is not in order.  What an
unused slot still referred to is lost. -/
theorem BalancedAt.createProcess (hs : Books U l fs s) (hp : findProc s = some p) :
    BalancedAt (fun q => U q ∨ q = p) (fun q _ => q = p) s (createProcess prog)
      (fun _ => (s.procs p).cwd.toList ++ l) (fun _ => heldFiles (s.procs p).ofile ++ fs) := by
  replace hs : Books (fun q => U q ∨ q = p) l fs s := hs.mono fun _ h => Or.inl h
  have hX : ∀ h : Handle, (fun q (_ : Handle) => q = p) p h := fun _ => rfl
  refine .get ?_
  simp only [hp]
  have hkeep : ∀ (t : KState) (Q : Process), Minds (fun q _ => q = p) t (t.putProc p Q) :=
    fun t Q => .putProc (Or.inl rfl) (fun fd => Or.inl rfl) (Or.inl rfl)
  refine .bind (.update l (heldFiles (s.procs p).ofile ++ fs) (hs.clearFds (Or.inr rfl))
    (hkeep _ _)) fun _ t₁ h₁ ht₁ => ?_
  obtain rfl := modify_ok.mp h₁
  refine .bind (.openConsole ht₁ (Or.inr rfl) hX fun fd => by simp [putProc])
    fun _ t₂ h₂ ht₂ => ?_
  refine .bind (Balanced.nets Nets.inheritCwd t₂ ht₂) fun cwd t₃ h₃ ht₃ => ?_
  have hcwd : (t₃.procs p).cwd = (s.procs p).cwd := by
    obtain ⟨-, ofile, hprocs⟩ := openConsole_ok h₂
    have hcov : Covers [] t₂ := Books.covers ht₂
    rw [(Nets.inheritCwd.ok hcov h₃).procs, hprocs]
    simp [putProc]
  refine .bind (.update ((s.procs p).cwd.toList ++ l) _
    (ht₃.setProc (fun _ => Or.inr rfl) rfl (fun i => ?_) fun f => rfl)
    (hkeep _ _)) fun _ t₄ _ ht₄ => ?_
  · show Tally.unit (some cwd) i + ((((s.procs p).cwd.toList ++ l).count i : Nat) : Int) =
      _ + (((cwd :: l).count i : Nat) : Int)
    rw [List.count_cons_unit, hcwd, List.count_append]
    cases (s.procs p).cwd with
    | none =>
        rw [Tally.unit_none]
        simp
        omega
    | some c =>
        have hc := List.count_cons_unit c i []
        rw [List.count_nil] at hc
        simp only [Option.toList_some]
        push_cast
        omega
  refine .bind (Balanced.nets Nets.loadProgram t₄ ht₄) fun found t₅ _ ht₅ => ?_
  split_ifs
  · exact .bind (.update _ _
      (ht₅.putProc (fun i => rfl) (fun f => rfl) fun _ => Or.inl (Or.inr rfl))
      (hkeep _ _)) fun _ _ _ h => .pure h
  · exact .pure ht₅

/-- The steps of `create_process` in a slot: the console, the working directory,
the program, and the slot is marked. -/
structure Makes (prog : Program) (p : Fin PROCS_MAX) (s t : KState) (found : Bool) : Prop where
  free : findProc s = some p
  steps : ∃ t₂ cwd t₃,
    openConsole prog p (s.putProc p { s.procs p with ofile := fun _ => none }) = .ok () t₂ ∧
    inheritCwd t₂ = .ok cwd t₃ ∧
    loadProgram prog (t₃.putProc p
      { t₃.procs p with cwd := some cwd, cwdPath := inheritCwdPath t₃ }) = .ok found t

theorem createProcess_ok (h : createProcess prog s = .ok o s') :
    ∃ p t found, Makes prog p s t found ∧
      (found = true ∧ o = some p ∧
          s' = t.putProc p { t.procs p with pid := (p : Nat) + 1, state := .runnable } ∨
        found = false ∧ o = none ∧ s' = t) := by
  replace h := get_then h
  cases hp : findProc s with
  | none =>
      simp only [hp] at h
      exact absurd h throw_ok
  | some p =>
      simp only [hp] at h
      replace h := modify_then h
      obtain ⟨_, t₂, h₂, h⟩ := bind_ok.mp h
      obtain ⟨cwd, t₃, h₃, h⟩ := bind_ok.mp h
      replace h := modify_then h
      obtain ⟨found, t₅, h₅, h⟩ := bind_ok.mp h
      refine ⟨p, t₅, found, ⟨hp, t₂, cwd, t₃, h₂, h₃, h₅⟩, ?_⟩
      cases found with
      | true =>
          replace h := modify_then h
          obtain ⟨rfl, rfl⟩ := pure_ok.mp h
          exact Or.inl ⟨rfl, rfl, rfl⟩
      | false =>
          obtain ⟨rfl, rfl⟩ := pure_ok.mp h
          exact Or.inr ⟨rfl, rfl, rfl⟩

/-- A process that has been made is ready to run. -/
theorem createProcess_some {q : Fin PROCS_MAX} (h : createProcess prog s = .ok (some q) s') :
    findProc s = some q ∧ (s'.procs q).state = .runnable := by
  obtain ⟨p, t, found, hm, ⟨-, hq, rfl⟩ | ⟨-, hq, -⟩⟩ := createProcess_ok h
  · cases hq
    exact ⟨hm.free, by simp [putProc]⟩
  · cases hq

/-- Once the slot is in use, all is in order again. -/
theorem Books.ready (h : Books (fun q => U q ∨ q = p) l fs s)
    (hp : (s.procs p).state = .runnable) : Books U l fs s where
  ino := h.ino
  file := h.file
  free := h.free
  unused := by
    intro q hq
    refine (h.unused q hq).imp_left fun hU => hU.resolve_right ?_
    rintro rfl
    rw [hp] at hq
    cases hq
  current := by
    intro q hc hq
    refine (h.current q hc hq).resolve_right ?_
    rintro rfl
    rw [hp] at hq
    cases hq

theorem Process.Empty.held {Q : Process} (h : Q.Empty) : heldFiles Q.ofile = [] := by
  rw [show Q.ofile = fun _ => none from funext h.2]
  rfl

/-- A slot that refers to nothing has no handles to release. -/
theorem Keeps.of_empty (h : Keeps (fun q _ => q = p) s s') (hp : (s.procs p).Empty) :
    Keeps X s s' := by
  intro q a i _ ha
  refine h q a i ?_ ha
  rintro rfl
  cases a with
  | cwd =>
      have : (s.procs q).cwd = some i := ha
      rw [hp.1] at this
      cases this
  | fd k => simp [slotOf, hp.2 k] at ha

theorem createProcess_books (hs : Books (fun _ => False) [] [] s)
    (hx : createProcess prog s = .ok o s') (ho : o ≠ none) :
    Books (fun _ => False) [] [] s' ∧ Keeps X s s' := by
  obtain ⟨q, rfl⟩ := Option.ne_none_iff_exists'.mp ho
  obtain ⟨hp, hrun⟩ := createProcess_some hx
  have hempty := (hs.unused q (findProc_unused hp)).resolve_left id
  obtain ⟨hb, hk⟩ := (BalancedAt.createProcess hs hp).1 _ _ hx
  rw [hempty.1, hempty.held] at hb
  exact ⟨hb.ready hrun, hk.keeps.of_empty hempty⟩

end Create

/-! ## Calls -/

/-- The handles a call may release. -/
def Released (p : Fin PROCS_MAX) (c : Syscall) (s : KState) (q : Fin PROCS_MAX) (h : Handle) :
    Prop :=
  match c with
  | .close fd => q = p ∧ ∃ i, h = .fd i ∧ ((i : Nat) : Int) = fd
  | .chdir _ => q = p ∧ h = .cwd
  | .wait _ => (s.procs q).state = .exited
  | _ => False

/-- Is the call a spawn? -/
def Syscall.isSpawn : Syscall → Bool
  | .spawn _ => true
  | _ => false

/-- A spawn returns a pid. -/
def SpawnsReturn (p : Fin PROCS_MAX) (c : Syscall) (s : KState) : Prop :=
  c.isSpawn = true → value (step p c s) ≠ some (-1)

instance (p : Fin PROCS_MAX) (c : Syscall) (s : KState) : Decidable (SpawnsReturn p c s) := by
  unfold SpawnsReturn
  infer_instance

section Calls

theorem BalancedAt.exitCurrentProcess (hs : Books U l fs s) :
    BalancedAt U X s exitCurrentProcess (fun _ => l) (fun _ => fs) := by
  refine .bind (Balanced.currentProcess s hs) fun q t _ ht => ?_
  exact .update l fs (ht.putProc (fun i => rfl) (fun f => rfl) fun h => by cases h)
    (.putProc (Or.inr (Or.inr rfl)) (fun fd => Or.inr (Or.inr rfl))
      (Or.inr ⟨rfl, fun h => by cases h⟩))

theorem BalancedAt.handleSyscall (hs : Books U l fs s) (hcur : s.current = some p)
    (hrun : (s.procs p).state = .runnable) (hc : c.isSpawn = false) :
    BalancedAt U (Released p c s) s (handleSyscall c) (fun _ => l) (fun _ => fs) := by
  have hp : ∀ q, s.current = some q → q = p := by
    intro q hq
    rw [hcur] at hq
    exact (Option.some.inj hq).symm
  have call : ∀ {x : Kern Int}, Balanced U (Released p c s) l fs x (fun _ => l) (fun _ => fs) →
      BalancedAt U (Released p c s) s x (fun _ => l) (fun _ => fs) := fun h => h s hs
  cases c with
  | «open» path flags => exact call (.ite .fsCreate .fsOpen)
  | read fd n => exact call (.ite (.pure rfl rfl) (.bind .fsRead fun _ => .pure rfl rfl))
  | write fd buf n => exact call .fsWrite
  | close fd => exact .fsClose hs fun q i hq hi => ⟨hp q hq, i, rfl, hi⟩
  | lseek fd offset whence => exact call .fsLseek
  | ftruncate fd length => exact call .fsFtruncate
  | getFileName index bufLen =>
      exact call (.ite (.pure rfl rfl) (.bind (.nets .fsGetFileName) fun _ => .pure rfl rfl))
  | getFileSize index => exact call (.nets .fsGetFileSize)
  | stat path => exact call (.bind (.nets .fsStat) fun _ => .pure rfl rfl)
  | chdir path => exact .sysChdir hs fun q hq => ⟨hp q hq, rfl⟩
  | mkdir path => exact call (.nets .fsMkdir)
  | rm path => exact call (.nets .fsRm)
  | spawn cmdline => cases hc
  | exit => exact .bind (.exitCurrentProcess hs) fun _ _ _ h => .pure h
  | wait pid =>
      refine .waitProcess hs (fun q hq => ?_) fun q h hq => hq
      rw [hp q hq, hrun]
      exact fun h => by cases h
  | other => exact .pure hs

theorem spawnProcess_books
    (hs : Books (fun _ => False) [] [] s) (hx : spawnProcess cmdline s = .ok r s')
    (hr : r ≠ -1) : Books (fun _ => False) [] [] s' ∧ Keeps X s s' := by
  unfold spawnProcess at hx
  split_ifs at hx
  · exact absurd (pure_ok.mp hx).1.symm hr
  · obtain ⟨o, t, ho, hx⟩ := bind_ok.mp hx
    cases o with
    | none => exact absurd (pure_ok.mp hx).1.symm hr
    | some q =>
        replace hx := get_then hx
        obtain ⟨-, rfl⟩ := pure_ok.mp hx
        exact createProcess_books hs ho (by simp)

/-- The state in which `p` makes its call. -/
theorem Books.setCurrent (hs : Books U l fs s) (hrun : (s.procs p).state = .runnable) :
    Books U l fs { s with current := some p } where
  ino := hs.ino
  file := hs.file
  free := hs.free
  unused := hs.unused
  current := by
    intro q hq hu
    cases hq
    rw [hrun] at hu
    cases hu

theorem step_eq (hrun : (s.procs p).state = .runnable) :
    step p c s = handleSyscall c { s with current := some p } := by
  show (if (s.procs p).state = .runnable then _ else _ : Kern Int) s = _
  rw [if_pos hrun]
  rfl

theorem step_runnable (hx : step p c s = .ok r s') : (s.procs p).state = .runnable := by
  by_contra hrun
  change (if (s.procs p).state = .runnable then _ else throw .notRunnable : Kern Int) s = _ at hx
  rw [if_neg hrun] at hx
  cases hx

theorem step_books (hs : Books (fun _ => False) [] [] s) (hc : SpawnsReturn p c s)
    (hx : step p c s = .ok r s') :
    Books (fun _ => False) [] [] s' ∧ Keeps (Released p c s) s s' := by
  have hrun := step_runnable hx
  have hs' := hs.setCurrent hrun
  cases hspawn : c.isSpawn with
  | false =>
      rw [step_eq hrun] at hx
      obtain ⟨hb, hk⟩ := (BalancedAt.handleSyscall hs' rfl hrun hspawn).1 r s' hx
      exact ⟨hb, hk.keeps⟩
  | true =>
      have hr := hc hspawn
      rw [hx] at hr
      cases c with
      | spawn cmdline =>
          rw [step_eq hrun] at hx
          have h := spawnProcess_books (X := Released p (.spawn cmdline) s) hs' hx
            fun h => hr (congrArg some h)
          exact h
      | _ => cases hspawn

end Calls

/-! ## Boot -/

section Boot

theorem Books.coldState (d0 d1 : Device) : Books (fun _ => False) [] [] (coldState d0 d1) where
  ino := by
    intro i
    unfold refsTo fileRefs cwdRefs
    show (0 : Int) = Tally.count (fun _ => none) i + Tally.count (fun _ => none) i + 0
    rw [Tally.count_none, Tally.count_none]
    rfl
  file := by
    intro f
    have h : descRefs (Dmaos.coldState d0 d1) f = 0 :=
      Finset.sum_eq_zero fun q _ => Tally.count_none f
    rw [h]
    rfl
  free _ _ := rfl
  unused _ _ := Or.inr ⟨rfl, fun _ => rfl⟩
  current _ h := by cases h

theorem Books.readSuperblock {dev : Nat} (hs : Books (fun _ => False) [] [] s)
    (hx : readSuperblock dev s = .ok u s') : Books (fun _ => False) [] [] s' := by
  rw [readSuperblock_ok hx]
  exact ⟨hs.ino, hs.file, hs.free, hs.unused, hs.current⟩

theorem fsInit_books (hs : Books (fun _ => False) [] [] s)
    (hx : fsInit s = .ok u s') : Books (fun _ => False) [] [] s' := by
  obtain ⟨_, t₁, h₁, hx⟩ := bind_ok.mp hx
  have ht₁ := hs.readSuperblock h₁
  obtain ⟨_, t₂, h₂, hx⟩ := bind_ok.mp hx
  have ht₂ := ht₁.readSuperblock h₂
  obtain ⟨o, t, hn, hx⟩ := bind_ok.mp hx
  have ht := ((Balanced.of_nets (X := fun _ _ => False) Nets.namei t₂ ht₂).1 o t hn).1
  cases o with
  | none => cases hx
  | some ip =>
      replace hx := inodeAt_then hx
      obtain ⟨_, t₃, hm, hx⟩ := bind_ok.mp hx
      have ht₃ : Books (fun _ => False) [ip] [] t₃ := by
        rw [modify_ok.mp hm]
        exact ⟨ht.ino, ht.file, ht.free, ht.unused, ht.current⟩
      exact ((Balanced.iput (X := fun _ _ => False) t₃ ht₃).1 _ _ hx).1

/-- The idle process and the shell are always made. -/
theorem createProcess_ne_none
    (hprog : ∀ path, prog ≠ .named path) (hx : createProcess prog s = .ok o s') : o ≠ none := by
  obtain ⟨p, t, found, hm, ⟨-, rfl, -⟩ | ⟨rfl, -, -⟩⟩ := createProcess_ok hx
  · exact Option.some_ne_none p
  · obtain ⟨t₂, cwd, t₃, -, -, hl⟩ := hm.steps
    cases prog with
    | named path => exact absurd rfl (hprog path)
    | idle => exact absurd (pure_ok.mp hl).1 Bool.noConfusion
    | image => exact absurd (pure_ok.mp hl).1 Bool.noConfusion

theorem boot_books (hx : boot (coldState d0 d1) = .ok u s) : Books (fun _ => False) [] [] s := by
  obtain ⟨_, t, hi, hx⟩ := bind_ok.mp hx
  have ht := fsInit_books (Books.coldState d0 d1) hi
  obtain ⟨o, t₁, ho, hx⟩ := bind_ok.mp hx
  obtain ⟨ht₁, -⟩ := createProcess_books (X := fun _ _ => False) ht ho
    (createProcess_ne_none (fun _ h => by cases h) ho)
  cases o with
  | none => cases hx
  | some p =>
      replace hx := modify_then hx
      have hrun := (createProcess_some ho).2
      have ht₂ : Books (fun _ => False) [] [] (t₁.putProc p { t₁.procs p with pid := 0 }) :=
        ht₁.putProc (fun i => rfl) (fun f => rfl) fun h => by
          rw [show ({ t₁.procs p with pid := 0 } : Process).state = .runnable from hrun] at h
          cases h
      obtain ⟨o, t₃, ho, hx⟩ := bind_ok.mp hx
      obtain ⟨-, rfl⟩ := pure_ok.mp hx
      refine (createProcess_books (X := fun _ _ => False) (ht₂.setCurrent ?_) ho
        (createProcess_ne_none (fun _ h => by cases h) ho)).1
      simpa [putProc] using hrun

end Boot

/-! ## Runs -/

section Runs

/-- The reference counts are exact. -/
structure Exact (s : KState) : Prop where
  /-- The open files on a slot and the processes in its directory. -/
  ino : ∀ i, (s.inodeTable i).ref =
    (Finset.univ.filter fun f => (s.fileTable f).ref ≠ 0 ∧ (s.fileTable f).ip = some i).card +
    (Finset.univ.filter fun q => (s.procs q).state ≠ .unused ∧ (s.procs q).cwd = some i).card
  /-- The descriptors on an open file. -/
  file : ∀ f, (s.fileTable f).ref =
    (Finset.univ.filter fun h : Fin PROCS_MAX × Fin NUM_FILES_PER_PROCESS =>
      (s.procs h.1).ofile h.2 = some f).card

theorem Books.exact (h : Books (fun _ => False) [] [] s) : Exact s where
  ino := by
    intro i
    have hf : (Finset.univ.filter fun f => (s.fileTable f).ref ≠ 0 ∧ (s.fileTable f).ip = some i) =
        Finset.univ.filter fun f => (s.fileTable f).ip = some i := by
      ext f
      simp only [Finset.mem_filter, Finset.mem_univ, true_and, and_iff_right_iff_imp]
      intro hip h0
      rw [h.free f h0] at hip
      cases hip
    have hq : (Finset.univ.filter fun q => (s.procs q).state ≠ .unused ∧
        (s.procs q).cwd = some i) = Finset.univ.filter fun q => (s.procs q).cwd = some i := by
      ext q
      simp only [Finset.mem_filter, Finset.mem_univ, true_and, and_iff_right_iff_imp]
      intro hcwd hu
      rw [((h.unused q hu).resolve_left id).1] at hcwd
      cases hcwd
    rw [h.ino, hf, hq, ← Tally.count_eq_card, ← Tally.count_eq_card]
    unfold refsTo fileRefs cwdRefs
    simp
  file := by
    intro f
    rw [h.file, ← Tally.count_eq_card, List.count_nil, Nat.cast_zero, add_zero]
    exact Tally.sum_count (fun q => (s.procs q).ofile) f

/-- Along every run the books are right. -/
theorem Reached.books (h : Reached SpawnsReturn d0 d1 s) : Books (fun _ => False) [] [] s := by
  induction h with
  | boot run => exact boot_books run
  | step before cond run ih => exact (step_books ih cond run).1

end Runs

/-! ## Lost references -/

/-- The counts are right up to references that nothing gives back: those a failed
spawn has left in a slot of the process table, and those that were overwritten
there by the next one. -/
def Tallied (s : KState) : Prop := ∃ l fs, Books (fun _ => True) l fs s

section Lost

variable {P : Fin PROCS_MAX → Syscall → KState → Prop}

theorem Tallied.refs (h : Tallied s) : Refs [] s := by
  obtain ⟨l, fs, hb⟩ := h
  have hr : Refs (l ++ []) s := by rw [List.append_nil]; exact hb.refs
  exact hr.sub

theorem Tallied.setCurrent (h : Tallied s) (hrun : (s.procs p).state = .runnable) :
    Tallied { s with current := some p } := by
  obtain ⟨l, fs, hb⟩ := h
  exact ⟨l, fs, hb.setCurrent hrun⟩

theorem createProcess_tallied (h : Tallied s) (hx : createProcess prog s = .ok o s') :
    Tallied s' ∧ Minds (fun q _ => findProc s = some q) s s' := by
  obtain ⟨l, fs, hb⟩ := h
  obtain ⟨q, -, -, ⟨hq, -⟩, -⟩ := createProcess_ok hx
  obtain ⟨hb', hk⟩ := (BalancedAt.createProcess hb hq).1 _ _ hx
  have hX : (fun r (_ : Handle) => findProc s = some r) = fun r _ => r = q := by
    funext r _
    rw [hq, Option.some.injEq]
    exact propext eq_comm
  rw [hX]
  exact ⟨⟨_, _, hb'.mono fun _ _ => trivial⟩, hk⟩

/-- Every call keeps the books up to lost references, and the handles it does
not release. -/
theorem step_tallied (h : Tallied s) (hx : step p c s = .ok r s') :
    Tallied s' ∧
      Minds (fun q a => Released p c s q a ∨ c.isSpawn = true ∧ findProc s = some q) s s' := by
  have hrun := step_runnable hx
  obtain ⟨l, fs, hb⟩ := h
  have hb₁ := hb.setCurrent hrun
  rw [step_eq hrun] at hx
  cases hspawn : c.isSpawn with
  | false =>
      obtain ⟨hb', hk⟩ := (BalancedAt.handleSyscall hb₁ rfl hrun hspawn).1 r s' hx
      exact ⟨⟨l, fs, hb'⟩, hk.of_current.mono fun q a h => Or.inl h⟩
  | true =>
      cases c <;> cases hspawn
      next cmdline =>
      change spawnProcess cmdline.1 { s with current := some p } = _ at hx
      unfold spawnProcess at hx
      split_ifs at hx
      · obtain ⟨-, rfl⟩ := pure_ok.mp hx
        exact ⟨⟨l, fs, hb₁⟩, (Minds.refl _).of_current⟩
      · obtain ⟨o, t, ho, hx⟩ := bind_ok.mp hx
        obtain ⟨ht, hk⟩ := createProcess_tallied ⟨l, fs, hb₁⟩ ho
        obtain rfl : t = s' := by
          cases o with
          | none => exact (pure_ok.mp hx).2
          | some q =>
              replace hx := get_then hx
              exact (pure_ok.mp hx).2
        exact ⟨ht, hk.of_current.mono fun q a h => Or.inr ⟨rfl, h⟩⟩

theorem boot_tallied (hx : boot (coldState d0 d1) = .ok u s) : Tallied s :=
  ⟨[], [], (boot_books hx).mono fun _ _ => trivial⟩

theorem Reached.tallied (h : Reached P d0 d1 s) : Tallied s := by
  induction h with
  | boot run => exact boot_tallied run
  | step before cond run ih => exact (step_tallied ih run).1

end Lost

end Dmaos
