import Dmaos.Memory.Spawn

/-!
# Spawns that fail

`create_process` looks for the program after it has opened the console three times, has
taken a reference to the working directory, and has built a page table.  When the program
does not exist it gives back one page, the root of the table.

So a spawn that fails leaves no trace if and only if its command line is empty
(`spawn_fails_cleanly_iff`): otherwise the second-level tables stay marked, at least.  The
files of the console and the reference stay, too (`failed_spawn_leaves_trace`).
-/

namespace Dmaos

open Fault Machine Function

variable {R : Ram} {t1 addr va pa flags : Nat} {m : Mem} {prog : Exec} {p : Fin PROCS_MAX}

/-- The pages that are in use stay in use. -/
def KeepsPages (m m' : Mem) : Prop := ∀ i, m.allocated i = true → m'.allocated i = true

instance : IsPreorder Mem KeepsPages where
  refl _ _ h := h
  trans _ _ _ h₁ h₂ i h := h₂ i (h₁ i h)

namespace KeepsPages

theorem take (i : Nat) : KeepsPages m (m.take R i) := by
  intro j hj
  show update m.allocated i true j = true
  by_cases hji : j = i
  · rw [hji, update_self]
  · rw [update_of_ne hji, hj]

theorem allocPages : Within KeepsPages (allocPages R 1) := by
  refine .intro fun m => ?_
  rcases allocPages_one_cases R m with ⟨i, -, -, -, h⟩ | ⟨-, h⟩
  · rw [h]
    exact take i
  · rw [h]
    exact refl_of KeepsPages m

theorem store {word : Nat} : Within KeepsPages (Dmaos.store addr word) :=
  .intro fun _ _ h => h

theorem load : Within KeepsPages (Dmaos.load addr) :=
  .intro fun _ _ h => h

theorem tableFor : Within KeepsPages (tableFor R t1 va) :=
  .bind load fun _ => .ite .pure (.bind allocPages fun _ => .bind store fun _ =>
    .bind load fun _ => .pure)

theorem mapPage : Within KeepsPages (mapPage R t1 va pa flags) :=
  .ite (.throw trivial) (.ite (.throw trivial) (.bind tableFor fun _ => store))

theorem mapKernel : ∀ {n paddr : Nat}, Within KeepsPages (mapKernel R t1 n paddr)
  | 0, _ => .pure
  | _ + 1, _ => .bind mapPage fun _ => mapKernel

theorem mapDevices : Within KeepsPages (mapDevices R t1) :=
  .bind mapPage fun _ => .bind mapPage fun _ => mapPage

end KeepsPages

section Failed

variable {copy : ArgCopy} {m' : Mem} {s s' : Machine}

/-- The root of a new table is empty, so the first page that is mapped takes a page for a
second-level table. -/
theorem mapPage_takes {i : Nat} {u : Unit} (hva : va % PAGE_SIZE = 0) (hpa : pa % PAGE_SIZE = 0)
    (hrun : mapPage R (R.page i) va pa flags (m.take R i) = .ok u m') :
    ∃ j, j ≠ i ∧ m.allocated j = false ∧ m'.allocated j = true := by
  have hempty : hasFlag (entry1 (m.take R i).ram (R.page i) va) PAGE_V = false := by
    rw [entry1, Mem.take, le32_cleared (vpn1_lt va)]
    decide
  rcases mapPage_cases R (m.take R i) (R.page i) hva hpa flags with
    ⟨hval, -⟩ | ⟨-, j, -, hfree, hmap⟩ | ⟨-, -, hmap⟩
  · rw [hempty] at hval
    cases hval
  · rw [hmap] at hrun
    obtain ⟨-, rfl⟩ := EStateM.Result.ok.inj hrun
    have hji : j ≠ i := by
      rintro rfl
      simp [Mem.take] at hfree
    have hother : (m.take R i).allocated j = m.allocated j := update_of_ne hji ..
    exact ⟨j, hji, hother.symm.trans hfree, update_self ..⟩
  · rw [hmap] at hrun
    cases hrun

theorem kernelPages_pos (R : Ram) : 0 < kernelPages R := by
  have hbase := R.base_le
  simp only [kernelPages, Ram.stop, kernelBase, PAGE_SIZE, NUM_PAGES] at *
  omega

/-- A new page table has a second-level table at least. -/
theorem newTable_takes (hrun : newTable R m = .ok t1 m') :
    ∃ i j, i < NUM_PAGES ∧ t1 = R.page i ∧ j ≠ i ∧ m.allocated j = false ∧
      m'.allocated j = true := by
  obtain ⟨a, m₁, halloc, hrun⟩ := bind_ok.mp hrun
  obtain ⟨i, hi, -, -, rfl, rfl⟩ := allocPages_one_ok halloc
  obtain ⟨u, m₂, hkernel, hrun⟩ := bind_ok.mp hrun
  obtain ⟨u', m₃, hdevices, hrun⟩ := bind_ok.mp hrun
  obtain ⟨rfl, rfl⟩ := pure_ok.mp hrun
  obtain ⟨n, hn⟩ := Nat.exists_eq_succ_of_ne_zero (Nat.ne_of_gt (kernelPages_pos R))
  rw [hn] at hkernel
  obtain ⟨u'', m₄, hmap, hrest⟩ := bind_ok.mp hkernel
  obtain ⟨j, hji, hfree, hused⟩ := mapPage_takes (by decide) (by decide) hmap
  refine ⟨i, j, hi, rfl, hji, hfree, ?_⟩
  have h₂ := KeepsPages.mapKernel.of_ok hrest j hused
  exact KeepsPages.mapDevices.of_ok hdevices j h₂

/-- If the program does not exist, a page that was free is in use afterwards. -/
theorem createProcess_leaks (hrun : Machine.createProcess R copy prog s = .ok none s') :
    ∃ j, s.mem.allocated j = false ∧ s'.mem.allocated j = true := by
  obtain ⟨p, k₁, t1, m₁, -, -, htable, hcase⟩ := createProcess_steps hrun
  obtain ⟨i, j, hi, rfl, hji, hfree, hused⟩ := newTable_takes htable
  rcases hcase with ⟨-, k₂, m₂, -, hgive, rfl⟩ | ⟨hsome, -⟩
  · rw [freePages_page hi] at hgive
    obtain ⟨-, rfl⟩ := EStateM.Result.ok.inj hgive
    refine ⟨j, hfree, ?_⟩
    show update m₁.allocated i false j = true
    rw [update_of_ne hji]
    exact hused
  · cases hsome

/-- Nothing is left of a call: the pages, the files, the references to inodes and the
processes are as before. -/
structure NoTrace (s s' : Machine) : Prop where
  pages : s'.mem.allocated = s.mem.allocated
  files : s'.k.fileTable = s.k.fileTable
  refs : ∀ i, (s'.k.inodeTable i).ref = (s.k.inodeTable i).ref
  procs : s'.k.procs = s.k.procs

/-- A process that has been made has a number. -/
theorem createProcess_pid (hrun : Machine.createProcess R copy prog s = .ok (some p) s') :
    (s'.k.procs p).pid = (p : Nat) + 1 := by
  obtain ⟨q, k₁, t1, m₁, -, -, -, hcase⟩ := createProcess_steps hrun
  rcases hcase with ⟨hnone, -⟩ | ⟨hq, hstarts⟩
  · cases hnone
  · obtain rfl := Option.some.inj hq
    obtain ⟨src, size, k₂, last, s₃, k₄, sp, m₅, -, -, -, -, rfl⟩ := hstarts.steps
    show (update k₄.procs p _ p).pid = _
    rw [update_self]

/-- In every state, `spawn_process` returns -1 and leaves no trace if and only if the
command line has no words. -/
theorem spawn_fails_cleanly_iff (R : Ram) (cmdline : List Byte) (s : Machine) :
    (∃ s', Machine.spawnProcess R copyArguments cmdline s = .ok (-1) s' ∧ NoTrace s s') ↔
      argv cmdline = [] := by
  constructor
  · rintro ⟨s', hrun, htrace⟩
    rw [Machine.spawnProcess, ← argv] at hrun
    cases hwords : argv cmdline with
    | nil => rfl
    | cons name args =>
        exfalso
        simp only [hwords] at hrun
        obtain ⟨o, s₁, hcreate, hrun⟩ := bind_ok.mp hrun
        cases o with
        | none =>
            obtain ⟨-, rfl⟩ := pure_ok.mp hrun
            obtain ⟨j, hfree, hused⟩ := createProcess_leaks hcreate
            rw [htrace.pages, hfree] at hused
            cases hused
        | some p =>
            replace hrun := get_then hrun
            obtain ⟨hpid, rfl⟩ := pure_ok.mp hrun
            rw [createProcess_pid hcreate] at hpid
            omega
  · intro hwords
    refine ⟨s, ?_, rfl, rfl, fun _ => rfl, rfl⟩
    rw [Machine.spawnProcess, ← argv, hwords]
    rfl

/-- The steps of `create_process` for a program that does not exist. -/
theorem createProcess_run_none {k₁ k₂ : KState} {m₁ m₂ : Mem} (hp : findProc s.k = some p)
    (hprep : prepareProc prog.program p s.k = .ok () k₁) (htable : newTable R s.mem = .ok t1 m₁)
    (hopen : openProgram prog k₁ = .ok none k₂) (hgive : freePages R t1 1 m₁ = .ok () m₂) :
    Machine.createProcess R copy prog s = .ok none ⟨k₂, m₂, s.space⟩ := by
  have hget : (get : Mach Machine) s = .ok s s := rfl
  rw [Machine.createProcess, run_bind hget]
  simp only [hp]
  rw [run_bind (onKern_run hprep)]
  refine (run_bind (onMem_run (s := { s with k := k₁ }) htable)).trans ?_
  refine (run_bind (onKern_run (s := ⟨k₁, m₁, s.space⟩) hopen)).trans ?_
  refine (run_bind (onMem_run (s := ⟨k₂, m₁, s.space⟩) hgive)).trans ?_
  rfl

end Failed

/-- `"x"`, which names no program. -/
def unknownLine : CString := ⟨[0x78], by decide⟩

/-- What the file system sees of a spawn of `x` after boot. -/
theorem machine_kern_unknown : ∃ k, bootKern machine (coldState systemDisk emptyDisk)
      = .ok (0, PAGE_SIZE) k ∧ (k.procs 1).state = .runnable ∧
    ∃ k₁ k₂, findProc { k with current := some 1 } = some 2 ∧
      prepareProc (.named [0x78]) 2 { k with current := some 1 } = .ok () k₁ ∧
      openProgram (.named [0x78] []) k₁ = .ok none k₂ ∧
      (k.fileTable 3).ref = 0 ∧ (k₂.fileTable 3).ref = 1 ∧
      (k₂.inodeTable 0).ref = (k.inodeTable 0).ref + 1 := by
  have hrun : yields (bootKern machine) (fun x k => x == (0, PAGE_SIZE) &&
      (k.procs 1).state == .runnable && findProc { k with current := some 1 } == some 2 &&
      yields (prepareProc (.named [0x78]) 2) (fun _ k₁ =>
        yields (openProgram (.named [0x78] [])) (fun o k₂ => o.isNone &&
          decide ((k.fileTable 3).ref = 0 ∧ (k₂.fileTable 3).ref = 1 ∧
            (k₂.inodeTable 0).ref = (k.inodeTable 0).ref + 1)) k₁)
        { k with current := some 1 }) (coldState systemDisk emptyDisk) = true := by
    decide +kernel
  obtain ⟨x, k, hboot, hQ⟩ := exists_ok_of_yields hrun
  simp only [Bool.and_eq_true, beq_iff_eq] at hQ
  obtain ⟨⟨⟨rfl, hstate⟩, hfind⟩, hQ⟩ := hQ
  obtain ⟨u, k₁, hprep, hQ⟩ := exists_ok_of_yields hQ
  obtain ⟨o, k₂, hopen, hQ⟩ := exists_ok_of_yields hQ
  rw [Bool.and_eq_true, Option.isNone_iff_eq_none, decide_eq_true_eq] at hQ
  obtain ⟨rfl, hfacts⟩ := hQ
  exact ⟨k, hboot, hstate, k₁, k₂, hfind, hprep, hopen, hfacts⟩

/-- The shell starts a program that does not exist: the call returns -1, and a file of the
console and a reference to the root directory are left, which nobody will give back. -/
theorem failed_spawn_leaves_trace : ∃ s s',
    Machine.Reached Ram.megabyte copyArguments machine (fun _ _ _ _ => True) s ∧
      argv unknownLine.1 = [[0x78]] ∧
      programSize { s.k with current := some 1 } (argv unknownLine.1) = none ∧
      Machine.step Ram.megabyte copyArguments 1 (.call (.spawn unknownLine)) s = .ok (-1) s' ∧
      (s.k.fileTable 3).ref = 0 ∧ (s'.k.fileTable 3).ref = 1 ∧
      (s'.k.inodeTable 0).ref = (s.k.inodeTable 0).ref + 1 ∧ ¬ NoTrace s s' := by
  obtain ⟨k, hkern, hrunnable, k₁, k₂, hp, hprep, hopen, hfree, hused, href⟩ :=
    machine_kern_unknown
  obtain ⟨s, n, hboot, rfl, hup, hn⟩ := boot_upTo Ram.megabyte copyArguments
    hkern (Nat.zero_le _) le_rfl
  have hroom : n + 1025 ≤ NUM_PAGES := Nat.le_trans (Nat.add_le_add_right hn 1025) (by decide)
  obtain ⟨d, m, htable, -, -⟩ := newTable_upTo (R := Ram.megabyte) hup hroom
  have hgive : freePages Ram.megabyte (Ram.megabyte.page n) 1 m = .ok () (m.give n) :=
    freePages_page (by omega)
  have hwords : argv unknownLine.1 = [[0x78]] := by decide
  have hcreate : Machine.createProcess Ram.megabyte copyArguments (.named [0x78] [])
      { s with k := { s.k with current := some 1 } } = .ok none ⟨k₂, m.give n, s.space⟩ :=
    createProcess_run_none hp hprep htable hopen hgive
  refine ⟨s, ⟨k₂, m.give n, s.space⟩, .boot hboot, hwords, ?_, ?_, hfree, hused, href, ?_⟩
  · rw [hwords]
    simp only [programSize, hp, run_bind hprep, hopen]
  · rw [step_act hrunnable, act, Machine.spawnProcess, ← argv, hwords]
    exact run_bind hcreate
  · intro htrace
    have hfiles := congrArg (fun table => (table 3).ref) htrace.files
    rw [hused, hfree] at hfiles
    cases hfiles

end Dmaos
