import Dmaos.Memory.Boot

/-!
# The arguments of a new process

A spawn that returns a process number has loaded the program, and then stored the
arguments (`Image`).  No assumption is made on the memory it starts in: what is in use
can be seen as the kernel's.  So the pages of the image can be anywhere.

The arguments arrive, and nothing else is overwritten, exactly if they fit below the
end of the program in its last page.
-/

namespace Dmaos

open Fault Machine

variable {R : Ram} {s s' : Machine} {p : Fin PROCS_MAX} {ret : Int} {size last r : Nat} {m : Mem}
  {own : Roles} {line : List Byte}

/-- The program of process `p` has been loaded, with its last page at `last`, and its
arguments have been stored. -/
structure Image (R : Ram) (copy : ArgCopy) (words : List (List Byte)) (p : Fin PROCS_MAX)
    (size last r : Nat) (m : Mem) (own : Roles) (s' : Machine) : Prop where
  pages : Pages R m own
  root : own r = .root p
  last_page : size = 0 ∨ ∃ k, last = R.page k ∧ own k = .user p (0x1000 + (pagesUpTo size - 1))
  arguments : ∃ sp, placeArguments copy last size words m = .ok sp s'.mem ∧
    s'.space p = newSpace (R.page r) size sp words.length

section Image

variable {copy : ArgCopy} {cmdline : List Byte} {words : List (List Byte)}

theorem Starts.image {prog : Exec} {k₁ : KState} {m₀ m₁ : Mem} {own₀ own₁ : Roles}
    (h : Starts R copy prog p (R.page r) ⟨k₁, m₁, s.space⟩ s') (hpages : Pages R m₀ own₀)
    (hnone : ∀ r, own₀ r ≠ .root p) (hroot : Rooted R p r m₀ own₀ m₁ own₁) :
    (s'.k.procs p).pid = (p : Nat) + 1 ∧
      ∃ src size k₂ last m own, openProgram prog k₁ = .ok (some (src, size)) k₂ ∧
        Image R copy prog.argv p size last r m own s' := by
  obtain ⟨src, size, k₂, last, s₃, k₄, sp, m₅, hopen, hload, -, hargs, rfl⟩ := h.steps
  obtain ⟨own₃, hl⟩ := Rooted.loadPages_ok (s := ⟨k₂, m₁, s.space⟩) hroot
    (hpages.owner_ne hnone) hload
  refine ⟨congrArg Process.pid (putProc_self _), src, size, k₂, last, s₃.mem, own₃, hopen,
    hl.gained.pages, (hl.gained.root_iff r).mpr hroot.root, ?_, sp, hargs, Function.update_self ..⟩
  rcases hl.last_page with ⟨hle, -⟩ | hpage
  · refine .inl (Nat.eq_zero_of_not_pos fun hpos => ?_)
    exact Nat.not_lt.mpr hle (lt_pagesUpTo.mpr (by simpa using hpos))
  · exact .inr hpage

/-- What a spawn that succeeds has done. -/
theorem spawnProcess_image (hrun : Machine.spawnProcess R copy cmdline s = .ok ret s')
    (hret : ret ≠ -1) :
    ∃ (p : Fin PROCS_MAX) (size last r : Nat) (m : Mem) (own : Roles), ret = (p : Nat) + 1 ∧
      argv cmdline ≠ [] ∧ programSize s.k (argv cmdline) = some size ∧
      Image R copy (argv cmdline) p size last r m own s' := by
  rw [Machine.spawnProcess, ← argv] at hrun
  cases hwords : argv cmdline with
  | nil =>
      simp only [hwords] at hrun
      exact absurd (pure_ok.mp hrun).1.symm hret
  | cons name args =>
      simp only [hwords] at hrun
      obtain ⟨o, s₁, hcreate, hrun⟩ := bind_ok.mp hrun
      obtain ⟨p, k₁, t1, m₁, hp, hprep, htable, hend⟩ := createProcess_steps hcreate
      rcases hend with ⟨rfl, -⟩ | ⟨rfl, hstart⟩
      · exact absurd (pure_ok.mp hrun).1.symm hret
      · replace hrun := get_then hrun
        obtain ⟨rfl, rfl⟩ := pure_ok.mp hrun
        have hnone (r : Nat) : kernelRoles s.mem r ≠ .root p := by
          rcases kernelRoles_cases s.mem r with h | h <;> simp [h]
        obtain ⟨r, own₁, rfl, hroot⟩ := newTable_ok Pages.kernelOnly hnone htable
        obtain ⟨hpid, src, size, k₂, last, m, own, hopen, himage⟩ :=
          hstart.image Pages.kernelOnly hnone hroot
        refine ⟨p, size, last, r, m, own, hpid, by simp, ?_, himage⟩
        rw [Exec.program] at hprep
        simp only [programSize, hp, run_bind hprep, hopen]

/-- Arguments that fit leave the page tables alone. -/
theorem Image.settled_pages (h : Image R copyArguments words p size last r m own s')
    (hsize : 0 < size) (hfit : ArgsFit size words) : Pages R s'.mem own := by
  obtain ⟨k, rfl, hk⟩ := h.last_page.resolve_left (Nat.ne_of_gt hsize)
  obtain ⟨sp, hargs, -⟩ := h.arguments
  obtain ⟨hall, hram⟩ := placeArguments_ok (fun _ => hfit.confined) (.inr ⟨k, rfl⟩) hargs
  refine h.pages.frame (fun i hi _ => hram i fun heq => hi ?_) hall
  rw [Ram.page_inj heq, hk]
  trivial

/-- The last page of the image, as the table has it. -/
theorem Image.walk_last (h : Image R copy words p size last r m own s') (hsize : 0 < size) :
    ∃ flags, walk m.ram (R.page r) ((0x1000 + (pagesUpTo size - 1)) * PAGE_SIZE)
      = some (last, flags) := by
  obtain ⟨k, rfl, hk⟩ := h.last_page.resolve_left (Nat.ne_of_gt hsize)
  have hn := (h.pages.user_table hk).1
  have hnum (n : Nat) : n * PAGE_SIZE / PAGE_SIZE = n := Nat.mul_div_cancel _ (by decide)
  have hva : (0x1000 + (pagesUpTo size - 1)) * PAGE_SIZE < 2 ^ 32 := by
    simp only [PAGE_SIZE]
    omega
  rw [← hnum (0x1000 + (pagesUpTo size - 1))] at hk
  obtain ⟨flags, -, hwalk⟩ := h.pages.walk_user h.root hva hk
  exact ⟨_, hwalk⟩

end Image

/-! ## Command lines -/

section Lines

theorem argv_words (line : List Byte) : argv line = (wordsOf (line.take 127)).take 16 :=
  splitWords_eq ..

theorem argv_nul (h : 0 ∉ line) {w : List Byte} (hw : w ∈ argv line) : 0 ∉ w := by
  rw [argv_words] at hw
  intro h0
  obtain ⟨-, hmem⟩ := List.mem_words (List.mem_of_mem_take hw)
  exact h (List.mem_of_mem_take (hmem 0 h0).2)

theorem weight_argv_le (line : List Byte) : (argv line).weight ≤ 128 := by
  rw [argv_words]
  have hsub := (List.take_sublist 16 (wordsOf (line.take 127))).weight_le
  have hwords := List.weight_words_le (p := (· == 0x20)) (line.take 127)
  have hlen : (line.take 127).length ≤ 127 := by simp
  rw [wordsOf] at hsub ⊢
  omega

theorem length_argv_le (line : List Byte) : (argv line).length ≤ 16 := by
  rw [argv_words]
  simp

end Lines

/-! ## Arguments that arrive -/

/-- The program of process `p` gets its arguments: they are stored in the last page of
its image, and it finds the words. -/
structure Passed (s' : Machine) (p : Fin PROCS_MAX) (last size : Nat) (words : List (List Byte)) :
    Prop where
  /-- Whatever is in memory, nothing but this page is changed. -/
  inside : ∀ m sp m', copyArguments last size words m = .ok sp m' →
    ∀ a, m'.ram a ≠ m.ram a → last ≤ a ∧ a < last + PAGE_SIZE
  argc : (s'.space p).argc = words.length
  argv : ∃ t1, (s'.space p).pageTable = some t1 ∧
    ArgvAt s'.mem.ram t1 (s'.space p).userSp words

section Passed

variable {cmdline : CString}

/-- If the arguments do not fit, the kernel stores below the page. -/
theorem Image.not_inside
    (h : Image R copyArguments (argv line) p size last r m own s') (hsize : 0 < size)
    (hfit : ¬ ArgsFit size (argv line)) :
    ∃ m sp m', copyArguments last size (argv line) m = .ok sp m' ∧
      ∃ a < last, m'.ram a ≠ m.ram a := by
  obtain ⟨k, rfl, -⟩ := h.last_page.resolve_left (Nat.ne_of_gt hsize)
  refine not_confined_below (R.page_mod k) ?_ hfit
  have hweight := weight_argv_le line
  have hlen := length_argv_le line
  have hpage := R.le_page k
  have hbase := R.base_le
  simp only [kernelBase] at hbase
  omega

theorem Image.passed (h : Image R copyArguments (argv cmdline.1) p size last r m own s')
    (hsome : argv cmdline.1 ≠ []) (hsize : 0 < size) (hfit : ArgsFit size (argv cmdline.1)) :
    Passed s' p last size (argv cmdline.1) := by
  have hpages := h.settled_pages hsize hfit
  obtain ⟨k, rfl, hk⟩ := h.last_page.resolve_left (Nat.ne_of_gt hsize)
  obtain ⟨sp, hargs, hspace⟩ := h.arguments
  have hne : R.page k ≠ 0 := Nat.ne_of_gt (Nat.lt_of_lt_of_le R.pos (R.le_page k))
  rw [placeArguments, if_pos ⟨hsome, hne⟩] at hargs
  refine ⟨fun m₁ sp₁ m₁' hcopy a hne => ?_, by rw [hspace, newSpace], R.page r,
    by rw [hspace, newSpace], ?_⟩
  · obtain ⟨-, hram⟩ := hfit.confined _ _ _ _ (R.page_mod k) hcopy
    refine Classical.byContradiction fun hout => hne (hram a ?_)
    omega
  · rw [hspace, newSpace]
    exact hfit.argvAt hsize (fun w hw => argv_nul cmdline.2 hw) hpages h.root hk hargs

/-- After a successful spawn the arguments have been stored in the last page of the
image and are read back by the program exactly if they fit there. -/
theorem arguments_passed_iff (hrun : Machine.spawnProcess R copyArguments cmdline.1 s = .ok ret s')
    (hret : ret ≠ -1) :
    ∃ (p : Fin PROCS_MAX) (size last : Nat) (m : Mem), ret = (p : Nat) + 1 ∧
      programSize s.k (argv cmdline.1) = some size ∧
      placeArguments copyArguments last size (argv cmdline.1) m = .ok (s'.space p).userSp s'.mem ∧
      (0 < size →
        (∃ t1 flags, (s'.space p).pageTable = some t1 ∧
          walk m.ram t1 (USER_BASE + (pagesUpTo size - 1) * PAGE_SIZE) = some (last, flags)) ∧
        (Passed s' p last size ((wordsOf (cmdline.1.take 127)).take 16) ↔
          ArgsFit size ((wordsOf (cmdline.1.take 127)).take 16))) := by
  obtain ⟨p, size, last, r, m, own, hpid, hsome, hfound, himage⟩ := spawnProcess_image hrun hret
  obtain ⟨sp, hargs, hspace⟩ := himage.arguments
  refine ⟨p, size, last, m, hpid, hfound, ?_, fun hsize => ⟨?_, ?_⟩⟩
  · rw [hspace, newSpace]
    exact hargs
  · obtain ⟨flags, hwalk⟩ := himage.walk_last hsize
    refine ⟨R.page r, flags, by rw [hspace, newSpace], ?_⟩
    rw [← hwalk, Nat.add_mul]
    rfl
  · rw [← argv_words]
    refine ⟨fun hpassed => ?_, himage.passed hsome hsize⟩
    refine Decidable.byContradiction fun hfit => ?_
    obtain ⟨m₁, sp₁, m₁', hcopy, a, hlt, hne⟩ := himage.not_inside hsize hfit
    exact Nat.not_le.mpr hlt (hpassed.inside m₁ sp₁ m₁' hcopy a hne).1

/-- A short argument arrives. -/
theorem arguments_passed_short : ∃ (s s' : Machine) (last : Nat),
    Machine.spawnProcess Ram.megabyte copyArguments shortLine.1 s = .ok 3 s' ∧
      programSize s.k (argv shortLine.1) = some 96 ∧
      Passed s' 2 last 96 ((wordsOf (shortLine.1.take 127)).take 16) := by
  have hwords : argv shortLine.1 = [slash] :: [[0x61]] := by decide
  obtain ⟨s, n, d, m, sp, b, k, -, hrunnable, -, -, -, -, -, hfound, -, -, hstep⟩ :=
    machine_spawns Ram.megabyte hwords (storable_copyArguments (by decide))
  rw [step_act hrunnable, act] at hstep
  obtain ⟨p, size, last, m₁, hpid, hsize, -, hiff⟩ := arguments_passed_iff hstep (by decide)
  rw [hfound] at hsize
  obtain rfl := Option.some.inj hsize
  obtain rfl : p = 2 := Fin.ext (show (p : Nat) = 2 by omega)
  have hfit : ArgsFit 96 ((wordsOf (shortLine.1.take 127)).take 16) := by
    rw [← argv_words, hwords]
    decide
  exact ⟨_, _, last, hstep, hfound, ((hiff (by decide)).2).mpr hfit⟩

/-- An argument of 100 bytes is stored below the image. -/
theorem arguments_overwrite : ∃ (s s' : Machine) (last : Nat) (m : Mem),
    Machine.Reached Ram.megabyte copyArguments machine (fun _ _ _ _ => True) s ∧
      Machine.step Ram.megabyte copyArguments 1 (.call (.spawn longLine)) s = .ok 3 s' ∧
      programSize { s.k with current := some 1 } (argv longLine.1) = some 96 ∧
      placeArguments copyArguments last 96 (argv longLine.1) m = .ok (s'.space 2).userSp s'.mem ∧
      ¬ Passed s' 2 last 96 ((wordsOf (longLine.1.take 127)).take 16) := by
  have hwords : argv longLine.1 = [slash] :: [List.replicate 100 0x37] := by decide
  obtain ⟨s, n, d, m, sp, b, k, hboot, hrunnable, -, -, -, -, -, hfound, -, -, hstep⟩ :=
    machine_spawns Ram.megabyte hwords (storable_copyArguments (by decide))
  have hspawn := hstep
  rw [step_act hrunnable, act] at hspawn
  obtain ⟨p, size, last, r, m₁, own, hpid, -, hsize, himage⟩ :=
    spawnProcess_image hspawn (by decide)
  rw [hfound] at hsize
  obtain rfl := Option.some.inj hsize
  obtain rfl : p = 2 := Fin.ext (show (p : Nat) = 2 by omega)
  obtain ⟨sp₁, hargs, hspace⟩ := himage.arguments
  refine ⟨s, _, last, m₁, .boot hboot, hstep, hfound, ?_, fun hpassed => ?_⟩
  · rw [hspace, newSpace]
    exact hargs
  · have hfit : ¬ ArgsFit 96 (argv longLine.1) := by
      rw [hwords]
      decide
    obtain ⟨m₂, sp₂, m₂', hcopy, a, hlt, hne⟩ := himage.not_inside (by decide) hfit
    rw [← argv_words] at hpassed
    exact Nat.not_le.mpr hlt (hpassed.inside m₂ sp₂ m₂' hcopy a hne).1

end Passed

end Dmaos
