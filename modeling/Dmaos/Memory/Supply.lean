import Mathlib.Data.Finset.Card
import Mathlib.Order.Interval.Finset.Nat
import Dmaos.Memory.Heap

/-!
# How many pages are needed

The allocator gives out single pages, so all that matters is how many are free.
Mapping a page takes one more when the second-level table for it is missing.  Both
numbers change together: with every page taken for a table one table less is
missing (`Counted`).  So it can be told in advance whether there are enough.

When there are not, `alloc_pages` stops the kernel.  It does not return 0, so the
branch of `sbrk` for that case is never taken.
-/

namespace Dmaos

open Fault Machine

variable {R : Ram} {m m' : Mem} {t1 v : Nat} {V : Finset Nat} {b c : Buf}

/-- The number of free pages. -/
def Mem.freeLeft (m : Mem) : Nat :=
  ((Finset.range NUM_PAGES).filter fun i => m.allocated i = false).card

/-- The number of second-level tables with numbers in `V` that are missing. -/
def missingTables (b : Buf) (t1 : Nat) (V : Finset Nat) : Nat :=
  (V.filter fun v => hasFlag (b.le32 (t1 + 4 * v)) PAGE_V = false).card

section Counts

variable {va pa flags i : Nat}

theorem Mem.freeLeft_congr (h : m'.allocated = m.allocated) : m'.freeLeft = m.freeLeft := by
  simp only [Mem.freeLeft, h]

/-- A free page is taken. -/
theorem Mem.freeLeft_take (hi : i < NUM_PAGES) (hfree : m.allocated i = false)
    (hall : m'.allocated = Function.update m.allocated i true) : m'.freeLeft + 1 = m.freeLeft := by
  have hset : (Finset.range NUM_PAGES).filter (fun j => m'.allocated j = false)
      = ((Finset.range NUM_PAGES).filter fun j => m.allocated j = false).erase i := by
    ext j
    cases Decidable.em (j = i) with
    | inl hji => simp [hall, hji]
    | inr hji => simp [hall, hji]
  rw [Mem.freeLeft, Mem.freeLeft, hset]
  exact Finset.card_erase_add_one (by simp [hi, hfree])

theorem Mem.freeLeft_lt (hi : i < NUM_PAGES) (hused : m.allocated i = true) :
    m.freeLeft < NUM_PAGES := by
  have hsub : (Finset.range NUM_PAGES).filter (fun j => m.allocated j = false)
      ⊂ Finset.range NUM_PAGES :=
    Finset.filter_ssubset.mpr ⟨i, Finset.mem_range.mpr hi, by simp [hused]⟩
  have hcard := Finset.card_lt_card hsub
  rwa [Finset.card_range] at hcard

theorem Mem.freeLeft_eq_zero (h : ∀ i < NUM_PAGES, m.allocated i = true) : m.freeLeft = 0 := by
  refine Finset.card_eq_zero.mpr (Finset.filter_eq_empty_iff.mpr fun i hi => ?_)
  simp [h i (Finset.mem_range.mp hi)]

theorem missingTables_congr (h : ∀ v ∈ V, c.le32 (t1 + 4 * v) = b.le32 (t1 + 4 * v)) :
    missingTables c t1 V = missingTables b t1 V := by
  refine congrArg Finset.card (Finset.filter_congr fun v hv => ?_)
  rw [h v hv]

theorem missingTables_le (b : Buf) (t1 : Nat) (V : Finset Nat) : missingTables b t1 V ≤ V.card :=
  Finset.card_filter_le ..

/-- A table is added. -/
theorem missingTables_add (hv : v ∈ V) (hold : hasFlag (b.le32 (t1 + 4 * v)) PAGE_V = false)
    (hnew : hasFlag (c.le32 (t1 + 4 * v)) PAGE_V = true)
    (h : ∀ w ∈ V, w ≠ v → c.le32 (t1 + 4 * w) = b.le32 (t1 + 4 * w)) :
    missingTables c t1 V + 1 = missingTables b t1 V := by
  have hset : V.filter (fun w => hasFlag (c.le32 (t1 + 4 * w)) PAGE_V = false)
      = (V.filter fun w => hasFlag (b.le32 (t1 + 4 * w)) PAGE_V = false).erase v := by
    ext w
    cases Decidable.em (w = v) with
    | inl hwv => simp [hwv, hnew]
    | inr hwv =>
        simp only [Finset.mem_filter, Finset.mem_erase, ne_eq, hwv, not_false_eq_true, true_and]
        exact and_congr_right fun hw => by rw [h w hw hwv]
  rw [missingTables, missingTables, hset]
  exact Finset.card_erase_add_one (by simp [hv, hold])

/-- The table is in order, and the pages that are gone are accounted for: `n` of them
have been used for something else than tables. -/
structure Counted (R : Ram) (t1 : Nat) (V : Finset Nat) (n : Nat) (m m' : Mem) : Prop where
  table : TwoLevel R m' t1
  count : m'.freeLeft + missingTables m.ram t1 V + n = m.freeLeft + missingTables m'.ram t1 V
  valid : ∀ v ∈ V, hasFlag (m.ram.le32 (t1 + 4 * v)) PAGE_V = true →
    hasFlag (m'.ram.le32 (t1 + 4 * v)) PAGE_V = true

namespace Counted

variable {m'' : Mem} {n n' c : Nat}

theorem refl (h : TwoLevel R m t1) : Counted R t1 V 0 m m :=
  ⟨h, Nat.add_zero _, fun _ _ h => h⟩

theorem trans (h : Counted R t1 V n m m') (h' : Counted R t1 V n' m' m'') :
    Counted R t1 V (n + n') m m'' where
  table := h'.table
  count := by
    have h1 := h.count
    have h2 := h'.count
    omega
  valid v hv hval := h'.valid v hv (h.valid v hv hval)

/-- What is left is enough for what was planned. -/
theorem enough (h : Counted R t1 V n m m') (hm : missingTables m.ram t1 V + (n + c) ≤ m.freeLeft) :
    missingTables m'.ram t1 V + c ≤ m'.freeLeft := by
  have := h.count
  omega

/-- The words of the root and the free pages are the same. -/
theorem of_same (h : TwoLevel R m t1) (hV : ∀ v ∈ V, v < 1024)
    (hroot : ∀ v < 1024, m'.ram.le32 (t1 + 4 * v) = m.ram.le32 (t1 + 4 * v))
    (hall : m'.allocated = m.allocated) : Counted R t1 V 0 m m' where
  table := h.of_root hroot fun _ hused => hused.of_allocated hall
  count := by
    rw [Mem.freeLeft_congr hall, missingTables_congr fun v hv => hroot v (hV v hv), Nat.add_zero]
  valid v hv hval := by rwa [hroot v (hV v hv)]

/-- A page is taken. -/
theorem take (h : TwoLevel R m t1) (hV : ∀ v ∈ V, v < 1024) (hi : i < NUM_PAGES)
    (hfree : m.allocated i = false) : Counted R t1 V 1 m (m.take R i) := by
  have hroot (v : Nat) (hv : v < 1024) :
      (m.take R i).ram.le32 (t1 + 4 * v) = m.ram.le32 (t1 + 4 * v) :=
    le32_cleared_of_ne h.aligned (R.page_mod i) hv (h.used.ne hi hfree)
  have hcount : (m.take R i).freeLeft + 1 = m.freeLeft := Mem.freeLeft_take hi hfree rfl
  refine ⟨h.of_root hroot fun _ hused => hused.take i, ?_, fun v hv hval => ?_⟩
  · rw [missingTables_congr fun v hv => hroot v (hV v hv)]
    omega
  · rwa [hroot v (hV v hv)]

/-- A page is mapped. -/
theorem mapPage {u : Unit} (h : TwoLevel R m t1) (hV : ∀ v ∈ V, v < 1024) (hva : va % PAGE_SIZE = 0)
    (hpa : pa % PAGE_SIZE = 0) (hmem : vpn1 va ∈ V) (hrun : mapPage R t1 va pa flags m = .ok u m') :
    Counted R t1 V 0 m m' ∧ hasFlag (m'.ram.le32 (t1 + 4 * vpn1 va)) PAGE_V = true := by
  rcases mapPage_cases R m t1 hva hpa flags with ⟨hval, hok⟩ | ⟨hval, i, hi, hfree, hok⟩ |
    ⟨-, -, hno⟩
  · rw [hok] at hrun
    obtain ⟨-, rfl⟩ := EStateM.Result.ok.inj hrun
    refine ⟨.of_same h hV (fun v hv => setEntry_root h hval hv) rfl, ?_⟩
    rw [setEntry_root h hval (vpn1_lt va)]
    exact hval
  · rw [hok] at hrun
    obtain ⟨-, rfl⟩ := EStateM.Result.ok.inj hrun
    have htable : TwoLevel R (m.addTable R t1 va i) t1 := h.addTable hi hfree
    have hval' : hasFlag (entry1 (m.addTable R t1 va i).ram t1 va) PAGE_V = true := by
      rw [entry1, addTable_root_self hi, hasFlag_pte_valid]
    have hset := of_same htable hV
      (fun v hv => setEntry_root htable hval' (e := pte pa flags) hv) rfl
    have hroot (w : Nat) (hw : w ∈ V) (hne : w ≠ vpn1 va) :
        (m.addTable R t1 va i).ram.le32 (t1 + 4 * w) = m.ram.le32 (t1 + 4 * w) := by
      rw [addTable_root h hi hfree (hV w hw), if_neg hne]
    have hadd : Counted R t1 V 0 m (m.addTable R t1 va i) := by
      refine ⟨htable, ?_, fun v hv hold => ?_⟩
      · have hfreed : (m.addTable R t1 va i).freeLeft + 1 = m.freeLeft :=
          Mem.freeLeft_take hi hfree rfl
        have hmissing := missingTables_add hmem hval hval' hroot
        omega
      · cases Decidable.em (v = vpn1 va) with
        | inl heq =>
            rw [heq]
            exact hval'
        | inr hne => rwa [hroot v hv hne]
    exact ⟨hadd.trans hset, hset.valid _ hmem hval'⟩
  · rw [hno] at hrun
    cases hrun

end Counted

/-- While there are pages for the missing tables, a page can be mapped. -/
theorem mapPage_returns (R : Ram) (flags : Nat) (hva : va % PAGE_SIZE = 0)
    (hpa : pa % PAGE_SIZE = 0) (hmem : vpn1 va ∈ V)
    (henough : missingTables m.ram t1 V ≤ m.freeLeft) :
    ∃ m', mapPage R t1 va pa flags m = .ok () m' := by
  rcases mapPage_cases R m t1 hva hpa flags with ⟨-, hok⟩ | ⟨-, i, -, -, hok⟩ | ⟨hval, hall, -⟩
  · exact ⟨_, hok⟩
  · exact ⟨_, hok⟩
  · have hpos : 0 < missingTables m.ram t1 V :=
      Finset.card_pos.mpr ⟨vpn1 va, Finset.mem_filter.mpr ⟨hmem, hval⟩⟩
    rw [Mem.freeLeft_eq_zero hall] at henough
    omega

theorem allocPages_one_returns (h : 0 < m.freeLeft) :
    ∃ i < NUM_PAGES, m.allocated i = false ∧ allocPages R 1 m = .ok (R.page i) (m.take R i) := by
  rcases allocPages_one_cases R m with ⟨i, hi, hfree, -, hok⟩ | ⟨hall, -⟩
  · exact ⟨i, hi, hfree, hok⟩
  · rw [Mem.freeLeft_eq_zero hall] at h
    exact absurd h (Nat.lt_irrefl 0)

end Counts

/-! ## The heap -/

/-- The tables for `c` pages from number `lo` on. -/
def tablesFor (lo c : Nat) : Finset Nat := (Finset.Ico lo (lo + c)).image (· / 1024)

section Heap

variable {lo c : Nat}

theorem tablesFor_lt (h : lo + c ≤ 2 ^ 20) (hv : v ∈ tablesFor lo c) : v < 1024 := by
  obtain ⟨n, hn, rfl⟩ := Finset.mem_image.mp hv
  have := Finset.mem_Ico.mp hn
  omega

theorem first_mem_tablesFor (lo c : Nat) : lo / 1024 ∈ tablesFor lo (c + 1) :=
  Finset.mem_image.mpr ⟨lo, by simp, rfl⟩

theorem tablesFor_succ (lo c : Nat) : tablesFor (lo + 1) c ⊆ tablesFor lo (c + 1) := by
  refine Finset.image_subset_image fun n hn => ?_
  have := Finset.mem_Ico.mp hn
  exact Finset.mem_Ico.mpr (by omega)

/-- The loop that adds pages takes what it needs: a page each, and the tables. -/
theorem addPages_counted {b : Bool} (h : TwoLevel R m t1) (hV : ∀ v ∈ V, v < 1024)
    (hhi : lo + c ≤ 2 ^ 20) (hsub : tablesFor lo c ⊆ V)
    (hrun : addPages R t1 c (lo * PAGE_SIZE) m = .ok b m') :
    Counted R t1 V c m m' ∧
      ∀ v ∈ tablesFor lo c, hasFlag (m'.ram.le32 (t1 + 4 * v)) PAGE_V = true := by
  induction c generalizing lo m with
  | zero =>
      obtain ⟨-, rfl⟩ := pure_ok.mp hrun
      exact ⟨.refl h, fun v hv => by simp [tablesFor] at hv⟩
  | succ c ih =>
      have hfirst := hsub (first_mem_tablesFor lo c)
      obtain ⟨a, m₁, halloc, hrun⟩ := bind_ok.mp hrun
      obtain ⟨i, hi, hfree, -, rfl, rfl⟩ := allocPages_one_ok halloc
      have hpos : R.page i ≠ 0 := Nat.ne_of_gt (Nat.lt_of_lt_of_le R.pos (R.le_page i))
      rw [if_neg hpos] at hrun
      obtain ⟨u, m₂, hmap, hrun⟩ := bind_ok.mp hrun
      have htake := Counted.take h hV hi hfree
      have hvpn : vpn1 (lo * PAGE_SIZE) = lo / 1024 := Pages.vpn1_page (by omega)
      obtain ⟨hmapped, hval⟩ := Counted.mapPage htake.table hV (Nat.mul_mod_left ..) (R.page_mod i)
        (by rw [hvpn]; exact hfirst) hmap
      rw [← Nat.succ_mul] at hrun
      obtain ⟨hcounted, hvalid⟩ := ih hmapped.table (by omega)
        ((tablesFor_succ lo c).trans hsub) hrun
      refine ⟨?_, fun v hv => ?_⟩
      · have hall := (htake.trans hmapped).trans hcounted
        rwa [show 1 + 0 + c = c + 1 by omega] at hall
      · obtain ⟨n, hn, rfl⟩ := Finset.mem_image.mp hv
        have hn' := Finset.mem_Ico.mp hn
        rcases Nat.eq_or_lt_of_le hn'.1 with rfl | hlt
        · rw [hvpn] at hval
          exact hcounted.valid _ hfirst hval
        · exact hvalid _ (Finset.mem_image.mpr ⟨n, Finset.mem_Ico.mpr (by omega), rfl⟩)

/-- The loop returns, or there is no page left and the kernel stops. -/
theorem addPages_cases (R : Ram) (m : Mem) (t1 lo c : Nat) :
    (∃ m', addPages R t1 c (lo * PAGE_SIZE) m = .ok true m') ∨
      ∃ m', addPages R t1 c (lo * PAGE_SIZE) m = .error (.pages 1) m' := by
  induction c generalizing lo m with
  | zero => exact .inl ⟨m, rfl⟩
  | succ c ih =>
      rw [addPages]
      rcases allocPages_one_cases R m with ⟨i, -, -, -, hok⟩ | ⟨-, hno⟩
      · have hpos : R.page i ≠ 0 := Nat.ne_of_gt (Nat.lt_of_lt_of_le R.pos (R.le_page i))
        rw [run_bind hok, if_neg hpos]
        rcases mapPage_cases R (m.take R i) t1 (Nat.mul_mod_left lo PAGE_SIZE) (R.page_mod i)
          (PAGE_U ||| PAGE_R ||| PAGE_W) with ⟨-, hmap⟩ | ⟨-, j, -, -, hmap⟩ | ⟨-, -, hmap⟩
        · rw [run_bind hmap, ← Nat.succ_mul]
          exact ih _ _
        · rw [run_bind hmap, ← Nat.succ_mul]
          exact ih _ _
        · exact .inr ⟨_, run_bind_error hmap⟩
      · exact .inr ⟨_, run_bind_error hno⟩

/-- With enough pages the loop returns. -/
theorem addPages_returns (h : TwoLevel R m t1) (hV : ∀ v ∈ V, v < 1024) (hhi : lo + c ≤ 2 ^ 20)
    (hsub : tablesFor lo c ⊆ V) (henough : missingTables m.ram t1 V + c ≤ m.freeLeft) :
    ∃ m', addPages R t1 c (lo * PAGE_SIZE) m = .ok true m' := by
  induction c generalizing lo m with
  | zero => exact ⟨m, rfl⟩
  | succ c ih =>
      obtain ⟨i, hi, hfree, halloc⟩ := allocPages_one_returns (R := R) (m := m) (by omega)
      have hpos : R.page i ≠ 0 := Nat.ne_of_gt (Nat.lt_of_lt_of_le R.pos (R.le_page i))
      have htake := Counted.take h hV hi hfree
      have henough₁ : missingTables (m.take R i).ram t1 V + c ≤ (m.take R i).freeLeft :=
        htake.enough (by omega)
      have henough₂ : missingTables (m.take R i).ram t1 V ≤ (m.take R i).freeLeft := by omega
      have hmem : vpn1 (lo * PAGE_SIZE) ∈ V := by
        rw [Pages.vpn1_page (by omega)]
        exact hsub (first_mem_tablesFor lo c)
      obtain ⟨m₂, hmap⟩ := mapPage_returns R (PAGE_U ||| PAGE_R ||| PAGE_W)
        (Nat.mul_mod_left lo PAGE_SIZE) (R.page_mod i) hmem henough₂
      obtain ⟨hmapped, -⟩ := Counted.mapPage htake.table hV (Nat.mul_mod_left ..) (R.page_mod i)
        hmem hmap
      obtain ⟨m', hrun⟩ := ih hmapped.table (by omega) ((tablesFor_succ lo c).trans hsub)
        (hmapped.enough (by omega))
      refine ⟨m', ?_⟩
      rw [addPages, run_bind halloc, if_neg hpos, run_bind hmap, ← Nat.succ_mul]
      exact hrun

/-- The loop returns exactly if there are pages enough. -/
theorem addPages_returns_iff (h : TwoLevel R m t1) (hhi : lo + c ≤ 2 ^ 20) :
    (∃ m', addPages R t1 c (lo * PAGE_SIZE) m = .ok true m') ↔
      missingTables m.ram t1 (tablesFor lo c) + c ≤ m.freeLeft := by
  have hV (v : Nat) (hv : v ∈ tablesFor lo c) : v < 1024 := tablesFor_lt hhi hv
  constructor
  · rintro ⟨m', hrun⟩
    obtain ⟨hcounted, hvalid⟩ := addPages_counted h hV hhi subset_rfl hrun
    have hnone : missingTables m'.ram t1 (tablesFor lo c) = 0 := by
      refine Finset.card_eq_zero.mpr (Finset.filter_eq_empty_iff.mpr fun v hv => ?_)
      simp [hvalid v hv]
    have := hcounted.count
    omega
  · exact fun henough => addPages_returns h hV hhi subset_rfl henough

end Heap

/-! ## The table of a process -/

section Table

variable {own : Roles} {p : Fin PROCS_MAX} {r : Nat}

/-- An entry in use names a table of the process. -/
theorem Pages.branch_valid (h : Pages R m own) (hr : own r = .root p) (hv : v < 1024)
    (hval : hasFlag (m.ram.le32 (R.page r + 4 * v)) PAGE_V = true) :
    ∃ i, own i = .table p v ∧ m.ram.le32 (R.page r + 4 * v) = pte (R.page i) 0 ∧
      pteAddr (m.ram.le32 (R.page r + 4 * v)) = R.page i := by
  have hbranch := h.root hr v hv
  generalize m.ram.le32 (R.page r + 4 * v) = e at hbranch hval
  cases hbranch with
  | none _ => simp at hval
  | table i hi =>
      have hlt : i < NUM_PAGES := h.lt (by simp [hi])
      exact ⟨i, hi, rfl, pteAddr_pte (Ram.page_lt_word hlt) (R.page_mod i) (by decide)⟩

theorem Pages.used (h : Pages R m own) (hr : own r ≠ .free) : Used R m (R.page r) := by
  intro i hi heq
  rw [h.allocated_iff hi, ← Ram.page_inj heq]
  exact hr

/-- The table of a process is in order. -/
theorem Pages.twoLevel (h : Pages R m own) (hr : own r = .root p) : TwoLevel R m (R.page r) where
  aligned := R.page_mod r
  used := h.used (by simp [hr])
  pointer v hv hval := by
    obtain ⟨i, -, hentry, -⟩ := h.branch_valid hr hv hval
    rw [hentry]
    exact hasFlag_pte_pointer _
  ne_root v hv hval := by
    obtain ⟨i, hi, -, haddr⟩ := h.branch_valid hr hv hval
    rw [haddr]
    intro heq
    rw [Ram.page_inj heq, hr] at hi
    cases hi
  table_used v hv hval := by
    obtain ⟨i, hi, -, haddr⟩ := h.branch_valid hr hv hval
    rw [haddr]
    exact h.used (by simp [hi])
  distinct v hv w hw hval hval' heq := by
    obtain ⟨i, hi, -, haddr⟩ := h.branch_valid hr hv hval
    obtain ⟨j, hj, -, haddr'⟩ := h.branch_valid hr hw hval'
    rw [haddr, haddr'] at heq
    rw [Ram.page_inj heq, hj] at hi
    cases hi
    rfl

end Table

end Dmaos
