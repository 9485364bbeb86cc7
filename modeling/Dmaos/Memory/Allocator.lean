import Mathlib.Data.List.Pairwise
import Dmaos.Memory.Table

/-!
# The allocator of physical pages

`alloc_pages` and `free_pages` with their loops, as they stand in `page.c`: indices are
32-bit numbers, and an access to `page_allocated` outside of the array stops the
machine.  For counts of pages that the callers use no access is outside, and the loops
do what `allocPages` and `freePages` say (`allocPagesLoop_eq`, `freePagesLoop_eq`).

Over any history of calls the flags say which pages have been handed out and not been
given back (`Outstanding`).
-/

namespace Dmaos

open Fault Function

variable {R : Ram} {m : Mem} {i n j : Nat} {b : Bool} {out : List Span}

/-! ## The loops -/

/-- Why a call of the allocator did not return. -/
inductive PageFault where
  /-- `page_allocated` has no element `i`. -/
  | outOfBounds (i : Nat)
  /-- `PANIC`. -/
  | crash (e : Crash)
deriving DecidableEq

/-- Code that works on `page_allocated`. -/
abbrev Pa := EStateM PageFault Mem

/-- Read `page_allocated[i]`. -/
def pageAllocated (i : Nat) : Pa Bool := fun m =>
  if i < NUM_PAGES then .ok (m.allocated i) m else .error (.outOfBounds i) m

/-- `page_allocated[i] = b`. -/
def setPageAllocated (i : Nat) (b : Bool) : Pa Unit := fun m =>
  if i < NUM_PAGES then .ok () { m with allocated := update m.allocated i b }
  else .error (.outOfBounds i) m

/-- The first inner loop of `alloc_pages`, with `k` turns left: `found`. -/
def foundLoop (i : Nat) : Nat → Nat → Pa Bool
  | 0, _ => return true
  | k + 1, j => do
    if ← pageAllocated ((i + j) % 2 ^ 32) then return false
    else foundLoop i k (j + 1)

/-- The loops that set or clear flags, with `k` turns left. -/
def markLoop (i : Nat) (b : Bool) : Nat → Nat → Pa Unit
  | 0, _ => return ()
  | k + 1, j => do
    setPageAllocated ((i + j) % 2 ^ 32) b
    markLoop i b k (j + 1)

/-- The outer loop of `alloc_pages`, with `k` turns left.  The bound is a difference of
unsigned numbers.  `NUM_PAGES + 1` turns are enough for every `n`: with `i = NUM_PAGES`
the loop ends, finds an empty run or leaves the array. -/
def searchLoop (n : Nat) : Nat → Nat → Pa (Option Nat)
  | 0, _ => return none
  | k + 1, i => do
    if i ≤ (NUM_PAGES + 2 ^ 32 - n) % 2 ^ 32 then
      if ← foundLoop i n 0 then return some i
      else searchLoop n k ((i + 1) % 2 ^ 32)
    else return none

/-- `alloc_pages`. -/
def allocPagesLoop (R : Ram) (n : Nat) : Pa Nat := do
  match ← searchLoop n (NUM_PAGES + 1) 0 with
  | none => throw (.crash (.pages n))
  | some i =>
    markLoop i true n 0
    let paddr := (R.start + i * PAGE_SIZE) % 2 ^ 32
    modify fun m => { m with ram := m.ram.copy paddr Buf.zero (n * PAGE_SIZE % 2 ^ 32) }
    return paddr

/-- `free_pages`. -/
def freePagesLoop (R : Ram) (paddr n : Nat) : Pa Unit := do
  if paddr < R.start ∨ R.stop ≤ paddr then throw (.crash (.freePages paddr))
  else
    let start := (paddr - R.start) / PAGE_SIZE
    if NUM_PAGES < (start + n) % 2 ^ 32 then throw (.crash (.freePages paddr))
    else markLoop start false n 0

/-- What a call of the allocator does, with the reason why it stopped. -/
def liftPg {α : Type} (x : Pg α) : Pa α := fun m =>
  match x m with
  | .ok a m' => .ok a m'
  | .error e m' => .error (.crash e) m'

section Loops

theorem numPages_lt : NUM_PAGES + 1 < 2 ^ 32 := by decide

theorem pageAllocated_run (h : i < NUM_PAGES) (m : Mem) :
    pageAllocated (i % 2 ^ 32) m = .ok (m.allocated i) m := by
  have hlt := numPages_lt
  rw [Nat.mod_eq_of_lt (by omega), pageAllocated, if_pos h]

/-- The flags are read up to the first that is set. -/
theorem foundLoop_run : ∀ {k j : Nat}, i + j + k ≤ NUM_PAGES →
    foundLoop i k j m = .ok (m.isFree (i + j) k) m
  | 0, j, _ => rfl
  | k + 1, j, h => by
      have hall : m.isFree (i + j) (k + 1)
          = (!m.allocated (i + j) && m.isFree (i + (j + 1)) k) := by
        rw [Mem.isFree, List.range_succ_eq_map, List.all_cons, List.all_map]
        simp only [Nat.add_zero, Mem.isFree, comp_def, Nat.succ_eq_add_one,
          Nat.add_comm, Nat.add_left_comm]
      rw [foundLoop, run_bind (pageAllocated_run (by omega) m), hall]
      cases hf : m.allocated (i + j) with
      | true => rfl
      | false =>
          rw [if_neg (by simp), foundLoop_run (by omega)]
          simp

theorem Mem.mark_zero (m : Mem) (i : Nat) (b : Bool) : m.mark i 0 b = m := by
  have hno : ∀ k, ¬ (i ≤ k ∧ k < i + 0) := fun k => by omega
  simp only [Mem.mark, if_neg (hno _)]

theorem Mem.mark_succ (m : Mem) (i k : Nat) (b : Bool) :
    Mem.mark { m with allocated := update m.allocated i b } (i + 1) k b
      = m.mark i (k + 1) b := by
  have hflag : ∀ l, (if i + 1 ≤ l ∧ l < i + 1 + k then b else update m.allocated i b l)
      = if i ≤ l ∧ l < i + (k + 1) then b else m.allocated l := by
    intro l
    cases Decidable.em (l = i) with
    | inl heq =>
        rw [heq, update_self, if_neg (by omega), if_pos (by omega)]
    | inr hne =>
        rw [update_of_ne hne]
        refine if_congr ?_ rfl rfl
        omega
  simp only [Mem.mark, hflag]

/-- The flags are set one after the other. -/
theorem markLoop_run : ∀ {k j : Nat} {m : Mem}, i + j + k ≤ NUM_PAGES →
    markLoop i b k j m = .ok () (m.mark (i + j) k b)
  | 0, j, m, _ => by
      rw [Mem.mark_zero]
      rfl
  | k + 1, j, m, h => by
      have hlt := numPages_lt
      have hset : setPageAllocated ((i + j) % 2 ^ 32) b m
          = .ok () { m with allocated := update m.allocated (i + j) b } := by
        rw [Nat.mod_eq_of_lt (by omega), setPageAllocated, if_pos (by omega)]
      rw [markLoop, run_bind hset, markLoop_run (by omega), ← Mem.mark_succ]
      rfl

/-- The first run of free pages from `i` on. -/
def Mem.firstRun (m : Mem) (n i : Nat) : Option Nat :=
  (List.range' i (NUM_PAGES - n + 1 - i)).find? fun i => m.isFree i n

/-- The outer loop finds it, with no access outside of the array. -/
theorem searchLoop_run (hn : n ≤ NUM_PAGES) : ∀ {k i : Nat}, i ≤ NUM_PAGES - n + 1 →
    NUM_PAGES - n + 1 < i + k → searchLoop n k i m = .ok (m.firstRun n i) m
  | 0, i, hi, hk => by omega
  | k + 1, i, hi, hk => by
      have hlt := numPages_lt
      have hbound : (NUM_PAGES + 2 ^ 32 - n) % 2 ^ 32 = NUM_PAGES - n := by
        rw [show NUM_PAGES + 2 ^ 32 - n = NUM_PAGES - n + 2 ^ 32 by omega, Nat.add_mod_right]
        exact Nat.mod_eq_of_lt (by omega)
      rw [searchLoop, hbound]
      cases Decidable.em (i ≤ NUM_PAGES - n) with
      | inr hgt =>
          have hend : NUM_PAGES - n + 1 - i = 0 := by omega
          rw [if_neg hgt, Mem.firstRun, hend]
          rfl
      | inl hle =>
          have hsucc : NUM_PAGES - n + 1 - i = NUM_PAGES - n + 1 - (i + 1) + 1 := by omega
          rw [if_pos hle, run_bind (foundLoop_run (by omega)), Mem.firstRun, hsucc,
            List.range'_succ, List.find?_cons, Nat.add_zero]
          cases hfree : m.isFree i n with
          | true => rfl
          | false =>
              have hmod : (i + 1) % 2 ^ 32 = i + 1 := Nat.mod_eq_of_lt (by omega)
              simp only [Bool.false_eq_true, if_false, hmod]
              exact searchLoop_run hn (by omega) (by omega)

theorem Mem.firstRun_zero (m : Mem) (n : Nat) :
    m.firstRun n 0 = (List.range (NUM_PAGES - n + 1)).find? fun i => m.isFree i n := by
  rw [Mem.firstRun, Nat.sub_zero, List.range_eq_range']

theorem mul_pageSize_lt (hn : n ≤ NUM_PAGES) : n * PAGE_SIZE < 2 ^ 32 :=
  Nat.lt_of_le_of_lt (Nat.mul_le_mul_right PAGE_SIZE hn) (by decide)

/-- `alloc_pages` stays inside of the array and is `allocPages`. -/
theorem allocPagesLoop_eq (R : Ram) (h1 : 1 ≤ n) (hn : n ≤ NUM_PAGES) (m : Mem) :
    allocPagesLoop R n m = liftPg (allocPages R n) m := by
  have hsearch : searchLoop n (NUM_PAGES + 1) 0 m
      = .ok ((List.range (NUM_PAGES - n + 1)).find? fun i => m.isFree i n) m := by
    rw [← Mem.firstRun_zero]
    exact searchLoop_run hn (Nat.zero_le _) (by omega)
  rw [allocPagesLoop, run_bind hsearch, liftPg, allocPages]
  cases hfind : (List.range (NUM_PAGES - n + 1)).find? fun i => m.isFree i n with
  | none => rfl
  | some i =>
      have hi : i < NUM_PAGES - n + 1 := List.mem_range.mp (List.mem_of_find?_eq_some hfind)
      have hword : (R.start + i * PAGE_SIZE) % 2 ^ 32 = R.start + i * PAGE_SIZE :=
        Nat.mod_eq_of_lt (Ram.page_lt_word (R := R) (by omega))
      simp only [hword, Nat.mod_eq_of_lt (mul_pageSize_lt hn)]
      rw [run_bind (markLoop_run (by omega))]
      rfl

/-- So is `free_pages`, for pages of the memory. -/
theorem freePagesLoop_eq (R : Ram) (hn : n ≤ NUM_PAGES) (paddr : Nat) (m : Mem) :
    freePagesLoop R paddr n m = liftPg (freePages R paddr n) m := by
  rw [freePagesLoop, liftPg, freePages]
  cases Decidable.em (paddr < R.start ∨ R.stop ≤ paddr) with
  | inl hout =>
      rw [if_pos hout, if_pos hout]
      rfl
  | inr hin =>
      have hstart : (paddr - R.start) / PAGE_SIZE < NUM_PAGES := by
        rw [Nat.div_lt_iff_lt_mul (by decide)]
        rw [Ram.stop] at hin
        omega
      have hsum : NUM_PAGES + NUM_PAGES < 2 ^ 32 := by decide
      simp only [if_neg hin, Nat.mod_eq_of_lt (show (paddr - R.start) / PAGE_SIZE + n < 2 ^ 32 by
        omega)]
      cases Decidable.em (NUM_PAGES < (paddr - R.start) / PAGE_SIZE + n) with
      | inl hlong =>
          rw [if_pos hlong, if_pos hlong]
          rfl
      | inr hfits =>
          rw [if_neg hfits, if_neg hfits, markLoop_run (by omega)]
          rfl

end Loops

/-! ## Runs of free pages -/

/-- The `n` pages from `i` on are there and none of them is in use. -/
def Mem.FreeRun (m : Mem) (i n : Nat) : Prop :=
  i + n ≤ NUM_PAGES ∧ ∀ j < n, m.allocated (i + j) = false

/-- The lowest such run. -/
def Mem.LowestRun (m : Mem) (i n : Nat) : Prop :=
  m.FreeRun i n ∧ ∀ k < i, ¬ m.FreeRun k n

/-- The memory after `n` pages from `i` on have been handed out. -/
def Mem.granted (R : Ram) (m : Mem) (i n : Nat) : Mem :=
  { m.mark i n true with ram := m.ram.copy (R.page i) Buf.zero (n * PAGE_SIZE) }

section Runs

theorem Mem.isFree_iff : m.isFree i n = true ↔ ∀ j < n, m.allocated (i + j) = false := by
  simp [Mem.isFree, List.all_eq_true]

/-- `alloc_pages` takes the lowest run, or stops because there is none. -/
theorem allocPages_cases (R : Ram) (hn : n ≤ NUM_PAGES) (m : Mem) :
    (∃ i, m.LowestRun i n ∧ allocPages R n m = .ok (R.page i) (m.granted R i n)) ∨
    ((∀ i, ¬ m.FreeRun i n) ∧ allocPages R n m = .error (.pages n) m) := by
  rw [allocPages]
  cases hfind : (List.range (NUM_PAGES - n + 1)).find? fun i => m.isFree i n with
  | none =>
      refine .inr ⟨fun i hrun => ?_, rfl⟩
      have hi : i ∈ List.range (NUM_PAGES - n + 1) := List.mem_range.mpr (by
        have := hrun.1
        omega)
      exact List.find?_eq_none.mp hfind i hi (Mem.isFree_iff.mpr hrun.2)
  | some i =>
      obtain ⟨hfree, xs, ys, hsplit, hbefore⟩ := List.find?_eq_some_iff_append.mp hfind
      have hi : i < NUM_PAGES - n + 1 := List.mem_range.mp (List.mem_of_find?_eq_some hfind)
      refine .inl ⟨i, ⟨⟨by omega, Mem.isFree_iff.mp hfree⟩, fun k hk hrun => ?_⟩, rfl⟩
      -- in an increasing list `k` stands before `i`
      have hmem : k ∈ xs ++ i :: ys := by
        rw [← hsplit]
        exact List.mem_range.mpr (by omega)
      have hsorted : (xs ++ i :: ys).Pairwise (· < ·) := by
        rw [← hsplit]
        exact List.pairwise_lt_range
      have hlater := (List.pairwise_cons.mp (List.pairwise_append.mp hsorted).2.1).1
      rcases List.mem_append.mp hmem with hx | hx
      · have := hbefore k hx
        rw [Mem.isFree_iff.mpr hrun.2] at this
        exact absurd this (by decide)
      · rcases List.mem_cons.mp hx with rfl | hy
        · exact absurd hk (Nat.lt_irrefl _)
        · exact absurd hk (Nat.lt_asymm (hlater k hy))

end Runs

/-! ## Histories -/

/-- Pages that `alloc_pages` returned, as its caller knows them. -/
structure Span where
  paddr : Nat
  pages : Nat
deriving DecidableEq

/-- The address after the last page. -/
def Span.stop (g : Span) : Nat := g.paddr + g.pages * PAGE_SIZE

/-- Page `i` is one of them. -/
def Span.Has (R : Ram) (g : Span) (i : Nat) : Prop := g.paddr ≤ R.page i ∧ R.page i < g.stop

/-- No address is in both. -/
def Span.Apart (g g' : Span) : Prop := g.stop ≤ g'.paddr ∨ g'.stop ≤ g.paddr

/-- The spans that are outstanding after a sequence of calls of the allocator.  Between
the calls anything may be written to memory. -/
inductive Outstanding (R : Ram) : Mem → List Span → Prop where
  | start {m : Mem} (h : ∀ i < NUM_PAGES, m.allocated i = false) : Outstanding R m []
  | write {m : Mem} {out : List Span} (b : Buf) (h : Outstanding R m out) :
      Outstanding R { m with ram := b } out
  | alloc {m m' : Mem} {out : List Span} {n paddr : Nat} (h : Outstanding R m out) (h1 : 1 ≤ n)
      (hn : n ≤ NUM_PAGES) (hx : allocPagesLoop R n m = .ok paddr m') :
      Outstanding R m' (⟨paddr, n⟩ :: out)
  | free {m m' : Mem} {out : List Span} {g : Span} (h : Outstanding R m out) (hg : g ∈ out)
      (hx : freePagesLoop R g.paddr g.pages m = .ok () m') : Outstanding R m' (out.erase g)

/-- What holds of the flags and the outstanding spans. -/
structure Tracks (R : Ram) (m : Mem) (out : List Span) : Prop where
  /-- A flag is set for the pages of outstanding spans. -/
  flag : ∀ i < NUM_PAGES, m.allocated i = true ↔ ∃ g ∈ out, g.Has R i
  apart : out.Pairwise Span.Apart
  /-- A span is a run of pages. -/
  pages : ∀ g ∈ out, ∃ i, g.paddr = R.page i ∧ 1 ≤ g.pages ∧ i + g.pages ≤ NUM_PAGES

section Histories

variable {m' : Mem} {g g' : Span}

/-- The pages of a span that starts with page `i`. -/
theorem Span.has_page : Span.Has R ⟨R.page i, n⟩ j ↔ i ≤ j ∧ j < i + n := by
  simp only [Span.Has, Span.stop, Ram.page, PAGE_SIZE]
  omega

theorem Span.apart_page {k l : Nat} :
    Span.Apart ⟨R.page i, n⟩ ⟨R.page k, l⟩ ↔ i + n ≤ k ∨ k + l ≤ i := by
  simp only [Span.Apart, Span.stop, Ram.page, PAGE_SIZE]
  omega

instance : Std.Symm Span.Apart := ⟨fun _ _ => Or.symm⟩

/-- Spans that are apart have no page in common. -/
theorem Span.Apart.not_has (h : g.Apart g') (hi : g.Has R i) : ¬ g'.Has R i := by
  simp only [Span.Has, Span.Apart] at *
  omega

theorem Mem.allocated_mark :
    (m.mark i n b).allocated j = if i ≤ j ∧ j < i + n then b else m.allocated j := rfl

namespace Tracks

/-- A free run is apart from every outstanding span. -/
theorem apart_run (h : Tracks R m out) (h1 : 1 ≤ n) (hrun : m.FreeRun i n) (hg : g ∈ out) :
    Span.Apart ⟨R.page i, n⟩ g := by
  obtain ⟨k, hk, hpages, hend⟩ := h.pages g hg
  obtain ⟨paddr, l⟩ := g
  subst hk
  dsimp only at hpages hend
  rw [Span.apart_page]
  -- otherwise they meet in the page where the later of the two starts
  rcases Nat.lt_or_ge i (k + l) with h2 | h2
  · rcases Nat.lt_or_ge k (i + n) with h3 | h3
    · have hhas : Span.Has R ⟨R.page k, l⟩ (max i k) := Span.has_page.mpr (by omega)
      have hset := (h.flag (max i k) (by omega)).mpr ⟨_, hg, hhas⟩
      have hfree := hrun.2 (max i k - i) (by omega)
      rw [show i + (max i k - i) = max i k by omega, hset] at hfree
      exact absurd hfree (by decide)
    · exact .inl h3
  · exact .inr h2

/-- Pages are handed out. -/
theorem granted (h : Tracks R m out) (h1 : 1 ≤ n) (hrun : m.FreeRun i n) :
    Tracks R (m.granted R i n) (⟨R.page i, n⟩ :: out) where
  flag j hj := by
    have hflag : (m.granted R i n).allocated j
        = if i ≤ j ∧ j < i + n then true else m.allocated j := rfl
    rw [hflag]
    cases Decidable.em (i ≤ j ∧ j < i + n) with
    | inl hin =>
        rw [if_pos hin]
        exact iff_of_true rfl ⟨_, List.mem_cons_self, Span.has_page.mpr hin⟩
    | inr hout =>
        rw [if_neg hout, h.flag j hj]
        constructor
        · rintro ⟨g, hg, hhas⟩
          exact ⟨g, List.mem_cons_of_mem _ hg, hhas⟩
        · rintro ⟨g, hg, hhas⟩
          rcases List.mem_cons.mp hg with rfl | hg
          · exact absurd (Span.has_page.mp hhas) hout
          · exact ⟨g, hg, hhas⟩
  apart := List.pairwise_cons.mpr ⟨fun _ hg => h.apart_run h1 hrun hg, h.apart⟩
  pages g hg := by
    rcases List.mem_cons.mp hg with rfl | hg
    · exact ⟨i, rfl, h1, hrun.1⟩
    · exact h.pages g hg

/-- An outstanding span can be given back. -/
theorem freePages_run (h : Tracks R m out) (hg : g ∈ out) :
    ∃ i, g.paddr = R.page i ∧ g.pages ≤ NUM_PAGES ∧
      freePages R g.paddr g.pages m = .ok () (m.mark i g.pages false) := by
  obtain ⟨i, hi, hpages, hend⟩ := h.pages g hg
  have hdiv : (R.page i - R.start) / PAGE_SIZE = i := by
    rw [Ram.page, Nat.add_sub_cancel_left]
    exact Nat.mul_div_cancel i (by decide)
  have hin : ¬ (R.page i < R.start ∨ R.stop ≤ R.page i) := by
    have h1 := R.le_page i
    have h2 : R.page i < R.stop := Ram.page_lt (by omega)
    omega
  refine ⟨i, hi, by omega, ?_⟩
  rw [hi, freePages, if_neg hin]
  simp only [hdiv]
  rw [if_neg (by omega)]

/-- The outstanding spans are different. -/
theorem nodup (h : Tracks R m out) : out.Nodup := by
  refine List.Pairwise.imp_of_mem ?_ h.apart
  rintro g g' hg - hapart rfl
  obtain ⟨i, -, hpages, -⟩ := h.pages g hg
  simp only [Span.Apart, Span.stop, PAGE_SIZE] at hapart
  omega

/-- A span is given back. -/
theorem freed (h : Tracks R m out) (hg : g ∈ out) (hi : g.paddr = R.page i) :
    Tracks R (m.mark i g.pages false) (out.erase g) where
  flag j hj := by
    have hhas : g.Has R j ↔ i ≤ j ∧ j < i + g.pages := by
      obtain ⟨paddr, n⟩ := g
      subst hi
      exact Span.has_page
    rw [Mem.allocated_mark]
    cases Decidable.em (i ≤ j ∧ j < i + g.pages) with
    | inl hin =>
        rw [if_pos hin]
        refine iff_of_false (by decide) ?_
        rintro ⟨g', hg', hhas'⟩
        obtain ⟨hne, hmem⟩ := h.nodup.mem_erase_iff.mp hg'
        exact (h.apart.forall hg hmem hne.symm).not_has (hhas.mpr hin) hhas'
    | inr hout =>
        rw [if_neg hout, h.flag j hj]
        constructor
        · rintro ⟨g', hg', hhas'⟩
          refine ⟨g', h.nodup.mem_erase_iff.mpr ⟨?_, hg'⟩, hhas'⟩
          rintro rfl
          exact hout (hhas.mp hhas')
        · rintro ⟨g', hg', hhas'⟩
          exact ⟨g', List.mem_of_mem_erase hg', hhas'⟩
  apart := h.apart.sublist List.erase_sublist
  pages g' hg' := h.pages g' (List.mem_of_mem_erase hg')

end Tracks

theorem liftPg_ok {α : Type} {x : Pg α} {a : α} (hx : liftPg x m = .ok a m') : x m = .ok a m' := by
  rw [liftPg] at hx
  cases hr : x m with
  | ok b m₁ =>
      rw [hr] at hx
      injection hx with h1 h2
      rw [h1, h2]
  | error e m₁ =>
      rw [hr] at hx
      exact nomatch hx

/-- The flags track the outstanding spans, whatever the calls were. -/
theorem Outstanding.tracks (h : Outstanding R m out) : Tracks R m out := by
  induction h with
  | start h =>
      refine ⟨fun i hi => ?_, List.Pairwise.nil, fun g hg => nomatch hg⟩
      rw [h i hi]
      exact iff_of_false (by decide) fun ⟨g, hg, _⟩ => nomatch hg
  | write b _ ih => exact ⟨ih.flag, ih.apart, ih.pages⟩
  | @alloc m m' out n paddr _ h1 hn hx ih =>
      rw [allocPagesLoop_eq R h1 hn] at hx
      have hok := liftPg_ok hx
      rcases allocPages_cases R hn m with ⟨i, hlow, hrun⟩ | ⟨-, hrun⟩
      · rw [hrun] at hok
        cases hok
        exact ih.granted h1 hlow.1
      · rw [hrun] at hok
        exact nomatch hok
  | @free m m' out g _ hg hx ih =>
      obtain ⟨i, hi, hn, hrun⟩ := ih.freePages_run hg
      rw [freePagesLoop_eq R hn] at hx
      have hok := liftPg_ok hx
      rw [hrun] at hok
      cases hok
      exact ih.freed hg hi

/-- What a call of `alloc_pages` does: the pages are the lowest run of free pages, marked
and filled with zeros, or there is no such run and the kernel stops. -/
def Allocates (R : Ram) (m : Mem) (n : Nat) : Prop :=
  (∃ i m', allocPagesLoop R n m = .ok (R.page i) m' ∧ m.LowestRun i n ∧
    ∀ k < n * PAGE_SIZE, m'.ram (R.page i + k) = 0) ∨
  ((∀ i, ¬ m.FreeRun i n) ∧ allocPagesLoop R n m = .error (.crash (.pages n)) m)

theorem allocPagesLoop_allocates (R : Ram) (h1 : 1 ≤ n) (hn : n ≤ NUM_PAGES) (m : Mem) :
    Allocates R m n := by
  rcases allocPages_cases R hn m with ⟨i, hlow, hrun⟩ | ⟨hnone, hrun⟩
  · refine .inl ⟨i, m.granted R i n, ?_, hlow, fun k hk => ?_⟩
    · rw [allocPagesLoop_eq R h1 hn, liftPg, hrun]
    · exact Buf.copy_of_mem (by omega)
  · refine .inr ⟨hnone, ?_⟩
    rw [allocPagesLoop_eq R h1 hn, liftPg, hrun]

/-- The allocator of pages over every history of its calls.  No call accesses an element
outside of `page_allocated`. -/
theorem page_allocator (h : Outstanding R m out) :
    (∀ i < NUM_PAGES, m.allocated i = true ↔ ∃ g ∈ out, g.Has R i) ∧
    out.Pairwise Span.Apart ∧
    (∀ g ∈ out, R.start ≤ g.paddr ∧ g.stop ≤ R.stop) ∧
    (∀ n, 1 ≤ n → n ≤ NUM_PAGES → Allocates R m n) ∧
    (∀ g ∈ out, ∃ m', freePagesLoop R g.paddr g.pages m = .ok () m') := by
  have htracks := h.tracks
  refine ⟨htracks.flag, htracks.apart, fun g hg => ?_,
    fun n h1 hn => allocPagesLoop_allocates R h1 hn m, fun g hg => ?_⟩
  · obtain ⟨i, hi, -, hend⟩ := htracks.pages g hg
    have hmul := Nat.mul_le_mul_right PAGE_SIZE hend
    rw [Nat.add_mul] at hmul
    rw [Span.stop, hi, Ram.stop, Ram.page]
    omega
  · obtain ⟨i, -, hn, hrun⟩ := htracks.freePages_run hg
    refine ⟨m.mark i g.pages false, ?_⟩
    rw [freePagesLoop_eq R hn, liftPg, hrun]

end Histories

/-! ## A history -/

theorem Mem.LowestRun.unique (hi : m.LowestRun i n) (hj : m.LowestRun j n) : i = j := by
  rcases Nat.lt_trichotomy i j with h | h | h
  · exact absurd hi.1 (hj.2 i h)
  · exact h
  · exact absurd hj.1 (hi.2 j h)

/-- The lowest run is handed out. -/
theorem Outstanding.granted (h : Outstanding R m out) (h1 : 1 ≤ n) (hlow : m.LowestRun i n) :
    Outstanding R (m.granted R i n) (⟨R.page i, n⟩ :: out) := by
  have hn : n ≤ NUM_PAGES := Nat.le_trans (Nat.le_add_left n i) hlow.1.1
  refine h.alloc h1 hn ?_
  rw [allocPagesLoop_eq R h1 hn]
  rcases allocPages_cases R hn m with ⟨j, hj, hrun⟩ | ⟨hnone, -⟩
  · rw [liftPg, hrun, hlow.unique hj]
  · exact absurd hlow.1 (hnone i)

/-- Two pages and then one are allocated, and the two are given back: they are what the
next call for two pages finds. -/
theorem page_allocator_hole : ∃ m, Outstanding Ram.megabyte m [⟨Ram.megabyte.page 2, 1⟩] ∧
    (∀ i < NUM_PAGES, m.allocated i = true ↔
      ∃ g ∈ [(⟨Ram.megabyte.page 2, 1⟩ : Span)], g.Has Ram.megabyte i) ∧
    Allocates Ram.megabyte m 2 := by
  have h0 : Outstanding Ram.megabyte ⟨Buf.zero, fun _ => false⟩ [] := .start fun _ _ => rfl
  have h1 := h0.granted (i := 0) (n := 2) (by decide)
    ⟨⟨by decide, fun _ _ => rfl⟩, fun k hk => absurd hk (Nat.not_lt_zero k)⟩
  have h2 := h1.granted (i := 2) (n := 1) (by decide) ⟨⟨by decide, by decide⟩, by
    intro k hk hrun
    have hfree : (if 0 ≤ k + 0 ∧ k + 0 < 0 + 2 then true else false) = false :=
      hrun.2 0 (by decide)
    rw [if_pos ⟨Nat.zero_le _, hk⟩] at hfree
    cases hfree⟩
  obtain ⟨i, -, hn, hrun⟩ := h2.tracks.freePages_run (g := ⟨Ram.megabyte.page 0, 2⟩)
    (List.mem_cons_of_mem _ List.mem_cons_self)
  have h3 := h2.free (List.mem_cons_of_mem _ List.mem_cons_self) (by
    rw [freePagesLoop_eq Ram.megabyte hn, liftPg, hrun])
  rw [List.erase_cons_tail (by simp), List.erase_cons_head] at h3
  have hall := page_allocator h3
  exact ⟨_, h3, hall.1, hall.2.2.2.1 2 (by decide) (by decide)⟩

end Dmaos
