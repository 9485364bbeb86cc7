import Mathlib.Data.Fintype.Card
import Dmaos.Memory.Roles

/-!
# The heap

`sbrk` moves the end of the heap of a process.  The loops over pages are followed
with the roles: pages of the process become free (`Shrunk`), or free pages become
pages and tables of the process (`Gained`).  The end is a byte address and pages are
whole, so the pages of the heap are counted by `pagesUpTo`.

`SpaceOk` says that a process has the pages from `USER_BASE` to its break, and
`Moved` what a successful call does.
-/

namespace Dmaos

open Fault Machine Function

namespace Pages

variable {R : Ram} {m m' : Mem} {own own' : Roles} {p : Fin PROCS_MAX} {n r c lo brk : Nat}
  {b : Bool} {sp : Space}

variable {k : Nat}

/-! ## Looking a page up -/

/-- Both entries for a page of a process. -/
theorem entries (h : Pages R m own) (hr : own r = .root p) (hk : own k = .user p n) :
    ∃ i flags, own i = .table p (n / 1024) ∧ UserFlags flags ∧
      m.ram.le32 (R.page r + 4 * (n / 1024)) = pte (R.page i) 0 ∧
      m.ram.le32 (R.page i + 4 * (n % 1024)) = pte (R.page k) flags := by
  obtain ⟨hn, i, hi⟩ := h.user_table hk
  have hbranch := h.root hr (n / 1024) (by omega)
  have hleaf := h.table hi (n % 1024) (Nat.mod_lt _ (by decide))
  rw [show n / 1024 * 1024 + n % 1024 = n by omega] at hleaf
  generalize hb : m.ram.le32 (R.page r + 4 * (n / 1024)) = b at hbranch
  generalize hl : m.ram.le32 (R.page i + 4 * (n % 1024)) = l at hleaf
  cases hbranch with
  | none hnone => exact absurd hi (hnone i)
  | table i' hi' =>
      obtain rfl := h.table_unique hi hi'
      cases hleaf with
      | none hnone => exact absurd hk (hnone k)
      | device hnone _ => exact absurd hk (hnone k)
      | kernel hnone _ => exact absurd hk (hnone k)
      | user k' flags hk' hf =>
          obtain rfl := h.user_unique hk hk'
          exact ⟨i, flags, hi, hf, rfl, hl⟩

/-! ## Taking a page away -/

/-- The entry for a page is cleared and the page given back. -/
theorem unmap {i : Nat} (h : Pages R m own) (hi : own i = .table p (n / 1024))
    (hk : own k = .user p n) :
    Pages R ⟨m.ram.put32 (R.page i + 4 * (n % 1024)) 0, (m.give k).allocated⟩
      (update own k .free) := by
  have hnone (j : Nat) : update own k .free j ≠ .user p n := by
    cases Decidable.em (j = k) with
    | inl hjk => simp [hjk]
    | inr hjk =>
        rw [update_of_ne hjk]
        exact fun hj => hjk (h.user_unique hj hk)
  have hsame : SameBut (.user p n) own (update own k .free) :=
    .update hk (.inr rfl) (.inl rfl)
  refine h.setLeaf hi hsame (.none hnone) (by decide) (fun j hj => absurd hj (hnone j))
    (fun j _ hj => absurd hj (hnone j)) fun j => ?_
  cases Decidable.em (j = k) with
  | inl hjk => simp [Mem.give, hjk]
  | inr hjk => simp [Mem.give, hjk, h.free_iff]

/-- One turn of the loop that takes pages away. -/
theorem unmapPages_succ (h : Pages R m own) (hr : own r = .root p) (hk : own k = .user p n) :
    ∃ i, own i = .table p (n / 1024) ∧
      unmapPages R (R.page r) (c + 1) (n * PAGE_SIZE) m
        = unmapPages R (R.page r) c ((n + 1) * PAGE_SIZE)
            ⟨m.ram.put32 (R.page i + 4 * (n % 1024)) 0, (m.give k).allocated⟩ := by
  obtain ⟨i, flags, hi, hf, h1, h0⟩ := h.entries hr hk
  have hn := (h.user_table hk).1
  refine ⟨i, hi, ?_⟩
  have hi' : i < NUM_PAGES := h.lt (by simp [hi])
  have hk' : k < NUM_PAGES := h.lt (by simp [hk])
  have hload1 : load (R.page r + 4 * vpn1 (n * PAGE_SIZE)) m = .ok (pte (R.page i) 0) m := by
    rw [load, vpn1_page (by omega), h1]
  have hload0 : load (R.page i + 4 * vpn0 (n * PAGE_SIZE)) m = .ok (pte (R.page k) flags) m := by
    rw [load, vpn0_page, h0]
  have hfree : freePages R (R.page k) 1 m = .ok () (m.give k) := freePages_page hk'
  have hstore : store (R.page i + 4 * (n % 1024)) 0 (m.give k)
      = .ok () ⟨m.ram.put32 (R.page i + 4 * (n % 1024)) 0, (m.give k).allocated⟩ := rfl
  rw [unmapPages, run_bind hload1]
  simp only [hasFlag_pte_valid, if_true, pteAddr_pte (Ram.page_lt_word hi') (R.page_mod i)
    (show 0 < 1024 by decide)]
  rw [run_bind hload0, hasFlag_pte_valid, if_pos rfl, pteAddr_pte (Ram.page_lt_word hk')
    (R.page_mod k) hf.lt, run_bind hfree, vpn0_page, run_bind hstore, Nat.succ_mul n]

end Pages

/-- Pages of process `p` have been given back, those with numbers in `S`. -/
structure Shrunk (R : Ram) (p : Fin PROCS_MAX) (S : Nat → Prop) (m : Mem) (own : Roles) (m' : Mem)
    (own' : Roles) : Prop where
  pages : Pages R m' own'
  gone : ∀ {j n}, own j = .user p n → S n → own' j = .free
  rest : ∀ {j}, (∀ n, S n → own j ≠ .user p n) → own' j = own j
  data : ∀ j, (own' j).IsData → SamePage R j m.ram m'.ram

namespace Shrunk

variable {m'' : Mem} {own'' : Roles} {q : Fin PROCS_MAX} {S T : Nat → Prop} {j : Nat} {x : Role}

theorem refl (h : Pages R m own) : Shrunk R p (fun _ => False) m own m own :=
  ⟨h, fun _ hn => hn.elim, fun _ => rfl, fun j _ => SamePage.refl R j _⟩

/-- A page has the role it had or is free. -/
theorem cases (h : Shrunk R p S m own m' own') (j : Nat) :
    own' j = own j ∨ ∃ n, S n ∧ own j = .user p n ∧ own' j = .free := by
  by_cases hj : ∃ n, S n ∧ own j = .user p n
  · obtain ⟨n, hn, hu⟩ := hj
    exact .inr ⟨n, hn, hu, h.gone hu hn⟩
  · exact .inl (h.rest fun n hn hu => hj ⟨n, hn, hu⟩)

theorem trans (h : Shrunk R p S m own m' own') (h' : Shrunk R p T m' own' m'' own'') :
    Shrunk R p (fun n => S n ∨ T n) m own m'' own'' where
  pages := h'.pages
  gone {j n} hu hn := by
    rcases h.cases j with hj | ⟨-, -, -, hfree⟩
    · rcases hn with hn | hn
      · rw [h.gone hu hn] at hj
        rw [← hj] at hu
        cases hu
      · exact h'.gone (hj ▸ hu) hn
    · rw [h'.rest (by simp [hfree]), hfree]
  rest {j} hj := by
    have hold : own' j = own j := h.rest fun n hn => hj n (.inl hn)
    rw [h'.rest (fun n hn => by rw [hold]; exact hj n (.inr hn)), hold]
  data j hj := by
    refine (h.data j ?_).trans (h'.data j hj)
    rcases h'.cases j with hold | ⟨-, -, -, hfree⟩
    · rwa [← hold]
    · rw [hfree] at hj
      exact hj.elim

theorem congr (h : Shrunk R p S m own m' own') (hST : ∀ n, S n ↔ T n) :
    Shrunk R p T m own m' own' where
  pages := h.pages
  gone hu hn := h.gone hu ((hST _).mpr hn)
  rest hj := h.rest fun n hn => hj n ((hST n).mp hn)
  data := h.data

/-- A page that is left was there before. -/
theorem was {k : Nat} (h : Shrunk R p S m own m' own') (hk : own' k = .user q n) :
    own k = .user q n := by
  rcases h.cases k with hold | ⟨-, -, -, hfree⟩
  · rw [← hold, hk]
  · rw [hfree] at hk
    cases hk

/-- The numbers of the pages that are left. -/
theorem user_iff (h : Shrunk R p S m own m' own') :
    (∃ k, own' k = .user p n) ↔ (∃ k, own k = .user p n) ∧ ¬ S n := by
  constructor
  · rintro ⟨k, hk⟩
    have hold : own k = .user p n := h.was hk
    refine ⟨⟨k, hold⟩, fun hn => ?_⟩
    rw [h.gone hold hn] at hk
    cases hk
  · rintro ⟨⟨k, hk⟩, hn⟩
    refine ⟨k, ?_⟩
    rw [h.rest fun n' hn' hu => hn ?_, hk]
    rw [hk] at hu
    cases hu
    exact hn'

/-- The other roles belong to the same pages. -/
theorem other (h : Shrunk R p S m own m' own') (hx : x ≠ .free) (hp : ∀ n, x ≠ .user p n)
    (j : Nat) : own' j = x ↔ own j = x := by
  rcases h.cases j with hold | ⟨n, -, hu, hfree⟩
  · rw [hold]
  · rw [hu, hfree]
    exact ⟨fun h => absurd h.symm hx, fun h => absurd h.symm (hp n)⟩

end Shrunk

/-! ## The loops -/

section Loops

/-- The loop that takes pages away returns, if the pages are there. -/
theorem unmapPages_ok (h : Pages R m own)
    (hr : own r = .root p) (hall : ∀ n, lo ≤ n → n < lo + c → ∃ k, own k = .user p n) :
    ∃ m' own', unmapPages R (R.page r) c (lo * PAGE_SIZE) m = .ok () m' ∧
      Shrunk R p (fun n => lo ≤ n ∧ n < lo + c) m own m' own' := by
  induction c generalizing lo m own with
  | zero =>
      refine ⟨m, own, rfl, (Shrunk.refl h).congr fun n => ?_⟩
      exact ⟨False.elim, fun hn => Nat.not_lt.mpr hn.1 hn.2⟩
  | succ c ih =>
      obtain ⟨k, hk⟩ := hall lo le_rfl (by omega)
      obtain ⟨i, hi, hrun⟩ := h.unmapPages_succ hr hk
      have hfirst : Shrunk R p (fun n => n = lo) m own
          ⟨m.ram.put32 (R.page i + 4 * (lo % 1024)) 0, (m.give k).allocated⟩
          (update own k .free) := by
        refine ⟨h.unmap hi hk, fun {j n} hj hn => ?_, fun {j} hj => ?_, fun j hj => ?_⟩
        · subst hn
          rw [h.user_unique hj hk, update_self]
        · refine update_of_ne ?_ ..
          rintro rfl
          exact hj lo rfl hk
        · refine SamePage.put32 ?_ (Nat.mod_lt _ (by decide))
          rintro rfl
          have hne : j ≠ k := by
            rintro rfl
            rw [hi] at hk
            cases hk
          simp [hne, hi, Role.IsData] at hj
      have hr' : update own k .free r = .root p :=
        (hfirst.other (by simp) (by simp) r).mpr hr
      have hall' (n : Nat) (hlo : lo + 1 ≤ n) (hhi : n < lo + 1 + c) :
          ∃ j, update own k .free j = .user p n :=
        hfirst.user_iff.mpr ⟨hall n (by omega) (by omega), by omega⟩
      obtain ⟨m', own', hrest, hshrunk⟩ := ih hfirst.pages hr' hall'
      refine ⟨m', own', hrun.trans hrest, (hfirst.trans hshrunk).congr fun n => ?_⟩
      show n = lo ∨ lo + 1 ≤ n ∧ n < lo + 1 + c ↔ lo ≤ n ∧ n < lo + (c + 1)
      omega

/-- The loop that adds pages does not return without having added them all. -/
theorem addPages_ok (h : Pages R m own) (hr : own r = .root p) (hhi : lo + c ≤ 0x80000)
    (hnone : ∀ n, lo ≤ n → n < lo + c → ∀ k, own k ≠ .user p n)
    (hrun : addPages R (R.page r) c (lo * PAGE_SIZE) m = .ok b m') :
    b = true ∧ ∃ own', Gained R p (fun n => lo ≤ n ∧ n < lo + c) m own m' own' ∧
      ∀ n k, lo ≤ n → n < lo + c → own' k = .user p n →
        ∀ o < PAGE_SIZE, m'.ram (R.page k + o) = 0 := by
  induction c generalizing lo m own with
  | zero =>
      obtain ⟨rfl, rfl⟩ := pure_ok.mp hrun
      refine ⟨rfl, own, (Gained.refl h).congr fun n => ?_, fun n k hlo hhi => ?_⟩
      · exact ⟨False.elim, fun hn => Nat.not_lt.mpr hn.1 hn.2⟩
      · omega
  | succ c ih =>
      obtain ⟨a, m₁, halloc, hrun⟩ := bind_ok.mp hrun
      obtain ⟨i, hi, hfree, -, rfl, rfl⟩ := allocPages_one_ok halloc
      have hpos : R.page i ≠ 0 := Nat.ne_of_gt (Nat.lt_of_lt_of_le R.pos (R.le_page i))
      rw [if_neg hpos] at hrun
      obtain ⟨u, m₂, hmap, hrun⟩ := bind_ok.mp hrun
      obtain ⟨own₂, hfirst, hown, hsame⟩ := h.addPage hr (by omega) hi
        (h.free_of_not_allocated hfree) (hnone lo le_rfl (by omega)) (.inl rfl) rfl
        (fun j _ => SamePage.refl R j _) hmap
      rw [← Nat.succ_mul] at hrun
      have hr₂ : own₂ r = .root p := (hfirst.root_iff r).mpr hr
      obtain ⟨rfl, own', hgrown, hzero⟩ := ih hfirst.pages hr₂ (by omega) (fun n hlo hhi k hk => by
        rcases hfirst.user_iff.mp ⟨k, hk⟩ with ⟨k', hk'⟩ | rfl
        · exact hnone n (by omega) (by omega) k' hk'
        · omega) hrun
      refine ⟨rfl, own', (hfirst.trans hgrown).congr fun n => ?_, fun n k hlo hhi hk o ho => ?_⟩
      · show n = lo ∨ lo + 1 ≤ n ∧ n < lo + 1 + c ↔ lo ≤ n ∧ n < lo + (c + 1)
        omega
      · rcases Nat.eq_or_lt_of_le hlo with rfl | hlt
        · -- the first page, which the rest of the loop leaves alone
          have hkeep : own' i = .user p lo := by rw [hgrown.keeps (by simp [hown]), hown]
          obtain rfl := hgrown.pages.user_unique hk hkeep
          rw [← hgrown.data k (by simp [hown, Role.IsData]) o ho, ← hsame o ho]
          exact Buf.copy_of_mem ⟨Nat.le_add_right _ _, Nat.add_lt_add_left ho _⟩
        · exact hzero n k hlt (by omega) hk o ho

end Loops

/-! ## Address spaces -/

/-- The address space of process `p`: it has a table, and the pages from
`USER_BASE` to the end of the heap. -/
structure SpaceOk (R : Ram) (own : Roles) (p : Fin PROCS_MAX) (sp : Space) : Prop where
  root : ∃ r, sp.pageTable = some (R.page r) ∧ own r = .root p
  base_le : USER_BASE ≤ sp.heapStart
  aligned : sp.heapStart % PAGE_SIZE = 0
  le : sp.heapStart ≤ sp.heapEnd
  mapped : ∀ n, (∃ k, own k = .user p n) ↔ USER_BASE ≤ n * PAGE_SIZE ∧ n * PAGE_SIZE < sp.heapEnd

/-- A process has no more pages than there are. -/
theorem Pages.count_le
    (h : Pages R m own) (hall : ∀ n, lo ≤ n → n < lo + c → ∃ k, own k = .user p n) :
    c ≤ NUM_PAGES := by
  choose f hf using fun i : Fin c => hall (lo + i) (Nat.le_add_right _ _) (by omega)
  have hlt (i : Fin c) : f i < NUM_PAGES := h.lt (by simp [hf i])
  have hinj : Injective fun i : Fin c => (⟨f i, hlt i⟩ : Fin NUM_PAGES) := by
    intro i j hij
    have hfij : f i = f j := congrArg Fin.val hij
    have hrole : own (f i) = own (f j) := congrArg own hfij
    rw [hf i, hf j] at hrole
    have hnum : lo + (i : Nat) = lo + j := (Role.user.inj hrole).2
    exact Fin.ext (by omega)
  have hcard := Fintype.card_le_of_injective _ hinj
  rwa [Fintype.card_fin, Fintype.card_fin] at hcard

/-- The heap ends far below the devices. -/
theorem SpaceOk.heapEnd_le (h : SpaceOk R own p sp) (hp : Pages R m own) :
    sp.heapEnd ≤ USER_BASE + NUM_PAGES * PAGE_SIZE := by
  refine Nat.le_of_not_lt fun hlt => ?_
  have hall (n : Nat) (hlo : USER_BASE / PAGE_SIZE ≤ n)
      (hhi : n < USER_BASE / PAGE_SIZE + (NUM_PAGES + 1)) : ∃ k, own k = .user p n := by
    refine (h.mapped n).mpr ?_
    simp only [USER_BASE, NUM_PAGES, PAGE_SIZE] at *
    omega
  exact Nat.not_succ_le_self _ (hp.count_le hall)

/-! ## `sbrk` -/

/-- The number of pages below a break. -/
def pagesUpTo (brk : Nat) : Nat := (brk + PAGE_SIZE - 1) / PAGE_SIZE

section Breaks

variable {hi : Nat}

theorem alignUp_eq (brk : Nat) : alignUp brk = pagesUpTo brk * PAGE_SIZE := rfl

theorem lt_pagesUpTo : n < pagesUpTo brk ↔ n * PAGE_SIZE < brk := by
  simp only [pagesUpTo, PAGE_SIZE]
  omega

theorem pagesUpTo_add (brk c : Nat) : pagesUpTo (brk + c * PAGE_SIZE) = pagesUpTo brk + c := by
  have hadd : brk + c * PAGE_SIZE + PAGE_SIZE - 1 = brk + PAGE_SIZE - 1 + c * PAGE_SIZE := by
    simp only [PAGE_SIZE]
    omega
  rw [pagesUpTo, hadd, Nat.add_mul_div_right _ _ (by decide), pagesUpTo]

theorem pagesBetween_eq (lo hi : Nat) : pagesBetween lo hi = pagesUpTo hi - pagesUpTo lo := by
  rw [pagesBetween, alignUp_eq, alignUp_eq, ← Nat.sub_mul, Nat.mul_div_cancel _ (by decide)]

theorem pagesUpTo_mono (h : lo ≤ hi) : pagesUpTo lo ≤ pagesUpTo hi :=
  Nat.div_le_div_right (by omega)

theorem pagesUpTo_le (h : brk ≤ 0x80000000) : pagesUpTo brk ≤ 0x80000 := by
  simp only [pagesUpTo, PAGE_SIZE]
  omega

end Breaks

/-- The heap of process `p` ends at `brk` now. -/
structure Moved (R : Ram) (p : Fin PROCS_MAX) (brk : Nat) (s : Machine) (own : Roles) (s' : Machine)
    (own' : Roles) : Prop where
  pages : Pages R s'.mem own'
  kern : s'.k = s.k
  spaces : s'.space = update s.space p { s.space p with heapEnd := brk }
  space : SpaceOk R own' p (s'.space p)
  other : ∀ x : Role, x ≠ .free → x.owner ≠ some p → ∀ j, own' j = x ↔ own j = x
  /-- A page that stays keeps its bytes. -/
  kept : ∀ j, (own j).IsData → (own' j).IsData → own' j = own j ∧ SamePage R j s.mem.ram s'.mem.ram
  /-- An address that stays mapped has the page it had. -/
  stays : ∀ {n k k'}, own k = .user p n → own' k' = .user p n → k' = k
  /-- A new page is full of zeros. -/
  fresh : ∀ n k, own' k = .user p n → (∀ j, own j ≠ .user p n) →
    ∀ o < PAGE_SIZE, s'.mem.ram (R.page k + o) = 0

section Sbrk

variable {s s' : Machine}

theorem SpaceOk.setEnd (h : SpaceOk R own p sp)
    (hroot : ∀ r, own' r = .root p ↔ own r = .root p) (hle : sp.heapStart ≤ brk)
    (hmapped : ∀ n, (∃ k, own' k = .user p n) ↔ USER_BASE ≤ n * PAGE_SIZE ∧ n * PAGE_SIZE < brk) :
    SpaceOk R own' p { sp with heapEnd := brk } where
  root := by
    obtain ⟨r, hr, hown⟩ := h.root
    exact ⟨r, hr, (hroot r).mpr hown⟩
  base_le := h.base_le
  aligned := h.aligned
  le := hle
  mapped := hmapped

/-- The heap shrinks.  That does not stop the kernel. -/
theorem shrinks (brk : Nat) (h : Pages R s.mem own) (hsp : SpaceOk R own p (s.space p))
    (hlo : (s.space p).heapStart ≤ brk) (hhi : brk ≤ (s.space p).heapEnd) :
    ∃ m' own', unmapPages R ((s.space p).pageTable.getD 0) (pagesBetween brk (s.space p).heapEnd)
        (alignUp brk) s.mem = .ok () m' ∧
      Moved R p brk s own (({ s with mem := m' } : Machine).putSpace p
        { s.space p with heapEnd := brk }) own' := by
  obtain ⟨r, hr, hroot⟩ := hsp.root
  have hmono := pagesUpTo_mono hhi
  have hbase := hsp.base_le
  have hall (n : Nat) (h1 : pagesUpTo brk ≤ n)
      (h2 : n < pagesUpTo brk + (pagesUpTo (s.space p).heapEnd - pagesUpTo brk)) :
      ∃ k, own k = .user p n := by
    refine (hsp.mapped n).mpr ⟨?_, lt_pagesUpTo.mp (by omega)⟩
    have hge : ¬ n * PAGE_SIZE < brk := fun hlt => Nat.not_lt.mpr h1 (lt_pagesUpTo.mpr hlt)
    omega
  obtain ⟨m', own', hrun, hsh⟩ := unmapPages_ok h hroot hall
  have hmapped (n : Nat) : (∃ k, own' k = .user p n) ↔
      USER_BASE ≤ n * PAGE_SIZE ∧ n * PAGE_SIZE < brk := by
    rw [hsh.user_iff, hsp.mapped, ← lt_pagesUpTo, ← lt_pagesUpTo]
    omega
  refine ⟨m', own', ?_, hsh.pages, rfl, rfl, ?_, fun x hx hp j => ?_, fun j hj hj' => ?_,
    fun hk hk' => h.user_unique (hsh.was hk') hk, fun n k hk hnone => ?_⟩
  · rw [hr, Option.getD_some, pagesBetween_eq, alignUp_eq]
    exact hrun
  · have hspace := hsp.setEnd (hsh.other (by simp) (by simp)) hlo hmapped
    simpa [Machine.putSpace] using hspace
  · refine hsh.other hx (fun n hxn => hp ?_) j
    rw [hxn]
    rfl
  · refine ⟨?_, hsh.data j hj'⟩
    rcases hsh.cases j with hold | ⟨-, -, -, hfree⟩
    · exact hold
    · rw [hfree] at hj'
      exact hj'.elim
  · obtain ⟨⟨j, hj⟩, -⟩ := hsh.user_iff.mp ⟨k, hk⟩
    exact absurd hj (hnone j)

/-- The heap grows. -/
theorem grows (h : Pages R s.mem own) (hsp : SpaceOk R own p (s.space p))
    (hlo : (s.space p).heapEnd ≤ brk) (hhi : brk ≤ 0x80000000)
    (hrun : addPages R ((s.space p).pageTable.getD 0) (pagesBetween (s.space p).heapEnd brk)
      (alignUp (s.space p).heapEnd) s.mem = .ok b m') :
    b = true ∧ ∃ own', Moved R p brk s own (({ s with mem := m' } : Machine).putSpace p
      { s.space p with heapEnd := brk }) own' := by
  obtain ⟨r, hr, hroot⟩ := hsp.root
  have hmono := pagesUpTo_mono hlo
  have htop := pagesUpTo_le hhi
  have hbase := hsp.base_le
  have hle := hsp.le
  rw [hr, Option.getD_some, pagesBetween_eq, alignUp_eq] at hrun
  have hnone (n : Nat) (h1 : pagesUpTo (s.space p).heapEnd ≤ n) (k : Nat) :
      own k ≠ .user p n := by
    intro hk
    have hlt := ((hsp.mapped n).mp ⟨k, hk⟩).2
    exact Nat.not_lt.mpr h1 (lt_pagesUpTo.mpr hlt)
  obtain ⟨rfl, own', hg, hzero⟩ := addPages_ok h hroot (by omega)
    (fun n h1 _ => hnone n h1) hrun
  have hmapped (n : Nat) : (∃ k, own' k = .user p n) ↔
      USER_BASE ≤ n * PAGE_SIZE ∧ n * PAGE_SIZE < brk := by
    have hend : n < pagesUpTo (s.space p).heapEnd ↔ n * PAGE_SIZE < (s.space p).heapEnd :=
      lt_pagesUpTo
    rw [hg.user_iff, hsp.mapped, ← hend, ← lt_pagesUpTo]
    omega
  have hstays {n k : Nat} (hk : own k = .user p n) : own' k = .user p n := by
    rw [hg.keeps (by simp [hk]), hk]
  refine ⟨rfl, own', hg.pages, rfl, rfl, ?_, fun x hx hp j => hg.other hx hp j, fun j hj hj' => ?_,
    fun hk hk' => hg.pages.user_unique hk' (hstays hk), fun n k hk hnew => ?_⟩
  · have hspace := hsp.setEnd hg.root_iff (Nat.le_trans hle hlo) hmapped
    simpa [Machine.putSpace] using hspace
  · refine ⟨hg.keeps ?_, hg.data j hj⟩
    intro hfree
    rw [hfree] at hj
    exact hj
  · rcases hg.user_iff.mp ⟨k, hk⟩ with ⟨j, hj⟩ | ⟨h1, h2⟩
    · exact absurd hj (hnew j)
    · exact hzero n k h1 h2 hk

/-- The heap stays where it is. -/
theorem Moved.refl (h : Pages R s.mem own) (hsp : SpaceOk R own p (s.space p)) :
    Moved R p (s.space p).heapEnd s own s own where
  pages := h
  kern := rfl
  spaces := (update_eq_self p s.space).symm
  space := hsp
  other _ _ _ _ := Iff.rfl
  kept j _ _ := ⟨rfl, SamePage.refl R j _⟩
  stays hk hk' := h.user_unique hk' hk
  fresh _ k hk hnone := absurd hk (hnone k)

theorem onMem_ok {α : Type} {x : Pg α} {a : α} (h : onMem x s = .ok a s') :
    ∃ m', x s.mem = .ok a m' ∧ s' = { s with mem := m' } := by
  rw [onMem] at h
  cases hx : x s.mem with
  | ok b m' =>
      rw [hx] at h
      obtain ⟨rfl, rfl⟩ := EStateM.Result.ok.inj h
      exact ⟨m', rfl, rfl⟩
  | error e m' =>
      rw [hx] at h
      cases h

theorem onKern_ok {α : Type} {x : Kern α} {a : α} (h : onKern x s = .ok a s') :
    ∃ k', x s.k = .ok a k' ∧ s' = { s with k := k' } := by
  rw [onKern] at h
  cases hx : x s.k with
  | ok b k' =>
      rw [hx] at h
      obtain ⟨rfl, rfl⟩ := EStateM.Result.ok.inj h
      exact ⟨k', rfl, rfl⟩
  | error e k' =>
      rw [hx] at h
      cases h

theorem onMem_then {α β : Type} {x : Pg α} {f : α → Mach β} {b : β}
    (h : (onMem x >>= f) s = .ok b s') :
    ∃ a m', x s.mem = .ok a m' ∧ f a { s with mem := m' } = .ok b s' := by
  obtain ⟨a, t, hx, h⟩ := bind_ok.mp h
  obtain ⟨m', hm, rfl⟩ := onMem_ok hx
  exact ⟨a, m', hm, h⟩

theorem onKern_then {α β : Type} {x : Kern α} {f : α → Mach β} {b : β}
    (h : (onKern x >>= f) s = .ok b s') :
    ∃ a k', x s.k = .ok a k' ∧ f a { s with k := k' } = .ok b s' := by
  obtain ⟨a, t, hx, h⟩ := bind_ok.mp h
  obtain ⟨k', hk, rfl⟩ := onKern_ok hx
  exact ⟨a, k', hk, h⟩

theorem onKern_currentProcess (hcur : s.k.current = some p) :
    onKern currentProcess s = .ok p s := by
  rw [onKern, currentProcess_run hcur]

/-- What `sbrk` does when it returns. -/
theorem sbrk_cases {inc ret : Int} (h : Pages R s.mem own) (hcur : s.k.current = some p)
    (hsp : SpaceOk R own p (s.space p)) (hrun : sbrk R inc s = .ok ret s') :
    (ret = -1 ∧ s' = s) ∨
      ret = (s.space p).heapEnd ∧ ∃ brk own', Moved R p brk s own s' own' ∧ brk < 2 ^ 31 ∧
        brk = (((s.space p).heapEnd + inc) % 2 ^ 32).toNat ∧
        (0 < inc → (s.space p).heapEnd ≤ brk) ∧ (inc < 0 → brk ≤ (s.space p).heapEnd) := by
  have hend := hsp.heapEnd_le h
  have hend' : (s.space p).heapEnd < 2 ^ 31 := by
    simp only [USER_BASE, NUM_PAGES, PAGE_SIZE] at hend
    omega
  rw [sbrk, run_bind (onKern_currentProcess hcur)] at hrun
  replace hrun := get_then hrun
  generalize hbrk : (((s.space p).heapEnd + inc) % 2 ^ 32).toNat = brk at hrun ⊢
  split_ifs at hrun with hneg hbad hpos hbad
  · obtain ⟨rfl, rfl⟩ := pure_ok.mp hrun
    exact .inl ⟨rfl, rfl⟩
  · have hlo : (s.space p).heapStart ≤ brk := by omega
    have hhi : brk ≤ (s.space p).heapEnd := by omega
    obtain ⟨m', own', hun, hmoved⟩ := shrinks _ h hsp hlo hhi
    have hmem : onMem (unmapPages R ((s.space p).pageTable.getD 0)
        (pagesBetween brk (s.space p).heapEnd) (alignUp brk)) s = .ok () { s with mem := m' } := by
      rw [onMem, hun]
    rw [run_bind hmem] at hrun
    replace hrun := modify_then hrun
    obtain ⟨rfl, rfl⟩ := pure_ok.mp hrun
    exact .inr ⟨rfl, brk, own', hmoved, by omega, rfl, by omega, by omega⟩
  · obtain ⟨rfl, rfl⟩ := pure_ok.mp hrun
    exact .inl ⟨rfl, rfl⟩
  · have hlo : (s.space p).heapEnd ≤ brk := by omega
    have hhi : brk ≤ 0x80000000 := by omega
    obtain ⟨b, m', hadd, hrun⟩ := onMem_then hrun
    obtain ⟨rfl, own', hmoved⟩ := grows h hsp hlo hhi hadd
    rw [if_pos rfl] at hrun
    replace hrun := modify_then hrun
    obtain ⟨rfl, rfl⟩ := pure_ok.mp hrun
    exact .inr ⟨rfl, brk, own', hmoved, by omega, rfl, by omega, by omega⟩
  · obtain ⟨rfl, rfl⟩ := pure_ok.mp hrun
    have hsame : brk = (s.space p).heapEnd := by omega
    exact .inr ⟨rfl, brk, own, hsame ▸ Moved.refl h hsp, by omega, rfl, by omega, by omega⟩

end Sbrk

end Dmaos
