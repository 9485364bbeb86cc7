import Dmaos.Memory.Machine

/-!
# Who has which page

Every page of memory is free, held by the kernel, or one of the pages of a
process: the root of its page table, a second-level table, or a page of its
address space.  `Roles` gives each page one such role, so no page can be two
things at once, and `Pages` says that the allocator and the page tables agree with
the roles: an entry names exactly the page that has the role it stands for.

The kernel changes memory in a few ways only: it takes a free page, makes it a
root or a table, stores a leaf, or gives pages back.  For each of them there is a
lemma here that changes the roles accordingly; everything else is built from
these.
-/

namespace Dmaos

open Fault Function

variable {flags i k n v e j r : Nat} {m m' : Mem} {own' : Roles} {x : Role} {allocated : Nat → Bool}
  {u : Unit}

/-- What a page of memory is used for. -/
inductive Role where
  | free
  /-- Held by the kernel itself. -/
  | kernel
  /-- The first-level table of a process. -/
  | root (p : Fin PROCS_MAX)
  /-- Its second-level table with number `v`. -/
  | table (p : Fin PROCS_MAX) (v : Nat)
  /-- The page behind number `n` of its address space. -/
  | user (p : Fin PROCS_MAX) (n : Nat)
deriving DecidableEq

/-- The process whose page it is. -/
def Role.owner : Role → Option (Fin PROCS_MAX)
  | .free | .kernel => none
  | .root p | .table p _ | .user p _ => some p

/-- The page is neither free nor part of a page table. -/
def Role.IsData : Role → Prop
  | .kernel | .user _ _ => True
  | _ => False

/-- A role for each page. -/
abbrev Roles := Nat → Role

/-- The numbers of the pages of the three devices. -/
def IsDevice (n : Nat) : Prop := n = 0x10001 ∨ n = 0x10002 ∨ n = 0x10003

instance (n : Nat) : Decidable (IsDevice n) := inferInstanceAs (Decidable (_ ∨ _ ∨ _))

/-- The flags of the pages of a program: those of its heap and those of its image. -/
def UserFlags (flags : Nat) : Prop :=
  flags = PAGE_U ||| PAGE_R ||| PAGE_W ∨ flags = PAGE_U ||| PAGE_R ||| PAGE_W ||| PAGE_X

theorem UserFlags.lt (h : UserFlags flags) : flags < 1024 := by
  rcases h with rfl | rfl <;> decide

section Entries

variable (R : Ram) (own : Roles) (p : Fin PROCS_MAX)

/-- The entries a first-level table can have at `v`. -/
inductive Branch (v : Nat) : Nat → Prop where
  | none (h : ∀ i, own i ≠ .table p v) : Branch v 0
  | table (i : Nat) (h : own i = .table p v) : Branch v (pte (R.page i) 0)

/-- The entries a second-level table can have for page number `n`. -/
inductive Leaf (n : Nat) : Nat → Prop where
  | none (h : ∀ k, own k ≠ .user p n) : Leaf n 0
  | user (k flags : Nat) (h : own k = .user p n) (hf : UserFlags flags) :
      Leaf n (pte (R.page k) flags)
  | device (h : ∀ k, own k ≠ .user p n) (hn : IsDevice n) :
      Leaf n (pte (n * PAGE_SIZE) (PAGE_R ||| PAGE_W))
  | kernel (h : ∀ k, own k ≠ .user p n) (hn : 0x80000 ≤ n) :
      Leaf n (pte (n * PAGE_SIZE) (PAGE_R ||| PAGE_W ||| PAGE_X))

end Entries

/-- Memory is as the roles say. -/
structure Pages (R : Ram) (m : Mem) (own : Roles) : Prop where
  free_iff : ∀ i, own i = .free ↔ (i < NUM_PAGES → m.allocated i = false)
  /-- A role in a process belongs to one page. -/
  unique : ∀ {i j}, own i = own j → (own i).owner ≠ none → i = j
  root : ∀ {p r}, own r = .root p → ∀ v < 1024, Branch R own p v (m.ram.le32 (R.page r + 4 * v))
  table : ∀ {p i v}, own i = .table p v → ∀ w < 1024,
    Leaf R own p (v * 1024 + w) (m.ram.le32 (R.page i + 4 * w))
  table_root : ∀ {p i v}, own i = .table p v → v < 1024 ∧ ∃ r, own r = .root p
  user_table : ∀ {p k n}, own k = .user p n → n < 0x80000 ∧ ∃ i, own i = .table p (n / 1024)

/-- No process has a page: what is in use is the kernel's. -/
def kernelRoles (m : Mem) : Roles := fun i =>
  if i < NUM_PAGES ∧ m.allocated i = true then .kernel else .free

theorem kernelRoles_cases (m : Mem) (i : Nat) :
    kernelRoles m i = .kernel ∨ kernelRoles m i = .free := by
  rw [kernelRoles]
  split_ifs <;> simp

theorem kernelRoles_iff : kernelRoles m i = .kernel ↔ i < NUM_PAGES ∧ m.allocated i = true := by
  rw [kernelRoles]
  split_ifs with h
  · exact iff_of_true rfl h
  · exact iff_of_false (fun hfree => by cases hfree) h

/-- Every memory can be seen as the kernel's. -/
theorem Pages.kernelOnly {R : Ram} : Pages R m (kernelRoles m) := by
  have hnone {x : Role} {i : Nat} (hx : x.owner ≠ none) : kernelRoles m i ≠ x := by
    rintro rfl
    rcases kernelRoles_cases m i with h | h <;> exact hx (by rw [h, Role.owner])
  refine ⟨fun i => ?_, fun _ howner => ?_, fun hr => absurd hr (hnone (by simp [Role.owner])),
    fun hi => absurd hi (hnone (by simp [Role.owner])),
    fun hi => absurd hi (hnone (by simp [Role.owner])),
    fun hk => absurd hk (hnone (by simp [Role.owner]))⟩
  · rw [kernelRoles]
    split_ifs with h
    · simp [h]
    · simpa using h
  · exact absurd rfl (hnone howner)

/-! ## Roles that stay -/

/-- The pages with a role in a process are the same ones, apart from role `y`. -/
def SameBut (y : Role) (own own' : Roles) : Prop :=
  ∀ x : Role, x.owner ≠ none → x ≠ y → ∀ i, own' i = x ↔ own i = x

section Same

variable {R : Ram} {own : Roles} {p : Fin PROCS_MAX} {y : Role}

/-- Another role is given to one page. -/
theorem SameBut.update (hx : own k = x) (hx' : x.owner = none ∨ x = y)
    {z : Role} (hz : z.owner = none ∨ z = y) : SameBut y own (update own k z) := by
  intro w hw hwy i
  cases Decidable.em (i = k) with
  | inl hik =>
      subst hik
      rw [update_self, hx]
      constructor
      · rintro rfl
        exact (hz.elim hw hwy).elim
      · rintro rfl
        exact (hx'.elim hw hwy).elim
  | inr hik => rw [update_of_ne hik]

theorem SameBut.root (h : SameBut y own own') (hy : .root p ≠ y) (i : Nat) :
    own' i = .root p ↔ own i = .root p := h _ (by simp [Role.owner]) hy i

theorem SameBut.table (h : SameBut y own own') (hy : .table p v ≠ y) (i : Nat) :
    own' i = .table p v ↔ own i = .table p v := h _ (by simp [Role.owner]) hy i

theorem SameBut.user (h : SameBut y own own') (hy : .user p n ≠ y) (i : Nat) :
    own' i = .user p n ↔ own i = .user p n := h _ (by simp [Role.owner]) hy i

/-- The roles are held by one page each, if role `y` is. -/
theorem SameBut.unique (h : SameBut y own own') (hy : ∀ i j, own' i = y → own' j = y → i = j)
    (hown : ∀ {i j}, own i = own j → (own i).owner ≠ none → i = j)
    (hij : own' i = own' j) (hi : (own' i).owner ≠ none) : i = j := by
  cases Decidable.em (own' i = y) with
  | inl hiy => exact hy i j hiy (hij.symm.trans hiy)
  | inr hne =>
      have hi' : own i = own' i := (h _ hi hne i).mp rfl
      have hj' : own j = own' i := (h _ hi hne j).mp hij.symm
      exact hown (hi'.trans hj'.symm) (by rwa [hi'])

theorem Branch.congr (h : Branch R own p v e)
    (hsame : ∀ i, own' i = .table p v ↔ own i = .table p v) : Branch R own' p v e := by
  cases h with
  | none h => exact .none fun i hi => h i ((hsame i).mp hi)
  | table i h => exact .table i ((hsame i).mpr h)

theorem Leaf.congr (h : Leaf R own p n e) (hsame : ∀ i, own' i = .user p n ↔ own i = .user p n) :
    Leaf R own' p n e := by
  have hnone (h : ∀ k, own k ≠ .user p n) (k : Nat) : own' k ≠ .user p n :=
    fun hk => h k ((hsame k).mp hk)
  cases h with
  | none h => exact .none (hnone h)
  | user k flags h hf => exact .user k flags ((hsame k).mpr h) hf
  | device h hn => exact .device (hnone h) hn
  | kernel h hn => exact .kernel (hnone h) hn

end Same

namespace Pages

variable {R : Ram} {own : Roles} {p : Fin PROCS_MAX} {w : Nat}

theorem lt (h : Pages R m own) (hi : own i ≠ .free) : i < NUM_PAGES := by
  rcases Nat.lt_or_ge i NUM_PAGES with hlt | hge
  · exact hlt
  · exact absurd ((h.free_iff i).mpr fun hlt => absurd hlt (Nat.not_lt.mpr hge)) hi

theorem allocated_iff (h : Pages R m own) (hi : i < NUM_PAGES) :
    m.allocated i = true ↔ own i ≠ .free := by
  rw [Ne, h.free_iff, Classical.not_imp]
  simp [hi]

theorem free_of_not_allocated (h : Pages R m own) (hfree : m.allocated i = false) :
    own i = .free := (h.free_iff i).mpr fun _ => hfree

theorem root_unique (h : Pages R m own) (hi : own i = .root p) (hj : own j = .root p) : i = j :=
  h.unique (hi.trans hj.symm) (by simp [hi, Role.owner])

theorem table_unique (h : Pages R m own) (hi : own i = .table p v) (hj : own j = .table p v) :
    i = j :=
  h.unique (hi.trans hj.symm) (by simp [hi, Role.owner])

theorem user_unique (h : Pages R m own) (hi : own i = .user p n) (hj : own j = .user p n) : i = j :=
  h.unique (hi.trans hj.symm) (by simp [hi, Role.owner])

/-- A process without a root has no pages. -/
theorem owner_ne (h : Pages R m own) (hroot : ∀ r, own r ≠ .root p) (i : Nat) :
    (own i).owner ≠ some p := by
  have htable (i v : Nat) (hi : own i = .table p v) : False := by
    obtain ⟨-, r, hr⟩ := h.table_root hi
    exact hroot r hr
  intro hi
  cases hown : own i with
  | free => simp [hown, Role.owner] at hi
  | kernel => simp [hown, Role.owner] at hi
  | root q =>
      rw [hown] at hi
      cases hi
      exact hroot i hown
  | table q v =>
      rw [hown] at hi
      cases hi
      exact htable i v hown
  | user q n =>
      rw [hown] at hi
      cases hi
      obtain ⟨-, t, ht⟩ := h.user_table hown
      exact htable t _ ht

/-! ## The roles of the kernel change -/

/-- The tables are as before, and the pages of the processes are the same. -/
theorem recast (h : Pages R m own) (hown : SameBut .free own own')
    (hram : ∀ i, ¬ (own i).IsData → own i ≠ .free → SamePage R i m.ram m'.ram)
    (hfree : ∀ i, own' i = .free ↔ (i < NUM_PAGES → m'.allocated i = false)) : Pages R m' own' where
  free_iff := hfree
  unique {i j} hij hi := by
    cases Decidable.em (own' i = .free) with
    | inl hfree => exact absurd (congrArg Role.owner hfree) hi
    | inr hne =>
        have hi' : own i = own' i := (hown _ hi hne i).mp rfl
        have hj' : own j = own' i := (hown _ hi hne j).mp hij.symm
        exact h.unique (hi'.trans hj'.symm) (by rwa [hi'])
  root {p r} hr v hv := by
    have hr' := (hown.root (by simp) r).mp hr
    rw [← (hram r (by simp [hr', Role.IsData]) (by simp [hr'])).le32 hv]
    exact (h.root hr' v hv).congr (hown.table (by simp))
  table {p i v} hi w hw := by
    have hi' := (hown.table (by simp) i).mp hi
    rw [← (hram i (by simp [hi', Role.IsData]) (by simp [hi'])).le32 hw]
    exact (h.table hi' w hw).congr (hown.user (by simp))
  table_root {p i v} hi := by
    obtain ⟨hv, r, hr⟩ := h.table_root ((hown.table (by simp) i).mp hi)
    exact ⟨hv, r, (hown.root (by simp) r).mpr hr⟩
  user_table {p k n} hk := by
    obtain ⟨hn, i, hi⟩ := h.user_table ((hown.user (by simp) k).mp hk)
    exact ⟨hn, i, (hown.table (by simp) i).mpr hi⟩

/-- Memory is changed in pages that are not tables. -/
theorem frame (h : Pages R m own)
    (hram : ∀ i, ¬ (own i).IsData → own i ≠ .free → SamePage R i m.ram m'.ram)
    (hall : m'.allocated = m.allocated) : Pages R m' own :=
  h.recast (fun _ _ _ _ => Iff.rfl) hram fun i => by rw [hall, h.free_iff]

/-- The allocator gives a page to the kernel. -/
theorem take (h : Pages R m own) (hi : i < NUM_PAGES) (hfree : own i = .free) :
    Pages R (m.take R i) (update own i .kernel) := by
  refine h.recast (.update hfree (.inl rfl) (.inl rfl)) (fun j _ hj => ?_) fun j => ?_
  · have hji : j ≠ i := by
      rintro rfl
      exact hj hfree
    exact SamePage.copy hji (Nat.le_of_eq (Nat.zero_add _))
  · cases Decidable.em (j = i) with
    | inl hji => simp [Mem.take, hji, hi]
    | inr hji => simp [Mem.take, hji, h.free_iff]

/-! ## A process gets a page -/

/-- A page full of zeros becomes the root of a process that has none. -/
theorem makeRoot (h : Pages R m own) (hk : own k = .kernel) (hroot : ∀ r, own r ≠ .root p)
    (hzero : ∀ v < 1024, m.ram.le32 (R.page k + 4 * v) = 0) :
    Pages R m (update own k (.root p)) := by
  have hown : SameBut (.root p) own (update own k (.root p)) :=
    .update hk (.inl rfl) (.inr rfl)
  have hself (i : Nat) (hi : update own k (.root p) i = .root p) : i = k := by
    cases Decidable.em (i = k) with
    | inl hik => exact hik
    | inr hik =>
        rw [update_of_ne hik] at hi
        exact absurd hi (hroot i)
  have hnone : ∀ i, (own i).owner ≠ some p := h.owner_ne hroot
  refine ⟨fun i => ?_, hown.unique (fun i j hi hj => (hself i hi).trans (hself j hj).symm) h.unique,
    fun {q r} hr v hv => ?_, fun {q i v} hi w hw => ?_, fun {q i v} hi => ?_,
    fun {q k' n} hk' => ?_⟩
  · rw [← h.free_iff]
    cases Decidable.em (i = k) with
    | inl hik => simp [hik, hk]
    | inr hik => rw [update_of_ne hik]
  · cases Decidable.em (q = p) with
    | inl hqp =>
        subst hqp
        rw [hself r hr, hzero v hv]
        refine .none fun i hi => hnone i ?_
        rw [(hown.table (by simp) i).mp hi]
        rfl
    | inr hqp =>
        have hr' := (hown.root (by simpa using hqp) r).mp hr
        exact (h.root hr' v hv).congr (hown.table (by simp))
  · exact (h.table ((hown.table (by simp) i).mp hi) w hw).congr (hown.user (by simp))
  · have hi' := (hown.table (by simp) i).mp hi
    obtain ⟨hv, r, hr⟩ := h.table_root hi'
    have hqp : q ≠ p := by
      rintro rfl
      exact hroot r hr
    exact ⟨hv, r, (hown.root (by simpa using hqp) r).mpr hr⟩
  · obtain ⟨hn, i, hi⟩ := h.user_table ((hown.user (by simp) k').mp hk')
    exact ⟨hn, i, (hown.table (by simp) i).mpr hi⟩

/-- A page full of zeros becomes a second-level table. -/
theorem makeTable (h : Pages R m own) (hr : own r = .root p) (hk : own k = .kernel) (hv : v < 1024)
    (htable : ∀ i, own i ≠ .table p v) (hzero : ∀ w < 1024, m.ram.le32 (R.page k + 4 * w) = 0) :
    Pages R { m with ram := m.ram.put32 (R.page r + 4 * v) (pte (R.page k) 0) }
      (update own k (.table p v)) := by
  have hlt : k < NUM_PAGES := h.lt (by simp [hk])
  have hown : SameBut (.table p v) own (update own k (.table p v)) :=
    .update hk (.inl rfl) (.inr rfl)
  have hself (i : Nat) (hi : update own k (.table p v) i = .table p v) : i = k := by
    cases Decidable.em (i = k) with
    | inl hik => exact hik
    | inr hik =>
        rw [update_of_ne hik] at hi
        exact absurd hi (htable i)
  refine ⟨fun i => ?_, hown.unique (fun i j hi hj => (hself i hi).trans (hself j hj).symm) h.unique,
    fun {q r'} hr' v' hv' => ?_, fun {q i v'} hi w hw => ?_, fun {q i v'} hi => ?_,
    fun {q k' n} hk' => ?_⟩
  · rw [← h.free_iff]
    cases Decidable.em (i = k) with
    | inl hik => simp [hik, hk]
    | inr hik => rw [update_of_ne hik]
  · have hold := (hown.root (by simp) r').mp hr'
    cases Decidable.em (q = p ∧ v' = v) with
    | inl heq =>
        obtain ⟨rfl, rfl⟩ := heq
        rw [h.root_unique hold hr, Buf.le32_put32,
          Nat.mod_eq_of_lt (pte_lt (Ram.page_lt_word hlt) (by decide))]
        exact .table k (update_self ..)
    | inr hne =>
        have hword : r' ≠ r ∨ v' ≠ v := by
          refine (Decidable.not_and_iff_or_not.mp hne).imp_left fun hqp hrr => hqp ?_
          rw [hrr, hr] at hold
          exact (Role.root.inj hold).symm
        have hne' : (.table q v' : Role) ≠ .table p v := by
          simpa using hne
        rw [le32_put32_of_ne (R.page_mod r') (R.page_mod r) hv' hv
          (hword.imp_left fun hr h => hr (Ram.page_inj h))]
        exact (h.root hold v' hv').congr (hown.table hne')
  · cases Decidable.em (i = k) with
    | inl hik =>
        subst hik
        rw [update_self] at hi
        obtain ⟨rfl, rfl⟩ := Role.table.inj hi
        have hne : i ≠ r := by
          rintro rfl
          rw [hk] at hr
          cases hr
        rw [le32_put32_of_ne (R.page_mod i) (R.page_mod r) hw hv
          (.inl fun h => hne (Ram.page_inj h)), hzero w hw]
        refine .none fun j hj => ?_
        obtain ⟨-, t, ht⟩ := h.user_table ((hown.user (by simp) j).mp hj)
        refine htable t ?_
        rwa [show (v * 1024 + w) / 1024 = v by omega] at ht
    | inr hik =>
        rw [update_of_ne hik] at hi
        have hne : i ≠ r := by
          rintro rfl
          rw [hi] at hr
          cases hr
        rw [le32_put32_of_ne (R.page_mod i) (R.page_mod r) hw hv
          (.inl fun h => hne (Ram.page_inj h))]
        exact (h.table hi w hw).congr (hown.user (by simp))
  · cases Decidable.em (i = k) with
    | inl hik =>
        rw [hik, update_self] at hi
        obtain ⟨rfl, rfl⟩ := Role.table.inj hi
        exact ⟨hv, r, (hown.root (by simp) r).mpr hr⟩
    | inr hik =>
        rw [update_of_ne hik] at hi
        obtain ⟨hv', r', hr'⟩ := h.table_root hi
        exact ⟨hv', r', (hown.root (by simp) r').mpr hr'⟩
  · obtain ⟨hn, i, hi⟩ := h.user_table ((hown.user (by simp) k').mp hk')
    have hik : i ≠ k := by
      rintro rfl
      rw [hk] at hi
      cases hi
    exact ⟨hn, i, by rw [update_of_ne hik, hi]⟩

/-- An entry of a second-level table is stored. -/
theorem setLeaf (h : Pages R m own) (hi : own i = .table p (n / 1024))
    (hown : SameBut (.user p n) own own') (hleaf : Leaf R own' p n e) (he : e < 2 ^ 32)
    (huser : ∀ k, own' k = .user p n → n < 0x80000)
    (hone : ∀ j k, own' j = .user p n → own' k = .user p n → j = k)
    (hfree : ∀ j, own' j = .free ↔ (j < NUM_PAGES → allocated j = false)) :
    Pages R ⟨m.ram.put32 (R.page i + 4 * (n % 1024)) e, allocated⟩ own' := by
  have hw : n % 1024 < 1024 := Nat.mod_lt _ (by decide)
  refine ⟨hfree, hown.unique hone h.unique, fun {q r} hr v hv => ?_, fun {q j v} hj w hw' => ?_,
    fun {q j v} hj => ?_, fun {q k n'} hk => ?_⟩
  · have hr' := (hown.root (by simp) r).mp hr
    have hne : r ≠ i := by
      rintro rfl
      rw [hr'] at hi
      cases hi
    rw [le32_put32_of_ne (R.page_mod r) (R.page_mod i) hv hw (.inl fun h => hne (Ram.page_inj h))]
    exact (h.root hr' v hv).congr (hown.table (by simp))
  · have hj' := (hown.table (by simp) j).mp hj
    cases Decidable.em (j = i ∧ w = n % 1024) with
    | inl heq =>
        obtain ⟨rfl, rfl⟩ := heq
        rw [hi] at hj'
        obtain ⟨rfl, rfl⟩ := Role.table.inj hj'
        rw [Buf.le32_put32, Nat.mod_eq_of_lt he, show n / 1024 * 1024 + n % 1024 = n by omega]
        exact hleaf
    | inr hne =>
        have hword : j ≠ i ∨ w ≠ n % 1024 := Decidable.not_and_iff_or_not.mp hne
        have hne' : (.user q (v * 1024 + w) : Role) ≠ .user p n := by
          intro heq
          obtain ⟨rfl, hn⟩ := Role.user.inj heq
          have hv : v = n / 1024 := by omega
          rw [hv] at hj'
          refine hne ⟨h.table_unique hj' hi, ?_⟩
          omega
        rw [le32_put32_of_ne (R.page_mod j) (R.page_mod i) hw' hw
          (hword.imp_left fun hj h => hj (Ram.page_inj h))]
        exact (h.table hj' w hw').congr (hown.user hne')
  · obtain ⟨hv, r, hr⟩ := h.table_root ((hown.table (by simp) j).mp hj)
    exact ⟨hv, r, (hown.root (by simp) r).mpr hr⟩
  · cases Decidable.em ((.user q n' : Role) = .user p n) with
    | inl heq =>
        obtain ⟨rfl, rfl⟩ := Role.user.inj heq
        exact ⟨huser k hk, i, (hown.table (by simp) i).mpr hi⟩
    | inr hne =>
        obtain ⟨hn, t, ht⟩ := h.user_table ((hown.user hne k).mp hk)
        exact ⟨hn, t, (hown.table (by simp) t).mpr ht⟩

/-! ## Mapping -/

theorem vpn1_page (hn : n < 2 ^ 20) : vpn1 (n * PAGE_SIZE) = n / 1024 := by
  simp only [vpn1, PAGE_SIZE]
  omega

theorem vpn0_page (n : Nat) : vpn0 (n * PAGE_SIZE) = n % 1024 := by
  simp only [vpn0, PAGE_SIZE]
  omega

/-- The first-level entry for a page. -/
theorem entry1_branch (h : Pages R m own) (hr : own r = .root p) (hn : n < 2 ^ 20) :
    Branch R own p (n / 1024) (entry1 m.ram (R.page r) (n * PAGE_SIZE)) := by
  rw [entry1, vpn1_page hn]
  exact h.root hr _ (by omega)

/-- The state in which the table for page number `n` is there. -/
structure Tabled (R : Ram) (p : Fin PROCS_MAX) (n i : Nat) (m : Mem) (own : Roles) (m' : Mem)
    (own' : Roles) : Prop where
  pages : Pages R m' own'
  table : own' i = .table p (n / 1024)
  roles : ∀ j, own' j = own j ∨ own j = .free ∧ own' j = .table p (n / 1024)
  data : ∀ j, (own j).IsData → SamePage R j m.ram m'.ram

/-- The entry is stored outside of the pages with data. -/
theorem Tabled.stored (h : Tabled R p n i m own m' own') (hj : (own j).IsData) :
    SamePage R j m.ram (m'.ram.put32 (R.page i + 4 * (n % 1024)) e) := by
  have hji : j ≠ i := by
    rintro rfl
    rcases h.roles j with hold | ⟨hfree, -⟩
    · rw [← hold, h.table] at hj
      exact hj
    · rw [hfree] at hj
      exact hj
  exact (h.data j hj).trans (SamePage.put32 hji (Nat.mod_lt _ (by decide)))

/-- `map_page` stores an entry in the table it has found or made. -/
theorem mapPage_ok {pa : Nat} (h : Pages R m own) (hr : own r = .root p)
    (hn : n < 2 ^ 20) (hpa : pa % PAGE_SIZE = 0)
    (hrun : mapPage R (R.page r) (n * PAGE_SIZE) pa flags m = .ok u m') :
    ∃ i m₁ own₁, Tabled R p n i m own m₁ own₁ ∧
      m' = ⟨m₁.ram.put32 (R.page i + 4 * (n % 1024)) (pte pa flags), m₁.allocated⟩ := by
  have hva : n * PAGE_SIZE % PAGE_SIZE = 0 := Nat.mul_mod_left ..
  have hbranch := h.entry1_branch hr hn
  rcases mapPage_cases R m (R.page r) hva hpa flags with
    ⟨hval, hmap⟩ | ⟨hval, k, hk, hfree, hmap⟩ | ⟨-, -, hmap⟩
  · rw [hmap] at hrun
    obtain ⟨-, rfl⟩ := EStateM.Result.ok.inj hrun
    generalize hent : entry1 m.ram (R.page r) (n * PAGE_SIZE) = e at hbranch hval
    cases hbranch with
    | none _ => simp at hval
    | table i hi =>
        have hlt : i < NUM_PAGES := h.lt (by simp [hi])
        refine ⟨i, m, own, ⟨h, hi, fun _ => .inl rfl, fun j _ => SamePage.refl R j _⟩, ?_⟩
        rw [Mem.setEntry, hent, pteAddr_pte (Ram.page_lt_word hlt) (R.page_mod i) (by decide),
          vpn0_page]
  · rw [hmap] at hrun
    obtain ⟨-, rfl⟩ := EStateM.Result.ok.inj hrun
    generalize entry1 m.ram (R.page r) (n * PAGE_SIZE) = e at hbranch hval
    cases hbranch with
    | table i _ => simp at hval
    | none hnone =>
        have hown : own k = .free := h.free_of_not_allocated hfree
        have hkr : k ≠ r := by
          rintro rfl
          rw [hr] at hown
          cases hown
        -- the page is taken, and then becomes a table
        have htake := h.take hk hown
        have hpages := htake.makeTable (v := n / 1024) (k := k)
          (by rw [update_of_ne hkr.symm]; exact hr) (update_self ..) (by omega)
          (fun i => by
            cases Decidable.em (i = k) with
            | inl hik => simp [hik]
            | inr hik => simp [hik, hnone i])
          fun w hw => le32_cleared hw
        rw [update_idem] at hpages
        refine ⟨k, m.addTable R (R.page r) (n * PAGE_SIZE) k, update own k
          (.table p (n / 1024)), ⟨?_, update_self .., fun j => ?_, fun j hj => ?_⟩, ?_⟩
        · rw [Mem.addTable, vpn1_page hn]
          exact hpages
        · cases Decidable.em (j = k) with
          | inl hjk => exact .inr ⟨hjk ▸ hown, hjk ▸ update_self ..⟩
          | inr hjk => exact .inl (update_of_ne hjk ..)
        · have hjk : j ≠ k := by
            rintro rfl
            simp [hown, Role.IsData] at hj
          have hjr : j ≠ r := by
            rintro rfl
            simp [hr, Role.IsData] at hj
          have hcopy : SamePage R j m.ram (m.take R k).ram :=
            SamePage.copy hjk (Nat.le_of_eq (Nat.zero_add _))
          exact hcopy.trans (SamePage.put32 hjr (vpn1_lt _))
        · rw [Mem.setEntry, entry1, addTable_root_self hk,
            pteAddr_pte (Ram.page_lt_word hk) (R.page_mod k) (by decide), vpn0_page]
  · rw [hmap] at hrun
    cases hrun

end Pages

/-- Free pages have become tables and pages of process `p`, and the numbers of the
new pages of its address space are those in `S`. -/
structure Gained (R : Ram) (p : Fin PROCS_MAX) (S : Nat → Prop) (m : Mem) (own : Roles) (m' : Mem)
    (own' : Roles) : Prop where
  pages : Pages R m' own'
  roles : ∀ j, own' j = own j ∨
    own j = .free ∧ ((∃ v, own' j = .table p v) ∨ ∃ n, S n ∧ own' j = .user p n)
  all : ∀ n, S n → ∃ k, own' k = .user p n
  data : ∀ j, (own j).IsData → SamePage R j m.ram m'.ram

namespace Gained

variable {R : Ram} {m'' : Mem} {own own'' : Roles} {p q : Fin PROCS_MAX} {S T : Nat → Prop}

theorem refl (h : Pages R m own) : Gained R p (fun _ => False) m own m own :=
  ⟨h, fun _ => .inl rfl, fun _ hn => hn.elim, fun j _ => SamePage.refl R j _⟩

/-- A page that was not free keeps its role. -/
theorem keeps (h : Gained R p S m own m' own') (hj : own k ≠ .free) : own' k = own k :=
  (h.roles k).resolve_right fun hfree => hj hfree.1

theorem trans (h : Gained R p S m own m' own') (h' : Gained R p T m' own' m'' own'') :
    Gained R p (fun n => S n ∨ T n) m own m'' own'' where
  pages := h'.pages
  roles j := by
    rcases h.roles j with hj | ⟨hfree, ⟨v, hv⟩ | ⟨n, hn, hu⟩⟩
    · rw [← hj]
      refine (h'.roles j).imp_right fun hnew => ⟨hnew.1, hnew.2.imp_right ?_⟩
      rintro ⟨n, hn, hu⟩
      exact ⟨n, .inr hn, hu⟩
    · refine .inr ⟨hfree, .inl ⟨v, ?_⟩⟩
      rw [h'.keeps (by simp [hv]), hv]
    · refine .inr ⟨hfree, .inr ⟨n, .inl hn, ?_⟩⟩
      rw [h'.keeps (by simp [hu]), hu]
  all n hn := by
    rcases hn with hn | hn
    · obtain ⟨k, hk⟩ := h.all n hn
      exact ⟨k, by rw [h'.keeps (by simp [hk]), hk]⟩
    · exact h'.all n hn
  data j hj := by
    refine (h.data j hj).trans (h'.data j ?_)
    rwa [h.keeps]
    intro hfree
    simp [hfree, Role.IsData] at hj

theorem congr (h : Gained R p S m own m' own') (hST : ∀ n, S n ↔ T n) :
    Gained R p T m own m' own' where
  pages := h.pages
  roles j := (h.roles j).imp_right fun hnew => ⟨hnew.1, hnew.2.imp_right fun ⟨n, hn, hu⟩ =>
    ⟨n, (hST n).mp hn, hu⟩⟩
  all n hn := h.all n ((hST n).mpr hn)
  data := h.data

/-- The numbers of the pages of the process. -/
theorem user_iff (h : Gained R p S m own m' own') :
    (∃ k, own' k = .user p n) ↔ (∃ k, own k = .user p n) ∨ S n := by
  constructor
  · rintro ⟨k, hk⟩
    rcases h.roles k with hold | ⟨-, ⟨v, hv⟩ | ⟨n', hn', hu⟩⟩
    · exact .inl ⟨k, hold ▸ hk⟩
    · rw [hv] at hk
      cases hk
    · rw [hu] at hk
      cases hk
      exact .inr hn'
  · rintro (⟨k, hk⟩ | hn)
    · exact ⟨k, by rw [h.keeps (by simp [hk]), hk]⟩
    · exact h.all n hn

/-- The pages of the kernel and of the other processes are the same. -/
theorem other (h : Gained R p S m own m' own') (hx : x ≠ .free) (hp : x.owner ≠ some p)
    (j : Nat) : own' j = x ↔ own j = x := by
  rcases h.roles j with hold | ⟨hfree, ⟨v, hv⟩ | ⟨n', -, hu⟩⟩
  · rw [hold]
  · rw [hv, hfree]
    constructor
    · rintro rfl
      exact absurd rfl hp
    · rintro rfl
      exact absurd rfl hx
  · rw [hu, hfree]
    constructor
    · rintro rfl
      exact absurd rfl hp
    · rintro rfl
      exact absurd rfl hx

theorem root_iff (h : Gained R p S m own m' own') (j : Nat) :
    own' j = .root q ↔ own j = .root q := by
  rcases h.roles j with hold | ⟨hfree, ⟨v, hv⟩ | ⟨n', -, hu⟩⟩
  · rw [hold]
  · simp [hv, hfree]
  · simp [hu, hfree]

end Gained

namespace Pages

variable {R : Ram} {m₁ : Mem} {own : Roles} {p : Fin PROCS_MAX}

/-- Entries that stand for no page of the process: devices and the kernel. -/
theorem mapFixed (h : Pages R m own) (hr : own r = .root p) (hn : n < 2 ^ 20)
    (hnone : ∀ k, own k ≠ .user p n)
    (hleaf : ∀ own', (∀ k, own' k ≠ .user p n) → Leaf R own' p n (pte (n * PAGE_SIZE) flags))
    (hf : flags < 1024)
    (hrun : mapPage R (R.page r) (n * PAGE_SIZE) (n * PAGE_SIZE) flags m = .ok u m') :
    ∃ own', Gained R p (fun _ => False) m own m' own' := by
  obtain ⟨i, m₁, own₁, ht, rfl⟩ := h.mapPage_ok hr hn (Nat.mul_mod_left ..) hrun
  have hnone₁ (k : Nat) : own₁ k ≠ .user p n := by
    rcases ht.roles k with hk | ⟨-, hk⟩
    · rw [hk]
      exact hnone k
    · simp [hk]
  have hlt : n * PAGE_SIZE < 2 ^ 32 := by
    simp only [PAGE_SIZE]
    omega
  have hpages := ht.pages.setLeaf ht.table (fun _ _ _ _ => Iff.rfl) (hleaf own₁ hnone₁)
    (pte_lt hlt hf) (fun k hk => absurd hk (hnone₁ k)) (fun j _ hj => absurd hj (hnone₁ j))
    ht.pages.free_iff
  refine ⟨own₁, hpages, fun j => ?_, fun _ hn => hn.elim, fun j hj => ?_⟩
  · exact (ht.roles j).imp_right fun hnew => ⟨hnew.1, .inl ⟨_, hnew.2⟩⟩
  · exact ht.stored hj

/-- A page the kernel holds is given to the process at a number it has no page for. -/
theorem mapUser (h : Pages R m own) (hr : own r = .root p) (hn : n < 0x80000)
    (hk : own k = .kernel) (hnone : ∀ j, own j ≠ .user p n) (hf : UserFlags flags)
    (hrun : mapPage R (R.page r) (n * PAGE_SIZE) (R.page k) flags m = .ok u m') :
    ∃ own', Pages R m' own' ∧ own' k = .user p n ∧
      (∀ j, j ≠ k → own' j = own j ∨ own j = .free ∧ ∃ v, own' j = .table p v) ∧
      ∀ j, (own j).IsData → SamePage R j m.ram m'.ram := by
  obtain ⟨i, m₁, own₁, ht, rfl⟩ := h.mapPage_ok hr (by omega) (R.page_mod k) hrun
  have hk₁ : own₁ k = .kernel := by
    rcases ht.roles k with hold | ⟨hfree, -⟩
    · rw [hold, hk]
    · rw [hk] at hfree
      cases hfree
  have hlt : k < NUM_PAGES := h.lt (by simp [hk])
  have hself (j : Nat) (hj : update own₁ k (.user p n) j = .user p n) : j = k := by
    cases Decidable.em (j = k) with
    | inl hjk => exact hjk
    | inr hjk =>
        rw [update_of_ne hjk] at hj
        rcases ht.roles j with hold | ⟨-, hnew⟩
        · exact absurd (hold ▸ hj) (hnone j)
        · rw [hnew] at hj
          cases hj
  have hsame : SameBut (.user p n) own₁ (update own₁ k (.user p n)) :=
    .update hk₁ (.inl rfl) (.inr rfl)
  have hfree (j : Nat) : update own₁ k (.user p n) j = .free ↔
      (j < NUM_PAGES → m₁.allocated j = false) := by
    rw [← ht.pages.free_iff]
    cases Decidable.em (j = k) with
    | inl hjk => simp [hjk, hk₁]
    | inr hjk => rw [update_of_ne hjk]
  have hpages := ht.pages.setLeaf ht.table hsame (.user k flags (update_self ..) hf)
    (pte_lt (Ram.page_lt_word hlt) hf.lt) (fun _ _ => hn)
    (fun j j' hj hj' => (hself j hj).trans (hself j' hj').symm) hfree
  refine ⟨_, hpages, update_self .., fun j hjk => ?_, fun j hj => ?_⟩
  · rw [update_of_ne hjk]
    exact (ht.roles j).imp_right fun hnew => ⟨hnew.1, _, hnew.2⟩
  · exact ht.stored hj

/-- A free page is taken, filled, and given to the process. -/
theorem addPage (h : Pages R m own) (hr : own r = .root p) (hn : n < 0x80000) (hi : i < NUM_PAGES)
    (hfree : own i = .free) (hnone : ∀ j, own j ≠ .user p n) (hf : UserFlags flags)
    (hall : m₁.allocated = (m.take R i).allocated)
    (hfill : ∀ j, j ≠ i → SamePage R j (m.take R i).ram m₁.ram)
    (hrun : mapPage R (R.page r) (n * PAGE_SIZE) (R.page i) flags m₁ = .ok u m') :
    ∃ own', Gained R p (fun n' => n' = n) m own m' own' ∧ own' i = .user p n ∧
      SamePage R i m₁.ram m'.ram := by
  have hold (j : Nat) (hj : own j ≠ .free) : update own i .kernel j = own j := by
    refine update_of_ne ?_ ..
    rintro rfl
    exact hj hfree
  have hself : update own i .kernel i = .kernel := update_self ..
  have htake : Pages R m₁ (update own i .kernel) := by
    refine (h.take hi hfree).frame (fun j hj _ => hfill j ?_) hall
    rintro rfl
    exact hj (by simp [Role.IsData])
  have hr' : update own i .kernel r = .root p := by
    rw [hold r (by simp [hr]), hr]
  obtain ⟨own', hpages, hown, hroles, hdata⟩ := htake.mapUser hr' hn hself
    (fun j => by
      cases Decidable.em (j = i) with
      | inl hji => simp [hji]
      | inr hji => simp [hji, hnone j]) hf hrun
  refine ⟨own', ⟨hpages, fun j => ?_, fun n' hn' => ⟨i, hn' ▸ hown⟩, fun j hj => ?_⟩, hown,
    hdata i (by simp [Role.IsData])⟩
  · cases Decidable.em (j = i) with
    | inl hji => exact .inr ⟨hji ▸ hfree, .inr ⟨n, rfl, hji ▸ hown⟩⟩
    | inr hji =>
        have hjrole := hroles j hji
        rw [update_of_ne hji] at hjrole
        exact hjrole.imp_right fun hnew => ⟨hnew.1, .inl hnew.2⟩
  · have hji : j ≠ i := by
      rintro rfl
      simp [hfree, Role.IsData] at hj
    have hcopy : SamePage R j m.ram (m.take R i).ram :=
      SamePage.copy hji (Nat.le_of_eq (Nat.zero_add _))
    refine (hcopy.trans (hfill j hji)).trans (hdata j ?_)
    rwa [update_of_ne hji]

/-! ## A process loses its pages -/

/-- Process `p` has no pages any more, and those of the other processes are the same. -/
theorem drop (h : Pages R m own)
    (hother : ∀ x : Role, x.owner ≠ none → x.owner ≠ some p → ∀ i, own' i = x ↔ own i = x)
    (hgone : ∀ i, (own' i).owner ≠ some p)
    (hfree : ∀ i, own' i = .free ↔ (i < NUM_PAGES → allocated i = false)) :
    Pages R ⟨m.ram, allocated⟩ own' := by
  have hne {i : Nat} {x : Role} {q : Fin PROCS_MAX} (hi : own' i = x) (hx : x.owner = some q) :
      x.owner ≠ none ∧ x.owner ≠ some p := by
    refine ⟨by simp [hx], ?_⟩
    rw [← hi]
    exact hgone i
  have hold {i : Nat} {x : Role} {q : Fin PROCS_MAX} (hi : own' i = x) (hx : x.owner = some q) :
      own i = x := (hother x (hne hi hx).1 (hne hi hx).2 i).mp hi
  refine ⟨hfree, fun {i j} hij hi => ?_, fun {q r} hr v hv => ?_, fun {q i v} hi w hw => ?_,
    fun {q i v} hi => ?_, fun {q k n} hk => ?_⟩
  · obtain ⟨q, hq⟩ := Option.ne_none_iff_exists'.mp hi
    have hi' := hold rfl hq
    have hj' := hold hij.symm hq
    exact h.unique (hi'.trans hj'.symm) (by rwa [hi'])
  · have hqp : q ≠ p := by
      rintro rfl
      exact hgone r (by rw [hr]; rfl)
    refine (h.root (hold hr rfl) v hv).congr (hother _ (by simp [Role.owner]) ?_)
    simpa [Role.owner] using hqp
  · have hqp : q ≠ p := by
      rintro rfl
      exact hgone i (by rw [hi]; rfl)
    refine (h.table (hold hi rfl) w hw).congr (hother _ (by simp [Role.owner]) ?_)
    simpa [Role.owner] using hqp
  · obtain ⟨hv, r, hr⟩ := h.table_root (hold hi rfl)
    have hqp : q ≠ p := by
      rintro rfl
      exact hgone i (by rw [hi]; rfl)
    refine ⟨hv, r, (hother _ (by simp [Role.owner]) ?_ r).mpr hr⟩
    simpa [Role.owner] using hqp
  · obtain ⟨hn, i, hi⟩ := h.user_table (hold hk rfl)
    have hqp : q ≠ p := by
      rintro rfl
      exact hgone k (by rw [hk]; rfl)
    refine ⟨hn, i, (hother _ (by simp [Role.owner]) ?_ i).mpr hi⟩
    simpa [Role.owner] using hqp

end Pages

end Dmaos
