import Dmaos.Memory.Life

/-!
# What the processes can reach

The books on pages are internal to the proofs.  Here the same facts are said in
terms of the machine only: the page tables, the allocator and the breaks.  A page
serves for something when a table of a live process says so (`ServesAs`); while the
books are in order, that is its role.

From this come the isolation of address spaces, the account of all pages in use,
and the shape of the heap.
-/

namespace Dmaos

open Fault

namespace Machine

/-- Entry `v` of the first-level table of a process. -/
def branch (s : Machine) (p : Fin PROCS_MAX) (v : Nat) : Nat :=
  s.mem.ram.le32 ((s.space p).pageTable.getD 0 + 4 * v)

/-- The page behind an address of a process, and its flags. -/
def maps (s : Machine) (p : Fin PROCS_MAX) (va : Nat) : Option (Nat × Nat) :=
  (s.space p).pageTable.bind fun t1 => walk s.mem.ram t1 va

/-- The program of a process can use the address, which leads to the page at `a`. -/
def Uses (s : Machine) (p : Fin PROCS_MAX) (va a : Nat) : Prop :=
  ∃ flags, s.maps p va = some (a, flags) ∧ hasFlag flags PAGE_U = true

/-- The byte at an address of a process. -/
def byteAt (s : Machine) (p : Fin PROCS_MAX) (va : Nat) : Option Byte :=
  (s.maps p va).map fun x => s.mem.ram (x.1 + va % PAGE_SIZE)

/-- What the tables say about page `i`. -/
def ServesAs (R : Ram) (s : Machine) (i : Nat) : Role → Prop
  | .free => False
  | .kernel => i < bootPages
  | .root p => s.Live p ∧ (s.space p).pageTable = some (R.page i)
  | .table p v => s.Live p ∧ v < 1024 ∧ hasFlag (s.branch p v) PAGE_V = true ∧
      pteAddr (s.branch p v) = R.page i
  | .user p n => s.Live p ∧ n < 0x80000 ∧ s.Uses p (n * PAGE_SIZE) (R.page i)

end Machine

open Machine

/-! ## Roles and tables -/

section Roles

variable {R : Ram} {s s' : Machine} {own : Roles} {p q : Fin PROCS_MAX} {i n v va a f : Nat}

theorem hasFlag_zero_valid : hasFlag 0 PAGE_V = false := by decide

theorem Settled.alive (h : Settled R s own) (hr : own i = .root p) : s.Live p :=
  fun hunused => h.unused p hunused i hr

/-- What a process can look up is mapped for one of the three reasons. -/
theorem Settled.mapping (h : Settled R s own) (hlive : s.Live p) (hva : va < 2 ^ 32)
    (hmaps : s.maps p va = some (a, f)) : Mapping R own p (va / PAGE_SIZE) a f := by
  obtain ⟨r, hr, hroot⟩ := h.root hlive
  rw [maps, hr, Option.bind_some] at hmaps
  exact h.pages.walk_some hroot hva hmaps

theorem Settled.uses (h : Settled R s own) (hlive : s.Live p) (hva : va < 2 ^ 32)
    (huses : s.Uses p va a) : ∃ k, own k = .user p (va / PAGE_SIZE) ∧ a = R.page k := by
  obtain ⟨f, hmaps, huser⟩ := huses
  obtain ⟨k, hk, ha, -⟩ := (h.mapping hlive hva hmaps).of_user huser
  exact ⟨k, hk, ha⟩

/-- The pages of a process are mapped, and can be read and written. -/
theorem Settled.maps_user (h : Settled R s own) (hva : va < 2 ^ 32)
    (hi : own i = .user p (va / PAGE_SIZE)) :
    s.Live p ∧ ∃ flags, UserFlags flags ∧ s.maps p va = some (R.page i, flags ||| PAGE_V) := by
  obtain ⟨-, t, ht⟩ := h.pages.user_table hi
  obtain ⟨-, r, hr⟩ := h.pages.table_root ht
  have hlive := h.alive hr
  obtain ⟨r', hr', hroot⟩ := h.root hlive
  obtain ⟨flags, hf, hwalk⟩ := h.pages.walk_user hroot hva hi
  exact ⟨hlive, flags, hf, by rw [maps, hr', Option.bind_some, hwalk]⟩

/-- The first-level table has no leaves, and it points to the tables of the process. -/
theorem Settled.branch_cases (h : Settled R s own) (hlive : s.Live p) (hv : v < 1024) :
    (s.branch p v = 0 ∧ ∀ i, own i ≠ .table p v) ∨
      ∃ i, own i = .table p v ∧ s.branch p v = pte (R.page i) 0 := by
  obtain ⟨r, hr, hroot⟩ := h.root hlive
  have hbranch := h.pages.root hroot v hv
  rw [branch, hr, Option.getD_some]
  generalize s.mem.ram.le32 (R.page r + 4 * v) = e at hbranch
  cases hbranch with
  | none hnone => exact .inl ⟨rfl, hnone⟩
  | table i hi => exact .inr ⟨i, hi, rfl⟩

theorem Settled.branch_addr (h : Settled R s own) (hi : own i = .table p v)
    (hbranch : s.branch p v = pte (R.page i) 0) : pteAddr (s.branch p v) = R.page i := by
  have hlt : i < NUM_PAGES := h.pages.lt (by simp [hi])
  rw [hbranch, pteAddr_pte (Ram.page_lt_word hlt) (R.page_mod i) (by decide)]

/-- While the books are in order, the tables say what the roles say. -/
theorem Settled.servesAs_iff (h : Settled R s own) {x : Role} (hx : x.owner ≠ none) :
    ServesAs R s i x ↔ own i = x := by
  cases x with
  | free => exact absurd rfl hx
  | kernel => exact absurd rfl hx
  | root p =>
      constructor
      · rintro ⟨hlive, htable⟩
        obtain ⟨r, hr, hroot⟩ := h.root hlive
        rw [hr] at htable
        rwa [← Ram.page_inj (Option.some.inj htable)]
      · intro hi
        have hlive := h.alive hi
        obtain ⟨r, hr, hroot⟩ := h.root hlive
        exact ⟨hlive, h.pages.root_unique hi hroot ▸ hr⟩
  | table p v =>
      constructor
      · rintro ⟨hlive, hv, hvalid, haddr⟩
        rcases h.branch_cases hlive hv with ⟨hzero, -⟩ | ⟨t, ht, hbranch⟩
        · rw [hzero, hasFlag_zero_valid] at hvalid
          cases hvalid
        · rw [h.branch_addr ht hbranch] at haddr
          rwa [← Ram.page_inj haddr]
      · intro hi
        obtain ⟨hv, r, hr⟩ := h.pages.table_root hi
        have hlive := h.alive hr
        rcases h.branch_cases hlive hv with ⟨-, hnone⟩ | ⟨t, ht, hbranch⟩
        · exact absurd hi (hnone i)
        · refine ⟨hlive, hv, ?_, ?_⟩
          · rw [hbranch, hasFlag_pte_valid]
          · rw [h.branch_addr ht hbranch, h.pages.table_unique ht hi]
  | user p n =>
      have hnum : n * PAGE_SIZE / PAGE_SIZE = n := Nat.mul_div_cancel _ (by decide)
      constructor
      · rintro ⟨hlive, hn, huses⟩
        have hva : n * PAGE_SIZE < 2 ^ 32 := by
          simp only [PAGE_SIZE]
          omega
        obtain ⟨k, hk, ha⟩ := h.uses hlive hva huses
        rw [hnum] at hk
        rwa [Ram.page_inj ha]
      · intro hi
        have hn := (h.pages.user_table hi).1
        have hva : n * PAGE_SIZE < 2 ^ 32 := by
          simp only [PAGE_SIZE]
          omega
        obtain ⟨hlive, flags, hf, hmaps⟩ := h.maps_user hva (hnum.symm ▸ hi)
        exact ⟨hlive, hn, flags ||| PAGE_V, hmaps, hf.user⟩

end Roles

/-! ## Isolation -/

/-- The page at `a` is in use and belongs to number `n` in the address space of
process `p` alone. -/
structure OwnPage (R : Ram) (s : Machine) (p : Fin PROCS_MAX) (n a : Nat) : Prop where
  inside : R.start ≤ a ∧ a < R.stop
  /-- The allocator has marked it, and it is not one of the pages of the drivers. -/
  marked : ∃ i < NUM_PAGES, a = R.page i ∧ s.mem.allocated i = true ∧ bootPages ≤ i
  alone : ∀ q va, s.Live q → va < 2 ^ 32 → s.Uses q va a → q = p ∧ va / PAGE_SIZE = n
  no_table : ∀ q, s.Live q → (s.space q).pageTable ≠ some a ∧
    ∀ v < 1024, hasFlag (s.branch q v) PAGE_V = true → pteAddr (s.branch q v) ≠ a

/-- What a program can use is its own. -/
structure Isolated (R : Ram) (s : Machine) : Prop where
  /-- The leaves of a page table are in its second level. -/
  no_leaf : ∀ p, s.Live p → ∀ v < 1024, hasFlag (s.branch p v) PAGE_V = true →
    hasFlag (s.branch p v) (PAGE_R ||| PAGE_W ||| PAGE_X) = false
  own : ∀ p va a, s.Live p → va < 2 ^ 32 → s.Uses p va a → OwnPage R s p (va / PAGE_SIZE) a

section Isolation

variable {R : Ram} {s s' : Machine} {own : Roles} {p : Fin PROCS_MAX} {k n : Nat}

theorem Settled.ownPage (h : Settled R s own) (hboot : ∀ i < bootPages, own i = .kernel)
    (hk : own k = .user p n) : OwnPage R s p n (R.page k) where
  inside := ⟨R.le_page k, Ram.page_lt (h.pages.lt (by simp [hk]))⟩
  marked := by
    have hlt : k < NUM_PAGES := h.pages.lt (by simp [hk])
    refine ⟨k, hlt, rfl, (h.pages.allocated_iff hlt).mpr (by simp [hk]), ?_⟩
    refine Nat.le_of_not_lt fun hlow => ?_
    rw [hboot k hlow] at hk
    cases hk
  alone q va hlive hva huses := by
    obtain ⟨j, hj, ha⟩ := h.uses hlive hva huses
    rw [← Ram.page_inj ha, hk] at hj
    cases hj
    exact ⟨rfl, rfl⟩
  no_table q hlive := by
    refine ⟨fun htable => ?_, fun v hv hvalid haddr => ?_⟩
    · have hroot := (h.servesAs_iff (by simp [Role.owner])).mp
        (show ServesAs R s k (.root q) from ⟨hlive, htable⟩)
      rw [hk] at hroot
      cases hroot
    · have htable := (h.servesAs_iff (by simp [Role.owner])).mp
        (show ServesAs R s k (.table q v) from ⟨hlive, hv, hvalid, haddr⟩)
      rw [hk] at htable
      cases htable

theorem Settled.isolated (h : Settled R s own) (hboot : ∀ i < bootPages, own i = .kernel) :
    Isolated R s where
  no_leaf p hlive v hv hvalid := by
    rcases h.branch_cases hlive hv with ⟨hzero, -⟩ | ⟨i, hi, hbranch⟩
    · rw [hzero]
      decide
    · rw [hbranch]
      exact hasFlag_pte_pointer _
  own p va a hlive hva huses := by
    obtain ⟨k, hk, rfl⟩ := h.uses hlive hva huses
    exact h.ownPage hboot hk

end Isolation

/-- The arguments of the programs that are started fit in the last pages of their
images. -/
def SpawnFits (p : Fin PROCS_MAX) : Action → Machine → Prop
  | .call (.spawn cmdline), s =>
    ∀ size, programSize { s.k with current := some p } (argv cmdline.1) = some size →
      ArgsFit size (argv cmdline.1)
  | _, _ => True

theorem SpawnFits.confined {p : Fin PROCS_MAX} {a : Action} {s : Machine} (h : SpawnFits p a s) :
    SpawnConfined copyArguments p a s := by
  cases a with
  | call c =>
      cases c <;> try trivial
      exact fun size hsize => (h size hsize).confined
  | sbrk inc => trivial
  | store vaddr b => trivial

/-- In a run in which the arguments of all programs fit, the address spaces are
isolated from each other, from the page tables and from the kernel. -/
theorem address_spaces_isolated {R : Ram} {hw : Hardware} {s : Machine}
    (h : Machine.Reached R copyArguments hw (fun p a s _ => SpawnFits p a s) s) : Isolated R s := by
  obtain ⟨own, hsettled, hboot⟩ := h.settled fun _ _ _ _ => SpawnFits.confined
  exact hsettled.isolated hboot

/-- The program `/` with the argument `a`, from its start to its end. -/
theorem shortLine_lives : ∃ s s₁ s₂ s₃ s₄ s₅, Life Ram.megabyte copyArguments
    (fun p a s _ => SpawnFits p a s) s s₁ s₂ s₃ s₄ s₅ := by
  refine machine_lives _ (storable_copyArguments (by decide)) (fun _ _ _ _ => SpawnFits.confined)
    (fun s hsize size hsize' => ?_) (fun _ _ _ _ => trivial) (fun _ _ _ => trivial)
    fun _ _ _ _ => trivial
  obtain rfl := Option.some.inj (hsize.symm.trans hsize')
  decide

/-- A program is started, moves its break up and down, and ends. -/
theorem address_spaces_isolated_boot : ∃ s s₁ s₂ s₃ s₄ s₅, Life Ram.megabyte copyArguments
      (fun p a s _ => SpawnFits p a s) s s₁ s₂ s₃ s₄ s₅ ∧
    ∀ t ∈ [s, s₁, s₂, s₃, s₄, s₅], Isolated Ram.megabyte t := by
  obtain ⟨s, s₁, s₂, s₃, s₄, s₅, h⟩ := shortLine_lives
  exact ⟨s, s₁, s₂, s₃, s₄, s₅, h, fun t ht => address_spaces_isolated (h.reached t ht)⟩

/-- A program with an argument of 100 bytes can use a page that is not in memory. -/
theorem spawn_breaks_isolation :
    ∃ s, Machine.Reached Ram.megabyte copyArguments machine (fun _ _ _ _ => True) s ∧ s.Live 2 ∧
      s.Uses 2 0x103ff000 0xdcdcd000 ∧ Ram.megabyte.stop < 0xdcdcd000 ∧
        ¬ Isolated Ram.megabyte s := by
  obtain ⟨s, s', hs, hstep, hstate, t1, sp, hspace, hwalk⟩ := machine_spills Ram.megabyte
  have hlive : s'.Live 2 := by simp [Live, hstate]
  have huses : s'.Uses 2 0x103ff000 0xdcdcd000 :=
    ⟨0x337, by rw [maps, hspace, newSpace, Option.bind_some, hwalk], by decide⟩
  refine ⟨s', .step hs trivial hstep, hlive, huses, by decide, fun hiso => ?_⟩
  have hinside := (hiso.own 2 0x103ff000 0xdcdcd000 hlive (by decide) huses).inside.2
  exact absurd hinside (by decide)

/-! ## The account of all pages -/

/-- The pages in use are those of the drivers and those of the live processes, and
each is used for one thing. -/
structure PagesAccounted (R : Ram) (s : Machine) : Prop where
  marked_iff : ∀ i < NUM_PAGES, s.mem.allocated i = true ↔ ∃ x, ServesAs R s i x
  disjoint : ∀ i x y, ServesAs R s i x → ServesAs R s i y → x = y

section Account

variable {R : Ram} {copy : ArgCopy} {s s' : Machine} {own : Roles} {p : Fin PROCS_MAX}

theorem Settled.servesAs_eq (h : Settled R s own) (hboot : ∀ i, own i = .kernel ↔ i < bootPages)
    {i : Nat} {x : Role} : ServesAs R s i x ↔ x ≠ .free ∧ own i = x := by
  cases x with
  | free => simp [ServesAs]
  | kernel =>
      rw [hboot i]
      simp [ServesAs]
  | root p => simp [h.servesAs_iff (x := .root p) (by simp [Role.owner])]
  | table p v => simp [h.servesAs_iff (x := .table p v) (by simp [Role.owner])]
  | user p n => simp [h.servesAs_iff (x := .user p n) (by simp [Role.owner])]

theorem Settled.accounted (h : Settled R s own) (hboot : ∀ i, own i = .kernel ↔ i < bootPages) :
    PagesAccounted R s where
  marked_iff i hi := by
    rw [h.pages.allocated_iff hi]
    constructor
    · exact fun hne => ⟨own i, (h.servesAs_eq hboot).mpr ⟨hne, rfl⟩⟩
    · rintro ⟨x, hx⟩
      obtain ⟨hne, rfl⟩ := (h.servesAs_eq hboot).mp hx
      exact hne
  disjoint i x y hx hy := by
    rw [← ((h.servesAs_eq hboot).mp hx).2, ((h.servesAs_eq hboot).mp hy).2]

/-- A step after which `p` is gone has given back the pages of `p`. -/
theorem step_reaps {q : Fin PROCS_MAX} {a : Action} {ret : Int} (h : Settled R s own)
    (hconf : SpawnConfined copy q a s) (hrun : Machine.step R copy q a s = .ok ret s')
    (hlive : s.Live p) (hgone : ¬ s'.Live p) : Settled R s' (own.without p) := by
  rcases step_cases h hconf hrun with ⟨own', hadv⟩ | ⟨r, -, hbut, hsettled⟩
  · exact absurd (hadv.lives p hlive) hgone
  · cases Decidable.em (p = r) with
    | inl hpr => exact hpr ▸ hsettled
    | inr hpr =>
        rw [Live, hbut.state p hpr] at hgone
        exact absurd hlive hgone

theorem noArguments_confined {q : Fin PROCS_MAX} {a : Action} :
    SpawnConfined noArguments q a s := by
  cases a with
  | call c =>
      cases c <;> try trivial
      intro size _ last sp m m' _ hrun
      obtain ⟨-, rfl⟩ := pure_ok.mp hrun
      exact ⟨rfl, fun _ _ => rfl⟩
  | sbrk inc => trivial
  | store vaddr b => trivial

/-- From the state `s` on: process `q` starts `p`, which runs with whatever it does to
its heap, while the others leave theirs alone. -/
inductive Lifetime (R : Ram) (copy : ArgCopy) (q p : Fin PROCS_MAX) (s : Machine) :
    Machine → Prop where
  | spawned {cmdline : CString} {ret : Int} {s' : Machine} (new : ¬ s.Live p)
      (run : Machine.step R copy q (.call (.spawn cmdline)) s = .ok ret s') (live : s'.Live p) :
      Lifetime R copy q p s s'
  | step {r : Fin PROCS_MAX} {a : Action} {ret : Int} {s₁ s₂ : Machine}
      (before : Lifetime R copy q p s s₁) (quiet : a.Quiet) (heap : r ≠ p → ∀ inc, a ≠ .sbrk inc)
      (run : Machine.step R copy r a s₁ = .ok ret s₂) : Lifetime R copy q p s s₂

theorem OnlyOf.trans {own₁ own₂ : Roles} (h : OnlyOf p own own₁) (h' : OnlyOf p own₁ own₂) :
    OnlyOf p own own₂ := fun x hx hp j => (h' x hx hp j).trans (h x hx hp j)

/-- The process that is started is the only one that is new. -/
theorem spawned_others {q : Fin PROCS_MAX} {cmdline : CString} {ret : Int} (h : Settled R s own)
    (hconf : SpawnConfined copy q (.call (.spawn cmdline)) s) (hnew : ¬ s.Live p)
    (hlive : s'.Live p) (hrun : Machine.step R copy q (.call (.spawn cmdline)) s = .ok ret s') :
    ∃ own', Settled R s' own' ∧ OnlyOf p own own' := by
  obtain ⟨-, hrun⟩ := step_ok hrun
  rcases spawn_cases (h.running q) hconf hrun with ⟨-, own', hleaked⟩ | ⟨r, own', hspawned⟩
  · rw [Live, hleaked.steady.state p] at hlive
    exact absurd hlive hnew
  · cases Decidable.em (p = r) with
    | inl hpr =>
        subst hpr
        exact ⟨own', hspawned.settled, hspawned.others⟩
    | inr hpr =>
        rw [Live, hspawned.steady.state p hpr] at hlive
        exact absurd hlive hnew

theorem Lifetime.others {q : Fin PROCS_MAX} (hconf : ∀ q a s, SpawnConfined copy q a s)
    (h : Lifetime R copy q p s s') (hs : Settled R s own) :
    ¬ s.Live p ∧ s'.Live p ∧ ∃ own', Settled R s' own' ∧ OnlyOf p own own' := by
  induction h with
  | spawned new run live => exact ⟨new, live, spawned_others hs (hconf _ _ _) new live run⟩
  | @step r a ret s₁ s₂ before quiet heap run ih =>
      obtain ⟨hnew, hlive, own₁, hsettled, honly⟩ := ih
      obtain ⟨hrunnable, hrun⟩ := step_ok run
      have hr : (s₁.k.procs r).state ≠ .unused := by simp [hrunnable]
      refine ⟨hnew, ?_⟩
      cases Decidable.em (r = p) with
      | inl hrp =>
          subst hrp
          obtain ⟨own₂, halone⟩ := act_alone (hsettled.running r) rfl hr quiet hrun
          exact ⟨halone.lives r hlive, own₂, halone.settled, honly.trans halone.others⟩
      | inr hrp =>
          have halone := act_same (hsettled.running r) rfl hr quiet (heap hrp) hrun p
          exact ⟨halone.lives p hlive, own₁, halone.settled, honly.trans halone.others⟩

/-- Once a process is gone, the marks are those from before it was started. -/
theorem Lifetime.restored {q r : Fin PROCS_MAX} {a : Action} {ret : Int} {s₁ s₂ : Machine}
    (hconf : ∀ q a s, SpawnConfined copy q a s) (h : Lifetime R copy q p s s₁)
    (hs : Settled R s own)
    (hrun : Machine.step R copy r a s₁ = .ok ret s₂) (hgone : ¬ s₂.Live p) {i : Nat}
    (hi : i < NUM_PAGES) : s₂.mem.allocated i = s.mem.allocated i := by
  obtain ⟨hnew, hlive, own₁, hsettled, honly⟩ := h.others hconf hs
  have hsettled' := step_reaps hsettled (hconf _ _ _) hrun hlive hgone
  have hnone : (own i).owner ≠ some p :=
    hs.pages.owner_ne (hs.unused p (Decidable.not_not.mp hnew)) i
  rw [Bool.eq_iff_iff, hsettled'.pages.allocated_iff hi, hs.pages.allocated_iff hi]
  constructor
  · intro hne
    have howner : (own₁ i).owner ≠ some p := fun howner => hne (Roles.without_of_owner howner)
    rw [Roles.without_of_ne howner] at hne
    rw [(honly _ hne howner i).mp rfl]
    exact hne
  · intro hne
    have hsame := (honly _ hne hnone i).mpr rfl
    rwa [Roles.without_of_ne (by rw [hsame]; exact hnone), hsame]

/-- In a run in which no spawn fails, all pages in use are accounted for.  When a
process is reaped its pages are free, and the others serve as before: the marks are
what they were before the process was started. -/
theorem pages_accounted {hw : Hardware}
    (h : Machine.Reached R noArguments hw (fun _ a _ ret => ¬ FailedSpawn ret a) s) :
    PagesAccounted R s ∧ (∀ q a ret s' p, Machine.step R noArguments q a s = .ok ret s' →
      s.Live p → ¬ s'.Live p →
      ∀ i < NUM_PAGES, (s'.mem.allocated i = true ↔
          s.mem.allocated i = true ∧ ∀ x, ServesAs R s i x → x.owner ≠ some p) ∧
        ∀ x, ServesAs R s' i x ↔ ServesAs R s i x ∧ x.owner ≠ some p) ∧
    ∀ q p r a ret s₁ s₂, Lifetime R noArguments q p s s₁ →
      Machine.step R noArguments r a s₁ = .ok ret s₂ → ¬ s₂.Live p →
      ∀ i < NUM_PAGES, s₂.mem.allocated i = s.mem.allocated i := by
  obtain ⟨own, hsettled, hboot⟩ :=
    h.settled_exact (fun _ _ _ _ _ => noArguments_confined) fun _ _ _ _ hcond => hcond
  refine ⟨hsettled.accounted hboot, fun q a ret s' p hrun hlive hgone i hi => ?_,
    fun q p r a ret s₁ s₂ hlife hrun hgone i hi =>
      hlife.restored (fun _ _ _ => noArguments_confined) hsettled hrun hgone hi⟩
  have hsettled' := step_reaps hsettled noArguments_confined hrun hlive hgone
  have hboot' (j : Nat) : own.without p j = .kernel ↔ j < bootPages := by
    rw [Roles.without_kernel, hboot]
  constructor
  · rw [hsettled'.pages.allocated_iff hi, hsettled.pages.allocated_iff hi]
    constructor
    · intro hne
      have howner : (own i).owner ≠ some p := fun howner => hne (Roles.without_of_owner howner)
      rw [Roles.without_of_ne howner] at hne
      refine ⟨hne, fun x hx => ?_⟩
      obtain ⟨-, rfl⟩ := (hsettled.servesAs_eq hboot).mp hx
      exact howner
    · rintro ⟨hne, hothers⟩
      rwa [Roles.without_of_ne (hothers _ ((hsettled.servesAs_eq hboot).mpr ⟨hne, rfl⟩))]
  · intro x
    rw [hsettled'.servesAs_eq hboot', hsettled.servesAs_eq hboot]
    constructor
    · rintro ⟨hne, hx⟩
      have howner : x.owner ≠ some p := hx ▸ Roles.without_owner_ne own p i
      exact ⟨⟨hne, (Roles.without_iff hne howner i).mp hx⟩, howner⟩
    · rintro ⟨⟨hne, hx⟩, howner⟩
      exact ⟨hne, (Roles.without_iff hne howner i).mpr hx⟩

/-- A program is started, moves its break up and down, and ends: the pages in use are then
those that were in use before. -/
theorem pages_accounted_boot : ∃ s s₁ s₂ s₃ s₄ s₅, Life Ram.megabyte noArguments
      (fun _ a _ ret => ¬ FailedSpawn ret a) s s₁ s₂ s₃ s₄ s₅ ∧
    (∀ t ∈ [s, s₁, s₂, s₃, s₄, s₅], PagesAccounted Ram.megabyte t) ∧
    ∀ i < NUM_PAGES, s₅.mem.allocated i = s.mem.allocated i := by
  obtain ⟨s, s₁, s₂, s₃, s₄, s₅, h⟩ := machine_lives Ram.megabyte storable_noArguments
    (P := fun _ a _ ret => ¬ FailedSpawn ret a) (fun _ _ _ _ _ => noArguments_confined)
    (fun _ _ => (by decide : ¬ (3 : Int) = -1)) (fun _ _ _ _ => id) (fun _ _ _ => id)
    fun _ _ _ _ => id
  obtain ⟨r, hexit⟩ := h.exit
  have hlife₁ := Lifetime.spawned (h.dead s (by simp)) h.spawn (h.live s₁ (by simp))
  have hlife₂ := hlife₁.step (by trivial) (fun hne => absurd rfl hne) h.grow
  have hlife₃ := hlife₂.step (by trivial) (fun hne => absurd rfl hne) h.shrink
  have hlife₄ := hlife₃.step (by trivial) (fun hne => absurd rfl hne) hexit
  exact ⟨s, s₁, s₂, s₃, s₄, s₅, h, fun t ht => (pages_accounted (h.reached t ht)).1,
    (pages_accounted (h.reached s (by simp))).2.2 1 2 1 _ 0 s₄ s₅ hlife₄ h.wait
    (h.dead s₅ (by simp))⟩

end Account

/-! ## The heap -/

/-- The heap of a process is what its table maps from `heapStart` on, next to the
devices and the kernel. -/
structure HeapMapped (R : Ram) (s : Machine) (p : Fin PROCS_MAX) : Prop where
  le : (s.space p).heapStart ≤ (s.space p).heapEnd
  lt : (s.space p).heapEnd < 0x80000000
  mapped_iff : ∀ va, (s.space p).heapStart ≤ va → va < 0x80000000 → ¬ IsDevice (va / PAGE_SIZE) →
    ((s.maps p va).isSome ↔ va < alignUp (s.space p).heapEnd)
  backed : ∀ va, (s.space p).heapStart ≤ va → va < alignUp (s.space p).heapEnd →
    va < 0x80000000 ∧ ¬ IsDevice (va / PAGE_SIZE) ∧
    ∃ a flags, s.maps p va = some (a, flags) ∧ hasFlag flags PAGE_U = true ∧
      hasFlag flags PAGE_R = true ∧ hasFlag flags PAGE_W = true ∧ OwnPage R s p (va / PAGE_SIZE) a

/-- What a call of `sbrk` by process `p` does. -/
structure BreakMoved (s : Machine) (p : Fin PROCS_MAX) (inc ret : Int) (s' : Machine) : Prop where
  /-- A call that fails leaves everything as it is. -/
  failed : ret = -1 → s' = { s with k := { s.k with current := some p } }
  moved : ret ≠ -1 → ret = (s.space p).heapEnd ∧
    ((s'.space p).heapEnd : Int) = (s.space p).heapEnd + inc
  start : (s'.space p).heapStart = (s.space p).heapStart
  /-- What stays mapped keeps its bytes. -/
  kept : ∀ q va a a', s.Live q → va < 2 ^ 32 → s.Uses q va a → s'.Uses q va a' →
    s'.byteAt q va = s.byteAt q va
  /-- What is mapped anew reads as zero. -/
  fresh : ∀ q va a', s.Live q → va < 2 ^ 32 → (∀ a, ¬ s.Uses q va a) → s'.Uses q va a' →
    s'.byteAt q va = some 0

section Heap

variable {R : Ram} {s s' : Machine} {own own' : Roles} {p q : Fin PROCS_MAX} {va a k : Nat}

/-- The image and the heap end at the break, rounded up to pages. -/
theorem Settled.user_iff (h : Settled R s own) (hlive : s.Live p)
    (hva : (s.space p).heapStart ≤ va) :
    (∃ k, own k = .user p (va / PAGE_SIZE)) ↔ va < alignUp (s.space p).heapEnd := by
  have hspace := h.live p hlive
  have hbase : USER_BASE ≤ va / PAGE_SIZE * PAGE_SIZE := by
    have h₁ := hspace.base_le
    have h₂ := hspace.aligned
    simp only [PAGE_SIZE] at *
    omega
  have hup : va / PAGE_SIZE < pagesUpTo (s.space p).heapEnd ↔ va < alignUp (s.space p).heapEnd := by
    rw [alignUp_eq]
    exact Nat.div_lt_iff_lt_mul (by decide)
  rw [hspace.mapped, ← hup, ← lt_pagesUpTo]
  exact ⟨fun hn => hn.2, fun hn => ⟨hbase, hn⟩⟩

theorem UserFlags.access {flags : Nat} (h : UserFlags flags) :
    hasFlag (flags ||| PAGE_V) PAGE_R = true ∧ hasFlag (flags ||| PAGE_V) PAGE_W = true := by
  rcases h with rfl | rfl <;> decide

theorem Settled.heapMapped (h : Settled R s own) (hboot : ∀ i < bootPages, own i = .kernel)
    (hlive : s.Live p) : HeapMapped R s p := by
  have hspace := h.live p hlive
  have hend := hspace.heapEnd_le h.pages
  have hlow (va : Nat) (hva : va < alignUp (s.space p).heapEnd) :
      va < 0x80000000 ∧ ¬ IsDevice (va / PAGE_SIZE) := by
    simp only [IsDevice, alignUp, USER_BASE, NUM_PAGES, PAGE_SIZE] at *
    omega
  refine ⟨hspace.le, ?_, fun va hstart htop hdev => ?_, fun va hstart hva => ?_⟩
  · simp only [USER_BASE, NUM_PAGES, PAGE_SIZE] at hend
    omega
  · rw [← h.user_iff hlive hstart]
    constructor
    · intro hsome
      obtain ⟨⟨a, f⟩, hmaps⟩ := Option.isSome_iff_exists.mp hsome
      have hmapping := h.mapping hlive (by omega) hmaps
      cases hmapping with
      | user k flags hk _ => exact ⟨k, hk⟩
      | device hn => exact absurd hn hdev
      | kernel hn =>
          simp only [PAGE_SIZE] at hn
          omega
    · rintro ⟨k, hk⟩
      obtain ⟨-, flags, -, hmaps⟩ := h.maps_user (by omega) hk
      rw [hmaps]
      rfl
  · obtain ⟨htop, hdev⟩ := hlow va hva
    obtain ⟨k, hk⟩ := (h.user_iff hlive hstart).mpr hva
    obtain ⟨-, flags, hf, hmaps⟩ := h.maps_user (by omega) hk
    exact ⟨htop, hdev, _, _, hmaps, hf.user, hf.access.1, hf.access.2, h.ownPage hboot hk⟩

/-- The byte at an address of the program is in the page with that role. -/
theorem Settled.byteAt_user (h : Settled R s own) (hva : va < 2 ^ 32)
    (hk : own k = .user p (va / PAGE_SIZE)) :
    s.byteAt p va = some (s.mem.ram (R.page k + va % PAGE_SIZE)) := by
  obtain ⟨-, flags, -, hmaps⟩ := h.maps_user hva hk
  rw [byteAt, hmaps, Option.map_some]

theorem Moved.breakMoved {brk : Nat} {inc ret : Int} (hmoved : Moved R p brk s own s' own')
    (h : Settled R s own) (hlive : s.Live p) (hret : ret = (s.space p).heapEnd)
    (hbrk : (brk : Int) = (s.space p).heapEnd + inc) : BreakMoved s p inc ret s' := by
  have h' := hmoved.settled h hlive
  have hspace : s'.space p = { s.space p with heapEnd := brk } := by
    rw [hmoved.spaces, Function.update_self]
  have hlive' (q : Fin PROCS_MAX) (hq : s.Live q) : s'.Live q := by
    rwa [Live, hmoved.kern]
  have hpage {q : Fin PROCS_MAX} {va a : Nat} (hq : s.Live q) (hva : va < 2 ^ 32)
      (huses : s'.Uses q va a) : ∃ k, own' k = .user q (va / PAGE_SIZE) := by
    obtain ⟨k, hk, -⟩ := h'.uses (hlive' q hq) hva huses
    exact ⟨k, hk⟩
  refine ⟨fun hfail => ?_, fun _ => ⟨hret, ?_⟩, ?_, fun q va a a' hq hva huses huses' => ?_,
    fun q va a' hq hva hnone huses' => ?_⟩
  · omega
  · rw [hspace, hbrk]
  · rw [hspace]
  · obtain ⟨k, hk, -⟩ := h.uses hq hva huses
    obtain ⟨k', hk'⟩ := hpage hq hva huses'
    have hkk : k' = k := by
      cases Decidable.em (q = p) with
      | inl hqp =>
          subst hqp
          exact hmoved.stays hk hk'
      | inr hqp => exact h.pages.user_unique ((hmoved.owned hqp rfl k').mp hk') hk
    subst hkk
    obtain ⟨-, hsame⟩ := hmoved.kept k' (by simp [hk, Role.IsData]) (by simp [hk', Role.IsData])
    rw [h.byteAt_user hva hk, h'.byteAt_user hva hk', hsame _ (Nat.mod_lt _ (by decide))]
  · obtain ⟨k', hk'⟩ := hpage hq hva huses'
    have hnew (k : Nat) : own k ≠ .user q (va / PAGE_SIZE) := by
      intro hk
      obtain ⟨-, flags, hf, hmaps⟩ := h.maps_user hva hk
      exact hnone _ ⟨_, hmaps, hf.user⟩
    cases Decidable.em (q = p) with
    | inl hqp =>
        subst hqp
        rw [h'.byteAt_user hva hk', hmoved.fresh _ k' hk' hnew _ (Nat.mod_lt _ (by decide))]
    | inr hqp => exact absurd ((hmoved.owned hqp rfl k').mp hk') (hnew k')

theorem sbrk_breakMoved {copy : ArgCopy} {inc ret : Int} (h : Settled R s own)
    (hmin : -2 ^ 31 ≤ inc) (hmax : inc < 2 ^ 31)
    (hrun : Machine.step R copy p (.sbrk inc) s = .ok ret s') : BreakMoved s p inc ret s' := by
  replace hrun := get_then hrun
  split_ifs at hrun with hrunnable
  · obtain ⟨u, k₁, hk₁, hrun⟩ := onKern_then hrun
    obtain rfl := modify_ok.mp hk₁
    have hlive : s.Live p := by simp [Live, hrunnable]
    have h₁ : Settled R { s with k := { s.k with current := some p } } own :=
      h.of_states rfl rfl fun _ => Iff.rfl
    have hend := (h.live p hlive).heapEnd_le h.pages
    rcases sbrk_cases h₁.pages rfl (h₁.live p hlive) hrun with
      ⟨rfl, rfl⟩ | ⟨hret, brk, own', hmoved, hlt, hbrk, hup, hdown⟩
    · exact ⟨fun _ => rfl, fun hok => absurd rfl hok, rfl, fun _ _ _ _ _ _ _ _ => rfl,
        fun _ _ a' _ _ hnone huses => absurd huses (hnone a')⟩
    · have hexact : (brk : Int) = (s.space p).heapEnd + inc := by
        dsimp only at hbrk hup hdown
        simp only [USER_BASE, NUM_PAGES, PAGE_SIZE] at hend
        omega
      obtain ⟨hfailed, hmv, hstart, hkept, hfresh⟩ := hmoved.breakMoved h₁ hlive hret hexact
      exact ⟨hfailed, hmv, hstart, hkept, hfresh⟩
  · cases hrun

/-- In a run in which the arguments of all programs fit, the heap of each process is
what its table maps from its start on, and `sbrk` moves the break and nothing else. -/
theorem heap_mapped {hw : Hardware}
    (h : Machine.Reached R copyArguments hw (fun p a s _ => SpawnFits p a s) s) :
    (∀ p, s.Live p → HeapMapped R s p) ∧
      ∀ p inc ret s', -2 ^ 31 ≤ inc → inc < 2 ^ 31 →
        Machine.step R copyArguments p (.sbrk inc) s = .ok ret s' → BreakMoved s p inc ret s' := by
  obtain ⟨own, hsettled, hboot⟩ := h.settled fun _ _ _ _ => SpawnFits.confined
  exact ⟨fun p hlive => hsettled.heapMapped hboot hlive,
    fun p inc ret s' hmin hmax hrun => sbrk_breakMoved hsettled hmin hmax hrun⟩

/-- A program is started, and moves its break 5000 bytes up and 4096 bytes down. -/
theorem heap_mapped_boot : ∃ s s₁ s₂ s₃ s₄ s₅, Life Ram.megabyte copyArguments
      (fun p a s _ => SpawnFits p a s) s s₁ s₂ s₃ s₄ s₅ ∧
    (∀ t ∈ [s₁, s₂, s₃, s₄], HeapMapped Ram.megabyte t 2) ∧
    BreakMoved s₁ 2 5000 (s₁.space 2).heapEnd s₂ ∧
    BreakMoved s₂ 2 (-4096) (s₂.space 2).heapEnd s₃ := by
  obtain ⟨s, s₁, s₂, s₃, s₄, s₅, h⟩ := shortLine_lives
  refine ⟨s, s₁, s₂, s₃, s₄, s₅, h, fun t ht => ?_, ?_, ?_⟩
  · exact (heap_mapped (h.reached t (by simp at ht ⊢; tauto))).1 2 (h.live t ht)
  · exact (heap_mapped (h.reached s₁ (by simp))).2 2 5000 _ s₂ (by decide) (by decide) h.grow
  · exact (heap_mapped (h.reached s₂ (by simp))).2 2 (-4096) _ s₃ (by decide) (by decide) h.shrink

/-- A program with an argument of 100 bytes has a page above its heap. -/
theorem spawn_maps_above_heap :
    ∃ s, Machine.Reached Ram.megabyte copyArguments machine (fun _ _ _ _ => True) s ∧ s.Live 2 ∧
      (s.space 2).heapStart ≤ 0x103ff000 ∧ ¬ IsDevice (0x103ff000 / PAGE_SIZE) ∧
      (s.maps 2 0x103ff000).isSome ∧ ¬ 0x103ff000 < alignUp (s.space 2).heapEnd := by
  obtain ⟨s, s', hs, hstep, hstate, t1, sp, hspace, hwalk⟩ := machine_spills Ram.megabyte
  refine ⟨s', .step hs trivial hstep, by simp [Live, hstate], ?_, by decide, ?_, ?_⟩
  · rw [hspace]
    exact show USER_BASE + alignUp 96 ≤ 0x103ff000 by decide
  · rw [maps, hspace, newSpace, Option.bind_some, hwalk]
    rfl
  · rw [hspace]
    exact show ¬ 0x103ff000 < alignUp (USER_BASE + alignUp 96) by decide

end Heap

/-! ## Running out of memory -/

section Exhaustion

variable {R : Ram} {copy : ArgCopy} {s s' : Machine} {own : Roles} {p : Fin PROCS_MAX} {inc : Int}

/-- If there are not enough pages, the kernel stops. -/
theorem Settled.sbrk_stops (h : Settled R s own) (hcur : s.k.current = some p) (hlive : s.Live p)
    (hinc : 0 < inc) (hlt : (s.space p).heapEnd + inc < 0x80000000)
    (hshort : s.mem.freeLeft < s.pagesNeeded p inc) :
    ∃ s', sbrk R inc s = .error (.pages 1) s' := by
  rcases sbrk_grows (R := R) hcur hinc hlt with ⟨m', s', hok, -⟩ | ⟨m', -, hno⟩
  · exact absurd ((h.addPages_iff hlive hinc hlt).mp ⟨m', hok⟩) (Nat.not_le.mpr hshort)
  · exact ⟨_, hno⟩

theorem Settled.step_stops (copy : ArgCopy) (h : Settled R s own)
    (hrunnable : (s.k.procs p).state = .runnable)
    (hinc : 0 < inc) (hlt : (s.space p).heapEnd + inc < 0x80000000)
    (hshort : s.mem.freeLeft < s.pagesNeeded p inc) :
    ∃ s', Machine.step R copy p (.sbrk inc) s = .error (.pages 1) s' := by
  have h₁ : Settled R { s with k := { s.k with current := some p } } own :=
    h.of_states rfl rfl fun _ => Iff.rfl
  have hlive : s.Live p := by simp [Live, hrunnable]
  rw [step_act hrunnable]
  exact h₁.sbrk_stops rfl hlive hinc hlt hshort

/-- A lack of pages is never reported by `sbrk`.  In every state a call that returns
has got all it asked for; if there are not enough pages, the kernel stops. -/
theorem sbrk_never_reports (hrunnable : (s.k.procs p).state = .runnable) (hinc : 0 < inc)
    (hlt : (s.space p).heapEnd + inc < 0x80000000) :
    (∀ ret s', Machine.step R copy p (.sbrk inc) s = .ok ret s' → ret = (s.space p).heapEnd) ∧
      ∀ hw, Machine.Reached R copyArguments hw (fun p a s _ => SpawnFits p a s) s →
        s.mem.freeLeft < s.pagesNeeded p inc →
        ∃ s', Machine.step R copy p (.sbrk inc) s = .error (.pages 1) s' := by
  refine ⟨fun ret s' hrun => ?_, fun hw hreached hshort => ?_⟩
  · rw [step_act hrunnable, act] at hrun
    have hlt' : (({ s with k := { s.k with current := some p } } : Machine).space p).heapEnd + inc
        < 0x80000000 := hlt
    rcases sbrk_grows (R := R) rfl hinc hlt' with ⟨m', t, -, hok⟩ | ⟨m', -, hno⟩
    · rw [hok] at hrun
      obtain ⟨rfl, -⟩ := EStateM.Result.ok.inj hrun
      rfl
    · rw [hno] at hrun
      cases hrun
  · obtain ⟨own, hsettled, -⟩ := hreached.settled fun _ _ _ _ => SpawnFits.confined
    exact hsettled.step_stops _ hrunnable hinc hlt hshort

/-- All memory there is, asked for by the shell right after boot. -/
theorem boot_short (hw : Hardware) {u : Unit} (hboot : Machine.boot R copy hw (cold hw) = .ok u s)
    (hrunnable : (s.k.procs p).state = .runnable) :
    ∃ own, Settled R s own ∧ (s.space p).heapEnd + 0x4000000 < 0x80000000 ∧
      s.mem.freeLeft < s.heapPages p 0x4000000 := by
  obtain ⟨own, hsettled, hkernel⟩ := boot_settled hboot
  have hend := (hsettled.live p (by simp [hrunnable])).heapEnd_le hsettled.pages
  have hused : s.mem.allocated 0 = true :=
    (hsettled.pages.allocated_iff (by decide)).mpr (by simp [(hkernel 0).mpr (by decide)])
  have hfree := Mem.freeLeft_lt (by decide) hused
  have hbrk : ((s.space p).heapEnd + (0x4000000 : Int)).toNat
      = (s.space p).heapEnd + NUM_PAGES * PAGE_SIZE := by
    rw [show (0x4000000 : Int) = ((NUM_PAGES * PAGE_SIZE : Nat) : Int) by decide, ← Int.natCast_add,
      Int.toNat_natCast]
  have hcount : s.heapPages p 0x4000000 = NUM_PAGES := by
    rw [heapPages, hbrk, pagesBetween_eq, pagesUpTo_add, Nat.add_sub_cancel_left]
  refine ⟨own, hsettled, ?_, by rw [hcount]; exact hfree⟩
  simp only [USER_BASE, NUM_PAGES, PAGE_SIZE] at hend
  omega

/-- The shell asks for as many pages as there are. -/
theorem sbrk_never_reports_boot :
    ∃ s s', Machine.Reached Ram.megabyte copyArguments machine (fun p a s _ => SpawnFits p a s) s ∧
      s.mem.freeLeft < s.pagesNeeded 1 0x4000000 ∧
      Machine.step Ram.megabyte copyArguments 1 (.sbrk 0x4000000) s = .error (.pages 1) s' := by
  obtain ⟨s, n, hboot, -, -, hrunnable, -⟩ := machine_boots Ram.megabyte copyArguments
  obtain ⟨own, -, hlt, hshort⟩ := boot_short machine hboot hrunnable
  have hneeded : s.mem.freeLeft < s.pagesNeeded 1 0x4000000 :=
    Nat.lt_of_lt_of_le hshort (Nat.le_add_left _ _)
  obtain ⟨s', hstop⟩ := (sbrk_never_reports hrunnable (by decide) (by exact_mod_cast hlt)).2 machine
    (.boot hboot) hneeded
  exact ⟨s, s', .boot hboot, hneeded, hstop⟩

/-- A call that cannot be served ends the kernel, and not the call. -/
theorem sbrk_stops_kernel :
    ∃ s s', Machine.Reached Ram.megabyte copyArguments machine (fun _ _ _ _ => True) s ∧
      (s.space 1).heapEnd + 0x4000000 < 0x80000000 ∧ s.mem.freeLeft < s.heapPages 1 0x4000000 ∧
      Machine.step Ram.megabyte copyArguments 1 (.sbrk 0x4000000) s = .error (.pages 1) s' := by
  obtain ⟨s, n, hboot, -, -, hrunnable, -⟩ := machine_boots Ram.megabyte copyArguments
  obtain ⟨own, hsettled, hlt, hshort⟩ := boot_short machine hboot hrunnable
  obtain ⟨s', hstop⟩ := hsettled.step_stops copyArguments hrunnable (by decide)
    (show ((s.space 1).heapEnd : Int) + 0x4000000 < 0x80000000 by omega)
    (Nat.lt_of_lt_of_le hshort (Nat.le_add_left _ _))
  exact ⟨s, s', .boot hboot, hlt, hshort, hstop⟩

end Exhaustion

end Dmaos
