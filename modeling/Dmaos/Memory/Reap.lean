import Dmaos.Memory.Create

/-!
# Giving the pages of a process back

`free_process_pages` walks the table of a process that has exited.  It gives back
the pages the leaves below 0x80000000 name, as far as they are in the memory the
kernel allocates from, then the second-level tables, then the root.  It does not
change the tables while it does so, so every entry it reads is as the roles say.

Every page of the process is given back, and no other: a page has one role, so it
is not given back twice either.
-/

namespace Dmaos

open Fault Machine Function

variable {R : Ram} {m : Mem} {own : Roles} {p : Fin PROCS_MAX} {r j : Nat}

section Loops

variable {i v : Nat}

theorem freePages_at {k : Nat} {b : Buf} {a : Nat → Bool} (hk : k < NUM_PAGES) :
    freePages R (R.page k) 1 ⟨b, a⟩ = .ok () ⟨b, update a k false⟩ := freePages_page hk

/-- The leaves of one table, as far as they are pages of the process. -/
theorem freeLeaves_ok (h : Pages R m own) (hi : own i = .table p v) (hv : v < 512) {ws : List Nat}
    (hws : ∀ w ∈ ws, w < 1024) (a : Nat → Bool) :
    ∃ a', freeLeaves R (R.page i) ws ⟨m.ram, a⟩ = .ok () ⟨m.ram, a'⟩ ∧
      ∀ j, a' j = true ↔ a j = true ∧ ∀ w ∈ ws, own j ≠ .user p (v * 1024 + w) := by
  induction ws generalizing a with
  | nil => exact ⟨a, rfl, fun j => by simp⟩
  | cons w ws ih =>
      have hw : w < 1024 := hws w (List.mem_cons_self ..)
      have hrest : ∀ w' ∈ ws, w' < 1024 := fun w' hw' => hws w' (List.mem_cons_of_mem _ hw')
      have hload : load (R.page i + 4 * w) ⟨m.ram, a⟩
          = .ok (m.ram.le32 (R.page i + 4 * w)) ⟨m.ram, a⟩ := rfl
      have hleaf := h.table hi w hw
      generalize m.ram.le32 (R.page i + 4 * w) = e at hload hleaf
      -- an entry that is skipped names no page of the process
      have hskip (hno : ¬ (hasFlag e PAGE_V = true ∧ R.start ≤ pteAddr e ∧ pteAddr e < R.stop))
          (hnone : ∀ k, own k ≠ .user p (v * 1024 + w)) :
          ∃ a', freeLeaves R (R.page i) (w :: ws) ⟨m.ram, a⟩ = .ok () ⟨m.ram, a'⟩ ∧
            ∀ j, a' j = true ↔ a j = true ∧ ∀ w' ∈ w :: ws, own j ≠ .user p (v * 1024 + w') := by
        obtain ⟨a', hrun, ha'⟩ := ih hrest a
        refine ⟨a', ?_, fun j => ?_⟩
        · rw [freeLeaves, run_bind hload, if_neg hno]
          exact hrun
        · rw [ha', List.forall_mem_cons]
          simp [hnone j]
      cases hleaf with
      | none hnone => exact hskip (by simp) hnone
      | kernel _ hn => omega
      | device hnone hn =>
          refine hskip (fun hin => ?_) hnone
          have hbase := R.base_le
          have hlt : (v * 1024 + w) * PAGE_SIZE < kernelBase := by
            simp only [PAGE_SIZE, kernelBase]
            rcases hn with hn | hn | hn <;> omega
          have hword : (v * 1024 + w) * PAGE_SIZE < 2 ^ 32 := Nat.lt_trans hlt (by decide)
          rw [pteAddr_pte hword (Nat.mul_mod_left ..) (by decide)] at hin
          omega
      | user k flags hk hf =>
          have hlt : k < NUM_PAGES := h.lt (by simp [hk])
          obtain ⟨a', hrun, ha'⟩ := ih hrest (update a k false)
          refine ⟨a', ?_, fun j => ?_⟩
          · rw [freeLeaves, run_bind hload, pteAddr_pte (Ram.page_lt_word hlt) (R.page_mod k) hf.lt,
              if_pos ⟨hasFlag_pte_valid .., R.le_page k, Ram.page_lt hlt⟩,
                run_bind (freePages_at hlt)]
            exact hrun
          · rw [ha', List.forall_mem_cons]
            cases Decidable.em (j = k) with
            | inl hjk => simp [hjk, hk]
            | inr hjk =>
                have hne : own j ≠ .user p (v * 1024 + w) := fun hj => hjk (h.user_unique hj hk)
                simp [hjk, hne]

/-- The second-level tables and what is behind them. -/
theorem freeTables_ok (h : Pages R m own) (hr : own r = .root p) {vs : List Nat}
    (hvs : ∀ v ∈ vs, v < 1024) (a : Nat → Bool) :
    ∃ a', freeTables R (R.page r) vs ⟨m.ram, a⟩ = .ok () ⟨m.ram, a'⟩ ∧
      ∀ j, a' j = true ↔ a j = true ∧ ∀ v ∈ vs, own j ≠ .table p v ∧
        ∀ w < 1024, own j ≠ .user p (v * 1024 + w) := by
  induction vs generalizing a with
  | nil => exact ⟨a, rfl, fun j => by simp⟩
  | cons v vs ih =>
      have hv : v < 1024 := hvs v (List.mem_cons_self ..)
      have hrest : ∀ v' ∈ vs, v' < 1024 := fun v' hv' => hvs v' (List.mem_cons_of_mem _ hv')
      have hload : load (R.page r + 4 * v) ⟨m.ram, a⟩
          = .ok (m.ram.le32 (R.page r + 4 * v)) ⟨m.ram, a⟩ := rfl
      have hbranch := h.root hr v hv
      generalize m.ram.le32 (R.page r + 4 * v) = e at hload hbranch
      cases hbranch with
      | none hnone =>
          obtain ⟨a', hrun, ha'⟩ := ih hrest a
          refine ⟨a', ?_, fun j => ?_⟩
          · rw [freeTables, run_bind hload, if_neg (by simp)]
            exact hrun
          · have huser (w : Nat) (hw : w < 1024) : own j ≠ .user p (v * 1024 + w) := by
              intro hj
              obtain ⟨-, t, ht⟩ := h.user_table hj
              rw [show (v * 1024 + w) / 1024 = v by omega] at ht
              exact hnone t ht
            rw [ha', List.forall_mem_cons]
            exact and_congr_right fun _ => (and_iff_right ⟨hnone j, huser⟩).symm
      | table i hi =>
          have hlt : i < NUM_PAGES := h.lt (by simp [hi])
          -- what is behind the table goes first
          have hleaves : ∃ a₁, (if v < 512 then freeLeaves R (R.page i) (List.range 1024)
              else pure ()) ⟨m.ram, a⟩ = .ok () ⟨m.ram, a₁⟩ ∧
              ∀ j, a₁ j = true ↔ a j = true ∧ ∀ w < 1024, own j ≠ .user p (v * 1024 + w) := by
            rcases Nat.lt_or_ge v 512 with hlow | hhigh
            · obtain ⟨a₁, hrun, ha₁⟩ := freeLeaves_ok h hi hlow
                (fun w hw => List.mem_range.mp hw) a
              refine ⟨a₁, by rw [if_pos hlow]; exact hrun, fun j => ?_⟩
              rw [ha₁]
              simp only [List.mem_range]
            · refine ⟨a, by rw [if_neg (Nat.not_lt.mpr hhigh)]; rfl, fun j => ?_⟩
              refine (and_iff_left fun w hw hj => ?_).symm
              have := (h.user_table hj).1
              omega
          obtain ⟨a₁, hrun₁, ha₁⟩ := hleaves
          obtain ⟨a', hrun, ha'⟩ := ih hrest (update a₁ i false)
          refine ⟨a', ?_, fun j => ?_⟩
          · rw [freeTables, run_bind hload, if_pos (hasFlag_pte_valid ..),
              pteAddr_pte (Ram.page_lt_word hlt) (R.page_mod i) (by decide)]
            have hthen : (freePages R (R.page i) 1 >>= fun _ => freeTables R (R.page r) vs)
              ⟨m.ram, a₁⟩
                = .ok () ⟨m.ram, a'⟩ := by
              rw [run_bind (freePages_at hlt)]
              exact hrun
            rcases Nat.lt_or_ge v 512 with hlow | hhigh
            · rw [if_pos hlow] at hrun₁ ⊢
              exact (run_bind hrun₁).trans hthen
            · rw [if_neg (Nat.not_lt.mpr hhigh)] at hrun₁ ⊢
              obtain ⟨-, hsame⟩ := pure_ok.mp hrun₁
              rw [hsame]
              exact hthen
          · rw [ha', List.forall_mem_cons]
            cases Decidable.em (j = i) with
            | inl hji => simp [hji, hi]
            | inr hji =>
                have hne : own j ≠ .table p v := fun hj => hji (h.table_unique hj hi)
                rw [update_of_ne hji, ha₁, and_iff_right hne, and_assoc]

end Loops

/-! ## Reaping -/

/-- The roles after process `p` has given its pages back. -/
def Roles.without (own : Roles) (p : Fin PROCS_MAX) : Roles := fun j =>
  if (own j).owner = some p then .free else own j

section Reap

variable {q : Fin PROCS_MAX} {s s' : Machine} {u : Unit}

theorem Roles.without_of_owner (h : (own j).owner = some p) : own.without p j = .free :=
  if_pos h

theorem Roles.without_of_ne (h : (own j).owner ≠ some p) : own.without p j = own j :=
  if_neg h

theorem Roles.without_owner_ne (own : Roles) (p : Fin PROCS_MAX) (j : Nat) :
    (own.without p j).owner ≠ some p := by
  cases Decidable.em ((own j).owner = some p) with
  | inl hj =>
      rw [Roles.without_of_owner hj]
      exact fun h => by cases h
  | inr hj => rwa [Roles.without_of_ne hj]

/-- The roles of the other processes and of the kernel are the same. -/
theorem Roles.without_iff {x : Role} (hx : x ≠ .free) (hp : x.owner ≠ some p) (j : Nat) :
    own.without p j = x ↔ own j = x := by
  cases Decidable.em ((own j).owner = some p) with
  | inl hj =>
      rw [Roles.without_of_owner hj]
      constructor
      · rintro rfl
        exact absurd rfl hx
      · rintro rfl
        exact absurd hj hp
  | inr hj => rw [Roles.without_of_ne hj]

/-- The loops reach every page of the process but its root. -/
theorem Pages.owner_iff (h : Pages R m own) (hr : own r = .root p) (hj : j ≠ r) :
    (∀ v ∈ List.range 1024, own j ≠ .table p v ∧ ∀ w < 1024, own j ≠ .user p (v * 1024 + w)) ↔
      (own j).owner ≠ some p := by
  constructor
  · intro hall howner
    cases hown : own j with
    | free => simp [hown, Role.owner] at howner
    | kernel => simp [hown, Role.owner] at howner
    | root q =>
        rw [hown] at howner
        cases howner
        exact hj (h.root_unique hown hr)
    | table q v =>
        rw [hown] at howner
        cases howner
        exact (hall v (List.mem_range.mpr (h.table_root hown).1)).1 hown
    | user q n =>
        rw [hown] at howner
        cases howner
        have hn := (h.user_table hown).1
        refine (hall (n / 1024) (List.mem_range.mpr (by omega))).2 (n % 1024)
          (Nat.mod_lt _ (by decide)) ?_
        rw [hown, show n / 1024 * 1024 + n % 1024 = n by omega]
  · intro howner v _
    refine ⟨fun htable => howner ?_, fun w _ huser => howner ?_⟩
    · rw [htable]
      rfl
    · rw [huser]
      rfl

/-- All pages of a process are given back. -/
theorem freeTables_all (h : Pages R m own) (hr : own r = .root p) :
    ∃ a₁ a', freeTables R (R.page r) (List.range 1024) m = .ok () ⟨m.ram, a₁⟩ ∧
      freePages R (R.page r) 1 ⟨m.ram, a₁⟩ = .ok () ⟨m.ram, a'⟩ ∧
      Pages R ⟨m.ram, a'⟩ (own.without p) := by
  obtain ⟨a₁, hrun, ha₁⟩ := freeTables_ok h hr (fun v hv => List.mem_range.mp hv) m.allocated
  have hlt : r < NUM_PAGES := h.lt (by simp [hr])
  refine ⟨a₁, update a₁ r false, hrun, freePages_at hlt,
    h.drop (fun x hx hp j => ?_) (Roles.without_owner_ne own p) fun j => ?_⟩
  · refine Roles.without_iff ?_ hp j
    rintro rfl
    exact hx rfl
  · have hmarked : update a₁ r false j = true ↔
        m.allocated j = true ∧ (own j).owner ≠ some p := by
      cases Decidable.em (j = r) with
      | inl hjr => simp [hjr, hr, Role.owner]
      | inr hjr => rw [update_of_ne hjr, ha₁, h.owner_iff hr hjr]
    cases Decidable.em ((own j).owner = some p) with
    | inl howner =>
        have hclear : update a₁ r false j = false := by
          rw [← Bool.not_eq_true, hmarked]
          exact fun hj => hj.2 howner
        simp [Roles.without_of_owner howner, hclear]
    | inr howner =>
        have hsame : update a₁ r false j = m.allocated j := by
          rw [Bool.eq_iff_iff, hmarked, and_iff_left howner]
        rw [Roles.without_of_ne howner, hsame, h.free_iff]

/-- `free_process_pages` gives the pages of the process back. -/
theorem freeProcessPages_ok (h : Settled R s own) (hlive : (s.k.procs p).state ≠ .unused)
    (hrun : freeProcessPages R p s = .ok u s') :
    Pages R s'.mem (own.without p) ∧ Steady s.k s'.k ∧ s'.mem.ram = s.mem.ram ∧
      ∀ q, q ≠ p → s'.space q = s.space q := by
  obtain ⟨u₁, k₁, hk₁, hrun⟩ := onKern_then hrun
  obtain ⟨u₂, k₂, hk₂, hrun⟩ := onKern_then hrun
  replace hrun := get_then hrun
  obtain ⟨r, htable, hr⟩ := (h.live p hlive).root
  simp only [htable] at hrun
  obtain ⟨a₁, a', hfree₁, hfree₂, hpages⟩ := freeTables_all h.pages hr
  obtain ⟨u₃, m₃, hm₃, hrun⟩ := onMem_then hrun
  rw [hfree₁] at hm₃
  obtain ⟨-, rfl⟩ := EStateM.Result.ok.inj hm₃
  obtain ⟨u₄, m₄, hm₄, hrun⟩ := onMem_then hrun
  rw [hfree₂] at hm₄
  obtain ⟨-, rfl⟩ := EStateM.Result.ok.inj hm₄
  obtain rfl := modify_ok.mp hrun
  refine ⟨hpages, trans_of Steady (.of_ok .dropCwd hk₁) (.of_ok .closeAll hk₂), rfl,
    fun q hq => update_of_ne hq ..⟩

/-- What `wait` does to the pages. -/
theorem waitProcess_settled {pid ret : Int} (h : Settled R s own)
    (hrun : Machine.waitProcess R pid s = .ok ret s') :
    s' = s ∨ ∃ p, (s.k.procs p).state = .exited ∧ (s'.k.procs p).state = .unused ∧
      SteadyBut p s.k s'.k ∧ Settled R s' (own.without p) ∧ s'.mem.ram = s.mem.ram ∧
      ∀ q, q ≠ p → s'.space q = s.space q := by
  replace hrun := get_then hrun
  cases hf : findPid s.k pid with
  | none =>
      simp only [hf] at hrun
      obtain ⟨-, rfl⟩ := pure_ok.mp hrun
      exact .inl rfl
  | some p =>
      simp only [hf] at hrun
      split_ifs at hrun with hexit
      · obtain ⟨u₁, s₁, h₁, hrun⟩ := bind_ok.mp hrun
        obtain ⟨u₂, k₂, hk₂, hrun⟩ := onKern_then hrun
        obtain rfl := modify_ok.mp hk₂
        obtain ⟨-, rfl⟩ := pure_ok.mp hrun
        obtain ⟨hpages, hsteady, hram, hspaces⟩ := freeProcessPages_ok h (by simp [hexit]) h₁
        have hbut := (hsteady.but p).putProc { s₁.k.procs p with state := .unused }
        have hunused : ((s₁.k.putProc p { s₁.k.procs p with state := .unused }).procs p).state
            = .unused := by rw [putProc_self]
        refine .inr ⟨p, hexit, hunused, hbut, ⟨hpages, fun q hq => ?_, fun q hq i hi => ?_⟩, hram,
          hspaces⟩
        · have hqp : q ≠ p := by
            rintro rfl
            exact hq hunused
          have hlive : (s.k.procs q).state ≠ .unused := by
            rw [← hbut.state q hqp]
            exact hq
          show SpaceOk R _ q (s₁.space q)
          rw [hspaces q hqp]
          refine (h.live q hlive).congr fun x hx => Roles.without_iff ?_ ?_
          · rintro rfl
            cases hx
          · rw [hx]
            exact fun heq => hqp (Option.some.inj heq)
        · cases Decidable.em (q = p) with
          | inl hqp =>
              refine Roles.without_owner_ne own p i ?_
              rw [hi, hqp]
              rfl
          | inr hqp =>
              have hunused' : (s.k.procs q).state = .unused := by
                rw [← hbut.state q hqp]
                exact hq
              refine h.unused q hunused' i ((Roles.without_iff (by simp) ?_ i).mp hi)
              exact fun heq => hqp (Option.some.inj heq)
      · obtain ⟨-, rfl⟩ := pure_ok.mp hrun
        exact .inl rfl

end Reap

end Dmaos
