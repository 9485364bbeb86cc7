import Dmaos.Memory.Arguments
import Dmaos.Memory.Reap

/-!
# The pages of a running system

Every step of a process keeps the books on pages in order (`Settled`), and so do
all runs from boot.  What the processes can reach and what the allocator has marked
is read off the roles.

A step breaks this in one case only: a program is started whose arguments do not
fit in the last page of its image.
-/

namespace Dmaos

open Fault Machine Function

variable {R : Ram} {m : Mem} {own own' : Roles} {p : Fin PROCS_MAX} {n vaddr : Nat} {copy : ArgCopy}
  {s s' : Machine} {u : Unit} {ret : Int} {a : Action} {hw : Hardware}

/-! ## Looking addresses up -/

section Walk

variable {k r va a f : Nat}

/-- What a table maps: the pages of the process, the devices, and the kernel. -/
inductive Mapping (R : Ram) (own : Roles) (p : Fin PROCS_MAX) (n : Nat) : Nat → Nat → Prop where
  | user (k flags : Nat) (h : own k = .user p n) (hf : UserFlags flags) :
      Mapping R own p n (R.page k) (flags ||| PAGE_V)
  | device (hn : IsDevice n) : Mapping R own p n (n * PAGE_SIZE) (PAGE_R ||| PAGE_W ||| PAGE_V)
  | kernel (hn : 0x80000 ≤ n) :
      Mapping R own p n (n * PAGE_SIZE) (PAGE_R ||| PAGE_W ||| PAGE_X ||| PAGE_V)

theorem vpn_eq (va : Nat) (hva : va < 2 ^ 32) :
    vpn1 va = va / PAGE_SIZE / 1024 ∧ vpn0 va = va / PAGE_SIZE % 1024 := by
  simp only [vpn1, vpn0, PAGE_SIZE]
  omega

theorem Pages.walk_some (h : Pages R m own) (hr : own r = .root p) (hva : va < 2 ^ 32)
    (hwalk : walk m.ram (R.page r) va = some (a, f)) : Mapping R own p (va / PAGE_SIZE) a f := by
  obtain ⟨hv1, hv0⟩ := vpn_eq va hva
  have hn : va / PAGE_SIZE < 2 ^ 20 := by
    simp only [PAGE_SIZE]
    omega
  have hbranch := h.root hr (vpn1 va) (vpn1_lt va)
  rw [walk] at hwalk
  split_ifs at hwalk with hvalid
  obtain ⟨hvalid1, hvalid0⟩ := hvalid
  obtain ⟨ha, hf⟩ := Prod.mk.inj (Option.some.inj hwalk)
  rw [← ha, ← hf]
  rw [entry0] at hvalid0 ⊢
  rw [entry1] at hvalid0 hvalid1 ⊢
  generalize m.ram.le32 (R.page r + 4 * vpn1 va) = e1 at hbranch hvalid1 hvalid0 ⊢
  cases hbranch with
  | none _ => simp at hvalid1
  | table i hi =>
      have hi' : i < NUM_PAGES := h.lt (by simp [hi])
      rw [pteAddr_pte (Ram.page_lt_word hi') (R.page_mod i) (by decide)] at hvalid0 ⊢
      have hleaf := h.table hi (vpn0 va) (vpn0_lt va)
      rw [show vpn1 va * 1024 + vpn0 va = va / PAGE_SIZE by omega] at hleaf
      generalize m.ram.le32 (R.page i + 4 * vpn0 va) = e0 at hleaf hvalid0 ⊢
      have hword : va / PAGE_SIZE * PAGE_SIZE < 2 ^ 32 :=
        Nat.lt_of_le_of_lt (Nat.div_mul_le_self ..) hva
      cases hleaf with
      | none _ => simp at hvalid0
      | user k flags hk hf =>
          have hk' : k < NUM_PAGES := h.lt (by simp [hk])
          rw [pteAddr_pte (Ram.page_lt_word hk') (R.page_mod k) hf.lt, pte_mod hf.lt]
          exact .user k flags hk hf
      | device _ hdev =>
          rw [pteAddr_pte hword (Nat.mul_mod_left ..) (by decide), pte_mod (by decide)]
          exact .device hdev
      | kernel _ hhigh =>
          rw [pteAddr_pte hword (Nat.mul_mod_left ..) (by decide), pte_mod (by decide)]
          exact .kernel hhigh

/-- The pages of a process are mapped. -/
theorem Pages.walk_user (h : Pages R m own) (hr : own r = .root p) (hva : va < 2 ^ 32)
    (hk : own k = .user p (va / PAGE_SIZE)) :
    ∃ flags, UserFlags flags ∧ walk m.ram (R.page r) va = some (R.page k, flags ||| PAGE_V) := by
  obtain ⟨hv1, hv0⟩ := vpn_eq va hva
  obtain ⟨i, flags, hi, hf, h1, h0⟩ := h.entries hr hk
  have hi' : i < NUM_PAGES := h.lt (by simp [hi])
  have hk' : k < NUM_PAGES := h.lt (by simp [hk])
  refine ⟨flags, hf, ?_⟩
  rw [walk, entry0, entry1, hv1, h1, pteAddr_pte (Ram.page_lt_word hi') (R.page_mod i) (by decide),
    hv0, h0, pteAddr_pte (Ram.page_lt_word hk') (R.page_mod k) hf.lt, pte_mod hf.lt,
    if_pos ⟨hasFlag_pte_valid .., hasFlag_pte_valid ..⟩]

theorem UserFlags.user {flags : Nat} (h : UserFlags flags) :
    hasFlag (flags ||| PAGE_V) PAGE_U = true := by
  rcases h with rfl | rfl <;> decide

/-- Only the pages of the process can be used by its program. -/
theorem Mapping.of_user (h : Mapping R own p n a f) (hf : hasFlag f PAGE_U = true) :
    ∃ k, own k = .user p n ∧ a = R.page k ∧ ∃ flags, UserFlags flags ∧ f = flags ||| PAGE_V := by
  cases h with
  | user k flags hk huser => exact ⟨k, hk, rfl, flags, huser, rfl⟩
  | device _ => cases hf
  | kernel _ => cases hf

/-- A program stores to its own pages. -/
theorem storeTarget_user (h : Pages R m own) (hr : own r = .root p)
    (hstore : storeTarget m (R.page r) vaddr = some a) :
    ∃ k n o, own k = .user p n ∧ o < PAGE_SIZE ∧ a = R.page k + o := by
  have hwalk : walk m.ram (R.page r) (vaddr % 2 ^ 32) = walk m.ram (R.page r) vaddr := by
    have h1 : vpn1 (vaddr % 2 ^ 32) = vpn1 vaddr := by
      simp only [vpn1]
      omega
    have h0 : vpn0 (vaddr % 2 ^ 32) = vpn0 vaddr := by
      simp only [vpn0]
      omega
    rw [walk, entry0, entry1, h1, h0]
    rfl
  rw [storeTarget] at hstore
  split at hstore
  · next page flags hw =>
      split_ifs at hstore with hok
      obtain rfl := Option.some.inj hstore
      obtain ⟨k, hk, rfl, -⟩ :=
        (h.walk_some hr (Nat.mod_lt _ (by decide)) (hwalk.trans hw)).of_user hok.1
      exact ⟨k, _, vaddr % PAGE_SIZE, hk, Nat.mod_lt _ (by decide), rfl⟩
  · cases hstore

end Walk

/-! ## Steps -/

section Steps

/-- Who is running, and what the processes do with the file system, does not matter. -/
theorem Settled.of_states (h : Settled R s own) (hmem : s'.mem = s.mem)
    (hspace : s'.space = s.space)
    (hstate : ∀ q, (s'.k.procs q).state = .unused ↔ (s.k.procs q).state = .unused) :
    Settled R s' own where
  pages := by
    rw [hmem]
    exact h.pages
  live q hq := by
    rw [hspace]
    exact h.live q fun hunused => hq ((hstate q).mpr hunused)
  unused q hq := h.unused q ((hstate q).mp hq)

/-- The exit of a process leaves it its pages. -/
theorem exit_settled (h : Settled R s own) (hcur : s.k.current = some p)
    (hlive : (s.k.procs p).state ≠ .unused) (hrun : onKern exitCurrentProcess s = .ok u s') :
    Settled R s' own ∧ ∀ q, (s.k.procs q).state ≠ .unused → (s'.k.procs q).state ≠ .unused := by
  obtain ⟨k', hk', rfl⟩ := onKern_ok hrun
  obtain ⟨hbut, hexit, -⟩ := exitCurrentProcess_procs hcur hk'
  have hstate (q : Fin PROCS_MAX) :
      (k'.procs q).state = .unused ↔ (s.k.procs q).state = .unused := by
    cases Decidable.em (q = p) with
    | inl hqp =>
        subst hqp
        rw [hexit]
        exact iff_of_false (fun h => by cases h) hlive
    | inr hqp => rw [hbut.state q hqp]
  exact ⟨h.of_states rfl rfl hstate, fun q hq hq' => hq ((hstate q).mp hq')⟩

/-- A store of a program. -/
theorem userStore_settled {b : Byte} (h : Settled R s own)
    (hcur : s.k.current = some p) (hlive : (s.k.procs p).state ≠ .unused)
    (hrun : userStore vaddr b s = .ok ret s') :
    Settled R s' own ∧ ∀ q, (s.k.procs q).state ≠ .unused → (s'.k.procs q).state ≠ .unused := by
  rw [userStore, run_bind (onKern_currentProcess hcur)] at hrun
  replace hrun := get_then hrun
  obtain ⟨r, htable, hr⟩ := (h.live p hlive).root
  cases htarget : storeTarget s.mem ((s.space p).pageTable.getD 0) vaddr with
  | none =>
      simp only [htarget] at hrun
      obtain ⟨u, s₁, hexit, hrun⟩ := bind_ok.mp hrun
      obtain ⟨-, rfl⟩ := pure_ok.mp hrun
      exact exit_settled h hcur hlive hexit
  | some a =>
      simp only [htarget] at hrun
      obtain ⟨u, s₁, hstore, hrun⟩ := bind_ok.mp hrun
      obtain ⟨-, rfl⟩ := pure_ok.mp hrun
      obtain ⟨m', hm', rfl⟩ := onMem_ok hstore
      obtain ⟨-, rfl⟩ := EStateM.Result.ok.inj hm'
      rw [htable, Option.getD_some] at htarget
      obtain ⟨k, n, o, hk, ho, rfl⟩ := storeTarget_user h.pages hr htarget
      refine ⟨⟨h.pages.frame (fun i hi _ => ?_) rfl, h.live, h.unused⟩, fun _ hq => hq⟩
      refine SamePage.copy ?_ ho
      rintro rfl
      exact hi (by simp [hk, Role.IsData])

/-- The size of the program a command line names, as `create_process` finds it. -/
def programSize (s : KState) : List (List Byte) → Option Nat
  | [] => none
  | name :: args =>
    match findProc s with
    | none => none
    | some q =>
      match (prepareProc (.named name) q >>= fun _ => openProgram (.named name args)) s with
      | .ok (some (_, size)) _ => some size
      | _ => none

/-- If a process starts a program, the arguments are stored where they belong. -/
def SpawnConfined (copy : ArgCopy) (p : Fin PROCS_MAX) : Action → Machine → Prop
  | .call (.spawn cmdline), s =>
    ∀ size, programSize { s.k with current := some p } (argv cmdline.1) = some size →
      Confined copy size (argv cmdline.1)
  | _, _ => True

/-- A spawn has failed. -/
def FailedSpawn (ret : Int) : Action → Prop
  | .call (.spawn _) => ret = -1
  | _ => False

/-- What a step does to the roles of the pages if it ends no process. -/
structure Advances (R : Ram) (s : Machine) (own : Roles) (s' : Machine) (own' : Roles)
    (failed : Prop) : Prop where
  settled : Settled R s' own'
  lives : ∀ q, (s.k.procs q).state ≠ .unused → (s'.k.procs q).state ≠ .unused
  /-- The kernel gives no page away. -/
  keeps : ∀ j, own j = .kernel → own' j = .kernel
  /-- It gets pages by a failed spawn only. -/
  gets : ¬ failed → ∀ j, own' j = .kernel → own j = .kernel

theorem Advances.of_kernel {failed : Prop} (h : Settled R s' own')
    (hlives : ∀ q, (s.k.procs q).state ≠ .unused → (s'.k.procs q).state ≠ .unused)
    (hkernel : ∀ j, own' j = .kernel ↔ own j = .kernel) : Advances R s own s' own' failed :=
  ⟨h, hlives, fun j => (hkernel j).mpr, fun _ j => (hkernel j).mp⟩

/-- The pages with roles outside of process `p` are the same ones. -/
def OnlyOf (p : Fin PROCS_MAX) (own own' : Roles) : Prop :=
  ∀ x : Role, x ≠ .free → x.owner ≠ some p → ∀ j, own' j = x ↔ own j = x

/-- A new process has taken free pages only. -/
theorem Spawned.others (h : Spawned R p s own s' own') : OnlyOf p own own' := by
  intro x hx hp j
  rcases h.roles j with hold | ⟨hfree, howner⟩
  · rw [hold]
  · rw [hfree]
    constructor
    · rintro rfl
      exact absurd howner hp
    · rintro rfl
      exact absurd rfl hx

theorem Spawned.kernel_iff (h : Spawned R p s own s' own') (j : Nat) :
    own' j = .kernel ↔ own j = .kernel :=
  h.others .kernel (by simp) (by simp [Role.owner]) j

/-- A failed spawn has left pages to the kernel. -/
structure Leaked (R : Ram) (s : Machine) (own : Roles) (s' : Machine) (own' : Roles) : Prop where
  settled : Settled R s' own'
  steady : Steady s.k s'.k
  roles : ∀ j, own' j = own j ∨ own j = .free ∧ own' j = .kernel

theorem spawn_cases {cmdline : List Byte} (h : Settled R s own)
    (hconf : ∀ size, programSize s.k (argv cmdline) = some size → Confined copy size (argv cmdline))
    (hrun : Machine.spawnProcess R copy cmdline s = .ok ret s') :
    (ret = -1 ∧ ∃ own', Leaked R s own s' own') ∨ ∃ p own', Spawned R p s own s' own' := by
  rw [Machine.spawnProcess, ← argv] at hrun
  cases hwords : argv cmdline with
  | nil =>
      simp only [hwords] at hrun
      obtain ⟨rfl, rfl⟩ := pure_ok.mp hrun
      exact .inl ⟨rfl, own, h, refl_of Steady s.k, fun _ => .inl rfl⟩
  | cons name args =>
      simp only [hwords] at hrun
      rw [hwords] at hconf
      obtain ⟨o, s₁, hcreate, hrun⟩ := bind_ok.mp hrun
      have hfits (p : Fin PROCS_MAX) (k₁ : KState) (src : Source) (size : Nat) (k₂ : KState)
          (hp : findProc s.k = some p)
          (hprep : prepareProc (Exec.program (.named name args)) p s.k = .ok () k₁)
          (hopen : openProgram (.named name args) k₁ = .ok (some (src, size)) k₂)
          (_ : Exec.argv (.named name args) ≠ []) :
          Confined copy size (Exec.argv (.named name args)) := by
        refine hconf size ?_
        rw [Exec.program] at hprep
        simp only [programSize, hp, run_bind hprep, hopen]
      rcases createProcess_settled h hfits hcreate with
        ⟨rfl, hsteady, -, own', hsettled, hroles⟩ | ⟨p, own', rfl, -, hspawned⟩
      · obtain ⟨rfl, rfl⟩ := pure_ok.mp hrun
        exact .inl ⟨rfl, own', hsettled, hsteady, hroles⟩
      · replace hrun := get_then hrun
        obtain ⟨-, rfl⟩ := pure_ok.mp hrun
        exact .inr ⟨p, own', hspawned⟩

theorem Leaked.advances (h : Leaked R s own s' own') (hret : ret = -1) :
    Advances R s own s' own' (ret = -1) := by
  refine ⟨h.settled, fun q hq => ?_, fun j hj => ?_, fun hok => absurd hret hok⟩
  · rwa [h.steady.state q]
  · rcases h.roles j with hold | ⟨hfree, -⟩
    · rw [hold, hj]
    · rw [hj] at hfree
      cases hfree

theorem Spawned.advances (h : Spawned R p s own s' own') (failed : Prop) :
    Advances R s own s' own' failed := by
  refine .of_kernel h.settled (fun q hq => ?_) h.kernel_iff
  cases Decidable.em (q = p) with
  | inl hqp =>
      rw [hqp, h.running]
      exact fun hrunning => by cases hrunning
  | inr hqp => rwa [h.steady.state q hqp]

section Moved

variable {brk : Nat}

/-- The pages of the other processes are the ones they were. -/
theorem Moved.owned (h : Moved R p brk s own s' own') {q : Fin PROCS_MAX} (hqp : q ≠ p) {x : Role}
    (hx : x.owner = some q) (j : Nat) : own' j = x ↔ own j = x := by
  refine h.other x ?_ ?_ j
  · rintro rfl
    cases hx
  · rw [hx]
    exact fun heq => hqp (Option.some.inj heq)

theorem Moved.settled (hmoved : Moved R p brk s own s' own') (h : Settled R s own)
    (hlive : (s.k.procs p).state ≠ .unused) : Settled R s' own' where
  pages := hmoved.pages
  live q hq := by
    cases Decidable.em (q = p) with
    | inl hqp => exact hqp ▸ hmoved.space
    | inr hqp =>
        rw [hmoved.kern] at hq
        rw [hmoved.spaces, update_of_ne hqp]
        exact (h.live q hq).congr fun x hx => hmoved.owned hqp hx
  unused q hq i hi := by
    rw [hmoved.kern] at hq
    have hqp : q ≠ p := by
      rintro rfl
      exact hlive hq
    exact h.unused q hq i ((hmoved.owned hqp rfl i).mp hi)

end Moved

/-- The process neither starts another one nor waits for one. -/
def Machine.Action.Quiet : Action → Prop
  | .call (.spawn _) | .call (.wait _) => False
  | _ => True

/-- What a process does by itself is about its own pages. -/
structure Alone (R : Ram) (p : Fin PROCS_MAX) (s : Machine) (own : Roles) (s' : Machine)
    (own' : Roles) : Prop where
  settled : Settled R s' own'
  lives : ∀ q, (s.k.procs q).state ≠ .unused → (s'.k.procs q).state ≠ .unused
  others : OnlyOf p own own'

theorem Alone.same (h : Settled R s' own)
    (hlives : ∀ q, (s.k.procs q).state ≠ .unused → (s'.k.procs q).state ≠ .unused) :
    Alone R p s own s' own := ⟨h, hlives, fun _ _ _ _ => Iff.rfl⟩

theorem sbrk_alone {inc : Int} (h : Settled R s own) (hcur : s.k.current = some p)
    (hlive : (s.k.procs p).state ≠ .unused) (hrun : sbrk R inc s = .ok ret s') :
    ∃ own', Alone R p s own s' own' := by
  rcases sbrk_cases h.pages hcur (h.live p hlive) hrun with ⟨-, rfl⟩ | ⟨-, brk, own', hmoved, -⟩
  · exact ⟨own, .same h fun _ hq => hq⟩
  · refine ⟨own', hmoved.settled h hlive, fun q hq => ?_, hmoved.other⟩
    rwa [hmoved.kern]

theorem call_alone {c : Syscall} (h : Settled R s own) (hc : c.KeepsProcs)
    (hrun : onKern (handleSyscall c) s = .ok ret s') : Alone R p s own s' own := by
  obtain ⟨k', hk', rfl⟩ := onKern_ok hrun
  have hsteady := Steady.of_call hk' hc
  refine .same (h.of_states rfl rfl fun q => ?_) fun q hq => ?_
  · rw [← hsteady.state q]
  · rwa [hsteady.state q]

/-- Without `sbrk` no page changes its role. -/
theorem act_same (h : Settled R s own) (hcur : s.k.current = some p)
    (hlive : (s.k.procs p).state ≠ .unused) (ha : a.Quiet) (hsbrk : ∀ inc, a ≠ .sbrk inc)
    (hrun : act R copy a s = .ok ret s') (q : Fin PROCS_MAX) : Alone R q s own s' own := by
  cases a with
  | sbrk inc => exact absurd rfl (hsbrk inc)
  | store vaddr b =>
      obtain ⟨hsettled, hlives⟩ := userStore_settled h hcur hlive hrun
      exact .same hsettled hlives
  | call c =>
      have hother (hc : c.KeepsProcs) (hact : act R copy (.call c) = onKern (handleSyscall c)) :
          Alone R q s own s' own := by
        rw [hact] at hrun
        exact call_alone h hc hrun
      cases c with
      | spawn cmdline => exact ha.elim
      | wait pid => exact ha.elim
      | exit =>
          rw [show act R copy (.call .exit) = onKern (handleSyscall .exit) from rfl] at hrun
          obtain ⟨k', hk', rfl⟩ := onKern_ok hrun
          obtain ⟨u, k₁, hexit, hpure⟩ := bind_ok.mp hk'
          obtain ⟨-, rfl⟩ := pure_ok.mp hpure
          have hrun' : onKern exitCurrentProcess s = .ok u { s with k := k₁ } := by
            rw [onKern, hexit]
          obtain ⟨hsettled, hlives⟩ := exit_settled h hcur hlive hrun'
          exact .same hsettled hlives
      | _ => exact hother trivial rfl

theorem act_alone (h : Settled R s own) (hcur : s.k.current = some p)
    (hlive : (s.k.procs p).state ≠ .unused) (ha : a.Quiet)
    (hrun : act R copy a s = .ok ret s') : ∃ own', Alone R p s own s' own' := by
  cases a with
  | sbrk inc => exact sbrk_alone h hcur hlive hrun
  | store vaddr b => exact ⟨own, act_same h hcur hlive ha (by simp) hrun p⟩
  | call c => exact ⟨own, act_same h hcur hlive ha (by simp) hrun p⟩

/-- A step is taken by a process that can run. -/
theorem step_ok (hrun : Machine.step R copy p a s = .ok ret s') :
    (s.k.procs p).state = .runnable ∧
      act R copy a { s with k := { s.k with current := some p } } = .ok ret s' := by
  replace hrun := get_then hrun
  split_ifs at hrun with hrunnable
  · obtain ⟨u, k₁, hk₁, hrun⟩ := onKern_then hrun
    obtain rfl := modify_ok.mp hk₁
    exact ⟨hrunnable, hrun⟩
  · cases hrun

/-- Who is running is not in the books. -/
theorem Settled.running (h : Settled R s own) (p : Fin PROCS_MAX) :
    Settled R { s with k := { s.k with current := some p } } own :=
  h.of_states rfl rfl fun _ => Iff.rfl

/-- A step keeps the books in order.  Either it ends no process, or it gives all
pages of one back. -/
theorem step_cases (h : Settled R s own)
    (hconf : SpawnConfined copy p a s) (hrun : Machine.step R copy p a s = .ok ret s') :
    (∃ own', Advances R s own s' own' (FailedSpawn ret a)) ∨
      ∃ q, (s'.k.procs q).state = .unused ∧ SteadyBut q s.k s'.k ∧
        Settled R s' (own.without q) := by
  obtain ⟨hrunnable, hrun⟩ := step_ok hrun
  have hlive : (s.k.procs p).state ≠ .unused := by simp [hrunnable]
  have hquiet (ha : a.Quiet) : ∃ own', Advances R s own s' own' (FailedSpawn ret a) := by
    obtain ⟨own', halone⟩ := act_alone (h.running p) rfl hlive ha hrun
    exact ⟨own', .of_kernel halone.settled halone.lives
      (halone.others .kernel (by simp) (by simp [Role.owner]))⟩
  cases a with
  | sbrk inc => exact .inl (hquiet trivial)
  | store vaddr b => exact .inl (hquiet trivial)
  | call c =>
      cases c with
      | spawn cmdline =>
          rcases spawn_cases (h.running p) hconf hrun with ⟨hret, own', hleaked⟩ |
            ⟨q, own', hspawned⟩
          · obtain ⟨hsettled, hlives, hkeeps, hgets⟩ := hleaked.advances hret
            exact .inl ⟨own', hsettled, hlives, hkeeps, hgets⟩
          · obtain ⟨hsettled, hlives, hkeeps, hgets⟩ := hspawned.advances (ret = -1)
            exact .inl ⟨own', hsettled, hlives, hkeeps, hgets⟩
      | wait pid =>
          rcases waitProcess_settled (h.running p) hrun with
            rfl | ⟨q, -, hgone, hsteady, hsettled, -⟩
          · exact .inl ⟨own, .of_kernel (h.running p) (fun _ hq => hq) fun _ => Iff.rfl⟩
          · exact .inr ⟨q, hgone, ⟨hsteady.capacity, hsteady.pid, hsteady.state⟩, hsettled⟩
      | _ => exact .inl (hquiet trivial)

theorem Roles.without_kernel (q : Fin PROCS_MAX) (j : Nat) :
    own.without q j = .kernel ↔ own j = .kernel :=
  Roles.without_iff (by simp) (by simp [Role.owner]) j

/-- The books after a step. -/
theorem step_settled (h : Settled R s own)
    (hconf : SpawnConfined copy p a s) (hrun : Machine.step R copy p a s = .ok ret s') :
    ∃ own', Settled R s' own' ∧ (∀ j, own j = .kernel → own' j = .kernel) ∧
      (¬ FailedSpawn ret a → ∀ j, own' j = .kernel → own j = .kernel) := by
  rcases step_cases h hconf hrun with ⟨own', hadv⟩ | ⟨q, -, -, hsettled⟩
  · exact ⟨own', hadv.settled, hadv.keeps, hadv.gets⟩
  · exact ⟨_, hsettled, fun j => (Roles.without_kernel q j).mpr,
      fun _ j => (Roles.without_kernel q j).mp⟩

end Steps

/-! ## Boot -/

/-- The pages in use are the first `n` ones. -/
def Mem.UpTo (m : Mem) (n : Nat) : Prop := ∀ i, m.allocated i = decide (i < n)

/-- The number of pages that the drivers get. -/
def bootPages : Nat := 9

section Boot

variable {c : Nat}

theorem allocPages_upTo (h : m.UpTo n) (hc : 0 < c) (hroom : n + c ≤ NUM_PAGES) :
    ∃ m', allocPages R c m = .ok (R.page n) m' ∧ m'.UpTo (n + c) := by
  have hfree (i : Nat) : m.isFree i c = decide (n ≤ i) := by
    rw [Mem.isFree, Bool.eq_iff_iff, List.all_eq_true, decide_eq_true_iff]
    constructor
    · intro hall
      have hi := hall 0 (List.mem_range.mpr hc)
      rw [h, Nat.add_zero, Bool.not_eq_true', decide_eq_false_iff_not] at hi
      exact Nat.le_of_not_lt hi
    · intro hi j hj
      rw [h, Bool.not_eq_true', decide_eq_false_iff_not]
      omega
  have hfind : (List.range (NUM_PAGES - c + 1)).find? (fun i => m.isFree i c) = some n := by
    refine List.find?_range_eq_some.mpr ⟨?_, List.mem_range.mpr (by omega), fun j hj => ?_⟩
    · rw [hfree, decide_eq_true_iff]
    · rw [hfree, Bool.not_eq_true', decide_eq_false_iff_not]
      exact Nat.not_le_of_lt hj
  rw [allocPages, hfind]
  refine ⟨_, rfl, fun i => ?_⟩
  show (if n ≤ i ∧ i < n + c then true else m.allocated i) = _
  rw [h i]
  split_ifs with hi
  · exact (decide_eq_true hi.2).symm
  · exact decide_eq_decide.mpr (by omega)

theorem deviceBuffers_upTo (h : m.UpTo 0) :
    ∃ m', deviceBuffers R m = .ok () m' ∧ m'.UpTo bootPages := by
  obtain ⟨m₁, h₁, hm₁⟩ := allocPages_upTo (R := R) (c := 2) h (by decide) (by decide)
  obtain ⟨m₂, h₂, hm₂⟩ := allocPages_upTo (R := R) (c := 1) hm₁ (by decide) (by decide)
  obtain ⟨m₃, h₃, hm₃⟩ := allocPages_upTo (R := R) (c := 2) hm₂ (by decide) (by decide)
  obtain ⟨m₄, h₄, hm₄⟩ := allocPages_upTo (R := R) (c := 1) hm₃ (by decide) (by decide)
  obtain ⟨m₅, h₅, hm₅⟩ := allocPages_upTo (R := R) (c := 2) hm₄ (by decide) (by decide)
  obtain ⟨m₆, h₆, hm₆⟩ := allocPages_upTo (R := R) (c := 1) hm₅ (by decide) (by decide)
  refine ⟨m₆, ?_, hm₆⟩
  rw [deviceBuffers, run_bind h₁, run_bind h₂, run_bind h₃, run_bind h₄, run_bind h₅, run_bind h₆]
  rfl

theorem putProc_state {k : KState} {Q : Process}
    (h : Q.state = (k.procs p).state) (q : Fin PROCS_MAX) :
    ((k.putProc p Q).procs q).state = (k.procs q).state := by
  show (update k.procs p Q q).state = _
  rw [update_apply]
  split_ifs with hq
  · rw [h, hq]
  · rfl

theorem settled_of_unused (h : ∀ p, (s.k.procs p).state = .unused) :
    Settled R s (kernelRoles s.mem) where
  pages := .kernelOnly
  live p hp := absurd (h p) hp
  unused p _ r hr := by
    have hcases := kernelRoles_cases s.mem r
    rw [hr] at hcases
    rcases hcases with hcases | hcases <;> cases hcases

/-- A program that needs no file and has no arguments can always be started. -/
theorem createProcess_image {prog : Exec} {o : Option (Fin PROCS_MAX)}
    (hprog : ∀ name args, prog ≠ .named name args) (h : Settled R s own)
    (hrun : Machine.createProcess R copy prog s = .ok o s') :
    ∃ p own', o = some p ∧ Spawned R p s own s' own' := by
  have hargs : prog.argv = [] := by
    cases prog with
    | idle => rfl
    | image data size => rfl
    | named name args => exact absurd rfl (hprog name args)
  rcases createProcess_settled h (fun _ _ _ _ _ _ _ _ hne => absurd hargs hne) hrun with
    ⟨rfl, -⟩ | ⟨p, own', rfl, -, hspawned⟩
  · obtain ⟨p, k₁, t1, m₁, -, -, -, ⟨-, k₂, m₂, hopen, -⟩ | ⟨ho, -⟩⟩ := createProcess_steps hrun
    · cases prog with
      | idle => cases (pure_ok.mp hopen).1
      | image data size => cases (pure_ok.mp hopen).1
      | named name args => exact absurd rfl (hprog name args)
    · cases ho
  · exact ⟨p, own', rfl, hspawned⟩

/-- After boot the kernel has the pages of the drivers. -/
theorem boot_settled (hrun : Machine.boot R copy hw (cold hw) = .ok u s) :
    ∃ own, Settled R s own ∧ ∀ i, own i = .kernel ↔ i < bootPages := by
  obtain ⟨u₁, m₁, hm₁, hrun⟩ := onMem_then hrun
  obtain ⟨m₁', hm₁', hup⟩ := deviceBuffers_upTo (R := R) (m := (cold hw).mem) (fun _ => rfl)
  rw [hm₁'] at hm₁
  obtain ⟨-, rfl⟩ := EStateM.Result.ok.inj hm₁
  obtain ⟨u₂, k₂, hk₂, hrun⟩ := onKern_then hrun
  have hunused (p : Fin PROCS_MAX) : (k₂.procs p).state = .unused :=
    (Steady.fsInit.of_ok hk₂).state p
  have hstart := settled_of_unused (R := R) (s := ⟨k₂, m₁', (cold hw).space⟩) hunused
  obtain ⟨o, s₃, h₃, hrun⟩ := bind_ok.mp hrun
  obtain ⟨p, own₃, rfl, hidle⟩ := createProcess_image (by simp) hstart h₃
  obtain ⟨u₄, k₄, hk₄, hrun⟩ := onKern_then hrun
  obtain rfl := modify_ok.mp hk₄
  have hcurrent : Settled R { s₃ with k :=
      { s₃.k.putProc p { s₃.k.procs p with pid := 0 } with current := some p } } own₃ :=
    hidle.settled.of_states rfl rfl fun q => by
      rw [← putProc_state (Q := { s₃.k.procs p with pid := 0 }) rfl q]
  obtain ⟨o, s₅, h₅, hrun⟩ := bind_ok.mp hrun
  obtain ⟨q, own₅, rfl, hshell⟩ := createProcess_image (by simp) hcurrent h₅
  obtain ⟨-, rfl⟩ := pure_ok.mp hrun
  refine ⟨own₅, hshell.settled, fun i => ?_⟩
  rw [hshell.kernel_iff, hidle.kernel_iff, kernelRoles_iff, hup i, decide_eq_true_iff]
  have hboot : bootPages ≤ NUM_PAGES := by decide
  omega

end Boot

/-! ## Runs -/

section Runs

variable {P : Cond}

/-- If all programs that are started have their arguments where they belong, the
books are in order, and the kernel has the pages of the drivers. -/
theorem Machine.Reached.settled (hP : ∀ p a s r, P p a s r → SpawnConfined copy p a s)
    (h : Machine.Reached R copy hw P s) :
    ∃ own, Settled R s own ∧ ∀ i < bootPages, own i = .kernel := by
  induction h with
  | boot run =>
      obtain ⟨own, hsettled, hkernel⟩ := boot_settled run
      exact ⟨own, hsettled, fun i => (hkernel i).mpr⟩
  | step before cond run ih =>
      obtain ⟨own, hsettled, hkernel⟩ := ih
      obtain ⟨own', hsettled', hkeeps, -⟩ := step_settled hsettled (hP _ _ _ _ cond) run
      exact ⟨own', hsettled', fun i hi => hkeeps i (hkernel i hi)⟩

/-- If no spawn fails besides, it has no others. -/
theorem Machine.Reached.settled_exact (hP : ∀ p a s r, P p a s r → SpawnConfined copy p a s)
    (hfail : ∀ p a s r, P p a s r → ¬ FailedSpawn r a) (h : Machine.Reached R copy hw P s) :
    ∃ own, Settled R s own ∧ ∀ i, own i = .kernel ↔ i < bootPages := by
  induction h with
  | boot run => exact boot_settled run
  | step before cond run ih =>
      obtain ⟨own, hsettled, hkernel⟩ := ih
      obtain ⟨own', hsettled', hkeeps, hgets⟩ := step_settled hsettled (hP _ _ _ _ cond) run
      refine ⟨own', hsettled', fun i => ?_⟩
      rw [← hkernel i]
      exact ⟨hgets (hfail _ _ _ _ cond) i, hkeeps i⟩

end Runs

end Dmaos
