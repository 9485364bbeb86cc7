import Dmaos.Memory.Account
import Dmaos.Memory.Supply
import Dmaos.System.Ownership

/-!
# A machine that has just started

As long as no page is given back, the pages in use are the first ones (`UpTo`), and
the next page is known.  So after boot it is known where the pages of a new process
are: its root, then its tables, of which the one for the devices is the last, and
then its image.  The last page of an image of one page comes right after the table
for the devices.

The steps of `create_process` on the file system do not depend on memory.  They are
taken together in `createKern`, which can be evaluated.
-/

namespace Dmaos

open Fault Machine Function

variable {R : Ram} {m m' : Mem} {t1 n size sp : Nat} {copy : ArgCopy} {prog : Exec}
  {p : Fin PROCS_MAX} {s : Machine} {src : Source} {k : KState} {args words : List (List Byte)}
  {cmdline : CString}

/-! ## Tables in a memory without holes -/

/-- From `n` pages in use to `n'`, with tables made for numbers in `S` only. -/
structure Extends (R : Ram) (t1 : Nat) (S : Nat → Prop) (n : Nat) (m : Mem) (n' : Nat) (m' : Mem) :
    Prop where
  table : TwoLevel R m' t1
  upTo : m'.UpTo n'
  le : n ≤ n'
  count : n' + missingTables m'.ram t1 (Finset.range 1024)
    = n + missingTables m.ram t1 (Finset.range 1024)
  same : ∀ v < 1024, ¬ S v → m'.ram.le32 (t1 + 4 * v) = m.ram.le32 (t1 + 4 * v)

section Tables

variable {m'' : Mem} {va pa flags n' n'' : Nat} {S T : Nat → Prop}

theorem Extends.refl (h : TwoLevel R m t1) (hup : m.UpTo n) : Extends R t1 S n m n m :=
  ⟨h, hup, Nat.le_refl n, rfl, fun _ _ _ => rfl⟩

theorem Extends.trans (h : Extends R t1 S n m n' m') (h' : Extends R t1 S n' m' n'' m'') :
    Extends R t1 S n m n'' m'' :=
  ⟨h'.table, h'.upTo, Nat.le_trans h.le h'.le, h'.count.trans h.count, fun v hv hS =>
    (h'.same v hv hS).trans (h.same v hv hS)⟩

theorem Extends.mono (h : Extends R t1 S n m n' m') (hST : ∀ v, S v → T v) :
    Extends R t1 T n m n' m' :=
  ⟨h.table, h.upTo, h.le, h.count, fun v hv hT => h.same v hv fun hS => hT (hST v hS)⟩

theorem Extends.room (h : Extends R t1 S n m n' m')
    (hroom : n + missingTables m.ram t1 (Finset.range 1024) ≤ NUM_PAGES) :
    n' + missingTables m'.ram t1 (Finset.range 1024) ≤ NUM_PAGES := by
  rw [h.count]
  exact hroom

theorem allocPages_one_upTo (hup : m.UpTo n) (hn : n < NUM_PAGES) :
    allocPages R 1 m = .ok (R.page n) (m.take R n) ∧ (m.take R n).UpTo (n + 1) := by
  refine ⟨allocPages_one hn (by simp [hup n]) fun j hj => by simp [hup j, hj], fun i => ?_⟩
  show update m.allocated n true i = _
  rw [update_apply, hup i]
  split_ifs with hi
  · simp [hi]
  · exact decide_eq_decide.mpr (by omega)

/-- A page is mapped where there is a table. -/
theorem mapPage_known (va pa flags : Nat) (h : TwoLevel R m t1) (hup : m.UpTo n)
    (hva : va % PAGE_SIZE = 0) (hpa : pa % PAGE_SIZE = 0)
    (hval : hasFlag (entry1 m.ram t1 va) PAGE_V = true) :
    ∃ m', mapPage R t1 va pa flags m = .ok () m' ∧ Extends R t1 (fun _ => False) n m n m' := by
  rcases mapPage_cases R m t1 hva hpa flags with ⟨-, hok⟩ | ⟨hno, -⟩ | ⟨hno, -⟩
  · refine ⟨_, hok, h.setEntry hval _, hup, Nat.le_refl n, ?_,
      fun v hv _ => setEntry_root h hval hv⟩
    rw [missingTables_congr fun v hv => setEntry_root h hval (Finset.mem_range.mp hv)]
  · rw [hval] at hno
    cases hno
  · rw [hval] at hno
    cases hno

/-- A page is mapped where there is none yet. -/
theorem mapPage_unknown (va pa flags : Nat) (h : TwoLevel R m t1) (hup : m.UpTo n)
    (hn : n < NUM_PAGES) (hva : va % PAGE_SIZE = 0) (hpa : pa % PAGE_SIZE = 0)
    (hval : hasFlag (entry1 m.ram t1 va) PAGE_V = false) :
    ∃ m', mapPage R t1 va pa flags m = .ok () m' ∧
      Extends R t1 (fun v => v = vpn1 va) n m (n + 1) m' ∧
      m'.ram.le32 (t1 + 4 * vpn1 va) = pte (R.page n) 0 := by
  obtain ⟨halloc, hup'⟩ := allocPages_one_upTo (R := R) hup hn
  have hfree : m.allocated n = false := by simp [hup n]
  have htable : TwoLevel R (m.addTable R t1 va n) t1 := h.addTable hn hfree
  have hself : (m.addTable R t1 va n).ram.le32 (t1 + 4 * vpn1 va) = pte (R.page n) 0 :=
    addTable_root_self hn
  have hval' : hasFlag (entry1 (m.addTable R t1 va n).ram t1 va) PAGE_V = true := by
    rw [entry1, hself, hasFlag_pte_valid]
  have hroot (v : Nat) (hv : v < 1024) (hne : v ≠ vpn1 va) :
      (m.addTable R t1 va n).ram.le32 (t1 + 4 * v) = m.ram.le32 (t1 + 4 * v) := by
    rw [addTable_root h hn hfree hv, if_neg hne]
  refine ⟨_, mapPage_of_table hva hpa hn (tableFor_new hval hn halloc),
    ⟨htable.setEntry hval' _, hup', Nat.le_succ n, ?_, fun v hv hne => ?_⟩, ?_⟩
  · have hadd := missingTables_add (Finset.mem_range.mpr (vpn1_lt va)) hval hval' fun w hw hne =>
      hroot w (Finset.mem_range.mp hw) hne
    rw [missingTables_congr fun v hv => setEntry_root htable hval' (Finset.mem_range.mp hv), ← hadd]
    omega
  · rw [setEntry_root htable hval' hv, hroot v hv hne]
  · rw [setEntry_root htable hval' (vpn1_lt va), hself]

/-- While there are pages for all tables that are missing, a page can be mapped. -/
theorem mapPage_upTo (va pa flags : Nat) (h : TwoLevel R m t1) (hup : m.UpTo n)
    (hroom : n + missingTables m.ram t1 (Finset.range 1024) ≤ NUM_PAGES)
    (hva : va % PAGE_SIZE = 0) (hpa : pa % PAGE_SIZE = 0) :
    ∃ n' m', mapPage R t1 va pa flags m = .ok () m' ∧
      Extends R t1 (fun v => v = vpn1 va) n m n' m' := by
  cases hval : hasFlag (entry1 m.ram t1 va) PAGE_V with
  | true =>
      obtain ⟨m', hrun, hext⟩ := mapPage_known va pa flags h hup hva hpa hval
      exact ⟨n, m', hrun, hext.mono fun _ => False.elim⟩
  | false =>
      have hpos : 0 < missingTables m.ram t1 (Finset.range 1024) :=
        Finset.card_pos.mpr ⟨vpn1 va, Finset.mem_filter.mpr
          ⟨Finset.mem_range.mpr (vpn1_lt va), hval⟩⟩
      obtain ⟨m', hrun, hext, -⟩ := mapPage_unknown va pa flags h hup (by omega) hva hpa hval
      exact ⟨n + 1, m', hrun, hext⟩

theorem mapKernel_upTo (c lo : Nat) (h : TwoLevel R m t1) (hup : m.UpTo n)
    (hroom : n + missingTables m.ram t1 (Finset.range 1024) ≤ NUM_PAGES)
    (hlo : 0x80000 ≤ lo) (hhi : lo + c ≤ 2 ^ 20) :
    ∃ n' m', mapKernel R t1 c (lo * PAGE_SIZE) m = .ok () m' ∧
      Extends R t1 (fun v => 512 ≤ v) n m n' m' := by
  induction c generalizing lo m n with
  | zero => exact ⟨n, m, rfl, .refl h hup⟩
  | succ c ih =>
      obtain ⟨n₁, m₁, hmap, hext⟩ := mapPage_upTo (lo * PAGE_SIZE) (lo * PAGE_SIZE)
        (PAGE_R ||| PAGE_W ||| PAGE_X) h hup hroom (Nat.mul_mod_left ..) (Nat.mul_mod_left ..)
      obtain ⟨n', m', hrun, hext'⟩ := ih (lo + 1) hext.table hext.upTo (hext.room hroom)
        (by omega) (by omega)
      refine ⟨n', m', ?_, (hext.mono fun v hv => ?_).trans hext'⟩
      · rw [mapKernel, run_bind hmap, ← Nat.succ_mul]
        exact hrun
      · rw [hv, Pages.vpn1_page (by omega)]
        omega

/-- The three devices have one table. -/
theorem mapDevices_upTo (h : TwoLevel R m t1) (hup : m.UpTo n) (hn : n < NUM_PAGES)
    (hnone : m.ram.le32 (t1 + 4 * 64) = 0) :
    ∃ m', mapDevices R t1 m = .ok () m' ∧ Extends R t1 (fun v => v = 64) n m (n + 1) m' ∧
      m'.ram.le32 (t1 + 4 * 64) = pte (R.page n) 0 := by
  have hval : hasFlag (entry1 m.ram t1 VIRTIO_BLK0_PADDR) PAGE_V = false := by
    rw [entry1, show vpn1 VIRTIO_BLK0_PADDR = 64 from rfl, hnone]
    decide
  obtain ⟨m₁, h₁, hext₁, hentry₁⟩ := mapPage_unknown VIRTIO_BLK0_PADDR VIRTIO_BLK0_PADDR
    (PAGE_R ||| PAGE_W) h hup hn (by decide) (by decide) hval
  rw [show vpn1 VIRTIO_BLK0_PADDR = 64 from rfl] at hext₁ hentry₁
  have hval₁ : hasFlag (entry1 m₁.ram t1 VIRTIO_BLK1_PADDR) PAGE_V = true := by
    rw [entry1, show vpn1 VIRTIO_BLK1_PADDR = 64 from rfl, hentry₁, hasFlag_pte_valid]
  obtain ⟨m₂, h₂, hext₂⟩ := mapPage_known VIRTIO_BLK1_PADDR VIRTIO_BLK1_PADDR
    (PAGE_R ||| PAGE_W) hext₁.table hext₁.upTo (by decide) (by decide) hval₁
  have hentry₂ := (hext₂.same 64 (by decide) id).trans hentry₁
  have hval₂ : hasFlag (entry1 m₂.ram t1 VIRTIO_INPUT_PADDR) PAGE_V = true := by
    rw [entry1, show vpn1 VIRTIO_INPUT_PADDR = 64 from rfl, hentry₂, hasFlag_pte_valid]
  obtain ⟨m₃, h₃, hext₃⟩ := mapPage_known VIRTIO_INPUT_PADDR VIRTIO_INPUT_PADDR
    (PAGE_R ||| PAGE_W) hext₂.table hext₂.upTo (by decide) (by decide) hval₂
  refine ⟨m₃, ?_, hext₁.trans ((hext₂.trans hext₃).mono fun _ => False.elim),
    (hext₃.same 64 (by decide) id).trans hentry₂⟩
  rw [mapDevices, run_bind h₁, run_bind h₂]
  exact h₃

/-- The memory after a process has got its table: the root is page `n`, and the last
page taken is the table for the devices. -/
structure Tabled (R : Ram) (n d : Nat) (m : Mem) : Prop where
  table : TwoLevel R m (R.page n)
  upTo : m.UpTo (d + 1)
  lt : n < d
  devices : m.ram.le32 (R.page n + 4 * 64) = pte (R.page d) 0

theorem newTable_upTo (hup : m.UpTo n) (hroom : n + 1025 ≤ NUM_PAGES) :
    ∃ d m', newTable R m = .ok (R.page n) m' ∧ Tabled R n d m' ∧
      d + 1 + missingTables m'.ram (R.page n) (Finset.range 1024) ≤ n + 1025 := by
  obtain ⟨halloc, hup₁⟩ := allocPages_one_upTo (R := R) hup (by omega)
  have hzero (v : Nat) (hv : v < 1024) : (m.take R n).ram.le32 (R.page n + 4 * v) = 0 :=
    le32_cleared hv
  have h₁ : TwoLevel R (m.take R n) (R.page n) := .empty (R.page_mod n) (Used.taken n) hzero
  have hmissing := missingTables_le (m.take R n).ram (R.page n) (Finset.range 1024)
  rw [Finset.card_range] at hmissing
  have hbase : kernelBase = 0x80200 * PAGE_SIZE := rfl
  have hpages : 0x80200 + kernelPages R ≤ 2 ^ 20 := by
    have hfits := R.fits
    simp only [kernelPages, Ram.stop, kernelBase, PAGE_SIZE, NUM_PAGES] at *
    omega
  obtain ⟨n₂, m₂, hkernel, hext⟩ := mapKernel_upTo (kernelPages R) 0x80200 h₁ hup₁ (by omega)
    (by decide) hpages
  have hnone : m₂.ram.le32 (R.page n + 4 * 64) = 0 := by
    rw [hext.same 64 (by decide) (by decide), hzero 64 (by decide)]
  have hpos : 0 < missingTables m₂.ram (R.page n) (Finset.range 1024) :=
    Finset.card_pos.mpr ⟨64, by simp [hnone, hasFlag]⟩
  have hcount := hext.count
  obtain ⟨m₃, hdevices, hext', hentry⟩ := mapDevices_upTo hext.table hext.upTo (by omega) hnone
  have hcount' := hext'.count
  refine ⟨n₂, m₃, ?_, ⟨hext'.table, hext'.upTo, hext.le, hentry⟩, by omega⟩
  rw [newTable, run_bind halloc, hbase, run_bind hkernel, run_bind hdevices]
  rfl

end Tables

/-! ## Processes -/

/-- `create_process`, the part about the file system and the process table, for a
program of one page at most.  Returns the process and the size of the program. -/
def createKern (prog : Exec) : Kern (Option (Fin PROCS_MAX × Nat)) := do
  let s ← get
  match findProc s with
  | none => throw .procs
  | some p =>
    prepareProc prog.program p
    match ← openProgram prog with
    | none => return none
    | some (src, size) =>
      if 0 < size then
        let _ ← src.fetch 0 size
      src.close
      modify fun s => s.putProc p { s.procs p with pid := (p : Nat) + 1, state := .runnable }
      return some (p, size)

/-- The page table and the image of a new process: its root is page `n`, and its
image is the page after the table for the devices, if it has one. -/
structure Imaged (R : Ram) (n d size last : Nat) (m : Mem) : Prop where
  table : TwoLevel R m (R.page n)
  upTo : ∃ n' ≤ n + 1027, d < n' ∧ m.UpTo n'
  lt : n < d
  devices : m.ram.le32 (R.page n + 4 * 64) = pte (R.page d) 0
  last_page : last = if size = 0 then 0 else R.page (d + 1)

section Create

variable {k₁ k₂ : KState} {d : Nat}

theorem onMem_run {α : Type} {x : Pg α} {a : α} (h : x s.mem = .ok a m') :
    onMem x s = .ok a { s with mem := m' } := by
  rw [onMem, h]

theorem onKern_run {α : Type} {x : Kern α} {a : α} (h : x s.k = .ok a k₂) :
    onKern x s = .ok a { s with k := k₂ } := by
  rw [onKern, h]

/-- A page is filled and mapped as the first page of the image. -/
theorem firstPage_upTo (bytes : List Byte) (h : Tabled R n d m) (hroom : n + 1027 ≤ NUM_PAGES)
    (hcount : d + 1 + missingTables m.ram (R.page n) (Finset.range 1024) ≤ n + 1025)
    (hlen : bytes.length ≤ PAGE_SIZE) :
    ∃ m', mapPage R (R.page n) USER_BASE (R.page (d + 1)) (PAGE_U ||| PAGE_R ||| PAGE_W ||| PAGE_X)
        ⟨(m.take R (d + 1)).ram.copy (R.page (d + 1)) (Buf.ofList bytes) bytes.length,
          (m.take R (d + 1)).allocated⟩ = .ok () m' ∧
      TwoLevel R m' (R.page n) ∧ (∃ n' ≤ n + 1027, d < n' ∧ m'.UpTo n') ∧
      m'.ram.le32 (R.page n + 4 * 64) = pte (R.page d) 0 := by
  obtain ⟨-, hup⟩ := allocPages_one_upTo (R := R) h.upTo (by omega)
  have hfree : m.allocated (d + 1) = false := by simp [h.upTo (d + 1)]
  have hV (v : Nat) (hv : v ∈ Finset.range 1024) : v < 1024 := Finset.mem_range.mp hv
  have htake := Counted.take h.table hV (show d + 1 < NUM_PAGES by omega) hfree
  generalize hm₂ : (⟨(m.take R (d + 1)).ram.copy (R.page (d + 1)) (Buf.ofList bytes) bytes.length,
    (m.take R (d + 1)).allocated⟩ : Mem) = m₂
  have hne : n ≠ d + 1 := Nat.ne_of_lt (Nat.lt_succ_of_lt h.lt)
  have hlen' : 0 + bytes.length ≤ PAGE_SIZE := by omega
  have hsame : SamePage R n (m.take R (d + 1)).ram m₂.ram := by
    rw [← hm₂]
    exact SamePage.copy hne hlen'
  have hall : m₂.allocated = (m.take R (d + 1)).allocated := by rw [← hm₂]
  have hroot (v : Nat) (hv : v < 1024) :
      m₂.ram.le32 (R.page n + 4 * v) = m.ram.le32 (R.page n + 4 * v) := by
    rw [← hsame.le32 hv]
    exact le32_cleared_of_ne (R.page_mod n) (R.page_mod _) hv fun heq => hne (Ram.page_inj heq)
  have htable : TwoLevel R m₂ (R.page n) :=
    htake.table.of_root (fun v hv => (hsame.le32 hv).symm) fun _ hused => hused.of_allocated hall
  have hup₂ : m₂.UpTo (d + 1 + 1) := fun i => by rw [hall, hup i]
  have hmissing : missingTables m₂.ram (R.page n) (Finset.range 1024)
      = missingTables m.ram (R.page n) (Finset.range 1024) :=
    missingTables_congr fun v hv => hroot v (hV v hv)
  obtain ⟨n', m', hmap, hext⟩ := mapPage_upTo USER_BASE (R.page (d + 1))
    (PAGE_U ||| PAGE_R ||| PAGE_W ||| PAGE_X) htable hup₂ (by omega) (by decide) (R.page_mod _)
  have hcount' := hext.count
  have hle := hext.le
  refine ⟨m', hmap, hext.table, ⟨n', by omega, by omega, hext.upTo⟩, ?_⟩
  rw [hext.same 64 (by decide) (by decide), hroot 64 (by decide), h.devices]

/-- The loop that loads a program does one turn for one page. -/
theorem loadPages_one (space : Fin PROCS_MAX → Space) {bytes : List Byte}
    (h : Tabled R n d m) (hroom : n + 1027 ≤ NUM_PAGES)
    (hcount : d + 1 + missingTables m.ram (R.page n) (Finset.range 1024) ≤ n + 1025)
    (hpos : 0 < size) (hsize : size ≤ PAGE_SIZE) (hfetch : src.fetch 0 size k₁ = .ok bytes k₂) :
    ∃ m', loadPages R src (R.page n) size (size / PAGE_SIZE + 1) 0 0 ⟨k₁, m, space⟩
        = .ok (R.page (d + 1)) ⟨k₂, m', space⟩ ∧ Imaged R n d size (R.page (d + 1)) m' := by
  obtain ⟨halloc, -⟩ := allocPages_one_upTo (R := R) h.upTo (by omega)
  obtain ⟨hlen, -⟩ := fetch_ok hfetch
  obtain ⟨m', hmap, htable, hup, hdevices⟩ := firstPage_upTo bytes h hroom hcount
    (Nat.le_trans hlen hsize)
  refine ⟨m', ?_, htable, hup, h.lt, hdevices, by rw [if_neg (Nat.ne_of_gt hpos)]⟩
  have hmin : min PAGE_SIZE (size - 0) = size := by omega
  have hva : (USER_BASE + 0) % 2 ^ 32 = USER_BASE := by decide
  have hlast : size ≤ 0 + PAGE_SIZE := by omega
  have hfetch' : src.fetch 0 (min PAGE_SIZE (size - 0)) k₁ = .ok bytes k₂ := by rw [hmin, hfetch]
  -- the loop ends after the first turn
  have hend (fuel : Nat) : loadPages R src (R.page n) size fuel (0 + PAGE_SIZE) (R.page (d + 1))
      ⟨k₂, m', space⟩ = .ok (R.page (d + 1)) ⟨k₂, m', space⟩ := by
    cases fuel with
    | zero => rfl
    | succ fuel =>
        rw [loadPages, if_pos hlast]
        rfl
  have h₁ : onMem (allocPages R 1) ⟨k₁, m, space⟩
      = .ok (R.page (d + 1)) ⟨k₁, m.take R (d + 1), space⟩ := onMem_run (s := ⟨k₁, m, space⟩) halloc
  have h₂ : onKern (src.fetch 0 (min PAGE_SIZE (size - 0))) ⟨k₁, m.take R (d + 1), space⟩
      = .ok bytes ⟨k₂, m.take R (d + 1), space⟩ :=
    onKern_run (s := ⟨k₁, m.take R (d + 1), space⟩) hfetch'
  rw [loadPages, if_neg (by omega), run_bind h₁, run_bind h₂, if_pos hlast, hva]
  have hstore : onMem (storeBytes (R.page (d + 1)) bytes) ⟨k₂, m.take R (d + 1), space⟩
      = .ok () ⟨k₂, ⟨(m.take R (d + 1)).ram.copy (R.page (d + 1)) (Buf.ofList bytes) bytes.length,
          (m.take R (d + 1)).allocated⟩, space⟩ := rfl
  rw [run_bind hstore]
  exact (run_bind (onMem_run hmap)).trans (hend _)

/-- The steps of `createKern`. -/
theorem createKern_ok (h : createKern prog k₁ = .ok (some (p, size)) k₂) :
    ∃ src k₃ k₄ k₅ k₆, findProc k₁ = some p ∧ prepareProc prog.program p k₁ = .ok () k₃ ∧
      openProgram prog k₃ = .ok (some (src, size)) k₄ ∧
      (size = 0 ∧ k₅ = k₄ ∨ 0 < size ∧ ∃ bytes, src.fetch 0 size k₄ = .ok bytes k₅) ∧
      src.close k₅ = .ok () k₆ ∧
      k₂ = k₆.putProc p { k₆.procs p with pid := (p : Nat) + 1, state := .runnable } := by
  replace h := get_then h
  cases hp : findProc k₁ with
  | none =>
      simp only [hp] at h
      exact absurd h throw_ok
  | some q =>
      simp only [hp] at h
      obtain ⟨u, k₃, hprep, h⟩ := bind_ok.mp h
      obtain ⟨found, k₄, hopen, h⟩ := bind_ok.mp h
      cases found with
      | none => cases (pure_ok.mp h).1
      | some x =>
          obtain ⟨src, size'⟩ := x
          have hend {k₅ : KState} (hrest : (do
                src.close
                modify fun s => s.putProc q
                  { s.procs q with pid := (q : Nat) + 1, state := .runnable }
                return some (q, size') : Kern (Option (Fin PROCS_MAX × Nat))) k₅
              = .ok (some (p, size)) k₂) : q = p ∧ size' = size ∧ ∃ k₆, src.close k₅ = .ok () k₆ ∧
              k₂ = k₆.putProc p { k₆.procs p with pid := (p : Nat) + 1, state := .runnable } := by
            obtain ⟨u, k₆, hclose, hrest⟩ := bind_ok.mp hrest
            replace hrest := modify_then hrest
            obtain ⟨hres, rfl⟩ := pure_ok.mp hrest
            obtain ⟨rfl, rfl⟩ := Prod.mk.inj (Option.some.inj hres)
            exact ⟨rfl, rfl, k₆, hclose, rfl⟩
          rcases Nat.eq_zero_or_pos size' with hzero | hpos
          · subst hzero
            obtain ⟨rfl, rfl, k₆, hclose, hk⟩ := hend h
            exact ⟨src, k₃, k₄, k₄, k₆, rfl, hprep, hopen, .inl ⟨rfl, rfl⟩, hclose, hk⟩
          · simp only [if_pos hpos] at h
            obtain ⟨bytes, k₅, hfetch, h⟩ := bind_ok.mp h
            obtain ⟨rfl, rfl, k₆, hclose, hk⟩ := hend h
            exact ⟨src, k₃, k₄, k₅, k₆, rfl, hprep, hopen, .inr ⟨hpos, bytes, hfetch⟩, hclose, hk⟩

/-- The steps of `create_process` one after the other. -/
theorem createProcess_run {last : Nat} {k₃ k₄ : KState} {m₁ : Mem}
    {s₃ : Machine} (hp : findProc s.k = some p)
    (hprep : prepareProc prog.program p s.k = .ok () k₁) (htable : newTable R s.mem = .ok t1 m₁)
    (hopen : openProgram prog k₁ = .ok (some (src, size)) k₂)
    (hload : loadPages R src t1 size (size / PAGE_SIZE + 1) 0 0 ⟨k₂, m₁, s.space⟩ = .ok last s₃)
    (hclose : src.close s₃.k = .ok () k₄)
    (hargs : placeArguments copy last size prog.argv s₃.mem = .ok sp m')
    (hk₃ : k₃ = k₄.putProc p { k₄.procs p with pid := (p : Nat) + 1, state := .runnable }) :
    Machine.createProcess R copy prog s = .ok (some p)
      ⟨k₃, m', update s₃.space p (newSpace t1 size sp prog.argv.length)⟩ := by
  have hget : (get : Mach Machine) s = .ok s s := rfl
  rw [Machine.createProcess, run_bind hget]
  simp only [hp]
  rw [run_bind (onKern_run hprep)]
  refine (run_bind (onMem_run (s := { s with k := k₁ }) htable)).trans ?_
  refine (run_bind (onKern_run (s := ⟨k₁, m₁, s.space⟩) hopen)).trans ?_
  refine (run_bind hload).trans ?_
  refine (run_bind (onKern_run hclose)).trans ?_
  refine (run_bind (onMem_run (s := { s₃ with k := k₄ }) hargs)).trans ?_
  rw [hk₃]
  rfl

/-- A process is made.  What is left to do is to store its arguments. -/
theorem createProcess_upTo (R : Ram) (copy : ArgCopy) (hup : s.mem.UpTo n)
    (hroom : n + 1027 ≤ NUM_PAGES)
    (hkern : createKern prog s.k = .ok (some (p, size)) k₂) (hsize : size ≤ PAGE_SIZE) :
    ∃ d last m, Imaged R n d size last m ∧
      ∀ sp m', placeArguments copy last size prog.argv m = .ok sp m' →
        Machine.createProcess R copy prog s = .ok (some p) ⟨k₂, m',
          update s.space p (newSpace (R.page n) size sp prog.argv.length)⟩ := by
  obtain ⟨src, k₃, k₄, k₅, k₆, hp, hprep, hopen, hfetch, hclose, hk⟩ := createKern_ok hkern
  obtain ⟨d, m₁, htable, htabled, hcount⟩ := newTable_upTo (R := R) hup (by omega)
  rcases hfetch with ⟨rfl, rfl⟩ | ⟨hpos, bytes, hfetch⟩
  · refine ⟨d, 0, m₁, ⟨htabled.table, ⟨d + 1, by omega, Nat.lt_succ_self d, htabled.upTo⟩,
      htabled.lt,
      htabled.devices, rfl⟩, fun sp m' hargs => ?_⟩
    have hload : loadPages R src (R.page n) 0 (0 / PAGE_SIZE + 1) 0 0 ⟨k₅, m₁, s.space⟩
        = .ok 0 ⟨k₅, m₁, s.space⟩ := rfl
    have hrun := createProcess_run hp hprep htable hopen hload hclose hargs hk
    exact hrun
  · obtain ⟨m₃, hload, himaged⟩ := loadPages_one s.space htabled hroom hcount hpos hsize hfetch
    refine ⟨d, R.page (d + 1), m₃, himaged, fun sp m' hargs => ?_⟩
    have hrun := createProcess_run hp hprep htable hopen hload hclose hargs hk
    exact hrun

/-- Arguments that do not fit end up in the table for the devices: the word just
below the image is the entry for the last page of the table. -/
theorem copyArguments_spills {argv : List (List Byte)}
    (h : Imaged R n d size (R.page (d + 1)) m) (hspill : stackTop size + 4 ≤ argv.weight)
    (hpage : argv.weight + 4 * (argv.length + 1) + 16 ≤ PAGE_SIZE) (hd : d < NUM_PAGES)
    (hrun : copyArguments (R.page (d + 1)) size argv m = .ok sp m') :
    entry0 m'.ram (R.page n) 0x103ff000
        = (Buf.ofList (flatArgs argv)).le32 (argv.weight - stackTop size - 4) ∧
      hasFlag (entry1 m'.ram (R.page n) 0x103ff000) PAGE_V = true := by
  have hnext : R.page (d + 1) = R.page d + PAGE_SIZE := by
    simp only [Ram.page, PAGE_SIZE]
    omega
  have hbelow : R.page n + PAGE_SIZE ≤ R.page d := by
    have hlt := h.lt
    simp only [Ram.page, PAGE_SIZE]
    omega
  have hroom : argv.weight ≤ R.page (d + 1) + stackTop size := by omega
  obtain ⟨b, hok, hother, -⟩ := copyArguments_ok m hroom
  rw [hok] at hrun
  obtain ⟨-, rfl⟩ := EStateM.Result.ok.inj hrun
  -- the pointers are above the start of the page below, and end below its last word
  have hstart : R.page d ≤ argsStart (R.page (d + 1)) size argv ∧
      argsStart (R.page (d + 1)) size argv + 4 * (argv.length + 1) + 4 ≤ R.page (d + 1) := by
    have hmod := R.page_mod (d + 1)
    simp only [argsStart, PAGE_SIZE] at *
    omega
  have hroot : b.le32 (R.page n + 4 * 64) = pte (R.page d) 0 := by
    rw [← h.devices]
    refine Buf.le32_congr fun i hi => ?_
    have hout : R.page n + 4 * 64 + i < R.page d := by
      simp only [PAGE_SIZE] at hbelow
      omega
    rw [hother _ (by omega)]
    exact Buf.copy_of_not_mem (by omega)
  have hentry1 : entry1 b (R.page n) 0x103ff000 = pte (R.page d) 0 := hroot
  refine ⟨?_, ?_⟩
  · show entry0 b (R.page n) 0x103ff000 = _
    rw [entry0, hentry1, pteAddr_pte (Ram.page_lt_word hd) (R.page_mod d) (by decide)]
    have hdrop (c : Buf) (o : Nat) : c.le32 o = (c.drop o).le32 0 := rfl
    rw [hdrop, hdrop (Buf.ofList _)]
    refine Buf.le32_congr fun i hi => ?_
    have hlast : R.page d + 4 * vpn0 0x103ff000 = R.page (d + 1) - 4 := by
      rw [hnext, show vpn0 0x103ff000 = 1023 from rfl]
      simp only [PAGE_SIZE]
      omega
    rw [Buf.drop, Buf.drop, hlast, hother _ (by omega), Buf.copy_of_mem (by omega)]
    congr 1
    omega
  · show hasFlag (entry1 b (R.page n) 0x103ff000) PAGE_V = true
    rw [hentry1, hasFlag_pte_valid]

end Create

/-! ## Boot -/

/-- `kmain`, the part about the file system and the process table.  Returns the
sizes of the two programs. -/
def bootKern (hw : Hardware) : Kern (Nat × Nat) := do
  fsInit
  match ← createKern .idle with
  | none => throw .procs
  | some (p, size) =>
    modify fun s => { s.putProc p { s.procs p with pid := 0 } with current := some p }
    match ← createKern (.image hw.shell hw.shellSize) with
    | none => throw .procs
    | some (_, size') => return (size, size')

section Boot

variable {hw : Hardware} {size' : Nat}

/-- A program without arguments is started. -/
theorem createProcess_plain (R : Ram) (copy : ArgCopy)
    (hargv : prog.argv = []) (hup : s.mem.UpTo n) (hroom : n + 1027 ≤ NUM_PAGES)
    (hkern : createKern prog s.k = .ok (some (p, size)) k) (hsize : size ≤ PAGE_SIZE) :
    ∃ s' n', Machine.createProcess R copy prog s = .ok (some p) s' ∧ s'.k = k ∧ s'.mem.UpTo n' ∧
      n' ≤ n + 1027 := by
  obtain ⟨d, last, m, himaged, hcreate⟩ := createProcess_upTo R copy hup hroom hkern hsize
  obtain ⟨n', hn', -, hup'⟩ := himaged.upTo
  have hargs : placeArguments copy last size prog.argv m = .ok (USER_BASE + size) m := by
    rw [hargv]
    rfl
  exact ⟨_, n', hcreate _ _ hargs, rfl, hup', hn'⟩

/-- The machine starts. -/
theorem boot_upTo (R : Ram) (copy : ArgCopy)
    (hkern : bootKern hw (coldState hw.d0 hw.d1) = .ok (size, size') k)
    (hsize : size ≤ PAGE_SIZE) (hsize' : size' ≤ PAGE_SIZE) :
    ∃ s n, Machine.boot R copy hw (cold hw) = .ok () s ∧ s.k = k ∧ s.mem.UpTo n ∧
      n ≤ bootPages + 2 * 1027 := by
  obtain ⟨u, k₁, hinit, hkern⟩ := bind_ok.mp hkern
  obtain ⟨o, k₂, hidle, hkern⟩ := bind_ok.mp hkern
  cases o with
  | none => exact absurd hkern throw_ok
  | some x =>
      obtain ⟨p, size₀⟩ := x
      replace hkern := modify_then hkern
      obtain ⟨o, k₄, hshell, hkern⟩ := bind_ok.mp hkern
      cases o with
      | none => exact absurd hkern throw_ok
      | some y =>
          obtain ⟨q, size₁⟩ := y
          obtain ⟨hres, rfl⟩ := pure_ok.mp hkern
          obtain ⟨rfl, rfl⟩ := Prod.mk.inj hres
          obtain ⟨m₁, hbuffers, hup₁⟩ :=
            deviceBuffers_upTo (R := R) (m := (cold hw).mem) fun _ => rfl
          obtain ⟨s₂, n₂, hcreate₂, rfl, hup₂, hn₂⟩ := createProcess_plain R copy
            (s := ⟨k₁, m₁, (cold hw).space⟩) rfl hup₁ (by decide) hidle hsize
          have hroom : n₂ + 1027 ≤ NUM_PAGES :=
            Nat.le_trans (Nat.add_le_add_right hn₂ 1027) (by decide)
          obtain ⟨s₃, n₃, hcreate₃, rfl, hup₃, hn₃⟩ := createProcess_plain R copy
            (s := { s₂ with k :=
              { s₂.k.putProc p { s₂.k.procs p with pid := 0 } with current := some p } })
            rfl hup₂ hroom hshell hsize'
          refine ⟨s₃, n₃, ?_, rfl, hup₃, by omega⟩
          refine (run_bind (onMem_run hbuffers)).trans ?_
          refine (run_bind (onKern_run (s := { cold hw with mem := m₁ }) hinit)).trans ?_
          refine (run_bind hcreate₂).trans ?_
          exact run_bind hcreate₃

end Boot

/-! ## A program whose arguments do not fit -/

section Spawn

variable {q : Fin PROCS_MAX} {name : List Byte}

theorem createKern_programSize {k' : KState}
    (h : createKern (.named name args) k = .ok (some (p, size)) k') :
    programSize k (name :: args) = some size := by
  obtain ⟨src, k₃, k₄, k₅, k₆, hp, hprep, hopen, -⟩ := createKern_ok h
  rw [Exec.program] at hprep
  simp only [programSize, hp, run_bind hprep, hopen]

/-- What a process does is done with it as the current process. -/
theorem step_act {a : Action} (hrunnable : (s.k.procs q).state = .runnable) :
    Machine.step R copy q a s = act R copy a { s with k := { s.k with current := some q } } := by
  have hget : (get : Mach Machine) s = .ok s s := rfl
  have hcurrent : onKern (modify fun s => { s with current := some q }) s
      = .ok () { s with k := { s.k with current := some q } } := rfl
  rw [Machine.step, run_bind hget, if_pos hrunnable, run_bind hcurrent]

/-- The arguments of a program can be stored. -/
def Storable (R : Ram) (copy : ArgCopy) (size : Nat) (words : List (List Byte)) : Prop :=
  ∀ {a : Nat} {m : Mem}, R.start ≤ a → ∃ sp b, copy a size words m = .ok sp { m with ram := b }

theorem storable_copyArguments (hfits : List.weight words ≤ 255) :
    Storable R copyArguments size words := by
  intro a m ha
  have hbase := R.base_le
  have hroom : words.weight ≤ a + stackTop size := by
    simp only [kernelBase] at *
    omega
  obtain ⟨b, hargs, -⟩ := copyArguments_ok m hroom
  exact ⟨_, b, hargs⟩

theorem storable_noArguments : Storable R noArguments size words :=
  fun _ => ⟨_, _, rfl⟩

/-- A program of one page is started. -/
theorem spawn_upTo (hup : s.mem.UpTo n) (hroom : n + 1027 ≤ NUM_PAGES)
    (hrunnable : (s.k.procs q).state = .runnable) (hwords : argv cmdline.1 = name :: args)
    (hkern : createKern (.named name args) { s.k with current := some q } = .ok (some (p, size)) k)
    (hpos : 0 < size) (hsize : size ≤ PAGE_SIZE) (hstore : Storable R copy size (name :: args)) :
    ∃ d m sp b, Imaged R n d size (R.page (d + 1)) m ∧ d < NUM_PAGES ∧
      copy (R.page (d + 1)) size (name :: args) m = .ok sp { m with ram := b } ∧
      Machine.step R copy q (.call (.spawn cmdline)) s = .ok (k.procs p).pid
        ⟨k, { m with ram := b },
          update s.space p (newSpace (R.page n) size sp (args.length + 1))⟩ := by
  obtain ⟨d, last, m, himaged, hcreate⟩ := createProcess_upTo R copy
    (s := { s with k := { s.k with current := some q } }) hup hroom hkern hsize
  have hlast := himaged.last_page
  rw [if_neg (Nat.ne_of_gt hpos)] at hlast
  subst hlast
  obtain ⟨n', hn', hd, -⟩ := himaged.upTo
  obtain ⟨sp, b, hargs⟩ := hstore (m := m) (R.le_page (d + 1))
  have hplace : placeArguments copy (R.page (d + 1)) size (Exec.argv (.named name args)) m
      = copy (R.page (d + 1)) size (name :: args) m := by
    have hne : R.page (d + 1) ≠ 0 := Nat.ne_of_gt (Nat.lt_of_lt_of_le R.pos (R.le_page _))
    rw [placeArguments, if_pos ⟨by simp [Exec.argv], hne⟩, Exec.argv]
  have hrun := hcreate _ _ (hplace.trans hargs)
  refine ⟨d, m, _, _, himaged, by omega, hargs, ?_⟩
  rw [step_act hrunnable, act, Machine.spawnProcess, ← argv, hwords]
  exact run_bind hrun

end Spawn

/-- A machine with an empty device and a shell of one page. -/
def machine : Hardware where
  d0 := systemDisk
  d1 := emptyDisk
  ram := Buf.zero
  shell := Buf.zero
  shellSize := PAGE_SIZE

/-- `"/ 777…"`, a line of 102 bytes. -/
def longLine : CString := ⟨slash :: 0x20 :: List.replicate 100 0x37, by decide⟩

/-- `"/ a"`. -/
def shortLine : CString := ⟨[slash, 0x20, 0x61], by decide⟩

/-- Process `q` with pid 3 exits, and process `p` can give its files back. -/
def Quits (p q : Fin PROCS_MAX) (k : KState) : Prop :=
  ∃ r k₁ k₂ k₃, handleSyscall .exit { k with current := some q } = .ok r k₁ ∧
    (k₁.procs p).state = .runnable ∧ findPid k₁ 3 = some q ∧ (k₁.procs q).state = .exited ∧
    dropCwd q { k₁ with current := some p } = .ok () k₂ ∧
    closeAll q (List.finRange NUM_FILES_PER_PROCESS) k₂ = .ok () k₃

/-- The calls of the machine on the file system: boot, and the start and the end of
the program `/`, a directory of 96 bytes. -/
theorem machine_kern :
    ∃ k, bootKern machine (coldState systemDisk emptyDisk) = .ok (0, PAGE_SIZE) k ∧
    (k.procs 1).state = .runnable ∧ (k.procs 2).state = .unused ∧
    ∃ k', createKern (.named [slash] []) { k with current := some 1 } = .ok (some (2, 96)) k' ∧
      (k'.procs 2).pid = 3 ∧ (k'.procs 2).state = .runnable ∧ Quits 1 2 k' := by
  have hrun : yields (bootKern machine) (fun x k => x == (0, PAGE_SIZE) &&
      (k.procs 1).state == .runnable && (k.procs 2).state == .unused &&
      yields (createKern (.named [slash] [])) (fun y k' => y == some (2, 96) &&
        (k'.procs 2).pid == 3 && (k'.procs 2).state == .runnable &&
        yields (handleSyscall .exit) (fun _ k₁ => (k₁.procs 1).state == .runnable &&
          findPid k₁ 3 == some 2 && (k₁.procs 2).state == .exited &&
          yields (dropCwd 2) (fun _ k₂ =>
            yields (closeAll 2 (List.finRange NUM_FILES_PER_PROCESS)) (fun _ _ => true) k₂)
            { k₁ with current := some 1 }) { k' with current := some 2 })
        { k with current := some 1 }) (coldState systemDisk emptyDisk) = true := by
    decide +kernel
  obtain ⟨x, k, hboot, hQ⟩ := exists_ok_of_yields hrun
  simp only [Bool.and_eq_true, beq_iff_eq] at hQ
  obtain ⟨⟨⟨rfl, hstate⟩, hunused⟩, hQ⟩ := hQ
  obtain ⟨y, k', hcreate, hQ⟩ := exists_ok_of_yields hQ
  simp only [Bool.and_eq_true, beq_iff_eq] at hQ
  obtain ⟨⟨⟨rfl, hpid⟩, hstate'⟩, hQ⟩ := hQ
  obtain ⟨r, k₁, hexit, hQ⟩ := exists_ok_of_yields hQ
  simp only [Bool.and_eq_true, beq_iff_eq] at hQ
  obtain ⟨⟨⟨hstate₁, hfind⟩, hexited⟩, hQ⟩ := hQ
  obtain ⟨⟨⟩, k₂, hdrop, hQ⟩ := exists_ok_of_yields hQ
  obtain ⟨⟨⟩, k₃, hclose, -⟩ := exists_ok_of_yields hQ
  exact ⟨k, hboot, hstate, hunused, k', hcreate, hpid, hstate', r, k₁, k₂, k₃, hexit, hstate₁,
    hfind,
    hexited, hdrop, hclose⟩

/-- The machine starts, and can start the program `/` with any arguments. -/
theorem machine_boots (R : Ram) (copy : ArgCopy) :
    ∃ s n, Machine.boot R copy machine (cold machine) = .ok () s ∧ s.mem.UpTo n ∧
      n + 2054 ≤ NUM_PAGES ∧ (s.k.procs 1).state = .runnable ∧ (s.k.procs 2).state = .unused ∧
      ∃ k, (∀ args, createKern (.named [slash] args) { s.k with current := some 1 }
          = .ok (some (2, 96)) k) ∧ (k.procs 2).pid = 3 ∧ (k.procs 2).state = .runnable ∧
        Quits 1 2 k := by
  obtain ⟨k, hboot, hstate, hunused, k', hcreate, hend⟩ := machine_kern
  obtain ⟨s, n, hrun, rfl, hup, hn⟩ := boot_upTo R copy hboot
    (Nat.zero_le _) le_rfl
  exact ⟨s, n, hrun, hup, Nat.le_trans (Nat.add_le_add_right hn 2054) (by decide), hstate,
    hunused, k', fun _ => hcreate, hend⟩

/-- The shell starts `/`. -/
theorem machine_spawns (R : Ram)
    (hwords : argv cmdline.1 = [slash] :: args) (hstore : Storable R copy 96 ([slash] :: args)) :
    ∃ s n d m sp b k, Machine.boot R copy machine (cold machine) = .ok () s ∧
      (s.k.procs 1).state = .runnable ∧ (s.k.procs 2).state = .unused ∧ n + 2054 ≤ NUM_PAGES ∧
      Imaged R n d 96 (R.page (d + 1)) m ∧ d < NUM_PAGES ∧
      copy (R.page (d + 1)) 96 ([slash] :: args) m = .ok sp { m with ram := b } ∧
      programSize { s.k with current := some 1 } (argv cmdline.1) = some 96 ∧
      (k.procs 2).state = .runnable ∧ Quits 1 2 k ∧
      Machine.step R copy 1 (.call (.spawn cmdline)) s = .ok 3 ⟨k, { m with ram := b },
        update s.space 2 (newSpace (R.page n) 96 sp (args.length + 1))⟩ := by
  obtain ⟨s, n, hboot, hup, hroom, hrunnable, hunused, k, hkern, hpid, hstate, hend⟩ :=
    machine_boots R copy
  obtain ⟨d, m, sp, b, himaged, hd, hargs, hstep⟩ := spawn_upTo hup (by omega) hrunnable hwords
    (hkern args) (by decide) (by decide) hstore
  rw [hpid] at hstep
  refine ⟨s, n, d, m, sp, b, k, hboot, hrunnable, hunused, hroom, himaged, hd, hargs, ?_, hstate,
    hend, hstep⟩
  rw [hwords]
  exact createKern_programSize (hkern args)

/-- The arguments of a program fill the last entry of its table for the devices, and
the program gets a page that is not in memory. -/
theorem machine_spills (R : Ram) : ∃ s s',
    Machine.Reached R copyArguments machine (fun _ _ _ _ => True) s ∧
      Machine.step R copyArguments 1 (.call (.spawn longLine)) s = .ok 3 s' ∧
      (s'.k.procs 2).state = .runnable ∧
      ∃ t1 sp, s'.space 2 = newSpace t1 96 sp 2 ∧
        walk s'.mem.ram t1 0x103ff000 = some (0xdcdcd000, 0x337) := by
  have hwords : argv longLine.1 = [slash] :: [List.replicate 100 0x37] := by decide
  obtain ⟨s, n, d, m, sp, b, k, hboot, -, -, -, himaged, hd, hargs, -, hstate, -, hstep⟩ :=
    machine_spawns R hwords (storable_copyArguments (by decide))
  obtain ⟨hentry0, hentry1⟩ := copyArguments_spills himaged (by decide) (by decide) hd hargs
  have hword : (Buf.ofList (flatArgs [[slash], List.replicate 100 0x37])).le32
      (List.weight [[slash], List.replicate 100 0x37] - stackTop 96 - 4) = 0x37373737 := by
    decide +kernel
  rw [hword] at hentry0
  have hspace : update s.space 2 (newSpace (R.page n) 96 sp 2) 2
      = newSpace (R.page n) 96 sp 2 := update_self ..
  refine ⟨s, _, .boot hboot, hstep, hstate, R.page n, sp, hspace, ?_⟩
  show walk b (R.page n) 0x103ff000 = _
  rw [walk, hentry0, if_pos ⟨hentry1, by decide⟩]
  decide

end Dmaos
