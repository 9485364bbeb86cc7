import Dmaos.Handle.Steady
import Dmaos.Memory.Heap

/-!
# Making an address space

`create_process` takes a page for the root of a table, maps the kernel and the
devices in it, and then gives the process one page after the other for its image.
If the program is not found only the root is given back.  The second-level tables
made for the kernel and the devices are lost: no process has them, and they stay
marked.

The arguments are stored by kernel pointers.  What is shown here holds as long as
they are stored in the last page of the image (`Confined`).
-/

namespace Dmaos

open Fault Machine Function

variable {R : Ram} {m m' : Mem} {own own₁ own' : Roles} {p : Fin PROCS_MAX}
  {r c n off size a last last' sp : Nat} {ip : Fin NINODE} {bytes : List Byte} {src : Source}
  {s s' : Machine} {copy : ArgCopy} {prog : Exec} {o : Option (Fin PROCS_MAX)}

/-! ## The table -/

section NewTable

variable {u : Unit}

theorem mapKernel_ok {lo : Nat} (h : Pages R m own) (hr : own r = .root p) (hlo : 0x80000 ≤ lo)
    (hhi : lo + c ≤ 2 ^ 20) (hrun : mapKernel R (R.page r) c (lo * PAGE_SIZE) m = .ok u m') :
    ∃ own', Gained R p (fun _ => False) m own m' own' := by
  induction c generalizing lo m own with
  | zero =>
      obtain ⟨-, rfl⟩ := pure_ok.mp hrun
      exact ⟨own, .refl h⟩
  | succ c ih =>
      obtain ⟨u, m₁, hmap, hrun⟩ := bind_ok.mp hrun
      have hnone (k : Nat) : own k ≠ .user p lo := fun hk =>
        Nat.not_lt.mpr hlo (h.user_table hk).1
      obtain ⟨own₁, h₁⟩ := h.mapFixed hr (by omega) hnone (fun _ hnone => .kernel hnone hlo)
        (by decide) hmap
      rw [← Nat.succ_mul] at hrun
      obtain ⟨own', h'⟩ := ih h₁.pages ((h₁.root_iff r).mpr hr) (by omega) (by omega) hrun
      exact ⟨own', (h₁.trans h').congr fun n => or_self_iff⟩

/-- One page of a device is mapped. -/
theorem mapDevice_ok (hn : IsDevice n) (h : Pages R m own) (hr : own r = .root p)
    (hnone : ∀ k, own k ≠ .user p n)
    (hrun : mapPage R (R.page r) (n * PAGE_SIZE) (n * PAGE_SIZE) (PAGE_R ||| PAGE_W) m = .ok u m') :
    ∃ own', Gained R p (fun _ => False) m own m' own' := by
  have hlt : n < 2 ^ 20 := by
    rcases hn with rfl | rfl | rfl <;> decide
  exact h.mapFixed hr hlt hnone (fun _ hnone => .device hnone hn) (by decide) hrun

theorem mapDevices_ok (h : Pages R m own) (hr : own r = .root p)
    (hnone : ∀ n k, own k ≠ .user p n) (hrun : mapDevices R (R.page r) m = .ok u m') :
    ∃ own', Gained R p (fun _ => False) m own m' own' := by
  have hstill {m₁ : Mem} {own₁ : Roles} (h₁ : Gained R p (fun _ => False) m own m₁ own₁)
    (n k : Nat) :
      own₁ k ≠ .user p n := by
    intro hk
    obtain ⟨k', hk'⟩ | hn := h₁.user_iff.mp ⟨k, hk⟩
    · exact hnone n k' hk'
    · exact hn
  obtain ⟨u₁, m₁, hmap₁, hrun⟩ := bind_ok.mp hrun
  obtain ⟨u₂, m₂, hmap₂, hmap₃⟩ := bind_ok.mp hrun
  obtain ⟨own₁, h₁⟩ := mapDevice_ok (n := 0x10001) (.inl rfl) h hr (hnone _) hmap₁
  obtain ⟨own₂, h₂⟩ := mapDevice_ok (n := 0x10002) (.inr (.inl rfl)) h₁.pages
    ((h₁.root_iff r).mpr hr) (hstill h₁ _) hmap₂
  have h₁₂ := (h₁.trans h₂).congr fun n => or_self_iff
  obtain ⟨own₃, h₃⟩ := mapDevice_ok (n := 0x10003) (.inr (.inr rfl)) h₁₂.pages
    ((h₁₂.root_iff r).mpr hr) (hstill h₁₂ _) hmap₃
  exact ⟨own₃, (h₁₂.trans h₃).congr fun n => or_self_iff⟩

/-- Process `p` has got a table at page `r`. -/
structure Rooted (R : Ram) (p : Fin PROCS_MAX) (r : Nat) (m : Mem) (own : Roles) (m' : Mem)
    (own' : Roles) : Prop where
  pages : Pages R m' own'
  root : own' r = .root p
  was : own r = .free
  roles : ∀ j, j ≠ r → own' j = own j ∨ own j = .free ∧ ∃ v, own' j = .table p v
  data : ∀ j, (own j).IsData → SamePage R j m.ram m'.ram

theorem newTable_ok {t1 : Nat} (h : Pages R m own) (hroot : ∀ r, own r ≠ .root p)
    (hrun : newTable R m = .ok t1 m') : ∃ r own', t1 = R.page r ∧ Rooted R p r m own m' own' := by
  obtain ⟨a, m₁, halloc, hrun⟩ := bind_ok.mp hrun
  obtain ⟨r, hr, hfree, -, rfl, rfl⟩ := allocPages_one_ok halloc
  obtain ⟨u₁, m₂, hkernel, hrun⟩ := bind_ok.mp hrun
  obtain ⟨u₂, m₃, hdevices, hrun⟩ := bind_ok.mp hrun
  obtain ⟨rfl, rfl⟩ := pure_ok.mp hrun
  have hwas : own r = .free := h.free_of_not_allocated hfree
  have hself : update own r .kernel r = .kernel := update_self ..
  have hnoroot (j : Nat) : update own r .kernel j ≠ .root p := by
    cases Decidable.em (j = r) with
    | inl hjr => simp [hjr]
    | inr hjr => simp [hjr, hroot j]
  have h₁ := (h.take hr hwas).makeRoot hself hnoroot fun v hv => le32_cleared hv
  rw [update_idem] at h₁
  have hroot₁ : update own r (.root p) r = .root p := update_self ..
  have hnone (n k : Nat) : update own r (.root p) k ≠ .user p n := by
    cases Decidable.em (k = r) with
    | inl hkr => simp [hkr]
    | inr hkr =>
        rw [update_of_ne hkr]
        exact fun hk => h.owner_ne hroot k (by rw [hk]; rfl)
  have hbase : kernelBase = 0x80200 * PAGE_SIZE := rfl
  have hpages : 0x80200 + kernelPages R ≤ 2 ^ 20 := by
    have hfits := R.fits
    simp only [kernelPages, Ram.stop, kernelBase, PAGE_SIZE, NUM_PAGES] at *
    omega
  rw [hbase] at hkernel
  obtain ⟨own₂, h₂⟩ := mapKernel_ok h₁ hroot₁ (by decide) hpages hkernel
  have hnone₂ (n k : Nat) : own₂ k ≠ .user p n := by
    intro hk
    obtain ⟨k', hk'⟩ | hn := h₂.user_iff.mp ⟨k, hk⟩
    · exact hnone n k' hk'
    · exact hn
  obtain ⟨own', h₃⟩ := mapDevices_ok h₂.pages ((h₂.root_iff r).mpr hroot₁) hnone₂ hdevices
  have hg := h₂.trans h₃
  refine ⟨r, own', rfl, hg.pages, (hg.root_iff r).mpr hroot₁, hwas, fun j hjr => ?_, fun j hj => ?_⟩
  · have hroles := hg.roles j
    rw [update_of_ne hjr] at hroles
    refine hroles.imp_right fun hnew => ⟨hnew.1, hnew.2.resolve_right ?_⟩
    rintro ⟨n, hn | hn, -⟩
    · exact hn
    · exact hn
  · have hjr : j ≠ r := by
      rintro rfl
      rw [hwas] at hj
      exact hj
    have hcopy : SamePage R j m.ram (m.take R r).ram :=
      SamePage.copy hjr (Nat.le_of_eq (Nat.zero_add _))
    refine hcopy.trans (hg.data j ?_)
    rwa [update_of_ne hjr]

end NewTable

/-! ## The image -/

section Image

variable {k k' : KState}

theorem readiLoop_length (h : readiLoop ip c off n k = .ok bytes k') (hn : n ≤ c) :
    bytes.length = n := by
  induction c generalizing off n bytes k k' with
  | zero =>
      obtain ⟨rfl, -⟩ := pure_ok.mp h
      exact (Nat.le_zero.mp hn).symm
  | succ c ih =>
      rw [readiLoop] at h
      split_ifs at h with h0
      · obtain ⟨rfl, -⟩ := pure_ok.mp h
        exact h0.symm
      · obtain ⟨I, k₁, -, h⟩ := bind_ok.mp h
        obtain ⟨b, k₂, -, h⟩ := bind_ok.mp h
        obtain ⟨buf, k₃, -, h⟩ := bind_ok.mp h
        obtain ⟨rest, k₄, hrest, h⟩ := bind_ok.mp h
        obtain ⟨rfl, rfl⟩ := pure_ok.mp h
        have hoff : off % BSIZE < BSIZE := Nat.mod_lt _ (by decide)
        have hlen := ih hrest (by omega)
        simp only [List.length_append, Buf.length_slice]
        omega

theorem readi_length {x : Int × List Byte} (h : readi ip off n k = .ok x k') : x.2.length ≤ n := by
  obtain ⟨u, k₁, -, h⟩ := bind_ok.mp h
  obtain ⟨I, k₂, -, h⟩ := bind_ok.mp h
  split_ifs at h
  · obtain ⟨rfl, -⟩ := pure_ok.mp h
    exact Nat.zero_le n
  · obtain ⟨rfl, -⟩ := pure_ok.mp h
    exact Nat.zero_le n
  · obtain ⟨bytes, k₃, hloop, h⟩ := bind_ok.mp h
    obtain ⟨rfl, -⟩ := pure_ok.mp h
    have hlen : bytes.length = I.dinode.size - off := readiLoop_length hloop le_rfl
    show bytes.length ≤ n
    omega
  · obtain ⟨bytes, k₃, hloop, h⟩ := bind_ok.mp h
    obtain ⟨rfl, -⟩ := pure_ok.mp h
    exact (readiLoop_length hloop le_rfl).le

/-- What is read of a program fits where it was asked for. -/
theorem fetch_ok (h : src.fetch off n k = .ok bytes k') : bytes.length ≤ n ∧ Steady k k' := by
  cases src with
  | nothing =>
      obtain ⟨rfl, rfl⟩ := pure_ok.mp h
      exact ⟨Nat.zero_le n, refl_of Steady k⟩
  | memory data =>
      obtain ⟨rfl, rfl⟩ := pure_ok.mp h
      exact ⟨Nat.le_of_eq (Buf.length_slice ..), refl_of Steady k⟩
  | inode ip =>
      obtain ⟨x, k₁, hread, h⟩ := bind_ok.mp h
      obtain ⟨rfl, rfl⟩ := pure_ok.mp h
      exact ⟨readi_length hread, .of_ok .readi hread⟩

/-- The program has been loaded from page `a` of its image on. -/
structure Loaded (R : Ram) (p : Fin PROCS_MAX) (a size last : Nat) (s : Machine) (own : Roles)
    (last' : Nat) (s' : Machine) (own' : Roles) : Prop where
  gained : Gained R p (fun n => 0x1000 + a ≤ n ∧ n < 0x1000 + pagesUpTo size) s.mem own s'.mem own'
  spaces : s'.space = s.space
  steady : Steady s.k s'.k
  last_page : pagesUpTo size ≤ a ∧ last' = last ∨
    ∃ k, last' = R.page k ∧ own' k = .user p (0x1000 + (pagesUpTo size - 1))

theorem Loaded.done (h : Pages R s.mem own)
    (hle : size ≤ a * PAGE_SIZE) : Loaded R p a size last s own last s own := by
  have hpages : pagesUpTo size ≤ a := by
    refine Nat.le_of_not_lt fun hlt => ?_
    have := lt_pagesUpTo.mp hlt
    omega
  refine ⟨(Gained.refl h).congr fun n => ⟨False.elim, fun hn => ?_⟩, rfl, refl_of Steady s.k,
    .inl ⟨hpages, rfl⟩⟩
  omega

/-- Another page of the image. -/
theorem Loaded.next {last₁ : Nat} {s₁ : Machine} {i : Nat}
    (h : Loaded R p (a + 1) size last₁ s₁ own₁ last' s' own') (hlt : a * PAGE_SIZE < size)
    (hone : Gained R p (fun n => n = 0x1000 + a) s.mem own s₁.mem own₁)
    (hspaces : s₁.space = s.space) (hsteady : Steady s.k s₁.k)
    (hown : own₁ i = .user p (0x1000 + a))
    (hlast : last₁ = if size ≤ (a + 1) * PAGE_SIZE then R.page i else last) :
    Loaded R p a size last s own last' s' own' := by
  have hpages : a < pagesUpTo size := lt_pagesUpTo.mpr hlt
  refine ⟨(hone.trans h.gained).congr fun n => ?_, h.spaces.trans hspaces,
    trans_of Steady hsteady h.steady, .inr ?_⟩
  · show n = 0x1000 + a ∨ 0x1000 + (a + 1) ≤ n ∧ n < 0x1000 + pagesUpTo size ↔
      0x1000 + a ≤ n ∧ n < 0x1000 + pagesUpTo size
    omega
  · rcases h.last_page with ⟨hle, rfl⟩ | hpage
    · -- the page just loaded was the last one
      have hsize : size ≤ (a + 1) * PAGE_SIZE :=
        Nat.le_of_not_lt fun hgt => Nat.not_lt.mpr hle (lt_pagesUpTo.mpr hgt)
      refine ⟨i, by rw [hlast, if_pos hsize], ?_⟩
      rw [h.gained.keeps (by simp [hown]), hown, show pagesUpTo size - 1 = a by omega]
    · exact hpage

theorem loadPages_ok {fuel : Nat} (h : Pages R s.mem own) (hr : own r = .root p)
    (hmapped : ∀ n, (∃ k, own k = .user p n) ↔ 0x1000 ≤ n ∧ n < 0x1000 + a)
    (hfuel : size ≤ (a + fuel) * PAGE_SIZE)
    (hrun : loadPages R src (R.page r) size fuel (a * PAGE_SIZE) last s = .ok last' s') :
    ∃ own', Loaded R p a size last s own last' s' own' := by
  induction fuel generalizing a last s own with
  | zero =>
      obtain ⟨rfl, rfl⟩ := pure_ok.mp hrun
      exact ⟨own, .done h hfuel⟩
  | succ fuel ih =>
      rw [loadPages] at hrun
      rcases Nat.lt_or_ge (a * PAGE_SIZE) size with hlt | hge
      · rw [if_neg (Nat.not_le.mpr hlt)] at hrun
        obtain ⟨page, m₁, halloc, hrun⟩ := onMem_then hrun
        obtain ⟨i, hi, hfree, -, rfl, rfl⟩ := allocPages_one_ok halloc
        obtain ⟨bytes, k₂, hfetch, hrun⟩ := onKern_then hrun
        obtain ⟨hlen, hsteady⟩ := fetch_ok hfetch
        obtain ⟨u₃, m₃, hstore, hrun⟩ := onMem_then hrun
        obtain ⟨-, rfl⟩ := EStateM.Result.ok.inj hstore
        obtain ⟨u₄, m₄, hmap, hrun⟩ := onMem_then hrun
        -- the image fits in memory, so its addresses do not wrap
        have hcount : a ≤ NUM_PAGES := h.count_le fun n hlo hhi => (hmapped n).mpr ⟨hlo, hhi⟩
        have hva : (USER_BASE + a * PAGE_SIZE) % 2 ^ 32 = (0x1000 + a) * PAGE_SIZE := by
          simp only [USER_BASE, PAGE_SIZE, NUM_PAGES] at *
          omega
        rw [hva] at hmap
        have hn : 0x1000 + a < 0x80000 := by
          simp only [PAGE_SIZE, NUM_PAGES] at hcount
          omega
        have hnone (j : Nat) : own j ≠ .user p (0x1000 + a) := fun hj => by
          have := (hmapped _).mp ⟨j, hj⟩
          omega
        have hlen' : 0 + bytes.length ≤ PAGE_SIZE := by omega
        obtain ⟨own₄, hone, hown, -⟩ := h.addPage hr hn hi
          (h.free_of_not_allocated hfree) hnone (.inr rfl) (by rfl)
          (by exact fun j hj => SamePage.copy hj hlen') hmap
        rw [← Nat.succ_mul] at hrun
        obtain ⟨own', hrest⟩ := ih hone.pages ((hone.root_iff r).mpr hr) (fun n => by
          rw [hone.user_iff, hmapped]
          omega) (by rwa [Nat.succ_add, ← Nat.add_succ]) hrun
        exact ⟨own', hrest.next hlt hone rfl hsteady hown rfl⟩
      · rw [if_pos hge] at hrun
        obtain ⟨rfl, rfl⟩ := pure_ok.mp hrun
        exact ⟨own, .done h hge⟩

end Image

/-! ## The steps of `create_process` -/

theorem Steady.prepareProc {prog : Program} : Within Steady (prepareProc prog p) :=
  .bind (.modify fun _ => Tasking.putProc rfl rfl) fun _ => .bind .openConsole fun _ =>
    .bind .inheritCwd fun _ => .modify fun _ => Tasking.putProc rfl rfl

section Steps

/-- A program has been found and loaded. -/
structure Starts (R : Ram) (copy : ArgCopy) (prog : Exec) (p : Fin PROCS_MAX) (t1 : Nat)
    (s s' : Machine) : Prop where
  steps : ∃ src size k₂ last s₃ k₄ sp m₅,
    openProgram prog s.k = .ok (some (src, size)) k₂ ∧
    loadPages R src t1 size (size / PAGE_SIZE + 1) 0 0 { s with k := k₂ } = .ok last s₃ ∧
    src.close s₃.k = .ok () k₄ ∧
    placeArguments copy last size prog.argv s₃.mem = .ok sp m₅ ∧
    s' = Machine.putSpace
      ⟨k₄.putProc p { k₄.procs p with pid := (p : Nat) + 1, state := .runnable },
      m₅, s₃.space⟩ p (newSpace t1 size sp prog.argv.length)

theorem createProcess_steps (hrun : Machine.createProcess R copy prog s = .ok o s') :
    ∃ p k₁ t1 m₁, findProc s.k = some p ∧ prepareProc prog.program p s.k = .ok () k₁ ∧
      newTable R s.mem = .ok t1 m₁ ∧
      ((o = none ∧ ∃ k₂ m₂, openProgram prog k₁ = .ok none k₂ ∧ freePages R t1 1 m₁ = .ok () m₂ ∧
          s' = ⟨k₂, m₂, s.space⟩) ∨
        o = some p ∧ Starts R copy prog p t1 ⟨k₁, m₁, s.space⟩ s') := by
  replace hrun := get_then hrun
  cases hp : findProc s.k with
  | none =>
      simp only [hp] at hrun
      exact absurd hrun throw_ok
  | some p =>
      simp only [hp] at hrun
      obtain ⟨u, k₄, hprep, hrun⟩ := onKern_then hrun
      obtain ⟨t1, m₅, hm₅, hrun⟩ := onMem_then hrun
      refine ⟨p, k₄, t1, m₅, rfl, hprep, hm₅, ?_⟩
      obtain ⟨found, k₆, hk₆, hrun⟩ := onKern_then hrun
      cases found with
      | none =>
          obtain ⟨u₇, m₇, hm₇, hrun⟩ := onMem_then hrun
          obtain ⟨rfl, rfl⟩ := pure_ok.mp hrun
          exact .inl ⟨rfl, k₆, m₇, hk₆, hm₇, rfl⟩
      | some x =>
          obtain ⟨src, size⟩ := x
          obtain ⟨last, s₇, h₇, hrun⟩ := bind_ok.mp hrun
          obtain ⟨u₈, k₈, hk₈, hrun⟩ := onKern_then hrun
          obtain ⟨sp, m₉, hm₉, hrun⟩ := onMem_then hrun
          obtain ⟨u₁₀, k₁₀, hk₁₀, hrun⟩ := onKern_then hrun
          obtain rfl := modify_ok.mp hk₁₀
          replace hrun := modify_then hrun
          obtain ⟨rfl, rfl⟩ := pure_ok.mp hrun
          exact .inr ⟨rfl, src, size, k₆, last, s₇, k₈, sp, m₉, hk₆, h₇, hk₈, hm₉, rfl⟩

end Steps

/-! ## What the processes have -/

/-- The processes have their pages, and slots that are not in use have none. -/
structure Settled (R : Ram) (s : Machine) (own : Roles) : Prop where
  pages : Pages R s.mem own
  live : ∀ p, (s.k.procs p).state ≠ .unused → SpaceOk R own p (s.space p)
  unused : ∀ p, (s.k.procs p).state = .unused → ∀ r, own r ≠ .root p

/-- The arguments of a program of `size` bytes are stored in the last page of its
image. -/
def Confined (copy : ArgCopy) (size : Nat) (argv : List (List Byte)) : Prop :=
  ∀ (last sp : Nat) (m m' : Mem), last % PAGE_SIZE = 0 → copy last size argv m = .ok sp m' →
    m'.allocated = m.allocated ∧ ∀ a, a < last ∨ last + PAGE_SIZE ≤ a → m'.ram a = m.ram a

section Create

variable {q : Fin PROCS_MAX}

theorem Steady.openProgram : Within Steady (openProgram prog) := by
  cases prog with
  | idle => exact .pure
  | image data size => exact .pure
  | named name args =>
      refine .bind .namei fun ip => ?_
      cases ip with
      | none => exact .pure
      | some ip => exact .bind .ilock fun _ => .bind .inodeAt fun _ => .pure

theorem Steady.close : Within Steady src.close := by
  cases src with
  | nothing => exact .pure
  | memory data => exact .pure
  | inode ip => exact .iput

/-- Roles that are not in `p` are the same, so are the spaces of the other processes. -/
theorem SpaceOk.congr {sp : Space} (h : SpaceOk R own q sp)
    (hsame : ∀ x : Role, x.owner = some q → ∀ j, own' j = x ↔ own j = x) : SpaceOk R own' q sp where
  root := by
    obtain ⟨r, hr, hown⟩ := h.root
    exact ⟨r, hr, (hsame _ rfl r).mpr hown⟩
  base_le := h.base_le
  aligned := h.aligned
  le := h.le
  mapped n := by
    rw [← h.mapped]
    exact exists_congr fun k => hsame _ rfl k

/-- The roles after the root of process `p` has been given back, while its tables
are left to the kernel. -/
def Roles.orphan (own : Roles) (p : Fin PROCS_MAX) (r : Nat) : Roles := fun j =>
  if j = r then .free else if (own j).owner = some p then .kernel else own j

theorem Rooted.abandon {own₀ : Roles} (h : Rooted R p r m own₀ m' own)
    (hroot : ∀ r, own₀ r ≠ .root p) (hpages : Pages R m own₀) :
    Pages R (m'.give r) (own.orphan p r) ∧
      ∀ j, own.orphan p r j = own₀ j ∨ own₀ j = .free ∧ own.orphan p r j = .kernel := by
  have hnone : ∀ i, (own₀ i).owner ≠ some p := hpages.owner_ne hroot
  have hcases (j : Nat) : (j = r ∧ own j = .root p ∧ own₀ j = .free) ∨
      j ≠ r ∧ (own j = own₀ j ∨ own₀ j = .free ∧ ∃ v, own j = .table p v) := by
    cases Decidable.em (j = r) with
    | inl hjr => exact .inl ⟨hjr, hjr ▸ h.root, hjr ▸ h.was⟩
    | inr hjr => exact .inr ⟨hjr, h.roles j hjr⟩
  have hself : own.orphan p r r = .free := if_pos rfl
  have hkeep (j : Nat) (hjr : j ≠ r) (hj : own j = own₀ j) : own.orphan p r j = own₀ j := by
    simp [Roles.orphan, hjr, hj, hnone j]
  have hlost (j v : Nat) (hjr : j ≠ r) (hj : own j = .table p v) : own.orphan p r j = .kernel := by
    simp [Roles.orphan, hjr, hj, Role.owner]
  refine ⟨?_, fun j => ?_⟩
  · refine h.pages.drop (p := p) (fun x hx hp i => ?_) (fun i => ?_) fun i => ?_
    · rcases hcases i with ⟨rfl, hi, -⟩ | ⟨hir, hi | ⟨hfree, v, hi⟩⟩
      · rw [hself, hi]
        constructor
        · rintro rfl
          exact absurd rfl hx
        · rintro rfl
          exact absurd rfl hp
      · rw [hkeep i hir hi, hi]
      · rw [hlost i v hir hi, hi]
        constructor
        · rintro rfl
          exact absurd rfl hx
        · rintro rfl
          exact absurd rfl hp
    · rcases hcases i with ⟨rfl, -, -⟩ | ⟨hir, hi | ⟨-, v, hi⟩⟩
      · simp [hself, Role.owner]
      · rw [hkeep i hir hi]
        exact hnone i
      · simp [hlost i v hir hi, Role.owner]
    · have hiff := h.pages.free_iff i
      rcases hcases i with ⟨rfl, -, -⟩ | ⟨hir, hi | ⟨-, v, hi⟩⟩
      · simp [hself]
      · rw [hkeep i hir hi, ← hi, hiff]
        simp [hir]
      · rw [hi] at hiff
        rw [hlost i v hir hi]
        simpa [Mem.give, hir] using hiff
  · rcases hcases j with ⟨rfl, -, hfree⟩ | ⟨hjr, hj | ⟨hfree, v, hj⟩⟩
    · exact .inl (hself.trans hfree.symm)
    · exact .inl (hkeep j hjr hj)
    · exact .inr ⟨hfree, hlost j v hjr hj⟩

/-- What a new process does to the pages. -/
structure Spawned (R : Ram) (p : Fin PROCS_MAX) (s : Machine) (own : Roles) (s' : Machine)
    (own' : Roles) : Prop where
  settled : Settled R s' own'
  steady : SteadyBut p s.k s'.k
  running : (s'.k.procs p).state = .runnable
  /-- Its pages were free, and nothing else has changed. -/
  roles : ∀ j, own' j = own j ∨ own j = .free ∧ (own' j).owner = some p
  spaces : ∀ q, q ≠ p → s'.space q = s.space q
  data : ∀ j, (own j).IsData → SamePage R j s.mem.ram s'.mem.ram

/-- The arguments are stored in the last page, so no other page changes. -/
theorem placeArguments_ok {argv : List (List Byte)}
    (hconf : argv ≠ [] → Confined copy size argv) (hlast : last = 0 ∨ ∃ k, last = R.page k)
    (hrun : placeArguments copy last size argv m = .ok sp m') :
    m'.allocated = m.allocated ∧ ∀ j, R.page j ≠ last → SamePage R j m.ram m'.ram := by
  rw [placeArguments] at hrun
  split_ifs at hrun with hargs
  · obtain ⟨k, rfl⟩ := hlast.resolve_left hargs.2
    obtain ⟨hall, hram⟩ := hconf hargs.1 _ sp m m' (R.page_mod k) hrun
    refine ⟨hall, fun j hjk o ho => (hram _ ?_).symm⟩
    simp only [Ram.page, PAGE_SIZE] at *
    omega
  · obtain ⟨-, rfl⟩ := pure_ok.mp hrun
    exact ⟨rfl, fun j _ => SamePage.refl R j _⟩

/-- The address space of a new process, once its image is loaded. -/
theorem Loaded.spaceOk {argc : Nat}
    (h : Loaded R p 0 size last s own₁ last' s' own) (hroot : own₁ r = .root p)
    (hempty : ∀ n k, own₁ k ≠ .user p n) : SpaceOk R own p (newSpace (R.page r) size sp argc) where
  root := ⟨r, rfl, (h.gained.root_iff r).mpr hroot⟩
  base_le := Nat.le_add_right _ _
  aligned := by
    simp only [newSpace, alignUp_eq, USER_BASE, PAGE_SIZE]
    omega
  le := Nat.le_refl _
  mapped n := by
    have hold : ¬ ∃ k, own₁ k = .user p n := not_exists.mpr (hempty n)
    rw [h.gained.user_iff, or_iff_right hold]
    simp only [newSpace, alignUp_eq, USER_BASE, PAGE_SIZE]
    omega

/-- A slot that was not in use has got a process. -/
theorem Settled.create (h : Settled R s own) (hpages : Pages R s'.mem own')
    (hspace : SpaceOk R own' p (s'.space p)) (hbut : SteadyBut p s.k s'.k)
    (hrunning : (s'.k.procs p).state = .runnable)
    (hroles : ∀ j, own' j = own j ∨ own j = .free ∧ (own' j).owner = some p)
    (hspaces : ∀ q, q ≠ p → s'.space q = s.space q) : Settled R s' own' := by
  refine ⟨hpages, fun q hq => ?_, fun q hq i hi => ?_⟩
  · cases Decidable.em (q = p) with
    | inl hqp => exact hqp ▸ hspace
    | inr hqp =>
        rw [hbut.state q hqp] at hq
        rw [hspaces q hqp]
        refine (h.live q hq).congr fun x hx j => ?_
        rcases hroles j with hold | ⟨hfree, hown⟩
        · rw [hold]
        · rw [hfree]
          constructor
          · rintro rfl
            rw [hx] at hown
            exact absurd (Option.some.inj hown) hqp
          · rintro rfl
            cases hx
  · have hqp : q ≠ p := by
      rintro rfl
      rw [hrunning] at hq
      cases hq
    rw [hbut.state q hqp] at hq
    rcases hroles i with hold | ⟨-, hown⟩
    · exact h.unused q hq i (hold ▸ hi)
    · rw [hi] at hown
      exact hqp (Option.some.inj hown)

/-- The pages of a new process were free. -/
theorem Loaded.roles
    (h : Loaded R p 0 size last s own₁ last' s' own') (hroot : Rooted R p r m own s.mem own₁)
    (j : Nat) : own' j = own j ∨ own j = .free ∧ (own' j).owner = some p := by
  have hnew : own' j = own₁ j ∨ own₁ j = .free ∧ (own' j).owner = some p := by
    refine (h.gained.roles j).imp_right fun hnew => ⟨hnew.1, ?_⟩
    rcases hnew.2 with ⟨v, hv⟩ | ⟨n, -, hu⟩
    · rw [hv]
      rfl
    · rw [hu]
      rfl
  cases Decidable.em (j = r) with
  | inl hjr =>
      subst hjr
      refine .inr ⟨hroot.was, ?_⟩
      rw [(h.gained.root_iff j).mpr hroot.root]
      rfl
  | inr hjr =>
      rcases hroot.roles j hjr with hold | ⟨hfree, v, hv⟩
      · rwa [hold] at hnew
      · refine .inr ⟨hfree, ?_⟩
        rw [h.gained.keeps (by simp [hv]), hv]
        rfl

/-- A page with data was there before, and stays as it is. -/
theorem Loaded.data {j : Nat}
    (h : Loaded R p 0 size last s own₁ last' s' own') (hroot : Rooted R p r m own s.mem own₁)
    (hj : (own j).IsData) : own' j = own j ∧ SamePage R j m.ram s'.mem.ram := by
  have hne : own j ≠ .free := by
    intro hfree
    rw [hfree] at hj
    exact hj
  have hjr : j ≠ r := by
    rintro rfl
    exact hne hroot.was
  have hold : own₁ j = own j := (hroot.roles j hjr).resolve_right fun hfree => hne hfree.1
  refine ⟨(h.roles hroot j).resolve_right fun hfree => hne hfree.1,
    (hroot.data j hj).trans (h.gained.data j (by rwa [hold]))⟩

/-- A process that has just got its table has no pages. -/
theorem Rooted.empty (h : Rooted R p r m own m' own')
    (hnone : ∀ i, (own i).owner ≠ some p) (n k : Nat) : own' k ≠ .user p n := by
  intro hk
  have hkr : k ≠ r := by
    rintro rfl
    rw [h.root] at hk
    cases hk
  rcases h.roles k hkr with hold | ⟨-, v, hv⟩
  · exact hnone k (by rw [← hold, hk]; rfl)
  · rw [hv] at hk
    cases hk

/-- The image of such a process is loaded. -/
theorem Rooted.loadPages_ok {n : Nat} (h : Rooted R p r m own s.mem own₁)
    (hnone : ∀ i, (own i).owner ≠ some p)
    (hrun : loadPages R src (R.page r) size (size / PAGE_SIZE + 1) 0 n s = .ok last s') :
    ∃ own', Loaded R p 0 size n s own₁ last s' own' := by
  rw [← Nat.zero_mul PAGE_SIZE] at hrun
  exact Dmaos.loadPages_ok h.pages h.root (fun n => ⟨fun ⟨k, hk⟩ => absurd hk
    (h.empty hnone n k), fun hn => by omega⟩) (by simp only [PAGE_SIZE]; omega) hrun

theorem Starts.spawned {k₁ : KState} {m₁ : Mem}
    (h : Starts R copy prog p (R.page r) ⟨k₁, m₁, s.space⟩ s') (hs : Settled R s own)
    (hunused : (s.k.procs p).state = .unused) (hsteady : Steady s.k k₁)
    (hroot : Rooted R p r s.mem own m₁ own₁)
    (hconf : ∀ src size k₂, openProgram prog k₁ = .ok (some (src, size)) k₂ → prog.argv ≠ [] →
      Confined copy size prog.argv) : ∃ own', Spawned R p s own s' own' := by
  obtain ⟨src, size, k₂, last, s₃, k₄, sp, m₅, hopen, hload, hclose, hargs, rfl⟩ := h.steps
  have hnone : ∀ i, (own i).owner ≠ some p := hs.pages.owner_ne (hs.unused p hunused)
  have hempty := hroot.empty hnone
  obtain ⟨own₃, hl⟩ := Rooted.loadPages_ok (s := ⟨k₂, m₁, s.space⟩) hroot hnone hload
  -- the arguments go to the last page
  have hlast : last = 0 ∨ ∃ k, last = R.page k := by
    rcases hl.last_page with ⟨-, hzero⟩ | ⟨k, hk, -⟩
    · exact .inl hzero
    · exact .inr ⟨k, hk⟩
  obtain ⟨hall, hram⟩ := placeArguments_ok (hconf src size k₂ hopen) hlast hargs
  have hother (j : Nat) (hj : ∀ n, own₃ j ≠ .user p n) : SamePage R j s₃.mem.ram m₅.ram := by
    refine hram j fun hpage => ?_
    rcases hl.last_page with ⟨-, hzero⟩ | ⟨k, hk, hown⟩
    · have hpos := Nat.lt_of_lt_of_le R.pos (R.le_page j)
      omega
    · exact hj _ (Ram.page_inj (hpage.trans hk) ▸ hown)
  have hpages : Pages R m₅ own₃ := by
    refine hl.gained.pages.frame (fun i hi _ => hother i fun n hn => hi ?_) hall
    rw [hn]
    trivial
  have hsteady' : Steady s.k k₄ := trans_of Steady (trans_of Steady hsteady
    (Steady.openProgram.of_ok hopen)) (trans_of Steady hl.steady (Steady.close.of_ok hclose))
  have hbut := (hsteady'.but p).putProc { k₄.procs p with pid := (p : Nat) + 1, state := .runnable }
  have hrunning : ((k₄.putProc p { k₄.procs p with pid := (p : Nat) + 1, state := .runnable }).procs
      p).state = .runnable := by rw [putProc_self]
  have hspace : SpaceOk R own₃ p
      (update s₃.space p (newSpace (R.page r) size sp prog.argv.length) p) := by
    rw [update_self]
    exact hl.spaceOk hroot.root hempty
  have hspaces (q : Fin PROCS_MAX) (hq : q ≠ p) :
      update s₃.space p (newSpace (R.page r) size sp prog.argv.length) q = s.space q := by
    rw [update_of_ne hq, hl.spaces]
  have hroles := hl.roles hroot
  refine ⟨own₃, hs.create hpages hspace hbut hrunning hroles hspaces, hbut, hrunning, hroles,
    hspaces,
    fun j hj => ?_⟩
  obtain ⟨hold, hsame⟩ := hl.data hroot hj
  exact hsame.trans (hother j fun n hn => hnone j (by rw [← hold, hn]; rfl))

/-- What `create_process` does to the pages. -/
theorem createProcess_settled (h : Settled R s own)
    (hconf : ∀ p k₁ src size k₂, findProc s.k = some p →
      prepareProc prog.program p s.k = .ok () k₁ →
      openProgram prog k₁ = .ok (some (src, size)) k₂ → prog.argv ≠ [] →
        Confined copy size prog.argv)
    (hrun : Machine.createProcess R copy prog s = .ok o s') :
    (o = none ∧ Steady s.k s'.k ∧ s'.space = s.space ∧ ∃ own', Settled R s' own' ∧
      ∀ j, own' j = own j ∨ own j = .free ∧ own' j = .kernel) ∨
    ∃ p own', o = some p ∧ findProc s.k = some p ∧ Spawned R p s own s' own' := by
  obtain ⟨p, k₁, t1, m₁, hp, hprep, htable, hend⟩ := createProcess_steps hrun
  have hunused := findProc_unused hp
  have hsteady := Steady.prepareProc.of_ok hprep
  obtain ⟨r, own₁, rfl, hroot⟩ := newTable_ok h.pages (h.unused p hunused) htable
  rcases hend with ⟨rfl, k₂, m₂, hopen, hfree, rfl⟩ | ⟨rfl, hstart⟩
  · rw [freePages_page (hroot.pages.lt (by simp [hroot.root]))] at hfree
    obtain ⟨-, rfl⟩ := EStateM.Result.ok.inj hfree
    obtain ⟨hpages, hroles⟩ := hroot.abandon (h.unused p hunused) h.pages
    have hsteady' := trans_of Steady hsteady (Steady.openProgram.of_ok hopen)
    have howned (x : Role) (q : Fin PROCS_MAX) (hx : x.owner = some q) (j : Nat) :
        own₁.orphan p r j = x ↔ own j = x := by
      rcases hroles j with hold | ⟨hfree, hlost⟩
      · rw [hold]
      · rw [hfree, hlost]
        constructor
        · rintro rfl
          cases hx
        · rintro rfl
          cases hx
    refine .inl ⟨rfl, hsteady', rfl, _, ⟨hpages, fun q hq => ?_, fun q hq i hi => ?_⟩, hroles⟩
    · rw [hsteady'.state q] at hq
      exact (h.live q hq).congr fun x hx => howned x q hx
    · rw [hsteady'.state q] at hq
      exact h.unused q hq i ((howned _ q rfl i).mp hi)
  · obtain ⟨own', hspawned⟩ := hstart.spawned h hunused hsteady hroot
      fun src size k₂ hopen => hconf p k₁ src size k₂ hp hprep hopen
    exact .inr ⟨p, own', rfl, hp, hspawned⟩

end Create

end Dmaos
