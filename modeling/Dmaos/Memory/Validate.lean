import Dmaos.Memory.Table

/-!
# Checking what user programs point to

The checks of `kernel.c` on buffers and strings of user programs.  A buffer is
checked page by page, a string byte by byte with a look at the page table at
each page boundary.  Both are compared with a look at the page table for every
single byte.

All numbers are 32-bit words, so sums are taken modulo `2 ^ 32`.  The loops of
the source have no bound of their own; they get a number of turns here, and
`none` means that it was too small.
-/

namespace Dmaos

variable {flags : List Nat} {k n va stop n' str : Nat} {ok : Nat → Prop} {es : List Event}
  {r : Bool}

/-- `get_active_page_table`, from the register `satp`. -/
def getActivePageTable (satp : Nat) : Nat := (satp &&& 0x3fffff) * PAGE_SIZE % 2 ^ 32

/-- The page of `a` is mapped, with all of `flags`. -/
def PageHas (b : Buf) (t1 : Nat) (flags : List Nat) (a : Nat) : Prop :=
  hasFlag (entry1 b t1 a) PAGE_V ∧ ∀ f ∈ flags, hasFlag (entry0 b t1 a) f

instance (b : Buf) (t1 : Nat) (flags : List Nat) (a : Nat) : Decidable (PageHas b t1 flags a) := by
  unfold PageHas
  infer_instance

/-- The start of the page of `a`. -/
def pageOf (a : Nat) : Nat := a / PAGE_SIZE * PAGE_SIZE

/-! ## Buffers -/

/-- `page_end`, the end of the last page of a buffer that ends at `stop`. -/
def pageEnd (stop : Nat) : Nat := pageOf ((stop + PAGE_SIZE - 1) % 2 ^ 32)

section Buffers

variable (b : Buf) (satp : Nat)

/-- The loop over the pages of a buffer, from `va` to `stop`. -/
def checkPages (t1 : Nat) (flags : List Nat) (stop : Nat) : Nat → Nat → Option Bool
  | 0, va => if va < stop then none else some true
  | n + 1, va =>
    if va < stop then
      if PageHas b t1 flags va then checkPages t1 flags stop n ((va + PAGE_SIZE) % 2 ^ 32)
      else some false
    else some true

/-- What the two functions on buffers have in common: they differ in the flags
they look for. -/
def validateBuffer (flags : List Nat) (n addr len : Nat) : Option Bool :=
  let stop := (addr + len) % 2 ^ 32
  if stop < addr then some false
  else if 0x80000000 < stop then some false
  else checkPages b (getActivePageTable satp) flags (pageEnd stop) n (pageOf addr)

/-- `validate_user_write_buffer`. -/
def validateUserWriteBuffer : Nat → Nat → Nat → Option Bool :=
  validateBuffer b satp [PAGE_V, PAGE_U, PAGE_W]

/-- `validate_user_read_buffer`. -/
def validateUserReadBuffer : Nat → Nat → Nat → Option Bool :=
  validateBuffer b satp [PAGE_V, PAGE_U]

end Buffers

section Pages

variable {b : Buf} {t1 a a' : Nat}

/-- Addresses of one page are mapped alike. -/
theorem PageHas.congr (h : a / PAGE_SIZE = a' / PAGE_SIZE) :
    PageHas b t1 flags a ↔ PageHas b t1 flags a' := by
  have h1 : vpn1 a = vpn1 a' := by
    simp only [vpn1, PAGE_SIZE] at *
    omega
  have h0 : vpn0 a = vpn0 a' := by
    simp only [vpn0, PAGE_SIZE] at *
    omega
  simp only [PageHas, entry0, entry1, h1, h0]

theorem pageHas_pageOf : PageHas b t1 flags (pageOf a) ↔ PageHas b t1 flags a :=
  PageHas.congr (Nat.mul_div_cancel _ (by decide))

end Pages

section BufferChecks

variable {b : Buf} {t1 : Nat}

/-- The loop looks at `k` pages, and its counter does not wrap. -/
theorem checkPages_eq (hk : k ≤ n) (hlt : va + k * PAGE_SIZE < 2 ^ 32) :
    checkPages b t1 flags (va + k * PAGE_SIZE) n va
      = some (decide (∀ j < k, PageHas b t1 flags (va + j * PAGE_SIZE))) := by
  induction k generalizing n va with
  | zero => cases n <;> simp [checkPages]
  | succ k ih =>
      cases n with
      | zero => exact absurd hk (by omega)
      | succ n =>
          have hshift : ∀ j, va + PAGE_SIZE + j * PAGE_SIZE = va + (j + 1) * PAGE_SIZE :=
            fun j => by
            rw [Nat.succ_mul, ← Nat.add_assoc, Nat.add_right_comm]
          have hstop := (hshift k).symm
          have hpos : va < va + (k + 1) * PAGE_SIZE := Nat.lt_add_of_pos_right (by simp [PAGE_SIZE])
          have hnext : (va + PAGE_SIZE) % 2 ^ 32 = va + PAGE_SIZE := by
            refine Nat.mod_eq_of_lt (Nat.lt_of_le_of_lt ?_ hlt)
            rw [hstop]
            exact Nat.le_add_right _ _
          rw [checkPages, if_pos hpos]
          split
          case isTrue hpage =>
            rw [hnext, hstop, ih (Nat.le_of_succ_le_succ hk) (hstop ▸ hlt)]
            refine congrArg some (decide_eq_decide.mpr ?_)
            rw [Nat.forall_lt_succ_left, Nat.zero_mul, Nat.add_zero]
            simp only [hshift, hpage, true_and]
          case isFalse hpage =>
            have hno : ¬ ∀ j < k + 1, PageHas b t1 flags (va + j * PAGE_SIZE) := fun hall =>
              hpage (by simpa using hall 0 (Nat.succ_pos k))
            rw [decide_eq_false hno]

/-- The pages of a buffer are those of its bytes, from the start of the first page on. -/
theorem forall_page_iff {start : Nat}
    (hk : pageOf start + k * PAGE_SIZE = pageOf (stop + PAGE_SIZE - 1)) :
    (∀ j < k, PageHas b t1 flags (pageOf start + j * PAGE_SIZE)) ↔
      ∀ a, pageOf start ≤ a → a < stop → PageHas b t1 flags a := by
  constructor
  · intro h a ha hstop
    have hj := h ((a - pageOf start) / PAGE_SIZE) (by
      simp only [pageOf, PAGE_SIZE] at *
      omega)
    refine (PageHas.congr ?_).mp hj
    simp only [pageOf, PAGE_SIZE] at *
    omega
  · intro h j hj
    refine h _ (Nat.le_add_right _ _) ?_
    simp only [pageOf, PAGE_SIZE] at *
    omega

/-- A buffer of a user program, all of whose bytes have the flags. -/
structure BufferHas (b : Buf) (t1 : Nat) (flags : List Nat) (addr len : Nat) : Prop where
  no_wrap : addr + len < 2 ^ 32
  below : addr + len ≤ 0x80000000
  mapped : ∀ a, addr ≤ a → a < addr + len → PageHas b t1 flags a

variable {satp addr len : Nat}

/-- Where the end of a buffer is accepted, neither its rounding nor the counter of
the loop over the pages wraps. -/
theorem pageEnd_no_wrap (h : stop ≤ 0x80000000) :
    stop + PAGE_SIZE - 1 < 2 ^ 32 ∧ ∀ va < pageEnd stop, va + PAGE_SIZE < 2 ^ 32 := by
  simp only [pageEnd, pageOf, PAGE_SIZE]
  exact ⟨by omega, fun va hva => by omega⟩

/-- The check answers, and it answers yes where all pages have the flags.  For a buffer of
no bytes that is the page of its start, unless it starts with a page. -/
theorem validateBuffer_pages (b : Buf) (satp : Nat) (flags : List Nat) (haddr : addr < 2 ^ 32)
    (hlen : len < 2 ^ 32) :
    ∃ r, (∀ n ≥ 2 ^ 20, validateBuffer b satp flags n addr len = some r) ∧
      (r = true ↔ addr + len ≤ 0x80000000 ∧
        ∀ a, pageOf addr ≤ a → a < addr + len →
          PageHas b (getActivePageTable satp) flags a) := by
  cases Decidable.em (addr + len ≤ 0x80000000) with
  | inl hle =>
      have hmod : (addr + len) % 2 ^ 32 = addr + len := Nat.mod_eq_of_lt (by omega)
      have hround : pageEnd (addr + len) = pageOf (addr + len + PAGE_SIZE - 1) := by
        rw [pageEnd, Nat.mod_eq_of_lt (pageEnd_no_wrap hle).1]
      obtain ⟨k, hk⟩ : ∃ k, pageOf addr + k * PAGE_SIZE = pageOf (addr + len + PAGE_SIZE - 1) := by
        refine ⟨(addr + len + PAGE_SIZE - 1) / PAGE_SIZE - addr / PAGE_SIZE, ?_⟩
        simp only [pageOf, PAGE_SIZE]
        omega
      have hsmall : k ≤ 2 ^ 20 ∧ pageOf addr + k * PAGE_SIZE < 2 ^ 32 := by
        simp only [pageOf, PAGE_SIZE] at *
        omega
      refine ⟨decide (∀ j < k, PageHas b (getActivePageTable satp) flags
        (pageOf addr + j * PAGE_SIZE)), fun n hn => ?_, ?_⟩
      · rw [validateBuffer]
        rw [hmod, if_neg (by omega), if_neg (by omega), hround, ← hk]
        exact checkPages_eq (Nat.le_trans hsmall.1 hn) hsmall.2
      · rw [decide_eq_true_iff, forall_page_iff hk]
        exact ⟨fun h => ⟨hle, h⟩, fun h => h.2⟩
  | inr hgt =>
      refine ⟨false, fun n _ => ?_, by simpa using fun hle => absurd hle hgt⟩
      rw [validateBuffer]
      -- the end of the buffer has wrapped, or lies in the half of the kernel
      cases Decidable.em (addr + len < 2 ^ 32) with
      | inl hlt => rw [Nat.mod_eq_of_lt hlt, if_neg (by omega), if_pos (by omega)]
      | inr hge => rw [if_pos (by omega)]

/-- The check answers, and it answers yes for the buffers that have the flags. -/
theorem validateBuffer_exact (flags : List Nat) (haddr : addr < 2 ^ 32) (hpos : 0 < len)
    (hlen : len < 2 ^ 31) :
    ∃ r, (∀ n ≥ 2 ^ 20, validateBuffer b satp flags n addr len = some r) ∧
      (r = true ↔ BufferHas b (getActivePageTable satp) flags addr len) := by
  obtain ⟨r, hrun, hr⟩ := validateBuffer_pages b satp flags haddr (show len < 2 ^ 32 by omega)
  refine ⟨r, hrun, hr.trans ⟨?_, ?_⟩⟩
  · rintro ⟨hle, h⟩
    exact ⟨by omega, hle, fun a ha => h a (Nat.le_trans (Nat.div_mul_le_self _ _) ha)⟩
  · intro h
    refine ⟨h.below, fun a ha hlt => ?_⟩
    -- the start of the buffer is on the page of `a`, or `a` is in the buffer
    refine (PageHas.congr ?_).mp (h.mapped (max addr a) (Nat.le_max_left _ _) (by omega))
    simp only [pageOf, PAGE_SIZE] at *
    omega

/-- The two checks on buffers agree with a look at the page table for every byte. -/
theorem validators_exact (b : Buf) (satp addr len : Nat) (haddr : addr < 2 ^ 32) (hpos : 0 < len)
    (hlen : len < 2 ^ 31) :
    (∃ r, (∀ n ≥ 2 ^ 20, validateUserWriteBuffer b satp n addr len = some r) ∧
      (r = true ↔ addr + len < 2 ^ 32 ∧ addr + len ≤ 0x80000000 ∧
        ∀ a, addr ≤ a → a < addr + len →
          hasFlag (entry1 b (getActivePageTable satp) a) PAGE_V ∧
          hasFlag (entry0 b (getActivePageTable satp) a) PAGE_V ∧
          hasFlag (entry0 b (getActivePageTable satp) a) PAGE_U ∧
          hasFlag (entry0 b (getActivePageTable satp) a) PAGE_W)) ∧
    (∃ r, (∀ n ≥ 2 ^ 20, validateUserReadBuffer b satp n addr len = some r) ∧
      (r = true ↔ addr + len < 2 ^ 32 ∧ addr + len ≤ 0x80000000 ∧
        ∀ a, addr ≤ a → a < addr + len →
          hasFlag (entry1 b (getActivePageTable satp) a) PAGE_V ∧
          hasFlag (entry0 b (getActivePageTable satp) a) PAGE_V ∧
          hasFlag (entry0 b (getActivePageTable satp) a) PAGE_U)) ∧
    ((addr + len) % 2 ^ 32 ≤ 0x80000000 →
      (addr + len) % 2 ^ 32 + PAGE_SIZE - 1 < 2 ^ 32 ∧
      ∀ va < pageEnd ((addr + len) % 2 ^ 32), va + PAGE_SIZE < 2 ^ 32) := by
  refine ⟨?_, ?_, pageEnd_no_wrap⟩
  · obtain ⟨r, hrun, hr⟩ := validateBuffer_exact [PAGE_V, PAGE_U, PAGE_W] haddr hpos hlen
    refine ⟨r, hrun, hr.trans ⟨fun h => ⟨h.no_wrap, h.below, ?_⟩, fun h => ⟨h.1, h.2.1, ?_⟩⟩⟩
    · simpa [PageHas] using h.mapped
    · simpa [PageHas] using h.2.2
  · obtain ⟨r, hrun, hr⟩ := validateBuffer_exact [PAGE_V, PAGE_U] haddr hpos hlen
    refine ⟨r, hrun, hr.trans ⟨fun h => ⟨h.no_wrap, h.below, ?_⟩, fun h => ⟨h.1, h.2.1, ?_⟩⟩⟩
    · simpa [PageHas] using h.mapped
    · simpa [PageHas] using h.2.2

/-- A memory in which one page is mapped, for reading and writing, at `0x1000000`. -/
def onePage : Buf :=
  (Buf.zero.put32 (0x80300000 + 4 * 4) (pte 0x80301000 0)).put32 0x80301000
    (pte 0x80302000 (PAGE_U ||| PAGE_R ||| PAGE_W))

/-- All of that page is accepted. -/
theorem validators_exact_onePage :
    validateUserWriteBuffer onePage 0x80300 (2 ^ 20) 0x1000000 4096 = some true := by
  obtain ⟨⟨r, hrun, hr⟩, -⟩ := validators_exact onePage 0x80300 0x1000000 4096 (by decide)
    (by decide) (by decide)
  have hpage : PageHas onePage (getActivePageTable 0x80300) [PAGE_V, PAGE_U, PAGE_W] 0x1000000 := by
    decide +kernel
  have htrue : r = true := by
    refine hr.mpr ⟨by decide, by decide, fun a h1 h2 => ?_⟩
    have ha : PageHas onePage (getActivePageTable 0x80300) [PAGE_V, PAGE_U, PAGE_W] a :=
      (PageHas.congr (by rw [PAGE_SIZE]; omega)).mp hpage
    simpa [PageHas] using ha
  rw [htrue] at hrun
  exact hrun (2 ^ 20) le_rfl

end BufferChecks

/-! ## Strings -/

/-- The byte a program finds at an address of a page it has.  At other addresses there
is a fault. -/
def userByte (b : Buf) (t1 va : Nat) : Byte := b (pteAddr (entry0 b t1 va) + va % PAGE_SIZE)

/-- What the check on strings does to memory. -/
inductive Event where
  /-- A look at the page table, and whether the page is one of the program. -/
  | check (page : Nat) (ok : Bool)
  /-- The byte at an address is read. -/
  | read (va : Nat)
deriving DecidableEq

/-- What one turn of the loop does when it reads its byte. -/
def turnEvents (va : Nat) : List Event :=
  (if va % PAGE_SIZE = 0 then [.check va true] else []) ++ [.read va]

section Strings

variable (b : Buf) (satp t1 : Nat)

/-- The loop of `validate_user_string`, from `va` on.  Returns what it has done. -/
def scanString : Nat → Nat → Option (Bool × List Event)
  | 0, _ => none
  | n + 1, va =>
    if va % PAGE_SIZE = 0 ∧ ¬ PageHas b t1 [PAGE_V, PAGE_U] va then
      some (false, [.check va false])
    else if userByte b t1 va = 0 then some (true, turnEvents va)
    else if 0x80000000 ≤ (va + 1) % 2 ^ 32 then some (false, turnEvents va)
    else (scanString n ((va + 1) % 2 ^ 32)).map fun (r, es) => (r, turnEvents va ++ es)

/-- `validate_user_string`. -/
def validateUserString (n str : Nat) : Option (Bool × List Event) :=
  let t1 := getActivePageTable satp
  if 0x80000000 ≤ str then some (false, [])
  else if PageHas b t1 [PAGE_V, PAGE_U] (pageOf str) then
    (scanString b t1 n str).map fun (r, es) => (r, .check (pageOf str) true :: es)
  else some (false, [.check (pageOf str) false])

/-- The check with a look at the page table for every byte. -/
def checkBytes : Nat → Nat → Option Bool
  | 0, _ => none
  | n + 1, va =>
    if 0x80000000 ≤ va then some false
    else if ¬ PageHas b t1 [PAGE_V, PAGE_U] va then some false
    else if userByte b t1 va = 0 then some true
    else checkBytes n (va + 1)

end Strings

section StringChecks

variable {b : Buf} {satp t1 : Nat}

/-- A string that starts at `va` ends in user memory, and its pages are there. -/
def Terminated (b : Buf) (t1 va : Nat) : Prop :=
  ∃ e, va ≤ e ∧ e < 0x80000000 ∧ userByte b t1 e = 0 ∧
    ∀ a, va ≤ a → a ≤ e → PageHas b t1 [PAGE_V, PAGE_U] a

/-- One byte of a string. -/
theorem terminated_iff (hlt : va < 0x80000000) :
    Terminated b t1 va ↔ PageHas b t1 [PAGE_V, PAGE_U] va ∧
      (userByte b t1 va = 0 ∨ Terminated b t1 (va + 1)) := by
  constructor
  · rintro ⟨e, hle, he, hzero, hpages⟩
    refine ⟨hpages va (Nat.le_refl va) hle, ?_⟩
    cases Nat.eq_or_lt_of_le hle with
    | inl heq => exact .inl (heq ▸ hzero)
    | inr hlt' => exact .inr ⟨e, hlt', he, hzero, fun a ha => hpages a (Nat.le_of_succ_le ha)⟩
  · rintro ⟨hpage, hzero | ⟨e, hle, he, hzero, hpages⟩⟩
    · refine ⟨va, Nat.le_refl va, hlt, hzero, fun a h1 h2 => ?_⟩
      rwa [Nat.le_antisymm h2 h1]
    · refine ⟨e, Nat.le_of_succ_le hle, he, hzero, fun a h1 h2 => ?_⟩
      cases Nat.eq_or_lt_of_le h1 with
      | inl heq => exact heq ▸ hpage
      | inr hlt' => exact hpages a hlt' h2

theorem not_terminated (h : 0x80000000 ≤ va) : ¬ Terminated b t1 va := by
  rintro ⟨e, hle, he, -⟩
  omega

/-- Whatever is read is in a page that has been found to be one of the program. -/
def Looked : (Nat → Prop) → List Event → Prop
  | _, [] => True
  | ok, .check page r :: es => Looked (fun p => ok p ∨ (p = page ∧ r = true)) es
  | ok, .read va :: es => ok (pageOf va) ∧ Looked ok es

theorem Looked.mono {ok' : Nat → Prop} (h : Looked ok es)
    (hle : ∀ p, ok p → ok' p) : Looked ok' es := by
  induction es generalizing ok ok' with
  | nil => trivial
  | cons e es ih =>
      cases e with
      | check page r => exact ih h fun p hp => hp.imp (hle p) id
      | read va => exact ⟨hle _ h.1, ih h.2 hle⟩

/-- A page that has been looked at was looked at by an event before. -/
theorem Looked.checked {before after : List Event}
    (h : Looked ok es) (hes : es = before ++ .read va :: after) :
    ok (pageOf va) ∨ .check (pageOf va) true ∈ before := by
  induction before generalizing ok es with
  | nil =>
      subst hes
      exact .inl h.1
  | cons e before ih =>
      subst hes
      cases e with
      | check page r =>
          have h' : Looked (fun p => ok p ∨ (p = page ∧ r = true)) (before ++ .read va :: after) :=
            h
          rcases ih h' rfl with (hok | ⟨heq, hr⟩) | hmem
          · exact .inl hok
          · exact .inr (by simp [heq, hr])
          · exact .inr (List.mem_cons_of_mem _ hmem)
      | read va' =>
          have h' : Looked ok (before ++ .read va :: after) := h.2
          exact (ih h' rfl).imp id (List.mem_cons_of_mem _)

/-- One turn of the scan looks its page up, unless that was done before. -/
theorem Looked.turn (h : Looked (fun p => p = pageOf va) es) :
    Looked (fun p => va % PAGE_SIZE ≠ 0 ∧ p = pageOf va) (turnEvents va ++ es) := by
  rw [turnEvents]
  split
  case isTrue hal =>
    have hself : pageOf va = va := Nat.div_mul_cancel (Nat.dvd_of_mod_eq_zero hal)
    exact ⟨.inr ⟨hself, rfl⟩, h.mono fun p hp => .inr ⟨hp.trans hself, rfl⟩⟩
  case isFalse hal => exact ⟨⟨hal, rfl⟩, h.mono fun p hp => ⟨hal, hp⟩⟩

/-- What the scan of a string comes to: its answer is that of the check of every
byte, and it reads only what has been looked up. -/
structure Scanned (b : Buf) (t1 n va : Nat) (r : Bool) (es : List Event) : Prop where
  run : scanString b t1 n va = some (r, es)
  exact : r = true ↔ Terminated b t1 va
  bytes : checkBytes b t1 (n + 1) va = some r
  safe : Looked (fun p => va % PAGE_SIZE ≠ 0 ∧ p = pageOf va) es

section Turn

/-- The turn finds a page that is not one of the program. -/
theorem Scanned.bad (hlt : va < 0x80000000) (hal : va % PAGE_SIZE = 0)
    (hpage : ¬ PageHas b t1 [PAGE_V, PAGE_U] va) :
    Scanned b t1 (n + 1) va false [.check va false] where
  run := by rw [scanString, if_pos ⟨hal, hpage⟩]
  exact := by simp [terminated_iff hlt, hpage]
  bytes := by rw [checkBytes, if_neg (Nat.not_le_of_lt hlt), if_pos hpage]
  safe := trivial

/-- The turn finds the end of the string. -/
theorem Scanned.found (hlt : va < 0x80000000) (hpage : PageHas b t1 [PAGE_V, PAGE_U] va)
    (hzero : userByte b t1 va = 0) : Scanned b t1 (n + 1) va true (turnEvents va) where
  run := by rw [scanString, if_neg (fun h => h.2 hpage), if_pos hzero]
  exact := by simp [terminated_iff hlt, hpage, hzero]
  bytes := by rw [checkBytes, if_neg (Nat.not_le_of_lt hlt), if_neg (not_not_intro hpage),
    if_pos hzero]
  safe := by
    have h : Looked (fun p => p = pageOf va) [] := trivial
    simpa using h.turn

/-- The turn comes to the end of user memory. -/
theorem Scanned.limit (hlast : va + 1 = 0x80000000) (hpage : PageHas b t1 [PAGE_V, PAGE_U] va)
    (hzero : userByte b t1 va ≠ 0) : Scanned b t1 (n + 1) va false (turnEvents va) where
  run := by rw [scanString, if_neg (fun h => h.2 hpage), if_neg hzero, if_pos (by omega)]
  exact := by
    have hnot : ¬ Terminated b t1 (va + 1) := not_terminated (Nat.le_of_eq hlast.symm)
    rw [terminated_iff (show va < 0x80000000 by omega), or_iff_right hzero]
    simp [hnot]
  bytes := by
    rw [checkBytes, if_neg (by omega), if_neg (not_not_intro hpage), if_neg hzero, checkBytes,
      if_pos (Nat.le_of_eq hlast.symm)]
  safe := by
    have h : Looked (fun p => p = pageOf va) [] := trivial
    simpa using h.turn

/-- The turn goes on to the next byte. -/
theorem Scanned.next (hlt : va + 1 < 0x80000000)
    (hpage : PageHas b t1 [PAGE_V, PAGE_U] va) (hzero : userByte b t1 va ≠ 0)
    (h : Scanned b t1 n (va + 1) r es) : Scanned b t1 (n + 1) va r (turnEvents va ++ es) where
  run := by
    have hnext : (va + 1) % 2 ^ 32 = va + 1 := Nat.mod_eq_of_lt (by omega)
    rw [scanString, if_neg (fun h => h.2 hpage), if_neg hzero, hnext,
      if_neg (Nat.not_le_of_lt hlt), h.run]
    rfl
  exact := by
    rw [h.exact, terminated_iff (Nat.lt_of_succ_lt hlt), or_iff_right hzero, and_iff_right hpage]
  bytes := by
    rw [checkBytes, if_neg (by omega), if_neg (not_not_intro hpage), if_neg hzero]
    exact h.bytes
  safe := by
    refine Looked.turn (h.safe.mono fun p hp => hp.2.trans ?_)
    -- in the middle of a page, the next byte is in the same one
    have hmid := hp.1
    simp only [pageOf, PAGE_SIZE] at *
    omega

/-- A turn of the scan, given what the rest of it comes to. -/
theorem Scanned.turn (hlt : va < 0x80000000)
    (hseen : va % PAGE_SIZE ≠ 0 → PageHas b t1 [PAGE_V, PAGE_U] va) (hrest : va + 1 < 0x80000000 →
      ((va + 1) % PAGE_SIZE ≠ 0 → PageHas b t1 [PAGE_V, PAGE_U] (va + 1)) →
      ∃ r es, Scanned b t1 n (va + 1) r es) : ∃ r es, Scanned b t1 (n + 1) va r es := by
  cases Decidable.em (PageHas b t1 [PAGE_V, PAGE_U] va) with
  | inr hpage =>
      have hal : va % PAGE_SIZE = 0 := Decidable.byContradiction fun h => hpage (hseen h)
      exact ⟨_, _, .bad hlt hal hpage⟩
  | inl hpage =>
      cases Decidable.em (userByte b t1 va = 0) with
      | inl hzero => exact ⟨_, _, .found hlt hpage hzero⟩
      | inr hzero =>
          cases Nat.eq_or_lt_of_le (Nat.succ_le_of_lt hlt) with
          | inl hlast => exact ⟨_, _, .limit hlast hpage hzero⟩
          | inr hmore =>
              obtain ⟨r, es, h⟩ := hrest hmore fun hmid => (PageHas.congr (by
                simp only [PAGE_SIZE] at *
                omega)).mp hpage
              exact ⟨_, _, .next hmore hpage hzero h⟩

end Turn

/-- The scan answers.  The induction is on the number of turns; in the middle of a
page, the page has been looked up before. -/
theorem scanString_ok (hlt : va < 0x80000000) (hn : 0x80000000 ≤ va + n)
    (hseen : va % PAGE_SIZE ≠ 0 → PageHas b t1 [PAGE_V, PAGE_U] va) :
    ∃ r es, Scanned b t1 n va r es := by
  induction n generalizing va with
  | zero => exact absurd hn (Nat.not_le_of_lt hlt)
  | succ n ih => exact Scanned.turn hlt hseen fun hlt' hseen' => ih hlt' (by omega) hseen'

/-- More turns change nothing. -/
theorem scanString_mono {x : Bool × List Event} (hn : n ≤ n')
    (h : scanString b t1 n va = some x) : scanString b t1 n' va = some x := by
  induction n generalizing n' va x with
  | zero => cases h
  | succ n ih =>
      obtain ⟨n', rfl⟩ := Nat.exists_eq_add_of_le' (Nat.le_trans (Nat.le_add_left 1 n) hn)
      rw [scanString] at h ⊢
      split_ifs at h ⊢
      · exact h
      · exact h
      · exact h
      · obtain ⟨y, hy, hx⟩ := Option.map_eq_some_iff.mp h
        rw [ih (Nat.le_of_succ_le_succ hn) hy]
        exact congrArg some hx

theorem checkBytes_mono (hn : n ≤ n')
    (h : checkBytes b t1 n va = some r) : checkBytes b t1 n' va = some r := by
  induction n generalizing n' va with
  | zero => cases h
  | succ n ih =>
      obtain ⟨n', rfl⟩ := Nat.exists_eq_add_of_le' (Nat.le_trans (Nat.le_add_left 1 n) hn)
      rw [checkBytes] at h ⊢
      split_ifs at h ⊢
      · exact h
      · exact h
      · exact ih (Nat.le_of_succ_le_succ hn) h
      · exact h

/-- A string in the half of the kernel is refused, and so is one in a page that is
not there. -/
theorem checkBytes_refused (h : 0x80000000 ≤ str ∨ ¬ PageHas b t1 [PAGE_V, PAGE_U] str) :
    checkBytes b t1 (n + 1) str = some false := by
  rw [checkBytes]
  rcases h with h | h
  · rw [if_pos h]
  · rw [if_pos h, ite_self]

theorem not_terminated_of_page (h : ¬ PageHas b t1 [PAGE_V, PAGE_U] str) : ¬ Terminated b t1 str :=
  fun ⟨_, hle, _, _, hpages⟩ => h (hpages str (Nat.le_refl str) hle)

/-- Every page with a byte of the string is one of the program, exactly if every
byte is in such a page. -/
theorem forall_page_of_range_iff {e : Nat} :
    (∀ page, (∃ a, str ≤ a ∧ a ≤ e ∧ pageOf a = page) → PageHas b t1 flags page) ↔
      ∀ a, str ≤ a → a ≤ e → PageHas b t1 flags a := by
  constructor
  · exact fun h a h1 h2 => pageHas_pageOf.mp (h (pageOf a) ⟨a, h1, h2, rfl⟩)
  · rintro h _ ⟨a, h1, h2, rfl⟩
    exact pageHas_pageOf.mpr (h a h1 h2)

theorem terminated_iff_pages : Terminated b t1 str ↔
    ∃ e, str ≤ e ∧ e < 0x80000000 ∧ userByte b t1 e = 0 ∧
      ∀ page, (∃ a, str ≤ a ∧ a ≤ e ∧ pageOf a = page) → PageHas b t1 [PAGE_V, PAGE_U] page :=
  exists_congr fun _ =>
    and_congr_right' (and_congr_right' (and_congr_right' forall_page_of_range_iff.symm))

/-- The check on strings answers, says yes to the strings that end in user memory
with all their pages there, reads no byte of a page it has not looked up, and agrees
with the check of every byte. -/
theorem validateUserString_exact (b : Buf) (satp str : Nat) :
    ∃ r es, (∀ n ≥ 0x80000000, validateUserString b satp n str = some (r, es)) ∧
      (r = true ↔ ∃ e, str ≤ e ∧ e < 0x80000000 ∧ userByte b (getActivePageTable satp) e = 0 ∧
        ∀ page, (∃ a, str ≤ a ∧ a ≤ e ∧ pageOf a = page) →
          PageHas b (getActivePageTable satp) [PAGE_V, PAGE_U] page) ∧
      (∀ before va after, es = before ++ .read va :: after →
        .check (pageOf va) true ∈ before) ∧
      ∀ n > 0x80000000, checkBytes b (getActivePageTable satp) n str = some r := by
  rw [← terminated_iff_pages]
  cases Nat.lt_or_ge str 0x80000000 with
  | inr hge =>
      refine ⟨false, [], fun n _ => if_pos hge, ?_, by simp, fun n hn => ?_⟩
      · exact iff_of_false Bool.false_ne_true (not_terminated hge)
      · exact checkBytes_mono hn (checkBytes_refused (.inl hge))
  | inl hlt =>
      cases Decidable.em (PageHas b (getActivePageTable satp) [PAGE_V, PAGE_U] str) with
      | inr hpage =>
          refine ⟨false, [.check (pageOf str) false], fun n _ => ?_, ?_, ?_, fun n hn => ?_⟩
          · rw [validateUserString, if_neg (Nat.not_le_of_lt hlt),
              if_neg (fun h => hpage (pageHas_pageOf.mp h))]
          · exact iff_of_false Bool.false_ne_true (not_terminated_of_page hpage)
          · intro before va after h
            cases before <;> simp at h
          · exact checkBytes_mono hn (checkBytes_refused (.inr hpage))
      | inl hpage =>
          obtain ⟨r, es, h⟩ := scanString_ok (n := 0x80000000) hlt (Nat.le_add_left _ _)
            fun _ => hpage
          refine ⟨r, .check (pageOf str) true :: es, fun n hn => ?_, h.exact, ?_, fun n hn => ?_⟩
          · rw [validateUserString, if_neg (Nat.not_le_of_lt hlt),
              if_pos (pageHas_pageOf.mpr hpage), scanString_mono hn h.run]
            rfl
          · intro before va after hes
            have hsafe : Looked (fun _ => False) (.check (pageOf str) true :: es) :=
              h.safe.mono fun p hp => .inr ⟨hp.2, rfl⟩
            exact (hsafe.checked hes).resolve_left id
          · exact checkBytes_mono hn h.bytes

end StringChecks

end Dmaos
