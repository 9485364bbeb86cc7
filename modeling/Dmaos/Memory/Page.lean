import Mathlib.Data.Nat.Bitwise
import Dmaos.Lib.Fault
import Dmaos.Lib.Buf
import Dmaos.Kernel.Run

/-!
# Pages and page tables

The allocator of physical pages and the SV32 page tables (`page.c`).  Physical
memory is one buffer, which the kernel sees at its physical addresses.  A page
table is a page of 1024 little-endian words, and an entry is the number of a
page, shifted by ten bits, with flags below.

Where the memory to be allocated starts is decided by the linker; `Ram` says what
`kernel.ld` guarantees about it.
-/

namespace Dmaos

open Function

variable {R : Ram} {i j v a : Nat}

/-- `NUM_PAGES`. -/
def NUM_PAGES : Nat := 64 * 1024 * 1024 / PAGE_SIZE

/-- `__kernel_base`. -/
def kernelBase : Nat := 0x80200000

/-- The memory the kernel allocates pages from. -/
structure Ram where
  /-- `__free_ram`. -/
  start : Nat
  aligned : start % PAGE_SIZE = 0
  base_le : kernelBase ≤ start
  /-- The memory ends below the end of the address space. -/
  fits : start + NUM_PAGES * PAGE_SIZE < 2 ^ 32

/-- `__free_ram_end`. -/
def Ram.stop (R : Ram) : Nat := R.start + NUM_PAGES * PAGE_SIZE

/-! ## Flags -/

/-- The entry is in use. -/
def PAGE_V : Nat := 1
/-- Readable. -/
def PAGE_R : Nat := 2
/-- Writable. -/
def PAGE_W : Nat := 4
/-- Executable. -/
def PAGE_X : Nat := 8
/-- Accessible in user mode. -/
def PAGE_U : Nat := 16

/-- Physical memory and the pages in use. -/
structure Mem where
  ram : Buf
  /-- `page_allocated`. -/
  allocated : Nat → Bool

/-- Why the kernel stopped. -/
inductive Crash where
  /-- One of the functions of the file system stopped it. -/
  | kern (e : Halt)
  /-- `+++ OUT OF CHEESE +++`: no free pages -/
  | pages (n : Nat)
  /-- `free_pages: invalid paddr`, `free_pages: out of bounds` -/
  | freePages (paddr : Nat)
  /-- `unaligned vaddr`, `unaligned paddr` -/
  | unaligned (addr : Nat)
deriving DecidableEq

/-- Kernel code that works on memory. -/
abbrev Pg := EStateM Crash Mem

/-! ## Words -/

/-- The word at a physical address. -/
def load (addr : Nat) : Pg Nat := fun m => .ok (m.ram.le32 addr) m

/-- Store a word at a physical address. -/
def store (addr word : Nat) : Pg Unit := fun m => .ok () { m with ram := m.ram.put32 addr word }

/-! ## The allocator -/

/-- Is none of the `n` pages from `i` on in use? -/
def Mem.isFree (m : Mem) (i n : Nat) : Bool := (List.range n).all fun j => !m.allocated (i + j)

/-- The memory after pages `i` to `i + n - 1` have been marked. -/
def Mem.mark (m : Mem) (i n : Nat) (b : Bool) : Mem :=
  { m with allocated := fun k => if i ≤ k ∧ k < i + n then b else m.allocated k }

/-- `alloc_pages`: the address of the first `n` free pages, filled with zeros. -/
def allocPages (R : Ram) (n : Nat) : Pg Nat := fun m =>
  match (List.range (NUM_PAGES - n + 1)).find? (fun i => m.isFree i n) with
  | none => .error (.pages n) m
  | some i =>
    let paddr := R.start + i * PAGE_SIZE
    .ok paddr { m.mark i n true with ram := m.ram.copy paddr Buf.zero (n * PAGE_SIZE) }

/-- `free_pages`. -/
def freePages (R : Ram) (paddr n : Nat) : Pg Unit := fun m =>
  if paddr < R.start ∨ R.stop ≤ paddr then .error (.freePages paddr) m
  else
    let start := (paddr - R.start) / PAGE_SIZE
    if NUM_PAGES < start + n then .error (.freePages paddr) m
    else .ok () (m.mark start n false)

/-! ## Page tables -/

/-- The index of an address in the first-level table. -/
def vpn1 (vaddr : Nat) : Nat := vaddr / 2 ^ 22 % 1024

/-- The index of an address in the second-level table. -/
def vpn0 (vaddr : Nat) : Nat := vaddr / 2 ^ 12 % 1024

/-- The entry for the page at `paddr`. -/
def pte (paddr flags : Nat) : Nat := (paddr / PAGE_SIZE) <<< 10 ||| flags ||| PAGE_V

/-- The address of the page of an entry, a 32-bit number. -/
def pteAddr (entry : Nat) : Nat := (entry >>> 10) * PAGE_SIZE % 2 ^ 32

/-- The second-level table for an address, which is allocated if there is none. -/
def tableFor (R : Ram) (t1 vaddr : Nat) : Pg Nat := do
  let entry ← load (t1 + 4 * vpn1 vaddr)
  if hasFlag entry PAGE_V then return pteAddr entry
  else
    let table ← allocPages R 1
    store (t1 + 4 * vpn1 vaddr) (pte table 0)
    let entry ← load (t1 + 4 * vpn1 vaddr)
    return pteAddr entry

/-- `map_page`. -/
def mapPage (R : Ram) (t1 vaddr paddr flags : Nat) : Pg Unit := do
  if vaddr % PAGE_SIZE ≠ 0 then throw (.unaligned vaddr)
  else if paddr % PAGE_SIZE ≠ 0 then throw (.unaligned paddr)
  else
    let t0 ← tableFor R t1 vaddr
    store (t0 + 4 * vpn0 vaddr) (pte paddr flags)

/-! ## Addresses of pages -/

/-- The address of a page of the memory that is allocated from. -/
def Ram.page (R : Ram) (i : Nat) : Nat := R.start + i * PAGE_SIZE

section Addresses

theorem Ram.page_mod (R : Ram) (i : Nat) : R.page i % PAGE_SIZE = 0 := by
  simp [Ram.page, R.aligned]

theorem Ram.page_lt (h : i < NUM_PAGES) : R.page i < R.stop := by
  have hi : i * PAGE_SIZE < NUM_PAGES * PAGE_SIZE := Nat.mul_lt_mul_of_pos_right h (by decide)
  exact Nat.add_lt_add_left hi R.start

theorem Ram.le_page (R : Ram) (i : Nat) : R.start ≤ R.page i := Nat.le_add_right _ _

theorem Ram.page_lt_word (h : i < NUM_PAGES) : R.page i < 2 ^ 32 :=
  Nat.lt_trans (Ram.page_lt h) R.fits

theorem Ram.pos (R : Ram) : 0 < R.start := Nat.lt_of_lt_of_le (by decide) R.base_le

theorem Ram.page_inj (h : R.page i = R.page j) : i = j := by
  simp only [Ram.page, PAGE_SIZE] at h
  omega

end Addresses

/-- Two memories have the same bytes in page `i`. -/
def SamePage (R : Ram) (i : Nat) (b c : Buf) : Prop :=
  ∀ k < PAGE_SIZE, b (R.page i + k) = c (R.page i + k)

namespace SamePage

variable {b c d : Buf}

theorem refl (R : Ram) (i : Nat) (b : Buf) : SamePage R i b b := fun _ _ => rfl

theorem trans (h : SamePage R i b c) (h' : SamePage R i c d) : SamePage R i b d :=
  fun k hk => (h k hk).trans (h' k hk)

/-- The words of the page are the same. -/
theorem le32 (h : SamePage R i b c) (hv : v < 1024) :
    b.le32 (R.page i + 4 * v) = c.le32 (R.page i + 4 * v) := by
  refine Buf.le32_congr fun k hk => ?_
  have hlt : 4 * v + k < PAGE_SIZE := by
    simp only [PAGE_SIZE]
    omega
  rw [Nat.add_assoc]
  exact h _ hlt

/-- A word is stored in another page. -/
theorem put32 (hij : i ≠ j) {word : Nat} (hv : v < 1024) :
    SamePage R i b (b.put32 (R.page j + 4 * v) word) := by
  intro k hk
  refine (Buf.put32_of_not_mem ?_).symm
  simp only [Ram.page, PAGE_SIZE] at *
  omega

/-- Bytes are stored in another page. -/
theorem copy (hij : i ≠ j) {src : Buf} {o n : Nat} (hn : o + n ≤ PAGE_SIZE) :
    SamePage R i b (b.copy (R.page j + o) src n) := by
  intro k hk
  refine (Buf.copy_of_not_mem ?_).symm
  simp only [Ram.page, PAGE_SIZE] at *
  omega

end SamePage

/-! ## Entries -/

section Entries

variable {flags : Nat}

/-- An entry is a number of a page and flags, side by side. -/
theorem pte_eq (a : Nat) (hf : flags < 1024) :
    pte a flags = a / PAGE_SIZE * 1024 + (flags ||| 1) := by
  have hor : flags ||| 1 < 2 ^ 10 := Nat.or_lt_two_pow hf (by decide)
  rw [pte, PAGE_V, Nat.or_assoc, ← Nat.shiftLeft_add_eq_or_of_lt hor, Nat.shiftLeft_eq]

theorem pte_lt (ha : a < 2 ^ 32) (hf : flags < 1024) : pte a flags < 2 ^ 32 := by
  have hor : flags ||| 1 < 2 ^ 10 := Nat.or_lt_two_pow hf (by decide)
  rw [pte_eq a hf, PAGE_SIZE]
  omega

@[simp] theorem hasFlag_pte_valid (a flags : Nat) : hasFlag (pte a flags) PAGE_V = true := by
  have hbit : (pte a flags &&& PAGE_V).testBit 0 = true := by
    simp [pte, PAGE_V]
  have hne : pte a flags &&& PAGE_V ≠ 0 := by
    intro h
    rw [h] at hbit
    simp at hbit
  simpa [hasFlag] using hne

theorem pteAddr_pte (ha : a < 2 ^ 32) (hal : a % PAGE_SIZE = 0) (hf : flags < 1024) :
    pteAddr (pte a flags) = a := by
  have hor : flags ||| 1 < 2 ^ 10 := Nat.or_lt_two_pow hf (by decide)
  rw [pteAddr, pte_eq a hf, Nat.shiftRight_eq_div_pow]
  simp only [PAGE_SIZE] at *
  omega

@[simp] theorem hasFlag_zero (mask : Nat) : hasFlag 0 mask = false := by simp [hasFlag]

end Entries

/-! ## What the allocator does -/

section Allocator

variable {m m' : Mem}

theorem Mem.isFree_one (m : Mem) (i : Nat) : m.isFree i 1 = !m.allocated i := by
  simp [Mem.isFree]

/-- The memory after page `i` has been given out. -/
def Mem.take (m : Mem) (R : Ram) (i : Nat) : Mem where
  ram := m.ram.copy (R.page i) Buf.zero PAGE_SIZE
  allocated := update m.allocated i true

/-- The memory after page `i` has been given back. -/
def Mem.give (m : Mem) (i : Nat) : Mem :=
  { m with allocated := update m.allocated i false }

theorem Mem.mark_one (m : Mem) (i : Nat) (b : Bool) :
    m.mark i 1 b = { m with allocated := update m.allocated i b } := by
  have h : (fun k => if i ≤ k ∧ k < i + 1 then b else m.allocated k)
      = update m.allocated i b := by
    funext k
    cases Decidable.em (k = i) with
    | inl hk => simp [hk]
    | inr hk =>
        rw [update_of_ne hk, if_neg]
        omega
  rw [Mem.mark, h]

/-- A page that is given out was free, and all before it are in use. -/
theorem allocPages_one_ok (h : allocPages R 1 m = .ok a m') :
    ∃ i < NUM_PAGES, m.allocated i = false ∧ (∀ j < i, m.allocated j = true) ∧
      a = R.page i ∧ m' = m.take R i := by
  simp only [allocPages, Mem.isFree_one] at h
  cases hf : (List.range (NUM_PAGES - 1 + 1)).find? (fun i => !m.allocated i) with
  | none => simp only [hf] at h; cases h
  | some i =>
      simp only [hf] at h
      obtain ⟨rfl, rfl⟩ := h
      obtain ⟨hfree, hlt, hfirst⟩ := List.find?_range_eq_some.mp hf
      refine ⟨i, List.mem_range.mp hlt, by simpa using hfree, ?_, rfl, ?_⟩
      · intro j hj
        simpa using hfirst j hj
      · simp [Mem.mark_one, Mem.take, Ram.page]

/-- While a page is free, one is given out. -/
theorem allocPages_one (hi : i < NUM_PAGES) (hfree : m.allocated i = false)
    (hfirst : ∀ j < i, m.allocated j = true) : allocPages R 1 m = .ok (R.page i) (m.take R i) := by
  have hf : (List.range (NUM_PAGES - 1 + 1)).find? (fun i => !m.allocated i) = some i :=
    List.find?_range_eq_some.mpr ⟨by simp [hfree], List.mem_range.mpr hi, fun j hj => by
      simp [hfirst j hj]⟩
  simp only [allocPages, Mem.isFree_one, hf, Mem.mark_one]
  rfl

/-- The allocator gives out a free page, or there is none. -/
theorem allocPages_one_cases (R : Ram) (m : Mem) :
    (∃ i < NUM_PAGES, m.allocated i = false ∧ (∀ j < i, m.allocated j = true) ∧
      allocPages R 1 m = .ok (R.page i) (m.take R i)) ∨
    ((∀ i < NUM_PAGES, m.allocated i = true) ∧ allocPages R 1 m = .error (.pages 1) m) := by
  cases hf : (List.range (NUM_PAGES - 1 + 1)).find? (fun i => !m.allocated i) with
  | some i =>
      obtain ⟨hfree, hlt, hfirst⟩ := List.find?_range_eq_some.mp hf
      have hfree' : m.allocated i = false := by simpa using hfree
      have hfirst' : ∀ j < i, m.allocated j = true := fun j hj => by simpa using hfirst j hj
      have hi : i < NUM_PAGES := List.mem_range.mp hlt
      exact .inl ⟨i, hi, hfree', hfirst', allocPages_one hi hfree' hfirst'⟩
  | none =>
      have hall : ∀ i < NUM_PAGES, m.allocated i = true := fun i hi => by
        simpa using List.find?_eq_none.mp hf i (List.mem_range.mpr hi)
      refine .inr ⟨hall, ?_⟩
      simp only [allocPages, Mem.isFree_one, hf]

theorem freePages_page (hi : i < NUM_PAGES) : freePages R (R.page i) 1 m = .ok () (m.give i) := by
  have hlt := Ram.page_lt (R := R) hi
  have hin : ¬ (R.page i < R.start ∨ R.stop ≤ R.page i) := by
    have := R.le_page i
    omega
  have hdiv : (R.page i - R.start) / PAGE_SIZE = i := by
    simp only [Ram.page, PAGE_SIZE]
    omega
  have hle : ¬ NUM_PAGES < i + 1 := by omega
  simp only [freePages, if_neg hin, hdiv, if_neg hle, Mem.mark_one]
  rfl

end Allocator

end Dmaos
