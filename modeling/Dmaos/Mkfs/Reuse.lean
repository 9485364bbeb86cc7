import Mathlib.Data.Finset.Card
import Mathlib.Data.Finset.Range
import Mathlib.Logic.Relation
import Dmaos.Mkfs.Program
import Dmaos.Refine.Bytes

/-!
# Which blocks of a formatted device are used again

`mkfs` hands out the blocks from 7 to the end of the disk.  It writes their number
to the superblock, and the kernel takes that number for the end of its search.  So
the kernel never hands out the last seven blocks of the disk, and stops for want
of a block while they are free.

`balloc_cases` says what `balloc` does in terms of the free map.  The rest is about
sequences of `balloc` and `bfree`.
-/

namespace Dmaos.Mkfs

open Fault Relation Function KState

variable {dev b k i c : Nat} {s s' : KState} {buf : Buf}

/-- The superblock that `mkfs` writes. -/
def super : Superblock where
  magic := 0x10203040
  size := DISK_SIZE_BLOCKS
  nblocks := DISK_SIZE_BLOCKS - 7
  ninodes := MAX_DIR_ENTRIES
  inodestart := 2
  bmapstart := 6

theorem super_bmapstart : super.bmapstart = 6 := rfl

theorem super_nblocks : super.nblocks = DISK_SIZE_BLOCKS - 7 := rfl

theorem super_eq (junk : Nat → Nat → Buf) : Superblock.ofBuf ((start junk).disk 1) = super := by
  simp only [start, update_self]
  decide +kernel

/-- Block `b` is marked in the free map of a formatted device. -/
def marked (dev : Nat) (s : KState) (b : Nat) : Bool := (s.blk dev 6).testBit b

/-- Device `dev` was formatted by `mkfs`, with any free map that marks the blocks in
front of the data. -/
structure Formatted (dev : Nat) (s : KState) : Prop where
  dev_lt : dev < 2
  capacity : (s.disk dev).capacity = DISK_SIZE_BLOCKS
  sb_eq : s.sb dev = super
  low : ∀ b < 7, marked dev s b = true

section Kernel

/-- The search finds the first block that is free. -/
theorem ballocScan_eq (hi : i ≤ b) (hb : b < i + k) (hlt : b < 8192)
    (hfree : buf.testBit b = false) (hfirst : ∀ c, i ≤ c → c < b → buf.testBit c = true) :
    ballocScan buf k i s = .ok b s := by
  induction k generalizing i with
  | zero => exact absurd hb (by omega)
  | succ k ih =>
      rw [ballocScan, BSIZE_eq, if_neg (by omega)]
      cases Nat.eq_or_lt_of_le hi with
      | inl heq =>
          subst heq
          rw [hfree]
          rfl
      | inr hlt' =>
          rw [hfirst i (Nat.le_refl i) hlt', if_pos rfl]
          exact ih hlt' (by omega) fun c hc => hfirst c (Nat.le_of_succ_le hc)

/-- The search fails when all blocks it looks at are marked. -/
theorem ballocScan_error (hle : i + k ≤ 8192)
    (hall : ∀ c, i ≤ c → c < i + k → buf.testBit c = true) :
    ballocScan buf k i s = .error .balloc s := by
  induction k generalizing i with
  | zero => rfl
  | succ k ih =>
      rw [ballocScan, BSIZE_eq, if_neg (by omega), hall i (Nat.le_refl i) (by omega), if_pos rfl]
      exact ih (by omega) fun c hc hc' => hall c (by omega) (by omega)

/-- Block `b` has been taken: its bit is set, it is full of zeros, and no other bit
or block has changed. -/
structure Took (dev b : Nat) (s s' : KState) : Prop where
  bits : ∀ c, marked dev s' c = (marked dev s c || decide (c = b))
  zero : s'.blk dev b = Buf.zero
  others : ∀ c, c ≠ b → c ≠ 6 → s'.blk dev c = s.blk dev c

/-- The state after block `b` has been taken. -/
def taken (dev b : Nat) (s : KState) : KState :=
  (s.putBlock dev 6 ((s.blk dev 6).setBit b)).putBlock dev b Buf.zero

theorem blk_putBlock {d : Nat} :
    (s.putBlock dev d buf).blk dev c = if c = d then buf else s.blk dev c := by
  simp [blk, putBlock, update_apply]

theorem taken_took (hb : b ≠ 6) : Took dev b s (taken dev b s) where
  bits c := by
    rw [marked, taken, blk_putBlock, if_neg (Ne.symm hb), blk_putBlock, if_pos rfl,
      Buf.testBit_setBit]
    rfl
  zero := by rw [taken, blk_putBlock, if_pos rfl]
  others c hc h6 := by rw [taken, blk_putBlock, if_neg hc, blk_putBlock, if_neg h6]

namespace Formatted

theorem superblock (h : Formatted dev s) : Dmaos.superblock dev s = .ok super s := by
  rw [Dmaos.superblock, h.sb_eq]

theorem readBlock (h : Formatted dev s) (hb : b < DISK_SIZE_BLOCKS) :
    Dmaos.readBlock dev b s = .ok (s.blk dev b) s := by
  have hmod : b % 2 ^ 31 = b := Nat.mod_eq_of_lt (Nat.lt_trans hb (by decide))
  rw [Dmaos.readBlock, hmod, h.capacity, if_pos ⟨h.dev_lt, hb⟩]

theorem writeBlock (h : Formatted dev s) (hb : b < DISK_SIZE_BLOCKS) (buf : Buf) :
    Dmaos.writeBlock dev b buf s = .ok () (s.putBlock dev b buf) := by
  have hmod : b % 2 ^ 31 = b := Nat.mod_eq_of_lt (Nat.lt_trans hb (by decide))
  rw [Dmaos.writeBlock, hmod, h.capacity, if_pos ⟨h.dev_lt, hb⟩]

theorem taken (h : Formatted dev s) (hb : b ≠ 6) : Formatted dev (taken dev b s) := by
  have hlow : ∀ c < 7, marked dev (Mkfs.taken dev b s) c = true := fun c hc => by
    rw [(taken_took hb).bits, h.low c hc, Bool.true_or]
  exact ⟨h.dev_lt, by simpa [Mkfs.taken, putBlock] using h.capacity, h.sb_eq, hlow⟩

/-- A block that is free and below 8185, with none before it, is taken. -/
theorem balloc_eq (h : Formatted dev s) (hb : b < 8185) (hfree : marked dev s b = false)
    (hfirst : ∀ c < b, marked dev s c = true) :
    Dmaos.balloc dev s = .ok b (Mkfs.taken dev b s) := by
  have hne : b ≠ 6 := by
    rintro rfl
    rw [h.low 6 (by decide)] at hfree
    cases hfree
  have hscan : ballocScan (s.blk dev 6) (DISK_SIZE_BLOCKS - 7) 0 s = .ok b s :=
    ballocScan_eq (Nat.zero_le b) (by simpa [DISK_SIZE_BLOCKS] using hb) (by omega) hfree
      fun c _ hc => hfirst c hc
  have hwrite := h.writeBlock (show 6 < DISK_SIZE_BLOCKS by decide) ((s.blk dev 6).setBit b)
  have hzero : Dmaos.writeBlock dev b Buf.zero (s.putBlock dev 6 ((s.blk dev 6).setBit b))
      = .ok () (Mkfs.taken dev b s) := by
    have hcap : ((s.putBlock dev 6 ((s.blk dev 6).setBit b)).disk dev).capacity =
      DISK_SIZE_BLOCKS := by
      simpa [putBlock] using h.capacity
    have hmod : b % 2 ^ 31 = b := Nat.mod_eq_of_lt (by omega)
    rw [Dmaos.writeBlock, hmod, hcap, if_pos ⟨h.dev_lt, by simp only [DISK_SIZE_BLOCKS]; omega⟩]
    rfl
  rw [Dmaos.balloc, run_bind h.superblock, super_bmapstart, super_nblocks,
    run_bind (h.readBlock (by decide)), run_bind hscan, run_bind hwrite, run_bind hzero]
  rfl

/-- Without such a block the kernel stops. -/
theorem balloc_error (h : Formatted dev s) (hall : ∀ b < 8185, marked dev s b = true) :
    Dmaos.balloc dev s = .error .balloc s := by
  have hscan : ballocScan (s.blk dev 6) (DISK_SIZE_BLOCKS - 7) 0 s = .error .balloc s :=
    ballocScan_error (by decide) fun c _ hc => hall c (by simpa [DISK_SIZE_BLOCKS] using hc)
  rw [Dmaos.balloc, run_bind h.superblock, super_bmapstart, super_nblocks,
    run_bind (h.readBlock (by decide)), run_bind_error hscan]

/-- `balloc` takes the first free block below 8185, or stops the kernel if there is
none. -/
theorem balloc_cases (h : Formatted dev s) :
    (∃ b, 7 ≤ b ∧ b < 8185 ∧ marked dev s b = false ∧ (∀ c < b, marked dev s c = true) ∧
      Dmaos.balloc dev s = .ok b (Mkfs.taken dev b s)) ∨
    ((∀ b < 8185, marked dev s b = true) ∧ Dmaos.balloc dev s = .error .balloc s) := by
  cases hf : (List.range 8185).find? (fun b => !marked dev s b) with
  | some b =>
      obtain ⟨hfree, hlt, hfirst⟩ := List.find?_range_eq_some.mp hf
      have hfree' : marked dev s b = false := by simpa using hfree
      have hfirst' : ∀ c < b, marked dev s c = true := fun c hc => by simpa using hfirst c hc
      have hb : b < 8185 := List.mem_range.mp hlt
      have hge : 7 ≤ b := by
        refine Nat.le_of_not_lt fun hlow => ?_
        rw [h.low b hlow] at hfree'
        cases hfree'
      exact .inl ⟨b, hge, hb, hfree', hfirst', h.balloc_eq hb hfree' hfirst'⟩
  | none =>
      have hall : ∀ b < 8185, marked dev s b = true := fun b hb => by
        simpa using List.find?_eq_none.mp hf b (List.mem_range.mpr hb)
      exact .inr ⟨hall, h.balloc_error hall⟩

/-- `bfree` clears the bit of a block that is marked, and stops the kernel on others. -/
theorem bfree_eq (h : Formatted dev s) (hb : b < 8192) :
    bfree dev b s = if marked dev s b then .ok () (s.putBlock dev 6 ((s.blk dev 6).clearBit b))
      else .error (.bfree b) s := by
  rw [bfree, run_bind h.superblock, super_bmapstart, run_bind (h.readBlock (by decide)), BSIZE_eq,
    if_neg (by omega)]
  cases hm : marked dev s b with
  | true =>
      rw [if_pos (show (s.blk dev 6).testBit b = true from hm), h.writeBlock (by decide)]
      rfl
  | false =>
      rw [if_neg (show ¬ (s.blk dev 6).testBit b = true by simpa [marked] using hm)]
      rfl

end Formatted

/-- What there is to know about `bfree`. -/
theorem marked_freed : marked dev (s.putBlock dev 6 ((s.blk dev 6).clearBit b)) c
    = (marked dev s c && !decide (c = b)) := by
  rw [marked, blk_putBlock, if_pos rfl, Buf.testBit_clearBit]
  rfl

theorem Formatted.freed (h : Formatted dev s) (hb : 7 ≤ b) :
    Formatted dev (s.putBlock dev 6 ((s.blk dev 6).clearBit b)) where
  dev_lt := h.dev_lt
  capacity := by simpa [putBlock] using h.capacity
  sb_eq := h.sb_eq
  low c hc := by
    rw [marked_freed, h.low c hc, decide_eq_false (by omega)]
    rfl

end Kernel

/-! ## Sequences -/

section Sequences

/-- One call of `balloc`, or of `bfree` on a block that `mkfs` can hand out. -/
inductive Call (dev : Nat) : KState → KState → Prop where
  | balloc {b : Nat} {s s' : KState} (run : Dmaos.balloc dev s = .ok b s') : Call dev s s'
  | bfree {b : Nat} {u : Unit} {s s' : KState} (ge : 7 ≤ b) (lt : b < DISK_SIZE_BLOCKS)
      (run : bfree dev b s = .ok u s') : Call dev s s'

/-- `balloc` does what it is for: it hands out a free block as long as there is one
on the disk, and stops the kernel only if there is none. -/
structure Allocates (dev : Nat) (s : KState) : Prop where
  finds : (∃ b, 7 ≤ b ∧ b < DISK_SIZE_BLOCKS ∧ marked dev s b = false) →
    ∃ b s', Dmaos.balloc dev s = .ok b s' ∧ 7 ≤ b ∧ b < DISK_SIZE_BLOCKS ∧
      marked dev s b = false ∧ Took dev b s s'
  stops : ∀ e s', Dmaos.balloc dev s = .error e s' →
    ∀ b, 7 ≤ b → b < DISK_SIZE_BLOCKS → marked dev s b = true

/-- It does so exactly if the first blocks of the disk, up to 8185, have a free one
or all blocks are marked. -/
theorem allocates_iff (h : Formatted dev s) :
    Allocates dev s ↔ (∃ b, 7 ≤ b ∧ b < 8185 ∧ marked dev s b = false) ∨
      ∀ b, 7 ≤ b → b < DISK_SIZE_BLOCKS → marked dev s b = true := by
  rcases h.balloc_cases with ⟨b, hge, hlt, hfree, -, hrun⟩ | ⟨hall, hrun⟩
  · have hlt' : b < DISK_SIZE_BLOCKS := Nat.lt_trans hlt (by decide)
    refine iff_of_true ⟨fun _ => ?_, fun e s' he => ?_⟩ (.inl ⟨b, hge, hlt, hfree⟩)
    · exact ⟨b, _, hrun, hge, hlt', hfree, taken_took (by omega)⟩
    · rw [hrun] at he
      cases he
  · constructor
    · exact fun ha => .inr (ha.stops _ _ hrun)
    · rintro (⟨b, -, hlt, hfree⟩ | hfull)
      · rw [hall b hlt] at hfree
        cases hfree
      · refine ⟨fun ⟨b, hge, hlt, hfree⟩ => ?_, fun _ _ _ => hfull⟩
        rw [hfull b hge hlt] at hfree
        cases hfree

theorem Formatted.call (h : Formatted dev s) (hc : Call dev s s') : Formatted dev s' := by
  cases hc with
  | balloc run =>
      rcases h.balloc_cases with ⟨b, hge, -, -, -, hrun⟩ | ⟨-, hrun⟩
      · rw [hrun] at run
        cases run
        exact h.taken (by omega)
      · rw [hrun] at run
        cases run
  | @bfree b _ _ _ ge lt run =>
      rw [h.bfree_eq lt] at run
      split at run
      · cases run
        exact h.freed ge
      · cases run

theorem Formatted.calls (h : Formatted dev s) (hrun : ReflTransGen (Call dev) s s') :
    Formatted dev s' := by
  induction hrun with
  | refl => exact h
  | tail _ hc ih => exact ih.call hc

/-- The free blocks below `b`. -/
def freeBelow (dev : Nat) (s : KState) (b : Nat) : Finset Nat :=
  (Finset.range b).filter fun c => marked dev s c = false

theorem freeBelow_taken (hc : c < b) (h6 : c ≠ 6) (hfree : marked dev s c = false) :
    (freeBelow dev (taken dev c s) b).card < (freeBelow dev s b).card := by
  refine Finset.card_lt_card ((Finset.ssubset_iff_of_subset fun d hd => ?_).mpr ⟨c, ?_, ?_⟩)
  · simp only [freeBelow, Finset.mem_filter, (taken_took h6).bits, Bool.or_eq_false_iff] at hd ⊢
    exact ⟨hd.1, hd.2.1⟩
  · simp [freeBelow, hc, hfree]
  · simp [freeBelow, (taken_took h6).bits]

/-- A free block below 8185 is handed out sooner or later.  The induction is on the
number of free blocks before it. -/
theorem Formatted.reaches (h : Formatted dev s) (hb : b < 8185) (hfree : marked dev s b = false) :
    ∃ t u, ReflTransGen (Call dev) s t ∧ Dmaos.balloc dev t = .ok b u := by
  induction hn : (freeBelow dev s b).card using Nat.strong_induction_on generalizing s with
  | _ n ih =>
      rcases h.balloc_cases with ⟨c, hge, -, hc, hfirst, hrun⟩ | ⟨hall, -⟩
      · cases Nat.lt_trichotomy c b with
        | inl hlt =>
            have hfree' : marked dev (Mkfs.taken dev c s) b = false := by
              rw [(taken_took (by omega)).bits, hfree, decide_eq_false (by omega)]
              rfl
            have hless := freeBelow_taken hlt (by omega) hc
            obtain ⟨t, u, hsteps, hlast⟩ :=
              ih _ (hn ▸ hless) (h.taken (by omega)) hfree' rfl
            exact ⟨t, u, .head (.balloc hrun) hsteps, hlast⟩
        | inr hge' =>
            cases hge' with
            | inl heq => exact ⟨s, _, .refl, heq ▸ hrun⟩
            | inr hgt =>
                rw [hfirst b hgt] at hfree
                cases hfree
      · rw [hall b hb] at hfree
        cases hfree

/-- `balloc` hands out blocks below 8185 only. -/
theorem Formatted.balloc_lt (h : Formatted dev s) (hrun : Dmaos.balloc dev s = .ok b s') :
    b < 8185 := by
  rcases h.balloc_cases with ⟨c, -, hlt, -, -, hc⟩ | ⟨-, hc⟩
  · rw [hc] at hrun
    cases hrun
    exact hlt
  · rw [hc] at hrun
    cases hrun

/-- On a device formatted by `mkfs`, after any sequence of `balloc` and `bfree`: the
kernel's allocator does what it is for exactly if a block below 8185 is free or all
are marked, and a block that has been given back is handed out again exactly if it is
below 8185. -/
theorem balloc_reaches_iff {s₀ : KState} (h : Formatted dev s₀)
    (hrun : ReflTransGen (Call dev) s₀ s) :
    (Allocates dev s ↔ (∃ b, 7 ≤ b ∧ b < 8185 ∧ marked dev s b = false) ∨
      ∀ b, 7 ≤ b → b < DISK_SIZE_BLOCKS → marked dev s b = true) ∧
    ∀ b, 7 ≤ b → b < DISK_SIZE_BLOCKS → marked dev s b = true →
      ∃ s', bfree dev b s = .ok () s' ∧
        ((∃ t u, ReflTransGen (Call dev) s' t ∧ Dmaos.balloc dev t = .ok b u) ↔ b < 8185) := by
  have hs : Formatted dev s := h.calls hrun
  refine ⟨allocates_iff hs, fun b hge hlt hm => ?_⟩
  refine ⟨_, (hs.bfree_eq hlt).trans (if_pos hm), ?_⟩
  have hs' := hs.freed hge
  constructor
  · rintro ⟨t, u, hsteps, hlast⟩
    exact (hs'.calls hsteps).balloc_lt hlast
  · intro hb
    have hfree : marked dev (s.putBlock dev 6 ((s.blk dev 6).clearBit b)) b = false := by
      rw [marked_freed, decide_eq_true rfl]
      simp
    exact hs'.reaches hb hfree

/-- A disk on which all blocks but 8185 are marked. -/
def fullDisk : Device where
  capacity := DISK_SIZE_BLOCKS
  blk b := if b = 6 then (fun i => if i = 1023 then 0xfd else 0xff) else Buf.zero

/-- The kernel with two such disks. -/
def fullState : KState := { coldState fullDisk fullDisk with sb := fun _ => super }

theorem fullState_marked (hb : b < 8185) : marked 1 fullState b = true := by
  have hff : ∀ j < 8, (0xff : Byte).getLsbD j = true := by decide
  have hbit : marked 1 fullState b
      = (if b / 8 = 1023 then (0xfd : Byte) else 0xff).getLsbD (b % 8) := rfl
  rw [hbit]
  cases Decidable.em (b / 8 = 1023) with
  | inl heq =>
      have hlast : b = 8184 := by omega
      rw [hlast]
      decide
  | inr hne =>
      rw [if_neg hne]
      exact hff _ (Nat.mod_lt _ (by decide))

theorem fullState_formatted : Formatted 1 fullState where
  dev_lt := by decide
  capacity := rfl
  sb_eq := rfl
  low _ hc := fullState_marked (Nat.lt_trans hc (by decide))

/-- Block 7 is given back and handed out again. -/
theorem balloc_reaches_seven : ∃ s', bfree 1 7 fullState = .ok () s' ∧
    ∃ t u, ReflTransGen (Call 1) s' t ∧ Dmaos.balloc 1 t = .ok 7 u := by
  obtain ⟨-, hreuse⟩ := balloc_reaches_iff fullState_formatted .refl
  obtain ⟨s', hfree, hiff⟩ := hreuse 7 (by decide) (by decide) (fullState_marked (by decide))
  exact ⟨s', hfree, hiff.mpr (by decide)⟩

/-- A block of the disk is free, and the kernel stops for want of a block. -/
theorem balloc_misses_last : Formatted 1 fullState ∧ marked 1 fullState 8185 = false ∧
    Dmaos.balloc 1 fullState = .error .balloc fullState ∧ ¬ Allocates 1 fullState := by
  have hfree : marked 1 fullState 8185 = false := by decide
  have hrun := fullState_formatted.balloc_error fun b hb => fullState_marked hb
  refine ⟨fullState_formatted, hfree, hrun, fun ha => ?_⟩
  rw [ha.stops _ _ hrun 8185 (by decide) (by decide)] at hfree
  cases hfree

end Sequences

end Dmaos.Mkfs
