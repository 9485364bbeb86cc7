import Dmaos.Mkfs.Program
import Dmaos.Refine.Bytes

/-!
# How `mkfs` stores a file

While a file is being added, part of its block map is in memory.  The volume
the program is making is the one it would have if the tables in memory were
written to their blocks now; `Mirror` relates the two.  Seen this way every
step of the loop of `add_file` allocates one block at one position of the map,
as `bmap_alloc` of the kernel does, and the results about allocation apply.
The step that matters is the one to the next second-level table: the old one is
written to its block and leaves memory (`Mirror.unload`), then the new one gets
a block (`Mirror.allocCell`).

`Filling` is the invariant of the loop.  The positions in use are those of rank
below the number of blocks stored, so a table is missing exactly when its first
entry is next, and the block that `flushSub` writes is that of the table in
memory.  `storeFile_ok` says what is left on the volume.
-/

namespace Dmaos.Mkfs

open Fault Function Vol

variable {m m' m₁ : State} {b n db i d len type : Nat} {l l' : Locals} {ahead : Nat → Prop}
  {V V' : Vol} {σ : Slot} {D D' : Slot → Prop} {u : Unit} {name : List Byte}
  {junk : Nat → Nat → Buf} {buf : Buf}

/-! ## The volume being made -/

/-- The blocks that `mkfs` hands out. -/
def Region (b : Nat) : Prop := 7 ≤ b ∧ b < 8192

/-- The volume being made, as far as it is on the disk. -/
def State.vol (m : State) : Vol where
  data := m.disk
  bm := m.freeBitmap.testBit
  ino n := (m.fileInodes n).view

section Primitives

theorem balloc_ok (h : balloc m = .ok b m') :
    b = m.freeblock ∧ m.freeblock < 8192 ∧
      m' = { m with freeblock := m.freeblock + 1
                    freeBitmap := m.freeBitmap.setBit m.freeblock } := by
  unfold balloc at h
  replace h := get_then h
  split_ifs at h with hfull
  · exact absurd h throw_ok
  · obtain ⟨u₁, t₁, h₁, h⟩ := bind_ok.mp h
    obtain ⟨u₂, t₂, h₂, h⟩ := bind_ok.mp h
    obtain ⟨rfl, rfl⟩ := pure_ok.mp h
    obtain rfl := modify_ok.mp h₁
    obtain rfl := modify_ok.mp h₂
    exact ⟨rfl, by simpa only [DISK_SIZE_BLOCKS, not_le] using hfull, rfl⟩

end Primitives

/-! ## The tables in memory -/

/-- The positions whose table is in memory. -/
def Locals.Loaded (l : Locals) (σ : Slot) : Prop :=
  σ = .top 12 ∨ σ = .top 13 ∨ l.activeDIdx ≠ noTable ∧ σ = .ent (.top 13) l.activeDIdx

/-- The table in memory for a position. -/
def Locals.table (l : Locals) : Slot → Buf
  | .top i => if i = 12 then l.indirectAddrs else l.dindirectAddrs
  | .ent _ _ => l.dsubAddrs

/-- `V` is `disk` with the tables in memory put in their places.  The disk may
be ahead of the volume at some blocks. -/
structure Mirror (n : Nat) (l : Locals) (ahead : Nat → Prop) (disk : Nat → Buf) (V : Vol) :
    Prop where
  indirect : l.indirectBlock = V.ptr n (.top 12)
  active : l.activeDIdx ≠ noTable → l.activeDIdx < 256
  table : ∀ {σ : Slot}, l.Loaded σ → V.ptr n σ ≠ 0 → V.data (V.ptr n σ) = l.table σ
  disk : ∀ {b : Nat}, ¬ ahead b → (∀ σ : Slot, l.Loaded σ → V.ptr n σ ≠ 0 → b ≠ V.ptr n σ) →
    disk b = V.data b

section Mirror

variable {R S : Nat → Prop} {disk : Nat → Buf}

theorem Mirror.isTable (h : Mirror n l ahead disk V) (hσ : l.Loaded σ) : σ.IsTable := by
  rcases hσ with rfl | rfl | ⟨ha, rfl⟩
  · exact Or.inl rfl
  · exact Or.inr rfl
  · exact ⟨rfl, h.active ha⟩

/-- `l'` is `l` after block `b` has been put at position `σ`: the table of the
position is in memory, if it is one, and the table above it has a new entry. -/
structure Locals.Puts (l l' : Locals) (σ : Slot) (b : Nat) : Prop where
  active : (l.activeDIdx ≠ noTable → l.activeDIdx < 256) →
    l'.activeDIdx ≠ noTable → l'.activeDIdx < 256
  parent : ∀ t i, σ = .ent t i → l.Loaded t
  loaded : ∀ ρ, l'.Loaded ρ ↔ l.Loaded ρ ∨ ρ = σ ∧ σ.IsTable
  indirect : l'.indirectBlock = if σ = .top 12 then b else l.indirectBlock
  zero : σ.IsTable → l'.table σ = Buf.zero
  set : ∀ t i, σ = .ent t i → l'.table t = (l.table t).put32 (4 * i) b
  same : ∀ ρ, l.Loaded ρ → ρ ≠ σ → (∀ i, σ ≠ .ent ρ i) → l'.table ρ = l.table ρ

theorem Mirror.allocCell (h : Mirror n l ahead disk V) (ho : Own R S V) (hn : S n)
    (hσ : σ.Valid) (h0 : V.ptr n σ = 0) (hp : ∀ t i, σ = .ent t i → V.ptr n t ≠ 0)
    (hb : V.bm b = false) (hb0 : b ≠ 0) (hlt : b < 2 ^ 32) (hahead : ¬ σ.IsTable → ahead b)
    (hl : l.Puts l' σ b) : Mirror n l' ahead disk (V.allocCell n σ b) := by
  have hptr : ∀ {τ : Slot}, τ.Valid →
      (V.allocCell n σ b).ptr n τ = if τ = σ then b else V.ptr n τ := by
    intro τ hτ
    rw [ho.ptr_allocCell hn hσ h0 hp hb hb0 hlt hn hτ]
    simp only [true_and]
  -- What was in memory is in memory, at the same block.
  have hold : ∀ {ρ : Slot}, l.Loaded ρ → V.ptr n ρ ≠ 0 →
      ρ ≠ σ ∧ (V.allocCell n σ b).ptr n ρ = V.ptr n ρ := by
    intro ρ hρ hne
    have hρσ : ρ ≠ σ := by
      rintro rfl
      exact hne h0
    rw [hptr (h.isTable hρ).valid, if_neg hρσ]
    exact ⟨hρσ, rfl⟩
  have hself : (V.allocCell n σ b).ptr n σ = b := by rw [hptr hσ, if_pos rfl]
  refine ⟨?_, hl.active h.active, ?_, ?_⟩
  · rw [hl.indirect, h.indirect, hptr (Slot.valid_top (i := 12) (by omega))]
    exact if_congr eq_comm rfl rfl
  · intro ρ hρ hne
    by_cases hρσ : ρ = σ
    · subst hρσ
      have htable : ρ.IsTable := by
        rcases (hl.loaded ρ).mp hρ with hρ | ⟨-, hρ⟩
        · exact h.isTable hρ
        · exact hρ
      rw [hself, hl.zero htable]
      exact ho.allocCell_data_self hn hσ hp hb
    · have hρ : l.Loaded ρ := ((hl.loaded ρ).mp hρ).resolve_right fun hc => hρσ hc.1
      have hv := (h.isTable hρ).valid
      rw [hptr hv, if_neg hρσ] at hne ⊢
      by_cases hent : ∃ i, σ = .ent ρ i
      · obtain ⟨i, rfl⟩ := hent
        rw [ho.allocCell_data_table hn hσ hne hb, h.table hρ hne, hl.set ρ i rfl]
      · rw [ho.allocCell_data_of_ne hn hσ hb (ho.ptr_ne_of_free hn hv hb hne), h.table hρ hne,
          hl.same ρ hρ hρσ fun i hi => hent ⟨i, hi⟩]
        rintro t i rfl he
        obtain ⟨-, rfl⟩ := ho.inj hn hn hv hσ.parent hne he
        exact hent ⟨i, rfl⟩
  · intro c hc hcl
    have hcb : c ≠ b := by
      rintro rfl
      by_cases ht : σ.IsTable
      · exact hcl σ ((hl.loaded σ).mpr (Or.inr ⟨rfl, ht⟩)) (by rwa [hself]) hself.symm
      · exact hc (hahead ht)
    rw [ho.allocCell_data_of_ne hn hσ hb hcb]
    · refine h.disk hc fun ρ hρ hne => ?_
      rw [← (hold hρ hne).2]
      exact hcl ρ ((hl.loaded ρ).mpr (Or.inl hρ)) (by rwa [(hold hρ hne).2])
    · rintro t i rfl
      have ht := hold (hl.parent t i rfl) (hp t i rfl)
      rw [← ht.2]
      exact hcl t ((hl.loaded t).mpr (Or.inl (hl.parent t i rfl))) (by rw [ht.2]; exact hp t i rfl)

/-- The second-level table is written to its block and leaves memory. -/
theorem Mirror.unload (h : Mirror n l ahead disk V) (ha : l.activeDIdx ≠ noTable)
    (h0 : V.ptr n (.ent (.top 13) l.activeDIdx) ≠ 0) (buf : Buf) :
    Mirror n { l with dsubAddrs := buf, activeDIdx := noTable } ahead
      (update disk (V.ptr n (.ent (.top 13) l.activeDIdx)) l.dsubAddrs) V := by
  have hsub : l.Loaded (.ent (.top 13) l.activeDIdx) := Or.inr (Or.inr ⟨ha, rfl⟩)
  refine ⟨h.indirect, fun hc => absurd rfl hc, ?_, ?_⟩
  · rintro σ (rfl | rfl | ⟨hc, -⟩) hne
    · exact h.table (Or.inl rfl) hne
    · exact h.table (Or.inr (Or.inl rfl)) hne
    · exact absurd rfl hc
  · intro b hb hbl
    by_cases hbs : b = V.ptr n (.ent (.top 13) l.activeDIdx)
    · subst hbs
      rw [update_self, h.table hsub h0]
      rfl
    · rw [update_of_ne hbs]
      refine h.disk hb ?_
      rintro σ (rfl | rfl | ⟨-, rfl⟩) hne
      · exact hbl _ (Or.inl rfl) hne
      · exact hbl _ (Or.inr (Or.inl rfl)) hne
      · exact hbs

/-- There is no second-level table in memory. -/
theorem Mirror.idle (h : Mirror n l ahead disk V) (ha : l.activeDIdx = noTable) (buf : Buf) :
    Mirror n { l with dsubAddrs := buf, activeDIdx := noTable } ahead disk V := by
  refine ⟨h.indirect, fun hc => absurd rfl hc, ?_, fun hb hbl => h.disk hb ?_⟩
  · rintro σ (rfl | rfl | ⟨hc, -⟩) hne
    · exact h.table (Or.inl rfl) hne
    · exact h.table (Or.inr (Or.inl rfl)) hne
    · exact absurd rfl hc
  · rintro σ (rfl | rfl | ⟨hc, -⟩) hne
    · exact hbl _ (Or.inl rfl) hne
    · exact hbl _ (Or.inr (Or.inl rfl)) hne
    · exact absurd ha hc

/-- An entry of the root in memory is a position of the map. -/
theorem Mirror.entry_root (h : Mirror n l ahead disk V) (h0 : V.ptr n (.top 13) ≠ 0) (d : Nat) :
    entry l.dindirectAddrs d = V.ptr n (.ent (.top 13) d) := by
  rw [ptr_ent_of_ne h0, h.table (Or.inr (Or.inl rfl)) h0]
  rfl

/-- A block is written before it is in the map. -/
theorem Mirror.reserve (h : Mirror n l (fun _ => False) disk V) (b : Nat) (buf : Buf) :
    Mirror n l (· = b) (update disk b buf) V where
  indirect := h.indirect
  active := h.active
  table := h.table
  disk hc hcl := by
    rw [update_of_ne hc]
    exact h.disk id hcl

/-- The block is in the map: the volume catches up with the disk. -/
theorem Mirror.setData (h : Mirror n l (· = b) disk V) (ho : Own R S V) (hn : S n)
    (hσ : σ.Leaf) (hb : V.ptr n σ = b) (hb0 : b ≠ 0) :
    Mirror n l (fun _ => False) disk (V.setData b (disk b)) := by
  subst hb
  have hptr : ∀ {τ : Slot}, τ.Valid →
      (V.setData (V.ptr n σ) (disk (V.ptr n σ))).ptr n τ = V.ptr n τ :=
    fun hτ => ho.ptr_setData hn hσ hb0 _ hn hτ
  refine ⟨?_, h.active, ?_, ?_⟩
  · rw [hptr (Slot.valid_top (i := 12) (by omega))]
    exact h.indirect
  · intro ρ hρ hne
    have ht := h.isTable hρ
    rw [hptr ht.valid] at hne ⊢
    rw [← h.table hρ hne]
    refine update_of_ne (fun he => ?_) _ _
    obtain ⟨-, rfl⟩ := ho.inj hn hn ht.valid hσ.valid hne he
    exact hσ.2 ht
  · intro c _ hcl
    by_cases hc : c = V.ptr n σ
    · subst hc
      exact (update_self (V.ptr n σ) (disk (V.ptr n σ)) V.data).symm
    · refine (h.disk hc fun ρ hρ hne => ?_).trans (update_of_ne hc _ _).symm
      rw [← hptr (h.isTable hρ).valid]
      exact hcl ρ hρ (by rwa [hptr (h.isTable hρ).valid])

theorem Mirror.setSize (h : Mirror n l ahead disk V) (size : Nat) :
    Mirror n l ahead disk (V.setSize n size) where
  indirect := by rw [ptr_setSize]; exact h.indirect
  active := h.active
  table hσ hne := by
    rw [ptr_setSize] at hne ⊢
    exact h.table hσ hne
  disk hb hbl := by
    refine h.disk hb fun σ hσ hne => ?_
    have := hbl σ hσ
    rw [ptr_setSize] at this
    exact this hne

end Mirror

/-! ## Placing a block -/

/-- The marked blocks are those below the next free one. -/
structure Marked (m : State) : Prop where
  low : 7 ≤ m.freeblock
  high : m.freeblock ≤ 8192
  marks : ∀ b, m.freeBitmap.testBit b = decide (b < m.freeblock)

theorem Marked.balloc (h : Marked m) (hb : balloc m = .ok b m') : Marked m' := by
  obtain ⟨rfl, hlt, rfl⟩ := balloc_ok hb
  refine ⟨Nat.le_succ_of_le h.low, hlt, fun c => ?_⟩
  show (m.freeBitmap.setBit m.freeblock).testBit c = decide (c < m.freeblock + 1)
  rw [Buf.testBit_setBit, h.marks, ← Bool.decide_or]
  exact decide_eq_decide.mpr (by omega)

/-- Block `db` has been written and marked, and is not in the map yet. -/
structure Pending (n db : Nat) (l : Locals) (m : State) (V : Vol) : Prop extends Marked m where
  own : Own Region (fun _ => True) V
  mirror : Mirror n l (· = db) m.disk V
  ino : m.vol.ino = V.ino
  bm : ∀ b, V.bm b = decide (b < m.freeblock ∧ b ≠ db)
  db_low : 7 ≤ db
  db_lt : db < m.freeblock

/-- The positions of inode `n` in use are those of rank below `k`, and `D`. -/
def Upto (V : Vol) (n k : Nat) (D : Slot → Prop) : Prop :=
  ∀ σ : Slot, σ.Valid → (V.ptr n σ ≠ 0 ↔ σ.rank < k ∨ D σ)

/-- What a step to a volume with more positions gives. -/
structure Step (n k : Nat) (D : Slot → Prop) (V V' : Vol) : Prop
    extends Grow Region (fun _ => True) n (fun _ => True) V V' where
  upto : Upto V' n k D

section Place

variable {k : Nat}

theorem Upto.mono (h : Upto V n k D) (hD : ∀ σ, D σ ↔ D' σ) : Upto V n k D' := by
  intro σ hσ
  rw [h σ hσ, hD σ]

/-- A table gets a block. -/
theorem Pending.allocCell (h : Pending n db l m V) (hu : Upto V n k D) (hlt : m.freeblock < 8192)
    (ht : σ.IsTable) (h0 : V.ptr n σ = 0) (hp : ∀ t i, σ = .ent t i → V.ptr n t ≠ 0)
    (hl : l.Puts l' σ m.freeblock) (hm : Marked m') (hdisk : m'.disk = m.disk)
    (hf : m'.freeblock = m.freeblock + 1) (hino : m'.vol.ino = (V.allocCell n σ m.freeblock).ino) :
    Pending n db l' m' (V.allocCell n σ m.freeblock) ∧
      Step n k (fun τ => D τ ∨ τ = σ) V (V.allocCell n σ m.freeblock) := by
  have hlow := h.low
  have hdb := h.db_lt
  have hb : V.bm m.freeblock = false := by
    rw [h.bm]
    simp
  have hR : Region m.freeblock := ⟨hlow, hlt⟩
  have hg := h.own.grow_allocCell trivial ht.valid h0 hp hb (by omega) (by omega) hR
  refine
    ⟨{ toMarked := hm, own := hg.own, mirror := ?_, ino := hino, bm := ?_, db_low := h.db_low,
       db_lt := by omega },
      { toGrow := hg.mono fun _ _ => trivial, upto := ?_ }⟩
  · rw [hdisk]
    exact h.mirror.allocCell h.own trivial ht.valid h0 hp hb (by omega) (by omega)
      (fun hc => absurd ht hc) hl
  · intro c
    unfold Vol.allocCell
    rw [setCell_bm, hf]
    show update V.bm m.freeblock true c = _
    by_cases hc : c = m.freeblock
    · subst hc
      rw [update_self]
      exact (decide_eq_true (by omega)).symm
    · rw [update_of_ne hc, h.bm]
      exact decide_eq_decide.mpr (by omega)
  · intro τ hτ
    rw [h.own.ptr_allocCell trivial ht.valid h0 hp hb (by omega) (by omega) trivial hτ]
    by_cases hτσ : τ = σ
    · subst hτσ
      simp only [and_self, if_true]
      exact ⟨fun _ => Or.inr (Or.inr trivial), fun _ => by omega⟩
    · simp only [hτσ, and_false, if_false, or_false]
      exact hu τ hτ

/-- What happens to the volume while a table is opened. -/
structure Opens (n db : Nat) (D : Slot → Prop) (l l' : Locals) (m m' : State) (V V' : Vol) :
    Prop extends Step n l.blockIndex D V V' where
  pending : Pending n db l' m' V'
  index : l'.blockIndex = l.blockIndex
  disk_db : m'.disk db = m.disk db

theorem Opens.refl (h : Pending n db l m V) (hu : Upto V n l.blockIndex D) :
    Opens n db D l l m m V V where
  toGrow := .refl h.own
  upto := hu
  pending := h
  index := rfl
  disk_db := rfl

theorem Opens.mono (h : Opens n db D l l' m m' V V')
    (hD : ∀ σ, D σ ↔ D' σ) : Opens n db D' l l' m m' V V' :=
  { h with upto := h.upto.mono hD }

theorem vol_ino_setAddr (m : State) (hi : i < 14) (hb : b < 2 ^ 32) :
    (fun j => (update m.fileInodes n ((m.fileInodes n).setAddr i b) j).view) =
      update m.vol.ino n ((m.vol.ino n).setAddr i b) := by
  funext j
  by_cases hj : j = n
  · subst hj
    rw [update_self, update_self]
    exact Dinode.view_setAddr _ hi hb
  · rw [update_of_ne hj, update_of_ne hj]
    rfl

theorem puts_indirect (l : Locals) (b : Nat) :
    l.Puts { l with indirectBlock := b, indirectAddrs := Buf.zero } (.top 12) b where
  active h := h
  parent _ _ h := by cases h
  loaded ρ := ⟨Or.inl, by rintro (h | ⟨rfl, -⟩); exacts [h, Or.inl rfl]⟩
  indirect := rfl
  zero _ := rfl
  set _ _ h := by cases h
  same := by
    rintro ρ (rfl | rfl | ⟨-, rfl⟩) hρ -
    · exact absurd rfl hρ
    · rfl
    · rfl

theorem puts_dindirect (l : Locals) (b : Nat) :
    l.Puts { l with dindirectAddrs := Buf.zero } (.top 13) b where
  active h := h
  parent _ _ h := by cases h
  loaded ρ := ⟨Or.inl, by rintro (h | ⟨rfl, -⟩); exacts [h, Or.inr (Or.inl rfl)]⟩
  indirect := rfl
  zero _ := rfl
  set _ _ h := by cases h
  same := by
    rintro ρ (rfl | rfl | ⟨-, rfl⟩) hρ -
    · rfl
    · exact absurd rfl hρ
    · rfl

/-- A second-level table comes into memory when there is none. -/
theorem puts_sub (hd : d < 256) (hl : l.activeDIdx = noTable) (b : Nat) :
    l.Puts { l with
      dindirectAddrs := setEntry l.dindirectAddrs d b, dsubAddrs := Buf.zero, activeDIdx := d }
      (.ent (.top 13) d) b where
  active _ _ := hd
  parent := by
    rintro t i ⟨⟩
    exact Or.inr (Or.inl rfl)
  loaded ρ := by
    have hne : d ≠ noTable := by simp only [noTable]; omega
    simp [Locals.Loaded, Slot.IsTable, hl, hne, hd, or_assoc]
  indirect := rfl
  zero _ := rfl
  set := by
    rintro t i ⟨⟩
    rfl
  same := by
    rintro ρ (rfl | rfl | ⟨hc, -⟩) - hρ
    · rfl
    · exact absurd rfl (hρ d)
    · exact absurd hl hc

theorem puts_direct (hi : i < 12) (l : Locals) (b : Nat) : l.Puts l (.top i) b where
  active h := h
  parent _ _ h := by cases h
  loaded ρ := by
    have : ¬ (Slot.top i).IsTable := by
      simp only [Slot.IsTable]
      omega
    simp [this]
  indirect := by rw [if_neg]; simp; omega
  zero h := by
    simp only [Slot.IsTable] at h
    omega
  set _ _ h := by cases h
  same _ _ _ _ := rfl

theorem puts_single (l : Locals) (i b : Nat) :
    l.Puts { l with indirectAddrs := setEntry l.indirectAddrs i b } (.ent (.top 12) i) b where
  active h := h
  parent := by
    rintro t j ⟨⟩
    exact Or.inl rfl
  loaded ρ := by simp [Locals.Loaded, Slot.IsTable]
  indirect := rfl
  zero h := by simp [Slot.IsTable] at h
  set := by
    rintro t j ⟨⟩
    rfl
  same := by
    rintro ρ (rfl | rfl | ⟨-, rfl⟩) - hρ
    · exact absurd rfl (hρ i)
    · rfl
    · rfl

theorem puts_double (hd : l.activeDIdx = d) (hne : d ≠ noTable) (i b : Nat) :
    l.Puts { l with dsubAddrs := setEntry l.dsubAddrs i b } (.ent (.ent (.top 13) d) i) b where
  active h := h
  parent := by
    rintro t j ⟨⟩
    exact Or.inr (Or.inr ⟨by rwa [hd], by rw [hd]⟩)
  loaded ρ := by simp [Locals.Loaded, Slot.IsTable]
  indirect := rfl
  zero h := by simp [Slot.IsTable] at h
  set := by
    rintro t j ⟨⟩
    rfl
  same := by
    rintro ρ (rfl | rfl | ⟨-, rfl⟩) - hρ
    · rfl
    · rfl
    · exact absurd (by rw [hd]) (hρ i)

/-- A pointer of the inode is set to a fresh block. -/
theorem Pending.allocTop (h : Pending n db l m V)
    (hu : Upto V n l.blockIndex D) (hi : (Slot.top i).IsTable) (h0 : V.ptr n (.top i) = 0)
    (hb : balloc m = .ok b m₁) (hset : setInode n (·.setAddr i b) m₁ = .ok u m')
    (hl : l.Puts l' (.top i) b) (hindex : l'.blockIndex = l.blockIndex) :
    Opens n db (fun τ => D τ ∨ τ = .top i) l l' m m' V (V.allocCell n (.top i) b) := by
  have hm₁ := h.toMarked.balloc hb
  obtain ⟨rfl, hlt, heq⟩ := balloc_ok hb
  have hm' := modify_ok.mp hset
  have hmark : Marked m' := by
    rw [hm']
    exact ⟨hm₁.low, hm₁.high, hm₁.marks⟩
  have hino : m'.vol.ino = (V.allocCell n (.top i) m.freeblock).ino := by
    rw [hm', heq]
    refine (vol_ino_setAddr m hi.valid (by omega)).trans ?_
    rw [h.ino]
    rfl
  obtain ⟨hpend, hstep⟩ := h.allocCell hu hlt hi h0 (fun _ _ hc => by cases hc) hl hmark
    (by rw [hm', heq]) (by rw [hm', heq]) hino
  exact ⟨hstep, hpend, hindex, by rw [hm', heq]⟩

theorem openIndirect_ok (h : Pending n db l m V) (hu : Upto V n l.blockIndex fun _ => False)
    (hlo : 12 ≤ l.blockIndex) (hx : openIndirect n l m = .ok l' m') :
    l'.activeDIdx = l.activeDIdx ∧
      ∃ V', Opens n db (fun τ => τ = .top 12 ∧ l.blockIndex = 12) l l' m m' V V' := by
  have hptr := hu (.top 12) (Slot.valid_top (by omega))
  rw [or_false, Slot.rank_single_top] at hptr
  unfold openIndirect at hx
  rw [h.mirror.indirect] at hx
  split_ifs at hx with h0
  · have hk : l.blockIndex = 12 := by
      have : ¬ 12 < l.blockIndex := fun hc => hptr.mpr hc h0
      omega
    obtain ⟨b, m₁, hb, hx⟩ := bind_ok.mp hx
    obtain ⟨u, m₂, hset, hx⟩ := bind_ok.mp hx
    obtain ⟨rfl, rfl⟩ := pure_ok.mp hx
    have ho := h.allocTop hu (Or.inl rfl) h0 hb hset (puts_indirect l b) rfl
    exact ⟨rfl, _, ho.mono fun σ => by simp [hk]⟩
  · obtain ⟨rfl, rfl⟩ := pure_ok.mp hx
    have hk : l.blockIndex ≠ 12 := by
      have := hptr.mp h0
      omega
    exact ⟨rfl, V, .refl h (hu.mono fun σ => by simp [hk])⟩

theorem openDindirect_ok (h : Pending n db l m V) (hu : Upto V n l.blockIndex fun _ => False)
    (hlo : 268 ≤ l.blockIndex) (hx : openDindirect n l m = .ok l' m') :
    l'.activeDIdx = l.activeDIdx ∧
      ∃ V', Opens n db (fun τ => τ = .top 13 ∧ l.blockIndex = 268) l l' m m' V V' := by
  have hptr := hu (.top 13) (Slot.valid_top (by omega))
  rw [or_false, Slot.rank_double_top] at hptr
  unfold openDindirect at hx
  obtain ⟨ip, t, hip, hx⟩ := bind_ok.mp hx
  replace hip := get_then hip
  obtain ⟨rfl, rfl⟩ := pure_ok.mp hip
  have haddr : (m.fileInodes n).addr 13 = V.ptr n (.top 13) := by
    rw [ptr_top, ← h.ino]
    exact (Dinode.view_addr (by omega)).symm
  rw [NDIRECT_eq, haddr] at hx
  split_ifs at hx with h0
  · have hk : l.blockIndex = 268 := by
      have : ¬ 268 < l.blockIndex := fun hc => hptr.mpr hc h0
      omega
    obtain ⟨b, m₁, hb, hx⟩ := bind_ok.mp hx
    obtain ⟨u, m₂, hset, hx⟩ := bind_ok.mp hx
    obtain ⟨rfl, rfl⟩ := pure_ok.mp hx
    have ho := h.allocTop hu (Or.inr rfl) h0 hb hset (puts_dindirect l b) rfl
    exact ⟨rfl, _, ho.mono fun σ => by simp [hk]⟩
  · obtain ⟨rfl, rfl⟩ := pure_ok.mp hx
    have hk : l.blockIndex ≠ 268 := by
      have := hptr.mp h0
      omega
    exact ⟨rfl, V, .refl h (hu.mono fun σ => by simp [hk])⟩

/-- The value of `active_d_idx` when `k` blocks have been placed. -/
def activeAt (k : Nat) : Nat := if k ≤ 268 then noTable else (k - 269) / 256

/-- The second-level table in memory, if there is one, goes to its block. -/
theorem flushSub_ok (h : Mirror n l ahead m.disk V) (hroot : V.ptr n (.top 13) ≠ 0)
    (hsub : l.activeDIdx ≠ noTable → V.ptr n (.ent (.top 13) l.activeDIdx) ≠ 0)
    (hx : flushSub l m = .ok u m') (buf : Buf) :
    (∀ b, (∀ σ : Slot, σ.Valid → V.ptr n σ ≠ b) → m'.disk b = m.disk b) ∧
      Mirror n { l with dsubAddrs := buf, activeDIdx := noTable } ahead m'.disk V ∧
      m' = { m with disk := m'.disk } := by
  unfold flushSub at hx
  rw [h.entry_root hroot] at hx
  split_ifs at hx with ha
  · obtain rfl := modify_ok.mp hx
    refine ⟨fun b hb => ?_, h.unload ha.1 ha.2 buf, rfl⟩
    exact update_of_ne (hb (.ent (.top 13) l.activeDIdx) ⟨Or.inr rfl, h.active ha.1⟩).symm
      _ _
  · obtain ⟨-, rfl⟩ := pure_ok.mp hx
    have hnone : l.activeDIdx = noTable := by
      by_contra hc
      exact ha ⟨hc, hsub hc⟩
    exact ⟨fun _ _ => rfl, h.idle hnone buf, rfl⟩

/-- The block that is being placed stands at no position. -/
theorem Pending.ptr_ne (h : Pending n db l m V) (σ : Slot) (hσ : σ.Valid) : V.ptr n σ ≠ db := by
  have hfree : V.bm db = false := by
    rw [h.bm]
    simp
  have := h.db_low
  by_cases h0 : V.ptr n σ = 0
  · omega
  · exact h.own.ptr_ne_of_free trivial hσ hfree h0

theorem openSub_ok (h : Pending n db l m V)
    (hu : Upto V n l.blockIndex fun τ => τ = .top 13 ∧ l.blockIndex = 268)
    (hlo : 268 ≤ l.blockIndex) (hd : d = (l.blockIndex - 268) / 256) (hlt : d < 256)
    (ha : l.activeDIdx = activeAt l.blockIndex) (hx : openSub d l m = .ok l' m') :
    l'.activeDIdx = d ∧
      ∃ V', Opens n db (fun τ => (τ = .top 13 ∧ l.blockIndex = 268) ∨
        τ = .ent (.top 13) d ∧ (l.blockIndex - 268) % 256 = 0) l l' m m' V V' := by
  have hroot : V.ptr n (.top 13) ≠ 0 := by
    rw [hu (.top 13) (Slot.valid_top (by omega)), Slot.rank_double_top]
    rcases Nat.lt_or_eq_of_le hlo with hlo | hlo
    · exact Or.inl hlo
    · exact Or.inr ⟨rfl, hlo.symm⟩
  -- A second-level table has a block when its first entry has been placed.
  have hsub : ∀ {j : Nat}, j < 256 →
      (V.ptr n (.ent (.top 13) j) ≠ 0 ↔ 268 + 256 * j < l.blockIndex) := by
    intro j hj
    rw [hu (.ent (.top 13) j) ⟨Or.inr rfl, hj⟩, Slot.rank_table]
    simp
  unfold openSub at hx
  split_ifs at hx with hne
  · obtain ⟨u, m₁, hflush, hx⟩ := bind_ok.mp hx
    obtain ⟨hdisk, hmir, hm₁⟩ := flushSub_ok h.mirror hroot (fun hc => by
      rw [hsub (h.mirror.active hc)]
      rw [ha, activeAt] at hc ⊢
      split_ifs at hc ⊢
      · exact absurd rfl hc
      · omega) hflush Buf.zero
    have hfirst : (l.blockIndex - 268) % 256 = 0 := by
      rw [ha, activeAt] at hne
      split_ifs at hne <;> omega
    have h0 : V.ptr n (.ent (.top 13) d) = 0 := by
      by_contra hc
      rw [← ne_eq, hsub hlt] at hc
      omega
    rw [if_pos (by rw [h.mirror.entry_root hroot]; exact h0)] at hx
    obtain ⟨b, m₂, hb, hx⟩ := bind_ok.mp hx
    obtain ⟨rfl, rfl⟩ := pure_ok.mp hx
    have hpend : Pending n db { l with dsubAddrs := Buf.zero, activeDIdx := noTable } m₁ V := by
      rw [hm₁] at hmir ⊢
      exact { toMarked := ⟨h.low, h.high, h.marks⟩, own := h.own, mirror := hmir, ino := h.ino,
              bm := h.bm, db_low := h.db_low, db_lt := h.db_lt }
    have hmark := hpend.toMarked.balloc hb
    obtain ⟨rfl, hfree, heq⟩ := balloc_ok hb
    obtain ⟨hpend', hstep⟩ := hpend.allocCell hu hfree (σ := .ent (.top 13) d) ⟨rfl, hlt⟩ h0
      (by rintro t i ⟨⟩; exact hroot) (puts_sub hlt rfl _) hmark (by rw [heq]) (by rw [heq])
      (by rw [heq]; exact hpend.ino)
    have ho : Opens n db _ l _ m m₂ V _ :=
      ⟨hstep, hpend', rfl, by rw [heq]; exact hdisk db h.ptr_ne⟩
    exact ⟨rfl, _, ho.mono fun σ => by simp [hfirst]⟩
  · obtain ⟨rfl, rfl⟩ := pure_ok.mp hx
    have hd' : d = l.activeDIdx := not_not.mp hne
    refine ⟨hd'.symm, V, .refl h (hu.mono fun σ => ?_)⟩
    have hlast : (l.blockIndex - 268) % 256 ≠ 0 := by
      rw [ha, activeAt, noTable] at hd'
      split_ifs at hd' <;> omega
    simp [hlast]

/-- Block `db` has been put into the map as file block `k`. -/
structure Placed (n db k : Nat) (l' : Locals) (m m' : State) (V V' : Vol) : Prop
    extends Marked m', Step n (k + 1) (fun _ => False) V V' where
  lt : k < 65804
  ptr : V'.ptr n (Slot.ofBlock k) = db
  mirror : Mirror n l' (· = db) m'.disk V'
  inodes : m'.vol.ino = V'.ino
  bm_eq : ∀ b, V'.bm b = decide (b < m'.freeblock)
  index : l'.blockIndex = k
  active : l'.activeDIdx = activeAt (k + 1)
  disk_db : m'.disk db = m.disk db

/-- The block becomes the next block of the file. -/
theorem Pending.place (h : Pending n db l m V) (hu : Upto V n k D) (hlt : k < 65804)
    (h0 : V.ptr n (Slot.ofBlock k) = 0) (hp : ∀ t i, Slot.ofBlock k = .ent t i → V.ptr n t ≠ 0)
    (hD : ∀ σ : Slot, σ.Valid → (σ.rank = k ↔ D σ ∨ σ = Slot.ofBlock k))
    (hl : l.Puts l' (Slot.ofBlock k) db) (hindex : l'.blockIndex = k)
    (hactive : l'.activeDIdx = activeAt (k + 1)) (hm : Marked m') (hdisk : m'.disk = m.disk)
    (hf : m'.freeblock = m.freeblock)
    (hino : m'.vol.ino = (V.allocCell n (Slot.ofBlock k) db).ino) :
    Placed n db k l' m m' V (V.allocCell n (Slot.ofBlock k) db) := by
  have hlow := h.db_low
  have hdb := h.db_lt
  have hhigh := h.high
  have hleaf := Slot.leaf_ofBlock hlt
  have hb : V.bm db = false := by
    rw [h.bm]
    simp
  have hg := h.own.grow_allocCell trivial hleaf.valid h0 hp hb (by omega) (by omega)
    ⟨hlow, by omega⟩
  have hptr : ∀ {τ : Slot}, τ.Valid → (V.allocCell n (Slot.ofBlock k) db).ptr n τ =
      if τ = Slot.ofBlock k then db else V.ptr n τ := by
    intro τ hτ
    rw [h.own.ptr_allocCell trivial hleaf.valid h0 hp hb (by omega) (by omega) trivial hτ]
    simp only [true_and]
  refine
    { toMarked := hm, toGrow := hg.mono fun _ _ => trivial, upto := ?_, lt := hlt, ptr := ?_,
      mirror := ?_, inodes := hino, bm_eq := ?_, index := hindex, active := hactive,
      disk_db := by rw [hdisk] }
  · intro τ hτ
    rw [hptr hτ, or_false, Nat.lt_succ_iff_lt_or_eq, hD τ hτ]
    by_cases hτσ : τ = Slot.ofBlock k
    · rw [if_pos hτσ]
      exact ⟨fun _ => Or.inr (Or.inr hτσ), fun _ => by omega⟩
    · rw [if_neg hτσ, hu τ hτ]
      simp only [hτσ, or_false]
  · rw [hptr hleaf.valid, if_pos rfl]
  · rw [hdisk]
    exact h.mirror.allocCell h.own trivial hleaf.valid h0 hp hb (by omega) (by omega)
      (fun _ => rfl) hl
  · intro c
    unfold Vol.allocCell
    rw [setCell_bm, hf]
    show update V.bm db true c = _
    by_cases hc : c = db
    · subst hc
      rw [update_self]
      exact (decide_eq_true hdb).symm
    · rw [update_of_ne hc, h.bm]
      simp [hc]

/-- The positions needed for the block before it was placed come first. -/
theorem Opens.placed {V'' : Vol} {l'' : Locals} {m'' : State} (ho : Opens n db D l l' m m' V V')
    (hp : Placed n db k l'' m' m'' V' V'') : Placed n db k l'' m m'' V V'' :=
  { hp with
    toGrow := ho.toGrow.trans trivial hp.toGrow
    disk_db := hp.disk_db.trans ho.disk_db }

theorem placeBlock_ok (h : Pending n db l m V)
    (hu : Upto V n l.blockIndex fun _ => False) (ha : l.activeDIdx = activeAt l.blockIndex)
    (hx : placeBlock n name db l m = .ok l' m') : ∃ V', Placed n db l.blockIndex l' m m' V V' := by
  have hdb := h.db_lt
  have hhigh := h.high
  unfold placeBlock at hx
  dsimp only at hx
  rw [NDIRECT_eq, NINDIRECT_eq, NDINDIRECT_eq] at hx
  split_ifs at hx with h1 h2 h3
  · -- A pointer of the inode.
    obtain ⟨u, m₁, hset, hx⟩ := bind_ok.mp hx
    obtain ⟨rfl, rfl⟩ := pure_ok.mp hx
    have hm₁ := modify_ok.mp hset
    have hslot : Slot.ofBlock l.blockIndex = .top l.blockIndex := if_pos h1
    refine ⟨_, h.place hu (by omega) ?_ ?_ (fun σ hσ => ?_) ?_ rfl ?_ ?_ (by rw [hm₁])
      (by rw [hm₁]) ?_⟩
    · by_contra hc
      rcases (hu _ (Slot.valid_ofBlock (by omega))).mp hc with hc | hc
      · rw [Slot.rank_ofBlock] at hc
        omega
      · exact hc
    · rw [hslot]
      intro t i hc
      cases hc
    · rw [hslot, false_or]
      exact Slot.rank_eq_direct hσ h1
    · rw [hslot]
      exact puts_direct h1 l db
    · rw [ha, activeAt, activeAt, if_pos (by omega), if_pos (by omega)]
    · rw [hm₁]
      exact ⟨h.low, h.high, h.marks⟩
    · rw [hm₁, hslot]
      refine (vol_ino_setAddr m (by omega) (by omega)).trans ?_
      rw [h.ino]
      rfl
  · -- An entry of the single-indirect table.
    obtain ⟨l₁, m₁, hopen, hx⟩ := bind_ok.mp hx
    obtain ⟨rfl, rfl⟩ := pure_ok.mp hx
    obtain ⟨ha₁, V₁, ho⟩ := openIndirect_ok h hu (by omega) hopen
    have hslot : Slot.ofBlock l.blockIndex = .ent (.top 12) (l.blockIndex - 12) := by
      rw [Slot.ofBlock, if_neg h1, if_pos (by omega)]
    refine ⟨_, ho.placed (ho.pending.place ho.upto (by omega) ?_ ?_ (fun σ hσ => ?_) ?_ ho.index ?_
      ho.pending.toMarked rfl rfl ?_)⟩
    · by_contra hc
      rcases (ho.upto _ (Slot.valid_ofBlock (by omega))).mp hc with hc | hc
      · rw [Slot.rank_ofBlock] at hc
        omega
      · rw [hslot] at hc
        cases hc.1
    · rw [hslot]
      rintro t i ⟨⟩
      rw [ho.upto (.top 12) (Slot.valid_top (by omega)), Slot.rank_single_top]
      simp only [true_and]
      omega
    · rw [hslot, or_comm]
      exact Slot.rank_eq_single hσ (by omega) (by omega)
    · rw [hslot, ← ho.index]
      exact puts_single l₁ _ db
    · show l₁.activeDIdx = _
      rw [ha₁, ha, activeAt, activeAt, if_pos (by omega), if_pos (by omega)]
    · rw [hslot, allocCell_ino_ent]
      exact ho.pending.ino
  · exact absurd hx throw_ok
  · -- An entry of a second-level table.
    have h3 : l.blockIndex < 65804 := by omega
    have hdf : l.blockIndex - 12 - 256 = l.blockIndex - 268 := by omega
    rw [hdf] at hx
    obtain ⟨l₁, m₁, hopen, hx⟩ := bind_ok.mp hx
    obtain ⟨l₂, m₂, hsub, hx⟩ := bind_ok.mp hx
    obtain ⟨rfl, rfl⟩ := pure_ok.mp hx
    obtain ⟨ha₁, V₁, ho₁⟩ := openDindirect_ok h hu (by omega) hopen
    have hk := ho₁.index
    obtain ⟨ha₂, V₂, ho₂⟩ := openSub_ok ho₁.pending (by rw [hk]; exact ho₁.upto) (by omega)
      (by rw [hk]) (by omega) (by rw [hk, ha₁, ha]) hsub
    rw [hk] at ho₂
    have hslot : Slot.ofBlock l.blockIndex =
        .ent (.ent (.top 13) ((l.blockIndex - 268) / 256)) ((l.blockIndex - 268) % 256) := by
      rw [Slot.ofBlock, if_neg h1, if_neg (by omega)]
    have hup := ho₂.upto
    rw [hk] at hup
    refine ⟨_, ho₁.placed (ho₂.placed (ho₂.pending.place hup h3 ?_ ?_ (fun σ hσ => ?_) ?_ ?_ ?_
      ho₂.pending.toMarked rfl rfl ?_))⟩
    · by_contra hc
      rcases (hup _ (Slot.valid_ofBlock h3)).mp hc with hc | hc
      · rw [Slot.rank_ofBlock] at hc
        omega
      · rw [hslot] at hc
        rcases hc with ⟨hc, -⟩ | ⟨hc, -⟩ <;> cases hc
    · rw [hslot]
      rintro t i ⟨⟩
      rw [hup (.ent (.top 13) _) ⟨Or.inr rfl, by omega⟩, Slot.rank_table]
      simp only [true_and, reduceCtorEq, false_and, false_or]
      omega
    · rw [hslot, or_comm]
      exact Slot.rank_eq_double hσ (by omega)
    · rw [hslot, ← hk, ← ho₂.index]
      have hk₂ := ho₂.index
      exact puts_double (by rw [ha₂, hk₂, hk]) (by simp only [noTable]; omega) _ db
    · exact ho₂.index.trans hk
    · show l₂.activeDIdx = _
      rw [ha₂, activeAt, if_neg (by omega), Nat.add_sub_add_right l.blockIndex 1 268]
    · rw [hslot, allocCell_ino_ent]
      exact ho₂.pending.ino

end Place

/-! ## The loop -/

/-- `tot` bytes have been stored as inode `n` since the volume was `V₀`. -/
structure Storing (V₀ : Vol) (n : Nat) (src : Buf) (tot : Nat) (l : Locals) (m : State) (V : Vol) :
    Prop extends Marked m where
  mirror : Mirror n l (fun _ => False) m.disk V
  ino : m.vol.ino = V.ino
  bm : ∀ b, V.bm b = decide (b < m.freeblock)
  written : Written Region (fun _ => True) n 0 tot src (fun _ => True) V₀ V
  upto : Upto V n l.blockIndex fun _ => False
  active : l.activeDIdx = activeAt l.blockIndex
  index : l.blockIndex = blocks tot
  le : l.blockIndex ≤ 65804

/-- They are the bytes of the file so far. -/
structure Filling (V₀ : Vol) (n : Nat) (src : Buf) (tot : Nat) (l : Locals) (m : State) (V : Vol) :
    Prop extends Storing V₀ n src tot l m V where
  size : (V.ino n).size = tot

section Loop

variable {V₀ : Vol} {tot : Nat} {src : Buf}

/-- Nothing has been stored yet. -/
theorem Storing.start (hm : Marked m)
    (hw : Written Region (fun _ => True) n 0 0 src (fun _ => True) V₀ m.vol)
    (hblank : ∀ σ : Slot, σ.Valid → m.vol.ptr n σ = 0) :
    Storing V₀ n src 0 (Locals.init junk n) m m.vol where
  toMarked := hm
  mirror := by
    refine ⟨(hblank _ (Slot.valid_top (by omega))).symm, fun hc => absurd rfl hc, ?_,
      fun _ _ => rfl⟩
    rintro σ (rfl | rfl | ⟨hc, -⟩) h0
    · exact absurd (hblank _ (Slot.valid_top (by omega))) h0
    · exact absurd (hblank _ (Slot.valid_top (by omega))) h0
    · exact absurd rfl hc
  ino := rfl
  bm := hm.marks
  written := hw
  upto σ hσ := by
    rw [hblank σ hσ]
    simp [Locals.init]
  active := rfl
  index := rfl
  le := Nat.zero_le _

/-- A block is taken and written. -/
theorem Storing.pending (h : Storing V₀ n src tot l m V) (hb : balloc m = .ok db m₁)
    (hw : writeBlock db buf m₁ = .ok u m') : Pending n db l m' V ∧ m'.disk db = buf := by
  have hmark := h.toMarked.balloc hb
  obtain ⟨rfl, hfree, rfl⟩ := balloc_ok hb
  obtain rfl := modify_ok.mp hw
  refine
    ⟨{ toMarked := ⟨hmark.low, hmark.high, hmark.marks⟩, own := h.written.own,
       mirror := h.mirror.reserve _ _, ino := h.ino, bm := fun c => ?_, db_low := h.low,
       db_lt := Nat.lt_succ_self _ }, update_self ..⟩
  rw [h.bm]
  refine decide_eq_decide.mpr ?_
  show c < m.freeblock ↔ c < m.freeblock + 1 ∧ c ≠ m.freeblock
  omega

theorem vol_ino_setSize (m : State) {v : Nat} (hv : v < 2 ^ 32) :
    (fun j => (update m.fileInodes n ((m.fileInodes n).setSize v) j).view) =
      update m.vol.ino n { m.vol.ino n with size := v } := by
  funext j
  by_cases hj : j = n
  · subst hj
    rw [update_self, update_self]
    exact Dinode.view_setSize _ hv
  · rw [update_of_ne hj, update_of_ne hj]
    rfl

/-- The size grows with the block that is being placed. -/
theorem Pending.addSize (h : Pending n db l m V) (hlt : (V.ino n).size + len < 2 ^ 32)
    (hs : setInode n (fun ip => ip.setSize (ip.size + len)) m = .ok u m') :
    Pending n db l m' (V.setSize n ((V.ino n).size + len)) ∧ m'.disk = m.disk := by
  obtain rfl := modify_ok.mp hs
  have hsize : (m.fileInodes n).size = (V.ino n).size := by
    rw [← h.ino]
    rfl
  refine ⟨{ toMarked := ⟨h.low, h.high, h.marks⟩, own := h.own.setSize _ _,
            mirror := h.mirror.setSize _, ino := ?_, bm := h.bm, db_low := h.db_low,
            db_lt := h.db_lt }, rfl⟩
  show (fun j => (update m.fileInodes n ((m.fileInodes n).setSize
    ((m.fileInodes n).size + len)) j).view) = _
  rw [hsize, vol_ino_setSize m hlt, h.ino]
  rfl

/-- A full block is placed after `tot` bytes, or the last block. -/
theorem Pending.stored (h : Pending n db l m V)
    (hw : Written Region (fun _ => True) n 0 tot src (fun _ => True) V₀ V)
    (hupto : Upto V n l.blockIndex fun _ => False) (hactive : l.activeDIdx = activeAt l.blockIndex)
    (hblank : ∀ σ : Slot, σ.Valid → V₀.ptr n σ = 0) (htot : tot = 1024 * l.blockIndex)
    (hlen : 0 < len ∧ len ≤ 1024) (hbuf : ∀ i < len, m.disk db i = src (tot + i))
    (hplace : placeBlock n name db l m = .ok l' m') :
    ∃ V', Storing V₀ n src (tot + len) { l' with blockIndex := l'.blockIndex + 1 } m' V' ∧
      (V'.ino n).size = (V.ino n).size := by
  obtain ⟨V₁, hp⟩ := placeBlock_ok h hupto hactive hplace
  have hlt := hp.lt
  have hblock : (0 + tot) / 1024 = l.blockIndex := by omega
  have hmod : (0 + tot) % 1024 = 0 := by omega
  have hdb : db ≠ 0 := by
    have := h.db_low
    omega
  have hin : ∀ i < len, m.disk db ((0 + tot) % 1024 + i) = src (tot + i) := by
    intro i hi
    rw [hmod, Nat.zero_add]
    exact hbuf i hi
  have hw' := hw.put trivial hp.toGrow (by rwa [hblock]) (by rwa [hblock, hp.ptr]) (by omega) hin
    fun j hj => by
      rw [hmod, hblock] at hj
      rcases hj with hj | ⟨-, hj⟩
      · omega
      · exact absurd (hblank _ (Slot.valid_ofBlock hlt)) hj
  rw [hblock, hp.ptr, ← hp.disk_db] at hw'
  have hleaf := Slot.leaf_ofBlock hlt
  have hptr : ∀ {σ : Slot}, σ.Valid → (V₁.setData db (m'.disk db)).ptr n σ = V₁.ptr n σ := by
    intro σ hσ
    rw [← hp.ptr]
    exact hp.own.ptr_setData trivial hleaf (by rwa [hp.ptr]) _ trivial hσ
  refine ⟨V₁.setData db (m'.disk db),
    { toMarked := hp.toMarked, mirror := ?_, ino := hp.inodes, bm := hp.bm_eq, written := hw',
      upto := ?_, active := ?_, index := ?_, le := ?_ }, hp.size⟩
  · have := hp.mirror.setData hp.own trivial hleaf hp.ptr hdb
    exact ⟨this.indirect, this.active, this.table, this.disk⟩
  · intro σ hσ
    rw [hptr hσ]
    show _ ↔ σ.rank < l'.blockIndex + 1 ∨ False
    rw [hp.index]
    exact hp.upto σ hσ
  · show l'.activeDIdx = activeAt (l'.blockIndex + 1)
    rw [hp.active, hp.index]
  · show l'.blockIndex + 1 = blocks (tot + len)
    rw [hp.index, blocks]
    omega
  · show l'.blockIndex + 1 ≤ 65804
    rw [hp.index]
    exact hlt

/-- One turn of the loop. -/
theorem Filling.turn {u₁ u₂ : Unit} {m₂ m₃ : State} (h : Filling V₀ n src tot l m V)
    (hblank : ∀ σ : Slot, σ.Valid → V₀.ptr n σ = 0) (htot : tot = 1024 * l.blockIndex)
    (hlen : 0 < len ∧ len ≤ 1024) (hbuf : ∀ i < len, buf i = src (tot + i))
    (hb : balloc m = .ok db m₁) (hw : writeBlock db buf m₁ = .ok u₁ m₂)
    (hs : setInode n (fun ip => ip.setSize (ip.size + len)) m₂ = .ok u₂ m₃)
    (hplace : placeBlock n name db l m₃ = .ok l' m') :
    ∃ V', Filling V₀ n src (tot + len) { l' with blockIndex := l'.blockIndex + 1 } m' V' := by
  have hle := h.le
  have hsize := h.size
  obtain ⟨hp, hdisk⟩ := h.toStoring.pending hb hw
  obtain ⟨hp', hdisk'⟩ := hp.addSize (by omega) hs
  obtain ⟨V', hV', hsize'⟩ := hp'.stored (h.written.setSize _) (fun σ hσ => by
      rw [ptr_setSize]
      exact h.upto σ hσ) h.active hblank htot hlen (by rwa [hdisk', hdisk]) hplace
  refine ⟨V', hV', ?_⟩
  rw [hsize', setSize_ino_self, hsize]

/-- The loop stores what is left of the file. -/
theorem fileLoop_ok (hblank : ∀ σ : Slot, σ.Valid → V₀.ptr n σ = 0) :
    ∀ {k tot : Nat} {rest : List Byte} {fileBuf : Buf} {l : Locals} {m : State} {V : Vol},
      rest.length ≤ k → Filling V₀ n src tot l m V → (rest ≠ [] → tot = 1024 * l.blockIndex) →
      (∀ i < rest.length, Buf.ofList rest i = src (tot + i)) →
      fileLoop n name k rest fileBuf l m = .ok l' m' →
      ∃ V', Filling V₀ n src (tot + rest.length) l' m' V'
  | 0, tot, rest, fileBuf, l, m, V, hk, h, htot, hsrc, hx => by
      obtain ⟨rfl, rfl⟩ := pure_ok.mp hx
      rw [Nat.le_zero.mp hk]
      exact ⟨V, h⟩
  | k + 1, tot, rest, fileBuf, l, m, V, hk, h, htot, hsrc, hx => by
      unfold fileLoop at hx
      split_ifs at hx with hrest
      · obtain ⟨rfl, rfl⟩ := pure_ok.mp hx
        subst hrest
        exact ⟨V, h⟩
      · have hpos : 0 < rest.length := List.length_pos_of_ne_nil hrest
        rw [BSIZE_eq] at hx
        obtain ⟨db, m₁, hb, hx⟩ := bind_ok.mp hx
        obtain ⟨u₁, m₂, hw, hx⟩ := bind_ok.mp hx
        obtain ⟨u₂, m₃, hs, hx⟩ := bind_ok.mp hx
        obtain ⟨l₁, m₄, hplace, hx⟩ := bind_ok.mp hx
        obtain ⟨V₁, h₁⟩ := h.turn hblank (htot hrest) (by omega) (fun i hi => by
          rw [Buf.copy_of_mem (by omega), Nat.sub_zero]
          exact hsrc i (by omega)) hb hw hs hplace
        have hlen : (rest.drop 1024).length = rest.length - 1024 := List.length_drop
        have hnext : rest.drop 1024 ≠ [] →
            tot + min 1024 rest.length = 1024 * (l₁.blockIndex + 1) := by
          intro hne
          have hlt : 1024 < rest.length := by
            have := List.length_pos_of_ne_nil hne
            omega
          have hi : l₁.blockIndex + 1 = blocks (tot + min 1024 rest.length) := h₁.index
          have ht := htot hrest
          unfold blocks at hi
          omega
        have hsrc' : ∀ i < (rest.drop 1024).length,
            Buf.ofList (rest.drop 1024) i = src (tot + min 1024 rest.length + i) := by
          intro i hi
          rw [Buf.ofList_drop, hsrc (1024 + i) (by omega)]
          congr 1
          omega
        obtain ⟨V', h'⟩ := fileLoop_ok hblank (by omega) h₁ hnext hsrc' hx
        refine ⟨V', ?_⟩
        rwa [hlen, show tot + min 1024 rest.length + (rest.length - 1024) = tot + rest.length by
          omega] at h'

theorem writeBlock_disk {block : Nat} (h : writeBlock block buf m = .ok u m') :
    m' = { m with disk := m'.disk } ∧ ∀ b, m'.disk b = if b = block then buf else m.disk b := by
  obtain rfl := modify_ok.mp h
  exact ⟨rfl, fun b => update_apply ..⟩

theorem flushIndirect_disk (h : flushIndirect l m = .ok u m') :
    m' = { m with disk := m'.disk } ∧ ∀ b, m'.disk b =
      if l.indirectBlock ≠ 0 ∧ b = l.indirectBlock then l.indirectAddrs else m.disk b := by
  unfold flushIndirect at h
  split_ifs at h with h0
  · simp only [h0, ne_eq, not_false_eq_true, true_and]
    exact writeBlock_disk h
  · obtain ⟨-, rfl⟩ := pure_ok.mp h
    exact ⟨rfl, fun b => (if_neg fun hc => h0 hc.1).symm⟩

theorem flushSub_disk (h : flushSub l m = .ok u m') :
    m' = { m with disk := m'.disk } ∧ ∀ b, m'.disk b =
      if (l.activeDIdx ≠ noTable ∧ entry l.dindirectAddrs l.activeDIdx ≠ 0) ∧
        b = entry l.dindirectAddrs l.activeDIdx then l.dsubAddrs else m.disk b := by
  unfold flushSub at h
  split_ifs at h with h0
  · simp only [h0, ne_eq, not_false_eq_true, true_and]
    exact writeBlock_disk h
  · obtain ⟨-, rfl⟩ := pure_ok.mp h
    exact ⟨rfl, fun b => (if_neg fun hc => h0 hc.1).symm⟩

/-- After the loop the tables in memory go to their blocks. -/
theorem Storing.flush (h : Storing V₀ n src tot l m V) (hx : flush n l m = .ok u m') :
    m' = { m with disk := m'.disk } ∧ m'.vol = V := by
  obtain ⟨u₁, m₁, h₁, hx⟩ := bind_ok.mp hx
  obtain ⟨ip, t, hip, hx⟩ := bind_ok.mp hx
  replace hip := get_then hip
  obtain ⟨rfl, rfl⟩ := pure_ok.mp hip
  obtain ⟨hm₁, hd₁⟩ := flushIndirect_disk h₁
  have haddr : (m₁.fileInodes n).addr 13 = V.ptr n (.top 13) := by
    rw [hm₁, ptr_top, ← h.ino]
    exact (Dinode.view_addr (by omega)).symm
  have hbm : m.freeBitmap.testBit = V.bm := funext fun b => by rw [h.marks, h.bm]
  rw [NDIRECT_eq, haddr] at hx
  split_ifs at hx with hroot
  · obtain ⟨u₂, m₂, h₂, hx⟩ := bind_ok.mp hx
    obtain ⟨hm₂, hd₂⟩ := writeBlock_disk h₂
    obtain ⟨hm', hd'⟩ := flushSub_disk hx
    have heq : m' = { m with disk := m'.disk } := by rw [hm', hm₂, hm₁]
    refine ⟨heq, Vol.ext (funext fun b => ?_) ?_ ?_⟩
    · show m'.disk b = V.data b
      rw [hd', h.mirror.entry_root hroot]
      split_ifs with hsub
      · rw [hsub.2, h.mirror.table (Or.inr (Or.inr ⟨hsub.1.1, rfl⟩)) hsub.1.2]
        rfl
      · rw [hd₂]
        split_ifs with hb
        · rw [hb, h.mirror.table (Or.inr (Or.inl rfl)) hroot]
          rfl
        · rw [hd₁, h.mirror.indirect]
          split_ifs with hind
          · rw [hind.2, h.mirror.table (Or.inl rfl) hind.1]
            rfl
          · refine h.mirror.disk id ?_
            rintro σ (rfl | rfl | ⟨hne, rfl⟩) h0
            · exact fun hc => hind ⟨h0, hc⟩
            · exact hb
            · exact fun hc => hsub ⟨⟨hne, h0⟩, hc⟩
    · rw [heq]
      exact hbm
    · rw [heq]
      exact h.ino
  · obtain ⟨-, rfl⟩ := pure_ok.mp hx
    rw [not_not] at hroot
    refine ⟨hm₁, Vol.ext (funext fun b => ?_) ?_ ?_⟩
    · show m₁.disk b = V.data b
      rw [hd₁, h.mirror.indirect]
      split_ifs with hind
      · rw [hind.2, h.mirror.table (Or.inl rfl) hind.1]
        rfl
      · refine h.mirror.disk id ?_
        rintro σ (rfl | rfl | ⟨hne, rfl⟩) h0
        · exact fun hc => hind ⟨h0, hc⟩
        · exact absurd hroot h0
        · exact absurd (ptr_ent_of_eq hroot) h0
    · rw [hm₁]
      exact hbm
    · rw [hm₁]
      exact h.ino

end Loop

/-! ## Inode numbers and directories -/

/-- No inode number has been taken, and the directories are the same. -/
def SameTree (m m' : State) : Prop := m'.freeinode = m.freeinode ∧ m'.dirs = m.dirs

instance : IsPreorder State SameTree where
  refl _ := ⟨rfl, rfl⟩
  trans _ _ _ h₁ h₂ := ⟨h₂.1.trans h₁.1, h₂.2.trans h₁.2⟩

namespace SameTree

theorem balloc : Within SameTree balloc :=
  .bind .get fun _ => .ite (.throw trivial) (.bind (.modify fun _ => ⟨rfl, rfl⟩) fun _ =>
    .bind (.modify fun _ => ⟨rfl, rfl⟩) fun _ => .pure)

theorem writeBlock (b : Nat) (buf : Buf) : Within SameTree (writeBlock b buf) :=
  .modify fun _ => ⟨rfl, rfl⟩

theorem setInode (n : Nat) (f : Dinode → Dinode) : Within SameTree (setInode n f) :=
  .modify fun _ => ⟨rfl, rfl⟩

theorem inodeOf (n : Nat) : Within SameTree (inodeOf n) := .bind .get fun _ => .pure

theorem flushSub : Within SameTree (flushSub l) := .ite (writeBlock _ _) .pure

theorem openSub (d : Nat) : Within SameTree (openSub d l) :=
  .ite (.bind flushSub fun _ => .ite (.bind balloc fun _ => .pure) .pure) .pure

theorem placeBlock (name : List Byte) (db : Nat) : Within SameTree (placeBlock n name db l) :=
  .ite (.bind (setInode _ _) fun _ => .pure)
    (.ite (.bind (.ite (.bind balloc fun _ => .bind (setInode _ _) fun _ => .pure) .pure)
        fun _ => .pure)
      (.ite (.throw trivial) (.bind (.bind (inodeOf _) fun _ =>
          .ite (.bind balloc fun _ => .bind (setInode _ _) fun _ => .pure) .pure) fun _ =>
        .bind (openSub _) fun _ => .pure)))

theorem fileLoop (name : List Byte) : ∀ {k : Nat} {rest : List Byte} {buf : Buf} {l : Locals},
    Within SameTree (fileLoop n name k rest buf l)
  | 0, _, _, _ => .pure
  | _ + 1, _, _, _ => .ite .pure (.bind balloc fun _ => .bind (writeBlock _ _) fun _ =>
      .bind (setInode _ _) fun _ => .bind (placeBlock _ _) fun _ => fileLoop name)

theorem flush : Within SameTree (flush n l) :=
  .bind (.ite (writeBlock _ _) .pure) fun _ => .bind (inodeOf _) fun _ =>
    .ite (.bind (writeBlock _ _) fun _ => flushSub) .pure

end SameTree

theorem nextInode_ok (h : nextInode m = .ok n m') :
    n = m.freeinode ∧ n < 64 ∧ m' = { m with freeinode := m.freeinode + 1 } := by
  replace h := get_then h
  replace h := modify_then h
  split_ifs at h with hfull
  · exact absurd h throw_ok
  · obtain ⟨rfl, rfl⟩ := pure_ok.mp h
    exact ⟨rfl, by simpa only [MAX_DIR_ENTRIES, not_le] using hfull, rfl⟩

/-- The inode that has been taken is initialised. -/
theorem initInode_ok (hn : m.vol.ino n = DView.blank)
    (ht : type < 2 ^ 16) (h : initInode n type m = .ok u m') :
    m' = { m with fileInodes := m'.fileInodes } ∧
      m'.vol = m.vol.setIno n { DView.blank with type := type, nlink := 1 } := by
  obtain rfl := modify_ok.mp h
  refine ⟨rfl, Vol.ext rfl rfl (funext fun j => ?_)⟩
  show (update m.fileInodes n _ j).view = update m.vol.ino n _ j
  by_cases hj : j = n
  · subst hj
    rw [update_self, update_self, Dinode.view_setSize _ (by omega),
      Dinode.view_setNlink _ (by omega), Dinode.view_setType _ ht]
    have hn : (m.fileInodes j).view = DView.blank := hn
    rw [hn]
    rfl
  · rw [update_of_ne hj, update_of_ne hj]
    rfl

/-! ## A whole file -/

/-- Inode `n` and its blocks are the same in both volumes. -/
structure Kept (n : Nat) (V V' : Vol) : Prop where
  ino : V'.ino n = V.ino n
  ptr : ∀ {σ : Slot}, σ.Valid → V'.ptr n σ = V.ptr n σ
  data : ∀ {σ : Slot}, σ.Leaf → V.ptr n σ ≠ 0 → V'.data (V.ptr n σ) = V.data (V.ptr n σ)

/-- Between two states `content` has been stored as inode `n`. -/
structure Stored (n type : Nat) (content : List Byte) (m m' : State) : Prop where
  type : (m'.vol.ino n).type = type
  covered : Covered m'.vol n
  content : m'.vol.content n = content
  /-- Nothing else has changed. -/
  kept : ∀ {j : Nat}, j ≠ n → Kept j m.vol m'.vol
  /-- Its blocks were free. -/
  free : ∀ {σ : Slot}, σ.Valid → m'.vol.ptr n σ ≠ 0 → m.vol.bm (m'.vol.ptr n σ) = false
  /-- They are marked, and no others. -/
  bits : ∀ {b : Nat}, m'.vol.bm b = true ↔
    m.vol.bm b = true ∨ ∃ σ : Slot, σ.Valid ∧ m'.vol.ptr n σ = b ∧ b ≠ 0

/-- What holds between two calls. -/
structure Sane (m : State) : Prop extends Marked m where
  own : Own Region (fun _ => True) m.vol
  /-- An inode that has not been taken is blank. -/
  blank : ∀ {n : Nat}, m.freeinode ≤ n → m.vol.ino n = DView.blank
  /-- A block that has been taken belongs to an inode. -/
  used : ∀ {b : Nat}, 7 ≤ b → b < m.freeblock → ∃ (n : Nat) (σ : Slot), σ.Valid ∧ m.vol.ptr n σ = b

section Whole

variable {content : List Byte}

theorem ptr_blank (h : V.ino n = DView.blank) : ∀ {σ : Slot}, V.ptr n σ = 0
  | .top i => by rw [ptr_top, h]; rfl
  | .ent t i => ptr_ent_of_eq (ptr_blank h)

/-- An inode without blocks gets all the bytes of `content`. -/
theorem stored_of_written {d : DView} (hV : V = m.vol.setIno n d)
    (hd : d.addr = (m.vol.ino n).addr) (hzero : d.size = 0)
    (hempty : ∀ σ : Slot, σ.Valid → m.vol.ptr n σ = 0)
    (hw : Written Region (fun _ => True) n 0 content.length (Buf.ofList content) (fun _ => True)
      V m'.vol)
    (hsize : (m'.vol.ino n).size = content.length) (hle : content.length ≤ maxSize) :
    Stored n d.type content m m' := by
  have hself : V.ino n = d := by rw [hV]; exact update_self ..
  have hptr : ∀ j σ, V.ptr j σ = m.vol.ptr j σ := by
    rw [hV]
    exact ptr_setIno hd
  have hcov : Covered V n := by
    refine ⟨by rw [hself, hzero]; exact Nat.zero_le _, fun {bn} hbn => ?_⟩
    rw [hself, hzero, blocks] at hbn
    omega
  have hmax : (m'.vol.ino n).size = max (V.ino n).size (0 + content.length) := by
    rw [hsize, hself, hzero]
    omega
  refine
    { type := ?_, covered := hw.covered trivial hcov (Nat.zero_le _) (by omega) hmax,
      content := ?_, kept := fun {j} hj => ⟨?_, fun {σ} hσ => ?_, fun {σ} hσ h0 => ?_⟩,
      free := fun {σ} hσ h0 => ?_, bits := fun {b} => ⟨fun hb => ?_, ?_⟩ }
  · rw [hw.same.1, hself]
  · have hnil : V.content n = [] := List.eq_nil_of_length_eq_zero (by
      rw [length_content, hself, hzero])
    rw [hw.content hcov (Nat.zero_le _) hmax, Buf.slice_ofList, hnil]
    simp
  · rw [hw.ino hj, hV]
    exact update_of_ne hj _ _
  · rw [hw.toExtend.ptr_other hj trivial hσ, hptr]
  · have := hw.other hj trivial hσ (by rwa [hptr])
    rw [hptr] at this
    rw [this, hV]
    rfl
  · have := (hw.new trivial hσ (by rw [hptr, hempty σ hσ]) h0).2.2
    rwa [hV] at this
  · have := hw.bits hb
    rwa [hV] at this
  · rintro (hb | ⟨σ, hσ, rfl, h0⟩)
    · exact hw.mark (by rw [hV]; exact hb)
    · exact hw.own.marked trivial hσ h0

/-- The invariant holds again after something has been stored. -/
theorem Stored.sane (hs : Stored n type content m m') (h : Sane m)
    (hempty : ∀ σ : Slot, σ.Valid → m.vol.ptr n σ = 0) (hmark : Marked m')
    (hown : Own Region (fun _ => True) m'.vol) (hle : m.freeinode ≤ m'.freeinode)
    (hlt : n < m'.freeinode) : Sane m' := by
  refine { toMarked := hmark, own := hown, blank := fun {j} hj => ?_, used := fun {b} hlo hb => ?_ }
  · rw [(hs.kept (by omega)).ino]
    exact h.blank (by omega)
  · have hbit : m'.freeBitmap.testBit b = true := by
      rw [hmark.marks]
      exact decide_eq_true hb
    rcases hs.bits.mp hbit with hbit | ⟨σ, hσ, he, -⟩
    · have hbit : m.freeBitmap.testBit b = true := hbit
      rw [h.marks] at hbit
      obtain ⟨j, σ, hσ, he⟩ := h.used hlo (of_decide_eq_true hbit)
      have hj : j ≠ n := by
        rintro rfl
        rw [hempty σ hσ] at he
        omega
      exact ⟨j, σ, hσ, by rw [(hs.kept hj).ptr hσ, he]⟩
    · exact ⟨_, σ, hσ, he⟩

/-- A file is stored. -/
theorem storeFile_ok (h : Sane m) (hx : storeFile junk name content m = .ok n m') :
    n = m.freeinode ∧ n < 64 ∧ m'.freeinode = m.freeinode + 1 ∧ m'.dirs = m.dirs ∧
      Sane m' ∧ Stored n FT_FILE content m m' := by
  obtain ⟨n', m₁, hnext, hx⟩ := bind_ok.mp hx
  obtain ⟨u, m₂, hinit, hx⟩ := bind_ok.mp hx
  obtain ⟨l, m₃, hloop, hx⟩ := bind_ok.mp hx
  obtain ⟨u', m₄, hflush, hx⟩ := bind_ok.mp hx
  obtain ⟨rfl, rfl⟩ := pure_ok.mp hx
  have htree : SameTree m₂ m₄ := trans_of SameTree ((SameTree.fileLoop _).of_ok hloop)
    (SameTree.flush.of_ok hflush)
  obtain ⟨rfl, hlt, hm₁⟩ := nextInode_ok hnext
  have hvol₁ : m₁.vol = m.vol := by rw [hm₁]; rfl
  have hblank : m.vol.ino m.freeinode = DView.blank := h.blank le_rfl
  obtain ⟨hm₂, hvol₂⟩ := initInode_ok (by rw [hvol₁]; exact hblank) (by decide) hinit
  rw [hvol₁] at hvol₂
  have hptr : ∀ j σ, m₂.vol.ptr j σ = m.vol.ptr j σ := by
    rw [hvol₂]
    exact ptr_setIno (by rw [hblank])
  have hempty : ∀ σ : Slot, σ.Valid → m.vol.ptr m.freeinode σ = 0 := fun σ _ => ptr_blank hblank
  have hempty₂ : ∀ σ : Slot, σ.Valid → m₂.vol.ptr m.freeinode σ = 0 := fun σ hσ => by
    rw [hptr, hempty σ hσ]
  have hmark₂ : Marked m₂ := by
    rw [hm₂, hm₁]
    exact ⟨h.low, h.high, h.marks⟩
  have hown₂ : Own Region (fun _ => True) m₂.vol :=
    h.own.congr (fun _ _ => hptr _ _) (by rw [hvol₂]; rfl)
  have hsize₂ : (m₂.vol.ino m.freeinode).size = 0 := by
    rw [hvol₂]
    show (update m.vol.ino m.freeinode _ m.freeinode).size = 0
    rw [update_self]
    rfl
  obtain ⟨V, hfill⟩ := fileLoop_ok hempty₂ le_rfl ⟨.start hmark₂ (.refl hown₂) hempty₂, hsize₂⟩
    (fun _ => rfl) (fun i _ => by rw [Nat.zero_add]) hloop
  rw [Nat.zero_add] at hfill
  obtain ⟨hm₄, hvol₄⟩ := hfill.toStoring.flush hflush
  have hw := hfill.written
  rw [← hvol₄] at hw
  have hle : content.length ≤ maxSize := by
    have h₁ := hfill.le
    rw [hfill.index, blocks] at h₁
    simp only [maxSize]
    omega
  have hmark₄ : Marked m₄ := by
    rw [hm₄]
    exact ⟨hfill.low, hfill.high, hfill.marks⟩
  have hs := stored_of_written hvol₂ (by rw [hblank]) rfl hempty hw
    (by rw [hvol₄, hfill.size]) hle
  have hfree : m₄.freeinode = m.freeinode + 1 := by rw [htree.1, hm₂, hm₁]
  refine ⟨rfl, hlt, hfree, ?_, ?_, hs⟩
  · rw [htree.2, hm₂, hm₁]
  · exact hs.sane h hempty hmark₄ hw.own (by omega) (by omega)

end Whole

end Dmaos.Mkfs
