import Dmaos.Memory.Page

/-!
# Page tables as maps

The hardware finds the page of an address by a walk: the first-level entry names
a second-level table, whose entry names the page.  `map_page` changes the map
from addresses to pages at one page and nowhere else.

The argument needs to know that the tables are different pages, and that none of
them is a page the allocator could give out; `TwoLevel` says that.  `map_page`
works in two steps.  It finds the second-level table, or makes one out of a page
full of zeros, which adds no page to the map.  Then it stores one entry.
-/

namespace Dmaos

open Fault Function

variable {t v va va' a flags t1 i pa e : Nat} {b : Buf} {R : Ram} {m m' : Mem}

/-- The entry for an address in the first-level table at `t1`. -/
def entry1 (b : Buf) (t1 va : Nat) : Nat := b.le32 (t1 + 4 * vpn1 va)

/-- The entry for an address in the second-level table that its first-level
entry names. -/
def entry0 (b : Buf) (t1 va : Nat) : Nat := b.le32 (pteAddr (entry1 b t1 va) + 4 * vpn0 va)

/-- The SV32 walk: the page of an address and its flags. -/
def walk (b : Buf) (t1 va : Nat) : Option (Nat × Nat) :=
  if hasFlag (entry1 b t1 va) PAGE_V ∧ hasFlag (entry0 b t1 va) PAGE_V then
    some (pteAddr (entry0 b t1 va), entry0 b t1 va % 1024)
  else none

/-- The allocator will not give out the page at `a`. -/
def Used (R : Ram) (m : Mem) (a : Nat) : Prop :=
  ∀ i < NUM_PAGES, a = R.page i → m.allocated i = true

/-- A well-formed table with root `t1`: the second-level tables are pages of their
own, and all tables are in use. -/
structure TwoLevel (R : Ram) (m : Mem) (t1 : Nat) : Prop where
  aligned : t1 % PAGE_SIZE = 0
  used : Used R m t1
  /-- No entry of the first level is a leaf. -/
  pointer : ∀ v < 1024, hasFlag (m.ram.le32 (t1 + 4 * v)) PAGE_V →
    hasFlag (m.ram.le32 (t1 + 4 * v)) (PAGE_R ||| PAGE_W ||| PAGE_X) = false
  ne_root : ∀ v < 1024, hasFlag (m.ram.le32 (t1 + 4 * v)) PAGE_V →
    pteAddr (m.ram.le32 (t1 + 4 * v)) ≠ t1
  table_used : ∀ v < 1024, hasFlag (m.ram.le32 (t1 + 4 * v)) PAGE_V →
    Used R m (pteAddr (m.ram.le32 (t1 + 4 * v)))
  distinct : ∀ v < 1024, ∀ w < 1024, hasFlag (m.ram.le32 (t1 + 4 * v)) PAGE_V →
    hasFlag (m.ram.le32 (t1 + 4 * w)) PAGE_V →
    pteAddr (m.ram.le32 (t1 + 4 * v)) = pteAddr (m.ram.le32 (t1 + 4 * w)) → v = w

/-! ## Indices and words -/

section Words

variable {t' v' : Nat}

theorem vpn1_lt (va : Nat) : vpn1 va < 1024 := Nat.mod_lt _ (by decide)

theorem vpn0_lt (va : Nat) : vpn0 va < 1024 := Nat.mod_lt _ (by decide)

/-- The two indices tell the pages apart. -/
theorem vpn_ne (h : va < 2 ^ 32) (h' : va' < 2 ^ 32)
    (hne : va' / PAGE_SIZE ≠ va / PAGE_SIZE) (h1 : vpn1 va' = vpn1 va) : vpn0 va' ≠ vpn0 va := by
  simp only [vpn1, vpn0, PAGE_SIZE] at *
  omega

theorem pteAddr_mod (e : Nat) : pteAddr e % PAGE_SIZE = 0 := by
  simp only [pteAddr, PAGE_SIZE]
  omega

/-- Words of different pages, or at different places in one, do not overlap. -/
theorem words_disjoint (ht : t % PAGE_SIZE = 0) (ht' : t' % PAGE_SIZE = 0) (hv : v < 1024)
    (hv' : v' < 1024) (hne : t ≠ t' ∨ v ≠ v') :
    t' + 4 * v' + 4 ≤ t + 4 * v ∨ t + 4 * v + 4 ≤ t' + 4 * v' := by
  simp only [PAGE_SIZE] at ht ht'
  omega

theorem le32_put32_of_ne {w : Nat} (ht : t % PAGE_SIZE = 0) (ht' : t' % PAGE_SIZE = 0)
    (hv : v < 1024) (hv' : v' < 1024) (hne : t ≠ t' ∨ v ≠ v') :
    (b.put32 (t' + 4 * v') w).le32 (t + 4 * v) = b.le32 (t + 4 * v) :=
  Buf.le32_put32_of_disjoint (words_disjoint ht ht' hv hv' hne)

/-- The words of a page full of zeros. -/
theorem le32_cleared (hv : v < 1024) : (b.copy t Buf.zero PAGE_SIZE).le32 (t + 4 * v) = 0 := by
  have hzero : (b.copy t Buf.zero PAGE_SIZE).le32 (t + 4 * v) = Buf.zero.le32 (t + 4 * v) := by
    refine Buf.le32_congr fun k hk => ?_
    rw [Buf.copy_of_mem]
    · rfl
    · simp only [PAGE_SIZE]
      omega
  rw [hzero, Buf.le32_zero]

/-- The words of the other pages. -/
theorem le32_cleared_of_ne (ht : t % PAGE_SIZE = 0) (ht' : t' % PAGE_SIZE = 0)
    (hv : v < 1024) (hne : t ≠ t') :
    (b.copy t' Buf.zero PAGE_SIZE).le32 (t + 4 * v) = b.le32 (t + 4 * v) := by
  refine Buf.le32_congr fun k hk => Buf.copy_of_not_mem ?_
  simp only [PAGE_SIZE] at *
  omega

/-- An entry that names a table is not a leaf. -/
theorem hasFlag_pte_pointer (a : Nat) :
    hasFlag (pte a 0) (PAGE_R ||| PAGE_W ||| PAGE_X) = false := by
  have hlow : pte a 0 % 2 ^ 4 = 1 := by
    rw [pte_eq a (by decide), Nat.zero_or]
    omega
  have hand : pte a 0 &&& 14 = (pte a 0 &&& 14) % 2 ^ 4 := by
    have hle : pte a 0 &&& 14 ≤ 14 := Nat.and_le_right
    omega
  rw [Nat.and_mod_two_pow, hlow] at hand
  simp [hasFlag, PAGE_R, PAGE_W, PAGE_X, hand]

theorem pte_mod (hf : flags < 1024) : pte a flags % 1024 = flags ||| PAGE_V := by
  have hor : flags ||| 1 < 2 ^ 10 := Nat.or_lt_two_pow hf (by decide)
  rw [pte_eq a hf, PAGE_V]
  omega

end Words

/-! ## Looking an address up -/

section Walks

theorem walk_congr {c : Buf} (h1 : entry1 c t1 va = entry1 b t1 va)
    (h0 : hasFlag (entry1 b t1 va) PAGE_V = true → entry0 c t1 va = entry0 b t1 va) :
    walk c t1 va = walk b t1 va := by
  cases hv : hasFlag (entry1 b t1 va) PAGE_V with
  | true => simp only [walk, h1, h0 hv]
  | false => simp [walk, h1, hv]

theorem walk_none (h : hasFlag (entry1 b t1 va) PAGE_V = false) : walk b t1 va = none := by
  simp [walk, h]

/-- A page in use is not the next one to be given out. -/
theorem Used.ne (h : Used R m a) (hi : i < NUM_PAGES) (hfree : m.allocated i = false) :
    a ≠ R.page i := by
  intro ha
  rw [h i hi ha] at hfree
  cases hfree

theorem Used.take (h : Used R m a) (i : Nat) : Used R (m.take R i) a := by
  intro j hj ha
  cases Decidable.em (j = i) with
  | inl hji => simp [Mem.take, hji]
  | inr hji => simp [Mem.take, hji, h j hj ha]

theorem Used.taken (i : Nat) : Used R (m.take R i) (R.page i) := by
  intro j _ ha
  have hij : i = j := Ram.page_inj ha
  simp [Mem.take, hij]

theorem Used.of_allocated (h : Used R m a) (hall : m'.allocated = m.allocated) : Used R m' a := by
  intro i hi ha
  rw [hall]
  exact h i hi ha

namespace TwoLevel

theorem valid_entry1 (h : TwoLevel R m t1) (hv : hasFlag (entry1 m.ram t1 va) PAGE_V = true) :
    pteAddr (entry1 m.ram t1 va) ≠ t1 := h.ne_root _ (vpn1_lt va) hv

/-- The words of the tables are the same, so the table is as good as before. -/
theorem of_root (h : TwoLevel R m t1)
    (hroot : ∀ v < 1024, m'.ram.le32 (t1 + 4 * v) = m.ram.le32 (t1 + 4 * v))
    (hall : ∀ a, Used R m a → Used R m' a) : TwoLevel R m' t1 where
  aligned := h.aligned
  used := hall _ h.used
  pointer v hv := by
    rw [hroot v hv]
    exact h.pointer v hv
  ne_root v hv := by
    rw [hroot v hv]
    exact h.ne_root v hv
  table_used v hv := by
    rw [hroot v hv]
    exact fun hval => hall _ (h.table_used v hv hval)
  distinct v hv w hw := by
    rw [hroot v hv, hroot w hw]
    exact h.distinct v hv w hw

end TwoLevel

end Walks

/-! ## Finding the second-level table -/

section TableFor

/-- The memory after page `i` has been made the second-level table for `va`. -/
def Mem.addTable (m : Mem) (R : Ram) (t1 va i : Nat) : Mem :=
  { m.take R i with
    ram := (m.take R i).ram.put32 (t1 + 4 * vpn1 va) (pte (R.page i) 0) }

/-- A table that is missing is made out of the page the allocator gives out. -/
theorem tableFor_new (hv : hasFlag (entry1 m.ram t1 va) PAGE_V = false) (hi : i < NUM_PAGES)
    (halloc : allocPages R 1 m = .ok (R.page i) (m.take R i)) :
    tableFor R t1 va m = .ok (R.page i) (m.addTable R t1 va i) := by
  have hload : load (t1 + 4 * vpn1 va) m = .ok (entry1 m.ram t1 va) m := rfl
  have haddr : pteAddr (((m.take R i).ram.put32 (t1 + 4 * vpn1 va) (pte (R.page i) 0)).le32
      (t1 + 4 * vpn1 va)) = R.page i := by
    rw [Buf.le32_put32, Nat.mod_eq_of_lt (pte_lt (Ram.page_lt_word hi) (by decide)),
      pteAddr_pte (Ram.page_lt_word hi) (R.page_mod i) (by decide)]
  rw [tableFor, run_bind hload, hv, if_neg (by decide), run_bind halloc]
  simp only [store, load, Mem.addTable, bind, EStateM.bind, pure, EStateM.pure, haddr]

/-- The two ways to find the table, and the one in which there is none. -/
theorem tableFor_cases (R : Ram) (m : Mem) (t1 va : Nat) :
    (hasFlag (entry1 m.ram t1 va) PAGE_V = true ∧
      tableFor R t1 va m = .ok (pteAddr (entry1 m.ram t1 va)) m) ∨
    (hasFlag (entry1 m.ram t1 va) PAGE_V = false ∧ ∃ i < NUM_PAGES, m.allocated i = false ∧
      tableFor R t1 va m = .ok (R.page i) (m.addTable R t1 va i)) ∨
    (hasFlag (entry1 m.ram t1 va) PAGE_V = false ∧ (∀ i < NUM_PAGES, m.allocated i = true) ∧
      tableFor R t1 va m = .error (.pages 1) m) := by
  have hload : load (t1 + 4 * vpn1 va) m = .ok (entry1 m.ram t1 va) m := rfl
  cases hv : hasFlag (entry1 m.ram t1 va) PAGE_V with
  | true =>
      refine .inl ⟨rfl, ?_⟩
      rw [tableFor, run_bind hload, hv]
      rfl
  | false =>
      refine .inr ?_
      rcases allocPages_one_cases R m with ⟨i, hi, hfree, -, halloc⟩ | ⟨hall, halloc⟩
      · exact .inl ⟨rfl, i, hi, hfree, tableFor_new hv hi halloc⟩
      · refine .inr ⟨rfl, hall, ?_⟩
        rw [tableFor, run_bind hload, hv, if_neg (by decide), run_bind_error halloc]

theorem addTable_root_self (hi : i < NUM_PAGES) :
    (m.addTable R t1 va i).ram.le32 (t1 + 4 * vpn1 va) = pte (R.page i) 0 := by
  rw [Mem.addTable, Buf.le32_put32, Nat.mod_eq_of_lt (pte_lt (Ram.page_lt_word hi) (by decide))]

/-- The other words of the tables stay. -/
theorem addTable_word (h1 : t1 % PAGE_SIZE = 0) (ht : t % PAGE_SIZE = 0) (hv : v < 1024)
    (hpage : t ≠ R.page i) (hne : t ≠ t1 ∨ v ≠ vpn1 va) :
    (m.addTable R t1 va i).ram.le32 (t + 4 * v) = m.ram.le32 (t + 4 * v) := by
  rw [Mem.addTable, le32_put32_of_ne ht h1 hv (vpn1_lt va) hne]
  exact le32_cleared_of_ne ht (R.page_mod i) hv hpage

/-- The new table is empty. -/
theorem addTable_new (h1 : t1 % PAGE_SIZE = 0) (hv : v < 1024) (hpage : t1 ≠ R.page i) :
    (m.addTable R t1 va i).ram.le32 (R.page i + 4 * v) = 0 := by
  rw [Mem.addTable, le32_put32_of_ne (R.page_mod i) h1 hv (vpn1_lt va) (.inl hpage.symm)]
  exact le32_cleared hv

/-- What stands in the root after a table has been added. -/
theorem addTable_root (h : TwoLevel R m t1) (hi : i < NUM_PAGES) (hfree : m.allocated i = false)
    (hv : v < 1024) :
    (m.addTable R t1 va i).ram.le32 (t1 + 4 * v)
      = if v = vpn1 va then pte (R.page i) 0 else m.ram.le32 (t1 + 4 * v) := by
  split
  case isTrue heq => rw [heq, addTable_root_self hi]
  case isFalse hne => exact addTable_word h.aligned h.aligned hv (h.used.ne hi hfree) (.inr hne)

theorem TwoLevel.addTable (h : TwoLevel R m t1) (hi : i < NUM_PAGES)
    (hfree : m.allocated i = false) : TwoLevel R (m.addTable R t1 va i) t1 where
  aligned := h.aligned
  used := h.used.take i
  pointer v hv := by
    rw [addTable_root h hi hfree hv]
    split
    · exact fun _ => hasFlag_pte_pointer _
    · exact h.pointer v hv
  ne_root v hv := by
    rw [addTable_root h hi hfree hv]
    split
    · rw [pteAddr_pte (Ram.page_lt_word hi) (R.page_mod i) (by decide)]
      exact fun _ => (h.used.ne hi hfree).symm
    · exact h.ne_root v hv
  table_used v hv := by
    rw [addTable_root h hi hfree hv]
    split
    · rw [pteAddr_pte (Ram.page_lt_word hi) (R.page_mod i) (by decide)]
      exact fun _ => Used.taken i
    · exact fun hval => (h.table_used v hv hval).take i
  distinct v hv w hw := by
    rw [addTable_root h hi hfree hv, addTable_root h hi hfree hw]
    -- the new table is a page that was free, the others were in use
    split <;> split
    · rename_i hv' hw'
      exact fun _ _ _ => hv'.trans hw'.symm
    · rw [pteAddr_pte (Ram.page_lt_word hi) (R.page_mod i) (by decide)]
      exact fun _ hval heq => absurd heq.symm ((h.table_used w hw hval).ne hi hfree)
    · rw [pteAddr_pte (Ram.page_lt_word hi) (R.page_mod i) (by decide)]
      exact fun hval _ heq => absurd heq ((h.table_used v hv hval).ne hi hfree)
    · exact h.distinct v hv w hw

/-- A new table maps nothing. -/
theorem walk_addTable (h : TwoLevel R m t1) (hi : i < NUM_PAGES) (hfree : m.allocated i = false)
    (hval : hasFlag (entry1 m.ram t1 va) PAGE_V = false) (va' : Nat) :
    walk (m.addTable R t1 va i).ram t1 va' = walk m.ram t1 va' := by
  have hroot : entry1 (m.addTable R t1 va i).ram t1 va'
      = if vpn1 va' = vpn1 va then pte (R.page i) 0 else entry1 m.ram t1 va' :=
    addTable_root h hi hfree (vpn1_lt va')
  cases Decidable.em (vpn1 va' = vpn1 va) with
  | inl heq =>
      rw [if_pos heq] at hroot
      have hold : hasFlag (entry1 m.ram t1 va') PAGE_V = false := by
        rw [entry1, heq]
        exact hval
      have hnew : entry0 (m.addTable R t1 va i).ram t1 va' = 0 := by
        rw [entry0, hroot, pteAddr_pte (Ram.page_lt_word hi) (R.page_mod i) (by decide)]
        exact addTable_new h.aligned (vpn0_lt va') (h.used.ne hi hfree)
      rw [walk_none hold, walk, hnew]
      simp
  | inr hne =>
      rw [if_neg hne] at hroot
      refine walk_congr hroot fun hvalid => ?_
      rw [entry0, entry0, hroot]
      exact addTable_word h.aligned (pteAddr_mod _) (vpn0_lt va')
        ((h.table_used _ (vpn1_lt va') hvalid).ne hi hfree) (.inl (h.valid_entry1 hvalid))

end TableFor

/-! ## Storing the entry -/

section Store

/-- The memory after the entry for `va` has been stored in its second-level table. -/
def Mem.setEntry (m : Mem) (t1 va e : Nat) : Mem :=
  { m with ram := m.ram.put32 (pteAddr (entry1 m.ram t1 va) + 4 * vpn0 va) e }

theorem setEntry_root (h : TwoLevel R m t1) (hval : hasFlag (entry1 m.ram t1 va) PAGE_V = true)
    (hv : v < 1024) : (m.setEntry t1 va e).ram.le32 (t1 + 4 * v) = m.ram.le32 (t1 + 4 * v) :=
  le32_put32_of_ne h.aligned (pteAddr_mod _) hv (vpn0_lt va) (.inl (h.valid_entry1 hval).symm)

theorem TwoLevel.setEntry (h : TwoLevel R m t1)
    (hval : hasFlag (entry1 m.ram t1 va) PAGE_V = true) (e : Nat) :
    TwoLevel R (m.setEntry t1 va e) t1 :=
  h.of_root (fun _ hv => setEntry_root h hval hv) fun _ hused => hused.of_allocated rfl

theorem entry1_setEntry (h : TwoLevel R m t1) (hval : hasFlag (entry1 m.ram t1 va) PAGE_V = true)
    (e va' : Nat) : entry1 (m.setEntry t1 va e).ram t1 va' = entry1 m.ram t1 va' :=
  setEntry_root h hval (vpn1_lt va')

theorem entry0_setEntry_self (h : TwoLevel R m t1)
    (hval : hasFlag (entry1 m.ram t1 va) PAGE_V = true) (he : e < 2 ^ 32) :
    entry0 (m.setEntry t1 va e).ram t1 va = e := by
  rw [entry0, entry1_setEntry h hval, Mem.setEntry, Buf.le32_put32, Nat.mod_eq_of_lt he]

/-- The entries of the other pages stay: they stand in another table, or elsewhere
in this one. -/
theorem entry0_setEntry_of_ne (h : TwoLevel R m t1)
    (hval : hasFlag (entry1 m.ram t1 va) PAGE_V = true)
    (hval' : hasFlag (entry1 m.ram t1 va') PAGE_V = true)
    (hne : vpn1 va' = vpn1 va → vpn0 va' ≠ vpn0 va) :
    entry0 (m.setEntry t1 va e).ram t1 va' = entry0 m.ram t1 va' := by
  rw [entry0, entry1_setEntry h hval, Mem.setEntry]
  refine le32_put32_of_ne (pteAddr_mod _) (pteAddr_mod _) (vpn0_lt va') (vpn0_lt va) ?_
  cases Decidable.em (vpn1 va' = vpn1 va) with
  | inl heq => exact .inr (hne heq)
  | inr hne1 =>
      refine .inl fun heq => hne1 ?_
      exact h.distinct _ (vpn1_lt va') _ (vpn1_lt va) hval' hval heq

theorem walk_setEntry_self (h : TwoLevel R m t1)
    (hval : hasFlag (entry1 m.ram t1 va) PAGE_V = true) (hpa : pa < 2 ^ 32)
    (hpa' : pa % PAGE_SIZE = 0) (hf : flags < 1024) :
    walk (m.setEntry t1 va (pte pa flags)).ram t1 va = some (pa, flags ||| PAGE_V) := by
  rw [walk, entry1_setEntry h hval, entry0_setEntry_self h hval (pte_lt hpa hf), hval,
    hasFlag_pte_valid, pteAddr_pte hpa hpa' hf, pte_mod hf]
  rfl

theorem walk_setEntry_of_ne (h : TwoLevel R m t1)
    (hval : hasFlag (entry1 m.ram t1 va) PAGE_V = true)
    (hne : vpn1 va' = vpn1 va → vpn0 va' ≠ vpn0 va) :
    walk (m.setEntry t1 va e).ram t1 va' = walk m.ram t1 va' :=
  walk_congr (entry1_setEntry h hval e va') fun hval' => entry0_setEntry_of_ne h hval hval' hne

end Store

/-! ## Mapping a page -/

section MapPage

theorem mapPage_of_table (hva : va % PAGE_SIZE = 0) (hpa : pa % PAGE_SIZE = 0)
    (hi : i < NUM_PAGES) (ht : tableFor R t1 va m = .ok (R.page i) (m.addTable R t1 va i)) :
    mapPage R t1 va pa flags m = .ok () ((m.addTable R t1 va i).setEntry t1 va (pte pa flags)) := by
  rw [mapPage, if_neg (by simp [hva]), if_neg (by simp [hpa]), run_bind ht, Mem.setEntry, entry1,
    addTable_root_self hi, pteAddr_pte (Ram.page_lt_word hi) (R.page_mod i) (by decide)]
  rfl

/-- `map_page` takes its two steps, or finds no page for the table. -/
theorem mapPage_cases (R : Ram) (m : Mem) (t1 : Nat) (hva : va % PAGE_SIZE = 0)
    (hpa : pa % PAGE_SIZE = 0) (flags : Nat) :
    (hasFlag (entry1 m.ram t1 va) PAGE_V = true ∧
      mapPage R t1 va pa flags m = .ok () (m.setEntry t1 va (pte pa flags))) ∨
    (hasFlag (entry1 m.ram t1 va) PAGE_V = false ∧ ∃ i < NUM_PAGES, m.allocated i = false ∧
      mapPage R t1 va pa flags m
        = .ok () ((m.addTable R t1 va i).setEntry t1 va (pte pa flags))) ∨
    (hasFlag (entry1 m.ram t1 va) PAGE_V = false ∧ (∀ i < NUM_PAGES, m.allocated i = true) ∧
      mapPage R t1 va pa flags m = .error (.pages 1) m) := by
  rcases tableFor_cases R m t1 va with ⟨hv, ht⟩ | ⟨hv, i, hi, hfree, ht⟩ | ⟨hv, hall, ht⟩
  · refine .inl ⟨hv, ?_⟩
    rw [mapPage, if_neg (by simp [hva]), if_neg (by simp [hpa]), run_bind ht]
    rfl
  · exact .inr (.inl ⟨hv, i, hi, hfree, mapPage_of_table hva hpa hi ht⟩)
  · refine .inr (.inr ⟨hv, hall, ?_⟩)
    rw [mapPage, if_neg (by simp [hva]), if_neg (by simp [hpa]), run_bind_error ht]

/-- The map of the table at `t1` has been changed at the page of `va` only. -/
structure Remapped (R : Ram) (t1 va pa flags : Nat) (m m' : Mem) : Prop where
  here : walk m'.ram t1 va = some (pa, flags ||| PAGE_V)
  elsewhere : ∀ va' < 2 ^ 32, va' / PAGE_SIZE ≠ va / PAGE_SIZE →
    walk m'.ram t1 va' = walk m.ram t1 va'
  table : TwoLevel R m' t1

theorem Remapped.of_valid (h : TwoLevel R m t1) (hval : hasFlag (entry1 m.ram t1 va) PAGE_V = true)
    (hva : va < 2 ^ 32) (hpa : pa < 2 ^ 32) (hpa' : pa % PAGE_SIZE = 0) (hf : flags < 1024) :
    Remapped R t1 va pa flags m (m.setEntry t1 va (pte pa flags)) where
  here := walk_setEntry_self h hval hpa hpa' hf
  elsewhere _ hva' hne := walk_setEntry_of_ne h hval (vpn_ne hva hva' hne)
  table := h.setEntry hval _

theorem Remapped.of_new (h : TwoLevel R m t1)
    (hval : hasFlag (entry1 m.ram t1 va) PAGE_V = false) (hi : i < NUM_PAGES)
    (hfree : m.allocated i = false) (hva : va < 2 ^ 32) (hpa : pa < 2 ^ 32)
    (hpa' : pa % PAGE_SIZE = 0) (hf : flags < 1024) :
    Remapped R t1 va pa flags m ((m.addTable R t1 va i).setEntry t1 va (pte pa flags)) := by
  have hval' : hasFlag (entry1 (m.addTable R t1 va i).ram t1 va) PAGE_V = true := by
    rw [entry1, addTable_root_self hi, hasFlag_pte_valid]
  have htable : TwoLevel R (m.addTable R t1 va i) t1 := h.addTable hi hfree
  have hmap := Remapped.of_valid htable hval' hva hpa hpa' hf
  refine ⟨hmap.here, fun va' hva' hne => ?_, hmap.table⟩
  rw [hmap.elsewhere va' hva' hne, walk_addTable h hi hfree hval]

/-- `map_page` is the update of a map at one page.  A page is taken for a table
exactly when there is none for the address, and there is no other way to stop than
that no page is left for it. -/
theorem mapPage_remaps (h : TwoLevel R m t1) (hva : va < 2 ^ 32) (hva' : va % PAGE_SIZE = 0)
    (hpa : pa < 2 ^ 32) (hpa' : pa % PAGE_SIZE = 0) (hf : flags < 2 ^ 10) :
    (hasFlag (entry1 m.ram t1 va) PAGE_V = true ∧ ∃ m', mapPage R t1 va pa flags m = .ok () m' ∧
      Remapped R t1 va pa flags m m' ∧ m'.allocated = m.allocated) ∨
    (hasFlag (entry1 m.ram t1 va) PAGE_V = false ∧ ∃ m', mapPage R t1 va pa flags m = .ok () m' ∧
      Remapped R t1 va pa flags m m' ∧ ∃ i < NUM_PAGES, m.allocated i = false ∧
        m'.allocated = update m.allocated i true) ∨
    (hasFlag (entry1 m.ram t1 va) PAGE_V = false ∧ (∀ i < NUM_PAGES, m.allocated i = true) ∧
      mapPage R t1 va pa flags m = .error (.pages 1) m) := by
  rcases mapPage_cases R m t1 hva' hpa' flags with ⟨hv, hrun⟩ | ⟨hv, i, hi, hfree, hrun⟩ | hnone
  · exact .inl ⟨hv, _, hrun, .of_valid h hv hva hpa hpa' hf, rfl⟩
  · exact .inr (.inl ⟨hv, _, hrun, .of_new h hv hi hfree hva hpa hpa' hf, i, hi, hfree, rfl⟩)
  · exact .inr (.inr hnone)

/-- A root without entries. -/
theorem TwoLevel.empty (h1 : t1 % PAGE_SIZE = 0) (hused : Used R m t1)
    (hzero : ∀ v < 1024, m.ram.le32 (t1 + 4 * v) = 0) : TwoLevel R m t1 where
  aligned := h1
  used := hused
  pointer v hv := by simp [hzero v hv]
  ne_root v hv := by simp [hzero v hv]
  table_used v hv := by simp [hzero v hv]
  distinct v hv w hw := by simp [hzero v hv]

/-- The memory after a kernel of one megabyte. -/
def Ram.megabyte : Ram where
  start := 0x80300000
  aligned := by decide
  base_le := by decide
  fits := by decide

/-- Memory full of zeros, of which the first page has been given out. -/
def Mem.fresh : Mem where
  ram := Buf.zero
  allocated i := i == 0

theorem Mem.fresh_twoLevel : TwoLevel Ram.megabyte Mem.fresh (Ram.megabyte.page 0) := by
  refine TwoLevel.empty (Ram.page_mod _ 0) (fun i _ h => ?_) fun _ _ => Buf.le32_zero _
  have hi : 0 = i := Ram.page_inj h
  simp [Mem.fresh, hi]

/-- The first page of a program is mapped in an empty table, which takes a page for a
second-level table, and then the next page, which does not. -/
theorem mapPage_remaps_fresh : ∃ m₁ m₂,
    mapPage Ram.megabyte (Ram.megabyte.page 0) 0x1000000 0x80310000 PAGE_U Mem.fresh = .ok () m₁ ∧
    mapPage Ram.megabyte (Ram.megabyte.page 0) 0x1001000 0x80311000 PAGE_R m₁ = .ok () m₂ ∧
    m₁.allocated ≠ Mem.fresh.allocated ∧ m₂.allocated = m₁.allocated ∧
    walk m₂.ram (Ram.megabyte.page 0) 0x1000000 = some (0x80310000, PAGE_U ||| PAGE_V) ∧
    walk m₂.ram (Ram.megabyte.page 0) 0x1001000 = some (0x80311000, PAGE_R ||| PAGE_V) := by
  have hfirst : hasFlag (entry1 Mem.fresh.ram (Ram.megabyte.page 0) 0x1000000) PAGE_V = false := by
    rw [entry1, Mem.fresh, Buf.le32_zero]
    rfl
  obtain ⟨hv, -⟩ | ⟨-, m₁, hrun₁, hmap₁, i, hi, hfree, hall₁⟩ | ⟨-, hall, -⟩ :=
    mapPage_remaps Mem.fresh_twoLevel (show 0x1000000 < 2 ^ 32 by decide) (by decide)
      (show 0x80310000 < 2 ^ 32 by decide) (by decide) (show PAGE_U < 2 ^ 10 by decide)
  · exact absurd hv (by rw [hfirst]; decide)
  · -- both pages are in the part of the first second-level table
    have hsecond : hasFlag (entry1 m₁.ram (Ram.megabyte.page 0) 0x1001000) PAGE_V = true := by
      have hwalk := hmap₁.here
      rw [walk] at hwalk
      exact (Option.ite_none_right_eq_some.mp hwalk).1.1
    obtain ⟨-, m₂, hrun₂, hmap₂, hall₂⟩ | ⟨hv, -⟩ | ⟨hv, -⟩ :=
      mapPage_remaps hmap₁.table (show 0x1001000 < 2 ^ 32 by decide) (by decide)
        (show 0x80311000 < 2 ^ 32 by decide) (by decide) (show PAGE_R < 2 ^ 10 by decide)
    · refine ⟨m₁, m₂, hrun₁, hrun₂, fun heq => ?_, hall₂, ?_, hmap₂.here⟩
      · rw [hall₁, ← update_eq_self i Mem.fresh.allocated] at heq
        simpa [hfree] using congrFun heq i
      · rw [hmap₂.elsewhere _ (by decide) (by decide), hmap₁.here]
    · exact absurd hsecond (by rw [hv]; decide)
    · exact absurd hsecond (by rw [hv]; decide)
  · exact absurd (hall 1 (by decide)) (by decide)

end MapPage

end Dmaos
