import Mathlib.Tactic.Common
import Mathlib.Data.List.Basic
import Mathlib.Data.List.GetD
import Mathlib.Algebra.Group.Nat.Defs
import Mathlib.Algebra.Group.Int.Defs

/-!
# Byte buffers

A buffer is the memory from some address on, byte by byte.  The size of a
buffer is not part of the type: every access in a program has its own bound.
Numbers are stored little-endian, as `le16` and `le32` read them.

A bit map is a buffer of which byte `b / 8` holds bit `b` at position `b % 8`.
-/

/-- One byte of memory. -/
abbrev Byte := BitVec 8

/-- The bytes from an address on. -/
abbrev Buf := Nat → Byte

namespace Buf

variable {dst src b c : Buf} {off n i o v p : Nat}

/-! ## Copying -/

/-- A buffer of zeros. -/
def zero : Buf := fun _ => 0

/-- `n` bytes of `src` stored in `dst` from offset `off` on. -/
def copy (dst : Buf) (off : Nat) (src : Buf) (n : Nat) : Buf :=
  fun i => if off ≤ i ∧ i < off + n then src (i - off) else dst i

/-- The bytes from offset `off` on. -/
def drop (b : Buf) (off : Nat) : Buf := fun i => b (off + i)

/-- The `n` bytes from offset `off` on. -/
def slice (b : Buf) (off n : Nat) : List Byte :=
  (List.range n).map fun i => b (off + i)

/-- The bytes of a list, followed by zeros. -/
def ofList (l : List Byte) : Buf := fun i => l.getD i 0

theorem copy_of_mem (h : off ≤ i ∧ i < off + n) :
    copy dst off src n i = src (i - off) := if_pos h

theorem copy_of_not_mem (h : ¬ (off ≤ i ∧ i < off + n)) :
    copy dst off src n i = dst i := if_neg h

theorem drop_drop (b : Buf) (off k : Nat) : (b.drop off).drop k = b.drop (off + k) :=
  funext fun i => congrArg b (Nat.add_assoc off k i).symm

theorem drop_zero (b : Buf) : b.drop 0 = b := funext fun i => congrArg b (Nat.zero_add i)

theorem ofList_append_of_lt {l l' : List Byte} (h : i < l.length) :
    ofList (l ++ l') i = ofList l i := by
  simp [ofList, List.getD_eq_getElem?_getD, List.getElem?_append_left h]

theorem drop_ofList_append (l l' : List Byte) : (ofList (l ++ l')).drop l.length = ofList l' := by
  funext i
  simp only [ofList, drop, List.getD_eq_getElem?_getD]
  rw [List.getElem?_append_right (Nat.le_add_right _ _), Nat.add_sub_cancel_left]

theorem ofList_drop (l : List Byte) (n i : Nat) : ofList (l.drop n) i = ofList l (n + i) := by
  simp only [ofList, List.getD_eq_getElem?_getD, List.getElem?_drop]

theorem copy_congr {src' : Buf} (h : ∀ i < n, src i = src' i) :
    copy dst off src n = copy dst off src' n := by
  funext i
  unfold copy
  split_ifs with hi
  · exact h _ (by omega)
  · rfl

/-- Bytes can be stored in two steps. -/
theorem copy_copy (dst src : Buf) (off m k : Nat) :
    (copy dst off src m).copy (off + m) (src.drop m) k = copy dst off src (m + k) := by
  funext i
  simp only [copy, drop]
  split_ifs with h1 h2 h3 h4
  · exact congrArg src (by omega)
  · omega
  · rfl
  · omega
  · omega
  · rfl

@[simp] theorem length_slice (b : Buf) (off n : Nat) : (b.slice off n).length = n := by
  simp [slice]

theorem slice_ofList (l : List Byte) : (ofList l).slice 0 l.length = l := by
  apply List.ext_getElem
  · simp
  · intro i h₁ h₂
    simp only [slice, List.getElem_map, List.getElem_range, Nat.zero_add, ofList]
    exact List.getD_eq_getElem _ _ h₂

theorem slice_append (b : Buf) (off n m : Nat) :
    b.slice off (n + m) = b.slice off n ++ b.slice (off + n) m := by
  simp only [slice, List.range_add, List.map_append, List.map_map]
  congr 1
  apply List.map_congr_left
  intro i _
  simp [Nat.add_assoc]

theorem slice_congr (h : ∀ i < n, b (off + i) = c (off + i)) : b.slice off n = c.slice off n := by
  apply List.map_congr_left
  intro i hi
  exact h i (List.mem_range.mp hi)

/-! ## Numbers -/

/-- The 16-bit number stored at offset `o`. -/
def le16 (b : Buf) (o : Nat) : Nat := (b o).toNat + 256 * (b (o + 1)).toNat

/-- The 32-bit number stored at offset `o`. -/
def le32 (b : Buf) (o : Nat) : Nat := b.le16 o + 65536 * b.le16 (o + 2)

/-- Store the low 16 bits of `v` at offset `o`. -/
def put16 (b : Buf) (o v : Nat) : Buf := fun i =>
  if i = o then BitVec.ofNat 8 v
  else if i = o + 1 then BitVec.ofNat 8 (v / 256)
  else b i

/-- Store the low 32 bits of `v` at offset `o`. -/
def put32 (b : Buf) (o v : Nat) : Buf :=
  (b.put16 o v).put16 (o + 2) (v / 65536)

theorem le16_lt (b : Buf) (o : Nat) : b.le16 o < 2 ^ 16 := by
  have h0 := (b o).isLt
  have h1 := (b (o + 1)).isLt
  unfold le16
  omega

theorem le32_lt (b : Buf) (o : Nat) : b.le32 o < 2 ^ 32 := by
  have h0 := b.le16_lt o
  have h1 := b.le16_lt (o + 2)
  unfold le32
  omega

@[simp] theorem le16_zero (o : Nat) : zero.le16 o = 0 := rfl

@[simp] theorem le32_zero (o : Nat) : zero.le32 o = 0 := rfl

theorem le16_put16 (b : Buf) (o v : Nat) : (b.put16 o v).le16 o = v % 2 ^ 16 := by
  simp only [le16, put16, if_true, Nat.succ_ne_self, if_false, BitVec.toNat_ofNat]
  omega

theorem put16_of_ne (h0 : i ≠ o) (h1 : i ≠ o + 1) : b.put16 o v i = b i := by
  simp [put16, h0, h1]

theorem le16_congr (h0 : b o = c o) (h1 : b (o + 1) = c (o + 1)) : b.le16 o = c.le16 o := by
  simp [le16, h0, h1]

theorem le32_congr (h : ∀ i < 4, b (o + i) = c (o + i)) : b.le32 o = c.le32 o := by
  have h0 : b.le16 o = c.le16 o := le16_congr (h 0 (by omega)) (h 1 (by omega))
  have h2 : b.le16 (o + 2) = c.le16 (o + 2) := le16_congr (h 2 (by omega)) (h 3 (by omega))
  simp [le32, h0, h2]

theorem le16_put16_of_disjoint (h : p + 2 ≤ o ∨ o + 2 ≤ p) : (b.put16 p v).le16 o = b.le16 o :=
  le16_congr (put16_of_ne (by omega) (by omega)) (put16_of_ne (by omega) (by omega))

theorem le32_put32 (b : Buf) (o v : Nat) : (b.put32 o v).le32 o = v % 2 ^ 32 := by
  unfold put32 le32
  rw [le16_put16_of_disjoint (by omega), le16_put16, le16_put16]
  omega

theorem put32_of_not_mem (h : i < o ∨ o + 4 ≤ i) : b.put32 o v i = b i := by
  unfold put32
  rw [put16_of_ne (by omega) (by omega), put16_of_ne (by omega) (by omega)]

/-- A byte after a store depends on the byte before only outside the four bytes
stored. -/
theorem put32_agree (h : i < o ∨ o + 4 ≤ i → b i = c i) : b.put32 o v i = c.put32 o v i := by
  simp only [put32, put16]
  split_ifs with h1 h2 h3 h4
  · rfl
  · rfl
  · rfl
  · rfl
  · exact h (by omega)

theorem le32_put32_of_disjoint (h : p + 4 ≤ o ∨ o + 4 ≤ p) : (b.put32 p v).le32 o = b.le32 o :=
  le32_congr fun i hi => put32_of_not_mem (by omega)

theorem le16_put32_of_disjoint (h : p + 4 ≤ o ∨ o + 2 ≤ p) : (b.put32 p v).le16 o = b.le16 o :=
  le16_congr (put32_of_not_mem (by omega)) (put32_of_not_mem (by omega))

theorem le32_put16_of_disjoint (h : p + 2 ≤ o ∨ o + 4 ≤ p) : (b.put16 p v).le32 o = b.le32 o :=
  le32_congr fun i hi => put16_of_ne (by omega) (by omega)

/-! ## Bit maps -/

/-- Is bit `b` set? -/
def testBit (m : Buf) (b : Nat) : Bool := (m (b / 8)).getLsbD (b % 8)

/-- Set bit `b`. -/
def setBit (m : Buf) (b : Nat) : Buf := fun i =>
  if i = b / 8 then m i ||| (1#8 <<< (b % 8)) else m i

/-- Clear bit `b`. -/
def clearBit (m : Buf) (b : Nat) : Buf := fun i =>
  if i = b / 8 then m i &&& ~~~(1#8 <<< (b % 8)) else m i

/-- Bit `j` of the byte with only bit `i` set. -/
theorem getLsbD_one_shiftLeft {j : Nat} (hi : i < 8) : (1#8 <<< i).getLsbD j = decide (j = i) := by
  rw [BitVec.getLsbD_shiftLeft, BitVec.getLsbD_one, Bool.eq_iff_iff]
  simp only [Bool.and_eq_true, decide_eq_true_eq, Bool.not_eq_true', decide_eq_false_iff_not]
  omega

theorem testBit_setBit (m : Buf) (b c : Nat) :
    (m.setBit b).testBit c = (m.testBit c || decide (c = b)) := by
  unfold testBit setBit
  by_cases h : c / 8 = b / 8
  · rw [if_pos h, BitVec.getLsbD_or,
      getLsbD_one_shiftLeft (Nat.mod_lt _ (by omega))]
    congr 1
    exact decide_eq_decide.mpr ⟨fun hm => by omega, fun hm => by omega⟩
  · rw [if_neg h, decide_eq_false (by rintro rfl; exact h rfl), Bool.or_false]

theorem testBit_clearBit (m : Buf) (b c : Nat) :
    (m.clearBit b).testBit c = (m.testBit c && !decide (c = b)) := by
  unfold testBit clearBit
  by_cases h : c / 8 = b / 8
  · have hc : c % 8 < 8 := Nat.mod_lt _ (by omega)
    rw [if_pos h, BitVec.getLsbD_and, BitVec.getLsbD_not,
      getLsbD_one_shiftLeft (Nat.mod_lt _ (by omega))]
    simp only [hc, decide_true, Bool.true_and]
    congr 2
    exact decide_eq_decide.mpr ⟨fun hm => by omega, fun hm => by omega⟩
  · rw [if_neg h, decide_eq_false (by rintro rfl; exact h rfl), Bool.not_false, Bool.and_true]

end Buf
