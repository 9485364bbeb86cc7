import Dmaos.System.Mount

/-!
# Formatted devices hold trees

A list of directories that fit together makes a tree, and the formatted device
with these directories carries it (`formatted_carries`).  So the hypotheses of
the results about trees can be met.
-/

namespace Dmaos

/-- The entries other than `.` and `..`. -/
def Listing.kids (l : Listing) : Listing := l.filter fun e => decide (e.2 ≠ dot ∧ e.2 ≠ dotdot)

/-- The inode of the first entry with a name. -/
def Listing.named (l : Listing) (x : List Byte) : Option Nat :=
  (l.find? fun e => decide (e.1 ≠ 0 ∧ e.2 = x)).map Prod.fst

/-- The directories form a tree: `parent n` is the parent of directory `n`, and
directory 1 is the root. -/
@[mk_iff] structure IsTree (dirs : List Listing) (parent : Nat → Nat) : Prop where
  root : 0 < dirs.length
  parent_root : parent 1 = 1
  dot_eq : ∀ n < dirs.length, (dirs.getD n []).named dot = some (n + 1)
  dotdot_eq : ∀ n < dirs.length, (dirs.getD n []).named dotdot = some (parent (n + 1))
  kid : ∀ n < dirs.length, ∀ e ∈ (dirs.getD n []).kids,
    1 < e.1 ∧ e.1 ≤ dirs.length ∧ parent e.1 = n + 1
  named : ∀ n < dirs.length, n ≠ 0 → (0 < parent (n + 1) ∧ parent (n + 1) ≤ dirs.length) ∧
    ∃ e ∈ (dirs.getD (parent (n + 1) - 1) []).kids,
      (dirs.getD (parent (n + 1) - 1) []).kids.named e.2 = some (n + 1)
  founded : ∀ n < dirs.length, parent^[dirs.length] (n + 1) = 1

instance (dirs : List Listing) (parent : Nat → Nat) : Decidable (IsTree dirs parent) :=
  decidable_of_iff' _ (isTree_iff dirs parent)

section Formatted

variable {k : Fin 7} {dirs : List Listing} {parent : Nat → Nat}

theorem Listing.mem_of_named {l : Listing} {x : List Byte} {m : Nat} (h : l.named x = some m) :
    (m, x) ∈ l ∧ m ≠ 0 := by
  obtain ⟨e, he, rfl⟩ := Option.map_eq_some_iff.mp h
  have := List.find?_some he
  simp only [decide_eq_true_eq] at this
  exact ⟨this.2 ▸ List.mem_of_find?_eq_some he, this.1⟩

theorem Listing.named_kids {l : Listing} {x : List Byte} (h1 : x ≠ dot) (h2 : x ≠ dotdot) :
    l.kids.named x = l.named x := by
  unfold Listing.named Listing.kids
  rw [List.find?_filter]
  congr 2
  funext e
  simp only [decide_eq_true_eq, decide_eq_decide]
  constructor
  · exact fun h => h.2
  · rintro ⟨h, rfl⟩
    exact ⟨⟨h1, h2⟩, h, rfl⟩

/-- The tree of the directories. -/
def formattedTree (h : IsTree dirs parent) : Dirs where
  mem n := 0 < n ∧ n ≤ dirs.length
  root := 1
  isDir n := decide (0 < n ∧ n ≤ dirs.length)
  child n x := (dirs.getD (n - 1) []).kids.named x
  parent := parent
  root_mem := ⟨by decide, h.root⟩
  parent_root := h.parent_root
  child_mem := by
    intro a b x ha hx
    obtain ⟨hmem, -⟩ := Listing.mem_of_named hx
    obtain ⟨h1, h2, -⟩ := h.kid (a - 1) (by omega) _ hmem
    exact ⟨by omega, h2⟩
  child_parent := by
    intro a b x ha hx
    obtain ⟨hmem, -⟩ := Listing.mem_of_named hx
    obtain ⟨h1, -, h3⟩ := h.kid (a - 1) (by omega) _ hmem
    refine ⟨?_, by omega⟩
    rw [h3, Nat.sub_add_cancel ha.1]
  named := by
    intro b hb hne
    obtain ⟨hp, e, -, he⟩ := h.named (b - 1) (by omega) (by omega)
    rw [Nat.sub_add_cancel hb.1] at hp he
    exact ⟨hp, e.2, he⟩
  founded := by
    intro b hb
    refine ⟨dirs.length, ?_⟩
    have := h.founded (b - 1) (by omega)
    rwa [Nat.sub_add_cancel hb.1] at this

/-- The formatted device carries the tree of its directories. -/
theorem formatted_carries (h : IsTree dirs parent) (hlen : dirs.length < 8 * tableBlocks k)
    (hdirs : ∀ l ∈ dirs, 0 < l.length ∧ l.length ≤ 32)
    (hent : ∀ n < dirs.length, (volumeOf k dirs).entries (n + 1) = dirs.getD n []) :
    (formattedOn k dirs).Carries (layoutOf k) (formattedTree h) := by
  have hdirs' : ∀ l ∈ dirs, l.length ≤ 32 := fun l hl => (hdirs l hl).2
  have hmem : ∀ {n : Nat}, (formattedTree h).mem n → 0 < n ∧ n ≤ dirs.length := id
  have htree : Encodes (layoutOf k) (volumeOf k dirs) (formattedTree h) := by
    refine ⟨rfl, fun hn => ?_, fun hn => ?_, fun {n} hn => ?_, fun {n x} hn hd hx => ?_⟩
    · exact Nat.lt_of_le_of_lt (hmem hn).2 hlen
    · exact (formatted_fsInv hlen hdirs).shaped ((formatted_inUse hlen hdirs').mpr hn)
    · refine iff_of_true (decide_eq_true hn) ?_
      show ((volumeOf k dirs).ino n).type = _
      rw [formatted_ino hlen hdirs', if_pos (hmem hn)]
    · -- The entries are those of the listing.
      obtain ⟨n, rfl⟩ := Nat.exists_eq_add_one_of_ne_zero (Nat.pos_iff_ne_zero.mp hn.1)
      have hlt : n < dirs.length := (hmem hn).2
      rw [hx.lookup_eq, hent n hlt]
      unfold NamedTree.step toStep
      rw [if_pos hd]
      split_ifs with hdot hdotdot
      · rw [hdot]
        exact h.dot_eq n hlt
      · rw [hdotdot]
        exact h.dotdot_eq n hlt
      · exact (Listing.named_kids hdot hdotdot).symm
  exact ⟨formatted_fits, formatted_own hlen hdirs', formatted_reserved, htree,
    formatted_iblock_lt, fun hb => hb.2⟩

end Formatted

end Dmaos
