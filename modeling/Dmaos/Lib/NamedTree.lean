import Mathlib.Logic.Function.Iterate
import Mathlib.Data.Sum.Basic
import Mathlib.Tactic.Common

/-!
# Named trees, walks and grafts

A tree of directories and other nodes.  A directory gives names to its
children, and every node but the root has a parent of which it is a child.  A
walk goes step by step: to the node itself, to the parent, or to a child.

`NamedTree.graft` replaces the subtree at a node by another tree.  The node's
parent becomes the parent of the other tree's root.
-/

/-- A tree with nodes in `α` whose edges are named by `κ`. -/
structure NamedTree (α κ : Type) where
  mem : α → Prop
  root : α
  isDir : α → Bool
  child : α → κ → Option α
  parent : α → α
  root_mem : mem root
  parent_root : parent root = root
  child_mem : ∀ {a b : α} {x : κ}, mem a → child a x = some b → mem b
  child_parent : ∀ {a b : α} {x : κ}, mem a → child a x = some b → parent b = a ∧ b ≠ root
  named : ∀ {b : α}, mem b → b ≠ root → mem (parent b) ∧ ∃ x, child (parent b) x = some b
  /-- The parents of a node lead to the root. -/
  founded : ∀ {b : α}, mem b → ∃ k, parent^[k] b = root

namespace NamedTree

open Function

/-- A step of a walk. -/
inductive Step (κ : Type) where
  | here
  | up
  | down (x : κ)

section Walk

variable {α κ : Type} (τ : NamedTree α κ)

/-- One step from a node.  From a node that is not a directory there is none. -/
def step (a : α) (st : Step κ) : Option α :=
  if τ.isDir a then
    match st with
    | .here => some a
    | .up => some (τ.parent a)
    | .down x => τ.child a x
  else none

/-- The node a walk ends at. -/
def walk : α → List (Step κ) → Option α
  | a, [] => some a
  | a, st :: sts => (τ.step a st).bind fun b => walk b sts

variable {τ}

@[simp] theorem walk_nil (a : α) : τ.walk a [] = some a := rfl

theorem walk_cons (a : α) (st : Step κ) (sts : List (Step κ)) :
    τ.walk a (st :: sts) = (τ.step a st).bind fun b => τ.walk b sts := rfl

theorem step_of_not_dir {a : α} {st : Step κ} (h : τ.isDir a = false) : τ.step a st = none := by
  simp [step, h]

theorem walk_append (a : α) (sts sts' : List (Step κ)) :
    τ.walk a (sts ++ sts') = (τ.walk a sts).bind fun b => τ.walk b sts' := by
  induction sts generalizing a with
  | nil => rfl
  | cons st sts ih =>
      rw [List.cons_append, walk_cons, walk_cons, Option.bind_assoc]
      exact congrArg _ (funext fun b => ih b)

theorem parent_mem {a : α} (h : τ.mem a) : τ.mem (τ.parent a) := by
  by_cases ha : a = τ.root
  · rw [ha, τ.parent_root]
    exact τ.root_mem
  · exact (τ.named h ha).1

/-- A walk stays in the tree. -/
theorem step_mem {a b : α} {st : Step κ} (h : τ.mem a) (hs : τ.step a st = some b) : τ.mem b := by
  unfold step at hs
  split_ifs at hs
  cases st with
  | here =>
      cases hs
      exact h
  | up =>
      cases hs
      exact parent_mem h
  | down x => exact τ.child_mem h hs

theorem walk_mem {a b : α} {sts : List (Step κ)} (h : τ.mem a) (hw : τ.walk a sts = some b) :
    τ.mem b := by
  induction sts generalizing a with
  | nil =>
      cases hw
      exact h
  | cons st sts ih =>
      obtain ⟨c, hc, hw⟩ := Option.bind_eq_some_iff.mp hw
      exact ih (step_mem h hc) hw

end Walk

/-! ## Lexical walks

Without the tree, `up` takes back the last name.  In a tree this leads to the
same node, if the walk goes through: the parent of a child is where it came
from. -/

section Lexical

variable {α κ μ : Type} {τ : NamedTree α κ}

/-- The same step with another name. -/
def Step.map (f : κ → μ) : Step κ → Step μ
  | .here => .here
  | .up => .up
  | .down x => .down (f x)

/-- The names that are left of `st` and a walk. -/
def reduce : List κ → List (Step κ) → List κ
  | st, [] => st
  | st, .here :: sts => reduce st sts
  | st, .up :: sts => reduce st.dropLast sts
  | st, .down x :: sts => reduce (st ++ [x]) sts

theorem reduce_map (f : κ → μ) (st : List κ) (sts : List (Step κ)) :
    reduce (st.map f) (sts.map (Step.map f)) = (reduce st sts).map f := by
  induction sts generalizing st with
  | nil => rfl
  | cons step sts ih =>
      cases step with
      | here => exact ih st
      | up =>
          show reduce (st.map f).dropLast _ = _
          rw [← List.map_dropLast]
          exact ih st.dropLast
      | down x =>
          show reduce (st.map f ++ [f x]) _ = _
          rw [show st.map f ++ [f x] = (st ++ [x]).map f by simp]
          exact ih (st ++ [x])

/-- A name that is left was there before, or is a name of the walk. -/
theorem mem_reduce {x : κ} {st : List κ} {sts : List (Step κ)} (h : x ∈ reduce st sts) :
    x ∈ st ∨ .down x ∈ sts := by
  induction sts generalizing st with
  | nil => exact Or.inl h
  | cons step sts ih =>
      cases step with
      | here => exact (ih h).imp_right (List.mem_cons_of_mem _)
      | up => exact (ih h).imp (List.dropLast_subset _ ·) (List.mem_cons_of_mem _)
      | down y =>
          rcases ih h with h | h
          · rcases List.mem_append.mp h with h | h
            · exact Or.inl h
            · rw [List.mem_singleton.mp h]
              exact Or.inr List.mem_cons_self
          · exact Or.inr (List.mem_cons_of_mem _ h)

/-- The names that are left lead where the walk leads. -/
theorem walk_reduce {a b : α} {st : List κ} {sts : List (Step κ)}
    (hst : τ.walk τ.root (st.map .down) = some a) (h : τ.walk a sts = some b) :
    τ.walk τ.root ((reduce st sts).map .down) = some b := by
  induction sts generalizing st a with
  | nil =>
      cases h
      exact hst
  | cons step sts ih =>
      obtain ⟨c, hc, hw⟩ := Option.bind_eq_some_iff.mp h
      have hdir : τ.isDir a = true := by
        cases hd : τ.isDir a with
        | true => rfl
        | false =>
            rw [step_of_not_dir hd] at hc
            cases hc
      unfold NamedTree.step at hc
      rw [if_pos hdir] at hc
      cases step with
      | here =>
          cases hc
          exact ih hst hw
      | up =>
          cases hc
          refine ih ?_ hw
          -- The last name led here from the parent, unless this is the root.
          rcases List.eq_nil_or_concat st with rfl | ⟨st, x, rfl⟩
          · cases hst
            rw [τ.parent_root]
            rfl
          · rw [List.concat_eq_append, List.map_append, walk_append] at hst
            obtain ⟨d, hd, hx⟩ := Option.bind_eq_some_iff.mp hst
            obtain ⟨e, he, hlast⟩ := Option.bind_eq_some_iff.mp hx
            cases hlast
            unfold NamedTree.step at he
            split_ifs at he
            rw [List.concat_eq_append, List.dropLast_concat, hd,
              (τ.child_parent (walk_mem τ.root_mem hd) he).1]
      | down x =>
          refine ih ?_ hw
          rw [List.map_append, walk_append, hst]
          show (τ.step a (.down x)).bind _ = _
          unfold NamedTree.step
          rw [if_pos hdir, hc]
          rfl

end Lexical

/-! ## Ancestors -/

section Ancestors

variable {α κ : Type} {τ : NamedTree α κ} {a b c : α}

/-- Node `a` is node `b` or one of its ancestors. -/
def Above (τ : NamedTree α κ) (a b : α) : Prop := ∃ k, τ.parent^[k] b = a

theorem Above.refl (a : α) : τ.Above a a := ⟨0, rfl⟩

theorem Above.of_parent (h : τ.Above a (τ.parent b)) : τ.Above a b := by
  obtain ⟨k, hk⟩ := h
  exact ⟨k + 1, hk⟩

/-- An ancestor of a node is the node or an ancestor of its parent. -/
theorem Above.cases (h : τ.Above a b) : a = b ∨ τ.Above a (τ.parent b) := by
  obtain ⟨k, hk⟩ := h
  cases k with
  | zero => exact Or.inl hk.symm
  | succ k => exact Or.inr ⟨k, hk⟩

theorem iterate_root (k : Nat) : τ.parent^[k] τ.root = τ.root :=
  iterate_fixed τ.parent_root k

theorem Above.root (h : τ.Above a τ.root) : a = τ.root := by
  obtain ⟨k, hk⟩ := h
  rw [← hk, iterate_root]

/-- Only the root is an ancestor of its own parent. -/
theorem not_above_parent (h : τ.mem a) (ha : a ≠ τ.root) : ¬ τ.Above a (τ.parent a) := by
  rintro ⟨k, hk⟩
  obtain ⟨m, hm⟩ := τ.founded h
  -- Going around the cycle often enough leads past the root.
  have hcycle : τ.parent^[k + 1] a = a := hk
  have hloop : ∀ j, τ.parent^[(k + 1) * j] a = a := by
    intro j
    rw [iterate_mul]
    exact iterate_fixed hcycle j
  have hle : m ≤ (k + 1) * m := Nat.le_mul_of_pos_left m (Nat.succ_pos k)
  have := hloop m
  rw [show (k + 1) * m = ((k + 1) * m - m) + m by omega, iterate_add_apply, hm,
    iterate_root] at this
  exact ha this.symm

end Ancestors

/-! ## Grafts -/

section Graft

variable {α β κ : Type} [DecidableEq α] [DecidableEq β] (τ : NamedTree α κ) (σ : NamedTree β κ)
  (h : α)

/-- The child a name leads to, where node `h` is replaced. -/
def graftChild : α ⊕ β → κ → Option (α ⊕ β)
  | .inl a, x => (τ.child a x).map fun b => if b = h then .inr σ.root else .inl b
  | .inr b, x => (σ.child b x).map .inr

/-- The parent, where node `h` is replaced. -/
def graftParent : α ⊕ β → α ⊕ β
  | .inl a => .inl (τ.parent a)
  | .inr b => if b = σ.root then .inl (τ.parent h) else .inr (σ.parent b)

/-- The nodes that remain. -/
def graftMem : α ⊕ β → Prop
  | .inl a => τ.mem a ∧ ¬ τ.Above h a
  | .inr b => σ.mem b

variable {τ σ h}

omit [DecidableEq α] in
theorem graftParent_iterate (k : Nat) (a : α) :
    (graftParent τ σ h)^[k] (.inl a) = .inl (τ.parent^[k] a) := by
  induction k generalizing a with
  | zero => rfl
  | succ k ih => exact ih (τ.parent a)

omit [DecidableEq β] in
theorem graft_child_mem {a b : α ⊕ β} {x : κ} (ha : graftMem τ σ h a)
    (hx : graftChild τ σ h a x = some b) : graftMem τ σ h b := by
  cases a with
  | inl a =>
      obtain ⟨c, hc, rfl⟩ := Option.map_eq_some_iff.mp hx
      split_ifs with hch
      · exact σ.root_mem
      · refine ⟨τ.child_mem ha.1 hc, fun habove => ?_⟩
        rcases habove.cases with rfl | habove
        · exact hch rfl
        · rw [(τ.child_parent ha.1 hc).1] at habove
          exact ha.2 habove
  | inr a =>
      obtain ⟨c, hc, rfl⟩ := Option.map_eq_some_iff.mp hx
      exact σ.child_mem ha hc

theorem graft_child_parent {a b : α ⊕ β} {x : κ} (ha : graftMem τ σ h a)
    (hx : graftChild τ σ h a x = some b) : graftParent τ σ h b = a ∧ b ≠ .inl τ.root := by
  cases a with
  | inl a =>
      obtain ⟨c, hc, rfl⟩ := Option.map_eq_some_iff.mp hx
      obtain ⟨hp, hroot⟩ := τ.child_parent ha.1 hc
      split_ifs with hch
      · subst hch
        simp [graftParent, hp]
      · simp [graftParent, hp, hroot]
  | inr a =>
      obtain ⟨c, hc, rfl⟩ := Option.map_eq_some_iff.mp hx
      obtain ⟨hp, hroot⟩ := σ.child_parent ha hc
      simp [graftParent, hp, hroot]

theorem graft_named (hmem : τ.mem h) (hroot : h ≠ τ.root) {b : α ⊕ β} (hb : graftMem τ σ h b)
    (hne : b ≠ .inl τ.root) : graftMem τ σ h (graftParent τ σ h b) ∧
      ∃ x, graftChild τ σ h (graftParent τ σ h b) x = some b := by
  cases b with
  | inl b =>
      obtain ⟨hp, x, hx⟩ := τ.named hb.1 (fun he => hne (by rw [he]))
      refine ⟨⟨hp, fun habove => hb.2 habove.of_parent⟩, x, ?_⟩
      have hbh : b ≠ h := by
        rintro rfl
        exact hb.2 (.refl b)
      simp [graftChild, graftParent, hx, hbh]
  | inr b =>
      by_cases hbr : b = σ.root
      · subst hbr
        obtain ⟨hp, x, hx⟩ := τ.named hmem hroot
        refine ⟨?_, x, ?_⟩
        · simp only [graftParent, if_pos]
          exact ⟨hp, not_above_parent hmem hroot⟩
        · simp [graftParent, graftChild, hx]
      · obtain ⟨hp, x, hx⟩ := σ.named hb hbr
        simp only [graftParent, if_neg hbr]
        exact ⟨hp, x, by simp [graftChild, hx]⟩

omit [DecidableEq α] in
theorem graft_founded (hmem : τ.mem h) {b : α ⊕ β} (hb : graftMem τ σ h b) :
    ∃ k, (graftParent τ σ h)^[k] b = .inl τ.root := by
  cases b with
  | inl b =>
      obtain ⟨k, hk⟩ := τ.founded hb.1
      exact ⟨k, by rw [graftParent_iterate, hk]⟩
  | inr b =>
      obtain ⟨k, hk⟩ := σ.founded hb
      clear hb
      induction k generalizing b with
      | zero =>
          obtain ⟨m, hm⟩ := τ.founded (parent_mem hmem)
          refine ⟨m + 1, ?_⟩
          obtain rfl : b = σ.root := hk
          rw [iterate_succ_apply]
          simp only [graftParent, if_pos]
          rw [graftParent_iterate, hm]
      | succ k ih =>
          by_cases hbr : b = σ.root
          · exact ih b (by rw [hbr, iterate_root])
          · obtain ⟨m, hm⟩ := ih (σ.parent b) hk
            refine ⟨m + 1, ?_⟩
            rw [iterate_succ_apply]
            simp only [graftParent, if_neg hbr]
            exact hm

/-- The tree with the subtree at `h` replaced by `σ`. -/
def graft (τ : NamedTree α κ) (σ : NamedTree β κ) (h : α) (hmem : τ.mem h) (hroot : h ≠ τ.root) :
    NamedTree (α ⊕ β) κ where
  mem := graftMem τ σ h
  root := .inl τ.root
  isDir := Sum.elim τ.isDir σ.isDir
  child := graftChild τ σ h
  parent := graftParent τ σ h
  root_mem := ⟨τ.root_mem, fun habove => hroot habove.root⟩
  parent_root := by simp [graftParent, τ.parent_root]
  child_mem := graft_child_mem
  child_parent := graft_child_parent
  named := graft_named hmem hroot
  founded := graft_founded hmem

end Graft

end NamedTree
