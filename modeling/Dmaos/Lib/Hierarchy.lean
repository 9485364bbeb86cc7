import Mathlib.Tactic.Common

/-!
# Hierarchies of directories

Some nodes are directories.  A directory has entries: at a place of it stands a node, under a
name.  Two names are special: under one of them a directory names itself, under the other the
directory that holds it.

`Tree` says that this is so, and that every node but the root stands under a proper name at
exactly one place.  A new node is put at one place (`Grows`), and a node that is removed is
taken away from it (`Shrinks`); both keep the tree.

`Path` goes down from the root by proper names.  In a tree a node has one path at most, and if
the names in each directory are different (`Distinct`), a path leads to one node.  A new node adds
one path (`Grows.path_iff`), and a node that is removed takes one away (`Shrinks.path_iff`).
-/

namespace Dmaos

/-- Nodes, directories and their entries.  `entry d k n x` says that at place `k` of
directory `d` stands node `n` under the name `x`. -/
@[ext]
structure Hierarchy (N K X : Type) where
  used : N → Prop
  dir : N → Prop
  entry : N → K → N → X → Prop
  used_of_dir : ∀ {d : N}, dir d → used d
  dir_of_entry : ∀ {d n : N} {k : K} {x : X}, entry d k n x → dir d
  /-- At a place stands one node under one name. -/
  single : ∀ {d n n' : N} {k : K} {x x' : X}, entry d k n x → entry d k n' x' → n = n' ∧ x = x'

namespace Hierarchy

variable {N K X : Type}

section Defs

variable (H : Hierarchy N K X) (own up : X) (root : N)

/-- Node `n` stands at place `k` of `d`, under a proper name. -/
def Names (d : N) (k : K) (n : N) : Prop := ∃ x, H.entry d k n x ∧ x ≠ own ∧ x ≠ up

/-- Directory `d` has an entry with name `x`, and all of them are for `m`. -/
structure Tells (d : N) (x : X) (m : N) : Prop where
  exist : ∃ k, H.entry d k m x
  only : ∀ {k : K} {m' : N}, H.entry d k m' x → m' = m

/-- Directory `p` holds `d`.  The root holds itself. -/
def Holds (p d : N) : Prop :=
  d = root ∧ p = root ∨ d ≠ root ∧ ∃ k, H.Names own up p k d

/-- The directories form a tree. -/
structure Tree : Prop where
  root_dir : H.dir root
  /-- A node other than the root has one entry with a proper name. -/
  named : ∀ {n : N}, H.used n → n ≠ root → ∃ d k, H.Names own up d k n ∧
    ∀ {d' : N} {k' : K}, H.Names own up d' k' n → d' = d ∧ k' = k
  entries : ∀ {d n : N} {k : K} {x : X}, H.entry d k n x → H.used n
  own_tells : ∀ {d : N}, H.dir d → H.Tells d own d
  up_tells : ∀ {d : N}, H.dir d → ∃ p, H.Holds own up root p d ∧ H.Tells d up p

/-- The root has no entry with a proper name. -/
def Rooted : Prop := ∀ d k, ¬ H.Names own up d k root

/-- The proper names in a directory are different. -/
def Distinct : Prop := ∀ {d n n' : N} {k k' : K} {x : X}, H.entry d k n x → H.entry d k' n' x →
  x ≠ own → x ≠ up → n = n'

/-- Going down from the root by the names `xs` leads to node `n`. -/
inductive Path : List X → N → Prop where
  | root : Path [] root
  | down {xs : List X} {d n : N} {k : K} {x : X} (path : Path xs d) (entry : H.entry d k n x)
      (proper : x ≠ own ∧ x ≠ up) : Path (xs ++ [x]) n

/-- Every node has a path. -/
def Connected : Prop := ∀ {n : N}, H.used n → ∃ xs, H.Path own up root xs n

/-- Node `n` is new.  It stands at place `k` of `d` under the name `x`; if it is a directory,
it has entries for itself and for `d` only. -/
structure Grows (H' : Hierarchy N K X) (d : N) (k : K) (n : N) (x : X) : Prop where
  isDir : H.dir d
  free : ¬ H.used n
  proper : x ≠ own ∧ x ≠ up
  used : ∀ {m : N}, H'.used m ↔ H.used m ∨ m = n
  dir : ∀ {m : N}, m ≠ n → (H'.dir m ↔ H.dir m)
  entry : ∀ {d' m : N} {k' : K} {y : X}, d' ≠ n →
    (H'.entry d' k' m y ↔ H.entry d' k' m y ∨ d' = d ∧ k' = k ∧ m = n ∧ y = x)
  inner : ∀ {k' : K} {m : N} {y : X}, H'.entry n k' m y → y = own ∧ m = n ∨ y = up ∧ m = d
  filled : H'.dir n → (∃ k', H'.entry n k' n own) ∧ ∃ k', H'.entry n k' d up

/-- Node `v`, which has no entries with proper names, is taken away, and with it the entry at
place `k` of `d`. -/
structure Shrinks (H' : Hierarchy N K X) (d : N) (k : K) (v : N) : Prop where
  named : H.Names own up d k v
  empty : ∀ {k' : K} {m : N}, ¬ H.Names own up v k' m
  used : ∀ {m : N}, H'.used m ↔ H.used m ∧ m ≠ v
  dir : ∀ {m : N}, H'.dir m ↔ H.dir m ∧ m ≠ v
  entry : ∀ {d' m : N} {k' : K} {y : X},
    H'.entry d' k' m y ↔ H.entry d' k' m y ∧ d' ≠ v ∧ ¬ (d' = d ∧ k' = k)

end Defs

variable {H H' : Hierarchy N K X} {own up x : X} {root d n v : N} {k : K}

theorem Names.dir {m : N} (h : H.Names own up d k m) : H.dir d := by
  obtain ⟨x, hx, -⟩ := h
  exact H.dir_of_entry hx

theorem Names.single {m m' : N} (h : H.Names own up d k m) (h' : H.Names own up d k m') :
    m = m' := by
  obtain ⟨x, hx, -⟩ := h
  obtain ⟨x', hx', -⟩ := h'
  exact (H.single hx hx').1

/-! ## New nodes -/

namespace Grows

theorem not_dir (g : H.Grows own up H' d k n x) : ¬ H.dir n := fun h => g.free (H.used_of_dir h)

theorem dir_ne (g : H.Grows own up H' d k n x) : d ≠ n := by
  rintro rfl
  exact g.not_dir g.isDir

theorem names_iff (g : H.Grows own up H' d k n x) {d' m : N} {k' : K} :
    H'.Names own up d' k' m ↔
      H.Names own up d' k' m ∨ d' = d ∧ k' = k ∧ m = n := by
  by_cases hd : d' = n
  · subst hd
    constructor
    · rintro ⟨y, hy, hown, hup⟩
      rcases g.inner hy with ⟨rfl, -⟩ | ⟨rfl, -⟩
      · exact absurd rfl hown
      · exact absurd rfl hup
    · rintro (h | ⟨heq, -⟩)
      · exact absurd h.dir g.not_dir
      · exact absurd heq.symm g.dir_ne
  · constructor
    · rintro ⟨y, hy, hproper⟩
      rcases (g.entry hd).mp hy with hy | ⟨h1, h2, h3, -⟩
      · exact Or.inl ⟨y, hy, hproper⟩
      · exact Or.inr ⟨h1, h2, h3⟩
    · rintro (⟨y, hy, hproper⟩ | ⟨h1, h2, h3⟩)
      · exact ⟨y, (g.entry hd).mpr (Or.inl hy), hproper⟩
      · exact ⟨x, (g.entry hd).mpr (Or.inr ⟨h1, h2, h3, rfl⟩), g.proper⟩

/-- What a directory says under a special name stays. -/
theorem tells (g : H.Grows own up H' d k n x) {d' m : N} {y : X} (hd : d' ≠ n) (hy : y ≠ x)
    (h : H.Tells d' y m) : H'.Tells d' y m := by
  refine ⟨h.exist.imp fun _ he => (g.entry hd).mpr (Or.inl he), fun he => ?_⟩
  rcases (g.entry hd).mp he with he | ⟨-, -, -, heq⟩
  · exact h.only he
  · exact absurd heq hy

end Grows

theorem Tree.grow (h : H.Tree own up root) (g : H.Grows own up H' d k n x)
    (hne : own ≠ up) : H'.Tree own up root := by
  have hroot : root ≠ n := by
    rintro rfl
    exact g.not_dir h.root_dir
  refine ⟨(g.dir hroot).mpr h.root_dir, fun {m} hm hmr => ?_, fun {d' m k' y} he => ?_,
    fun {d'} hd' => ?_, fun {d'} hd' => ?_⟩
  · by_cases hmn : m = n
    · subst hmn
      refine ⟨d, k, g.names_iff.mpr (Or.inr ⟨rfl, rfl, rfl⟩), fun {d' k'} h' => ?_⟩
      rcases g.names_iff.mp h' with ⟨y, hy, -⟩ | ⟨h1, h2, -⟩
      · exact absurd (h.entries hy) g.free
      · exact ⟨h1, h2⟩
    · obtain ⟨e, j, hj, hall⟩ := h.named ((g.used.mp hm).resolve_right hmn) hmr
      refine ⟨e, j, g.names_iff.mpr (Or.inl hj), fun h' => ?_⟩
      rcases g.names_iff.mp h' with h' | ⟨-, -, heq⟩
      · exact hall h'
      · exact absurd heq hmn
  · rw [g.used]
    by_cases hd : d' = n
    · subst hd
      rcases g.inner he with ⟨-, rfl⟩ | ⟨-, rfl⟩
      · exact Or.inr rfl
      · exact Or.inl (H.used_of_dir g.isDir)
    · rcases (g.entry hd).mp he with he | ⟨-, -, heq, -⟩
      · exact Or.inl (h.entries he)
      · exact Or.inr heq
  · by_cases hd : d' = n
    · subst hd
      refine ⟨(g.filled hd').1, fun he => ?_⟩
      rcases g.inner he with ⟨-, heq⟩ | ⟨heq, -⟩
      · exact heq
      · exact absurd heq hne
    · exact g.tells hd g.proper.1.symm (h.own_tells ((g.dir hd).mp hd'))
  · by_cases hd : d' = n
    · subst hd
      refine ⟨d, Or.inr ⟨hroot.symm, k, g.names_iff.mpr (Or.inr ⟨rfl, rfl, rfl⟩)⟩,
        (g.filled hd').2, fun he => ?_⟩
      rcases g.inner he with ⟨heq, -⟩ | ⟨-, heq⟩
      · exact absurd heq.symm hne
      · exact heq
    · obtain ⟨p, hp, htells⟩ := h.up_tells ((g.dir hd).mp hd')
      refine ⟨p, hp.imp id fun hp => ⟨hp.1, ?_⟩, g.tells hd g.proper.2.symm htells⟩
      exact hp.2.imp fun j hj => g.names_iff.mpr (Or.inl hj)

theorem Rooted.grow (h : H.Rooted own up root) (g : H.Grows own up H' d k n x)
    (hroot : H.dir root) : H'.Rooted own up root := by
  intro d' k' h'
  rcases g.names_iff.mp h' with h' | ⟨-, -, rfl⟩
  · exact h d' k' h'
  · exact g.not_dir hroot

/-! ## Removing nodes -/

namespace Shrinks

theorem names_iff (g : H.Shrinks own up H' d k v) {d' m : N} {k' : K} :
    H'.Names own up d' k' m ↔ H.Names own up d' k' m ∧ ¬ (d' = d ∧ k' = k) := by
  constructor
  · rintro ⟨y, hy, hproper⟩
    obtain ⟨hy, -, hplace⟩ := g.entry.mp hy
    exact ⟨⟨y, hy, hproper⟩, hplace⟩
  · rintro ⟨h, hplace⟩
    have hne : d' ≠ v := by
      rintro rfl
      exact g.empty h
    obtain ⟨y, hy, hproper⟩ := h
    exact ⟨y, g.entry.mpr ⟨hy, hne, hplace⟩, hproper⟩

/-- A node other than the one that is removed keeps its entry. -/
theorem names (g : H.Shrinks own up H' d k v) {d' m : N} {k' : K}
    (h : H.Names own up d' k' m) (hm : m ≠ v) : H'.Names own up d' k' m := by
  refine g.names_iff.mpr ⟨h, ?_⟩
  rintro ⟨rfl, rfl⟩
  exact hm (h.single g.named)

/-- What a directory says under a special name stays. -/
theorem tells (g : H.Shrinks own up H' d k v) {d' m : N} {y : X} (hd : d' ≠ v)
    (hy : y = own ∨ y = up) (h : H.Tells d' y m) : H'.Tells d' y m := by
  refine ⟨h.exist.imp fun j he => g.entry.mpr ⟨he, hd, ?_⟩, fun he => h.only (g.entry.mp he).1⟩
  rintro ⟨rfl, rfl⟩
  obtain ⟨x, hx, hown, hup⟩ := g.named
  obtain ⟨-, rfl⟩ := H.single hx he
  exact hy.elim hown hup

end Shrinks

theorem Tree.shrink (h : H.Tree own up root) (g : H.Shrinks own up H' d k v)
    (hroot : v ≠ root) : H'.Tree own up root := by
  have hv : H.used v := by
    obtain ⟨x, hx, -⟩ := g.named
    exact h.entries hx
  refine ⟨g.dir.mpr ⟨h.root_dir, hroot.symm⟩, fun {m} hm hmr => ?_, fun {d' m k' y} he => ?_,
    fun {d'} hd' => ?_, fun {d'} hd' => ?_⟩
  · obtain ⟨hm, hmv⟩ := g.used.mp hm
    obtain ⟨e, j, hj, hall⟩ := h.named hm hmr
    exact ⟨e, j, g.names hj hmv, fun h' => hall (g.names_iff.mp h').1⟩
  · obtain ⟨he, hd', hplace⟩ := g.entry.mp he
    refine g.used.mpr ⟨h.entries he, ?_⟩
    rintro rfl
    have hdir := H.dir_of_entry he
    -- The names under which the node that is removed could still stand.
    by_cases hown : y = own
    · subst hown
      exact hd' ((h.own_tells hdir).only he).symm
    · by_cases hup : y = up
      · subst hup
        obtain ⟨p, hp, htells⟩ := h.up_tells hdir
        obtain rfl := htells.only he
        rcases hp with ⟨-, heq⟩ | ⟨-, j, hj⟩
        · exact hroot heq
        · exact g.empty hj
      · obtain ⟨e, j, -, hall⟩ := h.named hv hroot
        obtain ⟨h1, h2⟩ := hall ⟨y, he, hown, hup⟩
        obtain ⟨h3, h4⟩ := hall g.named
        exact hplace ⟨h1.trans h3.symm, h2.trans h4.symm⟩
  · obtain ⟨hdir, hne⟩ := g.dir.mp hd'
    exact g.tells hne (Or.inl rfl) (h.own_tells hdir)
  · obtain ⟨hdir, hne⟩ := g.dir.mp hd'
    obtain ⟨p, hp, htells⟩ := h.up_tells hdir
    refine ⟨p, hp.imp id fun hp => ⟨hp.1, ?_⟩, g.tells hne (Or.inr rfl) htells⟩
    exact hp.2.imp fun j hj => g.names hj hne

theorem Rooted.shrink (h : H.Rooted own up root) (g : H.Shrinks own up H' d k v) :
    H'.Rooted own up root := fun d' k' h' => h d' k' (g.names_iff.mp h').1

/-! ## Paths -/

section Paths

variable {xs ys : List X} {m : N}

theorem Path.nil (h : H.Path own up root [] n) : n = root := by
  generalize hxs : ([] : List X) = xs at h
  cases h with
  | root => rfl
  | down => simp at hxs

theorem Path.snoc_iff : H.Path own up root (xs ++ [x]) n ↔
    ∃ d k, H.Path own up root xs d ∧ H.entry d k n x ∧ x ≠ own ∧ x ≠ up := by
  constructor
  · intro h
    generalize hys : xs ++ [x] = ys at h
    cases h with
    | root => simp at hys
    | @down ys d _ k y path entry proper =>
        obtain ⟨rfl, hxy⟩ := List.append_inj' hys rfl
        obtain rfl := List.head_eq_of_cons_eq hxy
        exact ⟨d, k, path, entry, proper⟩
  · rintro ⟨d, k, path, entry, proper⟩
    exact .down path entry proper

theorem Path.used (h : H.Path own up root xs n) (ht : H.Tree own up root) : H.used n := by
  cases h with
  | root => exact H.used_of_dir ht.root_dir
  | down _ entry => exact ht.entries entry

/-- A path leads to one node. -/
theorem Path.node_unique (h : H.Path own up root xs n) (hd : H.Distinct own up)
    (h' : H.Path own up root xs m) : n = m := by
  induction h generalizing m with
  | root => exact h'.nil.symm
  | down path entry proper ih =>
      obtain ⟨d', k', path', entry', -⟩ := snoc_iff.mp h'
      obtain rfl := ih path'
      exact hd entry entry' proper.1 proper.2

/-- A node is reached by one path. -/
theorem Path.names_unique (h : H.Path own up root xs n) (ht : H.Tree own up root)
    (hr : H.Rooted own up root) (h' : H.Path own up root ys n) : xs = ys := by
  induction h generalizing ys with
  | root =>
      cases h' with
      | root => rfl
      | @down _ d _ k x _ entry proper => exact absurd ⟨x, entry, proper⟩ (hr d k)
  | @down xs d n k x path entry proper ih =>
      have hn : n ≠ root := by
        rintro rfl
        exact hr d k ⟨x, entry, proper⟩
      cases h' with
      | root => exact absurd rfl hn
      | @down ys d' _ k' y path' entry' proper' =>
          -- A node stands at one place only.
          obtain ⟨e, i, -, hall⟩ := ht.named (ht.entries entry) hn
          obtain ⟨rfl, rfl⟩ := hall ⟨x, entry, proper⟩
          obtain ⟨rfl, rfl⟩ := hall ⟨y, entry', proper'⟩
          rw [ih path', (H.single entry entry').2]

theorem Distinct.grow (h : H.Distinct own up) (g : H.Grows own up H' d k n x)
    (hfresh : ∀ {k' : K} {m : N}, ¬ H.entry d k' m x) : H'.Distinct own up := by
  intro d' m m' j j' y he he' h1 h2
  have hd' : d' ≠ n := by
    rintro rfl
    rcases g.inner he with ⟨heq, -⟩ | ⟨heq, -⟩
    · exact h1 heq
    · exact h2 heq
  rcases (g.entry hd').mp he with he | ⟨hd, -, hm, hy⟩ <;>
    rcases (g.entry hd').mp he' with he' | ⟨hd₁, -, hm', hy₁⟩
  · exact h he he' h1 h2
  · rw [hd₁, hy₁] at he
    exact absurd he hfresh
  · rw [hd, hy] at he'
    exact absurd he' hfresh
  · exact hm.trans hm'.symm

theorem Distinct.shrink (h : H.Distinct own up) (g : H.Shrinks own up H' d k v) :
    H'.Distinct own up :=
  fun he he' => h (g.entry.mp he).1 (g.entry.mp he').1

/-- A new node has the path of its directory, and its name. -/
theorem Grows.path_iff (g : H.Grows own up H' d k n x) : H'.Path own up root xs m ↔
    H.Path own up root xs m ∨ m = n ∧ ∃ ys, xs = ys ++ [x] ∧ H.Path own up root ys d := by
  have hold : ∀ {xs m}, H.Path own up root xs m → H'.Path own up root xs m := by
    intro xs m h
    induction h with
    | root => exact .root
    | @down _ d' _ _ _ _ entry proper ih =>
        have hd' : d' ≠ n := by
          rintro rfl
          exact g.not_dir (H.dir_of_entry entry)
        exact ih.down ((g.entry hd').mpr (Or.inl entry)) proper
  constructor
  · intro h
    induction h with
    | root => exact Or.inl .root
    | @down xs d' m j y _ entry proper ih =>
        have hd' : d' ≠ n := by
          rintro rfl
          exact (g.inner entry).elim (fun h => proper.1 h.1) fun h => proper.2 h.1
        have hpath := ih.resolve_right fun hn => hd' hn.1
        rcases (g.entry hd').mp entry with entry | ⟨rfl, -, rfl, rfl⟩
        · exact Or.inl (.down hpath entry proper)
        · exact Or.inr ⟨rfl, xs, rfl, hpath⟩
  · rintro (h | ⟨rfl, ys, rfl, h⟩)
    · exact hold h
    · exact (hold h).down ((g.entry g.dir_ne).mpr (Or.inr ⟨rfl, rfl, rfl, rfl⟩)) g.proper

/-- A node that is removed takes its path with it. -/
theorem Shrinks.path_iff (g : H.Shrinks own up H' d k v) (ht : H.Tree own up root)
    (hroot : v ≠ root) : H'.Path own up root xs m ↔ H.Path own up root xs m ∧ m ≠ v := by
  constructor
  · intro h
    induction h with
    | root => exact ⟨.root, hroot.symm⟩
    | @down xs d' m j y _ entry proper ih =>
        obtain ⟨hentry, -, hplace⟩ := g.entry.mp entry
        refine ⟨.down ih.1 hentry proper, ?_⟩
        rintro rfl
        obtain ⟨e, i, -, hall⟩ := ht.named (ht.entries hentry) hroot
        obtain ⟨rfl, rfl⟩ := hall ⟨y, hentry, proper⟩
        obtain ⟨rfl, rfl⟩ := hall g.named
        exact hplace ⟨rfl, rfl⟩
  · rintro ⟨h, hm⟩
    induction h with
    | root => exact .root
    | @down xs d' m j y _ entry proper ih =>
        have hd' : d' ≠ v := by
          rintro rfl
          exact g.empty ⟨y, entry, proper⟩
        refine (ih hd').down (g.entry.mpr ⟨entry, hd', ?_⟩) proper
        rintro ⟨rfl, rfl⟩
        obtain ⟨z, hz, -⟩ := g.named
        exact hm (H.single entry hz).1

theorem Connected.grow (h : H.Connected own up root) (g : H.Grows own up H' d k n x) :
    H'.Connected own up root := by
  intro m hm
  rcases g.used.mp hm with hm | rfl
  · exact (h hm).imp fun _ => g.path_iff.mpr ∘ Or.inl
  · obtain ⟨ys, hys⟩ := h (H.used_of_dir g.isDir)
    exact ⟨ys ++ [x], g.path_iff.mpr (Or.inr ⟨rfl, ys, rfl, hys⟩)⟩

theorem Connected.shrink (h : H.Connected own up root) (g : H.Shrinks own up H' d k v)
    (ht : H.Tree own up root) (hroot : v ≠ root) : H'.Connected own up root := by
  intro m hm
  obtain ⟨hm, hmv⟩ := g.used.mp hm
  exact (h hm).imp fun _ hxs => (g.path_iff ht hroot).mpr ⟨hxs, hmv⟩

end Paths

end Hierarchy

end Dmaos
