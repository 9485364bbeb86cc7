import Dmaos.Lib.Words
import Dmaos.System.Lookup
import Dmaos.System.Name

/-!
# Path resolution walks the logical tree

Device 1 is mounted on the directory `/home` of device 0.  If the two devices
hold the trees `τ₀` and `τ₁`, a path is resolved in the tree that has `τ₁` in
place of `/home`: `logical τ₁ h`.  `Mounted` is the invariant of the kernel
under which this is so.

`namex` goes through the components of the path.  The body of its loop takes
one step in the logical tree (`Mounted.namexNext`, `Mounted.mountChild`), and
the loop takes the whole walk (`Mounted.namexLoop`).
-/

namespace Dmaos

open Fault Function

variable {path x y : List Byte} {home : Nat} {i ip : Fin NINODE} {s s' : KState} {L₀ L₁ : Layout}
  {τ₀ τ₁ : Dirs} {a : Node} {T : NamedTree Node (List Byte)} {parent : Bool} {xs : List (List Byte)}

/-! ## The components of a path -/

/-- The parts of a path between slashes, without the empty ones. -/
def components (path : List Byte) : List (List Byte) := path.words fun b => decide (b = slash)

/-- The names a path is resolved by: its components, cut to the length a
directory entry has room for. -/
def pathNames (path : List Byte) : List (List Byte) :=
  (components path).map (List.take (DIRSIZ - 1))

section Components

variable {rest : List Byte}

theorem isName_of_mem_pathNames (h : x ∈ pathNames path) (h0 : 0 ∉ path) : IsName x := by
  obtain ⟨y, hy, rfl⟩ := List.mem_map.mp h
  obtain ⟨hne, hmem⟩ := List.mem_words hy
  refine ⟨?_, fun hs => ?_, fun hz => h0 (hmem 0 (List.mem_of_mem_take hz)).2, ?_⟩
  · cases y with
    | nil => exact absurd rfl hne
    | cons b y => exact List.cons_ne_nil _ _
  · simpa using (hmem slash (List.mem_of_mem_take hs)).1
  · rw [List.length_take]
    exact Nat.lt_of_le_of_lt (Nat.min_le_left _ _) (by decide)

/-- Short components are not cut. -/
theorem pathNames_of_short (h : ∀ x ∈ components path, x.length ≤ 29) :
    pathNames path = components path := by
  unfold pathNames
  refine (List.map_congr_left fun x hx => ?_).trans (List.map_id _)
  exact List.take_of_length_le (h x hx)

theorem skipto_none (h : skipto path = none) : pathNames path = [] := by
  unfold skipto at h
  split at h
  · next hp => rw [pathNames, components, List.dropWhile_eq_nil_iff_words.mp hp, List.map_nil]
  · cases h

/-- `skipto` splits off the first name. -/
theorem skipto_some (h : skipto path = some (y, rest)) :
    pathNames path = y :: pathNames rest ∧ (rest = [] ↔ pathNames rest = []) := by
  unfold skipto at h
  split at h
  · cases h
  · next p hne =>
      cases h
      cases hp : path.dropWhile (fun b => decide (b = slash)) with
      | nil => exact absurd hp hne
      | cons b p =>
          have hb : decide (b = slash) = false := by
            have := List.head?_dropWhile_not (fun b => decide (b = slash)) path
            rw [hp] at this
            simpa using this
          have hcons := List.words_cons (p := fun b => decide (b = slash)) p hb
          rw [← hp, List.words_dropWhile, hp] at hcons
          simp only [← decide_not] at hcons
          simp only [pathNames, components, List.words_dropWhile, List.map_eq_nil_iff, hcons,
            List.map_cons, true_and]
          exact List.dropWhile_eq_nil_iff_words

end Components

/-! ## The logical tree -/

/-- A node of the logical tree: an inode of device 0 or of device 1. -/
abbrev Node := Nat ⊕ Nat

namespace Node

/-- The device of a node. -/
def dev : Node → Nat
  | .inl _ => 0
  | .inr _ => 1

/-- The inode number of a node. -/
def inum : Node → Nat
  | .inl n => n
  | .inr n => n

end Node

/-- The name `home`. -/
def homeName : List Byte := [0x68, 0x6f, 0x6d, 0x65]

/-- Node `home` is the directory `/home` of a tree. -/
structure IsHome (τ : Dirs) (home : Nat) : Prop where
  child : τ.child τ.root homeName = some home
  isDir : τ.isDir home = true

section Home

variable {τ : Dirs}

theorem IsHome.mem (h : IsHome τ home) : τ.mem home := τ.child_mem τ.root_mem h.child

theorem IsHome.ne_root (h : IsHome τ home) : home ≠ τ.root := (τ.child_parent τ.root_mem h.child).2

end Home

/-- The tree `τ₀` with `τ₁` in place of `/home`. -/
def logical {τ₀ : Dirs} (τ₁ : Dirs) {home : Nat} (h : IsHome τ₀ home) :
    NamedTree Node (List Byte) :=
  τ₀.graft τ₁ home h.mem h.ne_root

/-- Slot `ip` is in use for a node. -/
abbrev At (a : Node) (ip : Fin NINODE) (s : KState) : Prop := Holds a.dev a.inum ip s

/-- The slot returned is for the node, if there is one. -/
def Lands (a : Option Node) (o : Option (Fin NINODE)) (s : KState) : Prop :=
  match o, a with
  | none, none => True
  | some i, some a => At a i s
  | _, _ => False

/-- The devices hold the trees `τ₀` and `τ₁`, and device 1 is mounted on
`/home`. -/
structure Mounted (L₀ L₁ : Layout) (τ₀ τ₁ : Dirs) (home : Nat) (s : KState) : Prop where
  sys : Shows L₀ τ₀ 0 s
  user : Shows L₁ τ₁ 1 s
  mounts : s.mounts = [⟨0, home, 1⟩]

section Moves

variable {L : Layout} {dev n : Nat} {j : Fin NINODE} {p q : List (Fin NINODE)}

theorem Refs.covers (h : Refs p s) : Covers p s := by
  intro i
  have h1 := h i
  have h2 := refsTo_nonneg (l := []) (s := s) (i := i)
  unfold refsTo at h1 h2
  simp only [List.count_nil] at h2
  omega

theorem Covers.of_calm (h : Covers p s) (hc : Calm s s') : Covers p s' := by
  intro i
  rw [hc.ref]
  exact h i

/-- A reference that is not traded keeps its slot. -/
theorem Trades.held (h : Trades p q s s') (hc : Covers (p ++ [j]) s) :
    0 < (s'.inodeTable j).ref ∧ (s.inodeTable j).Kept (s'.inodeTable j) := by
  have hj := hc j
  rw [List.count_append, count_single] at hj
  push_cast at hj
  refine ⟨?_, h.kept j (by omega)⟩
  rw [h.ref]
  omega

theorem Trades.holds (h : Trades p q s s') (hc : Covers (p ++ [j]) s) (hj : Holds dev n j s) :
    Holds dev n j s' := by
  obtain ⟨href, hk⟩ := h.held hc
  exact ⟨href, hk.dev.trans hj.dev_eq, hk.inum.trans hj.inum_eq⟩

theorem Lands.of_trades {a : Option Node} {o : Option (Fin NINODE)} (h : Lands a o s)
    (ht : Trades p q s s') (hc : Covers (p ++ o.toList) s) : Lands a o s' := by
  cases o with
  | none =>
      cases a with
      | none => trivial
      | some a => exact h.elim
  | some i =>
      cases a with
      | none => exact h.elim
      | some a => exact ht.holds hc h

theorem Covers.nil (h : Covers p s) : Covers [] s := by
  intro i
  have := h i
  simp only [List.count_nil]
  omega

theorem Covers.perm (h : Covers p s) (hp : p.Perm q) : Covers q s := by
  intro i
  rw [← hp.count_eq]
  exact h i

end Moves

section Mounted

variable {hm : IsHome τ₀ home}

theorem Mounted.of_calm (h : Mounted L₀ L₁ τ₀ τ₁ home s) (hc : Calm s s') :
    Mounted L₀ L₁ τ₀ τ₁ home s' :=
  ⟨h.sys.of_calm hc, h.user.of_calm hc, by rw [hc.mounts]; exact h.mounts⟩

theorem Mounted.iget {d m : Nat} (h : Mounted L₀ L₁ τ₀ τ₁ home s)
    (hx : iget d m s = .ok i s') : Mounted L₀ L₁ τ₀ τ₁ home s' :=
  ⟨h.sys.iget hx, h.user.iget hx, by rw [(Idle.iget.of_ok hx).mounts]; exact h.mounts⟩

theorem Mounted.iput {u : Unit} (h : Mounted L₀ L₁ τ₀ τ₁ home s) (hx : iput ip s = .ok u s') :
    Mounted L₀ L₁ τ₀ τ₁ home s' :=
  ⟨h.sys.iput hx, h.user.iput hx, by rw [(Idle.iput.of_ok hx).mounts]; exact h.mounts⟩

/-- A reference is given back. -/
theorem Mounted.iput_ends {l : List (Fin NINODE)} (h : Mounted L₀ L₁ τ₀ τ₁ home s)
    (hc : Covers (ip :: l) s) :
    Ends (fun _ t => Mounted L₀ L₁ τ₀ τ₁ home t ∧ Trades [ip] [] s t ∧ Covers l t) NoSlot
      (Dmaos.iput ip) s where
  stops := by
    refine (iput_returns ?_).stops
    have := hc ip
    rw [List.count_cons_self] at this
    omega
  ok hx := by
    have ht := Nets.iput.ok (Covers.left (p := [ip]) hc) hx
    exact ⟨h.iput hx, ht, (ht.frame l).covers hc⟩

/-- A step that was found by reading a directory. -/
theorem Mounted.fetches {o : Option (Fin NINODE)} {dev : Nat} {m : Option Nat} {f : Nat → Node}
    (h : Mounted L₀ L₁ τ₀ τ₁ home s) (hf : Fetches o dev m s s')
    (hdev : ∀ n, (f n).dev = dev) (hinum : ∀ n, (f n).inum = n) :
    Mounted L₀ L₁ τ₀ τ₁ home s' ∧ Lands (m.map f) o s' := by
  obtain ⟨t, hc, hcase⟩ := hf
  have ht := h.of_calm hc
  cases o with
  | none =>
      cases m with
      | none => exact ⟨hcase ▸ ht, trivial⟩
      | some m => exact hcase.elim
  | some i =>
      cases m with
      | none => exact hcase.elim
      | some m =>
          refine ⟨ht.iget hcase, ?_⟩
          show Holds (f m).dev (f m).inum i s'
          rw [hdev, hinum]
          exact iget_holds hcase

/-- `ilock` on a slot for a node of the tree. -/
theorem Mounted.ilock (h : Mounted L₀ L₁ τ₀ τ₁ home s) (hat : At a ip s)
    (ha : (logical τ₁ hm).mem a) :
    Ends (fun _ t => Calm s t ∧ (t.inodeTable ip).valid = true ∧
        ((t.inodeTable ip).dinode.type = FT_DIRECTORY ↔ (logical τ₁ hm).isDir a = true))
      NoSlot (ilock ip) s := by
  cases a with
  | inl n => exact h.sys.ilock hat ha.1
  | inr n => exact h.user.ilock hat ha

/-! ## One step -/

/-- Where a name leads from a node, before mount points are taken into account
on the way down. -/
def rawStep (τ₀ τ₁ : Dirs) (home : Nat) : Node → List Byte → Option Node
  | .inl n, x => (τ₀.step n (toStep x)).map .inl
  | .inr n, x =>
    if x = dotdot ∧ n = 1 then (τ₀.step home .up).map .inl else (τ₁.step n (toStep x)).map .inr

/-- Mount points are crossed on the way down. -/
def cross (home : Nat) : Node → Node
  | .inl n => if n = home then .inr 1 else .inl n
  | .inr n => .inr n

/-- The two parts of a step make up a step in the logical tree. -/
theorem step_logical (h₁ : τ₁.root = 1) (ha : (logical τ₁ hm).mem a)
    (hd : (logical τ₁ hm).isDir a = true) (x : List Byte) :
    (logical τ₁ hm).step a (toStep x) = (rawStep τ₀ τ₁ home a x).map (cross home) := by
  have hne : τ₀.parent home ≠ home := by
    intro he
    refine NamedTree.not_above_parent hm.mem hm.ne_root ?_
    rw [he]
    exact .refl home
  cases a with
  | inl n =>
      have hdir : τ₀.isDir n = true := hd
      have hn : n ≠ home := fun he => ha.2 (he ▸ NamedTree.Above.refl n)
      have hp : τ₀.parent n ≠ home := fun he => ha.2 (.of_parent (he ▸ .refl (τ₀.parent n)))
      unfold NamedTree.step
      rw [if_pos hd]
      simp only [rawStep, NamedTree.step, hdir, if_true]
      cases toStep x with
      | here => simp [cross, hn]
      | up => simp [cross, hp, logical, NamedTree.graft, NamedTree.graftParent]
      | down x =>
          simp only [logical, NamedTree.graft, NamedTree.graftChild, Option.map_map,
            comp_def, cross,
            h₁]
  | inr n =>
      have hdir : τ₁.isDir n = true := hd
      unfold NamedTree.step
      rw [if_pos hd]
      simp only [rawStep]
      by_cases hx : x = dotdot ∧ n = 1
      · -- Up from the root of device 1.
        obtain ⟨rfl, rfl⟩ := hx
        simp [toStep_dotdot, NamedTree.step, hm.isDir, logical, NamedTree.graft,
          NamedTree.graftParent, h₁, cross,
          hne]
      · rw [if_neg hx]
        simp only [NamedTree.step, hdir, if_true]
        unfold toStep
        split_ifs with hdot hup
        · simp [cross]
        · have hn : n ≠ 1 := fun he => hx ⟨hup, he⟩
          simp [cross, logical, NamedTree.graft, NamedTree.graftParent, h₁, hn]
        · simp [logical, NamedTree.graft, NamedTree.graftChild, comp_def, cross]

/-- `..` at the root of device 1 is looked up in `/home` of device 0. -/
theorem Mounted.mountParent (h : Mounted L₀ L₁ τ₀ τ₁ home s) (hat : At a ip s)
    (hm : IsHome τ₀ home) (hcov : Covers [] s) (x : List Byte) :
    Ends (fun o t => Mounted L₀ L₁ τ₀ τ₁ home t ∧
        if x = dotdot ∧ a = .inr 1 then Lands ((τ₀.step home .up).map .inl) o t else o = none)
      NoSlot (mountParent ip x) s := by
  refine .run rfl ?_
  have hcond : (x = dotdot ∧ (s.inodeTable ip).inum = 1 ∧ (s.inodeTable ip).dev ≠ 0) ↔
      (x = dotdot ∧ a = .inr 1) := by
    rw [hat.inum_eq, hat.dev_eq]
    cases a with
    | inl n => simp [Node.dev]
    | inr n => simp [Node.dev, Node.inum]
  rw [if_congr hcond rfl rfl]
  split_ifs with hup
  · have hfind : s.mounts.find? (fun m => m.childDev == (s.inodeTable ip).dev) =
        some ⟨0, home, 1⟩ := by
      rw [h.mounts, hat.dev_eq, hup.2]
      rfl
    refine .run rfl ?_
    rw [hfind]
    refine .bind (Q := fun pm t => Mounted L₀ L₁ τ₀ τ₁ home t ∧ Holds 0 home pm t ∧ Covers [pm] t)
      ⟨fun hg => ⟨h.iget hg, iget_holds hg, (Nets.iget.ok hcov hg).covers hcov⟩, iget_stops⟩ ?_
    rintro pm t - ⟨ht, hpm, hcov⟩
    refine .bind (ht.sys.ilock hpm hm.mem) ?_
    rintro u t₁ - ⟨hc, hv, -⟩
    have ht₁ := ht.of_calm hc
    have hcov₁ := hcov.of_calm hc
    refine .bind (ht₁.sys.dirlookup (hpm.of_calm hc) hv hm.mem hm.isDir isName_dotdot) ?_
    intro o t₂ hlook hf
    obtain ⟨ht₂, hland⟩ := ht₁.fetches (f := .inl) hf (fun _ => rfl) (fun _ => rfl)
    have hcov₂ : Covers (pm :: (o.map Prod.fst).toList) t₂ :=
      (((Nets.dirlookup.ok hcov₁.nil hlook).frame [pm]).covers hcov₁).perm List.perm_append_comm
    refine .bind (ht₂.iput_ends hcov₂) ?_
    rintro u t₃ - ⟨ht₃, htr, -⟩
    exact .pure ⟨ht₃, hland.of_trades htr hcov₂⟩
  · exact .pure ⟨h, rfl⟩

/-- The next node, before mount points are crossed. -/
theorem Mounted.namexNext (h : Mounted L₀ L₁ τ₀ τ₁ home s) (hat : At a ip s)
    (hv : (s.inodeTable ip).valid = true) (ha : (logical τ₁ hm).mem a)
    (hd : (logical τ₁ hm).isDir a = true) (hx : IsName x) (hcov : Covers [ip] s) :
    Ends (fun o t => Mounted L₀ L₁ τ₀ τ₁ home t ∧ Lands (rawStep τ₀ τ₁ home a x) o t) NoSlot
      (namexNext ip x) s := by
  refine .bind (h.mountParent hat hm hcov.nil x) ?_
  rintro o t hp ⟨ht, hcase⟩
  split_ifs at hcase with hup
  · obtain ⟨rfl, rfl⟩ := hup
    -- The directory above `/home` exists, so it is found.
    have hraw : rawStep τ₀ τ₁ home (.inr 1) dotdot = (τ₀.step home .up).map .inl := by
      rw [rawStep, if_pos ⟨rfl, rfl⟩]
    rw [← hraw] at hcase
    cases o with
    | some i => exact .pure ⟨ht, hcase⟩
    | none =>
        rw [hraw, NamedTree.step, if_pos hm.isDir] at hcase
        exact hcase.elim
  · subst hcase
    have htr := Nets.mountParent.ok hcov.nil hp
    have hat' := htr.holds (hcov : Covers ([] ++ [ip]) s) hat
    have hv' := (htr.held (hcov : Covers ([] ++ [ip]) s)).2.valid hv
    cases a with
    | inl n =>
        refine .bind (ht.sys.dirlookup hat' hv' ha.1 hd hx) ?_
        intro o t' _ hf
        exact .pure (ht.fetches hf (fun _ => rfl) (fun _ => rfl))
    | inr n =>
        have hraw : rawStep τ₀ τ₁ home (.inr n) x = (τ₁.step n (toStep x)).map .inr := by
          rw [rawStep, if_neg fun he => hup ⟨he.1, by rw [he.2]⟩]
        rw [hraw]
        refine .bind (ht.user.dirlookup hat' hv' ha hd hx) ?_
        intro o t' _ hf
        exact .pure (ht.fetches hf (fun _ => rfl) (fun _ => rfl))

/-- Mount points are crossed. -/
theorem Mounted.mountChild (h : Mounted L₀ L₁ τ₀ τ₁ home s) (hat : At a ip s)
    (hcov : Covers [ip] s) :
    Ends (fun i t => Mounted L₀ L₁ τ₀ τ₁ home t ∧ At (cross home a) i t) NoSlot
      (mountChild ip) s := by
  refine .run rfl (.run rfl ?_)
  rw [h.mounts, hat.dev_eq, hat.inum_eq]
  cases a with
  | inr n => exact .pure ⟨h, hat⟩
  | inl n =>
      by_cases hn : n = home
      · subst hn
        simp only [List.find?, Node.dev, Node.inum, beq_self_eq_true, Bool.and_self]
        refine .bind (h.iput_ends hcov) ?_
        rintro u t - ⟨ht, -, -⟩
        refine ⟨fun hg => ⟨ht.iget hg, ?_⟩, iget_stops⟩
        simp only [cross, if_true]
        exact iget_holds hg
      · simp only [List.find?, Node.dev, Node.inum, beq_self_eq_true, Bool.true_and,
          beq_eq_false_iff_ne.mpr (Ne.symm hn)]
        refine .pure ⟨h, ?_⟩
        simp only [cross, if_neg hn]
        exact hat

end Mounted

/-! ## The walk -/

/-- What `namex` looks for: the node the components lead to, or with `parent`
the directory the last of them should be in. -/
def target (T : NamedTree Node (List Byte)) (parent : Bool) (a : Node) (xs : List (List Byte)) :
    Option Node :=
  if parent then
    if xs = [] then none else (T.walk a (xs.dropLast.map toStep)).filter (T.isDir ·)
  else T.walk a (xs.map toStep)

section Target

theorem target_nil : target T parent a [] = if parent then none else some a := by
  cases parent <;> rfl

theorem target_not_dir (h : T.isDir a = false) : target T parent a (x :: xs) = none := by
  cases parent with
  | false => simp [target, NamedTree.walk_cons, NamedTree.step_of_not_dir h]
  | true =>
      cases xs with
      | nil => simp [target, h]
      | cons y ys => simp [target, NamedTree.walk_cons, NamedTree.step_of_not_dir h]

theorem target_last (h : T.isDir a = true) : target T true a [x] = some a := by
  simp [target, h]

theorem target_cons (h : ¬ (parent = true ∧ xs = [])) :
    target T parent a (x :: xs) =
      (T.step a (toStep x)).bind fun b => target T parent b xs := by
  cases parent with
  | false => rfl
  | true =>
      cases xs with
      | nil => exact absurd ⟨rfl, rfl⟩ h
      | cons y ys =>
          simp only [target, List.dropLast_cons_of_ne_nil, ne_eq, reduceCtorEq, not_false_eq_true,
            if_true, if_false, List.map_cons, NamedTree.walk_cons]
          cases T.step a (toStep x) <;> rfl

end Target

/-- What `namex` returns for components `xs` that are walked from node `a`. -/
structure Resolved (T : NamedTree Node (List Byte)) (parent : Bool) (a : Node)
    (xs : List (List Byte))
    (r : Option (Fin NINODE) × List Byte) (s : KState) : Prop where
  lands : Lands (target T parent a xs) r.1 s
  /-- The parent directory comes with the last component. -/
  last : parent = true → r.1 ≠ none → some r.2 = xs.getLast?

theorem Resolved.none (h : target T parent a xs = none) : Resolved T parent a xs (none, y) s :=
  ⟨by rw [h]; trivial, fun _ hne => absurd rfl hne⟩

section Walk

variable {hm : IsHome τ₀ home}

/-- The path leads nowhere: the reference is given back. -/
theorem Mounted.leave (h : Mounted L₀ L₁ τ₀ τ₁ home s) (hcov : Covers [ip] s)
    (hnone : target (logical τ₁ hm) parent a xs = none) :
    Ends (fun r t => Mounted L₀ L₁ τ₀ τ₁ home t ∧ Resolved (logical τ₁ hm) parent a xs r t) NoSlot
      (do Dmaos.iput ip; pure (none, y)) s := by
  refine .bind (h.iput_ends hcov) ?_
  rintro u t - ⟨ht, -, -⟩
  exact .pure ⟨ht, .none hnone⟩

/-- The loop of `namex` walks the names that are left. -/
theorem Mounted.namexLoop :
    ∀ {k : Nat} {path : List Byte} {ip : Fin NINODE} {name : List Byte} {a : Node} {s : KState},
      path.length < k → Mounted L₀ L₁ τ₀ τ₁ home s → At a ip s → (logical τ₁ hm).mem a →
      Covers [ip] s → (∀ x ∈ pathNames path, IsName x) →
      Ends (fun r t => Mounted L₀ L₁ τ₀ τ₁ home t ∧
          Resolved (logical τ₁ hm) parent a (pathNames path) r t)
        NoSlot (namexLoop parent k path ip name) s
  | 0, path, ip, name, a, s, hk, h, hat, ha, hcov, hnames => by omega
  | k + 1, path, ip, name, a, s, hk, h, hat, ha, hcov, hnames => by
      unfold Dmaos.namexLoop
      cases hskip : skipto path with
      | none =>
          have hnil := skipto_none hskip
          rw [hnil]
          cases parent with
          | true => exact h.leave hcov target_nil
          | false => exact .pure ⟨h, hat, fun hp => by cases hp⟩
      | some step =>
          obtain ⟨x, rest⟩ := step
          obtain ⟨hcomp, hrest⟩ := skipto_some hskip
          have hlen := skipto_length hskip
          rw [hcomp] at hnames ⊢
          have hx : IsName x := hnames x List.mem_cons_self
          refine .bind (h.ilock hat ha) ?_
          rintro u t - ⟨hc, hv, htype⟩
          have ht := h.of_calm hc
          have hat := hat.of_calm hc
          have hcov := hcov.of_calm hc
          refine .run rfl ?_
          split_ifs with hnodir hlast
          · -- Not a directory.
            refine ht.leave hcov (target_not_dir ?_)
            rw [← Bool.not_eq_true, ← htype]
            exact hnodir
          · -- The directory the last component is in.
            obtain ⟨rfl, rfl⟩ := hlast
            refine .pure ⟨ht, ?_, fun _ _ => rfl⟩
            rw [pathNames, components, List.words_nil, List.map_nil,
              target_last (htype.mp (not_not.mp hnodir))]
            exact hat
          · have hd := htype.mp (not_not.mp hnodir)
            have hstep := step_logical (x := x) ht.user.tree.root_eq ha hd
            rw [hrest] at hlast
            refine .bind (ht.namexNext hat hv ha hd hx hcov) ?_
            rintro o t₁ hnext ⟨ht₁, hland⟩
            have hcov₁ := ((Nets.namexNext.ok hcov.nil hnext).frame [ip]).covers hcov
            cases hraw : rawStep τ₀ τ₁ home a x with
            | none =>
                rw [hraw] at hland hstep
                cases o with
                | some i => exact hland.elim
                | none => exact ht₁.leave hcov₁ (by rw [target_cons hlast, hstep]; rfl)
            | some c =>
                rw [hraw] at hland hstep
                cases o with
                | none => exact hland.elim
                | some next =>
                    refine .bind (ht₁.mountChild hland (Covers.left (p := [next]) hcov₁)) ?_
                    rintro next' t₂ hmc ⟨ht₂, hat₂⟩
                    have htr := Nets.mountChild.ok (Covers.left (p := [next]) hcov₁) hmc
                    have hcov₂ := ((htr.frame [ip]).covers hcov₁).perm (.swap _ _ [])
                    refine .bind (ht₂.iput_ends hcov₂) ?_
                    rintro u t₃ - ⟨ht₃, htr₃, hcov₃⟩
                    refine (Mounted.namexLoop (by omega) ht₃ (htr₃.holds hcov₂ hat₂)
                      (NamedTree.step_mem ha hstep) hcov₃
                      fun z hz => hnames z (List.mem_cons_of_mem x hz)).mono ?_
                    rintro r t' ⟨ht', hland', hlast'⟩
                    refine ⟨ht', ?_, fun hp hr => ?_⟩
                    · rw [target_cons hlast, hstep]
                      exact hland'
                    · rw [hlast' hp hr, List.getLast?_cons_of_ne_nil fun he => hlast ⟨hp, he⟩]

end Walk

/-! ## `namex` -/

/-- Node `a` is the working directory of the current process; without one it is
the root. -/
def KState.CwdAt (s : KState) (a : Node) : Prop :=
  match s.current.bind fun p => (s.procs p).cwd with
  | some c => (s.inodeTable c).dev = a.dev ∧ (s.inodeTable c).inum = a.inum
  | none => a = .inl 1

/-- The node a path starts from. -/
def startNode (path : List Byte) (a : Node) : Node :=
  if path.head? = some slash then .inl 1 else a

section Names

theorem Mounted.namexStart {path : List Byte} (h : Mounted L₀ L₁ τ₀ τ₁ home s)
    (hcwd : path.head? ≠ some slash → s.CwdAt a) :
    Ends (fun i t => Mounted L₀ L₁ τ₀ τ₁ home t ∧ At (startNode path a) i t) NoSlot
      (namexStart path) s := by
  have get : ∀ {d m : Nat} {b : Node}, d = b.dev → m = b.inum →
      Ends (fun i t => Mounted L₀ L₁ τ₀ τ₁ home t ∧ At b i t) NoSlot (Dmaos.iget d m) s := by
    rintro d m b rfl rfl
    exact ⟨fun hg => ⟨h.iget hg, iget_holds hg⟩, iget_stops⟩
  refine .run rfl ?_
  unfold startNode
  split_ifs with habs
  · exact get rfl rfl
  · replace hcwd := hcwd habs
    unfold KState.CwdAt at hcwd
    cases hc : s.current.bind fun p => (s.procs p).cwd with
    | some c =>
        rw [hc] at hcwd
        exact get hcwd.1 hcwd.2
    | none =>
        rw [hc] at hcwd
        exact get (by rw [hcwd]; rfl) (by rw [hcwd]; rfl)

theorem Mounted.root_mem (h : Mounted L₀ L₁ τ₀ τ₁ home s) (hm : IsHome τ₀ home) :
    (logical τ₁ hm).mem (.inl 1) := by
  have := (logical τ₁ hm).root_mem
  rwa [show (logical τ₁ hm).root = .inl 1 from congrArg Sum.inl h.sys.tree.root_eq] at this

/-- `namex` resolves a path in the logical tree. -/
theorem Mounted.namex (h : Mounted L₀ L₁ τ₀ τ₁ home s) (hm : IsHome τ₀ home) (hcov : Covers [] s)
    (hcwd : path.head? ≠ some slash → s.CwdAt a ∧ (logical τ₁ hm).mem a)
    (hnames : ∀ x ∈ pathNames path, IsName x) :
    Ends (fun r t => Mounted L₀ L₁ τ₀ τ₁ home t ∧
        Resolved (logical τ₁ hm) parent (startNode path a) (pathNames path) r t)
      NoSlot (Dmaos.namex path parent) s := by
  refine .bind (h.namexStart fun hrel => (hcwd hrel).1) ?_
  rintro ip t hstart ⟨ht, hat⟩
  refine ht.namexLoop (Nat.lt_add_one _) hat ?_ ((Nets.namexStart.ok hcov hstart).covers hcov)
    hnames
  unfold startNode
  split_ifs with habs
  · exact h.root_mem hm
  · exact (hcwd habs).2

end Names

end Dmaos
