import Dmaos.Handle.Refs

/-!
# Exact reference counts in the inode cache

`Refs` bounds the reference counts from below.  They are in fact exact:
`Nets p x q` types a computation by the references it consumes and returns.  It
starts with the references `p` and ends with `q a`, where `a` is its value; it
changes the count of each slot by the difference of the two, and it never gives
back a reference that is not counted.  Slots with further references stay in use
for their inode.  `iget` is a `Nets [] _ [ip]`, `iput` a `Nets [ip] _ []`, and the
rules follow the shape of programs.

So no computation stops in `iput` over a bad count: the errors are all `Fair`.
-/

namespace Dmaos

open Fault KState

variable {p r : List (Fin NINODE)} {s s' : KState} {ip dp : Fin NINODE} {dev inum type : Nat}
  {index : Int}

/-! ## Net changes -/

/-- The references `p` are counted. -/
def Covers (p : List (Fin NINODE)) (s : KState) : Prop :=
  ∀ i, (p.count i : Int) ≤ (s.inodeTable i).ref

/-- The references `p` are exchanged for `r`.  A slot with further references
stays in use for its inode. -/
structure Trades (p r : List (Fin NINODE)) (s s' : KState) : Prop extends Tables s s' where
  ref : ∀ i, (s'.inodeTable i).ref = (s.inodeTable i).ref - p.count i + r.count i
  kept : ∀ i, (p.count i : Int) < (s.inodeTable i).ref → (s.inodeTable i).Kept (s'.inodeTable i)

/-- `x` starts with the references `p` and ends with `q a`, and the counts
change by the difference. -/
structure Nets {α : Type} (p : List (Fin NINODE)) (x : Kern α) (q : α → List (Fin NINODE)) :
    Prop where
  ok : ∀ {s s' : KState} {a : α}, Covers p s → x s = .ok a s' → Trades p (q a) s s'
  fair : ∀ {s s' : KState} {e : Halt}, Covers p s → x s = .error e s' → e.Fair

section Trades

variable {q : List (Fin NINODE)} {s'' : KState}

theorem Trades.refl (h : p.Perm r) (s : KState) : Trades p r s s :=
  ⟨refl_of Tables s, fun i => by rw [h.count_eq]; omega, fun _ _ => .refl _⟩

theorem Trades.trans (h₁ : Trades p q s s') (h₂ : Trades q r s' s'') : Trades p r s s'' where
  toTables := trans_of Tables h₁.toTables h₂.toTables
  ref := by
    intro i
    rw [h₂.ref, h₁.ref]
    omega
  kept := by
    intro i hi
    refine (h₁.kept i hi).trans (h₂.kept i ?_)
    rw [h₁.ref]
    omega

theorem Trades.covers (h : Trades p r s s') (hp : Covers p s) : Covers r s' := by
  intro i
  have := hp i
  rw [h.ref]
  omega

theorem Covers.left (h : Covers (p ++ r) s) : Covers p s := by
  intro i
  have := h i
  rw [List.count_append] at this
  omega

theorem Trades.frame (h : Trades p q s s') (r : List (Fin NINODE)) :
    Trades (p ++ r) (q ++ r) s s' := by
  refine ⟨h.toTables, fun i => ?_, fun i hi => h.kept i ?_⟩
  · rw [h.ref, List.count_append, List.count_append]
    push_cast
    omega
  · rw [List.count_append] at hi
    omega

end Trades

namespace Nets

variable {α β : Type} {q : α → List (Fin NINODE)} {q' : β → List (Fin NINODE)} {x : Kern α}
  {f : α → Kern β}

theorem bind (hx : Nets p x q) (hf : ∀ a, Nets (q a) (f a) q') : Nets p (x >>= f) q' where
  ok := by
    intro s s' b hs h
    obtain ⟨a, t, ha, h⟩ := bind_ok.mp h
    have h1 := hx.ok hs ha
    exact h1.trans ((hf a).ok (h1.covers hs) h)
  fair := by
    intro s s' e hs h
    cases ha : x s with
    | ok a t =>
        rw [run_bind ha] at h
        exact (hf a).fair ((hx.ok hs ha).covers hs) h
    | error e' t =>
        rw [run_bind_error ha] at h
        cases h
        exact hx.fair hs ha

theorem pure {a : α} (h : p = q a) : Nets p (pure a) q where
  ok := by
    intro s s' b _ hx
    obtain ⟨rfl, rfl⟩ := pure_ok.mp hx
    exact .refl (h ▸ .refl _) s
  fair _ hx := by cases hx

theorem ite {c : Prop} [Decidable c] {x y : Kern α} (hx : Nets p x q) (hy : Nets p y q) :
    Nets p (if c then x else y) q := by
  split_ifs
  · exact hx
  · exact hy

/-- References the computation does not use are kept. -/
theorem frame (h : Nets p x q) (r : List (Fin NINODE)) : Nets (p ++ r) x (fun a => q a ++ r) where
  ok hs hx := (h.ok hs.left hx).frame r
  fair hs hx := h.fair hs.left hx

/-- The references may be given in another order. -/
theorem perm (h : Nets r x q) (hp : p.Perm r) : Nets p x q where
  ok hs hx := (Trades.refl hp _).trans (h.ok ((Trades.refl hp _).covers hs) hx)
  fair hs hx := h.fair ((Trades.refl hp _).covers hs) hx

/-- A computation that leaves the use of the cache as it is. -/
theorem of_calm (h : Confined Calm Fairly x) : Nets p x (fun _ => p) where
  ok := by
    intro s s' a _ hx
    have hc := h.of_ok hx
    exact ⟨hc.toTables, fun i => by rw [hc.ref]; omega,
      fun i _ => ⟨hc.dev i, hc.inum i, hc.valid⟩⟩
  fair _ hx := h.raises hx

/-- A computation on the inode of one slot. -/
theorem of_local (h : ∀ d, LocalOn d ip x) (hf : Fair x) : Nets p x (fun _ => p) where
  ok := by
    intro s s' a _ hx
    have ht := (h _).of_ok rfl hx
    exact ⟨ht.tables, fun i => by rw [(ht.slot i).2.2]; omega, fun i _ => ht.kept i⟩
  fair _ hx := hf.raises hx

/-- Read the cache or a device, then go on. -/
theorem calm (hx : Confined Calm Fairly x) (hf : ∀ a, Nets p (f a) q') : Nets p (x >>= f) q' :=
  .bind (of_calm hx) hf

theorem localThen
    (hx : ∀ d, LocalOn d ip x) (hr : Fair x) (hf : ∀ a, Nets p (f a) q') : Nets p (x >>= f) q' :=
  .bind (of_local hx hr) hf

theorem inodeAt {f : Inode → Kern β} (hf : ∀ I, Nets p (f I) q') : Nets p (inodeAt ip >>= f) q' :=
  .calm .inodeAt hf

theorem ilock {f : Unit → Kern β} (hf : ∀ u, Nets p (f u) q') : Nets p (ilock ip >>= f) q' :=
  .calm .ilock hf

theorem writeBlock {b : Nat} {buf : Buf} : Nets p (writeBlock dev b buf) (fun _ => p) where
  ok := by
    intro s s' u _ hx
    rw [writeBlock_ok hx]
    exact ⟨⟨rfl, rfl, rfl, rfl, rfl⟩, fun i => by show (s.inodeTable i).ref = _; omega,
      fun _ _ => .refl _⟩
  fair _ hx := Confined.raises (R := Steady) (E := Fairly) .writeBlock hx

/-- The counts stay large enough, and the slots the caller refers to are kept. -/
theorem refs {l : List (Fin NINODE)} {a : α} (h : Nets p x q)
    (hl : Refs (p ++ l) s) (hx : x s = .ok a s') : Refs (q a ++ l) s' ∧ Stable l s s' := by
  have hle : ∀ i, refsTo l s i + p.count i ≤ (s.inodeTable i).ref := by
    intro i
    have := hl i
    unfold refsTo at this ⊢
    rw [List.count_append] at this
    omega
  have ht := h.ok (fun i => le_trans (le_add_of_nonneg_left refsTo_nonneg) (hle i)) hx
  refine ⟨fun i => ?_, fun i hi => ht.kept i ?_⟩
  · have := hle i
    rw [ht.toTables.refsTo_eq, ht.ref]
    unfold refsTo at this ⊢
    rw [List.count_append]
    omega
  · have := hle i
    omega

end Nets

/-! ## `iget` and `iput` -/

section Cache

variable {i : Fin NINODE}

/-- One slot changes its count. -/
theorem Trades.putInode {I : Inode}
    (hself : I.ref = (s.inodeTable ip).ref - p.count ip + r.count ip)
    (hother : ∀ i, i ≠ ip → p.count i = r.count i)
    (hkept : (p.count ip : Int) < (s.inodeTable ip).ref → (s.inodeTable ip).Kept I) :
    Trades p r s (s.putInode ip I) := by
  refine ⟨(Idle.putInode s ip I).toTables, fun i => ?_, fun i hi => ?_⟩
  · by_cases hi : i = ip
    · subst hi
      rw [putInode_self]
      exact hself
    · rw [putInode_of_ne hi, hother i hi]
      omega
  · by_cases hip : i = ip
    · subst hip
      rw [putInode_self]
      exact hkept hi
    · rw [putInode_of_ne hip]
      exact .refl _

theorem count_single (ip : Fin NINODE) : ([ip] : List (Fin NINODE)).count ip = 1 :=
  List.count_singleton_self

theorem count_single_of_ne (h : i ≠ ip) : ([ip] : List (Fin NINODE)).count i = 0 :=
  List.count_eq_zero.mpr (by simpa using h)

theorem Nets.iget : Nets [] (iget dev inum) (fun i => [i]) where
  ok := by
    intro s s' i _ hx
    rcases iget_ok hx with ⟨-, -, -, rfl⟩ | ⟨-, h0, rfl⟩
    · refine .putInode ?_ (fun j hj => (count_single_of_ne hj).symm) fun _ => ⟨rfl, rfl, id⟩
      rw [count_single]
      show (s.inodeTable i).ref + 1 = (s.inodeTable i).ref - 0 + 1
      omega
    · -- The slot taken has no references.
      refine .putInode ?_ (fun j hj => (count_single_of_ne hj).symm) fun hi => ?_
      · rw [count_single, h0]
        rfl
      · rw [h0] at hi
        exact absurd hi (lt_irrefl 0)
  fair _ hx := Confined.raises (R := Steady) (E := Fairly) .iget hx

theorem Nets.iput : Nets [ip] (iput ip) (fun _ => []) where
  ok := by
    intro s s' u _ hx
    obtain ⟨-, rfl⟩ := iput_ok hx
    refine .putInode ?_ (fun j hj => count_single_of_ne hj) fun _ => ⟨rfl, rfl, id⟩
    rw [count_single]
    show (s.inodeTable ip).ref - 1 = _ - 1 + 0
    omega
  fair := by
    intro s s' e hs hx
    have h1 := hs ip
    rw [count_single] at h1
    unfold Dmaos.iput at hx
    split_ifs at hx with h0
    omega

end Cache

/-! ## Names and directories -/

section Names

variable {name path : List Byte} {parent : Bool}

theorem Nets.iput_second : Nets [dp, ip] (Dmaos.iput ip) (fun _ => [dp]) :=
  (Nets.iput.frame [dp]).perm (.swap _ _ [])

theorem Nets.dirlookupLoop : ∀ {k off : Nat},
    Nets [] (dirlookupLoop dp name k off) (fun o => (o.map Prod.fst).toList)
  | 0, _ => .pure rfl
  | _ + 1, _ => .inodeAt fun _ => .ite (.pure rfl)
      (.calm .readDirent fun
        | none => .pure rfl
        | some _ => .ite .dirlookupLoop
            (.ite (.bind .iget fun _ => .pure rfl) .dirlookupLoop))

theorem Nets.dirlookup : Nets [] (dirlookup dp name) (fun o => (o.map Prod.fst).toList) :=
  .inodeAt fun _ => .ite (.pure rfl) (.ilock fun _ => .inodeAt fun _ => .dirlookupLoop)

theorem Nets.mountParent : Nets [] (mountParent ip name) (fun o => o.toList) := by
  refine .inodeAt fun I => .ite (.calm .get fun s => ?_) (.pure rfl)
  split
  · exact .pure rfl
  · refine .bind .iget fun pm => .ilock fun _ => .bind (Nets.dirlookup.frame [pm]) fun o => ?_
    refine .bind (q := fun _ => (o.map Prod.fst).toList) ?_ fun _ => .pure rfl
    cases o with
    | none => exact .iput
    | some o => exact .iput_second

theorem Nets.mountChild : Nets [ip] (mountChild ip) (fun i => [i]) := by
  refine .inodeAt fun N => .calm .get fun s => ?_
  split
  · exact .pure rfl
  · exact .bind .iput fun _ => .iget

theorem Nets.namexNext : Nets [] (namexNext ip name) (fun o => o.toList) :=
  .bind .mountParent fun
    | some _ => .pure rfl
    | none => .bind .dirlookup fun _ => .pure rfl

theorem Nets.namexLoop : ∀ {k : Nat} {path : List Byte} {ip : Fin NINODE} {name : List Byte},
    Nets [ip] (namexLoop parent k path ip name) (fun r => r.1.toList)
  | 0, _, _, _ => .pure rfl
  | k + 1, path, ip, name => by
      unfold Dmaos.namexLoop
      split
      · exact .ite (.bind .iput fun _ => .pure rfl) (.pure rfl)
      · exact .ilock fun _ => .inodeAt fun I =>
          .ite (.bind .iput fun _ => .pure rfl) (.ite (.pure rfl)
            (.bind (Nets.namexNext.frame [ip]) fun
              | none => .bind .iput fun _ => .pure rfl
              | some _ => .bind (Nets.mountChild.frame [ip]) fun _ =>
                  .bind .iput_second fun _ => .namexLoop))

theorem Nets.namexStart : Nets [] (namexStart path) (fun i => [i]) := by
  refine .calm .get fun s => .ite .iget ?_
  split
  · exact .iget
  · exact .iget

/-- `namex` takes one reference, to the inode it returns. -/
theorem Nets.namex : Nets [] (namex path parent) (fun r => r.1.toList) :=
  .bind .namexStart fun _ => .namexLoop

theorem Nets.namei : Nets [] (namei path) (fun o => o.toList) :=
  .bind .namex fun _ => .pure rfl

theorem Nets.iallocScan : ∀ {k inum : Nat},
    Nets [] (iallocScan dev type k inum) (fun o => o.toList)
  | 0, _ => .pure rfl
  | _ + 1, _ => .calm .superblock fun _ =>
      .calm .readBlock fun _ =>
        .ite (.bind .writeBlock fun _ => .bind .iget fun ip =>
          .localThen (show ∀ d, LocalOn d ip _ from fun _ s _ =>
              .putInode s rfl rfl rfl fun _ => rfl)
            (.modify fun _ => Storing.putInode) fun _ => .pure rfl) .iallocScan

theorem Nets.ialloc : Nets [] (ialloc dev type) (fun o => o.toList) :=
  .calm .superblock fun _ => .iallocScan

theorem Nets.dirlink : Nets p (dirlink dp name inum) (fun _ => p) :=
  .bind (Nets.dirlookup.frame p) fun
    | some _ => .bind (Nets.iput.frame p) fun _ => .pure rfl
    | none => .ilock fun _ => .inodeAt fun _ => .calm .dirlinkLoop fun
        | none => .pure rfl
        | some _ => .localThen (fun _ => .writei) .writei fun _ =>
            .ite (.pure rfl) (.pure rfl)

theorem Nets.fsMkdirFill : Nets p (fsMkdirFill dp ip name) (fun _ => p) :=
  .inodeAt fun _ => .inodeAt fun _ => .localThen (fun _ => .writei) .writei fun _ =>
    .ite (.pure rfl) (.localThen (fun _ => .writei) .writei fun _ =>
      .ite (.pure rfl) (.bind .dirlink fun _ =>
        .ite (.pure rfl) (.pure rfl)))

theorem Nets.iput_both {α : Type} {a : α} :
    Nets [ip, dp] (do Dmaos.iput ip; Dmaos.iput dp; Pure.pure a) (fun _ => []) :=
  .bind (Nets.iput.frame [dp]) fun _ => .bind .iput fun _ => .pure rfl

theorem Nets.fsMkdirIn : Nets [dp] (fsMkdirIn dp name) (fun _ => []) :=
  .inodeAt fun _ => .bind (Nets.dirlookup.frame [dp]) fun
    | some _ => .iput_both
    | none => .bind (Nets.ialloc.frame [dp]) fun
      | none => .bind .iput fun _ => .pure rfl
      | some _ => .bind .fsMkdirFill fun _ => .bind (Nets.iput.frame [dp]) fun _ =>
          .bind .iput fun _ => .ite (.pure rfl) (.pure rfl)

theorem Nets.fsRmEntry {off : Nat} : Nets [ip, dp] (fsRmEntry dp ip off) (fun _ => []) :=
  .localThen (fun _ => .writei) .writei fun _ => .ite .iput_both
    (.localThen (fun _ => .itrunc) .itrunc fun _ =>
      .localThen (fun _ => .setDinode _) .setDinode fun _ =>
        .localThen (fun _ => .iupdate) .iupdate fun _ => .iput_both)

theorem Nets.fsRmIn : Nets [dp] (fsRmIn dp name) (fun _ => []) :=
  .bind (Nets.dirlookup.frame [dp]) fun
    | none => .bind .iput fun _ => .pure rfl
    | some _ => .calm .removable fun _ => .ite .fsRmEntry .iput_both

/-- A call that works in the directory holding the last component of a path. -/
theorem Nets.inParent {α : Type} {x : Fin NINODE → List Byte → Kern α} {a b : α}
    {c : Inode → Prop} [∀ I, Decidable (c I)] (h : ∀ dp name, Nets [dp] (x dp name) (fun _ => [])) :
    Nets [] (do
      match ← Dmaos.namex path true with
      | (none, _) => Pure.pure a
      | (some dp, name) =>
        let D ← Dmaos.inodeAt dp
        if c D then do
          Dmaos.iput dp
          Pure.pure b
        else x dp name) (fun _ => []) :=
  .bind .namex fun
    | (none, _) => .pure rfl
    | (some _, _) => .inodeAt fun _ =>
        .ite (.bind .iput fun _ => .pure rfl) (h _ _)

theorem Nets.fsMkdir : Nets [] (fsMkdir path) (fun _ => []) :=
  .inParent fun _ _ => .fsMkdirIn

theorem Nets.fsRm : Nets [] (fsRm path) (fun _ => []) := Nets.inParent fun _ _ => Nets.fsRmIn

theorem Nets.fsStat : Nets [] (fsStat path) (fun _ => []) :=
  .bind .namei fun
    | none => .pure rfl
    | some _ => .ilock fun _ => .inodeAt fun _ => .bind .iput fun _ => .pure rfl

theorem Nets.fsChdir : Nets [] (fsChdir path) (fun r => r.2.toList) :=
  .bind .namei fun
    | none => .pure rfl
    | some _ => .ilock fun _ => .inodeAt fun _ =>
        .ite (.bind .iput fun _ => .pure rfl) (.pure rfl)

theorem Nets.fsGetFileName {bufLen : Int} {behind : List Byte} :
    Nets [] (fsGetFileName index bufLen behind) (fun _ => []) :=
  .ite (.pure rfl) (.bind .iget fun _ => .ilock fun _ => .inodeAt fun _ =>
    .calm .rootEntry fun
      | none => .bind .iput fun _ => .pure rfl
      | some _ => .bind .iput fun _ => .pure rfl)

theorem Nets.fsGetFileSize : Nets [] (fsGetFileSize index) (fun _ => []) :=
  .bind .iget fun dp => .ilock fun _ => .inodeAt fun _ =>
    .calm .rootEntry fun
      | none => .bind .iput fun _ => .pure rfl
      | some _ => .bind (Nets.iget.frame [dp]) fun _ => .ilock fun _ => .inodeAt fun _ =>
          .iput_both

theorem Nets.loadProgram : ∀ {prog : Program}, Nets [] (loadProgram prog) (fun _ => [])
  | .named _ => .bind .namei fun
    | none => .pure rfl
    | some _ => .ilock fun _ => .inodeAt fun _ => .calm .loadImage fun _ =>
        .bind .iput fun _ => .pure rfl
  | .idle => .pure rfl
  | .image => .pure rfl

theorem Nets.inheritCwd : Nets [] inheritCwd (fun i => [i]) := by
  refine .calm .get fun s => ?_
  split
  · exact .iget
  · exact .iget

end Names

end Dmaos
