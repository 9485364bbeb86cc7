import Dmaos.Handle.Count

/-!
# Calls that work on one device

Creating and removing names works in one directory, and all the inodes it
takes up belong to the device of that directory.  `TakesOn d p x q` types a
computation whose references are all to inodes of device `d`: wherever it
ends, it has written to device `d` only.
-/

namespace Dmaos

open Fault

variable {s s' : KState} {d inum off type : Nat} {ip dp : Fin NINODE}

/-- The tables other than the inode cache do not change, and device `d` is
the only one written.  A slot in use for an inode of another device that has
been read holds what it held before or what the device holds. -/
structure OnDev (d : Nat) (s s' : KState) : Prop extends Tables s s' where
  disk : ∀ e, e ≠ d → s'.disk e = s.disk e
  writes : ∃ ws, s'.writes = s.writes ++ ws ∧ ∀ w ∈ ws, w.dev = d
  slot : ∀ i, 0 < (s'.inodeTable i).ref → (s'.inodeTable i).valid = true →
    (s'.inodeTable i).dev ≠ d →
    (s'.inodeTable i).dinode = (s'.fetched i).dinode ∨ (s.inodeTable i).Same (s'.inodeTable i)

instance (d : Nat) : IsPreorder KState (OnDev d) where
  refl _ := ⟨refl_of Tables _, fun _ _ => rfl, ⟨[], by simp⟩,
    fun _ hr hv _ => Or.inr ⟨hr, hv, rfl, rfl, rfl⟩⟩
  trans _ _ _ h₁ h₂ := by
    obtain ⟨ws, hw, hd⟩ := h₁.writes
    obtain ⟨ws', hw', hd'⟩ := h₂.writes
    refine ⟨trans_of Tables h₁.toTables h₂.toTables,
      fun e he => (h₂.disk e he).trans (h₁.disk e he), ⟨ws ++ ws', ?_, fun w hmem => ?_⟩,
      fun i hr hv hne => ?_⟩
    · rw [hw', hw, List.append_assoc]
    · rcases List.mem_append.mp hmem with hmem | hmem
      · exact hd w hmem
      · exact hd' w hmem
    · rcases h₂.slot i hr hv hne with h | h
      · exact Or.inl h
      · rw [h.dev] at hne
        rcases h₁.slot i h.ref h.valid hne with h' | h'
        · left
          rw [h.dinode, h', h.fetched (h₂.disk _ hne) h₂.sb]
        · exact Or.inr (h'.trans h)

theorem Still.onDev (d : Nat) (h : Still s s') : OnDev d s s' :=
  ⟨h.toTables, fun _ _ => by rw [h.disk], ⟨[], by rw [h.writes, List.append_nil], by simp⟩,
    fun i hr hv _ => h.slot i hr hv⟩

theorem Touches.onDev (h : Touches d ip s s') (hd : (s.inodeTable ip).dev = d) : OnDev d s s' := by
  refine ⟨h.tables, h.disk, h.writes, fun i hr hv hne => Or.inr ?_⟩
  have hi : i ≠ ip := by
    rintro rfl
    rw [(h.slot i).1] at hne
    exact hne hd
  rw [h.slots i hi] at hr hv ⊢
  exact ⟨hr, hv, rfl, rfl, rfl⟩

/-- All the slots of a list are for inodes of device `d`. -/
def AllOn (d : Nat) (p : List (Fin NINODE)) (s : KState) : Prop :=
  ∀ i ∈ p, (s.inodeTable i).dev = d

/-- `x` starts with the references `p` and ends with `q a`, all of them to
inodes of device `d`, and writes to device `d` only. -/
def TakesOn (d : Nat) {α : Type} (p : List (Fin NINODE)) (x : Kern α)
    (q : α → List (Fin NINODE)) : Prop :=
  ∀ (l : List (Fin NINODE)) (s : KState), Refs (p ++ l) s → AllOn d p s →
    Stays (OnDev d s) x s ∧ ∀ (a : α) (s' : KState), x s = .ok a s' →
      Refs (q a ++ l) s' ∧ Stable l s s' ∧ AllOn d (q a) s'

namespace TakesOn

variable {α β : Type} {p r : List (Fin NINODE)} {q : α → List (Fin NINODE)}
  {q' : β → List (Fin NINODE)} {x : Kern α}
  {f : α → Kern β}

theorem bind (hx : TakesOn d p x q)
    (hf : ∀ a, TakesOn d (q a) (f a) q') : TakesOn d p (x >>= f) q' := by
  intro l s hl hp
  obtain ⟨h1, h2⟩ := hx l s hl hp
  constructor
  · refine .bind h1 fun a t ha ht => ?_
    obtain ⟨h3, -, h5⟩ := h2 a t ha
    exact trans_of (OnDev d) ht (hf a l t h3 h5).1
  · intro b s' h
    obtain ⟨a, t, ha, h⟩ := bind_ok.mp h
    obtain ⟨h3, h4, h5⟩ := h2 a t ha
    obtain ⟨h6, h7, h8⟩ := (hf a l t h3 h5).2 b s' h
    exact ⟨h6, h4.trans (h1.of_ok ha).toTables h7, h8⟩

theorem pure {a : α} (h : p = q a) : TakesOn d p (pure a) q := by
  intro l s hl hp
  refine ⟨refl_of (OnDev d) s, fun b s' hx => ?_⟩
  obtain ⟨rfl, rfl⟩ := pure_ok.mp hx
  exact ⟨h ▸ hl, fun _ _ => .refl _, h ▸ hp⟩

theorem ite {c : Prop} [Decidable c] {x y : Kern α} (hx : TakesOn d p x q)
    (hy : TakesOn d p y q) : TakesOn d p (if c then x else y) q := by
  split_ifs
  · exact hx
  · exact hy

/-- References to inodes of the device that are not used are kept. -/
theorem frame (h : TakesOn d p x q) (r : List (Fin NINODE)) :
    TakesOn d (p ++ r) x (fun a => q a ++ r) := by
  intro l s hl hp
  rw [List.append_assoc] at hl
  obtain ⟨h1, h2⟩ := h (r ++ l) s hl fun i hi => hp i (List.mem_append_left r hi)
  refine ⟨h1, fun a s' hx => ?_⟩
  obtain ⟨h3, h4, h5⟩ := h2 a s' hx
  refine ⟨by rwa [List.append_assoc], fun i hi => h4 i ?_, fun i hi => ?_⟩
  · have := Int.natCast_nonneg (List.count i r)
    rw [refsTo_append]
    unfold refsTo at hi ⊢
    omega
  · rcases List.mem_append.mp hi with hi | hi
    · exact h5 i hi
    · rw [(h4 i (refsTo_pos_of_mem (List.mem_append_left l hi))).dev]
      exact hp i (List.mem_append_right p hi)

/-- The references may be given in another order. -/
theorem perm (h : TakesOn d r x q) (hp : p.Perm r) : TakesOn d p x q := by
  intro l s hl hd
  exact h l s (hl.perm (hp.append_right l)) fun i hi => hd i (hp.mem_iff.mpr hi)

/-- A computation that only reads, and gives references to inodes of `d`. -/
theorem of_nets (h : Nets p x q) (he : Within Still x)
    (hd : ∀ {l : List (Fin NINODE)} {s s' : KState} {a : α}, Refs (p ++ l) s → AllOn d p s →
      x s = .ok a s' → AllOn d (q a) s') : TakesOn d p x q := by
  intro l s hl hp
  refine ⟨(he.effect s).onDev d, fun a s' hx => ?_⟩
  obtain ⟨h1, h2⟩ := h.refs hl hx
  exact ⟨h1, h2, hd hl hp hx⟩

/-- A computation on the inode of one slot. -/
theorem of_local (h : LocalOn d ip x) (hip : ip ∈ p) : TakesOn d p x (fun _ => p) := by
  intro l s hl hp
  have hw := h s (hp ip hip)
  refine ⟨hw.onDev (hp ip hip), fun a s' hx => ?_⟩
  have ht := hw.of_ok hx
  refine ⟨ht.refs hl, fun i _ => ht.kept i, fun i hi => ?_⟩
  rw [(ht.slot i).1]
  exact hp i hi

/-- A computation on the inode of one slot, then the rest. -/
theorem localThen (h : LocalOn d ip x)
    (hip : ip ∈ p) (hf : ∀ a, TakesOn d p (f a) q') : TakesOn d p (x >>= f) q' :=
  .bind (of_local h hip) hf

/-- Read a slot.  It is for an inode of the device. -/
theorem inodeAt {f : Inode → Kern β} (hip : ip ∈ p)
    (hf : ∀ I : Inode, I.dev = d → TakesOn d p (f I) q') : TakesOn d p (inodeAt ip >>= f) q' := by
  intro l s hl hp
  exact hf (s.inodeTable ip) (hp ip hip) l s hl hp

theorem iget : TakesOn d [] (iget d inum) (fun i => [i]) :=
  of_nets .iget .iget fun _ _ hx i hi => by
    rw [List.mem_singleton.mp hi]
    exact (iget_holds hx).dev_eq

theorem iput : TakesOn d [ip] (iput ip) (fun _ => []) :=
  of_nets .iput .iput fun _ _ _ _ hi => by cases hi

/-- Read the cache or a device, then go on. -/
theorem calm
    (hx : Confined Calm Fairly x) (hf : ∀ a, TakesOn d p (f a) q') : TakesOn d p (x >>= f) q' := by
  refine .bind (of_nets (.of_calm hx) ⟨fun s => (hx.effect s).still, fun _ => trivial⟩
    fun _ hp h i hi => ?_) hf
  rw [(hx.of_ok h).dev]
  exact hp i hi

theorem writeBlock {b : Nat} {buf : Buf} : TakesOn d [] (writeBlock d b buf) (fun _ => []) := by
  intro l s hl _
  constructor
  · unfold Stays Dmaos.writeBlock
    split_ifs
    · exact ⟨⟨rfl, rfl, rfl, rfl, rfl⟩, fun e he => KState.putBlock_disk_of_ne he,
        ⟨[⟨d, b % 2 ^ 31, buf⟩], rfl, by simp⟩, fun _ hr hv _ => Or.inr ⟨hr, hv, rfl, rfl, rfl⟩⟩
    · exact refl_of (OnDev d) s
  · intro a s' hx
    rw [writeBlock_ok hx]
    exact ⟨hl, fun _ _ => .refl _, fun i hi => by cases hi⟩

end TakesOn

/-! ## Directories -/

section Directories

variable {name : List Byte}

theorem LocalOn.readDirent : LocalOn d ip (readDirent ip off) :=
  bind .readi fun _ => ite pure pure

theorem LocalOn.dirlinkLoop : ∀ {k off : Nat}, LocalOn d ip (dirlinkLoop ip k off)
  | 0, _ => pure
  | _ + 1, _ => inodeAt fun _ _ => ite pure (bind .readDirent fun
      | none => pure
      | some _ => ite pure .dirlinkLoop)

theorem TakesOn.dirlookupLoop : ∀ {k off : Nat},
    TakesOn d [dp] (dirlookupLoop dp name k off) (fun o => (o.map Prod.fst).toList ++ [dp])
  | 0, _ => .pure rfl
  | _ + 1, _ => .inodeAt (.head _) fun _ hI => .ite (.pure rfl)
      (.localThen .readDirent (.head _) fun
        | none => .pure rfl
        | some _ => .ite .dirlookupLoop (.ite
            (hI ▸ .bind (TakesOn.iget.frame [dp]) fun _ => .pure rfl)
            .dirlookupLoop))

/-- The inode `dirlookup` finds is on the device of the directory. -/
theorem TakesOn.dirlookup :
    TakesOn d [dp] (dirlookup dp name) (fun o => (o.map Prod.fst).toList ++ [dp]) :=
  .inodeAt (.head _) fun _ _ => .ite (.pure rfl) (.localThen .ilock (.head _) fun _ =>
    .inodeAt (.head _) fun _ _ => .dirlookupLoop)

theorem TakesOn.iallocScan : ∀ {k inum : Nat},
    TakesOn d [] (iallocScan d type k inum) (fun o => o.toList)
  | 0, _ => .pure rfl
  | _ + 1, _ => .calm .superblock fun _ => .calm .readBlock fun _ =>
      .ite (.bind .writeBlock fun _ => .bind .iget fun _ =>
        .localThen (fun s _ => .putInode s rfl rfl rfl fun _ => rfl) (.head _) fun _ =>
          .pure rfl) .iallocScan

theorem TakesOn.ialloc : TakesOn d [] (ialloc d type) (fun o => o.toList) :=
  .calm .superblock fun _ => .iallocScan

theorem TakesOn.dirlink : TakesOn d [dp] (dirlink dp name inum) (fun _ => [dp]) :=
  .bind .dirlookup fun
    | some _ => .bind (TakesOn.iput.frame [dp]) fun _ => .pure rfl
    | none => .localThen .ilock (.head _) fun _ => .inodeAt (.head _) fun _ _ =>
        .localThen .dirlinkLoop (.head _) fun
          | none => .pure rfl
          | some _ => .localThen .writei (.head _) fun _ => .ite (.pure rfl)
              (.pure rfl)

theorem TakesOn.fsMkdirFill : TakesOn d [ip, dp] (fsMkdirFill dp ip name) (fun _ => [ip, dp]) :=
  .inodeAt (.tail _ (.head _)) fun _ _ => .inodeAt (.head _) fun _ _ =>
    .localThen .writei (.head _) fun _ => .ite (.pure rfl)
      (.localThen .writei (.head _) fun _ => .ite (.pure rfl)
        (.bind ((TakesOn.dirlink.frame [ip]).perm (.swap _ _ [])) fun _ =>
          .perm (.ite (.pure rfl) (.pure rfl)) (.swap _ _ [])))

theorem TakesOn.iput_both {α : Type} {a : α} :
    TakesOn d [ip, dp] (do Dmaos.iput ip; Dmaos.iput dp; Pure.pure a) (fun _ => []) :=
  .bind (TakesOn.iput.frame [dp]) fun _ => .bind .iput fun _ => .pure rfl

theorem TakesOn.fsMkdirIn : TakesOn d [dp] (fsMkdirIn dp name) (fun _ => []) := by
  refine .inodeAt (.head _) fun D hD => .bind .dirlookup fun
    | some _ => .iput_both
    | none => ?_
  rw [hD]
  exact .bind (TakesOn.ialloc.frame [dp]) fun
    | none => .bind .iput fun _ => .pure rfl
    | some ip => .bind .fsMkdirFill fun _ => .bind (TakesOn.iput.frame [dp]) fun _ =>
        .bind .iput fun _ => .ite (.pure rfl) (.pure rfl)

theorem TakesOn.fsRmEntry : TakesOn d [ip, dp] (fsRmEntry dp ip off) (fun _ => []) :=
  .localThen .writei (.tail _ (.head _)) fun _ => .ite .iput_both
    (.localThen .itrunc (.head _) fun _ =>
      .localThen (.setDinode _) (.head _) fun _ =>
        .localThen .iupdate (.head _) fun _ => .iput_both)

theorem TakesOn.fsRmIn : TakesOn d [dp] (fsRmIn dp name) (fun _ => []) :=
  .bind .dirlookup fun
    | none => .bind .iput fun _ => .pure rfl
    | some _ => .calm .removable fun _ => .ite .fsRmEntry .iput_both

end Directories

end Dmaos
