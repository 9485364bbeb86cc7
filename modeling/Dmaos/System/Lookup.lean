import Dmaos.Lib.NamedTree
import Dmaos.Refine.Progress
import Dmaos.Handle.Count
import Dmaos.System.Dir

/-!
# Directories as a tree

`Encodes L V τ`: the directories of a volume form the tree `τ`.  A directory
has an entry `.` for itself, an entry `..` for its parent, and entries for its
children.  `Shows L τ dev s` says this of a device of the running kernel that
can be read; then `dirlookup` takes one step in the tree, and stops the kernel
only if it finds no free slot for the inode (`Shows.dirlookup`).
-/

namespace Dmaos

open Fault Vol

variable {V : Vol} {n dev d m : Nat} {name x : List Byte} {de : Dirent} {s s' : KState} {L : Layout}
  {τ : Dirs} {ip dp : Fin NINODE}

/-! ## The entry with a name -/

instance (V : Vol) (n : Nat) (name : List Byte) (k : Nat) : Decidable (EntryNamed V n name k) :=
  decidable_of_iff (k < V.nents n ∧ (V.ent n k).1 ≠ 0 ∧ Matches name (V.dirent n k))
    ⟨fun h => ⟨h.1, h.2.1, h.2.2⟩, fun h => ⟨h.lt, h.inum_ne, h.named⟩⟩

/-- The inode of the first entry with a name. -/
def Vol.lookup (V : Vol) (n : Nat) (name : List Byte) : Option Nat :=
  ((List.range (V.nents n)).find? fun k => decide (EntryNamed V n name k)).map
    fun k => (V.ent n k).1

theorem Vol.lookup_none (h : ∀ i, ¬ EntryNamed V n name i) : V.lookup n name = none := by
  have hfind : (List.range (V.nents n)).find? (fun k => decide (EntryNamed V n name k)) = none := by
    rw [List.find?_range_eq_none]
    intro i _
    simpa using h i
  rw [lookup, hfind]
  rfl

theorem Vol.lookup_some {i : Nat} (h : EntryNamed V n name i)
    (hfirst : ∀ i' < i, ¬ EntryNamed V n name i') : V.lookup n name = some (V.ent n i).1 := by
  have hfind : (List.range (V.nents n)).find? (fun k => decide (EntryNamed V n name k)) =
      some i := by
    rw [List.find?_range_eq_some]
    refine ⟨by simpa using h, List.mem_range.mpr h.lt, fun j hj => ?_⟩
    simpa using hfirst j hj
  rw [lookup, hfind]
  rfl

/-! ## Trees -/

/-- A name a directory entry can have and a path can spell. -/
structure IsName (x : List Byte) : Prop where
  ne_nil : x ≠ []
  noSlash : slash ∉ x
  noNul : 0 ∉ x
  short : x.length < DIRSIZ

theorem isName_iff :
    (x.isEmpty = false ∧ x.contains slash = false ∧ x.contains 0 = false ∧ x.length < DIRSIZ) ↔
      IsName x := by
  simp only [List.isEmpty_eq_false_iff, List.contains_eq_mem, decide_eq_false_iff_not]
  exact ⟨fun h => ⟨h.1, h.2.1, h.2.2.1, h.2.2.2⟩, fun h => ⟨h.ne_nil, h.noSlash, h.noNul, h.short⟩⟩

instance (x : List Byte) : Decidable (IsName x) := decidable_of_iff _ isName_iff

section Names

variable {d : Buf}

/-- `strncmp` from byte `i` on compares what is left of the two strings. -/
theorem strncmpEq_iff (h0 : 0 ∉ x) :
    ∀ {m i : Nat}, x.length < i + m →
      (strncmpEq (Buf.ofList x) d m i = true ↔ (d.slice i m).takeWhile (· ≠ 0) = x.drop i)
  | 0, i, hm => by
      rw [List.drop_eq_nil_of_le (by omega)]
      simp [strncmpEq, Buf.slice]
  | m + 1, i, hm => by
      have hslice : d.slice i (m + 1) = d i :: d.slice (i + 1) m := by
        rw [Nat.add_comm m 1, Buf.slice_append]
        rfl
      unfold strncmpEq
      rw [hslice]
      by_cases hi : i < x.length
      · have hxi : Buf.ofList x i = x[i] := List.getD_eq_getElem _ _ hi
        have hne : x[i] ≠ 0 := fun he => h0 (he ▸ List.getElem_mem hi)
        rw [hxi, List.drop_eq_getElem_cons hi]
        by_cases hd : x[i] = d i
        · rw [if_pos ⟨hne, hd⟩, strncmpEq_iff h0 (by omega),
            List.takeWhile_cons_of_pos (by simpa [← hd] using hne), hd]
          simp
        · -- The strings differ here, or the entry ends.
          have hhead : (d i :: d.slice (i + 1) m).takeWhile (· ≠ 0) ≠ x[i] :: x.drop (i + 1) := by
            intro he
            rw [List.takeWhile_cons] at he
            split_ifs at he
            exact hd (List.cons.inj he).1.symm
          rw [if_neg fun hc => hd hc.2]
          simp only [beq_iff_eq, hd, hhead]
      · have hxi : Buf.ofList x i = 0 := List.getD_eq_default _ _ (by omega)
        rw [hxi, if_neg (by simp), List.drop_eq_nil_of_le (by omega), List.takeWhile_cons]
        split_ifs with hz
        · have hne : (0 : Byte) ≠ d i := Ne.symm (of_decide_eq_true hz)
          simpa using hne
        · have he : d i = 0 := by simpa using hz
          simp [he]

/-- A short string matches the entry that has it for a name. -/
theorem matches_iff (h0 : 0 ∉ x) (hx : x.length < DIRSIZ) :
    Matches x de ↔ cstr de.name DIRSIZ = x := by
  unfold Matches cstr
  rw [strncmpEq_iff h0 (by rw [Nat.zero_add]; exact hx), List.drop_zero]

theorem IsName.matches_iff (h : IsName x) : Matches x de ↔ cstr de.name DIRSIZ = x :=
  Dmaos.matches_iff h.noNul h.short

/-- The entries of a directory. -/
def Vol.entries (V : Vol) (n : Nat) : List (Nat × List Byte) :=
  (List.range (V.nents n)).map (V.ent n)

/-- The inode a name leads to, read off the entries. -/
theorem IsName.lookup_eq (h : IsName x) (V : Vol) (n : Nat) :
    V.lookup n x = ((V.entries n).find? fun e => decide (e.1 ≠ 0 ∧ e.2 = x)).map Prod.fst := by
  unfold lookup entries
  rw [List.find?_map, Option.map_map]
  have hfind : ∀ {l : List Nat}, (∀ k ∈ l, k < V.nents n) →
      l.find? (fun k => decide (EntryNamed V n x k)) =
        l.find? ((fun e => decide (e.1 ≠ 0 ∧ e.2 = x)) ∘ V.ent n) := by
    intro l hl
    induction l with
    | nil => rfl
    | cons k l ih =>
        have hk : decide (EntryNamed V n x k) = decide ((V.ent n k).1 ≠ 0 ∧ (V.ent n k).2 = x) :=
          decide_eq_decide.mpr
            ⟨fun he => ⟨he.inum_ne, h.matches_iff.mp he.named⟩,
              fun he => ⟨hl k List.mem_cons_self, he.1, h.matches_iff.mpr he.2⟩⟩
        rw [List.find?_cons, List.find?_cons, hk,
          ih fun k' hk' => hl k' (List.mem_cons_of_mem k hk')]
        rfl
  rw [hfind fun k hk => List.mem_range.mp hk]
  rfl

end Names

/-- A tree of inodes. -/
abbrev Dirs := NamedTree Nat (List Byte)

/-- The step a component of a path asks for. -/
def toStep (x : List Byte) : NamedTree.Step (List Byte) :=
  if x = dot then .here else if x = dotdot then .up else .down x

theorem toStep_dotdot : toStep dotdot = .up := rfl

theorem isName_dotdot : IsName dotdot := by decide

/-- The directories of a volume form the tree `τ`. -/
structure Encodes (L : Layout) (V : Vol) (τ : Dirs) : Prop where
  root_eq : τ.root = 1
  lt : ∀ {n : Nat}, τ.mem n → n < L.ninodes
  shaped : ∀ {n : Nat}, τ.mem n → V.Shaped n
  isDir : ∀ {n : Nat}, τ.mem n → (τ.isDir n = true ↔ V.IsDir n)
  look : ∀ {n : Nat} {x : List Byte}, τ.mem n → τ.isDir n = true → IsName x →
    V.lookup n x = τ.step n (toStep x)

/-- Device `dev` can be read and holds the tree `τ`. -/
structure Shows (L : Layout) (τ : Dirs) (dev : Nat) (s : KState) : Prop
    extends Sound L τ.mem dev s, Online L dev s where
  tree : Encodes L (s.vol L dev) τ

theorem Holds.of_calm {i : Fin NINODE} (h : Holds dev n i s) (hc : Calm s s') : Holds dev n i s' :=
  ⟨by rw [hc.ref]; exact h.ref, by rw [hc.dev]; exact h.dev_eq, by rw [hc.inum]; exact h.inum_eq⟩

section Shows

theorem Shows.recache (h : Shows L τ dev s) (hc : Cached L dev s') (hidle : Idle s s') :
    Shows L τ dev s' := by
  have hvol : s'.vol L dev = s.vol L dev := KState.vol_congr (by rw [hidle.disk]) hidle.sb
  exact
    { toCached := hc
      own := by rw [hvol]; exact h.own
      reserved := by rw [hvol, hidle.sb]; exact h.reserved
      toOnline := h.toOnline.congr hidle.sb (by rw [hidle.disk])
      tree := by rw [hvol]; exact h.tree }

theorem Shows.of_calm (h : Shows L τ dev s) (hc : Calm s s') : Shows L τ dev s' :=
  h.recache (h.toCached.of_calm hc) hc.toIdle

theorem Shows.iget (h : Shows L τ dev s) (hx : iget d m s = .ok ip s') : Shows L τ dev s' :=
  h.recache (h.toCached.iget hx) (Idle.iget.of_ok hx)

theorem Shows.iput {u : Unit} (h : Shows L τ dev s) (hx : iput ip s = .ok u s') :
    Shows L τ dev s' :=
  h.recache (h.toCached.iput hx) (Idle.iput.of_ok hx)

theorem Shows.owner (h : Shows L τ dev s) (hh : Holds dev n ip s)
    (hv : (s.inodeTable ip).valid = true) (hn : τ.mem n) : Owner L τ.mem dev n ip s :=
  { toCached := h.toCached, toHolds := hh, lt := h.tree.lt hn, valid := hv, own := h.own,
    reserved := h.reserved, mem := hn }

/-- The type of a slot that has been read is the kind of the node. -/
theorem Shows.type_eq (h : Shows L τ dev s) (hh : Holds dev n ip s)
    (hv : (s.inodeTable ip).valid = true) (hn : τ.mem n) :
    (s.inodeTable ip).dinode.type = FT_DIRECTORY ↔ τ.isDir n = true := by
  rw [(h.owner hh hv hn).type]
  exact (h.tree.isDir hn).symm

theorem Shows.dirOn (h : Shows L τ dev s) (hh : Holds dev n dp s)
    (hv : (s.inodeTable dp).valid = true) (hn : τ.mem n) (hd : τ.isDir n = true) :
    DirOn L τ.mem dev n dp s :=
  { toOwner := h.owner hh hv hn, shaped := h.tree.shaped hn, isDir := (h.tree.isDir hn).mp hd }

end Shows

/-! ## Where the kernel stops -/

/-- `iget` found no free slot. -/
def NoSlot (e : Halt) (s : KState) : Prop :=
  (∃ dev inum, e = .iget dev inum) ∧ ∀ i, (s.inodeTable i).ref ≠ 0

section Stops

variable {S : Nat → Prop}

theorem iget_stops : Stops NoSlot (iget d m) s := by
  intro e t he
  unfold iget at he
  split at he
  · cases he
  · split at he
    · cases he
    · next hfind =>
        cases he
        refine ⟨⟨d, m, rfl⟩, fun i hi => ?_⟩
        have := List.find?_eq_none.mp hfind i (List.mem_finRange i)
        simp [hi] at this

theorem iput_returns (h : 0 < (s.inodeTable ip).ref) : Returns (iput ip) s := by
  intro e t he
  unfold iput at he
  split_ifs at he
  omega

theorem readDirent_returns {off : Nat} (h : DirOn L S dev n dp s) (ho : Online L dev s) :
    Returns (readDirent dp off) s := by
  refine .bind (readi_returns h.toSound h.toHolds ho h.lt h.mem h.shaped.covered) fun r t _ => ?_
  dsimp only
  split_ifs <;> exact .pure

theorem dirlookupLoop_stops :
    ∀ {k off : Nat} {s : KState}, DirOn L S dev n dp s → Online L dev s →
      Stops NoSlot (dirlookupLoop dp name k off) s
  | 0, _, _, _, _ => .pure
  | k + 1, off, s, h, ho => by
      refine .bind inodeAt_returns.stops fun I t hI => ?_
      obtain ⟨rfl, rfl⟩ := inodeAt_ok hI
      split_ifs with hsize
      · exact .pure
      · refine .bind (readDirent_returns h ho).stops fun o t hr => ?_
        have hc := Calm.of_ok .readDirent hr
        have next : Stops NoSlot (dirlookupLoop dp name k (off + direntSize)) t :=
          dirlookupLoop_stops (h.of_calm hc) (ho.congr hc.sb (by rw [hc.disk]))
        cases o with
        | none => exact .pure
        | some de =>
            dsimp only
            split_ifs
            · exact next
            · exact .bind iget_stops fun _ _ _ => .pure
            · exact next

theorem dirlookup_stops (h : DirOn L S dev n dp s) (ho : Online L dev s) :
    Stops NoSlot (dirlookup dp name) s := by
  refine .bind inodeAt_returns.stops fun I t hI => ?_
  obtain ⟨rfl, rfl⟩ := inodeAt_ok hI
  split_ifs
  · exact .pure
  · refine .bind (ilock_returns h.toHolds h.fits ho h.lt).stops fun u t hl => ?_
    have hc := Calm.ilock.of_ok hl
    refine .bind inodeAt_returns.stops fun I t hI => ?_
    obtain ⟨rfl, rfl⟩ := inodeAt_ok hI
    exact dirlookupLoop_stops (h.of_calm hc) (ho.congr hc.sb (by rw [hc.disk]))

end Stops

/-! ## `dirlookup` takes a step -/

section Step

/-- `ilock` reads the slot of a node. -/
theorem Shows.ilock (h : Shows L τ dev s) (hh : Holds dev n ip s) (hn : τ.mem n) :
    Ends (fun _ t => Calm s t ∧ (t.inodeTable ip).valid = true ∧
        ((t.inodeTable ip).dinode.type = FT_DIRECTORY ↔ τ.isDir n = true))
      NoSlot (ilock ip) s where
  stops := (ilock_returns hh h.fits h.toOnline (h.tree.lt hn)).stops
  ok hx := by
    have hc := Calm.ilock.of_ok hx
    have hv := (ilock_valid hx).2
    exact ⟨hc, hv, (h.of_calm hc).type_eq (hh.of_calm hc) hv hn⟩

/-- The cache was used between two states: slots were read, and one reference
may have been taken. -/
def Fetches (o : Option (Fin NINODE)) (dev : Nat) (m : Option Nat) (s s' : KState) : Prop :=
  ∃ t, Calm s t ∧
    match o, m with
    | none, none => t = s'
    | some i, some m => iget dev m t = .ok i s'
    | _, _ => False

/-- `dirlookup` goes to the node the name leads to. -/
theorem Shows.dirlookup (h : Shows L τ dev s) (hh : Holds dev n dp s)
    (hv : (s.inodeTable dp).valid = true) (hn : τ.mem n) (hd : τ.isDir n = true) (hx : IsName x) :
    Ends (fun o t => Fetches (o.map Prod.fst) dev (τ.step n (toStep x)) s t) NoSlot
      (dirlookup dp x) s where
  stops := dirlookup_stops (h.dirOn hh hv hn hd) h.toOnline
  ok := by
    intro o s' ho
    obtain ⟨t, hc, hcase⟩ := dirlookup_ok (h.dirOn hh hv hn hd) ho
    refine ⟨t, hc, ?_⟩
    rw [← h.tree.look hn hd hx]
    rcases hcase with ⟨rfl, ht, hnone⟩ | ⟨ip, i, rfl, hi, hfirst, hg⟩
    · rw [lookup_none hnone]
      exact ht
    · rw [lookup_some hi hfirst]
      exact hg

end Step

end Dmaos
