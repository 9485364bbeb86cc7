import Mathlib.Data.Finset.Card
import Mathlib.Data.Fintype.Basic
import Dmaos.System.Mount
import Dmaos.System.Read

/-!
# `fstat`

The user library asks for the size of a file with `SYSCALL_GET_FILE_SIZE` and gives
the descriptor for the argument.  The kernel takes the argument for an index: it counts
the entries of the root directory of device 0 other than `.` and `..`, and returns the
size of the inode that the entry with this index leads to.

So `_fstat` describes a descriptor if and only if the entry that happens to have its
number leads to an inode of the same size (`fstat_describes_iff`).  With a root
directory that has nothing but `/home` in it, it fails for every file
(`fstat_fails`).
-/

namespace Dmaos

open Fault KState Vol

variable {L : Layout} {S : Nat → Prop} {dev n m d size : Nat} {dp ip : Fin NINODE}
  {e : Nat × List Byte} {s s' : KState}

/-! ## The user library -/

def ENOMEM : Int := 12

/-- `translate_error`: kernel errors as error codes of the C library. -/
def translateError (err : Int) : Int :=
  if 0 ≤ err then err
  else if -err = 4 then ENOMEM
  else -err

def S_IFCHR : Nat := 0o020000

def S_IFREG : Nat := 0o100000

/-- The fields of `struct stat` that are set, the others being zero. -/
structure Stat where
  size : Int
  mode : Nat
deriving DecidableEq

/-- `_fstat` called by process `p`.  It returns 0 and sets `*st`, or it returns -1 and
sets `errno`. -/
def fstat (p : Fin PROCS_MAX) (fd : Int) : Kern (Except Int Stat) := do
  let size ← step p (.getFileSize fd)
  if size < 0 then return .error (translateError size)
  else
    return .ok {
      size := size
      mode := if 0 ≤ fd ∧ fd ≤ 2 then S_IFCHR ||| 0o666 else S_IFREG ||| 0o644 }

/-! ## The entries that are counted -/

/-- The entries of directory `n` that `fs_get_file_name` and `fs_get_file_size`
count. -/
def Vol.listed (V : Vol) (n : Nat) : List (Nat × List Byte) :=
  (V.entries n).filter fun e => decide (Proper e)

section Scan

theorem Vol.drop_entries {V : Vol} {j : Nat} (hj : j < V.nents n) :
    (V.entries n).drop j = V.ent n j :: (V.entries n).drop (j + 1) := by
  have hlen : j < (V.entries n).length := by
    simpa [entries] using hj
  rw [List.drop_eq_getElem_cons hlen]
  simp [entries]

theorem not_proper_iff : (e.1 = 0 ∨ e.2 = dot ∨ e.2 = dotdot) ↔ ¬ Proper e := by
  unfold Proper
  tauto

/-- The scan from entry `j` on, with `c` entries counted, finds the entry that has index
`a` among those left. -/
theorem rootEntry_run :
    ∀ {k j a : Nat} {c : Int} {s : KState}, DirOn L S dev n dp s → Online L dev s →
      (s.vol L dev).nents n < j + k →
      ∃ o t, rootEntry dp (c + a) k (32 * j) c s = .ok o t ∧ Calm s t ∧
        o.map Dirent.inum = ((((s.vol L dev).entries n).drop j).filter
          fun e => decide (Proper e))[a]?.map Prod.fst
  | 0, j, a, c, s, h, ho, hk => by
      have hlen : ((s.vol L dev).entries n).length ≤ j := by
        simp only [entries, List.length_map, List.length_range]
        omega
      refine ⟨none, s, rfl, refl_of Calm s, ?_⟩
      rw [List.drop_eq_nil_of_le hlen]
      rfl
  | k + 1, j, a, c, s, h, ho, hk => by
      have hover : (s.vol L dev).nents n ≤ j → ((((s.vol L dev).entries n).drop j).filter
          fun e => decide (Proper e)) = [] := fun hle => by
        rw [List.drop_eq_nil_of_le (by simpa [entries] using hle)]
        rfl
      unfold rootEntry
      rw [run_bind (show inodeAt dp s = .ok (s.inodeTable dp) s from rfl), h.size]
      by_cases hsize : ((s.vol L dev).ino n).size ≤ 32 * j
      · rw [if_pos hsize]
        refine ⟨none, s, rfl, refl_of Calm s, ?_⟩
        rw [hover (by unfold nents; omega)]
        rfl
      · rw [if_neg hsize]
        have hret : Returns (readDirent dp (32 * j)) s := readDirent_returns h ho
        obtain ⟨o, t, hr⟩ := hret.exists_ok
        obtain ⟨hc, hcase⟩ := readDirent_ok h (by omega) hr
        rw [run_bind hr]
        rcases hcase with ⟨rfl, hend⟩ | ⟨de, rfl, hj, hde⟩
        · refine ⟨none, t, rfl, hc, ?_⟩
          rw [hover hend]
          rfl
        · have hinum : de.inum = ((s.vol L dev).ent n j).1 := Dirent.inum_congr hde
          have hname : cstr de.name DIRSIZ = ((s.vol L dev).ent n j).2 := Dirent.name_congr hde
          have next : ∀ (a : Nat) (c : Int), ∃ o t',
              rootEntry dp (c + a) k (32 * j + direntSize) c t = .ok o t' ∧ Calm s t' ∧
                o.map Dirent.inum = ((((s.vol L dev).entries n).drop (j + 1)).filter
                  fun e => decide (Proper e))[a]?.map Prod.fst := by
            intro a c
            obtain ⟨o, t', hx, hc', ho'⟩ := rootEntry_run (k := k) (j := j + 1) (a := a) (c := c)
              (h.of_calm hc) (ho.congr hc.sb (by rw [hc.disk])) (by rw [hc.vol_eq]; omega)
            rw [hc.vol_eq] at ho'
            exact ⟨o, t', hx, trans_of Calm hc hc', ho'⟩
          dsimp only
          rw [hinum, hname, drop_entries hj]
          by_cases hp : Proper ((s.vol L dev).ent n j)
          · rw [if_neg (not_proper_iff.not.mpr (not_not.mpr hp)),
              List.filter_cons_of_pos (by simpa using hp)]
            cases a with
            | zero =>
                rw [if_pos (by simp)]
                exact ⟨some de, t, rfl, hc, congrArg some hinum⟩
            | succ a =>
                rw [if_neg (by omega), show c + ((a + 1 : Nat) : Int) = c + 1 + a by omega]
                exact next a (c + 1)
          · rw [if_pos (not_proper_iff.mpr hp), List.filter_cons_of_neg (by simpa using hp)]
            exact next a c

end Scan

/-! ## Slots of the inode cache -/

/-- Inode `n` of device `dev` has a slot in use. -/
def KState.Caches (s : KState) (dev n : Nat) : Prop :=
  ∃ i, 0 < (s.inodeTable i).ref ∧ (s.inodeTable i).dev = dev ∧ (s.inodeTable i).inum = n

instance (s : KState) (dev n : Nat) : Decidable (s.Caches dev n) := by
  unfold KState.Caches
  infer_instance

/-- The number of free slots. -/
def KState.freeSlots (s : KState) : Nat :=
  (Finset.univ.filter fun i => (s.inodeTable i).ref = 0).card

/-- The inodes among `ns` that have no slot. -/
def KState.uncached (s : KState) (dev : Nat) (ns : Finset Nat) : Finset Nat :=
  ns.filter fun n => ¬ s.Caches dev n

section Slots

variable {t : KState} {i : Fin NINODE}

theorem KState.card_uncached_pair (hne : m ≠ n) : (s.uncached dev {m, n}).card =
    (if s.Caches dev m then 0 else 1) + (if s.Caches dev n then 0 else 1) := by
  unfold uncached
  rw [Finset.filter_insert, Finset.filter_singleton]
  split_ifs <;> simp [hne]

theorem KState.card_uncached_self :
    (s.uncached dev {n, n}).card = if s.Caches dev n then 0 else 1 := by
  unfold uncached
  rw [Finset.pair_eq_singleton, Finset.filter_singleton]
  split_ifs <;> simp

/-- `iget` needs a slot in use for the inode or a free one. -/
theorem iget_iff : (∃ i s', iget dev n s = .ok i s') ↔ s.Caches dev n ∨ 0 < s.freeSlots := by
  constructor
  · rintro ⟨i, s', hx⟩
    rcases iget_ok hx with ⟨h1, h2, h3, -⟩ | ⟨-, h0, -⟩
    · exact Or.inl ⟨i, h1, h2, h3⟩
    · exact Or.inr (Finset.card_pos.mpr ⟨i, by simpa using h0⟩)
  · intro h
    unfold iget
    split
    · exact ⟨_, _, rfl⟩
    · next hnone =>
        split
        · exact ⟨_, _, rfl⟩
        · next hfull =>
            exfalso
            rcases h with ⟨i, h1, h2, h3⟩ | h
            · have := List.find?_eq_none.mp hnone i (List.mem_finRange i)
              simp [h1, h2, h3] at this
            · obtain ⟨i, hi⟩ := Finset.card_pos.mp h
              have := List.find?_eq_none.mp hfull i (List.mem_finRange i)
              simp_all

theorem KState.Caches.congr (h : s.Caches dev n)
    (hslot : ∀ i, (s'.inodeTable i).ref = (s.inodeTable i).ref ∧
      (s'.inodeTable i).dev = (s.inodeTable i).dev ∧
      (s'.inodeTable i).inum = (s.inodeTable i).inum) : s'.Caches dev n := by
  obtain ⟨i, h1, h2, h3⟩ := h
  obtain ⟨e1, e2, e3⟩ := hslot i
  exact ⟨i, by rwa [e1], by rwa [e2], by rwa [e3]⟩

theorem Calm.caches_iff (hc : Calm s s') : s'.Caches dev n ↔ s.Caches dev n :=
  ⟨fun h => h.congr fun i => ⟨(hc.ref i).symm, (hc.dev i).symm, (hc.inum i).symm⟩,
    fun h => h.congr fun i => ⟨hc.ref i, hc.dev i, hc.inum i⟩⟩

theorem Calm.freeSlots_eq (hc : Calm s s') : s'.freeSlots = s.freeSlots := by
  unfold freeSlots
  simp only [hc.ref]

/-- After `iget` the inode has a slot, and the others have one if they had one. -/
theorem iget_caches_iff (hx : iget dev n s = .ok i s') :
    s'.Caches d m ↔ s.Caches d m ∨ d = dev ∧ m = n := by
  have hother : ∀ j, j ≠ i → s'.inodeTable j = s.inodeTable j := by
    intro j hj
    rcases iget_ok hx with ⟨-, -, -, rfl⟩ | ⟨-, -, rfl⟩ <;> exact putInode_of_ne hj
  have hh := iget_holds hx
  constructor
  · rintro ⟨j, h1, h2, h3⟩
    by_cases hj : j = i
    · subst hj
      exact Or.inr ⟨h2.symm.trans hh.dev_eq, h3.symm.trans hh.inum_eq⟩
    · rw [hother j hj] at h1 h2 h3
      exact Or.inl ⟨j, h1, h2, h3⟩
  · rintro (⟨j, h1, h2, h3⟩ | ⟨rfl, rfl⟩)
    · by_cases hj : j = i
      · subst hj
        rcases iget_ok hx with ⟨-, e2, e3, -⟩ | ⟨-, h0, -⟩
        · exact ⟨j, hh.ref, hh.dev_eq.trans (e2.symm.trans h2), hh.inum_eq.trans (e3.symm.trans h3)⟩
        · omega
      · exact ⟨j, by rwa [hother j hj], by rwa [hother j hj], by rwa [hother j hj]⟩
    · exact ⟨i, hh.ref, hh.dev_eq, hh.inum_eq⟩

/-- `iget` takes a free slot if the inode has none. -/
theorem iget_freeSlots (hx : iget dev n s = .ok i s') :
    s'.freeSlots + (if s.Caches dev n then 0 else 1) = s.freeSlots := by
  unfold freeSlots
  rcases iget_ok hx with ⟨h1, h2, h3, rfl⟩ | ⟨hno, h0, rfl⟩
  · rw [if_pos ⟨i, h1, h2, h3⟩, Nat.add_zero]
    congr 1
    ext j
    by_cases hj : j = i
    · subst hj
      simp only [Finset.mem_filter, Finset.mem_univ, true_and, putInode_self]
      omega
    · simp only [Finset.mem_filter, Finset.mem_univ, true_and, putInode_of_ne hj]
  · rw [if_neg fun ⟨j, h1, h2, h3⟩ => hno j h1 h2 h3]
    have herase : (Finset.univ.filter fun j => ((s.putInode i
        { dev := dev, inum := n, ref := 1, valid := false,
          dinode := (s.inodeTable i).dinode }).inodeTable j).ref = 0) =
        (Finset.univ.filter fun j => (s.inodeTable j).ref = 0).erase i := by
      ext j
      by_cases hj : j = i
      · subst hj
        simp [putInode_self]
      · simp [putInode_of_ne hj, hj]
    rw [herase]
    exact Finset.card_erase_add_one (by simpa using h0)

/-- `iget` finds slots for two inodes, one after the other. -/
theorem iget_pair_iff (hx : iget dev m s = .ok i s') (hc : Calm s' t) :
    (∃ j u, iget dev n t = .ok j u) ↔ (s.uncached dev {m, n}).card ≤ s.freeSlots := by
  have hfree := iget_freeSlots hx
  have hpos : s.Caches dev m ∨ 0 < s.freeSlots := iget_iff.mp ⟨i, s', hx⟩
  rw [iget_iff, hc.caches_iff, hc.freeSlots_eq, iget_caches_iff hx]
  by_cases hn : n = m
  · rw [hn, card_uncached_self]
    refine iff_of_true (Or.inl (Or.inr ⟨rfl, rfl⟩)) ?_
    split_ifs with hm
    · exact Nat.zero_le _
    · exact hpos.resolve_left hm
  · rw [card_uncached_pair (Ne.symm hn)]
    by_cases h2 : s.Caches dev n
    · refine iff_of_true (Or.inl (Or.inl h2)) ?_
      rw [if_pos h2]
      omega
    · rw [if_neg h2]
      simp only [h2, hn, and_false, or_false, false_or]
      omega

end Slots

/-! ## `fs_get_file_size` -/

/-- Entry `a` of the root directory of device 0 leads to an inode of the given size, and
the inode cache has a slot for each of the two inodes. -/
def Indexed (L : Layout) (a size : Nat) (s : KState) : Prop :=
  ∃ e, ((s.vol L 0).listed 1)[a]? = some e ∧ ((s.vol L 0).ino e.1).size = size ∧
    (s.uncached 0 {1, e.1}).card ≤ s.freeSlots

/-- What `fs_get_file_size` needs of device 0: its inodes and its root directory are in
order, and its blocks can be read. -/
structure Listable (L : Layout) (S : Nat → Prop) (s : KState) : Prop extends Sound L S 0 s where
  online : Online L 0 s
  wf : WF L S (s.vol L 0)
  isDir : (s.vol L 0).IsDir 1

section Size

variable {a : Nat}

theorem Listable.recache (h : Listable L S s) (hc : Cached L 0 s') (hidle : Idle s s') :
    Listable L S s' := by
  have hvol : s'.vol L 0 = s.vol L 0 := vol_congr (by rw [hidle.disk]) hidle.sb
  exact
    { toCached := hc
      own := by rw [hvol]; exact h.own
      reserved := by rw [hvol, hidle.sb]; exact h.reserved
      online := h.online.congr hidle.sb (by rw [hidle.disk])
      wf := by rw [hvol]; exact h.wf
      isDir := by rw [hvol]; exact h.isDir }

theorem Listable.of_calm (h : Listable L S s) (hc : Calm s s') : Listable L S s' :=
  h.recache (h.toCached.of_calm hc) hc.toIdle

theorem Listable.iget (h : Listable L S s) (hx : iget d m s = .ok ip s') : Listable L S s' :=
  h.recache (h.toCached.iget hx) (Idle.iget.of_ok hx)

/-- `ilock` reads the slot of an inode. -/
theorem Listable.ilock (h : Listable L S s) (hh : Holds 0 n ip s) (hn : S n) :
    ∃ t, Dmaos.ilock ip s = .ok () t ∧ Calm s t ∧ Owner L S 0 n ip t := by
  have hret := ilock_returns hh h.fits h.online (h.wf.lt hn)
  obtain ⟨u, t, hx⟩ := hret.exists_ok
  have hc := Calm.ilock.of_ok hx
  have hready := Ready.of_ilock hx h.toCached hh.dev_eq hh.inum_eq (h.wf.lt hn)
  have ht := h.of_calm hc
  exact ⟨t, hx, hc, { hready, ht.toSound with mem := hn }⟩

/-- A reference is given back. -/
theorem Covers.iput {l : List (Fin NINODE)} (h : Covers (ip :: l) s) :
    ∃ t, Dmaos.iput ip s = .ok () t ∧ Covers l t := by
  have hpos : 0 < (s.inodeTable ip).ref := by
    have := h ip
    rw [List.count_cons_self] at this
    omega
  obtain ⟨u, t, hx⟩ := (iput_returns hpos).exists_ok
  exact ⟨t, hx, ((Nets.iput.ok (Covers.left (p := [ip]) h) hx).frame l).covers h⟩

/-- The part of `fs_get_file_size` after the entry is found. -/
def entrySize (dp : Fin NINODE) (m : Nat) : Kern Int := do
  let ip ← Dmaos.iget 0 m
  Dmaos.ilock ip
  let I ← inodeAt ip
  Dmaos.iput ip
  Dmaos.iput dp
  return I.dinode.size

theorem Listable.entrySize (h : Listable L S s) (hcov : Covers [dp] s) (hn : S n)
    (hx : Dmaos.iget 0 n s = .ok ip s') :
    ∃ t, Dmaos.entrySize dp n s = .ok (((s.vol L 0).ino n).size : Int) t := by
  have hcov₁ : Covers [ip, dp] s' :=
    ((Nets.iget.ok hcov.nil hx).frame [dp]).covers hcov
  obtain ⟨t, hl, hc, hown⟩ := (h.iget hx).ilock (iget_holds hx) hn
  obtain ⟨t₁, hp₁, hcov₂⟩ := (hcov₁.of_calm hc).iput
  obtain ⟨t₂, hp₂, -⟩ := hcov₂.iput
  have hvol : t.vol L 0 = s.vol L 0 := by
    rw [hc.vol_eq]
    exact vol_congr (by rw [(Idle.iget.of_ok hx).disk]) (Idle.iget.of_ok hx).sb
  refine ⟨t₂, ?_⟩
  unfold Dmaos.entrySize
  rw [run_bind hx, run_bind hl, run_bind (show inodeAt ip t = .ok (t.inodeTable ip) t from rfl),
    run_bind hp₁, run_bind hp₂, hown.size, hvol]
  rfl

theorem Listable.mem_of_listed (h : Listable L S s)
    (he : ((s.vol L 0).listed 1)[a]? = some e) : S e.1 := by
  obtain ⟨hmem, hp⟩ := List.mem_filter.mp (List.mem_of_getElem? he)
  obtain ⟨k, hk, rfl⟩ := List.mem_map.mp hmem
  exact h.wf.entries h.isDir (List.mem_range.mp hk) (of_decide_eq_true hp).1

/-- `fs_get_file_size` from the point on at which it has the root directory. -/
theorem Listable.fsGetFileSize_eq (h : Listable L S s) (hx : Dmaos.iget 0 1 s = .ok dp s') :
    ∃ t, Calm s' t ∧ fsGetFileSize a s =
      (match ((s.vol L 0).listed 1)[a]? with
      | none => do
        Dmaos.iput dp
        return -1
      | some e => Dmaos.entrySize dp e.1 : Kern Int) t := by
  have hvol : s'.vol L 0 = s.vol L 0 :=
    vol_congr (by rw [(Idle.iget.of_ok hx).disk]) (Idle.iget.of_ok hx).sb
  obtain ⟨t, hl, hc, hown⟩ := (h.iget hx).ilock (iget_holds hx) h.wf.root
  have ht := (h.iget hx).of_calm hc
  have hdir : DirOn L S 0 1 dp t := ⟨hown, ht.wf.shaped ht.wf.root, ht.isDir⟩
  have hfuel : (t.vol L 0).nents 1 < 0 + ((t.inodeTable dp).dinode.size / direntSize + 1) := by
    rw [hown.size, direntSize_eq]
    unfold nents
    omega
  obtain ⟨o, t', hr, hc', ho⟩ := rootEntry_run (a := a) (c := 0) hdir ht.online hfuel
  rw [hc.vol_eq, hvol, List.drop_zero] at ho
  rw [zero_add] at hr
  refine ⟨t', trans_of Calm hc hc', ?_⟩
  unfold fsGetFileSize
  rw [run_bind hx, run_bind hl, run_bind (show inodeAt dp t = .ok (t.inodeTable dp) t from rfl),
    run_bind hr]
  change o.map Dirent.inum = (((s.vol L 0).listed 1)[a]?).map Prod.fst at ho
  cases hlist : ((s.vol L 0).listed 1)[a]? with
  | none =>
      rw [hlist] at ho
      rw [Option.map_eq_none_iff.mp ho]
  | some e =>
      rw [hlist] at ho
      obtain ⟨de, rfl, hde⟩ := Option.map_eq_some_iff.mp ho
      dsimp only
      rw [← hde]
      rfl

/-- `fs_get_file_size` returns a size if and only if the entry with the index leads to an
inode of that size, and the inode cache has the slots for it. -/
theorem Listable.fsGetFileSize_iff (h : Listable L S s) (hcov : Covers [] s) :
    (∃ t, fsGetFileSize a s = .ok (size : Int) t) ↔ Indexed L a size s := by
  -- What the call does once it has the root directory, if there is an entry.
  have found : ∀ {dp : Fin NINODE} {s' t : KState} {e : Nat × List Byte},
      Dmaos.iget 0 1 s = .ok dp s' → Calm s' t → ((s.vol L 0).listed 1)[a]? = some e →
      (s.uncached 0 {1, e.1}).card ≤ s.freeSlots →
      ∃ t', Dmaos.entrySize dp e.1 t = .ok (((s.vol L 0).ino e.1).size : Int) t' := by
    intro dp s' t e hget hc hlist hroom
    obtain ⟨ip, u, hget'⟩ := (iget_pair_iff hget hc).mpr hroom
    have hcov' : Covers [dp] t := ((Nets.iget.ok hcov hget).covers hcov).of_calm hc
    have hvol : t.vol L 0 = s.vol L 0 := by
      rw [hc.vol_eq]
      exact vol_congr (by rw [(Idle.iget.of_ok hget).disk]) (Idle.iget.of_ok hget).sb
    rw [← hvol]
    exact ((h.iget hget).of_calm hc).entrySize hcov' (h.mem_of_listed hlist) hget'
  constructor
  · rintro ⟨t, hx⟩
    obtain ⟨dp, s', hget, -⟩ := bind_ok.mp hx
    obtain ⟨t', hc, heq⟩ := h.fsGetFileSize_eq (a := a) hget
    rw [heq] at hx
    cases hlist : ((s.vol L 0).listed 1)[a]? with
    | none =>
        rw [hlist] at hx
        obtain ⟨u, t'', -, hx⟩ := bind_ok.mp hx
        obtain ⟨hneg, -⟩ := pure_ok.mp hx
        omega
    | some e =>
        rw [hlist] at hx
        dsimp only at hx
        obtain ⟨ip, u, hget', -⟩ := bind_ok.mp hx
        have hroom := (iget_pair_iff hget hc).mp ⟨ip, u, hget'⟩
        obtain ⟨t'', hsize⟩ := found hget hc hlist hroom
        obtain ⟨heq, -⟩ := EStateM.Result.ok.inj (hsize.symm.trans hx)
        exact ⟨e, hlist, by omega, hroom⟩
  · rintro ⟨e, hlist, rfl, hroom⟩
    have hroot : s.Caches 0 1 ∨ 0 < s.freeSlots := by
      by_contra hno
      have hmem : 1 ∈ s.uncached 0 {1, e.1} := by
        simp [uncached, (not_or.mp hno).1]
      have := Finset.card_pos.mpr ⟨1, hmem⟩
      exact hno (Or.inr (by omega))
    obtain ⟨dp, s', hget⟩ := iget_iff.mpr hroot
    obtain ⟨t', hc, heq⟩ := h.fsGetFileSize_eq (a := a) hget
    rw [heq, hlist]
    exact found hget hc hlist hroom

end Size

/-! ## `_fstat` -/

/-- The size of the file in slot `ip`. -/
def KState.fileSize (s : KState) (L : Nat → Layout) (ip : Fin NINODE) : Nat :=
  ((s.vol (L (s.inodeTable ip).dev) (s.inodeTable ip).dev).ino (s.inodeTable ip).inum).size

/-- `_fstat` describes descriptor `i` of process `p`: it succeeds, with the size of the
file that the descriptor refers to. -/
def Describes (L : Nat → Layout) (p : Fin PROCS_MAX) (i : Fin NUM_FILES_PER_PROCESS)
    (s : KState) : Prop :=
  ∃ f ip st t, Opened s p i f ip ∧ fstat p (i : Nat) s = .ok (.ok st) t ∧
    st.size = s.fileSize L ip

section Fstat

variable {L : Nat → Layout} {d0 d1 : Device} {p : Fin PROCS_MAX} {i : Fin NUM_FILES_PER_PROCESS}
  {f : Fin GLOBAL_OPEN_FILE_LIMIT}

/-- A kernel that has booted has found `/home`, so the root of device 0 is a
directory. -/
theorem Reached.root_isDir {P : Fin PROCS_MAX → Syscall → KState → Prop} {L : Layout}
    (h0 : d0.Whole L) (h : Reached P d0 d1 s) : (d0.vol L).IsDir 1 := by
  induction h with
  | step before cond run ih => exact ih
  | boot run =>
      obtain ⟨v, t, hi, -⟩ := bind_ok.mp run
      obtain ⟨ip, t, hn, -⟩ := fsInit_ok hi
      obtain ⟨root, t₁, t₂, t₃, off, hget, hl, hdir, -, -⟩ := namei_home_ok rfl hn
      have hcached : Cached L 0 (loadedState d0 d1) :=
        ⟨h0.fits, fun hr => (by cases hr), fun hr => (by cases hr)⟩
      have hready := Ready.of_ilock hl (hcached.iget hget) (iget_holds hget).dev_eq
        (iget_holds hget).inum_eq (h0.wf.lt h0.wf.root)
      have hidle := trans_of Idle (Idle.iget.of_ok hget) (Calm.ilock.of_ok hl).toIdle
      have hvol : t₂.vol L 0 = d0.vol L := vol_congr (by rw [hidle.disk]) hidle.sb
      unfold Vol.IsDir
      rw [← hvol, ← hready.type]
      exact hdir

theorem Reached.listable (h0 : d0.Whole (L 0)) (h1 : d1.Consistent (L 1))
    (h : Reached (Orderly (L 1)) d0 d1 s) : Listable (L 0) (InUse (d0.vol (L 0))) s := by
  obtain ⟨-, hdisk, hsb⟩ := h.system
  have hvol : s.vol (L 0) 0 = d0.vol (L 0) := by
    unfold vol blk
    rw [hdisk, hsb]
    rfl
  have hdir := h.root_isDir h0
  have hR := h.readable_system (n := 1) h0 h1 (by rw [hvol, hdir.type_eq]; decide)
  exact
    { toSound := hR.toSound
      online := hR.online
      wf := by rw [hvol]; exact h0.wf
      isDir := by rw [hvol]; exact hdir }

/-- `_fstat` succeeds with a size if and only if `fs_get_file_size` returns it. -/
theorem fstat_size_iff {fd : Int} (hp : (s.procs p).state = .runnable) :
    (∃ st t, fstat p fd s = .ok (.ok st) t ∧ st.size = size) ↔
      ∃ t, fsGetFileSize fd { s with current := some p } = .ok (size : Int) t := by
  have hstep : step p (.getFileSize fd) s = fsGetFileSize fd { s with current := some p } :=
    step_eq hp
  constructor
  · rintro ⟨st, t, hx, hsize⟩
    obtain ⟨r, t', hr, hx⟩ := bind_ok.mp hx
    rw [hstep] at hr
    by_cases hneg : r < 0
    · rw [if_pos hneg] at hx
      obtain ⟨he, -⟩ := pure_ok.mp hx
      cases he
    · rw [if_neg hneg] at hx
      obtain ⟨he, -⟩ := pure_ok.mp hx
      cases he
      exact ⟨t', hsize ▸ hr⟩
  · rintro ⟨t, hx⟩
    obtain ⟨mode, hret⟩ : ∃ mode, fstat p fd s = .ok (.ok ⟨size, mode⟩) t := by
      unfold fstat
      rw [run_bind (hstep.trans hx), if_neg (by omega)]
      exact ⟨_, rfl⟩
    exact ⟨⟨size, mode⟩, t, hret, rfl⟩

/-- In every state reached, `_fstat` describes a descriptor if and only if the entry of
the root directory of device 0 that has the number of the descriptor for an index leads
to an inode of the same size, for which there is a slot. -/
theorem fstat_describes_iff (h0 : d0.Whole (L 0)) (h1 : d1.Consistent (L 1))
    (h : Reached (Orderly (L 1)) d0 d1 s) (hp : (s.procs p).state = .runnable)
    (ho : Opened s p i f ip) : Describes L p i s ↔ Indexed (L 0) i (s.fileSize L ip) s := by
  have hlist : Listable (L 0) (InUse (d0.vol (L 0))) { s with current := some p } := by
    have hl := h.listable h0 h1
    exact ⟨⟨⟨hl.fits, hl.uniq, hl.coh⟩, hl.own, hl.reserved⟩, hl.online.congr rfl rfl, hl.wf,
      hl.isDir⟩
  have hcov : Covers [] { s with current := some p } := Refs.covers h.guard.refs
  have hsize : (∃ t, fsGetFileSize (i : Nat) { s with current := some p } =
      .ok (s.fileSize L ip : Int) t) ↔ Indexed (L 0) i (s.fileSize L ip) s :=
    hlist.fsGetFileSize_iff hcov
  rw [← fstat_size_iff hp] at hsize
  refine Iff.trans ?_ hsize
  constructor
  · rintro ⟨f', ip', st, t, ho', hx, hst⟩
    obtain rfl : f = f' := Option.some.inj (ho.fd.symm.trans ho'.fd)
    obtain rfl : ip = ip' := Option.some.inj (ho.ip_eq.symm.trans ho'.ip_eq)
    exact ⟨st, t, hx, hst⟩
  · rintro ⟨st, t, hx, hst⟩
    exact ⟨f, ip, st, t, ho, hx, hst⟩

end Fstat

/-- A system disk with four names in its root directory, all for `/home`. -/
def crowdedDisk : Device :=
  formatted [[(1, dot), (1, dotdot), (2, homeName), (2, [0x61]), (2, [0x62]), (2, [0x63])],
    [(2, dot), (1, dotdot)]]

theorem crowdedDisk_consistent : crowdedDisk.Consistent formattedLayout :=
  .of_fsInv formatted_fits (formatted_fsInv (by decide) (by decide)) formatted_reserved
    (formatted_closed (by decide) (by decide) (by decide) (by decide +kernel))

instance (L : Layout) (a size : Nat) (s : KState) : Decidable (Indexed L a size s) :=
  match h : ((s.vol L 0).listed 1)[a]? with
  | none => .isFalse fun ⟨e, he, _⟩ => by rw [h] at he; cases he
  | some e => decidable_of_iff (((s.vol L 0).ino e.1).size = size ∧
      (s.uncached 0 {1, e.1}).card ≤ s.freeSlots)
      ⟨fun h' => ⟨e, h, h'⟩, fun ⟨e', he, h'⟩ => by
        obtain rfl := Option.some.inj (h.symm.trans he)
        exact h'⟩

/-- A file of 64 bytes is described, since the fourth name is that of a directory with
two entries. -/
theorem fstat_describes_iff_crowded :
    ∃ s, Reached (Orderly formattedLayout) crowdedDisk emptyDisk s ∧
      Describes (fun _ => formattedLayout) 1 3 s := by
  have hrun : (playFrom (WritesFiles formattedLayout) crowdedDisk emptyDisk
      [(1, .open pathA (FILECTRL_WRITEONLY ||| FILECTRL_CREATE)),
        (1, .write 3 (fun _ => 1) 64)]).any (fun s =>
      decide ((s.procs 1).state = .runnable ∧ Opened s 1 3 3 2 ∧
        Indexed formattedLayout 3 (s.fileSize (fun _ => formattedLayout) 2) s)) = true := by
    decide +kernel
  obtain ⟨s, hs, hQ⟩ := Reached.of_playFrom hrun
  obtain ⟨hp, ho, hindexed⟩ := of_decide_eq_true hQ
  have hs' := hs.orderly rfl
  have h := fstat_describes_iff (L := fun _ => formattedLayout)
    (formatted_whole crowdedDisk_consistent) emptyDisk_consistent hs' hp ho
  exact ⟨s, hs', h.mpr hindexed⟩

/-- The only name in the root directory is `/home`: `_fstat` of the first file that is
opened fails. -/
theorem fstat_fails :
    systemDisk.Whole formattedLayout ∧ emptyDisk.Whole formattedLayout ∧
      ∃ s t, Reached (Orderly formattedLayout) systemDisk emptyDisk s ∧
        (s.procs 1).state = .runnable ∧ Opened s 1 3 3 2 ∧ (s.inodeTable 2).dev = 1 ∧
        (s.inodeTable 2).inum = 2 ∧ ((s.vol formattedLayout 1).ino 2).type = FT_FILE ∧
        fstat 1 3 s = .ok (.error 1) t ∧ ¬ Describes (fun _ => formattedLayout) 1 3 s := by
  refine ⟨formatted_whole systemDisk_consistent, formatted_whole emptyDisk_consistent, ?_⟩
  have hrun : (playFrom (WritesFiles formattedLayout) systemDisk emptyDisk
      [(1, .open pathA (FILECTRL_WRITEONLY ||| FILECTRL_CREATE))]).any (fun s =>
      decide ((s.procs 1).state = .runnable ∧ Opened s 1 3 3 2 ∧ (s.inodeTable 2).dev = 1 ∧
        (s.inodeTable 2).inum = 2 ∧ ((s.vol formattedLayout 1).ino 2).type = FT_FILE) &&
      answers 1 (.getFileSize 3) (fun r _ => r == -1) s) = true := by
    decide +kernel
  obtain ⟨s, hs, hQ⟩ := Reached.of_playFrom hrun
  rw [Bool.and_eq_true, decide_eq_true_eq] at hQ
  obtain ⟨⟨hp, ho, hdev, hn, htype⟩, hret⟩ := hQ
  obtain ⟨r, t, hx, hr⟩ := exists_ok_of_answers hret
  obtain rfl := beq_iff_eq.mp hr
  have hfail : fstat 1 3 s = .ok (.error 1) t := by
    unfold fstat
    rw [run_bind hx]
    rfl
  refine ⟨s, t, hs.orderly rfl, hp, ho, hdev, hn, htype, hfail, ?_⟩
  rintro ⟨f, ip, st, t', -, hok, -⟩
  cases hfail.symm.trans hok

end Dmaos
