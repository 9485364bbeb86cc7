import Dmaos.System.Arranged

/-!
# The file system as a map from paths

Seen from outside, a file system is a map from paths to directories and files.  Every call that
returns changes this map at one path, if at all (`files_change`): a new file or directory is put
into a directory, an entry that has nothing below it is taken out, or a file gets another content.
-/

namespace Dmaos

open Fault Function

variable {V V' : Vol} {n : Nat} {q : Trail} {L : Layout} {s : KState} {p : Fin PROCS_MAX}
  {c : Syscall}

/-- What a path leads to. -/
inductive Item where
  | dir
  | file (bytes : List Byte)

/-- The names of a path, from the root on. -/
abbrev Trail := List (List Byte)

/-- What the paths lead to. -/
abbrev FileMap := Trail → Option Item

/-- Going down from the root by the names `xs` leads to inode `n`. -/
def Vol.Path (V : Vol) (xs : Trail) (n : Nat) : Prop :=
  V.hierarchy.Path dot dotdot 1 xs n

/-- What an inode is. -/
def Vol.item (V : Vol) (n : Nat) : Item := if V.IsDir n then .dir else .file (V.content n)

open Classical in
/-- The files of a volume. -/
noncomputable def Vol.fileMap (V : Vol) : FileMap := fun xs =>
  if h : ∃ n, V.Path xs n then some (V.item h.choose) else none

/-! ## Paths of a volume -/

section Paths

variable {m : Nat} {xs ys : Trail}

theorem Vol.Arranged.path_unique (hV : V.Arranged) (h : V.Path xs n) (h' : V.Path ys n) : xs = ys :=
  Hierarchy.Path.names_unique h hV.tree hV.rooted h'

theorem Vol.Arranged.node_unique (hV : V.Arranged) (h : V.Path xs n) (h' : V.Path xs m) : n = m :=
  Hierarchy.Path.node_unique h hV.distinct h'

theorem Vol.Arranged.path_used (hV : V.Arranged) (h : V.Path xs n) : InUse V n :=
  Hierarchy.Path.used h hV.tree

theorem Vol.Arranged.fileMap_eq (hV : V.Arranged) (h : V.Path xs n) :
    V.fileMap xs = some (V.item n) := by
  have hex : ∃ n, V.Path xs n := ⟨n, h⟩
  rw [Vol.fileMap, dif_pos hex, hV.node_unique hex.choose_spec h]

theorem Vol.fileMap_none (h : ∀ n, ¬ V.Path xs n) : V.fileMap xs = none :=
  dif_neg fun ⟨n, hn⟩ => h n hn

theorem Vol.item_dir (h : V.IsDir n) : V.item n = .dir := if_pos h

theorem Vol.item_file (h : ¬ V.IsDir n) : V.item n = .file (V.content n) := if_neg h

theorem SameFile.item_eq (h : SameFile V V' n) : V'.item n = V.item n := by
  by_cases hd : V.IsDir n
  · rw [Vol.item_dir hd, Vol.item_dir (h.isDir.mpr hd)]
  · rw [Vol.item_file hd, Vol.item_file fun hd' => hd (h.isDir.mp hd'), h.content]

/-- The map stays at a path that leads to the same file. -/
theorem Vol.Arranged.fileMap_congr (hV : V.Arranged) (hV' : V'.Arranged)
    (hpath : ∀ {m}, V'.Path ys m ↔ V.Path ys m)
    (hitem : ∀ {m}, V.Path ys m → V'.item m = V.item m) : V'.fileMap ys = V.fileMap ys := by
  by_cases hex : ∃ m, V.Path ys m
  · obtain ⟨m, hm⟩ := hex
    rw [hV.fileMap_eq hm, hV'.fileMap_eq (hpath.mpr hm), hitem hm]
  · have hno : ∀ m, ¬ V.Path ys m := fun m hm => hex ⟨m, hm⟩
    rw [Vol.fileMap_none hno, Vol.fileMap_none fun m hm => hno m (hpath.mp hm)]

/-- The map changes at one path only, if the other files and paths stay. -/
theorem Vol.Arranged.fileMap_update (hV : V.Arranged) (hV' : V'.Arranged)
    (hpath : ∀ {ys m}, ys ≠ q → (V'.Path ys m ↔ V.Path ys m))
    (hitem : ∀ {ys m}, ys ≠ q → V.Path ys m → V'.item m = V.item m) :
    V'.fileMap = update V.fileMap q (V'.fileMap q) := by
  funext ys
  by_cases hq : ys = q
  · rw [hq, update_self]
  · rw [update_of_ne hq]
    exact hV.fileMap_congr hV' (hpath hq) (hitem hq)

end Paths

/-! ## Changes -/

/-- A change of the file map. -/
inductive Change where
  | stay
  /-- Directory `q` gets an entry. -/
  | make (q : Trail) (x : List Byte) (i : Item)
  /-- The entry `x` of directory `q` is removed. -/
  | remove (q : Trail) (x : List Byte)
  /-- File `q` gets another content. -/
  | put (q : Trail) (bytes : List Byte)

/-- The map after a change. -/
def Change.apply : Change → FileMap → FileMap
  | .stay, F => F
  | .make q x i, F => update F (q ++ [x]) (some i)
  | .remove q x, F => update F (q ++ [x]) none
  | .put q bytes, F => update F q (some (.file bytes))

/-- Where a change is possible: a directory gets a new entry that is empty, an entry is removed that
nothing is below of, and a file gets another content. -/
def Change.Fits (F : FileMap) : Change → Prop
  | .stay => True
  | .make q x i => F q = some .dir ∧ F (q ++ [x]) = none ∧ (i = .dir ∨ i = .file [])
  | .remove q x => F q = some .dir ∧ F (q ++ [x]) ≠ none ∧ ∀ y, F (q ++ [x] ++ [y]) = none
  | .put q _ => ∃ old, F q = some (.file old)

/-- The change that an act on the volume is, seen from outside. -/
def Change.Shows (V V' : Vol) (ch : Change) (a : Act) : Prop :=
  match a, ch with
  | .create d n name, .make q x i => V.Path q d ∧ x = name ∧ i = V'.item n
  | .remove d _ name, .remove q x => V.Path q d ∧ x = name
  | .write n, .put q bytes | .cut n, .put q bytes => V.Path q n ∧ bytes = V'.content n
  | .write n, .stay | .cut n, .stay => ¬ InUse V n
  | .none, .stay => True
  | _, _ => False

/-- An act shows as one change, and the change fits. -/
def Act.Shown (V V' : Vol) (a : Act) : Prop :=
  ∃ ch : Change, ch.Shows V V' a ∧ ch.Fits V.fileMap ∧ V'.fileMap = ch.apply V.fileMap

section Effects

variable {S S' : Nat → Prop} {sb : Superblock} {V₁ V₂ : Vol} {d k v type : Nat} {name : List Byte}
  {a : Act}

/-- A new inode has no content. -/
theorem Creates.item_new (h : Creates L S d n type name V V₁ V') :
    V'.item n = .dir ∨ V'.item n = .file [] := by
  have hsame : V'.item n = V₁.item n := by
    rcases h.link with ⟨rfl, -⟩ | ⟨j, -, hwrote⟩
    · rfl
    · exact (hwrote.sameFile (h.isDir.ne_of_free h.free).symm (Or.inr rfl)
        (h.born.shaped (Or.inr rfl))).item_eq
  have htype := h.born.type_eq
  rw [hsame]
  cases h.born with
  | file =>
      have hfile : ¬ (V.allocIno n FT_FILE).IsDir n := fun hd => by
        rw [Vol.IsDir, htype] at hd
        cases hd
      have hempty : (V.allocIno n FT_FILE).content n = [] := by
        rw [← List.length_eq_zero_iff, Vol.length_content, allocIno_ino_self]
        rfl
      exact Or.inr (by rw [Vol.item_file hfile, hempty])
  | dir self parent => exact Or.inl (Vol.item_dir htype)

/-- Making a file changes the map at its path. -/
theorem Creates.fileMap (h : Creates L S d n type name V V₁ V') (hw : WF L S V) (hV : V.Arranged)
    (hV' : V'.Arranged) (hfits : L.Fits sb) (h16 : L.ninodes ≤ 2 ^ 16)
    (hname : Fit name) (hq : V.Path q d) :
    V.fileMap (q ++ [name]) = none ∧
      V'.fileMap = update V.fileMap (q ++ [name]) (some (V'.item n)) := by
  obtain ⟨k, hg⟩ := h.grows_as hw hV hfits h16 hname
  have hpath {ys : Trail} {m : Nat} : V'.Path ys m ↔
      V.Path ys m ∨ m = n ∧ ∃ zs, ys = zs ++ [name] ∧ V.Path zs d := hg.path_iff
  refine ⟨Vol.fileMap_none fun m hm => ?_, ?_⟩
  · obtain ⟨d', j, hd', he, -⟩ := Hierarchy.Path.snoc_iff.mp hm
    obtain rfl := hV.node_unique hq hd'
    exact h.fresh_name hname he
  · rw [← hV'.fileMap_eq (hpath.mpr (Or.inr ⟨rfl, q, rfl, hq⟩))]
    refine hV.fileMap_update hV' (fun {ys m} hys => ?_) fun {ys m} hys hm => ?_
    · rw [hpath, or_iff_left]
      rintro ⟨-, zs, rfl, hzs⟩
      exact hys (by rw [hV.path_unique hzs hq])
    · have huse := hV.path_used hm
      have hmn : m ≠ n := by
        rintro rfl
        rw [InUse, h.free] at huse
        cases huse
      by_cases hmd : m = d
      · subst hmd
        rw [Vol.item_dir h.isDir, Vol.item_dir (h.isDir.of_type (h.type_of_ne hmn))]
      · exact (h.sameFile hw (hw.used huse) hmn hmd).item_eq

/-- Removing a file changes the map at its path. -/
theorem Removes.fileMap (h : Removes L S d k v name V V₁ V₂ V') (hw : WF L S V) (hV : V.Arranged)
    (hV' : V'.Arranged) (hname : Fit name ∧ name ≠ dot ∧ name ≠ dotdot) (hq : V.Path q d) :
    V.fileMap (q ++ [name]) = some (V.item v) ∧ (∀ y, V.fileMap (q ++ [name] ++ [y]) = none) ∧
      V'.fileMap = update V.fileMap (q ++ [name]) none := by
  have hg := h.shrinks_as hw hname
  have hpath {ys : Trail} {m : Nat} : V'.Path ys m ↔ V.Path ys m ∧ m ≠ v :=
    hg.path_iff hV.tree (h.ne_root hw hV hname)
  have hold : V.Path (q ++ [name]) v := by
    refine Hierarchy.Path.snoc_iff.mpr ⟨d, k, hq, ⟨h.isDir, h.named.lt, ?_, ?_⟩, hname.2⟩
    · exact Prod.ext h.inum ((matches_iff hname.1.1 hname.1.2).mp h.named.named)
    · rw [← h.inum]
      exact h.named.inum_ne
  have hgone : V'.fileMap (q ++ [name]) = none := Vol.fileMap_none fun m hm => by
    obtain ⟨hm, hmv⟩ := hpath.mp hm
    exact hmv (hV.node_unique hm hold)
  refine ⟨hV.fileMap_eq hold, fun y => Vol.fileMap_none fun m hm => ?_, ?_⟩
  · obtain ⟨v', j, hv', he, hy⟩ := Hierarchy.Path.snoc_iff.mp hm
    obtain rfl := hV.node_unique hold hv'
    exact hg.empty ⟨y, he, hy⟩
  · rw [← hgone]
    refine hV.fileMap_update hV' (fun {ys m} hys => ?_) fun {ys m} hys hm => ?_
    · rw [hpath, and_iff_left_iff_imp]
      rintro hm rfl
      exact hys (hV.path_unique hm hold)
    · have hmv : m ≠ v := by
        rintro rfl
        exact hys (hV.path_unique hm hold)
      by_cases hmd : m = d
      · subst hmd
        rw [Vol.item_dir h.isDir, Vol.item_dir (h.isDir.of_type (h.type_of_ne hmv))]
      · exact (h.sameFile hw (hw.used (hV.path_used hm)) hmd hmv).item_eq

/-- Other bytes in a file change the map at its path.  A file that has been removed has none. -/
theorem Vol.Arranged.fileMap_put (hV : V.Arranged) (hV' : V'.Arranged)
    (hier : V'.hierarchy = V.hierarchy) (hother : ∀ {m}, m ≠ n → InUse V m → SameFile V V' m)
    (hn : ¬ V.IsDir n) :
    ¬ InUse V n ∧ V'.fileMap = V.fileMap ∨ ∃ q, V.Path q n ∧
      V.fileMap q = some (.file (V.content n)) ∧
      V'.fileMap = update V.fileMap q (some (.file (V'.content n))) := by
  have hpath {ys : Trail} {m : Nat} : V'.Path ys m ↔ V.Path ys m := by
    rw [Vol.Path, hier, Vol.Path]
  have hitem {ys : Trail} {m : Nat} (hm : V.Path ys m) (hmn : m ≠ n) :
      V'.item m = V.item m := (hother hmn (hV.path_used hm)).item_eq
  by_cases huse : InUse V n
  · obtain ⟨q, hq⟩ := hV.connected huse
    have hn' : ¬ V'.hierarchy.dir n := by rwa [hier]
    refine Or.inr ⟨q, hq, by rw [hV.fileMap_eq hq, Vol.item_file hn], ?_⟩
    rw [← Vol.item_file hn', ← hV'.fileMap_eq (hpath.mpr hq)]
    refine hV.fileMap_update hV' (fun _ => hpath) fun {ys m} hys hm => hitem hm ?_
    rintro rfl
    exact hys (hV.path_unique hm hq)
  · refine Or.inl ⟨huse, funext fun ys => hV.fileMap_congr hV' hpath fun {m} hm => hitem hm ?_⟩
    rintro rfl
    exact huse (hV.path_used hm)

/-- The map shows every effect of a call. -/
theorem Does.shown (hdo : Does L p c s a)
    (hc : Careful L p c s) (hV : (s.vol L 1).Arranged) (hV' : V'.Arranged)
    (hw : WF L S (s.vol L 1)) (hfits : L.Fits sb) (h16 : L.ninodes ≤ 2 ^ 16)
    (he : Effect L S (s.vol L 1) a S' V') : a.Shown (s.vol L 1) V' := by
  have hfile := hdo.not_isDir hc.1.1
  have hdir {d : Nat} {q : Trail} (hd : (s.vol L 1).IsDir d)
      (hq : (s.vol L 1).Path q d) : (s.vol L 1).fileMap q = some .dir := by
    rw [hV.fileMap_eq hq, Vol.item_dir hd]
  have hput {n : Nat} (ha : a = .write n ∨ a = .cut n)
      (hother : ∀ {m}, m ≠ n → InUse (s.vol L 1) m → SameFile (s.vol L 1) V' m) :
      a.Shown (s.vol L 1) V' := by
    rcases hV.fileMap_put hV' (he.hierarchy_eq hw hfile ⟨n, ha⟩) hother
      (hfile n ha) with ⟨huse, hF⟩ | ⟨q, hq, hold, hF⟩
    · exact ⟨.stay, by rcases ha with rfl | rfl <;> exact huse, trivial, hF⟩
    · exact ⟨.put q (V'.content n), by rcases ha with rfl | rfl <;> exact ⟨hq, rfl⟩, ⟨_, hold⟩, hF⟩
  cases he with
  | none => exact ⟨.stay, trivial, trivial, rfl⟩
  | write mem wrote =>
      exact hput (Or.inl rfl) fun hm huse =>
        wrote.sameFile hm (hw.used huse) (hw.shaped (hw.used huse))
  | cut mem cut =>
      exact hput (Or.inr rfl) fun hm huse =>
        cut.sameFile hm (hw.used huse) (hw.shaped (hw.used huse))
  | @create d n _ name _ _ creates =>
      obtain ⟨q, hq⟩ := hV.connected creates.isDir.inUse
      obtain ⟨hfresh, hF⟩ := creates.fileMap hw hV hV' hfits h16 hdo.created hq
      exact ⟨.make q name (V'.item n), ⟨hq, rfl, rfl⟩,
        ⟨hdir creates.isDir hq, hfresh, creates.item_new⟩, hF⟩
  | @remove d k v name _ _ _ removes =>
      obtain ⟨q, hq⟩ := hV.connected removes.isDir.inUse
      obtain ⟨hold, hbelow, hF⟩ := removes.fileMap hw hV hV' (hdo.removed hc.1.2) hq
      exact ⟨.remove q name, ⟨hq, rfl⟩, ⟨hdir removes.isDir hq, by rw [hold]; nofun, hbelow⟩, hF⟩

end Effects

/-! ## Runs -/

/-- One change that fits. -/
def FileMap.Step (F G : FileMap) : Prop := ∃ ch : Change, ch.Fits F ∧ G = ch.apply F

section Runs

variable {d0 d1 : Device} {s' : KState} {r : Int}

theorem Reached.shown (himg : d1.Arranged L) (h : Reached (Careful L) d0 d1 s)
    (hc : Careful L p c s) (hx : Dmaos.step p c s = .ok r s') :
    ∃ a, Does L p c s a ∧ a.Shown (s.vol L 1) (s'.vol L 1) := by
  obtain ⟨S, hd, hV⟩ := h.arranged himg
  obtain ⟨a, S', hdo, he, -⟩ := step_performs hd h.guard.refs hc.2 hc.1.1.write hx
  have hV' := hV.effect hd.wf hd.fits himg.small hc hdo he
  exact ⟨a, hdo, hdo.shown hc hV hV' hd.wf hd.fits himg.small he⟩

/-- A directory is made in `/home`. -/
theorem reached_mkdir : ∃ s, Reached (Careful formattedLayout) systemDisk emptyDisk s ∧
    (s.vol formattedLayout 1).Path [[0x61]] 2 ∧ (s.vol formattedLayout 1).IsDir 2 := by
  have hplay : (playFrom (Careful formattedLayout) systemDisk emptyDisk [(1, .mkdir pathA)]).any
      (fun s => decide ((s.vol formattedLayout 1).IsDir 1 ∧ 2 < (s.vol formattedLayout 1).nents 1 ∧
        (s.vol formattedLayout 1).ent 1 2 = (2, [0x61]) ∧ (s.vol formattedLayout 1).IsDir 2)) =
      true := by decide +kernel
  obtain ⟨s, hs, hQ⟩ := Reached.of_playFrom hplay
  obtain ⟨hroot, hlt, hent, hdir⟩ := of_decide_eq_true hQ
  exact ⟨s, hs, .down .root ⟨hroot, hlt, hent, by decide⟩ (by decide), hdir⟩

/-- Every inode in use has one path, which leads to it only. -/
theorem one_path (himg : d1.Arranged L) (h : Reached (Careful L) d0 d1 s)
    (hn : InUse (s.vol L 1) n) :
    ∃! q, (s.vol L 1).Path q n ∧ ∀ m, (s.vol L 1).Path q m → m = n := by
  obtain ⟨S, -, hV⟩ := h.arranged himg
  obtain ⟨q, hq⟩ := hV.connected hn
  exact ⟨q, ⟨hq, fun m hm => hV.node_unique hm hq⟩, fun _ hq' => hV.path_unique hq'.1 hq⟩

theorem one_path_mkdir : ∃ s, Reached (Careful formattedLayout) systemDisk emptyDisk s ∧
    ∃! q, (s.vol formattedLayout 1).Path q 2 ∧ ∀ m, (s.vol formattedLayout 1).Path q m → m = 2 := by
  obtain ⟨s, hs, -, hdir⟩ := reached_mkdir
  exact ⟨s, hs, one_path emptyDisk_arranged hs hdir.inUse⟩

/-- Every call of a run makes at most one change to the map of the files, one that its kind allows
and that fits the map; so the map in any state is made from the one of the image by such
changes. -/
theorem files_change (himg : d1.Arranged L) (h : Reached (Careful L) d0 d1 s) :
    Relation.ReflTransGen FileMap.Step (d1.vol L).fileMap (s.vol L 1).fileMap ∧
      ∀ p c r s', Careful L p c s → step p c s = .ok r s' →
        ∃ a, Does L p c s a ∧ a.Shown (s.vol L 1) (s'.vol L 1) := by
  refine ⟨?_, fun p c r s' hc hx => h.shown himg hc hx⟩
  induction h with
  | boot run => rw [(boot_ok himg.toConsistent run).2.1]
  | step before cond run ih =>
      obtain ⟨a, -, ch, -, hfits, happ⟩ := before.shown himg cond run
      exact ih.tail ⟨ch, hfits, happ⟩

theorem files_change_mkdir :
    ∃ s, Reached (Careful formattedLayout) systemDisk emptyDisk s ∧
      (s.vol formattedLayout 1).fileMap [[0x61]] = some .dir ∧
      Relation.ReflTransGen FileMap.Step (emptyDisk.vol formattedLayout).fileMap
        (s.vol formattedLayout 1).fileMap := by
  obtain ⟨s, hs, hpath, hdir⟩ := reached_mkdir
  obtain ⟨S, -, hV⟩ := hs.arranged emptyDisk_arranged
  exact ⟨s, hs, by rw [hV.fileMap_eq hpath, Vol.item_dir hdir],
    (files_change emptyDisk_arranged hs).1⟩

end Runs

end Dmaos
