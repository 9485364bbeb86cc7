import Dmaos.Mkfs.Encode

/-!
# The image that `mkfs` makes

`main` adds the files and directories of a tree one after the other and then
writes the directories, the inodes and the free map.  `Builds` is what the
calls made for the tree can do; `Orderly` holds between them.  A call leaves the
inodes taken before it as they are (`Kept`), and so do the writes at the end,
but for the inodes of the directories.

So a file is on the image as `add_file` has stored it, whatever is added before
and after it.  The kernel reads it back: `Loads` says that a slot of its inode
cache holds an inode of the volume and that the blocks of the inode are on its
device, and `Loads.readi` that `readi` then returns the contents.
-/

namespace Dmaos.Mkfs

open Fault Function Vol

variable {m m' m'' m₁ m₂ : State} {n r : Nat} {junk : Nat → Nat → Buf} {u : Unit} {d : MkfsDir}
  {path content : List Byte} {V V' : Vol}

/-! ## The invariant between calls -/

/-- Between two calls the directories have inodes of their own, without
blocks. -/
structure Orderly (m : State) : Prop extends Sane m where
  dir_lt : ∀ {d : MkfsDir}, d ∈ m.dirs → d.inum < m.freeinode
  dir_type : ∀ {d : MkfsDir}, d ∈ m.dirs → (m.vol.ino d.inum).type = FT_DIRECTORY
  dir_size : ∀ {d : MkfsDir}, d ∈ m.dirs → (m.vol.ino d.inum).size = 0
  dir_empty : ∀ {d : MkfsDir}, d ∈ m.dirs → ∀ σ : Slot, σ.Valid → m.vol.ptr d.inum σ = 0
  nodup : (m.dirs.map (·.inum)).Nodup

/-- Inodes may have been taken, but no blocks. -/
structure Quiet (m m' : State) : Prop where
  le : m.freeinode ≤ m'.freeinode
  disk : m'.disk = m.disk
  bitmap : m'.freeBitmap = m.freeBitmap
  block : m'.freeblock = m.freeblock
  ino : ∀ {n : Nat}, n < m.freeinode → m'.vol.ino n = m.vol.ino n
  ptr : ∀ (n : Nat) (σ : Slot), m'.vol.ptr n σ = m.vol.ptr n σ
  blank : ∀ {n : Nat}, m'.freeinode ≤ n → m.vol.ino n = DView.blank → m'.vol.ino n = DView.blank

section Quiet

theorem Quiet.refl (m : State) : Quiet m m :=
  ⟨le_rfl, rfl, rfl, rfl, fun _ => rfl, fun _ _ => rfl, fun _ h => h⟩

theorem Quiet.trans (h₁ : Quiet m m') (h₂ : Quiet m' m'') : Quiet m m'' where
  le := h₁.le.trans h₂.le
  disk := h₂.disk.trans h₁.disk
  bitmap := h₂.bitmap.trans h₁.bitmap
  block := h₂.block.trans h₁.block
  ino hn := (h₂.ino (hn.trans_le h₁.le)).trans (h₁.ino hn)
  ptr n σ := (h₂.ptr n σ).trans (h₁.ptr n σ)
  blank hn h := h₂.blank hn (h₁.blank (h₂.le.trans hn) h)

theorem Quiet.kept (h : Quiet m m') (hn : n < m.freeinode) : Kept n m.vol m'.vol where
  ino := h.ino hn
  ptr _ := h.ptr _ _
  data _ _ := congrFun h.disk _

theorem Quiet.sane (h : Quiet m m') (hm : Sane m) : Sane m' where
  low := by rw [h.block]; exact hm.low
  high := by rw [h.block]; exact hm.high
  marks b := by rw [h.block, h.bitmap]; exact hm.marks b
  own := hm.own.congr (fun _ _ => h.ptr _ _) (congrArg Buf.testBit h.bitmap)
  blank hn := h.blank hn (hm.blank (h.le.trans hn))
  used hlo hb := by
    rw [h.block] at hb
    obtain ⟨n, σ, hσ, he⟩ := hm.used hlo hb
    exact ⟨n, σ, hσ, by rw [h.ptr, he]⟩

/-- Nothing but the list of directories has changed. -/
theorem Quiet.of_dirs {dirs : List MkfsDir} (h : m' = { m with dirs := dirs }) : Quiet m m' := by
  subst h
  exact ⟨le_rfl, rfl, rfl, rfl, fun _ => rfl, fun _ _ => rfl, fun _ h => h⟩

/-- The directories of an orderly state are still in order when only their
entries change. -/
theorem Orderly.of_quiet (h : Orderly m) (hq : Quiet m m')
    (hdirs : m'.dirs.map (·.inum) = m.dirs.map (·.inum)) : Orderly m' := by
  have hmem : ∀ {d : MkfsDir}, d ∈ m'.dirs → ∃ e ∈ m.dirs, e.inum = d.inum := by
    intro d hd
    have : d.inum ∈ m.dirs.map (·.inum) := hdirs ▸ List.mem_map_of_mem hd
    exact List.mem_map.mp this
  refine { toSane := hq.sane h.toSane, dir_lt := ?_, dir_type := ?_, dir_size := ?_,
           dir_empty := ?_, nodup := by rw [hdirs]; exact h.nodup }
  · intro d hd
    obtain ⟨e, he, heq⟩ := hmem hd
    rw [← heq]
    exact (h.dir_lt he).trans_le hq.le
  · intro d hd
    obtain ⟨e, he, heq⟩ := hmem hd
    rw [← heq, hq.ino (h.dir_lt he)]
    exact h.dir_type he
  · intro d hd
    obtain ⟨e, he, heq⟩ := hmem hd
    rw [← heq, hq.ino (h.dir_lt he)]
    exact h.dir_size he
  · intro d hd σ hσ
    obtain ⟨e, he, heq⟩ := hmem hd
    rw [← heq, hq.ptr]
    exact h.dir_empty he σ hσ

end Quiet

/-! ## Directories -/

section Dirs

theorem addEntry_ok {inum : Nat} {de : Dirent} {e : Exit} (h : Orderly m)
    (hx : addEntry inum de e m = .ok u m') : Orderly m' ∧ Quiet m m' := by
  replace hx := get_then hx
  cases hi : m.dirs.findIdx? (·.inum == inum) with
  | none =>
      simp only [hi] at hx
      exact absurd hx throw_ok
  | some i =>
      simp only [hi] at hx
      cases hd : m.dirs[i]? with
      | none =>
          simp only [hd] at hx
          exact absurd hx throw_ok
      | some d =>
          simp only [hd] at hx
          split_ifs at hx with hfull
          · exact absurd hx throw_ok
          · have hm' := modify_ok.mp hx
            have hq := Quiet.of_dirs hm'
            refine ⟨h.of_quiet hq ?_, hq⟩
            rw [hm']
            show (m.dirs.set i _).map (·.inum) = _
            apply List.ext_getElem?
            intro j
            rw [List.getElem?_map, List.getElem?_map, List.getElem?_set]
            split_ifs with hij hlt
            · subst hij
              rw [hd]
              rfl
            · subst hij
              rw [List.getElem?_eq_none (by omega)]
            · rfl

/-- A directory gets an inode. -/
theorem Orderly.newDir (h : Orderly m)
    (hnext : nextInode m = .ok n m₁) (hinit : initInode n FT_DIRECTORY m₁ = .ok u m₂)
    (hd : d.inum = n) (hm' : m' = { m₂ with dirs := m₂.dirs ++ [d] }) :
    Orderly m' ∧ Quiet m m' := by
  obtain ⟨rfl, hlt, hm₁⟩ := nextInode_ok hnext
  have hvol₁ : m₁.vol = m.vol := by rw [hm₁]; rfl
  have hblank : m.vol.ino m.freeinode = DView.blank := h.blank le_rfl
  obtain ⟨hm₂, hvol₂⟩ := initInode_ok (by rw [hvol₁]; exact hblank) (by decide) hinit
  have hvol : m'.vol = m.vol.setIno m.freeinode
      { DView.blank with type := FT_DIRECTORY, nlink := 1 } := by
    rw [← hvol₁, ← hvol₂, hm']
    rfl
  have hfree : m'.freeinode = m.freeinode + 1 := by rw [hm', hm₂, hm₁]
  have hdirs : m'.dirs = m.dirs ++ [d] := by rw [hm', hm₂, hm₁]
  have hself : m'.vol.ino m.freeinode = { DView.blank with type := FT_DIRECTORY, nlink := 1 } := by
    rw [hvol]
    exact update_self ..
  have hne : ∀ {j : Nat}, j ≠ m.freeinode → m'.vol.ino j = m.vol.ino j := by
    intro j hj
    rw [hvol]
    exact update_of_ne hj _ _
  have hptr : ∀ (j : Nat) (σ : Slot), m'.vol.ptr j σ = m.vol.ptr j σ := by
    rw [hvol]
    exact ptr_setIno (by rw [hblank])
  have hq : Quiet m m' :=
    { le := by omega, disk := by rw [hm', hm₂, hm₁], bitmap := by rw [hm', hm₂, hm₁],
      block := by rw [hm', hm₂, hm₁], ino := fun hn => hne (by omega), ptr := hptr,
      blank := fun hn hb => by rw [hne (by omega)]; exact hb }
  refine ⟨{ toSane := hq.sane h.toSane, dir_lt := ?_, dir_type := ?_, dir_size := ?_,
            dir_empty := ?_, nodup := ?_ }, hq⟩
  · intro e he
    rw [hdirs, List.mem_append, List.mem_singleton] at he
    rcases he with he | rfl
    · have := h.dir_lt he
      omega
    · omega
  · intro e he
    rw [hdirs, List.mem_append, List.mem_singleton] at he
    rcases he with he | rfl
    · rw [hq.ino (h.dir_lt he)]
      exact h.dir_type he
    · rw [hd, hself]
  · intro e he
    rw [hdirs, List.mem_append, List.mem_singleton] at he
    rcases he with he | rfl
    · rw [hq.ino (h.dir_lt he)]
      exact h.dir_size he
    · rw [hd, hself]
      rfl
  · intro e he σ hσ
    rw [hdirs, List.mem_append, List.mem_singleton] at he
    rw [hptr]
    rcases he with he | rfl
    · exact h.dir_empty he σ hσ
    · rw [hd]
      exact ptr_blank hblank
  · rw [hdirs, List.map_append, List.nodup_append]
    refine ⟨h.nodup, List.nodup_singleton _, ?_⟩
    intro a ha b hb
    obtain ⟨e, he, rfl⟩ := List.mem_map.mp ha
    rw [List.map_singleton, List.mem_singleton] at hb
    have := h.dir_lt he
    omega

theorem copyString_ok {s r : List Byte} (h : copyString s m = .ok r m') :
    m = m' ∧ r = s ∧ s.length < 256 := by
  unfold copyString at h
  split_ifs at h with hlen
  · exact absurd h throw_ok
  · obtain ⟨rfl, rfl⟩ := pure_ok.mp h
    exact ⟨rfl, rfl, by omega⟩

theorem getOrCreateDir_ok : ∀ {k r : Nat} {path : List Byte} {m m' : State}, Orderly m →
    getOrCreateDir junk k path m = .ok r m' → Orderly m' ∧ Quiet m m'
  | 0, r, path, m, m', h, hx => by
      obtain ⟨-, rfl⟩ := pure_ok.mp hx
      exact ⟨h, .refl m⟩
  | k + 1, r, path, m, m', h, hx => by
      unfold getOrCreateDir at hx
      split_ifs at hx with hpath
      · obtain ⟨-, rfl⟩ := pure_ok.mp hx
        exact ⟨h, .refl m⟩
      · replace hx := get_then hx
        cases hf : m.dirs.find? (·.path == path) with
        | some d =>
            simp only [hf] at hx
            obtain ⟨-, rfl⟩ := pure_ok.mp hx
            exact ⟨h, .refl m⟩
        | none =>
            simp only [hf] at hx
            obtain ⟨parent, t₁, h₁, hx⟩ := bind_ok.mp hx
            obtain ⟨rfl, rfl, -⟩ := copyString_ok h₁
            obtain ⟨name, t₂, h₂, hx⟩ := bind_ok.mp hx
            obtain ⟨rfl, rfl, -⟩ := copyString_ok h₂
            split_ifs at hx with hname
            · exact absurd hx throw_ok
            · obtain ⟨p, m₁, hp, hx⟩ := bind_ok.mp hx
              obtain ⟨ho₁, hq₁⟩ := getOrCreateDir_ok h hp
              obtain ⟨n, m₂, hnext, hx⟩ := bind_ok.mp hx
              obtain ⟨u, m₃, hinit, hx⟩ := bind_ok.mp hx
              obtain ⟨s, t₃, h₃, hx⟩ := bind_ok.mp hx
              obtain ⟨rfl, rfl, -⟩ := copyString_ok h₃
              obtain ⟨u', m₄, hdirs, hx⟩ := bind_ok.mp hx
              obtain ⟨ho₂, hq₂⟩ := ho₁.newDir hnext hinit rfl (modify_ok.mp hdirs)
              obtain ⟨u'', m₅, hentry, hx⟩ := bind_ok.mp hx
              obtain ⟨ho₃, hq₃⟩ := addEntry_ok ho₂ hentry
              obtain ⟨-, rfl⟩ := pure_ok.mp hx
              exact ⟨ho₃, (hq₁.trans hq₂).trans hq₃⟩

end Dirs

/-! ## Files -/

section Files

theorem Kept.refl (V : Vol) (n : Nat) : Kept n V V := ⟨rfl, fun _ => rfl, fun _ _ => rfl⟩

theorem Kept.trans {V'' : Vol} (h₁ : Kept n V V') (h₂ : Kept n V' V'') : Kept n V V'' where
  ino := h₂.ino.trans h₁.ino
  ptr hσ := (h₂.ptr hσ).trans (h₁.ptr hσ)
  data hσ h0 := by
    have := h₂.data hσ (by rwa [h₁.ptr hσ.valid])
    rw [h₁.ptr hσ.valid] at this
    rw [this, h₁.data hσ h0]

/-- Inode `n` of the volume is a file with the given content. -/
structure IsFile (n : Nat) (content : List Byte) (V : Vol) : Prop where
  type : (V.ino n).type = FT_FILE
  covered : Covered V n
  content : V.content n = content

theorem IsFile.of_kept (h : IsFile n content V) (hk : Kept n V V') : IsFile n content V' := by
  obtain ⟨hcov, hcont⟩ := h.covered.content_eq hk.ino hk.ptr hk.data
  exact ⟨by rw [hk.ino]; exact h.type, hcov, hcont.trans h.content⟩

/-- The blocks an inode has, tables included. -/
def Uses (V : Vol) (n b : Nat) : Prop := b ≠ 0 ∧ ∃ σ : Slot, σ.Valid ∧ V.ptr n σ = b

/-- What a call of `add_file` does. -/
structure Added (n : Nat) (content : List Byte) (m m' : State) : Prop where
  lo : m.freeinode ≤ n
  hi : n < m'.freeinode
  file : IsFile n content m'.vol
  kept : ∀ {j : Nat}, j < m.freeinode → Kept j m.vol m'.vol
  bits : ∀ b : Nat, m'.vol.bm b = true ↔ m.vol.bm b = true ∨ Uses m'.vol n b
  free : ∀ {b : Nat}, Uses m'.vol n b → m.vol.bm b = false

/-- An orderly state stays orderly while a file is stored. -/
theorem Orderly.of_stored (h : Orderly m) (hs : Stored m.freeinode FT_FILE content m m')
    (hsane : Sane m') (hle : m.freeinode ≤ m'.freeinode) (hdirs : m'.dirs = m.dirs) :
    Orderly m' := by
  have hkept : ∀ {d : MkfsDir}, d ∈ m.dirs → Kept d.inum m.vol m'.vol :=
    fun hd => hs.kept (h.dir_lt hd).ne
  refine { toSane := hsane, dir_lt := ?_, dir_type := ?_, dir_size := ?_, dir_empty := ?_,
           nodup := by rw [hdirs]; exact h.nodup }
  all_goals
    intro d hd
    rw [hdirs] at hd
  · exact (h.dir_lt hd).trans_le hle
  · rw [(hkept hd).ino]
    exact h.dir_type hd
  · rw [(hkept hd).ino]
    exact h.dir_size hd
  · intro σ hσ
    rw [(hkept hd).ptr hσ]
    exact h.dir_empty hd σ hσ

theorem addFile_ok (h : Orderly m) (hx : addFile junk path (some content) m = .ok n m') :
    Orderly m' ∧ Added n content m m' := by
  unfold addFile at hx
  dsimp only at hx
  split_ifs at hx with hdir
  · exact absurd hx throw_ok
  · obtain ⟨name, t, hname, hx⟩ := bind_ok.mp hx
    obtain ⟨rfl, rfl, -⟩ := copyString_ok hname
    split_ifs at hx with hlen
    · exact absurd hx throw_ok
    · obtain ⟨n', m₁, hstore, hx⟩ := bind_ok.mp hx
      obtain ⟨d, m₂, hget, hx⟩ := bind_ok.mp hx
      obtain ⟨u, m₃, hentry, hx⟩ := bind_ok.mp hx
      obtain ⟨rfl, rfl⟩ := pure_ok.mp hx
      obtain ⟨rfl, -, hfree, hdirs, hsane, hs⟩ := storeFile_ok h.toSane hstore
      have ho₁ := h.of_stored hs hsane (by omega) hdirs
      obtain ⟨ho₂, hq₂⟩ := getOrCreateDir_ok ho₁ hget
      obtain ⟨ho₃, hq₃⟩ := addEntry_ok ho₂ hentry
      have hq := hq₂.trans hq₃
      have hle := hq.le
      have hhas : ∀ {b : Nat}, Uses m₃.vol m.freeinode b ↔
          b ≠ 0 ∧ ∃ σ : Slot, σ.Valid ∧ m₁.vol.ptr m.freeinode σ = b := by
        intro b
        simp only [Uses, hq.ptr]
      have hbm : m₃.vol.bm = m₁.vol.bm := congrArg Buf.testBit hq.bitmap
      have hfile : IsFile m.freeinode content m₁.vol := ⟨hs.type, hs.covered, hs.content⟩
      refine ⟨ho₃, { lo := le_rfl, hi := by omega, file := hfile.of_kept (hq.kept (by omega)),
                     kept := fun hj => ?_, bits := fun b => ?_, free := fun hb => ?_ }⟩
      · exact (hs.kept hj.ne).trans (hq.kept (by omega))
      · rw [hbm, hhas, hs.bits]
        refine or_congr Iff.rfl ⟨?_, ?_⟩
        · rintro ⟨σ, hσ, he, h0⟩
          exact ⟨h0, σ, hσ, he⟩
        · rintro ⟨h0, σ, hσ, he⟩
          exact ⟨σ, hσ, he, h0⟩
      · obtain ⟨h0, σ, hσ, rfl⟩ := hhas.mp hb
        exact hs.free hσ h0

theorem addFile_none_ne : ¬ addFile junk path none m = .ok n m' := by
  intro hx
  unfold addFile at hx
  dsimp only at hx
  split_ifs at hx with hdir
  · exact throw_ok hx
  · obtain ⟨name, t, hname, hx⟩ := bind_ok.mp hx
    split_ifs at hx with hlen
    · exact throw_ok hx
    · exact throw_ok hx

/-- The calls made for a tree, one after the other. -/
inductive Builds (junk : Nat → Nat → Buf) (m : State) : State → Prop
  | refl : Builds junk m m
  | addFile {m₁ m₂ : State} {path content : List Byte} {n : Nat} : Builds junk m m₁ →
      addFile junk path (some content) m₁ = .ok n m₂ → Builds junk m m₂
  | getOrCreateDir {m₁ m₂ : State} {k r : Nat} {path : List Byte} : Builds junk m m₁ →
      getOrCreateDir junk k path m₁ = .ok r m₂ → Builds junk m m₂

/-- Every run keeps the invariant and the inodes taken before it. -/
theorem Builds.keeps (h : Builds junk m m') (ho : Orderly m) :
    Orderly m' ∧ m.freeinode ≤ m'.freeinode ∧
      ∀ {j : Nat}, j < m.freeinode → Kept j m.vol m'.vol := by
  induction h with
  | refl => exact ⟨ho, le_rfl, fun _ => .refl _ _⟩
  | addFile _ hx ih =>
      obtain ⟨ho₁, hle, hk⟩ := ih
      obtain ⟨ho₂, ha⟩ := addFile_ok ho₁ hx
      have h₁ := ha.lo
      have h₂ := ha.hi
      exact ⟨ho₂, by omega, fun hj => (hk hj).trans (ha.kept (by omega))⟩
  | getOrCreateDir _ hx ih =>
      obtain ⟨ho₁, hle, hk⟩ := ih
      obtain ⟨ho₂, hq⟩ := getOrCreateDir_ok ho₁ hx
      exact ⟨ho₂, hle.trans hq.le, fun hj => (hk hj).trans (hq.kept (by omega))⟩

/-! ### The tree on the host -/

mutual

/-- The contents of the files that `traverse_dir` stores, in its order. -/
def Node.contents : Node → List (List Byte)
  | .file name content => if skipped name then [] else content.toList
  | .dir name nodes =>
    if skipped name then []
    else
      match nodes with
      | none => []
      | some nodes => contentsOf nodes
  | .other _ => []
  | .missing _ => []

/-- The contents of the files below a directory. -/
def contentsOf : List Node → List (List Byte)
  | [] => []
  | node :: nodes => node.contents ++ contentsOf nodes

end

/-- The files with the contents `cs` have inodes of their own, in this order. -/
structure Stages (cs : List (List Byte)) (m : State) : Prop extends Orderly m where
  pos : 1 ≤ m.freeinode
  files : ∃ fs : List (Nat × List Byte), fs.map Prod.snd = cs ∧ (fs.map Prod.fst).Pairwise (· < ·) ∧
    ∀ f ∈ fs, (1 ≤ f.1 ∧ f.1 < m.freeinode) ∧ IsFile f.1 f.2 m.vol

section Stages

variable {cs : List (List Byte)}

theorem Stages.addFile (h : Stages cs m) (hx : addFile junk path (some content) m = .ok n m') :
    Stages (cs ++ [content]) m' := by
  obtain ⟨ho, ha⟩ := addFile_ok h.toOrderly hx
  obtain ⟨fs, rfl, hsort, hfs⟩ := h.files
  have hlo := ha.lo
  have hhi := ha.hi
  have hpos := h.pos
  refine ⟨ho, by omega, fs ++ [(n, content)], by simp, ?_, fun f hf => ?_⟩
  · rw [List.map_append, List.pairwise_append]
    refine ⟨hsort, List.pairwise_singleton _ _, fun a hmem b hb => ?_⟩
    obtain ⟨f, hf, rfl⟩ := List.mem_map.mp hmem
    obtain rfl := List.mem_singleton.mp hb
    exact (hfs f hf).1.2.trans_le hlo
  · rcases List.mem_append.mp hf with hf | hf
    · obtain ⟨hlt, hfile⟩ := hfs f hf
      exact ⟨⟨hlt.1, by omega⟩, hfile.of_kept (ha.kept hlt.2)⟩
    · obtain rfl := List.mem_singleton.mp hf
      exact ⟨⟨by omega, hhi⟩, ha.file⟩

theorem Stages.getOrCreateDir {k : Nat} (h : Stages cs m)
    (hx : getOrCreateDir junk k path m = .ok r m') : Stages cs m' := by
  obtain ⟨ho, hq⟩ := getOrCreateDir_ok h.toOrderly hx
  obtain ⟨fs, hcs, hsort, hfs⟩ := h.files
  refine ⟨ho, h.pos.trans hq.le, fs, hcs, hsort, fun f hf => ?_⟩
  obtain ⟨hlt, hfile⟩ := hfs f hf
  exact ⟨⟨hlt.1, hlt.2.trans_le hq.le⟩, hfile.of_kept (hq.kept hlt.2)⟩

mutual

theorem Stages.traverseNode : ∀ {node : Node} {cs fs m m'},
    Stages cs m → traverseNode junk fs node m = .ok u m' → Stages (cs ++ node.contents) m'
  | .file name content, cs, fs, m, m', h, hx => by
      unfold Mkfs.traverseNode at hx
      unfold Node.contents
      split_ifs at hx ⊢ with hskip
      · obtain ⟨-, rfl⟩ := pure_ok.mp hx
        rwa [List.append_nil]
      · obtain ⟨n, m₁, hadd, hx⟩ := bind_ok.mp hx
        obtain ⟨-, rfl⟩ := pure_ok.mp hx
        cases content with
        | none => exact absurd hadd addFile_none_ne
        | some content => exact h.addFile hadd
  | .dir name nodes, cs, fs, m, m', h, hx => by
      unfold Mkfs.traverseNode at hx
      unfold Node.contents
      split_ifs at hx ⊢ with hskip
      · obtain ⟨-, rfl⟩ := pure_ok.mp hx
        rwa [List.append_nil]
      · obtain ⟨r, m₁, hget, hx⟩ := bind_ok.mp hx
        cases nodes with
        | none => exact absurd hx throw_ok
        | some nodes => exact (h.getOrCreateDir hget).traverseDir hx
  | .other name, cs, fs, m, m', h, hx => by
      unfold Mkfs.traverseNode at hx
      obtain ⟨-, rfl⟩ := pure_ok.mp hx
      rwa [Node.contents, List.append_nil]
  | .missing name, cs, fs, m, m', h, hx => by
      unfold Mkfs.traverseNode at hx
      split_ifs at hx with hskip
      · obtain ⟨-, rfl⟩ := pure_ok.mp hx
        rwa [Node.contents, List.append_nil]
      · exact absurd hx throw_ok

theorem Stages.traverseDir : ∀ {nodes : List Node} {cs fs m m'},
    Stages cs m → traverseDir junk fs nodes m = .ok u m' → Stages (cs ++ contentsOf nodes) m'
  | [], cs, fs, m, m', h, hx => by
      unfold Mkfs.traverseDir at hx
      obtain ⟨-, rfl⟩ := pure_ok.mp hx
      rwa [contentsOf, List.append_nil]
  | node :: nodes, cs, fs, m, m', h, hx => by
      unfold Mkfs.traverseDir at hx
      obtain ⟨u₁, m₁, h₁, hx⟩ := bind_ok.mp hx
      rw [contentsOf, ← List.append_assoc]
      exact (h.traverseNode h₁).traverseDir hx

end

end Stages

end Files

/-! ## Directories on the disk -/

section Write

variable {V₀ : Vol} {src : Buf} {tot : Nat} {l : Locals}

/-- A file without tables has nothing in memory. -/
theorem Storing.vol_eq (h : Storing V₀ n src tot l m V) (hle : l.blockIndex ≤ 12) : m.vol = V := by
  have h12 : V.ptr n (.top 12) = 0 := by
    by_contra hc
    rw [← ne_eq, h.upto _ (Slot.valid_top (by omega)), or_false, Slot.rank_single_top] at hc
    omega
  have h13 : V.ptr n (.top 13) = 0 := by
    by_contra hc
    rw [← ne_eq, h.upto _ (Slot.valid_top (by omega)), or_false, Slot.rank_double_top] at hc
    omega
  refine Vol.ext (funext fun b => h.mirror.disk id ?_) (funext fun b => ?_) h.ino
  · rintro σ (rfl | rfl | ⟨-, rfl⟩) h0
    · exact absurd h12 h0
    · exact absurd h13 h0
    · exact absurd (Vol.ptr_ent_of_eq h13) h0
  · show m.freeBitmap.testBit b = V.bm b
    rw [h.marks, h.bm]

/-- The blocks of a directory are those of a file of the same bytes. -/
theorem dirBlocks_ok (hblank : ∀ σ : Slot, σ.Valid → V₀.ptr n σ = 0) :
    ∀ {k i tot : Nat} {bytes : List Byte} {m : State} {V : Vol} {l : Locals},
      Storing V₀ n src tot l m V → l.blockIndex = i → i + k ≤ 12 → k = blocks bytes.length →
      (bytes ≠ [] → tot = 1024 * i) → (∀ j < bytes.length, Buf.ofList bytes j = src (tot + j)) →
      dirBlocks n k i bytes m = .ok u m' →
      ∃ V' l', Storing V₀ n src (tot + bytes.length) l' m' V' ∧ l'.blockIndex ≤ 12 ∧
        (V'.ino n).size = (V.ino n).size
  | 0, i, tot, bytes, m, V, l, h, hi, hik, hk, htot, hsrc, hx => by
      obtain ⟨-, rfl⟩ := pure_ok.mp hx
      have hnil : bytes.length = 0 := by
        unfold blocks at hk
        omega
      rw [hnil]
      exact ⟨V, l, h, by omega, rfl⟩
  | k + 1, i, tot, bytes, m, V, l, h, hi, hik, hk, htot, hsrc, hx => by
      unfold blocks at hk
      have hne : bytes ≠ [] := by
        rintro rfl
        simp only [List.length_nil] at hk
        omega
      unfold dirBlocks at hx
      rw [BSIZE_eq] at hx
      obtain ⟨db, m₁, hb, hx⟩ := bind_ok.mp hx
      obtain ⟨u₁, m₂, hw, hx⟩ := bind_ok.mp hx
      obtain ⟨u₂, m₃, hs, hx⟩ := bind_ok.mp hx
      obtain ⟨hp, hdisk⟩ := h.pending hb hw
      -- The pointer is stored as `add_file` stores that of a direct block.
      have hplace : placeBlock n [] db l m₂ = .ok l m₃ := by
        unfold placeBlock
        rw [if_pos (by rw [NDIRECT_eq]; omega), run_bind (by rw [hi]; exact hs)]
        rfl
      have hpart : 0 < min 1024 bytes.length ∧ min 1024 bytes.length ≤ 1024 := by
        have := List.length_pos_of_ne_nil hne
        omega
      obtain ⟨V₁, h₁, hsize⟩ := hp.stored h.written h.upto h.active hblank
        (by rw [hi]; exact htot hne) hpart
        (by
          intro j hj
          rw [hdisk, Buf.copy_of_mem (by omega), Nat.sub_zero]
          exact hsrc j (by omega)) hplace
      have hlen : (bytes.drop 1024).length = bytes.length - 1024 := List.length_drop
      have hnext : bytes.drop 1024 ≠ [] → tot + min 1024 bytes.length = 1024 * (i + 1) := by
        intro hne'
        have := List.length_pos_of_ne_nil hne'
        have := htot hne
        omega
      have hsrc' : ∀ j < (bytes.drop 1024).length,
          Buf.ofList (bytes.drop 1024) j = src (tot + min 1024 bytes.length + j) := by
        intro j hj
        rw [Buf.ofList_drop, hsrc (1024 + j) (by omega)]
        congr 1
        omega
      obtain ⟨V', l', h', hle, hsize'⟩ := dirBlocks_ok hblank h₁
        (show l.blockIndex + 1 = i + 1 by rw [hi]) (by omega)
        (by rw [hlen, blocks]; omega) hnext hsrc' hx
      refine ⟨V', l', ?_, hle, hsize'.trans hsize⟩
      rwa [hlen, show tot + min 1024 bytes.length + (bytes.length - 1024) = tot + bytes.length by
        omega] at h'

theorem SameTree.dirBlocks : ∀ {k i : Nat} {bytes : List Byte},
    Within SameTree (dirBlocks n k i bytes)
  | 0, _, _ => .pure
  | _ + 1, _, _ => .bind SameTree.balloc fun _ => .bind (SameTree.writeBlock _ _) fun _ =>
      .bind (SameTree.setInode _ _) fun _ => SameTree.dirBlocks

/-- A directory is written. -/
theorem writeDir_ok (h : Sane m) (hlt : d.inum < m.freeinode)
    (hempty : ∀ σ : Slot, σ.Valid → m.vol.ptr d.inum σ = 0)
    (hzero : (m.vol.ino d.inum).size = 0) (hx : writeDir d m = .ok u m') :
    Sane m' ∧ SameTree m m' ∧ Stored d.inum (m.vol.ino d.inum).type d.bytes m m' := by
  unfold writeDir at hx
  dsimp only at hx
  obtain ⟨u₁, m₁, hs, hx⟩ := bind_ok.mp hx
  rw [NDIRECT_eq, BSIZE_eq] at hx
  split_ifs at hx with hbig
  · exact absurd hx throw_ok
  · have htree : SameTree m m' := trans_of SameTree ((SameTree.setInode _ _).of_ok hs)
      (SameTree.dirBlocks.of_ok hx)
    have hm₁ := modify_ok.mp hs
    have hvol₁ : m₁.vol = m.vol.setSize d.inum d.bytes.length := by
      rw [hm₁]
      exact Vol.ext rfl rfl (vol_ino_setSize m (by omega))
    have hmark₁ : Marked m₁ := by
      rw [hm₁]
      exact ⟨h.low, h.high, h.marks⟩
    have hempty₁ : ∀ σ : Slot, σ.Valid → m₁.vol.ptr d.inum σ = 0 := by
      intro σ hσ
      rw [hvol₁, ptr_setSize, hempty σ hσ]
    have hw₁ : Written Region (fun _ => True) d.inum 0 0 (Buf.ofList d.bytes) (fun _ => True)
        m.vol m₁.vol := by
      rw [hvol₁]
      exact (Written.refl h.own).setSize _
    have hst₀ : Storing m.vol d.inum (Buf.ofList d.bytes) 0
        (Locals.init (fun _ _ => Buf.zero) d.inum) m₁ m₁.vol := .start hmark₁ hw₁ hempty₁
    obtain ⟨V, l, hst, hle, hsize⟩ := dirBlocks_ok hempty hst₀ rfl
      (show 0 + (d.bytes.length + 1024 - 1) / 1024 ≤ 12 by omega) (by rw [blocks]; omega)
      (fun _ => rfl) (fun i _ => by rw [Nat.zero_add]) hx
    rw [Nat.zero_add] at hst
    have hvol := hst.vol_eq hle
    have hw := hst.written
    rw [← hvol] at hw
    have hself : m.vol = m.vol.setIno d.inum (m.vol.ino d.inum) :=
      Vol.ext rfl rfl (update_eq_self _ _).symm
    have hlen : (m'.vol.ino d.inum).size = d.bytes.length := by
      rw [hvol, hsize, hvol₁, setSize_ino_self]
    have hs := stored_of_written hself rfl hzero hempty hw hlen (by
      simp only [maxSize]
      omega)
    have hfree := htree.1
    exact ⟨hs.sane h hempty hst.toMarked hw.own (by omega) (by omega), htree, hs⟩

/-- The directories that are left to write have inodes of their own, without
blocks. -/
structure Ready (ds : List MkfsDir) (m : State) : Prop where
  lt : ∀ {d : MkfsDir}, d ∈ ds → d.inum < m.freeinode
  size : ∀ {d : MkfsDir}, d ∈ ds → (m.vol.ino d.inum).size = 0
  empty : ∀ {d : MkfsDir}, d ∈ ds → ∀ σ : Slot, σ.Valid → m.vol.ptr d.inum σ = 0
  nodup : (ds.map (·.inum)).Nodup

/-- All directories are written, and no other inode changes. -/
theorem writeDirs_ok : ∀ {ds : List MkfsDir} {m : State}, Sane m → Ready ds m →
    writeDirs ds m = .ok u m' →
    Sane m' ∧ SameTree m m' ∧
      (∀ j : Nat, j ∉ ds.map (·.inum) → Kept j m.vol m'.vol) ∧
      ∀ d ∈ ds, Covered m'.vol d.inum ∧ m'.vol.content d.inum = d.bytes
  | [], m, h, hr, hx => by
      obtain ⟨-, rfl⟩ := pure_ok.mp hx
      exact ⟨h, refl_of SameTree m, fun j _ => .refl _ _, fun d hd => absurd hd List.not_mem_nil⟩
  | d :: ds, m, h, hr, hx => by
      obtain ⟨u₁, m₁, h₁, hx⟩ := bind_ok.mp hx
      have hd : d ∈ d :: ds := List.mem_cons_self
      obtain ⟨hs₁, ht₁, hst⟩ := writeDir_ok h (hr.lt hd) (hr.empty hd) (hr.size hd) h₁
      obtain ⟨hnot, hnodup⟩ := List.nodup_cons.mp hr.nodup
      have hkept : ∀ {e : MkfsDir}, e ∈ ds → Kept e.inum m.vol m₁.vol := by
        intro e he
        exact hst.kept fun heq => hnot (List.mem_map.mpr ⟨e, he, heq⟩)
      have hr₁ : Ready ds m₁ :=
        { lt := fun he => by
            have := ht₁.1
            have := hr.lt (List.mem_cons_of_mem d he)
            omega
          size := fun he => by
            rw [(hkept he).ino]
            exact hr.size (List.mem_cons_of_mem d he)
          empty := fun he σ hσ => by
            rw [(hkept he).ptr hσ]
            exact hr.empty (List.mem_cons_of_mem d he) σ hσ
          nodup := hnodup }
      obtain ⟨hs₂, ht₂, hk₂, hc₂⟩ := writeDirs_ok hs₁ hr₁ hx
      refine ⟨hs₂, trans_of SameTree ht₁ ht₂, fun j hj => ?_, fun e he => ?_⟩
      · rw [List.map_cons, List.mem_cons, not_or] at hj
        exact (hst.kept hj.1).trans (hk₂ j hj.2)
      · rcases List.mem_cons.mp he with rfl | he
        · have hk := hk₂ e.inum hnot
          obtain ⟨hcov, hcont⟩ := hst.covered.content_eq hk.ino hk.ptr hk.data
          exact ⟨hcov, hcont.trans hst.content⟩
        · exact hc₂ e he

/-- The blocks in front of the data blocks are written. -/
theorem Sane.writeBlock {b : Nat} {buf : Buf} (h : Sane m) (hb : b < 7)
    (hx : writeBlock b buf m = .ok u m') :
    Sane m' ∧ SameTree m m' ∧ (∀ j, Kept j m.vol m'.vol) ∧ m'.fileInodes = m.fileInodes ∧
      m'.freeBitmap = m.freeBitmap ∧ ∀ c, m'.disk c = if c = b then buf else m.disk c := by
  obtain ⟨hm', hdisk⟩ := writeBlock_disk hx
  have hdata : ∀ {j : Nat} {σ : Slot}, σ.Valid → m.vol.ptr j σ ≠ 0 →
      m'.disk (m.vol.ptr j σ) = m.disk (m.vol.ptr j σ) := by
    intro j σ hσ h0
    have := (h.own.region trivial hσ h0).1
    rw [hdisk, if_neg (by omega)]
  have hptr : ∀ {j : Nat} {σ : Slot}, σ.Valid → m'.vol.ptr j σ = m.vol.ptr j σ := by
    intro j σ hσ
    refine ptr_congr (by rw [hm']; rfl) (fun t ht h0 => hdata ht.valid h0) hσ
  have hfree : m'.freeinode = m.freeinode := by rw [hm']
  have hblock : m'.freeblock = m.freeblock := by rw [hm']
  have hbit : m'.freeBitmap = m.freeBitmap := by rw [hm']
  have hino : m'.vol.ino = m.vol.ino := by rw [hm']; rfl
  refine ⟨{ low := ?_, high := ?_, marks := ?_, own := ?_, blank := ?_, used := ?_ },
    ⟨hfree, by rw [hm']⟩, fun j => ⟨by rw [hino], hptr, fun hσ h0 => hdata hσ.valid h0⟩,
    by rw [hm'], hbit, hdisk⟩
  · rw [hblock]
    exact h.low
  · rw [hblock]
    exact h.high
  · intro c
    rw [hblock, hbit]
    exact h.marks c
  · exact h.own.congr (fun _ hσ => hptr hσ) (congrArg Buf.testBit hbit)
  · intro j hj
    rw [hino]
    exact h.blank (by omega)
  · intro c hlo hc
    rw [hblock] at hc
    obtain ⟨j, σ, hσ, he⟩ := h.used hlo hc
    exact ⟨j, σ, hσ, by rw [hptr hσ, he]⟩

theorem Orderly.ready (h : Orderly m) : Ready m.dirs m where
  lt := h.dir_lt
  size := h.dir_size
  empty := h.dir_empty
  nodup := h.nodup

/-- The end of `main` changes the inodes of the directories only.  It stores the
table of the first 32 inodes in blocks 2 to 5 and the free map in block 6. -/
theorem finish_ok (h : Orderly m) (hx : finish m = .ok u m') :
    Sane m' ∧ SameTree m m' ∧ (∀ j : Nat, j ∉ m.dirs.map (·.inum) → Kept j m.vol m'.vol) ∧
      m'.disk 6 = m'.freeBitmap ∧
      ∀ k < 4, m'.disk (2 + k) = inodeBlock m'.fileInodes (2 + k) := by
  replace hx := get_then hx
  obtain ⟨u₁, m₁, h₁, hx⟩ := bind_ok.mp hx
  obtain ⟨hs₁, ht₁, hk₁, -⟩ := writeDirs_ok h.toSane h.ready h₁
  replace hx := get_then hx
  obtain ⟨u₂, m₂, h₂, hx⟩ := bind_ok.mp hx
  obtain ⟨u₃, m₃, h₃, hx⟩ := bind_ok.mp hx
  obtain ⟨u₄, m₄, h₄, hx⟩ := bind_ok.mp hx
  obtain ⟨u₅, m₅, h₅, hx⟩ := bind_ok.mp hx
  replace hx := get_then hx
  obtain ⟨hs₂, ht₂, hk₂, hi₂, -, hd₂⟩ := hs₁.writeBlock (by omega) h₂
  obtain ⟨hs₃, ht₃, hk₃, hi₃, -, hd₃⟩ := hs₂.writeBlock (by omega) h₃
  obtain ⟨hs₄, ht₄, hk₄, hi₄, -, hd₄⟩ := hs₃.writeBlock (by omega) h₄
  obtain ⟨hs₅, ht₅, hk₅, hi₅, -, hd₅⟩ := hs₄.writeBlock (by omega) h₅
  obtain ⟨hs₆, ht₆, hk₆, hi₆, hbit, hd₆⟩ := hs₅.writeBlock (by omega) hx
  refine ⟨hs₆, ?_, fun j hj => ?_, by rw [hd₆, if_pos rfl, hbit], fun k hk => ?_⟩
  · exact trans_of SameTree ht₁ (trans_of SameTree ht₂ (trans_of SameTree ht₃
      (trans_of SameTree ht₄ (trans_of SameTree ht₅ ht₆))))
  · exact (((((hk₁ j hj).trans (hk₂ j)).trans (hk₃ j)).trans (hk₄ j)).trans (hk₅ j)).trans (hk₆ j)
  · rw [hd₆, hd₅, hd₄, hd₃, hd₂, hi₆, hi₅, hi₄, hi₃, hi₂]
    have hk : k = 0 ∨ k = 1 ∨ k = 2 ∨ k = 3 := by omega
    rcases hk with rfl | rfl | rfl | rfl <;> rfl

/-- Inode `n` in the block that holds it. -/
theorem inodeBlock_entry {f : Nat → Dinode} {i : Nat} (h1 : 1 ≤ n) (h32 : n < 32)
    (hi : i < dinodeSize) : inodeBlock f (2 + n / inodesPerBlock) (ioffset n + i) = f n i := by
  have hinum :
      (2 + n / inodesPerBlock - 2) * inodesPerBlock + (ioffset n + i) / dinodeSize = n := by
    simp only [ioffset, inodesPerBlock, BSIZE, dinodeSize] at *
    omega
  have hoff : (ioffset n + i) % dinodeSize = i := by
    simp only [ioffset, dinodeSize] at *
    omega
  unfold inodeBlock
  dsimp only
  rw [hinum, hoff, if_pos ⟨h1, h32.trans (by decide)⟩]

end Write

/-! ## The kernel reads the image -/

section Agree

variable {m₀ : State}

/-- After its initialisation `main` is in order. -/
theorem start_orderly : Orderly (start junk) := by
  have hino : ∀ {j : Nat}, j ≠ 1 → (start junk).vol.ino j = DView.blank := by
    intro j hj
    show Dinode.view (update (fun _ => Buf.zero) 1 _ j) = _
    rw [update_of_ne hj]
    exact Dinode.view_zero
  have hroot : (start junk).vol.ino 1 = { DView.blank with type := FT_DIRECTORY, nlink := 1 } := by
    show Dinode.view (update (fun _ => Buf.zero) 1 _ 1) = _
    rw [update_self, Dinode.view_setSize _ (by omega), Dinode.view_setNlink _ (by omega),
      Dinode.view_setType _ (by decide), Dinode.view_zero]
    rfl
  have hptr : ∀ {j : Nat} {σ : Slot}, (start junk).vol.ptr j σ = 0 := by
    intro j σ
    induction σ with
    | top i =>
        rw [ptr_top]
        by_cases hj : j = 1
        · rw [hj, hroot]
          rfl
        · rw [hino hj]
          rfl
    | ent t i ih => exact ptr_ent_of_eq ih
  refine
    { low := le_rfl, high := (by decide : 7 ≤ 8192), marks := ?_, own := ⟨?_, ?_, ?_⟩,
      blank := ?_, used := ?_,
      dir_lt := ?_, dir_type := ?_, dir_size := ?_, dir_empty := ?_,
      nodup := List.nodup_singleton _ }
  · intro b
    show ((((((((Buf.zero.setBit 0).setBit 1).setBit 2).setBit 3).setBit 4).setBit 5).setBit
      6).testBit b) = decide (b < 7)
    have hz : Buf.zero.testBit b = false := BitVec.getLsbD_zero
    simp only [Buf.testBit_setBit, hz, Bool.false_or, ← Bool.decide_or]
    exact decide_eq_decide.mpr (by omega)
  · intro i j σ τ _ _ _ _ h0
    exact absurd hptr h0
  · intro j σ _ _ h0
    exact absurd hptr h0
  · intro j σ _ _ h0
    exact absurd hptr h0
  · intro j hj
    have hj : 2 ≤ j := hj
    exact hino (by omega)
  · intro b hlo hb
    have hb : b < 7 := hb
    omega
  all_goals
    intro d hd
    obtain rfl := List.mem_singleton.mp hd
  · exact Nat.lt_succ_self 1
  · rw [hroot]
  · rw [hroot]
    rfl
  · intro σ _
    exact hptr

/-- The kernel reads the file stored as inode `n` back from the image; the
blocks of the file are its own, and they are marked. -/
structure Agrees (n : Nat) (content : List Byte) (m : State) : Prop where
  size : (m.fileInodes n).size = content.length
  read : ∀ (s : KState) (dev : Nat) (ip : Fin NINODE), dev < 2 →
    DISK_SIZE_BLOCKS ≤ (s.disk dev).capacity → (∀ b < DISK_SIZE_BLOCKS, s.blk dev b = m.disk b) →
    (s.inodeTable ip).dev = dev → 1 ≤ (s.inodeTable ip).ref → (s.inodeTable ip).valid = true →
    (s.inodeTable ip).dinode = m.fileInodes n →
    readi ip 0 (m.fileInodes n).size s = .ok (content.length, content) s
  apart : ∀ (j : Nat) (σ τ : Slot), σ.Valid → τ.Valid → m.vol.ptr n σ ≠ 0 →
    m.vol.ptr n σ = m.vol.ptr j τ → j = n ∧ σ = τ
  marked : ∀ b : Nat, Uses m.vol n b → m.freeBitmap.testBit b = true

section Read

variable {s : KState} {dev : Nat} {ip : Fin NINODE}

/-- A cached inode with the fields of inode `n` reads as the file. -/
theorem Sane.readi (h : Sane m) (hf : IsFile n content m.vol) (hdev : dev < 2)
    (hcap : DISK_SIZE_BLOCKS ≤ (s.disk dev).capacity)
    (hblk : ∀ b < DISK_SIZE_BLOCKS, s.blk dev b = m.disk b) (hd : (s.inodeTable ip).dev = dev)
    (href : 1 ≤ (s.inodeTable ip).ref) (hvalid : (s.inodeTable ip).valid = true)
    (hview : (s.inodeTable ip).dinode.view = m.vol.ino n) :
    readi ip 0 content.length s = .ok (content.length, content) s := by
  have hl : Loads m.vol dev n ip s := by
    refine ⟨hd, hview, fun {σ} hσ h0 => ?_⟩
    have hR := (h.own.region trivial hσ h0).2
    have hmod : m.vol.ptr n σ % 2 ^ 31 = m.vol.ptr n σ := Nat.mod_eq_of_lt (by omega)
    unfold readBlock
    rw [hmod, if_pos ⟨hdev, hR.trans_le hcap⟩, hblk _ hR]
    rfl
  have hr := hl.readi hf.covered href hvalid (by rw [hf.type]; decide)
  rwa [hf.content, ← length_content, hf.content] at hr

/-- Device `dev` is the image, with the inode table where `main` puts it, and slot
`ip` is for inode `n`, which is not read yet. -/
structure Unread (n : Nat) (m : State) (dev : Nat) (ip : Fin NINODE) (s : KState) : Prop
    extends Holds dev n ip s where
  dev_lt : dev < 2
  capacity : DISK_SIZE_BLOCKS ≤ (s.disk dev).capacity
  blk : ∀ b < DISK_SIZE_BLOCKS, s.blk dev b = m.disk b
  start : (s.sb dev).inodestart = 2
  unread : (s.inodeTable ip).valid = false

/-- Inode `n` is read through the table of the image, and gives the file back. -/
theorem Unread.readi (h : Unread n m dev ip s) (hm : Sane m) (hf : IsFile n content m.vol)
    (htab : ∀ k < 4, m.disk (2 + k) = inodeBlock m.fileInodes (2 + k)) (h1 : 1 ≤ n) (h32 : n < 32) :
    readi ip 0 content.length s = .ok (content.length, content) (s.putInode ip (s.fetched ip)) := by
  have hk : n / inodesPerBlock < 4 := by
    simp only [inodesPerBlock, BSIZE, dinodeSize]
    omega
  have hblock : iblock (s.sb dev) n % 2 ^ 31 = 2 + n / inodesPerBlock := by
    unfold iblock
    rw [h.start, Nat.mod_eq_of_lt (by omega)]
  have hlt : 2 + n / inodesPerBlock < DISK_SIZE_BLOCKS := by
    unfold DISK_SIZE_BLOCKS
    omega
  obtain ⟨u, t, hl⟩ :=
    (h.ilock_returns h.dev_lt (by rw [hblock]; exact hlt.trans_le h.capacity)).exists_ok
  obtain ⟨-, ⟨hv, -⟩ | rfl⟩ := ilock_ok hl
  · rw [h.unread] at hv
    cases hv
  -- In the state with the inode read `ilock` does nothing, so `readi` goes on as from there.
  have hr : Dmaos.readi ip 0 content.length (s.putInode ip (s.fetched ip)) =
      .ok (content.length, content) (s.putInode ip (s.fetched ip)) := by
    refine hm.readi hf h.dev_lt h.capacity h.blk ?_ ?_ ?_ ?_
    all_goals rw [KState.putInode_self]
    · exact h.dev_eq
    · exact h.ref
    · rfl
    · refine Dinode.view_congr fun i hi => ?_
      show s.blk _ (iblock (s.sb (s.inodeTable ip).dev) _ % 2 ^ 31) _ = m.fileInodes n i
      rw [h.dev_eq, h.inum_eq, hblock, h.blk _ hlt, htab _ hk, inodeBlock_entry h1 h32 hi]
  obtain ⟨hpos, hvalid⟩ := ilock_valid hl
  unfold Dmaos.readi at hr ⊢
  rw [run_bind (ilock_of_valid hpos hvalid)] at hr
  rw [run_bind hl, hr]

end Read

theorem Sane.agrees (h : Sane m) (hf : IsFile n content m.vol) : Agrees n content m := by
  have hsize : (m.fileInodes n).size = content.length := by
    rw [← hf.content, length_content]
    rfl
  refine ⟨hsize, ?_, ?_, ?_⟩
  · intro s dev ip hdev hcap hblk hd href hvalid hdin
    rw [hsize]
    exact h.readi hf hdev hcap hblk hd href hvalid (by rw [hdin]; rfl)
  · intro j σ τ hσ hτ h0 he
    obtain ⟨h₁, h₂⟩ := h.own.inj trivial trivial hσ hτ h0 he
    exact ⟨h₁.symm, h₂⟩
  · rintro b ⟨h0, σ, hσ, rfl⟩
    exact h.own.marked trivial hσ h0

/-- A file is on the image as it was given, whatever is added before and after
it.  Storing it marks its blocks and no others, and in the end the marked
blocks are those in front of the data blocks and those in use. -/
theorem addFile_agrees (h₀ : Builds junk (start junk) m₀)
    (h₁ : addFile junk path (some content) m₀ = .ok r m₁) (h₂ : Builds junk m₁ m₂) :
    (∀ b, m₁.freeBitmap.testBit b = true ↔ m₀.freeBitmap.testBit b = true ∨ Uses m₁.vol r b) ∧
      (∀ b, Uses m₁.vol r b → m₀.freeBitmap.testBit b = false) ∧
      (∀ b, Uses m₂.vol r b ↔ Uses m₁.vol r b) ∧ Agrees r content m₂ ∧
      ∀ m₃, finish m₂ = .ok () m₃ → Agrees r content m₃ ∧ (∀ b, Uses m₃.vol r b ↔ Uses m₁.vol r b) ∧
        ∀ b, (m₃.disk 6).testBit b = true ↔ b < 7 ∨ ∃ j, Uses m₃.vol j b := by
  obtain ⟨ho₀, -, -⟩ := h₀.keeps start_orderly
  obtain ⟨ho₁, ha⟩ := addFile_ok ho₀ h₁
  obtain ⟨ho₂, -, hk₂⟩ := h₂.keeps ho₁
  have hk := hk₂ ha.hi
  have huses : ∀ {V V' : Vol}, Kept r V V' → ∀ b, Uses V' r b ↔ Uses V r b := by
    intro V V' hkept b
    refine and_congr Iff.rfl (exists_congr fun σ => and_congr_right fun hσ => ?_)
    rw [hkept.ptr hσ]
  have hf₂ := ha.file.of_kept hk
  refine ⟨ha.bits, fun b hb => ha.free hb, huses hk, ho₂.toSane.agrees hf₂, fun m₃ h₃ => ?_⟩
  obtain ⟨hs₃, -, hk₃, hmap, -⟩ := finish_ok ho₂ h₃
  have hdir : r ∉ m₂.dirs.map (·.inum) := by
    intro hc
    obtain ⟨d, hd, rfl⟩ := List.mem_map.mp hc
    have := ho₂.dir_type hd
    rw [hf₂.type] at this
    exact absurd this (by decide)
  refine ⟨hs₃.agrees (hf₂.of_kept (hk₃ r hdir)),
    fun b => (huses (hk₃ r hdir) b).trans (huses hk b), fun b => ?_⟩
  rw [hmap, hs₃.marks, decide_eq_true_eq]
  constructor
  · intro hb
    by_cases hlo : b < 7
    · exact Or.inl hlo
    · obtain ⟨j, σ, hσ, he⟩ := hs₃.used (by omega) hb
      exact Or.inr ⟨j, by omega, σ, hσ, he⟩
  · rintro (hb | ⟨j, h0, σ, hσ, rfl⟩)
    · have := hs₃.low
      omega
    · have := hs₃.own.marked trivial hσ h0
      have : m₃.freeBitmap.testBit (m₃.vol.ptr j σ) = true := this
      rwa [hs₃.marks, decide_eq_true_eq] at this

/-- A file of thirteen blocks, one of them behind the table of the single indirect blocks, between
two small files. -/
theorem addFile_agrees_small : ∃ (m₀ m₁ m₂ m₃ : State) (p q r : Nat),
    addFile (fun _ _ => Buf.zero) [0x61] (some [1, 2, 3]) (start fun _ _ => Buf.zero) =
        .ok p m₀ ∧
      addFile (fun _ _ => Buf.zero) [0x62] (some (List.replicate 12289 7)) m₀ = .ok r m₁ ∧
      addFile (fun _ _ => Buf.zero) [0x63] (some [4]) m₁ = .ok q m₂ ∧ finish m₂ = .ok () m₃ ∧
      Agrees r (List.replicate 12289 7) m₂ ∧ Agrees r (List.replicate 12289 7) m₃ := by
  obtain ⟨u, m₃, h⟩ := exists_ok (r := (do
    let _ ← addFile (fun _ _ => Buf.zero) [0x61] (some [1, 2, 3])
    let _ ← addFile (fun _ _ => Buf.zero) [0x62] (some (List.replicate 12289 7))
    let _ ← addFile (fun _ _ => Buf.zero) [0x63] (some [4])
    finish) (start fun _ _ => Buf.zero)) (by decide +kernel)
  obtain ⟨p, m₀, h₀, h⟩ := bind_ok.mp h
  obtain ⟨r, m₁, h₁, h⟩ := bind_ok.mp h
  obtain ⟨q, m₂, h₂, h⟩ := bind_ok.mp h
  obtain ⟨-, -, -, ha, hf⟩ := addFile_agrees (Builds.refl.addFile h₀) h₁ (Builds.refl.addFile h₂)
  exact ⟨m₀, m₁, m₂, m₃, p, q, r, h₀, h₁, h₂, h, ha, (hf m₃ h).1⟩

end Agree

end Dmaos.Mkfs
