import Dmaos.System.Resolve
import Dmaos.System.Coherence

/-!
# The mount

`fs_init` mounts device 1 on the directory `/home` of device 0, and the mount
table stays as it is.  So if the images hold trees, the booted kernel is
`Mounted`, and it remains so as long as device 1 holds a tree.
-/

namespace Dmaos

open Fault

variable {L : Layout} {τ : Dirs} {s : KState} {home : Nat} {d0 d1 : Device} {ip : Fin NINODE}
  {u : Unit}

/-! ## Images that hold a tree -/

/-- The image holds the tree `τ`. -/
structure Device.Carries (L : Layout) (τ : Dirs) (d : Device) : Prop where
  fits : L.Fits d.super
  own : Own L.IsData τ.mem (d.vol L)
  reserved : Reserved L.IsData d.super.nblocks (d.vol L)
  tree : Encodes L (d.vol L) τ
  inode : ∀ {n : Nat}, n < L.ninodes → iblock d.super n < d.capacity
  data : ∀ {b : Nat}, L.IsData b → b < d.capacity

theorem Device.Carries.shows_of_vol {d : Device} {dev : Nat}
    (h : d.Carries L τ) (hdev : dev < 2) (hvol : s.vol L dev = d.vol L)
    (hcap : (s.disk dev).capacity = d.capacity) (hsb : s.sb dev = d.super)
    (hc : Cached L dev s) : Shows L τ dev s where
  toCached := hc
  own := by rw [hvol]; exact h.own
  reserved := by rw [hvol, hsb]; exact h.reserved
  dev_lt := hdev
  inode := by rw [hcap, hsb]; exact h.inode
  data := by rw [hcap]; exact h.data
  tree := by rw [hvol]; exact h.tree

theorem Device.Carries.shows {d : Device} {dev : Nat}
    (h : d.Carries L τ) (hdev : dev < 2) (hdisk : s.disk dev = d) (hsb : s.sb dev = d.super)
    (hc : Cached L dev s) : Shows L τ dev s := by
  refine h.shows_of_vol hdev ?_ (by rw [hdisk]) hsb hc
  unfold KState.vol KState.blk
  rw [hdisk, hsb]
  rfl

/-! ## `fs_init` -/

section Init

variable {s' : KState}

/-- Before anything is mounted, `/home` is looked up in the root directory of
device 0. -/
theorem namei_home_ok (hmounts : s.mounts = []) (hx : namei homePath s = .ok (some ip) s') :
    ∃ root t₁ t₂ t₃ off, iget 0 1 s = .ok root t₁ ∧ ilock root t₁ = .ok () t₂ ∧
      (t₂.inodeTable root).dinode.type = FT_DIRECTORY ∧
      dirlookup root homeName t₂ = .ok (some (ip, off)) t₃ ∧ iput root t₃ = .ok () s' := by
  obtain ⟨⟨o, y⟩, t, hnx, hret⟩ := bind_ok.mp hx
  obtain ⟨rfl, rfl⟩ := pure_ok.mp hret
  clear hx
  obtain ⟨root, t₁, hstart, hx⟩ := bind_ok.mp hnx
  have higet : iget 0 1 s = .ok root t₁ := hstart
  -- The only turn of the loop.
  have hskip : skipto homePath = some (homeName, []) := by decide
  unfold namexLoop at hx
  simp only [hskip, Bool.false_eq_true, false_and, if_false] at hx
  obtain ⟨u, t₂, hl, hx⟩ := bind_ok.mp hx
  replace hx := inodeAt_then hx
  split_ifs at hx with hdir
  · obtain ⟨u, t₃, -, hx⟩ := bind_ok.mp hx
    obtain ⟨hne, -⟩ := pure_ok.mp hx
    cases hne
  · obtain ⟨o, t₃, hnext, hx⟩ := bind_ok.mp hx
    have hmounts₃ : t₃.mounts = [] := by
      rw [(Still.of_ok .namexNext hnext).mounts, (Calm.ilock.of_ok hl).mounts,
        (Idle.iget.of_ok higet).mounts, hmounts]
    obtain ⟨o', t₃', hlook, hret⟩ := bind_ok.mp ((run_bind (f := _) (rfl :
      mountParent root homeName t₂ = .ok none t₂)).symm.trans hnext)
    obtain ⟨rfl, rfl⟩ := pure_ok.mp hret
    cases o' with
    | none =>
        obtain ⟨u, t₄, -, hx⟩ := bind_ok.mp hx
        obtain ⟨hne, -⟩ := pure_ok.mp hx
        cases hne
    | some next =>
        obtain ⟨next', t₄, hmc, hx⟩ := bind_ok.mp hx
        unfold mountChild at hmc
        replace hmc := inodeAt_then hmc
        replace hmc := get_then hmc
        rw [hmounts₃] at hmc
        obtain ⟨rfl, rfl⟩ := pure_ok.mp hmc
        obtain ⟨u, t₅, hput, hx⟩ := bind_ok.mp hx
        obtain ⟨hip, rfl⟩ := pure_ok.mp hx
        cases hip
        exact ⟨root, t₁, t₂, _, next.2, higet, hl, not_not.mp hdir, hlook, hput⟩

/-- It is the inode the tree of device 0 has there. -/
theorem namei_home (h : Shows L τ 0 s) (hm : IsHome τ home)
    (hmounts : s.mounts = []) (hcov : Covers [] s) (hx : namei homePath s = .ok (some ip) s') :
    Holds 0 home ip s' := by
  obtain ⟨root, t₁, t₂, t₃, off, higet, hl, hdir, hlook, hput⟩ := namei_home_ok hmounts hx
  have h₁ := h.iget higet
  have hroot : Holds 0 1 root t₁ := iget_holds higet
  have hmem : τ.mem 1 := h.tree.root_eq ▸ τ.root_mem
  obtain ⟨hc, hv, htype⟩ := (h₁.ilock hroot hmem).ok hl
  have hd : τ.isDir 1 = true := htype.mp hdir
  have hcov₂ : Covers [root] t₂ := ((Nets.iget.ok hcov higet).covers hcov).of_calm hc
  have hcov₃ : Covers [root, ip] t₃ := by
    have htr := (Nets.dirlookup.ok hcov₂.nil hlook).frame [root]
    exact (htr.covers hcov₂).perm (.swap _ _ [])
  obtain ⟨t, -, hf⟩ := ((h₁.of_calm hc).dirlookup (hroot.of_calm hc) hv hmem hd
    (show IsName homeName by decide)).ok hlook
  have hstep : τ.step 1 (toStep homeName) = some home := by
    unfold NamedTree.step
    rw [if_pos hd]
    show τ.child 1 homeName = _
    rw [← h.tree.root_eq]
    exact hm.child
  rw [hstep] at hf
  replace hf : iget 0 home t = .ok ip t₃ := hf
  exact (Nets.iput.ok (Covers.left (p := [root]) hcov₃) hput).holds hcov₃ (iget_holds hf)

/-- `fs_init` mounts device 1 on what `/home` leads to. -/
theorem fsInit_ok (hx : fsInit (coldState d0 d1) = .ok u s) :
    ∃ ip t, namei homePath (loadedState d0 d1) = .ok (some ip) t ∧
      s.mounts = [⟨(t.inodeTable ip).dev, (t.inodeTable ip).inum, 1⟩] := by
  obtain ⟨u, t, h0, hx⟩ := bind_ok.mp hx
  obtain rfl := readSuperblock_ok h0
  obtain ⟨u, t, h1, hx⟩ := bind_ok.mp hx
  obtain rfl := readSuperblock_ok h1
  obtain ⟨o, t, hn, hx⟩ := bind_ok.mp hx
  cases o with
  | none => cases hx
  | some ip =>
      replace hx := inodeAt_then hx
      replace hx := modify_then hx
      exact ⟨ip, t, hn, (Idle.iput.of_ok hx).mounts⟩

/-- If device 0 holds a tree, that is the directory `/home` of it. -/
theorem fsInit_mounts (h : Shows L τ 0 (loadedState d0 d1)) (hm : IsHome τ home)
    (hx : fsInit (coldState d0 d1) = .ok u s) : s.mounts = [⟨0, home, 1⟩] := by
  obtain ⟨ip, t, hn, hmounts⟩ := fsInit_ok hx
  have hhome := namei_home h hm rfl (fun i => le_refl 0) hn
  rw [hmounts, hhome.dev_eq, hhome.inum_eq]

/-- The mount table is `M`, and no file on device 0 is open for writing. -/
def fixedMounts (M : List Mount) : Policy where
  Inv s := Writable s ∧ s.mounts = M
  Rel := SameSystem
  unwritten := @Policy.unwritten coherent
  putFile f _ h hip := ⟨readOnly.putFile f h.1 hip, h.2⟩
  putIp f _ h hip hv hdev := ⟨readOnly.putIp f h.1 hip hv hdev, h.2⟩
  putProc p Q h := ⟨readOnly.putProc p Q h.1, h.2⟩
  setCurrent c h := ⟨readOnly.setCurrent c h.1, h.2⟩
  calm h hc := ⟨readOnly.calm h.1 hc, hc.mounts.trans h.2⟩
  iput h hx := ⟨readOnly.iput h.1 hx, (Idle.iput.of_ok hx).mounts.trans h.2⟩
  iget hr h hk hx := ⟨readOnly.iget hr h.1 hk hx, (Idle.iget.of_ok hx).mounts.trans h.2⟩
  namex hr h hx := ⟨readOnly.namex hr h.1 hx, (Still.of_ok .namex hx).mounts.trans h.2⟩

instance (M : List Mount) : Shield (fixedMounts M) where
  writable h := h.1
  rel hd h := ⟨h.disk 0 hd.symm, h.sb⟩
  inv hd h ho hs := ⟨Shield.inv (P := readOnly) hd h.1 ho hs, ho.mounts.trans h.2⟩

end Init

/-! ## Runs -/

section Runs

variable {L₀ L₁ : Layout} {τ₀ τ₁ : Dirs} {P : Fin PROCS_MAX → Syscall → KState → Prop}

theorem Device.Carries.loaded (h : d0.Carries L₀ τ₀) : Shows L₀ τ₀ 0 (loadedState d0 d1) :=
  h.shows (by decide) rfl rfl ⟨h.fits, fun hi => (by cases hi), fun hi => (by cases hi)⟩

/-- Device 1 stays mounted on `/home`. -/
theorem Reached.mounts (h0 : d0.Carries L₀ τ₀) (hm : IsHome τ₀ home) (h : Reached P d0 d1 s) :
    s.mounts = [⟨0, home, 1⟩] := by
  have hg : Guard (fixedMounts [⟨0, home, 1⟩]) [] s := by
    induction h with
    | boot run =>
        obtain ⟨v, t, hi, -⟩ := bind_ok.mp run
        have hcold : readOnly.Inv (loadedState d0 d1) := fun f ip hf => by cases hf
        have hro := (fsInit_guard (P := readOnly) hcold (fun h _ => h) hi).1
        exact (boot_after_fsInit (P := fixedMounts _) hi run
          ⟨hro.refs, hro.inv, fsInit_mounts h0.loaded hm hi⟩).1
    | step before cond run ih => exact ((Serves.step .anySyscall _ ih).of_ok run).2
  exact hg.inv.2

/-- Device 0 keeps its tree.  While device 1 holds a tree, the two are mounted. -/
theorem Reached.mounted (h0 : d0.Carries L₀ τ₀) (hm : IsHome τ₀ home)
    (hs : Shows L₁ τ₁ 1 s) (h : Reached P d0 d1 s) : Mounted L₀ L₁ τ₀ τ₁ home s := by
  obtain ⟨hstale, hdisk, hsb⟩ := h.system
  have hfits : L₀.Fits (s.sb 0) := by
    rw [hsb]
    exact h0.fits
  refine ⟨h0.shows (by decide) hdisk hsb ⟨hfits, hs.uniq, ?_⟩, hs, h.mounts h0 hm⟩
  intro i hr hv hd hlt
  rw [hstale i hr hv hd]
  exact hfits.fetched_view hd hlt

end Runs

end Dmaos
