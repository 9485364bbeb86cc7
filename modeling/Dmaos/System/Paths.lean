import Dmaos.System.Trees

/-!
# Path resolution

The main result about `namei` and `namex` (`namei_walks`): in every state in
which the devices hold trees, a path leads to the node that the walk of its
components through the logical tree reaches.
-/

namespace Dmaos

open Fault

section Paths

variable {L₀ L₁ : Layout} {τ₀ τ₁ : Dirs} {home : Nat} {a : Node} {s : KState} {d0 d1 : Device}

/-- The booted kernel is mounted, if the images hold trees. -/
theorem boot_mounted {u : Unit} (h0 : d0.Carries L₀ τ₀) (hm : IsHome τ₀ home)
    (h1 : d1.Carries L₁ τ₁) (hc : d1.Consistent L₁) (hx : boot (coldState d0 d1) = .ok u s) :
    Mounted L₀ L₁ τ₀ τ₁ home s := by
  have hr : Reached (fun _ _ _ => True) d0 d1 s := .boot hx
  obtain ⟨hg, hdisk, hsb⟩ := boot_guard (P := diskPolicy L₁ (InUse (d1.vol L₁))) (.loadedState hc)
    Disk.mount hx
  exact hr.mounted h0 hm (h1.shows (by decide) (by rw [hdisk]; rfl) (by rw [hsb]; rfl)
    hg.inv.toCached)

/-- Path resolution.  `namei` returns the node that the walk of the components
through the logical tree reaches, and `NULL` if the walk fails.  `namex` for the
parent directory returns the directory reached by all components but the last,
with the last component, and `NULL` if there is none.  One reference is taken, to
the inode returned.  The kernel stops only in `iget`, when every slot of the
inode cache is in use. -/
theorem namei_walks (path : CString) (h : Mounted L₀ L₁ τ₀ τ₁ home s) (hm : IsHome τ₀ home)
    (hcov : Covers [] s) (hcwd : s.CwdAt a) (ha : (logical τ₁ hm).mem a)
    (hlen : ∀ x ∈ components path.1, x.length ≤ 29) :
    Ends (fun o t =>
        Lands ((logical τ₁ hm).walk (startNode path.1 a) ((components path.1).map toStep)) o t ∧
        Trades [] o.toList s t)
      NoSlot (namei path.1) s ∧
    Ends (fun r t =>
        Lands (if components path.1 = [] then none
          else ((logical τ₁ hm).walk (startNode path.1 a)
            ((components path.1).dropLast.map toStep)).filter ((logical τ₁ hm).isDir ·)) r.1 t ∧
        (r.1 ≠ none → some r.2 = (components path.1).getLast?) ∧
        Trades [] r.1.toList s t)
      NoSlot (namex path.1 true) s := by
  have hnames : ∀ x ∈ pathNames path.1, IsName x := fun x hx => isName_of_mem_pathNames hx path.2
  rw [← pathNames_of_short hlen]
  constructor
  · refine .bind ((h.namex hm hcov (fun _ => ⟨hcwd, ha⟩) hnames).also (Nets.namex.ok hcov)) ?_
    rintro ⟨o, y⟩ t - ⟨⟨-, hres⟩, htr⟩
    exact .pure ⟨hres.lands, htr⟩
  · refine ((h.namex hm hcov (fun _ => ⟨hcwd, ha⟩) hnames).also (Nets.namex.ok hcov)).mono ?_
    rintro r t ⟨⟨-, hres⟩, htr⟩
    exact ⟨hres.lands, hres.last rfl, htr⟩

end Paths

/-! ## Sample images -/

theorem systemDisk_isTree : IsTree
    [[(1, dot), (1, dotdot), (2, homeName)], [(2, dot), (1, dotdot)]] (fun _ => 1) := by
  decide

/-- The tree on the system disk: the root and `/home`. -/
def systemTree : Dirs := formattedTree systemDisk_isTree

theorem systemDisk_carries : systemDisk.Carries formattedLayout systemTree :=
  formatted_carries systemDisk_isTree (by decide) (by decide) (by decide +kernel)

theorem systemTree_isHome : IsHome systemTree 2 := ⟨by decide, by decide⟩

/-- A device with a directory `a`. -/
def nestedDisk : Device :=
  formatted [[(1, dot), (1, dotdot), (2, [0x61])], [(2, dot), (1, dotdot)]]

theorem nestedDisk_isTree : IsTree
    [[(1, dot), (1, dotdot), (2, [0x61])], [(2, dot), (1, dotdot)]] (fun _ => 1) := by
  decide

def nestedTree : Dirs := formattedTree nestedDisk_isTree

theorem nestedDisk_carries : nestedDisk.Carries formattedLayout nestedTree :=
  formatted_carries nestedDisk_isTree (by decide) (by decide) (by decide +kernel)

theorem nestedDisk_consistent : nestedDisk.Consistent formattedLayout :=
  .of_fsInv formatted_fits (formatted_fsInv (by decide) (by decide)) formatted_reserved
    (formatted_closed (by decide) (by decide) (by decide) (by decide +kernel))

/-- Is the working directory of the current process the root? -/
def KState.atRoot (s : KState) : Bool :=
  (s.current.bind fun p => (s.procs p).cwd).all fun c =>
    (s.inodeTable c).dev == 0 && (s.inodeTable c).inum == 1

theorem KState.CwdAt.of_atRoot {s : KState} (h : s.atRoot = true) : s.CwdAt (.inl 1) := by
  unfold KState.atRoot at h
  unfold KState.CwdAt
  split
  · next c hc =>
      rw [hc] at h
      simpa [Node.dev, Node.inum] using h
  · rfl

/-- The path `"/home//../home/a/.."`. -/
def windingPath : CString :=
  ⟨homePath ++ [0x2f, 0x2f, 0x2e, 0x2e] ++ homePath ++ [0x2f, 0x61, 0x2f, 0x2e, 0x2e], by decide⟩

/-- After boot the path leads to the root of device 1. -/
theorem namei_walks_home :
    ∃ s, Mounted formattedLayout formattedLayout systemTree nestedTree 2 s ∧
      Ends (fun o t => Lands (some (.inr 1)) o t ∧ Trades [] o.toList s t) NoSlot
        (namei windingPath.1) s := by
  have hwalk : (logical nestedTree systemTree_isHome).walk (startNode windingPath.1 (.inl 1))
      ((components windingPath.1).map toStep) = some (.inr 1) := rfl
  have hrun : yields boot (fun _ s => s.atRoot) (coldState systemDisk nestedDisk) = true := by
    decide +kernel
  obtain ⟨u, s, hboot, hroot⟩ := exists_ok_of_yields hrun
  have hmounted := boot_mounted systemDisk_carries systemTree_isHome nestedDisk_carries
    nestedDisk_consistent hboot
  have hr : Reached (fun _ _ _ => True) systemDisk nestedDisk s := .boot hboot
  have hends := (namei_walks windingPath hmounted systemTree_isHome
    hr.guard.refs.covers (.of_atRoot hroot) (hmounted.root_mem systemTree_isHome)
    (by decide)).1
  rw [hwalk] at hends
  exact ⟨s, hmounted, hends⟩

/-! ## A full cache -/

/-- The name of one letter. -/
def letter (i : Nat) : List Byte := [BitVec.ofNat 8 (0x61 + i)]

/-- The root directory has `home` and seven other directories, each of which has six. -/
def wideDirs : List Listing :=
  ([(1, dot), (1, dotdot), (2, homeName)] ++ (List.range 7).map fun i => (3 + i, letter i)) ::
    [(2, dot), (1, dotdot)] ::
    (List.range 7).map (fun i => [(3 + i, dot), (1, dotdot)] ++
      (List.range 6).map fun j => (10 + 6 * i + j, letter j)) ++
    (List.range 42).map fun i => [(10 + i, dot), (3 + i / 6, dotdot)]

theorem wideDirs_isTree : IsTree wideDirs fun n => if n < 10 then 1 else 3 + (n - 10) / 6 := by
  decide +kernel

def wideTree : Dirs := formattedTree wideDirs_isTree

theorem wideDirs_carries : (formattedOn 6 wideDirs).Carries (layoutOf 6) wideTree :=
  formatted_carries wideDirs_isTree (by decide +kernel) (by decide +kernel) (by decide +kernel)

theorem wideTree_isHome : IsHome wideTree 2 := ⟨by decide +kernel, by decide +kernel⟩

/-- The path of the directories with the given letters. -/
def letterPath (l : List (Fin 7)) : CString :=
  ⟨l.flatMap fun i => slash :: letter i, by
    have hletter : ∀ i : Fin 7, 0 ∉ slash :: letter i := by decide
    simpa using fun i _ => hletter i⟩

/-- Process `p` starts three programs, and the four open the 49 directories. -/
def crowd (p : Fin PROCS_MAX) : List (Fin PROCS_MAX × Syscall) :=
  List.replicate 3 (p, .spawn ⟨[slash], by decide⟩) ++
    ((List.finRange 7).flatMap fun i =>
        [i] :: (List.finRange 6).map fun j => [i, j.castSucc]).mapIdx
      fun n l => ((List.finRange PROCS_MAX).getD (p + n / 13) p,
        .open (letterPath l) FILECTRL_READONLY)

/-- The call starts a program or opens what there is. -/
def Syscall.browses : Syscall → Bool
  | .open _ flags => !hasFlag flags FILECTRL_CREATE
  | .spawn _ => true
  | _ => false

/-- Such calls leave a device without files as it is. -/
theorem Reached.vol_of_browses {L : Layout} {d0 d1 : Device} {s : KState} (himg : d1.Consistent L)
    (hdirs : ∀ n, ((d1.vol L).ino n).type ≠ FT_FILE)
    (h : Reached (fun _ c _ => c.browses = true) d0 d1 s) :
    s.sb 1 = d1.super ∧ s.vol L 1 = d1.vol L ∧ Cached L 1 s := by
  have hno {c : Syscall} (hc : c.browses = true) : ¬ c.MayCreate := by
    cases c <;> simp_all [Syscall.browses, Syscall.MayCreate]
  have hnot {p c s n} (hc : c.browses = true) (hn : Syscall.writeTarget c s p = some (1, n)) :
      ¬ (s.vol L 1).IsDir n := by
    cases c <;> simp_all [Syscall.browses, Syscall.writeTarget]
  refine (h.invariant (J := fun _ V => V = d1.vol L) himg
    (fun hc _ => ⟨fun hm => absurd hm (hno hc), fun n => hnot hc⟩) rfl ?_).imp_right
    fun ⟨S, hd, hvol⟩ => ⟨hvol, hd.toCached⟩
  intro p c s a S S' V' _ hJ hc hdo he
  cases he with
  | none => exact hJ
  | write =>
      obtain ⟨fd, buf, len, rfl, -⟩ := hdo
      cases hc
  | cut =>
      obtain ⟨-, hfile⟩ | ⟨fd, len, rfl, -⟩ := hdo
      · exact absurd hfile (by rw [hJ]; exact hdirs _)
      · cases hc
  | create => exact absurd hdo.1 (hno hc)
  | remove =>
      obtain ⟨path, rfl, -⟩ := hdo
      cases hc

/-- `iget` stops the computation: there is no slot for inode 2 of device 0. -/
def stopsFull {α : Type} (x : Kern α) (s : KState) : Bool :=
  match x s with
  | .error (.iget 0 2) _ => true
  | _ => false

theorem exists_error_of_stopsFull {α : Type} {x : Kern α} {s : KState} (h : stopsFull x s = true) :
    ∃ t, x s = .error (.iget 0 2) t := by
  unfold stopsFull at h
  split at h
  · next t hx => exact ⟨t, hx⟩
  · cases h

/-- The run fills the cache: the root directory of device 0 is in slot 0, and there is no slot
for `/home`. -/
theorem crowded : ∃ s, Reached (fun _ _ _ => True) (formattedOn 6 wideDirs) nestedDisk s ∧
    Mounted (layoutOf 6) formattedLayout wideTree nestedTree 2 s ∧ s.CwdAt (.inl 1) ∧
    Ready (layoutOf 6) 0 1 0 s ∧ stopsFull (namei homePath) s = true ∧
    stopsFull (dirlookup 0 homeName) s = true := by
  have hrun : (playFrom (fun _ c _ => c.browses = true) (formattedOn 6 wideDirs) nestedDisk
      (crowd 1)).any (fun s =>
      s.atRoot && decide (0 < (s.inodeTable 0).ref ∧ (s.inodeTable 0).dev = 0 ∧
        (s.inodeTable 0).inum = 1 ∧ (s.inodeTable 0).valid = true ∧ (s.disk 1).capacity = 16) &&
      (stopsFull (namei homePath) s && stopsFull (dirlookup 0 homeName) s)) = true := by
    decide +kernel
  obtain ⟨s, hs, hQ⟩ := Reached.of_playFrom hrun
  simp only [Bool.and_eq_true, decide_eq_true_eq] at hQ
  obtain ⟨⟨hroot, href, hdev, hinum, hvalid, hcap⟩, hstops⟩ := hQ
  obtain ⟨hsb, hvol, hcached⟩ := hs.vol_of_browses nestedDisk_consistent fun n => by
    show ((formattedVol _).ino n).type ≠ _
    rw [formatted_ino (by decide) (by decide)]
    split_ifs
    · exact show FT_DIRECTORY ≠ FT_FILE by decide
    · exact show 0 ≠ FT_FILE by decide
  have hmounted := hs.mounted wideDirs_carries wideTree_isHome
    (nestedDisk_carries.shows_of_vol (by decide) hvol hcap hsb hcached)
  exact ⟨s, hs.mono fun _ _ _ _ => trivial, hmounted, .of_atRoot hroot,
    { toCached := hmounted.sys.toCached, ref := href, dev_eq := hdev, inum_eq := hinum,
      lt := by decide, valid := hvalid }, hstops⟩

/-- With a full cache, no path is resolved. -/
theorem namei_stops_full :
    ∃ s t, Reached (fun _ _ _ => True) (formattedOn 6 wideDirs) nestedDisk s ∧
    Mounted (layoutOf 6) formattedLayout wideTree nestedTree 2 s ∧ Refs [] s ∧ s.CwdAt (.inl 1) ∧
    namei homePath s = .error (.iget 0 2) t := by
  obtain ⟨s, hs, hmounted, hcwd, -, hstops, -⟩ := crowded
  obtain ⟨t, hx⟩ := exists_error_of_stopsFull hstops
  exact ⟨s, t, hs, hmounted, hs.guard.refs, hcwd, hx⟩

end Dmaos
