import Dmaos.System.Mount
import Dmaos.System.Naming
import Dmaos.System.Open

/-!
# What a call finds and makes

`fs_open` goes on from the directory that holds the last component, and crosses a
mount point there, too.  Device 1 is mounted on a directory of device 0, so that does
not lead from one inode of device 1 to another.  The descriptor that `fs_open` and
`fs_create` return is for the inode that was found or made, and a call that makes a
file has written an entry for the first free inode.
-/

namespace Dmaos

open Fault KState

variable {L : Layout} {S : Nat → Prop} {ip dp : Fin NINODE} {s s' t t' : KState}
  {name path y : List Byte} {p : Fin PROCS_MAX} {d m n flags : Nat} {r w : Int} {V : Vol}

/-! ## Mount points -/

section Mounts

variable {next : Fin NINODE}

/-- `..` is looked up elsewhere only at the root of a device that is mounted. -/
theorem mountParent_some (hx : mountParent ip name s = .ok (some next) s') :
    (s.inodeTable ip).inum = 1 ∧ ∃ M ∈ s.mounts, (s'.inodeTable next).dev = M.parentDev := by
  unfold mountParent at hx
  replace hx := inodeAt_then hx
  split_ifs at hx with hcond
  · refine ⟨hcond.2.1, ?_⟩
    replace hx := get_then hx
    cases hm : s.mounts.find? (fun m => m.childDev == (s.inodeTable ip).dev) with
    | none =>
        simp only [hm] at hx
        obtain ⟨ho, -⟩ := pure_ok.mp hx
        cases ho
    | some M =>
        simp only [hm] at hx
        refine ⟨M, List.mem_of_find?_eq_some hm, ?_⟩
        obtain ⟨pm, t₁, hg, hx⟩ := bind_ok.mp hx
        obtain ⟨u, t₂, hl, hx⟩ := bind_ok.mp hx
        have hc := Calm.ilock.of_ok hl
        obtain ⟨o, t₃, hlook, hx⟩ := bind_ok.mp hx
        obtain ⟨u, t₄, hp, hx⟩ := bind_ok.mp hx
        obtain ⟨ho, rfl⟩ := pure_ok.mp hx
        obtain ⟨⟨next', off⟩, rfl, rfl⟩ := Option.map_eq_some_iff.mp ho
        rw [(iput_kept hp next').dev, dirlookup_dev hlook, hc.dev, (iget_holds hg).dev_eq]
  · obtain ⟨ho, -⟩ := pure_ok.mp hx
    cases ho

/-- A mount point is replaced by the root of the device mounted on it. -/
theorem mountChild_cases (hx : mountChild ip s = .ok next s') :
    next = ip ∧ s' = s ∨
      (∃ M ∈ s.mounts, M.parentDev = (s.inodeTable ip).dev) ∧ (s'.inodeTable next).inum = 1 := by
  unfold mountChild at hx
  replace hx := inodeAt_then hx
  replace hx := get_then hx
  cases hm : s.mounts.find? (fun m => m.parentDev == (s.inodeTable ip).dev &&
      m.parentInum == (s.inodeTable ip).inum) with
  | none =>
      simp only [hm] at hx
      obtain ⟨rfl, rfl⟩ := pure_ok.mp hx
      exact .inl ⟨rfl, rfl⟩
  | some M =>
      simp only [hm] at hx
      obtain ⟨u, t₁, -, hx⟩ := bind_ok.mp hx
      have hcond := List.find?_some hm
      simp only [Bool.and_eq_true, beq_iff_eq] at hcond
      exact .inr ⟨⟨M, List.mem_of_find?_eq_some hm, hcond.1⟩, (iget_holds hx).inum_eq⟩

/-- Before anything is mounted, `/home` is on device 0. -/
theorem namei_home_dev (hmounts : s.mounts = [])
    (hx : namei homePath s = .ok (some ip) s') : (s'.inodeTable ip).dev = 0 := by
  obtain ⟨root, t₁, t₂, t₃, off, higet, hl, -, hlook, hput⟩ := namei_home_ok hmounts hx
  have hc := Calm.ilock.of_ok hl
  rw [(iput_kept hput ip).dev, dirlookup_dev hlook, hc.dev, (iget_holds higet).dev_eq]

end Mounts

section Runs

variable {P : Fin PROCS_MAX → Syscall → KState → Prop} {d0 d1 : Device}

/-- In every state reached, what is mounted is mounted on device 0. -/
theorem Reached.mounted_on_system (h : Reached P d0 d1 s) : ∀ M ∈ s.mounts, M.parentDev = 0 := by
  suffices hM : ∃ M : Mount, M.parentDev = 0 ∧ Guard (fixedMounts [M]) [] s by
    obtain ⟨M, hM, hg⟩ := hM
    intro M' hM'
    rw [hg.inv.2, List.mem_singleton] at hM'
    rw [hM', hM]
  induction h with
  | boot run =>
      obtain ⟨v, t, hi, -⟩ := bind_ok.mp run
      have hcold : readOnly.Inv (loadedState d0 d1) := fun f ip hf => by cases hf
      have hro := (fsInit_guard (P := readOnly) hcold (fun h _ => h) hi).1
      obtain ⟨ip, t₁, hn, hmounts⟩ := fsInit_ok hi
      have hdev := namei_home_dev (s := loadedState d0 d1) rfl hn
      exact ⟨_, hdev, (boot_after_fsInit (P := fixedMounts _) hi run
        ⟨hro.refs, hro.inv, hmounts⟩).1⟩
  | step before cond run ih =>
      obtain ⟨M, hM, hg⟩ := ih
      exact ⟨M, hM, ((Serves.step .anySyscall _ hg).of_ok run).2⟩

end Runs

/-! ## What a call finds -/

section Found

variable {f : Fin GLOBAL_OPEN_FILE_LIMIT}

/-- What `namei` finds on device 1 in a directory is what the name leads to, or that
directory. -/
theorem namexEnd_found (h : Disk L S s) (hr : Refs [dp] s) (hdir : DirAt L d dp s)
    (hmounts : ∀ M ∈ s.mounts, M.parentDev = 0) (hmd : m ≠ d)
    (hx : namexEnd dp name s = .ok (some ip, y) s') (hdev : (s'.inodeTable ip).dev = 1)
    (hinum : (s'.inodeTable ip).inum = m) : (s.vol L 1).lookup d name = some m := by
  obtain ⟨o, t, hnext, hx⟩ := bind_ok.mp hx
  have hmounts₁ : t.mounts = s.mounts := (Still.of_ok .namexNext hnext).mounts
  cases o with
  | none =>
      obtain ⟨u, t₁, -, hx⟩ := bind_ok.mp hx
      obtain ⟨ho, -⟩ := pure_ok.mp hx
      cases ho
  | some next =>
      obtain ⟨next', t₁, hmc, hx⟩ := bind_ok.mp hx
      obtain ⟨u, t₂, hput, hx⟩ := bind_ok.mp hx
      obtain ⟨ho, rfl⟩ := pure_ok.mp hx
      cases ho
      have hkept := iput_kept hput ip
      rw [hkept.dev] at hdev
      rw [hkept.inum] at hinum
      obtain ⟨o', t', hmp, hnext⟩ := bind_ok.mp hnext
      cases o' with
      | some up =>
          -- `..` at the root leads to device 0, or back to the root by way of the mount.
          obtain ⟨ho, rfl⟩ := pure_ok.mp hnext
          cases ho
          obtain ⟨hone, M, hM, hup⟩ := mountParent_some hmp
          rw [hdir.inum_eq] at hone
          rw [hmounts M hM] at hup
          rcases mountChild_cases hmc with ⟨rfl, rfl⟩ | ⟨-, hroot⟩
          · rw [hup] at hdev
            cases hdev
          · exact absurd (hinum.symm.trans (hroot.trans hone.symm)) hmd
      | none =>
          obtain ⟨o, t'', hlook, hret⟩ := bind_ok.mp hnext
          obtain ⟨ho, rfl⟩ := pure_ok.mp hret
          obtain ⟨⟨next₀, off⟩, rfl, rfl⟩ := Option.map_eq_some_iff.mp ho
          obtain ⟨hr', hstable⟩ := Nets.mountParent.refs (l := [dp]) hr hmp
          have hidle := (Still.of_ok .mountParent hmp).toIdle
          have hvol : t'.vol L 1 = s.vol L 1 := hidle.vol_eq
          have hdir' : DirAt L d dp t' :=
            hdir.of_kept (hstable dp (refsTo_pos_of_mem (by simp))) (hr'.pos (by simp))
              (by rw [hvol]; exact hdir.isDir)
          obtain ⟨-, -, -, -, k, -, hk, hfirst, hold⟩ :=
            dirlookup_some (h.mountParent hmp) hr' hdir' hlook
          rw [hvol] at hk hfirst hold
          rcases mountChild_cases hmc with ⟨rfl, rfl⟩ | ⟨⟨M, hM, hMdev⟩, -⟩
          · rw [hold.inum_eq] at hinum
            exact Vol.lookup_eq_some_iff.mpr ⟨k, hk, hfirst, hinum⟩
          · rw [hmounts₁] at hM
            rw [hold.dev_eq, hmounts M hM] at hMdev
            cases hMdev

/-! ### Descriptors -/

theorem KState.fdInode_neg (hr : r < 0) : s.fdInode p r = none := by
  rw [fdInode, fdSlot, dif_neg (by omega)]
  rfl

theorem installFd_ok (hp : s.current = some p) (hx : installFd f s = .ok r s') :
    r < 0 ∨ 0 ≤ r ∧ s'.fdSlot p r = (s.fileTable f).ip ∧ s'.inodeTable = s.inodeTable ∧
      SameDisk s s' := by
  obtain ⟨p', t', hc, hx⟩ := bind_ok.mp hx
  replace hc := get_then hc
  rw [hp] at hc
  obtain ⟨rfl, rfl⟩ := pure_ok.mp hc
  replace hx := get_then hx
  cases hfd : findFd s p with
  | none =>
      simp only [hfd] at hx
      obtain ⟨u, t'', -, hx⟩ := bind_ok.mp hx
      obtain ⟨rfl, -⟩ := pure_ok.mp hx
      exact .inl (by decide)
  | some fd =>
      simp only [hfd] at hx
      replace hx := modify_then hx
      obtain ⟨rfl, rfl⟩ := pure_ok.mp hx
      have hfd' : (0 : Int) ≤ (fd : Nat) ∧ ((fd : Nat) : Int) < NUM_FILES_PER_PROCESS := by
        have := fd.isLt
        omega
      refine .inr ⟨hfd'.1, ?_, rfl, rfl, rfl⟩
      rw [fdSlot, dif_pos hfd']
      simp [putProc]

/-- A descriptor that `alloc_file_descriptor` returns is for the inode. -/
theorem allocFileDescriptor_ok (hp : s.current = some p)
    (hx : allocFileDescriptor ip flags s = .ok r s') :
    r < 0 ∨ 0 ≤ r ∧ s'.fdInode p r = some ((s.inodeTable ip).dev, (s.inodeTable ip).inum) ∧
      SameDisk s s' := by
  obtain ⟨o, t, hf, hx⟩ := bind_ok.mp hx
  rcases fileCreate_ok hf with ⟨rfl, -⟩ | ⟨f, F, rfl, -, rfl, -⟩
  · obtain ⟨u, t₁, -, hx⟩ := bind_ok.mp hx
    obtain ⟨rfl, -⟩ := pure_ok.mp hx
    exact .inl (by decide)
  · replace hx := inodeAt_then hx
    replace hx := modify_then hx
    refine (installFd_ok (p := p) (by exact hp) hx).imp_right ?_
    rintro ⟨h0, hslot, hnodes, hsame⟩
    refine ⟨h0, ?_, hsame⟩
    rw [fdInode, hslot, hnodes]
    simp [putFile]

/-- The descriptor `fs_open` returns is for the inode the path leads to. -/
theorem fsOpen_opened (hp : s.current = some p) (hx : fsOpen path flags s = .ok r s')
    (hfd : s'.fdInode p r = some (1, m)) :
    ∃ ip t, namei path s = .ok (some ip) t ∧ (t.inodeTable ip).dev = 1 ∧
      (t.inodeTable ip).inum = m := by
  have hpos : ¬ r < 0 := fun hneg => by
    rw [fdInode_neg hneg] at hfd
    cases hfd
  unfold fsOpen at hx
  split_ifs at hx with hcons
  · obtain ⟨o, t, hf, hx⟩ := bind_ok.mp hx
    rcases fileCreate_ok hf with ⟨rfl, -⟩ | ⟨f, F, rfl, -, rfl, hF⟩
    · obtain ⟨rfl, -⟩ := pure_ok.mp hx
      exact absurd (by decide) hpos
    · -- The console has no inode.
      obtain ⟨-, hslot, -⟩ := (installFd_ok (p := p) (by exact hp) hx).resolve_left hpos
      rw [fdInode, hslot] at hfd
      simp [putFile, hF] at hfd
  · obtain ⟨o, t, hn, hx⟩ := bind_ok.mp hx
    have hidle := (Still.of_ok .namei hn).toIdle
    cases o with
    | none =>
        obtain ⟨rfl, -⟩ := pure_ok.mp hx
        exact absurd (by decide) hpos
    | some ip =>
        obtain ⟨u, t₂, hl, hx⟩ := bind_ok.mp hx
        have hc := Calm.ilock.of_ok hl
        have hp₂ : t₂.current = some p := by rw [hc.current, hidle.current, hp]
        replace hx := inodeAt_then hx
        -- The slot is for the same inode when the descriptor is made.
        have hsame : ∀ {t₃}, (t₃.inodeTable ip).dev = (t₂.inodeTable ip).dev →
            (t₃.inodeTable ip).inum = (t₂.inodeTable ip).inum → t₃.current = t₂.current →
            allocFileDescriptor ip flags t₃ = .ok r s' →
            (t.inodeTable ip).dev = 1 ∧ (t.inodeTable ip).inum = m := by
          intro t₃ hdev hinum hcur hx
          obtain ⟨-, hfd', -⟩ :=
            (allocFileDescriptor_ok (p := p) (by rw [hcur, hp₂]) hx).resolve_left hpos
          rw [hfd, Option.some.injEq, Prod.mk.injEq] at hfd'
          rw [← hc.dev, ← hdev, ← hc.inum, ← hinum]
          exact ⟨hfd'.1.symm, hfd'.2.symm⟩
        split_ifs at hx with hperm htrunc
        · obtain ⟨u, t₃, -, hx⟩ := bind_ok.mp hx
          obtain ⟨rfl, -⟩ := pure_ok.mp hx
          exact absurd (by decide) hpos
        · obtain ⟨u, t₄, htr, hx⟩ := bind_ok.mp hx
          have ht : Touches (t₂.inodeTable ip).dev ip t₂ t₄ := LocalOn.itrunc.of_ok rfl htr
          exact ⟨ip, t, hn, hsame ht.slot_dev ht.slot_inum ht.current hx⟩
        · exact ⟨ip, t, hn, hsame rfl rfl rfl hx⟩

end Found

/-! ## New files -/

/-- The inode `ialloc` takes. -/
structure FirstFree (V : Vol) (n : Nat) : Prop where
  pos : 0 < n
  free : inUse V n = false
  first : ∀ m, 0 < m → m < n → inUse V m = true

theorem FirstFree.unique (hn : FirstFree V n) (hm : FirstFree V m) : n = m := by
  rcases Nat.lt_trichotomy n m with hlt | heq | hgt
  · have hused := hm.first n hn.pos hlt
    rw [hn.free] at hused
    cases hused
  · exact heq
  · have hused := hn.first m hm.pos hgt
    rw [hm.free] at hused
    cases hused

/-- Directory `d` has got an entry for the first free inode. -/
def Entered (d : Nat) (name : List Byte) (V V' : Vol) : Prop :=
  ∃ n k, FirstFree V n ∧ k < V'.nents d ∧ V'.ent d k = (n % 2 ^ 16, name)

section New

/-- The entry that was written has the name, unless it is taken for a free one. -/
theorem Entered.named {V' : Vol} (h : Entered d name V V') (hm : FirstFree V m)
    (hlt : m < 2 ^ 16) (hname : Short name) : ∃ i, EntryNamed V' d name i := by
  obtain ⟨n, k, hn, hk, he⟩ := h
  rw [hn.unique hm, Nat.mod_eq_of_lt hlt] at he
  exact ⟨k, hname.named_iff.mpr ⟨hk, m, slot_eq_some_iff.mpr ⟨Nat.ne_of_gt hm.pos, he⟩⟩⟩

theorem Entered.of_same (h : Entered d name V (t.vol L 1)) (hs : SameDisk t s) :
    Entered d name V (s.vol L 1) := by
  rwa [vol_congr (by rw [hs.1]) hs.2]

/-- `dirlink` has entered the new file. -/
theorem Fresh.entered (h : Fresh L S d n dp ip name s t) (hname : Short name)
    (hx : dirlink dp name n t = .ok w t') (hw : 0 ≤ w) :
    Entered d name (s.vol L 1) (t'.vol L 1) := by
  obtain ⟨-, ⟨rfl, -⟩ | ⟨-, k, -, hwrote⟩⟩ :=
    dirlink_ok h.toDisk h.dir (h.toDisk.held h.hold).2 hx
  · exact absurd hw (by decide)
  · refine ⟨n, k, ⟨h.pos, h.free, h.first⟩, ?_, ?_⟩
    · rw [hwrote.nents]
      omega
    · rw [hwrote.ent_self, inum_newDirent, hname.name_newDirent]

theorem fsMkdirIn_entered (h : Disk L S s) (hr : Refs [dp] s) (hdir : DirAt L d dp s)
    (hroom : Room L s) (hname : Short name) (hx : fsMkdirIn dp name s = .ok r s') (hpos : 0 ≤ r) :
    Entered d name (s.vol L 1) (s'.vol L 1) := by
  replace hx := inodeAt_then hx
  obtain ⟨o, t, hl, hx⟩ := bind_ok.mp hx
  cases o with
  | some o =>
      obtain ⟨u, t₁, -, hx⟩ := bind_ok.mp hx
      obtain ⟨u, t₂, -, hx⟩ := bind_ok.mp hx
      obtain ⟨rfl, -⟩ := pure_ok.mp hx
      exact absurd hpos (by decide)
  | none =>
      obtain ⟨hc, hrt, hfresh⟩ := dirlookup_none h hr hdir hl
      have ht := h.of_calm hc
      rw [hdir.dev_eq] at hx
      obtain ⟨o, t₁, ha, hx⟩ := bind_ok.mp hx
      cases o with
      | none =>
          obtain ⟨u, t₂, -, hx⟩ := bind_ok.mp hx
          obtain ⟨rfl, -⟩ := pure_ok.mp hx
          exact absurd hpos (by decide)
      | some ip =>
          obtain ⟨n, hf, hvol⟩ := Fresh.of_ialloc ht hrt (hdir.of_calm hc) (hroom.of_calm hc)
            hfresh (by decide) ha
          obtain ⟨b, t₂, hfill, hx⟩ := bind_ok.mp hx
          obtain ⟨t₃, w, hf₃, -, hlink, hw⟩ := fsMkdirFill_links hf hvol hfill
          obtain ⟨u, t₄, hput, hx⟩ := bind_ok.mp hx
          obtain ⟨u, t₅, hput', hx⟩ := bind_ok.mp hx
          have hidle := trans_of Idle (Idle.iput.of_ok hput) (Idle.iput.of_ok hput')
          cases b with
          | false =>
              obtain ⟨rfl, -⟩ := pure_ok.mp hx
              exact absurd hpos (by decide)
          | true =>
              obtain ⟨-, rfl⟩ := pure_ok.mp hx
              rw [← hc.vol_eq]
              exact (hf₃.entered hname hlink (hw rfl)).of_same ⟨hidle.disk, hidle.sb⟩

/-- The descriptor `fs_create` returns is for the inode the name leads to, or for a
new one, whose name has been entered. -/
theorem fsCreateIn_opened (h : Disk L S s) (hr : Refs [dp] s) (hp : s.current = some p)
    (hdir : DirAt L d dp s) (hroom : Room L s) (hname : Short name)
    (hx : fsCreateIn dp name flags s = .ok r s') (hpos : 0 ≤ r) :
    (∃ v, (s.vol L 1).lookup d name = some v ∧ s'.fdInode p r = some (1, v)) ∨
      (∃ n, inUse (s.vol L 1) n = false ∧ s'.fdInode p r = some (1, n)) ∧
        Entered d name (s.vol L 1) (s'.vol L 1) := by
  cases fsCreateIn_cases h hr hdir hroom hx with
  | full calm refs neg put => exact absurd hpos (Int.not_le.mpr neg)
  | @new t t₁ t₂ ip n w calm linked rest =>
      refine .inr ?_
      obtain ⟨hw, hx⟩ := rest.resolve_left fun hr => absurd hpos (Int.not_le.mpr hr.2.1)
      obtain ⟨u, t₃, hput, hx⟩ := bind_ok.mp hx
      have hidle := Idle.iput.of_ok hput
      have hkept := iput_kept hput ip
      obtain ⟨-, hfd, hsame⟩ := (allocFileDescriptor_ok (p := p)
        (by rw [hidle.current, linked.tables'.current, calm.current, hp]) hx).resolve_left
          (Int.not_lt.mpr hpos)
      rw [hkept.dev, hkept.inum, linked.kept.dev, linked.kept.inum, linked.hold.dev_eq,
        linked.hold.inum_eq] at hfd
      rw [← calm.vol_eq]
      exact ⟨⟨n, linked.free, hfd⟩, (linked.toFresh.entered hname linked.link hw).of_same
        ⟨hsame.1.trans hidle.disk, hsame.2.trans hidle.sb⟩⟩
  | @old t₁ t₂ ip k idle disk refs ready named first cut rest =>
      refine .inl ⟨_, Vol.lookup_eq_some_iff.mpr ⟨k, named, first, rfl⟩, ?_⟩
      -- The slot is for the same inode when the descriptor is made.
      have hsame : (t₁.inodeTable ip).Kept (t₂.inodeTable ip) ∧ t₂.current = t₁.current := by
        rcases cut with rfl | ⟨-, htr⟩
        · exact ⟨.refl _, rfl⟩
        · have ht : Touches (t₁.inodeTable ip).dev ip t₁ t₂ := LocalOn.itrunc.of_ok rfl htr
          exact ⟨ht.kept ip, ht.current⟩
      obtain ⟨u, t₃, hput, hx⟩ := bind_ok.mp rest
      have hkept := iput_kept hput ip
      obtain ⟨-, hfd, -⟩ := (allocFileDescriptor_ok (p := p)
        (by rw [(Idle.iput.of_ok hput).current, hsame.2, idle.current, hp]) hx).resolve_left
          (Int.not_lt.mpr hpos)
      rw [hfd, hkept.dev, hkept.inum, hsame.1.dev, hsame.1.inum, ready.dev_eq, ready.inum_eq]

end New

end Dmaos
