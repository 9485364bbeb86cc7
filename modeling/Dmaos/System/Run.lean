import Dmaos.System.Calls
import Dmaos.Volume.Format

/-!
# Runs

`Reached P d0 d1 s`: the kernel has booted from the devices `d0` and `d1` and
come to the state `s` by system calls that all met the condition `P`.

`Reached.invariant` is the rule for properties of all such states: what holds
of the volume on a consistent image and is kept by the effects of the calls
holds in every state reached.
-/

namespace Dmaos

open Fault Function

variable {P : Fin PROCS_MAX → Syscall → KState → Prop} {d0 d1 : Device} {s : KState}
  {cs : List (Fin PROCS_MAX × Syscall)} {L : Layout}

/-- The superblock of a device. -/
def Device.super (d : Device) : Superblock := Superblock.ofBuf (d.blk 1)

/-- The volume on a device. -/
def Device.vol (d : Device) (L : Layout) : Vol := volOf L d.super d.blk

/-- The inodes in use. -/
def InUse (V : Vol) (n : Nat) : Prop := inUse V n = true

instance (V : Vol) (n : Nat) : Decidable (InUse V n) := by
  unfold InUse
  infer_instance

/-- An image on which the file system can run. -/
structure Device.Consistent (L : Layout) (d : Device) : Prop where
  fits : L.Fits d.super
  reserved : Reserved L.IsData d.super.nblocks (d.vol L)
  wf : WF L (InUse (d.vol L)) (d.vol L)

/-- A system disk with the directory `/home`. -/
def systemDisk : Device :=
  formatted [[(1, dot), (1, dotdot), (2, [0x68, 0x6f, 0x6d, 0x65])], [(2, dot), (1, dotdot)]]

/-- A state reached from boot by calls that meet the condition `P`. -/
inductive Reached (P : Fin PROCS_MAX → Syscall → KState → Prop) (d0 d1 : Device) :
    KState → Prop where
  | boot {u : Unit} {s : KState} (run : boot (coldState d0 d1) = .ok u s) : Reached P d0 d1 s
  | step {p : Fin PROCS_MAX} {c : Syscall} {r : Int} {s s' : KState} (before : Reached P d0 d1 s)
      (cond : P p c s) (run : step p c s = .ok r s') : Reached P d0 d1 s'

theorem Reached.mono {Q : Fin PROCS_MAX → Syscall → KState → Prop}
    (h : Reached P d0 d1 s) (hPQ : ∀ p c s, P p c s → Q p c s) : Reached Q d0 d1 s := by
  induction h with
  | boot run => exact .boot run
  | step before cond run ih => exact .step ih (hPQ _ _ _ cond) run

/-! ## Playing a run -/

section Play

variable [∀ p c s, Decidable (P p c s)]

/-- The state after a list of calls, if they all meet the condition and return. -/
def play (P : Fin PROCS_MAX → Syscall → KState → Prop) [∀ p c s, Decidable (P p c s)] :
    List (Fin PROCS_MAX × Syscall) → KState → Option KState
  | [], s => some s
  | (p, c) :: cs, s =>
    if P p c s then
      match step p c s with
      | .ok _ s' => play P cs s'
      | .error _ _ => none
    else none

/-- Boot, and then a list of calls. -/
def playFrom (P : Fin PROCS_MAX → Syscall → KState → Prop) [∀ p c s, Decidable (P p c s)]
    (d0 d1 : Device) (cs : List (Fin PROCS_MAX × Syscall)) : Option KState :=
  match boot (coldState d0 d1) with
  | .ok _ s => play P cs s
  | .error _ _ => none

theorem Reached.play : ∀ {cs : List (Fin PROCS_MAX × Syscall)} {s s' : KState},
    Reached P d0 d1 s → play P cs s = some s' → Reached P d0 d1 s'
  | [], s, s', h, hx => by
      cases hx
      exact h
  | (p, c) :: cs, s, s', h, hx => by
      unfold Dmaos.play at hx
      split_ifs at hx with hc
      cases hstep : Dmaos.step p c s with
      | ok r t =>
          simp only [hstep] at hx
          exact Reached.play (.step h hc hstep) hx
      | error e t =>
          simp only [hstep] at hx
          cases hx

/-- A run that can be played reaches its last state. -/
theorem Reached.of_playFrom_eq (h : playFrom P d0 d1 cs = some s) : Reached P d0 d1 s := by
  unfold playFrom at h
  cases hb : Dmaos.boot (coldState d0 d1) with
  | ok u t =>
      simp only [hb] at h
      exact Reached.play (.boot hb) h
  | error e t =>
      simp only [hb] at h
      cases h

theorem Reached.of_playFrom {Q : KState → Bool}
    (h : (playFrom P d0 d1 cs).any Q = true) : ∃ s, Reached P d0 d1 s ∧ Q s = true := by
  cases hs : playFrom P d0 d1 cs with
  | none =>
      rw [hs] at h
      cases h
  | some s =>
      rw [hs] at h
      exact ⟨s, .of_playFrom_eq hs, h⟩

end Play

/-! ## Boot -/

section Boot

variable {S : Nat → Prop} {s' : KState} {u : Unit} {dev : Nat}

theorem readSuperblock_ok (hx : readSuperblock dev s = .ok u s') :
    s' = { s with sb := update s.sb dev (s.disk dev).super } := by
  replace hx := readBlock_then hx
  replace hx := modify_then hx
  split_ifs at hx with hmagic
  · obtain ⟨-, rfl⟩ := pure_ok.mp hx
    rfl
  · cases hx

/-- The tables after the superblocks have been read. -/
def loadedState (d0 d1 : Device) : KState :=
  { coldState d0 d1 with
    sb := update (update (coldState d0 d1).sb 0 d0.super) 1 d1.super }

theorem Disk.loadedState (h : d1.Consistent L) : Disk L (InUse (d1.vol L)) (loadedState d0 d1) where
  fits := h.fits
  uniq := fun hi => by cases hi
  coh := fun hi => by cases hi
  reserved := h.reserved
  wf := h.wf
  known := fun hi => by cases hi
  mounts := fun m hm => by cases hm

/-- The directory of a slot in use becomes the mount point. -/
theorem Disk.mount {ip : Fin NINODE} (h : Disk L S s) (hr : 0 < (s.inodeTable ip).ref) :
    Disk L S { s with mounts := [⟨(s.inodeTable ip).dev, (s.inodeTable ip).inum, 1⟩] } where
  fits := h.fits
  uniq := h.uniq
  coh := h.coh
  reserved := h.reserved
  wf := h.wf
  known := h.known
  mounts := by
    intro m hm
    rw [List.mem_singleton.mp hm]
    exact ⟨rfl, h.known hr⟩

/-- `fs_init` loads the superblocks, and then keeps every policy that a mount
keeps. -/
theorem fsInit_guard {P : Policy} (h : P.Inv (loadedState d0 d1))
    (hmount : ∀ {s : KState} {ip : Fin NINODE}, P.Inv s → 0 < (s.inodeTable ip).ref →
      P.Inv { s with mounts := [⟨(s.inodeTable ip).dev, (s.inodeTable ip).inum, 1⟩] })
    (hx : fsInit (coldState d0 d1) = .ok u s) : Guard P [] s ∧ P.Rel (loadedState d0 d1) s := by
  obtain ⟨u, t, h0, hx⟩ := bind_ok.mp hx
  obtain rfl := readSuperblock_ok h0
  obtain ⟨u, t, h1, hx⟩ := bind_ok.mp hx
  obtain rfl := readSuperblock_ok h1
  have hr : Refs [] (loadedState d0 d1) := Refs.coldState d0 d1
  obtain ⟨o, t, hn, hx⟩ := bind_ok.mp hx
  obtain ⟨hs, hr₁, hd₁⟩ := (Serves.namei (P := P) _ ⟨hr, h⟩).of_ok hn
  cases o with
  | none => cases hx
  | some ip =>
      replace hr₁ : Refs [ip] t := hr₁
      replace hx := inodeAt_then hx
      replace hx := modify_then hx
      have hd₂ := hmount hd₁ (hr₁.pos (.head _))
      have hs₂ : P.Rel t { t with
          mounts := [⟨(t.inodeTable ip).dev, (t.inodeTable ip).inum, 1⟩] } :=
        P.unwritten ⟨rfl, rfl, rfl⟩
      obtain ⟨hs', hg⟩ := (Serves.iput (P := P) (p := [])
        { t with mounts := [⟨_, _, 1⟩] } ⟨hr₁, hd₂⟩).of_ok hx
      exact ⟨hg, trans_of P.Rel hs (trans_of P.Rel hs₂ hs')⟩

/-- After `fs_init` the first processes are made, which keeps every policy. -/
theorem boot_after_fsInit {P : Policy} {t : KState} {v : Unit}
    (hi : fsInit (coldState d0 d1) = .ok v t) (hx : boot (coldState d0 d1) = .ok u s)
    (hg : Guard P [] t) : Guard P [] s ∧ P.Rel t s := by
  unfold boot at hx
  rw [run_bind hi] at hx
  obtain ⟨hs, hg'⟩ := ServesAt.of_ok (q := fun _ => []) hx (by
    refine Serves.bind .createProcess (fun o => ?_) t hg
    cases o with
    | none => exact .throw _
    | some p => exact .bind .idleProc fun _ => .bind .createProcess fun _ => .pure rfl)
  exact ⟨hg', hs⟩

theorem boot_guard {P : Policy} (h : P.Inv (loadedState d0 d1))
    (hmount : ∀ {s : KState} {ip : Fin NINODE}, P.Inv s → 0 < (s.inodeTable ip).ref →
      P.Inv { s with mounts := [⟨(s.inodeTable ip).dev, (s.inodeTable ip).inum, 1⟩] })
    (hx : boot (coldState d0 d1) = .ok u s) : Guard P [] s ∧ P.Rel (loadedState d0 d1) s := by
  obtain ⟨v, t, hi, -⟩ := bind_ok.mp hx
  obtain ⟨hg, hs⟩ := fsInit_guard h hmount hi
  obtain ⟨hg', hs'⟩ := boot_after_fsInit hi hx hg
  exact ⟨hg', trans_of P.Rel hs hs'⟩

/-- Boot establishes the invariant, and writes nothing. -/
theorem boot_ok (h : d1.Consistent L) (hx : boot (coldState d0 d1) = .ok u s) :
    Disk L (InUse (d1.vol L)) s ∧ s.vol L 1 = d1.vol L ∧ s.sb 1 = d1.super := by
  obtain ⟨hg, hdisk, hsb⟩ := boot_guard (P := diskPolicy L (InUse (d1.vol L))) (.loadedState h)
    Disk.mount hx
  refine ⟨hg.inv, ?_, by rw [hsb]; rfl⟩
  exact KState.vol_congr (s := loadedState d0 d1) (by rw [hdisk]) hsb

end Boot

/-! ## The rule for runs -/

section Runs

variable {J : (Nat → Prop) → Vol → Prop}

/-- The table of open files is in order in every state reached. -/
theorem Reached.guard (h : Reached P d0 d1 s) : Guard readOnly [] s := by
  induction h with
  | boot run => exact ((Serves.boot _ (Guard.coldState d0 d1)).of_ok run).2
  | step before cond run ih => exact ((Serves.step .anySyscall _ ih).of_ok run).2

/-- What the effects of the calls keep holds in every state reached. -/
theorem Reached.invariant (himg : d1.Consistent L)
    (hP : ∀ {p c s}, P p c s → s.sb 1 = d1.super → (c.MayCreate → Room L s) ∧
      ∀ n, c.writeTarget s p = some (1, n) → ¬ (s.vol L 1).IsDir n)
    (hinit : J (InUse (d1.vol L)) (d1.vol L))
    (hstep : ∀ {p c s a S S' V'}, Disk L S s → J S (s.vol L 1) → P p c s → Does L p c s a →
      Effect L S (s.vol L 1) a S' V' → J S' V')
    (h : Reached P d0 d1 s) : s.sb 1 = d1.super ∧ ∃ S, Disk L S s ∧ J S (s.vol L 1) := by
  induction h with
  | boot run =>
      obtain ⟨hd, hvol, hsb⟩ := boot_ok himg run
      refine ⟨hsb, _, hd, ?_⟩
      rw [hvol]
      exact hinit
  | step before cond run ih =>
      obtain ⟨hsb, S, hd, hJ⟩ := ih
      obtain ⟨hroom, htame⟩ := hP cond hsb
      obtain ⟨a, S', hA, he, hd', hsb'⟩ := step_performs hd before.guard.refs hroom htame run
      exact ⟨by rw [hsb', hsb], S', hd', hstep hd hJ cond hA he⟩

end Runs

end Dmaos
