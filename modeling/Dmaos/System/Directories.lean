import Dmaos.System.Coherence
import Dmaos.System.Leaks

/-!
# Directories change through names only

Calls other than `open` with `FILECTRL_CREATE`, `mkdir` and `rm` leave the
content of every directory alone, if none writes to a directory through a
descriptor (`directories_of_reached`).  Nothing in `open` and `write` keeps a
process from doing that (`directories_not_kept`).
-/

namespace Dmaos

open Fault Function

variable {L : Layout} {S S' : Nat → Prop} {n type : Nat} {V' : Vol} {a : Act}

/-- The calls that change the name space. -/
def Syscall.Namespace : Syscall → Prop
  | .open _ flags => hasFlag flags FILECTRL_CREATE = true
  | .mkdir _ => True
  | .rm _ => True
  | _ => False

/-- Every directory consists of whole entries. -/
def WholeEntries (V : Vol) : Prop := ∀ n, V.IsDir n → (V.ino n).size % 32 = 0

section Effects

variable {k : Nat} {V : Vol} {src : Buf}

theorem Vol.IsDir.of_type (h : V.IsDir n) (ht : (V'.ino n).type = (V.ino n).type) : V'.IsDir n :=
  ht.trans h

/-- The other files are the same, and inode `n` is no directory. -/
theorem WholeEntries.other (h : WholeEntries V) (hino : ∀ m, m ≠ n → V'.ino m = V.ino m)
    (hn : ¬ V'.IsDir n) : WholeEntries V' := by
  intro m hd
  have hmn : m ≠ n := by
    rintro rfl
    exact hn hd
  rw [hino m hmn]
  exact h m (hd.of_type (by rw [hino m hmn]))

/-- A whole entry is written. -/
theorem WholeEntries.wrote (h : WholeEntries V) (hw : Wrote L S n (32 * k) 32 src V V') :
    WholeEntries V' := by
  intro m hd
  by_cases hmn : m = n
  · subst hmn
    have hm := h m (hd.of_type hw.type_eq.symm)
    rw [hw.size]
    omega
  · rw [hw.ino hmn]
    exact h m (hd.of_type (by rw [hw.ino hmn]))

theorem WholeEntries.alloc (h : WholeEntries V) : WholeEntries (V.allocIno n type) := by
  intro m hd
  by_cases hmn : m = n
  · subst hmn
    rw [allocIno_ino_self]
    rfl
  · have hino : (V.allocIno n type).ino m = V.ino m := update_of_ne hmn _ _
    rw [hino]
    exact h m (hd.of_type (by rw [hino]))

theorem WholeEntries.cut {size : Nat} (h : WholeEntries V) (hc : Cut L S n size V V')
    (hs : size % 32 = 0 ∨ ¬ V.IsDir n) : WholeEntries V' := by
  intro m hd
  by_cases hmn : m = n
  · subst hmn
    rw [hc.size_eq]
    exact hs.resolve_right fun hn => hn (hd.of_type hc.type_eq.symm)
  · rw [hc.reduce.ino hmn]
    exact h m (hd.of_type (by rw [hc.reduce.ino hmn]))

theorem WholeEntries.retire (h : WholeEntries V) : WholeEntries (V.retireIno n) := by
  refine h.other (n := n) (fun m hm => update_of_ne hm _ _) fun hd => ?_
  have := hd.inUse
  rw [not_inUse_retireIno] at this
  cases this

theorem WholeEntries.born {d : Nat} (h : WholeEntries V) (hb : Born L S d n V type V') :
    WholeEntries V' := by
  cases hb with
  | file => exact h.alloc
  | dir self parent => exact (h.alloc.wrote (k := 0) self).wrote (k := 1) parent

/-- Every effect keeps the entries whole, if bytes are written to and cut from
files only. -/
theorem WholeEntries.effect (h : WholeEntries V)
    (hfile : ∀ n, a = .write n ∨ a = .cut n → ¬ V.IsDir n) (he : Effect L S V a S' V') :
    WholeEntries V' := by
  cases he with
  | none => exact h
  | write mem wrote =>
      exact h.other (fun m hm => wrote.ino hm) fun hd =>
        hfile _ (Or.inl rfl) (hd.of_type wrote.type_eq.symm)
  | cut mem cut => exact h.cut cut (Or.inr (hfile _ (Or.inr rfl)))
  | create creates =>
      have h₁ := h.born creates.born
      rcases creates.link with ⟨rfl, -⟩ | ⟨k, -, hlink⟩
      · exact h₁
      · exact h₁.wrote hlink
  | remove removes =>
      have h₁ := h.wrote removes.wrote
      rw [removes.retired]
      rcases removes.cut with ⟨rfl, -⟩ | hcut
      · exact h₁.retire
      · exact (h₁.cut hcut (Or.inl rfl)).retire

end Effects

/-! ## Runs -/

section Runs

variable {d0 d1 : Device} {s s' : KState} {p : Fin PROCS_MAX} {c : Syscall}

/-- What is written or cut is no directory. -/
theorem Does.not_isDir (hA : Does L p c s a) (ht : Tame L p c s) (n : Nat)
    (ha : a = .write n ∨ a = .cut n) : ¬ (s.vol L 1).IsDir n := by
  rcases ha with rfl | rfl
  · obtain ⟨fd, buf, len, rfl, hfd⟩ := hA
    exact ht n hfd
  · rcases hA with ⟨-, htype⟩ | ⟨fd, len, rfl, hfd⟩
    · intro hd
      rw [hd.type_eq] at htype
      cases htype
    · exact ht n hfd

theorem Syscall.MayCreate.namespace (h : c.MayCreate) : c.Namespace := by
  cases c with
  | «open» path flags => exact h
  | mkdir path => trivial
  | _ => exact h.elim

/-- A call that does not change the name space leaves directories alone. -/
theorem Effect.sameDir (he : Effect L S (s.vol L 1) a S' V') (hw : WF L S (s.vol L 1))
    (hA : Does L p c s a) (ht : Tame L p c s) (hc : ¬ c.Namespace)
    (hd : (s.vol L 1).IsDir n) : SameFile (s.vol L 1) V' n := by
  have hS := hw.used hd.inUse
  cases he with
  | none => exact .refl _ n
  | write mem wrote =>
      refine wrote.sameFile ?_ hS (hw.shaped hS)
      rintro rfl
      exact hA.not_isDir ht _ (Or.inl rfl) hd
  | cut mem cut =>
      refine cut.sameFile ?_ hS (hw.shaped hS)
      rintro rfl
      exact hA.not_isDir ht _ (Or.inr rfl) hd
  | create creates => exact absurd hA.1.namespace hc
  | remove removes =>
      obtain ⟨path, rfl, -⟩ := hA
      exact absurd trivial hc

/-- The call changes no directory through a descriptor, and if it may create it
finds an inode in the inode table. -/
def Moderate (L : Layout) (p : Fin PROCS_MAX) (c : Syscall) (s : KState) : Prop :=
  Tame L p c s ∧ (c.MayCreate → Room L s)

/-- In every run in which no call changes a directory through a descriptor and
none creates an inode behind the inode table, directories consist of whole
entries for inodes below `ninodes`, and the calls that do not change the name
space leave their contents alone. -/
theorem directories_of_reached (himg : d1.Consistent L) (hn : L.ninodes ≤ d1.super.ninodes)
    (hwhole : WholeEntries (d1.vol L)) (h : Reached (Moderate L) d0 d1 s) :
    (∀ n, (s.vol L 1).IsDir n → ((s.vol L 1).ino n).size % 32 = 0 ∧
        ∀ k < (s.vol L 1).nents n, ((s.vol L 1).ent n k).1 = 0 ∨
          ((s.vol L 1).ent n k).1 < d1.super.ninodes) ∧
      ∀ p c r s', Tame L p c s → ¬ c.Namespace → step p c s = .ok r s' →
        s'.disk 0 = s.disk 0 ∧
          ∀ n, (s.vol L 1).IsDir n → (s'.vol L 1).ino n = (s.vol L 1).ino n ∧
            (s'.vol L 1).content n = (s.vol L 1).content n := by
  obtain ⟨-, S, hd, hJ⟩ := h.invariant (J := fun _ => WholeEntries) himg
    (fun hP _ => ⟨hP.2, hP.1.write⟩) hwhole
    (fun hd hJ hP hA he => hJ.effect (hA.not_isDir hP.1) he)
  refine ⟨fun n hdir => ⟨hJ n hdir, fun k hk => ?_⟩, fun p c r s' ht hc hx => ?_⟩
  · exact (Nat.eq_zero_or_pos _).imp id fun h0 =>
      (hd.wf.lt (hd.wf.entries hdir hk (Nat.pos_iff_ne_zero.mp h0))).trans_le hn
  · obtain ⟨hsafe, -⟩ := (Serves.step .anySyscall s h.guard).of_ok hx
    obtain ⟨a, S', hA, he, -⟩ := step_performs hd h.guard.refs
      (fun hm => absurd hm.namespace hc) ht.write hx
    refine ⟨hsafe.disk, fun n hdir => ?_⟩
    have hs := he.sameDir hd.wf hA ht hc hdir
    exact ⟨hs.ino, hs.content⟩

end Runs

theorem formatted_wholeEntries {k : Fin 7} {dirs : List Listing}
    (hlen : dirs.length < 8 * tableBlocks k)
    (hdirs : ∀ l ∈ dirs, l.length ≤ 32) : WholeEntries (volumeOf k dirs) := by
  intro n hd
  rw [formatted_ino hlen hdirs, if_pos ((formatted_inUse hlen hdirs).mp hd.inUse)]
  exact Nat.mul_mod_right 32 _

/-- A file is made and written next to the root directory of the empty device. -/
theorem directories_of_reached_write :
    ∃ s r s', Reached (Moderate formattedLayout) systemDisk emptyDisk s ∧
      step 1 (.write 3 Buf.zero 5) s = .ok r s' ∧ r = 5 ∧
      (s'.vol formattedLayout 1).content 1 = (s.vol formattedLayout 1).content 1 := by
  have hrun : (playFrom (Tame formattedLayout) systemDisk emptyDisk
      [(1, .open pathA (FILECTRL_CREATE ||| FILECTRL_WRITEONLY))]).any (fun s =>
        decide (Tame formattedLayout 1 (.write 3 Buf.zero 5) s ∧
          (s.vol formattedLayout 1).IsDir 1) &&
        yields (step 1 (.write 3 Buf.zero 5)) (fun r _ => r == 5) s) = true := by decide +kernel
  obtain ⟨s, hs, hQ⟩ := Reached.of_playFrom hrun
  rw [Bool.and_eq_true, decide_eq_true_eq] at hQ
  obtain ⟨⟨htame, hdir⟩, hstep⟩ := hQ
  obtain ⟨r, s', hx, hr⟩ := exists_ok_of_yields hstep
  have hs' := hs.room (L := formattedLayout) (by decide)
  have h := (directories_of_reached emptyDisk_consistent (by decide)
    (formatted_wholeEntries (by decide) (by decide)) hs').2 1 _ r s' htame id hx
  exact ⟨s, r, s', hs', hx, beq_iff_eq.mp hr, (h.2 1 hdir).2⟩

/-- The root directory is opened for writing, and two bytes are written to it:
its content changes, and its first entry is for inode 65535. -/
theorem directories_not_kept :
    emptyDisk.Consistent formattedLayout ∧ WholeEntries (emptyDisk.vol formattedLayout) ∧
      ∃ s r s', Reached (fun _ _ _ => True) systemDisk emptyDisk s ∧
        step 1 (.write 3 (fun _ => 0xff) 2) s = .ok r s' ∧ (s.vol formattedLayout 1).IsDir 1 ∧
        (s'.vol formattedLayout 1).content 1 ≠ (s.vol formattedLayout 1).content 1 ∧
        ((s'.vol formattedLayout 1).ent 1 0).1 = 65535 := by
  refine ⟨emptyDisk_consistent, formatted_wholeEntries (by decide) (by decide), ?_⟩
  have hrun : (playFrom (fun _ _ _ => True) systemDisk emptyDisk
      [(1, .open ⟨homePath, by decide⟩ FILECTRL_WRITEONLY)]).any (fun s =>
        yields (step 1 (.write 3 (fun _ => 0xff) 2))
          (fun _ s' => decide ((s.vol formattedLayout 1).IsDir 1 ∧
            (s'.vol formattedLayout 1).content 1 ≠ (s.vol formattedLayout 1).content 1 ∧
            ((s'.vol formattedLayout 1).ent 1 0).1 = 65535)) s) = true := by decide +kernel
  obtain ⟨s, hs, hQ⟩ := Reached.of_playFrom hrun
  obtain ⟨r, s', hx, hQ⟩ := exists_ok_of_yields hQ
  exact ⟨s, r, s', hs, hx, of_decide_eq_true hQ⟩

end Dmaos
