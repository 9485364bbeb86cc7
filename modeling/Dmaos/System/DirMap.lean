import Dmaos.Lib.Slots
import Dmaos.System.Paths

/-!
# A directory is a finite map

The entries of a directory are slots for names and inode numbers, an entry with
inode number zero being an empty one (`Vol.slot`).  `dirlookup` looks a name up in
the map, `dirlink` adds a name, and the write with which `fs_rm` clears an entry
removes one.  All three rest on the same two facts: `strncmp` on a name of at most
29 bytes tells whether it is that of the entry, and writing an entry changes one
slot (`Wrote.slots`).
-/

namespace Dmaos

open Fault Function

variable {L : Layout} {S : Nat → Prop} {V V' : Vol} {n i k inum m : Nat} {x : List Byte} {src : Buf}

/-- Entry `i` of a directory, as a slot of a map from names to inode numbers. -/
def Vol.slot (V : Vol) (n i : Nat) : Option (List Byte × Nat) :=
  if (V.ent n i).1 = 0 then none else some ((V.ent n i).2, (V.ent n i).1)

/-- The map from names to inode numbers. -/
def Vol.dirMap (V : Vol) (n : Nat) : List Byte → Option Nat := Slots.find (V.slot n) (V.nents n)

/-- The content is a sequence of entries, those in use with different names. -/
structure IsMap (V : Vol) (n : Nat) : Prop where
  whole : (V.ino n).size % 32 = 0
  distinct : Slots.Distinct (V.slot n) (V.nents n)

/-- A name that fits in an entry: 1 to 29 bytes. -/
structure Short (x : List Byte) : Prop where
  noNul : 0 ∉ x
  pos : 1 ≤ x.length
  le : x.length ≤ 29

section Entries

theorem slot_eq_some_iff {y : List Byte} :
    V.slot n i = some (y, m) ↔ m ≠ 0 ∧ V.ent n i = (m, y) := by
  rw [Vol.slot]
  split
  case isTrue h0 =>
    constructor
    · intro h
      cases h
    · rintro ⟨hm, he⟩
      rw [he] at h0
      exact absurd h0 hm
  case isFalse h0 =>
    rw [Option.some.injEq, Prod.mk.injEq, Prod.ext_iff]
    constructor
    · rintro ⟨h2, h1⟩
      exact ⟨h1 ▸ h0, h1, h2⟩
    · rintro ⟨-, h1, h2⟩
      exact ⟨h2, h1⟩

/-- An entry with the name, as a slot. -/
theorem Short.named_iff (hx : Short x) :
    EntryNamed V n x i ↔ i < V.nents n ∧ ∃ m, V.slot n i = some (x, m) := by
  have hlen : x.length < DIRSIZ := Nat.lt_succ_of_le hx.le
  constructor
  · intro h
    have hname : (V.ent n i).2 = x := (matches_iff hx.noNul hlen).mp h.named
    exact ⟨h.lt, (V.ent n i).1, slot_eq_some_iff.mpr ⟨h.inum_ne, Prod.ext rfl hname⟩⟩
  · rintro ⟨hlt, m, hslot⟩
    obtain ⟨hm, he⟩ := slot_eq_some_iff.mp hslot
    have hname : (V.ent n i).2 = x := by rw [he]
    exact ⟨hlt, by rw [he]; exact hm, (matches_iff hx.noNul hlen).mpr hname⟩

/-- The name is in the map exactly if an entry has it. -/
theorem Short.dirMap_none_iff (hx : Short x) : V.dirMap n x = none ↔ ∀ i, ¬ EntryNamed V n x i := by
  rw [Vol.dirMap, Slots.find_eq_none_iff]
  constructor
  · intro h i hi
    obtain ⟨hlt, m, hslot⟩ := hx.named_iff.mp hi
    exact h i hlt m hslot
  · intro h i hi m hslot
    exact h i (hx.named_iff.mpr ⟨hi, m, hslot⟩)

theorem strncmpEq_self (b : Buf) : ∀ m i, strncmpEq b b m i = true
  | 0, _ => rfl
  | m + 1, i => by
      rw [strncmpEq, strncmpEq_self b m]
      simp

/-- `dirlink` writes 29 bytes of a name. -/
theorem newDirent_name_of_lt {j : Nat} (hj : j < 29) (x : List Byte) (inum : Nat) :
    Dirent.name (newDirent x inum) j = Buf.ofList x j := by
  have hcopy : Dirent.name (newDirent x inum) j
      = strncpy (Buf.put16 Buf.zero 0 inum) 2 x DIRSIZ (2 + j) :=
    update_of_ne (by simp only [DIRSIZ]; omega) _ _
  rw [hcopy, strncpy, Buf.copy_of_mem (by simp only [DIRSIZ]; omega), Nat.add_sub_cancel_left]

/-- The name of the entry that `dirlink` writes. -/
theorem Short.name_newDirent (hx : Short x) (inum : Nat) :
    cstr (Dirent.name (newDirent x inum)) DIRSIZ = x := by
  rw [← matches_iff hx.noNul (Nat.lt_succ_of_le hx.le), Matches,
    strncmpEq_congr (d := Buf.ofList x), strncmpEq_self]
  intro j _ hj
  simp only [DIRSIZ] at hj
  cases Decidable.em (j = 29) with
  | inl heq =>
      -- the last byte is set to NUL, and the name does not reach it
      have hlast : Buf.ofList x 29 = 0 := List.getD_eq_default _ _ hx.le
      rw [heq, hlast]
      simp [Dirent.name, newDirent, DIRSIZ]
  | inr hne => exact newDirent_name_of_lt (by omega) x inum

/-- Writing an entry writes a slot. -/
theorem Wrote.slots (h : Wrote L S n (32 * k) 32 src V V') (hs : V.Shaped n) (hk : k ≤ V.nents n) :
    Slots.Write (V.slot n) (V'.slot n) (V.nents n) (V'.nents n) k where
  le := hk
  count := h.nents
  others i hi hne := by
    have hi' : i < V'.nents n := by
      rw [h.nents]
      omega
    rw [Vol.slot, Vol.slot, (h.ent_of_ne hs hi' hne).2]

/-- Writing an entry is an update of the map at one name. -/
theorem IsMap.write (h : IsMap V n) (hw : Wrote L S n (32 * k) 32 src V V') (hs : V.Shaped n)
    (hk : k ≤ V.nents n) (hx : Slots.At (V.slot n) (V'.slot n) (V.nents n) k x) :
    IsMap V' n ∧ V'.dirMap n = update (V.dirMap n) x ((V'.slot n k).map Prod.snd) := by
  refine ⟨⟨?_, h.distinct.write (hw.slots hs hk) hx⟩,
    Slots.find_write h.distinct (hw.slots hs hk) hx⟩
  have hwhole := h.whole
  rw [hw.size]
  omega

end Entries

/-! ## The operations -/

section Operations

variable {dev : Nat} {dp : Fin NINODE} {s s' : KState}

/-- What `dirlookup` answers: nothing if the name is not in the map, and otherwise a
slot for the inode and the offset of the entry. -/
def LooksUp (L : Layout) (dev n : Nat) (x : List Byte) (s : KState) :
    Option (Fin NINODE × Nat) → KState → Prop
  | none, _ => (s.vol L dev).dirMap n x = none
  | some (ip, off), t => ∃ m i, (s.vol L dev).dirMap n x = some m ∧ i < (s.vol L dev).nents n ∧
      off = 32 * i ∧ (s.vol L dev).ent n i = (m, x) ∧ Holds dev m ip t

/-- `dirlookup` looks the name up. -/
theorem DirOn.dirlookup_looksUp (h : DirOn L S dev n dp s) (ho : Online L dev s)
    (hm : IsMap (s.vol L dev) n) (hx : Short x) :
    Ends (LooksUp L dev n x s) NoSlot (dirlookup dp x) s where
  stops := dirlookup_stops h ho
  ok := by
    intro o t hrun
    obtain ⟨t', -, hcase⟩ := dirlookup_ok h hrun
    rcases hcase with ⟨rfl, -, hnone⟩ | ⟨ip, i, rfl, hi, -, hg⟩
    · exact hx.dirMap_none_iff.mpr hnone
    · obtain ⟨hlt, m, hslot⟩ := hx.named_iff.mp hi
      have he := (slot_eq_some_iff.mp hslot).2
      rw [he] at hg
      exact ⟨m, i, (Slots.find_eq_some_iff hm.distinct).mpr ⟨i, hlt, hslot⟩, hlt, rfl, he,
        iget_holds hg⟩

/-- After an entry has been written, the slot is still ready for the directory. -/
theorem DirOn.wrote {off len : Nat} (h : DirOn L S dev n dp s)
    (ho : Owner L S dev n dp s') (hw : Wrote L S n off len src (s.vol L dev) (s'.vol L dev)) :
    DirOn L S dev n dp s' where
  toOwner := ho
  shaped := hw.shaped h.mem h.shaped
  isDir := hw.type_eq.trans h.isDir

/-- Where `dirlink` has put the entry: at the first one that was empty, or at the
end, in which case the directory is one entry longer. -/
def Placed (V V' : Vol) (n : Nat) (e : List Byte × Nat) : Prop :=
  (∃ k < V.nents n, V.slot n k = none ∧ (∀ j < k, V.slot n j ≠ none) ∧ V'.slot n k = some e ∧
    (V'.ino n).size = (V.ino n).size) ∨
  ((∀ j < V.nents n, V.slot n j ≠ none) ∧ V'.slot n (V.nents n) = some e ∧
    (V'.ino n).size = (V.ino n).size + 32)

/-- The first free entry. -/
theorem FreeEntry.placed {e : List Byte × Nat}
    (hk : FreeEntry V n k) (hleast : ∀ i, FreeEntry V n i → k ≤ i)
    (hw : Wrote L S n (32 * k) 32 src V V') (hslot : V'.slot n k = some e) : Placed V V' n e := by
  have hused : ∀ j < k, V.slot n j ≠ none := by
    intro j hj hnone
    have hzero : (V.ent n j).1 = 0 := by
      rw [Vol.slot] at hnone
      split at hnone
      · assumption
      · cases hnone
    have hle := hk.le
    have := hleast j ⟨by omega, fun _ => hzero, fun heq => by omega⟩
    omega
  cases Nat.eq_or_lt_of_le hk.le with
  | inl heq =>
      refine .inr ⟨fun j hj => hused j (by omega), heq ▸ hslot, ?_⟩
      have hsize := hk.size_eq heq
      rw [hw.size]
      omega
  | inr hlt =>
      refine .inl ⟨k, hlt, by rw [Vol.slot, if_pos (hk.inum_eq hlt)], hused, hslot, ?_⟩
      have hfits : 32 * k + 32 ≤ (V.ino n).size := by
        unfold Vol.nents at hlt
        omega
      rw [hw.size]
      omega

/-- What `dirlink` does to the map. -/
structure Linked (L : Layout) (S : Nat → Prop) (dev n : Nat) (dp : Fin NINODE) (x : List Byte)
    (inum : Nat) (s s' : KState) : Prop where
  absent : (s.vol L dev).dirMap n x = none
  added : (s'.vol L dev).dirMap n = update ((s.vol L dev).dirMap n) x (some inum)
  placed : Placed (s.vol L dev) (s'.vol L dev) n (x, inum)
  isMap : IsMap (s'.vol L dev) n
  dirOn : DirOn L S dev n dp s'

/-- `dirlink` fails on a name that is in the map, and adds one that is not. -/
theorem DirOn.dirlink_links {r : Int} (h : DirOn L S dev n dp s) (hm : IsMap (s.vol L dev) n)
    (hx : Short x) (h0 : 0 < inum) (hlt : inum < 65536) (hrun : dirlink dp x inum s = .ok r s') :
    ((s.vol L dev).dirMap n x ≠ none → r = -1 ∧ s'.disk = s.disk) ∧
      (r = 0 → Linked L S dev n dp x inum s s') := by
  obtain ⟨t, hc, hcase⟩ := dirlink_inv h hrun
  rcases hcase with ⟨rfl, ip, i, t₁, hi, hg, hp⟩ | ⟨habs, hcase⟩
  · refine ⟨fun _ => ⟨rfl, ?_⟩, fun hr => absurd hr (by decide)⟩
    rw [(Idle.iput.of_ok hp).disk, (Idle.iget.of_ok hg).disk, hc.disk]
  · have hnone := hx.dirMap_none_iff.mpr habs
    refine ⟨fun hsome => absurd hnone hsome, fun hr => ?_⟩
    rcases hcase with ⟨rfl, -⟩ | ⟨k, w, hk, hleast, hw, rfl⟩
    · exact absurd hr (by decide)
    · have h₁ := h.of_calm hc
      obtain ⟨ho, hout⟩ := writei_ok h₁.toSound h₁.dev_eq h₁.inum_eq h₁.lt h₁.mem hw
      rw [hc.vol_eq] at hout
      rcases hout with ⟨-, rfl, -⟩ | ⟨hin, -, hwr, hsize⟩
      · exact absurd hr (by decide)
      · have hwrote : Wrote L S n (32 * k) 32 (newDirent x inum) (s.vol L dev) (s'.vol L dev) :=
          ⟨hwr, hin.1, hin.2, hsize⟩
        have hslot : (s'.vol L dev).slot n k = some (x, inum) := by
          refine slot_eq_some_iff.mpr ⟨Nat.ne_of_gt h0, ?_⟩
          rw [hwrote.ent_self, inum_newDirent, hx.name_newDirent,
            Nat.mod_eq_of_lt (show inum < 2 ^ 16 from hlt)]
        have hat : Slots.At ((s.vol L dev).slot n) ((s'.vol L dev).slot n) ((s.vol L dev).nents n) k
            x := by
          refine ⟨fun hlt' y v hv => ?_, fun y v hv => ?_, fun i hi _ v hv => ?_⟩
          · obtain ⟨hv0, he⟩ := slot_eq_some_iff.mp hv
            have hzero := hk.inum_eq hlt'
            rw [he] at hzero
            exact absurd hzero hv0
          · rw [hslot] at hv
            cases hv
            rfl
          · exact habs i (hx.named_iff.mpr ⟨hi, v, hv⟩)
        obtain ⟨hmap, hupd⟩ := hm.write hwrote h.shaped hk.le hat
        rw [hslot] at hupd
        exact ⟨hnone, hupd, hk.placed hleast hwrote hslot, hmap, h.wrote ho hwrote⟩

/-- What clearing an entry does to the map. -/
structure Cleared (L : Layout) (S : Nat → Prop) (dev n : Nat) (dp : Fin NINODE) (x : List Byte)
    (s s' : KState) : Prop where
  removed : (s'.vol L dev).dirMap n = update ((s.vol L dev).dirMap n) x none
  isMap : IsMap (s'.vol L dev) n
  dirOn : DirOn L S dev n dp s'

/-- The write with which `fs_rm` clears the entry of a name removes the name. -/
theorem DirOn.clear_removes {w : Int} (h : DirOn L S dev n dp s)
    (hm : IsMap (s.vol L dev) n) (hi : i < (s.vol L dev).nents n) (h0 : m ≠ 0)
    (he : (s.vol L dev).ent n i = (m, x))
    (hrun : writei dp Buf.zero (32 * i) direntSize s = .ok w s') :
    w = direntSize ∧ Cleared L S dev n dp x s s' := by
  rw [direntSize_eq] at hrun
  have hold : (s.vol L dev).slot n i = some (x, m) := slot_eq_some_iff.mpr ⟨h0, he⟩
  have hle : 32 * i + 32 ≤ ((s.vol L dev).ino n).size := by
    unfold Vol.nents at hi
    omega
  have hmax := h.shaped.size_le
  obtain ⟨ho, hout⟩ := writei_ok h.toSound h.dev_eq h.inum_eq h.lt h.mem hrun
  rcases hout with ⟨hnot, -⟩ | ⟨hin, hw, hwr, hsize⟩
  · exact absurd ⟨by omega, by omega⟩ hnot
  · have hwrote : Wrote L S n (32 * i) 32 Buf.zero (s.vol L dev) (s'.vol L dev) :=
      ⟨hwr, hin.1, hin.2, hsize⟩
    have hslot : (s'.vol L dev).slot n i = none := by
      rw [Vol.slot, hwrote.ent_self, if_pos]
      exact Buf.le16_zero 0
    have hat : Slots.At ((s.vol L dev).slot n) ((s'.vol L dev).slot n) ((s.vol L dev).nents n) i
        x := by
      refine ⟨fun _ y v hv => ?_, fun y v hv => ?_, fun j hj hji v hv => ?_⟩
      · rw [hold] at hv
        cases hv
        rfl
      · rw [hslot] at hv
        cases hv
      · exact hji (hm.distinct j hj i hi x v m hv hold)
    obtain ⟨hmap, hupd⟩ := hm.write hwrote h.shaped (Nat.le_of_lt hi) hat
    rw [hslot] at hupd
    exact ⟨hw, hupd, hmap, h.wrote ho hwrote⟩

/-- A directory is a finite map from names to inode numbers: `dirlookup` reads it,
`dirlink` adds a name that is not there, and the write of `fs_rm` at the offset of an
entry removes its name. -/
theorem directory_is_map (h : DirOn L S dev n dp s) (ho : Online L dev s)
    (hm : IsMap (s.vol L dev) n) (hx : Short x) :
    Ends (LooksUp L dev n x s) NoSlot (dirlookup dp x) s ∧
    (∀ inum r s', 0 < inum → inum < 65536 → dirlink dp x inum s = .ok r s' →
      ((s.vol L dev).dirMap n x ≠ none → r = -1 ∧ s'.disk = s.disk) ∧
      (r = 0 → Linked L S dev n dp x inum s s')) ∧
    ∀ i m w s', i < (s.vol L dev).nents n → m ≠ 0 → (s.vol L dev).ent n i = (m, x) →
      writei dp Buf.zero (32 * i) direntSize s = .ok w s' →
      w = direntSize ∧ Cleared L S dev n dp x s s' :=
  ⟨h.dirlookup_looksUp ho hm hx, fun _ _ _ h0 hlt hrun => h.dirlink_links hm hx h0 hlt hrun,
    fun _ _ _ _ hi h0 he hrun => h.clear_removes hm hi h0 he hrun⟩

end Operations

/-! ## The root directory of a formatted device -/

section Root

variable {t : KState} {u : Unit}

theorem rootHeld_dirOn (hl : ilock 0 rootHeld = .ok u t) :
    DirOn formattedLayout (fun n => 0 < n ∧ n ≤ 1) 1 1 0 t where
  toOwner := Owner.of_ilock hl rootHeld_consistent.toSound rfl rfl (by decide)
    ⟨by decide, by decide⟩
  shaped := by
    rw [ilock_vol hl]
    exact emptyDisk_consistent.wf.shaped emptyDisk_consistent.wf.root
  isDir := by
    have hdirs : ∀ l ∈ [[(1, dot), (1, dotdot)]], l.length ≤ 32 := by simp
    rw [ilock_vol hl, rootHeld_vol, Vol.IsDir, formatted_ino (by decide) hdirs, if_pos (by decide)]

theorem rootHeld_isMap : IsMap (rootHeld.vol formattedLayout 1) 1 where
  whole := by decide +kernel
  distinct := Slots.distinct_of_keys (by decide +kernel)

/-- A name is added to the root directory of a formatted device. -/
theorem directory_is_map_root :
    ∃ t s', ilock 0 rootHeld = .ok () t ∧ dirlink 0 [0x61] 5 t = .ok 0 s' ∧
    (s'.vol formattedLayout 1).dirMap 1
      = update ((t.vol formattedLayout 1).dirMap 1) [0x61] (some 5) := by
  have hok : yields (ilock 0 >>= fun _ => dirlink 0 [0x61] 5) (fun r _ => r == 0) rootHeld
      = true := by
    decide +kernel
  obtain ⟨r, s', hrun, hr⟩ := exists_ok_of_yields hok
  obtain rfl := beq_iff_eq.mp hr
  obtain ⟨u, t, hl, hlink⟩ := bind_ok.mp hrun
  have hmap : IsMap (t.vol formattedLayout 1) 1 := by
    rw [ilock_vol hl]
    exact rootHeld_isMap
  have hc := Calm.ilock.of_ok hl
  have honline : Online formattedLayout 1 t := rootHeld_online.congr hc.sb (by rw [hc.disk])
  obtain ⟨-, hlinks, -⟩ := directory_is_map (x := [0x61]) (rootHeld_dirOn hl) honline hmap
    ⟨by decide, by decide, by decide⟩
  exact ⟨t, s', hl, hlink, ((hlinks 5 0 s' (by decide) (by decide) hlink).2 rfl).added⟩

/-- With a full cache, a name that is in the map is not looked up. -/
theorem dirlookup_stops_full :
    ∃ s t, Reached (fun _ _ _ => True) (formattedOn 6 wideDirs) nestedDisk s ∧
    DirOn (layoutOf 6) wideTree.mem 0 1 0 s ∧ Online (layoutOf 6) 0 s ∧
    IsMap (s.vol (layoutOf 6) 0) 1 ∧ (s.vol (layoutOf 6) 0).dirMap 1 homeName = some 2 ∧
    dirlookup 0 homeName s = .error (.iget 0 2) t := by
  obtain ⟨s, hs, hmounted, -, hready, -, hstops⟩ := crowded
  obtain ⟨t, hx⟩ := exists_error_of_stopsFull hstops
  have hsys := hmounted.sys
  have hmem : wideTree.mem 1 := wideTree.root_mem
  obtain ⟨-, hdisk, hsb⟩ := hs.system
  have hvol : s.vol (layoutOf 6) 0 = volumeOf 6 wideDirs := by
    unfold KState.vol KState.blk
    rw [hdisk, hsb]
    rfl
  refine ⟨s, t, hs, ?_, hsys.toOnline, ?_, ?_, hx⟩
  · exact
      { toReady := hready, own := hsys.own, reserved := hsys.reserved, mem := hmem,
        shaped := hsys.tree.shaped hmem, isDir := (hsys.tree.isDir hmem).mp rfl }
  · rw [hvol]
    exact ⟨by decide +kernel, Slots.distinct_of_keys (by decide +kernel)⟩
  · rw [hvol]
    decide +kernel

end Root

end Dmaos
