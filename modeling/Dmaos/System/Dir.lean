import Dmaos.System.Disk

/-!
# Reading and writing directories

The loops over the entries of a directory: `dirlookup` finds the first entry
with a name, `dirlink` writes an entry at the first free place,
`is_dir_empty` looks for an entry other than `.` and `..`.  Their
specifications speak of the entries `Vol.ent` of the directory.
-/

namespace Dmaos

open Fault Function KState Vol

variable {L : Layout} {S : Nat → Prop} {n dev k : Nat} {dp : Fin NINODE} {s s' : KState}
  {name : List Byte} {V : Vol} {r : Int}

/-- Slot `dp` is for directory `n` of device 1 and has been read. -/
structure DirAt (L : Layout) (n : Nat) (dp : Fin NINODE) (s : KState) : Prop
    extends Holds 1 n dp s where
  valid : (s.inodeTable dp).valid = true
  isDir : (s.vol L 1).IsDir n

section Read

theorem DirAt.mem (h : DirAt L n dp s) (hs : Disk L S s) : S n := (hs.held h.toHolds).1

theorem DirAt.ready (h : DirAt L n dp s) (hs : Disk L S s) : Ready L 1 n dp s :=
  { toCached := hs.toCached, toHolds := h.toHolds, lt := hs.wf.lt (h.mem hs), valid := h.valid }

theorem Calm.vol_eq (h : Calm s s') : s'.vol L dev = s.vol L dev :=
  vol_congr (by rw [h.disk]) h.sb

theorem DirAt.of_calm (h : DirAt L n dp s) (hc : Calm s s') : DirAt L n dp s' where
  ref := by rw [hc.ref]; exact h.ref
  dev_eq := by rw [hc.dev]; exact h.dev_eq
  inum_eq := by rw [hc.inum]; exact h.inum_eq
  valid := hc.valid h.valid
  isDir := by rw [hc.vol_eq]; exact h.isDir

theorem Ready.of_calm (h : Ready L dev n dp s) (hc : Calm s s') : Ready L dev n dp s' :=
  { toCached := h.toCached.of_calm hc
    ref := by rw [hc.ref]; exact h.ref
    dev_eq := by rw [hc.dev]; exact h.dev_eq
    inum_eq := by rw [hc.inum]; exact h.inum_eq
    lt := h.lt
    valid := hc.valid h.valid }

/-- What is kept of a directory when its slot is referred to. -/
theorem DirAt.of_kept (h : DirAt L n dp s) (hk : (s.inodeTable dp).Kept (s'.inodeTable dp))
    (href : 0 < (s'.inodeTable dp).ref) (hd : (s'.vol L 1).IsDir n) : DirAt L n dp s' where
  ref := href
  dev_eq := by rw [hk.dev]; exact h.dev_eq
  inum_eq := by rw [hk.inum]; exact h.inum_eq
  valid := hk.valid h.valid
  isDir := hd

/-- Slot `dp` is ready for directory `n` of device `dev`, and the directory has
the blocks its size calls for. -/
structure DirOn (L : Layout) (S : Nat → Prop) (dev n : Nat) (dp : Fin NINODE) (s : KState) : Prop
    extends Owner L S dev n dp s where
  shaped : (s.vol L dev).Shaped n
  isDir : (s.vol L dev).IsDir n

theorem DirAt.on (h : DirAt L n dp s) (hs : Disk L S s) : DirOn L S 1 n dp s :=
  { toReady := h.ready hs, own := hs.wf.own, reserved := hs.reserved, mem := h.mem hs,
    shaped := hs.wf.shaped (h.mem hs), isDir := h.isDir }

theorem DirOn.of_calm (h : DirOn L S dev n dp s) (hc : Calm s s') : DirOn L S dev n dp s' :=
  { toReady := h.toReady.of_calm hc
    own := by rw [hc.vol_eq]; exact h.own
    reserved := by rw [hc.vol_eq, hc.sb]; exact h.reserved
    mem := h.mem
    shaped := by rw [hc.vol_eq]; exact h.shaped
    isDir := by rw [hc.vol_eq]; exact h.isDir }

theorem direntSize_eq : direntSize = 32 := rfl

/-- An entry is read as a whole, or not at all. -/
theorem readDirent_ok {o : Option Dirent} (h : DirOn L S dev n dp s)
    (hk : 32 * k < ((s.vol L dev).ino n).size) (hx : readDirent dp (32 * k) s = .ok o s') :
    Calm s s' ∧ (o = none ∧ (s.vol L dev).nents n ≤ k ∨
      ∃ de, o = some de ∧ k < (s.vol L dev).nents n ∧
        ∀ i < 32, de i = (s.vol L dev).dirent n k i) := by
  refine ⟨Calm.of_ok .readDirent hx, ?_⟩
  have hle := h.shaped.size_le
  simp only [maxSize] at hle
  obtain ⟨⟨r, bytes⟩, t, hr, hx⟩ := bind_ok.mp hx
  obtain ⟨-, -, -, hres⟩ := readi_ok h.toSound h.dev_eq h.inum_eq h.lt h.mem (by decide) hr
  have htype : ((s.vol L dev).ino n).type ≠ 0 := by
    rw [h.isDir]
    decide
  rw [if_pos ⟨htype, by omega, by rw [direntSize_eq]; omega⟩, direntSize_eq] at hres
  obtain ⟨rfl, rfl⟩ := Prod.mk.inj hres
  dsimp only at hx
  unfold nents
  by_cases h32 : 32 * k + 32 ≤ ((s.vol L dev).ino n).size
  · rw [if_pos (by rw [direntSize_eq]; omega)] at hx
    obtain ⟨rfl, rfl⟩ := pure_ok.mp hx
    refine Or.inr ⟨_, rfl, by omega, fun i hi => ?_⟩
    have hlen : 32 * k + i < ((s.vol L dev).content n).length := by
      rw [length_content]
      omega
    have hget : i < ((((s.vol L dev).content n).drop (32 * k)).take 32).length := by
      rw [List.length_take, List.length_drop]
      omega
    unfold Buf.ofList
    rw [List.getD_eq_getElem _ _ hget, List.getElem_take, List.getElem_drop,
      getElem_content hlen]
    rfl
  · rw [if_neg (by rw [direntSize_eq]; omega)] at hx
    obtain ⟨rfl, rfl⟩ := pure_ok.mp hx
    exact Or.inl ⟨rfl, by omega⟩

end Read

/-! ## Names -/

/-- Does a name match the name of an entry? -/
def Matches (name : List Byte) (de : Dirent) : Prop :=
  strncmpEq (Buf.ofList name) de.name DIRSIZ 0 = true

instance (name : List Byte) (de : Dirent) : Decidable (Matches name de) := by
  unfold Matches
  infer_instance

theorem strncmpEq_congr {b c d : Buf} : ∀ {m i : Nat}, (∀ j, i ≤ j → j < i + m → c j = d j) →
    strncmpEq b c m i = strncmpEq b d m i
  | 0, _, _ => rfl
  | m + 1, i, h => by
      unfold strncmpEq
      rw [h i (by omega) (by omega), strncmpEq_congr fun j h1 h2 => h j (by omega) (by omega)]

theorem Matches.congr {d e : Dirent} (h : ∀ i < 32, d i = e i) :
    Matches name d ↔ Matches name e := by
  unfold Matches
  rw [strncmpEq_congr]
  intro j _ hj
  refine h _ ?_
  simp only [DIRSIZ] at hj
  omega

/-! ## `dirlookup` -/

/-- Entry `k` of directory `n` is in use and has the name. -/
structure EntryNamed (V : Vol) (n : Nat) (name : List Byte) (k : Nat) : Prop where
  lt : k < V.nents n
  inum_ne : (V.ent n k).1 ≠ 0
  named : Matches name (V.dirent n k)

theorem EntryNamed.congr {V' : Vol} (hs : SameFile V V' n)
    (h : EntryNamed V' n name k) : EntryNamed V n name k := by
  have hk : k < V.nents n := by
    rw [← hs.nents]
    exact h.lt
  exact ⟨hk, by rw [← hs.ent hk]; exact h.inum_ne, (Matches.congr (hs.dirent hk)).mp h.named⟩

section Lookup

/-- The loop of `dirlookup` from entry `j` on. -/
theorem dirlookupLoop_ok :
    ∀ {k j : Nat} {o : Option (Fin NINODE × Nat)} {s : KState}, DirOn L S dev n dp s →
      (s.vol L dev).nents n < j + k → dirlookupLoop dp name k (32 * j) s = .ok o s' →
      ∃ t, Calm s t ∧
        (o = none ∧ t = s' ∧ (∀ i, j ≤ i → ¬ EntryNamed (s.vol L dev) n name i) ∨
          ∃ ip i, o = some (ip, 32 * i) ∧ j ≤ i ∧ EntryNamed (s.vol L dev) n name i ∧
            (∀ i', j ≤ i' → i' < i → ¬ EntryNamed (s.vol L dev) n name i') ∧
            iget dev ((s.vol L dev).ent n i).1 t = .ok ip s')
  | 0, j, o, s, h, hk, hx => by
      obtain ⟨rfl, rfl⟩ := pure_ok.mp hx
      refine ⟨s, .refl s, Or.inl ⟨rfl, rfl, fun i hi hi' => ?_⟩⟩
      have := hi'.lt
      omega
  | k + 1, j, o, s, h, hk, hx => by
      unfold dirlookupLoop at hx
      replace hx := inodeAt_then hx
      rw [h.size] at hx
      split_ifs at hx with hsize
      · -- Past the end of the directory.
        obtain ⟨rfl, rfl⟩ := pure_ok.mp hx
        refine ⟨s, .refl s, Or.inl ⟨rfl, rfl, fun i hi hi' => ?_⟩⟩
        have := hi'.lt
        unfold nents at this
        omega
      · obtain ⟨o', t, hr, hx⟩ := bind_ok.mp hx
        obtain ⟨hc, hcase⟩ := readDirent_ok h (by omega) hr
        rcases hcase with ⟨rfl, hend⟩ | ⟨de, rfl, hj, hde⟩
        · obtain ⟨rfl, rfl⟩ := pure_ok.mp hx
          refine ⟨_, hc, Or.inl ⟨rfl, rfl, fun i hi hi' => ?_⟩⟩
          have := hi'.lt
          omega
        · have hinum : de.inum = ((s.vol L dev).ent n j).1 := Dirent.inum_congr hde
          simp only [hinum] at hx
          by_cases he : EntryNamed (s.vol L dev) n name j
          · have hm : strncmpEq (Buf.ofList name) de.name DIRSIZ 0 = true :=
              (Matches.congr hde).mpr he.named
            rw [if_neg he.inum_ne, if_pos hm] at hx
            obtain ⟨ip, t', hg, hx⟩ := bind_ok.mp hx
            obtain ⟨rfl, rfl⟩ := pure_ok.mp hx
            rw [h.dev_eq] at hg
            refine ⟨t, hc, Or.inr ⟨ip, j, rfl, Nat.le_refl j, he, fun i' h1 h2 => ?_, hg⟩⟩
            omega
          · -- The rest of the loop, from the next entry on.
            have hrest : dirlookupLoop dp name k (32 * j + direntSize) t = .ok o s' := by
              split_ifs at hx with h0 hm
              · exact hx
              · exact absurd ⟨hj, h0, (Matches.congr hde).mp hm⟩ he
              · exact hx
            rw [direntSize_eq, show 32 * j + 32 = 32 * (j + 1) by omega] at hrest
            obtain ⟨t', hc', hcase⟩ :=
              dirlookupLoop_ok (h.of_calm hc) (by rw [hc.vol_eq]; omega) hrest
            rw [hc.vol_eq] at hcase
            refine ⟨t', trans_of Calm hc hc', ?_⟩
            have skip : ∀ i, j ≤ i → (j + 1 ≤ i → ¬ EntryNamed (s.vol L dev) n name i) →
                ¬ EntryNamed (s.vol L dev) n name i := by
              intro i hi hlater
              by_cases hij : i = j
              · rwa [hij]
              · exact hlater (by omega)
            rcases hcase with ⟨ho, ht', hall⟩ | ⟨ip, i, ho, hji, hi, hbefore, hg⟩
            · exact Or.inl ⟨ho, ht', fun i hi => skip i hi (hall i)⟩
            · refine Or.inr ⟨ip, i, ho, by omega, hi, fun i' h1 h2 => ?_, hg⟩
              exact skip i' h1 fun h3 => hbefore i' h3 h2

/-- `dirlookup` in a directory returns the first entry with the
name, and a reference to its inode. -/
theorem dirlookup_ok {o : Option (Fin NINODE × Nat)} (h : DirOn L S dev n dp s)
    (hx : dirlookup dp name s = .ok o s') :
    ∃ t, Calm s t ∧
      (o = none ∧ t = s' ∧ (∀ i, ¬ EntryNamed (s.vol L dev) n name i) ∨
        ∃ ip i, o = some (ip, 32 * i) ∧ EntryNamed (s.vol L dev) n name i ∧
          (∀ i' < i, ¬ EntryNamed (s.vol L dev) n name i') ∧
          iget dev ((s.vol L dev).ent n i).1 t = .ok ip s') := by
  unfold dirlookup at hx
  replace hx := inodeAt_then hx
  rw [h.type, h.isDir.type_eq, if_neg (fun hc => hc rfl)] at hx
  obtain ⟨u, t, hl, hx⟩ := bind_ok.mp hx
  have hc := Calm.ilock.of_ok hl
  replace hx := inodeAt_then hx
  have h' := h.of_calm hc
  rw [h'.size] at hx
  obtain ⟨t', hc', hcase⟩ := dirlookupLoop_ok (j := 0) h'
    (by simp only [nents, direntSize_eq]; omega) hx
  rw [hc.vol_eq] at hcase
  refine ⟨t', trans_of Calm hc hc', ?_⟩
  rcases hcase with ⟨ho, ht', hall⟩ | ⟨ip, i, ho, -, hi, hbefore, hg⟩
  · exact Or.inl ⟨ho, ht', fun i => hall i (Nat.zero_le i)⟩
  · exact Or.inr ⟨ip, i, ho, hi, fun i' h2 => hbefore i' (Nat.zero_le i') h2, hg⟩

/-- The inode `dirlookup` finds is in `S`. -/
theorem EntryNamed.mem (h : EntryNamed V n name k) (hw : WF L S V)
    (hd : V.IsDir n) : Named S (V.ent n k).1 :=
  .of_lt (hw.entries hd h.lt h.inum_ne) (Buf.le16_lt _ _)

end Lookup

/-! ## `dirlink` -/

theorem inum_newDirent (name : List Byte) (inum : Nat) :
    (newDirent name inum).inum = inum % 2 ^ 16 := by
  rw [← Buf.le16_put16 Buf.zero 0 inum]
  refine Buf.le16_congr ?_ ?_
  · unfold newDirent
    rw [update_of_ne (by decide)]
    exact Buf.copy_of_not_mem (by omega)
  · unfold newDirent
    rw [update_of_ne (by decide)]
    exact Buf.copy_of_not_mem (by omega)

/-- Where `dirlink` puts a new entry: the place of an entry that is not in use,
or the end of the directory. -/
structure FreeEntry (V : Vol) (n k : Nat) : Prop where
  le : k ≤ V.nents n
  inum_eq : k < V.nents n → (V.ent n k).1 = 0
  size_eq : k = V.nents n → (V.ino n).size = 32 * k

section Link

variable {inum : Nat}

/-- The loop of `dirlink` from entry `j` on. -/
theorem dirlinkLoop_ok :
    ∀ {k j : Nat} {o : Option Nat} {s : KState}, DirOn L S dev n dp s →
      j ≤ (s.vol L dev).nents n → (s.vol L dev).nents n < j + k →
      dirlinkLoop dp k (32 * j) s = .ok o s' →
      (o = none ∧ ((s.vol L dev).ino n).size % 32 ≠ 0 ∨
        ∃ i, o = some (32 * i) ∧ FreeEntry (s.vol L dev) n i) ∧
      ∀ i, j ≤ i → FreeEntry (s.vol L dev) n i → ∃ i' ≤ i, o = some (32 * i')
  | 0, j, o, s, h, hj, hk, hx => by omega
  | k + 1, j, o, s, h, hj, hk, hx => by
      unfold dirlinkLoop at hx
      replace hx := inodeAt_then hx
      rw [h.size] at hx
      split_ifs at hx with hsize
      · obtain ⟨rfl, rfl⟩ := pure_ok.mp hx
        unfold nents at hj
        refine ⟨Or.inr ⟨j, rfl, hj, fun hlt => ?_, fun _ => by omega⟩, fun i hi _ => ⟨j, hi, rfl⟩⟩
        unfold nents at hlt
        omega
      · obtain ⟨o', t, hr, hx⟩ := bind_ok.mp hx
        obtain ⟨hc, hcase⟩ := readDirent_ok h (by omega) hr
        rcases hcase with ⟨rfl, hend⟩ | ⟨de, rfl, hjlt, hde⟩
        · obtain ⟨rfl, rfl⟩ := pure_ok.mp hx
          refine ⟨Or.inl ⟨rfl, ?_⟩, fun i hi hfree => ?_⟩
          · unfold nents at hend hj
            omega
          · have heq : i = (s.vol L dev).nents n := by
              have := hfree.le
              omega
            have := hfree.size_eq heq
            omega
        · have hinum : de.inum = ((s.vol L dev).ent n j).1 := Dirent.inum_congr hde
          simp only [hinum] at hx
          split_ifs at hx with h0
          · obtain ⟨rfl, rfl⟩ := pure_ok.mp hx
            exact ⟨Or.inr ⟨j, rfl, hj, fun _ => h0, fun he => by omega⟩, fun i hi _ => ⟨j, hi, rfl⟩⟩
          · rw [direntSize_eq, show 32 * j + 32 = 32 * (j + 1) by omega] at hx
            obtain ⟨hcase, hfirst⟩ := dirlinkLoop_ok (h.of_calm hc)
              (by rw [hc.vol_eq]; omega) (by rw [hc.vol_eq]; omega) hx
            rw [hc.vol_eq] at hcase hfirst
            refine ⟨hcase, fun i hi hfree => hfirst i ?_ hfree⟩
            -- Entry `j` is in use.
            rcases Nat.eq_or_lt_of_le hi with rfl | hlt
            · exact absurd (hfree.inum_eq hjlt) h0
            · exact hlt

/-- What a call of `dirlink` that returns has done.  It found the name, or could not
read an entry, or wrote the new entry at the first free place. -/
theorem dirlink_inv (h : DirOn L S dev n dp s) (hx : dirlink dp name inum s = .ok r s') :
    ∃ t, Calm s t ∧
      ((r = -1 ∧ ∃ ip i t₁, EntryNamed (s.vol L dev) n name i ∧
          iget dev ((s.vol L dev).ent n i).1 t = .ok ip t₁ ∧ iput ip t₁ = .ok () s') ∨
        (∀ i, ¬ EntryNamed (s.vol L dev) n name i) ∧
          (r = -1 ∧ t = s' ∧ ((s.vol L dev).ino n).size % 32 ≠ 0 ∧
              (∀ i, ¬ FreeEntry (s.vol L dev) n i) ∨
            ∃ k w, FreeEntry (s.vol L dev) n k ∧ (∀ i, FreeEntry (s.vol L dev) n i → k ≤ i) ∧
              writei dp (newDirent name inum) (32 * k) 32 t = .ok w s' ∧
              r = if w = 32 then 0 else -1)) := by
  unfold dirlink at hx
  obtain ⟨o, t, hl, hx⟩ := bind_ok.mp hx
  obtain ⟨t₁, hc, hcase⟩ := dirlookup_ok h hl
  rcases hcase with ⟨rfl, rfl, hnone⟩ | ⟨ip, i, rfl, hi, -, hg⟩
  · -- There is no such entry yet.
    obtain ⟨u, t₂, hlk, hx⟩ := bind_ok.mp hx
    have hc₂ := trans_of Calm hc (Calm.ilock.of_ok hlk)
    replace hx := inodeAt_then hx
    have h₂ := h.of_calm hc₂
    rw [h₂.size] at hx
    obtain ⟨o', t₄, hloop, hx⟩ := bind_ok.mp hx
    obtain ⟨hfree, hfirst⟩ := dirlinkLoop_ok (j := 0) h₂ (Nat.zero_le _)
      (by simp only [nents, direntSize_eq]; omega) hloop
    have hc₄ := trans_of Calm hc₂ (.of_ok .dirlinkLoop hloop)
    rw [hc₂.vol_eq] at hfree hfirst
    refine ⟨t₄, hc₄, Or.inr ⟨hnone, ?_⟩⟩
    rcases hfree with ⟨rfl, hrag⟩ | ⟨k, rfl, hk⟩
    · obtain ⟨rfl, rfl⟩ := pure_ok.mp hx
      refine Or.inl ⟨rfl, rfl, hrag, fun i hi => ?_⟩
      obtain ⟨i', -, ho⟩ := hfirst i (Nat.zero_le i) hi
      cases ho
    · obtain ⟨w, t₅, hw, hx⟩ := bind_ok.mp hx
      have hleast : ∀ i, FreeEntry (s.vol L dev) n i → k ≤ i := by
        intro i hi
        obtain ⟨i', hle, ho⟩ := hfirst i (Nat.zero_le i) hi
        rw [Option.some.injEq] at ho
        omega
      refine Or.inr ⟨k, w, hk, hleast, ?_⟩
      rw [direntSize_eq] at hw hx
      split_ifs at hx with h32
      · obtain ⟨rfl, rfl⟩ := pure_ok.mp hx
        exact ⟨hw, (if_pos h32).symm⟩
      · obtain ⟨rfl, rfl⟩ := pure_ok.mp hx
        exact ⟨hw, (if_neg h32).symm⟩
  · -- The entry exists; the reference to its inode is given back.
    obtain ⟨u, t₂, hp, hx⟩ := bind_ok.mp hx
    obtain ⟨rfl, rfl⟩ := pure_ok.mp hx
    exact ⟨t₁, hc, Or.inl ⟨rfl, ip, i, t, hi, hg, hp⟩⟩

/-- `dirlink` writes the new entry, or fails and changes nothing: when there is
an entry with the name, or the directory cannot be read or extended, so that no
free place is left. -/
theorem dirlink_ok (hs : Disk L S s) (h : DirAt L n dp s)
    (hS : inum % 2 ^ 16 ≠ 0 → S (inum % 2 ^ 16)) (hx : dirlink dp name inum s = .ok r s') :
    Disk L S s' ∧
      (r = -1 ∧ s'.vol L 1 = s.vol L 1 ∧
          ((∃ i, EntryNamed (s.vol L 1) n name i) ∨
            (((s.vol L 1).ino n).size % 32 ≠ 0 ∨ maxSize < ((s.vol L 1).ino n).size + 32) ∧
              ∀ k, FreeEntry (s.vol L 1) n k → maxSize < 32 * k + 32) ∨
        r = 0 ∧ ∃ k, FreeEntry (s.vol L 1) n k ∧
          Wrote L S n (32 * k) 32 (newDirent name inum) (s.vol L 1) (s'.vol L 1)) := by
  obtain ⟨t, hc, hcase⟩ := dirlink_inv (h.on hs) hx
  have hs₁ := hs.of_calm hc
  have h₁ := h.of_calm hc
  rcases hcase with ⟨rfl, ip, i, t₁, hi, hg, hp⟩ | ⟨-, hcase⟩
  · have hidle := Idle.iget.of_ok hg
    have hs₂ := hs₁.iget hg (Or.inr ⟨rfl, hi.mem hs.wf h.isDir⟩)
    have hidle₂ := Idle.iput.of_ok hp
    refine ⟨hs₂.iput hp, Or.inl ⟨rfl, ?_, Or.inl ⟨i, hi⟩⟩⟩
    rw [vol_congr (by rw [hidle₂.disk]) hidle₂.sb,
      vol_congr (by rw [hidle.disk]) hidle.sb, hc.vol_eq]
  rcases hcase with ⟨rfl, rfl, hrag, hfull⟩ | ⟨k, w, hk, hleast, hw, rfl⟩
  · exact ⟨hs₁, Or.inl ⟨rfl, hc.vol_eq, Or.inr ⟨Or.inl hrag, fun i hi => absurd hi (hfull i)⟩⟩⟩
  · have hle := (hs.wf.shaped (h.mem hs)).size_le
    simp only [maxSize] at hle
    have hk32 : 32 * k ≤ ((s.vol L 1).ino n).size := by
      have := hk.le
      unfold nents at this
      omega
    obtain ⟨hSn, hwork, hcase⟩ := hs₁.writei h₁.dev_eq h₁.inum_eq hw
    rw [hc.vol_eq] at hcase
    rcases hcase with ⟨rfl, hvol, hout⟩ | ⟨rfl, hwrote⟩
    · refine ⟨hwork.disk hs₁ (by rw [hvol]; exact hs.wf),
        Or.inl ⟨rfl, hvol, Or.inr ⟨Or.inr ?_, fun i hi => ?_⟩⟩⟩
      · simp only [maxSize] at hout ⊢
        omega
      · have := hleast i hi
        omega
    · refine ⟨hwork.disk hs₁ (hwrote.wf_ent hSn hs.wf ?_), Or.inr ⟨rfl, k, hk, hwrote⟩⟩
      rw [inum_newDirent]
      exact hS

end Link

/-! ## `is_dir_empty` -/

/-- An entry other than `.` and `..`. -/
def Proper (e : Nat × List Byte) : Prop := e.1 ≠ 0 ∧ e.2 ≠ dot ∧ e.2 ≠ dotdot

instance (e : Nat × List Byte) : Decidable (Proper e) := by
  unfold Proper
  infer_instance

section Empty

/-- The loop of `is_dir_empty` from entry `j` on. -/
theorem isDirEmptyLoop_ok :
    ∀ {k j : Nat} {b : Bool} {s : KState}, Disk L S s → DirAt L n dp s →
      (s.vol L 1).nents n < j + k → isDirEmptyLoop dp k (32 * j) s = .ok b s' →
      (b = true → ∀ i, j ≤ i → i < (s.vol L 1).nents n → ¬ Proper ((s.vol L 1).ent n i)) ∧
        (b = false → (∃ i, i < (s.vol L 1).nents n ∧ Proper ((s.vol L 1).ent n i)) ∨
          ((s.vol L 1).ino n).size % 32 ≠ 0)
  | 0, j, b, s, hs, h, hk, hx => by
      obtain ⟨rfl, rfl⟩ := pure_ok.mp hx
      exact ⟨fun _ i h1 h2 => by omega, fun hb => by cases hb⟩
  | k + 1, j, b, s, hs, h, hk, hx => by
      unfold isDirEmptyLoop at hx
      replace hx := inodeAt_then hx
      rw [(h.ready hs).size] at hx
      split_ifs at hx with hsize
      · obtain ⟨rfl, rfl⟩ := pure_ok.mp hx
        refine ⟨fun _ i h1 h2 => ?_, fun hb => by cases hb⟩
        unfold nents at h2
        omega
      · obtain ⟨o', t, hr, hx⟩ := bind_ok.mp hx
        obtain ⟨hc, hcase⟩ := readDirent_ok (h.on hs) (by omega) hr
        rcases hcase with ⟨rfl, hend⟩ | ⟨de, rfl, hj, hde⟩
        · obtain ⟨rfl, rfl⟩ := pure_ok.mp hx
          unfold nents at hend
          exact ⟨fun hb => (by cases hb), fun _ => Or.inr (by omega)⟩
        · have hinum : de.inum = ((s.vol L 1).ent n j).1 := Dirent.inum_congr hde
          have hname : cstr de.name DIRSIZ = ((s.vol L 1).ent n j).2 := Dirent.name_congr hde
          simp only [hinum, hname] at hx
          split_ifs at hx with hp
          · obtain ⟨rfl, rfl⟩ := pure_ok.mp hx
            exact ⟨fun hb => (by cases hb), fun _ => Or.inl ⟨j, hj, hp⟩⟩
          · rw [direntSize_eq, show 32 * j + 32 = 32 * (j + 1) by omega] at hx
            have := isDirEmptyLoop_ok (hs.of_calm hc) (h.of_calm hc) (by rw [hc.vol_eq]; omega) hx
            rw [hc.vol_eq] at this
            refine ⟨fun hb i h1 h2 => ?_, this.2⟩
            by_cases hij : i = j
            · rw [hij]
              exact hp
            · exact this.1 hb i (by omega) h2

/-- `is_dir_empty` looks for a proper entry. -/
theorem isDirEmpty_ok {b : Bool} (hs : Disk L S s) (h : DirAt L n dp s)
    (hx : isDirEmpty dp s = .ok b s') :
    (b = true → ∀ i < (s.vol L 1).nents n, ¬ Proper ((s.vol L 1).ent n i)) ∧
      (b = false → (∃ i, i < (s.vol L 1).nents n ∧ Proper ((s.vol L 1).ent n i)) ∨
        ((s.vol L 1).ino n).size % 32 ≠ 0) := by
  replace hx := inodeAt_then hx
  rw [(h.ready hs).size] at hx
  have := isDirEmptyLoop_ok (j := 0) hs h (by simp only [nents, direntSize_eq]; omega) hx
  exact ⟨fun hb i hi => this.1 hb i (Nat.zero_le i) hi, this.2⟩

end Empty

end Dmaos
