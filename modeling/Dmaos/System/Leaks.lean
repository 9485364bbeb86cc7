import Dmaos.System.Ownership

/-!
# No block is lost

Every data block that is marked in the free map belongs to an inode in use, as
long as nothing is written through the descriptor of a removed file
(`accounted_of_reached`).  A write to such a file takes blocks that no inode in
use refers to (`accounted_not_kept`).

A removed file keeps its number while a descriptor refers to it, so the
invariant is about all known inodes: every marked block belongs to one of them,
and those that are not in use are empty.
-/

namespace Dmaos

open Fault Function

/-- Every marked data block belongs to an inode in use. -/
def Accounted (L : Layout) (V : Vol) : Prop :=
  ∀ b, L.IsData b → V.bm b = true → ∃ n σ, InUse V n ∧ Slot.Valid σ ∧ V.ptr n σ = b

/-- Every marked data block belongs to an inode in `S`, and the inodes of `S`
that are not in use are empty. -/
structure NoLeak (L : Layout) (S : Nat → Prop) (V : Vol) : Prop where
  marked : ∀ {b : Nat}, L.IsData b → V.bm b = true → ∃ n σ, S n ∧ Slot.Valid σ ∧ V.ptr n σ = b
  empty : ∀ {n : Nat}, S n → ¬ InUse V n → (V.ino n).size = 0

section Leaks

variable {L : Layout} {S S' : Nat → Prop} {n : Nat} {V V' : Vol}

theorem Vol.Shaped.ptr_eq_zero (h : V.Shaped n) (h0 : (V.ino n).size = 0) {σ : Slot}
    (hσ : σ.Valid) : V.ptr n σ = 0 := by
  by_contra hne
  have := (h.exact σ hσ).mp hne
  rw [h0] at this
  exact absurd this (Nat.not_lt_zero _)

theorem NoLeak.accounted (h : NoLeak L S V) (hw : WF L S V) (h0 : 0 < L.datastart) :
    Accounted L V := by
  intro b hb hm
  obtain ⟨n, σ, hn, hσ, rfl⟩ := h.marked hb hm
  refine ⟨n, σ, ?_, hσ, rfl⟩
  by_contra hu
  have hzero := (hw.shaped hn).ptr_eq_zero (h.empty hn hu) hσ
  have := hb.1
  omega

theorem InUse.of_type (h : InUse V n) (ht : (V'.ino n).type = (V.ino n).type) : InUse V' n := by
  unfold InUse inUse at h ⊢
  rwa [ht]

/-- Bytes are written to an inode in use. -/
theorem NoLeak.wrote {off len : Nat} {src : Buf} (h : NoLeak L S V) (h0 : 0 < L.datastart)
    (hn : S n) (hu : InUse V n) (hw : Wrote L S n off len src V V') : NoLeak L S V' where
  marked := by
    intro b hb hm
    rcases hw.bits hm with hold | ⟨σ, hσ, he, -⟩
    · obtain ⟨m, σ, hSm, hσ, rfl⟩ := h.marked hb hold
      have := hb.1
      exact ⟨m, σ, hSm, hσ, hw.keep hSm hσ (by omega)⟩
    · exact ⟨n, σ, hn, hσ, he⟩
  empty := by
    intro m hSm hum
    have hmn : m ≠ n := by
      rintro rfl
      exact hum (hu.of_type hw.type_eq)
    rw [hw.ino hmn]
    refine h.empty hSm fun hu' => hum (hu'.of_type ?_)
    rw [hw.ino hmn]

/-- An inode gets shorter. -/
theorem NoLeak.cut {size : Nat} (h : NoLeak L S V) (hn : S n) (hs : V.Shaped n)
    (hc : Cut L S n size V V') : NoLeak L S V' where
  marked := by
    intro b hb hm
    obtain ⟨m, σ, hSm, hσ, rfl⟩ := h.marked hb (hc.reduce.bits hm)
    refine ⟨m, σ, hSm, hσ, ?_⟩
    rcases hc.reduce.sub hSm hσ with he | ⟨rfl, he⟩
    · exact he
    · -- The blocks that were cut off are free.
      by_contra hne
      rw [he] at hne
      rw [(hc.toTruncated.exact hs.exact).1 σ hσ (Ne.symm hne) he] at hm
      cases hm
  empty := by
    intro m hSm hum
    by_cases hmn : m = n
    · subst hmn
      have hz := h.empty hSm fun hu => hum (hu.of_type hc.type_eq)
      have := hc.lt
      omega
    · rw [hc.reduce.ino hmn]
      refine h.empty hSm fun hu => hum (hu.of_type ?_)
      rw [hc.reduce.ino hmn]

/-- An inode that is not in use is allocated. -/
theorem NoLeak.alloc {type : Nat} (h : NoLeak L S V) (h0 : 0 < L.datastart) (hw : WF L S V)
    (hfree : ¬ InUse V n) (ht : type ≠ FT_UNUSED) : NoLeak L (Also S n) (V.allocIno n type) where
  marked := by
    intro b hb hm
    obtain ⟨m, σ, hSm, hσ, rfl⟩ := h.marked hb hm
    have hpos := hb.1
    have hmn : m ≠ n := by
      rintro rfl
      have := (hw.shaped hSm).ptr_eq_zero (h.empty hSm hfree) hσ
      omega
    exact ⟨m, σ, Or.inl hSm, hσ, (sameFile_setIno V _ hmn (hw.shaped hSm)).ptr hσ⟩
  empty := by
    intro m hSm hum
    by_cases hmn : m = n
    · subst hmn
      refine absurd ?_ hum
      unfold InUse inUse
      rw [allocIno_ino_self]
      exact bne_iff_ne.mpr ht
    · have hino : (V.allocIno n type).ino m = V.ino m := update_of_ne hmn _ _
      rw [hino]
      refine h.empty (hSm.resolve_right hmn) fun hu => hum (hu.of_type ?_)
      rw [hino]

/-- An empty inode is retired. -/
theorem NoLeak.retire (h : NoLeak L S V) (hz : (V.ino n).size = 0) :
    NoLeak L S (V.retireIno n) where
  marked := by
    intro b hb hm
    obtain ⟨m, σ, hSm, hσ, he⟩ := h.marked hb hm
    exact ⟨m, σ, hSm, hσ, by rw [ptr_retireIno, he]⟩
  empty := by
    intro m hSm hum
    by_cases hmn : m = n
    · subst hmn
      rw [retireIno_ino_self]
      exact hz
    · have hino : (V.retireIno n).ino m = V.ino m := update_of_ne hmn _ _
      rw [hino]
      refine h.empty hSm fun hu => hum (hu.of_type ?_)
      rw [hino]

theorem NoLeak.born {d type : Nat} (h : NoLeak L S V) (h0 : 0 < L.datastart) (hw : WF L S V)
    (hfree : ¬ InUse V n) (hb : Born L (Also S n) d n V type V') : NoLeak L (Also S n) V' := by
  have hn : Also S n n := Or.inr rfl
  cases hb with
  | file => exact h.alloc h0 hw hfree (by decide)
  | dir self parent =>
      have hu : InUse (V.allocIno n FT_DIRECTORY) n := by
        unfold InUse inUse
        rw [allocIno_ino_self]
        rfl
      have h₁ := (h.alloc h0 hw hfree (by decide)).wrote h0 hn hu self
      exact h₁.wrote h0 hn (hu.of_type self.type_eq) parent

/-- Every effect keeps the invariant, if bytes are only written to inodes in
use. -/
theorem NoLeak.effect {a : Act} (h : NoLeak L S V) (h0 : 0 < L.datastart) (hw : WF L S V)
    (hwrite : ∀ n, a = .write n → InUse V n) (he : Effect L S V a S' V') : NoLeak L S' V' := by
  cases he with
  | none => exact h
  | write mem wrote => exact h.wrote h0 mem (hwrite _ rfl) wrote
  | cut mem cut => exact h.cut mem (hw.shaped mem) cut
  | create creates =>
      have hfree : ¬ InUse V _ := Bool.not_eq_true _ |>.mpr creates.free
      have h₁ := h.born h0 hw hfree creates.born
      rcases creates.link with ⟨rfl, -⟩ | ⟨k, -, hlink⟩
      · exact h₁
      · have hSd := hw.used creates.isDir.inUse
        have hsame := creates.born.sameFile hw creates.lt hSd
          (creates.isDir.ne_of_free creates.free)
        exact h₁.wrote h0 (Or.inl hSd) (hsame.inUse.trans creates.isDir.inUse) hlink
  | remove removes =>
      obtain ⟨hd, hk, rfl, -, hwrote, hcut, rfl⟩ := removes
      have hSd := hw.used hd.inUse
      have hSv := hw.entries hd hk.lt hk.inum_ne
      have h₁ := h.wrote h0 hSd hd.inUse hwrote
      have hw₁ := hwrote.wf_ent hSd hw fun h0 => absurd rfl h0
      rcases hcut with ⟨rfl, hz⟩ | hcut
      · exact h₁.retire hz
      · exact (h₁.cut hSv (hw₁.shaped hSv) hcut).retire hcut.size_eq

end Leaks

/-! ## Runs -/

/-- Bytes are written to files in use only. -/
def WritesLive (L : Layout) (p : Fin PROCS_MAX) (c : Syscall) (s : KState) : Prop :=
  ∀ n, c.writeTarget s p = some (1, n) → InUse (s.vol L 1) n ∧ ¬ (s.vol L 1).IsDir n

instance (L : Layout) (p : Fin PROCS_MAX) (c : Syscall) (s : KState) :
    Decidable (WritesLive L p c s) :=
  decidable_of_iff (∀ t ∈ c.writeTarget s p, t.1 = 1 →
      InUse (s.vol L 1) t.2 ∧ ¬ (s.vol L 1).IsDir t.2)
    ⟨fun h n hn => h (1, n) hn rfl, fun h t ht h1 => h t.2 (by rw [← h1]; exact ht)⟩

section Runs

variable {L : Layout} {d0 d1 : Device} {s : KState}

/-- No block is lost in a run in which bytes are written to files in use only. -/
theorem accounted_of_reached (himg : d1.Consistent L) (hn : d1.super.ninodes = L.ninodes)
    (hacc : Accounted L (d1.vol L)) (h : Reached (WritesLive L) d0 d1 s) :
    Accounted L (s.vol L 1) := by
  have h0 := himg.fits.data_pos
  obtain ⟨-, S, hd, hJ⟩ := h.invariant (J := NoLeak L) himg
    (fun hP hsb => ⟨fun _ => Or.inl (by rw [hsb, hn]), fun n hn => (hP n hn).2⟩)
    ⟨fun {b} hb hm => hacc b hb hm, fun hn hu => absurd hn hu⟩ (by
      intro p c s a S S' V' hd hJ hP hA he
      refine hJ.effect h0 hd.wf (fun n ha => ?_) he
      subst ha
      obtain ⟨fd, buf, len, rfl, hfd⟩ := hA
      exact (hP n hfd).1)
  exact hJ.accounted hd.wf h0

end Runs

theorem formatted_accounted {k : Fin 7} {dirs : List Listing}
    (hlen : dirs.length < 8 * tableBlocks k)
    (hdirs : ∀ l ∈ dirs, l.length ≤ 32) : Accounted (layoutOf k) (volumeOf k dirs) := by
  intro b hb hm
  rw [formatted_bm, decide_eq_true_eq] at hm
  have hle : 3 + tableBlocks k ≤ b := hb.1
  obtain ⟨n, rfl⟩ : ∃ n, b = 2 + tableBlocks k + n := ⟨b - (2 + tableBlocks k), by omega⟩
  have hn : 0 < n ∧ n ≤ dirs.length := by omega
  have hσ : (Slot.top 0).Valid := Nat.zero_lt_succ _
  refine ⟨n, .top 0, (formatted_inUse hlen hdirs).mpr hn, hσ, ?_⟩
  rw [formatted_ptr hlen hdirs hn hσ, if_pos rfl]

/-- A file is made and written on the empty device. -/
theorem accounted_of_reached_write :
    ∃ s, Reached (WritesLive formattedLayout) systemDisk emptyDisk s ∧
      (s.vol formattedLayout 1).bm 5 = true ∧
      Accounted formattedLayout (s.vol formattedLayout 1) := by
  have hrun : (playFrom (WritesLive formattedLayout) systemDisk emptyDisk
      [(1, .open pathA (FILECTRL_CREATE ||| FILECTRL_WRITEONLY)), (1, .write 3 Buf.zero 1)]).any
      (fun s => (s.vol formattedLayout 1).bm 5) = true := by decide +kernel
  obtain ⟨s, hs, hm⟩ := Reached.of_playFrom hrun
  exact ⟨s, hs, hm, accounted_of_reached emptyDisk_consistent rfl
    (formatted_accounted (by decide) (by decide)) hs⟩

/-! ## Removed files -/

/-- Without tables, an inode only has the blocks its direct pointers name. -/
theorem Vol.ptr_eq_top {V : Vol} {n : Nat} (h12 : V.ptr n (.top 12) = 0)
    (h13 : V.ptr n (.top 13) = 0) {σ : Slot} (hσ : σ.Valid) (h0 : V.ptr n σ ≠ 0) :
    ∃ i < 14, σ = .top i := by
  cases σ with
  | top i => exact ⟨i, hσ, rfl⟩
  | ent t i =>
      refine absurd (Vol.ptr_ent_of_eq ?_) h0
      rcases hσ.table.cases with rfl | rfl | ⟨k, -, rfl⟩
      · exact h12
      · exact h13
      · exact Vol.ptr_ent_of_eq h13

/-- A file is made, removed, and written through the descriptor that is still
open: the block it gets belongs to no inode in use. -/
theorem accounted_not_kept :
    emptyDisk.Consistent formattedLayout ∧
      Accounted formattedLayout (emptyDisk.vol formattedLayout) ∧
      ∃ s, Reached (fun _ _ _ => True) systemDisk emptyDisk s ∧
        ¬ Accounted formattedLayout (s.vol formattedLayout 1) := by
  refine ⟨emptyDisk_consistent, formatted_accounted (by decide) (by decide), ?_⟩
  have hrun : (playFrom (fun _ _ _ => True) systemDisk emptyDisk
      [(1, .open pathA (FILECTRL_CREATE ||| FILECTRL_WRITEONLY)), (1, .rm pathA),
        (1, .write 3 Buf.zero 1)]).any (fun s =>
          (s.vol formattedLayout 1).bm 5 && decide (∀ n < 8, InUse (s.vol formattedLayout 1) n →
            ∀ i < 14, (s.vol formattedLayout 1).ptr n (.top i) ≠ 5 ∧
              (12 ≤ i → (s.vol formattedLayout 1).ptr n (.top i) = 0))) = true := by
    decide +kernel
  obtain ⟨s, hs, hbad⟩ := Reached.of_playFrom hrun
  rw [Bool.and_eq_true, decide_eq_true_eq] at hbad
  refine ⟨s, hs, fun hacc => ?_⟩
  obtain ⟨n, σ, hn, hσ, he⟩ := hacc 5 (by decide) hbad.1
  have hlt : n < 8 := by
    by_contra hge
    have hino : (s.vol formattedLayout 1).ino n = DView.blank := if_neg hge
    unfold InUse inUse at hn
    rw [hino] at hn
    cases hn
  have hall := hbad.2 n hlt hn
  obtain ⟨i, hi, rfl⟩ := Vol.ptr_eq_top ((hall 12 (by decide)).2 (by decide))
    ((hall 13 (by decide)).2 (by decide)) hσ (by rw [he]; decide)
  exact (hall i hi).1 he

end Dmaos
