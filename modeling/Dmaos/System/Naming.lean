import Dmaos.System.DirMap
import Dmaos.System.Resolve

/-!
# The name an entry is found by

The last component of a path is cut to 29 bytes, and looked up in its directory.
Making a file changes what its own name leads to, and no other; removing a file
takes away one entry.
-/

namespace Dmaos

open Fault Vol

variable {path x : List Byte} {i : Nat}

/-! ## The last component -/

theorem lastNameLoop_eq : ∀ {k : Nat} {path name : List Byte}, path.length < k →
    lastNameLoop k path name = (pathNames path).getLast?.getD name
  | k + 1, path, name, hk => by
      rw [lastNameLoop]
      cases hskip : skipto path with
      | none =>
          rw [skipto_none hskip]
          rfl
      | some step =>
          obtain ⟨y, rest⟩ := step
          have hlen := skipto_length hskip
          rw [(skipto_some hskip).1, List.getLast?_cons]
          exact lastNameLoop_eq (by omega)

/-- The last component is cut. -/
theorem lastName_eq (h : (components path).getLast? = some x) : lastName path = x.take 29 := by
  rw [lastName, lastNameLoop_eq (Nat.lt_add_one _), pathNames, List.getLast?_map, h]
  rfl

/-- What is left of a component fits in an entry. -/
theorem short_of_last (h0 : 0 ∉ path)
    (h : (components path).getLast? = some x) : Short (x.take 29) := by
  have hmem : x.take 29 ∈ pathNames path := List.mem_map_of_mem (List.mem_of_getLast? h)
  have hname := isName_of_mem_pathNames hmem h0
  exact ⟨hname.noNul, List.length_pos_of_ne_nil hname.ne_nil, Nat.le_of_lt_succ hname.short⟩

/-! ## Looking up names -/

section Lookup

variable {L : Layout} {S : Nat → Prop} {V V' V₁ V₂ : Vol} {d e k m n v type : Nat} {src : Buf}
  {name : List Byte}

theorem Vol.lookup_eq_some_iff : V.lookup n x = some v ↔
    ∃ i, EntryNamed V n x i ∧ (∀ j < i, ¬ EntryNamed V n x j) ∧ (V.ent n i).1 = v := by
  constructor
  · intro h
    obtain ⟨i, hfind, hv⟩ := Option.map_eq_some_iff.mp h
    rw [List.find?_range_eq_some] at hfind
    obtain ⟨hi, -, hfirst⟩ := hfind
    exact ⟨i, by simpa using hi, fun j hj => by simpa using hfirst j hj, hv⟩
  · rintro ⟨i, hi, hfirst, rfl⟩
    exact lookup_some hi hfirst

theorem Vol.lookup_congr (h : ∀ i, EntryNamed V' n x i ↔ EntryNamed V n x i)
    (he : ∀ i, EntryNamed V n x i → (V'.ent n i).1 = (V.ent n i).1) :
    V'.lookup n x = V.lookup n x := by
  refine Option.ext fun v => ?_
  simp only [lookup_eq_some_iff, h]
  refine exists_congr fun i => and_congr_right fun hi => ?_
  rw [he i hi]

theorem SameFile.symm (h : SameFile V V' n) : SameFile V' V n :=
  ⟨h.ino.symm, fun hσ => (h.ptr hσ).symm, h.content.symm⟩

theorem SameFile.lookup (h : SameFile V V' n) : V'.lookup n x = V.lookup n x :=
  lookup_congr (fun _ => ⟨.congr h, .congr h.symm⟩) fun _ hi => by rw [h.ent hi.lt]

/-- Writing an entry that has another name before and after. -/
theorem Short.lookup_wrote (hx : Short x) (h : Wrote L S n (32 * k) 32 src V V')
    (hs : V.Shaped n) (hk : k ≤ V.nents n) (hold : ¬ EntryNamed V n x k)
    (hnew : ¬ EntryNamed V' n x k) : V'.lookup n x = V.lookup n x := by
  have hslots := h.slots hs hk
  have hcount := h.nents
  have hsame : ∀ {i}, i < V.nents n → i ≠ k → V'.slot n i = V.slot n i :=
    fun hi hne => hslots.others _ hi hne
  refine lookup_congr (fun i => ?_) fun i hi => ?_
  · cases Decidable.em (i = k) with
    | inl heq =>
        rw [heq]
        exact iff_of_false hnew hold
    | inr hne =>
        rw [hx.named_iff, hx.named_iff]
        constructor
        · rintro ⟨hi, v, hv⟩
          have hi' : i < V.nents n := by omega
          exact ⟨hi', v, hsame hi' hne ▸ hv⟩
        · rintro ⟨hi, v, hv⟩
          exact ⟨by omega, v, (hsame hi hne).trans hv⟩
  · have hne : i ≠ k := fun heq => hold (heq ▸ hi)
    rw [(h.ent_of_ne hs (by have := hi.lt; omega) hne).2]

/-- An entry with a name is not one with another. -/
theorem EntryNamed.name_eq (h : EntryNamed V n x k) (hx : Short x) : (V.ent n k).2 = x := by
  obtain ⟨-, v, hv⟩ := hx.named_iff.mp h
  rw [(slot_eq_some_iff.mp hv).2]

theorem FreeEntry.not_named (h : FreeEntry V n k) : ¬ EntryNamed V n x k :=
  fun hk => hk.inum_ne (h.inum_eq hk.lt)

/-- The directory is as it was when the entry is written. -/
theorem Creates.before (h : Creates L S d n type name V V₁ V') (hw : WF L S V) : SameFile V V₁ d :=
  h.born.sameFile hw h.lt (hw.used h.isDir.inUse) (h.isDir.ne_of_free h.free)

/-- Making a file leaves the other files alone. -/
theorem Creates.sameFile (h : Creates L S d n type name V V₁ V') (hw : WF L S V) (he : S e)
    (hen : e ≠ n) (hed : e ≠ d) : SameFile V V' e := by
  have hbefore := h.born.sameFile hw h.lt he hen
  rcases h.link with ⟨rfl, -⟩ | ⟨k, -, hwrote⟩
  · exact hbefore
  · exact hbefore.trans (hwrote.sameFile hed (Or.inl he) (hbefore.shaped (hw.shaped he)))

/-- Making a file changes what its own name leads to. -/
theorem Creates.lookup_of_ne (h : Creates L S d n type name V V₁ V') (hw : WF L S V)
    (hname : Short name) (hx : Short x) (hne : x ≠ name) : V'.lookup d x = V.lookup d x := by
  have hbefore := h.before hw
  rw [← hbefore.lookup]
  rcases h.link with ⟨rfl, -⟩ | ⟨k, hk, hwrote⟩
  · rfl
  · refine hx.lookup_wrote hwrote (hbefore.shaped (hw.shaped (hw.used h.isDir.inUse))) hk.le
      hk.not_named fun hnew => hne ?_
    rw [← hnew.name_eq hx, hwrote.ent_self, hname.name_newDirent]

/-- The new name leads to the new file, if the entry was written. -/
theorem Creates.lookup_self (h : Creates L S d n type name V V₁ V') (hw : WF L S V)
    (hname : Short name) (hn : n < 2 ^ 16) (hnamed : ∃ i, EntryNamed V' d name i) :
    V'.lookup d name = some n := by
  have hbefore := h.before hw
  have hlacks : ∀ i, ¬ EntryNamed V₁ d name i := fun i hi => h.fresh i (hi.congr hbefore)
  rcases h.link with ⟨rfl, -⟩ | ⟨k, hk, hwrote⟩
  · obtain ⟨i, hi⟩ := hnamed
    exact absurd hi (hlacks i)
  · have hshaped := hbefore.shaped (hw.shaped (hw.used h.isDir.inUse))
    -- All entries but the new one are old ones.
    have honly : ∀ {i}, EntryNamed V' d name i → i = k := by
      intro i hi
      by_contra hik
      obtain ⟨hi', heq⟩ := hwrote.ent_of_ne hshaped hi.lt hik
      obtain ⟨-, v, hv⟩ := hname.named_iff.mp hi
      refine hlacks i (hname.named_iff.mpr ⟨hi', v, ?_⟩)
      rw [← hv, Vol.slot, Vol.slot, heq]
    obtain ⟨i, hi⟩ := hnamed
    obtain rfl := honly hi
    rw [lookup_some hi fun j hj hj' => absurd (honly hj') (by omega), hwrote.ent_self,
      inum_newDirent, Nat.mod_eq_of_lt hn]

/-- Removing a file leaves the other files alone. -/
theorem Removes.sameFile (h : Removes L S d k v name V V₁ V₂ V') (hw : WF L S V) (he : S e)
    (hed : e ≠ d) (hev : e ≠ v) : SameFile V V' e := by
  have h₁ := h.wrote.sameFile hed he (hw.shaped he)
  have hs₁ := h₁.shaped (hw.shaped he)
  have h₂ : SameFile V₁ V₂ e := by
    rcases h.cut with ⟨rfl, -⟩ | hcut
    · exact .refl _ _
    · exact hcut.sameFile hev he hs₁
  rw [h.retired]
  exact (h₁.trans h₂).trans (sameFile_setIno _ _ hev (h₂.shaped hs₁))

/-- Writing an entry leaves the others alone. -/
theorem Wrote.ent_kept (h : Wrote L S n (32 * k) 32 src V V') (hs : V.Shaped n)
    (hi : i < V.nents n) (hik : i ≠ k) : i < V'.nents n ∧ V'.ent n i = V.ent n i := by
  have hi' : i < V'.nents n := by
    rw [h.nents]
    omega
  exact ⟨hi', (h.ent_of_ne hs hi' hik).2⟩

theorem SameFile.ent_kept (h : SameFile V V' n) (hi : i < V.nents n) :
    i < V'.nents n ∧ V'.ent n i = V.ent n i := by
  rw [h.nents]
  exact ⟨hi, h.ent hi⟩

/-- Making a file leaves the entries of the directory alone. -/
theorem Creates.ent_kept (h : Creates L S d n type name V V₁ V') (hw : WF L S V)
    (hi : i < V.nents d) (h0 : (V.ent d i).1 ≠ 0) : i < V'.nents d ∧ V'.ent d i = V.ent d i := by
  have hbefore := h.before hw
  obtain ⟨hi₁, he⟩ := hbefore.ent_kept hi
  rw [← he] at h0 ⊢
  rcases h.link with ⟨rfl, -⟩ | ⟨k, hk, hwrote⟩
  · exact ⟨hi₁, rfl⟩
  · refine hwrote.ent_kept (hbefore.shaped (hw.shaped (hw.used h.isDir.inUse))) hi₁ ?_
    rintro rfl
    exact h0 (hk.inum_eq hi₁)

/-- After the entry has been cleared, the directory is left alone. -/
theorem Removes.after (h : Removes L S d k v name V V₁ V₂ V') (hw : WF L S V) (hdv : d ≠ v) :
    SameFile V₁ V' d := by
  have hS := hw.used h.isDir.inUse
  have hs₁ := h.wrote.shaped hS (hw.shaped hS)
  have h₂ : SameFile V₁ V₂ d := by
    rcases h.cut with ⟨rfl, -⟩ | hcut
    · exact .refl _ _
    · exact hcut.sameFile hdv hS hs₁
  rw [h.retired]
  exact h₂.trans (sameFile_setIno _ _ hdv (h₂.shaped hs₁))

/-- Removing a file leaves the other entries of the directory alone, unless it was the
directory. -/
theorem Removes.ent_kept (h : Removes L S d k v name V V₁ V₂ V') (hw : WF L S V)
    (hd : V'.IsDir d) (hi : i < V.nents d) (hik : i ≠ k) :
    i < V'.nents d ∧ V'.ent d i = V.ent d i := by
  have hdv : d ≠ v := by
    rintro rfl
    have hfree := not_inUse_retireIno V₂ d
    rw [← h.retired, hd.inUse] at hfree
    cases hfree
  obtain ⟨hi₁, he⟩ := h.wrote.ent_kept (hw.shaped (hw.used h.isDir.inUse)) hi hik
  obtain ⟨hi', he'⟩ := (h.after hw hdv).ent_kept hi₁
  exact ⟨hi', he'.trans he⟩

end Lookup

end Dmaos
