import Dmaos.System.Descriptor
import Dmaos.System.Finding

/-!
# Names that are told apart

`skipto` cuts a component of a path to 29 bytes, and no call refuses one that is
longer.  So a call finds the object that was made as `x` under every name `y` that
starts with the same 29 bytes.

Under any other name it is not found, unless the directory had an entry for that name
which named no file: `ialloc` takes the first free inode, and the entry then leads to
the new object.
-/

namespace Dmaos

open Fault

/-! ## Calls on an entry of a directory -/

/-- The path of a call of process `p` has the last component `x`, and the directory
before it is directory `d` of device 1. -/
def Syscall.On (c : Syscall) (s : KState) (p : Fin PROCS_MAX) (d : Nat) (x : List Byte) : Prop :=
  ∃ path, c.entryPath = some path ∧ (components path.1).getLast? = some x ∧
    ∃ name, ParentOn { s with current := some p } path.1 d name

/-- What a call on entry `name` of directory `d` can do to the volume, and to inode `m`. -/
def EntryAct (V : Vol) (d m : Nat) (name : List Byte) : Act → Prop
  | .none => True
  | .write _ => False
  | .cut n => (V.ino n).type = FT_FILE ∧ (n = m → V.lookup d name = some m)
  | .create d' _ name' => d' = d ∧ name' = name
  | .remove d' v name' => d' = d ∧ name' = name ∧ V.lookup d name = some v

section Entry

variable {L : Layout} {S : Nat → Prop} {s t s' : KState} {p : Fin PROCS_MAX} {c : Syscall}
  {dp ip : Fin NINODE} {d m flags : Nat} {path : CString} {name : List Byte} {r : Int}

/-- `namex` has found directory `d` of device 1 for the path of a call. -/
structure Leads (L : Layout) (S : Nat → Prop) (path : List Byte) (d : Nat) (name : List Byte)
    (dp : Fin NINODE) (s t : KState) : Prop extends Parent L S path dp name s t where
  run : namex path true s = .ok (some dp, name) t
  dirAt : DirAt L d dp t

theorem ParentOn.leads {path : List Byte} (h : ParentOn s path d name) (hd : Disk L S s)
    (hr : Refs [] s) : ∃ dp t, Leads L S path d name dp s t := by
  obtain ⟨dp, t, hn, hdev, hinum⟩ := h
  have hpar := namex_parent hd hr hn
  have hdir := hpar.dir (by rw [hdev]; decide)
  rw [hinum] at hdir
  exact ⟨dp, t, hpar, hn, hdir⟩

/-- `fs_create` goes on in the directory. -/
theorem Leads.fsCreate {path : List Byte} (h : Leads L S path d name dp s t) :
    fsCreate path flags s = fsCreateIn dp name flags t := by
  have h0 : ¬ ((t.inodeTable dp).dev = 0 ∧ hasFlag flags createMask = true) := by
    rw [h.dirAt.dev_eq]
    exact fun hc => absurd hc.1 (by decide)
  have hD : inodeAt dp t = .ok (t.inodeTable dp) t := rfl
  refine (run_bind h.run).trans ((run_bind hD).trans ?_)
  rw [if_neg h0]

theorem Leads.fsMkdir {path : List Byte} (h : Leads L S path d name dp s t) :
    fsMkdir path s = fsMkdirIn dp name t := by
  have h0 : ¬ (t.inodeTable dp).dev = 0 := by
    rw [h.dirAt.dev_eq]
    decide
  have hD : inodeAt dp t = .ok (t.inodeTable dp) t := rfl
  refine (run_bind h.run).trans ((run_bind hD).trans ?_)
  rw [if_neg h0]

theorem Leads.fsRm {path : List Byte} (h : Leads L S path d name dp s t) :
    fsRm path s = fsRmIn dp name t := by
  have h0 : ¬ (t.inodeTable dp).dev = 0 := by
    rw [h.dirAt.dev_eq]
    decide
  have hD : inodeAt dp t = .ok (t.inodeTable dp) t := rfl
  refine (run_bind h.run).trans ((run_bind hD).trans ?_)
  rw [if_neg h0]

/-- `fs_open` finds what the name leads to. -/
theorem Leads.found {path : List Byte} (h : Leads L S path d name dp s t)
    (hmounts : ∀ M ∈ s.mounts, M.parentDev = 0) (hmd : m ≠ d)
    (hx : namei path s = .ok (some ip) s') (hdev : (s'.inodeTable ip).dev = 1)
    (hinum : (s'.inodeTable ip).inum = m) : (s.vol L 1).lookup d name = some m := by
  rw [namei_of_parent h.run] at hx
  obtain ⟨⟨o, y⟩, t', hend, hret⟩ := bind_ok.mp hx
  obtain ⟨rfl, rfl⟩ := pure_ok.mp hret
  rw [← h.vol_eq]
  refine namexEnd_found h.toDisk h.refs h.dirAt ?_ hmd hend hdev hinum
  rw [(Still.of_ok .namex h.run).mounts]
  exact hmounts

theorem handleSyscall_entryAct (h : Leads L S path.1 d name dp s t) (hd : Disk L S s)
    (hr : Refs [] s) (hmounts : ∀ M ∈ s.mounts, M.parentDev = 0) (hmd : m ≠ d)
    (hc : c.entryPath = some path) (hroom : c.MayCreate → Room L s)
    (hx : handleSyscall c s = .ok r s') : Performs L S (EntryAct (s.vol L 1) d m name) s s' := by
  have hvol := h.vol_eq
  cases c with
  | «open» path' flags =>
      cases hc
      rw [handleSyscall] at hx
      split_ifs at hx with hf
      · rw [h.fsCreate] at hx
        refine .before h.same.1 h.same.2 (fsCreateIn_performs h.toDisk h.refs h.dirAt
          ((hroom hf).of_same h.same) trivial (fun _ => ⟨rfl, rfl⟩) ?_ hx)
        rw [hvol]
        intro k hk hfirst htype
        exact ⟨htype, fun hm => Vol.lookup_eq_some_iff.mpr ⟨k, hk, hfirst, hm⟩⟩
      · exact fsOpen_performs hd hr trivial
          (fun hn hdev htype => ⟨htype, fun hm => h.found hmounts hmd hn hdev hm⟩) hx
  | mkdir path' =>
      cases hc
      change fsMkdir path.1 s = .ok r s' at hx
      rw [h.fsMkdir] at hx
      exact .before h.same.1 h.same.2 (fsMkdirIn_performs h.toDisk h.refs h.dirAt
        ((hroom trivial).of_same h.same) trivial (fun _ => ⟨rfl, rfl⟩) hx)
  | rm path' =>
      cases hc
      change fsRm path.1 s = .ok r s' at hx
      rw [h.fsRm] at hx
      refine .before h.same.1 h.same.2 (fsRmIn_performs h.toDisk h.refs h.dirAt trivial ?_ hx)
      rw [hvol]
      intro k hk hfirst
      exact ⟨rfl, rfl, Vol.lookup_eq_some_iff.mpr ⟨k, hk, hfirst, rfl⟩⟩
  | _ => cases hc

/-- The descriptor an `open` returns is for what the name leads to, or for a new file. -/
theorem open_opened (h : Leads L S path.1 d name dp s t) (hp : s.current = some p)
    (hmounts : ∀ M ∈ s.mounts, M.parentDev = 0) (hmd : m ≠ d) (hname : Short name)
    (hroom : hasFlag flags FILECTRL_CREATE = true → Room L s)
    (hx : handleSyscall (.open path flags) s = .ok r s') (hfd : s'.fdInode p r = some (1, m)) :
    (s.vol L 1).lookup d name = some m ∨ inUse (s.vol L 1) m = false := by
  have hpos : 0 ≤ r := Int.not_lt.mp fun hneg => by
    rw [KState.fdInode_neg hneg] at hfd
    cases hfd
  rw [handleSyscall] at hx
  split_ifs at hx with hf
  · rw [h.fsCreate] at hx
    have hp' : t.current = some p := by rw [(Still.of_ok .namex h.run).current, hp]
    rw [← h.vol_eq]
    rcases fsCreateIn_opened h.toDisk h.refs hp' h.dirAt ((hroom hf).of_same h.same) hname hx hpos
      with ⟨v, hv, hfd'⟩ | ⟨⟨n, hn, hfd'⟩, -⟩
    · rw [hfd, Option.some.injEq, Prod.mk.injEq] at hfd'
      exact .inl (by rw [hv, hfd'.2])
    · rw [hfd, Option.some.injEq, Prod.mk.injEq] at hfd'
      exact .inr (by rw [hfd'.2, hn])
  · obtain ⟨ip, t', hn, hdev, hinum⟩ := fsOpen_opened hp hx hfd
    exact .inl (h.found hmounts hmd hn hdev hinum)

/-- A call that succeeds and makes something has entered its name. -/
theorem handleSyscall_entered (h : Leads L S path.1 d name dp s t) (hp : s.current = some p)
    (hname : Short name) (hc : c.entryPath = some path) (hmay : c.MayCreate) (hroom : Room L s)
    (hnew : (s.vol L 1).lookup d name = none) (hx : handleSyscall c s = .ok r s') (hpos : 0 ≤ r) :
    Entered d name (s.vol L 1) (s'.vol L 1) := by
  rw [← h.vol_eq] at hnew ⊢
  cases c with
  | «open» path' flags =>
      cases hc
      rw [handleSyscall] at hx
      have hf : hasFlag flags FILECTRL_CREATE = true := hmay
      rw [if_pos hf, h.fsCreate] at hx
      have hp' : t.current = some p := by rw [(Still.of_ok .namex h.run).current, hp]
      rcases fsCreateIn_opened h.toDisk h.refs hp' h.dirAt (hroom.of_same h.same) hname hx hpos
        with ⟨v, hv, -⟩ | ⟨-, he⟩
      · rw [hnew] at hv
        cases hv
      · exact he
  | mkdir path' =>
      cases hc
      change fsMkdir path.1 s = .ok r s' at hx
      rw [h.fsMkdir] at hx
      exact fsMkdirIn_entered h.toDisk h.refs h.dirAt (hroom.of_same h.same) hname hx hpos
  | rm path' => exact hmay.elim
  | _ => cases hc

end Entry

/-! ## Different names -/

/-- Call `c` of process `p` succeeds and makes inode `m`, as entry `x` of directory `d`. -/
structure MakesAs (L : Layout) (p : Fin PROCS_MAX) (c : Syscall) (d m : Nat) (x : List Byte)
    (r : Int) (s s' : KState) : Prop where
  may : c.MayCreate
  on : c.On s p d x
  orderly : Orderly L p c s
  run : step p c s = .ok r s'
  success : 0 ≤ r
  free : inUse (s.vol L 1) m = false
  used : inUse (s'.vol L 1) m = true

/-- Call `c` of process `q` on an entry of directory `d` does not find inode `m`, does
not open it and leaves its content and its entries alone. -/
structure Spares (L : Layout) (q : Fin PROCS_MAX) (c : Syscall) (d m : Nat) (r : Int)
    (s s' : KState) : Prop where
  notFound : ∀ path, c.entryPath = some path → (s.vol L 1).lookup d (lastName path.1) ≠ some m
  notOpened : ∀ path flags, c = .open path flags → s'.fdInode q r ≠ some (1, m)
  file : SameFile (s.vol L 1) (s'.vol L 1) m
  entry : (s'.vol L 1).IsDir d → ∀ i < (s.vol L 1).nents d, ((s.vol L 1).ent d i).1 = m →
    i < (s'.vol L 1).nents d ∧ (s'.vol L 1).ent d i = (s.vol L 1).ent d i

/-- A component that is too long to be stored is refused. -/
def Refuses (x : List Byte) (r : Int) : Prop := 29 < x.length → r < 0

/-- Both components can be stored, and the entry for the second, if there is one, does
not name the inode that the next file gets. -/
structure ToldApart (V : Vol) (d : Nat) (x y : List Byte) : Prop where
  left : x.length ≤ 29
  right : y.length ≤ 29
  other : ∀ n, FirstFree V n → V.lookup d y ≠ some n

section Different

variable {L : Layout} {S S' : Nat → Prop} {V V' : Vol} {a : Act} {d0 d1 : Device}
  {s s₁ s₂ : KState} {p q : Fin PROCS_MAX} {c c' : Syscall} {d m : Nat} {x y : List Byte}
  {r r' : Int}

/-- Only an inode that is made comes into use. -/
theorem Effect.made (h : Effect L S V a S' V') (hw : WF L S V) (hw' : WF L S' V')
    (hfree : inUse V m = false) (hused : inUse V' m = true) : ∃ d name, a = .create d m name := by
  have hS' := hw'.used hused
  have same : ¬ SameFile V V' m := fun hs => by
    rw [hs.inUse, hfree] at hused
    cases hused
  have sameType : (V'.ino m).type ≠ (V.ino m).type := fun ht => by
    rw [inUse, ht, ← inUse, hfree] at hused
    cases hused
  cases h with
  | none => exact absurd (.refl V m) same
  | @write n _ _ _ _ mem wrote =>
      cases Decidable.em (m = n) with
      | inl heq => exact absurd (heq ▸ wrote.type_eq) sameType
      | inr hne => exact absurd (wrote.sameFile hne hS' (hw.shaped hS')) same
  | @cut n _ _ mem cut =>
      cases Decidable.em (m = n) with
      | inl heq => exact absurd (heq ▸ cut.type_eq) sameType
      | inr hne => exact absurd (cut.sameFile hne hS' (hw.shaped hS')) same
  | @create d n _ name _ _ creates =>
      cases Decidable.em (m = n) with
      | inl heq => exact ⟨d, name, by rw [heq]⟩
      | inr hne =>
          exact absurd (creates.sameFile hw (hS'.resolve_right hne) hne
            (creates.isDir.ne_of_free hfree).symm) same
  | @remove d k v name _ V₂ _ removes =>
      have hmv : m ≠ v := by
        rintro rfl
        rw [removes.retired, not_inUse_retireIno] at hused
        cases hused
      exact absurd (removes.sameFile hw hS' (removes.isDir.ne_of_free hfree).symm hmv) same

/-- The path of a call on an entry, resolved. -/
theorem Syscall.On.leads (h : c.On s p d x) (hd : Disk L S s) (hr : Refs [] s) :
    ∃ path dp t, c.entryPath = some path ∧ lastName path.1 = x.take 29 ∧ Short (x.take 29) ∧
      Leads L S path.1 d (x.take 29) dp { s with current := some p } t := by
  obtain ⟨path, hc, hlast, name, hon⟩ := h
  obtain ⟨dp, t, hleads⟩ := hon.leads (hd.tables rfl rfl rfl rfl) hr
  have hname := hleads.name_eq
  rw [lastName_eq hlast] at hname
  subst hname
  exact ⟨path, dp, t, hc, lastName_eq hlast, short_of_last path.2 hlast, hleads⟩

/-- The first call. -/
theorem MakesAs.creates (h : MakesAs L p c d m x r s s₁) (hd : Disk L S s) (hr : Refs [] s)
    (hmounts : ∀ M ∈ s.mounts, M.parentDev = 0) :
    m ≠ d ∧ Disk L (Also S m) s₁ ∧ Entered d (x.take 29) (s.vol L 1) (s₁.vol L 1) ∧
      ∃ type V₁, Creates L S d m type (x.take 29) (s.vol L 1) V₁ (s₁.vol L 1) := by
  obtain ⟨path, dp, t, hc, -, hshort, hleads⟩ := h.on.leads hd hr
  have hd' : Disk L S { s with current := some p } := hd.tables rfl rfl rfl rfl
  have hisDir : (s.vol L 1).IsDir d := by
    have := hleads.dirAt.isDir
    rwa [hleads.vol_eq] at this
  have hmd : m ≠ d := (hisDir.ne_of_free h.free).symm
  have hx := h.run
  rw [step_eq (step_runnable hx)] at hx
  obtain ⟨a, S', hA, he, hd₁, -⟩ := handleSyscall_entryAct hleads hd' hr hmounts hmd hc
    (fun hc => h.orderly.room hc) hx
  obtain ⟨d', name, rfl⟩ := he.made hd.wf hd₁.wf h.free h.used
  obtain ⟨rfl, rfl⟩ := hA
  cases he with
  | create creates =>
      refine ⟨hmd, hd₁, ?_, _, _, creates⟩
      exact handleSyscall_entered (s := { s with current := some p }) hleads rfl hshort hc h.may
        (h.orderly.room h.may)
        (Vol.lookup_none creates.fresh) hx h.success

/-- The second call, if the name does not lead to the inode. -/
theorem Syscall.On.spares (h : c.On s q d y) (hd : Disk L S s) (hr : Refs [] s)
    (hmounts : ∀ M ∈ s.mounts, M.parentDev = 0) (hP : Orderly L q c s)
    (hx : step q c s = .ok r s₁) (hmd : m ≠ d) (hm : inUse (s.vol L 1) m = true) (h0 : m ≠ 0)
    (hnot : (s.vol L 1).lookup d (y.take 29) ≠ some m) : Spares L q c d m r s s₁ := by
  obtain ⟨path, dp, t, hc, hlast, hshort, hleads⟩ := h.leads hd hr
  have hd' : Disk L S { s with current := some q } := hd.tables rfl rfl rfl rfl
  rw [step_eq (step_runnable hx)] at hx
  obtain ⟨a, S', hA, he, -⟩ := handleSyscall_entryAct hleads hd' hr hmounts hmd hc
    (fun hc => hP.room hc) hx
  have hS := hd.wf.used hm
  have hchange : SameFile (s.vol L 1) (s₁.vol L 1) m ∧ ((s₁.vol L 1).IsDir d →
      ∀ i < (s.vol L 1).nents d, ((s.vol L 1).ent d i).1 = m →
        i < (s₁.vol L 1).nents d ∧ (s₁.vol L 1).ent d i = (s.vol L 1).ent d i) := by
    replace he : Effect L S (s.vol L 1) a S' (s₁.vol L 1) := he
    have hisDir : (s.vol L 1).IsDir d := by
      have := hleads.dirAt.isDir
      rwa [hleads.vol_eq] at this
    have hSd := hd.wf.used hisDir.inUse
    generalize s₁.vol L 1 = V' at he ⊢
    cases he with
    | none => exact ⟨.refl _ _, fun _ i hi _ => ⟨hi, rfl⟩⟩
    | write => exact hA.elim
    | @cut n _ _ mem cut =>
        obtain ⟨htype, hfound⟩ := hA
        have hdn : d ≠ n := by
          rintro rfl
          have := htype.symm.trans hisDir
          cases this
        have hsame := cut.sameFile hdn hSd (hd.wf.shaped hSd)
        exact ⟨cut.sameFile (fun hmn => hnot (hfound hmn.symm)) hS (hd.wf.shaped hS),
          fun _ i hi _ => hsame.ent_kept hi⟩
    | @create d' n _ name _ _ creates =>
        obtain ⟨rfl, rfl⟩ := hA
        have hmn : m ≠ n := by
          rintro rfl
          have hfree := creates.free
          rw [hm] at hfree
          cases hfree
        exact ⟨creates.sameFile hd.wf hS hmn hmd, fun _ i hi hi' =>
          creates.ent_kept hd.wf hi (hi' ▸ h0)⟩
    | @remove d' k v name _ _ _ removes =>
        obtain ⟨rfl, rfl, hlook⟩ := hA
        have hvm : v ≠ m := fun hvm => hnot (hvm ▸ hlook)
        refine ⟨removes.sameFile hd.wf hS hmd hvm.symm, fun hdir i hi hi' => ?_⟩
        refine removes.ent_kept hd.wf hdir hi fun hik => hvm ?_
        rw [← removes.inum, ← hi', hik]
  refine ⟨fun path' hc' => ?_, ?_, hchange.1, hchange.2⟩
  · rw [hc] at hc'
    cases hc'
    rw [hlast]
    exact hnot
  · rintro path' flags rfl hfd
    cases hc
    rcases open_opened hleads rfl hmounts hmd hshort (fun hf => hP.room hf) hx hfd with hf | hf
    · exact hnot hf
    · replace hf : inUse (s.vol L 1) m = false := hf
      rw [hm] at hf
      cases hf

/-- In every state reached, let a call make inode `m` as entry `x` of a directory, and
let a call on entry `y` of the directory come next.  If the components can be told
apart, then the second call spares the inode, and no component is too long.  If that is
so, then `x` can be stored, it is not what `y` is cut to, and that does not name the
inode the next file gets. -/
theorem names_told_apart (himg : d1.Consistent L) (h : Reached (Orderly L) d0 d1 s)
    (hmake : MakesAs L p c d m x r s s₁) (hon : c'.On s₁ q d y) (hP : Orderly L q c' s₁)
    (hx : step q c' s₁ = .ok r' s₂) (hne : x ≠ y) :
    (ToldApart (s.vol L 1) d x y →
      Refuses x r ∧ Refuses y r' ∧ Spares L q c' d m r' s₁ s₂) ∧
    (m < 2 ^ 16 → Refuses x r ∧ Refuses y r' ∧ Spares L q c' d m r' s₁ s₂ →
      x.length ≤ 29 ∧ y.take 29 ≠ x ∧
        ∀ n, FirstFree (s.vol L 1) n → (s.vol L 1).lookup d (y.take 29) ≠ some n) := by
  obtain ⟨-, S, hd⟩ := h.disk himg
  have h₁ : Reached (Orderly L) d0 d1 s₁ := .step h hmake.orderly hmake.run
  obtain ⟨hmd, hd₁, hentered, type, V₁, creates⟩ :=
    hmake.creates hd h.guard.refs h.mounted_on_system
  have hfirst : FirstFree (s.vol L 1) m := ⟨creates.pos, creates.free, creates.first⟩
  obtain ⟨path₁, dp₁, t₁, hpath₁, -, hshortx, -⟩ := hmake.on.leads hd h.guard.refs
  obtain ⟨path, dp, t, hpath, hlast, hshorty, -⟩ := hon.leads hd₁ h₁.guard.refs
  have hlook : y.take 29 ≠ x.take 29 →
      (s₁.vol L 1).lookup d (y.take 29) = (s.vol L 1).lookup d (y.take 29) :=
    creates.lookup_of_ne hd.wf hshortx hshorty
  constructor
  · rintro ⟨hxlen, hylen, hother⟩
    refine ⟨fun hlong => absurd hlong (by omega), fun hlong => absurd hlong (by omega), ?_⟩
    refine hon.spares hd₁ h₁.guard.refs h₁.mounted_on_system hP hx hmd hmake.used
      (Nat.ne_of_gt creates.pos) ?_
    rw [hlook]
    · rw [List.take_of_length_le hylen]
      exact hother m hfirst
    · rw [List.take_of_length_le hylen, List.take_of_length_le hxlen]
      exact hne.symm
  · rintro hlt ⟨hxref, -, hspares⟩
    have hxlen : x.length ≤ 29 := by
      by_contra hlong
      have := hxref (by omega)
      have := hmake.success
      omega
    have hnot := hspares.notFound path hpath
    rw [hlast] at hnot
    have hcut : y.take 29 ≠ x := by
      intro heq
      have hnamed := hentered.named hfirst hlt hshortx
      rw [heq, ← List.take_of_length_le hxlen] at hnot
      exact hnot (creates.lookup_self hd.wf hshortx hlt hnamed)
    refine ⟨hxlen, hcut, fun n hn hfound => ?_⟩
    rw [hlook (by rwa [List.take_of_length_le hxlen]), hfound, hn.unique hfirst] at hnot
    exact hnot rfl

end Different

/-! ## Runs -/

/-- Is the directory before the last component of a path directory `d` of device 1? -/
def parentIs (s : KState) (path : List Byte) (d : Nat) : Bool :=
  match namex path true s with
  | .ok (some dp, _) t => (t.inodeTable dp).dev == 1 && (t.inodeTable dp).inum == d
  | _ => false

theorem ParentOn.of_parentIs {s : KState} {path : List Byte} {d : Nat}
    (h : parentIs s path d = true) : ∃ name, ParentOn s path d name := by
  unfold parentIs at h
  split at h
  · next dp name t hn =>
      rw [Bool.and_eq_true, beq_iff_eq, beq_iff_eq] at h
      exact ⟨name, dp, t, hn, h.1, h.2⟩
  · cases h

/-- The shell makes `/home/a`, and then `/home/b`. -/
theorem names_told_apart_ab :
    ∃ s s₁ s₂ r r', Reached (Orderly formattedLayout) systemDisk emptyDisk s ∧
      MakesAs formattedLayout 1 (.open pathA (FILECTRL_WRITEONLY ||| FILECTRL_CREATE)) 1 2 [0x61]
        r s s₁ ∧
      step 1 (.open pathB (FILECTRL_WRITEONLY ||| FILECTRL_CREATE)) s₁ = .ok r' s₂ ∧
      Spares formattedLayout 1 (.open pathB (FILECTRL_WRITEONLY ||| FILECTRL_CREATE)) 1 2 r'
        s₁ s₂ := by
  have hrun : (playFrom (WritesFiles formattedLayout) systemDisk emptyDisk []).any (fun s =>
      (parentIs { s with current := some 1 } pathA.1 1 &&
        ((s.vol formattedLayout 1).lookup 1 [0x62] == none)) &&
      answers 1 (.open pathA (FILECTRL_WRITEONLY ||| FILECTRL_CREATE)) (fun r s₁ =>
        (decide (0 ≤ r ∧ inUse (s.vol formattedLayout 1) 2 = false ∧
            inUse (s₁.vol formattedLayout 1) 2 = true) &&
          parentIs { s₁ with current := some 1 } pathB.1 1) &&
        answers 1 (.open pathB (FILECTRL_WRITEONLY ||| FILECTRL_CREATE)) (fun _ _ => true) s₁) s)
      = true := by
    decide +kernel
  obtain ⟨s, hs, hQ⟩ := Reached.of_playFrom hrun
  rw [Bool.and_eq_true, Bool.and_eq_true, beq_iff_eq] at hQ
  obtain ⟨⟨hpar, hnone⟩, hret⟩ := hQ
  obtain ⟨r, s₁, hx, hQ₁⟩ := exists_ok_of_answers hret
  rw [Bool.and_eq_true, Bool.and_eq_true, decide_eq_true_eq] at hQ₁
  obtain ⟨⟨⟨hpos, hfree, hused⟩, hpar₁⟩, hret₁⟩ := hQ₁
  obtain ⟨r', s₂, hx₁, -⟩ := exists_ok_of_answers hret₁
  have hs' := hs.orderly rfl
  have horderly : ∀ {s path flags}, Reached (Orderly formattedLayout) systemDisk emptyDisk s →
      Orderly formattedLayout 1 (.open path flags) s := by
    intro s path flags hs
    refine ⟨fun n hn => (by cases hn), fun _ => Or.inl ?_⟩
    rw [(hs.disk emptyDisk_consistent).1]
    rfl
  have hmake : MakesAs formattedLayout 1 (.open pathA (FILECTRL_WRITEONLY ||| FILECTRL_CREATE))
      1 2 [0x61] r s s₁ :=
    ⟨show hasFlag _ _ = true by decide, ⟨pathA, rfl, by decide, ParentOn.of_parentIs hpar⟩,
      horderly hs', hx, hpos, hfree, hused⟩
  have hP : Orderly formattedLayout 1 (.open pathB (FILECTRL_WRITEONLY ||| FILECTRL_CREATE)) s₁ :=
    horderly (.step hs' hmake.orderly hx)
  have htold : ToldApart (s.vol formattedLayout 1) 1 [0x61] [0x62] :=
    ⟨by decide, by decide, fun n _ hn => by
      rw [hnone] at hn
      cases hn⟩
  have h := (names_told_apart emptyDisk_consistent hs' hmake
    ⟨pathB, rfl, by decide, ParentOn.of_parentIs hpar₁⟩ hP hx₁ (by decide)).1 htold
  exact ⟨s, s₁, s₂, r, r', hs', hmake, hx₁, h.2.2⟩

/-- Thirty times the letter `a`. -/
def longName : List Byte := List.replicate 30 0x61

/-- A name with the same first 29 bytes. -/
def otherLongName : List Byte := List.replicate 29 0x61 ++ [0x62]

/-- The shell makes a file with a name of thirty bytes and removes the other name: the
calls succeed, and the file is gone. -/
theorem long_names_collide :
    emptyDisk.Consistent formattedLayout ∧ longName ≠ otherLongName ∧
      ∃ (path path' : CString) (s s₁ s₂ : KState) (r : Int),
        Reached (Orderly formattedLayout) systemDisk emptyDisk s ∧
        MakesAs formattedLayout 1 (.open path (FILECTRL_WRITEONLY ||| FILECTRL_CREATE)) 1 2
          longName r s s₁ ∧
        (Syscall.rm path').On s₁ 1 1 otherLongName ∧ step 1 (.rm path') s₁ = .ok 0 s₂ ∧
        inUse (s₂.vol formattedLayout 1) 2 = false := by
  refine ⟨emptyDisk_consistent, by decide, ⟨homePath ++ slash :: longName, by decide⟩,
    ⟨homePath ++ slash :: otherLongName, by decide⟩, ?_⟩
  have hrun : (playFrom (WritesFiles formattedLayout) systemDisk emptyDisk []).any (fun s =>
      parentIs { s with current := some 1 } (homePath ++ slash :: longName) 1 &&
      answers 1 (.open ⟨homePath ++ slash :: longName, by decide⟩
          (FILECTRL_WRITEONLY ||| FILECTRL_CREATE)) (fun r s₁ =>
        (decide (0 ≤ r ∧ inUse (s.vol formattedLayout 1) 2 = false ∧
            inUse (s₁.vol formattedLayout 1) 2 = true) &&
          parentIs { s₁ with current := some 1 } (homePath ++ slash :: otherLongName) 1) &&
        answers 1 (.rm ⟨homePath ++ slash :: otherLongName, by decide⟩) (fun r' s₂ =>
          r' == 0 && (inUse (s₂.vol formattedLayout 1) 2 == false)) s₁) s) = true := by
    decide +kernel
  obtain ⟨s, hs, hQ⟩ := Reached.of_playFrom hrun
  rw [Bool.and_eq_true] at hQ
  obtain ⟨hpar, hret⟩ := hQ
  obtain ⟨r, s₁, hx, hQ₁⟩ := exists_ok_of_answers hret
  rw [Bool.and_eq_true, Bool.and_eq_true, decide_eq_true_eq] at hQ₁
  obtain ⟨⟨⟨hpos, hfree, hused⟩, hpar₁⟩, hret₁⟩ := hQ₁
  obtain ⟨r', s₂, hx₁, hQ₂⟩ := exists_ok_of_answers hret₁
  rw [Bool.and_eq_true, beq_iff_eq, beq_iff_eq] at hQ₂
  obtain ⟨rfl, hgone⟩ := hQ₂
  have hs' := hs.orderly rfl
  have hroom : Room formattedLayout s := by
    refine Or.inl ?_
    rw [(hs'.disk emptyDisk_consistent).1]
    rfl
  exact ⟨s, s₁, s₂, r, hs', ⟨show hasFlag _ _ = true by decide, ⟨_, rfl, by decide,
      ParentOn.of_parentIs hpar⟩,
    ⟨fun n hn => (by cases hn), fun _ => hroom⟩, hx, hpos, hfree, hused⟩,
    ⟨_, rfl, by decide, ParentOn.of_parentIs hpar₁⟩, hx₁, hgone⟩

end Dmaos
