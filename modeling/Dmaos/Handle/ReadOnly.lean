import Dmaos.Handle.Policy

/-!
# The system disk is read-only

Device 0 is never written.  The calls that create and remove names check the
device of the directory.  `write` and `ftruncate` check nothing: they rest on
an invariant of the table of open files (`Guard`), that a file open for
writing is on another device, and so on the reference counts, since the slot
of an open file must not be recycled for an inode of device 0.

The argument is the same for every policy that shields device 0 (`Shield`);
`readOnly` is the weakest of them.
-/

namespace Dmaos

open Fault Function KState

variable {d dev type : Nat} {s s' : KState} {l p : List (Fin NINODE)} {ip : Fin NINODE}
  {path : List Byte}

/-! ## The invariant -/

/-- Device 0 has not been written. -/
structure Safe (s s' : KState) : Prop where
  disk : s'.disk 0 = s.disk 0
  writes : ∃ ws, s'.writes = s.writes ++ ws ∧ ∀ w ∈ ws, w.dev ≠ 0

instance : IsPreorder KState Safe where
  refl _ := ⟨rfl, [], by simp⟩
  trans _ _ _ h₁ h₂ := by
    obtain ⟨ws, hw, hd⟩ := h₁.writes
    obtain ⟨ws', hw', hd'⟩ := h₂.writes
    refine ⟨h₂.disk.trans h₁.disk, ws ++ ws', by rw [hw', hw, List.append_assoc], ?_⟩
    intro w hmem
    rcases List.mem_append.mp hmem with hmem | hmem
    · exact hd w hmem
    · exact hd' w hmem

theorem OnDev.safe (h : OnDev d s s') (hd : d ≠ 0) : Safe s s' := by
  obtain ⟨ws, hw, hdev⟩ := h.writes
  exact ⟨h.disk 0 hd.symm, ws, hw, fun w hmem => by rw [hdev w hmem]; exact hd⟩

theorem Unwritten.safe (h : Unwritten s s') : Safe s s' :=
  ⟨by rw [h.disk], [], by rw [h.writes, List.append_nil], by simp⟩

/-- A file open for writing is not on device 0. -/
def Writable (s : KState) : Prop :=
  ∀ f ip, (s.fileTable f).ip = some ip → (s.fileTable f).writable = true →
    (s.inodeTable ip).dev ≠ 0

/-- The slot of an open file stays for the same inode. -/
theorem Writable.of_stable (h : Writable s) (ht : Tables s s')
    (hs : Stable [] s s') : Writable s' := by
  intro f ip hf hw
  rw [ht.fileTable] at hf hw
  rw [(hs ip (refsTo_pos_of_file hf)).dev]
  exact h f ip hf hw

theorem Writable.nets {α : Type} {x : Kern α} {q : α → List (Fin NINODE)} {a : α} (hx : Nets [] x q)
    (he : Within Still x) (hr : Refs l s) (h : Writable s) (ha : x s = .ok a s') : Writable s' := by
  have hr' : Refs (l ++ []) s := by rwa [List.append_nil]
  exact h.of_stable (he.of_ok ha).toTables (hx.refs hr'.sub ha).2

/-- Device 0 is not written, and no file on it is open for writing. -/
def readOnly : Policy where
  Inv := Writable
  Rel := Safe
  unwritten h := h.safe
  putFile := by
    intro s f F h hip g ip hg hw
    by_cases hgf : g = f
    · subst hgf
      simp only [putFile, update_self] at hg hw
      rcases hip with hip | ⟨hip, hw'⟩
      · rw [hip] at hg
        cases hg
      · exact h g ip (by rw [← hip, hg]) (by rw [← hw', hw])
    · simp only [putFile, update_of_ne hgf] at hg hw
      exact h g ip hg hw
  putIp := by
    intro s ip f F h hip _ hdev g jp hg hw
    by_cases hgf : g = f
    · subst hgf
      simp only [putFile, update_self] at hg hw
      rw [hip] at hg
      cases hg
      exact hdev hw
    · simp only [putFile, update_of_ne hgf] at hg hw
      exact h g jp hg hw
  putProc _ _ h := h
  setCurrent _ h := h
  calm h hc := h.of_stable hc.toTables fun i _ => ⟨hc.dev i, hc.inum i, hc.valid⟩
  iput h hx := h.of_stable (Still.of_ok .iput hx).toTables fun i _ => iput_kept hx i
  iget hr h _ hx := h.nets .iget .iget hr hx
  namex hr h hx := h.nets .namex .namex hr hx

/-! ## Calls that write -/

/-- A policy that shields device 0: files on it are not open for writing, and
work on other devices keeps the policy. -/
class Shield (P : Policy) : Prop where
  writable : ∀ {s : KState}, P.Inv s → Writable s
  rel : ∀ {d : Nat} {s s' : KState}, d ≠ 0 → OnDev d s s' → P.Rel s s'
  inv : ∀ {d : Nat} {s s' : KState}, d ≠ 0 → P.Inv s → OnDev d s s' → Stable [] s s' → P.Inv s'

instance : Shield readOnly where
  writable h := h
  rel hd h := h.safe hd
  inv _ h ho hs := Writable.of_stable h ho.toTables hs

section Rules

variable {P : Policy} [Shield P] {α : Type} {q : α → List (Fin NINODE)}

/-- A computation on a device other than 0. -/
theorem ServesAt.takesOn {x : Kern α} (h : TakesOn d p x q) (hd : d ≠ 0)
    (hs : Guard P p s) (hp : AllOn d p s) : ServesAt P s x q := by
  obtain ⟨h1, h2⟩ := h [] s (by rw [List.append_nil]; exact hs.refs) hp
  refine ⟨Shield.rel hd h1, fun a s' hx => ?_⟩
  obtain ⟨h3, h4, -⟩ := h2 a s' hx
  rw [List.append_nil] at h3
  exact ⟨h3, Shield.inv hd hs.inv (h1.of_ok hx) h4⟩

/-- A computation on the inode of a slot that is not on device 0. -/
theorem ServesAt.local {x : Kern α}
    (h : ∀ d, LocalOn d ip x) (hd : (s.inodeTable ip).dev ≠ 0) (hs : Guard P p s) :
    ServesAt P s x (fun _ => p) := by
  have hw := h _ s rfl
  refine ⟨Shield.rel hd (hw.onDev rfl), fun a s' hx => ?_⟩
  have ht := hw.of_ok hx
  exact ⟨ht.refs hs.refs, Shield.inv hd hs.inv (ht.onDev rfl) fun i _ => ht.kept i⟩

end Rules

/-! ## Opening -/

section Opening

variable {P : Policy} [Shield P] {flags : Nat} {dp : Fin NINODE} {name : List Byte}

theorem hasFlag_mono {m mask : Nat} (h : hasFlag flags m = true) (hm : mask &&& m = m) :
    hasFlag flags mask = true := by
  unfold hasFlag at h ⊢
  simp only [bne_iff_ne, ne_eq] at h ⊢
  intro h0
  rw [← hm, ← Nat.and_assoc, h0, Nat.zero_and] at h
  exact h rfl

/-- A computation on a device other than 0, then the rest.  The slots of the other
references `l` are kept. -/
theorem ServesAt.onDev {α β : Type} {q : α → List (Fin NINODE)}
    {r : β → List (Fin NINODE)} {x : Kern α} {f : α → Kern β} (hx : TakesOn d p x q)
    (hd : d ≠ 0) (hs : Guard P (p ++ l) s) (hp : AllOn d (p ++ l) s)
    (hf : ∀ a t, x s = .ok a t → Guard P (q a ++ l) t → AllOn d (q a ++ l) t →
      (∀ i ∈ l, (s.inodeTable i).Kept (t.inodeTable i)) → ServesAt P t (f a) r) :
    ServesAt P s (x >>= f) r := by
  refine .bind (.takesOn (hx.frame l) hd hs hp) fun a t ha ht => hf a t ha ht ?_ fun i hi => ?_
  · obtain ⟨-, h⟩ := hx.frame l [] s (by rw [List.append_nil]; exact hs.refs) hp
    exact (h a t ha).2.2
  · obtain ⟨-, h⟩ := hx l s hs.refs fun i hi => hp i (List.mem_append_left l hi)
    exact (h a t ha).2.1 i (refsTo_pos_of_mem hi)

theorem iallocScan_valid : ∀ {k inum : Nat} {s t : KState},
    iallocScan dev type k inum s = .ok (some ip) t → (t.inodeTable ip).valid = true
  | 0, _, _, _, hx => by cases hx
  | k + 1, _, _, _, hx => by
      obtain ⟨sb, t₁, h₁, hx⟩ := bind_ok.mp hx
      obtain ⟨buf, t₂, h₂, hx⟩ := bind_ok.mp hx
      split_ifs at hx
      · obtain ⟨u, t₃, h₃, hx⟩ := bind_ok.mp hx
        obtain ⟨i, t₄, h₄, hx⟩ := bind_ok.mp hx
        replace hx := modify_then hx
        obtain ⟨hi, rfl⟩ := pure_ok.mp hx
        cases hi
        rw [putInode_self]
      · exact iallocScan_valid hx

/-- A new inode is in the cache. -/
theorem ialloc_valid {t : KState} (hx : ialloc dev type s = .ok (some ip) t) :
    (t.inodeTable ip).valid = true := by
  obtain ⟨sb, t₁, h₁, hx⟩ := bind_ok.mp hx
  exact iallocScan_valid hx

theorem ServesAt.fsCreateIn (hd : d ≠ 0) (hs : Guard P [dp] s) (hp : AllOn d [dp] s) :
    ServesAt P s (fsCreateIn dp name flags) (fun _ => []) := by
  -- The directory is given back and the inode opened.
  have alloc : ∀ {ip : Fin NINODE} {t : KState}, Guard P [dp, ip] t → AllOn d [dp, ip] t →
      (t.inodeTable ip).valid = true →
      ServesAt P t (Dmaos.iput dp >>= fun _ => Dmaos.allocFileDescriptor ip flags)
        (fun _ => []) := by
    intro ip t ht hpt hv
    refine .onDev (l := [ip]) .iput hd ht hpt fun _ t' _ ht' hpt' hk => ?_
    refine .allocFileDescriptor ht' ((hk ip (.head _)).valid hv) fun _ => ?_
    rw [hpt' _ (.head _)]
    exact hd
  refine .inodeAt ?_
  rw [hp dp (.head _)]
  refine .onDev (l := []) .dirlookup hd hs hp fun o t _ ht hpt _ => ?_
  rw [List.append_nil] at ht hpt
  cases o with
  | none =>
      refine .onDev (l := [dp]) .ialloc hd ht hpt fun o t ha ht hpt _ => ?_
      cases o with
      | none =>
          exact .onDev (l := []) .iput hd ht hpt fun _ _ _ ht _ _ => .pure ht
      | some ip =>
          have hswap : [ip, dp].Perm [dp, ip] := .swap _ _ []
          have hv := ialloc_valid ha
          refine .inodeAt (.onDev (l := [ip]) .dirlink hd ⟨ht.refs.perm hswap, ht.inv⟩
            (fun i hi => hpt i (hswap.mem_iff.mpr hi)) fun r t _ ht hpt hk => ?_)
          split_ifs
          · exact .onDev (l := [dp]) .iput hd ⟨ht.refs.perm hswap.symm, ht.inv⟩
              (fun i hi => hpt i (hswap.mem_iff.mp hi)) fun _ _ _ ht hpt _ =>
              .onDev (l := []) .iput hd ht hpt fun _ _ _ ht _ _ => .pure ht
          · exact alloc ht hpt ((hk ip (.head _)).valid hv)
  | some o =>
      obtain ⟨ip, off⟩ := o
      have hswap : [ip, dp].Perm [dp, ip] := .swap _ _ []
      refine .onDev (l := []) (.of_local (p := [ip, dp]) .ilock (.head _)) hd ht hpt
        fun _ t hl ht hpt _ => .inodeAt ?_
      have hv := (ilock_valid hl).2
      split_ifs
      · refine .onDev (l := []) (.of_local (p := [ip, dp]) .itrunc (.head _)) hd ht hpt
          fun _ t' htr ht' hpt' _ => ?_
        refine alloc ⟨ht'.refs.perm hswap, ht'.inv⟩ (fun i hi => hpt' i (hswap.mem_iff.mpr hi)) ?_
        exact (LocalOn.itrunc.of_ok (hpt ip (.head _)) htr).slot_valid hv
      · exact alloc ⟨ht.refs.perm hswap, ht.inv⟩ (fun i hi => hpt i (hswap.mem_iff.mpr hi)) hv

theorem allOn_single (s : KState) (dp : Fin NINODE) : AllOn (s.inodeTable dp).dev [dp] s := by
  intro i hi
  rw [List.mem_singleton.mp hi]

theorem Serves.fsCreate (hflags : hasFlag flags FILECTRL_CREATE = true) :
    Serves P [] (fsCreate path flags) (fun _ => []) := by
  refine .bind .namex fun r => ?_
  rcases r with ⟨_ | dp, name⟩
  · exact .pure rfl
  · intro s hs
    refine .inodeAt ?_
    split_ifs with h
    · exact Serves.bind .iput (fun _ => .pure rfl) s hs
    · refine .fsCreateIn (fun h0 => h ⟨h0, hasFlag_mono hflags ?_⟩) hs (allOn_single s dp)
      decide

theorem Serves.fsOpen : Serves P [] (fsOpen path flags) (fun _ => []) := by
  refine .ite (.bind .fileCreate fun
    | none => .pure rfl
    | some f => .installFd) (.bind .namei fun
    | none => .pure rfl
    | some ip => fun s hs => .bind (Serves.ofCalm .ilock s hs) fun u s hl hs => .inodeAt ?_)
  have hv := (ilock_valid hl).2
  split_ifs with h1 h2
  · exact Serves.bind .iput (fun _ => .pure rfl) s hs
  · have hdev : (s.inodeTable ip).dev ≠ 0 := fun h0 => h1 ⟨h0, hasFlag_mono h2.1 (by decide)⟩
    refine .bind (.local (fun _ => LocalOn.itrunc) hdev hs) fun u t hu ht => ?_
    have htouch := LocalOn.itrunc.of_ok rfl hu
    refine .allocFileDescriptor ht (htouch.slot_valid hv) fun _ => ?_
    rw [htouch.slot_dev]
    exact hdev
  · exact .allocFileDescriptor hs hv fun hw h0 => h1 ⟨h0, hasFlag_mono hw (by decide)⟩

end Opening

/-! ## Calls on a descriptor -/

section Descriptors

variable {P : Policy} [Shield P] {fd n length : Int} {buf : Buf}

theorem Serves.fsWrite : Serves P p (fsWrite fd buf n) (fun _ => p) := by
  refine .bind .fdFile fun
    | none => .pure rfl
    | some (_, _, f) => fun s hs => .get ?_
  show ServesAt P s (if (s.fileTable f).type = .none then _ else _) _
  split_ifs with h1 h2
  · exact .pure hs
  · exact .pure hs
  · split
    · exact .pure hs
    · split
      · exact .pure hs
      · next ip hip =>
          refine .bind (.local (fun _ => .writei)
            (Shield.writable hs.inv f ip hip (by simpa using h2)) hs) fun w t _ ht => ?_
          split_ifs
          · exact Serves.bind .setOff (fun _ => .pure rfl) t ht
          · exact .pure ht
          · exact .pure ht
    · exact .throw _

theorem Serves.fsFtruncate : Serves P p (fsFtruncate fd length) (fun _ => p) := by
  refine .bind .fdFile fun
    | none => .pure rfl
    | some (_, _, f) => fun s hs => .get ?_
  show ServesAt P s (if (s.fileTable f).writable = false then _ else _) _
  split_ifs with h1 h2 h3
  · exact .pure hs
  · exact .pure hs
  · exact .pure hs
  · split
    · next ip _ hip =>
        exact .bind (.local (fun _ => .itrunc)
          (Shield.writable hs.inv f ip hip (by simpa using h1)) hs) fun _ _ _ ht => .pure ht
    · exact .throw _
    · exact .pure hs

end Descriptors

/-! ## Names and directories -/

section Namespace

variable {P : Policy} [Shield P]

/-- A call that resolves the parent directory, refuses device 0, and goes on
in that directory. -/
theorem Serves.inParent {α : Type} {x : Fin NINODE → List Byte → Kern α} {a b : α}
    (hx : ∀ d dp name, TakesOn d [dp] (x dp name) (fun _ => [])) :
    Serves P [] (do
      match ← Dmaos.namex path true with
      | (none, _) => return a
      | (some dp, name) =>
        let D ← inodeAt dp
        if D.dev = 0 then
          Dmaos.iput dp
          return b
        else x dp name) (fun _ => []) := by
  refine .bind .namex fun r => ?_
  rcases r with ⟨_ | dp, name⟩
  · exact .pure rfl
  · intro s hs
    refine .inodeAt ?_
    split_ifs with h
    · exact Serves.bind .iput (fun _ => .pure rfl) s hs
    · exact .takesOn (hx _ dp name) h hs (allOn_single s dp)

theorem Serves.fsMkdir : Serves P [] (fsMkdir path) (fun _ => []) :=
  .inParent fun _ _ _ => .fsMkdirIn

theorem Serves.fsRm : Serves P [] (fsRm path) (fun _ => []) :=
  .inParent fun _ _ _ => .fsRmIn

end Namespace

/-! ## Runs -/

section Runs

theorem Serves.anySyscall {P : Policy} [Shield P] {c : Syscall} :
    Serves P [] (Dmaos.handleSyscall c) (fun _ => []) := by
  by_cases hc : c.Writes
  · cases c with
    | «open» path flags =>
        show Serves P [] (if hasFlag flags FILECTRL_CREATE = true then _ else _) _
        split_ifs with h
        · exact .fsCreate h
        · exact .fsOpen
    | write fd buf n => exact .fsWrite
    | ftruncate fd length => exact .fsFtruncate
    | mkdir path => exact .fsMkdir
    | rm path => exact .fsRm
    | _ => exact hc.elim
  · exact .handleSyscall hc

theorem Serves.readSuperblock : Serves readOnly l (readSuperblock dev) (fun _ => l) :=
  .calm .readBlock fun _ =>
    .bind (fun _ hs => .update ⟨rfl, [], by simp⟩ ⟨hs.refs, hs.inv⟩) fun _ =>
      .ite (.pure rfl) (.throw _)

theorem Serves.fsInit : Serves readOnly [] fsInit (fun _ => []) :=
  .bind .readSuperblock fun _ => .bind .readSuperblock fun _ => .bind .namei fun
    | none => .throw _
    | some _ => .calm .inodeAt fun _ =>
        .bind (fun _ hs => .update ⟨rfl, [], by simp⟩ ⟨hs.refs, hs.inv⟩) fun _ => .iput

theorem Serves.boot : Serves readOnly [] boot (fun _ => []) :=
  .bind .fsInit fun _ => .bind .createProcess fun
    | none => .throw _
    | some _ => .bind (.idleProc) fun _ => .bind .createProcess fun _ => .pure rfl

theorem Refs.coldState (d0 d1 : Device) : Refs [] (coldState d0 d1) := by
  intro i
  have h1 : fileRefs (Dmaos.coldState d0 d1) i = 0 := Tally.count_none i
  have h2 : cwdRefs (Dmaos.coldState d0 d1) i = 0 := Tally.count_none i
  unfold refsTo
  rw [h1, h2]
  exact Int.le_refl 0

theorem Guard.coldState (d0 d1 : Device) : Guard readOnly [] (coldState d0 d1) :=
  ⟨Refs.coldState d0 d1, fun _ _ hf => by cases hf⟩

end Runs

end Dmaos
