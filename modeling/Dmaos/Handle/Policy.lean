import Dmaos.Handle.Device

/-!
# Invariants of system calls

Most of what a system call does is bookkeeping: it resolves names, and moves
references between the running call, the table of open files and the process
table.  A `Policy` is an invariant that this bookkeeping keeps, together with a
relation between the states before and after.

`Serves P p x q` says that a computation keeps the policy `P` when it starts
with the references `p` and ends with `q a`: wherever it ends, the relation
holds, and if it returns, the invariant does.  The calls that write to no
device keep every policy; for a particular policy only `open`, `write`,
`ftruncate`, `mkdir` and `rm` remain (`Serves.handleSyscall`).
-/

namespace Dmaos

open Fault Function KState

variable {s s' : KState} {l : List (Fin NINODE)} {P : Policy} {f : Fin GLOBAL_OPEN_FILE_LIMIT}
  {p : Fin PROCS_MAX} {F : File} {Q : Process} {ip : Fin NINODE} {path : List Byte} {flags : Nat}
  {index : Int} {prog : Program}

/-! ## Policies -/

/-- No block is written. -/
structure Unwritten (s s' : KState) : Prop where
  disk : s'.disk = s.disk
  sb : s'.sb = s.sb
  writes : s'.writes = s.writes

theorem Idle.unwritten (h : Idle s s') : Unwritten s s' :=
  ⟨h.disk, h.sb, h.writes⟩

/-- An invariant the bookkeeping of system calls keeps, and a relation between
the states before and after.  The invariant may say which inodes can be open
for writing. -/
structure Policy where
  Inv : KState → Prop
  Rel : KState → KState → Prop
  [preorder : IsPreorder KState Rel]
  unwritten : ∀ {s s' : KState}, Unwritten s s' → Rel s s'
  putFile : ∀ {s : KState} (f : Fin GLOBAL_OPEN_FILE_LIMIT) {F : File}, Inv s →
    (F.ip = none ∨ F.ip = (s.fileTable f).ip ∧ F.writable = (s.fileTable f).writable) →
    Inv (s.putFile f F)
  putIp : ∀ {s : KState} {ip : Fin NINODE} (f : Fin GLOBAL_OPEN_FILE_LIMIT) {F : File}, Inv s →
    F.ip = some ip → (s.inodeTable ip).valid = true →
    (F.writable = true → (s.inodeTable ip).dev ≠ 0) → Inv (s.putFile f F)
  putProc : ∀ {s : KState} (p : Fin PROCS_MAX) (P : Process), Inv s → Inv (s.putProc p P)
  setCurrent : ∀ {s : KState} (c : Option (Fin PROCS_MAX)), Inv s → Inv { s with current := c }
  calm : ∀ {s s' : KState}, Inv s → Calm s s' → Inv s'
  iput : ∀ {s s' : KState} {ip : Fin NINODE} {u : Unit}, Inv s → iput ip s = .ok u s' → Inv s'
  /-- Inodes of device 0 may be taken up, and those already in use. -/
  iget : ∀ {l : List (Fin NINODE)} {s s' : KState} {dev inum : Nat} {i : Fin NINODE}, Refs l s →
    Inv s → (dev = 0 ∨ ∃ j, Holds dev inum j s) → iget dev inum s = .ok i s' → Inv s'
  namex : ∀ {l : List (Fin NINODE)} {s s' : KState} {path : List Byte} {parent : Bool}
    {r : Option (Fin NINODE) × List Byte}, Refs l s → Inv s →
    namex path parent s = .ok r s' → Inv s'

attribute [instance] Policy.preorder

/-- The reference counts are large enough, and the invariant holds. -/
structure Guard (P : Policy) (l : List (Fin NINODE)) (s : KState) : Prop where
  refs : Refs l s
  inv : P.Inv s

/-- From `s`, the computation `x` keeps the policy. -/
def ServesAt (P : Policy) {α : Type} (s : KState) (x : Kern α) (q : α → List (Fin NINODE)) :
    Prop :=
  Stays (P.Rel s) x s ∧ ∀ (a : α) (s' : KState), x s = .ok a s' → Guard P (q a) s'

/-- `x` keeps the policy when it starts with the references `p` and ends with
the references `q a`. -/
def Serves (P : Policy) {α : Type} (p : List (Fin NINODE)) (x : Kern α)
    (q : α → List (Fin NINODE)) : Prop :=
  ∀ s : KState, Guard P p s → ServesAt P s x q

/-! ## Updates of the tables -/

section Updates

variable {i : Fin NINODE}

theorem refsTo_putFile (f : Fin GLOBAL_OPEN_FILE_LIMIT) (F : File) :
    refsTo l (s.putFile f F) i =
      refsTo l s i - Tally.unit (s.fileTable f).ip i + Tally.unit F.ip i := by
  have h : (fun g => ((s.putFile f F).fileTable g).ip) =
      update (fun g => (s.fileTable g).ip) f F.ip := by
    funext g
    by_cases hg : g = f
    · subst hg
      simp [putFile]
    · simp [putFile, hg]
  unfold refsTo fileRefs
  rw [h, Tally.count_update]
  show _ - _ + _ + cwdRefs s i + _ = _
  omega

theorem refsTo_putProc (p : Fin PROCS_MAX) (Q : Process) :
    refsTo l (s.putProc p Q) i =
      refsTo l s i - Tally.unit (s.procs p).cwd i + Tally.unit Q.cwd i := by
  have h : (fun g => ((s.putProc p Q).procs g).cwd) =
      update (fun g => (s.procs g).cwd) p Q.cwd := by
    funext g
    by_cases hg : g = p
    · subst hg
      simp [putProc]
    · simp [putProc, hg]
  unfold refsTo cwdRefs
  rw [h, Tally.count_update]
  show fileRefs s i + _ + _ = _
  omega

/-- An open file counts. -/
theorem refsTo_pos_of_file (h : (s.fileTable f).ip = some i) : 0 < refsTo l s i := by
  have h1 := Tally.count_pos (g := fun g => (s.fileTable g).ip) h
  have h2 := Tally.count_nonneg (fun p => (s.procs p).cwd) i
  unfold refsTo fileRefs cwdRefs
  omega

/-- A working directory counts. -/
theorem refsTo_pos_of_cwd (h : (s.procs p).cwd = some i) : 0 < refsTo l s i := by
  have h1 := Tally.count_pos (g := fun p => (s.procs p).cwd) h
  have h2 := Tally.count_nonneg (fun f => (s.fileTable f).ip) i
  unfold refsTo fileRefs cwdRefs
  omega

/-- A file changes to one that holds no inode, or keeps the one it has. -/
theorem Refs.putFile (h : Refs l s) (f : Fin GLOBAL_OPEN_FILE_LIMIT)
    (hip : F.ip = none ∨ F.ip = (s.fileTable f).ip) : Refs l (s.putFile f F) := by
  intro i
  have := h i
  have := Tally.unit_nonneg (s.fileTable f).ip i
  rw [refsTo_putFile]
  show _ ≤ (s.inodeTable i).ref
  rcases hip with hip | hip
  · rw [hip, Tally.unit_none]
    omega
  · rw [hip]
    omega

/-- A process keeps its working directory, or gives it up. -/
theorem Refs.putProc (h : Refs l s) (p : Fin PROCS_MAX)
    (hcwd : Q.cwd = none ∨ Q.cwd = (s.procs p).cwd) : Refs l (s.putProc p Q) := by
  intro i
  have := h i
  have := Tally.unit_nonneg (s.procs p).cwd i
  rw [refsTo_putProc]
  show _ ≤ (s.inodeTable i).ref
  rcases hcwd with hcwd | hcwd
  · rw [hcwd, Tally.unit_none]
    omega
  · rw [hcwd]
    omega

/-- The count of a slot covers one reference more than those left to it. -/
theorem Refs.spend {o : Option (Fin NINODE)} (h : Refs (ip :: l) s) (i : Fin NINODE) :
    refsTo l s i - Tally.unit o i + Tally.unit (some ip) i ≤ (s.inodeTable i).ref := by
  have h1 := h i
  have := Tally.unit_nonneg o i
  rw [refsTo_cons] at h1
  by_cases hi : ip = i
  · subst hi
    rw [if_pos rfl] at h1
    rw [Tally.unit_self]
    omega
  · rw [if_neg hi] at h1
    rw [Tally.unit_of_ne hi]
    omega

/-- A reference of the call becomes the working directory of a process. -/
theorem Refs.putCwd (h : Refs (ip :: l) s) (p : Fin PROCS_MAX)
    (hcwd : Q.cwd = some ip) : Refs l (s.putProc p Q) := by
  intro i
  rw [refsTo_putProc, hcwd]
  exact h.spend i

/-- A reference of the call becomes that of an open file. -/
theorem Refs.putIp (h : Refs (ip :: l) s) (f : Fin GLOBAL_OPEN_FILE_LIMIT) (hip : F.ip = some ip) :
    Refs l (s.putFile f F) := by
  intro i
  rw [refsTo_putFile, hip]
  exact h.spend i

/-- A reference is given back and its holder cleared. -/
theorem Refs.iput_clear {t : KState} {u : Unit} (hs : Refs l s)
    (h : iput ip s = .ok u t) (hip : s'.inodeTable = t.inodeTable)
    (hrefs : ∀ i, refsTo l s' i = refsTo l s i - Tally.unit (some ip) i) : Refs l s' := by
  obtain ⟨-, rfl⟩ := iput_ok h
  intro i
  have := hs i
  rw [hrefs, hip]
  by_cases hi : i = ip
  · subst hi
    rw [putInode_self, Tally.unit_self]
    show _ ≤ (s.inodeTable i).ref - 1
    omega
  · rw [putInode_of_ne hi, Tally.unit_of_ne (Ne.symm hi)]
    omega

theorem Unwritten.putFile (s : KState) (f : Fin GLOBAL_OPEN_FILE_LIMIT) (F : File) :
    Unwritten s (s.putFile f F) := ⟨rfl, rfl, rfl⟩

theorem Unwritten.putProc (s : KState) (p : Fin PROCS_MAX) (Q : Process) :
    Unwritten s (s.putProc p Q) := ⟨rfl, rfl, rfl⟩

end Updates

/-! ## Rules -/

section Rules

variable {α β : Type} {p : List (Fin NINODE)} {q : α → List (Fin NINODE)} {x : Kern α}
  {f : α → Kern β} {r : β → List (Fin NINODE)}

theorem ServesAt.of_ok {a : α} (hx : x s = .ok a s')
    (h : ServesAt P s x q) : P.Rel s s' ∧ Guard P (q a) s' :=
  ⟨h.1.of_ok hx, h.2 a s' hx⟩

theorem ServesAt.bind
    (hx : ServesAt P s x q) (hf : ∀ a t, x s = .ok a t → Guard P (q a) t → ServesAt P t (f a) r) :
    ServesAt P s (x >>= f) r := by
  refine ⟨Stays.bind hx.1 fun a t ha ht => ?_, fun b s' h => ?_⟩
  · exact trans_of P.Rel ht (hf a t ha (hx.2 a t ha)).1
  · obtain ⟨a, t, ha, h⟩ := bind_ok.mp h
    exact (hf a t ha (hx.2 a t ha)).2 b s' h

theorem ServesAt.pure {a : α} (h : Guard P (q a) s) : ServesAt P s (pure a) q := by
  refine ⟨refl_of P.Rel s, fun b s' hx => ?_⟩
  obtain ⟨rfl, rfl⟩ := pure_ok.mp hx
  exact h

theorem ServesAt.throw (e : Halt) : ServesAt P s (throw e) q :=
  ⟨refl_of P.Rel s, fun _ _ hx => absurd hx throw_ok⟩

theorem ServesAt.update {f : KState → KState} {q : PUnit → List (Fin NINODE)}
    (hs : P.Rel s (f s)) (h : Guard P (q ⟨⟩) (f s)) : ServesAt P s (modify f) q :=
  ⟨hs, fun _ _ hx => by rw [modify_ok.mp hx]; exact h⟩

theorem ServesAt.get {f : KState → Kern β}
    (h : ServesAt P s (f s) r) : ServesAt P s (get >>= f) r := h

theorem ServesAt.inodeAt {f : Inode → Kern β}
    (h : ServesAt P s (f (s.inodeTable ip)) r) : ServesAt P s (inodeAt ip >>= f) r := h

theorem Serves.bind
    (hx : Serves P p x q) (hf : ∀ a, Serves P (q a) (f a) r) : Serves P p (x >>= f) r :=
  fun s hs => (hx s hs).bind fun a t _ ht => hf a t ht

theorem Serves.pure {a : α} (h : p = q a) : Serves P p (pure a) q :=
  fun _ hs => .pure (h ▸ hs)

theorem Serves.throw (e : Halt) : Serves P p (throw e) q := fun _ _ => .throw e

theorem Serves.ite {c : Prop} [Decidable c] {x y : Kern α} (hx : Serves P p x q)
    (hy : Serves P p y q) : Serves P p (if c then x else y) q := by
  split_ifs
  · exact hx
  · exact hy

theorem Serves.get {f : KState → Kern β}
    (h : ∀ s, Serves P p (f s) r) : Serves P p (get >>= f) r := fun s hs => h s s hs

/-- A computation that only reads, and keeps the invariant. -/
theorem ServesAt.nets (h : Nets p x q) (he : Within Still x) (hs : Guard P p s)
    (hinv : ∀ {s' : KState} {a : α}, x s = .ok a s' → P.Inv s') : ServesAt P s x q := by
  refine ⟨P.unwritten (he.effect s).unwritten, fun a s' hx => ⟨?_, hinv hx⟩⟩
  have := (h.refs (l := []) (by rw [List.append_nil]; exact hs.refs) hx).1
  rwa [List.append_nil] at this

theorem Serves.nets (h : Nets p x q) (he : Within Still x)
    (hinv : ∀ {s s' : KState} {a : α}, Guard P p s → x s = .ok a s' → P.Inv s') :
    Serves P p x q := fun _ hs => .nets h he hs fun hx => hinv hs hx

theorem Serves.iput : Serves P (ip :: p) (iput ip) (fun _ => p) :=
  .nets (Nets.iput.frame p) .iput fun hs hx => P.iput hs.inv hx

theorem Serves.iget_zero {inum : Nat} : Serves P p (iget 0 inum) (fun i => i :: p) :=
  .nets (Nets.iget.frame p) .iget fun hs hx => P.iget hs.refs hs.inv (Or.inl rfl) hx

theorem Serves.namex {parent : Bool} : Serves P [] (namex path parent) (fun r => r.1.toList) :=
  .nets .namex .namex fun hs hx => P.namex hs.refs hs.inv hx

theorem Serves.namei : Serves P [] (namei path) (fun o => o.toList) :=
  .bind .namex fun _ => .pure rfl

/-- Read, then go on. -/
theorem Serves.ofCalm (hx : Confined Calm Fairly x) : Serves P p x (fun _ => p) :=
  .nets (.of_calm hx) ⟨fun s => (hx.effect s).still, fun _ => trivial⟩ fun hs h =>
    P.calm hs.inv (hx.of_ok h)

theorem Serves.calm
    (hx : Confined Calm Fairly x) (hf : ∀ a, Serves P p (f a) r) : Serves P p (x >>= f) r :=
  .bind (.ofCalm hx) hf

end Rules

/-! ## Open files -/

section Files

variable {p : List (Fin NINODE)}

theorem Serves.fileCreate {type : FileDescType} :
    Serves P p (fileCreate type flags) (fun _ => p) := by
  intro s hs
  unfold ServesAt Stays Dmaos.fileCreate
  split
  · exact ⟨refl_of P.Rel s, fun a s' hx => by cases hx; exact hs⟩
  · exact ⟨P.unwritten (Unwritten.putFile ..), fun a s' hx => by
      cases hx
      exact ⟨hs.refs.putFile _ (Or.inl rfl), P.putFile _ hs.inv (Or.inl rfl)⟩⟩

/-- A file is replaced by one that holds no inode, or the same one. -/
theorem ServesAt.putFile {F : KState → File} (hs : Guard P p s) (h : (F s).ip = none ∨
      (F s).ip = (s.fileTable f).ip ∧ (F s).writable = (s.fileTable f).writable) :
    ServesAt P s (modify fun s => s.putFile f (F s)) (fun _ => p) :=
  .update (P.unwritten (Unwritten.putFile ..))
    ⟨hs.refs.putFile f (h.imp id And.left), P.putFile f hs.inv h⟩

/-- A process changes but for its working directory. -/
theorem Serves.setProc {p : List (Fin NINODE)} {k : Fin PROCS_MAX} {Q : KState → Process}
    (h : ∀ s, (Q s).cwd = (s.procs k).cwd) :
    Serves P p (modify fun s => s.putProc k (Q s)) (fun _ => p) :=
  fun s hs => .update (P.unwritten (Unwritten.putProc ..))
    ⟨hs.refs.putProc k (Or.inr (h s)), P.putProc k _ hs.inv⟩

theorem Serves.fileClose : Serves P p (fileClose f) (fun _ => p) := by
  intro s hs
  refine .get ?_
  show ServesAt P s (if (s.fileTable f).ref ≤ 0 then _ else _) _
  split_ifs with h0 h1
  · exact .throw _
  · split
    · next ip hip =>
        refine ⟨Stays.bind (P.unwritten (Counting.iput (R := Still) ip s).unwritten)
          fun u t ht hst => ?_,
          fun u s' hx => ?_⟩
        · exact trans_of P.Rel hst (P.unwritten (Unwritten.putFile ..))
        · obtain ⟨v, t, ht, hx⟩ := bind_ok.mp hx
          rw [modify_ok.mp hx]
          have htab := (Still.of_ok .iput ht).toTables
          refine ⟨hs.refs.iput_clear ht rfl fun i => ?_,
            P.putFile f (P.iput hs.inv ht) (Or.inl rfl)⟩
          rw [refsTo_putFile, htab.refsTo_eq, htab.fileTable, hip, Tally.unit_none]
          omega
    · next hip => exact .putFile hs (Or.inl hip)
  · exact .putFile hs (Or.inr ⟨rfl, rfl⟩)

theorem Serves.currentProcess : Serves P p currentProcess (fun _ => p) := by
  intro s hs
  refine .get ?_
  split
  · exact .pure hs
  · exact .throw _

theorem Serves.installFd : Serves P p (installFd f) (fun _ => p) := by
  refine .bind .currentProcess fun pr => .get fun s => ?_
  split
  · exact .bind (.setProc fun _ => rfl) fun _ => .pure rfl
  · exact .bind .fileClose fun _ => .pure rfl

/-- A descriptor for an inode: it may be writable if the inode is not on
device 0. -/
theorem ServesAt.allocFileDescriptor (hs : Guard P [ip] s) (hv : (s.inodeTable ip).valid = true)
    (hdev : hasFlag flags FILECTRL_WRITEONLY = true → (s.inodeTable ip).dev ≠ 0) :
    ServesAt P s (allocFileDescriptor ip flags) (fun _ => []) := by
  refine .bind (Serves.fileCreate s hs) fun o t ho ht => ?_
  cases o with
  | none => exact .bind (Serves.iput t ht) fun _ _ _ ht' => .pure ht'
  | some f =>
      -- The new slot of the file table has the flags the caller asked for.
      have hf : (t.fileTable f).writable = hasFlag flags FILECTRL_WRITEONLY ∧
          t.inodeTable = s.inodeTable := by
        unfold Dmaos.fileCreate at ho
        split at ho
        · cases ho
        · cases ho
          simp [KState.putFile]
      refine .inodeAt (.bind (.update (q := fun _ => []) (P.unwritten (Unwritten.putFile ..))
        ⟨ht.refs.putIp f rfl, P.putIp f ht.inv rfl ?_ ?_⟩) fun _ t' _ ht' =>
          Serves.installFd t' ht')
      · rw [hf.2]
        exact hv
      · rw [hf.2]
        exact fun hw => hdev (hf.1 ▸ hw)

end Files

/-! ## Calls on a descriptor -/

section Descriptors

variable {fd n offset whence : Int} {p : List (Fin NINODE)}

theorem Serves.fdFile : Serves P p (fdFile fd) (fun _ => p) := by
  refine .bind .currentProcess fun pr => .get fun s => ?_
  split_ifs
  · exact .pure rfl
  · exact .pure rfl

theorem Serves.setOff {off : KState → Nat} :
    Serves P p (modify fun s => s.putFile f { s.fileTable f with off := off s }) (fun _ => p) :=
  fun _ hs => .putFile hs (Or.inr ⟨rfl, rfl⟩)

theorem Serves.fsRead : Serves P p (fsRead fd n) (fun _ => p) := by
  refine .bind .fdFile fun
    | none => .pure rfl
    | some (_, _, f) => .get fun s => .ite (.pure rfl) (.ite (.pure rfl) ?_)
  split
  · exact .pure rfl
  · split
    · exact .pure rfl
    · exact .calm .readi fun _ => .ite (.bind .setOff fun _ => .pure rfl) (.pure rfl)
  · exact .throw _

theorem Serves.fsClose : Serves P p (fsClose fd) (fun _ => p) :=
  .bind .fdFile fun
    | none => .pure rfl
    | some (_, _, _) => .get fun _ => .ite (.pure rfl) (.bind (.setProc fun _ => rfl) fun _ =>
        .bind .fileClose fun _ => .pure rfl)

theorem Serves.fsLseek : Serves P p (fsLseek fd offset whence) (fun _ => p) := by
  refine .bind .fdFile fun
    | none => .pure rfl
    | some (_, _, f) => .get fun s => ?_
  cases hip : (s.fileTable f).ip with
  | none =>
      simp only [hip]
      exact .pure rfl
  | some ip =>
      simp only [hip]
      split
      · exact .pure rfl
      · exact .ite (.pure rfl) (.bind .setOff fun _ => .pure rfl)

end Descriptors

/-! ## Names -/

section Namespace

theorem Serves.fsStat : Serves P [] (fsStat path) (fun _ => []) :=
  .bind .namei fun
    | none => .pure rfl
    | some _ => .calm .ilock fun _ => .calm .inodeAt fun _ =>
        .bind .iput fun _ => .pure rfl

theorem Serves.fsChdir : Serves P [] (fsChdir path) (fun r => r.2.toList) :=
  .bind .namei fun
    | none => .pure rfl
    | some _ => .calm .ilock fun _ => .calm .inodeAt fun _ =>
        .ite (.bind .iput fun _ => .pure rfl) (.pure rfl)

theorem Serves.fsGetFileName {bufLen : Int} {behind : List Byte} :
    Serves P [] (fsGetFileName index bufLen behind) (fun _ => []) :=
  .ite (.pure rfl) (.bind .iget_zero fun _ => .calm .ilock fun _ =>
    .calm .inodeAt fun _ => .calm .rootEntry fun
      | none => .bind .iput fun _ => .pure rfl
      | some _ => .bind .iput fun _ => .pure rfl)

theorem Serves.fsGetFileSize : Serves P [] (fsGetFileSize index) (fun _ => []) :=
  .bind .iget_zero fun _ => .calm .ilock fun _ =>
    .calm .inodeAt fun _ => .calm .rootEntry fun
      | none => .bind .iput fun _ => .pure rfl
      | some _ => .bind .iget_zero fun _ => .calm .ilock fun _ =>
          .calm .inodeAt fun _ => .bind .iput fun _ => .bind .iput fun _ => .pure rfl

end Namespace

/-! ## Processes -/

section Processes

/-- A reference of the call becomes the working directory. -/
theorem Serves.setCwd {Q : KState → Process} (h : ∀ s, (Q s).cwd = some ip) :
    Serves P [ip] (modify fun s => s.putProc p (Q s)) (fun _ => []) :=
  fun s hs => .update (P.unwritten (Unwritten.putProc ..))
    ⟨hs.refs.putCwd p (h s), P.putProc p _ hs.inv⟩

theorem Serves.dropCwd : Serves P l (dropCwd p) (fun _ => l) := by
  intro s hs
  refine .get ?_
  split
  · next ip hip =>
      refine ⟨Stays.bind (P.unwritten (Counting.iput (R := Still) ip s).unwritten)
        fun u t ht hst => ?_,
        fun u s' hx => ?_⟩
      · exact trans_of P.Rel hst (P.unwritten (Unwritten.putProc ..))
      · obtain ⟨v, t, ht, hx⟩ := bind_ok.mp hx
        rw [modify_ok.mp hx]
        have htab := (Still.of_ok .iput ht).toTables
        refine ⟨hs.refs.iput_clear ht rfl fun i => ?_, P.putProc p _ (P.iput hs.inv ht)⟩
        rw [refsTo_putProc, htab.refsTo_eq, htab.procs, hip, Tally.unit_none]
        omega
  · exact .pure hs

theorem Serves.setCwdPath : Serves P l (setCwdPath p path) (fun _ => l) :=
  .get fun _ => .calm .fsNormalizePath fun _ => .setProc fun _ => rfl

theorem Serves.sysChdir : Serves P [] (sysChdir path) (fun _ => []) := by
  refine .bind .fsChdir fun r => ?_
  rcases r with ⟨r, _ | ip⟩
  · exact .pure rfl
  · exact .bind .currentProcess fun _ => .bind .setCwdPath fun _ => .bind .dropCwd fun _ =>
      .bind (.setCwd fun _ => rfl) fun _ => .pure rfl

theorem Serves.fileCloseOpt : ∀ {f : Option (Fin GLOBAL_OPEN_FILE_LIMIT)},
    Serves P l (fileCloseOpt f) (fun _ => l)
  | none => .pure rfl
  | some _ => .fileClose

theorem Serves.consoleFiles : Serves P l consoleFiles (fun _ => l) := by
  refine .bind .fileCreate fun f0 => .bind .fileCreate fun f1 => .bind .fileCreate fun f2 => ?_
  split
  · exact .pure rfl
  · exact .bind .fileCloseOpt fun _ => .bind .fileCloseOpt fun _ => .bind .fileCloseOpt fun _ =>
      .pure rfl

theorem Serves.openConsole : Serves P l (openConsole prog p) (fun _ => l) := by
  cases prog with
  | idle => exact .pure rfl
  | image => exact .bind .consoleFiles fun _ => .setProc fun _ => rfl
  | named path => exact .bind .consoleFiles fun _ => .setProc fun _ => rfl

theorem Serves.inheritCwd : Serves P [] inheritCwd (fun i => [i]) := by
  intro s hs
  refine .get ?_
  split
  · next cwd hcwd =>
      -- The working directory of the current process is in use.
      obtain ⟨pr, -, hpr⟩ := Option.bind_eq_some_iff.mp hcwd
      have hpos := Int.lt_of_lt_of_le (refsTo_pos_of_cwd hpr) (hs.refs cwd)
      exact .nets .iget .iget hs fun hx =>
        P.iget hs.refs hs.inv (Or.inr ⟨cwd, hpos, rfl, rfl⟩) hx
  · exact Serves.iget_zero s hs

theorem Serves.loadProgram : ∀ {prog : Program}, Serves P [] (loadProgram prog) (fun _ => [])
  | .idle => .pure rfl
  | .image => .pure rfl
  | .named _ => .bind .namei fun
      | none => .pure rfl
      | some _ => .calm .ilock fun _ => .calm .inodeAt fun _ =>
          .calm .loadImage fun _ => .bind .iput fun _ => .pure rfl

theorem findProc_unused (h : findProc s = some p) : (s.procs p).state = .unused := by
  simpa using List.find?_some h

theorem Serves.createProcess : Serves P [] (createProcess prog) (fun _ => []) := by
  refine .get fun s => ?_
  split
  · exact .throw _
  · exact .bind (.setProc fun _ => rfl) fun _ => .bind .openConsole fun _ =>
      .bind .inheritCwd fun _ => .bind (.setCwd fun _ => rfl) fun _ =>
        .bind .loadProgram fun _ => .ite (.bind (.setProc fun _ => rfl) fun _ => .pure rfl)
          (.pure rfl)

theorem Serves.spawnProcess {cmdline : List Byte} :
    Serves P [] (spawnProcess cmdline) (fun _ => []) :=
  .ite (.pure rfl) (.bind .createProcess fun
    | none => .pure rfl
    | some _ => .get fun _ => .pure rfl)

theorem Serves.closeAll : ∀ {fds : List (Fin NUM_FILES_PER_PROCESS)},
    Serves P l (closeAll p fds) (fun _ => l)
  | [] => .pure rfl
  | fd :: fds => by
      refine .get fun s => ?_
      split
      · exact .closeAll
      · exact .bind .fileClose fun _ => .bind (.setProc fun _ => rfl) fun _ => .closeAll

theorem Serves.reap : Serves P l (reap p) (fun _ => l) :=
  .bind .dropCwd fun _ => .bind .closeAll fun _ => .setProc fun _ => rfl

theorem Serves.waitProcess {pid : Int} : Serves P l (waitProcess pid) (fun _ => l) := by
  refine .get fun s => ?_
  split
  · exact .pure rfl
  · exact .ite (.bind .reap fun _ => .pure rfl) (.pure rfl)

end Processes

/-! ## System calls -/

/-- The calls that may write to a device. -/
def Syscall.Writes : Syscall → Prop
  | .open _ _ | .write _ _ _ | .ftruncate _ _ | .mkdir _ | .rm _ => True
  | _ => False

section Calls

variable {c : Syscall}

/-- The calls that write to no device keep every policy. -/
theorem Serves.handleSyscall (h : ¬ c.Writes) : Serves P [] (handleSyscall c) (fun _ => []) := by
  cases c with
  | «open» path flags => exact absurd trivial h
  | read fd n => exact .ite (.pure rfl) (.bind .fsRead fun _ => .pure rfl)
  | write fd buf n => exact absurd trivial h
  | close fd => exact .fsClose
  | lseek fd offset whence => exact .fsLseek
  | ftruncate fd length => exact absurd trivial h
  | getFileName index bufLen => exact .ite (.pure rfl) (.bind .fsGetFileName fun _ => .pure rfl)
  | getFileSize index => exact .fsGetFileSize
  | stat path => exact .bind .fsStat fun _ => .pure rfl
  | chdir path => exact .sysChdir
  | mkdir path => exact absurd trivial h
  | rm path => exact absurd trivial h
  | spawn cmdline => exact .spawnProcess
  | exit => exact .bind (.bind .currentProcess fun _ => .setProc fun _ => rfl) fun _ => .pure rfl
  | wait pid => exact .waitProcess
  | other => exact .pure rfl

/-- The processor is given to another process. -/
theorem Serves.setCurrent {c : Option (Fin PROCS_MAX)} :
    Serves P l (modify fun s => { s with current := c }) (fun _ => l) :=
  fun _ hs => .update (P.unwritten ⟨rfl, rfl, rfl⟩) ⟨hs.refs, P.setCurrent c hs.inv⟩

/-- The idle process gets its number and the processor. -/
theorem Serves.idleProc : Serves P l (modify fun s =>
    { s.putProc p { s.procs p with pid := 0 } with current := some p }) (fun _ => l) :=
  fun _ hs => .update (P.unwritten ⟨rfl, rfl, rfl⟩)
    ⟨hs.refs.putProc p (Or.inr rfl), P.setCurrent _ (P.putProc p _ hs.inv)⟩

theorem Serves.step (h : Serves P [] (Dmaos.handleSyscall c) (fun _ => [])) :
    Serves P [] (step p c) (fun _ => []) := by
  refine .get fun s => ?_
  split_ifs
  · exact .bind .setCurrent fun _ => h
  · exact .throw _

end Calls

end Dmaos
