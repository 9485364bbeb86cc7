import Dmaos.Handle.Books

/-!
# Calls keep the books

Every function of the file system keeps the reference counts right, on every
path through it, and keeps the handles it does not release.
-/

namespace Dmaos

open Fault Function KState

variable {X : Fin PROCS_MAX → Handle → Prop} {s s' : KState} {p : Fin PROCS_MAX}
  {f : Fin GLOBAL_OPEN_FILE_LIMIT} {Q : Process} {U : Fin PROCS_MAX → Prop}
  {l l' : List (Fin NINODE)} {fs : List (Fin GLOBAL_OPEN_FILE_LIMIT)} {e : Halt} {ip : Fin NINODE}
  {type : FileDescType} {flags : Nat} {o : Option (Fin GLOBAL_OPEN_FILE_LIMIT)}
  {fd : Fin NUM_FILES_PER_PROCESS} {path : List Byte} {u : Unit}

/-- The handles outside `X` stay on their inode, and their processes stay where
they are. -/
structure Minds (X : Fin PROCS_MAX → Handle → Prop) (s s' : KState) : Prop where
  keeps : Keeps X s s'
  path : ∀ q, ¬ X q .cwd → (s'.procs q).cwdPath = (s.procs q).cwdPath
  /-- No process starts to run. -/
  born : ∀ q, ¬ X q .cwd → (s'.procs q).state = .runnable → (s.procs q).state = .runnable

section Minds

variable {s'' : KState}

theorem Minds.trans (h₁ : Minds X s s') (h₂ : Minds X s' s'') : Minds X s s'' where
  keeps := h₁.keeps.trans h₂.keeps
  path q hq := (h₂.path q hq).trans (h₁.path q hq)
  born q hq h := h₁.born q hq (h₂.born q hq h)

theorem Minds.mono {Y : Fin PROCS_MAX → Handle → Prop} (h : Minds X s s')
    (hXY : ∀ q a, X q a → Y q a) : Minds Y s s' where
  keeps := h.keeps.mono hXY
  path q hq := h.path q fun hX => hq (hXY q _ hX)
  born q hq := h.born q fun hX => hq (hXY q _ hX)

/-- The processes do not change. -/
theorem Keeps.minds (h : Keeps X s s') (hp : s'.procs = s.procs) : Minds X s s' :=
  ⟨h, fun q _ => by rw [hp], fun q _ hq => by rwa [hp] at hq⟩

theorem Minds.refl (s : KState) : Minds X s s := (Keeps.refl s).minds rfl

/-- The processor is given to a process first. -/
theorem Minds.of_current {c : Option (Fin PROCS_MAX)} (h : Minds X { s with current := c } s') :
    Minds X s s' := ⟨h.keeps, h.path, h.born⟩

/-- A file changes, but not the inode in it. -/
theorem Minds.putFile {F : File}
    (hi : (s.fileTable f).ip = none ∨ F.ip = (s.fileTable f).ip) : Minds X s (s.putFile f F) :=
  (Keeps.putFile hi).minds rfl

/-- A process changes its handles. -/
theorem Minds.putProc (hcwd : X p .cwd ∨ (s.procs p).cwd = none ∨ Q.cwd = (s.procs p).cwd)
    (hfd : ∀ fd, X p (.fd fd) ∨ (s.procs p).ofile fd = none ∨ Q.ofile fd = (s.procs p).ofile fd)
    (hrest : X p .cwd ∨ Q.cwdPath = (s.procs p).cwdPath ∧
      (Q.state = .runnable → (s.procs p).state = .runnable)) : Minds X s (s.putProc p Q) := by
  refine ⟨.putProc hcwd hfd, fun q hq => ?_, fun q hq => ?_⟩
  · by_cases hqp : q = p
    · subst hqp
      simpa [putProc] using (hrest.resolve_left hq).1
    · simp [KState.putProc, hqp]
  · by_cases hqp : q = p
    · subst hqp
      simpa [putProc] using (hrest.resolve_left hq).2
    · simp [KState.putProc, hqp]

end Minds

/-- From `s`, `x` ends with the references `q a` and `gs a`.  It may release
the handles in `X`, and does not stop in `iput` or `file_close`. -/
def BalancedAt (U : Fin PROCS_MAX → Prop) (X : Fin PROCS_MAX → Handle → Prop) {α : Type}
    (s : KState) (x : Kern α) (q : α → List (Fin NINODE))
    (gs : α → List (Fin GLOBAL_OPEN_FILE_LIMIT)) : Prop :=
  (∀ a s', x s = .ok a s' → Books U (q a) (gs a) s' ∧ Minds X s s') ∧
    ∀ e s', x s = .error e s' → e.Fair

/-- `x` starts with the references `l` and `fs` and ends with `q a` and `gs a`. -/
def Balanced (U : Fin PROCS_MAX → Prop) (X : Fin PROCS_MAX → Handle → Prop) {α : Type}
    (l : List (Fin NINODE)) (fs : List (Fin GLOBAL_OPEN_FILE_LIMIT)) (x : Kern α)
    (q : α → List (Fin NINODE)) (gs : α → List (Fin GLOBAL_OPEN_FILE_LIMIT)) : Prop :=
  ∀ s, Books U l fs s → BalancedAt U X s x q gs

section Rules

variable {α β : Type} {q : α → List (Fin NINODE)} {gs : α → List (Fin GLOBAL_OPEN_FILE_LIMIT)}
  {r : β → List (Fin NINODE)} {hs : β → List (Fin GLOBAL_OPEN_FILE_LIMIT)} {x : Kern α}
  {f : α → Kern β}

theorem BalancedAt.bind (hx : BalancedAt U X s x q gs)
    (hf : ∀ a t, x s = .ok a t → Books U (q a) (gs a) t → BalancedAt U X t (f a) r hs) :
    BalancedAt U X s (x >>= f) r hs := by
  constructor
  · intro b s' h
    obtain ⟨a, t, ha, h⟩ := bind_ok.mp h
    obtain ⟨h1, h2⟩ := hx.1 a t ha
    obtain ⟨h3, h4⟩ := (hf a t ha h1).1 b s' h
    exact ⟨h3, h2.trans h4⟩
  · intro e s' h
    cases ha : x s with
    | ok a t =>
        rw [run_bind ha] at h
        exact (hf a t ha (hx.1 a t ha).1).2 e s' h
    | error e' t =>
        rw [run_bind_error ha] at h
        cases h
        exact hx.2 e s' ha

theorem BalancedAt.pure {a : α} (h : Books U (q a) (gs a) s) : BalancedAt U X s (pure a) q gs := by
  refine ⟨fun b s' hx => ?_, fun e s' hx => by cases hx⟩
  obtain ⟨rfl, rfl⟩ := pure_ok.mp hx
  exact ⟨h, .refl s⟩

theorem BalancedAt.throw (h : e.Fair) : BalancedAt U X s (throw e) q gs := by
  refine ⟨fun a s' hx => absurd hx throw_ok, fun e' s' hx => ?_⟩
  cases hx
  exact h

theorem BalancedAt.update (l : List (Fin NINODE)) (fs : List (Fin GLOBAL_OPEN_FILE_LIMIT))
    {f : KState → KState} (h : Books U l fs (f s)) (hk : Minds X s (f s)) :
    BalancedAt U X s (modify f) (fun _ => l) (fun _ => fs) := by
  refine ⟨fun a s' hx => ?_, fun e s' hx => by cases hx⟩
  rw [modify_ok.mp hx]
  exact ⟨h, hk⟩

theorem BalancedAt.get {f : KState → Kern β} (h : BalancedAt U X s (f s) r hs) :
    BalancedAt U X s (get >>= f) r hs := h

theorem BalancedAt.nets (h : Nets l' x q) (hs : Books U (l' ++ l) fs s) :
    BalancedAt U X s x (fun a => q a ++ l) (fun _ => fs) := by
  refine ⟨fun a s' hx => ?_, fun e s' hx => h.fair hs.covers hx⟩
  have ht := h.ok hs.covers hx
  exact ⟨hs.trades ht, (ht.keeps hs).minds ht.procs⟩

theorem Balanced.bind (hx : Balanced U X l fs x q gs)
    (hf : ∀ a, Balanced U X (q a) (gs a) (f a) r hs) : Balanced U X l fs (x >>= f) r hs :=
  fun s hs => .bind (hx s hs) fun a t _ ht => hf a t ht

theorem Balanced.pure {a : α} (hl : l = q a) (hg : fs = gs a) : Balanced U X l fs (pure a) q gs :=
  fun _ hs => .pure (hl ▸ hg ▸ hs)

theorem Balanced.throw (h : e.Fair) : Balanced U X l fs (throw e) q gs :=
  fun _ _ => .throw h

theorem Balanced.ite {c : Prop} [Decidable c] {x y : Kern α} (hx : Balanced U X l fs x q gs)
    (hy : Balanced U X l fs y q gs) : Balanced U X l fs (if c then x else y) q gs := by
  split_ifs
  · exact hx
  · exact hy

theorem Balanced.get {f : KState → Kern β} (h : ∀ s, Balanced U X l fs (f s) r hs) :
    Balanced U X l fs (get >>= f) r hs := fun s hs => .get (h s s hs)

/-- A computation on the inode cache, with the other references as a frame. -/
theorem Balanced.nets (h : Nets l' x q) :
    Balanced U X (l' ++ l) fs x (fun a => q a ++ l) (fun _ => fs) :=
  fun _ hs => .nets h hs

/-- A computation on the inode cache. -/
theorem Balanced.of_nets (h : Nets l x q) : Balanced U X l fs x q (fun _ => fs) := by
  intro s hs
  have h' := BalancedAt.nets (l := []) (X := X) h (by rwa [List.append_nil])
  simpa only [List.append_nil] using h'

theorem Balanced.calm (hx : Confined Calm Fairly x)
    (hf : ∀ a, Balanced U X l fs (f a) r hs) : Balanced U X l fs (x >>= f) r hs :=
  .bind (.of_nets (.of_calm hx)) hf

theorem Balanced.inodeAt {f : Inode → Kern β}
    (hf : ∀ I, Balanced U X l fs (f I) r hs) : Balanced U X l fs (inodeAt ip >>= f) r hs :=
  .calm .inodeAt hf

theorem Balanced.localThen
    (hx : ∀ d, LocalOn d ip x) (hr : Fair x) (hf : ∀ a, Balanced U X l fs (f a) r hs) :
    Balanced U X l fs (x >>= f) r hs :=
  .bind (.of_nets (.of_local hx hr)) hf

theorem Balanced.iput : Balanced U X (ip :: l) fs (iput ip) (fun _ => l) (fun _ => fs) :=
  (.iput : Nets [ip] _ _) |> .nets

end Rules

/-! ## Files -/

section Files

variable {gs : List (Fin GLOBAL_OPEN_FILE_LIMIT)}

theorem Books.files (h : Books U l fs s) (hc : ∀ f, fs.count f = gs.count f) : Books U l gs s :=
  ⟨h.ino, fun f => by rw [← hc]; exact h.file f, h.free, h.unused, h.current⟩

/-- `file_create` takes a free slot of the table, or changes nothing. -/
theorem fileCreate_ok (h : fileCreate type flags s = .ok o s') :
    (o = none ∧ s' = s) ∨ ∃ f F, o = some f ∧ (s.fileTable f).ref = 0 ∧ s' = s.putFile f F ∧
      F.ref = 1 ∧ F.ip = none := by
  unfold fileCreate at h
  split at h
  · cases h
    exact Or.inl ⟨rfl, rfl⟩
  · next f hf =>
      cases h
      have := List.find?_some hf
      exact Or.inr ⟨f, _, rfl, by simpa using this, rfl, rfl, rfl⟩

theorem Balanced.fileCreate :
    Balanced U X l fs (fileCreate type flags) (fun _ => l) (fun o => o.toList ++ fs) := by
  intro s hs
  refine ⟨fun o s' h => ?_, fun e s' h => ?_⟩
  · rcases fileCreate_ok h with ⟨rfl, rfl⟩ | ⟨f, F, rfl, h0, rfl, hr, hip⟩
    · exact ⟨hs, .refl s'⟩
    · have hno := hs.free f h0
      refine ⟨⟨fun i => ?_, fun g => ?_, fun g => ?_, hs.unused, hs.current⟩, .putFile (Or.inl hno)⟩
      · rw [refsTo_putFile, hno, hip]
        show (s.inodeTable i).ref = refsTo l s i - _ + _
        rw [hs.ino]
        omega
      · have hg := hs.file g
        show _ = descRefs s g + ((f :: fs).count g : Nat)
        rw [List.count_cons_unit]
        by_cases hgf : g = f
        · subst hgf
          simp only [putFile, update_self, Tally.unit_self]
          omega
        · simp only [putFile, update_of_ne hgf, Tally.unit_of_ne (Ne.symm hgf)]
          omega
      · by_cases hgf : g = f
        · subst hgf
          simp [putFile, hip]
        · simpa [putFile, hgf] using hs.free g
  · unfold Dmaos.fileCreate at h
    split at h <;> cases h

theorem Balanced.fileClose : Balanced U X l (f :: fs) (fileClose f) (fun _ => l) (fun _ => fs) := by
  intro s hs
  refine ⟨fun u t h => ?_, fun e t h => fileClose_fair hs hs.file_pos h⟩
  have hc := fileClose_ok h
  have hd : ∀ g, descRefs t g = descRefs s g := fun g => descRefs_congr fun q => by rw [hc.procs]
  constructor
  · refine hc.books hs rfl rfl (fun q => by rw [hc.procs]) (fun q => by rw [hc.procs])
      (fun q => by rw [hc.procs]; exact id) hc.current fun g => ?_
    show _ + (fs.count g : Int) = _
    rw [hd, List.count_cons_unit]
    omega
  · refine (hc.keeps rfl rfl (fun q => by rw [hc.procs]) (fun q fd _ => by rw [hc.procs])
      fun q fd _ hfd => ?_).minds hc.procs
    -- The reference of the call and the descriptor are two.
    have h1 := one_le_descRefs hfd
    rw [hs.file, List.count_cons_unit, Tally.unit_self]
    omega

theorem Balanced.currentProcess : Balanced U X l fs currentProcess (fun _ => l) (fun _ => fs) := by
  intro s hs
  refine .get ?_
  split
  · exact .pure hs
  · exact .throw trivial

theorem currentProcess_ok (h : currentProcess s = .ok p s') : s' = s ∧ s.current = some p := by
  replace h := get_then h
  cases hc : s.current with
  | none =>
      simp only [hc] at h
      exact absurd h throw_ok
  | some q =>
      simp only [hc] at h
      obtain ⟨rfl, rfl⟩ := pure_ok.mp h
      exact ⟨rfl, rfl⟩

/-- A process changes, and it stays in use. -/
theorem Books.setProc (h : Books U l fs s) (hp : (s.procs p).state = .unused → U p)
    (hstate : Q.state = (s.procs p).state)
    (hcwd : ∀ i, Tally.unit Q.cwd i + l'.count i = Tally.unit (s.procs p).cwd i + l.count i)
    (hfd : ∀ f, Tally.count Q.ofile f + gs.count f = Tally.count (s.procs p).ofile f + fs.count f) :
    Books U l' gs (s.putProc p Q) :=
  h.putProc hcwd hfd fun hQ => Or.inl (hp (hstate ▸ hQ))

/-- A descriptor of a process changes. -/
theorem Books.setFd (h : Books U l fs s) (hp : (s.procs p).state = .unused → U p)
    (hfs : ∀ f, Tally.unit o f + gs.count f = Tally.unit ((s.procs p).ofile fd) f + fs.count f) :
    Books U l gs (s.putProc p
      { s.procs p with ofile := update (s.procs p).ofile fd o }) := by
  refine h.setProc hp rfl (fun i => rfl) fun f => ?_
  have := hfs f
  rw [Tally.count_update]
  omega

theorem Minds.setFd (h : X p (.fd fd) ∨ (s.procs p).ofile fd = none) :
    Minds X s (s.putProc p
      { s.procs p with ofile := update (s.procs p).ofile fd o }) := by
  refine .putProc (Or.inr (Or.inr rfl)) (fun k => ?_) (Or.inr ⟨rfl, id⟩)
  by_cases hk : k = fd
  · subst hk
    exact h.imp id Or.inl
  · exact Or.inr (Or.inr (update_of_ne hk _ _))

theorem Balanced.installFd : Balanced U X l (f :: fs) (installFd f) (fun _ => l) (fun _ => fs) := by
  intro s hs
  refine .bind (Balanced.currentProcess s hs) fun p t hp ht => .get ?_
  obtain ⟨rfl, hcur⟩ := currentProcess_ok hp
  split
  · next fd hfd =>
      have hnone : (t.procs p).ofile fd = none := by simpa using List.find?_some hfd
      refine .bind (.update l fs ?_ (.setFd (Or.inr hnone)))
        fun _ _ _ h => .pure h
      refine ht.setFd (ht.current p hcur) fun g => ?_
      rw [hnone, List.count_cons_unit, Tally.unit_none]
      omega
  · exact .bind (Balanced.fileClose t ht) fun _ _ _ h => .pure h

theorem Balanced.allocFileDescriptor :
    Balanced U X (ip :: l) fs (allocFileDescriptor ip flags) (fun _ => l) (fun _ => fs) := by
  intro s hs
  refine .bind (Balanced.fileCreate s hs) fun o t ho ht => ?_
  cases o with
  | none => exact .bind (Balanced.iput t ht) fun _ _ _ h => .pure h
  | some f =>
      have hno : (t.fileTable f).ip = none := by
        rcases fileCreate_ok ho with ⟨h, -⟩ | ⟨g, F, hg, -, rfl, -, hip⟩
        · cases h
        · cases hg
          simpa [putFile] using hip
      refine .bind (Balanced.of_nets (.of_calm .inodeAt) t ht)
        fun I t' hI ht' => ?_
      obtain ⟨rfl, rfl⟩ := inodeAt_ok hI
      exact .bind (.update l (f :: fs) (ht'.putIp hno rfl rfl)
        (.putFile (Or.inl hno))) fun _ t' _ h => Balanced.installFd t' h

theorem Balanced.fsCreateIn {dp : Fin NINODE} {name : List Byte} :
    Balanced U X (dp :: l) fs (fsCreateIn dp name flags) (fun _ => l) (fun _ => fs) := by
  refine .inodeAt fun D => .bind (.nets (Nets.dirlookup.frame [dp])) fun
    | none => .bind (.nets (Nets.ialloc.frame [dp])) fun
      | none => .bind .iput fun _ => .pure rfl rfl
      | some ip => .inodeAt fun I => .bind (.nets .dirlink) fun r =>
          .ite (.bind .iput fun _ => .bind .iput fun _ => .pure rfl rfl)
            (.bind (.nets .iput_second) fun _ => .allocFileDescriptor)
    | some (ip, _) => .calm .ilock fun _ => .inodeAt fun I =>
        .ite (.localThen (fun _ => .itrunc) .itrunc fun _ =>
            .bind (.nets .iput_second) fun _ => .allocFileDescriptor)
          (.bind (.nets .iput_second) fun _ => .allocFileDescriptor)

theorem Balanced.fsCreate : Balanced U X l fs (fsCreate path flags) (fun _ => l) (fun _ => fs) :=
  .bind (.nets .namex) fun
    | (none, _) => .pure rfl rfl
    | (some _, _) => .inodeAt fun _ =>
        .ite (.bind .iput fun _ => .pure rfl rfl) .fsCreateIn

theorem Balanced.fsOpen : Balanced U X l fs (fsOpen path flags) (fun _ => l) (fun _ => fs) :=
  .ite (.bind .fileCreate fun
      | none => .pure rfl rfl
      | some _ => .installFd)
    (.bind (.nets .namei) fun
      | none => .pure rfl rfl
      | some _ => .calm .ilock fun _ => .inodeAt fun _ =>
          .ite (.bind .iput fun _ => .pure rfl rfl)
            (.ite (.localThen (fun _ => .itrunc) .itrunc fun _ => .allocFileDescriptor)
              .allocFileDescriptor))

end Files

/-! ## Calls on a descriptor -/

section Descriptors

variable {fd n offset whence : Int}

theorem Balanced.fdFile : Balanced U X l fs (fdFile fd) (fun _ => l) (fun _ => fs) := by
  refine .bind .currentProcess fun p => .get fun s => ?_
  split_ifs
  · exact .pure rfl rfl
  · exact .pure rfl rfl

/-- The descriptor of the current process with number `fd`. -/
theorem fdFile_some {i : Fin NUM_FILES_PER_PROCESS} (h : fdFile fd s = .ok (some (p, i, f)) s') :
    s' = s ∧ s.current = some p ∧ ((i : Nat) : Int) = fd ∧ (s.procs p).ofile i = some f := by
  obtain ⟨p', t, hc, hx⟩ := bind_ok.mp h
  obtain ⟨rfl, hcur⟩ := currentProcess_ok hc
  clear h
  have h := get_then hx
  split_ifs at h with hfd
  · obtain ⟨ho, rfl⟩ := pure_ok.mp h
    obtain ⟨g, hg, heq⟩ := Option.map_eq_some_iff.mp ho
    cases heq
    refine ⟨rfl, hcur, ?_, hg⟩
    show ((fd.toNat : Nat) : Int) = fd
    omega
  · have := (pure_ok.mp h).1
    cases this

/-- The offset of a file moves. -/
theorem Balanced.setOff {off : KState → Nat} :
    Balanced U X l fs (modify fun s => s.putFile f { s.fileTable f with off := off s })
      (fun _ => l) (fun _ => fs) :=
  fun _ hs => .update l fs (hs.putFile rfl rfl) (.putFile (Or.inr rfl))

theorem Balanced.fsRead : Balanced U X l fs (fsRead fd n) (fun _ => l) (fun _ => fs) := by
  refine .bind .fdFile fun
    | none => .pure rfl rfl
    | some (_, _, f) => .get fun s => .ite (.pure rfl rfl) (.ite (.pure rfl rfl) ?_)
  split
  · exact .pure rfl rfl
  · split
    · exact .pure rfl rfl
    · exact .calm .readi fun _ =>
        .ite (.bind .setOff fun _ => .pure rfl rfl) (.pure rfl rfl)
  · exact .throw trivial

theorem Balanced.fsWrite {buf : Buf} :
    Balanced U X l fs (fsWrite fd buf n) (fun _ => l) (fun _ => fs) := by
  refine .bind .fdFile fun
    | none => .pure rfl rfl
    | some (_, _, f) => .get fun s => .ite (.pure rfl rfl) (.ite (.pure rfl rfl) ?_)
  split
  · exact .pure rfl rfl
  · split
    · exact .pure rfl rfl
    · exact .localThen (fun _ => .writei) .writei fun _ =>
        .ite (.bind .setOff fun _ => .pure rfl rfl) (.ite (.pure rfl rfl) (.pure rfl rfl))
  · exact .throw trivial

theorem Balanced.fsFtruncate {length : Int} :
    Balanced U X l fs (fsFtruncate fd length) (fun _ => l) (fun _ => fs) := by
  refine .bind .fdFile fun
    | none => .pure rfl rfl
    | some (_, _, f) => .get fun s => .ite (.pure rfl rfl) (.ite (.pure rfl rfl)
        (.ite (.pure rfl rfl) ?_))
  split
  · exact .localThen (fun _ => .itrunc) .itrunc fun _ => .pure rfl rfl
  · exact .throw trivial
  · exact .pure rfl rfl

theorem Balanced.fsLseek :
    Balanced U X l fs (fsLseek fd offset whence) (fun _ => l) (fun _ => fs) := by
  refine .bind .fdFile fun
    | none => .pure rfl rfl
    | some (_, _, f) => .get fun s => ?_
  cases hip : (s.fileTable f).ip with
  | none =>
      simp only [hip]
      exact .pure rfl rfl
  | some ip =>
      simp only [hip]
      split
      · exact .pure rfl rfl
      · exact .ite (.pure rfl rfl) (.bind .setOff fun _ => .pure rfl rfl)

/-- `fs_close` releases its descriptor. -/
theorem BalancedAt.fsClose (hs : Books U l fs s)
    (hX : ∀ p i, s.current = some p → ((i : Fin NUM_FILES_PER_PROCESS) : Int) = fd → X p (.fd i)) :
    BalancedAt U X s (fsClose fd) (fun _ => l) (fun _ => fs) := by
  refine .bind (Balanced.fdFile s hs) fun o t ho ht => ?_
  cases o with
  | none => exact .pure ht
  | some o =>
      obtain ⟨p, i, f⟩ := o
      obtain ⟨rfl, hcur, hi, hf⟩ := fdFile_some ho
      refine .get ?_
      split_ifs
      · exact .pure ht
      · refine .bind (.update l (f :: fs) ?_
          (.setFd (Or.inl (hX p i hcur hi)))) fun _ t' _ ht' =>
            .bind (Balanced.fileClose t' ht') fun _ _ _ h => .pure h
        refine ht.setFd (ht.current p hcur) fun g => ?_
        rw [hf, List.count_cons_unit, Tally.unit_none]
        omega

end Descriptors

/-! ## Processes -/

section Processes

/-- What giving up the working directory leaves alone. -/
theorem dropCwd_ok (h : dropCwd p s = .ok u s') :
    s'.current = s.current ∧
      s'.procs = update s.procs p { s.procs p with cwd := none } := by
  replace h := get_then h
  cases hc : (s.procs p).cwd with
  | none =>
      simp only [hc] at h
      obtain ⟨-, rfl⟩ := pure_ok.mp h
      rw [← hc, update_eq_self]
      exact ⟨rfl, rfl⟩
  | some c =>
      simp only [hc] at h
      obtain ⟨v, t, ht, h⟩ := bind_ok.mp h
      obtain ⟨-, rfl⟩ := iput_ok ht
      rw [modify_ok.mp h]
      exact ⟨rfl, rfl⟩

theorem BalancedAt.dropCwd (hs : Books U l fs s) (hp : (s.procs p).state = .unused → U p)
    (hX : X p .cwd) : BalancedAt U X s (dropCwd p) (fun _ => l) (fun _ => fs) := by
  refine .get ?_
  split
  · next c hc =>
      -- The process gives up its reference, and then it is given back.
      have hs' : Books U (c :: l) fs (s.putProc p { s.procs p with cwd := none }) := by
        refine hs.setProc hp rfl (fun i => ?_) fun f => rfl
        rw [hc, List.count_cons_unit, Tally.unit_none]
        omega
      have hk : Minds X s (s.putProc p { s.procs p with cwd := none }) :=
        .putProc (Or.inl hX) (fun fd => Or.inr (Or.inr rfl)) (Or.inl hX)
      have hpos : 0 < (s.inodeTable c).ref := by
        rw [hs.ino]
        exact refsTo_pos_of_cwd hc
      have hput : ∀ t : KState, t.inodeTable = s.inodeTable → Dmaos.iput c t =
          .ok () (t.putInode c { s.inodeTable c with ref := (s.inodeTable c).ref - 1 }) := by
        intro t ht
        unfold Dmaos.iput
        rw [ht, if_neg (by omega)]
      obtain ⟨h1, h2⟩ := (Balanced.iput _ hs').1 _ _ (hput _ rfl)
      constructor
      · intro u s' hx
        rw [run_bind (hput s rfl)] at hx
        rw [modify_ok.mp hx]
        exact ⟨h1, hk.trans h2⟩
      · intro e s' hx
        rw [run_bind (hput s rfl)] at hx
        cases hx
  · exact .pure hs

theorem fsNormalizePath_ok {base rel w : List Byte} {dstLen : Nat}
    (h : fsNormalizePath base rel dstLen s = .ok w s') : s = s' := by
  unfold fsNormalizePath joinPath at h
  split_ifs at h
  · exact (pure_ok.mp h).2
  · cases h
  · exact (pure_ok.mp h).2
  · exact (pure_ok.mp h).2

/-- Only the string changes. -/
theorem setCwdPath_ok (h : setCwdPath p path s = .ok u s') :
    ∃ w, fsNormalizePath (s.procs p).cwdPath path MAX_PATH s = .ok w s ∧
      s' = s.putProc p { s.procs p with cwdPath := w.take (MAX_PATH - 1) } := by
  replace h := get_then h
  obtain ⟨w, t, hw, h⟩ := bind_ok.mp h
  obtain rfl := fsNormalizePath_ok hw
  exact ⟨w, hw, modify_ok.mp h⟩

theorem BalancedAt.setCwdPath (hs : Books U l fs s)
    (hlive : (s.procs p).state = .unused → U p) (hX : X p .cwd) :
    BalancedAt U X s (setCwdPath p path) (fun _ => l) (fun _ => fs) := by
  refine .get (.bind (Balanced.of_nets (.of_calm .fsNormalizePath) s hs)
    fun w t hw ht => ?_)
  obtain rfl := fsNormalizePath_ok hw
  exact .update l fs (hs.setProc hlive rfl (fun _ => rfl) fun _ => rfl)
    (.putProc (Or.inl hX) (fun _ => Or.inr (Or.inr rfl)) (Or.inl hX))

theorem BalancedAt.sysChdir (hs : Books U l fs s) (hX : ∀ p, s.current = some p → X p .cwd) :
    BalancedAt U X s (sysChdir path) (fun _ => l) (fun _ => fs) := by
  refine .bind (Balanced.nets Nets.fsChdir s hs) fun r t hr ht => ?_
  obtain ⟨r, o⟩ := r
  cases o with
  | none => exact .pure ht
  | some ip =>
      have hcov : Covers [] s := Books.covers hs
      have htab := (Nets.fsChdir.ok hcov hr).toTables
      refine .bind (Balanced.currentProcess t ht) fun p t' hp ht' => ?_
      obtain ⟨rfl, hcur⟩ := currentProcess_ok hp
      have hXp := hX p (htab.current ▸ hcur)
      refine .bind (.setCwdPath ht' (ht'.current p hcur) hXp) fun _ t₁ h₁ ht₁ => ?_
      obtain ⟨w, -, rfl⟩ := setCwdPath_ok h₁
      have hlive := ht₁.current p hcur
      refine .bind (.dropCwd ht₁ hlive hXp) fun _ t₂ h₂ ht₂ => ?_
      obtain ⟨-, hprocs⟩ := dropCwd_ok h₂
      have hnone : (t₂.procs p).cwd = none := by simp [hprocs]
      refine .bind (.update l fs ?_ (.putProc (Or.inl hXp) (fun fd => Or.inr (Or.inr rfl))
        (Or.inl hXp))) fun _ _ _ h => .pure h
      refine ht₂.setProc (by simpa [hprocs] using hlive) rfl (fun i => ?_) fun f => rfl
      show Tally.unit (some ip) i + ((l.count i : Nat) : Int) =
        _ + (((ip :: l).count i : Nat) : Int)
      rw [List.count_cons_unit, hnone, Tally.unit_none]
      omega

/-- A file is closed and then its descriptor cleared. -/
theorem BalancedAt.closeFd
    (hs : Books U l fs s) (hf : (s.procs p).ofile fd = some f) (hX : X p (.fd fd)) :
    BalancedAt U X s (do
      Dmaos.fileClose f
      modify fun s => s.putProc p
        { s.procs p with ofile := Function.update (s.procs p).ofile fd none })
      (fun _ => l) (fun _ => fs) := by
  have hpos : 0 < (s.fileTable f).ref := by
    have := one_le_descRefs hf
    rw [hs.file]
    omega
  refine ⟨fun u s' hx => ?_, fun e s' hx => ?_⟩
  · obtain ⟨v, t, ht, hx⟩ := bind_ok.mp hx
    have hc := fileClose_ok ht
    rw [modify_ok.mp hx]
    have hother : ∀ q, q ≠ p → (t.putProc p
        { t.procs p with ofile := Function.update (t.procs p).ofile fd none }).procs q =
          s.procs q := by
      intro q hq
      simp [putProc, hq, hc.procs]
    have hself : (t.putProc p
        { t.procs p with ofile := Function.update (t.procs p).ofile fd none }).procs p =
          { s.procs p with ofile := Function.update (s.procs p).ofile fd none } := by
      simp [putProc, hc.procs]
    constructor
    · refine hc.books hs rfl rfl (fun q => ?_) (fun q => ?_) (fun q hq => ?_) hc.current fun g => ?_
      · by_cases hq : q = p
        · rw [hq, hself]
        · rw [hother q hq]
      · by_cases hq : q = p
        · rw [hq, hself]
        · rw [hother q hq]
      · by_cases hqp : q = p
        · subst hqp
          rw [hq.2 fd] at hf
          cases hf
        · rw [hother q hqp]
          exact hq
      · show _ + (fs.count g : Int) = _
        rw [descRefs_setFd fd none rfl, descRefs_congr (s := s) fun q => by rw [hc.procs],
          hc.procs, hf, Tally.unit_none]
        omega
    · have hpath : ∀ q, ((t.putProc p { t.procs p with
          ofile := Function.update (t.procs p).ofile fd none }).procs q).cwdPath =
          (s.procs q).cwdPath ∧ ((t.putProc p { t.procs p with
          ofile := Function.update (t.procs p).ofile fd none }).procs q).state =
          (s.procs q).state := by
        intro q
        by_cases hq : q = p
        · rw [hq, hself]
          exact ⟨rfl, rfl⟩
        · rw [hother q hq]
          exact ⟨rfl, rfl⟩
      refine ⟨hc.keeps rfl rfl (fun q => ?_) (fun q k hk => ?_) fun q k hk hq => ?_,
        fun q _ => (hpath q).1, fun q _ hq => (hpath q).2 ▸ hq⟩
      · by_cases hq : q = p
        · rw [hq, hself]
        · rw [hother q hq]
      · by_cases hq : q = p
        · subst hq
          have hne : k ≠ fd := by
            rintro rfl
            exact hk hX
          rw [hself]
          exact update_of_ne hne _ _
        · rw [hother q hq]
      · -- Another descriptor on the file is counted as well.
        have hne : p ≠ q ∨ fd ≠ k := by
          by_contra hcon
          push Not at hcon
          obtain ⟨rfl, rfl⟩ := hcon
          exact hk hX
        have := two_le_descRefs hf hq hne
        rw [hs.file]
        omega
  · cases ht : Dmaos.fileClose f s with
    | ok v t =>
        rw [run_bind ht] at hx
        cases hx
    | error e' t =>
        rw [run_bind_error ht] at hx
        cases hx
        exact fileClose_fair hs hpos ht

/-- What closing descriptors leaves alone. -/
theorem closeAll_ok : ∀ {fds : List (Fin NUM_FILES_PER_PROCESS)} {s : KState} {u : Unit},
    closeAll p fds s = .ok u s' →
    s'.current = s.current ∧ (s'.procs p).cwd = (s.procs p).cwd ∧
      (s'.procs p).state = (s.procs p).state ∧
      ∀ fd, fd ∈ fds ∨ (s.procs p).ofile fd = none → (s'.procs p).ofile fd = none
  | [], s, u, h => by
      obtain ⟨-, rfl⟩ := pure_ok.mp h
      exact ⟨rfl, rfl, rfl, fun fd hfd => hfd.resolve_left (by simp)⟩
  | k :: fds, s, u, h => by
      replace h := get_then h
      cases hk : (s.procs p).ofile k with
      | none =>
          simp only [hk] at h
          obtain ⟨h1, h2, h3, h4⟩ := closeAll_ok h
          refine ⟨h1, h2, h3, fun fd hfd => h4 fd ?_⟩
          rcases hfd with hfd | hfd
          · rcases List.mem_cons.mp hfd with rfl | hfd
            · exact Or.inr hk
            · exact Or.inl hfd
          · exact Or.inr hfd
      | some f =>
          simp only [hk] at h
          obtain ⟨v, t, ht, h⟩ := bind_ok.mp h
          obtain ⟨v, t₂, ht₂, h⟩ := bind_ok.mp h
          have hc := fileClose_ok ht
          rw [modify_ok.mp ht₂] at h
          obtain ⟨h1, h2, h3, h4⟩ := closeAll_ok h
          refine ⟨h1.trans hc.current, ?_, ?_, fun fd hfd => h4 fd ?_⟩
          · rw [h2]
            simp [putProc, hc.procs]
          · rw [h3]
            simp [putProc, hc.procs]
          · by_cases hfk : fd = k
            · subst hfk
              exact Or.inr (by simp [putProc])
            · rcases hfd with hfd | hfd
              · exact Or.inl ((List.mem_cons.mp hfd).resolve_left hfk)
              · exact Or.inr (by simpa [putProc, hfk, hc.procs] using hfd)

theorem BalancedAt.closeAll (hX : ∀ fd, X p (.fd fd)) :
    ∀ {fds : List (Fin NUM_FILES_PER_PROCESS)} {s : KState}, Books U l fs s →
      BalancedAt U X s (closeAll p fds) (fun _ => l) (fun _ => fs)
  | [], s, hs => .pure hs
  | fd :: fds, s, hs => by
      refine .get ?_
      split
      · exact .closeAll hX hs
      · next f hf =>
          have h : BalancedAt U X s _ (fun _ => l) (fun _ => fs) :=
            .bind (f := fun _ => Dmaos.closeAll p fds) (.closeFd hs hf (hX fd))
              fun _ t _ ht => .closeAll hX ht
          rwa [bind_assoc] at h

/-- A process that is not running is reaped. -/
theorem BalancedAt.reap (hs : Books U l fs s) (hp : (s.procs p).state = .unused → U p)
    (hcur : s.current ≠ some p) (hX : ∀ h, X p h) :
    BalancedAt U X s (reap p) (fun _ => l) (fun _ => fs) := by
  refine .bind (.dropCwd hs hp (hX _)) fun _ t h ht => ?_
  obtain ⟨hc, hprocs⟩ := dropCwd_ok h
  refine .bind (.closeAll (fun fd => hX _) ht) fun _ t' h' ht' => ?_
  obtain ⟨hc', hcwd, -, hfd⟩ := closeAll_ok h'
  refine .update l fs (ht'.putProc (fun i => rfl) (fun f => rfl) fun _ =>
    Or.inr ⟨?_, ?_, fun fd => ?_⟩)
    (.putProc (Or.inr (Or.inr rfl)) (fun fd => Or.inr (Or.inr rfl)) (Or.inl (hX _)))
  · rw [hc', hc]
    exact hcur
  · rw [hcwd, hprocs]
    simp
  · exact hfd fd (Or.inl (List.mem_finRange fd))

theorem BalancedAt.waitProcess {pid : Int} (hs : Books U l fs s)
    (hcur : ∀ q, s.current = some q → (s.procs q).state ≠ .exited)
    (hX : ∀ q h, (s.procs q).state = .exited → X q h) :
    BalancedAt U X s (waitProcess pid) (fun _ => l) (fun _ => fs) := by
  refine .get ?_
  split
  · exact .pure hs
  · next q hq =>
      split_ifs with hex
      · refine .bind (.reap hs (fun h => ?_) (fun h => hcur q h hex) fun h => hX q h hex)
          fun _ _ _ h => .pure h
        rw [hex] at h
        cases h
      · exact .pure hs

end Processes

end Dmaos
