import Dmaos.System.Normal
import Dmaos.System.Paths
import Dmaos.System.References

/-!
# The working directory and its string

A process keeps the inode of its working directory and a string that names it.
`chdir` finds the inode by a walk through the directories, and computes the
string from the text alone.  Both agree (`cwd_resolves`) as long as the text
fits in the buffers and no directory on the way is removed.  A longer text is
cut, and then they do not (`cwd_not_resolved`).
-/

namespace Dmaos

open Fault NamedTree KState

variable {L₀ L₁ : Layout} {τ₀ τ₁ τ : Dirs} {home : Nat} {s s' t : KState}
  {T T' : NamedTree Node (List Byte)} {p q : Fin PROCS_MAX} {a b : Node} {l : List (Fin NINODE)}
  {c : Fin NINODE} {r : Int} {o : Option (Fin NINODE)} {u : Unit} {prog : Program}

/-- Where an absolute path leads. -/
def pathNode (T : NamedTree Node (List Byte)) (path : List Byte) : Option Node :=
  T.walk (.inl 1) ((pathNames path).map toStep)

/-- The string of a process leads to its working directory. -/
structure InPlace (T : NamedTree Node (List Byte)) (q : Fin PROCS_MAX) (s : KState) : Prop where
  head : (s.procs q).cwdPath.head? = some slash
  nul : 0 ∉ (s.procs q).cwdPath
  length : (s.procs q).cwdPath.length ≤ 255
  slot : ∃ c a, (s.procs q).cwd = some c ∧ At a c s ∧ pathNode T (s.procs q).cwdPath = some a

section InPlace

variable {hm : IsHome τ₀ home}

theorem Tallied.covers (h : Tallied s) : Covers [] s := h.refs.covers

/-- The slot of a working directory is in use. -/
theorem Refs.holds {d n : Nat} (h : Refs l s)
    (hc : (s.procs q).cwd = some c) (hd : (s.inodeTable c).dev = d)
    (hn : (s.inodeTable c).inum = n) : Holds d n c s :=
  ⟨Int.lt_of_lt_of_le (refsTo_pos_of_cwd hc) (h c), hd, hn⟩

theorem Refs.covers_cwd (h : Refs [] s) (hc : (s.procs q).cwd = some c) : Covers [c] s := by
  have hpos := Int.lt_of_lt_of_le (refsTo_pos_of_cwd (l := []) hc) (h c)
  intro i
  by_cases hi : i = c
  · subst hi
    rw [count_single]
    exact hpos
  · rw [count_single_of_ne hi]
    exact h.covers.nil i

theorem InPlace.setCurrent (h : InPlace T q s) (c : Option (Fin PROCS_MAX)) :
    InPlace T q { s with current := c } := by
  obtain ⟨i, a, hi, hat, hnode⟩ := h.slot
  exact ⟨h.head, h.nul, h.length, i, a, hi, ⟨hat.ref, hat.dev_eq, hat.inum_eq⟩, hnode⟩

/-- The working directory of the current process. -/
theorem KState.CwdAt.of_cwd (hcur : s.current = some p)
    (hc : (s.procs p).cwd = some c) (hat : At a c s) : s.CwdAt a := by
  unfold KState.CwdAt
  simp only [hcur, Option.bind_some, hc]
  exact ⟨hat.dev_eq, hat.inum_eq⟩

theorem InPlace.cwdAt (h : InPlace T p s) (hcur : s.current = some p) : ∃ a, s.CwdAt a := by
  obtain ⟨c, a, hc, hat, -⟩ := h.slot
  exact ⟨a, .of_cwd hcur hc hat⟩

/-- The string resolves to the working directory. -/
theorem InPlace.resolves (h : InPlace (logical τ₁ hm) q s) (hs : Mounted L₀ L₁ τ₀ τ₁ home s)
    (hcov : Covers [] s) :
    ∃ c a, (s.procs q).cwd = some c ∧ At a c s ∧
      Ends (fun o t => Lands (some a) o t) NoSlot (namei (s.procs q).cwdPath) s := by
  obtain ⟨c, a, hc, hat, hnode⟩ := h.slot
  refine ⟨c, a, hc, hat, ?_⟩
  refine .bind (hs.namex (a := a) hm hcov (fun hrel => absurd h.head hrel)
    fun x hx => isName_of_mem_pathNames hx h.nul) ?_
  rintro ⟨o, y⟩ t - ⟨-, hres⟩
  have hland := hres.lands
  rw [startNode, if_pos h.head] at hland
  refine .pure ?_
  rw [← hnode]
  exact hland

/-- A process that is not touched stays in place, if its directories do. -/
theorem InPlace.of_minds {X : Fin PROCS_MAX → Handle → Prop} (h : InPlace T q s)
    (hx : Minds X s s') (hX : ¬ X q .cwd) (ht : Tallied s')
    (hway : ∀ a, pathNode T (s.procs q).cwdPath = some a →
      pathNode T' (s.procs q).cwdPath = some a) : InPlace T' q s' := by
  have hpath := hx.path q hX
  obtain ⟨c, a, hc, hat, hnode⟩ := h.slot
  obtain ⟨hc', hk⟩ := hx.keeps q .cwd c hX hc
  refine ⟨by rw [hpath]; exact h.head, by rw [hpath]; exact h.nul, by rw [hpath]; exact h.length,
    c, a, hc', ?_, by rw [hpath]; exact hway a hnode⟩
  exact ht.refs.holds hc' (hk.dev.trans hat.dev_eq) (hk.inum.trans hat.inum_eq)

end InPlace

/-! ## `chdir` -/

section Chdir

variable {L : Layout} {dev : Nat} {hm : IsHome τ₀ home}

/-- The processes do not matter to the devices. -/
theorem Shows.setProcs (h : Shows L τ dev s) (procs : Fin PROCS_MAX → Process)
    (current : Option (Fin PROCS_MAX)) :
    Shows L τ dev { s with procs := procs, current := current } where
  fits := h.fits
  uniq := h.uniq
  coh := h.coh
  own := h.own
  reserved := h.reserved
  dev_lt := h.dev_lt
  inode := h.inode
  data := h.data
  tree := h.tree

theorem Mounted.setProcs (h : Mounted L₀ L₁ τ₀ τ₁ home s) (procs : Fin PROCS_MAX → Process)
    (current : Option (Fin PROCS_MAX)) :
    Mounted L₀ L₁ τ₀ τ₁ home { s with procs := procs, current := current } :=
  ⟨h.sys.setProcs procs current, h.user.setProcs procs current, h.mounts⟩

/-- A call that fails to find a directory leaves the process in place. -/
theorem InPlace.of_trades (h : InPlace T p s) (ht : Trades [] l s t) (hrefs : Refs [] s) :
    InPlace T p t := by
  obtain ⟨c, a, hc, hat, hnode⟩ := h.slot
  have hprocs : t.procs p = s.procs p := by rw [ht.procs]
  refine ⟨by rw [hprocs]; exact h.head, by rw [hprocs]; exact h.nul, by rw [hprocs]; exact h.length,
    c, a, by rw [hprocs]; exact hc, ht.holds (hrefs.covers_cwd hc) hat, by rw [hprocs]; exact hnode⟩

/-- What `namei` returns for a path from the working directory. -/
theorem Mounted.namei (path : CString)
    (h : Mounted L₀ L₁ τ₀ τ₁ home s) (hcov : Covers [] s) (hcur : s.current = some p)
    (hc : (s.procs p).cwd = some c) (hat : At a c s) (ha : (logical τ₁ hm).mem a)
    (hx : namei path.1 s = .ok o s') :
    Mounted L₀ L₁ τ₀ τ₁ home s' ∧
      Lands ((logical τ₁ hm).walk (startNode path.1 a) ((pathNames path.1).map toStep)) o s' ∧
      Trades [] o.toList s s' := by
  have hcwd : s.CwdAt a := .of_cwd hcur hc hat
  have htr := Nets.namei.ok hcov hx
  obtain ⟨⟨o, y⟩, t, hnx, hret⟩ := bind_ok.mp hx
  obtain ⟨rfl, rfl⟩ := pure_ok.mp hret
  obtain ⟨ht, hres⟩ := (h.namex hm hcov (fun _ => ⟨hcwd, ha⟩)
    fun x hx => isName_of_mem_pathNames hx path.2).ok hnx
  exact ⟨ht, hres.lands, htr⟩

/-- The text of the new string leads where the path leads. -/
theorem walk_cwdText {base rel : List Byte} (hbase : base ≠ []) (ha : pathNode T base = some a)
    (hb : T.walk (startNode rel a) ((pathNames rel).map toStep) = some b) :
    pathNode T (cwdText base rel) = some b := by
  unfold pathNode
  rw [pathNames_cwdText hbase]
  unfold startNode at hb
  split_ifs at hb ⊢ with habs
  · exact hb
  · rw [List.map_append, walk_append]
    unfold pathNode at ha
    rw [ha]
    exact hb

/-- `fs_chdir` returns the directory the path leads to, or nothing. -/
theorem Mounted.fsChdir (path : CString)
    (h : Mounted L₀ L₁ τ₀ τ₁ home s) (hcov : Covers [] s) (hcur : s.current = some p)
    (hc : (s.procs p).cwd = some c) (hat : At a c s) (ha : (logical τ₁ hm).mem a)
    (hx : fsChdir path.1 s = .ok (r, o) s') :
    Mounted L₀ L₁ τ₀ τ₁ home s' ∧ ∀ ip, o = some ip → ∃ b, At b ip s' ∧
      (logical τ₁ hm).walk (startNode path.1 a) ((pathNames path.1).map toStep) = some b := by
  obtain ⟨found, t, hn, hx⟩ := bind_ok.mp hx
  obtain ⟨ht, hland, htr⟩ := h.namei path hcov hcur hc hat ha hn
  cases found with
  | none =>
      obtain ⟨ho, rfl⟩ := pure_ok.mp hx
      cases ho
      exact ⟨ht, fun ip hip => by cases hip⟩
  | some ip =>
      obtain ⟨_, t₁, hl, hx⟩ := bind_ok.mp hx
      have hcalm := Calm.ilock.of_ok hl
      replace hx := inodeAt_then hx
      split_ifs at hx with hdir
      · -- Not a directory: the reference is given back.
        obtain ⟨_, t₂, hput, hx⟩ := bind_ok.mp hx
        obtain ⟨ho, rfl⟩ := pure_ok.mp hx
        cases ho
        exact ⟨(ht.of_calm hcalm).iput hput, fun ip hip => by cases hip⟩
      · obtain ⟨ho, rfl⟩ := pure_ok.mp hx
        cases ho
        refine ⟨ht.of_calm hcalm, fun jp hjp => ?_⟩
        cases hjp
        cases hb : (logical τ₁ hm).walk (startNode path.1 a) ((pathNames path.1).map toStep) with
        | none =>
            rw [hb] at hland
            exact hland.elim
        | some b =>
            rw [hb] at hland
            exact ⟨b, Holds.of_calm hland hcalm, rfl⟩

/-- The old working directory is given back, and the new one is kept. -/
theorem Mounted.dropCwd {ip : Fin NINODE}
    (h : Mounted L₀ L₁ τ₀ τ₁ home s) (hcov : Covers [c, ip] s) (hc : (s.procs p).cwd = some c)
    (hat : At b ip s) (hx : dropCwd p s = .ok u s') : Mounted L₀ L₁ τ₀ τ₁ home s' ∧ At b ip s' := by
  replace hx := get_then hx
  simp only [hc] at hx
  obtain ⟨_, t, hput, hx⟩ := bind_ok.mp hx
  obtain rfl := modify_ok.mp hx
  have hat' := (Nets.iput.ok (Covers.left (p := [c]) hcov) hput).holds hcov hat
  exact ⟨(h.iput hput).setProcs _ _, hat'.ref, hat'.dev_eq, hat'.inum_eq⟩

/-- After `chdir` the process is in place. -/
theorem Mounted.sysChdir (path : CString) (h : Mounted L₀ L₁ τ₀ τ₁ home s) (hrefs : Refs [] s)
    (hcur : s.current = some p) (hin : InPlace (logical τ₁ hm) p s)
    (hfit : FitsBuffer (s.procs p).cwdPath path.1) (hx : sysChdir path.1 s = .ok r s') :
    Mounted L₀ L₁ τ₀ τ₁ home s' ∧ InPlace (logical τ₁ hm) p s' := by
  have hroot : (logical τ₁ hm).root = .inl 1 := congrArg Sum.inl h.sys.tree.root_eq
  obtain ⟨c, a, hc, hat, hnode⟩ := hin.slot
  have ha : (logical τ₁ hm).mem a := walk_mem (h.root_mem hm) hnode
  obtain ⟨⟨r', o⟩, t, hch, hx⟩ := bind_ok.mp hx
  have htr := Nets.fsChdir.ok hrefs.covers hch
  obtain ⟨ht, hfound⟩ := h.fsChdir path hrefs.covers hcur hc hat ha hch
  cases o with
  | none =>
      obtain ⟨-, rfl⟩ := pure_ok.mp hx
      exact ⟨ht, hin.of_trades htr hrefs⟩
  | some ip =>
      obtain ⟨b, hatb, hb⟩ := hfound ip rfl
      have hcov : Covers [c, ip] t := ((htr.frame [c]).covers (hrefs.covers_cwd hc)).perm
        (.swap c ip [])
      obtain ⟨q, t₁, hq, hx⟩ := bind_ok.mp hx
      obtain ⟨rfl, hq⟩ := currentProcess_ok hq
      obtain rfl : p = q := by
        rw [htr.current, hcur] at hq
        exact Option.some.inj hq
      obtain ⟨_, t₂, hset, hx⟩ := bind_ok.mp hx
      obtain ⟨w, hw, rfl⟩ := setCwdPath_ok hset
      obtain ⟨_, t₃, hdrop, hx⟩ := bind_ok.mp hx
      replace hx := modify_then hx
      obtain ⟨-, rfl⟩ := pure_ok.mp hx
      rw [htr.procs] at hw
      obtain ⟨hhead, hlen, hmem, hnames⟩ := fsNormalizePath_names hw hfit hin.head
      obtain ⟨ht₃, hat₃⟩ := (ht.setProcs _ _).dropCwd (s := t₁.putProc p
        { t₁.procs p with cwdPath := w.take (MAX_PATH - 1) }) hcov
        (by simpa [putProc, htr.procs] using hc)
        ⟨hatb.ref, hatb.dev_eq, hatb.inum_eq⟩ hdrop
      have hproc : (t₃.putProc p { t₃.procs p with cwd := some ip }).procs p =
          { s.procs p with cwdPath := w, cwd := some ip } := by
        have htake : w.take (MAX_PATH - 1) = w := List.take_of_length_le hlen
        simp [putProc, (dropCwd_ok hdrop).2, htr.procs, htake]
      refine ⟨ht₃.setProcs _ _, ?_⟩
      constructor
      · rw [hproc]
        exact hhead
      · rw [hproc]
        intro h0
        rcases hmem 0 h0 with h0 | h0 | h0
        · exact hin.nul h0
        · cases h0
        · exact path.2 h0
      · rw [hproc]
        exact hlen
      · refine ⟨ip, b, by rw [hproc], ⟨hat₃.ref, hat₃.dev_eq, hat₃.inum_eq⟩, ?_⟩
        have hbase : (s.procs p).cwdPath ≠ [] := by
          intro he
          have := hin.head
          rw [he] at this
          cases this
        rw [hproc]
        unfold pathNode
        rw [hnames, ← hroot]
        have hstart : (logical τ₁ hm).walk (logical τ₁ hm).root ([].map .down) =
            some (logical τ₁ hm).root := rfl
        refine walk_reduce hstart ?_
        rw [hroot]
        exact walk_cwdText hbase hnode hb

end Chdir

/-! ## Process creation -/

section Create

variable {found : Bool}

theorem inheritCwd_at {i : Fin NINODE} (h : s.CwdAt a) (hx : inheritCwd s = .ok i s') :
    At a i s' := by
  replace hx := get_then hx
  unfold KState.CwdAt at h
  cases hc : s.current.bind fun p => (s.procs p).cwd with
  | some c =>
      simp only [hc] at h hx
      rw [h.1, h.2] at hx
      exact iget_holds hx
  | none =>
      simp only [hc] at h hx
      subst h
      exact iget_holds hx

/-- The working directory of the current process is that of a state before. -/
theorem KState.CwdAt.of_same (h : s.CwdAt a) (hcur : t.current = s.current)
    (hproc : ∀ p, s.current = some p → t.procs p = s.procs p)
    (hslot : ∀ p c, s.current = some p → (s.procs p).cwd = some c →
      (s.inodeTable c).Kept (t.inodeTable c)) : t.CwdAt a := by
  unfold KState.CwdAt at h ⊢
  rw [hcur]
  cases hp : s.current with
  | none =>
      simp only [hp] at h
      exact h
  | some p =>
      simp only [hp, Option.bind_some] at h ⊢
      rw [hproc p hp]
      cases hc : (s.procs p).cwd with
      | none =>
          simp only [hc] at h
          exact h
      | some c =>
          simp only [hc] at h
          have hk := hslot p c hp hc
          exact ⟨hk.dev.trans h.1, hk.inum.trans h.2⟩

theorem inheritCwdPath_congr (hcur : t.current = s.current)
    (hproc : ∀ p, s.current = some p → t.procs p = s.procs p) :
    inheritCwdPath t = inheritCwdPath s := by
  unfold inheritCwdPath
  rw [hcur]
  cases hp : s.current with
  | none => rfl
  | some p => simp only [hproc p hp]

/-- A new process gets the working directory of the current one, and its string. -/
theorem Makes.inherits (h : Makes prog q s t found) (hs : Tallied s)
    (hlive : ∀ p, s.current = some p → (s.procs p).state ≠ .unused) (hcwd : s.CwdAt a) :
    ∃ i, (t.procs q).cwd = some i ∧ At a i t ∧ (t.procs q).cwdPath = inheritCwdPath s ∧
      (t.procs q).state = .unused := by
  obtain ⟨l, fs, hb⟩ := hs
  obtain ⟨t₂, i, t₃, h₂, h₃, h₅⟩ := h.steps
  have hunused := findProc_unused h.free
  have hne : ∀ p, s.current = some p → p ≠ q := by
    rintro p hp rfl
    exact hlive p hp hunused
  -- The console is opened.
  obtain ⟨hcur₂, ofile, hprocs₂⟩ := openConsole_ok h₂
  obtain ⟨hb₂, hk₂⟩ := (BalancedAt.openConsole (X := fun r _ => r = q)
    (hb.clearFds (p := q) trivial) trivial (fun _ => rfl)
    (fun fd => by simp [putProc])).1 _ _ h₂
  have hproc₂ : ∀ p, s.current = some p → t₂.procs p = s.procs p := by
    intro p hp
    simp [hprocs₂, putProc, hne p hp]
  have hcwd₂ : t₂.CwdAt a := by
    refine hcwd.of_same hcur₂ hproc₂ fun p c hp hc => ?_
    refine (hk₂.keeps p .cwd c (hne p hp) ?_).2
    simpa [slotOf, putProc, hne p hp] using hc
  -- The working directory is taken up, and held while the program is read.
  have hat₃ := inheritCwd_at hcwd₂ h₃
  have htr₃ := Nets.inheritCwd.ok hb₂.refs.covers.nil h₃
  have hcov₃ := htr₃.covers hb₂.refs.covers.nil
  have htr₅ := Nets.loadProgram.ok (s := t₃.putProc q
    { t₃.procs q with cwd := some i, cwdPath := inheritCwdPath t₃ }) hcov₃.nil h₅
  have hat₅ : At a i t := htr₅.holds (hcov₃ : Covers ([] ++ [i]) _)
    ⟨hat₃.ref, hat₃.dev_eq, hat₃.inum_eq⟩
  have hpath : inheritCwdPath t₃ = inheritCwdPath s :=
    (inheritCwdPath_congr htr₃.current fun p _ => by rw [htr₃.procs]).trans
      (inheritCwdPath_congr hcur₂ hproc₂)
  have hproc : t.procs q = { t₃.procs q with cwd := some i, cwdPath := inheritCwdPath s } := by
    rw [htr₅.procs, hpath]
    simp [putProc]
  refine ⟨i, by rw [hproc], hat₅, by rw [hproc], ?_⟩
  rw [hproc, htr₃.procs, hprocs₂]
  simpa [putProc] using hunused

/-- The string a process in place hands on. -/
theorem InPlace.inheritCwdPath (h : InPlace T p s)
    (hcur : s.current = some p) : inheritCwdPath s = (s.procs p).cwdPath := by
  obtain ⟨c, a, hc, -, -⟩ := h.slot
  unfold Dmaos.inheritCwdPath
  rw [hcur]
  simp only [hc, reduceCtorEq, if_false]
  exact List.take_of_length_le h.length

/-- Made by a process in place, the new process is in place. -/
theorem InPlace.of_made (h : InPlace T p s) (hs : Tallied s)
    (hcur : s.current = some p) (hrun : (s.procs p).state = .runnable)
    (hway : ∀ a, pathNode T (s.procs p).cwdPath = some a →
      pathNode T' (s.procs p).cwdPath = some a)
    (hx : createProcess prog s = .ok (some q) s') : InPlace T' q s' := by
  obtain ⟨c, a, hc, hat, hnode⟩ := h.slot
  obtain ⟨p', t, found, hm, ⟨-, hq, rfl⟩ | ⟨-, hq, -⟩⟩ := createProcess_ok hx
  · cases hq
    have hcwd : s.CwdAt a := .of_cwd hcur hc hat
    obtain ⟨i, hi, hat', hpath, -⟩ := hm.inherits hs (fun r hr => by
      rw [hcur] at hr
      cases hr
      rw [hrun]
      exact ProcState.noConfusion) hcwd
    rw [h.inheritCwdPath hcur] at hpath
    have hproc : ((t.putProc q { t.procs q with pid := (q : Nat) + 1, state := .runnable }).procs
        q).cwdPath = (s.procs p).cwdPath := by
      simpa [putProc] using hpath
    refine ⟨by rw [hproc]; exact h.head, by rw [hproc]; exact h.nul, by rw [hproc]; exact h.length,
      i, a, ?_, ⟨hat'.ref, hat'.dev_eq, hat'.inum_eq⟩, by rw [hproc]; exact hway a hnode⟩
    simpa [putProc] using hi
  · cases hq

end Create

/-! ## Runs -/

/-- No process starts to run. -/
def Sleeps (s s' : KState) : Prop :=
  ∀ q, (s'.procs q).state = .runnable → (s.procs q).state = .runnable

instance : IsPreorder KState Sleeps where
  refl _ _ h := h
  trans _ _ _ h₁ h₂ q h := h₁ q (h₂ q h)

section Sleeps

theorem Sleeps.putProc {Q : Process} (h : Q.state = .runnable → (s.procs p).state = .runnable) :
    Sleeps s (s.putProc p Q) := by
  intro q
  by_cases hq : q = p
  · subst hq
    simpa [putProc] using h
  · simp [KState.putProc, hq]

theorem Sleeps.closeAll : ∀ {fds : List (Fin NUM_FILES_PER_PROCESS)} {s : KState} {u : Unit},
    closeAll p fds s = .ok u s' → Sleeps s s'
  | [], s, u, h => by
      obtain ⟨-, rfl⟩ := pure_ok.mp h
      exact refl_of Sleeps s
  | fd :: fds, s, u, h => by
      replace h := get_then h
      cases hf : (s.procs p).ofile fd with
      | none =>
          simp only [hf] at h
          exact Sleeps.closeAll h
      | some f =>
          simp only [hf] at h
          obtain ⟨_, t, hclose, h⟩ := bind_ok.mp h
          replace h := modify_then h
          have hrest := Sleeps.closeAll h
          have hput : Sleeps t (t.putProc p
            { t.procs p with ofile := Function.update (t.procs p).ofile fd none }) := .putProc id
          intro q hq
          have := hput q (hrest q hq)
          rwa [(fileClose_ok hclose).procs] at this

theorem Sleeps.reap (h : reap p s = .ok u s') : Sleeps s s' := by
  obtain ⟨_, t₁, hdrop, h⟩ := bind_ok.mp h
  obtain ⟨_, t₂, hclose, h⟩ := bind_ok.mp h
  obtain rfl := modify_ok.mp h
  have h₁ : Sleeps s t₁ := by
    intro q hq
    rw [(dropCwd_ok hdrop).2] at hq
    exact Sleeps.putProc (Q := { s.procs p with cwd := none }) id q hq
  exact trans_of Sleeps h₁ (trans_of Sleeps (Sleeps.closeAll hclose)
    (Sleeps.putProc fun h => by cases h))

theorem Sleeps.waitProcess {pid : Int} (h : waitProcess pid s = .ok r s') : Sleeps s s' := by
  replace h := get_then h
  cases hf : findPid s pid with
  | none =>
      simp only [hf] at h
      obtain ⟨-, rfl⟩ := pure_ok.mp h
      exact refl_of Sleeps s
  | some p =>
      simp only [hf] at h
      split_ifs at h
      · obtain ⟨_, t, hreap, h⟩ := bind_ok.mp h
        obtain ⟨-, rfl⟩ := pure_ok.mp h
        exact Sleeps.reap hreap
      · obtain ⟨-, rfl⟩ := pure_ok.mp h
        exact refl_of Sleeps s

end Sleeps

/-- Runs in which every `chdir` fits, and every other call leaves a tree on
device 1 and removes no directory on the way to the working directory of a
process.  The tree is that of device 1. -/
inductive Roams {τ₀ : Dirs} {home : Nat} (hm : IsHome τ₀ home) (L₁ : Layout) (d0 d1 : Device) :
    Dirs → KState → Prop where
  | boot {u : Unit} {τ : Dirs} {s : KState} (run : boot (coldState d0 d1) = .ok u s)
      (tree : Shows L₁ τ 1 s) : Roams hm L₁ d0 d1 τ s
  | chdir {τ : Dirs} {p : Fin PROCS_MAX} {path : CString} {r : Int} {s s' : KState}
      (before : Roams hm L₁ d0 d1 τ s) (fits : FitsBuffer (s.procs p).cwdPath path.1)
      (run : step p (.chdir path) s = .ok r s') : Roams hm L₁ d0 d1 τ s'
  | call {τ τ' : Dirs} {p : Fin PROCS_MAX} {c : Syscall} {r : Int} {s s' : KState}
      (before : Roams hm L₁ d0 d1 τ s) (other : ∀ path, c ≠ .chdir path)
      (run : step p c s = .ok r s') (tree : Shows L₁ τ' 1 s')
      (way : ∀ q a, (s.procs q).state = .runnable →
        pathNode (logical τ hm) (s.procs q).cwdPath = some a →
        pathNode (logical τ' hm) (s.procs q).cwdPath = some a) : Roams hm L₁ d0 d1 τ' s'

section Runs

variable {hm : IsHome τ₀ home} {d0 d1 : Device} {c : Syscall}

theorem Roams.reached (h : Roams hm L₁ d0 d1 τ s) : Reached (fun _ _ _ => True) d0 d1 s := by
  induction h with
  | boot run tree => exact .boot run
  | chdir before fits run ih => exact .step ih trivial run
  | call before other run tree way ih => exact .step ih trivial run

/-- `fs_init` makes no process. -/
theorem fsInit_procs (hx : fsInit (coldState d0 d1) = .ok u s) :
    s.procs = (coldState d0 d1).procs ∧ s.current = none := by
  obtain ⟨_, t, h0, hx⟩ := bind_ok.mp hx
  obtain rfl := readSuperblock_ok h0
  obtain ⟨_, t, h1, hx⟩ := bind_ok.mp hx
  obtain rfl := readSuperblock_ok h1
  obtain ⟨o, t, hn, hx⟩ := bind_ok.mp hx
  have ht := Nets.namei.ok (fun i => le_refl 0) hn
  cases o with
  | none => cases hx
  | some ip =>
      replace hx := inodeAt_then hx
      replace hx := modify_then hx
      have hput := Idle.iput.of_ok hx
      exact ⟨hput.procs.trans ht.procs, hput.current.trans ht.current⟩

/-- The first process starts in the root directory. -/
theorem InPlace.first (hs : Tallied s) (hcur : s.current = none)
    (hx : createProcess prog s = .ok (some q) s') : InPlace T q s' := by
  obtain ⟨p, t, found, hmakes, ⟨-, hp, rfl⟩ | ⟨-, hp, -⟩⟩ := createProcess_ok hx
  · cases hp
    have hcwd : s.CwdAt (.inl 1) := by
      unfold KState.CwdAt
      rw [hcur]
      rfl
    obtain ⟨i, hi, hat, hpath, -⟩ := hmakes.inherits hs
      (fun r hr => by rw [hcur] at hr; cases hr) hcwd
    rw [Dmaos.inheritCwdPath, hcur] at hpath
    have hproc : ((t.putProc q { t.procs q with pid := (q : Nat) + 1, state := .runnable }).procs
        q).cwdPath = [slash] := by
      simpa [putProc] using hpath
    refine ⟨by rw [hproc]; rfl, by rw [hproc]; decide, by rw [hproc]; decide, i, .inl 1, ?_,
      ⟨hat.ref, hat.dev_eq, hat.inum_eq⟩, by rw [hproc]; rfl⟩
    simpa [putProc] using hi
  · cases hp

/-- The idle process and the shell start in the root directory. -/
theorem boot_inPlace (hx : boot (coldState d0 d1) = .ok u s)
    (hq : (s.procs q).state = .runnable) : InPlace T q s := by
  obtain ⟨_, t, hi, hx⟩ := bind_ok.mp hx
  obtain ⟨hprocs, hcur⟩ := fsInit_procs hi
  have ht : Tallied t := ⟨[], [], (fsInit_books (Books.coldState d0 d1) hi).mono fun _ _ => trivial⟩
  obtain ⟨o, t₁, h₁, hx⟩ := bind_ok.mp hx
  cases o with
  | none => cases hx
  | some p =>
      obtain ⟨⟨l, fs, hb₁⟩, hk₁⟩ := createProcess_tallied ht h₁
      obtain ⟨hfree, hrun⟩ := createProcess_some h₁
      have hidle : InPlace T p t₁ := .first ht hcur h₁
      replace hx := modify_then hx
      -- The idle process gets the processor.
      have hrun₂ : ((t₁.putProc p { t₁.procs p with pid := 0 }).procs p).state = .runnable := by
        simpa [putProc] using hrun
      have ht₂ : Tallied { t₁.putProc p { t₁.procs p with pid := 0 } with current := some p } :=
        ⟨l, fs, Books.setCurrent (s := t₁.putProc p { t₁.procs p with pid := 0 })
          (hb₁.setProc (fun _ => trivial) rfl (fun _ => rfl) fun _ => rfl) hrun₂⟩
      have hminds : Minds (fun _ _ => False) t₁
          { t₁.putProc p { t₁.procs p with pid := 0 } with current := some p } := by
        have := Minds.putProc (X := fun _ _ => False) (s := t₁) (p := p)
          (Q := { t₁.procs p with pid := 0 }) (Or.inr (Or.inr rfl)) (fun _ => Or.inr (Or.inr rfl))
          (Or.inr ⟨rfl, id⟩)
        exact ⟨this.keeps, this.path, this.born⟩
      have hidle₂ : InPlace T p _ := hidle.of_minds hminds id ht₂ fun _ h => h
      obtain ⟨o, t₃, h₃, hx⟩ := bind_ok.mp hx
      obtain ⟨-, rfl⟩ := pure_ok.mp hx
      obtain ⟨ht₃, hk₃⟩ := createProcess_tallied ht₂ h₃
      obtain ⟨shell, rfl⟩ := Option.ne_none_iff_exists'.mp
        (createProcess_ne_none (fun _ h => by cases h) h₃)
      have hshell := (createProcess_some h₃).1
      by_cases hqs : q = shell
      · subst hqs
        exact hidle₂.of_made ht₂ rfl hrun₂ (fun _ h => h) h₃
      · -- Only the idle process ran before.
        have hX : findProc _ ≠ some q := fun h => hqs (Option.some.inj (h.symm.trans hshell))
        have hq₂ := hminds.born q id (hk₃.born q hX hq)
        have hqp : q = p := by
          by_contra hne
          have := hk₁.born q (fun h => hne (Option.some.inj (h.symm.trans hfree))) hq₂
          rw [hprocs] at this
          cases this
        subst hqp
        exact hidle₂.of_minds hk₃ hX ht₃ fun _ h => h

/-- A call other than `chdir` leaves the processes in place. -/
theorem InPlace.call (hall : ∀ q, (s.procs q).state = .runnable → InPlace T q s) (hs : Tallied s)
    (hc : ∀ path, c ≠ .chdir path) (hx : step p c s = .ok r s')
    (hway : ∀ q a, (s.procs q).state = .runnable → pathNode T (s.procs q).cwdPath = some a →
      pathNode T' (s.procs q).cwdPath = some a)
    (hq : (s'.procs q).state = .runnable) : InPlace T' q s' := by
  obtain ⟨ht, hk⟩ := step_tallied hs hx
  have hrun := step_runnable hx
  by_cases hX : Released p c s q .cwd ∨ c.isSpawn = true ∧ findProc s = some q
  · rcases hX with hX | ⟨hspawn, hfree⟩
    · -- A process that has exited does not run again.
      cases c with
      | wait pid =>
          have hexit : (s.procs q).state = .exited := hX
          rw [step_eq hrun] at hx
          have := Sleeps.waitProcess hx q hq
          rw [show (s.procs q).state = .runnable from this] at hexit
          cases hexit
      | chdir path => exact absurd rfl (hc path)
      | close fd =>
          obtain ⟨-, i, hi, -⟩ := hX
          cases hi
      | _ => exact hX.elim
    · -- A new process.
      cases c <;> cases hspawn
      next cmdline =>
      rw [step_eq hrun] at hx
      change spawnProcess cmdline.1 { s with current := some p } = _ at hx
      unfold spawnProcess at hx
      have hunused := findProc_unused hfree
      split_ifs at hx
      · obtain ⟨-, rfl⟩ := pure_ok.mp hx
        rw [show (s.procs q).state = .runnable from hq] at hunused
        cases hunused
      · obtain ⟨o, t, ho, hx⟩ := bind_ok.mp hx
        have hin := (hall p hrun).setCurrent (some p)
        have hs₁ := hs.setCurrent hrun
        cases o with
        | none =>
            obtain ⟨-, rfl⟩ := pure_ok.mp hx
            obtain ⟨p', t', found, hmakes, ⟨-, ho, -⟩ | ⟨-, -, rfl⟩⟩ := createProcess_ok ho
            · cases ho
            · cases hmakes.free.symm.trans hfree
              obtain ⟨a, hcwd⟩ := hin.cwdAt rfl
              obtain ⟨i, -, -, -, hu⟩ := hmakes.inherits hs₁ (fun p' hp' => by
                cases hp'
                rw [hrun]
                exact ProcState.noConfusion) hcwd
              rw [hq] at hu
              cases hu
        | some q' =>
            replace hx := get_then hx
            obtain ⟨-, rfl⟩ := pure_ok.mp hx
            cases (createProcess_some ho).1.symm.trans hfree
            exact hin.of_made hs₁ rfl hrun (fun a ha => hway p a hrun ha) ho
  · have hrun' := hk.born q hX hq
    exact (hall q hrun').of_minds hk hX ht fun a ha => hway q a hrun' ha

/-- Along such a run every process is in place. -/
theorem Roams.inPlace (h0 : d0.Carries L₀ τ₀) (h : Roams hm L₁ d0 d1 τ s) :
    Mounted L₀ L₁ τ₀ τ home s ∧
      ∀ q, (s.procs q).state = .runnable → InPlace (logical τ hm) q s := by
  induction h with
  | boot run tree =>
      exact ⟨(Reached.boot (P := fun _ _ _ => True) run).mounted h0 hm tree,
        fun q hq => boot_inPlace run hq⟩
  | @chdir τ p path r s s' before fits run ih =>
      obtain ⟨hmounted, hall⟩ := ih
      have hs := before.reached.tallied
      have hrun := step_runnable run
      obtain ⟨ht, hk⟩ := step_tallied hs run
      have hx := run
      rw [step_eq hrun] at hx
      obtain ⟨hmounted', hin⟩ := (hmounted.setProcs s.procs (some p)).sysChdir path
        (s := { s with current := some p }) (hs.setCurrent hrun).refs rfl
        ((hall p hrun).setCurrent (some p)) fits hx
      refine ⟨hmounted', fun q hq => ?_⟩
      by_cases hqp : q = p
      · subst hqp
        exact hin
      · have hX : ¬ (Released p (.chdir path) s q .cwd ∨
            (Syscall.chdir path).isSpawn = true ∧ findProc s = some q) := by
          rintro (⟨h, -⟩ | ⟨h, -⟩)
          · exact hqp h
          · cases h
        exact (hall q (hk.born q hX hq)).of_minds hk hX ht fun _ ha => ha
  | call before other run tree way ih =>
      have hs := before.reached.tallied
      exact ⟨(Reached.step before.reached trivial run).mounted h0 hm tree,
        fun q hq => InPlace.call ih.2 hs other run way hq⟩

/-- The string of the working directory resolves to its inode, in every state of
a run in which every text fits and no directory on the way is removed.  The
kernel stops only in `iget`, when every slot of the inode cache is in use. -/
theorem cwd_resolves (h0 : d0.Carries L₀ τ₀) (h : Roams hm L₁ d0 d1 τ s)
    (hq : (s.procs q).state = .runnable) :
    ∃ c a, (s.procs q).cwd = some c ∧ At a c s ∧
      Ends (fun o t => Lands (some a) o t) NoSlot (namei (s.procs q).cwdPath) s := by
  obtain ⟨hmounted, hall⟩ := h.inPlace h0
  exact (hall q hq).resolves hmounted h.reached.tallied.covers

end Runs

/-- The path `"home/../home/./a"`. -/
def crossingPath : CString :=
  ⟨homeName ++ slash :: dotdot ++ homePath ++ slash :: dot ++ [slash, 0x61], by decide⟩

/-- The shell goes to the directory `a` on device 1. -/
theorem cwd_resolves_nested :
    ∃ s, Roams systemTree_isHome formattedLayout systemDisk nestedDisk nestedTree s ∧
      (s.procs 1).cwdPath = homePath ++ [slash, 0x61] ∧
      ∃ c a, (s.procs 1).cwd = some c ∧ At a c s ∧
        Ends (fun o t => Lands (some a) o t) NoSlot (namei (s.procs 1).cwdPath) s := by
  have hrun : yields boot (fun _ s => decide (FitsBuffer (s.procs 1).cwdPath crossingPath.1) &&
      yields (step 1 (.chdir crossingPath)) (fun _ s' => decide ((s'.procs 1).state = .runnable ∧
        (s'.procs 1).cwdPath = homePath ++ [slash, 0x61])) s)
      (coldState systemDisk nestedDisk) = true := by decide +kernel
  obtain ⟨u, s, hboot, hQ⟩ := exists_ok_of_yields hrun
  rw [Bool.and_eq_true, decide_eq_true_eq] at hQ
  obtain ⟨hfit, hQ⟩ := hQ
  obtain ⟨r, s', hstep, hQ⟩ := exists_ok_of_yields hQ
  obtain ⟨hrunnable, hpath⟩ := of_decide_eq_true hQ
  have hroams : Roams systemTree_isHome formattedLayout systemDisk nestedDisk nestedTree s' :=
    .chdir (.boot hboot (boot_mounted systemDisk_carries systemTree_isHome
      nestedDisk_carries nestedDisk_consistent hboot).user) hfit hstep
  exact ⟨s', hroams, hpath, cwd_resolves systemDisk_carries hroams hrunnable⟩

/-! ## Texts that do not fit -/

/-- The path `"/home"` with 255 slashes in front. -/
def longPath : CString := ⟨List.replicate 255 slash ++ homeName, by decide⟩

/-- The device and the number of the inode in a slot. -/
def KState.inodeId (s : KState) (i : Fin NINODE) : Nat × Nat :=
  ((s.inodeTable i).dev, (s.inodeTable i).inum)

/-- The shell goes to `/home`, and its string says `/`. -/
theorem cwd_not_resolved :
    systemDisk.Carries formattedLayout systemTree ∧ nestedDisk.Carries formattedLayout nestedTree ∧
    ∃ s s', Reached (fun _ _ _ => True) systemDisk nestedDisk s ∧
      step 1 (.chdir longPath) s = .ok 0 s' ∧ (s'.procs 1).cwdPath = [slash] ∧
      ∃ c i t, (s'.procs 1).cwd = some c ∧ namei (s'.procs 1).cwdPath s' = .ok (some i) t ∧
        s'.inodeId c = (1, 1) ∧ t.inodeId i = (0, 1) := by
  refine ⟨systemDisk_carries, nestedDisk_carries, ?_⟩
  have hrun : yields boot (fun _ s => yields (step 1 (.chdir longPath)) (fun r s' =>
      decide (r = 0 ∧ (s'.procs 1).cwdPath = [slash]) &&
        (s'.procs 1).cwd.any fun c => decide (s'.inodeId c = (1, 1)) &&
          yields (namei (s'.procs 1).cwdPath)
            (fun o t => o.any fun i => decide (t.inodeId i = (0, 1))) s') s)
      (coldState systemDisk nestedDisk) = true := by decide +kernel
  obtain ⟨u, s, hboot, hQ⟩ := exists_ok_of_yields hrun
  obtain ⟨r, s', hstep, hQ⟩ := exists_ok_of_yields hQ
  simp only [Bool.and_eq_true, decide_eq_true_eq, Option.any_eq_true] at hQ
  obtain ⟨⟨rfl, hpath⟩, c, hc, hid, hn⟩ := hQ
  obtain ⟨o, t, hnamei, hn⟩ := exists_ok_of_yields hn
  simp only [Option.any_eq_true, decide_eq_true_eq] at hn
  obtain ⟨i, rfl, hi⟩ := hn
  exact ⟨s, s', .boot hboot, hstep, hpath, c, i, t, hc, hnamei, hid, hi⟩

end Dmaos
