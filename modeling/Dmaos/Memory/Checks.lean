import Dmaos.Memory.Access

/-!
# Checks before uses

All system calls but two use only addresses they have checked (`accesses_validated_iff`).
`spawn` logs its command line and then checks it.  `present_framebuffer` checks one byte for
a pixel, and reads four.

A string that has been checked ends in the memory of the program.  So a loop that goes on to
the next byte only where it has not found NUL stays in the string (`Checked.turn`).  With
this rule the functions on strings are taken one by one.
-/

namespace Dmaos.Access

open Fault Stepping

variable {u : Nat → Byte} {cs : List Check} {e : Use} {P : Use → Prop} {c : Prop}
  {p s q satp len : Nat} {n : BitVec 32} {walk : Nat → Walk} {parent : Bool} {x y : Acc Unit}
  {b : Buf} {k : Situation} {f : TrapFrame}

/-! ## Checked accesses -/

/-- The addresses a check is about: the bytes of the buffer, or those of the string with
its NUL. -/
def Check.Covers (u : Nat → Byte) : Check → Nat → Prop
  | .writeBuffer addr len, a => addr ≤ a ∧ a < addr + len
  | .readBuffer addr len, a => addr ≤ a ∧ a < addr + len
  | .string addr, a => addr ≤ a ∧ ∀ x, addr ≤ x → x < a → u x ≠ 0

/-- The bytes may be written. -/
def Check.ForWriting : Check → Prop
  | .writeBuffer _ _ => True
  | _ => False

/-- The address has been checked before. -/
def Use.Guarded (u : Nat → Byte) (before : List Use) : Use → Prop
  | .passed _ => True
  | .read a => ∃ c, .passed c ∈ before ∧ c.Covers u a
  | .write a => ∃ c, .passed c ∈ before ∧ c.ForWriting ∧ c.Covers u a

/-- Every address is checked before it is used. -/
def Validated (u : Nat → Byte) (es : List Use) : Prop :=
  ∀ before e after, es = before ++ e :: after → e.Guarded u before

/-- The use is covered by one of the checks. -/
def Use.CoveredBy (u : Nat → Byte) (cs : List Check) : Use → Prop
  | .passed _ => False
  | .read a => ∃ c ∈ cs, c.Covers u a
  | .write a => ∃ c ∈ cs, c.ForWriting ∧ c.Covers u a

section Validated

variable {es before : List Use}

theorem Use.CoveredBy.guarded (h : e.CoveredBy u cs) (hcs : ∀ c ∈ cs, .passed c ∈ before) :
    e.Guarded u before := by
  cases e with
  | passed c => exact h.elim
  | read a =>
      obtain ⟨c, hc, ha⟩ := h
      exact ⟨c, hcs c hc, ha⟩
  | write a =>
      obtain ⟨c, hc, hw, ha⟩ := h
      exact ⟨c, hcs c hc, hw, ha⟩

/-- Checks, and then uses that they cover. -/
theorem Validated.of_checks (h : ∀ e ∈ es, e.CoveredBy u cs) :
    Validated u (cs.map .passed ++ es) := by
  intro before e after heq
  rcases List.append_eq_append_iff.mp heq with ⟨mid, rfl, hes⟩ | ⟨mid, hcs, hes⟩
  · refine (h e (hes ▸ List.mem_append_right _ List.mem_cons_self)).guarded fun c hc => ?_
    exact List.mem_append_left _ (List.mem_map_of_mem hc)
  · cases mid with
    | nil =>
        rw [List.nil_append] at hes
        refine (h e (hes ▸ List.mem_cons_self)).guarded fun c hc => ?_
        have := List.mem_map_of_mem (f := Use.passed) hc
        rwa [hcs, List.append_nil] at this
    | cons x mid =>
        obtain ⟨rfl, -⟩ := List.cons.inj hes
        have hmem : e ∈ cs.map Use.passed := by
          rw [hcs]
          exact List.mem_append_right _ List.mem_cons_self
        obtain ⟨c, -, rfl⟩ := List.mem_map.mp hmem
        trivial

/-- A use in the list is covered by one of the checks. -/
theorem Validated.covered (h : Validated u (cs.map .passed ++ es)) {a : Nat}
    (hes : ∀ c, .passed c ∉ es) (ha : .read a ∈ es) : ∃ c ∈ cs, c.Covers u a := by
  obtain ⟨l, r, rfl⟩ := List.append_of_mem ha
  obtain ⟨c, hc, hcov⟩ := h (cs.map .passed ++ l) (.read a) r (by rw [List.append_assoc])
  rcases List.mem_append.mp hc with hc | hc
  · obtain ⟨c', hc', heq⟩ := List.mem_map.mp hc
    exact ⟨c, Use.passed.inj heq ▸ hc', hcov⟩
  · exact absurd (List.mem_append_left _ hc) (hes c)

end Validated

/-! ## What a computation uses -/

/-- The uses that are added all have property `P`. -/
def Adds (P : Use → Prop) (t t' : List Use) : Prop := ∃ es, t' = t ++ es ∧ ∀ e ∈ es, P e

instance (P : Use → Prop) : IsPreorder (List Use) (Adds P) where
  refl t := ⟨[], (List.append_nil t).symm, by simp⟩
  trans t₁ t₂ t₃ h₁ h₂ := by
    obtain ⟨es, rfl, hes⟩ := h₁
    obtain ⟨es', rfl, hes'⟩ := h₂
    refine ⟨es ++ es', List.append_assoc .., fun e he => ?_⟩
    rcases List.mem_append.mp he with he | he
    · exact hes e he
    · exact hes' e he

/-- Wherever `x` ends, what it has added has property `P`; and where it returns, `Q` holds
of the value. -/
def Keeps {α : Type} (P : Use → Prop) (Q : α → Prop) (x : Acc α) : Prop :=
  ∀ t, Ends (fun a t' => Adds P t t' ∧ Q a) (fun _ t' => Adds P t t') x t

/-- All that `x` reads and writes is covered by the checks. -/
abbrev Obeys {α : Type} (u : Nat → Byte) (cs : List Check) (x : Acc α) : Prop :=
  Keeps (Use.CoveredBy u cs) (fun _ => True) x

section Keeps

variable {α β : Type} {Q : α → Prop} {R : β → Prop}

theorem Keeps.pure {a : α} (h : Q a) : Keeps P Q (pure a : Acc α) :=
  fun t => .pure ⟨refl_of (Adds P) t, h⟩

theorem Keeps.throw : Keeps P Q (throw () : Acc α) := by
  refine fun t => ⟨fun hx => absurd hx throw_ok, fun e t' hx => ?_⟩
  cases hx
  exact refl_of (Adds P) t

theorem Keeps.note {Q : Unit → Prop} (he : P e) (hQ : Q ()) : Keeps P Q (note e) := by
  refine fun t => ⟨fun {a t'} hx => ?_, fun e' t' hx => ?_⟩
  · obtain rfl := modify_ok.mp hx
    exact ⟨⟨[e], rfl, by simpa using he⟩, hQ⟩
  · cases hx

theorem Keeps.bind {x : Acc α} {f : α → Acc β} (hx : Keeps P Q x)
    (hf : ∀ a, Q a → Keeps P R (f a)) : Keeps P R (x >>= f) := by
  intro t
  refine (hx t).bind fun a t₁ _ h₁ => ⟨fun h => ?_, fun e t' h => ?_⟩
  · have h₂ := (hf a h₁.2 t₁).ok h
    exact ⟨trans_of (Adds P) h₁.1 h₂.1, h₂.2⟩
  · exact trans_of (Adds P) h₁.1 ((hf a h₁.2 t₁).stops e t' h)

theorem Keeps.ite [Decidable c] {x y : Acc α} (hx : c → Keeps P Q x)
    (hy : ¬ c → Keeps P Q y) : Keeps P Q (if c then x else y) := by
  split_ifs with h
  · exact hx h
  · exact hy h

/-- The uses of a computation that starts after some checks. -/
theorem Keeps.adds {x : Acc α} (h : Keeps P Q x) (t : List Use) : Adds P t (final (x t)) := by
  cases hx : x t with
  | ok a t' => exact ((h t).ok hx).1
  | error e t' => exact (h t).stops e t' hx

end Keeps

/-! ## Buffers -/

section Bytes

theorem next_add {i : Nat} : (next p + i) % 2 ^ 32 = (p + (i + 1)) % 2 ^ 32 := by
  rw [next, Nat.mod_add_mod, Nat.add_assoc, Nat.add_comm 1 i]

theorem Keeps.useBytes {use : Nat → Use} {n : Nat} (hp : p < 2 ^ 32)
    (h : ∀ i < n, P (use ((p + i) % 2 ^ 32))) : Keeps P (fun _ => True) (useBytes use n p) := by
  induction n generalizing p with
  | zero => exact .pure trivial
  | succ n ih =>
      have h0 := h 0 (Nat.succ_pos n)
      rw [Nat.add_zero, Nat.mod_eq_of_lt hp] at h0
      refine .bind (Q := fun _ => True) (.note h0 trivial) fun _ _ =>
        ih (Nat.mod_lt _ (by decide)) fun i hi => ?_
      rw [next_add]
      exact h (i + 1) (Nat.succ_lt_succ hi)

end Bytes

/-! ## Strings -/

/-- The string at `s` has been checked: it ends in the memory of the program. -/
structure Checked (u : Nat → Byte) (cs : List Check) (s : Nat) : Prop where
  mem : .string s ∈ cs
  ends : ∃ e, s ≤ e ∧ e < 0x80000000 ∧ u e = 0

section Strings

theorem Check.covers_start : (Check.string s).Covers u s :=
  ⟨Nat.le_refl s, fun x h1 h2 => absurd h1 (by omega)⟩

theorem Check.Covers.before (h : (Check.string s).Covers u p) (h1 : s ≤ q) (h2 : q ≤ p) :
    (Check.string s).Covers u q :=
  ⟨h1, fun x hx hlt => h.2 x hx (Nat.lt_of_lt_of_le hlt h2)⟩

namespace Checked

theorem lt (h : Checked u cs s) (hp : (Check.string s).Covers u p) : p < 0x80000000 := by
  obtain ⟨e, hse, he, hnul⟩ := h.ends
  exact Nat.lt_of_le_of_lt (Nat.not_lt.mp fun hlt => hp.2 e hse hlt hnul) he

/-- The byte after one that is not NUL belongs to the string, too. -/
theorem next (h : Checked u cs s) (hp : (Check.string s).Covers u p) (h0 : u p ≠ 0) :
    Access.next p = p + 1 ∧ (Check.string s).Covers u (Access.next p) := by
  have hlt := h.lt hp
  have hnext : Access.next p = p + 1 := Nat.mod_eq_of_lt (by omega)
  refine ⟨hnext, ?_⟩
  rw [hnext]
  refine ⟨Nat.le_succ_of_le hp.1, fun x hx hlt => ?_⟩
  rcases Nat.lt_succ_iff_lt_or_eq.mp hlt with hlt | rfl
  · exact hp.2 x hx hlt
  · exact h0

theorem getByte (h : Checked u cs s) (hp : (Check.string s).Covers u p) :
    Keeps (Use.CoveredBy u cs) (· = u p) (getByte u p) :=
  .bind (Q := fun _ => True) (.note ⟨_, h.mem, hp⟩ trivial) fun _ _ => .pure rfl

/-- A loop that goes on to the next byte unless it has found NUL stays in the string. -/
theorem turn {α : Type} {Q : α → Prop} {c : Byte → Prop} [DecidablePred c] {x : Acc α}
    {y : Byte → Acc α} (h : Checked u cs s) (hp : (Check.string s).Covers u p) (hc : ¬ c 0)
    (hx : (Check.string s).Covers u (Access.next p) → Access.next p = p + 1 → c (u p) →
      Keeps (Use.CoveredBy u cs) Q x)
    (hy : Keeps (Use.CoveredBy u cs) Q (y (u p))) :
    Keeps (Use.CoveredBy u cs) Q (do
      let b ← Access.getByte u p
      if c b then x else y b) := by
  refine .bind (h.getByte hp) fun b hb => ?_
  subst hb
  refine .ite (fun hcb => ?_) fun _ => hy
  have hnext := h.next hp fun h0 => hc (h0 ▸ hcb)
  exact hx hnext.2 hnext.1 hcb

theorem strlenLoop (h : Checked u cs s) : ∀ {n p len : Nat}, (Check.string s).Covers u p →
    Obeys u cs (strlenLoop u n p len)
  | 0, _, _, _ => .throw
  | _ + 1, _, _, hp =>
      h.turn hp (fun h0 => h0 rfl) (fun hp' _ _ => h.strlenLoop hp') (.pure trivial)

theorem putString (h : Checked u cs s) : ∀ {n p : Nat}, (Check.string s).Covers u p →
    Obeys u cs (putString u n p)
  | 0, _, _ => .throw
  | _ + 1, _, hp => h.turn hp (fun h0 => h0 rfl) (fun hp' _ _ => h.putString hp') (.pure trivial)

theorem kprintf (h : Checked u cs s) : Obeys u cs (kprintf u s) :=
  .bind (h.strlenLoop Check.covers_start) fun _ _ => h.putString Check.covers_start

theorem copyString (h : Checked u cs s) : ∀ {n p : Nat}, (Check.string s).Covers u p →
    Obeys u cs (copyString u n p)
  | 0, _, _ => .pure trivial
  | _ + 1, _, hp => h.turn hp (fun h0 => h0 rfl) (fun hp' _ _ => h.copyString hp') (.pure trivial)

theorem strcmpEq (h : Checked u cs s) : ∀ {lit : List Byte} {p : Nat},
    (Check.string s).Covers u p →
    Obeys u cs (strcmpEq u lit p)
  | [], _, hp => .bind (h.getByte hp) fun _ _ => .pure trivial
  | _ :: _, _, hp => h.turn hp (fun h0 => h0.1 rfl) (fun hp' _ _ => h.strcmpEq hp') (.pure trivial)

theorem skipSlashes (h : Checked u cs s) : ∀ {n p : Nat}, (Check.string s).Covers u p →
    Keeps (Use.CoveredBy u cs) ((Check.string s).Covers u) (skipSlashes u n p)
  | 0, _, _ => .throw
  | _ + 1, _, hp => h.turn hp (by decide) (fun hp' _ _ => h.skipSlashes hp') (.pure hp)

theorem skipName (h : Checked u cs s) : ∀ {n p len : Nat}, (Check.string s).Covers u p →
    p = q + len →
    Keeps (Use.CoveredBy u cs) (fun r => (Check.string s).Covers u r.1 ∧ r.1 = q + r.2)
      (skipName u n p len)
  | 0, _, _, _, _ => .throw
  | _ + 1, _, _, hp, hq => h.turn hp (fun h0 => h0.2 rfl)
      (fun hp' hnext _ => h.skipName hp' (by rw [hnext, hq, Nat.add_assoc])) (.pure ⟨hp, hq⟩)

theorem skipto (h : Checked u cs s) (hp : (Check.string s).Covers u p) :
    Keeps (Use.CoveredBy u cs) (fun o => ∀ q ∈ o, (Check.string s).Covers u q) (skipto u p) := by
  refine .bind (h.skipSlashes hp) fun q hq => .bind (h.getByte hq) fun c _ => .ite (fun _ => ?_)
    fun _ => ?_
  · exact .pure fun _ h => by cases h
  · refine .bind (h.skipName hq (Nat.add_zero q).symm) fun r hr => ?_
    obtain ⟨path, len⟩ := r
    obtain ⟨hpath, hlen⟩ := hr
    dsimp only at hpath hlen ⊢
    have hlt := h.lt hq
    refine .bind (.useBytes (by omega) fun i hi => ?_) fun _ _ =>
      .bind (h.skipSlashes hpath) fun q' hq' => .pure fun _ heq => by
        rw [← Option.some.inj heq]
        exact hq'
    have hi' : i < len := by
      split_ifs at hi with hd
      · simp only [DIRSIZ] at hi hd
        omega
      · exact hi
    have hpl := h.lt hpath
    rw [Nat.mod_eq_of_lt (by omega)]
    exact ⟨_, h.mem, hpath.before (Nat.le_trans hq.1 (Nat.le_add_right _ _)) (by omega)⟩

theorem namexLoop (h : Checked u cs s) : ∀ {n i p : Nat},
    (Check.string s).Covers u p →
    Obeys u cs (namexLoop u walk parent n i p)
  | 0, _, _, _ => .throw
  | _ + 1, i, _, hp => by
      refine .bind (h.skipto hp) fun o ho => ?_
      cases o with
      | none => exact .pure trivial
      | some q =>
          have hq := ho q rfl
          dsimp only
          cases walk i with
          | notDirectory => exact .pure trivial
          | notFound =>
              exact .ite (fun _ => .bind (h.getByte hq) fun _ _ => .pure trivial) fun _ =>
                .pure trivial
          | found =>
              exact .ite (fun _ => .bind (h.getByte hq) fun _ _ => .ite (fun _ => .pure trivial)
                fun _ => h.namexLoop hq) fun _ => h.namexLoop hq

theorem namex (h : Checked u cs s) : Obeys u cs (namex u walk parent s) :=
  .bind (h.getByte Check.covers_start) fun _ _ => h.namexLoop Check.covers_start

end Checked

end Strings

/-! ## Calls -/

/-- After the checks `cs`, every address `x` uses is checked first. -/
def Sound (u : Nat → Byte) (cs : List Check) (x : Acc Unit) : Prop :=
  Validated u (final (x (cs.map .passed)))

section Sound

theorem Sound.of_keeps (h : Obeys u cs x) : Sound u cs x := by
  obtain ⟨es, heq, hes⟩ := h.adds (cs.map .passed)
  rw [Sound, heq]
  exact .of_checks hes

theorem Sound.done : Sound u cs (pure ()) := .of_keeps (.pure trivial)

theorem Sound.ite [Decidable c] (hx : c → Sound u cs x) (hy : ¬ c → Sound u cs y) :
    Sound u cs (if c then x else y) := by
  split_ifs with h
  · exact hx h
  · exact hy h

/-- A check, and what is done if it is passed. -/
theorem Sound.check {V : Prop} [Decidable V] {c : Check} (h : V → Sound u (cs ++ [c]) x) :
    Sound u cs (do
      let ok ← (if V then do
          note (.passed c)
          return true
        else return false)
      if ok = true then x else pure ()) := by
  by_cases hV : V
  · have hrun : ((if V then do
          note (.passed c)
          return true
        else return false : Acc Bool)) (cs.map .passed)
        = .ok true ((cs ++ [c]).map .passed) := by
      rw [if_pos hV, List.map_append]
      rfl
    rw [Sound, run_bind hrun]
    exact h hV
  · have hrun : ((if V then do
          note (.passed c)
          return true
        else return false : Acc Bool)) (cs.map .passed) = .ok false (cs.map .passed) := by
      rw [if_neg hV]
      rfl
    rw [Sound, run_bind hrun]
    exact Sound.done

end Sound

section Calls

variable {addr n : Nat}

theorem validateBuffer_le {flags : List Nat} (haddr : addr < 2 ^ 32) (hlen : len < 2 ^ 32)
    (h : validateBuffer b satp flags n addr len = some true) : addr + len ≤ 0x80000000 := by
  unfold validateBuffer at h
  dsimp only at h
  split_ifs at h with h1 h2
  · cases h
  · cases h
  · omega

theorem checked_of_validate (h : (validateUserString b satp maxTurns s).map Prod.fst = some true)
    (hmem : .string s ∈ cs) : Checked (view b satp) cs s := by
  obtain ⟨r, es, hrun, hr, -⟩ := validateUserString_exact b satp s
  rw [hrun maxTurns (by decide)] at h
  obtain ⟨e, hse, he, h0, -⟩ := hr.mp (Option.some.inj h)
  exact ⟨hmem, e, hse, he, h0⟩

/-- Bytes of a buffer that may be written. -/
theorem covered_write (hle : addr + len ≤ 0x80000000)
    (hmem : .writeBuffer addr len ∈ cs) (hn : n ≤ len) : Obeys u cs (writeBytes n addr) := by
  refine .useBytes (by omega) fun i hi => ⟨_, hmem, trivial, ?_⟩
  rw [Nat.mod_eq_of_lt (by omega)]
  exact ⟨Nat.le_add_right _ _, by omega⟩

/-- Bytes of a buffer that may be read. -/
theorem covered_read (hle : addr + len ≤ 0x80000000)
    (hmem : .readBuffer addr len ∈ cs) (hn : n ≤ len) : Obeys u cs (readBytes n addr) := by
  refine .useBytes (by omega) fun i hi => ⟨_, hmem, ?_⟩
  rw [Nat.mod_eq_of_lt (by omega)]
  exact ⟨Nat.le_add_right _ _, by omega⟩

theorem toNat_of_pos {n : BitVec 32} (h : ¬ n.toInt ≤ 0) : n.toInt.toNat = n.toNat := by
  rw [BitVec.toInt_eq_toNat_cond] at h ⊢
  split_ifs at h ⊢ with hs
  · exact Int.toNat_natCast _
  · omega

theorem toNat_pos {n : BitVec 32} (h : n ≠ 0) : 0 < n.toNat :=
  Nat.pos_of_ne_zero fun h0 => h (BitVec.eq_of_toNat_eq h0)

theorem fsRead_covered {n : BitVec 32} (hpos : ¬ n.toInt ≤ 0)
    (hle : addr + n.toNat ≤ 0x80000000) (hmem : .writeBuffer addr n.toNat ∈ cs) :
    Obeys u cs (fsRead k addr n) := by
  unfold fsRead
  cases k.file with
  | refused => exact .pure trivial
  | console =>
      dsimp only
      rw [toNat_of_pos hpos]
      exact covered_write hle hmem le_rfl
  | inode unused off size =>
      refine .ite (fun _ => .pure trivial) fun _ => .ite (fun _ => .pure trivial) fun hoff =>
        .ite (fun hlt => ?_) fun _ => covered_write hle hmem le_rfl
      refine covered_write hle hmem ?_
      rw [not_or] at hoff
      bv_omega

theorem fsWrite_covered {n : BitVec 32} (hpos : ¬ n.toInt ≤ 0)
    (hle : addr + n.toNat ≤ 0x80000000) (hmem : .readBuffer addr n.toNat ∈ cs) :
    Obeys u cs (fsWrite k addr n) := by
  unfold fsWrite
  cases k.file with
  | refused => exact .pure trivial
  | console =>
      dsimp only
      rw [toNat_of_pos hpos]
      exact covered_read hle hmem le_rfl
  | inode unused off size =>
      exact .ite (fun _ => .pure trivial) fun _ => .ite (fun _ => .pure trivial) fun _ =>
        covered_read hle hmem le_rfl

/-- With a count that is not positive, nothing is read: as an unsigned number it is zero,
or too large for every offset. -/
theorem fsWrite_unchecked {n : BitVec 32} (hneg : n.toInt ≤ 0) : Obeys u cs (fsWrite k addr n) := by
  unfold fsWrite
  cases k.file with
  | refused => exact .pure trivial
  | console =>
      dsimp only
      rw [Int.toNat_of_nonpos hneg]
      exact .pure trivial
  | inode unused off size =>
      refine .ite (fun _ => .pure trivial) fun hoff => .ite (fun _ => .pure trivial) fun hmax => ?_
      have h0 : n.toNat = 0 := by
        rw [not_or] at hoff
        have hcases : n.toNat = 0 ∨ 2 ^ 31 ≤ n.toNat := by
          rw [BitVec.toInt_eq_toNat_cond] at hneg
          split_ifs at hneg <;> omega
        have hlimit : (BitVec.ofNat 32 (MAXFILE * BSIZE)).toNat = 67383296 := by decide
        rw [BitVec.lt_def, hlimit] at hmax
        bv_omega
      rw [h0]
      exact .pure trivial

theorem fsGetFileName_covered (hpos : 0 < len) (hle : addr + len ≤ 0x80000000)
    (hmem : .writeBuffer addr len ∈ cs) : Obeys u cs (fsGetFileName k addr len) := by
  unfold fsGetFileName
  cases k.nameLen with
  | none => exact .pure trivial
  | some m =>
      have hlt : (if len ≤ m then len - 1 else m) < len := by
        split_ifs <;> omega
      refine .bind (covered_write hle hmem (Nat.le_of_lt hlt)) fun _ _ =>
        .note ⟨_, hmem, trivial, ?_⟩ trivial
      rw [Nat.mod_eq_of_lt (by omega)]
      exact ⟨Nat.le_add_right _ _, by omega⟩

theorem fsStat_covered {st : Nat} (hs : Checked (view b satp) cs s)
    (hle : st + 8 ≤ 0x80000000) (hmem : .writeBuffer st 8 ∈ cs) :
    Obeys (view b satp) cs (fsStat b satp k s st) := by
  refine .bind hs.namex fun found _ => .ite (fun _ => ?_) fun _ => .pure trivial
  refine .bind (covered_write hle hmem (by decide)) fun _ _ =>
    .useBytes (Nat.mod_lt _ (by decide)) fun i hi => ⟨_, hmem, trivial, ?_⟩
  rw [Nat.mod_add_mod, Nat.mod_eq_of_lt (by omega)]
  exact ⟨by omega, by omega⟩

theorem sysChdir_covered (hs : Checked (view b satp) cs s) :
    Obeys (view b satp) cs (sysChdir b satp k s) :=
  .bind hs.namex fun _ _ => .ite (fun _ => .bind (hs.getByte Check.covers_start) fun _ _ =>
    .ite (fun _ => hs.copyString Check.covers_start) fun _ => hs.copyString Check.covers_start)
    fun _ => .pure trivial

theorem fsCreate_covered (hs : Checked (view b satp) cs s) :
    Obeys (view b satp) cs (fsCreate b satp k s) :=
  .bind hs.namex fun _ _ => .ite (fun _ => .pure trivial) fun _ => hs.kprintf

theorem fsOpen_covered (hs : Checked (view b satp) cs s) :
    Obeys (view b satp) cs (fsOpen b satp k s) :=
  .bind (hs.strcmpEq Check.covers_start) fun _ _ => .ite (fun _ => .pure trivial) fun _ =>
    .bind hs.namex fun _ _ => .pure trivial

/-- The calls other than `spawn` and `present_framebuffer` use what they have checked. -/
theorem handleSyscall_sound {num : SyscallNumber} (hspawn : num ≠ .spawn)
    (hpresent : num ≠ .presentFramebuffer) :
    Sound (view b satp) [] (handleSyscall b satp k num f) := by
  have hfirst {c : Check} : c ∈ [] ++ [c] := List.mem_singleton_self c
  cases num with
  | spawn => exact absurd rfl hspawn
  | presentFramebuffer => exact absurd rfl hpresent
  | «open» =>
      refine .check fun hV => .ite (fun _ => ?_) fun _ => ?_
      · exact .of_keeps (fsCreate_covered (checked_of_validate hV hfirst))
      · exact .of_keeps (fsOpen_covered (checked_of_validate hV hfirst))
  | read =>
      refine .ite (fun _ => .done) fun hpos => .check fun hV => .of_keeps ?_
      exact fsRead_covered hpos (validateBuffer_le f.a1.isLt f.a2.isLt hV) hfirst
  | write =>
      refine .ite (fun hneg => .of_keeps (fsWrite_unchecked hneg)) fun hpos =>
        .check fun hV => .of_keeps ?_
      exact fsWrite_covered hpos (validateBuffer_le f.a1.isLt f.a2.isLt hV) hfirst
  | getFileName =>
      refine .ite (fun _ => .done) fun hpos => .check fun hV => .of_keeps ?_
      refine fsGetFileName_covered ?_ (validateBuffer_le f.a1.isLt f.a2.isLt hV) hfirst
      have := toNat_of_pos hpos
      omega
  | stat =>
      refine .check fun hV => .check fun hW => .of_keeps ?_
      exact fsStat_covered (checked_of_validate hV (by simp))
        (validateBuffer_le f.a1.isLt (by decide) hW) (by simp)
  | chdir =>
      exact .check fun hV => .of_keeps (sysChdir_covered (checked_of_validate hV hfirst))
  | getcwd =>
      refine .ite (fun _ => .done) fun hpos => .check fun hV => .ite (fun _ => .done) fun hlt => ?_
      exact .of_keeps (covered_write (validateBuffer_le f.a0.isLt f.a1.isLt hV) hfirst
        (Nat.lt_of_not_le hlt))
  | mkdir =>
      exact .check fun hV => .of_keeps (.bind (checked_of_validate hV hfirst).namex fun _ _ =>
        .pure trivial)
  | rm =>
      exact .check fun hV => .of_keeps (.bind (checked_of_validate hV hfirst).namex fun _ _ =>
        .pure trivial)
  | kmesg =>
      refine .ite (fun _ => .done) fun hpos => .check fun hV => .of_keeps ?_
      exact covered_write (validateBuffer_le f.a0.isLt f.a1.isLt hV) hfirst (Nat.min_le_left _ _)
  | inputPoll =>
      refine .check fun hV => .check fun hW => .ite (fun _ => .of_keeps ?_) fun _ => .done
      have hcode := validateBuffer_le f.a0.isLt (by decide) hV
      have hpressed := validateBuffer_le f.a1.isLt (by decide) hW
      exact .bind (covered_write hcode (by simp) le_rfl) fun _ _ =>
        covered_write hpressed (by simp) le_rfl
  | _ => exact .done

end Calls

/-! ## Spawning -/

/-- `x` only adds to what has been done. -/
def Grows {α : Type} (x : Acc α) : Prop := Keeps (fun _ => True) (fun _ => True) x

/-- `e` is what `x` does first. -/
def Starts {α : Type} (e : Use) (x : Acc α) : Prop :=
  ∀ t, Adds (fun _ => True) (t ++ [e]) (final (x t))

section Spawn

variable {α β : Type}

theorem Starts.bind {x : Acc α} {f : α → Acc β} (hx : Starts e x) (hf : ∀ a, Grows (f a)) :
    Starts e (x >>= f) := by
  intro t
  have h := hx t
  cases hrun : x t with
  | ok a t₁ =>
      rw [hrun] at h
      rw [run_bind hrun]
      exact trans_of (Adds _) h ((hf a).adds t₁)
  | error e' t₁ =>
      rw [hrun] at h
      rw [run_bind_error hrun]
      exact h

theorem Starts.getByte : Starts (.read p) (getByte u p) :=
  fun t => refl_of (Adds _) (t ++ [.read p])

theorem grows_getByte : Grows (getByte u p) :=
  .bind (Q := fun _ => True) (.note trivial trivial) fun _ _ => .pure trivial

theorem grows_strlenLoop : ∀ {n p len : Nat}, Grows (strlenLoop u n p len)
  | 0, _, _ => .throw
  | _ + 1, _, _ => .bind grows_getByte fun _ _ =>
      .ite (fun _ => grows_strlenLoop) fun _ => .pure trivial

theorem grows_putString : ∀ {n p : Nat}, Grows (putString u n p)
  | 0, _ => .throw
  | _ + 1, _ => .bind grows_getByte fun _ _ =>
      .ite (fun _ => grows_putString) fun _ => .pure trivial

theorem grows_kprintf : Grows (kprintf u p) :=
  .bind grows_strlenLoop fun _ _ => grows_putString

theorem grows_readBytes : ∀ {n p : Nat}, Grows (readBytes n p)
  | 0, _ => .pure trivial
  | _ + 1, _ => .bind (Q := fun _ => True) (.note trivial trivial) fun _ _ => grows_readBytes

theorem grows_validateString : Grows (validateString b satp p) :=
  .ite (fun _ => .bind (Q := fun _ => True) (.note trivial trivial) fun _ _ => .pure trivial)
    fun _ => .pure trivial

theorem Starts.kprintf : Starts (.read p) (kprintf u p) := by
  have hlen : Starts (.read p) (strlen u p) := by
    rw [strlen, show maxTurns = 2 ^ 32 - 1 + 1 from rfl, strlenLoop]
    exact Starts.getByte.bind fun _ => .ite (fun _ => grows_strlenLoop) fun _ => .pure trivial
  exact hlen.bind fun _ => grows_putString

/-- `spawn` starts with reading the command line. -/
theorem spawn_starts : Starts (.read f.a0.toNat) (handleSyscall b satp k .spawn f) := by
  have hspawn : Grows (spawnProcess b satp f.a0.toNat) :=
    .bind grows_kprintf fun _ _ => .bind grows_strlenLoop fun _ _ => grows_readBytes
  exact Starts.kprintf.bind fun _ => .bind grows_validateString fun _ _ =>
    .ite (fun _ => .bind hspawn fun _ _ => .ite (fun _ => grows_kprintf) fun _ => .pure trivial)
      fun _ => .pure trivial

/-- What is read first has not been checked. -/
theorem Starts.not_sound (h : Starts (.read p) x) : ¬ Sound u [] x := by
  obtain ⟨es, hes, -⟩ := h []
  intro hs
  obtain ⟨c, hc, -⟩ := hs [] (.read p) es hes
  cases hc

end Spawn

/-! ## The framebuffer -/

/-- `x` returns, and it has read the addresses with property `A`. -/
def Reads (A : Nat → Prop) (x : Acc Unit) : Prop :=
  ∀ t, ∃ es, x t = .ok () (t ++ es) ∧ ∀ e, e ∈ es ↔ ∃ a, A a ∧ e = .read a

section Reads

variable {A B : Nat → Prop}

theorem Reads.done : Reads (fun _ => False) (pure ()) :=
  fun t => ⟨[], by rw [List.append_nil]; rfl, by simp⟩

theorem Reads.note : Reads (· = p) (note (.read p)) :=
  fun t => ⟨[.read p], rfl, by simp⟩

theorem Reads.bind (hx : Reads A x) (hy : Reads B y) :
    Reads (fun a => A a ∨ B a) (do
      x
      y) := by
  intro t
  obtain ⟨es, hrun, hes⟩ := hx t
  obtain ⟨es', hrun', hes'⟩ := hy (t ++ es)
  refine ⟨es ++ es', ?_, fun e => ?_⟩
  · rw [run_bind hrun, hrun', List.append_assoc]
  · rw [List.mem_append, hes, hes']
    simp only [or_and_right, exists_or]

theorem Reads.congr (hx : Reads A x) (h : ∀ a, A a ↔ B a) : Reads B x := by
  obtain rfl : A = B := funext fun a => propext (h a)
  exact hx

/-- Reading after one check. -/
theorem Reads.sound_iff {c : Check} (hx : Reads A x) : Sound u [c] x ↔ ∀ a, A a → c.Covers u a := by
  obtain ⟨es, hrun, hes⟩ := hx ([c].map .passed)
  rw [Sound, hrun]
  constructor
  · intro h a ha
    have hno : ∀ c', .passed c' ∉ es := fun c' hc' => by
      obtain ⟨_, -, heq⟩ := (hes _).mp hc'
      cases heq
    obtain ⟨c', hc', hcov⟩ := Validated.covered h hno ((hes _).mpr ⟨a, ha, rfl⟩)
    rwa [List.mem_singleton.mp hc'] at hcov
  · intro h
    refine Validated.of_checks fun e he => ?_
    obtain ⟨a, ha, rfl⟩ := (hes e).mp he
    exact ⟨c, List.mem_singleton_self c, h a ha⟩

end Reads

section Framebuffer

variable {fb w h : Nat}

theorem reads_bytes {n : Nat} (hp : p < 2 ^ 32) :
    Reads (fun a => ∃ i < n, a = (p + i) % 2 ^ 32) (readBytes n p) := by
  induction n generalizing p with
  | zero => exact Reads.done.congr fun a => by simp
  | succ n ih =>
      refine (Reads.note.bind (ih (p := next p) (Nat.mod_lt _ (by decide)))).congr fun a => ?_
      refine .trans ?_ Nat.exists_lt_succ_left.symm
      simp only [next_add]
      rw [Nat.add_zero, Nat.mod_eq_of_lt hp]

theorem Reads.forM {A : Nat → Nat → Prop} {f : Nat → Acc Unit} {l : List Nat}
    (hf : ∀ i, Reads (A i) (f i)) : Reads (fun a => ∃ i ∈ l, A i a) (l.forM f) := by
  induction l with
  | nil => exact Reads.done.congr fun a => by simp
  | cons i l ih => exact ((hf i).bind ih).congr fun a => by simp

/-- The address of byte `j` of the pixel that is shown at column `x` of row `y`. -/
def pixelByte (fb w h y x j : Nat) : Nat := (fb + 4 * source w h y x + j) % 2 ^ 32

theorem reads_picture (fb w h : Nat) : Reads (fun a => ∃ y < FB_HEIGHT, ∃ x < FB_WIDTH, ∃ j < 4,
    a = pixelByte fb w h y x j) (readPicture fb w h) := by
  rw [readPicture, scaleRows_eq]
  refine (Reads.forM fun y => Reads.forM fun x => reads_bytes (Nat.mod_lt _ (by decide))).congr
    fun a => ?_
  simp only [List.mem_range'_1, Nat.zero_le, true_and, Nat.zero_add, Nat.mod_add_mod, pixelByte]

/-- The picture is accepted: it has pixels, and as many bytes as the product of its
dimensions says are mapped for writing. -/
structure Accepted (b : Buf) (satp : Nat) (f : TrapFrame) : Prop where
  width : f.a1 ≠ 0
  height : f.a2 ≠ 0
  below : f.a0.toNat + f.a1.toNat * f.a2.toNat % 2 ^ 32 ≤ 0x80000000
  mapped : ∀ a, pageOf f.a0.toNat ≤ a → a < f.a0.toNat + f.a1.toNat * f.a2.toNat % 2 ^ 32 →
    PageHas b (getActivePageTable satp) [PAGE_V, PAGE_U, PAGE_W] a

/-- The four bytes of every pixel that is shown are among those bytes.  Of a dimension only
the low half counts for the coordinates. -/
def Fits (w h : Nat) : Prop :=
  ∀ y < FB_HEIGHT, ∀ x < FB_WIDTH,
    4 * (coordinate (h % 2 ^ 16) (2 ^ 16) FB_HEIGHT y * w
      + coordinate (w % 2 ^ 16) (2 ^ 16) FB_WIDTH x) % 2 ^ 32 + 4 ≤ w * h % 2 ^ 32

theorem accepted_iff :
    Accepted b satp f ↔ ¬ (f.a1 = 0 ∨ f.a2 = 0) ∧
      validateUserWriteBuffer b satp maxTurns f.a0.toNat (f.a1 * f.a2).toNat = some true := by
  obtain ⟨r, hrun, hr⟩ := validateBuffer_pages b satp [PAGE_V, PAGE_U, PAGE_W] f.a0.isLt
    (f.a1 * f.a2).isLt
  rw [validateUserWriteBuffer, hrun maxTurns (by decide), Option.some.injEq, hr, BitVec.toNat_mul,
    not_or]
  exact ⟨fun h => ⟨⟨h.width, h.height⟩, h.below, h.mapped⟩,
    fun h => ⟨h.1.1, h.1.2, h.2.1, h.2.2⟩⟩

/-- A pixel of an accepted picture. -/
theorem covers_pixel_iff {x y : Nat} (hle : fb + len ≤ 0x80000000) :
    (∀ j < 4, (Check.writeBuffer fb len).Covers u (pixelByte fb w h y x j)) ↔
      4 * (srcY h y * w + srcX w x) % 2 ^ 32 + 4 ≤ len := by
  simp only [Check.Covers, pixelByte, source]
  constructor
  · intro h
    have h3 := h 3 (by decide)
    omega
  · intro h j hj
    omega

/-- The loops over the pixels use what has been checked if and only if the picture fits. -/
theorem readPicture_sound_iff (hw : 0 < w) (hh : 0 < h) (hle : fb + w * h % 2 ^ 32 ≤ 0x80000000) :
    Sound u [.writeBuffer fb (w * h % 2 ^ 32)] (readPicture fb w h) ↔ Fits w h := by
  rw [(reads_picture _ _ _).sound_iff]
  constructor
  · intro H y hy x hx
    rw [← sourceOf_low hh (by decide) hy, ← sourceOf_low hw (by decide) hx]
    exact (covers_pixel_iff (u := u) hle).mp fun j hj => H _ ⟨y, hy, x, hx, j, hj, rfl⟩
  · rintro H a ⟨y, hy, x, hx, j, hj, rfl⟩
    have hfits := H y hy x hx
    rw [← sourceOf_low hh (by decide) hy, ← sourceOf_low hw (by decide) hx] at hfits
    exact (covers_pixel_iff hle).mpr hfits j hj

section Present

theorem present_accepted (h : Accepted b satp f) (t : List Use) :
    handleSyscall b satp k .presentFramebuffer f t
      = readPicture f.a0.toNat f.a1.toNat f.a2.toNat
        (t ++ [.passed (.writeBuffer f.a0.toNat (f.a1.toNat * f.a2.toNat % 2 ^ 32))]) := by
  obtain ⟨h0, hV⟩ := accepted_iff.mp h
  have hcheck : validateWrite b satp f.a0.toNat (f.a1 * f.a2).toNat t
      = .ok true (t ++ [.passed (.writeBuffer f.a0.toNat (f.a1 * f.a2).toNat)]) := by
    rw [validateWrite, if_pos hV]
    rfl
  rw [handleSyscall, if_neg h0, run_bind hcheck, BitVec.toNat_mul, if_pos rfl]

theorem present_refused (h : ¬ Accepted b satp f) (t : List Use) :
    handleSyscall b satp k .presentFramebuffer f t = .ok () t := by
  by_cases h0 : f.a1 = 0 ∨ f.a2 = 0
  · rw [handleSyscall, if_pos h0]
    rfl
  · have hcheck : validateWrite b satp f.a0.toNat (f.a1 * f.a2).toNat t = .ok false t := by
      rw [validateWrite, if_neg fun hV => h (accepted_iff.mpr ⟨h0, hV⟩)]
      rfl
    rw [handleSyscall, if_neg h0, run_bind hcheck]
    rfl

theorem present_sound_iff : Sound (view b satp) [] (handleSyscall b satp k .presentFramebuffer f) ↔
    (Accepted b satp f → Fits f.a1.toNat f.a2.toNat) := by
  by_cases hacc : Accepted b satp f
  · rw [Sound, present_accepted hacc]
    exact (readPicture_sound_iff (toNat_pos hacc.width) (toNat_pos hacc.height) hacc.below).trans
      ⟨fun h _ => h, fun h => h hacc⟩
  · rw [Sound, present_refused hacc]
    exact ⟨fun _ h => absurd h hacc, fun _ => Sound.done⟩

/-- What is read of an accepted picture. -/
theorem present_reads (h : Accepted b satp f) {x y j : Nat} (hx : x < FB_WIDTH) (hy : y < FB_HEIGHT)
    (hj : j < 4) :
    .read (pixelByte f.a0.toNat f.a1.toNat f.a2.toNat y x j) ∈
      uses b satp k .presentFramebuffer f := by
  rw [uses, present_accepted h]
  obtain ⟨es, hrun, hes⟩ := reads_picture f.a0.toNat f.a1.toNat f.a2.toNat _
  rw [hrun]
  exact List.mem_append_right _ ((hes _).mpr ⟨_, ⟨y, hy, x, hx, j, hj, rfl⟩, rfl⟩)

end Present

/-- A picture of a size that makes sense does not fit. -/
theorem not_fits (hw : 0 < w) (hh : 0 < h) (hw' : w < 2 ^ 16) (hh' : h < 2 ^ 16)
    (hprod : w * h ≤ 0x80000000) : ¬ Fits w h := by
  intro hfits
  simp only [Fits, Nat.mod_eq_of_lt hw', Nat.mod_eq_of_lt hh',
    Nat.mod_eq_of_lt (Nat.lt_of_le_of_lt hprod (by decide : 0x80000000 < 2 ^ 32))] at hfits
  cases Nat.lt_or_ge h 16 with
  | inl hsmall =>
      -- the last pixel is in the second half of the picture
      have hlast := hfits 799 (by decide) 1279 (by decide)
      have hX : w ≤ 2 * coordinate w (2 ^ 16) FB_WIDTH 1279 + 1 := by
        simp only [coordinate, FB_WIDTH]
        omega
      have hY : h ≤ 2 * coordinate h (2 ^ 16) FB_HEIGHT 799 + 1 := by
        simp only [coordinate, FB_HEIGHT]
        omega
      have hX' : coordinate w (2 ^ 16) FB_WIDTH 1279 < w :=
        coordinate_lt (by decide) (by decide) hw (by decide)
      have hY' : coordinate h (2 ^ 16) FB_HEIGHT 799 < h :=
        coordinate_lt (by decide) (by decide) hh (by decide)
      have hindex := index_lt hX' hY'
      have hrows := Nat.mul_le_mul_left w hY
      have hbound : w * h < 2 ^ 16 * 16 := Nat.mul_lt_mul'' hw' hsmall
      generalize coordinate w (2 ^ 16) FB_WIDTH 1279 = X at *
      generalize coordinate h (2 ^ 16) FB_HEIGHT 799 = Y at *
      rw [Nat.mod_eq_of_lt (by omega), Nat.mul_comm Y w] at hlast
      rw [Nat.mul_add, Nat.mul_one, Nat.mul_left_comm] at hrows
      omega
  | inr hlarge =>
      -- a pixel after the first quarter, so early that its address does not wrap
      have hpix := hfits 300 (by decide) 0 (by decide)
      have hlo : 3 * h ≤ 8 * coordinate h (2 ^ 16) FB_HEIGHT 300 + 16 := by
        simp only [coordinate, FB_HEIGHT]
        omega
      have hhi : 8 * coordinate h (2 ^ 16) FB_HEIGHT 300 ≤ 3 * h := by
        simp only [coordinate, FB_HEIGHT]
        omega
      have hlo' := Nat.mul_le_mul_left w hlo
      have hhi' := Nat.mul_le_mul_left w hhi
      have hlarge' := Nat.mul_le_mul_left w hlarge
      rw [Nat.mul_add, Nat.mul_left_comm w, Nat.mul_left_comm w] at hlo'
      rw [Nat.mul_left_comm w, Nat.mul_left_comm w] at hhi'
      have hzero : coordinate w (2 ^ 16) FB_WIDTH 0 = 0 := by
        rw [coordinate, Nat.zero_mul, Nat.zero_div]
      rw [hzero, Nat.mul_comm _ w] at hpix
      generalize w * coordinate h (2 ^ 16) FB_HEIGHT 300 = Z at *
      rw [Nat.mod_eq_of_lt (by omega)] at hpix
      omega

end Framebuffer

/-- Every address is checked before it is used, except by `spawn` and where a picture is
accepted that does not fit. -/
theorem accesses_validated_iff (b : Buf) (satp : Nat) (k : Situation) (num : SyscallNumber)
    (f : TrapFrame) :
    Validated (view b satp) (uses b satp k num f) ↔ num ≠ .spawn ∧
      (num = .presentFramebuffer → Accepted b satp f → Fits f.a1.toNat f.a2.toNat) := by
  change Sound (view b satp) [] (handleSyscall b satp k num f) ↔ _
  by_cases hspawn : num = .spawn
  · subst hspawn
    exact ⟨fun h => absurd h spawn_starts.not_sound, fun h => absurd rfl h.1⟩
  · by_cases hpresent : num = .presentFramebuffer
    · subst hpresent
      rw [present_sound_iff]
      exact ⟨fun h => ⟨nofun, fun _ => h⟩, fun h => h.2 rfl⟩
    · exact ⟨fun _ => ⟨hspawn, fun h => absurd h hpresent⟩,
        fun _ => handleSyscall_sound hspawn hpresent⟩

/-- A situation in which nothing is found. -/
def idle : Situation where
  walk _ := .notFound
  isDirectory := false
  file := .refused
  nameLen := none
  cwdLen := 1
  baseLen := 1
  spawnFails := true
  kmesgLen := 0
  key := false

/-- One page is mapped, at `0x1000000`.  `spawn` with an address of the kernel reads there.
A picture with one pixel at the last byte of the page is accepted, and three of its bytes are
read on the next page. -/
theorem accesses_unchecked :
    (∃ es, uses onePage 0x80300 idle .spawn ⟨0x80200000, 0, 0⟩ = .read 0x80200000 :: es) ∧
    ¬ Validated (view onePage 0x80300) (uses onePage 0x80300 idle .spawn ⟨0x80200000, 0, 0⟩) ∧
    .read 0x1001000 ∈ uses onePage 0x80300 idle .presentFramebuffer ⟨0x1000fff, 1, 1⟩ ∧
    ¬ PageHas onePage (getActivePageTable 0x80300) [PAGE_V] 0x1001000 ∧
    ¬ Validated (view onePage 0x80300)
      (uses onePage 0x80300 idle .presentFramebuffer ⟨0x1000fff, 1, 1⟩) := by
  have hpage : PageHas onePage (getActivePageTable 0x80300) [PAGE_V, PAGE_U, PAGE_W] 0x1000000 := by
    decide +kernel
  have hacc : Accepted onePage 0x80300 ⟨0x1000fff, 1, 1⟩ := by
    refine ⟨by decide, by decide, by decide, fun a ha hlt => (PageHas.congr ?_).mp hpage⟩
    have hlo : 0x1000000 ≤ a := ha
    have hhi : a < 0x1001000 := hlt
    rw [PAGE_SIZE]
    omega
  refine ⟨?_, spawn_starts.not_sound, ?_, by decide +kernel, fun h => ?_⟩
  · obtain ⟨es, hes, -⟩ := spawn_starts (b := onePage) (f := ⟨0x80200000, 0, 0⟩) []
    exact ⟨es, hes⟩
  · exact present_reads (x := 0) (y := 0) (j := 1) hacc (by decide) (by decide) (by decide)
  · exact not_fits (by decide) (by decide) (by decide) (by decide) (by decide)
      (present_sound_iff.mp h hacc)

end Dmaos.Access
