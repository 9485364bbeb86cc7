import Dmaos.System.Name
import Dmaos.Memory.Access
import Dmaos.Memory.Create

/-!
# Two models of one call

`Kernel` has what a call does to the tables, `Access` what it does to the memory of the
program.  Where a path lies at the address the program has passed, both find the same
components and come to the same answer (`skipto_agrees`, `namex_agrees`).  Where an inode
is read or written, both move the same number of bytes (`readi_agrees`, `writei_agrees`).
So what `Checks` says of every `Situation` is said of every state of the kernel.
-/

namespace Dmaos.Access

open Fault

/-! ## Paths -/

/-- `l` is the string at `p`. -/
inductive StringAt (u : Nat → Byte) : Nat → List Byte → Prop where
  | nil (h : u p = 0) : StringAt u p []
  | cons (h : u p ≠ 0) (rest : StringAt u (next p) l) : StringAt u p (u p :: l)

variable {u : Nat → Byte} {p n : Nat} {l : List Byte} {α β : Type}

/-- `x` returns a value with `Q`, whatever has been done before. -/
def Gives (Q : α → Prop) (x : Acc α) : Prop := ∀ es, Ends (fun a _ => Q a) (fun _ _ => False) x es

namespace Gives

variable {Q : α → Prop} {R : β → Prop}

theorem pure {a : α} (h : Q a) : Gives Q (pure a) := fun _ => .pure h

theorem bind {x : Acc α} {f : α → Acc β} (hx : Gives Q x) (hf : ∀ a, Q a → Gives R (f a)) :
    Gives R (x >>= f) := fun es => (hx es).bind fun a t _ ha => hf a ha t

theorem getByte {f : Byte → Acc β} (h : Gives R (f (u p))) : Gives R (getByte u p >>= f) :=
  fun _ => .run rfl (h _)

theorem useBytes {use : Nat → Use} : Gives (fun _ => True) (useBytes use n p) := by
  induction n generalizing p with
  | zero => exact .pure trivial
  | succ n ih => exact fun _ => .run rfl (ih _)

end Gives

theorem skipSlashes_agrees : ∀ {n p : Nat} {l : List Byte}, StringAt u p l → l.length < n →
    Gives (StringAt u · (l.dropWhile (· = slash))) (skipSlashes u n p)
  | _ + 1, _, _, .nil h, _ => .getByte (by rw [h]; exact .pure (.nil h))
  | _ + 1, _, _, .cons h rest, hn => .getByte (by
      split_ifs with hc
      · rw [List.dropWhile_cons_of_pos (by simpa using hc)]
        exact skipSlashes_agrees rest (Nat.lt_of_succ_lt_succ hn)
      · rw [List.dropWhile_cons_of_neg (by simpa using hc)]
        exact .pure (.cons h rest))

theorem skipName_agrees : ∀ {n p len : Nat} {l : List Byte}, StringAt u p l → l.length < n →
    Gives (fun x => StringAt u x.1 (l.dropWhile (· ≠ slash))) (skipName u n p len)
  | _ + 1, _, _, _, .nil h, _ => .getByte (by rw [h]; exact .pure (.nil h))
  | _ + 1, _, _, _, .cons h rest, hn => .getByte (by
      split_ifs with hc
      · rw [List.dropWhile_cons_of_pos (by simpa using hc.1)]
        exact skipName_agrees rest (Nat.lt_of_succ_lt_succ hn)
      · rw [List.dropWhile_cons_of_neg (by simpa using fun hs => hc ⟨hs, h⟩)]
        exact .pure (.cons h rest))

/-- Both models of `skipto` go on with the same path. -/
theorem skipto_agrees (h : StringAt u p l) (hl : l.length < maxTurns) :
    Gives (Option.Rel (fun q x => StringAt u q x.2) · (Dmaos.skipto l)) (skipto u p) := by
  have hdrop {f : Byte → Bool} {l : List Byte} (hl : l.length < maxTurns) :
      (l.dropWhile f).length < maxTurns := Nat.lt_of_le_of_lt (List.dropWhile_suffix f).length_le hl
  refine .bind (skipSlashes_agrees h hl) fun q hq => .getByte ?_
  have hlq := hdrop hl (f := (· = slash))
  rw [Dmaos.skipto]
  generalize l.dropWhile (· = slash) = l' at hq hlq ⊢
  cases hq with
  | nil h0 =>
      rw [if_pos h0]
      exact .pure .none
  | cons h0 rest =>
      rw [if_neg h0]
      refine .bind (skipName_agrees (.cons h0 rest) hlq) fun x hx => .bind .useBytes fun _ _ => ?_
      exact .bind (skipSlashes_agrees hx (hdrop hlq)) fun q hq => .pure (.some hq)

theorem StringAt.byte_eq_zero (h : StringAt u p l) : u p = 0 ↔ l = [] := by
  cases h with
  | nil h => exact ⟨fun _ => rfl, fun _ => h⟩
  | cons h => exact ⟨fun h0 => absurd h0 h, fun h => by cases h⟩

/-- What the lookups of a run of `namex` come to, from the component with number `i` on,
decides the answer. -/
theorem namexLoop_agrees {parent : Bool} {k i : Nat} {ip : Fin NINODE} {name : List Byte}
    {x : Option (Fin NINODE) × List Byte} {s s' : KState} (hl : l.length < maxTurns)
    (hk : l.length < k) (hx : Dmaos.namexLoop parent k l ip name s = .ok x s') :
    ∃ walk : Nat → Walk, ∀ {walk' p n}, (∀ j, i ≤ j → walk' j = walk j) → StringAt u p l →
      l.length ≤ n → Gives (· = x.1.isSome) (namexLoop u walk' parent (n + 1) i p) := by
  induction k generalizing l ip name s i with
  | zero => exact absurd hk (Nat.not_lt_zero _)
  | succ k ih =>
    have hskip {p : Nat} (h : StringAt u p l) := skipto_agrees h hl
    rw [Dmaos.namexLoop] at hx
    cases hto : Dmaos.skipto l with
    | none =>
      rw [hto] at hx hskip
      refine ⟨fun _ => .found, fun _ h _ => .bind (hskip h) fun o ho => ?_⟩
      cases ho
      refine .pure ?_
      cases parent with
      | true =>
          obtain ⟨_, _, -, hx⟩ := bind_ok.mp hx
          obtain ⟨rfl, -⟩ := pure_ok.mp hx
          rfl
      | false =>
          obtain ⟨rfl, -⟩ := pure_ok.mp hx
          rfl
    | some y =>
      rw [hto] at hx hskip
      have hrest := skipto_length hto
      obtain ⟨_, s₁, -, hx⟩ := bind_ok.mp hx
      replace hx := inodeAt_then hx
      split_ifs at hx with hdir hlast
      · obtain ⟨_, _, -, hx⟩ := bind_ok.mp hx
        obtain ⟨rfl, -⟩ := pure_ok.mp hx
        refine ⟨fun _ => .notDirectory, fun hw h _ => .bind (hskip h) fun o ho => ?_⟩
        obtain ⟨hq⟩ := ho
        rw [hw i le_rfl]
        exact .pure rfl
      · obtain ⟨rfl, -⟩ := pure_ok.mp hx
        refine ⟨fun _ => .found, fun hw h _ => .bind (hskip h) fun o ho => ?_⟩
        obtain ⟨hq⟩ := ho
        rw [hw i le_rfl]
        simp only [hlast.1, if_true]
        exact .getByte (by rw [if_pos (hq.byte_eq_zero.mpr hlast.2)]; exact .pure rfl)
      · obtain ⟨o', s₂, -, hx⟩ := bind_ok.mp hx
        -- Where the parent is asked for, this is not the last component.
        have hmore {q : Nat} (hq : StringAt u q y.2) (hp : parent = true) : u q ≠ 0 :=
          fun h0 => hlast ⟨hp, hq.byte_eq_zero.mp h0⟩
        cases o' with
        | none =>
            obtain ⟨_, _, -, hx⟩ := bind_ok.mp hx
            obtain ⟨rfl, -⟩ := pure_ok.mp hx
            refine ⟨fun _ => .notFound, fun hw h _ => .bind (hskip h) fun o ho => ?_⟩
            obtain ⟨hq⟩ := ho
            rw [hw i le_rfl]
            split_ifs with hp
            · exact .getByte (.pure (by simpa using hmore hq hp))
            · exact .pure rfl
        | some inner =>
            obtain ⟨_, _, -, hx⟩ := bind_ok.mp hx
            obtain ⟨_, _, -, hx⟩ := bind_ok.mp hx
            obtain ⟨walk, hwalk⟩ := ih (i := i + 1) (hrest.trans hl) (by omega) hx
            refine ⟨Function.update walk i .found,
              fun {_ _ n} hw h hn => .bind (hskip h) fun o ho => ?_⟩
            obtain ⟨hq⟩ := ho
            obtain ⟨n, rfl⟩ : ∃ m, n = m + 1 := ⟨n - 1, by omega⟩
            have hgo := hwalk (n := n) (fun j hj => (hw j (by omega)).trans
              (Function.update_of_ne (by omega) _ _)) hq (by omega)
            rw [hw i le_rfl, Function.update_self]
            split_ifs with hp
            · exact .getByte (by rw [if_neg (hmore hq hp)]; exact hgo)
            · exact hgo

/-- Both models of `namex` come to the same answer. -/
theorem namex_agrees {parent : Bool} {x : Option (Fin NINODE) × List Byte} {s s' : KState}
    (h : StringAt u p l) (hl : l.length < maxTurns) (hx : Dmaos.namex l parent s = .ok x s') :
    ∃ walk, Gives (· = x.1.isSome) (namex u walk parent p) := by
  obtain ⟨ip, s₁, -, hx⟩ := bind_ok.mp hx
  obtain ⟨walk, hwalk⟩ := namexLoop_agrees (i := 0) hl (Nat.lt_add_one _) hx
  exact ⟨walk, .getByte (hwalk (fun _ _ => rfl) h (Nat.le_pred_of_lt hl))⟩

/-! ## Contents -/

variable {ip : Fin NINODE} {off m : BitVec 32} {s s' : KState}

/-- `readi` stores as many bytes in both models. -/
theorem readi_agrees {x : Int × List Byte} (hx : readi ip off.toNat m.toNat s = .ok x s') :
    ∃ unused size, ∀ {k : Situation}, k.file = .inode unused off size →
      fsRead k p m = writeBytes x.2.length p := by
  obtain ⟨_, s₁, -, hx⟩ := bind_ok.mp hx
  replace hx := inodeAt_then hx
  set I := s₁.inodeTable ip
  refine ⟨I.dinode.type = FT_UNUSED, BitVec.ofNat 32 (min I.dinode.size (2 ^ 32 - 1)), ?_⟩
  intro k hk
  simp only [fsRead, hk, BitVec.lt_def, BitVec.toNat_add, BitVec.toNat_ofNat]
  split_ifs at hx with h1 h2 h3
  · obtain ⟨rfl, -⟩ := pure_ok.mp hx
    rw [if_pos (by simpa using h1)]
    rfl
  · obtain ⟨rfl, -⟩ := pure_ok.mp hx
    rw [if_neg (by simpa using h1), if_pos (by omega)]
    rfl
  · obtain ⟨bytes, s₂, hloop, hx⟩ := bind_ok.mp hx
    obtain ⟨rfl, -⟩ := pure_ok.mp hx
    have hlen := readiLoop_length hloop le_rfl
    rw [if_neg (by simpa using h1), if_neg (by omega), if_pos (by omega)]
    congr 1
    show _ = bytes.length
    rw [hlen]
    bv_omega
  · obtain ⟨bytes, s₂, hloop, hx⟩ := bind_ok.mp hx
    obtain ⟨rfl, -⟩ := pure_ok.mp hx
    rw [if_neg (by simpa using h1), if_neg (by omega), if_neg (by omega),
      readiLoop_length hloop le_rfl]

/-- `writei` takes as many bytes in both models. -/
theorem writei_agrees {src : Buf} {w : Int} (hx : writei ip src off.toNat m.toNat s = .ok w s') :
    ∃ unused size, ∀ {k : Situation}, k.file = .inode unused off size →
      fsWrite k p m = readBytes w.toNat p := by
  obtain ⟨_, s₁, -, hx⟩ := bind_ok.mp hx
  replace hx := inodeAt_then hx
  set I := s₁.inodeTable ip
  refine ⟨false, BitVec.ofNat 32 (min I.dinode.size (2 ^ 32 - 1)), ?_⟩
  intro k hk
  simp only [fsWrite, hk, BitVec.lt_def, BitVec.toNat_add, BitVec.toNat_ofNat]
  split_ifs at hx with h1 h2
  · obtain ⟨rfl, -⟩ := pure_ok.mp hx
    rw [if_pos (by omega)]
    rfl
  · obtain ⟨rfl, -⟩ := pure_ok.mp hx
    rw [if_neg (by omega), if_pos (by omega)]
    rfl
  · have hmax : MAXFILE * BSIZE < 2 ^ 32 := by decide
    rw [if_neg (by omega), if_neg (by omega)]
    obtain ⟨_, s₂, -, hx⟩ := bind_ok.mp hx
    replace hx := inodeAt_then hx
    split_ifs at hx
    · obtain ⟨_, s₃, -, hx⟩ := bind_ok.mp hx
      obtain ⟨_, s₃, -, hx⟩ := bind_ok.mp hx
      obtain ⟨rfl, -⟩ := pure_ok.mp hx
      rfl
    · obtain ⟨rfl, -⟩ := pure_ok.mp hx
      rfl

end Dmaos.Access
