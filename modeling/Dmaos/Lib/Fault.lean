import Mathlib.Tactic.Common
import Mathlib.Tactic.SplitIfs
import Mathlib.Order.Defs.Unbundled

/-!
# Computations that change a state and may stop

`EStateM ε σ` runs from a state to either a value and a new state, or an error
and the state in which the computation stopped.  Two questions are asked of
such a computation.

*Inversion.*  What is known when `x s = .ok a s'`?  The lemmas `bind_ok`,
`pure_ok` and so on peel a sequence of computations apart one step at a time,
so a proof about a composite only names the specifications of its parts.

*Stability.*  Does a property `J` of states hold wherever the computation
ends, in a value or in an error?  `Stays J x s` says so.  Its rule for a
sequence (`Stays.bind`) uses what inversion says about the first part.

*Effects and errors.*  How far can a computation change the state, and with
which errors can it stop?  `Confined R E x` bounds the change by a preorder `R`,
wherever `x` ends, and the errors, with the states it stops in, by `E`.  It composes without
looking at values, so it follows from the shape of a program.

*Total correctness.*  `Stops E x s` says that if `x` stops when it starts in
`s`, then `E` holds of the error and the state; so `Stops (fun _ _ => False)`
says that it returns.  `Ends Q E x s` adds that `Q` holds where it returns.

*Two runs.*  `Mimics R x y s t` compares a run of `x` from `s` with one of `y`
from `t`: where the first returns, the second returns the same value, and the
states they end in are related by `R`.
-/

namespace Fault

variable {ε σ α β : Type} {x : EStateM ε σ α} {f : α → EStateM ε σ β}

/-! ## Inversion -/

section Inversion

variable {s s' : σ}

theorem bind_ok {b : β} : (x >>= f) s = .ok b s' ↔ ∃ a t, x s = .ok a t ∧ f a t = .ok b s' := by
  show EStateM.bind x f s = _ ↔ _
  unfold EStateM.bind
  cases hx : x s with
  | ok a t =>
      constructor
      · intro h
        exact ⟨a, t, rfl, h⟩
      · rintro ⟨a', t', h, hf⟩
        cases h
        exact hf
  | error e t =>
      constructor
      · intro h; cases h
      · rintro ⟨_, _, h, _⟩; cases h

theorem pure_ok {a b : α} : (pure a : EStateM ε σ α) s = .ok b s' ↔ a = b ∧ s = s' := by
  show EStateM.Result.ok a s = .ok b s' ↔ _
  simp

theorem throw_ok {e : ε} {b : α} : ¬ (throw e : EStateM ε σ α) s = .ok b s' := by
  intro h
  cases h

theorem get_ok {t : σ} : (get : EStateM ε σ σ) s = .ok t s' ↔ s = t ∧ s = s' := by
  show EStateM.Result.ok s s = .ok t s' ↔ _
  constructor
  · intro h; cases h; exact ⟨rfl, rfl⟩
  · rintro ⟨rfl, rfl⟩; rfl

theorem modify_ok {f : σ → σ} {u : PUnit} :
    (modify f : EStateM ε σ PUnit) s = .ok u s' ↔ s' = f s := by
  show EStateM.Result.ok PUnit.unit (f s) = .ok u s' ↔ _
  constructor
  · intro h; cases h; rfl
  · rintro rfl; rfl

end Inversion

/-! ## Running a sequence -/

section Running

variable {s : σ}

theorem run_bind {a : α} {t : σ} (h : x s = .ok a t) : (x >>= f) s = f a t := by
  show EStateM.bind x f s = _
  unfold EStateM.bind
  rw [h]

theorem run_bind_error {e : ε} {t : σ} (h : x s = .error e t) : (x >>= f) s = .error e t := by
  show EStateM.bind x f s = _
  unfold EStateM.bind
  rw [h]

theorem get_then {f : σ → EStateM ε σ α} {r : EStateM.Result ε σ α} (h : (get >>= f) s = r) :
    f s s = r := h

theorem modify_then {g : σ → σ} {f : PUnit → EStateM ε σ α} {r : EStateM.Result ε σ α}
    (h : (modify g >>= f) s = r) : f ⟨⟩ (g s) = r := h

end Running

/-! ## Stability -/

/-- The state in which a computation ended. -/
def final : EStateM.Result ε σ α → σ
  | .ok _ s => s
  | .error _ s => s

/-- Did the computation return? -/
def returned : EStateM.Result ε σ α → Bool
  | .ok _ _ => true
  | .error _ _ => false

theorem exists_ok {r : EStateM.Result ε σ α} (h : returned r = true) : ∃ a s, r = .ok a s := by
  cases r with
  | ok a s => exact ⟨a, s, rfl⟩
  | error e s => cases h

/-- The value of a computation that returned. -/
def value : EStateM.Result ε σ α → Option α
  | .ok a _ => some a
  | .error _ _ => none

theorem ok_of_value {r : EStateM.Result ε σ α} {a : α} (h : value r = some a) :
    ∃ s, r = .ok a s := by
  cases r with
  | ok b s =>
      cases h
      exact ⟨s, rfl⟩
  | error e s => cases h

/-- The computation returns from `s`, and `Q` holds of its value and the state after it. -/
def yields (x : EStateM ε σ α) (Q : α → σ → Bool) (s : σ) : Bool :=
  match x s with
  | .ok a t => Q a t
  | .error _ _ => false

theorem exists_ok_of_yields {Q : α → σ → Bool} {s : σ}
    (h : yields x Q s = true) : ∃ a t, x s = .ok a t ∧ Q a t = true := by
  unfold yields at h
  cases hx : x s with
  | ok a t =>
      rw [hx] at h
      exact ⟨a, t, rfl, h⟩
  | error e t =>
      rw [hx] at h
      cases h

/-- `J` holds where `x` ends when it starts in `s`, whether it returns or stops. -/
def Stays (J : σ → Prop) (x : EStateM ε σ α) (s : σ) : Prop := J (final (x s))

section Stability

variable {J : σ → Prop} {s : σ}

theorem Stays.of_ok {a : α} {t : σ} (h : Stays J x s) (hx : x s = .ok a t) : J t := by
  unfold Stays at h
  rw [hx] at h
  exact h

theorem Stays.bind (hx : Stays J x s)
    (hf : ∀ a t, x s = .ok a t → J t → Stays J (f a) t) : Stays J (x >>= f) s := by
  unfold Stays at hx ⊢
  cases h : x s with
  | ok a t =>
      rw [run_bind h]
      rw [h] at hx
      exact hf a t h hx
  | error e t =>
      rw [run_bind_error h]
      rw [h] at hx
      exact hx

theorem Stays.modify {f : σ → σ} (h : J (f s)) :
    Stays J (modify f : EStateM ε σ PUnit) s := h

end Stability

/-! ## Effects and errors -/

/-- Wherever `x` ends, the state has changed by `R` at most, and an error `x` stops
with satisfies `E`. -/
structure Confined (R : σ → σ → Prop) (E : ε → σ → Prop) (x : EStateM ε σ α) : Prop where
  effect : ∀ s, R s (final (x s))
  raises : ∀ {s t : σ} {e : ε}, x s = .error e t → E e t

/-- Wherever `x` ends, the state has changed by `R` at most. -/
abbrev Within (R : σ → σ → Prop) (x : EStateM ε σ α) : Prop := Confined R (fun _ _ => True) x

theorem Within.intro {R : σ → σ → Prop} (h : ∀ s, R s (final (x s))) : Within R x :=
  ⟨h, fun _ => trivial⟩

namespace Confined

variable {R : σ → σ → Prop} {E : ε → σ → Prop} {s s' : σ}

theorem of_ok {a : α} (h : Confined R E x) (hx : x s = .ok a s') : R s s' := by
  have := h.effect s
  rwa [hx] at this

theorem mono {R' : σ → σ → Prop} (h : Confined R E x)
    (hR : ∀ {s t}, R s t → R' s t) : Confined R' E x :=
  ⟨fun s => hR (h.effect s), h.raises⟩

theorem modify {f : σ → σ} (h : ∀ s, R s (f s)) : Confined R E (modify f : EStateM ε σ PUnit) :=
  ⟨h, fun hx => by cases hx⟩

theorem ite {c : Prop} [Decidable c] {x y : EStateM ε σ α} (hx : Confined R E x)
    (hy : Confined R E y) : Confined R E (if c then x else y) := by
  split_ifs
  · exact hx
  · exact hy

variable [IsPreorder σ R]

theorem pure {a : α} : Confined R E (pure a : EStateM ε σ α) :=
  ⟨fun s => refl_of R s, fun hx => by cases hx⟩

theorem throw {e : ε} (h : ∀ {s}, E e s) : Confined R E (throw e : EStateM ε σ α) :=
  ⟨fun s => refl_of R s, fun hx => by cases hx; exact h⟩

theorem get : Confined R E (get : EStateM ε σ σ) :=
  ⟨fun s => refl_of R s, fun hx => by cases hx⟩

theorem bind (hx : Confined R E x) (hf : ∀ a, Confined R E (f a)) : Confined R E (x >>= f) where
  effect s := Stays.bind (J := R s) (hx.effect s) fun a t _ ht =>
    trans_of R ht ((hf a).effect t)
  raises := by
    intro s t e h
    cases hs : x s with
    | ok a t' =>
        rw [run_bind hs] at h
        exact (hf a).raises h
    | error e' t' =>
        rw [run_bind_error hs] at h
        cases h
        exact hx.raises hs

end Confined

/-! ## Total correctness -/

/-- If `x` stops when it starts in `s`, then `E` holds there. -/
def Stops (E : ε → σ → Prop) (x : EStateM ε σ α) (s : σ) : Prop := ∀ e t, x s = .error e t → E e t

/-- `x` returns when it starts in `s`. -/
abbrev Returns (x : EStateM ε σ α) (s : σ) : Prop := Stops (fun _ _ => False) x s

section Stops

variable {E : ε → σ → Prop} {s : σ}

theorem Stops.of_ok {a : α} {t : σ} (h : x s = .ok a t) : Stops E x s := by
  intro e t' he
  rw [h] at he
  cases he

theorem Stops.pure {a : α} : Stops E (pure a : EStateM ε σ α) s := .of_ok rfl

theorem Stops.modify (f : σ → σ) : Stops E (modify f : EStateM ε σ PUnit) s := .of_ok rfl

theorem Stops.bind (hx : Stops E x s)
    (hf : ∀ a t, x s = .ok a t → Stops E (f a) t) : Stops E (x >>= f) s := by
  intro e t he
  cases h : x s with
  | ok a t' =>
      rw [run_bind h] at he
      exact hf a t' h e t he
  | error e' t' =>
      rw [run_bind_error h] at he
      cases he
      exact hx e t h

theorem Stops.get {f : σ → EStateM ε σ α} (h : Stops E (f s) s) : Stops E (get >>= f) s := h

theorem Confined.stops {R : σ → σ → Prop} (h : Confined R E x) :
    Stops E x s := fun _ _ hx => h.raises hx

theorem Returns.stops (h : Returns x s) : Stops E x s :=
  fun e t he => (h e t he).elim

theorem Returns.exists_ok (h : Returns x s) : ∃ a t, x s = .ok a t := by
  cases hx : x s with
  | ok a t => exact ⟨a, t, rfl⟩
  | error e t => exact (h e t hx).elim

end Stops

/-- `Q` holds of the value and the state where `x` returns, `E` of the error
and the state where it stops. -/
structure Ends (Q : α → σ → Prop) (E : ε → σ → Prop) (x : EStateM ε σ α) (s : σ) : Prop where
  ok : ∀ {a : α} {t : σ}, x s = .ok a t → Q a t
  stops : Stops E x s

namespace Ends

variable {Q : α → σ → Prop} {R : β → σ → Prop} {E : ε → σ → Prop} {s : σ}

theorem pure {a : α} (h : Q a s) : Ends Q E (pure a : EStateM ε σ α) s where
  ok hx := by
    obtain ⟨rfl, rfl⟩ := pure_ok.mp hx
    exact h
  stops := .pure

theorem bind (hx : Ends Q E x s)
    (hf : ∀ a t, x s = .ok a t → Q a t → Ends R E (f a) t) : Ends R E (x >>= f) s where
  ok h := by
    obtain ⟨a, t, ha, h⟩ := bind_ok.mp h
    exact (hf a t ha (hx.ok ha)).ok h
  stops := hx.stops.bind fun a t ha => (hf a t ha (hx.ok ha)).stops

/-- The first part is known to return. -/
theorem run {a : α} {t : σ} (hx : x s = .ok a t)
    (hf : Ends R E (f a) t) : Ends R E (x >>= f) s where
  ok h := by
    rw [run_bind hx] at h
    exact hf.ok h
  stops e t' h := by
    rw [run_bind hx] at h
    exact hf.stops e t' h

theorem mono {Q' : α → σ → Prop} (h : Ends Q E x s) (hQ : ∀ a t, Q a t → Q' a t) : Ends Q' E x s :=
  ⟨fun hx => hQ _ _ (h.ok hx), h.stops⟩

/-- What is known of the value from elsewhere is added. -/
theorem also {Q' : α → σ → Prop} (h : Ends Q E x s)
    (hQ : ∀ {a : α} {t : σ}, x s = .ok a t → Q' a t) : Ends (fun a t => Q a t ∧ Q' a t) E x s :=
  ⟨fun hx => ⟨h.ok hx, hQ hx⟩, h.stops⟩

end Ends

/-! ## Two runs -/

/-- Where `x` returns from `s`, `y` returns the same from `t`, and the states are
related by `R`. -/
def Mimics (R : σ → σ → Prop) (x y : EStateM ε σ α) (s t : σ) : Prop :=
  ∀ a s', x s = .ok a s' → ∃ t', y t = .ok a t' ∧ R s' t'

namespace Mimics

variable {R R' : σ → σ → Prop} {s t : σ}

theorem pure {a : α} (h : R s t) : Mimics R (pure a : EStateM ε σ α) (pure a) s t := by
  intro b s' hx
  obtain ⟨rfl, rfl⟩ := pure_ok.mp hx
  exact ⟨t, rfl, h⟩

theorem bind {x y : EStateM ε σ α} {f g : α → EStateM ε σ β} (hx : Mimics R x y s t)
    (hf : ∀ a s' t', x s = .ok a s' → R s' t' → Mimics R' (f a) (g a) s' t') :
    Mimics R' (x >>= f) (y >>= g) s t := by
  intro b s' hb
  obtain ⟨a, s₁, ha, hb⟩ := bind_ok.mp hb
  obtain ⟨t₁, ha', h₁⟩ := hx a s₁ ha
  obtain ⟨t', hb', h'⟩ := hf a s₁ t₁ ha h₁ b s' hb
  exact ⟨t', bind_ok.mpr ⟨a, t₁, ha', hb'⟩, h'⟩

/-- The first parts return values that need not be the same. -/
theorem after {x y : EStateM ε σ α} {f g : α → EStateM ε σ β} {a b : α} {s' t' : σ}
    (hx : x s = .ok a s') (hy : y t = .ok b t') (h : Mimics R (f a) (g b) s' t') :
    Mimics R (x >>= f) (y >>= g) s t := by
  intro c s₁ hc
  rw [run_bind hx] at hc
  rw [run_bind hy]
  exact h c s₁ hc

theorem ite {c : Prop} [Decidable c] {x x' y y' : EStateM ε σ α} (hx : c → Mimics R x x' s t)
    (hy : ¬ c → Mimics R y y' s t) : Mimics R (if c then x else y) (if c then x' else y') s t := by
  split_ifs with h
  · exact hx h
  · exact hy h

end Mimics

end Fault
