import Dmaos.System.Resolve

/-!
# Normal paths

`fs_normalize_path` joins a base and a path and takes the components `.` and
`..` out of the text.  It works in buffers of fixed size.  As long as the text
fits (`FitsBuffer`), the components of the result are those that are left of the
text's components when `..` takes back the last one (`fsNormalizePath_names`).
-/

namespace Dmaos

open Fault NamedTree

variable {base rel x text t : List Byte} {s s' : KState} {b : Byte} {st xs toks : List (List Byte)}
  {n : Nat}

/-- The text `fs_normalize_path` works on: the path, after the base if it is
relative. -/
def cwdText (base rel : List Byte) : List Byte :=
  if rel.head? = some slash then rel
  else if base ≠ [] ∧ base.getLast? ≠ some slash then base ++ slash :: rel
  else base ++ rel

/-- The components that are left when `.` is skipped and `..` takes back the last
one. -/
def lexical (xs : List (List Byte)) : List (List Byte) := reduce [] (xs.map toStep)

/-- The text fits in the buffer, and there are never more components left than
there is room for. -/
def FitsBuffer (base rel : List Byte) : Prop :=
  (cwdText base rel).length ≤ 255 ∧
    ∀ n ≤ (components (cwdText base rel)).length,
      (lexical ((components (cwdText base rel)).take n)).length ≤ 32

instance (base rel : List Byte) : Decidable (FitsBuffer base rel) := by
  unfold FitsBuffer
  infer_instance

section Text

variable {buf : List Byte}

theorem joinPath_text (h : joinPath base rel s = .ok buf s')
    (hlen : (cwdText base rel).length ≤ 255) : buf = cwdText base rel := by
  unfold joinPath at h
  unfold cwdText at hlen ⊢
  split_ifs at h with habs hbase hsep
  · obtain ⟨rfl, -⟩ := pure_ok.mp h
    rw [if_pos habs] at hlen ⊢
    exact List.take_of_length_le hlen
  · cases h
  · obtain ⟨rfl, -⟩ := pure_ok.mp h
    rw [if_neg habs, if_pos hsep] at hlen ⊢
    rw [List.length_append, List.length_cons] at hlen
    have hslash : [slash].take (MAX_PATH - base.length - 1) = [slash] :=
      List.take_of_length_le (by unfold MAX_PATH; rw [List.length_singleton]; omega)
    have hrel : rel.take (MAX_PATH - (base ++ [slash]).length - 1) = rel :=
      List.take_of_length_le (by
        unfold MAX_PATH
        rw [List.length_append, List.length_singleton]
        omega)
    unfold strncat
    rw [hslash, hrel, List.append_assoc]
    rfl
  · obtain ⟨rfl, -⟩ := pure_ok.mp h
    rw [if_neg habs, if_neg hsep] at hlen ⊢
    rw [List.length_append] at hlen
    unfold strncat
    rw [List.take_of_length_le (by unfold MAX_PATH; omega)]

/-- The components of the text. -/
theorem pathNames_cwdText (hbase : base ≠ []) :
    pathNames (cwdText base rel) =
      if rel.head? = some slash then pathNames rel else pathNames base ++ pathNames rel := by
  unfold cwdText pathNames components
  split_ifs with habs hsep
  · rfl
  · rw [List.words_append_sep base rel (by simp), List.map_append]
  · -- The base ends in a slash, which separates it from the path.
    have hlast : base.getLast? = some slash := by
      by_contra hne
      exact hsep ⟨hbase, hne⟩
    obtain ⟨front, rfl⟩ := List.getLast?_eq_some_iff.mp hlast
    rw [List.append_assoc, List.singleton_append, List.words_append_sep front rel (by simp),
      List.words_append_sep front [] (by simp), List.words_nil, List.append_nil, List.map_append]

theorem cwdText_head (hbase : base.head? = some slash) : (cwdText base rel).head? = some slash := by
  unfold cwdText
  cases base with
  | nil => cases hbase
  | cons b base =>
      split_ifs with habs hsep
      · exact habs
      · exact hbase
      · exact hbase

theorem mem_cwdText (h : b ∈ cwdText base rel) : b ∈ base ∨ b = slash ∨ b ∈ rel := by
  unfold cwdText at h
  split_ifs at h
  · exact Or.inr (Or.inr h)
  · exact (List.mem_append.mp h).imp_right List.mem_cons.mp
  · exact (List.mem_append.mp h).imp_right Or.inr

end Text

/-! ## Tokens -/

section Tokens

theorem dropWhile_slash_head (l : List Byte) : (l.dropWhile (· = slash)).head? ≠ some slash := by
  intro h
  have := List.head?_dropWhile_not (fun b => decide (b = slash)) l
  rw [h] at this
  simp at this

/-- The loop over the text goes through its components. -/
theorem tokenLoop_eq : ∀ {k : Nat} {p : List Byte} {tokens : List (List Byte)},
    p.length < k → p.head? ≠ some slash →
    tokenLoop k p tokens = (components p).foldl pushToken tokens
  | 0, p, tokens, hk, hp => by omega
  | k + 1, [], tokens, hk, hp => by simp [tokenLoop, components]
  | k + 1, b :: p, tokens, hk, hp => by
      have hb : decide (b = slash) = false := by simpa using hp
      have hcons := List.words_cons (p := fun b => decide (b = slash)) p hb
      simp only [← decide_not] at hcons
      unfold tokenLoop components
      rw [if_neg (List.cons_ne_nil b p), hcons]
      cases hrest : (b :: p).dropWhile (fun b => decide (b ≠ slash)) with
      | nil => simp
      | cons c rest =>
          have hc : decide (c = slash) = true := by
            have := List.head?_dropWhile_not (fun b => decide (b ≠ slash)) (b :: p)
            rw [hrest] at this
            simpa using this
          have hlen : rest.length < (b :: p).length := by
            have := (List.dropWhile_sublist (fun b => decide (b ≠ slash)) (l := b :: p)).length_le
            rw [hrest, List.length_cons] at this
            omega
          have hle := (List.dropWhile_sublist (fun b => decide (b = slash)) (l := rest)).length_le
          show tokenLoop k (rest.dropWhile (· = slash)) _ = _
          rw [tokenLoop_eq (by omega) (dropWhile_slash_head rest), List.foldl_cons, components,
            List.words_dropWhile, List.words_sep rest hc]

/-- A component is taken into account as a step is, if there is room. -/
theorem pushToken_eq (hx : x ≠ []) (hroom : (reduce st [toStep x]).length ≤ 32) :
    pushToken (st.map (List.take 127)) x = (reduce st [toStep x]).map (List.take 127) := by
  unfold pushToken
  unfold toStep at hroom ⊢
  split_ifs at hroom ⊢ with hdot hup hlen hfull
  · rfl
  · exact List.map_dropLast.symm
  · simp [reduce, MAX_FILENAME]
  · rw [List.length_map] at hfull
    simp only [reduce, List.length_append, List.length_singleton] at hroom
    exact absurd (by unfold MAX_PATH_DEPTH; omega) hfull
  · exact absurd (List.length_pos_of_ne_nil hx) hlen

theorem reduce_cons (st : List (List Byte)) (step : Step (List Byte))
    (sts : List (Step (List Byte))) : reduce st (step :: sts) = reduce (reduce st [step]) sts := by
  cases step <;> rfl

/-- The tokens are the components that are left, cut to 127 bytes. -/
theorem foldl_pushToken (hne : ∀ x ∈ xs, x ≠ [])
    (hroom : ∀ n ≤ xs.length, (reduce st ((xs.take n).map toStep)).length ≤ 32) :
    xs.foldl pushToken (st.map (List.take 127)) =
      (reduce st (xs.map toStep)).map (List.take 127) := by
  induction xs generalizing st with
  | nil => rfl
  | cons x xs ih =>
      rw [List.foldl_cons, pushToken_eq (hne x List.mem_cons_self) (by
        simpa using hroom 1 (by simp)), List.map_cons, reduce_cons _ _ (xs.map toStep)]
      refine ih (fun y hy => hne y (List.mem_cons_of_mem x hy)) fun n hn => ?_
      have := hroom (n + 1) (by simpa using hn)
      rwa [List.take_succ_cons, List.map_cons, reduce_cons] at this

/-- The components that are left are not longer than those there were. -/
theorem weight_reduce_le (st xs : List (List Byte)) :
    List.weight (reduce st (xs.map toStep)) ≤ List.weight st + List.weight xs := by
  induction xs generalizing st with
  | nil => exact Nat.le_add_right _ _
  | cons x xs ih =>
      rw [List.map_cons, reduce_cons, List.weight_cons]
      refine (ih _).trans ?_
      have hstep : List.weight (reduce st [toStep x]) ≤ List.weight st + (x.length + 1) := by
        unfold toStep
        split_ifs
        · exact Nat.le_add_right _ _
        · exact (List.dropLast_sublist st).weight_le.trans (Nat.le_add_right _ _)
        · simp [reduce, List.weight]
      omega

theorem weight_map_take (n : Nat) (xs : List (List Byte)) :
    List.weight (xs.map (List.take n)) ≤ List.weight xs := by
  induction xs with
  | nil => exact Nat.le_refl _
  | cons x xs ih =>
      have := List.length_take_le' n x
      rw [List.map_cons, List.weight_cons, List.weight_cons]
      omega

end Tokens

/-! ## The result -/

section Result

/-- The absolute path with some components. -/
def rooted : List (List Byte) → List Byte
  | [] => [slash]
  | toks => toks.flatMap fun t => slash :: t

theorem flatMap_length (toks : List (List Byte)) :
    (toks.flatMap fun t => slash :: t).length = List.weight toks := by
  induction toks with
  | nil => rfl
  | cons t toks ih =>
      rw [List.flatMap_cons, List.length_append, ih, List.weight_cons, List.length_cons]

/-- Later components are added after a slash. -/
theorem joinTokens_eq {i : Nat} {dst : List Byte} (hi : 0 < i)
    (hlen : dst.length + List.weight toks < n) :
    joinTokens n i toks dst = dst ++ toks.flatMap fun t => slash :: t := by
  induction toks generalizing i dst with
  | nil => simp [joinTokens]
  | cons t toks ih =>
      rw [List.weight_cons] at hlen
      have hslash : [slash].take (n - dst.length - 1) = [slash] :=
        List.take_of_length_le (by rw [List.length_singleton]; omega)
      have htok : t.take (n - (dst ++ [slash]).length - 1) = t :=
        List.take_of_length_le (by rw [List.length_append, List.length_singleton]; omega)
      unfold joinTokens strncat
      simp only [hi, true_or, if_true, hslash, htok]
      rw [ih (Nat.succ_pos i) (by simp; omega)]
      simp

theorem joinTokens_rooted (hlen : List.weight toks ≤ 255) :
    joinTokens MAX_PATH 0 toks [slash] = rooted toks := by
  cases toks with
  | nil => rfl
  | cons t toks =>
      rw [List.weight_cons] at hlen
      unfold joinTokens strncat
      simp only [List.length_singleton, Nat.lt_irrefl, or_self, if_false]
      rw [List.take_of_length_le (by unfold MAX_PATH; omega),
        joinTokens_eq (Nat.succ_pos 0) (by simp [MAX_PATH]; omega)]
      simp [rooted]

theorem rooted_head (toks : List (List Byte)) : (rooted toks).head? = some slash := by
  cases toks <;> rfl

theorem rooted_length (hn : 0 < n) (h : List.weight toks ≤ n) : (rooted toks).length ≤ n := by
  cases toks with
  | nil => exact hn
  | cons t toks =>
      rw [rooted, flatMap_length]
      · exact h
      · exact fun h => by cases h

theorem components_rooted (h : ∀ t ∈ toks, t ≠ [] ∧ slash ∉ t) :
    components (rooted toks) = toks := by
  have hflat : components (toks.flatMap fun t => slash :: t) = toks := by
    unfold components
    induction toks with
    | nil => rfl
    | cons t toks ih =>
        obtain ⟨hne, hslash⟩ := h t List.mem_cons_self
        have hword : List.words (fun b => decide (b = slash)) t = [t] :=
          List.words_single hne fun b hb => by
            simp only [decide_eq_false_iff_not]
            rintro rfl
            exact hslash hb
        have ih := ih fun u hu => h u (List.mem_cons_of_mem t hu)
        rw [List.flatMap_cons, List.cons_append, List.words_sep _ (by simp)]
        cases toks with
        | nil => simpa using hword
        | cons u toks =>
            rw [List.flatMap_cons, List.cons_append] at ih ⊢
            rw [List.words_append_sep _ _ (by simp), hword, ← List.words_sep (a := slash) _
              (by simp), ih]
            rfl
  cases toks with
  | nil => rfl
  | cons t toks => exact hflat

theorem mem_rooted (h : b ∈ rooted toks) : b = slash ∨ ∃ t ∈ toks, b ∈ t := by
  cases toks with
  | nil => exact Or.inl (List.mem_singleton.mp h)
  | cons t toks =>
      obtain ⟨u, hu, hb⟩ := List.mem_flatMap.mp h
      exact (List.mem_cons.mp hb).imp_right fun hb => ⟨u, hu, hb⟩

end Result

/-! ## `fs_normalize_path` -/

section Normalize

variable {w : List Byte}

/-- A component that is left is a component of the text, and none of `.` and `..`. -/
theorem mem_lexical (h : x ∈ lexical xs) : x ∈ xs ∧ x ≠ dot ∧ x ≠ dotdot := by
  rcases mem_reduce h with h | h
  · cases h
  · obtain ⟨y, hy, he⟩ := List.mem_map.mp h
    unfold toStep at he
    split_ifs at he with hdot hup
    cases he
    exact ⟨hy, hdot, hup⟩

/-- Cutting a component to 29 bytes makes no `.` or `..`. -/
theorem toStep_take (x : List Byte) :
    toStep (x.take (DIRSIZ - 1)) = (toStep x).map (List.take (DIRSIZ - 1)) := by
  have hcut : ∀ y : List Byte, y.length < DIRSIZ - 1 → (x.take (DIRSIZ - 1) = y ↔ x = y) := by
    intro y hy
    constructor
    · intro h
      have hlen := congrArg List.length h
      rw [List.length_take] at hlen
      rw [← h, List.take_of_length_le (by omega)]
    · rintro rfl
      exact List.take_of_length_le (by omega)
  unfold toStep
  rw [if_congr (hcut dot (by decide)) rfl (if_congr (hcut dotdot (by decide)) rfl rfl)]
  split_ifs <;> rfl

/-- The tokens are made of the bytes of the path. -/
theorem tokens_of_text (ht : t ∈ (lexical (components text)).map (List.take 127)) :
    t ≠ [] ∧ slash ∉ t ∧ ∀ b ∈ t, b ∈ text := by
  obtain ⟨x, hx, rfl⟩ := List.mem_map.mp ht
  obtain ⟨hne, hmem⟩ := List.mem_words (mem_lexical hx).1
  refine ⟨?_, fun hs => ?_, fun b hb => (hmem b (List.mem_of_mem_take hb)).2⟩
  · cases x with
    | nil => exact absurd rfl hne
    | cons b x => exact List.cons_ne_nil _ _
  · simpa using (hmem slash (List.mem_of_mem_take hs)).1

/-- The components that are left of an absolute path are not longer than the path. -/
theorem weight_lexical (hhead : text.head? = some slash) :
    List.weight (lexical (components text)) ≤ text.length := by
  refine (weight_reduce_le [] (components text)).trans ?_
  rw [show List.weight ([] : List (List Byte)) = 0 from rfl, Nat.zero_add]
  cases text with
  | nil => cases hhead
  | cons b text =>
      obtain rfl : b = slash := by simpa using hhead
      rw [components, List.words_sep _ (by simp), List.length_cons]
      exact List.weight_words_le text

theorem weight_tokens (hhead : text.head? = some slash) (hlen : text.length ≤ 255) :
    List.weight ((lexical (components text)).map (List.take 127)) ≤ 255 :=
  (weight_map_take 127 _).trans ((weight_lexical hhead).trans hlen)

/-- The components that are left, each after a slash. -/
theorem fsNormalizePath_text (h : fsNormalizePath base rel MAX_PATH s = .ok w s')
    (hfit : FitsBuffer base rel) (hhead : (cwdText base rel).head? = some slash) :
    w = rooted ((lexical (components (cwdText base rel))).map (List.take 127)) := by
  obtain ⟨buf, t, hjoin, h⟩ := bind_ok.mp h
  obtain ⟨rfl, -⟩ := pure_ok.mp h
  obtain ⟨hlen, hdeep⟩ := hfit
  obtain rfl := joinPath_text hjoin hlen
  generalize cwdText base rel = text at hlen hdeep hhead ⊢
  have htokens : tokenLoop (text.length + 1) (text.dropWhile (· = slash)) [] =
      (lexical (components text)).map (List.take 127) := by
    have hle := (List.dropWhile_sublist (fun b => decide (b = slash)) (l := text)).length_le
    rw [tokenLoop_eq (by omega) (dropWhile_slash_head text), components, List.words_dropWhile]
    have hfold := foldl_pushToken (fun x hx => (List.mem_words hx).1) hdeep
    exact hfold
  rw [htokens, joinTokens_rooted (weight_tokens hhead hlen)]

/-- The result is an absolute path, and resolves by the names that are left. -/
theorem fsNormalizePath_names (h : fsNormalizePath base rel MAX_PATH s = .ok w s')
    (hfit : FitsBuffer base rel) (hbase : base.head? = some slash) :
    w.head? = some slash ∧ w.length ≤ 255 ∧ (∀ b ∈ w, b ∈ base ∨ b = slash ∨ b ∈ rel) ∧
      (pathNames w).map toStep =
        (reduce [] ((pathNames (cwdText base rel)).map toStep)).map .down := by
  have hhead : (cwdText base rel).head? = some slash := cwdText_head hbase
  obtain rfl := fsNormalizePath_text h hfit hhead
  have hweight := weight_tokens hhead hfit.1
  generalize htext : cwdText base rel = text at hhead hweight ⊢
  refine ⟨rooted_head _, rooted_length (by decide) hweight, fun b hb => ?_, ?_⟩
  · rcases mem_rooted hb with rfl | ⟨t, ht, hb⟩
    · exact Or.inr (Or.inl rfl)
    · have := (tokens_of_text ht).2.2 b hb
      rw [← htext] at this
      exact mem_cwdText this
  · -- Cut to 127 and then to 29 bytes is cut to 29 bytes.
    have hnames : pathNames (rooted ((lexical (components text)).map (List.take 127))) =
        (lexical (components text)).map (List.take (DIRSIZ - 1)) := by
      rw [pathNames, components_rooted fun t ht => ⟨(tokens_of_text ht).1, (tokens_of_text ht).2.1⟩,
        List.map_map]
      refine List.map_congr_left fun x _ => ?_
      show (x.take 127).take (DIRSIZ - 1) = _
      rw [List.take_take]
      rfl
    have hsteps : (pathNames text).map toStep =
        ((components text).map toStep).map (Step.map (List.take (DIRSIZ - 1))) := by
      rw [pathNames, List.map_map, List.map_map]
      exact List.map_congr_left fun x _ => toStep_take x
    rw [hnames, hsteps]
    have hred := reduce_map (List.take (DIRSIZ - 1)) [] ((components text).map toStep)
    rw [List.map_nil] at hred
    rw [hred, List.map_map, List.map_map]
    refine List.map_congr_left fun x hx => ?_
    show toStep (x.take (DIRSIZ - 1)) = _
    rw [toStep_take]
    obtain ⟨-, hdot, hup⟩ := mem_lexical hx
    rw [toStep, if_neg hdot, if_neg hup]
    rfl

end Normalize

/-! ## Normal form -/

/-- The joined path fits with room to spare, none of its components is cut, and there are
never more components left than there is room for. -/
structure Normalizable (base rel : List Byte) : Prop where
  length_le : (cwdText base rel).length ≤ 254
  component_le : ∀ x ∈ components (cwdText base rel), x.length ≤ 127
  live_le : ∀ n ≤ (components (cwdText base rel)).length,
    (lexical ((components (cwdText base rel)).take n)).length ≤ 32

/-- The path is `/`, or slashes in it stand before components that are no `.` or `..`. -/
def IsNormal (w : List Byte) : Prop :=
  w = [slash] ∨ w.head? = some slash ∧ w.getLast? ≠ some slash ∧
    ∀ x ∈ w.tail.splitOnP (· = slash), x ≠ [] ∧ x ≠ dot ∧ x ≠ dotdot

section NormalForm

theorem Normalizable.fitsBuffer (h : Normalizable base rel) : FitsBuffer base rel :=
  ⟨Nat.le_succ_of_le h.length_le, h.live_le⟩

/-- The text can be put together in the buffer. -/
theorem fsNormalizePath_returns (hlen : (cwdText base rel).length ≤ 254) (s : KState) :
    ∃ w, fsNormalizePath base rel MAX_PATH s = .ok w s := by
  unfold fsNormalizePath joinPath
  unfold cwdText at hlen
  split_ifs at hlen ⊢ with habs hbase hsep hsep
  · exact ⟨_, rfl⟩
  · rw [List.length_append] at hlen
    unfold MAX_PATH at hbase
    omega
  · rw [List.length_append] at hlen
    unfold MAX_PATH at hbase
    omega
  · exact ⟨_, rfl⟩
  · exact ⟨_, rfl⟩

/-- The path is put together from the components that are left. -/
theorem Normalizable.run (h : Normalizable base rel)
    (hhead : (cwdText base rel).head? = some slash) (s : KState) :
    fsNormalizePath base rel MAX_PATH s =
      .ok (rooted (lexical (components (cwdText base rel)))) s := by
  obtain ⟨w, hx⟩ := fsNormalizePath_returns h.length_le s
  have hcut : (lexical (components (cwdText base rel))).map (List.take 127)
      = lexical (components (cwdText base rel)) := by
    conv_rhs => rw [← List.map_id (lexical _)]
    exact List.map_congr_left fun x hx =>
      List.take_of_length_le (h.component_le x (mem_lexical hx).1)
  rw [hx, fsNormalizePath_text hx h.fitsBuffer hhead, hcut]

theorem splitOnP_flatMap (h : ∀ u ∈ t :: toks, slash ∉ u) :
    (t ++ toks.flatMap fun u => slash :: u).splitOnP (· = slash) = t :: toks := by
  have hsingle : ∀ {u : List Byte}, slash ∉ u → u.splitOnP (· = slash) = [u] := by
    intro u hu
    refine List.splitOnP_eq_singleton fun b hb => ?_
    rw [decide_eq_false_iff_not]
    rintro rfl
    exact hu hb
  induction toks generalizing t with
  | nil =>
      rw [List.flatMap_nil, List.append_nil]
      exact hsingle (h t List.mem_cons_self)
  | cons u toks ih =>
      have hrest := ih fun v hv => h v (List.mem_cons_of_mem t hv)
      rw [List.flatMap_cons, List.cons_append, List.splitOnP_append_cons _ _ (by simp), hrest,
        hsingle (h t List.mem_cons_self)]
      rfl

/-- Components that are none of `.` and `..` make a normal path. -/
theorem isNormal_rooted (h : ∀ t ∈ toks, t ≠ [] ∧ slash ∉ t ∧ t ≠ dot ∧ t ≠ dotdot) :
    IsNormal (rooted toks) := by
  cases toks with
  | nil => exact .inl rfl
  | cons t toks =>
      have htail : (rooted (t :: toks)).tail = t ++ toks.flatMap fun u => slash :: u := rfl
      have hparts := splitOnP_flatMap fun u hu => (h u hu).2.1
      refine .inr ⟨rfl, fun hlast => ?_, fun x hx => ?_⟩
      · -- behind a slash at the end there would be an empty part
        obtain ⟨front, hfront⟩ := List.getLast?_eq_some_iff.mp hlast
        rw [hfront] at htail
        cases front with
        | nil => exact (h t List.mem_cons_self).1 (List.append_eq_nil_iff.mp htail.symm).1
        | cons b front =>
            have hend : front ++ [slash] = t ++ toks.flatMap fun u => slash :: u := htail
            rw [← hend, List.splitOnP_append_cons _ _ (by simp)] at hparts
            have hmem : [] ∈ t :: toks := by
              rw [← hparts]
              exact List.mem_append_right _ List.mem_cons_self
            exact (h [] hmem).1 rfl
      · rw [htail, hparts] at hx
        exact ⟨(h x hx).1, (h x hx).2.2⟩

theorem lexical_of_plain (h : ∀ x ∈ toks, x ≠ dot ∧ x ≠ dotdot) : lexical toks = toks := by
  have hdown : ∀ st : List (List Byte), reduce st (toks.map toStep) = st ++ toks := by
    induction toks with
    | nil => exact fun st => (List.append_nil st).symm
    | cons x toks ih =>
        intro st
        obtain ⟨hdot, hup⟩ := h x List.mem_cons_self
        rw [List.map_cons, toStep, if_neg hdot, if_neg hup, reduce,
          ih fun y hy => h y (List.mem_cons_of_mem x hy), List.append_assoc, List.singleton_append]
  exact hdown []

/-- A normal path is its own normal form. -/
theorem Normalizable.again (h : Normalizable base rel)
    (hhead : (cwdText base rel).head? = some slash) (base' : List Byte) :
    Normalizable base' (rooted (lexical (components (cwdText base rel)))) ∧
      lexical (components (cwdText base' (rooted (lexical (components (cwdText base rel))))))
        = lexical (components (cwdText base rel)) := by
  have hword : ∀ t ∈ lexical (components (cwdText base rel)), t ≠ [] ∧ slash ∉ t := by
    intro t ht
    obtain ⟨hne, hmem⟩ := List.mem_words (mem_lexical ht).1
    exact ⟨hne, fun hs => by simpa using (hmem slash hs).1⟩
  have htext : cwdText base' (rooted (lexical (components (cwdText base rel))))
      = rooted (lexical (components (cwdText base rel))) := if_pos (rooted_head _)
  have hplain : ∀ n, lexical ((lexical (components (cwdText base rel))).take n)
      = (lexical (components (cwdText base rel))).take n :=
    fun n => lexical_of_plain fun x hx => (mem_lexical (List.mem_of_mem_take hx)).2
  refine ⟨⟨?_, ?_, ?_⟩, ?_⟩
  · rw [htext]
    refine (rooted_length ?_ (weight_lexical hhead)).trans h.length_le
    exact List.length_pos_of_ne_nil fun hnil => by rw [hnil] at hhead; cases hhead
  · rw [htext, components_rooted hword]
    exact fun x hx => h.component_le x (mem_lexical hx).1
  · rw [htext, components_rooted hword]
    intro n _
    have hall := h.live_le _ le_rfl
    rw [List.take_length] at hall
    rw [hplain, List.length_take]
    omega
  · rw [htext, components_rooted hword]
    exact lexical_of_plain fun x hx => (mem_lexical hx).2

/-- What `fs_normalize_path` does: the components that are left when those of the joined
path are read from left to right, each after a slash.  The result is normal, and it is
its own normal form. -/
theorem fsNormalizePath_lexical (h : Normalizable base rel) (hbase : base.head? = some slash)
    (s : KState) :
    fsNormalizePath base rel MAX_PATH s =
        .ok (rooted (lexical (components (cwdText base rel)))) s ∧
      IsNormal (rooted (lexical (components (cwdText base rel)))) ∧
      ∀ base', fsNormalizePath base' (rooted (lexical (components (cwdText base rel)))) MAX_PATH s =
        .ok (rooted (lexical (components (cwdText base rel)))) s := by
  have hhead : (cwdText base rel).head? = some slash := cwdText_head hbase
  refine ⟨h.run hhead s, isNormal_rooted fun t ht => ?_, fun base' => ?_⟩
  · obtain ⟨hmem, hdot, hup⟩ := mem_lexical ht
    obtain ⟨hne, hsep⟩ := List.mem_words hmem
    exact ⟨hne, fun hs => by simpa using (hsep slash hs).1, hdot, hup⟩
  · obtain ⟨hagain, hsame⟩ := h.again hhead base'
    rw [hagain.run ?_ s, hsame]
    rw [cwdText, if_pos (rooted_head _)]
    exact rooted_head _

end NormalForm

/-- `../b/./c//` in `/a` is `/b/c`. -/
theorem fsNormalizePath_lexical_up :
    fsNormalizePath [slash, 0x61] [0x2e, 0x2e, slash, 0x62, slash, 0x2e, slash, 0x63, slash, slash]
      MAX_PATH (coldState (formatted []) (formatted []))
      = .ok [slash, 0x62, slash, 0x63] (coldState (formatted []) (formatted [])) :=
  (fsNormalizePath_lexical ⟨by decide, by decide, by decide⟩ rfl _).1

end Dmaos
