import Dmaos.Memory.Create
import Dmaos.Memory.Framebuffer
import Dmaos.User.Shell

/-!
# The arguments of a program

`create_process` stores the arguments in the last page of the image, from the end
of the program downwards: the strings, and below them the array of pointers.  The
room there is depends on the size of the program; nothing compares it with what is
needed (`ArgsFit`).  If the room is too small the kernel goes on storing below the
page, in whatever memory is there.
-/

namespace Dmaos

open Fault Machine

variable {m : Mem} {size top sp last k r j : Nat} {args argv : List (List Byte)} {R : Ram}
  {own : Roles} {p : Fin PROCS_MAX}

/-! ## Strings -/

section Strings

/-- The strings one after the other, each with its NUL. -/
def flatArgs (args : List (List Byte)) : List Byte := args.flatMap (· ++ [0])

theorem flatArgs_cons (arg : List Byte) (args : List (List Byte)) :
    flatArgs (arg :: args) = (arg ++ [0]) ++ flatArgs args := rfl

theorem length_flatArgs (args : List (List Byte)) : (flatArgs args).length = args.weight := by
  induction args with
  | nil => rfl
  | cons arg args ih =>
      rw [flatArgs_cons, List.length_append, ih, List.weight_cons]
      simp

/-- The addresses of the strings, as the program sees them. -/
def pointers (size top : Nat) : List (List Byte) → Nat → List Nat
  | [], _ => []
  | arg :: args, sp =>
    (USER_BASE + size - (top - (sp - List.weight (arg :: args)))) :: pointers size top args sp

@[simp] theorem length_pointers (args : List (List Byte)) :
    (pointers size top args sp).length = args.length := by
  induction args with
  | nil => rfl
  | cons arg args ih => simp [pointers, ih]

/-- Bytes are stored below others. -/
theorem copy_below (b : Buf) (off : Nat) (l l' : List Byte) :
    (b.copy (off + l.length) (Buf.ofList l') l'.length).copy off (Buf.ofList l) l.length
      = b.copy off (Buf.ofList (l ++ l')) (l ++ l').length := by
  funext i
  simp only [Buf.copy, Buf.ofList, List.getD_eq_getElem?_getD, List.length_append]
  split_ifs with h1 h2 h3 h4
  · rw [List.getElem?_append_left (by omega)]
  · omega
  · rw [List.getElem?_append_right (by omega), Nat.sub_sub]
  · omega
  · omega
  · rfl

/-- The loop over the strings stores them all, and returns where they start. -/
theorem pushStrings_eq (h : args.weight ≤ sp) :
    pushStrings size top args sp m = .ok (sp - args.weight, pointers size top args sp)
      { m with ram := m.ram.copy (sp - args.weight) (Buf.ofList (flatArgs args)) args.weight } := by
  induction args with
  | nil =>
      have hnone : m.ram.copy sp (Buf.ofList (flatArgs [])) 0 = m.ram := by
        funext i
        exact Buf.copy_of_not_mem (by omega)
      simp only [List.weight, List.map_nil, List.sum_nil, Nat.sub_zero, hnone]
      rfl
  | cons arg args ih =>
      rw [List.weight_cons] at h
      have hstart : sp - List.weight (arg :: args) + (arg ++ [(0 : Byte)]).length
          = sp - args.weight := by
        rw [List.weight_cons, List.length_append, List.length_singleton]
        omega
      have hsp : sp - args.weight - (arg.length + 1) = sp - List.weight (arg :: args) := by
        rw [List.weight_cons]
        omega
      rw [pushStrings, run_bind (ih (by omega))]
      simp only [hsp, storeBytes, bind, EStateM.bind, pure, EStateM.pure]
      rw [← hstart, ← length_flatArgs args, copy_below, ← flatArgs_cons, length_flatArgs]
      rfl

end Strings

/-! ## Words -/

/-- Words are stored one after the other, and nothing else. -/
theorem storeWords_ok (addr : Nat) (ws : List Nat) (m : Mem) :
    ∃ b, storeWords addr ws m = .ok () { m with ram := b } ∧
      (∀ a, a < addr ∨ addr + 4 * ws.length ≤ a → b a = m.ram a) ∧
      ∀ i (h : i < ws.length), b.le32 (addr + 4 * i) = ws[i] % 2 ^ 32 := by
  induction ws generalizing addr m with
  | nil => exact ⟨m.ram, rfl, fun _ _ => rfl, fun i h => absurd h (Nat.not_lt_zero i)⟩
  | cons w ws ih =>
      have hstore : store addr w m = .ok () { m with ram := m.ram.put32 addr w } := rfl
      obtain ⟨b, hrun, hother, hword⟩ := ih (addr + 4) { m with ram := m.ram.put32 addr w }
      refine ⟨b, ?_, fun a ha => ?_, fun i hi => ?_⟩
      · rw [storeWords, run_bind hstore]
        exact hrun
      · rw [List.length_cons] at ha
        rw [hother a (by omega)]
        exact Buf.put32_of_not_mem (by omega)
      · cases i with
        | zero =>
            have hfirst : b.le32 addr = (m.ram.put32 addr w).le32 addr :=
              Buf.le32_congr fun k hk => hother _ (by omega)
            rw [Nat.mul_zero, Nat.add_zero, hfirst, Buf.le32_put32, List.getElem_cons_zero]
        | succ i =>
            rw [List.getElem_cons_succ, ← hword i (Nat.lt_of_succ_lt_succ hi)]
            exact congrArg b.le32 (by omega)

/-! ## The argument area -/

/-- Where the argument area begins, in kernel addresses. -/
def argsStart (last size : Nat) (argv : List (List Byte)) : Nat :=
  (last + stackTop size - argv.weight) / 16 * 16 - (argv.length + 1) * 4

/-- The strings and the pointers to them fit in the last page, below the end of the
program. -/
def ArgsFit (size : Nat) (argv : List (List Byte)) : Prop :=
  argv.weight ≤ stackTop size ∧ (argv.length + 1) * 4 ≤ (stackTop size - argv.weight) / 16 * 16

instance (size : Nat) (argv : List (List Byte)) : Decidable (ArgsFit size argv) :=
  inferInstanceAs (Decidable (_ ∧ _))

section Area

theorem stackTop_le (size : Nat) : stackTop size ≤ PAGE_SIZE := by
  rw [stackTop]
  split_ifs with h
  · decide
  · simp only [PAGE_SIZE] at *
    omega

/-- The arguments fit if their area begins in the last page. -/
theorem argsFit_iff (hlast : last % PAGE_SIZE = 0)
    (hroom : argv.weight + (argv.length + 1) * 4 + 16 ≤ last) :
    ArgsFit size argv ↔ last ≤ argsStart last size argv := by
  simp only [ArgsFit, argsStart, PAGE_SIZE] at *
  omega

theorem ArgsFit.le_start (h : ArgsFit size argv) (hlast : last % PAGE_SIZE = 0) :
    last ≤ argsStart last size argv := by
  obtain ⟨h1, h2⟩ := h
  simp only [argsStart, PAGE_SIZE] at *
  omega

/-- What `create_process` stores: the strings, and then the pointers. -/
theorem copyArguments_ok (m : Mem) (hroom : argv.weight ≤ last + stackTop size) :
    ∃ b, copyArguments last size argv m
        = .ok (USER_BASE + size - (last + stackTop size - argsStart last size argv))
          { m with ram := b } ∧
      (∀ a, a < argsStart last size argv ∨ argsStart last size argv + 4 * (argv.length + 1) ≤ a →
        b a = m.ram.copy (last + stackTop size - argv.weight) (Buf.ofList (flatArgs argv))
          argv.weight a) ∧
      ∀ i
        (h : i < (pointers size (last + stackTop size) argv (last + stackTop size) ++ [0]).length),
        b.le32 (argsStart last size argv + 4 * i)
          = (pointers size (last + stackTop size) argv (last + stackTop size) ++ [0])[i]
            % 2 ^ 32 := by
  obtain ⟨b, hrun, hother, hword⟩ := storeWords_ok (argsStart last size argv)
    (pointers size (last + stackTop size) argv (last + stackTop size) ++ [0])
    { m with ram := (m.ram.copy (last + stackTop size - argv.weight) (Buf.ofList (flatArgs argv))
      argv.weight) }
  refine ⟨b, ?_, fun a ha => hother a ?_, hword⟩
  · rw [copyArguments, run_bind (pushStrings_eq hroom)]
    exact run_bind hrun
  · rwa [List.length_append, length_pointers, List.length_singleton]

/-- Arguments that fit are stored in the last page. -/
theorem ArgsFit.confined (h : ArgsFit size argv) : Confined copyArguments size argv := by
  intro last sp m m' hlast hrun
  have hstart := h.le_start hlast
  have htop := stackTop_le size
  obtain ⟨hw, hp⟩ := h
  have hroom : argv.weight ≤ last + stackTop size := by omega
  obtain ⟨b, hok, hother, -⟩ := copyArguments_ok m hroom
  rw [hok] at hrun
  obtain ⟨-, rfl⟩ := EStateM.Result.ok.inj hrun
  refine ⟨rfl, fun a ha => ?_⟩
  have hend : argsStart last size argv + 4 * (argv.length + 1) ≤ last + stackTop size := by
    simp only [argsStart, PAGE_SIZE] at *
    omega
  show b a = m.ram a
  rw [hother a (by omega)]
  exact Buf.copy_of_not_mem (by omega)

/-- If the arguments do not fit, some byte below the last page is stored. -/
theorem not_confined_below (hlast : last % PAGE_SIZE = 0)
    (hroom : argv.weight + (argv.length + 1) * 4 + 16 ≤ last) (h : ¬ ArgsFit size argv) :
    ∃ m sp m', copyArguments last size argv m = .ok sp m' ∧ ∃ a < last, m'.ram a ≠ m.ram a := by
  have hbelow : argsStart last size argv < last :=
    Nat.lt_of_not_le fun hle => h ((argsFit_iff hlast hroom).mpr hle)
  have hlen :
      0 < (pointers size (last + stackTop size) argv (last + stackTop size) ++ [0]).length := by
    simp
  -- a memory in which the first byte of the area is another one
  generalize hw : (pointers size (last + stackTop size) argv (last + stackTop size) ++ [0])[0] = w
  have hroom' : argv.weight ≤ last + stackTop size := by omega
  obtain ⟨b, hok, -, hword⟩ := copyArguments_ok
    ⟨fun _ => if w % 256 = 0 then 1 else 0, fun _ => false⟩ hroom'
  refine ⟨_, _, _, hok, argsStart last size argv, hbelow, fun hsame => ?_⟩
  have hfirst : b.le32 (argsStart last size argv) = w % 2 ^ 32 := by
    rw [← hw]
    exact hword 0 hlen
  have hbyte : (b (argsStart last size argv)).toNat = w % 256 := by
    have hlt := (b (argsStart last size argv)).isLt
    simp only [Buf.le32, Buf.le16] at hfirst
    omega
  have hsame' : b (argsStart last size argv) = if w % 256 = 0 then 1 else 0 := hsame
  rw [hsame'] at hbyte
  split_ifs at hbyte with hzero
  · rw [hzero] at hbyte
    cases hbyte
  · exact hzero hbyte.symm

end Area

/-! ## What the program reads -/

/-- A string in the memory of a program: its bytes, none of which is NUL, and a NUL. -/
structure CStringAt (b : Buf) (t1 va : Nat) (l : List Byte) : Prop where
  nul : 0 ∉ l
  bytes : ∀ i (h : i < l.length), userByte b t1 (va + i) = l[i]
  terminator : userByte b t1 (va + l.length) = 0

/-- An argument vector in the memory of a program: pointers to the strings, and a
`NULL`. -/
structure ArgvAt (b : Buf) (t1 va : Nat) (argv : List (List Byte)) : Prop where
  strings : ∀ j (h : j < argv.length), CStringAt b t1 (userWord b t1 (va + 4 * j)) argv[j]
  null : userWord b t1 (va + 4 * argv.length) = 0

section Reading

variable {n o : Nat}

theorem Pages.userByte_eq (h : Pages R m own) (hr : own r = .root p) (hk : own k = .user p n)
    (ho : o < PAGE_SIZE) :
    userByte m.ram (R.page r) (n * PAGE_SIZE + o) = m.ram (R.page k + o) := by
  obtain ⟨i, flags, hi, hf, h1, h0⟩ := h.entries hr hk
  have hn := (h.user_table hk).1
  have hi' : i < NUM_PAGES := h.lt (by simp [hi])
  have hk' : k < NUM_PAGES := h.lt (by simp [hk])
  have hv1 : vpn1 (n * PAGE_SIZE + o) = n / 1024 := by
    simp only [vpn1, PAGE_SIZE] at *
    omega
  have hv0 : vpn0 (n * PAGE_SIZE + o) = n % 1024 := by
    simp only [vpn0, PAGE_SIZE] at *
    omega
  have hmod : (n * PAGE_SIZE + o) % PAGE_SIZE = o := by
    simp only [PAGE_SIZE] at *
    omega
  rw [userByte, entry0, entry1, hv1, hv0, h1, pteAddr_pte (Ram.page_lt_word hi') (R.page_mod i)
    (by decide), h0, pteAddr_pte (Ram.page_lt_word hk') (R.page_mod k) hf.lt, hmod]

theorem Pages.userWord_eq (h : Pages R m own) (hr : own r = .root p) (hk : own k = .user p n)
    (ho : o + 4 ≤ PAGE_SIZE) :
    userWord m.ram (R.page r) (n * PAGE_SIZE + o) = m.ram.le32 (R.page k + o) := by
  have hn := (h.user_table hk).1
  have hdrop : m.ram.le32 (R.page k + o) = (m.ram.drop (R.page k + o)).le32 0 := rfl
  rw [hdrop, userWord]
  refine Buf.le32_congr fun i hi => ?_
  have hlt : n * PAGE_SIZE + o + (0 + i) < 2 ^ 32 := by
    simp only [PAGE_SIZE] at *
    omega
  rw [Nat.mod_eq_of_lt hlt, Nat.add_assoc, h.userByte_eq hr hk (by omega), Buf.drop, Nat.add_assoc]

end Reading

section Layout

/-- The end of the image, in its last page. -/
theorem image_end (hsize : 0 < size) :
    USER_BASE + size = (0x1000 + (pagesUpTo size - 1)) * PAGE_SIZE + stackTop size := by
  rw [stackTop]
  split_ifs with h
  · simp only [USER_BASE, pagesUpTo, PAGE_SIZE] at *
    omega
  · simp only [USER_BASE, pagesUpTo, PAGE_SIZE] at *
    omega

theorem getElem_pointers (h : j < (pointers size top args sp).length) :
    (pointers size top args sp)[j] = USER_BASE + size - (top - (sp - (args.drop j).weight)) := by
  induction args generalizing j with
  | nil => simp [pointers] at h
  | cons arg args ih =>
      cases j with
      | zero => rfl
      | succ j =>
          simp only [pointers, List.getElem_cons_succ, List.drop_succ_cons]
          exact ih _

theorem weight_take_add_drop (args : List (List Byte)) (j : Nat) :
    (args.take j).weight + (args.drop j).weight = args.weight := by
  rw [← List.weight_append, List.take_append_drop]

/-- The bytes of a string, among the others. -/
theorem flatArgs_at (h : j < args.length) (i : Nat) (hi : i < args[j].length + 1) :
    (flatArgs args)[(args.take j).weight + i]? = (args[j] ++ [0])[i]? := by
  induction args generalizing j with
  | nil => simp at h
  | cons arg args ih =>
      cases j with
      | zero =>
          rw [List.getElem_cons_zero] at hi
          have hzero : (List.take 0 (arg :: args)).weight + i = i := by simp [List.weight]
          rw [List.getElem_cons_zero, flatArgs_cons, hzero,
            List.getElem?_append_left (by simpa using hi)]
      | succ j =>
          have hlen : (arg ++ [(0 : Byte)]).length = arg.length + 1 := by simp
          rw [List.getElem_cons_succ] at hi ⊢
          rw [List.take_succ_cons, List.weight_cons, flatArgs_cons, Nat.add_assoc,
            List.getElem?_append_right (by omega), hlen, Nat.add_sub_cancel_left]
          exact ih (Nat.lt_of_succ_lt_succ h) hi

end Layout

section Passed

variable {m' : Mem}

/-- An address of the last page below the end of the program, as the program sees it. -/
theorem image_address {a : Nat} (hsize : 0 < size) (h1 : last ≤ a) (h2 : a ≤ last + stackTop size) :
    USER_BASE + size - (last + stackTop size - a)
      = (0x1000 + (pagesUpTo size - 1)) * PAGE_SIZE + (a - last) := by
  rw [image_end hsize]
  omega

/-- Where a string is stored, there is room for it. -/
theorem weight_drop_eq (h : j < argv.length) :
    (argv.drop j).weight = argv[j].length + 1 + (argv.drop (j + 1)).weight := by
  rw [List.drop_eq_getElem_cons h, List.weight_cons]

/-- Arguments that fit are read back by the program. -/
theorem ArgsFit.argvAt (hfit : ArgsFit size argv) (hsize : 0 < size) (hnul : ∀ w ∈ argv, 0 ∉ w)
    (h : Pages R m' own) (hr : own r = .root p)
    (hk : own k = .user p (0x1000 + (pagesUpTo size - 1)))
    (hrun : copyArguments (R.page k) size argv m = .ok sp m') :
    ArgvAt m'.ram (R.page r) sp argv := by
  have hmod := R.page_mod k
  have hstart := hfit.le_start hmod
  have htop := stackTop_le size
  have hn := (h.user_table hk).1
  obtain ⟨hw, hp⟩ := hfit
  have hend : argsStart (R.page k) size argv + 4 * (argv.length + 1)
      ≤ R.page k + stackTop size - argv.weight := by
    simp only [argsStart, PAGE_SIZE] at *
    omega
  have hroom : argv.weight ≤ R.page k + stackTop size := by omega
  obtain ⟨b, hok, hother, hword⟩ := copyArguments_ok m hroom
  rw [hok] at hrun
  obtain ⟨rfl, rfl⟩ := EStateM.Result.ok.inj hrun
  rw [image_address hsize hstart (by omega)]
  -- the words of the array
  have hentry (j : Nat) (hj : j < argv.length + 1) : userWord b (R.page r)
      ((0x1000 + (pagesUpTo size - 1)) * PAGE_SIZE + (argsStart (R.page k) size argv - R.page k)
        + 4 * j) = b.le32 (argsStart (R.page k) size argv + 4 * j) := by
    rw [Nat.add_assoc, h.userWord_eq hr hk (by omega), ← Nat.add_assoc,
      show R.page k + (argsStart (R.page k) size argv - R.page k)
        = argsStart (R.page k) size argv by omega]
  refine ⟨fun j hj => ?_, ?_⟩
  · have hdrop := weight_drop_eq hj
    have htake := weight_take_add_drop argv j
    have hpointer : userWord b (R.page r) ((0x1000 + (pagesUpTo size - 1)) * PAGE_SIZE
        + (argsStart (R.page k) size argv - R.page k) + 4 * j)
          = (0x1000 + (pagesUpTo size - 1)) * PAGE_SIZE +
            (stackTop size - (argv.drop j).weight) := by
      rw [hentry j (by omega), hword j (by simp; omega),
        List.getElem_append_left (by simpa using hj), getElem_pointers,
        image_address hsize (by omega) (by omega), Nat.mod_eq_of_lt]
      · omega
      · simp only [PAGE_SIZE] at *
        omega
    -- a byte of the string
    have hbyte (i : Nat) (hi : i < argv[j].length + 1) : userByte b (R.page r)
        ((0x1000 + (pagesUpTo size - 1)) * PAGE_SIZE + (stackTop size - (argv.drop j).weight) + i)
          = (argv[j] ++ [0]).getD i 0 := by
      rw [Nat.add_assoc, h.userByte_eq hr hk (by omega)]
      show b _ = _
      rw [hother _ (by omega), Buf.copy_of_mem (by omega), Buf.ofList, List.getD_eq_getElem?_getD,
        List.getD_eq_getElem?_getD, ← flatArgs_at hj i hi]
      congr 2
      omega
    rw [hpointer]
    refine ⟨hnul _ (List.getElem_mem hj), fun i hi => ?_, ?_⟩
    · rw [hbyte i (by omega), List.getD_append _ _ _ _ hi, List.getD_eq_getElem _ _ hi]
    · rw [hbyte _ (by omega)]
      simp
  · rw [hentry _ (by omega), hword _ (by simp)]
    simp

end Passed

end Dmaos
