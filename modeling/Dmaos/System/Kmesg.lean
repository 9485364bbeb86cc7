import Dmaos.Kernel.Name
import Dmaos.Lib.Buf

/-!
# The kernel log

`kprintf` writes to a buffer of `KMESG_SIZE` bytes, one character at a time (`kputc`),
and `PANIC` prints the end of that buffer to the console.  `vprintf` is given here by the
characters it passes to `kputc`, in their order.

Once the buffer is full `kputc` drops its character, so the buffer holds the beginning of
the log and not its end.  The report of `PANIC` is the end of the log as long as fewer
than `KMESG_SIZE` characters have been logged, the report included (`panic_reports_iff`).
-/

namespace Dmaos

open Function

variable {stream : List Byte} {n : Nat} {calls : List LogCall}

/-! ## The buffer -/

/-- `KMESG_SIZE`. -/
def KMESG_SIZE : Nat := 4096

/-- `kmesg_buf` and `kmesg_len`. -/
structure Kmesg where
  buf : Buf
  len : Nat

/-- The log when the kernel starts. -/
def Kmesg.empty : Kmesg := ⟨Buf.zero, 0⟩

/-- `kputc`. -/
def kputc (m : Kmesg) (ch : Byte) : Kmesg :=
  if m.len < KMESG_SIZE - 1 then
    ⟨update (update m.buf m.len ch) (m.len + 1) 0, m.len + 1⟩
  else m

/-- `dump_kmesg`: the characters it sends to the console. -/
def dumpKmesg (m : Kmesg) (limit : Nat) : List Byte :=
  let start := if 0 < limit ∧ limit < m.len then m.len - limit else 0
  m.buf.slice start (m.len - start)

/-! ## `vprintf` -/

/-- The bytes of a text. -/
def ascii (text : List Char) : List Byte := text.map fun c => BitVec.ofNat 8 c.toNat

/-- An argument of `kprintf`. -/
inductive LogArg where
  | word (v : BitVec 32)
  | string (s : CString)

/-- `for (int i = 0; i < pad; i++) kputc(' ')`. -/
def padding (pad : Int) : List Byte := List.replicate pad.toNat 0x20

/-- Text in a column: the padding stands on its left or on its right. -/
def aligned (left : Bool) (pad : Int) (text : List Byte) : List Byte :=
  if left then text ++ padding pad else padding pad ++ text

/-- `while (temp > 0) { ++len; temp /= 10; }`.  Ten turns are enough for 32 bits. -/
def countDigits : Nat → Nat → Nat → Nat
  | 0, _, len => len
  | k + 1, temp, len => if 0 < temp then countDigits k (temp / 10) (len + 1) else len

/-- `while (mag / div > 9) div *= 10`. -/
def leadingDiv (mag : Nat) : Nat → Nat → Nat
  | 0, div => div
  | k + 1, div => if 9 < mag / div then leadingDiv mag k (div * 10 % 2 ^ 32) else div

/-- The loop that prints the digits. -/
def digitsFrom : Nat → Nat → Nat → List Byte
  | 0, _, _ => []
  | k + 1, mag, div =>
    if 0 < div then BitVec.ofNat 8 (0x30 + mag / div) :: digitsFrom k (mag % div) (div / 10)
    else []

/-- `%d`. -/
def printDecimal (left : Bool) (width : Int) (value : BitVec 32) : List Byte :=
  let mag := if value.toInt < 0 then (-value).toNat else value.toNat
  let sign := if value.toInt < 0 then [0x2d] else []
  let len := if mag = 0 then sign.length + 1 else countDigits 10 mag sign.length
  aligned left (width - len) (sign ++ digitsFrom 10 mag (leadingDiv mag 10 1))

/-- `%x`: eight digits. -/
def printHex (val : BitVec 32) : List Byte :=
  (List.range 8).reverse.map fun i =>
    let nibble := val.toNat / 2 ^ (i * 4) % 16
    BitVec.ofNat 8 (if nibble < 10 then 0x30 + nibble else 0x57 + nibble)

/-- The conversion for the character after the flags: the characters it prints and the
arguments that are left.  An unknown character prints nothing.  There is no result if
the next argument is not there or of another type. -/
def convert (left : Bool) (width : Int) (c : Byte) (args : List LogArg) :
    Option (List Byte × List LogArg) :=
  if c = 0x25 then some ([0x25], args)
  else if c = 0x73 then
    match args with
    | .string s :: args => some (aligned left (width - s.1.length) s.1, args)
    | _ => none
  else if c = 0x64 then
    match args with
    | .word v :: args => some (printDecimal left width v, args)
    | _ => none
  else if c = 0x78 then
    match args with
    | .word v :: args => some (printHex v, args)
    | _ => none
  else some ([], args)

/-- The flag `-`. -/
def leftFlag : List Byte → Bool × List Byte
  | c :: fmt => if c = 0x2d then (true, fmt) else (false, c :: fmt)
  | [] => (false, [])

/-- The width `*`, which is an argument. -/
def starWidth : List Byte → List LogArg → Option (Int × List Byte × List LogArg)
  | c :: fmt, args =>
    if c = 0x2a then
      match args with
      | .word v :: args => some (v.toInt, fmt, args)
      | _ => none
    else some (0, c :: fmt, args)
  | [], args => some (0, [], args)

/-- The loop of `vprintf`.  Each turn reads one character at least. -/
def vprintfLoop : Nat → List Byte → List LogArg → Option (List Byte)
  | 0, _, _ => some []
  | _ + 1, [], _ => some []
  | k + 1, c :: fmt, args =>
    if c = 0x25 then do
      let (left, fmt) := leftFlag fmt
      let (width, fmt, args) ← starWidth fmt args
      match fmt with
      | [] => some [0x25]
      | c :: fmt =>
        let (out, args) ← convert left width c args
        let rest ← vprintfLoop k fmt args
        some (out ++ rest)
    else do
      let rest ← vprintfLoop k fmt args
      some (c :: rest)

/-- `vprintf`: the characters it passes to `kputc`. -/
def vprintf (fmt : List Byte) (args : List LogArg) : Option (List Byte) :=
  vprintfLoop fmt.length fmt args

/-! ## `kprintf` and `PANIC` -/

/-- A call of `kprintf`. -/
structure LogCall where
  fmt : CString
  args : List LogArg

/-- `kprintf`. -/
def kprintf (m : Kmesg) (fmt : List Byte) (args : List LogArg) : Option Kmesg :=
  (vprintf fmt args).map fun out => out.foldl kputc m

/-- Calls of `kprintf` one after the other. -/
def kprintfs : List LogCall → Kmesg → Option Kmesg
  | [], m => some m
  | c :: cs, m => (kprintf m c.fmt.1 c.args).bind (kprintfs cs)

/-- A `PANIC` in the source: its file and line, and its own message. -/
structure PanicCall where
  file : CString
  line : BitVec 32
  fmt : CString
  args : List LogArg

/-- `"+++ WHOOPS!  HERE COMES MR JELLY! +++\n"`. -/
def jelly : CString :=
  ⟨ascii ['+', '+', '+', ' ', 'W', 'H', 'O', 'O', 'P', 'S', '!', ' ', ' ', 'H', 'E', 'R', 'E',
    ' ', 'C', 'O', 'M', 'E', 'S', ' ', 'M', 'R', ' ', 'J', 'E', 'L', 'L', 'Y', '!', ' ', '+', '+',
    '+', '\n'], by decide⟩

/-- `"%s:%d: " fmt "\n"`. -/
def panicFmt (fmt : CString) : CString :=
  ⟨ascii ['%', 's', ':', '%', 'd', ':', ' '] ++ fmt.1 ++ ascii ['\n'], by
    simpa [ascii] using fmt.2⟩

/-- `"---\n"`. -/
def dashes : CString := ⟨ascii ['-', '-', '-', '\n'], by decide⟩

/-- The calls of `kprintf` that `PANIC` makes. -/
def panicCalls (p : PanicCall) : List LogCall :=
  [⟨jelly, []⟩, ⟨panicFmt p.fmt, .string p.file :: .word p.line :: p.args⟩, ⟨dashes, []⟩]

/-- `PANIC`, up to `shutdown`: the log after it and what it sends to the console. -/
def PANIC (p : PanicCall) (m : Kmesg) : Option (Kmesg × List Byte) :=
  (kprintfs (panicCalls p) m).map fun m => (m, dumpKmesg m 1024)

/-- A run: calls of `kprintf`, and then a `PANIC`. -/
def report (calls : List LogCall) (p : PanicCall) : Option (Kmesg × List Byte) := do
  let m ← kprintfs calls .empty
  PANIC p m

/-! ## The stream -/

/-- The characters that some calls of `kprintf` log. -/
def logged : List LogCall → Option (List Byte)
  | [] => some []
  | c :: cs => do
    let out ← vprintf c.fmt.1 c.args
    let rest ← logged cs
    return out ++ rest

/-- The last characters of a text. -/
def lastPart (n : Nat) (text : List Byte) : List Byte := text.drop (text.length - n)

/-! ## What the buffer holds -/

/-- The buffer holds the beginning of the stream, and a NUL after it. -/
structure Retains (stream : List Byte) (m : Kmesg) : Prop where
  len_eq : m.len = min stream.length (KMESG_SIZE - 1)
  text : m.buf.slice 0 m.len = stream.take (KMESG_SIZE - 1)
  nul : m.buf m.len = 0

section Buffer

variable {out : List Byte} {m m' : Kmesg}

theorem Retains.empty : Retains [] .empty := ⟨rfl, rfl, rfl⟩

theorem Retains.len_lt (h : Retains stream m) : m.len < KMESG_SIZE := by
  rw [h.len_eq]
  exact Nat.lt_of_le_of_lt (Nat.min_le_right _ _) (by decide)

/-- A character is added while there is room, and is dropped otherwise. -/
theorem Retains.kputc (h : Retains stream m) (ch : Byte) :
    Retains (stream ++ [ch]) (kputc m ch) := by
  have hlen := h.len_eq
  unfold Dmaos.kputc
  split_ifs with hroom
  · have hfits : stream.length < KMESG_SIZE - 1 := by omega
    have hmlen : m.len = stream.length := by omega
    refine ⟨?_, ?_, update_self ..⟩
    · simp only [List.length_append, List.length_singleton]
      omega
    · have hold : Buf.slice (update (update m.buf m.len ch) (m.len + 1) 0) 0 m.len
          = m.buf.slice 0 m.len := by
        refine Buf.slice_congr fun i hi => ?_
        rw [update_of_ne (by omega), update_of_ne (by omega)]
      have hnew : Buf.slice (update (update m.buf m.len ch) (m.len + 1) 0)
          (0 + m.len) 1 = [ch] := by
        have hat : update (update m.buf m.len ch) (m.len + 1) 0 m.len = ch := by
          rw [update_of_ne (by omega), update_self]
        rw [Nat.zero_add]
        exact congrArg (fun b => [b]) hat
      rw [Buf.slice_append, hold, hnew, h.text, List.take_of_length_le (by omega),
        List.take_of_length_le (by rw [List.length_append, List.length_singleton]; omega)]
  · have hfull : KMESG_SIZE - 1 ≤ stream.length := by omega
    refine ⟨?_, ?_, h.nul⟩
    · rw [hlen, List.length_append]
      omega
    · rw [h.text, List.take_append_of_le_length hfull]

theorem Retains.puts (h : Retains stream m) :
    Retains (stream ++ out) (out.foldl Dmaos.kputc m) := by
  induction out generalizing stream m with
  | nil => rwa [List.append_nil]
  | cons ch out ih =>
      have hrest := ih (h.kputc ch)
      rwa [List.append_assoc, List.singleton_append] at hrest

/-- The console gets the last characters of the buffer. -/
theorem Retains.dump (h : Retains stream m) (hn : 0 < n) :
    dumpKmesg m n = lastPart n (stream.take (KMESG_SIZE - 1)) := by
  have hlen : (m.buf.slice 0 m.len).length = m.len := Buf.length_slice ..
  have hdrop : ∀ k ≤ m.len, m.buf.slice k (m.len - k) = (m.buf.slice 0 m.len).drop k := by
    intro k hk
    conv_rhs => rw [← Nat.add_sub_cancel' hk, Buf.slice_append]
    rw [List.drop_left' (Buf.length_slice ..), Nat.zero_add]
  unfold dumpKmesg lastPart
  rw [← h.text, hlen]
  dsimp only
  split_ifs with hlimit
  · exact hdrop _ (Nat.sub_le _ _)
  · rw [Nat.sub_eq_zero_of_le (show m.len ≤ n by omega)]
    exact hdrop 0 (Nat.zero_le _)

theorem Retains.kprintf {fmt : List Byte} {args : List LogArg} (h : Retains stream m)
    (hout : vprintf fmt args = some out) :
    ∃ m', kprintf m fmt args = some m' ∧ Retains (stream ++ out) m' :=
  ⟨_, by rw [Dmaos.kprintf, hout]; rfl, h.puts⟩

theorem Retains.kprintfs (h : Retains stream m) (hout : logged calls = some out) :
    ∃ m', kprintfs calls m = some m' ∧ Retains (stream ++ out) m' := by
  induction calls generalizing stream m out with
  | nil =>
      cases hout
      exact ⟨m, rfl, by rwa [List.append_nil]⟩
  | cons c calls ih =>
      obtain ⟨out₁, h₁, hout⟩ := Option.bind_eq_some_iff.mp hout
      obtain ⟨out₂, h₂, hout⟩ := Option.bind_eq_some_iff.mp hout
      cases hout
      obtain ⟨m₁, hm₁, hk₁⟩ := h.kprintf h₁
      obtain ⟨m₂, hm₂, hk₂⟩ := ih hk₁ h₂
      refine ⟨m₂, ?_, by rwa [List.append_assoc] at hk₂⟩
      rw [Dmaos.kprintfs, hm₁]
      exact hm₂

end Buffer

/-! ## The report -/

/-- The report is the end of the log, and so ends with the text of the `PANIC` if that is
not too long. -/
def Reports (stream text out : List Byte) : Prop :=
  out = lastPart 1024 stream ∧ (text.length ≤ 1024 → text <:+ out)

/-- The log is longer than the buffer, but its 1024 characters that stand at the end of the
buffer are also its last ones. -/
def Repeats (stream : List Byte) : Prop :=
  KMESG_SIZE ≤ stream.length ∧
    (stream.drop (KMESG_SIZE - 1 - 1024)).take 1024 = lastPart 1024 stream

section Reports

variable {p : PanicCall} {before text : List Byte}

/-- The log before a `PANIC` and after it. -/
theorem report_run (hbefore : logged calls = some before)
    (htext : logged (panicCalls p) = some text) :
    ∃ m m', kprintfs calls .empty = some m ∧ Retains before m ∧
      report calls p = some (m', dumpKmesg m' 1024) ∧ Retains (before ++ text) m' := by
  obtain ⟨m, hm, hk⟩ := Retains.empty.kprintfs hbefore
  obtain ⟨m', hm', hk'⟩ := hk.kprintfs htext
  refine ⟨m, m', hm, hk, ?_, hk'⟩
  rw [report, hm]
  show PANIC p m = _
  rw [PANIC, hm', Option.map_some]

theorem lastPart_of_suffix (h : text <:+ stream)
    (hn : text.length ≤ n) : text <:+ lastPart n stream := by
  obtain ⟨front, rfl⟩ := h
  unfold lastPart
  rw [List.length_append, List.drop_append_of_le_length (by omega)]
  exact ⟨_, rfl⟩

/-- What is printed of a log that is longer than the buffer. -/
theorem lastPart_take (h : KMESG_SIZE ≤ stream.length) :
    lastPart 1024 (stream.take (KMESG_SIZE - 1))
      = (stream.drop (KMESG_SIZE - 1 - 1024)).take 1024 := by
  have hmin : min (KMESG_SIZE - 1) stream.length = KMESG_SIZE - 1 := by omega
  rw [lastPart, List.length_take, hmin, List.drop_take]
  rfl

/-- After any calls of `kprintf` the length of the log is below `KMESG_SIZE`, and there is
a NUL after its text.  The report of a `PANIC` is the end of the log if and only if fewer
than `KMESG_SIZE` characters have been logged, or the end is repeated in the buffer. -/
theorem panic_reports_iff (hbefore : logged calls = some before)
    (htext : logged (panicCalls p) = some text) :
    (∃ m, kprintfs calls .empty = some m ∧ m.len < KMESG_SIZE ∧ m.buf m.len = 0) ∧
    ∃ m out, report calls p = some (m, out) ∧ m.len < KMESG_SIZE ∧ m.buf m.len = 0 ∧
      (Reports (before ++ text) text out ↔
        (before ++ text).length < KMESG_SIZE ∨ Repeats (before ++ text)) := by
  obtain ⟨m, m', hm, hk, hrun, hk'⟩ := report_run hbefore htext
  refine ⟨⟨m, hm, hk.len_lt, hk.nul⟩, m', dumpKmesg m' 1024, hrun, hk'.len_lt, hk'.nul, ?_⟩
  rw [hk'.dump (by decide)]
  rcases Nat.lt_or_ge (before ++ text).length KMESG_SIZE with hlen | hlen
  · -- everything is in the buffer
    refine iff_of_true ?_ (.inl hlen)
    rw [List.take_of_length_le (Nat.le_sub_one_of_lt hlen)]
    exact ⟨rfl, lastPart_of_suffix (List.suffix_append before text)⟩
  · rw [lastPart_take hlen]
    constructor
    · exact fun h => .inr ⟨hlen, h.1⟩
    · intro h
      have hrep := (h.resolve_left (Nat.not_lt.mpr hlen)).2
      rw [hrep]
      exact ⟨rfl, lastPart_of_suffix (List.suffix_append before text)⟩

end Reports

/-- `kprintf("%*s", 5000, "")`. -/
def flood : LogCall := ⟨⟨ascii ['%', '*', 's'], by decide⟩, [.word 5000, .string ⟨[], by decide⟩]⟩

/-- `kprintf("Boot complete\n")`. -/
def complete : LogCall :=
  ⟨⟨ascii ['B', 'o', 'o', 't', ' ', 'c', 'o', 'm', 'p', 'l', 'e', 't', 'e', '\n'], by decide⟩, []⟩

/-- The `PANIC` in `alloc_pages`. -/
def cheese : PanicCall :=
  ⟨⟨ascii ['p', 'a', 'g', 'e', '.', 'c'], by decide⟩, 29,
    ⟨ascii ['+', '+', '+', ' ', 'O', 'U', 'T', ' ', 'O', 'F', ' ', 'C', 'H', 'E', 'E', 'S', 'E',
      ' ', '+', '+', '+'], by decide⟩, []⟩

theorem cheese_text : ∃ text, logged (panicCalls cheese) = some text ∧ text.length ≤ 1024 ∧
    0x0a ∈ text := by
  have hval : (logged (panicCalls cheese)).any
      (fun text => decide (text.length ≤ 1024) && decide (0x0a ∈ text)) = true := by
    decide +kernel
  cases htext : logged (panicCalls cheese) with
  | none =>
      rw [htext] at hval
      cases hval
  | some text =>
      rw [htext, Option.any_some, Bool.and_eq_true, decide_eq_true_eq, decide_eq_true_eq] at hval
      exact ⟨text, rfl, hval⟩

theorem flood_text : logged [flood] = some (padding 5000) := by
  have hout : logged [flood] = some (padding 5000 ++ [] ++ [] ++ []) := rfl
  rwa [List.append_nil, List.append_nil, List.append_nil] at hout

/-- The log is short. -/
theorem panic_reports_boot : ∃ before text m out, logged [complete] = some before ∧
    logged (panicCalls cheese) = some text ∧ report [complete] cheese = some (m, out) ∧
    Reports (before ++ text) text out := by
  obtain ⟨text, htext, hshort, -⟩ := cheese_text
  have hbefore : logged [complete] = some complete.fmt.1 := by decide +kernel
  obtain ⟨-, m, out, hrun, -, -, hiff⟩ := panic_reports_iff hbefore htext
  refine ⟨_, text, m, out, hbefore, htext, hrun, hiff.mpr (.inl ?_)⟩
  rw [List.length_append]
  have hlen : complete.fmt.1.length = 14 := rfl
  have hsize : KMESG_SIZE = 4096 := rfl
  omega

/-- Five thousand characters are logged first: the report of the `PANIC` does not show it. -/
theorem panic_report_lost : ∃ before text m out, logged [flood] = some before ∧
    logged (panicCalls cheese) = some text ∧ report [flood] cheese = some (m, out) ∧
    text.length ≤ 1024 ∧ ¬ Reports (before ++ text) text out := by
  obtain ⟨text, htext, hshort, hline⟩ := cheese_text
  obtain ⟨m, m', -, -, hrun, hk⟩ := report_run flood_text htext
  refine ⟨_, text, m', dumpKmesg m' 1024, flood_text, htext, hrun, hshort, fun hreports => ?_⟩
  -- all characters in the buffer are blanks, and the text of the `PANIC` has a newline
  have hfull : (padding 5000 ++ text).take (KMESG_SIZE - 1)
      = (padding 5000).take (KMESG_SIZE - 1) :=
    List.take_append_of_le_length (by rw [padding, List.length_replicate]; decide)
  have hmem := (hreports.2 hshort).subset hline
  rw [hk.dump (by decide), hfull] at hmem
  have hblank := List.eq_of_mem_replicate (List.mem_of_mem_take (List.mem_of_mem_drop hmem))
  exact absurd hblank (by decide)

end Dmaos
