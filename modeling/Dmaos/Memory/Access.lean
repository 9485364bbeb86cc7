import Dmaos.Memory.Framebuffer

/-!
# What the kernel does to the memory of a program

A program passes addresses to `handle_syscall`.  They have to be checked before the kernel
reads or writes there.  The system calls are given here by what they do to the memory of
the program, in its order: the checks they have passed, and the bytes they read and write.
What the validators themselves read is left out; `Validate` is about that.

What the tables of the kernel decide is arbitrary (`Situation`).  The pages of the program
are not pages of the kernel, so the program finds the same bytes throughout a call.

`Checks` compares the checks with the uses, `Agree` the functions here with those of
`Kernel`.
-/

namespace Dmaos.Access

open Fault

/-! ## Accesses -/

/-- A check that has been passed. -/
inductive Check where
  | writeBuffer (addr len : Nat)
  | readBuffer (addr len : Nat)
  | string (addr : Nat)

/-- What a call does to the memory of the program. -/
inductive Use where
  | passed (c : Check)
  | read (a : Nat)
  | write (a : Nat)

/-- A call, with what it has done so far.  It stops where the source has a loop that does
not end. -/
abbrev Acc := EStateM Unit (List Use)

def note (e : Use) : Acc Unit := modify fun es => es ++ [e]

/-- The address after `p`. -/
def next (p : Nat) : Nat := (p + 1) % 2 ^ 32

/-- `n` bytes from `p` on are used. -/
def useBytes (use : Nat → Use) : Nat → Nat → Acc Unit
  | 0, _ => return ()
  | n + 1, p => do
    note (use p)
    useBytes use n (next p)

/-- `n` bytes from `p` on are read. -/
def readBytes : Nat → Nat → Acc Unit := useBytes .read

/-- `n` bytes from `p` on are written. -/
def writeBytes : Nat → Nat → Acc Unit := useBytes .write

/-- A loop over a string makes at most as many turns as there are addresses. -/
def maxTurns : Nat := 2 ^ 32

/-! ## Strings of the program -/

section Strings

variable (u : Nat → Byte)

/-- `*p`. -/
def getByte (p : Nat) : Acc Byte := do
  note (.read p)
  return u p

/-- `while (*s++) ++len`. -/
def strlenLoop : Nat → Nat → Nat → Acc Nat
  | 0, _, _ => throw ()
  | n + 1, s, len => do
    let c ← getByte u s
    if c ≠ 0 then strlenLoop n (next s) (len + 1) else return len

/-- `strlen`. -/
def strlen (s : Nat) : Acc Nat := strlenLoop u maxTurns s 0

/-- `while (*s) { kputc(*s); ++s; }`. -/
def putString : Nat → Nat → Acc Unit
  | 0, _ => throw ()
  | n + 1, s => do
    let c ← getByte u s
    if c ≠ 0 then putString n (next s) else return ()

/-- `kprintf` of a message with `%s`. -/
def kprintf (s : Nat) : Acc Unit := do
  let _ ← strlen u s
  putString u maxTurns s

/-- `strcmp(s, lit) == 0`. -/
def strcmpEq : List Byte → Nat → Acc Bool
  | [], s => do
    let d ← getByte u s
    return d == 0
  | c :: lit, s => do
    let d ← getByte u s
    if d ≠ 0 ∧ d = c then strcmpEq lit (next s) else return false

/-- What `strncpy` and `strncat` read: `while (n > 0 && *src)`. -/
def copyString : Nat → Nat → Acc Unit
  | 0, _ => return ()
  | n + 1, src => do
    let c ← getByte u src
    if c ≠ 0 then copyString n (next src) else return ()

/-- `while (*path == '/') ++path`. -/
def skipSlashes : Nat → Nat → Acc Nat
  | 0, _ => throw ()
  | n + 1, path => do
    let c ← getByte u path
    if c = slash then skipSlashes n (next path) else return path

/-- `while (*path != '/' && *path != '\0') ++path`.  Returns the address and the number of
turns. -/
def skipName : Nat → Nat → Nat → Acc (Nat × Nat)
  | 0, _, _ => throw ()
  | n + 1, path, len => do
    let c ← getByte u path
    if c ≠ slash ∧ c ≠ 0 then skipName n (next path) (len + 1) else return (path, len)

/-- `skipto`. -/
def skipto (path : Nat) : Acc (Option Nat) := do
  let s ← skipSlashes u maxTurns path
  let c ← getByte u s
  if c = 0 then return none
  else
    let (path, len) ← skipName u maxTurns s 0
    readBytes (if DIRSIZ ≤ len then DIRSIZ - 1 else len) s
    let path ← skipSlashes u maxTurns path
    return some path

/-- What a component of a path turns out to be. -/
inductive Walk where
  | notDirectory
  | notFound
  | found

/-- The loop of `namex`, from the component with number `i` on.  Is an inode returned? -/
def namexLoop (walk : Nat → Walk) (parent : Bool) : Nat → Nat → Nat → Acc Bool
  | 0, _, _ => throw ()
  | n + 1, i, path => do
    match ← skipto u path with
    | none => return !parent
    | some path =>
      match walk i with
      | .notDirectory => return false
      | .notFound => do
        if parent then
          let c ← getByte u path
          return c == 0
        else return false
      | .found => do
        if parent then
          let c ← getByte u path
          if c = 0 then return true else namexLoop walk parent n (i + 1) path
        else namexLoop walk parent n (i + 1) path

/-- `namex`. -/
def namex (walk : Nat → Walk) (parent : Bool) (path : Nat) : Acc Bool := do
  let _ ← getByte u path
  namexLoop u walk parent maxTurns 0 path

end Strings

/-! ## The system calls -/

/-- The registers of the program. -/
structure TrapFrame where
  a0 : BitVec 32
  a1 : BitVec 32
  a2 : BitVec 32

/-- The register `a3`. -/
inductive SyscallNumber where
  | putchar | getchar | exit | open | read | write | close | getFileName | getFileSize | spawn
  | wait | yield | kmesg | stat | chdir | getcwd | mkdir | rm | sbrk | ftruncate | lseek
  | presentFramebuffer | inputPoll
deriving DecidableEq

/-- The file behind a descriptor. -/
inductive Behind where
  /-- There is none, or it may not be used in this way. -/
  | refused
  | console
  | inode (unused : Bool) (off size : BitVec 32)

/-- What the tables of the kernel decide during a call. -/
structure Situation where
  walk : Nat → Walk
  /-- Has `chdir` found a directory? -/
  isDirectory : Bool
  file : Behind
  /-- The length of the name `fs_get_file_name` has found. -/
  nameLen : Option Nat
  /-- The length of the path of the working directory. -/
  cwdLen : Nat
  /-- The length of the buffer of `fs_normalize_path` before `rel` is appended. -/
  baseLen : BitVec 32
  /-- Does `spawn_process` fail? -/
  spawnFails : Bool
  kmesgLen : Nat
  /-- Has a key been pressed or released? -/
  key : Bool

section Calls

variable (b : Buf) (satp : Nat) (k : Situation)

/-- The byte the program finds at an address. -/
def view : Nat → Byte := userByte b (getActivePageTable satp)

def validateWrite (addr len : Nat) : Acc Bool :=
  if validateUserWriteBuffer b satp maxTurns addr len = some true then do
    note (.passed (.writeBuffer addr len))
    return true
  else return false

def validateRead (addr len : Nat) : Acc Bool :=
  if validateUserReadBuffer b satp maxTurns addr len = some true then do
    note (.passed (.readBuffer addr len))
    return true
  else return false

def validateString (addr : Nat) : Acc Bool :=
  if (validateUserString b satp maxTurns addr).map Prod.fst = some true then do
    note (.passed (.string addr))
    return true
  else return false

/-- `fs_create`. -/
def fsCreate (path : Nat) : Acc Unit := do
  let found ← namex (view b satp) k.walk true path
  if found then return () else kprintf (view b satp) path

/-- `fs_open`. -/
def fsOpen (path : Nat) : Acc Unit := do
  let console ← strcmpEq (view b satp) consolePath path
  if console then return ()
  else
    let _ ← namex (view b satp) k.walk false path
    return ()

/-- `fs_read`, with `readi`. -/
def fsRead (buf : Nat) (n : BitVec 32) : Acc Unit :=
  match k.file with
  | .refused => return ()
  | .console => writeBytes n.toInt.toNat buf
  | .inode unused off size =>
    if unused then return ()
    else if size < off ∨ off + n < off then return ()
    else if size < off + n then writeBytes (size - off).toNat buf
    else writeBytes n.toNat buf

/-- `fs_write`, with `writei`. -/
def fsWrite (buf : Nat) (n : BitVec 32) : Acc Unit :=
  match k.file with
  | .refused => return ()
  | .console => readBytes n.toInt.toNat buf
  | .inode _ off size =>
    if size < off ∨ off + n < off then return ()
    else if BitVec.ofNat 32 (MAXFILE * BSIZE) < off + n then return ()
    else readBytes n.toNat buf

/-- `fs_get_file_name`. -/
def fsGetFileName (buf bufLen : Nat) : Acc Unit :=
  match k.nameLen with
  | none => return ()
  | some len => do
    let len := if bufLen ≤ len then bufLen - 1 else len
    writeBytes len buf
    note (.write ((buf + len) % 2 ^ 32))

/-- `fs_stat`. -/
def fsStat (path st : Nat) : Acc Unit := do
  let found ← namex (view b satp) k.walk false path
  if found then
    writeBytes 4 st
    writeBytes 4 ((st + 4) % 2 ^ 32)
  else return ()

/-- What `fs_normalize_path` reads of the path it is given. -/
def fsNormalizePath (rel : Nat) : Acc Unit := do
  let c ← getByte (view b satp) rel
  if c = slash then copyString (view b satp) (MAX_PATH - 1) rel
  else copyString (view b satp) (BitVec.ofNat 32 (MAX_PATH - 1) - k.baseLen).toNat rel

/-- `SYSCALL_CHDIR`. -/
def sysChdir (path : Nat) : Acc Unit := do
  let found ← namex (view b satp) k.walk false path
  if found ∧ k.isDirectory then fsNormalizePath b satp k path else return ()

/-- `spawn_process`. -/
def spawnProcess (cmdline : Nat) : Acc Unit := do
  kprintf (view b satp) cmdline
  let len ← strlen (view b satp) cmdline
  readBytes (if 128 ≤ len then 127 else len) cmdline

/-- The loops of `SYSCALL_PRESENT_FRAMEBUFFER` over the pixels. -/
def readPicture (fb width height : Nat) : Acc Unit :=
  scaleRows width height (fun _ i => readBytes 4 ((fb + 4 * i) % 2 ^ 32)) FB_HEIGHT 0 0

/-- `handle_syscall`, as far as the memory of the program is concerned. -/
def handleSyscall (num : SyscallNumber) (f : TrapFrame) : Acc Unit := do
  match num with
  | .open =>
    if ← validateString b satp f.a0.toNat then
      if hasFlag f.a1.toNat FILECTRL_CREATE then fsCreate b satp k f.a0.toNat
      else fsOpen b satp k f.a0.toNat
  | .read =>
    if f.a2.toInt ≤ 0 then return ()
    else if ← validateWrite b satp f.a1.toNat f.a2.toNat then fsRead k f.a1.toNat f.a2
  | .write =>
    if f.a2.toInt ≤ 0 then fsWrite k f.a1.toNat f.a2
    else if ← validateRead b satp f.a1.toNat f.a2.toNat then fsWrite k f.a1.toNat f.a2
  | .getFileName =>
    if f.a2.toInt ≤ 0 then return ()
    else if ← validateWrite b satp f.a1.toNat f.a2.toNat then
      fsGetFileName k f.a1.toNat f.a2.toNat
  | .stat =>
    if ← validateString b satp f.a0.toNat then
      if ← validateWrite b satp f.a1.toNat 8 then fsStat b satp k f.a0.toNat f.a1.toNat
  | .chdir => if ← validateString b satp f.a0.toNat then sysChdir b satp k f.a0.toNat
  | .getcwd =>
    if f.a1.toInt ≤ 0 then return ()
    else if ← validateWrite b satp f.a0.toNat f.a1.toNat then
      if f.a1.toNat ≤ k.cwdLen then return () else writeBytes (k.cwdLen + 1) f.a0.toNat
  | .mkdir =>
    if ← validateString b satp f.a0.toNat then
      let _ ← namex (view b satp) k.walk true f.a0.toNat
  | .rm =>
    if ← validateString b satp f.a0.toNat then
      let _ ← namex (view b satp) k.walk true f.a0.toNat
  | .spawn =>
    kprintf (view b satp) f.a0.toNat
    if ← validateString b satp f.a0.toNat then
      spawnProcess b satp f.a0.toNat
      if k.spawnFails then kprintf (view b satp) f.a0.toNat
  | .kmesg =>
    if f.a1.toInt ≤ 0 then return ()
    else if ← validateWrite b satp f.a0.toNat f.a1.toNat then
      writeBytes (min f.a1.toNat k.kmesgLen) f.a0.toNat
  | .presentFramebuffer =>
    if f.a1 = 0 ∨ f.a2 = 0 then return ()
    else if ← validateWrite b satp f.a0.toNat (f.a1 * f.a2).toNat then
      readPicture f.a0.toNat f.a1.toNat f.a2.toNat
  | .inputPoll =>
    if ← validateWrite b satp f.a0.toNat 2 then
      if ← validateWrite b satp f.a1.toNat 4 then
        if k.key then
          writeBytes 2 f.a0.toNat
          writeBytes 4 f.a1.toNat
  -- The others are given no addresses.
  | .putchar | .getchar | .exit | .close | .getFileSize | .wait | .yield | .sbrk | .ftruncate
  | .lseek => return ()

/-- What a call does, whether it returns or stops. -/
def uses (num : SyscallNumber) (f : TrapFrame) : List Use :=
  final (handleSyscall b satp k num f [])

end Calls

end Dmaos.Access
