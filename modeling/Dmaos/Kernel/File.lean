import Dmaos.Kernel.Name

/-!
# Open files and the calls on them

The table of open files (`file.c`) and the file-system calls of `fs.c`.  The
messages the functions print are left out.

`flags` and the lengths and offsets are the 32-bit patterns the trap frame
holds; an `int` argument is an `Int`.
-/

namespace Dmaos

/-- Is one of the bits of `mask` set? -/
def hasFlag (flags mask : Nat) : Bool := flags &&& mask != 0

/-- The 32-bit pattern of an `int`. -/
def toU32 (n : Int) : Nat := (n % 2 ^ 32).toNat

/-- The `int` with a 32-bit pattern. -/
def toInt32 (n : Nat) : Int := if n % 2 ^ 32 < 2 ^ 31 then n % 2 ^ 32 else n % 2 ^ 32 - 2 ^ 32

/-! ## The table of open files -/

/-- The first free slot of the file table. -/
def findFile (s : KState) : Option (Fin GLOBAL_OPEN_FILE_LIMIT) :=
  (List.finRange GLOBAL_OPEN_FILE_LIMIT).find? fun i => (s.fileTable i).ref == 0

/-- `file_create`, with the `file_alloc` it starts with. -/
def fileCreate (type : FileDescType) (flags : Nat) :
    Kern (Option (Fin GLOBAL_OPEN_FILE_LIMIT)) := fun s =>
  match findFile s with
  | none => .ok none s
  | some f =>
    .ok (some f) (s.putFile f
      { ref := 1, type := type
        readable := hasFlag flags FILECTRL_READONLY
        writable := hasFlag flags FILECTRL_WRITEONLY
        ip := none, off := 0 })

/-- `file_close` of a pointer that is not `NULL`. -/
def fileClose (f : Fin GLOBAL_OPEN_FILE_LIMIT) : Kern Unit := do
  let s ← get
  let F := s.fileTable f
  if F.ref ≤ 0 then throw .fileClose
  else if F.ref - 1 = 0 then
    match F.ip with
    | some ip =>
      iput ip
      modify fun s => s.putFile f { F with ref := 0, ip := none, type := .none }
    | none => modify fun s => s.putFile f { F with ref := 0, type := .none }
  else modify fun s => s.putFile f { F with ref := F.ref - 1 }

/-- `get_current_process` where the caller dereferences the result. -/
def currentProcess : Kern (Fin PROCS_MAX) := do
  let s ← get
  match s.current with
  | some p => return p
  | none => throw .null

theorem currentProcess_run {s : KState} {p : Fin PROCS_MAX} (h : s.current = some p) :
    currentProcess s = .ok p s := by
  unfold currentProcess
  rw [Fault.run_bind (Fault.get_ok.mpr ⟨rfl, rfl⟩), h]
  rfl

/-- The first free descriptor of a process. -/
def findFd (s : KState) (p : Fin PROCS_MAX) : Option (Fin NUM_FILES_PER_PROCESS) :=
  (List.finRange NUM_FILES_PER_PROCESS).find? fun fd => ((s.procs p).ofile fd).isNone

/-- Store a file in the descriptor table of the current process. -/
def installFd (f : Fin GLOBAL_OPEN_FILE_LIMIT) : Kern Int := do
  let p ← currentProcess
  let s ← get
  match findFd s p with
  | some fd =>
    modify fun s => s.putProc p
      { s.procs p with ofile := Function.update (s.procs p).ofile fd (some f) }
    return (fd : Nat)
  | none =>
    fileClose f
    return ERR_NO_SPACE

/-- `alloc_file_descriptor`. -/
def allocFileDescriptor (ip : Fin NINODE) (flags : Nat) : Kern Int := do
  match ← fileCreate .inode flags with
  | none =>
    iput ip
    return ERR_NO_SPACE
  | some f =>
    let I ← inodeAt ip
    modify fun s => s.putFile f
      { s.fileTable f with
        ip := some ip
        off := if hasFlag flags FILECTRL_APPEND then I.dinode.size else 0 }
    installFd f

/-! ## Opening -/

/-- The flags that need write access in `fs_create`. -/
def createMask : Nat :=
  FILECTRL_WRITEONLY ||| FILECTRL_CREATE ||| FILECTRL_TRUNCATE ||| FILECTRL_APPEND

/-- `fs_create` once the parent directory is known. -/
def fsCreateIn (dp : Fin NINODE) (name : List Byte) (flags : Nat) : Kern Int := do
  let D ← inodeAt dp
  match ← dirlookup dp name with
  | none =>
    match ← ialloc D.dev FT_FILE with
    | none =>
      iput dp
      return ERR_NO_SPACE
    | some ip =>
      let I ← inodeAt ip
      let r ← dirlink dp name I.inum
      if r < 0 then
        iput ip
        iput dp
        return ERR_NO_SPACE
      else
        iput dp
        allocFileDescriptor ip flags
  | some (ip, _) =>
    ilock ip
    let I ← inodeAt ip
    if hasFlag flags FILECTRL_TRUNCATE ∧ I.dinode.type = FT_FILE then
      itrunc ip 0
      iput dp
      allocFileDescriptor ip flags
    else
      iput dp
      allocFileDescriptor ip flags

/-- `fs_create`. -/
def fsCreate (path : List Byte) (flags : Nat) : Kern Int := do
  match ← namex path true with
  | (none, _) => return ERR_NOT_FOUND
  | (some dp, name) =>
    let D ← inodeAt dp
    if D.dev = 0 ∧ hasFlag flags createMask then
      iput dp
      return ERR_PERMISSION_DENIED
    else fsCreateIn dp name flags

/-- The string `"console"`. -/
def consolePath : List Byte := [0x63, 0x6f, 0x6e, 0x73, 0x6f, 0x6c, 0x65]

/-- `fs_open`. -/
def fsOpen (path : List Byte) (flags : Nat) : Kern Int := do
  if path = consolePath then
    match ← fileCreate .console flags with
    | none => return ERR_NO_SPACE
    | some f => installFd f
  else
    match ← namei path with
    | none => return ERR_NOT_FOUND
    | some ip =>
      ilock ip
      let I ← inodeAt ip
      if I.dev = 0 ∧ hasFlag flags (FILECTRL_WRITEONLY ||| FILECTRL_TRUNCATE) then
        iput ip
        return ERR_PERMISSION_DENIED
      else if hasFlag flags FILECTRL_TRUNCATE ∧ I.dinode.type = FT_FILE then
        itrunc ip 0
        allocFileDescriptor ip flags
      else allocFileDescriptor ip flags

/-! ## Calls on a descriptor -/

theorem descriptor_lt {fd : Int} (h : 0 ≤ fd ∧ fd < NUM_FILES_PER_PROCESS) :
    fd.toNat < NUM_FILES_PER_PROCESS := by
  omega

/-- The file behind a descriptor of the current process, if there is one. -/
def fdFile (fd : Int) : Kern (Option (Fin PROCS_MAX × Fin NUM_FILES_PER_PROCESS ×
    Fin GLOBAL_OPEN_FILE_LIMIT)) := do
  let p ← currentProcess
  let s ← get
  if h : 0 ≤ fd ∧ fd < NUM_FILES_PER_PROCESS then
    let i : Fin NUM_FILES_PER_PROCESS := ⟨fd.toNat, descriptor_lt h⟩
    return ((s.procs p).ofile i).map fun f => (p, i, f)
  else return none

/-- `fs_read`: the return value and the bytes stored in the user's buffer.  A
console read waits for input and touches no table; its bytes are left out. -/
def fsRead (fd n : Int) : Kern (Int × List Byte) := do
  match ← fdFile fd with
  | none => return (ERR_BAD_FILE, [])
  | some (_, _, f) =>
    let s ← get
    let F := s.fileTable f
    if F.type = .none then return (ERR_BAD_FILE, [])
    else if F.readable = false then return (ERR_PERMISSION_DENIED, [])
    else
      match F.type with
      | .console => return (n, [])
      | .inode =>
        match F.ip with
        | none => return (-1, [])
        | some ip =>
          let (r, bytes) ← readi ip F.off (toU32 n)
          if 0 < r then
            modify fun s => s.putFile f
              { s.fileTable f with off := ((s.fileTable f).off + r.toNat) % 2 ^ 32 }
            return (r, bytes)
          else return (r, bytes)
      | .none => throw .fileType

/-- `fs_write`. -/
def fsWrite (fd : Int) (buf : Buf) (n : Int) : Kern Int := do
  match ← fdFile fd with
  | none => return ERR_BAD_FILE
  | some (_, _, f) =>
    let s ← get
    let F := s.fileTable f
    if F.type = .none then return ERR_BAD_FILE
    else if F.writable = false then return ERR_PERMISSION_DENIED
    else
      match F.type with
      | .console => return n
      | .inode =>
        match F.ip with
        | none => return ERR_NO_SPACE
        | some ip =>
          let w ← writei ip buf F.off (toU32 n)
          if 0 < w then
            modify fun s => s.putFile f
              { s.fileTable f with off := ((s.fileTable f).off + w.toNat) % 2 ^ 32 }
            return w
          else if w < 0 then return ERR_NO_SPACE
          else return w
      | .none => throw .fileType

/-- `fs_close`. -/
def fsClose (fd : Int) : Kern Int := do
  match ← fdFile fd with
  | none => return ERR_BAD_FILE
  | some (p, i, f) =>
    let s ← get
    if (s.fileTable f).type = .none then return ERR_BAD_FILE
    else
      modify fun s => s.putProc p
        { s.procs p with ofile := Function.update (s.procs p).ofile i none }
      fileClose f
      return 0

/-- `fs_lseek`. -/
def fsLseek (fd offset whence : Int) : Kern Int := do
  match ← fdFile fd with
  | none => return ERR_BAD_FILE
  | some (_, _, f) =>
    let s ← get
    let F := s.fileTable f
    match F.ip with
    | none => return ERR_BAD_FILE
    | some ip =>
      let size := (s.inodeTable ip).dinode.size
      let newOff :=
        if whence = 0 then some (toInt32 (toU32 offset))
        else if whence = 1 then some (toInt32 (F.off + toU32 offset))
        else if whence = 2 then some (toInt32 (size + toU32 offset))
        else none
      match newOff with
      | none => return ERR_INVALID_ARGUMENT
      | some newOff =>
        if newOff < 0 then return ERR_INVALID_ARGUMENT
        else
          modify fun s => s.putFile f { s.fileTable f with off := newOff.toNat }
          return newOff

/-- `fs_ftruncate`. -/
def fsFtruncate (fd length : Int) : Kern Int := do
  match ← fdFile fd with
  | none => return ERR_BAD_FILE
  | some (_, _, f) =>
    let s ← get
    let F := s.fileTable f
    if F.writable = false then return ERR_PERMISSION_DENIED
    else if F.type = .none then return ERR_BAD_FILE
    else if length < 0 then return ERR_INVALID_ARGUMENT
    else
      match F.type, F.ip with
      | .inode, some ip =>
        itrunc ip (toU32 length)
        return 0
      | .inode, none => throw .null
      | _, _ => return ERR_INVALID_ARGUMENT

/-! ## Directories -/

/-- The entry `name -> inum` that `fs_mkdir` writes into a new directory. -/
def specialDirent (name : List Byte) (inum : Nat) : Dirent :=
  strncpy (Buf.put16 Buf.zero 0 inum) 2 name (DIRSIZ - 1)

/-- The part of `fs_mkdir` after the inode is allocated. -/
def fsMkdirFill (dp ip : Fin NINODE) (name : List Byte) : Kern Bool := do
  let D ← inodeAt dp
  let I ← inodeAt ip
  let w ← writei ip (specialDirent dot I.inum) 0 direntSize
  if w ≠ direntSize then return false
  else
    let w ← writei ip (specialDirent dotdot D.inum) direntSize direntSize
    if w ≠ direntSize then return false
    else
      let r ← dirlink dp name I.inum
      if r < 0 then return false else return true

/-- `fs_mkdir` once the parent directory is known. -/
def fsMkdirIn (dp : Fin NINODE) (name : List Byte) : Kern Int := do
  let D ← inodeAt dp
  match ← dirlookup dp name with
  | some (ip, _) =>
    iput ip
    iput dp
    return ERR_ALREADY_EXISTS
  | none =>
    match ← ialloc D.dev FT_DIRECTORY with
    | none =>
      iput dp
      return ERR_NO_SPACE
    | some ip =>
      let ok ← fsMkdirFill dp ip name
      iput ip
      iput dp
      if ok then return 0 else return ERR_NO_SPACE

/-- `fs_mkdir`. -/
def fsMkdir (path : List Byte) : Kern Int := do
  match ← namex path true with
  | (none, _) => return ERR_NOT_FOUND
  | (some dp, name) =>
    let D ← inodeAt dp
    if D.dev = 0 then
      iput dp
      return ERR_PERMISSION_DENIED
    else fsMkdirIn dp name

/-- The part of `fs_rm` that removes inode `ip` and its entry at `off`. -/
def fsRmEntry (dp ip : Fin NINODE) (off : Nat) : Kern Int := do
  let w ← writei dp Buf.zero off direntSize
  if w ≠ direntSize then
    iput ip
    iput dp
    return ERR_IO
  else
    itrunc ip 0
    setDinode ip (·.setType FT_UNUSED)
    iupdate ip
    iput ip
    iput dp
    return 0

/-- May `fs_rm` remove inode `ip`? -/
def removable (ip : Fin NINODE) : Kern Bool := do
  ilock ip
  let I ← inodeAt ip
  if I.dinode.type = FT_DIRECTORY then isDirEmpty ip else return true

/-- `fs_rm` once the parent directory is known. -/
def fsRmIn (dp : Fin NINODE) (name : List Byte) : Kern Int := do
  match ← dirlookup dp name with
  | none =>
    iput dp
    return ERR_NOT_FOUND
  | some (ip, off) =>
    let ok ← removable ip
    if ok then fsRmEntry dp ip off
    else
      iput ip
      iput dp
      return ERR_DIRECTORY_NOT_EMPTY

/-- `fs_rm`. -/
def fsRm (path : List Byte) : Kern Int := do
  match ← namex path true with
  | (none, _) => return ERR_NOT_FOUND
  | (some dp, name) =>
    let D ← inodeAt dp
    if D.dev = 0 then
      iput dp
      return ERR_PERMISSION_DENIED
    else fsRmIn dp name

/-- `fs_stat`: type and size. -/
def fsStat (path : List Byte) : Kern (Int × Nat × Nat) := do
  match ← namei path with
  | none => return (ERR_NOT_FOUND, 0, 0)
  | some ip =>
    ilock ip
    let I ← inodeAt ip
    iput ip
    return (0, I.dinode.type, I.dinode.size)

/-- `fs_chdir`: the working directory to be. -/
def fsChdir (path : List Byte) : Kern (Int × Option (Fin NINODE)) := do
  match ← namei path with
  | none => return (ERR_NOT_FOUND, none)
  | some ip =>
    ilock ip
    let I ← inodeAt ip
    if I.dinode.type ≠ FT_DIRECTORY then
      iput ip
      return (ERR_NOT_A_DIRECTORY, none)
    else return (0, some ip)

/-! ## Listing the root directory -/

/-- The scan `fs_get_file_name` and `fs_get_file_size` share: the entry with
index `index` among the entries of the root directory other than `.` and
`..`. -/
def rootEntry (dp : Fin NINODE) (index : Int) : Nat → Nat → Int → Kern (Option Dirent)
  | 0, _, _ => return none
  | k + 1, off, current => do
    let I ← inodeAt dp
    if I.dinode.size ≤ off then return none
    else
      match ← readDirent dp off with
      | none => return none
      | some de =>
        if de.inum = 0 ∨ cstr de.name DIRSIZ = dot ∨ cstr de.name DIRSIZ = dotdot then
          rootEntry dp index k (off + direntSize) current
        else if current = index then return some de
        else rootEntry dp index k (off + direntSize) (current + 1)

/-- `fs_get_file_name`: the return value and the name stored.  A name that
fills all its bytes has no NUL, and `strlen` goes on over what lies behind the
entry on the stack: `behind` are the bytes there up to the first NUL. -/
def fsGetFileName (index bufLen : Int) (behind : List Byte) : Kern (Int × List Byte) := do
  if bufLen ≤ 0 then return (-1, [])
  else
    let dp ← iget 0 1
    ilock dp
    let I ← inodeAt dp
    match ← rootEntry dp index (I.dinode.size / direntSize + 1) 0 0 with
    | none =>
      iput dp
      return (-1, [])
    | some de =>
      let name := cstr de.name DIRSIZ
      let str := if name.length = DIRSIZ then name ++ behind else name
      iput dp
      return (0, str.take (bufLen.toNat - 1))

/-- `fs_get_file_size`. -/
def fsGetFileSize (index : Int) : Kern Int := do
  let dp ← iget 0 1
  ilock dp
  let I ← inodeAt dp
  match ← rootEntry dp index (I.dinode.size / direntSize + 1) 0 0 with
  | none =>
    iput dp
    return -1
  | some de =>
    let ip ← iget 0 de.inum
    ilock ip
    let I ← inodeAt ip
    iput ip
    iput dp
    return I.dinode.size

end Dmaos
