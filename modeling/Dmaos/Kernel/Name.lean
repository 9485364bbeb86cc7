import Dmaos.Kernel.Inode

/-!
# Names and paths

The string functions the file system uses, directory entries (`dirlookup`,
`dirlink`, `is_dir_empty`) and path resolution (`skipto`, `namex`).

A C string is the list of its bytes without the terminating NUL.
-/

namespace Dmaos

/-! ## Strings -/

/-- A C string: its bytes, none of which is NUL. -/
def CString : Type := { l : List Byte // 0 ∉ l }

/-- The byte `'/'`. -/
def slash : Byte := 0x2f

/-- The string `"."`. -/
def dot : List Byte := [0x2e]

/-- The string `".."`. -/
def dotdot : List Byte := [0x2e, 0x2e]

/-- `strncmp(s1, s2, n) == 0`. -/
def strncmpEq (s1 s2 : Buf) : Nat → Nat → Bool
  | 0, _ => true
  | n + 1, i => if s1 i ≠ 0 ∧ s1 i = s2 i then strncmpEq s1 s2 n (i + 1) else s1 i == s2 i

/-- The C string in a buffer of `n` bytes: what stands before the first NUL. -/
def cstr (b : Buf) (n : Nat) : List Byte := (b.slice 0 n).takeWhile (· ≠ 0)

/-- `strncpy` of a string into a buffer of `n` bytes: the rest becomes NUL. -/
def strncpy (dst : Buf) (off : Nat) (src : List Byte) (n : Nat) : Buf :=
  dst.copy off (Buf.ofList src) n

/-! ## Directory entries -/

/-- An entry read by `readi`, as the bytes it stored. -/
def readDirent (ip : Fin NINODE) (off : Nat) : Kern (Option Dirent) := do
  let (r, bytes) ← readi ip off direntSize
  if r = direntSize then return some (Buf.ofList bytes) else return none

/-- The loop of `dirlookup`, from offset `off` on. -/
def dirlookupLoop (dp : Fin NINODE) (name : List Byte) :
    Nat → Nat → Kern (Option (Fin NINODE × Nat))
  | 0, _ => return none
  | k + 1, off => do
    let I ← inodeAt dp
    if I.dinode.size ≤ off then return none
    else
      match ← readDirent dp off with
      | none => return none
      | some de =>
        if de.inum = 0 then dirlookupLoop dp name k (off + direntSize)
        else if strncmpEq (Buf.ofList name) de.name DIRSIZ 0 then
          let ip ← iget I.dev de.inum
          return some (ip, off)
        else dirlookupLoop dp name k (off + direntSize)

/-- `dirlookup`: the inode of the entry and the offset of the entry. -/
def dirlookup (dp : Fin NINODE) (name : List Byte) : Kern (Option (Fin NINODE × Nat)) := do
  let I ← inodeAt dp
  if I.dinode.type ≠ FT_DIRECTORY then return none
  else
    ilock dp
    let I ← inodeAt dp
    dirlookupLoop dp name (I.dinode.size / direntSize + 1) 0

/-- The search of `dirlink` for a free entry: the offset where the new entry
goes, or nothing when an entry cannot be read. -/
def dirlinkLoop (dp : Fin NINODE) : Nat → Nat → Kern (Option Nat)
  | 0, off => return some off
  | k + 1, off => do
    let I ← inodeAt dp
    if I.dinode.size ≤ off then return some off
    else
      match ← readDirent dp off with
      | none => return none
      | some de =>
        if de.inum = 0 then return some off
        else dirlinkLoop dp k (off + direntSize)

/-- The entry `dirlink` writes. -/
def newDirent (name : List Byte) (inum : Nat) : Dirent :=
  Function.update (strncpy (Buf.put16 Buf.zero 0 inum) 2 name DIRSIZ) (2 + (DIRSIZ - 1)) 0

/-- `dirlink`. -/
def dirlink (dp : Fin NINODE) (name : List Byte) (inum : Nat) : Kern Int := do
  match ← dirlookup dp name with
  | some (ip, _) =>
    iput ip
    return -1
  | none =>
    ilock dp
    let I ← inodeAt dp
    match ← dirlinkLoop dp (I.dinode.size / direntSize + 1) 0 with
    | none => return -1
    | some off =>
      let w ← writei dp (newDirent name inum) off direntSize
      if w = direntSize then return 0 else return -1

/-- The loop of `is_dir_empty`. -/
def isDirEmptyLoop (ip : Fin NINODE) : Nat → Nat → Kern Bool
  | 0, _ => return true
  | k + 1, off => do
    let I ← inodeAt ip
    if I.dinode.size ≤ off then return true
    else
      match ← readDirent ip off with
      | none => return false
      | some de =>
        if de.inum ≠ 0 ∧ cstr de.name DIRSIZ ≠ dot ∧ cstr de.name DIRSIZ ≠ dotdot then
          return false
        else isDirEmptyLoop ip k (off + direntSize)

/-- `is_dir_empty`. -/
def isDirEmpty (ip : Fin NINODE) : Kern Bool := do
  let I ← inodeAt ip
  isDirEmptyLoop ip (I.dinode.size / direntSize + 1) 0

/-! ## Paths -/

/-- `skipto`: the next component of a path, cut to `DIRSIZ - 1` bytes, and the
path after it without leading slashes. -/
def skipto (path : List Byte) : Option (List Byte × List Byte) :=
  match path.dropWhile (· = slash) with
  | [] => none
  | p => some ((p.takeWhile (· ≠ slash)).take (DIRSIZ - 1),
      (p.dropWhile (· ≠ slash)).dropWhile (· = slash))

/-- The upward traversal of `namex`: `..` at the root of a mounted device is
looked up in the directory it is mounted on. -/
def mountParent (ip : Fin NINODE) (name : List Byte) : Kern (Option (Fin NINODE)) := do
  let I ← inodeAt ip
  if name = dotdot ∧ I.inum = 1 ∧ I.dev ≠ 0 then
    let s ← get
    match s.mounts.find? (fun m => m.childDev == I.dev) with
    | none => return none
    | some m =>
      let pm ← iget m.parentDev m.parentInum
      ilock pm
      let next ← dirlookup pm dotdot
      iput pm
      return next.map Prod.fst
  else return none

/-- The downward traversal of `namex`: a mount point is replaced by the root
of the device mounted on it. -/
def mountChild (next : Fin NINODE) : Kern (Fin NINODE) := do
  let N ← inodeAt next
  let s ← get
  match s.mounts.find? (fun m => m.parentDev == N.dev && m.parentInum == N.inum) with
  | none => return next
  | some m =>
    iput next
    iget m.childDev 1

/-- The inode `name` leads to from directory `ip`, before mount points are
taken into account on the way down. -/
def namexNext (ip : Fin NINODE) (name : List Byte) : Kern (Option (Fin NINODE)) := do
  match ← mountParent ip name with
  | some next => return some next
  | none =>
    let r ← dirlookup ip name
    return r.map Prod.fst

/-- The loop of `namex`.  With `parent`, the directory that holds the last
component and that component. -/
def namexLoop (parent : Bool) :
    Nat → List Byte → Fin NINODE → List Byte → Kern (Option (Fin NINODE) × List Byte)
  | 0, _, ip, name => return (some ip, name)
  | k + 1, path, ip, name => do
    match skipto path with
    | none =>
      if parent then
        iput ip
        return (none, name)
      else return (some ip, name)
    | some (name, path) =>
      ilock ip
      let I ← inodeAt ip
      if I.dinode.type ≠ FT_DIRECTORY then
        iput ip
        return (none, name)
      else if parent ∧ path = [] then return (some ip, name)
      else
        match ← namexNext ip name with
        | none =>
          iput ip
          return (none, name)
        | some next =>
          let next ← mountChild next
          iput ip
          namexLoop parent k path next name

/-- Where `namex` starts: the root for an absolute path, else the working
directory of the current process. -/
def namexStart (path : List Byte) : Kern (Fin NINODE) := do
  let s ← get
  if path.head? = some slash then iget 0 1
  else
    match s.current.bind (fun p => (s.procs p).cwd) with
    | some cwd => iget (s.inodeTable cwd).dev (s.inodeTable cwd).inum
    | none => iget 0 1

/-- `namex`. -/
def namex (path : List Byte) (parent : Bool) : Kern (Option (Fin NINODE) × List Byte) := do
  let ip ← namexStart path
  namexLoop parent (path.length + 1) path ip []

/-- `namei`. -/
def namei (path : List Byte) : Kern (Option (Fin NINODE)) := do
  let (ip, _) ← namex path false
  return ip

/-! ## `fs_normalize_path` -/

/-- Bytes of a path with its NUL. -/
def MAX_PATH : Nat := 256

/-- Components `fs_normalize_path` has room for. -/
def MAX_PATH_DEPTH : Nat := 32

/-- Bytes of a component with its NUL. -/
def MAX_FILENAME : Nat := 128

/-- `strncat(dst, src, n)`. -/
def strncat (dst src : List Byte) (n : Nat) : List Byte := dst ++ src.take n

/-- The path `fs_normalize_path` works on, in a buffer of `MAX_PATH` bytes.
`strncpy` of a base of `MAX_PATH - 1` bytes leaves the last byte of the buffer as
it was, and `strlen` goes on, without a check, to the first NUL behind it. -/
def joinPath (base rel : List Byte) : Kern (List Byte) :=
  if rel.head? = some slash then return rel.take (MAX_PATH - 1)
  else if MAX_PATH - 1 ≤ base.length then throw (.outOfBounds (MAX_PATH - 1))
  else
    let buf := if base ≠ [] ∧ base.getLast? ≠ some slash then
      strncat base [slash] (MAX_PATH - base.length - 1) else base
    return strncat buf rel (MAX_PATH - buf.length - 1)

/-- One component is taken into account: `.` is skipped, `..` removes the last
one, any other is added if there is room. -/
def pushToken (tokens : List (List Byte)) (tok : List Byte) : List (List Byte) :=
  if tok = dot then tokens
  else if tok = dotdot then tokens.dropLast
  else if 0 < tok.length then
    if tokens.length < MAX_PATH_DEPTH then tokens ++ [tok.take (MAX_FILENAME - 1)] else tokens
  else tokens

/-- The loop of `fs_normalize_path` over the components. -/
def tokenLoop : Nat → List Byte → List (List Byte) → List (List Byte)
  | 0, _, tokens => tokens
  | k + 1, p, tokens =>
    if p = [] then tokens
    else
      let tokens := pushToken tokens (p.takeWhile (· ≠ slash))
      match p.dropWhile (· ≠ slash) with
      | [] => tokens
      | _ :: rest => tokenLoop k (rest.dropWhile (· = slash)) tokens

/-- The loop of `fs_normalize_path` that puts the components together. -/
def joinTokens (dstLen : Nat) : Nat → List (List Byte) → List Byte → List Byte
  | _, [], dst => dst
  | i, tok :: tokens, dst =>
    let dst := if 0 < i ∨ 1 < dst.length then strncat dst [slash] (dstLen - dst.length - 1) else dst
    joinTokens dstLen (i + 1) tokens (strncat dst tok (dstLen - dst.length - 1))

/-- `fs_normalize_path`: the string stored in `dst`. -/
def fsNormalizePath (base rel : List Byte) (dstLen : Nat) : Kern (List Byte) := do
  let buf ← joinPath base rel
  return joinTokens dstLen 0 (tokenLoop (buf.length + 1) (buf.dropWhile (· = slash)) []) [slash]

end Dmaos
