import Dmaos.Kernel.Inode

/-!
# The program that makes a file system

`mkfs` builds an image in memory and writes it to a file.  It takes inode
numbers and blocks one after the other and never gives one back.  The blocks
of a file are written while the file is read; the inodes, the contents of the
directories and the free map are kept in memory until everything has been
added.

`add_file` has three tables in memory: the single-indirect table, the root of
the double-indirect blocks, and the second-level table it is filling.  They
are its `Locals`, and `flush` writes what is left of them after the loop.

What the tables, the block buffer and the directory entries hold before they
are assigned is not known.  `junk n k` stands for the content of local `k` in
the call that takes inode number `n`; no two calls take the same one.

The tree on the host is a list of `Node`s.
-/

namespace Dmaos.Mkfs

open Function

/-- Blocks of the image. -/
def DISK_SIZE_BLOCKS : Nat := 8192

/-- The most entries of a directory, and the number of inodes. -/
def MAX_DIR_ENTRIES : Nat := 64

/-- Why `mkfs` exits with status 1. -/
inductive Exit where
  /-- `error: out of disk blocks` -/
  | outOfBlocks
  /-- `error: out of inodes` -/
  | outOfInodes
  /-- `error: directory name '%s' too long (max %d chars)` -/
  | dirNameTooLong (name : List Byte)
  /-- `error: parent directory not found in dirs array` -/
  | parentNotFound
  /-- `error: directory full` -/
  | directoryFull
  /-- `error: directory path too long` -/
  | dirPathTooLong
  /-- `error: filename '%s' too long (max %d chars)` -/
  | filenameTooLong (name : List Byte)
  /-- `error: cannot open file %s` -/
  | cannotOpenFile
  /-- `error: file '%s' too large (max %d bytes)` -/
  | fileTooLarge (name : List Byte)
  /-- `error: target directory not found` -/
  | targetNotFound
  /-- `error: could not open host directory %s` -/
  | cannotOpenDir
  /-- `error: stat failed for %s` -/
  | statFailed
  /-- `error: directory too large` -/
  | directoryTooLarge
  /-- A string does not fit its buffer of 256 bytes, which C leaves undefined. -/
  | overflow
deriving DecidableEq

/-- `struct mkfs_dir`: a directory that is being filled. -/
structure MkfsDir where
  inum : Nat
  /-- The path from the root, without a leading slash. -/
  path : List Byte
  /-- `entries[0 .. entry_count)`. -/
  entries : List Dirent

/-- The variables of `mkfs`. -/
structure State where
  disk : Nat → Buf
  freeBitmap : Buf
  freeblock : Nat
  freeinode : Nat
  fileInodes : Nat → Dinode
  /-- `dirs[0 .. num_dirs)`. -/
  dirs : List MkfsDir

/-- The code of `mkfs`: it returns, or the program exits. -/
abbrev Make := EStateM Exit State

/-! ## Blocks and inodes -/

/-- `mark_allocated`. -/
def markAllocated (block : Nat) : Make Unit :=
  modify fun m => { m with freeBitmap := m.freeBitmap.setBit block }

/-- `balloc`. -/
def balloc : Make Nat := do
  let m ← get
  if DISK_SIZE_BLOCKS ≤ m.freeblock then throw .outOfBlocks
  else
    modify fun m => { m with freeblock := m.freeblock + 1 }
    markAllocated m.freeblock
    return m.freeblock

/-- `write_block`. -/
def writeBlock (block : Nat) (buf : Buf) : Make Unit :=
  modify fun m => { m with disk := update m.disk block buf }

/-- The next inode number, as `get_or_create_dir` and `add_file` take it. -/
def nextInode : Make Nat := do
  let m ← get
  modify fun m => { m with freeinode := m.freeinode + 1 }
  if MAX_DIR_ENTRIES ≤ m.freeinode then throw .outOfInodes else return m.freeinode

/-- `file_inodes[inum]`. -/
def inodeOf (inum : Nat) : Make Dinode := do
  let m ← get
  return m.fileInodes inum

/-- An assignment to fields of `file_inodes[inum]`. -/
def setInode (inum : Nat) (f : Dinode → Dinode) : Make Unit :=
  modify fun m =>
    { m with fileInodes := update m.fileInodes inum (f (m.fileInodes inum)) }

/-- The fields set when an inode is taken. -/
def initInode (inum type : Nat) : Make Unit :=
  setInode inum fun ip => ((ip.setType type).setNlink 1).setSize 0

/-! ## Paths -/

/-- The part of a path before its last slash, and the part after it. -/
def splitLast (path : List Byte) : List Byte × List Byte :=
  (((path.reverse.dropWhile (· ≠ 0x2f)).drop 1).reverse,
    (path.reverse.takeWhile (· ≠ 0x2f)).reverse)

/-- `strcpy` into an array of 256 bytes. -/
def copyString (s : List Byte) : Make (List Byte) :=
  if 256 ≤ s.length then throw .overflow else return s

/-- A `struct fsdirent` after its two fields have been assigned; `de` is what
was there before. -/
def direntOf (de : Dirent) (inum : Nat) (name : List Byte) : Dirent :=
  (de.put16 0 inum).copy 2 (Buf.ofList name) (name.length + 1)

/-! ## Directories -/

/-- The first directory with the given inode number gets an entry. -/
def addEntry (inum : Nat) (de : Dirent) (missing : Exit) : Make Unit := do
  let m ← get
  match m.dirs.findIdx? (·.inum == inum) with
  | none => throw missing
  | some i =>
    match m.dirs[i]? with
    | none => throw missing
    | some d =>
      if MAX_DIR_ENTRIES ≤ d.entries.length then throw .directoryFull
      else modify fun m => { m with dirs := m.dirs.set i { d with entries := d.entries ++ [de] } }

section

variable (junk : Nat → Nat → Buf)

/-- `get_or_create_dir`.  The first argument bounds the depth of the path. -/
def getOrCreateDir : Nat → List Byte → Make Nat
  | 0, _ => return 1
  | k + 1, dirPath => do
    if dirPath = [] then return 1
    else
      let m ← get
      match m.dirs.find? (·.path == dirPath) with
      | some d => return d.inum
      | none =>
        let parentPath ← copyString (splitLast dirPath).1
        let dirName ← copyString (splitLast dirPath).2
        if DIRSIZ ≤ dirName.length then throw (.dirNameTooLong dirName)
        else
          let parentInum ← getOrCreateDir k parentPath
          let inum ← nextInode
          initInode inum FT_DIRECTORY
          let path ← copyString dirPath
          modify fun m => { m with dirs := m.dirs ++
            [⟨inum, path, [direntOf (junk inum 0) inum [0x2e],
              direntOf (junk inum 1) parentInum [0x2e, 0x2e]]⟩] }
          addEntry parentInum (direntOf (junk inum 2) inum dirName) .parentNotFound
          return inum

/-! ## Files -/

/-- The value of `active_d_idx` before there is a second-level table. -/
def noTable : Nat := 0xFFFFFFFF

/-- The locals of `add_file` that its loop carries. -/
structure Locals where
  blockIndex : Nat
  indirectBlock : Nat
  indirectAddrs : Buf
  dindirectAddrs : Buf
  dsubAddrs : Buf
  activeDIdx : Nat

/-- The single-indirect table gets a block when it has none. -/
def openIndirect (inum : Nat) (l : Locals) : Make Locals :=
  if l.indirectBlock = 0 then do
    let indirectBlock ← balloc
    setInode inum (·.setAddr NDIRECT indirectBlock)
    return { l with indirectBlock, indirectAddrs := Buf.zero }
  else return l

/-- The root of the double-indirect blocks gets a block when it has none. -/
def openDindirect (inum : Nat) (l : Locals) : Make Locals := do
  let ip ← inodeOf inum
  if ip.addr (NDIRECT + 1) = 0 then
    let root ← balloc
    setInode inum (·.setAddr (NDIRECT + 1) root)
    return { l with dindirectAddrs := Buf.zero }
  else return l

/-- The second-level table in memory is written to its block. -/
def flushSub (l : Locals) : Make Unit :=
  if l.activeDIdx ≠ noTable ∧ entry l.dindirectAddrs l.activeDIdx ≠ 0 then
    writeBlock (entry l.dindirectAddrs l.activeDIdx) l.dsubAddrs
  else return ()

/-- Second-level table `dIdx` becomes the one in memory, and gets a block when
it has none. -/
def openSub (dIdx : Nat) (l : Locals) : Make Locals :=
  if dIdx ≠ l.activeDIdx then do
    flushSub l
    let l := { l with dsubAddrs := Buf.zero, activeDIdx := dIdx }
    if entry l.dindirectAddrs dIdx = 0 then
      let table ← balloc
      return { l with dindirectAddrs := setEntry l.dindirectAddrs dIdx table }
    else return l
  else return l

/-- Block `db` becomes the next block of the file. -/
def placeBlock (inum : Nat) (filePart : List Byte) (db : Nat) (l : Locals) : Make Locals :=
  if l.blockIndex < NDIRECT then do
    setInode inum (·.setAddr l.blockIndex db)
    return l
  else if l.blockIndex - NDIRECT < NINDIRECT then do
    let l ← openIndirect inum l
    return { l with indirectAddrs := setEntry l.indirectAddrs (l.blockIndex - NDIRECT) db }
  else
    let dfbn := l.blockIndex - NDIRECT - NINDIRECT
    if NDINDIRECT ≤ dfbn then throw (.fileTooLarge filePart)
    else do
      let l ← openDindirect inum l
      let l ← openSub (dfbn / NINDIRECT) l
      return { l with dsubAddrs := setEntry l.dsubAddrs (dfbn % NINDIRECT) db }

/-- The loop of `add_file`: `rest` is what is left of the file, and `fread`
gives whole blocks of it but for the last. -/
def fileLoop (inum : Nat) (filePart : List Byte) :
    Nat → List Byte → Buf → Locals → Make Locals
  | 0, _, _, l => return l
  | k + 1, rest, fileBuf, l =>
    if rest = [] then return l
    else do
      let n := min BSIZE rest.length
      let fileBuf := fileBuf.copy 0 (Buf.ofList rest) n
      let db ← balloc
      writeBlock db fileBuf
      setInode inum fun ip => ip.setSize (ip.size + n)
      let l ← placeBlock inum filePart db l
      fileLoop inum filePart k (rest.drop BSIZE) Buf.zero { l with blockIndex := l.blockIndex + 1 }

/-- The single-indirect table is written to its block. -/
def flushIndirect (l : Locals) : Make Unit :=
  if l.indirectBlock ≠ 0 then writeBlock l.indirectBlock l.indirectAddrs else return ()

/-- The double-indirect tables are written to their blocks. -/
def flushDindirect (inum : Nat) (l : Locals) : Make Unit := do
  let ip ← inodeOf inum
  if ip.addr (NDIRECT + 1) ≠ 0 then
    writeBlock (ip.addr (NDIRECT + 1)) l.dindirectAddrs
    flushSub l
  else return ()

/-- The tables still in memory are written after the loop. -/
def flush (inum : Nat) (l : Locals) : Make Unit := do
  flushIndirect l
  flushDindirect inum l

/-- The locals before the loop. -/
def Locals.init (inum : Nat) : Locals where
  blockIndex := 0
  indirectBlock := 0
  indirectAddrs := Buf.zero
  dindirectAddrs := Buf.zero
  dsubAddrs := junk inum 1
  activeDIdx := noTable

/-- The part of `add_file` between `fopen` and the search for the directory:
the file gets an inode, and its bytes are stored. -/
def storeFile (filePart : List Byte) (content : List Byte) : Make Nat := do
  let inum ← nextInode
  initInode inum FT_FILE
  let l ← fileLoop inum filePart content.length content (junk inum 0) (Locals.init junk inum)
  flush inum l
  return inum

/-- `add_file`.  `content` is `none` when the file cannot be opened.  The inode
number of the file is returned for reference. -/
def addFile (fsPath : List Byte) (content : Option (List Byte)) : Make Nat := do
  let dirPart := (splitLast fsPath).1
  if 256 ≤ dirPart.length then throw .dirPathTooLong
  else
    let filePart ← copyString (splitLast fsPath).2
    if DIRSIZ ≤ filePart.length then throw (.filenameTooLong filePart)
    else
      match content with
      | none => throw .cannotOpenFile
      | some content =>
        let inum ← storeFile junk filePart content
        let dirInum ← getOrCreateDir junk (dirPart.length + 1) dirPart
        addEntry dirInum (direntOf (junk inum 2) inum filePart) .targetNotFound
        return inum

/-! ## The tree on the host -/

/-- A file or directory on the host.  The contents are `none` when they cannot
be opened. -/
inductive Node where
  | file (name : List Byte) (content : Option (List Byte))
  | dir (name : List Byte) (nodes : Option (List Node))
  /-- Neither a file nor a directory. -/
  | other (name : List Byte)
  /-- `stat` fails. -/
  | missing (name : List Byte)

/-- The path of a node on the image: `snprintf` keeps 255 bytes. -/
def nextFs (fsPath name : List Byte) : List Byte :=
  if fsPath = [] then name.take 255 else (fsPath ++ 0x2f :: name).take 255

/-- The entries `.` and `..` are skipped. -/
def skipped (name : List Byte) : Bool := name == [0x2e] || name == [0x2e, 0x2e]

mutual

/-- One iteration of the loop of `traverse_dir`. -/
def traverseNode (fsPath : List Byte) : Node → Make Unit
  | .file name content =>
    if skipped name then return ()
    else do
      let _ ← addFile junk (nextFs fsPath name) content
  | .dir name nodes =>
    if skipped name then return ()
    else do
      let _ ← getOrCreateDir junk ((nextFs fsPath name).length + 1) (nextFs fsPath name)
      match nodes with
      | none => throw .cannotOpenDir
      | some nodes => traverseDir (nextFs fsPath name) nodes
  | .other _ => return ()
  | .missing name => if skipped name then return () else throw .statFailed

/-- `traverse_dir`. -/
def traverseDir (fsPath : List Byte) : List Node → Make Unit
  | [] => return ()
  | node :: nodes => do
    traverseNode fsPath node
    traverseDir fsPath nodes

end

/-! ## The image -/

/-- The variables after the initialisation in `main`. -/
def start : State where
  disk := update (fun _ => Buf.zero) 1
    ((((((Buf.zero.put32 0 0x10203040).put32 4 DISK_SIZE_BLOCKS).put32 8
      (DISK_SIZE_BLOCKS - 7)).put32 12 MAX_DIR_ENTRIES).put32 16 2).put32 20 6)
  freeBitmap := (List.range 7).foldl Buf.setBit Buf.zero
  freeblock := 7
  freeinode := 2
  fileInodes := update (fun _ => Buf.zero) 1
    (((Dinode.setType Buf.zero FT_DIRECTORY).setNlink 1).setSize 0)
  dirs := [⟨1, [], [direntOf (junk 1 0) 1 [0x2e], direntOf (junk 1 1) 1 [0x2e, 0x2e]]⟩]

/-- The bytes of `dir->entries`. -/
def MkfsDir.bytes (d : MkfsDir) : List Byte := d.entries.flatMap fun de => de.slice 0 direntSize

/-- The inner loop of `main`: the blocks of a directory from `blockIdx` on. -/
def dirBlocks (inum : Nat) : Nat → Nat → List Byte → Make Unit
  | 0, _, _ => return ()
  | k + 1, blockIdx, bytes => do
    let db ← balloc
    writeBlock db (Buf.zero.copy 0 (Buf.ofList bytes) (min BSIZE bytes.length))
    setInode inum (·.setAddr blockIdx db)
    dirBlocks inum k (blockIdx + 1) (bytes.drop BSIZE)

/-- The contents of a directory are written. -/
def writeDir (d : MkfsDir) : Make Unit := do
  setInode d.inum (·.setSize d.bytes.length)
  let needed := (d.bytes.length + BSIZE - 1) / BSIZE
  if NDIRECT < needed then throw .directoryTooLarge
  else dirBlocks d.inum needed 0 d.bytes

/-- The contents of all directories are written. -/
def writeDirs : List MkfsDir → Make Unit
  | [] => return ()
  | d :: ds => do
    writeDir d
    writeDirs ds

/-- A block of the inode table. -/
def inodeBlock (fileInodes : Nat → Dinode) (block : Nat) : Buf := fun i =>
  let inum := (block - 2) * inodesPerBlock + i / dinodeSize
  if 1 ≤ inum ∧ inum < MAX_DIR_ENTRIES then fileInodes inum (i % dinodeSize) else 0

/-- `main` after the tree has been added: directories, inodes and free map. -/
def finish : Make Unit := do
  let m ← get
  writeDirs m.dirs
  let m ← get
  writeBlock 2 (inodeBlock m.fileInodes 2)
  writeBlock 3 (inodeBlock m.fileInodes 3)
  writeBlock 4 (inodeBlock m.fileInodes 4)
  writeBlock 5 (inodeBlock m.fileInodes 5)
  let m ← get
  writeBlock 6 m.freeBitmap

end

end Dmaos.Mkfs
