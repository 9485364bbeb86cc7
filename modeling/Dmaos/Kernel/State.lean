import Dmaos.Lib.Fault
import Dmaos.Lib.Buf
import Mathlib.Logic.Function.Basic

/-!
# The state of the kernel

The tables the file system works on: the two block devices, the superblocks
read from them, the in-memory inode cache, the mount table, the table of open
files and the process table.  A `struct inode *` or `struct File *` is the
index of its slot, and a pointer that may be `NULL` is an `Option`.

An on-disk inode is kept as its 128 bytes.  `struct dinode` is
`aligned(128)`, so the copy between a block and the cache moves 128 bytes,
padding included.  The fields are read off and stored into the bytes.

A system call runs in `Kern`.  It returns a value, or the kernel stops: at a
`PANIC`, or at an access outside a buffer, which C leaves undefined.

`writes` is not a variable of the kernel.  It lists the `write_block` calls
made since boot, oldest first.
-/

namespace Dmaos

open Function

/-! ## Constants -/

/-- Bytes of a block. -/
def BSIZE : Nat := 1024

/-- Block addresses held in an inode directly. -/
def NDIRECT : Nat := 12

/-- Block addresses held in one table block. -/
def NINDIRECT : Nat := 256

/-- Block addresses reached through the double-indirect table. -/
def NDINDIRECT : Nat := NINDIRECT * NINDIRECT

/-- Blocks of the largest file. -/
def MAXFILE : Nat := NDIRECT + NINDIRECT + NDINDIRECT

/-- Bytes of a directory entry's name. -/
def DIRSIZ : Nat := 30

/-- Slots of the in-memory inode cache. -/
abbrev NINODE : Nat := 50

/-- Slots of the table of open files. -/
abbrev GLOBAL_OPEN_FILE_LIMIT : Nat := 64

/-- Descriptors of a process. -/
abbrev NUM_FILES_PER_PROCESS : Nat := 16

/-- Slots of the process table. -/
abbrev PROCS_MAX : Nat := 8

/-- `sizeof(struct dinode)`. -/
def dinodeSize : Nat := 128

/-- `inodes_per_block`: `BSIZE / sizeof(struct dinode)`. -/
def inodesPerBlock : Nat := BSIZE / dinodeSize

/-- `sizeof(struct fsdirent)`. -/
def direntSize : Nat := 32

/-- `enum FileType`. -/
def FT_UNUSED : Nat := 0
@[inherit_doc FT_UNUSED] def FT_DIRECTORY : Nat := 1
@[inherit_doc FT_UNUSED] def FT_FILE : Nat := 2

/-- The flags of `open`. -/
def FILECTRL_READONLY : Nat := 0x001
@[inherit_doc FILECTRL_READONLY] def FILECTRL_WRITEONLY : Nat := 0x002
@[inherit_doc FILECTRL_READONLY] def FILECTRL_CREATE : Nat := 0x004
@[inherit_doc FILECTRL_READONLY] def FILECTRL_TRUNCATE : Nat := 0x008
@[inherit_doc FILECTRL_READONLY] def FILECTRL_APPEND : Nat := 0x010

/-- `enum Errno`, the members the file system returns. -/
def ERR_NOT_FOUND : Int := -2
@[inherit_doc ERR_NOT_FOUND] def ERR_IO : Int := -5
@[inherit_doc ERR_NOT_FOUND] def ERR_BAD_FILE : Int := -9
@[inherit_doc ERR_NOT_FOUND] def ERR_PERMISSION_DENIED : Int := -13
@[inherit_doc ERR_NOT_FOUND] def ERR_ALREADY_EXISTS : Int := -17
@[inherit_doc ERR_NOT_FOUND] def ERR_NOT_A_DIRECTORY : Int := -20
@[inherit_doc ERR_NOT_FOUND] def ERR_INVALID_ARGUMENT : Int := -22
@[inherit_doc ERR_NOT_FOUND] def ERR_NO_SPACE : Int := -28
@[inherit_doc ERR_NOT_FOUND] def ERR_DIRECTORY_NOT_EMPTY : Int := -39

/-! ## On-disk structures -/

/-- `struct superblock`, as read from block 1. -/
structure Superblock where
  /-- Must be `XV6_FS_MAGIC`. -/
  magic : Nat
  /-- Size of the image in blocks. -/
  size : Nat
  /-- Number of data blocks; `balloc` uses it as a bound on block numbers. -/
  nblocks : Nat
  /-- Number of inodes. -/
  ninodes : Nat
  /-- First block of the inode table. -/
  inodestart : Nat
  /-- The block of the free map. -/
  bmapstart : Nat
deriving DecidableEq

/-- The superblock stored at the start of a block. -/
def Superblock.ofBuf (b : Buf) : Superblock where
  magic := b.le32 0
  size := b.le32 4
  nblocks := b.le32 8
  ninodes := b.le32 12
  inodestart := b.le32 16
  bmapstart := b.le32 20

/-- `struct dinode`: its 128 bytes. -/
abbrev Dinode := Buf

namespace Dinode

/-- The file type. -/
def type (d : Dinode) : Nat := d.le16 0

/-- The number of links. -/
def nlink (d : Dinode) : Nat := d.le16 6

/-- The size of the file in bytes. -/
def size (d : Dinode) : Nat := d.le32 8

/-- Entry `i` of `addrs`. -/
def addr (d : Dinode) (i : Nat) : Nat := d.le32 (12 + 4 * i)

def setType (d : Dinode) (v : Nat) : Dinode := d.put16 0 v

def setNlink (d : Dinode) (v : Nat) : Dinode := d.put16 6 v

def setSize (d : Dinode) (v : Nat) : Dinode := d.put32 8 v

def setAddr (d : Dinode) (i v : Nat) : Dinode := d.put32 (12 + 4 * i) v

/-- `memset(addrs, 0, sizeof(addrs))`. -/
def clearAddrs (d : Dinode) : Dinode := d.copy 12 Buf.zero 56

end Dinode

/-- `struct fsdirent`: its 32 bytes. -/
abbrev Dirent := Buf

namespace Dirent

/-- The inode number of an entry; zero marks a free entry. -/
def inum (de : Dirent) : Nat := de.le16 0

/-- The 30 bytes of the name. -/
def name (de : Dirent) : Buf := fun i => de (2 + i)

end Dirent

/-! ## Tables in memory -/

/-- `struct inode`: a slot of the inode cache. -/
structure Inode where
  /-- The device. -/
  dev : Nat
  /-- The inode number. -/
  inum : Nat
  /-- The reference count; a slot is free when it is zero. -/
  ref : Int
  /-- Has the content been read from the device? -/
  valid : Bool
  /-- The cached inode. -/
  dinode : Dinode

/-- `struct mount`: the root of `childDev` takes the place of a directory. -/
structure Mount where
  parentDev : Nat
  parentInum : Nat
  childDev : Nat
deriving DecidableEq

/-- `enum FileDescType`. -/
inductive FileDescType where
  | none
  | inode
  | console
deriving DecidableEq

/-- `struct File`: a slot of the table of open files. -/
structure File where
  /-- The reference count; a slot is free when it is zero. -/
  ref : Int
  type : FileDescType
  readable : Bool
  writable : Bool
  ip : Option (Fin NINODE)
  off : Nat

/-- `enum ProcState`. -/
inductive ProcState where
  | unused
  | runnable
  | exited
deriving DecidableEq

/-- `struct Process`, without the registers and the memory map. -/
structure Process where
  pid : Int
  state : ProcState
  cwd : Option (Fin NINODE)
  /-- The string in `cwd_path`. -/
  cwdPath : List Byte
  ofile : Fin NUM_FILES_PER_PROCESS → Option (Fin GLOBAL_OPEN_FILE_LIMIT)

/-- A block device.  A block is two sectors, and both are transferred. -/
structure Device where
  /-- The number of whole blocks. -/
  capacity : Nat
  /-- The content of each block. -/
  blk : Nat → Buf

/-- A call of `write_block`. -/
structure Write where
  dev : Nat
  block : Nat
  buf : Buf

/-- The variables of the kernel that the file system works on. -/
structure KState where
  disk : Nat → Device
  sb : Nat → Superblock
  inodeTable : Fin NINODE → Inode
  /-- `mounts[0 .. num_mounts)`. -/
  mounts : List Mount
  fileTable : Fin GLOBAL_OPEN_FILE_LIMIT → File
  procs : Fin PROCS_MAX → Process
  /-- `current_proc`. -/
  current : Option (Fin PROCS_MAX)
  /-- The calls of `write_block` so far, oldest first. -/
  writes : List Write

/-! ## The kernel monad -/

/-- Why the kernel stopped. -/
inductive Halt where
  /-- `iget: failed to allocate in-memory inode cache slot` -/
  | iget (dev inum : Nat)
  /-- `iput: trying to release inode with invalid ref count` -/
  | iput (inum : Nat) (ref : Int)
  /-- `ilock: inode has invalid ref count` -/
  | ilock (inum : Nat) (ref : Int)
  /-- `bmap: ... is 0` -/
  | bmapZero (inum bn : Nat)
  /-- `bmap: block index exceeds max file size` -/
  | bmapRange (bn : Nat)
  /-- `balloc: out of blocks` -/
  | balloc
  /-- `bmap_alloc: out of range` -/
  | bmapAlloc
  /-- `bfree: freeing free block` -/
  | bfree (block : Nat)
  /-- `file_close: closing already free file slot` -/
  | fileClose
  /-- `unsupported file desc type` -/
  | fileType
  /-- `virtio: invalid dev`, `virtio: tried to read/write sector` -/
  | virtio (dev block : Nat)
  /-- `fs_init: magic mismatch` -/
  | magic (dev : Nat)
  /-- `fs_init: mountpoint /home not found` -/
  | mountpoint
  /-- `+++ REDO FROM START +++`: no free process slot -/
  | procs
  /-- A null pointer is dereferenced. -/
  | null
  /-- An access outside a buffer.  The source has no check there: it goes on, and any
  state may follow.  The model ends. -/
  | outOfBounds (index : Nat)
  /-- A process that cannot run was asked to make a call. -/
  | notRunnable
deriving DecidableEq

/-- Kernel code: it returns, or the kernel stops. -/
abbrev Kern := EStateM Halt KState

namespace KState

/-- The blocks of a device. -/
def blk (s : KState) (dev : Nat) : Nat → Buf := (s.disk dev).blk

/-- The state after `write_block(dev, block, buf)`. -/
def putBlock (s : KState) (dev block : Nat) (buf : Buf) : KState :=
  { s with
    disk := update s.disk dev
      { s.disk dev with blk := update (s.disk dev).blk block buf }
    writes := s.writes ++ [⟨dev, block, buf⟩] }

/-- The state with slot `ip` of the inode cache replaced. -/
def putInode (s : KState) (ip : Fin NINODE) (I : Inode) : KState :=
  { s with inodeTable := update s.inodeTable ip I }

/-- The state with slot `f` of the file table replaced. -/
def putFile (s : KState) (f : Fin GLOBAL_OPEN_FILE_LIMIT) (F : File) : KState :=
  { s with fileTable := update s.fileTable f F }

/-- The state with slot `p` of the process table replaced. -/
def putProc (s : KState) (p : Fin PROCS_MAX) (P : Process) : KState :=
  { s with procs := update s.procs p P }

end KState

/-! ## Blocks -/

/-- `read_block`.  The sector number `block * 2` is a 32-bit number, so block
numbers count modulo `2 ^ 31`. -/
def readBlock (dev block : Nat) : Kern Buf := fun s =>
  if dev < 2 ∧ block % 2 ^ 31 < (s.disk dev).capacity then
    .ok (s.blk dev (block % 2 ^ 31)) s
  else .error (.virtio dev block) s

/-- `write_block`. -/
def writeBlock (dev block : Nat) (buf : Buf) : Kern Unit := fun s =>
  if dev < 2 ∧ block % 2 ^ 31 < (s.disk dev).capacity then
    .ok () (s.putBlock dev (block % 2 ^ 31) buf)
  else .error (.virtio dev block) s

/-- The slot `ip` points to. -/
def inodeAt (ip : Fin NINODE) : Kern Inode := fun s => .ok (s.inodeTable ip) s

/-- An `if` without `else`. -/
def onlyIf (c : Prop) [Decidable c] (x : Kern Unit) : Kern Unit := if c then x else pure ()

/-- `sb[dev]`. -/
def superblock (dev : Nat) : Kern Superblock := fun s => .ok (s.sb dev) s

/-- Store into `ip->dinode`. -/
def setDinode (ip : Fin NINODE) (f : Dinode → Dinode) : Kern Unit := fun s =>
  .ok () (s.putInode ip { s.inodeTable ip with dinode := f (s.inodeTable ip).dinode })

end Dmaos
