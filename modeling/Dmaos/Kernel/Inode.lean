import Dmaos.Kernel.State
import Mathlib.Data.List.FinRange

/-!
# Inodes

The inode cache (`iget`, `iput`, `ilock`, `iupdate`), the free map (`balloc`,
`bfree`), the block map of a file (`bmap`, `bmap_alloc`) and the three
operations on file contents (`readi`, `writei`, `itrunc`).

`bmap`, `bmap_alloc` and `itrunc` treat the direct, single-indirect and
double-indirect ranges of a file one after the other.  The steps they repeat
are named here: `addrAlloc` and `entryAlloc` fetch a pointer from the inode or
from a table block and allocate it when it is zero, and `freeDirect`,
`freeSingle` and `freeDouble` are the three branches of the loop of `itrunc`.

A loop of the source is a recursive function.  Its first argument counts the
iterations that may still follow.
-/

namespace Dmaos

/-! ## The inode cache -/

/-- The block of the inode table that holds inode `inum`. -/
def iblock (sb : Superblock) (inum : Nat) : Nat := sb.inodestart + inum / inodesPerBlock

/-- The offset of inode `inum` in its block. -/
def ioffset (inum : Nat) : Nat := (inum % inodesPerBlock) * dinodeSize

/-- The first slot of the inode cache with property `p`. -/
def findSlot (s : KState) (p : Inode → Bool) : Option (Fin NINODE) :=
  (List.finRange NINODE).find? fun i => p (s.inodeTable i)

/-- `iget`.  A slot in use for the inode wins over a free slot. -/
def iget (dev inum : Nat) : Kern (Fin NINODE) := fun s =>
  match findSlot s fun I => 0 < I.ref && I.dev == dev && I.inum == inum with
  | some i => .ok i (s.putInode i { s.inodeTable i with ref := (s.inodeTable i).ref + 1 })
  | none =>
    match findSlot s fun I => I.ref == 0 with
    | some i =>
      .ok i (s.putInode i
        { dev := dev, inum := inum, ref := 1, valid := false, dinode := (s.inodeTable i).dinode })
    | none => .error (.iget dev inum) s

/-- `iput` of a pointer that is not `NULL`. -/
def iput (ip : Fin NINODE) : Kern Unit := fun s =>
  if (s.inodeTable ip).ref ≤ 0 then
    .error (.iput (s.inodeTable ip).inum (s.inodeTable ip).ref) s
  else .ok () (s.putInode ip { s.inodeTable ip with ref := (s.inodeTable ip).ref - 1 })

/-- `ilock`. -/
def ilock (ip : Fin NINODE) : Kern Unit := do
  let I ← inodeAt ip
  if I.ref < 1 then throw (.ilock I.inum I.ref)
  else if I.valid then return ()
  else
    let sb ← superblock I.dev
    let buf ← readBlock I.dev (iblock sb I.inum)
    modify fun s =>
      s.putInode ip { I with dinode := fun i => buf (ioffset I.inum + i), valid := true }

/-- `iupdate`. -/
def iupdate (ip : Fin NINODE) : Kern Unit := do
  let I ← inodeAt ip
  let sb ← superblock I.dev
  let buf ← readBlock I.dev (iblock sb I.inum)
  writeBlock I.dev (iblock sb I.inum) (buf.copy (ioffset I.inum) I.dinode dinodeSize)

/-- The inode `ialloc` writes to the device. -/
def newDinode (type : Nat) : Dinode := (Dinode.setType Buf.zero type).setNlink 1

/-- The loop of `ialloc`, from inode `inum` on. -/
def iallocScan (dev type : Nat) : Nat → Nat → Kern (Option (Fin NINODE))
  | 0, _ => return none
  | k + 1, inum => do
    let sb ← superblock dev
    let buf ← readBlock dev (iblock sb inum)
    if Dinode.type (fun i => buf (ioffset inum + i)) = FT_UNUSED then
      writeBlock dev (iblock sb inum) (buf.copy (ioffset inum) (newDinode type) dinodeSize)
      let ip ← iget dev inum
      modify fun s => s.putInode ip
        { s.inodeTable ip with
          dinode := ((((s.inodeTable ip).dinode.setType type).setNlink 1).setSize 0).clearAddrs
          valid := true }
      return some ip
    else iallocScan dev type k (inum + 1)

/-- `ialloc`. -/
def ialloc (dev type : Nat) : Kern (Option (Fin NINODE)) := do
  let sb ← superblock dev
  iallocScan dev type (sb.ninodes - 1) 1

/-! ## The free map -/

/-- The loop of `balloc`: the first clear bit from `b` on.  The source does not check
that the free map fits in the block read. -/
def ballocScan (buf : Buf) : Nat → Nat → Kern Nat
  | 0, _ => throw .balloc
  | k + 1, b =>
    if BSIZE ≤ b / 8 then throw (.outOfBounds (b / 8))
    else if buf.testBit b then ballocScan buf k (b + 1)
    else return b

/-- `balloc`. -/
def balloc (dev : Nat) : Kern Nat := do
  let sb ← superblock dev
  let buf ← readBlock dev sb.bmapstart
  let b ← ballocScan buf sb.nblocks 0
  writeBlock dev sb.bmapstart (buf.setBit b)
  writeBlock dev b Buf.zero
  return b

/-- `bfree`.  The source does not check that `block` has a bit in the block read. -/
def bfree (dev block : Nat) : Kern Unit := do
  let sb ← superblock dev
  let buf ← readBlock dev sb.bmapstart
  if BSIZE ≤ block / 8 then throw (.outOfBounds (block / 8))
  else if buf.testBit block then
    writeBlock dev sb.bmapstart (buf.clearBit block)
  else throw (.bfree block)

/-! ## The block map -/

/-- Entry `i` of a table block. -/
def entry (table : Buf) (i : Nat) : Nat := table.le32 (4 * i)

/-- A table block with entry `i` replaced. -/
def setEntry (table : Buf) (i v : Nat) : Buf := table.put32 (4 * i) v

/-- `bmap` stops at a pointer that is zero. -/
def nonzero (inum bn addr : Nat) : Kern Nat :=
  if addr = 0 then throw (.bmapZero inum bn) else return addr

/-- `bmap`. -/
def bmap (ip : Fin NINODE) (bn : Nat) : Kern Nat := do
  let I ← inodeAt ip
  if bn < NDIRECT then nonzero I.inum bn (I.dinode.addr bn)
  else if bn - NDIRECT < NINDIRECT then
    let table ← nonzero I.inum bn (I.dinode.addr NDIRECT)
    let indirect ← readBlock I.dev table
    nonzero I.inum bn (entry indirect (bn - NDIRECT))
  else if bn - NDIRECT - NINDIRECT < NDINDIRECT then
    let dfbn := bn - NDIRECT - NINDIRECT
    let root ← nonzero I.inum bn (I.dinode.addr (NDIRECT + 1))
    let dindirect ← readBlock I.dev root
    let table ← nonzero I.inum bn (entry dindirect (dfbn / NINDIRECT))
    let indirect ← readBlock I.dev table
    nonzero I.inum bn (entry indirect (dfbn % NINDIRECT))
  else throw (.bmapRange bn)

/-- `ip->dinode.addrs[i]`, allocated and written back when it is zero. -/
def addrAlloc (ip : Fin NINODE) (i : Nat) : Kern Nat := do
  let I ← inodeAt ip
  if I.dinode.addr i = 0 then
    let addr ← balloc I.dev
    setDinode ip (·.setAddr i addr)
    iupdate ip
    return addr
  else return I.dinode.addr i

/-- Entry `i` of the table in block `table`, allocated and written back when
it is zero. -/
def entryAlloc (ip : Fin NINODE) (table i : Nat) : Kern Nat := do
  let I ← inodeAt ip
  let buf ← readBlock I.dev table
  if entry buf i = 0 then
    let addr ← balloc I.dev
    writeBlock I.dev table (setEntry buf i addr)
    return addr
  else return entry buf i

/-- `bmap_alloc`. -/
def bmapAlloc (ip : Fin NINODE) (bn : Nat) : Kern Nat :=
  if bn < NDIRECT then addrAlloc ip bn
  else if bn - NDIRECT < NINDIRECT then do
    let table ← addrAlloc ip NDIRECT
    entryAlloc ip table (bn - NDIRECT)
  else if bn - NDIRECT - NINDIRECT < NDINDIRECT then do
    let dfbn := bn - NDIRECT - NINDIRECT
    let root ← addrAlloc ip (NDIRECT + 1)
    let table ← entryAlloc ip root (dfbn / NINDIRECT)
    entryAlloc ip table (dfbn % NINDIRECT)
  else throw .bmapAlloc

/-! ## Contents -/

/-- The loop of `readi`: the bytes of `n` positions from `offset` on. -/
def readiLoop (ip : Fin NINODE) : Nat → Nat → Nat → Kern (List Byte)
  | 0, _, _ => return []
  | k + 1, offset, n => do
    if n = 0 then return []
    else
      let I ← inodeAt ip
      let block ← bmap ip (offset / BSIZE)
      let buf ← readBlock I.dev block
      let m := min (BSIZE - offset % BSIZE) n
      let rest ← readiLoop ip k (offset + m) (n - m)
      return buf.slice (offset % BSIZE) m ++ rest

/-- `readi`: the return value and the bytes stored at `dst`.  `offset` and `n`
are 32-bit numbers. -/
def readi (ip : Fin NINODE) (offset n : Nat) : Kern (Int × List Byte) := do
  ilock ip
  let I ← inodeAt ip
  if I.dinode.type = FT_UNUSED then return (-1, [])
  else if I.dinode.size < offset ∨ (offset + n) % 2 ^ 32 < offset then return (-1, [])
  else
    let n := if I.dinode.size < offset + n then I.dinode.size - offset else n
    let bytes ← readiLoop ip n offset n
    return (n, bytes)

/-- The loop of `writei`: store `src[tot ..]` from `offset` on until `n` bytes
are stored.  Returns the offset reached. -/
def writeiLoop (ip : Fin NINODE) (src : Buf) (n : Nat) : Nat → Nat → Nat → Kern Nat
  | 0, _, offset => return offset
  | k + 1, tot, offset => do
    if n ≤ tot then return offset
    else
      let I ← inodeAt ip
      let block ← bmapAlloc ip (offset / BSIZE)
      let buf ← readBlock I.dev block
      let m := min (BSIZE - offset % BSIZE) (n - tot)
      writeBlock I.dev block (buf.copy (offset % BSIZE) (fun i => src (tot + i)) m)
      writeiLoop ip src n k (tot + m) (offset + m)

/-- `writei`.  `offset` and `n` are 32-bit numbers. -/
def writei (ip : Fin NINODE) (src : Buf) (offset n : Nat) : Kern Int := do
  ilock ip
  let I ← inodeAt ip
  if I.dinode.size < offset ∨ (offset + n) % 2 ^ 32 < offset then return -1
  else if MAXFILE * BSIZE < offset + n then return -1
  else
    let stop ← writeiLoop ip src n n 0 offset
    let I ← inodeAt ip
    if 0 < n ∧ I.dinode.size < stop then
      setDinode ip (·.setSize stop)
      iupdate ip
      return n
    else return n

/-! ## Truncation -/

/-- The direct branch of the loop of `itrunc`. -/
def freeDirect (ip : Fin NINODE) (bn : Nat) : Kern Unit := do
  let I ← inodeAt ip
  let addr := I.dinode.addr bn
  if addr = 0 then return ()
  else
    bfree I.dev addr
    setDinode ip (·.setAddr bn 0)

/-- The single-indirect branch of the loop of `itrunc`. -/
def freeSingle (ip : Fin NINODE) (i : Nat) : Kern Unit := do
  let I ← inodeAt ip
  let table := I.dinode.addr NDIRECT
  if table = 0 then return ()
  else
    let indirect ← readBlock I.dev table
    let addr := entry indirect i
    if addr = 0 then return ()
    else
      bfree I.dev addr
      writeBlock I.dev table (setEntry indirect i 0)

/-- Are all entries of a table block zero? -/
def tableEmpty (table : Buf) : Bool := (List.range NINDIRECT).all fun i => entry table i == 0

/-- Free the entry of a second-level table.  Returns the table as it is now. -/
def freeEntry (dev table : Nat) (indirect : Buf) (i : Nat) : Kern Buf := do
  let addr := entry indirect i
  if addr = 0 then return indirect
  else
    bfree dev addr
    writeBlock dev table (setEntry indirect i 0)
    return setEntry indirect i 0

/-- The double-indirect branch of the loop of `itrunc`.  A second-level table
without entries is freed too.  The source does not check the index of the table. -/
def freeDouble (ip : Fin NINODE) (dfbn : Nat) : Kern Unit := do
  let I ← inodeAt ip
  let root := I.dinode.addr (NDIRECT + 1)
  if root = 0 then return ()
  else
    let dindirect ← readBlock I.dev root
    let table := entry dindirect (dfbn / NINDIRECT)
    if NINDIRECT ≤ dfbn / NINDIRECT then throw (.outOfBounds (dfbn / NINDIRECT))
    else if table = 0 then return ()
    else
      let indirect ← readBlock I.dev table
      let indirect ← freeEntry I.dev table indirect (dfbn % NINDIRECT)
      if tableEmpty indirect then
        bfree I.dev table
        writeBlock I.dev root (setEntry dindirect (dfbn / NINDIRECT) 0)
      else return ()

/-- One iteration of the loop of `itrunc`. -/
def freeBlock (ip : Fin NINODE) (bn : Nat) : Kern Unit :=
  if bn < NDIRECT then freeDirect ip bn
  else if bn - NDIRECT < NINDIRECT then freeSingle ip (bn - NDIRECT)
  else freeDouble ip (bn - NDIRECT - NINDIRECT)

/-- The loop of `itrunc`: free `k` blocks from `bn` on. -/
def itruncLoop (ip : Fin NINODE) : Nat → Nat → Kern Unit
  | 0, _ => return ()
  | k + 1, bn => do
    freeBlock ip bn
    itruncLoop ip k (bn + 1)

/-- The clean-up of a table block held in `addrs[i]`. -/
def freeTable (ip : Fin NINODE) (i : Nat) : Kern Unit := do
  let I ← inodeAt ip
  let table := I.dinode.addr i
  if table = 0 then return ()
  else
    bfree I.dev table
    setDinode ip (·.setAddr i 0)

/-- The blocks a file of `size` bytes needs, in 32-bit arithmetic. -/
def blocksFor (size : Nat) : Nat := (size + BSIZE - 1) % 2 ^ 32 / BSIZE

/-- The part of `itrunc` that gives blocks back. -/
def itruncBlocks (ip : Fin NINODE) (oldBlocks newBlocks : Nat) : Kern Unit := do
  itruncLoop ip (oldBlocks - newBlocks) newBlocks
  onlyIf (newBlocks ≤ NDIRECT) (freeTable ip NDIRECT)
  onlyIf (newBlocks ≤ NDIRECT + NINDIRECT) (freeTable ip (NDIRECT + 1))

/-- `itrunc`.  `newSize` is a 32-bit number. -/
def itrunc (ip : Fin NINODE) (newSize : Nat) : Kern Unit := do
  ilock ip
  let I ← inodeAt ip
  if I.dinode.size ≤ newSize then return ()
  else
    let oldBlocks := blocksFor I.dinode.size
    let newBlocks := blocksFor newSize
    onlyIf (newBlocks < oldBlocks) (itruncBlocks ip oldBlocks newBlocks)
    setDinode ip (·.setSize newSize)
    iupdate ip

end Dmaos
