import Dmaos.Lib.Buf

/-!
# Virtqueues

A virtqueue is shared by a driver and a device.  The driver puts descriptors on
the available ring, and the device gives them back on the used ring.  The indices
of the rings are 16-bit counters that wrap around.
-/

namespace Dmaos

open Function

abbrev VIRTQ_ENTRY_NUM : Nat := 16

abbrev VIRTQ_DESC_F_NEXT : Nat := 1
abbrev VIRTQ_DESC_F_WRITE : Nat := 2

/-- `struct virtq_desc`. -/
structure VirtqDesc where
  addr : Nat
  len : Nat
  flags : Nat
  next : Nat
  deriving DecidableEq

/-- The entry of a ring an index stands for. -/
def slot (i : BitVec 16) : Fin VIRTQ_ENTRY_NUM :=
  ⟨i.toNat % VIRTQ_ENTRY_NUM, Nat.mod_lt _ (by decide)⟩

/-- `struct virtio_virtq`.  Of the entries of the used ring only the descriptor is
kept: no driver reads the length. -/
structure Virtq where
  descs : Nat → VirtqDesc
  availIndex : BitVec 16
  availRing : Fin VIRTQ_ENTRY_NUM → Nat
  usedIndex : BitVec 16
  usedRing : Fin VIRTQ_ENTRY_NUM → Nat
  lastUsedIndex : BitVec 16

/-- A new queue is cleared by `memset`. -/
def Virtq.zero : Virtq where
  descs _ := ⟨0, 0, 0, 0⟩
  availIndex := 0
  availRing _ := 0
  usedIndex := 0
  usedRing _ := 0
  lastUsedIndex := 0

namespace Virtq

/-- `vq->avail.ring[vq->avail.index % VIRTQ_ENTRY_NUM] = desc`. -/
def putAvail (vq : Virtq) (desc : Nat) : Virtq :=
  { vq with availRing := update vq.availRing (slot vq.availIndex) desc }

/-- `++vq->avail.index`. -/
def bumpAvail (vq : Virtq) : Virtq := { vq with availIndex := vq.availIndex + 1 }

/-- `++vq->last_used_index`. -/
def bumpLastUsed (vq : Virtq) : Virtq := { vq with lastUsedIndex := vq.lastUsedIndex + 1 }

/-- The device gives a descriptor back. -/
def putUsed (vq : Virtq) (desc : Nat) : Virtq :=
  { vq with
    usedRing := update vq.usedRing (slot vq.usedIndex) desc
    usedIndex := vq.usedIndex + 1 }

/-- `virtq_is_busy`. -/
def isBusy (vq : Virtq) : Bool := vq.lastUsedIndex != vq.usedIndex

def setDesc (vq : Virtq) (i : Nat) (desc : VirtqDesc) : Virtq :=
  { vq with descs := update vq.descs i desc }

end Virtq

end Dmaos
