import Dmaos.Lib.Fault
import Dmaos.Lib.Buf
import Dmaos.Lib.Tally
import Dmaos.Lib.NamedTree
import Dmaos.Lib.Hierarchy
import Dmaos.Lib.Words
import Dmaos.Volume.Slot
import Dmaos.Volume.Own
import Dmaos.Volume.Change
import Dmaos.Volume.Trunc
import Dmaos.Kernel.State
import Dmaos.Kernel.Inode
import Dmaos.Volume.Image
import Dmaos.Volume.Format
import Dmaos.Refine.Cache
import Dmaos.Refine.Confined
import Dmaos.Refine.BlockMap
import Dmaos.Refine.Content
import Dmaos.Refine.Progress
import Dmaos.Refine.Trunc
import Dmaos.Refine.Bytes
import Dmaos.Kernel.Name
import Dmaos.Handle.Refs
import Dmaos.Kernel.File
import Dmaos.Kernel.Run
import Dmaos.Handle.Device
import Dmaos.Handle.Policy
import Dmaos.Handle.Steady
import Dmaos.Handle.ReadOnly
import Dmaos.Handle.Count
import Dmaos.Handle.Books
import Dmaos.Handle.Balance
import Dmaos.System.Files
import Dmaos.System.Disk
import Dmaos.System.Dir
import Dmaos.System.Name
import Dmaos.System.Effect
import Dmaos.System.Calls
import Dmaos.System.Run
import Dmaos.System.Ownership
import Dmaos.System.Coherence
import Dmaos.System.Leaks
import Dmaos.System.Directories
import Dmaos.System.References
import Dmaos.System.Open
import Dmaos.System.Lookup
import Dmaos.System.Apart
import Dmaos.System.Resolve
import Dmaos.System.Normal
import Dmaos.System.Mount
import Dmaos.System.Trees
import Dmaos.System.Paths
import Dmaos.System.DirMap
import Dmaos.System.Cwd
import Dmaos.System.Descriptor
import Dmaos.System.Truncate
import Dmaos.System.Contained
import Dmaos.System.Read
import Dmaos.System.Compose
import Dmaos.Memory.Page
import Dmaos.Memory.Machine
import Dmaos.Memory.Table
import Dmaos.Memory.Allocator
import Dmaos.Memory.Validate
import Dmaos.Memory.Framebuffer
import Dmaos.Memory.Access
import Dmaos.Memory.Checks
import Dmaos.Memory.Create
import Dmaos.Memory.Agree
import Dmaos.Memory.Reap
import Dmaos.Memory.Arguments
import Dmaos.Memory.Supply
import Dmaos.Memory.Life
import Dmaos.Memory.Isolation
import Dmaos.Memory.Spawn
import Dmaos.Memory.FailedSpawn
import Dmaos.Lib.Actions
import Dmaos.Virtio.Queue
import Dmaos.Virtio.Block
import Dmaos.Virtio.Input
import Dmaos.System.Wait
import Dmaos.System.Mapping
import Dmaos.System.RoundRobin
import Dmaos.System.Identity
import Dmaos.System.Hierarchy
import Dmaos.System.Kmesg
import Dmaos.System.PathMap
import Dmaos.User.Shell
import Dmaos.User.Stat
import Dmaos.Mkfs.Image
import Dmaos.Mkfs.Reuse
