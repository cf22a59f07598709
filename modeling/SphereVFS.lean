import SphereVFS.Disk
import SphereVFS.Lib.TwoCopy
import SphereVFS.Mirror
import SphereVFS.MirrorCrash
import SphereVFS.Epoch
import SphereVFS.State
import SphereVFS.Dir
import SphereVFS.File
import SphereVFS.Commit
import SphereVFS.Lib.Run
import SphereVFS.Lib.Links
import SphereVFS.ReadRule
import SphereVFS.DirInv
import SphereVFS.DirFrame
import SphereVFS.DirOps
import SphereVFS.FileFrame
import SphereVFS.FileSteps
import SphereVFS.FilePages
import SphereVFS.FileInv
import SphereVFS.Resolve
import SphereVFS.FileViews
import SphereVFS.WriteInv
import SphereVFS.WriteOps
import SphereVFS.Volume
import SphereVFS.Isolation
import SphereVFS.ChainOrder
import SphereVFS.MapperTable
import SphereVFS.SoftDelete
import SphereVFS.EpochCheck
import SphereVFS.Locks
import SphereVFS.LockSafety
import SphereVFS.Namespace
import SphereVFS.Unique
import SphereVFS.Tree
import SphereVFS.CommitEffect
import SphereVFS.Resolvable
import SphereVFS.WriteView
import SphereVFS.WriteRead
import SphereVFS.ByteCounts
import SphereVFS.Storage
import SphereVFS.StorageInv
import SphereVFS.StorageAlloc
import SphereVFS.StorageQueue
import SphereVFS.StorageMirror
import SphereVFS.StorageFlush
import SphereVFS.StorageRefine
import SphereVFS.Fuse
import SphereVFS.FuseReads
import SphereVFS.DirEffect
import SphereVFS.AddEffect
import SphereVFS.RmdirEffect
import SphereVFS.Lib.DepthFirst
import SphereVFS.ParentSearch
import SphereVFS.Lib.Bytes
import SphereVFS.Lib.Linked
import SphereVFS.PoolAlloc
import SphereVFS.StorageFresh
import SphereVFS.StorageScan
import SphereVFS.CommitScan
import SphereVFS.Lib.Splice
import SphereVFS.FileBytes
import SphereVFS.SegmentCache
import SphereVFS.Lib.LockOrder
import SphereVFS.TreeLocks
import SphereVFS.Deadlock
import SphereVFS.FuseLocks
import SphereVFS.FuseReturns
import SphereVFS.Lib.Radix
import SphereVFS.RadixIndex
import SphereVFS.Lookup
import SphereVFS.PoolList
import SphereVFS.NameChain
import SphereVFS.PoolRace
import SphereVFS.MirrorPairs
import SphereVFS.MirrorDamage
import SphereVFS.TableRoundTrip
import SphereVFS.PathWalk
import SphereVFS.DirSegments
import SphereVFS.PageChains
import SphereVFS.LockAccounting
import SphereVFS.LockWakeups
import SphereVFS.FuseHandles
import SphereVFS.ReaddirCursor
import SphereVFS.FuseListing
import SphereVFS.Unchanged
import SphereVFS.Lib.Crc
import SphereVFS.Crc32c
import SphereVFS.NameRead
import SphereVFS.Leaves
import SphereVFS.Lib.DigitTree
import SphereVFS.VarArray
import SphereVFS.VarArrayRefine
import SphereVFS.VarArrayRace
import SphereVFS.Lib.Probe
import SphereVFS.HashMap
import SphereVFS.RadixSlots
