import SphereVFS.Epoch
import Mathlib.Logic.Function.Basic

/-!
# SphereVFS.State

The volume as the tree operations see it (`nodes.h`, `tree.h`): a pool of typed slots addressed by
virtual pointers, data pages, the superblock fields, the mapper and the segment cache.

Pool slots are typed maps from virtual pointers, so a pointer of one kind is never read as another.
`pool_alloc` hands out pointers in order and never reuses one (no slot is freed while no bin entry
is processed). Leaf chains are lists, newest first. The page store is ideal.
-/

namespace SphereVFS

/-- Names are C strings: byte lists without a zero byte. -/
abbrev Name := List UInt8

/-- `VirtualPtr`; `0` is null. -/
abbrev VPtr := Nat

/-- The `VFS_ERR_*` codes the modelled functions return. -/
inductive Err where
  | io
  | notFound
  | isNotDir
  | alreadyExists
  | nameTooLong
  | notEmpty
  | epoch
  | conflict
  | full
  | noMem
  deriving DecidableEq, Repr

/-- `name_hash_compute`: FNV-1a with a splitmix64 finalizer. -/
def nameHash (n : Name) : UInt64 :=
  let h := n.foldl (fun h b => (h ^^^ b.toUInt64) * 1099511628211) 14695981039346656037
  let h := h + 0x9e3779b97f4a7c15
  let h := (h ^^^ (h >>> 30)) * 0xbf58476d1ce4e5b9
  let h := (h ^^^ (h >>> 27)) * 0x94d049bb133111eb
  h ^^^ (h >>> 31)

/-! ## Directories -/

/-- `DirContent`: one entry of a slot's history. `name = none` is a tombstone (`namePtr = 0`). -/
structure DirContent where
  vp : VPtr
  epoch : Int
  childId : Nat
  childPtr : VPtr
  name : Option Name
  deriving DecidableEq, Repr

/-- `SlotNode`: the history of one child in one directory. -/
structure SlotNode where
  id : Nat
  chain : List DirContent
  deriving DecidableEq, Repr

/-- `DirSegment`: a chunk of at most `unitsPerSegment` slots with its stored count. -/
structure DirSegment where
  count : Nat
  slots : List VPtr
  deriving DecidableEq, Repr

/-- `ANCHOR_UNITS_PER_SEGMENT`. -/
def unitsPerSegment : Nat := 1024

/-- The radix index of a directory, by leaf. All hashes that agree in their top 60 bits share a
leaf; its link list is newest first, and a removed link stays as `0`. -/
abbrev DirIndex := Nat → List VPtr

structure DirNode where
  nodeId : Nat
  segments : List DirSegment
  index : DirIndex

/-- The leaf of the radix index that a name's links are kept in. -/
def leafOf (name : Name) : Nat := (nameHash name).toNat / 16

/-- `dircontentindex_insert`: prepends a link in the name's leaf. -/
def indexInsert (ix : DirIndex) (name : Name) (slot : VPtr) : DirIndex :=
  Function.update ix (leafOf name) (slot :: ix (leafOf name))

/-- `dircontentindex_remove`: zeroes every link to `slot` in the name's leaf. -/
def indexRemove (ix : DirIndex) (name : Name) (slot : VPtr) : DirIndex :=
  Function.update ix (leafOf name) ((ix (leafOf name)).map fun l => if l = slot then 0 else l)

/-! ## Files -/

/-- A page of bytes, by offset in the page. -/
abbrev Page := Nat → UInt8

structure VersionPage where
  epoch : Int
  dataPage : Nat
  deriving DecidableEq, Repr

/-- `PageNode`: the versions of one page of a segment. -/
structure PageNode where
  pageIndex : Nat
  versions : List VersionPage
  deriving DecidableEq, Repr

/-- `FileContent`: one segment, its `PageNode`s in increasing page order. -/
structure FileContent where
  pageCount : Nat
  pages : List VPtr
  deriving DecidableEq, Repr

structure FileSize where
  epoch : Int
  size : Nat
  deriving DecidableEq, Repr

structure FileNode where
  nodeId : Nat
  contents : List FileContent
  sizes : List FileSize

inductive Node where
  | dir (d : DirNode)
  | file (f : FileNode)

/-! ## The volume -/

/-- One slot of `chain_walk_tcache`: the `PageNode`s of a segment by page index, `0` where the
array has none. -/
structure TcacheEntry where
  key : Nat
  populated : Bool
  gen : Nat
  arr : Nat → VPtr

inductive BinEntry where
  | fileDeleted (file tombstone : VPtr)
  | tombstoneAdded (file tombstone : VPtr)
  | noop (context context2 : Int)
  deriving DecidableEq, Repr

structure State where
  pageSize : Nat
  segmentSize : Nat
  root : VPtr
  nodes : VPtr → Option Node
  slots : VPtr → Option SlotNode
  pageNodes : VPtr → Option PageNode
  data : Nat → Option Page
  nextVp : VPtr
  nextPage : Nat
  nextNodeId : Nat
  currentEpoch : Int
  /-- The mapper chain in the pool, newest first. -/
  mapper : List MapperRow
  /-- The in-memory mapper table, oldest first. -/
  mapperTable : List MapperRow
  tcache : List TcacheEntry
  tcacheNext : Nat
  gcGeneration : Nat
  /-- The bin, newest entry last. -/
  bin : List BinEntry

/-- `CHAIN_WALK_TCACHE_SIZE`. -/
def tcacheSize : Nat := 16

/-- `tree_bootstrap_superblock`: an empty root directory with node id `0`, at epoch `0`. -/
def bootstrap (pageSize segmentSize : Nat) : State where
  pageSize := pageSize
  segmentSize := segmentSize
  root := 1
  nodes := Function.update (fun _ => none) 1 (some (.dir ⟨0, [], fun _ => []⟩))
  slots := fun _ => none
  pageNodes := fun _ => none
  data := fun _ => none
  nextVp := 2
  nextPage := 0
  nextNodeId := 0
  currentEpoch := 0
  mapper := []
  mapperTable := []
  tcache := List.replicate tcacheSize ⟨0, false, 0, fun _ => 0⟩
  tcacheNext := 0
  gcGeneration := 0
  bin := []

/-- `vfs_epoch_is_writable`. -/
def epochIsWritable (st : State) (epoch : Int) : Bool :=
  let e := if epoch = -1 then st.currentEpoch else epoch
  if e = st.currentEpoch then true
  else if e.tmod 2 = 1 then resolve st.mapperTable e == e
  else false

end SphereVFS
