import SphereVFS.State

/-!
# SphereVFS.File

The file operations of `tree.c`: resolving a page through the segment cache, reading, writing and
truncating.

`treeResolvePage` finds (or, for a write, makes) the `PageNode` of a page. A hit in the segment
cache returns an unpinned copy of the node, so that the later `pool_release` writes nothing back;
the slow path pins it for writers. `vfsWrite` overwrites the version stored at its epoch or copies
the page on write, with a base it picks by stored epochs.
-/

namespace SphereVFS

/-! ## Resolving a page -/

def sparseCacheThreshold : Nat := 64

/-- `(file_vp << 20) | (segment_idx & 0xFFFFF)`. -/
def cacheKey (file : VPtr) (segment : Nat) : Nat := file * 2 ^ 20 + segment % 2 ^ 20

/-- The page index stored in a `PageNode`. -/
def pageIdx (st : State) (pn : VPtr) : Nat :=
  match st.pageNodes pn with
  | some n => n.pageIndex
  | none => 0

/-- The `PageNode` of page `target` in a segment's chain, which is walked up to the first node
that is not below it. -/
def findPage (st : State) (target : Nat) (pages : List VPtr) : Option VPtr :=
  match pages.find? fun v => decide (target ≤ pageIdx st v) with
  | some v => if pageIdx st v = target then some v else none
  | none => none

/-- A new `PageNode` goes before the first one with a higher index. -/
def insertPage (st : State) (target : Nat) (pn : VPtr) (pages : List VPtr) : List VPtr :=
  pages.takeWhile (fun v => decide (pageIdx st v < target)) ++
    pn :: pages.dropWhile (fun v => decide (pageIdx st v < target))

/-- `segment_array_build`. -/
def buildArray (st : State) (pages : List VPtr) : Nat → VPtr :=
  pages.foldl (fun arr v => if pageIdx st v < st.segmentSize then Function.update arr (pageIdx st v) v else arr)
    fun _ => 0

def tcacheFind (st : State) (key : Nat) : Option Nat :=
  st.tcache.findIdx? fun e => e.key == key && e.populated

/-- Outcome of the cache lookup: a hit, the slot whose array has no node for the page, or none. -/
inductive CacheLookup where
  | hit (pn : VPtr)
  | gap (slot : Nat)
  | miss
  deriving DecidableEq, Repr

/-- The fast path of `tree_resolve_page`. A slot of an older generation is dropped. -/
def tcacheLookup (st : State) (key page : Nat) : CacheLookup × State :=
  match tcacheFind st key with
  | none => (.miss, st)
  | some i =>
    match st.tcache[i]? with
    | none => (.miss, st)
    | some e =>
      if e.gen ≠ st.gcGeneration then
        (.miss, { st with tcache := st.tcache.set i { e with populated := false } })
      else if e.arr page = 0 then (.gap i, st)
      else (.hit (e.arr page), st)

def tcachePatch (st : State) (look : CacheLookup) (page : Nat) (pn : VPtr) : State :=
  match look with
  | .gap i =>
    match st.tcache[i]? with
    | some e => { st with tcache := st.tcache.set i { e with arr := Function.update e.arr page pn } }
    | none => st
  | _ => st

def tcachePopulate (st : State) (key : Nat) (fc : FileContent) : State :=
  if sparseCacheThreshold ≤ fc.pageCount then
    { st with
      tcache := st.tcache.set (st.tcacheNext % tcacheSize)
        ⟨key, true, st.gcGeneration, buildArray st fc.pages⟩
      tcacheNext := st.tcacheNext + 1 }
  else st

/-- A `PageNode` with no versions, and the file's segments with it. -/
def newPageNode (st : State) (file : VPtr) (f : FileNode) (page : Nat) (contents : List FileContent) :
    State :=
  { st with
    nextVp := st.nextVp + 1
    pageNodes := Function.update st.pageNodes st.nextVp (some ⟨page, []⟩)
    nodes := Function.update st.nodes file (some (.file { f with contents := contents })) }

/-- Missing segments are made up to the wanted one, also by a reader. -/
def padSegments (contents : List FileContent) (segment : Nat) : List FileContent :=
  contents ++ List.replicate (segment - contents.length) ⟨0, []⟩

/-- The slow path of `tree_resolve_page` after the cache lookup. -/
def resolveSlow (st : State) (file : VPtr) (f : FileNode) (segment page : Nat) (isWrite : Bool)
    (look : CacheLookup) : Option (VPtr × Bool) × State :=
  match f.contents[segment]? with
  | none =>
    -- the segment does not exist: a reader gives up, a writer makes it with its first node
    let contents := padSegments f.contents segment
    if isWrite then
      let st1 := newPageNode st file f page (contents ++ [⟨1, [st.nextVp]⟩])
      (some (st.nextVp, true), tcachePatch st1 look page st.nextVp)
    else
      (none, { st with nodes := Function.update st.nodes file (some (.file { f with contents := contents })) })
  | some fc =>
    match findPage st page fc.pages with
    | some pn =>
      let st1 := tcachePatch st look page pn
      (some (pn, isWrite), tcachePopulate st1 (cacheKey file segment) fc)
    | none =>
      if isWrite then
        let fc' : FileContent := ⟨fc.pageCount + 1, insertPage st page st.nextVp fc.pages⟩
        let st1 := newPageNode st file f page (f.contents.set segment fc')
        let st2 := tcachePatch st1 look page st.nextVp
        (some (st.nextVp, true), tcachePopulate st2 (cacheKey file segment) fc')
      else (none, st)

/-- `tree_resolve_page`: the `PageNode` and whether the returned slot is pinned. -/
def treeResolvePage (st : State) (file : VPtr) (logicalPage : Nat) (isWrite : Bool) :
    Option (VPtr × Bool) × State :=
  match st.nodes file with
  | some (.file f) =>
    let segment := logicalPage / st.segmentSize
    let page := logicalPage % st.segmentSize
    match tcacheLookup st (cacheKey file segment) page with
    | (.hit pn, st1) => (some (pn, false), st1)
    | (look, st1) => resolveSlow st1 file f segment page isWrite look
  | _ => (none, st)

/-! ## Sizes -/

def sizechainGet (st : State) (readEpoch : Int) (sizes : List FileSize) : Nat :=
  match chainWalk FileSize.epoch st.mapperTable readEpoch sizes with
  | some s => s.size
  | none => 0

/-- `vfs_file_size`: `-1` for anything but a file. -/
def vfsFileSize (st : State) (file : VPtr) (epoch : Int) : Int :=
  match st.nodes file with
  | some (.file f) => sizechainGet st (resolve st.mapperTable epoch) f.sizes
  | _ => -1

/-! ## Reading -/

/-- The bytes `[off, off + count)` of a page. -/
def pageBytes (p : Page) (off count : Nat) : List UInt8 := (List.range count).map fun i => p (off + i)

/-- The page a reader gets from a `PageNode`, zeros where no version is visible. -/
def versionBytes (st : State) (readEpoch : Int) (pn : VPtr) : Page :=
  match st.pageNodes pn with
  | none => fun _ => 0
  | some n =>
    match chainWalk VersionPage.epoch st.mapperTable readEpoch n.versions with
    | none => fun _ => 0
    | some v => (st.data v.dataPage).getD fun _ => 0

/-- The bytes `vfs_read` takes from a page: zeros when it has no `PageNode`. -/
def readPage (st : State) (readEpoch : Int) (off count : Nat) : Option (VPtr × Bool) → List UInt8
  | none => List.replicate count 0
  | some (pn, _) => pageBytes (versionBytes st readEpoch pn) off count

/-- The page loop of `vfs_read`: `n` pages from `page` on, `remaining` bytes. -/
def readLoop (file : VPtr) (readEpoch : Int) :
    Nat → State → (page off remaining : Nat) → List UInt8 × State
  | 0, st, _, _, _ => ([], st)
  | n + 1, st, page, off, remaining =>
    let count := min (st.pageSize - off) remaining
    let (r, st1) := treeResolvePage st file page false
    let (rest, st2) := readLoop file readEpoch n st1 (page + 1) 0 (remaining - count)
    (readPage st1 readEpoch off count r ++ rest, st2)

/-- `vfs_read`: reads past the end are cut to the file size. -/
def vfsRead (st : State) (file : VPtr) (offset count epoch : Int) : Except Err (List UInt8) × State :=
  if count ≤ 0 ∨ offset < 0 then (.error .io, st)
  else
    let size := vfsFileSize st file epoch
    if size ≤ offset then (.ok [], st)
    else
      let count := if offset + count > size then size - offset else count
      let first := offset.toNat / st.pageSize
      let last := (offset.toNat + count.toNat - 1) / st.pageSize
      let (bytes, st1) := readLoop file (resolve st.mapperTable epoch) (last - first + 1) st first
        (offset.toNat % st.pageSize) count.toNat
      (.ok bytes, st1)

/-! ## Writing -/

/-- `memcpy(page + off, bytes, count)`. -/
def overlay (p : Page) (off : Nat) (bytes : List UInt8) : Page := fun i =>
  if off ≤ i ∧ i < off + bytes.length then bytes.getD (i - off) 0 else p i

/-- The version `vfs_write` overwrites in place: the first one stored at its epoch. -/
def inPlaceVersion (epoch : Int) (versions : List VersionPage) : Option VersionPage :=
  versions.find? fun v => v.epoch == u32 epoch

/-- The base `vfs_write` copies: the first version stored at an even epoch below its own. The
mapper is not consulted. -/
def cowBase (epoch : Int) (versions : List VersionPage) : Option VersionPage :=
  versions.find? fun v => decide (v.epoch < u32 epoch) && v.epoch % 2 == 0

/-- One page of `vfs_write`. The new version root is stored in the caller's copy of the node and
reaches the pool only if that copy is pinned. -/
def writePage (st : State) (pn : VPtr) (pinned : Bool) (epoch : Int) (off : Nat) (bytes : List UInt8) :
    State :=
  match st.pageNodes pn with
  | none => st
  | some n =>
    match inPlaceVersion epoch n.versions with
    | some v =>
      let old := (st.data v.dataPage).getD fun _ => 0
      { st with data := Function.update st.data v.dataPage (some (overlay old off bytes)) }
    | none =>
      let base := match cowBase epoch n.versions with
        | some v => (st.data v.dataPage).getD fun _ => 0
        | none => fun _ => 0
      { st with
        data := Function.update st.data st.nextPage (some (overlay base off bytes))
        nextPage := st.nextPage + 1
        pageNodes :=
          if pinned then
            Function.update st.pageNodes pn
              (some { n with versions := ⟨u32 epoch, st.nextPage⟩ :: n.versions })
          else st.pageNodes }

/-- The page loop of `vfs_write`: `n` pages from `page` on. `false` when a page cannot be
resolved. -/
def writeLoop (file : VPtr) (epoch : Int) :
    Nat → State → (page off : Nat) → List UInt8 → Bool × State
  | 0, st, _, _, _ => (true, st)
  | n + 1, st, page, off, bytes =>
    match treeResolvePage st file page true with
    | (none, st1) => (false, st1)
    | (some (pn, pinned), st1) =>
      let count := min (st.pageSize - off) bytes.length
      writeLoop file epoch n (writePage st1 pn pinned epoch off (bytes.take count)) (page + 1) 0
        (bytes.drop count)

def prependSize (st : State) (file : VPtr) (epoch : Int) (size : Nat) : State :=
  match st.nodes file with
  | some (.file f) =>
    { st with
      nodes := Function.update st.nodes file
        (some (.file { f with sizes := ⟨u32 epoch, size⟩ :: f.sizes })) }
  | _ => st

/-- `vfs_write`; the result is the number of bytes written. -/
def vfsWrite (st : State) (file : VPtr) (data : List UInt8) (offset epoch : Int) :
    Except Err Nat × State :=
  if data = [] ∨ offset < 0 then (.error .io, st)
  else if ¬ epochIsWritable st epoch then (.error .epoch, st)
  else
    match st.nodes file with
    | some (.file _) =>
      let off := offset.toNat
      let oldSize := vfsFileSize st file epoch
      let first := off / st.pageSize
      let last := (off + data.length - 1) / st.pageSize
      match writeLoop file epoch (last - first + 1) st first (off % st.pageSize) data with
      | (false, st1) => (.error .io, st1)
      | (true, st1) =>
        if (off + data.length : Int) > oldSize then
          (.ok data.length, prependSize st1 file epoch (off + data.length))
        else (.ok data.length, st1)
    | _ => (.error (if file = 0 then .notFound else .io), st)

/-! ## Truncating -/

/-- The grow loop of `vfs_truncate`: zeros in chunks of at most 8192 bytes. -/
def growLoop (file : VPtr) (epoch : Int) : Nat → State → (off remaining : Nat) → Except Err Unit × State
  | 0, st, _, _ => (.ok (), st)
  | n + 1, st, off, remaining =>
    if remaining = 0 then (.ok (), st)
    else
      let chunk := min remaining 8192
      match vfsWrite st file (List.replicate chunk 0) off epoch with
      | (.error e, st1) => (.error e, st1)
      | (.ok _, st1) => growLoop file epoch n st1 (off + chunk) (remaining - chunk)

def vfsTruncate (st : State) (file : VPtr) (newSize epoch : Int) : Except Err Unit × State :=
  if newSize < 0 then (.error .io, st)
  else if ¬ epochIsWritable st epoch then (.error .epoch, st)
  else
    match st.nodes file with
    | some (.file _) =>
      let size := vfsFileSize st file epoch
      if newSize = size then (.ok (), st)
      else if newSize < size then
        let st1 := prependSize st file epoch newSize.toNat
        (.ok (), { st1 with bin := st1.bin ++ [.noop file newSize] })
      else
        growLoop file epoch (newSize - size).toNat st size.toNat (newSize - size).toNat
    | _ => (.error (if file = 0 then .notFound else .io), st)

end SphereVFS
