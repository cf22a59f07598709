import SphereVFS.FileBytes

/-!
# SphereVFS.SegmentCache

The segment cache of `tree_resolve_page` against the walk it stands for.

The file operations are run a second time with a `tree_resolve_page` that always takes the slow path.
The two runs keep states that differ in the cache only, and return the same, as long as no write meets
a page in the cache that has no version at its epoch: such a page comes as an unpinned copy, and the
version root that the write sets in the copy is not stored. The key of a cache slot is a 64-bit value,
which tells segments apart as long as the pointers of the files are below `2 ^ 44`.
-/

namespace SphereVFS

/-! ## The operations over another `tree_resolve_page` -/

/-- The type of `tree_resolve_page`. -/
abbrev Resolver := State → VPtr → Nat → Bool → Option (VPtr × Bool) × State

/-- `(file_vp << 20) | (segment_idx & 0xFFFFF)` in 64 bits. -/
def cacheKey64 (file : VPtr) (segment : Nat) : Nat := file * 2 ^ 20 % 2 ^ 64 + segment % 2 ^ 20

def resolveSlow64 (st : State) (file : VPtr) (f : FileNode) (segment page : Nat) (isWrite : Bool)
    (look : CacheLookup) : Option (VPtr × Bool) × State :=
  match f.contents[segment]? with
  | none => resolveSlow st file f segment page isWrite look
  | some fc =>
    match findPage st page fc.pages with
    | some pn =>
      let st1 := tcachePatch st look page pn
      (some (pn, isWrite), tcachePopulate st1 (cacheKey64 file segment) fc)
    | none =>
      if isWrite then
        let fc' : FileContent := ⟨fc.pageCount + 1, insertPage st page st.nextVp fc.pages⟩
        let st1 := newPageNode st file f page (f.contents.set segment fc')
        let st2 := tcachePatch st1 look page st.nextVp
        (some (st.nextVp, true), tcachePopulate st2 (cacheKey64 file segment) fc')
      else (none, st)

/-- `tree_resolve_page` with the 64-bit key. -/
def treeResolvePage64 : Resolver := fun st file logicalPage isWrite =>
  match st.nodes file with
  | some (.file f) =>
    let segment := logicalPage / st.segmentSize
    let page := logicalPage % st.segmentSize
    match tcacheLookup st (cacheKey64 file segment) page with
    | (.hit pn, st1) => (some (pn, false), st1)
    | (look, st1) => resolveSlow64 st1 file f segment page isWrite look
  | _ => (none, st)

/-- `tree_resolve_page` without its fast path. -/
def resolveUncached : Resolver := fun st file logicalPage isWrite =>
  match st.nodes file with
  | some (.file f) =>
    resolveSlow st file f (logicalPage / st.segmentSize) (logicalPage % st.segmentSize) isWrite .miss
  | _ => (none, st)

/-- The page loop of `vfs_read`. -/
def readLoopWith (res : Resolver) (file : VPtr) (readEpoch : Int) :
    Nat → State → (page off remaining : Nat) → List UInt8 × State
  | 0, st, _, _, _ => ([], st)
  | n + 1, st, page, off, remaining =>
    let count := min (st.pageSize - off) remaining
    let (r, st1) := res st file page false
    let (rest, st2) := readLoopWith res file readEpoch n st1 (page + 1) 0 (remaining - count)
    (readPage st1 readEpoch off count r ++ rest, st2)

/-- `vfs_read`. -/
def vfsReadWith (res : Resolver) (st : State) (file : VPtr) (offset count epoch : Int) :
    Except Err (List UInt8) × State :=
  if count ≤ 0 ∨ offset < 0 then (.error .io, st)
  else
    let size := vfsFileSize st file epoch
    if size ≤ offset then (.ok [], st)
    else
      let count := if offset + count > size then size - offset else count
      let first := offset.toNat / st.pageSize
      let last := (offset.toNat + count.toNat - 1) / st.pageSize
      let (bytes, st1) := readLoopWith res file (resolve st.mapperTable epoch) (last - first + 1) st
        first (offset.toNat % st.pageSize) count.toNat
      (.ok bytes, st1)

/-- The page loop of `vfs_write`. -/
def writeLoopWith (res : Resolver) (file : VPtr) (epoch : Int) :
    Nat → State → (page off : Nat) → List UInt8 → Bool × State
  | 0, st, _, _, _ => (true, st)
  | n + 1, st, page, off, bytes =>
    match res st file page true with
    | (none, st1) => (false, st1)
    | (some (pn, pinned), st1) =>
      let count := min (st.pageSize - off) bytes.length
      writeLoopWith res file epoch n (writePage st1 pn pinned epoch off (bytes.take count)) (page + 1) 0
        (bytes.drop count)

/-- `vfs_write`. -/
def vfsWriteWith (res : Resolver) (st : State) (file : VPtr) (data : List UInt8) (offset epoch : Int) :
    Except Err Nat × State :=
  if data = [] ∨ offset < 0 then (.error .io, st)
  else if ¬ epochIsWritable st epoch then (.error .epoch, st)
  else
    match st.nodes file with
    | some (.file _) =>
      let off := offset.toNat
      let oldSize := vfsFileSize st file epoch
      let first := off / st.pageSize
      let last := (off + data.length - 1) / st.pageSize
      match writeLoopWith res file epoch (last - first + 1) st first (off % st.pageSize) data with
      | (false, st1) => (.error .io, st1)
      | (true, st1) =>
        if (off + data.length : Int) > oldSize then
          (.ok data.length, prependSize st1 file epoch (off + data.length))
        else (.ok data.length, st1)
    | _ => (.error (if file = 0 then .notFound else .io), st)

/-- The grow loop of `vfs_truncate`. -/
def growLoopWith (res : Resolver) (file : VPtr) (epoch : Int) :
    Nat → State → (off remaining : Nat) → Except Err Unit × State
  | 0, st, _, _ => (.ok (), st)
  | n + 1, st, off, remaining =>
    if remaining = 0 then (.ok (), st)
    else
      let chunk := min remaining 8192
      match vfsWriteWith res st file (List.replicate chunk 0) off epoch with
      | (.error e, st1) => (.error e, st1)
      | (.ok _, st1) => growLoopWith res file epoch n st1 (off + chunk) (remaining - chunk)

/-- `vfs_truncate`. -/
def vfsTruncateWith (res : Resolver) (st : State) (file : VPtr) (newSize epoch : Int) :
    Except Err Unit × State :=
  if newSize < 0 then (.error .io, st)
  else if ¬ epochIsWritable st epoch then (.error .epoch, st)
  else
    match st.nodes file with
    | some (.file _) =>
      let size := vfsFileSize st file epoch
      if newSize = size then (.ok (), st)
      else if newSize < size then
        let st1 := prependSize st file epoch newSize.toNat
        (.ok (), { st1 with bin := st1.bin ++ [.noop file newSize] })
      else
        growLoopWith res file epoch (newSize - size).toNat st size.toNat (newSize - size).toNat
    | _ => (.error (if file = 0 then .notFound else .io), st)

inductive FileOp where
  | read (file : VPtr) (offset count epoch : Int)
  | write (file : VPtr) (data : List UInt8) (offset epoch : Int)
  | truncate (file : VPtr) (newSize epoch : Int)
  | snapshot

def FileOp.file : FileOp → VPtr
  | .read file _ _ _ | .write file _ _ _ | .truncate file _ _ => file
  | .snapshot => 0

inductive Answer where
  | bytes (r : Except Err (List UInt8))
  | wrote (r : Except Err Nat)
  | truncated (r : Except Err Unit)
  | snapshot (epoch : Int)
  deriving DecidableEq

/-- A call over a `tree_resolve_page`. -/
def performWith (res : Resolver) (st : State) : FileOp → Answer × State
  | .read file offset count epoch =>
    let (r, st1) := vfsReadWith res st file offset count epoch
    (.bytes r, st1)
  | .write file data offset epoch =>
    let (r, st1) := vfsWriteWith res st file data offset epoch
    (.wrote r, st1)
  | .truncate file newSize epoch =>
    let (r, st1) := vfsTruncateWith res st file newSize epoch
    (.truncated r, st1)
  | .snapshot =>
    let (e, st1) := vfsSnapshot st
    (.snapshot e, st1)

def answers (res : Resolver) : State → List FileOp → List Answer
  | _, [] => []
  | st, op :: ops => (performWith res st op).1 :: answers res (performWith res st op).2 ops

variable {st st' : State} {file : VPtr} {f : FileNode} {epoch : Int} {lp page : Nat}

theorem treeResolvePage64_eq (hfile : file < 2 ^ 44) (st : State) (lp : Nat) (isWrite : Bool) :
    treeResolvePage64 st file lp isWrite = treeResolvePage st file lp isWrite := by
  have hkey : ∀ segment, cacheKey64 file segment = cacheKey file segment := by
    intro segment
    rw [cacheKey64, cacheKey, Nat.mod_eq_of_lt (by lia)]
  have hslow : ∀ st f segment page look, resolveSlow64 st file f segment page isWrite look =
      resolveSlow st file f segment page isWrite look := by
    intro st f segment page look
    rw [resolveSlow64]
    simp only [hkey]
    rw [resolveSlow]
    cases f.contents[segment]? <;> rfl
  rw [treeResolvePage64]
  simp only [hkey, hslow]
  rfl

/-! Over a resolver that works like `treeResolvePage` on the file, these are the operations of the
model. -/

section Tree

variable {res : Resolver} (hres : ∀ st lp isWrite, res st file lp isWrite = treeResolvePage st file lp isWrite)
include hres

theorem readLoopWith_tree (R : Int) (n : Nat) (st : State) (page off remaining : Nat) :
    readLoopWith res file R n st page off remaining = readLoop file R n st page off remaining := by
  induction n generalizing st page off remaining with
  | zero => rfl
  | succ n ih => simp only [readLoopWith, readLoop, ih, hres]

theorem vfsReadWith_tree (st : State) (offset count epoch : Int) :
    vfsReadWith res st file offset count epoch = vfsRead st file offset count epoch := by
  simp only [vfsReadWith, vfsRead, readLoopWith_tree hres]

theorem writeLoopWith_tree (epoch : Int) (n : Nat) (st : State) (page off : Nat) (bytes : List UInt8) :
    writeLoopWith res file epoch n st page off bytes = writeLoop file epoch n st page off bytes := by
  induction n generalizing st page off bytes with
  | zero => rfl
  | succ n ih =>
    rw [writeLoopWith]
    simp only [ih, hres]
    rfl

theorem vfsWriteWith_tree (st : State) (data : List UInt8) (offset epoch : Int) :
    vfsWriteWith res st file data offset epoch = vfsWrite st file data offset epoch := by
  rw [vfsWriteWith]
  simp only [writeLoopWith_tree hres]
  rfl

theorem growLoopWith_tree (epoch : Int) (n : Nat) (st : State) (off remaining : Nat) :
    growLoopWith res file epoch n st off remaining = growLoop file epoch n st off remaining := by
  induction n generalizing st off remaining with
  | zero => rfl
  | succ n ih =>
    rw [growLoopWith]
    simp only [ih, vfsWriteWith_tree hres]
    rfl

theorem vfsTruncateWith_tree (st : State) (newSize epoch : Int) :
    vfsTruncateWith res st file newSize epoch = vfsTruncate st file newSize epoch := by
  rw [vfsTruncateWith]
  simp only [growLoopWith_tree hres]
  rfl

end Tree

/-! ## States that differ in the cache -/

def withCache (st : State) (cache : List TcacheEntry) (next : Nat) : State :=
  { st with tcache := cache, tcacheNext := next }

def SameButCache (st st' : State) : Prop := ∃ cache next, st' = withCache st cache next

theorem SameButCache.refl (st : State) : SameButCache st st := ⟨st.tcache, st.tcacheNext, rfl⟩

theorem SameButCache.symm (h : SameButCache st st') : SameButCache st' st := by
  obtain ⟨cache, next, rfl⟩ := h
  exact ⟨st.tcache, st.tcacheNext, rfl⟩

theorem SameButCache.trans {st'' : State} (h : SameButCache st st') (h' : SameButCache st' st'') :
    SameButCache st st'' := by
  obtain ⟨cache, next, rfl⟩ := h
  obtain ⟨cache', next', rfl⟩ := h'
  exact ⟨cache', next', rfl⟩

theorem tcachePatch_same (st : State) (look : CacheLookup) (page : Nat) (pn : VPtr) :
    SameButCache st (tcachePatch st look page pn) :=
  tcachePatch_rel (fun _ cache next => ⟨cache, next, rfl⟩) ..

theorem tcachePopulate_same (st : State) (key : Nat) (fc : FileContent) :
    SameButCache st (tcachePopulate st key fc) :=
  tcachePopulate_rel (fun _ cache next => ⟨cache, next, rfl⟩) ..

/-- Two answers of `tree_resolve_page`: one node, and states that differ in the cache. The second one
is pinned for a writer. -/
structure ResolvedAlike (isWrite : Bool) (r r' : Option (VPtr × Bool) × State) : Prop where
  node : r'.1 = r.1.map fun x => (x.1, isWrite)
  state : SameButCache r.2 r'.2

theorem tail_same {st₁ st₂ : State} (h : SameButCache st₁ st₂) (look look' : CacheLookup) (page : Nat)
    (pn : VPtr) (key : Nat) (fc : FileContent) :
    SameButCache (tcachePopulate (tcachePatch st₁ look page pn) key fc)
      (tcachePopulate (tcachePatch st₂ look' page pn) key fc) :=
  ((tcachePatch_same ..).trans (tcachePopulate_same ..)).symm.trans
    (h.trans ((tcachePatch_same ..).trans (tcachePopulate_same ..)))

theorem resolveSlow_alike (h : SameButCache st st') (file : VPtr) (f : FileNode) (segment page : Nat)
    (isWrite : Bool) (look look' : CacheLookup) :
    ResolvedAlike isWrite (resolveSlow st file f segment page isWrite look)
      (resolveSlow st' file f segment page isWrite look') := by
  obtain ⟨cache, next, rfl⟩ := h
  have hfind : ∀ page pages, findPage (withCache st cache next) page pages = findPage st page pages :=
    fun _ _ => rfl
  have hinsert : ∀ page pn pages, insertPage (withCache st cache next) page pn pages =
      insertPage st page pn pages := fun _ _ _ => rfl
  have hnew : ∀ contents, SameButCache (newPageNode st file f page contents)
      (newPageNode (withCache st cache next) file f page contents) :=
    fun contents => ⟨cache, next, rfl⟩
  rw [resolveSlow, resolveSlow]
  cases f.contents[segment]? with
  | none =>
    cases isWrite with
    | true =>
      exact ⟨rfl, (tcachePatch_same ..).symm.trans ((hnew _).trans (tcachePatch_same ..))⟩
    | false => exact ⟨rfl, cache, next, rfl⟩
  | some fc =>
    dsimp only
    rw [hfind, hinsert]
    cases findPage st page fc.pages with
    | some pn => exact ⟨rfl, tail_same ⟨cache, next, rfl⟩ ..⟩
    | none =>
      cases isWrite with
      | true => exact ⟨rfl, tail_same (hnew _) ..⟩
      | false => exact ⟨rfl, cache, next, rfl⟩

theorem treeResolvePage_alike (hwf : PagesWf st) (hf : st.nodes file = some (.file f))
    (hseg : lp / st.segmentSize < 2 ^ 20) (h : SameButCache st st') (isWrite : Bool) :
    ResolvedAlike isWrite (treeResolvePage st file lp isWrite)
      (resolveUncached st' file lp isWrite) := by
  obtain ⟨hlp, hpage⟩ := div_mod_page hwf lp
  have hf' : st'.nodes file = some (.file f) := by
    obtain ⟨cache, next, rfl⟩ := h
    exact hf
  have hsize : st'.segmentSize = st.segmentSize := by
    obtain ⟨cache, next, rfl⟩ := h
    rfl
  simp only [treeResolvePage, hf, resolveUncached, hf', hsize]
  obtain ⟨e, hslot, hne, hhit⟩ | ⟨i, e, hslot, he, hgap⟩ | ⟨cache, hcache, hmiss⟩ :=
    tcacheLookup_cases st (cacheKey file (lp / st.segmentSize)) (lp % st.segmentSize)
  · have hpn := hslot.pages hwf hseg hpage hne
    rw [hlp, pageNodeOf_file hf] at hpn
    rw [hhit, resolveSlow]
    cases hfc : f.contents[lp / st.segmentSize]? with
    | none =>
      rw [segPages, hfc] at hpn
      cases hpn
    | some fc =>
      simp only [segPages, hfc] at hpn
      have hfind : findPage st' (lp % st.segmentSize) fc.pages = some (e.arr (lp % st.segmentSize)) := by
        obtain ⟨cache, next, rfl⟩ := h
        exact hpn
      simp only [hfind]
      exact ⟨rfl, h.trans ((tcachePatch_same ..).trans (tcachePopulate_same ..))⟩
  · rw [hgap]
    exact resolveSlow_alike h ..
  · rw [hmiss]
    have hdrop : SameButCache { st with tcache := cache } st :=
      ⟨st.tcache, st.tcacheNext, rfl⟩
    exact resolveSlow_alike (hdrop.trans h) ..

/-! ## Reading -/

structure Alike {α : Type} (r r' : α × State) : Prop where
  answer : r'.1 = r.1
  state : SameButCache r.2 r'.2

theorem readPage_same (h : SameButCache st st') (R : Int) (off count : Nat)
    (r : Option (VPtr × Bool)) (isWrite : Bool) :
    readPage st' R off count (r.map fun x => (x.1, isWrite)) = readPage st R off count r := by
  obtain ⟨cache, next, rfl⟩ := h
  cases r with
  | none => rfl
  | some x => rfl

theorem readLoop_alike (n : Nat) (hwf : FileWf st) (hf : st.nodes file = some (.file f))
    (h : SameButCache st st') (R : Int) (page off remaining : Nat)
    (hsegs : ∀ l < page + n, l / st.segmentSize < 2 ^ 20) :
    Alike (readLoop file R n st page off remaining)
      (readLoopWith resolveUncached file R n st' page off remaining) := by
  induction n generalizing st st' f page off remaining with
  | zero => exact ⟨rfl, h⟩
  | succ n ih =>
    have hseg := hsegs page (by omega)
    have hres := treeResolvePage_alike hwf.pagesWf hf hseg h false
    have hkeep := (treeResolvePage_spec hwf.pagesWf hf hseg false).edits.keeps hwf
    obtain ⟨f1, hf1, -⟩ := hkeep.sizes file f hf
    have hrest := ih hkeep.fileWf hf1 hres.state (page + 1) 0
      (remaining - min (st.pageSize - off) remaining)
      (by intro l hl; rw [hkeep.segmentSize]; exact hsegs l (by omega))
    have hps : st'.pageSize = st.pageSize := by
      obtain ⟨cache, next, rfl⟩ := h
      rfl
    simp only [readLoop, readLoopWith, hps]
    refine ⟨?_, hrest.state⟩
    rw [hres.node, readPage_same hres.state, hrest.answer]

theorem isFile_of_size (h : 0 ≤ vfsFileSize st file epoch) : ∃ f, st.nodes file = some (.file f) := by
  rw [vfsFileSize] at h
  split at h
  · exact ⟨_, ‹_›⟩
  · omega

theorem vfsRead_alike (hwf : FileWf st) (h : SameButCache st st') (file : VPtr)
    (offset count epoch : Int) :
    Alike (vfsRead st file offset count epoch)
      (vfsReadWith resolveUncached st' file offset count epoch) := by
  obtain ⟨cache, next, rfl⟩ := id h
  have hsize : vfsFileSize (withCache st cache next) file epoch = vfsFileSize st file epoch := rfl
  rw [vfsRead, vfsReadWith]
  simp only [hsize]
  split
  · exact ⟨rfl, h⟩
  rename_i hargs
  split
  · exact ⟨rfl, h⟩
  rename_i hlt
  obtain ⟨f, hf⟩ := isFile_of_size (by omega : 0 ≤ vfsFileSize st file epoch)
  have hle : vfsFileSize st file epoch ≤ maxSize st := by
    simp only [vfsFileSize, hf]
    exact Int.ofNat_le.2 (sizechainGet_le hwf.pagesWf hf)
  obtain ⟨m, hm, hpos, hend⟩ : ∃ m, (if offset + count > vfsFileSize st file epoch then
      vfsFileSize st file epoch - offset else count).toNat = m ∧ 0 < m ∧
      offset.toNat + m ≤ maxSize st := by
    refine ⟨_, rfl, ?_⟩
    split <;> omega
  rw [hm]
  have hloop := readLoop_alike _ hwf hf h (resolve st.mapperTable epoch) (offset.toNat / st.pageSize)
    (offset.toNat % st.pageSize) m (segs_of_range hwf.pagesWf hpos hend)
  exact ⟨congrArg Except.ok hloop.answer, hloop.state⟩

/-! ## Writing -/

/-- Every page of the write reaches the pool: it has a version stored at the epoch, which is
overwritten in place, or the segment cache does not have it when the write comes to it. -/
def WriteReaches (st : State) (file : VPtr) (data : List UInt8) (offset : Nat) (epoch : Int) : Prop :=
  ∀ lp, offset / st.pageSize ≤ lp → lp ≤ (offset + data.length - 1) / st.pageSize →
    (inPlaceVersion epoch (pageVersions st file lp)).isSome ∨
      foundInCache st file (offset / st.pageSize) lp = false

theorem writePage_same (h : SameButCache st st') {pn : VPtr} (hpn : pageNodeOf st file lp = some pn)
    {pinned : Bool}
    (hreach : (inPlaceVersion epoch (pageVersions st file lp)).isSome ∨ pinned = true) (off : Nat)
    (bytes : List UInt8) :
    SameButCache (writePage st pn pinned epoch off bytes) (writePage st' pn true epoch off bytes) := by
  obtain ⟨cache, next, rfl⟩ := h
  have hnodes : (withCache st cache next).pageNodes = st.pageNodes := rfl
  rw [writePage, writePage, hnodes]
  cases hn : st.pageNodes pn with
  | none => exact ⟨cache, next, rfl⟩
  | some n =>
    dsimp only
    cases hin : inPlaceVersion epoch n.versions with
    | some v => exact ⟨cache, next, rfl⟩
    | none =>
      rw [pageVersions_of_node hpn hn, hin] at hreach
      obtain hsome | rfl := hreach
      · cases hsome
      · exact ⟨cache, next, rfl⟩

theorem writeLoop_alike (n : Nat) (hep : EpochWf st) (he : Writable st epoch) (hwf : FileWf st)
    (hf : st.nodes file = some (.file f)) (h : SameButCache st st') (page off : Nat)
    (bytes : List UInt8) (hsegs : ∀ l < page + n, l / st.segmentSize < 2 ^ 20)
    (hreach : ∀ lp, page ≤ lp → lp < page + n →
      (inPlaceVersion epoch (pageVersions st file lp)).isSome ∨ foundInCache st file page lp = false) :
    Alike (writeLoop file epoch n st page off bytes)
      (writeLoopWith resolveUncached file epoch n st' page off bytes) := by
  induction n generalizing st st' f page off bytes with
  | zero => exact ⟨rfl, h⟩
  | succ n ih =>
    have hseg := hsegs page (by omega)
    have hres := treeResolvePage_spec hwf.pagesWf hf hseg true
    obtain ⟨pn, pinned, hpn, hnode, -⟩ := hres.write rfl
    have hpinned := treeResolvePage_pinned hf hpn
    have halike := treeResolvePage_alike hwf.pagesWf hf hseg h true
    have hwf1 := hres.edits.fileWf hwf
    have hkept := hres.edits.dirsKept
    have hep1 := hkept.epochWf hep
    have he1 := he.kept hkept
    have hvers1 := hres.edits.pageVersions hwf file
    have hseg1 := (hres.edits.keeps hwf).segmentSize
    have hnext : ∀ lp, page < lp → _ := fun lp => foundInCache_next st file
    have hps : st'.pageSize = st.pageSize := by
      obtain ⟨cache, next, rfl⟩ := h
      rfl
    have hthis : (inPlaceVersion epoch (pageVersions st file page)).isSome ∨ pinned = true := by
      rw [hpinned]
      refine (hreach page (Nat.le_refl _) (by omega)).imp_right fun hmiss => ?_
      rw [← foundInCache_self, hmiss]
      rfl
    rw [writeLoop, writeLoopWith, hps]
    generalize treeResolvePage st file page true = r at *
    generalize resolveUncached st' file page true = r' at *
    obtain ⟨r1, st1⟩ := r
    obtain ⟨r1', st1'⟩ := r'
    obtain rfl : r1 = some (pn, pinned) := hpn
    obtain ⟨hnode', hst1⟩ := halike
    obtain rfl : r1' = some (pn, true) := hnode'
    dsimp only at *
    set chunk := bytes.take (min (st.pageSize - off) bytes.length)
    rw [← hvers1 page] at hthis
    have hwrite := writePage_same hst1 hnode hthis off chunk
    have hwr := writePage_written hwf1 pn pinned epoch off chunk
    have hkeep2 := (writePage_edits st1 pn pinned epoch off chunk).keeps hep1 he1 hwf1
    generalize writePage st1 pn pinned epoch off chunk = st2 at *
    obtain ⟨f1, hf1⟩ := hkept.files file f hf
    obtain ⟨f2, hf2⟩ := hkeep2.kept.files file f1 hf1
    refine ih (hkeep2.kept.epochWf hep1) (he1.kept hkeep2.kept) hkeep2.fileWf hf2 hwrite (page + 1) 0 _
      (fun l hl => ?_) (fun lp hlo hhi => ?_)
    · rw [hwr.shape.segmentSize, hseg1]
      exact hsegs l (by omega)
    · have hother := hwr.others file lp fun hsame => by
        have := (hwf1.pn_inj file lp file page pn hsame hnode).2
        omega
      rw [hother.versions, hvers1, foundInCache_shape hwr.shape, ← hnext lp (by omega)]
      exact hreach lp (by omega) (by omega)

theorem SameButCache.prependSize (h : SameButCache st st') (file : VPtr) (epoch : Int) (size : Nat) :
    SameButCache (prependSize st file epoch size) (prependSize st' file epoch size) := by
  obtain ⟨cache, next, rfl⟩ := h
  have hnodes : (withCache st cache next).nodes = st.nodes := rfl
  rw [SphereVFS.prependSize, SphereVFS.prependSize, hnodes]
  split
  all_goals exact ⟨cache, next, rfl⟩

theorem vfsWrite_alike (hep : EpochWf st) (he : Issued st epoch) (hwf : FileWf st)
    (h : SameButCache st st') {data : List UInt8} {offset : Int}
    (hrange : offset.toNat + data.length ≤ maxSize st)
    (hreach : WriteReaches st file data offset.toNat epoch) :
    Alike (vfsWrite st file data offset epoch)
      (vfsWriteWith resolveUncached st' file data offset epoch) := by
  obtain ⟨cache, next, rfl⟩ := id h
  have hcheck : epochIsWritable (withCache st cache next) epoch = epochIsWritable st epoch := rfl
  have hnodes : (withCache st cache next).nodes = st.nodes := rfl
  have hsize : vfsFileSize (withCache st cache next) file epoch = vfsFileSize st file epoch := rfl
  have hps : (withCache st cache next).pageSize = st.pageSize := rfl
  rw [vfsWrite, vfsWriteWith]
  simp only [hcheck, hnodes, hsize, hps]
  split
  · exact ⟨rfl, h⟩
  rename_i hargs
  split
  · exact ⟨rfl, h⟩
  rename_i hw
  have he' := hep.writable_of_check he (by simpa using hw)
  rcases hn : st.nodes file with _ | d | f
  · exact ⟨rfl, h⟩
  · exact ⟨rfl, h⟩
  have hlen : 0 < data.length := List.length_pos_iff.2 fun hnil => hargs (.inl hnil)
  have hdiv : offset.toNat / st.pageSize ≤ (offset.toNat + data.length - 1) / st.pageSize :=
    Nat.div_le_div_right (by omega)
  have hloop := writeLoop_alike _ hep he' hwf hn h (offset.toNat / st.pageSize)
    (offset.toNat % st.pageSize) data (segs_of_range hwf.pagesWf hlen hrange)
    fun lp hlo hhi => hreach lp hlo (by omega)
  dsimp only
  generalize writeLoop file epoch _ st (offset.toNat / st.pageSize) _ data = r at *
  generalize writeLoopWith resolveUncached file epoch _ _ (offset.toNat / st.pageSize) _ data = r' at *
  obtain ⟨ok, st1⟩ := r
  obtain ⟨ok', st1'⟩ := r'
  obtain ⟨hok, hst1⟩ := hloop
  obtain rfl : ok' = ok := hok
  cases ok' with
  | false => exact ⟨rfl, hst1⟩
  | true =>
    dsimp only
    split
    · exact ⟨rfl, hst1.prependSize file epoch _⟩
    · exact ⟨rfl, hst1⟩

theorem growLoop_alike (n : Nat) (hep : EpochWf st) (he : Writable st epoch) (hwf : FileWf st)
    (h : SameButCache st st') {off remaining : Nat} (hrange : off + remaining ≤ maxSize st)
    (hreach : GrowSteps (fun st data off => WriteReaches st file data off epoch) file epoch n st off
      remaining) :
    Alike (growLoop file epoch n st off remaining)
      (growLoopWith resolveUncached file epoch n st' off remaining) := by
  induction n generalizing st st' off remaining with
  | zero => exact ⟨rfl, h⟩
  | succ n ih =>
    rw [growLoop, growLoopWith]
    split
    · exact ⟨rfl, h⟩
    rename_i hpos
    obtain ⟨hone, hrest⟩ := hreach hpos
    have hrange1 : ((off : Int).toNat) + (List.replicate (min remaining 8192) (0 : UInt8)).length ≤
        maxSize st := by
      rw [List.length_replicate, Int.toNat_natCast]
      omega
    have hwrite := vfsWrite_alike hep he.issued hwf h hrange1 hone
    have hedits : WriteEdits epoch st
        (vfsWrite st file (List.replicate (min remaining 8192) 0) off epoch).2 :=
      vfsWrite_edits hwf.pagesWf file _ off epoch hrange1
    have hkeep := hedits.keeps hep he hwf
    dsimp only
    generalize vfsWrite st file (List.replicate (min remaining 8192) 0) off epoch = r at *
    generalize vfsWriteWith resolveUncached st' file _ off epoch = r' at *
    obtain ⟨a, st1⟩ := r
    obtain ⟨a', st1'⟩ := r'
    obtain ⟨ha, hst1⟩ := hwrite
    obtain rfl : a' = a := ha
    cases a' with
    | error e => exact ⟨rfl, hst1⟩
    | ok k =>
      refine ih (hkeep.kept.epochWf hep) (he.kept hkeep.kept) hkeep.fileWf hst1 ?_ hrest
      rw [maxSize, hkeep.pageSize, hkeep.segmentSize, ← maxSize]
      omega

theorem vfsTruncate_alike (hep : EpochWf st) (he : Issued st epoch) (hwf : FileWf st)
    (h : SameButCache st st') {newSize : Int} (hrange : newSize.toNat ≤ maxSize st)
    (hreach : GrowSteps (fun st data off => WriteReaches st file data off epoch) file epoch
      (newSize - vfsFileSize st file epoch).toNat st (vfsFileSize st file epoch).toNat
      (newSize - vfsFileSize st file epoch).toNat) :
    Alike (vfsTruncate st file newSize epoch)
      (vfsTruncateWith resolveUncached st' file newSize epoch) := by
  obtain ⟨cache, next, rfl⟩ := id h
  have hcheck : epochIsWritable (withCache st cache next) epoch = epochIsWritable st epoch := rfl
  have hnodes : (withCache st cache next).nodes = st.nodes := rfl
  have hsize : vfsFileSize (withCache st cache next) file epoch = vfsFileSize st file epoch := rfl
  rw [vfsTruncate, vfsTruncateWith]
  simp only [hcheck, hnodes, hsize]
  split
  · exact ⟨rfl, h⟩
  split
  · exact ⟨rfl, h⟩
  rename_i hneg hw
  have he' := hep.writable_of_check he (by simpa using hw)
  rcases hn : st.nodes file with _ | d | f
  · exact ⟨rfl, h⟩
  · exact ⟨rfl, h⟩
  dsimp only
  split
  · exact ⟨rfl, h⟩
  split
  · obtain ⟨cache', next', hcut⟩ := h.prependSize file epoch newSize.toNat
    rw [hcut]
    exact ⟨rfl, cache', next', rfl⟩
  · have hnn : 0 ≤ vfsFileSize st file epoch := by
      simp only [vfsFileSize, hn]
      omega
    exact growLoop_alike _ hep he' hwf h (by omega) hreach

/-! ## Sequences of calls -/

def FileOp.op : FileOp → Op
  | .read file offset count epoch => .read file offset count epoch
  | .write file data offset epoch => .write file data offset epoch
  | .truncate file newSize epoch => .truncate file newSize epoch
  | .snapshot => .snapshot

def CallReaches (st : State) : FileOp → Prop
  | .read _ _ _ _ | .snapshot => True
  | .write file data offset epoch => WriteReaches st file data offset.toNat epoch
  | .truncate file newSize epoch =>
    GrowSteps (fun st data off => WriteReaches st file data off epoch) file epoch
      (newSize - vfsFileSize st file epoch).toNat st (vfsFileSize st file epoch).toNat
      (newSize - vfsFileSize st file epoch).toNat

theorem perform_alike (hwf : Wf st) (h : SameButCache st st') {call : FileOp} (hfile : call.file < 2 ^ 44)
    (hvalid : ValidOp st call.op) (hreach : CallReaches st call) :
    Alike (performWith treeResolvePage64 st call) (performWith resolveUncached st' call) ∧
      (performWith treeResolvePage64 st call).2 = step st call.op := by
  cases call with
  | read file offset count epoch =>
    have hread := vfsRead_alike hwf.file h file offset count epoch
    simp only [performWith, vfsReadWith_tree (treeResolvePage64_eq (show file < 2 ^ 44 from hfile))]
    exact ⟨⟨congrArg Answer.bytes hread.answer, hread.state⟩, rfl⟩
  | write file data offset epoch =>
    have hwrite := vfsWrite_alike hwf.epoch hvalid.1 hwf.file h hvalid.2 hreach
    simp only [performWith, vfsWriteWith_tree (treeResolvePage64_eq (show file < 2 ^ 44 from hfile))]
    exact ⟨⟨congrArg Answer.wrote hwrite.answer, hwrite.state⟩, rfl⟩
  | truncate file newSize epoch =>
    have hcut := vfsTruncate_alike hwf.epoch hvalid.1 hwf.file h hvalid.2 hreach
    simp only [performWith, vfsTruncateWith_tree (treeResolvePage64_eq (show file < 2 ^ 44 from hfile))]
    exact ⟨⟨congrArg Answer.truncated hcut.answer, hcut.state⟩, rfl⟩
  | snapshot =>
    obtain ⟨cache, next, rfl⟩ := h
    exact ⟨⟨rfl, cache, next, rfl⟩, rfl⟩

/-- A valid call on a file whose pointer is below `2 ^ 44`, with writes that reach the pool. -/
structure SafeCall (st : State) (call : FileOp) : Prop where
  valid : ValidOp st call.op
  file : call.file < 2 ^ 44
  reaches : CallReaches st call

theorem answers_eq (hwf : Wf st) (h : SameButCache st st') {calls : List FileOp}
    (hcalls : Run.AllSteps (fun st call => step st call.op) SafeCall st calls) :
    answers resolveUncached st' calls = answers treeResolvePage64 st calls := by
  induction calls generalizing st st' with
  | nil => rfl
  | cons call calls ih =>
    obtain ⟨⟨hvalid, hfile, hreach⟩, hrest⟩ := hcalls
    obtain ⟨hone, hstate⟩ := perform_alike hwf h hfile hvalid hreach
    have hsame := hone.state
    rw [hstate] at hsame
    rw [answers, answers, hone.answer, hstate, ih (step_wf hwf hvalid) hsame hrest]

/-- **The segment cache is transparent** if no write meets a page in the cache that it would have to
add a version to: from every volume reached by valid operations, every sequence of valid reads,
writes, truncations and snapshots whose writes all reach the pool, on files with pointers below
`2 ^ 44`, gets the answers that it gets without the fast path. -/
theorem segment_cache_transparent {pageSize segmentSize : Nat} (hp : 0 < pageSize)
    (hs : 0 < segmentSize) (ops : List Op)
    (hops : Run.AllSteps step ValidOp (bootstrap pageSize segmentSize) ops) (calls : List FileOp)
    (hcalls : Run.AllSteps (fun st call => step st call.op) SafeCall
      (run (bootstrap pageSize segmentSize) ops) calls) :
    answers treeResolvePage64 (run (bootstrap pageSize segmentSize) ops) calls =
      answers resolveUncached (run (bootstrap pageSize segmentSize) ops) calls :=
  (answers_eq (reachable_wf hp hs hops) (.refl _) hcalls).symm

instance (st : State) (file : VPtr) (data : List UInt8) (offset : Nat) (epoch : Int) :
    Decidable (WriteReaches st file data offset epoch) :=
  decidable_of_iff (∀ lp < (offset + data.length - 1) / st.pageSize + 1, offset / st.pageSize ≤ lp →
      (inPlaceVersion epoch (pageVersions st file lp)).isSome ∨
        foundInCache st file (offset / st.pageSize) lp = false)
    ⟨fun h lp hlo hhi => h lp (by omega) hlo, fun h lp hhi hlo => h lp hlo (by omega)⟩

instance decidableGrowSteps {P : State → List UInt8 → Nat → Prop} [∀ st data off, Decidable (P st data off)]
    (file : VPtr) (epoch : Int) : ∀ n st off remaining, Decidable (GrowSteps P file epoch n st off remaining)
  | 0, _, _, _ => isTrue trivial
  | n + 1, _, _, remaining =>
    have := decidableGrowSteps (P := P) file epoch n
    inferInstanceAs (Decidable (remaining ≠ 0 → _ ∧ GrowSteps ..))

instance (st : State) : ∀ call, Decidable (CallReaches st call)
  | .read _ _ _ _ | .snapshot => isTrue trivial
  | .write file data offset epoch => inferInstanceAs (Decidable (WriteReaches st file data offset.toNat epoch))
  | .truncate file _ epoch => inferInstanceAs (Decidable (GrowSteps _ file epoch _ st _ _))

instance (st : State) (call : FileOp) : Decidable (SafeCall st call) :=
  decidable_of_iff (ValidOp st call.op ∧ call.file < 2 ^ 44 ∧ CallReaches st call)
    ⟨fun h => ⟨h.1, h.2.1, h.2.2⟩, fun h => ⟨h.valid, h.file, h.reaches⟩⟩

/-- The pages of one segment up to the 64th, each written with one byte at epoch `0`. -/
def fullSegment : List FileOp := (List.range 64).map fun page => .write 2 [1] (page * 8192 : Nat) 0

/-- A segment in the cache: a page is written in place. After a snapshot a page that the cache does not
have is written, and both are read. -/
theorem segment_cache_transparent_full :
    let st := run (bootstrap 8192 1024) [.create 1 [97] 0]
    let calls : List FileOp := fullSegment ++
      [.write 2 [9] 0 0, .snapshot, .write 2 [7] (64 * 8192) 2, .read 2 0 1 2, .read 2 (64 * 8192) 1 2]
    answers treeResolvePage64 st calls = answers resolveUncached st calls := by
  refine segment_cache_transparent (by decide) (by decide) _ (by decide +kernel) _ ?_
  decide +kernel

/-- At head `2`, after a snapshot, the first page of a segment in the cache is written again and read:
the second write is lost with the cache, and not without it. -/
theorem first_write_at_head_lost :
    let st := run (bootstrap 8192 1024) [.create 1 [97] 0]
    let calls := fullSegment ++ [.snapshot, .write 2 [9] 0 2, .read 2 0 1 2]
    Run.AllSteps (fun st call => step st call.op) (fun st call => ValidOp st call.op) st calls ∧
      (answers treeResolvePage64 st calls).getLast? = some (.bytes (.ok [1])) ∧
      (answers resolveUncached st calls).getLast? = some (.bytes (.ok [9])) := by
  refine ⟨?_, ?_, ?_⟩
  all_goals decide +kernel

end SphereVFS
