import SphereVFS.Volume

/-!
# SphereVFS.WriteView

What a write does to the view of its own epoch, page by page.

A page of a write ends in one of three ways. The version stored at the epoch is overwritten in
place. Or a copy of a base is made and becomes the newest version. Or the copy is lost, because the
page node came from the segment cache. Whether the view changes as the caller expects depends on
whether the version or the base is the one the view shows.
-/

namespace SphereVFS

variable {st st' st1 : State} {file : VPtr} {f : FileNode} {epoch : Int} {lp page : Nat}

/-! ## The segment cache during a write -/

def cacheHit (st : State) (file : VPtr) (lp : Nat) : Bool :=
  match (tcacheLookup st (cacheKey file (lp / st.segmentSize)) (lp % st.segmentSize)).1 with
  | .hit _ => true
  | _ => false

theorem resolveSlow_pinned (st : State) (file : VPtr) (f : FileNode) (segment page : Nat)
    (look : CacheLookup) :
    ∃ pn, (resolveSlow st file f segment page true look).1 = some (pn, true) := by
  rw [resolveSlow]
  split
  · exact ⟨st.nextVp, rfl⟩
  · split
    · rename_i pn _
      exact ⟨pn, rfl⟩
    · exact ⟨st.nextVp, rfl⟩

theorem treeResolvePage_pinned (hf : st.nodes file = some (.file f)) {pn : VPtr} {pinned : Bool}
    (h : (treeResolvePage st file lp true).1 = some (pn, pinned)) : pinned = !cacheHit st file lp := by
  simp only [treeResolvePage, hf] at h
  rw [cacheHit]
  generalize tcacheLookup st (cacheKey file (lp / st.segmentSize)) (lp % st.segmentSize) = r at h
  obtain ⟨look, st1⟩ := r
  cases look with
  | hit pn' =>
    cases h
    rfl
  | gap i =>
    obtain ⟨pn', hslow⟩ := resolveSlow_pinned st1 file f (lp / st.segmentSize) (lp % st.segmentSize)
      (.gap i)
    rw [hslow] at h
    cases h
    rfl
  | miss =>
    obtain ⟨pn', hslow⟩ := resolveSlow_pinned st1 file f (lp / st.segmentSize) (lp % st.segmentSize)
      .miss
    rw [hslow] at h
    cases h
    rfl

structure SameShape (st st' : State) : Prop where
  nodes : st'.nodes = st.nodes
  segmentSize : st'.segmentSize = st.segmentSize
  tcache : st'.tcache = st.tcache
  tcacheNext : st'.tcacheNext = st.tcacheNext
  gcGeneration : st'.gcGeneration = st.gcGeneration
  nextVp : st'.nextVp = st.nextVp
  index : pageIdx st' = pageIdx st

theorem tcacheLookup_shape (h : SameShape st st') (key page : Nat) :
    (tcacheLookup st' key page).1 = (tcacheLookup st key page).1 ∧
      SameShape (tcacheLookup st key page).2 (tcacheLookup st' key page).2 := by
  have hfind : tcacheFind st' key = tcacheFind st key := by rw [tcacheFind, tcacheFind, h.tcache]
  rw [tcacheLookup, tcacheLookup, hfind, h.tcache, h.gcGeneration]
  split
  · exact ⟨rfl, h⟩
  · split
    · exact ⟨rfl, h⟩
    · split
      · exact ⟨rfl, h.nodes, h.segmentSize, rfl, h.tcacheNext, rfl, h.nextVp, h.index⟩
      · split
        · exact ⟨rfl, h⟩
        · exact ⟨rfl, h⟩

theorem tcachePatch_shape (h : SameShape st st') (look : CacheLookup) (page : Nat) (pn : VPtr) :
    SameShape (tcachePatch st look page pn) (tcachePatch st' look page pn) := by
  cases look with
  | hit => exact h
  | miss => exact h
  | gap i =>
    simp only [tcachePatch, h.tcache]
    split
    · exact ⟨h.nodes, h.segmentSize, rfl, h.tcacheNext, h.gcGeneration, h.nextVp, h.index⟩
    · exact h

theorem tcachePopulate_shape (h : SameShape st st') (key : Nat) (fc : FileContent) :
    SameShape (tcachePopulate st key fc) (tcachePopulate st' key fc) := by
  have harr : buildArray st' fc.pages = buildArray st fc.pages := by
    simp only [buildArray, h.index, h.segmentSize]
  rw [tcachePopulate, tcachePopulate]
  split
  · refine ⟨h.nodes, h.segmentSize, ?_, ?_, h.gcGeneration, h.nextVp, h.index⟩
    · dsimp only
      rw [h.tcache, h.tcacheNext, h.gcGeneration, harr]
    · dsimp only
      rw [h.tcacheNext]
  · exact h

theorem newPageNode_shape (h : SameShape st st') (file : VPtr) (f : FileNode) (page : Nat)
    (contents : List FileContent) :
    SameShape (newPageNode st file f page contents) (newPageNode st' file f page contents) := by
  refine ⟨?_, h.segmentSize, h.tcache, h.tcacheNext, h.gcGeneration, ?_, ?_⟩
  · simp only [newPageNode, h.nodes]
  · simp only [newPageNode, h.nextVp]
  · funext v
    have hv := congrFun h.index v
    simp only [pageIdx, newPageNode, h.nextVp] at hv ⊢
    by_cases hne : v = st.nextVp
    · rw [hne, Function.update_self, Function.update_self]
    · rw [Function.update_of_ne hne, Function.update_of_ne hne]
      exact hv

theorem resolveSlow_shape (h : SameShape st st') (file : VPtr) (f : FileNode) (segment page : Nat)
    (look : CacheLookup) :
    SameShape (resolveSlow st file f segment page true look).2
      (resolveSlow st' file f segment page true look).2 := by
  have hfind : ∀ pages, findPage st' page pages = findPage st page pages := by
    intro pages
    simp only [findPage, h.index]
  have hins : ∀ pages, insertPage st' page st.nextVp pages = insertPage st page st.nextVp pages := by
    intro pages
    simp only [insertPage, h.index]
  rw [resolveSlow, resolveSlow, h.nextVp]
  split
  · exact tcachePatch_shape (newPageNode_shape h ..) ..
  · dsimp only
    rw [hfind, hins]
    split
    · exact tcachePopulate_shape (tcachePatch_shape h ..) ..
    · exact tcachePopulate_shape (tcachePatch_shape (newPageNode_shape h ..) ..) ..

theorem treeResolvePage_shape (h : SameShape st st') (file : VPtr) (lp : Nat) :
    SameShape (treeResolvePage st file lp true).2 (treeResolvePage st' file lp true).2 := by
  obtain ⟨hlook, hshape⟩ := tcacheLookup_shape h (cacheKey file (lp / st.segmentSize))
    (lp % st.segmentSize)
  rw [treeResolvePage, treeResolvePage, h.nodes, h.segmentSize]
  split
  · dsimp only
    generalize tcacheLookup st (cacheKey file (lp / st.segmentSize)) (lp % st.segmentSize) = r at *
    generalize tcacheLookup st' (cacheKey file (lp / st.segmentSize)) (lp % st.segmentSize) = r' at *
    obtain ⟨look, st₁⟩ := r
    obtain ⟨look', st₁'⟩ := r'
    obtain rfl : look' = look := hlook
    cases look' with
    | hit => exact hshape
    | gap => exact resolveSlow_shape hshape ..
    | miss => exact resolveSlow_shape hshape ..
  · exact h

/-- The state after `n` pages from `page` on were resolved for writing. -/
def resolvePages (file : VPtr) : Nat → State → Nat → State
  | 0, st, _ => st
  | n + 1, st, page => resolvePages file n (treeResolvePage st file page true).2 (page + 1)

/-- The segment cache has the node of page `lp` when a write that starts at page `first` comes to
it. The earlier pages are followed, since the slots before the write do not decide this: each node
added to a segment of 64 or more takes the next of the 16 slots, and patches one slot only. -/
def foundInCache (st : State) (file : VPtr) (first lp : Nat) : Bool :=
  cacheHit (resolvePages file (lp - first) st first) file lp

theorem resolvePages_shape (n : Nat) (h : SameShape st st') (file : VPtr) (page : Nat) :
    SameShape (resolvePages file n st page) (resolvePages file n st' page) := by
  induction n generalizing st st' page with
  | zero => exact h
  | succ n ih => exact ih (treeResolvePage_shape h file page) (page + 1)

theorem foundInCache_shape (h : SameShape st st') (file : VPtr) (first lp : Nat) :
    foundInCache st' file first lp = foundInCache st file first lp := by
  have hshape := resolvePages_shape (lp - first) h file first
  rw [foundInCache, foundInCache, cacheHit, cacheHit, hshape.segmentSize,
    (tcacheLookup_shape hshape _ _).1]

/-! ## One page -/

def pageVersions (st : State) (file : VPtr) (lp : Nat) : List VersionPage :=
  match pageNodeOf st file lp with
  | some pn => versionsOf st pn
  | none => []

def bytesOf (st : State) : Option VersionPage → Page
  | some v => (st.data v.dataPage).getD fun _ => 0
  | none => fun _ => 0

/-- The page a write at the epoch lays its bytes over, as far as its readers will see: `none` when
what it writes does not come into view. -/
def writeBase (st : State) (epoch : Int) (file : VPtr) (lp : Nat) (inCache : Bool) : Option Page :=
  match inPlaceVersion epoch (pageVersions st file lp) with
  | some v =>
    if chainWalk VersionPage.epoch st.mapperTable epoch (pageVersions st file lp) = some v then
      some (bytesOf st (some v))
    else none
  | none => if inCache then none else some (bytesOf st (cowBase epoch (pageVersions st file lp)))

theorem pageVersions_of_node {pn : VPtr} {n : PageNode} (hpn : pageNodeOf st file lp = some pn)
    (hn : st.pageNodes pn = some n) : pageVersions st file lp = n.versions := by
  simp only [pageVersions, hpn, versionsOf, hn]

theorem pageView_eq (st : State) (R : Int) (file : VPtr) (lp : Nat) :
    pageView st R file lp =
      bytesOf st (chainWalk VersionPage.epoch st.mapperTable R (pageVersions st file lp)) := by
  rw [pageView, pageVersions]
  cases pageNodeOf st file lp with
  | none => rfl
  | some pn =>
    simp only [versionBytes, versionsOf]
    cases st.pageNodes pn with
    | none => rfl
    | some n =>
      dsimp only
      cases chainWalk VersionPage.epoch st.mapperTable R n.versions with
      | none => rfl
      | some v => rfl

theorem FileEdits.pageVersions (h : FileEdits st st1) (hwf : FileWf st) (file : VPtr) (lp : Nat) :
    pageVersions st1 file lp = pageVersions st file lp := by
  rw [SphereVFS.pageVersions, SphereVFS.pageVersions]
  cases hpn1 : pageNodeOf st1 file lp with
  | some pn =>
    obtain ⟨hpn, hv⟩ | ⟨hpn, hv⟩ := FileEdits.versions h hwf hpn1
    · rw [hpn]
      exact hv
    · rw [hpn]
      exact hv
  | none =>
    cases hpn : pageNodeOf st file lp with
    | none => rfl
    | some pn =>
      rw [FileEdits.keeps_page h hwf.pagesWf hpn] at hpn1
      cases hpn1

theorem FileEdits.writeBase (h : FileEdits st st1) (hwf : FileWf st) (epoch : Int) (file : VPtr)
    (lp : Nat) (inCache : Bool) :
    writeBase st1 epoch file lp inCache = writeBase st epoch file lp inCache := by
  have hbytes : bytesOf st1 = bytesOf st := by
    funext v
    cases v with
    | none => rfl
    | some v => simp only [bytesOf, (h.keeps hwf).data]
  rw [SphereVFS.writeBase, SphereVFS.writeBase, h.pageVersions hwf, h.dirsKept.table, hbytes]

structure SamePage (st st' : State) (file : VPtr) (lp : Nat) : Prop where
  versions : pageVersions st' file lp = pageVersions st file lp
  data : ∀ v ∈ pageVersions st file lp, st'.data v.dataPage = st.data v.dataPage

theorem SamePage.bytes (h : SamePage st st' file lp) {o : Option VersionPage}
    (ho : ∀ v, o = some v → v ∈ pageVersions st file lp) : bytesOf st' o = bytesOf st o := by
  cases o with
  | none => rfl
  | some v => simp only [bytesOf, h.data v (ho v rfl)]

theorem SamePage.view (h : SamePage st st' file lp) (htable : st'.mapperTable = st.mapperTable)
    (R : Int) : pageView st' R file lp = pageView st R file lp := by
  rw [pageView_eq, pageView_eq, h.versions, htable]
  exact h.bytes fun v hv => mem_of_chainWalk hv

theorem SamePage.writeBase (h : SamePage st st' file lp) (htable : st'.mapperTable = st.mapperTable)
    (epoch : Int) (inCache : Bool) :
    writeBase st' epoch file lp inCache = writeBase st epoch file lp inCache := by
  rw [SphereVFS.writeBase, SphereVFS.writeBase, h.versions, htable]
  cases hin : inPlaceVersion epoch (pageVersions st file lp) with
  | some v =>
    have hbytes : bytesOf st' (some v) = bytesOf st (some v) := by
      apply h.bytes
      rintro _ ⟨⟩
      exact List.mem_of_find?_eq_some hin
    simp only [hbytes]
  | none =>
    have hbytes : bytesOf st' (cowBase epoch (pageVersions st file lp)) =
        bytesOf st (cowBase epoch (pageVersions st file lp)) := by
      apply h.bytes
      intro v hv
      exact List.mem_of_find?_eq_some hv
    simp only [hbytes]

theorem mem_pageVersions {v : VersionPage} (h : v ∈ pageVersions st file lp) :
    ∃ pn n, pageNodeOf st file lp = some pn ∧ st.pageNodes pn = some n ∧ v ∈ n.versions := by
  rw [pageVersions] at h
  cases hpn : pageNodeOf st file lp with
  | none => simp [hpn] at h
  | some pn =>
    cases hn : st.pageNodes pn with
    | none => simp [hpn, versionsOf, hn] at h
    | some n => exact ⟨pn, n, rfl, hn, by simpa [hpn, versionsOf, hn] using h⟩

/-- What `writePage` keeps: all that resolving looks at, and every page but its own. -/
structure PageWritten (st : State) (pn : VPtr) (st' : State) : Prop where
  shape : SameShape st st'
  table : st'.mapperTable = st.mapperTable
  pageSize : st'.pageSize = st.pageSize
  pages : ∀ file lp, pageNodeOf st' file lp = pageNodeOf st file lp
  others : ∀ file lp, pageNodeOf st file lp ≠ some pn → SamePage st st' file lp

theorem writePage_written (hwf : FileWf st) (pn : VPtr) (pinned : Bool) (epoch : Int) (off : Nat)
    (bytes : List UInt8) : PageWritten st pn (writePage st pn pinned epoch off bytes) := by
  have hrefl : SameShape st st := ⟨rfl, rfl, rfl, rfl, rfl, rfl, rfl⟩
  rw [writePage]
  split
  · exact ⟨hrefl, rfl, rfl, fun _ _ => rfl, fun _ _ _ => ⟨rfl, fun _ _ => rfl⟩⟩
  rename_i n hn
  split
  · rename_i v hin
    have hmem : v ∈ n.versions := List.mem_of_find?_eq_some hin
    refine ⟨⟨rfl, rfl, rfl, rfl, rfl, rfl, rfl⟩, rfl, rfl, fun _ _ => rfl, fun file lp hne => ?_⟩
    refine ⟨rfl, fun w hw => Function.update_of_ne ?_ ..⟩
    -- another page has other data pages
    intro heq
    obtain ⟨pn', n', hpn', hn', hw'⟩ := mem_pageVersions hw
    obtain ⟨rfl, -⟩ := hwf.data_inj pn' n' w pn n v hn' hw' hn hmem heq
    exact hne hpn'
  · have hdata : ∀ (p : Page) file lp, ∀ w ∈ pageVersions st file lp,
        Function.update st.data st.nextPage (some p) w.dataPage = st.data w.dataPage := by
      intro p file lp w hw
      obtain ⟨pn', n', -, hn', hw'⟩ := mem_pageVersions hw
      exact Function.update_of_ne (hwf.version_ne_nextPage hn' hw') ..
    cases pinned with
    | true =>
      refine ⟨⟨rfl, rfl, rfl, rfl, rfl, rfl, funext (pageIdx_version hn)⟩, rfl, rfl,
        pageNodeOf_version hn _ epoch, fun file lp hne => ⟨?_, hdata _ file lp⟩⟩
      rw [pageVersions, pageVersions]
      simp only [if_true]
      rw [pageNodeOf_version hn _ epoch]
      cases hpn' : pageNodeOf st file lp with
      | none => rfl
      | some pn' =>
        have hpn : pn' ≠ pn := by
          rintro rfl
          exact hne hpn'
        simp only [versionsOf, Function.update_of_ne hpn]
    | false => exact ⟨⟨rfl, rfl, rfl, rfl, rfl, rfl, rfl⟩, rfl, rfl, fun _ _ => rfl,
        fun file lp _ => ⟨rfl, hdata _ file lp⟩⟩

theorem writePage_view (hep : EpochWf st) (he : Writable st epoch) (hwf : FileWf st) {pn : VPtr}
    (hpn : pageNodeOf st file lp = some pn) (pinned : Bool) (off : Nat) (bytes : List UInt8) :
    pageView (writePage st pn pinned epoch off bytes) epoch file lp =
      match writeBase st epoch file lp (!pinned) with
      | some base => overlay base off bytes
      | none => pageView st epoch file lp := by
  obtain ⟨n, hn⟩ := Option.isSome_iff_exists.1 (hwf.pagesWf.pageNode_isSome hpn)
  have hvers := pageVersions_of_node hpn hn
  have hwritten := writePage_written hwf pn pinned epoch off bytes
  rw [pageView_eq, pageView_eq, hwritten.table, writeBase, hvers, writePage]
  simp only [hn]
  cases hin : inPlaceVersion epoch n.versions with
  | some v =>
    have hmem : v ∈ n.versions := List.mem_of_find?_eq_some hin
    have hvers' : ∀ p, pageVersions
        { st with data := Function.update st.data v.dataPage (some p) } file lp = n.versions :=
      fun p => hvers
    dsimp only
    rw [hvers']
    by_cases hvis : chainWalk VersionPage.epoch st.mapperTable epoch n.versions = some v
    · rw [if_pos hvis, hvis]
      simp [bytesOf]
    · -- the view shows another version, which has another data page
      rw [if_neg hvis]
      cases hw : chainWalk VersionPage.epoch st.mapperTable epoch n.versions with
      | none => rfl
      | some w =>
        have hne : w.dataPage ≠ v.dataPage := by
          intro heq
          obtain ⟨-, rfl⟩ := hwf.data_inj pn n w pn n v hn (mem_of_chainWalk hw) hn hmem heq
          exact hvis hw
        simp [bytesOf, Function.update_of_ne hne]
  | none =>
    have happ : applicable st.mapperTable epoch (u32 epoch) = true := by
      rw [hep.u32_issued he.issued]
      exact hep.applicable_at he
    dsimp only
    cases pinned with
    | true =>
      simp only [if_true]
      rw [pageVersions_of_node ((pageNodeOf_version hn _ epoch file lp).trans hpn)
        (Function.update_self ..)]
      have htake : chainWalk VersionPage.epoch st.mapperTable epoch
          (⟨u32 epoch, st.nextPage⟩ :: n.versions) = some ⟨u32 epoch, st.nextPage⟩ :=
        chainWalk_cons_take happ
      rw [htake]
      cases cowBase epoch n.versions with
      | none => simp [bytesOf]
      | some v => simp [bytesOf]
    | false =>
      simp only [Bool.false_eq_true, if_false, Bool.not_false, if_true]
      have hvers' : ∀ p, pageVersions
          { st with
            data := Function.update st.data st.nextPage (some p)
            nextPage := st.nextPage + 1 } file lp = n.versions := fun p => hvers
      rw [hvers']
      cases hw : chainWalk VersionPage.epoch st.mapperTable epoch n.versions with
      | none => rfl
      | some w =>
        have hne := hwf.version_ne_nextPage hn (mem_of_chainWalk hw)
        simp [bytesOf, Function.update_of_ne hne]

/-! ## The page loop -/

/-- Byte `i` of page `lp` in the view of the epoch after a write of `bytes` at position `pos`. -/
def writtenByte (st : State) (epoch : Int) (file : VPtr) (lp : Nat) (inCache : Bool) (pos : Nat)
    (bytes : List UInt8) (i : Nat) : UInt8 :=
  match writeBase st epoch file lp inCache with
  | some base =>
    if pos ≤ lp * st.pageSize + i ∧ lp * st.pageSize + i < pos + bytes.length then
      bytes.getD (lp * st.pageSize + i - pos) 0
    else base i
  | none => pageView st epoch file lp i

theorem foundInCache_self (st : State) (file : VPtr) (page : Nat) :
    foundInCache st file page page = cacheHit st file page := by
  rw [foundInCache, Nat.sub_self, resolvePages]

theorem foundInCache_next (st : State) (file : VPtr) (h : page < lp) :
    foundInCache st file page lp =
      foundInCache (treeResolvePage st file page true).2 file (page + 1) lp := by
  have hsub : lp - page = lp - (page + 1) + 1 := by omega
  rw [foundInCache, foundInCache, hsub, resolvePages]

theorem overlay_page {base : Page} {size off i : Nat} (bytes : List UInt8) (hi : i < size) :
    overlay base off (bytes.take (min (size - off) bytes.length)) i =
      if page * size + off ≤ page * size + i ∧
          page * size + i < page * size + off + bytes.length then
        bytes.getD (page * size + i - (page * size + off)) 0
      else base i := by
  have hsub : page * size + i - (page * size + off) = i - off := by omega
  rw [overlay, List.length_take, hsub]
  by_cases h : off ≤ i ∧ i < off + bytes.length
  · rw [if_pos (by omega), if_pos (by omega), List.getD_eq_getElem?_getD, List.getD_eq_getElem?_getD,
      List.getElem?_take_of_lt (by omega)]
  · rw [if_neg (by omega), if_neg (by omega)]

theorem writtenByte_rest (hst : st'.pageSize = st.pageSize)
    (hbase : ∀ b, writeBase st' epoch file lp b = writeBase st epoch file lp b)
    (hview : pageView st' epoch file lp = pageView st epoch file lp) {inCache : Bool} {off : Nat}
    (bytes : List UInt8) (hoff : off ≤ st.pageSize) (hlt : page < lp) (i : Nat) :
    writtenByte st' epoch file lp inCache ((page + 1) * st'.pageSize + 0)
        (bytes.drop (min (st.pageSize - off) bytes.length)) i =
      writtenByte st epoch file lp inCache (page * st.pageSize + off) bytes i := by
  have hmul : (page + 1) * st.pageSize ≤ lp * st.pageSize := Nat.mul_le_mul_right _ hlt
  rw [Nat.succ_mul] at hmul
  rw [writtenByte, writtenByte, hbase, hview, hst, List.length_drop, Nat.succ_mul]
  cases writeBase st epoch file lp inCache with
  | none => rfl
  | some base =>
    dsimp only
    by_cases h : lp * st.pageSize + i < page * st.pageSize + off + bytes.length
    · rw [if_pos (by omega), if_pos (by omega), List.getD_eq_getElem?_getD,
        List.getD_eq_getElem?_getD, List.getElem?_drop]
      congr 2
      omega
    · rw [if_neg (by omega), if_neg (by omega)]

theorem writeLoop_view (n : Nat) (hep : EpochWf st) (he : Writable st epoch) (hwf : FileWf st)
    (hf : st.nodes file = some (.file f)) (page off : Nat) (bytes : List UInt8)
    (hsegs : ∀ l < page + n, l / st.segmentSize < 2 ^ 20) (hoff : off ≤ st.pageSize) (lp i : Nat)
    (hi : i < st.pageSize) :
    pageView (writeLoop file epoch n st page off bytes).2 epoch file lp i =
      if page ≤ lp ∧ lp < page + n then
        writtenByte st epoch file lp (foundInCache st file page lp) (page * st.pageSize + off) bytes i
      else pageView st epoch file lp i := by
  induction n generalizing st f page off bytes with
  | zero =>
    rw [if_neg (by omega)]
    rfl
  | succ n ih =>
    have hres := treeResolvePage_spec hwf.pagesWf hf (hsegs page (by omega)) true
    obtain ⟨pn, pinned, hpn, hnode, -⟩ := hres.write rfl
    have hpinned := treeResolvePage_pinned hf hpn
    have hwf1 := hres.edits.fileWf hwf
    have hkept := hres.edits.dirsKept
    have hep1 := hkept.epochWf hep
    have he1 := he.kept hkept
    have hview1 := (hres.edits.keeps hwf).view epoch
    have hbase1 := hres.edits.writeBase hwf epoch file
    have hsize1 := (hres.edits.keeps hwf).pageSize
    have hseg1 := (hres.edits.keeps hwf).segmentSize
    have hnext : page < lp → _ := foundInCache_next st file
    rw [writeLoop]
    generalize treeResolvePage st file page true = r at *
    obtain ⟨r1, st1⟩ := r
    obtain rfl : r1 = some (pn, pinned) := hpn
    dsimp only at *
    set chunk := bytes.take (min (st.pageSize - off) bytes.length)
    -- the page itself, and then the rest of the loop
    have hpage := writePage_view hep1 he1 hwf1 hnode pinned off chunk
    have hwr := writePage_written hwf1 pn pinned epoch off chunk
    have hkeep2 := (writePage_edits st1 pn pinned epoch off chunk).keeps hep1 he1 hwf1
    generalize writePage st1 pn pinned epoch off chunk = st2 at *
    obtain ⟨f1, hf1⟩ := hkept.files file f hf
    obtain ⟨f2, hf2⟩ := hkeep2.kept.files file f1 hf1
    have hsize2 : st2.pageSize = st.pageSize := hwr.pageSize.trans hsize1
    have hsegs2 : ∀ l < page + 1 + n, l / st2.segmentSize < 2 ^ 20 := by
      intro l hl
      rw [hwr.shape.segmentSize, hseg1]
      exact hsegs l (by omega)
    rw [ih (hkeep2.kept.epochWf hep1) (he1.kept hkeep2.kept) hkeep2.fileWf hf2 (page + 1) 0 _ hsegs2
      (Nat.zero_le _) (by rwa [hsize2])]
    by_cases hlp : lp = page
    · subst hlp
      rw [if_neg (by omega), if_pos (by omega), hpage, writtenByte, foundInCache_self, hpinned,
        Bool.not_not, hbase1, hview1]
      cases writeBase st epoch file lp (cacheHit st file lp) with
      | none => rfl
      | some base => exact overlay_page bytes hi
    · have hother := hwr.others file lp fun h => hlp (hwf1.pn_inj file lp file page pn h hnode).2
      have hview2 : pageView st2 epoch file lp = pageView st epoch file lp := by
        rw [hother.view hwr.table, hview1]
      by_cases hin : page ≤ lp ∧ lp < page + (n + 1)
      · have hlt : page < lp := by omega
        rw [if_pos (by omega), if_pos hin, hnext hlt, foundInCache_shape hwr.shape]
        refine writtenByte_rest hsize2 (fun b => ?_) hview2 bytes hoff hlt i
        rw [hother.writeBase hwr.table, hbase1]
      · rw [if_neg (by omega), if_neg hin, hview2]

end SphereVFS
