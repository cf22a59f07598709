import SphereVFS.State

/-!
# SphereVFS.Dir

The directory operations of `tree.c`: lookup, listing, create, mkdir, delete, rmdir and rename.

A directory is a list of segments of slots, one slot per link of a child into the directory. Every
change of an entry prepends a `DirContent` to its slot; a child that comes in gets a new slot at the
front of the first segment with room. The operations differ in how they look for the name: create,
delete and rename use the read rule (`dirchainFindChild`), mkdir and rmdir have scans of their own.

Locks are left out: operations run one at a time.
-/

namespace SphereVFS

/-! ## Reading a directory -/

/-- All slots of a directory, in the order `walk_anchor_chain` visits them. -/
def DirNode.slotList (d : DirNode) : List VPtr := d.segments.flatMap DirSegment.slots

/-- The entry of a slot that a reader at `readEpoch` sees. -/
def visibleEntry (st : State) (readEpoch : Int) (slot : VPtr) : Option DirContent :=
  match st.slots slot with
  | some s => chainWalk DirContent.epoch st.mapperTable readEpoch s.chain
  | none => none

/-- `check_slot_for_name`: the child and its id if the visible entry is live and has the name. -/
def checkSlotForName (st : State) (readEpoch : Int) (name : Name) (slot : VPtr) :
    Option (VPtr × Nat) :=
  match visibleEntry st readEpoch slot with
  | some dc => if dc.name = some name then some (dc.childPtr, dc.childId) else none
  | none => none

/-- The error for a pointer that is not a directory: the null pointer is `VFS_ERR_NOTFOUND`. -/
def notDirError (dir : VPtr) : Err := if dir = 0 then .notFound else .isNotDir

/-- `dirchain_find_child`: the links of the name's index leaf first, then all slots. -/
def dirchainFindChild (st : State) (dir : VPtr) (name : Name) (epoch : Int) :
    Except Err (VPtr × Nat) :=
  if name = [] then .error .io
  else
    match st.nodes dir with
    | some (.dir d) =>
      let readEpoch := resolve st.mapperTable epoch
      let viaIndex := (d.index (leafOf name)).findSome? fun link =>
        if link = 0 then none else checkSlotForName st readEpoch name link
      match viaIndex.or (d.slotList.findSome? (checkSlotForName st readEpoch name)) with
      | some r => .ok r
      | none => .error .notFound
    | _ => .error (notDirError dir)

def vfsOpen (st : State) (parent : VPtr) (name : Name) (epoch : Int) : Except Err VPtr :=
  (dirchainFindChild st parent name epoch).map Prod.fst

/-- `vfs_dirent_t`. -/
structure Dirent where
  vp : VPtr
  nodeId : Nat
  isDir : Bool
  name : Name
  deriving DecidableEq, Repr

def isDir (st : State) (vp : VPtr) : Bool :=
  match st.nodes vp with
  | some (.dir _) => true
  | _ => false

/-- `dirchain_list_slot_cb`: what a slot contributes to a listing. -/
def listSlot (st : State) (readEpoch : Int) (slot : VPtr) : Option Dirent :=
  match visibleEntry st readEpoch slot with
  | some dc => dc.name.map fun n => ⟨dc.childPtr, dc.childId, isDir st dc.childPtr, n⟩
  | none => none

/-- `vfs_readdir`, which is `dirchain_list`. -/
def vfsReaddir (st : State) (dir : VPtr) (epoch : Int) : Except Err (List Dirent) :=
  match st.nodes dir with
  | some (.dir d) => .ok (d.slotList.filterMap (listSlot st (resolve st.mapperTable epoch)))
  | _ => .error (notDirError dir)

/-- `dirchain_find_slotnode`: the first slot of the directory with the child's id. -/
def dirchainFindSlotnode (st : State) (d : DirNode) (childId : Nat) : Option VPtr :=
  d.slotList.find? fun v =>
    match st.slots v with
    | some s => s.id == childId
    | none => false

/-! ## Changing a directory -/

def prependToSegment (slot : VPtr) : List DirSegment → Option (List DirSegment)
  | [] => none
  | seg :: rest =>
    if seg.count < unitsPerSegment then some (⟨seg.count + 1, slot :: seg.slots⟩ :: rest)
    else (prependToSegment slot rest).map (seg :: ·)

/-- `dirchain_get_or_create_segment` and the link that follows it: without room anywhere, a new
segment goes to the front. -/
def linkSlot (segs : List DirSegment) (slot : VPtr) : List DirSegment :=
  (prependToSegment slot segs).getD (⟨1, [slot]⟩ :: segs)

/-- A new slot for `child` in directory `dir`, with one entry and an index link. -/
def insertEntry (st : State) (dir : VPtr) (d : DirNode) (childId : Nat) (child : VPtr)
    (name : Name) (epoch : Int) : State :=
  let dcVp := st.nextVp
  let slotVp := st.nextVp + 1
  { st with
    nextVp := st.nextVp + 2
    slots := Function.update st.slots slotVp
      (some ⟨childId, [⟨dcVp, u32 epoch, childId, child, some name⟩]⟩)
    nodes := Function.update st.nodes dir (some (.dir { d with
      segments := linkSlot d.segments slotVp
      index := indexInsert d.index name slotVp })) }

/-- A new entry on top of a slot's chain; `name = none` is a tombstone. -/
def prependEntry (st : State) (slot : VPtr) (s : SlotNode) (childId : Nat) (child : VPtr)
    (name : Option Name) (epoch : Int) : State :=
  { st with
    nextVp := st.nextVp + 1
    slots := Function.update st.slots slot
      (some { s with chain := ⟨st.nextVp, u32 epoch, childId, child, name⟩ :: s.chain }) }

def setIndex (st : State) (dir : VPtr) (d : DirNode) (ix : DirIndex) : State :=
  { st with nodes := Function.update st.nodes dir (some (.dir { d with index := ix })) }

/-- `nextNodeId`, a `uint32_t` that is incremented and then read. -/
def freshNodeId (st : State) : Nat := (st.nextNodeId + 1) % 2 ^ 32

/-- A new node of any kind with its entry in `parent`: the common end of create and mkdir. -/
def addNode (st : State) (parent : VPtr) (d : DirNode) (node : Node) (name : Name) (epoch : Int) :
    VPtr × State :=
  let vp := st.nextVp
  let st1 := { st with
    nextVp := st.nextVp + 1
    nextNodeId := freshNodeId st
    nodes := Function.update st.nodes vp (some node) }
  (vp, insertEntry st1 parent d (freshNodeId st) vp name epoch)

def vfsCreate (st : State) (parent : VPtr) (name : Name) (epoch : Int) : Except Err VPtr × State :=
  if name = [] then (.error .io, st)
  else if name.length > 255 then (.error .nameTooLong, st)
  else if ¬ epochIsWritable st epoch then (.error .io, st)
  else
    match st.nodes parent with
    | some (.dir d) =>
      match dirchainFindChild st parent name epoch with
      | .ok _ => (.error .alreadyExists, st)
      | .error e =>
        if e = .notFound ∨ e = .isNotDir then
          let r := addNode st parent d (.file ⟨freshNodeId st, [], []⟩) name epoch
          (.ok r.1, r.2)
        else (.error .io, st)
    | _ => (.error (notDirError parent), st)

/-- The collision test of `vfs_mkdir`: some entry of some slot was stored at exactly this epoch
with this name, whether or not it is the visible one. -/
def storedAt (st : State) (name : Name) (epoch : Int) (slot : VPtr) : Bool :=
  match st.slots slot with
  | some s => s.chain.any fun dc => dc.epoch == u32 epoch && dc.name == some name
  | none => false

def vfsMkdir (st : State) (parent : VPtr) (name : Name) (epoch : Int) : Except Err VPtr × State :=
  if name = [] then (.error .io, st)
  else if name.length > 255 then (.error .nameTooLong, st)
  else if ¬ epochIsWritable st epoch then (.error .io, st)
  else
    match st.nodes parent with
    | some (.dir d) =>
      if (d.index (leafOf name)).any (storedAt st name epoch) ||
          d.slotList.any (storedAt st name epoch) then
        (.error .alreadyExists, st)
      else
        let r := addNode st parent d (.dir ⟨freshNodeId st, [], fun _ => []⟩) name epoch
        (.ok r.1, r.2)
    | _ => (.error (notDirError parent), st)

/-- The tombstone of `vfs_delete` and `vfs_rmdir`: on top of the slot `dirchain_find_slotnode`
gives for the child, with one more index link for the name. Returns the tombstone's pointer. -/
def putTombstone (st : State) (parent : VPtr) (d : DirNode) (childId : Nat) (child : VPtr)
    (name : Name) (epoch : Int) : Option (VPtr × State) :=
  match dirchainFindSlotnode st d childId with
  | none => none
  | some slot =>
    match st.slots slot with
    | none => none
    | some s =>
      some (st.nextVp, setIndex (prependEntry st slot s childId child none epoch) parent d
        (indexInsert d.index name slot))

/-- `vfs_delete`. It takes directories as well as files. -/
def vfsDelete (st : State) (parent : VPtr) (name : Name) (epoch : Int) : Except Err Unit × State :=
  if name = [] then (.error .io, st)
  else if ¬ epochIsWritable st epoch then (.error .io, st)
  else
    match dirchainFindChild st parent name epoch with
    | .error e => (.error e, st)
    | .ok (child, childId) =>
      match st.nodes parent with
      | some (.dir d) =>
        match putTombstone st parent d childId child name epoch with
        | none => (.error .io, st)
        | some (vp, st1) => (.ok (), { st1 with bin := st1.bin ++ [.fileDeleted child vp] })
      | _ => (.error .io, st)

/-- The entry `vfs_rmdir` takes from one slot: the newest one with the name that is stored at or
below the epoch, whether or not it is the visible one. -/
def rmdirEntry (st : State) (name : Name) (epoch : Int) (slot : VPtr) : Option (VPtr × Nat) :=
  match st.slots slot with
  | some s =>
    (s.chain.find? fun dc => decide (dc.epoch ≤ u32 epoch) && dc.name == some name).map
      fun dc => (dc.childPtr, dc.childId)
  | none => none

def isEmptyAt (st : State) (readEpoch : Int) (d : DirNode) : Bool :=
  d.slotList.all fun v =>
    match visibleEntry st readEpoch v with
    | some dc => dc.name.isNone
    | none => true

/-- `vfs_rmdir`. Its fallback walk takes the segments for slots and so finds no entry. -/
def vfsRmdir (st : State) (parent : VPtr) (name : Name) (epoch : Int) : Except Err Unit × State :=
  if name = [] then (.error .io, st)
  else if ¬ epochIsWritable st epoch then (.error .io, st)
  else
    match st.nodes parent with
    | some (.dir d) =>
      match (d.index (leafOf name)).findSome? (rmdirEntry st name epoch) with
      | none => (.error .notFound, st)
      | some (child, childId) =>
        match st.nodes child with
        | some (.dir c) =>
          if isEmptyAt st epoch c then
            match putTombstone st parent d childId child name epoch with
            | none => (.error .io, st)
            | some (_, st1) => (.ok (), st1)
          else (.error .notEmpty, st)
        | _ => (.error .isNotDir, st)
    | _ => (.error (notDirError parent), st)

/-- The same-directory branch of `vfs_rename`: a new entry on top of the child's slot, and the
slot's index link moved from the old name to the new one. -/
def renameWithin (st : State) (parent : VPtr) (d : DirNode) (childId : Nat) (child : VPtr)
    (src dst : Name) (epoch : Int) : Option State :=
  match dirchainFindSlotnode st d childId with
  | none => none
  | some slot =>
    match st.slots slot with
    | none => none
    | some s =>
      some (setIndex (prependEntry st slot s childId child (some dst) epoch) parent d
        (indexInsert (indexRemove d.index src slot) dst slot))

/-- The cross-directory branch: a new slot in the destination, then a tombstone on top of the
slot that `dirchain_find_slotnode` gives in the source. Returns the tombstone's pointer. -/
def renameAcross (st : State) (dstParent : VPtr) (dSrc dDst : DirNode) (childId : Nat) (child : VPtr)
    (dst : Name) (epoch : Int) : Option (VPtr × State) :=
  let st1 := insertEntry st dstParent dDst childId child dst epoch
  match dirchainFindSlotnode st1 dSrc childId with
  | none => none
  | some slot =>
    match st1.slots slot with
    | none => none
    | some s => some (st1.nextVp, prependEntry st1 slot s childId child none epoch)

/-- `vfs_rename`. Neither branch looks at what the destination name denotes, nor at whether the
destination lies below the child. -/
def vfsRename (st : State) (srcParent : VPtr) (src : Name) (dstParent : VPtr) (dst : Name)
    (epoch : Int) : Except Err Unit × State :=
  if src = [] ∨ dst = [] then (.error .io, st)
  else if src.length > 255 ∨ dst.length > 255 then (.error .nameTooLong, st)
  else if ¬ epochIsWritable st epoch then (.error .io, st)
  else
    match st.nodes srcParent, st.nodes dstParent with
    | some (.dir dSrc), some (.dir dDst) =>
      match dirchainFindChild st srcParent src epoch with
      | .error e => (.error e, st)
      | .ok (child, childId) =>
        if srcParent = dstParent then
          match renameWithin st srcParent dSrc childId child src dst epoch with
          | none => (.error .io, st)
          | some st1 => (.ok (), { st1 with bin := st1.bin ++ [.tombstoneAdded child 0] })
        else
          match renameAcross st dstParent dSrc dDst childId child dst epoch with
          | none => (.error .io, insertEntry st dstParent dDst childId child dst epoch)
          | some (vp, st1) => (.ok (), { st1 with bin := st1.bin ++ [.tombstoneAdded child vp] })
    | some (.dir _), _ => (.error (notDirError dstParent), st)
    | _, _ => (.error (notDirError srcParent), st)

end SphereVFS
