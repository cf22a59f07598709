import SphereVFS.DirFrame
import SphereVFS.Lib.Links

/-!
# SphereVFS.DirOps

What each directory operation does, said once: it leaves the volume alone, or it makes one of five
changes (a new node with its entry, a tombstone, an entry over another in the same directory, an
entry in one directory with a tombstone in another, and that same move without its tombstone).
Every later proof about the operations starts from these.
-/

namespace SphereVFS

variable {st st' : State} {parent : VPtr} {name : Name} {epoch : Int}

/-! ## Lookup -/

theorem isDir_iff {v : VPtr} : isDir st v = true ↔ ∃ d, st.nodes v = some (.dir d) := by
  rw [isDir]
  split
  · simp [*]
  · rename_i hno
    simpa using hno

theorem checkSlotForName_eq_some {R : Int} {slot child : VPtr} {id : Nat} :
    checkSlotForName st R name slot = some (child, id) ↔
      ∃ dc, visibleEntry st R slot = some dc ∧ dc.name = some name ∧ dc.childPtr = child ∧
        dc.childId = id := by
  cases h : visibleEntry st R slot with
  | none => simp [checkSlotForName, h]
  | some dc => simp [checkSlotForName, h, and_comm]

theorem checkSlotForName_eq_none {R : Int} {slot : VPtr} :
    checkSlotForName st R name slot = none ↔
      ∀ dc, visibleEntry st R slot = some dc → dc.name ≠ some name := by
  cases h : visibleEntry st R slot with
  | none => simp [checkSlotForName, h]
  | some dc => simp [checkSlotForName, h]

theorem findChild_ok (hwf : DirWf st) {child : VPtr} {id : Nat}
    (h : dirchainFindChild st parent name epoch = .ok (child, id)) :
    ∃ d slot dc, st.nodes parent = some (.dir d) ∧ slot ∈ d.slotList ∧
      visibleEntry st (resolve st.mapperTable epoch) slot = some dc ∧ dc.name = some name ∧
      dc.childPtr = child ∧ dc.childId = id := by
  rw [dirchainFindChild] at h
  split at h
  · cases h
  split at h
  · rename_i d hd
    dsimp only at h
    split at h
    · rename_i r hr
      cases h
      obtain hr | ⟨-, hr⟩ := Option.or_eq_some_iff.1 hr
      · -- found through a link of the index
        obtain ⟨link, hlink, hcheck⟩ := List.exists_of_findSome?_eq_some hr
        split at hcheck
        · cases hcheck
        · rename_i hne
          obtain ⟨dc, hdc⟩ := checkSlotForName_eq_some.1 hcheck
          exact ⟨d, link, dc, hd, hwf.index parent d hd _ link hlink hne, hdc⟩
      · -- found by the walk over all slots
        obtain ⟨slot, hslot, hcheck⟩ := List.exists_of_findSome?_eq_some hr
        obtain ⟨dc, hdc⟩ := checkSlotForName_eq_some.1 hcheck
        exact ⟨d, slot, dc, hd, hslot, hdc⟩
    · cases h
  · cases h

theorem findChild_error {d : DirNode} {e : Err} (hd : st.nodes parent = some (.dir d))
    (h : dirchainFindChild st parent name epoch = .error e) (hne : name ≠ []) :
    ∀ slot ∈ d.slotList, ∀ dc, visibleEntry st (resolve st.mapperTable epoch) slot = some dc →
      dc.name ≠ some name := by
  intro slot hslot
  rw [dirchainFindChild, if_neg hne, hd] at h
  dsimp only at h
  split at h
  · cases h
  · rename_i hr
    have hwalk := (Option.or_eq_none_iff.1 hr).2
    exact checkSlotForName_eq_none.1 (List.findSome?_eq_none_iff.1 hwalk slot hslot)

theorem findSlotnode_mem {d : DirNode} {id : Nat} {slot : VPtr}
    (h : dirchainFindSlotnode st d id = some slot) : slot ∈ d.slotList :=
  List.mem_of_find?_eq_some h

theorem findSlotnode_id {d : DirNode} {id : Nat} {slot : VPtr} {s : SlotNode}
    (h : dirchainFindSlotnode st d id = some slot) (hs : st.slots slot = some s) : s.id = id := by
  simpa [hs] using List.find?_some h

/-! ## Inversion -/

theorem vfsCreate_call (st : State) (parent : VPtr) (name : Name) (epoch : Int) :
    (∃ e, vfsCreate st parent name epoch = (.error e, st)) ∨
      ∃ d e, name ≠ [] ∧ epochIsWritable st epoch = true ∧ st.nodes parent = some (.dir d) ∧
        dirchainFindChild st parent name epoch = .error e ∧
        vfsCreate st parent name epoch =
          (.ok st.nextVp, (addNode st parent d (.file ⟨freshNodeId st, [], []⟩) name epoch).2) := by
  rw [vfsCreate]
  split
  · exact .inl ⟨_, rfl⟩
  rename_i hne
  split
  · exact .inl ⟨_, rfl⟩
  split
  · exact .inl ⟨_, rfl⟩
  rename_i hw
  split
  · rename_i d hd
    split
    · exact .inl ⟨_, rfl⟩
    · rename_i e he
      split
      · exact .inr ⟨d, e, hne, by simpa using hw, hd, he, rfl⟩
      · exact .inl ⟨_, rfl⟩
  · exact .inl ⟨_, rfl⟩

theorem vfsMkdir_call (st : State) (parent : VPtr) (name : Name) (epoch : Int) :
    (∃ e, vfsMkdir st parent name epoch = (.error e, st)) ∨
      ∃ d, name ≠ [] ∧ epochIsWritable st epoch = true ∧ st.nodes parent = some (.dir d) ∧
        vfsMkdir st parent name epoch =
          (.ok st.nextVp, (addNode st parent d (.dir ⟨freshNodeId st, [], fun _ => []⟩) name epoch).2) := by
  rw [vfsMkdir]
  split
  · exact .inl ⟨_, rfl⟩
  rename_i hne
  split
  · exact .inl ⟨_, rfl⟩
  split
  · exact .inl ⟨_, rfl⟩
  rename_i hw
  split
  · rename_i d hd
    split
    · exact .inl ⟨_, rfl⟩
    · exact .inr ⟨d, hne, by simpa using hw, hd, rfl⟩
  · exact .inl ⟨_, rfl⟩

/-- A tombstone at `epoch` on top of `slot`, whose chain in the old state is that of `s`. -/
structure Tombstoned (st : State) (epoch : Int) (st' : State) : Prop where
  exists_slot : ∃ parent d slot s childId child name entries,
    st.nodes parent = some (.dir d) ∧ slot ∈ d.slotList ∧ st.slots slot = some s ∧
    (st.nodes child).isSome ∧
    st' = { setIndex (prependEntry st slot s childId child none epoch) parent d
      (indexInsert d.index name slot) with bin := entries }

theorem putTombstone_eq_some {d : DirNode} {childId : Nat} {child vp : VPtr}
    (h : putTombstone st parent d childId child name epoch = some (vp, st')) :
    ∃ slot s, dirchainFindSlotnode st d childId = some slot ∧ st.slots slot = some s ∧
      st' = setIndex (prependEntry st slot s childId child none epoch) parent d
        (indexInsert d.index name slot) := by
  rw [putTombstone] at h
  split at h
  · cases h
  rename_i slot hslot
  split at h
  · cases h
  rename_i s hs
  cases h
  exact ⟨slot, s, hslot, hs, rfl⟩

theorem renameWithin_eq_some {d : DirNode} {childId : Nat} {child : VPtr} {src dst : Name}
    (h : renameWithin st parent d childId child src dst epoch = some st') :
    ∃ slot s, dirchainFindSlotnode st d childId = some slot ∧ st.slots slot = some s ∧
      st' = setIndex (prependEntry st slot s childId child (some dst) epoch) parent d
        (indexInsert (indexRemove d.index src slot) dst slot) := by
  rw [renameWithin] at h
  split at h
  · cases h
  rename_i slot hslot
  split at h
  · cases h
  rename_i s hs
  cases h
  exact ⟨slot, s, hslot, hs, rfl⟩

theorem renameAcross_eq_some {dSrc dDst : DirNode} {childId : Nat} {child vp : VPtr} {dst : Name}
    (h : renameAcross st parent dSrc dDst childId child dst epoch = some (vp, st')) :
    ∃ slot s, dirchainFindSlotnode (insertEntry st parent dDst childId child dst epoch) dSrc childId =
        some slot ∧ (insertEntry st parent dDst childId child dst epoch).slots slot = some s ∧
      st' = prependEntry (insertEntry st parent dDst childId child dst epoch) slot s childId child none
        epoch := by
  rw [renameAcross] at h
  split at h
  · cases h
  rename_i slot hslot
  split at h
  · cases h
  rename_i s hs
  cases h
  exact ⟨slot, s, hslot, hs, rfl⟩

theorem vfsDelete_call (st : State) (parent : VPtr) (name : Name) (epoch : Int) :
    (∃ e, vfsDelete st parent name epoch = (.error e, st)) ∨
      ∃ d childId child vp st' entries, epochIsWritable st epoch = true ∧
        dirchainFindChild st parent name epoch = .ok (child, childId) ∧ st.nodes parent = some (.dir d) ∧
        putTombstone st parent d childId child name epoch = some (vp, st') ∧
        vfsDelete st parent name epoch = (.ok (), { st' with bin := entries }) := by
  rw [vfsDelete]
  split
  · exact .inl ⟨_, rfl⟩
  split
  · exact .inl ⟨_, rfl⟩
  rename_i hw
  split
  · exact .inl ⟨_, rfl⟩
  rename_i child childId hfind
  split
  · rename_i d hd
    split
    · exact .inl ⟨_, rfl⟩
    · rename_i vp st' hput
      exact .inr ⟨d, childId, child, vp, st', _, by simpa using hw, hfind, hd, hput, rfl⟩
  · exact .inl ⟨_, rfl⟩

theorem vfsRmdir_call (st : State) (parent : VPtr) (name : Name) (epoch : Int) :
    (∃ e, vfsRmdir st parent name epoch = (.error e, st)) ∨
      ∃ d childId child vp st', epochIsWritable st epoch = true ∧ (st.nodes child).isSome ∧
        st.nodes parent = some (.dir d) ∧
        putTombstone st parent d childId child name epoch = some (vp, st') ∧
        vfsRmdir st parent name epoch = (.ok (), st') := by
  rw [vfsRmdir]
  split
  · exact .inl ⟨_, rfl⟩
  split
  · exact .inl ⟨_, rfl⟩
  rename_i hw
  split
  · rename_i d hd
    split
    · exact .inl ⟨_, rfl⟩
    rename_i child childId _
    split
    · rename_i hc
      split
      · split
        · exact .inl ⟨_, rfl⟩
        · rename_i vp st' hput
          exact .inr ⟨d, childId, child, vp, st', by simpa using hw, by simp [hc], hd, hput, rfl⟩
      · exact .inl ⟨_, rfl⟩
    · exact .inl ⟨_, rfl⟩
  · exact .inl ⟨_, rfl⟩

/-- What `vfs_rename` does, in any state: it refuses, or moves within one directory or between two, where
the second step may fail. -/
theorem vfsRename_call (st : State) (srcParent : VPtr) (src : Name) (dstParent : VPtr) (dst : Name)
    (epoch : Int) :
    (∃ e, vfsRename st srcParent src dstParent dst epoch = (.error e, st)) ∨
      ∃ dSrc dDst childId child, (src ≠ [] ∧ dst ≠ []) ∧ epochIsWritable st epoch = true ∧
        st.nodes srcParent = some (.dir dSrc) ∧ st.nodes dstParent = some (.dir dDst) ∧
        dirchainFindChild st srcParent src epoch = .ok (child, childId) ∧
        ((srcParent = dstParent ∧ ∃ st' entries,
            renameWithin st srcParent dSrc childId child src dst epoch = some st' ∧
            vfsRename st srcParent src dstParent dst epoch = (.ok (), { st' with bin := entries })) ∨
          (srcParent ≠ dstParent ∧ ∃ vp st' entries,
            renameAcross st dstParent dSrc dDst childId child dst epoch = some (vp, st') ∧
            vfsRename st srcParent src dstParent dst epoch = (.ok (), { st' with bin := entries })) ∨
          srcParent ≠ dstParent ∧ renameAcross st dstParent dSrc dDst childId child dst epoch = none ∧
            vfsRename st srcParent src dstParent dst epoch =
              (.error .io, insertEntry st dstParent dDst childId child dst epoch)) := by
  rw [vfsRename]
  split
  · exact .inl ⟨_, rfl⟩
  rename_i hnames
  split
  · exact .inl ⟨_, rfl⟩
  split
  · exact .inl ⟨_, rfl⟩
  rename_i hw
  split
  · rename_i dSrc dDst hsrc hdst
    split
    · exact .inl ⟨_, rfl⟩
    rename_i child childId hfind
    have hstart := And.intro (not_or.1 hnames) (by simpa using hw : epochIsWritable st epoch = true)
    split
    · rename_i heq
      split
      · exact .inl ⟨_, rfl⟩
      · rename_i st' hwithin
        exact .inr ⟨dSrc, dDst, childId, child, hstart.1, hstart.2, hsrc, hdst, hfind,
          .inl ⟨heq, st', _, hwithin, rfl⟩⟩
    · rename_i hne
      refine .inr ⟨dSrc, dDst, childId, child, hstart.1, hstart.2, hsrc, hdst, hfind, .inr ?_⟩
      split
      · rename_i hnone
        exact .inr ⟨hne, hnone, rfl⟩
      · rename_i vp st' hacross
        exact .inl ⟨hne, vp, st', _, hacross, rfl⟩
  · exact .inl ⟨_, rfl⟩
  · exact .inl ⟨_, rfl⟩

inductive IndexEdit (d : DirNode) : DirIndex → Prop
  | insert (name : Name) (slot : VPtr) (hslot : slot ∈ d.slotList) : IndexEdit d (indexInsert d.index name slot)
  | move (src dst : Name) (slot : VPtr) (hslot : slot ∈ d.slotList) :
      IndexEdit d (indexInsert (indexRemove d.index src slot) dst slot)

inductive DirMove (st : State) : State → Prop
  | add (parent : VPtr) (d : DirNode) (node : Node) (name : Name) (epoch : Int) (hnew : IsNew node)
      (hd : st.nodes parent = some (.dir d)) : DirMove st (addNode st parent d node name epoch).2
  | insert (dir : VPtr) (d : DirNode) (childId : Nat) (child : VPtr) (name : Name) (epoch : Int)
      (hd : st.nodes dir = some (.dir d)) : DirMove st (insertEntry st dir d childId child name epoch)
  | prepend (slot : VPtr) (s : SlotNode) (child : VPtr) (name : Option Name) (epoch : Int)
      (hs : st.slots slot = some s) : DirMove st (prependEntry st slot s s.id child name epoch)
  | reindex (dir : VPtr) (d : DirNode) (ix : DirIndex) (hd : st.nodes dir = some (.dir d))
      (hix : IndexEdit d ix) : DirMove st (setIndex st dir d ix)
  | bin (entries : List BinEntry) : DirMove st { st with bin := entries }

abbrev DirMoves : State → State → Prop := Relation.ReflTransGen DirMove

theorem relink_moves {d : DirNode} (hd : st.nodes parent = some (.dir d)) {childId : Nat} {slot : VPtr}
    {s : SlotNode} (hslot : dirchainFindSlotnode st d childId = some slot) (hs : st.slots slot = some s)
    (child : VPtr) (name : Option Name) (epoch : Int) {ix : DirIndex} (hix : IndexEdit d ix) :
    DirMoves st (setIndex (prependEntry st slot s childId child name epoch) parent d ix) := by
  obtain rfl := findSlotnode_id hslot hs
  exact .tail (.single (.prepend slot s child name epoch hs)) (.reindex parent d ix hd hix)

theorem putTombstone_moves {d : DirNode} (hd : st.nodes parent = some (.dir d)) {childId : Nat}
    {child vp : VPtr} (hput : putTombstone st parent d childId child name epoch = some (vp, st')) :
    DirMoves st st' := by
  obtain ⟨slot, s, hslot, hs, rfl⟩ := putTombstone_eq_some hput
  exact relink_moves hd hslot hs _ _ _ (.insert name slot (findSlotnode_mem hslot))

theorem vfsCreate_moves (st : State) (parent : VPtr) (name : Name) (epoch : Int) :
    DirMoves st (vfsCreate st parent name epoch).2 := by
  obtain ⟨e, hs⟩ | ⟨d, -, -, -, hd, -, hs⟩ := vfsCreate_call st parent name epoch
  · rw [hs]
  · rw [hs]
    exact .single (.add parent d _ name epoch (.file _) hd)

theorem vfsMkdir_moves (st : State) (parent : VPtr) (name : Name) (epoch : Int) :
    DirMoves st (vfsMkdir st parent name epoch).2 := by
  obtain ⟨e, hs⟩ | ⟨d, -, -, hd, hs⟩ := vfsMkdir_call st parent name epoch
  · rw [hs]
  · rw [hs]
    exact .single (.add parent d _ name epoch (.dir _) hd)

theorem vfsDelete_moves (st : State) (parent : VPtr) (name : Name) (epoch : Int) :
    DirMoves st (vfsDelete st parent name epoch).2 := by
  obtain ⟨e, hs⟩ | ⟨d, childId, child, vp, st', entries, -, -, hd, hput, hs⟩ := vfsDelete_call st parent name epoch
  · rw [hs]
  · rw [hs]
    exact (putTombstone_moves hd hput).tail (.bin entries)

theorem vfsRmdir_moves (st : State) (parent : VPtr) (name : Name) (epoch : Int) :
    DirMoves st (vfsRmdir st parent name epoch).2 := by
  obtain ⟨e, hs⟩ | ⟨d, childId, child, vp, st', -, -, hd, hput, hs⟩ := vfsRmdir_call st parent name epoch
  · rw [hs]
  · rw [hs]
    exact putTombstone_moves hd hput

theorem vfsRename_moves (st : State) (srcParent : VPtr) (src : Name) (dstParent : VPtr) (dst : Name)
    (epoch : Int) : DirMoves st (vfsRename st srcParent src dstParent dst epoch).2 := by
  obtain ⟨e, hs⟩ | ⟨dSrc, dDst, childId, child, -, -, hsrc, hdst, -, hmove⟩ :=
    vfsRename_call st srcParent src dstParent dst epoch
  · rw [hs]
  obtain ⟨-, st', entries, hwithin, hs⟩ | ⟨-, vp, st', entries, hacross, hs⟩ | ⟨-, -, hs⟩ := hmove
  · rw [hs]
    obtain ⟨slot, s, hslot, hs', rfl⟩ := renameWithin_eq_some hwithin
    exact (relink_moves hsrc hslot hs' _ _ _ (.move src dst slot (findSlotnode_mem hslot))).tail (.bin entries)
  · rw [hs]
    obtain ⟨slot, s, hslot, hs', rfl⟩ := renameAcross_eq_some hacross
    obtain rfl := findSlotnode_id hslot hs'
    exact ((Relation.ReflTransGen.single (DirMove.insert dstParent dDst s.id child dst epoch hdst)).tail
      (.prepend slot s child none epoch hs')).tail (.bin entries)
  · rw [hs]
    exact .single (.insert dstParent dDst childId child dst epoch hdst)

theorem findChild_isSome (hwf : DirWf st) {child : VPtr} {id : Nat}
    (h : dirchainFindChild st parent name epoch = .ok (child, id)) : (st.nodes child).isSome := by
  obtain ⟨d, slot, dc, hd, hmem, hdc, -, rfl, -⟩ := findChild_ok hwf h
  obtain ⟨s, hs⟩ := Option.isSome_iff_exists.1 (hwf.slot_some parent d hd slot hmem)
  simp only [visibleEntry, hs] at hdc
  exact hwf.entry_child slot s hs dc (mem_of_chainWalk hdc)

theorem vfsDelete_cases (hwf : DirWf st) (parent : VPtr) (name : Name) (epoch : Int) :
    (vfsDelete st parent name epoch).2 = st ∨
      epochIsWritable st epoch = true ∧ Tombstoned st epoch (vfsDelete st parent name epoch).2 := by
  obtain ⟨e, hs⟩ | ⟨d, childId, child, vp, st', entries, hw, hfind, hd, hput, hs⟩ :=
    vfsDelete_call st parent name epoch
  · exact .inl (by rw [hs])
  · obtain ⟨slot, s, hslot, hs', rfl⟩ := putTombstone_eq_some hput
    rw [hs]
    exact .inr ⟨hw, ⟨parent, d, slot, s, childId, child, name, entries, hd, findSlotnode_mem hslot, hs',
      findChild_isSome hwf hfind, rfl⟩⟩

theorem vfsRmdir_cases (st : State) (parent : VPtr) (name : Name) (epoch : Int) :
    (vfsRmdir st parent name epoch).2 = st ∨
      epochIsWritable st epoch = true ∧ Tombstoned st epoch (vfsRmdir st parent name epoch).2 := by
  obtain ⟨e, hs⟩ | ⟨d, childId, child, vp, st', hw, hchild, hd, hput, hs⟩ := vfsRmdir_call st parent name epoch
  · exact .inl (by rw [hs])
  · obtain ⟨slot, s, hslot, hs', rfl⟩ := putTombstone_eq_some hput
    rw [hs]
    exact .inr ⟨hw, ⟨parent, d, slot, s, childId, child, name, st.bin, hd, findSlotnode_mem hslot, hs',
      hchild, rfl⟩⟩

/-- The three ways `vfs_rename` changes a volume once it has found the child. -/
inductive Renamed (st : State) (srcParent dstParent : VPtr) (src dst : Name) (child : VPtr)
    (childId : Nat) (epoch : Int) : State → Prop
  | within (d : DirNode) (slot : VPtr) (s : SlotNode) (entries : List BinEntry)
      (heq : srcParent = dstParent) (hd : st.nodes srcParent = some (.dir d))
      (hfind : dirchainFindSlotnode st d childId = some slot) (hs : st.slots slot = some s) :
      Renamed st srcParent dstParent src dst child childId epoch
        { setIndex (prependEntry st slot s childId child (some dst) epoch) srcParent d
          (indexInsert (indexRemove d.index src slot) dst slot) with bin := entries }
  | across (dSrc dDst : DirNode) (slot : VPtr) (s : SlotNode) (entries : List BinEntry)
      (hne : srcParent ≠ dstParent) (hsrc : st.nodes srcParent = some (.dir dSrc))
      (hdst : st.nodes dstParent = some (.dir dDst))
      (hfind : dirchainFindSlotnode st dSrc childId = some slot) (hs : st.slots slot = some s) :
      Renamed st srcParent dstParent src dst child childId epoch
        { prependEntry (insertEntry st dstParent dDst childId child dst epoch) slot s childId child
          none epoch with bin := entries }
  | half (dSrc dDst : DirNode) (hne : srcParent ≠ dstParent)
      (hsrc : st.nodes srcParent = some (.dir dSrc)) (hdst : st.nodes dstParent = some (.dir dDst))
      (hfind : dirchainFindSlotnode st dSrc childId = none) :
      Renamed st srcParent dstParent src dst child childId epoch
        (insertEntry st dstParent dDst childId child dst epoch)

theorem findSlotnode_insertEntry (hwf : DirWf st) {srcParent : VPtr} {dSrc : DirNode}
    (hsrc : st.nodes srcParent = some (.dir dSrc)) (dstParent : VPtr) (dDst : DirNode)
    (childId : Nat) (child : VPtr) (dst : Name) (epoch : Int) :
    (∀ v ∈ dSrc.slotList,
      (insertEntry st dstParent dDst childId child dst epoch).slots v = st.slots v) ∧
    dirchainFindSlotnode (insertEntry st dstParent dDst childId child dst epoch) dSrc childId =
      dirchainFindSlotnode st dSrc childId := by
  have hslots : ∀ v ∈ dSrc.slotList,
      (insertEntry st dstParent dDst childId child dst epoch).slots v = st.slots v := by
    intro v hv
    apply insertEntry_slot_ne
    rintro rfl
    exact hwf.fresh_not_mem hsrc (by lia) hv
  refine ⟨hslots, ?_⟩
  rw [dirchainFindSlotnode, dirchainFindSlotnode]
  apply List.find?_congr
  intro v hv
  rw [hslots v hv]

theorem renameAcross_cases (hwf : DirWf st) {srcParent : VPtr} {dSrc : DirNode}
    (hsrc : st.nodes srcParent = some (.dir dSrc)) (dstParent : VPtr) (dDst : DirNode)
    (childId : Nat) (child : VPtr) (dst : Name) (epoch : Int) :
    (dirchainFindSlotnode st dSrc childId = none ∧
        renameAcross st dstParent dSrc dDst childId child dst epoch = none) ∨
      ∃ slot s vp, dirchainFindSlotnode st dSrc childId = some slot ∧ st.slots slot = some s ∧
        renameAcross st dstParent dSrc dDst childId child dst epoch = some (vp,
          prependEntry (insertEntry st dstParent dDst childId child dst epoch) slot s childId child none epoch) := by
  obtain ⟨hslots, hnode⟩ := findSlotnode_insertEntry hwf hsrc dstParent dDst childId child dst epoch
  rw [renameAcross, hnode]
  cases hslot : dirchainFindSlotnode st dSrc childId with
  | none => exact .inl ⟨rfl, rfl⟩
  | some slot =>
    have hmem := findSlotnode_mem hslot
    obtain ⟨s, hs⟩ := Option.isSome_iff_exists.1 (hwf.slot_some srcParent dSrc hsrc slot hmem)
    simp only [hslots slot hmem, hs]
    exact .inr ⟨slot, s, _, rfl, hs, rfl⟩

theorem vfsRename_cases (hwf : DirWf st) (srcParent : VPtr) (src : Name) (dstParent : VPtr)
    (dst : Name) (epoch : Int) :
    (vfsRename st srcParent src dstParent dst epoch).2 = st ∨
      ∃ child childId, epochIsWritable st epoch = true ∧
        dirchainFindChild st srcParent src epoch = .ok (child, childId) ∧
        Renamed st srcParent dstParent src dst child childId epoch
          (vfsRename st srcParent src dstParent dst epoch).2 := by
  obtain ⟨e, hs⟩ | ⟨dSrc, dDst, childId, child, -, hw, hsrc, hdst, hfind, hmove⟩ :=
    vfsRename_call st srcParent src dstParent dst epoch
  · exact .inl (by rw [hs])
  refine .inr ⟨child, childId, hw, hfind, ?_⟩
  have hacross := renameAcross_cases hwf hsrc dstParent dDst childId child dst epoch
  obtain ⟨heq, st', entries, hwithin, hs⟩ | ⟨hne, vp, st', entries, hsome, hs⟩ | ⟨hne, hnone, hs⟩ := hmove
  · rw [hs]
    obtain ⟨slot, s, hslot, hs', rfl⟩ := renameWithin_eq_some hwithin
    exact .within dSrc slot s entries heq hsrc hslot hs'
  · rw [hs]
    obtain ⟨-, hnone⟩ | ⟨slot, s, vp', hslot, hs', heq⟩ := hacross
    · simp [hnone] at hsome
    · cases heq.symm.trans hsome
      exact .across dSrc dDst slot s entries hne hsrc hdst hslot hs'
  · rw [hs]
    obtain ⟨hslot, -⟩ | ⟨slot, s, vp', -, -, heq⟩ := hacross
    · exact .half dSrc dDst hne hsrc hdst hslot
    · simp [hnone] at heq

/-! ## Operations as edits -/

theorem addNode_edits (hwf : DirWf st) {d : DirNode} {node : Node} (hnew : IsNew node)
    (hdir : st.nodes parent = some (.dir d)) :
    DirEdits epoch st (addNode st parent d node name epoch).2 := by
  have hne : parent ≠ st.nextVp := by
    rintro rfl
    simp [hwf.node_fresh st.nextVp (by lia)] at hdir
  refine .tail (.single (.node node (freshNodeId st) hnew)) (.insert parent d _ st.nextVp name ?_ ?_)
  · exact (Function.update_of_ne hne ..).trans hdir
  · simp

theorem indexInsert_mem {d : DirNode} {slot : VPtr} {ix : DirIndex} (hmem : slot ∈ d.slotList)
    (hix : ∀ leaf, ∀ l ∈ ix leaf, l ≠ 0 → l ∈ d.slotList) :
    ∀ leaf, ∀ l ∈ indexInsert ix name slot leaf, l ≠ 0 → l ∈ d.slotList := by
  intro leaf l hl hne
  simp only [indexInsert, Function.update_apply] at hl
  split at hl
  · obtain rfl | hl := List.mem_cons.1 hl
    · exact hmem
    · exact hix _ l hl hne
  · exact hix leaf l hl hne

theorem indexRemove_mem {d : DirNode} {slot : VPtr} {ix : DirIndex}
    (hix : ∀ leaf, ∀ l ∈ ix leaf, l ≠ 0 → l ∈ d.slotList) :
    ∀ leaf, ∀ l ∈ indexRemove ix name slot leaf, l ≠ 0 → l ∈ d.slotList := by
  intro leaf l hl hne
  simp only [indexRemove, Function.update_apply] at hl
  split at hl
  · obtain ⟨l', hl', heq⟩ := List.mem_map.1 hl
    split at heq
    · exact absurd heq.symm hne
    · exact heq ▸ hix _ l' hl' (heq ▸ hne)
  · exact hix leaf l hl hne

theorem Tombstoned.edits (h : Tombstoned st epoch st') (hwf : DirWf st) :
    DirEdits epoch st st' := by
  obtain ⟨parent, d, slot, s, childId, child, name, entries, hd, hmem, hs, hchild, rfl⟩ := h
  have hprepend : DirEdit epoch st (prependEntry st slot s childId child none epoch) :=
    .prepend slot s childId child none hs hchild
  refine .tail (.tail (.single hprepend) (.reindex parent d _ hd ?_)) (.bin entries)
  exact indexInsert_mem hmem (hwf.index parent d hd)

theorem Renamed.edits {srcParent dstParent child : VPtr} {src dst : Name} {childId : Nat}
    (h : Renamed st srcParent dstParent src dst child childId epoch st') (hwf : DirWf st)
    (hchild : (st.nodes child).isSome) : DirEdits epoch st st' := by
  cases h with
  | within d slot s entries heq hd hfind hs =>
    have hprepend : DirEdit epoch st (prependEntry st slot s childId child (some dst) epoch) :=
      .prepend slot s childId child (some dst) hs hchild
    refine .tail (.tail (.single hprepend) (.reindex srcParent d _ hd ?_)) (.bin entries)
    exact indexInsert_mem (findSlotnode_mem hfind) (indexRemove_mem (hwf.index srcParent d hd))
  | across dSrc dDst slot s entries hne hsrc hdst hfind hs =>
    have hslot := (findSlotnode_insertEntry hwf hsrc dstParent dDst childId child dst epoch).1 slot
      (findSlotnode_mem hfind)
    have hinsert : DirEdit epoch st (insertEntry st dstParent dDst childId child dst epoch) :=
      .insert dstParent dDst childId child dst hdst hchild
    refine .tail (.tail (.single hinsert) (.prepend slot s childId child none ?_ ?_)) (.bin entries)
    · rw [hslot, hs]
    · exact update_isSome hchild
  | half dSrc dDst hne hsrc hdst hfind =>
    exact .single (.insert dstParent dDst childId child dst hdst hchild)

/-! ## The links a reader sees -/

/-- The links visible at an epoch: `Lists st R dir slot name child`. -/
def Lists (st : State) (R : Int) : Links.Rel VPtr VPtr Name := fun dir slot name child =>
  ∃ d dc, st.nodes dir = some (.dir d) ∧ slot ∈ d.slotList ∧ visibleEntry st R slot = some dc ∧
    dc.name = some name ∧ dc.childPtr = child

theorem lists_of_frame {R R' : Int} (hgrow : DirGrow st st') (hent : SameEntries st R st' R')
    {dir slot child : VPtr} (h : Lists st' R' dir slot name child) :
    Lists st R dir slot name child := by
  obtain ⟨d', dc, hd', hmem, hdc, hname, hchild⟩ := h
  rw [hent slot] at hdc
  have hsome : (st.slots slot).isSome := by
    cases hs : st.slots slot with
    | none => simp [visibleEntry, hs] at hdc
    | some s => rfl
  obtain ⟨d, hd, hmem'⟩ := hgrow.old dir d' hd' slot hmem hsome
  exact ⟨d, dc, hd, hmem', hdc, hname, hchild⟩

section AtEpoch

variable (hep : EpochWf st) (he : Writable st epoch)
include hep he

theorem visibleEntry_insertEntry (dir : VPtr) (d : DirNode) (childId : Nat) (child : VPtr)
    (name : Name) (v : VPtr) :
    visibleEntry (insertEntry st dir d childId child name epoch) epoch v =
      if v = st.nextVp + 1 then some ⟨st.nextVp, epoch, childId, child, some name⟩
      else visibleEntry st epoch v := by
  have hu := hep.u32_issued he.issued
  split
  · rename_i hv
    simp only [visibleEntry, insertEntry, hv, Function.update_self, hu]
    exact chainWalk_cons_take (hep.applicable_at he)
  · rename_i hv
    exact visibleEntry_congr rfl (insertEntry_slot_ne st hv ..)

theorem visibleEntry_prependEntry (slot : VPtr) (s : SlotNode) (childId : Nat) (child : VPtr)
    (name : Option Name) (v : VPtr) :
    visibleEntry (prependEntry st slot s childId child name epoch) epoch v =
      if v = slot then some ⟨st.nextVp, epoch, childId, child, name⟩ else visibleEntry st epoch v := by
  have hu := hep.u32_issued he.issued
  split
  · rename_i hv
    simp only [visibleEntry, prependEntry, hv, Function.update_self, hu]
    exact chainWalk_cons_take (hep.applicable_at he)
  · rename_i hv
    exact visibleEntry_congr rfl (Function.update_of_ne hv ..)

theorem lists_insertEntry (hwf : DirWf st) {dir : VPtr} {d : DirNode}
    (hdir : st.nodes dir = some (.dir d)) {childId : Nat} {child : VPtr} {name : Name}
    {dir' v c : VPtr} {n : Name}
    (h : Lists (insertEntry st dir d childId child name epoch) epoch dir' v n c) :
    Links.put (Lists st epoch) (st.nextVp + 1) dir name child (st.nextVp + 1) dir' v n c := by
  obtain ⟨d', dc, hd', hmem, hdc, hname, hchild⟩ := h
  rw [visibleEntry_insertEntry hep he] at hdc
  obtain ⟨rfl, hd⟩ | ⟨d₀, hd₀, hmem₀⟩ := insertEntry_mem hdir hd' hmem
  · rw [if_pos rfl] at hdc
    cases hdc
    cases hname
    exact .inr ⟨rfl, hd, rfl, hchild.symm⟩
  · have hv : v ≠ st.nextVp + 1 := by
      rintro rfl
      exact hwf.fresh_not_mem hd₀ (by lia) hmem₀
    rw [if_neg hv] at hdc
    exact .inl ⟨hv, d₀, dc, hd₀, hmem₀, hdc, hname, hchild⟩

theorem lists_prependEntry {slot : VPtr} {s : SlotNode} {childId : Nat} {child : VPtr}
    {name : Option Name} {dir v c : VPtr} {n : Name}
    (h : Lists (prependEntry st slot s childId child name epoch) epoch dir v n c) :
    v ≠ slot ∧ Lists st epoch dir v n c ∨
      v = slot ∧ name = some n ∧ c = child ∧ ∃ d, st.nodes dir = some (.dir d) ∧ slot ∈ d.slotList := by
  obtain ⟨d, dc, hd, hmem, hdc, hname, hchild⟩ := h
  rw [visibleEntry_prependEntry hep he] at hdc
  by_cases hv : v = slot
  · rw [if_pos hv] at hdc
    cases hdc
    exact .inr ⟨hv, hname, hchild.symm, d, hd, hv ▸ hmem⟩
  · rw [if_neg hv] at hdc
    exact .inl ⟨hv, d, dc, hd, hmem, hdc, hname, hchild⟩

theorem lists_addNode (hwf : DirWf st) {d : DirNode} {node : Node} (hnew : IsNew node)
    (hdir : st.nodes parent = some (.dir d)) (dir v : VPtr) (n : Name) (c : VPtr)
    (h : Lists (addNode st parent d node name epoch).2 epoch dir v n c) :
    Links.put (Lists st epoch) (st.nextVp + 2) parent name st.nextVp (st.nextVp + 2) dir v n c := by
  have hnode : DirEdit epoch st { st with
      nextVp := st.nextVp + 1
      nextNodeId := freshNodeId st
      nodes := Function.update st.nodes st.nextVp (some node) } := .node node _ hnew
  have hne : parent ≠ st.nextVp := by
    rintro rfl
    simp [hwf.node_fresh st.nextVp (by lia)] at hdir
  have hdir' : Function.update st.nodes st.nextVp (some node) parent = some (.dir d) :=
    (Function.update_of_ne hne ..).trans hdir
  obtain ⟨hv, h⟩ | h := lists_insertEntry (hnode.epochWf hep) he (hnode.dirWf hep he hwf) hdir' h
  · exact .inl ⟨hv, lists_of_frame (hnode.grow hwf) (fun _ => rfl) h⟩
  · exact .inr h

theorem Tombstoned.lists (h : Tombstoned st epoch st') (hwf : DirWf st) (dir v : VPtr) (n : Name)
    (c : VPtr) (hl : Lists st' epoch dir v n c) : Lists st epoch dir v n c := by
  obtain ⟨parent, d, slot, s, childId, child, name, entries, hd, hmem, hs, hchild, rfl⟩ := h
  have hprepend : DirEdit epoch st (prependEntry st slot s childId child none epoch) :=
    .prepend slot s childId child none hs hchild
  have hindex : DirEdit epoch (prependEntry st slot s childId child none epoch)
      (setIndex (prependEntry st slot s childId child none epoch) parent d
        (indexInsert d.index name slot)) :=
    .reindex parent d _ hd (indexInsert_mem hmem (hwf.index parent d hd))
  have hl' : Lists (prependEntry st slot s childId child none epoch) epoch dir v n c :=
    lists_of_frame (hindex.grow (hprepend.dirWf hep he hwf)) (fun _ => rfl) hl
  obtain ⟨-, hl'⟩ | ⟨-, hname, -⟩ := lists_prependEntry hep he hl'
  · exact hl'
  · cases hname

/-- When the slot the move takes for the child is `slot`, the move clears it and points one slot of
the destination at the child. -/
theorem Renamed.lists {srcParent dstParent child : VPtr} {src dst : Name} {childId : Nat}
    (h : Renamed st srcParent dstParent src dst child childId epoch st') (hwf : DirWf st)
    (hchild : (st.nodes child).isSome) {d : DirNode} (hd : st.nodes srcParent = some (.dir d))
    {slot : VPtr} (hslot : dirchainFindSlotnode st d childId = some slot) :
    ∃ slot', (slot' = slot ∧ srcParent = dstParent ∨ slot' = st.nextVp + 1) ∧
      ∀ dir v n c, Lists st' epoch dir v n c →
        Links.put (Lists st epoch) slot dstParent dst child slot' dir v n c := by
  cases h with
  | within d₀ slot₀ s entries heq hd₀ hfind hs =>
    obtain rfl : d = d₀ := by simpa [hd] using hd₀
    obtain rfl : slot = slot₀ := by simpa [hslot] using hfind
    refine ⟨slot, .inl ⟨rfl, heq⟩, ?_⟩
    intro dir v n c hl
    have hmem := findSlotnode_mem hfind
    have hprepend : DirEdit epoch st (prependEntry st slot s childId child (some dst) epoch) :=
      .prepend slot s childId child (some dst) hs hchild
    have hindex : DirEdit epoch (prependEntry st slot s childId child (some dst) epoch)
        (setIndex (prependEntry st slot s childId child (some dst) epoch) srcParent d
          (indexInsert (indexRemove d.index src slot) dst slot)) :=
      .reindex srcParent d _ hd (indexInsert_mem hmem (indexRemove_mem (hwf.index srcParent d hd)))
    have hl' : Lists (prependEntry st slot s childId child (some dst) epoch) epoch dir v n c :=
      lists_of_frame (hindex.grow (hprepend.dirWf hep he hwf)) (fun _ => rfl) hl
    obtain hl' | ⟨rfl, hname, rfl, d', hd', hmem'⟩ := lists_prependEntry hep he hl'
    · exact .inl hl'
    · cases hname
      -- only the source directory holds the slot
      exact .inr ⟨rfl, (hwf.slot_dir dir d' srcParent d v hd' hd hmem' hmem).trans heq, rfl, rfl⟩
  | across dSrc dDst slot₀ s entries hne hsrc hdst hfind hs =>
    obtain rfl : d = dSrc := by simpa [hd] using hsrc
    obtain rfl : slot = slot₀ := by simpa [hslot] using hfind
    refine ⟨st.nextVp + 1, .inr rfl, ?_⟩
    intro dir v n c hl
    have hinsert : DirEdit epoch st (insertEntry st dstParent dDst childId child dst epoch) :=
      .insert dstParent dDst childId child dst hdst hchild
    obtain ⟨hv, hl'⟩ | ⟨-, hname, -⟩ := lists_prependEntry (hinsert.epochWf hep) he hl
    · obtain ⟨-, hl'⟩ | hl' := lists_insertEntry hep he hwf hdst hl'
      · exact .inl ⟨hv, hl'⟩
      · exact .inr hl'
    · cases hname
  | half dSrc dDst hne hsrc hdst hfind =>
    obtain rfl : d = dSrc := by simpa [hd] using hsrc
    simp [hslot] at hfind

end AtEpoch

end SphereVFS
