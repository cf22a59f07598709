import SphereVFS.RadixIndex
import SphereVFS.FileSteps

/-!
# SphereVFS.Lookup

Lookup and listing of a directory agree, at every epoch and after every run of operations with
whatever arguments.

A lookup first follows the links that the radix index holds for the name's hash and then walks all
slots, a listing walks all slots. They agree because every link that is not zeroed leads to a slot
of the directory: each directory's index is what some calls of `dircontentindex_insert` with slots
of the directory and of `dircontentindex_remove` made of an empty one.
-/

namespace SphereVFS

variable {st st' : State} {parent : VPtr} {name : Name} {epoch : Int}

/-! ## The index of a directory -/

/-- The index has a history of calls that only made links to slots of the directory. -/
structure DirNode.Indexed (d : DirNode) : Prop where
  slot_ne : ∀ v ∈ d.slotList, v ≠ 0
  history : ∃ calls, d.index = leavesOf calls ∧ ∀ call ∈ calls, call.Links (· ∈ d.slotList)

theorem DirNode.indexed_empty (id : Nat) : DirNode.Indexed ⟨id, [], fun _ => []⟩ :=
  ⟨by simp [DirNode.slotList], [], rfl, by simp⟩

theorem DirNode.Indexed.link_mem {d : DirNode} (h : d.Indexed) {leaf : Nat} {l : VPtr}
    (hl : l ∈ d.index leaf) (hne : l ≠ 0) : l ∈ d.slotList := by
  obtain ⟨calls, hix, hcalls⟩ := h.history
  rw [hix] at hl
  exact mem_leavesOf hcalls hl hne

theorem DirNode.Indexed.insert {d : DirNode} (h : d.Indexed) (name : Name) {slot : VPtr}
    (hslot : slot ∈ d.slotList) : DirNode.Indexed { d with index := indexInsert d.index name slot } := by
  obtain ⟨calls, hix, hcalls⟩ := h.history
  refine ⟨h.slot_ne, calls ++ [.insert name slot], ?_, ?_⟩
  · rw [leavesOf, List.foldl_append, ← leavesOf, ← hix]
    rfl
  · exact List.forall_mem_append.2 ⟨hcalls, List.forall_mem_singleton.2 hslot⟩

theorem DirNode.Indexed.remove {d : DirNode} (h : d.Indexed) (name : Name) (slot : VPtr) :
    DirNode.Indexed { d with index := indexRemove d.index name slot } := by
  obtain ⟨calls, hix, hcalls⟩ := h.history
  refine ⟨h.slot_ne, calls ++ [.remove name slot], ?_, ?_⟩
  · rw [leavesOf, List.foldl_append, ← leavesOf, ← hix]
    rfl
  · exact List.forall_mem_append.2 ⟨hcalls, List.forall_mem_singleton.2 trivial⟩

theorem DirNode.Indexed.link {d : DirNode} (h : d.Indexed) {slot : VPtr} (hslot : slot ≠ 0) :
    DirNode.Indexed { d with segments := linkSlot d.segments slot } := by
  obtain ⟨pre, post, hold, hnew⟩ := slotList_link d slot d.index
  have hnew' : DirNode.slotList { d with segments := linkSlot d.segments slot } = pre ++ slot :: post :=
    hnew
  obtain ⟨calls, hix, hcalls⟩ := h.history
  constructor
  · intro v hv
    rw [hnew'] at hv
    obtain hv | rfl | hv : v ∈ pre ∨ v = slot ∨ v ∈ post := by simpa using hv
    · exact h.slot_ne v (by simp [hold, hv])
    · exact hslot
    · exact h.slot_ne v (by simp [hold, hv])
  · refine ⟨calls, hix, fun call hcall => ?_⟩
    have hin := hcalls call hcall
    cases call with
    | insert name v =>
      rw [IndexOp.Links, hold, List.mem_append] at hin
      rw [IndexOp.Links, hnew']
      simp only [List.mem_append, List.mem_cons]
      exact hin.imp id .inr
    | remove name v => trivial

/-! ## Steps -/

structure Indexed (st : State) : Prop where
  dirs : ∀ dir d, st.nodes dir = some (.dir d) → d.Indexed

theorem bootstrap_indexed (pageSize segmentSize : Nat) : Indexed (bootstrap pageSize segmentSize) := by
  refine ⟨fun dir d hd => ?_⟩
  obtain ⟨-, hd⟩ := bootstrap_node hd
  cases hd
  exact DirNode.indexed_empty 0

theorem Indexed.update (h : Indexed st) {v : VPtr} (node : Node)
    (hnode : ∀ d, node = .dir d → d.Indexed)
    (hnodes : st'.nodes = Function.update st.nodes v (some node)) : Indexed st' := by
  refine ⟨fun dir d hd => ?_⟩
  rw [hnodes] at hd
  obtain ⟨-, hd⟩ | ⟨-, hd⟩ := update_some_iff.1 hd
  · exact hnode d hd
  · exact h.dirs dir d hd

theorem Indexed.insertEntry (h : Indexed st) (dir : VPtr) {d : DirNode} (hd : d.Indexed)
    (childId : Nat) (child : VPtr) (name : Name) (epoch : Int) :
    Indexed (insertEntry st dir d childId child name epoch) := by
  have hslot : st.nextVp + 1 ≠ 0 := Nat.succ_ne_zero _
  obtain ⟨pre, post, -, hnew⟩ := slotList_link d (st.nextVp + 1) d.index
  refine h.update (.dir _) ?_ rfl
  rintro d' hd'
  cases hd'
  refine (hd.link hslot).insert name ?_
  exact hnew ▸ (by simp : st.nextVp + 1 ∈ pre ++ (st.nextVp + 1) :: post)

theorem Indexed.addNode (h : Indexed st) {d : DirNode} {node : Node} (hnew : IsNew node)
    (hdir : st.nodes parent = some (.dir d)) (name : Name) (epoch : Int) :
    Indexed (addNode st parent d node name epoch).2 := by
  have hadd : Indexed { st with
      nextVp := st.nextVp + 1
      nextNodeId := freshNodeId st
      nodes := Function.update st.nodes st.nextVp (some node) } := by
    refine h.update node ?_ rfl
    rintro d' rfl
    cases hnew
    exact DirNode.indexed_empty _
  exact hadd.insertEntry parent (h.dirs parent d hdir) ..

theorem DirMove.indexed (h : DirMove st st') (hix : Indexed st) : Indexed st' := by
  cases h with
  | add parent d node name epoch hnew hd => exact hix.addNode hnew hd ..
  | insert dir d childId child name epoch hd => exact hix.insertEntry dir (hix.dirs dir d hd) ..
  | prepend slot s child name epoch hs => exact ⟨hix.dirs⟩
  | reindex dir d ix hd hedit =>
    refine hix.update (.dir _) ?_ rfl
    rintro d' hd'
    cases hd'
    cases hedit with
    | insert name slot hslot => exact (hix.dirs dir d hd).insert name hslot
    | move src dst slot hslot => exact ((hix.dirs dir d hd).remove src slot).insert dst hslot
  | bin entries => exact ⟨hix.dirs⟩

theorem run_indexed (h : Indexed st) (ops : List Op) : Indexed (run st ops) :=
  run_keeps DirMove.indexed (fun hsame h => ⟨fun dir d hd => h.dirs dir d ((hsame.dirs dir d).1 hd)⟩) h ops

/-! ## Lookups -/

/-- `dirchain_find_child` with the radix tree of the directory for its index. -/
def dirchainFindChildIn (st : State) (tree : IndexTree) (dir : VPtr) (name : Name) (epoch : Int) :
    Except Err (VPtr × Nat) :=
  if name = [] then .error .io
  else
    match st.nodes dir with
    | some (.dir d) =>
      let readEpoch := resolve st.mapperTable epoch
      let viaIndex := (dircontentindexLookup tree (nameHash name)).findSome? fun link =>
        if link = 0 then none else checkSlotForName st readEpoch name link
      match viaIndex.or (d.slotList.findSome? (checkSlotForName st readEpoch name)) with
      | some r => .ok r
      | none => .error .notFound
    | _ => .error (notDirError dir)

theorem findChildIn_eq {tree : IndexTree} {dir : VPtr} {d : DirNode}
    (hd : st.nodes dir = some (.dir d)) (h : Represents tree d.index) (name : Name) (epoch : Int) :
    dirchainFindChildIn st tree dir name epoch = dirchainFindChild st dir name epoch := by
  have hlinks : dircontentindexLookup tree (nameHash name) = d.index (leafOf name) :=
    h.lookup (nameHash name)
  rw [dirchainFindChildIn, dirchainFindChild, hd]
  exact hlinks ▸ rfl

theorem checkSlot_listed {R : Int} {slot child : VPtr} {id : Nat} {d : DirNode}
    (hmem : slot ∈ d.slotList) (h : checkSlotForName st R name slot = some (child, id)) :
    ∃ e ∈ d.slotList.filterMap (listSlot st R), e.name = name ∧ e.vp = child ∧ e.nodeId = id := by
  obtain ⟨dc, hdc, hname, rfl, rfl⟩ := checkSlotForName_eq_some.1 h
  refine ⟨⟨dc.childPtr, dc.childId, isDir st dc.childPtr, name⟩, ?_, rfl, rfl, rfl⟩
  exact List.mem_filterMap.2 ⟨slot, hmem, by simp [listSlot, hdc, hname]⟩

theorem findChild_listed (h : Indexed st) {dir : VPtr} {d : DirNode}
    (hd : st.nodes dir = some (.dir d)) {child : VPtr} {id : Nat}
    (hfind : dirchainFindChild st dir name epoch = .ok (child, id)) :
    ∃ e ∈ d.slotList.filterMap (listSlot st (resolve st.mapperTable epoch)),
      e.name = name ∧ e.vp = child ∧ e.nodeId = id := by
  rw [dirchainFindChild] at hfind
  split at hfind
  · cases hfind
  rw [hd] at hfind
  dsimp only at hfind
  split at hfind
  · rename_i r hr
    cases hfind
    obtain hr | ⟨-, hr⟩ := Option.or_eq_some_iff.1 hr
    · -- a link of the index leads to a slot of the directory
      obtain ⟨link, hlink, hcheck⟩ := List.exists_of_findSome?_eq_some hr
      split at hcheck
      · cases hcheck
      · rename_i hne
        exact checkSlot_listed ((h.dirs dir d hd).link_mem hlink hne) hcheck
    · obtain ⟨slot, hslot, hcheck⟩ := List.exists_of_findSome?_eq_some hr
      exact checkSlot_listed hslot hcheck
  · cases hfind

theorem findChild_not_listed {dir : VPtr} {d : DirNode} {e : Err}
    (hd : st.nodes dir = some (.dir d)) (hne : name ≠ [])
    (hfind : dirchainFindChild st dir name epoch = .error e) :
    ∀ entry ∈ d.slotList.filterMap (listSlot st (resolve st.mapperTable epoch)),
      entry.name ≠ name := by
  rintro entry hentry hname
  obtain ⟨slot, hslot, hlist⟩ := List.mem_filterMap.1 hentry
  rw [listSlot] at hlist
  split at hlist
  · rename_i dc hdc
    obtain ⟨n, hn, rfl⟩ := Option.map_eq_some_iff.1 hlist
    exact findChild_error hd hfind hne slot hslot dc hdc (by rw [hn, ← hname])
  · cases hlist

/-- **Lookup and listing agree.** After every run, whatever the operations, their arguments and
epochs: the index of a directory is a radix tree built by its own operations, a lookup through that
tree is `dirchain_find_child`, a child that it gives stands in the listing under the name, and when
it finds nothing the listing has no entry of that name. -/
theorem lookup_agrees_with_listing (pageSize segmentSize : Nat) (ops : List Op) (dir : VPtr)
    (d : DirNode) (hd : (run (bootstrap pageSize segmentSize) ops).nodes dir = some (.dir d))
    (name : Name) (hname : 1 ≤ name.length ∧ name.length ≤ 255) (epoch : Int) :
    let st := run (bootstrap pageSize segmentSize) ops
    (∃ calls, Represents (treeOf calls) d.index ∧
      dirchainFindChildIn st (treeOf calls) dir name epoch = dirchainFindChild st dir name epoch) ∧
    ∃ entries, vfsReaddir st dir epoch = .ok entries ∧
      (∀ child id, dirchainFindChild st dir name epoch = .ok (child, id) →
        ∃ e ∈ entries, e.name = name ∧ e.vp = child ∧ e.nodeId = id) ∧
      (dirchainFindChild st dir name epoch = .error .notFound → ∀ e ∈ entries, e.name ≠ name) := by
  have hix := run_indexed (bootstrap_indexed pageSize segmentSize) ops
  generalize run (bootstrap pageSize segmentSize) ops = st at hd hix ⊢
  obtain ⟨calls, hcalls, hlinks⟩ := (hix.dirs dir d hd).history
  have hne : ∀ call ∈ calls, call.Links (· ≠ 0) := by
    intro call hcall
    have hlink := hlinks call hcall
    cases call with
    | insert name slot => exact (hix.dirs dir d hd).slot_ne slot hlink
    | remove name slot => trivial
  have hrep : Represents (treeOf calls) d.index := hcalls ▸ represents_treeOf hne
  refine ⟨⟨calls, hrep, findChildIn_eq hd hrep name epoch⟩,
    d.slotList.filterMap (listSlot st (resolve st.mapperTable epoch)), by simp only [vfsReaddir, hd],
    ?_, ?_⟩
  · exact fun child id hfind => findChild_listed hix hd hfind
  · refine findChild_not_listed hd ?_
    rintro rfl
    simp at hname

/-- A file that was renamed on the head is found and listed under its new name there, and under its old
name at the snapshot. -/
theorem lookup_agrees_with_listing_moved_files :
    let st := run (bootstrap 8192 1024) movedFiles
    (∃ entries, vfsReaddir st 1 2 = .ok entries ∧ ∃ e ∈ entries, e.name = [99] ∧ e.vp = 2 ∧ e.nodeId = 1) ∧
      ∃ entries, vfsReaddir st 1 1 = .ok entries ∧ ∃ e ∈ entries, e.name = [97] ∧ e.vp = 2 ∧ e.nodeId = 1 := by
  obtain ⟨d, hd⟩ : ∃ d, (run (bootstrap 8192 1024) movedFiles).nodes 1 = some (.dir d) :=
    isDir_iff.1 (by decide +kernel)
  have h := lookup_agrees_with_listing 8192 1024 movedFiles 1 d hd
  obtain ⟨-, entries, hlist, hfound, -⟩ := h [99] (by decide) 2
  obtain ⟨-, entries', hlist', hfound', -⟩ := h [97] (by decide) 1
  exact ⟨⟨entries, hlist, hfound 2 1 (by decide +kernel)⟩, entries', hlist', hfound' 2 1 (by decide +kernel)⟩

end SphereVFS
