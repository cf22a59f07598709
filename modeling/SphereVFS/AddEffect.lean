import SphereVFS.DirEffect
import SphereVFS.FuseReturns

/-!
# SphereVFS.AddEffect

What `vfs_create` and `vfs_mkdir` do with a name, against what a reader at the epoch sees.

Both end in the same change, a new node with a new slot. They differ in the collision test: create
looks the name up by the read rule, mkdir looks for an entry that was stored at exactly the epoch.
The two tests agree where such an entry exists just when some slot shows the name.

Past the test both lock the parent and then the id of the new node, in one number space. At an epoch
other than `0` a lock is not recursive, so they never return if the id is the number of the parent's
pointer.
-/

namespace SphereVFS

variable {st : State} {dir : VPtr} {d : DirNode} {name : Name} {epoch : Int}

/-! ## The new entry -/

/-- The name is new in the directory: the child is a new node, the lookup gives it, and the listing
has one more entry. -/
structure Added (st st' : State) (dir : VPtr) (name : Name) (child : VPtr) (epoch : Int) : Prop where
  fresh : st.nodes child = none
  opens : vfsOpen st' dir name epoch = .ok child
  listing : ∃ pre entry post, vfsReaddir st dir epoch = .ok (pre ++ post) ∧
    vfsReaddir st' dir epoch = .ok (pre ++ entry :: post) ∧ entry.name = name ∧ entry.vp = child

theorem addNode_node {node : Node} :
    (addNode st dir d node name epoch).2.nodes dir = some (.dir { d with
      segments := linkSlot d.segments (st.nextVp + 2)
      index := indexInsert d.index name (st.nextVp + 2) }) :=
  Function.update_self ..

theorem addNode_nodes {node : Node} {v : VPtr} (hdir : v ≠ dir) (hne : v ≠ st.nextVp) :
    (addNode st dir d node name epoch).2.nodes v = st.nodes v := by
  simp [addNode, insertEntry, hdir, hne]

section AddNode

variable (hwf : Wf st) (he : Writable st epoch) {node : Node}
include hwf he

theorem addNode_entry (v : VPtr) :
    visibleEntry (addNode st dir d node name epoch).2 epoch v =
      if v = st.nextVp + 2 then some ⟨st.nextVp + 1, epoch, freshNodeId st, st.nextVp, some name⟩
      else visibleEntry st epoch v := by
  have hep : EpochWf { st with
      nextVp := st.nextVp + 1
      nextNodeId := freshNodeId st
      nodes := Function.update st.nodes st.nextVp (some node) } :=
    ⟨hwf.epoch.head_even, hwf.epoch.head_nonneg, hwf.epoch.head_lt, hwf.epoch.rows, hwf.epoch.chain⟩
  exact visibleEntry_insertEntry hep he dir d (freshNodeId st) st.nextVp name v

variable (hd : st.nodes dir = some (.dir d))
include hd

theorem addNode_listSlot (hnew : IsNew node) {v : VPtr} (hv : v ∈ d.slotList) :
    listSlot (addNode st dir d node name epoch).2 epoch v = listSlot st epoch v := by
  have hedits : DirEdits epoch st (addNode st dir d node name epoch).2 :=
    addNode_edits hwf.dir hnew hd
  have hkeep := hedits.keeps hwf.epoch he hwf.dir
  have hne : v ≠ st.nextVp + 2 := by
    rintro rfl
    exact hwf.dir.fresh_not_mem hd (by lia) hv
  rw [listSlot, listSlot, addNode_entry hwf he, if_neg hne]
  cases hdc : visibleEntry st epoch v with
  | none => rfl
  | some dc =>
    cases hname : dc.name with
    | none => simp [hname]
    | some n =>
      have hsome := lists_child_isSome hwf.dir (⟨d, dc, hd, hv, hdc, hname, rfl⟩ : Lists st epoch dir v n _)
      simp only [hname, Option.map_some, hkeep.grow.isDir hsome]

theorem addNode_added (hnew : IsNew node) (hne : name ≠ []) :
    Added st (addNode st dir d node name epoch).2 dir name (addNode st dir d node name epoch).1
      epoch := by
  set st' := (addNode st dir d node name epoch).2
  have hres := hwf.epoch.resolve_writable he
  have htable : st'.mapperTable = st.mapperTable := rfl
  have hentry : visibleEntry st' epoch (st.nextVp + 2) =
      some ⟨st.nextVp + 1, epoch, freshNodeId st, st.nextVp, some name⟩ := by
    rw [addNode_entry hwf he, if_pos rfl]
  constructor
  · exact hwf.dir.node_fresh st.nextVp (by lia)
  · -- the new link stands in front of the leaf
    have hlinks : indexInsert d.index name (st.nextVp + 2) (leafOf name) =
        (st.nextVp + 2) :: d.index (leafOf name) := Function.update_self ..
    have hcheck : checkSlotForName st' (resolve st'.mapperTable epoch) name (st.nextVp + 2) =
        some (st.nextVp, freshNodeId st) := by
      rw [htable, hres]
      exact checkSlotForName_eq_some.2 ⟨_, hentry, rfl, rfl, rfl⟩
    exact vfsOpen_first_link addNode_node hne hlinks (Nat.succ_ne_zero _) hcheck
  · obtain ⟨pre, post, hold, hnewList⟩ :=
      slotList_link d (st.nextVp + 2) (indexInsert d.index name (st.nextVp + 2))
    have hsame : ∀ l : List VPtr, (∀ v ∈ l, v ∈ d.slotList) →
        l.filterMap (listSlot st' epoch) = l.filterMap (listSlot st epoch) :=
      fun l hl => List.filterMap_congr fun v hv => addNode_listSlot hwf he hd hnew (hl v hv)
    have hslot : listSlot st' epoch (st.nextVp + 2) =
        some ⟨st.nextVp, freshNodeId st, isDir st' st.nextVp, name⟩ := by
      rw [listSlot, hentry]
      rfl
    refine ⟨pre.filterMap (listSlot st epoch), ⟨st.nextVp, freshNodeId st, isDir st' st.nextVp, name⟩,
      post.filterMap (listSlot st epoch), ?_, ?_, rfl, rfl⟩
    · rw [vfsReaddir, hd, hres]
      dsimp only
      rw [hold, List.filterMap_append]
    · rw [vfsReaddir, addNode_node, htable, hres]
      dsimp only
      rw [hnewList, List.filterMap_append, List.filterMap_cons_some hslot,
        hsame pre (by simp +contextual [hold]), hsame post (by simp +contextual [hold])]

theorem addNode_open_other {dir' child : VPtr} {n : Name} (hopen : vfsOpen st dir' n epoch = .ok child)
    (hother : dir' = dir → n ≠ name) : vfsOpen (addNode st dir d node name epoch).2 dir' n epoch = .ok child := by
  refine Eq.trans ?_ hopen
  set st' := (addNode st dir d node name epoch).2
  have hres := hwf.epoch.resolve_writable he
  have htable : st'.mapperTable = st.mapperTable := rfl
  have hold : ∀ d', st.nodes dir' = some (.dir d') → ∀ v ∈ d'.slotList,
      checkSlotForName st' (resolve st.mapperTable epoch) n v =
        checkSlotForName st (resolve st.mapperTable epoch) n v := by
    intro d' hd' v hv
    rw [hres]
    refine checkSlot_congr ?_
    rw [addNode_entry hwf he, if_neg]
    rintro rfl
    exact hwf.dir.fresh_not_mem hd' (by lia) hv
  by_cases hdir : dir' = dir
  · subst hdir
    refine vfsOpen_linked hwf.dir htable hd addNode_node (hold d hd) ?_
    rw [hres, checkSlotForName, addNode_entry hwf he, if_pos rfl]
    simp [Ne.symm (hother rfl)]
  · obtain ⟨childId, hfind⟩ := vfsOpen_ok hopen
    obtain ⟨d₀, -, -, hd₀, -⟩ := findChild_ok hwf.dir hfind
    refine vfsOpen_same_node hwf.dir htable (addNode_nodes hdir ?_) hold
    rintro rfl
    simp [hwf.dir.node_fresh st.nextVp (by lia)] at hd₀

end AddNode

/-! ## The collision tests -/

def Resolves (st : State) (dir : VPtr) (name : Name) (epoch : Int) : Prop :=
  ∃ child, vfsOpen st dir name epoch = .ok child

/-- What create and mkdir are to do: refuse a name that resolves, and add one that does not. -/
structure AddsByView (st : State) (dir : VPtr) (name : Name) (epoch : Int)
    (r : Except Err VPtr × State) : Prop where
  refuses : r.1 = .error .alreadyExists ↔ Resolves st dir name epoch
  adds : ¬ Resolves st dir name epoch → ∃ child, r.1 = .ok child ∧ Added st r.2 dir name child epoch

def StoredAtEpoch (st : State) (dir : VPtr) (name : Name) (epoch : Int) : Prop :=
  ∃ d slot s dc, st.nodes dir = some (.dir d) ∧ slot ∈ d.slotList ∧ st.slots slot = some s ∧
    dc ∈ s.chain ∧ dc.epoch = epoch ∧ dc.name = some name

def Shown (st : State) (dir : VPtr) (name : Name) (epoch : Int) : Prop :=
  ∃ slot child, Lists st epoch dir slot name child

section Tests

variable (hwf : Wf st) (he : Writable st epoch)
include hwf he

theorem storedAt_iff {slot : VPtr} :
    storedAt st name epoch slot = true ↔
      ∃ s, st.slots slot = some s ∧ ∃ dc ∈ s.chain, dc.epoch = epoch ∧ dc.name = some name := by
  have hu := hwf.epoch.u32_issued he.issued
  cases hs : st.slots slot with
  | none => simp [storedAt, hs]
  | some s => simp [storedAt, hs, hu]

variable (hd : st.nodes dir = some (.dir d))
include hd

theorem mkdir_test_iff (hzero : st.slots 0 = none) :
    ((d.index (leafOf name)).any (storedAt st name epoch) ||
      d.slotList.any (storedAt st name epoch)) = true ↔ StoredAtEpoch st dir name epoch := by
  rw [Bool.or_eq_true, List.any_eq_true, List.any_eq_true]
  constructor
  · rintro (⟨slot, hslot, htest⟩ | ⟨slot, hslot, htest⟩)
    · obtain ⟨s, hs, dc, hdc, hepoch, hname⟩ := (storedAt_iff hwf he).1 htest
      have hslot0 : slot ≠ 0 := by
        rintro rfl
        simp [hzero] at hs
      exact ⟨d, slot, s, dc, hd, hwf.dir.index dir d hd _ slot hslot hslot0, hs, hdc, hepoch, hname⟩
    · obtain ⟨s, hs, dc, hdc, hepoch, hname⟩ := (storedAt_iff hwf he).1 htest
      exact ⟨d, slot, s, dc, hd, hslot, hs, hdc, hepoch, hname⟩
  · rintro ⟨d', slot, s, dc, hd', hslot, hs, hdc, hepoch, hname⟩
    obtain rfl : d = d' := by simpa [hd] using hd'
    exact .inr ⟨slot, hslot, (storedAt_iff hwf he).2 ⟨s, hs, dc, hdc, hepoch, hname⟩⟩

variable (hne : name ≠ [])
include hne

theorem resolves_iff_shown : Resolves st dir name epoch ↔ Shown st dir name epoch := by
  have hcases := vfsOpen_cases hwf.dir hd hne epoch
  rw [hwf.epoch.resolve_writable he] at hcases
  constructor
  · rintro ⟨child, hopen⟩
    obtain ⟨c, slot, -, hl⟩ | ⟨herr, -⟩ := hcases
    · exact ⟨slot, c, hl⟩
    · rw [hopen] at herr
      cases herr
  · rintro ⟨slot, child, hl⟩
    obtain ⟨c, -, hopen, -⟩ | ⟨-, hnone⟩ := hcases
    · exact ⟨c, hopen⟩
    · exact absurd hl (hnone slot child)

theorem vfsCreate_addsByView (hlen : name.length ≤ 255) :
    AddsByView st dir name epoch (vfsCreate st dir name epoch) := by
  have hw := hwf.epoch.check_of_writable he
  cases hfind : dirchainFindChild st dir name epoch with
  | ok r =>
    have hres : Resolves st dir name epoch := ⟨r.1, by simp [vfsOpen, hfind, Except.map]⟩
    have hcreate : vfsCreate st dir name epoch = (.error .alreadyExists, st) := by
      simp [vfsCreate, hne, hw, hd, Nat.not_lt.2 hlen, hfind]
    rw [hcreate]
    exact ⟨⟨fun _ => hres, fun _ => rfl⟩, fun h => absurd hres h⟩
  | error e =>
    have hnone : ¬ Resolves st dir name epoch := by
      rintro ⟨child, hopen⟩
      simp [vfsOpen, hfind, Except.map] at hopen
    have herr : e = .notFound := by
      obtain ⟨c, -, hopen, -⟩ | ⟨hopen, -⟩ := vfsOpen_cases hwf.dir hd hne epoch
      · exact absurd ⟨c, hopen⟩ hnone
      · simpa [vfsOpen, hfind, Except.map] using hopen
    have hcreate : vfsCreate st dir name epoch =
        (.ok (addNode st dir d (.file ⟨freshNodeId st, [], []⟩) name epoch).1,
          (addNode st dir d (.file ⟨freshNodeId st, [], []⟩) name epoch).2) := by
      simp [vfsCreate, hne, hw, hd, Nat.not_lt.2 hlen, hfind, herr]
    rw [hcreate]
    refine ⟨⟨fun h => ?_, fun h => absurd h hnone⟩, fun _ => ?_⟩
    · cases h
    · exact ⟨_, rfl, addNode_added hwf he hd (.file _) hne⟩

theorem vfsMkdir_refused_iff (hlen : name.length ≤ 255) (hzero : st.slots 0 = none) :
    (vfsMkdir st dir name epoch).1 = .error .alreadyExists ↔ StoredAtEpoch st dir name epoch := by
  have hw := hwf.epoch.check_of_writable he
  have htest : _ ↔ StoredAtEpoch st dir name epoch := mkdir_test_iff hwf he hd hzero
  rw [← htest]
  simp only [vfsMkdir, hne, hw, hd, Nat.not_lt.2 hlen, if_false, not_true_eq_false]
  split
  · simp [*]
  · simp [*]

theorem vfsMkdir_addsByView_iff (hlen : name.length ≤ 255) (hzero : st.slots 0 = none) :
    AddsByView st dir name epoch (vfsMkdir st dir name epoch) ↔
      (StoredAtEpoch st dir name epoch ↔ Shown st dir name epoch) := by
  have hw := hwf.epoch.check_of_writable he
  have hrefused := vfsMkdir_refused_iff hwf he hd hne hlen hzero
  rw [← resolves_iff_shown hwf he hd hne, ← hrefused]
  refine ⟨AddsByView.refuses, fun h => ⟨h, fun hno => ?_⟩⟩
  -- mkdir adds a name that it does not refuse
  have hfalse := mt (mkdir_test_iff hwf he hd hzero).1 (mt hrefused.2 (mt h.1 hno))
  have hmkdir : vfsMkdir st dir name epoch =
      (.ok (addNode st dir d (.dir ⟨freshNodeId st, [], fun _ => []⟩) name epoch).1,
        (addNode st dir d (.dir ⟨freshNodeId st, [], fun _ => []⟩) name epoch).2) := by
    simp only [vfsMkdir, hne, hw, hd, Nat.not_lt.2 hlen, hfalse, if_false, not_true_eq_false,
      Bool.false_eq_true]
  rw [hmkdir]
  exact ⟨_, rfl, addNode_added hwf he hd (.dir _) hne⟩

end Tests

/-! ## The locks -/

/-- A call that ends with `r`, with the locks it takes if it gets past its tests, while nobody else runs
and no lock is held; `none` if it never returns. -/
def lockedCall (locks : TreeLock.LockProg) (r : Except Err VPtr × State) :
    Option (Except Err VPtr × State) :=
  match r.1 with
  | .ok _ => (FuseLock.exec () locks Lock.System.init).map fun _ => r
  | .error _ => some r

/-- `vfs_create`, where `vptr` are the numbers that `pool_alloc` gave the pointers. -/
def lockedCreate (vptr : VPtr → Int) (st : State) (dir : VPtr) (name : Name) (epoch : Int) :
    Option (Except Err VPtr × State) :=
  lockedCall (TreeLock.vfsCreate (vptr dir) (freshNodeId st) epoch) (vfsCreate st dir name epoch)

def lockedMkdir (vptr : VPtr → Int) (st : State) (dir : VPtr) (name : Name) (epoch : Int) :
    Option (Except Err VPtr × State) :=
  lockedCall (TreeLock.vfsMkdir (vptr dir) (freshNodeId st) epoch) (vfsMkdir st dir name epoch)

theorem exec_locks_isSome {parent id : Int} :
    (FuseLock.exec () (TreeLock.lockParentThenChild parent id epoch .ret) Lock.System.init).isSome ↔
      (epoch ≠ 0 → id ≠ parent) := by
  have hfree : FuseLock.Free (Lock.System.init : Lock.System Unit).held parent := fun a ha => by cases ha
  have hmay : FuseLock.MayLock (Lock.System.init : Lock.System Unit).held () id epoch := fun a ha => by cases ha
  by_cases hne : epoch ≠ 0 → id ≠ parent
  · obtain ⟨s, hs, -⟩ := FuseLock.create_leaves (P := fun _ => True) hfree hmay hne trivial (.ret trivial)
      _ .init rfl
    exact iff_of_true (by simp [hs]) hne
  · rw [FuseLock.create_blocks hfree (fun h => hne h.2) _ .init rfl]
    exact iff_of_false (by simp) hne

theorem lockedCall_addsByView {id : Int} {parent : Int} {r : Except Err VPtr × State} :
    (∃ r', lockedCall (TreeLock.lockParentThenChild parent id epoch .ret) r = some r' ∧
        AddsByView st dir name epoch r') ↔
      AddsByView st dir name epoch r ∧ (¬ Resolves st dir name epoch → epoch ≠ 0 → id ≠ parent) := by
  rw [← exec_locks_isSome]
  obtain ⟨res, st'⟩ := r
  cases res with
  | error e =>
    simp only [lockedCall, Option.some.injEq, exists_eq_left']
    refine ⟨fun h => ⟨h, fun hno => ?_⟩, And.left⟩
    obtain ⟨c, hc, -⟩ := h.adds hno
    cases hc
  | ok c =>
    simp only [lockedCall, Option.map_eq_some_iff]
    constructor
    · rintro ⟨r', ⟨s, hs, rfl⟩, h⟩
      exact ⟨h, fun _ => by simp [hs]⟩
    · rintro ⟨h, hlocks⟩
      have hno : ¬ Resolves st dir name epoch := fun hres => by cases h.refuses.2 hres
      obtain ⟨s, hs⟩ := Option.isSome_iff_exists.1 (hlocks hno)
      exact ⟨_, ⟨s, hs, rfl⟩, h⟩

/-! ## Create and mkdir -/

/-- **Create and mkdir depend on visibility alone.** In every volume reached by valid operations and at
every writable epoch, with no other thread running and whatever numbers the pointers have, `vfs_create`
and `vfs_mkdir` return, refuse a name exactly if it resolves, and add it otherwise, if and only if an
entry with the name was stored at exactly the epoch just when some slot of the directory shows the name,
and, if none does and the epoch is not `0`, the id of the new node is not the number of the directory's
pointer. -/
theorem adds_by_view_iff {pageSize segmentSize : Nat} (hp : 0 < pageSize) (hs : 0 < segmentSize)
    (ops : List Op) (hrun : Run.AllSteps step ValidOp (bootstrap pageSize segmentSize) ops)
    (vptr : VPtr → Int) {dir : VPtr} {d : DirNode}
    (hd : (run (bootstrap pageSize segmentSize) ops).nodes dir = some (.dir d)) {epoch : Int}
    (he : Writable (run (bootstrap pageSize segmentSize) ops) epoch) {name : Name}
    (hname : 1 ≤ name.length ∧ name.length ≤ 255) :
    let st := run (bootstrap pageSize segmentSize) ops
    ((∃ r, lockedCreate vptr st dir name epoch = some r ∧ AddsByView st dir name epoch r) ∧
        ∃ r, lockedMkdir vptr st dir name epoch = some r ∧ AddsByView st dir name epoch r) ↔
      (StoredAtEpoch st dir name epoch ↔ Shown st dir name epoch) ∧
        (¬ Shown st dir name epoch → epoch ≠ 0 → (freshNodeId st : Int) ≠ vptr dir) := by
  have hwf := reachable_wf hp hs hrun
  have hzero := reachable_slot_zero hp hs hrun
  have hne : name ≠ [] := List.ne_nil_of_length_pos hname.1
  generalize run (bootstrap pageSize segmentSize) ops = st at *
  dsimp only
  rw [lockedCreate, lockedMkdir, TreeLock.vfsCreate, TreeLock.vfsMkdir, lockedCall_addsByView,
    lockedCall_addsByView, vfsMkdir_addsByView_iff hwf he hd hne hname.2 hzero,
    resolves_iff_shown hwf he hd hne, and_iff_right (vfsCreate_addsByView hwf he hd hne hname.2)]
  exact ⟨And.right, fun h => ⟨h.2, h⟩⟩

/-- After two moves at the head, a name that one of them gave is refused there, and a name that it took
away is added. -/
theorem adds_by_view_moved_files :
    let st := run (bootstrap 8192 1024) movedFiles
    let vptr : VPtr → Int := fun v => 2 ^ 17 + v
    ((∃ r, lockedCreate vptr st 1 [99] 2 = some r ∧ AddsByView st 1 [99] 2 r) ∧
      ∃ r, lockedMkdir vptr st 1 [99] 2 = some r ∧ AddsByView st 1 [99] 2 r) ∧
    (∃ r, lockedCreate vptr st 1 [98] 2 = some r ∧ AddsByView st 1 [98] 2 r) ∧
      ∃ r, lockedMkdir vptr st 1 [98] 2 = some r ∧ AddsByView st 1 [98] 2 r := by
  have hwf : Wf (run (bootstrap 8192 1024) movedFiles) :=
    reachable_wf (by decide) (by decide) movedFiles_valid
  have hzero : (run (bootstrap 8192 1024) movedFiles).slots 0 = none :=
    reachable_slot_zero (by decide) (by decide) movedFiles_valid
  obtain ⟨d, hd⟩ : ∃ d, (run (bootstrap 8192 1024) movedFiles).nodes 1 = some (.dir d) :=
    isDir_iff.1 (by decide +kernel)
  have he : Writable (run (bootstrap 8192 1024) movedFiles) 2 := .inl (by decide +kernel)
  have hagree : ∀ name, name ≠ [] → name.length ≤ 255 →
      ((vfsMkdir (run (bootstrap 8192 1024) movedFiles) 1 name 2).1 = .error .alreadyExists ↔
        ∃ child, vfsOpen (run (bootstrap 8192 1024) movedFiles) 1 name 2 = .ok child) →
      (StoredAtEpoch (run (bootstrap 8192 1024) movedFiles) 1 name 2 ↔
        Shown (run (bootstrap 8192 1024) movedFiles) 1 name 2) := by
    intro name hne hlen h
    rwa [vfsMkdir_refused_iff hwf he hd hne hlen hzero, ← Resolves,
      resolves_iff_shown hwf he hd hne] at h
  have hid : (freshNodeId (run (bootstrap 8192 1024) movedFiles) : Int) ≠ 2 ^ 17 + (1 : VPtr) := by decide +kernel
  refine ⟨(adds_by_view_iff (by decide) (by decide) movedFiles movedFiles_valid _ hd he
    (by decide)).2 ⟨hagree _ (by decide) (by decide) (iff_of_true ?_ ⟨2, ?_⟩), fun _ _ => hid⟩,
    (adds_by_view_iff (by decide) (by decide) movedFiles movedFiles_valid _ hd he
    (by decide)).2 ⟨hagree _ (by decide) (by decide) (iff_of_false ?_ ?_), fun _ _ => hid⟩⟩
  · decide +kernel
  · decide +kernel
  · decide +kernel
  · have hnone : vfsOpen (run (bootstrap 8192 1024) movedFiles) 1 [98] 2 = .error .notFound := by decide +kernel
    simp [hnone]

/-- A directory that is visible from an earlier epoch is made a second time, and a name that was
deleted at the epoch is refused. -/
theorem mkdir_looks_at_stored_entries :
    (let ops := [Op.mkdir 1 [97] 0, .snapshot]
     let st := run (bootstrap 8192 1024) ops
     Run.AllSteps step ValidOp (bootstrap 8192 1024) ops ∧ Writable st 2 ∧
       vfsOpen st 1 [97] 2 = .ok 2 ∧ (vfsMkdir st 1 [97] 2).1 = .ok 5) ∧
    (let ops := [Op.mkdir 1 [97] 0, .delete 1 [97] 0]
     let st := run (bootstrap 8192 1024) ops
     Run.AllSteps step ValidOp (bootstrap 8192 1024) ops ∧ Writable st 0 ∧
       vfsOpen st 1 [97] 0 = .error .notFound ∧
       (vfsMkdir st 1 [97] 0).1 = .error .alreadyExists) := by
  refine ⟨⟨by decide +kernel, .inl rfl, by decide +kernel, by decide +kernel⟩, by decide +kernel,
    .inl rfl, by decide +kernel, by decide +kernel⟩

end SphereVFS
